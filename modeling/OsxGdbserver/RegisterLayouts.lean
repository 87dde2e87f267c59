import OsxGdbserver.RegisterPackets
import OsxGdbserver.StopReplies

/-!
# Register tables in general

For any table with distinct names and sizes of whole bytes, `set_register_cache` deals the
cache out to the registers without a gap. All that is read and written by number, by name or
as text then agrees.
-/

namespace Regcache

open Overlay CString

variable {ν : Type}

/-- The bytes of the cache that belong to a register. -/
def byteRange (r : Reg ν) : List Nat := List.range' (r.offset / 8) (r.size / 8)

/-- The registers share the bytes of the cache out between them, in table order. -/
structure Partition (regDefs : List (Reg ν)) (registerBytes : Nat) : Prop where
  disjoint : regDefs.Pairwise fun r s => (byteRange r).Disjoint (byteRange s)
  covers : regDefs.flatMap byteRange = List.range registerBytes

theorem flatMap_byteRange {regs : List (Reg ν)} (sized : ByteSized regs) {offset : Nat}
    (start : 8 ∣ offset) :
    (layout offset regs).flatMap byteRange =
      List.range' (offset / 8) (totalBits regs / 8) := by
  induction regs generalizing offset with
  | nil => simp [layout, totalBits]
  | cons r rest ih =>
    have hr : 8 ∣ r.size := sized r List.mem_cons_self
    have hrest : ByteSized rest := fun s hs => sized s (List.mem_cons_of_mem _ hs)
    have htotal := totalBits_cons_div hr rest
    have hnext : (offset + r.size) / 8 = offset / 8 + r.size / 8 := by omega
    rw [layout, List.flatMap_cons, ih hrest (Nat.dvd_add start hr), htotal, hnext]
    exact List.range'_append_1

theorem partition_setRegisterCache {regs : List (Reg ν)} (sized : ByteSized regs) :
    Partition (setRegisterCache regs).1 (setRegisterCache regs).2 where
  disjoint := by
    have hbounds := layout_bounds sized (Nat.dvd_zero 8)
    refine (layout_ordered sized (Nat.dvd_zero 8)).imp_of_mem ?_
    intro r s hr hs hle x hx hx'
    have hrb := hbounds r hr
    have hsb := hbounds s hs
    simp only [byteRange, List.mem_range'_1] at hx hx'
    omega
  covers := by
    rw [List.range_eq_range']
    exact flatMap_byteRange sized (Nat.dvd_zero 8)

/-- `set_register_cache` writes nothing but the offsets. -/
theorem map_name_layout (offset : Nat) (regs : List (Reg ν)) :
    (layout offset regs).map Reg.name = regs.map Reg.name := by
  induction regs generalizing offset with
  | nil => rfl
  | cons r rest ih => exact congrArg (r.name :: ·) (ih _)

namespace RegDefs

variable (regDefs : List (Reg ν))

/-- `find_regno`; `none` is its `fatal`. -/
def findRegno [DecidableEq ν] (name : ν) : Option Nat := regDefs.findIdx? fun r => r.name = name

variable {regDefs} in
/-- `supply_register` on the bytes of a cache. -/
def supplyRegister (n : Fin regDefs.length) (value registers : List Byte) : List Byte :=
  Regcache.supplyRegister regDefs[n] value registers

variable {regDefs} in
/-- `collect_register` from a valid cache. -/
def collectRegister (n : Fin regDefs.length) (registers : List Byte) : List Byte :=
  registerData regDefs[n] registers

variable {regDefs} in
def collectRegisterAsString (n : Fin regDefs.length) (registers : List Byte) : List Byte :=
  Gdbserver.convertIntToAscii (collectRegister n registers)

/-- `registers_to_string` of a valid cache of `register_bytes` bytes. -/
def registersToString (registerBytes : Nat) (registers : List Byte) : List Byte :=
  Gdbserver.convertIntToAscii (registers.take registerBytes)

/-- `registers_from_string`: the bytes of the cache, and whether all digits were good. -/
def registersFromString (registerBytes : Nat) (buf registers : List Byte) : List Byte × Bool :=
  let decoded := Gdbserver.convertAsciiToInt buf (min (cstr buf).length (2 * registerBytes) / 2)
  (memcpy registers 0 decoded.1, decoded.2)

variable {regDefs}

/-- Two numbers of one table with distinct names stand for two names. -/
theorem name_ne {n m : Fin regDefs.length} (distinct : (regDefs.map Reg.name).Nodup)
    (hne : n ≠ m) : regDefs[n].name ≠ regDefs[m].name := by
  intro hname
  have hreg := List.inj_on_of_nodup_map distinct (List.getElem_mem _) (List.getElem_mem _) hname
  exact hne (distinct.of_map.get_inj_iff.mp hreg)

theorem findRegno_name [DecidableEq ν] (distinct : (regDefs.map Reg.name).Nodup)
    (n : Fin regDefs.length) : findRegno regDefs regDefs[n].name = some n := by
  refine List.findIdx?_eq_some_iff_getElem.mpr ⟨n.isLt, decide_eq_true rfl, ?_⟩
  intro j hj
  have hne : (⟨j, by omega⟩ : Fin regDefs.length) ≠ n := fun heq => by
    rw [← heq] at hj
    exact Nat.lt_irrefl j hj
  simpa using name_ne distinct hne

theorem collectRegister_supplyRegister {regs : List (Reg ν)} (sized : ByteSized regs)
    (distinct : (regs.map Reg.name).Nodup) {n m : Fin (layout 0 regs).length}
    {value registers : List Byte} (hvalue : value.length = (layout 0 regs)[n].size / 8)
    (hlen : registers.length = totalBits regs / 8) :
    collectRegister m (supplyRegister n value registers) =
      if m = n then value else collectRegister m registers := by
  have hn : (layout 0 regs)[n] ∈ layout 0 regs := List.getElem_mem _
  have hm : (layout 0 regs)[m] ∈ layout 0 regs := List.getElem_mem _
  split
  · rename_i heq
    rw [heq]
    exact registerData_supply_same sized hn hvalue hlen
  · rename_i hne
    have hnames : (layout 0 regs)[n].name ≠ (layout 0 regs)[m].name :=
      name_ne ((map_name_layout 0 regs).symm ▸ distinct) (Ne.symm hne)
    exact registerData_supply_other sized hn hm hnames value registers

end RegDefs

end Regcache

namespace Gdbserver

open CString Regcache

/-- `convert_ascii_to_int` takes back what `convert_int_to_ascii` has written. -/
theorem convertAsciiToInt_convertIntToAscii (bytes rest : List Byte) :
    convertAsciiToInt (convertIntToAscii bytes ++ rest) bytes.length = (bytes, true) := by
  induction bytes with
  | nil => rfl
  | cons b bytes ih =>
    rw [convertIntToAscii_cons]
    simp [convertAsciiToInt, deref, hexPair_nibbles, ih]

theorem convertIntToAscii_flatMap {α : Type} (xs : List α) (f : α → List Byte) :
    convertIntToAscii (xs.flatMap f) = xs.flatMap fun x => convertIntToAscii (f x) :=
  List.flatMap_assoc

/-- What `registers_from_string` decodes of the text that `registers_to_string` has made. -/
theorem decoded_registersToString (registers rest : List Byte) :
    let buf := RegDefs.registersToString registers.length registers ++ 0 :: rest
    convertAsciiToInt buf (min (cstr buf).length (2 * registers.length) / 2) =
      (registers, true) := by
  have hnul := zero_not_mem_convertIntToAscii registers
  have hbuf : RegDefs.registersToString registers.length registers =
      convertIntToAscii registers := by
    rw [RegDefs.registersToString, List.take_length]
  rw [hbuf]
  dsimp only
  rw [cstr_append_nul hnul, convertIntToAscii_length, Nat.min_self,
    Nat.mul_div_cancel_left _ (by decide)]
  exact convertAsciiToInt_convertIntToAscii registers (0 :: rest)

/-- That text restores the cache it was made of, whatever another one holds. -/
theorem registersFromString_registersToString {registers registers' rest : List Byte}
    (hlen : registers'.length = registers.length) :
    RegDefs.registersFromString registers.length
      (RegDefs.registersToString registers.length registers ++ 0 :: rest) registers' =
        (registers, true) := by
  rw [RegDefs.registersFromString, decoded_registersToString]
  exact congrArg (·, true) (Overlay.memcpy_all hlen.symm)

/-- All registers of a valid cache in table order make up the text of the whole cache. -/
theorem registersToString_eq_flatMap {ν : Type} {regs : List (Reg ν)} (sized : ByteSized regs)
    (registers : List Byte) :
    RegDefs.registersToString (totalBits regs / 8) registers =
      (List.finRange (layout 0 regs).length).flatMap fun n =>
        RegDefs.collectRegisterAsString n registers := by
  have hall := flatMap_registerData sized (Nat.dvd_zero 8) registers
  rw [Nat.zero_div, List.drop_zero] at hall
  have htable : (List.finRange (layout 0 regs).length).map (layout 0 regs).get = layout 0 regs :=
    List.map_get_finRange _
  have hnumbers : (layout 0 regs).flatMap (fun r => registerData r registers) =
      (List.finRange (layout 0 regs).length).flatMap fun n =>
        RegDefs.collectRegister n registers := by
    have hmap := List.flatMap_map (layout 0 regs).get (fun r => registerData r registers)
      (List.finRange (layout 0 regs).length)
    rw [htable] at hmap
    exact hmap
  rw [RegDefs.registersToString, ← hall, hnumbers, convertIntToAscii_flatMap]
  rfl

/-- The layout is a partition of the cache, and register access is lawful. -/
theorem register_layout_lawful {ν : Type} [DecidableEq ν] {regs : List (Reg ν)}
    (distinct : (regs.map Reg.name).Nodup) (sized : ByteSized regs) :
    let regDefs := (setRegisterCache regs).1
    let registerBytes := (setRegisterCache regs).2
    Partition regDefs registerBytes ∧
      (∀ n : Fin regDefs.length, RegDefs.findRegno regDefs regDefs[n].name = some n) ∧
      ∀ registers : List Byte, registers.length = registerBytes →
        (∀ (n m : Fin regDefs.length) (value : List Byte),
          value.length = regDefs[n].size / 8 →
            RegDefs.collectRegister m (RegDefs.supplyRegister n value registers) =
              if m = n then value else RegDefs.collectRegister m registers) ∧
          (RegDefs.registersToString registerBytes registers =
            (List.finRange regDefs.length).flatMap fun n =>
              RegDefs.collectRegisterAsString n registers) ∧
          ∀ rest, RegDefs.registersFromString registerBytes
            (RegDefs.registersToString registerBytes registers ++ 0 :: rest) registers =
              (registers, true) := by
  intro regDefs registerBytes
  have hnames : (regDefs.map Reg.name).Nodup := (map_name_layout 0 regs).symm ▸ distinct
  refine ⟨partition_setRegisterCache sized, RegDefs.findRegno_name hnames, ?_⟩
  intro registers hlen
  refine ⟨?_, registersToString_eq_flatMap sized registers, ?_⟩
  · intro n m value hvalue
    exact RegDefs.collectRegister_supplyRegister sized distinct hvalue hlen
  · intro rest
    rw [← hlen]
    exact registersFromString_registersToString rfl

/-- The table of `reg-ppc.c`. -/
theorem register_layout_lawful_ppc :
    Partition Ppc.regDefs Ppc.registerBytes ∧
      ∀ n : Fin Ppc.regDefs.length, RegDefs.findRegno Ppc.regDefs Ppc.regDefs[n].name = some n := by
  have distinct : (Ppc.regsPpc.map Reg.name).Nodup := by decide +kernel
  have h := register_layout_lawful distinct Ppc.byteSized
  exact ⟨h.1, h.2.1⟩

section Server

open Ppc

variable {σ : Type} {k : Kernel σ} {s : Server σ} {t : ThreadInfo}

theorem findRegno_eq (name : RegName) :
    RegDefs.findRegno regDefs name = some (Ppc.findRegno name) :=
  List.findIdx?_eq_some_iff_findIdx_eq.mpr ⟨findRegno_lt name, rfl⟩

theorem collectRegisterAsString_of_valid (h : Live s t)
    (nodup : (s.allThreads.map ThreadInfo.node).Nodup) (valid : t.regcache.valid = true)
    (n : Fin regDefs.length) :
    (collectRegisterAsString k n).run s =
      .ok (RegDefs.collectRegisterAsString n t.regcache.registers) s := by
  have hr : regDefs[(n : Nat)]? = some regDefs[n] := List.getElem?_eq_getElem n.isLt
  rw [collectRegisterAsString_run h nodup hr, fill_of_valid h nodup valid, filled_of_valid valid]
  rfl

theorem registersToString_of_valid (h : Live s t)
    (nodup : (s.allThreads.map ThreadInfo.node).Nodup) (valid : t.regcache.valid = true) :
    (registersToString k).run s =
      .ok (RegDefs.registersToString registerBytes t.regcache.registers) s := by
  have hwhole : t.regcache.registers.take registerBytes = t.regcache.registers :=
    List.take_of_length_le (Nat.le_of_eq t.regcache.registers_length)
  rw [registersToString_run h nodup, fill_of_valid h nodup valid, filled_of_valid valid,
    RegDefs.registersToString, hwhole]

theorem supply_registers (n : Fin regDefs.length) (value : List Byte) :
    (supply regDefs[n] value t).regcache.registers =
      RegDefs.supplyRegister n value t.regcache.registers := rfl

theorem storeBytes_decodedRegisters (p : List Byte) :
    ((storeBytes (decodedRegisters p).1 t).regcache.registers, (decodedRegisters p).2) =
      RegDefs.registersFromString registerBytes p t.regcache.registers := rfl

/-- Given back its own registers, the server keeps its cache. -/
theorem registersFromString_of_valid (h : Live s t)
    (nodup : (s.allThreads.map ThreadInfo.node).Nodup) (valid : t.regcache.valid = true)
    (rest : List Byte) :
    ∃ entry, (registersFromString k
      (RegDefs.registersToString registerBytes t.regcache.registers ++ 0 :: rest)).run s =
        .ok () (s.record entry) := by
  have hdecoded : decodedRegisters
      (RegDefs.registersToString registerBytes t.regcache.registers ++ 0 :: rest) =
        (t.regcache.registers, true) := by
    have h := decoded_registersToString t.regcache.registers rest
    rwa [t.regcache.registers_length] at h
  have hself : storeBytes t.regcache.registers t = t :=
    (storeBytes_eq_self_iff t.regcache.registers_length.le).mpr List.prefix_rfl
  have hrun := registersFromString_run (k := k) h nodup
    (RegDefs.registersToString registerBytes t.regcache.registers ++ 0 :: rest)
  rw [hdecoded, fill_of_valid h nodup valid] at hrun
  have hsame := assignThread_eq_self
    (s := s.record (.supply t.node true true 0 t.regcache.registers)) nodup h.mem hself
  exact ⟨_, hrun.trans (congrArg (EStateM.Result.ok ()) hsame)⟩

end Server

end Gdbserver
