import OsxGdbserver.Regcache
import Mathlib.Data.Vector.Basic
import Mathlib.Data.List.FinRange

/-!
# PowerPC registers

The table of `reg-ppc.c`, the two Mach structures a thread's registers come in, and the
transfers between these and a register cache in `darwin-ppc-low.c`.
-/

namespace Ppc

open Regcache Overlay

inductive RegName
  | r (i : Fin 32)
  | f (i : Fin 32)
  | pc | ps | cr | lr | ctr | xer | fpscr
  deriving DecidableEq, Repr

def regsPpc : List (Reg RegName) :=
  (List.finRange 32).map (fun i => ⟨.r i, 32 * i, 32⟩) ++
    (List.finRange 32).map (fun i => ⟨.f i, 1024 + 64 * i, 64⟩) ++
    [⟨.pc, 3072, 32⟩, ⟨.ps, 3104, 32⟩, ⟨.cr, 3136, 32⟩, ⟨.lr, 3168, 32⟩, ⟨.ctr, 3200, 32⟩,
      ⟨.xer, 3232, 32⟩, ⟨.fpscr, 3264, 32⟩]

/-- `init_registers` -/
def regDefs : List (Reg RegName) := (setRegisterCache regsPpc).1

def registerBytes : Nat := (setRegisterCache regsPpc).2

def registersLength : Nat := 2 * registerBytes

def expediteRegsPpc : List RegName := [.r 1, .pc]

/-- `find_regno`; every name asked for is in the table, see `findRegno_lt`. -/
def findRegno (name : RegName) : Nat := regDefs.findIdx fun r => r.name = name

theorem regDefs_length : regDefs.length = 71 := by decide

/-- The offsets written in the table are those `set_register_cache` computes. -/
theorem regDefs_eq : regDefs = regsPpc := by decide +kernel

theorem byteSized : ByteSized regsPpc := by decide

theorem regDefs_names :
    regDefs.map Reg.name =
      (List.finRange 32).map RegName.r ++ (List.finRange 32).map RegName.f ++
        [.pc, .ps, .cr, .lr, .ctr, .xer, .fpscr] := by
  rw [regDefs_eq]
  simp [regsPpc, Function.comp_def]

theorem names_complete (name : RegName) : name ∈ regDefs.map Reg.name := by
  rw [regDefs_names]
  cases name <;> simp

theorem names_nodup : (regDefs.map Reg.name).Nodup := by
  have hr : Function.Injective RegName.r := fun _ _ => RegName.r.inj
  have hf : Function.Injective RegName.f := fun _ _ => RegName.f.inj
  rw [regDefs_names, List.append_assoc]
  refine List.Nodup.append ((List.nodup_finRange 32).map hr) ?_ ?_
  · refine List.Nodup.append ((List.nodup_finRange 32).map hf) (by decide) ?_
    simp [List.Disjoint]
  · simp [List.Disjoint]

theorem findRegno_lt (name : RegName) : findRegno name < regDefs.length := by
  obtain ⟨r, hr, hname⟩ := List.mem_map.mp (names_complete name)
  exact List.findIdx_lt_length_of_exists ⟨r, hr, by simp [hname]⟩

/-- The table entry of a name. -/
def named (name : RegName) : Reg RegName := regDefs.get ⟨findRegno name, findRegno_lt name⟩

theorem named_name (name : RegName) : (named name).name = name :=
  of_decide_eq_true (List.findIdx_getElem (w := findRegno_lt name))

theorem named_mem (name : RegName) : named name ∈ layout 0 regsPpc := List.get_mem _ _

theorem named_of_mem {r : Reg RegName} (h : r ∈ regDefs) : named r.name = r := by
  have unique : ∀ r ∈ regDefs, ∀ s ∈ regDefs, r.name = s.name → r = s := by
    intro r hr s hs hname
    exact List.inj_on_of_nodup_map names_nodup hr hs hname
  exact unique _ (named_mem r.name) _ h (named_name r.name)

/-- The bytes a register has in the Mach structures. -/
def RegName.bytes : RegName → Nat
  | .f _ => 8
  | _ => 4

theorem RegName.bytes_le (name : RegName) : name.bytes ≤ 8 := by
  cases name <;> simp [RegName.bytes]

theorem regDefs_size {r : Reg RegName} (h : r ∈ regDefs) : r.size / 8 = r.name.bytes := by
  have sizes : ∀ r ∈ regsPpc, r.size / 8 = r.name.bytes := by decide +kernel
  exact sizes r (regDefs_eq ▸ h)

theorem regDefs_size_le {r : Reg RegName} (h : r ∈ regDefs) : r.size / 8 ≤ 8 :=
  (regDefs_size h).trans_le r.name.bytes_le

theorem named_size (name : RegName) : (named name).size / 8 = name.bytes := by
  rw [regDefs_size (named_mem name), named_name]

/-- The bytes of register `name` in a cache. -/
def collectByName (name : RegName) (registers : List Byte) : List Byte :=
  registerData (named name) registers

/-- `supply_register_by_name` for each entry in turn. -/
def supplyAll (supplies : List (RegName × List Byte)) (registers : List Byte) : List Byte :=
  supplies.foldl (fun regs p => supplyRegister (named p.1) p.2 regs) registers

@[simp] theorem supplyAll_length (supplies : List (RegName × List Byte))
    (registers : List Byte) : (supplyAll supplies registers).length = registers.length := by
  induction supplies generalizing registers with
  | nil => rfl
  | cons p rest ih => exact (ih _).trans (supplyRegister_length _ _ _)

theorem collect_supply_other {name other : RegName} (h : name ≠ other)
    (value registers : List Byte) :
    collectByName other (supplyRegister (named name) value registers) =
      collectByName other registers :=
  registerData_supply_other byteSized (named_mem name) (named_mem other)
    (by rwa [named_name, named_name]) value registers

theorem collect_supply_same {name : RegName} {value registers : List Byte}
    (hvalue : value.length = name.bytes) (hlen : registers.length = registerBytes) :
    collectByName name (supplyRegister (named name) value registers) = value :=
  registerData_supply_same byteSized (named_mem name) (by rwa [named_size]) hlen

theorem collect_supplyAll_of_not_mem {supplies : List (RegName × List Byte)} {name : RegName}
    (h : name ∉ supplies.map Prod.fst) (registers : List Byte) :
    collectByName name (supplyAll supplies registers) = collectByName name registers := by
  induction supplies generalizing registers with
  | nil => rfl
  | cons p rest ih =>
    rw [List.map_cons, List.mem_cons, not_or] at h
    exact (ih h.2 _).trans (collect_supply_other (Ne.symm h.1) p.2 registers)

theorem collect_supplyAll_of_mem {supplies : List (RegName × List Byte)}
    (nodup : (supplies.map Prod.fst).Nodup) (sized : ∀ p ∈ supplies, p.2.length = p.1.bytes)
    {name : RegName} {value : List Byte} (h : (name, value) ∈ supplies)
    {registers : List Byte} (hlen : registers.length = registerBytes) :
    collectByName name (supplyAll supplies registers) = value := by
  induction supplies generalizing registers with
  | nil => cases h
  | cons p rest ih =>
    rw [List.map_cons, List.nodup_cons] at nodup
    have hlen' : (supplyRegister (named p.1) p.2 registers).length = registerBytes := by
      rw [supplyRegister_length, hlen]
    rcases List.mem_cons.mp h with rfl | h
    · have hsized : value.length = name.bytes := sized _ List.mem_cons_self
      exact (collect_supplyAll_of_not_mem nodup.1 _).trans (collect_supply_same hsized hlen)
    · exact ih nodup.2 (fun q hq => sized q (List.mem_cons_of_mem _ hq)) h hlen'

abbrev Word := Vector Byte 4

abbrev DoubleWord := Vector Byte 8

/-- `ppc_thread_state_t` -/
structure ThreadState where
  srr0 : Word
  srr1 : Word
  r : Vector Word 32
  cr : Word
  xer : Word
  lr : Word
  ctr : Word
  mq : Word
  vrsave : Word
  deriving DecidableEq, Repr

def ThreadState.r1 (state : ThreadState) : Word := state.r.get 1

/-- `ppc_float_state_t` -/
structure FloatState where
  fpregs : Vector DoubleWord 32
  fpscrPad : Word
  fpscr : Word
  deriving DecidableEq, Repr

/-- What `darwin_ppc_fetch_registers` supplies from the thread state, in order. -/
def threadSupplies (state : ThreadState) : List (RegName × List Byte) :=
  (List.finRange 32).map (fun i => (.r i, state.r[i].toList)) ++
    [(.pc, state.srr0.toList), (.ps, state.srr1.toList), (.cr, state.cr.toList),
      (.lr, state.lr.toList), (.ctr, state.ctr.toList), (.xer, state.xer.toList)]

def floatSupplies (fstate : FloatState) : List (RegName × List Byte) :=
  (List.finRange 32).map (fun i => (.f i, fstate.fpregs[i].toList)) ++
    [(.fpscr, fstate.fpscr.toList)]

/-- `collect_register_by_name` into a field of fixed size. -/
def collectField {n : Nat} (name : RegName) (registers : List Byte) (field : Vector Byte n) :
    Vector Byte n :=
  copyIn field 0 (collectByName name registers)

/-- The thread state after `darwin_ppc_store_registers` collected into it. -/
def collectThread (registers : List Byte) (state : ThreadState) : ThreadState :=
  { state with
    r := Vector.ofFn fun i => collectField (.r i) registers state.r[i]
    srr0 := collectField .pc registers state.srr0
    srr1 := collectField .ps registers state.srr1
    cr := collectField .cr registers state.cr
    lr := collectField .lr registers state.lr
    ctr := collectField .ctr registers state.ctr
    xer := collectField .xer registers state.xer }

def collectFloat (registers : List Byte) (fstate : FloatState) : FloatState :=
  { fstate with
    fpregs := Vector.ofFn fun i => collectField (.f i) registers fstate.fpregs[i]
    fpscr := collectField .fpscr registers fstate.fpscr }

/-- The registers of a thread, as the kernel holds them. -/
structure Machine where
  thread : ThreadState
  float : FloatState
  deriving DecidableEq, Repr

/-- All registers are zero. -/
def blankMachine : Machine where
  thread :=
    { srr0 := Vector.replicate 4 0, srr1 := Vector.replicate 4 0
      r := Vector.replicate 32 (Vector.replicate 4 0), cr := Vector.replicate 4 0
      xer := Vector.replicate 4 0, lr := Vector.replicate 4 0, ctr := Vector.replicate 4 0
      mq := Vector.replicate 4 0, vrsave := Vector.replicate 4 0 }
  float :=
    { fpregs := Vector.replicate 32 (Vector.replicate 8 0), fpscrPad := Vector.replicate 4 0
      fpscr := Vector.replicate 4 0 }

def Machine.get (m : Machine) : RegName → List Byte
  | .r i => m.thread.r[i].toList
  | .f i => m.float.fpregs[i].toList
  | .pc => m.thread.srr0.toList
  | .ps => m.thread.srr1.toList
  | .cr => m.thread.cr.toList
  | .lr => m.thread.lr.toList
  | .ctr => m.thread.ctr.toList
  | .xer => m.thread.xer.toList
  | .fpscr => m.float.fpscr.toList

/-- Which of the two structures a register comes from. -/
def RegName.isFloat : RegName → Bool
  | .f _ | .fpscr => true
  | _ => false

theorem threadSupplies_names (state : ThreadState) :
    (threadSupplies state).map Prod.fst =
      (List.finRange 32).map .r ++ [.pc, .ps, .cr, .lr, .ctr, .xer] := by
  simp [threadSupplies]

theorem floatSupplies_names (fstate : FloatState) :
    (floatSupplies fstate).map Prod.fst = (List.finRange 32).map .f ++ [.fpscr] := by
  simp [floatSupplies]

theorem threadSupplies_sized (state : ThreadState) :
    ∀ p ∈ threadSupplies state, p.2.length = p.1.bytes := by
  intro p hp
  rcases List.mem_append.mp hp with hp | hp
  · obtain ⟨i, _, rfl⟩ := List.mem_map.mp hp
    simp [RegName.bytes]
  · simp only [List.mem_cons, List.not_mem_nil, or_false] at hp
    rcases hp with rfl | rfl | rfl | rfl | rfl | rfl <;> simp [RegName.bytes]

theorem floatSupplies_sized (fstate : FloatState) :
    ∀ p ∈ floatSupplies fstate, p.2.length = p.1.bytes := by
  intro p hp
  rcases List.mem_append.mp hp with hp | hp
  · obtain ⟨i, _, rfl⟩ := List.mem_map.mp hp
    simp [RegName.bytes]
  · rw [List.mem_singleton.mp hp]
    simp [RegName.bytes]

/-- Supplying the thread state sets the registers it has and no others. -/
theorem collect_threadSupplies (m : Machine) {registers : List Byte}
    (hlen : registers.length = registerBytes) (name : RegName) :
    collectByName name (supplyAll (threadSupplies m.thread) registers) =
      if name.isFloat then collectByName name registers else m.get name := by
  have nodup : ((threadSupplies m.thread).map Prod.fst).Nodup := by
    rw [threadSupplies_names]
    decide +kernel
  cases hfloat : name.isFloat with
  | true =>
    apply collect_supplyAll_of_not_mem
    rw [threadSupplies_names]
    cases name <;> simp_all [RegName.isFloat]
  | false =>
    apply collect_supplyAll_of_mem nodup (threadSupplies_sized m.thread) _ hlen
    cases name <;> simp_all [RegName.isFloat, threadSupplies, Machine.get]

theorem collect_floatSupplies (m : Machine) {registers : List Byte}
    (hlen : registers.length = registerBytes) (name : RegName) :
    collectByName name (supplyAll (floatSupplies m.float) registers) =
      if name.isFloat then m.get name else collectByName name registers := by
  have nodup : ((floatSupplies m.float).map Prod.fst).Nodup := by
    rw [floatSupplies_names]
    decide +kernel
  cases hfloat : name.isFloat with
  | true =>
    apply collect_supplyAll_of_mem nodup (floatSupplies_sized m.float) _ hlen
    cases name <;> simp_all [RegName.isFloat, floatSupplies, Machine.get]
  | false =>
    apply collect_supplyAll_of_not_mem
    rw [floatSupplies_names]
    cases name <;> simp_all [RegName.isFloat]

theorem collectByName_length (name : RegName) {registers : List Byte}
    (hlen : registers.length = registerBytes) :
    (collectByName name registers).length = name.bytes := by
  have hb := layout_bounds byteSized (Nat.dvd_zero 8) (named name) (named_mem name)
  have hsize := named_size name
  have htotal : totalBits regsPpc / 8 = registerBytes := rfl
  simp only [collectByName, registerData, List.length_take, List.length_drop]
  omega

/-- Where in the cache byte `j` of a register is. -/
def place (name : RegName) (j : Nat) : Nat := (named name).offset / 8 + j

theorem place_lt {name : RegName} {j : Nat} (h : j < name.bytes) :
    place name j < registerBytes := by
  have hb := layout_bounds byteSized (Nat.dvd_zero 8) (named name) (named_mem name)
  have hsize := named_size name
  have htotal : totalBits regsPpc / 8 = registerBytes := rfl
  unfold place
  omega

theorem getElem?_collectByName {name : RegName} {j : Nat} (h : j < name.bytes)
    (registers : List Byte) : (collectByName name registers)[j]? = registers[place name j]? := by
  rw [collectByName, registerData, List.getElem?_take_of_lt (by rwa [named_size]),
    List.getElem?_drop]
  rfl

theorem collectField_toList {n : Nat} {name : RegName} (hn : name.bytes = n)
    {registers : List Byte} (hlen : registers.length = registerBytes) (field : Vector Byte n) :
    (collectField name registers field).toList = collectByName name registers :=
  copyIn_all field (by rw [collectByName_length name hlen, hn])

/-- Storing sets the registers of the structure collected into and no others. -/
theorem get_collectThread (m : Machine) {registers : List Byte}
    (hlen : registers.length = registerBytes) (name : RegName) :
    ({ m with thread := collectThread registers m.thread } : Machine).get name =
      if name.isFloat then m.get name else collectByName name registers := by
  cases name with
  | r i =>
    simp only [Machine.get, collectThread, Fin.getElem_fin, Vector.getElem_ofFn]
    exact collectField_toList rfl hlen _
  | f i => rfl
  | fpscr => rfl
  | _ => exact collectField_toList rfl hlen _

theorem get_collectFloat (m : Machine) {registers : List Byte}
    (hlen : registers.length = registerBytes) (name : RegName) :
    ({ m with float := collectFloat registers m.float } : Machine).get name =
      if name.isFloat then collectByName name registers else m.get name := by
  cases name with
  | f i =>
    simp only [Machine.get, collectFloat, Fin.getElem_fin, Vector.getElem_ofFn]
    exact collectField_toList rfl hlen _
  | fpscr => exact collectField_toList rfl hlen _
  | _ => rfl

end Ppc
