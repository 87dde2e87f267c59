import OsxGdbserver.Basic
import OsxGdbserver.Lib.Overlay
import Mathlib.Data.List.Pairwise

/-!
# Register tables and the register cache

The parts of `regcache.c` that do not touch the inferior, for any table of registers.
`set_register_cache` gives each register its offset; a register's data is the slice of
the cache there.
-/

namespace Regcache

open Overlay

variable {ν : Type}

/-- Offset and size are in bits. -/
structure Reg (ν : Type) where
  name : ν
  offset : Nat
  size : Nat
  deriving DecidableEq, Repr

/-- The offsets which the loop of `set_register_cache` assigns from `offset` on. -/
def layout : Nat → List (Reg ν) → List (Reg ν)
  | _, [] => []
  | offset, r :: rest => { r with offset := offset } :: layout (offset + r.size) rest

def totalBits (regs : List (Reg ν)) : Nat := (regs.map Reg.size).sum

/-- `reg_defs` and `register_bytes` afterwards. -/
def setRegisterCache (regs : List (Reg ν)) : List (Reg ν) × Nat :=
  (layout 0 regs, totalBits regs / 8)

/-- `registers + (reg_defs[n].offset / 8)`, as far as the register's size. -/
def registerData (r : Reg ν) (registers : List Byte) : List Byte :=
  (registers.drop (r.offset / 8)).take (r.size / 8)

/-- `supply_register` -/
def supplyRegister (r : Reg ν) (value : List Byte) (registers : List Byte) : List Byte :=
  memcpy registers (r.offset / 8) (value.take (r.size / 8))

@[simp] theorem supplyRegister_length (r : Reg ν) (value registers : List Byte) :
    (supplyRegister r value registers).length = registers.length :=
  memcpy_length _ _ _

/-- Every size is a number of bytes, as `regdef.h` asks. -/
def ByteSized (regs : List (Reg ν)) : Prop := ∀ r ∈ regs, 8 ∣ r.size

instance (regs : List (Reg ν)) : Decidable (ByteSized regs) :=
  inferInstanceAs (Decidable (∀ r ∈ regs, 8 ∣ r.size))

/-- Every register lies between the first offset and the end, at a byte boundary. -/
theorem layout_bounds {offset : Nat} {regs : List (Reg ν)} (sized : ByteSized regs)
    (start : 8 ∣ offset) : ∀ r ∈ layout offset regs,
      8 ∣ r.offset ∧ 8 ∣ r.size ∧ offset ≤ r.offset ∧
        r.offset + r.size ≤ offset + totalBits regs := by
  induction regs generalizing offset with
  | nil => simp [layout]
  | cons r rest ih =>
    have hr : 8 ∣ r.size := sized r List.mem_cons_self
    have hrest := ih (fun s hs => sized s (List.mem_cons_of_mem _ hs)) (Nat.dvd_add start hr)
    rintro s hs
    have htotal : totalBits (r :: rest) = r.size + totalBits rest := by simp [totalBits]
    rcases List.mem_cons.mp hs with rfl | hs
    · exact ⟨start, hr, Nat.le_refl _, by rw [htotal]; dsimp only; omega⟩
    · obtain ⟨ho, hs, hle, hend⟩ := hrest s hs
      exact ⟨ho, hs, by omega, by omega⟩

theorem totalBits_cons_div {r : Reg ν} (hr : 8 ∣ r.size) (rest : List (Reg ν)) :
    totalBits (r :: rest) / 8 = r.size / 8 + totalBits rest / 8 := by
  simp only [totalBits, List.map_cons, List.sum_cons]
  omega

/-- Earlier registers end before later ones start. -/
theorem layout_ordered {offset : Nat} {regs : List (Reg ν)} (sized : ByteSized regs)
    (start : 8 ∣ offset) :
    (layout offset regs).Pairwise fun r s => r.offset + r.size ≤ s.offset := by
  induction regs generalizing offset with
  | nil => exact .nil
  | cons r rest ih =>
    have hr : 8 ∣ r.size := sized r List.mem_cons_self
    have hrest : ByteSized rest := fun s hs => sized s (List.mem_cons_of_mem _ hs)
    refine List.pairwise_cons.mpr ⟨?_, ih hrest (Nat.dvd_add start hr)⟩
    rintro s hs
    exact (layout_bounds hrest (Nat.dvd_add start hr) s hs).2.2.1

/-- Two registers of a table with distinct names share no byte. -/
theorem layout_apart {regs : List (Reg ν)} (sized : ByteSized regs) {r s : Reg ν}
    (hr : r ∈ layout 0 regs) (hs : s ∈ layout 0 regs) (hne : r.name ≠ s.name) :
    r.offset / 8 + r.size / 8 ≤ s.offset / 8 ∨ s.offset / 8 + s.size / 8 ≤ r.offset / 8 := by
  have hordered := layout_ordered sized (Nat.dvd_zero 8)
  have hapart : r.offset + r.size ≤ s.offset ∨ s.offset + s.size ≤ r.offset := by
    obtain ⟨i, hi, rfl⟩ := List.getElem_of_mem hr
    obtain ⟨j, hj, rfl⟩ := List.getElem_of_mem hs
    rcases Nat.lt_trichotomy i j with hij | rfl | hij
    · exact Or.inl (List.pairwise_iff_getElem.mp hordered i j hi hj hij)
    · exact absurd rfl hne
    · exact Or.inr (List.pairwise_iff_getElem.mp hordered j i hj hi hij)
  have hrb := layout_bounds sized (Nat.dvd_zero 8) r hr
  have hsb := layout_bounds sized (Nat.dvd_zero 8) s hs
  omega

/-- A register reads back what was supplied to it. -/
theorem registerData_supply_same {regs : List (Reg ν)} (sized : ByteSized regs) {r : Reg ν}
    (hr : r ∈ layout 0 regs) {value registers : List Byte} (hvalue : value.length = r.size / 8)
    (hlen : registers.length = totalBits regs / 8) :
    registerData r (supplyRegister r value registers) = value := by
  have hb := layout_bounds sized (Nat.dvd_zero 8) r hr
  have htake : value.take (r.size / 8) = value := List.take_of_length_le (by omega)
  rw [registerData, supplyRegister, htake, ← hvalue]
  exact memcpy_slice_same (by omega)

theorem registerData_supply_other {regs : List (Reg ν)} (sized : ByteSized regs) {r s : Reg ν}
    (hr : r ∈ layout 0 regs) (hs : s ∈ layout 0 regs) (hne : r.name ≠ s.name)
    (value registers : List Byte) :
    registerData s (supplyRegister r value registers) = registerData s registers := by
  have hapart := layout_apart sized hr hs hne
  have hle := List.length_take_le (r.size / 8) value
  exact memcpy_slice_apart registers (by omega)

/-- The data of all registers, in table order, is the whole cache. -/
theorem flatMap_registerData {regs : List (Reg ν)} (sized : ByteSized regs) {offset : Nat}
    (start : 8 ∣ offset) (registers : List Byte) :
    (layout offset regs).flatMap (fun r => registerData r registers) =
      (registers.drop (offset / 8)).take (totalBits regs / 8) := by
  induction regs generalizing offset with
  | nil => simp [layout, totalBits]
  | cons r rest ih =>
    have hr : 8 ∣ r.size := sized r List.mem_cons_self
    have hrest : ByteSized rest := fun s hs => sized s (List.mem_cons_of_mem _ hs)
    have htotal := totalBits_cons_div hr rest
    have hnext : (offset + r.size) / 8 = offset / 8 + r.size / 8 := by omega
    rw [layout, List.flatMap_cons, ih hrest (Nat.dvd_add start hr), htotal, List.take_add,
      List.drop_drop, hnext]
    rfl

end Regcache
