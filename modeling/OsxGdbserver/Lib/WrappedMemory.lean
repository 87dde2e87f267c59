import Mathlib.Tactic.Common
import Mathlib.Data.UInt

/-!
# Memory whose addresses wrap around

A memory with an element at each address of `w` bits. A range goes on at address zero
after the last one, so every address is the start of ranges of every length.
-/

namespace WrappedMemory

universe u
variable {w : Nat} {α : Type u}

/-- The `n` elements from `a` on. -/
def loadRange (m : BitVec w → α) (a : BitVec w) (n : Nat) : List α :=
  (List.range n).map fun i => m (a + BitVec.ofNat w i)

/-- The memory with `bs` placed at `a`. -/
def storeRange (m : BitVec w → α) (a : BitVec w) (bs : List α) : BitVec w → α :=
  fun x => bs[(x - a).toNat]?.getD (m x)

variable (m : BitVec w → α) (a : BitVec w)

@[simp] theorem loadRange_length (n : Nat) : (loadRange m a n).length = n := by
  simp [loadRange]

@[simp] theorem storeRange_nil : storeRange m a [] = m := rfl

theorem loadRange_add (i n : Nat) :
    loadRange m a (i + n) = loadRange m a i ++ loadRange m (a + BitVec.ofNat w i) n := by
  simp only [loadRange, List.range_add, List.map_append, List.map_map]
  congr 1
  apply List.map_congr_left
  intro j _
  rw [Function.comp_apply, BitVec.ofNat_add, BitVec.add_assoc]

theorem take_loadRange {i n : Nat} (h : i ≤ n) :
    (loadRange m a n).take i = loadRange m a i := by
  obtain ⟨d, rfl⟩ := Nat.exists_eq_add_of_le h
  rw [loadRange_add, List.take_left' (loadRange_length m a i)]

theorem drop_loadRange (i n : Nat) :
    (loadRange m a (i + n)).drop i = loadRange m (a + BitVec.ofNat w i) n := by
  rw [loadRange_add, List.drop_left' (loadRange_length m a i)]

/-- The addresses of the `n` elements from `a` on. -/
def addresses (a : BitVec w) (n : Nat) : List (BitVec w) :=
  (List.range n).map fun i => a + BitVec.ofNat w i

variable {a}

theorem storeRange_outside {bs : List α} {x : BitVec w} (h : bs.length ≤ (x - a).toNat) :
    storeRange m a bs x = m x := by
  rw [storeRange, List.getElem?_eq_none h, Option.getD_none]

/-- The distance to an address further on: less, or beyond every range that ends before it. -/
theorem toNat_sub_add (a x : BitVec w) {i : Nat} (h : i ≤ 2 ^ w) :
    (i ≤ (x - a).toNat → (x - (a + BitVec.ofNat w i)).toNat = (x - a).toNat - i) ∧
      ((x - a).toNat < i → (x - (a + BitVec.ofNat w i)).toNat = 2 ^ w - i + (x - a).toNat) := by
  have hsub : x - (a + BitVec.ofNat w i) = x - a - BitVec.ofNat w i := by
    simp only [BitVec.sub_eq_add_neg, BitVec.neg_add, BitVec.add_assoc]
  rw [hsub]
  generalize x - a = d
  rw [BitVec.toNat_sub, BitVec.toNat_ofNat]
  have hy := d.isLt
  generalize d.toNat = y at hy ⊢
  rcases Nat.lt_or_eq_of_le h with hlt | rfl
  · rw [Nat.mod_eq_of_lt hlt]
    constructor
    · intro hle
      rw [show 2 ^ w - i + y = y - i + 2 ^ w by omega, Nat.add_mod_right,
        Nat.mod_eq_of_lt (by omega)]
    · intro hgt
      rw [Nat.mod_eq_of_lt (by omega)]
  · rw [Nat.mod_self]
    constructor
    · intro hle
      omega
    · intro _
      rw [Nat.sub_zero, Nat.add_mod_left, Nat.mod_eq_of_lt hy, Nat.sub_self, Nat.zero_add]

/-- Storing a range piece by piece. -/
theorem storeRange_append {bs cs : List α} (h : bs.length + cs.length ≤ 2 ^ w) :
    storeRange (storeRange m a bs) (a + BitVec.ofNat w bs.length) cs =
      storeRange m a (bs ++ cs) := by
  funext x
  have hdist := toNat_sub_add a x (show bs.length ≤ 2 ^ w by omega)
  rcases Nat.lt_or_ge (x - a).toNat bs.length with hin | hout
  · rw [storeRange_outside _ (by rw [hdist.2 hin]; omega), storeRange, storeRange,
      List.getElem?_append_left hin]
  · rw [storeRange, hdist.1 hout, storeRange_outside m hout, storeRange,
      List.getElem?_append_right hout]

/-- Elements that are put back where they come from change nothing. -/
theorem storeRange_append_loadRange {bs : List α} {n : Nat} :
    storeRange m a (bs ++ loadRange m (a + BitVec.ofNat w bs.length) n) =
      storeRange m a bs := by
  funext x
  rcases Nat.lt_or_ge (x - a).toNat bs.length with hin | hout
  · rw [storeRange, storeRange, List.getElem?_append_left hin]
  · rw [storeRange_outside m hout, storeRange, List.getElem?_append_right hout]
    rcases Nat.lt_or_ge ((x - a).toNat - bs.length) n with hlast | hbeyond
    · have haddr : a + BitVec.ofNat w bs.length +
          BitVec.ofNat w ((x - a).toNat - bs.length) = x := by
        rw [BitVec.add_assoc, ← BitVec.ofNat_add, Nat.add_sub_of_le hout,
          BitVec.ofNat_toNat, BitVec.setWidth_eq, BitVec.add_comm, BitVec.sub_add_cancel]
      rw [loadRange, List.getElem?_map, List.getElem?_range hlast, Option.map_some,
        Option.getD_some, haddr]
    · rw [List.getElem?_eq_none (by simpa using hbeyond), Option.getD_none]

theorem toNat_add_sub (a : BitVec w) {i : Nat} (h : i < 2 ^ w) :
    (a + BitVec.ofNat w i - a).toNat = i := by
  rw [BitVec.add_comm, BitVec.add_sub_cancel, BitVec.toNat_ofNat, Nat.mod_eq_of_lt h]

/-- What was stored can be loaded in parts. -/
theorem loadRange_storeRange {bs : List α} (h : bs.length ≤ 2 ^ w) {i n : Nat}
    (hin : i + n ≤ bs.length) :
    loadRange (storeRange m a bs) (a + BitVec.ofNat w i) n = (bs.drop i).take n := by
  apply List.ext_getElem
  · simp only [loadRange_length, List.length_take, List.length_drop]
    omega
  · intro j hj _
    have hjn : j < n := by simpa using hj
    have haddr : a + BitVec.ofNat w i + BitVec.ofNat w j = a + BitVec.ofNat w (i + j) := by
      rw [BitVec.ofNat_add, BitVec.add_assoc]
    have hbyte : i + j < bs.length := by omega
    simp only [loadRange, List.getElem_map, List.getElem_range, haddr, storeRange,
      List.getElem_take, List.getElem_drop]
    rw [toNat_add_sub a (by omega), List.getElem?_eq_getElem hbyte, Option.getD_some]

/-- A range lies in a block of `size` addresses just if it ends in it. -/
theorem addresses_inside_iff (a : BitVec w) {size i n : Nat} (hn : 0 < n) (hi : i < 2 ^ w)
    (hsize : size + n ≤ 2 ^ w) :
    (∀ x ∈ addresses (a + BitVec.ofNat w i) n, (x - a).toNat < size) ↔ i + n ≤ size := by
  have hoffset : ∀ j, i + j < 2 ^ w →
      (a + BitVec.ofNat w i + BitVec.ofNat w j - a).toNat = i + j := by
    intro j hj
    rw [BitVec.add_assoc, ← BitVec.ofNat_add, toNat_add_sub a hj]
  simp only [addresses, List.mem_map, List.mem_range]
  constructor
  · intro h
    have hfirst := h _ ⟨0, hn, rfl⟩
    rw [hoffset 0 hi] at hfirst
    have hlast := h _ ⟨n - 1, by omega, rfl⟩
    rw [hoffset (n - 1) (by omega)] at hlast
    omega
  · rintro h x ⟨j, hj, rfl⟩
    rw [hoffset j (by omega)]
    omega

end WrappedMemory
