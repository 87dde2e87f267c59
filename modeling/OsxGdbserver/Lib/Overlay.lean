import Mathlib.Data.List.Basic
import Mathlib.Tactic.Common

/-!
# Byte buffers placed at addresses

A buffer together with the address of its first byte is a partial function from
addresses to bytes. Copying the common part of two placed buffers from one to
the other is `overlay`; reading and writing a memory are `load` and `store`.
Everything is stated pointwise, address by address.
-/

namespace Overlay

universe u
variable {α : Type u}

/-- Address `x` is one of the `n` addresses from `a` on. -/
def InSpan (a : Int) (n : Nat) (x : Int) : Prop := a ≤ x ∧ x < a + n

instance (a : Int) (n : Nat) (x : Int) : Decidable (InSpan a n x) :=
  inferInstanceAs (Decidable (a ≤ x ∧ x < a + n))

/-- No address belongs to both spans. -/
def Apart (a : Int) (n : Nat) (b : Int) (k : Nat) : Prop :=
  ∀ x, InSpan a n x → ¬ InSpan b k x

theorem apart_iff {a b : Int} {n k : Nat} :
    Apart a n b k ↔ n = 0 ∨ k = 0 ∨ a + n ≤ b ∨ b + k ≤ a := by
  constructor
  · rintro h
    by_contra hmeet
    exact h (max a b) ⟨by omega, by omega⟩ ⟨by omega, by omega⟩
  · rintro h x ⟨ha, ha'⟩ ⟨hb, hb'⟩
    omega

instance (a : Int) (n : Nat) (b : Int) (k : Nat) : Decidable (Apart a n b k) :=
  decidable_of_iff _ apart_iff.symm

theorem Apart.symm {a b : Int} {n k : Nat} (h : Apart a n b k) : Apart b k a n :=
  fun x hb ha => h x ha hb

/-- The byte which the buffer `bs` placed at `a` holds for address `x`. -/
def byteAt (a : Int) (bs : List α) (x : Int) : Option α :=
  if a ≤ x then bs[(x - a).toNat]? else none

theorem byteAt_of_not_inSpan {a x : Int} {bs : List α} (h : ¬ InSpan a bs.length x) :
    byteAt a bs x = none := by
  unfold byteAt
  split
  · rename_i ha
    rw [List.getElem?_eq_none_iff]
    simp only [InSpan, not_and, Int.not_lt] at h
    have := h ha
    omega
  · rfl

theorem byteAt_of_inSpan {a x : Int} {bs : List α} (h : InSpan a bs.length x) :
    ∃ v, byteAt a bs x = some v := by
  have hlt : (x - a).toNat < bs.length := by
    have := h.1
    have := h.2
    omega
  exact ⟨bs[(x - a).toNat], by simp [byteAt, h.1, hlt]⟩

theorem byteAt_isSome_iff {a x : Int} {bs : List α} :
    (byteAt a bs x).isSome ↔ InSpan a bs.length x := by
  by_cases h : InSpan a bs.length x
  · obtain ⟨v, hv⟩ := byteAt_of_inSpan h
    simp [hv, h]
  · simp [byteAt_of_not_inSpan h, h]

theorem byteAt_eq_some_inSpan {a x : Int} {bs : List α} {v : α}
    (h : byteAt a bs x = some v) : InSpan a bs.length x :=
  byteAt_isSome_iff.mp (by simp [h])

theorem byteAt_add (a : Int) (bs : List α) (i : Nat) : byteAt a bs (a + i) = bs[i]? := by
  have hi : (a + (i : Int) - a).toNat = i := by omega
  rw [byteAt, if_pos (by omega), hi]

/-- Two buffers of one length which hold the same byte for every address are equal. -/
theorem eq_of_byteAt {a : Int} {bs cs : List α} (hlen : bs.length = cs.length)
    (h : ∀ x, InSpan a bs.length x → byteAt a bs x = byteAt a cs x) : bs = cs := by
  apply List.ext_getElem? fun i => ?_
  by_cases hi : i < bs.length
  · have hx := h (a + i) ⟨by omega, by omega⟩
    simpa only [byteAt_add] using hx
  · rw [List.getElem?_eq_none (by omega), List.getElem?_eq_none (by omega)]

/-- The bytes at the `n` addresses from `a` on. -/
def load (m : Int → α) (a : Int) (n : Nat) : List α :=
  (List.range n).map fun i : Nat => m (a + i)

/-- The memory after the bytes `bs` were written from address `a` on. -/
def store (m : Int → α) (a : Int) (bs : List α) : Int → α :=
  fun x => (byteAt a bs x).getD (m x)

@[simp] theorem load_length (m : Int → α) (a : Int) (n : Nat) : (load m a n).length = n := by
  simp [load]

theorem byteAt_load (m : Int → α) (a : Int) (n : Nat) (x : Int) :
    byteAt a (load m a n) x = if InSpan a n x then some (m x) else none := by
  by_cases h : InSpan a n x
  · have hlt : (x - a).toNat < n := by
      have := h.1
      have := h.2
      omega
    have hx : a + ((x - a).toNat : Int) = x := by
      have := h.1
      omega
    simp only [byteAt, load, if_pos h, if_pos h.1, List.getElem?_map,
      List.getElem?_range hlt, Option.map_some, hx]
  · rw [if_neg h]
    exact byteAt_of_not_inSpan (by simpa using h)

theorem load_eq_iff {m m' : Int → α} {a : Int} {n : Nat} :
    load m a n = load m' a n ↔ ∀ x, InSpan a n x → m x = m' x := by
  constructor
  · intro h x hx
    have := congrArg (fun bs => byteAt a bs x) h
    simpa [byteAt_load, hx] using this
  · intro h
    apply eq_of_byteAt (a := a) (by simp)
    intro x hx
    rw [load_length] at hx
    rw [byteAt_load, byteAt_load, if_pos hx, if_pos hx, h x hx]

theorem store_of_not_inSpan {m : Int → α} {a x : Int} {bs : List α}
    (h : ¬ InSpan a bs.length x) : store m a bs x = m x := by
  simp [store, byteAt_of_not_inSpan h]

theorem store_of_byteAt {m : Int → α} {a x : Int} {bs : List α} {v : α}
    (h : byteAt a bs x = some v) : store m a bs x = v := by
  simp [store, h]

theorem store_congr {m m' : Int → α} {a x : Int} {bs : List α}
    (h : ¬ InSpan a bs.length x → m x = m' x) : store m a bs x = store m' a bs x := by
  by_cases hx : InSpan a bs.length x
  · obtain ⟨v, hv⟩ := byteAt_of_inSpan hx
    rw [store_of_byteAt hv, store_of_byteAt hv]
  · rw [store_of_not_inSpan hx, store_of_not_inSpan hx, h hx]

theorem load_store_same (m : Int → α) (a : Int) (bs : List α) :
    load (store m a bs) a bs.length = bs := by
  apply eq_of_byteAt (a := a) (by simp)
  intro x hx
  rw [load_length] at hx
  obtain ⟨v, hv⟩ := byteAt_of_inSpan hx
  rw [byteAt_load, if_pos hx, store_of_byteAt hv, hv]

theorem load_store_apart (m : Int → α) {a b : Int} {n : Nat} {bs : List α}
    (h : Apart a n b bs.length) : load (store m b bs) a n = load m a n :=
  load_eq_iff.mpr fun x hx => store_of_not_inSpan (h x hx)

@[simp] theorem store_load (m : Int → α) (a : Int) (n : Nat) : store m a (load m a n) = m := by
  funext x
  rw [store, byteAt_load]
  split <;> rfl

/-- A second write of the same length hides the first. -/
theorem store_store_same (m : Int → α) (a : Int) {bs cs : List α}
    (hlen : cs.length = bs.length) : store (store m a bs) a cs = store m a cs := by
  funext x
  exact store_congr fun hx => store_of_not_inSpan (hlen ▸ hx)

/-- What a write replaced can be put back. -/
theorem store_store_load (m : Int → α) (a : Int) (bs : List α) :
    store (store m a bs) a (load m a bs.length) = m := by
  rw [store_store_same m a (load_length m a bs.length), store_load]

theorem store_comm (m : Int → α) {a b : Int} {bs cs : List α}
    (h : Apart a bs.length b cs.length) :
    store (store m a bs) b cs = store (store m b cs) a bs := by
  funext x
  by_cases ha : InSpan a bs.length x
  · have hb := h x ha
    obtain ⟨v, hv⟩ := byteAt_of_inSpan ha
    rw [store_of_not_inSpan hb, store_of_byteAt hv, store_of_byteAt hv]
  · rw [store_of_not_inSpan (m := store m b cs) ha]
    exact store_congr fun _ => store_of_not_inSpan ha

/-- `memcpy(dst + off, src, src.length)`; bytes past the end of `dst` are dropped. -/
def memcpy (dst : List α) (off : Nat) (src : List α) : List α :=
  dst.mapIdx fun i d => if off ≤ i then (src[i - off]?).getD d else d

/-- Copy into the buffer at `a` those bytes of the buffer at `p` that lie in its span. -/
def overlay (a : Int) (dst : List α) (p : Int) (src : List α) : List α :=
  dst.mapIdx fun i d => (byteAt p src (a + i)).getD d

@[simp] theorem memcpy_length (dst : List α) (off : Nat) (src : List α) :
    (memcpy dst off src).length = dst.length := by
  simp [memcpy]

@[simp] theorem overlay_length (a : Int) (dst : List α) (p : Int) (src : List α) :
    (overlay a dst p src).length = dst.length := by
  simp [overlay]

/-- `memcpy` into an array of fixed length. -/
def copyIn {n : Nat} (dst : Vector α n) (off : Nat) (src : List α) : Vector α n :=
  ⟨(memcpy dst.toList off src).toArray, by simp⟩

theorem memcpy_all {dst src : List α} (h : src.length = dst.length) :
    memcpy dst 0 src = src := by
  apply List.ext_getElem (by simp [h])
  intro i hi₁ hi₂
  simp [memcpy, hi₂]

theorem copyIn_all {n : Nat} (dst : Vector α n) {src : List α} (h : src.length = n) :
    (copyIn dst 0 src).toList = src := by
  have hall : memcpy dst.toList 0 src = src := memcpy_all (by simp [h])
  simp [copyIn, hall]

theorem memcpy_drop (dst : List α) {off n : Nat} {src : List α} (h : off + src.length ≤ n) :
    (memcpy dst off src).drop n = dst.drop n := by
  apply List.ext_getElem (by simp)
  intro i hi₁ hi₂
  have hout : src.length ≤ n + i - off := by omega
  simp only [List.getElem_drop, memcpy, List.getElem_mapIdx, List.getElem?_eq_none hout]
  split <;> rfl

theorem getElem?_memcpy (dst : List α) (off : Nat) (src : List α) {i : Nat}
    (h : i < dst.length) :
    (memcpy dst off src)[i]? =
      if off ≤ i ∧ i < off + src.length then src[i - off]? else dst[i]? := by
  have hmap : (memcpy dst off src)[i]? =
      some (if off ≤ i then (src[i - off]?).getD dst[i] else dst[i]) := by
    simp [memcpy, h]
  rw [hmap]
  by_cases hle : off ≤ i
  · by_cases hlt : i < off + src.length
    · have hin : i - off < src.length := by omega
      simp [hle, hlt, List.getElem?_eq_getElem hin]
    · have hout : src.length ≤ i - off := by omega
      simp [hle, hlt, List.getElem?_eq_none hout, h]
  · simp [hle, h]

/-- Reading back the range that was copied to. -/
theorem memcpy_slice_same {dst : List α} {off : Nat} {src : List α}
    (h : off + src.length ≤ dst.length) :
    ((memcpy dst off src).drop off).take src.length = src := by
  apply List.ext_getElem
  · simp only [List.length_take, List.length_drop, memcpy_length]
    omega
  · intro i _ hi
    simp [memcpy, hi]

/-- A copy to the start. -/
theorem memcpy_zero {dst src : List α} (h : src.length ≤ dst.length) :
    memcpy dst 0 src = src ++ dst.drop src.length := by
  have htake := memcpy_slice_same (show 0 + src.length ≤ dst.length by omega)
  have hdrop := memcpy_drop dst (show 0 + src.length ≤ src.length by omega)
  rw [List.drop_zero] at htake
  rw [← List.take_append_drop src.length (memcpy dst 0 src), htake, hdrop]

theorem memcpy_slice_apart (dst : List α) {off o n : Nat} {src : List α}
    (h : o + n ≤ off ∨ off + src.length ≤ o) :
    ((memcpy dst off src).drop o).take n = (dst.drop o).take n := by
  apply List.ext_getElem (by simp)
  intro i hi _
  have hn : i < n := by
    have := List.length_take_le n ((memcpy dst off src).drop o)
    omega
  simp only [List.getElem_take, List.getElem_drop, memcpy, List.getElem_mapIdx]
  split
  · have hout : src.length ≤ o + i - off := by omega
    rw [List.getElem?_eq_none hout]
    rfl
  · rfl

theorem byteAt_overlay (a : Int) (dst : List α) (p : Int) (src : List α) (x : Int) :
    byteAt a (overlay a dst p src) x =
      (byteAt a dst x).map fun d => (byteAt p src x).getD d := by
  by_cases h : a ≤ x
  · have hx : a + ((x - a).toNat : Int) = x := by omega
    simp only [byteAt, if_pos h, overlay, List.getElem?_mapIdx]
    rw [hx]
  · simp [byteAt, h]

/-- The bytes of an overlay are those of the source where the spans meet. -/
theorem byteAt_overlay_of_inSpan {a p x : Int} {dst src : List α} (h : InSpan a dst.length x) :
    byteAt a (overlay a dst p src) x =
      if InSpan p src.length x then byteAt p src x else byteAt a dst x := by
  obtain ⟨d, hd⟩ := byteAt_of_inSpan h
  rw [byteAt_overlay, hd, Option.map_some]
  split
  · rename_i hp
    obtain ⟨v, hv⟩ := byteAt_of_inSpan hp
    rw [hv, Option.getD_some]
  · rename_i hp
    rw [byteAt_of_not_inSpan hp, Option.getD_none]

/-- Overlaying a loaded buffer is loading after the store. -/
theorem overlay_load (m : Int → α) (a : Int) (n : Nat) (p : Int) (src : List α) :
    overlay a (load m a n) p src = load (store m p src) a n := by
  apply eq_of_byteAt (a := a) (by simp)
  intro x hx
  rw [overlay_length, load_length] at hx
  rw [byteAt_overlay, byteAt_load, byteAt_load, if_pos hx, if_pos hx]
  rfl

theorem overlay_of_apart {a p : Int} {dst src : List α}
    (h : Apart a dst.length p src.length) : overlay a dst p src = dst := by
  apply eq_of_byteAt (a := a) (by simp)
  intro x hx
  rw [overlay_length] at hx
  rw [byteAt_overlay, byteAt_of_not_inSpan (h x hx)]
  simp

/-- Copying the clipped common part `[lo, hi)` by offsets is `overlay`. -/
theorem memcpy_clip {a p lo hi : Int} {dst src : List α} (ha : a ≤ lo) (hp : p ≤ lo)
    (clip : ∀ x, InSpan a dst.length x → (lo ≤ x ∧ x < hi ↔ InSpan p src.length x)) :
    memcpy dst (lo - a).toNat ((src.drop (lo - p).toNat).take (hi - lo).toNat) =
      overlay a dst p src := by
  apply List.ext_getElem (by simp)
  intro i hi₁ hi₂
  have hlen : i < dst.length := by simpa using hi₂
  have hclip := clip (a + i) ⟨by omega, by omega⟩
  simp only [memcpy, overlay, List.getElem_mapIdx]
  by_cases hin : lo ≤ a + i ∧ a + i < hi
  · have hspan := hclip.mp hin
    have hoff : (lo - a).toNat ≤ i := by omega
    have htake : i - (lo - a).toNat < (hi - lo).toNat := by omega
    have hidx : (lo - p).toNat + (i - (lo - a).toNat) = (a + i - p).toNat := by omega
    rw [if_pos hoff, List.getElem?_take_of_lt htake, List.getElem?_drop, hidx]
    simp [byteAt, hspan.1]
  · have hspan : ¬ InSpan p src.length (a + i) := fun h => hin (hclip.mpr h)
    rw [byteAt_of_not_inSpan hspan]
    by_cases hoff : (lo - a).toNat ≤ i
    · have htake : (hi - lo).toNat ≤ i - (lo - a).toNat := by omega
      rw [if_pos hoff, List.getElem?_take_eq_none htake]
    · rw [if_neg hoff]
      rfl

end Overlay
