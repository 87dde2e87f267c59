import Mathlib.Data.List.Nodup
import Mathlib.Logic.Function.Basic
import Mathlib.Tactic.Common

/-!
# Singly linked lists in a heap

`next a` is the pointer in the node at `a`: `none` if nothing is allocated there, `some none`
if the pointer is null. A segment is a stretch of nodes each of which points to the one
after it; a list is a segment that ends in null.
-/

namespace LinkedList

universe u
variable {α : Type u} {next next' : α → Option (Option α)} {p q r : Option α} {a b : α}
  {as bs : List α}

/-- From `p` the pointers lead through `as` to `q`. -/
def Segment (next : α → Option (Option α)) : Option α → List α → Option α → Prop
  | p, [], q => p = q
  | p, a :: as, q => p = some a ∧ ∃ r, next a = some r ∧ Segment next r as q

theorem segment_append : Segment next p (as ++ bs) q ↔
    ∃ r, Segment next p as r ∧ Segment next r bs q := by
  induction as generalizing p with
  | nil => simp [Segment]
  | cons a as ih =>
    simp only [List.cons_append, Segment, ih]
    constructor
    · rintro ⟨hp, r, hr, x, has, hbs⟩
      exact ⟨x, ⟨hp, r, hr, has⟩, hbs⟩
    · rintro ⟨x, ⟨hp, r, hr, has⟩, hbs⟩
      exact ⟨hp, r, hr, x, has, hbs⟩

namespace Segment

theorem congr (h : Segment next p as q) (same : ∀ a ∈ as, next' a = next a) :
    Segment next' p as q := by
  induction as generalizing p with
  | nil => exact h
  | cons a as ih =>
    obtain ⟨hp, r, hr, hrest⟩ := h
    have ha := same a List.mem_cons_self
    exact ⟨hp, r, ha.trans hr, ih hrest fun b hb => same b (List.mem_cons_of_mem a hb)⟩

theorem next_eq_some (h : Segment next p as q) (ha : a ∈ as) : ∃ r, next a = some r := by
  induction as generalizing p with
  | nil => cases ha
  | cons b as ih =>
    obtain ⟨_, r, hr, hrest⟩ := h
    rcases List.mem_cons.mp ha with rfl | ha
    · exact ⟨r, hr⟩
    · exact ih hrest ha

/-- The pointer at which a segment of at least one node starts. -/
theorem start_cons (h : Segment next p (a :: as) q) : p = some a := h.1

theorem eq_nil_iff (h : Segment next p as none) : p = none ↔ as = [] := by
  cases as with
  | nil => exact iff_of_true h rfl
  | cons a as =>
    refine iff_of_false ?_ (List.cons_ne_nil a as)
    rw [h.start_cons]
    exact Option.some_ne_none a

section Updates

variable [DecidableEq α]

/-- A node outside is assigned to. -/
theorem update_outside (h : Segment next p as q) (ha : a ∉ as) (value : Option (Option α)) :
    Segment (Function.update next a value) p as q := by
  apply h.congr
  intro b hb
  have hne : b ≠ a := by
    rintro rfl
    exact ha hb
  exact Function.update_of_ne hne value next

/-- The last pointer is assigned to. -/
theorem relink (h : Segment next p (as ++ [a]) q) (ha : a ∉ as) (r : Option α) :
    Segment (Function.update next a (some r)) p (as ++ [a]) r := by
  obtain ⟨x, has, hx, _⟩ := segment_append.mp h
  refine segment_append.mpr ⟨x, has.update_outside ha _, hx, r, ?_, rfl⟩
  exact Function.update_self a (some r) next

/-- A node whose pointer is null is linked in behind the last one. -/
theorem snoc (h : Segment next p (as ++ [a]) none) (ha : a ∉ as) (hb : b ∉ as ++ [a])
    (null : next b = some none) :
    Segment (Function.update next a (some (some b))) p (as ++ [a] ++ [b]) none := by
  have hne : b ≠ a := by
    rintro rfl
    exact hb (List.mem_append_right as List.mem_cons_self)
  refine segment_append.mpr ⟨some b, h.relink ha (some b), rfl, none, ?_, rfl⟩
  rw [Function.update_of_ne hne, null]

/-- The node behind `a` is unlinked by an assignment of its pointer to `a`. -/
theorem unlink (h : Segment next p (as ++ a :: b :: bs) q) (nodup : (as ++ a :: b :: bs).Nodup)
    (behind : next b = some r) :
    Segment (Function.update next a (some r)) p (as ++ a :: bs) q := by
  have hsplit : ∀ cs, as ++ a :: cs = as ++ [a] ++ cs := fun cs => by simp
  rw [hsplit] at h nodup ⊢
  obtain ⟨x, hfirst, _, y, hy, hrest⟩ := segment_append.mp h
  obtain rfl : r = y := Option.some.inj (behind.symm.trans hy)
  have hapart := List.nodup_append.mp nodup
  have ha : a ∉ as := by
    intro hmem
    exact (List.nodup_append.mp hapart.1).2.2 a hmem a List.mem_cons_self rfl
  have hbs : a ∉ bs := by
    intro hmem
    exact hapart.2.2 a (by simp) a (List.mem_cons_of_mem b hmem) rfl
  exact segment_append.mpr ⟨r, hfirst.relink ha r, hrest.update_outside hbs _⟩

end Updates

end Segment

end LinkedList
