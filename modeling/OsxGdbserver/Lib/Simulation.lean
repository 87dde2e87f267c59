import Mathlib.Data.List.Forall2
import Mathlib.Data.List.Induction
import Mathlib.Tactic.Common

/-!
# Runs of a stepping system and simulation between two of them

`trace` records every reply together with the state reached after it. A relation
kept by each allowed step relates the traces of two systems point by point.
-/

namespace Simulation

universe u v w
variable {σ : Type u} {τ : Type v} {ι ρ π : Type w}

/-- The reply and the state after each input of a run. -/
def trace (step : σ → ι → ρ × σ) : σ → List ι → List (ρ × σ)
  | _, [] => []
  | s, x :: xs => step s x :: trace step (step s x).2 xs

def finalState (step : σ → ι → ρ × σ) : σ → List ι → σ
  | s, [] => s
  | s, x :: xs => finalState step (step s x).2 xs

/-- Each input is allowed in the state in which it arrives. -/
def AllowedRun (ok : σ → ι → Prop) (step : σ → ι → ρ × σ) : σ → List ι → Prop
  | _, [] => True
  | s, x :: xs => ok s x ∧ AllowedRun ok step (step s x).2 xs

instance AllowedRun.decidable (ok : σ → ι → Prop) [∀ s x, Decidable (ok s x)]
    (step : σ → ι → ρ × σ) : ∀ s xs, Decidable (AllowedRun ok step s xs)
  | _, [] => inferInstanceAs (Decidable True)
  | s, x :: xs =>
    haveI := AllowedRun.decidable ok step (step s x).2 xs
    inferInstanceAs (Decidable (ok s x ∧ AllowedRun ok step (step s x).2 xs))

theorem finalState_kept_by {step : σ → ι → ρ × σ} {P : σ → Prop} {xs : List ι}
    (kept : ∀ s, ∀ x ∈ xs, P s → P (step s x).2) {s : σ} (start : P s) :
    P (finalState step s xs) := by
  induction xs generalizing s with
  | nil => exact start
  | cons x xs ih =>
    apply ih
    · exact fun s y hy => kept s y (.tail x hy)
    · exact kept s x (.head xs) start

theorem finalState_kept {step : σ → ι → ρ × σ} {P : σ → Prop}
    (kept : ∀ s x, P s → P (step s x).2) {s : σ} (start : P s) (xs : List ι) :
    P (finalState step s xs) :=
  finalState_kept_by (fun s x _ => kept s x) start

theorem trace_forall₂ {step : σ → ι → ρ × σ} {astep : τ → ι → π × τ}
    {ok : σ → ι → Prop} {R : σ → τ → Prop} {Q : ρ × σ → π × τ → Prop}
    (sim : ∀ s a x, R s a → ok s x →
      Q (step s x) (astep a x) ∧ R (step s x).2 (astep a x).2)
    {s : σ} {a : τ} (start : R s a) {xs : List ι} (allowed : AllowedRun ok step s xs) :
    List.Forall₂ Q (trace step s xs) (trace astep a xs) := by
  induction xs generalizing s a with
  | nil => exact .nil
  | cons x xs ih =>
    obtain ⟨hx, hxs⟩ := allowed
    obtain ⟨hq, hr⟩ := sim s a x start hx
    exact .cons hq (ih hr hxs)

/-- A state predicate kept by each allowed step holds at the end of an allowed run. -/
theorem finalState_invariant {step : σ → ι → ρ × σ} {ok : σ → ι → Prop} {P : σ → Prop}
    (kept : ∀ s x, P s → ok s x → P (step s x).2) {s : σ} (start : P s) {xs : List ι}
    (allowed : AllowedRun ok step s xs) : P (finalState step s xs) := by
  induction xs generalizing s with
  | nil => exact start
  | cons x xs ih => exact ih (kept s x start allowed.1) allowed.2

/-- Every reply of an allowed run has a property that each allowed step guarantees. -/
theorem trace_property {step : σ → ι → ρ × σ} {ok : σ → ι → Prop} {P : σ → Prop}
    {Q : ρ × σ → Prop}
    (kept : ∀ s x, P s → ok s x → P (step s x).2 ∧ Q (step s x)) {s : σ} (start : P s)
    {xs : List ι} (allowed : AllowedRun ok step s xs) : ∀ p ∈ trace step s xs, Q p := by
  induction xs generalizing s with
  | nil => simp [trace]
  | cons x xs ih =>
    obtain ⟨hp, hq⟩ := kept s x start allowed.1
    intro p hmem
    rcases List.mem_cons.mp hmem with rfl | hmem
    · exact hq
    · exact ih hp allowed.2 p hmem

/-- Under an invariant, what allows each step of a run gives what is wanted of it. -/
theorem AllowedRun.imp_of_invariant {step : σ → ι → ρ × σ} {ok ok' : σ → ι → Prop} {P : σ → Prop}
    (kept : ∀ s x, P s → ok s x → P (step s x).2 ∧ ok' s x) {s : σ} (start : P s) {xs : List ι}
    (allowed : AllowedRun ok step s xs) : AllowedRun ok' step s xs := by
  induction xs generalizing s with
  | nil => exact trivial
  | cons x xs ih =>
    obtain ⟨hp, hok⟩ := kept s x start allowed.1
    exact ⟨hok, ih hp allowed.2⟩

theorem finalState_append (step : σ → ι → ρ × σ) (s : σ) (xs ys : List ι) :
    finalState step s (xs ++ ys) = finalState step (finalState step s xs) ys := by
  induction xs generalizing s with
  | nil => rfl
  | cons x xs ih => exact ih (step s x).2

theorem AllowedRun.append {ok : σ → ι → Prop} {step : σ → ι → ρ × σ} {s : σ} {xs ys : List ι}
    (first : AllowedRun ok step s xs) (second : AllowedRun ok step (finalState step s xs) ys) :
    AllowedRun ok step s (xs ++ ys) := by
  induction xs generalizing s with
  | nil => exact second
  | cons x xs ih => exact ⟨first.1, ih first.2 second⟩

/-- What the steps of a run call, one after the other. -/
def callsOver {κ : Type w} (step : σ → ι → ρ × σ) (calls : σ → ι → List κ) : σ → List ι → List κ
  | _, [] => []
  | s, x :: xs => calls s x ++ callsOver step calls (step s x).2 xs

/-- A system each of whose steps is an allowed run of another one. -/
theorem finalState_refined {κ : Type w} {step : σ → ι → ρ × σ} {cstep : τ → κ → π × τ}
    {ok : τ → κ → Prop} {R : σ → τ → Prop} {calls : σ → ι → List κ}
    (refines : ∀ s c x, R s c → AllowedRun ok cstep c (calls s x) ∧
      R (step s x).2 (finalState cstep c (calls s x)))
    {s : σ} {c : τ} (start : R s c) (xs : List ι) :
    AllowedRun ok cstep c (callsOver step calls s xs) ∧
      R (finalState step s xs) (finalState cstep c (callsOver step calls s xs)) := by
  induction xs generalizing s c with
  | nil => exact ⟨trivial, start⟩
  | cons x xs ih =>
    obtain ⟨hallowed, hafter⟩ := refines s c x start
    obtain ⟨hrest, hend⟩ := ih hafter
    refine ⟨hallowed.append hrest, ?_⟩
    rw [callsOver, finalState_append]
    exact hend

/-- If each act can be undone where its view is seen, then undoing the last of them first
brings back the views in reverse order, however the acts overlap. -/
theorem view_undone {α ν : Type*} {step : σ → ι → ρ × σ} {view : σ → ν} {act undo : α → ι}
    {ok : α → Prop} {P : σ → Prop} (preserved : ∀ s a, P s → P (step s (act a)).2)
    (back : ∀ s s' a, P s → ok a → view s' = view (step s (act a)).2 →
      view (step s' (undo a)).2 = view s)
    {s s' : σ} (start : P s) {kept gone : List α} (allowed : ∀ a ∈ gone, ok a)
    (same : view s' = view (finalState step s ((kept ++ gone).map act))) :
    view (finalState step s' (gone.reverse.map undo)) =
      view (finalState step s (kept.map act)) := by
  induction gone using List.reverseRecOn generalizing s' with
  | nil => simpa [finalState] using same
  | append_singleton gone a ih =>
    rw [← List.append_assoc, List.map_append, finalState_append] at same
    have hbefore : P (finalState step s ((kept ++ gone).map act)) := by
      apply finalState_kept_by _ start
      intro s x hx hs
      obtain ⟨b, _, rfl⟩ := List.mem_map.mp hx
      exact preserved s b hs
    have hlast := back _ s' a hbefore (allowed a (by simp)) same
    rw [List.reverse_append]
    exact ih (fun b hb => allowed b (by simp [hb])) hlast

/-- Where a step leads to a good state just if it is allowed, the runs that never leave the
good states are the allowed ones. -/
theorem trace_iff_allowed {step : σ → ι → ρ × σ} {ok : σ → ι → Prop} {I P : σ → Prop}
    (kept : ∀ s x, I s → P s → I (step s x).2)
    (exact : ∀ s x, I s → P s → (P (step s x).2 ↔ ok s x)) {s : σ} (inv : I s) (start : P s)
    (xs : List ι) : (∀ p ∈ trace step s xs, P p.2) ↔ AllowedRun ok step s xs := by
  induction xs generalizing s with
  | nil => simp [trace, AllowedRun]
  | cons x xs ih =>
    have hx := exact s x inv start
    simp only [trace, List.forall_mem_cons, AllowedRun]
    constructor
    · rintro ⟨hp, hrest⟩
      exact ⟨hx.mp hp, (ih (kept s x inv start) hp).mp hrest⟩
    · rintro ⟨hok, hrest⟩
      have hp := hx.mpr hok
      exact ⟨hp, (ih (kept s x inv start) hp).mpr hrest⟩

/-- `n` steps of a relation. -/
inductive Steps (r : σ → σ → Prop) : Nat → σ → σ → Prop
  | zero (s : σ) : Steps r 0 s s
  | succ {n : Nat} {s s' s'' : σ} (first : r s s') (rest : Steps r n s' s'') :
    Steps r (n + 1) s s''

section Measure

variable {r : σ → σ → Prop} {P : σ → Prop} {measure : σ → Nat} {d : Nat} {s : σ}

/-- Where each step takes `d` off a measure, `n` of them take `n` times as much. -/
theorem Steps.measure_le
    (drops : ∀ s s', P s → r s s' → P s' ∧ measure s' + d ≤ measure s) (start : P s) {n : Nat}
    {s' : σ} (steps : Steps r n s s') : P s' ∧ d * n + measure s' ≤ measure s := by
  induction steps with
  | zero s => exact ⟨start, by omega⟩
  | succ first _ ih =>
    obtain ⟨hP, hdrop⟩ := drops _ _ start first
    obtain ⟨hend, hrest⟩ := ih hP
    refine ⟨hend, ?_⟩
    rw [Nat.mul_succ]
    omega

/-- Then no run goes on for ever. -/
theorem Steps.exists_last (pos : 0 < d)
    (drops : ∀ s s', P s → r s s' → P s' ∧ measure s' + d ≤ measure s) (start : P s) :
    ∃ n s', Steps r n s s' ∧ ∀ s'', ¬ r s' s'' := by
  induction hm : measure s using Nat.strongRecOn generalizing s with
  | ind m ih =>
    by_cases hlast : ∃ s', r s s'
    · obtain ⟨s', first⟩ := hlast
      obtain ⟨hP, hdrop⟩ := drops s s' start first
      obtain ⟨n, r', rest, hend⟩ := ih (measure s') (by omega) hP rfl
      exact ⟨n + 1, r', .succ first rest, hend⟩
    · exact ⟨0, s, .zero s, fun s' first => hlast ⟨s', first⟩⟩

end Measure

end Simulation
