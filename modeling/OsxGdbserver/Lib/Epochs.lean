import Mathlib.Data.List.TakeWhile

/-!
# Logs cut into epochs

A log lists events, newest first. Some events are boundaries, and what came after the last
of them is recent. An event may give a cell of some store its value; a store is backed by
events if each cell they have touched holds what one of them gave it.
-/

namespace Epochs

variable {ε ι β : Type} {boundary : ε → Bool} {e : ε} {log : List ε}

/-- The events since the last boundary. -/
def recent (boundary : ε → Bool) (log : List ε) : List ε := log.takeWhile fun e => !boundary e

theorem recent_boundary (h : boundary e = true) : recent boundary (e :: log) = [] := by
  simp [recent, h]

/-- Each event of the log is as it should be after those before it. -/
def Always (P : ε → List ε → Prop) : List ε → Prop
  | [] => True
  | e :: earlier => P e earlier ∧ Always P earlier

variable {gives : ε → ι → β → Prop} {contents contents' : ι → β}

/-- Each cell that some event has given a value holds what an event has given it. -/
def Backed (gives : ε → ι → β → Prop) (events : List ε) (contents : ι → β) : Prop :=
  ∀ i, (∃ e ∈ events, ∃ b, gives e i b) → ∃ e ∈ events, gives e i (contents i)

theorem Backed.nil : Backed gives [] contents := by
  rintro i ⟨e, he, _⟩
  cases he

/-- One more event, and the store after it. -/
theorem Backed.cons {events : List ε} (h : Backed gives events contents)
    (step : ∀ i, gives e i (contents' i) ∨
      (∀ b, ¬ gives e i b) ∧ contents' i = contents i) :
    Backed gives (e :: events) contents' := by
  rintro i ⟨e', he', b, hb⟩
  rcases step i with hgives | ⟨hnone, hsame⟩
  · exact ⟨e, List.mem_cons_self, hgives⟩
  · rcases List.mem_cons.mp he' with rfl | hold
    · exact absurd hb (hnone b)
    · obtain ⟨e'', he'', hgiven⟩ := h i ⟨e', hold, b, hb⟩
      exact ⟨e'', List.mem_cons_of_mem _ he'', hsame ▸ hgiven⟩

end Epochs
