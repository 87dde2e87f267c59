import OsxGdbserver.Lib.Process

/-!
# One program run from two states

A program respects a relation on states if, from related states, it ends in the same way,
with the same value or the same reason for stopping, and in related states.
-/

namespace Proc

variable {σ α β : Type}

/-- Two results that differ in their states only, and these are related. -/
inductive SameResult (R : σ → σ → Prop) :
    EStateM.Result Stop σ α → EStateM.Result Stop σ α → Prop
  | ok (a : α) {s t : σ} (h : R s t) : SameResult R (.ok a s) (.ok a t)
  | error (e : Stop) {s t : σ} (h : R s t) : SameResult R (.error e s) (.error e t)

def Respects (R : σ → σ → Prop) (p : Proc σ α) : Prop :=
  ∀ s t, R s t → SameResult R (p.run s) (p.run t)

namespace SameResult

variable {R : σ → σ → Prop} {r r' : EStateM.Result Stop σ α}

theorem final (h : SameResult R r r') : R (Proc.final r) (Proc.final r') := by
  cases h with
  | ok a h => exact h
  | error e h => exact h

theorem imp {R' : σ → σ → Prop} (h : SameResult R r r') (hR : ∀ s t, R s t → R' s t) :
    SameResult R' r r' := by
  cases h with
  | ok a h => exact .ok a (hR _ _ h)
  | error e h => exact .error e (hR _ _ h)

/-- One program after another, where what was run first is known. -/
theorem bind {R' : σ → σ → Prop} {p : Proc σ β} {q : β → Proc σ α} {s t : σ}
    (hp : SameResult R (p.run s) (p.run t)) (hR : ∀ s t, R s t → R' s t)
    (hq : ∀ b s' t', p.run s = .ok b s' → p.run t = .ok b t' → R s' t' →
      SameResult R' ((q b).run s') ((q b).run t')) :
    SameResult R' ((p >>= q).run s) ((p >>= q).run t) := by
  rw [EStateM.run_bind, EStateM.run_bind]
  generalize hs : p.run s = r at hp
  generalize ht : p.run t = r' at hp
  cases hp with
  | ok b h => exact hq b _ _ hs ht h
  | error e h => exact .error e (hR _ _ h)

end SameResult

namespace Respects

variable {R : σ → σ → Prop}

theorem pure (a : α) : Respects R (Pure.pure a : Proc σ α) := fun _ _ h => .ok a h

theorem throw (e : Stop) : Respects R (throw e : Proc σ α) := fun _ _ h => .error e h

theorem modify {f : σ → σ} (hf : ∀ s t, R s t → R (f s) (f t)) :
    Respects R (modify f : Proc σ PUnit) := by
  intro s t h
  change SameResult R (.ok PUnit.unit (f s)) (.ok PUnit.unit (f t))
  exact .ok _ (hf s t h)

theorem modifyGet {f : σ → α × σ}
    (hf : ∀ s t, R s t → (f s).1 = (f t).1 ∧ R (f s).2 (f t).2) :
    Respects R (modifyGet f : Proc σ α) := by
  intro s t h
  obtain ⟨hvalue, hstate⟩ := hf s t h
  change SameResult R (.ok (f s).1 (f s).2) (.ok (f t).1 (f t).2)
  rw [hvalue]
  exact .ok _ hstate

theorem bind {p : Proc σ β} {q : β → Proc σ α} (hp : Respects R p)
    (hq : ∀ b, Respects R (q b)) : Respects R (p >>= q) := fun s t h =>
  (hp s t h).bind (fun _ _ hst => hst) fun b s' t' _ _ hst => hq b s' t' hst

/-- Reading the state, for a program that uses only what related states have in common. -/
theorem get_bind {q : σ → Proc σ α} (same : ∀ s t, R s t → q s = q t)
    (hq : ∀ s, Respects R (q s)) : Respects R (get >>= q) := by
  intro s t h
  change SameResult R ((q s).run s) ((q t).run t)
  rw [same s t h]
  exact hq t s t h

theorem ite {c : Prop} [Decidable c] {p q : Proc σ α} (hp : Respects R p)
    (hq : Respects R q) : Respects R (if c then p else q) := by
  split
  · exact hp
  · exact hq

/-- What is known of the other run. -/
theorem ends {p : Proc σ α} (hp : Respects R p) {s t : σ} (hst : R s t) {Q : α → σ → Prop}
    {E : Stop → σ → Prop} (h : Ends p Q E t) :
    Ends p (fun a s' => ∃ t', R s' t' ∧ Q a t') (fun e s' => ∃ t', R s' t' ∧ E e t') s := by
  have hsame := hp s t hst
  unfold Ends at h ⊢
  generalize p.run s = r at hsame ⊢
  generalize p.run t = r' at hsame h
  cases hsame with
  | ok a h' => exact ⟨_, h', h⟩
  | error e h' => exact ⟨_, h', h⟩

end Respects

/-- Where `P` holds the two programs do the same, and it goes on holding. -/
def Agree (P : σ → Prop) (p q : Proc σ α) : Prop :=
  ∀ s, P s → p.run s = q.run s ∧ P (final (p.run s))

namespace Agree

variable {P : σ → Prop}

theorem of_preserves {p : Proc σ α} (h : Preserves P p) : Agree P p p := fun s hs => ⟨rfl, h s hs⟩

theorem modifyGet {f g : σ → α × σ} (same : ∀ s, P s → f s = g s)
    (kept : ∀ s, P s → P (f s).2) :
    Agree P (modifyGet f : Proc σ α) (modifyGet g : Proc σ α) := by
  intro s hs
  refine ⟨?_, kept s hs⟩
  change EStateM.Result.ok (f s).1 (f s).2 = .ok (g s).1 (g s).2
  rw [same s hs]

/-- Reading the state, one for which `P` holds. -/
theorem get_bind {q q' : σ → Proc σ α} (hq : ∀ s, P s → Agree P (q s) (q' s)) :
    Agree P (get >>= q) (get >>= q') := fun s hs => hq s hs s hs

theorem bind {p p' : Proc σ β} {q q' : β → Proc σ α} (hp : Agree P p p')
    (hq : ∀ b, Agree P (q b) (q' b)) : Agree P (p >>= q) (p' >>= q') := by
  intro s hs
  obtain ⟨hsame, hkept⟩ := hp s hs
  rw [EStateM.run_bind, EStateM.run_bind, ← hsame]
  cases hrun : p.run s with
  | ok b s' =>
    rw [hrun] at hkept
    exact hq b s' hkept
  | error e s' =>
    rw [hrun] at hkept
    exact ⟨rfl, hkept⟩

end Agree

end Proc
