import Mathlib.Tactic.Common

/-!
# Programs that may leave other than by returning

A C function that reads and writes global state is a state transformer which
either returns a value, leaves through `longjmp`, ends the process, or performs
an access the language does not define. The state reached is kept in all cases.
-/

/-- How a function can end other than by returning. -/
inductive Stop
  | error (message : String)
  | exit (status : Int)
  | fault (access : String)
  deriving DecidableEq, Repr

abbrev Proc (σ α : Type) : Type := EStateM Stop σ α

namespace Proc

variable {σ τ α β γ : Type}

/-- The state in which a run ended, however it ended. -/
def final : EStateM.Result Stop σ α → σ
  | .ok _ s => s
  | .error _ s => s

@[simp] theorem final_ok (a : α) (s : σ) :
    final (.ok a s : EStateM.Result Stop σ α) = s := rfl

@[simp] theorem final_error (e : Stop) (s : σ) :
    final (.error e s : EStateM.Result Stop σ α) = s := rfl

/-- The value returned, if the run returned. -/
def value : EStateM.Result Stop σ α → Option α
  | .ok a _ => some a
  | .error _ _ => none

@[simp] theorem value_ok (a : α) (s : σ) :
    value (.ok a s : EStateM.Result Stop σ α) = some a := rfl

@[simp] theorem value_error (e : Stop) (s : σ) :
    value (.error e s : EStateM.Result Stop σ α) = none := rfl

theorem eq_ok_of_value {r : EStateM.Result Stop σ α} {a : α} (h : value r = some a) :
    r = .ok a (final r) := by
  cases r with
  | ok b s =>
    cases h
    rfl
  | error e s => cases h

/-- How the run stopped, if it did not return. -/
def stop : EStateM.Result Stop σ α → Option Stop
  | .ok _ _ => none
  | .error e _ => some e

@[simp] theorem run_throw (e : Stop) (s : σ) :
    EStateM.run (throw e : Proc σ α) s = .error e s := rfl

@[simp] theorem run_map (f : α → β) (p : Proc σ α) (s : σ) :
    EStateM.run (f <$> p) s = match EStateM.run p s with
      | .ok a s' => .ok (f a) s'
      | .error e s' => .error e s' := by
  change EStateM.map f p s = _
  unfold EStateM.map EStateM.run
  cases p s <;> rfl

/-- Run a program on a component of the state. -/
def zoom (view : σ → τ) (put : τ → σ → σ) (p : Proc τ α) : Proc σ α := fun s =>
  match p.run (view s) with
  | .ok a t => .ok a (put t s)
  | .error e t => .error e (put t s)

theorem run_zoom (view : σ → τ) (put : τ → σ → σ) (p : Proc τ α) (s : σ) :
    (zoom view put p).run s = match p.run (view s) with
      | .ok a t => .ok a (put t s)
      | .error e t => .error e (put t s) := rfl

theorem final_zoom (view : σ → τ) (put : τ → σ → σ) (p : Proc τ α) (s : σ) :
    final ((zoom view put p).run s) = put (final (p.run (view s))) s := by
  rw [run_zoom]
  cases p.run (view s) <;> rfl

theorem final_thenReturn {p : Proc σ PUnit} (a : α) (s : σ) :
    final ((do p; return a : Proc σ α).run s) = final (p.run s) := by
  rw [EStateM.run_bind]
  cases p.run s <;> rfl

/-- Every run of `p` ends in a state with the same `f` as the state it started in. -/
def Keeps (f : σ → β) (p : Proc σ α) : Prop := ∀ s, f (final (p.run s)) = f s

namespace Keeps

variable {f : σ → β}

theorem pure (a : α) : Keeps f (Pure.pure a : Proc σ α) := fun _ => rfl

theorem throw (e : Stop) : Keeps f (throw e : Proc σ α) := fun _ => rfl

theorem get : Keeps f (get : Proc σ σ) := fun _ => rfl

theorem modify {g : σ → σ} (h : ∀ s, f (g s) = f s) :
    Keeps f (modify g : Proc σ PUnit) := fun s => h s

theorem modifyGet {g : σ → α × σ} (h : ∀ s, f (g s).2 = f s) :
    Keeps f (modifyGet g : Proc σ α) := fun s => h s

theorem final_bind {p : Proc σ α} {q : α → Proc σ γ} (hq : ∀ a, Keeps f (q a)) (s : σ) :
    f (final ((p >>= q).run s)) = f (final (p.run s)) := by
  rw [EStateM.run_bind]
  cases p.run s with
  | ok a s' => exact hq a s'
  | error e s' => rfl

theorem bind {p : Proc σ α} {q : α → Proc σ γ} (hp : Keeps f p)
    (hq : ∀ a, Keeps f (q a)) : Keeps f (p >>= q) := fun s => (final_bind hq s).trans (hp s)

theorem ite {c : Prop} [Decidable c] {p q : Proc σ α} (hp : Keeps f p)
    (hq : Keeps f q) : Keeps f (if c then p else q) := by
  split
  · exact hp
  · exact hq

theorem zoom {view : σ → τ} {put : τ → σ → σ} (p : Proc τ α)
    (h : ∀ t s, f (put t s) = f s) : Keeps f (Proc.zoom view put p) := by
  intro s
  rw [final_zoom]
  exact h _ s

/-- The component may change, but for what `g` shows of it. -/
theorem zoom_of_keeps {view : σ → τ} {put : τ → σ → σ} {g : τ → γ} {p : Proc τ α}
    (hp : Keeps g p) (h : ∀ t s, g t = g (view s) → f (put t s) = f s) :
    Keeps f (Proc.zoom view put p) := by
  intro s
  rw [final_zoom]
  exact h _ s (hp (view s))

end Keeps

/-- The run of `p` from `s` ends in `Q` if it returned and in `E` if it did not. -/
def Ends (p : Proc σ α) (Q : α → σ → Prop) (E : Stop → σ → Prop) (s : σ) : Prop :=
  match p.run s with
  | .ok a s' => Q a s'
  | .error e s' => E e s'

namespace Ends

variable {Q : α → σ → Prop} {E : Stop → σ → Prop} {s : σ}

@[simp] theorem pure_iff (a : α) : Ends (Pure.pure a) Q E s ↔ Q a s := Iff.rfl

@[simp] theorem throw_iff (e : Stop) : Ends (throw e : Proc σ α) Q E s ↔ E e s := Iff.rfl

@[simp] theorem get_iff {Q : σ → σ → Prop} : Ends MonadState.get Q E s ↔ Q s s := Iff.rfl

@[simp] theorem modify_iff (g : σ → σ) {Q : PUnit → σ → Prop} :
    Ends (modify g) Q E s ↔ Q ⟨⟩ (g s) := Iff.rfl

@[simp] theorem modifyGet_iff (g : σ → α × σ) :
    Ends (modifyGet g) Q E s ↔ Q (g s).1 (g s).2 := Iff.rfl

@[simp] theorem bind_iff {p : Proc σ β} {q : β → Proc σ α} :
    Ends (p >>= q) Q E s ↔ Ends p (fun b s' => Ends (q b) Q E s') E s := by
  simp only [Ends, EStateM.run_bind]
  cases p.run s <;> rfl

theorem zoom_iff {view : σ → τ} {put : τ → σ → σ} {p : Proc τ α} :
    Ends (zoom view put p) Q E s ↔
      Ends p (fun a t => Q a (put t s)) (fun e t => E e (put t s)) (view s) := by
  simp only [Ends, run_zoom]
  cases p.run (view s) <;> rfl

theorem of_run {p : Proc σ α} {a : α} {s' : σ} (h : p.run s = .ok a s') :
    Ends p Q E s ↔ Q a s' := by
  simp only [Ends, h]

theorem of_run_error {p : Proc σ α} {e : Stop} {s' : σ} (h : p.run s = .error e s') :
    Ends p Q E s ↔ E e s' := by
  simp only [Ends, h]

theorem final_iff {P : σ → Prop} {p : Proc σ α} :
    Ends p (fun _ s' => P s') (fun _ s' => P s') s ↔ P (final (p.run s)) := by
  unfold Ends
  cases p.run s <;> rfl

theorem no_stop_iff {P : σ → Prop} {p : Proc σ α} :
    Ends p (fun _ s' => P s') (fun _ _ => False) s ↔
      stop (p.run s) = none ∧ P (final (p.run s)) := by
  unfold Ends
  cases p.run s <;> simp [stop]

theorem returned {p : Proc σ α} {a : α} {s' : σ} (h : Ends p Q E s)
    (hrun : p.run s = .ok a s') : Q a s' :=
  (of_run hrun).mp h

theorem of_returned {p : Proc σ α} (h : ∀ a s', p.run s = .ok a s' → Q a s') :
    Ends p Q (fun _ _ => True) s := by
  unfold Ends
  cases hrun : p.run s with
  | ok a s' => exact h a s' hrun
  | error e s' => trivial

theorem of_value {p : Proc σ α} {a : α} (h : Ends p Q E s) (ha : value (p.run s) = some a) :
    Q a (final (p.run s)) :=
  h.returned (eq_ok_of_value ha)

theorem of_stop {p : Proc σ α} {e : Stop} (h : Ends p Q E s) (he : stop (p.run s) = some e) :
    ∃ s', E e s' := by
  unfold Ends at h
  cases hr : p.run s with
  | ok a s' =>
    rw [hr] at he
    cases he
  | error e' s' =>
    rw [hr] at he h
    cases he
    exact ⟨s', h⟩

theorem imp {Q' : α → σ → Prop} {E' : Stop → σ → Prop} {p : Proc σ α} (h : Ends p Q E s)
    (hQ : ∀ a s', Q a s' → Q' a s') (hE : ∀ e s', E e s' → E' e s') : Ends p Q' E' s := by
  unfold Ends at h ⊢
  cases hr : p.run s with
  | ok a s' =>
    rw [hr] at h
    exact hQ a s' h
  | error e s' =>
    rw [hr] at h
    exact hE e s' h

theorem of_forall {p : Proc σ α} (hQ : ∀ a s', Q a s') (hE : ∀ e s', E e s') : Ends p Q E s := by
  unfold Ends
  split
  · exact hQ _ _
  · exact hE _ _

theorem and {Q' : α → σ → Prop} {E' : Stop → σ → Prop} {p : Proc σ α} (h : Ends p Q E s)
    (h' : Ends p Q' E' s) :
    Ends p (fun a t => Q a t ∧ Q' a t) (fun e t => E e t ∧ E' e t) s := by
  unfold Ends at h h' ⊢
  cases hr : p.run s with
  | ok a s' =>
    rw [hr] at h h'
    exact ⟨h, h'⟩
  | error e s' =>
    rw [hr] at h h'
    exact ⟨h, h'⟩

end Ends

/-- What a program keeps, it keeps however it ends. -/
theorem Keeps.ends {f : σ → β} {p : Proc σ α} (h : Keeps f p) (s : σ) :
    Ends p (fun _ s' => f s' = f s) (fun _ s' => f s' = f s) s := by
  have hs := h s
  unfold Ends
  cases hr : p.run s with
  | ok a s' => rwa [hr] at hs
  | error e s' => rwa [hr] at hs

/-- However a run of `p` ends, what `P` says of its start holds at its end. -/
def Preserves (P : σ → Prop) (p : Proc σ α) : Prop := ∀ s, P s → P (final (p.run s))

namespace Preserves

variable {P : σ → Prop}

theorem pure (a : α) : Preserves P (Pure.pure a : Proc σ α) := fun _ h => h

theorem throw (e : Stop) : Preserves P (throw e : Proc σ α) := fun _ h => h

theorem get : Preserves P (get : Proc σ σ) := fun _ h => h

theorem of_keeps {f : σ → β} {p : Proc σ α} (h : Keeps f p)
    (same : ∀ s s', f s' = f s → P s → P s') : Preserves P p := fun s hs => same s _ (h s) hs

theorem bind {p : Proc σ β} {q : β → Proc σ α} (hp : Preserves P p)
    (hq : ∀ b, Preserves P (q b)) : Preserves P (p >>= q) := by
  intro s hs
  have hfirst := hp s hs
  rw [EStateM.run_bind]
  cases hrun : p.run s with
  | ok b s' =>
    rw [hrun] at hfirst
    exact hq b s' hfirst
  | error e s' =>
    rw [hrun] at hfirst
    exact hfirst

theorem ite {c : Prop} [Decidable c] {p q : Proc σ α} (hp : Preserves P p)
    (hq : Preserves P q) : Preserves P (if c then p else q) := by
  split
  · exact hp
  · exact hq

end Preserves

/-- No run of `p` stops for a reason in `E`. -/
def Avoids (E : Stop → Prop) (p : Proc σ α) : Prop :=
  ∀ s, Ends p (fun _ _ => True) (fun e _ => ¬ E e) s

namespace Avoids

variable {E : Stop → Prop}

theorem pure (a : α) : Avoids E (Pure.pure a : Proc σ α) := fun _ => trivial

theorem throw {e : Stop} (he : ¬ E e) : Avoids E (throw e : Proc σ α) := fun _ => he

theorem get : Avoids E (get : Proc σ σ) := fun _ => trivial

theorem modify (f : σ → σ) : Avoids E (modify f : Proc σ PUnit) := fun _ => trivial

theorem modifyGet (f : σ → α × σ) : Avoids E (modifyGet f : Proc σ α) := fun _ => trivial

theorem bind {p : Proc σ β} {q : β → Proc σ α} (hp : Avoids E p) (hq : ∀ b, Avoids E (q b)) :
    Avoids E (p >>= q) := fun s =>
  Ends.bind_iff.mpr ((hp s).imp (fun b s' _ => hq b s') fun _ _ he => he)

theorem ite {c : Prop} [Decidable c] {p q : Proc σ α} (hp : Avoids E p) (hq : Avoids E q) :
    Avoids E (if c then p else q) := by
  split
  · exact hp
  · exact hq

end Avoids

/-- The result of a run, with `g` done to the state in which it ended. -/
def mapState (g : σ → σ) : EStateM.Result Stop σ α → EStateM.Result Stop σ α
  | .ok a s => .ok a (g s)
  | .error e s => .error e (g s)

theorem final_mapState (g : σ → σ) (r : EStateM.Result Stop σ α) :
    final (mapState g r) = g (final r) := by
  cases r <;> rfl

/-- `p` neither sees what `g` changes nor changes it. -/
def Commutes (g : σ → σ) (p : Proc σ α) : Prop := ∀ s, p.run (g s) = mapState g (p.run s)

namespace Commutes

variable {g : σ → σ}

theorem pure (a : α) : Commutes g (Pure.pure a : Proc σ α) := fun _ => rfl

theorem throw (e : Stop) : Commutes g (throw e : Proc σ α) := fun _ => rfl

theorem modify {f : σ → σ} (h : ∀ s, f (g s) = g (f s)) :
    Commutes g (modify f : Proc σ PUnit) := by
  intro s
  change EStateM.Result.ok _ (f (g s)) = .ok _ (g (f s))
  rw [h]

theorem modifyGet {f : σ → α × σ} (h : ∀ s, f (g s) = ((f s).1, g (f s).2)) :
    Commutes g (modifyGet f : Proc σ α) := by
  intro s
  change EStateM.Result.ok (f (g s)).1 (f (g s)).2 = .ok (f s).1 (g (f s).2)
  rw [h]

theorem bind {p : Proc σ β} {q : β → Proc σ α} (hp : Commutes g p)
    (hq : ∀ b, Commutes g (q b)) : Commutes g (p >>= q) := by
  intro s
  rw [EStateM.run_bind, EStateM.run_bind, hp s]
  cases p.run s with
  | ok b s' => exact hq b s'
  | error e s' => rfl

/-- Reading the state, for a program that uses nothing of it that `g` changes. -/
theorem get_bind {q : σ → Proc σ α} (same : ∀ s, q (g s) = q s) (hq : ∀ s, Commutes g (q s)) :
    Commutes g (get >>= q) := by
  intro s
  change (q (g s)).run (g s) = mapState g ((q s).run s)
  rw [same]
  exact hq s s

theorem ite {c : Prop} [Decidable c] {p q : Proc σ α} (hp : Commutes g p)
    (hq : Commutes g q) : Commutes g (if c then p else q) := by
  split
  · exact hp
  · exact hq

theorem zoom {view : σ → τ} {put : τ → σ → σ} (p : Proc τ α) (same : ∀ s, view (g s) = view s)
    (swap : ∀ t s, put t (g s) = g (put t s)) : Commutes g (Proc.zoom view put p) := by
  intro s
  rw [run_zoom, run_zoom, same]
  cases p.run (view s) with
  | ok a t => exact congrArg (EStateM.Result.ok a) (swap t s)
  | error e t => exact congrArg (EStateM.Result.error e) (swap t s)

/-- What can be set to anything behind the back of `p` is kept by `p`. -/
theorem keeps (set : β → σ → σ) {f : σ → β} {p : Proc σ α} (h : ∀ b, Commutes (set b) p)
    (self : ∀ s, set (f s) s = s) (read : ∀ b s, f (set b s) = b) : Keeps f p := by
  intro s
  have hs := h (f s) s
  rw [self] at hs
  rw [hs, final_mapState, read]

end Commutes

end Proc
