import OsxGdbserver.Framing
import OsxGdbserver.Lib.TwoRuns

/-!
# The connection as a stream

`readchar` sees the bytes that are still pending and nothing of the way in which they are
cut, and so does everything that reads through it alone.
-/

namespace Remote

/-- Two states of the connection that differ in the input only, where the pending bytes are
the same as far as `f` tells them apart. -/
structure Alike (f : Byte → Byte) (l l' : Link) : Prop where
  session : l.session = l'.session
  failed : l.input.failed = l'.input.failed
  wellFormed : l.input.WellFormed
  wellFormed' : l'.input.WellFormed
  pending : l.input.pending.map f = l'.input.pending.map f

/-- At the end of the stream `readchar` returns -1 and leaves an empty buffer. -/
theorem readchar_eof {i : Input} (s : Session) (wf : i.WellFormed) (pending : i.pending = []) :
    ∃ i', readchar.run ⟨i, s⟩ = .ok none ⟨i', s⟩ ∧ i'.WellFormed ∧ i'.pending = [] := by
  have hbuf : (i.buf.drop i.bufp).take i.bufcnt.toNat = [] := List.append_eq_nil_iff.mp pending |>.1
  have hflat : i.chunks.flatten = [] := List.append_eq_nil_iff.mp pending |>.2
  have hchunks : i.chunks = [] := by
    cases hc : i.chunks with
    | nil => rfl
    | cons chunk later =>
      have hnil : chunk = [] := by
        rw [hc, List.flatten_cons, List.append_eq_nil_iff] at hflat
        exact hflat.1
      exact absurd hnil (wf.nonempty chunk (by rw [hc]; exact List.mem_cons_self))
  have hcnt : ¬ 0 < i.bufcnt := by
    intro hpos
    have hlen := congrArg List.length hbuf
    have hle := wf.buffered hpos
    simp only [List.length_take, List.length_drop, List.length_nil] at hlen
    omega
  refine ⟨{ i with buf := [], bufcnt := if i.failed then -1 else 0 }, ?_, ⟨?_, wf.nonempty⟩, ?_⟩
  · cases hfail : i.failed <;>
      simp [readchar, setBufcnt, read, hcnt, hchunks, hfail]
  · intro hpos
    dsimp only at hpos
    split at hpos <;> omega
  · simp [Input.pending, hchunks]

/-- `readchar` leaves everything but the bytes of the stream as it is. -/
theorem readchar_keepsBoth :
    Proc.Keeps (fun l : Link => (l.session, l.input.failed)) readchar := by
  have hnext : Proc.Keeps (fun l : Link => (l.session, l.input.failed)) nextBuffered :=
    .modifyGet fun _ => rfl
  have hread : Proc.Keeps (fun l : Link => (l.session, l.input.failed)) (Remote.read bufsiz) := by
    refine .modifyGet fun l => ?_
    cases l.input.chunks <;> rfl
  refine .bind .get fun l => .bind (.modify fun _ => rfl) fun _ => .ite ?_ ?_
  · exact .bind hnext fun _ => .pure _
  · refine .bind hread fun _ => .bind (.modify fun _ => rfl) fun _ => .ite (.pure _) ?_
    exact .bind (.modify fun _ => rfl) fun _ => .bind hnext fun _ => .pure _

theorem readchar_keeps : Proc.Keeps Link.session readchar := fun l =>
  congrArg Prod.fst (readchar_keepsBoth l)

theorem readchar_keepsFailed : Proc.Keeps (fun l : Link => l.input.failed) readchar := fun l =>
  congrArg Prod.snd (readchar_keepsBoth l)

theorem scanStart_keeps (fuel : Nat) : Proc.Keeps Link.session (scanStart fuel) := by
  induction fuel with
  | zero => exact .throw _
  | succ fuel ih =>
    refine .bind readchar_keeps fun a => ?_
    cases a with
    | none => exact .pure _
    | some c => exact .ite (.pure _) ih

/-- What does not depend on `own_buf` is kept while a body is read. -/
theorem readBody_keeps {β : Type} {f : Session → β} (poked : ∀ i b s, f (s.poke i b) = f s)
    (fuel i : Nat) (csum : Byte) :
    Proc.Keeps (fun l : Link => f l.session) (readBody fuel i csum) := by
  have hread : Proc.Keeps (fun l : Link => f l.session) readchar := fun l =>
    congrArg f (readchar_keeps l)
  have hpoke : ∀ i b, Proc.Keeps (fun l : Link => f l.session) (poke i b) := fun i b =>
    .ite (.modify fun l => poked i b l.session) (.throw _)
  induction fuel generalizing i csum with
  | zero => exact .throw _
  | succ fuel ih =>
    refine .bind hread fun a => ?_
    cases a with
    | none => exact .pure _
    | some c => exact .ite (.bind (hpoke i 0) fun _ => .pure _) (.bind (hpoke i c) fun _ => ih _ _)

theorem readchar_respects {f : Byte → Byte} (sees : ∀ b c, f b = f c → b &&& 0x7f = c &&& 0x7f) :
    Proc.Respects (Alike f) readchar := by
  rintro ⟨i, s⟩ ⟨i', s'⟩ ⟨hsession, hfailed, wf, wf', hpending⟩
  cases hsession
  have hkeeps := readchar_keepsFailed ⟨i, s⟩
  have hkeeps' := readchar_keepsFailed ⟨i', s⟩
  cases hp : i.pending with
  | nil =>
    have hp' : i'.pending = [] := by simpa [hp] using hpending.symm
    obtain ⟨j, hrun, hwf, hend⟩ := readchar_eof s wf hp
    obtain ⟨j', hrun', hwf', hend'⟩ := readchar_eof s wf' hp'
    rw [hrun] at hkeeps ⊢
    rw [hrun'] at hkeeps' ⊢
    have hfailed' : j.failed = j'.failed := hkeeps.trans (hfailed.trans hkeeps'.symm)
    exact .ok none ⟨rfl, hfailed', hwf, hwf', by rw [hend, hend']⟩
  | cons b rest =>
    obtain ⟨b', rest', hp', hb, hrest⟩ : ∃ b' rest', i'.pending = b' :: rest' ∧ f b' = f b ∧
        rest'.map f = rest.map f := by
      rw [hp, List.map_cons] at hpending
      exact List.map_eq_cons_iff.mp hpending.symm
    obtain ⟨j, hwf, hend, hrun⟩ := readchar_consumes b i s rest wf hp
    obtain ⟨j', hwf', hend', hrun'⟩ := readchar_consumes b' i' s rest' wf' hp'
    rw [hrun] at hkeeps ⊢
    rw [hrun'] at hkeeps' ⊢
    rw [sees b' b hb]
    have hfailed' : j.failed = j'.failed := hkeeps.trans (hfailed.trans hkeeps'.symm)
    refine .ok _ ⟨rfl, hfailed', hwf, hwf', ?_⟩
    rw [hend, hend', hrest]

section

variable {f : Byte → Byte} (sees : ∀ b c, f b = f c → b &&& 0x7f = c &&& 0x7f)

theorem write_respects (bytes : List Byte) : Proc.Respects (Alike f) (write bytes) := by
  refine .modifyGet ?_
  rintro ⟨i, s⟩ ⟨i', s'⟩ ⟨hsession, hfailed, wf, wf', hpending⟩
  cases hsession
  exact ⟨rfl, rfl, hfailed, wf, wf', hpending⟩

theorem poke_respects (i : Nat) (b : Byte) : Proc.Respects (Alike f) (poke i b) := by
  refine .ite (.modify ?_) (.throw _)
  rintro ⟨i, s⟩ ⟨i', s'⟩ ⟨hsession, hfailed, wf, wf', hpending⟩
  cases hsession
  exact ⟨rfl, hfailed, wf, wf', hpending⟩

theorem fromhex_respects {σ : Type} {R : σ → σ → Prop} (a : Option Byte) :
    Proc.Respects R (fromhex a) := by
  unfold fromhex
  cases a.bind hexDigit with
  | none => exact .throw _
  | some nib => exact .pure nib

include sees

theorem scanStart_respects (fuel : Nat) : Proc.Respects (Alike f) (scanStart fuel) := by
  induction fuel with
  | zero => exact .throw _
  | succ fuel ih =>
    refine .bind (readchar_respects sees) fun a => ?_
    cases a with
    | none => exact .pure false
    | some c => exact .ite (.pure true) ih

theorem readBody_respects (fuel i : Nat) (csum : Byte) :
    Proc.Respects (Alike f) (readBody fuel i csum) := by
  induction fuel generalizing i csum with
  | zero => exact .throw _
  | succ fuel ih =>
    refine .bind (readchar_respects sees) fun a => ?_
    cases a with
    | none => exact .pure none
    | some c =>
      exact .ite (.bind (poke_respects i 0) fun _ => .pure _)
        (.bind (poke_respects i c) fun _ => ih (i + 1) (csum + c))

theorem receive_respects (fuel : Nat) : Proc.Respects (Alike f) (receive fuel) := by
  induction fuel with
  | zero => exact .throw _
  | succ fuel ih =>
    refine .bind (scanStart_respects sees _) fun found => .ite ?_ (.pure _)
    refine .bind (readBody_respects sees _ _ _) fun body => ?_
    rcases body with _ | ⟨len, csum⟩
    · exact .pure _
    · refine .bind (readchar_respects sees) fun a => .bind (fromhex_respects a) fun c1 => ?_
      refine .bind (readchar_respects sees) fun b => .bind (fromhex_respects b) fun c2 => ?_
      exact .ite (.pure _) (.bind (write_respects _) fun _ => ih)

/-- `getpkt` does not depend on how the stream is cut. -/
theorem getpkt_respects : Proc.Respects (Alike f) getpkt := by
  refine .get_bind ?_ fun l => .bind (receive_respects sees _) fun len => ?_
  · rintro l l' h
    have hlen := congrArg List.length h.pending
    rw [List.length_map, List.length_map] at hlen
    rw [hlen]
  · refine .get_bind ?_ fun l => .ite (.bind (write_respects _) fun _ => .pure _) (.pure _)
    rintro l l' h
    rw [h.session]

end

end Remote
