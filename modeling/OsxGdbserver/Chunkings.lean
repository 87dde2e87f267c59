import OsxGdbserver.Handshakes

/-!
# Sessions and the cutting of the stream

Two servers that differ only in how their streams are cut do the same, turn after turn, as
long as `readchar` has nothing left in its buffer whenever `putpkt` waits for an answer:
`putpkt` reads the descriptor and does not see that buffer.
-/

namespace Gdbserver

open Remote CString Ppc

variable {σ α : Type} {k : Kernel σ} {host : Signals.Host} {s s' : Server σ} {t : ThreadInfo}
  {rs : List (List Byte)}

/-- Two servers with the same bytes still to come, and equal otherwise. -/
structure SameStream (s s' : Server σ) : Prop where
  rest : s' = s.updateLink (setInput s'.link.input)
  links : Alike id s.link s'.link

/-- The same, with nothing in the buffers of `readchar`. -/
structure SameUnread (s s' : Server σ) : Prop extends SameStream s s' where
  unread : s.link.input.bufcnt ≤ 0
  unread' : s'.link.input.bufcnt ≤ 0

theorem SameStream.respects_blind {p : Proc (Server σ) α} (h : ∀ i, Blind (setInput i) p)
    (same : SameStream s s') :
    Proc.SameResult (fun t t' => SameStream t t' ∧ t.link.input = s.link.input ∧
      t'.link.input = s'.link.input) (p.run s) (p.run s') := by
  have hkeeps : Proc.Keeps (fun s : Server σ => s.link.input) p :=
    Proc.Commutes.keeps (fun i => Server.updateLink (setInput i)) h (fun _ => rfl) fun _ _ => rfl
  have hinput := hkeeps s
  have hrun : p.run s' = Proc.mapState (Server.updateLink (setInput s'.link.input)) (p.run s) := by
    have hcommutes := h s'.link.input s
    rwa [← same.rest] at hcommutes
  have hrelated : ∀ t : Server σ, t.link.input = s.link.input →
      SameStream t (t.updateLink (setInput s'.link.input)) := fun t ht =>
    ⟨rfl, rfl, by rw [ht]; exact same.links.failed, by rw [ht]; exact same.links.wellFormed,
      same.links.wellFormed', by rw [ht]; exact same.links.pending⟩
  rw [hrun]
  cases hp : p.run s with
  | ok a t =>
    rw [hp] at hinput
    exact .ok a ⟨hrelated t hinput, hinput, rfl⟩
  | error e t =>
    rw [hp] at hinput
    exact .error e ⟨hrelated t hinput, hinput, rfl⟩

theorem respects_blind {p : Proc (Server σ) α} (h : ∀ i, Blind (setInput i) p) :
    Proc.Respects SameStream p :=
  fun _ _ same => (same.respects_blind h).imp fun _ _ hboth => hboth.1

theorem respects_onLink {p : Proc Link α} (h : Proc.Respects (Alike id) p) :
    Proc.Respects SameStream (onLink p : Proc (Server σ) α) := by
  intro s s' same
  have hlinks := h s.link s'.link same.links
  have hput : ∀ l l' : Link, Alike id l l' →
      SameStream { s with link := l } { s' with link := l' } := by
    intro l l' halike
    refine ⟨?_, halike⟩
    rw [same.rest]
    change _ = { s with link := _ }
    rw [setInput, halike.session]
    rfl
  unfold onLink
  rw [Proc.run_zoom, Proc.run_zoom]
  generalize p.run s.link = r at hlinks
  generalize p.run s'.link = r' at hlinks
  cases hlinks with
  | ok a halike => exact .ok a (hput _ _ halike)
  | error e halike => exact .error e (hput _ _ halike)

theorem respects_unread {p : Proc (Server σ) α} (hp : Proc.Respects SameStream p)
    (hkeeps : Proc.Keeps (fun s : Server σ => s.link.input) p) : Proc.Respects SameUnread p := by
  intro s s' same
  have hsame := hp s s' same.toSameStream
  have hs := hkeeps s
  have hs' := hkeeps s'
  generalize p.run s = r at hsame hs
  generalize p.run s' = r' at hsame hs'
  have hunread : ∀ t t' : Server σ, t.link.input = s.link.input → t'.link.input = s'.link.input →
      SameStream t t' → SameUnread t t' := by
    intro t t' ht ht' htt'
    refine ⟨htt', ?_, ?_⟩
    · rw [ht]
      exact same.unread
    · rw [ht']
      exact same.unread'
  cases hsame with
  | ok a htt' => exact .ok a (hunread _ _ hs hs' htt')
  | error e htt' => exact .error e (hunread _ _ hs hs' htt')

theorem SameUnread.flatten (same : SameUnread s s') :
    s.link.input.chunks.flatten = s'.link.input.chunks.flatten := by
  have hpending := same.links.pending
  have hs : s.link.input.bufcnt.toNat = 0 := Int.toNat_of_nonpos same.unread
  have hs' : s'.link.input.bufcnt.toNat = 0 := Int.toNat_of_nonpos same.unread'
  simpa [Input.pending, hs, hs'] using hpending

theorem wellFormed_cases {i : Input} (wf : i.WellFormed) :
    i.chunks = [] ∨ ∃ c left rest, i.chunks = (c :: left) :: rest := by
  rcases hchunks : i.chunks with _ | ⟨_ | ⟨c, left⟩, rest⟩
  · exact Or.inl rfl
  · exact absurd rfl (wf.nonempty [] (by rw [hchunks]; exact List.mem_cons_self))
  · exact Or.inr ⟨c, left, rest, rfl⟩

theorem read_respects :
    Proc.Respects SameUnread (onLink (Remote.read 1) : Proc (Server σ) (Int × List Byte)) := by
  intro s s' same
  have hflat := same.flatten
  have hfailed := same.links.failed
  have hrest : ∀ (left : List Byte) (rest : List (List Byte)),
      (if left = [] then rest else left :: rest).flatten = left ++ rest.flatten := by
    intro left rest
    split
    · rename_i hleft
      rw [hleft, List.nil_append]
    · rfl
  rcases wellFormed_cases same.links.wellFormed with hs | ⟨c, left, rest, hs⟩
  · rcases wellFormed_cases same.links.wellFormed' with hs' | ⟨c', left', rest', hs'⟩
    · rw [read_run_end hs, read_run_end hs', hfailed]
      exact .ok _ same
    · rw [hs, hs'] at hflat
      cases hflat
  · rcases wellFormed_cases same.links.wellFormed' with hs' | ⟨c', left', rest', hs'⟩
    · rw [hs, hs'] at hflat
      cases hflat
    · rw [hs, hs'] at hflat
      simp only [List.flatten_cons, List.cons_append, List.cons.injEq] at hflat
      obtain ⟨rfl, hflat⟩ := hflat
      have hwf := read_keepsInput 1 s same.links.wellFormed
      have hwf' := read_keepsInput 1 s' same.links.wellFormed'
      rw [Proc.Ends.of_run (read_run_byte hs)] at hwf
      rw [Proc.Ends.of_run (read_run_byte hs')] at hwf'
      rw [read_run_byte hs, read_run_byte hs']
      have hunread : s.link.input.bufcnt.toNat = 0 := Int.toNat_of_nonpos same.unread
      have hunread' : s'.link.input.bufcnt.toNat = 0 := Int.toNat_of_nonpos same.unread'
      refine .ok _ ⟨⟨?_, ?_⟩, same.unread, same.unread'⟩
      · rw [same.rest]
        rfl
      · refine ⟨same.links.session, hfailed, hwf, hwf', ?_⟩
        simp only [Server.withChunks, Server.updateLink, Input.pending, hunread, hunread',
          List.take_zero, List.nil_append, hrest, hflat]

theorem sendFrame_respects (bytes : List Byte) (fuel : Nat) :
    Proc.Respects SameUnread (sendFrame k host bytes fuel) := by
  have hwrite : Proc.Respects SameUnread (onLink (Remote.write bytes) : Proc (Server σ) Bool) :=
    respects_unread (respects_onLink (write_respects bytes)) fun s => by
      unfold onLink
      rw [Proc.final_zoom]
      rfl
  have hsignal : Proc.Respects SameUnread (darwinSendSignal k host.sigint) :=
    respects_unread (respects_blind fun _ => darwinSendSignal_blind _)
      fun s => congrArg Link.input (darwinSendSignal_link (k := k) host.sigint s)
  induction fuel with
  | zero => exact .throw _
  | succ fuel ih =>
    refine .bind hwrite fun wrote => .ite (.get_bind ?_ fun s => .ite (.pure 1) ?_) (.pure _)
    · intro s s' same
      rw [same.links.session]
    · refine .bind read_respects fun answer => .ite (.pure _) (.ite (.pure 1) ?_)
      exact .ite (.bind hsignal fun _ => ih) ih

def Waits (s : Server σ) : Prop := s.noAckMode = false ∧ s.link.session.writable ≠ some 0

theorem not_waits_iff :
    ¬ Waits s ↔ s.noAckMode = true ∨ s.link.session.writable = some 0 := by
  simp [Waits, imp_iff_not_or]

/-- `putpkt` respects the stream if it reads nothing, or nothing has been read ahead. -/
theorem putpkt_same (same : SameStream s s')
    (unread : Waits s → s.link.input.bufcnt ≤ 0 ∧ s'.link.input.bufcnt ≤ 0) :
    Proc.SameResult SameStream ((putpkt k host).run s) ((putpkt k host).run s') := by
  by_cases waits : Waits s
  · have hunread : SameUnread s s' := ⟨same, (unread waits).1, (unread waits).2⟩
    have hrespects : Proc.Respects SameUnread (putpkt k host) := by
      refine .get_bind ?_ fun s => .bind (.modify ?_) fun _ =>
        .ite (sendFrame_respects _ _) (.throw _)
      · intro s s' same
        have hbuf : s'.ownBuf = s.ownBuf := congrArg Session.ownBuf same.links.session.symm
        rw [same.flatten, hbuf]
      · intro t t' same
        refine ⟨⟨?_, same.links⟩, same.unread, same.unread'⟩
        rw [same.rest]
        rfl
    exact (hrespects s s' hunread).imp fun _ _ h => h.toSameStream
  · let sent (s : Server σ) := s.record (.putpkt (cstr s.ownBuf))
    have hsilent := not_waits_iff.mp waits
    have hsilent' : s'.noAckMode = true ∨ s'.link.session.writable = some 0 := by
      unfold Server.noAckMode at hsilent ⊢
      rwa [← same.links.session]
    have hbuf : s'.ownBuf = s.ownBuf := congrArg Session.ownBuf same.links.session.symm
    have hsent : SameStream (sent s) (sent s') := by
      refine ⟨?_, same.links⟩
      simp only [sent, hbuf]
      rw [same.rest]
      rfl
    have hrun : ∀ s : Server σ, s.noAckMode = true ∨ s.link.session.writable = some 0 →
        (putpkt k host).run s =
        if (cstr s.ownBuf).length + 5 ≤ pbufsiz then
          .ok (if s.link.session.writable != some 0 then 1 else -1) ((sent s).updateLink fun l =>
            { l with session := l.session.wrote (frame (cstr s.ownBuf)) })
        else .error (.fault "buf2") (sent s) := by
      intro s silent
      simp only [putpkt, EStateM.run_bind, EStateM.run_get, EStateM.run_modify]
      split
      · exact sendFrame_silent (s := sent s) silent _ _
      · rfl
    rw [hrun s hsilent, hrun s' hsilent', hbuf, ← same.links.session]
    split
    · have hwritten := respects_onLink (write_respects (frame (cstr s.ownBuf))) _ _ hsent
      exact .ok _ hwritten.final
    · exact .error _ hsent

/-- A reply to the packet will be sent, and will wait for an answer. -/
def AwaitsAnswer (k : Kernel σ) (host : Signals.Host) (s : Server σ) : Prop :=
  Waits s ∧ cstr s.ownBuf ≠ ascii "QStartNoAckMode" ∧ command s ≠ 'k' ∧ Answered k host s

def setWritable (writable : Option Nat) (l : Link) : Link :=
  { l with session := { l.session with writable := writable } }

theorem besideBuffer_setWritable (writable : Option Nat) : BesideBuffer (setWritable writable) :=
  ⟨fun _ => rfl, fun _ _ => rfl⟩

theorem keepsWritable_of_blind {p : Proc (Server σ) α} (h : ∀ w, Blind (setWritable w) p) :
    Proc.Keeps (fun s : Server σ => s.link.session.writable) p :=
  Proc.Commutes.keeps (fun w => Server.updateLink (setWritable w)) h (fun _ => rfl) fun _ _ => rfl

/-- If the reply to the packet that comes next will wait for an answer, then `readchar` has
nothing left of what it has read. -/
def ReadsNothingAhead (k : Kernel σ) (host : Signals.Host) (s : Server σ) : Prop :=
  ∀ len s₁, Delivered s len s₁ → 0 < len → AwaitsAnswer k host s₁ →
    s₁.link.input.bufcnt ≤ 0

theorem awaitsAnswer_of_returned (h : Serving rs s t)
    (fits : (cstr (s.ownBuf.drop 1)).length ≤ pbufsiz) (notD : command s ≠ 'D') {b : Bool}
    {s₂ : Server σ} (returned : (handlePacket k host).run s = .ok b s₂)
    (waits : Waits s₂) : AwaitsAnswer k host s := by
  have hstart : cstr s.ownBuf ≠ ascii "QStartNoAckMode" := by
    intro start
    have hmode := (handlePacket_start start).returned returned
    exact absurd (waits.1.symm.trans hmode.1) Bool.false_ne_true
  have hmode := (handlePacket_keepsMode notD hstart).returned returned
  have notk := (stays_of_returned h returned).2
  have hwritable : s₂.link.session.writable = s.link.session.writable := by
    have hblind : ∀ w, Blind (setWritable w) (dispatch k host (command s)) := fun w =>
      dispatch_blind (besideBuffer_setWritable w) notD fun _ =>
        handleSet_blind (besideBuffer_setWritable w) fun _ => rfl
    have hkeeps := keepsWritable_of_blind hblind s
    rwa [show (dispatch k host (command s)).run s = .ok b s₂ from returned] at hkeeps
  have hverdict : Verdict rs (handlePacket k host) _ _ s :=
    handlePacket_verdict h (fun _ => fits) notD notk
  rw [Verdict, Proc.Ends.of_run returned] at hverdict
  exact ⟨⟨hmode.symm.trans waits.1, hwritable ▸ waits.2⟩, hstart, notk, t, h.live, hverdict.2.1⟩

theorem SameStream.serving (same : SameStream s s') (h : Serving rs s t) : Serving rs s' t := by
  rw [same.rest]
  exact h

theorem SameStream.command (same : SameStream s s') : command s' = command s := by
  unfold Gdbserver.command
  rw [show s'.ownBuf = s.ownBuf from congrArg Session.ownBuf same.links.session.symm]

theorem SameStream.waits (same : SameStream s s') (waits : Waits s) : Waits s' := by
  unfold Waits Server.noAckMode at waits ⊢
  rwa [← same.links.session]

theorem closing_respects : Proc.Respects SameStream (do
    remoteClose
    let s ← get
    if !s.attached then
      modify fun s => s.record (.reap s.signalPid)
      callKernel fun os => ((), k.reap s.signalPid os)
    throw (.exit 0) : Proc (Server σ) Unit) := by
  refine respects_blind fun _ => .bind (.modify fun _ => rfl) fun _ =>
    .get_bind (fun _ => rfl) fun s => .ite ?_ (.throw _)
  exact .bind (.modify fun _ => rfl) fun _ => .bind (callKernel_blind _) fun _ => .throw _

theorem handleDDetach_same (same : SameStream s s')
    (unread : Waits s → s.link.input.bufcnt ≤ 0 ∧ s'.link.input.bufcnt ≤ 0) :
    Proc.SameResult SameStream ((handleDDetach k host).run s) ((handleDDetach k host).run s') := by
  unfold handleDDetach
  refine (same.respects_blind fun _ => darwinDetach_blind).bind (fun _ _ h => h.1) ?_
  rintro _ s₁ s₁' hrun₁ _ ⟨same₁, hinput₁, hinput₁'⟩
  refine (same₁.respects_blind fun i => reply_blind (besideBuffer_setInput i) _).bind
    (fun _ _ h => h.1) ?_
  rintro _ s₂ s₂' hrun₂ _ ⟨same₂, hinput₂, hinput₂'⟩
  have hmode₁ := keepsMode_of_blind (fun _ => darwinDetach_blind (k := k)) s
  rw [hrun₁] at hmode₁
  have hmode₂ := keepsMode_of_blind
    (fun mode => reply_blind (besideBuffer_setMode mode) (ascii "OK")) s₁
  rw [show (reply (ascii "OK")).run s₁ = .ok _ s₂ from hrun₂] at hmode₂
  have hwritable₁ := keepsWritable_of_blind (fun _ => darwinDetach_blind (k := k)) s
  rw [hrun₁] at hwritable₁
  have hwritable₂ := keepsWritable_of_blind
    (fun w => reply_blind (besideBuffer_setWritable w) (ascii "OK")) s₁
  rw [show (reply (ascii "OK")).run s₁ = .ok _ s₂ from hrun₂] at hwritable₂
  refine (putpkt_same same₂ ?_).bind (fun _ _ h => h) fun _ s₃ s₃' _ _ same₃ =>
    closing_respects s₃ s₃' same₃
  rintro ⟨hacks, hwrites⟩
  rw [hinput₂, hinput₁, hinput₂', hinput₁']
  refine unread ⟨hmode₁.symm.trans (hmode₂.symm.trans hacks), ?_⟩
  rwa [← show s₁.link.session.writable = s.link.session.writable from hwritable₁,
    ← show s₂.link.session.writable = s₁.link.session.writable from hwritable₂]

theorem awaitsAnswer_detach (h : Live s t) (hD : command s = 'D') (waits : Waits s) :
    AwaitsAnswer k host s := by
  refine ⟨waits, ?_, ?_, t, h, ?_⟩
  · intro start
    rw [command_start start] at hD
    exact absurd hD (by decide)
  · rw [hD]
    decide
  · unfold Answers
    rw [hD]
    trivial

theorem handlePacket_same (h : Live s t) (same : SameStream s s')
    (ahead : AwaitsAnswer k host s → s.link.input.bufcnt ≤ 0)
    (ahead' : AwaitsAnswer k host s' → s'.link.input.bufcnt ≤ 0) :
    Proc.SameResult (fun t t' => SameStream t t' ∧ (command s ≠ 'D' →
        t.link.input = s.link.input ∧ t'.link.input = s'.link.input))
      ((handlePacket k host).run s) ((handlePacket k host).run s') := by
  rw [handlePacket_run, handlePacket_run, same.command]
  by_cases hD : command s = 'D'
  · have h' : Live s' t := by
      rw [same.rest]
      exact h
    have hunread : Waits s → s.link.input.bufcnt ≤ 0 ∧ s'.link.input.bufcnt ≤ 0 := fun waits =>
      ⟨ahead (awaitsAnswer_detach h hD waits),
        ahead' (awaitsAnswer_detach h' (same.command.trans hD) (same.waits waits))⟩
    rw [hD]
    have hdetached : Proc.SameResult SameStream ((handleDDetach k host).run s) _ :=
      handleDDetach_same same hunread
    refine hdetached.bind ?_ ?_
    · exact fun t t' hst => ⟨hst, fun hne => absurd rfl hne⟩
    · exact fun _ _ _ _ _ hst => .ok false ⟨hst, fun hne => absurd rfl hne⟩
  · refine (same.respects_blind fun i => dispatch_blind (besideBuffer_setInput i) hD fun _ =>
      handleSet_blind (besideBuffer_setInput i) fun _ => rfl).imp ?_
    exact fun t t' hst => ⟨hst.1, fun _ => hst.2⟩

theorem turn_same (h : Serving rs s t) (same : SameStream s s')
    (ahead : ReadsNothingAhead k host s) (ahead' : ReadsNothingAhead k host s') :
    Proc.SameResult SameStream ((turn k host).run s) ((turn k host).run s') := by
  have hgetpkt : Proc.Respects SameStream (onLink getpkt : Proc (Server σ) Int) :=
    respects_onLink (getpkt_respects fun _ _ heq => congrArg (· &&& 0x7f) heq)
  have hterminated : Proc.Respects SameStream (handleTerminatedInferior k) :=
    respects_blind fun i => handleTerminatedInferior_blind (besideBuffer_setInput i)
  unfold turn
  refine (hgetpkt s s' same).bind (fun _ _ hst => hst) ?_
  intro len s₁ s₁' delivered delivered' same₁
  have h₁ : Serving rs s₁ t := Delivered.serving h delivered
  have h₁' : Serving rs s₁' t := same₁.serving h₁
  split
  · rename_i pos
    have fits := Delivered.fits delivered pos
    have fits' := Delivered.fits delivered' pos
    have hserved : Proc.SameResult SameStream ((servePacket k host).run s₁)
        ((servePacket k host).run s₁') := by
      unfold servePacket
      refine (handlePacket_same h₁.live same₁ (ahead len s₁ delivered pos)
        (ahead' len s₁' delivered' pos)).bind (fun _ _ hst => hst.1) ?_
      rintro restarted s₂ s₂' returned returned' ⟨same₂, hinput⟩
      have hD := (stays_of_returned h₁ returned).1
      have hD' : command s₁' ≠ 'D' := by rwa [same₁.command]
      have hunread : Waits s₂ → s₂.link.input.bufcnt ≤ 0 ∧ s₂'.link.input.bufcnt ≤ 0 := by
        intro waits
        rw [(hinput hD).1, (hinput hD).2]
        exact ⟨ahead len s₁ delivered pos (awaitsAnswer_of_returned h₁ fits hD returned waits),
          ahead' len s₁' delivered' pos
            (awaitsAnswer_of_returned h₁' fits' hD' returned' (same₂.waits waits))⟩
      have hsent : Proc.SameResult SameStream ((putpkt k host).run s₂) _ :=
        putpkt_same same₂ hunread
      cases restarted with
      | true => exact hsent.bind (fun _ _ hst => hst) fun _ _ _ _ _ hst => .ok _ hst
      | false =>
        refine hsent.bind (fun _ _ hst => hst) fun _ s₃ s₃' _ _ hst => ?_
        exact (hterminated s₃ s₃' hst).bind (fun _ _ hst => hst) fun _ _ _ _ _ hst => .ok _ hst
    exact hserved.bind (fun _ _ hst => hst) fun _ s₂ s₂' _ _ same₂ => .ok true same₂
  · exact .ok false same₁

def acceptedPacket (s : Server σ) : Option (List Byte) :=
  match (onLink getpkt).run s with
  | .ok len s₁ => if 0 ≤ len then some (s₁.ownBuf.take len.toNat) else none
  | .error _ _ => none

/-- The packets accepted in the first `n` turns, and the state after them. -/
def serveTurns (k : Kernel σ) (host : Signals.Host) : Nat → Server σ → List (List Byte) × Server σ
  | 0, s => ([], s)
  | n + 1, s =>
    let rest :=
      match (turn k host).run s with
      | .ok true s' => serveTurns k host n s'
      | .error (.error _) s' => serveTurns k host n s'
      | .ok false s' => ([], s')
      | .error _ s' => ([], s')
    ((acceptedPacket s).toList ++ rest.1, rest.2)

def Server.kills (s : Server σ) : List (Int × Int) :=
  s.log.filterMap fun
    | .kill pid sig => some (pid, sig)
    | _ => none

/-- Accepted packets, writes and signals sent, as they are after `n` turns. -/
def observed (k : Kernel σ) (host : Signals.Host) (n : Nat) (s : Server σ) :
    List (List Byte) × List (List Byte) × List (Int × Int) :=
  let served := serveTurns k host n s
  (served.1, served.2.link.session.writes, served.2.kills)

theorem SameStream.acceptedPacket (same : SameStream s s') :
    Gdbserver.acceptedPacket s = Gdbserver.acceptedPacket s' := by
  have hgetpkt : Proc.Respects SameStream (onLink getpkt : Proc (Server σ) Int) :=
    respects_onLink (getpkt_respects fun _ _ heq => congrArg (· &&& 0x7f) heq)
  have hsame := hgetpkt s s' same
  unfold Gdbserver.acceptedPacket
  generalize (onLink getpkt).run s = r at hsame
  generalize (onLink getpkt).run s' = r' at hsame
  cases hsame with
  | ok len h =>
    exact congrArg (fun session : Session =>
      if 0 ≤ len then some (session.ownBuf.take len.toNat) else none) h.links.session
  | error e h => rfl

/-- Run by run: the induction is on the number of turns. -/
theorem serveTurns_same (reachable : Reachable k host s) (same : SameStream s s')
    (ahead : ∀ r, Later k host s r → ReadsNothingAhead k host r)
    (ahead' : ∀ r, Later k host s' r → ReadsNothingAhead k host r) (n : Nat) :
    (serveTurns k host n s).1 = (serveTurns k host n s').1 ∧
      SameStream (serveTurns k host n s).2 (serveTurns k host n s').2 := by
  induction n generalizing s s' with
  | zero => exact ⟨rfl, same⟩
  | succ n ih =>
    obtain ⟨rs, t, h⟩ := reachable.serving
    have hturn := turn_same h same (ahead s .refl) (ahead' s' .refl)
    have hnext : ∀ r r', Next k host s r → Next k host s' r' → SameStream r r' →
        (serveTurns k host n r).1 = (serveTurns k host n r').1 ∧
          SameStream (serveTurns k host n r).2 (serveTurns k host n r').2 :=
      fun r r' next next' hsame => ih (reachable.next next) hsame
        (fun q later => ahead q (.head next later)) fun q later => ahead' q (.head next' later)
    simp only [serveTurns, same.acceptedPacket]
    generalize hrun : (turn k host).run s = result at hturn
    generalize hrun' : (turn k host).run s' = result' at hturn
    cases hturn with
    | ok again hsame =>
      cases again with
      | true =>
        obtain ⟨hpackets, hstates⟩ := hnext _ _ (.served hrun) (.served hrun') hsame
        exact ⟨congrArg _ hpackets, hstates⟩
      | false => exact ⟨rfl, hsame⟩
    | error e hsame =>
      cases e with
      | error message =>
        obtain ⟨hpackets, hstates⟩ := hnext _ _ (.failed hrun) (.failed hrun') hsame
        exact ⟨congrArg _ hpackets, hstates⟩
      | exit code => exact ⟨rfl, hsame⟩
      | fault access => exact ⟨rfl, hsame⟩

/-- For every client and every other cutting of its stream, as long as no reply waits for its
answer while `readchar` has something in its buffer, in either session. -/
theorem chunking_irrelevant {s₀ : Server σ} (fresh : Fresh s₀) {chunks : List (List Byte)}
    (nonempty : ∀ chunk ∈ s₀.link.input.chunks, chunk ≠ [])
    (nonempty' : ∀ chunk ∈ chunks, chunk ≠ [])
    (recut : chunks.flatten = s₀.link.input.chunks.flatten) {ep pid : Int}
    (prepared : (prepareInferior k ep pid).run s₀ = .ok () s)
    (prepared' : (prepareInferior k ep pid).run (s₀.withChunks chunks) = .ok () s')
    (ahead : ∀ r, Later k host s r → ReadsNothingAhead k host r)
    (ahead' : ∀ r, Later k host s' r → ReadsNothingAhead k host r) (n : Nat) :
    observed k host n s = observed k host n s' := by
  have hblind : Proc.Respects SameStream (prepareInferior k ep pid) :=
    respects_blind fun _ => prepareInferior_blind ep pid
  have hcnt : ¬ 0 < s₀.link.input.bufcnt := by
    rw [fresh.bufcnt]
    decide
  have hstart : SameStream s₀ (s₀.withChunks chunks) := by
    refine ⟨rfl, rfl, rfl, ⟨fun hpos => absurd hpos hcnt, nonempty⟩,
      ⟨fun hpos => absurd hpos hcnt, nonempty'⟩, ?_⟩
    simp [Server.withChunks, Server.updateLink, Input.pending, fresh.bufcnt, recut]
  have hsame := hblind _ _ hstart
  rw [prepared, prepared'] at hsame
  cases hsame with
  | ok _ hsame =>
    have hserved := serveTurns_same (.start ep pid fresh prepared) hsame ahead ahead' n
    have hlog : (serveTurns k host n s').2.kills = (serveTurns k host n s).2.kills := by
      rw [hserved.2.rest]
      rfl
    unfold observed
    dsimp only
    rw [hserved.1, hserved.2.links.session, hlog]

theorem readsNothingAhead_of_bufcnt
    (empty : (Proc.final ((onLink getpkt).run s)).link.input.bufcnt ≤ 0) :
    ReadsNothingAhead k host s := by
  intro len s₁ delivered _ _
  rwa [show (onLink getpkt).run s = .ok len s₁ from delivered] at empty

theorem readsNothingAhead_of_two
    (ends : Proc.value ((turn k host).run (Proc.final ((turn k host).run s))) = some false)
    (first : (Proc.final ((onLink getpkt).run s)).link.input.bufcnt ≤ 0)
    (second : (Proc.final ((onLink getpkt).run
      (Proc.final ((turn k host).run s)))).link.input.bufcnt ≤ 0) :
    ∀ r, Later k host s r → ReadsNothingAhead k host r := by
  have hnext : ∀ {r r' : Server σ}, Next k host r r' → r' = Proc.final ((turn k host).run r) := by
    intro r r' next
    cases next with
    | served again => rw [again, Proc.final_ok]
    | failed jumped => rw [jumped, Proc.final_error]
  intro r later
  rcases later.cases_head with rfl | ⟨r₁, next, later⟩
  · exact readsNothingAhead_of_bufcnt first
  · rw [hnext next] at later
    rcases later.cases_head with rfl | ⟨r₂, next, _⟩
    · exact readsNothingAhead_of_bufcnt second
    · have hrun := Proc.eq_ok_of_value ends
      cases next with
      | served again => cases hrun.symm.trans again
      | failed jumped => cases hrun.symm.trans jumped

theorem prepared_recut (chunks chunks' : List (List Byte)) :
    (prepareInferior singleThread 0 0).run ((initial blankMachine chunks).withChunks chunks') =
      .ok () (launched chunks') :=
  prepared_launched chunks'

/-- The client sends a packet the server does not know, in one chunk or in two. -/
theorem chunking_irrelevant_x :
    observed singleThread Signals.darwin 2 (launched [ascii "$x#78", ascii "+"]) =
      observed singleThread Signals.darwin 2 (launched [ascii "$x", ascii "#78", ascii "+"]) := by
  have recut : [ascii "$x", ascii "#78", ascii "+"].flatten =
      (initial blankMachine [ascii "$x#78", ascii "+"]).link.input.chunks.flatten := by decide
  refine chunking_irrelevant (fresh_initial blankMachine [ascii "$x#78", ascii "+"])
    (by decide) (by decide) recut (prepared_launched [ascii "$x#78", ascii "+"])
    (prepared_recut [ascii "$x#78", ascii "+"] [ascii "$x", ascii "#78", ascii "+"]) ?_ ?_ 2
  · exact readsNothingAhead_of_two (by decide +kernel) (by decide +kernel) (by decide +kernel)
  · exact readsNothingAhead_of_two (by decide +kernel) (by decide +kernel) (by decide +kernel)

/-- A `-` that comes in together with the packet is not seen by `putpkt`, which finds the end
of the stream; one that comes in by itself makes it send its frame again. -/
theorem not_chunking_irrelevant :
    ¬ ∀ chunks : List (List Byte), (∀ chunk ∈ chunks, chunk ≠ []) →
      chunks.flatten = ascii "$x#78-+" → ∀ n,
        observed singleThread Signals.darwin n (launched [ascii "$x#78-+"]) =
          observed singleThread Signals.darwin n (launched chunks) := by
  intro hall
  have hsame := hall [ascii "$x#78", ascii "-+"] (by decide) (by decide) 1
  have hwrites := congrArg (fun seen => seen.2.1.length) hsame
  revert hwrites
  decide +kernel

end Gdbserver
