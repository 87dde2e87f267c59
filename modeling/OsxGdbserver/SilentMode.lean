import OsxGdbserver.AsyncIo
import OsxGdbserver.DamagedFrames
import OsxGdbserver.Handshakes

/-!
# The mode without acknowledgements

Once it is on, `putpkt` reads nothing and writes its frame once. `getpkt` does not write its
`+` any more, but refuses a damaged frame with a `-` as before.
-/

namespace Gdbserver

open Remote CString Ppc

variable {σ α β : Type} {k : Kernel σ} {host : Signals.Host} {s : Server σ} {t : ThreadInfo}
  {rs : List (List Byte)}

/-- Only packets that `putpkt` has built were written between the two states, and nothing was
read. -/
structure Silent (s s' : Server σ) : Prop where
  input : s'.link.input = s.link.input
  writes : ∃ sent : List (List Byte),
    s'.link.session.writes = s.link.session.writes ++ sent.map frame

namespace Silent

theorem of_eq {s s' : Server σ} (input : s'.link.input = s.link.input)
    (writes : s'.link.session.writes = s.link.session.writes) : Silent s s' :=
  ⟨input, [], by rw [writes, List.map_nil, List.append_nil]⟩

theorem refl (s : Server σ) : Silent s s := of_eq rfl rfl

theorem trans {s s' s'' : Server σ} (h : Silent s s') (h' : Silent s' s'') : Silent s s'' := by
  obtain ⟨sent, hsent⟩ := h.writes
  obtain ⟨sent', hsent'⟩ := h'.writes
  refine ⟨h'.input.trans h.input, sent ++ sent', ?_⟩
  rw [hsent', hsent, List.map_append, List.append_assoc]

end Silent

/-- In the mode without acknowledgements, `p` is silent and does not leave the mode. -/
def StaysSilent (p : Proc (Server σ) α) (s : Server σ) : Prop :=
  s.noAckMode = true →
    Proc.Ends p (fun _ s' => Silent s s' ∧ s'.noAckMode = true) (fun _ s' => Silent s s') s

namespace StaysSilent

theorem bind {p : Proc (Server σ) β} {q : β → Proc (Server σ) α} (hp : StaysSilent p s)
    (hq : ∀ b s', p.run s = .ok b s' → StaysSilent (q b) s') : StaysSilent (p >>= q) s := by
  intro mode
  rw [Proc.Ends.bind_iff]
  have hrun := hp mode
  unfold Proc.Ends at hrun ⊢
  cases h : p.run s with
  | error e s' =>
    rw [h] at hrun
    exact hrun
  | ok b s' =>
    rw [h] at hrun
    exact (hq b s' h hrun.2).imp (fun _ _ h' => ⟨hrun.1.trans h'.1, h'.2⟩)
      fun _ _ h' => hrun.1.trans h'

theorem pure (a : α) : StaysSilent (Pure.pure a : Proc (Server σ) α) s := fun mode =>
  ⟨.refl s, mode⟩

theorem ite {c : Prop} [Decidable c] {p q : Proc (Server σ) α} (hp : StaysSilent p s)
    (hq : StaysSilent q s) : StaysSilent (if c then p else q) s := by
  split
  · exact hp
  · exact hq

end StaysSilent

/-- Another input, other writes and another mode. -/
def setOuter (outer : Input × List (List Byte) × Bool) (l : Link) : Link :=
  { input := outer.1, session := { l.session with writes := outer.2.1, noAckMode := outer.2.2 } }

theorem besideBuffer_setOuter (outer : Input × List (List Byte) × Bool) :
    BesideBuffer (setOuter outer) := ⟨fun _ => rfl, fun _ _ => rfl⟩

/-- What does not use the connection, `own_buf` apart, is silent. -/
theorem StaysSilent.of_blind {p : Proc (Server σ) α} (h : ∀ outer, Blind (setOuter outer) p) :
    StaysSilent p s := by
  intro mode
  have hkeeps : Proc.Keeps (fun s : Server σ =>
      (s.link.input, s.link.session.writes, s.link.session.noAckMode)) p :=
    Proc.Commutes.keeps (fun outer => Server.updateLink (setOuter outer)) h (fun _ => rfl)
      fun _ _ => rfl
  refine (hkeeps.ends s).imp ?_ ?_
  · intro _ s' heq
    simp only [Prod.mk.injEq] at heq
    exact ⟨.of_eq heq.1 heq.2.1, heq.2.2.trans mode⟩
  · intro _ s' heq
    simp only [Prod.mk.injEq] at heq
    exact .of_eq heq.1 heq.2.1

theorem putpkt_staysSilent : StaysSilent (putpkt k host) s := by
  intro mode
  unfold putpkt
  simp only [Proc.Ends.bind_iff, Proc.Ends.get_iff, Proc.Ends.modify_iff]
  split
  · let s₁ : Server σ := s.record (.putpkt (cstr s.ownBuf))
    have silent : s₁.noAckMode = true ∨ s₁.link.session.writable = some 0 := .inl mode
    rw [Proc.Ends.of_run (sendFrame_silent silent _ _)]
    exact ⟨⟨rfl, [cstr s.ownBuf], rfl⟩, mode⟩
  · exact .of_eq rfl rfl

theorem reply_staysSilent (text : List Byte) : StaysSilent (reply text) s :=
  .of_blind fun outer => reply_blind (besideBuffer_setOuter outer) text

theorem handleSet_staysSilent : StaysSilent handleSet s := by
  refine .bind (fun mode => ⟨.refl s, mode⟩) fun buf s₁ _ => .ite ?_
    (.ite (reply_staysSilent _) (reply_staysSilent _))
  refine .bind (reply_staysSilent _) fun _ s₂ _ _ => ⟨.of_eq rfl rfl, rfl⟩

theorem handleDDetach_staysSilent : StaysSilent (handleDDetach k host) s := by
  refine .bind (.of_blind fun _ => darwinDetach_blind) fun _ s₁ _ => ?_
  refine .bind (reply_staysSilent _) fun _ s₂ _ => ?_
  refine .bind putpkt_staysSilent fun _ s₃ _ _ => ?_
  simp only [remoteClose, callKernel, Proc.Ends.bind_iff, Proc.Ends.modify_iff, Proc.Ends.get_iff]
  split
  · exact .of_eq rfl rfl
  · exact .of_eq rfl rfl

theorem handlePacket_staysSilent : StaysSilent (handlePacket k host) s := by
  unfold StaysSilent Proc.Ends
  rw [handlePacket_run]
  by_cases hD : command s = 'D'
  · rw [hD]
    exact StaysSilent.bind handleDDetach_staysSilent fun _ s' _ => .pure false
  · by_cases hQ : command s = 'Q'
    · rw [hQ]
      exact StaysSilent.bind handleSet_staysSilent fun _ s' _ => .pure false
    · exact StaysSilent.of_blind fun outer =>
        dispatch_blind (besideBuffer_setOuter outer) hD fun hc => absurd hc hQ

theorem servePacket_staysSilent : StaysSilent (servePacket k host) s := by
  refine .bind handlePacket_staysSilent fun restarted s₁ _ => .ite ?_ ?_
  · exact .bind putpkt_staysSilent fun _ _ _ => .pure _
  · refine .bind putpkt_staysSilent fun _ s₂ _ => .bind (.of_blind fun outer => ?_)
      fun _ _ _ => .pure _
    exact handleTerminatedInferior_blind (besideBuffer_setOuter outer)

/-- In the turn that starts in `s` nothing but packets of `putpkt` is written, and `getpkt`
alone reads. -/
structure QuietTurn (k : Kernel σ) (host : Signals.Host) (s : Server σ) : Prop where
  writes : ∃ sent : List (List Byte),
    (Proc.final ((turn k host).run s)).link.session.writes =
      s.link.session.writes ++ sent.map frame
  reads : (Proc.final ((turn k host).run s)).link.input = (Proc.final (getpkt.run s.link)).input

/-- What the turn does after `getpkt` is silent. -/
theorem turn_silent (silent : s.noAckMode = true) :
    Silent { s with link := Proc.final (getpkt.run s.link) }
      (Proc.final ((turn k host).run s)) := by
  have hmode : (Proc.final (getpkt.run s.link)).session.noAckMode = true :=
    (getpkt_keepsMode s.link).trans silent
  unfold turn
  rw [← Proc.Ends.final_iff (P := Silent _), Proc.Ends.bind_iff, onLink, Proc.Ends.zoom_iff]
  unfold Proc.Ends
  cases hrun : getpkt.run s.link with
  | error e l => exact .refl _
  | ok len l =>
    rw [hrun] at hmode
    have hserved : StaysSilent (do
        if len > 0 then
          servePacket k host
          return true
        else
          return false) { s with link := l } :=
      .ite (.bind servePacket_staysSilent fun _ _ _ => .pure true) (.pure false)
    exact (hserved hmode).imp (fun _ _ h => h.1) fun _ _ h => h

/-- What `getpkt` writes in this mode are its refusals. -/
theorem getpkt_writes {l : Link} (wf : l.input.WellFormed) (silent : l.session.noAckMode = true) :
    OnlyRefused l.input.characters l.session.writes (Proc.final (getpkt.run l)).session.writes := by
  have hmode := getpkt_keepsMode l
  have hends := getpkt_onlyRefused wf
  unfold Proc.Ends at hends
  cases hrun : getpkt.run l with
  | error e l' =>
    rw [hrun] at hends
    exact hends
  | ok len l' =>
    rw [hrun] at hends hmode
    obtain ⟨after, hafter, hwrites⟩ := hends
    have hnone : ¬ (0 ≤ len ∧ l'.session.noAckMode = false) := by
      rintro ⟨_, hacks⟩
      exact absurd (hacks.symm.trans (hmode.trans silent)) Bool.false_ne_true
    rw [if_neg hnone, List.append_nil] at hwrites
    rwa [Proc.final_ok, hwrites]

/-- A turn is quiet just if the next frame is not refused. -/
theorem quietTurn_iff (wf : s.link.input.WellFormed) (silent : s.noAckMode = true) :
    QuietTurn k host s ↔ ¬ Damaged s.link.input.characters := by
  have hafter : Silent _ (Proc.final ((turn k host).run s)) := turn_silent silent
  obtain ⟨hreads, sent, hsent⟩ := hafter
  constructor
  · rintro ⟨⟨sent', hsent'⟩, _⟩
    rintro ⟨lead, body, x, y, rest, c1, c2, hlead, hbody, hchars, hx, hy, wrong⟩
    obtain ⟨l', wf', _, hwrites, hmode, hrun⟩ := refuses_of_digits wf
      ⟨lead, hlead, hbody.noEnd, hchars⟩ hbody.fits hx hy wrong
    obtain ⟨n, hn, _⟩ := getpkt_writes wf' (hmode.trans silent)
    -- the first thing written is the `-`
    have heq := hsent.symm.trans hsent'
    rw [← hrun] at hn
    dsimp only at heq
    rw [hn, hwrites, List.append_assoc, List.append_assoc, List.append_cancel_left_eq] at heq
    cases sent' with
    | nil => cases heq
    | cons text sent' => cases heq
  · intro free
    obtain ⟨n, hn, hdamaged⟩ := getpkt_writes wf silent
    have hn0 : n = 0 := by
      by_contra hn0
      exact free (hdamaged hn0)
    rw [hn0, List.replicate_zero, List.append_nil] at hn
    exact ⟨⟨sent, by rw [hsent, hn]⟩, hreads⟩

/-- Whenever the mode is on, a turn of the packet loop is quiet, and so is the reply to the
packet that turned it on. -/
def Session.Quiet (k : Kernel σ) (host : Signals.Host) (s : Server σ) : Prop :=
  ∀ s', Later k host s s' → (s'.noAckMode = true → QuietTurn k host s') ∧
    ∀ len s₁ restarted s₂, Delivered s' len s₁ →
      (handlePacket k host).run s₁ = .ok restarted s₂ → s₂.noAckMode = true →
      Silent s₂ (Proc.final ((putpkt k host).run s₂))

/-- For every client, a session is quiet in this mode just if no turn of it in the mode starts
at a damaged frame. -/
theorem session_quiet_iff {s₀ : Server σ} (fresh : Fresh s₀)
    (nonempty : ∀ chunk ∈ s₀.link.input.chunks, chunk ≠ []) {ep pid : Int}
    (prepared : (prepareInferior k ep pid).run s₀ = .ok () s) {serial : Bool} {s₁ : Server σ}
    (opened : (remoteOpen serial).run s = .ok () s₁) :
    Session.Quiet k host s₁ ↔
      ∀ s', Later k host s₁ s' → s'.noAckMode = true → ¬ Damaged s'.link.input.characters := by
  obtain ⟨rs, t, h⟩ := (Reachable.start ep pid fresh prepared : Reachable k host s).serving
  have h₁ := (remoteOpen_opens opened).2 h
  have wf₁ : s₁.link.input.WellFormed := by
    have wf := prepared_wellFormed fresh nonempty prepared
    cases serial with
    | false =>
      cases opened
      exact wf
    | true =>
      cases opened
      exact wf
  constructor
  · intro quiet s' later silent
    obtain ⟨_, wf'⟩ := later.served h₁ wf₁
    exact (quietTurn_iff wf' silent).mp ((quiet s' later).1 silent)
  · intro free s' later
    obtain ⟨_, wf'⟩ := later.served h₁ wf₁
    refine ⟨fun silent => (quietTurn_iff wf' silent).mpr (free s' later silent), ?_⟩
    intro len s₂ restarted s₃ _ _ silent
    rw [← Proc.Ends.final_iff (P := Silent s₃)]
    exact (putpkt_staysSilent silent).imp (fun _ _ hsent => hsent.1) fun _ _ hsent => hsent

/-- The client reads the registers and acknowledges them. -/
theorem session_quiet_iff_g :
    Session.Quiet singleThread Signals.darwin (accepted [ascii "$g#67", ascii "+"]) ↔
      ∀ s', Later singleThread Signals.darwin (accepted [ascii "$g#67", ascii "+"]) s' →
        s'.noAckMode = true → ¬ Damaged s'.link.input.characters :=
  session_quiet_iff (fresh_initial blankMachine [ascii "$g#67", ascii "+"]) (by decide)
    (prepared_launched _) (opened_accepted _)

/-- The client turns the mode on, and its next frame is damaged: it gets a `-`. -/
theorem not_session_quiet_g :
    ¬ Session.Quiet singleThread Signals.darwin
      (accepted [ascii "$QStartNoAckMode#b0", ascii "$g#68"]) := by
  intro quiet
  let s := accepted [ascii "$QStartNoAckMode#b0", ascii "$g#68"]
  let s' := Proc.final ((turn singleThread Signals.darwin).run s)
  have hvalue : Proc.value ((turn singleThread Signals.darwin).run s) = some true := by
    decide +kernel
  have silent : s'.noAckMode = true := by decide +kernel
  have hchars : s'.link.input.characters = [] ++ 0x24 :: [0x67] ++ 0x23 :: 0x36 :: 0x38 :: [] := by
    decide +kernel
  have wf : s'.link.input.WellFormed := ⟨by decide +kernel, by decide +kernel⟩
  have hbody : Body [0x67] := ⟨by decide +kernel, by decide, by decide⟩
  refine (quietTurn_iff wf silent).mp
    ((quiet s' (.single (.served (Proc.eq_ok_of_value hvalue)))).1 silent) ?_
  exact ⟨[], [0x67], 0x36, 0x38, [], 6, 8, List.not_mem_nil, hbody, hchars, rfl, rfl, by decide⟩

end Gdbserver
