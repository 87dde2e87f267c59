import OsxGdbserver.Sessions

/-!
# Replies and their acknowledgements

`putpkt` waits for a `+` unless the mode is off. The mode is that of the reply and not
that of the request: `QStartNoAckMode` turns it off before its own reply is sent.
-/

namespace Gdbserver

open Remote CString Ppc

variable {σ α : Type} {k : Kernel σ} {host : Signals.Host} {s : Server σ} {t : ThreadInfo}
  {rs : List (List Byte)}

abbrev Server.noAckMode (s : Server σ) : Bool := s.link.session.noAckMode

/-- What a frame that ended in `r` has made of the connection: it was written once more
than there were answers other than `+`, and success stands for a `+`. -/
def Exchanged (bytes : List Byte) (s : Server σ) (r : Int) (s' : Server σ) : Prop :=
  ∃ naks : List Byte, ch '+' ∉ naks ∧
    s'.link.session.writes = s.link.session.writes ++ List.replicate (naks.length + 1) bytes ∧
    s.link.input.chunks.flatten =
      naks ++ (if r = 1 then [ch '+'] else []) ++ s'.link.input.chunks.flatten

/-- From `s`, `putpkt` uses the handshake, whatever the client answers and whichever writes
go through. -/
def Handshakes (k : Kernel σ) (host : Signals.Host) (s : Server σ) : Prop :=
  ∀ (input : Input) (writable : Option Nat),
    let s₀ := s.updateLink fun l =>
      { input := input, session := { l.session with writable := writable } }
    Proc.Ends (putpkt k host) (Exchanged (frame (cstr s.ownBuf)) s₀) (fun _ _ => True) s₀

theorem darwinSendSignal_link (signum : Int) :
    Proc.Keeps (Server.link : Server σ → Remote.Link) (darwinSendSignal k signum) :=
  Proc.Commutes.keeps (fun l => Server.updateLink fun _ => l)
    (fun _ => darwinSendSignal_blind signum) (fun _ => rfl) fun _ _ => rfl

theorem Exchanged.cons {bytes : List Byte} {c : Byte} {r : Int} {s₁ s' : Server σ}
    (h : Exchanged bytes s₁ r s') (hc : c ≠ ch '+')
    (writes : s₁.link.session.writes = s.link.session.writes ++ [bytes])
    (input : s.link.input.chunks.flatten = c :: s₁.link.input.chunks.flatten) :
    Exchanged bytes s r s' := by
  obtain ⟨naks, hnaks, hwrites, hflat⟩ := h
  refine ⟨c :: naks, ?_, ?_, ?_⟩
  · intro hmem
    rcases List.mem_cons.mp hmem with heq | hmem
    · exact hc heq.symm
    · exact hnaks hmem
  · rw [hwrites, writes, List.append_assoc]
    rfl
  · rw [input, hflat]
    rfl

theorem sendFrame_exchanged {fuel : Nat} (acks : s.noAckMode = false) (bytes : List Byte) :
    Proc.Ends (sendFrame k host bytes fuel) (Exchanged bytes s) (fun _ _ => True) s := by
  induction fuel generalizing s with
  | zero => trivial
  | succ fuel ih =>
    refine sendFrame_round bytes ?_ ?_ ?_ ?_ ?_
    · exact fun _ => ⟨[], List.not_mem_nil, rfl, rfl⟩
    · exact fun silent => absurd silent (Bool.eq_false_iff.mp acks)
    · exact fun _ _ hflat => ⟨[], List.not_mem_nil, rfl, hflat.symm⟩
    · intro left rest hplus
      refine ⟨[], List.not_mem_nil, rfl, ?_⟩
      rw [hplus, flatten_left]
      rfl
    · intro c left rest hbyte hc _
      let s₁ := (s.wrote bytes).withChunks (if left = [] then rest else left :: rest)
      have hagain : ∀ s₂ : Server σ, s₂.link = s₁.link →
          Proc.Ends (sendFrame k host bytes fuel) (Exchanged bytes s) (fun _ _ => True) s₂ := by
        intro s₂ hlink
        have acks₂ : s₂.noAckMode = false := by
          rw [Server.noAckMode, hlink]
          exact acks
        refine (ih acks₂).imp ?_ fun _ _ h => h
        intro r s₃ h
        refine h.cons hc ?_ ?_
        · rw [hlink]
          rfl
        · rw [hbyte, flatten_left, hlink]
          rfl
      split
      · rw [Proc.Ends.bind_iff]
        refine ((darwinSendSignal_link (k := k) host.sigint).ends s₁).imp ?_ ?_
        · exact fun _ s₂ hlink => hagain s₂ hlink
        · exact fun _ _ _ => trivial
      · exact hagain s₁ rfl

theorem handshakes_of_acks (acks : s.noAckMode = false) : Handshakes k host s := by
  rintro input writable s₀
  unfold putpkt
  simp only [Proc.Ends.bind_iff, Proc.Ends.get_iff, Proc.Ends.modify_iff]
  split
  · exact sendFrame_exchanged (s := s₀.record (.putpkt (cstr s.ownBuf))) acks _
  · trivial

theorem sendFrame_silent (silent : s.noAckMode = true ∨ s.link.session.writable = some 0)
    (bytes : List Byte) (fuel : Nat) :
    (sendFrame k host bytes (fuel + 1)).run s =
      .ok (if s.link.session.writable != some 0 then 1 else -1)
        (s.updateLink fun l => { l with session := l.session.wrote bytes }) := by
  have hwrite : (onLink (Remote.write bytes)).run s = .ok (s.link.session.writable != some 0)
      (s.updateLink fun l => { l with session := l.session.wrote bytes }) := rfl
  unfold sendFrame
  rw [EStateM.run_bind, hwrite]
  dsimp only
  cases hwrites : s.link.session.writable != some 0 with
  | false => rfl
  | true =>
    have hmode : s.noAckMode = true :=
      silent.resolve_right fun closed => by simp [closed] at hwrites
    rw [if_pos rfl, if_pos rfl, EStateM.run_bind, EStateM.run_get]
    exact congrArg (fun p : Proc (Server σ) Int => p.run _) (if_pos hmode)

theorem putpkt_silent (silent : s.noAckMode = true) (frames : Frames s)
    (writes : s.link.session.writable ≠ some 0) :
    Proc.Ends (putpkt k host) (fun r s' => r = 1 ∧ s'.link.input = s.link.input)
      (fun _ _ => False) s := by
  unfold putpkt
  simp only [Proc.Ends.bind_iff, Proc.Ends.get_iff, Proc.Ends.modify_iff]
  rw [if_pos (show (cstr s.ownBuf).length + 5 ≤ pbufsiz from frames)]
  have silent' : (s.record (.putpkt (cstr s.ownBuf))).noAckMode = true := silent
  rw [Proc.Ends.of_run (sendFrame_silent (.inl silent') (frame (cstr s.ownBuf))
    s.link.input.chunks.flatten.length)]
  exact ⟨if_pos (bne_iff_ne.mpr writes), rfl⟩

theorem not_handshakes (silent : s.noAckMode = true) (frames : Frames s) :
    ¬ Handshakes k host s := by
  intro hall
  let s₀ := s.updateLink fun l =>
    { input := { s.link.input with chunks := [] }, session := { l.session with writable := none } }
  have hends : Proc.Ends (putpkt k host) (Exchanged (frame (cstr s.ownBuf)) s₀)
      (fun _ _ => True) s₀ := hall { s.link.input with chunks := [] } none
  have hsilent : Proc.Ends (putpkt k host) (fun r s' => r = 1 ∧ s'.link.input = s₀.link.input)
      (fun _ _ => False) s₀ := putpkt_silent silent frames
        (Option.some_ne_none 0).symm
  have hboth := hends.and hsilent
  unfold Proc.Ends at hboth
  split at hboth
  · obtain ⟨⟨naks, _, _, hflat⟩, rfl, _⟩ := hboth
    have hlen := congrArg List.length hflat
    simp [s₀, Server.updateLink] at hlen
  · exact hboth.2

/-- `putpkt` is called in `s₂` for the packet that was accepted in `s₁`. -/
inductive RepliesFrom (k : Kernel σ) (host : Signals.Host) (s₁ s₂ : Server σ) : Prop
  | handled (restarted : Bool) (returned : (handlePacket k host).run s₁ = .ok restarted s₂)
  | detached (hD : command s₁ = 'D')
      (ready : (do darwinDetach k; writeOk).run s₁ = .ok () s₂)

def Acknowledged (k : Kernel σ) (host : Signals.Host) (s₂ : Server σ) : Prop :=
  ∃ s₃, (putpkt k host).run s₂ = .ok 1 s₃ ∧
    ∃ naks, s₂.link.input.chunks.flatten = naks ++ ch '+' :: s₃.link.input.chunks.flatten

/-- The turn that starts in `s` accepts the packet in `s₁`, while acknowledgements are
exchanged. -/
def AcceptsAcked (s s₁ : Server σ) : Prop :=
  ∃ len, Delivered s len s₁ ∧ 0 < len ∧ s₁.noAckMode = false

/-- The reply to a packet accepted in `s` is sent as the packet was. -/
def RepliesInKind (k : Kernel σ) (host : Signals.Host) (s : Server σ) : Prop :=
  ∀ s₁ s₂, AcceptsAcked s s₁ → RepliesFrom k host s₁ s₂ → Handshakes k host s₂

/-- The packet that comes next turns the mode off. -/
def TurnsAcksOff (s : Server σ) : Prop :=
  ∃ s₁, AcceptsAcked s s₁ ∧ cstr s₁.ownBuf = ascii "QStartNoAckMode"

theorem getpkt_keepsMode : Proc.Keeps (fun l : Link => l.session.noAckMode) getpkt := by
  have hread : Proc.Keeps (fun l : Link => l.session.noAckMode) readchar :=
    fun l => congrArg Session.noAckMode (readchar_keeps l)
  have hwrite : ∀ bytes, Proc.Keeps (fun l : Link => l.session.noAckMode) (Remote.write bytes) :=
    fun _ => .modifyGet fun _ => rfl
  have hdigit : ∀ a, Proc.Keeps (fun l : Link => l.session.noAckMode) (fromhex a) := by
    intro a
    unfold fromhex
    cases a.bind hexDigit with
    | none => exact .throw _
    | some nib => exact .pure nib
  have hscan : ∀ fuel, Proc.Keeps (fun l : Link => l.session.noAckMode) (scanStart fuel) :=
    fun fuel l => congrArg Session.noAckMode (scanStart_keeps fuel l)
  have hbody : ∀ fuel i csum,
      Proc.Keeps (fun l : Link => l.session.noAckMode) (readBody fuel i csum) :=
    readBody_keeps fun _ _ _ => rfl
  have hreceive : ∀ fuel, Proc.Keeps (fun l : Link => l.session.noAckMode) (receive fuel) := by
    intro fuel
    induction fuel with
    | zero => exact .throw _
    | succ fuel ih =>
      refine .bind (hscan _) fun found => .ite (.bind (hbody _ _ _) fun body => ?_) (.pure _)
      rcases body with _ | ⟨len, csum⟩
      · exact .pure _
      · refine .bind hread fun _ => .bind (hdigit _) fun _ => .bind hread fun _ =>
          .bind (hdigit _) fun _ => .ite (.pure _) (.bind (hwrite _) fun _ => ih)
  exact .bind .get fun _ => .bind (hreceive _) fun _ => .bind .get fun _ =>
    .ite (.bind (hwrite _) fun _ => .pure _) (.pure _)

def setMode (mode : Bool) (l : Link) : Link :=
  { l with session := { l.session with noAckMode := mode } }

theorem besideBuffer_setMode (mode : Bool) : BesideBuffer (setMode mode) :=
  ⟨fun _ => rfl, fun _ _ => rfl⟩

theorem keepsMode_of_blind {p : Proc (Server σ) α} (h : ∀ mode, Blind (setMode mode) p) :
    Proc.Keeps Server.noAckMode p :=
  Proc.Commutes.keeps (fun mode => Server.updateLink (setMode mode)) h (fun _ => rfl) fun _ _ => rfl

theorem putpkt_keepsMode : Proc.Keeps Server.noAckMode (putpkt k host) := by
  have hlink : ∀ {β : Type} {p : Proc Link β}, Proc.Keeps (fun l : Link => l.session.noAckMode) p →
      Proc.Keeps Server.noAckMode (onLink p : Proc (Server σ) β) := by
    intro β p hp s
    unfold onLink
    rw [Proc.final_zoom]
    exact hp s.link
  have hread : Proc.Keeps (fun l : Link => l.session.noAckMode) (Remote.read 1) := by
    refine .modifyGet fun l => ?_
    cases l.input.chunks <;> rfl
  have hsend : ∀ bytes fuel, Proc.Keeps Server.noAckMode (sendFrame k host bytes fuel) := by
    intro bytes fuel
    induction fuel with
    | zero => exact .throw _
    | succ fuel ih =>
      refine .bind (hlink (.modifyGet fun _ => rfl)) fun _ =>
        .ite (.bind .get fun _ => .ite (.pure _) ?_) (.pure _)
      refine .bind (hlink hread) fun _ => .ite (.pure _) (.ite (.pure _) ?_)
      exact .ite (.bind (keepsMode_of_blind fun _ => darwinSendSignal_blind _) fun _ => ih) ih
  exact .bind .get fun _ => .bind (.modify fun _ => rfl) fun _ => .ite (hsend _ _) (.throw _)

theorem handlePacket_keepsMode (notD : command s ≠ 'D')
    (notStart : cstr s.ownBuf ≠ ascii "QStartNoAckMode") :
    Proc.Ends (handlePacket k host) (fun _ s' => s'.noAckMode = s.noAckMode)
      (fun _ s' => s'.noAckMode = s.noAckMode) s := by
  have hreply : ∀ text, Proc.Keeps Server.noAckMode (reply text : Proc (Server σ) Unit) :=
    fun text => keepsMode_of_blind fun mode => reply_blind (besideBuffer_setMode mode) text
  unfold Proc.Ends
  rw [handlePacket_run]
  by_cases hQ : command s = 'Q'
  · rw [hQ]
    change Proc.Ends (do handleSet; return false) _ _ s
    unfold handleSet
    rw [Proc.Ends.bind_iff, Proc.Ends.bind_iff, Proc.Ends.of_run packet_run, if_neg notStart]
    exact ((Proc.Keeps.ite (hreply _) (hreply _)).ends s).imp (fun _ _ h => h) fun _ _ h => h
  · have hdispatch : Proc.Keeps Server.noAckMode (dispatch k host (command s)) :=
      keepsMode_of_blind fun mode =>
        dispatch_blind (besideBuffer_setMode mode) notD fun hc => absurd hc hQ
    exact hdispatch.ends s

theorem command_start (start : cstr s.ownBuf = ascii "QStartNoAckMode") : command s = 'Q' := by
  have hhead : ∀ buf, cstr buf = ascii "QStartNoAckMode" → deref buf = ch 'Q' := by
    rintro (_ | ⟨c, rest⟩) hbuf
    · exact absurd hbuf (by decide)
    · by_cases hc : c = 0
      · rw [hc] at hbuf
        exact absurd (show [] = ascii "QStartNoAckMode" from hbuf) (by decide)
      · have hcons : cstr (c :: rest) = c :: cstr rest := by simp [cstr, hc]
        exact (List.cons.inj (hcons.symm.trans hbuf)).1
  rw [command, hhead _ start]
  decide +kernel

theorem handlePacket_start (start : cstr s.ownBuf = ascii "QStartNoAckMode") :
    Proc.Ends (handlePacket k host) (fun _ s' => s'.noAckMode = true ∧ Frames s')
      (fun _ _ => False) s := by
  unfold Proc.Ends
  rw [handlePacket_run, command_start start]
  change Proc.Ends (do handleSet; return false) _ _ s
  unfold handleSet
  have hok : writeOk.run s = .ok () (s.withText (ascii "OK")) := reply_run (by decide)
  rw [Proc.Ends.bind_iff, Proc.Ends.bind_iff, Proc.Ends.of_run packet_run, if_pos start,
    Proc.Ends.bind_iff, Proc.Ends.of_run hok]
  exact ⟨rfl, frames_withText (s := s) (by decide)⟩

theorem AcceptsAcked.mode {s₁ : Server σ} (h : AcceptsAcked s s₁) : s.noAckMode = false := by
  obtain ⟨len, delivered, _, hmode⟩ := h
  have hkeeps : Proc.Ends (onLink getpkt) (fun _ s' => s'.noAckMode = s.noAckMode)
      (fun _ _ => True) s := by
    rw [onLink, Proc.Ends.zoom_iff]
    exact (getpkt_keepsMode.ends s.link).imp (fun _ _ heq => heq) fun _ _ _ => trivial
  rw [Proc.Ends.of_run delivered] at hkeeps
  exact hkeeps.symm.trans hmode

/-- The reply goes out in the mode of the request just if the request does not turn the mode
off. -/
theorem repliesInKind_iff (h : Serving rs s t) :
    RepliesInKind k host s ↔ ¬ TurnsAcksOff s := by
  constructor
  · rintro hall ⟨s₁, accepted, start⟩
    have hhandled : Proc.Ends (handlePacket k host) _ _ s₁ := handlePacket_start start
    unfold Proc.Ends at hhandled
    split at hhandled
    · rename_i restarted s₂ hrun
      exact not_handshakes hhandled.1 hhandled.2 (hall s₁ s₂ accepted (.handled restarted hrun))
    · exact hhandled
  · intro hfree s₁ s₂ accepted hreply
    obtain ⟨len, delivered, _, hmode⟩ := id accepted
    refine handshakes_of_acks ?_
    rw [← hmode]
    cases hreply with
    | handled restarted returned =>
      have notD := (stays_of_returned (delivered.serving h) returned).1
      exact (handlePacket_keepsMode notD fun start => hfree ⟨s₁, accepted, start⟩).returned
        returned
    | detached hD ready =>
      have hblind : ∀ mode, Blind (setMode mode) (do darwinDetach k; writeOk) := fun mode =>
        .bind darwinDetach_blind fun _ => reply_blind (besideBuffer_setMode mode) _
      have hkeeps := (keepsMode_of_blind hblind).ends s₁
      rwa [Proc.Ends.of_run ready] at hkeeps

theorem Next.noAckMode (h : Serving rs s t) (acks : s.noAckMode = false)
    (hfree : ¬ TurnsAcksOff s) {s' : Server σ} (next : Next k host s s') :
    s'.noAckMode = false := by
  have hreceived : Proc.Ends (onLink getpkt) (fun _ s' => s'.noAckMode = false)
      (fun _ s' => s'.noAckMode = false) s := by
    rw [onLink, Proc.Ends.zoom_iff]
    exact (getpkt_keepsMode.ends s.link).imp (fun _ _ heq => heq.trans acks)
      fun _ _ heq => heq.trans acks
  refine next.keeps h hreceived ?_ ?_ ?_
  · intro len s₁ delivered pos hD acks₁
    have notStart : cstr s₁.ownBuf ≠ ascii "QStartNoAckMode" := fun start =>
      hfree ⟨s₁, ⟨len, delivered, pos, acks₁⟩, start⟩
    exact (handlePacket_keepsMode hD notStart).imp (fun _ _ heq => heq.trans acks₁)
      fun _ _ heq => heq.trans acks₁
  · exact fun s₁ acks₁ => (putpkt_keepsMode.ends s₁).imp (fun _ _ heq => heq.trans acks₁)
      fun _ _ heq => heq.trans acks₁
  · have hkeeps : Proc.Keeps Server.noAckMode (handleTerminatedInferior k) :=
      keepsMode_of_blind fun mode => handleTerminatedInferior_blind (besideBuffer_setMode mode)
    exact fun s₁ acks₁ => (hkeeps.ends s₁).imp (fun _ _ heq => heq.trans acks₁)
      fun _ _ heq => heq.trans acks₁

/-- Replies are sent in the mode of their requests, and a packet is handled without
acknowledgements only after an earlier reply, to a packet accepted with them, was
acknowledged. -/
def Session.KeepsMode (k : Kernel σ) (host : Signals.Host) (s : Server σ) : Prop :=
  (∀ s', Later k host s s' → RepliesInKind k host s') ∧
    ∀ s', Later k host s s' → s'.noAckMode = true →
      ∃ s₀ s₁ s₂, Later k host s s₀ ∧ Relation.TransGen (Next k host) s₀ s' ∧
        AcceptsAcked s₀ s₁ ∧ RepliesFrom k host s₁ s₂ ∧ Acknowledged k host s₂

/-- In every session the handshakes of the replies are those of their requests just if the
client never asks for the mode in which there are none. -/
theorem session_keepsMode_iff {s₀ : Server σ} (fresh : Fresh s₀) {ep pid : Int}
    (prepared : (prepareInferior k ep pid).run s₀ = .ok () s) :
    Session.KeepsMode k host s ↔ ∀ s', Later k host s s' → ¬ TurnsAcksOff s' := by
  have reachable : Reachable k host s := .start ep pid fresh prepared
  have hturn : ∀ s', Later k host s s' → (RepliesInKind k host s' ↔ ¬ TurnsAcksOff s') := by
    intro s' later
    obtain ⟨rs, t, h⟩ := (reachable.later later).serving
    exact repliesInKind_iff h
  constructor
  · exact fun hall s' later => (hturn s' later).mp (hall.1 s' later)
  · intro hfree
    refine ⟨fun s' later => (hturn s' later).mpr (hfree s' later), ?_⟩
    have hstart : s.noAckMode = false := by
      have hkeeps : Proc.Keeps Server.noAckMode (prepareInferior k ep pid) :=
        keepsMode_of_blind fun _ => prepareInferior_blind ep pid
      have hs := hkeeps.ends s₀
      rw [Proc.Ends.of_run prepared] at hs
      exact hs.trans fresh.noAckMode
    have hacks : ∀ s', Later k host s s' → s'.noAckMode = false := by
      intro s' later
      induction later with
      | refl => exact hstart
      | tail before next ih =>
        obtain ⟨rs, t, h⟩ := (reachable.later before).serving
        exact next.noAckMode h ih (hfree _ before)
    intro s' later hsilent
    exact absurd ((hacks s' later).symm.trans hsilent) Bool.false_ne_true

/-- The client reads the registers and acknowledges them. -/
theorem session_keepsMode_iff_g :
    Session.KeepsMode singleThread Signals.darwin (launched [ascii "$g#67", ascii "+"]) ↔
      ∀ s', Later singleThread Signals.darwin (launched [ascii "$g#67", ascii "+"]) s' →
        ¬ TurnsAcksOff s' :=
  session_keepsMode_iff (fresh_initial blankMachine [ascii "$g#67", ascii "+"])
    (prepared_launched [ascii "$g#67", ascii "+"])

/-- One turn is enough in which the reply goes out in the other mode. -/
theorem not_keepsMode_of_run {len : Int} (restarted : Bool)
    (hlen : Proc.value ((onLink getpkt).run s) = some len) (pos : 0 < len) :
    let s₁ := Proc.final ((onLink getpkt).run s)
    let s₂ := Proc.final ((handlePacket k host).run s₁)
    s₁.noAckMode = false → Proc.value ((handlePacket k host).run s₁) = some restarted →
      s₂.noAckMode = true → Frames s₂ → ¬ Session.KeepsMode k host s := by
  intro s₁ s₂ acks hreturned silent frames keeps
  have accepted : AcceptsAcked s s₁ := ⟨len, Proc.eq_ok_of_value hlen, pos, acks⟩
  have hreply : RepliesFrom k host s₁ s₂ := .handled restarted (Proc.eq_ok_of_value hreturned)
  exact not_handshakes silent frames (keeps.1 s .refl s₁ s₂ accepted hreply)

/-- The client asks for the mode without acknowledgements: the `OK` is sent without one. -/
theorem not_session_keepsMode :
    ¬ Session.KeepsMode singleThread Signals.darwin
      (launched [ascii "$QStartNoAckMode#b0", ascii "+"]) := by
  have hlen : Proc.value ((onLink getpkt).run
      (launched [ascii "$QStartNoAckMode#b0", ascii "+"])) = some 15 := by decide +kernel
  refine not_keepsMode_of_run false hlen (by decide) ?_ ?_ ?_ ?_
  · decide +kernel
  · decide +kernel
  · decide +kernel
  · unfold Frames
    decide +kernel

end Gdbserver
