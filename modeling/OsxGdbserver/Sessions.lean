import OsxGdbserver.FrameStreams
import OsxGdbserver.LinkFrames
import OsxGdbserver.PacketLoop
import OsxGdbserver.PacketTexts
import Mathlib.Logic.Relation

/-!
# How a session ends

The packet loop returns when `getpkt` has met the end of the stream. It also returns at an
empty packet, and goes astray at a packet that leaves its buffers; otherwise it goes on
until `D`, `k` or the end of the inferior.
-/

namespace Gdbserver

open Remote CString Ppc

variable {σ α : Type} {k : Kernel σ} {host : Signals.Host} {s : Server σ} {t : ThreadInfo}
  {rs : List (List Byte)}

/-- The packet loop comes from `s` to `s'` in one turn, be it through `error`. -/
inductive Next (k : Kernel σ) (host : Signals.Host) : Server σ → Server σ → Prop
  | served {s s' : Server σ} (again : (turn k host).run s = .ok true s') : Next k host s s'
  | failed {s s' : Server σ} {message : String}
      (jumped : (turn k host).run s = .error (.error message) s') : Next k host s s'

abbrev Later (k : Kernel σ) (host : Signals.Host) : Server σ → Server σ → Prop :=
  Relation.ReflTransGen (Next k host)

theorem Reachable.next (h : Reachable k host s) {s' : Server σ} (next : Next k host s s') :
    Reachable k host s' := by
  cases next with
  | served again => exact h.turn again
  | failed jumped => exact h.jump jumped

theorem Reachable.later (h : Reachable k host s) {s' : Server σ} (later : Later k host s s') :
    Reachable k host s' := by
  induction later with
  | refl => exact h
  | tail _ next ih => exact ih.next next

theorem Next.serving (h : Serving rs s t) {s' : Server σ} (next : Next k host s s') :
    ∃ rs t, Serving rs s' t := by
  have hturn := turn_serving k host h
  cases next with
  | served again => exact hturn.returned again rfl
  | failed jumped =>
    rw [Proc.Ends.of_run_error jumped] at hturn
    exact hturn _ rfl

def KeepsInput (p : Proc (Server σ) α) : Prop :=
  ∀ s, s.link.input.WellFormed → Proc.Ends p (fun _ s' => s'.link.input.WellFormed)
    (fun _ s' => s'.link.input.WellFormed) s

theorem KeepsInput.bind {β : Type} {p : Proc (Server σ) β} {q : β → Proc (Server σ) α}
    (hp : KeepsInput p) (hq : ∀ b, KeepsInput (q b)) : KeepsInput (p >>= q) := by
  intro s wf
  rw [Proc.Ends.bind_iff]
  exact (hp s wf).imp (fun b s' wf' => hq b s' wf') fun _ _ wf' => wf'

theorem KeepsInput.ite {c : Prop} [Decidable c] {p q : Proc (Server σ) α} (hp : KeepsInput p)
    (hq : KeepsInput q) : KeepsInput (if c then p else q) := by
  split
  · exact hp
  · exact hq

def setInput (i : Input) (l : Link) : Link := { l with input := i }

theorem besideBuffer_setInput (i : Input) : BesideBuffer (setInput i) :=
  ⟨fun _ => rfl, fun _ _ => rfl⟩

theorem KeepsInput.of_blind {p : Proc (Server σ) α} (h : ∀ i, Blind (setInput i) p) :
    KeepsInput p := by
  have hkeeps : Proc.Keeps (fun s : Server σ => s.link.input) p :=
    Proc.Commutes.keeps (fun i => Server.updateLink (setInput i)) h (fun _ => rfl) fun _ _ => rfl
  intro s wf
  refine (hkeeps.ends s).imp ?_ ?_
  · intro _ s' heq
    rwa [heq]
  · intro _ s' heq
    rwa [heq]

theorem KeepsInput.onLink {p : Proc Link α} (h : Proc.Respects (Alike id) p) :
    KeepsInput (onLink p : Proc (Server σ) α) := by
  intro s wf
  unfold Gdbserver.onLink
  rw [Proc.Ends.zoom_iff]
  have hany : Proc.Ends p (fun _ _ => True) (fun _ _ => True) s.link :=
    Proc.Ends.of_forall (fun _ _ => trivial) fun _ _ => trivial
  have hself : Alike id s.link s.link := ⟨rfl, rfl, wf, wf, rfl⟩
  refine (h.ends hself hany).imp ?_ ?_
  · rintro _ _ ⟨_, halike, _⟩
    exact halike.wellFormed
  · rintro _ _ ⟨_, halike, _⟩
    exact halike.wellFormed

theorem read_keepsInput (n : Nat) : KeepsInput (onLink (Remote.read n) : Proc (Server σ) _) := by
  intro s wf
  unfold onLink Remote.read
  rw [Proc.Ends.zoom_iff, Proc.Ends.modifyGet_iff]
  cases hchunks : s.link.input.chunks with
  | nil => exact wf
  | cons chunk rest =>
    have hrest : ∀ c ∈ rest, c ≠ [] := fun c hc =>
      wf.nonempty c (by rw [hchunks]; exact List.mem_cons_of_mem chunk hc)
    refine ⟨wf.buffered, ?_⟩
    rintro c hc
    dsimp only at hc
    split at hc
    · exact hrest c hc
    · rename_i hleft
      rcases List.mem_cons.mp hc with rfl | hc
      · exact hleft
      · exact hrest c hc

theorem sendFrame_keepsInput (bytes : List Byte) (fuel : Nat) :
    KeepsInput (sendFrame k host bytes fuel) := by
  induction fuel with
  | zero => exact fun _ wf => wf
  | succ fuel ih =>
    have hget : KeepsInput (get : Proc (Server σ) (Server σ)) := fun _ wf => wf
    have hreturn : ∀ n : Int, KeepsInput (pure n : Proc (Server σ) Int) := fun _ _ wf => wf
    have hwrite : KeepsInput (onLink (write bytes) : Proc (Server σ) Bool) :=
      .onLink (write_respects bytes)
    refine .bind hwrite fun wrote => .ite (.bind hget fun s => .ite (hreturn 1) ?_) (hreturn _)
    refine .bind (read_keepsInput 1) fun answer => .ite (hreturn _) (.ite (hreturn 1) ?_)
    have hsignal : KeepsInput (darwinSendSignal k host.sigint) :=
      .of_blind fun _ => darwinSendSignal_blind _
    exact .ite (.bind hsignal fun _ => ih) ih

theorem putpkt_keepsInput : KeepsInput (putpkt k host) := by
  refine .bind (fun _ wf => wf) fun s => .bind (fun _ wf => wf) fun _ => ?_
  exact .ite (sendFrame_keepsInput _ _) fun _ wf => wf

theorem handlePacket_keepsInput (wf : s.link.input.WellFormed) (notD : command s ≠ 'D') :
    Proc.Ends (handlePacket k host) (fun _ s' => s'.link.input.WellFormed)
      (fun _ s' => s'.link.input.WellFormed) s := by
  have hdispatch : KeepsInput (dispatch k host (command s)) := .of_blind fun i =>
    dispatch_blind (besideBuffer_setInput i) notD fun _ =>
      handleSet_blind (besideBuffer_setInput i) fun _ => rfl
  unfold Proc.Ends
  rw [handlePacket_run]
  exact hdispatch s wf

/-- What every part of a turn keeps holds in the next one. -/
theorem Next.keeps (h : Serving rs s t) {P : Server σ → Prop}
    (received : Proc.Ends (onLink getpkt) (fun _ s₁ => P s₁) (fun _ s₁ => P s₁) s)
    (handled : ∀ len s₁, Delivered s len s₁ → 0 < len → command s₁ ≠ 'D' → P s₁ →
      Proc.Ends (handlePacket k host) (fun _ s₂ => P s₂) (fun _ s₂ => P s₂) s₁)
    (sent : ∀ s₁, P s₁ → Proc.Ends (putpkt k host) (fun _ s₂ => P s₂) (fun _ s₂ => P s₂) s₁)
    (terminated : ∀ s₁, P s₁ →
      Proc.Ends (handleTerminatedInferior k) (fun _ s₂ => P s₂) (fun _ s₂ => P s₂) s₁)
    {s' : Server σ} (next : Next k host s s') : P s' := by
  have hafter : ∀ (restarted : Bool) s₂, P s₂ → Proc.Ends (do
      if restarted then
        let _ ← putpkt k host
      else
        let _ ← putpkt k host
        let _ ← handleTerminatedInferior k) (fun _ s₃ => P s₃) (fun _ s₃ => P s₃) s₂ := by
    intro restarted s₂ h₂
    cases restarted with
    | true =>
      simp only [if_true, Proc.Ends.bind_iff]
      exact (sent s₂ h₂).imp (fun _ _ h₃ => h₃) fun _ _ h₃ => h₃
    | false =>
      simp only [Bool.false_eq_true, if_false, Proc.Ends.bind_iff]
      refine (sent s₂ h₂).imp ?_ fun _ _ h₃ => h₃
      exact fun _ s₃ h₃ => (terminated s₃ h₃).imp (fun _ _ h₄ => h₄) fun _ _ h₄ => h₄
  have hturn : Proc.Ends (turn k host) (fun _ s' => P s')
      (fun e s' => (∃ message, e = .error message) → P s') s := by
    cases hpacket : (onLink getpkt).run s with
    | error e s₁ =>
      rw [Proc.Ends.of_run_error hpacket] at received
      unfold turn
      rw [Proc.Ends.bind_iff, Proc.Ends.of_run_error hpacket]
      exact fun _ => received
    | ok len s₁ =>
      have delivered : Delivered s len s₁ := hpacket
      rw [Proc.Ends.of_run hpacket] at received
      by_cases pos : 0 < len
      · rw [turn_ends k host delivered pos, servePacket, Proc.Ends.bind_iff]
        by_cases hD : command s₁ = 'D'
        · refine (handlePacket_leaves (delivered.serving h) (Or.inl hD)).imp
            (fun _ _ hfalse => hfalse.elim) ?_
          rintro e s₂ hleaves ⟨message, rfl⟩
          simp [Leaves, AckFault] at hleaves
        · refine (handled len s₁ delivered pos hD received).imp ?_ fun _ _ h₂ _ => h₂
          exact fun restarted s₂ h₂ =>
            (hafter restarted s₂ h₂).imp (fun _ _ h₃ => h₃) fun _ _ h₃ _ => h₃
      · unfold turn
        rw [Proc.Ends.bind_iff, Proc.Ends.of_run delivered, if_neg pos]
        exact received
  cases next with
  | served again =>
    rw [Proc.Ends.of_run again] at hturn
    exact hturn
  | failed jumped =>
    rw [Proc.Ends.of_run_error jumped] at hturn
    exact hturn ⟨_, rfl⟩

theorem Next.wellFormed (h : Serving rs s t) (wf : s.link.input.WellFormed) {s' : Server σ}
    (next : Next k host s s') : s'.link.input.WellFormed := by
  have hreceived : KeepsInput (onLink getpkt : Proc (Server σ) Int) :=
    .onLink (getpkt_respects fun _ _ heq => congrArg (· &&& 0x7f) heq)
  have hterminated : KeepsInput (handleTerminatedInferior k) :=
    .of_blind fun i => handleTerminatedInferior_blind (besideBuffer_setInput i)
  exact next.keeps h (hreceived s wf)
    (fun _ _ _ _ hD wf₁ => handlePacket_keepsInput wf₁ hD) putpkt_keepsInput hterminated

def Server.withChunks (s : Server σ) (chunks : List (List Byte)) : Server σ :=
  s.updateLink fun l => { l with input := { l.input with chunks := chunks } }

theorem read_run_end (h : s.link.input.chunks = []) :
    (onLink (Remote.read 1)).run s = .ok (if s.link.input.failed then -1 else 0, []) s := by
  simp [onLink, Proc.run_zoom, Remote.read, h]

theorem read_run_byte {c : Byte} {left : List Byte} {rest : List (List Byte)}
    (h : s.link.input.chunks = (c :: left) :: rest) :
    (onLink (Remote.read 1)).run s =
      .ok (1, [c]) (s.withChunks (if left = [] then rest else left :: rest)) := by
  cases left <;>
    simp [onLink, Proc.run_zoom, Remote.read, h, Server.withChunks, Server.updateLink,
      -List.length_take]

theorem read_run_none (h : ∀ c left rest, s.link.input.chunks ≠ (c :: left) :: rest) :
    ∃ cc chunks, cc ≤ 0 ∧ chunks.flatten = s.link.input.chunks.flatten ∧
      (onLink (Remote.read 1)).run s = .ok (cc, []) (s.withChunks chunks) := by
  rcases hchunks : s.link.input.chunks with _ | ⟨_ | ⟨c, left⟩, rest⟩
  · refine ⟨_, s.link.input.chunks, ?_, by rw [hchunks], read_run_end hchunks⟩
    split <;> decide
  · refine ⟨0, rest, Int.le_refl 0, rfl, ?_⟩
    simp [onLink, Proc.run_zoom, Remote.read, hchunks, Server.withChunks, Server.updateLink]
  · exact absurd hchunks (h c left rest)

theorem flatten_left (c : Byte) (left : List Byte) (rest : List (List Byte)) :
    ((c :: left) :: rest).flatten = c :: (if left = [] then rest else left :: rest).flatten := by
  cases left <;> rfl

theorem darwinSendSignal_run (live : Live s t) (signum : Int) :
    ∃ os, (darwinSendSignal k signum).run s =
      .ok () { s.record (.kill t.pid signum) with os := os } := by
  refine ⟨(k.kill t.pid signum s.os).2, ?_⟩
  rw [darwinSendSignal, EStateM.run_bind, derefCurrent_run live]
  rfl

theorem signalled_ends {c : Byte} (live : c = 3 → Live s t) {q : Proc (Server σ) Int}
    {Q : Int → Server σ → Prop} {E : Stop → Server σ → Prop}
    (hq : ∀ s', s'.link = s.link → (∀ t, Live s t → Live s' t) →
      (s'.log = if c = 3 then .kill t.pid host.sigint :: s.log else s.log) →
      Proc.Ends q Q E s') :
    Proc.Ends (do
      if c = 3 then
        darwinSendSignal k host.sigint
      q) Q E s := by
  split
  · rename_i hc
    obtain ⟨os, hrun⟩ := darwinSendSignal_run (live hc) host.sigint
    rw [Proc.Ends.bind_iff, Proc.Ends.of_run hrun]
    exact hq _ rfl (fun _ h => h) (if_pos hc).symm
  · rename_i hc
    exact hq s rfl (fun _ h => h) (if_neg hc).symm

def Server.wrote (bytes : List Byte) (s : Server σ) : Server σ :=
  s.updateLink fun l => { l with session := l.session.wrote bytes }

/-- One round of the loop of `putpkt`: it ends with what the write, the mode or the answer
says, or goes on behind an answer other than `+`. -/
theorem sendFrame_round {fuel : Nat} (bytes : List Byte) {Q : Int → Server σ → Prop}
    {E : Stop → Server σ → Prop}
    (unwritten : s.link.session.writable = some 0 → Q (-1) (s.wrote bytes))
    (silent : s.link.session.noAckMode = true → Q 1 (s.wrote bytes))
    (unanswered : (∀ c left rest, s.link.input.chunks ≠ (c :: left) :: rest) →
      ∀ chunks, chunks.flatten = s.link.input.chunks.flatten →
        Q (-1) ((s.wrote bytes).withChunks chunks))
    (acked : ∀ left rest, s.link.input.chunks = (ch '+' :: left) :: rest →
      Q 1 ((s.wrote bytes).withChunks (if left = [] then rest else left :: rest)))
    (again : ∀ c left rest, s.link.input.chunks = (c :: left) :: rest → c ≠ ch '+' →
      s.link.session.writable ≠ some 0 →
        Proc.Ends (do
          if c = 3 then
            darwinSendSignal k host.sigint
          sendFrame k host bytes fuel) Q E
          ((s.wrote bytes).withChunks (if left = [] then rest else left :: rest))) :
    Proc.Ends (sendFrame k host bytes (fuel + 1)) Q E s := by
  have hwrite : (onLink (Remote.write bytes)).run s =
      .ok (s.link.session.writable != some 0) (s.wrote bytes) := rfl
  unfold sendFrame
  rw [Proc.Ends.bind_iff, Proc.Ends.of_run hwrite]
  by_cases more : s.link.session.writable = some 0
  · rw [more]
    exact unwritten more
  · rw [if_pos (bne_iff_ne.mpr more), Proc.Ends.bind_iff, Proc.Ends.get_iff]
    split
    · rename_i mode
      exact silent mode
    · rw [Proc.Ends.bind_iff]
      by_cases hbyte : ∃ c left rest, s.link.input.chunks = (c :: left) :: rest
      · obtain ⟨c, left, rest, hbyte⟩ := hbyte
        rw [Proc.Ends.of_run (read_run_byte (s := s.wrote bytes) hbyte)]
        dsimp only
        rw [if_neg (by decide)]
        change Proc.Ends (if c = ch '+' then return 1 else _) _ _ _
        split
        · rename_i hplus
          exact acked left rest (hplus ▸ hbyte)
        · rename_i hplus
          exact again c left rest hbyte hplus more
      · have hnone : ∀ c left rest, s.link.input.chunks ≠ (c :: left) :: rest :=
          fun c left rest h => hbyte ⟨c, left, rest, h⟩
        obtain ⟨cc, chunks, hcc, hflat, hread⟩ := read_run_none (s := s.wrote bytes) hnone
        rw [Proc.Ends.of_run hread]
        dsimp only
        rw [if_pos hcc]
        exact unanswered hnone chunks hflat

/-- With a current thread, and enough fuel for the bytes still to come, the frame is sent. -/
theorem sendFrame_returns {fuel : Nat} (h : Live s t)
    (enough : s.link.input.chunks.flatten.length < fuel) (bytes : List Byte) :
    Proc.Ends (sendFrame k host bytes fuel) (fun _ _ => True) (fun _ _ => False) s := by
  induction fuel generalizing s with
  | zero => exact absurd enough (Nat.not_lt_zero _)
  | succ fuel ih =>
    refine sendFrame_round bytes (fun _ => trivial) (fun _ => trivial) (fun _ _ _ => trivial)
      (fun _ _ _ => trivial) ?_
    intro c left rest hbyte _ _
    let s₁ := (s.wrote bytes).withChunks (if left = [] then rest else left :: rest)
    refine signalled_ends (s := s₁) (fun _ => h) fun s₂ hlink hlive _ => ?_
    refine ih (hlive t h) ?_
    rw [hbyte, flatten_left, List.length_cons] at enough
    rw [hlink]
    exact Nat.lt_of_succ_lt_succ enough

theorem putpkt_returns (h : Live s t) (frames : Frames s) :
    Proc.Ends (putpkt k host) (fun _ _ => True) (fun _ _ => False) s := by
  unfold putpkt
  simp only [Proc.Ends.bind_iff, Proc.Ends.get_iff, Proc.Ends.modify_iff]
  rw [if_pos (show (cstr s.ownBuf).length + 5 ≤ pbufsiz from frames)]
  exact sendFrame_returns (s := s.record (.putpkt (cstr s.ownBuf))) h (Nat.lt_succ_self _) _

/-- What lies behind the packet in `own_buf` does not matter. -/
theorem contained_congr {s s' : Server σ} {c : Byte} {body stale stale' : List Byte}
    (h : s.ownBuf = (c :: body) ++ 0 :: stale) (h' : s'.ownBuf = (c :: body) ++ 0 :: stale') :
    Contained s ↔ Contained s' := by
  have hcommand : command s = command s' := by
    unfold command
    rw [h, h']
    rfl
  have hdrop : s.ownBuf.drop 1 = body ++ 0 :: stale := by rw [h]; rfl
  have hdrop' : s'.ownBuf.drop 1 = body ++ 0 :: stale' := by rw [h']; rfl
  have hnumber := strtol_nul body stale stale'
  have hread := decodeReadPacket_nul body stale stale'
  have hframes : Frames s ↔ Frames s' := by
    unfold Frames
    rw [h, h', cstr_nul (c :: body) stale stale']
  have hlength : mContained s.ownBuf ↔ mContained s'.ownBuf := by
    unfold mContained
    rw [hdrop, hdrop', hread]
  unfold Contained
  rw [hcommand, hdrop, hdrop', hnumber]
  split
  · exact Iff.rfl
  · exact Iff.rfl
  · exact hlength
  · exact hframes
  · exact Iff.rfl

/-- The packet that comes next is `D` or `k`. -/
def AcceptsLast (s : Server σ) : Prop :=
  ∃ len s₁, Delivered s len s₁ ∧ (command s₁ = 'D' ∨ command s₁ = 'k')

/-- The packet loop returns only after `readchar` has reported the end, and what keeps it
from going on is `D`, `k` or the end of the inferior. -/
def EndsRightly (k : Kernel σ) (host : Signals.Host) (s : Server σ) : Prop :=
  Proc.Ends (turn k host) (fun again s' => again = false → HungUp s'.link)
    (fun e s' => (∃ message, e = .error message) ∨ AcceptsLast s ∨
      (∃ code, e = .exit code) ∧ (s'.status = ch 'W' ∨ s'.status = ch 'X')) s

/-- What comes next is a body without end, an empty packet, or one that leaves the buffers. -/
def Strays (s : Server σ) : Prop :=
  Overruns s.link.input.characters ∨
    ∃ body rest, NextFrame s.link.input.characters body rest ∧
      (body = [] ∨ ¬ Contained (s.withText body))

theorem handleTerminatedInferior_exits (h : Serving rs s t) :
    Proc.Ends (handleTerminatedInferior k) (fun _ _ => True)
      (fun e s' => (∃ code, e = .exit code) ∧ (s'.status = ch 'W' ∨ s'.status = ch 'X')) s := by
  unfold handleTerminatedInferior
  rw [Proc.Ends.bind_iff, Proc.Ends.get_iff, h.plain]
  split
  · rename_i hstatus
    exact ⟨⟨0, rfl⟩, hstatus⟩
  · trivial

theorem afterHandler_exits (h : Serving rs s t) (frames : Frames s) (restarted : Bool) :
    Proc.Ends (do
        if restarted then
          let _ ← putpkt k host
        else
          let _ ← putpkt k host
          let _ ← handleTerminatedInferior k)
      (fun _ _ => True)
      (fun e s' => (∃ code, e = .exit code) ∧ (s'.status = ch 'W' ∨ s'.status = ch 'X')) s := by
  have hsent : Proc.Ends (putpkt k host) (fun _ s' => Serving (cstr s.ownBuf :: rs) s' t)
      (fun _ _ => False) s :=
    ((putpkt_serving h).and (putpkt_returns h.live frames)).imp (fun _ _ hboth => hboth.1)
      fun _ _ hboth => hboth.2
  cases restarted with
  | true =>
    simp only [if_true, Proc.Ends.bind_iff]
    exact hsent.imp (fun _ _ _ => trivial) fun _ _ hfalse => hfalse.elim
  | false =>
    simp only [Bool.false_eq_true, if_false, Proc.Ends.bind_iff]
    refine hsent.imp ?_ fun _ _ hfalse => hfalse.elim
    intro _ s₁ h₁
    exact (handleTerminatedInferior_exits h₁).imp (fun _ _ _ => trivial) fun _ _ hexit => hexit

theorem servePacket_exits_iff (h : Serving rs s t)
    (fits : (cstr (s.ownBuf.drop 1)).length ≤ pbufsiz) (notD : command s ≠ 'D')
    (notk : command s ≠ 'k') :
    Proc.Ends (servePacket k host) (fun _ _ => True)
      (fun e s' => (∃ message, e = .error message) ∨
        (∃ code, e = .exit code) ∧ (s'.status = ch 'W' ∨ s'.status = ch 'X')) s ↔
      Contained s := by
  have hverdict : Verdict rs (handlePacket k host) _ _ s :=
    handlePacket_verdict h (fun _ => fits) notD notk
  unfold servePacket
  rw [Proc.Ends.bind_iff]
  unfold Verdict at hverdict
  unfold Proc.Ends at hverdict ⊢
  cases hrun : (handlePacket k host).run s with
  | ok restarted s₁ =>
    rw [hrun] at hverdict
    obtain ⟨⟨t₁, h₁⟩, _, hframes⟩ := hverdict
    rw [← hframes]
    constructor
    · intro hends
      by_contra hlong
      have hfault : (putpkt k host).run s₁ =
          .error (.fault "buf2") (s₁.record (.putpkt (cstr s₁.ownBuf))) := by
        simp only [putpkt, EStateM.run_bind, EStateM.run_get, EStateM.run_modify]
        rw [if_neg (show ¬ (cstr s₁.ownBuf).length + 5 ≤ pbufsiz from hlong)]
        rfl
      cases restarted <;>
        simp [EStateM.run_bind, hfault] at hends
    · intro hfits
      exact (afterHandler_exits h₁ hfits restarted).imp (fun _ _ _ => trivial)
        fun _ _ hexit => Or.inr hexit
  | error e s₁ =>
    rw [hrun] at hverdict
    obtain ⟨_, _, hstop⟩ := hverdict
    cases e with
    | error message => exact iff_of_true (Or.inl ⟨message, rfl⟩) hstop
    | exit code => exact hstop.elim
    | fault access =>
      refine iff_of_false ?_ hstop.2
      rintro (⟨_, heq⟩ | ⟨⟨_, heq⟩, _⟩)
      · cases heq
      · cases heq

theorem onLink_getpkt_ends {Q : Int → Link → Prop} {E : Stop → Link → Prop}
    (h : Proc.Ends getpkt Q E s.link) :
    Proc.Ends (onLink getpkt) (fun len s' => Q len s'.link) (fun e s' => E e s'.link) s := by
  rw [onLink, Proc.Ends.zoom_iff]
  exact h

theorem acceptsLast_iff {len : Int} {s₁ : Server σ} (delivered : Delivered s len s₁) :
    AcceptsLast s ↔ command s₁ = 'D' ∨ command s₁ = 'k' := by
  constructor
  · rintro ⟨len', s₁', delivered', hc⟩
    cases delivered.symm.trans delivered'
    exact hc
  · exact fun hc => ⟨len, s₁, delivered, hc⟩

theorem contained_of_last (hc : command s = 'D' ∨ command s = 'k') : Contained s := by
  unfold Contained
  rcases hc with hc | hc <;> rw [hc] <;> trivial

theorem endsRightly_delivered_iff (h : Serving rs s t) {len : Int} {s₁ : Server σ}
    (delivered : Delivered s len s₁) (pos : 0 < len) :
    EndsRightly k host s ↔ Contained s₁ := by
  have h₁ := delivered.serving h
  unfold EndsRightly
  rw [turn_ends k host delivered pos, acceptsLast_iff delivered]
  by_cases hlast : command s₁ = 'D' ∨ command s₁ = 'k'
  · refine iff_of_true ?_ (contained_of_last hlast)
    rw [servePacket, Proc.Ends.bind_iff]
    exact (handlePacket_leaves h₁ hlast).imp (fun _ _ hfalse => hfalse.elim)
      fun _ _ _ => Or.inr (Or.inl hlast)
  · rw [← servePacket_exits_iff h₁ (delivered.fits pos) (not_or.mp hlast).1 (not_or.mp hlast).2]
    constructor
    · refine fun hends => hends.imp (fun _ _ _ => trivial) ?_
      rintro e s₂ (herror | hc | hexit)
      · exact Or.inl herror
      · exact absurd hc hlast
      · exact Or.inr hexit
    · refine fun hends => hends.imp (fun _ _ _ => by simp) ?_
      rintro e s₂ (herror | hexit)
      · exact Or.inl herror
      · exact Or.inr (Or.inr hexit)

theorem endsRightly_failed_iff (wf : s.link.input.WellFormed) {e : Stop} {s₁ : Server σ}
    (hrun : (onLink getpkt).run s = .error e s₁) : EndsRightly k host s ↔ ¬ Strays s := by
  have hknown := onLink_getpkt_ends (getpkt_known wf)
  rw [Proc.Ends.of_run_error hrun] at hknown
  have hnone : ¬ ∃ body rest, NextFrame s.link.input.characters body rest := by
    rintro ⟨body, rest, hnext⟩
    have hpacket := onLink_getpkt_ends (getpkt_nextFrame wf hnext)
    rwa [Proc.Ends.of_run_error hrun] at hpacket
  have hlast : ¬ AcceptsLast s := by
    rintro ⟨len, s₁', delivered, _⟩
    cases hrun.symm.trans delivered
  have hturn : EndsRightly k host s ↔ ∃ message, e = .error message := by
    unfold EndsRightly turn
    rw [Proc.Ends.bind_iff, Proc.Ends.of_run_error hrun]
    constructor
    · rintro (herror | hc | ⟨⟨code, rfl⟩, _⟩)
      · exact herror
      · exact absurd hc hlast
      · rcases hknown with heq | ⟨heq, _⟩
        · cases heq
        · cases heq
    · exact Or.inl
  rw [hturn]
  constructor
  · rintro ⟨message, rfl⟩ (hover | ⟨body, rest, hnext, _⟩)
    · have hpacket := onLink_getpkt_ends (getpkt_overruns wf hover)
      rw [Proc.Ends.of_run_error hrun] at hpacket
      cases hpacket
    · exact hnone ⟨body, rest, hnext⟩
  · intro hfree
    rcases hknown with rfl | ⟨_, hover⟩
    · exact ⟨_, rfl⟩
    · exact absurd (Or.inl hover) hfree

section Delivered

variable {len : Int} {s₁ : Server σ}

/-- Where `getpkt` returns, the stream can stray only by the packet that has come in. -/
theorem strays_delivered_iff (wf : s.link.input.WellFormed) (delivered : Delivered s len s₁) :
    Strays s ↔ ∃ body rest, NextFrame s.link.input.characters body rest ∧
      len = body.length ∧ (∃ stale, s₁.ownBuf = body ++ 0 :: stale) ∧
        (body = [] ∨ ¬ Contained (s.withText body)) := by
  constructor
  · rintro (hover | ⟨body, rest, hnext, hstrays⟩)
    · have hpacket := onLink_getpkt_ends (getpkt_overruns wf hover)
      rw [Proc.Ends.of_run delivered] at hpacket
      exact hpacket.elim
    · have hpacket := onLink_getpkt_ends (getpkt_nextFrame wf hnext)
      rw [Proc.Ends.of_run delivered] at hpacket
      exact ⟨body, rest, hnext, hpacket.1, hpacket.2, hstrays⟩
  · rintro ⟨body, rest, hnext, _, _, hstrays⟩
    exact Or.inr ⟨body, rest, hnext, hstrays⟩

theorem endsRightly_packet_iff (h : Serving rs s t) (wf : s.link.input.WellFormed)
    (delivered : Delivered s len s₁) (pos : 0 < len) : EndsRightly k host s ↔ ¬ Strays s := by
  have hknown := onLink_getpkt_ends (getpkt_known wf)
  rw [Proc.Ends.of_run delivered] at hknown
  obtain ⟨_, body, rest, stale, hframe, hlen, hbuf⟩ := hknown.2 (Int.le_of_lt pos)
  obtain ⟨c, body, rfl⟩ : ∃ c body', body = c :: body' := by
    cases body with
    | nil => exact absurd pos (by rw [hlen]; decide)
    | cons c body => exact ⟨c, body, rfl⟩
  have hcontained : Contained s₁ ↔ Contained (s.withText (c :: body)) := contained_congr hbuf rfl
  rw [endsRightly_delivered_iff h delivered pos, hcontained, strays_delivered_iff wf delivered]
  constructor
  · rintro hinside ⟨body', rest', _, hlen', ⟨stale', hbuf'⟩, hstrays⟩
    have hsame : body' = c :: body := by
      have hlength : body'.length = (c :: body).length := by omega
      exact (List.append_inj (hbuf'.symm.trans hbuf) hlength).1
    subst hsame
    rcases hstrays with hnil | houtside
    · cases hnil
    · exact houtside hinside
  · intro hfree
    by_contra houtside
    exact hfree ⟨_, rest, hframe, hlen, ⟨stale, hbuf⟩, Or.inr houtside⟩

theorem endsRightly_last_iff (wf : s.link.input.WellFormed) (delivered : Delivered s len s₁)
    (pos : ¬ 0 < len) : EndsRightly k host s ↔ ¬ Strays s := by
  have hknown := onLink_getpkt_ends (getpkt_known wf)
  rw [Proc.Ends.of_run delivered] at hknown
  have hturn : EndsRightly k host s ↔ HungUp s₁.link := by
    unfold EndsRightly turn
    rw [Proc.Ends.bind_iff, Proc.Ends.of_run delivered, if_neg pos]
    exact ⟨fun hup => hup rfl, fun hup _ => hup⟩
  rw [hturn, strays_delivered_iff wf delivered]
  constructor
  · rintro hup ⟨body, rest, _, hlen, _⟩
    exact (hknown.2 (by omega)).1 hup
  · intro hfree
    by_cases hneg : len < 0
    · exact hknown.1 hneg
    · obtain ⟨_, body, rest, stale, hframe, hlen, hbuf⟩ := hknown.2 (Int.not_lt.mp hneg)
      have hnil : body = [] := List.eq_nil_of_length_eq_zero (by omega)
      exact absurd ⟨body, rest, hframe, hlen, ⟨stale, hbuf⟩, Or.inl hnil⟩ hfree

end Delivered

/-- In every turn the session ends only when it should just if the stream does not stray. -/
theorem endsRightly_iff (h : Serving rs s t) (wf : s.link.input.WellFormed) :
    EndsRightly k host s ↔ ¬ Strays s := by
  cases hrun : (onLink getpkt).run s with
  | error e s₁ => exact endsRightly_failed_iff wf hrun
  | ok len s₁ =>
    by_cases pos : 0 < len
    · exact endsRightly_packet_iff h wf hrun pos
    · exact endsRightly_last_iff wf hrun pos

theorem prepared_wellFormed {s₀ : Server σ} (fresh : Fresh s₀)
    (nonempty : ∀ chunk ∈ s₀.link.input.chunks, chunk ≠ []) {ep pid : Int}
    (prepared : (prepareInferior k ep pid).run s₀ = .ok () s) : s.link.input.WellFormed := by
  have hkeeps : KeepsInput (prepareInferior k ep pid) :=
    .of_blind fun _ => prepareInferior_blind ep pid
  have wf : s₀.link.input.WellFormed := by
    refine ⟨fun hpos => ?_, nonempty⟩
    rw [fresh.bufcnt] at hpos
    exact absurd hpos (by decide)
  have hends := hkeeps s₀ wf
  rwa [Proc.Ends.of_run prepared] at hends

theorem Later.served (h : Serving rs s t) (wf : s.link.input.WellFormed) {s' : Server σ}
    (later : Later k host s s') : (∃ rs t, Serving rs s' t) ∧ s'.link.input.WellFormed := by
  induction later with
  | refl => exact ⟨⟨rs, t, h⟩, wf⟩
  | tail before next ih =>
    obtain ⟨⟨rs', t', h'⟩, wf'⟩ := ih
    exact ⟨next.serving h', next.wellFormed h' wf'⟩

/-- For every client, a session ends only when it should just if in no turn of it the stream
strays. -/
theorem session_ends_iff {s₀ : Server σ} (fresh : Fresh s₀)
    (nonempty : ∀ chunk ∈ s₀.link.input.chunks, chunk ≠ []) {ep pid : Int}
    (prepared : (prepareInferior k ep pid).run s₀ = .ok () s) :
    (∀ s', Later k host s s' → EndsRightly k host s') ↔
      ∀ s', Later k host s s' → ¬ Strays s' := by
  obtain ⟨rs, t, h⟩ := (Reachable.start ep pid fresh prepared : Reachable k host s).serving
  have wf := prepared_wellFormed fresh nonempty prepared
  refine forall_congr' fun s' => imp_congr_right fun later => ?_
  obtain ⟨⟨rs', t', h'⟩, wf'⟩ := later.served h wf
  exact endsRightly_iff h' wf'

/-- The client reads the registers and hangs up. -/
theorem session_ends_iff_g :
    (∀ s', Later singleThread Signals.darwin (launched [ascii "$g#67", ascii "+"]) s' →
        EndsRightly singleThread Signals.darwin s') ↔
      ∀ s', Later singleThread Signals.darwin (launched [ascii "$g#67", ascii "+"]) s' →
        ¬ Strays s' :=
  session_ends_iff (fresh_initial blankMachine [ascii "$g#67", ascii "+"]) (by decide)
    (prepared_launched [ascii "$g#67", ascii "+"])

/-- An empty packet ends the session; the packet behind it is not served. -/
theorem not_session_ends_empty :
    ¬ ∀ s', Later singleThread Signals.darwin (launched [ascii "$#00", ascii "$g#67"]) s' →
      EndsRightly singleThread Signals.darwin s' := by
  intro hall
  have hends := hall _ .refl
  have hvalue : Proc.value ((turn singleThread Signals.darwin).run
      (launched [ascii "$#00", ascii "$g#67"])) = some false := by decide +kernel
  have hbuf := (hends.of_value hvalue rfl).buf
  revert hbuf
  decide +kernel

/-- Whenever the packet loop calls `getpkt`, what is stored goes into `own_buf` just if the
stream has no body that is too long before its next good frame. -/
theorem session_storesInside_iff {s₀ : Server σ} (fresh : Fresh s₀)
    (nonempty : ∀ chunk ∈ s₀.link.input.chunks, chunk ≠ []) {ep pid : Int}
    (prepared : (prepareInferior k ep pid).run s₀ = .ok () s) :
    ∀ s', Later k host s s' → (StoresInside s'.link ↔ ¬ Overruns s'.link.input.characters) := by
  obtain ⟨rs, t, h⟩ := (Reachable.start ep pid fresh prepared : Reachable k host s).serving
  have wf := prepared_wellFormed fresh nonempty prepared
  exact fun s' later => storesInside_iff (later.served h wf).2

theorem session_storesInside_iff_g :
    StoresInside (launched [ascii "$g#67", ascii "+"]).link ↔
      ¬ Overruns (launched [ascii "$g#67", ascii "+"]).link.input.characters := by
  have later : Later singleThread Signals.darwin (launched [ascii "$g#67", ascii "+"])
      (launched [ascii "$g#67", ascii "+"]) := .refl
  exact session_storesInside_iff (fresh_initial blankMachine [ascii "$g#67", ascii "+"])
    (by decide) (prepared_launched [ascii "$g#67", ascii "+"]) _ later

theorem not_storesInside_launched {chunk : List Byte}
    (overruns : Overruns (chunk.map (· &&& 0x7f))) :
    ¬ ∀ s', Later singleThread Signals.darwin (launched [chunk]) s' → StoresInside s'.link := by
  intro hall
  have hne : chunk ≠ [] := by
    rintro rfl
    obtain ⟨noise, body, c, rest, -, -, -, hbytes⟩ := overruns
    have hlen := congrArg List.length hbytes
    simp only [List.map_nil, List.length_nil, List.length_append, List.length_cons] at hlen
    omega
  have hchunk : ∀ c ∈ [chunk], c ≠ [] := by
    intro c hc
    rw [List.mem_singleton.mp hc]
    exact hne
  have wf : (launched [chunk]).link.input.WellFormed :=
    prepared_wellFormed (fresh_initial blankMachine [chunk]) hchunk (prepared_launched [chunk])
  have hcharacters : (launched [chunk]).link.input.characters = chunk.map (· &&& 0x7f) := by
    change ([chunk].flatten).map (· &&& 0x7f) = _
    rw [List.flatten_singleton]
  refine (storesInside_iff wf).mp (hall _ .refl) ?_
  rw [hcharacters]
  exact overruns

/-- `$` and 2001 times `a`. -/
def overlong : List Byte := ch '$' :: List.replicate (pbufsiz + 1) (ch 'a')

/-- The client sends this and no `#`. -/
theorem not_session_storesInside_overlong :
    ¬ ∀ s', Later singleThread Signals.darwin (launched [overlong]) s' →
      StoresInside s'.link := by
  have hstart : ch '$' &&& 0x7f = 0x24 := by decide
  have hletter : ch 'a' &&& 0x7f = ch 'a' := by decide
  have noEnd : 0x23 ∉ List.replicate pbufsiz (ch 'a') := by
    intro hmem
    exact absurd (List.eq_of_mem_replicate hmem) (by decide)
  have hcharacters : overlong.map (· &&& 0x7f) =
      ([] : List Noise).flatMap Noise.wire ++ 0x24 :: List.replicate pbufsiz (ch 'a') ++
        ch 'a' :: [] := by
    rw [overlong, List.map_cons, List.map_replicate, hstart, hletter, List.replicate_succ',
      List.flatMap_nil, List.nil_append, List.cons_append]
  have overruns : Overruns (overlong.map (· &&& 0x7f)) :=
    ⟨[], List.replicate pbufsiz (ch 'a'), ch 'a', [], by simp, noEnd, List.length_replicate,
      hcharacters⟩
  exact not_storesInside_launched overruns

end Gdbserver
