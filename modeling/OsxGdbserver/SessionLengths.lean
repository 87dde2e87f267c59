import OsxGdbserver.Lib.Simulation
import OsxGdbserver.Handshakes

/-!
# How long a session lasts

A `-` is written for a frame that has been read, and every copy of a reply but the first for a
byte that has been read. So bytes are used up faster than buffers are written, and the packet
loop comes to its end.
-/

namespace Remote

open Simulation

/-- The bytes still to come, and the buffers written so far. -/
def Link.balance (l : Link) : Nat := l.input.pending.length + l.session.writes.length

/-- From `l` to `l'`, `n` more bytes at least have been read than buffers written. -/
structure Spends (n : Int) (l l' : Link) : Prop where
  wellFormed : l'.input.WellFormed
  balance : l'.balance + n ≤ l.balance

variable {α : Type} {l l' l'' : Link} {m n : Int}

theorem Spends.refl (wf : l.input.WellFormed) : Spends 0 l l := ⟨wf, by omega⟩

theorem Spends.mono (h : Spends n l l') (le : m ≤ n) : Spends m l l' :=
  ⟨h.wellFormed, by have := h.balance; omega⟩

theorem Spends.trans (h : Spends m l l') (h' : Spends n l' l'') : Spends (m + n) l l'' :=
  ⟨h'.wellFormed, by have := h.balance; have := h'.balance; omega⟩

theorem Spends.wrote (h : Spends n l l') (bytes : List Byte) :
    Spends (n - 1) l { l' with session := l'.session.wrote bytes } := by
  have hbalance := h.balance
  refine ⟨h.wellFormed, ?_⟩
  simp only [Link.balance, Session.wrote, List.length_append, List.length_singleton]
    at hbalance ⊢
  omega

theorem Spends.stored (h : Spends n l l') (i : Nat) (b : Byte) :
    Spends n l { l' with session := l'.session.poke i b } := ⟨h.wellFormed, h.balance⟩

/-- One character, and what follows it. -/
theorem readchar_bind_spends (wf : l.input.WellFormed) {q : Option Byte → Proc Link α}
    {Q : α → Link → Prop} {E : Stop → Link → Prop}
    (hend : ∀ l', Spends 0 l l' → Proc.Ends (q none) Q E l')
    (hnext : ∀ c l', Spends 1 l l' → Proc.Ends (q (some c)) Q E l') :
    Proc.Ends (readchar >>= q) Q E l := by
  obtain ⟨i, s⟩ := l
  rw [Proc.Ends.bind_iff]
  cases hp : i.pending with
  | nil =>
    obtain ⟨i', hrun, wf', hp'⟩ := readchar_eof s wf hp
    rw [Proc.Ends.of_run hrun]
    exact hend _ ⟨wf', by simp [Link.balance, hp, hp']⟩
  | cons b rest =>
    obtain ⟨i', wf', hp', hrun⟩ := readchar_consumes b i s rest wf hp
    rw [Proc.Ends.of_run hrun]
    refine hnext _ _ ⟨wf', ?_⟩
    simp only [Link.balance, hp, hp', List.length_cons, id_eq]
    omega

theorem scanStart_spends (fuel : Nat) (wf : l.input.WellFormed) :
    Proc.Ends (scanStart fuel)
      (fun found l' => Spends 0 l l' ∧ (found = true → Spends 1 l l'))
      (fun e l' => Spends 0 l l' ∧ e = .fault "fuel") l := by
  induction fuel generalizing l with
  | zero => exact ⟨.refl wf, rfl⟩
  | succ fuel ih =>
    unfold scanStart
    refine readchar_bind_spends wf (fun l' h => ⟨h, by simp⟩) fun c l' h => ?_
    dsimp only
    split
    · exact ⟨h.mono (by omega), fun _ => h⟩
    · refine (ih h.wellFormed).imp ?_ ?_
      · rintro found l'' ⟨hrest, hfound⟩
        exact ⟨(h.trans hrest).mono (by omega),
          fun found => (h.trans (hfound found)).mono (by omega)⟩
      · rintro e l'' ⟨hrest, rfl⟩
        exact ⟨(h.trans hrest).mono (by omega), rfl⟩

theorem readBody_spends (fuel i : Nat) (csum : Byte) (wf : l.input.WellFormed) :
    Proc.Ends (readBody fuel i csum)
      (fun r l' => Spends 0 l l' ∧ (r ≠ none → Spends 1 l l'))
      (fun e l' => Spends 0 l l' ∧ ∃ access, e = .fault access) l := by
  induction fuel generalizing l i csum with
  | zero => exact ⟨.refl wf, _, rfl⟩
  | succ fuel ih =>
    unfold readBody
    refine readchar_bind_spends wf (fun l' h => ⟨h, by simp⟩) fun c l' h => ?_
    have h₀ : Spends 0 l l' := h.mono (by omega)
    dsimp only
    split
    · exact poke_bind_ends (fun _ => ⟨h₀.stored i 0, fun _ => h.stored i 0⟩)
        fun _ => ⟨h₀, _, rfl⟩
    · refine poke_bind_ends (fun _ => ?_) fun _ => ⟨h₀, _, rfl⟩
      refine (ih _ _ (h.stored i c).wellFormed).imp ?_ ?_
      · rintro r l'' ⟨hrest, hsome⟩
        exact ⟨((h₀.stored i c).trans hrest).mono (by omega),
          fun some => ((h₀.stored i c).trans (hsome some)).mono (by omega)⟩
      · rintro e l'' ⟨hrest, haccess⟩
        exact ⟨((h₀.stored i c).trans hrest).mono (by omega), haccess⟩

/-- One digit of the checksum. -/
theorem digit_bind_spends (wf : l.input.WellFormed) {q : Nat → Proc Link α}
    {Q : α → Link → Prop} {E : Stop → Link → Prop}
    (hbad : ∀ l', Spends 0 l l' → E invalidDigit l')
    (hnext : ∀ v l', Spends 1 l l' → Proc.Ends (q v) Q E l') :
    Proc.Ends (do q (← fromhex (← readchar))) Q E l := by
  refine readchar_bind_spends wf (fun l' h => hbad l' h) fun c l' h => ?_
  rw [Proc.Ends.bind_iff, fromhex]
  cases (some c).bind hexDigit with
  | none => exact hbad l' (h.mono (by omega))
  | some v => exact hnext v l' h

/-- A frame has four bytes besides its body, and the `-` for a damaged one is one write. -/
theorem receive_spends (fuel : Nat) (wf : l.input.WellFormed) :
    Proc.Ends (receive fuel)
      (fun len l' => Spends 0 l l' ∧ (0 ≤ len → Spends 4 l l'))
      (fun e l' => Spends 0 l l' ∧ ((∃ message, e = .error message) → Spends 2 l l')) l := by
  induction fuel generalizing l with
  | zero => exact ⟨.refl wf, by simp⟩
  | succ fuel ih =>
    unfold receive
    rw [Proc.Ends.bind_iff]
    refine (scanStart_spends _ wf).imp ?_ ?_
    · rintro found l₁ ⟨h₁, hfound⟩
      split
      · rename_i found
        have h₁ := hfound found
        rw [Proc.Ends.bind_iff]
        refine (readBody_spends _ _ _ h₁.wellFormed).imp ?_ ?_
        · rintro (_ | ⟨len, csum⟩) l₂ ⟨hbody, hsome⟩
          · exact ⟨(h₁.trans hbody).mono (by omega), by simp⟩
          · have h₂ : Spends 2 l l₂ := (h₁.trans (hsome (by simp))).mono (by omega)
            have hbad : ∀ l', Spends 0 l₂ l' →
                Spends 0 l l' ∧ ((∃ message, invalidDigit = .error message) → Spends 2 l l') :=
              fun l' h => ⟨(h₂.trans h).mono (by omega), fun _ => (h₂.trans h).mono (by omega)⟩
            refine digit_bind_spends h₂.wellFormed hbad fun c1 l₃ h₃ => ?_
            refine digit_bind_spends h₃.wellFormed
              (fun l' h => hbad l' ((h₃.trans h).mono (by omega))) fun c2 l₄ h₄ => ?_
            have h₄ : Spends 4 l l₄ := (h₂.trans (h₃.trans h₄)).mono (by omega)
            split
            · exact ⟨h₄.mono (by omega), fun _ => h₄⟩
            · have hnack := h₄.wrote [0x2d]
              refine (ih hnack.wellFormed).imp ?_ ?_
              · rintro len l' ⟨hrest, hlen⟩
                exact ⟨(hnack.trans hrest).mono (by omega),
                  fun pos => (hnack.trans (hlen pos)).mono (by omega)⟩
              · rintro e l' ⟨hrest, he⟩
                exact ⟨(hnack.trans hrest).mono (by omega),
                  fun error => (hnack.trans (he error)).mono (by omega)⟩
        · rintro e l₂ ⟨hbody, access, rfl⟩
          exact ⟨(h₁.trans hbody).mono (by omega), by simp⟩
      · exact ⟨h₁, by simp⟩
    · rintro e l₁ ⟨h₁, rfl⟩
      exact ⟨h₁, by simp⟩

theorem getpkt_spends (wf : l.input.WellFormed) :
    Proc.Ends getpkt
      (fun len l' => Spends 0 l l' ∧ (0 ≤ len → Spends 3 l l'))
      (fun e l' => Spends 0 l l' ∧ ((∃ message, e = .error message) → Spends 2 l l')) l := by
  rw [getpkt_ends_iff]
  refine (receive_spends _ wf).imp ?_ fun _ _ h => h
  rintro len l' ⟨h, hlen⟩
  split
  · rename_i hack
    have hacked := (hlen hack.1).wrote [0x2b]
    exact ⟨hacked.mono (by omega), fun _ => hacked⟩
  · exact ⟨h, fun pos => (hlen pos).mono (by omega)⟩

end Remote

namespace Gdbserver

open Remote CString Ppc Simulation

variable {σ α β : Type} {k : Kernel σ} {host : Signals.Host} {s : Server σ} {t : ThreadInfo}
  {rs : List (List Byte)}

/-- However it ends, `p` writes at most `n` buffers more than it reads bytes. -/
def Costs (n : Nat) (p : Proc (Server σ) α) : Prop :=
  ∀ s, s.link.input.WellFormed → Proc.Ends p (fun _ s' => Spends (-n) s.link s'.link)
    (fun _ s' => Spends (-n) s.link s'.link) s

namespace Costs

variable {m n : Nat}

theorem bind {p : Proc (Server σ) β} {q : β → Proc (Server σ) α} (hp : Costs m p)
    (hq : ∀ b, Costs n (q b)) : Costs (m + n) (p >>= q) := by
  intro s wf
  rw [Proc.Ends.bind_iff]
  refine (hp s wf).imp ?_ fun _ _ h => h.mono (by omega)
  intro b s₁ h₁
  refine (hq b s₁ h₁.wellFormed).imp ?_ ?_
  · exact fun _ _ h₂ => (h₁.trans h₂).mono (by omega)
  · exact fun _ _ h₂ => (h₁.trans h₂).mono (by omega)

theorem ite {c : Prop} [Decidable c] {p q : Proc (Server σ) α} (hp : Costs n p)
    (hq : Costs n q) : Costs n (if c then p else q) := by
  split
  · exact hp
  · exact hq

/-- The bytes still to come, and the writes so far. -/
def setBytes (bytes : Input × List (List Byte)) (l : Link) : Link :=
  { input := bytes.1, session := { l.session with writes := bytes.2 } }

theorem besideBuffer_setBytes (bytes : Input × List (List Byte)) :
    BesideBuffer (setBytes bytes) := ⟨fun _ => rfl, fun _ _ => rfl⟩

/-- What does not use the connection costs nothing. -/
theorem of_blind {p : Proc (Server σ) α} (h : ∀ bytes, Blind (setBytes bytes) p) : Costs 0 p := by
  have hkeeps : Proc.Keeps (fun s : Server σ => (s.link.input, s.link.session.writes)) p :=
    Proc.Commutes.keeps (fun bytes => Server.updateLink (setBytes bytes)) h (fun _ => rfl)
      fun _ _ => rfl
  have hspends : ∀ s s' : Server σ, s.link.input.WellFormed →
      (s'.link.input, s'.link.session.writes) = (s.link.input, s.link.session.writes) →
        Spends (-(0 : Nat)) s.link s'.link := by
    intro s s' wf same
    obtain ⟨hinput, hwrites⟩ := Prod.mk.inj same
    refine ⟨by rwa [hinput], ?_⟩
    rw [Link.balance, hinput, hwrites]
    simp [Link.balance]
  intro s wf
  exact (hkeeps.ends s).imp (fun _ s' same => hspends s s' wf same)
    fun _ s' same => hspends s s' wf same

end Costs

theorem balance_withChunks (s : Server σ) (chunks : List (List Byte)) :
    (s.withChunks chunks).link.balance + s.link.input.chunks.flatten.length =
      s.link.balance + chunks.flatten.length := by
  simp only [Server.withChunks, Server.updateLink, Link.balance, Input.pending, List.length_append]
  omega

theorem balance_wrote (s : Server σ) (bytes : List Byte) :
    (s.wrote bytes).link.balance = s.link.balance + 1 := by
  simp only [Server.wrote, Server.updateLink, Link.balance, Session.wrote, List.length_append,
    List.length_singleton]
  omega

/-- Every copy of the frame but the first is paid for with the byte that asked for it. -/
theorem sendFrame_balance (bytes : List Byte) (fuel : Nat) (s : Server σ) :
    Proc.Ends (sendFrame k host bytes fuel)
      (fun _ s' => s'.link.balance ≤ s.link.balance + 1)
      (fun _ s' => s'.link.balance ≤ s.link.balance + 1) s := by
  induction fuel generalizing s with
  | zero => exact Nat.le_succ _
  | succ fuel ih =>
    have hwrote := balance_wrote s bytes
    have hread : ∀ c left rest, s.link.input.chunks = (c :: left) :: rest →
        ((s.wrote bytes).withChunks (if left = [] then rest else left :: rest)).link.balance =
          s.link.balance := by
      intro c left rest hchunks
      have hbalance := balance_withChunks (s.wrote bytes) (if left = [] then rest else left :: rest)
      have hflat : (s.wrote bytes).link.input.chunks.flatten.length =
          (if left = [] then rest else left :: rest).flatten.length + 1 := by
        rw [show (s.wrote bytes).link.input.chunks = _ from hchunks, flatten_left, List.length_cons]
      omega
    refine sendFrame_round bytes (fun _ => hwrote.le) (fun _ => hwrote.le) ?_ ?_ ?_
    · intro _ chunks hflat
      have hbalance := balance_withChunks (s.wrote bytes) chunks
      have hsame : (s.wrote bytes).link.input.chunks.flatten.length = chunks.flatten.length :=
        congrArg List.length hflat.symm
      omega
    · intro left rest hchunks
      have hbalance := hread _ left rest hchunks
      omega
    · intro c left rest hchunks _ _
      have hbalance := hread c left rest hchunks
      split
      · rw [Proc.Ends.bind_iff]
        refine ((darwinSendSignal_link host.sigint).ends _).imp ?_ ?_
        · intro _ s₂ hlink
          refine (ih s₂).imp ?_ ?_
          · intro _ s₃ hrest
            rw [hlink] at hrest
            omega
          · intro _ s₃ hrest
            rw [hlink] at hrest
            omega
        · intro _ s₂ hlink
          rw [hlink]
          omega
      · refine (ih _).imp ?_ ?_
        · intro _ s₃ hrest
          omega
        · intro _ s₃ hrest
          omega

theorem putpkt_costs : Costs 1 (putpkt k host) := by
  intro s wf
  have hbalance : Proc.Ends (putpkt k host)
      (fun _ s' => s'.link.balance ≤ s.link.balance + 1)
      (fun _ s' => s'.link.balance ≤ s.link.balance + 1) s := by
    unfold putpkt
    simp only [Proc.Ends.bind_iff, Proc.Ends.get_iff, Proc.Ends.modify_iff]
    split
    · exact sendFrame_balance _ _ (s.record (.putpkt (cstr s.ownBuf)))
    · exact Nat.le_succ _
  refine (hbalance.and (putpkt_keepsInput s wf)).imp ?_ ?_
  · rintro _ s' ⟨hle, wf'⟩
    exact ⟨wf', by omega⟩
  · rintro _ s' ⟨hle, wf'⟩
    exact ⟨wf', by omega⟩

theorem handleTerminatedInferior_costs : Costs 0 (handleTerminatedInferior k) :=
  .of_blind fun bytes => handleTerminatedInferior_blind (Costs.besideBuffer_setBytes bytes)

/-- `D` sends its reply itself. -/
theorem handleDDetach_costs : Costs 1 (handleDDetach k host) := by
  have hclose : Costs 0 (do
      remoteClose
      let s ← get
      if !s.attached then
        modify fun s => s.record (.reap s.signalPid)
        callKernel fun os => ((), k.reap s.signalPid os)
      throw (.exit 0) : Proc (Server σ) Unit) := by
    refine .of_blind fun _ => .bind (.modify fun _ => rfl) fun _ =>
      .get_bind (fun _ => rfl) fun s => .ite ?_ (.throw _)
    exact .bind (.modify fun _ => rfl) fun _ => .bind (callKernel_blind _) fun _ => .throw _
  have hdetach : Costs 0 (darwinDetach k) := .of_blind fun _ => darwinDetach_blind
  have hok : Costs 0 (writeOk : Proc (Server σ) Unit) :=
    .of_blind fun bytes => reply_blind (Costs.besideBuffer_setBytes bytes) _
  exact .bind hdetach fun _ => .bind hok fun _ => .bind putpkt_costs fun _ => hclose

theorem dispatch_costs (k : Kernel σ) (host : Signals.Host) {c : Char} (notD : c ≠ 'D') :
    Costs 0 (dispatch k host c) :=
  .of_blind fun bytes => dispatch_blind (Costs.besideBuffer_setBytes bytes) notD fun _ =>
    handleSet_blind (Costs.besideBuffer_setBytes bytes) fun _ => rfl

/-- What a turn uses up: a byte of the client at least, twice, if the loop goes on. -/
def Used (s s' : Server σ) (on : Prop) : Prop :=
  Spends 0 s.link s'.link ∧ (on → Spends 2 s.link s'.link)

theorem Used.of_spends {s s' : Server σ} (h : Spends 2 s.link s'.link) (on : Prop) :
    Used s s' on := ⟨h.mono (by omega), fun _ => h⟩

/-- The packet has been read, and the reply is written. -/
theorem servePacket_used (k : Kernel σ) (host : Signals.Host) (h : Serving rs s t) {s₀ : Server σ}
    (paid : Spends 3 s₀.link s.link) :
    Proc.Ends (servePacket k host) (fun _ s' => Used s₀ s' True)
      (fun e s' => Used s₀ s' (∃ message, e = .error message)) s := by
  unfold servePacket
  rw [Proc.Ends.bind_iff]
  by_cases hD : command s = 'D'
  · have hcosts : Costs 1 (dispatch k host 'D') :=
      .bind (n := 0) handleDDetach_costs fun _ _ wf => .refl wf
    have hends := hcosts s paid.wellFormed
    rw [← hD] at hends
    unfold Proc.Ends at hends
    rw [← handlePacket_run] at hends
    refine (Proc.Ends.and hends (handlePacket_leaves h (.inl hD))).imp ?_ ?_
    · exact fun _ _ hboth => hboth.2.elim
    · rintro e s₁ ⟨h₁, -⟩
      exact .of_spends ((paid.trans h₁).mono (by omega)) _
  · have hends := dispatch_costs k host hD s paid.wellFormed
    unfold Proc.Ends at hends
    rw [← handlePacket_run] at hends
    refine Proc.Ends.imp hends ?_ ?_
    · intro restarted s₁ h₁
      have h₁ : Spends 3 s₀.link s₁.link := (paid.trans h₁).mono (by omega)
      have hafter : Costs 1 (do
          if restarted then
            let _ ← putpkt k host
          else
            let _ ← putpkt k host
            let _ ← handleTerminatedInferior k : Proc (Server σ) Unit) := by
        have hpure : Costs 0 (pure () : Proc (Server σ) Unit) := fun _ wf => .refl wf
        have hputpkt : Costs 1 (putpkt k host) := putpkt_costs
        exact .ite (.bind (n := 0) hputpkt fun _ => hpure) (.bind (n := 0) hputpkt fun _ =>
          .bind handleTerminatedInferior_costs fun _ => hpure)
      refine (hafter s₁ h₁.wellFormed).imp ?_ ?_
      · exact fun _ s₂ h₂ => .of_spends ((h₁.trans h₂).mono (by omega)) _
      · exact fun _ s₂ h₂ => .of_spends ((h₁.trans h₂).mono (by omega)) _
    · exact fun e s₁ h₁ => .of_spends ((paid.trans h₁).mono (by omega)) _

theorem turn_used (k : Kernel σ) (host : Signals.Host) (h : Serving rs s t)
    (wf : s.link.input.WellFormed) :
    Proc.Ends (turn k host) (fun again s' => Used s s' (again = true))
      (fun e s' => Used s s' (∃ message, e = .error message)) s := by
  have hpacket := onLink_getpkt_ends (s := s) (getpkt_spends wf)
  cases hrun : (onLink getpkt).run s with
  | error e s₁ =>
    rw [Proc.Ends.of_run_error hrun] at hpacket
    unfold turn
    rw [Proc.Ends.bind_iff, Proc.Ends.of_run_error hrun]
    exact hpacket
  | ok len s₁ =>
    rw [Proc.Ends.of_run hrun] at hpacket
    have delivered : Delivered s len s₁ := hrun
    by_cases pos : 0 < len
    · rw [turn_ends k host delivered pos]
      have hserved := servePacket_used k host (delivered.serving h)
        (hpacket.2 (by omega))
      exact hserved.imp (fun _ _ hused => ⟨hused.1, fun _ => hused.2 trivial⟩) fun _ _ h => h
    · unfold turn
      rw [Proc.Ends.bind_iff, Proc.Ends.of_run delivered, if_neg pos]
      exact ⟨hpacket.1, by simp⟩

/-- What every turn starts from. -/
def Served (s : Server σ) : Prop := (∃ rs t, Serving rs s t) ∧ s.link.input.WellFormed

theorem Next.used (h : Served s) {s' : Server σ} (next : Next k host s s') :
    Served s' ∧ s'.link.balance + 2 ≤ s.link.balance := by
  obtain ⟨⟨rs, t, h⟩, wf⟩ := h
  have hused : Used s s' True := by
    have hturn := turn_used k host h wf
    cases next with
    | served again =>
      rw [Proc.Ends.of_run again] at hturn
      exact ⟨hturn.1, fun _ => hturn.2 rfl⟩
    | failed jumped =>
      rw [Proc.Ends.of_run_error jumped] at hturn
      exact ⟨hturn.1, fun _ => hturn.2 ⟨_, rfl⟩⟩
  have hbalance := (hused.2 trivial).balance
  exact ⟨⟨next.serving h, next.wellFormed h wf⟩, by omega⟩

/-- Start-up leaves the connection alone. -/
theorem prepareInferior_keepsLink (ep pid : Int) :
    Proc.Keeps (Server.link : Server σ → Remote.Link) (prepareInferior k ep pid) :=
  Proc.Commutes.keeps (fun l => Server.updateLink fun _ => l)
    (fun _ => prepareInferior_blind ep pid) (fun _ => rfl) fun _ _ => rfl

theorem prepared_balance {s₀ : Server σ} (fresh : Fresh s₀) {ep pid : Int}
    (prepared : (prepareInferior k ep pid).run s₀ = .ok () s) :
    s.link.balance = s₀.link.input.chunks.flatten.length + s₀.link.session.writes.length := by
  have hlink := prepareInferior_keepsLink (k := k) ep pid s₀
  rw [prepared, Proc.final_ok] at hlink
  simp [hlink, Link.balance, Input.pending, fresh.bufcnt]

/-- In a session, whatever the client sends, the server writes no more buffers than bytes come
in, even if two bytes are put aside for each turn. So there is a last turn: unless the stream
strays in it, the client has hung up, has sent `D` or `k`, or the inferior is gone. -/
theorem session_bounded {s₀ : Server σ} (fresh : Fresh s₀)
    (nonempty : ∀ chunk ∈ s₀.link.input.chunks, chunk ≠ []) {ep pid : Int}
    (prepared : (prepareInferior k ep pid).run s₀ = .ok () s) :
    (∀ n r, Steps (Next k host) n s r →
      2 * n + (Proc.final ((turn k host).run r)).link.session.writes.length ≤
        s₀.link.input.chunks.flatten.length + s₀.link.session.writes.length) ∧
    ∃ n r, Steps (Next k host) n s r ∧ (∀ r', ¬ Next k host r r') ∧
      (Strays r ∨ AcceptsLast r ∨
        let r' := Proc.final ((turn k host).run r)
        HungUp r'.link ∨ r'.status = ch 'W' ∨ r'.status = ch 'X') := by
  have hserved : Served s :=
    ⟨(Reachable.start ep pid fresh prepared : Reachable k host s).serving,
      prepared_wellFormed fresh nonempty prepared⟩
  have hdrops : ∀ r r' : Server σ, Served r → Next k host r r' →
      Served r' ∧ r'.link.balance + 2 ≤ r.link.balance := fun _ _ h next => next.used h
  constructor
  · intro n r steps
    obtain ⟨⟨⟨rs, t, h⟩, wf⟩, hsteps⟩ := steps.measure_le hdrops hserved
    have hused := Proc.Ends.imp (turn_used k host h wf)
      (fun _ _ hused => hused.1.balance) fun _ _ hused => hused.1.balance
    have hturn := Proc.Ends.final_iff.mp hused
    rw [prepared_balance fresh prepared] at hsteps
    unfold Link.balance at hturn hsteps
    omega
  · obtain ⟨n, r, steps, hlast⟩ := Steps.exists_last (by omega) hdrops hserved
    obtain ⟨⟨⟨rs, t, h⟩, wf⟩, -⟩ := steps.measure_le hdrops hserved
    refine ⟨n, r, steps, hlast, ?_⟩
    by_cases strays : Strays r
    · exact Or.inl strays
    · have hends : EndsRightly k host r := (endsRightly_iff h wf).mpr strays
      refine Or.inr ?_
      unfold EndsRightly at hends
      cases hrun : (turn k host).run r with
      | ok again r' =>
        rw [Proc.Ends.of_run hrun] at hends
        cases again with
        | true => exact absurd (.served hrun) (hlast r')
        | false => exact Or.inr (Or.inl (hends rfl))
      | error e r' =>
        rw [Proc.Ends.of_run_error hrun] at hends
        rcases hends with ⟨message, rfl⟩ | haccepts | ⟨-, hstatus⟩
        · exact absurd (.failed hrun) (hlast r')
        · exact Or.inl haccepts
        · exact Or.inr (Or.inr hstatus)

/-- The client sends a damaged packet and a good one, and hangs up. -/
theorem session_bounded_g :
    let chunks := [ascii "$g#00", ascii "$g#67", ascii "-+"]
    let s₀ := initial blankMachine chunks
    let s := launched chunks
    (∀ n r, Steps (Next singleThread Signals.darwin) n s r →
      2 * n +
          (Proc.final ((turn singleThread Signals.darwin).run r)).link.session.writes.length ≤
        s₀.link.input.chunks.flatten.length + s₀.link.session.writes.length) ∧
    ∃ n r, Steps (Next singleThread Signals.darwin) n s r ∧
      (∀ r', ¬ Next singleThread Signals.darwin r r') ∧
      (Strays r ∨ AcceptsLast r ∨
        let r' := Proc.final ((turn singleThread Signals.darwin).run r)
        HungUp r'.link ∨ r'.status = ch 'W' ∨ r'.status = ch 'X') :=
  session_bounded (fresh_initial blankMachine [ascii "$g#00", ascii "$g#67", ascii "-+"])
    (by decide) (prepared_launched [ascii "$g#00", ascii "$g#67", ascii "-+"])

end Gdbserver
