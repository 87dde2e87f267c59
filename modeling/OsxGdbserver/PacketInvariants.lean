import OsxGdbserver.HandlerFrames
import OsxGdbserver.Sessions

/-!
# What every packet keeps

A packet does one of a few things to the registers: it fills the cache of the thread, puts
bytes of the client into it, or lets the inferior run until it stops. What each of these
keeps is kept by every packet, and so in every session.
-/

namespace Gdbserver

open Remote CString Ppc

variable {σ α β : Type} {k : Kernel σ} {host : Signals.Host} {s : Server σ} {t : ThreadInfo}
  {rs : List (List Byte)} {v : Server σ → β} {P : Server σ → Prop}

/-- The thread with bytes of the client at `offset` of its cache. -/
def supplied (offset : Nat) (bytes : List Byte) (t : ThreadInfo) : ThreadInfo :=
  { t with
    regcache :=
      { t.regcache with
        registers := Overlay.memcpy t.regcache.registers offset bytes
        registers_length := by
          rw [Overlay.memcpy_length]
          exact t.regcache.registers_length } }

/-- The state with that, recorded. -/
def Server.supplied (s : Server σ) (t : ThreadInfo) (complete : Bool) (offset : Nat)
    (bytes : List Byte) : Server σ :=
  (s.record (.supply t.node t.regcache.valid complete offset bytes)).assignThread t.node
    (Gdbserver.supplied offset bytes)

theorem Serving.supplied (h : Serving rs s t) (complete : Bool) (offset : Nat)
    (bytes : List Byte) :
    Serving rs (s.supplied t complete offset bytes) (Gdbserver.supplied offset bytes t) := by
  have hrecorded : Serving rs
      (s.record (.supply t.node t.regcache.valid complete offset bytes)) t := h
  exact hrecorded.assign (f := Gdbserver.supplied offset bytes) rfl rfl rfl

/-- `P` is kept by what packets do to the registers and by the runs of the inferior. What
else they do, `v` does not show, and `P` is about what it shows. -/
structure Kept (k : Kernel σ) (v : Server σ → β) (P : Server σ → Prop) : Prop where
  beside : Beside k v
  reported : ∀ s id,
    v { s with threadFromWait := id, generalThread := id, oldThreadFromWait := id } = v s
  same : ∀ {s s' : Server σ}, v s' = v s → P s → P s'
  fill : ∀ {rs : List (List Byte)} {s : Server σ} {t : ThreadInfo}, Serving rs s t → P s →
    P (s.fill k t)
  supply : ∀ {rs : List (List Byte)} {s : Server σ} {t : ThreadInfo}, Serving rs s t → P s →
    ∀ complete offset bytes, P (s.supplied t complete offset bytes)
  resume : ∀ {rs : List (List Byte)} {s s' : Server σ} {t : ThreadInfo}, Serving rs s t →
    P s → ∀ step sig,
      Waited ((s.resumed k (resumeRequest step) t.pid sig).waiting true) (setValid false t) s' →
        Informed s s' → P s'

/-- `P` holds however `p` ends. -/
def Stays (P : Server σ → Prop) (p : Proc (Server σ) α) (s : Server σ) : Prop :=
  P (Proc.final (p.run s))

namespace Stays

variable {γ : Type} {p : Proc (Server σ) α} {q : α → Proc (Server σ) γ}

theorem bind_run {a : α} {s' : Server σ} (run : p.run s = .ok a s') (h : Stays P (q a) s') :
    Stays P (p >>= q) s := by
  unfold Stays
  rwa [EStateM.run_bind, run]

theorem bind_error {e : Stop} {s' : Server σ} (run : p.run s = .error e s') (h : P s') :
    Stays P (p >>= q) s := by
  unfold Stays
  rwa [EStateM.run_bind, run]

theorem bind (hp : Stays P p s) (hq : ∀ a s', P s' → Stays P (q a) s') :
    Stays P (p >>= q) s := by
  unfold Stays at hp ⊢
  rw [EStateM.run_bind]
  cases hrun : p.run s with
  | ok a s' =>
    rw [hrun] at hp
    exact hq a s' hp
  | error e s' =>
    rw [hrun] at hp
    exact hp

theorem ite {c : Prop} [Decidable c] {p q : Proc (Server σ) α} (hp : c → Stays P p s)
    (hq : ¬ c → Stays P q s) : Stays P (if c then p else q) s := by
  split
  · exact hp ‹_›
  · exact hq ‹_›

theorem thenReturn {p : Proc (Server σ) Unit} {b : Bool} (h : Stays P p s) :
    Stays P (do p; return b) s := by
  unfold Stays
  rwa [Proc.final_thenReturn]

end Stays

namespace Kept

/-- What does not touch the registers. -/
theorem of_keeps (hP : Kept k v P) {p : Proc (Server σ) α} (keeps : Proc.Keeps v p) (hs : P s) :
    Stays P p s := hP.same (keeps s) hs

theorem withText (hP : Kept k v P) (hs : P s) (text : List Byte) : P (s.withText text) :=
  hP.same (hP.beside.link s _) hs

theorem reply (hP : Kept k v P) (hs : P s) (text : List Byte) :
    Stays P (Gdbserver.reply text) s := hP.of_keeps (hP.beside.reply text) hs

theorem prepareResumeReply (hP : Kept k v P) (h : Serving rs s t) (hs : P s) :
    Stays P (Gdbserver.prepareResumeReply k host) s := by
  have hreported : P (s.reported k t) := by
    unfold Server.reported
    split
    · exact hP.same (hP.reported _ _) (hP.fill h hs)
    · exact hs
  unfold Stays
  rw [prepareResumeReply_run k host h.live h.nodup, Proc.final_ok]
  exact hP.withText hreported _

theorem handlegReadRegs (hP : Kept k v P) (h : Serving rs s t) (hs : P s) :
    Stays P (Gdbserver.handlegReadRegs k) s :=
  .bind_run (h.setDesiredInferior_run true) (.bind_run (registersToString_run h.live h.nodup)
    (hP.reply (hP.fill h hs) _))

theorem handleGWriteRegs (hP : Kept k v P) (h : Serving rs s t) (hs : P s) :
    Stays P (Gdbserver.handleGWriteRegs k) s := by
  let decoded := decodedRegisters (s.ownBuf.drop 1)
  have hrun := registersFromString_run (k := k) h.live h.nodup (s.ownBuf.drop 1)
  have hsupplied : ∀ complete, P ((s.fill k t).supplied (filled k s.os t) complete 0 decoded.1) :=
    fun complete => hP.supply h.fill (hP.fill h hs) complete 0 decoded.1
  have hstate : ((s.fill k t).record (.supply t.node true decoded.2 0 decoded.1)).assignThread
      t.node (storeBytes decoded.1) =
        (s.fill k t).supplied (filled k s.os t) decoded.2 0 decoded.1 := by
    rw [Server.supplied, filled_node, filled_valid]
    rfl
  refine .bind_run packet_run (.bind_run (h.setDesiredInferior_run true) ?_)
  dsimp only at hrun
  rw [hstate] at hrun
  cases hcomplete : (decodedRegisters (s.ownBuf.drop 1)).2 with
  | true =>
    rw [hcomplete, if_pos rfl] at hrun
    exact .bind_run hrun (hP.reply (hsupplied true) _)
  | false =>
    rw [hcomplete, if_neg Bool.false_ne_true] at hrun
    exact .bind_error hrun (hsupplied false)

theorem handlepReadReg (hP : Kept k v P) (h : Serving rs s t) (hs : P s) :
    Stays P (Gdbserver.handlepReadReg k) s := by
  refine .bind_run packet_run (.bind_run (h.setDesiredInferior_run true) ?_)
  apply Stays.ite
  · intro _
    rcases regAt_cases (strtol (s.ownBuf.drop 1)).1.toNat with ⟨r, _, hget, _⟩ | ⟨hget, _⟩
    · exact .bind_run (collectRegisterAsString_run h.live h.nodup hget)
        (hP.reply (hP.fill h hs) _)
    · have hrun : (collectRegisterAsString k (strtol (s.ownBuf.drop 1)).1.toNat).run s =
          .error (.fault "reg_defs") s := by
        simp only [collectRegisterAsString, EStateM.run_bind, regAt_run_none hget]
      exact .bind_error hrun hs
  · exact fun _ => hP.reply hs _

end Kept

theorem supply_eq_supplied {r : Regcache.Reg RegName} {value : List Byte}
    (short : value.length ≤ r.size / 8) : supply r value = supplied (r.offset / 8) value := by
  funext t
  have hsupplied : ∀ registers, Regcache.supplyRegister r value registers =
      Overlay.memcpy registers (r.offset / 8) value := by
    intro registers
    rw [Regcache.supplyRegister, List.take_of_length_le short]
  simp only [supply, supplied, hsupplied]

namespace Kept

theorem handlePWriteReg (hP : Kept k v P) (h : Serving rs s t) (hs : P s) :
    Stays P (Gdbserver.handlePWriteReg : Proc (Server σ) Unit) s := by
  refine .bind_run packet_run (.bind_run (h.setDesiredInferior_run true) ?_)
  apply Stays.ite
  · intro _
    rcases regAt_cases (strtol (s.ownBuf.drop 1)).1.toNat with ⟨r, _, hget, _⟩ | ⟨hget, _⟩
    · refine .bind_run (regAt_run hget) (.ite (fun _ => hs) fun _ => .ite ?_ fun _ => hs)
      intro _
      have hrun := supplyRegister_run h.live hget (pValue s.ownBuf r.size).1
      have hstate : P (s.supplied t true (r.offset / 8) (pValue s.ownBuf r.size).1) :=
        hP.supply h hs _ _ _
      have hshort : (pValue s.ownBuf r.size).1.length ≤ r.size / 8 :=
        convertAsciiToInt_length_le _ _
      rw [supply_eq_supplied hshort] at hrun
      exact .bind_run hrun (hP.reply hstate _)
    · exact .bind_error (regAt_run_none hget) hs
  · exact fun _ => hP.reply hs _

theorem waitAndReport (hP : Kept k v P) (h : Serving rs s t) (hs : P s) (step : Bool)
    (sig : Int) :
    Stays P (do mywait k true; Gdbserver.prepareResumeReply k host)
      (s.resumed k (resumeRequest step) t.pid sig) := by
  have hresumed : Serving rs (s.resumed k (resumeRequest step) t.pid sig) (setValid false t) :=
    h.resumed _ _ _
  refine (Proc.Ends.final_iff (P := P)).mp ?_
  rw [Proc.Ends.bind_iff]
  refine ((mywait_ends hresumed.live hresumed.nodup true).and
    (mywait_reports hresumed.live true)).imp ?_ ?_
  · rintro _ s₁ ⟨⟨_, hwaited⟩, hreports⟩
    obtain ⟨t₁, h₁⟩ := hresumed.waited hwaited
    exact Proc.Ends.final_iff.mpr (hP.prepareResumeReply h₁
      (hP.resume h hs step sig hwaited (.inr ⟨_, hreports⟩)))
  · rintro _ s₁ ⟨⟨_, _, hwaited⟩, hsame⟩
    exact hP.resume h hs step sig hwaited (.inl hsame)

end Kept

/-- `P` holds in `s` whatever is replied, and however the wait ends after a resume. -/
structure Resuming (k : Kernel σ) (host : Signals.Host) (P : Server σ → Prop) (s : Server σ)
    (t : ThreadInfo) : Prop where
  refused : ∀ l, P { s with link := l }
  waits : ∀ contThread step sig,
    Stays P (do mywait k true; prepareResumeReply k host)
      ({ s with contThread := contThread }.resumed k (resumeRequest step) t.pid sig)

namespace Resuming

theorem reply (hP : Resuming k host P s t) (text : List Byte) :
    Stays P (Gdbserver.reply text) s := by
  unfold Stays Gdbserver.reply
  split
  · exact hP.refused _
  · exact hP.refused s.link

theorem resumeAndReport (hP : Resuming k host P s t) (h : Serving rs s t) (step : Bool)
    (sig : Nat) : Stays P (Gdbserver.resumeAndReport k host step sig) s :=
  .bind_run (h.setDesiredInferior_run false)
    (.bind_run (myresume_run h.live h.nodup h.id_eq step sig) (hP.waits s.contThread step sig))

/-- `C` and `S`. -/
theorem signalHandler (hP : Resuming k host P s t) (h : Serving rs s t) (step : Bool) :
    Stays P (do
      let sig ← parseSignalByte host ((← packet).drop 1)
      Gdbserver.resumeAndReport k host step sig) s := by
  have hrun := parseSignalByte_run host (s.ownBuf.drop 1) s
  refine .bind_run packet_run ?_
  cases hsig : signalByte host (s.ownBuf.drop 1) with
  | none =>
    rw [hsig] at hrun
    exact .bind_error hrun (hP.refused s.link)
  | some sig =>
    rw [hsig] at hrun
    exact .bind_run hrun (hP.resumeAndReport h step sig)

theorem handleVCont (hP : Resuming k host P s t) (h : Serving rs s t) :
    Stays P (Gdbserver.handleVCont k host) s := by
  cases hinfo : resumeInfo host s.ownBuf with
  | none =>
    refine .bind_run packet_run ?_
    dsimp only
    rw [hinfo]
    exact hP.reply _
  | some info =>
    obtain ⟨contThread, step, sig, -, hrun⟩ := handleVCont_run_some (k := k) h hinfo
    unfold Stays
    rw [hrun]
    exact hP.waits contThread step sig

theorem handleVRequests (hP : Resuming k host P s t) (h : Serving rs s t) :
    Stays P (Gdbserver.handleVRequests k host) s := by
  refine .bind_run packet_run (.ite (fun _ => hP.handleVCont h) fun _ => ?_)
  exact .ite (fun _ => hP.reply _) fun _ => hP.reply _

end Resuming

namespace Kept

theorem resuming (hP : Kept k v P) (h : Serving rs s t) (hs : P s) : Resuming k host P s t where
  refused l := hP.same (hP.beside.link s l) hs
  waits contThread step sig :=
    have h₁ : Serving rs { s with contThread := contThread } t := h
    hP.waitAndReport h₁ (hP.same (hP.beside.chosen s _ _ _) hs) step sig

theorem handleRRestart (hP : Kept k v P) (h : Serving rs s t) (hs : P s) :
    Stays P (Gdbserver.handleRRestart k) s := by
  refine .bind_run rfl ?_
  rw [if_neg (by rw [h.plain]; exact Bool.false_ne_true)]
  exact (hP.reply hs _).thenReturn

/-- Every packet that does not let go of the inferior. -/
theorem handlePacket (hP : Kept k v P) (h : Serving rs s t) (hs : P s)
    (notD : command s ≠ 'D') (notk : command s ≠ 'k') :
    Stays P (Gdbserver.handlePacket k host) s := by
  have hkeeps : ∀ {p : Proc (Server σ) Unit}, Proc.Keeps v p → Stays P (do p; return false) s :=
    fun keeps => (hP.of_keeps keeps hs).thenReturn
  unfold Stays
  rw [handlePacket_run]
  change Stays P (dispatch k host (command s)) s
  generalize command s = c at notD notk
  unfold dispatch
  split
  · exact hkeeps hP.beside.handleQuery
  · exact hkeeps hP.beside.handleSet
  · exact hkeeps hP.beside.handledToggleDebug
  · exact absurd rfl notD
  · exact hkeeps (hP.beside.reply _)
  · exact (hP.prepareResumeReply h hs).thenReturn
  · exact hkeeps hP.beside.handleHSetThread
  · exact (hP.handlegReadRegs h hs).thenReturn
  · exact (hP.handleGWriteRegs h hs).thenReturn
  · exact (hP.handlepReadReg h hs).thenReturn
  · exact (hP.handlePWriteReg h hs).thenReturn
  · exact hkeeps hP.beside.handlemReadMem
  · exact hkeeps hP.beside.handleMWriteMem
  · exact ((hP.resuming h hs).signalHandler h false).thenReturn
  · exact ((hP.resuming h hs).signalHandler h true).thenReturn
  · exact ((hP.resuming h hs).resumeAndReport h false 0).thenReturn
  · exact ((hP.resuming h hs).resumeAndReport h true 0).thenReturn
  · exact absurd rfl notk
  · exact hkeeps hP.beside.handleTThreadAlive
  · exact hP.handleRRestart h hs
  · exact ((hP.resuming h hs).handleVRequests h).thenReturn
  · exact hkeeps hP.beside.handleZInsertBp
  · exact hkeeps hP.beside.handlezRemoveBp
  · exact (hP.reply hs _).thenReturn

/-- The reply is sent, and the end of the inferior looked for. -/
theorem servePacket (hP : Kept k v P) (h : Serving rs s t) (hs : P s)
    (fits : (cstr (s.ownBuf.drop 1)).length ≤ pbufsiz)
    (notD : command s ≠ 'D') (notk : command s ≠ 'k') :
    Stays P (Gdbserver.servePacket k host) s := by
  have hhandled : Stays P (Gdbserver.handlePacket k host) s := hP.handlePacket h hs notD notk
  refine (Proc.Ends.final_iff (P := P)).mp ?_
  unfold Gdbserver.servePacket
  rw [Proc.Ends.bind_iff]
  refine ((handlePacket_verdict h (fun _ => fits) notD notk).and
    (Proc.Ends.final_iff.mpr hhandled)).imp ?_ fun _ _ hend => hend.2
  rintro restarted s₁ ⟨⟨⟨t₁, h₁⟩, _⟩, hs₁⟩
  have hsent : Proc.Ends (putpkt k host) _ _ s₁ :=
    (putpkt_serving h₁).and (hP.beside.putpkt.ends s₁)
  cases restarted with
  | true =>
    simp only [if_true, Proc.Ends.bind_iff]
    exact hsent.imp (fun _ _ hsame => hP.same hsame.2 hs₁) fun _ _ hsame => hP.same hsame.2 hs₁
  | false =>
    simp only [Bool.false_eq_true, if_false, Proc.Ends.bind_iff]
    refine hsent.imp ?_ fun _ _ hsame => hP.same hsame.2 hs₁
    rintro _ s₂ ⟨h₂, hsame⟩
    refine (handleTerminatedInferior_ends h₂).imp ?_ ?_
    · rintro _ _ rfl
      exact hP.same hsame hs₁
    · rintro _ _ ⟨rfl, _⟩
      exact hP.same hsame hs₁

/-- `D` and `k` are looked at by those who use this. -/
theorem turn (hP : Kept k v P) (h : Serving rs s t) (hs : P s)
    (leaves : ∀ len s₁, Delivered s len s₁ → 0 < len → P s₁ →
      command s₁ = 'D' ∨ command s₁ = 'k' → Stays P (Gdbserver.handlePacket k host) s₁) :
    Stays P (Gdbserver.turn k host) s := by
  have hreceived := hP.beside.onLink getpkt s
  cases hpacket : (onLink getpkt).run s with
  | error e s₁ =>
    rw [hpacket] at hreceived
    unfold Gdbserver.turn
    exact .bind_error hpacket (hP.same hreceived hs)
  | ok len s₁ =>
    have delivered : Delivered s len s₁ := hpacket
    have h₁ := delivered.serving h
    rw [hpacket] at hreceived
    have hs₁ : P s₁ := hP.same hreceived hs
    unfold Gdbserver.turn
    refine .bind_run delivered (.ite ?_ fun _ => hs₁)
    intro pos
    refine Stays.thenReturn ?_
    by_cases hc : command s₁ = 'D' ∨ command s₁ = 'k'
    · have hleft : Stays P (Gdbserver.handlePacket k host) s₁ :=
        leaves len s₁ delivered pos hs₁ hc
      have hnever : Proc.Ends (Gdbserver.handlePacket k host) (fun _ _ => False)
          (fun e _ => Leaves e) s₁ := handlePacket_leaves h₁ hc
      unfold Gdbserver.servePacket
      cases hrun : (Gdbserver.handlePacket k host).run s₁ with
      | ok restarted s₂ => exact (hnever.returned hrun).elim
      | error e s₂ =>
        rw [Stays, hrun] at hleft
        exact .bind_error hrun hleft
    · rw [not_or] at hc
      exact hP.servePacket h₁ hs₁ (delivered.fits pos) hc.1 hc.2

end Kept

/-- After `D` and `k` no packet is served. -/
theorem Next.stays (h : Serving rs s t) {s' : Server σ} (next : Next k host s s') {len : Int}
    {s₁ : Server σ} (delivered : Delivered s len s₁) (pos : 0 < len) :
    ¬ (command s₁ = 'D' ∨ command s₁ = 'k') := by
  intro hc
  have hturn : Proc.Ends (turn k host) (fun _ _ => False) (fun e _ => Leaves e) s := by
    rw [turn_ends k host delivered pos, servePacket, Proc.Ends.bind_iff]
    exact (handlePacket_leaves (delivered.serving h) hc).imp (fun _ _ hfalse => hfalse.elim)
      fun _ _ hleaves => hleaves
  cases next with
  | served again => exact hturn.returned again
  | failed jumped =>
    rw [Proc.Ends.of_run_error jumped] at hturn
    simp [Leaves, AckFault] at hturn

theorem Kept.next (hP : Kept k v P) (h : Serving rs s t) (hs : P s) {s' : Server σ}
    (next : Next k host s s') : P s' := by
  have hturn : Stays P (Gdbserver.turn k host) s :=
    hP.turn h hs fun _ _ delivered pos _ hc => absurd hc (next.stays h delivered pos)
  cases next with
  | served again => rwa [Stays, again] at hturn
  | failed jumped => rwa [Stays, jumped] at hturn

/-- What packets keep holds in every turn of a session. -/
theorem Kept.later (hP : Kept k v P) (reachable : Reachable k host s) (hs : P s)
    {s' : Server σ} (later : Later k host s s') : P s' := by
  induction later with
  | refl => exact hs
  | tail before next ih =>
    obtain ⟨rs, t, h⟩ := (reachable.later before).serving
    exact hP.next h ih next

end Gdbserver
