import OsxGdbserver.HandlerFrames
import OsxGdbserver.Sessions

/-!
# Listening for an interrupt

`SIGIO` is to be handled while the server waits for the inferior on behalf of a packet and
ignored at all other times. `remote_open` has it ignored, and nothing the packet loop calls
changes that: a byte that comes in during the wait is not looked at until the inferior has
stopped by itself.
-/

namespace Gdbserver

open Remote CString Ppc

variable {σ α : Type} {k : Kernel σ} {host : Signals.Host} {s : Server σ} {t : ThreadInfo}
  {rs : List (List Byte)}

/-- What `SIGIO` was set to at each wait on behalf of a packet, newest first. -/
def Server.connectedWaits (s : Server σ) : List Disposition :=
  s.log.filterMap fun
    | .wait _ true true sigio => some sigio
    | _ => none

/-- The disposition of `SIGIO` now, and at the waits. -/
def Server.async (s : Server σ) : Disposition × List Disposition := (s.sigio, s.connectedWaits)

/-- `p` neither changes the disposition nor waits on behalf of a packet. -/
abbrev KeepsAsync (p : Proc (Server σ) α) : Prop := Proc.Keeps Server.async p

theorem beside_async (k : Kernel σ) : Beside k Server.async where
  link _ _ := rfl
  current _ _ := rfl
  chosen _ _ _ _ := rfl
  threadPtr _ _ := rfl
  remoteDebug _ _ := rfl
  sent _ _ := rfl
  probed _ _ := rfl
  interrupted _ _ _ _ := rfl
  read _ _ := withMemory_keeps (fun _ _ _ _ => rfl) _
  written _ _ := withMemory_keeps (fun _ _ _ _ => rfl) _
  inserted _ := withMemory_keeps (fun _ _ _ _ => rfl) _
  removed _ := withMemory_keeps (fun _ _ _ _ => rfl) _

theorem besideTarget_async (k : Kernel σ) : BesideTarget k Server.async where
  toBeside := beside_async k
  fetches _ _ _ := rfl
  stores _ _ _ := rfl
  os _ _ := rfl
  assigned _ _ _ := rfl
  fetched _ _ _ _ := rfl
  stored _ _ _ _ := rfl
  supplied _ _ _ _ _ _ := rfl
  reported _ _ := rfl
  ptraced _ _ _ _ := rfl
  waited _ := rfl
  status _ _ := rfl
  sig _ _ := rfl

theorem addProcess_keepsAsync (pid : Int) : KeepsAsync (addProcess k pid) := by
  have htarget := besideTarget_async k
  refine .bind (htarget.callKernel _) fun task => ?_
  cases task with
  | none => exact .throw _
  | some task =>
    refine .bind (.modify fun _ => rfl) fun _ => .bind (htarget.darwinGetFirstThread _)
      fun _ => ?_
    exact .modify fun _ => rfl

theorem darwinKill_keepsAsync : KeepsAsync (darwinKill k) := by
  have htarget := besideTarget_async k
  refine .bind .get fun _ => .ite (.pure _) (.bind derefCurrent_keeps fun _ => ?_)
  refine .bind (htarget.ptrace _ _ _) fun _ => .bind (.modify fun _ => rfl) fun _ => ?_
  exact .bind (htarget.callKernel _) fun _ => .bind (.modify fun _ => rfl) fun _ =>
    .modify fun _ => rfl

theorem darwinDetach_keepsAsync : KeepsAsync (darwinDetach k) := by
  refine .bind .get fun _ => .ite (.pure _) (.bind derefCurrent_keeps fun _ => ?_)
  exact .bind ((besideTarget_async k).ptrace _ _ _) fun _ => .bind (.modify fun _ => rfl) fun _ =>
    .modify fun _ => rfl

/-- The waits at start-up are on behalf of nobody. -/
theorem startInferior_keepsAsync : KeepsAsync (startInferior k) := by
  have htarget := besideTarget_async k
  have hcreate : KeepsAsync (darwinCreateInferior k) := by
    refine .bind (htarget.callKernel _) fun pid => ?_
    cases pid with
    | none => exact .throw _
    | some pid =>
      exact .bind (.modify fun _ => rfl) fun _ => .bind (addProcess_keepsAsync pid) fun _ => .pure _
  exact .bind hcreate fun _ => .bind (.modify fun _ => rfl) fun _ => htarget.mywait

/-- The disposition, and one more wait that finds it so. -/
def Server.waitedOn (s : Server σ) : Disposition × List Disposition :=
  (s.sigio, s.sigio :: s.connectedWaits)

/-- The wait comes first; what follows it does not change the disposition. -/
theorem waitAndReport_async (s : Server σ) :
    (Proc.final ((do mywait k true; prepareResumeReply k host).run s)).async = s.waitedOn := by
  have hwait : (Proc.final ((mywait k true).run s)).async = (s.waiting true).async := by
    rw [mywait_run]
    refine (Proc.Keeps.bind (besideTarget_async k).darwinWait fun _ => ?_) (s.waiting true)
    exact .ite (.bind (.modify fun _ => rfl) fun _ => .modify fun _ => rfl) (.modify fun _ => rfl)
  rw [Proc.Keeps.final_bind (fun _ => (besideTarget_async k).prepareResumeReply), hwait]
  rfl

theorem resumed_waitedOn (s : Server σ) (request : PtraceRequest) (pid sig : Int) :
    (s.resumed k request pid sig).waitedOn = s.waitedOn :=
  congrArg (fun waits => (s.sigio, s.sigio :: waits))
    (filterMap_flushLog (fun _ _ _ => rfl) s.allThreads s.os s.log)

theorem resumeAndReport_async (h : Serving rs s t) (step : Bool) (sig : Nat) :
    (Proc.final ((resumeAndReport k host step sig).run s)).async = s.waitedOn := by
  unfold resumeAndReport
  rw [EStateM.run_bind, h.setDesiredInferior_run false]
  dsimp only
  rw [EStateM.run_bind, myresume_run h.live h.nodup h.id_eq step sig]
  exact (waitAndReport_async _).trans (resumed_waitedOn s _ _ _)

/-- The packet in `own_buf` lets the inferior run. -/
def Resumes (host : Signals.Host) (s : Server σ) : Prop :=
  match command s with
  | 'c' | 's' => True
  | 'C' | 'S' => (signalByte host (s.ownBuf.drop 1)).isSome = true
  | 'v' => (ascii "vCont;").isPrefixOf s.ownBuf = true ∧ (resumeInfo host s.ownBuf).isSome = true
  | _ => False

/-- The server has waited just if it was to. -/
def WaitsIf (p : Proc (Server σ) α) (resumes : Prop) (s : Server σ) : Prop :=
  (resumes → (Proc.final (p.run s)).async = s.waitedOn) ∧
    (¬ resumes → (Proc.final (p.run s)).async = s.async)

theorem WaitsIf.of_keeps {p : Proc (Server σ) α} {resumes : Prop} (h : KeepsAsync p)
    (never : ¬ resumes) : WaitsIf p resumes s := ⟨fun hr => absurd hr never, fun _ => h s⟩

theorem WaitsIf.thenReturn {p : Proc (Server σ) Unit} {resumes : Prop} {b : Bool}
    (h : WaitsIf p resumes s) : WaitsIf (do p; return b) resumes s := by
  unfold WaitsIf
  rw [Proc.final_thenReturn]
  exact h

theorem signalHandler_waitsIf (h : Serving rs s t) (step : Bool) :
    WaitsIf (do
        let sig ← parseSignalByte host ((← packet).drop 1)
        resumeAndReport k host step sig)
      ((signalByte host (s.ownBuf.drop 1)).isSome = true) s := by
  have hrun := parseSignalByte_run host (s.ownBuf.drop 1) s
  unfold WaitsIf
  rw [EStateM.run_bind, packet_run]
  dsimp only
  rw [EStateM.run_bind, hrun]
  cases signalByte host (s.ownBuf.drop 1) with
  | none => exact ⟨fun hnone => absurd hnone (by decide), fun _ => rfl⟩
  | some sig => exact ⟨fun _ => resumeAndReport_async h step sig, fun hnone => absurd rfl hnone⟩

theorem handleVCont_waitsIf (h : Serving rs s t) :
    WaitsIf (handleVCont k host) ((resumeInfo host s.ownBuf).isSome = true) s := by
  unfold WaitsIf
  cases hinfo : resumeInfo host s.ownBuf with
  | none =>
    rw [handleVCont, EStateM.run_bind, packet_run]
    dsimp only
    rw [hinfo]
    exact ⟨fun hnone => absurd hnone (by decide), fun _ => (beside_async k).reply _ s⟩
  | some info =>
    refine ⟨fun _ => ?_, fun hnone => absurd rfl hnone⟩
    obtain ⟨contThread, step, sig, -, hrun⟩ := handleVCont_run_some (k := k) h hinfo
    rw [hrun]
    exact (waitAndReport_async _).trans
      (resumed_waitedOn { s with contThread := contThread } _ _ _)

theorem handleVRequests_waitsIf (h : Serving rs s t) :
    WaitsIf (handleVRequests k host)
      ((ascii "vCont;").isPrefixOf s.ownBuf = true ∧ (resumeInfo host s.ownBuf).isSome = true)
      s := by
  have hcont : WaitsIf (handleVCont k host) _ s := handleVCont_waitsIf h
  unfold WaitsIf handleVRequests
  rw [EStateM.run_bind, packet_run]
  dsimp only
  split
  · rename_i hvcont
    constructor
    · exact fun hresumes => hcont.1 hresumes.2
    · exact fun hresumes => hcont.2 fun hinfo => hresumes ⟨hvcont, hinfo⟩
  · rename_i hvcont
    have hreply : KeepsAsync (do
        if (ascii "vCont?").isPrefixOf s.ownBuf then
          reply (ascii "vCont;c;C;s;S")
        else
          reply [] : Proc (Server σ) Unit) :=
      .ite ((beside_async k).reply _) ((beside_async k).reply _)
    exact ⟨fun hresumes => absurd hresumes.1 hvcont, fun _ => hreply s⟩

theorem restart_keepsAsync : KeepsAsync (restart k) :=
  .bind darwinKill_keepsAsync fun _ => .bind ((beside_async k).reply _) fun _ =>
    .bind startInferior_keepsAsync fun _ => .pure _

theorem handlePacket_waitsIf (h : Serving rs s t) :
    WaitsIf (handlePacket k host) (Resumes host s) s := by
  have hbeside := besideTarget_async k
  have hkeeps : ∀ {p : Proc (Server σ) Unit}, KeepsAsync p →
      WaitsIf (do p; return false) False s := fun hp => (WaitsIf.of_keeps hp id).thenReturn
  have hdetach : KeepsAsync (handleDDetach k host) := by
    refine .bind darwinDetach_keepsAsync fun _ => .bind (hbeside.reply _) fun _ =>
      .bind hbeside.putpkt fun _ => .bind (.modify fun _ => rfl) fun _ => .bind .get fun _ => ?_
    exact .ite (.bind (.modify fun _ => rfl) fun _ => .bind (hbeside.callKernel _) fun _ =>
      .throw _) (.throw _)
  have hkill : KeepsAsync (handlekKill k) :=
    .bind darwinKill_keepsAsync fun _ => .bind .get fun _ =>
      .ite (.bind (hbeside.reply _) fun _ => .bind startInferior_keepsAsync fun _ => .pure _)
        (.throw _)
  have hrestart : KeepsAsync (handleRRestart k) :=
    .bind .get fun _ => .ite restart_keepsAsync (.bind (hbeside.reply _) fun _ => .pure _)
  have hresumes : ∀ step, WaitsIf (resumeAndReport k host step 0) True s := fun step =>
    ⟨fun _ => resumeAndReport_async h step 0, fun hno => absurd trivial hno⟩
  unfold WaitsIf Resumes
  rw [handlePacket_run]
  change WaitsIf (dispatch k host (command s)) _ s
  generalize command s = c
  by_cases beside : c ∉ ['C', 'S', 'c', 's', 'v', 'D', 'k', 'R']
  · refine .of_keeps (hbeside.dispatch beside) ?_
    split <;> simp_all
  · simp only [List.mem_cons, List.not_mem_nil, or_false, not_not] at beside
    rcases beside with rfl | rfl | rfl | rfl | rfl | rfl | rfl | rfl
    · exact (signalHandler_waitsIf h false).thenReturn
    · exact (signalHandler_waitsIf h true).thenReturn
    · exact (hresumes false).thenReturn
    · exact (hresumes true).thenReturn
    · exact (handleVRequests_waitsIf h).thenReturn
    · exact hkeeps hdetach
    · exact .of_keeps hkill id
    · exact .of_keeps hrestart id

theorem handleTerminatedInferior_keepsAsync : KeepsAsync (handleTerminatedInferior k) :=
  .bind .get fun _ => .ite (.ite restart_keepsAsync (.throw _)) (.pure _)

theorem servePacket_async (s : Server σ) :
    (Proc.final ((servePacket k host).run s)).async =
      (Proc.final ((handlePacket k host).run s)).async := by
  have hsent : KeepsAsync (putpkt k host) := (beside_async k).putpkt
  refine Proc.Keeps.final_bind (fun restarted => ?_) s
  cases restarted with
  | true => exact .bind hsent fun _ => .pure _
  | false =>
    exact .bind hsent fun _ => .bind handleTerminatedInferior_keepsAsync fun _ => .pure _

/-- The packet that comes next lets the inferior run. -/
def ResumesNext (host : Signals.Host) (s : Server σ) : Prop :=
  ∃ len s₁, Delivered s len s₁ ∧ 0 < len ∧ Resumes host s₁

theorem turn_waitsIf (h : Serving rs s t) : WaitsIf (turn k host) (ResumesNext host s) s := by
  have hreceived : (Proc.final ((onLink getpkt).run s)).async = s.async :=
    (beside_async k).onLink getpkt s
  cases hpacket : (onLink getpkt).run s with
  | error e s₁ =>
    rw [hpacket] at hreceived
    have hturn : (turn k host).run s = .error e s₁ := by
      unfold turn
      rw [EStateM.run_bind, hpacket]
    constructor
    · rintro ⟨len, s₂, delivered, _⟩
      cases hpacket.symm.trans delivered
    · intro _
      rw [hturn]
      exact hreceived
  | ok len s₁ =>
    rw [hpacket] at hreceived
    have delivered : Delivered s len s₁ := hpacket
    have hsame : ∀ {len' s₂}, Delivered s len' s₂ → len' = len ∧ s₂ = s₁ := by
      intro len' s₂ delivered'
      cases hpacket.symm.trans delivered'
      exact ⟨rfl, rfl⟩
    by_cases pos : 0 < len
    · have hturn : (Proc.final ((turn k host).run s)).async =
          (Proc.final ((handlePacket k host).run s₁)).async := by
        unfold turn
        rw [EStateM.run_bind, hpacket]
        dsimp only
        rw [if_pos pos, Proc.final_thenReturn, servePacket_async]
      have hwaits : WaitsIf (handlePacket k host) (Resumes host s₁) s₁ :=
        handlePacket_waitsIf (delivered.serving h)
      constructor
      · rintro ⟨len', s₂, delivered', _, hresumes⟩
        obtain ⟨_, rfl⟩ := hsame delivered'
        rw [hturn, hwaits.1 hresumes]
        exact congrArg (fun a => (a.1, a.1 :: a.2)) hreceived
      · intro hno
        have hstays : ¬ Resumes host s₁ := fun hresumes =>
          hno ⟨len, s₁, delivered, pos, hresumes⟩
        rw [hturn, hwaits.2 hstays]
        exact hreceived
    · have hturn : (turn k host).run s = .ok false s₁ := by
        unfold turn
        rw [EStateM.run_bind, hpacket]
        dsimp only
        rw [if_neg pos]
        rfl
      constructor
      · rintro ⟨len', s₂, delivered', pos', _⟩
        obtain ⟨rfl, _⟩ := hsame delivered'
        exact absurd pos' pos
      · intro _
        rw [hturn]
        exact hreceived

/-- In the turn that starts in `s`, `SIGIO` interrupts each wait on behalf of a packet, and
is ignored before and after it. -/
structure Listens (k : Kernel σ) (host : Signals.Host) (s : Server σ) : Prop where
  before : s.sigio = .ignored
  received : ∀ len s₁, Delivered s len s₁ → s₁.sigio = .ignored
  after : (Proc.final ((turn k host).run s)).sigio = .ignored
  waits : ∀ pid sigio, .wait pid true true sigio ∈ (Proc.final ((turn k host).run s)).log →
    sigio = .inputInterrupt

theorem mem_connectedWaits {sigio : Disposition} :
    sigio ∈ s.connectedWaits ↔ ∃ pid, Event.wait pid true true sigio ∈ s.log := by
  constructor
  · intro hmem
    obtain ⟨event, hevent, heq⟩ := List.mem_filterMap.mp hmem
    split at heq
    · cases heq
      exact ⟨_, hevent⟩
    · cases heq
  · rintro ⟨pid, hmem⟩
    exact List.mem_filterMap.mpr ⟨_, hmem, rfl⟩

theorem not_listens_of_resumes (h : Serving rs s t) (ignored : s.sigio = .ignored)
    (hresumes : ResumesNext host s) : ¬ Listens k host s := by
  intro hlistens
  have hasync := (turn_waitsIf (k := k) h).1 hresumes
  have hwaits : (Proc.final ((turn k host).run s)).connectedWaits = s.sigio :: s.connectedWaits :=
    congrArg Prod.snd hasync
  have hheard : s.sigio ∈ (Proc.final ((turn k host).run s)).connectedWaits := by
    rw [hwaits]
    exact List.mem_cons_self
  obtain ⟨pid, hevent⟩ := mem_connectedWaits.mp hheard
  have hinterrupt := hlistens.waits pid _ hevent
  rw [ignored] at hinterrupt
  cases hinterrupt

theorem listens_of_stays (h : Serving rs s t) (ignored : s.sigio = .ignored)
    (unwaited : s.connectedWaits = []) (hno : ¬ ResumesNext host s) : Listens k host s := by
  have hasync := (turn_waitsIf (k := k) h).2 hno
  have hwaits : (Proc.final ((turn k host).run s)).connectedWaits = s.connectedWaits :=
    congrArg Prod.snd hasync
  refine ⟨ignored, ?_, (congrArg Prod.fst hasync).trans ignored, ?_⟩
  · intro len s₁ delivered
    have hreceived := ((beside_async k).onLink getpkt s)
    rw [show (onLink getpkt).run s = .ok len s₁ from delivered] at hreceived
    exact (congrArg Prod.fst hreceived).trans ignored
  · intro pid sigio hmem
    have hmem' := mem_connectedWaits.mpr ⟨pid, hmem⟩
    rw [hwaits, unwaited] at hmem'
    cases hmem'

theorem Next.async {s' : Server σ} (h : Serving rs s t) (next : Next k host s s') :
    s'.sigio = s.sigio ∧
      (¬ ResumesNext host s → s'.connectedWaits = s.connectedWaits) := by
  have hturn : WaitsIf (turn k host) (ResumesNext host s) s := turn_waitsIf h
  have hfinal : Proc.final ((turn k host).run s) = s' := by
    cases next with
    | served again => rw [again, Proc.final_ok]
    | failed jumped => rw [jumped, Proc.final_error]
  rw [WaitsIf, hfinal] at hturn
  constructor
  · by_cases hresumes : ResumesNext host s
    · exact congrArg Prod.fst (hturn.1 hresumes)
    · exact congrArg Prod.fst (hturn.2 hresumes)
  · exact fun hno => congrArg Prod.snd (hturn.2 hno)

/-- What `main` does before the packet loop. -/
theorem prepareInferior_keepsAsync (ep pid : Int) : KeepsAsync (prepareInferior k ep pid) := by
  have htarget := besideTarget_async k
  have hattach : KeepsAsync (darwinAttach k pid) :=
    .bind (htarget.ptrace _ _ _) fun _ =>
      .ite (.bind (addProcess_keepsAsync pid) fun _ => .pure _) (.pure _)
  refine .bind .get fun _ => .ite (.bind (.bind hattach fun _ => .ite (.pure _) ?_) fun _ =>
    .ite (.throw _) (.pure _)) (.bind startInferior_keepsAsync fun _ => htarget.runToEntryPoint ep)
  exact .bind (.modify fun _ => rfl) fun _ => .bind htarget.mywait fun _ => .pure _

theorem remoteOpen_opens {serial : Bool} {s' : Server σ}
    (opened : (remoteOpen serial).run s = .ok () s') :
    s'.async = (.ignored, s.connectedWaits) ∧ ∀ {rs t}, Serving rs s t → Serving rs s' t := by
  cases serial with
  | false =>
    cases opened
    exact ⟨rfl, fun h => h⟩
  | true =>
    cases opened
    exact ⟨rfl, fun h => h⟩

/-- For every client, a session listens for interrupts as it should just if no packet of it
lets the inferior run. -/
theorem session_listens_iff {s₀ : Server σ} (fresh : Fresh s₀) {ep pid : Int}
    (prepared : (prepareInferior k ep pid).run s₀ = .ok () s) {serial : Bool} {s₁ : Server σ}
    (opened : (remoteOpen serial).run s = .ok () s₁) :
    (∀ s', Later k host s₁ s' → Listens k host s') ↔
      ∀ s', Later k host s₁ s' → ¬ ResumesNext host s' := by
  have hstarted : s.connectedWaits = [] := by
    have hkeeps := prepareInferior_keepsAsync (k := k) ep pid s₀
    rw [prepared] at hkeeps
    have hfresh : s₀.connectedWaits = [] := congrArg _ fresh.log
    exact (congrArg Prod.snd hkeeps).trans hfresh
  obtain ⟨rs, t, h⟩ := (Reachable.start ep pid fresh prepared : Reachable k host s).serving
  obtain ⟨hasync, hserving⟩ := remoteOpen_opens opened
  have hlater : ∀ {s'}, Later k host s₁ s' →
      (∃ rs t, Serving rs s' t) ∧ s'.sigio = .ignored := by
    intro s' later
    induction later with
    | refl => exact ⟨⟨rs, t, hserving h⟩, congrArg Prod.fst hasync⟩
    | tail _ next ih =>
      obtain ⟨⟨rs', t', h'⟩, hignored⟩ := ih
      exact ⟨next.serving h', (next.async h').1.trans hignored⟩
  constructor
  · intro hall s' later hresumes
    obtain ⟨⟨rs', t', h'⟩, hignored⟩ := hlater later
    exact not_listens_of_resumes h' hignored hresumes (hall s' later)
  · intro hno s' later
    obtain ⟨⟨rs', t', h'⟩, hignored⟩ := hlater later
    refine listens_of_stays h' hignored ?_ (hno s' later)
    clear h' hignored
    induction later with
    | refl => exact (congrArg Prod.snd hasync).trans hstarted
    | tail before next ih =>
      obtain ⟨⟨rs'', t'', h''⟩, _⟩ := hlater before
      exact ((next.async h'').2 (hno _ before)).trans ih

/-- The client on a TCP connection has been accepted. -/
def accepted (chunks : List (List Byte)) : Server Machine :=
  Proc.final ((remoteOpen false).run (launched chunks))

theorem opened_accepted (chunks : List (List Byte)) :
    (remoteOpen false).run (launched chunks) = .ok () (accepted chunks) :=
  rfl

/-- The client reads the registers. -/
theorem session_listens_iff_g :
    (∀ s', Later singleThread Signals.darwin (accepted [ascii "$g#67", ascii "+"]) s' →
        Listens singleThread Signals.darwin s') ↔
      ∀ s', Later singleThread Signals.darwin (accepted [ascii "$g#67", ascii "+"]) s' →
        ¬ ResumesNext Signals.darwin s' :=
  session_listens_iff (fresh_initial blankMachine [ascii "$g#67", ascii "+"])
    (prepared_launched _) (opened_accepted _)

/-- The client lets the inferior run: the wait finds `SIGIO` ignored. -/
theorem not_session_listens_c :
    ¬ ∀ s', Later singleThread Signals.darwin (accepted [ascii "$c#63", ascii "+"]) s' →
      Listens singleThread Signals.darwin s' := by
  intro hall
  let s := accepted [ascii "$c#63", ascii "+"]
  let s₁ := Proc.final ((onLink getpkt).run s)
  obtain ⟨rs, t, h⟩ := (reachable_launched [ascii "$c#63", ascii "+"]).serving
  obtain ⟨hasync, hserving⟩ := remoteOpen_opens (opened_accepted [ascii "$c#63", ascii "+"])
  have hlen : Proc.value ((onLink getpkt).run s) = some 1 := by decide +kernel
  have hc : command s₁ = 'c' := by decide +kernel
  have hresumes : Resumes Signals.darwin s₁ := by
    unfold Resumes
    rw [hc]
    trivial
  exact not_listens_of_resumes (hserving h) (congrArg Prod.fst hasync)
    ⟨1, s₁, Proc.eq_ok_of_value hlen, by decide, hresumes⟩ (hall s .refl)
end Gdbserver
