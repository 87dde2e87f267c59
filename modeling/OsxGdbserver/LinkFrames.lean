import OsxGdbserver.Handlers

/-!
# What the handlers do not see of the connection

Of the connection a handler uses `own_buf` alone. What is still to be read and what has
been written is the same to it, and so is the mode, except that `handle_set` turns it on.
The two exceptions are `putpkt`, and `D`, which calls it.
-/

namespace Gdbserver

open Remote

variable {σ α : Type}

/-- Something done to the connection. -/
def Server.updateLink (u : Link → Link) (s : Server σ) : Server σ := { s with link := u s.link }

/-- `own_buf` is neither changed nor used. -/
structure BesideBuffer (u : Link → Link) : Prop where
  ownBuf : ∀ l, (u l).session.ownBuf = l.session.ownBuf
  store : ∀ (l : Link) buf, u { l with session := { l.session with ownBuf := buf } } =
    { u l with session := { (u l).session with ownBuf := buf } }

/-- `p` works the same whatever `u` does to the connection. -/
abbrev Blind (u : Link → Link) (p : Proc (Server σ) α) : Prop :=
  Proc.Commutes (Server.updateLink u) p

variable {k : Kernel σ} {host : Signals.Host} {u : Link → Link}

theorem callKernel_blind (f : σ → α × σ) : Blind u (callKernel f) := .modifyGet fun _ => rfl

theorem derefCurrent_blind : Blind u (derefCurrent : Proc (Server σ) ThreadInfo) := by
  refine .get_bind (fun _ => rfl) fun s => ?_
  cases s.currentInferior.bind s.threadAt with
  | none => exact .throw _
  | some t => exact .pure t

theorem setDesiredInferior_blind (useGeneral : Bool) :
    Blind u (setDesiredInferior useGeneral : Proc (Server σ) Unit) := .modify fun _ => rfl

theorem clearInferiors_blind : Blind u (clearInferiors : Proc (Server σ) Unit) :=
  .modify fun _ => rfl

theorem ptrace_blind (request : PtraceRequest) (pid data : Int) :
    Blind u (ptrace k request pid data) :=
  .bind (.modify fun _ => rfl) fun _ => callKernel_blind _

theorem withMemory_blind (p : Proc (MemBreak.MemState (Darwin.TargetState σ)) α) :
    Blind u (withMemory p) :=
  .bind derefCurrent_blind fun _ => .zoom p (fun _ => rfl) fun _ _ => rfl

theorem darwinGetFirstThread_blind (task : Option Port) :
    Blind u (darwinGetFirstThread k task) := by
  cases task with
  | none => exact .throw _
  | some task =>
    refine .bind (callKernel_blind _) fun threads => ?_
    rcases threads with _ | _ | ⟨thread, rest⟩
    · exact .throw _
    · exact .throw _
    · exact .pure thread

theorem addProcess_blind (pid : Int) : Blind u (addProcess k pid) := by
  refine .bind (callKernel_blind _) fun task => ?_
  cases task with
  | none => exact .throw _
  | some task =>
    refine .bind (.modify fun _ => rfl) fun _ => .bind (darwinGetFirstThread_blind _) fun _ => ?_
    exact .modify fun _ => rfl

theorem darwinCreateInferior_blind : Blind u (darwinCreateInferior k) := by
  refine .bind (callKernel_blind _) fun pid => ?_
  cases pid with
  | none => exact .throw _
  | some pid =>
    exact .bind (.modify fun _ => rfl) fun _ => .bind (addProcess_blind pid) fun _ => .pure _

theorem darwinKill_blind : Blind u (darwinKill k) := by
  refine .get_bind (fun _ => rfl) fun s => .ite (.pure _) (.bind derefCurrent_blind fun _ => ?_)
  refine .bind (ptrace_blind _ _ _) fun _ => .bind (.modify fun _ => rfl) fun _ => ?_
  exact .bind (callKernel_blind _) fun _ => .bind (.modify fun _ => rfl) fun _ =>
    clearInferiors_blind

theorem darwinDetach_blind : Blind u (darwinDetach k) := by
  refine .get_bind (fun _ => rfl) fun s => .ite (.pure _) (.bind derefCurrent_blind fun _ => ?_)
  refine .bind (ptrace_blind _ _ _) fun _ => ?_
  exact .bind (.modify fun _ => rfl) fun _ => clearInferiors_blind

theorem darwinThreadAlive_blind (pid : Int) : Blind u (darwinThreadAlive k pid) :=
  .bind (.modify fun _ => rfl) fun _ => callKernel_blind _

theorem darwinSendSignal_blind (signum : Int) : Blind u (darwinSendSignal k signum) :=
  .bind derefCurrent_blind fun _ => .bind (.modify fun _ => rfl) fun _ =>
    .bind (callKernel_blind _) fun _ => .pure _

theorem darwinWait_blind : Blind u (darwinWait k) := by
  have hstopped : ∀ (proc : ThreadInfo) (letter sig : Byte), Blind u (do
      let thread ← darwinGetFirstThread k (← get).currentTask
      modify fun s : Server σ => s.assignThread proc.node fun t => { t with port := thread }
      modify fun s => { s with status := letter }
      return sig) := by
    intro proc letter sig
    refine .get_bind (fun _ => rfl) fun s => .bind (darwinGetFirstThread_blind _) fun _ => ?_
    exact .bind (.modify fun _ => rfl) fun _ => .bind (.modify fun _ => rfl) fun _ => .pure _
  refine .bind derefCurrent_blind fun proc => .bind (callKernel_blind _) fun result => ?_
  cases result with
  | failed => exact .throw _
  | exited code => exact .bind (.modify fun _ => rfl) fun _ => .pure _
  | signaled sig => exact .bind (.modify fun _ => rfl) fun _ => .pure _
  | stopped sig => exact hstopped proc _ _
  | unknown => exact hstopped proc _ _

theorem mywait_blind (connectedWait : Bool) : Blind u (mywait k connectedWait) := by
  cases connectedWait with
  | false =>
    exact .bind (.modify fun _ => rfl) fun _ => .bind darwinWait_blind fun _ => .modify fun _ => rfl
  | true =>
    refine .bind (.modify fun _ => rfl) fun _ => .bind (.modify fun _ => rfl) fun _ =>
      .bind darwinWait_blind fun _ => ?_
    exact .bind (.modify fun _ => rfl) fun _ => .modify fun _ => rfl

theorem startInferior_blind : Blind u (startInferior k) :=
  .bind darwinCreateInferior_blind fun _ => .bind (.modify fun _ => rfl) fun _ => mywait_blind _

theorem darwinFetchRegisters_blind : Blind u (darwinFetchRegisters k) :=
  .bind derefCurrent_blind fun _ => .modify fun _ => rfl

theorem darwinStoreRegisters_blind : Blind u (darwinStoreRegisters k) :=
  .bind derefCurrent_blind fun _ => .modify fun _ => rfl

theorem getRegcache_blind : Blind u (getRegcache k) :=
  .bind derefCurrent_blind fun _ => .ite (.pure _) (.bind darwinFetchRegisters_blind fun _ =>
    .bind (.modify fun _ => rfl) fun _ => derefCurrent_blind)

theorem regcacheInvalidateOne_blind (node : Nat) : Blind u (regcacheInvalidateOne k node) := by
  refine .get_bind (fun _ => rfl) fun s => ?_
  cases s.threadAt node with
  | none => exact .throw _
  | some thread =>
    refine .ite (.get_bind (fun _ => rfl) fun _ => ?_) (.modify fun _ => rfl)
    refine .bind (.modify fun _ => rfl) fun _ => .bind darwinStoreRegisters_blind fun _ => ?_
    exact .bind (.modify fun _ => rfl) fun _ => .modify fun _ => rfl

theorem invalidateEach_blind (nodes : List Nat) : Blind u (invalidateEach k nodes) := by
  induction nodes with
  | nil => exact .pure _
  | cons node rest ih => exact .bind (regcacheInvalidateOne_blind node) fun _ => ih

theorem regcacheInvalidate_blind : Blind u (regcacheInvalidate k) :=
  .get_bind (fun _ => rfl) fun _ => invalidateEach_blind _

theorem regAt_blind (n : Nat) : Blind u (regAt n : Proc (Server σ) _) := by
  unfold regAt
  cases Ppc.regDefs[n]? with
  | none => exact .throw _
  | some r => exact .pure r

theorem collectRegisterAsString_blind (n : Nat) : Blind u (collectRegisterAsString k n) :=
  .bind (regAt_blind n) fun _ => .bind getRegcache_blind fun _ => .pure _

theorem supplyRegister_blind (n : Nat) (value : List Byte) :
    Blind u (supplyRegister n value : Proc (Server σ) Unit) :=
  .bind (regAt_blind n) fun _ => .bind derefCurrent_blind fun _ => .modify fun _ => rfl

theorem darwinResume_blind (info : List ThreadResume) : Blind u (darwinResume k info) := by
  refine .bind derefCurrent_blind fun proc => ?_
  rcases resumeChoice proc.pid info with _ | ⟨step, sig⟩
  · exact .throw _
  · exact .bind regcacheInvalidate_blind fun _ => .bind (ptrace_blind _ _ _) fun _ => .pure _

theorem myresume_blind (step : Bool) (sig : Int) : Blind u (myresume k step sig) :=
  .get_bind (fun _ => rfl) fun _ =>
    .ite (.bind derefCurrent_blind fun _ => darwinResume_blind _) (darwinResume_blind _)

theorem decoded_blind (r : Option α) : Blind u (decoded r : Proc (Server σ) α) := by
  cases r with
  | none => exact .throw _
  | some a => exact .pure a

theorem packet_blind (hu : BesideBuffer u) : Blind u (packet : Proc (Server σ) (List Byte)) :=
  fun s => congrArg (EStateM.Result.ok · (s.updateLink u)) (hu.ownBuf s.link)

theorem reply_blind (hu : BesideBuffer u) (text : List Byte) :
    Blind u (reply text : Proc (Server σ) Unit) := by
  refine .ite (.modify fun s => ?_) (.throw _)
  have hstore := hu.store s.link (text ++ 0 :: s.ownBuf.drop (text.length + 1))
  have hbuf : (u s.link).session.ownBuf = s.ownBuf := hu.ownBuf s.link
  refine congrArg (fun l => { s with link := l }) ?_
  rw [hstore]
  exact congrArg (fun buf : List Byte => { u s.link with
    session := { (u s.link).session with ownBuf := text ++ 0 :: buf.drop (text.length + 1) } }) hbuf

theorem outreg_blind (regno : Nat) : Blind u (outreg k regno) :=
  .bind (collectRegisterAsString_blind _) fun _ => .pure _

theorem outregs_blind (names : List Ppc.RegName) : Blind u (outregs k names) := by
  induction names with
  | nil => exact .pure _
  | cons name names ih => exact .bind (outreg_blind _) fun _ => .bind ih fun _ => .pure _

theorem expediteText_blind : Blind u (expediteText k) :=
  .bind (outregs_blind _) fun _ => .bind derefCurrent_blind fun _ =>
    .bind (.modify fun _ => rfl) fun _ => .pure _

theorem prepareResumeReply_blind (hu : BesideBuffer u) : Blind u (prepareResumeReply k host) :=
  .get_bind (fun _ => rfl) fun _ =>
    .ite (.bind expediteText_blind fun _ => reply_blind hu _) (reply_blind hu _)

theorem reportThread_blind (hu : BesideBuffer u) (node : Nat) :
    Blind u (reportThread node : Proc (Server σ) Unit) := by
  refine .get_bind (fun _ => rfl) fun s => ?_
  cases s.threadAt node with
  | none => exact .throw _
  | some t => exact .bind (reply_blind hu _) fun _ => .modify fun _ => rfl

theorem attachInferior_blind (pid : Int) : Blind u (attachInferior k pid) := by
  have hattach : Blind u (darwinAttach k pid) :=
    .bind (ptrace_blind _ _ _) fun _ =>
      .ite (.bind (addProcess_blind pid) fun _ => .pure _) (.pure _)
  refine .bind hattach fun _ => .ite (.pure _) (.bind (.modify fun _ => rfl) fun _ => ?_)
  exact .bind (mywait_blind false) fun _ => .pure _

theorem runToEntryPoint_blind (ep : Int) : Blind u (runToEntryPoint k ep) :=
  .ite (.pure _) (.bind (withMemory_blind _) fun _ => .bind (myresume_blind false 0) fun _ =>
    .bind (mywait_blind false) fun _ => withMemory_blind _)

theorem prepareInferior_blind (ep pid : Int) : Blind u (prepareInferior k ep pid) :=
  .get_bind (fun _ => rfl) fun _ => .ite
    (.bind (attachInferior_blind pid) fun _ => .ite (.throw _) (.pure _))
    (.bind startInferior_blind fun _ => runToEntryPoint_blind ep)

theorem handleQuery_blind (hu : BesideBuffer u) : Blind u (handleQuery : Proc (Server σ) Unit) := by
  have hreply : ∀ text, Blind u (reply text : Proc (Server σ) Unit) := reply_blind hu
  refine .bind (packet_blind hu) fun buf => ?_
  refine .ite (.get_bind (fun _ => rfl) fun s => ?_) (.ite (hreply _) (.ite (hreply _)
    (.ite (hreply _) (.ite (.get_bind (fun _ => rfl) fun s => ?_)
      (.ite (.get_bind (fun _ => rfl) fun s => ?_) (hreply _))))))
  · cases s.allThreads.head? with
    | none => exact hreply _
    | some t => exact hreply _
  · cases s.allThreads.head? with
    | none => exact .throw _
    | some t => exact reportThread_blind hu t.node
  · cases s.threadPtr with
    | none => exact hreply _
    | some node => exact reportThread_blind hu node

theorem handleSet_blind (hu : BesideBuffer u)
    (mode : ∀ l : Link, u { l with session := { l.session with noAckMode := true } } =
      { u l with session := { (u l).session with noAckMode := true } }) :
    Blind u (handleSet : Proc (Server σ) Unit) := by
  refine .bind (packet_blind hu) fun buf => .ite (.bind (reply_blind hu _) fun _ => ?_)
    (.ite (reply_blind hu _) (reply_blind hu _))
  exact .modify fun s => congrArg (fun l => { s with link := l }) (mode s.link).symm

theorem parseSignalByte_blind (p : List Byte) :
    Blind u (parseSignalByte host p : Proc (Server σ) Nat) :=
  .ite (.pure _) (.throw _)

theorem waitAndReport_blind (hu : BesideBuffer u) :
    Blind u (do mywait k true; prepareResumeReply k host) :=
  .bind (mywait_blind true) fun _ => prepareResumeReply_blind hu

theorem resumeAndReport_blind (hu : BesideBuffer u) (step : Bool) (sig : Nat) :
    Blind u (resumeAndReport k host step sig) :=
  .bind (setDesiredInferior_blind false) fun _ => .bind (myresume_blind step sig) fun _ =>
    waitAndReport_blind hu

/-- `C` and `S`. -/
theorem signalHandler_blind (hu : BesideBuffer u) (step : Bool) : Blind u (do
    let sig ← parseSignalByte host ((← packet).drop 1)
    resumeAndReport k host step sig) :=
  .bind (packet_blind hu) fun _ => .bind (parseSignalByte_blind _) fun _ =>
    resumeAndReport_blind hu step _

theorem handleVCont_blind (hu : BesideBuffer u) : Blind u (handleVCont k host) := by
  refine .bind (packet_blind hu) fun buf => ?_
  cases resumeInfo host buf with
  | none => exact reply_blind hu _
  | some info =>
    refine .bind (.modify fun _ => rfl) fun _ => .bind (setDesiredInferior_blind false) fun _ => ?_
    exact .bind (darwinResume_blind info) fun _ => waitAndReport_blind hu

theorem handleVRequests_blind (hu : BesideBuffer u) : Blind u (handleVRequests k host) :=
  .bind (packet_blind hu) fun _ =>
    .ite (handleVCont_blind hu) (.ite (reply_blind hu _) (reply_blind hu _))

theorem handleHSetThread_blind (hu : BesideBuffer u) :
    Blind u (handleHSetThread : Proc (Server σ) Unit) := by
  have hok : Blind u (writeOk : Proc (Server σ) Unit) := reply_blind hu _
  refine .bind (packet_blind hu) fun _ => .ite (.bind (.modify fun _ => rfl) fun _ =>
    .bind hok fun _ => setDesiredInferior_blind true) ?_
  exact .ite (.bind (.modify fun _ => rfl) fun _ => hok)
    (.ite (.bind (.modify fun _ => rfl) fun _ => hok) (reply_blind hu _))

theorem handlegReadRegs_blind (hu : BesideBuffer u) : Blind u (handlegReadRegs k) :=
  .bind (setDesiredInferior_blind true) fun _ =>
    .bind (.bind getRegcache_blind fun _ => .pure _) fun _ => reply_blind hu _

theorem registersFromString_blind (p : List Byte) : Blind u (registersFromString k p) :=
  .bind getRegcache_blind fun _ => .bind (.modify fun _ => rfl) fun _ => .ite (.pure _) (.throw _)

theorem handleGWriteRegs_blind (hu : BesideBuffer u) : Blind u (handleGWriteRegs k) :=
  .bind (packet_blind hu) fun _ => .bind (setDesiredInferior_blind true) fun _ =>
    .bind (registersFromString_blind _) fun _ => reply_blind hu _

theorem handlepReadReg_blind (hu : BesideBuffer u) : Blind u (handlepReadReg k) :=
  .bind (packet_blind hu) fun _ => .bind (setDesiredInferior_blind true) fun _ =>
    .ite (.bind (collectRegisterAsString_blind _) fun _ => reply_blind hu _) (reply_blind hu _)

theorem handlePWriteReg_blind (hu : BesideBuffer u) :
    Blind u (handlePWriteReg : Proc (Server σ) Unit) :=
  .bind (packet_blind hu) fun _ => .bind (setDesiredInferior_blind true) fun _ =>
    .ite (.bind (regAt_blind _) fun _ => .ite (.throw _)
      (.ite (.bind (supplyRegister_blind _ _) fun _ => reply_blind hu _) (.throw _)))
      (reply_blind hu _)

theorem handlemReadMem_blind (hu : BesideBuffer u) : Blind u (handlemReadMem k) :=
  .bind (packet_blind hu) fun _ => .bind (decoded_blind _) fun _ =>
    .ite (.throw _) (.bind (withMemory_blind _) fun _ => reply_blind hu _)

theorem handleMWriteMem_blind (hu : BesideBuffer u) : Blind u (handleMWriteMem k) :=
  .bind (packet_blind hu) fun _ => .bind (decoded_blind _) fun _ =>
    .ite (.throw _) (.ite (.bind (withMemory_blind _) fun _ =>
      .ite (reply_blind hu _) (reply_blind hu _)) (.throw _))

theorem handleTThreadAlive_blind (hu : BesideBuffer u) : Blind u (handleTThreadAlive k) :=
  .bind (packet_blind hu) fun _ => .bind (darwinThreadAlive_blind _) fun _ =>
    .ite (reply_blind hu _) (reply_blind hu _)

theorem handleZInsertBp_blind (hu : BesideBuffer u) : Blind u (handleZInsertBp k) :=
  .bind (packet_blind hu) fun _ =>
    .ite (.bind (withMemory_blind _) fun _ => reply_blind hu _) (reply_blind hu _)

theorem handlezRemoveBp_blind (hu : BesideBuffer u) : Blind u (handlezRemoveBp k) :=
  .bind (packet_blind hu) fun _ =>
    .ite (.bind (withMemory_blind _) fun _ => reply_blind hu _) (reply_blind hu _)

theorem restart_blind (hu : BesideBuffer u) : Blind u (restart k) :=
  .bind darwinKill_blind fun _ => .bind (reply_blind hu _) fun _ =>
    .bind startInferior_blind fun _ => .pure _

theorem handlekKill_blind (hu : BesideBuffer u) : Blind u (handlekKill k) :=
  .bind darwinKill_blind fun _ => .get_bind (fun _ => rfl) fun _ =>
    .ite (.bind (reply_blind hu _) fun _ => .bind startInferior_blind fun _ => .pure _) (.throw _)

theorem handleRRestart_blind (hu : BesideBuffer u) : Blind u (handleRRestart k) :=
  .get_bind (fun _ => rfl) fun _ =>
    .ite (restart_blind hu) (.bind (reply_blind hu _) fun _ => .pure _)

theorem handleTerminatedInferior_blind (hu : BesideBuffer u) :
    Blind u (handleTerminatedInferior k) :=
  .get_bind (fun _ => rfl) fun _ => .ite (.ite (restart_blind hu) (.throw _)) (.pure _)

/-- Every packet but `D`, and `Q` if the mode matters. -/
theorem dispatch_blind (hu : BesideBuffer u) {c : Char} (notD : c ≠ 'D')
    (set : c = 'Q' → Blind u (handleSet : Proc (Server σ) Unit)) :
    Blind u (dispatch k host c) := by
  have hreturn : ∀ {p : Proc (Server σ) Unit} {b : Bool}, Blind u p →
      Blind u (do p; return b) := fun hp => .bind hp fun _ => .pure _
  unfold dispatch
  split
  · exact hreturn (handleQuery_blind hu)
  · exact hreturn (set rfl)
  · exact hreturn (.modify fun _ => rfl)
  · exact absurd rfl notD
  · exact hreturn (reply_blind hu _)
  · exact hreturn (prepareResumeReply_blind hu)
  · exact hreturn (handleHSetThread_blind hu)
  · exact hreturn (handlegReadRegs_blind hu)
  · exact hreturn (handleGWriteRegs_blind hu)
  · exact hreturn (handlepReadReg_blind hu)
  · exact hreturn (handlePWriteReg_blind hu)
  · exact hreturn (handlemReadMem_blind hu)
  · exact hreturn (handleMWriteMem_blind hu)
  · exact hreturn (signalHandler_blind hu false)
  · exact hreturn (signalHandler_blind hu true)
  · exact hreturn (resumeAndReport_blind hu false 0)
  · exact hreturn (resumeAndReport_blind hu true 0)
  · exact handlekKill_blind hu
  · exact hreturn (handleTThreadAlive_blind hu)
  · exact handleRRestart_blind hu
  · exact hreturn (handleVRequests_blind hu)
  · exact hreturn (handleZInsertBp_blind hu)
  · exact hreturn (handlezRemoveBp_blind hu)
  · exact hreturn (reply_blind hu _)

end Gdbserver
