import OsxGdbserver.HandlerFrames
import OsxGdbserver.StopReplies
import OsxGdbserver.RegisterPackets

/-!
# Listing the threads

The cursor of `handle_query` outlives the packet: `qfThreadInfo` sets it to the head of the
list, and each `qsThreadInfo` goes one thread further. All other functions leave it alone,
whatever they do to `own_buf`.
-/

namespace Gdbserver

open Remote CString Ppc Simulation

variable {σ α : Type} {k : Kernel σ} {host : Signals.Host} {s : Server σ}

/-- `p` assigns nothing to `thread_ptr`. -/
abbrev KeepsCursor (p : Proc (Server σ) α) : Prop := Proc.Keeps Server.threadPtr p

namespace KeepsCursor

theorem onLink (p : Proc Link α) : KeepsCursor (Gdbserver.onLink p : Proc (Server σ) α) :=
  .zoom p fun _ _ => rfl

theorem withMemory (p : Proc (MemBreak.MemState (Darwin.TargetState σ)) α) :
    KeepsCursor (Gdbserver.withMemory p) :=
  withMemory_keeps (fun _ _ _ _ => rfl) p

theorem callKernel (f : σ → α × σ) : KeepsCursor (Gdbserver.callKernel f) :=
  .modifyGet fun _ => rfl

theorem ptrace (request : PtraceRequest) (pid data : Int) :
    KeepsCursor (Gdbserver.ptrace k request pid data) :=
  .bind (.modify fun _ => rfl) fun _ => callKernel _

theorem reply (text : List Byte) : KeepsCursor (Gdbserver.reply text : Proc (Server σ) Unit) :=
  .ite (.modify fun _ => rfl) (.throw _)

theorem setDesiredInferior (useGeneral : Bool) :
    KeepsCursor (Gdbserver.setDesiredInferior useGeneral : Proc (Server σ) Unit) :=
  .modify fun _ => rfl

theorem getRegcache : KeepsCursor (Gdbserver.getRegcache k) := by
  have hfetch : KeepsCursor (darwinFetchRegisters k) :=
    .bind derefCurrent_keeps fun _ => .modify fun _ => rfl
  exact .bind derefCurrent_keeps fun _ => .ite (.pure _) (.bind hfetch fun _ =>
    .bind (.modify fun _ => rfl) fun _ => derefCurrent_keeps)

theorem regcacheInvalidate : KeepsCursor (Gdbserver.regcacheInvalidate k) := by
  have hstore : KeepsCursor (darwinStoreRegisters k) :=
    .bind derefCurrent_keeps fun _ => .modify fun _ => rfl
  have hone : ∀ node, KeepsCursor (regcacheInvalidateOne k node) := by
    intro node
    refine .bind .get fun s => ?_
    cases s.threadAt node with
    | none => exact .throw _
    | some t =>
      refine .ite (.bind .get fun _ => .bind (.modify fun _ => rfl) fun _ => ?_)
        (.modify fun _ => rfl)
      exact .bind hstore fun _ => .bind (.modify fun _ => rfl) fun _ => .modify fun _ => rfl
  have heach : ∀ nodes, KeepsCursor (invalidateEach k nodes) := by
    intro nodes
    induction nodes with
    | nil => exact .pure _
    | cons node rest ih => exact .bind (hone node) fun _ => ih
  exact .bind .get fun _ => heach _

theorem collectRegisterAsString (n : Nat) :
    KeepsCursor (Gdbserver.collectRegisterAsString k n) :=
  .bind (regAt_keeps n) fun _ => .bind getRegcache fun _ => .pure _

theorem prepareResumeReply : KeepsCursor (Gdbserver.prepareResumeReply k host) := by
  have houtregs : ∀ names, KeepsCursor (outregs k names) := by
    intro names
    induction names with
    | nil => exact .pure _
    | cons name names ih =>
      exact .bind (.bind (collectRegisterAsString _) fun _ => .pure _) fun _ =>
        .bind ih fun _ => .pure _
  have hexpedite : KeepsCursor (expediteText k) :=
    .bind (houtregs _) fun _ => .bind derefCurrent_keeps fun _ =>
      .bind (.modify fun _ => rfl) fun _ => .pure _
  exact .bind .get fun _ => .ite (.bind hexpedite fun _ => reply _) (reply _)

theorem darwinGetFirstThread (task : Option Port) :
    KeepsCursor (Gdbserver.darwinGetFirstThread k task) := by
  cases task with
  | none => exact .throw _
  | some task =>
    refine .bind (callKernel _) fun threads => ?_
    rcases threads with _ | _ | ⟨thread, rest⟩
    · exact .throw _
    · exact .throw _
    · exact .pure thread

theorem mywait (connectedWait : Bool) : KeepsCursor (Gdbserver.mywait k connectedWait) := by
  have hstopped : ∀ (proc : ThreadInfo) (letter sig : Byte), KeepsCursor (do
      let thread ← Gdbserver.darwinGetFirstThread k (← get).currentTask
      modify fun s : Server σ => s.assignThread proc.node fun t => { t with port := thread }
      modify fun s => { s with status := letter }
      return sig) := fun _ _ _ =>
    .bind .get fun _ => .bind (darwinGetFirstThread _) fun _ =>
      .bind (.modify fun _ => rfl) fun _ => .bind (.modify fun _ => rfl) fun _ => .pure _
  have hwait : KeepsCursor (darwinWait k) := by
    refine .bind derefCurrent_keeps fun proc => .bind (callKernel _) fun result => ?_
    cases result with
    | failed => exact .throw _
    | exited code => exact .bind (.modify fun _ => rfl) fun _ => .pure _
    | signaled sig => exact .bind (.modify fun _ => rfl) fun _ => .pure _
    | stopped sig => exact hstopped proc _ _
    | unknown => exact hstopped proc _ _
  have hafter : KeepsCursor (do
      modify fun s => s.record (.wait s.currentPid connectedWait s.serverWaiting s.sigio)
      let ret ← darwinWait k
      if connectedWait then
        modify fun s => { s with serverWaiting := false }
      modify fun s => { s with sig := ret }) :=
    .bind (.modify fun _ => rfl) fun _ => .bind hwait fun _ =>
      .ite (.bind (.modify fun _ => rfl) fun _ => .modify fun _ => rfl) (.modify fun _ => rfl)
  exact .ite (.bind (.modify fun _ => rfl) fun _ => hafter) hafter

theorem darwinResume (info : List ThreadResume) : KeepsCursor (Gdbserver.darwinResume k info) := by
  refine .bind derefCurrent_keeps fun proc => ?_
  cases resumeChoice proc.pid info with
  | none => exact .throw _
  | some choice => exact .bind regcacheInvalidate fun _ => .bind (ptrace _ _ _) fun _ => .pure _

theorem waitAndReport :
    KeepsCursor (do Gdbserver.mywait k true; Gdbserver.prepareResumeReply k host) :=
  .bind (mywait true) fun _ => prepareResumeReply

theorem resumeAndReport (step : Bool) (sig : Nat) :
    KeepsCursor (Gdbserver.resumeAndReport k host step sig) := by
  have hresume : KeepsCursor (myresume k step sig) :=
    .bind .get fun _ => .ite (.bind derefCurrent_keeps fun _ => darwinResume _) (darwinResume _)
  exact .bind (setDesiredInferior false) fun _ => .bind hresume fun _ => waitAndReport

theorem parseSignalByte (p : List Byte) :
    KeepsCursor (Gdbserver.parseSignalByte host p : Proc (Server σ) Nat) :=
  .ite (.pure _) (.throw _)

theorem handleVCont : KeepsCursor (Gdbserver.handleVCont k host) := by
  refine .bind packet_keeps fun buf => ?_
  cases resumeInfo host buf with
  | none => exact reply _
  | some info =>
    exact .bind (.modify fun _ => rfl) fun _ => .bind (setDesiredInferior false) fun _ =>
      .bind (darwinResume _) fun _ => waitAndReport

theorem darwinKill : KeepsCursor (Gdbserver.darwinKill k) :=
  .bind .get fun _ => .ite (.pure _) (.bind derefCurrent_keeps fun _ => .bind (ptrace _ _ _)
    fun _ => .bind (.modify fun _ => rfl) fun _ => .bind (callKernel _) fun _ =>
      .bind (.modify fun _ => rfl) fun _ => .modify fun _ => rfl)

theorem darwinDetach : KeepsCursor (Gdbserver.darwinDetach k) :=
  .bind .get fun _ => .ite (.pure _) (.bind derefCurrent_keeps fun _ => .bind (ptrace _ _ _)
    fun _ => .bind (.modify fun _ => rfl) fun _ => .modify fun _ => rfl)

theorem startInferior : KeepsCursor (Gdbserver.startInferior k) := by
  have hadd : ∀ pid, KeepsCursor (addProcess k pid) := by
    intro pid
    refine .bind (callKernel _) fun result => ?_
    cases result with
    | none => exact .throw _
    | some task =>
      exact .bind (.modify fun _ => rfl) fun _ => .bind (darwinGetFirstThread _) fun _ =>
        .modify fun _ => rfl
  have hcreate : KeepsCursor (darwinCreateInferior k) := by
    refine .bind (callKernel _) fun result => ?_
    cases result with
    | none => exact .throw _
    | some pid => exact .bind (.modify fun _ => rfl) fun _ => .bind (hadd pid) fun _ => .pure _
  exact .bind hcreate fun _ => .bind (.modify fun _ => rfl) fun _ => mywait false

theorem restart : KeepsCursor (Gdbserver.restart k) :=
  .bind darwinKill fun _ => .bind (reply _) fun _ => .bind startInferior fun _ => .pure _

theorem handleTerminatedInferior : KeepsCursor (Gdbserver.handleTerminatedInferior k) :=
  .bind .get fun _ => .ite (.ite restart (.throw _)) (.pure _)

theorem sendSignal (pid sig : Int) : KeepsCursor (do
    modify fun s : Server σ => s.record (.kill pid sig)
    Gdbserver.callKernel (k.kill pid sig)) :=
  .bind (.modify fun _ => rfl) fun _ => callKernel _

theorem sendFrame (frame : List Byte) (fuel : Nat) :
    KeepsCursor (Gdbserver.sendFrame k host frame fuel) := by
  have hsignal : KeepsCursor (darwinSendSignal k host.sigint) :=
    .bind derefCurrent_keeps fun _ => .bind (.modify fun _ => rfl) fun _ =>
      .bind (callKernel _) fun _ => .pure _
  induction fuel with
  | zero => exact .throw _
  | succ fuel ih =>
    refine .bind (onLink _) fun _ => .ite (.bind .get fun _ => .ite (.pure _) ?_) (.pure _)
    refine .bind (onLink _) fun _ => .ite (.pure _) (.ite (.pure _) ?_)
    exact .ite (.bind hsignal fun _ => ih) ih

theorem putpkt : KeepsCursor (Gdbserver.putpkt k host) :=
  .bind .get fun _ => .bind (.modify fun _ => rfl) fun _ => .ite (sendFrame _ _) (.throw _)

/-- What the packet loop does once the packet is handled. -/
theorem afterPacket (restarted : Bool) : KeepsCursor (if restarted then do
      let _ ← Gdbserver.putpkt k host
    else do
      let _ ← Gdbserver.putpkt k host
      let _ ← Gdbserver.handleTerminatedInferior k) :=
  .ite (.bind putpkt fun _ => .pure _)
    (.bind putpkt fun _ => .bind handleTerminatedInferior fun _ => .pure _)

theorem handleHSetThread : KeepsCursor (Gdbserver.handleHSetThread : Proc (Server σ) Unit) := by
  have hok : KeepsCursor (writeOk : Proc (Server σ) Unit) := reply _
  refine .bind packet_keeps fun _ => .ite (.bind (.modify fun _ => rfl) fun _ =>
    .bind hok fun _ => setDesiredInferior true) ?_
  exact .ite (.bind (.modify fun _ => rfl) fun _ => hok)
    (.ite (.bind (.modify fun _ => rfl) fun _ => hok) (reply _))

theorem handleGWriteRegs : KeepsCursor (Gdbserver.handleGWriteRegs k) := by
  have hstore : ∀ p, KeepsCursor (registersFromString k p) := fun p =>
    .bind getRegcache fun _ => .bind (.modify fun _ => rfl) fun _ => .ite (.pure _) (.throw _)
  exact .bind packet_keeps fun _ => .bind (setDesiredInferior true) fun _ =>
    .bind (hstore _) fun _ => reply _

theorem handlePWriteReg : KeepsCursor (Gdbserver.handlePWriteReg : Proc (Server σ) Unit) := by
  have hsupply : ∀ n value, KeepsCursor (supplyRegister n value : Proc (Server σ) Unit) :=
    fun n _ => .bind (regAt_keeps n) fun _ => .bind derefCurrent_keeps fun _ =>
      .modify fun _ => rfl
  exact .bind packet_keeps fun _ => .bind (setDesiredInferior true) fun _ =>
    .ite (.bind (regAt_keeps _) fun _ => .ite (.throw _)
      (.ite (.bind (hsupply _ _) fun _ => reply _) (.throw _))) (reply _)

theorem handleMWriteMem : KeepsCursor (Gdbserver.handleMWriteMem k) :=
  .bind packet_keeps fun _ => .bind (decoded_keeps _) fun _ => .ite (.throw _)
    (.ite (.bind (withMemory _) fun _ => .ite (reply _) (reply _)) (.throw _))

theorem handleDDetach : KeepsCursor (Gdbserver.handleDDetach k host) := by
  have hclose : KeepsCursor (remoteClose : Proc (Server σ) Unit) := .modify fun _ => rfl
  exact .bind darwinDetach fun _ => .bind (reply _) fun _ => .bind putpkt fun _ =>
    .bind hclose fun _ => .bind .get fun _ =>
      .ite (.bind (.modify fun _ => rfl) fun _ => .bind (callKernel _) fun _ => .throw _) (.throw _)

/-- A branch of the `switch` with no value of its own. -/
theorem thenFalse {p : Proc (Server σ) Unit} (h : KeepsCursor p) :
    KeepsCursor (do p; return false : Proc (Server σ) Bool) := .bind h fun _ => .pure _

/-- Every packet but a query. -/
theorem dispatch {c : Char} (hq : c ≠ 'q') : KeepsCursor (Gdbserver.dispatch k host c) := by
  unfold Gdbserver.dispatch
  split
  · exact absurd rfl hq
  · exact thenFalse (.bind packet_keeps fun _ =>
      .ite (.bind (reply _) fun _ => .modify fun _ => rfl) (.ite (reply _) (reply _)))
  · exact thenFalse (.modify fun _ => rfl)
  · exact thenFalse handleDDetach
  · exact thenFalse (reply _)
  · exact thenFalse prepareResumeReply
  · exact thenFalse handleHSetThread
  · exact thenFalse (.bind (setDesiredInferior true) fun _ =>
      .bind (.bind getRegcache fun _ => .pure _) fun _ => reply _)
  · exact thenFalse handleGWriteRegs
  · exact thenFalse (.bind packet_keeps fun _ => .bind (setDesiredInferior true) fun _ =>
      .ite (.bind (collectRegisterAsString _) fun _ => reply _) (reply _))
  · exact thenFalse handlePWriteReg
  · exact thenFalse (.bind packet_keeps fun _ => .bind (decoded_keeps _) fun _ =>
      .ite (.throw _) (.bind (withMemory _) fun _ => reply _))
  · exact thenFalse handleMWriteMem
  · exact thenFalse (.bind packet_keeps fun _ => .bind (parseSignalByte _) fun _ =>
      resumeAndReport _ _)
  · exact thenFalse (.bind packet_keeps fun _ => .bind (parseSignalByte _) fun _ =>
      resumeAndReport _ _)
  · exact thenFalse (resumeAndReport _ _)
  · exact thenFalse (resumeAndReport _ _)
  · exact .bind darwinKill fun _ => .bind .get fun _ =>
      .ite (.bind (reply _) fun _ => .bind startInferior fun _ => .pure _) (.throw _)
  · exact thenFalse (.bind packet_keeps fun _ => .bind (sendSignal _ _) fun _ =>
      .ite (reply _) (reply _))
  · exact .bind .get fun _ => .ite restart (.bind (reply _) fun _ => .pure _)
  · exact thenFalse (.bind packet_keeps fun _ => .ite handleVCont (.ite (reply _) (reply _)))
  · exact thenFalse (.bind packet_keeps fun _ =>
      .ite (.bind (withMemory _) fun _ => reply _) (reply _))
  · exact thenFalse (.bind packet_keeps fun _ =>
      .ite (.bind (withMemory _) fun _ => reply _) (reply _))
  · exact thenFalse (reply _)

end KeepsCursor

/-- Each thread of the list with its id. -/
def Server.roster (s : Server σ) : List (Nat × Int) := s.allThreads.map fun t => (t.node, t.id)

/-- The packet `body` is served. The reply is what `putpkt` is called with, if the handler
returns. -/
def serveStep (k : Kernel σ) (host : Signals.Host) (s : Server σ) (body : List Byte) :
    (List Byte × Option (List Byte)) × Server σ :=
  let handled := (handlePacket k host).run (s.withText body)
  let reply := (Proc.value handled).map fun _ => cstr (Proc.final handled).ownBuf
  ((body, reply), Proc.final ((servePacket k host).run (s.withText body)))

/-- The reply for the thread at index `i` of the list. -/
def threadInfo (roster : List (Nat × Int)) (i : Nat) : List Byte :=
  match roster[i]? with
  | some p => ch 'm' :: hexText p.2
  | none => ascii "l"

theorem cstr_threadReply (id : Int) :
    cstr (s.withText (ch 'm' :: hexText id)).ownBuf = ch 'm' :: hexText id := by
  apply cstr_withText
  intro hmem
  rcases List.mem_cons.mp hmem with hm | hdigit
  · exact absurd hm (by decide)
  · exact absurd (isHexDigit_hexText hdigit) (by decide)

theorem threadAt_of_getElem (nodup : (s.allThreads.map ThreadInfo.node).Nodup) {i : Nat}
    {t : ThreadInfo} (h : s.allThreads[i]? = some t) : s.threadAt t.node = some t :=
  threadAt_of_mem nodup (List.mem_of_getElem? h)

/-- `next` of the thread at index `i`. -/
theorem nextThreadOf_getElem (nodup : (s.allThreads.map ThreadInfo.node).Nodup) {i : Nat}
    {t : ThreadInfo} (h : s.allThreads[i]? = some t) :
    s.nextThreadOf t.node = (s.allThreads[i + 1]?).map ThreadInfo.node := by
  have hdrop : ∀ {threads : List ThreadInfo} {i : Nat}, (threads.map ThreadInfo.node).Nodup →
      threads[i]? = some t → threads.dropWhile (fun u => u.node ≠ t.node) = threads.drop i := by
    intro threads
    induction threads with
    | nil => simp
    | cons u rest ih =>
      intro i nodup h
      rw [List.map_cons, List.nodup_cons] at nodup
      cases i with
      | zero =>
        obtain rfl := Option.some.inj h
        simp
      | succ i =>
        rw [List.getElem?_cons_succ] at h
        have hne : u.node ≠ t.node := by
          intro heq
          exact nodup.1 (heq ▸ List.mem_map_of_mem (List.mem_of_getElem? h))
        rw [List.drop_succ_cons, ← ih nodup.2 h]
        simp [hne]
  rw [Server.nextThreadOf, hdrop nodup h, List.tail_drop, List.head?_drop]

/-- The thread at index `i` is reported, and the cursor moves on. -/
theorem reportThread_getElem (nodup : (s.allThreads.map ThreadInfo.node).Nodup) {i : Nat}
    {t : ThreadInfo} (h : s.allThreads[i]? = some t) :
    (reportThread t.node).run s = .ok ()
      { s.withText (ch 'm' :: hexText t.id) with
        threadPtr := (s.allThreads[i + 1]?).map ThreadInfo.node } := by
  have hlen : (ch 'm' :: hexText t.id).length < pbufsiz := by
    have hhex := hexText_length t.id
    simp only [List.length_cons, pbufsiz]
    omega
  have hnext : (s.withText (ch 'm' :: hexText t.id)).nextThreadOf t.node =
      (s.allThreads[i + 1]?).map ThreadInfo.node := nextThreadOf_getElem nodup h
  simp only [reportThread, EStateM.run_bind, EStateM.run_get, threadAt_of_getElem nodup h,
    reply_run hlen, EStateM.run_modify, hnext]

theorem serveStep_threadPtr (s : Server σ) (body : List Byte) :
    (serveStep k host s body).2.threadPtr =
      (Proc.final ((handlePacket k host).run (s.withText body))).threadPtr :=
  Proc.Keeps.final_bind (fun b => KeepsCursor.afterPacket b) (s.withText body)

/-- A query whose handler returns. -/
theorem serveStep_query (k : Kernel σ) (host : Signals.Host) {body : List Byte} {s' : Server σ}
    (hc : command (s.withText body) = 'q')
    (run : handleQuery.run (s.withText body) = .ok () s') :
    (serveStep k host s body).1 = (body, some (cstr s'.ownBuf)) ∧
      (serveStep k host s body).2.threadPtr = s'.threadPtr := by
  have hhandle : (handlePacket k host).run (s.withText body) = .ok false s' := by
    rw [handlePacket_run, hc]
    simp only [dispatch, EStateM.run_bind, run, EStateM.run_pure]
  constructor
  · simp only [serveStep, hhandle, Proc.value_ok, Proc.final_ok, Option.map_some]
  · rw [serveStep_threadPtr, hhandle, Proc.final_ok]

theorem ownBuf_of_cstr {text : List Byte} (h : cstr s.ownBuf = text) :
    ∃ rest, s.ownBuf = text ++ rest := by
  obtain ⟨rest, hrest⟩ := List.takeWhile_prefix (l := s.ownBuf) fun c : Byte => decide (c ≠ 0)
  exact ⟨rest, by rw [← h]; exact hrest.symm⟩

/-- What `handle_query` compares `own_buf` with before it comes to the threads. -/
theorem handleQuery_threads {text : List Byte} (h : cstr s.ownBuf = text)
    (hC : text ≠ ascii "qC") (hAttached : text ≠ ascii "qAttached")
    (hSymbol : text ≠ ascii "qSymbol::")
    (hSupported : ∀ rest, (ascii "qSupported").isPrefixOf (text ++ rest) = false) :
    handleQuery.run s = (if text = ascii "qfThreadInfo" then
        match s.allThreads.head? with
        | some t => reportThread t.node
        | none => throw (.fault "thread_ptr")
      else if text = ascii "qsThreadInfo" then
        match s.threadPtr with
        | some node => reportThread node
        | none => reply (ascii "l")
      else reply [] : Proc (Server σ) Unit).run s := by
  obtain ⟨rest, hbuf⟩ := ownBuf_of_cstr h
  have hnot : ¬ (ascii "qSupported").isPrefixOf s.ownBuf = true := by
    rw [hbuf, hSupported]
    exact Bool.false_ne_true
  simp only [handleQuery, EStateM.run_bind, packet_run, h, if_neg hC, if_neg hnot,
    if_neg hAttached, if_neg hSymbol]
  split
  · rfl
  · split <;> rfl

theorem handleQuery_first (h : cstr s.ownBuf = ascii "qfThreadInfo") {t : ThreadInfo}
    (head : s.allThreads.head? = some t) : handleQuery.run s = (reportThread t.node).run s := by
  rw [handleQuery_threads h (by decide) (by decide) (by decide) fun _ => rfl, if_pos rfl, head]

theorem handleQuery_next (h : cstr s.ownBuf = ascii "qsThreadInfo") :
    handleQuery.run s = (match s.threadPtr with
      | some node => reportThread node
      | none => reply (ascii "l") : Proc (Server σ) Unit).run s := by
  rw [handleQuery_threads h (by decide) (by decide) (by decide) fun _ => rfl,
    if_neg (by decide), if_pos rfl]

theorem command_query {text : List Byte} (h : cstr s.ownBuf = ch 'q' :: text) :
    command s = 'q' := by
  obtain ⟨rest, hbuf⟩ := ownBuf_of_cstr h
  rw [command, hbuf]
  rfl

theorem cstr_served (s : Server σ) (body : List Byte) :
    cstr (s.withText body).ownBuf = cstr body := cstr_stored body _

/-- The cursor stands at index `i` of the list. -/
def CursorAt (i : Nat) (s : Server σ) : Prop := s.threadPtr = (s.allThreads[i]?).map ThreadInfo.node

theorem threadInfo_some {i : Nat} {t : ThreadInfo} (h : s.allThreads[i]? = some t) :
    threadInfo s.roster i = ch 'm' :: hexText t.id := by
  simp [threadInfo, Server.roster, h]

theorem threadInfo_none {i : Nat} (h : s.allThreads[i]? = none) :
    threadInfo s.roster i = ascii "l" := by
  rw [threadInfo, Server.roster, List.getElem?_map, h]
  rfl

/-- A turn in which the thread at index `i` is reported. -/
theorem serveStep_reported {body : List Byte} {i : Nat} {t : ThreadInfo}
    (nodup : (s.allThreads.map ThreadInfo.node).Nodup) (h : s.allThreads[i]? = some t)
    (hc : command (s.withText body) = 'q')
    (run : handleQuery.run (s.withText body) = (reportThread t.node).run (s.withText body)) :
    (serveStep k host s body).1 = (body, some (threadInfo s.roster i)) ∧
      (serveStep k host s body).2.threadPtr = (s.allThreads[i + 1]?).map ThreadInfo.node := by
  have hreport := reportThread_getElem (s := s.withText body) nodup h
  obtain ⟨hreply, hptr⟩ := serveStep_query k host hc (run.trans hreport)
  refine ⟨?_, hptr⟩
  rw [hreply, threadInfo_some h]
  exact congrArg (fun text => (body, some text)) (cstr_threadReply (s := s.withText body) t.id)

theorem serveStep_first (k : Kernel σ) (host : Signals.Host) {body : List Byte}
    (h : cstr body = ascii "qfThreadInfo")
    (nodup : (s.allThreads.map ThreadInfo.node).Nodup) (nonempty : s.allThreads ≠ []) :
    (serveStep k host s body).1 = (body, some (threadInfo s.roster 0)) ∧
      (serveStep k host s body).2.threadPtr = (s.allThreads[1]?).map ThreadInfo.node := by
  have hbuf : cstr (s.withText body).ownBuf = ascii "qfThreadInfo" := (cstr_served s body).trans h
  obtain ⟨t, rest, hthreads⟩ := List.exists_cons_of_ne_nil nonempty
  have hhead : (s.withText body).allThreads.head? = some t := by
    change s.allThreads.head? = some t
    rw [hthreads]
    rfl
  exact serveStep_reported nodup (by simp [hthreads]) (command_query hbuf)
    (handleQuery_first hbuf hhead)

theorem serveStep_next (k : Kernel σ) (host : Signals.Host) {body : List Byte}
    (h : cstr body = ascii "qsThreadInfo")
    (nodup : (s.allThreads.map ThreadInfo.node).Nodup) {i : Nat} (cursor : CursorAt i s) :
    (serveStep k host s body).1 = (body, some (threadInfo s.roster i)) ∧
      (serveStep k host s body).2.threadPtr = (s.allThreads[i + 1]?).map ThreadInfo.node := by
  have hbuf : cstr (s.withText body).ownBuf = ascii "qsThreadInfo" := (cstr_served s body).trans h
  have hquery := handleQuery_next hbuf
  have hptr : (s.withText body).threadPtr = (s.allThreads[i]?).map ThreadInfo.node := cursor
  rw [hptr] at hquery
  cases hi : s.allThreads[i]? with
  | some t =>
    rw [hi] at hquery
    exact serveStep_reported nodup hi (command_query hbuf) hquery
  | none =>
    rw [hi] at hquery
    have hlen : (ascii "l").length < pbufsiz := by decide
    obtain ⟨hreply, hafter⟩ := serveStep_query k host (command_query hbuf)
      (hquery.trans (reply_run hlen))
    have hend : s.allThreads[i + 1]? = none := by
      rw [List.getElem?_eq_none_iff] at hi ⊢
      omega
    constructor
    · rw [hreply, threadInfo_none hi]
      exact congrArg (fun text => (body, some text)) (cstr_withText (by decide))
    · rw [hafter, hend]
      change s.threadPtr = none
      rw [cursor, hi]
      rfl

/-- Every other packet, a query too, leaves the cursor where it is. -/
theorem serveStep_other (k : Kernel σ) (host : Signals.Host) {body : List Byte}
    (first : cstr body ≠ ascii "qfThreadInfo")
    (next : cstr body ≠ ascii "qsThreadInfo") :
    (serveStep k host s body).2.threadPtr = s.threadPtr := by
  rw [serveStep_threadPtr, handlePacket_run]
  by_cases hc : command (s.withText body) = 'q'
  · have hleft : KeepsCursor (if cstr body = ascii "qC" then do
          match (← get).allThreads.head? with
          | some t => reply (ascii "QC" ++ hexText t.id)
          | none => reply []
        else if (ascii "qSupported").isPrefixOf (s.withText body).ownBuf then
          reply (ascii "PacketSize=" ++ hexText (pbufsiz - 1))
        else if cstr body = ascii "qAttached" then reply (ascii "0")
        else if cstr body = ascii "qSymbol::" then reply (ascii "OK")
        else reply [] : Proc (Server σ) Unit) := by
      have hreply := KeepsCursor.reply (σ := σ)
      refine .ite (.bind .get fun s => ?_) (.ite (hreply _) (.ite (hreply _) (.ite (hreply _)
        (hreply _))))
      cases s.allThreads.head? with
      | none => exact hreply _
      | some t => exact hreply _
    rw [hc, show dispatch k host 'q' = do handleQuery; return false from rfl,
      Proc.final_thenReturn]
    simp only [handleQuery, EStateM.run_bind, packet_run, cstr_served, if_neg first, if_neg next]
    exact hleft (s.withText body)
  · exact KeepsCursor.dispatch hc (s.withText body)

/-- The packet leaves the same threads with the same ids, in the same order. -/
def KeepsThreads (k : Kernel σ) (host : Signals.Host) (s : Server σ) (body : List Byte) : Prop :=
  (serveStep k host s body).2.roster = s.roster

instance (s : Server σ) (body : List Byte) : Decidable (KeepsThreads k host s body) :=
  inferInstanceAs (Decidable (_ = _))

def asksNext (body : List Byte) : Bool := cstr body = ascii "qsThreadInfo"

def asksThreads (body : List Byte) : Bool := cstr body = ascii "qfThreadInfo" || asksNext body

/-- The replies to `qfThreadInfo` and `qsThreadInfo` packets. -/
def threadInfoReplies (run : List ((List Byte × Option (List Byte)) × Server σ)) :
    List (Option (List Byte)) :=
  (run.filter fun p => asksThreads p.1.1).map fun p => p.1.2

theorem threadInfoReplies_cons (p : (List Byte × Option (List Byte)) × Server σ)
    (run : List ((List Byte × Option (List Byte)) × Server σ)) :
    threadInfoReplies (p :: run) =
      if asksThreads p.1.1 then p.1.2 :: threadInfoReplies run else threadInfoReplies run := by
  unfold threadInfoReplies
  rw [List.filter_cons]
  split <;> rfl

theorem roster_nodes (s : Server σ) :
    s.roster.map Prod.fst = s.allThreads.map ThreadInfo.node := by
  rw [Server.roster, List.map_map]
  rfl

theorem roster_cursor {s' : Server σ} (same : s'.roster = s.roster) (i : Nat) :
    (s'.allThreads[i]?).map ThreadInfo.node = (s.allThreads[i]?).map ThreadInfo.node := by
  rw [← List.getElem?_map, ← List.getElem?_map, ← roster_nodes, ← roster_nodes, same]

/-- The replies to the `qsThreadInfo` packets of a run, from index `i` on. -/
theorem threadInfoReplies_next {packets : List (List Byte)} {i : Nat}
    (nodup : (s.allThreads.map ThreadInfo.node).Nodup) (cursor : CursorAt i s)
    (once : ∀ p ∈ packets, cstr p ≠ ascii "qfThreadInfo")
    (kept : AllowedRun (KeepsThreads k host) (serveStep k host) s packets) :
    threadInfoReplies (trace (serveStep k host) s packets) =
      (List.range' i (packets.countP asksNext)).map fun j => some (threadInfo s.roster j) := by
  induction packets generalizing s i with
  | nil => rfl
  | cons body rest ih =>
    obtain ⟨hsame, hrest⟩ := kept
    have hfirst : cstr body ≠ ascii "qfThreadInfo" := once body List.mem_cons_self
    have hroster : (serveStep k host s body).2.roster = s.roster := hsame
    have hnodup : ((serveStep k host s body).2.allThreads.map ThreadInfo.node).Nodup := by
      rwa [← roster_nodes, hroster, roster_nodes]
    have honce : ∀ p ∈ rest, cstr p ≠ ascii "qfThreadInfo" := fun p hp =>
      once p (List.mem_cons_of_mem body hp)
    rw [trace, threadInfoReplies_cons]
    by_cases hnext : cstr body = ascii "qsThreadInfo"
    · obtain ⟨hreply, hptr⟩ := serveStep_next k host hnext nodup cursor
      have hcursor : CursorAt (i + 1) (serveStep k host s body).2 :=
        hptr.trans (roster_cursor hroster (i + 1)).symm
      have hasks : asksThreads body = true := by simp [asksThreads, asksNext, hnext]
      have hcount : asksNext body = true := by simp [asksNext, hnext]
      rw [hreply, if_pos hasks, ih hnodup hcursor honce hrest, hroster,
        List.countP_cons_of_pos hcount, List.range'_succ, List.map_cons]
    · have hptr := serveStep_other k host (s := s) hfirst hnext
      have hcursor : CursorAt i (serveStep k host s body).2 :=
        (hptr.trans cursor).trans (roster_cursor hroster i).symm
      have hasks : ¬ asksThreads (serveStep k host s body).1.1 = true := by
        simp [serveStep, asksThreads, asksNext, hfirst, hnext]
      have hcount : ¬ asksNext body = true := by simp [asksNext, hnext]
      rw [if_neg hasks, ih hnodup hcursor honce hrest, hroster,
        List.countP_cons_of_neg hcount]

theorem hexText_injective {a b : Int} (ha : 0 < a ∧ a < 2 ^ 31) (hb : 0 < b ∧ b < 2 ^ 31)
    (h : hexText a = hexText b) : a = b := by
  have ha' : -2 ^ 31 ≤ a := by omega
  have hb' : -2 ^ 31 ≤ b := by omega
  obtain ⟨n, hn, hna⟩ := toInt_hexText ha' ha.2
  obtain ⟨m, hm, hmb⟩ := toInt_hexText hb' hb.2
  rw [h, hm] at hn
  rw [← hna, ← hmb, Option.some.inj hn]

/-- However other packets come between them, `qfThreadInfo` and the `qsThreadInfo` packets
after it are answered with the threads of the list, one after the other, and then with `l`. -/
theorem threads_enumerated {first : List Byte} {packets : List (List Byte)}
    (nodes : (s.allThreads.map ThreadInfo.node).Nodup)
    (ids : (s.allThreads.map ThreadInfo.id).Nodup)
    (positive : ∀ t ∈ s.allThreads, 0 < t.id ∧ t.id < 2 ^ 31) (nonempty : s.allThreads ≠ [])
    (starts : cstr first = ascii "qfThreadInfo")
    (once : ∀ p ∈ packets, cstr p ≠ ascii "qfThreadInfo")
    (kept : AllowedRun (KeepsThreads k host) (serveStep k host) s (first :: packets)) :
    (s.roster.map fun p => ch 'm' :: hexText p.2).Nodup ∧
      threadInfoReplies (trace (serveStep k host) s (first :: packets)) =
        (List.range (1 + packets.countP asksNext)).map fun i => some (threadInfo s.roster i) := by
  constructor
  · rw [Server.roster, List.map_map]
    refine List.Nodup.map_on ?_ (List.Nodup.of_map _ nodes)
    intro t ht u hu heq
    have hid : t.id = u.id :=
      hexText_injective (positive t ht) (positive u hu) (List.cons.inj heq).2
    exact List.inj_on_of_nodup_map ids ht hu hid
  · obtain ⟨hsame, hrest⟩ := kept
    have hroster : (serveStep k host s first).2.roster = s.roster := hsame
    have hnodup : ((serveStep k host s first).2.allThreads.map ThreadInfo.node).Nodup := by
      rwa [← roster_nodes, hroster, roster_nodes]
    obtain ⟨hreply, hptr⟩ := serveStep_first k host starts nodes nonempty
    have hcursor : CursorAt 1 (serveStep k host s first).2 :=
      hptr.trans (roster_cursor hroster 1).symm
    have hasks : asksThreads first = true := by simp [asksThreads, starts]
    rw [trace, threadInfoReplies_cons, hreply, if_pos hasks,
      threadInfoReplies_next hnodup hcursor once hrest, hroster, Nat.add_comm,
      List.range_eq_range', List.range'_succ, List.map_cons]

/-- Two threads, and `qC` and `Hg` packets between the others. -/
theorem threads_enumerated_two :
    let thread (node : Nat) (id : Int) : ThreadInfo :=
      { node := node, id := id, pid := 7, port := 1, regcache := newRegisterCache }
    let s : Server Machine :=
      { initial blankMachine [] with
        allThreads := [thread 0 7, thread 1 26]
        nextThread := 2
        currentInferior := some 0 }
    let packets := ["qC", "qsThreadInfo", "Hg1a", "qsThreadInfo", "qsThreadInfo"].map ascii
    (s.roster.map fun p => ch 'm' :: hexText p.2).Nodup ∧
      threadInfoReplies (trace (serveStep singleThread Signals.darwin) s
          (ascii "qfThreadInfo" :: packets)) =
        [some (ascii "m7"), some (ascii "m1a"), some (ascii "l"), some (ascii "l")] := by
  intro thread s packets
  have starts : cstr (ascii "qfThreadInfo") = ascii "qfThreadInfo" := rfl
  have once : ∀ p ∈ packets, cstr p ≠ ascii "qfThreadInfo" := by decide
  have kept : AllowedRun (KeepsThreads singleThread Signals.darwin)
      (serveStep singleThread Signals.darwin) s (ascii "qfThreadInfo" :: packets) := by
    decide +kernel
  have replies : (List.range (1 + packets.countP asksNext)).map
      (fun i => some (threadInfo s.roster i)) =
        [some (ascii "m7"), some (ascii "m1a"), some (ascii "l"), some (ascii "l")] := by
    decide
  rw [← replies]
  exact threads_enumerated (by simp [s, thread]) (by simp [s, thread]) (by simp [s, thread])
    (by simp [s]) starts once kept

end Gdbserver
