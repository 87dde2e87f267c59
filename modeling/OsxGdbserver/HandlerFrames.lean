import OsxGdbserver.PacketLoop

/-!
# What most packets leave alone

The packets that neither use the registers nor run the inferior change the connection, the
breakpoints, the threads that have been chosen and a few flags. A view of the server that
shows nothing of these is the same after them, and after `getpkt` and `putpkt`.
-/

namespace Gdbserver

open Remote CString

variable {σ α β : Type} {k : Kernel σ} {host : Signals.Host} {v : Server σ → β}

/-- `v` shows nothing that these packets change, those that address memory apart. -/
structure Aside (k : Kernel σ) (v : Server σ → β) : Prop where
  link : ∀ s l, v { s with link := l } = v s
  current : ∀ s node, v { s with currentInferior := node } = v s
  chosen : ∀ s cont general step,
    v { s with contThread := cont, generalThread := general, stepThread := step } = v s
  threadPtr : ∀ s node, v { s with threadPtr := node } = v s
  remoteDebug : ∀ s debug, v { s with remoteDebug := debug } = v s
  sent : ∀ s text, v (s.record (.putpkt text)) = v s
  probed : ∀ s pid, v { s.record (.kill pid 0) with os := (k.kill pid 0 s.os).2 } = v s
  interrupted : ∀ s t sig, s.currentInferior.bind s.threadAt = some t →
    v { s.record (.kill t.pid sig) with os := (k.kill t.pid sig s.os).2 } = v s

/-- Nor what those change. -/
structure Beside (k : Kernel σ) (v : Server σ → β) : Prop extends Aside k v where
  read : ∀ addr len,
    Proc.Keeps v (withMemory (MemBreak.readInferiorMemory (Darwin.memTarget k) addr len))
  written : ∀ addr bytes,
    Proc.Keeps v (withMemory (MemBreak.writeInferiorMemory (Darwin.memTarget k) addr bytes))
  inserted : ∀ addr,
    Proc.Keeps v (withMemory (MemBreak.setBreakpointAt (Darwin.memTarget k) addr .null))
  removed : ∀ addr,
    Proc.Keeps v (withMemory (MemBreak.deleteBreakpointAt (Darwin.memTarget k) addr))

theorem derefCurrent_keeps : Proc.Keeps v (derefCurrent : Proc (Server σ) ThreadInfo) := by
  refine .bind .get fun s => ?_
  cases s.currentInferior.bind s.threadAt with
  | none => exact .throw _
  | some t => exact .pure t

theorem packet_keeps : Proc.Keeps v (packet : Proc (Server σ) (List Byte)) :=
  .bind .get fun _ => .pure _

theorem decoded_keeps (r : Option α) : Proc.Keeps v (decoded r : Proc (Server σ) α) := by
  cases r with
  | none => exact .throw _
  | some a => exact .pure a

theorem regAt_keeps (n : Nat) :
    Proc.Keeps v (regAt n : Proc (Server σ) (Regcache.Reg Ppc.RegName)) := by
  unfold regAt
  cases Ppc.regDefs[n]? with
  | none => exact .throw _
  | some r => exact .pure r

/-- `v` shows neither the breakpoints nor the machine. -/
theorem withMemory_keeps (apart : ∀ s breakpoints next os,
    v { s with breakpoints := breakpoints, nextBreakpoint := next, os := os } = v s)
    (p : Proc (MemBreak.MemState (Darwin.TargetState σ)) α) : Proc.Keeps v (withMemory p) :=
  .bind derefCurrent_keeps fun _ => .zoom p fun _ s => apart s _ _ _

namespace Aside

theorem onLink (hv : Aside k v) (p : Proc Link α) : Proc.Keeps v (Gdbserver.onLink p) :=
  .zoom p fun l s => hv.link s l

theorem reply (hv : Aside k v) (text : List Byte) : Proc.Keeps v (Gdbserver.reply text) :=
  .ite (.modify fun s => hv.link s _) (.throw _)

theorem setDesiredInferior (hv : Aside k v) (useGeneral : Bool) :
    Proc.Keeps v (Gdbserver.setDesiredInferior useGeneral) := .modify fun s => hv.current s _

theorem darwinThreadAlive (hv : Aside k v) (pid : Int) :
    Proc.Keeps v (Gdbserver.darwinThreadAlive k pid) := fun s => hv.probed s pid

theorem darwinSendSignal (hv : Aside k v) (signum : Int) :
    Proc.Keeps v (Gdbserver.darwinSendSignal k signum) := by
  intro s
  cases hcurrent : s.currentInferior.bind s.threadAt with
  | none => simp [Gdbserver.darwinSendSignal, derefCurrent, hcurrent]
  | some t =>
    have hrun : derefCurrent.run s = .ok t s := by simp [derefCurrent, hcurrent]
    have hsent := hv.interrupted s t signum hcurrent
    rw [Gdbserver.darwinSendSignal, EStateM.run_bind, hrun]
    exact hsent

theorem sendFrame (hv : Aside k v) (frame : List Byte) (fuel : Nat) :
    Proc.Keeps v (Gdbserver.sendFrame k host frame fuel) := by
  induction fuel with
  | zero => exact .throw _
  | succ fuel ih =>
    refine .bind (hv.onLink _) fun _ => .ite (.bind .get fun _ => .ite (.pure _) ?_) (.pure _)
    refine .bind (hv.onLink _) fun _ => .ite (.pure _) (.ite (.pure _) ?_)
    exact .ite (.bind (hv.darwinSendSignal _) fun _ => ih) ih

theorem putpkt (hv : Aside k v) : Proc.Keeps v (Gdbserver.putpkt k host) :=
  .bind .get fun _ => .bind (.modify fun s => hv.sent s _) fun _ =>
    .ite (hv.sendFrame _ _) (.throw _)

theorem reportThread (hv : Aside k v) (node : Nat) :
    Proc.Keeps v (Gdbserver.reportThread node) := by
  refine .bind .get fun s => ?_
  cases s.threadAt node with
  | none => exact .throw _
  | some t => exact .bind (hv.reply _) fun _ => .modify fun s => hv.threadPtr s _

theorem handleQuery (hv : Aside k v) : Proc.Keeps v Gdbserver.handleQuery := by
  have hreply := hv.reply
  refine .bind packet_keeps fun buf => ?_
  refine .ite (.bind .get fun s => ?_) (.ite (hreply _) (.ite (hreply _) (.ite (hreply _)
    (.ite (.bind .get fun s => ?_) (.ite (.bind .get fun s => ?_) (hreply _))))))
  · cases s.allThreads.head? with
    | none => exact hreply _
    | some t => exact hreply _
  · cases s.allThreads.head? with
    | none => exact .throw _
    | some t => exact hv.reportThread t.node
  · cases s.threadPtr with
    | none => exact hreply _
    | some node => exact hv.reportThread node

theorem handleSet (hv : Aside k v) : Proc.Keeps v Gdbserver.handleSet :=
  .bind packet_keeps fun _ => .ite (.bind (hv.reply _) fun _ => .modify fun s => hv.link s _)
    (.ite (hv.reply _) (hv.reply _))

theorem handledToggleDebug (hv : Aside k v) : Proc.Keeps v Gdbserver.handledToggleDebug :=
  .modify fun s => hv.remoteDebug s _

theorem handleHSetThread (hv : Aside k v) : Proc.Keeps v Gdbserver.handleHSetThread := by
  have hok : Proc.Keeps v writeOk := hv.reply _
  refine .bind packet_keeps fun _ => .ite (.bind (.modify fun s => hv.chosen s _ _ _) fun _ =>
    .bind hok fun _ => hv.setDesiredInferior true) ?_
  exact .ite (.bind (.modify fun s => hv.chosen s _ _ _) fun _ => hok)
    (.ite (.bind (.modify fun s => hv.chosen s _ _ _) fun _ => hok) (hv.reply _))

theorem handleTThreadAlive (hv : Aside k v) : Proc.Keeps v (Gdbserver.handleTThreadAlive k) :=
  .bind packet_keeps fun _ => .bind (hv.darwinThreadAlive _) fun _ => .ite (hv.reply _) (hv.reply _)

end Aside

namespace Beside

theorem handlemReadMem (hv : Beside k v) : Proc.Keeps v (Gdbserver.handlemReadMem k) :=
  .bind packet_keeps fun _ => .bind (decoded_keeps _) fun _ =>
    .ite (.throw _) (.bind (hv.read _ _) fun _ => hv.reply _)

theorem handleMWriteMem (hv : Beside k v) : Proc.Keeps v (Gdbserver.handleMWriteMem k) :=
  .bind packet_keeps fun _ => .bind (decoded_keeps _) fun _ =>
    .ite (.throw _)
      (.ite (.bind (hv.written _ _) fun _ => .ite (hv.reply _) (hv.reply _)) (.throw _))

theorem handleZInsertBp (hv : Beside k v) : Proc.Keeps v (Gdbserver.handleZInsertBp k) :=
  .bind packet_keeps fun _ => .ite (.bind (hv.inserted _) fun _ => hv.reply _) (hv.reply _)

theorem handlezRemoveBp (hv : Beside k v) : Proc.Keeps v (Gdbserver.handlezRemoveBp k) :=
  .bind packet_keeps fun _ => .ite (.bind (hv.removed _) fun _ => hv.reply _) (hv.reply _)

end Beside

/-- `v` shows neither the threads nor the transfers of their registers. -/
structure AsideRegisters (k : Kernel σ) (v : Server σ → β) : Prop extends Aside k v where
  fetches : ∀ s port registers,
    v { s with os := (DarwinPpc.fetchRegisters k port registers s.os).2 } = v s
  stores : ∀ s port registers,
    v { s with os := DarwinPpc.storeRegisters k port registers s.os } = v s
  assigned : ∀ s node f, v (s.assignThread node f) = v s
  fetched : ∀ s node got registers, v (s.record (.fetch node got registers)) = v s
  stored : ∀ s node set registers, v (s.record (.store node set registers)) = v s
  supplied : ∀ s node valid complete offset bytes,
    v (s.record (.supply node valid complete offset bytes)) = v s
  reported : ∀ s id,
    v { s with threadFromWait := id, generalThread := id, oldThreadFromWait := id } = v s

structure BesideRegisters (k : Kernel σ) (v : Server σ → β) : Prop
    extends Beside k v, AsideRegisters k v

namespace AsideRegisters

theorem getRegcache (hv : AsideRegisters k v) : Proc.Keeps v (Gdbserver.getRegcache k) := by
  have hfetch : Proc.Keeps v (darwinFetchRegisters k) :=
    .bind derefCurrent_keeps fun _ => .modify fun s =>
      (hv.fetches _ _ _).trans ((hv.assigned _ _ _).trans (hv.fetched s _ _ _))
  exact .bind derefCurrent_keeps fun _ => .ite (.pure _) (.bind hfetch fun _ =>
    .bind (.modify fun s => hv.assigned s _ _) fun _ => derefCurrent_keeps)

theorem regcacheInvalidate (hv : AsideRegisters k v) :
    Proc.Keeps v (Gdbserver.regcacheInvalidate k) := by
  have hstore : Proc.Keeps v (darwinStoreRegisters k) :=
    .bind derefCurrent_keeps fun _ => .modify fun s =>
      (hv.stores _ _ _).trans (hv.stored s _ _ _)
  have hone : ∀ node, Proc.Keeps v (regcacheInvalidateOne k node) := by
    intro node
    refine .bind .get fun s => ?_
    cases s.threadAt node with
    | none => exact .throw _
    | some t =>
      refine .ite (.bind .get fun _ => .bind (.modify fun s => hv.current s _) fun _ => ?_)
        (.modify fun s => hv.assigned s _ _)
      exact .bind hstore fun _ => .bind (.modify fun s => hv.current s _) fun _ =>
        .modify fun s => hv.assigned s _ _
  have heach : ∀ nodes, Proc.Keeps v (invalidateEach k nodes) := by
    intro nodes
    induction nodes with
    | nil => exact .pure _
    | cons node rest ih => exact .bind (hone node) fun _ => ih
  exact .bind .get fun _ => heach _

theorem collectRegisterAsString (hv : AsideRegisters k v) (n : Nat) :
    Proc.Keeps v (Gdbserver.collectRegisterAsString k n) :=
  .bind (regAt_keeps n) fun _ => .bind hv.getRegcache fun _ => .pure _

theorem outregs (hv : AsideRegisters k v) (names : List Ppc.RegName) :
    Proc.Keeps v (Gdbserver.outregs k names) := by
  induction names with
  | nil => exact .pure _
  | cons name names ih =>
    exact .bind (.bind (hv.collectRegisterAsString _) fun _ => .pure _) fun _ =>
      .bind ih fun _ => .pure _

theorem prepareResumeReply (hv : AsideRegisters k v) :
    Proc.Keeps v (Gdbserver.prepareResumeReply k host) := by
  have hexpedite : Proc.Keeps v (expediteText k) :=
    .bind (hv.outregs _) fun _ => .bind derefCurrent_keeps fun _ =>
      .bind (.modify fun s => hv.reported s _) fun _ => .pure _
  exact .bind .get fun _ => .ite (.bind hexpedite fun _ => hv.reply _) (hv.reply _)

theorem handlegReadRegs (hv : AsideRegisters k v) :
    Proc.Keeps v (Gdbserver.handlegReadRegs k) :=
  .bind (hv.setDesiredInferior true) fun _ => .bind (.bind hv.getRegcache fun _ => .pure _)
    fun _ => hv.reply _

theorem handleGWriteRegs (hv : AsideRegisters k v) :
    Proc.Keeps v (Gdbserver.handleGWriteRegs k) := by
  have hstore : ∀ p, Proc.Keeps v (registersFromString k p) := fun p =>
    .bind hv.getRegcache fun _ =>
      .bind (.modify fun s => (hv.assigned _ _ _).trans (hv.supplied s _ _ _ _ _)) fun _ =>
        .ite (.pure _) (.throw _)
  exact .bind packet_keeps fun _ => .bind (hv.setDesiredInferior true) fun _ =>
    .bind (hstore _) fun _ => hv.reply _

theorem handlepReadReg (hv : AsideRegisters k v) : Proc.Keeps v (Gdbserver.handlepReadReg k) :=
  .bind packet_keeps fun _ => .bind (hv.setDesiredInferior true) fun _ =>
    .ite (.bind (hv.collectRegisterAsString _) fun _ => hv.reply _) (hv.reply _)

theorem handlePWriteReg (hv : AsideRegisters k v) :
    Proc.Keeps v (Gdbserver.handlePWriteReg : Proc (Server σ) Unit) := by
  have hsupply : ∀ n value, Proc.Keeps v (supplyRegister n value : Proc (Server σ) Unit) :=
    fun n _ => .bind (regAt_keeps n) fun _ => .bind derefCurrent_keeps fun _ =>
      .modify fun s => (hv.assigned _ _ _).trans (hv.supplied s _ _ _ _ _)
  exact .bind packet_keeps fun _ => .bind (hv.setDesiredInferior true) fun _ =>
    .ite (.bind (regAt_keeps _) fun _ => .ite (.throw _)
      (.ite (.bind (hsupply _ _) fun _ => hv.reply _) (.throw _))) (hv.reply _)

/-- Every packet but those that may resume the inferior or end it, or address memory. -/
theorem dispatch (hv : AsideRegisters k v) {c : Char}
    (aside : c ∉ ['C', 'S', 'c', 's', 'v', 'D', 'k', 'R', 'm', 'M', 'Z', 'z']) :
    Proc.Keeps v (Gdbserver.dispatch k host c) := by
  have hreturn : ∀ {p : Proc (Server σ) Unit}, Proc.Keeps v p →
      Proc.Keeps v (do p; return false) := fun hp => .bind hp fun _ => .pure _
  unfold Gdbserver.dispatch
  split
  · exact hreturn hv.handleQuery
  · exact hreturn hv.handleSet
  · exact hreturn hv.handledToggleDebug
  · exact absurd (by simp) aside
  · exact hreturn (hv.reply _)
  · exact hreturn hv.prepareResumeReply
  · exact hreturn hv.handleHSetThread
  · exact hreturn hv.handlegReadRegs
  · exact hreturn hv.handleGWriteRegs
  · exact hreturn hv.handlepReadReg
  · exact hreturn hv.handlePWriteReg
  · exact absurd (by simp) aside
  · exact absurd (by simp) aside
  · exact absurd (by simp) aside
  · exact absurd (by simp) aside
  · exact absurd (by simp) aside
  · exact absurd (by simp) aside
  · exact absurd (by simp) aside
  · exact hreturn hv.handleTThreadAlive
  · exact absurd (by simp) aside
  · exact absurd (by simp) aside
  · exact absurd (by simp) aside
  · exact absurd (by simp) aside
  · exact hreturn (hv.reply _)

end AsideRegisters

namespace BesideRegisters

/-- Every packet but those that may resume the inferior or end it. -/
theorem dispatch (hv : BesideRegisters k v) {c : Char}
    (beside : c ∉ ['C', 'S', 'c', 's', 'v', 'D', 'k', 'R']) :
    Proc.Keeps v (Gdbserver.dispatch k host c) := by
  have hreturn : ∀ {p : Proc (Server σ) Unit}, Proc.Keeps v p →
      Proc.Keeps v (do p; return false) := fun hp => .bind hp fun _ => .pure _
  by_cases hmemory : c ∈ ['m', 'M', 'Z', 'z']
  · simp only [List.mem_cons, List.not_mem_nil, or_false] at hmemory
    rcases hmemory with rfl | rfl | rfl | rfl
    · exact hreturn hv.handlemReadMem
    · exact hreturn hv.handleMWriteMem
    · exact hreturn hv.handleZInsertBp
    · exact hreturn hv.handlezRemoveBp
  · refine hv.toAsideRegisters.dispatch fun hmem => ?_
    rcases List.mem_append.mp (show c ∈ ['C', 'S', 'c', 's', 'v', 'D', 'k', 'R'] ++
      ['m', 'M', 'Z', 'z'] from hmem) with hresumes | haddresses
    · exact beside hresumes
    · exact hmemory haddresses

end BesideRegisters

/-- Nor does `v` show a `ptrace` request, or a wait that is not on behalf of a packet. -/
structure AsideTarget (k : Kernel σ) (v : Server σ → β) : Prop extends AsideRegisters k v where
  requests : ∀ s request pid data, v { s with os := (k.ptrace request pid data s.os).2 } = v s
  waits : ∀ s pid, v { s with os := (k.waitpid pid s.os).2 } = v s
  threads : ∀ s task, v { s with os := (k.taskThreads task s.os).2 } = v s
  ptraced : ∀ s request pid data, v (s.record (.ptrace request pid data s.os)) = v s
  waited : ∀ s, v (s.record (.wait s.currentPid false s.serverWaiting s.sigio)) = v s
  status : ∀ s status, v { s with status := status } = v s
  sig : ∀ s sig, v { s with sig := sig } = v s

/-- Nor the machine. -/
structure BesideTarget (k : Kernel σ) (v : Server σ → β) : Prop
    extends BesideRegisters k v, AsideTarget k v where
  os : ∀ s os, v { s with os := os } = v s
  requests := fun s _ _ _ => os s _
  waits := fun s _ => os s _
  threads := fun s _ => os s _

namespace AsideTarget

theorem ptrace (hv : AsideTarget k v) (request : PtraceRequest) (pid data : Int) :
    Proc.Keeps v (Gdbserver.ptrace k request pid data) :=
  .bind (.modify fun s => hv.ptraced s _ _ _) fun _ => .modifyGet fun s => hv.requests s _ _ _

theorem darwinGetFirstThread (hv : AsideTarget k v) (task : Option Port) :
    Proc.Keeps v (Gdbserver.darwinGetFirstThread k task) := by
  cases task with
  | none => exact .throw _
  | some task =>
    refine .bind (.modifyGet fun s => hv.threads s task) fun threads => ?_
    rcases threads with _ | _ | ⟨thread, rest⟩
    · exact .throw _
    · exact .throw _
    · exact .pure thread

theorem darwinWait (hv : AsideTarget k v) : Proc.Keeps v (Gdbserver.darwinWait k) := by
  have hstopped : ∀ (proc : ThreadInfo) (letter sig : Byte), Proc.Keeps v (do
      let thread ← Gdbserver.darwinGetFirstThread k (← get).currentTask
      modify fun s : Server σ => s.assignThread proc.node fun t => { t with port := thread }
      modify fun s => { s with status := letter }
      return sig) := by
    intro proc letter sig
    refine .bind .get fun s => .bind (hv.darwinGetFirstThread _) fun _ => ?_
    exact .bind (.modify fun s => hv.assigned s _ _) fun _ =>
      .bind (.modify fun s => hv.status s _) fun _ => .pure _
  refine .bind derefCurrent_keeps fun proc =>
    .bind (.modifyGet fun s => hv.waits s proc.pid) fun result => ?_
  cases result with
  | failed => exact .throw _
  | exited code => exact .bind (.modify fun s => hv.status s _) fun _ => .pure _
  | signaled sig => exact .bind (.modify fun s => hv.status s _) fun _ => .pure _
  | stopped sig => exact hstopped proc _ _
  | unknown => exact hstopped proc _ _

theorem mywait (hv : AsideTarget k v) : Proc.Keeps v (Gdbserver.mywait k false) :=
  .bind (.modify fun s => hv.waited s) fun _ => .bind hv.darwinWait fun _ =>
    .modify fun s => hv.sig s _

theorem myresume (hv : AsideTarget k v) (step : Bool) (sig : Int) :
    Proc.Keeps v (Gdbserver.myresume k step sig) := by
  have hdarwin : ∀ info, Proc.Keeps v (darwinResume k info) := by
    intro info
    refine .bind derefCurrent_keeps fun proc => ?_
    cases resumeChoice proc.pid info with
    | none => exact .throw _
    | some choice =>
      exact .bind hv.regcacheInvalidate fun _ => .bind (hv.ptrace _ _ _) fun _ => .pure _
  exact .bind .get fun _ => .ite (.bind derefCurrent_keeps fun _ => hdarwin _) (hdarwin _)

end AsideTarget

namespace BesideTarget

theorem callKernel (hv : BesideTarget k v) (f : σ → α × σ) :
    Proc.Keeps v (Gdbserver.callKernel f) := .modifyGet fun s => hv.os s _

theorem runToEntryPoint (hv : BesideTarget k v) (ep : Int) :
    Proc.Keeps v (Gdbserver.runToEntryPoint k ep) :=
  .ite (.pure _) (.bind (hv.inserted _) fun _ => .bind (hv.myresume _ _) fun _ =>
    .bind hv.mywait fun _ => hv.removed _)

end BesideTarget

end Gdbserver
