import OsxGdbserver.Connection
import OsxGdbserver.Kernel
import OsxGdbserver.Signals
import OsxGdbserver.Lib.CString

/-!
# The server and its target

The global state, and the functions of `inferiors.c`, `regcache.c`, `target.c` and
`darwin-low.c` that act on it. A thread is known by the address `malloc` gave it; the
process information a thread's `target_data` points to is kept with the thread.
-/

namespace Gdbserver

open Overlay Ppc

/-- `registers_valid` and the register bytes. -/
structure RegcacheData where
  valid : Bool
  registers : List Byte
  registers_length : registers.length = registerBytes
  deriving DecidableEq, Repr

structure ThreadInfo where
  node : Nat
  id : Int
  pid : Int
  port : Port
  regcache : RegcacheData
  deriving DecidableEq, Repr

structure ThreadResume where
  thread : Int
  leaveStopped : Bool
  step : Bool
  sig : Int
  deriving DecidableEq, Repr

/-- What `signal(SIGIO, ...)` has last been told. -/
inductive Disposition
  | default | ignored | inputInterrupt
  deriving DecidableEq, Repr

/-- What the outside can see of the server. A `ptrace` request is recorded with the
state in which the machine was when it was made, a call of the target's wait with the process
that it waits for, the argument of `mywait` and what a byte that comes in meanwhile finds. A
`waitpid` that nothing is learned from is `reap`, and `launch` a `fork` that has succeeded. A
register transfer is recorded with the thread's cache, as it is after a fetch and before a
store; what the client supplies, with the valid bit it finds, whether all its digits were good,
and where in the cache it goes. -/
inductive Event (σ : Type)
  | putpkt (reply : List Byte)
  | launch (pid : Int)
  | ptrace (request : PtraceRequest) (pid data : Int) (os : σ)
  | kill (pid sig : Int)
  | wait (pid : Option Int) (connectedWait serverWaiting : Bool) (sigio : Disposition)
  | reap (pid : Int)
  | fetch (node : Nat) (got : DarwinPpc.Flavours) (registers : List Byte)
  | store (node : Nat) (set : DarwinPpc.Flavours) (registers : List Byte)
  | supply (node : Nat) (valid complete : Bool) (offset : Nat) (bytes : List Byte)

structure Server (σ : Type) where
  os : σ
  link : Remote.Link
  breakpoints : List MemBreak.Breakpoint
  nextBreakpoint : Nat
  allThreads : List ThreadInfo
  nextThread : Nat
  currentInferior : Option Nat
  /-- The static `thread_ptr` of `handle_query`. -/
  threadPtr : Option Nat
  contThread : Int
  generalThread : Int
  stepThread : Int
  threadFromWait : Int
  oldThreadFromWait : Int
  extendedProtocol : Bool
  serverWaiting : Bool
  sigio : Disposition
  signalPid : Int
  attached : Bool
  remoteDebug : Bool
  currentTask : Option Port
  status : Byte
  sig : Byte
  /-- Newest first. -/
  log : List (Event σ)

variable {σ : Type}

/-- A character constant. -/
def ch (c : Char) : Byte := c.toUInt8

namespace Server

abbrev ownBuf (s : Server σ) : List Byte := s.link.session.ownBuf

/-- The node at an address, unless it has been freed. -/
def threadAt (s : Server σ) (node : Nat) : Option ThreadInfo :=
  s.allThreads.find? fun t => t.node = node

/-- The process of the current thread. -/
def currentPid (s : Server σ) : Option Int :=
  (s.currentInferior.bind s.threadAt).map ThreadInfo.pid

/-- An assignment through a pointer to a thread. -/
def assignThread (s : Server σ) (node : Nat) (f : ThreadInfo → ThreadInfo) : Server σ :=
  { s with allThreads := s.allThreads.map fun t => if t.node = node then f t else t }

def record (s : Server σ) (e : Event σ) : Server σ := { s with log := e :: s.log }

end Server

def callKernel {α : Type} (f : σ → α × σ) : Proc (Server σ) α :=
  modifyGet fun s =>
    let r := f s.os
    (r.1, { s with os := r.2 })

def onLink {α : Type} (p : Proc Remote.Link α) : Proc (Server σ) α :=
  Proc.zoom Server.link (fun l s => { s with link := l }) p

/-- The thread `current_inferior` points to. -/
def derefCurrent : Proc (Server σ) ThreadInfo := do
  let s ← get
  match s.currentInferior.bind s.threadAt with
  | some t => return t
  | none => throw (.fault "current_inferior")

/-- `error` with the message of `perror_with_name` up to the text of `errno`. -/
def perrorWithName {α : Type} (string : String) : Proc (Server σ) α := throw (.error string)

/-! ## inferiors.c -/

def newRegisterCache : RegcacheData where
  valid := false
  registers := List.replicate registerBytes 0
  registers_length := List.length_replicate

def addThread (threadId : Int) (pid : Int) (port : Port) : Proc (Server σ) Unit :=
  modify fun s =>
    { s with
      allThreads := s.allThreads ++
        [{ node := s.nextThread, id := threadId, pid := pid, port := port,
           regcache := newRegisterCache }]
      nextThread := s.nextThread + 1
      currentInferior := s.currentInferior.or (some s.nextThread) }

/-- The thread is taken out of the list and freed. -/
def removeThread (node : Nat) : Proc (Server σ) Unit := do
  match (← get).threadAt node with
  | none => throw (.fault "thread")
  | some _ =>
    modify fun s => { s with allThreads := s.allThreads.eraseP fun t => t.node = node }

def clearInferiors : Proc (Server σ) Unit := modify fun s => { s with allThreads := [] }

def findInferiorId (threads : List ThreadInfo) (id : Int) : Option ThreadInfo :=
  threads.find? fun t => t.id = id

/-! ## target.c -/

/-- The thread that `set_desired_inferior` makes the current one. -/
def Server.desired (s : Server σ) (useGeneral : Bool) : Option ThreadInfo :=
  let found :=
    if useGeneral then findInferiorId s.allThreads s.generalThread
    else
      let stepping :=
        if s.stepThread > 0 ∧ (s.contThread = 0 ∨ s.contThread = -1) then
          findInferiorId s.allThreads s.stepThread
        else none
      stepping.or (findInferiorId s.allThreads s.contThread)
  found.or s.allThreads.head?

def setDesiredInferior (useGeneral : Bool) : Proc (Server σ) Unit :=
  modify fun s => { s with currentInferior := (s.desired useGeneral).map ThreadInfo.node }

variable (k : Kernel σ)

/-- A function of `mem-break.c`, run on the server's list and target. -/
def withMemory {α : Type} (p : Proc (MemBreak.MemState (Darwin.TargetState σ)) α) :
    Proc (Server σ) α := do
  let t ← derefCurrent
  Proc.zoom
    (fun s =>
      { breakpoints := s.breakpoints
        nextNode := s.nextBreakpoint
        target := { os := s.os, task := s.currentTask, pid := t.pid } })
    (fun m s =>
      { s with
        breakpoints := m.breakpoints
        nextBreakpoint := m.nextNode
        os := m.target.os })
    p

/-! ## darwin-low.c -/

def darwinGetFirstThread (task : Option Port) : Proc (Server σ) Port := do
  match task with
  | none => throw (.error "task_threads failed")
  | some task =>
    match ← callKernel (k.taskThreads task) with
    | some (thread :: _) => return thread
    | _ => throw (.error "task_threads failed")

def ptrace (request : PtraceRequest) (pid data : Int) : Proc (Server σ) Bool := do
  modify fun s => s.record (.ptrace request pid data s.os)
  callKernel (k.ptrace request pid data)

/-- What `darwin_create_inferior` and `darwin_attach` do once the process is there. -/
def addProcess (pid : Int) : Proc (Server σ) Unit := do
  match ← callKernel (k.taskForPid pid) with
  | none => throw (.error "task_for_pid failed")
  | some task =>
    modify fun s => { s with currentTask := some task }
    let thread ← darwinGetFirstThread k (some task)
    addThread pid pid thread

def darwinCreateInferior : Proc (Server σ) Int := do
  match ← callKernel k.forkExec with
  | none => perrorWithName "fork"
  | some pid =>
    modify fun s => s.record (.launch pid)
    addProcess k pid
    return pid

def darwinAttach (pid : Int) : Proc (Server σ) Int := do
  if ← ptrace k .attach pid 0 then
    addProcess k pid
    return 0
  else
    return -1

def darwinKill : Proc (Server σ) Unit := do
  if (← get).currentInferior = none then
    return ()
  else
    let proc ← derefCurrent
    let _ ← ptrace k .kill proc.pid 0
    modify fun s => s.record (.reap proc.pid)
    let _ ← callKernel (k.waitpid proc.pid)
    modify fun s => { s with currentTask := none }
    clearInferiors

def darwinDetach : Proc (Server σ) Unit := do
  if (← get).currentInferior = none then
    return ()
  else
    let proc ← derefCurrent
    let _ ← ptrace k .detach proc.pid 0
    modify fun s => { s with currentTask := none }
    clearInferiors

def darwinThreadAlive (pid : Int) : Proc (Server σ) Bool := do
  modify fun s => s.record (.kill pid 0)
  callKernel (k.kill pid 0)

def darwinSendSignal (signum : Int) : Proc (Server σ) Unit := do
  let proc ← derefCurrent
  modify fun s => s.record (.kill proc.pid signum)
  let _ ← callKernel (k.kill proc.pid signum)

def darwinFetchRegisters : Proc (Server σ) Unit := do
  let proc ← derefCurrent
  modify fun s =>
    let r := DarwinPpc.fetchRegisters k proc.port proc.regcache.registers s.os
    let got := DarwinPpc.fetched k proc.port s.os
    { (s.record (.fetch proc.node got r.1)).assignThread proc.node fun t =>
        { t with
          regcache :=
            { t.regcache with
              registers := r.1
              registers_length := by
                rw [DarwinPpc.fetchRegisters_length]
                exact proc.regcache.registers_length } } with
      os := r.2 }

/-- The caller has seen that the cache is valid, so collecting fetches nothing. -/
def darwinStoreRegisters : Proc (Server σ) Unit := do
  let proc ← derefCurrent
  modify fun s =>
    let set := DarwinPpc.stored k proc.port proc.regcache.registers s.os
    { s.record (.store proc.node set proc.regcache.registers) with
      os := DarwinPpc.storeRegisters k proc.port proc.regcache.registers s.os }

/-! ## regcache.c -/

def setValid (valid : Bool) (t : ThreadInfo) : ThreadInfo :=
  { t with regcache := { t.regcache with valid := valid } }

/-- `get_regcache(current_inferior, 1)`: the thread with its cache filled. -/
def getRegcache : Proc (Server σ) ThreadInfo := do
  let thread ← derefCurrent
  if thread.regcache.valid then
    return thread
  else
    darwinFetchRegisters k
    modify fun s => s.assignThread thread.node (setValid true)
    derefCurrent

def regcacheInvalidateOne (node : Nat) : Proc (Server σ) Unit := do
  match (← get).threadAt node with
  | none => throw (.fault "thread")
  | some thread =>
    if thread.regcache.valid then
      let savedInferior := (← get).currentInferior
      modify fun s => { s with currentInferior := some node }
      darwinStoreRegisters k
      modify fun s => { s with currentInferior := savedInferior }
    modify fun s => s.assignThread node (setValid false)

def invalidateEach : List Nat → Proc (Server σ) Unit
  | [] => pure ()
  | node :: rest => do
    regcacheInvalidateOne k node
    invalidateEach rest

def regcacheInvalidate : Proc (Server σ) Unit := do
  invalidateEach k ((← get).allThreads.map ThreadInfo.node)

/-- An entry of `reg_defs`; the array has no bounds check. -/
def regAt (n : Nat) : Proc (Server σ) (Regcache.Reg RegName) :=
  match regDefs[n]? with
  | some r => pure r
  | none => throw (.fault "reg_defs")

def convertIntToAscii (bytes : List Byte) : List Byte :=
  bytes.flatMap fun b => [Remote.tohex (b.toNat / 16), Remote.tohex (b.toNat % 16)]

def registersToString : Proc (Server σ) (List Byte) := do
  return convertIntToAscii (← getRegcache k).regcache.registers

def collectRegisterAsString (n : Nat) : Proc (Server σ) (List Byte) := do
  let r ← regAt n
  let thread ← getRegcache k
  return convertIntToAscii (Regcache.registerData r thread.regcache.registers)

def supply (r : Regcache.Reg RegName) (value : List Byte) (t : ThreadInfo) : ThreadInfo :=
  { t with
    regcache :=
      { t.regcache with
        registers := Regcache.supplyRegister r value t.regcache.registers
        registers_length := by
          rw [Regcache.supplyRegister_length]
          exact t.regcache.registers_length } }

def supplyRegister (n : Nat) (value : List Byte) : Proc (Server σ) Unit := do
  let r ← regAt n
  let thread ← derefCurrent
  modify fun s =>
    (s.record (.supply thread.node thread.regcache.valid true (r.offset / 8) value)).assignThread
      thread.node (supply r value)

/-! ## Resuming and waiting -/

/-- The scan of the array in `darwin_resume`: the step flag and the signal. -/
def resumeChoice (pid : Int) : List ThreadResume → Option (Bool × Int)
  | [] => none
  | r :: rest =>
    if r.thread = -1 ∨ r.thread = pid then some (r.step, r.sig) else resumeChoice pid rest

def darwinResume (resumeInfo : List ThreadResume) : Proc (Server σ) Unit := do
  let proc ← derefCurrent
  match resumeChoice proc.pid resumeInfo with
  | none => throw (.fault "resume_info")
  | some (step, sig) =>
    regcacheInvalidate k
    let _ ← ptrace k (if step then .step else .continue) proc.pid sig

/-- The status letter goes to `status`; the byte is the value returned. -/
def darwinWait : Proc (Server σ) Byte := do
  let proc ← derefCurrent
  let stopped (letter : Byte) (sig : Byte) : Proc (Server σ) Byte := do
    let thread ← darwinGetFirstThread k (← get).currentTask
    modify fun s => s.assignThread proc.node fun t => { t with port := thread }
    modify fun s => { s with status := letter }
    return sig
  match ← callKernel (k.waitpid proc.pid) with
  | .failed => perrorWithName "waitpid"
  | .exited code =>
    modify fun s => { s with status := ch 'W' }
    return code
  | .signaled sig =>
    modify fun s => { s with status := ch 'X' }
    return sig
  | .stopped sig => stopped (ch 'T') sig
  | .unknown => stopped (ch '?') 0

/-- The result goes to `sig`, as every caller has it. -/
def mywait (connectedWait : Bool) : Proc (Server σ) Unit := do
  if connectedWait then
    modify fun s => { s with serverWaiting := true }
  modify fun s => s.record (.wait s.currentPid connectedWait s.serverWaiting s.sigio)
  let ret ← darwinWait k
  if connectedWait then
    modify fun s => { s with serverWaiting := false }
  modify fun s => { s with sig := ret }

end Gdbserver
