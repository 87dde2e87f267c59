import OsxGdbserver.RemoteUtils

/-!
# Packet handlers and the packet loop

`server.c`. A handler reads the packet in `own_buf` and leaves its reply there. The
packet loop is cut into turns: one call of `getpkt` and what follows it, up to the next.
-/

namespace Gdbserver

open Remote CString

variable {σ : Type} (k : Kernel σ) (host : Signals.Host)

def packet : Proc (Server σ) (List Byte) := do
  return (← get).ownBuf

def startInferior : Proc (Server σ) Unit := do
  let pid ← darwinCreateInferior k
  modify fun s => { s with signalPid := pid }
  mywait k false

def attachInferior (pid : Int) : Proc (Server σ) Int := do
  if (← darwinAttach k pid) ≠ 0 then
    return -1
  else
    modify fun s => { s with signalPid := pid }
    mywait k false
    return 0

/-! ## Queries -/

/-- `thread_ptr->next` -/
def Server.nextThreadOf (s : Server σ) (node : Nat) : Option Nat :=
  ((s.allThreads.dropWhile fun t => t.node ≠ node).tail.head?).map ThreadInfo.node

/-- The reply naming the thread at `thread_ptr`, which then moves on. -/
def reportThread (node : Nat) : Proc (Server σ) Unit := do
  match (← get).threadAt node with
  | none => throw (.fault "thread_ptr")
  | some t =>
    reply (ch 'm' :: hexText t.id)
    modify fun s => { s with threadPtr := s.nextThreadOf node }

def handleQuery : Proc (Server σ) Unit := do
  let buf ← packet
  let text := cstr buf
  if text = ascii "qC" then
    match (← get).allThreads.head? with
    | some t => reply (ascii "QC" ++ hexText t.id)
    | none => reply []
  else if (ascii "qSupported").isPrefixOf buf then
    reply (ascii "PacketSize=" ++ hexText (pbufsiz - 1))
  else if text = ascii "qAttached" then
    reply (ascii "0")
  else if text = ascii "qSymbol::" then
    reply (ascii "OK")
  else if text = ascii "qfThreadInfo" then
    match (← get).allThreads.head? with
    | some t => reportThread t.node
    | none => throw (.fault "thread_ptr")
  else if text = ascii "qsThreadInfo" then
    match (← get).threadPtr with
    | some node => reportThread node
    | none => reply (ascii "l")
  else
    -- `qRcmd,` and unknown queries; this target has no `read_auxv`
    reply []

def handleSet : Proc (Server σ) Unit := do
  let buf ← packet
  if cstr buf = ascii "QStartNoAckMode" then
    writeOk
    modify fun s =>
      { s with
        link := { s.link with session := { s.link.session with noAckMode := true } } }
  else if (ascii "QPassSignals:").isPrefixOf buf then
    writeOk
  else
    reply []

/-! ## Resuming -/

/-- The two-entry array of `myresume`: the current thread, and all others. -/
def myresumeInfo (contThread current : Int) (step : Bool) (sig : Int) : List ThreadResume :=
  let others : ThreadResume :=
    { thread := -1, step := false, sig := 0, leaveStopped := contThread > 0 }
  if step ∨ sig ≠ 0 ∨ contThread > 0 then
    [{ thread := current, step := step, sig := sig, leaveStopped := false }, others]
  else
    [others]

def myresume (step : Bool) (sig : Int) : Proc (Server σ) Unit := do
  let s ← get
  if step ∨ sig ≠ 0 ∨ s.contThread > 0 then
    let thread ← derefCurrent
    darwinResume k (myresumeInfo s.contThread thread.id step sig)
  else
    darwinResume k (myresumeInfo s.contThread 0 step sig)

def parseSignalByte (p : List Byte) : Proc (Server σ) Nat := do
  let (bytes, complete) := convertAsciiToInt p 1
  if complete then
    let sig : Int := (deref bytes).toNat
    return if Signals.targetSignalToHostP host sig then
      Signals.targetSignalToHost host sig % 256 else 0
  else
    throw invalidDigit

/-- What the four handlers of `c`, `C`, `s` and `S` share. -/
def resumeAndReport (step : Bool) (sig : Nat) : Proc (Server σ) Unit := do
  setDesiredInferior false
  myresume k step sig
  mywait k true
  prepareResumeReply k host

def handleCContinueSignal : Proc (Server σ) Unit := do
  let sig ← parseSignalByte host ((← packet).drop 1)
  resumeAndReport k host false sig

def handleSStepSignal : Proc (Server σ) Unit := do
  let sig ← parseSignalByte host ((← packet).drop 1)
  resumeAndReport k host true sig

def handlecContinue : Proc (Server σ) Unit := resumeAndReport k host false 0

def handlesStep : Proc (Server σ) Unit := resumeAndReport k host true 0

/-- The step flag, the host's signal, and the pointer behind them, of the action at `p`. -/
def parseAction (p : List Byte) : Option (Bool × Int × List Byte) :=
  let c := deref p
  if c = ch 's' ∨ c = ch 'c' then some (c = ch 's', 0, p.tail)
  else if c = ch 'S' ∨ c = ch 'C' then
    let (sig, q) := strtol p.tail
    if q.length = p.length then none
    else if Signals.targetSignalToHostP host sig then
      some (c = ch 'S', Signals.targetSignalToHost host sig, q)
    else none
  else none

/-- The parsing loop of `handle_v_cont`: the entries filled in, and the default action;
`none` is `goto err`. Each round moves `p` on, at least once for each unit of `fuel`. -/
def parseActions : Nat → List Byte → List ThreadResume → ThreadResume →
    Option (List ThreadResume × ThreadResume)
  | 0, _, entries, defaultAction => some (entries, defaultAction)
  | fuel + 1, p, entries, defaultAction =>
    if deref p = 0 then some (entries, defaultAction)
    else
      (parseAction host p.tail).bind fun (step, sig, p) =>
        let entry : ThreadResume :=
          { thread := -1, step := step, sig := sig, leaveStopped := false }
        if deref p = 0 then parseActions fuel p entries entry
        else if deref p = ch ':' then
          let (thread, q) := strtol p.tail
          if q.length = p.length then none
          else if deref q ≠ ch ';' ∧ deref q ≠ 0 then none
          else parseActions fuel q (entries ++ [{ entry with thread := thread }]) defaultAction
        else parseActions fuel p entries defaultAction

def stayStopped : ThreadResume := { thread := -1, leaveStopped := true, step := false, sig := 0 }

/-- The array `handle_v_cont` builds from the packet, with its default action last. -/
def resumeInfo (buf : List Byte) : Option (List ThreadResume) :=
  (parseActions host buf.length (buf.drop 5) [] stayStopped).map fun (entries, defaultAction) =>
    entries ++ [defaultAction]

/-- The number of actions as `handle_v_cont` counts them. -/
def countActions (buf : List Byte) : Nat := 1 + (cstr (buf.drop 6)).count (ch ';')

def handleVCont : Proc (Server σ) Unit := do
  let buf ← packet
  match resumeInfo host buf with
  | none => reply []
  | some info =>
    let first := (info.head?.map ThreadResume.thread).getD (-1)
    modify fun s =>
      { s with contThread := if countActions buf = 1 ∧ first ≠ -1 then first else -1 }
    setDesiredInferior false
    darwinResume k info
    mywait k true
    prepareResumeReply k host

def handleVRequests : Proc (Server σ) Unit := do
  let buf ← packet
  if (ascii "vCont;").isPrefixOf buf then
    handleVCont k host
  else if (ascii "vCont?").isPrefixOf buf then
    reply (ascii "vCont;c;C;s;S")
  else
    reply []

/-! ## Registers, memory, threads and breakpoints -/

def handledToggleDebug : Proc (Server σ) Unit :=
  modify fun s => { s with remoteDebug := !s.remoteDebug }

/-- The number at `&buf[2]` goes where `buf[1]` says. -/
def handleHSetThread : Proc (Server σ) Unit := do
  let buf ← packet
  let thread := (strtol (buf.drop 2)).1
  let which := deref (buf.drop 1)
  if which = ch 'g' then
    modify fun s => { s with generalThread := thread }
    writeOk
    setDesiredInferior true
  else if which = ch 'c' then
    modify fun s => { s with contThread := thread }
    writeOk
  else if which = ch 's' then
    modify fun s => { s with stepThread := thread }
    writeOk
  else
    reply []

def handlegReadRegs : Proc (Server σ) Unit := do
  setDesiredInferior true
  reply (← registersToString k)

/-- The bytes decoded before an invalid digit are in the cache when `error` is called. -/
def storeBytes (bytes : List Byte) (t : ThreadInfo) : ThreadInfo :=
  { t with
    regcache :=
      { t.regcache with
        registers := Overlay.memcpy t.regcache.registers 0 bytes
        registers_length := by
          rw [Overlay.memcpy_length]
          exact t.regcache.registers_length } }

def registersFromString (p : List Byte) : Proc (Server σ) Unit := do
  let len := (cstr p).length
  let thread ← getRegcache k
  let (bytes, complete) := convertAsciiToInt p (min len (2 * Ppc.registerBytes) / 2)
  modify fun s =>
    (s.record (.supply thread.node thread.regcache.valid complete 0 bytes)).assignThread
      thread.node (storeBytes bytes)
  if complete then
    pure ()
  else
    throw invalidDigit

def handleGWriteRegs : Proc (Server σ) Unit := do
  let buf ← packet
  setDesiredInferior true
  registersFromString k (buf.drop 1)
  writeOk

def handlepReadReg : Proc (Server σ) Unit := do
  let regno := (strtol ((← packet).drop 1)).1
  setDesiredInferior true
  if regno ≥ 0 then
    reply (← collectRegisterAsString k regno.toNat)
  else
    writeEnn

/-- The size of `regbuf` in `handle_P_write_reg`. -/
def regbufSize : Nat := 16

def handlePWriteReg : Proc (Server σ) Unit := do
  let (regno, regbytes) := strtol ((← packet).drop 1)
  let regbytes := if deref regbytes = ch '=' then regbytes.tail else regbytes
  setDesiredInferior true
  if regno ≥ 0 then
    let r ← regAt regno.toNat
    let (bytes, complete) := convertAsciiToInt regbytes (r.size / 8)
    if bytes.length > regbufSize then
      throw (.fault "regbuf")
    else if complete then
      supplyRegister regno.toNat bytes
      writeOk
    else
      throw invalidDigit
  else
    writeEnn

def handlemReadMem : Proc (Server σ) Unit := do
  let (addr, len) ← decoded (decodeReadPacket ((← packet).drop 1))
  if len > memBufSize then
    throw (.fault "mem_buf")
  else
    let bytes ← withMemory (MemBreak.readInferiorMemory (Darwin.memTarget k) addr len)
    reply (convertIntToAscii bytes)

def handleMWriteMem : Proc (Server σ) Unit := do
  let (addr, _, bytes, complete) ← decoded (decodeWritePacket ((← packet).drop 1))
  if bytes.length > memBufSize then
    throw (.fault "mem_buf")
  else if complete then
    if (← withMemory (MemBreak.writeInferiorMemory (Darwin.memTarget k) addr bytes)) = 0 then
      writeOk
    else
      writeEnn
  else
    throw invalidDigit

def handleTThreadAlive : Proc (Server σ) Unit := do
  if ← darwinThreadAlive k (strtol ((← packet).drop 1)).1 then
    writeOk
  else
    writeEnn

def handleZInsertBp : Proc (Server σ) Unit := do
  let buf ← packet
  if deref (buf.drop 1) = ch '0' then
    let addr : Int := (strtoul (buf.drop 3)).1
    withMemory (MemBreak.setBreakpointAt (Darwin.memTarget k) addr .null)
    writeOk
  else
    reply []

def handlezRemoveBp : Proc (Server σ) Unit := do
  let buf ← packet
  if deref (buf.drop 1) = ch '0' then
    let addr : Int := (strtoul (buf.drop 3)).1
    withMemory (MemBreak.deleteBreakpointAt (Darwin.memTarget k) addr)
    writeOk
  else
    reply []

/-! ## Ending and restarting -/

def remoteClose : Proc (Server σ) Unit :=
  modify fun s =>
    { s with link := { s.link with session := { s.link.session with noAckMode := false } } }

/-- Never returns. -/
def handleDDetach : Proc (Server σ) Unit := do
  darwinDetach k
  writeOk
  let _ ← putpkt k host
  remoteClose
  let s ← get
  if !s.attached then
    modify fun s => s.record (.reap s.signalPid)
    callKernel fun os => ((), k.reap s.signalPid os)
  throw (.exit 0)

/-- What `k`, `R` and the end of the inferior share in extended mode. -/
def restart : Proc (Server σ) Bool := do
  darwinKill k
  writeOk
  startInferior k
  return true

def handlekKill : Proc (Server σ) Bool := do
  darwinKill k
  if (← get).extendedProtocol then
    writeOk
    startInferior k
    return true
  else
    throw (.exit 0)

def handleRRestart : Proc (Server σ) Bool := do
  if (← get).extendedProtocol then
    restart k
  else
    reply []
    return false

def handleTerminatedInferior : Proc (Server σ) Bool := do
  let s ← get
  if s.status = ch 'W' ∨ s.status = ch 'X' then
    if s.extendedProtocol then
      restart k
    else
      throw (.exit 0)
  else
    return false

/-- The `switch` of `handle_packet`: whether the inferior was restarted. -/
def dispatch : Char → Proc (Server σ) Bool
  | 'q' => do handleQuery; return false
  | 'Q' => do handleSet; return false
  | 'd' => do handledToggleDebug; return false
  | 'D' => do handleDDetach k host; return false
  | '!' => do writeOk; return false
  | '?' => do prepareResumeReply k host; return false
  | 'H' => do handleHSetThread; return false
  | 'g' => do handlegReadRegs k; return false
  | 'G' => do handleGWriteRegs k; return false
  | 'p' => do handlepReadReg k; return false
  | 'P' => do handlePWriteReg; return false
  | 'm' => do handlemReadMem k; return false
  | 'M' => do handleMWriteMem k; return false
  | 'C' => do handleCContinueSignal k host; return false
  | 'S' => do handleSStepSignal k host; return false
  | 'c' => do handlecContinue k host; return false
  | 's' => do handlesStep k host; return false
  | 'k' => handlekKill k
  | 'T' => do handleTThreadAlive k; return false
  | 'R' => handleRRestart k
  | 'v' => do handleVRequests k host; return false
  | 'Z' => do handleZInsertBp k; return false
  | 'z' => do handlezRemoveBp k; return false
  | _ => do reply []; return false

def handlePacket : Proc (Server σ) Bool := do
  dispatch k host (Char.ofUInt8 (deref (← packet)))

/-- What `packet_loop` does with a packet that `getpkt` has returned. -/
def servePacket : Proc (Server σ) Unit := do
  if ← handlePacket k host then
    let _ ← putpkt k host
  else
    let _ ← putpkt k host
    let _ ← handleTerminatedInferior k

/-- One turn of `packet_loop`; `false` when the loop ends. -/
def turn : Proc (Server σ) Bool := do
  let len ← onLink getpkt
  if len > 0 then
    servePacket k host
    return true
  else
    return false

/-! ## Start-up -/

/-- `ep` is what `macho_get_entry_point` returned. -/
def runToEntryPoint (ep : Int) : Proc (Server σ) Unit := do
  if ep = 0 then
    return ()
  else
    withMemory (MemBreak.setBreakpointAt (Darwin.memTarget k) ep .null)
    myresume k false 0
    mywait k false
    withMemory (MemBreak.deleteBreakpointAt (Darwin.memTarget k) ep)

def prepareInferior (ep pid : Int) : Proc (Server σ) Unit := do
  if (← get).attached then
    if (← attachInferior k pid) < 0 then
      throw (.error "Attaching not supported on this target")
  else
    startInferior k
    runToEntryPoint k ep

/-- The globals before `main`; `own_buf` holds what `malloc` found there. -/
structure Fresh (s : Server σ) : Prop where
  breakpoints : s.breakpoints = []
  allThreads : s.allThreads = []
  currentInferior : s.currentInferior = none
  threadPtr : s.threadPtr = none
  contThread : s.contThread = 0
  generalThread : s.generalThread = 0
  stepThread : s.stepThread = 0
  extendedProtocol : s.extendedProtocol = false
  currentTask : s.currentTask = none
  noAckMode : s.link.session.noAckMode = false
  bufcnt : s.link.input.bufcnt = 0
  log : s.log = []

/-- The globals as they are before `main`, on the machine `os`, for a client that will send
`chunks`. -/
def initial (os : σ) (chunks : List (List Byte)) : Server σ where
  os := os
  link :=
    { input := { chunks := chunks, failed := false, buf := [], bufp := 0, bufcnt := 0 }
      session := { writes := [], writable := none, noAckMode := false, ownBuf := [] } }
  breakpoints := []
  nextBreakpoint := 0
  allThreads := []
  nextThread := 0
  currentInferior := none
  threadPtr := none
  contThread := 0
  generalThread := 0
  stepThread := 0
  threadFromWait := 0
  oldThreadFromWait := 0
  extendedProtocol := false
  serverWaiting := false
  sigio := .default
  signalPid := 0
  attached := false
  remoteDebug := false
  currentTask := none
  status := 0
  sig := 0
  log := []

theorem fresh_initial (os : σ) (chunks : List (List Byte)) : Fresh (initial os chunks) :=
  ⟨rfl, rfl, rfl, rfl, rfl, rfl, rfl, rfl, rfl, rfl, rfl, rfl⟩

/-- The states in which `packet_loop` calls `getpkt`. A turn that ended in `error` has
jumped back there. -/
inductive Reachable : Server σ → Prop
  | start {s s' : Server σ} (ep pid : Int) (fresh : Fresh s)
      (prepared : (prepareInferior k ep pid).run s = .ok () s') : Reachable s'
  | turn {s s' : Server σ} (before : Reachable s) (again : (turn k host).run s = .ok true s') :
      Reachable s'
  | jump {s s' : Server σ} {message : String} (before : Reachable s)
      (jumped : (turn k host).run s = .error (.error message) s') : Reachable s'

end Gdbserver
