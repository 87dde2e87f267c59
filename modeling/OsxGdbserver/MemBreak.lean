import OsxGdbserver.Basic
import OsxGdbserver.Lib.Overlay
import OsxGdbserver.Lib.Process
import Mathlib.Data.Vector.Basic

/-!
# Memory breakpoints

`mem-break.c` together with the two functions of `target.c` that read and write
inferior memory around the breakpoints. The list is kept newest first. A node of
the list is known by the address `malloc` gave it; addresses are not given twice.
-/

namespace MemBreak

open Overlay

abbrev Memory := Int → Byte

def maxBreakpointLen : Nat := 8

inductive Handler
  | null
  | reinsertBreakpointHandler
  deriving DecidableEq, Repr

structure Breakpoint where
  node : Nat
  pc : Int
  oldData : Vector Byte maxBreakpointLen
  reinserting : Bool
  breakpointToReinsert : Option Nat
  handler : Handler
  deriving DecidableEq, Repr

/-- The memory operations of `struct target_ops` and the trap instruction given to
`set_breakpoint_data`. A state `σ` of the target may hold anything they depend on. -/
structure MemTarget (σ : Type) where
  readMemory : Int → Nat → σ → List Byte × σ
  writeMemory : Int → List Byte → σ → Int × σ
  breakpointData : Option (List Byte)
  readMemory_length : ∀ a n s, (readMemory a n s).1.length = n
  breakpointData_length : (breakpointData.getD []).length ≤ maxBreakpointLen

structure MemState (σ : Type) where
  breakpoints : List Breakpoint
  nextNode : Nat
  target : σ

variable {σ : Type} (t : MemTarget σ)

namespace MemTarget

def trap : List Byte := t.breakpointData.getD []

def breakpointLen : Nat := t.trap.length

end MemTarget

/-- The bytes of `ppc_breakpoint`, the trap instruction of this target. -/
def ppcTrap : List Byte := [0x7f, 0xe0, 0x00, 0x08]

theorem ppcTrap_length : ppcTrap.length ≤ maxBreakpointLen := by decide

/-- The bytes of `old_data` in use. -/
def saved (bp : Breakpoint) : List Byte := bp.oldData.toList.take t.breakpointLen

def readTarget (a : Int) (n : Nat) : Proc (MemState σ) (List Byte) :=
  modifyGet fun s =>
    let r := t.readMemory a n s.target
    (r.1, { s with target := r.2 })

def writeTarget (a : Int) (bytes : List Byte) : Proc (MemState σ) Int :=
  modifyGet fun s =>
    let r := t.writeMemory a bytes s.target
    (r.1, { s with target := r.2 })

def setBreakpointAt (addr : Int) (handler : Handler) : Proc (MemState σ) Unit :=
  match t.breakpointData with
  | none => throw (.error "Target does not support breakpoints.")
  | some data => do
    let old ← readTarget t addr t.breakpointLen
    let _ ← writeTarget t addr data
    modify fun s =>
      { s with
        breakpoints :=
          { node := s.nextNode
            pc := addr
            oldData := copyIn (Vector.replicate maxBreakpointLen 0) 0 old
            reinserting := false
            breakpointToReinsert := none
            handler := handler } :: s.breakpoints
        nextNode := s.nextNode + 1 }

/-- Take the node out of the chain; `none` if it is not in it. -/
def unlink (node : Nat) : List Breakpoint → Option (List Breakpoint)
  | [] => none
  | b :: rest => if b.node = node then some rest else (unlink node rest).map (b :: ·)

def deleteBreakpoint (bp : Breakpoint) : Proc (MemState σ) Unit := do
  let s ← get
  match unlink bp.node s.breakpoints with
  | some rest =>
    set { s with breakpoints := rest }
    let _ ← writeTarget t bp.pc (saved t bp)
  | none => if s.breakpoints = [] then throw (.fault "cur->next")

def findBreakpointAt (addr : Int) (bps : List Breakpoint) : Option Breakpoint :=
  bps.find? fun b => b.pc = addr

def deleteBreakpointAt (addr : Int) : Proc (MemState σ) Unit := do
  match findBreakpointAt addr (← get).breakpoints with
  | some bp => deleteBreakpoint t bp
  | none => pure ()

/-- An assignment through a pointer to a node. -/
def assignNode (node : Nat) (f : Breakpoint → Breakpoint) (bps : List Breakpoint) :
    List Breakpoint :=
  bps.map fun b => if b.node = node then f b else b

def modifyNode (node : Nat) (f : Breakpoint → Breakpoint) : Proc (MemState σ) Unit :=
  modify fun s => { s with breakpoints := assignNode node f s.breakpoints }

def reinsertBreakpointHandler (stopPc : Int) : Proc (MemState σ) Unit := do
  match findBreakpointAt stopPc (← get).breakpoints with
  | none => throw (.error "lost the stopping breakpoint.")
  | some stopBp =>
    match stopBp.breakpointToReinsert with
    | none => throw (.error "no breakpoint to reinsert")
    | some orig =>
      match (← get).breakpoints.find? fun b => b.node = orig with
      | none => throw (.fault "orig_bp")
      | some origBp =>
        let _ ← writeTarget t origBp.pc t.trap
        modifyNode orig fun b => { b with reinserting := false }
        deleteBreakpoint t stopBp

def reinsertBreakpointByBp (stopPc stopAt : Int) : Proc (MemState σ) Unit := do
  setBreakpointAt t stopAt .reinsertBreakpointHandler
  match findBreakpointAt stopPc (← get).breakpoints with
  | none => throw (.error "Could not find original breakpoint in list.")
  | some origBp =>
    match findBreakpointAt stopAt (← get).breakpoints with
    | none =>
      throw (.error "Could not find breakpoint in list (reinserting by breakpoint).")
    | some bp =>
      modifyNode bp.node fun b => { b with breakpointToReinsert := some origBp.node }
      let _ ← writeTarget t origBp.pc (saved t origBp)
      modifyNode origBp.node fun b => { b with reinserting := true }

def uninsertBreakpoint (stoppedAt : Int) : Proc (MemState σ) Unit := do
  match findBreakpointAt stoppedAt (← get).breakpoints with
  | none => throw (.error "Could not find breakpoint in list (uninserting).")
  | some bp =>
    let _ ← writeTarget t bp.pc (saved t bp)
    modifyNode bp.node fun b => { b with reinserting := true }

def reinsertBreakpoint (stoppedAt : Int) : Proc (MemState σ) Unit := do
  match findBreakpointAt stoppedAt (← get).breakpoints with
  | none => throw (.error "Could not find breakpoint in list (uninserting).")
  | some bp =>
    if bp.reinserting then
      let _ ← writeTarget t bp.pc t.trap
      modifyNode bp.node fun b => { b with reinserting := false }
    else
      throw (.error "Breakpoint already inserted at reinsert time.")

def checkBreakpoints (stopPc : Int) : Proc (MemState σ) Int := do
  match findBreakpointAt stopPc (← get).breakpoints with
  | none => return 0
  | some bp =>
    if bp.reinserting then return 0
    else
      match bp.handler with
      | .null => throw (.fault "bp->handler")
      | .reinsertBreakpointHandler =>
        reinsertBreakpointHandler t bp.pc
        return 1

def breakpointInsertedHere (addr : Int) (bps : List Breakpoint) : Bool :=
  match findBreakpointAt addr bps with
  | some bp => !bp.reinserting
  | none => false

structure Clip where
  copyLen : Int
  copyOffset : Int
  bufOffset : Int

/-- The part of the loop body common to `check_mem_read` and `check_mem_write`;
`none` is its `continue`. -/
def clip (bpLen : Nat) (memAddr : Int) (memLen : Nat) (pc : Int) : Option Clip :=
  let memEnd := memAddr + memLen
  let bpEnd := pc + bpLen
  if memAddr ≥ bpEnd then none
  else if pc ≥ memEnd then none
  else
    let start := if memAddr > pc then memAddr else pc
    let stop := if bpEnd > memEnd then memEnd else bpEnd
    some
      { copyLen := toInt (stop - start)
        copyOffset := toInt (start - pc)
        bufOffset := toInt (start - memAddr) }

def checkMemReadOne (memAddr : Int) (buf : List Byte) (bp : Breakpoint) : List Byte :=
  match clip t.breakpointLen memAddr buf.length bp.pc with
  | none => buf
  | some c =>
    memcpy buf c.bufOffset.toNat
      ((bp.oldData.toList.drop c.copyOffset.toNat).take c.copyLen.toNat)

def checkMemRead (memAddr : Int) (buf : List Byte) (bps : List Breakpoint) : List Byte :=
  bps.foldl (checkMemReadOne t memAddr) buf

def checkMemWriteOne (memAddr : Int) (buf : List Byte) (bp : Breakpoint) :
    List Byte × Breakpoint :=
  match clip t.breakpointLen memAddr buf.length bp.pc with
  | none => (buf, bp)
  | some c =>
    let bp' :=
      { bp with
        oldData := copyIn bp.oldData c.copyOffset.toNat
          ((buf.drop c.bufOffset.toNat).take c.copyLen.toNat) }
    if bp.reinserting then (buf, bp')
    else
      (memcpy buf c.bufOffset.toNat
        ((t.trap.drop c.copyOffset.toNat).take c.copyLen.toNat), bp')

def checkMemWrite (memAddr : Int) : List Byte → List Breakpoint →
    List Byte × List Breakpoint
  | buf, [] => (buf, [])
  | buf, bp :: rest =>
    let one := checkMemWriteOne t memAddr buf bp
    let r := checkMemWrite memAddr one.1 rest
    (r.1, one.2 :: r.2)

def readInferiorMemory (memaddr : Int) (len : Nat) : Proc (MemState σ) (List Byte) := do
  let myaddr ← readTarget t memaddr len
  return checkMemRead t memaddr myaddr (← get).breakpoints

def writeInferiorMemory (memaddr : Int) (myaddr : List Byte) :
    Proc (MemState σ) Int := do
  let s ← get
  let r := checkMemWrite t memaddr myaddr s.breakpoints
  set { s with breakpoints := r.2 }
  writeTarget t memaddr r.1

end MemBreak
