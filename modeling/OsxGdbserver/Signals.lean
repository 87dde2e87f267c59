import OsxGdbserver.Basic

/-!
# Signal numbers

`signals.c`: the protocol's numbers of `enum target_signal` against the numbers of the
host. Which macros the host's headers define, and as what, is a parameter. Darwin has
no realtime signals, so that block is compiled out.
-/

namespace Signals

/-- The macros `signals.c` asks for. An `excX` stands for `_NSIG + EXC_X`. -/
inductive SigMacro
  | sigHup | sigInt | sigQuit | sigIll | sigTrap | sigAbrt | sigEmt | sigFpe
  | sigKill | sigBus | sigSegv | sigSys | sigPipe | sigAlrm | sigTerm | sigUsr1
  | sigUsr2 | sigCld | sigChld | sigPwr | sigWinch | sigUrg | sigIo | sigPoll
  | sigStop | sigTstp | sigCont | sigTtin | sigTtou | sigVtalrm | sigProf | sigXcpu
  | sigXfsz | sigWind | sigPhone | sigLost | sigWaiting | sigCancel | sigLwp | sigDanger
  | sigGrant | sigRetract | sigMsg | sigSound | sigSak | sigPrio | excBadAccess | excBadInstruction
  | excArithmetic | excEmulation | excSoftware | excBreakpoint | sigInfo
  deriving DecidableEq, Repr

open SigMacro

structure Host where
  number : SigMacro → Option Nat
  sigint : Nat
  number_sigint : number sigInt = some sigint
  number_lt : ∀ m n, number m = some n → n < 256

def targetSignal0 : Nat := 0

def targetSignalUnknown : Nat := 143

/-- The comparisons of `target_signal_from_host`, in order. -/
def fromHostTable : List (SigMacro × Nat) :=
  [
    (.sigHup, 1), (.sigInt, 2), (.sigQuit, 3), (.sigIll, 4), (.sigTrap, 5), (.sigAbrt, 6),
    (.sigEmt, 7), (.sigFpe, 8), (.sigKill, 9), (.sigBus, 10), (.sigSegv, 11), (.sigSys, 12),
    (.sigPipe, 13), (.sigAlrm, 14), (.sigTerm, 15), (.sigUsr1, 30), (.sigUsr2, 31), (.sigCld, 20),
    (.sigChld, 20), (.sigPwr, 32), (.sigWinch, 28), (.sigUrg, 16), (.sigIo, 23), (.sigPoll, 33),
    (.sigStop, 17), (.sigTstp, 18), (.sigCont, 19), (.sigTtin, 21), (.sigTtou, 22),
    (.sigVtalrm, 26), (.sigProf, 27), (.sigXcpu, 24), (.sigXfsz, 25), (.sigWind, 34),
    (.sigPhone, 35), (.sigLost, 29), (.sigWaiting, 36), (.sigCancel, 76), (.sigLwp, 37),
    (.sigDanger, 38), (.sigGrant, 39), (.sigRetract, 40), (.sigMsg, 41), (.sigSound, 42),
    (.sigSak, 43), (.sigPrio, 44), (.excBadAccess, 145), (.excBadInstruction, 146),
    (.excArithmetic, 147), (.excEmulation, 148), (.excSoftware, 149), (.excBreakpoint, 150),
    (.sigInfo, 142)]

variable (host : Host)

def targetSignalFromHost (hostsig : Nat) : Nat :=
  if hostsig = 0 then targetSignal0
  else
    match fromHostTable.find? fun e => host.number e.1 = some hostsig with
    | some e => e.2
    | none => targetSignalUnknown

/-- The cases of `do_target_signal_to_host`, where `SIGCHLD` goes before `SIGCLD`. -/
def toHostTable : List (SigMacro × Nat) :=
  (sigChld, 20) :: fromHostTable

/-- The host's number, or `none` where `oursig_ok` is cleared. -/
def doTargetSignalToHost (oursig : Int) : Option Nat :=
  if oursig = targetSignal0 then some 0
  else
    (toHostTable.find? fun e => (e.2 : Int) = oursig ∧ (host.number e.1).isSome).bind fun e =>
      host.number e.1

def targetSignalToHostP (oursig : Int) : Bool := (doTargetSignalToHost host oursig).isSome

def targetSignalToHost (oursig : Int) : Nat := (doTargetSignalToHost host oursig).getD 0

theorem targetSignalToHost_lt (oursig : Int) : targetSignalToHost host oursig < 256 := by
  unfold targetSignalToHost doTargetSignalToHost
  split
  · exact Nat.zero_lt_succ _
  · cases hfind : toHostTable.find? fun e => (e.2 : Int) = oursig ∧ (host.number e.1).isSome with
    | none => exact Nat.zero_lt_succ _
    | some e =>
      cases hnum : host.number e.1 with
      | none => simp [hnum]
      | some n => simpa [hnum] using host.number_lt e.1 n hnum

/-- The protocol's numbers that `target_signal_from_host` gives are at most
`TARGET_EXC_BREAKPOINT`. -/
theorem targetSignalFromHost_lt (hostsig : Nat) : targetSignalFromHost host hostsig < 256 := by
  have table : ∀ e ∈ fromHostTable, e.2 < 256 := by decide
  unfold targetSignalFromHost
  split
  · exact Nat.zero_lt_succ _
  · split
    · rename_i e hfind
      exact table e (List.mem_of_find?_eq_some hfind)
    · decide

/-- The numbers of Darwin's `<signal.h>`. -/
def darwin : Host where
  number
    | sigHup => some 1 | sigInt => some 2 | sigQuit => some 3 | sigIll => some 4
    | sigTrap => some 5 | sigAbrt => some 6 | sigEmt => some 7 | sigFpe => some 8
    | sigKill => some 9 | sigBus => some 10 | sigSegv => some 11 | sigSys => some 12
    | sigPipe => some 13 | sigAlrm => some 14 | sigTerm => some 15 | sigUrg => some 16
    | sigStop => some 17 | sigTstp => some 18 | sigCont => some 19 | sigChld => some 20
    | sigTtin => some 21 | sigTtou => some 22 | sigIo => some 23 | sigXcpu => some 24
    | sigXfsz => some 25 | sigVtalrm => some 26 | sigProf => some 27 | sigWinch => some 28
    | sigInfo => some 29 | sigUsr1 => some 30 | sigUsr2 => some 31
    | _ => none
  sigint := 2
  number_sigint := rfl
  number_lt m n h := by
    cases m <;> simp at h <;> omega

end Signals
