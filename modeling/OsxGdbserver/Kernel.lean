import OsxGdbserver.MemBreak
import OsxGdbserver.PpcRegisters

/-!
# The kernel, and what is built on it alone

The calls the server makes to Mach and `ptrace`, as a parameter: each takes the state of
the machine outside the server and gives a result and the state after it. Over it the
register transfers of `darwin-ppc-low.c` and the memory access of `darwin-low.c`.
-/

namespace Gdbserver

open Overlay Ppc

/-- A Mach port name. -/
abbrev Port := Nat

/-- What `waitpid` reports; a call interrupted by a signal has been made again. -/
inductive WaitResult
  | exited (code : Byte)
  | signaled (sig : Byte)
  | stopped (sig : Byte)
  | unknown
  | failed
  deriving DecidableEq, Repr

inductive PtraceRequest
  | attach | detach | kill | step | continue
  deriving DecidableEq, Repr

structure Kernel (σ : Type) where
  /-- `fork`, and in the child `PT_TRACE_ME` and `execv`. -/
  forkExec : σ → Option Int × σ
  /-- Whether the request succeeded. -/
  ptrace : PtraceRequest → Int → Int → σ → Bool × σ
  /-- `PT_READ_D`: the word or `errno`. -/
  readD : Int → Nat → σ → Except Int Word × σ
  /-- `PT_WRITE_D`: `errno`, zero on success. -/
  writeD : Int → Nat → Word → σ → Int × σ
  waitpid : Int → σ → WaitResult × σ
  /-- `waitpid` again and again until the process has ended or is not a child. -/
  reap : Int → σ → σ
  kill : Int → Int → σ → Bool × σ
  taskForPid : Int → σ → Option Port × σ
  taskThreads : Port → σ → Option (List Port) × σ
  vmRead : Port → Nat → Nat → σ → Option (List Byte) × σ
  vmWrite : Port → Nat → List Byte → σ → Bool × σ
  vmProtect : Port → Nat → Nat → σ → Bool × σ
  threadGetState : Port → σ → Option ThreadState × σ
  threadSetState : Port → ThreadState → σ → Bool × σ
  floatGetState : Port → σ → Option FloatState × σ
  floatSetState : Port → FloatState → σ → Bool × σ
  vmRead_length : ∀ task a n os bs, (vmRead task a n os).1 = some bs → bs.length = n

variable {σ : Type} (k : Kernel σ)

namespace DarwinPpc

/-- Of `PPC_THREAD_STATE` and `PPC_FLOAT_STATE`, those whose transfer has succeeded. -/
structure Flavours where
  thread : Bool
  float : Bool
  deriving DecidableEq, Repr

/-- `darwin_ppc_fetch_registers`; a flavour that cannot be read leaves the cache as it is
and ends the transfer. -/
def fetchRegisters (thread : Port) (registers : List Byte) (os : σ) : List Byte × σ :=
  match k.threadGetState thread os with
  | (none, os) => (registers, os)
  | (some state, os) =>
    let registers := supplyAll (threadSupplies state) registers
    match k.floatGetState thread os with
    | (none, os) => (registers, os)
    | (some fstate, os) => (supplyAll (floatSupplies fstate) registers, os)

/-- `darwin_ppc_store_registers`; the float part is tried even if `thread_set_state`
refused the other one. -/
def storeRegisters (thread : Port) (registers : List Byte) (os : σ) : σ :=
  match k.threadGetState thread os with
  | (none, os) => os
  | (some state, os) =>
    let os := (k.threadSetState thread (collectThread registers state) os).2
    match k.floatGetState thread os with
    | (none, os) => os
    | (some fstate, os) => (k.floatSetState thread (collectFloat registers fstate) os).2

/-- The flavours that `darwin_ppc_fetch_registers` gets. -/
def fetched (thread : Port) (os : σ) : Flavours :=
  match k.threadGetState thread os with
  | (none, _) => { thread := false, float := false }
  | (some _, os) => { thread := true, float := (k.floatGetState thread os).1.isSome }

/-- The flavours that `darwin_ppc_store_registers` sets. -/
def stored (thread : Port) (registers : List Byte) (os : σ) : Flavours :=
  match k.threadGetState thread os with
  | (none, _) => { thread := false, float := false }
  | (some state, os) =>
    let (set, os) := k.threadSetState thread (collectThread registers state) os
    match k.floatGetState thread os with
    | (none, _) => { thread := set, float := false }
    | (some fstate, os) =>
      { thread := set, float := (k.floatSetState thread (collectFloat registers fstate) os).1 }

@[simp] theorem fetchRegisters_length (thread : Port) (registers : List Byte) (os : σ) :
    (fetchRegisters k thread registers os).1.length = registers.length := by
  unfold fetchRegisters
  rcases k.threadGetState thread os with ⟨_ | state, os₁⟩
  · rfl
  · dsimp only
    rcases k.floatGetState thread os₁ with ⟨_ | fstate, os₂⟩
    · rw [supplyAll_length]
    · rw [supplyAll_length, supplyAll_length]

/-- Whether the flavour that the register belongs to is among them. -/
def Flavours.has (flavours : Flavours) (name : RegName) : Bool :=
  if name.isFloat then flavours.float else flavours.thread

/-- A flavour that is not got leaves its registers as they are in the cache. -/
theorem collect_fetchRegisters_of_not_got {thread : Port} {registers : List Byte} {os : σ}
    (hlen : registers.length = registerBytes) {name : RegName}
    (hgot : (fetched k thread os).has name = false) :
    collectByName name (fetchRegisters k thread registers os).1 =
      collectByName name registers := by
  unfold fetched at hgot
  unfold fetchRegisters
  rcases hthread : k.threadGetState thread os with ⟨_ | state, os₁⟩
  · rfl
  · rw [hthread] at hgot
    dsimp only at hgot ⊢
    rcases hfloat : k.floatGetState thread os₁ with ⟨_ | fstate, os₂⟩
    · rw [hfloat] at hgot
      have hsupplied := collect_threadSupplies
        { thread := state, float := blankMachine.float } hlen name
      cases hname : name.isFloat with
      | true =>
        simp only [hname, if_true] at hsupplied
        dsimp only
        exact hsupplied
      | false => simp [Flavours.has, hname] at hgot
    · rw [hfloat] at hgot
      simp [Flavours.has] at hgot

/-- After `thread_get_state` has succeeded its registers are in the cache, whatever becomes
of the float part. -/
theorem collect_fetchRegisters {thread : Port} {registers : List Byte} {os : σ}
    {state : ThreadState} (read : (k.threadGetState thread os).1 = some state)
    (hlen : registers.length = registerBytes) {name : RegName} (hname : name.isFloat = false)
    (float : FloatState) :
    collectByName name (fetchRegisters k thread registers os).1 =
      ({ thread := state, float := float } : Machine).get name := by
  have hthread := collect_threadSupplies { thread := state, float := float } hlen name
  simp only [hname, Bool.false_eq_true, if_false] at hthread
  unfold fetchRegisters
  rcases hget : k.threadGetState thread os with ⟨_ | state', os₁⟩
  · rw [hget] at read
    cases read
  · rw [hget, Option.some.injEq] at read
    subst read
    dsimp only
    rcases k.floatGetState thread os₁ with ⟨_ | fstate, os₂⟩
    · dsimp only
      exact hthread
    · have hfloat := collect_floatSupplies { thread := state', float := fstate }
        (show (supplyAll (threadSupplies state') registers).length = registerBytes by
          rw [supplyAll_length, hlen]) name
      simp only [hname, Bool.false_eq_true, if_false] at hfloat
      dsimp only
      exact hfloat.trans hthread

end DarwinPpc

namespace Darwin

/-- The conversion of a `CORE_ADDR` to `vm_address_t` or `caddr_t`. -/
def vmAddress (addr : Int) : Nat := (addr % 2 ^ 32).toNat

def eio : Int := 5

/-- What the memory operations depend on: `current_task`, and the process of
`current_inferior`. -/
structure TargetState (σ : Type) where
  os : σ
  task : Option Port
  pid : Int

/-- The loop over `words` words of `darwin_read_memory`. -/
def ptraceRead (pid : Int) : Nat → Int → Nat → σ → List Byte × σ
  | 0, _, _, os => ([], os)
  | words + 1, memaddr, len, os =>
    let count := min len 4
    let (word, os) := k.readD pid (vmAddress memaddr) os
    let bytes :=
      match word with
      | .ok w => w.toList.take count
      | .error _ => List.replicate count 0
    let (rest, os) := ptraceRead pid words (memaddr + 4) (len - count) os
    (bytes ++ rest, os)

def readMemory (memaddr : Int) (len : Nat) (t : TargetState σ) : List Byte × TargetState σ :=
  match t.task with
  | none => (List.replicate len 0, t)
  | some task =>
    match k.vmRead task (vmAddress memaddr) len t.os with
    | (some data, os) => (data, { t with os := os })
    | (none, os) =>
      let (bytes, os) := ptraceRead k t.pid ((len + 3) / 4) memaddr len os
      (bytes, { t with os := os })

/-- The loop over `words` words of `darwin_write_memory`. -/
def ptraceWrite (pid : Int) : Nat → Int → List Byte → σ → Int × σ
  | 0, _, _, os => (0, os)
  | words + 1, memaddr, bytes, os =>
    let (old, os) :=
      if bytes.length < 4 then k.readD pid (vmAddress memaddr) os
      else (.ok (Vector.replicate 4 0), os)
    match old with
    | .error errno => (errno, os)
    | .ok old =>
      match k.writeD pid (vmAddress memaddr) (copyIn old 0 (bytes.take 4)) os with
      | (errno, os) =>
        if errno ≠ 0 then (errno, os)
        else ptraceWrite pid words (memaddr + 4) (bytes.drop 4) os

def writeMemory (memaddr : Int) (bytes : List Byte) (t : TargetState σ) :
    Int × TargetState σ :=
  match t.task with
  | none => (eio, t)
  | some task =>
    let addr := vmAddress memaddr
    match k.vmWrite task addr bytes t.os with
    | (true, os) => (0, { t with os := os })
    | (false, os) =>
      let (written, os) :=
        match k.vmProtect task addr bytes.length os with
        | (true, os) => k.vmWrite task addr bytes os
        | (false, os) => (false, os)
      if written then (0, { t with os := os })
      else
        let (errno, os) := ptraceWrite k t.pid ((bytes.length + 3) / 4) memaddr bytes os
        (errno, { t with os := os })

/-- The `vm_write` calls of `darwin_write_memory`, with `vm_protect` between them. -/
def machWrite (task : Port) (addr : Nat) (bytes : List Byte) (os : σ) : Bool × σ :=
  match k.vmWrite task addr bytes os with
  | (true, os) => (true, os)
  | (false, os) =>
    match k.vmProtect task addr bytes.length os with
    | (true, os) => k.vmWrite task addr bytes os
    | (false, os) => (false, os)

theorem writeMemory_of_machWrite {x : TargetState σ} {task : Port} (htask : x.task = some task)
    {memaddr : Int} {bytes : List Byte} {written : Bool} {os : σ}
    (hmach : machWrite k task (vmAddress memaddr) bytes x.os = (written, os)) :
    writeMemory k memaddr bytes x =
      if written then (0, { x with os := os })
      else
        ((ptraceWrite k x.pid ((bytes.length + 3) / 4) memaddr bytes os).1,
          { x with
            os := (ptraceWrite k x.pid ((bytes.length + 3) / 4) memaddr bytes os).2 }) := by
  rcases hfirst : k.vmWrite task (vmAddress memaddr) bytes x.os with ⟨_ | _, os₁⟩
  · rcases hprotect : k.vmProtect task (vmAddress memaddr) bytes.length os₁ with ⟨_ | _, os₂⟩
    · simp only [machWrite, hfirst, hprotect, Prod.mk.injEq] at hmach
      obtain ⟨rfl, rfl⟩ := hmach
      simp [writeMemory, htask, hfirst, hprotect]
    · simp only [machWrite, hfirst, hprotect] at hmach
      cases written with
      | false => simp [writeMemory, htask, hfirst, hprotect, hmach]
      | true => simp [writeMemory, htask, hfirst, hprotect, hmach]
  · simp only [machWrite, hfirst, Prod.mk.injEq] at hmach
    obtain ⟨rfl, rfl⟩ := hmach
    simp [writeMemory, htask, hfirst]

/-! What a memory access keeps of the machine is what the calls it makes keep. -/

section Keeps

variable {k} {β : Type} {f : σ → β}

theorem ptraceRead_keeps (hread : ∀ pid addr os, f (k.readD pid addr os).2 = f os) (pid : Int)
    (words : Nat) (memaddr : Int) (len : Nat) (os : σ) :
    f (ptraceRead k pid words memaddr len os).2 = f os := by
  induction words generalizing memaddr len os with
  | zero => rfl
  | succ words ih => exact (ih _ _ _).trans (hread _ _ _)

theorem ptraceWrite_keeps (hread : ∀ pid addr os, f (k.readD pid addr os).2 = f os)
    (hwrite : ∀ pid addr word os, f (k.writeD pid addr word os).2 = f os) (pid : Int)
    (words : Nat) (memaddr : Int) (bytes : List Byte) (os : σ) :
    f (ptraceWrite k pid words memaddr bytes os).2 = f os := by
  induction words generalizing memaddr bytes os with
  | zero => rfl
  | succ words ih =>
    have hold : f (if bytes.length < 4 then k.readD pid (vmAddress memaddr) os
        else (.ok (Vector.replicate 4 0), os)).2 = f os := by
      split
      · exact hread _ _ _
      · rfl
    unfold ptraceWrite
    generalize (if bytes.length < 4 then k.readD pid (vmAddress memaddr) os
      else (.ok (Vector.replicate 4 0), os)) = old at hold ⊢
    rcases old with ⟨_ | word, os₁⟩
    · exact hold
    · have hword := (hwrite pid (vmAddress memaddr) (copyIn word 0 (bytes.take 4)) os₁).trans hold
      dsimp only
      split
      · exact hword
      · exact (ih _ _ _).trans hword

theorem readMemory_keeps (hvmRead : ∀ task addr len os, f (k.vmRead task addr len os).2 = f os)
    (hread : ∀ pid addr os, f (k.readD pid addr os).2 = f os) (memaddr : Int) (len : Nat)
    (x : TargetState σ) : f (readMemory k memaddr len x).2.os = f x.os := by
  unfold readMemory
  split
  · rfl
  · rename_i task _
    have hcall := hvmRead task (vmAddress memaddr) len x.os
    split
    · rename_i heq
      rwa [heq] at hcall
    · rename_i os heq
      rw [heq] at hcall
      exact (ptraceRead_keeps hread _ _ _ _ os).trans hcall

theorem writeMemory_keeps_of_machWrite
    (hread : ∀ pid addr os, f (k.readD pid addr os).2 = f os)
    (hwrite : ∀ pid addr word os, f (k.writeD pid addr word os).2 = f os) {x : TargetState σ}
    {task : Port} (htask : x.task = some task) (memaddr : Int) (bytes : List Byte) :
    f (writeMemory k memaddr bytes x).2.os =
      f (machWrite k task (vmAddress memaddr) bytes x.os).2 := by
  rcases hmach : machWrite k task (vmAddress memaddr) bytes x.os with ⟨written, os⟩
  rw [writeMemory_of_machWrite k htask hmach]
  cases written with
  | true => rfl
  | false => exact ptraceWrite_keeps hread hwrite _ _ _ _ os

/-- The two attempts act as one: what `vm_write` puts is put once or not at all. -/
theorem machWrite_puts (put : β → β) {task : Port} {addr : Nat} {bytes : List Byte}
    (hwrite : ∀ os, f (k.vmWrite task addr bytes os).2 =
      if (k.vmWrite task addr bytes os).1 then put (f os) else f os)
    (hprotect : ∀ os, f (k.vmProtect task addr bytes.length os).2 = f os) (os : σ) :
    f (machWrite k task addr bytes os).2 =
      if (machWrite k task addr bytes os).1 then put (f os) else f os := by
  have hfirst := hwrite os
  rcases hcall : k.vmWrite task addr bytes os with ⟨_ | _, os₁⟩
  · rw [hcall] at hfirst
    have hkept := hprotect os₁
    rcases hunlock : k.vmProtect task addr bytes.length os₁ with ⟨_ | _, os₂⟩
    · rw [hunlock] at hkept
      simpa [machWrite, hcall, hunlock] using hkept.trans hfirst
    · rw [hunlock] at hkept
      have hagain := hwrite os₂
      rw [hkept.trans hfirst] at hagain
      simpa [machWrite, hcall, hunlock] using hagain
  · rw [hcall] at hfirst
    simpa [machWrite, hcall] using hfirst

theorem machWrite_keeps
    (hvmWrite : ∀ task addr bytes os, f (k.vmWrite task addr bytes os).2 = f os)
    (hvmProtect : ∀ task addr len os, f (k.vmProtect task addr len os).2 = f os) (task : Port)
    (addr : Nat) (bytes : List Byte) (os : σ) :
    f (machWrite k task addr bytes os).2 = f os := by
  have hkept := machWrite_puts id (fun os => (hvmWrite task addr bytes os).trans
    (ite_self _).symm) (hvmProtect task addr bytes.length) os
  exact hkept.trans (ite_self _)

end Keeps

theorem ptraceRead_length (pid : Int) {words : Nat} (memaddr : Int) {len : Nat} (os : σ)
    (h : len ≤ 4 * words) : (ptraceRead k pid words memaddr len os).1.length = len := by
  induction words generalizing memaddr len os with
  | zero =>
    have hlen : len = 0 := by omega
    subst hlen
    rfl
  | succ words ih =>
    have hrest := ih (memaddr + 4) (k.readD pid (vmAddress memaddr) os).2
      (show len - min len 4 ≤ 4 * words by omega)
    simp only [ptraceRead, List.length_append, hrest]
    split
    · simp only [List.length_take, Vector.length_toList]
      omega
    · rw [List.length_replicate]
      omega

theorem readMemory_length (memaddr : Int) (len : Nat) (t : TargetState σ) :
    (readMemory k memaddr len t).1.length = len := by
  unfold readMemory
  cases t.task with
  | none => exact List.length_replicate
  | some task =>
    dsimp only
    split
    · rename_i data os hread
      exact k.vmRead_length task (vmAddress memaddr) len t.os data (by rw [hread])
    · exact ptraceRead_length k t.pid memaddr _ (by omega)

/-- `darwin_target_ops` as `mem-break.c` uses it, after `initialize_low`. -/
def memTarget : MemBreak.MemTarget (TargetState σ) where
  readMemory := readMemory k
  writeMemory := writeMemory k
  breakpointData := some MemBreak.ppcTrap
  readMemory_length := readMemory_length k
  breakpointData_length := MemBreak.ppcTrap_length

end Darwin

/-- A machine that runs one process, of one thread, and whose state is the registers of that
thread. Its memory is blank, and it stops again as soon as it is resumed. -/
def singleThread : Kernel Machine where
  forkExec m := (some 7, m)
  ptrace _ _ _ m := (true, m)
  readD _ _ m := (.ok (Vector.replicate 4 0), m)
  writeD _ _ _ m := (0, m)
  waitpid _ m := (.stopped 5, m)
  reap _ m := m
  kill _ _ m := (true, m)
  taskForPid _ m := (some 1, m)
  taskThreads _ m := (some [1], m)
  vmRead _ _ n m := (some (List.replicate n 0), m)
  vmWrite _ _ _ m := (true, m)
  vmProtect _ _ _ m := (true, m)
  threadGetState _ m := (some m.thread, m)
  threadSetState _ state m := (true, { m with thread := state })
  floatGetState _ m := (some m.float, m)
  floatSetState _ fstate m := (true, { m with float := fstate })
  vmRead_length := by
    intro _ _ n _ bs hbs
    cases hbs
    exact List.length_replicate

end Gdbserver
