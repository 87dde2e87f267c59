import OsxGdbserver.PlantedTraps
import OsxGdbserver.PtraceFallback

/-!
# The rights of the pages that are written

Before it tries again, `darwin_write_memory` asks `vm_protect` for pages that can be read
and written. That takes away the right to execute them, and nothing gives it back.
-/

namespace Gdbserver

namespace Darwin

open Overlay WrappedMemory MemBreak

structure Rights where
  read : Bool
  write : Bool
  execute : Bool
  deriving DecidableEq, Repr

/-- `VM_PROT_READ | VM_PROT_WRITE`, what `vm_protect` is called with. -/
def readWrite : Rights := { read := true, write := true, execute := false }

/-- Page `p` holds one of the `len` addresses from `addr` on. -/
def Touches (pageSize addr len p : Nat) : Prop := ∃ i < len, (addr + i) / pageSize = p

instance (pageSize addr len p : Nat) : Decidable (Touches pageSize addr len p) :=
  inferInstanceAs (Decidable (∃ i < len, (addr + i) / pageSize = p))

/-- The rights after a `vm_protect` that has succeeded. -/
def opened (pageSize addr len : Nat) (rights : Nat → Rights) : Nat → Rights :=
  fun p => if Touches pageSize addr len p then readWrite else rights p

/-- All pages of the range can be written. -/
def Writable (pageSize addr len : Nat) (rights : Nat → Rights) : Prop :=
  ∀ p, Touches pageSize addr len p → (rights p).write = true

theorem writable_opened (pageSize addr len : Nat) (rights : Nat → Rights) :
    Writable pageSize addr len (opened pageSize addr len rights) := by
  intro p touched
  simp [opened, touched, readWrite]

theorem opened_eq_iff {pageSize addr len : Nat} {rights : Nat → Rights} :
    opened pageSize addr len rights = rights ↔
      ∀ p, Touches pageSize addr len p → rights p = readWrite := by
  constructor
  · intro h p touched
    rw [← congrFun h p, opened, if_pos touched]
  · intro h
    funext p
    by_cases touched : Touches pageSize addr len p
    · rw [opened, if_pos touched, h p touched]
    · rw [opened, if_neg touched]

variable {σ : Type} {k : Kernel σ} {pageSize : Nat} {rights : σ → Nat → Rights}

/-- A task made of pages. `vm_write` is refused where a page of the range cannot be written,
`vm_protect` gives the pages of the range the rights it is asked for, and no other call
changes any rights. Each may also fail for a reason of its own. -/
structure Paged (k : Kernel σ) (pageSize : Nat) (rights : σ → Nat → Rights) : Prop where
  vmWrite_refused : ∀ task addr bytes os, ¬ Writable pageSize addr bytes.length (rights os) →
    (k.vmWrite task addr bytes os).1 = false
  vmWrite_rights : ∀ task addr bytes os, rights (k.vmWrite task addr bytes os).2 = rights os
  vmProtect_rights : ∀ task addr len os,
    rights (k.vmProtect task addr len os).2 =
      if (k.vmProtect task addr len os).1 then opened pageSize addr len (rights os)
      else rights os
  vmRead_rights : ∀ task addr len os, rights (k.vmRead task addr len os).2 = rights os
  readD_rights : ∀ pid addr os, rights (k.readD pid addr os).2 = rights os
  writeD_rights : ∀ pid addr word os, rights (k.writeD pid addr word os).2 = rights os

/-- Nothing but missing rights makes `vm_write` fail, and `vm_protect` does not fail. -/
structure RightsDecide (k : Kernel σ) (pageSize : Nat) (rights : σ → Nat → Rights) : Prop where
  vmWrite : ∀ task addr bytes os, Writable pageSize addr bytes.length (rights os) →
    (k.vmWrite task addr bytes os).1 = true
  vmProtect : ∀ task addr len os, (k.vmProtect task addr len os).1 = true

/-- The first `vm_write` fails, and `vm_protect` then succeeds. -/
def unprotects (k : Kernel σ) (task : Port) (addr : Nat) (bytes : List Byte) (os : σ) : Bool :=
  !(k.vmWrite task addr bytes os).1 &&
    (k.vmProtect task addr bytes.length (k.vmWrite task addr bytes os).2).1

namespace Paged

theorem machWrite_rights (paged : Paged k pageSize rights) (task : Port) (addr : Nat)
    (bytes : List Byte) (os : σ) :
    rights (machWrite k task addr bytes os).2 =
      if unprotects k task addr bytes os then opened pageSize addr bytes.length (rights os)
      else rights os := by
  have hfirst := paged.vmWrite_rights task addr bytes os
  rcases hcall : k.vmWrite task addr bytes os with ⟨_ | _, os₁⟩
  · rw [hcall] at hfirst
    have hprotect := paged.vmProtect_rights task addr bytes.length os₁
    rcases hunlock : k.vmProtect task addr bytes.length os₁ with ⟨_ | _, os₂⟩
    · rw [hunlock] at hprotect
      simpa [machWrite, unprotects, hcall, hunlock, hfirst] using hprotect
    · rw [hunlock] at hprotect
      have hagain := paged.vmWrite_rights task addr bytes os₂
      simpa [machWrite, unprotects, hcall, hunlock, hfirst] using hagain.trans hprotect
  · rw [hcall] at hfirst
    simpa [machWrite, unprotects, hcall] using hfirst

theorem readMemory_rights (paged : Paged k pageSize rights) (memaddr : Int) (len : Nat)
    (x : TargetState σ) : rights (readMemory k memaddr len x).2.os = rights x.os :=
  readMemory_keeps paged.vmRead_rights paged.readD_rights memaddr len x

theorem writeMemory_rights (paged : Paged k pageSize rights) {x : TargetState σ} {task : Port}
    (htask : x.task = some task) (memaddr : Int) (bytes : List Byte) :
    rights (writeMemory k memaddr bytes x).2.os =
      if unprotects k task (vmAddress memaddr) bytes x.os then
        opened pageSize (vmAddress memaddr) bytes.length (rights x.os)
      else rights x.os := by
  rw [writeMemory_keeps_of_machWrite paged.readD_rights paged.writeD_rights htask]
  exact paged.machWrite_rights task (vmAddress memaddr) bytes x.os

end Paged

theorem unprotects_iff (paged : Paged k pageSize rights) (decide : RightsDecide k pageSize rights)
    (task : Port) (addr : Nat) (bytes : List Byte) (os : σ) :
    unprotects k task addr bytes os = true ↔ ¬ Writable pageSize addr bytes.length (rights os) := by
  constructor
  · intro h writable
    simp [unprotects, decide.vmWrite task addr bytes os writable] at h
  · intro h
    simp [unprotects, paged.vmWrite_refused task addr bytes os h, decide.vmProtect]

variable (k pageSize rights) in
/-- If the write gets as far as a `vm_protect` that succeeds, then the pages of its range have
the rights that are asked for already. -/
def Spared (memaddr : Int) (bytes : List Byte) (x : TargetState σ) : Prop :=
  ∀ task, x.task = some task → unprotects k task (vmAddress memaddr) bytes x.os = true →
    ∀ p, Touches pageSize (vmAddress memaddr) bytes.length p → rights x.os p = readWrite

variable (pageSize rights) in
/-- There is no task, or all pages of the range can be written. -/
def WritableAt (memaddr : Int) (len : Nat) (x : TargetState σ) : Prop :=
  x.task = none ∨ Writable pageSize (vmAddress memaddr) len (rights x.os)

theorem writeMemory_rights_iff (paged : Paged k pageSize rights) (memaddr : Int)
    (bytes : List Byte) (x : TargetState σ) :
    rights (writeMemory k memaddr bytes x).2.os = rights x.os ↔
      Spared k pageSize rights memaddr bytes x := by
  cases htask : x.task with
  | none => simp [Spared, writeMemory, htask]
  | some task =>
    have hspared : Spared k pageSize rights memaddr bytes x ↔
        (unprotects k task (vmAddress memaddr) bytes x.os = true →
          opened pageSize (vmAddress memaddr) bytes.length (rights x.os) = rights x.os) := by
      simp [Spared, htask, opened_eq_iff]
    rw [hspared, paged.writeMemory_rights htask]
    split
    · rename_i unprotected
      simp [unprotected]
    · rename_i kept
      simp [kept]

/-- Where only missing rights make calls fail, every page of the range becomes readable and
writable, unless all of them were writable. -/
theorem writeMemory_opened (paged : Paged k pageSize rights)
    (decides : RightsDecide k pageSize rights) (memaddr : Int) (bytes : List Byte)
    (x : TargetState σ) :
    (WritableAt pageSize rights memaddr bytes.length x →
        rights (writeMemory k memaddr bytes x).2.os = rights x.os) ∧
      (¬ WritableAt pageSize rights memaddr bytes.length x →
        rights (writeMemory k memaddr bytes x).2.os =
          opened pageSize (vmAddress memaddr) bytes.length (rights x.os)) := by
  cases htask : x.task with
  | none => simp [WritableAt, writeMemory, htask]
  | some task =>
    have hrights := paged.writeMemory_rights htask memaddr bytes
    have hiff := unprotects_iff paged decides task (vmAddress memaddr) bytes x.os
    constructor
    · rintro (hnone | writable)
      · rw [htask] at hnone
        cases hnone
      · rw [hrights, if_neg (fun h => hiff.mp h writable)]
    · intro h
      have hnot : ¬ Writable pageSize (vmAddress memaddr) bytes.length (rights x.os) :=
        fun writable => h (Or.inr writable)
      rw [hrights, if_pos (hiff.mpr hnot)]

theorem spared_iff (paged : Paged k pageSize rights) (decides : RightsDecide k pageSize rights)
    (memaddr : Int) (bytes : List Byte) (x : TargetState σ) :
    Spared k pageSize rights memaddr bytes x ↔
      WritableAt pageSize rights memaddr bytes.length x := by
  obtain ⟨hkept, hopened⟩ := writeMemory_opened paged decides memaddr bytes x
  rw [← writeMemory_rights_iff paged]
  constructor
  · intro h
    by_contra unwritable
    -- pages that are opened and keep their rights were writable
    have hsame := (hopened unwritable).symm.trans h
    apply unwritable
    right
    rw [← hsame]
    exact writable_opened _ _ _ _
  · exact hkept

/-- The state after a breakpoint has been set and deleted. -/
def afterBreakpoint (k : Kernel σ) (s : MemState (TargetState σ)) (a : Int) (handler : Handler) :
    MemState (TargetState σ) :=
  Proc.final ((deleteBreakpointAt (memTarget k) a).run (afterSet (memTarget k) s a handler))

theorem afterBreakpoint_rights (paged : Paged k pageSize rights)
    (decides : RightsDecide k pageSize rights) (s : MemState (TargetState σ)) (a : Int)
    (handler : Handler) :
    (WritableAt pageSize rights a 4 s.target →
        rights (afterBreakpoint k s a handler).target.os = rights s.target.os) ∧
      (¬ WritableAt pageSize rights a 4 s.target →
        rights (afterBreakpoint k s a handler).target.os =
          opened pageSize (vmAddress a) 4 (rights s.target.os)) := by
  have hset : (afterSet (memTarget k) s a handler).target =
      (writeMemory k a ppcTrap (readMemory k a 4 s.target).2).2 :=
    congrArg MemState.target (afterSet_eq rfl)
  have hdelete : (afterBreakpoint k s a handler).target =
      (writeMemory k a (readMemory k a 4 s.target).1
        (afterSet (memTarget k) s a handler).target).2 :=
    delete_afterSet rfl
  have hread := paged.readMemory_rights a 4 s.target
  have hlen := readMemory_length k a 4 s.target
  obtain ⟨os₁, hos₁⟩ := readMemory_target (k := k) a 4 s.target
  obtain ⟨os₂, hos₂⟩ := writeMemory_target (k := k) a ppcTrap (readMemory k a 4 s.target).2
  obtain ⟨hkept, hopened⟩ :=
    writeMemory_opened paged decides a ppcTrap (readMemory k a 4 s.target).2
  have hsame : WritableAt pageSize rights a 4 (readMemory k a 4 s.target).2 ↔
      WritableAt pageSize rights a 4 s.target := by
    rw [WritableAt, hread, hos₁]
    rfl
  change (WritableAt pageSize rights a 4 _ → _) at hkept
  change (¬ WritableAt pageSize rights a 4 _ → _ = opened pageSize (vmAddress a) 4 _) at hopened
  rw [hsame, hread, ← hset] at hkept hopened
  -- the saved bytes are written to pages that were writable or have become so
  have hwritable : WritableAt pageSize rights a 4 (afterSet (memTarget k) s a handler).target := by
    by_cases writable : WritableAt pageSize rights a 4 s.target
    · rw [WritableAt, hkept writable, hset, hos₂, hos₁]
      exact writable
    · right
      rw [hopened writable]
      exact writable_opened _ _ _ _
  have hback := (writeMemory_opened paged decides a (readMemory k a 4 s.target).1
    (afterSet (memTarget k) s a handler).target).1
  rw [hlen] at hback
  rw [hdelete, hback hwritable]
  exact ⟨hkept, hopened⟩

/-- Setting and deleting a breakpoint leaves all rights as they were. -/
def LeavesRights (k : Kernel σ) (rights : σ → Nat → Rights) (s : MemState (TargetState σ))
    (a : Int) (handler : Handler) : Prop :=
  rights (afterBreakpoint k s a handler).target.os = rights s.target.os

/-- Setting and deleting a breakpoint leaves page `p` executable. -/
def LeavesExecutable (k : Kernel σ) (rights : σ → Nat → Rights) (s : MemState (TargetState σ))
    (a : Int) (handler : Handler) (p : Nat) : Prop :=
  (rights (afterBreakpoint k s a handler).target.os p).execute = true

/-- A write keeps the rights of all pages just if `vm_protect` is not reached, fails or has
nothing to change. Where calls fail for missing rights only, that is if the pages of the range
were writable, and a breakpoint needs the same not to take away the right to execute. -/
theorem rights_kept_iff (paged : Paged k pageSize rights) :
    (∀ memaddr bytes x, rights (writeMemory k memaddr bytes x).2.os = rights x.os ↔
        Spared k pageSize rights memaddr bytes x) ∧
      (RightsDecide k pageSize rights →
        (∀ memaddr bytes x, rights (writeMemory k memaddr bytes x).2.os = rights x.os ↔
            WritableAt pageSize rights memaddr bytes.length x) ∧
          ∀ s a handler,
            (LeavesRights k rights s a handler ↔ WritableAt pageSize rights a 4 s.target) ∧
              ∀ p, Touches pageSize (vmAddress a) 4 p →
                (rights s.target.os p).execute = true →
                (LeavesExecutable k rights s a handler p ↔
                  WritableAt pageSize rights a 4 s.target)) := by
  refine ⟨writeMemory_rights_iff paged, ?_⟩
  intro decides
  constructor
  · intro memaddr bytes x
    rw [writeMemory_rights_iff paged, spared_iff paged decides]
  · intro s a handler
    obtain ⟨hkept, hopened⟩ := afterBreakpoint_rights paged decides s a handler
    have hexecute : ∀ p, Touches pageSize (vmAddress a) 4 p →
        (rights s.target.os p).execute = true →
        (LeavesExecutable k rights s a handler p ↔
          WritableAt pageSize rights a 4 s.target) := by
      intro p touched executable
      constructor
      · intro h
        by_contra unwritable
        rw [LeavesExecutable, hopened unwritable, opened, if_pos touched] at h
        cases h
      · intro writable
        rw [LeavesExecutable, hkept writable]
        exact executable
    refine ⟨⟨?_, hkept⟩, hexecute⟩
    intro h
    by_contra unwritable
    have hsame := (hopened unwritable).symm.trans h
    apply unwritable
    right
    rw [← hsame]
    exact writable_opened _ _ _ _

/-- Memory in pages of 4096 bytes. -/
structure PagedSpace where
  bytes : AddressSpace
  rights : Nat → Rights

/-- A machine on which only missing rights make a call fail. -/
def pagedMachine : Kernel PagedSpace where
  forkExec m := (some 7, m)
  ptrace _ _ _ m := (true, m)
  readD _ addr m :=
    (.ok ⟨(loadRange m.bytes (BitVec.ofNat 32 addr) 4).toArray, by simp⟩, m)
  writeD _ addr w m :=
    (0, { m with bytes := storeRange m.bytes (BitVec.ofNat 32 addr) w.toList })
  waitpid _ m := (.stopped 5, m)
  reap _ m := m
  kill _ _ m := (true, m)
  taskForPid _ m := (some 1, m)
  taskThreads _ m := (none, m)
  vmRead _ addr n m := (some (loadRange m.bytes (BitVec.ofNat 32 addr) n), m)
  vmWrite _ addr bs m :=
    if ∀ i < bs.length, (m.rights ((addr + i) / 4096)).write = true then
      (true, { m with bytes := storeRange m.bytes (BitVec.ofNat 32 addr) bs })
    else (false, m)
  vmProtect _ addr n m := (true, { m with rights := opened 4096 addr n m.rights })
  threadGetState _ m := (none, m)
  threadSetState _ _ m := (false, m)
  floatGetState _ m := (none, m)
  floatSetState _ _ m := (false, m)
  vmRead_length := by
    rintro _ addr n m bs ⟨⟩
    exact loadRange_length _ _ _

theorem writable_iff_bytes {pageSize addr len : Nat} {rights : Nat → Rights} :
    Writable pageSize addr len rights ↔
      ∀ i < len, (rights ((addr + i) / pageSize)).write = true := by
  constructor
  · exact fun h i hi => h _ ⟨i, hi, rfl⟩
  · rintro h p ⟨i, hi, rfl⟩
    exact h i hi

theorem pagedMachine_vmWrite (task : Port) (addr : Nat) (bs : List Byte) (m : PagedSpace) :
    (pagedMachine.vmWrite task addr bs m).1 = true ↔ Writable 4096 addr bs.length m.rights := by
  rw [writable_iff_bytes]
  simp only [pagedMachine]
  split <;> simp_all

theorem pagedMachine_paged : Paged pagedMachine 4096 PagedSpace.rights where
  vmWrite_refused task addr bs m h :=
    Bool.eq_false_iff.mpr fun done => h ((pagedMachine_vmWrite task addr bs m).mp done)
  vmWrite_rights _ _ _ _ := by
    simp only [pagedMachine]
    split <;> rfl
  vmProtect_rights _ _ _ _ := rfl
  vmRead_rights _ _ _ _ := rfl
  readD_rights _ _ _ := rfl
  writeD_rights _ _ _ _ := rfl

theorem pagedMachine_rightsDecide : RightsDecide pagedMachine 4096 PagedSpace.rights where
  vmWrite task addr bs m := (pagedMachine_vmWrite task addr bs m).mpr
  vmProtect _ _ _ _ := rfl

/-- A stopped process all of whose pages have the given rights. -/
def uniformPages (rights : Rights) : MemState (TargetState PagedSpace) where
  breakpoints := []
  nextNode := 0
  target :=
    { os := { bytes := fun _ => 0, rights := fun _ => rights }, task := some 1, pid := 7 }

/-- A breakpoint in pages that can be written. -/
theorem rights_kept_writable :
    LeavesRights pagedMachine PagedSpace.rights (uniformPages ⟨true, true, true⟩) 4096 .null :=
  (((rights_kept_iff pagedMachine_paged).2 pagedMachine_rightsDecide).2 _ _ _).1.mpr
    (Or.inr fun _ _ => rfl)

/-- A breakpoint in code, which is not writable, and the write that sets it. -/
theorem not_rights_kept_code :
    (writeMemory pagedMachine 4096 ppcTrap (uniformPages ⟨true, false, true⟩).target).2.os.rights ≠
        (uniformPages ⟨true, false, true⟩).target.os.rights ∧
      ¬ LeavesExecutable pagedMachine PagedSpace.rights (uniformPages ⟨true, false, true⟩)
        4096 .null 1 := by
  constructor
  · intro h
    have hpage := congrArg Rights.execute (congrFun h 1)
    revert hpage
    decide
  · unfold LeavesExecutable
    decide

end Darwin

end Gdbserver
