import OsxGdbserver.MemoryPackets

/-!
# Traps over memory that cannot be had

`set_breakpoint_at` looks at neither of its two results, and `delete_breakpoint` not at its
one. What the list says of a trap, and what taking it out leaves behind, then depends on
accesses nobody has asked about.
-/

namespace MemBreak

open Overlay

variable {σ : Type} {t : MemTarget σ} {mem : σ → Memory} {readable : σ → Prop} {a : Int}
  {s : MemState σ} {handler : Handler}

/-- The memory operations at `a`, of the size of a breakpoint, on a memory not all of which
can be had: a failing read gives zeros, a failing write changes nothing. -/
structure Faltering (t : MemTarget σ) (mem : σ → Memory) (readable : σ → Prop) (a : Int) :
    Prop where
  read : ∀ s, readable s → (t.readMemory a t.breakpointLen s).1 = load (mem s) a t.breakpointLen
  read_failed : ∀ s, ¬ readable s →
    (t.readMemory a t.breakpointLen s).1 = List.replicate t.breakpointLen 0
  read_mem : ∀ s, mem (t.readMemory a t.breakpointLen s).2 = mem s
  write : ∀ bs s, bs.length = t.breakpointLen → (t.writeMemory a bs s).1 = 0 →
    mem (t.writeMemory a bs s).2 = store (mem s) a bs
  write_failed : ∀ bs s, bs.length = t.breakpointLen → (t.writeMemory a bs s).1 ≠ 0 →
    mem (t.writeMemory a bs s).2 = mem s

/-- The state after `set_breakpoint_at`. -/
def afterSet (t : MemTarget σ) (s : MemState σ) (a : Int) (handler : Handler) : MemState σ :=
  Proc.final ((setBreakpointAt t a handler).run s)

/-- The result of the write that plants the trap, which nobody looks at. -/
def plantingResult (t : MemTarget σ) (s : MemState σ) (a : Int) : Int :=
  (t.writeMemory a t.trap (t.readMemory a t.breakpointLen s.target).2).1

/-- The result of the write by which `delete_breakpoint_at` then takes it out. -/
def removingResult (t : MemTarget σ) (s : MemState σ) (a : Int) : Int :=
  (t.writeMemory a (t.readMemory a t.breakpointLen s.target).1
    (t.writeMemory a t.trap (t.readMemory a t.breakpointLen s.target).2).2).1

/-- A trap that is set and deleted leaves no mark, if it can be taken out. -/
def Restores (t : MemTarget σ) (mem : σ → Memory) (s : MemState σ) (a : Int)
    (handler : Handler) : Prop :=
  removingResult t s a = 0 →
    load (mem (Proc.final ((deleteBreakpointAt t a).run (afterSet t s a handler))).target) a
      t.breakpointLen = load (mem s.target) a t.breakpointLen

/-- What `breakpoint_inserted_here` says of the new breakpoint is true. -/
def ShownPlanted (t : MemTarget σ) (mem : σ → Memory) (s : MemState σ) (a : Int)
    (handler : Handler) : Prop :=
  breakpointInsertedHere a (afterSet t s a handler).breakpoints = true →
    load (mem (afterSet t s a handler).target) a t.breakpointLen = t.trap

theorem afterSet_eq {data : List Byte} (hdata : t.breakpointData = some data) :
    afterSet t s a handler =
      { breakpoints := newBreakpoint t s a handler :: s.breakpoints
        nextNode := s.nextNode + 1
        target :=
          (t.writeMemory a t.trap (t.readMemory a t.breakpointLen s.target).2).2 } :=
  congrArg Proc.final (setBreakpointAt_run t s a handler hdata)

/-- The new breakpoint is the first of the list, so it is the one that is deleted. -/
theorem delete_afterSet {data : List Byte} (hdata : t.breakpointData = some data) :
    (Proc.final ((deleteBreakpointAt t a).run (afterSet t s a handler))).target =
      (t.writeMemory a (t.readMemory a t.breakpointLen s.target).1
        (afterSet t s a handler).target).2 := by
  have hsaved := saved_newBreakpoint t s a handler
  have hfind : findBreakpointAt a (newBreakpoint t s a handler :: s.breakpoints) =
      some (newBreakpoint t s a handler) := by
    simp [findBreakpointAt, newBreakpoint]
  simp [afterSet_eq hdata, deleteBreakpointAt, hfind, deleteBreakpoint, unlink, writeTarget,
    hsaved]
  rfl

namespace Faltering

variable {data : List Byte}

/-- The bytes saved: those that were there, or zeros. -/
theorem saved_eq_iff (h : Faltering t mem readable a) (s : σ) :
    (t.readMemory a t.breakpointLen s).1 = load (mem s) a t.breakpointLen ↔
      readable s ∨ load (mem s) a t.breakpointLen = List.replicate t.breakpointLen 0 := by
  by_cases had : readable s
  · exact ⟨fun _ => Or.inl had, fun _ => h.read s had⟩
  · rw [h.read_failed s had]
    constructor
    · exact fun heq => Or.inr heq.symm
    · rintro (hread | hzero)
      · exact absurd hread had
      · exact hzero.symm

/-- The memory behind a planted trap: written or as before. -/
theorem mem_afterSet (h : Faltering t mem readable a) (hdata : t.breakpointData = some data) :
    mem (afterSet t s a handler).target =
      if plantingResult t s a = 0 then store (mem s.target) a t.trap else mem s.target := by
  have hread := h.read_mem s.target
  rw [afterSet_eq hdata]
  split
  · rename_i planted
    have hwrite := h.write t.trap _ rfl planted
    rw [hwrite, hread]
  · rename_i refused
    have hwrite := h.write_failed t.trap _ rfl refused
    rw [hwrite, hread]

theorem restores_iff (h : Faltering t mem readable a) (hdata : t.breakpointData = some data) :
    Restores t mem s a handler ↔ removingResult t s a = 0 →
      readable s.target ∨
        load (mem s.target) a t.breakpointLen = List.replicate t.breakpointLen 0 := by
  have hlen := t.readMemory_length a t.breakpointLen s.target
  have htarget : (afterSet t s a handler).target =
      (t.writeMemory a t.trap (t.readMemory a t.breakpointLen s.target).2).2 := by
    rw [afterSet_eq hdata]
  have hleft : removingResult t s a = 0 →
      load (mem (Proc.final ((deleteBreakpointAt t a).run (afterSet t s a handler))).target) a
        t.breakpointLen = (t.readMemory a t.breakpointLen s.target).1 := by
    intro removed
    have hwrite := h.write _ _ hlen removed
    have hsame := fun m => load_store_same m a (t.readMemory a t.breakpointLen s.target).1
    rw [hlen] at hsame
    rw [delete_afterSet hdata, htarget, hwrite, hsame]
  constructor
  · intro restores removed
    have hback := restores removed
    rw [hleft removed] at hback
    exact (h.saved_eq_iff s.target).mp hback
  · intro condition removed
    rw [hleft removed]
    exact (h.saved_eq_iff s.target).mpr (condition removed)

theorem load_afterSet_iff (h : Faltering t mem readable a)
    (hdata : t.breakpointData = some data) :
    load (mem (afterSet t s a handler).target) a t.breakpointLen = t.trap ↔
      plantingResult t s a = 0 ∨ load (mem s.target) a t.breakpointLen = t.trap := by
  rw [h.mem_afterSet hdata]
  split
  · rename_i planted
    exact ⟨fun _ => Or.inl planted, fun _ => load_store_same (mem s.target) a t.trap⟩
  · rename_i refused
    exact ⟨Or.inr, fun hor => hor.resolve_left refused⟩

theorem shownPlanted_iff (h : Faltering t mem readable a)
    (hdata : t.breakpointData = some data) :
    ShownPlanted t mem s a handler ↔
      plantingResult t s a = 0 ∨ load (mem s.target) a t.breakpointLen = t.trap := by
  have hshown : breakpointInsertedHere a (afterSet t s a handler).breakpoints = true := by
    simp [afterSet_eq hdata, breakpointInsertedHere, findBreakpointAt, newBreakpoint]
  rw [← h.load_afterSet_iff hdata]
  exact ⟨fun shown => shown hshown, fun planted _ => planted⟩

end Faltering

end MemBreak

namespace Gdbserver

open Overlay CString Ppc Remote

variable {σ : Type} {k : Kernel σ} {host : Signals.Host} {s : Server σ} {t : ThreadInfo}
  {mem : Darwin.TargetState σ → MemBreak.Memory}

/-- The calls by which the memory of the process is reached, `mem` being that memory. Any of
them may fail, and then changes nothing. -/
structure ShowsMemory (k : Kernel σ) (mem : Darwin.TargetState σ → MemBreak.Memory) : Prop where
  vmRead : ∀ x task addr n bs, x.task = some task → (k.vmRead task addr n x.os).1 = some bs →
    bs = load (mem x) addr n
  vmRead_mem : ∀ x task addr n, x.task = some task →
    mem { x with os := (k.vmRead task addr n x.os).2 } = mem x
  readD : ∀ x addr w, (k.readD x.pid addr x.os).1 = .ok w → w.toList = load (mem x) addr 4
  readD_mem : ∀ x addr, mem { x with os := (k.readD x.pid addr x.os).2 } = mem x
  vmWrite : ∀ x task addr bs, x.task = some task → (k.vmWrite task addr bs x.os).1 = true →
    mem { x with os := (k.vmWrite task addr bs x.os).2 } = store (mem x) addr bs
  vmWrite_failed : ∀ x task addr bs, x.task = some task →
    (k.vmWrite task addr bs x.os).1 = false →
      mem { x with os := (k.vmWrite task addr bs x.os).2 } = mem x
  vmProtect_mem : ∀ x task addr n, x.task = some task →
    mem { x with os := (k.vmProtect task addr n x.os).2 } = mem x
  writeD : ∀ x addr (w : Word), (k.writeD x.pid addr w x.os).1 = 0 →
    mem { x with os := (k.writeD x.pid addr w x.os).2 } = store (mem x) addr w.toList
  writeD_failed : ∀ x addr (w : Word), (k.writeD x.pid addr w x.os).1 ≠ 0 →
    mem { x with os := (k.writeD x.pid addr w x.os).2 } = mem x

namespace Darwin

/-- Whether `vm_read` gives the word at this address, or else `ptrace` does. -/
def Readable (k : Kernel σ) (addr : Nat) (x : TargetState σ) : Prop :=
  ∃ task, x.task = some task ∧
    ((k.vmRead task addr 4 x.os).1.isSome ∨
      ∃ w, (k.readD x.pid addr (k.vmRead task addr 4 x.os).2).1 = .ok w)

theorem vmAddress_of_lt {addr : Nat} (lt : addr < 2 ^ 32) : vmAddress (addr : Int) = addr := by
  unfold vmAddress
  omega

theorem ptraceRead_word (pid : Int) (addr : Int) (os : σ) :
    ptraceRead k pid 1 addr 4 os =
      (match (k.readD pid (vmAddress addr) os).1 with
        | .ok w => w.toList
        | .error _ => List.replicate 4 0,
        (k.readD pid (vmAddress addr) os).2) := by
  have htake : ∀ w : Word, w.toList.take 4 = w.toList := fun w =>
    List.take_of_length_le (by rw [Vector.length_toList])
  cases hword : (k.readD pid (vmAddress addr) os).1 with
  | ok w => simp [ptraceRead, hword, htake]
  | error errno => simp [ptraceRead, hword]

/-- What `darwin_read_memory` gives for a word. -/
theorem readMemory_word (shows : ShowsMemory k mem) {addr : Nat} (lt : addr < 2 ^ 32)
    (x : TargetState σ) :
    (Readable k addr x → (readMemory k addr 4 x).1 = load (mem x) addr 4) ∧
      (¬ Readable k addr x → (readMemory k addr 4 x).1 = List.replicate 4 0) ∧
      mem (readMemory k addr 4 x).2 = mem x := by
  have haddr := vmAddress_of_lt lt
  cases htask : x.task with
  | none =>
    have hrun : readMemory k addr 4 x = (List.replicate 4 0, x) := by simp [readMemory, htask]
    rw [hrun]
    refine ⟨?_, fun _ => rfl, rfl⟩
    rintro ⟨task, hsome, -⟩
    rw [htask] at hsome
    cases hsome
  | some task =>
    have hkept := shows.vmRead_mem x task addr 4 htask
    have hdata := fun bs => shows.vmRead x task addr 4 bs htask
    cases hread : k.vmRead task addr 4 x.os with
    | mk data os₁ =>
      rw [hread] at hkept hdata
      cases data with
      | some bs =>
        have hrun : readMemory k addr 4 x = (bs, { x with os := os₁ }) := by
          simp [readMemory, htask, haddr, hread]
        rw [hrun]
        refine ⟨fun _ => hdata bs rfl, fun unreadable => ?_, hkept⟩
        exact absurd ⟨task, htask, Or.inl (by rw [hread]; rfl)⟩ unreadable
      | none =>
        have hrun : readMemory k addr 4 x = ((ptraceRead k x.pid 1 addr 4 os₁).1,
            { x with os := (k.readD x.pid addr os₁).2 }) := by
          simp [readMemory, htask, haddr, hread, ptraceRead_word]
        have hmem := (shows.readD_mem { x with os := os₁ } addr).trans hkept
        have hread' : Readable k addr x ↔ ∃ w, (k.readD x.pid addr os₁).1 = .ok w := by
          constructor
          · rintro ⟨task', htask', hgot⟩
            obtain rfl : task = task' := Option.some.inj (htask.symm.trans htask')
            rw [hread] at hgot
            exact hgot.resolve_left (by simp)
          · intro hword
            exact ⟨task, htask, Or.inr (by rwa [hread])⟩
        rw [hrun, ptraceRead_word, haddr, hread']
        cases hword : (k.readD x.pid addr os₁).1 with
        | ok w =>
          have hload := shows.readD { x with os := os₁ } addr w hword
          have hsame : load (mem { x with os := os₁ }) addr 4 = load (mem x) addr 4 :=
            congrArg (load · addr 4) hkept
          refine ⟨fun _ => hload.trans hsame, fun unreadable => ?_, hmem⟩
          exact absurd ⟨w, rfl⟩ unreadable
        | error errno => exact ⟨by simp, fun _ => rfl, hmem⟩

theorem ptraceWrite_word (pid addr : Int) {bs : List Byte} (hlen : bs.length = 4) (os : σ) :
    ∃ w : Word, w.toList = bs ∧
      ptraceWrite k pid 1 addr bs os = k.writeD pid (vmAddress addr) w os := by
  refine ⟨copyIn (Vector.replicate 4 0) 0 (bs.take 4), ?_, ?_⟩
  · rw [List.take_of_length_le hlen.le]
    exact copyIn_all _ hlen
  · have hfull : ¬ bs.length < 4 := by omega
    cases hwrite : k.writeD pid (vmAddress addr) (copyIn (Vector.replicate 4 0) 0 (bs.take 4)) os
    rename_i errno os'
    by_cases hzero : errno = 0 <;> simp [ptraceWrite, hfull, hwrite, hzero]

/-- The last resort of `darwin_write_memory`. -/
theorem ptraceWrite_mem (shows : ShowsMemory k mem) {addr : Nat} (lt : addr < 2 ^ 32)
    {bs : List Byte} (hlen : bs.length = 4) (x : TargetState σ) :
    mem { x with os := (ptraceWrite k x.pid 1 addr bs x.os).2 } =
      if (ptraceWrite k x.pid 1 addr bs x.os).1 = 0 then store (mem x) addr bs else mem x := by
  obtain ⟨w, hw, hrun⟩ := ptraceWrite_word (k := k) x.pid addr hlen x.os
  rw [hrun, vmAddress_of_lt lt]
  split
  · rename_i written
    rw [← hw]
    exact shows.writeD x addr w written
  · rename_i refused
    exact shows.writeD_failed x addr w refused

theorem machWrite_mem (shows : ShowsMemory k mem) {x : TargetState σ} {task : Port}
    (htask : x.task = some task) (addr : Nat) (bs : List Byte) :
    mem { x with os := (machWrite k task addr bs x.os).2 } =
      if (machWrite k task addr bs x.os).1 then store (mem x) addr bs else mem x := by
  refine machWrite_puts (f := fun os => mem { x with os := os }) (fun m => store m addr bs)
    ?_ ?_ x.os
  · intro os
    split
    · rename_i written
      exact shows.vmWrite { x with os := os } task addr bs htask written
    · rename_i refused
      exact shows.vmWrite_failed { x with os := os } task addr bs htask
        (Bool.eq_false_iff.mpr refused)
  · exact fun os => shows.vmProtect_mem { x with os := os } task addr bs.length htask

/-- What `darwin_write_memory` does to a word. -/
theorem writeMemory_word (shows : ShowsMemory k mem) {addr : Nat} (lt : addr < 2 ^ 32)
    {bs : List Byte} (hlen : bs.length = 4) (x : TargetState σ) :
    mem (writeMemory k addr bs x).2 =
      if (writeMemory k addr bs x).1 = 0 then store (mem x) addr bs else mem x := by
  cases htask : x.task with
  | none =>
    have hrun : writeMemory k addr bs x = (eio, x) := by simp [writeMemory, htask]
    rw [hrun]
    rfl
  | some task =>
    have hmach := machWrite_mem shows htask (vmAddress addr) bs
    rcases hcall : machWrite k task (vmAddress addr) bs x.os with ⟨written, os⟩
    rw [hcall, vmAddress_of_lt lt] at hmach
    rw [writeMemory_of_machWrite k htask hcall]
    cases written with
    | true => exact hmach
    | false =>
      -- the word goes through `ptrace`, in the memory as it was
      have hkept : mem { x with os := os } = mem x := hmach
      have hlast := ptraceWrite_mem shows lt hlen { x with os := os }
      rw [hkept] at hlast
      simpa [hlen] using hlast

/-- Whose memory it is stays as it was. -/
theorem readMemory_target (a : Int) (n : Nat) (x : TargetState σ) :
    ∃ os, (readMemory k a n x).2 = { x with os := os } := by
  unfold readMemory
  split
  · exact ⟨x.os, rfl⟩
  · split
    · exact ⟨_, rfl⟩
    · exact ⟨_, rfl⟩

theorem writeMemory_target (a : Int) (bs : List Byte) (x : TargetState σ) :
    ∃ os, (writeMemory k a bs x).2 = { x with os := os } := by
  unfold writeMemory
  split
  · exact ⟨x.os, rfl⟩
  · dsimp only
    split
    · exact ⟨_, rfl⟩
    · split
      · split
        · exact ⟨_, rfl⟩
        · exact ⟨_, rfl⟩
      · exact ⟨_, rfl⟩

theorem faltering (shows : ShowsMemory k mem) {addr : Nat} (lt : addr < 2 ^ 32) :
    MemBreak.Faltering (memTarget k) mem (Readable k addr) addr where
  read x readable := (readMemory_word shows lt x).1 readable
  read_failed x unreadable := (readMemory_word shows lt x).2.1 unreadable
  read_mem x := (readMemory_word shows lt x).2.2
  write _ x hlen written := (writeMemory_word shows lt hlen x).trans (if_pos written)
  write_failed _ x hlen refused := (writeMemory_word shows lt hlen x).trans (if_neg refused)

end Darwin

/-- A `Z0` packet that is answered `OK` has its trap in memory. -/
def OkMeansPlanted (k : Kernel σ) (host : Signals.Host)
    (mem : Darwin.TargetState σ → MemBreak.Memory) (s : Server σ) (t : ThreadInfo) (addr : Nat)
    (field : List Byte) : Prop :=
  Proc.Ends (handlePacket k host)
    (fun _ s' => cstr s'.ownBuf = ascii "OK" →
      load (mem (s'.memState t).target) addr 4 = MemBreak.ppcTrap)
    (fun _ _ => False) (s.withText (ascii "Z0," ++ field))

/-- A breakpoint at `addr` is taken out without a mark, and is said to be there only over its
trap. -/
structure RecordedAsPlanted (k : Kernel σ) (host : Signals.Host)
    (mem : Darwin.TargetState σ → MemBreak.Memory) (s : Server σ) (t : ThreadInfo)
    (addr : Nat) : Prop where
  restores : ∀ handler,
    MemBreak.Restores (Darwin.memTarget k) mem (s.memState t) addr handler
  shown : ∀ handler,
    MemBreak.ShownPlanted (Darwin.memTarget k) mem (s.memState t) addr handler
  answered : ∀ field, (strtoul (field ++ [0])).1 = addr →
    OkMeansPlanted k host mem s t addr field

/-- The target's share of the state goes out and in again. -/
theorem memState_putMemory {m : MemBreak.MemState (Darwin.TargetState σ)}
    (hm : ∃ os, m.target = { (s.memState t).target with os := os }) :
    (s.putMemory m).memState t = m := by
  obtain ⟨os, hos⟩ := hm
  cases m with
  | mk breakpoints nextNode target =>
    cases hos
    rfl

theorem afterSet_target (m : MemBreak.MemState (Darwin.TargetState σ)) (a : Int)
    (handler : MemBreak.Handler) :
    ∃ os, (MemBreak.afterSet (Darwin.memTarget k) m a handler).target =
      { m.target with os := os } := by
  obtain ⟨os, hread⟩ := Darwin.readMemory_target (k := k) a 4 m.target
  obtain ⟨os', hwrite⟩ := Darwin.writeMemory_target (k := k) a MemBreak.ppcTrap
    (Darwin.readMemory k a 4 m.target).2
  refine ⟨os', ?_⟩
  rw [MemBreak.afterSet_eq rfl]
  exact hwrite.trans (by rw [hread])

theorem handlePacket_Z0_ends (h : Live s t) (field : List Byte) :
    Proc.Ends (handlePacket k host)
      (fun _ s' => cstr s'.ownBuf = ascii "OK" ∧ s'.memState t =
        MemBreak.afterSet (Darwin.memTarget k) (s.memState t)
          ((strtoul (field ++ [0])).1 : Int) .null)
      (fun _ _ => False) (s.withText (ascii "Z0," ++ field)) := by
  let s₁ := s.withText (ascii "Z0," ++ field)
  have h₁ : Live s₁ t := h
  have hfield : (strtoul (s₁.ownBuf.drop 3)).1 = (strtoul (field ++ [0])).1 :=
    strtoul_nul field _ []
  have hrun : (handlePacket k host).run s₁ =
      (do handleZInsertBp k; return false : Proc (Server σ) Bool).run s₁ := by
    rw [handlePacket_run, show command s₁ = 'Z' from rfl]
    rfl
  have hinsert := handleZInsertBp_run (k := k) h₁ rfl
  rw [hfield] at hinsert
  have hkept := afterSet_target (k := k) (s₁.memState t) ((strtoul (field ++ [0])).1 : Int) .null
  unfold Proc.Ends
  rw [hrun, EStateM.run_bind, hinsert]
  exact ⟨cstr_append_nul (by decide) _, memState_putMemory hkept⟩

/-- The list tells the truth about a trap just if the bytes under it could be read, or were
zero, and it was written, or was there. -/
theorem recordedAsPlanted_iff (shows : ShowsMemory k mem) (h : Live s t) {addr : Nat}
    (lt : addr < 2 ^ 32) :
    RecordedAsPlanted k host mem s t addr ↔
      (MemBreak.removingResult (Darwin.memTarget k) (s.memState t) addr = 0 →
        Darwin.Readable k addr (s.memState t).target ∨
          load (mem (s.memState t).target) addr 4 = [0, 0, 0, 0]) ∧
      (MemBreak.plantingResult (Darwin.memTarget k) (s.memState t) addr = 0 ∨
        load (mem (s.memState t).target) addr 4 = MemBreak.ppcTrap) := by
  have laws := Darwin.faltering shows lt
  constructor
  · intro recorded
    exact ⟨(laws.restores_iff rfl).mp (recorded.restores .null),
      (laws.shownPlanted_iff rfl).mp (recorded.shown .null)⟩
  · rintro ⟨hread, hwritten⟩
    refine ⟨fun _ => (laws.restores_iff rfl).mpr hread,
      fun _ => (laws.shownPlanted_iff rfl).mpr hwritten, fun field hfield => ?_⟩
    refine (handlePacket_Z0_ends h field).imp ?_ fun _ _ => id
    rintro _ s' ⟨-, hstate⟩ -
    rw [hstate, hfield]
    exact (laws.load_afterSet_iff rfl).mpr hwritten

/-- `singleThread` with a memory, the reads and the writes of which fail or do not. -/
def guardedThread (readable writable : Bool) : Kernel MemBreak.Memory where
  forkExec m := (some 7, m)
  ptrace _ _ _ m := (true, m)
  readD _ _ m := (.error Darwin.eio, m)
  writeD _ _ _ m := (Darwin.eio, m)
  waitpid _ m := (.stopped 5, m)
  reap _ m := m
  kill _ _ m := (true, m)
  taskForPid _ m := (some 1, m)
  taskThreads _ m := (some [1], m)
  vmRead _ addr n m := (if readable then some (load m addr n) else none, m)
  vmWrite _ addr bs m := (writable, if writable then store m addr bs else m)
  vmProtect _ _ _ m := (false, m)
  threadGetState _ m := (some blankMachine.thread, m)
  threadSetState _ _ m := (true, m)
  floatGetState _ m := (some blankMachine.float, m)
  floatSetState _ _ m := (true, m)
  vmRead_length := by
    intro _ addr n m bs hbs
    split at hbs
    · cases hbs
      exact load_length m addr n
    · cases hbs

theorem showsMemory_guardedThread (readable writable : Bool) :
    ShowsMemory (guardedThread readable writable) Darwin.TargetState.os where
  vmRead x _ addr n bs _ hread := by
    cases readable with
    | true => exact (Option.some.inj hread).symm
    | false => cases hread
  vmRead_mem _ _ _ _ _ := rfl
  readD _ _ _ hread := by cases hread
  readD_mem _ _ := rfl
  vmWrite _ _ _ _ _ hwrite := if_pos hwrite
  vmWrite_failed _ _ _ _ _ hwrite := if_neg (Bool.eq_false_iff.mp hwrite)
  vmProtect_mem _ _ _ _ _ := rfl
  writeD _ _ _ hwrite := by cases hwrite
  writeD_failed _ _ _ _ := rfl

/-- The server that has launched it. -/
def launchedIn (readable writable : Bool) (m : MemBreak.Memory) : Server MemBreak.Memory :=
  Proc.final ((prepareInferior (guardedThread readable writable) 0 0).run (initial m []))

theorem reachable_launchedIn (host : Signals.Host) (readable writable : Bool)
    (m : MemBreak.Memory) :
    Reachable (guardedThread readable writable) host (launchedIn readable writable m) :=
  .start 0 0 (fresh_initial m []) rfl

/-- A server whose process is `guardedThread`'s, with this memory. -/
structure Guarded (s : Server MemBreak.Memory) (m : MemBreak.Memory) : Prop where
  os : s.os = m
  task : s.currentTask = some 1

theorem guarded_launchedIn (readable writable : Bool) (m : MemBreak.Memory) :
    Guarded (launchedIn readable writable m) m := ⟨rfl, rfl⟩

section Guarded

variable {r w : Bool} {s : Server MemBreak.Memory} {m : MemBreak.Memory}

theorem Guarded.readable_iff (h : Guarded s m) (addr : Nat) :
    Darwin.Readable (guardedThread r w) addr (s.memState t).target ↔ r = true := by
  constructor
  · rintro ⟨task, -, hread | ⟨word, hword⟩⟩
    · cases r with
      | true => rfl
      | false => cases hread
    · cases hword
  · rintro rfl
    exact ⟨1, h.task, Or.inl rfl⟩

theorem writeMemory_guarded {x : Darwin.TargetState MemBreak.Memory} (htask : x.task = some 1)
    (a : Int) {bs : List Byte} (hlen : bs.length = 4) :
    (Darwin.writeMemory (guardedThread r w) a bs x).1 = if w then 0 else Darwin.eio := by
  cases w with
  | true => simp [Darwin.writeMemory, htask, guardedThread]
  | false =>
    simp [Darwin.writeMemory, htask, guardedThread, hlen, Darwin.ptraceWrite]
    rfl

theorem Guarded.planting (h : Guarded s m) (a : Int) :
    MemBreak.plantingResult (Darwin.memTarget (guardedThread r w)) (s.memState t) a =
      if w then 0 else Darwin.eio := by
  obtain ⟨os, hread⟩ := Darwin.readMemory_target (k := guardedThread r w) a 4 (s.memState t).target
  have htask : (Darwin.readMemory (guardedThread r w) a 4 (s.memState t).target).2.task = some 1 :=
    (congrArg Darwin.TargetState.task hread).trans h.task
  exact writeMemory_guarded htask a rfl

theorem Guarded.removing (h : Guarded s m) (a : Int) :
    MemBreak.removingResult (Darwin.memTarget (guardedThread r w)) (s.memState t) a =
      if w then 0 else Darwin.eio := by
  obtain ⟨os, hset⟩ := afterSet_target (k := guardedThread r w) (s.memState t) a .null
  rw [MemBreak.afterSet_eq rfl] at hset
  exact writeMemory_guarded ((congrArg Darwin.TargetState.task hset).trans h.task) a
    (Darwin.readMemory_length _ a 4 _)

end Guarded

theorem recordedAsPlanted_iff_guarded :
    ∃ t, Live (launchedIn true true fun _ => 1) t ∧
      RecordedAsPlanted (guardedThread true true) Signals.darwin Darwin.TargetState.os
        (launchedIn true true fun _ => 1) t 16 := by
  obtain ⟨rs, t, h⟩ := (reachable_launchedIn Signals.darwin true true fun _ => 1).serving
  have guarded := guarded_launchedIn true true fun _ => 1
  refine ⟨t, h.live, (recordedAsPlanted_iff (showsMemory_guardedThread true true) h.live
    (by decide)).mpr ⟨fun _ => Or.inl ?_, Or.inl ?_⟩⟩
  · exact (guarded.readable_iff 16).mpr rfl
  · exact guarded.planting 16

/-- Where nothing can be written `Z0,10` is answered `OK` all the same. -/
theorem not_okMeansPlanted_guarded {t : ThreadInfo}
    (h : Live (launchedIn true false fun _ => 1) t) :
    ¬ OkMeansPlanted (guardedThread true false) Signals.darwin Darwin.TargetState.os
      (launchedIn true false fun _ => 1) t 16 (ascii "10") := by
  intro okMeans
  have guarded := guarded_launchedIn true false fun _ => 1
  have laws := Darwin.faltering (showsMemory_guardedThread true false)
    (show 16 < 2 ^ 32 by decide)
  have hboth := (handlePacket_Z0_ends h (ascii "10")).and okMeans
  unfold Proc.Ends at hboth
  split at hboth
  · obtain ⟨⟨hok, hstate⟩, planted⟩ := hboth
    have hload := planted hok
    have haddr : (strtoul (ascii "10" ++ [0])).1 = 16 := by decide
    rw [hstate, haddr] at hload
    rcases (laws.load_afterSet_iff rfl).mp hload with hwritten | hthere
    · exact absurd ((guarded.planting 16).symm.trans hwritten) (by decide)
    · rw [Server.memState, guarded.os] at hthere
      have hones : load (fun _ => 1) 16 4 = MemBreak.ppcTrap := hthere
      exact absurd hones (by decide)
  · exact hboth.1

/-- Where nothing can be read a trap leaves zeros behind. -/
theorem not_restores_guarded (t : ThreadInfo) :
    ¬ MemBreak.Restores (Darwin.memTarget (guardedThread false true)) Darwin.TargetState.os
      ((launchedIn false true fun _ => 1).memState t) 16 .null := by
  intro restores
  have guarded := guarded_launchedIn false true fun _ => 1
  have laws := Darwin.faltering (showsMemory_guardedThread false true)
    (show 16 < 2 ^ 32 by decide)
  rcases (laws.restores_iff rfl).mp restores (guarded.removing 16) with hread | hzero
  · exact absurd ((guarded.readable_iff 16).mp hread) Bool.false_ne_true
  · rw [Server.memState, guarded.os] at hzero
    have hones : load (fun _ => 1) 16 4 = List.replicate 4 (0 : Byte) := hzero
    exact absurd hones (by decide)

theorem not_recordedAsPlanted_guarded :
    (∃ t, Live (launchedIn true false fun _ => 1) t ∧
      ¬ RecordedAsPlanted (guardedThread true false) Signals.darwin Darwin.TargetState.os
        (launchedIn true false fun _ => 1) t 16) ∧
    ∃ t, Live (launchedIn false true fun _ => 1) t ∧
      ¬ RecordedAsPlanted (guardedThread false true) Signals.darwin Darwin.TargetState.os
        (launchedIn false true fun _ => 1) t 16 := by
  constructor
  · obtain ⟨rs, t, h⟩ := (reachable_launchedIn Signals.darwin true false fun _ => 1).serving
    exact ⟨t, h.live, fun recorded => not_okMeansPlanted_guarded h.live
      (recorded.answered (ascii "10") (by decide))⟩
  · obtain ⟨rs, t, h⟩ := (reachable_launchedIn Signals.darwin false true fun _ => 1).serving
    exact ⟨t, h.live, fun recorded => not_restores_guarded t (recorded.restores .null)⟩

end Gdbserver
