import OsxGdbserver.BreakpointTransparency
import OsxGdbserver.Conversations
import OsxGdbserver.Detaching

/-!
# Memory as the client sees it

Over a whole debugging session the client reads and writes a memory in which the server's
traps do not occur. The packets that read and write, and those that set and delete
breakpoints, act on it as they should; the other packets leave it alone, but for what the
process itself stores when one of them lets it run.
-/

namespace MemBreak

open Overlay

variable {σ : Type} {t : MemTarget σ} {mem : σ → Memory} {s : MemState σ} {plain : Memory}

theorem clientView_congr {bps : List Breakpoint} {m m' : Memory} {x : Int} (same : m x = m' x) :
    clientView t bps m x = clientView t bps m' x := by
  induction bps generalizing m m' with
  | nil => exact same
  | cons b rest ih => exact ih (store_congr fun _ => same)

/-- The process has run, and stored nothing under a breakpoint. -/
theorem Shadows.ran (h : Shadows t mem s plain) (seen : Int → Prop) (target : σ)
    (covered : ∀ b ∈ s.breakpoints, ∀ x, Covers t b x → seen x)
    (kept : ∀ x, seen x → mem target x = mem s.target x) :
    Shadows t mem { s with target := target } (clientView t s.breakpoints (mem target)) ∧
      ∀ x, seen x → clientView t s.breakpoints (mem target) x = plain x := by
  have hplain : ∀ x, seen x → clientView t s.breakpoints (mem target) x = plain x := by
    intro x hx
    rw [clientView_congr (kept x hx), h.clientView_eq]
  refine ⟨⟨⟨h.linked.nodup, h.linked.below⟩, h.inRange, h.apart, ?_, ?_, ?_⟩, hplain⟩
  · intro b hb
    rw [h.savedPlain b hb]
    exact load_eq_iff.mpr fun x hx => (hplain x (covered b hb x hx)).symm
  · intro b hb planted
    rw [← h.traps.1 b hb planted]
    exact load_eq_iff.mpr fun x hx => kept x (covered b hb x hx)
  · intro x hx
    by_cases hcovered : ∃ b ∈ s.breakpoints, Covers t b x
    · obtain ⟨b, hb, hcovers⟩ := hcovered
      have hseen := covered b hb x hcovers
      exact (kept x hseen).trans ((h.traps.2 x hx).trans (hplain x hseen).symm)
    · have hfree : ∀ b ∈ s.breakpoints, ¬ Covers t b x :=
        fun b hb hcovers => hcovered ⟨b, hb, hcovers⟩
      exact (clientView_of_uncovered t hfree (mem target)).symm

/-- A write that goes through keeps the places of the breakpoints. -/
theorem writeInferiorMemory_ok {a : Int} {data : List Byte}
    (writes : WritesAt t mem s.target a (checkMemWrite t a data s.breakpoints).1) :
    ∃ m, (writeInferiorMemory t a data).run s = .ok 0 m ∧
      m.breakpoints.map (·.pc) = s.breakpoints.map (·.pc) :=
  ⟨_, (writeInferiorMemory_run t s a data).trans (by rw [writes.write]),
    checkMemWrite_pcs t a data s.breakpoints⟩

theorem deleteBreakpointAt_ok (linked : WellLinked s) (addr : Int) :
    ∃ m, (deleteBreakpointAt t addr).run s = .ok () m ∧
      m.breakpoints = s.breakpoints.eraseP fun b => b.pc = addr := by
  cases hfind : findBreakpointAt addr s.breakpoints with
  | none =>
    refine ⟨s, deleteBreakpointAt_none t hfind, (List.eraseP_of_forall_not ?_).symm⟩
    exact fun b hb heq => findBreakpointAt_eq_none.mp hfind b hb (of_decide_eq_true heq)
  | some b =>
    obtain ⟨hpc, pre, post, hsplit, hpre⟩ := findBreakpointAt_eq_some hfind
    refine ⟨_, deleteBreakpointAt_some t linked hsplit hfind, ?_⟩
    have hskip : ∀ c ∈ pre, ¬ decide (c.pc = addr) = true :=
      fun c hc heq => hpre c hc (of_decide_eq_true heq)
    simp [hsplit, List.eraseP_append_right _ hskip, hpc]

end MemBreak

namespace Gdbserver

open Remote CString Overlay Simulation Ppc

variable {σ : Type} {k : Kernel σ} {host : Signals.Host} {memory : σ → MemBreak.Memory}
  {text : Int → Prop} {task : Port}

namespace Darwin

/-- The memory operations on `task`, whatever the current task is. -/
def taskTarget (k : Kernel σ) (task : Port) : MemBreak.MemTarget (TargetState σ) where
  readMemory a n x := readMemory k a n { x with task := some task }
  writeMemory a bs x := writeMemory k a bs { x with task := some task }
  breakpointData := some MemBreak.ppcTrap
  readMemory_length a n x := readMemory_length k a n { x with task := some task }
  breakpointData_length := MemBreak.ppcTrap_length

/-- The target's task is `task`. -/
def OfTask (task : Port) (m : MemBreak.MemState (TargetState σ)) : Prop :=
  m.target.task = some task

theorem setTask_eq {x : TargetState σ} (h : x.task = some task) :
    ({ x with task := some task } : TargetState σ) = x := by
  rw [← h]

theorem readTarget_agree (a : Int) (n : Nat) :
    Proc.Agree (OfTask task) (MemBreak.readTarget (memTarget k) a n)
      (MemBreak.readTarget (taskTarget k task) a n) := by
  refine .modifyGet (fun m hm => ?_) fun m hm => ?_
  · simp only [taskTarget, setTask_eq hm]
    rfl
  · obtain ⟨os, htarget⟩ := readMemory_target (k := k) a n m.target
    exact (congrArg TargetState.task htarget).trans hm

theorem writeTarget_agree (a : Int) (bs : List Byte) :
    Proc.Agree (OfTask task) (MemBreak.writeTarget (memTarget k) a bs)
      (MemBreak.writeTarget (taskTarget k task) a bs) := by
  refine .modifyGet (fun m hm => ?_) fun m hm => ?_
  · simp only [taskTarget, setTask_eq hm]
    rfl
  · obtain ⟨os, htarget⟩ := writeMemory_target (k := k) a bs m.target
    exact (congrArg TargetState.task htarget).trans hm

theorem setBreakpointAt_agree (k : Kernel σ) (addr : Int) (handler : MemBreak.Handler) :
    Proc.Agree (OfTask task) (MemBreak.setBreakpointAt (memTarget k) addr handler)
      (MemBreak.setBreakpointAt (taskTarget k task) addr handler) :=
  .bind (readTarget_agree addr _) fun _ => .bind (writeTarget_agree addr _) fun _ =>
    .of_preserves fun _ hm => hm

theorem deleteBreakpointAt_agree (k : Kernel σ) (addr : Int) :
    Proc.Agree (OfTask task) (MemBreak.deleteBreakpointAt (memTarget k) addr)
      (MemBreak.deleteBreakpointAt (taskTarget k task) addr) := by
  have hdelete : ∀ bp, Proc.Agree (OfTask task) (MemBreak.deleteBreakpoint (memTarget k) bp)
      (MemBreak.deleteBreakpoint (taskTarget k task) bp) := by
    intro bp
    refine .get_bind fun m hm => ?_
    cases MemBreak.unlink bp.node m.breakpoints with
    | some rest =>
      exact .bind (.of_preserves fun _ _ => hm) fun _ =>
        .bind (writeTarget_agree bp.pc _) fun _ => .of_preserves (.pure _)
    | none => exact .of_preserves (.ite (.throw _) (.pure _))
  refine .get_bind fun m _ => ?_
  cases MemBreak.findBreakpointAt addr m.breakpoints with
  | none => exact .of_preserves (.pure _)
  | some bp => exact hdelete bp

theorem readInferiorMemory_agree (k : Kernel σ) (a : Int) (n : Nat) :
    Proc.Agree (OfTask task) (MemBreak.readInferiorMemory (memTarget k) a n)
      (MemBreak.readInferiorMemory (taskTarget k task) a n) :=
  .bind (readTarget_agree a n) fun _ => .of_preserves (.bind .get fun _ => .pure _)

theorem checkMemWrite_taskTarget (a : Int) (bs : List Byte) (bps : List MemBreak.Breakpoint) :
    MemBreak.checkMemWrite (taskTarget k task) a bs bps =
      MemBreak.checkMemWrite (memTarget k) a bs bps := by
  induction bps generalizing bs with
  | nil => rfl
  | cons bp rest ih =>
    have hone : MemBreak.checkMemWriteOne (taskTarget k task) a bs bp =
        MemBreak.checkMemWriteOne (memTarget k) a bs bp := rfl
    simp only [MemBreak.checkMemWrite, hone, ih]

theorem writeInferiorMemory_agree (k : Kernel σ) (a : Int) (bs : List Byte) :
    Proc.Agree (OfTask task) (MemBreak.writeInferiorMemory (memTarget k) a bs)
      (MemBreak.writeInferiorMemory (taskTarget k task) a bs) := by
  refine .get_bind fun m hm => ?_
  dsimp only
  rw [checkMemWrite_taskTarget]
  exact .bind (.of_preserves fun _ _ => hm) fun _ => writeTarget_agree a _

end Darwin

/-- A process whose memory is only what is written to it: the calls about its registers leave
it alone, and the process itself does not store to `text`. -/
structure ProcessMemory (k : Kernel σ) (memory : σ → MemBreak.Memory) (text : Int → Prop) :
    Prop where
  shows : ShowsMemory k fun x => memory x.os
  threadGet : ∀ port os, memory (k.threadGetState port os).2 = memory os
  threadSet : ∀ port state os, memory (k.threadSetState port state os).2 = memory os
  floatGet : ∀ port os, memory (k.floatGetState port os).2 = memory os
  floatSet : ∀ port fstate os, memory (k.floatSetState port fstate os).2 = memory os
  kill : ∀ pid sig os, memory (k.kill pid sig os).2 = memory os
  taskForPid : ∀ pid os, memory (k.taskForPid pid os).2 = memory os
  taskThreads : ∀ task os, memory (k.taskThreads task os).2 = memory os
  ptrace : ∀ request pid data os x, text x → memory (k.ptrace request pid data os).2 x = memory os x
  waitpid : ∀ pid os x, text x → memory (k.waitpid pid os).2 x = memory os x

namespace Server

/-- `vm_read` gives these bytes. -/
def CanRead (k : Kernel σ) (s : Server σ) (addr : Int) (len : Nat) : Prop :=
  ∀ task, s.currentTask = some task →
    (k.vmRead task (Darwin.vmAddress addr) len s.os).1.isSome = true

/-- `vm_write` takes these bytes, at the latest after `vm_protect`. -/
def CanWrite (k : Kernel σ) (s : Server σ) (addr : Int) (bytes : List Byte) : Prop :=
  ∀ task, s.currentTask = some task →
    (Darwin.machWrite k task (Darwin.vmAddress addr) bytes s.os).1 = true

/-- A breakpoint at `addr` can be planted: first what is there is read. -/
def CanPlant (k : Kernel σ) (s : Server σ) (addr : Int) : Prop :=
  s.CanRead k addr 4 ∧ ∀ task, s.currentTask = some task →
    CanWrite k { s with os := (k.vmRead task (Darwin.vmAddress addr) 4 s.os).2 } addr
      MemBreak.ppcTrap

/-- What the breakpoint at `addr` has saved can be written back, if there is one. -/
def CanClear (k : Kernel σ) (s : Server σ) (addr : Int) : Prop :=
  ∀ b, MemBreak.findBreakpointAt addr s.breakpoints = some b →
    s.CanWrite k b.pc (MemBreak.saved (Darwin.memTarget k) b)

end Server

namespace ProcessMemory

theorem vmAddress_of_inRange {a : Int} {n : Nat} (inside : MemBreak.InRange a n) :
    (Darwin.vmAddress a : Int) = a ∨ n = 0 := by
  obtain ⟨hlow, hhigh⟩ := inside
  unfold Darwin.vmAddress
  omega

theorem load_vmAddress (m : MemBreak.Memory) {a : Int} {n : Nat}
    (inside : MemBreak.InRange a n) : load m (Darwin.vmAddress a) n = load m a n := by
  rcases vmAddress_of_inRange inside with heq | rfl
  · rw [heq]
  · rfl

theorem store_vmAddress (m : MemBreak.Memory) {a : Int} {bs : List Byte}
    (inside : MemBreak.InRange a bs.length) :
    store m (Darwin.vmAddress a) bs = store m a bs := by
  rcases vmAddress_of_inRange inside with heq | hnone
  · rw [heq]
  · have hspan : ∀ b x : Int, ¬ InSpan b bs.length x := by
      unfold InSpan
      omega
    funext x
    rw [store_of_not_inSpan (hspan _ x), store_of_not_inSpan (hspan a x)]

/-- `darwin_read_memory` where `vm_read` succeeds. -/
theorem readMemory_eq {a : Int} {n : Nat} {x : Darwin.TargetState σ}
    (got : (k.vmRead task (Darwin.vmAddress a) n x.os).1.isSome = true) :
    ∃ bs, (k.vmRead task (Darwin.vmAddress a) n x.os).1 = some bs ∧
      Darwin.readMemory k a n { x with task := some task } =
        (bs,
          { x with os := (k.vmRead task (Darwin.vmAddress a) n x.os).2, task := some task }) := by
  rcases hcall : k.vmRead task (Darwin.vmAddress a) n x.os with ⟨_ | bs, os⟩
  · rw [hcall] at got
    cases got
  · exact ⟨bs, rfl, by simp only [Darwin.readMemory, hcall]⟩

theorem readsAt (h : ProcessMemory k memory text) {a : Int} {n : Nat}
    (inside : MemBreak.InRange a n) {x : Darwin.TargetState σ}
    (got : (k.vmRead task (Darwin.vmAddress a) n x.os).1.isSome = true) :
    MemBreak.ReadsAt (Darwin.taskTarget k task) (fun x => memory x.os) x a n := by
  obtain ⟨bs, hgot, hrun⟩ := readMemory_eq got
  let y : Darwin.TargetState σ := { x with task := some task }
  constructor
  · have hbytes := h.shows.vmRead y task (Darwin.vmAddress a) n bs rfl hgot
    rw [load_vmAddress _ inside] at hbytes
    exact (congrArg Prod.fst hrun).trans hbytes
  · have hsame := h.shows.vmRead_mem y task (Darwin.vmAddress a) n rfl
    exact (congrArg (fun r => memory r.2.os) hrun).trans hsame

/-- `darwin_write_memory` where `vm_write` succeeds. -/
theorem writesAt (h : ProcessMemory k memory text) {a : Int} {bs : List Byte}
    (inside : MemBreak.InRange a bs.length) {x : Darwin.TargetState σ}
    (written : (Darwin.machWrite k task (Darwin.vmAddress a) bs x.os).1 = true) :
    MemBreak.WritesAt (Darwin.taskTarget k task) (fun x => memory x.os) x a bs := by
  let y : Darwin.TargetState σ := { x with task := some task }
  have hmem := Darwin.machWrite_mem h.shows (x := y) rfl (Darwin.vmAddress a) bs
  rcases hcall : Darwin.machWrite k task (Darwin.vmAddress a) bs x.os with ⟨done, os⟩
  have hcall' : Darwin.machWrite k task (Darwin.vmAddress a) bs y.os = (done, os) := hcall
  rw [hcall] at written
  obtain rfl : done = true := written
  rw [hcall', if_pos rfl, store_vmAddress _ inside] at hmem
  have hrun : Darwin.writeMemory k a bs y = (0, { y with os := os }) :=
    Darwin.writeMemory_of_machWrite k rfl hcall'
  exact ⟨congrArg Prod.fst hrun, (congrArg (fun r => memory r.2.os) hrun).trans hmem⟩

variable {s : Server σ} {t : ThreadInfo}

/-- The accesses of a breakpoint that is set. -/
theorem plants (h : ProcessMemory k memory text) {a : Int} (inside : MemBreak.InRange a 4)
    (current : s.currentTask = some task) (can : s.CanPlant k a) :
    MemBreak.ReadsAt (Darwin.taskTarget k task) (fun x => memory x.os) (s.memState t).target a 4 ∧
      MemBreak.WritesAt (Darwin.taskTarget k task) (fun x => memory x.os)
        ((Darwin.taskTarget k task).readMemory a 4 (s.memState t).target).2 a MemBreak.ppcTrap := by
  have hgot := can.1 task current
  obtain ⟨bs, -, hrun⟩ := readMemory_eq (x := (s.memState t).target) hgot
  refine ⟨h.readsAt inside hgot, h.writesAt inside ?_⟩
  rw [show (Darwin.taskTarget k task).readMemory a 4 (s.memState t).target = _ from hrun]
  exact can.2 task current task current

/-- The access of a breakpoint that is deleted. -/
theorem clears (h : ProcessMemory k memory text)
    (inside : ∀ b ∈ s.breakpoints, MemBreak.InRange b.pc (Darwin.taskTarget k task).breakpointLen)
    (current : s.currentTask = some task) {a : Int} (can : s.CanClear k a) :
    ∀ b, MemBreak.findBreakpointAt a (s.memState t).breakpoints = some b →
      MemBreak.WritesAt (Darwin.taskTarget k task) (fun x => memory x.os) (s.memState t).target
        b.pc (MemBreak.saved (Darwin.taskTarget k task) b) := by
  intro b hfind
  obtain ⟨_, pre, post, hsplit, _⟩ := MemBreak.findBreakpointAt_eq_some hfind
  have hb : b ∈ s.breakpoints := by
    rw [show s.breakpoints = pre ++ b :: post from hsplit]
    exact List.mem_append_right _ List.mem_cons_self
  refine h.writesAt ?_ (can b hfind task current)
  rw [MemBreak.saved_length]
  exact inside b hb

theorem fetchRegisters (h : ProcessMemory k memory text) (port : Port) (registers : List Byte)
    (os : σ) : memory (DarwinPpc.fetchRegisters k port registers os).2 = memory os := by
  have hthread := h.threadGet port os
  unfold DarwinPpc.fetchRegisters
  rcases hcall : k.threadGetState port os with ⟨_ | state, os₁⟩
  · rwa [hcall] at hthread
  · have hfloat := h.floatGet port os₁
    rw [hcall] at hthread
    dsimp only
    rcases hcall' : k.floatGetState port os₁ with ⟨_ | fstate, os₂⟩
    · rw [hcall'] at hfloat
      exact hfloat.trans hthread
    · rw [hcall'] at hfloat
      exact hfloat.trans hthread

theorem storeRegisters (h : ProcessMemory k memory text) (port : Port) (registers : List Byte)
    (os : σ) : memory (DarwinPpc.storeRegisters k port registers os) = memory os := by
  have hthread := h.threadGet port os
  unfold DarwinPpc.storeRegisters
  rcases hcall : k.threadGetState port os with ⟨_ | state, os₁⟩
  · rwa [hcall] at hthread
  · rw [hcall] at hthread
    have hset := h.threadSet port (collectThread registers state) os₁
    have hfloat := h.floatGet port (k.threadSetState port (collectThread registers state) os₁).2
    dsimp only
    rcases hcall' : k.floatGetState port
      (k.threadSetState port (collectThread registers state) os₁).2 with ⟨_ | fstate, os₂⟩
    · rw [hcall'] at hfloat
      exact hfloat.trans (hset.trans hthread)
    · rw [hcall'] at hfloat
      exact (h.floatSet port _ os₂).trans (hfloat.trans (hset.trans hthread))

end ProcessMemory

/-- The breakpoints, and memory at the addresses `seen`. -/
def memoryView (memory : σ → MemBreak.Memory) (seen : Int → Prop) (s : Server σ) :
    List MemBreak.Breakpoint × Nat × Option Port × ({ x : Int // seen x } → Byte) :=
  (s.breakpoints, s.nextBreakpoint, s.currentTask, fun x => memory s.os x)

section Views

variable {seen : Int → Prop} {s s' : Server σ}

theorem memoryView_os {os : σ} (same : ∀ x, seen x → memory os x = memory s.os x) :
    memoryView memory seen { s with os := os } = memoryView memory seen s := by
  have hsame : (fun x : { x : Int // seen x } => memory os x) =
      fun x : { x : Int // seen x } => memory s.os x := by
    funext x
    exact same x x.property
  simp only [memoryView, hsame]

theorem asideRegisters_memoryView (h : ProcessMemory k memory text) (seen : Int → Prop) :
    AsideRegisters k (memoryView memory seen) where
  link _ _ := rfl
  current _ _ := rfl
  chosen _ _ _ _ := rfl
  threadPtr _ _ := rfl
  remoteDebug _ _ := rfl
  sent _ _ := rfl
  probed s pid := memoryView_os fun _ _ => congrFun (h.kill pid 0 s.os) _
  interrupted s t sig _ := memoryView_os fun _ _ => congrFun (h.kill t.pid sig s.os) _
  fetches s port registers :=
    memoryView_os fun _ _ => congrFun (h.fetchRegisters port registers s.os) _
  stores s port registers :=
    memoryView_os fun _ _ => congrFun (h.storeRegisters port registers s.os) _
  assigned _ _ _ := rfl
  fetched _ _ _ _ := rfl
  stored _ _ _ _ := rfl
  supplied _ _ _ _ _ _ := rfl
  reported _ _ := rfl

theorem asideTarget_memoryView (h : ProcessMemory k memory text) :
    AsideTarget k (memoryView memory text) where
  toAsideRegisters := asideRegisters_memoryView h text
  requests s request pid data := memoryView_os (h.ptrace request pid data s.os)
  waits s pid := memoryView_os (h.waitpid pid s.os)
  threads s task := memoryView_os fun _ _ => congrFun (h.taskThreads task s.os) _
  ptraced _ _ _ _ := rfl
  waited _ := rfl
  status _ _ := rfl
  sig _ _ := rfl

/-- A wait on behalf of a packet. -/
theorem mywait_memoryView (h : ProcessMemory k memory text) :
    Proc.Keeps (memoryView memory text) (mywait k true) :=
  .bind (.modify fun _ => rfl) fun _ => .bind (.modify fun _ => rfl) fun _ =>
    .bind (asideTarget_memoryView h).darwinWait fun _ =>
      .bind (.modify fun _ => rfl) fun _ => .modify fun _ => rfl

variable {t : ThreadInfo} {rs : List (List Byte)}

theorem resuming_memoryView (h : ProcessMemory k memory text) (serving : Serving rs s t) :
    Resuming k host (fun s' => memoryView memory text s' = memoryView memory text s) s t where
  refused _ := rfl
  waits contThread step sig := by
    let s₁ : Server σ := { s with contThread := contThread }
    have h₁ : Serving rs s₁ t := serving
    have htarget := asideTarget_memoryView h
    have hresumed := htarget.myresume step sig s₁
    rw [myresume_run h₁.live h₁.nodup h₁.id_eq step sig, Proc.final_ok] at hresumed
    have hreported : Proc.Keeps (memoryView memory text)
        (do mywait k true; prepareResumeReply k host) :=
      .bind (mywait_memoryView h) fun _ => htarget.prepareResumeReply
    exact (hreported _).trans hresumed

/-- The packet may let the process run. -/
def LetsRun (c : Char) : Prop := c ∈ ['C', 'S', 'c', 's', 'v']

instance (c : Char) : Decidable (LetsRun c) :=
  inferInstanceAs (Decidable (c ∈ ['C', 'S', 'c', 's', 'v']))

/-- The addresses at which a packet that does not write memory leaves it as it is. -/
def Untouched (text : Int → Prop) (c : Char) (x : Int) : Prop := LetsRun c → text x

/-- A packet that neither addresses memory nor lets go of the process. -/
def OtherPacket (s : Server σ) : Prop :=
  command s ∉ ['m', 'M', 'D', 'k'] ∧
    (command s ∈ ['Z', 'z'] → deref (s.ownBuf.drop 1) ≠ ch '0')

theorem handlePacket_letsRun (h : ProcessMemory k memory text) (serving : Serving rs s t)
    (runs : LetsRun (command s)) :
    Stays (fun s' => memoryView memory text s' = memoryView memory text s)
      (handlePacket k host) s := by
  suffices hdispatch : Stays (fun s' => memoryView memory text s' = memoryView memory text s)
      (dispatch k host (command s)) s from hdispatch
  have hresuming : Resuming k host _ s t := resuming_memoryView h serving
  simp only [LetsRun, List.mem_cons, List.not_mem_nil, or_false] at runs
  rcases runs with hc | hc | hc | hc | hc
  · rw [hc]
    exact (hresuming.signalHandler serving false).thenReturn
  · rw [hc]
    exact (hresuming.signalHandler serving true).thenReturn
  · rw [hc]
    exact (hresuming.resumeAndReport serving false 0).thenReturn
  · rw [hc]
    exact (hresuming.resumeAndReport serving true 0).thenReturn
  · rw [hc]
    exact (hresuming.handleVRequests serving).thenReturn

theorem handlePacket_quiet (h : ProcessMemory k memory text) (serving : Serving rs s t)
    (other : OtherPacket s) (quiet : ¬ LetsRun (command s)) (seen : Int → Prop) :
    Stays (fun s' => memoryView memory seen s' = memoryView memory seen s)
      (handlePacket k host) s := by
  suffices hdispatch : Stays (fun s' => memoryView memory seen s' = memoryView memory seen s)
      (dispatch k host (command s)) s from hdispatch
  have hv := asideRegisters_memoryView h seen
  obtain ⟨hletter, htype⟩ := other
  by_cases hbreakpoint : command s = 'Z' ∨ command s = 'z'
  · -- of another type, it is not supported
    have htype : deref (s.ownBuf.drop 1) ≠ ch '0' := htype (by simpa using hbreakpoint)
    rcases hbreakpoint with hc | hc
    · rw [hc]
      refine Stays.thenReturn (.bind_run packet_run ?_)
      rw [if_neg htype]
      exact hv.reply [] s
    · rw [hc]
      refine Stays.thenReturn (.bind_run packet_run ?_)
      rw [if_neg htype]
      exact hv.reply [] s
  · by_cases hc : command s = 'R'
    · rw [hc]
      refine .bind_run rfl ?_
      rw [if_neg (by rw [serving.plain]; exact Bool.false_ne_true)]
      exact Stays.thenReturn (hv.reply [] s)
    · refine hv.dispatch ?_ s
      simp only [LetsRun, List.mem_cons, List.not_mem_nil, or_false, not_or] at hletter quiet ⊢
      tauto

theorem handlePacket_other (h : ProcessMemory k memory text) (serving : Serving rs s t)
    (other : OtherPacket s) :
    Stays (fun s' => memoryView memory (Untouched text (command s)) s' =
      memoryView memory (Untouched text (command s)) s) (handlePacket k host) s := by
  by_cases runs : LetsRun (command s)
  · have hseen : Untouched text (command s) = text :=
      funext fun x => propext ⟨fun htext => htext runs, fun htext _ => htext⟩
    rw [hseen]
    exact handlePacket_letsRun h serving runs
  · exact handlePacket_quiet h serving other runs _

theorem handleTerminatedInferior_final (serving : Serving rs s t) :
    Proc.final ((handleTerminatedInferior k).run s) = s :=
  Proc.Ends.final_iff.mp ((handleTerminatedInferior_ends serving).imp (fun _ _ hsame => hsame)
    fun _ _ hsame => hsame.1)

theorem deliver_run (s : Server σ) :
    deliver.run s = if (cstr s.ownBuf).length + 5 ≤ pbufsiz
      then .ok () (s.record (.putpkt (cstr s.ownBuf)))
      else .error (.fault "buf2") (s.record (.putpkt (cstr s.ownBuf))) := by
  unfold deliver
  simp only [EStateM.run_bind, EStateM.run_get, EStateM.run_modify]
  split <;> rfl

/-- Whatever else happens in the turn, the reply is the last that changes. -/
theorem answerStep_returned {body : List Byte} {restarted : Bool}
    (hrun : (handlePacket k host).run (s.withText body) = .ok restarted s')
    (serving : Serving rs s' t) :
    (answerStep k host s body).2 = s'.record (.putpkt (cstr s'.ownBuf)) := by
  have hended := handleTerminatedInferior_final (k := k) serving.sent
  have hdeliver := deliver_run s'
  unfold answerStep answer
  dsimp only
  rw [EStateM.run_bind, hrun]
  dsimp only
  cases restarted with
  | true =>
    rw [if_pos rfl, hdeliver]
    split <;> rfl
  | false =>
    rw [if_neg Bool.false_ne_true, EStateM.run_bind, hdeliver]
    by_cases frames : (cstr s'.ownBuf).length + 5 ≤ pbufsiz
    · rw [if_pos frames]
      exact (Proc.Keeps.final_bind (f := id) (fun _ => .pure ()) _).trans hended
    · rw [if_neg frames]
      rfl

theorem answerStep_failed {body : List Byte} {e : Stop}
    (hrun : (handlePacket k host).run (s.withText body) = .error e s') :
    (answerStep k host s body).2 = s' := by
  unfold answerStep answer
  dsimp only
  rw [EStateM.run_bind, hrun]
  rfl

end Views

/-- What a client asks for, in the fields of a packet. -/
inductive Request
  | read (addr len : List Byte)
  | write (addr len data : List Byte)
  | insert (addr : List Byte)
  | remove (addr : List Byte)
  | other (body : List Byte)

namespace Request

def body : Request → List Byte
  | .read addr len => ch 'm' :: (addr ++ ch ',' :: len)
  | .write addr len data => ch 'M' :: (addr ++ ch ',' :: (len ++ ch ':' :: data))
  | .insert addr => ascii "Z0," ++ (addr ++ ascii ",4")
  | .remove addr => ascii "z0," ++ (addr ++ ascii ",4")
  | .other body => body

/-- Numbers in lower-case digits, a range below 2^32 and a reply that can be framed; a
breakpoint is set in `text`, where it overlaps none of those that are `listed`. -/
def Fits (text : Int → Prop) (listed : List Int) : Request → Prop
  | .read addr len => Digits addr ∧ Digits len ∧ len.length ≤ 4 ∧ digitsValue addr < 2 ^ 32 ∧
      digitsValue addr + digitsValue len ≤ 2 ^ 32 ∧ 2 * digitsValue len + 5 ≤ pbufsiz
  | .write addr len data => Digits addr ∧ Digits len ∧ Digits data ∧
      digitsValue addr < 2 ^ 32 ∧ digitsValue addr + digitsValue len ≤ 2 ^ 32 ∧
      data.length = 2 * digitsValue len ∧ digitsValue len ≤ memBufSize
  | .insert addr => addr ≠ [] ∧ Digits addr ∧ digitsValue addr + 4 ≤ 2 ^ 32 ∧
      (∀ x, InSpan (digitsValue addr) 4 x → text x) ∧
      ∀ place ∈ listed, Apart (digitsValue addr) 4 place 4
  | .remove addr => addr ≠ [] ∧ Digits addr ∧ digitsValue addr < 2 ^ 32
  | .other _ => False

/-- The memory calls that the request takes succeed. -/
def Reaches (k : Kernel σ) (s : Server σ) : Request → Prop
  | .read addr len => s.CanRead k (digitsValue addr) (digitsValue len)
  | .write addr _ data => s.CanWrite k (digitsValue addr) (MemBreak.checkMemWrite
      (Darwin.memTarget k) (digitsValue addr) (leadingBytes data) s.breakpoints).1
  | .insert addr => s.CanPlant k (digitsValue addr)
  | .remove addr => s.CanClear k (digitsValue addr)
  | .other _ => True

def Sound (text : Int → Prop) (s : Server σ) : Request → Prop
  | .other body => OtherPacket (s.withText body)
  | r => r.Fits text (s.breakpoints.map (·.pc))

theorem Sound.fits {text : Int → Prop} {s : Server σ} {r : Request} (sound : r.Sound text s) :
    r.Fits text (s.breakpoints.map (·.pc)) ∨ ∃ body, r = .other body := by
  cases r with
  | other body => exact .inr ⟨body, rfl⟩
  | read addr len | write addr len data | insert addr | remove addr => exact .inl sound

/-- Where the breakpoints are then, the newest first. -/
def places (listed : List Int) : Request → List Int
  | .insert addr => digitsValue addr :: listed
  | .remove addr => listed.erase (digitsValue addr)
  | _ => listed

/-- A memory on which only these requests act. -/
def plainStep (m : MemBreak.Memory) : Request → Option (List Byte) × MemBreak.Memory
  | .read addr len => (some (convertIntToAscii (load m (digitsValue addr) (digitsValue len))), m)
  | .write addr _ data => (some (ascii "OK"), store m (digitsValue addr) (leadingBytes data))
  | .insert _ | .remove _ => (some (ascii "OK"), m)
  | .other _ => (none, m)

end Request

/-- The memory of the process, with the bytes that the breakpoints have saved. -/
def Server.clientMemory (k : Kernel σ) (memory : σ → MemBreak.Memory) (s : Server σ) :
    MemBreak.Memory :=
  MemBreak.clientView (Darwin.memTarget k) s.breakpoints (memory s.os)

/-- What becomes of a request in the turn from `s` to `s'`. -/
def Request.Answered (k : Kernel σ) (memory : σ → MemBreak.Memory) (text : Int → Prop)
    (s s' : Server σ) : Request → Prop
  | .read addr len =>
    s'.replies = convertIntToAscii (load (s.clientMemory k memory) (digitsValue addr)
      (digitsValue len)) :: s.replies ∧ s'.clientMemory k memory = s.clientMemory k memory
  | .write addr _ data =>
    s'.replies = ascii "OK" :: s.replies ∧ s'.clientMemory k memory =
      store (s.clientMemory k memory) (digitsValue addr) (leadingBytes data)
  | .insert _ | .remove _ =>
    s'.replies = ascii "OK" :: s.replies ∧ s'.clientMemory k memory = s.clientMemory k memory
  | .other body => ∀ x, Untouched text (Char.ofUInt8 (deref body)) x →
    s'.clientMemory k memory x = s.clientMemory k memory x

/-- The traps of the server are hidden from the client, and nothing else is. -/
structure Hides (k : Kernel σ) (memory : σ → MemBreak.Memory) (text : Int → Prop) (task : Port)
    (s : Server σ) (t : ThreadInfo) : Prop where
  serving : ∃ rs, Serving rs s t
  current : s.currentTask = some task
  shadows : MemBreak.Shadows (Darwin.taskTarget k task) (fun x => memory x.os) (s.memState t)
    (s.clientMemory k memory)
  inText : ∀ b ∈ s.breakpoints, ∀ x, MemBreak.Covers (Darwin.taskTarget k task) b x → text x

section Steps

variable {s s' : Server σ} {t : ThreadInfo} {rs : List (List Byte)} {plain : MemBreak.Memory}

theorem Hides.of_shadows {m : MemBreak.MemState (Darwin.TargetState σ)}
    (shadows : MemBreak.Shadows (Darwin.taskTarget k task) (fun x => memory x.os) m plain)
    (serving : Serving rs s t) (current : s.currentTask = some task)
    (breakpoints : s.breakpoints = m.breakpoints) (next : s.nextBreakpoint = m.nextNode)
    (os : s.os = m.target.os)
    (inText : ∀ b ∈ m.breakpoints, ∀ x, MemBreak.Covers (Darwin.taskTarget k task) b x → text x) :
    Hides k memory text task s t ∧ s.clientMemory k memory = plain := by
  have hstate : s.memState t = { m with target := (s.memState t).target } := by
    rw [Server.memState, breakpoints, next]
  have hshadows : MemBreak.Shadows (Darwin.taskTarget k task) (fun x => memory x.os)
      { m with target := (s.memState t).target } plain := shadows.retarget (congrArg memory os)
  rw [← hstate] at hshadows
  have hplain : s.clientMemory k memory = plain := hshadows.clientView_eq
  refine ⟨⟨⟨rs, serving⟩, current, ?_, ?_⟩, hplain⟩
  · rwa [hplain]
  · rwa [breakpoints]

/-- Where no breakpoint is listed there is nothing to hide. -/
theorem Hides.bare (serving : Serving rs s t) (current : s.currentTask = some task)
    (empty : s.breakpoints = []) :
    Hides k memory text task s t ∧ s.clientMemory k memory = memory s.os := by
  have hshadows : MemBreak.Shadows (Darwin.taskTarget k task) (fun x => memory x.os)
      (s.memState t) (memory s.os) := MemBreak.shadows_empty empty
  refine Hides.of_shadows hshadows serving current rfl rfl rfl fun b hb => ?_
  rw [Server.memState, empty] at hb
  cases hb

/-- A state in which only the addresses not `seen` have changed. -/
theorem Hides.ran (h : Hides k memory text task s t) {t' : ThreadInfo}
    (serving' : Serving rs s' t')
    {seen : Int → Prop} (covered : ∀ x, text x → seen x)
    (view : memoryView memory seen s' = memoryView memory seen s) :
    Hides k memory text task s' t' ∧
      ∀ x, seen x → s'.clientMemory k memory x = s.clientMemory k memory x := by
  simp only [memoryView, Prod.mk.injEq] at view
  obtain ⟨hbreakpoints, hnext, hcurrent, hmemory⟩ := view
  obtain ⟨hshadows, hplain⟩ := h.shadows.ran seen (s'.memState t').target
    (fun b hb x hx => covered x (h.inText b hb x hx)) fun x hx => congrFun hmemory ⟨x, hx⟩
  obtain ⟨hides, hclient⟩ := Hides.of_shadows hshadows serving' (hcurrent.trans h.current)
    hbreakpoints hnext rfl h.inText
  exact ⟨hides, fun x hx => (congrFun hclient x).trans (hplain x hx)⟩

/-- The packet of `r` is a memory operation, after which the client's memory is `plain`, and
a reply. -/
structure MemoryTurn (k : Kernel σ) (host : Signals.Host) (memory : σ → MemBreak.Memory)
    (text : Int → Prop) (task : Port) (s : Server σ) (r : Request) (reply : List Byte)
    (m : MemBreak.MemState (Darwin.TargetState σ)) (plain : MemBreak.Memory) : Prop where
  run : (handlePacket k host).run (s.withText r.body) =
    .ok false (((s.withText r.body).putMemory m).withText reply)
  noNul : 0 ∉ reply
  frames : reply.length + 5 ≤ pbufsiz
  shadows : MemBreak.Shadows (Darwin.taskTarget k task) (fun x => memory x.os) m plain
  inText : ∀ b ∈ m.breakpoints, ∀ x, MemBreak.Covers (Darwin.taskTarget k task) b x → text x
  places : m.breakpoints.map (·.pc) = r.places (s.breakpoints.map (·.pc))

/-- What the client finds after such a turn. -/
structure Replied (k : Kernel σ) (memory : σ → MemBreak.Memory) (text : Int → Prop) (task : Port)
    (t : ThreadInfo) (reply : List Byte) (plain : MemBreak.Memory) (s s' : Server σ) : Prop where
  hides : Hides k memory text task s' t
  replies : s'.replies = reply :: s.replies
  plain : s'.clientMemory k memory = plain

theorem MemoryTurn.replied {r : Request} {reply : List Byte}
    {m : MemBreak.MemState (Darwin.TargetState σ)}
    (turn : MemoryTurn k host memory text task s r reply m plain)
    (h : Hides k memory text task s t) :
    Replied k memory text task t reply plain s (answerStep k host s r.body).2 := by
  obtain ⟨rs, serving⟩ := h.serving
  have serving' : Serving rs (((s.withText r.body).putMemory m).withText reply) t := serving
  have hreply : cstr (((s.withText r.body).putMemory m).withText reply).ownBuf = reply :=
    cstr_append_nul turn.noNul _
  have hstep := answerStep_returned turn.run serving'
  rw [hreply] at hstep
  have hsent := serving'.sent
  rw [hreply] at hsent
  rw [hstep]
  obtain ⟨hides, hplain⟩ := Hides.of_shadows turn.shadows hsent h.current rfl rfl rfl turn.inText
  exact ⟨hides, rfl, hplain⟩

theorem Replied.answered {r : Request} {reply : List Byte}
    (h : Replied k memory text task t reply (r.plainStep (s.clientMemory k memory)).2 s s')
    (told : (r.plainStep (s.clientMemory k memory)).1 = some reply) :
    r.Answered k memory text s s' := by
  cases r with
  | read addr len | write addr len data | insert addr | remove addr =>
    cases told
    exact ⟨h.replies, h.plain⟩
  | other body => cases told

theorem handlePacket_of_run {c : Char} {p : Proc (Server σ) Unit} (hc : command s = c)
    (hp : dispatch k host c = do p; return false) (hrun : p.run s = .ok () s') :
    (handlePacket k host).run s = .ok false s' := by
  rw [handlePacket_run, hc, hp, EStateM.run_bind, hrun]
  rfl

theorem handlemReadMem_run (live : Live s t) {a : Int} {n : Nat}
    (decodes : decodeReadPacket (s.ownBuf.drop 1) = some (a, n)) (fits : 2 * n < pbufsiz)
    {bytes : List Byte} {m : MemBreak.MemState (Darwin.TargetState σ)}
    (hrun : (MemBreak.readInferiorMemory (Darwin.memTarget k) a n).run (s.memState t) =
      .ok bytes m) (length : bytes.length = n) :
    (handlemReadMem k).run s = .ok () ((s.putMemory m).withText (convertIntToAscii bytes)) := by
  have hmem : (withMemory (MemBreak.readInferiorMemory (Darwin.memTarget k) a n)).run s =
      .ok bytes (s.putMemory m) := by
    rw [withMemory_run live, hrun]
  have hshort : ¬ n > memBufSize := by
    unfold pbufsiz at fits
    unfold memBufSize
    omega
  have htext : (convertIntToAscii bytes).length < pbufsiz := by
    rw [convertIntToAscii_length, length]
    omega
  simp only [handlemReadMem, EStateM.run_bind, packet_run, decodes, decoded, EStateM.run_pure,
    if_neg hshort, hmem]
  exact reply_run htext

theorem Hides.read (host : Signals.Host) (laws : ProcessMemory k memory text)
    (h : Hides k memory text task s t) {addr len : List Byte}
    (fits : (Request.read addr len).Fits text (s.breakpoints.map (·.pc)))
    (reaches : (Request.read addr len).Reaches k s) :
    ∃ m, MemoryTurn k host memory text task s (.read addr len)
      (convertIntToAscii (load (s.clientMemory k memory) (digitsValue addr) (digitsValue len))) m
      (s.clientMemory k memory) := by
  obtain ⟨haddr, hlen, hfour, hlow, hinside, hfits⟩ := fits
  obtain ⟨rs, serving⟩ := h.serving
  let s₁ := s.withText (Request.read addr len).body
  have hinRange : MemBreak.InRange (digitsValue addr) (digitsValue len) := by
    unfold MemBreak.InRange
    omega
  have hshort : digitsValue len < 2 ^ 31 := by
    unfold pbufsiz at hfits
    omega
  have hdecode : decodeReadPacket (s₁.ownBuf.drop 1) =
      some ((digitsValue addr : Int), digitsValue len) := by
    have hdigits := decodeReadPacket_digits haddr hlen hlow
      (s.link.session.ownBuf.drop ((Request.read addr len).body.length + 1))
    rw [List.take_of_length_le hfour] at hdigits
    simpa [s₁, Server.withText, Server.ownBuf, Request.body] using hdigits
  have hreads : MemBreak.ReadsAt (Darwin.taskTarget k task) (fun x => memory x.os)
      (s.memState t).target (digitsValue addr) (digitsValue len) :=
    laws.readsAt hinRange (reaches task h.current)
  obtain ⟨hvalue, hshadows⟩ := MemBreak.shadows_readInferiorMemory h.shadows hreads hshort
  rw [← ((Darwin.readInferiorMemory_agree k _ _) (s.memState t) h.current).1] at hvalue hshadows
  have hrun := Proc.eq_ok_of_value hvalue
  have hhandled : (handlePacket k host).run s₁ = .ok false _ :=
    handlePacket_of_run (c := 'm') rfl rfl
      (handlemReadMem_run (s := s₁) serving.live hdecode (by omega) hrun (load_length _ _ _))
  have hlist : (Proc.final ((MemBreak.readInferiorMemory (Darwin.memTarget k) (digitsValue addr)
      (digitsValue len)).run (s.memState t))).breakpoints = s.breakpoints := by
    rw [MemBreak.readInferiorMemory_run]
    rfl
  have hframes : (convertIntToAscii (load (s.clientMemory k memory) (digitsValue addr)
      (digitsValue len))).length + 5 ≤ pbufsiz := by
    rw [convertIntToAscii_length, load_length]
    exact hfits
  exact ⟨_, hhandled, zero_not_mem_convertIntToAscii _, hframes, hshadows, hlist ▸ h.inText,
    congrArg _ hlist⟩

theorem handleMWriteMem_run (live : Live s t) {a : Int} {n : Nat} {bytes : List Byte}
    (decodes : decodeWritePacket (s.ownBuf.drop 1) = some (a, n, bytes, true))
    (fits : bytes.length ≤ memBufSize) {m : MemBreak.MemState (Darwin.TargetState σ)}
    (hrun : (MemBreak.writeInferiorMemory (Darwin.memTarget k) a bytes).run (s.memState t) =
      .ok 0 m) :
    (handleMWriteMem k).run s = .ok () ((s.putMemory m).withText (ascii "OK")) := by
  have hmem : (withMemory (MemBreak.writeInferiorMemory (Darwin.memTarget k) a bytes)).run s =
      .ok 0 (s.putMemory m) := by
    rw [withMemory_run live, hrun]
  have hshort : ¬ bytes.length > memBufSize := Nat.not_lt.mpr fits
  simp only [handleMWriteMem, EStateM.run_bind, packet_run, decodes, decoded, EStateM.run_pure,
    if_neg hshort, if_true, hmem]
  exact reply_run (by decide)

theorem handlezRemoveBp_ok (live : Live s t) (type : deref (s.ownBuf.drop 1) = ch '0')
    {m : MemBreak.MemState (Darwin.TargetState σ)}
    (hrun : (MemBreak.deleteBreakpointAt (Darwin.memTarget k)
      ((strtoul (s.ownBuf.drop 3)).1 : Int)).run (s.memState t) = .ok () m) :
    (handlezRemoveBp k).run s = .ok () ((s.putMemory m).withText (ascii "OK")) := by
  have hmem : (withMemory (MemBreak.deleteBreakpointAt (Darwin.memTarget k)
      ((strtoul (s.ownBuf.drop 3)).1 : Int))).run s = .ok () (s.putMemory m) := by
    rw [withMemory_run live, hrun]
  rw [handlezRemoveBp, EStateM.run_bind, packet_run]
  dsimp only
  rw [if_pos type, EStateM.run_bind, hmem]
  exact reply_run (by decide)

theorem Hides.write (host : Signals.Host) (laws : ProcessMemory k memory text)
    (h : Hides k memory text task s t) {addr len data : List Byte}
    (fits : (Request.write addr len data).Fits text (s.breakpoints.map (·.pc)))
    (reaches : (Request.write addr len data).Reaches k s) :
    ∃ m, MemoryTurn k host memory text task s (.write addr len data) (ascii "OK") m
      (store (s.clientMemory k memory) (digitsValue addr) (leadingBytes data)) := by
  obtain ⟨haddr, hlen, hdata, hlow, hinside, hlength, hfits⟩ := fits
  obtain ⟨rs, serving⟩ := h.serving
  let s₁ := s.withText (Request.write addr len data).body
  have hbytes : (leadingBytes data).length = digitsValue len :=
    (leadingBytes_length_eq_iff hlength).mpr hdata
  have hinRange : MemBreak.InRange (digitsValue addr) (leadingBytes data).length := by
    unfold MemBreak.InRange
    omega
  have hshort : (leadingBytes data).length < 2 ^ 31 := by
    unfold memBufSize at hfits
    omega
  have hdecode : decodeWritePacket (s₁.ownBuf.drop 1) =
      some ((digitsValue addr : Int), digitsValue len, leadingBytes data, true) := by
    have hdigits := decodeWritePacket_digits haddr hlen hlow (by omega) hlength hdata
      (s.link.session.ownBuf.drop ((Request.write addr len data).body.length + 1))
    simpa [s₁, Server.withText, Server.ownBuf, Request.body] using hdigits
  have hagree := (Darwin.writeInferiorMemory_agree k (digitsValue addr) (leadingBytes data)
    (s.memState t) h.current).1
  have hwrites : MemBreak.WritesAt (Darwin.taskTarget k task) (fun x => memory x.os)
      (s.memState t).target (digitsValue addr) (MemBreak.checkMemWrite (Darwin.taskTarget k task)
        (digitsValue addr) (leadingBytes data) s.breakpoints).1 := by
    rw [Darwin.checkMemWrite_taskTarget]
    refine laws.writesAt ?_ (reaches task h.current)
    rw [MemBreak.checkMemWrite_fst _ _ _ hshort, MemBreak.passTraps_length]
    exact hinRange
  obtain ⟨m, hrun, hplaces⟩ := MemBreak.writeInferiorMemory_ok (s := s.memState t) hwrites
  have hshadows := MemBreak.shadows_writeInferiorMemory h.shadows hwrites hshort
  rw [hrun, Proc.final_ok] at hshadows
  have hhandled : (handlePacket k host).run s₁ = .ok false _ :=
    handlePacket_of_run (c := 'M') rfl rfl (handleMWriteMem_run (s := s₁) serving.live hdecode
      (hbytes.trans_le hfits) (hagree.trans hrun))
  have hinText : ∀ c ∈ m.breakpoints, ∀ x,
      MemBreak.Covers (Darwin.taskTarget k task) c x → text x := by
    intro c hc x hx
    have hpc : c.pc ∈ s.breakpoints.map (·.pc) := hplaces ▸ List.mem_map_of_mem hc
    obtain ⟨b, hb, hpc⟩ := List.mem_map.mp hpc
    refine h.inText b hb x ?_
    rwa [MemBreak.Covers, hpc]
  exact ⟨m, hhandled, by decide, by decide, hshadows, hinText, hplaces⟩

theorem Hides.insert (host : Signals.Host) (laws : ProcessMemory k memory text)
    (h : Hides k memory text task s t) {addr : List Byte}
    (fits : (Request.insert addr).Fits text (s.breakpoints.map (·.pc)))
    (reaches : (Request.insert addr).Reaches k s) :
    ∃ m, MemoryTurn k host memory text task s (.insert addr) (ascii "OK") m
      (s.clientMemory k memory) := by
  obtain ⟨hne, haddr, hinside, hspan, hapart⟩ := fits
  obtain ⟨rs, serving⟩ := h.serving
  let s₁ := s.withText (Request.insert addr).body
  have hfield : (strtoul (s₁.ownBuf.drop 3)).1 = digitsValue addr :=
    strtoul_addr hne haddr (by omega) _
  have hinRange : MemBreak.InRange (digitsValue addr) (Darwin.taskTarget k task).breakpointLen := by
    unfold MemBreak.InRange
    change 0 ≤ (digitsValue addr : Int) ∧ (digitsValue addr : Int) + 4 ≤ 2 ^ 32
    omega
  have hagree := (Darwin.setBreakpointAt_agree k (digitsValue addr) .null (s.memState t)
    h.current).1
  obtain ⟨hreads, hwrites⟩ := laws.plants (t := t) hinRange h.current reaches
  have hshadows := MemBreak.shadows_setBreakpointAt h.shadows .null hinRange hreads hwrites
    fun b hb => hapart b.pc (List.mem_map_of_mem hb)
  have hrun := handleZInsertBp_run (k := k) (s := s₁) serving.live rfl
  rw [hfield, show s₁.memState t = s.memState t from rfl, hagree] at hrun
  have hhandled : (handlePacket k host).run s₁ = .ok false _ :=
    handlePacket_of_run (c := 'Z') rfl rfl hrun
  refine ⟨_, hhandled, by decide, by decide, hshadows, ?_, ?_⟩
  · rw [MemBreak.setBreakpointAt_run _ _ _ _ rfl]
    intro c hc x hx
    rcases List.mem_cons.mp hc with rfl | hc
    · exact hspan x hx
    · exact h.inText c hc x hx
  · rw [MemBreak.setBreakpointAt_run _ _ _ _ rfl]
    rfl

theorem Hides.remove (host : Signals.Host) (laws : ProcessMemory k memory text)
    (h : Hides k memory text task s t) {addr : List Byte}
    (fits : (Request.remove addr).Fits text (s.breakpoints.map (·.pc)))
    (reaches : (Request.remove addr).Reaches k s) :
    ∃ m, MemoryTurn k host memory text task s (.remove addr) (ascii "OK") m
      (s.clientMemory k memory) := by
  obtain ⟨hne, haddr, hlow⟩ := fits
  obtain ⟨rs, serving⟩ := h.serving
  let s₁ := s.withText (Request.remove addr).body
  have hfield : (strtoul (s₁.ownBuf.drop 3)).1 = digitsValue addr :=
    strtoul_addr hne haddr hlow _
  have hagree := (Darwin.deleteBreakpointAt_agree k (digitsValue addr) (s.memState t)
    h.current).1
  obtain ⟨m, hrun, hlist⟩ := MemBreak.deleteBreakpointAt_ok (t := Darwin.taskTarget k task)
    h.shadows.linked (digitsValue addr)
  have hshadows := MemBreak.shadows_deleteBreakpointAt h.shadows (digitsValue addr)
    (laws.clears h.shadows.inRange h.current reaches)
  rw [hrun, Proc.final_ok] at hshadows
  have hdelete : (MemBreak.deleteBreakpointAt (Darwin.memTarget k)
      ((strtoul (s₁.ownBuf.drop 3)).1 : Int)).run (s₁.memState t) = .ok () m := by
    rw [hfield]
    exact hagree.trans hrun
  have hhandled : (handlePacket k host).run s₁ = .ok false _ :=
    handlePacket_of_run (c := 'z') rfl rfl
      (handlezRemoveBp_ok (s := s₁) serving.live rfl hdelete)
  have hinText : ∀ c ∈ m.breakpoints, ∀ x,
      MemBreak.Covers (Darwin.taskTarget k task) c x → text x := by
    rw [hlist]
    exact fun c hc => h.inText c (List.mem_of_mem_eraseP hc)
  have hplaces : m.breakpoints.map (·.pc) =
      (s.breakpoints.map (·.pc)).erase (digitsValue addr : Int) := by
    rw [hlist, List.erase_eq_eraseP', List.eraseP_map]
    rfl
  exact ⟨m, hhandled, by decide, by decide, hshadows, hinText, hplaces⟩

/-- A turn that does not address memory. -/
theorem answerStep_other (host : Signals.Host) (laws : ProcessMemory k memory text)
    (serving : Serving rs s t) {body : List Byte} (other : OtherPacket (s.withText body)) :
    ∃ rs' t', Serving rs' (answerStep k host s body).2 t' ∧
      memoryView memory (Untouched text (command (s.withText body))) (answerStep k host s body).2 =
        memoryView memory (Untouched text (command (s.withText body))) s := by
  have serving₁ : Serving rs (s.withText body) t := serving
  have hview : Stays _ (handlePacket k host) (s.withText body) :=
    handlePacket_other laws serving₁ other
  have hletter := other.1
  simp only [List.mem_cons, List.not_mem_nil, or_false, not_or] at hletter
  have hverdict : Verdict rs (handlePacket k host) _ _ (s.withText body) :=
    handlePacket_verdict serving₁ (fun hM => absurd hM hletter.2.1) hletter.2.2.1 hletter.2.2.2
  unfold Verdict Proc.Ends at hverdict
  unfold Stays at hview
  cases hrun : (handlePacket k host).run (s.withText body) with
  | ok restarted s₂ =>
    rw [hrun] at hverdict hview
    obtain ⟨⟨t₂, serving₂⟩, -⟩ := hverdict
    rw [answerStep_returned hrun serving₂]
    exact ⟨_, t₂, serving₂.sent, hview⟩
  | error e s₂ =>
    rw [hrun] at hverdict hview
    obtain ⟨-, ⟨t₂, serving₂⟩, -⟩ := hverdict
    rw [answerStep_failed hrun]
    exact ⟨rs, t₂, serving₂, hview⟩

theorem Hides.other (laws : ProcessMemory k memory text) (h : Hides k memory text task s t)
    {body : List Byte} (sound : (Request.other body).Sound text s) :
    ∃ t', Hides k memory text task (answerStep k host s (Request.other body).body).2 t' ∧
      (Request.other body).Answered k memory text s
        (answerStep k host s (Request.other body).body).2 := by
  obtain ⟨rs, serving⟩ := h.serving
  have hcommand : command (s.withText body) = Char.ofUInt8 (deref body) :=
    congrArg Char.ofUInt8 (deref_nul body _)
  obtain ⟨rs', t', serving', hview⟩ := answerStep_other host laws serving sound
  rw [hcommand] at hview
  obtain ⟨hides, hsame⟩ := h.ran serving' (fun x htext _ => htext) hview
  exact ⟨t', hides, hsame⟩

theorem Hides.onMemory (host : Signals.Host) (laws : ProcessMemory k memory text)
    (h : Hides k memory text task s t) {r : Request}
    (fits : r.Fits text (s.breakpoints.map (·.pc))) (reaches : r.Reaches k s) :
    ∃ reply m, (r.plainStep (s.clientMemory k memory)).1 = some reply ∧
      MemoryTurn k host memory text task s r reply m
        (r.plainStep (s.clientMemory k memory)).2 := by
  cases r with
  | read addr len =>
    obtain ⟨m, turn⟩ := h.read host laws fits reaches
    exact ⟨_, m, rfl, turn⟩
  | write addr len data =>
    obtain ⟨m, turn⟩ := h.write host laws fits reaches
    exact ⟨_, m, rfl, turn⟩
  | insert addr =>
    obtain ⟨m, turn⟩ := h.insert host laws fits reaches
    exact ⟨_, m, rfl, turn⟩
  | remove addr =>
    obtain ⟨m, turn⟩ := h.remove host laws fits reaches
    exact ⟨_, m, rfl, turn⟩
  | other body => cases fits

/-- One request, whatever it is. -/
theorem Hides.request (host : Signals.Host) (laws : ProcessMemory k memory text)
    (h : Hides k memory text task s t) {r : Request} (sound : r.Sound text s)
    (reaches : r.Reaches k s) :
    ∃ t', Hides k memory text task (answerStep k host s r.body).2 t' ∧
      r.Answered k memory text s (answerStep k host s r.body).2 := by
  rcases sound.fits with fits | ⟨body, rfl⟩
  · obtain ⟨reply, m, told, turn⟩ := h.onMemory host laws fits reaches
    have hreplied := turn.replied h
    exact ⟨t, hreplied.hides, hreplied.answered told⟩
  · exact h.other laws sound

end Steps

section CurrentTask

variable {s : Server σ} {pid ep : Int}

theorem besideTarget_currentTask (k : Kernel σ) : BesideTarget k Server.currentTask where
  link _ _ := rfl
  current _ _ := rfl
  chosen _ _ _ _ := rfl
  threadPtr _ _ := rfl
  remoteDebug _ _ := rfl
  sent _ _ := rfl
  probed _ _ := rfl
  interrupted _ _ _ _ := rfl
  read _ _ := withMemory_keeps (fun _ _ _ _ => rfl) _
  written _ _ := withMemory_keeps (fun _ _ _ _ => rfl) _
  inserted _ := withMemory_keeps (fun _ _ _ _ => rfl) _
  removed _ := withMemory_keeps (fun _ _ _ _ => rfl) _
  fetches _ _ _ := rfl
  stores _ _ _ := rfl
  assigned _ _ _ := rfl
  fetched _ _ _ _ := rfl
  stored _ _ _ _ := rfl
  supplied _ _ _ _ _ _ := rfl
  reported _ _ := rfl
  ptraced _ _ _ _ := rfl
  waited _ := rfl
  status _ _ := rfl
  sig _ _ := rfl
  os _ _ := rfl

/-- What ends with a task if it returns. -/
abbrev FindsTask {α : Type} (p : Proc (Server σ) α) (s : Server σ) : Prop :=
  Proc.Ends p (fun _ s' => s'.currentTask ≠ none) (fun _ _ => True) s

theorem FindsTask.bind {α β : Type} {p : Proc (Server σ) α} {q : α → Proc (Server σ) β}
    (hp : FindsTask p s) (hq : ∀ a, Proc.Keeps Server.currentTask (q a)) :
    FindsTask (p >>= q) s := by
  rw [FindsTask, Proc.Ends.bind_iff]
  refine hp.imp (fun a s' hfound => ?_) fun _ _ _ => trivial
  exact ((hq a).ends s').imp (fun _ _ hsame => hsame ▸ hfound) fun _ _ _ => trivial

theorem addProcess_task : FindsTask (addProcess k pid) s := by
  simp only [FindsTask, addProcess, callKernel, Proc.Ends.bind_iff, Proc.Ends.modifyGet_iff]
  cases (k.taskForPid pid s.os).1 with
  | none => trivial
  | some task =>
    rw [Proc.Ends.bind_iff, Proc.Ends.modify_iff, Proc.Ends.bind_iff]
    refine (((besideTarget_currentTask k).darwinGetFirstThread (some task)).ends _).imp ?_
      fun _ _ _ => trivial
    intro _ s' hsame
    rw [addThread, Proc.Ends.modify_iff]
    exact hsame ▸ Option.some_ne_none task

theorem startInferior_task : FindsTask (startInferior k) s := by
  have hcreate : FindsTask (darwinCreateInferior k) s := by
    simp only [FindsTask, darwinCreateInferior, callKernel, Proc.Ends.bind_iff,
      Proc.Ends.modifyGet_iff]
    cases (k.forkExec s.os).1 with
    | none => trivial
    | some pid => exact addProcess_task.bind fun _ => .pure _
  exact hcreate.bind fun _ => .bind (.modify fun _ => rfl) fun _ =>
    (besideTarget_currentTask k).mywait

theorem attachInferior_task :
    Proc.Ends (attachInferior k pid) (fun result s' => 0 ≤ result → s'.currentTask ≠ none)
      (fun _ _ => True) s := by
  have hwait : Proc.Keeps Server.currentTask (do
      modify fun s : Server σ => { s with signalPid := pid }
      mywait k false
      return (0 : Int)) :=
    .bind (.modify fun _ => rfl) fun _ => .bind (besideTarget_currentTask k).mywait fun _ => .pure _
  simp only [attachInferior, darwinAttach, ptrace, callKernel, Proc.Ends.bind_iff,
    Proc.Ends.modify_iff, Proc.Ends.modifyGet_iff]
  split
  · rw [Proc.Ends.bind_iff]
    refine addProcess_task.imp ?_ fun _ _ _ => trivial
    intro _ s' hfound
    rw [Proc.Ends.pure_iff, if_neg (by simp)]
    exact (hwait.ends s').imp (fun _ _ hsame _ => hsame ▸ hfound) fun _ _ _ => trivial
  · simp

theorem prepareInferior_task : FindsTask (prepareInferior k ep pid) s := by
  unfold FindsTask prepareInferior
  rw [Proc.Ends.bind_iff, Proc.Ends.get_iff]
  split
  · rw [Proc.Ends.bind_iff]
    refine attachInferior_task.imp (fun result s' hfound => ?_) fun _ _ _ => trivial
    split
    · trivial
    · rename_i hresult
      exact hfound (Int.not_lt.mp hresult)
  · exact startInferior_task.bind fun _ => (besideTarget_currentTask k).runToEntryPoint ep

theorem kept_currentTask (k : Kernel σ) :
    Kept k Server.currentTask fun s => s.currentTask ≠ none where
  beside := (besideTarget_currentTask k).toBeside
  reported _ _ := rfl
  same hsame hfound := hsame ▸ hfound
  fill _ hfound := hfound
  supply _ hfound _ _ _ := hfound
  resume := by
    rintro rs s _ t - hfound step sig ⟨os, port, status, sig', waiting, rfl⟩ -
    exact hfound

theorem Reachable.currentTask (reachable : Reachable k host s) :
    ∃ task, s.currentTask = some task := by
  refine Option.ne_none_iff_exists'.mp ?_
  induction reachable with
  | @start s₀ s' ep pid fresh prepared =>
    have hfound : FindsTask (prepareInferior k ep pid) s₀ := prepareInferior_task
    exact hfound.returned prepared
  | turn before again ih =>
    obtain ⟨rs, t, serving⟩ := before.serving
    exact (kept_currentTask k).next serving ih (.served again)
  | jump before jumped ih =>
    obtain ⟨rs, t, serving⟩ := before.serving
    exact (kept_currentTask k).next serving ih (.failed jumped)

end CurrentTask

def requestStep (k : Kernel σ) (host : Signals.Host) (s : Server σ) (r : Request) :
    Option Stop × Server σ := answerStep k host s r.body

/-- The request is answered from the client's memory, and acts on it; memory itself differs
from that by the traps that are planted. -/
structure Faithful (k : Kernel σ) (host : Signals.Host) (memory : σ → MemBreak.Memory)
    (text : Int → Prop) (s : Server σ) (r : Request) : Prop where
  answered : r.Answered k memory text s (requestStep k host s r).2
  traps : MemBreak.TrapsOnly (Darwin.memTarget k) (requestStep k host s r).2.breakpoints
    (memory (requestStep k host s r).2.os) ((requestStep k host s r).2.clientMemory k memory)

/-- From a state without breakpoints the client sees the memory of the process, in every
session of requests, until it is detached from or killed. -/
theorem client_sees_memory {s : Server σ} (laws : ProcessMemory k memory text)
    (reachable : Reachable k host s) (empty : s.breakpoints = []) {requests : List Request}
    (sound : AllowedRun (fun s r => r.Sound text s ∧ r.Reaches k s) (requestStep k host) s
      requests) :
    s.clientMemory k memory = memory s.os ∧
      AllowedRun (Faithful k host memory text) (requestStep k host) s requests := by
  obtain ⟨rs, t, serving⟩ := reachable.serving
  obtain ⟨task, current⟩ := reachable.currentTask
  obtain ⟨hstart, hbare⟩ :=
    Hides.bare serving current empty
  refine ⟨hbare, sound.imp_of_invariant (P := fun s => ∃ t, Hides k memory text task s t)
    ?_ ⟨t, hstart⟩⟩
  rintro s r ⟨t, hides⟩ ⟨hsound, hreaches⟩
  obtain ⟨t', hides', hanswered⟩ := hides.request host laws hsound hreaches
  exact ⟨⟨t', hides'⟩, hanswered, hides'.shadows.traps⟩

/-- A breakpoint, a write over half of it and a read, while it is planted and the process has
run, and its end. -/
def watched : List Request :=
  [.insert (ascii "10"), .write (ascii "e") (ascii "4") (ascii "01020304"),
    .read (ascii "10") (ascii "4"), .other (ascii "c"), .remove (ascii "10")]

theorem obligingMachine_processMemory :
    ProcessMemory obligingMachine Prod.snd fun _ => True where
  shows := obligingMachine_showsMemory
  threadGet _ _ := rfl
  threadSet _ _ _ := rfl
  floatGet _ _ := rfl
  floatSet _ _ _ := rfl
  kill _ _ _ := rfl
  taskForPid _ _ := rfl
  taskThreads _ _ := rfl
  ptrace _ _ _ _ _ _ := rfl
  waitpid _ _ _ _ := rfl

theorem digits_watched : Digits (ascii "10") ∧ Digits (ascii "e") ∧ Digits (ascii "4") ∧
    Digits (ascii "01020304") := by
  unfold Digits
  decide +kernel

/-- No call about memory fails. -/
theorem obligingMachine_reaches (s : Server ((Port → Machine) × MemBreak.Memory)) (r : Request) :
    r.Reaches obligingMachine s := by
  cases r with
  | read addr len => exact fun _ _ => rfl
  | write addr len data => exact fun _ _ => rfl
  | insert addr => exact ⟨fun _ _ => rfl, fun _ _ _ _ => rfl⟩
  | remove addr => exact fun _ _ _ _ => rfl
  | other body => trivial

theorem sound_watched :
    AllowedRun (fun s r => r.Sound (fun _ => True) s ∧ r.Reaches obligingMachine s)
      (requestStep obligingMachine Signals.darwin) (launchedObliging []) watched := by
  obtain ⟨h10, he, h4, hdata⟩ := digits_watched
  refine ⟨⟨⟨by decide, h10, by decide, fun _ _ => trivial, ?_⟩, obligingMachine_reaches _ _⟩,
    ⟨⟨he, h4, hdata, by decide⟩, obligingMachine_reaches _ _⟩,
    ⟨⟨h10, h4, by decide⟩, obligingMachine_reaches _ _⟩,
    ⟨⟨by decide +kernel, by decide +kernel⟩, obligingMachine_reaches _ _⟩,
    ⟨⟨by decide, h10, by decide⟩, obligingMachine_reaches _ _⟩, trivial⟩
  intro b hb
  cases hb

theorem client_sees_memory_watched :
    (launchedObliging []).clientMemory obligingMachine Prod.snd =
        (launchedObliging []).os.2 ∧
      AllowedRun (Faithful obligingMachine Signals.darwin Prod.snd fun _ => True)
        (requestStep obligingMachine Signals.darwin) (launchedObliging []) watched :=
  client_sees_memory obligingMachine_processMemory (reachable_launchedObliging []) rfl
    sound_watched

end Gdbserver
