import OsxGdbserver.RegisterOrigins
import OsxGdbserver.Machines
import OsxGdbserver.PlantedTraps
import OsxGdbserver.BreakpointOverlaps

/-!
# The inferior let go

`darwin_detach` writes no registers back and takes no breakpoint out. What the process runs
on with is then what the client has made of it just if the registers the client wrote were
in the machine already, and memory under each listed breakpoint is what the breakpoint saved.
-/

namespace Gdbserver

open Remote CString Ppc Epochs Overlay

variable {σ : Type} {k : Kernel σ} {host : Signals.Host} {machine : σ → Port → Machine}
  {mem : Darwin.TargetState σ → MemBreak.Memory} {s : Server σ} {t : ThreadInfo}
  {rs : List (List Byte)} {log : List (Event σ)}

/-- A `G` or `P` answered `OK` while the cache was valid. -/
def Event.isAcknowledged : Event σ → Bool
  | .supply _ valid complete _ _ => valid && complete
  | _ => false

def Event.isFetch : Event σ → Bool
  | .fetch .. => true
  | _ => false

/-- The newest acknowledged write to the byte gave it this value. -/
def LastAcknowledged (node : Nat) (log : List (Event σ)) (i : RegName × Nat)
    (value : Option Byte) : Prop :=
  ∃ later e earlier, log = later ++ e :: earlier ∧ e.isAcknowledged = true ∧
    e.gives node i value ∧
    ∀ e' ∈ later, e'.isAcknowledged = true → ∀ value', ¬ e'.gives node i value'

def Server.detaches (s : Server σ) : List σ :=
  s.log.filterMap fun
    | .ptrace .detach _ _ os => some os
    | _ => none

/-- The machine `os` has what the client has written since the last stop, and in memory what
`m` shows. -/
structure LeftAsMade (k : Kernel σ) (machine : σ → Port → Machine)
    (mem : Darwin.TargetState σ → MemBreak.Memory) (s : Server σ) (t : ThreadInfo) (os : σ) :
    Prop where
  registers : ∀ i value, LastAcknowledged t.node (sinceStop s.transfers) i value →
    ((machine os t.port).get i.1)[i.2]? = value
  memory : ∀ addr len : Nat, addr < 2 ^ 32 → addr + len ≤ 2 ^ 32 → len < 2 ^ 31 →
    Proc.value ((MemBreak.readInferiorMemory (Darwin.memTarget k) addr len).run
      (s.memState t)) = some (load (mem { (s.memState t).target with os := os }) addr len)

/-- `D` lets the inferior go as the client made it. -/
def DetachLeaves (k : Kernel σ) (host : Signals.Host) (machine : σ → Port → Machine)
    (mem : Darwin.TargetState σ → MemBreak.Memory) (s : Server σ) (t : ThreadInfo)
    (rest : List Byte) : Prop :=
  ∃ os, (s.after k host (ch 'D' :: rest)).detaches = os :: s.detaches ∧
    LeftAsMade k machine mem s t os

/-- There is nothing to write back, and nothing to take out. Of breakpoints that overlap the
oldest counts. -/
structure NothingPending (k : Kernel σ) (bps : List MemBreak.Breakpoint)
    (memory : MemBreak.Memory) (node : Nat) (log : List (Event σ)) : Prop where
  registers : ∀ i value, LastAcknowledged node log i value →
    ∃ e ∈ log, e.isFetch = true ∧ e.gives node i value
  breakpoints : ∀ newer b older, bps = newer ++ b :: older → ∀ addr : Nat, addr < 2 ^ 32 →
    ∀ byte, byteAt b.pc (MemBreak.saved (Darwin.memTarget k) b) addr = some byte →
      (∀ c ∈ older, ¬ MemBreak.Covers (Darwin.memTarget k) c addr) → memory addr = byte

def Darwin.Reads (k : Kernel σ) (x : Darwin.TargetState σ) : Prop :=
  ∃ task, x.task = some task ∧
    ∀ addr len, addr + len ≤ 2 ^ 32 → (k.vmRead task addr len x.os).1.isSome = true

theorem Darwin.Reads.readMemory {x : Darwin.TargetState σ} (reads : Darwin.Reads k x)
    (shows : ShowsMemory k mem) {addr len : Nat} (lt : addr < 2 ^ 32)
    (inside : addr + len ≤ 2 ^ 32) :
    (Darwin.readMemory k addr len x).1 = load (mem x) addr len := by
  obtain ⟨task, htask, hall⟩ := reads
  obtain ⟨bs, hread⟩ := Option.isSome_iff_exists.mp (hall addr len inside)
  have haddr := Darwin.vmAddress_of_lt lt
  have hbytes := shows.vmRead x task addr len bs htask hread
  rcases hcall : k.vmRead task addr len x.os with ⟨got, os⟩
  rw [hcall] at hread
  cases hread
  simpa [Darwin.readMemory, htask, haddr, hcall] using hbytes

theorem Darwin.Reads.value {m : MemBreak.MemState (Darwin.TargetState σ)}
    (reads : Darwin.Reads k m.target) (shows : ShowsMemory k mem) (addr len : Nat)
    (lt : addr < 2 ^ 32) (inside : addr + len ≤ 2 ^ 32) (short : len < 2 ^ 31) :
    Proc.value ((MemBreak.readInferiorMemory (Darwin.memTarget k) addr len).run m) =
      some (load (MemBreak.clientView (Darwin.memTarget k) m.breakpoints (mem m.target))
        addr len) := by
  have hload : ((Darwin.memTarget k).readMemory addr len m.target).1 =
      load (mem m.target) addr len := reads.readMemory shows lt inside
  rw [MemBreak.readInferiorMemory_run, Proc.value_ok, hload,
    MemBreak.checkMemRead_load _ _ _ _ short]

/-- The client sees the memory as it is just if each saved byte that it sees is there. -/
theorem clientView_eq_iff (bps : List MemBreak.Breakpoint) (memory : MemBreak.Memory) :
    (∀ addr : Nat, addr < 2 ^ 32 →
      MemBreak.clientView (Darwin.memTarget k) bps memory addr = memory addr) ↔
    ∀ newer b older, bps = newer ++ b :: older → ∀ addr : Nat, addr < 2 ^ 32 →
      ∀ byte, byteAt b.pc (MemBreak.saved (Darwin.memTarget k) b) addr = some byte →
        (∀ c ∈ older, ¬ MemBreak.Covers (Darwin.memTarget k) c addr) → memory addr = byte := by
  constructor
  · rintro hsame newer b older rfl addr lt byte hbyte holder
    exact (hsame addr lt).symm.trans (MemBreak.clientView_of_oldest _ hbyte holder memory)
  · intro hsaved addr lt
    rcases MemBreak.uncovered_or_oldest (Darwin.memTarget k) bps addr with
      hfree | ⟨newer, b, older, hsplit, hcovers, holder⟩
    · exact MemBreak.clientView_of_uncovered _ hfree memory
    · obtain ⟨byte, hbyte⟩ := byteAt_of_inSpan ((MemBreak.inSpan_saved_iff _).mpr hcovers)
      have hmemory := hsaved newer b older hsplit addr lt byte hbyte holder
      rw [hsplit, hmemory]
      exact MemBreak.clientView_of_oldest _ hbyte holder memory

/-- Since the last stop the thread's machine has not changed: what a fetch has brought is
still there. A valid cache has been fetched, and nothing is acknowledged with it before. -/
structure FetchedAsIs (m : Machine) (t : ThreadInfo) (log : List (Event σ)) : Prop where
  current : ∀ e ∈ sinceStop log, e.isFetch = true → ∀ i value, e.gives t.node i value →
    (m.get i.1)[i.2]? = value
  fetched : t.regcache.valid = true ∨ (∃ e ∈ sinceStop log, e.isAcknowledged = true) →
    ∃ e ∈ sinceStop log, e.isFetch = true ∧
      ∀ i : RegName × Nat, e.gives t.node i (m.get i.1)[i.2]?

theorem FetchedAsIs.fill {os : σ} (h : FetchedAsIs (machine os t.port) t log)
    (shows : ShowsRegisters k machine) (obliging : Obliging k) :
    FetchedAsIs (machine (filledOs k os t) (filled k os t).port) (filled k os t)
      (fillLog k os t ++ log) := by
  rw [shows.filledOs]
  cases hvalid : t.regcache.valid with
  | true =>
    rw [filled_of_valid hvalid, fillLog_of_valid hvalid]
    exact h
  | false =>
    let registers := (DarwinPpc.fetchRegisters k t.port t.regcache.registers os).1
    have hlog : fillLog k os t =
        [.fetch t.node (DarwinPpc.fetched k t.port os) registers] := by
      simp [fillLog, hvalid, registers]
    have hcollect : ∀ name, collectByName name registers = (machine os t.port).get name := by
      intro name
      have hfetch := shows.collect_fetchRegisters t.port t.regcache.registers_length os name
      rwa [if_pos (obliging.fetched t.port os name)] at hfetch
    rw [filled_port, hlog]
    constructor
    · intro e he hfetch i value hgives
      rw [filled_node] at hgives
      rcases List.mem_cons.mp he with rfl | hold
      · rw [← hcollect i.1]
        exact hgives.2.2
      · exact h.current e hold hfetch i value hgives
    · refine fun _ => ⟨_, List.mem_cons_self, rfl, fun i => ?_⟩
      rw [filled_node, ← hcollect i.1]
      exact ⟨rfl, obliging.fetched t.port os i.1, rfl⟩

theorem FetchedAsIs.supply {m : Machine} (h : FetchedAsIs m t log) (complete : Bool)
    (offset : Nat) (bytes : List Byte) {t' : ThreadInfo} (node : t'.node = t.node)
    (same : t'.regcache.valid = t.regcache.valid) :
    FetchedAsIs m t' (.supply t.node t.regcache.valid complete offset bytes :: log) := by
  have hfetched : t.regcache.valid = true ∨ (∃ e ∈ sinceStop log, e.isAcknowledged = true) →
      ∃ e ∈ sinceStop (.supply t.node t.regcache.valid complete offset bytes :: log),
        e.isFetch = true ∧ ∀ i : RegName × Nat, e.gives t.node i (m.get i.1)[i.2]? := by
    intro hor
    obtain ⟨e, he, hgives⟩ := h.fetched hor
    exact ⟨e, List.mem_cons_of_mem _ he, hgives⟩
  constructor
  · intro e he hfetch i value hgives
    rw [node] at hgives
    rcases List.mem_cons.mp he with rfl | hold
    · cases hfetch
    · exact h.current e hold hfetch i value hgives
  · rw [node, same]
    rintro (hvalid | ⟨e, he, hacknowledged⟩)
    · exact hfetched (.inl hvalid)
    · rcases List.mem_cons.mp he with rfl | hold
      · have hboth : (t.regcache.valid && complete) = true := hacknowledged
        rw [Bool.and_eq_true] at hboth
        exact hfetched (.inl hboth.1)
      · exact hfetched (.inr ⟨e, hold, hacknowledged⟩)

theorem FetchedAsIs.stopped {m : Machine} (stopped : sinceStop log = [])
    (invalid : t.regcache.valid = false) : FetchedAsIs m t log := by
  constructor
  · rw [stopped]
    intro e he
    cases he
  · rw [stopped, invalid]
    rintro (hvalid | ⟨e, he, -⟩)
    · cases hvalid
    · cases he

def Server.holdings (machine : σ → Port → Machine) (s : Server σ) :
    (Port → Machine) × List ThreadInfo × List (Event σ) :=
  (machine s.os, s.allThreads, s.transfers)

def AsFetched (machine : σ → Port → Machine) (s : Server σ) : Prop :=
  ∀ t ∈ s.allThreads, FetchedAsIs (machine s.os t.port) t s.transfers

theorem beside_holdings (shows : ShowsRegisters k machine) :
    Beside k (Server.holdings machine) := by
  have hmemory : ∀ {α : Type} {p : Proc (MemBreak.MemState (Darwin.TargetState σ)) α},
      Proc.Keeps (fun m : MemBreak.MemState (Darwin.TargetState σ) => machine m.target.os) p →
        Proc.Keeps (Server.holdings machine) (withMemory p) := by
    intro α p hp
    refine .bind derefCurrent_keeps fun t => .zoom_of_keeps
      (g := fun m : MemBreak.MemState (Darwin.TargetState σ) => machine m.target.os) hp ?_
    intro m s hm
    exact congrArg (fun machines => (machines, s.allThreads, s.transfers)) hm
  exact
    { link := fun _ _ => rfl
      current := fun _ _ => rfl
      chosen := fun _ _ _ _ => rfl
      threadPtr := fun _ _ => rfl
      remoteDebug := fun _ _ => rfl
      sent := fun _ _ => rfl
      probed := fun s pid =>
        congrArg (fun machines => (machines, s.allThreads, s.transfers)) (shows.kill pid 0 s.os)
      interrupted := fun s t sig _ =>
        congrArg (fun machines => (machines, s.allThreads, s.transfers)) (shows.kill t.pid sig s.os)
      read := fun _ _ => hmemory (shows.spares.readInferiorMemory _ _)
      written := fun _ _ => hmemory (shows.spares.writeInferiorMemory _ _)
      inserted := fun _ => hmemory (shows.spares.setBreakpointAt _ _)
      removed := fun _ => hmemory (shows.spares.deleteBreakpointAt _) }

theorem asFetched_kept (shows : ShowsRegisters k machine) (obliging : Obliging k) :
    Kept k (Server.holdings machine) (AsFetched machine) where
  beside := beside_holdings shows
  reported _ _ := rfl
  same := by
    intro s s' hsame h
    simp only [Server.holdings, Prod.mk.injEq] at hsame
    unfold AsFetched
    rw [hsame.1, hsame.2.1, hsame.2.2]
    exact h
  fill := by
    intro rs s t h hs
    unfold AsFetched at hs ⊢
    rw [h.threads, List.forall_mem_singleton] at hs
    rw [h.fill.threads, List.forall_mem_singleton, fill_transfers]
    exact hs.fill shows obliging
  supply := by
    intro rs s t h hs complete offset bytes
    unfold AsFetched at hs ⊢
    rw [h.threads, List.forall_mem_singleton] at hs
    rw [(h.supplied complete offset bytes).threads, List.forall_mem_singleton]
    exact hs.supply complete offset bytes rfl rfl
  resume := by
    rintro rs s _ t h hs step sig ⟨os, port, status, sig', waiting, rfl⟩ -
    have hresumed : Serving rs (s.resumed k (resumeRequest step) t.pid sig) (setValid false t) :=
      h.resumed _ _ _
    have hassigned := hresumed.assign (f := setPort port) rfl rfl rfl
    have hthreads : ((s.resumed k (resumeRequest step) t.pid sig).assignThread t.node
        (setPort port)).allThreads = [setPort port (setValid false t)] := hassigned.threads
    have hinvalid : ∀ u ∈ ((s.resumed k (resumeRequest step) t.pid sig).assignThread t.node
        (setPort port)).allThreads, u.regcache.valid = false := by
      rw [hthreads, List.forall_mem_singleton]
      rfl
    exact fun u hu => .stopped (recent_boundary rfl) (hinvalid u hu)

/-- What packets keep, and start-up establishes, holds whenever the packet loop calls
`getpkt`. -/
theorem Kept.reachable {β : Type} {v : Server σ → β} {P : Server σ → Prop} (hP : Kept k v P)
    (start : ∀ s, Unread s → P s) (reachable : Reachable k host s) : P s := by
  induction reachable with
  | start ep pid fresh prepared =>
    have hunread := fresh.unread.prepareInferior (k := k) ep pid
    rw [Stays, prepared] at hunread
    exact start _ hunread
  | turn before again ih =>
    obtain ⟨rs, t, h⟩ := before.serving
    exact hP.next h ih (.served again)
  | jump before jumped ih =>
    obtain ⟨rs, t, h⟩ := before.serving
    exact hP.next h ih (.failed jumped)

theorem Reachable.asFetched (shows : ShowsRegisters k machine) (obliging : Obliging k)
    (reachable : Reachable k host s) : AsFetched machine s :=
  (asFetched_kept shows obliging).reachable
    (fun _ h t ht => .stopped h.sinceStop_eq (h.invalid t ht)) reachable

/-- An acknowledged value is in the machine just if it was fetched from there. -/
theorem FetchedAsIs.registers_iff {m : Machine} (h : FetchedAsIs m t log) :
    (∀ i value, LastAcknowledged t.node (sinceStop log) i value →
        (m.get i.1)[i.2]? = value) ↔
      ∀ i value, LastAcknowledged t.node (sinceStop log) i value →
        ∃ e ∈ sinceStop log, e.isFetch = true ∧ e.gives t.node i value := by
  refine forall_congr' fun i => forall_congr' fun value => imp_congr_right fun last => ?_
  constructor
  · rintro rfl
    obtain ⟨later, e, earlier, hlog, hacknowledged, -⟩ := last
    have he : e ∈ sinceStop log := by
      rw [hlog]
      exact List.mem_append_right _ List.mem_cons_self
    obtain ⟨e', he', hfetch, hgives⟩ := h.fetched (.inr ⟨e, he, hacknowledged⟩)
    exact ⟨e', he', hfetch, hgives i⟩
  · rintro ⟨e, he, hfetch, hgives⟩
    exact h.current e he hfetch i value hgives

theorem beside_detaches (k : Kernel σ) : Beside k Server.detaches where
  link _ _ := rfl
  current _ _ := rfl
  chosen _ _ _ _ := rfl
  threadPtr _ _ := rfl
  remoteDebug _ _ := rfl
  sent _ _ := rfl
  probed _ _ := rfl
  interrupted _ _ _ _ := rfl
  read _ _ := withMemory_keeps (fun _ _ _ _ => rfl) _
  written _ _ := withMemory_keeps (fun _ _ _ _ => rfl) _
  inserted _ := withMemory_keeps (fun _ _ _ _ => rfl) _
  removed _ := withMemory_keeps (fun _ _ _ _ => rfl) _

theorem after_D (h : Serving rs s t) (rest : List Byte) :
    (s.after k host (ch 'D' :: rest)).detaches = s.os :: s.detaches := by
  let s₁ := s.withText (ch 'D' :: rest)
  have h₁ : Serving rs s₁ t := h
  have hbeside := beside_detaches k
  have hcurrent : s₁.currentInferior ≠ none := by
    rw [h₁.current]
    exact Option.some_ne_none _
  have hdetach : (Proc.final ((darwinDetach k).run s₁)).detaches = s.os :: s.detaches := by
    simp only [darwinDetach, EStateM.run_bind, EStateM.run_get, hcurrent, if_false,
      derefCurrent_run h₁.live, ptrace_run]
    rfl
  have hc : command s₁ = 'D' := rfl
  have hp : dispatch k host 'D' = do handleDDetach k host; return false := rfl
  rw [after_eq hc hp]
  unfold handleDDetach
  refine (Proc.Keeps.final_bind (f := Server.detaches) (fun _ => ?_) s₁).trans hdetach
  refine .bind (hbeside.reply _) fun _ => .bind hbeside.putpkt fun _ => ?_
  refine .bind (.modify fun _ => rfl) fun _ => .bind .get fun _ => ?_
  exact .ite (.bind (.modify fun _ => rfl) fun _ => .bind (.modifyGet fun _ => rfl) fun _ =>
    .throw _) (.throw _)

theorem leftAsMade_iff (showsMemory : ShowsMemory k mem)
    (reads : Darwin.Reads k (s.memState t).target)
    (fetched : FetchedAsIs (machine s.os t.port) t s.transfers) :
    LeftAsMade k machine mem s t s.os ↔
      NothingPending k s.breakpoints (mem (s.memState t).target) t.node
        (sinceStop s.transfers) := by
  have hvalue := reads.value (m := s.memState t) showsMemory
  have hview := clientView_eq_iff (k := k) s.breakpoints (mem (s.memState t).target)
  constructor
  · intro left
    constructor
    · exact fetched.registers_iff.mp left.registers
    · refine hview.mp fun addr lt => ?_
      have hone := left.memory addr 1 lt lt (by omega)
      rw [hvalue addr 1 lt lt (by omega), Option.some.injEq, load_eq_iff] at hone
      exact hone addr ⟨Int.le_refl _, by omega⟩
  · intro nothing
    constructor
    · exact fetched.registers_iff.mpr nothing.registers
    · intro addr len lt inside short
      rw [hvalue addr len lt inside short, Option.some.injEq, load_eq_iff]
      intro x hx
      obtain ⟨n, rfl⟩ := Int.eq_ofNat_of_zero_le (Int.le_trans (Int.natCast_nonneg addr) hx.1)
      exact hview.mpr nothing.breakpoints n (by have := hx.2; omega)

/-- At the end of every session `D` leaves the inferior as the client made it just if the
registers that `G` and `P` have set since the last stop are those fetched at it, and under
the breakpoints still listed memory holds what they saved. -/
theorem detach_leaves_iff (shows : ShowsRegisters k machine) (obliging : Obliging k)
    (showsMemory : ShowsMemory k mem) (reachable : Reachable k host s)
    (single : s.allThreads = [t]) (reads : Darwin.Reads k (s.memState t).target)
    (rest : List Byte) :
    DetachLeaves k host machine mem s t rest ↔
      NothingPending k s.breakpoints (mem (s.memState t).target) t.node
        (sinceStop s.transfers) := by
  obtain ⟨rs, t', h⟩ := reachable.serving
  obtain rfl : t' = t := List.singleton_inj.mp (h.threads.symm.trans single)
  have hfetched := reachable.asFetched shows obliging t' h.live.mem
  rw [← leftAsMade_iff showsMemory reads hfetched]
  constructor
  · rintro ⟨os, hdetaches, left⟩
    rw [after_D h, List.cons.injEq] at hdetaches
    exact hdetaches.1 ▸ left
  · exact fun left => ⟨s.os, after_D h rest, left⟩

/-- A machine on which all calls do what they are asked to do. -/
def obligingMachine : Kernel ((Port → Machine) × MemBreak.Memory) where
  forkExec m := (some 7, m)
  ptrace _ _ _ m := (true, m)
  readD _ _ m := (.error Darwin.eio, m)
  writeD _ _ _ m := (Darwin.eio, m)
  waitpid _ m := (.stopped 5, m)
  reap _ m := m
  kill _ _ m := (true, m)
  taskForPid _ m := (some 1, m)
  taskThreads _ m := (some [1], m)
  vmRead _ addr n m := (some (load m.2 addr n), m)
  vmWrite _ addr bs m := (true, m.1, store m.2 addr bs)
  vmProtect _ _ _ m := (true, m)
  threadGetState port m := (some (m.1 port).thread, m)
  threadSetState port state m :=
    (true, Function.update m.1 port { m.1 port with thread := state }, m.2)
  floatGetState port m := (some (m.1 port).float, m)
  floatSetState port fstate m :=
    (true, Function.update m.1 port { m.1 port with float := fstate }, m.2)
  vmRead_length := by
    intro _ addr n m bs hbs
    cases hbs
    exact load_length m.2 addr n

theorem obligingMachine_showsRegisters : ShowsRegisters obligingMachine Prod.fst where
  threadGot _ _ _ hstate := (Option.some.inj hstate).symm
  threadGet _ _ := rfl
  floatGot _ _ _ hfstate := (Option.some.inj hfstate).symm
  floatGet _ _ := rfl
  threadSet _ _ _ := rfl
  floatSet _ _ _ := rfl
  readD _ _ _ := rfl
  writeD _ _ _ _ := rfl
  vmRead _ _ _ _ := rfl
  vmWrite _ _ _ _ := rfl
  vmProtect _ _ _ _ := rfl
  kill _ _ _ := rfl

theorem obligingMachine_obliging : Obliging obligingMachine where
  threadGet _ _ := rfl
  floatGet _ _ := rfl
  threadSet _ _ _ := rfl
  floatSet _ _ _ := rfl

theorem obligingMachine_showsMemory : ShowsMemory obligingMachine fun x => x.os.2 where
  vmRead _ _ _ _ _ _ hread := (Option.some.inj hread).symm
  vmRead_mem _ _ _ _ _ := rfl
  readD _ _ _ hread := by cases hread
  readD_mem _ _ := rfl
  vmWrite _ _ _ _ _ _ := rfl
  vmWrite_failed _ _ _ _ _ hwrite := by cases hwrite
  vmProtect_mem _ _ _ _ _ := rfl
  writeD _ _ _ hwrite := by cases hwrite
  writeD_failed _ _ _ _ := rfl

def launchedObliging (chunks : List (List Byte)) : Server ((Port → Machine) × MemBreak.Memory) :=
  Proc.final ((prepareInferior obligingMachine 0 0).run
    (initial (fun _ => blankMachine, fun _ => 0) chunks))

theorem reachable_launchedObliging (chunks : List (List Byte)) :
    Reachable obligingMachine Signals.darwin (launchedObliging chunks) :=
  .start 0 0 (fresh_initial _ chunks) rfl

theorem reads_obligingMachine {x : Darwin.TargetState ((Port → Machine) × MemBreak.Memory)}
    (task : x.task = some 1) : Darwin.Reads obligingMachine x := ⟨1, task, fun _ _ _ => rfl⟩

/-- The client detaches at once. -/
theorem detach_leaves_iff_launched :
    ∃ t, (launchedObliging []).allThreads = [t] ∧
      DetachLeaves obligingMachine Signals.darwin Prod.fst (fun x => x.os.2)
        (launchedObliging []) t [] := by
  refine ⟨_, rfl, (detach_leaves_iff obligingMachine_showsRegisters obligingMachine_obliging
    obligingMachine_showsMemory (reachable_launchedObliging []) rfl (reads_obligingMachine rfl)
    []).mpr ⟨?_, ?_⟩⟩
  · rintro i value ⟨later, e, earlier, hlog, -⟩
    cases later <;> cases hlog
  · rintro newer b older hbps
    cases newer <;> cases hbps

def servedObliging (packet : List Byte) : Server ((Port → Machine) × MemBreak.Memory) :=
  Proc.final ((turn obligingMachine Signals.darwin).run (launchedObliging [packet, ascii "+"]))

theorem reachable_servedObliging {packet : List Byte}
    (served : Proc.value ((turn obligingMachine Signals.darwin).run
      (launchedObliging [packet, ascii "+"])) = some true) :
    Reachable obligingMachine Signals.darwin (servedObliging packet) :=
  .turn (reachable_launchedObliging _) (Proc.eq_ok_of_value served)

/-- `D` does not leave the one process of `s` as the client made it. -/
def DetachDiffers (s : Server ((Port → Machine) × MemBreak.Memory)) : Prop :=
  Reachable obligingMachine Signals.darwin s ∧ ∃ t, s.allThreads = [t] ∧
    Darwin.Reads obligingMachine (s.memState t).target ∧
    ¬ DetachLeaves obligingMachine Signals.darwin Prod.fst (fun x => x.os.2) s t []

section Differing

variable {s : Server ((Port → Machine) × MemBreak.Memory)}

theorem detachDiffers_of_register (reachable : Reachable obligingMachine Signals.darwin s)
    (task : s.currentTask = some 1)
    (threads : s.allThreads.map (fun t => (t.node, t.port)) = [(0, 1)]) {bytes : List Byte}
    {offset : Nat} {earlier : List (Event ((Port → Machine) × MemBreak.Memory))}
    (newest : sinceStop s.transfers = .supply 0 true true offset bytes :: earlier) {j : Nat}
    (inside : j < (RegName.r 0).bytes)
    (at_j : offset ≤ place (.r 0) j ∧ place (.r 0) j < offset + bytes.length)
    (differs : ((s.os.1 1).get (.r 0))[j]? ≠ bytes[place (.r 0) j - offset]?) :
    DetachDiffers s := by
  obtain ⟨rs, t, h⟩ := reachable.serving
  rw [h.threads, List.map_singleton, List.singleton_inj, Prod.mk.injEq] at threads
  refine ⟨reachable, t, h.threads, reads_obligingMachine task, ?_⟩
  rintro ⟨os, hdetaches, left⟩
  rw [after_D h, List.cons.injEq] at hdetaches
  have hkept := left.registers (.r 0, j) (bytes[place (.r 0) j - offset]?)
  rw [← hdetaches.1, threads.1, threads.2, newest] at hkept
  exact differs (hkept ⟨[], _, earlier, rfl, rfl, ⟨rfl, inside, at_j, rfl⟩, by simp⟩)

theorem detachDiffers_of_breakpoint (reachable : Reachable obligingMachine Signals.darwin s)
    (task : s.currentTask = some 1) {b : MemBreak.Breakpoint} (only : s.breakpoints = [b])
    (addr : Nat) (lt : addr < 2 ^ 32) {byte : Byte}
    (saved : byteAt b.pc (MemBreak.saved (Darwin.memTarget obligingMachine) b) addr = some byte)
    (differs : s.os.2 addr ≠ byte) : DetachDiffers s := by
  obtain ⟨rs, t, h⟩ := reachable.serving
  refine ⟨reachable, t, h.threads, reads_obligingMachine task, ?_⟩
  rintro ⟨os, hdetaches, left⟩
  rw [after_D h, List.cons.injEq] at hdetaches
  rw [← hdetaches.1, leftAsMade_iff obligingMachine_showsMemory (reads_obligingMachine task)
    (reachable.asFetched obligingMachine_showsRegisters obligingMachine_obliging t h.live.mem)]
    at left
  exact differs (left.breakpoints [] b [] only addr lt byte saved (by simp))

end Differing

def suppliedFive : List (Event ((Port → Machine) × MemBreak.Memory)) → Bool
  | .supply 0 true true 0 bytes :: _ => bytes == [0, 0, 0, 5]
  | _ => false

def savedZero : List MemBreak.Breakpoint → Bool
  | [b] => byteAt b.pc (MemBreak.saved (Darwin.memTarget obligingMachine) b) 16 == some 0
  | _ => false

/-- After `G` the first register is still zero, and after `Z0` the trap is still in memory. -/
theorem not_detach_leaves :
    DetachDiffers (servedObliging (ascii "$G00000005#cc")) ∧
      DetachDiffers (servedObliging (ascii "$Z0,10,4#77")) := by
  constructor
  · have hlog : suppliedFive
        (sinceStop (servedObliging (ascii "$G00000005#cc")).transfers) = true := by
      decide +kernel
    unfold suppliedFive at hlog
    split at hlog
    · rename_i bytes earlier hnewest
      obtain rfl := beq_iff_eq.mp hlog
      refine detachDiffers_of_register (j := 3) (reachable_servedObliging ?_) ?_ ?_ hnewest ?_ ?_ ?_
      · decide +kernel
      · decide +kernel
      · decide +kernel
      · decide
      · decide
      · decide +kernel
    · cases hlog
  · have hbps : savedZero (servedObliging (ascii "$Z0,10,4#77")).breakpoints = true := by
      decide +kernel
    unfold savedZero at hbps
    split at hbps
    · rename_i b honly
      refine detachDiffers_of_breakpoint (reachable_servedObliging ?_) ?_ honly 16 ?_
        (beq_iff_eq.mp hbps) ?_
      · decide +kernel
      · decide +kernel
      · omega
      · decide +kernel
    · cases hbps

end Gdbserver
