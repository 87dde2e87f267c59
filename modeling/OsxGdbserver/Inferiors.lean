import OsxGdbserver.PacketLoop
import OsxGdbserver.Lib.Simulation

/-!
# The list of threads and the current one

`current_inferior` against `all_threads`, over any order of the operations that change
either of them.
-/

namespace Gdbserver

open Ppc

variable {σ : Type} {k : Kernel σ} {s : Server σ}

/-- A call of one of them. Between two calls of `set_desired_inferior` packets may have
selected other threads. -/
inductive InferiorOp
  | addThread (threadId pid : Int) (port : Port)
  | removeThread (node : Nat)
  | clearInferiors
  | setDesiredInferior (useGeneral : Bool) (contThread generalThread stepThread : Int)
  | regcacheInvalidate
  deriving DecidableEq, Repr

def InferiorOp.call (k : Kernel σ) : InferiorOp → Proc (Server σ) Unit
  | .addThread threadId pid port => Gdbserver.addThread threadId pid port
  | .removeThread node => Gdbserver.removeThread node
  | .clearInferiors => Gdbserver.clearInferiors
  | .setDesiredInferior useGeneral contThread generalThread stepThread => do
    modify fun s =>
      { s with contThread := contThread, generalThread := generalThread, stepThread := stepThread }
    Gdbserver.setDesiredInferior useGeneral
  | .regcacheInvalidate => Gdbserver.regcacheInvalidate k

def inferiorStep (k : Kernel σ) (s : Server σ) (op : InferiorOp) : Unit × Server σ :=
  ((), Proc.final ((op.call k).run s))

/-- `current_inferior` is `NULL`, and then there is no thread, or it is a listed thread. -/
def Pointed (s : Server σ) : Prop :=
  match s.currentInferior with
  | none => s.allThreads = []
  | some node => node ∈ s.allThreads.map ThreadInfo.node

/-- The current thread is not the one removed, and only an empty list is cleared. -/
def SafeOp (s : Server σ) : InferiorOp → Prop
  | .removeThread node => s.currentInferior ≠ some node
  | .clearInferiors => s.allThreads = []
  | _ => True

theorem pointed_none (h : s.currentInferior = none) : Pointed s ↔ s.allThreads = [] := by
  simp only [Pointed, h]

theorem pointed_some {node : Nat} (h : s.currentInferior = some node) :
    Pointed s ↔ node ∈ s.allThreads.map ThreadInfo.node := by
  simp only [Pointed, h]

theorem Threads.of_sublist (h : Threads s) {threads : List ThreadInfo}
    (sub : threads.Sublist s.allThreads) : Threads { s with allThreads := threads } where
  nodup := h.nodup.sublist (sub.map _)
  below t ht := h.below t (sub.subset ht)

theorem Threads.of_nodes (h : Threads s) {s' : Server σ}
    (nodes : s'.allThreads.map ThreadInfo.node = s.allThreads.map ThreadInfo.node)
    (next : s'.nextThread = s.nextThread) : Threads s' where
  nodup := nodes ▸ h.nodup
  below t ht := by
    have hmem : t.node ∈ s.allThreads.map ThreadInfo.node := nodes ▸ List.mem_map_of_mem ht
    obtain ⟨u, hu, hnode⟩ := List.mem_map.mp hmem
    rw [next, ← hnode]
    exact h.below u hu

theorem flush_nodes (s : Server σ) :
    (s.flush k).allThreads.map ThreadInfo.node = s.allThreads.map ThreadInfo.node := by
  have hcompose : ThreadInfo.node ∘ setValid false = ThreadInfo.node := rfl
  simp only [Server.flush, List.map_map, hcompose]

theorem addThread_threads (h : Threads s) (threadId pid : Int) (port : Port) :
    Threads (Proc.final ((addThread threadId pid port).run s)) := by
  constructor
  · change ((s.allThreads ++ [_]).map ThreadInfo.node).Nodup
    rw [List.map_append, List.nodup_append]
    refine ⟨h.nodup, List.nodup_singleton _, ?_⟩
    rintro a ha b hb rfl
    obtain ⟨u, hu, rfl⟩ := List.mem_map.mp ha
    have hlt := h.below u hu
    have heq : u.node = s.nextThread := List.mem_singleton.mp hb
    omega
  · intro t ht
    change t.node < s.nextThread + 1
    rcases List.mem_append.mp ht with ht | ht
    · exact Nat.lt_succ_of_lt (h.below t ht)
    · rw [List.mem_singleton.mp ht]
      exact Nat.lt_succ_self _

theorem eraseP_nodes (threads : List ThreadInfo) (node : Nat) :
    (threads.eraseP fun t => t.node = node).map ThreadInfo.node =
      (threads.map ThreadInfo.node).erase node := by
  have hpred : (fun t : ThreadInfo => decide (t.node = node)) =
      (fun a => a == node) ∘ ThreadInfo.node := by
    funext t
    exact (beq_eq_decide t.node node).symm
  rw [List.erase_eq_eraseP', hpred, ← List.eraseP_map]

theorem removeThread_final (node : Nat) :
    Proc.final ((removeThread node).run s) = s ∧ node ∉ s.allThreads.map ThreadInfo.node ∨
      Proc.final ((removeThread node).run s) =
          { s with allThreads := s.allThreads.eraseP fun t => t.node = node } ∧
        node ∈ s.allThreads.map ThreadInfo.node := by
  cases hfind : s.threadAt node with
  | none =>
    refine Or.inl ⟨?_, ?_⟩
    · simp [removeThread, hfind]
    · intro hmem
      obtain ⟨t, ht, hnode⟩ := List.mem_map.mp hmem
      simpa [hnode] using List.find?_eq_none.mp hfind t ht
  | some t =>
    refine Or.inr ⟨?_, ?_⟩
    · simp [removeThread, hfind]
    · rw [← node_of_threadAt hfind]
      exact List.mem_map_of_mem (List.mem_of_find?_eq_some hfind)

/-- Every operation keeps the addresses of the listed threads apart. -/
theorem inferiorStep_threads (s : Server σ) (op : InferiorOp) (h : Threads s) :
    Threads (inferiorStep k s op).2 := by
  cases op with
  | addThread threadId pid port => exact addThread_threads h threadId pid port
  | removeThread node =>
    change Threads (Proc.final ((removeThread node).run s))
    rcases removeThread_final (s := s) node with ⟨hfinal, _⟩ | ⟨hfinal, _⟩
    · rwa [hfinal]
    · rw [hfinal]
      exact h.of_sublist List.eraseP_sublist
  | clearInferiors => exact h.of_sublist (List.nil_sublist _)
  | setDesiredInferior useGeneral contThread generalThread stepThread =>
    exact h.of_nodes rfl rfl
  | regcacheInvalidate =>
    have hrun := regcacheInvalidate_run (k := k) h.nodup
    change Threads (Proc.final ((regcacheInvalidate k).run s))
    rw [hrun]
    exact h.of_nodes (flush_nodes s) rfl

theorem addThread_pointed (h : Pointed s) (threadId pid : Int) (port : Port) :
    Pointed (Proc.final ((addThread threadId pid port).run s)) := by
  let t : ThreadInfo :=
    { node := s.nextThread, id := threadId, pid := pid, port := port, regcache := newRegisterCache }
  change Pointed { s with
    allThreads := s.allThreads ++ [t]
    nextThread := s.nextThread + 1
    currentInferior := s.currentInferior.or (some s.nextThread) }
  cases hcurrent : s.currentInferior with
  | none => simp [Pointed, t]
  | some node =>
    rw [pointed_some hcurrent] at h
    simp only [Pointed, Option.some_or, List.map_append]
    exact List.mem_append_left _ h

/-- A freed thread is not listed any more, the other ones are. -/
theorem removeThread_pointed (threads : Threads s) (h : Pointed s) (node : Nat) :
    Pointed (Proc.final ((removeThread node).run s)) ↔ s.currentInferior ≠ some node := by
  rcases removeThread_final (s := s) node with ⟨hfinal, hnot⟩ | ⟨hfinal, hmem⟩
  · rw [hfinal]
    refine iff_of_true h ?_
    intro hcurrent
    exact hnot ((pointed_some hcurrent).mp h)
  · have hleft : ∀ current,
        current ∈ (s.allThreads.eraseP fun t => t.node = node).map ThreadInfo.node ↔
          current ≠ node ∧ current ∈ s.allThreads.map ThreadInfo.node := by
      intro current
      rw [eraseP_nodes, threads.nodup.mem_erase_iff]
    rw [hfinal]
    cases hcurrent : s.currentInferior with
    | none =>
      have hempty := (pointed_none hcurrent).mp h
      rw [hempty] at hmem
      exact absurd hmem List.not_mem_nil
    | some current =>
      have hlisted := (pointed_some hcurrent).mp h
      change current ∈ (s.allThreads.eraseP fun t => t.node = node).map ThreadInfo.node ↔ _
      rw [hleft, and_iff_left hlisted]
      exact not_congr (by rw [Option.some.injEq])

theorem setDesiredInferior_pointed (s : Server σ) (useGeneral : Bool) :
    Pointed (Proc.final ((setDesiredInferior useGeneral).run s)) := by
  change Pointed { s with currentInferior := (s.desired useGeneral).map ThreadInfo.node }
  cases hdesired : s.desired useGeneral with
  | none =>
    have hhead := (Option.or_eq_none_iff.mp hdesired).2
    exact List.head?_eq_none_iff.mp hhead
  | some t => exact List.mem_map_of_mem (desired_mem hdesired)

/-- From a state in which `current_inferior` is right, an operation leads to such a state
just if it is a safe one. -/
theorem inferiorStep_pointed (s : Server σ) (op : InferiorOp) (threads : Threads s)
    (h : Pointed s) : Pointed (inferiorStep k s op).2 ↔ SafeOp s op := by
  cases op with
  | addThread threadId pid port =>
    exact iff_of_true (addThread_pointed h threadId pid port) trivial
  | removeThread node => exact removeThread_pointed threads h node
  | clearInferiors =>
    change Pointed { s with allThreads := [] } ↔ s.allThreads = []
    cases hcurrent : s.currentInferior with
    | none =>
      have hempty := (pointed_none hcurrent).mp h
      exact iff_of_true (by simp [Pointed]) hempty
    | some node =>
      have hlisted := (pointed_some hcurrent).mp h
      refine iff_of_false (by simp [Pointed]) ?_
      intro hempty
      rw [hempty] at hlisted
      exact absurd hlisted List.not_mem_nil
  | setDesiredInferior useGeneral contThread generalThread stepThread =>
    exact iff_of_true (setDesiredInferior_pointed _ useGeneral) trivial
  | regcacheInvalidate =>
    refine iff_of_true ?_ trivial
    change Pointed (Proc.final ((regcacheInvalidate k).run s))
    rw [regcacheInvalidate_run threads.nodup]
    change Pointed (s.flush k)
    cases hcurrent : s.currentInferior with
    | none =>
      rw [pointed_none hcurrent] at h
      rw [pointed_none (s := s.flush k) hcurrent]
      simp [Server.flush, h]
    | some node =>
      rw [pointed_some hcurrent] at h
      rw [pointed_some (s := s.flush k) hcurrent, flush_nodes]
      exact h

/-- The restart paths of `k`, `R` and an inferior that has exited. -/
def killAndCreate (k : Kernel σ) : Proc (Server σ) Int := do
  darwinKill k
  darwinCreateInferior k

theorem darwinCreateInferior_ends (s : Server σ) (empty : s.allThreads = []) :
    Proc.Ends (darwinCreateInferior k)
      (fun pid s' => ∃ t, s'.allThreads = [t] ∧ t.id = pid ∧ t.node = s.nextThread ∧
        s'.currentInferior = s.currentInferior.or (some s.nextThread))
      (fun _ _ => True) s := by
  simp only [darwinCreateInferior, callKernel, Proc.Ends.bind_iff, Proc.Ends.modifyGet_iff]
  cases (k.forkExec s.os).1 with
  | none => trivial
  | some pid =>
    simp only [addProcess, callKernel, Proc.Ends.bind_iff, Proc.Ends.modify_iff,
      Proc.Ends.modifyGet_iff, Server.record]
    cases (k.taskForPid pid (k.forkExec s.os).2).1 with
    | none => trivial
    | some task =>
      simp only [Proc.Ends.bind_iff, Proc.Ends.modify_iff]
      refine (darwinGetFirstThread_ends (some task)).imp ?_ fun _ _ _ => trivial
      rintro port _ ⟨_, os, rfl⟩
      simp only [addThread, Proc.Ends.modify_iff, Proc.Ends.pure_iff]
      let t : ThreadInfo :=
        { node := s.nextThread, id := pid, pid := pid, port := port, regcache := newRegisterCache }
      exact ⟨t, by simp [empty, t], rfl, rfl, trivial⟩

/-- After `darwin_kill` and `darwin_create_inferior` the new thread is current just if
there was none before. -/
theorem killAndCreate_ends (threads : Threads s) (h : Pointed s) :
    Proc.Ends (killAndCreate k)
      (fun pid s' => ∃ t, s'.allThreads = [t] ∧ t.id = pid ∧
        (s'.currentInferior = some t.node ↔ s.allThreads = []))
      (fun _ _ => True) s := by
  unfold killAndCreate
  rw [Proc.Ends.bind_iff]
  cases hcurrent : s.currentInferior with
  | none =>
    have hempty := (pointed_none hcurrent).mp h
    have hkill : (darwinKill k).run s = .ok () s := by
      simp [darwinKill, hcurrent]
    rw [Proc.Ends.of_run hkill]
    refine (darwinCreateInferior_ends s hempty).imp ?_ fun _ _ _ => trivial
    rintro pid s' ⟨t, hlist, hid, hnode, hnew⟩
    refine ⟨t, hlist, hid, iff_of_true ?_ hempty⟩
    rw [hnew, hcurrent, hnode]
    rfl
  | some node =>
    have hlisted := (pointed_some hcurrent).mp h
    obtain ⟨u, hu, rfl⟩ := List.mem_map.mp hlisted
    have hlive : Live s u := live_of_mem threads.nodup hu hcurrent
    have hne : s.allThreads ≠ [] := List.ne_nil_of_mem hu
    have hsome : s.currentInferior ≠ none := by simp [hcurrent]
    simp only [darwinKill, Proc.Ends.bind_iff, Proc.Ends.get_iff, if_neg hsome,
      Proc.Ends.of_run (derefCurrent_run hlive), ptrace, callKernel, clearInferiors,
      Proc.Ends.modify_iff, Proc.Ends.modifyGet_iff]
    refine (darwinCreateInferior_ends _ rfl).imp ?_ fun _ _ _ => trivial
    rintro pid s' ⟨t, hlist, hid, hnode, hnew⟩
    refine ⟨t, hlist, hid, iff_of_false ?_ hne⟩
    have hbelow := threads.below u hu
    have hold : s'.currentInferior = some u.node := by
      rw [hnew]
      simp [Server.record, hcurrent]
    have hfresh : t.node = s.nextThread := hnode
    rw [hold, hfresh, Option.some.injEq]
    omega

/-- From the empty list, the runs of these operations in which `current_inferior` is right
in every state are those whose every step is a safe one; and a restart then makes the new
thread the current one just if there is no thread to kill. -/
theorem current_inferior_iff (empty : s.allThreads = []) (null : s.currentInferior = none)
    (ops : List InferiorOp) :
    ((∀ p ∈ Simulation.trace (inferiorStep k) s ops, Pointed p.2) ↔
      Simulation.AllowedRun SafeOp (inferiorStep k) s ops) ∧
    (Simulation.AllowedRun SafeOp (inferiorStep k) s ops →
      Proc.Ends (killAndCreate k)
        (fun pid s' => ∃ t, s'.allThreads = [t] ∧ t.id = pid ∧
          (s'.currentInferior = some t.node ↔
            (Simulation.finalState (inferiorStep k) s ops).allThreads = []))
        (fun _ _ => True) (Simulation.finalState (inferiorStep k) s ops)) := by
  have hthreads : Threads s := ⟨by simp [empty], by simp [empty]⟩
  have hpointed : Pointed s := (pointed_none null).mpr empty
  constructor
  · exact Simulation.trace_iff_allowed (fun s op h _ => inferiorStep_threads s op h)
      inferiorStep_pointed hthreads hpointed ops
  · intro allowed
    have hfinal : Threads (Simulation.finalState (inferiorStep k) s ops) ∧
        Pointed (Simulation.finalState (inferiorStep k) s ops) :=
      Simulation.finalState_invariant (P := fun s => Threads s ∧ Pointed s)
        (fun s op h ok => ⟨inferiorStep_threads s op h.1,
          (inferiorStep_pointed s op h.1 h.2).mpr ok⟩) ⟨hthreads, hpointed⟩ allowed
    exact killAndCreate_ends hfinal.1 hfinal.2

/-- Two threads are added and the first is removed after the second was selected. -/
theorem current_inferior_iff_select :
    let ops : List InferiorOp :=
      [.addThread 7 7 1, .addThread 9 9 2, .setDesiredInferior false 9 0 0, .removeThread 0]
    let s := initial blankMachine []
    ((∀ p ∈ Simulation.trace (inferiorStep singleThread) s ops, Pointed p.2) ↔
      Simulation.AllowedRun SafeOp (inferiorStep singleThread) s ops) ∧
    (Simulation.AllowedRun SafeOp (inferiorStep singleThread) s ops →
      Proc.Ends (killAndCreate singleThread)
        (fun pid s' => ∃ t, s'.allThreads = [t] ∧ t.id = pid ∧
          (s'.currentInferior = some t.node ↔
            (Simulation.finalState (inferiorStep singleThread) s ops).allThreads = []))
        (fun _ _ => True) (Simulation.finalState (inferiorStep singleThread) s ops)) :=
  current_inferior_iff rfl rfl _

/-- A thread is added and the list cleared; or, with the restart of `k` and `R`, a new
thread is added after that. -/
theorem not_current_inferior_clear :
    (¬ ∀ ops, ∀ p ∈ Simulation.trace (inferiorStep singleThread) (initial blankMachine []) ops,
      Pointed p.2) ∧
    ¬ Proc.Ends (killAndCreate singleThread)
      (fun _ s' => ∃ t ∈ s'.allThreads, s'.currentInferior = some t.node) (fun _ _ => True)
      (Simulation.finalState (inferiorStep singleThread) (initial blankMachine [])
        [.addThread 7 7 1]) := by
  constructor
  · intro h
    have hlast := h [.addThread 7 7 1, .clearInferiors] _
      (List.mem_cons_of_mem _ List.mem_cons_self)
    exact absurd (show (0 : Nat) ∈ ([] : List Nat) from hlast) List.not_mem_nil
  · rintro ⟨t, ht, hcurrent⟩
    have hnode : t.node = 1 := by
      rw [List.mem_singleton.mp ht]
      rfl
    have hzero : some 0 = some t.node := hcurrent
    rw [hnode] at hzero
    cases hzero

end Gdbserver
