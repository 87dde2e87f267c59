import Mathlib.Data.List.Find
import OsxGdbserver.InferiorLists
import OsxGdbserver.Inferiors

/-!
# The list of threads in memory

Every operation on the threads of the server is a run of calls on the list in memory. The
nodes of that list are those of the threads, with their ids.
-/

namespace InferiorLists

open Simulation Gdbserver Ppc

variable {σ : Type} {k : Kernel σ} {s : Server σ} {p : ListState × List Nat}

/-- The ids in memory. -/
def ListState.ids (l : ListState) (node : Nat) : Option Int := (l.heap node).map Entry.id

theorem setEntry_ids (node : Nat) (entry : Option Entry) (l : ListState) :
    (setEntry node entry l).ids = Function.update l.ids node (entry.map Entry.id) := by
  funext other
  by_cases hne : other = node
  · simp [ListState.ids, setEntry, hne]
  · simp [ListState.ids, setEntry, hne]

theorem assignNext_ids (node : Nat) (next : Option Nat) :
    Proc.Keeps ListState.ids (assignNext node next) := by
  intro l
  cases hentry : l.heap node with
  | none => simp [assignNext, deref, hentry]
  | some entry =>
    rw [assignNext_run hentry, Proc.final_ok, setEntry_ids, Function.update_eq_self_iff]
    simp [ListState.ids, hentry]

theorem deref_ids (node : Nat) : Proc.Keeps ListState.ids (deref node) := by
  intro l
  cases hentry : l.heap node with
  | none => simp [deref, hentry]
  | some entry => rw [deref_run hentry, Proc.final_ok]

theorem findBefore_ids (entry fuel : Nat) (cur : Option Nat) :
    Proc.Keeps ListState.ids (findBefore entry fuel cur) := by
  induction fuel generalizing cur with
  | zero =>
    cases cur with
    | none => exact .pure _
    | some cur => exact .throw _
  | succ fuel ih =>
    cases cur with
    | none => exact .pure _
    | some cur => exact .bind (deref_ids cur) fun node => .ite (.pure _) (ih node.next)

theorem addInferiorToList_ids (node : Nat) :
    Proc.Keeps ListState.ids (addInferiorToList node) := by
  refine .bind (assignNext_ids node none) fun _ => .bind .get fun l => ?_
  cases l.list.tail with
  | none => exact .bind (.modify fun _ => rfl) fun _ => .modify fun _ => rfl
  | some tail => exact .bind (assignNext_ids tail (some node)) fun _ => .modify fun _ => rfl

theorem removeInferior_ids (fuel entry : Nat) :
    Proc.Keeps ListState.ids (removeInferior fuel entry) := by
  refine .bind .get fun l => .ite ?_ (.bind .get fun l => ?_)
  · refine .bind (deref_ids entry) fun node => .bind (.modify fun _ => rfl) fun _ => ?_
    exact .bind .get fun _ => .ite (.modify fun _ => rfl) (.pure _)
  · refine .bind (findBefore_ids entry fuel l.list.head) fun found => ?_
    cases found with
    | none => exact .pure _
    | some cur =>
      refine .bind (deref_ids entry) fun node => .bind (assignNext_ids cur node.next) fun _ => ?_
      exact .bind .get fun _ => .ite (.modify fun _ => rfl) (.pure _)

/-- The ids in memory after a call. -/
def ListOp.idsAfter (nodes : List Nat) (ids : Nat → Option Int) : ListOp → Nat → Option Int
  | .malloc node entry => Function.update ids node (some entry.id)
  | .free node => Function.update ids node none
  | .clearInferiors => fun node => if node ∈ nodes then none else ids node
  | _ => ids

theorem listStep_ids (h : Represents p.1 p.2) {op : ListOp} (ok : AllowedOp p op) :
    (listStep p op).2.1.ids = op.idsAfter p.2 p.1.ids := by
  cases op with
  | malloc node entry => exact setEntry_ids node (some entry) p.1
  | free node =>
    obtain ⟨entry, hentry⟩ := Option.ne_none_iff_exists'.mp ok.2
    simp only [listStep, ListOp.call, freeOneThread_run hentry, Proc.final_ok]
    exact setEntry_ids node none p.1
  | addInferiorToList newInferior => exact addInferiorToList_ids newInferior p.1
  | removeInferior entry => exact removeInferior_ids p.2.length entry p.1
  | clearInferiors =>
    simp only [listStep, ListOp.call, clearInferiors_run h, Proc.final_ok]
    funext node
    by_cases hnode : node ∈ p.2
    · simp [ListState.ids, ListOp.idsAfter, hnode]
    · simp [ListState.ids, ListOp.idsAfter, hnode]

/-- The list in memory holds the threads of the server. -/
structure Holds (s : Server σ) (p : ListState × List Nat) : Prop where
  threads : Threads s
  represents : Represents p.1 p.2
  nodes : p.2 = s.allThreads.map ThreadInfo.node
  ids : ∀ t ∈ s.allThreads, p.1.ids t.node = some t.id
  unused : ∀ node, s.nextThread ≤ node → p.1.ids node = none

/-- What an operation does to the list in memory. -/
def listCalls (s : Server σ) : InferiorOp → List ListOp
  | .addThread threadId _ _ =>
    [.malloc s.nextThread { id := threadId, next := none }, .addInferiorToList s.nextThread]
  | .removeThread node =>
    if node ∈ s.allThreads.map ThreadInfo.node then [.removeInferior node, .free node] else []
  | .clearInferiors => [.clearInferiors]
  | _ => []

/-- An operation that assigns to the threads but leaves their number and ids. -/
theorem Holds.of_assigned (h : Holds s p) {s' : Server σ} {f : ThreadInfo → ThreadInfo}
    (node : ∀ t, (f t).node = t.node) (id : ∀ t, (f t).id = t.id)
    (list : s'.allThreads = s.allThreads.map f) (next : s'.nextThread = s.nextThread) :
    Holds s' p := by
  have hnodes : s'.allThreads.map ThreadInfo.node = s.allThreads.map ThreadInfo.node := by
    rw [list, List.map_map]
    exact List.map_congr_left fun t _ => node t
  constructor
  · exact h.threads.of_nodes hnodes next
  · exact h.represents
  · exact h.nodes.trans hnodes.symm
  · intro t ht
    rw [list] at ht
    obtain ⟨u, hu, rfl⟩ := List.mem_map.mp ht
    rw [node, id]
    exact h.ids u hu
  · rw [next]
    exact h.unused

/-- The new thread is linked behind the others. -/
theorem addThread_holds (h : Holds s p) (threadId pid : Int) (port : Port) :
    let op := InferiorOp.addThread threadId pid port
    AllowedRun AllowedOp listStep p (listCalls s op) ∧
      Holds (inferiorStep k s op).2 (finalState listStep p (listCalls s op)) := by
  let entry : Entry := { id := threadId, next := none }
  let new : ThreadInfo :=
    { node := s.nextThread, id := threadId, pid := pid, port := port, regcache := newRegisterCache }
  have hfresh : s.nextThread ∉ p.2 := by
    intro hmem
    rw [h.nodes] at hmem
    obtain ⟨t, ht, hnode⟩ := List.mem_map.mp hmem
    have hlt := h.threads.below t ht
    omega
  have hmalloc : AllowedOp p (.malloc s.nextThread entry) :=
    Option.map_eq_none_iff.mp (h.unused s.nextThread (Nat.le_refl _))
  have hlinked : AllowedOp (listStep p (.malloc s.nextThread entry)).2
      (.addInferiorToList s.nextThread) := by
    constructor
    · exact hfresh
    · simp [listStep, ListOp.call, setEntry]
  obtain ⟨_, hfirst⟩ := listStep_represents h.represents hmalloc
  obtain ⟨_, hsecond⟩ := listStep_represents hfirst hlinked
  have hids : (finalState listStep p (listCalls s (.addThread threadId pid port))).1.ids =
      Function.update p.1.ids s.nextThread (some threadId) :=
    (listStep_ids hfirst hlinked).trans (listStep_ids h.represents hmalloc)
  have hkept := inferiorStep_threads (k := k) s (.addThread threadId pid port) h.threads
  refine ⟨⟨hmalloc, hlinked, trivial⟩, hkept, hsecond, ?_, ?_, ?_⟩
  · change p.2 ++ [s.nextThread] = (s.allThreads ++ [new]).map ThreadInfo.node
    rw [List.map_append, h.nodes]
    rfl
  · intro t ht
    rw [hids]
    rcases List.mem_append.mp ht with ht | ht
    · have hne : t.node ≠ s.nextThread := Nat.ne_of_lt (h.threads.below t ht)
      rw [Function.update_of_ne hne]
      exact h.ids t ht
    · rw [List.mem_singleton.mp ht]
      exact Function.update_self ..
  · intro node hle
    have hlt : s.nextThread < node := hle
    have hne : node ≠ s.nextThread := by omega
    rw [hids, Function.update_of_ne hne]
    exact h.unused node (by omega)

/-- The thread is unlinked, and then freed. -/
theorem removeThread_holds (h : Holds s p) (node : Nat) :
    AllowedRun AllowedOp listStep p (listCalls s (.removeThread node)) ∧
      Holds (inferiorStep k s (.removeThread node)).2
        (finalState listStep p (listCalls s (.removeThread node))) := by
  have hkept := inferiorStep_threads (k := k) s (.removeThread node) h.threads
  have hstep : (inferiorStep k s (.removeThread node)).2 =
      Proc.final ((removeThread node).run s) := rfl
  rw [hstep] at hkept ⊢
  rcases removeThread_final (s := s) node with ⟨hfinal, hnot⟩ | ⟨hfinal, hmem⟩
  · rw [hfinal, listCalls, if_neg hnot]
    exact ⟨trivial, h⟩
  · rw [hfinal] at hkept ⊢
    rw [listCalls, if_pos hmem]
    obtain ⟨t, ht, rfl⟩ := List.mem_map.mp hmem
    have hremove : AllowedOp p (.removeInferior t.node) := trivial
    obtain ⟨_, hfirst⟩ := listStep_represents h.represents hremove
    have hsame : (listStep p (.removeInferior t.node)).2.1.ids = p.1.ids :=
      listStep_ids h.represents hremove
    have hfree : AllowedOp (listStep p (.removeInferior t.node)).2 (.free t.node) := by
      constructor
      · exact h.represents.nodup.not_mem_erase
      · intro hnone
        have hid : (listStep p (.removeInferior t.node)).2.1.ids t.node = some t.id := by
          rw [hsame]
          exact h.ids t ht
        simp [ListState.ids, hnone] at hid
    obtain ⟨_, hsecond⟩ := listStep_represents hfirst hfree
    have hids : (finalState listStep p [.removeInferior t.node, .free t.node]).1.ids =
        Function.update p.1.ids t.node none := by
      rw [← hsame]
      exact listStep_ids hfirst hfree
    refine ⟨⟨hremove, hfree, trivial⟩, hkept, hsecond, ?_, ?_, ?_⟩
    · change p.2.erase t.node = (s.allThreads.eraseP fun u => u.node = t.node).map ThreadInfo.node
      rw [eraseP_nodes, h.nodes]
    · intro u hu
      have hleft : u.node ∈ (s.allThreads.eraseP fun u => u.node = t.node).map ThreadInfo.node :=
        List.mem_map_of_mem hu
      rw [eraseP_nodes] at hleft
      have hne : u.node ≠ t.node := (h.threads.nodup.mem_erase_iff.mp hleft).1
      rw [hids, Function.update_of_ne hne]
      exact h.ids u (List.mem_of_mem_eraseP hu)
    · intro other hle
      have hlt := h.threads.below t ht
      have hnext : s.nextThread ≤ other := hle
      have hne : other ≠ t.node := by omega
      rw [hids, Function.update_of_ne hne]
      exact h.unused other hnext

theorem clearInferiors_holds (h : Holds s p) :
    Holds (inferiorStep k s .clearInferiors).2 (listStep p .clearInferiors).2 := by
  have hclear : AllowedOp p .clearInferiors := trivial
  obtain ⟨_, hempty⟩ := listStep_represents h.represents hclear
  constructor
  · exact inferiorStep_threads s .clearInferiors h.threads
  · exact hempty
  · rfl
  · intro t ht
    cases ht
  · intro node hle
    rw [listStep_ids h.represents hclear]
    have hnone := h.unused node hle
    by_cases hnode : node ∈ p.2
    · simp [ListOp.idsAfter, hnode]
    · simp [ListOp.idsAfter, hnode, hnone]

/-- The calls of an operation are allowed, and the list then holds the threads it leaves. -/
theorem inferiorStep_holds (s : Server σ) (p : ListState × List Nat) (op : InferiorOp)
    (h : Holds s p) :
    AllowedRun AllowedOp listStep p (listCalls s op) ∧
      Holds (inferiorStep k s op).2 (finalState listStep p (listCalls s op)) := by
  cases op with
  | addThread threadId pid port => exact addThread_holds h threadId pid port
  | removeThread node => exact removeThread_holds h node
  | clearInferiors => exact ⟨⟨trivial, trivial⟩, clearInferiors_holds h⟩
  | setDesiredInferior useGeneral contThread generalThread stepThread =>
    refine ⟨trivial, h.of_assigned (f := id) (fun _ => rfl) (fun _ => rfl) ?_ rfl⟩
    exact (List.map_id s.allThreads).symm
  | regcacheInvalidate =>
    refine ⟨trivial, h.of_assigned (f := setValid false) (fun _ => rfl) (fun _ => rfl) ?_ ?_⟩
    · simp only [inferiorStep, InferiorOp.call, regcacheInvalidate_run h.threads.nodup]
      rfl
    · simp only [inferiorStep, InferiorOp.call, regcacheInvalidate_run h.threads.nodup]
      rfl

/-- `find_inferior_id` finds the node of the thread that the server finds. -/
theorem Holds.findInferiorId (h : Holds s p) (id : Int) :
    (InferiorLists.findInferiorId p.2.length id).run p.1 =
      .ok ((Gdbserver.findInferiorId s.allThreads id).map ThreadInfo.node) p.1 := by
  have hfound : (p.2.find? fun node => (p.1.heap node).any fun entry => entry.id = id) =
      (Gdbserver.findInferiorId s.allThreads id).map ThreadInfo.node := by
    rw [h.nodes, List.find?_map, Gdbserver.findInferiorId]
    apply congrArg
    apply List.find?_congr
    intro t ht
    obtain ⟨entry, hentry, hid⟩ := Option.map_eq_some_iff.mp (h.ids t ht)
    simp [hentry, hid]
  rw [h.represents.lists.find_id, hfound]

/-- The calls on the list in memory that a run of the operations makes. -/
def listCallsOver (k : Kernel σ) (s : Server σ) (ops : List InferiorOp) : List ListOp :=
  callsOver (inferiorStep k) listCalls s ops

/-- Over any run of the operations, what the server holds as a sequence of threads is the
list in memory. None of the calls on it stops, and an id is found at the node of its thread. -/
theorem thread_list_refined (empty : s.allThreads = []) {l : ListState}
    (null : l.list = { head := none, tail := none }) (unused : ∀ node, l.heap node = none)
    (ops : List InferiorOp) :
    let threads := (finalState (inferiorStep k) s ops).allThreads
    let calls := listCallsOver k s ops
    let memory := (finalState listStep (l, []) calls).1
    (∀ p ∈ trace listStep (l, []) calls, p.1 = none) ∧
      Lists memory (threads.map ThreadInfo.node) ∧
      ∀ id, (findInferiorId threads.length id).run memory =
        .ok ((Gdbserver.findInferiorId threads id).map ThreadInfo.node) memory := by
  intro threads calls memory
  have hrepresents : Represents l [] := by
    constructor
    · exact congrArg InferiorList.head null
    · exact List.nodup_nil
    · exact congrArg InferiorList.tail null
  have hstart : Holds s (l, []) := by
    constructor
    · constructor
      · simp [empty]
      · simp [empty]
    · exact hrepresents
    · simp [empty]
    · simp [empty]
    · intro node _
      simp [ListState.ids, unused]
  obtain ⟨hallowed, hend⟩ := finalState_refined inferiorStep_holds hstart ops
  have hnone : ∀ p ∈ trace listStep (l, []) calls, p.1 = none := by
    refine trace_property (P := fun p => Represents p.1 p.2) ?_ hrepresents hallowed
    intro p op h ok
    exact (listStep_represents h ok).symm
  have hnodes : (finalState listStep (l, []) calls).2 = threads.map ThreadInfo.node := hend.nodes
  have hlength : (finalState listStep (l, []) calls).2.length = threads.length := by
    rw [hnodes, List.length_map]
  refine ⟨hnone, ?_, ?_⟩
  · rw [← hnodes]
    exact hend.represents.lists
  · intro id
    rw [← hlength]
    exact hend.findInferiorId id

/-- Two threads are added and the first removed, a third one comes and the registers of the
threads left are invalidated. -/
theorem thread_list_refined_removed :
    let s := initial blankMachine []
    let l : ListState := { heap := fun _ => none, list := { head := none, tail := none } }
    let ops : List InferiorOp := [.addThread 7 7 0, .addThread 8 8 0, .removeThread 0,
      .addThread 9 9 0, .setDesiredInferior true 0 8 0, .regcacheInvalidate]
    let threads := (finalState (inferiorStep singleThread) s ops).allThreads
    let calls := listCallsOver singleThread s ops
    let memory := (finalState listStep (l, []) calls).1
    (∀ p ∈ trace listStep (l, []) calls, p.1 = none) ∧
      Lists memory (threads.map ThreadInfo.node) ∧
      ∀ id, (findInferiorId threads.length id).run memory =
        .ok ((Gdbserver.findInferiorId threads id).map ThreadInfo.node) memory :=
  thread_list_refined rfl rfl (fun _ => rfl) _

end InferiorLists
