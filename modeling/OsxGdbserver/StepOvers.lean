import OsxGdbserver.BreakpointRuns

/-!
# Stepping over a breakpoint

`reinsert_breakpoint_by_bp` takes the breakpoint at one address out of memory and sets a
second one at another address, whose handler puts the first one back. The second knows the
first by a pointer to its node, which nothing else looks at.
-/

namespace MemBreak

open Overlay Simulation

variable {σ : Type} {t : MemTarget σ} {mem : σ → Memory} {s : MemState σ}

theorem findNode_of_mem {bps : List Breakpoint} (nodup : (bps.map Breakpoint.node).Nodup)
    {b : Breakpoint} (h : b ∈ bps) : bps.find? (fun c => c.node = b.node) = some b := by
  cases hfind : bps.find? fun c => c.node = b.node with
  | none => simpa using List.find?_eq_none.mp hfind b h
  | some c =>
    have hnode : c.node = b.node := by simpa using List.find?_some hfind
    rw [eq_of_node_eq nodup (List.mem_of_find?_eq_some hfind) h hnode]

theorem assignNode_of_absent {node : Nat} {f : Breakpoint → Breakpoint} {bps : List Breakpoint}
    (h : ∀ b ∈ bps, b.node ≠ node) : assignNode node f bps = bps := by
  simp only [assignNode]
  conv_rhs => rw [← List.map_id bps]
  apply List.map_congr_left
  intro b hb
  simp [h b hb]

theorem assignNode_cons (node : Nat) (f : Breakpoint → Breakpoint) (b : Breakpoint)
    (bps : List Breakpoint) : assignNode node f (b :: bps) =
      (if b.node = node then f b else b) :: assignNode node f bps := rfl

/-- The list with a flag of one node changed, and with it changed back. -/
theorem assignNode_restored {bps : List Breakpoint} (nodup : (bps.map Breakpoint.node).Nodup)
    {b : Breakpoint} (hb : b ∈ bps) {f g : Breakpoint → Breakpoint}
    (kept : ∀ c, (f c).node = c.node) (back : g (f b) = b) :
    assignNode b.node g (assignNode b.node f bps) = bps := by
  simp only [assignNode, List.map_map]
  conv_rhs => rw [← List.map_id bps]
  apply List.map_congr_left
  intro c hc
  by_cases hnode : c.node = b.node
  · obtain rfl := eq_of_node_eq nodup hc hb hnode
    simp [kept, back]
  · simp [hnode]

theorem WellLinked.of_nodes (h : WellLinked s) {s' : MemState σ}
    (nodes : (s'.breakpoints.map Breakpoint.node).Sublist (s.breakpoints.map Breakpoint.node))
    (next : s'.nextNode = s.nextNode) : WellLinked s' := by
  constructor
  · exact nodes.nodup h.nodup
  · intro b hb
    obtain ⟨c, hc, hnode⟩ := List.mem_map.mp (nodes.subset (List.mem_map_of_mem hb))
    rw [next, ← hnode]
    exact h.below c hc

/-- One node more than in `s`, whatever else is assigned to the nodes. -/
theorem WellLinked.of_insert (h : WellLinked s) {s' : MemState σ}
    (nodes : s'.breakpoints.map Breakpoint.node =
      s.nextNode :: s.breakpoints.map Breakpoint.node)
    (next : s'.nextNode = s.nextNode + 1) : WellLinked s' := by
  have hbelow : ∀ node ∈ s.breakpoints.map Breakpoint.node, node < s.nextNode := by
    intro node hnode
    obtain ⟨b, hb, rfl⟩ := List.mem_map.mp hnode
    exact h.below b hb
  constructor
  · rw [nodes, List.nodup_cons]
    exact ⟨fun hmem => Nat.lt_irrefl _ (hbelow _ hmem), h.nodup⟩
  · intro b hb
    have hmem := List.mem_map_of_mem (f := Breakpoint.node) hb
    rw [nodes] at hmem
    rw [next]
    rcases List.mem_cons.mp hmem with heq | hmem
    · omega
    · exact Nat.lt_succ_of_lt (hbelow _ hmem)

/-- The target after `set_breakpoint_at` has read and written it. -/
def trapped (t : MemTarget σ) (addr : Int) (target : σ) : σ :=
  (t.writeMemory addr t.trap (t.readMemory addr t.breakpointLen target).2).2

def setReinserting (flag : Bool) (b : Breakpoint) : Breakpoint := { b with reinserting := flag }

theorem setReinserting_eq (flag : Bool) :
    (fun b : Breakpoint => { b with reinserting := flag }) = setReinserting flag := rfl

theorem assignNode_node (node : Nat) (flag : Bool) (b : Breakpoint) :
    (if b.node = node then setReinserting flag b else b).node = b.node := by
  split <;> rfl

theorem assignNode_nodes (node : Nat) (flag : Bool) (bps : List Breakpoint) :
    (assignNode node (setReinserting flag) bps).map Breakpoint.node =
      bps.map Breakpoint.node := by
  rw [assignNode, List.map_map]
  exact List.map_congr_left fun b _ => assignNode_node node flag b

/-- The breakpoint with which `orig` is stepped over. -/
def stepper (t : MemTarget σ) (s : MemState σ) (stopAt : Int) (orig : Breakpoint) : Breakpoint :=
  { newBreakpoint t s stopAt .reinsertBreakpointHandler with
    breakpointToReinsert := some orig.node }

/-- The state in which `orig` is taken out and a breakpoint set at `stop_at` in its stead. -/
def steppingOver (t : MemTarget σ) (s : MemState σ) (stopAt : Int) (orig : Breakpoint) :
    MemState σ where
  breakpoints :=
    stepper t s stopAt orig :: assignNode orig.node (setReinserting true) s.breakpoints
  nextNode := s.nextNode + 1
  target := (t.writeMemory orig.pc (saved t orig) (trapped t stopAt s.target)).2

/-- `reinsert_breakpoint_by_bp`, where a breakpoint is listed at `stop_pc`. -/
theorem reinsertBreakpointByBp_some {stopPc stopAt : Int} {orig : Breakpoint}
    (linked : WellLinked s) {data : List Byte} (hdata : t.breakpointData = some data)
    (hne : stopPc ≠ stopAt) (h : findBreakpointAt stopPc s.breakpoints = some orig) :
    (reinsertBreakpointByBp t stopPc stopAt).run s = .ok () (steppingOver t s stopAt orig) := by
  have horig : orig ∈ s.breakpoints := List.mem_of_find?_eq_some h
  have hfresh : s.nextNode ≠ orig.node := (linked.fresh horig).symm
  have hset := setBreakpointAt_run t s stopAt .reinsertBreakpointHandler hdata
  have hpc : findBreakpointAt stopPc
      (newBreakpoint t s stopAt .reinsertBreakpointHandler :: s.breakpoints) = some orig := by
    rw [← h]
    simp [findBreakpointAt, newBreakpoint, hne.symm]
  have hat : findBreakpointAt stopAt
      (newBreakpoint t s stopAt .reinsertBreakpointHandler :: s.breakpoints) =
        some (newBreakpoint t s stopAt .reinsertBreakpointHandler) := by
    simp [findBreakpointAt, newBreakpoint]
  have hold : ∀ f, assignNode s.nextNode f s.breakpoints = s.breakpoints := fun f =>
    assignNode_of_absent fun b hb => linked.fresh hb
  simp only [reinsertBreakpointByBp, EStateM.run_bind, hset, EStateM.run_get, hpc, hat,
    modifyNode, EStateM.run_modify, writeTarget, EStateM.run_modifyGet, assignNode_cons]
  simp [newBreakpoint, hold, hfresh, trapped, setReinserting_eq, steppingOver, stepper]

/-- Where none is listed there, `error` is called with the second breakpoint already set. -/
theorem reinsertBreakpointByBp_none {stopPc stopAt : Int} {data : List Byte}
    (hdata : t.breakpointData = some data) (hne : stopPc ≠ stopAt)
    (h : findBreakpointAt stopPc s.breakpoints = none) :
    (reinsertBreakpointByBp t stopPc stopAt).run s =
      .error (.error "Could not find original breakpoint in list.")
        { breakpoints := newBreakpoint t s stopAt .reinsertBreakpointHandler :: s.breakpoints
          nextNode := s.nextNode + 1
          target := trapped t stopAt s.target } := by
  have hset := setBreakpointAt_run t s stopAt .reinsertBreakpointHandler hdata
  have hpc : findBreakpointAt stopPc
      (newBreakpoint t s stopAt .reinsertBreakpointHandler :: s.breakpoints) = none := by
    rw [← h]
    simp [findBreakpointAt, newBreakpoint, hne.symm]
  simp only [reinsertBreakpointByBp, EStateM.run_bind, hset, EStateM.run_get, hpc,
    Proc.run_throw, trapped]

/-- At one and the same address the second breakpoint is found for the first. -/
theorem reinsertBreakpointByBp_same (linked : WellLinked s) (addr : Int) {data : List Byte}
    (hdata : t.breakpointData = some data) :
    ∃ b target, (reinsertBreakpointByBp t addr addr).run s = .ok ()
        { breakpoints := b :: s.breakpoints, nextNode := s.nextNode + 1, target := target } ∧
      b.node = s.nextNode ∧ b.breakpointToReinsert = some s.nextNode := by
  have hset := setBreakpointAt_run t s addr .reinsertBreakpointHandler hdata
  have hat : findBreakpointAt addr
      (newBreakpoint t s addr .reinsertBreakpointHandler :: s.breakpoints) =
        some (newBreakpoint t s addr .reinsertBreakpointHandler) := by
    simp [findBreakpointAt, newBreakpoint]
  have hold : ∀ f, assignNode s.nextNode f s.breakpoints = s.breakpoints := fun f =>
    assignNode_of_absent fun b hb => linked.fresh hb
  simp only [reinsertBreakpointByBp, EStateM.run_bind, hset, EStateM.run_get, hat,
    modifyNode, EStateM.run_modify, writeTarget, EStateM.run_modifyGet, assignNode_cons]
  simp [newBreakpoint, hold]

theorem reinsertBreakpointByBp_null (stopPc stopAt : Int) (h : t.breakpointData = none) :
    (reinsertBreakpointByBp t stopPc stopAt).run s =
      .error (.error "Target does not support breakpoints.") s := by
  simp [reinsertBreakpointByBp, setBreakpointAt_null t s stopAt .reinsertBreakpointHandler h]

theorem steppingOver_linked (linked : WellLinked s) (stopAt : Int) (orig : Breakpoint) :
    WellLinked (steppingOver t s stopAt orig) :=
  linked.of_insert (congrArg (_ :: ·) (assignNode_nodes _ _ _)) rfl

theorem deleteBreakpoint_run {bp : Breakpoint} {rest : List Breakpoint}
    (h : unlink bp.node s.breakpoints = some rest) :
    (deleteBreakpoint t bp).run s = .ok ()
      { s with
        breakpoints := rest
        target := (t.writeMemory bp.pc (saved t bp) s.target).2 } := by
  simp [deleteBreakpoint, h, writeTarget]

/-- `check_breakpoints` at a breakpoint that was set to step over a listed one. -/
theorem checkBreakpoints_some {stopPc : Int} {bp orig : Breakpoint} {pre post : List Breakpoint}
    (linked : WellLinked s) (hsplit : s.breakpoints = pre ++ bp :: post)
    (h : findBreakpointAt stopPc s.breakpoints = some bp) (inserted : bp.reinserting = false)
    (handler : bp.handler = .reinsertBreakpointHandler)
    (link : bp.breakpointToReinsert = some orig.node) (horig : orig ∈ s.breakpoints) :
    (checkBreakpoints t stopPc).run s = .ok 1
      { s with
        breakpoints := assignNode orig.node (setReinserting false) (pre ++ post)
        target := (t.writeMemory bp.pc (saved t bp)
          (t.writeMemory orig.pc t.trap s.target).2).2 } := by
  have hpc : bp.pc = stopPc := (findBreakpointAt_eq_some h).1
  have hnode := findNode_of_mem linked.nodup horig
  have hpre := (nodup_split (hsplit ▸ linked.nodup)).1
  let put := fun b => if b.node = orig.node then setReinserting false b else b
  have hunlink : unlink bp.node (assignNode orig.node (setReinserting false) s.breakpoints) =
      some (assignNode orig.node (setReinserting false) (pre ++ post)) := by
    have hmap : ∀ c ∈ pre.map put, c.node ≠ (put bp).node := by
      intro c hc
      obtain ⟨b, hb, rfl⟩ := List.mem_map.mp hc
      simp only [put, assignNode_node]
      exact hpre b hb
    have hsame : unlink (put bp).node (pre.map put ++ put bp :: post.map put) =
        some (pre.map put ++ post.map put) := unlink_split hmap
    simp only [put, assignNode_node] at hsame
    simpa [hsplit, assignNode] using hsame
  have hdelete := deleteBreakpoint_run (t := t)
    (s := { s with
      breakpoints := assignNode orig.node (setReinserting false) s.breakpoints
      target := (t.writeMemory orig.pc t.trap s.target).2 }) hunlink
  simp [checkBreakpoints, h, inserted, handler, reinsertBreakpointHandler, hpc, link, hnode,
    writeTarget, modifyNode, setReinserting_eq, hdelete]

/-- The memory operations succeed on a breakpoint's bytes at `a`. -/
structure WorksAt (t : MemTarget σ) (mem : σ → Memory) (a : Int) : Prop where
  read : ∀ s, (t.readMemory a t.breakpointLen s).1 = load (mem s) a t.breakpointLen
  read_mem : ∀ s, mem (t.readMemory a t.breakpointLen s).2 = mem s
  write_mem : ∀ bs s, bs.length = t.breakpointLen →
    mem (t.writeMemory a bs s).2 = store (mem s) a bs

theorem Reliable.worksAt (rel : Reliable t mem) {a : Int} (h : InRange a t.breakpointLen) :
    WorksAt t mem a where
  read s := rel.read a t.breakpointLen s h
  read_mem s := rel.read_mem a t.breakpointLen s h
  write_mem bs s hlen := rel.write_mem a bs s (hlen ▸ h)

theorem WorksAt.trapped {a : Int} (h : WorksAt t mem a) (target : σ) :
    mem (trapped t a target) = store (mem target) a t.trap := by
  rw [MemBreak.trapped, h.write_mem _ _ (trap_length t), h.read_mem]

/-- The memory after both writes of `reinsert_breakpoint_by_bp` and both of the handler, in
their order. -/
theorem store_stepOver {m : Memory} {a b : Int} {trap old : List Byte}
    (hlen : old.length = trap.length) (planted : load m a trap.length = trap)
    (apart : Apart a trap.length b trap.length) :
    store (store (store (store m b trap) a old) a trap) b (load m b trap.length) = m := by
  have hback : store m a trap = m := by
    conv_lhs => rw [← planted]
    exact store_load m a trap.length
  rw [store_store_same _ a hlen.symm, store_comm m apart.symm, hback, store_store_load]

/-- Hitting the breakpoint that was set to step over `orig`. -/
theorem checkBreakpoints_steppingOver (linked : WellLinked s) {orig : Breakpoint}
    (horig : orig ∈ s.breakpoints) (inserted : orig.reinserting = false) (stopAt : Int) :
    (checkBreakpoints t stopAt).run (steppingOver t s stopAt orig) = .ok 1
      { breakpoints := s.breakpoints
        nextNode := s.nextNode + 1
        target := (t.writeMemory stopAt (t.readMemory stopAt t.breakpointLen s.target).1
          (t.writeMemory orig.pc t.trap (steppingOver t s stopAt orig).target).2).2 } := by
  have hfind : findBreakpointAt stopAt (steppingOver t s stopAt orig).breakpoints =
      some (stepper t s stopAt orig) := by
    simp [steppingOver, findBreakpointAt, stepper, newBreakpoint]
  have hmem : setReinserting true orig ∈ (steppingOver t s stopAt orig).breakpoints :=
    List.mem_cons_of_mem _ (List.mem_map.mpr ⟨orig, horig, if_pos rfl⟩)
  have hlist : assignNode orig.node (setReinserting false)
      (assignNode orig.node (setReinserting true) s.breakpoints) = s.breakpoints :=
    assignNode_restored linked.nodup horig (fun _ => rfl) (by rw [← inserted]; rfl)
  have hsaved : saved t (stepper t s stopAt orig) =
      (t.readMemory stopAt t.breakpointLen s.target).1 :=
    saved_newBreakpoint t s stopAt .reinsertBreakpointHandler
  have hsplit : (steppingOver t s stopAt orig).breakpoints =
      [] ++ stepper t s stopAt orig ::
        assignNode orig.node (setReinserting true) s.breakpoints := rfl
  have hlink : (stepper t s stopAt orig).breakpointToReinsert =
      some (setReinserting true orig).node := rfl
  have hrun := checkBreakpoints_some (t := t) (steppingOver_linked linked stopAt orig) hsplit
    hfind rfl rfl hlink hmem
  have hnode : (setReinserting true orig).node = orig.node := rfl
  rw [hrun, hsaved, List.nil_append, hnode, hlist]
  rfl

/-- Setting a breakpoint at `stop_at` to step over the newest one at `stop_pc`, and hitting it,
puts back the list and the memory. Meanwhile the original bytes are at `stop_pc`. -/
theorem step_over_invisible (linked : WellLinked s) {stopPc stopAt : Int} {orig : Breakpoint}
    (newest : findBreakpointAt stopPc s.breakpoints = some orig)
    (inserted : orig.reinserting = false)
    (planted : load (mem s.target) stopPc t.breakpointLen = t.trap)
    (pos : 0 < t.breakpointLen) (apart : Apart stopPc t.breakpointLen stopAt t.breakpointLen)
    (worksPc : WorksAt t mem stopPc) (worksAt : WorksAt t mem stopAt) :
    Proc.Ends (reinsertBreakpointByBp t stopPc stopAt)
      (fun _ between =>
        load (mem between.target) stopPc t.breakpointLen = saved t orig ∧
        load (mem between.target) stopAt t.breakpointLen = t.trap ∧
        Proc.Ends (checkBreakpoints t stopAt)
          (fun hit after => hit = 1 ∧ after.breakpoints = s.breakpoints ∧
            mem after.target = mem s.target)
          (fun _ _ => False) between)
      (fun _ _ => False) s := by
  obtain ⟨data, hdata⟩ : ∃ data, t.breakpointData = some data := by
    cases hdata : t.breakpointData with
    | none => simp [MemTarget.breakpointLen, MemTarget.trap, hdata] at pos
    | some data => exact ⟨data, rfl⟩
  have hne : stopPc ≠ stopAt := by
    rintro rfl
    rcases apart_iff.mp apart with h | h | h | h <;> omega
  have horig : orig ∈ s.breakpoints := List.mem_of_find?_eq_some newest
  have hpc : orig.pc = stopPc := (findBreakpointAt_eq_some newest).1
  have hsaved : (saved t orig).length = t.breakpointLen := saved_length t orig
  have hbetween : mem (steppingOver t s stopAt orig).target =
      store (store (mem s.target) stopAt t.trap) stopPc (saved t orig) := by
    rw [← worksAt.trapped, ← worksPc.write_mem _ _ hsaved, ← hpc]
    rfl
  rw [Proc.Ends.of_run (reinsertBreakpointByBp_some linked hdata hne newest)]
  refine ⟨?_, ?_, ?_⟩
  · rw [hbetween, ← hsaved]
    exact load_store_same _ _ _
  · rw [hbetween, load_store_apart _ (by rw [hsaved]; exact apart.symm)]
    exact load_store_same _ _ _
  · rw [Proc.Ends.of_run (checkBreakpoints_steppingOver linked horig inserted stopAt)]
    refine ⟨rfl, rfl, ?_⟩
    rw [hpc, worksAt.write_mem _ _ (t.readMemory_length _ _ _), worksAt.read,
      worksPc.write_mem _ _ (trap_length t), hbetween]
    exact store_stepOver hsaved planted apart

/-- Over a breakpoint at 4096 by one at 4100, at which another is listed already. -/
theorem step_over_invisible_twice :
    let at4100 := newBreakpoint ppcRam blankState 4100 .null
    let at4096 : Breakpoint := { at4100 with node := 1, pc := 4096 }
    let s : MemState Memory :=
      { breakpoints := [at4096, at4100]
        nextNode := 2
        target := store (store (fun _ => 0) 4100 ppcTrap) 4096 ppcTrap }
    Proc.Ends (reinsertBreakpointByBp ppcRam 4096 4100)
      (fun _ between =>
        load between.target 4096 4 = saved ppcRam at4096 ∧ load between.target 4100 4 = ppcTrap ∧
        Proc.Ends (checkBreakpoints ppcRam 4100)
          (fun hit after => hit = 1 ∧ after.breakpoints = [at4096, at4100] ∧
            after.target = s.target)
          (fun _ _ => False) between)
      (fun _ _ => False) s := by
  have works : ∀ a : Int, InRange a 4 → WorksAt ppcRam id a := fun a h =>
    (ramTarget_reliable ppcTrap (by decide)).worksAt h
  intro at4100 at4096 s
  have hlinked : WellLinked s := by
    constructor <;> simp [s, at4096, at4100, newBreakpoint, blankState]
  exact step_over_invisible hlinked rfl rfl (load_store_same _ _ ppcTrap) (by decide)
    (by decide) (works 4096 (by decide)) (works 4100 (by decide))

end MemBreak
