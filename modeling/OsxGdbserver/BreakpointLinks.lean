import OsxGdbserver.StepOvers

/-!
# Links between breakpoints, and operations that fail

`breakpoint_to_reinsert` points from one node of the list into another, and deletion by
address knows nothing of it. `error` may be called when a breakpoint has been set already.
For both, the condition under which nothing goes wrong is stated exactly.
-/

namespace MemBreak

open Simulation

variable {σ : Type} {t : MemTarget σ} {s : MemState σ} {pre post bps : List Breakpoint}
  {b orig : Breakpoint}

inductive BreakpointOp
  | setBreakpointAt (addr : Int) (handler : Handler)
  | deleteBreakpointAt (addr : Int)
  | reinsertBreakpointByBp (stopPc stopAt : Int)
  | uninsertBreakpoint (stoppedAt : Int)
  | reinsertBreakpoint (stoppedAt : Int)
  | checkBreakpoints (stopPc : Int)
  deriving DecidableEq, Repr

def BreakpointOp.call (t : MemTarget σ) : BreakpointOp → Proc (MemState σ) Unit
  | .setBreakpointAt addr handler => MemBreak.setBreakpointAt t addr handler
  | .deleteBreakpointAt addr => MemBreak.deleteBreakpointAt t addr
  | .reinsertBreakpointByBp stopPc stopAt => MemBreak.reinsertBreakpointByBp t stopPc stopAt
  | .uninsertBreakpoint stoppedAt => MemBreak.uninsertBreakpoint t stoppedAt
  | .reinsertBreakpoint stoppedAt => MemBreak.reinsertBreakpoint t stoppedAt
  | .checkBreakpoints stopPc => do let _ ← MemBreak.checkBreakpoints t stopPc

/-- How the operation ended if it did not return, and the state after it. -/
def breakpointStep (t : MemTarget σ) (s : MemState σ) (op : BreakpointOp) :
    Option Stop × MemState σ :=
  (Proc.stop ((op.call t).run s), Proc.final ((op.call t).run s))

/-- Every link is `NULL` or points to another breakpoint of the list. -/
def LinksValid (bps : List Breakpoint) : Prop :=
  ∀ b ∈ bps, ∀ node, b.breakpointToReinsert = some node →
    ∃ c ∈ bps, c.node = node ∧ c.node ≠ b.node

/-- The breakpoint that an operation takes out of the list. -/
def takenOut (bps : List Breakpoint) : BreakpointOp → Option Breakpoint
  | .deleteBreakpointAt addr => findBreakpointAt addr bps
  | .checkBreakpoints stopPc => (findBreakpointAt stopPc bps).filter fun b =>
      !b.reinserting && decide (b.handler = .reinsertBreakpointHandler) &&
        b.breakpointToReinsert.isSome
  | _ => none

/-- No breakpoint points to the one that is taken out, and none is set to step over a
breakpoint at its own address. -/
def KeepsLinks (t : MemTarget σ) (s : MemState σ) (op : BreakpointOp) : Prop :=
  (∀ b, takenOut s.breakpoints op = some b →
    ∀ c ∈ s.breakpoints, c.breakpointToReinsert ≠ some b.node) ∧
  ∀ addr, op = .reinsertBreakpointByBp addr addr → t.breakpointData = none

theorem linksValid_congr {bps' : List Breakpoint}
    (same : bps'.map (fun b => (b.node, b.breakpointToReinsert)) =
      bps.map fun b => (b.node, b.breakpointToReinsert)) : LinksValid bps' ↔ LinksValid bps := by
  have hpairs : ∀ bps : List Breakpoint, LinksValid bps ↔
      ∀ p ∈ bps.map (fun b => (b.node, b.breakpointToReinsert)), ∀ node, p.2 = some node →
        ∃ q ∈ bps.map (fun b => (b.node, b.breakpointToReinsert)), q.1 = node ∧ q.1 ≠ p.1 := by
    intro bps
    simp [LinksValid]
  rw [hpairs, hpairs, same]

theorem linksValid_assign (node : Nat) (flag : Bool) :
    LinksValid (assignNode node (setReinserting flag) bps) ↔ LinksValid bps := by
  apply linksValid_congr
  rw [assignNode, List.map_map]
  apply List.map_congr_left
  intro b _
  by_cases h : b.node = node <;> simp [h, setReinserting]

theorem LinksValid.cons (valid : LinksValid bps)
    (link : ∀ node, b.breakpointToReinsert = some node →
      ∃ c ∈ bps, c.node = node ∧ c.node ≠ b.node) : LinksValid (b :: bps) := by
  intro c hc node hnode
  obtain ⟨d, hd, heq⟩ : ∃ d ∈ bps, d.node = node ∧ d.node ≠ c.node := by
    rcases List.mem_cons.mp hc with rfl | hc
    · exact link node hnode
    · exact valid c hc node hnode
  exact ⟨d, List.mem_cons_of_mem b hd, heq⟩

/-- A breakpoint that is taken out leaves a link behind just if one pointed to it. -/
theorem linksValid_removed (valid : LinksValid (pre ++ b :: post))
    (nodup : ((pre ++ b :: post).map Breakpoint.node).Nodup) :
    LinksValid (pre ++ post) ↔
      ∀ c ∈ pre ++ b :: post, c.breakpointToReinsert ≠ some b.node := by
  have hsub : ∀ c ∈ pre ++ post, c ∈ pre ++ b :: post := fun c hc =>
    (sublist_split pre post b).subset hc
  have hrest : ∀ c ∈ pre ++ b :: post, c = b ∨ c ∈ pre ++ post := by
    intro c hc
    rcases List.mem_append.mp hc with hc | hc
    · exact Or.inr (List.mem_append_left post hc)
    · rcases List.mem_cons.mp hc with rfl | hc
      · exact Or.inl rfl
      · exact Or.inr (List.mem_append_right pre hc)
  have hapart : ∀ c ∈ pre ++ post, c.node ≠ b.node := by
    obtain ⟨hpre, hpost⟩ := nodup_split nodup
    intro c hc
    rcases List.mem_append.mp hc with hc | hc
    · exact hpre c hc
    · exact hpost c hc
  constructor
  · intro left c hc hlink
    obtain ⟨_, _, heq, hself⟩ := valid c hc b.node hlink
    rcases hrest c hc with rfl | hc
    · exact hself heq
    · obtain ⟨d, hd, hnode, _⟩ := left c hc b.node hlink
      exact hapart d hd hnode
  · intro unlinked c hc node hnode
    obtain ⟨d, hd, heq, hother⟩ := valid c (hsub c hc) node hnode
    rcases hrest d hd with rfl | hd
    · exact absurd (heq ▸ hnode) (unlinked c (hsub c hc))
    · exact ⟨d, hd, heq, hother⟩

/-- What is shown of each operation on a list whose links are valid. -/
structure LinkStep (t : MemTarget σ) (s : MemState σ) (op : BreakpointOp) : Prop where
  linked : WellLinked (breakpointStep t s op).2
  valid_iff : LinksValid (breakpointStep t s op).2.breakpoints ↔ KeepsLinks t s op
  notFreed : (breakpointStep t s op).1 ≠ some (.fault "orig_bp")

/-- The operation leaves the list as it is. -/
theorem LinkStep.same {op : BreakpointOp} (linked : WellLinked s)
    (valid : LinksValid s.breakpoints) (final : (breakpointStep t s op).2 = s)
    (keeps : KeepsLinks t s op) (notFreed : (breakpointStep t s op).1 ≠ some (.fault "orig_bp")) :
    LinkStep t s op where
  linked := final.symm ▸ linked
  valid_iff := iff_of_true (final.symm ▸ valid) keeps
  notFreed := notFreed

/-- The operation fails before it has changed anything. -/
theorem LinkStep.refused {op : BreakpointOp} {e : Stop} (linked : WellLinked s)
    (valid : LinksValid s.breakpoints) (run : (op.call t).run s = .error e s)
    (keeps : KeepsLinks t s op) (other : e ≠ .fault "orig_bp") : LinkStep t s op := by
  apply LinkStep.same linked valid _ keeps
  · simpa [breakpointStep, run, Proc.stop] using other
  · simp [breakpointStep, run]

/-- The operation returns. -/
theorem LinkStep.returned {op : BreakpointOp} {s' : MemState σ}
    (run : (op.call t).run s = .ok () s') (linked : WellLinked s')
    (valid_iff : LinksValid s'.breakpoints ↔ KeepsLinks t s op) : LinkStep t s op := by
  have hstep : breakpointStep t s op = (none, s') := by
    rw [breakpointStep, run]
    rfl
  constructor
  · rwa [hstep]
  · rwa [hstep]
  · rw [hstep]
    simp

theorem keepsLinks_of_takenOut_none {op : BreakpointOp}
    (none : takenOut s.breakpoints op = none)
    (other : ∀ addr, op ≠ .reinsertBreakpointByBp addr addr) : KeepsLinks t s op := by
  constructor
  · intro b hb
    rw [none] at hb
    cases hb
  · exact fun addr h => absurd h (other addr)

theorem keepsLinks_iff_unlinked {op : BreakpointOp} (taken : takenOut s.breakpoints op = some b)
    (other : ∀ addr, op ≠ .reinsertBreakpointByBp addr addr) :
    KeepsLinks t s op ↔ ∀ c ∈ s.breakpoints, c.breakpointToReinsert ≠ some b.node := by
  constructor
  · exact fun h => h.1 b taken
  · intro h
    refine ⟨?_, fun addr heq => absurd heq (other addr)⟩
    intro c hc
    obtain rfl := Option.some.inj (taken.symm.trans hc)
    exact h

theorem setBreakpointAt_links (linked : WellLinked s) (valid : LinksValid s.breakpoints)
    (addr : Int) (handler : Handler) : LinkStep t s (.setBreakpointAt addr handler) := by
  have keeps : KeepsLinks t s (.setBreakpointAt addr handler) :=
    keepsLinks_of_takenOut_none rfl (by simp)
  cases hdata : t.breakpointData with
  | none =>
    exact .refused linked valid (setBreakpointAt_null t s addr handler hdata) keeps (by simp)
  | some data =>
    refine LinkStep.returned (setBreakpointAt_run t s addr handler hdata) ?_ ?_
    · exact linked.insert (b := newBreakpoint t s addr handler) rfl rfl rfl
    · exact iff_of_true (valid.cons (by simp [newBreakpoint])) keeps

theorem deleteBreakpointAt_links (linked : WellLinked s) (valid : LinksValid s.breakpoints)
    (addr : Int) : LinkStep t s (.deleteBreakpointAt addr) := by
  cases hfind : findBreakpointAt addr s.breakpoints with
  | none =>
    refine LinkStep.returned (deleteBreakpointAt_none t hfind) linked ?_
    exact iff_of_true valid (keepsLinks_of_takenOut_none hfind (by simp))
  | some b =>
    obtain ⟨_, pre, post, hsplit, _⟩ := findBreakpointAt_eq_some hfind
    have hsub : (pre ++ post).Sublist s.breakpoints := hsplit ▸ sublist_split pre post b
    refine LinkStep.returned (deleteBreakpointAt_some t linked hsplit hfind) ?_ ?_
    · exact linked.sublist hsub rfl
    · have hkeeps : KeepsLinks t s (.deleteBreakpointAt addr) ↔
          ∀ c ∈ s.breakpoints, c.breakpointToReinsert ≠ some b.node :=
        keepsLinks_iff_unlinked hfind (by simp)
      rw [hkeeps, hsplit]
      exact linksValid_removed (hsplit ▸ valid) (hsplit ▸ linked.nodup)

/-- A flag of one node is changed. -/
theorem LinkStep.flagged {op : BreakpointOp} {node : Nat} {flag : Bool} {target : σ}
    (linked : WellLinked s) (valid : LinksValid s.breakpoints)
    (run : (op.call t).run s = .ok ()
      { s with
        breakpoints := assignNode node (setReinserting flag) s.breakpoints
        target := target })
    (keeps : KeepsLinks t s op) : LinkStep t s op := by
  apply LinkStep.returned run
  · refine linked.of_nodes ?_ rfl
    simp only [assignNode_nodes, List.Sublist.refl]
  · exact iff_of_true ((linksValid_assign node flag).mpr valid) keeps

theorem uninsertBreakpoint_none {addr : Int} (h : findBreakpointAt addr s.breakpoints = none) :
    (uninsertBreakpoint t addr).run s =
      .error (.error "Could not find breakpoint in list (uninserting).") s := by
  simp [uninsertBreakpoint, h]

theorem reinsertBreakpoint_none {addr : Int} (h : findBreakpointAt addr s.breakpoints = none) :
    (reinsertBreakpoint t addr).run s =
      .error (.error "Could not find breakpoint in list (uninserting).") s := by
  simp [reinsertBreakpoint, h]

theorem uninsertBreakpoint_links (linked : WellLinked s) (valid : LinksValid s.breakpoints)
    (addr : Int) : LinkStep t s (.uninsertBreakpoint addr) := by
  have keeps : KeepsLinks t s (.uninsertBreakpoint addr) :=
    keepsLinks_of_takenOut_none rfl (by simp)
  cases hfind : findBreakpointAt addr s.breakpoints with
  | none =>
    exact .refused linked valid (uninsertBreakpoint_none hfind) keeps (by simp)
  | some b => exact .flagged linked valid (uninsertBreakpoint_some t hfind) keeps

theorem reinsertBreakpoint_links (linked : WellLinked s) (valid : LinksValid s.breakpoints)
    (addr : Int) : LinkStep t s (.reinsertBreakpoint addr) := by
  have keeps : KeepsLinks t s (.reinsertBreakpoint addr) :=
    keepsLinks_of_takenOut_none rfl (by simp)
  cases hfind : findBreakpointAt addr s.breakpoints with
  | none =>
    exact .refused linked valid (reinsertBreakpoint_none hfind) keeps (by simp)
  | some b =>
    cases hr : b.reinserting with
    | true => exact .flagged linked valid (reinsertBreakpoint_some t hfind hr) keeps
    | false =>
      exact .refused linked valid (reinsertBreakpoint_refused t hfind hr) keeps (by simp)

theorem reinsertBreakpointByBp_links (linked : WellLinked s) (valid : LinksValid s.breakpoints)
    (stopPc stopAt : Int) : LinkStep t s (.reinsertBreakpointByBp stopPc stopAt) := by
  cases hdata : t.breakpointData with
  | none =>
    have keeps : KeepsLinks t s (.reinsertBreakpointByBp stopPc stopAt) :=
      ⟨by simp [takenOut], fun _ _ => hdata⟩
    exact .refused linked valid (reinsertBreakpointByBp_null stopPc stopAt hdata) keeps (by simp)
  | some data =>
    by_cases hne : stopPc = stopAt
    · subst hne
      obtain ⟨b, target, hrun, hnode, hlink⟩ := reinsertBreakpointByBp_same linked stopPc hdata
      refine LinkStep.returned hrun ?_ (iff_of_false ?_ ?_)
      · exact linked.insert (b := b) hnode rfl rfl
      · intro hvalid
        obtain ⟨c, hc, heq, hother⟩ := hvalid b List.mem_cons_self s.nextNode hlink
        exact hother (heq.trans hnode.symm)
      · rintro ⟨_, hnull⟩
        have hnone := hnull stopPc rfl
        rw [hdata] at hnone
        cases hnone
    · have keeps : KeepsLinks t s (.reinsertBreakpointByBp stopPc stopAt) := by
        refine keepsLinks_of_takenOut_none rfl ?_
        rintro addr ⟨⟩
        exact hne rfl
      cases hfind : findBreakpointAt stopPc s.breakpoints with
      | none =>
        have hrun := reinsertBreakpointByBp_none hdata hne hfind
        have hstep : breakpointStep t s (.reinsertBreakpointByBp stopPc stopAt) = (_, _) :=
          congrArg (fun r => (Proc.stop r, Proc.final r)) hrun
        constructor
        · rw [hstep]
          exact linked.insert (b := newBreakpoint t s stopAt _) rfl rfl rfl
        · rw [hstep]
          exact iff_of_true (valid.cons (by simp [newBreakpoint])) keeps
        · rw [hstep]
          simp [Proc.stop]
      | some orig =>
        have horig : orig ∈ s.breakpoints := List.mem_of_find?_eq_some hfind
        have hrun := reinsertBreakpointByBp_some linked hdata hne hfind
        refine LinkStep.returned hrun (steppingOver_linked linked stopAt orig) ?_
        refine iff_of_true ?_ keeps
        apply LinksValid.cons ((linksValid_assign _ _).mpr valid)
        intro node hnode
        obtain rfl := Option.some.inj hnode
        have hfresh : orig.node ≠ s.nextNode := linked.fresh horig
        refine ⟨setReinserting true orig, ?_, rfl, hfresh⟩
        exact List.mem_map.mpr ⟨orig, horig, if_pos rfl⟩

/-- `check_breakpoints` where no handler is called, or one that finds nothing to reinsert. -/
theorem checkBreakpoints_same {stopPc : Int}
    (h : takenOut s.breakpoints (.checkBreakpoints stopPc) = none) :
    (breakpointStep t s (.checkBreakpoints stopPc)).2 = s ∧
      (breakpointStep t s (.checkBreakpoints stopPc)).1 ≠ some (.fault "orig_bp") := by
  cases hfind : findBreakpointAt stopPc s.breakpoints with
  | none =>
    simp [breakpointStep, BreakpointOp.call, checkBreakpoints, hfind, Proc.stop]
  | some b =>
    have hpc := (findBreakpointAt_eq_some hfind).1
    cases hr : b.reinserting with
    | true => simp [breakpointStep, BreakpointOp.call, checkBreakpoints, hfind, hr, Proc.stop]
    | false =>
      cases hh : b.handler with
      | null =>
        simp [breakpointStep, BreakpointOp.call, checkBreakpoints, hfind, hr, hh, Proc.stop]
      | reinsertBreakpointHandler =>
        have hlink : b.breakpointToReinsert = none := by
          simpa [takenOut, hfind, hr, hh, Option.filter] using h
        simp [breakpointStep, BreakpointOp.call, checkBreakpoints, reinsertBreakpointHandler,
          hfind, hr, hh, hpc, hlink, Proc.stop]

theorem checkBreakpoints_links (linked : WellLinked s) (valid : LinksValid s.breakpoints)
    (stopPc : Int) : LinkStep t s (.checkBreakpoints stopPc) := by
  cases htaken : takenOut s.breakpoints (.checkBreakpoints stopPc) with
  | none =>
    obtain ⟨hfinal, hstop⟩ := checkBreakpoints_same (t := t) htaken
    exact .same linked valid hfinal (keepsLinks_of_takenOut_none htaken (by simp)) hstop
  | some b =>
    have hkeeps : KeepsLinks t s (.checkBreakpoints stopPc) ↔
        ∀ c ∈ s.breakpoints, c.breakpointToReinsert ≠ some b.node :=
      keepsLinks_iff_unlinked htaken (by simp)
    simp only [takenOut, Option.filter_eq_some_iff, Bool.and_eq_true, Bool.not_eq_true',
      decide_eq_true_eq, Option.isSome_iff_exists] at htaken
    obtain ⟨hfind, ⟨hr, hh⟩, node, hlink⟩ := htaken
    obtain ⟨_, pre, post, hsplit, _⟩ := findBreakpointAt_eq_some hfind
    have hb : b ∈ s.breakpoints := List.mem_of_find?_eq_some hfind
    obtain ⟨orig, horig, rfl, _⟩ := valid b hb node hlink
    have hrun := checkBreakpoints_some (t := t) linked hsplit hfind hr hh hlink horig
    have hcall : ((BreakpointOp.checkBreakpoints stopPc).call t).run s =
        .ok () (Proc.final ((checkBreakpoints t stopPc).run s)) := by
      rw [BreakpointOp.call, EStateM.run_bind, hrun]
      rfl
    rw [hrun, Proc.final_ok] at hcall
    refine LinkStep.returned hcall ?_ ?_
    · refine linked.of_nodes ?_ rfl
      have hsub : (pre ++ post).Sublist s.breakpoints := hsplit ▸ sublist_split pre post b
      exact (assignNode_nodes _ _ _).symm ▸ hsub.map _
    · rw [linksValid_assign, hkeeps, hsplit]
      exact linksValid_removed (hsplit ▸ valid) (hsplit ▸ linked.nodup)

theorem breakpointStep_links (linked : WellLinked s) (valid : LinksValid s.breakpoints)
    (op : BreakpointOp) : LinkStep t s op := by
  cases op with
  | setBreakpointAt addr handler => exact setBreakpointAt_links linked valid addr handler
  | deleteBreakpointAt addr => exact deleteBreakpointAt_links linked valid addr
  | reinsertBreakpointByBp stopPc stopAt =>
    exact reinsertBreakpointByBp_links linked valid stopPc stopAt
  | uninsertBreakpoint addr => exact uninsertBreakpoint_links linked valid addr
  | reinsertBreakpoint addr => exact reinsertBreakpoint_links linked valid addr
  | checkBreakpoints stopPc => exact checkBreakpoints_links linked valid stopPc

/-- From the empty list, the links are valid in every state of a run just if every step keeps
them; and then no handler is led to a freed breakpoint. -/
theorem links_valid_iff (empty : s.breakpoints = []) (ops : List BreakpointOp) :
    ((∀ p ∈ trace (breakpointStep t) s ops, LinksValid p.2.breakpoints) ↔
      AllowedRun (KeepsLinks t) (breakpointStep t) s ops) ∧
    (AllowedRun (KeepsLinks t) (breakpointStep t) s ops →
      ∀ p ∈ trace (breakpointStep t) s ops, p.1 ≠ some (.fault "orig_bp")) := by
  have hlinked : WellLinked s := ⟨by simp [empty], by simp [empty]⟩
  have hvalid : LinksValid s.breakpoints := by simp [LinksValid, empty]
  constructor
  · exact trace_iff_allowed (I := WellLinked) (P := fun s => LinksValid s.breakpoints)
      (fun _ op linked valid => (breakpointStep_links linked valid op).linked)
      (fun _ op linked valid => (breakpointStep_links linked valid op).valid_iff)
      hlinked hvalid ops
  · intro allowed
    refine trace_property (P := fun s => WellLinked s ∧ LinksValid s.breakpoints) ?_
      ⟨hlinked, hvalid⟩ allowed
    rintro s op ⟨linked, valid⟩ keeps
    have hstep := breakpointStep_links (t := t) linked valid op
    exact ⟨⟨hstep.linked, hstep.valid_iff.mpr keeps⟩, hstep.notFreed⟩

/-- A breakpoint is set and stepped over, and the step ends. -/
theorem links_valid_iff_stepped :
    let ops : List BreakpointOp :=
      [.setBreakpointAt 4096 .null, .reinsertBreakpointByBp 4096 4100, .checkBreakpoints 4100]
    ((∀ p ∈ trace (breakpointStep ppcRam) blankState ops, LinksValid p.2.breakpoints) ↔
      AllowedRun (KeepsLinks ppcRam) (breakpointStep ppcRam) blankState ops) ∧
    (AllowedRun (KeepsLinks ppcRam) (breakpointStep ppcRam) blankState ops →
      ∀ p ∈ trace (breakpointStep ppcRam) blankState ops, p.1 ≠ some (.fault "orig_bp")) :=
  links_valid_iff rfl _

/-- The breakpoint that is stepped over is deleted, and then the second one is hit. -/
theorem not_links_valid_deleted :
    let ops : List BreakpointOp :=
      [.setBreakpointAt 4096 .null, .reinsertBreakpointByBp 4096 4100, .deleteBreakpointAt 4096,
        .checkBreakpoints 4100]
    ¬ ((∀ p ∈ trace (breakpointStep ppcRam) blankState ops, LinksValid p.2.breakpoints) ∧
      ∀ p ∈ trace (breakpointStep ppcRam) blankState ops, p.1 ≠ some (.fault "orig_bp")) := by
  rintro ops ⟨_, hfault⟩
  have hends : (trace (breakpointStep ppcRam) blankState ops).map Prod.fst =
      [none, none, none, some (.fault "orig_bp")] := rfl
  have hmem : some (.fault "orig_bp") ∈
      (trace (breakpointStep ppcRam) blankState ops).map Prod.fst := by
    rw [hends]
    simp
  obtain ⟨p, hp, heq⟩ := List.mem_map.mp hmem
  exact hfault p hp heq

/-- If `p` calls `error`, the state is still `s`. -/
def FailsCleanly {α : Type} (p : Proc (MemState σ) α) (s : MemState σ) : Prop :=
  Proc.Ends p (fun _ _ => True) (fun e s' => (∃ message, e = .error message) → s' = s) s

/-- A breakpoint is to be stepped over where none is listed, by one at another address. -/
def MissingOriginal (t : MemTarget σ) (s : MemState σ) (op : BreakpointOp) : Prop :=
  ∃ stopPc stopAt, op = .reinsertBreakpointByBp stopPc stopAt ∧ t.breakpointData ≠ none ∧
    stopPc ≠ stopAt ∧ findBreakpointAt stopPc s.breakpoints = none

theorem FailsCleanly.of_ok {α : Type} {p : Proc (MemState σ) α} {a : α} {s' : MemState σ}
    (run : p.run s = .ok a s') : FailsCleanly p s :=
  (Proc.Ends.of_run run).mpr trivial

theorem FailsCleanly.of_error {α : Type} {p : Proc (MemState σ) α} {e : Stop}
    (run : p.run s = .error e s) : FailsCleanly p s :=
  (Proc.Ends.of_run_error run).mpr fun _ => rfl

theorem setBreakpointAt_failsCleanly (addr : Int) (handler : Handler) :
    FailsCleanly (setBreakpointAt t addr handler) s := by
  cases hdata : t.breakpointData with
  | none => exact .of_error (setBreakpointAt_null t s addr handler hdata)
  | some data => exact .of_ok (setBreakpointAt_run t s addr handler hdata)

/-- Its only way to fail is a list that is empty. -/
theorem deleteBreakpoint_noError (bp : Breakpoint) :
    Proc.Avoids (fun e => ∃ message, e = .error message) (deleteBreakpoint t bp) := by
  refine .bind .get fun s => ?_
  cases unlink bp.node s.breakpoints with
  | some rest => exact .bind (fun _ => trivial) fun _ => .bind (.modifyGet _) fun _ => .pure _
  | none => exact .ite (.throw (by simp)) (.pure _)

theorem deleteBreakpointAt_failsCleanly (addr : Int) :
    FailsCleanly (deleteBreakpointAt t addr) s := by
  have hnever : Proc.Avoids (fun e => ∃ message, e = .error message)
      (deleteBreakpointAt t addr) := by
    refine .bind .get fun s => ?_
    cases findBreakpointAt addr s.breakpoints with
    | none => exact .pure _
    | some bp => exact deleteBreakpoint_noError bp
  exact (hnever s).imp (fun _ _ _ => trivial) fun _ _ never error => absurd error never

theorem uninsertBreakpoint_failsCleanly (addr : Int) :
    FailsCleanly (uninsertBreakpoint t addr) s := by
  cases hfind : findBreakpointAt addr s.breakpoints with
  | none => exact .of_error (uninsertBreakpoint_none hfind)
  | some b => exact .of_ok (uninsertBreakpoint_some t hfind)

theorem reinsertBreakpoint_failsCleanly (addr : Int) :
    FailsCleanly (reinsertBreakpoint t addr) s := by
  cases hfind : findBreakpointAt addr s.breakpoints with
  | none => exact .of_error (reinsertBreakpoint_none hfind)
  | some b =>
    cases hr : b.reinserting with
    | true => exact .of_ok (reinsertBreakpoint_some t hfind hr)
    | false => exact .of_error (reinsertBreakpoint_refused t hfind hr)

/-- The handler looks for everything it needs before it writes. -/
theorem checkBreakpoints_failsCleanly (stopPc : Int) :
    FailsCleanly (checkBreakpoints t stopPc) s := by
  unfold FailsCleanly checkBreakpoints
  rw [Proc.Ends.bind_iff, Proc.Ends.get_iff]
  cases hfind : findBreakpointAt stopPc s.breakpoints with
  | none => trivial
  | some b =>
    have hagain : findBreakpointAt b.pc s.breakpoints = some b :=
      (findBreakpointAt_eq_some hfind).1.symm ▸ hfind
    dsimp only
    split
    · trivial
    · cases hh : b.handler with
      | null => exact fun _ => rfl
      | reinsertBreakpointHandler =>
        simp only [reinsertBreakpointHandler, Proc.Ends.bind_iff, Proc.Ends.get_iff, hagain]
        cases hlink : b.breakpointToReinsert with
        | none => exact fun _ => rfl
        | some orig =>
          simp only [Proc.Ends.bind_iff, Proc.Ends.get_iff]
          cases hnode : s.breakpoints.find? fun b => b.node = orig with
          | none => exact fun _ => rfl
          | some origBp =>
            simp only [Proc.Ends.bind_iff, writeTarget, modifyNode, Proc.Ends.modifyGet_iff,
              Proc.Ends.modify_iff]
            exact (deleteBreakpoint_noError b _).imp (fun _ _ _ => trivial)
              fun _ _ never error => absurd error never

theorem reinsertBreakpointByBp_failsCleanly {stopPc stopAt : Int}
    (h : ¬ MissingOriginal t s (.reinsertBreakpointByBp stopPc stopAt)) :
    FailsCleanly (reinsertBreakpointByBp t stopPc stopAt) s := by
  cases hdata : t.breakpointData with
  | none => exact .of_error (reinsertBreakpointByBp_null stopPc stopAt hdata)
  | some data =>
    obtain ⟨orig, hpc⟩ : ∃ orig, findBreakpointAt stopPc
        (newBreakpoint t s stopAt .reinsertBreakpointHandler :: s.breakpoints) = some orig := by
      by_cases hne : stopPc = stopAt
      · exact ⟨_, List.find?_cons_of_pos (by simp [newBreakpoint, hne])⟩
      · rw [← Option.ne_none_iff_exists']
        intro hnone
        refine h ⟨stopPc, stopAt, rfl, by simp [hdata], hne, ?_⟩
        rw [findBreakpointAt_eq_none] at hnone ⊢
        exact fun b hb => hnone b (List.mem_cons_of_mem _ hb)
    have hat : findBreakpointAt stopAt
        (newBreakpoint t s stopAt .reinsertBreakpointHandler :: s.breakpoints) =
          some (newBreakpoint t s stopAt .reinsertBreakpointHandler) := by
      simp [findBreakpointAt, newBreakpoint]
    have hset := setBreakpointAt_run t s stopAt .reinsertBreakpointHandler hdata
    simp only [FailsCleanly, reinsertBreakpointByBp, Proc.Ends.bind_iff, Proc.Ends.of_run hset,
      Proc.Ends.get_iff, hpc, hat, modifyNode, writeTarget, Proc.Ends.modifyGet_iff,
      Proc.Ends.modify_iff]

theorem breakpointStep_failsCleanly {op : BreakpointOp} (h : ¬ MissingOriginal t s op) :
    FailsCleanly (op.call t) s := by
  cases op with
  | setBreakpointAt addr handler => exact setBreakpointAt_failsCleanly addr handler
  | deleteBreakpointAt addr => exact deleteBreakpointAt_failsCleanly addr
  | reinsertBreakpointByBp stopPc stopAt => exact reinsertBreakpointByBp_failsCleanly h
  | uninsertBreakpoint addr => exact uninsertBreakpoint_failsCleanly addr
  | reinsertBreakpoint addr => exact reinsertBreakpoint_failsCleanly addr
  | checkBreakpoints stopPc =>
    rw [FailsCleanly, BreakpointOp.call, Proc.Ends.bind_iff]
    exact checkBreakpoints_failsCleanly stopPc

/-- An operation that ends in `error` has left the list and the memory alone just if it was
not `reinsert_breakpoint_by_bp` that missed the breakpoint to step over. -/
theorem failed_without_effect_iff (t : MemTarget σ) (mem : σ → Memory) (s : MemState σ)
    (op : BreakpointOp) :
    (∀ message, (breakpointStep t s op).1 = some (.error message) →
      (breakpointStep t s op).2.breakpoints = s.breakpoints ∧
        mem (breakpointStep t s op).2.target = mem s.target) ↔ ¬ MissingOriginal t s op := by
  constructor
  · rintro clean ⟨stopPc, stopAt, rfl, hsome, hne, hnone⟩
    obtain ⟨data, hdata⟩ := Option.ne_none_iff_exists'.mp hsome
    have hrun := reinsertBreakpointByBp_none hdata hne hnone
    have hstep : breakpointStep t s (.reinsertBreakpointByBp stopPc stopAt) = (_, _) :=
      congrArg (fun r => (Proc.stop r, Proc.final r)) hrun
    have hlist := (clean _ (congrArg Prod.fst hstep)).1
    rw [hstep] at hlist
    exact List.cons_ne_self _ _ hlist
  · intro h message herror
    have hclean := breakpointStep_failsCleanly h
    have hfinal : (breakpointStep t s op).2 = s := by
      unfold FailsCleanly Proc.Ends at hclean
      simp only [breakpointStep] at herror ⊢
      cases hrun : (op.call t).run s with
      | ok _ s' => simp [hrun, Proc.stop] at herror
      | error e s' =>
        rw [hrun] at hclean herror
        exact hclean ⟨message, Option.some.inj herror⟩
    rw [hfinal]
    exact ⟨rfl, rfl⟩

/-- From the empty list: the second breakpoint is set and stays. -/
theorem not_failed_without_effect_missing :
    ¬ ∀ message, (breakpointStep ppcRam blankState (.reinsertBreakpointByBp 4096 4100)).1 =
        some (.error message) →
      (breakpointStep ppcRam blankState (.reinsertBreakpointByBp 4096 4100)).2.breakpoints =
          blankState.breakpoints ∧
        (breakpointStep ppcRam blankState (.reinsertBreakpointByBp 4096 4100)).2.target =
          blankState.target := by
  intro clean
  have hlist := (clean "Could not find original breakpoint in list." rfl).1
  exact absurd hlist (List.cons_ne_nil _ _)

end MemBreak
