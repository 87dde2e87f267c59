import OsxGdbserver.Basic
import OsxGdbserver.Lib.LinkedList
import OsxGdbserver.Lib.Process
import OsxGdbserver.Lib.Simulation

/-!
# Lists of inferiors in memory

The functions of `inferiors.c` on an `inferior_list`, as they assign to the pointers of its
nodes. An access to a node that is not allocated is undefined in C.
-/

namespace InferiorLists

open LinkedList Simulation

/-- `struct inferior_list_entry` -/
structure Entry where
  id : Int
  next : Option Nat
  deriving DecidableEq, Repr

/-- `struct inferior_list` -/
structure InferiorList where
  head : Option Nat
  tail : Option Nat
  deriving DecidableEq, Repr

/-- A list and the memory with its nodes. -/
structure ListState where
  heap : Nat → Option Entry
  list : InferiorList

def setHead (head : Option Nat) (s : ListState) : ListState :=
  { s with list := { s.list with head := head } }

def setTail (tail : Option Nat) (s : ListState) : ListState :=
  { s with list := { s.list with tail := tail } }

def setEntry (node : Nat) (entry : Option Entry) (s : ListState) : ListState :=
  { s with heap := Function.update s.heap node entry }

/-- `*node` -/
def deref (node : Nat) : Proc ListState Entry := do
  match (← get).heap node with
  | some entry => return entry
  | none => throw (.fault "inferior_list_entry")

def assignNext (node : Nat) (next : Option Nat) : Proc ListState Unit := do
  let entry ← deref node
  modify (setEntry node (some { entry with next := next }))

def addInferiorToList (newInferior : Nat) : Proc ListState Unit := do
  assignNext newInferior none
  match (← get).list.tail with
  | some tail => assignNext tail (some newInferior)
  | none => modify (setHead (some newInferior))
  modify (setTail (some newInferior))

/-- The loop of `for_each_inferior` from `cur` on. The fuel bounds the number of nodes. -/
def forEachFrom (action : Nat → Proc ListState Unit) : Nat → Option Nat → Proc ListState Unit
  | _, none => pure ()
  | 0, some _ => throw (.fault "fuel")
  | fuel + 1, some cur => do
    let entry ← deref cur
    action cur
    forEachFrom action fuel entry.next

def forEachInferior (fuel : Nat) (action : Nat → Proc ListState Unit) : Proc ListState Unit := do
  forEachFrom action fuel (← get).list.head

/-- The loop of `remove_inferior`: the node, from `*cur` on, whose `next` is `entry`. -/
def findBefore (entry : Nat) : Nat → Option Nat → Proc ListState (Option Nat)
  | _, none => pure none
  | 0, some _ => throw (.fault "fuel")
  | fuel + 1, some cur => do
    let next := (← deref cur).next
    if next = some entry then return some cur else findBefore entry fuel next

def removeInferior (fuel : Nat) (entry : Nat) : Proc ListState Unit := do
  if (← get).list.head = some entry then
    let next := (← deref entry).next
    modify (setHead next)
    if (← get).list.tail = some entry then
      modify fun s => setTail s.list.head s
  else
    match ← findBefore entry fuel (← get).list.head with
    | none => pure ()
    | some cur =>
      let next := (← deref entry).next
      assignNext cur next
      if (← get).list.tail = some entry then
        modify (setTail (some cur))

/-- `free`; a node is freed once. -/
def freeOneThread (node : Nat) : Proc ListState Unit := do
  let _ ← deref node
  modify (setEntry node none)

def clearInferiors (fuel : Nat) : Proc ListState Unit := do
  forEachInferior fuel freeOneThread
  modify fun s => { s with list := { head := none, tail := none } }

/-- The loop of `find_inferior` from `inf` on. -/
def findFrom (func : Nat → Entry → Bool) : Nat → Option Nat → Proc ListState (Option Nat)
  | _, none => pure none
  | 0, some _ => throw (.fault "fuel")
  | fuel + 1, some inf => do
    let entry ← deref inf
    if func inf entry then return some inf else findFrom func fuel entry.next

def findInferior (fuel : Nat) (func : Nat → Entry → Bool) : Proc ListState (Option Nat) := do
  findFrom func fuel (← get).list.head

def findInferiorId (fuel : Nat) (id : Int) : Proc ListState (Option Nat) := do
  findFrom (fun _ entry => entry.id = id) fuel (← get).list.head

/-- The nodes that following `next` from a pointer visits, if it ends. -/
def follow (heap : Nat → Option Entry) : Nat → Option Nat → Option (List Nat)
  | _, none => some []
  | 0, some _ => none
  | fuel + 1, some node =>
    (heap node).bind fun entry => (follow heap fuel entry.next).map (node :: ·)

def nextOf (heap : Nat → Option Entry) (node : Nat) : Option (Option Nat) :=
  (heap node).map Entry.next

/-- The nodes of the list, in order, and its tail. -/
structure Represents (s : ListState) (nodes : List Nat) : Prop where
  segment : Segment (nextOf s.heap) s.list.head nodes none
  nodup : nodes.Nodup
  tail : s.list.tail = nodes.getLast?

variable {s : ListState} {nodes : List Nat} {node fuel : Nat}

theorem nextOf_setEntry (node : Nat) (entry : Entry) (s : ListState) :
    nextOf (setEntry node (some entry) s).heap =
      Function.update (nextOf s.heap) node (some entry.next) := by
  funext a
  by_cases h : a = node
  · subst h
    simp [nextOf, setEntry]
  · simp [nextOf, setEntry, h]

theorem deref_run {entry : Entry} (h : s.heap node = some entry) :
    (deref node).run s = .ok entry s := by
  simp [deref, h]

theorem assignNext_run {entry : Entry} (h : s.heap node = some entry) (next : Option Nat) :
    (assignNext node next).run s =
      .ok () (setEntry node (some { entry with next := next }) s) := by
  simp [assignNext, deref_run h]

theorem Represents.entry (h : Represents s nodes) (hnode : node ∈ nodes) :
    ∃ entry, s.heap node = some entry := by
  obtain ⟨next, hnext⟩ := h.segment.next_eq_some hnode
  obtain ⟨entry, hentry, _⟩ := Option.map_eq_some_iff.mp hnext
  exact ⟨entry, hentry⟩

theorem Represents.head_eq_none_iff (h : Represents s nodes) :
    s.list.head = none ↔ nodes = [] := h.segment.eq_nil_iff

theorem Represents.tail_eq_none_iff (h : Represents s nodes) :
    s.list.tail = none ↔ s.list.head = none := by
  rw [h.tail, h.head_eq_none_iff, List.getLast?_eq_none_iff]

theorem follow_segment {heap : Nat → Option Entry} {p : Option Nat}
    (h : Segment (nextOf heap) p nodes none) (enough : nodes.length ≤ fuel) :
    follow heap fuel p = some nodes := by
  induction nodes generalizing p fuel with
  | nil =>
    obtain rfl : p = none := h
    cases fuel <;> rfl
  | cons node rest ih =>
    obtain ⟨rfl, next, hnext, hrest⟩ := h
    obtain ⟨entry, hentry, rfl⟩ := Option.map_eq_some_iff.mp hnext
    cases fuel with
    | zero => simp at enough
    | succ fuel =>
      have hrec := ih hrest (by simpa using enough)
      simp [follow, hentry, hrec]

theorem findFrom_segment (func : Nat → Entry → Bool) {p : Option Nat}
    (h : Segment (nextOf s.heap) p nodes none) (enough : nodes.length ≤ fuel) :
    (findFrom func fuel p).run s =
      .ok (nodes.find? fun node => (s.heap node).any (func node)) s := by
  induction nodes generalizing p fuel with
  | nil =>
    obtain rfl : p = none := h
    cases fuel <;> rfl
  | cons node rest ih =>
    obtain ⟨rfl, next, hnext, hrest⟩ := h
    obtain ⟨entry, hentry, rfl⟩ := Option.map_eq_some_iff.mp hnext
    cases fuel with
    | zero => simp at enough
    | succ fuel =>
      have hrec := ih hrest (by simpa using enough)
      by_cases hfunc : func node entry
      · simp [findFrom, deref_run hentry, hfunc, hentry]
      · simp [findFrom, deref_run hentry, hfunc, hentry, hrec]

/-- An action that touches no node but the one it is given. -/
def Confined (action : Nat → Proc ListState Unit) : Prop :=
  ∀ node s other, other ≠ node → (Proc.final ((action node).run s)).heap other = s.heap other

/-- The action is called for each node once, though it may have freed the ones before. -/
theorem forEachFrom_segment {action : Nat → Proc ListState Unit} (confined : Confined action)
    {p : Option Nat} (h : Segment (nextOf s.heap) p nodes none) (nodup : nodes.Nodup)
    (enough : nodes.length ≤ fuel) :
    (forEachFrom action fuel p).run s = (nodes.forM action).run s := by
  induction nodes generalizing p fuel s with
  | nil =>
    obtain rfl : p = none := h
    cases fuel <;> rfl
  | cons node rest ih =>
    obtain ⟨rfl, next, hnext, hrest⟩ := h
    obtain ⟨entry, hentry, rfl⟩ := Option.map_eq_some_iff.mp hnext
    obtain ⟨hnode, hnodup⟩ := List.nodup_cons.mp nodup
    cases fuel with
    | zero => simp at enough
    | succ fuel =>
      have hlen : rest.length ≤ fuel := by simpa using enough
      have hkept := confined node s
      simp only [List.forM_eq_forM, List.forM_cons, forEachFrom, EStateM.run_bind,
        deref_run hentry]
      cases hrun : (action node).run s with
      | error e s' => rfl
      | ok _ s' =>
        rw [hrun, Proc.final_ok] at hkept
        have hsame : ∀ other ∈ rest, nextOf s'.heap other = nextOf s.heap other := by
          intro other hother
          have hne : other ≠ node := by
            rintro rfl
            exact hnode hother
          simp only [nextOf, hkept other hne]
        exact ih (hrest.congr hsame) hnodup hlen

theorem addInferiorToList_represents (h : Represents s nodes) {entry : Entry}
    (hentry : s.heap node = some entry) (hnode : node ∉ nodes) :
    Proc.Ends (addInferiorToList node) (fun _ s' => Represents s' (nodes ++ [node]))
      (fun _ _ => False) s := by
  let new : Entry := { entry with next := none }
  have hnull : nextOf (setEntry node (some new) s).heap node = some none := by
    simp [nextOf_setEntry, new]
  have hsegment := h.segment.update_outside hnode (some none)
  rw [← nextOf_setEntry node new s] at hsegment
  have hnodup : (nodes ++ [node]).Nodup := by
    rw [← List.concat_eq_append]
    exact List.Nodup.concat hnode h.nodup
  have hcleared : (assignNext node none).run s = .ok () (setEntry node (some new) s) :=
    assignNext_run hentry none
  simp only [addInferiorToList, Proc.Ends.bind_iff, Proc.Ends.of_run hcleared,
    Proc.Ends.get_iff]
  rcases List.eq_nil_or_concat' nodes with rfl | ⟨front, tail, rfl⟩
  · have htail : (setEntry node (some new) s).list.tail = none := h.tail
    rw [htail]
    exact ⟨⟨rfl, none, hnull, rfl⟩, hnodup, by simp [setTail]⟩
  · have htail : (setEntry node (some new) s).list.tail = some tail := by
      simpa [setEntry] using h.tail
    obtain ⟨last, hlast⟩ := h.entry (List.mem_append_right front List.mem_cons_self)
    have hne : tail ≠ node := by
      rintro rfl
      simp at hnode
    have hafter : (setEntry node (some new) s).heap tail = some last := by
      simp [setEntry, hne, hlast]
    have hfront : tail ∉ front ∧ front.Nodup := by
      rw [← List.nodup_concat, List.concat_eq_append]
      exact h.nodup
    have hlinked := hsegment.snoc hfront.1 hnode hnull
    rw [← nextOf_setEntry tail { last with next := some node }] at hlinked
    have hrun := assignNext_run hafter (some node)
    simp only [htail, Proc.Ends.bind_iff, Proc.Ends.of_run hrun, Proc.Ends.modify_iff]
    exact ⟨hlinked, hnodup, by simp [setTail]⟩

/-- The loop of `remove_inferior` ends at the node before `entry`, if there is one. -/
theorem findBefore_segment {entry : Nat} {p : Option Nat}
    (h : Segment (nextOf s.heap) p nodes none) (enough : nodes.length ≤ fuel)
    (hp : p ≠ some entry) :
    (entry ∉ nodes ∧ (findBefore entry fuel p).run s = .ok none s) ∨
      ∃ front cur rest, nodes = front ++ cur :: entry :: rest ∧
        (findBefore entry fuel p).run s = .ok (some cur) s := by
  induction nodes generalizing p fuel with
  | nil =>
    obtain rfl : p = none := h
    refine Or.inl ⟨List.not_mem_nil, ?_⟩
    cases fuel <;> rfl
  | cons node nodes ih =>
    obtain ⟨rfl, next, hnext, hrest⟩ := h
    obtain ⟨cur, hcur, rfl⟩ := Option.map_eq_some_iff.mp hnext
    cases fuel with
    | zero => simp at enough
    | succ fuel =>
      by_cases hfound : cur.next = some entry
      · rw [hfound] at hrest
        cases nodes with
        | nil => cases hrest
        | cons first rest =>
          cases hrest.start_cons
          exact Or.inr ⟨[], node, rest, rfl, by simp [findBefore, deref_run hcur, hfound]⟩
      · have hstep : (findBefore entry (fuel + 1) (some node)).run s =
            (findBefore entry fuel cur.next).run s := by
          simp [findBefore, deref_run hcur, hfound]
        rw [hstep]
        rcases ih hrest (by simpa using enough) hfound with
          ⟨hnot, hrun⟩ | ⟨front, before, rest, rfl, hrun⟩
        · refine Or.inl ⟨?_, hrun⟩
          have hne : entry ≠ node := fun heq => hp (congrArg some heq.symm)
          simp [hne, hnot]
        · exact Or.inr ⟨node :: front, before, rest, rfl, hrun⟩

/-- The first node is removed: `tail` follows `head` if it was the only one. -/
theorem removeInferior_head {entry : Nat} {rest : List Nat} (h : Represents s (entry :: rest)) :
    Proc.Ends (removeInferior fuel entry) (fun _ s' => Represents s' rest)
      (fun _ _ => False) s := by
  obtain ⟨hhead, next, hnext, hrest⟩ := h.segment
  obtain ⟨node, hnode, rfl⟩ := Option.map_eq_some_iff.mp hnext
  obtain ⟨hfirst, hnodup⟩ := List.nodup_cons.mp h.nodup
  simp only [removeInferior, Proc.Ends.bind_iff, Proc.Ends.get_iff, hhead, if_true,
    Proc.Ends.of_run (deref_run hnode), Proc.Ends.modify_iff]
  cases rest with
  | nil =>
    have htail : s.list.tail = some entry := h.tail
    have hnull : node.next = none := hrest
    simp only [setHead, htail, if_true, Proc.Ends.modify_iff]
    exact ⟨hrest, hnodup, hnull⟩
  | cons second rest =>
    have hlast : (entry :: second :: rest).getLast? = (second :: rest).getLast? :=
      List.getLast?_cons_cons
    have htail : s.list.tail ≠ some entry := by
      intro heq
      rw [h.tail, hlast] at heq
      exact hfirst (List.mem_of_getLast? heq)
    simp only [setHead, htail, if_false, Proc.Ends.pure_iff]
    exact ⟨hrest, hnodup, h.tail.trans hlast⟩

/-- A node behind another is removed: `tail` moves to the node before if it was the last. -/
theorem removeInferior_behind {entry cur : Nat} {front rest : List Nat}
    (h : Represents s (front ++ cur :: entry :: rest)) (hhead : s.list.head ≠ some entry)
    (hfind : (findBefore entry fuel s.list.head).run s = .ok (some cur) s) :
    Proc.Ends (removeInferior fuel entry) (fun _ s' => Represents s' (front ++ cur :: rest))
      (fun _ _ => False) s := by
  have hentry : entry ∈ front ++ cur :: entry :: rest := by simp
  have hcur : cur ∈ front ++ cur :: entry :: rest := by simp
  obtain ⟨node, hnode⟩ := h.entry hentry
  obtain ⟨before, hbefore⟩ := h.entry hcur
  have hbehind : nextOf s.heap entry = some node.next := by
    simp [nextOf, hnode]
  have hassign := assignNext_run hbefore node.next
  have hsegment := h.segment.unlink h.nodup hbehind
  rw [← nextOf_setEntry cur { before with next := node.next }] at hsegment
  obtain ⟨hgone, hnodup⟩ : entry ∉ front ++ cur :: rest ∧ (front ++ cur :: rest).Nodup := by
    have hnodup := h.nodup
    rw [List.append_cons, List.nodup_middle, ← List.append_cons] at hnodup
    exact List.nodup_cons.mp hnodup
  simp only [removeInferior, Proc.Ends.bind_iff, Proc.Ends.get_iff, hhead, if_false,
    Proc.Ends.of_run hfind, Proc.Ends.of_run (deref_run hnode), Proc.Ends.of_run hassign]
  cases rest with
  | nil =>
    have htail : s.list.tail = some entry := by simpa using h.tail
    simp only [setEntry, htail, if_true, Proc.Ends.modify_iff]
    exact ⟨hsegment, hnodup, by simp [setTail]⟩
  | cons third rest =>
    have hlast : (front ++ cur :: entry :: third :: rest).getLast? =
        (front ++ cur :: third :: rest).getLast? := by
      simp
    have htail : s.list.tail ≠ some entry := by
      intro heq
      rw [h.tail, hlast] at heq
      exact hgone (List.mem_of_getLast? heq)
    simp only [setEntry, htail, if_false, Proc.Ends.pure_iff]
    exact ⟨hsegment, hnodup, h.tail.trans hlast⟩

theorem removeInferior_represents (h : Represents s nodes) (entry : Nat) :
    Proc.Ends (removeInferior nodes.length entry) (fun _ s' => Represents s' (nodes.erase entry))
      (fun _ _ => False) s := by
  by_cases hhead : s.list.head = some entry
  · cases nodes with
    | nil =>
      have hnull := h.head_eq_none_iff.mpr rfl
      rw [hhead] at hnull
      cases hnull
    | cons first rest =>
      obtain rfl : entry = first := Option.some.inj (hhead.symm.trans h.segment.start_cons)
      rw [List.erase_cons_head]
      exact removeInferior_head h
  · rcases findBefore_segment h.segment (Nat.le_refl _) hhead with
      ⟨hnot, hfind⟩ | ⟨front, cur, rest, heq, hfind⟩
    · simp only [removeInferior, Proc.Ends.bind_iff, Proc.Ends.get_iff, hhead, if_false,
        Proc.Ends.of_run hfind, Proc.Ends.pure_iff, List.erase_of_not_mem hnot]
      exact h
    · have herase : nodes.erase entry = front ++ cur :: rest := by
        have hnodup := h.nodup
        rw [heq, List.append_cons, List.nodup_middle] at hnodup
        have hfront : entry ∉ front ++ [cur] := fun hmem =>
          (List.nodup_cons.mp hnodup).1 (List.mem_append_left rest hmem)
        rw [heq, List.append_cons, List.erase_append_right _ hfront, List.erase_cons_head,
          ← List.append_cons]
      rw [herase]
      exact removeInferior_behind (heq ▸ h) hhead hfind

theorem freeOneThread_run {entry : Entry} (h : s.heap node = some entry) :
    (freeOneThread node).run s = .ok () (setEntry node none s) := by
  simp [freeOneThread, deref_run h]

theorem freeOneThread_confined : Confined freeOneThread := by
  intro node s other hne
  cases h : s.heap node with
  | none => simp [freeOneThread, deref, h]
  | some entry =>
    rw [freeOneThread_run h]
    simp [setEntry, hne]

/-- Freeing the nodes one after another. -/
theorem forM_freeOneThread_run (allocated : ∀ node ∈ nodes, ∃ entry, s.heap node = some entry)
    (nodup : nodes.Nodup) :
    (nodes.forM freeOneThread).run s =
      .ok () { s with heap := fun node => if node ∈ nodes then none else s.heap node } := by
  induction nodes generalizing s with
  | nil =>
    simp only [List.not_mem_nil, if_false]
    rfl
  | cons node rest ih =>
    obtain ⟨hnode, hnodup⟩ := List.nodup_cons.mp nodup
    obtain ⟨entry, hentry⟩ := allocated node List.mem_cons_self
    have hrest : ∀ other ∈ rest, ∃ entry, (setEntry node none s).heap other = some entry := by
      intro other hother
      have hne : other ≠ node := by
        rintro rfl
        exact hnode hother
      obtain ⟨entry, hentry⟩ := allocated other (List.mem_cons_of_mem node hother)
      exact ⟨entry, by simp [setEntry, hne, hentry]⟩
    have hrun := ih hrest hnodup
    have hheap : (fun other => if other ∈ rest then none else (setEntry node none s).heap other) =
        fun other => if other ∈ node :: rest then none else s.heap other := by
      funext other
      by_cases hne : other = node
      · simp [setEntry, hne]
      · simp [setEntry, hne]
    rw [hheap] at hrun
    simp only [List.forM_eq_forM, List.forM_cons, EStateM.run_bind,
      freeOneThread_run hentry] at hrun ⊢
    exact hrun

theorem clearInferiors_run (h : Represents s nodes) :
    (clearInferiors nodes.length).run s = .ok ()
      { heap := fun node => if node ∈ nodes then none else s.heap node
        list := { head := none, tail := none } } := by
  have hfree := forM_freeOneThread_run (fun _ => h.entry) h.nodup
  have hrun := forEachFrom_segment freeOneThread_confined h.segment h.nodup (Nat.le_refl _)
  rw [hfree] at hrun
  have heach : (forEachInferior nodes.length freeOneThread).run s =
      (forEachFrom freeOneThread nodes.length s.list.head).run s := rfl
  rw [clearInferiors, EStateM.run_bind, heach, hrun]
  rfl

theorem clearInferiors_represents (h : Represents s nodes) :
    Proc.Ends (clearInferiors nodes.length) (fun _ s' => Represents s' [])
      (fun _ _ => False) s := by
  rw [Proc.Ends.of_run (clearInferiors_run h)]
  exact ⟨rfl, List.nodup_nil, rfl⟩

/-- A call on the list, or one that allocates or frees a node. -/
inductive ListOp
  | malloc (node : Nat) (entry : Entry)
  | free (node : Nat)
  | addInferiorToList (newInferior : Nat)
  | removeInferior (entry : Nat)
  | clearInferiors
  deriving DecidableEq, Repr

def ListOp.call (fuel : Nat) : ListOp → Proc ListState Unit
  | .malloc node entry => modify (setEntry node (some entry))
  | .free node => InferiorLists.freeOneThread node
  | .addInferiorToList newInferior => InferiorLists.addInferiorToList newInferior
  | .removeInferior entry => InferiorLists.removeInferior fuel entry
  | .clearInferiors => InferiorLists.clearInferiors fuel

/-- The nodes added and not yet removed, in the order in which they were added. -/
def ListOp.listed (nodes : List Nat) : ListOp → List Nat
  | .addInferiorToList newInferior => nodes ++ [newInferior]
  | .removeInferior entry => nodes.erase entry
  | .clearInferiors => []
  | _ => nodes

/-- The list in memory beside the nodes it is to hold. No loop takes more steps than there
are nodes. -/
def listStep (p : ListState × List Nat) (op : ListOp) : Option Stop × ListState × List Nat :=
  let result := (op.call p.2.length).run p.1
  (Proc.stop result, Proc.final result, op.listed p.2)

/-- Memory is allocated where none is, and a listed node is neither freed nor added again. -/
def AllowedOp (p : ListState × List Nat) : ListOp → Prop
  | .malloc node _ => p.1.heap node = none
  | .free node => node ∉ p.2 ∧ p.1.heap node ≠ none
  | .addInferiorToList newInferior => newInferior ∉ p.2 ∧ p.1.heap newInferior ≠ none
  | _ => True

instance AllowedOp.decidable : ∀ p op, Decidable (AllowedOp p op)
  | p, .malloc node _ => inferInstanceAs (Decidable (p.1.heap node = none))
  | p, .free node => inferInstanceAs (Decidable (node ∉ p.2 ∧ p.1.heap node ≠ none))
  | p, .addInferiorToList newInferior =>
    inferInstanceAs (Decidable (newInferior ∉ p.2 ∧ p.1.heap newInferior ≠ none))
  | _, .removeInferior _ => inferInstanceAs (Decidable True)
  | _, .clearInferiors => inferInstanceAs (Decidable True)

/-- A change of memory outside the list. -/
theorem Represents.setEntry_outside (h : Represents s nodes) (hnode : node ∉ nodes)
    (entry : Option Entry) : Represents (setEntry node entry s) nodes where
  segment := by
    apply h.segment.congr
    intro other hother
    have hne : other ≠ node := by
      rintro rfl
      exact hnode hother
    simp [nextOf, setEntry, hne]
  nodup := h.nodup
  tail := h.tail

theorem ListOp.call_represents (h : Represents s nodes) {op : ListOp}
    (ok : AllowedOp (s, nodes) op) :
    Proc.Ends (op.call nodes.length) (fun _ s' => Represents s' (op.listed nodes))
      (fun _ _ => False) s := by
  cases op with
  | malloc node entry =>
    have hnode : node ∉ nodes := by
      intro hmem
      obtain ⟨other, hother⟩ := h.entry hmem
      have hnone : s.heap node = none := ok
      rw [hnone] at hother
      cases hother
    exact h.setEntry_outside hnode (some entry)
  | free node =>
    obtain ⟨hnode, hsome⟩ := ok
    obtain ⟨entry, hentry⟩ := Option.ne_none_iff_exists'.mp hsome
    rw [ListOp.call, Proc.Ends.of_run (freeOneThread_run hentry)]
    exact h.setEntry_outside hnode none
  | addInferiorToList newInferior =>
    obtain ⟨hnode, hsome⟩ := ok
    obtain ⟨entry, hentry⟩ := Option.ne_none_iff_exists'.mp hsome
    exact addInferiorToList_represents h hentry hnode
  | removeInferior entry => exact removeInferior_represents h entry
  | clearInferiors => exact clearInferiors_represents h

/-- A call that is allowed does not stop, and the list holds its nodes after it. -/
theorem listStep_represents {p : ListState × List Nat} {op : ListOp}
    (h : Represents p.1 p.2) (ok : AllowedOp p op) :
    (listStep p op).1 = none ∧ Represents (listStep p op).2.1 (listStep p op).2.2 :=
  Proc.Ends.no_stop_iff.mp (ListOp.call_represents h ok)

/-- What the list is used for: its nodes are `nodes`, in this order. -/
structure Lists (s : ListState) (nodes : List Nat) : Prop where
  follow_next : follow s.heap nodes.length s.list.head = some nodes
  nodup : nodes.Nodup
  tail : s.list.tail = nodes.getLast?
  tail_null : s.list.tail = none ↔ s.list.head = none
  for_each : ∀ action, Confined action →
    (forEachInferior nodes.length action).run s = (nodes.forM action).run s
  find : ∀ func, (findInferior nodes.length func).run s =
    .ok (nodes.find? fun node => (s.heap node).any (func node)) s
  find_id : ∀ id, (findInferiorId nodes.length id).run s =
    .ok (nodes.find? fun node => (s.heap node).any fun entry => entry.id = id) s

theorem Represents.lists (h : Represents s nodes) : Lists s nodes where
  follow_next := follow_segment h.segment (Nat.le_refl _)
  nodup := h.nodup
  tail := h.tail
  tail_null := h.tail_eq_none_iff
  for_each _ confined := forEachFrom_segment confined h.segment h.nodup (Nat.le_refl _)
  find _ := findFrom_segment _ h.segment (Nat.le_refl _)
  find_id _ := findFrom_segment _ h.segment (Nat.le_refl _)

/-- Whatever is added, removed and cleared, no call stops and the list holds the nodes
added and not yet removed. -/
theorem inferior_list_kept (empty : s.list = { head := none, tail := none }) {ops : List ListOp}
    (allowed : AllowedRun AllowedOp listStep (s, []) ops) :
    ∀ p ∈ trace listStep (s, []) ops, p.1 = none ∧ Lists p.2.1 p.2.2 := by
  have hstart : Represents s [] := by
    constructor
    · exact congrArg InferiorList.head empty
    · exact List.nodup_nil
    · exact congrArg InferiorList.tail empty
  refine trace_property (P := fun p => Represents p.1 p.2)
    (Q := fun p => p.1 = none ∧ Lists p.2.1 p.2.2) ?_ hstart allowed
  intro p op h ok
  obtain ⟨hstop, hafter⟩ := listStep_represents h ok
  exact ⟨hafter, hstop, hafter.lists⟩

/-- Three threads come, the second and the third go, one comes again at the address of the
second, and the list is cleared. -/
theorem inferior_list_kept_reused :
    let s : ListState := { heap := fun _ => none, list := { head := none, tail := none } }
    let ops : List ListOp :=
      [.malloc 0 ⟨7, none⟩, .addInferiorToList 0, .malloc 1 ⟨8, none⟩, .addInferiorToList 1,
        .malloc 2 ⟨9, some 5⟩, .addInferiorToList 2, .removeInferior 1, .free 1,
        .removeInferior 2, .malloc 1 ⟨10, none⟩, .addInferiorToList 1, .removeInferior 4,
        .clearInferiors]
    ∀ p ∈ trace listStep (s, []) ops, p.1 = none ∧ Lists p.2.1 p.2.2 :=
  inferior_list_kept rfl (by decide)

end InferiorLists
