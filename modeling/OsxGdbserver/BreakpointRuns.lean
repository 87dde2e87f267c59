import OsxGdbserver.BreakpointShadows
import OsxGdbserver.Lib.Simulation

/-!
# Runs of breakpoint and memory operations

What each public operation does to the list and to the target, and the system whose
inputs are these operations. An operation that ends in `error()` has jumped back to
the packet loop; the state it left is the state the next operation finds.
-/

namespace MemBreak

open Overlay

variable {σ : Type} (t : MemTarget σ)

/-- The node `set_breakpoint_at` puts at the head of the list. -/
def newBreakpoint (s : MemState σ) (addr : Int) (handler : Handler) : Breakpoint where
  node := s.nextNode
  pc := addr
  oldData := copyIn (Vector.replicate maxBreakpointLen 0) 0
    (t.readMemory addr t.breakpointLen s.target).1
  reinserting := false
  breakpointToReinsert := none
  handler := handler

theorem setBreakpointAt_run (s : MemState σ) (addr : Int) (handler : Handler)
    {data : List Byte} (h : t.breakpointData = some data) :
    (setBreakpointAt t addr handler).run s = .ok ()
      { breakpoints := newBreakpoint t s addr handler :: s.breakpoints
        nextNode := s.nextNode + 1
        target :=
          (t.writeMemory addr t.trap (t.readMemory addr t.breakpointLen s.target).2).2 } := by
  have htrap : t.trap = data := by simp [MemTarget.trap, h]
  simp [setBreakpointAt, h, readTarget, writeTarget, newBreakpoint, htrap]

theorem setBreakpointAt_null (s : MemState σ) (addr : Int) (handler : Handler)
    (h : t.breakpointData = none) :
    (setBreakpointAt t addr handler).run s =
      .error (.error "Target does not support breakpoints.") s := by
  simp [setBreakpointAt, h]

theorem saved_newBreakpoint (s : MemState σ) (addr : Int) (handler : Handler) :
    saved t (newBreakpoint t s addr handler) =
      (t.readMemory addr t.breakpointLen s.target).1 := by
  let blank : Breakpoint :=
    { newBreakpoint t s addr handler with oldData := Vector.replicate maxBreakpointLen 0 }
  have h := copyIn_saved t blank 0 (t.readMemory addr t.breakpointLen s.target).1
  rw [memcpy_all (by rw [t.readMemory_length, saved_length])] at h
  exact h

/-- No two nodes share an address, and `malloc` has given out all of them. -/
structure WellLinked (s : MemState σ) : Prop where
  nodup : (s.breakpoints.map Breakpoint.node).Nodup
  below : ∀ b ∈ s.breakpoints, b.node < s.nextNode

theorem WellLinked.fresh {s : MemState σ} (h : WellLinked s) {b : Breakpoint}
    (hb : b ∈ s.breakpoints) : b.node ≠ s.nextNode :=
  Nat.ne_of_lt (h.below b hb)

theorem WellLinked.insert {s s' : MemState σ} (h : WellLinked s) {b : Breakpoint}
    (hb : b.node = s.nextNode) (list : s'.breakpoints = b :: s.breakpoints)
    (next : s'.nextNode = s.nextNode + 1) : WellLinked s' := by
  constructor
  · rw [list, List.map_cons, List.nodup_cons]
    refine ⟨?_, h.nodup⟩
    intro hmem
    obtain ⟨c, hc, hnode⟩ := List.mem_map.mp hmem
    exact h.fresh hc (hnode.trans hb)
  · intro c hc
    rw [list] at hc
    rw [next]
    rcases List.mem_cons.mp hc with rfl | hc
    · exact hb ▸ Nat.lt_succ_self _
    · exact Nat.lt_succ_of_lt (h.below c hc)

theorem WellLinked.sublist {s s' : MemState σ} (h : WellLinked s)
    (list : s'.breakpoints.Sublist s.breakpoints) (next : s'.nextNode = s.nextNode) :
    WellLinked s' :=
  ⟨(list.map _).nodup h.nodup, fun c hc => next ▸ h.below c (list.subset hc)⟩

theorem eq_of_node_eq {bps : List Breakpoint} (h : (bps.map Breakpoint.node).Nodup)
    {b c : Breakpoint} (hb : b ∈ bps) (hc : c ∈ bps) (hn : b.node = c.node) : b = c :=
  List.inj_on_of_nodup_map h hb hc hn

theorem unlink_split {pre post : List Breakpoint} {b : Breakpoint}
    (h : ∀ c ∈ pre, c.node ≠ b.node) : unlink b.node (pre ++ b :: post) = some (pre ++ post) := by
  induction pre with
  | nil => simp [unlink]
  | cons c rest ih =>
    have hc := h c (by simp)
    simp [unlink, hc, ih fun d hd => h d (by simp [hd])]

theorem findBreakpointAt_eq_some {addr : Int} {bps : List Breakpoint} {b : Breakpoint}
    (h : findBreakpointAt addr bps = some b) :
    b.pc = addr ∧ ∃ pre post, bps = pre ++ b :: post ∧ ∀ c ∈ pre, c.pc ≠ addr := by
  obtain ⟨hb, pre, post, hsplit, hpre⟩ := List.find?_eq_some_iff_append.mp h
  exact ⟨by simpa using hb, pre, post, hsplit, by simpa using hpre⟩

theorem findBreakpointAt_eq_none {addr : Int} {bps : List Breakpoint} :
    findBreakpointAt addr bps = none ↔ ∀ b ∈ bps, b.pc ≠ addr := by
  simp [findBreakpointAt]

theorem nodup_split {pre post : List Breakpoint} {b : Breakpoint}
    (h : ((pre ++ b :: post).map Breakpoint.node).Nodup) :
    (∀ c ∈ pre, c.node ≠ b.node) ∧ (∀ c ∈ post, c.node ≠ b.node) := by
  rw [List.map_append, List.map_cons, List.nodup_append] at h
  obtain ⟨_, hpost, hapart⟩ := h
  rw [List.nodup_cons] at hpost
  refine ⟨fun c hc => hapart _ (List.mem_map_of_mem hc) _ (by simp), ?_⟩
  intro c hc heq
  exact hpost.1 (heq ▸ List.mem_map_of_mem hc)

theorem sublist_split (pre post : List Breakpoint) (b : Breakpoint) :
    (pre ++ post).Sublist (pre ++ b :: post) :=
  List.Sublist.append_left (List.sublist_cons_self b post) pre

theorem deleteBreakpointAt_none {s : MemState σ} {addr : Int}
    (h : findBreakpointAt addr s.breakpoints = none) :
    (deleteBreakpointAt t addr).run s = .ok () s := by
  simp [deleteBreakpointAt, h]

theorem deleteBreakpointAt_some {s : MemState σ} {addr : Int} {b : Breakpoint}
    {pre post : List Breakpoint} (linked : WellLinked s)
    (hsplit : s.breakpoints = pre ++ b :: post)
    (h : findBreakpointAt addr s.breakpoints = some b) :
    (deleteBreakpointAt t addr).run s = .ok ()
      { s with
        breakpoints := pre ++ post
        target := (t.writeMemory b.pc (saved t b) s.target).2 } := by
  have hpre := (nodup_split (hsplit ▸ linked.nodup)).1
  have hunlink : unlink b.node s.breakpoints = some (pre ++ post) := by
    rw [hsplit]
    exact unlink_split hpre
  simp [deleteBreakpointAt, deleteBreakpoint, h, hunlink, writeTarget]

theorem uninsertBreakpoint_some {s : MemState σ} {addr : Int} {b : Breakpoint}
    (h : findBreakpointAt addr s.breakpoints = some b) :
    (uninsertBreakpoint t addr).run s = .ok ()
      { s with
        breakpoints := assignNode b.node (fun b => { b with reinserting := true }) s.breakpoints
        target := (t.writeMemory b.pc (saved t b) s.target).2 } := by
  simp [uninsertBreakpoint, h, writeTarget, modifyNode]

theorem reinsertBreakpoint_some {s : MemState σ} {addr : Int} {b : Breakpoint}
    (h : findBreakpointAt addr s.breakpoints = some b) (hr : b.reinserting = true) :
    (reinsertBreakpoint t addr).run s = .ok ()
      { s with
        breakpoints := assignNode b.node (fun b => { b with reinserting := false }) s.breakpoints
        target := (t.writeMemory b.pc t.trap s.target).2 } := by
  simp [reinsertBreakpoint, h, hr, writeTarget, modifyNode]

theorem reinsertBreakpoint_refused {s : MemState σ} {addr : Int} {b : Breakpoint}
    (h : findBreakpointAt addr s.breakpoints = some b) (hr : b.reinserting = false) :
    (reinsertBreakpoint t addr).run s =
      .error (.error "Breakpoint already inserted at reinsert time.") s := by
  simp [reinsertBreakpoint, h, hr]

theorem readInferiorMemory_run (s : MemState σ) (a : Int) (n : Nat) :
    (readInferiorMemory t a n).run s =
      .ok (checkMemRead t a (t.readMemory a n s.target).1 s.breakpoints)
        { s with target := (t.readMemory a n s.target).2 } := by
  simp [readInferiorMemory, readTarget]

theorem writeInferiorMemory_run (s : MemState σ) (a : Int) (data : List Byte) :
    (writeInferiorMemory t a data).run s =
      .ok (t.writeMemory a (checkMemWrite t a data s.breakpoints).1 s.target).1
        { s with
          breakpoints := (checkMemWrite t a data s.breakpoints).2
          target := (t.writeMemory a (checkMemWrite t a data s.breakpoints).1 s.target).2 } := by
  simp [writeInferiorMemory, writeTarget]

/-- The memory operations leave what `f` shows of the target alone. -/
structure Spares {β : Type} (f : σ → β) : Prop where
  read : ∀ a n s, f (t.readMemory a n s).2 = f s
  write : ∀ a bs s, f (t.writeMemory a bs s).2 = f s

namespace Spares

variable {t} {β : Type} {f : σ → β}

theorem readTarget (h : Spares t f) (a : Int) (n : Nat) :
    Proc.Keeps (fun s : MemState σ => f s.target) (MemBreak.readTarget t a n) :=
  .modifyGet fun s => h.read a n s.target

theorem writeTarget (h : Spares t f) (a : Int) (bs : List Byte) :
    Proc.Keeps (fun s : MemState σ => f s.target) (MemBreak.writeTarget t a bs) :=
  .modifyGet fun s => h.write a bs s.target

theorem setBreakpointAt (h : Spares t f) (addr : Int) (handler : Handler) :
    Proc.Keeps (fun s : MemState σ => f s.target) (MemBreak.setBreakpointAt t addr handler) := by
  unfold MemBreak.setBreakpointAt
  cases t.breakpointData with
  | none => exact .throw _
  | some data =>
    exact .bind (h.readTarget _ _) fun _ => .bind (h.writeTarget _ _) fun _ => .modify fun _ => rfl

theorem deleteBreakpointAt (h : Spares t f) (addr : Int) :
    Proc.Keeps (fun s : MemState σ => f s.target) (MemBreak.deleteBreakpointAt t addr) := by
  have hdelete : ∀ bp, Proc.Keeps (fun s : MemState σ => f s.target) (deleteBreakpoint t bp) := by
    intro bp s
    unfold deleteBreakpoint
    rw [EStateM.run_bind, EStateM.run_get]
    dsimp only
    split
    · exact h.write bp.pc (saved t bp) s.target
    · split <;> rfl
  refine .bind .get fun s => ?_
  cases findBreakpointAt addr s.breakpoints with
  | none => exact .pure _
  | some bp => exact hdelete bp

theorem readInferiorMemory (h : Spares t f) (addr : Int) (len : Nat) :
    Proc.Keeps (fun s : MemState σ => f s.target) (MemBreak.readInferiorMemory t addr len) :=
  .bind (h.readTarget _ _) fun _ => .bind .get fun _ => .pure _

theorem writeInferiorMemory (h : Spares t f) (addr : Int) (data : List Byte) :
    Proc.Keeps (fun s : MemState σ => f s.target)
      (MemBreak.writeInferiorMemory t addr data) := fun s => by
  rw [writeInferiorMemory_run]
  exact h.write _ _ _

end Spares

inductive MemOp
  | setBreakpointAt (addr : Int) (handler : Handler)
  | deleteBreakpointAt (addr : Int)
  | uninsertBreakpoint (addr : Int)
  | reinsertBreakpoint (addr : Int)
  | readInferiorMemory (addr : Int) (len : Nat)
  | writeInferiorMemory (addr : Int) (data : List Byte)

/-- One operation; only a read has a reply. -/
def memStep (s : MemState σ) : MemOp → Option (List Byte) × MemState σ
  | .setBreakpointAt addr handler => (none, Proc.final ((setBreakpointAt t addr handler).run s))
  | .deleteBreakpointAt addr => (none, Proc.final ((deleteBreakpointAt t addr).run s))
  | .uninsertBreakpoint addr => (none, Proc.final ((uninsertBreakpoint t addr).run s))
  | .reinsertBreakpoint addr => (none, Proc.final ((reinsertBreakpoint t addr).run s))
  | .readInferiorMemory addr len =>
    let r := (readInferiorMemory t addr len).run s
    (Proc.value r, Proc.final r)
  | .writeInferiorMemory addr data =>
    (none, Proc.final ((writeInferiorMemory t addr data).run s))

end MemBreak
