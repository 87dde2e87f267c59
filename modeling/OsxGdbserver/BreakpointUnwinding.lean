import OsxGdbserver.BreakpointOverlaps

/-!
# Setting breakpoints and deleting them in reverse

The saved bytes of a later breakpoint may hold the traps of earlier ones. The list is
newest first, so `check_mem_read` puts the saved bytes back in the order in which the
traps went in, and `find_breakpoint_at` finds the newest of several breakpoints at one
address.
-/

namespace MemBreak

open Overlay Simulation

variable {σ : Type} (t : MemTarget σ) {mem : σ → Memory}

/-- The list and the memory: what reads and deletions depend on. -/
def listAndMemory (mem : σ → Memory) (s : MemState σ) : List Breakpoint × Memory :=
  (s.breakpoints, mem s.target)

/-- Every read of a range below 2^32 returns the bytes of `init`. -/
def ReadsAs (init : Memory) (s : MemState σ) : Prop :=
  ∀ a n, InRange a n → n < 2 ^ 31 →
    Proc.value ((readInferiorMemory t a n).run s) = some (load init a n)

def setting (p : Int × Handler) : MemOp := .setBreakpointAt p.1 p.2

def deleting (p : Int × Handler) : MemOp := .deleteBreakpointAt p.1

/-- Without a trap instruction no breakpoint was ever set. -/
def Supported (s : MemState σ) : Prop := t.breakpointData = none → s.breakpoints = []

variable {t}

theorem readsAs_of_clientView (rel : Reliable t mem) {s : MemState σ} {init : Memory}
    (h : clientView t s.breakpoints (mem s.target) = init) : ReadsAs t init s := by
  intro a n hrange hn
  rw [readInferiorMemory_value rel s hrange hn, h]

theorem listAndMemory_setting (rel : Reliable t mem) (s : MemState σ) {p : Int × Handler}
    (hrange : InRange p.1 t.breakpointLen) {data : List Byte}
    (hdata : t.breakpointData = some data) :
    listAndMemory mem (memStep t s (setting p)).2 =
      (newBreakpoint t s p.1 p.2 :: s.breakpoints, store (mem s.target) p.1 t.trap) := by
  have hwrite := rel.write_mem p.1 t.trap
    (t.readMemory p.1 t.breakpointLen s.target).2 hrange
  rw [rel.read_mem _ _ _ hrange] at hwrite
  simp only [setting, memStep, setBreakpointAt_run t s p.1 p.2 hdata, Proc.final_ok,
    listAndMemory, hwrite]

theorem listAndMemory_setting_null (mem : σ → Memory) (s : MemState σ) (p : Int × Handler)
    (hdata : t.breakpointData = none) :
    listAndMemory mem (memStep t s (setting p)).2 = listAndMemory mem s := by
  simp [setting, memStep, setBreakpointAt_null t s p.1 p.2 hdata]

/-- The saved bytes go back over the trap that replaced them. -/
theorem store_saved_trap (rel : Reliable t mem) (s : MemState σ) {addr : Int}
    (handler : Handler) (hrange : InRange addr t.breakpointLen) :
    store (store (mem s.target) addr t.trap) addr
      (saved t (newBreakpoint t s addr handler)) = mem s.target := by
  rw [saved_of_reliable rel s handler hrange]
  exact store_store_load (mem s.target) addr t.trap

theorem clientView_setting (rel : Reliable t mem) (s : MemState σ) {p : Int × Handler}
    (hrange : InRange p.1 t.breakpointLen) :
    clientView t (memStep t s (setting p)).2.breakpoints
        (mem (memStep t s (setting p)).2.target) =
      clientView t s.breakpoints (mem s.target) := by
  cases hdata : t.breakpointData with
  | none =>
    have hview := Prod.mk.inj (listAndMemory_setting_null mem s p hdata)
    rw [hview.1, hview.2]
  | some data =>
    have hview := Prod.mk.inj (listAndMemory_setting rel s hrange hdata)
    rw [hview.1, hview.2, clientView, List.foldl_cons]
    exact congrArg (clientView t s.breakpoints) (store_saved_trap rel s p.2 hrange)

theorem supported_setting {s : MemState σ} (h : Supported t s) (p : Int × Handler) :
    Supported t (memStep t s (setting p)).2 := by
  intro hdata
  have hview := listAndMemory_setting_null (fun _ _ => 0) s p hdata
  exact (congrArg Prod.fst hview).trans (h hdata)

/-- `delete_breakpoint_at` of the newest breakpoint. -/
theorem deleteBreakpointAt_head {s : MemState σ} {b : Breakpoint} {rest : List Breakpoint}
    (h : s.breakpoints = b :: rest) :
    (deleteBreakpointAt t b.pc).run s = .ok ()
      { s with
        breakpoints := rest
        target := (t.writeMemory b.pc (saved t b) s.target).2 } := by
  simp [deleteBreakpointAt, deleteBreakpoint, findBreakpointAt, h, unlink, writeTarget]

/-- Deleting undoes setting, in every state that shows the same list and memory. -/
theorem listAndMemory_deleting (rel : Reliable t mem) {s s' : MemState σ} {p : Int × Handler}
    (supported : Supported t s) (hrange : InRange p.1 t.breakpointLen)
    (same : listAndMemory mem s' = listAndMemory mem (memStep t s (setting p)).2) :
    listAndMemory mem (memStep t s' (deleting p)).2 = listAndMemory mem s := by
  cases hdata : t.breakpointData with
  | none =>
    rw [listAndMemory_setting_null mem s p hdata] at same
    have hempty : s'.breakpoints = [] := (congrArg Prod.fst same).trans (supported hdata)
    have hnone : findBreakpointAt p.1 s'.breakpoints = none := by
      rw [hempty]
      rfl
    simpa [deleting, memStep, deleteBreakpointAt_none t hnone] using same
  | some data =>
    rw [listAndMemory_setting rel s hrange hdata] at same
    obtain ⟨hlist, hmem⟩ := Prod.mk.inj same
    have hrun := deleteBreakpointAt_head (t := t) hlist
    have hback := rel.write_mem p.1 (saved t (newBreakpoint t s p.1 p.2)) s'.target
      (by simpa using hrange)
    rw [hmem, store_saved_trap rel s p.2 hrange] at hback
    simp only [deleting, memStep, listAndMemory]
    rw [show p.1 = (newBreakpoint t s p.1 p.2).pc from rfl, hrun, Proc.final_ok]
    exact congrArg (Prod.mk s.breakpoints) hback

theorem clientView_settings (rel : Reliable t mem) {s : MemState σ}
    {sets : List (Int × Handler)} (hrange : ∀ p ∈ sets, InRange p.1 t.breakpointLen)
    (empty : s.breakpoints = []) :
    clientView t (finalState (memStep t) s (sets.map setting)).breakpoints
      (mem (finalState (memStep t) s (sets.map setting)).target) = mem s.target := by
  apply finalState_kept_by (P := fun s' : MemState σ =>
    clientView t s'.breakpoints (mem s'.target) = mem s.target)
  · intro s' op hop h
    obtain ⟨p, hp, rfl⟩ := List.mem_map.mp hop
    exact (clientView_setting rel s' (hrange p hp)).trans h
  · rw [empty]
    rfl

/-- However the breakpoints overlap, reads never show them, and deleting them in the
reverse order takes back one after the other. -/
theorem stacked_breakpoints_unwind (rel : Reliable t mem) {s : MemState σ}
    (empty : s.breakpoints = []) (sets : List (Int × Handler))
    (hrange : ∀ p ∈ sets, InRange p.1 t.breakpointLen) :
    let planted := finalState (memStep t) s (sets.map setting)
    ReadsAs t (mem s.target) planted ∧
      (∀ kept gone, sets = kept ++ gone →
        let s' := finalState (memStep t) planted (gone.reverse.map deleting)
        ReadsAs t (mem s.target) s' ∧
          listAndMemory mem s' =
            listAndMemory mem (finalState (memStep t) s (kept.map setting))) ∧
      listAndMemory mem (finalState (memStep t) planted (sets.reverse.map deleting)) =
        ([], mem s.target) := by
  intro planted
  have hback : ∀ kept gone, sets = kept ++ gone →
      listAndMemory mem (finalState (memStep t) planted (gone.reverse.map deleting)) =
        listAndMemory mem (finalState (memStep t) s (kept.map setting)) := by
    rintro kept gone rfl
    have hgone : ∀ p ∈ gone, InRange p.1 t.breakpointLen := fun p hp => hrange p (by simp [hp])
    exact view_undone (P := Supported t) (fun _ p h => supported_setting h p)
      (fun _ _ _ supported ok same => listAndMemory_deleting rel supported ok same)
      (fun _ => empty) hgone rfl
  refine ⟨readsAs_of_clientView rel (clientView_settings rel hrange empty), ?_, ?_⟩
  · intro kept gone hsplit s'
    have hsame := hback kept gone hsplit
    constructor
    · apply readsAs_of_clientView rel
      have hrangeKept : ∀ p ∈ kept, InRange p.1 t.breakpointLen := fun p hp =>
        hrange p (by simp [hsplit, hp])
      have hkept := clientView_settings rel hrangeKept empty
      obtain ⟨hlist, hmem⟩ := Prod.mk.inj hsame
      rwa [hlist, hmem]
    · exact hsame
  · rw [hback [] sets rfl]
    simp [listAndMemory, finalState, empty]

/-- Two overlapping breakpoints, and a third at the address of the first. -/
theorem stacked_breakpoints_unwind_thrice :
    let sets := [(4096, Handler.null), (4098, .null), (4096, .null)]
    let planted := finalState (memStep ppcRam) blankState (sets.map setting)
    ReadsAs ppcRam (fun _ => 0) planted ∧
      listAndMemory id (finalState (memStep ppcRam) planted (sets.reverse.map deleting)) =
        ([], fun _ => 0) := by
  have h := stacked_breakpoints_unwind (ramTarget_reliable ppcTrap (by decide)) (s := blankState)
    rfl [(4096, .null), (4098, .null), (4096, .null)] (by decide)
  exact ⟨h.1, h.2.2⟩

end MemBreak
