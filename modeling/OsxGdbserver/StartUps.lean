import OsxGdbserver.ClientMemory

/-!
# What start-up leaves behind

The process that has been launched is let run up to its entry point, with a breakpoint of the
server's own. When the packet loop begins that breakpoint is gone, and where the process has
stored nothing itself memory is as it was when the server got hold of it.
-/

namespace Gdbserver

open Remote CString Overlay Simulation Ppc

variable {σ : Type} {k : Kernel σ} {memory : σ → MemBreak.Memory} {text : Int → Prop}
  {task : Port} {s s' : Server σ} {t : ThreadInfo} {rs : List (List Byte)} {pid ep : Int}
  {plain : MemBreak.Memory}

/-- No breakpoint is listed, and `text` holds what `plain` holds. -/
structure Unmarked (memory : σ → MemBreak.Memory) (text : Int → Prop) (plain : MemBreak.Memory)
    (s : Server σ) : Prop where
  empty : s.breakpoints = []
  same : ∀ x, text x → memory s.os x = plain x

theorem Unmarked.of_view (h : Unmarked memory text plain s)
    (view : memoryView memory text s' = memoryView memory text s) :
    Unmarked memory text plain s' := by
  simp only [memoryView, Prod.mk.injEq] at view
  obtain ⟨hbreakpoints, -, -, hmemory⟩ := view
  exact ⟨hbreakpoints.trans h.empty,
    fun x hx => (congrFun hmemory ⟨x, hx⟩).trans (h.same x hx)⟩

theorem Unmarked.keeps {α : Type} (h : Unmarked memory text plain s) {p : Proc (Server σ) α}
    (keeps : Proc.Keeps (memoryView memory text) p) :
    Proc.Ends p (fun _ s' => Unmarked memory text plain s') (fun _ _ => True) s :=
  (keeps.ends s).imp (fun _ _ view => h.of_view view) fun _ _ _ => trivial

theorem addProcess_unmarked (laws : ProcessMemory k memory text)
    (h : Unmarked memory text plain s) :
    Proc.Ends (addProcess k pid) (fun _ s' => Unmarked memory text plain s') (fun _ _ => True)
      s := by
  let s₁ : Server σ := { s with os := (k.taskForPid pid s.os).2 }
  have h₁ : Unmarked memory text plain s₁ :=
    ⟨h.empty, fun x hx => (congrFun (laws.taskForPid pid s.os) x).trans (h.same x hx)⟩
  simp only [addProcess, callKernel, Proc.Ends.bind_iff, Proc.Ends.modifyGet_iff]
  cases (k.taskForPid pid s.os).1 with
  | none => trivial
  | some task =>
    have h₂ : Unmarked memory text plain { s₁ with currentTask := some task } :=
      ⟨h₁.empty, h₁.same⟩
    rw [Proc.Ends.bind_iff, Proc.Ends.modify_iff, Proc.Ends.bind_iff]
    refine (h₂.keeps ((asideTarget_memoryView laws).darwinGetFirstThread (some task))).imp ?_
      fun _ _ _ => trivial
    intro _ s' hkept
    rw [addThread, Proc.Ends.modify_iff]
    exact ⟨hkept.empty, hkept.same⟩

theorem startInferior_unmarked (laws : ProcessMemory k memory text) (empty : s.breakpoints = []) :
    Proc.Ends (startInferior k)
      (fun _ s' => Unmarked memory text (memory (k.forkExec s.os).2) s') (fun _ _ => True) s := by
  unfold startInferior
  rw [Proc.Ends.bind_iff]
  simp only [darwinCreateInferior, callKernel, Proc.Ends.bind_iff, Proc.Ends.modifyGet_iff]
  cases (k.forkExec s.os).1 with
  | none => trivial
  | some pid =>
    let s₁ : Server σ := { s with os := (k.forkExec s.os).2 }.record (.launch pid)
    have h₁ : Unmarked memory text (memory (k.forkExec s.os).2) s₁ := ⟨empty, fun _ _ => rfl⟩
    rw [Proc.Ends.bind_iff, Proc.Ends.modify_iff, Proc.Ends.bind_iff]
    refine (addProcess_unmarked laws h₁).imp ?_ fun _ _ _ => trivial
    intro _ s' hkept
    rw [Proc.Ends.pure_iff, Proc.Ends.modify_iff]
    have h₂ : Unmarked memory text (memory (k.forkExec s.os).2) { s' with signalPid := pid } :=
      ⟨hkept.empty, hkept.same⟩
    exact h₂.keeps (asideTarget_memoryView laws).mywait

theorem attachInferior_unmarked (laws : ProcessMemory k memory text)
    (empty : s.breakpoints = []) :
    Proc.Ends (attachInferior k pid)
      (fun result s' => 0 ≤ result → Unmarked memory text (memory s.os) s')
      (fun _ _ => True) s := by
  let s₁ : Server σ :=
    { s.record (.ptrace .attach pid 0 s.os) with os := (k.ptrace .attach pid 0 s.os).2 }
  have h₁ : Unmarked memory text (memory s.os) s₁ :=
    ⟨empty, laws.ptrace .attach pid 0 s.os⟩
  simp only [attachInferior, darwinAttach, ptrace, callKernel, Proc.Ends.bind_iff,
    Proc.Ends.modify_iff, Proc.Ends.modifyGet_iff]
  split
  · rw [Proc.Ends.bind_iff]
    refine (addProcess_unmarked laws h₁).imp ?_ fun _ _ _ => trivial
    intro _ s' hkept
    rw [Proc.Ends.pure_iff, if_neg (by simp), Proc.Ends.bind_iff, Proc.Ends.modify_iff,
      Proc.Ends.bind_iff]
    have h₂ : Unmarked memory text (memory s.os) { s' with signalPid := pid } :=
      ⟨hkept.empty, hkept.same⟩
    refine (h₂.keeps (asideTarget_memoryView laws).mywait).imp ?_ fun _ _ _ => trivial
    exact fun _ _ hkept _ => hkept
  · simp

/-- The breakpoint at the entry point. -/
theorem setBreakpointAt_hides (laws : ProcessMemory k memory text)
    (h : Unmarked memory text plain s) (serving : Serving rs s t)
    (current : s.currentTask = some task) (inside : MemBreak.InRange ep 4)
    (inText : ∀ x, InSpan ep 4 x → text x) (can : s.CanPlant k ep) :
    ∃ m : MemBreak.MemState (Darwin.TargetState σ),
      (MemBreak.setBreakpointAt (Darwin.memTarget k) ep .null).run (s.memState t) = .ok () m ∧
        Hides k memory text task (s.putMemory m) t ∧
        (s.putMemory m).clientMemory k memory = memory s.os ∧
        ∃ b, m.breakpoints = [b] ∧ b.pc = ep := by
  have hbare : MemBreak.Shadows (Darwin.taskTarget k task) (fun x => memory x.os)
      (s.memState t) (memory s.os) := MemBreak.shadows_empty h.empty
  have hfree : ∀ b ∈ (s.memState t).breakpoints,
      Apart ep (Darwin.taskTarget k task).breakpointLen b.pc
        (Darwin.taskTarget k task).breakpointLen := by
    intro b hb
    rw [Server.memState, h.empty] at hb
    cases hb
  let m := Proc.final ((MemBreak.setBreakpointAt (Darwin.taskTarget k task) ep .null).run
    (s.memState t))
  have hshadows : MemBreak.Shadows (Darwin.taskTarget k task) (fun x => memory x.os) m
      (memory s.os) := by
    obtain ⟨hreads, hwrites⟩ := laws.plants (t := t) inside current can
    exact MemBreak.shadows_setBreakpointAt hbare .null inside hreads hwrites hfree
  have hset := MemBreak.setBreakpointAt_run (Darwin.taskTarget k task) (s.memState t) ep .null rfl
  obtain ⟨b, honly, hpc⟩ : ∃ b, m.breakpoints = [b] ∧ b.pc = ep := by
    rw [show m = _ from congrArg Proc.final hset, Server.memState, h.empty]
    exact ⟨_, rfl, rfl⟩
  have hinText : ∀ c ∈ m.breakpoints, ∀ x,
      MemBreak.Covers (Darwin.taskTarget k task) c x → text x := by
    intro c hc x hx
    rw [honly, List.mem_singleton] at hc
    rw [MemBreak.Covers, hc, hpc] at hx
    exact inText x hx
  have serving' : Serving rs (s.putMemory m) t := serving
  obtain ⟨hides, hplain⟩ := Hides.of_shadows hshadows serving' current rfl rfl rfl hinText
  refine ⟨m, ?_, hides, hplain, b, honly, hpc⟩
  rw [(Darwin.setBreakpointAt_agree k ep .null (s.memState t) current).1, hset]
  exact congrArg (EStateM.Result.ok ()) (congrArg Proc.final hset).symm

/-- The breakpoint at the entry point goes again. -/
theorem Hides.cleared (laws : ProcessMemory k memory text) (h : Hides k memory text task s t)
    {b : MemBreak.Breakpoint} (only : s.breakpoints = [b]) (place : b.pc = ep)
    (can : s.CanClear k ep) :
    ∃ s', (withMemory (MemBreak.deleteBreakpointAt (Darwin.memTarget k) ep)).run s = .ok () s' ∧
      s'.breakpoints = [] ∧ memory s'.os = s.clientMemory k memory := by
  obtain ⟨rs, serving⟩ := h.serving
  obtain ⟨m, hrun, hlist⟩ := MemBreak.deleteBreakpointAt_ok (t := Darwin.taskTarget k task)
    h.shadows.linked ep
  have hshadows := MemBreak.shadows_deleteBreakpointAt h.shadows ep
    (laws.clears h.shadows.inRange h.current can)
  rw [hrun, Proc.final_ok] at hshadows
  have hdelete := (Darwin.deleteBreakpointAt_agree k ep (s.memState t) h.current).1
  rw [hrun] at hdelete
  have hempty : m.breakpoints = [] := by
    rw [hlist, Server.memState, only]
    exact List.eraseP_cons_of_pos (decide_eq_true place)
  refine ⟨s.putMemory m, ?_, hempty, ?_⟩
  · rw [withMemory_run serving.live, hdelete]
  · have hplain := hshadows.clientView_eq
    rw [hempty] at hplain
    exact hplain

/-- The process runs up to the breakpoint at the entry point. -/
def runToBreakpoint (k : Kernel σ) (ep : Int) : Proc (Server σ) Unit := do
  withMemory (MemBreak.setBreakpointAt (Darwin.memTarget k) ep .null)
  myresume k false 0
  mywait k false

/-- The accesses to memory on the way to the entry point succeed. -/
def ReachesEntry (k : Kernel σ) (ep : Int) (s : Server σ) : Prop :=
  s.CanPlant k ep ∧ ∀ s', (runToBreakpoint k ep).run s = .ok () s' → s'.CanClear k ep

/-- The breakpoint at the entry point is there while the process runs, and gone after that. -/
theorem runToEntryPoint_unmarked (laws : ProcessMemory k memory text)
    (h : Unmarked memory text plain s) (serving : Serving rs s t)
    (current : s.currentTask = some task) (inside : MemBreak.InRange ep 4)
    (inText : ∀ x, InSpan ep 4 x → text x) (reaches : ReachesEntry k ep s) (nonzero : ep ≠ 0) :
    Proc.Ends (runToEntryPoint k ep) (fun _ s' => Unmarked memory text plain s')
      (fun _ _ => True) s := by
  obtain ⟨m, hset, hides, hplain, b, honly, hpc⟩ :=
    setBreakpointAt_hides laws h serving current inside inText reaches.1
  obtain ⟨rs₁, h₁⟩ := hides.serving
  have hplanted : (withMemory (MemBreak.setBreakpointAt (Darwin.memTarget k) ep .null)).run s =
      .ok () (s.putMemory m) := by
    rw [withMemory_run serving.live, hset]
  have hresume := myresume_run (k := k) h₁.live h₁.nodup h₁.id_eq false 0
  let s₂ := (s.putMemory m).resumed k (resumeRequest false) t.pid 0
  have h₂ : Serving rs₁ s₂ (setValid false t) := h₁.resumed _ _ _
  have hview₂ : memoryView memory text s₂ = memoryView memory text (s.putMemory m) := by
    have hkept := (asideTarget_memoryView laws).myresume false 0 (s.putMemory m)
    rwa [hresume, Proc.final_ok] at hkept
  have hcan : Proc.Ends (mywait k false) (fun _ s' => s'.CanClear k ep) (fun _ _ => True) s₂ := by
    have hclears : Proc.Ends (runToBreakpoint k ep) (fun _ s' => s'.CanClear k ep)
        (fun _ _ => True) s := .of_returned fun _ => reaches.2
    rwa [runToBreakpoint, Proc.Ends.bind_iff, Proc.Ends.of_run hplanted, Proc.Ends.bind_iff,
      Proc.Ends.of_run hresume] at hclears
  rw [runToEntryPoint, if_neg nonzero, Proc.Ends.bind_iff, Proc.Ends.of_run hplanted,
    Proc.Ends.bind_iff, Proc.Ends.of_run hresume, Proc.Ends.bind_iff]
  refine (Proc.Ends.and (mywait_starts h₂ false) (Proc.Ends.and hcan
    ((asideTarget_memoryView laws).mywait.ends s₂))).imp ?_ fun _ _ _ => trivial
  rintro _ s₃ ⟨⟨t₃, h₃⟩, can, hview⟩
  obtain ⟨hides₃, hclient⟩ := hides.ran h₃ (fun _ hx => hx) (hview.trans hview₂)
  obtain ⟨s₄, hdelete, hempty, hmemory⟩ := hides₃.cleared laws
    (congrArg Prod.fst (hview.trans hview₂) |>.trans honly) hpc can
  rw [Proc.Ends.of_run hdelete]
  constructor
  · exact hempty
  · intro x hx
    calc memory s₄.os x = s₃.clientMemory k memory x := congrFun hmemory x
      _ = (s.putMemory m).clientMemory k memory x := hclient x hx
      _ = memory s.os x := congrFun hplain x
      _ = plain x := h.same x hx

/-- The memory of the process as the server gets hold of it. -/
def Server.loaded (k : Kernel σ) (memory : σ → MemBreak.Memory) (s : Server σ) :
    MemBreak.Memory :=
  memory (if s.attached then s.os else (k.forkExec s.os).2)

/-- The entry point is in `text`, and a program that is started gets there. -/
structure EntryIn (k : Kernel σ) (text : Int → Prop) (ep : Int) (s : Server σ) : Prop where
  inside : ep ≠ 0 → MemBreak.InRange ep 4
  inText : ep ≠ 0 → ∀ x, InSpan ep 4 x → text x
  reaches : ep ≠ 0 → s.attached = false → ∀ s', (startInferior k).run s = .ok () s' →
    ReachesEntry k ep s'

theorem prepareInferior_unmarked (laws : ProcessMemory k memory text) (fresh : Fresh s)
    (entry : EntryIn k text ep s) :
    Proc.Ends (prepareInferior k ep pid)
      (fun _ s' => Unmarked memory text (s.loaded k memory) s') (fun _ _ => True) s := by
  rw [prepareInferior, Proc.Ends.bind_iff, Proc.Ends.get_iff, Server.loaded]
  split
  · rw [Proc.Ends.bind_iff]
    refine (attachInferior_unmarked laws fresh.breakpoints).imp ?_ fun _ _ _ => trivial
    intro result s' hunmarked
    split
    · trivial
    · rename_i hresult
      exact hunmarked (Int.not_lt.mp hresult)
  · rw [Proc.Ends.bind_iff]
    rename_i attached
    have hreaches : Proc.Ends (startInferior k) (fun _ s' => ep ≠ 0 → ReachesEntry k ep s')
        (fun _ _ => True) s := .of_returned fun _ s' hrun nonzero =>
      entry.reaches nonzero (Bool.eq_false_iff.mpr attached) s' hrun
    have hstarted := Proc.Ends.and (startInferior_starts (k := k) fresh.idle)
      (Proc.Ends.and startInferior_task (Proc.Ends.and hreaches
        (startInferior_unmarked laws fresh.breakpoints)))
    refine hstarted.imp ?_ fun _ _ _ => trivial
    rintro _ s' ⟨⟨t, serving⟩, found, reaches, hunmarked⟩
    obtain ⟨task, current⟩ := Option.ne_none_iff_exists'.mp found
    by_cases hzero : ep = 0
    · rw [runToEntryPoint, if_pos hzero]
      exact hunmarked
    · exact runToEntryPoint_unmarked laws hunmarked serving current (entry.inside hzero)
        (entry.inText hzero) (reaches hzero) hzero

theorem start_up_unmarked (laws : ProcessMemory k memory text) (fresh : Fresh s)
    (entry : EntryIn k text ep s) (prepared : (prepareInferior k ep pid).run s = .ok () s') :
    Unmarked memory text (s.loaded k memory) s' :=
  (prepareInferior_unmarked laws fresh entry).returned prepared

theorem Unmarked.bare (h : Unmarked memory text plain s) (serving : Serving rs s t)
    (current : s.currentTask = some task) :
    Hides k memory text task s t ∧ ∀ x, text x → s.clientMemory k memory x = plain x := by
  obtain ⟨hides, hmemory⟩ := Hides.bare (k := k) serving current h.empty
  exact ⟨hides, fun x hx => (congrFun hmemory x).trans (h.same x hx)⟩

namespace Request

/-- What is read is part of `text`. -/
def ReadsText (text : Int → Prop) : Request → Prop
  | .read addr len => ∀ x, InSpan (digitsValue addr) (digitsValue len) x → text x
  | _ => True

theorem plainStep_congr {r : Request} {m m' : MemBreak.Memory} (reads : r.ReadsText text)
    (same : ∀ x, text x → m x = m' x) :
    (r.plainStep m).1 = (r.plainStep m').1 ∧
      ∀ x, text x → (r.plainStep m).2 x = (r.plainStep m').2 x := by
  cases r with
  | read addr len =>
    have hload : load m (digitsValue addr) (digitsValue len) =
        load m' (digitsValue addr) (digitsValue len) :=
      load_eq_iff.mpr fun x hx => same x (reads x hx)
    exact ⟨congrArg (fun bytes => some (convertIntToAscii bytes)) hload, same⟩
  | write addr len data => exact ⟨rfl, fun x hx => store_congr fun _ => same x hx⟩
  | insert addr | remove addr | other body => exact ⟨rfl, same⟩

end Request

/-- `text` is as in `m` for the client, who has been sent `reply` if that is one. -/
structure Agrees (k : Kernel σ) (memory : σ → MemBreak.Memory) (text : Int → Prop)
    (after : Option Stop × Server σ) (plain : Option (List Byte) × MemBreak.Memory) : Prop where
  reply : ∀ reply, plain.1 = some reply → after.2.replies.head? = some reply
  same : ∀ x, text x → after.2.clientMemory k memory x = plain.2 x

theorem Request.Answered.agrees {r : Request} {after : Option Stop × Server σ}
    (answered : r.Answered k memory text s after.2) (reads : r.ReadsText text)
    (same : ∀ x, text x → s.clientMemory k memory x = plain x) :
    Agrees k memory text after (r.plainStep plain) := by
  obtain ⟨hreply, hsame⟩ := Request.plainStep_congr reads same
  cases r with
  | read addr len | write addr len data | insert addr | remove addr =>
    obtain ⟨hreplies, hclient⟩ := answered
    constructor
    · rintro reply told
      cases hreply.trans told
      rw [hreplies]
      rfl
    · intro x hx
      rw [hclient]
      exact hsame x hx
  | other body =>
    constructor
    · rintro reply ⟨⟩
    · exact fun x hx => (answered x fun _ => hx).trans (same x hx)

/-- From start-up on, the client who keeps to the text of the program deals with the program
as it was loaded: the breakpoint at the entry point, its own and the runs in between do not
show. -/
theorem program_as_loaded (laws : ProcessMemory k memory text) (host : Signals.Host)
    (fresh : Fresh s) (entry : EntryIn k text ep s)
    (prepared : (prepareInferior k ep pid).run s = .ok () s') {requests : List Request}
    (sound : AllowedRun (fun s r => r.Sound text s ∧ r.Reaches k s ∧ r.ReadsText text)
      (requestStep k host) s' requests) :
    List.Forall₂ (Agrees k memory text) (trace (requestStep k host) s' requests)
      (trace Request.plainStep (s.loaded k memory) requests) := by
  have reachable : Reachable k host s' := .start ep pid fresh prepared
  obtain ⟨rs, t, serving⟩ := reachable.serving
  obtain ⟨task, current⟩ := reachable.currentTask
  have hunmarked := start_up_unmarked laws fresh entry prepared
  obtain ⟨hstart, hsame⟩ := hunmarked.bare (k := k) serving current
  refine trace_forall₂ (R := fun s m => (∃ t, Hides k memory text task s t) ∧
    ∀ x, text x → s.clientMemory k memory x = m x) ?_ ⟨⟨t, hstart⟩, hsame⟩ sound
  rintro s m r ⟨⟨t, hides⟩, hsame⟩ ⟨hsound, hreaches, hreads⟩
  obtain ⟨t', hides', hanswered⟩ := hides.request host laws hsound hreaches
  have hagrees : Agrees k memory text (requestStep k host s r) (r.plainStep m) :=
    hanswered.agrees hreads hsame
  exact ⟨hagrees, ⟨t', hides'⟩, hagrees.same⟩

/-- The server before `main`, for a program that is sevens all over and a client that will send
`chunks`. -/
def beforeSevens (chunks : List (List Byte)) : Server ((Port → Machine) × MemBreak.Memory) :=
  initial (fun _ => blankMachine, fun _ => 7) chunks

/-- It is let run up to its entry point. -/
def afterSevens (chunks : List (List Byte)) : Server ((Port → Machine) × MemBreak.Memory) :=
  Proc.final ((prepareInferior obligingMachine 16 0).run (beforeSevens chunks))

theorem entryIn_sixteen (s : Server ((Port → Machine) × MemBreak.Memory)) :
    EntryIn obligingMachine (fun _ => True) 16 s where
  inside _ := by decide
  inText _ _ _ := trivial
  reaches _ _ _ _ := ⟨⟨fun _ _ => rfl, fun _ _ _ _ => rfl⟩, fun _ _ _ _ _ _ => rfl⟩

/-- The breakpoint of the client is where that of the server has been. -/
theorem program_as_loaded_watched :
    List.Forall₂ (Agrees obligingMachine Prod.snd fun _ => True)
      (trace (requestStep obligingMachine Signals.darwin) (afterSevens []) watched)
      (trace Request.plainStep (fun _ => 7) watched) := by
  obtain ⟨h10, he, h4, hdata⟩ := digits_watched
  have hfresh : Fresh (beforeSevens []) := fresh_initial _ []
  have hprepared : (prepareInferior obligingMachine 16 0).run (beforeSevens []) =
      .ok () (afterSevens []) := Proc.eq_ok_of_value (by decide +kernel)
  have hreaches := obligingMachine_reaches
  have hentry := entryIn_sixteen (beforeSevens [])
  have hunmarked := start_up_unmarked obligingMachine_processMemory hfresh hentry hprepared
  refine program_as_loaded obligingMachine_processMemory Signals.darwin hfresh hentry hprepared ?_
  refine ⟨⟨⟨by decide, h10, by decide, fun _ _ => trivial, ?_⟩, hreaches _ _, trivial⟩,
    ⟨⟨he, h4, hdata, by decide⟩, hreaches _ _, trivial⟩,
    ⟨⟨h10, h4, by decide⟩, hreaches _ _, fun _ _ => trivial⟩,
    ⟨⟨by decide +kernel, by decide +kernel⟩, hreaches _ _, trivial⟩,
    ⟨⟨by decide, h10, by decide⟩, hreaches _ _, trivial⟩, trivial⟩
  rw [hunmarked.empty]
  simp

end Gdbserver
