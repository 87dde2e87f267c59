import OsxGdbserver.PacketInvariants

/-!
# Resuming and waiting in turns

The calls the server makes about its process follow one another in a fixed order: it is
started or attached to first, a resume is followed by a wait before anything else is done,
registers are transferred and signals sent while the process is stopped, and after `PT_KILL`
or `PT_DETACH` nothing is asked of it any more, but for the `waitpid` that reaps it. Every
call is for the one process, apart from the probe of `T`, which may ask for any.
-/

namespace Gdbserver

open Remote CString Ppc

variable {σ α : Type} {k : Kernel σ} {host : Signals.Host} {s : Server σ} {t : ThreadInfo}
  {rs : List (List Byte)} {pid : Int}

/-- The process, as far as the calls of the server tell. -/
inductive Phase
  | absent | running | stopped | released
  deriving DecidableEq, Repr

/-- A resume or the end of the server's hold, if the process it is made for is `pid`. -/
def requested (pid : Int) : PtraceRequest → Int → Option Phase
  | .attach, _ => none
  | .step, p => if p = pid then some .running else none
  | .continue, p => if p = pid then some .running else none
  | .kill, p => if p = pid then some .released else none
  | .detach, p => if p = pid then some .released else none

/-- The phase after one more event, unless the event is out of order or for another process. A
process that is launched or attached to is waited for like one that has been resumed. Signal 0
only asks whether there is such a process. -/
def Phase.next (pid : Int) : Phase → Event σ → Option Phase
  | .absent, .launch p => if p = pid then some .running else none
  | .absent, .ptrace .attach p _ _ => if p = pid then some .running else none
  | .running, .wait p _ _ _ => if p = some pid then some .stopped else none
  | .stopped, .ptrace request p _ _ => requested pid request p
  | .stopped, .kill p sig => if sig = 0 ∨ p = pid then some .stopped else none
  | .stopped, .launch _ => none
  | .stopped, .wait .. => none
  | .stopped, .reap _ => none
  | .stopped, _ => some .stopped
  | .released, .putpkt _ => some .released
  | .released, .reap p => if p = pid then some .released else none
  | _, _ => none

/-- The phase after the events, newest first, if they came in order. -/
def phaseOf (pid : Int) (log : List (Event σ)) : Option Phase :=
  log.foldr (fun e phase => phase.bind fun p => p.next pid e) (some .absent)

theorem phaseOf_cons (pid : Int) (e : Event σ) (log : List (Event σ)) :
    phaseOf pid (e :: log) = (phaseOf pid log).bind fun p => p.next pid e := rfl

/-- All the calls so far were for `pid` and in order, probes apart, and have led to `phase`. -/
def Obeys (pid : Int) (phase : Phase) (s : Server σ) : Prop :=
  s.signalPid = pid ∧ phaseOf pid s.log = some phase

/-- The process is stopped, and it is the one of every listed thread. -/
structure Held (pid : Int) (s : Server σ) : Prop where
  obeys : Obeys pid .stopped s
  own : ∀ t ∈ s.allThreads, t.pid = pid

/-- What tells whether the process is held. -/
def heldView (pid : Int) (s : Server σ) : Prop :=
  phaseOf pid s.log = some .stopped ∧ s.signalPid = pid ∧
    ∀ p ∈ s.allThreads.map ThreadInfo.pid, p = pid

theorem held_iff : Held pid s ↔ heldView pid s := by
  simp only [heldView, List.forall_mem_map]
  constructor
  · rintro ⟨⟨hpid, horder⟩, hown⟩
    exact ⟨horder, hpid, hown⟩
  · rintro ⟨horder, hpid, hown⟩
    exact ⟨⟨hpid, horder⟩, hown⟩

theorem Held.of_view (h : Held pid s) {s' : Server σ} (same : heldView pid s' = heldView pid s) :
    Held pid s' := by
  rw [held_iff] at h ⊢
  rwa [same]

/-- What is recorded while the process is stopped, and leaves it so. -/
def Event.Settled (e : Event σ) : Prop := ∀ pid, Phase.stopped.next pid e = some .stopped

theorem Held.log (h : Held pid s) {s' : Server σ} {log : List (Event σ)}
    (settled : ∀ e ∈ log, e.Settled) (hlog : s'.log = log ++ s.log)
    (hpid : s'.signalPid = s.signalPid)
    (threads : s'.allThreads.map ThreadInfo.pid = s.allThreads.map ThreadInfo.pid) :
    Held pid s' := by
  have hphase : phaseOf pid (log ++ s.log) = some .stopped := by
    clear hlog
    induction log with
    | nil => exact h.obeys.2
    | cons e log ih =>
      have hrest := ih fun e he => settled e (List.mem_cons_of_mem _ he)
      rw [List.cons_append, phaseOf_cons, hrest]
      exact settled e List.mem_cons_self pid
  refine h.of_view ?_
  simp only [heldView, hlog, hpid, threads, hphase, h.obeys.2]

/-- Only a wait stops the process. -/
theorem stopped_of_next {phase : Phase} {e : Event σ}
    (next : phase.next pid e = some .stopped) (waitless : ∀ p c w d, e ≠ .wait p c w d) :
    phase = .stopped := by
  cases phase with
  | absent =>
    cases e with
    | launch p => simp [Phase.next] at next
    | ptrace request p data os => cases request <;> simp [Phase.next] at next
    | _ => simp [Phase.next] at next
  | running =>
    cases e with
    | wait p c w d => exact absurd rfl (waitless p c w d)
    | _ => simp [Phase.next] at next
  | stopped => rfl
  | released => cases e <;> simp [Phase.next] at next

/-- An event that keeps the phase where the process is held. -/
theorem heldView_record {e : Event σ} (waitless : ∀ p c w d, e ≠ .wait p c w d)
    (settled : Held pid s → Phase.stopped.next pid e = some .stopped) :
    heldView pid (s.record e) = heldView pid s := by
  refine propext ⟨?_, ?_⟩
  · rintro ⟨hphase, rest⟩
    obtain ⟨phase, hbefore, hnext⟩ := Option.bind_eq_some_iff.mp hphase
    exact ⟨hbefore.trans (congrArg some (stopped_of_next hnext waitless)), rest⟩
  · intro hview
    refine ⟨?_, hview.2⟩
    change phaseOf pid (e :: s.log) = _
    rw [phaseOf_cons, hview.1]
    exact settled (held_iff.mpr hview)

theorem beside_heldView (k : Kernel σ) (pid : Int) : Beside k (heldView pid) where
  link _ _ := rfl
  current _ _ := rfl
  chosen _ _ _ _ := rfl
  threadPtr _ _ := rfl
  remoteDebug _ _ := rfl
  sent s text := heldView_record (by simp) fun _ => rfl
  probed s p := heldView_record (e := .kill p 0) (by simp) fun _ => by simp [Phase.next]
  interrupted s t sig current := by
    refine heldView_record (e := .kill t.pid sig) (by simp) fun hheld => ?_
    obtain ⟨_, _, found⟩ := Option.bind_eq_some_iff.mp current
    simp [Phase.next, hheld.own t (List.mem_of_find?_eq_some found)]
  read _ _ := withMemory_keeps (fun _ _ _ _ => rfl) _
  written _ _ := withMemory_keeps (fun _ _ _ _ => rfl) _
  inserted _ := withMemory_keeps (fun _ _ _ _ => rfl) _
  removed _ := withMemory_keeps (fun _ _ _ _ => rfl) _

theorem assignThread_pids (node : Nat) {f : ThreadInfo → ThreadInfo}
    (keeps : ∀ t, (f t).pid = t.pid) :
    (s.assignThread node f).allThreads.map ThreadInfo.pid = s.allThreads.map ThreadInfo.pid := by
  simp only [Server.assignThread, List.map_map]
  apply List.map_congr_left
  intro t _
  by_cases h : t.node = node <;> simp [h, keeps]

theorem fillLog_settled (os : σ) (t : ThreadInfo) : ∀ e ∈ fillLog k os t, e.Settled := by
  unfold fillLog
  split
  · simp
  · simp [Event.Settled, Phase.next]

theorem flushLog_settled (ts : List ThreadInfo) (os : σ) :
    ∀ e ∈ flushLog k ts os, e.Settled := by
  induction ts generalizing os with
  | nil => simp [flushLog]
  | cons t ts ih =>
    intro e he
    rcases List.mem_append.mp he with he | he
    · exact ih _ e he
    · unfold storeLog at he
      split at he
      · rw [List.mem_singleton.mp he]
        exact fun _ => rfl
      · cases he

/-- The caches are written back, and the process is resumed: no call but the wait is in
order now. -/
theorem Held.resumed (h : Held pid s) (ht : t ∈ s.allThreads) (step : Bool) (sig : Int) :
    Obeys pid .running (s.resumed k (resumeRequest step) t.pid sig) := by
  have hflushed : Held pid (s.flush k) := by
    refine h.log (flushLog_settled s.allThreads s.os) rfl rfl ?_
    simp only [Server.flush, List.map_map]
    rfl
  refine ⟨h.obeys.1, ?_⟩
  change phaseOf pid (_ :: (s.flush k).log) = _
  rw [phaseOf_cons, hflushed.obeys.2, h.own t ht]
  cases step <;> simp [Phase.next, requested, resumeRequest]

/-- The wait that follows a resume, a launch or an attach. -/
theorem Obeys.waited {s' : Server σ} {connectedWait : Bool} (h : Obeys pid .running s)
    (live : Live s t) (own : ∀ t ∈ s.allThreads, t.pid = pid)
    (w : Waited (s.waiting connectedWait) t s') : Held pid s' := by
  obtain ⟨os, port, status, sig, waiting, rfl⟩ := w
  have hcurrent : s.currentPid = some pid := by
    rw [live.currentPid, own t live.mem]
  refine ⟨⟨h.1, ?_⟩, ?_⟩
  · change phaseOf pid (_ :: s.log) = _
    rw [phaseOf_cons, h.2]
    exact if_pos hcurrent
  · intro u hu
    have hpids := assignThread_pids (s := s.waiting connectedWait) (f := setPort port) t.node
      fun _ => rfl
    have hmem : u.pid ∈ (s.waiting connectedWait).allThreads.map ThreadInfo.pid := by
      rw [← hpids]
      exact List.mem_map_of_mem hu
    obtain ⟨u', hu', heq⟩ := List.mem_map.mp hmem
    exact heq ▸ own u' hu'

theorem kept_held (k : Kernel σ) (pid : Int) : Kept k (heldView pid) (Held pid) where
  beside := beside_heldView k pid
  reported _ _ := rfl
  same hsame h := h.of_view hsame
  fill _ h := h.log (fillLog_settled _ _) rfl rfl (assignThread_pids _ fun _ => filled_pid _ _)
  supply _ h complete offset bytes :=
    have settled : ∀ e ∈ [Event.supply _ _ complete offset bytes], e.Settled := by
      simp [Event.Settled, Phase.next]
    h.log settled rfl rfl (assignThread_pids _ fun _ => rfl)
  resume hserving h step sig w _ := by
    refine (h.resumed hserving.live.mem step sig).waited (hserving.resumed _ _ _).live ?_ w
    intro u hu
    obtain ⟨u', hu', rfl⟩ := List.mem_map.mp hu
    exact h.own u' hu'

/-- The process is there but has not been waited for; nothing else is listed. -/
theorem addProcess_own (empty : s.allThreads = []) (pid : Int) :
    Proc.Ends (addProcess k pid)
      (fun _ s' => (∀ t ∈ s'.allThreads, t.pid = pid) ∧ s'.log = s.log) (fun _ _ => True) s := by
  simp only [addProcess, callKernel, Proc.Ends.bind_iff, Proc.Ends.modifyGet_iff]
  cases (k.taskForPid pid s.os).1 with
  | none => trivial
  | some task =>
    simp only [Proc.Ends.bind_iff, Proc.Ends.modify_iff]
    refine (darwinGetFirstThread_ends (some task)).imp ?_ fun _ _ _ => trivial
    rintro port _ ⟨_, os, rfl⟩
    simp [addThread, empty]

/-- `signal_pid` is set before the first wait. -/
theorem firstWait_held {log : List (Event σ)} (running : phaseOf pid log = some .running)
    (h : Serving rs s t) (own : (∀ t ∈ s.allThreads, t.pid = pid) ∧ s.log = log) :
    Proc.Ends (mywait k false) (fun _ s' => Held pid s') (fun _ _ => True)
      { s with signalPid := pid } := by
  have hsignal : Serving rs { s with signalPid := pid } t := h
  have hobeys : Obeys pid .running { s with signalPid := pid } := ⟨rfl, own.2 ▸ running⟩
  refine (mywait_ends hsignal.live hsignal.nodup false).imp ?_ fun _ _ _ => trivial
  rintro _ s' ⟨_, hwaited⟩
  exact hobeys.waited hsignal.live own.1 hwaited

/-- The first call of all starts the process or attaches to it. -/
theorem running_of_first (hlog : s.log = []) {e : Event σ}
    (first : Phase.absent.next pid e = some .running) :
    phaseOf pid (e :: s.log) = some .running := by
  rw [hlog, phaseOf_cons]
  exact first

theorem startInferior_held (h : Idle rs s) (hlog : s.log = []) :
    Proc.Ends (startInferior k) (fun _ s' => ∃ pid, Held pid s') (fun _ _ => True) s := by
  unfold startInferior
  simp only [darwinCreateInferior, callKernel, Proc.Ends.bind_iff, Proc.Ends.modifyGet_iff]
  cases (k.forkExec s.os).1 with
  | none => trivial
  | some pid =>
    let s₀ : Server σ := { s with os := (k.forkExec s.os).2 }.record (.launch pid)
    have hidle : Idle rs s₀ := h
    have hadd : Starts rs (addProcess k pid) s₀ := addProcess_starts hidle pid
    rw [Proc.Ends.bind_iff, Proc.Ends.modify_iff, Proc.Ends.bind_iff]
    refine (Proc.Ends.and hadd (addProcess_own hidle.1 pid)).imp ?_ fun _ _ _ => trivial
    rintro _ s₁ ⟨⟨t, h₁⟩, hown⟩
    rw [Proc.Ends.pure_iff, Proc.Ends.modify_iff]
    have hrunning : phaseOf pid s₀.log = some .running :=
      running_of_first hlog (e := .launch pid) (if_pos rfl)
    exact (firstWait_held hrunning h₁ hown).imp (fun _ _ hheld => ⟨pid, hheld⟩) fun _ _ _ => trivial

theorem attachInferior_held (h : Idle rs s) (hlog : s.log = []) (pid : Int) :
    Proc.Ends (attachInferior k pid) (fun result s' => 0 ≤ result → Held pid s')
      (fun _ _ => True) s := by
  simp only [attachInferior, darwinAttach, ptrace, callKernel, Proc.Ends.bind_iff,
    Proc.Ends.modify_iff, Proc.Ends.modifyGet_iff]
  split
  · let s₀ : Server σ :=
      { s.record (.ptrace .attach pid 0 s.os) with os := (k.ptrace .attach pid 0 s.os).2 }
    have hidle : Idle rs s₀ := h
    have hadd : Starts rs (addProcess k pid) s₀ := addProcess_starts hidle pid
    rw [Proc.Ends.bind_iff]
    refine (Proc.Ends.and hadd (addProcess_own hidle.1 pid)).imp ?_ fun _ _ _ => trivial
    rintro _ s₁ ⟨⟨t, h₁⟩, hown⟩
    have hrunning : phaseOf pid s₀.log = some .running :=
      running_of_first hlog (e := .ptrace .attach pid 0 s.os) (if_pos rfl)
    simp only [Proc.Ends.pure_iff, ne_eq, not_true_eq_false, if_false, Proc.Ends.bind_iff,
      Proc.Ends.modify_iff]
    exact (firstWait_held hrunning h₁ hown).imp (fun _ _ hheld _ => hheld) fun _ _ _ => trivial
  · simp

/-- On its way to the entry point the process is resumed and waited for once more. -/
theorem runToEntryPoint_held (h : Serving rs s t) (hheld : Held pid s) (ep : Int) :
    Proc.Ends (runToEntryPoint k ep) (fun _ s' => Held pid s') (fun _ _ => True) s := by
  have hmemory : ∀ p : Proc (MemBreak.MemState (Darwin.TargetState σ)) Unit,
      Proc.Keeps (heldView pid) (withMemory p) := withMemory_keeps fun _ _ _ _ => rfl
  unfold runToEntryPoint
  split
  · exact hheld
  · obtain ⟨_, s₁, hset, _, h₁⟩ := withMemory_ends h (setBreakpointAt_ends (k := k) ep)
    have hkept := (hmemory (MemBreak.setBreakpointAt (Darwin.memTarget k) ep .null)).ends s
    rw [Proc.Ends.of_run hset] at hkept
    have hheld₁ := hheld.of_view hkept
    have hresume := myresume_run (k := k) h₁.live h₁.nodup h₁.id_eq false 0
    have hresumed : Serving rs (s₁.resumed k (resumeRequest false) t.pid 0) (setValid false t) :=
      h₁.resumed _ _ _
    rw [Proc.Ends.bind_iff, Proc.Ends.of_run hset, Proc.Ends.bind_iff, Proc.Ends.of_run hresume,
      Proc.Ends.bind_iff]
    refine (mywait_ends hresumed.live hresumed.nodup false).imp ?_ fun _ _ _ => trivial
    rintro _ s₂ ⟨_, hwaited⟩
    have hheld₂ : Held pid s₂ := by
      refine (hheld₁.resumed h₁.live.mem false 0).waited hresumed.live ?_ hwaited
      intro u hu
      obtain ⟨u', hu', rfl⟩ := List.mem_map.mp hu
      exact hheld₁.own u' hu'
    refine ((hmemory _).ends s₂).imp ?_ fun _ _ _ => trivial
    exact fun _ _ hsame => hheld₂.of_view hsame

theorem prepareInferior_held (fresh : Fresh s) (ep pid : Int) :
    Proc.Ends (prepareInferior k ep pid) (fun _ s' => ∃ p, Held p s') (fun _ _ => True) s := by
  have hidle : Idle [] s := fresh.idle
  unfold prepareInferior
  rw [Proc.Ends.bind_iff, Proc.Ends.get_iff]
  split
  · rw [Proc.Ends.bind_iff]
    refine (attachInferior_held hidle fresh.log pid).imp ?_ fun _ _ _ => trivial
    intro result s' hheld
    split
    · trivial
    · rename_i hresult
      exact ⟨pid, hheld (Int.not_lt.mp hresult)⟩
  · rw [Proc.Ends.bind_iff]
    refine (Proc.Ends.and (startInferior_starts hidle)
      (startInferior_held hidle fresh.log)).imp ?_ fun _ _ _ => trivial
    rintro _ s' ⟨⟨t, h⟩, p, hheld⟩
    exact (runToEntryPoint_held h hheld ep).imp (fun _ _ hend => ⟨p, hend⟩) fun _ _ _ => trivial

/-- The process has been released, and no thread is listed any more. -/
structure Gone (pid : Int) (s : Server σ) : Prop where
  obeys : Obeys pid .released s
  empty : s.allThreads = []

theorem Held.released (h : Held pid s) (ht : t ∈ s.allThreads) {request : PtraceRequest}
    (ends : request = .kill ∨ request = .detach) (os : σ) :
    Obeys pid .released { s.record (.ptrace request t.pid 0 s.os) with os := os } := by
  refine ⟨h.obeys.1, ?_⟩
  change phaseOf pid (_ :: s.log) = _
  rw [phaseOf_cons, h.obeys.2, h.own t ht]
  rcases ends with rfl | rfl <;> simp [Phase.next, requested]

/-- The process is reaped. -/
theorem Obeys.reaped (h : Obeys pid .released s) : Obeys pid .released (s.record (.reap pid)) := by
  refine ⟨h.1, ?_⟩
  change phaseOf pid (_ :: s.log) = _
  rw [phaseOf_cons, h.2]
  exact if_pos rfl

theorem darwinKill_gone (h : Held pid s) (hlive : Live s t) :
    Proc.Ends (darwinKill k) (fun _ s' => Gone pid s') (fun _ _ => False) s := by
  have hcurrent : s.currentInferior ≠ none := by simp [hlive.current]
  simp only [darwinKill, ptrace, callKernel, clearInferiors, Proc.Ends.bind_iff,
    Proc.Ends.get_iff, if_neg hcurrent, Proc.Ends.of_run (derefCurrent_run hlive),
    Proc.Ends.modify_iff, Proc.Ends.modifyGet_iff]
  have hreaped := (h.released hlive.mem (.inl rfl) (k.ptrace .kill t.pid 0 s.os).2).reaped
  rw [← h.own t hlive.mem] at hreaped ⊢
  exact ⟨hreaped, rfl⟩

theorem darwinDetach_gone (h : Held pid s) (hlive : Live s t) :
    Proc.Ends (darwinDetach k) (fun _ s' => Gone pid s') (fun _ _ => False) s := by
  have hcurrent : s.currentInferior ≠ none := by simp [hlive.current]
  simp only [darwinDetach, ptrace, callKernel, clearInferiors, Proc.Ends.bind_iff,
    Proc.Ends.get_iff, if_neg hcurrent, Proc.Ends.of_run (derefCurrent_run hlive),
    Proc.Ends.modify_iff, Proc.Ends.modifyGet_iff]
  exact ⟨h.released hlive.mem (.inr rfl) s.os, rfl⟩

/-- With no thread listed an interrupt finds no process. -/
theorem sendFrame_gone (h : Gone pid s) (bytes : List Byte) (fuel : Nat) :
    Stays (Gone pid) (sendFrame k host bytes fuel) s := by
  induction fuel generalizing s with
  | zero => exact h
  | succ fuel ih =>
    have hlink : ∀ {β : Type} {s : Server σ} (p : Proc Link β), Gone pid s →
        Stays (Gone pid) (onLink p) s := by
      intro β s p hgone
      unfold Stays onLink
      rw [Proc.final_zoom]
      exact ⟨hgone.obeys, hgone.empty⟩
    refine (hlink _ h).bind fun wrote s₁ h₁ => .ite (fun _ => ?_) fun _ => h₁
    refine .bind_run rfl (.ite (fun _ => h₁) fun _ => (hlink _ h₁).bind fun answer s₂ h₂ => ?_)
    refine .ite (fun _ => h₂) fun _ => .ite (fun _ => h₂) fun _ => .ite (fun _ => ?_) fun _ => ih h₂
    have hfree : s₂.currentInferior.bind s₂.threadAt = none := by
      cases s₂.currentInferior <;> simp [Server.threadAt, h₂.empty]
    have hsignal : (darwinSendSignal k host.sigint).run s₂ =
        .error (.fault "current_inferior") s₂ := by
      simp [darwinSendSignal, derefCurrent, hfree]
    exact .bind_error hsignal h₂

theorem putpkt_gone (h : Gone pid s) : Stays (Gone pid) (putpkt k host) s := by
  have hsent : Gone pid (s.record (.putpkt (cstr s.ownBuf))) := by
    refine ⟨⟨h.obeys.1, ?_⟩, h.empty⟩
    change phaseOf pid (_ :: s.log) = _
    rw [phaseOf_cons, h.obeys.2]
    rfl
  refine .bind_run rfl (.bind_run rfl ?_)
  exact .ite (fun _ => sendFrame_gone hsent _ _) fun _ => hsent

theorem handleDDetach_gone (h : Held pid s) (hlive : Live s t) :
    Stays (Gone pid) (handleDDetach k host) s := by
  have hlink : ∀ {s : Server σ} (l : Link), Gone pid s → Gone pid { s with link := l } :=
    fun _ hgone => ⟨hgone.obeys, hgone.empty⟩
  refine (Proc.Ends.final_iff (P := Gone pid)).mp ?_
  unfold handleDDetach
  rw [Proc.Ends.bind_iff]
  refine (darwinDetach_gone h hlive).imp ?_ fun _ _ hfalse => hfalse.elim
  intro _ s₁ h₁
  have hok : writeOk.run s₁ = .ok () (s₁.withText (ascii "OK")) := reply_run (by decide)
  refine Proc.Ends.final_iff.mpr (Stays.bind_run hok ((putpkt_gone (hlink _ h₁)).bind ?_))
  intro _ s₂ h₂
  refine .bind_run rfl (.bind_run rfl (.ite (fun _ => ?_) fun _ => hlink _ h₂))
  have hreaped : Obeys pid .released (s₂.record (.reap s₂.signalPid)) := by
    rw [h₂.obeys.1]
    exact h₂.obeys.reaped
  exact .bind_run rfl (.bind_run rfl ⟨hreaped, h₂.empty⟩)

/-- The extended protocol, in which `k` starts the program again, is never on. -/
theorem handlekKill_gone (h : Held pid s) (hserving : Serving rs s t) :
    Stays (Gone pid) (handlekKill k) s := by
  obtain ⟨s₁, hkill, hplain⟩ := darwinKill_run (k := k) hserving
  have hgone := darwinKill_gone (k := k) h hserving.live
  rw [Proc.Ends.of_run hkill] at hgone
  refine .bind_run hkill (.bind_run rfl ?_)
  rw [if_neg (by rw [hplain]; exact Bool.false_ne_true)]
  exact hgone

theorem letGo_gone (h : Held pid s) (hserving : Serving rs s t)
    (leaves : command s = 'D' ∨ command s = 'k') : Stays (Gone pid) (handlePacket k host) s := by
  unfold Stays
  rw [handlePacket_run]
  rcases leaves with hc | hc
  · rw [hc]
    exact Stays.thenReturn (handleDDetach_gone h hserving.live)
  · rw [hc]
    exact handlekKill_gone h hserving

theorem Reachable.held (reachable : Reachable k host s) : ∃ p, Held p s := by
  induction reachable with
  | start ep pid fresh prepared =>
    have hstart := prepareInferior_held (k := k) fresh ep pid
    rwa [Proc.Ends.of_run prepared] at hstart
  | turn before again ih =>
    obtain ⟨p, hheld⟩ := ih
    obtain ⟨rs, t, h⟩ := before.serving
    exact ⟨p, (kept_held k p).next h hheld (.served again)⟩
  | jump before jumped ih =>
    obtain ⟨p, hheld⟩ := ih
    obtain ⟨rs, t, h⟩ := before.serving
    exact ⟨p, (kept_held k p).next h hheld (.failed jumped)⟩

/-- In every run the calls come in order and are for the process that was started or attached
to, up to the turn in which the server ends, and that turn included. -/
theorem calls_in_order (reachable : Reachable k host s) :
    Obeys s.signalPid .stopped s ∧
      (Obeys s.signalPid .stopped (Proc.final ((turn k host).run s)) ∨
        Obeys s.signalPid .released (Proc.final ((turn k host).run s))) := by
  obtain ⟨p, hheld⟩ := reachable.held
  obtain ⟨rs, t, h⟩ := reachable.serving
  obtain rfl := hheld.obeys.1
  refine ⟨hheld.obeys, ?_⟩
  by_cases hlast : ∃ len s₁, Delivered s len s₁ ∧ 0 < len ∧ (command s₁ = 'D' ∨ command s₁ = 'k')
  · obtain ⟨len, s₁, delivered, pos, hc⟩ := hlast
    have h₁ := delivered.serving h
    have hheld₁ : Held s.signalPid s₁ := by
      have hreceived := (beside_heldView k s.signalPid).onLink getpkt s
      rw [show (onLink getpkt).run s = .ok len s₁ from delivered] at hreceived
      exact hheld.of_view hreceived
    have hgone : Proc.Ends (handlePacket k host) (fun _ s' => Gone s.signalPid s')
        (fun _ s' => Gone s.signalPid s') s₁ := Proc.Ends.final_iff.mpr (letGo_gone hheld₁ h₁ hc)
    have hturn : Proc.Ends (turn k host) (fun _ s' => Gone s.signalPid s')
        (fun _ s' => Gone s.signalPid s') s := by
      rw [turn_ends k host delivered pos, servePacket, Proc.Ends.bind_iff]
      exact (hgone.and (handlePacket_leaves h₁ hc)).imp (fun _ _ hend => hend.2.elim)
        fun _ _ hend => hend.1
    exact Or.inr (Proc.Ends.final_iff.mp hturn).obeys
  · have hturn : Stays (Held s.signalPid) (turn k host) s :=
      (kept_held k s.signalPid).turn h hheld fun len s₁ delivered pos _ hc =>
        absurd ⟨len, s₁, delivered, pos, hc⟩ hlast
    exact Or.inl (Held.obeys hturn)

/-- The program has just been launched, and the client kills it. -/
theorem calls_in_order_k :
    Obeys (launched [ascii "$k#6b"]).signalPid .stopped (launched [ascii "$k#6b"]) ∧
      (Obeys (launched [ascii "$k#6b"]).signalPid .stopped
          (Proc.final ((turn singleThread Signals.darwin).run (launched [ascii "$k#6b"]))) ∨
        Obeys (launched [ascii "$k#6b"]).signalPid .released
          (Proc.final ((turn singleThread Signals.darwin).run (launched [ascii "$k#6b"])))) :=
  calls_in_order (reachable_launched [ascii "$k#6b"])

end Gdbserver
