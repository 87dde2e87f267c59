import OsxGdbserver.PacketInvariants
import OsxGdbserver.RegisterFiles

/-!
# What becomes of a register write

`P` puts its value into the cache, valid or not. A cache that is not valid is filled over
it by the next read, and is not written back by the next resume.
-/

namespace Gdbserver

open Remote CString Ppc

variable {σ : Type} {k : Kernel σ} {host : Signals.Host} {machine : σ → Port → Machine}
  {s : Server σ} {t : ThreadInfo} {rs : List (List Byte)} {field : List Byte}

/-- The machine at each resume, newest first. -/
def Server.resumes (s : Server σ) : List σ :=
  s.log.filterMap fun
    | .ptrace .step _ _ os | .ptrace .continue _ _ os => some os
    | _ => none

abbrev KeepsResumes {α : Type} (p : Proc (Server σ) α) : Prop := Proc.Keeps Server.resumes p

theorem beside_resumes (k : Kernel σ) : Beside k Server.resumes where
  link _ _ := rfl
  current _ _ := rfl
  chosen _ _ _ _ := rfl
  threadPtr _ _ := rfl
  remoteDebug _ _ := rfl
  sent _ _ := rfl
  probed _ _ := rfl
  interrupted _ _ _ _ := rfl
  read _ _ := withMemory_keeps (fun _ _ _ _ => rfl) _
  written _ _ := withMemory_keeps (fun _ _ _ _ => rfl) _
  inserted _ := withMemory_keeps (fun _ _ _ _ => rfl) _
  removed _ := withMemory_keeps (fun _ _ _ _ => rfl) _

theorem besideRegisters_resumes (k : Kernel σ) : BesideRegisters k Server.resumes where
  toBeside := beside_resumes k
  fetches _ _ _ := rfl
  stores _ _ _ := rfl
  assigned _ _ _ := rfl
  fetched _ _ _ _ := rfl
  stored _ _ _ _ := rfl
  supplied _ _ _ _ _ _ := rfl
  reported _ _ := rfl

/-- `PT_DETACH` and `PT_KILL` are no resumes. -/
theorem ptrace_keepsResumes {request : PtraceRequest} (pid data : Int)
    (ends : request = .detach ∨ request = .kill) : KeepsResumes (ptrace k request pid data) := by
  refine .bind (.modify fun s => ?_) fun _ => .modifyGet fun _ => rfl
  rcases ends with rfl | rfl <;> rfl

theorem handleDDetach_keepsResumes : KeepsResumes (handleDDetach k host) := by
  have hbeside := beside_resumes k
  have hdetach : KeepsResumes (darwinDetach k) :=
    .bind .get fun _ => .ite (.pure _) (.bind derefCurrent_keeps fun _ =>
      .bind (ptrace_keepsResumes _ _ (.inl rfl)) fun _ =>
        .bind (.modify fun _ => rfl) fun _ => .modify fun _ => rfl)
  refine .bind hdetach fun _ => .bind (hbeside.reply _) fun _ => .bind hbeside.putpkt fun _ => ?_
  refine .bind (.modify fun _ => rfl) fun _ => .bind .get fun _ => ?_
  exact .ite (.bind (.modify fun _ => rfl) fun _ => .bind (.modifyGet fun _ => rfl) fun _ =>
    .throw _) (.throw _)

theorem darwinKill_keepsResumes : KeepsResumes (darwinKill k) :=
  .bind .get fun _ => .ite (.pure _) (.bind derefCurrent_keeps fun _ =>
    .bind (ptrace_keepsResumes _ _ (.inr rfl)) fun _ => .bind (.modify fun _ => rfl) fun _ =>
      .bind (.modifyGet fun _ => rfl) fun _ => .bind (.modify fun _ => rfl) fun _ =>
        .modify fun _ => rfl)

theorem resumed_resumes (s : Server σ) (step : Bool) (pid sig : Int) :
    (s.resumed k (resumeRequest step) pid sig).resumes = (s.flush k).os :: s.resumes := by
  have hflush : (s.flush k).resumes = s.resumes :=
    filterMap_flushLog (fun _ _ _ => rfl) s.allThreads s.os s.log
  cases step with
  | false => exact congrArg _ hflush
  | true => exact congrArg _ hflush

/-- `s'` has resumed the inferior no more often than `s`, or once more with the caches of `s`
written back. -/
def ResumesOnce (k : Kernel σ) (s s' : Server σ) : Prop :=
  s'.resumes = s.resumes ∨ s'.resumes = (s.flush k).os :: s.resumes

theorem waitAndReport_resumes (h : Serving rs s t) (contThread : Int) (step : Bool) (sig : Int) :
    Stays (fun s' => s'.resumes = (s.flush k).os :: s.resumes)
      (do mywait k true; prepareResumeReply k host)
      ({ s with contThread := contThread }.resumed k (resumeRequest step) t.pid sig) := by
  let s₁ : Server σ := { s with contThread := contThread }
  have h₁ : Serving rs s₁ t := h
  have hresumed : Serving rs (s₁.resumed k (resumeRequest step) t.pid sig) (setValid false t) :=
    h₁.resumed _ _ _
  have honce : (s₁.resumed k (resumeRequest step) t.pid sig).resumes =
      (s.flush k).os :: s.resumes := resumed_resumes s₁ step t.pid sig
  refine Eq.trans ?_ honce
  refine (Proc.Ends.final_iff (P := fun s' : Server σ => s'.resumes = _)).mp ?_
  rw [Proc.Ends.bind_iff]
  refine (mywait_ends hresumed.live hresumed.nodup true).imp ?_ ?_
  · rintro _ _ ⟨_, os, port, status, sig', waiting, rfl⟩
    exact (besideRegisters_resumes k).prepareResumeReply.ends _
  · rintro _ _ ⟨_, _, os, port, status, sig', waiting, rfl⟩
    rfl

theorem resuming (h : Serving rs s t) : Resuming k host (ResumesOnce k s) s t where
  refused _ := .inl rfl
  waits contThread step sig := .inr (waitAndReport_resumes h contThread step sig)

theorem handlePacket_resumesOnce (host : Signals.Host) (h : Serving rs s t) :
    Stays (ResumesOnce k s) (handlePacket k host) s := by
  have hresuming : Resuming k host (ResumesOnce k s) s t := resuming h
  unfold Stays
  rw [handlePacket_run]
  change Stays (ResumesOnce k s) (dispatch k host (command s)) s
  generalize command s = c
  by_cases beside : c ∉ ['C', 'S', 'c', 's', 'v', 'D', 'k', 'R']
  · exact .inl ((besideRegisters_resumes k).dispatch beside s)
  · simp only [List.mem_cons, List.not_mem_nil, or_false, not_not] at beside
    rcases beside with rfl | rfl | rfl | rfl | rfl | rfl | rfl | rfl
    · exact (hresuming.signalHandler h false).thenReturn
    · exact (hresuming.signalHandler h true).thenReturn
    · exact (hresuming.resumeAndReport h false 0).thenReturn
    · exact (hresuming.resumeAndReport h true 0).thenReturn
    · exact (hresuming.handleVRequests h).thenReturn
    · exact Stays.thenReturn (.inl (handleDDetach_keepsResumes s))
    · obtain ⟨s₁, hkill, hplain⟩ := darwinKill_run (k := k) h
      have hkept := darwinKill_keepsResumes (k := k) s
      rw [hkill] at hkept
      refine .bind_run hkill (.bind_run rfl ?_)
      rw [hplain, if_neg Bool.false_ne_true]
      exact .inl hkept
    · refine .bind_run rfl ?_
      rw [if_neg (by rw [h.plain]; exact Bool.false_ne_true)]
      exact Stays.thenReturn (.inl ((beside_resumes k).reply _ s))

theorem after_c_resumes (h : Serving rs s t) :
    (s.after k host (ascii "c")).resumes = (s.flush k).os :: s.resumes := by
  let s₁ := s.withText (ascii "c")
  have h₁ : Serving rs s₁ t := h
  have hresumed : Stays (fun s' => s'.resumes = (s.flush k).os :: s.resumes)
      (resumeAndReport k host false 0) s₁ :=
    .bind_run (h₁.setDesiredInferior_run false)
      (.bind_run (myresume_run h₁.live h₁.nodup h₁.id_eq false 0)
        (waitAndReport_resumes h₁ s₁.contThread false 0))
  have hc : command s₁ = 'c' := rfl
  have hp : dispatch k host 'c' = do resumeAndReport k host false 0; return false := rfl
  rw [after_eq hc hp]
  exact hresumed

section Fates

variable {r : Regcache.Reg RegName} {value : List Byte}

/-- `P` acknowledges its value: every later reading packet reports it, and every packet that
resumes the thread finds it in the machine. -/
structure WriteKept (k : Kernel σ) (host : Signals.Host) (machine : σ → Port → Machine)
    (s : Server σ) (t : ThreadInfo) (field : List Byte) (r : Regcache.Reg RegName) : Prop where
  read : ∀ field', registerAt (fieldNumber field') = some r →
    cstr ((s.after k host (ch 'P' :: field)).after k host (ch 'p' :: field')).ownBuf =
      convertIntToAscii (fieldValue field r.size).1
  readAll : ∃ registers,
    cstr ((s.after k host (ch 'P' :: field)).after k host (ascii "g")).ownBuf =
      convertIntToAscii registers ∧ Regcache.registerData r registers = (fieldValue field r.size).1
  resumed : ∀ body os, ((s.after k host (ch 'P' :: field)).after k host body).resumes =
    os :: (s.after k host (ch 'P' :: field)).resumes →
      (machine os t.port).get r.name = (fieldValue field r.size).1

/-- The cache is valid and goes to the machine, or the machine has the value already. -/
def WriteLands (k : Kernel σ) (machine : σ → Port → Machine) (os : σ) (t : ThreadInfo)
    (r : Regcache.Reg RegName) (value : List Byte) : Prop :=
  t.regcache.valid = true ∧
      (DarwinPpc.stored k t.port (supply r value t).regcache.registers os).has r.name = true ∨
    (machine os t.port).get r.name = value

/-- The cache has the value right after `P`. -/
theorem collect_supply (hr : r ∈ regDefs) (sized : value.length = r.size / 8) (t : ThreadInfo) :
    collectByName r.name (supply r value t).regcache.registers = value := by
  have hsupplied := collect_supplied hr sized t.regcache.registers_length r.name
  rwa [Function.update_self] at hsupplied

/-- A read that fills the cache reports the machine's value, if it gets it. -/
theorem registerData_filled (shows : ShowsRegisters k machine) (hr : r ∈ regDefs)
    (sized : value.length = r.size / 8) {os : σ} (lands : WriteLands k machine os t r value) :
    Regcache.registerData r (filled k os (supply r value t)).regcache.registers = value := by
  have hnamed : named r.name = r := named_of_mem hr
  have hsupplied := collect_supply hr sized t
  suffices hcollect :
      collectByName r.name (filled k os (supply r value t)).regcache.registers = value by
    rwa [collectByName, hnamed] at hcollect
  unfold filled
  split
  · exact hsupplied
  · rename_i hvalid
    have hmachine : (machine os t.port).get r.name = value :=
      lands.resolve_left fun hboth => hvalid hboth.1
    have hfetch := shows.collect_fetchRegisters t.port
      (supply r value t).regcache.registers_length os r.name
    refine hfetch.trans ?_
    split
    · exact hmachine
    · exact hsupplied

/-- The machine has the value at the next resume just if it lands. -/
theorem storedOs_get_iff (shows : ShowsRegisters k machine) (hr : r ∈ regDefs)
    (sized : value.length = r.size / 8) (os : σ) :
    (machine (storedOs k os (supply r value t)) t.port).get r.name = value ↔
      WriteLands k machine os t r value := by
  have hsupplied := collect_supply hr sized t
  obtain ⟨hstored, -⟩ := shows.storeRegisters t.port (supply r value t).regcache.registers_length os
  have hname := hstored r.name
  rw [hsupplied] at hname
  unfold storedOs WriteLands
  cases hvalid : t.regcache.valid with
  | false =>
    have hinvalid : ¬ (supply r value t).regcache.valid = true := by
      simpa [supply] using hvalid
    simp [hinvalid]
  | true =>
    have hstill : (supply r value t).regcache.valid = true := hvalid
    rw [if_pos hstill]
    change (machine (DarwinPpc.storeRegisters k t.port _ os) t.port).get r.name = value ↔ _
    rw [hname]
    split
    · rename_i hset
      simp [hset]
    · rename_i hset
      simp [hset]

/-- What `P` leaves behind. -/
theorem after_P (host : Signals.Host) (h : Serving rs s t)
    (hr : registerAt (fieldNumber field) = some r)
    (complete : (fieldValue field r.size).2 = true) :
    ∃ s₁ : Server σ, s.after k host (ch 'P' :: field) = s₁.withText (ascii "OK") ∧
      Serving rs s₁ (supply r (fieldValue field r.size).1 t) ∧ s₁.os = s.os := by
  have h₁ : Serving rs (s.withText (ch 'P' :: field)) t := h
  have hc : command (s.withText (ch 'P' :: field)) = 'P' := rfl
  have hp : dispatch k host 'P' = do handlePWriteReg; return false := rfl
  have hrun := handlePWriteReg_run_some h.nodup (h₁.desired true) hr complete
  rw [h₁.select] at hrun
  rw [after_eq hc hp, hrun]
  have hrecorded : Serving rs ((s.withText (ch 'P' :: field)).record
    (.supply t.node t.regcache.valid true (r.offset / 8) (fieldValue field r.size).1)) t := h
  exact ⟨_, rfl, hrecorded.assign (f := supply r (fieldValue field r.size).1) rfl rfl rfl, rfl⟩

theorem writeKept_iff (shows : ShowsRegisters k machine) (h : Serving rs s t)
    (hr : registerAt (fieldNumber field) = some r)
    (complete : (fieldValue field r.size).2 = true) :
    WriteKept k host machine s t field r ↔
      WriteLands k machine s.os t r (fieldValue field r.size).1 := by
  obtain ⟨s₁, hafter, h₁, hos⟩ := after_P (k := k) host h hr complete
  have hmem := (registerAt_some hr).2.2
  have hsized := fieldValue_length complete
  have h₂ : Serving rs (s₁.withText (ascii "OK")) (supply r (fieldValue field r.size).1 t) := h₁
  have hflush : ((s₁.withText (ascii "OK")).flush k).os =
      storedOs k s.os (supply r (fieldValue field r.size).1 t) := by
    change (s₁.allThreads.foldl (storedOs k) s₁.os) = _
    rw [h₁.threads, hos]
    rfl
  have hiff := storedOs_get_iff (k := k) shows hmem hsized s.os (t := t)
  constructor
  · intro kept
    have hresumed := kept.resumed (ascii "c")
    rw [hafter, after_c_resumes h₂] at hresumed
    exact hiff.mp (hflush ▸ hresumed _ rfl)
  · intro lands
    have hdata := registerData_filled shows hmem hsized lands
    constructor
    · intro field' hr'
      let s₃ := (s₁.withText (ascii "OK")).withText (ch 'p' :: field')
      have h₃ : Serving rs s₃ (supply r (fieldValue field r.size).1 t) := h₁
      have hrun := handlepReadReg_run_some (k := k) (s := s₁.withText (ascii "OK")) h₃.nodup
        (h₃.desired true) hr'
      have hc : command s₃ = 'p' := rfl
      have hp : dispatch k host 'p' = do handlepReadReg k; return false := rfl
      have hfilled := hdata
      rw [← hos] at hfilled
      rw [hafter, after_eq hc hp, hrun, Proc.final_ok,
        cstr_withText (zero_not_mem_convertIntToAscii _)]
      exact congrArg convertIntToAscii hfilled
    · let s₃ := (s₁.withText (ascii "OK")).withText (ascii "g")
      have h₃ : Serving rs s₃ (supply r (fieldValue field r.size).1 t) := h₁
      have hrun := handlegReadRegs_run (k := k) h₃.nodup (h₃.desired true)
      have hc : command s₃ = 'g' := rfl
      have hp : dispatch k host 'g' = do handlegReadRegs k; return false := rfl
      refine ⟨_, ?_, hdata⟩
      rw [← hos, hafter, after_eq hc hp, hrun, Proc.final_ok]
      exact cstr_withText (zero_not_mem_convertIntToAscii _)
    · intro body os hresumes
      let s₃ := (s₁.withText (ascii "OK")).withText body
      have h₃ : Serving rs s₃ (supply r (fieldValue field r.size).1 t) := h₁
      have hflush' : (s₃.flush k).os =
          storedOs k s.os (supply r (fieldValue field r.size).1 t) := hflush
      rw [hafter] at hresumes
      rcases handlePacket_resumesOnce (k := k) host h₃ with hnone | honce
      · have hlength := congrArg List.length (hresumes.symm.trans hnone)
        exact absurd hlength (Nat.succ_ne_self _)
      · have hcons := hresumes.symm.trans honce
        rw [(List.cons.inj hcons).1, hflush']
        exact hiff.mpr lands

end Fates

/-- Every good `P` is acknowledged, and its value is kept just if the cache is valid then
and goes to the machine at the resume, or the machine has the value already. -/
theorem write_kept_iff (shows : ShowsRegisters k machine) (reachable : Reachable k host s)
    (single : s.allThreads = [t]) {r : Regcache.Reg RegName}
    (hr : registerAt (fieldNumber field) = some r)
    (complete : (fieldValue field r.size).2 = true) :
    cstr (s.after k host (ch 'P' :: field)).ownBuf = ascii "OK" ∧
      (WriteKept k host machine s t field r ↔
        WriteLands k machine s.os t r (fieldValue field r.size).1) := by
  obtain ⟨rs, t', h⟩ := reachable.serving
  obtain rfl : t' = t := List.singleton_inj.mp (h.threads.symm.trans single)
  refine ⟨?_, writeKept_iff shows h hr complete⟩
  obtain ⟨s₁, hafter, -⟩ := after_P (k := k) host h hr complete
  rw [hafter]
  exact cstr_withText (by decide)

/-- The server that has launched `perPort`'s process. -/
def launchedPerPort : Server (Port → Machine) :=
  Proc.final ((prepareInferior perPort 0 0).run (initial (fun _ => blankMachine) []))

theorem reachable_launchedPerPort : Reachable perPort Signals.darwin launchedPerPort :=
  .start 0 0 (fresh_initial (fun _ => blankMachine) []) rfl

theorem launchedPerPort_threads : launchedPerPort.allThreads = [firstThread] := rfl

theorem registerAt_zero : registerAt (fieldNumber (ascii "0=00000005")) = some (named (.r 0)) := by
  decide +kernel

theorem fieldValue_five : fieldValue (ascii "0=00000005") (named (.r 0)).size =
    ([0, 0, 0, 5], true) := by
  decide +kernel

theorem write_kept_iff_five :
    cstr (launchedPerPort.after perPort Signals.darwin (ch 'P' :: ascii "0=00000005")).ownBuf =
        ascii "OK" ∧
      (WriteKept perPort Signals.darwin id launchedPerPort firstThread (ascii "0=00000005")
          (named (.r 0)) ↔
        WriteLands perPort id launchedPerPort.os firstThread (named (.r 0))
          (fieldValue (ascii "0=00000005") (named (.r 0)).size).1) :=
  write_kept_iff perPort_shows reachable_launchedPerPort launchedPerPort_threads registerAt_zero
    (congrArg Prod.snd fieldValue_five)

/-- `P0=00000005` right after the start, when nothing has filled the cache. -/
theorem not_write_kept_five :
    Reachable perPort Signals.darwin launchedPerPort ∧
      launchedPerPort.allThreads = [firstThread] ∧
      registerAt (fieldNumber (ascii "0=00000005")) = some (named (.r 0)) ∧
      (fieldValue (ascii "0=00000005") (named (.r 0)).size).2 = true ∧
      cstr (launchedPerPort.after perPort Signals.darwin (ch 'P' :: ascii "0=00000005")).ownBuf =
        ascii "OK" ∧
      ¬ WriteKept perPort Signals.darwin id launchedPerPort firstThread (ascii "0=00000005")
        (named (.r 0)) := by
  obtain ⟨rs, t, h⟩ := reachable_launchedPerPort.serving
  have hthread : t = firstThread :=
    List.singleton_inj.mp (h.threads.symm.trans launchedPerPort_threads)
  rw [hthread] at h
  have hcomplete := congrArg Prod.snd fieldValue_five
  refine ⟨reachable_launchedPerPort, launchedPerPort_threads, registerAt_zero, hcomplete, ?_, ?_⟩
  · obtain ⟨s₁, hafter, -⟩ :=
      after_P (k := perPort) Signals.darwin h registerAt_zero hcomplete
    rw [hafter]
    exact cstr_withText (by decide)
  · intro kept
    have hlands := (writeKept_iff perPort_shows h registerAt_zero hcomplete).mp kept
    rw [fieldValue_five] at hlands
    rcases hlands with ⟨hvalid, -⟩ | hmachine
    · exact Bool.false_ne_true hvalid
    · have hzero : (launchedPerPort.os firstThread.port).get (named (.r 0)).name =
          [0, 0, 0, 0] := by
        rw [named_name]
        rfl
      exact absurd (hzero.symm.trans hmachine) (by decide)

end Gdbserver
