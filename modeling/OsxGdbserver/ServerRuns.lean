import OsxGdbserver.Handlers

/-!
# What the server's functions do

For each function that acts on threads and registers, the state it ends in, in a state
where `current_inferior` points to a listed thread. No two listed threads share an
address.
-/

namespace Gdbserver

open Ppc Remote CString

variable {σ : Type} {k : Kernel σ} {host : Signals.Host} {s : Server σ} {t : ThreadInfo}

/-- `current_inferior` points to the listed thread `t`. -/
def Live (s : Server σ) (t : ThreadInfo) : Prop := s.currentInferior.bind s.threadAt = some t

/-- No two threads of the list share an address, and `malloc` has given out all of them. -/
structure Threads (s : Server σ) : Prop where
  nodup : (s.allThreads.map ThreadInfo.node).Nodup
  below : ∀ t ∈ s.allThreads, t.node < s.nextThread

theorem node_of_threadAt {node : Nat} (h : s.threadAt node = some t) : t.node = node :=
  of_decide_eq_true (List.find?_some (p := fun t : ThreadInfo => t.node = node) h)

theorem Live.current (h : Live s t) : s.currentInferior = some t.node := by
  obtain ⟨node, hnode, hfind⟩ := Option.bind_eq_some_iff.mp h
  rw [hnode, node_of_threadAt hfind]

theorem Live.threadAt (h : Live s t) : s.threadAt t.node = some t := by
  have hbind := h
  rw [Live, h.current] at hbind
  exact hbind

theorem Live.mem (h : Live s t) : t ∈ s.allThreads := List.mem_of_find?_eq_some h.threadAt

theorem Live.currentPid (h : Live s t) : s.currentPid = some t.pid := by
  rw [Server.currentPid, h.current, Option.bind_some, h.threadAt]
  rfl

theorem threadAt_of_mem (nodup : (s.allThreads.map ThreadInfo.node).Nodup)
    (h : t ∈ s.allThreads) : s.threadAt t.node = some t := by
  cases hfind : s.threadAt t.node with
  | none =>
    have hnone := List.find?_eq_none.mp hfind t h
    simp at hnone
  | some u =>
    have hu := List.mem_of_find?_eq_some hfind
    rw [List.inj_on_of_nodup_map nodup hu h (node_of_threadAt hfind)]

theorem live_of_mem (nodup : (s.allThreads.map ThreadInfo.node).Nodup) (h : t ∈ s.allThreads)
    (current : s.currentInferior = some t.node) : Live s t := by
  rw [Live, current]
  exact threadAt_of_mem nodup h

/-- An assignment through the pointer to `t` does to the list what it does to `t`. -/
theorem threadAt_assignThread (node : Nat) {f : ThreadInfo → ThreadInfo}
    (keeps : ∀ t, (f t).node = t.node) (other : Nat) :
    (s.assignThread node f).threadAt other =
      (s.threadAt other).map fun t => if t.node = node then f t else t := by
  have hnode : ∀ t : ThreadInfo, (if t.node = node then f t else t).node = t.node := by
    intro t
    split
    · exact keeps t
    · rfl
  simp only [Server.threadAt, Server.assignThread, List.find?_map]
  congr 2
  funext t
  simp [hnode]

theorem assignThread_nodes (node : Nat) {f : ThreadInfo → ThreadInfo}
    (keeps : ∀ t, (f t).node = t.node) :
    (s.assignThread node f).allThreads.map ThreadInfo.node =
      s.allThreads.map ThreadInfo.node := by
  simp only [Server.assignThread, List.map_map]
  apply List.map_congr_left
  intro t _
  by_cases h : t.node = node <;> simp [h, keeps]

theorem assignThread_nodup (nodup : (s.allThreads.map ThreadInfo.node).Nodup) (node : Nat)
    {f : ThreadInfo → ThreadInfo} (keeps : ∀ t, (f t).node = t.node) :
    ((s.assignThread node f).allThreads.map ThreadInfo.node).Nodup := by
  rw [assignThread_nodes node keeps]
  exact nodup

theorem Live.assign (h : Live s t) {f : ThreadInfo → ThreadInfo}
    (keeps : ∀ t, (f t).node = t.node) : Live (s.assignThread t.node f) (f t) := by
  have hcurrent : (s.assignThread t.node f).currentInferior = some t.node := h.current
  rw [Live, hcurrent]
  change (s.assignThread t.node f).threadAt t.node = _
  rw [threadAt_assignThread t.node keeps, h.threadAt]
  simp

theorem assignThread_assignThread (node : Nat) {f g : ThreadInfo → ThreadInfo}
    (keeps : ∀ t, (f t).node = t.node) :
    (s.assignThread node f).assignThread node g = s.assignThread node (g ∘ f) := by
  simp only [Server.assignThread, List.map_map]
  congr 1
  apply List.map_congr_left
  intro t _
  by_cases h : t.node = node <;> simp [h, keeps]

/-- `own_buf[0]`, on which `handle_packet` branches. -/
def command (s : Server σ) : Char := Char.ofUInt8 (deref s.ownBuf)

@[simp] theorem packet_run : packet.run s = .ok s.ownBuf s := rfl

theorem handlePacket_run (k : Kernel σ) (host : Signals.Host) (s : Server σ) :
    (handlePacket k host).run s = (dispatch k host (command s)).run s := rfl

theorem desired_mem {useGeneral : Bool} (h : s.desired useGeneral = some t) :
    t ∈ s.allThreads := by
  have hfind : ∀ id t, findInferiorId s.allThreads id = some t → t ∈ s.allThreads :=
    fun _ _ => List.mem_of_find?_eq_some
  rcases Option.or_eq_some_iff.mp h with hfound | ⟨_, hhead⟩
  · cases useGeneral with
    | true => exact hfind s.generalThread t hfound
    | false =>
      rcases Option.or_eq_some_iff.mp hfound with hstep | ⟨_, hcont⟩
      · split at hstep
        · exact hfind s.stepThread t hstep
        · cases hstep
      · exact hfind s.contThread t hcont
  · exact List.mem_of_head? hhead

/-- The state after `set_desired_inferior`. -/
def Server.select (s : Server σ) (useGeneral : Bool) : Server σ :=
  { s with currentInferior := (s.desired useGeneral).map ThreadInfo.node }

theorem setDesiredInferior_run (useGeneral : Bool) :
    (setDesiredInferior useGeneral).run s = .ok () (s.select useGeneral) := rfl

/-- The thread that has been chosen, once `current_inferior` points to it. -/
theorem live_select (nodup : (s.allThreads.map ThreadInfo.node).Nodup) {useGeneral : Bool}
    (h : s.desired useGeneral = some t) : Live (s.select useGeneral) t :=
  live_of_mem nodup (desired_mem h) (congrArg (Option.map ThreadInfo.node) h)

/-- There is no other thread to choose. -/
theorem desired_singleton (single : s.allThreads = [t]) (useGeneral : Bool) :
    s.desired useGeneral = some t := by
  have hfind : ∀ id, findInferiorId s.allThreads id = none ∨
      findInferiorId s.allThreads id = some t := by
    intro id
    by_cases hid : t.id = id <;> simp [findInferiorId, single, hid]
  have hhead : ∀ found : Option ThreadInfo, found = none ∨ found = some t →
      found.or s.allThreads.head? = some t := by
    rintro _ (rfl | rfl) <;> simp [single]
  have hchoice : ∀ c : Prop, ∀ [Decidable c],
      ((if c then findInferiorId s.allThreads s.stepThread else none).or
        (findInferiorId s.allThreads s.contThread) = none ∨
      (if c then findInferiorId s.allThreads s.stepThread else none).or
        (findInferiorId s.allThreads s.contThread) = some t) := by
    intro c _
    split
    · rcases hfind s.stepThread with hs | hs <;> simp [hs, hfind s.contThread]
    · exact hfind s.contThread
  cases useGeneral with
  | true => exact hhead _ (hfind s.generalThread)
  | false => exact hhead _ (hchoice _)

theorem derefCurrent_run (h : Live s t) : derefCurrent.run s = .ok t s := by
  rw [Live] at h
  simp [derefCurrent, h]

/-- What a function of `mem-break.c` sees of the server. -/
def Server.memState (s : Server σ) (t : ThreadInfo) :
    MemBreak.MemState (Darwin.TargetState σ) where
  breakpoints := s.breakpoints
  nextNode := s.nextBreakpoint
  target := { os := s.os, task := s.currentTask, pid := t.pid }

/-- What it leaves there. -/
def Server.putMemory (m : MemBreak.MemState (Darwin.TargetState σ)) (s : Server σ) : Server σ :=
  { s with breakpoints := m.breakpoints, nextBreakpoint := m.nextNode, os := m.target.os }

theorem withMemory_run {α : Type} {p : Proc (MemBreak.MemState (Darwin.TargetState σ)) α}
    (h : Live s t) :
    (withMemory p).run s = match p.run (s.memState t) with
      | .ok a m => .ok a (s.putMemory m)
      | .error e m => .error e (s.putMemory m) := by
  cases hrun : p.run (s.memState t) with
  | ok a m =>
    simp only [withMemory, EStateM.run_bind, derefCurrent_run h, Proc.run_zoom]
    rw [Server.memState] at hrun
    rw [hrun]
    rfl
  | error e m =>
    simp only [withMemory, EStateM.run_bind, derefCurrent_run h, Proc.run_zoom]
    rw [Server.memState] at hrun
    rw [hrun]
    rfl

theorem callKernel_run {α : Type} (f : σ → α × σ) (s : Server σ) :
    (callKernel f).run s = .ok (f s.os).1 { s with os := (f s.os).2 } := rfl

theorem ptrace_run (request : PtraceRequest) (pid data : Int) (s : Server σ) :
    (ptrace k request pid data).run s = .ok (k.ptrace request pid data s.os).1
      { s.record (.ptrace request pid data s.os) with
        os := (k.ptrace request pid data s.os).2 } := rfl

/-- The thread with its cache filled from the machine, if it was not valid. -/
def filled (k : Kernel σ) (os : σ) (t : ThreadInfo) : ThreadInfo :=
  if t.regcache.valid then t
  else
    { t with
      regcache :=
        { valid := true
          registers := (DarwinPpc.fetchRegisters k t.port t.regcache.registers os).1
          registers_length := by
            rw [DarwinPpc.fetchRegisters_length]
            exact t.regcache.registers_length } }

theorem filled_of_valid {t : ThreadInfo} (valid : t.regcache.valid = true) (os : σ) :
    filled k os t = t := if_pos valid

/-- The machine after that. -/
def filledOs (k : Kernel σ) (os : σ) (t : ThreadInfo) : σ :=
  if t.regcache.valid then os
  else (DarwinPpc.fetchRegisters k t.port t.regcache.registers os).2

@[simp] theorem filled_node (os : σ) (t : ThreadInfo) : (filled k os t).node = t.node := by
  unfold filled
  split <;> rfl

@[simp] theorem filled_id (os : σ) (t : ThreadInfo) : (filled k os t).id = t.id := by
  unfold filled
  split <;> rfl

@[simp] theorem filled_pid (os : σ) (t : ThreadInfo) : (filled k os t).pid = t.pid := by
  unfold filled
  split <;> rfl

@[simp] theorem filled_port (os : σ) (t : ThreadInfo) : (filled k os t).port = t.port := by
  unfold filled
  split <;> rfl

@[simp] theorem filled_valid (os : σ) (t : ThreadInfo) :
    (filled k os t).regcache.valid = true := by
  unfold filled
  split
  · assumption
  · rfl

/-- What is recorded of it. -/
def fillLog (k : Kernel σ) (os : σ) (t : ThreadInfo) : List (Event σ) :=
  if t.regcache.valid then []
  else
    [.fetch t.node (DarwinPpc.fetched k t.port os)
      (DarwinPpc.fetchRegisters k t.port t.regcache.registers os).1]

theorem fillLog_of_valid {t : ThreadInfo} (valid : t.regcache.valid = true) (os : σ) :
    fillLog k os t = [] := if_pos valid

/-- `get_regcache` with `fetch` set. -/
def Server.fill (k : Kernel σ) (s : Server σ) (t : ThreadInfo) : Server σ :=
  { s.assignThread t.node (filled k s.os) with
    os := filledOs k s.os t
    log := fillLog k s.os t ++ s.log }

/-- Through the pointer to `t`, only what is assigned to `t` itself matters. -/
theorem assignThread_congr (nodup : (s.allThreads.map ThreadInfo.node).Nodup)
    (ht : t ∈ s.allThreads) {f g : ThreadInfo → ThreadInfo} (h : f t = g t) :
    s.assignThread t.node f = s.assignThread t.node g := by
  simp only [Server.assignThread]
  congr 1
  apply List.map_congr_left
  rintro u hu
  by_cases hnode : u.node = t.node
  · rw [if_pos hnode, if_pos hnode, List.inj_on_of_nodup_map nodup hu ht hnode, h]
  · rw [if_neg hnode, if_neg hnode]

theorem assignThread_eq_self (nodup : (s.allThreads.map ThreadInfo.node).Nodup)
    (ht : t ∈ s.allThreads) {f : ThreadInfo → ThreadInfo} (h : f t = t) :
    s.assignThread t.node f = s :=
  (assignThread_congr nodup ht (g := id) h).trans (by simp [Server.assignThread])

theorem getRegcache_run (h : Live s t) (nodup : (s.allThreads.map ThreadInfo.node).Nodup) :
    (getRegcache k).run s = .ok (filled k s.os t) (s.fill k t) := by
  cases hvalid : t.regcache.valid with
  | true =>
    have hfilled := filled_of_valid (k := k) hvalid s.os
    simp [getRegcache, derefCurrent_run h, Server.fill, filledOs, fillLog, hvalid, hfilled,
      assignThread_eq_self nodup h.mem hfilled]
  | false =>
    have hlive : Live (s.fill k t) (filled k s.os t) := h.assign fun u => filled_node s.os u
    let fetched : ThreadInfo → ThreadInfo := fun u =>
      { u with
        regcache :=
          { u.regcache with
            registers := (DarwinPpc.fetchRegisters k t.port t.regcache.registers s.os).1
            registers_length := by
              rw [DarwinPpc.fetchRegisters_length]
              exact t.regcache.registers_length } }
    have hcomposed : (s.assignThread t.node fetched).assignThread t.node (setValid true) =
        s.assignThread t.node (filled k s.os) := by
      rw [assignThread_assignThread (f := fetched) t.node fun _ => rfl]
      exact assignThread_congr nodup h.mem (by simp [fetched, setValid, filled, hvalid])
    have hstate : ({ s.assignThread t.node fetched with
          os := filledOs k s.os t
          log := fillLog k s.os t ++ s.log } : Server σ).assignThread t.node (setValid true) =
        s.fill k t := by
      rw [Server.fill, ← hcomposed]
      rfl
    have hos : filledOs k s.os t =
        (DarwinPpc.fetchRegisters k t.port t.regcache.registers s.os).2 := by
      simp [filledOs, hvalid]
    have hlog : fillLog k s.os t = [.fetch t.node (DarwinPpc.fetched k t.port s.os)
        (DarwinPpc.fetchRegisters k t.port t.regcache.registers s.os).1] := by
      simp [fillLog, hvalid]
    rw [hos, hlog] at hstate
    simp only [getRegcache, darwinFetchRegisters, EStateM.run_bind, derefCurrent_run h, hvalid,
      Bool.false_eq_true, if_false, EStateM.run_modify]
    exact (congrArg (EStateM.run derefCurrent) hstate).trans (derefCurrent_run hlive)

theorem regAt_run {n : Nat} {r : Regcache.Reg RegName} (h : regDefs[n]? = some r) :
    (regAt n).run s = .ok r s := by
  simp [regAt, h]

theorem regAt_run_none {n : Nat} (h : regDefs[n]? = none) :
    (regAt n).run s = .error (.fault "reg_defs") s := by
  simp [regAt, h]

theorem registersToString_run (h : Live s t)
    (nodup : (s.allThreads.map ThreadInfo.node).Nodup) :
    (registersToString k).run s =
      .ok (convertIntToAscii (filled k s.os t).regcache.registers) (s.fill k t) := by
  simp [registersToString, getRegcache_run h nodup]

theorem collectRegisterAsString_run (h : Live s t)
    (nodup : (s.allThreads.map ThreadInfo.node).Nodup) {n : Nat} {r : Regcache.Reg RegName}
    (hr : regDefs[n]? = some r) :
    (collectRegisterAsString k n).run s =
      .ok (convertIntToAscii (Regcache.registerData r (filled k s.os t).regcache.registers))
        (s.fill k t) := by
  simp [collectRegisterAsString, regAt_run hr, getRegcache_run h nodup]

theorem supplyRegister_run (h : Live s t) {n : Nat} {r : Regcache.Reg RegName}
    (hr : regDefs[n]? = some r) (value : List Byte) :
    (supplyRegister n value).run s =
      .ok () ((s.record (.supply t.node t.regcache.valid true (r.offset / 8) value)).assignThread
        t.node (supply r value)) := by
  simp [supplyRegister, regAt_run hr, derefCurrent_run h]

/-- What `registers_from_string` decodes at `p`. -/
def decodedRegisters (p : List Byte) : List Byte × Bool :=
  convertAsciiToInt p (min (cstr p).length (2 * registerBytes) / 2)

/-- The bytes decoded are stored, even when an invalid digit follows them. -/
theorem registersFromString_run (h : Live s t)
    (nodup : (s.allThreads.map ThreadInfo.node).Nodup) (p : List Byte) :
    (registersFromString k p).run s =
      let decoded := decodedRegisters p
      let s' := ((s.fill k t).record (.supply t.node true decoded.2 0 decoded.1)).assignThread
        t.node (storeBytes decoded.1)
      if (decodedRegisters p).2 then .ok () s' else .error invalidDigit s' := by
  simp only [registersFromString, EStateM.run_bind, getRegcache_run h nodup,
    EStateM.run_modify, filled_node, filled_valid, decodedRegisters]
  split <;> rename_i complete <;> simp only [complete] <;> rfl

/-- The machine after `regcache_invalidate_one` for a thread. -/
def storedOs (k : Kernel σ) (os : σ) (t : ThreadInfo) : σ :=
  if t.regcache.valid then DarwinPpc.storeRegisters k t.port t.regcache.registers os else os

/-- What is recorded of it. -/
def storeLog (k : Kernel σ) (os : σ) (t : ThreadInfo) : List (Event σ) :=
  if t.regcache.valid then
    [.store t.node (DarwinPpc.stored k t.port t.regcache.registers os) t.regcache.registers]
  else []

/-- What is recorded for some threads, one after another. -/
def flushLog (k : Kernel σ) : List ThreadInfo → σ → List (Event σ)
  | [], _ => []
  | t :: ts, os => flushLog k ts (storedOs k os t) ++ storeLog k os t

/-- The state after `regcache_invalidate`. -/
def Server.flush (k : Kernel σ) (s : Server σ) : Server σ :=
  { s with
    os := s.allThreads.foldl (storedOs k) s.os
    log := flushLog k s.allThreads s.os ++ s.log
    allThreads := s.allThreads.map (setValid false) }

/-- What shows no fetch is the same after one. -/
theorem filterMap_fillLog {α : Type} {f : Event σ → Option α}
    (hf : ∀ node got registers, f (.fetch node got registers) = none) (os : σ) (t : ThreadInfo)
    (log : List (Event σ)) : (fillLog k os t ++ log).filterMap f = log.filterMap f := by
  unfold fillLog
  split
  · rfl
  · exact List.filterMap_cons_none (hf _ _ _)

/-- What shows no store is the same after some. -/
theorem filterMap_flushLog {α : Type} {f : Event σ → Option α}
    (hf : ∀ node set registers, f (.store node set registers) = none) (ts : List ThreadInfo)
    (os : σ) (log : List (Event σ)) :
    (flushLog k ts os ++ log).filterMap f = log.filterMap f := by
  induction ts generalizing os log with
  | nil => rfl
  | cons t ts ih =>
    rw [flushLog, List.append_assoc, ih]
    unfold storeLog
    split
    · exact List.filterMap_cons_none (hf _ _ _)
    · rfl

theorem darwinStoreRegisters_run (h : Live s t) :
    (darwinStoreRegisters k).run s =
      .ok ()
        { s.record (.store t.node
            (DarwinPpc.stored k t.port t.regcache.registers s.os) t.regcache.registers) with
          os := DarwinPpc.storeRegisters k t.port t.regcache.registers s.os } := by
  simp only [darwinStoreRegisters, EStateM.run_bind, derefCurrent_run h, EStateM.run_modify]

theorem regcacheInvalidateOne_run (nodup : (s.allThreads.map ThreadInfo.node).Nodup)
    (h : t ∈ s.allThreads) :
    (regcacheInvalidateOne k t.node).run s =
      .ok ()
        { s.assignThread t.node (setValid false) with
          os := storedOs k s.os t
          log := storeLog k s.os t ++ s.log } := by
  have hfind : s.threadAt t.node = some t := threadAt_of_mem nodup h
  cases hvalid : t.regcache.valid with
  | false =>
    simp only [regcacheInvalidateOne, EStateM.run_bind, EStateM.run_get, hfind, hvalid,
      Bool.false_eq_true, if_false, storedOs, storeLog]
    rfl
  | true =>
    have hlive : Live { s with currentInferior := some t.node } t := live_of_mem nodup h rfl
    simp only [regcacheInvalidateOne, EStateM.run_bind, EStateM.run_get, hfind, hvalid,
      if_true, EStateM.run_modify, darwinStoreRegisters_run hlive, storedOs, storeLog]
    rfl

theorem invalidateEach_run (nodup : (s.allThreads.map ThreadInfo.node).Nodup)
    {ts : List ThreadInfo} (listed : ∀ t ∈ ts, t ∈ s.allThreads)
    (apart : (ts.map ThreadInfo.node).Nodup) :
    (invalidateEach k (ts.map ThreadInfo.node)).run s = .ok ()
      { s with
        os := ts.foldl (storedOs k) s.os
        log := flushLog k ts s.os ++ s.log
        allThreads := s.allThreads.map fun u =>
          if u.node ∈ ts.map ThreadInfo.node then setValid false u else u } := by
  induction ts generalizing s with
  | nil => simp [invalidateEach, flushLog]
  | cons t ts ih =>
    rw [List.map_cons, List.nodup_cons] at apart
    let next : Server σ :=
      { s.assignThread t.node (setValid false) with
        os := storedOs k s.os t
        log := storeLog k s.os t ++ s.log }
    have hone : (regcacheInvalidateOne k t.node).run s = .ok () next :=
      regcacheInvalidateOne_run nodup (listed t List.mem_cons_self)
    have hnodup : (next.allThreads.map ThreadInfo.node).Nodup :=
      assignThread_nodup (f := setValid false) nodup t.node fun _ => rfl
    have hlisted : ∀ u ∈ ts, u ∈ next.allThreads := by
      intro u hu
      have hne : u.node ≠ t.node := fun heq =>
        apart.1 (heq ▸ List.mem_map_of_mem hu)
      exact List.mem_map.mpr ⟨u, listed u (List.mem_cons_of_mem _ hu), if_neg hne⟩
    have hmap : next.allThreads.map (fun u =>
          if u.node ∈ ts.map ThreadInfo.node then setValid false u else u) =
        s.allThreads.map fun u =>
          if u.node ∈ (t :: ts).map ThreadInfo.node then setValid false u else u := by
      simp only [next, Server.assignThread, List.map_map]
      apply List.map_congr_left
      intro u _
      by_cases hu : u.node = t.node
      · have hout : t.node ∉ ts.map ThreadInfo.node := apart.1
        simp [hu, setValid]
      · simp [hu]
    have hrest := ih hnodup hlisted apart.2
    rw [hmap] at hrest
    simp only [List.map_cons, invalidateEach, EStateM.run_bind, hone, flushLog, List.append_assoc]
    exact hrest

/-- `regcache_invalidate` -/
theorem regcacheInvalidate_run (nodup : (s.allThreads.map ThreadInfo.node).Nodup) :
    (regcacheInvalidate k).run s = .ok () (s.flush k) := by
  have hall : (s.allThreads.map fun u =>
      if u.node ∈ s.allThreads.map ThreadInfo.node then setValid false u else u) =
        s.allThreads.map (setValid false) :=
    List.map_congr_left fun u hu => if_pos (List.mem_map_of_mem hu)
  simp only [regcacheInvalidate, EStateM.run_bind, EStateM.run_get,
    invalidateEach_run nodup (fun _ h => h) nodup, hall]
  rfl

/-- The state after `darwin_resume` has made the request. -/
def Server.resumed (k : Kernel σ) (s : Server σ) (request : PtraceRequest) (pid sig : Int) :
    Server σ :=
  let s := s.flush k
  { s.record (.ptrace request pid sig s.os) with os := (k.ptrace request pid sig s.os).2 }

def resumeRequest (step : Bool) : PtraceRequest := if step then .step else .continue

theorem darwinResume_run (h : Live s t) (nodup : (s.allThreads.map ThreadInfo.node).Nodup)
    {info : List ThreadResume} {step : Bool} {sig : Int}
    (hchoice : resumeChoice t.pid info = some (step, sig)) :
    (darwinResume k info).run s =
      .ok () (s.resumed k (resumeRequest step) t.pid sig) := by
  simp only [darwinResume, EStateM.run_bind, derefCurrent_run h, hchoice,
    regcacheInvalidate_run nodup]
  rfl

theorem Live.resumed (h : Live s t) (request : PtraceRequest) (pid sig : Int) :
    Live (s.resumed k request pid sig) (setValid false t) := by
  have hcurrent : (s.resumed k request pid sig).currentInferior = some t.node := h.current
  have hfind : (s.allThreads.map (setValid false)).find? (fun u => u.node = t.node) =
      (s.threadAt t.node).map (setValid false) := by
    rw [List.find?_map]
    rfl
  rw [h.threadAt] at hfind
  rw [Live, hcurrent]
  exact hfind

theorem resumed_nodup (nodup : (s.allThreads.map ThreadInfo.node).Nodup)
    (request : PtraceRequest) (pid sig : Int) :
    ((s.resumed k request pid sig).allThreads.map ThreadInfo.node).Nodup := by
  have hnodes : (s.allThreads.map (setValid false)).map ThreadInfo.node =
      s.allThreads.map ThreadInfo.node := by
    rw [List.map_map]
    rfl
  exact hnodes ▸ nodup

/-- The array of `myresume` gives the current thread the step flag and the signal asked
for, whether or not it has an entry of its own. -/
theorem resumeChoice_myresumeInfo (contThread pid : Int) (step : Bool) (sig : Int) :
    resumeChoice pid (myresumeInfo contThread pid step sig) = some (step, sig) := by
  unfold myresumeInfo
  split
  · simp [resumeChoice]
  · rename_i hplain
    simp only [not_or, Bool.not_eq_true, not_not] at hplain
    simp [resumeChoice, hplain]

theorem myresume_run (h : Live s t) (nodup : (s.allThreads.map ThreadInfo.node).Nodup)
    (hid : t.id = t.pid) (step : Bool) (sig : Int) :
    (myresume k step sig).run s = .ok () (s.resumed k (resumeRequest step) t.pid sig) := by
  have hchoice := resumeChoice_myresumeInfo s.contThread t.pid step sig
  by_cases hown : step = true ∨ sig ≠ 0 ∨ s.contThread > 0
  · simp only [myresume, EStateM.run_bind, EStateM.run_get, if_pos hown, derefCurrent_run h,
      hid, darwinResume_run h nodup hchoice]
  · have hother : myresumeInfo s.contThread 0 step sig =
        myresumeInfo s.contThread t.pid step sig := by
      simp only [myresumeInfo, if_neg hown]
    simp only [myresume, EStateM.run_bind, EStateM.run_get, if_neg hown, hother,
      darwinResume_run h nodup hchoice]

/-- The signal that `parse_signal_byte` makes of the digits at `p`. -/
def signalByte (host : Signals.Host) (p : List Byte) : Option Nat :=
  let (bytes, complete) := convertAsciiToInt p 1
  if complete then
    some (if Signals.targetSignalToHostP host (deref bytes).toNat then
      Signals.targetSignalToHost host (deref bytes).toNat % 256 else 0)
  else none

theorem parseSignalByte_run (host : Signals.Host) (p : List Byte) (s : Server σ) :
    (parseSignalByte host p).run s =
      match signalByte host p with
      | some sig => .ok sig s
      | none => .error invalidDigit s := by
  unfold parseSignalByte signalByte
  cases hp : convertAsciiToInt p 1 with
  | mk bytes complete => cases complete <;> rfl

/-- Whether the task has a first thread. -/
def hasThread (k : Kernel σ) (task : Option Port) (os : σ) : Bool :=
  match task with
  | none => false
  | some task =>
    match (k.taskThreads task os).1 with
    | some (_ :: _) => true
    | _ => false

/-- Whether `darwin_wait` returns: `waitpid` reports on the process, and a process that
has stopped still has a thread. -/
def waits (k : Kernel σ) (task : Option Port) (pid : Int) (os : σ) : Bool :=
  match k.waitpid pid os with
  | (.failed, _) => false
  | (.exited _, _) => true
  | (.signaled _, _) => true
  | (.stopped _, os) => hasThread k task os
  | (.unknown, os) => hasThread k task os

def setPort (port : Port) (t : ThreadInfo) : ThreadInfo := { t with port := port }

/-- The state in which `mywait` calls the target's wait. -/
def Server.waiting (s : Server σ) (connectedWait : Bool) : Server σ :=
  { s with
    serverWaiting := connectedWait || s.serverWaiting
    log := .wait s.currentPid connectedWait (connectedWait || s.serverWaiting) s.sigio :: s.log }

theorem mywait_run (k : Kernel σ) (s : Server σ) (connectedWait : Bool) :
    (mywait k connectedWait).run s =
      (do
        let ret ← darwinWait k
        if connectedWait then
          modify fun s => { s with serverWaiting := false }
        modify fun s => { s with sig := ret } : Proc (Server σ) Unit).run
          (s.waiting connectedWait) := by
  cases connectedWait <;> rfl

/-- What the wait may change. -/
def Waited (s : Server σ) (t : ThreadInfo) (s' : Server σ) : Prop :=
  ∃ os port status sig waiting,
    s' =
      { s.assignThread t.node (setPort port) with
        os := os, status := status, sig := sig, serverWaiting := waiting }

theorem Waited.of_same_port (h : Live s t) (nodup : (s.allThreads.map ThreadInfo.node).Nodup)
    (os : σ) (status : Byte) : Waited s t { s with os := os, status := status } := by
  refine ⟨os, t.port, status, s.sig, s.serverWaiting, ?_⟩
  rw [assignThread_eq_self nodup h.mem rfl]

theorem darwinGetFirstThread_ends (task : Option Port) :
    Proc.Ends (darwinGetFirstThread k task)
      (fun _ s' => hasThread k task s.os = true ∧ ∃ os, s' = { s with os := os })
      (fun e s' => hasThread k task s.os = false ∧ (∃ m, e = .error m) ∧
        ∃ os, s' = { s with os := os }) s := by
  cases task with
  | none => exact ⟨rfl, ⟨_, rfl⟩, s.os, rfl⟩
  | some task =>
    simp only [darwinGetFirstThread, callKernel, Proc.Ends.bind_iff, Proc.Ends.modifyGet_iff,
      hasThread]
    rcases (k.taskThreads task s.os).1 with _ | (_ | ⟨thread, rest⟩)
    · exact ⟨rfl, ⟨_, rfl⟩, _, rfl⟩
    · exact ⟨rfl, ⟨_, rfl⟩, _, rfl⟩
    · exact ⟨rfl, _, rfl⟩

theorem darwinWait_ends (h : Live s t) (nodup : (s.allThreads.map ThreadInfo.node).Nodup) :
    Proc.Ends (darwinWait k)
      (fun _ s' => waits k s.currentTask t.pid s.os = true ∧ Waited s t s')
      (fun e s' => waits k s.currentTask t.pid s.os = false ∧ (∃ m, e = .error m) ∧
        Waited s t s') s := by
  have hstays : ∀ os status, Waited s t { s with os := os, status := status } :=
    Waited.of_same_port h nodup
  simp only [darwinWait, Proc.Ends.bind_iff, Proc.Ends.of_run (derefCurrent_run h), callKernel,
    Proc.Ends.modifyGet_iff, waits]
  rcases k.waitpid t.pid s.os with ⟨result, os⟩
  cases result with
  | failed => exact ⟨rfl, ⟨_, rfl⟩, hstays os s.status⟩
  | exited code => exact ⟨rfl, hstays os _⟩
  | signaled sig => exact ⟨rfl, hstays os _⟩
  | stopped sig =>
    simp only [Proc.Ends.bind_iff, Proc.Ends.get_iff]
    refine (darwinGetFirstThread_ends s.currentTask).imp ?_ ?_
    · rintro thread _ ⟨hthread, os, rfl⟩
      exact ⟨hthread, os, thread, _, _, _, rfl⟩
    · rintro e _ ⟨hthread, he, os, rfl⟩
      exact ⟨hthread, he, hstays os s.status⟩
  | unknown =>
    simp only [Proc.Ends.bind_iff, Proc.Ends.get_iff]
    refine (darwinGetFirstThread_ends s.currentTask).imp ?_ ?_
    · rintro thread _ ⟨hthread, os, rfl⟩
      exact ⟨hthread, os, thread, _, _, _, rfl⟩
    · rintro e _ ⟨hthread, he, os, rfl⟩
      exact ⟨hthread, he, hstays os s.status⟩

theorem mywait_ends (h : Live s t) (nodup : (s.allThreads.map ThreadInfo.node).Nodup)
    (connectedWait : Bool) :
    Proc.Ends (mywait k connectedWait)
      (fun _ s' => waits k s.currentTask t.pid s.os = true ∧ Waited (s.waiting connectedWait) t s')
      (fun e s' => waits k s.currentTask t.pid s.os = false ∧ (∃ m, e = .error m) ∧
        Waited (s.waiting connectedWait) t s') s := by
  have hwait : Proc.Ends (darwinWait k) _ _ (s.waiting connectedWait) := darwinWait_ends h nodup
  unfold Proc.Ends
  rw [mywait_run]
  change Proc.Ends _ _ _ (s.waiting connectedWait)
  rw [Proc.Ends.bind_iff]
  refine hwait.imp ?_ fun _ _ hend => hend
  rintro ret _ ⟨hwaits, os, port, status, sig, waiting, rfl⟩
  cases connectedWait with
  | false => exact ⟨hwaits, os, port, status, ret, waiting, rfl⟩
  | true => exact ⟨hwaits, os, port, status, ret, false, rfl⟩

/-- The letter and the byte that `darwin_wait` makes of what `waitpid` reports. -/
def WaitResult.reported : WaitResult → Byte × Byte
  | .exited code => (ch 'W', code)
  | .signaled sig => (ch 'X', sig)
  | .stopped sig => (ch 'T', sig)
  | .unknown => (ch '?', 0)
  | .failed => (0, 0)

/-- What the server has saved of the last event is `result`. -/
def Server.Reports (s : Server σ) (result : WaitResult) : Prop :=
  result ≠ .failed ∧ (s.status, s.sig) = result.reported

theorem darwinWait_reports (h : Live s t) :
    Proc.Ends (darwinWait k)
      (fun ret s' => { s' with sig := ret }.Reports (k.waitpid t.pid s.os).1)
      (fun _ s' => (s'.status, s'.sig) = (s.status, s.sig)) s := by
  simp only [darwinWait, Proc.Ends.bind_iff, Proc.Ends.of_run (derefCurrent_run h), callKernel,
    Proc.Ends.modifyGet_iff]
  rcases k.waitpid t.pid s.os with ⟨result, os⟩
  cases result with
  | failed => exact rfl
  | exited code => exact ⟨by simp, rfl⟩
  | signaled sig => exact ⟨by simp, rfl⟩
  | stopped sig =>
    simp only [Proc.Ends.bind_iff, Proc.Ends.get_iff]
    refine (darwinGetFirstThread_ends s.currentTask).imp ?_ ?_
    · exact fun _ _ _ => ⟨by simp, rfl⟩
    · rintro _ _ ⟨_, _, os, rfl⟩
      rfl
  | unknown =>
    simp only [Proc.Ends.bind_iff, Proc.Ends.get_iff]
    refine (darwinGetFirstThread_ends s.currentTask).imp ?_ ?_
    · exact fun _ _ _ => ⟨by simp, rfl⟩
    · rintro _ _ ⟨_, _, os, rfl⟩
      rfl

/-- A wait that returns has saved the result of `waitpid`, and one that fails nothing. -/
theorem mywait_reports (h : Live s t) (connectedWait : Bool) :
    Proc.Ends (mywait k connectedWait) (fun _ s' => s'.Reports (k.waitpid t.pid s.os).1)
      (fun _ s' => (s'.status, s'.sig) = (s.status, s.sig)) s := by
  have hwait : Proc.Ends (darwinWait k) _ _ (s.waiting connectedWait) := darwinWait_reports h
  unfold Proc.Ends
  rw [mywait_run]
  change Proc.Ends _ _ _ (s.waiting connectedWait)
  rw [Proc.Ends.bind_iff]
  refine hwait.imp ?_ fun _ _ hend => hend
  cases connectedWait with
  | false => exact fun _ _ hreports => hreports
  | true => exact fun _ _ hreports => hreports

/-- The saved event is the one of before, or another. -/
def Informed (s s' : Server σ) : Prop :=
  (s'.status, s'.sig) = (s.status, s.sig) ∨ ∃ result, s'.Reports result

/-- The state with a text and its NUL at the start of `own_buf`. -/
def Server.withText (s : Server σ) (text : List Byte) : Server σ :=
  { s with
    link :=
      { s.link with
        session :=
          { s.link.session with
            ownBuf := text ++ 0 :: s.link.session.ownBuf.drop (text.length + 1) } } }

theorem reply_run {text : List Byte} (h : text.length < pbufsiz) :
    (reply text).run s = .ok () (s.withText text) := by
  simp only [reply, h, if_true]
  rfl

theorem reply_run_long {text : List Byte} (h : pbufsiz ≤ text.length) :
    (reply text).run s = .error (.fault "own_buf") s := by
  simp only [reply, Nat.not_lt.mpr h, if_false]
  rfl

theorem Live.fill (h : Live s t) : Live (s.fill k t) (filled k s.os t) :=
  h.assign fun u => filled_node s.os u

theorem fill_nodup (nodup : (s.allThreads.map ThreadInfo.node).Nodup) :
    ((s.fill k t).allThreads.map ThreadInfo.node).Nodup :=
  assignThread_nodup nodup t.node fun u => filled_node s.os u

/-- A cache that is valid is not filled again. -/
theorem fill_of_valid (h : Live s t) (nodup : (s.allThreads.map ThreadInfo.node).Nodup)
    (valid : t.regcache.valid = true) : s.fill k t = s := by
  have hos : filledOs k s.os t = s.os := if_pos valid
  rw [Server.fill, assignThread_eq_self nodup h.mem (filled_of_valid valid s.os), hos,
    fillLog_of_valid valid, List.nil_append]

theorem convertIntToAscii_length (bytes : List Byte) :
    (convertIntToAscii bytes).length = 2 * bytes.length := by
  induction bytes with
  | nil => rfl
  | cons b bytes ih =>
    have hpair : (convertIntToAscii (b :: bytes)).length = 2 + (convertIntToAscii bytes).length :=
      List.length_append
    rw [hpair, ih, List.length_cons]
    omega

/-- What `outreg` writes for register `regno` with the bytes `data`. -/
def registerField (regno : Nat) (data : List Byte) : List Byte :=
  (if regno / 4096 ≠ 0 then [tohex (regno / 4096 % 16)] else []) ++
    (if regno / 256 ≠ 0 then [tohex (regno / 256 % 16)] else []) ++
    [tohex (regno / 16 % 16), tohex (regno % 16), ch ':'] ++ convertIntToAscii data ++ [ch ';']

theorem registerField_length (regno : Nat) {data : List Byte} (h : data.length ≤ 8) :
    (registerField regno data).length ≤ 24 := by
  simp only [registerField, List.length_append, convertIntToAscii_length, List.length_cons,
    List.length_nil]
  split <;> split <;> simp only [List.length_cons, List.length_nil] <;> omega

theorem outreg_run (h : Live s t) (nodup : (s.allThreads.map ThreadInfo.node).Nodup)
    (name : RegName) :
    (outreg k (findRegno name)).run s =
      .ok (registerField (findRegno name)
        (collectByName name (filled k s.os t).regcache.registers)) (s.fill k t) := by
  have hr : regDefs[findRegno name]? = some (named name) :=
    List.getElem?_eq_getElem (findRegno_lt name)
  simp only [outreg, EStateM.run_bind, collectRegisterAsString_run h nodup hr]
  rfl

/-- The fields of some registers, out of one cache. -/
def registerFields (names : List RegName) (registers : List Byte) : List Byte :=
  names.flatMap fun name => registerField (findRegno name) (collectByName name registers)

theorem registerFields_length (names : List RegName) (registers : List Byte) :
    (registerFields names registers).length ≤ 24 * names.length := by
  induction names with
  | nil => exact Nat.le_refl 0
  | cons name names ih =>
    have hsize : (collectByName name registers).length ≤ 8 := by
      have hle := regDefs_size_le (named_mem name)
      simp only [collectByName, Regcache.registerData, List.length_take]
      omega
    have hfield := registerField_length (findRegno name) hsize
    simp only [registerFields, List.flatMap_cons, List.length_append, List.length_cons] at ih ⊢
    omega

theorem outregs_run (h : Live s t) (nodup : (s.allThreads.map ThreadInfo.node).Nodup)
    (name : RegName) (names : List RegName) :
    (outregs k (name :: names)).run s =
      .ok (registerFields (name :: names) (filled k s.os t).regcache.registers)
        (s.fill k t) := by
  induction names generalizing s t name with
  | nil =>
    simp only [outregs, EStateM.run_bind, outreg_run h nodup]
    rfl
  | cons next names ih =>
    have hruns := ih (h.fill (k := k)) (fill_nodup nodup) next
    have hfilled : filled k (s.fill k t).os (filled k s.os t) = filled k s.os t := by
      rw [filled, if_pos (filled_valid s.os t)]
    rw [fill_of_valid h.fill (fill_nodup nodup) (filled_valid s.os t), hfilled] at hruns
    rw [outregs]
    simp only [EStateM.run_bind, outreg_run h nodup, hruns]
    rfl

/-- The state in which `prepare_resume_reply` writes its text. -/
def Server.reported (k : Kernel σ) (s : Server σ) (t : ThreadInfo) : Server σ :=
  if s.status = ch 'T' then
    { s.fill k t with threadFromWait := t.id, generalThread := t.id, oldThreadFromWait := t.id }
  else s

/-- The text it writes. -/
def resumeReply (k : Kernel σ) (host : Signals.Host) (s : Server σ) (t : ThreadInfo) :
    List Byte :=
  let code := Signals.targetSignalFromHost host s.sig.toNat
  let head := [s.status, tohex (code / 16 % 16), tohex (code % 16)]
  if s.status = ch 'T' then
    head ++ (registerFields expediteRegsPpc (filled k s.os t).regcache.registers ++
      ascii "thread:" ++ hexText t.id ++ [ch ';'])
  else head

theorem resumeReply_length (k : Kernel σ) (host : Signals.Host) (s : Server σ) (t : ThreadInfo) :
    (resumeReply k host s t).length ≤ 67 := by
  have hfields := registerFields_length expediteRegsPpc (filled k s.os t).regcache.registers
  have hnames : expediteRegsPpc.length = 2 := rfl
  have hthread : (ascii "thread:").length = 7 := rfl
  have hhex := hexText_length t.id
  unfold resumeReply
  split <;> simp only [List.length_append, List.length_cons, List.length_nil] <;> omega

theorem prepareResumeReply_run (k : Kernel σ) (host : Signals.Host) (h : Live s t)
    (nodup : (s.allThreads.map ThreadInfo.node).Nodup) :
    (prepareResumeReply k host).run s =
      .ok () ((s.reported k t).withText (resumeReply k host s t)) := by
  have hlen : (resumeReply k host s t).length < pbufsiz :=
    Nat.lt_of_le_of_lt (resumeReply_length k host s t) (by decide)
  unfold resumeReply at hlen ⊢
  by_cases hstatus : s.status = ch 'T'
  · simp only [hstatus, if_true] at hlen ⊢
    simp only [prepareResumeReply, expediteText, EStateM.run_bind, EStateM.run_get, hstatus,
      if_true, expediteRegsPpc, outregs_run h nodup, derefCurrent_run h.fill,
      EStateM.run_modify, filled_id, Server.reported]
    exact reply_run hlen
  · simp only [hstatus, if_false] at hlen ⊢
    simp only [prepareResumeReply, EStateM.run_bind, EStateM.run_get, hstatus, if_false,
      Server.reported]
    exact reply_run hlen

end Gdbserver
