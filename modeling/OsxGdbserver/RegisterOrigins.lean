import OsxGdbserver.PacketInvariants
import OsxGdbserver.Lib.Epochs

/-!
# Where the registers that are written back come from

A flavour that `thread_get_state` refuses leaves its part of the cache as it is, and the
cache is marked valid all the same. When the inferior is let run, what is written back was
read from the thread or supplied by the client, unless a flavour that could not be read can
now be set.
-/

namespace Gdbserver

open Remote CString Ppc Epochs

variable {σ α : Type} {k : Kernel σ} {host : Signals.Host} {s : Server σ} {t : ThreadInfo}
  {rs : List (List Byte)} {log : List (Event σ)}

def Event.isWait : Event σ → Bool
  | .wait .. => true
  | _ => false

/-- What the log tells about registers. -/
def Event.isTransfer : Event σ → Bool
  | .wait .. | .fetch .. | .store .. | .supply .. => true
  | _ => false

def Server.transfers (s : Server σ) : List (Event σ) := s.log.filter Event.isTransfer

/-- The transfers since the inferior last stopped. -/
abbrev sinceStop (log : List (Event σ)) : List (Event σ) := recent Event.isWait log

/-- The event has given this byte of a register of the thread this value. -/
def Event.gives (node : Nat) (e : Event σ) (i : RegName × Nat) (value : Option Byte) : Prop :=
  match e with
  | .fetch n got registers =>
    n = node ∧ got.has i.1 = true ∧ (collectByName i.1 registers)[i.2]? = value
  | .supply n _ _ offset bytes =>
    n = node ∧ i.2 < i.1.bytes ∧
      (offset ≤ place i.1 i.2 ∧ place i.1 i.2 < offset + bytes.length) ∧
      bytes[place i.1 i.2 - offset]? = value
  | _ => False

/-- The event is the client's. -/
def Event.isSupply : Event σ → Bool
  | .supply .. => true
  | _ => false

/-- Each register byte that a store has set was, since the thread last stopped, read from
the thread or supplied by the client. -/
def WritesReal (e : Event σ) (earlier : List (Event σ)) : Prop :=
  ∀ node set registers, e = .store node set registers → ∀ name, set.has name = true →
    ∀ j < name.bytes, ∃ e' ∈ sinceStop earlier,
      e'.gives node (name, j) (collectByName name registers)[j]?

/-- A register whose flavour could not be read is set only after the client has supplied all
of it. -/
def SetsOnlyKnown (e : Event σ) (earlier : List (Event σ)) : Prop :=
  ∀ node set registers, e = .store node set registers → ∀ name, set.has name = true →
    ∀ got fetched, .fetch node got fetched ∈ sinceStop earlier → got.has name = false →
      ∀ j < name.bytes, ∃ e' ∈ sinceStop earlier, e'.isSupply = true ∧
        ∃ value, e'.gives node (name, j) value

/-- The cache of each thread is what the transfers have made of it: one fetch since the
thread stopped if it is valid, and none if it is not. But for a flavour that could not be
read, only real values have been written. -/
structure Accounted (threads : List ThreadInfo) (log : List (Event σ)) : Prop where
  unread : ∀ t ∈ threads, t.regcache.valid = false →
    ∀ got registers, .fetch t.node got registers ∉ sinceStop log
  read : ∀ t ∈ threads, t.regcache.valid = true → ∃ got, ∀ got',
    (∃ registers, .fetch t.node got' registers ∈ sinceStop log) ↔ got' = got
  backed : ∀ t ∈ threads, Backed (Event.gives t.node) (sinceStop log)
    fun i => (collectByName i.1 t.regcache.registers)[i.2]?
  real : Always SetsOnlyKnown log ↔ Always WritesReal log

theorem Accounted.of_subset {ts ts' : List ThreadInfo} (h : Accounted ts log) (hts : ts' ⊆ ts) :
    Accounted ts' log where
  unread t ht := h.unread t (hts ht)
  read t ht := h.read t (hts ht)
  backed t ht := h.backed t (hts ht)
  real := h.real

/-- What is asked of one thread alone. -/
theorem Accounted.singleton
    (unread : t.regcache.valid = false →
      ∀ got registers, .fetch t.node got registers ∉ sinceStop log)
    (read : t.regcache.valid = true → ∃ got, ∀ got',
      (∃ registers, .fetch t.node got' registers ∈ sinceStop log) ↔ got' = got)
    (backed : Backed (Event.gives t.node) (sinceStop log)
      fun i => (collectByName i.1 t.regcache.registers)[i.2]?)
    (real : Always SetsOnlyKnown log ↔ Always WritesReal log) : Accounted [t] log := by
  constructor
  · rintro u hu
    rwa [List.mem_singleton.mp hu]
  · rintro u hu
    rwa [List.mem_singleton.mp hu]
  · rintro u hu
    rwa [List.mem_singleton.mp hu]
  · exact real

/-- An event that is not a store writes nothing. -/
theorem always_iff_of_ne {e : Event σ} (ne : ∀ node set registers, e ≠ .store node set registers)
    (h : Always SetsOnlyKnown log ↔ Always WritesReal log) :
    Always SetsOnlyKnown (e :: log) ↔ Always WritesReal (e :: log) := by
  have hknown : SetsOnlyKnown e log := fun node set registers heq =>
    absurd heq (ne node set registers)
  have hreal : WritesReal e log := fun node set registers heq =>
    absurd heq (ne node set registers)
  exact ⟨fun hall => ⟨hreal, h.mp hall.2⟩, fun hall => ⟨hknown, h.mpr hall.2⟩⟩

theorem Accounted.fetch (h : Accounted [t] log) (os : σ) :
    Accounted [filled k os t] (fillLog k os t ++ log) := by
  cases hvalid : t.regcache.valid with
  | true =>
    rw [filled_of_valid hvalid, fillLog_of_valid hvalid]
    exact h
  | false =>
    let got := DarwinPpc.fetched k t.port os
    let registers := (DarwinPpc.fetchRegisters k t.port t.regcache.registers os).1
    have hlog : fillLog k os t = [.fetch t.node got registers] := by
      simp [fillLog, hvalid, got, registers]
    have hregs : (filled k os t).regcache.registers = registers := by
      simp [filled, hvalid, registers]
    have hnone := h.unread t List.mem_cons_self hvalid
    rw [hlog]
    apply Accounted.singleton
    · intro hinvalid
      rw [filled_valid] at hinvalid
      cases hinvalid
    · refine fun _ => ⟨got, fun got' => ?_⟩
      rw [filled_node]
      constructor
      · rintro ⟨registers', hmem⟩
        rcases List.mem_cons.mp hmem with heq | hold
        · cases heq
          rfl
        · exact absurd hold (hnone got' registers')
      · rintro rfl
        exact ⟨registers, List.mem_cons_self⟩
    · rw [filled_node, hregs]
      refine (h.backed t List.mem_cons_self).cons ?_
      rintro ⟨name, j⟩
      cases hgot : got.has name with
      | true => exact Or.inl ⟨rfl, hgot, rfl⟩
      | false =>
        refine Or.inr ⟨?_, ?_⟩
        · rintro b ⟨_, hhas, _⟩
          rw [hgot] at hhas
          cases hhas
        · exact congrArg (fun bytes : List Byte => bytes[j]?)
            (DarwinPpc.collect_fetchRegisters_of_not_got k t.regcache.registers_length hgot)
    · exact always_iff_of_ne (by simp) h.real

/-- The client's bytes go into the cache as they come. -/
theorem Accounted.supply (h : Accounted [t] log) (valid complete : Bool) (offset : Nat)
    (bytes : List Byte) {t' : ThreadInfo} (node : t'.node = t.node)
    (same : t'.regcache.valid = t.regcache.valid)
    (registers : t'.regcache.registers = Overlay.memcpy t.regcache.registers offset bytes) :
    Accounted [t'] (.supply t.node valid complete offset bytes :: log) := by
  have hmem : ∀ got fetched, Event.fetch t.node got fetched ∈
        sinceStop (.supply t.node valid complete offset bytes :: log) ↔
      Event.fetch t.node got fetched ∈ sinceStop log := by
    intro got fetched
    constructor
    · intro hin
      rcases List.mem_cons.mp hin with heq | hold
      · cases heq
      · exact hold
    · exact List.mem_cons_of_mem _
  apply Accounted.singleton
  · intro hinvalid got fetched
    rw [node, hmem]
    exact h.unread t List.mem_cons_self (same.symm.trans hinvalid) got fetched
  · intro hvalid
    obtain ⟨got, hgot⟩ := h.read t List.mem_cons_self (same.symm.trans hvalid)
    refine ⟨got, fun got' => ?_⟩
    rw [node, exists_congr (hmem got')]
    exact hgot got'
  · rw [node, registers]
    refine (h.backed t List.mem_cons_self).cons ?_
    rintro ⟨name, j⟩
    dsimp only
    by_cases hj : j < name.bytes
    · have hlt : place name j < t.regcache.registers.length := by
        rw [t.regcache.registers_length]
        exact place_lt hj
      rw [getElem?_collectByName hj, getElem?_collectByName hj, Overlay.getElem?_memcpy _ _ _ hlt]
      by_cases hin : offset ≤ place name j ∧ place name j < offset + bytes.length
      · rw [if_pos hin]
        exact Or.inl ⟨rfl, hj, hin, rfl⟩
      · rw [if_neg hin]
        exact Or.inr ⟨fun b hgives => hin hgives.2.2.1, rfl⟩
    · have hnone : ∀ xs : List Byte, xs.length = registerBytes →
          (collectByName name xs)[j]? = none := by
        intro xs hxs
        apply List.getElem?_eq_none
        rw [collectByName_length name hxs]
        exact Nat.not_lt.mp hj
      have hlen : (Overlay.memcpy t.regcache.registers offset bytes).length = registerBytes := by
        rw [Overlay.memcpy_length]
        exact t.regcache.registers_length
      rw [hnone _ hlen, hnone _ t.regcache.registers_length]
      exact Or.inr ⟨fun b hgives => hj hgives.2.1, rfl⟩
  · exact always_iff_of_ne (by simp) h.real

/-- The cache was filled once since the thread stopped. A flavour that could not be read then
has only the client as a source. -/
theorem Accounted.writesReal_iff (h : Accounted [t] log) (valid : t.regcache.valid = true)
    (set : DarwinPpc.Flavours) :
    SetsOnlyKnown (.store t.node set t.regcache.registers) log ↔
      WritesReal (.store t.node set t.regcache.registers) log := by
  obtain ⟨got, hgot⟩ := h.read t List.mem_cons_self valid
  obtain ⟨fetched, hmem⟩ := (hgot got).mpr rfl
  constructor
  · rintro hknown node set' registers heq name hset j hj
    cases heq
    refine h.backed t List.mem_cons_self (name, j) ?_
    cases hhas : got.has name with
    | true => exact ⟨_, hmem, _, rfl, hhas, rfl⟩
    | false =>
      obtain ⟨e, he, _, hgives⟩ := hknown _ _ _ rfl name hset got fetched hmem hhas j hj
      exact ⟨e, he, hgives⟩
  · rintro hreal node set' registers heq name hset got' fetched' hmem' hhas j hj
    cases heq
    obtain ⟨e, he, hgives⟩ := hreal _ _ _ rfl name hset j hj
    cases e with
    | supply => exact ⟨_, he, rfl, _, hgives⟩
    | fetch node got'' registers =>
      obtain ⟨rfl, hhas'', _⟩ := hgives
      have hsame : got'' = got' :=
        ((hgot got'').mp ⟨_, he⟩).trans ((hgot got').mp ⟨_, hmem'⟩).symm
      rw [hsame, hhas] at hhas''
      cases hhas''
    | store => exact hgives.elim
    | wait => exact hgives.elim
    | putpkt => exact hgives.elim
    | launch => exact hgives.elim
    | ptrace => exact hgives.elim
    | reap => exact hgives.elim
    | kill => exact hgives.elim

/-- The cache is written back if it is valid, and the thread is waited for. -/
theorem Accounted.resume (h : Accounted [t] log) (os : σ) (pid : Option Int)
    (connectedWait serverWaiting : Bool) (sigio : Disposition) {t' : ThreadInfo}
    (invalid : t'.regcache.valid = false) :
    Accounted [t'] (.wait pid connectedWait serverWaiting sigio :: (storeLog k os t ++ log)) := by
  have hnone : sinceStop (.wait pid connectedWait serverWaiting sigio ::
      (storeLog k os t ++ log)) = [] := recent_boundary rfl
  apply Accounted.singleton
  · intro _ got registers
    rw [hnone]
    exact List.not_mem_nil
  · intro hvalid
    rw [invalid] at hvalid
    cases hvalid
  · rw [hnone]
    exact Backed.nil
  · have hne : ∀ node set registers, (.wait pid connectedWait serverWaiting sigio : Event σ) ≠
        .store node set registers := by simp
    refine always_iff_of_ne hne ?_
    cases hvalid : t.regcache.valid with
    | false =>
      have hlog : storeLog k os t = [] := by simp [storeLog, hvalid]
      rw [hlog]
      exact h.real
    | true =>
      let set := DarwinPpc.stored k t.port t.regcache.registers os
      have hlog : storeLog k os t = [.store t.node set t.regcache.registers] := by
        simp [storeLog, hvalid, set]
      rw [hlog]
      exact and_congr (h.writesReal_iff hvalid set) h.real

/-- The threads, and the transfers of their registers. -/
def Server.books (s : Server σ) : List ThreadInfo × List (Event σ) := (s.allThreads, s.transfers)

/-- The transfers so far account for what the caches hold. -/
def Sound (s : Server σ) : Prop := Accounted s.allThreads s.transfers

theorem Sound.of_books (h : Sound s) {s' : Server σ} (same : s'.books = s.books) : Sound s' := by
  simp only [Server.books, Prod.mk.injEq] at same
  unfold Sound
  rw [same.1, same.2]
  exact h

theorem fill_transfers (k : Kernel σ) (s : Server σ) (t : ThreadInfo) :
    (s.fill k t).transfers = fillLog k s.os t ++ s.transfers := by
  unfold Server.fill Server.transfers fillLog
  split <;> rfl

/-- No cache has been filled yet. -/
structure Unread (s : Server σ) : Prop where
  invalid : ∀ t ∈ s.allThreads, t.regcache.valid = false
  waits : ∀ e ∈ s.transfers, e.isWait = true

namespace Unread

theorem keeps (h : Unread s) {p : Proc (Server σ) α} (hp : Proc.Keeps Server.books p) :
    Stays Unread p s := by
  have hsame := hp s
  simp only [Server.books, Prod.mk.injEq] at hsame
  constructor
  · rw [hsame.1]
    exact h.invalid
  · rw [hsame.2]
    exact h.waits

theorem assign (h : Unread s) (node : Nat) {f : ThreadInfo → ThreadInfo}
    (invalid : ∀ t : ThreadInfo, t.regcache.valid = false → (f t).regcache.valid = false) :
    Unread (s.assignThread node f) := by
  refine ⟨?_, h.waits⟩
  intro t ht
  obtain ⟨u, hu, rfl⟩ := List.mem_map.mp ht
  split
  · exact invalid u (h.invalid u hu)
  · exact h.invalid u hu

theorem recordWait (h : Unread s) (pid : Option Int) (connectedWait serverWaiting : Bool)
    (sigio : Disposition) : Unread (s.record (.wait pid connectedWait serverWaiting sigio)) := by
  refine ⟨h.invalid, ?_⟩
  intro e he
  rcases List.mem_cons.mp he with rfl | he
  · rfl
  · exact h.waits e he

theorem callKernel (h : Unread s) (f : σ → α × σ) : Stays Unread (Gdbserver.callKernel f) s :=
  h.keeps (.modifyGet fun _ => rfl)

theorem ptrace (h : Unread s) (request : PtraceRequest) (pid data : Int) :
    Stays Unread (Gdbserver.ptrace k request pid data) s :=
  h.keeps (.bind (.modify fun _ => rfl) fun _ => .modifyGet fun _ => rfl)

theorem getFirstThread (h : Unread s) (task : Option Port) :
    Stays Unread (darwinGetFirstThread k task) s := by
  cases task with
  | none => exact h
  | some task =>
    refine .bind (h.callKernel _) fun threads s' h' => ?_
    rcases threads with _ | _ | ⟨thread, rest⟩
    · exact h'
    · exact h'
    · exact h'

theorem addProcess (h : Unread s) (pid : Int) : Stays Unread (Gdbserver.addProcess k pid) s := by
  refine .bind (h.callKernel _) fun task s₁ h₁ => ?_
  cases task with
  | none => exact h₁
  | some task =>
    have h₂ : Unread { s₁ with currentTask := some task } := ⟨h₁.invalid, h₁.waits⟩
    refine .bind_run (EStateM.run_modify _ _) (.bind (h₂.getFirstThread _) fun port s₃ h₃ => ?_)
    refine ⟨?_, h₃.waits⟩
    intro t ht
    rcases List.mem_append.mp ht with ht | ht
    · exact h₃.invalid t ht
    · rw [List.mem_singleton.mp ht]
      rfl

theorem darwinWait (h : Unread s) : Stays Unread (Gdbserver.darwinWait k) s := by
  have hstopped : ∀ (proc : ThreadInfo) (letter sig : Byte) (s : Server σ), Unread s →
      Stays Unread (do
        let thread ← darwinGetFirstThread k (← get).currentTask
        modify fun s : Server σ => s.assignThread proc.node fun t => { t with port := thread }
        modify fun s => { s with status := letter }
        return sig) s := by
    intro proc letter sig s h
    refine .bind_run rfl (.bind (h.getFirstThread _) fun thread s₁ h₁ => ?_)
    have hassigned : Unread (s₁.assignThread proc.node fun t => { t with port := thread }) :=
      h₁.assign _ fun _ invalid => invalid
    exact ⟨hassigned.invalid, hassigned.waits⟩
  refine .bind (h.keeps derefCurrent_keeps) fun proc s₁ h₁ => ?_
  refine .bind (h₁.callKernel _) fun result s₂ h₂ => ?_
  cases result with
  | failed => exact h₂
  | exited code => exact ⟨h₂.invalid, h₂.waits⟩
  | signaled sig => exact ⟨h₂.invalid, h₂.waits⟩
  | stopped sig => exact hstopped proc _ _ s₂ h₂
  | unknown => exact hstopped proc _ _ s₂ h₂

theorem mywait (h : Unread s) (connectedWait : Bool) :
    Stays Unread (Gdbserver.mywait k connectedWait) s := by
  have hwaiting : Unread (s.waiting connectedWait) := by
    have hrecorded := h.recordWait s.currentPid connectedWait
      (connectedWait || s.serverWaiting) s.sigio
    exact ⟨hrecorded.invalid, hrecorded.waits⟩
  unfold Stays
  rw [mywait_run]
  refine Stays.bind hwaiting.darwinWait fun ret s₁ h₁ => ?_
  exact h₁.keeps (.ite (.bind (.modify fun _ => rfl) fun _ => .modify fun _ => rfl)
    (.modify fun _ => rfl))

theorem startInferior (h : Unread s) : Stays Unread (Gdbserver.startInferior k) s := by
  have hcreate : Stays Unread (darwinCreateInferior k) s := by
    refine .bind (h.callKernel _) fun pid s₁ h₁ => ?_
    cases pid with
    | none => exact h₁
    | some pid =>
      have h₂ : Unread (s₁.record (.launch pid)) := ⟨h₁.invalid, h₁.waits⟩
      exact .bind_run rfl (.bind (h₂.addProcess pid) fun _ _ h₃ => h₃)
  refine .bind hcreate fun pid s₁ h₁ => ?_
  have h₂ : Unread { s₁ with signalPid := pid } := ⟨h₁.invalid, h₁.waits⟩
  exact .bind_run (EStateM.run_modify _ _) (h₂.mywait false)

theorem attachInferior (h : Unread s) (pid : Int) :
    Stays Unread (Gdbserver.attachInferior k pid) s := by
  have hattach : Stays Unread (darwinAttach k pid) s :=
    .bind (h.ptrace _ _ _) fun _ _ h₁ =>
      .ite (fun _ => .bind (h₁.addProcess pid) fun _ _ h₂ => h₂) fun _ => h₁
  refine .bind hattach fun result s₁ h₁ => .ite (fun _ => h₁) fun _ => ?_
  have h₂ : Unread { s₁ with signalPid := pid } := ⟨h₁.invalid, h₁.waits⟩
  exact .bind_run (EStateM.run_modify _ _) (.bind (h₂.mywait false) fun _ _ h₃ => h₃)

/-- There is nothing to write back. -/
theorem regcacheInvalidate (h : Unread s) : Stays Unread (Gdbserver.regcacheInvalidate k) s := by
  have hone : ∀ (node : Nat) (s : Server σ), Unread s →
      Stays Unread (regcacheInvalidateOne k node) s := by
    intro node s h
    refine .bind_run rfl ?_
    cases hfind : s.threadAt node with
    | none => exact h
    | some t =>
      have hinvalid := h.invalid t (List.mem_of_find?_eq_some hfind)
      dsimp only
      rw [hinvalid, if_neg Bool.false_ne_true]
      exact h.assign (f := setValid false) node fun _ _ => rfl
  have heach : ∀ (nodes : List Nat) (s : Server σ), Unread s →
      Stays Unread (invalidateEach k nodes) s := by
    intro nodes
    induction nodes with
    | nil => exact fun _ h => h
    | cons node rest ih => exact fun s h => .bind (hone node s h) fun _ s₁ h₁ => ih s₁ h₁
  exact .bind_run rfl (heach _ s h)

theorem myresume (h : Unread s) (step : Bool) (sig : Int) :
    Stays Unread (Gdbserver.myresume k step sig) s := by
  have hresume : ∀ info (s : Server σ), Unread s → Stays Unread (darwinResume k info) s := by
    intro info s h
    refine .bind (h.keeps derefCurrent_keeps) fun proc s₁ h₁ => ?_
    cases resumeChoice proc.pid info with
    | none => exact h₁
    | some choice =>
      exact .bind h₁.regcacheInvalidate fun _ s₂ h₂ => .bind (h₂.ptrace _ _ _) fun _ _ h₃ => h₃
  exact .bind_run rfl (.ite (fun _ => .bind (h.keeps derefCurrent_keeps) fun _ s₁ h₁ =>
    hresume _ s₁ h₁) fun _ => hresume _ s h)

theorem prepareInferior (h : Unread s) (ep pid : Int) :
    Stays Unread (Gdbserver.prepareInferior k ep pid) s := by
  refine .bind_run rfl (.ite (fun _ => .bind (h.attachInferior pid) fun _ s₁ h₁ =>
    .ite (fun _ => h₁) fun _ => h₁) fun _ => .bind h.startInferior fun _ s₁ h₁ => ?_)
  refine .ite (fun _ => h₁) fun _ => ?_
  refine .bind (h₁.keeps (withMemory_keeps (fun _ _ _ _ => rfl) _)) fun _ s₂ h₂ => ?_
  refine .bind (h₂.myresume false 0) fun _ s₃ h₃ => .bind (h₃.mywait false) fun _ s₄ h₄ => ?_
  exact h₄.keeps (withMemory_keeps (fun _ _ _ _ => rfl) _)

theorem sinceStop_eq (h : Unread s) : sinceStop s.transfers = [] := by
  have hwaits := h.waits
  cases hlog : s.transfers with
  | nil => rfl
  | cons e log =>
    rw [hlog] at hwaits
    exact recent_boundary (hwaits e List.mem_cons_self)

/-- There is nothing to account for. -/
theorem sound (h : Unread s) : Sound s := by
  have halways : ∀ (Q : Event σ → List (Event σ) → Prop),
      (∀ e earlier, e.isWait = true → Q e earlier) →
        ∀ log : List (Event σ), (∀ e ∈ log, e.isWait = true) → Always Q log := by
    intro Q hQ log hwaits
    induction log with
    | nil => trivial
    | cons e log ih =>
      exact ⟨hQ e log (hwaits e List.mem_cons_self),
        ih fun e' he' => hwaits e' (List.mem_cons_of_mem _ he')⟩
  have hnone := h.sinceStop_eq
  constructor
  · intro t _ _ got registers
    rw [hnone]
    exact List.not_mem_nil
  · intro t ht hvalid
    rw [h.invalid t ht] at hvalid
    cases hvalid
  · intro t _
    rw [hnone]
    exact Backed.nil
  · have hknown := halways SetsOnlyKnown (by
      rintro e earlier hwait node set registers rfl
      cases hwait) s.transfers h.waits
    have hreal := halways WritesReal (by
      rintro e earlier hwait node set registers rfl
      cases hwait) s.transfers h.waits
    exact iff_of_true hknown hreal

end Unread

theorem Fresh.unread (h : Fresh s) : Unread s := by
  constructor
  · intro t ht
    rw [h.allThreads] at ht
    cases ht
  · intro e he
    unfold Server.transfers at he
    rw [h.log] at he
    cases he

theorem Sound.keeps (h : Sound s) {p : Proc (Server σ) α} (hp : Proc.Keeps Server.books p) :
    Stays Sound p s := h.of_books (hp s)

/-- `darwin_kill` and `darwin_detach` write no registers back. -/
theorem Sound.cleared (h : Sound s) : Sound { s with currentTask := none, allThreads := [] } :=
  Accounted.of_subset h (List.nil_subset _)

end Gdbserver
