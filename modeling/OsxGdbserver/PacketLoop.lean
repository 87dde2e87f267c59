import OsxGdbserver.Serving
import OsxGdbserver.Streams

/-!
# The packet loop

Start-up and every turn of the loop lead to a state with one thread. In such a state a
packet gets exactly one reply if its handler returns, and none if the handler leaves
through `error`.
-/

namespace Gdbserver

open Remote CString Ppc

variable {σ α : Type} {k : Kernel σ} {host : Signals.Host} {s : Server σ} {t : ThreadInfo}
  {rs : List (List Byte)}

def Starts (rs : List (List Byte)) (p : Proc (Server σ) α) (s : Server σ) : Prop :=
  Proc.Ends p (fun _ s' => ∃ t, Serving rs s' t) (fun _ _ => True) s

theorem Starts.bind {β : Type} {p : Proc (Server σ) β} {q : β → Proc (Server σ) α}
    {Q : α → Server σ → Prop} (hp : Starts rs p s)
    (hq : ∀ b s' t, Serving rs s' t → Proc.Ends (q b) Q (fun _ _ => True) s') :
    Proc.Ends (p >>= q) Q (fun _ _ => True) s := by
  rw [Proc.Ends.bind_iff]
  refine Proc.Ends.imp hp ?_ fun _ _ _ => trivial
  rintro b s' ⟨t, h⟩
  exact hq b s' t h

theorem mywait_starts (h : Serving rs s t) (connectedWait : Bool) :
    Starts rs (mywait k connectedWait) s := by
  refine (mywait_ends h.live h.nodup connectedWait).imp ?_ fun _ _ _ => trivial
  rintro _ s' ⟨_, hwaited⟩
  exact h.waited hwaited

def Idle (rs : List (List Byte)) (s : Server σ) : Prop :=
  s.allThreads = [] ∧ s.currentInferior = none ∧ s.threadPtr = none ∧
    s.extendedProtocol = false ∧ s.replies = rs

theorem addThread_starts (h : Idle rs s) (pid : Int) (port : Port) :
    Starts rs (addThread pid pid port) s := by
  obtain ⟨hthreads, hcurrent, hptr, hplain, hreplies⟩ := h
  let t : ThreadInfo :=
    { node := s.nextThread, id := pid, pid := pid, port := port, regcache := newRegisterCache }
  refine ⟨t, ?_, ?_, rfl, hptr, hplain, hreplies⟩
  · simp [hthreads, t]
  · simp [hcurrent, t]

theorem addProcess_starts (h : Idle rs s) (pid : Int) : Starts rs (addProcess k pid) s := by
  unfold Starts
  simp only [addProcess, callKernel, Proc.Ends.bind_iff, Proc.Ends.modifyGet_iff]
  cases (k.taskForPid pid s.os).1 with
  | none => trivial
  | some task =>
    simp only [Proc.Ends.bind_iff, Proc.Ends.modify_iff]
    refine (darwinGetFirstThread_ends (some task)).imp ?_ fun _ _ _ => trivial
    rintro port _ ⟨_, os, rfl⟩
    exact addThread_starts h pid port

theorem startInferior_starts (h : Idle rs s) : Starts rs (startInferior k) s := by
  have hcreate : Starts rs (darwinCreateInferior k) s := by
    unfold Starts
    simp only [darwinCreateInferior, callKernel, Proc.Ends.bind_iff, Proc.Ends.modifyGet_iff]
    cases (k.forkExec s.os).1 with
    | none => trivial
    | some pid =>
      have hadd : Starts rs (addProcess k pid)
          ({ s with os := (k.forkExec s.os).2 }.record (.launch pid)) :=
        addProcess_starts (by exact h) pid
      rw [Proc.Ends.bind_iff, Proc.Ends.modify_iff]
      exact hadd.bind fun _ _ t h' => ⟨t, h'⟩
  refine hcreate.bind ?_
  rintro pid s' t h'
  exact mywait_starts (s := { s' with signalPid := pid }) h' false

theorem darwinAttach_starts (h : Idle rs s) (pid : Int) :
    Proc.Ends (darwinAttach k pid)
      (fun result s' => result = 0 → ∃ t, Serving rs s' t) (fun _ _ => True) s := by
  simp only [darwinAttach, ptrace, callKernel, Proc.Ends.bind_iff, Proc.Ends.modify_iff,
    Proc.Ends.modifyGet_iff]
  split
  · have hadd : Starts rs (addProcess k pid)
        { s.record (.ptrace .attach pid 0 s.os) with os := (k.ptrace .attach pid 0 s.os).2 } :=
      addProcess_starts (by exact h) pid
    exact hadd.bind fun _ _ t h' _ => ⟨t, h'⟩
  · exact fun hneg => absurd hneg (by decide)

theorem attachInferior_starts (h : Idle rs s) (pid : Int) :
    Proc.Ends (attachInferior k pid)
      (fun result s' => 0 ≤ result → ∃ t, Serving rs s' t) (fun _ _ => True) s := by
  unfold attachInferior
  rw [Proc.Ends.bind_iff]
  refine (darwinAttach_starts h pid).imp ?_ fun _ _ _ => trivial
  intro result s' hserving
  split
  · exact fun hneg => absurd hneg (by decide)
  · rename_i hresult
    obtain ⟨t, h'⟩ := hserving (not_not.mp hresult)
    rw [Proc.Ends.bind_iff, Proc.Ends.modify_iff]
    have hwait : Starts rs (mywait k false) { s' with signalPid := pid } :=
      mywait_starts (t := t) (by exact h') false
    exact hwait.bind fun _ _ t h'' _ => ⟨t, h''⟩

theorem runToEntryPoint_starts (h : Serving rs s t) (ep : Int) :
    Starts rs (runToEntryPoint k ep) s := by
  unfold runToEntryPoint
  split
  · exact ⟨t, h⟩
  · obtain ⟨_, s₁, hset, _, h₁⟩ := withMemory_ends h (setBreakpointAt_ends (k := k) ep)
    have hresume := myresume_run (k := k) h₁.live h₁.nodup h₁.id_eq false 0
    unfold Starts
    rw [Proc.Ends.bind_iff, Proc.Ends.of_run hset, Proc.Ends.bind_iff, Proc.Ends.of_run hresume,
      Proc.Ends.bind_iff]
    refine (mywait_starts (h₁.resumed _ _ _) false).imp ?_ fun _ _ _ => trivial
    rintro _ s₂ ⟨t₂, h₂⟩
    obtain ⟨_, s₃, hdelete, _, h₃⟩ := withMemory_ends h₂ (deleteBreakpointAt_ends (k := k) ep)
    rw [Proc.Ends.of_run hdelete]
    exact ⟨t₂, h₃⟩

theorem prepareInferior_starts (h : Idle rs s) (ep pid : Int) :
    Starts rs (prepareInferior k ep pid) s := by
  unfold Starts prepareInferior
  rw [Proc.Ends.bind_iff, Proc.Ends.get_iff]
  split
  · rw [Proc.Ends.bind_iff]
    refine (attachInferior_starts h pid).imp ?_ fun _ _ _ => trivial
    intro result s' hserving
    split
    · trivial
    · rename_i hresult
      exact hserving (Int.not_lt.mp hresult)
  · rw [Proc.Ends.bind_iff]
    refine (startInferior_starts h).imp ?_ fun _ _ _ => trivial
    rintro _ s' ⟨t, h'⟩
    exact runToEntryPoint_starts h' ep

/-- The byte at index `n` of `own_buf`, inside the buffer, is a NUL. -/
def EndsAt (n : Nat) (l : Link) : Prop := n < pbufsiz ∧ l.session.ownBuf[n]? = some 0

theorem poke_ends {i : Nat} {b : Byte} {l : Link} (hi : i ≤ l.session.ownBuf.length) :
    Proc.Ends (poke i b)
      (fun _ l' => i < pbufsiz ∧ i + 1 ≤ l'.session.ownBuf.length ∧
        l'.session.ownBuf[i]? = some b)
      (fun _ _ => True) l := by
  unfold poke
  split
  · rename_i hlt
    refine ⟨hlt, ?_, ?_⟩
    · simp only [List.length_append, List.length_take, List.length_cons]
      omega
    · have htake : (l.session.ownBuf.take i).length = i := by
        rw [List.length_take]
        omega
      rw [List.getElem?_append_right (Nat.le_of_eq htake), htake, Nat.sub_self]
      rfl
  · trivial

theorem readBody_ends {fuel i : Nat} {csum : Byte} {l : Link}
    (hi : i ≤ l.session.ownBuf.length) :
    Proc.Ends (readBody fuel i csum)
      (fun r l' => ∀ len c, r = some (len, c) → EndsAt len l') (fun _ _ => True) l := by
  induction fuel generalizing i csum l with
  | zero => trivial
  | succ fuel ih =>
    unfold readBody
    rw [Proc.Ends.bind_iff]
    refine (readchar_keeps.ends l).imp ?_ fun _ _ _ => trivial
    rintro (_ | c) l₁ hsession
    · rintro len c hnone
      cases hnone
    · have hi₁ : i ≤ l₁.session.ownBuf.length := by rw [hsession]; exact hi
      dsimp only
      split
      · rw [Proc.Ends.bind_iff]
        refine (poke_ends hi₁).imp ?_ fun _ _ _ => trivial
        rintro _ l₂ ⟨hlt, _, hget⟩ len c heq
        cases heq
        exact ⟨hlt, hget⟩
      · rw [Proc.Ends.bind_iff]
        refine (poke_ends hi₁).imp ?_ fun _ _ _ => trivial
        rintro _ l₂ ⟨_, hlen, _⟩
        exact ih hlen

theorem digit_ends {n : Nat} {l : Link} (h : EndsAt n l) {q : Nat → Proc Link α}
    {Q : α → Link → Prop}
    (hq : ∀ c l', EndsAt n l' → Proc.Ends (q c) Q (fun _ _ => True) l') :
    Proc.Ends (do q (← fromhex (← readchar))) Q (fun _ _ => True) l := by
  rw [Proc.Ends.bind_iff]
  refine (readchar_keeps.ends l).imp ?_ fun _ _ _ => trivial
  intro a l₁ hsession
  have h₁ : EndsAt n l₁ := by
    unfold EndsAt at h ⊢
    rwa [hsession]
  rw [Proc.Ends.bind_iff]
  unfold fromhex
  split
  · exact hq _ l₁ h₁
  · trivial

theorem receive_ends (fuel : Nat) (l : Link) :
    Proc.Ends (receive fuel) (fun len l' => 0 ≤ len → EndsAt len.toNat l') (fun _ _ => True) l := by
  induction fuel generalizing l with
  | zero => trivial
  | succ fuel ih =>
    unfold receive
    rw [Proc.Ends.bind_iff]
    refine Proc.Ends.of_forall ?_ fun _ _ => trivial
    intro found l₁
    split
    · rw [Proc.Ends.bind_iff]
      refine (readBody_ends (Nat.zero_le _)).imp ?_ fun _ _ _ => trivial
      rintro (_ | ⟨len, csum⟩) l₂ hends
      · exact fun hneg => absurd hneg (by decide)
      · refine digit_ends (hends len csum rfl) fun c1 l₃ h₃ => digit_ends h₃ fun c2 l₄ h₄ => ?_
        split
        · exact fun _ => h₄
        · exact ih _
    · exact fun hneg => absurd hneg (by decide)

theorem getpkt_ends (l : Link) :
    Proc.Ends getpkt (fun len l' => 0 ≤ len → EndsAt len.toNat l') (fun _ _ => True) l := by
  unfold getpkt
  rw [Proc.Ends.bind_iff, Proc.Ends.get_iff, Proc.Ends.bind_iff]
  refine (receive_ends _ l).imp ?_ fun _ _ _ => trivial
  intro len l₁ h₁
  rw [Proc.Ends.bind_iff, Proc.Ends.get_iff]
  split
  · exact h₁
  · exact h₁

theorem cstr_length_le_of_get {buf : List Byte} {n : Nat} (h : buf[n]? = some 0) :
    (cstr buf).length ≤ n := by
  induction buf generalizing n with
  | nil => cases h
  | cons c buf ih =>
    cases n with
    | zero =>
      cases h
      simp [cstr]
    | succ n =>
      by_cases hc : c = 0
      · simp [cstr, hc]
      · rw [cstr_cons_length hc]
        exact Nat.succ_le_succ (ih h)

theorem EndsAt.rest {n : Nat} {l : Link} (h : EndsAt n l) (pos : 0 < n) :
    (cstr (l.session.ownBuf.drop 1)).length ≤ pbufsiz := by
  have hget : (l.session.ownBuf.drop 1)[n - 1]? = some 0 := by
    rw [List.getElem?_drop, Nat.add_sub_cancel' pos]
    exact h.2
  have hle := cstr_length_le_of_get hget
  have hlt := h.1
  omega

theorem onLink_ends (h : Serving rs s t) (p : Proc Link α) :
    Proc.Ends (onLink p) (fun _ s' => Serving rs s' t) (fun _ s' => Serving rs s' t) s := by
  unfold onLink
  rw [Proc.Ends.zoom_iff]
  exact Proc.Ends.of_forall (fun _ _ => h) (fun _ _ => h)

/-- What the packet loop asks of a state, and the replies. -/
def core (s : Server σ) :
    List ThreadInfo × Option Nat × Option Nat × Bool × List (List Byte) :=
  (s.allThreads, s.currentInferior, s.threadPtr, s.extendedProtocol, s.replies)

theorem Serving.of_core (h : Serving rs s t) {s' : Server σ} (same : core s' = core s) :
    Serving rs s' t := by
  simp only [core, Prod.mk.injEq] at same
  obtain ⟨hthreads, hcurrent, hptr, hextended, hreplies⟩ := same
  unfold Serving
  rw [hthreads, hcurrent, hptr, hextended, hreplies]
  exact h

/-- The ways in which waiting for an acknowledgement can go wrong: a break character when
there is no inferior, and fuel running out, which stands for nothing in the source. -/
def AckFault (e : Stop) : Prop := e = .fault "current_inferior" ∨ e = .fault "fuel"

/-- A call that touches none of that, and always returns but for these. -/
def Quiet (p : Proc (Server σ) α) : Prop :=
  ∀ s, Proc.Ends p (fun _ s' => core s' = core s)
    (fun e s' => core s' = core s ∧ AckFault e) s

namespace Quiet

theorem pure (a : α) : Quiet (Pure.pure a : Proc (Server σ) α) := fun _ => rfl

theorem get : Quiet (get : Proc (Server σ) (Server σ)) := fun _ => rfl

theorem modify {f : Server σ → Server σ} (h : ∀ s, core (f s) = core s) :
    Quiet (modify f : Proc (Server σ) PUnit) := h

theorem modifyGet {f : Server σ → α × Server σ} (h : ∀ s, core (f s).2 = core s) :
    Quiet (modifyGet f : Proc (Server σ) α) := h

theorem throw {e : Stop} (h : AckFault e) : Quiet (throw e : Proc (Server σ) α) :=
  fun _ => ⟨rfl, h⟩

theorem bind {β : Type} {p : Proc (Server σ) β} {q : β → Proc (Server σ) α} (hp : Quiet p)
    (hq : ∀ b, Quiet (q b)) : Quiet (p >>= q) := by
  intro s
  rw [Proc.Ends.bind_iff]
  refine (hp s).imp ?_ fun _ _ h => h
  intro b s₁ h₁
  refine (hq b s₁).imp ?_ ?_
  · exact fun _ _ h₂ => h₂.trans h₁
  · exact fun _ _ h₂ => ⟨h₂.1.trans h₁, h₂.2⟩

theorem ite {c : Prop} [Decidable c] {p q : Proc (Server σ) α} (hp : Quiet p) (hq : Quiet q) :
    Quiet (if c then p else q) := by
  split
  · exact hp
  · exact hq

end Quiet

theorem darwinSendSignal_quiet (signum : Int) : Quiet (darwinSendSignal k signum) := by
  refine .bind (.bind .get fun s => ?_) fun t => ?_
  · cases s.currentInferior.bind s.threadAt with
    | none => exact .throw (Or.inl rfl)
    | some t => exact .pure t
  · exact .bind (.modify fun _ => rfl) fun _ => .bind (.modifyGet fun _ => rfl) fun _ => .pure _

theorem onLink_quiet {f : Link → α × Link} :
    Quiet (onLink (modifyGet f) : Proc (Server σ) α) := fun _ => rfl

theorem sendFrame_quiet (bytes : List Byte) (fuel : Nat) :
    Quiet (sendFrame k host bytes fuel) := by
  induction fuel with
  | zero => exact .throw (Or.inr rfl)
  | succ fuel ih =>
    refine .bind onLink_quiet fun wrote => .ite (.bind .get fun s => .ite (.pure _) ?_) (.pure _)
    refine .bind onLink_quiet fun answer => .ite (.pure _) (.ite (.pure _) ?_)
    exact .ite (.bind (darwinSendSignal_quiet _) fun _ => ih) ih

theorem putpkt_ends (s : Server σ) :
    let sent := s.record (.putpkt (cstr s.ownBuf))
    Proc.Ends (putpkt k host) (fun _ s' => core s' = core sent)
      (fun e s' => core s' = core sent ∧ (AckFault e ∨ e = .fault "buf2" ∧ ¬ Frames s)) s := by
  intro sent
  unfold putpkt
  simp only [Proc.Ends.bind_iff, Proc.Ends.get_iff, Proc.Ends.modify_iff]
  split
  · exact (sendFrame_quiet _ _ sent).imp (fun _ _ h => h) fun _ _ h => ⟨h.1, Or.inl h.2⟩
  · rename_i hlong
    exact ⟨rfl, Or.inr ⟨rfl, hlong⟩⟩

theorem Serving.sent (h : Serving rs s t) :
    Serving (cstr s.ownBuf :: rs) (s.record (.putpkt (cstr s.ownBuf))) t :=
  { h with replies := congrArg _ h.replies }

/-- The state after `getpkt` has returned `len`, with the packet in `own_buf`. -/
def Delivered (s : Server σ) (len : Int) (s' : Server σ) : Prop :=
  (onLink getpkt).run s = .ok len s'

theorem Delivered.serving {len : Int} {s' : Server σ} (h : Serving rs s t)
    (delivered : Delivered s len s') : Serving rs s' t := by
  have hlink := onLink_ends h getpkt
  rwa [Proc.Ends.of_run delivered] at hlink

theorem Delivered.fits {len : Int} {s' : Server σ} (delivered : Delivered s len s')
    (pos : 0 < len) : (cstr (s'.ownBuf.drop 1)).length ≤ pbufsiz := by
  have hlink := getpkt_ends s.link
  have hrun : Proc.Ends (onLink getpkt) (fun len s' => 0 ≤ len → EndsAt len.toNat s'.link)
      (fun _ _ => True) s := by
    unfold onLink
    rw [Proc.Ends.zoom_iff]
    exact hlink
  rw [Proc.Ends.of_run delivered] at hrun
  exact (hrun (Int.le_of_lt pos)).rest (by omega)

theorem darwinDetach_run (h : Serving rs s t) :
    ∃ s', (darwinDetach k).run s = .ok () s' := by
  have hcurrent : s.currentInferior ≠ none := by
    rw [h.current]
    exact Option.some_ne_none _
  simp only [darwinDetach, EStateM.run_bind, EStateM.run_get, hcurrent, if_false,
    derefCurrent_run h.live, ptrace_run]
  exact ⟨_, rfl⟩

theorem darwinKill_run (h : Serving rs s t) :
    ∃ s', (darwinKill k).run s = .ok () s' ∧ s'.extendedProtocol = false := by
  have hcurrent : s.currentInferior ≠ none := by
    rw [h.current]
    exact Option.some_ne_none _
  simp only [darwinKill, EStateM.run_bind, EStateM.run_get, hcurrent, if_false,
    derefCurrent_run h.live, ptrace_run, EStateM.run_modify, callKernel_run]
  exact ⟨_, rfl, h.plain⟩

/-- The exits of `D` and `k`, which do not come back to the packet loop. -/
def Leaves (e : Stop) : Prop := e = .exit 0 ∨ AckFault e

theorem handleDDetach_leaves (h : Serving rs s t) :
    Proc.Ends (handleDDetach k host) (fun _ _ => False) (fun e _ => Leaves e) s := by
  obtain ⟨s₁, hdetach⟩ := darwinDetach_run (k := k) h
  have hframes : Frames (s₁.withText (ascii "OK")) := frames_withText (by decide)
  have hok : writeOk.run s₁ = .ok () (s₁.withText (ascii "OK")) := reply_run (by decide)
  unfold handleDDetach
  rw [Proc.Ends.bind_iff, Proc.Ends.of_run hdetach, Proc.Ends.bind_iff, Proc.Ends.of_run hok,
    Proc.Ends.bind_iff]
  refine (putpkt_ends _).imp ?_ ?_
  · intro _ s₂ _
    simp only [remoteClose, Proc.Ends.bind_iff, Proc.Ends.modify_iff, Proc.Ends.get_iff]
    split <;> exact Or.inl rfl
  · rintro e s₂ ⟨_, hfault | ⟨_, hlong⟩⟩
    · exact Or.inr hfault
    · exact absurd hframes hlong

theorem handlekKill_leaves (h : Serving rs s t) :
    Proc.Ends (handlekKill k) (fun _ _ => False) (fun e _ => Leaves e) s := by
  obtain ⟨s₁, hkill, hplain⟩ := darwinKill_run (k := k) h
  unfold handlekKill
  rw [Proc.Ends.bind_iff, Proc.Ends.of_run hkill, Proc.Ends.bind_iff, Proc.Ends.get_iff, hplain]
  exact Or.inl rfl

theorem handlePacket_leaves (h : Serving rs s t) (hc : command s = 'D' ∨ command s = 'k') :
    Proc.Ends (handlePacket k host) (fun _ _ => False) (fun e _ => Leaves e) s := by
  unfold Proc.Ends
  rw [handlePacket_run]
  rcases hc with hc | hc
  · rw [hc]
    change Proc.Ends (do handleDDetach k host; return false) _ _ s
    rw [Proc.Ends.bind_iff]
    exact (handleDDetach_leaves h).imp (fun _ _ hfalse => hfalse.elim) fun _ _ h => h
  · rw [hc]
    exact handlekKill_leaves h

theorem stays_of_returned (h : Serving rs s t) {restarted : Bool} {s' : Server σ}
    (returned : (handlePacket k host).run s = .ok restarted s') :
    command s ≠ 'D' ∧ command s ≠ 'k' :=
  ⟨fun hD => (handlePacket_leaves h (.inl hD)).returned returned,
    fun hk => (handlePacket_leaves h (.inr hk)).returned returned⟩

theorem handleTerminatedInferior_ends (h : Serving rs s t) :
    Proc.Ends (handleTerminatedInferior k) (fun _ s' => s' = s)
      (fun e s' => s' = s ∧ e = .exit 0) s := by
  unfold handleTerminatedInferior
  rw [Proc.Ends.bind_iff, Proc.Ends.get_iff, h.plain]
  split
  · exact ⟨rfl, rfl⟩
  · exact rfl

theorem putpkt_serving (h : Serving rs s t) :
    Proc.Ends (putpkt k host) (fun _ s' => Serving (cstr s.ownBuf :: rs) s' t)
      (fun e s' => Serving (cstr s.ownBuf :: rs) s' t ∧ ∀ message, e ≠ .error message) s := by
  refine (putpkt_ends s).imp ?_ ?_
  · exact fun _ _ same => h.sent.of_core same
  · rintro e s' ⟨same, hfault⟩
    refine ⟨h.sent.of_core same, ?_⟩
    rintro message rfl
    simp [AckFault] at hfault

theorem afterHandler_ends (h : Serving rs s t) (restarted : Bool) :
    Proc.Ends (do
        if restarted then
          let _ ← putpkt k host
        else
          let _ ← putpkt k host
          let _ ← handleTerminatedInferior k)
      (fun _ s' => Serving (cstr s.ownBuf :: rs) s' t)
      (fun e s' => s'.replies = cstr s.ownBuf :: rs ∧ ∀ message, e ≠ .error message) s := by
  cases restarted with
  | true =>
    simp only [if_true, Proc.Ends.bind_iff]
    exact (putpkt_serving h).imp (fun _ _ h' => h') fun _ _ h' => ⟨h'.1.replies, h'.2⟩
  | false =>
    simp only [Bool.false_eq_true, if_false, Proc.Ends.bind_iff]
    refine (putpkt_serving h).imp ?_ fun _ _ h' => ⟨h'.1.replies, h'.2⟩
    intro _ s₁ h₁
    refine (handleTerminatedInferior_ends h₁).imp ?_ ?_
    · rintro _ _ rfl
      exact h₁
    · rintro e _ ⟨rfl, rfl⟩
      exact ⟨h₁.replies, by simp⟩

/-- What became of a packet: one reply, or none. -/
def Outcome (rs : List (List Byte)) (answers : Prop) (e : Option Stop) (s' : Server σ) : Prop :=
  (answers → ∃ text, s'.replies = text :: rs) ∧ (¬ answers → s'.replies = rs) ∧
    ((∀ stop, e = some stop → ∃ message, stop = .error message) → ∃ rs t, Serving rs s' t)

theorem servePacket_outcome (k : Kernel σ) (host : Signals.Host) (h : Serving rs s t)
    (fits : (cstr (s.ownBuf.drop 1)).length ≤ pbufsiz)
    (notD : command s ≠ 'D') (notk : command s ≠ 'k') :
    Proc.Ends (servePacket k host)
      (fun _ s' => Outcome rs (Answers k host s t) none s')
      (fun e s' => Outcome rs (Answers k host s t) (some e) s') s := by
  unfold servePacket
  rw [Proc.Ends.bind_iff]
  refine (handlePacket_verdict h (fun _ => fits) notD notk).imp ?_ ?_
  · rintro restarted s₁ ⟨⟨t₁, h₁⟩, hanswers, _⟩
    refine (afterHandler_ends h₁ restarted).imp ?_ ?_
    · intro _ s₂ h₂
      exact ⟨fun _ => ⟨_, h₂.replies⟩, fun hno => absurd hanswers hno, fun _ => ⟨_, t₁, h₂⟩⟩
    · rintro e s₂ ⟨hreplies, hno⟩
      refine ⟨fun _ => ⟨_, hreplies⟩, fun hn => absurd hanswers hn, ?_⟩
      intro herror
      obtain ⟨message, heq⟩ := herror e rfl
      exact absurd heq (hno message)
  · rintro e s₁ ⟨hno, ⟨t₁, h₁⟩, _⟩
    exact ⟨fun hyes => absurd hyes hno, fun _ => h₁.replies, fun _ => ⟨rs, t₁, h₁⟩⟩

/-- A packet of positive length is served, and the loop goes on. -/
theorem turn_ends (k : Kernel σ) (host : Signals.Host) {len : Int} {s₁ : Server σ}
    (delivered : Delivered s len s₁) (pos : 0 < len) {Q : Bool → Server σ → Prop}
    {E : Stop → Server σ → Prop} :
    Proc.Ends (turn k host) Q E s ↔
      Proc.Ends (servePacket k host) (fun _ s' => Q true s') E s₁ := by
  unfold turn
  rw [Proc.Ends.bind_iff, Proc.Ends.of_run delivered, if_pos pos, Proc.Ends.bind_iff]
  exact Iff.rfl

theorem turn_serving (k : Kernel σ) (host : Signals.Host) (h : Serving rs s t) :
    Proc.Ends (turn k host) (fun again s' => again = true → ∃ rs t, Serving rs s' t)
      (fun e s' => ∀ message, e = .error message → ∃ rs t, Serving rs s' t) s := by
  cases hpacket : (onLink getpkt).run s with
  | error e s₁ =>
    have hlink := onLink_ends h getpkt
    rw [Proc.Ends.of_run_error hpacket] at hlink
    unfold turn
    rw [Proc.Ends.bind_iff, Proc.Ends.of_run_error hpacket]
    exact fun _ _ => ⟨rs, t, hlink⟩
  | ok len s₁ =>
    have delivered : Delivered s len s₁ := hpacket
    have h₁ := delivered.serving h
    by_cases pos : 0 < len
    · rw [turn_ends k host delivered pos, servePacket]
      by_cases hleaves : command s₁ = 'D' ∨ command s₁ = 'k'
      · rw [Proc.Ends.bind_iff]
        refine (handlePacket_leaves h₁ hleaves).imp (fun _ _ hfalse => hfalse.elim) ?_
        rintro e s₂ hleaves message rfl
        simp [Leaves, AckFault] at hleaves
      · rw [not_or] at hleaves
        refine (servePacket_outcome k host h₁ (delivered.fits pos) hleaves.1 hleaves.2).imp ?_ ?_
        · exact fun _ _ houtcome _ => houtcome.2.2 fun _ hnone => by cases hnone
        · rintro e s₂ houtcome message rfl
          exact houtcome.2.2 fun _ heq => ⟨message, (Option.some.inj heq).symm⟩
    · unfold turn
      rw [Proc.Ends.bind_iff, Proc.Ends.of_run delivered, if_neg pos]
      exact fun hagain => absurd hagain Bool.false_ne_true

theorem Fresh.idle (fresh : Fresh s) : Idle [] s :=
  ⟨fresh.allThreads, fresh.currentInferior, fresh.threadPtr, fresh.extendedProtocol,
    congrArg _ fresh.log⟩

theorem Reachable.serving (reachable : Reachable k host s) : ∃ rs t, Serving rs s t := by
  induction reachable with
  | start ep pid fresh prepared =>
    have hstarts := prepareInferior_starts (k := k) fresh.idle ep pid
    rw [Starts, Proc.Ends.of_run prepared] at hstarts
    exact ⟨[], hstarts⟩
  | turn before again ih =>
    obtain ⟨rs, t, h⟩ := ih
    have hturn := turn_serving k host h
    rw [Proc.Ends.of_run again] at hturn
    exact hturn rfl
  | jump before jumped ih =>
    obtain ⟨rs, t, h⟩ := ih
    have hturn := turn_serving k host h
    rw [Proc.Ends.of_run_error jumped] at hturn
    exact hturn _ rfl

/-- The handler of the packet in `own_buf` returns, on the thread that is current. -/
def Answered (k : Kernel σ) (host : Signals.Host) (s : Server σ) : Prop :=
  ∃ t, Live s t ∧ Answers k host s t

/-- In every reachable state, a packet other than `D` and `k` gets exactly one reply in its
turn of the loop just if its handler returns. -/
theorem one_reply_iff (reachable : Reachable k host s) {len : Int} {s₁ : Server σ}
    (delivered : Delivered s len s₁) (pos : 0 < len) (notD : command s₁ ≠ 'D')
    (notk : command s₁ ≠ 'k') :
    (Proc.final ((turn k host).run s)).replies.length = s.replies.length + 1 ↔
      Answered k host s₁ := by
  obtain ⟨rs, t, h⟩ := reachable.serving
  have h₁ := delivered.serving h
  have hanswered : Answered k host s₁ ↔ Answers k host s₁ t := by
    constructor
    · rintro ⟨t', hlive, hanswers⟩
      have ht : t' = t := Option.some.inj (hlive.symm.trans h₁.live)
      exact ht ▸ hanswers
    · exact fun hanswers => ⟨t, h₁.live, hanswers⟩
  have houtcome : ∃ e, Outcome rs (Answers k host s₁ t) e (Proc.final ((turn k host).run s)) := by
    have hserve := servePacket_outcome k host h₁ (delivered.fits pos) notD notk
    have hturn := (turn_ends k host delivered pos
      (Q := fun _ s' => Outcome rs (Answers k host s₁ t) none s')
      (E := fun e s' => Outcome rs (Answers k host s₁ t) (some e) s')).mpr hserve
    unfold Proc.Ends at hturn
    cases hrun : (turn k host).run s with
    | ok again s' =>
      rw [hrun] at hturn
      exact ⟨none, hturn⟩
    | error e s' =>
      rw [hrun] at hturn
      exact ⟨some e, hturn⟩
  obtain ⟨e, hyes, hno, _⟩ := houtcome
  rw [hanswered, h.replies]
  constructor
  · intro hcount
    by_contra hanswers
    rw [hno hanswers] at hcount
    omega
  · intro hanswers
    obtain ⟨text, htext⟩ := hyes hanswers
    rw [htext, List.length_cons]

/-- The server that has launched `singleThread`'s process, for a client that will send
`chunks`. -/
def launched (chunks : List (List Byte)) : Server Machine :=
  Proc.final ((prepareInferior singleThread 0 0).run (initial blankMachine chunks))

theorem prepared_launched (chunks : List (List Byte)) :
    (prepareInferior singleThread 0 0).run (initial blankMachine chunks) =
      .ok () (launched chunks) :=
  rfl

theorem reachable_launched (chunks : List (List Byte)) :
    Reachable singleThread Signals.darwin (launched chunks) :=
  .start 0 0 (fresh_initial blankMachine chunks) (prepared_launched chunks)

/-- The client sends `$g#67` and the `+` for the reply. -/
theorem one_reply_iff_g :
    ∃ s₁, Delivered (launched [ascii "$g#67", ascii "+"]) 1 s₁ ∧
      ((Proc.final ((turn singleThread Signals.darwin).run
          (launched [ascii "$g#67", ascii "+"]))).replies.length =
        (launched [ascii "$g#67", ascii "+"]).replies.length + 1 ↔
        Answered singleThread Signals.darwin s₁) :=
  ⟨_, rfl, one_reply_iff (reachable_launched _) rfl (by decide +kernel) (by decide +kernel)
    (by decide +kernel)⟩

/-- The packet `m`, with no address, is accepted, is no `D` and no `k`, and gets no reply. -/
theorem not_one_reply_m :
    Reachable singleThread Signals.darwin (launched [ascii "$m#6d"]) ∧
      ¬ ∀ len s₁, Delivered (launched [ascii "$m#6d"]) len s₁ → 0 < len →
        command s₁ ≠ 'D' → command s₁ ≠ 'k' →
          (Proc.final ((turn singleThread Signals.darwin).run
            (launched [ascii "$m#6d"]))).replies.length =
              (launched [ascii "$m#6d"]).replies.length + 1 := by
  refine ⟨reachable_launched _, ?_⟩
  intro hall
  have hcount := hall 1 _ rfl (by decide) (by decide +kernel) (by decide +kernel)
  revert hcount
  decide +kernel

end Gdbserver
