import OsxGdbserver.Sessions

/-!
# The extended protocol

`!` is answered with `OK`, and nothing else is done. `R`, `k` and the end of the inferior
lead to a restart in the extended mode only, so a session in which the mode was asked for
keeps to it just as long as none of them happens.
-/

namespace Gdbserver

open Remote CString Ppc

variable {σ : Type} {k : Kernel σ} {host : Signals.Host} {s : Server σ} {t : ThreadInfo}
  {rs : List (List Byte)}

/-- The server ends its process. -/
def Exits (e : Stop) : Prop := ∃ code, e = .exit code

theorem not_exits_error (message : String) : ¬ Exits (.error message) := by
  rintro ⟨code, heq⟩
  cases heq

theorem not_exits_fault (access : String) : ¬ Exits (.fault access) := by
  rintro ⟨code, heq⟩
  cases heq

theorem derefCurrent_avoids : Proc.Avoids Exits (derefCurrent : Proc (Server σ) ThreadInfo) := by
  refine .bind .get fun s => ?_
  cases s.currentInferior.bind s.threadAt with
  | none => exact .throw (not_exits_fault _)
  | some t => exact .pure t

theorem darwinKill_avoids : Proc.Avoids Exits (darwinKill k) := by
  refine .bind .get fun s => .ite (.pure _) (.bind derefCurrent_avoids fun _ => ?_)
  refine .bind (.bind (.modify _) fun _ => .modifyGet _) fun _ => .bind (.modify _) fun _ => ?_
  exact .bind (.modifyGet _) fun _ => .bind (.modify _) fun _ => .modify _

theorem reply_avoids (text : List Byte) :
    Proc.Avoids Exits (reply text : Proc (Server σ) Unit) :=
  .ite (.modify _) (.throw (not_exits_fault _))

theorem darwinGetFirstThread_avoids (task : Option Port) :
    Proc.Avoids Exits (darwinGetFirstThread k task) := by
  cases task with
  | none => exact .throw (not_exits_error _)
  | some task =>
    refine .bind (.modifyGet _) fun threads => ?_
    rcases threads with _ | _ | ⟨thread, rest⟩
    · exact .throw (not_exits_error _)
    · exact .throw (not_exits_error _)
    · exact .pure thread

theorem darwinCreateInferior_avoids : Proc.Avoids Exits (darwinCreateInferior k) := by
  refine .bind (.modifyGet _) fun pid => ?_
  cases pid with
  | none => exact .throw (not_exits_error _)
  | some pid =>
    refine .bind (.modify _) fun _ => .bind (.bind (.modifyGet _) fun task => ?_) fun _ => .pure _
    cases task with
    | none => exact .throw (not_exits_error _)
    | some task =>
      exact .bind (.modify _) fun _ => .bind (darwinGetFirstThread_avoids _) fun _ => .modify _

theorem darwinWait_avoids : Proc.Avoids Exits (darwinWait k) := by
  have hstopped : ∀ (proc : ThreadInfo) (letter sig : Byte), Proc.Avoids Exits (do
      let thread ← darwinGetFirstThread k (← get).currentTask
      modify fun s : Server σ => s.assignThread proc.node fun t => { t with port := thread }
      modify fun s => { s with status := letter }
      return sig) := fun proc letter sig =>
    .bind .get fun _ => .bind (darwinGetFirstThread_avoids _) fun _ =>
      .bind (.modify _) fun _ => .bind (.modify _) fun _ => .pure _
  refine .bind derefCurrent_avoids fun proc => .bind (.modifyGet _) fun result => ?_
  cases result with
  | failed => exact .throw (not_exits_error _)
  | exited code => exact .bind (.modify _) fun _ => .pure _
  | signaled sig => exact .bind (.modify _) fun _ => .pure _
  | stopped sig => exact hstopped proc _ _
  | unknown => exact hstopped proc _ _

theorem startInferior_avoids : Proc.Avoids Exits (startInferior k) := by
  refine .bind darwinCreateInferior_avoids fun _ => .bind (.modify _) fun _ => ?_
  exact .bind (.modify _) fun _ => .bind darwinWait_avoids fun _ => .modify _

theorem restart_avoids : Proc.Avoids Exits (restart k) :=
  .bind darwinKill_avoids fun _ => .bind (reply_avoids _) fun _ =>
    .bind startInferior_avoids fun _ => .pure _

/-- A restart that is completed says so. -/
theorem restart_ends (s : Server σ) :
    Proc.Ends (restart k) (fun restarted _ => restarted = true) (fun e _ => ¬ Exits e) s := by
  have havoids := restart_avoids (k := k) s
  have htrue : Proc.Ends (restart k) (fun restarted _ => restarted = true) (fun _ _ => True) s := by
    unfold restart
    simp only [Proc.Ends.bind_iff]
    refine .of_forall (fun _ _ => ?_) fun _ _ => trivial
    refine .of_forall (fun _ _ => ?_) fun _ _ => trivial
    refine .of_forall (fun _ _ => ?_) fun _ _ => trivial
    rfl
  exact (htrue.and havoids).imp (fun _ _ h => h.1) fun _ _ h => h.2

/-- The packet that comes next is `!`, and it is served; `s'` is what the loop comes to. -/
def Extended (k : Kernel σ) (host : Signals.Host) (s s' : Server σ) : Prop :=
  ∃ len s₁, Delivered s len s₁ ∧ 0 < len ∧ command s₁ = '!' ∧ (turn k host).run s = .ok true s'

/-- The state in which `handle_terminated_inferior` is called after the packet in `s`. -/
def Answering (k : Kernel σ) (host : Signals.Host) (s s' : Server σ) : Prop :=
  ∃ s₁ n, (handlePacket k host).run s = .ok false s₁ ∧ (putpkt k host).run s₁ = .ok n s'

/-- The inferior has exited or been terminated. -/
def Ended (s : Server σ) : Prop := s.status = ch 'W' ∨ s.status = ch 'X'

/-- The packet in `s` is served as the extended mode has it. -/
structure Restarts (k : Kernel σ) (host : Signals.Host) (s : Server σ) : Prop where
  asked : command s = 'R' ∨ command s = 'k' → (handlePacket k host).run s = (restart k).run s
  ended : ∀ s', Answering k host s s' → Ended s' →
    (handleTerminatedInferior k).run s' = (restart k).run s'

/-- Nothing about the packet in `s` calls for a restart. -/
structure Undisturbed (k : Kernel σ) (host : Signals.Host) (s : Server σ) : Prop where
  asked : command s ≠ 'R' ∧ command s ≠ 'k'
  ended : ∀ s', Answering k host s s' → ¬ Ended s'

theorem handleRRestart_plain (plain : s.extendedProtocol = false) :
    (handleRRestart k).run s = .ok false (s.withText []) := by
  have hreply : (reply []).run s = .ok () (s.withText []) := reply_run (by decide)
  simp only [handleRRestart, EStateM.run_bind, EStateM.run_get, plain, Bool.false_eq_true,
    if_false, hreply]
  rfl

/-- `R` is answered with the empty reply. -/
theorem handlePacket_R_ne_restart (plain : s.extendedProtocol = false) (hR : command s = 'R') :
    (handlePacket k host).run s ≠ (restart k).run s := by
  intro heq
  have hends := restart_ends (k := k) s
  have hrun : (handlePacket k host).run s = .ok false (s.withText []) := by
    rw [handlePacket_run, hR]
    exact handleRRestart_plain plain
  rw [Proc.Ends.of_run (heq.symm.trans hrun)] at hends
  cases hends

/-- `k` ends the server. -/
theorem handlePacket_k_ne_restart (h : Serving rs s t) (hk : command s = 'k') :
    (handlePacket k host).run s ≠ (restart k).run s := by
  intro heq
  have hends := restart_ends (k := k) s
  obtain ⟨s₁, hkill, hplain⟩ := darwinKill_run (k := k) h
  have hrun : (handlePacket k host).run s = .error (.exit 0) s₁ := by
    rw [handlePacket_run, hk]
    change (handlekKill k).run s = _
    simp only [handlekKill, EStateM.run_bind, hkill, EStateM.run_get, hplain, Bool.false_eq_true,
      if_false]
    rfl
  rw [Proc.Ends.of_run_error (heq.symm.trans hrun)] at hends
  exact hends ⟨0, rfl⟩

/-- The end of the inferior ends the server. -/
theorem handleTerminatedInferior_ne_restart (plain : s.extendedProtocol = false)
    (ended : Ended s) : (handleTerminatedInferior k).run s ≠ (restart k).run s := by
  intro heq
  have hends := restart_ends (k := k) s
  have hrun : (handleTerminatedInferior k).run s = .error (.exit 0) s := by
    simp only [handleTerminatedInferior, EStateM.run_bind, EStateM.run_get]
    rw [if_pos (show s.status = ch 'W' ∨ s.status = ch 'X' from ended), plain]
    rfl
  rw [Proc.Ends.of_run_error (heq.symm.trans hrun)] at hends
  exact hends ⟨0, rfl⟩

/-- Handling a packet and sending the reply do not turn the mode on. -/
theorem Answering.plain (h : Serving rs s t) (fits : (cstr (s.ownBuf.drop 1)).length ≤ pbufsiz)
    {s' : Server σ} (answering : Answering k host s s') : s'.extendedProtocol = false := by
  obtain ⟨s₁, n, handled, sent⟩ := answering
  obtain ⟨notD, notk⟩ := stays_of_returned h handled
  have hverdict : Verdict rs (handlePacket k host) _ _ s :=
    handlePacket_verdict h (fun _ => fits) notD notk
  rw [Verdict, Proc.Ends.of_run handled] at hverdict
  obtain ⟨⟨t₁, h₁⟩, -⟩ := hverdict
  exact ((putpkt_serving h₁).returned sent).plain

theorem restarts_iff (h : Serving rs s t) (fits : (cstr (s.ownBuf.drop 1)).length ≤ pbufsiz) :
    Restarts k host s ↔ Undisturbed k host s := by
  constructor
  · intro restarts
    refine ⟨⟨fun hR => ?_, fun hk => ?_⟩, fun s' answering ended => ?_⟩
    · exact handlePacket_R_ne_restart h.plain hR (restarts.asked (Or.inl hR))
    · exact handlePacket_k_ne_restart h hk (restarts.asked (Or.inr hk))
    · exact handleTerminatedInferior_ne_restart (answering.plain h fits) ended
        (restarts.ended s' answering ended)
  · rintro ⟨⟨notR, notk⟩, running⟩
    constructor
    · rintro (hR | hk)
      · exact absurd hR notR
      · exact absurd hk notk
    · exact fun s' answering ended => absurd ended (running s' answering)

/-- After a `!` that was accepted the packets are served in the extended mode just as long as
nothing calls for a restart. -/
theorem extended_restarts_iff (reachable : Reachable k host s) {s' : Server σ}
    (extended : Extended k host s s') :
    ∀ s'', Later k host s' s'' → ∀ len s₁, Delivered s'' len s₁ → 0 < len →
      (Restarts k host s₁ ↔ Undisturbed k host s₁) := by
  obtain ⟨_, _, _, _, _, again⟩ := extended
  intro s'' later len s₁ delivered pos
  obtain ⟨rs, t, h⟩ := (Reachable.later (.turn reachable again) later).serving
  exact restarts_iff (delivered.serving h) (delivered.fits pos)

/-- The state after the first packet of a client that sends `!`, the `+` for its reply, and
then `R`. -/
def askedFirst : Server Machine :=
  Proc.final ((turn singleThread Signals.darwin).run
    (launched [ascii "$!#21", ascii "+", ascii "$R#52"]))

theorem extended_askedFirst :
    Extended singleThread Signals.darwin (launched [ascii "$!#21", ascii "+", ascii "$R#52"])
      askedFirst :=
  ⟨1, _, rfl, by decide, by decide +kernel, Proc.eq_ok_of_value (by decide +kernel)⟩

theorem extended_restarts_iff_R :
    ∃ s₁, Delivered askedFirst 1 s₁ ∧
      (Restarts singleThread Signals.darwin s₁ ↔ Undisturbed singleThread Signals.darwin s₁) := by
  have delivered : Delivered askedFirst 1
      (Proc.final ((onLink getpkt : Proc (Server Machine) Int).run askedFirst)) :=
    Proc.eq_ok_of_value (by decide +kernel)
  exact ⟨_, delivered, extended_restarts_iff (reachable_launched _) extended_askedFirst _ .refl 1 _
    delivered (by decide)⟩

/-- The `R` behind the accepted `!` gets the empty reply. -/
theorem not_extended_restarts_R :
    ¬ ∀ s s', Reachable singleThread Signals.darwin s → Extended singleThread Signals.darwin s s' →
      ∀ s'', Later singleThread Signals.darwin s' s'' → ∀ len s₁, Delivered s'' len s₁ → 0 < len →
        Restarts singleThread Signals.darwin s₁ := by
  intro hall
  let s₁ := Proc.final ((onLink getpkt : Proc (Server Machine) Int).run askedFirst)
  have delivered : Delivered askedFirst 1 s₁ := Proc.eq_ok_of_value (by decide +kernel)
  have restarts := hall _ _ (reachable_launched _) extended_askedFirst _ .refl 1 s₁ delivered
    (by decide)
  have hR : command s₁ = 'R' := by decide +kernel
  have plain : s₁.extendedProtocol = false := by decide +kernel
  exact handlePacket_R_ne_restart plain hR (restarts.asked (Or.inl hR))

end Gdbserver
