import OsxGdbserver.PacketLoop

/-!
# Handlers and their buffers

Which packets, of those no longer than the server advertises, make a handler or the
`putpkt` after it leave a buffer.
-/

namespace Gdbserver

open Remote CString Ppc

variable {σ : Type} {k : Kernel σ} {host : Signals.Host} {s : Server σ}

/-- `handle_packet` stores inside its buffers, and the frame of the reply it leaves fits. -/
def StaysInside (k : Kernel σ) (host : Signals.Host) (s : Server σ) : Prop :=
  Proc.Ends (handlePacket k host) (fun _ s' => Frames s')
    (fun e _ => ∀ access, e = .fault access → access ∉ bufferFaults) s

theorem not_staysInside_of_fault (access : String)
    (h : Proc.stop ((handlePacket k host).run s) = some (.fault access))
    (stray : access ∈ bufferFaults) : ¬ StaysInside k host s := by
  intro hinside
  obtain ⟨_, hfault⟩ := Proc.Ends.of_stop hinside h
  exact hfault access rfl stray

theorem rest_length {body : List Byte} (short : body.length < pbufsiz)
    (hM : command (s.withText body) = 'M') :
    (cstr ((s.withText body).ownBuf.drop 1)).length ≤ pbufsiz := by
  cases body with
  | nil =>
    have hnul : Char.ofUInt8 0 = 'M' := hM
    exact absurd hnul (by decide +kernel)
  | cons c body =>
    have hle := cstr_stored_length_le body (s.link.session.ownBuf.drop (body.length + 2))
    exact Nat.le_trans hle (Nat.le_of_lt (Nat.lt_of_succ_lt short))

/-- For a packet of advertised length, in every reachable state. -/
theorem staysInside_iff (reachable : Reachable k host s) {body : List Byte}
    (short : body.length < pbufsiz) :
    StaysInside k host (s.withText body) ↔ Contained (s.withText body) := by
  obtain ⟨rs, t, h⟩ := reachable.serving
  have h' : Serving rs (s.withText body) t := h
  by_cases hleaves : command (s.withText body) = 'D' ∨ command (s.withText body) = 'k'
  · have hcontained : Contained (s.withText body) := by
      unfold Contained
      rcases hleaves with hc | hc <;> rw [hc] <;> trivial
    refine iff_of_true ?_ hcontained
    refine (handlePacket_leaves h' hleaves).imp (fun _ _ hfalse => hfalse.elim) ?_
    rintro e _ hleaves access rfl
    have haccess : access = "current_inferior" ∨ access = "fuel" := by
      simpa [Leaves, AckFault] using hleaves
    rcases haccess with rfl | rfl <;> decide
  · rw [not_or] at hleaves
    have hverdict : Verdict rs (handlePacket k host) (Answers k host (s.withText body) t)
        (Contained (s.withText body)) (s.withText body) :=
      handlePacket_verdict h' (rest_length short) hleaves.1 hleaves.2
    unfold StaysInside
    constructor
    · intro hinside
      unfold Verdict Proc.Ends at hverdict
      unfold Proc.Ends at hinside
      cases hrun : (handlePacket k host).run (s.withText body) with
      | ok restarted s' =>
        rw [hrun] at hverdict hinside
        exact hverdict.2.2.mp hinside
      | error e s' =>
        rw [hrun] at hverdict hinside
        obtain ⟨_, _, hstop⟩ := hverdict
        cases e with
        | error message => exact hstop
        | exit status => exact hstop.elim
        | fault access => exact absurd hstop.1 (hinside access rfl)
    · intro hcontained
      refine hverdict.imp ?_ ?_
      · rintro _ s' ⟨_, _, hframes⟩
        exact hframes.mpr hcontained
      · rintro e s' ⟨_, _, hstop⟩ access rfl
        exact absurd hcontained hstop.2

/-- The packet `g`, right after start-up. -/
theorem staysInside_iff_g :
    StaysInside singleThread Signals.darwin ((launched []).withText (ascii "g")) ↔
      Contained ((launched []).withText (ascii "g")) :=
  staysInside_iff (reachable_launched []) (by decide)

/-- The packet `m0,3e8` asks for 1000 bytes: after their digits the NUL is stored behind the
end of `own_buf`. -/
theorem not_staysInside_m :
    Reachable singleThread Signals.darwin (launched []) ∧ (ascii "m0,3e8").length < pbufsiz ∧
      ¬ StaysInside singleThread Signals.darwin ((launched []).withText (ascii "m0,3e8")) := by
  refine ⟨reachable_launched [], by decide, not_staysInside_of_fault "own_buf" ?_ ?_⟩
  · decide +kernel
  · decide

end Gdbserver
