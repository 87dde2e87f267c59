import OsxGdbserver.StopReplies
import OsxGdbserver.ResumePaths

/-!
# Signals there and back

The number a stop reply gives for a signal of the host is turned back into that signal when
the client resumes with it. A number that stands for no signal of the host is dropped.
-/

namespace Signals

variable {host : Host}

/-- The host gives `SIGCHLD` and `SIGCLD` one number, where it has both. -/
def Host.OneChild (host : Host) : Prop :=
  ∀ m n, host.number .sigCld = some m → host.number .sigChld = some n → m = n

/-- Different signals of the protocol have different numbers on the host, none of them 0. -/
structure Host.Distinct (host : Host) : Prop where
  nonzero : ∀ m, host.number m ≠ some 0
  apart : ∀ e ∈ fromHostTable, ∀ e' ∈ fromHostTable, ∀ n, host.number e.1 = some n →
    host.number e'.1 = some n → e.2 = e'.2

/-- Of the signals of the host only `SIGCLD` shares its number of the protocol. -/
theorem toHostTable_shared : ∀ e ∈ toHostTable, ∀ e' ∈ toHostTable, e.2 = e'.2 →
    e.1 = e'.1 ∨ e.1 ∈ [.sigCld, .sigChld] ∧ e'.1 ∈ [.sigCld, .sigChld] := by
  decide +kernel

theorem fromHostTable_ne : ∀ e ∈ toHostTable, e.2 ≠ targetSignal0 ∧ e.2 ≠ targetSignalUnknown := by
  decide +kernel

theorem Host.OneChild.number_eq (child : host.OneChild) {e e' : SigMacro × Nat}
    (he : e ∈ toHostTable) (he' : e' ∈ toHostTable) (same : e.2 = e'.2) {m n : Nat}
    (hm : host.number e.1 = some m) (hn : host.number e'.1 = some n) : m = n := by
  rcases toHostTable_shared e he e' he' same with heq | ⟨hmem, hmem'⟩
  · rw [heq, hn] at hm
    exact (Option.some.inj hm).symm
  · simp only [List.mem_cons, List.not_mem_nil, or_false] at hmem hmem'
    rcases hmem with h | h <;> rcases hmem' with h' | h' <;> rw [h] at hm <;> rw [h'] at hn
    · exact Option.some.inj (hm.symm.trans hn)
    · exact child m n hm hn
    · exact (child n m hn hm).symm
    · exact Option.some.inj (hm.symm.trans hn)

/-- The number the protocol has for a signal of the host leads back to it. -/
theorem doTargetSignalToHost_fromHost (child : host.OneChild) {hostsig : Nat}
    (known : targetSignalFromHost host hostsig ≠ targetSignalUnknown) :
    doTargetSignalToHost host (targetSignalFromHost host hostsig) = some hostsig := by
  unfold targetSignalFromHost at known ⊢
  split
  · rename_i hzero
    rw [hzero]
    rfl
  · rename_i hzero
    rw [if_neg hzero] at known
    cases hfind : fromHostTable.find? fun e => host.number e.1 = some hostsig with
    | none =>
      rw [hfind] at known
      exact absurd rfl known
    | some e =>
      have he : e ∈ toHostTable := List.mem_cons_of_mem _ (List.mem_of_find?_eq_some hfind)
      have hnumber : host.number e.1 = some hostsig := by simpa using List.find?_some hfind
      have hne : ¬ (e.2 : Int) = targetSignal0 := fun h =>
        (fromHostTable_ne e he).1 (Int.ofNat.inj h)
      dsimp only
      rw [doTargetSignalToHost, if_neg hne]
      cases hback : toHostTable.find? fun e' =>
          (e'.2 : Int) = (e.2 : Nat) ∧ (host.number e'.1).isSome with
      | none =>
        have hnone := List.find?_eq_none.mp hback e he
        simp [hnumber] at hnone
      | some e' =>
        have hmem := List.mem_of_find?_eq_some hback
        have hfound := List.find?_some hback
        simp only [decide_eq_true_eq] at hfound
        obtain ⟨hsame, hsome⟩ := hfound
        obtain ⟨n, hn⟩ := Option.isSome_iff_exists.mp hsome
        rw [Option.bind_some, hn]
        exact congrArg some (child.number_eq hmem he (Int.ofNat.inj hsame) hn hnumber)

/-- On a host that keeps its signals apart, the two translations are inverse to each other
wherever they are defined. -/
theorem signal_numbers_inverse (child : host.OneChild) (distinct : host.Distinct) (oursig : Int)
    (hostsig : Nat) :
    doTargetSignalToHost host oursig = some hostsig ↔
      (targetSignalFromHost host hostsig : Int) = oursig ∧ oursig ≠ targetSignalUnknown := by
  constructor
  · intro hto
    unfold doTargetSignalToHost at hto
    split at hto
    · rename_i hzero
      obtain rfl := Option.some.inj hto
      exact ⟨hzero.symm, by rw [hzero]; decide⟩
    · obtain ⟨e, hfind, hnumber⟩ := Option.bind_eq_some_iff.mp hto
      have he := List.mem_of_find?_eq_some hfind
      have hours := List.find?_some hfind
      simp only [decide_eq_true_eq] at hours
      have hunknown := (fromHostTable_ne e he).2
      have hzero : hostsig ≠ 0 := fun hz => distinct.nonzero e.1 (hz ▸ hnumber)
      have he' : ∃ e' ∈ fromHostTable, e'.1 = e.1 ∧ e'.2 = e.2 := by
        rcases List.mem_cons.mp he with rfl | he
        · exact ⟨(.sigChld, 20), by decide, rfl, rfl⟩
        · exact ⟨e, he, rfl, rfl⟩
      obtain ⟨e', hmem, hname, hvalue⟩ := he'
      rw [← hname] at hnumber
      refine ⟨?_, by omega⟩
      unfold targetSignalFromHost
      rw [if_neg hzero]
      cases hback : fromHostTable.find? fun f => host.number f.1 = some hostsig with
      | none =>
        have hnone := List.find?_eq_none.mp hback e' hmem
        simp [hnumber] at hnone
      | some f =>
        have hf : host.number f.1 = some hostsig := by simpa using List.find?_some hback
        have hsame := distinct.apart f (List.mem_of_find?_eq_some hback) e' hmem hostsig hf hnumber
        dsimp only
        omega
  · rintro ⟨rfl, known⟩
    exact doTargetSignalToHost_fromHost child fun h => known (congrArg _ h)

theorem oneChild_darwin : darwin.OneChild := by simp [Host.OneChild, darwin]

theorem distinct_darwin : darwin.Distinct where
  nonzero m := by cases m <;> simp [darwin]
  apart := by
    have hall : ∀ e ∈ fromHostTable, ∀ e' ∈ fromHostTable, (darwin.number e.1).isSome →
        darwin.number e.1 = darwin.number e'.1 → e.2 = e'.2 := by decide +kernel
    intro e he e' he' n hn hn'
    exact hall e he e' he' (by simp [hn]) (hn.trans hn'.symm)

theorem signal_numbers_inverse_usr1 :
    doTargetSignalToHost darwin 30 = some 30 ↔
      (targetSignalFromHost darwin 30 : Int) = 30 ∧ (30 : Int) ≠ targetSignalUnknown :=
  signal_numbers_inverse oneChild_darwin distinct_darwin 30 30

theorem doTargetSignalToHost_unknown : doTargetSignalToHost host targetSignalUnknown = none := by
  have hnone : (toHostTable.find? fun e =>
      (e.2 : Int) = targetSignalUnknown ∧ (host.number e.1).isSome) = none := by
    rw [List.find?_eq_none]
    intro e he
    have hne : ¬ (e.2 : Int) = targetSignalUnknown := fun h =>
      (fromHostTable_ne e he).2 (Int.ofNat.inj h)
    simp [hne]
  rw [doTargetSignalToHost, if_neg (by decide), hnone]
  rfl

end Signals

namespace Gdbserver

open Remote CString Ppc

variable {σ : Type} {k : Kernel σ} {host : Signals.Host} {s : Server σ} {t : ThreadInfo}

/-- The digits of a stop reply stand right behind its letter. -/
theorem prepareResumeReply_digits (r : Server σ) :
    let code := Signals.targetSignalFromHost host r.sig.toNat
    Proc.Ends (prepareResumeReply k host)
      (fun _ r' => (r'.ownBuf.drop 1).take 2 = [tohex (code / 16 % 16), tohex (code % 16)])
      (fun _ _ => True) r := by
  intro code
  have hreply : ∀ (text : List Byte) (r₁ : Server σ),
      Proc.Ends (reply ([r.status, tohex (code / 16 % 16), tohex (code % 16)] ++ text))
        (fun _ r' => (r'.ownBuf.drop 1).take 2 = [tohex (code / 16 % 16), tohex (code % 16)])
        (fun _ _ => True) r₁ := by
    intro text r₁
    unfold reply
    split
    · rfl
    · trivial
  unfold prepareResumeReply
  rw [Proc.Ends.bind_iff, Proc.Ends.get_iff]
  dsimp only
  split
  · rw [Proc.Ends.bind_iff]
    exact Proc.Ends.of_forall (fun text r₁ => hreply text r₁) fun _ _ => trivial
  · exact hreply [] r

/-- What the digits of a stop reply mean to `C` and `S`. -/
theorem signalByte_digits (child : host.OneChild) (sig : Byte) (stale : List Byte) :
    let code := Signals.targetSignalFromHost host sig.toNat
    signalByte host ([tohex (code / 16 % 16), tohex (code % 16)] ++ stale) =
      some (if code = Signals.targetSignalUnknown then 0 else sig.toNat) := by
  intro code
  have hlt : code < 256 := Signals.targetSignalFromHost_lt host sig.toNat
  have hbytes : convertAsciiToInt ([tohex (code / 16 % 16), tohex (code % 16)] ++ stale) 1 =
      ([UInt8.ofNat code], true) := by
    simp [convertAsciiToInt, deref, hexPair_tohex hlt]
  have hcode : (UInt8.ofNat code).toNat = code := UInt8.toNat_ofNat_of_lt' hlt
  rw [signalByte, hbytes]
  simp only [if_true, deref, List.headD_cons, hcode, Signals.targetSignalToHostP,
    Signals.targetSignalToHost]
  by_cases unknown : code = Signals.targetSignalUnknown
  · rw [if_pos unknown, unknown, Signals.doTargetSignalToHost_unknown]
    rfl
  · have hback : Signals.doTargetSignalToHost host code = some sig.toNat :=
      Signals.doTargetSignalToHost_fromHost child unknown
    rw [if_neg unknown, hback]
    simp [Nat.mod_eq_of_lt sig.toNat_lt]

/-- `C` and `S` with the signal that `signalByte` finds. -/
theorem after_signal (threads : ThreadList s.allThreads) (chosen : s.desired false = some t)
    (step : Bool) {body : List Byte} {sig : Nat}
    (found : signalByte host ((s.withText (ch (if step then 'S' else 'C') :: body)).ownBuf.drop 1) =
      some sig) :
    ∃ os, (s.after k host (ch (if step then 'S' else 'C') :: body)).ptraces =
      (resumeRequest step, t.pid, (sig : Int), os) :: s.ptraces := by
  let s₁ := s.withText (ch (if step then 'S' else 'C') :: body)
  have threads₁ : ThreadList s₁.allThreads := threads
  have hseen : (s.after k host (ch (if step then 'S' else 'C') :: body)).seen =
      (s₁.resumedBy k step sig).seen := by
    have hparse := parseSignalByte_run host (s₁.ownBuf.drop 1) s₁
    rw [found] at hparse
    have hhandler : (Proc.final ((do
        let sig ← parseSignalByte host ((← packet).drop 1)
        resumeAndReport k host step sig).run s₁)).seen = (s₁.resumedBy k step sig).seen := by
      rw [EStateM.run_bind, packet_run]
      simp only [EStateM.run_bind, hparse]
      exact resumeAndReport_seen threads₁ step sig
    cases step with
    | false =>
      have hcommand : command s₁ = 'C' := (command_withText 'C' body).trans (by decide +kernel)
      rw [after_eq hcommand rfl]
      exact hhandler
    | true =>
      have hcommand : command s₁ = 'S' := (command_withText 'S' body).trans (by decide +kernel)
      rw [after_eq hcommand rfl]
      exact hhandler
  have hptraces := congrArg Prod.fst hseen
  have hdesired : s₁.desired false = some t := chosen
  simp only [Server.resumedBy, hdesired] at hptraces
  exact ⟨_, hptraces.trans (resumed_ptraces _ _ _ _)⟩

/-- A client that resumes with the signal of a stop reply, whichever stop it was, makes the
server deliver the signal of the host that was reported; one the protocol has no number for
is not delivered. -/
theorem reported_signal_delivered (child : host.OneChild) {r r' : Server σ}
    (reported : (prepareResumeReply k host).run r = .ok () r') (threads : ThreadList s.allThreads)
    (chosen : s.desired false = some t) (step : Bool) :
    let known := Signals.targetSignalFromHost host r.sig.toNat ≠ Signals.targetSignalUnknown
    ∃ os, (s.after k host (ch (if step then 'S' else 'C') :: (r'.ownBuf.drop 1).take 2)).ptraces =
      (resumeRequest step, t.pid, if known then (r.sig.toNat : Int) else 0, os) :: s.ptraces := by
  have hdigits := @prepareResumeReply_digits _ k host r
  rw [Proc.Ends.of_run reported] at hdigits
  rw [hdigits]
  obtain ⟨os, hptraces⟩ := after_signal (k := k) threads chosen step
    (signalByte_digits child r.sig (0 :: s.ownBuf.drop 4))
  refine ⟨os, hptraces.trans ?_⟩
  rw [ite_not]
  split <;> rfl

theorem threadList_oneInferior : ThreadList oneInferior.allThreads :=
  ⟨by decide, by decide, by decide, by decide, by decide⟩

/-- The process has stopped with `SIGUSR1`, and is stepped with it. -/
theorem reported_signal_delivered_usr1 :
    let stopped : Server Machine := { oneInferior with status := ch 'T', sig := 30 }
    let reply := Proc.final ((prepareResumeReply singleThread Signals.darwin).run stopped)
    ∃ os, (oneInferior.after singleThread Signals.darwin
        (ch 'S' :: (reply.ownBuf.drop 1).take 2)).ptraces =
      (.step, inferior.pid, 30, os) :: oneInferior.ptraces := by
  intro stopped reply
  have hrun := prepareResumeReply_run singleThread Signals.darwin (s := stopped) (t := inferior)
    rfl threadList_oneInferior.nodes
  have hreply : (prepareResumeReply singleThread Signals.darwin).run stopped = .ok () reply :=
    Proc.eq_ok_of_value (by rw [hrun]; rfl)
  exact reported_signal_delivered (t := inferior) Signals.oneChild_darwin hreply
    threadList_oneInferior rfl true

end Gdbserver
