import OsxGdbserver.Signals

/-!
# The names of signals

The table `signals[]` of `signals.c` and the functions that look for a name in it. Its order is
that of `enum target_signal`; an entry without a name has `NULL` there.
-/

namespace Signals

/-- The names in `signals[]`. -/
def signals : List (Option String) :=
  [
    some "0", some "SIGHUP", some "SIGINT", some "SIGQUIT", some "SIGILL", some "SIGTRAP",
    some "SIGABRT", some "SIGEMT", some "SIGFPE", some "SIGKILL", some "SIGBUS", some "SIGSEGV",
    some "SIGSYS", some "SIGPIPE", some "SIGALRM", some "SIGTERM", some "SIGURG", some "SIGSTOP",
    some "SIGTSTP", some "SIGCONT", some "SIGCHLD", some "SIGTTIN", some "SIGTTOU", some "SIGIO",
    some "SIGXCPU", some "SIGXFSZ", some "SIGVTALRM", some "SIGPROF", some "SIGWINCH",
    some "SIGLOST", some "SIGUSR1", some "SIGUSR2", some "SIGPWR", some "SIGPOLL", some "SIGWIND",
    some "SIGPHONE", some "SIGWAITING", some "SIGLWP", some "SIGDANGER", some "SIGGRANT",
    some "SIGRETRACT", some "SIGMSG", some "SIGSOUND", some "SIGSAK", some "SIGPRIO", some "SIG33",
    some "SIG34", some "SIG35", some "SIG36", some "SIG37", some "SIG38", some "SIG39",
    some "SIG40", some "SIG41", some "SIG42", some "SIG43", some "SIG44", some "SIG45",
    some "SIG46", some "SIG47", some "SIG48", some "SIG49", some "SIG50", some "SIG51",
    some "SIG52", some "SIG53", some "SIG54", some "SIG55", some "SIG56", some "SIG57",
    some "SIG58", some "SIG59", some "SIG60", some "SIG61", some "SIG62", some "SIG63",
    some "SIGCANCEL", some "SIG32", some "SIG64", some "SIG65", some "SIG66", some "SIG67",
    some "SIG68", some "SIG69", some "SIG70", some "SIG71", some "SIG72", some "SIG73",
    some "SIG74", some "SIG75", some "SIG76", some "SIG77", some "SIG78", some "SIG79",
    some "SIG80", some "SIG81", some "SIG82", some "SIG83", some "SIG84", some "SIG85",
    some "SIG86", some "SIG87", some "SIG88", some "SIG89", some "SIG90", some "SIG91",
    some "SIG92", some "SIG93", some "SIG94", some "SIG95", some "SIG96", some "SIG97",
    some "SIG98", some "SIG99", some "SIG100", some "SIG101", some "SIG102", some "SIG103",
    some "SIG104", some "SIG105", some "SIG106", some "SIG107", some "SIG108", some "SIG109",
    some "SIG110", some "SIG111", some "SIG112", some "SIG113", some "SIG114", some "SIG115",
    some "SIG116", some "SIG117", some "SIG118", some "SIG119", some "SIG120", some "SIG121",
    some "SIG122", some "SIG123", some "SIG124", some "SIG125", some "SIG126", some "SIG127",
    some "SIGINFO", none, none, some "EXC_BAD_ACCESS", some "EXC_BAD_INSTRUCTION",
    some "EXC_ARITHMETIC", some "EXC_EMULATION", some "EXC_SOFTWARE", some "EXC_BREAKPOINT", none]

/-- `TARGET_SIGNAL_LAST` -/
def targetSignalLast : Nat := 151

/-- `signals[sig].name` -/
def nameAt (sig : Nat) : Option String := signals[sig]?.join

def targetSignalToName (sig : Int) : String :=
  if 0 ≤ sig ∧ sig ≤ targetSignalLast then (nameAt sig.toNat).getD "?" else "?"

/-- The loop starts at `TARGET_SIGNAL_HUP` and ends before `TARGET_SIGNAL_LAST`. -/
def targetSignalFromName (name : String) : Nat :=
  ((List.range' 1 150).find? fun sig => nameAt sig = some name).getD targetSignalUnknown

/-- The characters of a name as the digits of a number. -/
def nameKey (name : String) : Nat := name.toList.foldl (fun key c => 256 * key + c.toNat) 0

theorem nameAt_eq_some {sig : Nat} {name : String} :
    nameAt sig = some name ↔ signals[sig]? = some (some name) :=
  Option.join_eq_some_iff

/-- No two signals share a name. -/
theorem names_nodup : (signals.filterMap id).Nodup := by
  have hkeys : ((signals.filterMap id).map nameKey).Nodup := by decide +kernel
  exact List.Nodup.of_map nameKey hkeys

theorem nameAt_inj {sig other : Nat} {name : String} (h : nameAt sig = some name)
    (hother : nameAt other = some name) : sig = other := by
  have hapart : ∀ i j : Nat, i < j → signals[i]? = some (some name) →
      signals[j]? ≠ some (some name) := by
    have hpairs := List.pairwise_filterMap.mp names_nodup
    intro i j hlt hi hj
    obtain ⟨hi', hi⟩ := List.getElem?_eq_some_iff.mp hi
    obtain ⟨hj', hj⟩ := List.getElem?_eq_some_iff.mp hj
    exact List.pairwise_iff_getElem.mp hpairs i j hi' hj' hlt name hi name hj rfl
  rw [nameAt_eq_some] at h hother
  rcases Nat.lt_trichotomy sig other with hlt | heq | hgt
  · exact absurd hother (hapart sig other hlt h)
  · exact heq
  · exact absurd h (hapart other sig hgt hother)

/-- A name that is found is the name of the signal found. -/
theorem nameAt_of_targetSignalFromName {name : String}
    (known : targetSignalFromName name ≠ targetSignalUnknown) :
    1 ≤ targetSignalFromName name ∧ targetSignalFromName name < targetSignalLast ∧
      nameAt (targetSignalFromName name) = some name := by
  unfold targetSignalFromName at known ⊢
  cases hfind : (List.range' 1 150).find? fun sig => nameAt sig = some name with
  | none =>
    rw [hfind] at known
    exact absurd rfl known
  | some sig =>
    have hname : nameAt sig = some name := by simpa using List.find?_some hfind
    have hmem := List.mem_range'_1.mp (List.mem_of_find?_eq_some hfind)
    simp only [Option.getD_some]
    unfold targetSignalLast
    exact ⟨by omega, by omega, hname⟩

theorem targetSignalFromName_of_nameAt {sig : Nat} {name : String} (pos : 1 ≤ sig)
    (lt : sig < targetSignalLast) (h : nameAt sig = some name) :
    targetSignalFromName name = sig := by
  have hmem : sig ∈ List.range' 1 150 := by
    rw [List.mem_range'_1]
    unfold targetSignalLast at lt
    omega
  cases hfind : (List.range' 1 150).find? fun sig => nameAt sig = some name with
  | none =>
    have hnone := List.find?_eq_none.mp hfind sig hmem
    simp [h] at hnone
  | some other =>
    have hname : nameAt other = some name := by simpa using List.find?_some hfind
    rw [targetSignalFromName, hfind, nameAt_inj h hname]
    rfl

theorem nameAt_unknown : nameAt targetSignalUnknown = none := by decide

theorem nameAt_last : nameAt targetSignalLast = none := by decide

/-- No signal is called as those without a name are. -/
theorem nameAt_ne_question (sig : Nat) : nameAt sig ≠ some "?" := by
  have hall : ∀ name ∈ signals, name ≠ some "?" := by decide +kernel
  intro h
  exact hall _ (List.mem_of_getElem? (nameAt_eq_some.mp h)) rfl

/-- Names and numbers determine each other, but for the signal numbered 0, whose name is not
looked for. -/
theorem signal_names_inverse (name : String) (sig : Int) :
    (targetSignalFromName name : Int) = sig ∧ sig ≠ targetSignalUnknown ↔
      1 ≤ sig ∧ targetSignalToName sig = name ∧ name ≠ "?" := by
  constructor
  · rintro ⟨rfl, known⟩
    obtain ⟨hpos, hlt, hname⟩ := nameAt_of_targetSignalFromName fun h => known (congrArg _ h)
    refine ⟨by omega, ?_, ?_⟩
    · rw [targetSignalToName, if_pos (by omega), Int.toNat_natCast, hname]
      rfl
    · rintro rfl
      exact nameAt_ne_question _ hname
  · rintro ⟨hpos, hname, hnamed⟩
    unfold targetSignalToName at hname
    split at hname
    · rename_i hrange
      cases hat : nameAt sig.toNat with
      | none =>
        rw [hat] at hname
        exact absurd hname.symm hnamed
      | some found =>
        rw [hat, Option.getD_some] at hname
        subst hname
        have hlast : sig.toNat ≠ targetSignalLast := by
          intro heq
          rw [heq, nameAt_last] at hat
          cases hat
        have hback : targetSignalFromName found = sig.toNat :=
          targetSignalFromName_of_nameAt (by omega) (by omega) hat
        refine ⟨by omega, ?_⟩
        rintro rfl
        rw [Int.toNat_natCast, nameAt_unknown] at hat
        cases hat
    · exact absurd hname.symm hnamed

end Signals
