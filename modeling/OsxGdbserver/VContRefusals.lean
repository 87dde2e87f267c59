import OsxGdbserver.VContActions
import OsxGdbserver.PacketTexts
import OsxGdbserver.PacketLoop
import Mathlib.Logic.Relation

/-!
# The vCont packets that are refused

The parser of `vCont` skips one character before each action, whatever it is, and asks
`strtol` for a number without asking whether there was one. Many packets that are no list of
actions pass.
-/

namespace Gdbserver

open Remote CString Ppc

variable {σ : Type} {k : Kernel σ} {host : Signals.Host} {s : Server σ}

/-- `c`, `s`, or `C` or `S` with the digits of a signal that the host has. -/
def IsAction (host : Signals.Host) (text : List Byte) : Prop :=
  text = [ch 'c'] ∨ text = [ch 's'] ∨
    ∃ letter digits, (letter = ch 'C' ∨ letter = ch 'S') ∧ text = letter :: digits ∧ digits ≠ [] ∧
      (∀ c ∈ digits, isHexDigit c) ∧
        Signals.targetSignalToHostP host (min (2 ^ 31 - 1) (digitsValue digits))

/-- Nothing, or a colon and the digits of a thread, which may have a sign. -/
def IsThread (text : List Byte) : Prop :=
  text = [] ∨ ∃ sign digits, (sign = [] ∨ sign = [ch '-']) ∧ text = ch ':' :: (sign ++ digits) ∧
    digits ≠ [] ∧ ∀ c ∈ digits, isHexDigit c

/-- A list of actions, each behind a semicolon. -/
def WellFormed (host : Signals.Host) (body : List Byte) : Prop :=
  ∃ items : List (List Byte × List Byte), items ≠ [] ∧
    body = ascii "vCont" ++ items.flatMap (fun i => ch ';' :: (i.1 ++ i.2)) ∧
      ∀ i ∈ items, IsAction host i.1 ∧ IsThread i.2

/-- An action at the start of a text, and the text behind it. Where no digits stand behind `C`
or `S` the signal is 0. -/
def ActionAt (host : Signals.Host) (text rest : List Byte) : Prop :=
  ∃ letter behind, text = letter :: behind ∧
    ((letter = ch 'c' ∨ letter = ch 's') ∧ rest = behind ∨
      (letter = ch 'C' ∨ letter = ch 'S') ∧ (strtol (behind ++ [0])).2 = rest ++ [0] ∧
        Signals.targetSignalToHostP host (strtol (behind ++ [0])).1)

/-- One character of any kind, an action, and perhaps a colon with what `strtol` takes behind
it; then a semicolon must follow, or the end. -/
inductive Round (host : Signals.Host) : List Byte → List Byte → Prop
  | bare {c : Byte} {text rest : List Byte} :
    ActionAt host text rest → deref rest ≠ ch ':' → Round host (c :: text) rest
  | named {c : Byte} {text tid rest : List Byte} :
    ActionAt host text (ch ':' :: tid) → (strtol (tid ++ [0])).2 = rest ++ [0] →
      deref rest = ch ';' ∨ deref rest = 0 → Round host (c :: text) rest

/-- A text of nothing but such rounds. -/
def Tolerated (host : Signals.Host) (text : List Byte) : Prop :=
  Relation.ReflTransGen (Round host) text []

theorem ActionAt.unique {text rest rest' : List Byte} (h : ActionAt host text rest)
    (h' : ActionAt host text rest') : rest = rest' := by
  obtain ⟨letter, behind, rfl, hrest⟩ := h
  obtain ⟨letter', behind', heq, hrest'⟩ := h'
  cases heq
  have hletters : ∀ l : Byte, (l = ch 'c' ∨ l = ch 's') → (l = ch 'C' ∨ l = ch 'S') → False := by
    rintro l (rfl | rfl) hupper <;> revert hupper <;> decide
  rcases hrest with ⟨hlow, rfl⟩ | ⟨hup, hend, -⟩
  · rcases hrest' with ⟨-, rfl⟩ | ⟨hup, -⟩
    · rfl
    · exact (hletters letter hlow hup).elim
  · rcases hrest' with ⟨hlow, -⟩ | ⟨-, hend', -⟩
    · exact (hletters letter hlow hup).elim
    · exact List.append_cancel_right (hend.symm.trans hend')

theorem Round.unique {text rest rest' : List Byte} (h : Round host text rest)
    (h' : Round host text rest') : rest = rest' := by
  cases h with
  | bare hact hcolon =>
    cases h' with
    | bare hact' _ => exact hact.unique hact'
    | named hact' _ _ =>
      have heq := hact.unique hact'
      rw [heq] at hcolon
      exact absurd rfl hcolon
  | named hact hend _ =>
    cases h' with
    | bare hact' hcolon =>
      have heq := hact'.unique hact
      rw [heq] at hcolon
      exact absurd rfl hcolon
    | named hact' hend' _ =>
      have heq := hact.unique hact'
      cases heq
      exact List.append_cancel_right (hend.symm.trans hend')

theorem tolerated_iff_of_round {text rest : List Byte} (h : Round host text rest) :
    Tolerated host text ↔ Tolerated host rest := by
  constructor
  · intro htext
    rcases htext.cases_head with rfl | ⟨next, hround, hrest⟩
    · cases h
    · exact h.unique hround ▸ hrest
  · exact fun hrest => .head h hrest

theorem not_tolerated_of_no_round {c : Byte} {text : List Byte}
    (h : ¬ ∃ rest, Round host (c :: text) rest) : ¬ Tolerated host (c :: text) := by
  intro htext
  rcases htext.cases_head with heq | ⟨next, hround, -⟩
  · cases heq
  · exact h ⟨next, hround⟩

theorem not_length_eq_of_suffix {q behind : List Byte} (h : q <:+ behind) (c : Byte)
    (stale : List Byte) :
    ¬ (q ++ 0 :: stale).length = (c :: (behind ++ 0 :: stale)).length := by
  have hle := h.length_le
  simp only [List.length_append, List.length_cons]
  omega

theorem parseAction_cases (host : Signals.Host) (text : List Byte) :
    (∃ rest step sig, ActionAt host text rest ∧ rest <:+ text ∧
      ∀ stale, parseAction host (text ++ 0 :: stale) = some (step, sig, rest ++ 0 :: stale)) ∨
    (¬ ∃ rest, ActionAt host text rest) ∧
      ∀ stale, parseAction host (text ++ 0 :: stale) = none := by
  cases text with
  | nil =>
    refine Or.inr ⟨?_, fun _ => rfl⟩
    rintro ⟨rest, letter, behind, heq, -⟩
    cases heq
  | cons c behind =>
    obtain ⟨sig, q, hq, hstrtol⟩ := strtol_ends behind
    have hsuffix : behind <:+ c :: behind := List.suffix_cons c behind
    have hmoved := not_length_eq_of_suffix hq c
    by_cases hplain : c = ch 's' ∨ c = ch 'c'
    · refine Or.inl ⟨behind, decide (c = ch 's'), 0,
        ⟨c, behind, rfl, Or.inl ⟨hplain.symm, rfl⟩⟩, hsuffix, fun stale => ?_⟩
      simp [parseAction, deref, hplain]
    · by_cases hsignal : c = ch 'S' ∨ c = ch 'C'
      · by_cases hhost : Signals.targetSignalToHostP host sig
        · refine Or.inl ⟨q, decide (c = ch 'S'), Signals.targetSignalToHost host sig,
            ⟨c, behind, rfl, Or.inr ⟨hsignal.symm, ?_, ?_⟩⟩, hq.trans hsuffix, fun stale => ?_⟩
          · rw [hstrtol]
          · rw [hstrtol]
            exact hhost
          · simp only [parseAction, deref, List.cons_append, List.headD_cons, hplain, if_false,
              hsignal, if_true, List.tail_cons, hstrtol, hmoved, hhost]
            rfl
        · refine Or.inr ⟨?_, fun stale => ?_⟩
          · rintro ⟨rest, letter, behind', heq, ⟨hlow, -⟩ | ⟨-, -, hhost'⟩⟩
            · cases heq
              exact hplain hlow.symm
            · cases heq
              rw [hstrtol] at hhost'
              exact hhost hhost'
          · simp only [parseAction, deref, List.cons_append, List.headD_cons, hplain, if_false,
              hsignal, if_true, List.tail_cons, hstrtol, hmoved, hhost]
            rfl
      · refine Or.inr ⟨?_, fun stale => by simp [parseAction, deref, hplain, hsignal]⟩
        rintro ⟨rest, letter, behind', heq, ⟨hlow, -⟩ | ⟨hup, -⟩⟩
        · cases heq
          exact hplain hlow.symm
        · cases heq
          exact hsignal hup.symm

/-- Behind an action and a colon it is what `strtol` leaves that decides. -/
theorem round_iff_of_colon {c : Byte} {text tid rest : List Byte}
    (hact : ActionAt host text (ch ':' :: tid)) (hend : (strtol (tid ++ [0])).2 = rest ++ [0]) :
    (∃ rest', Round host (c :: text) rest') ↔ deref rest = ch ';' ∨ deref rest = 0 := by
  constructor
  · rintro ⟨rest', hround⟩
    cases hround with
    | bare hact' hne =>
      rw [hact'.unique hact] at hne
      exact absurd rfl hne
    | named hact' hend' hlast =>
      cases hact'.unique hact
      cases List.append_cancel_right (hend'.symm.trans hend)
      exact hlast
  · exact fun hlast => ⟨rest, .named hact hend hlast⟩

theorem actionRound_cases (host : Signals.Host) (c : Byte) (text : List Byte)
    (entries : List ThreadResume) (action : ThreadResume) :
    (∃ rest entries' action', Round host (c :: text) rest ∧ rest <:+ text ∧
      ∀ stale, actionRound host (c :: text ++ 0 :: stale) entries action =
        some (entries', action', rest ++ 0 :: stale)) ∨
    (¬ ∃ rest, Round host (c :: text) rest) ∧
      ∀ stale, actionRound host (c :: text ++ 0 :: stale) entries action = none := by
  have htail : ∀ stale : List Byte, (c :: text ++ 0 :: stale).tail = text ++ 0 :: stale :=
    fun _ => rfl
  rcases parseAction_cases host text with ⟨q, step, sig, hact, hq, hparse⟩ | ⟨hnone, hparse⟩
  · by_cases hnul : deref q = 0
    · refine Or.inl ⟨q, entries,
        { thread := -1, step := step, sig := sig, leaveStopped := false }, .bare hact ?_, hq,
        fun stale => ?_⟩
      · rw [hnul]
        decide
      · simp only [actionRound, htail, hparse, Option.bind_some, deref_nul, hnul, if_true]
    · by_cases hcolon : deref q = ch ':'
      · obtain ⟨tid, rfl⟩ : ∃ tid, q = ch ':' :: tid := by
          cases q with
          | nil => exact absurd rfl hnul
          | cons d tid => exact ⟨tid, congrArg (· :: tid) hcolon⟩
        obtain ⟨id, rest, hrest, hstrtol⟩ := strtol_ends tid
        have hmoved : ∀ stale : List Byte,
            ¬ (rest ++ 0 :: stale).length = (ch ':' :: tid ++ 0 :: stale).length :=
          not_length_eq_of_suffix hrest (ch ':')
        have hcolon0 : ch ':' ≠ 0 := by decide
        have hbehind : ∀ stale : List Byte,
            (ch ':' :: tid ++ 0 :: stale).tail = tid ++ 0 :: stale := fun _ => rfl
        have hend : (strtol (tid ++ [0])).2 = rest ++ [0] := by rw [hstrtol]
        by_cases hstop : deref rest ≠ ch ';' ∧ deref rest ≠ 0
        · refine Or.inr ⟨?_, fun stale => ?_⟩
          · rw [round_iff_of_colon hact hend]
            exact not_or.mpr hstop
          · simp only [actionRound, htail, hparse, Option.bind_some, deref_nul, hcolon, hcolon0,
              if_false, if_true, hbehind, hstrtol, hmoved, hstop, ne_eq, not_false_eq_true,
              and_self]
        · refine Or.inl ⟨rest,
            entries ++ [{ thread := id, step := step, sig := sig, leaveStopped := false }],
            action, .named hact hend ?_, hrest.trans ((List.suffix_cons _ _).trans hq),
            fun stale => ?_⟩
          · by_contra hneither
            exact hstop (not_or.mp hneither)
          · simp only [actionRound, htail, hparse, Option.bind_some, deref_nul, hcolon, hcolon0,
              if_false, if_true, hbehind, hstrtol, hmoved, hstop]
      · refine Or.inl ⟨q, entries, action, .bare hact hcolon, hq, fun stale => ?_⟩
        simp only [actionRound, htail, hparse, Option.bind_some, deref_nul, hnul, if_false, hcolon]
  · refine Or.inr ⟨?_, fun stale => ?_⟩
    · rintro ⟨rest, hround⟩
      cases hround with
      | bare hact _ => exact hnone ⟨_, hact⟩
      | named hact _ _ => exact hnone ⟨_, hact⟩
    · simp only [actionRound, htail, hparse, Option.bind_none]

theorem parseActions_nul (host : Signals.Host) {text : List Byte} {fuel fuel' : Nat}
    (enough : text.length ≤ fuel) (enough' : text.length ≤ fuel') (stale stale' : List Byte)
    (entries : List ThreadResume) (action : ThreadResume) :
    parseActions host fuel (text ++ 0 :: stale) entries action =
      parseActions host fuel' (text ++ 0 :: stale') entries action := by
  induction hn : text.length using Nat.strong_induction_on
    generalizing text fuel fuel' entries action with
  | _ n ih =>
    cases text with
    | nil => cases fuel <;> cases fuel' <;> rfl
    | cons c text =>
      simp only [List.length_cons] at hn enough enough'
      obtain ⟨fuel, rfl⟩ := Nat.exists_eq_add_one_of_ne_zero (show fuel ≠ 0 by omega)
      obtain ⟨fuel', rfl⟩ := Nat.exists_eq_add_one_of_ne_zero (show fuel' ≠ 0 by omega)
      rw [parseActions_succ, parseActions_succ, deref_nul, deref_nul]
      split
      · rfl
      · rcases actionRound_cases host c text entries action with
          ⟨rest, entries', action', _, hsuffix, hrun⟩ | ⟨_, hrun⟩
        · have hle := hsuffix.length_le
          rw [hrun, hrun]
          exact ih rest.length (by omega) (by omega) (by omega) entries' action' rfl
        · rw [hrun, hrun]
          rfl

theorem resumeInfo_nul (host : Signals.Host) {text : List Byte} (long : 5 ≤ text.length)
    (stale stale' : List Byte) :
    resumeInfo host (text ++ 0 :: stale) = resumeInfo host (text ++ 0 :: stale') := by
  have hdrop : ∀ stale : List Byte,
      (text ++ 0 :: stale).drop 5 = text.drop 5 ++ 0 :: stale := fun stale =>
    List.drop_append_of_le_length long
  have henough : ∀ stale : List Byte, (text.drop 5).length ≤ (text ++ 0 :: stale).length := by
    intro stale
    simp only [List.length_drop, List.length_append]
    omega
  rw [resumeInfo, resumeInfo, hdrop, hdrop,
    parseActions_nul host (henough stale) (henough stale') stale stale']

/-- The parsing loop takes just the texts that are nothing but rounds. -/
theorem parseActions_isSome_iff {text : List Byte} (noNul : 0 ∉ text) {fuel : Nat}
    (enough : text.length ≤ fuel) (entries : List ThreadResume) (action : ThreadResume)
    (stale : List Byte) :
    (parseActions host fuel (text ++ 0 :: stale) entries action).isSome ↔ Tolerated host text := by
  induction hn : text.length using Nat.strong_induction_on
    generalizing text fuel entries action with
  | _ n ih =>
    cases text with
    | nil =>
      have hnil : Tolerated host [] := .refl
      cases fuel with
      | zero => exact iff_of_true rfl hnil
      | succ fuel => exact iff_of_true rfl hnil
    | cons c text =>
      simp only [List.length_cons] at hn enough
      obtain ⟨fuel, rfl⟩ := Nat.exists_eq_add_one_of_ne_zero (show fuel ≠ 0 by omega)
      have hc : ¬ deref (c :: text) = 0 := fun hzero => noNul (hzero ▸ List.mem_cons_self)
      rw [parseActions_succ, deref_nul, if_neg hc]
      rcases actionRound_cases host c text entries action with
        ⟨rest, entries', action', hround, hsuffix, hrun⟩ | ⟨hnone, hrun⟩
      · have hle := hsuffix.length_le
        have hrest : 0 ∉ rest := fun hmem =>
          noNul (List.mem_cons_of_mem c (hsuffix.subset hmem))
        rw [hrun, tolerated_iff_of_round hround]
        exact ih rest.length (by omega) hrest (by omega) entries' action' rfl
      · rw [hrun]
        exact iff_of_false Bool.false_ne_true (not_tolerated_of_no_round hnone)

theorem resumeInfo_isSome_iff {body : List Byte} (noNul : 0 ∉ body) (long : 5 ≤ body.length)
    (stale : List Byte) :
    (resumeInfo host (body ++ 0 :: stale)).isSome ↔ Tolerated host (body.drop 5) := by
  have hdrop : (body ++ 0 :: stale).drop 5 = body.drop 5 ++ 0 :: stale :=
    List.drop_append_of_le_length long
  have henough : (body.drop 5).length ≤ (body ++ 0 :: stale).length := by
    simp only [List.length_drop, List.length_append]
    omega
  rw [resumeInfo, hdrop, Option.isSome_map]
  exact parseActions_isSome_iff (fun hmem => noNul (List.mem_of_mem_drop hmem)) henough _ _ _

theorem actionRound_thread {p q : List Byte} {entries entries' : List ThreadResume}
    {action action' : ThreadResume} (h : action.thread = -1)
    (round : actionRound host p entries action = some (entries', action', q)) :
    action'.thread = -1 := by
  obtain ⟨⟨step, sig, r⟩, -, hround⟩ := Option.bind_eq_some_iff.mp round
  dsimp only at hround
  split at hround
  · cases hround
    rfl
  · split at hround
    · split at hround
      · cases hround
      · split at hround
        · cases hround
        · cases hround
          exact h
    · cases hround
      exact h

theorem parseActions_thread {fuel : Nat} {p : List Byte} {entries entries' : List ThreadResume}
    {action action' : ThreadResume} (h : action.thread = -1)
    (parsed : parseActions host fuel p entries action = some (entries', action')) :
    action'.thread = -1 := by
  induction fuel generalizing p entries action with
  | zero =>
    cases parsed
    exact h
  | succ fuel ih =>
    rw [parseActions_succ] at parsed
    split at parsed
    · cases parsed
      exact h
    · obtain ⟨⟨entries₁, action₁, q⟩, hround, hrest⟩ := Option.bind_eq_some_iff.mp parsed
      exact ih (actionRound_thread h hround) hrest

theorem resumeChoice_resumeInfo {buf : List Byte} {info : List ThreadResume}
    (parsed : resumeInfo host buf = some info) (pid : Int) :
    ∃ step sig, resumeChoice pid info = some (step, sig) := by
  obtain ⟨⟨entries, action⟩, hparse, rfl⟩ := Option.map_eq_some_iff.mp parsed
  have hthread := parseActions_thread rfl hparse
  have hfound : (applyingEntry pid (entries ++ [action])).isSome := by
    refine List.find?_isSome.mpr ⟨action, by simp, ?_⟩
    exact decide_eq_true (Or.inl hthread)
  obtain ⟨r, hr⟩ := Option.isSome_iff_exists.mp hfound
  exact ⟨r.step, r.sig, by rw [resumeChoice_eq, hr]; rfl⟩

/-- The empty reply, and nothing else has happened. -/
def Refuses (k : Kernel σ) (host : Signals.Host) (s : Server σ) : Prop :=
  (handleVCont k host).run s = .ok () (s.withText [])

theorem handleVCont_run_none (h : resumeInfo host s.ownBuf = none) : Refuses k host s := by
  rw [Refuses, handleVCont, EStateM.run_bind, packet_run]
  dsimp only
  rw [h]
  exact reply_run (by decide)

theorem resumedBy_ptraces_length {t : ThreadInfo} (h : s.desired false = some t) (step : Bool)
    (sig : Int) : (s.resumedBy k step sig).ptraces.length = s.ptraces.length + 1 := by
  simp only [Server.resumedBy, h, resumed_ptraces, List.length_cons]
  rfl

theorem not_refuses_of_some (nodup : (s.allThreads.map ThreadInfo.node).Nodup)
    {info : List ThreadResume} (h : resumeInfo host s.ownBuf = some info) :
    ¬ Refuses k host s := by
  intro refuses
  let first := (info.head?.map ThreadResume.thread).getD (-1)
  let s₁ : Server σ :=
    { s with contThread := if countActions s.ownBuf = 1 ∧ first ≠ -1 then first else -1 }
  have hrun : (handleVCont k host).run s =
      (do
        setDesiredInferior false
        darwinResume k info
        mywait k true
        prepareResumeReply k host : Proc (Server σ) Unit).run s₁ := by
    rw [handleVCont, EStateM.run_bind, packet_run]
    dsimp only
    rw [h]
    rfl
  rw [Refuses, hrun] at refuses
  cases hdesired : s₁.desired false with
  | none =>
    have hset : (setDesiredInferior false).run s₁ = .ok ()
        { s₁ with currentInferior := (s₁.desired false).map ThreadInfo.node } := rfl
    rw [hdesired] at hset
    rw [EStateM.run_bind, hset] at refuses
    simp only [darwinResume, EStateM.run_bind] at refuses
    cases refuses
  | some t =>
    obtain ⟨step, sig, hchoice⟩ := resumeChoice_resumeInfo h t.pid
    have hchosen : ∀ u, s₁.desired false = some u →
        resumeChoice u.pid info = some (step, sig) := by
      intro u hu
      rw [← Option.some.inj (hdesired.symm.trans hu)]
      exact hchoice
    have hseen := vCont_seen (k := k) (s := s₁) host nodup hchosen
    rw [refuses] at hseen
    have hlength := congrArg (fun seen => seen.1.length) hseen
    have hkept : (Server.ptraces (s.withText [])).length = s₁.ptraces.length := rfl
    simp only [Server.seen, Proc.final, resumedBy_ptraces_length hdesired] at hlength
    omega

/-- A malformed packet is refused just if the parser does not take it for rounds. -/
theorem refuses_malformed_iff (k : Kernel σ) (nodup : (s.allThreads.map ThreadInfo.node).Nodup)
    {body stale : List Byte} (hbuf : s.ownBuf = body ++ 0 :: stale) (noNul : 0 ∉ body)
    (hstarts : ascii "vCont;" <+: body) :
    (¬ WellFormed host body → Refuses k host s) ↔
      WellFormed host body ∨ ¬ Tolerated host (body.drop 5) := by
  have hlong : 6 ≤ body.length := hstarts.length_le
  have htolerated : _ ↔ Tolerated host _ := resumeInfo_isSome_iff noNul (by omega) stale
  rw [← hbuf] at htolerated
  have hrefuses : Refuses k host s ↔ ¬ Tolerated host (body.drop 5) := by
    rw [← htolerated, Option.not_isSome_iff_eq_none]
    constructor
    · intro refuses
      by_contra hparse
      obtain ⟨info, hinfo⟩ := Option.ne_none_iff_exists'.mp hparse
      exact not_refuses_of_some nodup hinfo refuses
    · exact handleVCont_run_none
  rw [hrefuses, or_iff_not_imp_left]

theorem refuses_malformed_iff_x :
    (¬ WellFormed Signals.darwin (ascii "vCont;x") →
        Refuses singleThread Signals.darwin ((launched []).withText (ascii "vCont;x"))) ↔
      WellFormed Signals.darwin (ascii "vCont;x") ∨ ¬ Tolerated Signals.darwin (ascii ";x") := by
  obtain ⟨rs, t, h⟩ := (reachable_launched []).serving
  have nodup : (((launched []).withText (ascii "vCont;x")).allThreads.map
      ThreadInfo.node).Nodup := h.nodup
  exact refuses_malformed_iff singleThread nodup rfl (by decide) (by decide)

theorem not_wellFormed_C : ¬ WellFormed host (ascii "vCont;C") := by
  rintro ⟨items, hne, hbody, hitems⟩
  obtain ⟨i, rest, rfl⟩ := List.exists_cons_of_ne_nil hne
  have htext : [ch 'C'] = i.1 ++ (i.2 ++ rest.flatMap fun i => ch ';' :: (i.1 ++ i.2)) := by
    have hflat := List.append_cancel_left (show ascii "vCont" ++ [ch ';', ch 'C'] = _ from hbody)
    simpa using hflat
  rcases (hitems i List.mem_cons_self).1 with hc | hs | ⟨letter, digits, -, haction, hdigits, -⟩
  · rw [hc] at htext
    exact absurd (List.cons.inj htext).1 (by decide)
  · rw [hs] at htext
    exact absurd (List.cons.inj htext).1 (by decide)
  · obtain ⟨d, digits, rfl⟩ := List.exists_cons_of_ne_nil hdigits
    rw [haction] at htext
    cases htext

/-- `vCont;C` has no digits; the inferior is continued with signal 0. -/
theorem not_refuses_C :
    Reachable singleThread Signals.darwin (launched []) ∧
      ¬ WellFormed Signals.darwin (ascii "vCont;C") ∧
        ¬ Refuses singleThread Signals.darwin ((launched []).withText (ascii "vCont;C")) := by
  obtain ⟨rs, t, h⟩ := (reachable_launched []).serving
  have nodup : (((launched []).withText (ascii "vCont;C")).allThreads.map
      ThreadInfo.node).Nodup := h.nodup
  have hround : Round Signals.darwin (ascii ";C") [] :=
    .bare ⟨ch 'C', [], rfl, Or.inr ⟨Or.inl rfl, by decide, by decide⟩⟩ (by decide)
  have hparse := fun stale => (resumeInfo_isSome_iff
    (show 0 ∉ ascii "vCont;C" by decide) (by decide) stale).mpr (.single hround)
  obtain ⟨info, hinfo⟩ := Option.isSome_iff_exists.mp
    (hparse ((launched []).ownBuf.drop ((ascii "vCont;C").length + 1)))
  exact ⟨reachable_launched [], not_wellFormed_C, not_refuses_of_some nodup hinfo⟩

end Gdbserver
