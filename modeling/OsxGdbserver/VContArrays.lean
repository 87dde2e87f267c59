import OsxGdbserver.VContRefusals

/-!
# The array of handle_v_cont

`handle_v_cont` counts the semicolons of the packet, gets an array of one slot more from
`malloc`, and fills it in a second loop that stores on another criterion. Here the array is
one of slots whose members have been assigned or not, and an index behind its end is an error.
-/

namespace Gdbserver

open Remote CString Ppc

variable {host : Signals.Host}

/-- An element of the array: the members assigned so far. -/
structure Slot where
  thread : Option Int
  step : Option Bool
  sig : Option Int
  leaveStopped : Option Bool
  deriving DecidableEq, Repr

def Slot.fresh : Slot := { thread := none, step := none, sig := none, leaveStopped := none }

def Slot.filled (r : ThreadResume) : Slot where
  thread := some r.thread
  step := some r.step
  sig := some r.sig
  leaveStopped := some r.leaveStopped

inductive FillStop
  | gotoErr
  | outside
  | fuel
  deriving DecidableEq, Repr

/-- An assignment to a member of `resume_info[i]`. -/
def assignSlot (slots : List Slot) (i : Nat) (f : Slot → Slot) : Except FillStop (List Slot) :=
  if i < slots.length then .ok (slots.modify i f) else .error .outside

def countLoop : Nat → List Byte → Nat → Option Nat
  | 0, _, _ => none
  | fuel + 1, p, n =>
    match strchr (ch ';') p.tail with
    | none => some (n + 1)
    | some q => countLoop fuel q (n + 1)

/-- The variables of the parsing loop. -/
structure Filling where
  p : List Byte
  i : Nat
  slots : List Slot
  defaultAction : Slot

/-- The part of the loop body that reads the action. -/
def fillAction (host : Signals.Host) (p : List Byte) (i : Nat) (slots : List Slot) :
    Except FillStop (List Byte × List Slot) := do
  let slots ← assignSlot slots i fun r => { r with leaveStopped := some false }
  let c := deref p
  let slots ←
    if c = ch 's' ∨ c = ch 'S' then assignSlot slots i fun r => { r with step := some true }
    else if c = ch 'c' ∨ c = ch 'C' then assignSlot slots i fun r => { r with step := some false }
    else throw .gotoErr
  if c = ch 'S' ∨ c = ch 'C' then
    let (sig, q) := strtol p.tail
    if q.length = p.length then throw .gotoErr
    else if Signals.targetSignalToHostP host sig then
      let slots ← assignSlot slots i fun r =>
        { r with sig := some (Signals.targetSignalToHost host sig) }
      return (q, slots)
    else throw .gotoErr
  else
    let slots ← assignSlot slots i fun r => { r with sig := some 0 }
    return (p.tail, slots)

/-- The body of the parsing loop. -/
def fillRound (host : Signals.Host) (f : Filling) : Except FillStop Filling := do
  let (p, slots) ← fillAction host f.p.tail f.i f.slots
  if deref p = 0 then
    let slots ← assignSlot slots f.i fun r => { r with thread := some (-1) }
    return { p := p, i := f.i, slots := slots, defaultAction := slots[f.i]?.getD f.defaultAction }
  else if deref p = ch ':' then
    let (thread, q) := strtol p.tail
    let slots ← assignSlot slots f.i fun r => { r with thread := some thread }
    if q.length = p.length then throw .gotoErr
    else if deref q ≠ ch ';' ∧ deref q ≠ 0 then throw .gotoErr
    else return { p := q, i := f.i + 1, slots := slots, defaultAction := f.defaultAction }
  else
    return { p := p, i := f.i, slots := slots, defaultAction := f.defaultAction }

def fillLoop (host : Signals.Host) : Nat → Filling → Except FillStop Filling
  | 0, f => if deref f.p = 0 then .ok f else .error .fuel
  | fuel + 1, f =>
    if deref f.p = 0 then .ok f
    else do
      let g ← fillRound host f
      fillLoop host fuel g

def startFilling (buf : List Byte) (n : Nat) : Filling where
  p := buf.drop 5
  i := 0
  slots := List.replicate (n + 1) Slot.fresh
  defaultAction := Slot.filled stayStopped

/-- The array that `resume` is given. -/
def Filling.array (f : Filling) : Except FillStop (List Slot) :=
  assignSlot f.slots f.i fun _ => f.defaultAction

theorem strchr_nul {c : Byte} (hc : c ≠ 0) (text : List Byte) :
    ∃ r : Option (List Byte), (∀ q, r = some q → q <:+ text ∧ deref q = c ∧
        (cstr text).count c = (cstr q.tail).count c + 1) ∧
      (r = none → (cstr text).count c = 0) ∧
      ∀ stale, strchr c (text ++ 0 :: stale) = r.map (· ++ 0 :: stale) := by
  induction text with
  | nil => exact ⟨none, by simp, fun _ => rfl, fun _ => by simp [strchr, Ne.symm hc]⟩
  | cons b text ih =>
    by_cases hb : b = c
    · subst hb
      refine ⟨some (b :: text), ?_, by simp, fun stale => by simp [strchr]⟩
      rintro _ ⟨⟩
      exact ⟨List.suffix_rfl, rfl, by simp [cstr, hc]⟩
    · by_cases hnul : b = 0
      · refine ⟨none, by simp, fun _ => by simp [cstr, hnul], fun stale => ?_⟩
        simp [strchr, hnul, Ne.symm hc]
      · obtain ⟨r, hsome, hnone, hrun⟩ := ih
        have hcount : (cstr (b :: text)).count c = (cstr text).count c := by
          simp [cstr, hnul, hb]
        refine ⟨r, ?_, ?_, fun stale => ?_⟩
        · intro q hq
          obtain ⟨hsuffix, hderef, hq⟩ := hsome q hq
          exact ⟨hsuffix.trans (List.suffix_cons _ _), hderef, hcount.trans hq⟩
        · exact fun hr => hcount.trans (hnone hr)
        · simpa [strchr, hb, hnul] using hrun stale

/-- One round of the counting loop that finds a semicolon. -/
def CountStep (p q : List Byte) : Prop := strchr (ch ';') p.tail = some q

theorem countStep_inside {q : List Byte} (hne : q ≠ []) {stale p : List Byte}
    (h : CountStep (q ++ 0 :: stale) p) :
    ∃ r, r <:+ q ∧ r ≠ [] ∧ p = r ++ 0 :: stale := by
  obtain ⟨c, text, rfl⟩ := List.exists_cons_of_ne_nil hne
  obtain ⟨r, hsome, -, hrun⟩ := strchr_nul (show ch ';' ≠ 0 by decide) text
  rw [CountStep, List.cons_append, List.tail_cons, hrun, Option.map_eq_some_iff] at h
  obtain ⟨q, rfl, rfl⟩ := h
  obtain ⟨hsuffix, hderef, -⟩ := hsome q rfl
  refine ⟨q, hsuffix.trans (List.suffix_cons _ _), ?_, rfl⟩
  rintro rfl
  exact absurd hderef (by decide)

theorem countSteps_inside {text stale p : List Byte} (hne : text ≠ [])
    (h : Relation.ReflTransGen CountStep (text ++ 0 :: stale) p) :
    ∃ r, r <:+ text ∧ r ≠ [] ∧ p = r ++ 0 :: stale := by
  induction h with
  | refl => exact ⟨text, List.suffix_rfl, hne, rfl⟩
  | tail _ hstep ih =>
    obtain ⟨r, hr, hrne, rfl⟩ := ih
    obtain ⟨q, hq, hqne, rfl⟩ := countStep_inside hrne hstep
    exact ⟨q, hq.trans hr, hqne, rfl⟩

theorem countLoop_eq {fuel : Nat} (c : Byte) {text : List Byte} (enough : text.length < fuel)
    (stale : List Byte) (n : Nat) :
    countLoop fuel (c :: (text ++ 0 :: stale)) n =
      some (n + 1 + (cstr text).count (ch ';')) := by
  induction fuel generalizing c text n with
  | zero => exact absurd enough (Nat.not_lt_zero _)
  | succ fuel ih =>
    obtain ⟨r, hsome, hnone, hrun⟩ := strchr_nul (show ch ';' ≠ 0 by decide) text
    rw [countLoop, List.tail_cons, hrun]
    rcases r with _ | q
    · rw [hnone rfl]
      rfl
    · obtain ⟨hsuffix, hderef, hcount⟩ := hsome q rfl
      obtain ⟨d, rest, rfl⟩ : ∃ d rest, q = d :: rest := by
        cases q with
        | nil => exact absurd hderef (by decide)
        | cons d rest => exact ⟨d, rest, rfl⟩
      have hle := hsuffix.length_le
      rw [List.length_cons] at hle
      have hrest := ih d (show rest.length < fuel by omega) (n + 1)
      rw [List.tail_cons] at hcount
      simp only [Option.map_some, List.cons_append, hrest, Option.some.injEq]
      omega

theorem assignSlot_ok {slots : List Slot} {i : Nat} (h : i < slots.length) (f : Slot → Slot) :
    assignSlot slots i f = .ok (slots.modify i f) := if_pos h

theorem assignSlot_bind {α : Type} {slots : List Slot} {i : Nat} (h : i < slots.length)
    (f : Slot → Slot) (g : List Slot → Except FillStop α) :
    (assignSlot slots i f >>= g) = g (slots.modify i f) := by
  rw [assignSlot_ok h]
  rfl

def acted (step : Bool) (sig : Int) (r : Slot) : Slot :=
  { r with step := some step, sig := some sig, leaveStopped := some false }

theorem fillAction_eq (host : Signals.Host) (p : List Byte) {i : Nat} {slots : List Slot}
    (h : i < slots.length) :
    fillAction host p i slots =
      match parseAction host p with
      | none => .error .gotoErr
      | some (step, sig, q) => .ok (q, slots.modify i (acted step sig)) := by
  have hletters : ch 's' ≠ ch 'S' ∧ ch 's' ≠ ch 'C' ∧ ch 'c' ≠ ch 'S' ∧ ch 'c' ≠ ch 'C' ∧
      ch 'c' ≠ ch 's' ∧ ch 'S' ≠ ch 's' ∧ ch 'S' ≠ ch 'c' ∧ ch 'C' ≠ ch 's' ∧ ch 'C' ≠ ch 'c' ∧
        ch 'C' ≠ ch 'S' := by decide
  cases hstrtol : strtol p.tail with
  | mk sig q =>
    by_cases hs : deref p = ch 's'
    · simp only [fillAction, parseAction, hs, hletters, assignSlot_bind, List.length_modify, h,
        true_or, or_self, if_true, if_false, List.modify_modify_eq]
      rfl
    · by_cases hc : deref p = ch 'c'
      · simp only [fillAction, parseAction, hc, hletters, assignSlot_bind, List.length_modify, h,
          true_or, or_true, or_self, if_true, if_false, List.modify_modify_eq]
        rfl
      · by_cases hS : deref p = ch 'S'
        · simp only [fillAction, parseAction, hS, hletters, hstrtol, assignSlot_bind,
            List.length_modify, h, true_or, or_true, or_self, if_true, if_false,
            List.modify_modify_eq]
          split
          · rfl
          · split
            · rfl
            · rfl
        · by_cases hC : deref p = ch 'C'
          · simp only [fillAction, parseAction, hC, hletters, hstrtol, assignSlot_bind,
              List.length_modify, h, or_true, or_self, if_true, if_false, List.modify_modify_eq]
            split
            · rfl
            · split
              · rfl
              · rfl
          · simp only [fillAction, parseAction, hs, hc, hS, hC, assignSlot_bind, h, or_self,
              if_false]
            rfl

theorem take_modify (slots : List Slot) (i : Nat) (f : Slot → Slot) :
    (slots.modify i f).take i = slots.take i := by
  apply List.ext_getElem? fun j => ?_
  by_cases hj : j < i
  · simp [List.getElem?_take_of_lt hj, Nat.ne_of_gt hj]
  · rw [List.getElem?_eq_none, List.getElem?_eq_none]
    · rw [List.length_take]
      omega
    · rw [List.length_take]
      omega

theorem getElem?_modify_filled {slots : List Slot} {i : Nat} (h : i < slots.length)
    (f : Slot → Slot) (r : ThreadResume) (hf : ∀ slot, f slot = Slot.filled r) :
    (slots.modify i f)[i]? = some (Slot.filled r) := by
  rw [List.getElem?_modify_eq, List.getElem?_eq_getElem h, Option.map_eq_map, Option.map_some, hf]

/-- How the loop's variables hold what the parser has kept so far. -/
structure Filling.Holds (f : Filling) (n : Nat) (entries : List ThreadResume)
    (action : ThreadResume) : Prop where
  length : f.slots.length = n + 1
  index : f.i = entries.length
  stored : f.slots.take f.i = entries.map Slot.filled
  defaultAction : f.defaultAction = Slot.filled action

theorem Filling.Holds.lt {f : Filling} {n : Nat} {entries : List ThreadResume}
    {action : ThreadResume} (h : f.Holds n entries action) (le : f.i ≤ n) :
    f.i < f.slots.length := by
  rw [h.length]
  exact Nat.lt_succ_of_le le

theorem Filling.Holds.modify {f : Filling} {n : Nat} {entries : List ThreadResume}
    {action : ThreadResume} (h : f.Holds n entries action) (g : Slot → Slot) :
    (f.slots.modify f.i g).length = n + 1 ∧
      (f.slots.modify f.i g).take f.i = entries.map Slot.filled := by
  constructor
  · exact (List.length_modify _ _ _).trans h.length
  · exact (take_modify _ _ _).trans h.stored

section
variable {f : Filling} {q : List Byte} {slots : List Slot}

theorem fillAction_bind {α : Type}
    (action : fillAction host f.p.tail f.i f.slots = .ok (q, slots))
    (g : List Byte × List Slot → Except FillStop α) :
    (fillAction host f.p.tail f.i f.slots >>= g) = g (q, slots) := by
  rw [action]
  rfl

theorem fillRound_end (action : fillAction host f.p.tail f.i f.slots = .ok (q, slots))
    (lt : f.i < slots.length) (hnul : deref q = 0) :
    let slots := slots.modify f.i fun r => { r with thread := some (-1) }
    fillRound host f = .ok
      { p := q, i := f.i, slots := slots, defaultAction := slots[f.i]?.getD f.defaultAction } := by
  rw [fillRound, fillAction_bind action]
  simp only [hnul, if_true, assignSlot_bind lt]
  rfl

theorem fillRound_colon (action : fillAction host f.p.tail f.i f.slots = .ok (q, slots))
    (lt : f.i < slots.length) (hnul : deref q ≠ 0) (hcolon : deref q = ch ':') :
    fillRound host f =
      if (strtol q.tail).2.length = q.length then .error .gotoErr
      else if deref (strtol q.tail).2 ≠ ch ';' ∧ deref (strtol q.tail).2 ≠ 0 then
        .error .gotoErr
      else .ok
        { p := (strtol q.tail).2, i := f.i + 1
          slots := slots.modify f.i fun r => { r with thread := some (strtol q.tail).1 }
          defaultAction := f.defaultAction } := by
  rw [fillRound, fillAction_bind action]
  simp only [if_neg hnul, if_pos hcolon, assignSlot_bind lt]
  rfl

theorem fillRound_other (action : fillAction host f.p.tail f.i f.slots = .ok (q, slots))
    (hnul : deref q ≠ 0) (hcolon : deref q ≠ ch ':') :
    fillRound host f = .ok
      { p := q, i := f.i, slots := slots, defaultAction := f.defaultAction } := by
  rw [fillRound, fillAction_bind action]
  simp only [if_neg hnul, if_neg hcolon]
  rfl

end

/-- A round stores what the parser keeps. -/
theorem fillRound_eq (host : Signals.Host) {f : Filling} {n : Nat} {entries : List ThreadResume}
    {action : ThreadResume} (h : f.Holds n entries action) (le : f.i ≤ n) :
    match actionRound host f.p entries action with
    | none => fillRound host f = .error .gotoErr
    | some (entries', action', q) =>
      ∃ g, fillRound host f = .ok g ∧ g.p = q ∧ g.Holds n entries' action' := by
  have hlt := h.lt le
  have haction := fillAction_eq host f.p.tail hlt
  unfold actionRound
  cases hparse : parseAction host f.p.tail with
  | none =>
    rw [hparse] at haction
    simp only [Option.bind_none, fillRound, haction]
    rfl
  | some parsed =>
    obtain ⟨step, sig, q⟩ := parsed
    rw [hparse] at haction
    let slots := f.slots.modify f.i (acted step sig)
    have hlen : f.i < slots.length := by
      rw [List.length_modify]
      exact hlt
    have hthread : ∀ thread : Int, (slots.modify f.i fun r => { r with thread := some thread }) =
        f.slots.modify f.i fun _ => Slot.filled
          { thread := thread, step := step, sig := sig, leaveStopped := false } := by
      intro thread
      exact List.modify_modify_eq _ _ _ _
    have hfilled : ∀ r : ThreadResume,
        (f.slots.modify f.i fun _ => Slot.filled r)[f.i]? = some (Slot.filled r) := by
      intro r
      exact getElem?_modify_filled hlt _ _ fun _ => rfl
    simp only [Option.bind_some]
    by_cases hnul : deref q = 0
    · rw [if_pos hnul, fillRound_end haction hlen hnul, hthread]
      obtain ⟨hlength, hstored⟩ := h.modify fun _ => Slot.filled
        { thread := -1, step := step, sig := sig, leaveStopped := false }
      refine ⟨_, rfl, rfl, ⟨hlength, h.index, hstored, ?_⟩⟩
      rw [hfilled]
      rfl
    · rw [if_neg hnul]
      by_cases hcolon : deref q = ch ':'
      · rw [if_pos hcolon, fillRound_colon haction hlen hnul hcolon, hthread]
        by_cases hmoved : (strtol q.tail).2.length = q.length
        · rw [if_pos hmoved, if_pos hmoved]
        · rw [if_neg hmoved, if_neg hmoved]
          by_cases hstop : deref (strtol q.tail).2 ≠ ch ';' ∧ deref (strtol q.tail).2 ≠ 0
          · rw [if_pos hstop, if_pos hstop]
          · rw [if_neg hstop, if_neg hstop]
            obtain ⟨hlength, hstored⟩ := h.modify fun _ => Slot.filled
              { thread := (strtol q.tail).1, step := step, sig := sig, leaveStopped := false }
            refine ⟨_, rfl, rfl, ⟨hlength, ?_, ?_, h.defaultAction⟩⟩
            · rw [List.length_append, ← h.index]
              rfl
            · rw [List.take_add_one, hstored, hfilled, List.map_append]
              rfl
      · rw [if_neg hcolon, fillRound_other haction hnul hcolon]
        obtain ⟨hlength, hstored⟩ := h.modify (acted step sig)
        exact ⟨_, rfl, rfl, ⟨hlength, h.index, hstored, h.defaultAction⟩⟩

/-- An entry is stored only where a semicolon or the end follows. -/
theorem actionRound_entries {p q : List Byte} {entries entries' : List ThreadResume}
    {action action' : ThreadResume}
    (round : actionRound host p entries action = some (entries', action', q)) :
    entries'.length = entries.length ∨
      entries'.length = entries.length + 1 ∧ (deref q = ch ';' ∨ deref q = 0) := by
  obtain ⟨⟨step, sig, r⟩, -, hround⟩ := Option.bind_eq_some_iff.mp round
  dsimp only at hround
  split at hround
  · cases hround
    exact Or.inl rfl
  · split at hround
    · split at hround
      · cases hround
      · split at hround
        · cases hround
        · rename_i hstop
          cases hround
          refine Or.inr ⟨List.length_append, ?_⟩
          by_contra hneither
          exact hstop (not_or.mp hneither)
    · cases hround
      exact Or.inl rfl

/-- The semicolons that are left for the loop at `q`. One is to spare where none stands at `q`:
the round before began at one and stored nothing. -/
def spent (q : List Byte) : Nat :=
  q.count (ch ';') + if deref q = ch ';' ∨ deref q = 0 then 0 else 1

/-- The loop inside its text and its array. -/
structure Filling.Inside (f : Filling) (text stale : List Byte) (n : Nat)
    (entries : List ThreadResume) (action : ThreadResume) : Prop where
  holds : f.Holds n entries action
  thread : action.thread = -1
  pointer : ∃ q, q <:+ text ∧ f.p = q ++ 0 :: stale ∧ f.i + spent q ≤ n

section Inside

variable {f : Filling} {text stale : List Byte} {n : Nat} {entries : List ThreadResume}
  {action : ThreadResume}

theorem Filling.Inside.le (h : f.Inside text stale n entries action) : f.i ≤ n := by
  obtain ⟨q, -, -, hbudget⟩ := h.pointer
  omega

/-- A round passes a semicolon, or uses up the one to spare, before it stores. -/
theorem spent_round {c : Byte} {behind rest : List Byte} (hc : c ≠ 0) (hsuffix : rest <:+ behind) :
    spent rest ≤ spent (c :: behind) ∧
      (deref rest = ch ';' ∨ deref rest = 0 → spent rest + 1 ≤ spent (c :: behind)) := by
  have hcount : rest.count (ch ';') ≤ behind.count (ch ';') := hsuffix.sublist.count_le _
  have hhead : deref (c :: behind) = c := rfl
  unfold spent
  rw [List.count_cons, hhead]
  by_cases hsemi : c = ch ';'
  · rw [if_pos (beq_iff_eq.mpr hsemi), if_pos (Or.inl hsemi)]
    constructor
    · split <;> omega
    · intro hstop
      rw [if_pos hstop]
      omega
  · have hneither : ¬ (c = ch ';' ∨ c = 0) := fun hor => hor.elim hsemi hc
    rw [if_neg fun heq => hsemi (beq_iff_eq.mp heq), if_neg hneither]
    constructor
    · split <;> omega
    · intro hstop
      rw [if_pos hstop]
      omega

/-- A round keeps the loop inside and moves it on, as the parser's does. -/
theorem Filling.Inside.round (h : f.Inside text stale n entries action) (noNul : 0 ∉ text)
    (more : deref f.p ≠ 0) :
    fillRound host f = .error .gotoErr ∧ actionRound host f.p entries action = none ∨
      ∃ g entries' action', fillRound host f = .ok g ∧
        actionRound host f.p entries action = some (entries', action', g.p) ∧
          g.Inside text stale n entries' action' ∧ g.p.length < f.p.length := by
  obtain ⟨q, hq, hp, hbudget⟩ := h.pointer
  have hround := fillRound_eq host h.holds h.le
  cases q with
  | nil =>
    rw [hp] at more
    exact absurd rfl more
  | cons c behind =>
    have hc : c ≠ 0 := by
      rintro rfl
      exact noNul (hq.subset List.mem_cons_self)
    rcases actionRound_cases host c behind entries action with
      ⟨rest, entries', action', -, hsuffix, hrun⟩ | ⟨-, hrun⟩
    · have hparsed := hrun stale
      rw [← hp] at hparsed
      rw [hparsed] at hround
      obtain ⟨g, hfill, hgp, hholds⟩ := hround
      have hstored := actionRound_entries hparsed
      obtain ⟨hkeep, hstore⟩ := spent_round hc hsuffix
      have hderef : deref (rest ++ 0 :: stale) = deref rest := deref_nul rest stale
      have hlength := hsuffix.length_le
      refine Or.inr ⟨g, entries', action', hfill, by rw [hparsed, hgp],
        ⟨hholds, actionRound_thread h.thread hparsed, rest,
          hsuffix.trans ((List.suffix_cons _ _).trans hq), hgp, ?_⟩, ?_⟩
      · rw [hholds.index]
        rw [h.holds.index] at hbudget
        rcases hstored with hsame | ⟨hmore, hstop⟩
        · omega
        · rw [hderef] at hstop
          have hspare := hstore hstop
          omega
      · rw [hgp, hp]
        simp only [List.length_append, List.length_cons]
        omega
    · have hparsed := hrun stale
      rw [← hp] at hparsed
      rw [hparsed] at hround
      exact Or.inl ⟨hround, hparsed⟩

theorem Filling.Inside.loop (h : f.Inside text stale n entries action) (noNul : 0 ∉ text)
    {fuel : Nat} (enough : f.p.length ≤ fuel + (stale.length + 1)) :
    fillLoop host fuel f = .error .gotoErr ∧ parseActions host fuel f.p entries action = none ∨
      ∃ g entries' action', fillLoop host fuel f = .ok g ∧
        parseActions host fuel f.p entries action = some (entries', action') ∧
          g.Inside text stale n entries' action' := by
  induction fuel generalizing f entries action with
  | zero =>
    obtain ⟨q, -, hp, -⟩ := h.pointer
    have hnil : q = [] := by
      rw [hp, List.length_append, List.length_cons] at enough
      exact List.length_eq_zero_iff.mp (by omega)
    have hend : deref f.p = 0 := by
      rw [hp, hnil]
      rfl
    exact Or.inr ⟨f, entries, action, if_pos hend, rfl, h⟩
  | succ fuel ih =>
    rw [fillLoop, parseActions_succ]
    by_cases hend : deref f.p = 0
    · rw [if_pos hend, if_pos hend]
      exact Or.inr ⟨f, entries, action, rfl, rfl, h⟩
    · rw [if_neg hend, if_neg hend]
      rcases h.round noNul hend with ⟨hfill, hparsed⟩ |
        ⟨g, entries', action', hfill, hparsed, hinside, hshorter⟩
      · rw [hfill, hparsed]
        exact Or.inl ⟨rfl, rfl⟩
      · rw [hfill, hparsed]
        exact ih hinside (by omega)

def FillStep (host : Signals.Host) (f g : Filling) : Prop :=
  deref f.p ≠ 0 ∧ fillRound host f = .ok g

theorem Filling.Inside.steps (h : f.Inside text stale n entries action) (noNul : 0 ∉ text)
    {g : Filling} (steps : Relation.ReflTransGen (FillStep host) f g) :
    ∃ entries' action', g.Inside text stale n entries' action' := by
  induction steps with
  | refl => exact ⟨entries, action, h⟩
  | tail _ hstep ih =>
    obtain ⟨entries₁, action₁, hinside⟩ := ih
    obtain ⟨more, hfill⟩ := hstep
    rcases hinside.round noNul more with ⟨hstop, -⟩ | ⟨g', entries', action', hok, -, hnext, -⟩
    · rw [hfill] at hstop
      cases hstop
    · rw [hfill] at hok
      cases hok
      exact ⟨entries', action', hnext⟩

end Inside

theorem first_all (info : List ThreadResume) (h : ∃ r ∈ info, r.thread = -1) :
    ∃ (j : Nat) (r : ThreadResume), info[j]? = some r ∧ r.thread = -1 ∧
      ∀ i < j, ∃ r : ThreadResume, info[i]? = some r ∧ r.thread ≠ -1 := by
  induction info with
  | nil =>
    obtain ⟨r, hr, -⟩ := h
    exact absurd hr List.not_mem_nil
  | cons e info ih =>
    by_cases he : e.thread = -1
    · exact ⟨0, e, rfl, he, fun i hi => absurd hi (Nat.not_lt_zero i)⟩
    · obtain ⟨r, hr, hthread⟩ := h
      have hrest : r ∈ info := by
        rcases List.mem_cons.mp hr with rfl | hmem
        · exact absurd hthread he
        · exact hmem
      obtain ⟨j, r', hj, hall, hbefore⟩ := ih ⟨r, hrest, hthread⟩
      refine ⟨j + 1, r', hj, hall, fun i hi => ?_⟩
      cases i with
      | zero => exact ⟨e, rfl, he⟩
      | succ i => exact hbefore i (Nat.lt_of_succ_lt_succ hi)

/-- The slots up to the first one for all threads have been filled in, and that one is found in
the first `n + 1`. -/
def WholeUpToAll (slots : List Slot) (n : Nat) : Prop :=
  ∃ j ≤ n, ∃ r : ThreadResume, slots[j]? = some (Slot.filled r) ∧ r.thread = -1 ∧
    ∀ i < j, ∃ r : ThreadResume, slots[i]? = some (Slot.filled r) ∧ r.thread ≠ -1

/-- What holds of the two loops of `handle_v_cont` on a packet with `n` semicolons, and of the
array they leave. -/
structure ArraySafe (host : Signals.Host) (text stale : List Byte) (n : Nat) : Prop where
  counted : ∀ fuel, text.length ≤ fuel →
    countLoop fuel ((text ++ 0 :: stale).drop 5) 0 = some n
  countingInside : ∀ p, Relation.ReflTransGen CountStep ((text ++ 0 :: stale).drop 5) p →
    ∃ q, q <:+ text ∧ q ≠ [] ∧ p = q ++ 0 :: stale
  fillingInside : ∀ f, Relation.ReflTransGen (FillStep host)
      (startFilling (text ++ 0 :: stale) n) f →
    (∃ q, q <:+ text ∧ f.p = q ++ 0 :: stale) ∧ f.slots.length = n + 1 ∧ f.i ≤ n ∧
      (deref f.p ≠ 0 → fillRound host f ≠ .error .outside)
  ends : ∀ fuel, text.length ≤ fuel →
    fillLoop host fuel (startFilling (text ++ 0 :: stale) n) = .error .gotoErr ∧
        resumeInfo host (text ++ 0 :: stale) = none ∨
      ∃ f slots info, fillLoop host fuel (startFilling (text ++ 0 :: stale) n) = .ok f ∧
        f.array = .ok slots ∧ resumeInfo host (text ++ 0 :: stale) = some info ∧
          slots.take info.length = info.map Slot.filled ∧ WholeUpToAll slots n
  unread : resumeInfo host (text ++ 0 :: stale) = resumeInfo host (text ++ [0])

section ArraySafe

variable {f : Filling} {text stale rest : List Byte} {n : Nat} {entries : List ThreadResume}
  {action : ThreadResume}

/-- The array behind the loop: the entries and the default action, and what is behind them. -/
theorem Filling.Inside.array (h : f.Inside text stale n entries action) :
    ∃ slots, f.array = .ok slots ∧
      slots.take (entries ++ [action]).length = (entries ++ [action]).map Slot.filled := by
  have hlt := h.holds.lt h.le
  refine ⟨_, assignSlot_ok hlt _, ?_⟩
  rw [List.length_append, ← h.holds.index, List.length_singleton, List.take_add_one, take_modify,
    h.holds.stored, getElem?_modify_filled hlt _ action fun _ => h.holds.defaultAction,
    List.map_append]
  rfl

theorem wholeUpToAll {slots : List Slot} {info : List ThreadResume}
    (taken : slots.take info.length = info.map Slot.filled) (le : info.length ≤ n + 1)
    (all : ∃ r ∈ info, r.thread = -1) : WholeUpToAll slots n := by
  obtain ⟨j, r, hj, hr, hbefore⟩ := first_all info all
  have hslot : ∀ (i : Nat) (e : ThreadResume),
      info[i]? = some e → slots[i]? = some (Slot.filled e) := by
    intro i e he
    obtain ⟨hi, -⟩ := List.getElem?_eq_some_iff.mp he
    rw [← List.getElem?_take_of_lt hi, taken, List.getElem?_map, he]
    rfl
  obtain ⟨hlt, -⟩ := List.getElem?_eq_some_iff.mp hj
  refine ⟨j, by omega, r, hslot j r hj, hr, fun i hi => ?_⟩
  obtain ⟨e, he, hne⟩ := hbefore i hi
  exact ⟨e, hslot i e he, hne⟩

theorem count_semicolons (rest : List Byte) :
    (ascii "vCont;" ++ rest).count (ch ';') = rest.count (ch ';') + 1 := by
  have hone : (ascii "vCont;").count (ch ';') = 1 := by decide
  rw [List.count_append, hone, Nat.add_comm]

theorem startFilling_inside (rest stale : List Byte) :
    (startFilling ((ascii "vCont;" ++ rest) ++ 0 :: stale)
      ((ascii "vCont;" ++ rest).count (ch ';'))).Inside (ascii "vCont;" ++ rest) stale
        ((ascii "vCont;" ++ rest).count (ch ';')) [] stayStopped := by
  have hspent : spent (ch ';' :: rest) = rest.count (ch ';') + 1 := by
    have hsemi : deref (ch ';' :: rest) = ch ';' := rfl
    simp [spent, hsemi]
  refine ⟨⟨List.length_replicate, rfl, rfl, rfl⟩, rfl, ch ';' :: rest, ⟨ascii "vCont", rfl⟩, rfl,
    ?_⟩
  rw [hspent, count_semicolons]
  exact (Nat.zero_add _).le

/-- Both loops stay in the packet and in the array, and `resume` gets a whole one. -/
theorem vCont_arraySafe (host : Signals.Host) (noNul : 0 ∉ text)
    (hstarts : ascii "vCont;" <+: text) (stale : List Byte) :
    ArraySafe host text stale (text.count (ch ';')) := by
  obtain ⟨rest, rfl⟩ := hstarts
  have hrest : 0 ∉ rest := fun hmem => noNul (List.mem_append_right _ hmem)
  have hdrop : ∀ stale : List Byte,
      ((ascii "vCont;" ++ rest) ++ 0 :: stale).drop 5 = ch ';' :: rest ++ 0 :: stale := fun _ => rfl
  have hsuffix : ch ';' :: rest <:+ ascii "vCont;" ++ rest := ⟨ascii "vCont", rfl⟩
  have hlong : (ascii "vCont;" ++ rest).length = rest.length + 6 := List.length_append.trans
    (Nat.add_comm _ _)
  have hstart := startFilling_inside rest stale
  constructor
  · intro fuel enough
    have hloop := countLoop_eq (ch ';') (show rest.length < fuel by omega) stale 0
    rw [hdrop, count_semicolons, List.cons_append, hloop, ← cstr_stored rest [],
      cstr_append_nul hrest]
    congr 1
    omega
  · intro p hsteps
    obtain ⟨q, hq, hne, hp⟩ := countSteps_inside (List.cons_ne_nil _ _) hsteps
    exact ⟨q, hq.trans hsuffix, hne, hp⟩
  · intro f hsteps
    obtain ⟨entries, action, hinside⟩ := hstart.steps noNul hsteps
    obtain ⟨q, hq, hp, -⟩ := hinside.pointer
    refine ⟨⟨q, hq, hp⟩, hinside.holds.length, hinside.le, fun more => ?_⟩
    rcases hinside.round noNul more with ⟨hfill, -⟩ | ⟨g, _, _, hfill, -⟩
    · rw [hfill]
      simp
    · rw [hfill]
      simp
  · intro fuel enough
    have hresume : resumeInfo host (ascii "vCont;" ++ rest ++ 0 :: stale) =
        (parseActions host fuel (ch ';' :: rest ++ 0 :: stale) [] stayStopped).map
          fun r => r.1 ++ [r.2] := by
      have hlength : (ch ';' :: rest).length ≤ (ascii "vCont;" ++ rest ++ 0 :: stale).length := by
        rw [List.length_append, hlong]
        simp only [List.length_cons]
        omega
      have hfuel : (ch ';' :: rest).length ≤ fuel := by
        rw [List.length_cons]
        omega
      rw [resumeInfo, hdrop, parseActions_nul host hlength hfuel stale stale]
    have henough : (startFilling (ascii "vCont;" ++ rest ++ 0 :: stale)
        ((ascii "vCont;" ++ rest).count (ch ';'))).p.length ≤ fuel + (stale.length + 1) := by
      have hp : (ch ';' :: rest ++ 0 :: stale).length ≤ fuel + (stale.length + 1) := by
        simp only [List.length_append, List.length_cons]
        omega
      exact hp
    rw [hresume]
    rcases hstart.loop noNul henough with ⟨hfill, hparse⟩ | ⟨f, entries, action, hfill, hparse, h⟩
    · exact Or.inl ⟨hfill, congrArg _ hparse⟩
    · obtain ⟨slots, harray, htaken⟩ := h.array
      refine Or.inr ⟨f, slots, entries ++ [action], hfill, harray, congrArg _ hparse, htaken,
        wholeUpToAll htaken ?_ ⟨action, by simp, h.thread⟩⟩
      rw [List.length_append, ← h.holds.index, List.length_singleton]
      exact Nat.add_le_add_right h.le 1
  · exact resumeInfo_nul host (by omega) stale []

theorem vCont_arraySafe_two : ArraySafe Signals.darwin (ascii "vCont;c:1;s") []
    ((ascii "vCont;c:1;s").count (ch ';')) :=
  vCont_arraySafe _ (by decide) ⟨ascii "c:1;s", rfl⟩ []

end ArraySafe

end Gdbserver
