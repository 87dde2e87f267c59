import OsxGdbserver.PacketTexts

/-!
# vCont packets of many actions

What the parser of `vCont` keeps of a list of actions, which entry of the array then
applies to a thread, and the request that `darwin_resume` makes.
-/

namespace Gdbserver

open Remote CString Ppc

variable {σ : Type} {k : Kernel σ} {host : Signals.Host} {s : Server σ} {t : ThreadInfo}

/-- What stands behind an action. -/
inductive ThreadText
  | absent
  | all
  | number (digits : List Byte)
  deriving DecidableEq, Repr

namespace ThreadText

def text : ThreadText → List Byte
  | absent => []
  | all => ch ':' :: ascii "-1"
  | number digits => ch ':' :: digits

/-- The thread, where a number that fits no `long` is the largest one. -/
def value : ThreadText → Option Int
  | absent => none
  | all => some (-1)
  | number digits => some (min (2 ^ 31 - 1) (digitsValue digits))

theorem absent_of_value {tid : ThreadText} (h : tid.value = none) : tid = .absent := by
  cases tid with
  | absent => rfl
  | all => cases h
  | number digits => cases h

/-- The digits are hex digits, of a positive number. -/
def Valid : ThreadText → Prop
  | number digits => digits ≠ [] ∧ (∀ c ∈ digits, isHexDigit c) ∧ 0 < digitsValue digits
  | _ => True

end ThreadText

structure VContItem where
  action : Action
  tid : ThreadText
  deriving DecidableEq, Repr

namespace VContItem

def text (i : VContItem) : List Byte := ch ';' :: (i.action.text ++ i.tid.text)

structure Valid (host : Signals.Host) (i : VContItem) : Prop where
  accepted : i.action.Accepted host
  tid : i.tid.Valid

/-- The entry of the array, for an action that names its thread. -/
def entry (host : Signals.Host) (i : VContItem) : Option ThreadResume :=
  i.tid.value.map (i.action.entry host)

/-- The action is for thread `id`: it names this thread, or all threads, or none. -/
def Applies (i : VContItem) (id : Int) : Prop := ∀ v, i.tid.value = some v → v = -1 ∨ v = id

instance (i : VContItem) (id : Int) : Decidable (i.Applies id) :=
  match h : i.tid.value with
  | none => isTrue fun v hv => by rw [h] at hv; cases hv
  | some v =>
    decidable_of_iff (v = -1 ∨ v = id)
      ⟨fun hv w hw => by rw [h] at hw; cases hw; exact hv, fun hall => hall v h⟩

end VContItem

def vContText (items : List VContItem) : List Byte := ascii "vCont" ++ items.flatMap VContItem.text

def lastDefault (host : Signals.Host) : List VContItem → ThreadResume → ThreadResume
  | [], action => action
  | [i], action => if i.tid = .absent then i.action.entry host (-1) else action
  | _ :: items, action => lastDefault host items action

def vContArray (host : Signals.Host) (items : List VContItem) : List ThreadResume :=
  items.filterMap (VContItem.entry host) ++ [lastDefault host items stayStopped]

theorem lastDefault_concat (items : List VContItem) (i : VContItem) (action : ThreadResume) :
    lastDefault host (items ++ [i]) action =
      if i.tid = .absent then i.action.entry host (-1) else action := by
  induction items with
  | nil => rfl
  | cons j items ih =>
    cases items with
    | nil => exact ih
    | cons l items => exact ih

theorem endsNumber_semicolon (rest : List Byte) : EndsNumber (ch ';' :: rest) :=
  show EndsNumber [ch ';'] by unfold EndsNumber; decide

theorem items_endsNumber (items : List VContItem) (stale : List Byte) :
    EndsNumber (items.flatMap VContItem.text ++ 0 :: stale) ∧
      (deref (items.flatMap VContItem.text ++ 0 :: stale) = ch ';' ∨
        items = [] ∧ deref (items.flatMap VContItem.text ++ 0 :: stale) = 0) := by
  cases items with
  | nil => exact ⟨endsNumber_nul stale, Or.inr ⟨rfl, rfl⟩⟩
  | cons i items => exact ⟨endsNumber_semicolon _, Or.inl rfl⟩

/-- `strtol` reads the thread and stops behind it. -/
theorem ThreadText.strtol_value {tid : ThreadText} (valid : tid.Valid) {v : Int}
    (hv : tid.value = some v) {rest : List Byte} (hrest : EndsNumber rest) :
    ∃ q, tid.text = ch ':' :: q ∧ strtol (q ++ rest) = (v, rest) := by
  cases tid with
  | absent => cases hv
  | all =>
    have hdigits : ∀ c ∈ [ch '1'], isHexDigit c := by
      intro c hc
      rw [List.mem_singleton.mp hc]
      decide
    have hscan : scanNumber (0x2d :: ([ch '1'] ++ rest)) = (true, digitsValue [ch '1'], rest) :=
      scanNumber_negative (List.cons_ne_nil _ _) hdigits hrest.1 hrest.2
    cases hv
    refine ⟨ascii "-1", rfl, ?_⟩
    change strtol (0x2d :: ([ch '1'] ++ rest)) = _
    simp only [strtol, hscan, if_true]
    rfl
  | number digits =>
    obtain ⟨hne, hdigits, _⟩ := valid
    cases hv
    exact ⟨digits, rfl, strtol_digits_saturated hne hdigits hrest.1 hrest.2⟩

theorem lastDefault_cons (i : VContItem) (items : List VContItem) (action : ThreadResume) :
    lastDefault host (i :: items) action =
      lastDefault host items
        (if i.tid = .absent ∧ items = [] then i.action.entry host (-1) else action) := by
  cases items with
  | nil => simp [lastDefault]
  | cons j items => simp [lastDefault]

theorem actionRound_named {i : VContItem} (valid : i.Valid host) {v : Int}
    (hv : i.tid.value = some v) {tail : List Byte} (hends : EndsNumber tail)
    (hnext : deref tail = ch ';' ∨ deref tail = 0) (entries : List ThreadResume)
    (action : ThreadResume) :
    actionRound host (i.text ++ tail) entries action =
      some (entries ++ [i.action.entry host v], action, tail) := by
  obtain ⟨q, hq, hstrtol⟩ := i.tid.strtol_value valid.tid hv hends
  have htext : (i.text ++ tail).tail = i.action.text ++ (i.tid.text ++ tail) := by
    simp [VContItem.text]
  have hcolonEnds : EndsNumber (i.tid.text ++ tail) := by
    rw [hq]
    exact endsNumber_colon _
  have hcolon : deref (i.tid.text ++ tail) = ch ':' := by
    rw [hq]
    rfl
  have hne0 : deref (i.tid.text ++ tail) ≠ 0 := by
    rw [hcolon]
    decide
  have htailEq : (i.tid.text ++ tail).tail = q ++ tail := by
    rw [hq]
    rfl
  have hmoved : ¬ tail.length = (i.tid.text ++ tail).length := by
    rw [hq]
    simp only [List.length_append, List.length_cons]
    omega
  have hstops : ¬ (deref tail ≠ ch ';' ∧ deref tail ≠ 0) := by
    rintro ⟨hsemi, hnul⟩
    exact hnext.elim hsemi hnul
  simp only [actionRound, htext, parseAction_text valid.accepted hcolonEnds, Option.bind_some]
  rw [if_neg hne0, if_pos hcolon, htailEq, hstrtol]
  simp only [hmoved, hstops, if_false]
  rfl

/-- One without a thread is the default action, if nothing comes behind it. -/
theorem actionRound_absent {i : VContItem} (valid : i.Valid host) (habsent : i.tid = .absent)
    {tail : List Byte} (hends : EndsNumber tail)
    (hnext : deref tail = ch ';' ∨ deref tail = 0) (entries : List ThreadResume)
    (action : ThreadResume) :
    actionRound host (i.text ++ tail) entries action =
      some (entries, if deref tail = 0 then i.action.entry host (-1) else action, tail) := by
  have htext : (i.text ++ tail).tail = i.action.text ++ tail := by
    simp [VContItem.text, habsent, ThreadText.text]
  simp only [actionRound, htext, parseAction_text valid.accepted hends, Option.bind_some]
  rcases hnext with hnext | hnext
  · have hne0 : deref tail ≠ 0 := by
      rw [hnext]
      decide
    have hnecolon : deref tail ≠ ch ':' := by
      rw [hnext]
      decide
    rw [if_neg hne0, if_neg hnecolon, if_neg hne0]
  · rw [if_pos hnext, if_pos hnext]
    rfl

/-- The parsing loop on a list of actions: those that name a thread are stored, and the
last one becomes the default action if it does not. -/
theorem parseActions_items {items : List VContItem} (valid : ∀ i ∈ items, i.Valid host)
    {fuel : Nat} (enough : items.length ≤ fuel) (entries : List ThreadResume)
    (action : ThreadResume) (stale : List Byte) :
    parseActions host fuel (items.flatMap VContItem.text ++ 0 :: stale) entries action =
      some (entries ++ items.filterMap (VContItem.entry host), lastDefault host items action) := by
  induction items generalizing fuel entries action with
  | nil =>
    have hnul : deref (0 :: stale) = 0 := rfl
    cases fuel with
    | zero => simp [parseActions, lastDefault]
    | succ fuel => simp [parseActions, lastDefault, hnul]
  | cons i items ih =>
    obtain ⟨fuel, rfl⟩ := Nat.exists_eq_succ_of_ne_zero
      (Nat.ne_zero_of_lt (Nat.lt_of_lt_of_le (Nat.succ_pos items.length) enough))
    have hi := valid i List.mem_cons_self
    have hrest := ih (fun j hj => valid j (List.mem_cons_of_mem _ hj))
      (Nat.le_of_succ_le_succ enough)
    obtain ⟨hends, hbehind⟩ := items_endsNumber items stale
    have hlast : items = [] ↔ deref (items.flatMap VContItem.text ++ 0 :: stale) = 0 := by
      constructor
      · rintro rfl
        rfl
      · intro hnul
        refine hbehind.elim (fun hsemi => ?_) And.left
        exact absurd (hnul.symm.trans hsemi) (by decide)
    have hnext := hbehind.imp_right And.right
    have hsemi : deref (i.text ++ (items.flatMap VContItem.text ++ 0 :: stale)) ≠ 0 := by
      change ch ';' ≠ 0
      decide
    rw [List.flatMap_cons, List.append_assoc, parseActions_succ, if_neg hsemi, lastDefault_cons]
    cases hv : i.tid.value with
    | none =>
      have habsent := ThreadText.absent_of_value hv
      have hentry : i.entry host = none := by simp [VContItem.entry, hv]
      rw [actionRound_absent hi habsent hends hnext, Option.bind_some]
      dsimp only
      rw [hrest, List.filterMap_cons_none hentry]
      simp only [habsent, hlast, true_and]
    | some v =>
      have hnamed : i.tid ≠ .absent := by
        intro habsent
        rw [habsent] at hv
        cases hv
      have hentry : i.entry host = some (i.action.entry host v) := by simp [VContItem.entry, hv]
      rw [actionRound_named hi hv hends hnext, Option.bind_some]
      dsimp only
      rw [hrest, List.filterMap_cons_some hentry, List.append_assoc,
        if_neg fun hboth => hnamed hboth.1]
      rfl

theorem items_length_le (items : List VContItem) :
    items.length ≤ (items.flatMap VContItem.text).length := by
  induction items with
  | nil => exact Nat.le_refl 0
  | cons i items ih =>
    simp only [List.flatMap_cons, List.length_append, VContItem.text, List.length_cons]
    omega

theorem resumeInfo_items {items : List VContItem} (valid : ∀ i ∈ items, i.Valid host)
    (stale : List Byte) :
    resumeInfo host (vContText items ++ 0 :: stale) = some (vContArray host items) := by
  have hlength := items_length_le items
  have hdrop : (vContText items ++ 0 :: stale).drop 5 =
      items.flatMap VContItem.text ++ 0 :: stale := rfl
  have henough : items.length ≤ (vContText items ++ 0 :: stale).length := by
    simp only [vContText, List.length_append]
    omega
  rw [resumeInfo, hdrop, parseActions_items valid henough]
  rfl

/-- The array ends at its first entry for all threads. -/
def applyingEntry (id : Int) (info : List ThreadResume) : Option ThreadResume :=
  info.find? fun r => r.thread = -1 ∨ r.thread = id

theorem resumeChoice_eq (pid : Int) (info : List ThreadResume) :
    resumeChoice pid info = (applyingEntry pid info).map fun r => (r.step, r.sig) := by
  induction info with
  | nil => rfl
  | cons r rest ih =>
    by_cases h : r.thread = -1 ∨ r.thread = pid
    · simp [resumeChoice, applyingEntry, h]
    · rw [applyingEntry] at ih
      simp [resumeChoice, applyingEntry, h, ih]

theorem lastDefault_thread (items : List VContItem) {action : ThreadResume}
    (h : action.thread = -1) : (lastDefault host items action).thread = -1 := by
  induction items with
  | nil => exact h
  | cons i items ih =>
    cases items with
    | nil =>
      unfold lastDefault
      split
      · rfl
      · exact h
    | cons j rest => exact ih

theorem entry_applies {i : VContItem} {r : ThreadResume} (h : i.entry host = some r) (id : Int) :
    (r.thread = -1 ∨ r.thread = id) ↔ i.Applies id := by
  obtain ⟨v, hv, rfl⟩ := Option.map_eq_some_iff.mp h
  constructor
  · intro hthread w hw
    rw [hv] at hw
    cases hw
    exact hthread
  · exact fun happlies => happlies v hv

theorem applyingEntry_entries_none {items : List VContItem} {id : Int}
    (h : ∀ i ∈ items, i.tid.value ≠ none → ¬ i.Applies id) :
    applyingEntry id (items.filterMap (VContItem.entry host)) = none := by
  refine List.find?_eq_none.mpr ?_
  intro r hr
  obtain ⟨i, hi, hentry⟩ := List.mem_filterMap.mp hr
  have hsome : i.tid.value ≠ none := by
    intro hnone
    simp [VContItem.entry, hnone] at hentry
  simp only [decide_eq_true_eq, entry_applies hentry id]
  exact h i hi hsome

theorem applyingEntry_default {items : List VContItem} {id : Int}
    (h : ∀ i ∈ items, i.tid.value ≠ none → ¬ i.Applies id) :
    applyingEntry id (vContArray host items) = some (lastDefault host items stayStopped) := by
  have hnone : applyingEntry id (items.filterMap (VContItem.entry host)) = none :=
    applyingEntry_entries_none h
  rw [applyingEntry] at hnone
  have hdefault : (lastDefault host items stayStopped).thread = -1 :=
    lastDefault_thread items rfl
  simp only [applyingEntry, vContArray, List.find?_append, hnone, Option.none_or]
  simp [hdefault]

theorem applyingEntry_stored {before after : List VContItem} {i : VContItem} {id : Int}
    (others : ∀ j ∈ before, ¬ j.Applies id) (happlies : i.Applies id) {r : ThreadResume}
    (hentry : i.entry host = some r) :
    applyingEntry id (vContArray host (before ++ i :: after)) = some r := by
  have hnone : applyingEntry id (before.filterMap (VContItem.entry host)) = none :=
    applyingEntry_entries_none fun j hj _ => others j hj
  rw [applyingEntry] at hnone
  have hr : r.thread = -1 ∨ r.thread = id := (entry_applies hentry id).mpr happlies
  simp only [applyingEntry, vContArray, List.filterMap_append, List.filterMap_cons_some hentry,
    List.append_assoc, List.find?_append, hnone, Option.none_or]
  simp [hr]

theorem resumeRequest_inj {a b : Bool} (h : resumeRequest a = resumeRequest b) : a = b := by
  cases a <;> cases b <;> first | rfl | cases h

/-- A packet of at least one action makes one request, with the entry that applies. -/
theorem after_vCont_request (single : s.allThreads = [t]) {items : List VContItem}
    (valid : ∀ i ∈ items, i.Valid host) (nonempty : items ≠ []) {r : ThreadResume}
    (happlying : applyingEntry t.pid (vContArray host items) = some r) :
    ∃ os, (s.after k host (vContText items)).ptraces =
      (resumeRequest r.step, t.pid, r.sig, os) :: s.ptraces := by
  obtain ⟨text, htext⟩ : ∃ text, vContText items = ascii "vCont;" ++ text := by
    cases items with
    | nil => exact absurd rfl nonempty
    | cons i items =>
      exact ⟨i.action.text ++ i.tid.text ++ items.flatMap VContItem.text, rfl⟩
  have hinfo : resumeInfo host (s.withText (ascii "vCont;" ++ text)).ownBuf =
      some (vContArray host items) := by
    rw [← htext]
    exact resumeInfo_items valid _
  have hchoice : resumeChoice t.pid (vContArray host items) = some (r.step, r.sig) := by
    rw [resumeChoice_eq, happlying]
    rfl
  obtain ⟨cont, hfinal⟩ : ∃ cont, s.after k host (ascii "vCont;" ++ text) = Proc.final ((do
        setDesiredInferior false
        darwinResume k (vContArray host items)
        mywait k true
        prepareResumeReply k host).run
      { s.withText (ascii "vCont;" ++ text) with contThread := cont }) :=
    ⟨_, after_vCont_final hinfo⟩
  rw [htext, hfinal]
  let s₁ : Server σ := { s.withText (ascii "vCont;" ++ text) with contThread := cont }
  have hdesired : s₁.desired false = some t := desired_singleton (s := s₁) single false
  have hnodup : (s₁.allThreads.map ThreadInfo.node).Nodup := by
    change (s.allThreads.map ThreadInfo.node).Nodup
    rw [single]
    exact List.nodup_singleton _
  have hseen := vCont_seen (k := k) (s := s₁) host hnodup fun u hu => by
    rw [hdesired, Option.some.injEq] at hu
    rw [← hu]
    exact hchoice
  refine ⟨(({ s₁ with currentInferior := some t.node } : Server σ).flush k).os, ?_⟩
  have hptraces := congrArg Prod.fst hseen
  simp only [Server.resumedBy, hdesired] at hptraces
  exact hptraces.trans (resumed_ptraces _ _ _ _)

theorem applyingEntry_one (host : Signals.Host) {before after : List VContItem} {i : VContItem}
    {id : Int} (applies : i.Applies id) (others : ∀ j ∈ before ++ after, ¬ j.Applies id) :
    applyingEntry id (vContArray host (before ++ i :: after)) =
      if i.tid ≠ .absent ∨ after = [] then
        some (i.action.entry host (i.tid.value.getD (-1)))
      else some stayStopped := by
  have hbefore : ∀ j ∈ before, ¬ j.Applies id := fun j hj =>
    others j (List.mem_append_left _ hj)
  cases hv : i.tid.value with
  | some v =>
    have htid : i.tid ≠ .absent := by
      intro habsent
      rw [habsent] at hv
      cases hv
    have hentry : i.entry host = some (i.action.entry host v) := by simp [VContItem.entry, hv]
    rw [applyingEntry_stored hbefore applies hentry, if_pos (Or.inl htid)]
    rfl
  | none =>
    have habsent := ThreadText.absent_of_value hv
    have hnone : ∀ j ∈ before ++ i :: after, j.tid.value ≠ none → ¬ j.Applies id := by
      intro j hj hsome
      rcases List.mem_append.mp hj with hj | hj
      · exact hbefore j hj
      · rcases List.mem_cons.mp hj with rfl | hj
        · exact absurd hv hsome
        · exact others j (List.mem_append_right _ hj)
    rw [applyingEntry_default hnone]
    rcases List.eq_nil_or_concat after with rfl | ⟨rest, last, rfl⟩
    · rw [if_pos (Or.inr rfl), lastDefault_concat, if_pos habsent]
      rfl
    · have hlast : last.tid ≠ .absent := by
        intro hnotid
        refine others last (by simp) ?_
        intro w hw
        rw [hnotid] at hw
        cases hw
      have hneither : ¬ (i.tid ≠ .absent ∨ rest.concat last = []) := by
        simp [habsent]
      have hassoc : before ++ i :: rest.concat last = (before ++ i :: rest) ++ [last] := by simp
      rw [if_neg hneither, hassoc, lastDefault_concat, if_neg hlast]

/-- For the one inferior that is listed, and a packet with one action that applies to it:
the request carries that action just if the action names its thread, or stands last, or is
what the inferior does by default anyway. -/
theorem vCont_request_iff (single : s.allThreads = [t]) {before after : List VContItem}
    {i : VContItem} (valid : ∀ j ∈ before ++ i :: after, j.Valid host)
    (applies : i.Applies t.pid) (others : ∀ j ∈ before ++ after, ¬ j.Applies t.pid) :
    (∃ os, (s.after k host (vContText (before ++ i :: after))).ptraces =
        (resumeRequest i.action.step, t.pid, (i.action.sig host : Int), os) :: s.ptraces) ↔
      i.tid ≠ .absent ∨ after = [] ∨ i.action.step = false ∧ i.action.sig host = 0 := by
  have hone := applyingEntry_one host applies others
  have hnonempty : before ++ i :: after ≠ [] := by simp
  by_cases hkept : i.tid ≠ .absent ∨ after = []
  · rw [if_pos hkept] at hone
    refine iff_of_true (after_vCont_request single valid hnonempty hone) ?_
    exact hkept.elim Or.inl fun h => Or.inr (Or.inl h)
  · rw [if_neg hkept] at hone
    obtain ⟨os, hrequest⟩ := after_vCont_request (k := k) single valid hnonempty hone
    obtain ⟨hnamed, hlast⟩ := not_or.mp hkept
    rw [hrequest]
    constructor
    · rintro ⟨_, heq⟩
      simp only [List.cons.injEq, Prod.mk.injEq] at heq
      obtain ⟨⟨hstep, _, hsig, _⟩, _⟩ := heq
      refine Or.inr (Or.inr ⟨(resumeRequest_inj hstep).symm, ?_⟩)
      exact (Int.ofNat_inj.mp hsig).symm
    · rintro (hnamed' | hlast' | ⟨hstep, hsig⟩)
      · exact absurd hnamed' hnamed
      · exact absurd hlast' hlast
      · refine ⟨os, ?_⟩
        rw [hstep, hsig]
        rfl

/-- The thread that `singleThread`'s process has after start-up. -/
def inferior : ThreadInfo :=
  { node := 0, id := 7, pid := 7, port := 1, regcache := newRegisterCache }

def oneInferior : Server Machine :=
  { initial blankMachine [] with allThreads := [inferior], currentInferior := some 0 }

theorem hexTid_valid (c : Byte) (hex : isHexDigit c) (positive : 0 < digitsValue [c]) :
    (ThreadText.number [c]).Valid := by
  refine ⟨List.cons_ne_nil _ _, ?_, positive⟩
  intro d hd
  rw [List.mem_singleton.mp hd]
  exact hex

/-- `vCont;c:9;s:7` steps inferior 7. -/
theorem vCont_request_iff_step :
    let other : VContItem := ⟨.plain false, .number (ascii "9")⟩
    let own : VContItem := ⟨.plain true, .number (ascii "7")⟩
    (∃ os,
      (oneInferior.after singleThread Signals.darwin (vContText ([other] ++ own :: []))).ptraces =
        (resumeRequest own.action.step, inferior.pid, (own.action.sig Signals.darwin : Int), os) ::
          oneInferior.ptraces) ↔
      own.tid ≠ .absent ∨ ([] : List VContItem) = [] ∨
        own.action.step = false ∧ own.action.sig Signals.darwin = 0 := by
  intro other own
  have valid : ∀ j ∈ [other] ++ own :: [], j.Valid Signals.darwin := by
    intro j hj
    rcases List.mem_pair.mp hj with rfl | rfl
    · exact ⟨trivial, hexTid_valid (ch '9') (by decide) (by decide)⟩
    · exact ⟨trivial, hexTid_valid (ch '7') (by decide) (by decide)⟩
  refine vCont_request_iff (t := inferior) rfl valid (by decide) ?_
  intro j hj
  rw [List.mem_singleton.mp hj]
  decide

/-- `vCont;s;c:9`: the step has no thread number and applies to inferior 7, the other
action does not, and the inferior is continued. -/
theorem not_vCont_request_first :
    let own : VContItem := ⟨.plain true, .absent⟩
    let other : VContItem := ⟨.plain false, .number (ascii "9")⟩
    own.Applies inferior.pid ∧ ¬ other.Applies inferior.pid ∧
      ¬ ∃ os, (oneInferior.after singleThread Signals.darwin (vContText [own, other])).ptraces =
        (.step, inferior.pid, 0, os) :: oneInferior.ptraces := by
  refine ⟨by decide, by decide, ?_⟩
  rintro ⟨os, hrequest⟩
  have hcontinued : (oneInferior.after singleThread Signals.darwin
      (vContText [⟨.plain true, .absent⟩, ⟨.plain false, .number (ascii "9")⟩])).ptraces.head?.map
        Prod.fst = some .continue := by
    decide +kernel
  rw [hrequest] at hcontinued
  cases hcontinued

/-- `darwin_resume` makes no request that lets a thread run when the entry for this thread
has `leave_stopped` set. -/
def StaysStopped (k : Kernel σ) (s : Server σ) (info : List ThreadResume) : Prop :=
  ∀ u ∈ s.allThreads, ∀ r, applyingEntry u.id info = some r → r.leaveStopped = true →
    ∀ issued, (Proc.final ((darwinResume k info).run s)).ptraces = issued ++ s.ptraces →
      ∀ e ∈ issued, e.2.1 = u.pid → e.1 ≠ .step ∧ e.1 ≠ .continue

/-- Some action that the parser keeps is for thread `id`. -/
def Covers (items : List VContItem) (id : Int) : Prop :=
  ∃ before i after, items = before ++ i :: after ∧ i.Applies id ∧ (i.tid ≠ .absent ∨ after = [])

theorem darwinResume_ptraces (nodup : (s.allThreads.map ThreadInfo.node).Nodup)
    (info : List ThreadResume) :
    (Proc.final ((darwinResume k info).run s)).ptraces = s.ptraces ∨
      ∃ u r os, Live s u ∧ applyingEntry u.pid info = some r ∧
        (Proc.final ((darwinResume k info).run s)).ptraces =
          (resumeRequest r.step, u.pid, r.sig, os) :: s.ptraces := by
  cases hcurrent : s.currentInferior.bind s.threadAt with
  | none =>
    have hfault : derefCurrent.run s = .error (.fault "current_inferior") s := by
      simp [derefCurrent, hcurrent]
    refine Or.inl ?_
    simp only [darwinResume, EStateM.run_bind, hfault]
    rfl
  | some u =>
    have hlive : Live s u := hcurrent
    cases happlying : applyingEntry u.pid info with
    | none =>
      have hchoice : resumeChoice u.pid info = none := by
        rw [resumeChoice_eq, happlying]
        rfl
      refine Or.inl ?_
      simp only [darwinResume, EStateM.run_bind, derefCurrent_run hlive, hchoice]
      rfl
    | some r =>
      have hchoice : resumeChoice u.pid info = some (r.step, r.sig) := by
        rw [resumeChoice_eq, happlying]
        rfl
      refine Or.inr ⟨u, r, (s.flush k).os, hlive, happlying, ?_⟩
      rw [darwinResume_run hlive nodup hchoice]
      exact resumed_ptraces s _ _ _

theorem staysStopped_iff (nodup : (s.allThreads.map ThreadInfo.node).Nodup)
    (ids : ∀ u ∈ s.allThreads, u.id = u.pid) (info : List ThreadResume) :
    StaysStopped k s info ↔
      ∀ u, Live s u → ∀ r, applyingEntry u.id info = some r → r.leaveStopped = false := by
  have hrun : ∀ step, resumeRequest step = .step ∨ resumeRequest step = .continue := by
    intro step
    cases step
    · exact Or.inr rfl
    · exact Or.inl rfl
  constructor
  · intro hstays u hlive r hr
    have hchoice : resumeChoice u.pid info = some (r.step, r.sig) := by
      rw [resumeChoice_eq, ← ids u hlive.mem, hr]
      rfl
    have hrequest : (Proc.final ((darwinResume k info).run s)).ptraces =
        [(resumeRequest r.step, u.pid, r.sig, (s.flush k).os)] ++ s.ptraces := by
      rw [darwinResume_run hlive nodup hchoice]
      exact resumed_ptraces s _ _ _
    rw [← Bool.not_eq_true]
    intro hleave
    have hnone := hstays u hlive.mem r hr hleave _ hrequest _ List.mem_cons_self rfl
    exact (hrun r.step).elim hnone.1 hnone.2
  · intro hcurrent u hu r hr hleave issued hissued e he hpid
    rcases darwinResume_ptraces (k := k) nodup info with hnone | ⟨v, r', os, hlive, hr', hone⟩
    · rw [hnone] at hissued
      have hempty : issued = [] := List.append_left_eq_self.mp hissued.symm
      rw [hempty] at he
      exact absurd he List.not_mem_nil
    · rw [hone] at hissued
      have hsingle : issued = [(resumeRequest r'.step, v.pid, r'.sig, os)] :=
        List.append_cancel_right (hissued.symm.trans rfl)
      rw [hsingle, List.mem_singleton] at he
      have hid : v.id = u.id := by
        rw [ids v hlive.mem, ids u hu, ← hpid, he]
      have hstopped := hcurrent v hlive r (hid ▸ hr)
      rw [hleave] at hstopped
      cases hstopped

/-- The default action lets a thread run just if it comes from the last action. -/
theorem lastDefault_leaveStopped (items : List VContItem) :
    (lastDefault host items stayStopped).leaveStopped = false ↔
      ∃ before i, items = before ++ [i] ∧ i.tid = .absent := by
  rcases List.eq_nil_or_concat items with rfl | ⟨before, i, rfl⟩
  · refine iff_of_false (show ¬ true = false by simp) ?_
    rintro ⟨before, i, heq, _⟩
    simp at heq
  · simp only [List.concat_eq_append, lastDefault_concat]
    by_cases habsent : i.tid = .absent
    · rw [if_pos habsent]
      exact iff_of_true rfl ⟨before, i, rfl, habsent⟩
    · rw [if_neg habsent]
      refine iff_of_false (show ¬ true = false by simp) ?_
      rintro ⟨before', j, heq, hj⟩
      obtain ⟨_, hlast⟩ := List.append_inj' heq rfl
      rw [List.singleton_inj] at hlast
      exact habsent (hlast ▸ hj)

theorem applyingEntry_covers (host : Signals.Host) (items : List VContItem) (id : Int) :
    ∃ r, applyingEntry id (vContArray host items) = some r ∧
      (r.leaveStopped = false ↔ Covers items id) := by
  by_cases hnone : ∀ i ∈ items, i.tid.value ≠ none → ¬ i.Applies id
  · refine ⟨_, applyingEntry_default hnone, (lastDefault_leaveStopped items).trans ?_⟩
    constructor
    · rintro ⟨before, i, heq, habsent⟩
      refine ⟨before, i, [], heq, ?_, Or.inr rfl⟩
      intro v hv
      rw [habsent] at hv
      cases hv
    · rintro ⟨before, i, after, rfl, happlies, hkept⟩
      have habsent : i.tid = .absent := by
        refine ThreadText.absent_of_value ?_
        by_contra hvalue
        exact hnone i (by simp) hvalue happlies
      have hlast : after = [] := hkept.resolve_left (not_not.mpr habsent)
      exact ⟨before, i, by rw [hlast], habsent⟩
  · simp only [not_forall, not_not] at hnone
    obtain ⟨i, hi, hvalue, happlies⟩ := hnone
    obtain ⟨v, hv⟩ := Option.ne_none_iff_exists'.mp hvalue
    have hentry : i.action.entry host v ∈ items.filterMap (VContItem.entry host) :=
      List.mem_filterMap.mpr ⟨i, hi, by simp [VContItem.entry, hv]⟩
    have hmatch : v = -1 ∨ v = id := happlies v hv
    obtain ⟨r, hr⟩ : ∃ r, applyingEntry id (items.filterMap (VContItem.entry host)) = some r := by
      refine Option.isSome_iff_exists.mp (List.find?_isSome.mpr ⟨_, hentry, ?_⟩)
      exact decide_eq_true hmatch
    have hfound : applyingEntry id (vContArray host items) = some r := by
      rw [applyingEntry] at hr
      simp only [applyingEntry, vContArray, List.find?_append, hr, Option.some_or]
    obtain ⟨j, _, hj⟩ := List.mem_filterMap.mp (List.mem_of_find?_eq_some hr)
    obtain ⟨w, _, rfl⟩ := Option.map_eq_some_iff.mp hj
    refine ⟨_, hfound, iff_of_true rfl ?_⟩
    obtain ⟨before, after, hsplit⟩ := List.append_of_mem hi
    refine ⟨before, i, after, hsplit, happlies, Or.inl ?_⟩
    intro habsent
    rw [habsent] at hv
    cases hv

/-- The current thread always has an action of its own in the array of `myresume`. -/
theorem applyingEntry_myresumeInfo (contThread id : Int) (step : Bool) (sig : Int)
    {r : ThreadResume} (h : applyingEntry id (myresumeInfo contThread id step sig) = some r) :
    r.leaveStopped = false := by
  unfold myresumeInfo at h
  split at h
  · simp only [applyingEntry, List.find?_cons, or_true, decide_true, Option.some.injEq] at h
    rw [← h]
  · rename_i hown
    obtain ⟨_, hown⟩ := not_or.mp hown
    obtain ⟨_, hcont⟩ := not_or.mp hown
    simp only [applyingEntry, List.find?_cons, true_or, decide_true, Option.some.injEq] at h
    rw [← h]
    exact decide_eq_false hcont

/-- A thread that is told to stay stopped is let run just if it is the current one. No
array of `myresume` tells it that; an array of `vCont` does, unless one of the actions
that are kept is for it. -/
theorem leave_stopped_iff (nodup : (s.allThreads.map ThreadInfo.node).Nodup)
    (ids : ∀ u ∈ s.allThreads, u.id = u.pid) :
    (∀ info, StaysStopped k s info ↔
      ∀ u, Live s u → ∀ r, applyingEntry u.id info = some r → r.leaveStopped = false) ∧
    (∀ u step sig, Live s u → StaysStopped k s (myresumeInfo s.contThread u.id step sig)) ∧
    (∀ items : List VContItem, (∀ i ∈ items, i.Valid host) →
      ∀ stale, ∃ info, resumeInfo host (vContText items ++ 0 :: stale) = some info ∧
        ∀ u, Live s u → (StaysStopped k s info ↔ Covers items u.id)) := by
  refine ⟨staysStopped_iff nodup ids, ?_, ?_⟩
  · intro u step sig hlive
    rw [staysStopped_iff nodup ids]
    intro v hv r hr
    have huv : v = u := Option.some.inj (hv.symm.trans hlive)
    rw [huv] at hr
    exact applyingEntry_myresumeInfo _ _ step sig hr
  · intro items valid stale
    refine ⟨_, resumeInfo_items valid stale, ?_⟩
    intro u hlive
    obtain ⟨r, hr, hcovers⟩ := applyingEntry_covers host items u.id
    rw [staysStopped_iff nodup ids, ← hcovers]
    constructor
    · exact fun hall => hall u hlive r hr
    · intro hrun v hv r' hr'
      have huv : v = u := Option.some.inj (hv.symm.trans hlive)
      rw [huv, hr, Option.some.injEq] at hr'
      exact hr' ▸ hrun

/-- With two threads, the second of them current. -/
theorem leave_stopped_iff_two :
    let s : Server Machine := { twoThreads with currentInferior := some 1 }
    (∀ info, StaysStopped singleThread s info ↔
      ∀ u, Live s u → ∀ r, applyingEntry u.id info = some r → r.leaveStopped = false) ∧
    (∀ u step sig, Live s u →
      StaysStopped singleThread s (myresumeInfo s.contThread u.id step sig)) ∧
    (∀ items : List VContItem, (∀ i ∈ items, i.Valid Signals.darwin) →
      ∀ stale, ∃ info, resumeInfo Signals.darwin (vContText items ++ 0 :: stale) = some info ∧
        ∀ u, Live s u → (StaysStopped singleThread s info ↔ Covers items u.id)) :=
  leave_stopped_iff (by decide) (by decide)

/-- `vCont;c:9` has no action for inferior 7, which is continued all the same. -/
theorem not_staysStopped_other :
    let items : List VContItem := [⟨.plain false, .number (ascii "9")⟩]
    (∀ i ∈ items, ¬ i.Applies inferior.id) ∧
      ¬ StaysStopped singleThread oneInferior (vContArray Signals.darwin items) ∧
      (oneInferior.after singleThread Signals.darwin (vContText items)).ptraces.map Prod.fst =
        [.continue] := by
  refine ⟨?_, ?_, by decide +kernel⟩
  · intro i hi
    rw [List.mem_singleton.mp hi]
    decide
  · intro hstays
    have hnone := hstays inferior List.mem_cons_self stayStopped (by decide) rfl
      [(.continue, 7, 0, blankMachine)] rfl _ List.mem_cons_self rfl
    exact hnone.2 rfl

end Gdbserver
