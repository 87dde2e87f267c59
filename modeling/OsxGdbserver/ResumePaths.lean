import OsxGdbserver.ServerRuns

/-!
# Two ways to resume one thread

`Hc` followed by `c`, `s`, `C` or `S` against a single `vCont` packet. The two go through
different parsers and different arrays of actions; what is compared is the `ptrace`
request, `cont_thread` and `current_inferior`.
-/

namespace Gdbserver

open Remote CString Ppc

variable {σ : Type} {k : Kernel σ} {host : Signals.Host} {s : Server σ}

/-- The list as the client can know it: every thread is known by its process. -/
structure ThreadList (threads : List ThreadInfo) : Prop where
  nodes : (threads.map ThreadInfo.node).Nodup
  ids : (threads.map ThreadInfo.id).Nodup
  positive : ∀ t ∈ threads, 0 < t.id
  int : ∀ t ∈ threads, t.id < 2 ^ 31
  pids : ∀ t ∈ threads, t.id = t.pid

/-- `c` or `s`, or `C` or `S` with the two digits of a signal. -/
inductive Action
  | plain (step : Bool)
  | signal (step : Bool) (high low : Byte)
  deriving DecidableEq, Repr

namespace Action

def text : Action → List Byte
  | plain false => [ch 'c']
  | plain true => [ch 's']
  | signal false high low => [ch 'C', high, low]
  | signal true high low => [ch 'S', high, low]

def step : Action → Bool
  | plain step => step
  | signal step _ _ => step

/-- The protocol's number of the signal. -/
def number : Action → Nat
  | plain _ => 0
  | signal _ high low => (digitValue high).getD 0 * 16 + (digitValue low).getD 0

/-- Its digits are hex digits, and the host has the signal. -/
def Accepted (host : Signals.Host) : Action → Prop
  | plain _ => True
  | signal step high low =>
    isHexDigit high ∧ isHexDigit low ∧
      Signals.targetSignalToHostP host ((signal step high low).number : Int) = true

/-- `fromhex` takes the digits too, which are no capital letters then. -/
def LowerCase : Action → Prop
  | plain _ => True
  | signal _ high low => (hexDigit high).isSome ∧ (hexDigit low).isSome

/-- The host's number of the signal. -/
def sig (host : Signals.Host) : Action → Nat
  | plain _ => 0
  | signal step high low => Signals.targetSignalToHost host ((signal step high low).number : Int)

end Action

theorem digitValue_of_hexDigit {c : Byte} {nib : Nat} (h : hexDigit c = some nib) :
    digitValue c = some nib := by
  unfold hexDigit at h
  unfold digitValue
  split at h
  · rename_i hdec
    rw [if_pos hdec]
    exact h
  · rename_i hdec
    split at h
    · rename_i hlow
      rw [if_neg hdec, if_pos hlow]
      exact h
    · cases h

theorem hexDigit_lt {c : Byte} {nib : Nat} (h : hexDigit c = some nib) : nib < 16 := by
  unfold hexDigit at h
  split at h
  · rename_i hc
    have hle : c.toNat ≤ 57 := hc.2
    cases h
    omega
  · split at h
    · rename_i hc
      have hle : c.toNat ≤ 102 := hc.2
      cases h
      omega
    · cases h

/-- What can follow a number without continuing it. -/
def EndsNumber (rest : List Byte) : Prop :=
  isHexDigit (deref rest) = false ∧ deref rest ≠ 0x78 ∧ deref rest ≠ 0x58

theorem digitValue_lt (c : Byte) : (digitValue c).getD 0 < 16 := by
  have table : ∀ n < 256, (digitValue (UInt8.ofNat n)).getD 0 < 16 := by decide +kernel
  have hc := table c.toNat c.toNat_lt
  rwa [UInt8.ofNat_toNat] at hc

theorem number_lt (a : Action) : a.number < 256 := by
  cases a with
  | plain step => exact Nat.zero_lt_succ _
  | signal step high low =>
    have hhigh := digitValue_lt high
    have hlow := digitValue_lt low
    change (digitValue high).getD 0 * 16 + (digitValue low).getD 0 < 256
    omega

theorem endsNumber_nul (stale : List Byte) : EndsNumber (0 :: stale) :=
  show EndsNumber [0] by unfold EndsNumber; decide

theorem endsNumber_colon (rest : List Byte) : EndsNumber (ch ':' :: rest) :=
  show EndsNumber [ch ':'] by unfold EndsNumber; decide

/-- `strtol` on the two digits of a signal. -/
theorem signal_strtol (step : Bool) {high low : Byte} (hhigh : isHexDigit high)
    (hlow : isHexDigit low) {rest : List Byte} (hrest : EndsNumber rest) :
    strtol (high :: low :: rest) = (((Action.signal step high low).number : Int), rest) := by
  have hvalue : digitsValue [high, low] = (Action.signal step high low).number := by
    simp [digitsValue, Action.number]
  have hdigits : ∀ c ∈ [high, low], isHexDigit c := by
    intro c hc
    rcases List.mem_pair.mp hc with rfl | rfl
    · exact hhigh
    · exact hlow
  have hlt : digitsValue [high, low] < 2 ^ 31 := by
    rw [hvalue]
    exact Nat.lt_trans (number_lt _) (by decide)
  have hstrtol := strtol_digits (by simp) hdigits hrest.1 hrest.2 hlt
  rw [← hvalue]
  exact hstrtol

/-- `convert_ascii_to_int` reads lower-case digits alike. -/
theorem signal_byte {step : Bool} {high low : Byte}
    (lower : (Action.signal step high low).LowerCase) (p : List Byte) :
    convertAsciiToInt (high :: low :: p) 1 =
      ([UInt8.ofNat (Action.signal step high low).number], true) := by
  obtain ⟨a, ha⟩ := Option.isSome_iff_exists.mp lower.1
  obtain ⟨b, hb⟩ := Option.isSome_iff_exists.mp lower.2
  have hnumber : (Action.signal step high low).number = a * 16 + b := by
    simp [Action.number, digitValue_of_hexDigit ha, digitValue_of_hexDigit hb]
  rw [hnumber]
  simp [convertAsciiToInt, hexPair, deref, ha, hb]

/-- The parser of `vCont` reads the action, and stops behind it. -/
theorem parseAction_text {a : Action} (accepted : a.Accepted host) {rest : List Byte}
    (hrest : EndsNumber rest) :
    parseAction host (a.text ++ rest) = some (a.step, (a.sig host : Int), rest) := by
  cases a with
  | plain step => cases step <;> rfl
  | signal step high low =>
    obtain ⟨hhigh, hlow, hhost⟩ := accepted
    have hstrtol := signal_strtol step hhigh hlow hrest
    have hmoved : rest.length ≠ (high :: low :: rest).length + 1 := by
      simp only [List.length_cons]
      omega
    have hparse : ∀ c : Byte, (c = ch 'S' ∨ c = ch 'C') → ¬ (c = ch 's' ∨ c = ch 'c') →
        parseAction host (c :: high :: low :: rest) =
          some (decide (c = ch 'S'), ((Action.signal step high low).sig host : Int), rest) := by
      intro c hsignal hplain
      simp only [parseAction, deref, List.headD_cons, hplain, if_false, hsignal, if_true,
        List.tail_cons, hstrtol, List.length_cons] at hmoved ⊢
      simp only [hmoved, hhost, if_true, if_false, Action.sig, Option.some.injEq, Prod.mk.injEq,
        and_true]
      exact decide_eq_decide.mpr Iff.rfl
    cases step with
    | false => exact hparse (ch 'C') (by decide) (by decide)
    | true => exact hparse (ch 'S') (by decide) (by decide)

/-- `parse_signal_byte` reads the same signal. -/
theorem signalByte_text {step : Bool} {high low : Byte}
    (accepted : (Action.signal step high low).Accepted host)
    (lower : (Action.signal step high low).LowerCase) (p : List Byte) :
    signalByte host (high :: low :: p) = some ((Action.signal step high low).sig host) := by
  obtain ⟨-, -, hhost⟩ := accepted
  have hbyte := signal_byte lower p
  have hnat : ((deref [UInt8.ofNat (Action.signal step high low).number]).toNat : Int) =
      (Action.signal step high low).number :=
    congrArg Nat.cast (UInt8.toNat_ofNat_of_lt' (number_lt (.signal step high low)))
  simp only [signalByte, hbyte, if_true, hnat, hhost, Action.sig,
    Nat.mod_eq_of_lt (Signals.targetSignalToHost_lt host _)]

/-- A thread number as the client may write it. -/
structure HexNumber (digits : List Byte) (id : Int) : Prop where
  nonempty : digits ≠ []
  hex : ∀ c ∈ digits, isHexDigit c
  value : (digitsValue digits : Int) = id

theorem HexNumber.strtol {digits : List Byte} {id : Int} (h : HexNumber digits id)
    (int : id < 2 ^ 31) (stale : List Byte) :
    CString.strtol (digits ++ 0 :: stale) = (id, 0 :: stale) := by
  have hends := endsNumber_nul stale
  have hvalue := h.value
  have hstrtol := strtol_digits h.nonempty h.hex hends.1 hends.2 (by omega)
  rwa [hvalue] at hstrtol

/-- Neither a NUL nor a semicolon. -/
def Plain (text : List Byte) : Prop := ∀ c ∈ text, c ≠ 0 ∧ c ≠ ch ';'

theorem Plain.of_hex {text : List Byte} (h : ∀ c ∈ text, isHexDigit c) : Plain text :=
  fun c hc => ⟨ne_of_isHexDigit (h c hc) (by decide), ne_of_isHexDigit (h c hc) (by decide)⟩

theorem Plain.singleton {c : Byte} (h : c ≠ 0 ∧ c ≠ ch ';') : Plain [c] := by
  intro d hd
  rw [List.mem_singleton.mp hd]
  exact h

theorem Plain.append {xs ys : List Byte} (hx : Plain xs) (hy : Plain ys) : Plain (xs ++ ys) := by
  intro c hc
  rcases List.mem_append.mp hc with hc | hc
  · exact hx c hc
  · exact hy c hc

theorem plain_text {a : Action} (accepted : a.Accepted host) : Plain a.text := by
  have hc : Plain [ch 'c'] := .singleton ⟨by decide, by decide⟩
  have hs : Plain [ch 's'] := .singleton ⟨by decide, by decide⟩
  have hC : Plain [ch 'C'] := .singleton ⟨by decide, by decide⟩
  have hS : Plain [ch 'S'] := .singleton ⟨by decide, by decide⟩
  cases a with
  | plain step =>
    cases step
    · exact hc
    · exact hs
  | signal step high low =>
    obtain ⟨hhigh, hlow, _⟩ := accepted
    have hdigits : Plain [high, low] := Plain.of_hex fun c hc => by
      rcases List.mem_pair.mp hc with rfl | rfl
      · exact hhigh
      · exact hlow
    cases step
    · exact hC.append hdigits
    · exact hS.append hdigits

/-- `handle_v_cont` counts one action in a text without a semicolon. -/
theorem countActions_plain {text stale : List Byte} (h : Plain text) :
    countActions (ascii "vCont;" ++ text ++ 0 :: stale) = 1 := by
  have hdrop : (ascii "vCont;" ++ text ++ 0 :: stale).drop 6 = text ++ 0 :: stale := rfl
  have hnul : 0 ∉ text := fun hmem => (h 0 hmem).1 rfl
  have hcount : text.count (ch ';') = 0 := List.count_eq_zero.mpr fun hmem => (h _ hmem).2 rfl
  rw [countActions, hdrop, cstr_append_nul hnul, hcount]

/-- The entry that an action makes in the array, for one thread or for all. -/
def Action.entry (host : Signals.Host) (a : Action) (thread : Int) : ThreadResume :=
  { thread := thread, leaveStopped := false, step := a.step, sig := (a.sig host : Int) }

theorem resumeInfo_all {a : Action} (accepted : a.Accepted host) (stale : List Byte) :
    resumeInfo host (ascii "vCont;" ++ a.text ++ 0 :: stale) = some [a.entry host (-1)] := by
  have hends : EndsNumber (0 :: stale) := endsNumber_nul stale
  have hdrop : (ascii "vCont;" ++ a.text ++ 0 :: stale).drop 5 =
      ch ';' :: (a.text ++ 0 :: stale) := rfl
  have hfuel : ∃ n, (ascii "vCont;" ++ a.text ++ 0 :: stale).length = n + 2 := ⟨_, rfl⟩
  obtain ⟨n, hn⟩ := hfuel
  have hsemi : deref (ch ';' :: (a.text ++ 0 :: stale)) ≠ 0 := by
    change ch ';' ≠ 0
    decide
  have hnul : deref (0 :: stale) = 0 := rfl
  simp only [resumeInfo, hdrop, hn, parseActions, hsemi, if_false, List.tail_cons,
    parseAction_text accepted hends, Option.bind_some, hnul, if_true, Option.map_some,
    List.nil_append]
  rfl

theorem resumeInfo_one {a : Action} (accepted : a.Accepted host) {tid : List Byte} {id : Int}
    (number : HexNumber tid id) (int : id < 2 ^ 31) (stale : List Byte) :
    resumeInfo host (ascii "vCont;" ++ (a.text ++ ch ':' :: tid) ++ 0 :: stale) =
      some [a.entry host id, stayStopped] := by
  have hnumber := number.strtol int stale
  have hdrop : (ascii "vCont;" ++ (a.text ++ ch ':' :: tid) ++ 0 :: stale).drop 5 =
      ch ';' :: (a.text ++ ch ':' :: (tid ++ 0 :: stale)) := by
    change ch ';' :: ((a.text ++ ch ':' :: tid) ++ 0 :: stale) = _
    rw [List.append_assoc, List.cons_append]
  obtain ⟨n, hn⟩ : ∃ n, (ascii "vCont;" ++ (a.text ++ ch ':' :: tid) ++ 0 :: stale).length =
      n + 2 := ⟨_, rfl⟩
  have hsemi : deref (ch ';' :: (a.text ++ ch ':' :: (tid ++ 0 :: stale))) ≠ 0 := by
    change ch ';' ≠ 0
    decide
  have hcolon : deref (ch ':' :: (tid ++ 0 :: stale)) = ch ':' := rfl
  have hnul : deref (0 :: stale) = 0 := rfl
  have hmoved : (0 :: stale).length ≠ (ch ':' :: (tid ++ 0 :: stale)).length := by
    simp only [List.length_cons, List.length_append]
    omega
  have hne : ch ':' ≠ 0 := by decide
  simp only [resumeInfo, hdrop, hn, parseActions, hsemi, if_false, List.tail_cons,
    parseAction_text accepted (endsNumber_colon _), Option.bind_some, hcolon, hne, hnumber,
    hnul, hmoved, ne_eq, not_true_eq_false, and_false, if_true, Option.map_some,
    List.nil_append]
  rfl

/-- The `ptrace` requests so far, each with the machine it was made to. -/
def Server.ptraces (s : Server σ) : List (PtraceRequest × Int × Int × σ) :=
  s.log.filterMap fun
    | .ptrace request pid data os => some (request, pid, data, os)
    | _ => none

def Server.seen (s : Server σ) : List (PtraceRequest × Int × Int × σ) × Int × Option Nat :=
  (s.ptraces, s.contThread, s.currentInferior)

theorem fill_ptraces (s : Server σ) (t : ThreadInfo) : (s.fill k t).ptraces = s.ptraces :=
  filterMap_fillLog (fun _ _ _ => rfl) s.os t s.log

theorem resumed_ptraces (s : Server σ) (request : PtraceRequest) (pid sig : Int) :
    (s.resumed k request pid sig).ptraces = (request, pid, sig, (s.flush k).os) :: s.ptraces :=
  congrArg _ (filterMap_flushLog (fun _ _ _ => rfl) s.allThreads s.os s.log)

/-- The state in which the handling of a packet ends. -/
def Server.after (k : Kernel σ) (host : Signals.Host) (s : Server σ) (body : List Byte) :
    Server σ :=
  Proc.final ((handlePacket k host).run (s.withText body))

theorem after_eq {body : List Byte} {c : Char} {p : Proc (Server σ) Unit}
    (hc : command (s.withText body) = c) (hp : dispatch k host c = do p; return false) :
    s.after k host body = Proc.final (p.run (s.withText body)) := by
  rw [Server.after, handlePacket_run, hc, hp, Proc.final_thenReturn]

/-- The state after `set_desired_inferior(0)` and the resume that follows it. -/
def Server.resumedBy (k : Kernel σ) (s : Server σ) (step : Bool) (sig : Int) : Server σ :=
  let chosen := { s with currentInferior := (s.desired false).map ThreadInfo.node }
  match s.desired false with
  | some t => chosen.resumed k (resumeRequest step) t.pid sig
  | none => chosen

/-- What is in `own_buf` does not matter for it. -/
theorem resumedBy_withText (text : List Byte) (step : Bool) (sig : Int) :
    ((s.withText text).resumedBy k step sig).seen = (s.resumedBy k step sig).seen := by
  have hsame : (s.withText text).desired false = s.desired false := rfl
  unfold Server.resumedBy
  rw [hsame]
  cases s.desired false <;> rfl

theorem waitAndReport_seen {t : ThreadInfo} (h : Live s t)
    (nodup : (s.allThreads.map ThreadInfo.node).Nodup) :
    (Proc.final ((do mywait k true; prepareResumeReply k host).run s)).seen = s.seen := by
  refine (Proc.Ends.final_iff (P := fun s' : Server σ => s'.seen = s.seen)).mp ?_
  rw [Proc.Ends.bind_iff]
  refine (mywait_ends h nodup true).imp ?_ ?_
  · rintro _ s₁ ⟨_, hwaited⟩
    obtain ⟨t₁, hlive, hnodup, hseen⟩ : ∃ t₁, Live s₁ t₁ ∧
        (s₁.allThreads.map ThreadInfo.node).Nodup ∧ s₁.seen = s.seen := by
      obtain ⟨os, port, status, sig, waiting, rfl⟩ := hwaited
      exact ⟨setPort port t, h.assign (f := setPort port) fun _ => rfl,
        assignThread_nodup (f := setPort port) nodup t.node fun _ => rfl, rfl⟩
    rw [Proc.Ends.of_run (prepareResumeReply_run k host hlive hnodup), ← hseen]
    have hfill := fill_ptraces (k := k) s₁ t₁
    unfold Server.reported
    split
    · exact congrArg (fun requests => (requests, s₁.contThread, s₁.currentInferior)) hfill
    · rfl
  · rintro _ s₁ ⟨_, _, os, port, status, sig, waiting, rfl⟩
    rfl

theorem derefCurrent_run_none (h : s.currentInferior = none) :
    derefCurrent.run s = .error (.fault "current_inferior") s := by
  simp [derefCurrent, h]

theorem final_resumed {t : ThreadInfo} {p : Proc (Server σ) Unit} {step : Bool} {sig : Int}
    (nodup : (s.allThreads.map ThreadInfo.node).Nodup) (live : Live s t)
    (run : p.run s = .ok () (s.resumed k (resumeRequest step) t.pid sig)) :
    (Proc.final ((do p; mywait k true; prepareResumeReply k host).run s)).seen =
      (s.resumed k (resumeRequest step) t.pid sig).seen := by
  rw [EStateM.run_bind, run]
  exact waitAndReport_seen (live.resumed _ _ _) (resumed_nodup nodup _ _ _)

theorem final_fault {p : Proc (Server σ) Unit} {access : String} {q : Proc (Server σ) Unit}
    (run : p.run s = .error (.fault access) s) : Proc.final ((do p; q).run s) = s := by
  rw [EStateM.run_bind, run]
  rfl

/-- A resume that takes the chosen thread, or faults if there is none. -/
theorem resume_seen {resume : Proc (Server σ) Unit} {step : Bool} {sig : Int}
    (nodup : (s.allThreads.map ThreadInfo.node).Nodup)
    (fault : ∀ s₁ : Server σ, s₁.currentInferior = none →
      resume.run s₁ = .error (.fault "current_inferior") s₁)
    (resumed : ∀ t, s.desired false = some t →
      resume.run (s.select false) =
        .ok () ((s.select false).resumed k (resumeRequest step) t.pid sig)) :
    (Proc.final ((do
        setDesiredInferior false
        resume
        mywait k true
        prepareResumeReply k host).run s)).seen = (s.resumedBy k step sig).seen := by
  rw [EStateM.run_bind, setDesiredInferior_run]
  cases hdesired : s.desired false with
  | none =>
    have hnone : (s.select false).currentInferior = none :=
      congrArg (Option.map ThreadInfo.node) hdesired
    rw [Server.resumedBy, hdesired]
    refine congrArg Server.seen ((final_fault (fault _ hnone)).trans ?_)
    rw [Server.select, hdesired]
  | some t =>
    have hlive := live_select nodup hdesired
    have hresume := resumed t hdesired
    rw [Server.select, hdesired] at hlive hresume
    simp only [Server.resumedBy, hdesired]
    rw [Server.select, hdesired]
    exact final_resumed nodup hlive hresume

theorem resumeAndReport_seen (threads : ThreadList s.allThreads) (step : Bool) (sig : Nat) :
    (Proc.final ((resumeAndReport k host step sig).run s)).seen =
      (s.resumedBy k step sig).seen := by
  refine resume_seen threads.nodes ?_ ?_
  · intro s₁ hnone
    simp only [myresume, EStateM.run_bind, EStateM.run_get]
    split <;> simp only [darwinResume, EStateM.run_bind, derefCurrent_run_none hnone]
  · intro t hdesired
    have hid := threads.pids t (desired_mem hdesired)
    exact myresume_run (live_select threads.nodes hdesired) threads.nodes hid step sig

theorem vCont_seen (host : Signals.Host) (nodup : (s.allThreads.map ThreadInfo.node).Nodup)
    {info : List ThreadResume} {step : Bool} {sig : Int}
    (choice : ∀ t, s.desired false = some t → resumeChoice t.pid info = some (step, sig)) :
    (Proc.final ((do
        setDesiredInferior false
        darwinResume k info
        mywait k true
        prepareResumeReply k host).run s)).seen = (s.resumedBy k step sig).seen := by
  refine resume_seen nodup ?_ ?_
  · intro s₁ hnone
    simp only [darwinResume, EStateM.run_bind, derefCurrent_run_none hnone]
  · intro t hdesired
    exact darwinResume_run (live_select nodup hdesired) nodup (choice t hdesired)

theorem command_withText (c : Char) (text : List Byte) :
    command (s.withText (ch c :: text)) = Char.ofUInt8 (ch c) := rfl

/-- What `Hc` leaves behind. -/
theorem after_Hc (text : List Byte) :
    s.after k host (ascii "Hc" ++ text) =
      Server.withText
        { s.withText (ascii "Hc" ++ text) with
          contThread := (strtol (text ++ 0 :: s.ownBuf.drop (text.length + 3))).1 }
        (ascii "OK") := by
  have hcommand : command (s.withText (ascii "Hc" ++ text)) = 'H' :=
    (command_withText 'H' _).trans (by decide +kernel)
  have hg : ¬ deref ((s.withText (ascii "Hc" ++ text)).ownBuf.drop 1) = ch 'g' := by
    change ¬ ch 'c' = ch 'g'
    decide
  have hc : deref ((s.withText (ascii "Hc" ++ text)).ownBuf.drop 1) = ch 'c' := rfl
  have hok : ∀ s : Server σ, writeOk.run s = .ok () (s.withText (ascii "OK")) :=
    fun _ => reply_run (by decide)
  rw [after_eq hcommand rfl]
  simp only [handleHSetThread, EStateM.run_bind, packet_run, if_neg hg, if_pos hc,
    EStateM.run_modify, hok]
  rfl

theorem signal_seen (threads : ThreadList s.allThreads) {step : Bool} {high low : Byte}
    (accepted : (Action.signal step high low).Accepted host)
    (lower : (Action.signal step high low).LowerCase) {c : Byte} {p : List Byte}
    (hbuf : s.ownBuf = c :: high :: low :: p) :
    (Proc.final ((do
        let sig ← parseSignalByte host ((← packet).drop 1)
        resumeAndReport k host step sig).run s)).seen =
      (s.resumedBy k step ((Action.signal step high low).sig host)).seen := by
  have hsignal : signalByte host (s.ownBuf.drop 1) =
      some ((Action.signal step high low).sig host) := by
    rw [hbuf]
    exact signalByte_text accepted lower p
  have hparse := parseSignalByte_run host (s.ownBuf.drop 1) s
  rw [hsignal] at hparse
  rw [EStateM.run_bind, packet_run]
  simp only [EStateM.run_bind, hparse]
  exact resumeAndReport_seen threads step _

theorem after_action (threads : ThreadList s.allThreads) {a : Action}
    (accepted : a.Accepted host) (lower : a.LowerCase) :
    (s.after k host a.text).seen =
      ((s.withText a.text).resumedBy k a.step (a.sig host)).seen := by
  have threads' : ThreadList (s.withText a.text).allThreads := threads
  cases a with
  | plain step =>
    cases step with
    | false =>
      have hcommand : command (s.withText (Action.plain false).text) = 'c' :=
        (command_withText 'c' []).trans (by decide +kernel)
      rw [after_eq hcommand rfl]
      exact resumeAndReport_seen threads' false 0
    | true =>
      have hcommand : command (s.withText (Action.plain true).text) = 's' :=
        (command_withText 's' []).trans (by decide +kernel)
      rw [after_eq hcommand rfl]
      exact resumeAndReport_seen threads' true 0
  | signal step high low =>
    cases step with
    | false =>
      have hcommand : command (s.withText (Action.signal false high low).text) = 'C' :=
        (command_withText 'C' [high, low]).trans (by decide +kernel)
      rw [after_eq hcommand rfl]
      exact signal_seen threads' accepted lower rfl
    | true =>
      have hcommand : command (s.withText (Action.signal true high low).text) = 'S' :=
        (command_withText 'S' [high, low]).trans (by decide +kernel)
      rw [after_eq hcommand rfl]
      exact signal_seen threads' accepted lower rfl

/-- A `vCont` packet with the array that its text gives. -/
theorem after_vCont_final {text : List Byte} {info : List ThreadResume}
    (hinfo : resumeInfo host (s.withText (ascii "vCont;" ++ text)).ownBuf = some info) :
    let first := (info.head?.map ThreadResume.thread).getD (-1)
    let buf := (s.withText (ascii "vCont;" ++ text)).ownBuf
    s.after k host (ascii "vCont;" ++ text) = Proc.final ((do
        setDesiredInferior false
        darwinResume k info
        mywait k true
        prepareResumeReply k host).run
      { s.withText (ascii "vCont;" ++ text) with
        contThread := if countActions buf = 1 ∧ first ≠ -1 then first else -1 }) := by
  have hcommand : command (s.withText (ascii "vCont;" ++ text)) = 'v' :=
    (command_withText 'v' _).trans (by decide +kernel)
  have hprefix : (ascii "vCont;").isPrefixOf (s.withText (ascii "vCont;" ++ text)).ownBuf = true :=
    rfl
  rw [after_eq hcommand rfl]
  simp only [handleVRequests, EStateM.run_bind, packet_run, hprefix, if_true, handleVCont, hinfo,
    EStateM.run_modify]

/-- A `vCont` packet of a single action, whose array has `first` as its first thread. -/
theorem after_vCont (threads : ThreadList s.allThreads) {text : List Byte} (plain : Plain text)
    {info : List ThreadResume} {first : Int} {step : Bool} {sig : Int}
    (hinfo : resumeInfo host (s.withText (ascii "vCont;" ++ text)).ownBuf = some info)
    (hfirst : info.head?.map ThreadResume.thread = some first)
    (choice : ∀ t, ({ s with contThread := first } : Server σ).desired false = some t →
      resumeChoice t.pid info = some (step, sig)) :
    (s.after k host (ascii "vCont;" ++ text)).seen =
      (({ s with contThread := first } : Server σ).resumedBy k step sig).seen := by
  let s₁ : Server σ := s.withText (ascii "vCont;" ++ text)
  let s₂ : Server σ := { s₁ with contThread := first }
  have hcount : countActions s₁.ownBuf = 1 := countActions_plain plain
  have hget : (info.head?.map ThreadResume.thread).getD (-1) = first := by
    rw [hfirst]
    rfl
  have hcont : (if countActions s₁.ownBuf = 1 ∧ first ≠ -1 then first else -1) = first := by
    by_cases hall : first = -1 <;> simp [hcount, hall]
  have nodup : (s₂.allThreads.map ThreadInfo.node).Nodup := threads.nodes
  rw [after_vCont_final hinfo, hget, hcont, vCont_seen host nodup choice]
  exact resumedBy_withText (s := { s with contThread := first }) _ step sig

/-- The thread number after `Hc`, and what `vCont` has behind the action for the same
threads. -/
inductive Target (threads : List ThreadInfo) : List Byte → List Byte → Prop
  | one {tid : List Byte} {id : Int} (number : HexNumber tid id)
      (listed : id ∈ threads.map ThreadInfo.id) : Target threads tid (ch ':' :: tid)
  | all : Target threads (ascii "-1") []

/-- A `cont_thread` that is listed is the thread chosen, whatever `step_thread` is. -/
theorem desired_of_listed (threads : ThreadList s.allThreads) {id : Int}
    (listed : id ∈ s.allThreads.map ThreadInfo.id) {t : ThreadInfo}
    (h : ({ s with contThread := id } : Server σ).desired false = some t) : t.pid = id := by
  obtain ⟨u, hu, hid⟩ := List.mem_map.mp listed
  have hpos := threads.positive u hu
  have hnostep : ¬ (s.stepThread > 0 ∧ (id = 0 ∨ id = -1)) := by omega
  obtain ⟨v, hv⟩ : ∃ v, findInferiorId s.allThreads id = some v := by
    cases hfind : findInferiorId s.allThreads id with
    | some v => exact ⟨v, rfl⟩
    | none => exact absurd hid (by simpa using List.find?_eq_none.mp hfind u hu)
  have hvid : v.id = id :=
    of_decide_eq_true (List.find?_some (p := fun t : ThreadInfo => t.id = id) hv)
  have hvt : v = t := by
    simpa [Server.desired, hnostep, hv] using h
  rw [← hvt, ← threads.pids v (List.mem_of_find?_eq_some hv), hvid]

theorem resumedBy_ptraces (nonempty : s.allThreads ≠ []) (step : Bool) (sig : Int) :
    ∃ request, (s.resumedBy k step sig).ptraces = request :: s.ptraces := by
  unfold Server.resumedBy
  cases hdesired : s.desired false with
  | none =>
    have hhead := (Option.or_eq_none_iff.mp hdesired).2
    exact absurd (List.head?_eq_none_iff.mp hhead) nonempty
  | some t => exact ⟨_, resumed_ptraces _ _ _ _⟩

theorem strtol_minus_one (stale : List Byte) : (strtol (ascii "-1" ++ 0 :: stale)).1 = -1 := rfl

/-- What `Hc` and an action do, when `strtol` reads `thread` after `Hc`. -/
theorem after_Hc_action (threads : ThreadList s.allThreads) {a : Action}
    (accepted : a.Accepted host) (lower : a.LowerCase) {text : List Byte} {thread : Int}
    (value : ∀ stale, (strtol (text ++ 0 :: stale)).1 = thread) :
    ((s.after k host (ascii "Hc" ++ text)).after k host a.text).seen =
      (({ s with contThread := thread } : Server σ).resumedBy k a.step (a.sig host)).seen := by
  let s₁ : Server σ := { s with contThread := thread }
  have hstate : s.after k host (ascii "Hc" ++ text) =
      (s₁.withText (ascii "Hc" ++ text)).withText (ascii "OK") := by
    rw [after_Hc, value]
    rfl
  have threads₁ :
      ThreadList ((s₁.withText (ascii "Hc" ++ text)).withText (ascii "OK")).allThreads :=
    threads
  rw [hstate, after_action threads₁ accepted lower, resumedBy_withText, resumedBy_withText,
    resumedBy_withText]

/-- For every list of threads, and whatever the three selected threads are, both ways make
the same request and leave the same thread selected. -/
theorem resume_paths_agree (threads : ThreadList s.allThreads) {a : Action}
    (accepted : a.Accepted host) (lower : a.LowerCase) {hText vText : List Byte}
    (target : Target s.allThreads hText vText) :
    ((s.after k host (ascii "Hc" ++ hText)).after k host a.text).seen =
        (s.after k host (ascii "vCont;" ++ (a.text ++ vText))).seen ∧
      (s.allThreads ≠ [] → ∃ request,
        (s.after k host (ascii "vCont;" ++ (a.text ++ vText))).ptraces = request :: s.ptraces) := by
  have hboth : ∃ thread,
      ((s.after k host (ascii "Hc" ++ hText)).after k host a.text).seen =
          (({ s with contThread := thread } : Server σ).resumedBy k a.step (a.sig host)).seen ∧
        (s.after k host (ascii "vCont;" ++ (a.text ++ vText))).seen =
          (({ s with contThread := thread } : Server σ).resumedBy k a.step (a.sig host)).seen := by
    cases target with
    | @one _ id number listed =>
      obtain ⟨u, hu, hid⟩ := List.mem_map.mp listed
      have hint : id < 2 ^ 31 := hid ▸ threads.int u hu
      have hcolon : Plain [ch ':'] := .singleton ⟨by decide, by decide⟩
      have hplain : Plain (a.text ++ ([ch ':'] ++ hText)) :=
        (plain_text accepted).append (hcolon.append (Plain.of_hex number.hex))
      refine ⟨id, after_Hc_action threads accepted lower fun stale => ?_, ?_⟩
      · rw [number.strtol hint stale]
      · refine after_vCont threads hplain (resumeInfo_one accepted number hint _) rfl ?_
        intro t ht
        simp [resumeChoice, Action.entry, desired_of_listed threads listed ht]
    | all =>
      refine ⟨-1, after_Hc_action threads accepted lower strtol_minus_one, ?_⟩
      rw [List.append_nil]
      refine after_vCont threads (plain_text accepted) (resumeInfo_all accepted _) rfl ?_
      intro t _
      simp [resumeChoice, Action.entry]
  obtain ⟨thread, hH, hv⟩ := hboth
  refine ⟨hH.trans hv.symm, ?_⟩
  intro nonempty
  obtain ⟨request, hrequest⟩ := resumedBy_ptraces (k := k) (s := { s with contThread := thread })
    nonempty a.step (a.sig host)
  exact ⟨request, (congrArg Prod.fst hv).trans hrequest⟩

/-- Two stopped processes, 7 and 9. -/
def twoThreads : Server Machine :=
  { initial blankMachine [] with
    allThreads :=
      [{ node := 0, id := 7, pid := 7, port := 1, regcache := newRegisterCache },
        { node := 1, id := 9, pid := 9, port := 2, regcache := newRegisterCache }]
    stepThread := 7 }

/-- Signal 5 to the second of them. -/
theorem resume_paths_agree_nine :
    let action : Action := .signal false (ch '0') (ch '5')
    let vCont := twoThreads.after singleThread Signals.darwin
      (ascii "vCont;" ++ (action.text ++ ch ':' :: ascii "9"))
    ((twoThreads.after singleThread Signals.darwin (ascii "Hc" ++ ascii "9")).after
        singleThread Signals.darwin action.text).seen = vCont.seen ∧
      ∃ request, vCont.ptraces = request :: twoThreads.ptraces := by
  have threads : ThreadList twoThreads.allThreads :=
    ⟨by decide, by decide, by decide, by decide, by decide⟩
  have accepted : (Action.signal false (ch '0') (ch '5')).Accepted Signals.darwin :=
    ⟨by decide, by decide, by decide +kernel⟩
  have lower : (Action.signal false (ch '0') (ch '5')).LowerCase := ⟨by decide, by decide⟩
  have target : Target twoThreads.allThreads (ascii "9") (ch ':' :: ascii "9") :=
    .one ⟨by decide, by decide +kernel, rfl⟩ (by decide)
  have hagree := resume_paths_agree (k := singleThread) threads accepted lower target
  exact ⟨hagree.1, hagree.2 (by decide)⟩

end Gdbserver
