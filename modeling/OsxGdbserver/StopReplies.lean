import OsxGdbserver.VContActions
import OsxGdbserver.PacketInvariants
import OsxGdbserver.Framing

/-!
# Stop replies

A reader of stop replies, written from the protocol's grammar, against the text that
`prepare_resume_reply` builds.
-/

namespace Gdbserver

open Remote CString Ppc

variable {σ : Type} {k : Kernel σ} {host : Signals.Host} {s : Server σ} {t : ThreadInfo}

structure StopReply where
  letter : Byte
  number : Nat
  registers : List (Nat × List Byte)
  thread : Option Int
  deriving DecidableEq, Repr

/-- A number in hex digits. -/
def readNumber (digits : List Byte) : Option Nat :=
  if digits ≠ [] ∧ ∀ c ∈ digits, isHexDigit c then some (digitsValue digits) else none

/-- Bytes, in two hex digits each. -/
def readBytes : List Byte → Option (List Byte)
  | [] => some []
  | [_] => none
  | a :: b :: rest => (hexPair a b).bind fun x => (readBytes rest).map fun xs => x :: xs

/-- A field `key:value;` and what follows it. -/
def readField (text : List Byte) : Option (List Byte × List Byte × List Byte) :=
  match text.dropWhile (· ≠ ch ':') with
  | [] => none
  | _ :: p =>
    match p.dropWhile (· ≠ ch ';') with
    | [] => none
    | _ :: rest => some (text.takeWhile (· ≠ ch ':'), p.takeWhile (· ≠ ch ';'), rest)

/-- A thread is an `int`, a register is known by its number. -/
def StopReply.add (r : StopReply) (key value : List Byte) : Option StopReply :=
  if key = ascii "thread" then
    (readNumber value).map fun (id : Nat) => { r with thread := some (toInt id) }
  else
    (readNumber key).bind fun regno =>
      (readBytes value).map fun bytes => { r with registers := r.registers ++ [(regno, bytes)] }

/-- The fields up to the end of the reply; `fuel` bounds their number. -/
def readFields : Nat → List Byte → StopReply → Option StopReply
  | 0, text, r => if text = [] then some r else none
  | fuel + 1, text, r =>
    if text = [] then some r
    else
      (readField text).bind fun (key, value, rest) =>
        (r.add key value).bind (readFields fuel rest)

/-- A letter and two digits; `T` has fields behind them. -/
def readStopReply : List Byte → Option StopReply
  | letter :: a :: b :: text =>
    (hexPair a b).bind fun n =>
      let r : StopReply := { letter := letter, number := n.toNat, registers := [], thread := none }
      if letter = ch 'T' then readFields text.length text r
      else if text = [] then some r
      else none
  | _ => none

theorem hexPair_tohex {code : Nat} (h : code < 256) :
    hexPair (tohex (code / 16 % 16)) (tohex (code % 16)) = some (UInt8.ofNat code) := by
  have hhigh := hexDigit_tohex (code / 16 % 16) (Nat.mod_lt _ (by decide))
  have hlow := hexDigit_tohex (code % 16) (Nat.mod_lt _ (by decide))
  have hcode : code / 16 % 16 * 16 + code % 16 = code := by omega
  simp only [hexPair, hhigh, hlow, Option.bind_some, Option.map_some, hcode]

/-- The digits of a byte spell it. -/
theorem hexPair_nibbles (b : Byte) :
    hexPair (tohex (b.toNat / 16)) (tohex (b.toNat % 16)) = some b := by
  have hlt := b.toNat_lt
  have hhigh : b.toNat / 16 % 16 = b.toNat / 16 := by omega
  have hpair := hexPair_tohex hlt
  rwa [hhigh, UInt8.ofNat_toNat] at hpair

theorem convertIntToAscii_cons (b : Byte) (bytes : List Byte) :
    convertIntToAscii (b :: bytes) =
      tohex (b.toNat / 16) :: tohex (b.toNat % 16) :: convertIntToAscii bytes := rfl

theorem readBytes_convertIntToAscii (bytes : List Byte) :
    readBytes (convertIntToAscii bytes) = some bytes := by
  induction bytes with
  | nil => rfl
  | cons b bytes ih =>
    rw [convertIntToAscii_cons, readBytes, hexPair_nibbles, ih]
    rfl

theorem readField_append {key value rest : List Byte} (hkey : ch ':' ∉ key)
    (hvalue : ch ';' ∉ value) :
    readField (key ++ ch ':' :: (value ++ ch ';' :: rest)) = some (key, value, rest) := by
  have hk : ∀ c ∈ key, (decide (c ≠ ch ':')) = true := by
    intro c hc
    exact decide_eq_true fun heq => hkey (heq ▸ hc)
  have hv : ∀ c ∈ value, (decide (c ≠ ch ';')) = true := by
    intro c hc
    exact decide_eq_true fun heq => hvalue (heq ▸ hc)
  have hdropk : (key ++ ch ':' :: (value ++ ch ';' :: rest)).dropWhile (· ≠ ch ':') =
      ch ':' :: (value ++ ch ';' :: rest) := by
    rw [List.dropWhile_append_of_pos hk, List.dropWhile_cons_of_neg (by simp)]
  have hdropv : (value ++ ch ';' :: rest).dropWhile (· ≠ ch ';') = ch ';' :: rest := by
    rw [List.dropWhile_append_of_pos hv, List.dropWhile_cons_of_neg (by simp)]
  have htakek : (key ++ ch ':' :: (value ++ ch ';' :: rest)).takeWhile (· ≠ ch ':') = key := by
    rw [List.takeWhile_append_of_pos hk, List.takeWhile_cons_of_neg (by simp), List.append_nil]
  have htakev : (value ++ ch ';' :: rest).takeWhile (· ≠ ch ';') = value := by
    rw [List.takeWhile_append_of_pos hv, List.takeWhile_cons_of_neg (by simp), List.append_nil]
  simp only [readField, hdropk, hdropv, htakek, htakev]

theorem readFields_cons {fuel : Nat} {key value rest : List Byte} {r r' : StopReply}
    (hkey : ch ':' ∉ key) (hvalue : ch ';' ∉ value) (hadd : r.add key value = some r') :
    readFields (fuel + 1) (key ++ ch ':' :: (value ++ ch ';' :: rest)) r =
      readFields fuel rest r' := by
  have hne : key ++ ch ':' :: (value ++ ch ';' :: rest) ≠ [] := by simp
  simp only [readFields, hne, if_false, readField_append hkey hvalue, Option.bind_some, hadd]

/-- Every character that the server writes for a nibble is a hex digit of this value. -/
theorem tohex_digit {n : Nat} (h : n < 16) :
    digitValue (tohex n) = some n ∧ tohex n ≠ ch ':' ∧ tohex n ≠ ch ';' ∧ tohex n ≠ 0 := by
  have table : ∀ n < 16, digitValue (tohex n) = some n ∧ tohex n ≠ ch ':' ∧ tohex n ≠ ch ';' ∧
      tohex n ≠ 0 := by
    decide +kernel
  exact table n h

/-- What `sprintf("%x")` writes is read back. -/
theorem digitsValue_toDigits (n : Nat) :
    digitsValue ((Nat.toDigits 16 n).map Char.toUInt8) = n ∧
      ∀ c ∈ (Nat.toDigits 16 n).map Char.toUInt8, isHexDigit c := by
  have table : ∀ d < 16, digitValue d.digitChar.toUInt8 = some d := by decide +kernel
  induction n using Nat.strongRecOn with
  | ind n ih =>
    rw [Nat.toDigits_eq_if (by decide)]
    split
    · rename_i hlt
      have hdigit := table n hlt
      constructor
      · simp [digitsValue, hdigit]
      · intro c hc
        rw [List.map_singleton, List.mem_singleton] at hc
        simp [hc, isHexDigit, hdigit]
    · rename_i hge
      have hdigit := table (n % 16) (Nat.mod_lt _ (by decide))
      obtain ⟨hvalue, hall⟩ := ih (n / 16) (Nat.div_lt_self (by omega) (by decide))
      constructor
      · rw [List.map_append, digitsValue, List.foldl_append]
        change ((Nat.toDigits 16 (n / 16)).map Char.toUInt8).foldl
          (fun n c => n * 16 + (digitValue c).getD 0) 0 = n / 16 at hvalue
        rw [hvalue]
        simp only [List.map_singleton, List.foldl_cons, List.foldl_nil, hdigit, Option.getD_some]
        omega
      · intro c hc
        rw [List.map_append, List.mem_append] at hc
        rcases hc with hc | hc
        · exact hall c hc
        · rw [List.map_singleton, List.mem_singleton] at hc
          simp [hc, isHexDigit, hdigit]

theorem toInt_hexText {id : Int} (lower : -2 ^ 31 ≤ id) (upper : id < 2 ^ 31) :
    ∃ n, readNumber (hexText id) = some n ∧ toInt n = id := by
  obtain ⟨hvalue, hall⟩ := digitsValue_toDigits (id % 2 ^ 32).toNat
  have hne : hexText id ≠ [] := by simp [hexText, Nat.toDigits_ne_nil]
  refine ⟨(id % 2 ^ 32).toNat, ?_, ?_⟩
  · rw [readNumber, if_pos ⟨hne, hall⟩]
    exact congrArg some hvalue
  · have hcast : ((id % 2 ^ 32).toNat : Int) = id % 2 ^ 32 :=
      Int.toNat_of_nonneg (Int.emod_nonneg _ (by decide))
    rw [toInt, hcast]
    change (id % ((2 ^ 32 : Nat) : Int)).bmod (2 ^ 32) = id
    rw [Int.emod_bmod]
    exact Int.bmod_eq_of_le (by omega) (by omega)

theorem isHexDigit_tohex {n : Nat} (h : n < 16) : isHexDigit (tohex n) := by
  simp [isHexDigit, (tohex_digit h).1]

theorem isHexDigit_of_mem {bytes : List Byte} {c : Byte} (h : c ∈ convertIntToAscii bytes) :
    isHexDigit c := by
  obtain ⟨b, _, hb⟩ := List.mem_flatMap.mp h
  have hlt := b.toNat_lt
  rcases List.mem_pair.mp hb with rfl | rfl
  · exact isHexDigit_tohex (by omega)
  · exact isHexDigit_tohex (Nat.mod_lt _ (by decide))

theorem isHexDigit_hexText {id : Int} {c : Byte} (h : c ∈ hexText id) : isHexDigit c := by
  unfold hexText at h
  exact (digitsValue_toDigits _).2 c h

/-- A register number of two digits. -/
def registerKey (regno : Nat) : List Byte := [tohex (regno / 16 % 16), tohex (regno % 16)]

theorem isHexDigit_registerKey {regno : Nat} {c : Byte} (h : c ∈ registerKey regno) :
    isHexDigit c := by
  rcases List.mem_pair.mp h with rfl | rfl
  · exact isHexDigit_tohex (Nat.mod_lt _ (by decide))
  · exact isHexDigit_tohex (Nat.mod_lt _ (by decide))

theorem registerField_eq {regno : Nat} (h : regno < 256) (data rest : List Byte) :
    registerField regno data ++ rest =
      registerKey regno ++ ch ':' :: (convertIntToAscii data ++ ch ';' :: rest) := by
  have h4 : ¬ regno / 4096 ≠ 0 := by omega
  have h3 : ¬ regno / 256 ≠ 0 := by omega
  simp [registerField, registerKey, h4, h3]

theorem StopReply.add_register {regno : Nat} (h : regno < 256) (r : StopReply)
    (data : List Byte) :
    r.add (registerKey regno) (convertIntToAscii data) =
      some { r with registers := r.registers ++ [(regno, data)] } := by
  have hkey : registerKey regno ≠ ascii "thread" := by
    intro heq
    have hlen : 2 = 6 := congrArg List.length heq
    cases hlen
  have hvalue : digitsValue (registerKey regno) = regno := by
    have hhigh := (tohex_digit (Nat.mod_lt (regno / 16) (show 16 > 0 by decide))).1
    have hlow := (tohex_digit (Nat.mod_lt regno (show 16 > 0 by decide))).1
    simp only [registerKey, digitsValue, List.foldl_cons, List.foldl_nil, hhigh, hlow,
      Option.getD_some]
    omega
  have hnumber : readNumber (registerKey regno) = some regno := by
    rw [readNumber, if_pos ⟨by simp [registerKey], fun c hc => isHexDigit_registerKey hc⟩, hvalue]
  simp only [StopReply.add, hkey, if_false, hnumber, Option.bind_some,
    readBytes_convertIntToAscii, Option.map_some]

theorem StopReply.add_thread {id : Int} (lower : -2 ^ 31 ≤ id) (upper : id < 2 ^ 31)
    (r : StopReply) : r.add (ascii "thread") (hexText id) = some { r with thread := some id } := by
  obtain ⟨n, hn, hid⟩ := toInt_hexText lower upper
  simp only [StopReply.add, if_true, hn, Option.map_some, hid]

theorem readFields_nil (fuel : Nat) (r : StopReply) : readFields fuel [] r = some r := by
  cases fuel <;> simp [readFields]

/-- The fields of a `T` reply. -/
theorem readFields_expedite {registers : List Byte} {id : Int} (lower : -2 ^ 31 ≤ id)
    (upper : id < 2 ^ 31) {fuel : Nat} (enough : 3 ≤ fuel) (r : StopReply) :
    readFields fuel (registerFields expediteRegsPpc registers ++ ascii "thread:" ++ hexText id ++
        [ch ';']) r =
      some { r with
        registers := r.registers ++ [(1, collectByName (.r 1) registers)] ++
          [(64, collectByName .pc registers)]
        thread := some id } := by
  obtain ⟨fuel, rfl⟩ := Nat.exists_eq_add_of_le' enough
  have hcolon : ∀ {c : Byte}, isHexDigit c → c ≠ ch ':' := fun hc => ne_of_isHexDigit hc (by decide)
  have hsemi : ∀ {c : Byte}, isHexDigit c → c ≠ ch ';' := fun hc => ne_of_isHexDigit hc (by decide)
  have hkey : ∀ regno, ch ':' ∉ registerKey regno := fun regno hc =>
    hcolon (isHexDigit_registerKey hc) rfl
  have hdata : ∀ data, ch ';' ∉ convertIntToAscii data := fun data hc =>
    hsemi (isHexDigit_of_mem hc) rfl
  have hr1 : findRegno (.r 1) = 1 := by decide +kernel
  have hpc : findRegno .pc = 64 := by decide +kernel
  have htext : registerFields expediteRegsPpc registers ++ ascii "thread:" ++ hexText id ++
      [ch ';'] = registerField 1 (collectByName (.r 1) registers) ++
        (registerField 64 (collectByName .pc registers) ++
          (ascii "thread" ++ ch ':' :: (hexText id ++ ch ';' :: []))) := by
    simp only [registerFields, expediteRegsPpc, List.flatMap_cons, List.flatMap_nil, hr1, hpc,
      List.append_nil, List.append_assoc]
    rfl
  rw [htext, registerField_eq (by decide), registerField_eq (by decide),
    readFields_cons (hkey 1) (hdata _) (StopReply.add_register (by decide) r _),
    readFields_cons (hkey 64) (hdata _) (StopReply.add_register (by decide) _ _),
    readFields_cons (by decide) (fun hc => hsemi (isHexDigit_hexText hc) rfl)
      (StopReply.add_thread lower upper _), readFields_nil]

/-- What a stop reply has to say of an event. -/
def StopReply.of (host : Signals.Host) (id : Int) (state : ThreadState) : WaitResult → StopReply
  | .exited code => { letter := ch 'W', number := code.toNat, registers := [], thread := none }
  | .signaled sig =>
    { letter := ch 'X', number := Signals.targetSignalFromHost host sig.toNat, registers := []
      thread := none }
  | .stopped sig =>
    { letter := ch 'T', number := Signals.targetSignalFromHost host sig.toNat
      registers := [(1, state.r1.toList), (64, state.srr0.toList)], thread := some id }
  | .unknown | .failed => { letter := ch '?', number := 0, registers := [], thread := none }

theorem read_resumeReply (k : Kernel σ) (host : Signals.Host) (s : Server σ) {t : ThreadInfo}
    (lower : -2 ^ 31 ≤ t.id) (upper : t.id < 2 ^ 31) :
    let number := Signals.targetSignalFromHost host s.sig.toNat
    let registers := (filled k s.os t).regcache.registers
    readStopReply (resumeReply k host s t) =
      some (if s.status = ch 'T' then
          { letter := s.status, number := number
            registers := [(1, collectByName (.r 1) registers), (64, collectByName .pc registers)]
            thread := some t.id }
        else { letter := s.status, number := number, registers := [], thread := none }) := by
  intro number registers
  have hlt := Signals.targetSignalFromHost_lt host s.sig.toNat
  have hpair : hexPair (tohex (number / 16 % 16)) (tohex (number % 16)) =
      some (UInt8.ofNat number) := hexPair_tohex hlt
  have hnumber : (UInt8.ofNat number).toNat = number := UInt8.toNat_ofNat_of_lt' hlt
  unfold resumeReply
  by_cases hstatus : s.status = ch 'T'
  · have hfields : ∀ text : List Byte, 3 ≤ (text ++ ascii "thread:" ++ hexText t.id ++
        [ch ';']).length := by
      intro text
      have hthread : (ascii "thread:").length = 7 := rfl
      simp only [List.length_append, hthread]
      omega
    simp only [hstatus, if_true, List.cons_append, List.nil_append, readStopReply]
    rw [hpair]
    simp only [Option.bind_some, hnumber]
    rw [readFields_expedite lower upper (hfields _)]
    rfl
  · simp only [hstatus, if_false, readStopReply]
    rw [hpair]
    simp only [Option.bind_some, hnumber, if_true]

/-- A stop reply has no NUL in it. -/
theorem zero_not_mem_resumeReply (k : Kernel σ) (host : Signals.Host) {s : Server σ}
    (t : ThreadInfo) (hstatus : s.status ≠ 0) : 0 ∉ resumeReply k host s t := by
  have hhex : ∀ {c : Byte}, isHexDigit c → c ≠ 0 := fun hc => ne_of_isHexDigit hc (by decide)
  have hdigit : ∀ n, tohex (n % 16) ≠ 0 := fun n => (tohex_digit (Nat.mod_lt n (by decide))).2.2.2
  have hhead : ∀ n m, 0 ∉ [s.status, tohex (n % 16), tohex (m % 16)] := by
    intro n m hmem
    simp only [List.mem_cons, List.not_mem_nil, or_false] at hmem
    rcases hmem with h | h | h
    · exact hstatus h.symm
    · exact hdigit n h.symm
    · exact hdigit m h.symm
  have hfield : ∀ regno data, 0 ∉ registerField regno data := by
    intro regno data hmem
    have hdata : 0 ∉ convertIntToAscii data := zero_not_mem_convertIntToAscii data
    have hopt : ∀ (c : Prop) [Decidable c] (n : Nat),
        0 ∉ if c then [tohex (n % 16)] else [] := by
      intro c _ n hc
      split at hc
      · exact hdigit n (List.mem_singleton.mp hc).symm
      · exact List.not_mem_nil hc
    simp only [registerField, List.mem_append, List.mem_cons, List.not_mem_nil, or_false] at hmem
    rcases hmem with (((h | h) | h | h | h) | h) | h
    · exact hopt _ _ h
    · exact hopt _ _ h
    · exact hdigit _ h.symm
    · exact hdigit _ h.symm
    · exact absurd h (by decide)
    · exact hdata h
    · exact absurd h (by decide)
  unfold resumeReply
  by_cases hT : s.status = ch 'T'
  · rw [if_pos hT]
    intro hmem
    simp only [List.mem_append, List.mem_singleton] at hmem
    rcases hmem with h | ((h | h) | h) | h
    · exact hhead _ _ h
    · obtain ⟨name, _, hname⟩ := List.mem_flatMap.mp h
      exact hfield _ _ hname
    · exact absurd h (by decide)
    · exact hhex (isHexDigit_hexText h) rfl
    · exact absurd h (by decide)
  · rw [if_neg hT]
    exact hhead _ _

/-- What is sent is read where `prepare_resume_reply` has put it. -/
theorem prepareResumeReply_reads_iff (h : Live s t)
    (nodup : (s.allThreads.map ThreadInfo.node).Nodup) (hstatus : s.status ≠ 0)
    {also : Server σ → Prop}
    (halso : also ((s.reported k t).withText (resumeReply k host s t))) (result : StopReply) :
    (∃ s₂, (prepareResumeReply k host).run s = .ok () s₂ ∧
      readStopReply (cstr s₂.ownBuf) = some result ∧ also s₂) ↔
        readStopReply (resumeReply k host s t) = some result := by
  have hrun := prepareResumeReply_run k host h nodup
  have hbuf : cstr ((s.reported k t).withText (resumeReply k host s t)).ownBuf =
      resumeReply k host s t :=
    cstr_append_nul (zero_not_mem_resumeReply k host t hstatus) _
  constructor
  · rintro ⟨s₂, hs₂, hread, _⟩
    rw [hrun] at hs₂
    cases hs₂
    rwa [hbuf] at hread
  · intro hread
    exact ⟨_, hrun, by rwa [hbuf], halso⟩

theorem reported_ne_zero {r : WaitResult} (returned : r ≠ .failed) : r.reported.1 ≠ 0 := by
  cases r with
  | failed => exact absurd rfl returned
  | exited => exact (by decide : ch 'W' ≠ 0)
  | signaled => exact (by decide : ch 'X' ≠ 0)
  | stopped => exact (by decide : ch 'T' ≠ 0)
  | unknown => exact (by decide : ch '?' ≠ 0)

/-- A cache that has not been filled is filled with the thread's state. -/
theorem collect_filled_unfetched (unfetched : t.regcache.valid = false) {os : σ}
    {state : ThreadState} (hget : (k.threadGetState t.port os).1 = some state) (name : RegName)
    (hname : name.isFloat = false) :
    collectByName name (filled k os t).regcache.registers =
      ({ thread := state, float := blankMachine.float } : Machine).get name := by
  have hregisters : (filled k os t).regcache.registers =
      (DarwinPpc.fetchRegisters k t.port t.regcache.registers os).1 := by
    simp [filled, unfetched]
  rw [hregisters]
  exact DarwinPpc.collect_fetchRegisters k hget t.regcache.registers_length hname _

/-- `r1` and `pc` are in the cache as they are in the thread. -/
def Expedites (t : ThreadInfo) (state : ThreadState) : Prop :=
  expediteRegsPpc.map (collectByName · t.regcache.registers) =
    [state.r1.toList, state.srr0.toList]

theorem expedites_iff {state : ThreadState} :
    Expedites t state ↔ collectByName (.r 1) t.regcache.registers = state.r1.toList ∧
      collectByName .pc t.regcache.registers = state.srr0.toList := by
  simp [Expedites, expediteRegsPpc]

/-- The reply shows what the cache has, which is what the thread has if it is filled for it. -/
theorem filled_expedites_iff {os : σ} {state : ThreadState}
    (hget : (k.threadGetState t.port os).1 = some state) :
    Expedites (filled k os t) state ↔ (t.regcache.valid = true → Expedites t state) := by
  cases valid : t.regcache.valid with
  | true =>
    rw [filled_of_valid valid]
    simp
  | false =>
    have hcollect := fun name => collect_filled_unfetched valid hget name
    refine iff_of_true (expedites_iff.mpr ⟨hcollect (.r 1) rfl, hcollect .pc rfl⟩) ?_
    simp

/-- The view that shows the event that is saved. -/
theorem beside_event (k : Kernel σ) :
    Beside k fun s : Server σ => (s.status, s.sig) where
  link _ _ := rfl
  current _ _ := rfl
  chosen _ _ _ _ := rfl
  threadPtr _ _ := rfl
  remoteDebug _ _ := rfl
  sent _ _ := rfl
  probed _ _ := rfl
  interrupted _ _ _ _ := rfl
  read _ _ := withMemory_keeps (fun _ _ _ _ => rfl) _
  written _ _ := withMemory_keeps (fun _ _ _ _ => rfl) _
  inserted _ := withMemory_keeps (fun _ _ _ _ => rfl) _
  removed _ := withMemory_keeps (fun _ _ _ _ => rfl) _

theorem Server.Reports.congr {s s' : Server σ} {result : WaitResult} (h : s.Reports result)
    (same : (s'.status, s'.sig) = (s.status, s.sig)) : s'.Reports result :=
  ⟨h.1, same.trans h.2⟩

theorem kept_event (k : Kernel σ) :
    Kept k (fun s : Server σ => (s.status, s.sig)) fun s => ∃ result, s.Reports result where
  beside := beside_event k
  reported _ _ := rfl
  same := by
    rintro s s' hsame ⟨result, h⟩
    exact ⟨result, h.congr hsame⟩
  fill _ h := h
  supply _ h _ _ _ := h
  resume := by
    rintro rs s s' t - ⟨result, h⟩ step sig - (hsame | hother)
    · exact ⟨result, h.congr hsame⟩
    · exact hother

/-- A wait that returns has an event to report, whichever thread is current. -/
theorem mywait_informs (s : Server σ) (connectedWait : Bool) :
    Proc.Ends (mywait k connectedWait) (fun _ s' => ∃ result, s'.Reports result)
      (fun _ _ => True) s := by
  cases hcurrent : s.currentInferior.bind s.threadAt with
  | some t =>
    have hlive : Live s t := hcurrent
    exact (mywait_reports hlive connectedWait).imp (fun _ _ h => ⟨_, h⟩) fun _ _ _ => trivial
  | none =>
    refine .of_returned fun _ s' hrun => ?_
    have hwait : (darwinWait k).run (s.waiting connectedWait) =
        .error (.fault "current_inferior") (s.waiting connectedWait) := by
      have hcurrent' : (s.waiting connectedWait).currentInferior.bind
          (s.waiting connectedWait).threadAt = none := hcurrent
      simp [darwinWait, derefCurrent, hcurrent']
    rw [mywait_run, EStateM.run_bind, hwait] at hrun
    cases hrun

theorem startInferior_informs (s : Server σ) :
    Proc.Ends (startInferior k) (fun _ s' => ∃ result, s'.Reports result) (fun _ _ => True) s := by
  rw [startInferior, Proc.Ends.bind_iff]
  refine .of_forall (fun pid s₁ => ?_) fun _ _ => trivial
  rw [Proc.Ends.bind_iff, Proc.Ends.modify_iff]
  exact mywait_informs _ false

theorem attachInferior_informs (pid : Int) (s : Server σ) :
    Proc.Ends (attachInferior k pid)
      (fun result s' => 0 ≤ result → ∃ result, s'.Reports result) (fun _ _ => True) s := by
  rw [attachInferior, Proc.Ends.bind_iff]
  refine .of_forall (fun result s₁ => ?_) fun _ _ => trivial
  split
  · simp
  · rw [Proc.Ends.bind_iff, Proc.Ends.modify_iff, Proc.Ends.bind_iff]
    exact (mywait_informs _ false).imp (fun _ _ h _ => h) fun _ _ _ => trivial

/-- The event of the run to the entry point comes before the breakpoint is deleted. -/
theorem runToEntryPoint_informs (ep : Int) (informed : ∃ result, s.Reports result) :
    Proc.Ends (runToEntryPoint k ep) (fun _ s' => ∃ result, s'.Reports result)
      (fun _ _ => True) s := by
  unfold runToEntryPoint
  split
  · exact informed
  · simp only [Proc.Ends.bind_iff]
    refine .of_forall (fun _ s₂ => .of_forall (fun _ s₃ => ?_) fun _ _ => trivial)
      fun _ _ => trivial
    refine (mywait_informs s₃ false).imp (fun _ s₄ h₄ => ?_) fun _ _ _ => trivial
    refine (((beside_event k).removed ep).ends s₄).imp (fun _ _ hsame => ?_) fun _ _ _ => trivial
    exact (kept_event k).same hsame h₄

theorem prepareInferior_informs (ep pid : Int) (s : Server σ) :
    Proc.Ends (prepareInferior k ep pid) (fun _ s' => ∃ result, s'.Reports result)
      (fun _ _ => True) s := by
  rw [prepareInferior, Proc.Ends.bind_iff, Proc.Ends.get_iff]
  split
  · rw [Proc.Ends.bind_iff]
    refine (attachInferior_informs pid s).imp (fun result s₁ h₁ => ?_) fun _ _ _ => trivial
    split
    · trivial
    · rename_i hresult
      exact h₁ (Int.not_lt.mp hresult)
  · rw [Proc.Ends.bind_iff]
    exact (startInferior_informs s).imp (fun _ s₁ h₁ => runToEntryPoint_informs ep h₁)
      fun _ _ _ => trivial

/-- Whenever a packet comes there is an event to report. -/
theorem Reachable.reports (reachable : Reachable k host s) : ∃ result, s.Reports result := by
  induction reachable with
  | start ep pid fresh prepared => exact (prepareInferior_informs ep pid _).returned prepared
  | turn before again ih =>
    obtain ⟨rs, t, h⟩ := before.serving
    exact (kept_event k).next h ih (.served again)
  | jump before jumped ih =>
    obtain ⟨rs, t, h⟩ := before.serving
    exact (kept_event k).next h ih (.failed jumped)

/-- For every event that the server has saved and whatever the cache holds, the stop reply is
read back as the event, and the current thread selected, just if an exit code happens to be a
signal number that stays the same in the protocol, and a cache that is valid has `r1` and `pc`
from the thread. -/
theorem stop_reply_iff (h : Live s t) (nodup : (s.allThreads.map ThreadInfo.node).Nodup)
    (lower : -2 ^ 31 ≤ t.id) (upper : t.id < 2 ^ 31) {result : WaitResult}
    (last : s.Reports result) {state : ThreadState}
    (read : ∀ sig, result = .stopped sig → (k.threadGetState t.port s.os).1 = some state) :
    (∃ s₂, (prepareResumeReply k host).run s = .ok () s₂ ∧
        readStopReply (cstr s₂.ownBuf) = some (.of host t.id state result) ∧
        ∀ sig, result = .stopped sig → s₂.generalThread = t.id) ↔
      (∀ code, result = .exited code →
        Signals.targetSignalFromHost host code.toNat = code.toNat) ∧
      ∀ sig, result = .stopped sig → t.regcache.valid = true → Expedites t state := by
  obtain ⟨hreturned, hreported⟩ := last
  have hletter : s.status = result.reported.1 := congrArg Prod.fst hreported
  have hsig : s.sig = result.reported.2 := congrArg Prod.snd hreported
  have hstatus : s.status ≠ 0 := hletter ▸ reported_ne_zero hreturned
  have hgeneral : ∀ sig, result = .stopped sig →
      ((s.reported k t).withText (resumeReply k host s t)).generalThread = t.id := by
    rintro sig rfl
    have hT : s.status = ch 'T' := hletter
    rw [Server.reported, if_pos hT]
    rfl
  rw [prepareResumeReply_reads_iff h nodup hstatus hgeneral,
    read_resumeReply k host s lower upper, Option.some.injEq]
  cases result with
  | failed => exact absurd rfl hreturned
  | exited code =>
    have hnotT : s.status ≠ ch 'T' := hletter ▸ (by decide : ch 'W' ≠ ch 'T')
    rw [if_neg hnotT, hletter, hsig]
    simp [WaitResult.reported, StopReply.of]
  | signaled sig =>
    have hnotT : s.status ≠ ch 'T' := hletter ▸ (by decide : ch 'X' ≠ ch 'T')
    rw [if_neg hnotT, hletter, hsig]
    simp [WaitResult.reported, StopReply.of]
  | stopped sig =>
    have hT : s.status = ch 'T' := hletter
    have hshown := filled_expedites_iff (read sig rfl)
    rw [if_pos hT, hT, hsig]
    simpa [WaitResult.reported, StopReply.of, expedites_iff] using hshown
  | unknown =>
    have hnotT : s.status ≠ ch 'T' := hletter ▸ (by decide : ch '?' ≠ ch 'T')
    rw [if_neg hnotT, hletter, hsig]
    simp [WaitResult.reported, StopReply.of, Signals.targetSignalFromHost, Signals.targetSignal0]

/-- The client asks again about the first stop of the process that was launched. -/
theorem stop_reply_iff_trap :
    let s := Proc.final ((mywait singleThread true).run
      ({ oneInferior with currentTask := some 1 } : Server Machine))
    (∃ s₂, (prepareResumeReply singleThread Signals.darwin).run s = .ok () s₂ ∧
        readStopReply (cstr s₂.ownBuf) =
          some (.of Signals.darwin inferior.id blankMachine.thread (.stopped 5)) ∧
        ∀ sig, (.stopped 5 : WaitResult) = .stopped sig → s₂.generalThread = inferior.id) ↔
      (∀ code, (.stopped 5 : WaitResult) = .exited code →
        Signals.targetSignalFromHost Signals.darwin code.toNat = code.toNat) ∧
      ∀ sig, (.stopped 5 : WaitResult) = .stopped sig → inferior.regcache.valid = true →
        Expedites inferior blankMachine.thread := by
  intro s
  exact stop_reply_iff (k := singleThread) (s := s) (t := inferior) rfl (by decide) (by decide)
    (by decide) ⟨by simp, rfl⟩ fun _ _ => rfl

/-- The process exits with code 100, which is no signal of the host: the reply is `W8f`. -/
theorem not_stop_reply_exit :
    let k : Kernel Machine := { singleThread with waitpid := fun _ m => (.exited 100, m) }
    ∃ s₁ s₂, (mywait k true).run oneInferior = .ok () s₁ ∧
      (prepareResumeReply k Signals.darwin).run s₁ = .ok () s₂ ∧
      readStopReply (cstr s₂.ownBuf) ≠
        some (.of Signals.darwin inferior.id blankMachine.thread (.exited 100)) ∧
      cstr s₂.ownBuf = ascii "W8f" := by
  refine ⟨_, _, rfl, rfl, ?_, ?_⟩
  · decide +kernel
  · decide +kernel

end Gdbserver
