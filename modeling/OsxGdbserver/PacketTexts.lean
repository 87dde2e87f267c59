import OsxGdbserver.ResumePaths

/-!
# What the decoders read of a packet

A packet in `own_buf` ends at its NUL, and what lies behind is left over from longer
packets and replies. A decoder that starts inside the packet stops at the NUL.
-/

namespace Gdbserver

open Remote CString Ppc

variable {host : Signals.Host}

theorem decodeField_nul {stop : Byte} (hstop : stop ≠ 0) (w : Nat) (text : List Byte)
    (value : Nat) :
    ∃ r : Option (Nat × List Byte), ∀ stale, decodeField stop w (text ++ 0 :: stale) value =
      r.map fun (n, q) => (n, q ++ 0 :: stale) := by
  induction text generalizing value with
  | nil =>
    refine ⟨none, fun stale => ?_⟩
    rw [List.nil_append, decodeField, if_neg (Ne.symm hstop), hexDigit_zero]
    rfl
  | cons c text ih =>
    by_cases hc : c = stop
    · refine ⟨some (value, text), fun stale => ?_⟩
      rw [List.cons_append, decodeField, if_pos hc]
      rfl
    · cases hnib : hexDigit c with
      | none =>
        refine ⟨none, fun stale => ?_⟩
        rw [List.cons_append, decodeField, if_neg hc, hnib]
        rfl
      | some nib =>
        obtain ⟨r, hr⟩ := ih ((value * 16 + nib) % 2 ^ w)
        refine ⟨r, fun stale => ?_⟩
        rw [List.cons_append, decodeField, if_neg hc, hnib, ← hr stale]
        rfl

theorem decodeLength_nul (j : Nat) (text : List Byte) (len : Nat) (stale stale' : List Byte) :
    decodeLength j (text ++ 0 :: stale) len = decodeLength j (text ++ 0 :: stale') len := by
  induction j generalizing text len with
  | zero => rfl
  | succ j ih =>
    cases text with
    | nil => rfl
    | cons c text =>
      simp only [decodeLength, List.cons_append, deref, List.headD_cons, List.tail_cons]
      congr 2
      funext nib
      exact ih text _

theorem decodeReadPacket_nul (text stale stale' : List Byte) :
    decodeReadPacket (text ++ 0 :: stale) = decodeReadPacket (text ++ 0 :: stale') := by
  obtain ⟨r, hr⟩ := decodeField_nul (show ch ',' ≠ 0 by decide) 64 text 0
  unfold decodeReadPacket
  rw [hr stale, hr stale']
  cases r with
  | none => rfl
  | some field =>
    simp only [Option.map_some, Option.bind_some]
    rw [decodeLength_nul 4 field.2 0 stale stale']

theorem convertAsciiToInt_nul (n : Nat) (text stale stale' : List Byte) :
    convertAsciiToInt (text ++ 0 :: stale) n = convertAsciiToInt (text ++ 0 :: stale') n := by
  induction n generalizing text with
  | zero => rfl
  | succ n ih =>
    rcases text with _ | ⟨a, _ | ⟨b, text⟩⟩
    · simp [convertAsciiToInt, hexPair, deref, hexDigit_zero]
    · simp [convertAsciiToInt, hexPair, deref, hexDigit_zero]
    · have hrest := ih text
      simp [convertAsciiToInt, deref, hrest]

theorem decodeWritePacket_nul (text stale stale' : List Byte) :
    decodeWritePacket (text ++ 0 :: stale) = decodeWritePacket (text ++ 0 :: stale') := by
  obtain ⟨r, hr⟩ := decodeField_nul (show ch ',' ≠ 0 by decide) 64 text 0
  unfold decodeWritePacket
  rw [hr stale, hr stale']
  cases r with
  | none => rfl
  | some field =>
    obtain ⟨r', hr'⟩ := decodeField_nul (show ch ':' ≠ 0 by decide) 32 field.2 0
    simp only [Option.map_some, Option.bind_some]
    rw [hr' stale, hr' stale']
    cases r' with
    | none => rfl
    | some field' =>
      simp only [Option.map_some]
      rw [convertAsciiToInt_nul field'.1 field'.2 stale stale']

theorem deref_nul (text stale : List Byte) : deref (text ++ 0 :: stale) = deref text := by
  cases text <;> rfl

/-- One round of the parsing loop of `handle_v_cont`: the entries and the default action
after it, and the pointer. -/
def actionRound (host : Signals.Host) (p : List Byte) (entries : List ThreadResume)
    (action : ThreadResume) : Option (List ThreadResume × ThreadResume × List Byte) :=
  (parseAction host p.tail).bind fun (step, sig, q) =>
    let entry : ThreadResume := { thread := -1, step := step, sig := sig, leaveStopped := false }
    if deref q = 0 then some (entries, entry, q)
    else if deref q = ch ':' then
      let (thread, r) := strtol q.tail
      if r.length = q.length then none
      else if deref r ≠ ch ';' ∧ deref r ≠ 0 then none
      else some (entries ++ [{ entry with thread := thread }], action, r)
    else some (entries, action, q)

theorem parseActions_succ (fuel : Nat) (p : List Byte) (entries : List ThreadResume)
    (action : ThreadResume) :
    parseActions host (fuel + 1) p entries action =
      if deref p = 0 then some (entries, action)
      else (actionRound host p entries action).bind fun (entries, action, q) =>
        parseActions host fuel q entries action := by
  rw [parseActions, actionRound]
  split
  · rfl
  · cases parseAction host p.tail with
    | none => rfl
    | some parsed =>
      obtain ⟨step, sig, q⟩ := parsed
      simp only [Option.bind_some]
      split
      · rfl
      · split
        · split
          · rfl
          · split <;> rfl
        · rfl

/-- A digit as `fromhex` takes it: no upper case. -/
def LowerHex (c : Byte) : Prop := (hexDigit c).isSome

instance (c : Byte) : Decidable (LowerHex c) :=
  inferInstanceAs (Decidable ((hexDigit c).isSome = true))

/-- The bytes that the pairs at the start of a text spell, up to the first that is none. -/
def leadingBytes : List Byte → List Byte
  | a :: b :: text =>
    match hexPair a b with
    | some v => v :: leadingBytes text
    | none => []
  | _ => []

theorem hexPair_isSome (a b : Byte) : (hexPair a b).isSome ↔ LowerHex a ∧ LowerHex b := by
  unfold hexPair LowerHex
  cases hexDigit a with
  | none => simp
  | some nib1 => cases hexDigit b <;> simp

theorem hexPair_eq_none {a b : Byte} : hexPair a b = none ↔ ¬ (LowerHex a ∧ LowerHex b) := by
  rw [← hexPair_isSome, Option.not_isSome_iff_eq_none]

theorem not_lowerHex_zero : ¬ LowerHex 0 := by
  unfold LowerHex
  rw [hexDigit_zero]
  exact Bool.false_ne_true

theorem leadingBytes_length (text : List Byte) : 2 * (leadingBytes text).length ≤ text.length := by
  induction text using leadingBytes.induct with
  | case1 a b text v hpair ih =>
    simp only [leadingBytes, hpair, List.length_cons]
    omega
  | case2 a b text hpair => simp [leadingBytes, hpair]
  | case3 text hshort =>
    unfold leadingBytes
    split
    · exact absurd rfl (hshort _ _ _)
    · simp

/-- `convert_ascii_to_int` stores what the pairs spell, as far as they do. -/
theorem convertAsciiToInt_eq (p : List Byte) (n : Nat) :
    convertAsciiToInt p n = (leadingBytes (p.take (2 * n)),
      decide ((leadingBytes (p.take (2 * n))).length = n)) := by
  induction n generalizing p with
  | zero => rfl
  | succ n ih =>
    have hshort : ∀ {a b : Byte}, b = 0 → hexPair a b = none := by
      rintro a b rfl
      exact hexPair_eq_none.mpr fun hboth => not_lowerHex_zero hboth.2
    rcases p with _ | ⟨a, _ | ⟨b, p⟩⟩
    · simp [convertAsciiToInt, deref, hshort, leadingBytes]
    · simp [convertAsciiToInt, deref, hshort, leadingBytes, Nat.mul_succ]
    · rw [Nat.mul_succ, List.take_succ_cons, List.take_succ_cons]
      cases hpair : hexPair a b with
      | none => simp [convertAsciiToInt, deref, leadingBytes, hpair]
      | some v => simp [convertAsciiToInt, deref, leadingBytes, hpair, ih p]

/-- All pairs spell a byte just if all characters are digits. -/
theorem leadingBytes_length_eq_iff {text : List Byte} {n : Nat} (hlen : text.length = 2 * n) :
    (leadingBytes text).length = n ↔ ∀ c ∈ text, LowerHex c := by
  induction n generalizing text with
  | zero =>
    rw [List.length_eq_zero_iff.mp hlen]
    simp [leadingBytes]
  | succ n ih =>
    rcases text with _ | ⟨a, _ | ⟨b, text⟩⟩
    · simp at hlen
    · simp only [List.length_cons, List.length_nil] at hlen
      omega
    · simp only [List.length_cons] at hlen
      have hrest := ih (show text.length = 2 * n by omega)
      simp only [leadingBytes, List.forall_mem_cons, ← hrest]
      cases hpair : hexPair a b with
      | none =>
        have hbad := hexPair_eq_none.mp hpair
        constructor
        · intro hzero
          cases hzero
        · exact fun hall => absurd ⟨hall.1, hall.2.1⟩ hbad
      | some v =>
        have hgood := (hexPair_isSome a b).mp (by rw [hpair]; rfl)
        simp only [List.length_cons, Nat.add_right_cancel_iff]
        exact ⟨fun h => ⟨hgood.1, hgood.2, h⟩, fun h => h.2.2⟩

end Gdbserver
