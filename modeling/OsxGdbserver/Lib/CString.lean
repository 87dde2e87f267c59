import Mathlib.Tactic.Common
import Mathlib.Data.List.Induction
import Mathlib.Data.UInt

/-!
# C strings and their numbers

A pointer into a string is the rest of the buffer from there on; what lies after the
first NUL does not belong to the string. `scanNumber` is what `strtol` and `strtoul`
have in common in base 16; both take a 32-bit `long`.
-/

namespace CString

/-- The string at the start of the buffer, without its NUL. -/
def cstr (buf : List UInt8) : List UInt8 := buf.takeWhile (· ≠ 0)

/-- `*p`, where the buffer is NUL from its end on. -/
def deref (p : List UInt8) : UInt8 := p.headD 0

/-- `strchr` for a character other than NUL. -/
def strchr (c : UInt8) : List UInt8 → Option (List UInt8)
  | [] => none
  | b :: rest => if b = c then some (b :: rest) else if b = 0 then none else strchr c rest

def isSpace (c : UInt8) : Bool := c = 0x20 || (0x09 ≤ c && c ≤ 0x0d)

def digitValue (c : UInt8) : Option Nat :=
  if 0x30 ≤ c ∧ c ≤ 0x39 then some (c.toNat - 0x30)
  else if 0x61 ≤ c ∧ c ≤ 0x66 then some (c.toNat - 0x61 + 10)
  else if 0x41 ≤ c ∧ c ≤ 0x46 then some (c.toNat - 0x41 + 10)
  else none

def isHexDigit (c : UInt8) : Bool := (digitValue c).isSome

def digitsValue (digits : List UInt8) : Nat :=
  digits.foldl (fun n c => n * 16 + (digitValue c).getD 0) 0

/-- The sign, and the rest after it. -/
def scanSign : List UInt8 → Bool × List UInt8
  | 0x2d :: rest => (true, rest)
  | 0x2b :: rest => (false, rest)
  | text => (false, text)

/-- The text after a `0x` that a digit follows. -/
def skipRadix : List UInt8 → List UInt8
  | 0x30 :: x :: d :: rest =>
    if (x = 0x78 ∨ x = 0x58) ∧ isHexDigit d then d :: rest else 0x30 :: x :: d :: rest
  | text => text

/-- The sign and magnitude of the number at `p`, and the end pointer. -/
def scanNumber (p : List UInt8) : Bool × Nat × List UInt8 :=
  let (negative, q) := scanSign (p.dropWhile isSpace)
  let digits := (skipRadix q).takeWhile isHexDigit
  if digits = [] then (false, 0, p)
  else (negative, digitsValue digits, (skipRadix q).drop digits.length)

/-- `strtol(p, &q, 16)`: the value, saturated, and `q`. -/
def strtol (p : List UInt8) : Int × List UInt8 :=
  let (negative, magnitude, q) := scanNumber p
  (if negative then max (-2 ^ 31) (-magnitude) else min (2 ^ 31 - 1) magnitude, q)

/-- `strtoul(p, &q, 16)`: a sign negates in `unsigned long`. -/
def strtoul (p : List UInt8) : Nat × List UInt8 :=
  let (negative, magnitude, q) := scanNumber p
  (if magnitude ≥ 2 ^ 32 then 2 ^ 32 - 1
    else if negative then (2 ^ 32 - magnitude) % 2 ^ 32 else magnitude, q)

/-- `sprintf("%x", n)` for an `int`. -/
def hexText (n : Int) : List UInt8 :=
  (Nat.toDigits 16 (n % 2 ^ 32).toNat).map Char.toUInt8

/-- What stands behind the NUL is no part of the string. -/
theorem cstr_stored (text stale : List UInt8) : cstr (text ++ 0 :: stale) = cstr text := by
  induction text with
  | nil => rfl
  | cons c text ih =>
    by_cases hc : c = 0
    · simp [cstr, hc]
    · simpa [cstr, hc] using ih

theorem cstr_append_nul {text : List UInt8} (h : 0 ∉ text) (stale : List UInt8) :
    cstr (text ++ 0 :: stale) = text := by
  have hall : ∀ c ∈ text, decide (c ≠ 0) = true := fun c hc =>
    decide_eq_true fun hzero => h (hzero ▸ hc)
  rw [cstr_stored, cstr, ← List.append_nil text, List.takeWhile_append_of_pos hall]
  rfl

theorem cstr_length_le (buf : List UInt8) : (cstr buf).length ≤ buf.length :=
  (List.takeWhile_prefix _).length_le

/-- Stored with its NUL, a text is read back at most. -/
theorem cstr_stored_length_le (text stale : List UInt8) :
    (cstr (text ++ 0 :: stale)).length ≤ text.length := by
  rw [cstr_stored]
  exact cstr_length_le text

theorem hexText_length (n : Int) : (hexText n).length ≤ 8 := by
  have hn : (n % 2 ^ 32).toNat < 16 ^ 8 := by omega
  rw [hexText, List.length_map]
  exact (Nat.length_toDigits_le_iff (by omega) (by omega)).mpr hn

theorem digit_range {c : UInt8} (h : isHexDigit c) :
    48 ≤ c.toNat ∧ c.toNat ≤ 57 ∨ 97 ≤ c.toNat ∧ c.toNat ≤ 102 ∨
      65 ≤ c.toNat ∧ c.toNat ≤ 70 := by
  unfold isHexDigit digitValue at h
  split at h
  · exact Or.inl ‹_›
  · split at h
    · exact Or.inr (Or.inl ‹_›)
    · split at h
      · exact Or.inr (Or.inr ‹_›)
      · cases h

theorem ne_of_isHexDigit {c d : UInt8} (hc : isHexDigit c) (hd : isHexDigit d = false) :
    c ≠ d := by
  rintro rfl
  exact Bool.false_ne_true (hd.symm.trans hc)

theorem isSpace_eq_false {c : UInt8} (h : 48 ≤ c.toNat) : isSpace c = false := by
  have hblank : c ≠ 0x20 := by
    rintro rfl
    revert h
    decide
  have hctrl : ¬ c ≤ 0x0d := fun hle => absurd (show c.toNat ≤ 13 from hle) (by omega)
  simp [isSpace, hblank, hctrl]

theorem scanSign_digit {c : UInt8} {text : List UInt8} (h : 48 ≤ c.toNat) :
    scanSign (c :: text) = (false, c :: text) := by
  unfold scanSign
  split
  · rename_i heq
    cases heq
    exact absurd h (by decide)
  · rename_i heq
    cases heq
    exact absurd h (by decide)
  · rfl

/-- No radix is skipped where no `x` stands behind the first digit. -/
theorem skipRadix_of_ne {c : UInt8} {text : List UInt8}
    (h : deref text ≠ 0x78 ∧ deref text ≠ 0x58) : skipRadix (c :: text) = c :: text := by
  unfold skipRadix
  split
  · rename_i x d rest heq
    cases heq
    have hx : ¬ (x = 0x78 ∨ x = 0x58) := fun hx => hx.elim h.1 h.2
    rw [if_neg fun hboth => hx hboth.1]
  · rfl

/-- Digits that end before something that continues no number: the radix and the digits. -/
theorem skipRadix_digits {digits rest : List UInt8} (hne : digits ≠ [])
    (hd : ∀ c ∈ digits, isHexDigit c) (hrest : isHexDigit (deref rest) = false)
    (hx : deref rest ≠ 0x78 ∧ deref rest ≠ 0x58) :
    skipRadix (digits ++ rest) = digits ++ rest ∧
      (digits ++ rest).takeWhile isHexDigit = digits := by
  obtain ⟨c, ds, rfl⟩ := List.exists_cons_of_ne_nil hne
  have hnext : deref (ds ++ rest) ≠ 0x78 ∧ deref (ds ++ rest) ≠ 0x58 := by
    cases ds with
    | nil => exact hx
    | cons d ds =>
      have hdigit : isHexDigit d := hd d (by simp)
      constructor
      · rintro heq
        rw [show d = 0x78 from heq] at hdigit
        revert hdigit
        decide
      · rintro heq
        rw [show d = 0x58 from heq] at hdigit
        revert hdigit
        decide
  have hstop : rest.takeWhile isHexDigit = [] := by
    cases rest with
    | nil => rfl
    | cons r rest => simp [show isHexDigit r = false from hrest]
  constructor
  · exact skipRadix_of_ne hnext
  · rw [List.takeWhile_append_of_pos hd, hstop, List.append_nil]

theorem scanNumber_digits {digits rest : List UInt8} (hne : digits ≠ [])
    (hd : ∀ c ∈ digits, isHexDigit c) (hrest : isHexDigit (deref rest) = false)
    (hx : deref rest ≠ 0x78 ∧ deref rest ≠ 0x58) :
    scanNumber (digits ++ rest) = (false, digitsValue digits, rest) := by
  obtain ⟨hradix, htake⟩ := skipRadix_digits hne hd hrest hx
  obtain ⟨c, ds, rfl⟩ := List.exists_cons_of_ne_nil hne
  have hc : 48 ≤ c.toNat := by
    have := digit_range (hd c List.mem_cons_self)
    omega
  have hdrop : ((c :: ds) ++ rest).dropWhile isSpace = (c :: ds) ++ rest :=
    List.dropWhile_cons_of_neg (by simp [isSpace_eq_false hc])
  have hsign : scanSign ((c :: ds) ++ rest) = (false, (c :: ds) ++ rest) := scanSign_digit hc
  simp only [scanNumber, hdrop, hsign, hradix, htake]
  simp

/-- The same behind a minus sign. -/
theorem scanNumber_negative {digits rest : List UInt8} (hne : digits ≠ [])
    (hd : ∀ c ∈ digits, isHexDigit c) (hrest : isHexDigit (deref rest) = false)
    (hx : deref rest ≠ 0x78 ∧ deref rest ≠ 0x58) :
    scanNumber (0x2d :: (digits ++ rest)) = (true, digitsValue digits, rest) := by
  obtain ⟨hradix, htake⟩ := skipRadix_digits hne hd hrest hx
  have hsign : scanSign (0x2d :: (digits ++ rest)) = (true, digits ++ rest) := rfl
  have hdrop : (0x2d :: (digits ++ rest)).dropWhile isSpace = 0x2d :: (digits ++ rest) := rfl
  simp only [scanNumber, hdrop, hsign, hradix, htake, hne, if_false]
  simp

/-- A number too large for a `long` is read as the largest one. -/
theorem strtol_digits_saturated {digits rest : List UInt8} (hne : digits ≠ [])
    (hd : ∀ c ∈ digits, isHexDigit c) (hrest : isHexDigit (deref rest) = false)
    (hx : deref rest ≠ 0x78 ∧ deref rest ≠ 0x58) :
    strtol (digits ++ rest) = (min (2 ^ 31 - 1) (digitsValue digits : Int), rest) := by
  simp only [strtol, scanNumber_digits hne hd hrest hx, Bool.false_eq_true, if_false]

/-- `strtol` on such digits, of a number that fits a `long`. -/
theorem strtol_digits {digits rest : List UInt8} (hne : digits ≠ [])
    (hd : ∀ c ∈ digits, isHexDigit c) (hrest : isHexDigit (deref rest) = false)
    (hx : deref rest ≠ 0x78 ∧ deref rest ≠ 0x58) (hlt : digitsValue digits < 2 ^ 31) :
    strtol (digits ++ rest) = ((digitsValue digits : Int), rest) := by
  rw [strtol_digits_saturated hne hd hrest hx, Prod.mk.injEq]
  exact ⟨by omega, rfl⟩

/-- `strtoul` on such digits, of a number that fits an `unsigned long`. -/
theorem strtoul_digits {digits rest : List UInt8} (hne : digits ≠ [])
    (hd : ∀ c ∈ digits, isHexDigit c) (hrest : isHexDigit (deref rest) = false)
    (hx : deref rest ≠ 0x78 ∧ deref rest ≠ 0x58) (hlt : digitsValue digits < 2 ^ 32) :
    strtoul (digits ++ rest) = (digitsValue digits, rest) := by
  have hfits : ¬ digitsValue digits ≥ 2 ^ 32 := by omega
  simp only [strtoul, scanNumber_digits hne hd hrest hx, if_neg hfits, Bool.false_eq_true, if_false]

theorem dropWhile_isSpace_nul (text stale : List UInt8) :
    (text ++ 0 :: stale).dropWhile isSpace = text.dropWhile isSpace ++ 0 :: stale := by
  induction text with
  | nil => rfl
  | cons c text ih =>
    cases hc : isSpace c with
    | true => simpa [hc] using ih
    | false => simp [hc]

theorem takeWhile_isHexDigit_nul (text stale : List UInt8) :
    (text ++ 0 :: stale).takeWhile isHexDigit = text.takeWhile isHexDigit := by
  induction text with
  | nil => rfl
  | cons c text ih =>
    cases hc : isHexDigit c with
    | true => simpa [hc] using ih
    | false => simp [hc]

theorem scanSign_nul (text : List UInt8) :
    ∃ negative rest, rest <:+ text ∧
      ∀ stale, scanSign (text ++ 0 :: stale) = (negative, rest ++ 0 :: stale) := by
  cases text with
  | nil => exact ⟨false, [], List.suffix_rfl, fun _ => rfl⟩
  | cons c text =>
    by_cases hminus : c = 0x2d
    · subst hminus
      exact ⟨true, text, List.suffix_cons _ _, fun _ => rfl⟩
    · by_cases hplus : c = 0x2b
      · subst hplus
        exact ⟨false, text, List.suffix_cons _ _, fun _ => rfl⟩
      · refine ⟨false, c :: text, List.suffix_rfl, fun stale => ?_⟩
        unfold scanSign
        split
        · rename_i heq
          exact absurd (List.cons.inj heq).1 hminus
        · rename_i heq
          exact absurd (List.cons.inj heq).1 hplus
        · rfl

theorem skipRadix_nul (text : List UInt8) :
    ∃ rest, rest <:+ text ∧ ∀ stale, skipRadix (text ++ 0 :: stale) = rest ++ 0 :: stale := by
  rcases text with _ | ⟨a, _ | ⟨x, _ | ⟨d, text⟩⟩⟩
  · exact ⟨[], List.suffix_rfl, fun _ => rfl⟩
  · have hnul : (0 : UInt8) ≠ 0x78 ∧ (0 : UInt8) ≠ 0x58 := by decide
    exact ⟨[a], List.suffix_rfl, fun _ => skipRadix_of_ne hnul⟩
  · refine ⟨[a, x], List.suffix_rfl, fun stale => ?_⟩
    unfold skipRadix
    split
    · rename_i heq
      cases heq
      rw [if_neg fun hboth => absurd hboth.2 (by decide)]
      rfl
    · rfl
  · by_cases hradix : a = 0x30 ∧ (x = 0x78 ∨ x = 0x58) ∧ isHexDigit d
    · obtain ⟨rfl, hx, hd⟩ := hradix
      exact ⟨d :: text, ⟨[0x30, x], rfl⟩, fun stale => if_pos ⟨hx, hd⟩⟩
    · refine ⟨a :: x :: d :: text, List.suffix_rfl, fun stale => ?_⟩
      unfold skipRadix
      split
      · rename_i heq
        cases heq
        rw [if_neg fun hboth => hradix ⟨rfl, hboth⟩]
        rfl
      · rfl

/-- A number is read from the string alone, and its end pointer points into the string. -/
theorem scanNumber_nul (text : List UInt8) :
    ∃ negative magnitude q, q <:+ text ∧
      ∀ stale, scanNumber (text ++ 0 :: stale) = (negative, magnitude, q ++ 0 :: stale) := by
  obtain ⟨negative, q, hq, hsign⟩ := scanSign_nul (text.dropWhile isSpace)
  obtain ⟨rest, hrest, hradix⟩ := skipRadix_nul q
  have hscan : ∀ stale, scanNumber (text ++ 0 :: stale) =
      if rest.takeWhile isHexDigit = [] then (false, 0, text ++ 0 :: stale)
      else (negative, digitsValue (rest.takeWhile isHexDigit),
        (rest ++ 0 :: stale).drop (rest.takeWhile isHexDigit).length) := by
    intro stale
    simp only [scanNumber, dropWhile_isSpace_nul, hsign, hradix, takeWhile_isHexDigit_nul]
  by_cases hdigits : rest.takeWhile isHexDigit = []
  · refine ⟨false, 0, text, List.suffix_rfl, fun stale => ?_⟩
    rw [hscan, if_pos hdigits]
  · have hlength : (rest.takeWhile isHexDigit).length ≤ rest.length :=
      (List.takeWhile_prefix _).length_le
    have hsuffix : rest.drop (rest.takeWhile isHexDigit).length <:+ text :=
      (List.drop_suffix _ _).trans (hrest.trans (hq.trans (List.dropWhile_suffix _)))
    refine ⟨negative, digitsValue (rest.takeWhile isHexDigit), _, hsuffix, fun stale => ?_⟩
    rw [hscan, if_neg hdigits, List.drop_append_of_le_length hlength]

theorem strtol_ends (text : List UInt8) :
    ∃ n q, q <:+ text ∧ ∀ stale, strtol (text ++ 0 :: stale) = (n, q ++ 0 :: stale) := by
  obtain ⟨negative, magnitude, q, hq, h⟩ := scanNumber_nul text
  exact ⟨if negative then max (-2 ^ 31) (-magnitude) else min (2 ^ 31 - 1) magnitude, q, hq,
    fun stale => by simp only [strtol, h]⟩

theorem strtol_nul (text stale stale' : List UInt8) :
    (strtol (text ++ 0 :: stale)).1 = (strtol (text ++ 0 :: stale')).1 := by
  obtain ⟨n, q, -, h⟩ := strtol_ends text
  rw [h, h]

theorem strtoul_nul (text stale stale' : List UInt8) :
    (strtoul (text ++ 0 :: stale)).1 = (strtoul (text ++ 0 :: stale')).1 := by
  obtain ⟨negative, magnitude, q, -, h⟩ := scanNumber_nul text
  simp only [strtoul, h]

theorem cstr_nul (text stale stale' : List UInt8) :
    cstr (text ++ 0 :: stale) = cstr (text ++ 0 :: stale') :=
  (cstr_stored text stale).trans (cstr_stored text stale').symm

/-- A prefix without a NUL is found in the string or not at all. -/
theorem isPrefixOf_nul {pre : List UInt8} (h : 0 ∉ pre) (text stale : List UInt8) :
    pre.isPrefixOf (text ++ 0 :: stale) = pre.isPrefixOf text := by
  induction pre generalizing text with
  | nil => rfl
  | cons c pre ih =>
    cases text with
    | nil =>
      have hc : c ≠ 0 := fun heq => h (heq ▸ List.mem_cons_self)
      simp [List.isPrefixOf, hc]
    | cons d text =>
      have hrest := ih (fun hmem => h (List.mem_cons_of_mem _ hmem)) text
      simp [List.isPrefixOf, hrest]

end CString
