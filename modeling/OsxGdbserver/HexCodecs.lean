import OsxGdbserver.FrameStreams
import OsxGdbserver.RegisterLayouts

/-!
# Hex digits in the types of C

The two encoders and the two decoders of `remote-utils.c` with the shifts and masks of
their sources: a `char` is signed and promoted to `int`. All four are about the same pairs
of digits; they differ in where they stop.
-/

namespace Gdbserver

open Remote CString

namespace Chars

/-- A `char` promoted to `int`. -/
def promote (ch : Byte) : Int32 := ch.toInt8.toInt32

/-- An `int` assigned to a `char`. -/
def narrow (x : Int32) : Byte := x.toInt8.toUInt8

/-- `none` where the source calls `error`. -/
def fromhex (a : Int32) : Option Int32 :=
  if a ≥ 0x30 ∧ a ≤ 0x39 then some (a - 0x30)
  else if a ≥ 0x61 ∧ a ≤ 0x66 then some (a - 0x61 + 10)
  else none

def tohex (nib : Int32) : Int32 := if nib < 10 then 0x30 + nib else 0x61 + nib - 10

/-- `convert_int_to_ascii` from the pointer `p` on, without the NUL it ends in. -/
def convertIntToAscii (p : List Byte) : Nat → List Byte
  | 0 => []
  | n + 1 =>
    let ch := promote (deref p)
    narrow (tohex (((ch &&& 0xf0) >>> 4) &&& 0x0f)) :: narrow (tohex (ch &&& 0x0f)) ::
      convertIntToAscii p.tail n

/-- `convert_ascii_to_int`: the bytes stored, and whether all `n` were. -/
def convertAsciiToInt (p : List Byte) : Nat → List Byte × Bool
  | 0 => ([], true)
  | n + 1 =>
    match fromhex (promote (deref p)), fromhex (promote (deref p.tail)) with
    | some nib1, some nib2 =>
      let rest := convertAsciiToInt (p.drop 2) n
      (narrow ((((nib1 &&& 0x0f) <<< 4) &&& 0xf0) ||| (nib2 &&& 0x0f)) :: rest.1, rest.2)
    | _, _ => ([], false)

def hexifyLoop (bin : List Byte) : Nat → List Byte
  | 0 => []
  | i + 1 =>
    let ch := promote (deref bin)
    narrow (tohex ((ch >>> 4) &&& 0xf)) :: narrow (tohex (ch &&& 0xf)) :: hexifyLoop bin.tail i

/-- The text, without its NUL, and the count returned. -/
def hexify (bin : List Byte) (count : Int) : List Byte × Nat :=
  let count := if count = 0 then toInt (cstr bin).length else count
  (hexifyLoop bin count.toNat, count.toNat)

/-- The bytes stored, and the count returned unless a pair was no pair of digits. -/
def unhexifyLoop (hex : List Byte) : Nat → List Byte × Option Nat
  | 0 => ([], some 0)
  | i + 1 =>
    if deref hex = 0 ∨ deref hex.tail = 0 then ([], some 0)
    else
      match fromhex (promote (deref hex)), fromhex (promote (deref hex.tail)) with
      | some nib1, some nib2 =>
        let rest := unhexifyLoop (hex.drop 2) i
        (narrow (nib1 * 16 + nib2) :: rest.1, rest.2.map (· + 1))
      | _, _ => ([], none)

def unhexify (hex : List Byte) (count : Int) : List Byte × Option Nat :=
  unhexifyLoop hex count.toNat

theorem narrow_tohex : ∀ n < 16, narrow (tohex (Int32.ofNat n)) = Remote.tohex n := by
  decide +kernel

/-- The two ways to shift a sign-extended `char` give the same digits. -/
theorem nibbles : ∀ n < 256,
    ((promote (UInt8.ofNat n) &&& 0xf0) >>> 4) &&& 0x0f = Int32.ofNat (n / 16) ∧
    (promote (UInt8.ofNat n) >>> 4) &&& 0xf = Int32.ofNat (n / 16) ∧
    promote (UInt8.ofNat n) &&& 0x0f = Int32.ofNat (n % 16) := by
  decide +kernel

theorem fromhex_promote : ∀ n < 256,
    fromhex (promote (UInt8.ofNat n)) = (hexDigit (UInt8.ofNat n)).map Int32.ofNat := by
  decide +kernel

theorem narrow_pair : ∀ nib1 < 16, ∀ nib2 < 16,
    narrow ((((Int32.ofNat nib1 &&& 0x0f) <<< 4) &&& 0xf0) ||| (Int32.ofNat nib2 &&& 0x0f)) =
      UInt8.ofNat (nib1 * 16 + nib2) ∧
    narrow (Int32.ofNat nib1 * 16 + Int32.ofNat nib2) = UInt8.ofNat (nib1 * 16 + nib2) := by
  decide +kernel

theorem byte_nibbles (ch : Byte) :
    ((promote ch &&& 0xf0) >>> 4) &&& 0x0f = Int32.ofNat (ch.toNat / 16) ∧
    (promote ch >>> 4) &&& 0xf = Int32.ofNat (ch.toNat / 16) ∧
    promote ch &&& 0x0f = Int32.ofNat (ch.toNat % 16) := by
  have hch := nibbles ch.toNat ch.toNat_lt
  rwa [UInt8.ofNat_toNat] at hch

theorem fromhex_eq (ch : Byte) : fromhex (promote ch) = (hexDigit ch).map Int32.ofNat := by
  have hch := fromhex_promote ch.toNat ch.toNat_lt
  rwa [UInt8.ofNat_toNat] at hch

theorem convertIntToAscii_eq (bytes rest : List Byte) :
    convertIntToAscii (bytes ++ rest) bytes.length = Gdbserver.convertIntToAscii bytes := by
  induction bytes with
  | nil => rfl
  | cons ch bytes ih =>
    have hlt := ch.toNat_lt
    obtain ⟨hhigh, -, hlow⟩ := byte_nibbles ch
    simp only [List.cons_append, List.length_cons, convertIntToAscii, deref, List.headD_cons,
      List.tail_cons, hhigh, hlow, narrow_tohex (ch.toNat / 16) (by omega),
      narrow_tohex (ch.toNat % 16) (by omega), ih, convertIntToAscii_cons]

theorem hexifyLoop_eq (p : List Byte) (n : Nat) : hexifyLoop p n = convertIntToAscii p n := by
  induction n generalizing p with
  | zero => rfl
  | succ n ih =>
    obtain ⟨hhigh, hshift, -⟩ := byte_nibbles (deref p)
    simp only [hexifyLoop, convertIntToAscii, hhigh, hshift, ih]

theorem convertAsciiToInt_eq (p : List Byte) (n : Nat) :
    convertAsciiToInt p n = Gdbserver.convertAsciiToInt p n := by
  induction n generalizing p with
  | zero => rfl
  | succ n ih =>
    simp only [convertAsciiToInt, Gdbserver.convertAsciiToInt, fromhex_eq, hexPair, ih]
    cases hfirst : hexDigit (deref p) with
    | none => rfl
    | some nib1 =>
      cases hsecond : hexDigit (deref p.tail) with
      | none => rfl
      | some nib2 =>
        have hpair := (narrow_pair nib1 (hexDigit_lt hfirst) nib2 (hexDigit_lt hsecond)).1
        simp only [Option.map_some, Option.bind_some, hpair]

/-- A pair of digits is stored, whatever stands behind it. -/
theorem unhexifyLoop_pair {x y v : Byte} (h : hexPair x y = some v) (hx : x ≠ 0) (hy : y ≠ 0)
    (hex : List Byte) (i : Nat) :
    unhexifyLoop (x :: y :: hex) (i + 1) =
      (v :: (unhexifyLoop hex i).1, (unhexifyLoop hex i).2.map (· + 1)) := by
  obtain ⟨nib1, hfirst, hrest⟩ := Option.bind_eq_some_iff.mp h
  obtain ⟨nib2, hsecond, rfl⟩ := Option.map_eq_some_iff.mp hrest
  have hpair := (narrow_pair nib1 (hexDigit_lt hfirst) nib2 (hexDigit_lt hsecond)).2
  simp [unhexifyLoop, deref, hx, hy, fromhex_eq, hfirst, hsecond, hpair]

/-- Where a text of pairs is cut off, `unhexify` stops behind the last whole pair. -/
theorem unhexifyLoop_take (bytes stale : List Byte) (i : Nat) {k : Nat}
    (hk : k ≤ 2 * bytes.length) :
    unhexifyLoop ((Gdbserver.convertIntToAscii bytes).take k ++ 0 :: stale) i =
      (bytes.take (min i (k / 2)), some (min i (k / 2))) := by
  induction bytes generalizing k i with
  | nil =>
    obtain rfl : k = 0 := by simpa using hk
    cases i <;> simp [unhexifyLoop, deref]
  | cons ch bytes ih =>
    cases i with
    | zero => simp [unhexifyLoop]
    | succ i =>
      have hlt := ch.toNat_lt
      have hhigh : Remote.tohex (ch.toNat / 16) ≠ 0 := tohex_ne_zero (by omega)
      have hlow : Remote.tohex (ch.toNat % 16) ≠ 0 := tohex_ne_zero (by omega)
      rcases k with _ | _ | k
      · simp [unhexifyLoop, deref]
      · simp [convertIntToAscii_cons, unhexifyLoop, deref]
      · have hrest : k ≤ 2 * bytes.length := by
          rw [List.length_cons] at hk
          omega
        have hmin : min (i + 1) ((k + 1 + 1) / 2) = min i (k / 2) + 1 := by omega
        rw [convertIntToAscii_cons, List.take_succ_cons, List.take_succ_cons, List.cons_append,
          List.cons_append, unhexifyLoop_pair (hexPair_nibbles ch) hhigh hlow, ih i hrest, hmin]
        rfl

/-- The text of the bytes that lower-case digits spell. -/
theorem convertIntToAscii_convertAsciiToInt (text stale : List Byte) (n : Nat)
    (hlen : text.length = 2 * n) (digits : ∀ c ∈ text, LowerHex c) :
    (Gdbserver.convertAsciiToInt (text ++ stale) n).2 = true ∧
      (Gdbserver.convertAsciiToInt (text ++ stale) n).1.length = n ∧
      Gdbserver.convertIntToAscii (Gdbserver.convertAsciiToInt (text ++ stale) n).1 = text := by
  induction n generalizing text with
  | zero =>
    obtain rfl := List.eq_nil_of_length_eq_zero hlen
    exact ⟨rfl, rfl, rfl⟩
  | succ n ih =>
    rcases text with _ | ⟨x, _ | ⟨y, text⟩⟩
    · simp at hlen
    · rw [List.length_singleton] at hlen
      omega
    · simp only [List.forall_mem_cons] at digits
      obtain ⟨nib1, hx⟩ := Option.isSome_iff_exists.mp digits.1
      obtain ⟨nib2, hy⟩ := Option.isSome_iff_exists.mp digits.2.1
      obtain ⟨hfirst, hlt1⟩ := tohex_of_hexDigit hx
      obtain ⟨hsecond, hlt2⟩ := tohex_of_hexDigit hy
      have hshort : text.length = 2 * n := by
        rw [List.length_cons, List.length_cons] at hlen
        omega
      obtain ⟨hall, hcount, htext⟩ := ih text hshort digits.2.2
      have hpair : hexPair x y = some (UInt8.ofNat (nib1 * 16 + nib2)) := by
        simp [hexPair, hx, hy]
      have hvalue : (UInt8.ofNat (nib1 * 16 + nib2)).toNat = nib1 * 16 + nib2 :=
        UInt8.toNat_ofNat_of_lt' (show _ < 256 by omega)
      have hhigh : (nib1 * 16 + nib2) / 16 = nib1 := by omega
      have hlow : (nib1 * 16 + nib2) % 16 = nib2 := by omega
      simp only [Gdbserver.convertAsciiToInt, deref, List.cons_append, List.headD_cons,
        List.tail_cons, hpair, List.drop_succ_cons, List.drop_zero, hall, List.length_cons, hcount,
        convertIntToAscii_cons, hvalue, hhigh, hlow, htext, ← hfirst, ← hsecond, and_self]

theorem lowerHex_of_range {c : Byte} (h : 0x30 ≤ c ∧ c ≤ 0x39 ∨ 0x61 ≤ c ∧ c ≤ 0x66) :
    LowerHex c := by
  by_cases hdecimal : 0x30 ≤ c ∧ c ≤ 0x39
  · simp [LowerHex, hexDigit, hdecimal]
  · simp [LowerHex, hexDigit, hdecimal, h.resolve_left hdecimal]

/-- The two encoders write the same text, each decoder takes it back, and `unhexify` stops at
the count or behind the last whole pair. -/
theorem hex_codecs_inverse (b rest stale : List Byte) :
    convertAsciiToInt (convertIntToAscii (b ++ rest) b.length ++ stale) b.length = (b, true) ∧
    (∀ (n : Nat) (h : List Byte), h.length = 2 * n →
      (∀ c ∈ h, 0x30 ≤ c ∧ c ≤ 0x39 ∨ 0x61 ≤ c ∧ c ≤ 0x66) →
      (convertAsciiToInt (h ++ stale) n).2 = true ∧
        convertIntToAscii (convertAsciiToInt (h ++ stale) n).1 n = h) ∧
    (0 < b.length → hexify (b ++ rest) b.length =
      (convertIntToAscii (b ++ rest) b.length, b.length)) ∧
    (∀ count : Int, unhexify (convertIntToAscii (b ++ rest) b.length ++ 0 :: stale) count =
      (b.take (min count.toNat b.length), some (min count.toNat b.length))) ∧
    (∀ (count : Int) (k : Nat), k ≤ 2 * b.length →
      unhexify ((convertIntToAscii (b ++ rest) b.length).take k ++ 0 :: stale) count =
        (b.take (min count.toNat (k / 2)), some (min count.toNat (k / 2)))) := by
  rw [convertIntToAscii_eq]
  refine ⟨?_, ?_, ?_, ?_, ?_⟩
  · rw [convertAsciiToInt_eq]
    exact convertAsciiToInt_convertIntToAscii b stale
  · intro n h hlen hdigits
    obtain ⟨hall, hcount, htext⟩ := convertIntToAscii_convertAsciiToInt h stale n hlen
      fun c hc => lowerHex_of_range (hdigits c hc)
    have hback := convertIntToAscii_eq (Gdbserver.convertAsciiToInt (h ++ stale) n).1 []
    rw [List.append_nil, hcount] at hback
    rw [convertAsciiToInt_eq]
    exact ⟨hall, hback.trans htext⟩
  · intro pos
    have hne : (b.length : Int) ≠ 0 := by omega
    simp only [hexify, if_neg hne, Int.toNat_natCast, hexifyLoop_eq, convertIntToAscii_eq]
  · intro count
    have hwhole := unhexifyLoop_take b stale count.toNat (Nat.le_refl (2 * b.length))
    have hhalf : 2 * b.length / 2 = b.length := by omega
    rwa [← convertIntToAscii_length, List.take_length, convertIntToAscii_length, hhalf] at hwhole
  · exact fun count k hk => unhexifyLoop_take b stale count.toNat hk

/-- Bytes of either sign. -/
theorem hex_codecs_inverse_signed :
    let b : List Byte := [0x7f, 0x80, 0xff]
    let h := ascii "80ff"
    (convertAsciiToInt h 2).2 = true ∧ convertIntToAscii (convertAsciiToInt h 2).1 2 = h ∧
      hexify b 3 = (convertIntToAscii b 3, 3) ∧
      unhexify ((convertIntToAscii b 3).take 5 ++ [0]) 7 = (b.take 2, some 2) := by
  intro b h
  obtain ⟨-, hback, hsame, -, hcut⟩ := hex_codecs_inverse b [] []
  have hdecoded := hback 2 h rfl (by decide +kernel)
  rw [List.append_nil] at hdecoded hsame hcut
  exact ⟨hdecoded.1, hdecoded.2, hsame (by decide), hcut 7 5 (by decide)⟩

end Chars

end Gdbserver
