import OsxGdbserver.PacketTexts
import OsxGdbserver.PacketLoop
import Mathlib.Tactic.Ring

/-!
# The packets that address memory

`m` and `M` have a decoder each for the same two fields, and `Z0` and `z0` read their address
with `strtoul`. The decoder of `M` takes any number of digits, that of `m` four of the length.
-/

namespace Gdbserver

open Remote CString

variable {σ : Type} {k : Kernel σ} {host : Signals.Host} {s : Server σ} {t : ThreadInfo}

/-- A field as the packets have it: digits, none of them upper case. -/
def Digits (field : List Byte) : Prop := ∀ c ∈ field, LowerHex c

instance (field : List Byte) : Decidable (Digits field) := List.decidableBAll LowerHex field

theorem digits_cons {c : Byte} {field : List Byte} :
    Digits (c :: field) ↔ LowerHex c ∧ Digits field :=
  List.forall_mem_cons

theorem isHexDigit_of_lowerHex {c : Byte} (h : LowerHex c) : isHexDigit c := by
  obtain ⟨nib, hnib⟩ := Option.isSome_iff_exists.mp h
  rw [isHexDigit, digitValue_of_hexDigit hnib]
  rfl

theorem digitsValue_foldl (field : List Byte) (value : Nat) :
    field.foldl (fun n c => n * 16 + (digitValue c).getD 0) value =
      value * 16 ^ field.length + digitsValue field := by
  unfold digitsValue
  induction field generalizing value with
  | nil => simp
  | cons c field ih =>
    rw [List.foldl_cons, List.foldl_cons, ih, ih (0 * 16 + _), List.length_cons]
    ring

theorem digitsValue_append (xs ys : List Byte) :
    digitsValue (xs ++ ys) = digitsValue xs * 16 ^ ys.length + digitsValue ys := by
  rw [digitsValue, List.foldl_append, digitsValue_foldl]
  rfl

theorem digitsValue_cons {c : Byte} {nib : Nat} (h : hexDigit c = some nib) (field : List Byte) :
    digitsValue (c :: field) = nib * 16 ^ field.length + digitsValue field := by
  have hone : digitsValue [c] = nib := by
    simp [digitsValue, digitValue_of_hexDigit h]
  rw [← hone]
  exact digitsValue_append [c] field

/-- Before the stop there are no digits. -/
theorem field_of_stop {stop : Byte} (hstop : ¬ LowerHex stop) {text : List Byte}
    {P : List Byte → List Byte → Prop} :
    (∃ field rest, stop :: text = field ++ stop :: rest ∧ Digits field ∧ P field rest) ↔
      P [] text := by
  constructor
  · rintro ⟨field, rest, htext, hdigits, h⟩
    cases field with
    | nil =>
      cases htext
      exact h
    | cons d field =>
      cases htext
      exact absurd (digits_cons.mp hdigits).1 hstop
  · intro h
    exact ⟨[], text, rfl, by simp [Digits], h⟩

/-- Before anything else there is at least one. -/
theorem field_of_digit {c stop : Byte} (hc : c ≠ stop) {text : List Byte}
    {P : List Byte → List Byte → Prop} :
    (∃ field rest, c :: text = field ++ stop :: rest ∧ Digits field ∧ P field rest) ↔
      LowerHex c ∧ ∃ field rest, text = field ++ stop :: rest ∧ Digits field ∧
        P (c :: field) rest := by
  constructor
  · rintro ⟨field, rest, htext, hdigits, h⟩
    cases field with
    | nil => exact absurd (List.cons.inj htext).1 hc
    | cons d field =>
      cases htext
      obtain ⟨hdigit, hrest⟩ := digits_cons.mp hdigits
      exact ⟨hdigit, field, rest, rfl, hrest, h⟩
  · rintro ⟨hdigit, field, rest, rfl, hdigits, h⟩
    exact ⟨c :: field, rest, rfl, digits_cons.mpr ⟨hdigit, hdigits⟩, h⟩

/-- A loop that reads a field comes to its end just if there are digits up to the stop. -/
theorem decodeField_eq_some_iff {stop : Byte} (hstop : ¬ LowerHex stop) (hnul : stop ≠ 0) {w : Nat}
    (text stale : List Byte) {value n : Nat} {q : List Byte} (hvalue : value < 2 ^ w) :
    decodeField stop w (text ++ 0 :: stale) value = some (n, q) ↔
      ∃ field rest, text = field ++ stop :: rest ∧ Digits field ∧
        n = (value * 16 ^ field.length + digitsValue field) % 2 ^ w ∧ q = rest ++ 0 :: stale := by
  induction text generalizing value with
  | nil =>
    rw [List.nil_append, decodeField, if_neg (Ne.symm hnul), hexDigit_zero]
    constructor
    · simp
    · rintro ⟨field, rest, htext, -⟩
      simp at htext
  | cons c text ih =>
    rw [List.cons_append, decodeField]
    by_cases hc : c = stop
    · subst hc
      rw [if_pos rfl, field_of_stop hstop]
      simp [digitsValue, Nat.mod_eq_of_lt hvalue, eq_comm]
    · rw [if_neg hc, field_of_digit hc]
      cases hnib : hexDigit c with
      | none =>
        have hdigit : ¬ LowerHex c := by simp [LowerHex, hnib]
        exact iff_of_false (by simp) fun h => hdigit h.1
      | some nib =>
        have hdigit : LowerHex c := by simp [LowerHex, hnib]
        have hsum : ∀ field : List Byte,
            ((value * 16 + nib) % 2 ^ w * 16 ^ field.length + digitsValue field) % 2 ^ w =
              (value * 16 ^ (c :: field).length + digitsValue (c :: field)) % 2 ^ w := by
          intro field
          rw [digitsValue_cons hnib, List.length_cons, Nat.add_mod, Nat.mod_mul_mod,
            ← Nat.add_mod]
          congr 1
          ring
        rw [Option.bind_some, ih (Nat.mod_lt _ (Nat.two_pow_pos w)), and_iff_right hdigit]
        simp only [hsum]

theorem not_lowerHex_comma : ¬ LowerHex (ch ',') := by decide

theorem not_lowerHex_colon : ¬ LowerHex (ch ':') := by decide

/-- The text of an `M` packet: an address, a length, and data that have two digits for each
byte of that length. -/
structure WriteText (text addr len data : List Byte) : Prop where
  text_eq : text = addr ++ ch ',' :: (len ++ ch ':' :: data)
  addr_digits : Digits addr
  len_digits : Digits len
  data_length : 2 * (digitsValue len % 2 ^ 32) ≤ data.length
  data_digits : Digits (data.take (2 * (digitsValue len % 2 ^ 32)))

/-- All bytes are there just if their digits are, before the NUL. -/
theorem convertAsciiToInt_complete_iff (data stale : List Byte) (n : Nat) :
    (convertAsciiToInt (data ++ 0 :: stale) n).2 = true ↔
      2 * n ≤ data.length ∧ Digits (data.take (2 * n)) := by
  rw [convertAsciiToInt_eq, decide_eq_true_iff]
  by_cases hlong : 2 * n ≤ data.length
  · rw [List.take_append_of_le_length hlong,
      leadingBytes_length_eq_iff (List.length_take_of_le hlong)]
    exact ⟨fun hdigits => ⟨hlong, hdigits⟩, And.right⟩
  · constructor
    · intro hfull
      have hle := leadingBytes_length ((data ++ 0 :: stale).take (2 * n))
      have htake := List.length_take_le (2 * n) (data ++ 0 :: stale)
      have hdigits := (leadingBytes_length_eq_iff
        (show ((data ++ 0 :: stale).take (2 * n)).length = 2 * n by omega)).mp hfull
      refine absurd (hdigits 0 ?_) not_lowerHex_zero
      rw [List.mem_take_iff_getElem]
      exact ⟨data.length, by simp; omega, by simp⟩
    · exact fun hboth => absurd hboth.1 hlong

theorem convertAsciiToInt_bytes {data : List Byte} {n : Nat} (hlong : 2 * n ≤ data.length)
    (stale : List Byte) :
    (convertAsciiToInt (data ++ 0 :: stale) n).1 = leadingBytes (data.take (2 * n)) := by
  rw [convertAsciiToInt_eq, List.take_append_of_le_length hlong]

/-- The decoder of `M` returns just on its grammar. -/
theorem decodeWritePacket_eq_some_iff (text stale : List Byte) (addr : Int) (len : Nat)
    (bytes : List Byte) :
    decodeWritePacket (text ++ 0 :: stale) = some (addr, len, bytes, true) ↔
      ∃ a l d, WriteText text a l d ∧ addr = coreAddr (digitsValue a % 2 ^ 64) ∧
        len = digitsValue l % 2 ^ 32 ∧ bytes = leadingBytes (d.take (2 * len)) := by
  have haddr := fun n q => decodeField_eq_some_iff (n := n) (q := q) not_lowerHex_comma
    (by decide) text stale (Nat.two_pow_pos 64)
  have hlen := fun rest n q => decodeField_eq_some_iff (n := n) (q := q) not_lowerHex_colon
    (by decide) rest stale (Nat.two_pow_pos 32)
  simp only [Nat.zero_mul, Nat.zero_add] at haddr hlen
  constructor
  · intro hdecode
    rw [decodeWritePacket, Option.bind_eq_some_iff] at hdecode
    obtain ⟨⟨bits, q⟩, hfirst, hdecode⟩ := hdecode
    obtain ⟨a, rest, htext, ha, rfl, rfl⟩ := (haddr bits q).mp hfirst
    rw [Option.map_eq_some_iff] at hdecode
    obtain ⟨⟨n, r⟩, hsecond, hresult⟩ := hdecode
    obtain ⟨l, d, hrest, hl, rfl, rfl⟩ := (hlen rest n r).mp hsecond
    simp only [Prod.mk.injEq] at hresult
    obtain ⟨rfl, rfl, hbytes⟩ := hresult
    obtain ⟨hlong, hd⟩ := (convertAsciiToInt_complete_iff d stale _).mp
      (congrArg Prod.snd hbytes)
    refine ⟨a, l, d, ⟨by rw [htext, hrest], ha, hl, hlong, hd⟩, rfl, rfl, ?_⟩
    rw [← convertAsciiToInt_bytes hlong stale, hbytes]
  · rintro ⟨a, l, d, h, haddress, hlength, hdata⟩
    have hfirst := (haddr _ _).mpr ⟨a, l ++ ch ':' :: d, h.text_eq, h.addr_digits, rfl, rfl⟩
    have hsecond := (hlen (l ++ ch ':' :: d) _ _).mpr ⟨l, d, rfl, h.len_digits, rfl, rfl⟩
    have hcomplete := (convertAsciiToInt_complete_iff d stale _).mpr ⟨h.data_length, h.data_digits⟩
    have hbytes := convertAsciiToInt_bytes h.data_length stale
    rw [decodeWritePacket, hfirst, Option.bind_some]
    dsimp only
    rw [hsecond, Option.map_some, haddress, hdata, hlength, ← hbytes, ← hcomplete]

/-- Where the decoder of `M` does not return, the handler has changed nothing. -/
theorem handleMWriteMem_refused {text stale : List Byte}
    (packet : s.ownBuf = ch 'M' :: (text ++ 0 :: stale))
    (refused : ∀ addr len bytes,
      decodeWritePacket (text ++ 0 :: stale) ≠ some (addr, len, bytes, true)) :
    ∃ e, (handleMWriteMem k).run s = .error e s ∧
      (text.length ≤ 2 * memBufSize → e = invalidDigit) := by
  have hdrop : s.ownBuf.drop 1 = text ++ 0 :: stale := by
    rw [packet]
    rfl
  rw [handleMWriteMem, EStateM.run_bind, packet_run]
  simp only [hdrop]
  cases hdecode : decodeWritePacket (text ++ 0 :: stale) with
  | none => exact ⟨invalidDigit, rfl, fun _ => rfl⟩
  | some parts =>
    obtain ⟨addr, len, bytes, complete⟩ := parts
    have hlength := decodeWritePacket_length hdecode
    rw [cstr_stored] at hlength
    have hstring := cstr_length_le text
    cases complete with
    | true => exact absurd hdecode (refused addr len bytes)
    | false =>
      by_cases hlong : bytes.length > memBufSize
      · refine ⟨.fault "mem_buf", ?_, fun hshort => absurd hlong (by omega)⟩
        simp [decoded, hlong]
      · refine ⟨invalidDigit, ?_, fun _ => rfl⟩
        simp [decoded, hlong]

/-- The characters a field's loop looks at: the stop is the last, or a bad digit. -/
def fieldReads (stop : Byte) : List Byte → Nat
  | [] => 0
  | c :: p => if c = stop ∨ ¬ LowerHex c then 1 else fieldReads stop p + 1

/-- The characters `convert_ascii_to_int` looks at. -/
def convertReads (p : List Byte) : Nat → Nat
  | 0 => 0
  | n + 1 =>
    if ¬ LowerHex (deref p) then 1
    else if ¬ LowerHex (deref p.tail) then 2
    else convertReads (p.drop 2) n + 2

/-- The characters `decode_M_packet` looks at. -/
def writeReads (p : List Byte) : Nat :=
  fieldReads (ch ',') p +
    match decodeField (ch ',') 64 p 0 with
    | none => 0
    | some (_, q) =>
      fieldReads (ch ':') q +
        match decodeField (ch ':') 32 q 0 with
        | none => 0
        | some (len, data) => convertReads data len

theorem ne_zero_of_lowerHex {c : Byte} (h : LowerHex c) : c ≠ 0 :=
  fun hc => not_lowerHex_zero (hc ▸ h)

theorem fieldReads_le (stop : Byte) (p : List Byte) :
    fieldReads stop p ≤ (cstr p).length + 1 := by
  induction p with
  | nil => exact Nat.zero_le _
  | cons c p ih =>
    unfold fieldReads
    split
    · omega
    · rename_i hgo
      have hdigit : LowerHex c := not_not.mp fun hbad => hgo (Or.inr hbad)
      rw [cstr_cons_length (ne_zero_of_lowerHex hdigit)]
      omega

/-- Up to its stop a field's loop has looked at characters of the string. -/
theorem fieldReads_add_le {stop : Byte} (hstop : stop ≠ 0) {w : Nat} {p q : List Byte}
    {value n : Nat} (h : decodeField stop w p value = some (n, q)) :
    fieldReads stop p + (cstr q).length ≤ (cstr p).length := by
  induction p generalizing value with
  | nil => cases h
  | cons c p ih =>
    unfold decodeField at h
    split at h
    · rename_i hc
      cases h
      rw [fieldReads, if_pos (Or.inl hc), cstr_cons_length (hc ▸ hstop)]
      omega
    · rename_i hc
      obtain ⟨nib, hnib, hrest⟩ := Option.bind_eq_some_iff.mp h
      have hdigit : LowerHex c := by
        rw [LowerHex, hnib]
        rfl
      have hih := ih hrest
      rw [fieldReads, if_neg fun hend => hend.elim hc fun hbad => hbad hdigit,
        cstr_cons_length (ne_zero_of_lowerHex hdigit)]
      omega

theorem convertReads_le (p : List Byte) (n : Nat) :
    convertReads p n ≤ (cstr p).length + 1 := by
  induction n generalizing p with
  | zero => exact Nat.zero_le _
  | succ n ih =>
    unfold convertReads
    split
    · omega
    · rename_i hfirst
      obtain ⟨a, p, rfl⟩ : ∃ a q, p = a :: q := by
        cases p with
        | nil => exact absurd not_lowerHex_zero hfirst
        | cons a q => exact ⟨a, q, rfl⟩
      have ha : a ≠ 0 := ne_zero_of_lowerHex (not_not.mp hfirst)
      rw [cstr_cons_length ha]
      split
      · omega
      · rename_i hsecond
        obtain ⟨b, p, rfl⟩ : ∃ b q, p = b :: q := by
          cases p with
          | nil => exact absurd not_lowerHex_zero hsecond
          | cons b q => exact ⟨b, q, rfl⟩
        have hb : b ≠ 0 := ne_zero_of_lowerHex (not_not.mp hsecond)
        have hrest := ih p
        rw [cstr_cons_length hb]
        simp only [List.drop_succ_cons, List.drop_zero]
        omega

/-- The decoder of `M` stops at the NUL at the latest. -/
theorem writeReads_le (p : List Byte) : writeReads p ≤ (cstr p).length + 1 := by
  have hfirst := fieldReads_le (ch ',') p
  unfold writeReads
  split
  · omega
  · rename_i bits q hq
    have hcomma := fieldReads_add_le (by decide) hq
    have hsecond := fieldReads_le (ch ':') q
    split
    · change _ + (_ + 0) ≤ _
      omega
    · rename_i len data hdata
      have hcolon := fieldReads_add_le (by decide) hdata
      have hthird := convertReads_le data len
      change _ + (_ + _) ≤ _
      omega

/-- The decoder of `M` stops at the NUL, returns just on its grammar, and otherwise ends in
`error` before anything is written. -/
theorem decodeWritePacket_spec (k : Kernel σ) {text : List Byte} (short : text.length < 2 ^ 31) :
    (∀ stale, writeReads (text ++ 0 :: stale) ≤ (cstr text).length + 1 ∧
      decodeWritePacket (text ++ 0 :: stale) = decodeWritePacket (text ++ [0])) ∧
    (∀ stale addr len bytes,
      decodeWritePacket (text ++ 0 :: stale) = some (addr, len, bytes, true) ↔
      ∃ a l d, WriteText text a l d ∧ addr = coreAddr (digitsValue a % 2 ^ 64) ∧
        len = digitsValue l % 2 ^ 32 ∧ toInt len = len ∧
        bytes = leadingBytes (d.take (2 * len)) ∧ bytes.length = len) ∧
    ((¬ ∃ a l d, WriteText text a l d) → ∀ (s : Server σ) stale,
      s.ownBuf = ch 'M' :: (text ++ 0 :: stale) → ∃ e, (handleMWriteMem k).run s = .error e s ∧
        (text.length ≤ 2 * memBufSize → e = invalidDigit)) := by
  refine ⟨fun stale => ⟨?_, decodeWritePacket_nul text stale []⟩, fun stale addr len bytes => ?_,
    fun ungrammatical s stale packet => handleMWriteMem_refused packet ?_⟩
  · rw [← cstr_stored text stale]
    exact writeReads_le _
  · rw [decodeWritePacket_eq_some_iff]
    constructor
    · rintro ⟨a, l, d, h, haddr, hlen, hbytes⟩
      have hlong := h.data_length
      have htext : d.length ≤ text.length := by
        rw [h.text_eq]
        simp only [List.length_append, List.length_cons]
        omega
      rw [← hlen] at hlong
      have hfull := (leadingBytes_length_eq_iff (List.length_take_of_le hlong)).mpr
        (hlen ▸ h.data_digits)
      exact ⟨a, l, d, h, haddr, hlen, toInt_of_range (by omega) (by omega), hbytes, hbytes ▸ hfull⟩
    · rintro ⟨a, l, d, h, haddr, hlen, -, hbytes, -⟩
      exact ⟨a, l, d, h, haddr, hlen, hbytes⟩
  · intro addr len bytes hsome
    obtain ⟨a, l, d, h, -⟩ := (decodeWritePacket_eq_some_iff text stale addr len bytes).mp hsome
    exact ungrammatical ⟨a, l, d, h⟩

theorem decodeWritePacket_spec_10 :
    decodeWritePacket (ascii "10,1:ff" ++ 0 :: []) = some (16, 1, [0xff], true) := by
  have hlength : (ascii "10,1:ff").length = 7 := rfl
  have short : (ascii "10,1:ff").length < 2 ^ 31 := by omega
  have grammatical : WriteText (ascii "10,1:ff") (ascii "10") (ascii "1") (ascii "ff") :=
    ⟨rfl, by decide, by decide, by decide, by decide⟩
  exact ((decodeWritePacket_spec singleThread short).2.1 [] 16 1 [0xff]).mpr
    ⟨_, _, _, grammatical, by decide, by decide, by decide, by decide, rfl⟩

/-- `m` takes at most four digits of the length. -/
theorem decodeLength_digits {field : List Byte} (h : Digits field) (j value : Nat)
    (stale : List Byte) :
    decodeLength j (field ++ 0 :: stale) value =
      some (value * 16 ^ (field.take j).length + digitsValue (field.take j)) := by
  induction j generalizing field value with
  | zero => simp [decodeLength, digitsValue]
  | succ j ih =>
    cases field with
    | nil => simp [decodeLength, deref, digitsValue]
    | cons c field =>
      obtain ⟨hc, hfield⟩ := digits_cons.mp h
      obtain ⟨nib, hnib⟩ := Option.isSome_iff_exists.mp hc
      have hderef : deref (c :: field ++ 0 :: stale) = c := rfl
      rw [decodeLength, hderef, if_neg (ne_zero_of_lowerHex hc), hnib, Option.bind_some,
        List.cons_append, List.tail_cons, ih hfield, List.take_succ_cons, digitsValue_cons hnib,
        List.length_cons]
      congr 1
      ring

/-- The first four digits are the number just if there are no more, or they are all zero. -/
theorem digitsValue_take_four_eq_iff (field : List Byte) :
    digitsValue (field.take 4) = digitsValue field ↔
      field.length ≤ 4 ∨ digitsValue field = 0 := by
  by_cases hshort : field.length ≤ 4
  · rw [List.take_of_length_le hshort]
    exact ⟨fun _ => Or.inl hshort, fun _ => rfl⟩
  · have hsplit := digitsValue_append (field.take 4) (field.drop 4)
    rw [List.take_append_drop, List.length_drop] at hsplit
    have hpow : 16 ≤ 16 ^ (field.length - 4) :=
      Nat.le_self_pow (by omega) 16
    have hmul : digitsValue (field.take 4) * 16 ≤
        digitsValue (field.take 4) * 16 ^ (field.length - 4) := Nat.mul_le_mul_left _ hpow
    constructor
    · intro heq
      exact Or.inr (by omega)
    · rintro (hle | hzero)
      · exact absurd hle hshort
      · omega

theorem coreAddr_of_lt {n : Nat} (lt : n < 2 ^ 32) : coreAddr n = n := by
  refine Int.bmod_eq_of_le ?_ ?_ <;> omega

theorem handleZInsertBp_run (h : Live s t) (type : deref (s.ownBuf.drop 1) = ch '0') :
    (handleZInsertBp k).run s = .ok () ((s.putMemory (Proc.final ((MemBreak.setBreakpointAt
      (Darwin.memTarget k) ((strtoul (s.ownBuf.drop 3)).1 : Int) .null).run
        (s.memState t)))).withText (ascii "OK")) := by
  have hmem : (withMemory (MemBreak.setBreakpointAt (Darwin.memTarget k)
      ((strtoul (s.ownBuf.drop 3)).1 : Int) .null)).run s = _ := withMemory_run h
  have hset := MemBreak.setBreakpointAt_run (Darwin.memTarget k) (s.memState t)
    ((strtoul (s.ownBuf.drop 3)).1 : Int) .null rfl
  rw [hset] at hmem ⊢
  rw [handleZInsertBp, EStateM.run_bind, packet_run]
  dsimp only
  rw [if_pos type, EStateM.run_bind, hmem]
  exact reply_run (by decide)

theorem handlezRemoveBp_run (h : Live s t) (linked : MemBreak.WellLinked (s.memState t))
    (type : deref (s.ownBuf.drop 1) = ch '0') :
    ∃ m, (handlezRemoveBp k).run s = .ok () ((s.putMemory m).withText (ascii "OK")) ∧
      m.breakpoints =
        s.breakpoints.eraseP fun b => b.pc = ((strtoul (s.ownBuf.drop 3)).1 : Int) := by
  have hmem : (withMemory (MemBreak.deleteBreakpointAt (Darwin.memTarget k)
      ((strtoul (s.ownBuf.drop 3)).1 : Int))).run s = _ := withMemory_run h
  have hrun : ∀ m, (MemBreak.deleteBreakpointAt (Darwin.memTarget k)
      ((strtoul (s.ownBuf.drop 3)).1 : Int)).run (s.memState t) = .ok () m →
        (handlezRemoveBp k).run s = .ok () ((s.putMemory m).withText (ascii "OK")) := by
    intro m hdelete
    rw [hdelete] at hmem
    rw [handlezRemoveBp, EStateM.run_bind, packet_run]
    dsimp only
    rw [if_pos type, EStateM.run_bind, hmem]
    exact reply_run (by decide)
  cases hfind : MemBreak.findBreakpointAt ((strtoul (s.ownBuf.drop 3)).1 : Int)
      (s.memState t).breakpoints with
  | none =>
    refine ⟨_, hrun _ (MemBreak.deleteBreakpointAt_none _ hfind), ?_⟩
    refine (List.eraseP_of_forall_not ?_).symm
    intro b hb heq
    exact MemBreak.findBreakpointAt_eq_none.mp hfind b hb (of_decide_eq_true heq)
  | some b =>
    obtain ⟨hpc, before, after, hsplit, hbefore⟩ := MemBreak.findBreakpointAt_eq_some hfind
    refine ⟨_, hrun _ (MemBreak.deleteBreakpointAt_some _ linked hsplit hfind), ?_⟩
    have hskip : ∀ c ∈ before, ¬ decide (c.pc = ((strtoul (s.ownBuf.drop 3)).1 : Int)) = true :=
      fun c hc heq => hbefore c hc (of_decide_eq_true heq)
    have hlist : s.breakpoints = before ++ b :: after := hsplit
    simp [hlist, List.eraseP_append_right _ hskip, hpc]

/-- The packets that address memory read an address and a length as the same two numbers. -/
structure ReadAlike (k : Kernel σ) (host : Signals.Host) (addr len : List Byte) : Prop where
  read : ∀ stale, decodeReadPacket (addr ++ ch ',' :: (len ++ 0 :: stale)) =
    some ((digitsValue addr : Int), digitsValue len)
  write : ∀ data stale, data.length = 2 * digitsValue len → Digits data →
    decodeWritePacket (addr ++ ch ',' :: (len ++ ch ':' :: (data ++ 0 :: stale))) =
      some ((digitsValue addr : Int), digitsValue len, leadingBytes data, true)
  insert : ∀ (s : Server σ) t, Live s t → Proc.Ends (handlePacket k host)
    (fun _ s' => cstr s'.ownBuf = ascii "OK" ∧
      ∃ b, s'.breakpoints = b :: s.breakpoints ∧ b.pc = (digitsValue addr : Int))
    (fun _ _ => False) (s.withText (ascii "Z0," ++ (addr ++ ascii ",4")))
  remove : ∀ (s : Server σ) t, Live s t → MemBreak.WellLinked (s.memState t) →
    Proc.Ends (handlePacket k host)
      (fun _ s' => cstr s'.ownBuf = ascii "OK" ∧
        s'.breakpoints = s.breakpoints.eraseP fun b => b.pc = (digitsValue addr : Int))
      (fun _ _ => False) (s.withText (ascii "z0," ++ (addr ++ ascii ",4")))

section Fields

variable {addr len : List Byte}

theorem decodeReadPacket_digits (haddr : Digits addr) (hlen : Digits len)
    (small : digitsValue addr < 2 ^ 32) (stale : List Byte) :
    decodeReadPacket (addr ++ ch ',' :: (len ++ 0 :: stale)) =
      some ((digitsValue addr : Int), digitsValue (len.take 4)) := by
  have hfirst := (decodeField_eq_some_iff not_lowerHex_comma (by decide)
    (addr ++ ch ',' :: len) stale (Nat.two_pow_pos 64)).mpr
      ⟨addr, len, rfl, haddr, rfl, rfl⟩
  have hmod : (0 * 16 ^ addr.length + digitsValue addr) % 2 ^ 64 = digitsValue addr := by
    rw [Nat.zero_mul, Nat.zero_add]
    exact Nat.mod_eq_of_lt (by omega)
  rw [hmod, List.append_assoc, List.cons_append] at hfirst
  have hsecond := decodeLength_digits hlen 4 0 stale
  rw [Nat.zero_mul, Nat.zero_add] at hsecond
  rw [decodeReadPacket, hfirst, Option.bind_some]
  dsimp only
  rw [hsecond, Option.map_some, coreAddr_of_lt small]

theorem decodeWritePacket_digits (haddr : Digits addr) (hlen : Digits len)
    (smallAddr : digitsValue addr < 2 ^ 32) (smallLen : digitsValue len < 2 ^ 32)
    {data : List Byte} (hdata : data.length = 2 * digitsValue len) (hdigits : Digits data)
    (stale : List Byte) :
    decodeWritePacket (addr ++ ch ',' :: (len ++ ch ':' :: (data ++ 0 :: stale))) =
      some ((digitsValue addr : Int), digitsValue len, leadingBytes data, true) := by
  have hmod : digitsValue len % 2 ^ 32 = digitsValue len := Nat.mod_eq_of_lt smallLen
  have hall : data.take (2 * digitsValue len) = data := List.take_of_length_le hdata.le
  have h : WriteText (addr ++ ch ',' :: (len ++ ch ':' :: data)) addr len data := by
    refine ⟨rfl, haddr, hlen, ?_, ?_⟩
    · rw [hmod]
      exact hdata.ge
    · rw [hmod, hall]
      exact hdigits
  have hdecode := (decodeWritePacket_eq_some_iff _ stale (digitsValue addr : Int)
    (digitsValue len) (leadingBytes data) ).mpr ⟨addr, len, data, h, ?_, hmod.symm, ?_⟩
  · simpa using hdecode
  · rw [Nat.mod_eq_of_lt (by omega), coreAddr_of_lt smallAddr]
  · rw [hall]

/-- `strtoul` reads an address up to the comma behind it. -/
theorem strtoul_addr (hne : addr ≠ []) (haddr : Digits addr) (small : digitsValue addr < 2 ^ 32)
    (stale : List Byte) : (strtoul (addr ++ ascii ",4" ++ 0 :: stale)).1 = digitsValue addr := by
  have hcomma : ch ',' ≠ 0x78 ∧ ch ',' ≠ 0x58 := by decide
  have hrest : deref (ascii ",4" ++ 0 :: stale) ≠ 0x78 ∧ deref (ascii ",4" ++ 0 :: stale) ≠ 0x58 :=
    hcomma
  rw [List.append_assoc, strtoul_digits hne (fun c hc => isHexDigit_of_lowerHex (haddr c hc)) rfl
    hrest small]

/-- The packets agree just if four digits are enough for the length. -/
theorem readAlike_iff (k : Kernel σ) (host : Signals.Host) (hne : addr ≠ [])
    (haddr : Digits addr) (hlen : Digits len) (smallAddr : digitsValue addr < 2 ^ 32)
    (smallLen : digitsValue len < 2 ^ 32) :
    ReadAlike k host addr len ↔ len.length ≤ 4 ∨ digitsValue len = 0 := by
  rw [← digitsValue_take_four_eq_iff]
  have hread := decodeReadPacket_digits haddr hlen smallAddr
  constructor
  · intro alike
    have hpair := (hread []).symm.trans (alike.read [])
    exact (Prod.mk.inj (Option.some.inj hpair)).2
  · intro hfour
    have hstrtoul := strtoul_addr hne haddr smallAddr
    refine ⟨fun stale => hfour ▸ hread stale, fun data stale hdata hdigits =>
      decodeWritePacket_digits haddr hlen smallAddr smallLen hdata hdigits stale, ?_, ?_⟩
    · intro s t h
      let s₁ := s.withText (ascii "Z0," ++ (addr ++ ascii ",4"))
      have h₁ : Live s₁ t := h
      have hrun : (handlePacket k host).run s₁ =
          (do handleZInsertBp k; return false : Proc (Server σ) Bool).run s₁ := by
        rw [handlePacket_run, show command s₁ = 'Z' from rfl]
        rfl
      have hinsert := handleZInsertBp_run (k := k) h₁ rfl
      rw [MemBreak.setBreakpointAt_run _ _ _ _ rfl] at hinsert
      unfold Proc.Ends
      rw [hrun, EStateM.run_bind, hinsert]
      exact ⟨cstr_append_nul (by decide) _, _, rfl, congrArg Int.ofNat (hstrtoul _)⟩
    · intro s t h linked
      let s₁ := s.withText (ascii "z0," ++ (addr ++ ascii ",4"))
      have h₁ : Live s₁ t := h
      have hrun : (handlePacket k host).run s₁ =
          (do handlezRemoveBp k; return false : Proc (Server σ) Bool).run s₁ := by
        rw [handlePacket_run, show command s₁ = 'z' from rfl]
        rfl
      obtain ⟨m, hremove, hlist⟩ := handlezRemoveBp_run (k := k) h₁ linked rfl
      have haddress : (strtoul (s₁.ownBuf.drop 3)).1 = digitsValue addr := hstrtoul _
      rw [haddress] at hlist
      unfold Proc.Ends
      rw [hrun, EStateM.run_bind, hremove]
      exact ⟨cstr_append_nul (by decide) _, hlist⟩

end Fields

theorem readAlike_iff_0004 :
    ReadAlike singleThread Signals.darwin (ascii "1000") (ascii "0004") ↔
      (ascii "0004").length ≤ 4 ∨ digitsValue (ascii "0004") = 0 := by
  have haddr : digitsValue (ascii "1000") = 4096 := rfl
  have hlen : digitsValue (ascii "0004") = 4 := rfl
  exact readAlike_iff _ _ (by decide) (by decide) (by decide) (by omega) (by omega)

/-- `m` takes the length `00010` for 1. -/
theorem not_readAlike_00010 :
    ¬ ReadAlike singleThread Signals.darwin (ascii "1000") (ascii "00010") := by
  intro alike
  have hread := alike.read []
  exact absurd hread (by decide)

end Gdbserver
