import OsxGdbserver.Connection

/-!
# Framing under noise, corruption and any chunking

`Consumes` says that a program reads an exact prefix of what the client sends, for
every way of cutting it into results of `read`. The loops of `getpkt` are described
by it one by one.
-/

namespace Remote

/-- The buffer holds what `bufcnt` says, and no chunk is an end of file. -/
structure Input.WellFormed (i : Input) : Prop where
  buffered : 0 < i.bufcnt → i.bufp + i.bufcnt ≤ i.buf.length
  nonempty : ∀ chunk ∈ i.chunks, chunk ≠ []

variable {α β : Type}

/-- From every input whose pending bytes start with `bytes`, `p` reads exactly these,
returns `a`, and does `f` to the session. -/
def Consumes (bytes : List Byte) (p : Proc Link α) (a : α) (f : Session → Session) : Prop :=
  ∀ i s rest, i.WellFormed → i.pending = bytes ++ rest →
    ∃ i', i'.WellFormed ∧ i'.pending = rest ∧ p.run ⟨i, s⟩ = .ok a ⟨i', f s⟩

namespace Consumes

theorem pure (a : α) : Consumes [] (Pure.pure a) a id :=
  fun i _ _ wf pending => ⟨i, wf, pending, rfl⟩

theorem bind {bs cs : List Byte} {p : Proc Link α} {q : α → Proc Link β} {a : α} {b : β}
    {f g : Session → Session} (hp : Consumes bs p a f) (hq : Consumes cs (q a) b g) :
    Consumes (bs ++ cs) (p >>= q) b (g ∘ f) := by
  rintro i s rest wf pending
  rw [List.append_assoc] at pending
  obtain ⟨i₁, wf₁, pending₁, hrun₁⟩ := hp i s (cs ++ rest) wf pending
  obtain ⟨i₂, wf₂, pending₂, hrun₂⟩ := hq i₁ (f s) rest wf₁ pending₁
  refine ⟨i₂, wf₂, pending₂, ?_⟩
  rw [EStateM.run_bind, hrun₁]
  exact hrun₂

theorem session {p : Proc Link α} {a : α} {f : Session → Session}
    (h : ∀ i s, p.run ⟨i, s⟩ = .ok a ⟨i, f s⟩) : Consumes [] p a f :=
  fun i s _ wf pending => ⟨i, wf, pending, h i s⟩

end Consumes

def Input.refilled (i : Input) (c : Byte) (cs : List Byte) (later : List (List Byte)) : Input :=
  let left := (c :: cs).drop bufsiz
  { i with
    chunks := if left = [] then later else left :: later
    buf := (c :: cs).take bufsiz
    bufp := 1
    bufcnt := (cs.take (bufsiz - 1)).length }

theorem readchar_run_refill {i : Input} (s : Session) {c : Byte} {cs : List Byte}
    {later : List (List Byte)} (empty : ¬ 0 < i.bufcnt) (h : i.chunks = (c :: cs) :: later) :
    readchar.run ⟨i, s⟩ = .ok (some (c &&& 0x7f)) ⟨i.refilled c cs later, s⟩ := by
  have htake : (c :: cs).take bufsiz = c :: cs.take (bufsiz - 1) := rfl
  have hpos : ¬ (((cs.take (bufsiz - 1)).length + 1 : Nat) : Int) ≤ 0 := by omega
  have hsub : (((cs.take (bufsiz - 1)).length + 1 : Nat) : Int) - 1 =
      (cs.take (bufsiz - 1)).length := by omega
  simp only [readchar, setBufcnt, nextBuffered, read, EStateM.run_bind, EStateM.run_get,
    EStateM.run_modify, EStateM.run_modifyGet, gt_iff_lt, empty, if_false, h, htake,
    List.length_cons, hpos, hsub]
  rfl

theorem pending_refilled (i : Input) (c : Byte) (cs : List Byte) (later : List (List Byte)) :
    (i.refilled c cs later).pending = cs ++ later.flatten := by
  have hflat : (i.refilled c cs later).chunks.flatten =
      (c :: cs).drop bufsiz ++ later.flatten := by
    by_cases h : (c :: cs).drop bufsiz = [] <;> simp [Input.refilled, h]
  have hbuf : ((c :: cs).take bufsiz).drop 1 = cs.take (bufsiz - 1) := rfl
  have hcs : cs.take (bufsiz - 1) ++ (c :: cs).drop bufsiz = cs :=
    List.take_append_drop (bufsiz - 1) cs
  rw [Input.pending, hflat]
  simp only [Input.refilled, hbuf, Int.toNat_natCast, List.take_length]
  rw [← List.append_assoc, hcs]

theorem wellFormed_refilled (i : Input) (c : Byte) (cs : List Byte) {later : List (List Byte)}
    (nonempty : ∀ chunk ∈ later, chunk ≠ []) : (i.refilled c cs later).WellFormed := by
  constructor
  · intro _
    simp [Input.refilled, bufsiz]
    omega
  · rintro chunk hchunk
    by_cases h : (c :: cs).drop bufsiz = []
    · simp only [Input.refilled, h, if_true] at hchunk
      exact nonempty chunk hchunk
    · simp only [Input.refilled, h, if_false] at hchunk
      rcases List.mem_cons.mp hchunk with rfl | hchunk
      · exact h
      · exact nonempty chunk hchunk

/-- One character, whether it is buffered or the first of the next chunk. -/
theorem readchar_consumes (b : Byte) : Consumes [b] readchar (some (b &&& 0x7f)) id := by
  rintro i s rest wf pending
  by_cases hcnt : 0 < i.bufcnt
  · have hlen := wf.buffered hcnt
    have hlt : i.bufp < i.buf.length := by omega
    have hcount : i.bufcnt.toNat = (i.bufcnt - 1).toNat + 1 := by omega
    simp only [Input.pending, List.drop_eq_getElem_cons hlt, hcount, List.take_succ_cons,
      List.cons_append, List.nil_append, List.cons.injEq] at pending
    refine ⟨{ i with bufp := i.bufp + 1, bufcnt := i.bufcnt - 1 }, ⟨?_, wf.nonempty⟩,
      pending.2, ?_⟩
    · intro _
      push_cast
      omega
    · simp [readchar, setBufcnt, nextBuffered, hcnt, hlt, pending.1]
  · have hnone : i.bufcnt.toNat = 0 := by omega
    simp only [Input.pending, hnone, List.take_zero, List.nil_append] at pending
    cases hchunks : i.chunks with
    | nil => simp [hchunks] at pending
    | cons chunk later =>
      have nonempty : ∀ chunk ∈ later, chunk ≠ [] := fun c hc =>
        wf.nonempty c (by simp [hchunks, hc])
      cases chunk with
      | nil => exact absurd rfl (wf.nonempty [] (by simp [hchunks]))
      | cons c cs =>
        simp only [hchunks, List.flatten_cons, List.cons_append, List.nil_append,
          List.cons.injEq] at pending
        obtain ⟨rfl, hrest⟩ := pending
        exact ⟨i.refilled c cs later, wellFormed_refilled i c cs nonempty,
          (pending_refilled i c cs later).trans hrest, readchar_run_refill s hcnt hchunks⟩

theorem and_of_lt {b : Byte} (h : b < 0x80) : b &&& 0x7f = b := by
  apply UInt8.toNat_inj.mp
  rw [UInt8.toNat_and]
  exact (Nat.and_two_pow_sub_one_eq_mod b.toNat 7).trans (Nat.mod_eq_of_lt h)

theorem Consumes.readchar_bind {b : Byte} {cs : List Byte} {q : Option Byte → Proc Link β}
    {r : β} {g : Session → Session} (hq : Consumes cs (q (some (b &&& 0x7f))) r g) :
    Consumes (b :: cs) (readchar >>= q) r g :=
  (readchar_consumes b).bind hq

/-- Bytes that `readchar` does not turn into `$` are skipped, up to one that it does. -/
theorem scanStart_consumes {junk : List Byte} (quiet : ∀ b ∈ junk, b &&& 0x7f ≠ 0x24) {d : Byte}
    (start : d &&& 0x7f = 0x24) {fuel : Nat} (enough : junk.length < fuel) :
    Consumes (junk ++ [d]) (scanStart fuel) true id := by
  induction junk generalizing fuel with
  | nil =>
    obtain ⟨fuel, rfl⟩ := Nat.exists_eq_succ_of_ne_zero (Nat.ne_zero_of_lt enough)
    unfold scanStart
    apply Consumes.readchar_bind
    simp only [start]
    exact Consumes.pure true
  | cons b junk ih =>
    obtain ⟨fuel, rfl⟩ := Nat.exists_eq_succ_of_ne_zero (Nat.ne_zero_of_lt enough)
    have hb : b &&& 0x7f ≠ 0x24 := quiet b List.mem_cons_self
    unfold scanStart
    apply Consumes.readchar_bind
    simp only [if_neg hb]
    exact ih (fun c hc => quiet c (List.mem_cons_of_mem _ hc)) (Nat.lt_of_succ_lt_succ enough)

def Session.poke (i : Nat) (b : Byte) (s : Session) : Session :=
  { s with ownBuf := s.ownBuf.take i ++ b :: s.ownBuf.drop (i + 1) }

theorem poke_consumes {i : Nat} (b : Byte) (h : i < pbufsiz) :
    Consumes [] (poke i b) () (Session.poke i b) :=
  Consumes.session fun _ _ => by
    simp only [poke, h, if_true]
    rfl

/-- A body and the NUL after it, stored one by one from index `i` on. -/
def Session.store : Nat → List Byte → Session → Session
  | i, [], s => s.poke i 0
  | i, b :: bs, s => (s.poke i b).store (i + 1) bs

/-- Bytes as `readchar` returns them. -/
def masked (bytes : List Byte) : List Byte := bytes.map (· &&& 0x7f)

theorem masked_of_seven {bytes : List Byte} (seven : ∀ b ∈ bytes, b < 0x80) :
    masked bytes = bytes :=
  (List.map_congr_left fun b hb => and_of_lt (seven b hb)).trans (List.map_id bytes)

theorem readBody_reads {body : List Byte} (noEnd : 0x23 ∉ masked body) {e : Byte}
    (hash : e &&& 0x7f = 0x23) {fuel i : Nat} (fits : i + body.length < pbufsiz)
    (enough : body.length < fuel) (csum : Byte) :
    Consumes (body ++ [e]) (readBody fuel i csum)
      (some (i + body.length, csum + (masked body).sum)) (Session.store i (masked body)) := by
  induction body generalizing fuel i csum with
  | nil =>
    obtain ⟨fuel, rfl⟩ := Nat.exists_eq_succ_of_ne_zero (Nat.ne_zero_of_lt enough)
    unfold readBody
    apply Consumes.readchar_bind
    simp only [hash]
    have hstore := (poke_consumes 0 fits).bind (q := fun _ => pure (some (i, csum)))
      (Consumes.pure _)
    rw [masked, List.map_nil, List.sum_nil, UInt8.add_zero]
    exact hstore
  | cons b body ih =>
    obtain ⟨fuel, rfl⟩ := Nat.exists_eq_succ_of_ne_zero (Nat.ne_zero_of_lt enough)
    simp only [List.length_cons] at fits enough
    have hne : b &&& 0x7f ≠ 0x23 := fun h => noEnd (by
      rw [masked, List.map_cons, h]
      exact List.mem_cons_self)
    have hrest : Consumes (body ++ [e]) (readBody fuel (i + 1) (csum + (b &&& 0x7f)))
        (some (i + 1 + body.length, csum + (b &&& 0x7f) + (masked body).sum))
        (Session.store (i + 1) (masked body)) :=
      ih (fun h => noEnd (List.mem_cons_of_mem _ h)) (by omega) (by omega) (csum + (b &&& 0x7f))
    unfold readBody
    apply Consumes.readchar_bind
    simp only [if_neg hne]
    have hstore := (poke_consumes (b &&& 0x7f) (show i < pbufsiz by omega)).bind
      (q := fun _ => readBody fuel (i + 1) (csum + (b &&& 0x7f))) hrest
    have hlen : i + 1 + body.length = i + (b :: body).length := by
      rw [List.length_cons]
      omega
    rw [hlen, UInt8.add_assoc, ← List.sum_cons] at hstore
    exact hstore

theorem store_ownBuf (i : Nat) (body : List Byte) (s : Session) (h : i ≤ s.ownBuf.length) :
    (s.store i body).ownBuf =
      s.ownBuf.take i ++ body ++ 0 :: s.ownBuf.drop (i + body.length + 1) := by
  induction body generalizing i s with
  | nil => simp [Session.store, Session.poke]
  | cons b body ih =>
    have hlen : (s.ownBuf.take i).length = i := List.length_take_of_le h
    have hle : i + 1 ≤ (s.poke i b).ownBuf.length := by
      simp [Session.poke]
      omega
    have htake : (s.poke i b).ownBuf.take (i + 1) = s.ownBuf.take i ++ [b] := by
      rw [Session.poke, List.take_append, hlen, List.take_of_length_le (by omega)]
      simp
    have hdrop : (s.poke i b).ownBuf.drop (i + 1 + body.length + 1) =
        s.ownBuf.drop (i + (b :: body).length + 1) := by
      have hi : i + 1 + body.length + 1 - i = body.length + 1 + 1 := by omega
      have hk : i + 1 + (body.length + 1) = i + (body.length + 1) + 1 := by omega
      rw [Session.poke, List.drop_append, hlen, List.drop_of_length_le (by omega), hi]
      simp [hk]
    rw [Session.store, ih (i + 1) (s.poke i b) hle, htake, hdrop]
    simp

theorem store_eq (i : Nat) (body : List Byte) (s : Session) :
    s.store i body = { s with ownBuf := (s.store i body).ownBuf } := by
  induction body generalizing i s with
  | nil => rfl
  | cons b body ih => exact ih (i + 1) (s.poke i b)

theorem hexDigit_tohex : ∀ n < 16, hexDigit (tohex n) = some n := by
  decide

theorem lt_of_hexDigit {c : Byte} {v : Nat} (h : hexDigit c = some v) : c < 0x80 := by
  unfold hexDigit at h
  split at h
  · rename_i hc
    exact UInt8.lt_of_le_of_lt hc.2 (by decide)
  · split at h
    · rename_i hc
      exact UInt8.lt_of_le_of_lt hc.2 (by decide)
    · cases h

/-- A body of 7-bit bytes that fits the buffer. -/
structure Body (body : List Byte) : Prop where
  seven : ∀ b ∈ body, b < 0x80
  noEnd : 0x23 ∉ body
  fits : body.length < pbufsiz

def Session.wrote (bytes : List Byte) (s : Session) : Session :=
  { s with writes := s.writes ++ [bytes], writable := s.writable.map (· - 1) }

/-- What may stand on the wire before a good frame. -/
inductive Noise
  | junk (run : List Byte)
  | corrupted (body : List Byte) (x y : Byte)
  deriving DecidableEq, Repr

namespace Noise

def wire : Noise → List Byte
  | junk run => run
  | corrupted body x y => 0x24 :: body ++ [0x23, x, y]

/-- A run without `$` even after masking, or a frame whose two lower-case hex digits do
not spell the checksum of its body. -/
def Acceptable : Noise → Prop
  | junk run => ∀ b ∈ run, b &&& 0x7f ≠ 0x24
  | corrupted body x y => Body body ∧
      ∃ c1 c2, hexDigit x = some c1 ∧ hexDigit y = some c2 ∧
        (checksum body).toNat ≠ c1 * 16 + c2

/-- How `getpkt` deals with it. -/
def handled : Noise → Session → Session
  | junk _, s => s
  | corrupted body _ _, s => (s.store 0 body).wrote [0x2d]

def nacks : Noise → Nat
  | junk _ => 0
  | corrupted _ _ _ => 1

end Noise

/-- Bytes in 1..127 without `#` for which `putpkt` has room. -/
structure Payload (payload : List Byte) : Prop where
  range : ∀ b ∈ payload, 0 < b ∧ b < 0x80
  noEnd : 0x23 ∉ payload
  room : payload.length + 5 ≤ pbufsiz

theorem Payload.body {payload : List Byte} (h : Payload payload) : Body payload where
  seven b hb := (h.range b hb).2
  noEnd := h.noEnd
  fits := by
    have := h.room
    omega

def readDigits (q : Nat → Nat → Proc Link α) : Proc Link α := do
  let c1 ← fromhex (← readchar)
  let c2 ← fromhex (← readchar)
  q c1 c2

theorem readDigits_run {x y : Byte} {c1 c2 : Nat} (hx : hexDigit (x &&& 0x7f) = some c1)
    (hy : hexDigit (y &&& 0x7f) = some c2) {i : Input} (wf : i.WellFormed) {rest : List Byte}
    (pending : i.pending = x :: y :: rest) (s : Session) :
    ∃ i', i'.WellFormed ∧ i'.pending = rest ∧ ∀ q : Nat → Nat → Proc Link α,
      (readDigits q).run ⟨i, s⟩ = (q c1 c2).run ⟨i', s⟩ := by
  obtain ⟨i₁, wf₁, pending₁, hrun₁⟩ := readchar_consumes x i s (y :: rest) wf pending
  obtain ⟨i₂, wf₂, pending₂, hrun₂⟩ := readchar_consumes y i₁ s rest wf₁ pending₁
  refine ⟨i₂, wf₂, pending₂, fun q => ?_⟩
  rw [id_eq] at hrun₁ hrun₂
  simp only [readDigits, EStateM.run_bind, hrun₁, hrun₂, fromhex, Option.bind_some, hx, hy,
    EStateM.run_pure]

theorem receive_reads {lead body : List Byte} (quiet : ∀ b ∈ lead, b &&& 0x7f ≠ 0x24)
    {d e : Byte} (start : d &&& 0x7f = 0x24) (noEnd : 0x23 ∉ masked body)
    (hash : e &&& 0x7f = 0x23) (fits : body.length < pbufsiz) {fuel : Nat}
    (enough : lead.length + body.length < fuel + 1) {i : Input} (wf : i.WellFormed)
    {rest : List Byte} (pending : i.pending = lead ++ d :: body ++ e :: rest) (s : Session) :
    ∃ i', i'.WellFormed ∧ i'.pending = rest ∧
      (receive (fuel + 1)).run ⟨i, s⟩ =
        (readDigits fun c1 c2 =>
          if (checksum (masked body)).toNat = c1 * 16 + c2 then return (body.length : Int)
          else do
            let _ ← write [0x2d]
            receive fuel).run ⟨i', s.store 0 (masked body)⟩ := by
  have hread : Consumes (body ++ [e]) (readBody (fuel + 1) 0 0)
      (some (0 + body.length, 0 + (masked body).sum)) (Session.store 0 (masked body)) :=
    readBody_reads noEnd hash (by omega) (by omega) 0
  rw [UInt8.zero_add, Nat.zero_add] at hread
  obtain ⟨i₁, wf₁, pending₁, hrun₁⟩ := scanStart_consumes quiet start
    (show lead.length < fuel + 1 by omega) i s (body ++ e :: rest) wf (by simp [pending])
  obtain ⟨i₂, wf₂, pending₂, hrun₂⟩ := hread i₁ s rest wf₁ (by simp [pending₁])
  refine ⟨i₂, wf₂, pending₂, ?_⟩
  conv_lhs => unfold receive
  rw [EStateM.run_bind, hrun₁]
  simp only [id_eq, if_true]
  rw [EStateM.run_bind, hrun₂]
  rfl

theorem receive_run {lead body : List Byte} (quiet : ∀ b ∈ lead, b &&& 0x7f ≠ 0x24)
    (hbody : Body body) {x y : Byte} {c1 c2 : Nat} (hx : hexDigit x = some c1)
    (hy : hexDigit y = some c2) {fuel : Nat} (enough : lead.length + body.length < fuel + 1)
    {i : Input} (wf : i.WellFormed) {rest : List Byte}
    (pending : i.pending = lead ++ 0x24 :: body ++ 0x23 :: x :: y :: rest) (s : Session) :
    ∃ i', i'.WellFormed ∧ i'.pending = rest ∧
      (receive (fuel + 1)).run ⟨i, s⟩ =
        (if (checksum body).toNat = c1 * 16 + c2 then return (body.length : Int)
          else do
            let _ ← write [0x2d]
            receive fuel : Proc Link Int).run ⟨i', s.store 0 body⟩ := by
  have hmask := masked_of_seven hbody.seven
  obtain ⟨i₁, wf₁, pending₁, hrun₁⟩ := receive_reads quiet rfl
    (by rw [hmask]; exact hbody.noEnd) rfl hbody.fits enough wf pending s
  have hx' : hexDigit (x &&& 0x7f) = some c1 := by rwa [and_of_lt (lt_of_hexDigit hx)]
  have hy' : hexDigit (y &&& 0x7f) = some c2 := by rwa [and_of_lt (lt_of_hexDigit hy)]
  obtain ⟨i₂, wf₂, pending₂, hrun₂⟩ := readDigits_run hx' hy' wf₁ pending₁
    (s.store 0 (masked body))
  refine ⟨i₂, wf₂, pending₂, ?_⟩
  rw [hrun₁, hrun₂, hmask]

theorem receive_frame {lead body : List Byte} (quiet : ∀ b ∈ lead, b &&& 0x7f ≠ 0x24)
    (hbody : Body body) {x y : Byte} {c1 c2 : Nat} (hx : hexDigit x = some c1)
    (hy : hexDigit y = some c2) {fuel : Nat} (enough : lead.length + body.length < fuel + 1)
    {cs : List Byte} {len : Int} {g : Session → Session}
    (good : (checksum body).toNat = c1 * 16 + c2 → cs = [] ∧ len = body.length ∧ g = id)
    (bad : (checksum body).toNat ≠ c1 * 16 + c2 →
      Consumes cs (write [0x2d] >>= fun _ => receive fuel) len g) :
    Consumes (lead ++ 0x24 :: body ++ 0x23 :: x :: y :: cs) (receive (fuel + 1)) len
      (g ∘ Session.store 0 body) := by
  rintro i s rest wf pending
  have hsplit : i.pending = lead ++ 0x24 :: body ++ 0x23 :: x :: y :: (cs ++ rest) := by
    simpa using pending
  obtain ⟨i', wf', pending', hrun⟩ := receive_run quiet hbody hx hy enough wf hsplit s
  by_cases hsum : (checksum body).toNat = c1 * 16 + c2
  · obtain ⟨rfl, rfl, rfl⟩ := good hsum
    rw [if_pos hsum] at hrun
    exact ⟨i', wf', pending', hrun⟩
  · rw [if_neg hsum] at hrun
    rw [hrun]
    exact bad hsum i' _ rest wf' pending'

/-- The session after a good frame that came after all the noise. -/
def received (noise : List Noise) (payload : List Byte) (s : Session) : Session :=
  (noise.foldl (fun s n => n.handled s) s).store 0 payload

theorem Consumes.write_bind {bytes cs : List Byte} {q : Bool → Proc Link β} {r : β}
    {g : Session → Session} (hq : ∀ ok, Consumes cs (q ok) r g) :
    Consumes cs (write bytes >>= q) r (g ∘ Session.wrote bytes) :=
  fun i s rest wf pending => hq (s.writable != some 0) i (s.wrote bytes) rest wf pending

/-- The quiet bytes `lead` have been skipped over before the list is looked at. -/
theorem receive_consumes {noise : List Noise} (acceptable : ∀ n ∈ noise, n.Acceptable)
    {payload : List Byte} (hbody : Body payload) {lead : List Byte}
    (quiet : ∀ b ∈ lead, b &&& 0x7f ≠ 0x24) {fuel : Nat}
    (enough : (lead ++ noise.flatMap Noise.wire ++ frame payload).length < fuel + 1) :
    Consumes (lead ++ noise.flatMap Noise.wire ++ frame payload) (receive (fuel + 1))
      payload.length (received noise payload) := by
  induction noise generalizing lead fuel with
  | nil =>
    have hlt : (checksum payload).toNat < 256 := (checksum payload).toNat_lt
    have hlen : lead.length + payload.length < fuel + 1 := by
      simp only [List.flatMap_nil, List.append_nil, List.length_append, frame,
        List.length_cons] at enough
      omega
    have hframe : Consumes (lead ++ 0x24 :: payload ++ 0x23 ::
        tohex ((checksum payload).toNat / 16) :: tohex ((checksum payload).toNat % 16) :: [])
        (receive (fuel + 1)) payload.length (id ∘ Session.store 0 payload) :=
      receive_frame quiet hbody (hexDigit_tohex _ (by omega))
        (hexDigit_tohex _ (Nat.mod_lt _ (by omega))) hlen (fun _ => ⟨rfl, rfl, rfl⟩)
        (fun h => absurd (by omega) h)
    change Consumes _ _ _ (Session.store 0 payload)
    simpa [frame] using hframe
  | cons n noise ih =>
    have hrest : ∀ m ∈ noise, m.Acceptable := fun m hm => acceptable m (List.mem_cons_of_mem _ hm)
    cases n with
    | junk run =>
      have hrun : ∀ b ∈ run, b &&& 0x7f ≠ 0x24 := acceptable _ List.mem_cons_self
      have hlead : ∀ b ∈ lead ++ run, b &&& 0x7f ≠ 0x24 :=
        List.forall_mem_append.mpr ⟨quiet, hrun⟩
      have hnext : Consumes ((lead ++ run) ++ noise.flatMap Noise.wire ++ frame payload)
          (receive (fuel + 1)) payload.length (received noise payload) :=
        ih hrest hlead (by simpa [Noise.wire] using enough)
      change Consumes _ _ _ (received noise payload)
      simpa [Noise.wire] using hnext
    | corrupted body x y =>
      obtain ⟨hbad, c1, c2, hx, hy, hne⟩ := acceptable _ List.mem_cons_self
      simp only [List.flatMap_cons, Noise.wire, List.length_append, List.length_cons] at enough
      obtain ⟨fuel, rfl⟩ := Nat.exists_eq_succ_of_ne_zero (show fuel ≠ 0 by omega)
      have hnext : Consumes ([] ++ noise.flatMap Noise.wire ++ frame payload)
          (receive (fuel + 1)) payload.length (received noise payload) := by
        apply ih hrest (by simp)
        rw [List.nil_append, List.length_append]
        omega
      have hframe : Consumes (lead ++ 0x24 :: body ++ 0x23 :: x :: y ::
          ([] ++ noise.flatMap Noise.wire ++ frame payload)) (receive (fuel + 1 + 1))
          payload.length
          ((received noise payload ∘ Session.wrote [0x2d]) ∘ Session.store 0 body) :=
        receive_frame quiet hbad hx hy (by omega) (fun h => absurd h hne)
          (fun _ => Consumes.write_bind fun _ => hnext)
      change Consumes _ _ _ ((received noise payload ∘ Session.wrote [0x2d]) ∘ Session.store 0 body)
      simpa [Noise.wire] using hframe

/-- Only the `-` bytes and the buffer are left of the noise. -/
theorem handled_writes (noise : List Noise) (s : Session) :
    (noise.foldl (fun s n => n.handled s) s).writes =
        s.writes ++ List.replicate (noise.map Noise.nacks).sum [0x2d] ∧
      (noise.foldl (fun s n => n.handled s) s).noAckMode = s.noAckMode := by
  induction noise generalizing s with
  | nil => simp
  | cons n noise ih =>
    obtain ⟨hwrites, hmode⟩ := ih (n.handled s)
    rw [List.foldl_cons, hwrites, hmode]
    cases n with
    | junk run => simp [Noise.handled, Noise.nacks]
    | corrupted body x y =>
      simp only [Noise.handled, Noise.nacks, Session.wrote, List.map_cons, List.sum_cons]
      rw [store_eq]
      simp [Nat.add_comm 1, List.replicate_succ]

/-- For every chunking, `getpkt` returns the payload that follows the noise, answers each
corrupted frame with one `-` and the good one with `+` in ack mode, and has read exactly
up to the end of the frame. -/
theorem getpkt_recovers {noise : List Noise} (acceptable : ∀ n ∈ noise, n.Acceptable)
    {payload : List Byte} (hpay : Payload payload) {i : Input} (wf : i.WellFormed)
    {rest : List Byte}
    (pending : i.pending = noise.flatMap Noise.wire ++ frame payload ++ rest) (s : Session) :
    ∃ i' s', getpkt.run ⟨i, s⟩ = .ok payload.length ⟨i', s'⟩ ∧
      i'.WellFormed ∧ i'.pending = rest ∧
      (∃ stale, s'.ownBuf = payload ++ 0 :: stale) ∧
      s'.writes = s.writes ++ List.replicate (noise.map Noise.nacks).sum [0x2d] ++
        (if s.noAckMode then [] else [[0x2b]]) := by
  have hreceive : Consumes ([] ++ noise.flatMap Noise.wire ++ frame payload)
      (receive (i.pending.length + 1)) payload.length (received noise payload) := by
    apply receive_consumes acceptable hpay.body (by simp)
    simp only [pending, List.nil_append, List.length_append]
    omega
  obtain ⟨i', wf', pending', hrun⟩ := hreceive i s rest wf (by simpa using pending)
  obtain ⟨hwrites, hmode⟩ := handled_writes noise s
  have hbuf : ∃ stale, (received noise payload s).ownBuf = payload ++ 0 :: stale := by
    rw [received, store_ownBuf 0 payload _ (Nat.zero_le _)]
    exact ⟨_, rfl⟩
  have hsame : (received noise payload s).writes =
      s.writes ++ List.replicate (noise.map Noise.nacks).sum [0x2d] ∧
      (received noise payload s).noAckMode = s.noAckMode := by
    rw [received, store_eq]
    exact ⟨hwrites, hmode⟩
  have hget : getpkt.run ⟨i, s⟩ = .ok payload.length
      ⟨i', if s.noAckMode then received noise payload s
        else (received noise payload s).wrote [0x2b]⟩ := by
    cases hno : s.noAckMode <;>
      simp [getpkt, hrun, hsame.2, hno, write, Session.wrote]
  refine ⟨i', _, hget, wf', pending', ?_, ?_⟩
  · cases s.noAckMode
    · exact hbuf
    · exact hbuf
  · cases s.noAckMode
    · simp [Session.wrote, hsame.1]
    · simp [hsame.1]

def Input.unread (chunks : List (List Byte)) : Input :=
  { chunks := chunks, failed := false, buf := [], bufp := 0, bufcnt := 0 }

def freshSession : Session :=
  { writes := [], writable := none, noAckMode := false, ownBuf := [] }

/-- Junk, a damaged `g` packet and a good one, cut inside both frames. -/
theorem getpkt_recovers_g :
    ∃ i' s', getpkt.run ⟨.unread [[0x03, 0x24], [0x67, 0x23, 0x36], [0x38, 0x24, 0x67, 0x23],
        [0x36, 0x37, 0x2b]], freshSession⟩ = .ok ([0x67] : List Byte).length ⟨i', s'⟩ ∧
      i'.WellFormed ∧ i'.pending = [0x2b] ∧
      (∃ stale, s'.ownBuf = [0x67] ++ 0 :: stale) ∧
      s'.writes = freshSession.writes ++
        List.replicate ([Noise.junk [0x03], .corrupted [0x67] 0x36 0x38].map Noise.nacks).sum
          [0x2d] ++ (if freshSession.noAckMode then [] else [[0x2b]]) := by
  have acceptable : ∀ n ∈ [Noise.junk [0x03], .corrupted [0x67] 0x36 0x38], n.Acceptable := by
    rintro n hn
    rcases List.mem_cons.mp hn with rfl | hn
    · show ∀ b ∈ [(0x03 : Byte)], b &&& 0x7f ≠ 0x24
      decide +kernel
    · rw [List.mem_singleton.mp hn]
      exact ⟨⟨by decide +kernel, by decide +kernel, by decide⟩, 6, 8, rfl, rfl, by decide +kernel⟩
  have hpay : Payload [0x67] := ⟨by decide +kernel, by decide +kernel, by decide⟩
  exact getpkt_recovers acceptable hpay ⟨by decide, by decide⟩ rfl _

/-- The junk byte 0xa4 is read as `$`: the good frame becomes part of its body. -/
theorem not_getpkt_recovers_a4 :
    ¬ ∃ i' s', getpkt.run ⟨.unread [0xa4 :: frame [0x67]], freshSession⟩ =
      .ok ([0x67] : List Byte).length ⟨i', s'⟩ := by
  rintro ⟨i', s', h⟩
  have hvalue : Proc.value (getpkt.run ⟨.unread [0xa4 :: frame [0x67]], freshSession⟩) =
      some 1 := by
    rw [h]
    rfl
  revert hvalue
  decide +kernel

end Remote
