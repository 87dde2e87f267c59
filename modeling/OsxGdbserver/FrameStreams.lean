import OsxGdbserver.Streams

/-!
# What `getpkt` finds in a stream

For every stream `getpkt` either accepts the first good frame after some noise, or meets
the end, or stops with `error` at a character that is no digit. The one other way for it to
end is a body for which `own_buf` is too short.
-/

namespace Remote

variable {α : Type}

/-- `readchar` has just returned -1. -/
def HungUp (l : Link) : Prop := ∃ l₀, readchar.run l₀ = .ok none l

/-- The first good frame in `bytes` has the body `body`. -/
def NextFrame (bytes body rest : List Byte) : Prop :=
  ∃ noise : List Noise, (∀ n ∈ noise, n.Acceptable) ∧ Body body ∧
    bytes = noise.flatMap Noise.wire ++ frame body ++ rest

/-- Before any good frame there is a body that goes beyond the end of `own_buf`. -/
def Overruns (bytes : List Byte) : Prop :=
  ∃ (noise : List Noise) (body : List Byte) (c : Byte) (rest : List Byte),
    (∀ n ∈ noise, n.Acceptable) ∧ 0x23 ∉ body ∧ body.length = pbufsiz ∧
      bytes = noise.flatMap Noise.wire ++ 0x24 :: body ++ c :: rest

theorem NextFrame.cons {n : Noise} (hn : n.Acceptable) {bytes body rest : List Byte}
    (h : NextFrame bytes body rest) : NextFrame (n.wire ++ bytes) body rest := by
  obtain ⟨noise, acceptable, hbody, rfl⟩ := h
  refine ⟨n :: noise, ?_, hbody, ?_⟩
  · rintro m hm
    rcases List.mem_cons.mp hm with rfl | hm
    · exact hn
    · exact acceptable m hm
  · simp

theorem Overruns.cons {n : Noise} (hn : n.Acceptable) {bytes : List Byte} (h : Overruns bytes) :
    Overruns (n.wire ++ bytes) := by
  obtain ⟨noise, body, c, rest, acceptable, hend, hlen, rfl⟩ := h
  refine ⟨n :: noise, body, c, rest, ?_, hend, hlen, ?_⟩
  · rintro m hm
    rcases List.mem_cons.mp hm with rfl | hm
    · exact hn
    · exact acceptable m hm
  · simp

theorem read_ends (n : Nat) (l : Link) :
    Proc.Ends (read n) (fun r _ => r.1 ≤ 0 ↔ r.2 = []) (fun _ _ => True) l := by
  unfold read
  rw [Proc.Ends.modifyGet_iff]
  cases hchunks : l.input.chunks with
  | nil =>
    dsimp only
    refine iff_of_true ?_ rfl
    split <;> decide
  | cons chunk later =>
    dsimp only
    rw [← List.length_eq_zero_iff]
    omega

/-- The buffer is empty after the end of the stream, and there is something in it when a
character was taken from it. -/
theorem readchar_buf (l : Link) :
    Proc.Ends readchar (fun a l' => (a = none → l'.input.buf = []) ∧
      (l.input.WellFormed → a ≠ none → l'.input.buf ≠ [])) (fun _ _ => True) l := by
  simp only [readchar, Proc.Ends.bind_iff, Proc.Ends.get_iff, setBufcnt, Proc.Ends.modify_iff]
  split
  · rename_i hcnt
    simp only [nextBuffered, Proc.Ends.bind_iff, Proc.Ends.modifyGet_iff, Proc.Ends.pure_iff]
    refine ⟨by simp, ?_⟩
    rintro wf - hnil
    have hlen := wf.buffered hcnt
    rw [hnil, List.length_nil] at hlen
    omega
  · rw [Proc.Ends.bind_iff]
    refine (read_ends bufsiz _).imp ?_ fun _ _ _ => trivial
    rintro ⟨cnt, bytes⟩ l₁ hread
    simp only [Proc.Ends.bind_iff, Proc.Ends.modify_iff]
    split
    · rename_i hcnt
      exact ⟨fun _ => hread.mp hcnt, fun _ hnone => absurd rfl hnone⟩
    · rename_i hcnt
      exact ⟨by simp, fun _ _ hnil => hcnt (hread.mpr hnil)⟩

theorem readchar_ends {l : Link} (wf : l.input.WellFormed) :
    Proc.Ends readchar (fun a l' => l'.input.WellFormed ∧ l'.session = l.session ∧
      (a = none → HungUp l') ∧ (a ≠ none → l'.input.buf ≠ [])) (fun _ _ => False) l := by
  have hbuf := readchar_buf l
  obtain ⟨i, s⟩ := l
  cases hp : i.pending with
  | nil =>
    obtain ⟨i', hrun, wf', _⟩ := readchar_eof s wf hp
    rw [Proc.Ends.of_run hrun] at hbuf ⊢
    exact ⟨wf', rfl, fun _ => ⟨_, hrun⟩, hbuf.2 wf⟩
  | cons b rest =>
    obtain ⟨i', wf', _, hrun⟩ := readchar_consumes b i s rest wf hp
    rw [Proc.Ends.of_run hrun] at hbuf ⊢
    exact ⟨wf', rfl, by simp, hbuf.2 wf⟩

theorem HungUp.buf {l : Link} (h : HungUp l) : l.input.buf = [] := by
  obtain ⟨l₀, hrun⟩ := h
  have hbuf := readchar_buf l₀
  rw [Proc.Ends.of_run hrun] at hbuf
  exact hbuf.1 rfl

/-- One character, and what follows it. -/
theorem readchar_bind_ends {l : Link} (wf : l.input.WellFormed) {q : Option Byte → Proc Link α}
    {Q : α → Link → Prop} {E : Stop → Link → Prop}
    (hq : ∀ a l', l'.input.WellFormed → (a = none → HungUp l') → (a ≠ none → l'.input.buf ≠ []) →
      Proc.Ends (q a) Q E l') : Proc.Ends (readchar >>= q) Q E l := by
  rw [Proc.Ends.bind_iff]
  refine (readchar_ends wf).imp ?_ fun _ _ h => h.elim
  rintro a l' ⟨wf', _, hnone, hsome⟩
  exact hq a l' wf' hnone hsome

theorem scanStart_hangs (fuel : Nat) {l : Link} (wf : l.input.WellFormed) :
    Proc.Ends (scanStart fuel) (fun found l' => l'.input.WellFormed ∧ (found = false → HungUp l'))
      (fun _ _ => True) l := by
  induction fuel generalizing l with
  | zero => trivial
  | succ fuel ih =>
    unfold scanStart
    refine readchar_bind_ends wf fun a l' wf' hnone _ => ?_
    cases a with
    | none => exact ⟨wf', fun _ => hnone rfl⟩
    | some c =>
      dsimp only
      split
      · exact ⟨wf', by simp⟩
      · exact ih wf'

theorem poke_bind_ends {n : Nat} {b : Byte} {l : Link} {q : Unit → Proc Link α}
    {Q : α → Link → Prop} {E : Stop → Link → Prop}
    (hq : n < pbufsiz → Proc.Ends (q ()) Q E { l with session := l.session.poke n b })
    (hfull : ¬ n < pbufsiz → E (.fault "own_buf") l) : Proc.Ends (poke n b >>= q) Q E l := by
  rw [Proc.Ends.bind_iff, poke]
  by_cases hlt : n < pbufsiz
  · rw [if_pos hlt]
    exact hq hlt
  · rw [if_neg hlt]
    exact hfull hlt

theorem readBody_hangs (fuel i : Nat) (csum : Byte) {l : Link} (wf : l.input.WellFormed) :
    Proc.Ends (readBody fuel i csum)
      (fun r l' => l'.input.WellFormed ∧ (r = none → HungUp l')) (fun _ _ => True) l := by
  induction fuel generalizing i csum l with
  | zero => trivial
  | succ fuel ih =>
    unfold readBody
    refine readchar_bind_ends wf fun a l' wf' hnone _ => ?_
    cases a with
    | none => exact ⟨wf', fun _ => hnone rfl⟩
    | some c =>
      dsimp only
      split
      · exact poke_bind_ends (fun _ => ⟨wf', by simp⟩) fun _ => trivial
      · exact poke_bind_ends (fun _ => ih (i + 1) (csum + c) wf') fun _ => trivial

/-- `getpkt` fails just at the end of the stream. -/
theorem receive_hangs (fuel : Nat) {l : Link} (wf : l.input.WellFormed) :
    Proc.Ends (receive fuel)
      (fun len l' => (len < 0 → HungUp l') ∧ (0 ≤ len → l'.input.buf ≠ []))
      (fun _ _ => True) l := by
  induction fuel generalizing l with
  | zero => trivial
  | succ fuel ih =>
    unfold receive
    rw [Proc.Ends.bind_iff]
    refine (scanStart_hangs _ wf).imp ?_ fun _ _ _ => trivial
    rintro found l₁ ⟨wf₁, hfound⟩
    split
    · rw [Proc.Ends.bind_iff]
      refine (readBody_hangs _ _ _ wf₁).imp ?_ fun _ _ _ => trivial
      rintro (_ | ⟨len, csum⟩) l₂ ⟨wf₂, hbody⟩
      · exact ⟨fun _ => hbody rfl, fun hneg => absurd hneg (by decide)⟩
      · refine readchar_bind_ends wf₂ fun a l₃ wf₃ _ _ => ?_
        rw [Proc.Ends.bind_iff]
        unfold fromhex
        split
        · refine readchar_bind_ends wf₃ fun b l₄ wf₄ _ hfill => ?_
          rw [Proc.Ends.bind_iff]
          cases b with
          | none => trivial
          | some y =>
            split
            · rw [Proc.Ends.pure_iff]
              split
              · exact ⟨fun hneg => absurd hneg (by omega), fun _ => hfill (Option.some_ne_none y)⟩
              · exact ih wf₄
            · trivial
        · trivial
    · rename_i hfalse
      exact ⟨fun _ => hfound (Bool.eq_false_iff.mpr hfalse), fun hneg => absurd hneg (by decide)⟩

theorem tohex_of_hexDigit {c : Byte} {v : Nat} (h : hexDigit c = some v) :
    c = tohex v ∧ v < 16 := by
  unfold hexDigit at h
  split at h
  · rename_i hc
    have hlow : 0x30 ≤ c.toNat := hc.1
    have hhigh : c.toNat ≤ 0x39 := hc.2
    cases h
    refine ⟨UInt8.toNat_inj.mp ?_, by omega⟩
    rw [tohex, if_pos (by omega), UInt8.toNat_ofNat_of_lt' (show _ < 256 by omega)]
    omega
  · split at h
    · rename_i hc
      have hlow : 0x61 ≤ c.toNat := hc.1
      have hhigh : c.toNat ≤ 0x66 := hc.2
      cases h
      refine ⟨UInt8.toNat_inj.mp ?_, by omega⟩
      rw [tohex, if_neg (by omega), UInt8.toNat_ofNat_of_lt' (show _ < 256 by omega)]
      omega
    · cases h

theorem seven_suffix {bytes front rest : List Byte} (seven : ∀ b ∈ bytes, b < 0x80)
    (split : bytes = front ++ rest) : ∀ b ∈ rest, b < 0x80 := by
  rw [split, List.forall_mem_append] at seven
  exact seven.2

/-- The next character of a stream of 7-bit bytes. -/
theorem readchar_known {i : Input} (wf : i.WellFormed) (seven : ∀ b ∈ i.pending, b < 0x80)
    (s : Session) {q : Option Byte → Proc Link α} {Q : α → Link → Prop} {E : Stop → Link → Prop}
    (hend : i.pending = [] → ∀ i', Proc.Ends (q none) Q E ⟨i', s⟩)
    (hnext : ∀ b i', i.pending = b :: i'.pending → i'.WellFormed →
      (∀ c ∈ i'.pending, c < 0x80) → Proc.Ends (q (some b)) Q E ⟨i', s⟩) :
    Proc.Ends (readchar >>= q) Q E ⟨i, s⟩ := by
  rw [Proc.Ends.bind_iff]
  cases hp : i.pending with
  | nil =>
    obtain ⟨i', hrun, _⟩ := readchar_eof s wf hp
    rw [Proc.Ends.of_run hrun]
    exact hend hp i'
  | cons b rest =>
    obtain ⟨i', wf', hrest, hrun⟩ := readchar_consumes b i s rest wf hp
    rw [hp, List.forall_mem_cons] at seven
    obtain ⟨hb, hseven⟩ := seven
    rw [Proc.Ends.of_run hrun, and_of_lt hb]
    exact hnext b i' (by rw [hp, hrest]) wf' (hrest ▸ hseven)

theorem scanStart_known {fuel : Nat} {i : Input} (wf : i.WellFormed)
    (seven : ∀ b ∈ i.pending, b < 0x80) (enough : i.pending.length < fuel) (s : Session) :
    Proc.Ends (scanStart fuel)
      (fun found l' => found = true → l'.input.WellFormed ∧ l'.session = s ∧
        ∃ lead, 0x24 ∉ lead ∧ i.pending = lead ++ 0x24 :: l'.input.pending)
      (fun _ _ => False) ⟨i, s⟩ := by
  induction fuel generalizing i with
  | zero => exact absurd enough (Nat.not_lt_zero _)
  | succ fuel ih =>
    unfold scanStart
    refine readchar_known wf seven s (fun _ _ => by simp) fun b i' hpending wf' seven' => ?_
    dsimp only
    split
    · rename_i hb
      subst hb
      exact fun _ => ⟨wf', rfl, [], List.not_mem_nil, hpending⟩
    · rename_i hb
      rw [hpending, List.length_cons] at enough
      refine (ih wf' seven' (by omega)).imp ?_ fun _ _ h => h
      intro found l' hfound htrue
      obtain ⟨wf₂, hs, lead, hlead, hsplit⟩ := hfound htrue
      refine ⟨wf₂, hs, b :: lead, ?_, by rw [hpending, hsplit]; rfl⟩
      rintro hmem
      rcases List.mem_cons.mp hmem with heq | hmem
      · exact hb heq.symm
      · exact hlead hmem

/-- The bytes `body` up to the `#` have been stored from `own_buf[n]` on. -/
structure BodyRead (i : Input) (s : Session) (n : Nat) (csum : Byte) (body : List Byte)
    (r : Nat × Byte) (l : Link) : Prop where
  wellFormed : l.input.WellFormed
  noEnd : 0x23 ∉ body
  pending : i.pending = body ++ 0x23 :: l.input.pending
  len : r.1 = n + body.length
  fits : r.1 < pbufsiz
  csum : r.2 = csum + body.sum
  session : l.session = s.store n body

/-- From `own_buf[n]` on there is no room for the bytes that come before the next `#`. -/
def BodyOverruns (bytes : List Byte) (n : Nat) : Prop :=
  ∃ body c rest, 0x23 ∉ body ∧ n + body.length = pbufsiz ∧ bytes = body ++ c :: rest

theorem BodyRead.cons {i i' : Input} {s : Session} {n : Nat} {csum b : Byte} {body : List Byte}
    {r : Nat × Byte} {l : Link} (hb : b ≠ 0x23) (hpending : i.pending = b :: i'.pending)
    (h : BodyRead i' (s.poke n b) (n + 1) (csum + b) body r l) :
    BodyRead i s n csum (b :: body) r l where
  wellFormed := h.wellFormed
  noEnd := by simp [hb.symm, h.noEnd]
  pending := by rw [hpending, h.pending, List.cons_append]
  len := by
    rw [h.len, List.length_cons]
    omega
  fits := h.fits
  csum := by rw [h.csum, List.sum_cons, UInt8.add_assoc]
  session := h.session

theorem BodyOverruns.cons {bytes : List Byte} {b : Byte} {n : Nat} (hb : b ≠ 0x23)
    (h : BodyOverruns bytes (n + 1)) : BodyOverruns (b :: bytes) n := by
  obtain ⟨body, c, rest, hend, hlen, rfl⟩ := h
  refine ⟨b :: body, c, rest, by simp [hb.symm, hend], ?_, rfl⟩
  rw [List.length_cons]
  omega

theorem readBody_known {fuel n : Nat} {csum : Byte} {i : Input} (wf : i.WellFormed)
    (seven : ∀ b ∈ i.pending, b < 0x80) (enough : i.pending.length < fuel) (room : n ≤ pbufsiz)
    (s : Session) :
    Proc.Ends (readBody fuel n csum)
      (fun r l' => (∃ body read, r = some read ∧ BodyRead i s n csum body read l') ∨
        r = none ∧ n + i.pending.length ≤ pbufsiz ∧ 0x23 ∉ i.pending)
      (fun e _ => e = .fault "own_buf" ∧ BodyOverruns i.pending n) ⟨i, s⟩ := by
  induction fuel generalizing i n csum s with
  | zero => exact absurd enough (Nat.not_lt_zero _)
  | succ fuel ih =>
    unfold readBody
    refine readchar_known wf seven s ?_ fun b i' hpending wf' seven' => ?_
    · intro hend i'
      refine Or.inr ⟨rfl, ?_⟩
      rw [hend]
      exact ⟨room, List.not_mem_nil⟩
    · have hfull : ¬ n < pbufsiz → BodyOverruns i.pending n := by
        intro hfull
        have heq : n = pbufsiz := by omega
        exact ⟨[], b, i'.pending, List.not_mem_nil, heq, hpending⟩
      dsimp only
      split
      · rename_i hb
        subst hb
        refine poke_bind_ends (fun hlt => Or.inl ⟨[], (n, csum), rfl, ?_⟩) fun h => ⟨rfl, hfull h⟩
        exact ⟨wf', List.not_mem_nil, hpending, rfl, hlt, by simp, rfl⟩
      · rename_i hb
        refine poke_bind_ends (fun hlt => ?_) fun h => ⟨rfl, hfull h⟩
        rw [hpending, List.length_cons] at enough
        refine (ih wf' seven' (by omega) hlt _).imp ?_ ?_
        · rintro r l' (⟨body, read, hr, hread⟩ | ⟨hr, hshort, hend⟩)
          · exact Or.inl ⟨b :: body, read, hr, hread.cons hb hpending⟩
          · refine Or.inr ⟨hr, ?_⟩
            rw [hpending, List.length_cons]
            exact ⟨by omega, by simp [Ne.symm hb, hend]⟩
        · rintro e l' ⟨he, hover⟩
          rw [hpending]
          exact ⟨he, hover.cons hb⟩

/-- A digit of the checksum. -/
theorem digit_known {i : Input} (wf : i.WellFormed) (seven : ∀ b ∈ i.pending, b < 0x80)
    (s : Session) {q : Nat → Proc Link α} {Q : α → Link → Prop} {E : Stop → Link → Prop}
    (hbad : ∀ i', E invalidDigit ⟨i', s⟩)
    (hq : ∀ x v i', hexDigit x = some v → i.pending = x :: i'.pending → i'.WellFormed →
      (∀ c ∈ i'.pending, c < 0x80) → Proc.Ends (q v) Q E ⟨i', s⟩) :
    Proc.Ends (do q (← fromhex (← readchar))) Q E ⟨i, s⟩ := by
  refine readchar_known wf seven s (fun _ _ => hbad _) fun x i' hpending wf' seven' => ?_
  rw [Proc.Ends.bind_iff]
  cases hx : hexDigit x with
  | none =>
    simp only [fromhex, Option.bind_some, hx]
    exact hbad _
  | some v =>
    simp only [fromhex, Option.bind_some, hx]
    exact hq x v i' hx hpending wf' seven'

/-- Both digits of the checksum. -/
theorem digits_known {i : Input} (wf : i.WellFormed) (seven : ∀ b ∈ i.pending, b < 0x80)
    (s : Session) {q : Nat → Nat → Proc Link α} {Q : α → Link → Prop} {E : Stop → Link → Prop}
    (hbad : ∀ i', E invalidDigit ⟨i', s⟩)
    (hq : ∀ x y c1 c2 i', hexDigit x = some c1 → hexDigit y = some c2 →
      i.pending = x :: y :: i'.pending → i'.WellFormed → (∀ c ∈ i'.pending, c < 0x80) →
        Proc.Ends (q c1 c2) Q E ⟨i', s⟩) :
    Proc.Ends (do
      let c1 ← fromhex (← readchar)
      let c2 ← fromhex (← readchar)
      q c1 c2) Q E ⟨i, s⟩ := by
  refine digit_known wf seven s hbad fun x c1 i₁ hx hpending₁ wf₁ seven₁ => ?_
  refine digit_known wf₁ seven₁ s hbad fun y c2 i₂ hy hpending₂ wf₂ seven₂ => ?_
  rw [hpending₂] at hpending₁
  exact hq x y c1 c2 i₂ hx hy hpending₁ wf₂ seven₂

/-- A frame whose checksum was read as `c1` and `c2`. -/
theorem frame_of_digits {body : List Byte} {x y : Byte} {c1 c2 : Nat} (hx : hexDigit x = some c1)
    (hy : hexDigit y = some c2) (good : (checksum body).toNat = c1 * 16 + c2) :
    frame body = 0x24 :: body ++ [0x23, x, y] := by
  obtain ⟨rfl, h1⟩ := tohex_of_hexDigit hx
  obtain ⟨rfl, h2⟩ := tohex_of_hexDigit hy
  have hdiv : (c1 * 16 + c2) / 16 = c1 := by omega
  have hmod : (c1 * 16 + c2) % 16 = c2 := by omega
  simp only [frame, good, hdiv, hmod]

/-- What was read from the start of `own_buf` is a body and its checksum. -/
theorem BodyRead.body {i : Input} {s : Session} {body : List Byte} {r : Nat × Byte} {l : Link}
    (h : BodyRead i s 0 0 body r l) (seven : ∀ b ∈ i.pending, b < 0x80) :
    Body body ∧ r = (body.length, checksum body) := by
  have hlen : r.1 = body.length := by rw [h.len, Nat.zero_add]
  have hsum : r.2 = checksum body := by
    rw [h.csum, UInt8.zero_add]
    rfl
  have hfits := h.fits
  rw [h.pending, List.forall_mem_append] at seven
  exact ⟨⟨seven.1, h.noEnd, hlen ▸ hfits⟩, Prod.ext hlen hsum⟩

/-- One round of `getpkt`: it ends at the end of the input, at a character that is no digit,
outside of `own_buf` or with the first good frame, or it refuses a frame and goes on behind
it. -/
theorem receive_round {fuel : Nat} {i : Input} (wf : i.WellFormed)
    (seven : ∀ b ∈ i.pending, b < 0x80) (enough : i.pending.length < fuel + 1) (s : Session)
    {Q : Int → Link → Prop} {E : Stop → Link → Prop}
    (quit : ∀ l : Link, l.session.writes = s.writes → Q (-1) l)
    (undigit : ∀ l : Link, l.session.writes = s.writes → E invalidDigit l)
    (overrun : ∀ l : Link, l.session.writes = s.writes → Overruns i.pending →
      E (.fault "own_buf") l)
    (accept : ∀ (l : Link) (body rest stale : List Byte), l.session.writes = s.writes →
      NextFrame i.pending body rest → l.session.ownBuf = body ++ 0 :: stale →
        Q body.length l)
    (refuse : ∀ (i' : Input) (s' : Session) (lead body : List Byte) (x y : Byte),
      i'.WellFormed → (∀ b ∈ i'.pending, b < 0x80) → i'.pending.length < fuel →
        s'.writes = s.writes → 0x24 ∉ lead → (Noise.junk lead).Acceptable →
          (Noise.corrupted body x y).Acceptable →
            i.pending = (Noise.junk lead).wire ++
              ((Noise.corrupted body x y).wire ++ i'.pending) →
              Proc.Ends (receive fuel) Q E ⟨i', s'.wrote [0x2d]⟩) :
    Proc.Ends (receive (fuel + 1)) Q E ⟨i, s⟩ := by
  unfold receive
  rw [Proc.Ends.bind_iff]
  refine ((scanStart_known wf seven enough s).and ((scanStart_keeps _).ends _)).imp ?_
    fun _ _ h => h.1.elim
  rintro found ⟨i₁, s₁⟩ ⟨hfound, hs₁⟩
  dsimp only at hs₁
  subst hs₁
  split
  · rename_i htrue
    obtain ⟨wf₁, -, lead, hlead, hpending₁⟩ := hfound htrue
    dsimp only at hpending₁ wf₁
    have hquiet : (Noise.junk lead).Acceptable := by
      rintro b hb heq
      have hmem : b ∈ i.pending := by
        rw [hpending₁]
        exact List.mem_append_left _ hb
      rw [and_of_lt (seven b hmem)] at heq
      exact hlead (heq ▸ hb)
    have seven₁ : ∀ b ∈ i₁.pending, b < 0x80 :=
      (List.forall_mem_cons.mp (seven_suffix seven hpending₁)).2
    have hlen₁ := congrArg List.length hpending₁
    simp only [List.length_append, List.length_cons] at hlen₁
    have hkept := readBody_keeps (f := Session.writes) (fun _ _ _ => rfl) (fuel + 1) 0 0
    rw [Proc.Ends.bind_iff]
    refine ((readBody_known wf₁ seven₁ (by omega) (Nat.zero_le _) s₁).and (hkept.ends _)).imp ?_ ?_
    · rintro r ⟨i₂, s₂⟩ ⟨⟨body, read, rfl, hread⟩ | ⟨rfl, -⟩, hwrites⟩
      · obtain ⟨hbody, rfl⟩ := hread.body seven₁
        have hpending₂ : i₁.pending = body ++ 0x23 :: i₂.pending := hread.pending
        have hs₂ : s₂ = s₁.store 0 body := hread.session
        have seven₂ : ∀ b ∈ i₂.pending, b < 0x80 :=
          (List.forall_mem_cons.mp (seven_suffix seven₁ hpending₂)).2
        refine digits_known hread.wellFormed seven₂ s₂ (fun _ => undigit _ hwrites) ?_
        rintro x y c1 c2 i₃ hx hy hpending₃ wf₃ seven₃
        have hbytes : i.pending = (Noise.junk lead).wire ++
            (0x24 :: body ++ [0x23, x, y] ++ i₃.pending) := by
          rw [hpending₁, hpending₂, hpending₃]
          simp [Noise.wire]
        split
        · rename_i hgood
          rw [Proc.Ends.pure_iff]
          have hframe := frame_of_digits hx hy hgood
          have hnext : NextFrame i.pending body i₃.pending := by
            rw [hbytes, ← hframe]
            exact NextFrame.cons hquiet ⟨[], by simp, hbody, rfl⟩
          have hbuf := store_ownBuf 0 body s₁ (Nat.zero_le _)
          exact accept _ body i₃.pending _ hwrites hnext (hs₂ ▸ hbuf)
        · rename_i hbad
          have hshorter := congrArg List.length hbytes
          simp only [List.length_append, List.length_cons] at hshorter
          rw [Proc.Ends.bind_iff]
          exact refuse i₃ s₂ lead body x y wf₃ seven₃ (by omega) hwrites hlead hquiet
            ⟨hbody, c1, c2, hx, hy, hbad⟩ hbytes
      · exact quit _ hwrites
    · rintro e l' ⟨⟨rfl, body, c, rest, hend, hlen, hpending₂⟩, hwrites⟩
      rw [Nat.zero_add] at hlen
      have hover : Overruns (0x24 :: body ++ c :: rest) :=
        ⟨[], body, c, rest, by simp, hend, hlen, rfl⟩
      refine overrun l' hwrites ?_
      rw [hpending₁, hpending₂]
      exact hover.cons hquiet
  · exact quit _ rfl

/-- What `getpkt` accepts is the first good frame. -/
theorem receive_known {fuel : Nat} {i : Input} (wf : i.WellFormed)
    (seven : ∀ b ∈ i.pending, b < 0x80) (enough : i.pending.length < fuel) (s : Session) :
    Proc.Ends (receive fuel)
      (fun len l' => 0 ≤ len → ∃ body rest stale, NextFrame i.pending body rest ∧
        len = body.length ∧ l'.session.ownBuf = body ++ 0 :: stale)
      (fun e _ => e = invalidDigit ∨ e = .fault "own_buf" ∧ Overruns i.pending) ⟨i, s⟩ := by
  induction fuel generalizing i s with
  | zero => exact absurd enough (Nat.not_lt_zero _)
  | succ fuel ih =>
    refine receive_round wf seven enough s ?_ ?_ ?_ ?_ ?_
    · exact fun _ _ hneg => absurd hneg (by decide)
    · exact fun _ _ => Or.inl rfl
    · exact fun _ _ hover => Or.inr ⟨rfl, hover⟩
    · exact fun _ body rest stale _ hnext hbuf _ => ⟨body, rest, stale, hnext, rfl, hbuf⟩
    · intro i' s' lead body x y wf' seven' hlen _ _ hquiet hcorrupted hbytes
      refine (ih wf' seven' hlen _).imp ?_ ?_
      · rintro len' l' hlen' hpos
        obtain ⟨body', rest, stale, hnext, hbody'⟩ := hlen' hpos
        refine ⟨body', rest, stale, ?_, hbody'⟩
        rw [hbytes]
        exact (hnext.cons hcorrupted).cons hquiet
      · rintro e l' (he | ⟨he, hover⟩)
        · exact Or.inl he
        · refine Or.inr ⟨he, ?_⟩
          rw [hbytes]
          exact (hover.cons hcorrupted).cons hquiet

/-- A body that is too long is not survived. -/
theorem receive_overruns {noise : List Noise} (acceptable : ∀ n ∈ noise, n.Acceptable)
    {lead body rest : List Byte} {c : Byte} (quiet : ∀ b ∈ lead, b &&& 0x7f ≠ 0x24)
    (noEnd : 0x23 ∉ body) (long : body.length = pbufsiz) {fuel : Nat} {i : Input}
    (wf : i.WellFormed) (seven : ∀ b ∈ i.pending, b < 0x80) (enough : i.pending.length < fuel)
    (pending : i.pending = lead ++ noise.flatMap Noise.wire ++ 0x24 :: body ++ c :: rest)
    (s : Session) :
    Proc.Ends (receive fuel) (fun _ _ => False) (fun e _ => e = .fault "own_buf") ⟨i, s⟩ := by
  induction noise generalizing lead fuel i s with
  | nil =>
    obtain ⟨fuel, rfl⟩ := Nat.exists_eq_succ_of_ne_zero (Nat.ne_zero_of_lt enough)
    have hlen := congrArg List.length pending
    simp only [List.flatMap_nil, List.append_nil, List.length_append, List.length_cons] at hlen
    obtain ⟨i₁, wf₁, hpending₁, hrun₁⟩ := scanStart_consumes quiet
      (show (0x24 : Byte) &&& 0x7f = 0x24 from rfl) (show lead.length < fuel + 1 by omega) i s
      (body ++ c :: rest) wf (by simp [pending])
    unfold receive
    rw [Proc.Ends.bind_iff, Proc.Ends.of_run hrun₁, if_pos rfl, Proc.Ends.bind_iff]
    have hlen₁ := congrArg List.length hpending₁
    simp only [List.length_append, List.length_cons] at hlen₁
    have hsuffix : i.pending = (lead ++ [0x24]) ++ i₁.pending := by
      simp [pending, hpending₁]
    have seven₁ := seven_suffix seven hsuffix
    refine (readBody_known wf₁ seven₁ (by omega) (Nat.zero_le _) _).imp ?_ fun _ _ h => h.1
    rintro r l' (⟨body', read, _, hread⟩ | ⟨_, hshort, _⟩)
    · -- the `#` found would stand in `body`
      have hfits := hread.fits
      have hlen' := hread.len
      have htake := congrArg (List.take pbufsiz) hread.pending
      rw [hpending₁, ← long, List.take_left, List.take_append] at htake
      refine absurd ?_ noEnd
      rw [htake]
      have hpos : body.length - body'.length = body.length - body'.length - 1 + 1 := by omega
      rw [hpos, List.take_succ_cons]
      exact List.mem_append_right _ List.mem_cons_self
    · omega
  | cons n noise ih =>
    have hrest : ∀ m ∈ noise, m.Acceptable := fun m hm => acceptable m (List.mem_cons_of_mem _ hm)
    cases n with
    | junk run =>
      have hrun : ∀ b ∈ run, b &&& 0x7f ≠ 0x24 := acceptable _ List.mem_cons_self
      have hlead : ∀ b ∈ lead ++ run, b &&& 0x7f ≠ 0x24 :=
        List.forall_mem_append.mpr ⟨quiet, hrun⟩
      exact ih hrest hlead wf seven enough (by simpa [Noise.wire] using pending) s
    | corrupted bad x y =>
      obtain ⟨hbad, c1, c2, hx, hy, hne⟩ := acceptable _ List.mem_cons_self
      obtain ⟨fuel, rfl⟩ := Nat.exists_eq_succ_of_ne_zero (Nat.ne_zero_of_lt enough)
      have hlen := congrArg List.length pending
      simp only [List.flatMap_cons, Noise.wire, List.length_append, List.length_cons] at hlen
      have hsplit : i.pending = lead ++ 0x24 :: bad ++ 0x23 :: x :: y ::
          (noise.flatMap Noise.wire ++ 0x24 :: body ++ c :: rest) := by
        simp [pending, Noise.wire]
      obtain ⟨i', wf', hpending', hrun⟩ := receive_run quiet hbad hx hy
        (show lead.length + bad.length < fuel + 1 by omega) wf hsplit s
      rw [if_neg hne] at hrun
      unfold Proc.Ends
      rw [hrun]
      have hsuffix : i.pending = (lead ++ 0x24 :: bad ++ [0x23, x, y]) ++ i'.pending := by
        simp [hsplit, hpending']
      have seven' := seven_suffix seven hsuffix
      have hlen' := congrArg List.length hpending'
      simp only [List.length_append, List.length_cons] at hlen'
      have hlead : ∀ b ∈ ([] : List Byte), b &&& 0x7f ≠ 0x24 := by simp
      exact ih hrest hlead wf' seven' (by omega) (by simpa using hpending') _

/-- The characters that `readchar` will return. -/
def Input.characters (i : Input) : List Byte := i.pending.map (· &&& 0x7f)

/-- The same input with nothing left for `readchar` to mask. -/
def Input.masked (i : Input) : Input :=
  { i with
    chunks := i.chunks.map (List.map (· &&& 0x7f))
    buf := i.buf.map (· &&& 0x7f) }

theorem mask_lt (b : Byte) : b &&& 0x7f < 0x80 := by
  change (b &&& 0x7f).toNat < 128
  rw [UInt8.toNat_and]
  exact Nat.lt_succ_of_le Nat.and_le_right

theorem pending_masked (i : Input) : i.masked.pending = i.characters := by
  simp [Input.pending, Input.characters, Input.masked, List.map_flatten, List.map_take,
    List.map_drop]

theorem masked_lt (i : Input) : ∀ b ∈ i.masked.pending, b < 0x80 := by
  rintro b hb
  rw [pending_masked] at hb
  obtain ⟨c, _, rfl⟩ := List.mem_map.mp hb
  exact mask_lt c

theorem wellFormed_masked {i : Input} (wf : i.WellFormed) : i.masked.WellFormed := by
  constructor
  · intro hcnt
    have hlen := wf.buffered hcnt
    simpa [Input.masked] using hlen
  · rintro chunk hchunk
    obtain ⟨c, hc, rfl⟩ := List.mem_map.mp hchunk
    exact fun hnil => wf.nonempty c hc (List.map_eq_nil_iff.mp hnil)

theorem alike_masked {l : Link} (wf : l.input.WellFormed) :
    Alike (· &&& 0x7f) l { l with input := l.input.masked } := by
  refine ⟨rfl, rfl, wf, wellFormed_masked wf, ?_⟩
  change l.input.pending.map (· &&& 0x7f) = l.input.masked.pending.map (· &&& 0x7f)
  rw [pending_masked, Input.characters, List.map_map]
  exact List.map_congr_left fun b _ => (and_of_lt (mask_lt b)).symm

/-- `getpkt` is `receive` and an acknowledgement. -/
theorem getpkt_ends_iff {l : Link} {Q : Int → Link → Prop} {E : Stop → Link → Prop} :
    Proc.Ends getpkt Q E l ↔
      Proc.Ends (receive (l.input.pending.length + 1)) (fun len l' =>
        Q len (if len ≥ 0 ∧ !l'.session.noAckMode then
          { l' with session := l'.session.wrote [0x2b] } else l')) E l := by
  unfold getpkt
  rw [Proc.Ends.bind_iff, Proc.Ends.get_iff, Proc.Ends.bind_iff]
  have hack : ∀ len l', Proc.Ends (do
      if len ≥ 0 ∧ !(← get).session.noAckMode then
        let _ ← write [0x2b]
      return len) Q E l' ↔ Q len (if len ≥ 0 ∧ !l'.session.noAckMode then
        { l' with session := l'.session.wrote [0x2b] } else l') := by
    intro len l'
    rw [Proc.Ends.bind_iff, Proc.Ends.get_iff]
    split <;> exact Iff.rfl
  constructor
  · exact fun h => h.imp (fun len l' => (hack len l').mp) fun _ _ he => he
  · exact fun h => h.imp (fun len l' => (hack len l').mpr) fun _ _ he => he

/-- How `getpkt` ends, on every stream. -/
theorem getpkt_known {l : Link} (wf : l.input.WellFormed) :
    Proc.Ends getpkt
      (fun len l' => (len < 0 → HungUp l') ∧ (0 ≤ len → ¬ HungUp l' ∧
        ∃ body rest stale, NextFrame l.input.characters body rest ∧ len = body.length ∧
          l'.session.ownBuf = body ++ 0 :: stale))
      (fun e _ => e = invalidDigit ∨ e = .fault "own_buf" ∧ Overruns l.input.characters) l := by
  have hhangs := receive_hangs (l.input.pending.length + 1) wf
  have hmasked := receive_known (wellFormed_masked wf) (masked_lt l.input)
    (show _ < l.input.pending.length + 1 by
      rw [pending_masked, Input.characters, List.length_map]
      exact Nat.lt_succ_self _) l.session
  rw [pending_masked] at hmasked
  have hknown := (receive_respects (fun _ _ h => h) _).ends (alike_masked wf) hmasked
  rw [getpkt_ends_iff]
  refine (hhangs.and hknown).imp ?_ ?_
  · rintro len l' ⟨⟨hend, hfill⟩, l'', halike, hframe⟩
    refine ⟨fun hneg => ?_, fun hpos => ?_⟩
    · rw [if_neg (by omega)]
      exact hend hneg
    · obtain ⟨body, rest, stale, hnext, hlen, hbuf⟩ := hframe hpos
      rw [← halike.session] at hbuf
      refine ⟨fun hup => ?_, body, rest, stale, hnext, hlen, ?_⟩
      · refine hfill hpos (Eq.trans ?_ hup.buf)
        split <;> rfl
      · split <;> exact hbuf
  · rintro e l' ⟨_, _, _, he⟩
    exact he

/-- The first good frame is accepted. -/
theorem getpkt_nextFrame {l : Link} (wf : l.input.WellFormed) {body rest : List Byte}
    (next : NextFrame l.input.characters body rest) :
    Proc.Ends getpkt
      (fun len l' => len = body.length ∧ ∃ stale, l'.session.ownBuf = body ++ 0 :: stale)
      (fun _ _ => False) l := by
  obtain ⟨noise, acceptable, hbody, hbytes⟩ := next
  have hquiet : ∀ b ∈ ([] : List Byte), b &&& 0x7f ≠ 0x24 := by simp
  have hlen : l.input.pending.length = l.input.characters.length := (List.length_map _).symm
  have henough : ([] ++ noise.flatMap Noise.wire ++ frame body).length <
      l.input.pending.length + 1 := by
    rw [hlen, hbytes]
    simp only [List.nil_append, List.length_append]
    omega
  obtain ⟨i', _, _, hrun⟩ := receive_consumes acceptable hbody hquiet henough l.input.masked
    l.session rest (wellFormed_masked wf) (by rw [pending_masked, hbytes, List.nil_append])
  have hmasked : Proc.Ends (receive (l.input.pending.length + 1))
      (fun len l' => len = body.length ∧ ∃ stale, l'.session.ownBuf = body ++ 0 :: stale)
      (fun _ _ => False) { l with input := l.input.masked } := by
    rw [Proc.Ends.of_run hrun, received, store_ownBuf 0 body _ (Nat.zero_le _)]
    exact ⟨rfl, _, rfl⟩
  rw [getpkt_ends_iff]
  refine ((receive_respects (fun _ _ h => h) _).ends (alike_masked wf) hmasked).imp ?_ ?_
  · rintro len l' ⟨l'', halike, hlen', stale, hbuf⟩
    rw [← halike.session] at hbuf
    refine ⟨hlen', stale, ?_⟩
    split <;> exact hbuf
  · rintro e l' ⟨_, _, hfalse⟩
    exact hfalse

theorem getpkt_overruns {l : Link} (wf : l.input.WellFormed)
    (overruns : Overruns l.input.characters) :
    Proc.Ends getpkt (fun _ _ => False) (fun e _ => e = .fault "own_buf") l := by
  obtain ⟨noise, body, c, rest, acceptable, noEnd, long, hbytes⟩ := overruns
  have hquiet : ∀ b ∈ ([] : List Byte), b &&& 0x7f ≠ 0x24 := by simp
  have hpending : l.input.masked.pending =
      [] ++ noise.flatMap Noise.wire ++ 0x24 :: body ++ c :: rest := by
    rw [pending_masked, hbytes, List.nil_append]
  have hmasked := receive_overruns acceptable hquiet noEnd long (wellFormed_masked wf)
    (masked_lt l.input) (show _ < l.input.pending.length + 1 by
      rw [pending_masked, Input.characters, List.length_map]
      exact Nat.lt_succ_self _) hpending l.session
  rw [getpkt_ends_iff]
  refine ((receive_respects (fun _ _ h => h) _).ends (alike_masked wf) hmasked).imp ?_ ?_
  · rintro _ _ ⟨_, _, hfalse⟩
    exact hfalse
  · rintro e l' ⟨_, _, he⟩
    exact he

/-- Every character that `getpkt` stores goes into `own_buf`. -/
def StoresInside (l : Link) : Prop :=
  Proc.Ends getpkt (fun _ _ => True) (fun e _ => ∀ access, e ≠ .fault access) l

theorem storesInside_iff {l : Link} (wf : l.input.WellFormed) :
    StoresInside l ↔ ¬ Overruns l.input.characters := by
  constructor
  · intro inside overruns
    have hboth := inside.and (getpkt_overruns wf overruns)
    unfold Proc.Ends at hboth
    split at hboth
    · exact hboth.2
    · exact hboth.1 _ hboth.2
  · intro free
    refine (getpkt_known wf).imp (fun _ _ _ => trivial) ?_
    rintro e _ (rfl | ⟨-, overruns⟩) access
    · simp [invalidDigit]
    · exact absurd overruns free

end Remote
