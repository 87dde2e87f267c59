import OsxGdbserver.FrameStreams

/-!
# What `getpkt` does with each frame

A frame whose two checksum characters are digits of `fromhex` is accepted or refused, and
after a refusal the scan goes on as if `getpkt` had been called there. Any other character
in their place ends `getpkt` through `error`.
-/

namespace Remote

variable {α : Type}

theorem readchar_bind_same {q q' : Option Byte → Proc Link α} {i : Input} (wf : i.WellFormed)
    (s : Session) (hend : ∀ i', (q none).run ⟨i', s⟩ = (q' none).run ⟨i', s⟩)
    (hnext : ∀ c i', i'.WellFormed → i'.pending.length < i.pending.length →
      (q (some c)).run ⟨i', s⟩ = (q' (some c)).run ⟨i', s⟩) :
    (readchar >>= q).run ⟨i, s⟩ = (readchar >>= q').run ⟨i, s⟩ := by
  rw [EStateM.run_bind, EStateM.run_bind]
  cases hp : i.pending with
  | nil =>
    obtain ⟨i', hrun, _⟩ := readchar_eof s wf hp
    rw [hrun]
    exact hend i'
  | cons b rest =>
    obtain ⟨i', wf', hrest, hrun⟩ := readchar_consumes b i s rest wf hp
    rw [hrun]
    refine hnext _ i' wf' ?_
    rw [hrest, hp, List.length_cons]
    omega

theorem scanStart_bind_same {q q' : Bool → Proc Link α} {fuel fuel' : Nat} {i : Input}
    (wf : i.WellFormed) (enough : i.pending.length < fuel) (enough' : i.pending.length < fuel')
    (s : Session) (hend : ∀ i', (q false).run ⟨i', s⟩ = (q' false).run ⟨i', s⟩)
    (hstart : ∀ i', i'.WellFormed → i'.pending.length < i.pending.length →
      (q true).run ⟨i', s⟩ = (q' true).run ⟨i', s⟩) :
    (scanStart fuel >>= q).run ⟨i, s⟩ = (scanStart fuel' >>= q').run ⟨i, s⟩ := by
  induction fuel generalizing fuel' i with
  | zero => exact absurd enough (Nat.not_lt_zero _)
  | succ fuel ih =>
    obtain ⟨fuel', rfl⟩ := Nat.exists_eq_succ_of_ne_zero (Nat.ne_zero_of_lt enough')
    rw [scanStart, scanStart, bind_assoc, bind_assoc]
    refine readchar_bind_same wf s (fun i' => ?_) fun c i' wf' shorter => ?_
    · simp only [pure_bind]
      exact hend i'
    · dsimp only
      split
      · simp only [pure_bind]
        exact hstart i' wf' shorter
      · exact ih wf' (by omega) (by omega) fun i'' wf'' shorter' =>
          hstart i'' wf'' (Nat.lt_trans shorter' shorter)

theorem poke_bind_same {q q' : Proc Link α} (n : Nat) (b : Byte) (i : Input) (s : Session)
    (hq : ∀ s', q.run ⟨i, s'⟩ = q'.run ⟨i, s'⟩) :
    (do poke n b; q).run ⟨i, s⟩ = (do poke n b; q').run ⟨i, s⟩ := by
  unfold poke
  by_cases hn : n < pbufsiz
  · rw [if_pos hn]
    exact hq (s.poke n b)
  · rw [if_neg hn]
    rfl

theorem readBody_bind_same {q q' : Option (Nat × Byte) → Proc Link α} {fuel fuel' n : Nat}
    {csum : Byte} {i : Input} (wf : i.WellFormed) (enough : i.pending.length < fuel)
    (enough' : i.pending.length < fuel') (s : Session)
    (hend : ∀ i' s', (q none).run ⟨i', s'⟩ = (q' none).run ⟨i', s'⟩)
    (hbody : ∀ r i' s', i'.WellFormed → i'.pending.length < i.pending.length →
      (q (some r)).run ⟨i', s'⟩ = (q' (some r)).run ⟨i', s'⟩) :
    (readBody fuel n csum >>= q).run ⟨i, s⟩ = (readBody fuel' n csum >>= q').run ⟨i, s⟩ := by
  induction fuel generalizing fuel' n csum i s with
  | zero => exact absurd enough (Nat.not_lt_zero _)
  | succ fuel ih =>
    obtain ⟨fuel', rfl⟩ := Nat.exists_eq_succ_of_ne_zero (Nat.ne_zero_of_lt enough')
    rw [readBody, readBody, bind_assoc, bind_assoc]
    refine readchar_bind_same wf s (fun i' => ?_) fun c i' wf' shorter => ?_
    · simp only [pure_bind]
      exact hend i' s
    · dsimp only
      split
      · simp only [bind_assoc, pure_bind]
        exact poke_bind_same n 0 i' s fun s' => hbody _ i' s' wf' shorter
      · simp only [bind_assoc]
        exact poke_bind_same n c i' s fun s' =>
          ih wf' (by omega) (by omega) s' fun r i'' s'' wf'' shorter' =>
            hbody r i'' s'' wf'' (Nat.lt_trans shorter' shorter)

theorem fromhex_bind_same {q q' : Nat → Proc Link α} (a : Option Byte) (l : Link)
    (hq : ∀ v, (q v).run l = (q' v).run l) :
    (fromhex a >>= q).run l = (fromhex a >>= q').run l := by
  unfold fromhex
  cases a.bind hexDigit with
  | none => rfl
  | some v => exact hq v

/-- Fuel for all pending bytes is enough, and more does nothing. -/
theorem receive_same {fuel fuel' : Nat} {i : Input} (wf : i.WellFormed)
    (enough : i.pending.length < fuel) (enough' : i.pending.length < fuel') (s : Session) :
    (receive fuel).run ⟨i, s⟩ = (receive fuel').run ⟨i, s⟩ := by
  induction fuel generalizing fuel' i s with
  | zero => exact absurd enough (Nat.not_lt_zero _)
  | succ fuel ih =>
    obtain ⟨fuel', rfl⟩ := Nat.exists_eq_succ_of_ne_zero (Nat.ne_zero_of_lt enough')
    rw [receive, receive]
    refine scanStart_bind_same wf enough enough' s (fun _ => rfl) fun i₁ wf₁ shorter₁ => ?_
    simp only [if_true]
    refine readBody_bind_same wf₁ (by omega) (by omega) s (fun _ _ => rfl) ?_
    rintro ⟨len, csum⟩ i₂ s₂ wf₂ shorter₂
    refine readchar_bind_same wf₂ s₂ (fun _ => rfl) fun x i₃ wf₃ shorter₃ => ?_
    refine fromhex_bind_same _ _ fun c1 => ?_
    refine readchar_bind_same wf₃ s₂ (fun _ => rfl) fun y i₄ wf₄ shorter₄ => ?_
    refine fromhex_bind_same _ _ fun c2 => ?_
    split
    · rfl
    · exact ih wf₄ (by omega) (by omega) (s₂.wrote [0x2d])

/-- The value of a hex digit in either case. -/
def hexValue (a : Byte) : Option Nat :=
  (hexDigit a).or (if 0x41 ≤ a ∧ a ≤ 0x46 then some (a.toNat - 0x41 + 10) else none)

/-- `x` and `y` are hex digits, in either case, that spell the checksum of `body`. -/
def Spells (x y : Byte) (body : List Byte) : Prop :=
  ∃ c1 c2, hexValue x = some c1 ∧ hexValue y = some c2 ∧ (checksum body).toNat = c1 * 16 + c2

/-- The first frame that a scan from `l` meets has the body `body` and is followed by `x`,
`y` and `rest`. -/
def FrameAt (l : Link) (body : List Byte) (x y : Byte) (rest : List Byte) : Prop :=
  ∃ lead, 0x24 ∉ lead ∧ 0x23 ∉ body ∧
    l.input.characters = lead ++ 0x24 :: body ++ 0x23 :: x :: y :: rest

/-- The stream has a frame of the form that `getpkt` refuses, and nothing before it. -/
def Damaged (bytes : List Byte) : Prop :=
  ∃ lead body x y rest c1 c2, 0x24 ∉ lead ∧ Body body ∧
    bytes = lead ++ 0x24 :: body ++ 0x23 :: x :: y :: rest ∧
    hexDigit x = some c1 ∧ hexDigit y = some c2 ∧ (checksum body).toNat ≠ c1 * 16 + c2

/-- Only refusals have been written since `before`, and none unless the first frame of the
stream is damaged. -/
def OnlyRefused (bytes : List Byte) (before after : List (List Byte)) : Prop :=
  ∃ n, after = before ++ List.replicate n [0x2d] ∧ (n ≠ 0 → Damaged bytes)

theorem OnlyRefused.none {bytes : List Byte} {before after : List (List Byte)}
    (h : after = before) : OnlyRefused bytes before after :=
  ⟨0, by rw [h, List.replicate_zero, List.append_nil], fun hn => absurd rfl hn⟩

theorem OnlyRefused.cons {bytes later : List Byte} {before after : List (List Byte)}
    (damaged : Damaged bytes) (h : OnlyRefused later (before ++ [[0x2d]]) after) :
    OnlyRefused bytes before after := by
  obtain ⟨n, rfl, _⟩ := h
  refine ⟨n + 1, ?_, fun _ => damaged⟩
  rw [List.append_assoc, List.replicate_succ]
  rfl

theorem receive_onlyRefused {fuel : Nat} {i : Input} (wf : i.WellFormed)
    (seven : ∀ b ∈ i.pending, b < 0x80) (enough : i.pending.length < fuel) (s : Session) :
    Proc.Ends (receive fuel) (fun _ l' => OnlyRefused i.pending s.writes l'.session.writes)
      (fun _ l' => OnlyRefused i.pending s.writes l'.session.writes) ⟨i, s⟩ := by
  induction fuel generalizing i s with
  | zero => exact absurd enough (Nat.not_lt_zero _)
  | succ fuel ih =>
    refine receive_round wf seven enough s ?_ ?_ ?_ ?_ ?_
    · exact fun _ hwrites => .none hwrites
    · exact fun _ hwrites => .none hwrites
    · exact fun _ hwrites _ => .none hwrites
    · exact fun _ _ _ _ hwrites _ _ => .none hwrites
    · intro i' s' lead body x y wf' seven' hlen hwrites hlead _ hcorrupted hbytes
      obtain ⟨hbody, c1, c2, hx, hy, hbad⟩ := hcorrupted
      have hdamaged : Damaged i.pending := by
        refine ⟨lead, body, x, y, i'.pending, c1, c2, hlead, hbody, ?_, hx, hy, hbad⟩
        rw [hbytes]
        simp [Noise.wire]
      have hmore : ∀ l' : Link,
          OnlyRefused i'.pending (s'.wrote [0x2d]).writes l'.session.writes →
          OnlyRefused i.pending s.writes l'.session.writes := by
        rintro l' h
        rw [Session.wrote, hwrites] at h
        exact h.cons hdamaged
      exact (ih wf' seven' hlen (s'.wrote [0x2d])).imp (fun _ => hmore) fun _ => hmore

theorem getpkt_onlyRefused {l : Link} (wf : l.input.WellFormed) :
    Proc.Ends getpkt
      (fun len l' => ∃ after, OnlyRefused l.input.characters l.session.writes after ∧
        l'.session.writes =
          after ++ if 0 ≤ len ∧ l'.session.noAckMode = false then [[0x2b]] else [])
      (fun _ l' => OnlyRefused l.input.characters l.session.writes l'.session.writes) l := by
  have hmasked := receive_onlyRefused (wellFormed_masked wf) (masked_lt l.input)
    (show _ < l.input.pending.length + 1 by
      rw [pending_masked, Input.characters, List.length_map]
      exact Nat.lt_succ_self _) l.session
  rw [pending_masked] at hmasked
  rw [getpkt_ends_iff]
  refine ((receive_respects (fun _ _ h => h) _).ends (alike_masked wf) hmasked).imp ?_ ?_
  · rintro len l' ⟨l'', halike, hrefused⟩
    rw [← halike.session] at hrefused
    refine ⟨l'.session.writes, hrefused, ?_⟩
    cases hmode : l'.session.noAckMode with
    | true => simp [hmode]
    | false =>
      by_cases hpos : 0 ≤ len
      · simp [hpos, hmode, Session.wrote]
      · simp [hpos, hmode]
  · rintro e l' ⟨l'', halike, hrefused⟩
    rwa [← halike.session] at hrefused

/-- `getpkt` returns the body, and has answered it with one `+`. -/
def Accepts (l : Link) (body rest : List Byte) : Prop :=
  Proc.Ends getpkt
    (fun len l' => len = body.length ∧ (∃ stale, l'.session.ownBuf = body ++ 0 :: stale) ∧
      l'.input.characters = rest ∧ l'.session.writes = l.session.writes ++ [[0x2b]])
    (fun _ _ => False) l

/-- `getpkt` writes one `-` and goes on as it does when it is called at `rest`. -/
def Refuses (l : Link) (rest : List Byte) : Prop :=
  ∃ l', l'.input.WellFormed ∧ l'.input.characters = rest ∧
    l'.session.writes = l.session.writes ++ [[0x2d]] ∧
    l'.session.noAckMode = l.session.noAckMode ∧ getpkt.run l = getpkt.run l'

def DealsWith (l : Link) (body : List Byte) (x y : Byte) (rest : List Byte) : Prop :=
  (Spells x y body → Accepts l body rest) ∧ (¬ Spells x y body → Refuses l rest)

/-- The scan comes to the frame, and stores its body. -/
theorem receive_frameAt {l : Link} (wf : l.input.WellFormed) {body : List Byte} {x y : Byte}
    {rest : List Byte} (frame : FrameAt l body x y rest) (fits : body.length < pbufsiz) :
    ∃ (i' : Input) (x' y' : Byte) (rest' : List Byte), i'.WellFormed ∧
      i'.pending = x' :: y' :: rest' ∧ x' &&& 0x7f = x ∧ y' &&& 0x7f = y ∧ masked rest' = rest ∧
      rest'.length < l.input.pending.length ∧
      (receive (l.input.pending.length + 1)).run l =
        (readDigits fun c1 c2 =>
          if (checksum body).toNat = c1 * 16 + c2 then return (body.length : Int)
          else do
            let _ ← write [0x2d]
            receive l.input.pending.length).run ⟨i', l.session.store 0 body⟩ := by
  obtain ⟨lead, hlead, hend, hchars⟩ := frame
  rw [List.append_assoc, List.cons_append] at hchars
  obtain ⟨lead', after₁, hpending, rfl, h₁⟩ := List.map_eq_append_iff.mp hchars
  obtain ⟨d, after₂, rfl, hd, h₂⟩ := List.map_eq_cons_iff.mp h₁
  obtain ⟨body', after₃, rfl, rfl, h₃⟩ := List.map_eq_append_iff.mp h₂
  obtain ⟨e, after₄, rfl, he, h₄⟩ := List.map_eq_cons_iff.mp h₃
  obtain ⟨x', after₅, rfl, hx, h₅⟩ := List.map_eq_cons_iff.mp h₄
  obtain ⟨y', rest', rfl, hy, hrest⟩ := List.map_eq_cons_iff.mp h₅
  have hquiet : ∀ b ∈ lead', b &&& 0x7f ≠ 0x24 := fun b hb heq =>
    hlead (heq ▸ List.mem_map_of_mem hb)
  rw [List.length_map] at fits
  have hlen := congrArg List.length hpending
  simp only [List.length_append, List.length_cons] at hlen
  obtain ⟨i', wf', hpending', hrun⟩ := receive_reads hquiet hd hend he fits
    (show lead'.length + body'.length < l.input.pending.length + 1 by omega) wf
    (by simpa using hpending) l.session
  refine ⟨i', x', y', rest', wf', hpending', hx, hy, hrest, by omega, ?_⟩
  have hsame : (body'.map (· &&& 0x7f)).length = body'.length := List.length_map _
  rw [← hsame] at hrun
  exact hrun

theorem first_cut {a : Byte} {xs ys zs ws : List Byte} (hxs : a ∉ xs) (hys : a ∉ ys)
    (h : xs ++ a :: zs = ys ++ a :: ws) : xs = ys ∧ zs = ws := by
  induction xs generalizing ys with
  | nil =>
    cases ys with
    | nil => simpa using h
    | cons y ys => exact absurd (List.cons.inj h).1 fun heq => hys (heq ▸ List.mem_cons_self)
  | cons x xs ih =>
    cases ys with
    | nil => exact absurd (List.cons.inj h).1 fun heq => hxs (heq ▸ List.mem_cons_self)
    | cons y ys =>
      obtain ⟨rfl, htail⟩ := List.cons.inj h
      obtain ⟨rfl, rfl⟩ := ih (fun hmem => hxs (List.mem_cons_of_mem _ hmem))
        (fun hmem => hys (List.mem_cons_of_mem _ hmem)) htail
      exact ⟨rfl, rfl⟩

theorem FrameAt.damaged {l : Link} {body : List Byte} {x y : Byte} {rest : List Byte}
    (frame : FrameAt l body x y rest) (damaged : Damaged l.input.characters) :
    Body body ∧ (hexDigit x).isSome ∧ (hexDigit y).isSome := by
  obtain ⟨lead, hlead, hend, hchars⟩ := frame
  obtain ⟨lead', body', x', y', rest', c1, c2, hlead', hbody, hchars', hx, hy, _⟩ := damaged
  rw [hchars, List.append_assoc, List.append_assoc, List.cons_append, List.cons_append] at hchars'
  obtain ⟨-, hafter⟩ := first_cut hlead hlead' hchars'
  obtain ⟨rfl, hdigits⟩ := first_cut hend hbody.noEnd hafter
  obtain ⟨rfl, rfl, -⟩ : x = x' ∧ y = y' ∧ rest = rest' := by simpa using hdigits
  rw [hx, hy]
  exact ⟨hbody, rfl, rfl⟩

theorem getpkt_congr {l l' : Link}
    (h : (receive (l.input.pending.length + 1)).run l =
      (receive (l'.input.pending.length + 1)).run l') : getpkt.run l = getpkt.run l' := by
  simp only [getpkt, EStateM.run_bind, EStateM.run_get, h]

theorem refuses_of_digits {l : Link} (wf : l.input.WellFormed) {body : List Byte} {x y : Byte}
    {rest : List Byte} (frame : FrameAt l body x y rest) (fits : body.length < pbufsiz)
    {c1 c2 : Nat} (hx : hexDigit x = some c1) (hy : hexDigit y = some c2)
    (wrong : (checksum body).toNat ≠ c1 * 16 + c2) : Refuses l rest := by
  obtain ⟨i₁, x', y', rest', wf₁, hpending₁, rfl, rfl, rfl, shorter, hrun₁⟩ :=
    receive_frameAt wf frame fits
  obtain ⟨i₂, wf₂, hpending₂, hrun₂⟩ := readDigits_run hx hy wf₁ hpending₁ (l.session.store 0 body)
  rw [hrun₂, if_neg wrong] at hrun₁
  have hkept := store_eq 0 body l.session
  refine ⟨⟨i₂, (l.session.store 0 body).wrote [0x2d]⟩, wf₂, ?_, ?_, ?_, ?_⟩
  · rw [Input.characters, hpending₂, masked]
  · rw [hkept]
    rfl
  · rw [hkept]
    rfl
  · refine getpkt_congr (hrun₁.trans ?_)
    rw [← hpending₂] at shorter
    exact receive_same wf₂ shorter (Nat.lt_succ_self _) _

theorem accepts_of_digits {l : Link} (wf : l.input.WellFormed)
    (acks : l.session.noAckMode = false) {body : List Byte} {x y : Byte} {rest : List Byte}
    (frame : FrameAt l body x y rest) (fits : body.length < pbufsiz) {c1 c2 : Nat}
    (hx : hexDigit x = some c1) (hy : hexDigit y = some c2)
    (right : (checksum body).toNat = c1 * 16 + c2) : Accepts l body rest := by
  obtain ⟨i₁, x', y', rest', wf₁, hpending₁, rfl, rfl, rfl, _, hrun₁⟩ :=
    receive_frameAt wf frame fits
  obtain ⟨i₂, wf₂, hpending₂, hrun₂⟩ := readDigits_run hx hy wf₁ hpending₁ (l.session.store 0 body)
  rw [hrun₂, if_pos right] at hrun₁
  have hkept := store_eq 0 body l.session
  have hmode : (l.session.store 0 body).noAckMode = false := by rw [hkept, acks]
  rw [Accepts, getpkt_ends_iff, Proc.Ends.of_run hrun₁,
    if_pos ⟨Int.natCast_nonneg _, by simp [hmode]⟩]
  refine ⟨rfl, ⟨_, store_ownBuf 0 body _ (Nat.zero_le _)⟩, ?_, ?_⟩
  · rw [Input.characters, hpending₂, masked]
  · rw [hkept]
    rfl

theorem readDigits_fails {i : Input} (wf : i.WellFormed) {x y : Byte} {rest : List Byte}
    (pending : i.pending = x :: y :: rest)
    (bad : ¬ ((hexDigit (x &&& 0x7f)).isSome ∧ (hexDigit (y &&& 0x7f)).isSome)) (s : Session)
    (q : Nat → Nat → Proc Link α) :
    Proc.Ends (readDigits q) (fun _ _ => False) (fun e _ => e = invalidDigit) ⟨i, s⟩ := by
  obtain ⟨i₁, wf₁, pending₁, hrun₁⟩ := readchar_consumes x i s (y :: rest) wf pending
  obtain ⟨i₂, _, _, hrun₂⟩ := readchar_consumes y i₁ s rest wf₁ pending₁
  rw [id_eq] at hrun₁ hrun₂
  unfold readDigits
  rw [Proc.Ends.bind_iff, Proc.Ends.of_run hrun₁, Proc.Ends.bind_iff]
  cases hx : hexDigit (x &&& 0x7f) with
  | none =>
    simp only [fromhex, Option.bind_some, hx]
    exact rfl
  | some c1 =>
    cases hy : hexDigit (y &&& 0x7f) with
    | none =>
      simp only [fromhex, Option.bind_some, hx, Proc.Ends.pure_iff]
      rw [Proc.Ends.bind_iff, Proc.Ends.of_run hrun₂, Proc.Ends.bind_iff]
      simp only [Option.bind_some, hy]
      exact rfl
    | some c2 => exact absurd ⟨by rw [hx]; rfl, by rw [hy]; rfl⟩ bad

theorem FrameAt.overruns {l : Link} {body : List Byte} {x y : Byte} {rest : List Byte}
    (frame : FrameAt l body x y rest) (long : ¬ body.length < pbufsiz) :
    Overruns l.input.characters := by
  obtain ⟨lead, hlead, hend, hchars⟩ := frame
  have hquiet : (Noise.junk lead).Acceptable := by
    rintro b hb heq
    have hmem : b ∈ l.input.characters := by
      rw [hchars, List.append_assoc]
      exact List.mem_append_left _ hb
    obtain ⟨c, _, rfl⟩ := List.mem_map.mp hmem
    rw [and_of_lt (mask_lt c)] at heq
    exact hlead (heq ▸ hb)
  obtain ⟨c, after, hafter⟩ : ∃ c after,
      body.drop pbufsiz ++ 0x23 :: x :: y :: rest = c :: after := by
    cases body.drop pbufsiz with
    | nil => exact ⟨_, _, rfl⟩
    | cons c after => exact ⟨_, _, rfl⟩
  have hover : Overruns (0x24 :: body.take pbufsiz ++ c :: after) :=
    ⟨[], body.take pbufsiz, c, after, by simp, fun hmem => hend (List.mem_of_mem_take hmem),
      List.length_take_of_le (Nat.not_lt.mp long), rfl⟩
  have hsplit : l.input.characters =
      (Noise.junk lead).wire ++ (0x24 :: body.take pbufsiz ++ c :: after) := by
    rw [hchars, ← hafter, List.cons_append, ← List.append_assoc (body.take pbufsiz),
      List.take_append_drop]
    simp [Noise.wire]
  rw [hsplit]
  exact hover.cons hquiet

theorem FrameAt.fails {l : Link} (wf : l.input.WellFormed) {body : List Byte} {x y : Byte}
    {rest : List Byte} (frame : FrameAt l body x y rest)
    (bad : ¬ (body.length < pbufsiz ∧ (hexDigit x).isSome ∧ (hexDigit y).isSome)) :
    Proc.Ends getpkt (fun _ _ => False) (fun _ _ => True) l := by
  by_cases fits : body.length < pbufsiz
  · obtain ⟨i₁, x', y', rest', wf₁, hpending₁, rfl, rfl, rfl, _, hrun₁⟩ :=
      receive_frameAt wf frame fits
    rw [getpkt_ends_iff]
    unfold Proc.Ends
    rw [hrun₁]
    exact (readDigits_fails wf₁ hpending₁ (fun hdigits => bad ⟨fits, hdigits⟩) _ _).imp
      (fun _ _ h => h.elim) fun _ _ _ => trivial
  · exact (getpkt_overruns wf (frame.overruns fits)).imp (fun _ _ h => h) fun _ _ _ => trivial

/-- A frame is dealt with just if its body fits `own_buf` and both of its checksum characters
are digits of `fromhex`, which has no upper-case ones. -/
theorem dealsWith_iff {l : Link} (wf : l.input.WellFormed) (acks : l.session.noAckMode = false)
    {body : List Byte} {x y : Byte} {rest : List Byte} (frame : FrameAt l body x y rest) :
    DealsWith l body x y rest ↔
      body.length < pbufsiz ∧ (hexDigit x).isSome ∧ (hexDigit y).isSome := by
  constructor
  · intro deals
    by_contra bad
    have hfails := frame.fails wf bad
    by_cases spells : Spells x y body
    · have hboth := (deals.1 spells).and hfails
      unfold Proc.Ends at hboth
      split at hboth
      · exact hboth.2
      · exact hboth.1
    · obtain ⟨l', wf', _, hwrites, _, hrun⟩ := deals.2 spells
      have hhere := hfails.and (getpkt_onlyRefused wf)
      have hthere := getpkt_onlyRefused wf'
      unfold Proc.Ends at hhere hthere
      rw [← hrun] at hthere
      split at hhere
      · exact hhere.1
      · rename_i e l₁ hresult
        rw [hresult] at hthere
        obtain ⟨n, hn, hdamaged⟩ := hhere.2
        obtain ⟨m, hm, _⟩ := hthere
        have hn0 : n = 0 := by
          by_contra hn0
          obtain ⟨hbody, hdigits⟩ := frame.damaged (hdamaged hn0)
          exact bad ⟨hbody.fits, hdigits⟩
        have hlen := congrArg List.length (hn.symm.trans hm)
        rw [hwrites] at hlen
        simp only [List.length_append, List.length_replicate, List.length_cons] at hlen
        omega
  · rintro ⟨fits, hx, hy⟩
    obtain ⟨c1, hx⟩ := Option.isSome_iff_exists.mp hx
    obtain ⟨c2, hy⟩ := Option.isSome_iff_exists.mp hy
    have hspells : Spells x y body ↔ (checksum body).toNat = c1 * 16 + c2 := by
      simp [Spells, hexValue, hx, hy]
    exact ⟨fun spells => accepts_of_digits wf acks frame fits hx hy (hspells.mp spells),
      fun wrong => refuses_of_digits wf frame fits hx hy fun heq => wrong (hspells.mpr heq)⟩

/-- A damaged frame whose digits are digits, after a byte of noise. -/
theorem dealsWith_iff_g :
    ∃ l : Link, l.input.characters = [0x03, 0x24, 0x67, 0x23, 0x36, 0x38] ∧
      (DealsWith l [0x67] 0x36 0x38 [] ↔
        ([0x67] : List Byte).length < pbufsiz ∧ (hexDigit 0x36).isSome ∧ (hexDigit 0x38).isSome) :=
  ⟨⟨.unread [[0x03, 0xa4, 0x67], [0x23, 0x36, 0x38]], freshSession⟩, by decide,
    dealsWith_iff ⟨by decide, by decide⟩ rfl ⟨[0x03], by decide, by decide, by decide⟩⟩

/-- The checksum of `j` in upper case is right, and ends `getpkt` through `error`. -/
theorem not_dealsWith_upper :
    ¬ ∀ (l : Link) (body : List Byte) (x y : Byte) (rest : List Byte), l.input.WellFormed →
      l.session.noAckMode = false → FrameAt l body x y rest → DealsWith l body x y rest := by
  intro hall
  let l : Link := ⟨.unread [[0x24, 0x6a, 0x23, 0x36, 0x41]], freshSession⟩
  have wf : l.input.WellFormed := ⟨by decide, by decide⟩
  have frame : FrameAt l [0x6a] 0x36 0x41 [] := ⟨[], by decide, by decide, by decide⟩
  have hdigits := ((dealsWith_iff wf rfl frame).mp (hall l _ _ _ _ wf rfl frame)).2.2
  revert hdigits
  decide

end Remote
