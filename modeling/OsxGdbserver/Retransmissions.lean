import OsxGdbserver.Chunkings

/-!
# How often a reply is sent

With acknowledgements on, `putpkt` writes its frame again for each byte it reads that is
not a `+`, whatever byte it is. The interrupt character is one of these bytes, and is
passed on to the process as well.
-/

namespace Gdbserver

open Remote CString Ppc

variable {σ : Type} {k : Kernel σ} {host : Signals.Host} {s : Server σ} {t : ThreadInfo}

/-- What `putpkt` reads of these bytes before a `+`, if that many writes succeed. -/
def heardOf (writable : Option Nat) (bytes : List Byte) : List Byte :=
  let before := bytes.takeWhile (· != ch '+')
  match writable with
  | none => before
  | some n => before.take n

/-- The answers other than `+` that `putpkt` will read. -/
def Server.heard (s : Server σ) : List Byte :=
  heardOf s.link.session.writable s.link.input.chunks.flatten

theorem heardOf_nil (writable : Option Nat) : heardOf writable [] = [] := by
  cases writable <;> simp [heardOf]

theorem heardOf_zero (bytes : List Byte) : heardOf (some 0) bytes = [] := by
  simp [heardOf]

theorem heardOf_plus (writable : Option Nat) (bytes : List Byte) :
    heardOf writable (ch '+' :: bytes) = [] := by
  cases writable <;> simp [heardOf]

theorem heardOf_cons {writable : Option Nat} (more : writable ≠ some 0) {c : Byte}
    (hc : c ≠ ch '+') (bytes : List Byte) :
    heardOf writable (c :: bytes) = c :: heardOf (writable.map (· - 1)) bytes := by
  cases writable with
  | none => simp [heardOf, hc]
  | some n =>
    obtain ⟨n, rfl⟩ := Nat.exists_eq_succ_of_ne_zero fun hn : n = 0 => more (congrArg some hn)
    simp [heardOf, hc]

/-- From `s`, one copy of the frame has been written, and one more for each of the bytes
`heard`; the process of `t` has been sent a SIGINT for each 0x03 among them. -/
structure Copied (host : Signals.Host) (bytes heard : List Byte) (t : ThreadInfo)
    (s s' : Server σ) : Prop where
  writes : s'.link.session.writes =
    s.link.session.writes ++ List.replicate (1 + heard.length) bytes
  log : s'.log = List.replicate (heard.count 3) (.kill t.pid host.sigint) ++ s.log

theorem Copied.once {bytes : List Byte} {s' : Server σ}
    (writes : s'.link.session.writes = s.link.session.writes ++ [bytes]) (log : s'.log = s.log) :
    Copied host bytes [] t s s' := ⟨writes, log⟩

theorem Copied.cons {bytes heard : List Byte} {c : Byte} {s₁ s' : Server σ}
    (h : Copied host bytes heard t s₁ s')
    (writes : s₁.link.session.writes = s.link.session.writes ++ [bytes])
    (log : s₁.log = if c = 3 then .kill t.pid host.sigint :: s.log else s.log) :
    Copied host bytes (c :: heard) t s s' := by
  constructor
  · rw [h.writes, writes, List.append_assoc, List.length_cons, ← Nat.add_assoc, Nat.add_comm 1,
      Nat.add_comm _ 1, List.replicate_succ]
    rfl
  · rw [h.log, log]
    by_cases hc : c = 3
    · rw [if_pos hc, hc, List.count_cons_self, List.replicate_succ']
      simp
    · rw [if_neg hc, List.count_cons_of_ne hc]

theorem sendFrame_copies {fuel : Nat} (acks : s.noAckMode = false) (wf : s.link.input.WellFormed)
    (enough : s.link.input.chunks.flatten.length < fuel) (live : 3 ∈ s.heard → Live s t)
    (bytes : List Byte) :
    Proc.Ends (sendFrame k host bytes fuel) (fun _ s' => Copied host bytes s.heard t s s')
      (fun _ _ => False) s := by
  induction fuel generalizing s with
  | zero => exact absurd enough (Nat.not_lt_zero _)
  | succ fuel ih =>
    refine sendFrame_round bytes ?_ ?_ ?_ ?_ ?_
    · intro unwritten
      have hheard : s.heard = [] := by
        rw [Server.heard, unwritten]
        exact heardOf_zero _
      rw [hheard]
      exact Copied.once rfl rfl
    · exact fun silent => absurd silent (Bool.eq_false_iff.mp acks)
    · intro hnone chunks _
      have hend : s.link.input.chunks = [] := by
        rcases wellFormed_cases wf with hend | ⟨c, left, rest, hbyte⟩
        · exact hend
        · exact absurd hbyte (hnone c left rest)
      have hheard : s.heard = [] := by
        rw [Server.heard, hend]
        exact heardOf_nil _
      rw [hheard]
      exact Copied.once rfl rfl
    · intro left rest hplus
      have hheard : s.heard = [] := by
        rw [Server.heard, hplus, flatten_left]
        exact heardOf_plus _ _
      rw [hheard]
      exact Copied.once rfl rfl
    · intro c left rest hbyte hc more
      let s₁ := (s.wrote bytes).withChunks (if left = [] then rest else left :: rest)
      have wf₁ : s₁.link.input.WellFormed := by
        have hkept := read_keepsInput 1 (s.wrote bytes) wf
        rwa [Proc.Ends.of_run (read_run_byte (s := s.wrote bytes) hbyte)] at hkept
      have hheard : s.heard = c :: s₁.heard := by
        rw [Server.heard, hbyte, flatten_left]
        exact heardOf_cons more hc _
      rw [hheard] at live ⊢
      refine signalled_ends (t := t) (c := c) (fun hc => ?_) fun s₂ hlink hlive hlog => ?_
      · rw [hc] at live
        exact live List.mem_cons_self
      · have hs₂ : s₂.heard = s₁.heard := by
          rw [Server.heard, hlink]
          rfl
        refine (ih (s := s₂) ?_ ?_ ?_ ?_).imp ?_ fun _ _ h => h
        · rw [Server.noAckMode, hlink]
          exact acks
        · rwa [hlink]
        · rw [hbyte, flatten_left, List.length_cons] at enough
          rw [hlink]
          exact Nat.lt_of_succ_lt_succ enough
        · intro hmem
          rw [hs₂] at hmem
          exact hlive t (live (List.mem_cons_of_mem c hmem))
        · intro _ s' hcopied
          rw [hs₂] at hcopied
          exact hcopied.cons (by rw [hlink]; rfl) hlog

/-- With acknowledgements on, the reply is written once, and again for each byte that comes
before a `+`; each 0x03 among these bytes is a SIGINT for the process. -/
theorem putpkt_copies (acks : s.noAckMode = false) (wf : s.link.input.WellFormed)
    (frames : Frames s) (live : 3 ∈ s.heard → Live s t) :
    Proc.Ends (putpkt k host)
      (fun _ s' =>
        s'.link.session.writes = s.link.session.writes ++
          List.replicate (1 + s.heard.length) (frame (cstr s.ownBuf)) ∧
        s'.log = List.replicate (s.heard.count 3) (.kill t.pid host.sigint) ++
          .putpkt (cstr s.ownBuf) :: s.log)
      (fun _ _ => False) s := by
  unfold putpkt
  simp only [Proc.Ends.bind_iff, Proc.Ends.get_iff, Proc.Ends.modify_iff]
  rw [if_pos (show (cstr s.ownBuf).length + 5 ≤ pbufsiz from frames)]
  exact (sendFrame_copies (s := s.record (.putpkt (cstr s.ownBuf))) acks wf (Nat.lt_succ_self _)
    live _).imp (fun _ _ hcopied => ⟨hcopied.writes, hcopied.log⟩) fun _ _ h => h

theorem launched_link (chunks : List (List Byte)) :
    (launched chunks).link = (initial blankMachine chunks).link := rfl

theorem launched_sends {answers : List Byte} (sends : answers ≠ []) {s : Server Machine}
    (launch : launched [answers] = s) :
    s.noAckMode = false ∧ s.link.input.WellFormed ∧ Frames s ∧
      s.link.session.writable = none ∧ s.link.input.chunks.flatten = answers ∧
      ∃ t, Live s t := by
  obtain ⟨rs, t, h⟩ := (reachable_launched [answers]).serving
  rw [launch] at h
  have hlink : s.link = (initial blankMachine [answers]).link := by
    rw [← launch]
    exact launched_link [answers]
  simp only [Server.noAckMode, Frames, Server.ownBuf, hlink]
  have hempty : (cstr []).length + 5 ≤ pbufsiz := by decide
  have hbufcnt : ¬ (0 : Int) < 0 := Int.lt_irrefl 0
  refine ⟨rfl, ⟨fun hpos => absurd hpos hbufcnt, ?_⟩, hempty, rfl, List.append_nil _, t, h.live⟩
  intro chunk hchunk
  rwa [List.mem_singleton.mp hchunk]

/-- The client answers with an interrupt, a refusal and a stray byte before it accepts. -/
theorem putpkt_copies_launched :
    ∃ (s : Server Machine) (t : ThreadInfo), s.heard = [3, ch '-', ch 'x'] ∧
      Proc.Ends (putpkt singleThread Signals.darwin)
        (fun _ s' =>
          s'.link.session.writes = s.link.session.writes ++
            List.replicate (1 + s.heard.length) (frame (cstr s.ownBuf)) ∧
          s'.log = List.replicate (s.heard.count 3) (.kill t.pid Signals.darwin.sigint) ++
            .putpkt (cstr s.ownBuf) :: s.log)
        (fun _ _ => False) s := by
  obtain ⟨acks, wf, frames, writes, hbytes, t, live⟩ :=
    launched_sends (List.cons_ne_nil 3 [ch '-', ch 'x', ch '+']) rfl
  generalize launched [[3, ch '-', ch 'x', ch '+']] = s at acks wf frames writes hbytes live
  refine ⟨s, t, ?_, putpkt_copies acks wf frames fun _ => live⟩
  rw [Server.heard, writes, hbytes]
  decide

/-- An interrupt before the `+` makes a second copy, though no `-` asks for it. -/
theorem not_putpkt_copies_naks :
    ¬ ∀ s : Server Machine, s.noAckMode = false → s.link.input.WellFormed → Frames s →
      s.link.session.writable = none → (∃ t, Live s t) →
      Proc.Ends (putpkt singleThread Signals.darwin)
        (fun _ s' => s'.link.session.writes = s.link.session.writes ++
          List.replicate
            (1 + (s.link.input.chunks.flatten.takeWhile (· != ch '+')).count (ch '-'))
            (frame (cstr s.ownBuf)))
        (fun _ _ => False) s := by
  intro hall
  obtain ⟨acks, wf, frames, writes, hbytes, t, live⟩ :=
    launched_sends (List.cons_ne_nil 3 [ch '+']) rfl
  generalize launched [[3, ch '+']] = s at acks wf frames writes hbytes live
  have hboth := (hall s acks wf frames writes ⟨t, live⟩).and
    (putpkt_copies acks wf frames fun _ => live)
  unfold Proc.Ends at hboth
  split at hboth
  · have hlen := congrArg List.length (hboth.1.symm.trans hboth.2.1)
    have hnaks : ([3, ch '+'].takeWhile (· != ch '+')).count (ch '-') = 0 := by decide
    have hheard : (heardOf none [3, ch '+']).length = 1 := by decide
    rw [Server.heard, writes, hbytes, List.length_append, List.length_append,
      List.length_replicate, List.length_replicate, hnaks, hheard] at hlen
    omega
  · exact hboth.1

end Gdbserver
