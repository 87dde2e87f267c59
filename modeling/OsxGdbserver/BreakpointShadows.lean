import OsxGdbserver.MemBreak

/-!
# What the breakpoint list does to a memory access

The clipped copies of `check_mem_read` and `check_mem_write` are overlays of placed
buffers. Reading gives the bytes of the memory in which every listed breakpoint's
saved bytes are put back, oldest breakpoint last.
-/

namespace MemBreak

open Overlay

variable {σ : Type} (t : MemTarget σ)

theorem MemTarget.breakpointLen_le : t.breakpointLen ≤ maxBreakpointLen :=
  t.breakpointData_length

@[simp] theorem saved_length (bp : Breakpoint) : (saved t bp).length = t.breakpointLen := by
  have := t.breakpointLen_le
  simp [saved, this]

@[simp] theorem trap_length : t.trap.length = t.breakpointLen := rfl

/-- A breakpoint covers the `breakpoint_len` addresses from its own on. -/
def Covers (bp : Breakpoint) (x : Int) : Prop := InSpan bp.pc t.breakpointLen x

instance (bp : Breakpoint) (x : Int) : Decidable (Covers t bp x) :=
  inferInstanceAs (Decidable (InSpan _ _ _))

theorem inSpan_saved_iff {bp : Breakpoint} {x : Int} :
    InSpan bp.pc (saved t bp).length x ↔ Covers t bp x := by
  rw [saved_length]
  rfl

/-- Either no breakpoint covers `x` or there is an oldest one that does. -/
theorem uncovered_or_oldest (bps : List Breakpoint) (x : Int) :
    (∀ b ∈ bps, ¬ Covers t b x) ∨
      ∃ pre b post, bps = pre ++ b :: post ∧ Covers t b x ∧ ∀ c ∈ post, ¬ Covers t c x := by
  induction bps with
  | nil => exact Or.inl (by simp)
  | cons b rest ih =>
    rcases ih with hrest | ⟨pre, c, post, rfl, hc, hpost⟩
    · by_cases hb : Covers t b x
      · exact Or.inr ⟨[], b, rest, rfl, hb, hrest⟩
      · left
        intro c hc
        rcases List.mem_cons.mp hc with rfl | hc
        · exact hb
        · exact hrest c hc
    · exact Or.inr ⟨b :: pre, c, post, rfl, hc, hpost⟩

theorem byteAt_trap_eq_none {bp : Breakpoint} {x : Int} (h : ¬ Covers t bp x) :
    byteAt bp.pc t.trap x = none :=
  byteAt_of_not_inSpan h

theorem clip_none {bpLen n : Nat} {a pc : Int} (h : clip bpLen a n pc = none) :
    Apart a n pc bpLen := by
  intro x hx hp
  have h₁ := hx.1
  have h₂ := hx.2
  have h₃ := hp.1
  have h₄ := hp.2
  have : ¬ a ≥ pc + bpLen := by omega
  have : ¬ pc ≥ a + n := by omega
  simp_all [clip]

/-- In an iteration that copies, no difference loses value when narrowed to `int`. -/
theorem clip_eq {bpLen n : Nat} {a pc : Int} (hbp : bpLen ≤ maxBreakpointLen)
    (hn : n < 2 ^ 31) :
    clip bpLen a n pc =
      if pc + bpLen ≤ a ∨ a + n ≤ pc then none
      else some
        { copyLen := min (pc + bpLen) (a + n) - max pc a
          copyOffset := max pc a - pc
          bufOffset := max pc a - a } := by
  have hbp' : bpLen ≤ 8 := hbp
  by_cases hskip : pc + bpLen ≤ a ∨ a + n ≤ pc
  · rw [if_pos hskip]
    unfold clip
    rcases hskip with h | h
    · exact if_pos h
    · simp [h]
  · obtain ⟨h₁, h₂⟩ : ¬ a ≥ pc + bpLen ∧ ¬ pc ≥ a + n := not_or.mp hskip
    have hstart : (if a > pc then a else pc) = max pc a := by omega
    have hstop : (if pc + bpLen > a + n then a + n else pc + bpLen) = min (pc + bpLen) (a + n) := by
      omega
    rw [if_neg hskip]
    simp only [clip, if_neg h₁, if_neg h₂, hstart, hstop]
    congr 2
    · exact toInt_of_range (by omega) (by omega)
    · exact toInt_of_range (by omega) (by omega)
    · exact toInt_of_range (by omega) (by omega)

theorem clip_some {bpLen n : Nat} {a pc : Int} {c : Clip}
    (h : clip bpLen a n pc = some c) (hbp : bpLen ≤ maxBreakpointLen) (hn : n < 2 ^ 31) :
    ∃ lo hi, a ≤ lo ∧ pc ≤ lo ∧ lo ≤ hi ∧ hi ≤ a + n ∧ hi ≤ pc + bpLen ∧
      (∀ x, lo ≤ x ∧ x < hi ↔ InSpan a n x ∧ InSpan pc bpLen x) ∧
      c = { copyLen := hi - lo, copyOffset := lo - pc, bufOffset := lo - a } := by
  rw [clip_eq hbp hn] at h
  split at h
  · cases h
  · rename_i hmeet
    refine ⟨max pc a, min (pc + bpLen) (a + n), by omega, by omega, by omega, by omega, by omega,
      ?_, (Option.some.inj h).symm⟩
    intro x
    simp only [InSpan]
    omega

theorem drop_take_saved (bp : Breakpoint) {off len : Nat} (h : off + len ≤ t.breakpointLen) :
    ((saved t bp).drop off).take len = (bp.oldData.toList.drop off).take len := by
  rw [saved, List.drop_take, List.take_take]
  congr 1
  omega

theorem checkMemReadOne_length (a : Int) (buf : List Byte) (bp : Breakpoint) :
    (checkMemReadOne t a buf bp).length = buf.length := by
  unfold checkMemReadOne
  split
  · rfl
  · simp

theorem checkMemRead_length (a : Int) (buf : List Byte) (bps : List Breakpoint) :
    (checkMemRead t a buf bps).length = buf.length := by
  induction bps generalizing buf with
  | nil => rfl
  | cons b rest ih => exact (ih _).trans (checkMemReadOne_length t a buf b)

/-- One iteration of `check_mem_read`. -/
theorem checkMemReadOne_eq (a : Int) {buf : List Byte} (bp : Breakpoint)
    (hn : buf.length < 2 ^ 31) :
    checkMemReadOne t a buf bp = overlay a buf bp.pc (saved t bp) := by
  unfold checkMemReadOne
  split
  · rename_i h
    rw [overlay_of_apart]
    simpa using clip_none h
  · rename_i c h
    obtain ⟨lo, hi, ha, hp, hlo, hn', hbp, hclip, rfl⟩ :=
      clip_some h t.breakpointLen_le hn
    have hoff : (lo - bp.pc).toNat + (hi - lo).toNat ≤ t.breakpointLen := by omega
    dsimp only
    rw [← drop_take_saved t bp hoff]
    apply memcpy_clip ha hp
    intro x hx
    rw [hclip x, saved_length]
    exact and_iff_right hx

theorem copyIn_saved (bp : Breakpoint) (off : Nat) (src : List Byte) :
    saved t { bp with oldData := copyIn bp.oldData off src } = memcpy (saved t bp) off src := by
  apply List.ext_getElem? fun i => ?_
  by_cases h : i < t.breakpointLen
  · simp [saved, copyIn, memcpy, List.getElem?_take_of_lt h, List.getElem?_mapIdx]
  · rw [List.getElem?_eq_none (by simp; omega), List.getElem?_eq_none (by simp; omega)]

/-- The node after one iteration of `check_mem_write` with `buf` in the buffer. -/
def refreshed (a : Int) (buf : List Byte) (bp : Breakpoint) : Breakpoint :=
  (checkMemWriteOne t a buf bp).2

section RefreshedFields

variable (a : Int) (buf : List Byte) (bp : Breakpoint)

theorem refreshed_eq : ∃ d, refreshed t a buf bp = { bp with oldData := d } := by
  unfold refreshed checkMemWriteOne
  split
  · exact ⟨bp.oldData, rfl⟩
  · split
    · exact ⟨_, rfl⟩
    · exact ⟨_, rfl⟩

@[simp] theorem refreshed_pc : (refreshed t a buf bp).pc = bp.pc := by
  obtain ⟨d, h⟩ := refreshed_eq t a buf bp
  rw [h]

@[simp] theorem refreshed_node : (refreshed t a buf bp).node = bp.node := by
  obtain ⟨d, h⟩ := refreshed_eq t a buf bp
  rw [h]

@[simp] theorem refreshed_reinserting :
    (refreshed t a buf bp).reinserting = bp.reinserting := by
  obtain ⟨d, h⟩ := refreshed_eq t a buf bp
  rw [h]

end RefreshedFields

theorem saved_refreshed (a : Int) {buf : List Byte} (bp : Breakpoint)
    (hn : buf.length < 2 ^ 31) :
    saved t (refreshed t a buf bp) = overlay bp.pc (saved t bp) a buf := by
  unfold refreshed checkMemWriteOne
  split
  · rename_i h
    rw [overlay_of_apart]
    simpa using (clip_none h).symm
  · rename_i c h
    obtain ⟨lo, hi, ha, hp, hlo, hn', hbp, hclip, rfl⟩ :=
      clip_some h t.breakpointLen_le hn
    have hcopy : memcpy (saved t bp) (lo - bp.pc).toNat
        ((buf.drop (lo - a).toNat).take (hi - lo).toNat) =
          overlay bp.pc (saved t bp) a buf := by
      apply memcpy_clip hp ha
      intro x hx
      rw [saved_length] at hx
      rw [hclip x]
      exact and_iff_left hx
    split
    · exact (copyIn_saved t bp _ _).trans hcopy
    · exact (copyIn_saved t bp _ _).trans hcopy

/-- The buffer after one iteration of `check_mem_write`. -/
theorem checkMemWriteOne_fst (a : Int) {buf : List Byte} (bp : Breakpoint)
    (hn : buf.length < 2 ^ 31) :
    (checkMemWriteOne t a buf bp).1 =
      if bp.reinserting then buf else overlay a buf bp.pc t.trap := by
  unfold checkMemWriteOne
  split
  · rename_i h
    rw [overlay_of_apart]
    · simp
    · simpa using clip_none h
  · rename_i c h
    obtain ⟨lo, hi, ha, hp, hlo, hn', hbp, hclip, rfl⟩ :=
      clip_some h t.breakpointLen_le hn
    by_cases hr : bp.reinserting
    · simp [hr]
    · simp only [hr]
      apply memcpy_clip ha hp
      intro x hx
      rw [hclip x, trap_length]
      exact and_iff_right hx

/-- The buffer of `check_mem_write` after the loop has passed `bps`. -/
def passTraps (a : Int) (buf : List Byte) (bps : List Breakpoint) : List Byte :=
  bps.foldl (fun buf b => if b.reinserting then buf else overlay a buf b.pc t.trap) buf

@[simp] theorem passTraps_length (a : Int) (buf : List Byte) (bps : List Breakpoint) :
    (passTraps t a buf bps).length = buf.length := by
  induction bps generalizing buf with
  | nil => rfl
  | cons b rest ih =>
    rw [passTraps, List.foldl_cons, ← passTraps, ih]
    split <;> simp

theorem checkMemWrite_append (a : Int) {buf : List Byte} (pre post : List Breakpoint)
    (hn : buf.length < 2 ^ 31) :
    checkMemWrite t a buf (pre ++ post) =
      ((checkMemWrite t a (passTraps t a buf pre) post).1,
        (checkMemWrite t a buf pre).2 ++
          (checkMemWrite t a (passTraps t a buf pre) post).2) := by
  induction pre generalizing buf with
  | nil => rfl
  | cons b rest ih =>
    have hone := checkMemWriteOne_fst t a b hn
    have hlen : (checkMemWriteOne t a buf b).1.length < 2 ^ 31 := by
      rw [hone]
      split <;> simpa using hn
    simp only [List.cons_append, checkMemWrite, ih hlen]
    rw [hone]
    rfl

theorem mem_checkMemWrite {a : Int} {buf : List Byte} {bps : List Breakpoint}
    {b' : Breakpoint} (hn : buf.length < 2 ^ 31)
    (h : b' ∈ (checkMemWrite t a buf bps).2) :
    ∃ pre b post, bps = pre ++ b :: post ∧ b' = refreshed t a (passTraps t a buf pre) b := by
  induction bps generalizing buf with
  | nil => cases h
  | cons b rest ih =>
    simp only [checkMemWrite, List.mem_cons] at h
    rcases h with rfl | h
    · exact ⟨[], b, rest, rfl, rfl⟩
    · have hone := checkMemWriteOne_fst t a b hn
      have hlen : (checkMemWriteOne t a buf b).1.length < 2 ^ 31 := by
        rw [hone]
        split <;> simpa using hn
      obtain ⟨pre, c, post, hrest, hc⟩ := ih hlen h
      refine ⟨b :: pre, c, post, by rw [hrest]; rfl, ?_⟩
      rw [hc, hone]
      rfl

theorem checkMemWrite_nodes (a : Int) (buf : List Byte) (bps : List Breakpoint) :
    (checkMemWrite t a buf bps).2.map Breakpoint.node = bps.map Breakpoint.node := by
  induction bps generalizing buf with
  | nil => rfl
  | cons b rest ih =>
    simp only [checkMemWrite, List.map_cons, ih]
    exact congrArg (· :: _) (refreshed_node t a buf b)

theorem checkMemWrite_fst (a : Int) {buf : List Byte} (bps : List Breakpoint)
    (hn : buf.length < 2 ^ 31) :
    (checkMemWrite t a buf bps).1 = passTraps t a buf bps := by
  have h := checkMemWrite_append t a bps [] hn
  rw [List.append_nil] at h
  exact congrArg Prod.fst h

/-- The list after `check_mem_write`, split at one of its nodes. -/
theorem checkMemWrite_split (a : Int) {buf : List Byte} (pre post : List Breakpoint)
    (b : Breakpoint) (hn : buf.length < 2 ^ 31) :
    (checkMemWrite t a buf (pre ++ b :: post)).2 =
      (checkMemWrite t a buf pre).2 ++ refreshed t a (passTraps t a buf pre) b ::
        (checkMemWrite t a (passTraps t a buf (pre ++ [b])) post).2 := by
  have hlen : (passTraps t a buf pre).length < 2 ^ 31 := by simpa using hn
  have hone := checkMemWriteOne_fst t a b hlen
  have hpass : passTraps t a buf (pre ++ [b]) =
      (checkMemWriteOne t a (passTraps t a buf pre) b).1 := by
    rw [hone, passTraps, List.foldl_append]
    rfl
  rw [checkMemWrite_append t a pre (b :: post) hn, hpass]
  rfl

/-- The byte which the buffer holds for `x` after the loop has passed `bps`. -/
def passing (bps : List Breakpoint) (d : Byte) (x : Int) : Byte :=
  bps.foldl (fun c b => if b.reinserting then c else (byteAt b.pc t.trap x).getD c) d

theorem byteAt_passTraps (a : Int) (buf : List Byte) (bps : List Breakpoint)
    (x : Int) :
    byteAt a (passTraps t a buf bps) x =
      (byteAt a buf x).map fun d => passing t bps d x := by
  induction bps generalizing buf with
  | nil => simp [passTraps, passing]
  | cons b rest ih =>
    rw [passTraps, List.foldl_cons, ← passTraps, ih]
    by_cases hr : b.reinserting
    · simp [hr, passing]
    · simp [hr, passing, byteAt_overlay, Function.comp_def]

theorem passing_cons (b : Breakpoint) (rest : List Breakpoint) (d : Byte) (x : Int) :
    passing t (b :: rest) d x =
      passing t rest (if b.reinserting then d else (byteAt b.pc t.trap x).getD d) x := rfl

theorem passing_append (pre post : List Breakpoint) (d : Byte) (x : Int) :
    passing t (pre ++ post) d x = passing t post (passing t pre d x) x := by
  simp [passing]

theorem passing_of_uncovered {bps : List Breakpoint} {x : Int}
    (h : ∀ b ∈ bps, b.reinserting = false → ¬ Covers t b x) (d : Byte) :
    passing t bps d x = d := by
  induction bps generalizing d with
  | nil => rfl
  | cons b rest ih =>
    rw [passing_cons, ih fun c hc => h c (by simp [hc])]
    cases hr : b.reinserting with
    | true => rfl
    | false => simp [byteAt_trap_eq_none t (h b (by simp) hr)]

/-- The last planted breakpoint that covers `x` decides what reaches the target. -/
theorem passing_of_last {pre post : List Breakpoint} {b : Breakpoint} {x : Int} {v : Byte}
    (planted : b.reinserting = false) (hv : byteAt b.pc t.trap x = some v)
    (h : ∀ c ∈ post, c.reinserting = false → ¬ Covers t c x) (d : Byte) :
    passing t (pre ++ b :: post) d x = v := by
  rw [passing_append, passing_cons, passing_of_uncovered t h]
  simp [planted, hv]

/-- The memory with the saved bytes of the listed breakpoints put back, as
`check_mem_read` does it: from the newest to the oldest. -/
def clientView (bps : List Breakpoint) (m : Memory) : Memory :=
  bps.foldl (fun m b => store m b.pc (saved t b)) m

theorem checkMemRead_load (a : Int) {n : Nat} (bps : List Breakpoint) (m : Memory)
    (hn : n < 2 ^ 31) :
    checkMemRead t a (load m a n) bps = load (clientView t bps m) a n := by
  induction bps generalizing m with
  | nil => rfl
  | cons b rest ih =>
    have hlen : (load m a n).length < 2 ^ 31 := by simpa using hn
    have hone := checkMemReadOne_eq t a b hlen
    rw [overlay_load] at hone
    rw [checkMemRead, List.foldl_cons, hone]
    exact ih _

theorem clientView_append (pre post : List Breakpoint) (m : Memory) :
    clientView t (pre ++ post) m = clientView t post (clientView t pre m) := by
  simp [clientView]

theorem clientView_of_uncovered {bps : List Breakpoint} {x : Int}
    (h : ∀ b ∈ bps, ¬ Covers t b x) (m : Memory) : clientView t bps m x = m x := by
  induction bps generalizing m with
  | nil => rfl
  | cons b rest ih =>
    rw [clientView, List.foldl_cons, ← clientView, ih fun c hc => h c (by simp [hc])]
    exact store_of_not_inSpan ((inSpan_saved_iff t).not.mpr (h b (by simp)))

/-- The oldest listed breakpoint that covers `x` decides what the client reads. -/
theorem clientView_of_oldest {pre post : List Breakpoint} {b : Breakpoint} {x : Int} {v : Byte}
    (hv : byteAt b.pc (saved t b) x = some v) (h : ∀ c ∈ post, ¬ Covers t c x) (m : Memory) :
    clientView t (pre ++ b :: post) m x = v := by
  rw [clientView_append, clientView, List.foldl_cons, ← clientView,
    clientView_of_uncovered t h, store_of_byteAt hv]

/-- If all saved bytes for `x` are `v`, and an uncovered `x` holds `v`, the client reads `v`. -/
theorem clientView_eq_of_agree {bps : List Breakpoint} {x : Int} {v : Byte} {m : Memory}
    (hsaved : ∀ b ∈ bps, ∀ w, byteAt b.pc (saved t b) x = some w → w = v)
    (hmem : (∀ b ∈ bps, ¬ Covers t b x) → m x = v) : clientView t bps m x = v := by
  induction bps generalizing m with
  | nil => exact hmem (by simp)
  | cons b rest ih =>
    rw [clientView, List.foldl_cons, ← clientView]
    apply ih
    · exact fun c hc => hsaved c (by simp [hc])
    · intro hrest
      by_cases hb : Covers t b x
      · obtain ⟨w, hw⟩ := byteAt_of_inSpan ((inSpan_saved_iff t).mpr hb)
        rw [store_of_byteAt hw]
        exact hsaved b (by simp) w hw
      · rw [store_of_not_inSpan ((inSpan_saved_iff t).not.mpr hb)]
        apply hmem
        intro c hc
        rcases List.mem_cons.mp hc with rfl | hc
        · exact hb
        · exact hrest c hc

/-- An address range below 2^32. -/
def InRange (a : Int) (n : Nat) : Prop := 0 ≤ a ∧ a + n ≤ 2 ^ 32

instance (a : Int) (n : Nat) : Decidable (InRange a n) :=
  inferInstanceAs (Decidable (0 ≤ a ∧ a + n ≤ 2 ^ 32))

/-- On ranges below 2^32 the memory operations succeed on a byte-addressed memory. -/
structure Reliable (mem : σ → Memory) : Prop where
  read : ∀ a n s, InRange a n → (t.readMemory a n s).1 = load (mem s) a n
  read_mem : ∀ a n s, InRange a n → mem (t.readMemory a n s).2 = mem s
  write : ∀ a bs s, InRange a bs.length → (t.writeMemory a bs s).1 = 0
  write_mem : ∀ a bs s, InRange a bs.length →
    mem (t.writeMemory a bs s).2 = store (mem s) a bs

/-- A target that is nothing but a memory. -/
def ramTarget (trap : List Byte) (h : trap.length ≤ maxBreakpointLen) : MemTarget Memory where
  readMemory a n m := (load m a n, m)
  writeMemory a bs m := (0, store m a bs)
  breakpointData := some trap
  readMemory_length _ _ _ := load_length _ _ _
  breakpointData_length := h

theorem ramTarget_reliable (trap : List Byte) (h : trap.length ≤ maxBreakpointLen) :
    Reliable (ramTarget trap h) id where
  read _ _ _ _ := rfl
  read_mem _ _ _ _ := rfl
  write _ _ _ _ := rfl
  write_mem _ _ _ _ := rfl

abbrev ppcRam : MemTarget Memory := ramTarget ppcTrap (by decide)

/-- No breakpoints yet, and all of memory zero. -/
def blankState : MemState Memory := { breakpoints := [], nextNode := 0, target := fun _ => 0 }

end MemBreak
