import OsxGdbserver.BreakpointShadows

/-!
# The copies between the buffer and the shadow bytes

The iterations of `check_mem_read` and `check_mem_write` one by one, each with the buffer
as the iterations before it have left it: the offsets lie in both buffers, and what is
copied is what the two spans have in common.
-/

namespace MemBreak

open Overlay

variable {σ : Type} (t : MemTarget σ) {bpLen n : Nat} {a pc : Int}

/-- The value of a `long long`. -/
def toCoreAddr (x : Int) : Int := x.bmod (2 ^ 64)

theorem toCoreAddr_of_range {x : Int} (lo : -2 ^ 63 ≤ x) (hi : x < 2 ^ 63) : toCoreAddr x = x :=
  Int.bmod_eq_of_le (by omega) (by omega)

/-- `clip` in the arithmetic of `CORE_ADDR`. -/
def clipCoreAddr (bpLen : Nat) (memAddr : Int) (memLen : Nat) (pc : Int) : Option Clip :=
  let memEnd := toCoreAddr (memAddr + memLen)
  let bpEnd := toCoreAddr (pc + bpLen)
  if memAddr ≥ bpEnd then none
  else if pc ≥ memEnd then none
  else
    let start := if memAddr > pc then memAddr else pc
    let stop := if bpEnd > memEnd then memEnd else bpEnd
    some
      { copyLen := toInt (toCoreAddr (stop - start))
        copyOffset := toInt (toCoreAddr (start - pc))
        bufOffset := toInt (toCoreAddr (start - memAddr)) }

/-- The offsets of an iteration that copies. -/
structure CopiesWithin (bpLen : Nat) (memAddr : Int) (memLen : Nat) (pc : Int) (c : Clip) :
    Prop where
  copyLen : c.copyLen = min (pc + bpLen) (memAddr + memLen) - max pc memAddr
  copyOffset : c.copyOffset = max pc memAddr - pc
  bufOffset : c.bufOffset = max pc memAddr - memAddr
  copyLen_nonneg : 0 ≤ c.copyLen
  in_buf : 0 ≤ c.bufOffset ∧ c.bufOffset + c.copyLen ≤ memLen
  in_shadow : 0 ≤ c.copyOffset ∧ c.copyOffset + c.copyLen ≤ bpLen
  common : ∀ x, InSpan (memAddr + c.bufOffset) c.copyLen.toNat x ↔
    InSpan memAddr memLen x ∧ InSpan pc bpLen x

theorem clipCoreAddr_eq (short : bpLen ≤ maxBreakpointLen) (addr : 0 ≤ a)
    (memEnd : a + n < 2 ^ 63) (lower : -2 ^ 63 ≤ pc) (bpEnd : pc + bpLen < 2 ^ 63) :
    clipCoreAddr bpLen a n pc = clip bpLen a n pc := by
  simp only [maxBreakpointLen] at short
  have hmem : toCoreAddr (a + n) = a + n := toCoreAddr_of_range (by omega) memEnd
  have hbp : toCoreAddr (pc + bpLen) = pc + bpLen := toCoreAddr_of_range (by omega) bpEnd
  simp only [clipCoreAddr, clip, hmem, hbp]
  by_cases h₁ : a ≥ pc + bpLen
  · simp only [if_pos h₁]
  · by_cases h₂ : pc ≥ a + n
    · simp only [if_pos h₂]
    · have hwide : ∀ y : Int, 0 ≤ y → y < 2 ^ 63 → toCoreAddr y = y := fun y hy =>
        toCoreAddr_of_range (by omega)
      simp only [if_neg h₁, if_neg h₂]
      rw [hwide _ (by omega) (by omega), hwide _ (by omega) (by omega),
        hwide _ (by omega) (by omega)]

theorem clip_copiesWithin {c : Clip} (short : bpLen ≤ maxBreakpointLen) (len : n < 2 ^ 31)
    (h : clip bpLen a n pc = some c) : CopiesWithin bpLen a n pc c := by
  rw [clip_eq short len] at h
  split at h
  · cases h
  · rename_i hmeet
    obtain rfl := Option.some.inj h
    constructor
    · rfl
    · rfl
    · rfl
    · dsimp only
      omega
    · dsimp only
      omega
    · dsimp only
      omega
    · intro x
      simp only [InSpan]
      omega

/-- What an iteration of either loop does, from the buffers `read` and `written` on. -/
structure CopiesCommon (a : Int) (read written : List Byte) (bp : Breakpoint) : Prop where
  read_buf : ∀ x, InSpan a read.length x →
    byteAt a (checkMemReadOne t a read bp) x =
      if Covers t bp x then byteAt bp.pc (saved t bp) x else byteAt a read x
  write_shadow : ∀ x, Covers t bp x →
    byteAt bp.pc (saved t (checkMemWriteOne t a written bp).2) x =
      if InSpan a written.length x then byteAt a written x else byteAt bp.pc (saved t bp) x
  write_buf : ∀ x, InSpan a written.length x →
    byteAt a (checkMemWriteOne t a written bp).1 x =
      if bp.reinserting = false ∧ Covers t bp x then byteAt bp.pc t.trap x
      else byteAt a written x

theorem copiesCommon {read written : List Byte} (bp : Breakpoint) (hread : read.length < 2 ^ 31)
    (hwritten : written.length < 2 ^ 31) : CopiesCommon t a read written bp := by
  constructor
  · intro x hx
    simp only [checkMemReadOne_eq t a bp hread, byteAt_overlay_of_inSpan hx, inSpan_saved_iff]
  · intro x hx
    have hspan : InSpan bp.pc (saved t bp).length x := (inSpan_saved_iff t).mpr hx
    change byteAt bp.pc (saved t (refreshed t a written bp)) x = _
    rw [saved_refreshed t a bp hwritten, byteAt_overlay_of_inSpan hspan]
  · intro x hx
    rw [checkMemWriteOne_fst t a bp hwritten]
    cases bp.reinserting with
    | true => simp
    | false =>
      simp only [Bool.false_eq_true, if_false, true_and]
      exact byteAt_overlay_of_inSpan hx

/-- In every iteration of either loop: a skipped breakpoint has no byte in common with the
buffer, and otherwise the offsets are exact, lie in both buffers and the common bytes are
copied. -/
theorem shadow_copies_within {buf : List Byte} {bps : List Breakpoint} (addr : 0 ≤ a)
    (len : buf.length < 2 ^ 31) (memEnd : a + buf.length < 2 ^ 63)
    (bpEnd : ∀ b ∈ bps, -2 ^ 63 ≤ b.pc ∧ b.pc + t.breakpointLen < 2 ^ 63)
    {pre post : List Breakpoint} {b : Breakpoint} (iteration : bps = pre ++ b :: post) :
    (checkMemRead t a buf pre).length = buf.length ∧
    (checkMemWrite t a buf pre).1.length = buf.length ∧
    clipCoreAddr t.breakpointLen a buf.length b.pc = clip t.breakpointLen a buf.length b.pc ∧
    (clip t.breakpointLen a buf.length b.pc = none →
      Apart a buf.length b.pc t.breakpointLen) ∧
    (∀ c, clip t.breakpointLen a buf.length b.pc = some c →
      CopiesWithin t.breakpointLen a buf.length b.pc c) ∧
    CopiesCommon t a (checkMemRead t a buf pre) (checkMemWrite t a buf pre).1 b := by
  have hread := checkMemRead_length t a buf pre
  have hwritten : (checkMemWrite t a buf pre).1.length = buf.length := by
    rw [checkMemWrite_fst t a pre len, passTraps_length]
  obtain ⟨hlower, hupper⟩ := bpEnd b (by simp [iteration])
  refine ⟨hread, hwritten, ?_, clip_none, ?_, ?_⟩
  · exact clipCoreAddr_eq t.breakpointLen_le addr memEnd hlower hupper
  · exact fun c => clip_copiesWithin t.breakpointLen_le len
  · exact copiesCommon t b (by omega) (by omega)

/-- Two overlapping breakpoints, one on either side of the start of the buffer. -/
theorem shadow_copies_within_overlap :
    let bp (node : Nat) (pc : Int) : Breakpoint :=
      { node := node, pc := pc, oldData := Vector.replicate 8 7, reinserting := false,
        breakpointToReinsert := none, handler := .null }
    let buf : List Byte := [1, 2, 3]
    let pre := [bp 0 4097]
    let b := bp 1 4094
    (checkMemRead ppcRam 4096 buf pre).length = buf.length ∧
    (checkMemWrite ppcRam 4096 buf pre).1.length = buf.length ∧
    clipCoreAddr ppcRam.breakpointLen 4096 buf.length b.pc =
      clip ppcRam.breakpointLen 4096 buf.length b.pc ∧
    (clip ppcRam.breakpointLen 4096 buf.length b.pc = none →
      Apart 4096 buf.length b.pc ppcRam.breakpointLen) ∧
    (∀ c, clip ppcRam.breakpointLen 4096 buf.length b.pc = some c →
      CopiesWithin ppcRam.breakpointLen 4096 buf.length b.pc c) ∧
    CopiesCommon ppcRam 4096 (checkMemRead ppcRam 4096 buf pre)
      (checkMemWrite ppcRam 4096 buf pre).1 b := by
  intro bp buf pre b
  have hlen : (ppcRam.breakpointLen : Int) = 4 := rfl
  have hpcs : ∀ c ∈ pre ++ b :: [],
      -2 ^ 63 ≤ c.pc ∧ c.pc + (ppcRam.breakpointLen : Int) < 2 ^ 63 := by
    intro c hc
    have hpc : c.pc = 4097 ∨ c.pc = 4094 := by
      rcases List.mem_cons.mp hc with rfl | hc
      · exact Or.inl rfl
      · rw [List.mem_singleton.mp hc]
        exact Or.inr rfl
    omega
  have hbuf : (buf.length : Int) = 3 := rfl
  exact shadow_copies_within ppcRam (by omega) (by omega) (by omega) hpcs rfl

end MemBreak
