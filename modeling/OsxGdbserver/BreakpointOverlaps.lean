import OsxGdbserver.BreakpointRuns
import Mathlib.Data.List.Induction

/-!
# Breakpoints that overlap, and writes that fail

`Z0` and `z0` packets may put several breakpoints over one address. Then the loop of
`check_mem_write` saves trap bytes of newer breakpoints into older ones, and the saved
bytes are changed before it is known whether the write succeeds. For each promise that
this can break, the condition under which it is kept is stated exactly.
-/

namespace MemBreak

open Overlay Simulation

variable {σ : Type} (t : MemTarget σ)

/-- A `Z0` or `z0` packet with the address it names. -/
inductive ZPacket
  | insert (addr : Int)
  | remove (addr : Int)
  deriving DecidableEq, Repr

/-- The reply records which packet was handled. -/
def zStep (s : MemState σ) (p : ZPacket) : ZPacket × MemState σ :=
  match p with
  | .insert addr => (p, Proc.final ((setBreakpointAt t addr .null).run s))
  | .remove addr => (p, Proc.final ((deleteBreakpointAt t addr).run s))

/-- The trap byte that the nearest newer planted breakpoint has for `x`, where `newer`
are the nodes before some node of the list. -/
def nearestTrap (newer : List Breakpoint) (x : Int) : Option Byte :=
  (newer.reverse.find? fun b => !b.reinserting && decide (Covers t b x)).bind fun b =>
    byteAt b.pc t.trap x

theorem passing_eq_nearestTrap (bps : List Breakpoint) (d : Byte) (x : Int) :
    passing t bps d x = (nearestTrap t bps x).getD d := by
  induction bps using List.reverseRecOn with
  | nil => rfl
  | append_singleton rest b ih =>
    rw [passing_append, passing_cons]
    cases hr : b.reinserting with
    | true => simpa [nearestTrap, hr, passing] using ih
    | false =>
      by_cases hb : Covers t b x
      · obtain ⟨v, hv⟩ := byteAt_of_inSpan (show InSpan b.pc t.trap.length x from hb)
        simp [nearestTrap, hr, hb, hv, passing]
      · simpa [nearestTrap, hr, hb, byteAt_trap_eq_none t hb, passing] using ih

theorem checkMemWrite_pcs (a : Int) (buf : List Byte) (bps : List Breakpoint) :
    (checkMemWrite t a buf bps).2.map Breakpoint.pc = bps.map Breakpoint.pc := by
  induction bps generalizing buf with
  | nil => rfl
  | cons b rest ih =>
    simp only [checkMemWrite, List.map_cons, ih]
    exact congrArg (· :: _) (refreshed_pc t a buf b)

theorem checkMemWrite_uncovered {a : Int} {buf : List Byte} {bps : List Breakpoint} {x : Int}
    (h : ∀ b ∈ bps, ¬ Covers t b x) :
    ∀ b ∈ (checkMemWrite t a buf bps).2, ¬ Covers t b x := by
  intro b hb
  have hpc : b.pc ∈ bps.map Breakpoint.pc := by
    rw [← checkMemWrite_pcs t a buf bps]
    exact List.mem_map_of_mem hb
  obtain ⟨c, hc, heq⟩ := List.mem_map.mp hpc
  have := h c hc
  rwa [Covers, heq] at this

theorem clientView_checkMemWrite_outside {a : Int} {buf : List Byte} (bps : List Breakpoint)
    {m m' : Memory} {x : Int} (hn : buf.length < 2 ^ 31) (hx : ¬ InSpan a buf.length x)
    (hm : m' x = m x) :
    clientView t (checkMemWrite t a buf bps).2 m' x = clientView t bps m x := by
  induction bps generalizing buf m m' with
  | nil => exact hm
  | cons b rest ih =>
    have hone := checkMemWriteOne_fst t a b hn
    have hlen : (checkMemWriteOne t a buf b).1.length = buf.length := by
      rw [hone]
      split <;> simp
    have hsaved : byteAt b.pc (saved t (refreshed t a buf b)) x =
        byteAt b.pc (saved t b) x := by
      rw [saved_refreshed t a b hn, byteAt_overlay, byteAt_of_not_inSpan hx]
      simp
    apply ih (by omega) (by rwa [hlen])
    change store m' (refreshed t a buf b).pc _ x = store m b.pc _ x
    rw [refreshed_pc, store, store, hm, ← hsaved]
    rfl

structure Planted (s : MemState σ) : Prop where
  linked : WellLinked s
  inserted : ∀ b ∈ s.breakpoints, b.reinserting = false

theorem planted_empty {s : MemState σ} (empty : s.breakpoints = []) : Planted s := by
  refine ⟨⟨?_, ?_⟩, ?_⟩ <;> simp [empty]

theorem planted_zStep {s : MemState σ} (h : Planted s) (p : ZPacket) :
    Planted (zStep t s p).2 := by
  cases p with
  | insert addr =>
    simp only [zStep]
    cases hdata : t.breakpointData with
    | none => simpa [setBreakpointAt_null t s addr .null hdata] using h
    | some data =>
      rw [setBreakpointAt_run t s addr .null hdata, Proc.final_ok]
      refine ⟨h.linked.insert (b := newBreakpoint t s addr .null) rfl rfl rfl, ?_⟩
      intro b hb
      rcases List.mem_cons.mp hb with rfl | hb
      · rfl
      · exact h.inserted b hb
  | remove addr =>
    simp only [zStep]
    cases hfind : findBreakpointAt addr s.breakpoints with
    | none => simpa [deleteBreakpointAt_none t hfind] using h
    | some b =>
      obtain ⟨_, pre, post, hsplit, _⟩ := findBreakpointAt_eq_some hfind
      rw [deleteBreakpointAt_some t h.linked hsplit hfind, Proc.final_ok]
      have hsub : (pre ++ post).Sublist s.breakpoints := hsplit ▸ sublist_split pre post b
      exact ⟨h.linked.sublist hsub rfl, fun c hc => h.inserted c (hsub.subset hc)⟩

/-- A read right after the write returns the data, and other addresses read as before. -/
def ReadsBack (s : MemState σ) (a : Int) (data : List Byte) : Prop :=
  let after := Proc.final ((writeInferiorMemory t a data).run s)
  Proc.value ((readInferiorMemory t a data.length).run after) = some data ∧
    ∀ b n, InRange b n → n < 2 ^ 31 → Apart b n a data.length →
      Proc.value ((readInferiorMemory t b n).run after) =
        Proc.value ((readInferiorMemory t b n).run s)

/-- Wherever the write meets two or more listed breakpoints, its byte is the trap byte
which the second oldest of them has there. -/
def TrapsCoincide (bps : List Breakpoint) (a : Int) (data : List Byte) : Prop :=
  ∀ pre b post, bps = pre ++ b :: post → ∀ x d v, byteAt a data x = some d →
    Covers t b x → (∀ c ∈ post, ¬ Covers t c x) → nearestTrap t pre x = some v → v = d

variable {t} {mem : σ → Memory}

theorem readInferiorMemory_value (rel : Reliable t mem) (s : MemState σ) {a : Int} {n : Nat}
    (hrange : InRange a n) (hn : n < 2 ^ 31) :
    Proc.value ((readInferiorMemory t a n).run s) =
      some (load (clientView t s.breakpoints (mem s.target)) a n) := by
  rw [readInferiorMemory_run, Proc.value_ok, rel.read _ _ _ hrange, checkMemRead_load t a _ _ hn]

theorem mem_after_write (rel : Reliable t mem) (s : MemState σ) {a : Int} {data : List Byte}
    (hrange : InRange a data.length) (hn : data.length < 2 ^ 31) :
    mem (Proc.final ((writeInferiorMemory t a data).run s)).target =
      store (mem s.target) a (passTraps t a data s.breakpoints) := by
  rw [writeInferiorMemory_run, Proc.final_ok, checkMemWrite_fst t a _ hn]
  exact rel.write_mem _ _ _ (by simpa using hrange)

/-- What the client reads at a written address: the byte the loop handed to the oldest
breakpoint there. -/
theorem clientView_after_write_of_oldest {a : Int} {data : List Byte}
    (hn : data.length < 2 ^ 31) {pre post : List Breakpoint} {b : Breakpoint} {x : Int} {d : Byte}
    (hd : byteAt a data x = some d) (hb : Covers t b x) (hpost : ∀ c ∈ post, ¬ Covers t c x)
    (m : Memory) :
    clientView t (checkMemWrite t a data (pre ++ b :: post)).2 m x =
      (nearestTrap t pre x).getD d := by
  have hsaved : byteAt b.pc (saved t (refreshed t a (passTraps t a data pre) b)) x =
      some (passing t pre d x) := by
    obtain ⟨w, hw⟩ := byteAt_of_inSpan ((inSpan_saved_iff t).mpr hb)
    rw [saved_refreshed t a b (by simpa using hn), byteAt_overlay, byteAt_passTraps, hd, hw]
    rfl
  rw [checkMemWrite_split t a pre post b hn, ← passing_eq_nearestTrap]
  apply clientView_of_oldest t (by rwa [refreshed_pc])
  exact checkMemWrite_uncovered t hpost

/-- Reading back works for a run's list exactly when overlapping traps coincide with
the data. -/
theorem readsBack_iff (rel : Reliable t mem) {s : MemState σ} (empty : s.breakpoints = [])
    (packets : List ZPacket) {a : Int} {data : List Byte} (hrange : InRange a data.length)
    (hn : data.length < 2 ^ 31) :
    ReadsBack t (finalState (zStep t) s packets) a data ↔
      TrapsCoincide t (finalState (zStep t) s packets).breakpoints a data := by
  have planted : Planted (finalState (zStep t) s packets) :=
    finalState_kept (P := Planted) (fun _ p h => planted_zStep t h p) (planted_empty empty)
      packets
  generalize finalState (zStep t) s packets = s at planted
  have hlist : (Proc.final ((writeInferiorMemory t a data).run s)).breakpoints =
      (checkMemWrite t a data s.breakpoints).2 := by
    rw [writeInferiorMemory_run, Proc.final_ok]
  have hmem := mem_after_write rel s hrange hn
  constructor
  · intro h pre b post hsplit x d v hd hb hpost hv
    have hread := h.1
    rw [readInferiorMemory_value rel _ hrange hn, hlist, hsplit] at hread
    have hx := congrArg (fun bs => byteAt a bs x) (Option.some.inj hread)
    have hin := byteAt_eq_some_inSpan hd
    simp only [byteAt_load, if_pos hin, hd, Option.some.injEq] at hx
    rwa [clientView_after_write_of_oldest hn hd hb hpost, hv] at hx
  · intro h
    constructor
    · rw [readInferiorMemory_value rel _ hrange hn, hlist, hmem, Option.some.injEq]
      apply eq_of_byteAt (a := a) (by simp)
      intro x hin
      rw [load_length] at hin
      obtain ⟨d, hd⟩ := byteAt_of_inSpan hin
      rw [byteAt_load, if_pos hin, hd, Option.some.injEq]
      rcases uncovered_or_oldest t s.breakpoints x with hfree | ⟨pre, b, post, hsplit, hb, hpost⟩
      · rw [clientView_of_uncovered t (checkMemWrite_uncovered t hfree)]
        simp [store, byteAt_passTraps, hd, passing_of_uncovered t fun b hb _ => hfree b hb]
      · rw [hsplit, clientView_after_write_of_oldest hn hd hb hpost]
        cases hv : nearestTrap t pre x with
        | none => rfl
        | some v => exact h pre b post hsplit x d v hd hb hpost hv
    · intro b n hb hn' happart
      rw [readInferiorMemory_value rel _ hb hn', readInferiorMemory_value rel _ hb hn', hlist,
        hmem, Option.some.injEq, load_eq_iff]
      intro x hx
      apply clientView_checkMemWrite_outside t s.breakpoints hn (happart x hx)
      exact store_of_not_inSpan (by simpa using happart x hx)

/-- One breakpoint inside the written range: nothing overlaps. -/
theorem readsBack_iff_single :
    ReadsBack ppcRam (finalState (zStep ppcRam) blankState [.insert 4096]) 4094 [1, 2, 3, 4] ↔
      TrapsCoincide ppcRam (finalState (zStep ppcRam) blankState [.insert 4096]).breakpoints
        4094 [1, 2, 3, 4] :=
  readsBack_iff (ramTarget_reliable ppcTrap (by decide)) rfl [.insert 4096] (by decide)
    (by decide)

/-- With two breakpoints at one address the older one saves the trap of the newer one. -/
theorem not_readsBack_twice :
    ¬ ReadsBack ppcRam (finalState (zStep ppcRam) blankState [.insert 4096, .insert 4096])
      4096 [1, 2, 3, 4] := by
  rintro ⟨hread, _⟩
  revert hread
  decide

variable (t) in
/-- The breakpoint list is as it was, and so is every later reply and state. -/
def Unaffected (s : MemState σ) (a : Int) (data : List Byte) : Prop :=
  let after := Proc.final ((writeInferiorMemory t a data).run s)
  after.breakpoints = s.breakpoints ∧
    ∀ ops, trace (memStep t) after ops = trace (memStep t) s ops

variable (t) in
/-- Every saved byte in the written range already is the byte the loop would save: the
trap byte of the nearest newer planted breakpoint there, else the data byte. -/
def SavedAlready (bps : List Breakpoint) (a : Int) (data : List Byte) : Prop :=
  ∀ pre b post, bps = pre ++ b :: post → ∀ x d, byteAt a data x = some d → Covers t b x →
    byteAt b.pc (saved t b) x = some ((nearestTrap t pre x).getD d)

theorem refreshed_eq_self {a : Int} {buf : List Byte} {b : Breakpoint}
    (hn : buf.length < 2 ^ 31) (h : saved t (refreshed t a buf b) = saved t b) :
    refreshed t a buf b = b := by
  have htail : (refreshed t a buf b).oldData.toList.drop t.breakpointLen =
      b.oldData.toList.drop t.breakpointLen := by
    unfold refreshed checkMemWriteOne
    split
    · rfl
    · rename_i c hc
      obtain ⟨lo, hi, ha, hp, hlo, hn', hbp, hclip, rfl⟩ :=
        clip_some hc t.breakpointLen_le hn
      have hfit : (lo - b.pc).toNat +
          ((buf.drop (lo - a).toNat).take (hi - lo).toNat).length ≤ t.breakpointLen := by
        simp only [List.length_take, List.length_drop]
        omega
      split
      · simpa [copyIn] using memcpy_drop b.oldData.toList hfit
      · simpa [copyIn] using memcpy_drop b.oldData.toList hfit
  have hlist : (refreshed t a buf b).oldData.toList = b.oldData.toList := by
    rw [← List.take_append_drop t.breakpointLen (refreshed t a buf b).oldData.toList, htail]
    exact (congrArg (· ++ _) h).trans (List.take_append_drop _ _)
  obtain ⟨d, hd⟩ := refreshed_eq t a buf b
  rw [hd] at hlist ⊢
  have : d = b.oldData := Vector.toList_inj.mp hlist
  rw [this]

theorem checkMemWrite_snd_eq_self {a : Int} {data : List Byte} (hn : data.length < 2 ^ 31)
    (pre post : List Breakpoint) (h : SavedAlready t (pre ++ post) a data) :
    (checkMemWrite t a (passTraps t a data pre) post).2 = post := by
  induction post generalizing pre with
  | nil => rfl
  | cons b rest ih =>
    have hlen : (passTraps t a data pre).length < 2 ^ 31 := by simpa using hn
    have hsaved : saved t (refreshed t a (passTraps t a data pre) b) = saved t b := by
      rw [saved_refreshed t a b hlen]
      apply eq_of_byteAt (a := b.pc) (by simp)
      intro x hx
      rw [overlay_length] at hx
      obtain ⟨w, hw⟩ := byteAt_of_inSpan hx
      rw [byteAt_overlay, byteAt_passTraps, hw, Option.map_some]
      cases hd : byteAt a data x with
      | none => rfl
      | some d =>
        have hagree := h pre b rest rfl x d hd ((inSpan_saved_iff t).mp hx)
        rw [hw, ← passing_eq_nearestTrap] at hagree
        exact hagree.symm
    have hself := refreshed_eq_self hlen hsaved
    have hrest := ih (pre ++ [b]) (by simpa using h)
    have hsplit := checkMemWrite_split t a pre rest b hn
    rw [checkMemWrite_append t a pre (b :: rest) hn] at hsplit
    have htail := List.append_cancel_left hsplit
    rw [htail, hself, hrest]

/-- A refused write leaves no trace exactly when there was nothing for it to save. -/
theorem unaffected_iff {s : MemState σ} {a : Int} {data : List Byte} {errno : Int}
    (hn : data.length < 2 ^ 31) (refused : errno ≠ 0 ∧
      t.writeMemory a (checkMemWrite t a data s.breakpoints).1 s.target = (errno, s.target)) :
    Unaffected t s a data ↔ SavedAlready t s.breakpoints a data := by
  have hrun := writeInferiorMemory_run t s a data
  rw [refused.2] at hrun
  constructor
  · intro h pre b post hsplit x d hd hb
    have hlist := h.1
    rw [hrun, Proc.final_ok, hsplit, checkMemWrite_split t a pre post b hn] at hlist
    have hlen : (checkMemWrite t a data pre).2.length = pre.length := by
      simpa using congrArg List.length (checkMemWrite_nodes t a data pre)
    have hself := (List.cons.inj (List.append_inj hlist hlen).2).1
    have hsaved := saved_refreshed t a b (passTraps_length t a data pre ▸ hn)
    rw [hself] at hsaved
    obtain ⟨w, hw⟩ := byteAt_of_inSpan ((inSpan_saved_iff t).mpr hb)
    have hx := congrArg (fun bs => byteAt b.pc bs x) hsaved
    simp only [byteAt_overlay, byteAt_passTraps, hw, hd, Option.map_some,
      Option.getD_some] at hx
    rw [hw, hx, passing_eq_nearestTrap]
  · intro h
    have hsame : Proc.final ((writeInferiorMemory t a data).run s) = s := by
      have hlist := checkMemWrite_snd_eq_self hn [] s.breakpoints h
      rw [hrun, Proc.final_ok]
      exact congrArg (fun l => { s with breakpoints := l }) hlist
    exact ⟨by rw [hsame], fun ops => by rw [hsame]⟩

/-- A memory that ends at `limit`: a write that goes further is refused. -/
def boundedTarget (limit : Int) : MemTarget Memory where
  readMemory a n m := (load m a n, m)
  writeMemory a bs m := if a + bs.length ≤ limit then (0, store m a bs) else (5, m)
  breakpointData := some ppcTrap
  readMemory_length _ _ _ := load_length _ _ _
  breakpointData_length := ppcTrap_length

/-- The breakpoint at 4096 lies in the memory, the write after it does not. -/
def boundedState : MemState Memory :=
  finalState (zStep (boundedTarget 4100)) blankState [.insert 4096]

theorem unaffected_iff_bounded :
    Unaffected (boundedTarget 4100) boundedState 4096 [1, 2, 3, 4, 5, 6, 7, 8] ↔
      SavedAlready (boundedTarget 4100) boundedState.breakpoints 4096
        [1, 2, 3, 4, 5, 6, 7, 8] :=
  unaffected_iff (by decide) (show (5 : Int) ≠ 0 ∧ _ from ⟨by decide, rfl⟩)

theorem not_unaffected_bounded :
    ¬ Unaffected (boundedTarget 4100) boundedState 4096 [1, 2, 3, 4, 5, 6, 7, 8] := by
  rintro ⟨hlist, _⟩
  revert hlist
  decide

variable (t) in
/-- Right after `delete_breakpoint_at(addr)`: nothing is inserted there, and each byte
of its range that no breakpoint at another address covers is the initial one. -/
def Restored (mem : σ → Memory) (init : Memory) (addr : Int) (s : MemState σ) : Prop :=
  breakpointInsertedHere addr s.breakpoints = false ∧
    ∀ x, InSpan addr t.breakpointLen x →
      (∀ b ∈ s.breakpoints, b.pc ≠ addr → ¬ Covers t b x) → mem s.target x = init x

variable (t) in
/-- At most one breakpoint is listed at `addr`, and no newer one overlaps it. -/
def NewestFirst (bps : List Breakpoint) (addr : Int) : Prop :=
  ∀ pre b post, bps = pre ++ b :: post → b.pc = addr →
    (∀ c ∈ pre, c.pc ≠ addr ∧ Apart c.pc t.breakpointLen addr t.breakpointLen) ∧
      ∀ c ∈ post, c.pc ≠ addr

theorem newestFirst_iff {bps : List Breakpoint} {addr : Int} :
    NewestFirst t bps addr ↔ ∀ i : Fin bps.length, bps[i].pc = addr →
      (∀ c ∈ bps.take i, c.pc ≠ addr ∧ Apart c.pc t.breakpointLen addr t.breakpointLen) ∧
        ∀ c ∈ bps.drop (i + 1), c.pc ≠ addr := by
  constructor
  · rintro h i hpc
    exact h _ bps[i] _ (by simp) hpc
  · rintro h pre b post rfl hpc
    simpa [hpc] using h ⟨pre.length, by simp⟩

instance (bps : List Breakpoint) (addr : Int) : Decidable (NewestFirst t bps addr) :=
  decidable_of_iff _ newestFirst_iff.symm

variable (t) in
/-- Breakpoints are set below 2^32 and removed newest first. -/
def ZOrdered (s : MemState σ) : ZPacket → Prop
  | .insert addr => InRange addr t.breakpointLen
  | .remove addr => NewestFirst t s.breakpoints addr

instance (s : MemState σ) : ∀ packet, Decidable (ZOrdered t s packet)
  | .insert addr => inferInstanceAs (Decidable (InRange addr t.breakpointLen))
  | .remove addr => inferInstanceAs (Decidable (NewestFirst t s.breakpoints addr))

variable (t) in
/-- The memory is the initial one with the traps planted over it, oldest first, each
breakpoint having saved what was there. -/
inductive Stacked (init : Memory) : List Breakpoint → Memory → Prop
  | nil : Stacked init [] init
  | cons {b : Breakpoint} {rest : List Breakpoint} {m : Memory}
      (hsaved : saved t b = load m b.pc t.breakpointLen) (below : Stacked init rest m) :
      Stacked init (b :: rest) (store m b.pc t.trap)

theorem Stacked.of_uncovered {init m : Memory} {bps : List Breakpoint}
    (h : Stacked t init bps m) {x : Int} (hx : ∀ b ∈ bps, ¬ Covers t b x) : m x = init x := by
  induction h with
  | nil => rfl
  | cons _ _ ih =>
    have hb := hx _ List.mem_cons_self
    rw [store_of_not_inSpan (show ¬ InSpan _ t.trap.length x from hb)]
    exact ih fun c hc => hx c (List.mem_cons_of_mem _ hc)

theorem Stacked.remove {init m : Memory} {pre post : List Breakpoint} {b : Breakpoint}
    (h : Stacked t init (pre ++ b :: post) m)
    (apart : ∀ c ∈ pre, Apart c.pc t.breakpointLen b.pc t.breakpointLen) :
    Stacked t init (pre ++ post) (store m b.pc (saved t b)) := by
  induction pre generalizing m with
  | nil =>
    cases h with
    | @cons _ _ below hsaved hbelow =>
      have hback := store_store_load below b.pc t.trap
      rw [trap_length] at hback
      rw [hsaved, hback]
      exact hbelow
  | cons c pre ih =>
    cases h with
    | @cons _ _ below hsaved hbelow =>
      have hc : Apart c.pc t.breakpointLen b.pc t.breakpointLen := apart c List.mem_cons_self
      have hrest := ih hbelow fun d hd => apart d (List.mem_cons_of_mem _ hd)
      have hload : load (store below b.pc (saved t b)) c.pc t.breakpointLen =
          load below c.pc t.breakpointLen := load_store_apart below (by simpa using hc)
      have hswap : store (store below c.pc t.trap) b.pc (saved t b) =
          store (store below b.pc (saved t b)) c.pc t.trap :=
        store_comm below (by simpa using hc)
      rw [hswap]
      exact .cons (hsaved.trans hload.symm) hrest

variable (t) in
/-- What a run keeps while breakpoints are removed newest first. -/
structure StackedState (mem : σ → Memory) (init : Memory) (s : MemState σ) : Prop where
  planted : Planted s
  inRange : ∀ b ∈ s.breakpoints, InRange b.pc t.breakpointLen
  stacked : Stacked t init s.breakpoints (mem s.target)

theorem saved_of_reliable (rel : Reliable t mem) (s : MemState σ) {addr : Int}
    (handler : Handler) (hrange : InRange addr t.breakpointLen) :
    saved t (newBreakpoint t s addr handler) = load (mem s.target) addr t.breakpointLen := by
  rw [saved_newBreakpoint, rel.read _ _ _ hrange]

theorem stackedState_insert (rel : Reliable t mem) {init : Memory} {s : MemState σ}
    (h : StackedState t mem init s) {addr : Int} (hrange : InRange addr t.breakpointLen) :
    StackedState t mem init (zStep t s (.insert addr)).2 := by
  have hplanted := planted_zStep t h.planted (.insert addr)
  cases hdata : t.breakpointData with
  | none => simpa [zStep, setBreakpointAt_null t s addr .null hdata] using h
  | some data =>
    simp only [zStep, setBreakpointAt_run t s addr .null hdata, Proc.final_ok] at hplanted ⊢
    refine ⟨hplanted, ?_, ?_⟩
    · rintro b hb
      rcases List.mem_cons.mp hb with rfl | hb
      · exact hrange
      · exact h.inRange b hb
    · dsimp only
      rw [rel.write_mem _ _ _ hrange, rel.read_mem _ _ _ hrange]
      exact .cons (saved_of_reliable rel s .null hrange) h.stacked

theorem breakpointInsertedHere_eq_false {addr : Int} {bps : List Breakpoint}
    (h : ∀ b ∈ bps, b.pc ≠ addr) : breakpointInsertedHere addr bps = false := by
  simp [breakpointInsertedHere, findBreakpointAt_eq_none.mpr h]

theorem StackedState.restored {init : Memory} {s : MemState σ}
    (h : StackedState t mem init s) {addr : Int} (gone : ∀ b ∈ s.breakpoints, b.pc ≠ addr) :
    Restored t mem init addr s := by
  constructor
  · exact breakpointInsertedHere_eq_false gone
  · rintro x _ free
    exact h.stacked.of_uncovered fun b hb => free b hb (gone b hb)

theorem stackedState_remove (rel : Reliable t mem) {init : Memory} {s : MemState σ}
    (h : StackedState t mem init s) {addr : Int}
    (newest : NewestFirst t s.breakpoints addr) :
    StackedState t mem init (zStep t s (.remove addr)).2 ∧
      ∀ b ∈ (zStep t s (.remove addr)).2.breakpoints, b.pc ≠ addr := by
  have hplanted := planted_zStep t h.planted (.remove addr)
  cases hfind : findBreakpointAt addr s.breakpoints with
  | none =>
    simp only [zStep, deleteBreakpointAt_none t hfind, Proc.final_ok]
    exact ⟨h, findBreakpointAt_eq_none.mp hfind⟩
  | some b =>
    obtain ⟨hpc, pre, post, hsplit, _⟩ := findBreakpointAt_eq_some hfind
    obtain ⟨hpre, hpost⟩ := newest pre b post hsplit hpc
    have hb : b ∈ s.breakpoints := by simp [hsplit]
    have hsub : (pre ++ post).Sublist s.breakpoints := hsplit ▸ sublist_split pre post b
    simp only [zStep, deleteBreakpointAt_some t h.planted.linked hsplit hfind,
      Proc.final_ok] at hplanted ⊢
    refine ⟨⟨hplanted, ?_, ?_⟩, ?_⟩
    · exact fun c hc => h.inRange c (hsub.subset hc)
    · dsimp only
      rw [rel.write_mem _ _ _ (by simpa using h.inRange b hb)]
      have hstack := h.stacked
      rw [hsplit] at hstack
      exact hstack.remove fun c hc => hpc ▸ (hpre c hc).2
    · intro c hc
      rcases List.mem_append.mp hc with hc | hc
      · exact (hpre c hc).1
      · exact hpost c hc

/-- In a run that always removes the newest of overlapping breakpoints, every removal
restores the initial bytes. -/
theorem removals_restore (rel : Reliable t mem) {s : MemState σ} (empty : s.breakpoints = [])
    {packets : List ZPacket} (ordered : AllowedRun (ZOrdered t) (zStep t) s packets) :
    ∀ p ∈ trace (zStep t) s packets, ∀ addr, p.1 = .remove addr →
      Restored t mem (mem s.target) addr p.2 := by
  have start : StackedState t mem (mem s.target) s := by
    refine ⟨planted_empty empty, by simp [empty], ?_⟩
    rw [empty]
    exact .nil
  refine trace_property (P := StackedState t mem (mem s.target))
    (Q := fun p => ∀ addr, p.1 = .remove addr → Restored t mem (mem s.target) addr p.2)
    ?_ start ordered
  intro s' packet h ok
  cases packet with
  | insert addr =>
    refine ⟨stackedState_insert rel h ok, ?_⟩
    rintro addr' ⟨⟩
  | remove addr =>
    obtain ⟨hnext, hgone⟩ := stackedState_remove rel h ok
    refine ⟨hnext, ?_⟩
    rintro addr' ⟨⟩
    exact hnext.restored hgone

def nested : List ZPacket := [.insert 4096, .insert 4098, .remove 4098, .remove 4096]

/-- Two overlapping breakpoints, the newer one removed first. -/
theorem removals_restore_nested :
    Restored ppcRam id blankState.target 4098
        (finalState (zStep ppcRam) blankState (nested.take 3)) ∧
      Restored ppcRam id blankState.target 4096 (finalState (zStep ppcRam) blankState nested) := by
  have ordered : AllowedRun (ZOrdered ppcRam) (zStep ppcRam) blankState nested := by
    decide
  have restored := removals_restore (ramTarget_reliable ppcTrap (by decide)) rfl ordered
  constructor
  · exact restored _ (.tail _ (.tail _ (.head _))) 4098 rfl
  · exact restored _ (.tail _ (.tail _ (.tail _ (.head _)))) 4096 rfl

/-- A second breakpoint at the same address is still inserted after the removal, and a
newer one that overlaps brings back the trap of the one removed before it. -/
theorem not_restored_unordered :
    ¬ Restored ppcRam id blankState.target 4096
        (finalState (zStep ppcRam) blankState [.insert 4096, .insert 4096, .remove 4096]) ∧
      ¬ Restored ppcRam id blankState.target 4098
        (finalState (zStep ppcRam) blankState
          [.insert 4096, .insert 4098, .remove 4096, .remove 4098]) := by
  constructor
  · rintro ⟨hgone, _⟩
    revert hgone
    decide
  · rintro ⟨_, hbytes⟩
    have hbyte := hbytes 4099 (by decide) (by decide)
    revert hbyte
    decide

end MemBreak
