import OsxGdbserver.BreakpointRuns

/-!
# Breakpoints are invisible to the client

The abstract component is a plain memory on which only the client's writes happen.
While no two listed breakpoints overlap, the server with its breakpoint list
refines it: reads agree, and the target differs from the plain memory exactly by
the planted trap instructions.
-/

namespace MemBreak

open Overlay Simulation

variable {σ : Type} (t : MemTarget σ)

/-- A memory that never had a breakpoint: only writes change it. -/
def plainStep (m : Memory) : MemOp → Option (List Byte) × Memory
  | .readInferiorMemory a n => (some (load m a n), m)
  | .writeInferiorMemory a data => (none, store m a data)
  | _ => (none, m)

/-- `raw` holds the trap instruction at each listed breakpoint that is not being
reinserted, and is `plain` everywhere else. -/
def TrapsOnly (bps : List Breakpoint) (raw plain : Memory) : Prop :=
  (∀ b ∈ bps, b.reinserting = false → load raw b.pc t.breakpointLen = t.trap) ∧
    ∀ x, (∀ b ∈ bps, b.reinserting = false → ¬ Covers t b x) → raw x = plain x

/-- When an operation may be requested: a breakpoint is set only where it overlaps no
listed one, and only a listed one is taken out or put back. -/
def Requested (s : MemState σ) : MemOp → Prop
  | .setBreakpointAt a _ => InRange a t.breakpointLen ∧
      ∀ b ∈ s.breakpoints, Apart a t.breakpointLen b.pc t.breakpointLen
  | .deleteBreakpointAt _ => True
  | .uninsertBreakpoint a => ∃ b ∈ s.breakpoints, b.pc = a
  | .reinsertBreakpoint a => ∃ b ∈ s.breakpoints, b.pc = a
  | .readInferiorMemory a n => InRange a n ∧ n < 2 ^ 31
  | .writeInferiorMemory a data => InRange a data.length ∧ data.length < 2 ^ 31

instance (s : MemState σ) : ∀ op, Decidable (Requested t s op)
  | .setBreakpointAt a _ => inferInstanceAs (Decidable (InRange a t.breakpointLen ∧
      ∀ b ∈ s.breakpoints, Apart a t.breakpointLen b.pc t.breakpointLen))
  | .deleteBreakpointAt _ => inferInstanceAs (Decidable True)
  | .uninsertBreakpoint a => inferInstanceAs (Decidable (∃ b ∈ s.breakpoints, b.pc = a))
  | .reinsertBreakpoint a => inferInstanceAs (Decidable (∃ b ∈ s.breakpoints, b.pc = a))
  | .readInferiorMemory a n => inferInstanceAs (Decidable (InRange a n ∧ n < 2 ^ 31))
  | .writeInferiorMemory a data =>
    inferInstanceAs (Decidable (InRange a data.length ∧ data.length < 2 ^ 31))

/-- The saved bytes of every listed breakpoint are the plain memory's. -/
structure Shadows (mem : σ → Memory) (s : MemState σ) (plain : Memory) : Prop where
  linked : WellLinked s
  inRange : ∀ b ∈ s.breakpoints, InRange b.pc t.breakpointLen
  apart : ∀ b ∈ s.breakpoints, ∀ c ∈ s.breakpoints, b.node ≠ c.node →
    Apart b.pc t.breakpointLen c.pc t.breakpointLen
  savedPlain : ∀ b ∈ s.breakpoints, saved t b = load plain b.pc t.breakpointLen
  traps : TrapsOnly t s.breakpoints (mem s.target) plain

variable {t} {mem : σ → Memory} {s : MemState σ} {plain : Memory}

theorem Shadows.clientView_eq (h : Shadows t mem s plain) :
    clientView t s.breakpoints (mem s.target) = plain := by
  funext x
  apply clientView_eq_of_agree
  · intro b hb w hw
    rw [h.savedPlain b hb, byteAt_load] at hw
    split at hw
    · exact (Option.some.inj hw).symm
    · cases hw
  · intro hx
    exact h.traps.2 x fun b hb _ => hx b hb

theorem Shadows.retarget (h : Shadows t mem s plain) {target : σ}
    (same : mem target = mem s.target) :
    Shadows t mem { s with target := target } plain where
  linked := ⟨h.linked.nodup, h.linked.below⟩
  inRange := h.inRange
  apart := h.apart
  savedPlain := h.savedPlain
  traps := by
    have := h.traps
    rwa [← same] at this

/-- Bytes of a range that overlaps no listed breakpoint are plain already. -/
theorem Shadows.raw_load (h : Shadows t mem s plain) {a : Int} {n : Nat}
    (free : ∀ b ∈ s.breakpoints, Apart a n b.pc t.breakpointLen) :
    load (mem s.target) a n = load plain a n :=
  load_eq_iff.mpr fun x hx => h.traps.2 x fun b hb _ => free b hb x hx

theorem TrapsOnly.restore {bps rest : List Breakpoint} {raw : Memory} {b : Breakpoint}
    (h : TrapsOnly t bps raw plain)
    (apart : ∀ c ∈ rest, c.reinserting = false →
      Apart c.pc t.breakpointLen b.pc t.breakpointLen)
    (kept : ∀ c ∈ rest, c.reinserting = false → c ∈ bps)
    (others : ∀ c ∈ bps, c.reinserting = false → c = b ∨ c ∈ rest) :
    TrapsOnly t rest (store raw b.pc (load plain b.pc t.breakpointLen)) plain := by
  constructor
  · intro c hc hr
    rw [load_store_apart raw (by simpa using apart c hc hr)]
    exact h.1 c (kept c hc hr) hr
  · intro x hx
    by_cases hb : InSpan b.pc t.breakpointLen x
    · exact store_of_byteAt (by rw [byteAt_load, if_pos hb])
    · rw [store_of_not_inSpan (by simpa using hb)]
      apply h.2
      intro c hc hr
      rcases others c hc hr with rfl | hc
      · exact hb
      · exact hx c hc hr

theorem mem_assignNode {node : Nat} {f : Breakpoint → Breakpoint} {bps : List Breakpoint}
    {c : Breakpoint} : c ∈ assignNode node f bps ↔
      ∃ b ∈ bps, c = if b.node = node then f b else b := by
  simp [assignNode, eq_comm]

/-- What the invariant says about the places of the breakpoints is as true of others at the
same places. -/
theorem Shadows.moved (h : Shadows t mem s plain) {bps : List Breakpoint}
    (nodes : bps.map Breakpoint.node = s.breakpoints.map Breakpoint.node)
    (origin : ∀ c ∈ bps, ∃ b ∈ s.breakpoints, c.node = b.node ∧ c.pc = b.pc) (target : σ) :
    WellLinked { s with breakpoints := bps, target := target } ∧
      (∀ b ∈ bps, InRange b.pc t.breakpointLen) ∧
        ∀ b ∈ bps, ∀ c ∈ bps, b.node ≠ c.node →
          Apart b.pc t.breakpointLen c.pc t.breakpointLen := by
  refine ⟨⟨by rw [nodes]; exact h.linked.nodup, ?_⟩, ?_, ?_⟩
  · intro c hc
    obtain ⟨b, hb, hnode, _⟩ := origin c hc
    rw [hnode]
    exact h.linked.below b hb
  · intro c hc
    obtain ⟨b, hb, _, hpc⟩ := origin c hc
    rw [hpc]
    exact h.inRange b hb
  · intro c hc d hd hne
    obtain ⟨b, hb, hnode, hpc⟩ := origin c hc
    obtain ⟨e, he, hnode', hpc'⟩ := origin d hd
    rw [hpc, hpc']
    exact h.apart b hb e he (by rwa [hnode, hnode'] at hne)

theorem Shadows.assign (h : Shadows t mem s plain) (node : Nat) (flag : Bool) {target : σ}
    (traps : TrapsOnly t (assignNode node (fun b => { b with reinserting := flag })
      s.breakpoints) (mem target) plain) :
    Shadows t mem
      { s with
        breakpoints := assignNode node (fun b => { b with reinserting := flag }) s.breakpoints
        target := target } plain := by
  have origin : ∀ c ∈ assignNode node (fun b => { b with reinserting := flag }) s.breakpoints,
      ∃ b ∈ s.breakpoints, c.node = b.node ∧ c.pc = b.pc ∧ saved t c = saved t b := by
    intro c hc
    obtain ⟨b, hb, rfl⟩ := mem_assignNode.mp hc
    refine ⟨b, hb, ?_⟩
    split
    · exact ⟨rfl, rfl, rfl⟩
    · exact ⟨rfl, rfl, rfl⟩
  have nodes : (assignNode node (fun b => { b with reinserting := flag }) s.breakpoints).map
      Breakpoint.node = s.breakpoints.map Breakpoint.node := by
    rw [assignNode, List.map_map]
    apply List.map_congr_left
    intro b _
    simp only [Function.comp_apply]
    split <;> rfl
  have places : ∀ c ∈ assignNode node (fun b => { b with reinserting := flag }) s.breakpoints,
      ∃ b ∈ s.breakpoints, c.node = b.node ∧ c.pc = b.pc := by
    intro c hc
    obtain ⟨b, hb, hnode, hpc, _⟩ := origin c hc
    exact ⟨b, hb, hnode, hpc⟩
  obtain ⟨linked, inRange, apart⟩ := h.moved nodes places target
  refine ⟨linked, inRange, apart, ?_, traps⟩
  intro c hc
  obtain ⟨b, hb, _, hpc, hsaved⟩ := origin c hc
  rw [hsaved, hpc]
  exact h.savedPlain b hb

/-- A read that returns what is in memory, and changes nothing there. -/
structure ReadsAt (t : MemTarget σ) (mem : σ → Memory) (x : σ) (a : Int) (n : Nat) : Prop where
  read : (t.readMemory a n x).1 = load (mem x) a n
  read_mem : mem (t.readMemory a n x).2 = mem x

structure WritesAt (t : MemTarget σ) (mem : σ → Memory) (x : σ) (a : Int) (bs : List Byte) :
    Prop where
  write : (t.writeMemory a bs x).1 = 0
  write_mem : mem (t.writeMemory a bs x).2 = store (mem x) a bs

theorem Reliable.readsAt (rel : Reliable t mem) {a : Int} {n : Nat} (h : InRange a n) (x : σ) :
    ReadsAt t mem x a n :=
  ⟨rel.read a n x h, rel.read_mem a n x h⟩

theorem Reliable.writesAt (rel : Reliable t mem) {a : Int} {bs : List Byte}
    (h : InRange a bs.length) (x : σ) : WritesAt t mem x a bs :=
  ⟨rel.write a bs x h, rel.write_mem a bs x h⟩

theorem shadows_setBreakpointAt (h : Shadows t mem s plain)
    {addr : Int} (handler : Handler) (hrange : InRange addr t.breakpointLen)
    (reads : ReadsAt t mem s.target addr t.breakpointLen)
    (writes : WritesAt t mem (t.readMemory addr t.breakpointLen s.target).2 addr t.trap)
    (free : ∀ b ∈ s.breakpoints, Apart addr t.breakpointLen b.pc t.breakpointLen) :
    Shadows t mem (Proc.final ((setBreakpointAt t addr handler).run s)) plain := by
  cases hdata : t.breakpointData with
  | none => simpa [setBreakpointAt_null t s addr handler hdata] using h
  | some data =>
    rw [setBreakpointAt_run t s addr handler hdata, Proc.final_ok]
    have hmem : mem (t.writeMemory addr t.trap
        (t.readMemory addr t.breakpointLen s.target).2).2 =
          store (mem s.target) addr t.trap := by
      rw [writes.write_mem, reads.read_mem]
    have hsaved : saved t (newBreakpoint t s addr handler) =
        load plain addr t.breakpointLen := by
      rw [saved_newBreakpoint, reads.read, h.raw_load free]
    refine ⟨h.linked.insert (b := newBreakpoint t s addr handler) rfl rfl rfl,
      ?_, ?_, ?_, ?_, ?_⟩
    · intro b hb
      rcases List.mem_cons.mp hb with rfl | hb
      · exact hrange
      · exact h.inRange b hb
    · intro b hb c hc hne
      rcases List.mem_cons.mp hb with rfl | hb
      · rcases List.mem_cons.mp hc with rfl | hc
        · exact absurd rfl hne
        · exact free c hc
      · rcases List.mem_cons.mp hc with rfl | hc
        · exact (free b hb).symm
        · exact h.apart b hb c hc hne
    · intro b hb
      rcases List.mem_cons.mp hb with rfl | hb
      · exact hsaved
      · exact h.savedPlain b hb
    · intro b hb hr
      rw [hmem]
      rcases List.mem_cons.mp hb with rfl | hb
      · exact load_store_same _ _ _
      · rw [load_store_apart _ (free b hb).symm]
        exact h.traps.1 b hb hr
    · intro x hx
      have hnew : ¬ InSpan addr t.trap.length x := hx _ List.mem_cons_self rfl
      rw [hmem, store_of_not_inSpan hnew]
      exact h.traps.2 x fun b hb => hx b (List.mem_cons_of_mem _ hb)

theorem shadows_deleteBreakpointAt (h : Shadows t mem s plain) (addr : Int)
    (writes : ∀ b, findBreakpointAt addr s.breakpoints = some b →
      WritesAt t mem s.target b.pc (saved t b)) :
    Shadows t mem (Proc.final ((deleteBreakpointAt t addr).run s)) plain := by
  cases hfind : findBreakpointAt addr s.breakpoints with
  | none => simpa [deleteBreakpointAt_none t hfind] using h
  | some b =>
    obtain ⟨_, pre, post, hsplit, _⟩ := findBreakpointAt_eq_some hfind
    rw [deleteBreakpointAt_some t h.linked hsplit hfind, Proc.final_ok]
    have hb : b ∈ s.breakpoints := by simp [hsplit]
    have hsub : (pre ++ post).Sublist s.breakpoints := hsplit ▸ sublist_split pre post b
    have hrest : ∀ c ∈ pre ++ post, c ∈ s.breakpoints := fun c hc => hsub.subset hc
    have hne : ∀ c ∈ pre ++ post, c.node ≠ b.node := by
      obtain ⟨hpre, hpost⟩ := nodup_split (hsplit ▸ h.linked.nodup)
      intro c hc
      rcases List.mem_append.mp hc with hc | hc
      · exact hpre c hc
      · exact hpost c hc
    refine ⟨h.linked.sublist hsub rfl, ?_, ?_, ?_, ?_⟩
    · exact fun c hc => h.inRange c (hrest c hc)
    · exact fun c hc d hd => h.apart c (hrest c hc) d (hrest d hd)
    · exact fun c hc => h.savedPlain c (hrest c hc)
    · dsimp only
      rw [(writes b hfind).write_mem, h.savedPlain b hb]
      apply h.traps.restore
      · exact fun c hc _ => h.apart c (hrest c hc) b hb (hne c hc)
      · exact fun c hc _ => hrest c hc
      · intro c hc _
        rw [hsplit, List.mem_append, List.mem_cons] at hc
        rw [List.mem_append]
        tauto

theorem shadows_uninsertBreakpoint (rel : Reliable t mem) (h : Shadows t mem s plain)
    {addr : Int} (listed : ∃ b ∈ s.breakpoints, b.pc = addr) :
    Shadows t mem (Proc.final ((uninsertBreakpoint t addr).run s)) plain := by
  cases hfind : findBreakpointAt addr s.breakpoints with
  | none =>
    obtain ⟨b, hb, hpc⟩ := listed
    exact absurd hpc (findBreakpointAt_eq_none.mp hfind b hb)
  | some b =>
    obtain ⟨_, pre, post, hsplit, _⟩ := findBreakpointAt_eq_some hfind
    have hb : b ∈ s.breakpoints := by simp [hsplit]
    rw [uninsertBreakpoint_some t hfind, Proc.final_ok]
    apply h.assign
    rw [rel.write_mem _ _ _ (by simpa using h.inRange b hb), h.savedPlain b hb]
    have inserted : ∀ c ∈ assignNode b.node (fun b => { b with reinserting := true })
        s.breakpoints, c.reinserting = false → c ∈ s.breakpoints ∧ c.node ≠ b.node := by
      intro c hc hr
      obtain ⟨d, hd, rfl⟩ := mem_assignNode.mp hc
      by_cases hnode : d.node = b.node
      · simp [hnode] at hr
      · simpa [hnode] using hd
    apply h.traps.restore
    · intro c hc hr
      obtain ⟨hc, hne⟩ := inserted c hc hr
      exact h.apart c hc b hb hne
    · exact fun c hc hr => (inserted c hc hr).1
    · intro c hc hr
      by_cases hnode : c.node = b.node
      · exact Or.inl (eq_of_node_eq h.linked.nodup hc hb hnode)
      · exact Or.inr (mem_assignNode.mpr ⟨c, hc, by simp [hnode]⟩)

theorem shadows_reinsertBreakpoint (rel : Reliable t mem) (h : Shadows t mem s plain)
    {addr : Int} (listed : ∃ b ∈ s.breakpoints, b.pc = addr) :
    Shadows t mem (Proc.final ((reinsertBreakpoint t addr).run s)) plain := by
  cases hfind : findBreakpointAt addr s.breakpoints with
  | none =>
    obtain ⟨b, hb, hpc⟩ := listed
    exact absurd hpc (findBreakpointAt_eq_none.mp hfind b hb)
  | some b =>
    cases hr : b.reinserting with
    | false => simpa [reinsertBreakpoint_refused t hfind hr] using h
    | true =>
      obtain ⟨_, pre, post, hsplit, _⟩ := findBreakpointAt_eq_some hfind
      have hb : b ∈ s.breakpoints := by simp [hsplit]
      rw [reinsertBreakpoint_some t hfind hr, Proc.final_ok]
      apply h.assign
      rw [rel.write_mem _ _ _ (h.inRange b hb)]
      constructor
      · intro c hc hr
        obtain ⟨d, hd, rfl⟩ := mem_assignNode.mp hc
        by_cases hnode : d.node = b.node
        · have hdb := eq_of_node_eq h.linked.nodup hd hb hnode
          subst hdb
          simpa using load_store_same (mem s.target) d.pc t.trap
        · simp only [if_neg hnode] at hr ⊢
          rw [load_store_apart _ (h.apart d hd b hb hnode)]
          exact h.traps.1 d hd hr
      · intro x hx
        have hbx : ¬ InSpan b.pc t.trap.length x :=
          hx { b with reinserting := false }
            (mem_assignNode.mpr ⟨b, hb, by simp⟩) rfl
        rw [store_of_not_inSpan hbx]
        apply h.traps.2
        intro c hc hcr
        by_cases hnode : c.node = b.node
        · have hcb := eq_of_node_eq h.linked.nodup hc hb hnode
          subst hcb
          exact hbx
        · exact hx c (mem_assignNode.mpr ⟨c, hc, by simp [hnode]⟩) hcr

theorem shadows_readInferiorMemory (h : Shadows t mem s plain) {a : Int} {n : Nat}
    (reads : ReadsAt t mem s.target a n) (hn : n < 2 ^ 31) :
    Proc.value ((readInferiorMemory t a n).run s) = some (load plain a n) ∧
      Shadows t mem (Proc.final ((readInferiorMemory t a n).run s)) plain := by
  rw [readInferiorMemory_run, Proc.value_ok, Proc.final_ok, reads.read,
    checkMemRead_load t a s.breakpoints _ hn, h.clientView_eq]
  exact ⟨rfl, h.retarget reads.read_mem⟩

/-- Saved bytes follow a write, since no other breakpoint's trap reaches them. -/
theorem Shadows.saved_refreshed (h : Shadows t mem s plain) {a : Int} {data : List Byte}
    (hn : data.length < 2 ^ 31) {pre post : List Breakpoint} {b : Breakpoint}
    (hsplit : s.breakpoints = pre ++ b :: post) :
    saved t (refreshed t a (passTraps t a data pre) b) =
      load (store plain a data) b.pc t.breakpointLen := by
  have hb : b ∈ s.breakpoints := by simp [hsplit]
  have hpre := (nodup_split (hsplit ▸ h.linked.nodup)).1
  rw [MemBreak.saved_refreshed t a b (by simpa using hn), h.savedPlain b hb, overlay_load,
    load_eq_iff]
  intro x hx
  have hfree : ∀ c ∈ pre, c.reinserting = false → ¬ Covers t c x := by
    intro c hc _
    exact (h.apart c (by simp [hsplit, hc]) b hb (hpre c hc)).symm x hx
  simp [store, byteAt_passTraps, passing_of_uncovered t hfree]

theorem Shadows.mem_checkMemWrite (h : Shadows t mem s plain) {a : Int} {data : List Byte}
    (hn : data.length < 2 ^ 31) {c : Breakpoint}
    (hc : c ∈ (checkMemWrite t a data s.breakpoints).2) :
    ∃ b ∈ s.breakpoints, c.node = b.node ∧ c.pc = b.pc ∧ c.reinserting = b.reinserting ∧
      saved t c = load (store plain a data) b.pc t.breakpointLen := by
  obtain ⟨pre, b, post, hsplit, rfl⟩ := MemBreak.mem_checkMemWrite t hn hc
  exact ⟨b, by simp [hsplit], by simp, by simp, by simp, h.saved_refreshed hn hsplit⟩

theorem Shadows.load_passTraps (h : Shadows t mem s plain) (a : Int) (data : List Byte)
    {b : Breakpoint} (hb : b ∈ s.breakpoints) (planted : b.reinserting = false) :
    load (store (mem s.target) a (passTraps t a data s.breakpoints)) b.pc t.breakpointLen =
      t.trap := by
  obtain ⟨pre, post, hsplit⟩ := List.append_of_mem hb
  have hpost := (nodup_split (hsplit ▸ h.linked.nodup)).2
  have htrap := h.traps.1 b hb planted
  rw [← htrap, load_eq_iff]
  intro x hx
  have hv : byteAt b.pc t.trap x = some (mem s.target x) := by
    rw [← htrap, byteAt_load, if_pos hx]
  have hfree : ∀ d ∈ post, d.reinserting = false → ¬ Covers t d x := by
    intro d hd _
    exact (h.apart d (by simp [hsplit, hd]) b hb (hpost d hd)).symm x hx
  simp only [store, byteAt_passTraps, hsplit]
  cases byteAt a data x with
  | none => rfl
  | some d => exact passing_of_last t planted hv hfree d

/-- Where no trap is planted, a write stores what it is given. -/
theorem Shadows.store_passTraps (h : Shadows t mem s plain) (a : Int) (data : List Byte) {x : Int}
    (hfree : ∀ b ∈ s.breakpoints, b.reinserting = false → ¬ Covers t b x) :
    store (mem s.target) a (passTraps t a data s.breakpoints) x = store plain a data x := by
  simp only [store, byteAt_passTraps, h.traps.2 x hfree, passing_of_uncovered t hfree]
  simp

theorem shadows_writeInferiorMemory (h : Shadows t mem s plain) {a : Int} {data : List Byte}
    (writes : WritesAt t mem s.target a (checkMemWrite t a data s.breakpoints).1)
    (hn : data.length < 2 ^ 31) :
    Shadows t mem (Proc.final ((writeInferiorMemory t a data).run s)) (store plain a data) := by
  rw [checkMemWrite_fst t a s.breakpoints hn] at writes
  rw [writeInferiorMemory_run, Proc.final_ok, checkMemWrite_fst t a s.breakpoints hn]
  have hmem := writes.write_mem
  have image : ∀ b ∈ s.breakpoints, ∃ c ∈ (checkMemWrite t a data s.breakpoints).2,
      c.node = b.node := by
    intro b hb
    have hnode : b.node ∈ (checkMemWrite t a data s.breakpoints).2.map Breakpoint.node := by
      rw [checkMemWrite_nodes]
      exact List.mem_map_of_mem hb
    exact List.mem_map.mp hnode
  have places : ∀ c ∈ (checkMemWrite t a data s.breakpoints).2,
      ∃ b ∈ s.breakpoints, c.node = b.node ∧ c.pc = b.pc := by
    intro c hc
    obtain ⟨b, hb, hnode, hpc, _⟩ := h.mem_checkMemWrite hn hc
    exact ⟨b, hb, hnode, hpc⟩
  obtain ⟨linked, inRange, apart⟩ := h.moved (checkMemWrite_nodes t a data s.breakpoints) places
    (t.writeMemory a (passTraps t a data s.breakpoints) s.target).2
  refine ⟨linked, inRange, apart, ?_, ?_, ?_⟩
  · intro c hc
    obtain ⟨b, hb, _, hpc, _, hsaved⟩ := h.mem_checkMemWrite hn hc
    rw [hpc]
    exact hsaved
  · intro c hc hr
    obtain ⟨b, hb, _, hpc, hflag, _⟩ := h.mem_checkMemWrite hn hc
    rw [hpc, hmem]
    exact h.load_passTraps a data hb (hflag ▸ hr)
  · intro x hx
    have hfree : ∀ b ∈ s.breakpoints, b.reinserting = false → ¬ Covers t b x := by
      intro b hb hr
      obtain ⟨c, hc, hnode⟩ := image b hb
      obtain ⟨b', hb', hnode', hpc, hflag, _⟩ := h.mem_checkMemWrite hn hc
      have hbb := eq_of_node_eq h.linked.nodup hb' hb (hnode'.symm.trans hnode)
      subst hbb
      have hcov := hx c hc (hflag.trans hr)
      rwa [Covers, hpc] at hcov
    rw [hmem]
    exact h.store_passTraps a data hfree

/-- Each requested operation is matched by the same operation on the plain memory. -/
theorem memStep_refines (rel : Reliable t mem) (h : Shadows t mem s plain) {op : MemOp}
    (ok : Requested t s op) :
    (memStep t s op).1 = (plainStep plain op).1 ∧
      Shadows t mem (memStep t s op).2 (plainStep plain op).2 := by
  cases op with
  | setBreakpointAt addr handler =>
    exact ⟨rfl, shadows_setBreakpointAt h handler ok.1 (rel.readsAt ok.1 _)
      (rel.writesAt ok.1 _) ok.2⟩
  | deleteBreakpointAt addr =>
    refine ⟨rfl, shadows_deleteBreakpointAt h addr fun b hfind => rel.writesAt ?_ _⟩
    obtain ⟨_, pre, post, hsplit, _⟩ := findBreakpointAt_eq_some hfind
    simpa using h.inRange b (by simp [hsplit])
  | uninsertBreakpoint addr => exact ⟨rfl, shadows_uninsertBreakpoint rel h ok⟩
  | reinsertBreakpoint addr => exact ⟨rfl, shadows_reinsertBreakpoint rel h ok⟩
  | readInferiorMemory a n => exact shadows_readInferiorMemory h (rel.readsAt ok.1 _) ok.2
  | writeInferiorMemory a data =>
    refine ⟨rfl, shadows_writeInferiorMemory h (rel.writesAt ?_ _) ok.2⟩
    rw [checkMemWrite_fst t a s.breakpoints ok.2, passTraps_length]
    exact ok.1

theorem shadows_empty (empty : s.breakpoints = []) : Shadows t mem s (mem s.target) := by
  refine ⟨⟨?_, ?_⟩, ?_, ?_, ?_, ?_, ?_⟩ <;> simp [empty]

/-- From an empty list, every read of a run returns what the plain memory returns, and
after every step the target differs from it by the planted traps only. -/
theorem breakpoints_transparent (rel : Reliable t mem) (empty : s.breakpoints = [])
    {ops : List MemOp} (requested : AllowedRun (Requested t) (memStep t) s ops) :
    List.Forall₂
      (fun p q => p.1 = q.1 ∧ TrapsOnly t p.2.breakpoints (mem p.2.target) q.2)
      (trace (memStep t) s ops) (trace plainStep (mem s.target) ops) := by
  refine trace_forall₂ (R := Shadows t mem) (fun s plain op h ok => ?_) (shadows_empty empty)
    requested
  obtain ⟨hreply, hshadow⟩ := memStep_refines rel h ok
  exact ⟨⟨hreply, hshadow.traps⟩, hshadow⟩

/-- A write over two breakpoints, one of them half, and a step off the first one. -/
def patching : List MemOp :=
  [.setBreakpointAt 4096 .null, .setBreakpointAt 4100 .null,
    .writeInferiorMemory 4094 [1, 2, 3, 4, 5, 6, 7, 8], .readInferiorMemory 4094 8,
    .uninsertBreakpoint 4096, .reinsertBreakpoint 4096, .deleteBreakpointAt 4096]

theorem breakpoints_transparent_patching :
    List.Forall₂
      (fun p q => p.1 = q.1 ∧ TrapsOnly ppcRam p.2.breakpoints p.2.target q.2)
      (trace (memStep ppcRam) blankState patching)
      (trace plainStep blankState.target patching) :=
  breakpoints_transparent (ramTarget_reliable ppcTrap (by decide)) rfl (by decide)

end MemBreak
