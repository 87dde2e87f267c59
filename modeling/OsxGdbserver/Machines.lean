import OsxGdbserver.HandlerFrames
import Mathlib.Logic.Function.Basic

/-!
# The registers as the kernel keeps them

Each port stands for a thread with registers of its own. A state that the kernel gives out is
the thread's, one that it accepts becomes the thread's, and neither the memory calls nor
`kill` touch any of them.
-/

namespace Gdbserver

open Remote CString Ppc

variable {σ α β : Type} {k : Kernel σ} {machine : σ → Port → Machine}

/-- `machine` shows the registers of the threads. -/
structure ShowsRegisters (k : Kernel σ) (machine : σ → Port → Machine) : Prop where
  threadGot : ∀ port os state, (k.threadGetState port os).1 = some state →
    state = (machine os port).thread
  threadGet : ∀ port os, machine (k.threadGetState port os).2 = machine os
  floatGot : ∀ port os fstate, (k.floatGetState port os).1 = some fstate →
    fstate = (machine os port).float
  floatGet : ∀ port os, machine (k.floatGetState port os).2 = machine os
  threadSet : ∀ port state os, machine (k.threadSetState port state os).2 =
    if (k.threadSetState port state os).1 then
      Function.update (machine os) port { machine os port with thread := state }
    else machine os
  floatSet : ∀ port fstate os, machine (k.floatSetState port fstate os).2 =
    if (k.floatSetState port fstate os).1 then
      Function.update (machine os) port { machine os port with float := fstate }
    else machine os
  readD : ∀ pid addr os, machine (k.readD pid addr os).2 = machine os
  writeD : ∀ pid addr word os, machine (k.writeD pid addr word os).2 = machine os
  vmRead : ∀ task addr len os, machine (k.vmRead task addr len os).2 = machine os
  vmWrite : ∀ task addr bytes os, machine (k.vmWrite task addr bytes os).2 = machine os
  vmProtect : ∀ task addr len os, machine (k.vmProtect task addr len os).2 = machine os
  kill : ∀ pid sig os, machine (k.kill pid sig os).2 = machine os

/-- The register calls succeed. -/
structure Obliging (k : Kernel σ) : Prop where
  threadGet : ∀ port os, (k.threadGetState port os).1.isSome = true
  floatGet : ∀ port os, (k.floatGetState port os).1.isSome = true
  threadSet : ∀ port state os, (k.threadSetState port state os).1 = true
  floatSet : ∀ port fstate os, (k.floatSetState port fstate os).1 = true

/-- Both calls of a fetch that has got the float registers have succeeded. -/
theorem DarwinPpc.collect_fetchRegisters_float {port : Port} {registers : List Byte}
    {os os₁ os₂ : σ} {state : ThreadState} {fstate : FloatState}
    (read : k.threadGetState port os = (some state, os₁))
    (readFloat : k.floatGetState port os₁ = (some fstate, os₂))
    (hlen : registers.length = registerBytes) {name : RegName} (hname : name.isFloat = true) :
    collectByName name (DarwinPpc.fetchRegisters k port registers os).1 =
      ({ thread := state, float := fstate } : Machine).get name := by
  have hlen' : (supplyAll (threadSupplies state) registers).length = registerBytes := by
    rw [supplyAll_length, hlen]
  have hfloat := collect_floatSupplies { thread := state, float := fstate } hlen' name
  simp only [hname, if_true] at hfloat
  unfold DarwinPpc.fetchRegisters
  rw [read]
  dsimp only
  rw [readFloat]
  dsimp only
  exact hfloat

namespace ShowsRegisters

theorem fetchRegisters (h : ShowsRegisters k machine) (port : Port) (registers : List Byte)
    (os : σ) : machine (DarwinPpc.fetchRegisters k port registers os).2 = machine os := by
  have hthread := h.threadGet port os
  unfold DarwinPpc.fetchRegisters
  cases hcall : k.threadGetState port os with
  | mk got os₁ =>
    rw [hcall] at hthread
    cases got with
    | none => exact hthread
    | some state =>
      have hfloat := h.floatGet port os₁
      dsimp only
      cases hfloatCall : k.floatGetState port os₁ with
      | mk got os₂ =>
        rw [hfloatCall] at hfloat
        cases got with
        | none => exact hfloat.trans hthread
        | some fstate => exact hfloat.trans hthread

theorem filledOs (h : ShowsRegisters k machine) (os : σ) (t : ThreadInfo) :
    machine (Gdbserver.filledOs k os t) = machine os := by
  unfold Gdbserver.filledOs
  split
  · rfl
  · exact h.fetchRegisters t.port t.regcache.registers os

/-- A fetch brings the registers of the flavours it gets. -/
theorem collect_fetchRegisters (h : ShowsRegisters k machine) (port : Port)
    {registers : List Byte} (hlen : registers.length = registerBytes) (os : σ) (name : RegName) :
    collectByName name (DarwinPpc.fetchRegisters k port registers os).1 =
      if (DarwinPpc.fetched k port os).has name then (machine os port).get name
      else collectByName name registers := by
  cases hgot : (DarwinPpc.fetched k port os).has name with
  | false =>
    rw [if_neg Bool.false_ne_true]
    exact DarwinPpc.collect_fetchRegisters_of_not_got k hlen hgot
  | true =>
    rw [if_pos rfl]
    have hthread := h.threadGet port os
    have hthreadGot := h.threadGot port os
    unfold DarwinPpc.fetched at hgot
    cases hcall : k.threadGetState port os with
    | mk got os₁ =>
      rw [hcall] at hgot hthread hthreadGot
      cases got with
      | none => cases hname : name.isFloat <;> simp [DarwinPpc.Flavours.has, hname] at hgot
      | some state =>
        have hstate : state = (machine os port).thread := hthreadGot state rfl
        cases hname : name.isFloat with
        | false =>
          have hread : (k.threadGetState port os).1 = some state := by rw [hcall]
          rw [DarwinPpc.collect_fetchRegisters k hread hlen hname (machine os port).float, hstate]
        | true =>
          have hfloatGot := h.floatGot port os₁
          cases hfloatCall : k.floatGetState port os₁ with
          | mk got os₂ =>
            dsimp only at hgot
            rw [hfloatCall] at hgot hfloatGot
            cases got with
            | none => simp [DarwinPpc.Flavours.has, hname] at hgot
            | some fstate =>
              have hfstate : fstate = (machine os port).float := by
                rw [hfloatGot fstate rfl]
                exact congrArg (fun m => (m port).float) hthread
              rw [DarwinPpc.collect_fetchRegisters_float hcall hfloatCall hlen hname, hstate,
                hfstate]

/-- A state that is set becomes that of the one thread. -/
theorem updated {machines machines' : Port → Machine} {port : Port} {m : Machine} {set : Bool}
    (h : machines' = if set then Function.update machines port m else machines) :
    machines' port = (if set then m else machines port) ∧
      ∀ other, other ≠ port → machines' other = machines other := by
  subst h
  cases set with
  | false => exact ⟨rfl, fun _ _ => rfl⟩
  | true => exact ⟨Function.update_self .., fun other hne => Function.update_of_ne hne ..⟩

/-- The registers after the thread part of a store. -/
theorem get_setThread (m : Machine) {registers : List Byte}
    (hlen : registers.length = registerBytes) (set : Bool) (name : RegName) :
    (if set then { m with thread := collectThread registers m.thread } else m).get name =
      if name.isFloat = false ∧ set = true then collectByName name registers else m.get name := by
  have hget := get_collectThread m hlen name
  cases set with
  | false => simp
  | true =>
    rw [if_pos rfl, hget]
    cases name.isFloat <;> simp

theorem get_setFloat (m : Machine) {registers : List Byte}
    (hlen : registers.length = registerBytes) (set : Bool) (name : RegName) :
    (if set then { m with float := collectFloat registers m.float } else m).get name =
      if name.isFloat = true ∧ set = true then collectByName name registers else m.get name := by
  have hget := get_collectFloat m hlen name
  cases set with
  | false => simp
  | true =>
    rw [if_pos rfl, hget]
    cases name.isFloat <;> simp

/-- The thread part of a store that has got the thread's state. -/
theorem putThread (h : ShowsRegisters k machine) {port : Port} {registers : List Byte}
    {os os₁ os₂ : σ} {state : ThreadState} {set : Bool}
    (got : k.threadGetState port os = (some state, os₁))
    (put : k.threadSetState port (collectThread registers state) os₁ = (set, os₂)) :
    machine os₂ port =
        (if set then
          { machine os port with thread := collectThread registers (machine os port).thread }
        else machine os port) ∧
      ∀ other, other ≠ port → machine os₂ other = machine os other := by
  have hget := h.threadGet port os
  have hgot := h.threadGot port os state (by rw [got])
  have hset := h.threadSet port (collectThread registers state) os₁
  rw [got] at hget
  rw [put] at hset
  dsimp only at hget hset
  rw [hget, hgot] at hset
  exact updated hset

/-- The float part. -/
theorem putFloat (h : ShowsRegisters k machine) {port : Port} {registers : List Byte}
    {os os₁ os₂ : σ} {fstate : FloatState} {set : Bool}
    (got : k.floatGetState port os = (some fstate, os₁))
    (put : k.floatSetState port (collectFloat registers fstate) os₁ = (set, os₂)) :
    machine os₂ port =
        (if set then
          { machine os port with float := collectFloat registers (machine os port).float }
        else machine os port) ∧
      ∀ other, other ≠ port → machine os₂ other = machine os other := by
  have hget := h.floatGet port os
  have hgot := h.floatGot port os fstate (by rw [got])
  have hset := h.floatSet port (collectFloat registers fstate) os₁
  rw [got] at hget
  rw [put] at hset
  dsimp only at hget hset
  rw [hget, hgot] at hset
  exact updated hset

/-- A store sets the registers of the flavours that are accepted, and leaves the other threads
alone. -/
theorem storeRegisters (h : ShowsRegisters k machine) (port : Port) {registers : List Byte}
    (hlen : registers.length = registerBytes) (os : σ) :
    (∀ name, (machine (DarwinPpc.storeRegisters k port registers os) port).get name =
      if (DarwinPpc.stored k port registers os).has name then collectByName name registers
      else (machine os port).get name) ∧
    ∀ other, other ≠ port →
      machine (DarwinPpc.storeRegisters k port registers os) other = machine os other := by
  have hhas : ∀ (thread float : Bool) (name : RegName),
      ({ thread := thread, float := float } : DarwinPpc.Flavours).has name =
        if name.isFloat then float else thread := fun _ _ _ => rfl
  rcases hget : k.threadGetState port os with ⟨_ | state, os₁⟩
  · have hos : DarwinPpc.storeRegisters k port registers os = os₁ := by
      simp only [DarwinPpc.storeRegisters, hget]
    have hstored : DarwinPpc.stored k port registers os = { thread := false, float := false } := by
      simp only [DarwinPpc.stored, hget]
    have hkept : machine os₁ = machine os := by
      have hthread := h.threadGet port os
      rwa [hget] at hthread
    rw [hos, hstored, hkept]
    exact ⟨by simp [hhas], fun _ _ => rfl⟩
  · rcases hset : k.threadSetState port (collectThread registers state) os₁ with ⟨set, os₂⟩
    obtain ⟨hport, hother⟩ := h.putThread hget hset
    rcases hfloatGet : k.floatGetState port os₂ with ⟨_ | fstate, os₃⟩
    · have hos : DarwinPpc.storeRegisters k port registers os = os₃ := by
        simp only [DarwinPpc.storeRegisters, hget, hset, hfloatGet]
      have hstored : DarwinPpc.stored k port registers os = { thread := set, float := false } := by
        simp only [DarwinPpc.stored, hget, hset, hfloatGet]
      have hkept : machine os₃ = machine os₂ := by
        have hfloat := h.floatGet port os₂
        rwa [hfloatGet] at hfloat
      rw [hos, hstored, hkept]
      refine ⟨fun name => ?_, hother⟩
      rw [hport, get_setThread _ hlen, hhas]
      cases name.isFloat <;> simp
    · rcases hfloatSet : k.floatSetState port (collectFloat registers fstate) os₃
        with ⟨fset, os₄⟩
      obtain ⟨hport', hother'⟩ := h.putFloat hfloatGet hfloatSet
      have hos : DarwinPpc.storeRegisters k port registers os = os₄ := by
        simp only [DarwinPpc.storeRegisters, hget, hset, hfloatGet, hfloatSet]
      have hstored : DarwinPpc.stored k port registers os = { thread := set, float := fset } := by
        simp only [DarwinPpc.stored, hget, hset, hfloatGet, hfloatSet]
      rw [hos, hstored]
      constructor
      · intro name
        rw [hport', get_setFloat _ hlen, hport, get_setThread _ hlen, hhas]
        cases name.isFloat <;> simp
      · intro other hne
        exact (hother' other hne).trans (hother other hne)

end ShowsRegisters

namespace ShowsRegisters

/-- `mem-break.c` reaches the memory and nothing else. -/
theorem spares (h : ShowsRegisters k machine) :
    MemBreak.Spares (Darwin.memTarget k) fun x => machine x.os where
  read := Darwin.readMemory_keeps h.vmRead h.readD
  write memaddr bytes x := by
    change machine (Darwin.writeMemory k memaddr bytes x).2.os = machine x.os
    cases htask : x.task with
    | none => simp [Darwin.writeMemory, htask]
    | some task =>
      rw [Darwin.writeMemory_keeps_of_machWrite h.readD h.writeD htask]
      exact Darwin.machWrite_keeps h.vmWrite h.vmProtect _ _ _ _

end ShowsRegisters

namespace Obliging

theorem fetched (h : Obliging k) (port : Port) (os : σ) (name : RegName) :
    (DarwinPpc.fetched k port os).has name = true := by
  obtain ⟨state, hthread⟩ := Option.isSome_iff_exists.mp (h.threadGet port os)
  have hcall : k.threadGetState port os = (some state, (k.threadGetState port os).2) :=
    Prod.ext hthread rfl
  have hfloat := h.floatGet port (k.threadGetState port os).2
  rw [DarwinPpc.fetched, hcall]
  simp [DarwinPpc.Flavours.has, hfloat]

theorem stored (h : Obliging k) (port : Port) (registers : List Byte) (os : σ) (name : RegName) :
    (DarwinPpc.stored k port registers os).has name = true := by
  obtain ⟨state, hthread⟩ := Option.isSome_iff_exists.mp (h.threadGet port os)
  rcases hcall : k.threadGetState port os with ⟨got, os₁⟩
  rw [hcall] at hthread
  dsimp only at hthread
  subst hthread
  have hset := h.threadSet port (collectThread registers state) os₁
  rcases hsetCall : k.threadSetState port (collectThread registers state) os₁ with ⟨set, os₂⟩
  rw [hsetCall] at hset
  dsimp only at hset
  subst hset
  obtain ⟨fstate, hfloat⟩ := Option.isSome_iff_exists.mp (h.floatGet port os₂)
  rcases hfloatCall : k.floatGetState port os₂ with ⟨got, os₃⟩
  rw [hfloatCall] at hfloat
  dsimp only at hfloat
  subst hfloat
  have hfloatSet := h.floatSet port (collectFloat registers fstate) os₃
  simp [DarwinPpc.stored, DarwinPpc.Flavours.has, hcall, hsetCall, hfloatCall, hfloatSet]

end Obliging

end Gdbserver
