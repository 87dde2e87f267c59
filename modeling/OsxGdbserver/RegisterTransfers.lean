import OsxGdbserver.Detaching

/-!
# Fetching and storing are inverse

Where the calls succeed, the 71 registers of the cache and the fields of the two Mach
structures that have one carry the same bytes. What `reg-ppc.c` has no name for, `mq`,
`vrsave` and the word before `fpscr`, is given back as it was got.
-/

namespace Ppc

open Overlay

theorem collectField_eq_self {n : Nat} {name : RegName} {registers : List Byte}
    {field : Vector Byte n} (h : collectByName name registers = field.toList) :
    collectField name registers field = field := by
  apply Vector.toList_inj.mp
  rw [collectField, h]
  exact copyIn_all field (Vector.length_toList)

/-- The machine after both parts of a store. -/
def Machine.withRegisters (m : Machine) (registers : List Byte) : Machine where
  thread := collectThread registers m.thread
  float := collectFloat registers m.float

/-- The fields that are in no table entry. -/
theorem Machine.withRegisters_spare (m : Machine) (registers : List Byte) :
    (m.withRegisters registers).thread.mq = m.thread.mq ∧
      (m.withRegisters registers).thread.vrsave = m.thread.vrsave ∧
      (m.withRegisters registers).float.fpscrPad = m.float.fpscrPad := by
  simp [withRegisters, collectThread, collectFloat]

/-- A machine that holds what the cache holds is not changed by it in any field. -/
theorem Machine.withRegisters_eq_self {m : Machine} {registers : List Byte}
    (h : ∀ name, collectByName name registers = m.get name) : m.withRegisters registers = m := by
  have hr : (Vector.ofFn fun i => collectField (.r i) registers m.thread.r[i]) = m.thread.r := by
    apply Vector.ext
    intro i hi
    rw [Vector.getElem_ofFn]
    exact collectField_eq_self (h (.r ⟨i, hi⟩))
  have hf : (Vector.ofFn fun i => collectField (.f i) registers m.float.fpregs[i]) =
      m.float.fpregs := by
    apply Vector.ext
    intro i hi
    rw [Vector.getElem_ofFn]
    exact collectField_eq_self (h (.f ⟨i, hi⟩))
  have hthread : collectThread registers m.thread = m.thread := by
    rw [collectThread, hr, collectField_eq_self (h .pc), collectField_eq_self (h .ps),
      collectField_eq_self (h .cr), collectField_eq_self (h .lr), collectField_eq_self (h .ctr),
      collectField_eq_self (h .xer)]
  have hfloat : collectFloat registers m.float = m.float := by
    rw [collectFloat, hf, collectField_eq_self (h .fpscr)]
  rw [withRegisters, hthread, hfloat]

theorem Machine.get_withRegisters (m : Machine) {registers : List Byte}
    (hlen : registers.length = registerBytes) (name : RegName) :
    (m.withRegisters registers).get name = collectByName name registers := by
  have hthread := get_collectThread m hlen name
  have hfloat := get_collectFloat { m with thread := collectThread registers m.thread } hlen name
  rw [withRegisters]
  cases hname : name.isFloat with
  | true => simpa [hname] using hfloat
  | false => simpa [hname, hthread] using hfloat

/-- A cache is what its registers are. -/
theorem registers_ext {registers registers' : List Byte}
    (hlen : registers.length = registerBytes) (hlen' : registers'.length = registerBytes)
    (h : ∀ name, collectByName name registers = collectByName name registers') :
    registers = registers' := by
  have hall := fun regs => Regcache.flatMap_registerData byteSized (Nat.dvd_zero 8) regs
  have htotal : Regcache.totalBits regsPpc / 8 = registerBytes := rfl
  have hcover : ∀ regs : List Byte, regs.length = registerBytes →
      (Regcache.layout 0 regsPpc).flatMap (fun r => Regcache.registerData r regs) = regs := by
    intro regs hregs
    rw [hall, htotal, Nat.zero_div, List.drop_zero, ← hregs, List.take_length]
  rw [← hcover registers hlen, ← hcover registers' hlen']
  apply List.flatMap_congr
  intro r hr
  have hname := h r.name
  rwa [collectByName, collectByName, named_of_mem hr] at hname

end Ppc

namespace Gdbserver

open Ppc

variable {σ : Type} {k : Kernel σ} {machine : σ → Port → Machine}

namespace ShowsRegisters

/-- Where the calls succeed, a fetch brings all registers of the thread. -/
theorem collect_fetched (h : ShowsRegisters k machine) (obliging : Obliging k) (port : Port)
    {registers : List Byte} (hlen : registers.length = registerBytes) (os : σ) (name : RegName) :
    collectByName name (DarwinPpc.fetchRegisters k port registers os).1 =
      (machine os port).get name := by
  rw [h.collect_fetchRegisters port hlen os name, if_pos (obliging.fetched port os name)]

/-- Where the calls succeed, a store replaces both structures. -/
theorem machine_stored (h : ShowsRegisters k machine) (obliging : Obliging k) (port : Port)
    (registers : List Byte) (os : σ) :
    machine (DarwinPpc.storeRegisters k port registers os) =
      Function.update (machine os) port ((machine os port).withRegisters registers) := by
  obtain ⟨state, hstate⟩ := Option.isSome_iff_exists.mp (obliging.threadGet port os)
  obtain rfl := h.threadGot port os state hstate
  have hgot := h.threadGet port os
  rcases hcall : k.threadGetState port os with ⟨got, os₁⟩
  rw [hcall] at hstate hgot
  obtain rfl : got = some (machine os port).thread := hstate
  -- the thread part is set, and the float part is got from what that left
  have hset := h.threadSet port (collectThread registers (machine os port).thread) os₁
  rw [if_pos (obliging.threadSet _ _ _), hgot] at hset
  rcases hsetCall : k.threadSetState port
    (collectThread registers (machine os port).thread) os₁ with ⟨set, os₂⟩
  rw [hsetCall] at hset
  obtain ⟨fstate, hfstate⟩ := Option.isSome_iff_exists.mp (obliging.floatGet port os₂)
  obtain rfl := h.floatGot port os₂ fstate hfstate
  have hfloatGot := h.floatGet port os₂
  rcases hfloatCall : k.floatGetState port os₂ with ⟨got, os₃⟩
  rw [hfloatCall] at hfstate hfloatGot
  obtain rfl : got = some (machine os₂ port).float := hfstate
  have hfloatSet := h.floatSet port (collectFloat registers (machine os₂ port).float) os₃
  rw [if_pos (obliging.floatSet _ _ _), hfloatGot, hset] at hfloatSet
  have hrun : DarwinPpc.storeRegisters k port registers os =
      (k.floatSetState port (collectFloat registers (machine os₂ port).float) os₃).2 := by
    simp only [DarwinPpc.storeRegisters, hcall, hsetCall, hfloatCall]
  rw [hrun, hset]
  rw [hfloatSet, Function.update_idem, Function.update_self]
  rfl

theorem stored_fetched (h : ShowsRegisters k machine) (obliging : Obliging k) (port : Port)
    {registers : List Byte} (hlen : registers.length = registerBytes) (os : σ) :
    let fetched := DarwinPpc.fetchRegisters k port registers os
    machine (DarwinPpc.storeRegisters k port fetched.1 fetched.2) = machine os := by
  intro fetched
  have hos : machine fetched.2 = machine os := h.fetchRegisters port registers os
  rw [h.machine_stored obliging, hos, Machine.withRegisters_eq_self]
  · exact Function.update_eq_self port (machine os)
  · exact h.collect_fetched obliging port hlen os

theorem fetched_stored (h : ShowsRegisters k machine) (obliging : Obliging k) (port : Port)
    {registers registers' : List Byte} (hlen : registers.length = registerBytes)
    (hlen' : registers'.length = registerBytes) (os : σ) (name : RegName) :
    collectByName name (DarwinPpc.fetchRegisters k port registers'
      (DarwinPpc.storeRegisters k port registers os)).1 = collectByName name registers := by
  rw [h.collect_fetched obliging port hlen', h.machine_stored obliging, Function.update_self]
  exact Machine.get_withRegisters _ hlen name

end ShowsRegisters

/-- Fetching and storing back changes no field of any thread. Storing and fetching again, into
whatever cache, brings back all 71 registers and so the whole cache, and the fields that have
no register keep their values. -/
theorem fetch_store_inverse (h : ShowsRegisters k machine) (obliging : Obliging k) (port : Port)
    (os : σ) :
    (∀ registers : List Byte, registers.length = registerBytes →
      let fetched := DarwinPpc.fetchRegisters k port registers os
      machine (DarwinPpc.storeRegisters k port fetched.1 fetched.2) = machine os) ∧
      ∀ registers registers' : List Byte, registers.length = registerBytes →
        registers'.length = registerBytes →
        let stored := DarwinPpc.storeRegisters k port registers os
        let fetched := (DarwinPpc.fetchRegisters k port registers' stored).1
        (∀ name, collectByName name fetched = collectByName name registers) ∧
          fetched = registers ∧
          (machine stored port).thread.mq = (machine os port).thread.mq ∧
          (machine stored port).thread.vrsave = (machine os port).thread.vrsave ∧
          (machine stored port).float.fpscrPad = (machine os port).float.fpscrPad := by
  refine ⟨fun registers hlen => h.stored_fetched obliging port hlen os, ?_⟩
  intro registers registers' hlen hlen' stored fetched
  have hnames : ∀ name, collectByName name fetched = collectByName name registers :=
    h.fetched_stored obliging port hlen hlen' os
  have hfetched : fetched.length = registerBytes :=
    (DarwinPpc.fetchRegisters_length k port registers' stored).trans hlen'
  have hmachine : machine stored port = (machine os port).withRegisters registers := by
    rw [h.machine_stored obliging, Function.update_self]
  rw [hmachine]
  exact ⟨hnames, registers_ext hfetched hlen hnames,
    Machine.withRegisters_spare (machine os port) registers⟩

/-- A cache full of ones, and a thread whose registers are zero. -/
theorem fetch_store_inverse_ones :
    let os : (Port → Machine) × MemBreak.Memory := (fun _ => blankMachine, fun _ => 0)
    let ones := List.replicate registerBytes 1
    let stored := DarwinPpc.storeRegisters obligingMachine 1 ones os
    (DarwinPpc.fetchRegisters obligingMachine 1 ones stored).1 = ones ∧
      (stored.1 1).thread.mq = blankMachine.thread.mq := by
  intro os ones stored
  have hlen : ones.length = registerBytes := List.length_replicate
  have h := (fetch_store_inverse obligingMachine_showsRegisters obligingMachine_obliging 1 os).2
    ones ones hlen hlen
  exact ⟨h.2.1, h.2.2.1⟩

end Gdbserver
