import OsxGdbserver.Kernel
import OsxGdbserver.Lib.WrappedMemory

/-!
# Memory access word by word

Where `vm_read` or `vm_write` fails, `darwin-low.c` goes on with `ptrace`, which knows
words of four bytes only. The last word may reach beyond the range; a write then puts
back what it has read there.
-/

namespace Gdbserver

namespace Darwin

open Overlay Ppc WrappedMemory

variable {σ : Type} {k : Kernel σ} {task : Port} {pid : Int}

/-- The memory of a task, of 32-bit addresses. -/
abbrev AddressSpace := BitVec 32 → Byte

/-- The calls that copy the memory `mem` of one task, which is that of process `pid`. Those
of Mach copy whole ranges, those of `ptrace` the four bytes at an address. -/
structure CopiesMemory (k : Kernel σ) (task : Port) (pid : Int) (mem : σ → AddressSpace) :
    Prop where
  vmRead : ∀ addr n os bs, (k.vmRead task addr n os).1 = some bs →
    bs = loadRange (mem os) (BitVec.ofNat 32 addr) n
  vmRead_mem : ∀ addr n os, mem (k.vmRead task addr n os).2 = mem os
  vmWrite : ∀ addr bs os, (k.vmWrite task addr bs os).1 = true →
    mem (k.vmWrite task addr bs os).2 = storeRange (mem os) (BitVec.ofNat 32 addr) bs
  vmWrite_failed : ∀ addr bs os, (k.vmWrite task addr bs os).1 = false →
    mem (k.vmWrite task addr bs os).2 = mem os
  vmProtect_mem : ∀ addr n os, mem (k.vmProtect task addr n os).2 = mem os
  readD : ∀ addr os w, (k.readD pid addr os).1 = .ok w →
    w.toList = loadRange (mem os) (BitVec.ofNat 32 addr) 4
  readD_mem : ∀ addr os, mem (k.readD pid addr os).2 = mem os
  writeD : ∀ addr (w : Word) os, (k.writeD pid addr w os).1 = 0 →
    mem (k.writeD pid addr w os).2 = storeRange (mem os) (BitVec.ofNat 32 addr) w.toList

variable (k pid) in
def readsSucceed : Nat → Int → σ → Bool
  | 0, _, _ => true
  | words + 1, memaddr, os =>
    let (word, os) := k.readD pid (vmAddress memaddr) os
    word.isOk && readsSucceed words (memaddr + 4) os

variable (k pid) in
def writesSucceed : Nat → Int → List Byte → σ → Bool
  | 0, _, _, _ => true
  | words + 1, memaddr, bytes, os =>
    let (old, os) :=
      if bytes.length < 4 then k.readD pid (vmAddress memaddr) os
      else (.ok (Vector.replicate 4 0), os)
    match old with
    | .error _ => false
    | .ok old =>
      let (errno, os) := k.writeD pid (vmAddress memaddr) (copyIn old 0 (bytes.take 4)) os
      errno == 0 && writesSucceed words (memaddr + 4) (bytes.drop 4) os

@[simp] theorem ofNat_vmAddress (memaddr : Int) :
    BitVec.ofNat 32 (vmAddress memaddr) = BitVec.ofInt 32 memaddr := by
  apply BitVec.eq_of_toNat_eq
  rw [BitVec.toNat_ofNat, BitVec.toNat_ofInt, vmAddress]
  omega

theorem ofInt_next (memaddr : Int) :
    BitVec.ofInt 32 (memaddr + 4) = BitVec.ofInt 32 memaddr + BitVec.ofNat 32 4 := by
  rw [BitVec.ofInt_add]
  rfl

variable {mem : σ → AddressSpace}

theorem ptraceRead_copies (copies : CopiesMemory k task pid mem) {words : Nat} {memaddr : Int}
    {len : Nat} {os : σ} (enough : len ≤ 4 * words)
    (succeed : readsSucceed k pid words memaddr os = true) :
    (ptraceRead k pid words memaddr len os).1 =
      loadRange (mem os) (BitVec.ofInt 32 memaddr) len := by
  induction words generalizing memaddr len os with
  | zero =>
    obtain rfl : len = 0 := by omega
    rfl
  | succ words ih =>
    have hword := copies.readD (vmAddress memaddr) os
    have hmem := copies.readD_mem (vmAddress memaddr) os
    rcases hread : k.readD pid (vmAddress memaddr) os with ⟨_ | w, os₁⟩
    · simp [readsSucceed, hread, Except.isOk, Except.toBool] at succeed
    · rw [hread] at hword hmem
      rw [ofNat_vmAddress] at hword
      simp only [readsSucceed, hread, Bool.and_eq_true] at succeed
      have hrest := ih (show len - min len 4 ≤ 4 * words by omega) succeed.2
      simp only [ptraceRead, hread]
      rw [hrest, hmem, ofInt_next, hword w rfl, take_loadRange _ _ (Nat.min_le_right len 4)]
      rcases Nat.lt_or_ge len 4 with hshort | hlong
      · simp [Nat.min_eq_left hshort.le, loadRange]
      · rw [Nat.min_eq_right hlong, ← loadRange_add, Nat.add_sub_of_le hlong]

/-- A word as `darwin_write_memory` makes it up: the bytes of the range, and behind them
those of the word they were copied into. -/
theorem copyIn_word (old : Word) (bytes : List Byte) :
    (copyIn old 0 (bytes.take 4)).toList =
      bytes.take 4 ++ old.toList.drop (bytes.take 4).length := by
  have hfits : (bytes.take 4).length ≤ old.toList.length := by
    rw [Vector.length_toList]
    exact List.length_take_le 4 bytes
  exact memcpy_zero hfits

/-- The word that is written stores the bytes of the range and no other ones. -/
theorem stored_word (copies : CopiesMemory k task pid mem) (memaddr : Int)
    (bytes : List Byte) {old : Word} {os os₁ : σ}
    (hold : (if bytes.length < 4 then k.readD pid (vmAddress memaddr) os
      else (.ok (Vector.replicate 4 0), os)) = (.ok old, os₁)) :
    mem os₁ = mem os ∧
      storeRange (mem os) (BitVec.ofInt 32 memaddr) (copyIn old 0 (bytes.take 4)).toList =
        storeRange (mem os) (BitVec.ofInt 32 memaddr) (bytes.take 4) := by
  have hword := copies.readD (vmAddress memaddr) os old
  have hmem := copies.readD_mem (vmAddress memaddr) os
  rw [copyIn_word]
  split at hold
  · rename_i short
    rw [hold, ofNat_vmAddress] at hword
    rw [hold] at hmem
    have hlen : (bytes.take 4).length ≤ 4 := List.length_take_le 4 bytes
    have htail := drop_loadRange (mem os) (BitVec.ofInt 32 memaddr) (bytes.take 4).length
      (4 - (bytes.take 4).length)
    rw [Nat.add_sub_of_le hlen] at htail
    rw [hword rfl, htail]
    exact ⟨hmem, storeRange_append_loadRange (mem os)⟩
  · rename_i long
    obtain ⟨_, rfl⟩ := Prod.mk.inj hold
    have hlen : (bytes.take 4).length = 4 := by
      rw [List.length_take]
      omega
    rw [hlen, List.drop_of_length_le (by rw [Vector.length_toList]), List.append_nil]
    exact ⟨rfl, rfl⟩

theorem ptraceWrite_copies (copies : CopiesMemory k task pid mem) {words : Nat} {memaddr : Int}
    {bytes : List Byte} {os : σ} (enough : bytes.length ≤ 4 * words)
    (fits : bytes.length ≤ 2 ^ 32)
    (succeed : writesSucceed k pid words memaddr bytes os = true) :
    (ptraceWrite k pid words memaddr bytes os).1 = 0 ∧
      mem (ptraceWrite k pid words memaddr bytes os).2 =
        storeRange (mem os) (BitVec.ofInt 32 memaddr) bytes := by
  induction words generalizing memaddr bytes os with
  | zero =>
    obtain rfl : bytes = [] := List.eq_nil_of_length_eq_zero (by omega)
    exact ⟨rfl, rfl⟩
  | succ words ih =>
    rcases hold : (if bytes.length < 4 then k.readD pid (vmAddress memaddr) os
      else (.ok (Vector.replicate 4 0), os)) with ⟨_ | old, os₁⟩
    · simp [writesSucceed, hold] at succeed
    · obtain ⟨hmem, hstored⟩ := stored_word copies memaddr bytes hold
      have hwrite := copies.writeD (vmAddress memaddr) (copyIn old 0 (bytes.take 4)) os₁
      rcases hcall : k.writeD pid (vmAddress memaddr) (copyIn old 0 (bytes.take 4)) os₁ with
        ⟨errno, os₂⟩
      simp only [writesSucceed, hold, hcall, Bool.and_eq_true, beq_iff_eq] at succeed
      obtain ⟨rfl, hrest⟩ := succeed
      rw [hcall, hmem, ofNat_vmAddress, hstored] at hwrite
      have hlen : (bytes.drop 4).length = bytes.length - 4 := List.length_drop
      obtain ⟨hzero, hstore⟩ := ih (show (bytes.drop 4).length ≤ 4 * words by omega)
        (by omega) hrest
      have hrun : ptraceWrite k pid (words + 1) memaddr bytes os =
          ptraceWrite k pid words (memaddr + 4) (bytes.drop 4) os₂ := by
        simp [ptraceWrite, hold, hcall]
      rw [hrun]
      refine ⟨hzero, ?_⟩
      rw [hstore, hwrite rfl, ofInt_next]
      rcases Nat.lt_or_ge bytes.length 4 with hshort | hlong
      · rw [List.drop_of_length_le hshort.le, List.take_of_length_le hshort.le, storeRange_nil]
      · have htake : (bytes.take 4).length = 4 := by
          rw [List.length_take]
          omega
        have happend := storeRange_append (mem os) (a := BitVec.ofInt 32 memaddr)
          (show (bytes.take 4).length + (bytes.drop 4).length ≤ 2 ^ 32 by omega)
        rwa [htake, List.take_append_drop] at happend

theorem machWrite_copies (copies : CopiesMemory k task pid mem) (addr : Nat)
    (bytes : List Byte) (os : σ) :
    mem (machWrite k task addr bytes os).2 =
      if (machWrite k task addr bytes os).1 then
        storeRange (mem os) (BitVec.ofNat 32 addr) bytes
      else mem os := by
  refine machWrite_puts (fun m => storeRange m (BitVec.ofNat 32 addr) bytes) ?_
    (copies.vmProtect_mem addr bytes.length) os
  intro os
  split
  · rename_i written
    exact copies.vmWrite addr bytes os written
  · rename_i refused
    exact copies.vmWrite_failed addr bytes os (Bool.eq_false_iff.mpr refused)

variable (k task) in
def ReadsByWords (memaddr : Int) (len : Nat) (x : TargetState σ) : Prop :=
  (k.vmRead task (vmAddress memaddr) len x.os).1 = none ∧
    readsSucceed k x.pid ((len + 3) / 4) memaddr
      (k.vmRead task (vmAddress memaddr) len x.os).2 = true

variable (k task) in
def WritesByWords (memaddr : Int) (bytes : List Byte) (x : TargetState σ) : Prop :=
  (machWrite k task (vmAddress memaddr) bytes x.os).1 = false ∧
    writesSucceed k x.pid ((bytes.length + 3) / 4) memaddr bytes
      (machWrite k task (vmAddress memaddr) bytes x.os).2 = true

/-- Word by word the bytes are those that `vm_read` gives of the same memory. -/
theorem readMemory_by_words (copies : CopiesMemory k task pid mem) {x : TargetState σ}
    (htask : x.task = some task) (hpid : x.pid = pid) {memaddr : Int} {len : Nat}
    (byWords : ReadsByWords k task memaddr len x) :
    (readMemory k memaddr len x).1 =
      loadRange (mem x.os) (BitVec.ofInt 32 memaddr) len := by
  obtain ⟨hfailed, hsucceed⟩ := byWords
  have hmem := copies.vmRead_mem (vmAddress memaddr) len x.os
  rcases hcall : k.vmRead task (vmAddress memaddr) len x.os with ⟨data, os₁⟩
  rw [hcall] at hfailed hsucceed hmem
  obtain rfl : data = none := hfailed
  have hwords := ptraceRead_copies copies (show len ≤ 4 * ((len + 3) / 4) by omega)
    (hpid ▸ hsucceed)
  rw [hmem] at hwords
  simp [readMemory, htask, hcall, hpid, hwords]

/-- Word by word the memory becomes what `vm_write` makes of it. -/
theorem writeMemory_by_words (copies : CopiesMemory k task pid mem) {x : TargetState σ}
    (htask : x.task = some task) (hpid : x.pid = pid) {memaddr : Int} {bytes : List Byte}
    (hlen : bytes.length < 2 ^ 31) (byWords : WritesByWords k task memaddr bytes x) :
    (writeMemory k memaddr bytes x).1 = 0 ∧
      mem (writeMemory k memaddr bytes x).2.os =
        storeRange (mem x.os) (BitVec.ofInt 32 memaddr) bytes := by
  obtain ⟨hfailed, hsucceed⟩ := byWords
  have hmem := machWrite_copies copies (vmAddress memaddr) bytes x.os
  rcases hmach : machWrite k task (vmAddress memaddr) bytes x.os with ⟨written, os₁⟩
  rw [hmach] at hfailed hsucceed hmem
  obtain rfl : written = false := hfailed
  rw [if_neg Bool.false_ne_true] at hmem
  obtain ⟨hzero, hstore⟩ := ptraceWrite_copies copies
    (show bytes.length ≤ 4 * ((bytes.length + 3) / 4) by omega) (by omega) (hpid ▸ hsucceed)
  rw [hmem] at hstore
  simp [writeMemory_of_machWrite k htask hmach, hpid, hzero, hstore]

/-- The fallback on `ptrace` does what the Mach calls do: it reads what `vm_read` gives of
the same memory and leaves what a `vm_write` to the same memory leaves. -/
theorem ptrace_copies_as_mach (copies : CopiesMemory k task pid mem) {x : TargetState σ}
    (htask : x.task = some task) (hpid : x.pid = pid) (memaddr : Int) :
    (∀ len, ReadsByWords k task memaddr len x →
      (readMemory k memaddr len x).1 = loadRange (mem x.os) (BitVec.ofInt 32 memaddr) len ∧
        ∀ os bs, mem os = mem x.os →
          (k.vmRead task (vmAddress memaddr) len os).1 = some bs →
            (readMemory k memaddr len x).1 = bs) ∧
      ∀ bytes, bytes.length < 2 ^ 31 → WritesByWords k task memaddr bytes x →
        (writeMemory k memaddr bytes x).1 = 0 ∧
          mem (writeMemory k memaddr bytes x).2.os =
            storeRange (mem x.os) (BitVec.ofInt 32 memaddr) bytes ∧
          (∀ os, mem os = mem x.os →
            (k.vmWrite task (vmAddress memaddr) bytes os).1 = true →
              mem (writeMemory k memaddr bytes x).2.os =
                mem (k.vmWrite task (vmAddress memaddr) bytes os).2) ∧
          ∀ addr, bytes.length ≤ (addr - BitVec.ofInt 32 memaddr).toNat →
            mem (writeMemory k memaddr bytes x).2.os addr = mem x.os addr := by
  constructor
  · intro len byWords
    have hread := readMemory_by_words copies htask hpid byWords
    refine ⟨hread, ?_⟩
    intro os bs same hmach
    have hbytes := copies.vmRead (vmAddress memaddr) len os bs hmach
    rw [hread, hbytes, same, ofNat_vmAddress]
  · intro bytes hlen byWords
    obtain ⟨hzero, hmem⟩ := writeMemory_by_words copies htask hpid hlen byWords
    refine ⟨hzero, hmem, ?_, ?_⟩
    · intro os same hmach
      have hstore := copies.vmWrite (vmAddress memaddr) bytes os hmach
      rw [hmem, hstore, same, ofNat_vmAddress]
    · intro addr outside
      rw [hmem]
      exact storeRange_outside (mem x.os) outside

/-- A process of which the server has no usable task port. -/
def portless : Kernel AddressSpace where
  forkExec m := (some 7, m)
  ptrace _ _ _ m := (true, m)
  readD _ addr m := (.ok ⟨(loadRange m (BitVec.ofNat 32 addr) 4).toArray, by simp⟩, m)
  writeD _ addr w m := (0, storeRange m (BitVec.ofNat 32 addr) w.toList)
  waitpid _ m := (.stopped 5, m)
  reap _ m := m
  kill _ _ m := (true, m)
  taskForPid _ m := (some 1, m)
  taskThreads _ m := (none, m)
  vmRead _ _ _ m := (none, m)
  vmWrite _ _ _ m := (false, m)
  vmProtect _ _ _ m := (false, m)
  threadGetState _ m := (none, m)
  threadSetState _ _ m := (false, m)
  floatGetState _ m := (none, m)
  floatSetState _ _ m := (false, m)
  vmRead_length := nofun

theorem portless_copies : CopiesMemory portless 1 7 id where
  vmRead _ _ _ _ hread := by cases hread
  vmRead_mem _ _ _ := rfl
  vmWrite _ _ _ hwrite := by cases hwrite
  vmWrite_failed _ _ _ _ := rfl
  vmProtect_mem _ _ _ := rfl
  readD := by
    rintro addr os w ⟨⟩
    rfl
  readD_mem _ _ := rfl
  writeD _ _ _ _ := rfl

/-- Five bytes at an odd address: the second word is written back with three old bytes. -/
theorem ptrace_copies_as_mach_odd :
    let x : TargetState AddressSpace :=
      { os := fun addr => UInt8.ofNat addr.toNat, task := some 1, pid := 7 }
    (readMemory portless 4097 5 x).1 = [1, 2, 3, 4, 5] ∧
      (writeMemory portless 4097 [9, 9, 9, 9, 9] x).2.os 4102 = 6 := by
  intro x
  obtain ⟨hread, hwrite⟩ := ptrace_copies_as_mach portless_copies (x := x) rfl rfl 4097
  constructor
  · exact (hread 5 ⟨rfl, rfl⟩).1
  · exact (hwrite [9, 9, 9, 9, 9] (by simp) ⟨rfl, rfl⟩).2.2.2 4102 (by decide)

end Darwin

end Gdbserver
