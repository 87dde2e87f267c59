import OsxGdbserver.Basic
import OsxGdbserver.Lib.WrappedMemory
import Mathlib.Logic.Function.Iterate

/-!
# The entry point of a Mach-O file

`macho_get_entry_point` goes from load command to load command by the sizes the file gives
and stops at the first `LC_UNIXTHREAD`. Nothing keeps it inside the commands it has loaded.
The reads it makes through its pointer are recorded.
-/

namespace MachO

open WrappedMemory

/-- A word of the file, of four bytes in the order of a PowerPC. -/
def wordOf (bytes : List Byte) : Nat := bytes.foldl (fun w b => 256 * w + b.toNat) 0

def mhMagic : Nat := 0xfeedface

def lcUnixthread : Nat := 5

/-- `sizeof(struct mach_header)` -/
def machHeaderSize : Nat := 28

def fieldAt (bytes : List Byte) (offset : Nat) : Nat := wordOf ((bytes.drop offset).take 4)

/-- The heap of the server: the sizes `malloc` gives a block for, the block, and what is in
memory. A block has an address other than zero and an end that has an address too. -/
structure Heap where
  allocates : Nat → Bool
  block : Nat → BitVec 32
  memory : BitVec 32 → Byte
  fits : ∀ n, allocates n = true → 0 < (block n).toNat ∧ (block n).toNat + n < 2 ^ 32

/-- `read` of `n` bytes where `rest` is left of the file; more than `INT_MAX` are refused. -/
def readCount (rest : List Byte) (n : Nat) : Int :=
  if n < 2 ^ 31 then min n rest.length else -1

structure Scan where
  reads : List (BitVec 32)
  entry : Int
  deriving DecidableEq, Repr

def wordAt (memory : BitVec 32 → Byte) (p : BitVec 32) : Nat := wordOf (loadRange memory p 4)

/-- The loop, with `n` commands to go. `cmdsize` is not read once the command is found. -/
def scanCommands (memory : BitVec 32 → Byte) : Nat → BitVec 32 → Scan
  | 0, _ => { reads := [], entry := 0 }
  | n + 1, p =>
    if wordAt memory p = lcUnixthread then
      -- `data` is `p + 8`, and `data[2]` is `srr0`
      { reads := addresses p 4 ++ addresses (p + BitVec.ofNat 32 16) 4
        entry := wordAt memory (p + BitVec.ofNat 32 16) }
    else
      let cmdsize := wordAt memory (p + BitVec.ofNat 32 4)
      let rest := scanCommands memory n (p + BitVec.ofNat 32 cmdsize)
      { rest with
        reads := addresses p 4 ++ addresses (p + BitVec.ofNat 32 4) 4 ++ rest.reads }

def magic (file : List Byte) : Nat := fieldAt file 0

def ncmds (file : List Byte) : Nat := fieldAt file 16

def sizeofcmds (file : List Byte) : Nat := fieldAt file 20

/-- `macho_get_entry_point` for the contents of the file, if it can be opened. -/
def machoGetEntryPoint (heap : Heap) (file : Option (List Byte)) : Scan :=
  let failed : Scan := { reads := [], entry := 0 }
  match file with
  | none => failed
  | some file =>
    if readCount file machHeaderSize ≠ machHeaderSize then failed
    else if magic file ≠ mhMagic then failed
    else
      let rest := file.drop machHeaderSize
      let size := sizeofcmds file
      if heap.allocates size = false ∨ readCount rest size ≠ toInt size then failed
      else
        scanCommands (storeRange heap.memory (heap.block size) (rest.take size)) (ncmds file)
          (heap.block size)

/-- The bytes that `macho_get_entry_point` has loaded when it starts to scan. -/
def loadCommands (file : List Byte) : List Byte :=
  (file.drop machHeaderSize).take (sizeofcmds file)

/-- Where the command after the one at `offset` starts, by the size given there. -/
def nextCommand (cmds : List Byte) (offset : Nat) : Nat :=
  (offset + fieldAt cmds (offset + 4)) % 2 ^ 32

/-- The header of a command, or as much of `LC_UNIXTHREAD` as is read, lies in `cmds`. -/
def HasRoom (cmds : List Byte) (offset : Nat) : Prop :=
  if fieldAt cmds offset = lcUnixthread then offset + 20 ≤ cmds.length
  else offset + 8 ≤ cmds.length

def Passes (cmds : List Byte) (offset : Nat) : Prop := fieldAt cmds offset ≠ lcUnixthread

/-- Of `n` commands from `offset` on, each that is come to before `LC_UNIXTHREAD` and this one
itself has room. -/
def Contained (cmds : List Byte) (n offset : Nat) : Prop :=
  ∀ i < n, (∀ j < i, Passes cmds ((nextCommand cmds)^[j] offset)) →
    HasRoom cmds ((nextCommand cmds)^[i] offset)

theorem contained_succ {cmds : List Byte} {n offset : Nat} :
    Contained cmds (n + 1) offset ↔
      HasRoom cmds offset ∧
        (Passes cmds offset → Contained cmds n (nextCommand cmds offset)) := by
  constructor
  · intro h
    refine ⟨h 0 (by omega) (fun j hj => absurd hj (by omega)), ?_⟩
    intro passes i hi before
    refine h (i + 1) (by omega) ?_
    rintro (_ | j) hj
    · exact passes
    · exact before j (by omega)
  · rintro ⟨room, rest⟩ (_ | i) hi before
    · exact room
    · refine rest (before 0 (by omega)) i (by omega) ?_
      intro j hj
      exact before (j + 1) (by omega)

section Words

variable {memory : BitVec 32 → Byte} {block : BitVec 32} {cmds : List Byte} {offset : Nat}

theorem wordAt_command (hlen : cmds.length < 2 ^ 31) (h : offset + 4 ≤ cmds.length) :
    wordAt (storeRange memory block cmds) (block + BitVec.ofNat 32 offset) =
      fieldAt cmds offset := by
  rw [wordAt, fieldAt, loadRange_storeRange memory (by omega) h]

theorem wordAt_command_add (hlen : cmds.length < 2 ^ 31) {i : Nat}
    (h : offset + i + 4 ≤ cmds.length) :
    wordAt (storeRange memory block cmds) (block + BitVec.ofNat 32 offset + BitVec.ofNat 32 i) =
      fieldAt cmds (offset + i) := by
  rw [BitVec.add_assoc, ← BitVec.ofNat_add]
  exact wordAt_command hlen h

end Words

/-- The scan reads inside of its block just if all commands it comes to have room there. -/
theorem scanCommands_inside_iff {memory : BitVec 32 → Byte} {block : BitVec 32}
    {cmds : List Byte} (hlen : cmds.length < 2 ^ 31) {n offset : Nat} (hoffset : offset < 2 ^ 32) :
    (∀ a ∈ (scanCommands (storeRange memory block cmds) n (block + BitVec.ofNat 32 offset)).reads,
        (a - block).toNat < cmds.length) ↔ Contained cmds n offset := by
  induction n generalizing offset with
  | zero => simp [scanCommands, Contained]
  | succ n ih =>
    have hinside : ∀ i, offset + i < 2 ^ 32 →
        ((∀ a ∈ addresses (block + BitVec.ofNat 32 offset + BitVec.ofNat 32 i) 4,
          (a - block).toNat < cmds.length) ↔ offset + i + 4 ≤ cmds.length) := by
      intro i hi
      rw [BitVec.add_assoc, ← BitVec.ofNat_add]
      exact addresses_inside_iff block (by omega) hi (by omega)
    have hfirst := hinside 0 hoffset
    simp only [BitVec.add_zero, Nat.add_zero] at hfirst
    rw [contained_succ, scanCommands]
    by_cases hfour : offset + 4 ≤ cmds.length
    · rw [wordAt_command hlen hfour]
      by_cases hthread : fieldAt cmds offset = lcUnixthread
      · -- the last command that is read
        have hlast := hinside 16 (by omega)
        simp only [hthread, if_true, List.forall_mem_append, hfirst, hlast, HasRoom, Passes,
          ne_eq, not_true_eq_false, false_implies, and_true]
        omega
      · have hsize := hinside 4 (by omega)
        simp only [hthread, if_false, List.forall_mem_append, hfirst, hsize, HasRoom, Passes,
          ne_eq, not_false_eq_true, true_implies]
        by_cases height : offset + 8 ≤ cmds.length
        · have hnext : block + BitVec.ofNat 32 offset +
              BitVec.ofNat 32 (fieldAt cmds (offset + 4)) =
                block + BitVec.ofNat 32 (nextCommand cmds offset) := by
            rw [BitVec.add_assoc, ← BitVec.ofNat_add, nextCommand]
            congr 1
            apply BitVec.eq_of_toNat_eq
            simp
          have hlt : nextCommand cmds offset < 2 ^ 32 := Nat.mod_lt _ (by omega)
          rw [wordAt_command_add hlen (by omega), hnext, ih hlt]
          simp [hfour, height]
        · simp [height]
    · have hroom : ¬ HasRoom cmds offset := by
        unfold HasRoom
        split <;> omega
      have houtside : ¬ ∀ a ∈ addresses (block + BitVec.ofNat 32 offset) 4,
          (a - block).toNat < cmds.length := fun h => hfour (hfirst.mp h)
      simp only [hroom, false_and, iff_false]
      intro h
      apply houtside
      intro a ha
      apply h a
      split <;> simp [ha]

theorem scanCommands_inside_iff_start {memory : BitVec 32 → Byte} {block : BitVec 32}
    {cmds : List Byte} (hlen : cmds.length < 2 ^ 31) (n : Nat) :
    (∀ a ∈ (scanCommands (storeRange memory block cmds) n block).reads,
        (a - block).toNat < cmds.length) ↔ Contained cmds n 0 := by
  have hstart : block + BitVec.ofNat 32 0 = block := BitVec.add_zero block
  have hinside : (∀ a ∈ (scanCommands (storeRange memory block cmds) n
      (block + BitVec.ofNat 32 0)).reads, (a - block).toNat < cmds.length) ↔
        Contained cmds n 0 :=
    scanCommands_inside_iff hlen (by omega)
  rwa [hstart] at hinside

/-- The file is one whose commands are scanned: a header of the right kind, a block for the
commands, and all of them in the file. -/
def Scanned (heap : Heap) (file : List Byte) : Prop :=
  machHeaderSize ≤ file.length ∧ magic file = mhMagic ∧
    heap.allocates (sizeofcmds file) = true ∧ (loadCommands file).length = sizeofcmds file ∧
      sizeofcmds file < 2 ^ 31

theorem readCount_eq_iff {rest : List Byte} {n : Nat} (hn : n + 1 < 2 ^ 32) :
    readCount rest n = toInt n ↔ n ≤ rest.length ∧ n < 2 ^ 31 := by
  unfold readCount
  split
  · rename_i small
    rw [toInt_of_range (by omega) (by omega)]
    omega
  · rename_i large
    -- the conversion makes the size negative, but not the `-1` of a failed `read`
    have hneg : toInt n = n - 2 ^ 32 := by
      rw [toInt, Int.bmod_def]
      omega
    omega

theorem machoGetEntryPoint_cases (heap : Heap) (file : List Byte) :
    (Scanned heap file ∧
        machoGetEntryPoint heap (some file) =
          scanCommands (storeRange heap.memory (heap.block (sizeofcmds file))
            (loadCommands file)) (ncmds file) (heap.block (sizeofcmds file))) ∨
      (¬ Scanned heap file ∧
        machoGetEntryPoint heap (some file) = { reads := [], entry := 0 }) := by
  have hheader : readCount file machHeaderSize = machHeaderSize ↔
      machHeaderSize ≤ file.length := by
    simp only [readCount, machHeaderSize]
    omega
  have hsize : (loadCommands file).length = sizeofcmds file ↔
      sizeofcmds file ≤ (file.drop machHeaderSize).length := by
    rw [loadCommands, List.length_take]
    omega
  by_cases scanned : Scanned heap file
  · left
    obtain ⟨header, magic, block, loaded, small⟩ := scanned
    have hcount : readCount (file.drop machHeaderSize) (sizeofcmds file) =
        toInt (sizeofcmds file) :=
      (readCount_eq_iff (by omega)).mpr ⟨hsize.mp loaded, small⟩
    refine ⟨⟨header, magic, block, loaded, small⟩, ?_⟩
    simp [machoGetEntryPoint, hheader.mpr header, magic, block, hcount, loadCommands]
  · right
    refine ⟨scanned, ?_⟩
    unfold machoGetEntryPoint
    dsimp only
    split
    · rfl
    · rename_i header
      split
      · rfl
      · rename_i magic
        split
        · rfl
        · rename_i load
          rw [not_or, ne_eq, not_not, Bool.not_eq_false] at load
          have hfits := heap.fits _ load.1
          have hcount := (readCount_eq_iff
            (show sizeofcmds file + 1 < 2 ^ 32 by omega)).mp load.2
          exact absurd ⟨hheader.mp (not_not.mp header), not_not.mp magic, load.1,
            hsize.mpr hcount.1, hcount.2⟩ scanned

/-- All that is read through the pointer lies in the bytes that were loaded. -/
def ReadsInside (heap : Heap) (file : Option (List Byte)) : Prop :=
  ∀ content, file = some content → ∀ a ∈ (machoGetEntryPoint heap file).reads,
    (a - heap.block (sizeofcmds content)).toNat < (loadCommands content).length

/-- The scan stays inside exactly if each command it comes to does. -/
theorem readsInside_iff (heap : Heap) (file : Option (List Byte)) :
    ReadsInside heap file ↔
      ∀ content, file = some content → Scanned heap content →
        Contained (loadCommands content) (ncmds content) 0 := by
  cases file with
  | none => simp [ReadsInside]
  | some file =>
    rcases machoGetEntryPoint_cases heap file with ⟨scanned, hrun⟩ | ⟨unscanned, hrun⟩
    · have hlt : (loadCommands file).length < 2 ^ 31 := scanned.2.2.2.1 ▸ scanned.2.2.2.2
      have hinside : (∀ a ∈ (machoGetEntryPoint heap (some file)).reads,
          (a - heap.block (sizeofcmds file)).toNat < (loadCommands file).length) ↔
            Contained (loadCommands file) (ncmds file) 0 := by
        rw [hrun]
        exact scanCommands_inside_iff_start hlt (ncmds file)
      constructor
      · rintro h content ⟨⟩ _
        exact hinside.mp (h file rfl)
      · rintro h content ⟨⟩
        exact hinside.mpr (h file rfl scanned)
    · simp [ReadsInside, hrun, unscanned]

/-- Any size that leaves room behind the block is granted. -/
def roomyHeap : Heap where
  allocates n := decide (0x100000 + n < 2 ^ 32)
  block _ := 0x100000
  memory _ := 0
  fits n h := ⟨by decide, of_decide_eq_true h⟩

/-- A header with one load command of which no byte is there. -/
def emptyCommands : List Byte :=
  [0xfe, 0xed, 0xfa, 0xce, 0, 0, 0, 18, 0, 0, 0, 0, 0, 0, 0, 2, 0, 0, 0, 1, 0, 0, 0, 0, 0, 0, 0, 0]

theorem not_readsInside_empty : ¬ ReadsInside roomyHeap (some emptyCommands) := by
  intro h
  have hread : (0x100000 : BitVec 32) ∈
      (machoGetEntryPoint roomyHeap (some emptyCommands)).reads := by
    decide +kernel
  have hinside := h emptyCommands rfl _ hread
  revert hinside
  decide

/-- A load command with its size in its second word, and with its state if it is a thread. -/
structure WellSized (command : List Byte) : Prop where
  header : 8 ≤ command.length
  size : fieldAt command 4 = command.length
  state : fieldAt command 0 = lcUnixthread → 20 ≤ command.length

def isThread (command : List Byte) : Bool := fieldAt command 0 = lcUnixthread

theorem fieldAt_append (pre rest : List Byte) {command : List Byte} {offset : Nat}
    (h : offset + 4 ≤ command.length) :
    fieldAt (pre ++ (command ++ rest)) (pre.length + offset) = fieldAt command offset := by
  rw [fieldAt, fieldAt, List.drop_append, List.drop_of_length_le (by omega), List.nil_append,
    Nat.add_sub_cancel_left, List.drop_append_of_le_length (by omega),
    List.take_append_of_le_length (by rw [List.length_drop]; omega)]

/-- Commands one behind the other are all the scan reads, whatever their order and number. -/
theorem contained_flatten {commands : List (List Byte)}
    (sized : ∀ command ∈ commands, WellSized command) (pre : List Byte)
    (hlen : (pre ++ commands.flatten).length < 2 ^ 32) :
    Contained (pre ++ commands.flatten) commands.length pre.length := by
  induction commands generalizing pre with
  | nil => exact fun i hi => absurd hi (by simp)
  | cons command rest ih =>
    have hcommand := sized command List.mem_cons_self
    have hheader := hcommand.header
    simp only [List.flatten_cons, List.length_append] at hlen ⊢
    have hcmd := fieldAt_append pre rest.flatten (show 0 + 4 ≤ command.length by omega)
    have hsize := fieldAt_append pre rest.flatten (show 4 + 4 ≤ command.length by omega)
    rw [Nat.add_zero] at hcmd
    rw [List.length_cons, contained_succ]
    constructor
    · rw [HasRoom, hcmd]
      split
      · rename_i thread
        have hstate := hcommand.state thread
        simp only [List.length_append]
        omega
      · simp only [List.length_append]
        omega
    · intro _
      have hnext : nextCommand (pre ++ (command ++ rest.flatten)) pre.length =
          (pre ++ command).length := by
        rw [nextCommand, hsize, hcommand.size, List.length_append, Nat.mod_eq_of_lt (by omega)]
      have hrest := ih (fun c hc => sized c (List.mem_cons_of_mem _ hc)) (pre ++ command)
        (by simp only [List.length_append]; omega)
      rwa [hnext, ← List.append_assoc]

theorem scanCommands_entry_flatten {memory : BitVec 32 → Byte} {block : BitVec 32}
    {commands : List (List Byte)} (sized : ∀ command ∈ commands, WellSized command)
    (pre : List Byte) (hlen : (pre ++ commands.flatten).length < 2 ^ 31) :
    (scanCommands (storeRange memory block (pre ++ commands.flatten)) commands.length
      (block + BitVec.ofNat 32 pre.length)).entry =
        ((commands.find? isThread).map fun command => fieldAt command 16).getD 0 := by
  induction commands generalizing pre with
  | nil => rfl
  | cons command rest ih =>
    have hcommand := sized command List.mem_cons_self
    have hheader := hcommand.header
    rw [List.flatten_cons] at hlen ⊢
    have htotal : (pre ++ (command ++ rest.flatten)).length =
        pre.length + (command.length + rest.flatten.length) := by
      rw [List.length_append, List.length_append]
    have hcmd := fieldAt_append pre rest.flatten (show 0 + 4 ≤ command.length by omega)
    rw [Nat.add_zero] at hcmd
    rw [List.length_cons, scanCommands, wordAt_command hlen (by omega), hcmd]
    by_cases thread : fieldAt command 0 = lcUnixthread
    · have hstate := hcommand.state thread
      have hsrr0 := fieldAt_append pre rest.flatten (show 16 + 4 ≤ command.length by omega)
      rw [if_pos thread, wordAt_command_add hlen (by omega), hsrr0]
      simp [isThread, thread]
    · have hsize := fieldAt_append pre rest.flatten (show 4 + 4 ≤ command.length by omega)
      have hnext : block + BitVec.ofNat 32 pre.length + BitVec.ofNat 32 command.length =
          block + BitVec.ofNat 32 (pre ++ command).length := by
        rw [BitVec.add_assoc, ← BitVec.ofNat_add, List.length_append]
      have hrest := ih (fun c hc => sized c (List.mem_cons_of_mem _ hc)) (pre ++ command)
        (by rwa [List.append_assoc])
      rw [if_neg thread, wordAt_command_add hlen (by omega), hsize, hcommand.size]
      dsimp only
      rw [List.append_assoc] at hrest
      have hfind : (command :: rest).find? isThread = rest.find? isThread :=
        List.find?_cons_of_neg (by simp [isThread, thread])
      rw [hnext, hrest, hfind]

/-- For a file that is made up as the format says, the scan stays inside of the commands and
gives the `srr0` of the first thread state. -/
theorem machoGetEntryPoint_wellSized {heap : Heap} {file : List Byte}
    (scanned : Scanned heap file) {commands : List (List Byte)}
    (sized : ∀ command ∈ commands, WellSized command)
    (hcommands : loadCommands file = commands.flatten) (hncmds : ncmds file = commands.length) :
    ReadsInside heap (some file) ∧
      (machoGetEntryPoint heap (some file)).entry =
        ((commands.find? isThread).map fun command => fieldAt command 16).getD 0 := by
  rcases machoGetEntryPoint_cases heap file with ⟨_, hrun⟩ | ⟨unscanned, _⟩
  · have hlt : ([] ++ commands.flatten).length < 2 ^ 31 := by
      rw [List.nil_append, ← hcommands, scanned.2.2.2.1]
      exact scanned.2.2.2.2
    rw [hcommands, hncmds] at hrun
    constructor
    · rintro content ⟨⟩
      rw [hrun, hcommands]
      exact (scanCommands_inside_iff_start hlt _).mpr (contained_flatten sized [] (by omega))
    · have hstart : heap.block (sizeofcmds file) + BitVec.ofNat 32 ([] : List Byte).length =
          heap.block (sizeofcmds file) := BitVec.add_zero _
      have hentry : (scanCommands (storeRange heap.memory (heap.block (sizeofcmds file))
          ([] ++ commands.flatten)) commands.length
            (heap.block (sizeofcmds file) + BitVec.ofNat 32 ([] : List Byte).length)).entry =
          ((commands.find? isThread).map fun command => fieldAt command 16).getD 0 :=
        scanCommands_entry_flatten sized [] hlt
      rw [hstart] at hentry
      rw [hrun]
      exact hentry
  · exact absurd scanned unscanned

/-- A segment of 8 bytes, and a thread that starts at 0x2000. -/
theorem machoGetEntryPoint_wellSized_thread :
    let segment : List Byte := [0, 0, 0, 1, 0, 0, 0, 8]
    let thread : List Byte :=
      [0, 0, 0, 5, 0, 0, 0, 20, 0, 0, 0, 1, 0, 0, 0, 40, 0, 0, 0x20, 0]
    let header : List Byte :=
      [0xfe, 0xed, 0xfa, 0xce, 0, 0, 0, 18, 0, 0, 0, 0, 0, 0, 0, 2, 0, 0, 0, 2, 0, 0, 0, 28,
        0, 0, 0, 0]
    let file := header ++ [segment, thread].flatten
    ReadsInside roomyHeap (some file) ∧ (machoGetEntryPoint roomyHeap (some file)).entry =
      (([segment, thread].find? isThread).map fun command => fieldAt command 16).getD 0 :=
  machoGetEntryPoint_wellSized
    ⟨by decide, by decide, by decide, by decide, by decide⟩
    (by
      intro command h
      simp only [List.mem_cons, List.not_mem_nil, or_false] at h
      rcases h with rfl | rfl
      · exact ⟨by decide, by decide, by decide⟩
      · exact ⟨by decide, by decide, by decide⟩)
    (by decide) (by decide)

end MachO
