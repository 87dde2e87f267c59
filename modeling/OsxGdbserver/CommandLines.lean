import OsxGdbserver.Basic
import OsxGdbserver.Lib.CString

/-!
# The command line

`main` strips its own options before anything else looks at the argument vector, wherever in
it they stand. What is left is taken apart by position.
-/

namespace CommandLine

open CString

/-- The characters of a string, without its NUL. -/
abbrev CStr := List Byte

/-- An argument vector; `none` is the null pointer behind the last argument. -/
abbrev Argv := List (Option CStr)

def remoteDebugOption : CStr := ascii "--remote-debug"

def attachOption : CStr := ascii "--attach"

/-- `argv[i]`, where a string is stored. -/
def stringAt (argv : Argv) (i : Nat) : CStr := (argv[i]?.join).getD []

/-- The strings from `&argv[i]` on, up to the null pointer. -/
def stringsFrom (argv : Argv) (i : Nat) : List CStr :=
  ((argv.drop i).takeWhile Option.isSome).reduceOption

structure Stripped where
  argc : Nat
  argv : Argv
  remoteDebug : Bool
  deriving DecidableEq, Repr

/-- The loop of `strip_global_options` with `n` arguments to go. -/
def stripLoop : Nat → Nat → Nat → Argv → Bool → Stripped
  | 0, _, wr, argv, remoteDebug =>
    { argc := wr, argv := argv.set wr none, remoteDebug := remoteDebug }
  | n + 1, rd, wr, argv, remoteDebug =>
    if stringAt argv rd = remoteDebugOption then stripLoop n (rd + 1) wr argv true
    else stripLoop n (rd + 1) (wr + 1) (argv.set wr (argv[rd]?.join)) remoteDebug

def stripGlobalOptions (argc : Nat) (argv : Argv) (remoteDebug : Bool) : Stripped :=
  stripLoop (argc - 1) 1 1 argv remoteDebug

def isDecimalDigit (c : Byte) : Bool := 0x30 ≤ c && c ≤ 0x39

/-- `strtoul(p, &end, 10)` -/
def strtoulDecimal (p : CStr) : Nat × CStr :=
  let (negative, q) := scanSign (p.dropWhile isSpace)
  let digits := q.takeWhile isDecimalDigit
  let magnitude := digits.foldl (fun n c => 10 * n + (c.toNat - 0x30)) 0
  if digits = [] then (0, p)
  else
    (if magnitude ≥ 2 ^ 32 then 2 ^ 32 - 1
      else if negative then (2 ^ 32 - magnitude) % 2 ^ 32 else magnitude,
      q.drop digits.length)

/-- What `parse_args` returns: `-1`, `0`, or `1` with the process. -/
inductive Mode
  | badUsage
  | launch
  | attach (pid : Int)
  deriving DecidableEq, Repr

def parseArgs (argc : Nat) (argv : Argv) : Mode :=
  if argc < 3 then .badUsage
  else if stringAt argv 2 ≠ attachOption then .launch
  else if argc ≠ 4 ∨ stringAt argv 3 = [] then .badUsage
  else
    let (pid, stop) := strtoulDecimal (stringAt argv 3)
    if pid = 0 ∨ stop ≠ [] then .badUsage else .attach (toInt pid)

/-- How `main` brings up the inferior: `execv` with its two arguments, or `myattach`. -/
inductive Inferior
  | exec (program : CStr) (argv : List CStr)
  | attached (pid : Int)
  deriving DecidableEq, Repr

/-- What the calls are given by which `main` brings up the inferior and the connection. -/
structure Startup where
  remoteDebug : Bool
  inferior : Inferior
  /-- What `remote_open` was given. -/
  comm : CStr
  deriving DecidableEq, Repr

/-- `main` up to `remote_open`; `none` is the exit through `gdbserver_usage`. -/
def start (args : List CStr) : Option Startup :=
  let argv : Argv := args.map some ++ [none]
  let stripped := stripGlobalOptions args.length argv false
  let started (inferior : Inferior) : Option Startup :=
    some
      { remoteDebug := stripped.remoteDebug
        inferior := inferior
        comm := stringAt stripped.argv 1 }
  match parseArgs stripped.argc stripped.argv with
  | .badUsage => none
  | .launch =>
    -- `start_inferior(&argv[2])`, which executes its own `argv[0]`
    started (.exec (stringAt stripped.argv 2) (stringsFrom stripped.argv 2))
  | .attach pid => started (.attached pid)

theorem take_succ_set {α : Type} (l : List α) {i : Nat} (h : i < l.length) (a : α) :
    (l.set i a).take (i + 1) = l.take i ++ [a] := by
  rw [List.take_add_one, List.take_set_of_le (Nat.le_refl i)]
  simp [h]

/-- The loop keeps what it has written below `wr` and goes on with what it has not read from
`rd` on. -/
theorem stripLoop_spec {n rd wr : Nat} {argv : Argv} (remoteDebug : Bool)
    {kept rest : List CStr} (hkept : argv.take wr = kept.map some) (hwr : kept.length = wr)
    (hrest : argv.drop rd = rest.map some ++ [none]) (hn : rest.length = n) (hle : wr ≤ rd) :
    let left := kept ++ rest.filter (· ≠ remoteDebugOption)
    let r := stripLoop n rd wr argv remoteDebug
    r.argc = left.length ∧ (∃ stale, r.argv = left.map some ++ none :: stale) ∧
      r.remoteDebug = (remoteDebug || decide (remoteDebugOption ∈ rest)) := by
  have hlen : argv.length = rd + rest.length + 1 := by
    have h := congrArg List.length hrest
    simp only [List.length_drop, List.length_append, List.length_map, List.length_singleton] at h
    omega
  induction n generalizing rd wr argv remoteDebug kept rest with
  | zero =>
    obtain rfl : rest = [] := List.eq_nil_of_length_eq_zero hn
    refine ⟨by simp [stripLoop, hwr], ⟨argv.drop (wr + 1), ?_⟩, by simp [stripLoop]⟩
    have hwritten : argv.set wr none = argv.take wr ++ none :: argv.drop (wr + 1) :=
      List.set_eq_take_append_cons_drop.trans (if_pos (by omega))
    simp [stripLoop, hwritten, hkept]
  | succ n ih =>
    rcases rest with _ | ⟨arg, rest⟩
    · cases hn
    · rw [List.length_cons] at hn hlen
      have hget : argv[rd]? = some (some arg) := by
        have h := congrArg (·[0]?) hrest
        simpa [List.getElem?_drop] using h
      have hnext : argv.drop (rd + 1) = rest.map some ++ [none] := by
        rw [← List.drop_drop, hrest]
        rfl
      by_cases hoption : arg = remoteDebugOption
      · have hrun : stripLoop (n + 1) rd wr argv remoteDebug =
            stripLoop n (rd + 1) wr argv true := by
          simp [stripLoop, stringAt, hget, hoption]
        have h := ih true hkept hwr hnext (by omega) (by omega) (by omega)
        simpa [hrun, hoption] using h
      · have hrun : stripLoop (n + 1) rd wr argv remoteDebug =
            stripLoop n (rd + 1) (wr + 1) (argv.set wr (some arg)) remoteDebug := by
          simp [stripLoop, stringAt, hget, hoption]
        have hkept' : (argv.set wr (some arg)).take (wr + 1) = (kept ++ [arg]).map some := by
          rw [take_succ_set argv (by omega), hkept, List.map_append]
          rfl
        have hrest' : (argv.set wr (some arg)).drop (rd + 1) = rest.map some ++ [none] := by
          rw [List.drop_set_of_lt (by omega), hnext]
        have h := ih remoteDebug hkept' (by simp [hwr]) hrest' (by omega)
          (by omega) (by rw [List.length_set]; omega)
        have hne : remoteDebugOption ≠ arg := Ne.symm hoption
        simpa [hrun, hoption, hne] using h

theorem stripGlobalOptions_spec (program : CStr) (rest : List CStr) :
    let left := program :: rest.filter (· ≠ remoteDebugOption)
    let r := stripGlobalOptions (program :: rest).length
      ((program :: rest).map some ++ [none]) false
    r.argc = left.length ∧ (∃ stale, r.argv = left.map some ++ none :: stale) ∧
      r.remoteDebug = decide (remoteDebugOption ∈ rest) := by
  exact stripLoop_spec (n := rest.length) false (show _ = [program].map some from rfl) rfl rfl
    rfl (Nat.le_refl 1)

theorem stringAt_left (left : List CStr) (stale : Argv) {i : Nat} (h : i < left.length) :
    stringAt (left.map some ++ none :: stale) i = left[i] := by
  have hlen : i < (left.map some).length := by rwa [List.length_map]
  simp [stringAt, List.getElem?_append_left hlen, h]

theorem stringsFrom_left (left : List CStr) (stale : Argv) {i : Nat} (h : i ≤ left.length) :
    stringsFrom (left.map some ++ none :: stale) i = left.drop i := by
  have hdrop : (left.map some ++ none :: stale).drop i =
      (left.drop i).map some ++ none :: stale := by
    rw [List.drop_append_of_le_length (by rwa [List.length_map]), List.map_drop]
  have hall : ∀ arg ∈ (left.drop i).map some, arg.isSome = true := by
    intro arg harg
    obtain ⟨s, _, rfl⟩ := List.mem_map.mp harg
    rfl
  have hstrings : ((left.drop i).map some).reduceOption = left.drop i := by
    change ((left.drop i).map some).filterMap id = left.drop i
    rw [List.filterMap_map]
    exact List.filterMap_some
  rw [stringsFrom, hdrop, List.takeWhile_append_of_pos hall]
  simpa using hstrings

/-- What `main` does with the arguments that are left. -/
theorem start_of_left {program comm prog : CStr} {rest args : List CStr}
    (hleft : rest.filter (· ≠ remoteDebugOption) = comm :: prog :: args)
    (hprog : prog ≠ attachOption) :
    start (program :: rest) =
      some
        { remoteDebug := decide (remoteDebugOption ∈ rest)
          inferior := .exec prog (prog :: args)
          comm := comm } := by
  obtain ⟨hargc, ⟨stale, hargv⟩, hdebug⟩ := stripGlobalOptions_spec program rest
  simp only [start]
  generalize stripGlobalOptions _ _ false = stripped at *
  rw [hleft] at hargc hargv
  have hcomm : stringAt stripped.argv 1 = comm := by
    rw [hargv]
    exact stringAt_left (program :: comm :: prog :: args) stale (by simp)
  have hstring : stringAt stripped.argv 2 = prog := by
    rw [hargv]
    exact stringAt_left (program :: comm :: prog :: args) stale (by simp)
  have hstrings : stringsFrom stripped.argv 2 = prog :: args := by
    rw [hargv]
    exact stringsFrom_left (program :: comm :: prog :: args) stale (by simp)
  have hmode : parseArgs stripped.argc stripped.argv = .launch := by
    simp [parseArgs, hargc, hstring, hprog]
  simp only [hmode, hcomm, hstring, hstrings, hdebug]

/-- A program is executed only with what is left of the arguments. -/
theorem left_of_start {program comm prog : CStr} {rest argv : List CStr} {remoteDebug : Bool}
    (h : start (program :: rest) =
      some { remoteDebug := remoteDebug, inferior := .exec prog argv, comm := comm }) :
    rest.filter (· ≠ remoteDebugOption) = comm :: argv := by
  obtain ⟨hargc, ⟨stale, hargv⟩, _⟩ := stripGlobalOptions_spec program rest
  simp only [start] at h
  generalize stripGlobalOptions _ _ false = stripped at *
  have hmode : parseArgs stripped.argc stripped.argv = .launch := by
    cases hmode : parseArgs stripped.argc stripped.argv with
    | badUsage => simp [hmode] at h
    | launch => rfl
    | attach pid => simp [hmode] at h
  have hthree : 3 ≤ stripped.argc := by
    by_contra hfew
    simp [parseArgs, show stripped.argc < 3 by omega] at hmode
  simp only [hmode, Option.some.injEq, Startup.mk.injEq, Inferior.exec.injEq] at h
  obtain ⟨_, ⟨_, hstrings⟩, hcomm⟩ := h
  rw [hargv] at hstrings hcomm
  rw [hargc] at hthree
  cases hleft : rest.filter (· ≠ remoteDebugOption) with
  | nil =>
    rw [hleft] at hthree
    simp at hthree
  | cons first others =>
    rw [hleft] at hstrings hcomm
    rw [stringsFrom_left (program :: first :: others) stale (by simp)] at hstrings
    rw [stringAt_left (program :: first :: others) stale (by simp)] at hcomm
    simpa using And.intro hcomm hstrings

theorem filter_options (options : Nat) (rest : List CStr) :
    (List.replicate options remoteDebugOption ++ rest).filter (· ≠ remoteDebugOption) =
      rest.filter (· ≠ remoteDebugOption) := by
  simp [List.filter_append]

/-- The inferior gets its command line as it was given exactly when no string behind the
options is taken for one more of them. -/
theorem start_as_given_iff (program comm prog : CStr) (args : List CStr) (options : Nat)
    (hprog : prog ≠ attachOption) :
    start (program :: (List.replicate options remoteDebugOption ++ comm :: prog :: args)) =
        some
          { remoteDebug := decide (0 < options)
            inferior := .exec prog (prog :: args)
            comm := comm } ↔
      remoteDebugOption ∉ comm :: prog :: args := by
  constructor
  · intro h hmem
    have hleft := left_of_start h
    rw [filter_options] at hleft
    have hkept : remoteDebugOption ∈ (comm :: prog :: args).filter (· ≠ remoteDebugOption) := by
      rwa [hleft]
    simp at hkept
  · intro hnot
    have hall : (comm :: prog :: args).filter (· ≠ remoteDebugOption) = comm :: prog :: args := by
      refine List.filter_eq_self.mpr fun s hs => ?_
      have hne : s ≠ remoteDebugOption := fun heq => hnot (heq ▸ hs)
      simpa using hne
    have hoptions : remoteDebugOption ∈
        List.replicate options remoteDebugOption ++ comm :: prog :: args ↔ 0 < options := by
      rw [List.mem_append, List.mem_replicate]
      constructor
      · rintro (h | h)
        · omega
        · exact absurd h hnot
      · intro h
        exact Or.inl ⟨by omega, rfl⟩
    rw [start_of_left ((filter_options options _).trans hall) hprog]
    simp only [hoptions]

theorem start_as_given_ls :
    start [ascii "gdbserver", remoteDebugOption, ascii ":1234", ascii "ls", attachOption] =
      some ⟨true, .exec (ascii "ls") [ascii "ls", attachOption], ascii ":1234"⟩ :=
  (start_as_given_iff (ascii "gdbserver") (ascii ":1234") (ascii "ls") [attachOption] 1
    (by decide)).mpr (by decide)

/-- The debugged program never sees an option of its own of the same name. -/
theorem not_start_as_given :
    ¬ ∀ (program comm prog : CStr) (args : List CStr) (options : Nat), comm ≠ remoteDebugOption →
      prog ≠ attachOption →
      start (program :: (List.replicate options remoteDebugOption ++ comm :: prog :: args)) =
        some
          { remoteDebug := decide (0 < options)
            inferior := .exec prog (prog :: args)
            comm := comm } := by
  intro h
  have hrun := h (ascii "gdbserver") (ascii ":1234") (ascii "ls") [remoteDebugOption] 0
    (by decide) (by decide)
  revert hrun
  decide

end CommandLine
