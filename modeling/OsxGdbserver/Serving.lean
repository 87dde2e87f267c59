import OsxGdbserver.ServerRuns
import OsxGdbserver.BreakpointRuns

/-!
# How a packet can end

In the states in which the packet loop serves a packet there is one thread, and it is
the current one. For each handler it is shown which packets it leaves by `error`, which
make it leave its buffers, and that otherwise such a state is reached again.
-/

namespace Gdbserver

open Remote CString Ppc

variable {σ α : Type} {k : Kernel σ} {host : Signals.Host} {s : Server σ} {t : ThreadInfo}
  {rs : List (List Byte)}

/-- What `putpkt` has been called with, newest first. -/
def Server.replies (s : Server σ) : List (List Byte) :=
  s.log.filterMap fun
    | .putpkt text => some text
    | _ => none

/-- The threads are `t` alone, known by its process, and `t` is current. -/
structure OneThread (threads : List ThreadInfo) (current threadPtr : Option Nat)
    (extended : Bool) (sent rs : List (List Byte)) (t : ThreadInfo) : Prop where
  threads : threads = [t]
  current : current = some t.node
  id_eq : t.id = t.pid
  threadPtr : threadPtr = none
  plain : extended = false
  replies : sent = rs

/-- `s` is a state of the packet loop, with `t` as its thread, when the replies `rs` have
been sent. -/
def Serving (rs : List (List Byte)) (s : Server σ) (t : ThreadInfo) : Prop :=
  OneThread s.allThreads s.currentInferior s.threadPtr s.extendedProtocol s.replies rs t

namespace Serving

theorem nodup (h : Serving rs s t) : (s.allThreads.map ThreadInfo.node).Nodup := by
  rw [h.threads]
  exact List.nodup_singleton _

theorem live (h : Serving rs s t) : Live s t :=
  live_of_mem h.nodup (by rw [h.threads]; exact List.mem_singleton_self t) h.current

/-- An assignment to the thread that keeps what identifies it. -/
theorem assign (h : Serving rs s t) {f : ThreadInfo → ThreadInfo} (node : (f t).node = t.node)
    (id : (f t).id = t.id) (pid : (f t).pid = t.pid) :
    Serving rs (s.assignThread t.node f) (f t) where
  threads := by simp [Server.assignThread, h.threads]
  current := by rw [node]; exact h.current
  id_eq := by rw [id, pid]; exact h.id_eq
  threadPtr := h.threadPtr
  plain := h.plain
  replies := h.replies

theorem fill (h : Serving rs s t) : Serving rs (s.fill k t) (filled k s.os t) := by
  have hreplies : (s.fill k t).replies = s.replies :=
    filterMap_fillLog (fun _ _ _ => rfl) s.os t s.log
  have hassigned : Serving rs (s.assignThread t.node (filled k s.os)) (filled k s.os t) :=
    h.assign (filled_node s.os t) (filled_id s.os t) (filled_pid s.os t)
  exact { hassigned with replies := hreplies.trans h.replies }

theorem resumed (h : Serving rs s t) (request : PtraceRequest) (pid sig : Int) :
    Serving rs (s.resumed k request pid sig) (setValid false t) where
  threads := by simp [Server.resumed, Server.flush, Server.record, h.threads]
  current := h.current
  id_eq := h.id_eq
  threadPtr := h.threadPtr
  plain := h.plain
  replies :=
    (filterMap_flushLog (fun _ _ _ => rfl) s.allThreads s.os s.log).trans h.replies

theorem waited (h : Serving rs s t) {connectedWait : Bool} {s' : Server σ}
    (w : Waited (s.waiting connectedWait) t s') : ∃ t', Serving rs s' t' := by
  obtain ⟨os, port, status, sig, waiting, rfl⟩ := w
  have h : Serving rs (s.waiting connectedWait) t := h
  exact ⟨setPort port t, h.assign rfl rfl rfl⟩

theorem reported (h : Serving rs s t) : ∃ t', Serving rs (s.reported k t) t' := by
  unfold Server.reported
  split
  · exact ⟨filled k s.os t, h.fill⟩
  · exact ⟨t, h⟩

theorem desired (h : Serving rs s t) (useGeneral : Bool) : s.desired useGeneral = some t :=
  desired_singleton h.threads useGeneral

theorem select (h : Serving rs s t) (useGeneral : Bool) : s.select useGeneral = s := by
  have hcurrent : ({ s with currentInferior := some t.node } : Server σ) = s := by
    rw [← h.current]
  rw [Server.select, h.desired]
  exact hcurrent

theorem setDesiredInferior_run (h : Serving rs s t) (useGeneral : Bool) :
    (setDesiredInferior useGeneral).run s = .ok () s :=
  congrArg (EStateM.Result.ok ()) (h.select useGeneral)

end Serving

def Frames (s : Server σ) : Prop := (cstr s.ownBuf).length + 5 ≤ pbufsiz

/-- The accesses after which a store is not known to stay inside its buffer. An entry read
from beyond `reg_defs` says how much is stored. -/
def bufferFaults : List String := ["own_buf", "mem_buf", "regbuf", "buf2", "reg_defs"]

/-- A handler returns just if `answers`; it and the `putpkt` after it stay inside their
buffers just if `contained`; and but for a stray access the packet loop can go on. -/
def Verdict (rs : List (List Byte)) (p : Proc (Server σ) α) (answers contained : Prop)
    (s : Server σ) : Prop :=
  Proc.Ends p
    (fun _ s' => (∃ t, Serving rs s' t) ∧ answers ∧ (Frames s' ↔ contained))
    (fun e s' => ¬ answers ∧ (∃ t, Serving rs s' t) ∧
      match e with
      | .error _ => contained
      | .fault access => access ∈ bufferFaults ∧ ¬ contained
      | .exit _ => False) s

theorem frames_withText {text : List Byte} (h : text.length + 5 ≤ pbufsiz) :
    Frames (s.withText text) :=
  Nat.le_trans (Nat.add_le_add_right (cstr_stored_length_le text _) 5) h

namespace Verdict

theorem reply {text : List Byte} {answers contained : Prop} (h : Serving rs s t)
    (short : text.length + 5 ≤ pbufsiz) (answered : answers) (inside : contained) :
    Verdict rs (Gdbserver.reply text) answers contained s := by
  have hlen : text.length < pbufsiz := by
    unfold pbufsiz at short ⊢
    omega
  rw [Verdict, Proc.Ends.of_run (reply_run hlen)]
  exact ⟨⟨t, h⟩, answered, iff_of_true (frames_withText short) inside⟩

variable {answers contained : Prop}

theorem bind_run {β : Type} {p : Proc (Server σ) β} {q : β → Proc (Server σ) α} {b : β}
    {s' : Server σ} (run : p.run s = .ok b s') (h : Verdict rs (q b) answers contained s') :
    Verdict rs (p >>= q) answers contained s := by
  unfold Verdict
  rw [Proc.Ends.bind_iff, Proc.Ends.of_run run]
  exact h

theorem bind_error {β : Type} {p : Proc (Server σ) β} {q : β → Proc (Server σ) α}
    {message : String} {s' : Server σ} (run : p.run s = .error (.error message) s')
    (unanswered : ¬ answers) (h : ∃ t, Serving rs s' t) (inside : contained) :
    Verdict rs (p >>= q) answers contained s := by
  unfold Verdict
  rw [Proc.Ends.bind_iff, Proc.Ends.of_run_error run]
  exact ⟨unanswered, h, inside⟩

theorem bind_fault {β : Type} {p : Proc (Server σ) β} {q : β → Proc (Server σ) α}
    {access : String} {s' : Server σ} (run : p.run s = .error (.fault access) s')
    (h : Serving rs s' t) (stray : access ∈ bufferFaults) (unanswered : ¬ answers)
    (outside : ¬ contained) : Verdict rs (p >>= q) answers contained s := by
  unfold Verdict
  rw [Proc.Ends.bind_iff, Proc.Ends.of_run_error run]
  exact ⟨unanswered, ⟨t, h⟩, stray, outside⟩

theorem ite {c : Prop} [Decidable c] {p q : Proc (Server σ) α}
    (hp : c → Verdict rs p answers contained s) (hq : ¬ c → Verdict rs q answers contained s) :
    Verdict rs (if c then p else q) answers contained s := by
  split
  · exact hp ‹_›
  · exact hq ‹_›

theorem congr {p : Proc (Server σ) α} {answers' contained' : Prop}
    (h : Verdict rs p answers contained s) (ha : answers ↔ answers')
    (hc : contained ↔ contained') : Verdict rs p answers' contained' s := by
  rwa [← propext ha, ← propext hc]

theorem modify {f : Server σ → Server σ} (h : ∃ t, Serving rs (f s) t) (answered : answers)
    (frames : Frames (f s) ↔ contained) : Verdict rs (modify f) answers contained s :=
  ⟨h, answered, frames⟩

theorem error {message : String} (h : Serving rs s t) (unanswered : ¬ answers)
    (inside : contained) :
    Verdict rs (throw (.error message) : Proc (Server σ) α) answers contained s :=
  ⟨unanswered, ⟨t, h⟩, inside⟩

theorem fault {access : String} (h : Serving rs s t) (stray : access ∈ bufferFaults)
    (unanswered : ¬ answers) (outside : ¬ contained) :
    Verdict rs (throw (.fault access) : Proc (Server σ) α) answers contained s :=
  ⟨unanswered, ⟨t, h⟩, stray, outside⟩

end Verdict

theorem serving_withText (h : Serving rs s t) (text : List Byte) :
    Serving rs (s.withText text) t := h

theorem handleSet_verdict (h : Serving rs s t) : Verdict rs handleSet True True s := by
  apply Verdict.bind_run packet_run
  apply Verdict.ite
  · intro _
    refine Verdict.bind_run (reply_run (by decide)) ?_
    have hframes : Frames (s.withText (ascii "OK")) := frames_withText (by decide)
    exact Verdict.modify ⟨t, h⟩ trivial (iff_of_true hframes trivial)
  · intro _
    apply Verdict.ite
    · intro _
      exact Verdict.reply h (by decide) trivial trivial
    · intro _
      exact Verdict.reply h (by decide) trivial trivial

theorem handleHSetThread_verdict (h : Serving rs s t) :
    Verdict rs handleHSetThread True True s := by
  apply Verdict.bind_run packet_run
  apply Verdict.ite
  · intro _
    let s' : Server σ := { s with generalThread := (strtol (s.ownBuf.drop 2)).1 }
    have hs' : Serving rs s' t := h
    refine Verdict.bind_run (show _ = EStateM.Result.ok _ s' from rfl) ?_
    refine Verdict.bind_run (reply_run (by decide)) ?_
    have hrun := (serving_withText hs' (ascii "OK")).setDesiredInferior_run true
    rw [Verdict, Proc.Ends.of_run hrun]
    exact ⟨⟨t, hs'⟩, trivial, iff_of_true (frames_withText (by decide)) trivial⟩
  · intro _
    apply Verdict.ite
    · intro _
      exact Verdict.bind_run rfl (Verdict.reply h (by decide) trivial trivial)
    · intro _
      apply Verdict.ite
      · intro _
        exact Verdict.bind_run rfl (Verdict.reply h (by decide) trivial trivial)
      · intro _
        exact Verdict.reply h (by decide) trivial trivial

theorem Serving.nextThreadOf (h : Serving rs s t) : s.nextThreadOf t.node = none := by
  simp [Server.nextThreadOf, h.threads]

/-- After the only thread `thread_ptr` is `NULL` again. -/
theorem reportThread_verdict (h : Serving rs s t) :
    Verdict rs (reportThread t.node) True True s := by
  have hlen : (ch 'm' :: hexText t.id).length ≤ 9 := by
    have hhex := hexText_length t.id
    rw [List.length_cons]
    omega
  have hframes : (ch 'm' :: hexText t.id).length + 5 ≤ pbufsiz :=
    Nat.le_trans (Nat.add_le_add_right hlen 5) (by decide)
  refine Verdict.bind_run rfl ?_
  rw [h.live.threadAt]
  refine Verdict.bind_run (reply_run (Nat.lt_of_le_of_lt hlen (by decide))) ?_
  refine Verdict.modify ⟨t, ?_⟩ trivial (iff_of_true (frames_withText hframes) trivial)
  exact { h with threadPtr := (serving_withText h _).nextThreadOf }

theorem handleQuery_verdict (h : Serving rs s t) : Verdict rs handleQuery True True s := by
  have hhead : s.allThreads.head? = some t := by simp [h.threads]
  have hhex := hexText_length t.id
  apply Verdict.bind_run packet_run
  apply Verdict.ite
  · intro _
    refine Verdict.bind_run rfl ?_
    rw [hhead]
    refine Verdict.reply h ?_ trivial trivial
    rw [List.length_append, show (ascii "QC").length = 2 from rfl, pbufsiz]
    omega
  intro _
  apply Verdict.ite
  · intro _
    exact Verdict.reply h (by decide) trivial trivial
  intro _
  apply Verdict.ite
  · intro _
    exact Verdict.reply h (by decide) trivial trivial
  intro _
  apply Verdict.ite
  · intro _
    exact Verdict.reply h (by decide) trivial trivial
  intro _
  apply Verdict.ite
  · intro _
    refine Verdict.bind_run rfl ?_
    rw [hhead]
    exact reportThread_verdict h
  intro _
  apply Verdict.ite
  · intro _
    refine Verdict.bind_run rfl ?_
    rw [h.threadPtr]
    exact Verdict.reply h (by decide) trivial trivial
  · intro _
    exact Verdict.reply h (by decide) trivial trivial

/-- The only reply that is the packet itself. -/
theorem handledToggleDebug_verdict (h : Serving rs s t) :
    Verdict rs handledToggleDebug True (Frames s) s :=
  Verdict.modify ⟨t, h⟩ trivial Iff.rfl

theorem handlegReadRegs_verdict (h : Serving rs s t) :
    Verdict rs (handlegReadRegs k) True True s := by
  refine Verdict.bind_run (h.setDesiredInferior_run true) ?_
  refine Verdict.bind_run (registersToString_run h.live h.nodup) ?_
  refine Verdict.reply h.fill ?_ trivial trivial
  rw [convertIntToAscii_length, (filled k s.os t).regcache.registers_length]
  decide

theorem handleGWriteRegs_verdict (h : Serving rs s t) :
    Verdict rs (handleGWriteRegs k) ((decodedRegisters (s.ownBuf.drop 1)).2 = true) True s := by
  let bytes := (decodedRegisters (s.ownBuf.drop 1)).1
  have hstored : Serving rs ((s.fill k t).assignThread t.node (storeBytes bytes))
      (storeBytes bytes (filled k s.os t)) := by
    have hassigned := (h.fill (k := k)).assign (f := storeBytes bytes) rfl rfl rfl
    rwa [filled_node] at hassigned
  have hrun := registersFromString_run (k := k) h.live h.nodup (s.ownBuf.drop 1)
  refine Verdict.bind_run packet_run (Verdict.bind_run (h.setDesiredInferior_run true) ?_)
  cases hcomplete : (decodedRegisters (s.ownBuf.drop 1)).2 with
  | true =>
    simp only [hcomplete, if_true] at hrun
    exact Verdict.bind_run hrun (Verdict.reply hstored (by decide) rfl trivial)
  | false =>
    simp only [hcomplete, Bool.false_eq_true, if_false] at hrun
    exact Verdict.bind_error hrun Bool.false_ne_true ⟨_, hstored⟩ trivial

theorem regAt_cases (n : Nat) :
    (∃ r ∈ regDefs, regDefs[n]? = some r ∧ n < regDefs.length) ∨
      regDefs[n]? = none ∧ ¬ n < regDefs.length := by
  by_cases hn : n < regDefs.length
  · exact Or.inl ⟨_, List.getElem_mem hn, List.getElem?_eq_getElem hn, hn⟩
  · exact Or.inr ⟨List.getElem?_eq_none_iff.mpr (Nat.not_lt.mp hn), hn⟩

theorem handlepReadReg_verdict (h : Serving rs s t) :
    let inTable := (strtol (s.ownBuf.drop 1)).1 < regDefs.length
    Verdict rs (handlepReadReg k) inTable inTable s := by
  intro inTable
  refine Verdict.bind_run packet_run (Verdict.bind_run (h.setDesiredInferior_run true) ?_)
  apply Verdict.ite
  · intro hpos
    rcases regAt_cases (strtol (s.ownBuf.drop 1)).1.toNat with ⟨r, hr, hget, hn⟩ | ⟨hget, hn⟩
    · have hin : inTable := by
        change (strtol (s.ownBuf.drop 1)).1 < _
        omega
      refine Verdict.bind_run (collectRegisterAsString_run h.live h.nodup hget) ?_
      refine Verdict.reply h.fill ?_ hin hin
      have hsize := regDefs_size_le hr
      rw [convertIntToAscii_length, Regcache.registerData, List.length_take, pbufsiz]
      omega
    · have hout : ¬ inTable := by
        change ¬ (strtol (s.ownBuf.drop 1)).1 < _
        omega
      have hrun : (collectRegisterAsString k (strtol (s.ownBuf.drop 1)).1.toNat).run s =
          .error (.fault "reg_defs") s := by
        simp only [collectRegisterAsString, EStateM.run_bind, regAt_run_none hget]
      exact Verdict.bind_fault hrun h (by decide) hout hout
  · intro hneg
    have hin : inTable := by
      change (strtol (s.ownBuf.drop 1)).1 < _
      omega
    exact Verdict.reply h (by decide) hin hin

theorem convertAsciiToInt_length_le (p : List Byte) (n : Nat) :
    (convertAsciiToInt p n).1.length ≤ n := by
  induction n generalizing p with
  | zero => exact Nat.le_refl 0
  | succ n ih =>
    unfold convertAsciiToInt
    split
    · exact Nat.zero_le _
    · exact Nat.succ_le_succ (ih _)

/-- The bytes of a `P` packet's value, and whether all of them are there. -/
def pValue (buf : List Byte) (size : Nat) : List Byte × Bool :=
  let q := (strtol (buf.drop 1)).2
  convertAsciiToInt (if deref q = ch '=' then q.tail else q) (size / 8)

/-- What `P` needs of its packet: a negative number is refused without another look. -/
def pAnswers (buf : List Byte) : Prop :=
  let regno := (strtol (buf.drop 1)).1
  0 ≤ regno → ∃ r, regDefs[regno.toNat]? = some r ∧ (pValue buf r.size).2 = true

theorem handlePWriteReg_verdict (h : Serving rs s t) :
    Verdict rs handlePWriteReg (pAnswers s.ownBuf)
      ((strtol (s.ownBuf.drop 1)).1 < regDefs.length) s := by
  refine Verdict.bind_run packet_run (Verdict.bind_run (h.setDesiredInferior_run true) ?_)
  apply Verdict.ite
  · intro (hpos : (strtol (s.ownBuf.drop 1)).1 ≥ 0)
    rcases regAt_cases (strtol (s.ownBuf.drop 1)).1.toNat with ⟨r, hr, hget, hn⟩ | ⟨hget, hn⟩
    · have hin : (strtol (s.ownBuf.drop 1)).1 < regDefs.length := by omega
      have hsize := regDefs_size_le hr
      have hshort : ¬ (pValue s.ownBuf r.size).1.length > regbufSize := by
        have hle := convertAsciiToInt_length_le
          (let q := (strtol (s.ownBuf.drop 1)).2; if deref q = ch '=' then q.tail else q)
          (r.size / 8)
        unfold regbufSize
        exact Nat.not_lt.mpr (Nat.le_trans hle (by omega))
      refine Verdict.bind_run (regAt_run hget) ?_
      apply Verdict.ite
      · intro hlong
        exact absurd hlong hshort
      intro _
      apply Verdict.ite
      · intro hcomplete
        refine Verdict.bind_run (supplyRegister_run h.live hget _) ?_
        exact Verdict.reply (h.assign (f := supply r _) rfl rfl rfl) (by decide)
          (fun _ => ⟨r, hget, hcomplete⟩) hin
      · intro hincomplete
        refine Verdict.error h ?_ hin
        intro hanswers
        obtain ⟨r', hget', hcomplete⟩ := hanswers hpos
        rw [hget, Option.some.injEq] at hget'
        subst hget'
        exact hincomplete hcomplete
    · refine Verdict.bind_fault (regAt_run_none hget) h (by decide) ?_ (by omega)
      intro hanswers
      obtain ⟨r, hget', _⟩ := hanswers hpos
      rw [hget] at hget'
      cases hget'
  · intro (hneg : ¬ (strtol (s.ownBuf.drop 1)).1 ≥ 0)
    exact Verdict.reply h (by decide) (fun hpos => absurd hpos hneg) (by omega)

/-- A function of `mem-break.c` touches only the list of breakpoints and the target. -/
theorem withMemory_ends (h : Serving rs s t)
    {p : Proc (MemBreak.MemState (Darwin.TargetState σ)) α} {P : α → Prop}
    (hp : ∀ m, Proc.Ends p (fun a _ => P a) (fun _ _ => False) m) :
    ∃ a s', (withMemory p).run s = .ok a s' ∧ P a ∧ Serving rs s' t := by
  have hm := hp (s.memState t)
  unfold Proc.Ends at hm
  cases hrun : p.run (s.memState t) with
  | ok a m =>
    rw [hrun] at hm
    refine ⟨a, s.putMemory m, ?_, hm, h⟩
    rw [withMemory_run h.live, hrun]
  | error e m =>
    rw [hrun] at hm
    exact hm.elim

theorem readInferiorMemory_ends (addr : Int) (len : Nat)
    (m : MemBreak.MemState (Darwin.TargetState σ)) :
    Proc.Ends (MemBreak.readInferiorMemory (Darwin.memTarget k) addr len)
      (fun bytes _ => bytes.length = len) (fun _ _ => False) m := by
  rw [Proc.Ends.of_run (MemBreak.readInferiorMemory_run (Darwin.memTarget k) m addr len)]
  exact (MemBreak.checkMemRead_length _ addr _ _).trans
    ((Darwin.memTarget k).readMemory_length addr len m.target)

theorem writeInferiorMemory_ends (addr : Int) (bytes : List Byte)
    (m : MemBreak.MemState (Darwin.TargetState σ)) :
    Proc.Ends (MemBreak.writeInferiorMemory (Darwin.memTarget k) addr bytes)
      (fun _ _ => True) (fun _ _ => False) m := trivial

theorem setBreakpointAt_ends (addr : Int) (m : MemBreak.MemState (Darwin.TargetState σ)) :
    Proc.Ends (MemBreak.setBreakpointAt (Darwin.memTarget k) addr .null)
      (fun _ _ => True) (fun _ _ => False) m := trivial

theorem unlink_eq_none {node : Nat} {bps : List MemBreak.Breakpoint}
    (h : MemBreak.unlink node bps = none) : ∀ b ∈ bps, b.node ≠ node := by
  induction bps with
  | nil => simp
  | cons c rest ih =>
    unfold MemBreak.unlink at h
    split at h
    · cases h
    · rename_i hne
      intro b hb
      rcases List.mem_cons.mp hb with rfl | hb
      · exact hne
      · exact ih (Option.map_eq_none_iff.mp h) b hb

theorem deleteBreakpointAt_ends (addr : Int) (m : MemBreak.MemState (Darwin.TargetState σ)) :
    Proc.Ends (MemBreak.deleteBreakpointAt (Darwin.memTarget k) addr)
      (fun _ _ => True) (fun _ _ => False) m := by
  cases hfind : MemBreak.findBreakpointAt addr m.breakpoints with
  | none =>
    rw [Proc.Ends.of_run (MemBreak.deleteBreakpointAt_none (Darwin.memTarget k) hfind)]
    trivial
  | some bp =>
    have hunlink : MemBreak.unlink bp.node m.breakpoints ≠ none := fun hnone =>
      unlink_eq_none hnone bp (List.mem_of_find?_eq_some hfind) rfl
    obtain ⟨rest, hrest⟩ := Option.ne_none_iff_exists'.mp hunlink
    simp only [MemBreak.deleteBreakpointAt, MemBreak.deleteBreakpoint, Proc.Ends.bind_iff,
      Proc.Ends.get_iff, hfind, hrest]
    trivial

theorem tohex_ne_zero {nib : Nat} (h : nib < 16) : tohex nib ≠ 0 := by
  have hlt : (if nib < 10 then 0x30 + nib else 0x61 + nib - 10) < 256 := by
    split <;> omega
  intro hzero
  have hnat : (tohex nib).toNat = 0 := congrArg UInt8.toNat hzero
  rw [tohex, UInt8.toNat_ofNat_of_lt' hlt] at hnat
  split at hnat <;> omega

theorem zero_not_mem_convertIntToAscii (bytes : List Byte) : 0 ∉ convertIntToAscii bytes := by
  intro hmem
  obtain ⟨b, _, hb⟩ := List.mem_flatMap.mp hmem
  have hhigh : b.toNat / 16 < 16 := by
    have := b.toNat_lt
    omega
  rcases List.mem_pair.mp hb with hb | hb
  · exact tohex_ne_zero hhigh hb.symm
  · exact tohex_ne_zero (Nat.mod_lt _ (by decide)) hb.symm

/-- An `m` packet is well formed, and its length small enough for the digits of its bytes. -/
def mAnswers (buf : List Byte) : Prop :=
  ∃ addr len, decodeReadPacket (buf.drop 1) = some (addr, len) ∧ 2 * len < pbufsiz

/-- The length of an `m` packet, if it has one, leaves room for the frame of the reply. -/
def mContained (buf : List Byte) : Prop :=
  ∀ addr len, decodeReadPacket (buf.drop 1) = some (addr, len) → 2 * len + 5 ≤ pbufsiz

theorem handlemReadMem_verdict (h : Serving rs s t) :
    Verdict rs (handlemReadMem k) (mAnswers s.ownBuf) (mContained s.ownBuf) s := by
  refine Verdict.bind_run packet_run ?_
  cases hdecode : decodeReadPacket (s.ownBuf.drop 1) with
  | none =>
    refine Verdict.bind_error rfl ?_ ⟨t, h⟩ ?_
    · rintro ⟨addr, len, hsome, _⟩
      rw [hdecode] at hsome
      cases hsome
    · intro addr len hsome
      rw [hdecode] at hsome
      cases hsome
  | some request =>
    obtain ⟨addr, len⟩ := request
    have hanswers : mAnswers s.ownBuf ↔ 2 * len < pbufsiz := by
      simp only [mAnswers, hdecode, Option.some.injEq, Prod.mk.injEq]
      constructor
      · rintro ⟨a, n, ⟨_, rfl⟩, hlt⟩
        exact hlt
      · exact fun hlt => ⟨addr, len, ⟨rfl, rfl⟩, hlt⟩
    have hcontained : mContained s.ownBuf ↔ 2 * len + 5 ≤ pbufsiz := by
      simp only [mContained, hdecode, Option.some.injEq, Prod.mk.injEq]
      exact ⟨fun hall => hall addr len ⟨rfl, rfl⟩, fun hle a n heq => heq.2 ▸ hle⟩
    refine Verdict.bind_run rfl (Verdict.congr ?_ hanswers.symm hcontained.symm)
    apply Verdict.ite
    · intro (hlong : len > memBufSize)
      unfold memBufSize at hlong
      unfold pbufsiz
      exact Verdict.fault h (by decide) (by omega) (by omega)
    intro _
    obtain ⟨bytes, s', hrun, hlen, hs'⟩ := withMemory_ends h (readInferiorMemory_ends addr len)
    have htext : (convertIntToAscii bytes).length = 2 * len := by
      rw [convertIntToAscii_length, hlen]
    refine Verdict.bind_run hrun ?_
    by_cases hfits : 2 * len < pbufsiz
    · have hframes : Frames (s'.withText (convertIntToAscii bytes)) ↔ 2 * len + 5 ≤ pbufsiz := by
        change (cstr (convertIntToAscii bytes ++ 0 :: _)).length + 5 ≤ pbufsiz ↔ _
        rw [cstr_append_nul (zero_not_mem_convertIntToAscii bytes), htext]
      rw [Verdict, Proc.Ends.of_run (reply_run (by rw [htext]; exact hfits))]
      exact ⟨⟨t, hs'⟩, hfits, hframes⟩
    · rw [Verdict,
        Proc.Ends.of_run_error (reply_run_long (by rw [htext]; exact Nat.not_lt.mp hfits))]
      exact ⟨hfits, ⟨t, hs'⟩, by decide, by omega⟩

theorem cstr_cons_length {c : Byte} (h : c ≠ 0) (p : List Byte) :
    (cstr (c :: p)).length = (cstr p).length + 1 := by
  simp [cstr, h]

theorem ne_zero_of_hexDigit {c : Byte} {nib : Nat} (h : hexDigit c = some nib) : c ≠ 0 := by
  rintro rfl
  rw [hexDigit_zero] at h
  cases h

theorem convertAsciiToInt_length_cstr (p : List Byte) (n : Nat) :
    2 * (convertAsciiToInt p n).1.length ≤ (cstr p).length := by
  induction n generalizing p with
  | zero => exact Nat.zero_le _
  | succ n ih =>
    unfold convertAsciiToInt
    split
    · exact Nat.zero_le _
    · rename_i b hpair
      obtain ⟨high, hhigh, hrest⟩ := Option.bind_eq_some_iff.mp hpair
      obtain ⟨low, hlow, _⟩ := Option.map_eq_some_iff.mp hrest
      rcases p with _ | ⟨a, _ | ⟨b, p⟩⟩
      · exact absurd rfl (ne_zero_of_hexDigit hhigh)
      · exact absurd rfl (ne_zero_of_hexDigit hlow)
      · have hih := ih p
        have ha : a ≠ 0 := ne_zero_of_hexDigit hhigh
        have hb : b ≠ 0 := ne_zero_of_hexDigit hlow
        rw [cstr_cons_length ha, cstr_cons_length hb]
        simp only [List.length_cons, List.drop_succ_cons, List.drop_zero]
        omega

theorem decodeField_cstr {stop : Byte} (hstop : stop ≠ 0) {w : Nat} {p q : List Byte}
    {value result : Nat} (h : decodeField stop w p value = some (result, q)) :
    (cstr q).length ≤ (cstr p).length := by
  induction p generalizing value with
  | nil => cases h
  | cons c p ih =>
    unfold decodeField at h
    split at h
    · rename_i hc
      cases h
      rw [cstr_cons_length (hc ▸ hstop)]
      omega
    · obtain ⟨nib, hnib, hrest⟩ := Option.bind_eq_some_iff.mp h
      have hih := ih hrest
      rw [cstr_cons_length (ne_zero_of_hexDigit hnib)]
      omega

theorem decodeWritePacket_length {p : List Byte} {addr : Int} {len : Nat} {bytes : List Byte}
    {complete : Bool} (h : decodeWritePacket p = some (addr, len, bytes, complete)) :
    2 * bytes.length ≤ (cstr p).length := by
  obtain ⟨⟨bits, q⟩, hq, hrest⟩ := Option.bind_eq_some_iff.mp h
  obtain ⟨⟨n, data⟩, hdata, heq⟩ := Option.map_eq_some_iff.mp hrest
  have hqle := decodeField_cstr (by decide) hq
  have hdatale := decodeField_cstr (by decide) hdata
  have hbytes := convertAsciiToInt_length_cstr data n
  simp only [Prod.mk.injEq] at heq
  obtain ⟨_, _, hpair⟩ := heq
  rw [hpair] at hbytes
  dsimp only at hbytes
  omega

def MAnswers (buf : List Byte) : Prop :=
  ∃ addr len bytes, decodeWritePacket (buf.drop 1) = some (addr, len, bytes, true)

theorem handleMWriteMem_verdict (h : Serving rs s t)
    (fits : (cstr (s.ownBuf.drop 1)).length ≤ pbufsiz) :
    Verdict rs (handleMWriteMem k) (MAnswers s.ownBuf) True s := by
  refine Verdict.bind_run packet_run ?_
  cases hdecode : decodeWritePacket (s.ownBuf.drop 1) with
  | none =>
    refine Verdict.bind_error rfl ?_ ⟨t, h⟩ trivial
    rintro ⟨addr, len, bytes, hsome⟩
    rw [hdecode] at hsome
    cases hsome
  | some request =>
    obtain ⟨addr, len, bytes, complete⟩ := request
    refine Verdict.bind_run rfl ?_
    apply Verdict.ite
    · intro (hlong : bytes.length > memBufSize)
      have hle := decodeWritePacket_length hdecode
      unfold memBufSize at hlong
      unfold pbufsiz at fits
      omega
    intro _
    apply Verdict.ite
    · intro (hcomplete : complete = true)
      have hanswers : MAnswers s.ownBuf := ⟨addr, len, bytes, hcomplete ▸ hdecode⟩
      obtain ⟨errno, s', hrun, _, hs'⟩ := withMemory_ends h (writeInferiorMemory_ends addr bytes)
      refine Verdict.bind_run hrun ?_
      apply Verdict.ite
      · intro _
        exact Verdict.reply hs' (by decide) hanswers trivial
      · intro _
        exact Verdict.reply hs' (by decide) hanswers trivial
    · intro (hincomplete : ¬ complete = true)
      refine Verdict.error h ?_ trivial
      rintro ⟨addr', len', bytes', hsome⟩
      rw [hdecode] at hsome
      cases hsome
      exact hincomplete rfl

theorem handleTThreadAlive_verdict (h : Serving rs s t) :
    Verdict rs (handleTThreadAlive k) True True s := by
  refine Verdict.bind_run packet_run (Verdict.bind_run rfl ?_)
  apply Verdict.ite
  · intro _
    exact Verdict.reply h (by decide) trivial trivial
  · intro _
    exact Verdict.reply h (by decide) trivial trivial

theorem handleZInsertBp_verdict (h : Serving rs s t) :
    Verdict rs (handleZInsertBp k) True True s := by
  refine Verdict.bind_run packet_run ?_
  apply Verdict.ite
  · intro _
    obtain ⟨_, s', hrun, _, hs'⟩ := withMemory_ends h (setBreakpointAt_ends _)
    exact Verdict.bind_run hrun (Verdict.reply hs' (by decide) trivial trivial)
  · intro _
    exact Verdict.reply h (by decide) trivial trivial

theorem handlezRemoveBp_verdict (h : Serving rs s t) :
    Verdict rs (handlezRemoveBp k) True True s := by
  refine Verdict.bind_run packet_run ?_
  apply Verdict.ite
  · intro _
    obtain ⟨_, s', hrun, _, hs'⟩ := withMemory_ends h (deleteBreakpointAt_ends _)
    exact Verdict.bind_run hrun (Verdict.reply hs' (by decide) trivial trivial)
  · intro _
    exact Verdict.reply h (by decide) trivial trivial

def resumeWaits (k : Kernel σ) (s : Server σ) (t : ThreadInfo) (step : Bool) (sig : Int) : Bool :=
  waits k s.currentTask t.pid (s.resumed k (resumeRequest step) t.pid sig).os

theorem prepareResumeReply_verdict (h : Serving rs s t) :
    Verdict rs (prepareResumeReply k host) True True s := by
  have hlen := resumeReply_length k host s t
  obtain ⟨t', h'⟩ := h.reported (k := k)
  rw [Verdict, Proc.Ends.of_run (prepareResumeReply_run k host h.live h.nodup)]
  refine ⟨⟨t', h'⟩, trivial, iff_of_true (frames_withText ?_) trivial⟩
  exact Nat.le_trans (Nat.add_le_add_right hlen 5) (by decide)

theorem waitAndReport_verdict (h : Serving rs s t) (step : Bool) (sig : Int) :
    Verdict rs (do mywait k true; prepareResumeReply k host) (resumeWaits k s t step sig = true)
      True (s.resumed k (resumeRequest step) t.pid sig) := by
  have h₁ : Serving rs (s.resumed k (resumeRequest step) t.pid sig) (setValid false t) :=
    h.resumed _ _ _
  unfold Verdict
  rw [Proc.Ends.bind_iff]
  refine (mywait_ends h₁.live h₁.nodup true).imp ?_ ?_
  · rintro _ s₂ ⟨hwaits, hwaited⟩
    obtain ⟨t₂, h₂⟩ := h₁.waited hwaited
    exact (prepareResumeReply_verdict h₂).congr (iff_of_true trivial hwaits) Iff.rfl
  · rintro _ s₂ ⟨hwaits, ⟨message, rfl⟩, hwaited⟩
    refine ⟨?_, h₁.waited hwaited, trivial⟩
    intro hanswers
    exact Bool.false_ne_true (hwaits.symm.trans hanswers)

theorem resumeAndReport_verdict (h : Serving rs s t) (step : Bool) (sig : Nat) :
    Verdict rs (resumeAndReport k host step sig) (resumeWaits k s t step sig = true) True s :=
  Verdict.bind_run (h.setDesiredInferior_run false)
    (Verdict.bind_run (myresume_run h.live h.nodup h.id_eq step sig)
      (waitAndReport_verdict h step sig))

/-- Both digits of the signal are there, and the inferior can be waited for. -/
def signalAnswers (k : Kernel σ) (host : Signals.Host) (s : Server σ) (t : ThreadInfo)
    (step : Bool) : Prop :=
  ∃ sig, signalByte host (s.ownBuf.drop 1) = some sig ∧ resumeWaits k s t step sig = true

theorem signalHandler_verdict (h : Serving rs s t) (step : Bool) :
    Verdict rs (do
        let sig ← parseSignalByte host ((← packet).drop 1)
        resumeAndReport k host step sig)
      (signalAnswers k host s t step) True s := by
  have hrun := parseSignalByte_run host (s.ownBuf.drop 1) s
  refine Verdict.bind_run packet_run ?_
  cases hsig : signalByte host (s.ownBuf.drop 1) with
  | none =>
    rw [hsig] at hrun
    refine Verdict.bind_error hrun ?_ ⟨t, h⟩ trivial
    rintro ⟨sig, hsome, _⟩
    rw [hsig] at hsome
    cases hsome
  | some sig =>
    rw [hsig] at hrun
    refine Verdict.bind_run hrun ((resumeAndReport_verdict h step sig).congr ?_ Iff.rfl)
    constructor
    · exact fun hwaits => ⟨sig, hsig, hwaits⟩
    · rintro ⟨sig', hsome, hwaits⟩
      rw [hsig, Option.some.injEq] at hsome
      exact hsome ▸ hwaits

/-- The default action of a `vCont` packet is for every thread. -/
theorem parseActions_default {fuel : Nat} {p : List Byte} {entries : List ThreadResume}
    {action : ThreadResume} (haction : action.thread = -1)
    {result : List ThreadResume × ThreadResume}
    (h : parseActions host fuel p entries action = some result) : result.2.thread = -1 := by
  induction fuel generalizing p entries action with
  | zero =>
    cases h
    exact haction
  | succ fuel ih =>
    unfold parseActions at h
    split at h
    · cases h
      exact haction
    · obtain ⟨⟨step, sig, q⟩, _, hrest⟩ := Option.bind_eq_some_iff.mp h
      dsimp only at hrest
      split at hrest
      · exact ih rfl hrest
      · split at hrest
        · split at hrest
          · cases hrest
          · split at hrest
            · cases hrest
            · exact ih haction hrest
        · exact ih haction hrest

theorem resumeChoice_append (pid : Int) (entries : List ThreadResume) {action : ThreadResume}
    (haction : action.thread = -1) :
    ∃ choice, resumeChoice pid (entries ++ [action]) = some choice := by
  induction entries with
  | nil => exact ⟨(action.step, action.sig), by simp [resumeChoice, haction]⟩
  | cons r rest ih =>
    unfold resumeChoice
    simp only [List.cons_append]
    split
    · exact ⟨_, rfl⟩
    · exact ih

theorem resumeInfo_choice {buf : List Byte} {info : List ThreadResume}
    (h : resumeInfo host buf = some info) (pid : Int) :
    ∃ choice, resumeChoice pid info = some choice := by
  obtain ⟨⟨entries, action⟩, hparse, rfl⟩ := Option.map_eq_some_iff.mp h
  exact resumeChoice_append pid entries (parseActions_default rfl hparse)

def vContChoice (host : Signals.Host) (buf : List Byte) (pid : Int) : Option (Bool × Int) :=
  (resumeInfo host buf).bind (resumeChoice pid)

def vContAnswers (k : Kernel σ) (host : Signals.Host) (s : Server σ) (t : ThreadInfo) : Prop :=
  ∀ step sig, vContChoice host s.ownBuf t.pid = some (step, sig) →
    resumeWaits k s t step sig = true

/-- A `vCont` packet that parses resumes the inferior and waits for it. -/
theorem handleVCont_run_some (h : Serving rs s t) {info : List ThreadResume}
    (hinfo : resumeInfo host s.ownBuf = some info) :
    ∃ contThread step sig, resumeChoice t.pid info = some (step, sig) ∧
      (handleVCont k host).run s =
        (do mywait k true; prepareResumeReply k host : Proc (Server σ) Unit).run
          ({ s with contThread := contThread }.resumed k (resumeRequest step) t.pid sig) := by
  obtain ⟨⟨step, sig⟩, hchoice⟩ := resumeInfo_choice hinfo t.pid
  let contThread :=
    if countActions s.ownBuf = 1 ∧ (info.head?.map ThreadResume.thread).getD (-1) ≠ -1
    then (info.head?.map ThreadResume.thread).getD (-1) else -1
  let s₁ : Server σ := { s with contThread := contThread }
  have h₁ : Serving rs s₁ t := h
  refine ⟨contThread, step, sig, hchoice, ?_⟩
  have hmodify : (modify fun s => { s with contThread := contThread } :
      Proc (Server σ) PUnit).run s = .ok PUnit.unit s₁ := rfl
  rw [handleVCont, EStateM.run_bind, packet_run]
  dsimp only
  rw [hinfo]
  dsimp only
  rw [EStateM.run_bind, hmodify]
  dsimp only
  rw [EStateM.run_bind, h₁.setDesiredInferior_run false]
  dsimp only
  rw [EStateM.run_bind, darwinResume_run h₁.live h₁.nodup hchoice]

theorem handleVCont_verdict (h : Serving rs s t) :
    Verdict rs (handleVCont k host) (vContAnswers k host s t) True s := by
  cases hinfo : resumeInfo host s.ownBuf with
  | none =>
    refine Verdict.bind_run packet_run ?_
    dsimp only
    rw [hinfo]
    refine Verdict.reply h (by decide) ?_ trivial
    intro step sig hsome
    simp [vContChoice, hinfo] at hsome
  | some info =>
    obtain ⟨contThread, step, sig, hchoice, hrun⟩ := handleVCont_run_some (k := k) h hinfo
    have hanswers : resumeWaits k s t step sig = true ↔ vContAnswers k host s t := by
      simp only [vContAnswers, vContChoice, hinfo, Option.bind_some, hchoice, Option.some.injEq,
        Prod.mk.injEq]
      exact ⟨fun hwaits _ _ heq => heq.1 ▸ heq.2 ▸ hwaits, fun hall => hall step sig ⟨rfl, rfl⟩⟩
    have h₁ : Serving rs { s with contThread := contThread } t := h
    have hwait : Verdict rs (do mywait k true; prepareResumeReply k host) _ True _ :=
      (waitAndReport_verdict h₁ step sig).congr hanswers Iff.rfl
    unfold Verdict Proc.Ends at hwait ⊢
    rwa [hrun]

theorem handleVRequests_verdict (h : Serving rs s t) :
    Verdict rs (handleVRequests k host)
      ((ascii "vCont;").isPrefixOf s.ownBuf = true → vContAnswers k host s t) True s := by
  refine Verdict.bind_run packet_run ?_
  apply Verdict.ite
  · intro hprefix
    refine (handleVCont_verdict h).congr ?_ Iff.rfl
    exact ⟨fun hanswers _ => hanswers, fun hanswers => hanswers hprefix⟩
  · intro hprefix
    apply Verdict.ite
    · intro _
      exact Verdict.reply h (by decide) (fun hpre => absurd hpre hprefix) trivial
    · intro _
      exact Verdict.reply h (by decide) (fun hpre => absurd hpre hprefix) trivial

/-- The packets whose handler returns. -/
def Answers (k : Kernel σ) (host : Signals.Host) (s : Server σ) (t : ThreadInfo) : Prop :=
  match command s with
  | 'G' => (decodedRegisters (s.ownBuf.drop 1)).2 = true
  | 'p' => (strtol (s.ownBuf.drop 1)).1 < regDefs.length
  | 'P' => pAnswers s.ownBuf
  | 'm' => mAnswers s.ownBuf
  | 'M' => MAnswers s.ownBuf
  | 'C' => signalAnswers k host s t false
  | 'S' => signalAnswers k host s t true
  | 'c' => resumeWaits k s t false 0 = true
  | 's' => resumeWaits k s t true 0 = true
  | 'v' => (ascii "vCont;").isPrefixOf s.ownBuf = true → vContAnswers k host s t
  | _ => True

/-- The packets that keep the server inside its buffers. -/
def Contained (s : Server σ) : Prop :=
  match command s with
  | 'p' => (strtol (s.ownBuf.drop 1)).1 < regDefs.length
  | 'P' => (strtol (s.ownBuf.drop 1)).1 < regDefs.length
  | 'm' => mContained s.ownBuf
  | 'd' => Frames s
  | _ => True

theorem Verdict.thenReturn {p : Proc (Server σ) Unit} {answers contained : Prop} {b : Bool}
    (h : Verdict rs p answers contained s) :
    Verdict rs (do p; return b) answers contained s := by
  unfold Verdict at h ⊢
  rw [Proc.Ends.bind_iff]
  exact h.imp (fun _ _ hok => hok) (fun _ _ herror => herror)

theorem handleRRestart_verdict (h : Serving rs s t) :
    Verdict rs (handleRRestart k) True True s := by
  refine Verdict.bind_run rfl ?_
  rw [if_neg (by rw [h.plain]; exact Bool.false_ne_true)]
  exact (Verdict.reply h (by decide) trivial trivial).thenReturn

theorem handlePacket_verdict (h : Serving rs s t)
    (fits : command s = 'M' → (cstr (s.ownBuf.drop 1)).length ≤ pbufsiz)
    (notD : command s ≠ 'D') (notk : command s ≠ 'k') :
    Verdict rs (handlePacket k host) (Answers k host s t) (Contained s) s := by
  refine Verdict.bind_run packet_run ?_
  unfold Answers Contained
  change Verdict rs (dispatch k host (command s)) _ _ s
  generalize hc : command s = c at notD notk
  unfold dispatch
  split
  · exact (handleQuery_verdict h).thenReturn
  · exact (handleSet_verdict h).thenReturn
  · exact (handledToggleDebug_verdict h).thenReturn
  · exact absurd rfl notD
  · exact (Verdict.reply h (by decide) trivial trivial).thenReturn
  · exact (prepareResumeReply_verdict h).thenReturn
  · exact (handleHSetThread_verdict h).thenReturn
  · exact (handlegReadRegs_verdict h).thenReturn
  · exact (handleGWriteRegs_verdict h).thenReturn
  · exact (handlepReadReg_verdict h).thenReturn
  · exact (handlePWriteReg_verdict h).thenReturn
  · exact (handlemReadMem_verdict h).thenReturn
  · exact (handleMWriteMem_verdict h (fits hc)).thenReturn
  · exact (signalHandler_verdict h false).thenReturn
  · exact (signalHandler_verdict h true).thenReturn
  · exact (resumeAndReport_verdict h false 0).thenReturn
  · exact (resumeAndReport_verdict h true 0).thenReturn
  · exact absurd rfl notk
  · exact (handleTThreadAlive_verdict h).thenReturn
  · exact handleRRestart_verdict h
  · exact (handleVRequests_verdict h).thenReturn
  · exact (handleZInsertBp_verdict h).thenReturn
  · exact (handlezRemoveBp_verdict h).thenReturn
  · have hdefault : Verdict rs (do reply []; return false) True True s :=
      (Verdict.reply h (by decide) trivial trivial).thenReturn
    refine hdefault.congr ?_ ?_
    · split <;> trivial
    · split <;> trivial

end Gdbserver
