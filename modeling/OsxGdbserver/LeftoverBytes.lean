import OsxGdbserver.LinkFrames
import OsxGdbserver.PacketLoop
import OsxGdbserver.MemoryPackets
import OsxGdbserver.VContRefusals
import OsxGdbserver.Lib.TwoRuns

/-!
# Packets and the bytes left over behind them

Two servers that differ only behind the NUL of the packet in `own_buf` do the same with
it, except with `Z0` and `z0` alone: their address is read from the character behind the
NUL on.
-/

namespace Gdbserver

open Remote CString Ppc

variable {σ α : Type} {k : Kernel σ} {host : Signals.Host} {s s' : Server σ} {c : Byte}
  {body : List Byte}

def setBuffer (buf : List Byte) (l : Link) : Link :=
  { l with session := { l.session with ownBuf := buf } }

/-- `own_buf` holds the same text in both servers, which are equal but for what lies behind
its NUL. -/
def Holding (text : List Byte) (s s' : Server σ) : Prop :=
  ∃ stale stale', s.ownBuf = text ++ 0 :: stale ∧
    s' = s.updateLink (setBuffer (text ++ 0 :: stale'))

def SameText (s s' : Server σ) : Prop := ∃ text, Holding text s s'

namespace SameText

theorem blind {p : Proc (Server σ) α} (h : ∀ buf, Blind (setBuffer buf) p) :
    Proc.Respects SameText p := by
  rintro s _ ⟨text, stale, stale', hbuf, rfl⟩
  have hkeeps : Proc.Keeps Server.ownBuf p :=
    Proc.Commutes.keeps (fun buf => Server.updateLink (setBuffer buf)) h (fun _ => rfl)
      fun _ _ => rfl
  have hown := hkeeps s
  rw [h (text ++ 0 :: stale') s]
  cases hrun : p.run s with
  | ok a t =>
    rw [hrun] at hown
    exact .ok a ⟨text, stale, stale', hown.trans hbuf, rfl⟩
  | error e t =>
    rw [hrun] at hown
    exact .error e ⟨text, stale, stale', hown.trans hbuf, rfl⟩

theorem get_bind {q : Server σ → Proc (Server σ) α}
    (same : ∀ buf s, q (s.updateLink (setBuffer buf)) = q s)
    (hq : ∀ s, Proc.Respects SameText (q s)) : Proc.Respects SameText (get >>= q) := by
  refine .get_bind ?_ hq
  rintro s _ ⟨text, stale, stale', _, rfl⟩
  exact (same _ s).symm

theorem reply (text : List Byte) :
    Proc.Respects SameText (reply text : Proc (Server σ) Unit) := by
  refine .ite (.modify ?_) (.throw _)
  rintro s _ ⟨held, stale, stale', hbuf, rfl⟩
  exact ⟨text, _, (held ++ 0 :: stale').drop (text.length + 1), rfl, rfl⟩

theorem reportThread (node : Nat) :
    Proc.Respects SameText (reportThread node : Proc (Server σ) Unit) := by
  refine get_bind (fun _ _ => rfl) fun s => ?_
  cases s.threadAt node with
  | none => exact .throw _
  | some t => exact .bind (reply _) fun _ => blind fun _ => .modify fun _ => rfl

theorem prepareResumeReply : Proc.Respects SameText (prepareResumeReply k host) :=
  get_bind (fun _ _ => rfl) fun _ =>
    .ite (.bind (blind fun _ => expediteText_blind) fun _ => reply _) (reply _)

theorem waitAndReport :
    Proc.Respects SameText (do mywait k true; Gdbserver.prepareResumeReply k host) :=
  .bind (blind fun _ => mywait_blind true) fun _ => prepareResumeReply

theorem resumeAndReport (step : Bool) (sig : Nat) :
    Proc.Respects SameText (resumeAndReport k host step sig) :=
  .bind (blind fun _ => setDesiredInferior_blind false) fun _ =>
    .bind (blind fun _ => myresume_blind step sig) fun _ => waitAndReport

theorem handlegReadRegs : Proc.Respects SameText (handlegReadRegs k) :=
  .bind (blind fun _ => setDesiredInferior_blind true) fun _ =>
    .bind (blind fun _ => .bind getRegcache_blind fun _ => .pure _) fun _ => reply _

theorem restart : Proc.Respects SameText (restart k) :=
  .bind (blind fun _ => darwinKill_blind) fun _ => .bind (reply _) fun _ =>
    .bind (blind fun _ => startInferior_blind) fun _ => .pure _

theorem handlekKill : Proc.Respects SameText (handlekKill k) :=
  .bind (blind fun _ => darwinKill_blind) fun _ => get_bind (fun _ _ => rfl) fun _ =>
    .ite (.bind (reply _) fun _ => .bind (blind fun _ => startInferior_blind) fun _ => .pure _)
      (.throw _)

theorem handleRRestart : Proc.Respects SameText (handleRRestart k) :=
  get_bind (fun _ _ => rfl) fun _ => .ite restart (.bind (reply _) fun _ => .pure _)

theorem sendFrame_blind (buf bytes : List Byte) (fuel : Nat) :
    Blind (setBuffer buf) (sendFrame k host bytes fuel) := by
  induction fuel with
  | zero => exact .throw _
  | succ fuel ih =>
    have hread : Blind (setBuffer buf)
        (onLink (Remote.read 1) : Proc (Server σ) (Int × List Byte)) := by
      intro s
      unfold onLink
      rw [Proc.run_zoom, Proc.run_zoom]
      cases hchunks : s.link.input.chunks <;>
        simp [Remote.read, Server.updateLink, setBuffer, hchunks, Proc.mapState]
    refine .bind (fun _ => rfl) fun wrote => .ite (.get_bind (fun _ => rfl) fun s => ?_) (.pure _)
    refine .ite (.pure 1) (.bind hread fun answer => .ite (.pure _) (.ite (.pure 1) ?_))
    exact .ite (.bind (darwinSendSignal_blind _) fun _ => ih) ih

theorem putpkt : Proc.Respects SameText (putpkt k host) := by
  refine .get_bind ?_ fun s => .bind (blind fun _ => .modify fun _ => rfl) fun _ =>
    .ite (blind fun buf => sendFrame_blind buf _ _) (.throw _)
  rintro s _ ⟨text, stale, stale', hbuf, rfl⟩
  have hcstr : cstr (s.updateLink (setBuffer (text ++ 0 :: stale'))).ownBuf = cstr s.ownBuf := by
    rw [hbuf]
    exact cstr_nul text stale' stale
  dsimp only
  rw [hcstr]
  rfl

theorem handleDDetach : Proc.Respects SameText (handleDDetach k host) := by
  refine .bind (blind fun _ => darwinDetach_blind) fun _ => .bind (reply _) fun _ =>
    .bind putpkt fun _ => ?_
  refine .bind (blind fun _ => .modify fun _ => rfl) fun _ => get_bind (fun _ _ => rfl) fun s => ?_
  exact .ite (.bind (blind fun _ => .modify fun _ => rfl) fun _ =>
    .bind (blind fun _ => callKernel_blind _) fun _ => .throw _) (.throw _)

end SameText

namespace Holding

/-- What a handler has behind the letter of its packet. -/
theorem drop_command (c : Byte) (body stale : List Byte) :
    (c :: body ++ 0 :: stale).drop 1 = body ++ 0 :: stale := rfl

/-- What a handler uses of the packet is settled by the text. -/
theorem packet_bind {q : List Byte → Proc (Server σ) α} {text : List Byte}
    (h : Holding text s s')
    (same : ∀ stale stale', q (text ++ 0 :: stale) = q (text ++ 0 :: stale'))
    (hq : ∀ buf, Proc.Respects SameText (q buf)) :
    Proc.SameResult SameText ((packet >>= q).run s) ((packet >>= q).run s') := by
  obtain ⟨stale, stale', hbuf, hs'⟩ := h
  have hsame : SameText s s' := ⟨text, stale, stale', hbuf, hs'⟩
  have hbuf' : s'.ownBuf = text ++ 0 :: stale' := by
    rw [hs']
    rfl
  change Proc.SameResult SameText ((q s.ownBuf).run s) ((q s'.ownBuf).run s')
  rw [hbuf, hbuf', same stale stale']
  exact hq _ s s' hsame

theorem handleQuery {text : List Byte} (h : Holding text s s') :
    Proc.SameResult SameText (Gdbserver.handleQuery.run s) (Gdbserver.handleQuery.run s') := by
  refine h.packet_bind (fun stale stale' => ?_) fun buf => ?_
  · have hnul : 0 ∉ ascii "qSupported" := by decide
    have hprefix := isPrefixOf_nul hnul text
    dsimp only
    rw [cstr_nul text stale stale', hprefix stale, hprefix stale']
  · refine .ite (SameText.get_bind (fun _ _ => rfl) fun s => ?_) (.ite (SameText.reply _)
      (.ite (SameText.reply _) (.ite (SameText.reply _)
        (.ite (SameText.get_bind (fun _ _ => rfl) fun s => ?_)
          (.ite (SameText.get_bind (fun _ _ => rfl) fun s => ?_) (SameText.reply _))))))
    · cases s.allThreads.head? with
      | none => exact SameText.reply _
      | some t => exact SameText.reply _
    · cases s.allThreads.head? with
      | none => exact .throw _
      | some t => exact SameText.reportThread t.node
    · cases s.threadPtr with
      | none => exact SameText.reply _
      | some node => exact SameText.reportThread node

theorem handleSet {text : List Byte} (h : Holding text s s') :
    Proc.SameResult SameText (Gdbserver.handleSet.run s) (Gdbserver.handleSet.run s') := by
  refine h.packet_bind (fun stale stale' => ?_) fun buf => ?_
  · have hnul : 0 ∉ ascii "QPassSignals:" := by decide
    have hprefix := isPrefixOf_nul hnul text
    dsimp only
    rw [cstr_nul text stale stale', hprefix stale, hprefix stale']
  · refine .ite (.bind (SameText.reply _) fun _ => ?_) (.ite (SameText.reply _) (SameText.reply _))
    exact SameText.blind fun _ => .modify fun _ => rfl

theorem handleHSetThread (h : Holding (c :: body) s s') :
    Proc.SameResult SameText (Gdbserver.handleHSetThread.run s)
      (Gdbserver.handleHSetThread.run s') := by
  refine h.packet_bind (fun stale stale' => ?_) fun buf => ?_
  · cases body with
    | nil =>
      have hwhich : ∀ stale : List Byte, deref (([c] ++ 0 :: stale).drop 1) = 0 := fun _ => rfl
      have hnone : (0 : Byte) ≠ ch 'g' ∧ (0 : Byte) ≠ ch 'c' ∧ (0 : Byte) ≠ ch 's' := by decide
      simp only [hwhich, hnone.1, hnone.2.1, hnone.2.2, if_false]
    | cons w text =>
      have hwhich : ∀ stale : List Byte, deref ((c :: w :: text ++ 0 :: stale).drop 1) = w :=
        fun _ => rfl
      have hnumber : ∀ stale : List Byte,
          (c :: w :: text ++ 0 :: stale).drop 2 = text ++ 0 :: stale := fun _ => rfl
      simp only [hwhich, hnumber, strtol_nul text stale stale']
  · have hset : ∀ f : Server σ → Server σ, (∀ buf s,
        f (s.updateLink (setBuffer buf)) = (f s).updateLink (setBuffer buf)) →
          Proc.Respects SameText (modify f : Proc (Server σ) PUnit) :=
      fun f hf => SameText.blind fun buf => .modify (hf buf)
    refine .ite (.bind (hset _ fun _ _ => rfl) fun _ => .bind (SameText.reply _) fun _ =>
      SameText.blind fun _ => setDesiredInferior_blind true) ?_
    exact .ite (.bind (hset _ fun _ _ => rfl) fun _ => SameText.reply _)
      (.ite (.bind (hset _ fun _ _ => rfl) fun _ => SameText.reply _) (SameText.reply _))

theorem handleGWriteRegs (h : Holding (c :: body) s s') :
    Proc.SameResult SameText ((Gdbserver.handleGWriteRegs k).run s)
      ((Gdbserver.handleGWriteRegs k).run s') := by
  refine h.packet_bind (fun stale stale' => ?_) fun buf => ?_
  · rw [drop_command, drop_command, registersFromString, registersFromString,
      cstr_nul body stale stale']
    simp only [convertAsciiToInt_nul _ body stale stale']
  · exact .bind (SameText.blind fun _ => setDesiredInferior_blind true) fun _ =>
      .bind (SameText.blind fun _ => registersFromString_blind _) fun _ => SameText.reply _

theorem handlepReadReg (h : Holding (c :: body) s s') :
    Proc.SameResult SameText ((Gdbserver.handlepReadReg k).run s)
      ((Gdbserver.handlepReadReg k).run s') := by
  refine h.packet_bind (fun stale stale' => ?_) fun buf => ?_
  · have hnumber := strtol_nul body stale stale'
    dsimp only
    rw [drop_command, drop_command, hnumber]
  · exact .bind (SameText.blind fun _ => setDesiredInferior_blind true) fun _ =>
      .ite (.bind (SameText.blind fun _ => collectRegisterAsString_blind _) fun _ =>
        SameText.reply _) (SameText.reply _)

theorem handlePWriteReg (h : Holding (c :: body) s s') :
    Proc.SameResult SameText (Gdbserver.handlePWriteReg.run s)
      (Gdbserver.handlePWriteReg.run s') := by
  refine h.packet_bind (fun stale stale' => ?_) fun buf => ?_
  · obtain ⟨regno, q, -, hstrtol⟩ := strtol_ends body
    have hdigits : ∀ n stale stale', convertAsciiToInt
        (if deref q = ch '=' then (q ++ 0 :: stale).tail else q ++ 0 :: stale) n =
          convertAsciiToInt
            (if deref q = ch '=' then (q ++ 0 :: stale').tail else q ++ 0 :: stale') n := by
      intro n stale stale'
      cases q with
      | nil => exact convertAsciiToInt_nul n [] stale stale'
      | cons d q =>
        split
        · exact convertAsciiToInt_nul n q stale stale'
        · exact convertAsciiToInt_nul n (d :: q) stale stale'
    simp only [drop_command, hstrtol, deref_nul, hdigits _ stale stale']
  · exact .bind (SameText.blind fun _ => setDesiredInferior_blind true) fun _ =>
      .ite (.bind (SameText.blind fun _ => regAt_blind _) fun _ => .ite (.throw _)
        (.ite (.bind (SameText.blind fun _ => supplyRegister_blind _ _) fun _ =>
          SameText.reply _) (.throw _)))
        (SameText.reply _)

theorem handlemReadMem (h : Holding (c :: body) s s') :
    Proc.SameResult SameText ((Gdbserver.handlemReadMem k).run s)
      ((Gdbserver.handlemReadMem k).run s') := by
  refine h.packet_bind (fun stale stale' => ?_) fun buf => ?_
  · have hread := decodeReadPacket_nul body stale stale'
    rw [drop_command, drop_command, hread]
  · exact .bind (SameText.blind fun _ => decoded_blind _) fun _ => .ite (.throw _)
      (.bind (SameText.blind fun _ => withMemory_blind _) fun _ => SameText.reply _)

theorem handleMWriteMem (h : Holding (c :: body) s s') :
    Proc.SameResult SameText ((Gdbserver.handleMWriteMem k).run s)
      ((Gdbserver.handleMWriteMem k).run s') := by
  refine h.packet_bind (fun stale stale' => ?_) fun buf => ?_
  · have hwrite := decodeWritePacket_nul body stale stale'
    rw [drop_command, drop_command, hwrite]
  · exact .bind (SameText.blind fun _ => decoded_blind _) fun _ => .ite (.throw _)
      (.ite (.bind (SameText.blind fun _ => withMemory_blind _) fun _ =>
        .ite (SameText.reply _) (SameText.reply _)) (.throw _))

/-- `C` and `S`. -/
theorem signalHandler (h : Holding (c :: body) s s') (step : Bool) :
    Proc.SameResult SameText
      ((do
        let sig ← parseSignalByte host ((← packet).drop 1)
        Gdbserver.resumeAndReport k host step sig).run s)
      ((do
        let sig ← parseSignalByte host ((← packet).drop 1)
        Gdbserver.resumeAndReport k host step sig).run s') := by
  refine h.packet_bind (fun stale stale' => ?_) fun buf => ?_
  · rw [drop_command, drop_command, parseSignalByte, parseSignalByte,
      convertAsciiToInt_nul 1 body stale stale']
  · exact .bind (SameText.blind fun _ => parseSignalByte_blind _) fun _ =>
      SameText.resumeAndReport step _

theorem handleTThreadAlive (h : Holding (c :: body) s s') :
    Proc.SameResult SameText ((Gdbserver.handleTThreadAlive k).run s)
      ((Gdbserver.handleTThreadAlive k).run s') := by
  refine h.packet_bind (fun stale stale' => ?_) fun buf => ?_
  · have hnumber := strtol_nul body stale stale'
    rw [drop_command, drop_command, hnumber]
  · exact .bind (SameText.blind fun _ => darwinThreadAlive_blind _) fun _ =>
      .ite (SameText.reply _) (SameText.reply _)

theorem handleVCont {text : List Byte} (h : Holding text s s') (long : 6 ≤ text.length) :
    Proc.SameResult SameText ((Gdbserver.handleVCont k host).run s)
      ((Gdbserver.handleVCont k host).run s') := by
  refine h.packet_bind (fun stale stale' => ?_) fun buf => ?_
  · have hdrop : ∀ stale : List Byte, (text ++ 0 :: stale).drop 6 = text.drop 6 ++ 0 :: stale :=
      fun _ => List.drop_append_of_le_length long
    have hcount : countActions (text ++ 0 :: stale) = countActions (text ++ 0 :: stale') := by
      rw [countActions, countActions, hdrop, hdrop, cstr_nul (text.drop 6) stale stale']
    rw [hcount, resumeInfo_nul host (Nat.le_of_succ_le long) stale stale']
  · cases resumeInfo host buf with
    | none => exact SameText.reply _
    | some info =>
      refine .bind (SameText.blind fun _ => .modify fun _ => rfl) fun _ =>
        .bind (SameText.blind fun _ => setDesiredInferior_blind false) fun _ => ?_
      exact .bind (SameText.blind fun _ => darwinResume_blind info) fun _ => SameText.waitAndReport

theorem handleVRequests {text : List Byte} (h : Holding text s s') :
    Proc.SameResult SameText ((Gdbserver.handleVRequests k host).run s)
      ((Gdbserver.handleVRequests k host).run s') := by
  have hheld := h
  obtain ⟨stale, stale', hbuf, hs'⟩ := h
  have hsame : SameText s s' := ⟨text, stale, stale', hbuf, hs'⟩
  have hbuf' : s'.ownBuf = text ++ 0 :: stale' := by
    rw [hs']
    rfl
  have hrequest : 0 ∉ ascii "vCont;" := by decide
  have hquestion : 0 ∉ ascii "vCont?" := by decide
  change Proc.SameResult SameText
    ((if (ascii "vCont;").isPrefixOf s.ownBuf then Gdbserver.handleVCont k host
      else if (ascii "vCont?").isPrefixOf s.ownBuf then reply (ascii "vCont;c;C;s;S")
      else reply []).run s)
    ((if (ascii "vCont;").isPrefixOf s'.ownBuf then Gdbserver.handleVCont k host
      else if (ascii "vCont?").isPrefixOf s'.ownBuf then reply (ascii "vCont;c;C;s;S")
      else reply []).run s')
  rw [hbuf, hbuf', isPrefixOf_nul hrequest, isPrefixOf_nul hrequest, isPrefixOf_nul hquestion,
    isPrefixOf_nul hquestion]
  split
  · rename_i hpre
    exact hheld.handleVCont (List.isPrefixOf_iff_prefix.mp hpre).length_le
  · split
    · exact SameText.reply _ s s' hsame
    · exact SameText.reply _ s s' hsame

/-- The address of `Z0` and `z0` lies in the packet, if the packet goes on behind the `0`. -/
theorem breakpoint_address (hbody : body ≠ [ch '0'])
    (htype : ∀ stale : List Byte, deref ((c :: body ++ 0 :: stale).drop 1) = ch '0')
    (stale stale' : List Byte) :
    (strtoul ((c :: body ++ 0 :: stale).drop 3)).1 =
      (strtoul ((c :: body ++ 0 :: stale').drop 3)).1 := by
  rcases body with _ | ⟨type, _ | ⟨comma, text⟩⟩
  · exact absurd (htype []) (show (0 : Byte) ≠ ch '0' by decide)
  · exact absurd (congrArg ([·]) (htype [])) hbody
  · exact strtoul_nul text stale stale'

/-- `Z0` and `z0`, for whatever is done at the address. -/
theorem breakpointPacket (act : Int → Proc (MemBreak.MemState (Darwin.TargetState σ)) Unit)
    (h : Holding (c :: body) s s') (hbody : body ≠ [ch '0']) :
    let handler : Proc (Server σ) Unit := do
      let buf ← packet
      if deref (buf.drop 1) = ch '0' then
        let addr : Int := (strtoul (buf.drop 3)).1
        withMemory (act addr)
        writeOk
      else
        reply []
    Proc.SameResult SameText (handler.run s) (handler.run s') := by
  refine h.packet_bind (fun stale stale' => ?_) fun buf => ?_
  · have htype : ∀ stale : List Byte, deref ((c :: body ++ 0 :: stale).drop 1) = deref body :=
      fun stale => deref_nul body stale
    simp only [htype]
    split
    · rename_i hzero
      rw [breakpoint_address hbody (fun stale => (htype stale).trans hzero) stale stale']
    · rfl
  · exact .ite (.bind (SameText.blind fun _ => withMemory_blind _) fun _ => SameText.reply _)
      (SameText.reply _)

theorem handleZInsertBp (h : Holding (c :: body) s s') (hbody : body ≠ [ch '0']) :
    Proc.SameResult SameText ((Gdbserver.handleZInsertBp k).run s)
      ((Gdbserver.handleZInsertBp k).run s') :=
  h.breakpointPacket
    (fun addr => MemBreak.setBreakpointAt (Darwin.memTarget k) addr .null) hbody

theorem handlezRemoveBp (h : Holding (c :: body) s s') (hbody : body ≠ [ch '0']) :
    Proc.SameResult SameText ((Gdbserver.handlezRemoveBp k).run s)
      ((Gdbserver.handlezRemoveBp k).run s') :=
  h.breakpointPacket (fun addr => MemBreak.deleteBreakpointAt (Darwin.memTarget k) addr) hbody

end Holding

/-- `Z0` and `z0` with nothing behind them. -/
def AddressMissing (body : List Byte) : Prop := body = ascii "Z0" ∨ body = ascii "z0"

theorem ch_of_ofUInt8 {b : Byte} {c : Char} (h : Char.ofUInt8 b = c) : b = ch c := by
  rw [← h]
  exact (UInt8.toUInt8_toUInt32 b).symm

theorem handlePacket_sameText (k : Kernel σ) (host : Signals.Host) (h : Holding body s s')
    (given : ¬ AddressMissing body) :
    Proc.SameResult SameText ((handlePacket k host).run s) ((handlePacket k host).run s') := by
  have hsame : SameText s s' := ⟨body, h⟩
  have hcommand : ∀ {s : Server σ} {stale : List Byte}, s.ownBuf = body ++ 0 :: stale →
      command s = Char.ofUInt8 (deref body) := by
    intro s stale hbuf
    rw [command, hbuf, deref_nul]
  obtain ⟨stale, stale', hbuf, hs'⟩ := h
  have hbuf' : s'.ownBuf = body ++ 0 :: stale' := by
    rw [hs']
    rfl
  have h : Holding body s s' := ⟨stale, stale', hbuf, hs'⟩
  have hreturn : ∀ {p : Proc (Server σ) Unit} {b : Bool},
      Proc.SameResult SameText (p.run s) (p.run s') →
        Proc.SameResult SameText ((do p; return b : Proc (Server σ) Bool).run s)
          ((do p; return b : Proc (Server σ) Bool).run s') := fun hp =>
    hp.bind (fun _ _ hst => hst) fun _ _ _ _ _ hst => .ok _ hst
  rw [handlePacket_run, handlePacket_run, hcommand hbuf, hcommand hbuf']
  cases body with
  | nil => exact hreturn (SameText.reply _ s s' hsame)
  | cons c body =>
    unfold dispatch
    split
    · exact hreturn h.handleQuery
    · exact hreturn h.handleSet
    · exact hreturn (SameText.blind (fun _ => .modify fun _ => rfl) s s' hsame)
    · exact hreturn (SameText.handleDDetach s s' hsame)
    · exact hreturn (SameText.reply _ s s' hsame)
    · exact hreturn (SameText.prepareResumeReply s s' hsame)
    · exact hreturn h.handleHSetThread
    · exact hreturn (SameText.handlegReadRegs s s' hsame)
    · exact hreturn h.handleGWriteRegs
    · exact hreturn h.handlepReadReg
    · exact hreturn h.handlePWriteReg
    · exact hreturn h.handlemReadMem
    · exact hreturn h.handleMWriteMem
    · exact hreturn (h.signalHandler false)
    · exact hreturn (h.signalHandler true)
    · exact hreturn (SameText.resumeAndReport false 0 s s' hsame)
    · exact hreturn (SameText.resumeAndReport true 0 s s' hsame)
    · exact SameText.handlekKill s s' hsame
    · exact hreturn h.handleTThreadAlive
    · exact SameText.handleRRestart s s' hsame
    · exact hreturn h.handleVRequests
    · rename_i hZ
      refine hreturn (h.handleZInsertBp fun hbody => given (Or.inl ?_))
      rw [show c = ch 'Z' from ch_of_ofUInt8 hZ, hbody]
      rfl
    · rename_i hz
      refine hreturn (h.handlezRemoveBp fun hbody => given (Or.inr ?_))
      rw [show c = ch 'z' from ch_of_ofUInt8 hz, hbody]
      rfl
    · exact hreturn (SameText.reply _ s s' hsame)

/-- A server that has a breakpoint at address 16, with a text in `own_buf` and some bytes
behind its NUL. -/
def besideBreakpoint (os : σ) (text stale : List Byte) : Server σ :=
  { (initial os []).updateLink (setBuffer (text ++ 0 :: stale)) with
    allThreads := [{ node := 0, id := 7, pid := 7, port := 1, regcache := newRegisterCache }]
    currentInferior := some 0
    breakpoints := [{ node := 0, pc := 16, oldData := Vector.replicate _ 0, reinserting := false,
                      breakpointToReinsert := none, handler := .null }]
    nextBreakpoint := 1 }

theorem besideBreakpoint_live (os : σ) (text stale : List Byte) :
    Live (besideBreakpoint os text stale)
      { node := 0, id := 7, pid := 7, port := 1, regcache := newRegisterCache } := rfl

theorem besideBreakpoint_holding (os : σ) (text stale stale' : List Byte) :
    Holding text (besideBreakpoint os text stale) (besideBreakpoint os text stale') :=
  ⟨stale, stale', rfl, rfl⟩

theorem handleZInsertBp_ends {t : ThreadInfo} (h : Live s t)
    (type : deref (s.ownBuf.drop 1) = ch '0') :
    Proc.Ends (handleZInsertBp k)
      (fun _ s' => s'.breakpoints.head?.map MemBreak.Breakpoint.pc =
        some ((strtoul (s.ownBuf.drop 3)).1 : Int)) (fun _ _ => False) s := by
  have hinsert := handleZInsertBp_run (k := k) h type
  rw [MemBreak.setBreakpointAt_run _ _ _ _ rfl] at hinsert
  rw [Proc.Ends.of_run hinsert]
  rfl

theorem handlezRemoveBp_ends {t : ThreadInfo} (h : Live s t) {b : MemBreak.Breakpoint}
    (single : s.breakpoints = [b]) (below : b.node < s.nextBreakpoint)
    (type : deref (s.ownBuf.drop 1) = ch '0') :
    Proc.Ends (handlezRemoveBp k)
      (fun _ s' => s'.breakpoints = [] ↔ b.pc = ((strtoul (s.ownBuf.drop 3)).1 : Int))
      (fun _ _ => False) s := by
  have hlinked : MemBreak.WellLinked (s.memState t) := by
    constructor
    · rw [Server.memState, single]
      exact List.nodup_singleton _
    · rw [Server.memState, single]
      intro b' hb'
      rw [List.mem_singleton.mp hb']
      exact below
  obtain ⟨m, hremove, hlist⟩ := handlezRemoveBp_run (k := k) h hlinked type
  rw [Proc.Ends.of_run hremove]
  change m.breakpoints = [] ↔ _
  rw [hlist, single]
  by_cases hpc : b.pc = ((strtoul (s.ownBuf.drop 3)).1 : Int) <;> simp [hpc]

/-- What `handle_packet` does with a packet does not depend on the bytes behind it. -/
def DependsOnPacket (k : Kernel σ) (host : Signals.Host) (body : List Byte) : Prop :=
  ∀ s s' : Server σ, Holding body s s' →
    Proc.SameResult SameText ((handlePacket k host).run s) ((handlePacket k host).run s')

theorem SameText.breakpoints (same : SameText s s') : s'.breakpoints = s.breakpoints := by
  obtain ⟨text, stale, stale', _, rfl⟩ := same
  rfl

theorem final_dispatch {p : Proc (Server σ) Unit} {c : Char} (hc : command s = c)
    (hp : dispatch k host c = do p; return false) :
    Proc.final ((handlePacket k host).run s) = Proc.final (p.run s) := by
  rw [handlePacket_run, hc, hp, Proc.final_thenReturn]

theorem final_of_ends {p : Proc (Server σ) α} {P : Server σ → Prop}
    (h : Proc.Ends p (fun _ s' => P s') (fun _ _ => False) s) : P (Proc.final (p.run s)) :=
  Proc.Ends.final_iff.mp (h.imp (fun _ _ hP => hP) fun _ _ => False.elim)

/-- The same packet inserts a breakpoint at address 16 or at address 32, or removes the one
at address 16 or none. -/
theorem not_dependsOnPacket (os : σ) (missing : AddressMissing body) :
    ¬ DependsOnPacket k host body := by
  intro depends
  have hsame := (depends _ _ (besideBreakpoint_holding os body (ascii "10") (ascii "20"))).final
  have hlists := hsame.breakpoints
  have h16 : (strtoul (ascii "10")).1 = 16 := by decide
  have h32 : (strtoul (ascii "20")).1 = 32 := by decide
  rcases missing with rfl | rfl
  · have hfinal : ∀ stale, Proc.final ((handlePacket k host).run
        (besideBreakpoint os (ascii "Z0") stale)) =
          Proc.final ((handleZInsertBp k).run (besideBreakpoint os (ascii "Z0") stale)) :=
      fun stale => final_dispatch (c := 'Z') rfl rfl
    have hhead := fun stale => final_of_ends (handleZInsertBp_ends (k := k)
      (besideBreakpoint_live os (ascii "Z0") stale) rfl)
    have hfirst := hhead (ascii "10")
    have hsecond := hhead (ascii "20")
    rw [hfinal, hfinal] at hlists
    rw [hlists, hfirst] at hsecond
    have hequal : (strtoul (ascii "10")).1 = (strtoul (ascii "20")).1 :=
      Int.ofNat.inj (Option.some.inj hsecond)
    rw [h16, h32] at hequal
    cases hequal
  · have hfinal : ∀ stale, Proc.final ((handlePacket k host).run
        (besideBreakpoint os (ascii "z0") stale)) =
          Proc.final ((handlezRemoveBp k).run (besideBreakpoint os (ascii "z0") stale)) :=
      fun stale => final_dispatch (c := 'z') rfl rfl
    have hhead := fun stale => final_of_ends (handlezRemoveBp_ends (k := k)
      (besideBreakpoint_live os (ascii "z0") stale) rfl Nat.zero_lt_one rfl)
    have hfirst := (hhead (ascii "10")).mpr (congrArg Int.ofNat h16.symm)
    have hsecond := hhead (ascii "20")
    rw [hfinal, hfinal] at hlists
    rw [hlists] at hsecond
    have hequal : 16 = (strtoul (ascii "20")).1 := Int.ofNat.inj (hsecond.mp hfirst)
    rw [h32] at hequal
    cases hequal

/-- A packet's effect depends on the packet alone, unless its address is missing. -/
theorem dependsOnPacket_iff [Nonempty σ] (k : Kernel σ) (host : Signals.Host)
    (body : List Byte) : DependsOnPacket k host body ↔ ¬ AddressMissing body := by
  constructor
  · intro depends missing
    obtain ⟨os⟩ := ‹Nonempty σ›
    exact not_dependsOnPacket os missing depends
  · exact fun given s s' h => handlePacket_sameText k host h given

theorem dependsOnPacket_iff_Z1 :
    DependsOnPacket singleThread Signals.darwin (ascii "Z1") ↔ ¬ AddressMissing (ascii "Z1") :=
  have : Nonempty Machine := ⟨blankMachine⟩
  dependsOnPacket_iff singleThread Signals.darwin (ascii "Z1")

theorem not_dependsOnPacket_Z0 :
    ¬ DependsOnPacket singleThread Signals.darwin (ascii "Z0") :=
  not_dependsOnPacket blankMachine (Or.inl rfl)

end Gdbserver
