import OsxGdbserver.PacketLoop
import OsxGdbserver.PacketTexts

/-!
# The register packets

`p` and `P` find their register by its number, and `find_register_by_number` takes the
address of an entry whether or not there is one. `G` decodes into the cache byte by byte,
and what it has stored before a bad digit stays there.
-/

namespace Gdbserver

open Remote CString Ppc

variable {σ : Type} {k : Kernel σ} {host : Signals.Host} {s : Server σ} {t : ThreadInfo}
  {rs : List (List Byte)} {field : List Byte}

/-- The number a field denotes. -/
def fieldNumber (field : List Byte) : Int := (strtol (field ++ [0])).1

/-- The bytes that follow the number in a `P` packet, for a register of this size, and
whether all of them are there. -/
def fieldValue (field : List Byte) (size : Nat) : List Byte × Bool :=
  pValue (ch 'P' :: field ++ [0]) size

/-- The entry of the table with this number. -/
def registerAt (n : Int) : Option (Regcache.Reg RegName) :=
  if 0 ≤ n ∧ n < 71 then regDefs[n.toNat]? else none

/-- A `p` packet reads the register with its number or is refused. -/
def ReadsByNumber (k : Kernel σ) (host : Signals.Host) (s : Server σ) (field : List Byte) : Prop :=
  ∀ t, s.allThreads = [t] → Proc.Ends (handlePacket k host)
    (fun _ s' =>
      match registerAt (fieldNumber field) with
      | some r => cstr s'.ownBuf =
          convertIntToAscii (Regcache.registerData r (filled k s.os t).regcache.registers)
      | none => cstr s'.ownBuf = ascii "E01" ∧ s'.allThreads = [t])
    (fun _ _ => False) (s.withText (ch 'p' :: field))

/-- A `P` packet writes the register with its number or is refused; with a bad value it ends
in `error` and writes nothing. -/
def WritesByNumber (k : Kernel σ) (host : Signals.Host) (s : Server σ) (field : List Byte) :
    Prop :=
  ∀ t, s.allThreads = [t] → Proc.Ends (handlePacket k host)
    (fun _ s' =>
      match registerAt (fieldNumber field) with
      | some r => (fieldValue field r.size).2 = true ∧ cstr s'.ownBuf = ascii "OK" ∧
          s'.allThreads = [supply r (fieldValue field r.size).1 t]
      | none => cstr s'.ownBuf = ascii "E01" ∧ s'.allThreads = [t])
    (fun e s' => e = invalidDigit ∧ s'.allThreads = [t] ∧
      ∃ r, registerAt (fieldNumber field) = some r ∧ (fieldValue field r.size).2 = false)
    (s.withText (ch 'P' :: field))

theorem registerAt_of_lt {n : Int} (pos : 0 ≤ n) (lt : n < 71) :
    ∃ r ∈ regDefs, registerAt n = some r ∧ regDefs[n.toNat]? = some r := by
  have hlt : n.toNat < regDefs.length := by
    rw [regDefs_length]
    omega
  have hget := List.getElem?_eq_getElem hlt
  exact ⟨_, List.getElem_mem hlt, (if_pos ⟨pos, lt⟩).trans hget, hget⟩

theorem registerAt_some {n : Int} {r : Regcache.Reg RegName} (h : registerAt n = some r) :
    0 ≤ n ∧ regDefs[n.toNat]? = some r ∧ r ∈ regDefs := by
  unfold registerAt at h
  split at h
  · rename_i hbounds
    exact ⟨hbounds.1, h, List.mem_of_getElem? h⟩
  · cases h

theorem registerAt_of_neg {n : Int} (neg : ¬ 0 ≤ n) : registerAt n = none :=
  if_neg fun hboth => neg hboth.1

theorem regDefs_none {n : Int} (large : 71 ≤ n) : regDefs[n.toNat]? = none := by
  rw [List.getElem?_eq_none_iff, regDefs_length]
  omega

theorem packetNumber_withText (c : Byte) (field : List Byte) :
    (strtol ((s.withText (c :: field)).ownBuf.drop 1)).1 = fieldNumber field :=
  strtol_nul field _ []

theorem fieldValue_withText (field : List Byte) (size : Nat) :
    pValue (s.withText (ch 'P' :: field)).ownBuf size = fieldValue field size := by
  obtain ⟨n, q, -, hstrtol⟩ := strtol_ends field
  have hvalue : ∀ stale : List Byte, pValue (ch 'P' :: (field ++ 0 :: stale)) size =
      convertAsciiToInt (if deref q = ch '=' then (q ++ 0 :: stale).tail else q ++ 0 :: stale)
        (size / 8) := by
    intro stale
    rw [pValue, List.drop_succ_cons, List.drop_zero, hstrtol, deref_nul]
  have hsame := hvalue (s.ownBuf.drop ((ch 'P' :: field).length + 1))
  refine hsame.trans ((hvalue []).trans ?_).symm
  cases q with
  | nil => exact convertAsciiToInt_nul _ [] _ _
  | cons d q =>
    split
    · exact convertAsciiToInt_nul _ q _ _
    · exact convertAsciiToInt_nul _ (d :: q) _ _

/-- What a reply of a few characters leaves in `own_buf`. -/
theorem cstr_withText {text : List Byte} (noNul : 0 ∉ text) :
    cstr (s.withText text).ownBuf = text :=
  cstr_append_nul noNul _

theorem handlePacket_p (field : List Byte) :
    (handlePacket k host).run (s.withText (ch 'p' :: field)) =
      (do handlepReadReg k; return false : Proc (Server σ) Bool).run
        (s.withText (ch 'p' :: field)) := by
  rw [handlePacket_run, show command (s.withText (ch 'p' :: field)) = 'p' from rfl]
  rfl

theorem handlePacket_P (field : List Byte) :
    (handlePacket k host).run (s.withText (ch 'P' :: field)) =
      (do handlePWriteReg; return false : Proc (Server σ) Bool).run
        (s.withText (ch 'P' :: field)) := by
  rw [handlePacket_run, show command (s.withText (ch 'P' :: field)) = 'P' from rfl]
  rfl

theorem zero_not_mem_E01 : 0 ∉ ascii "E01" := by decide

/-- `p` behind `set_desired_inferior`. -/
theorem handlepReadReg_run (field : List Byte) :
    (handlepReadReg k).run (s.withText (ch 'p' :: field)) =
      (if fieldNumber field ≥ 0 then
        (do reply (← collectRegisterAsString k (fieldNumber field).toNat))
      else writeEnn : Proc (Server σ) Unit).run ((s.withText (ch 'p' :: field)).select true) := by
  rw [← packetNumber_withText (s := s) (ch 'p') field]
  unfold handlepReadReg
  rw [EStateM.run_bind, packet_run]
  dsimp only
  rw [EStateM.run_bind, setDesiredInferior_run]

theorem handlepReadReg_run_some (nodup : (s.allThreads.map ThreadInfo.node).Nodup)
    (h : (s.withText (ch 'p' :: field)).desired true = some t) {r : Regcache.Reg RegName}
    (hr : registerAt (fieldNumber field) = some r) :
    (handlepReadReg k).run (s.withText (ch 'p' :: field)) = .ok ()
      ((((s.withText (ch 'p' :: field)).select true).fill k t).withText
        (convertIntToAscii (Regcache.registerData r (filled k s.os t).regcache.registers))) := by
  obtain ⟨pos, hget, hmem⟩ := registerAt_some hr
  have hlive := live_select (s := s.withText (ch 'p' :: field)) nodup h
  have hcollect := collectRegisterAsString_run (k := k) hlive nodup hget
  have hsize := regDefs_size_le hmem
  have hfits : (convertIntToAscii
      (Regcache.registerData r (filled k s.os t).regcache.registers)).length < pbufsiz := by
    rw [convertIntToAscii_length, Regcache.registerData, List.length_take, pbufsiz]
    omega
  rw [handlepReadReg_run, if_pos pos, EStateM.run_bind, hcollect]
  exact reply_run hfits

theorem readsByNumber_of_lt (h : Serving rs s t) (lt : fieldNumber field < 71) :
    ReadsByNumber k host s field := by
  intro t' single
  obtain rfl : t = t' := List.singleton_inj.mp (h.threads.symm.trans single)
  let s₁ := s.withText (ch 'p' :: field)
  have h₁ : Serving rs s₁ t := h
  unfold Proc.Ends
  rw [handlePacket_p]
  change Proc.Ends (do handlepReadReg k; return false) _ _ s₁
  rw [Proc.Ends.bind_iff]
  by_cases pos : 0 ≤ fieldNumber field
  · obtain ⟨r, -, hat, -⟩ := registerAt_of_lt pos lt
    have hdesired := desired_singleton h₁.threads true
    rw [Proc.Ends.of_run (handlepReadReg_run_some (s := s) h.nodup hdesired hat), hat]
    exact cstr_withText (zero_not_mem_convertIntToAscii _)
  · unfold Proc.Ends
    rw [handlepReadReg_run, h₁.select, if_neg pos, writeEnn, reply_run (by decide),
      registerAt_of_neg pos]
    exact ⟨cstr_withText zero_not_mem_E01, single⟩

/-- The access behind the table. -/
theorem not_readsByNumber (h : Serving rs s t) (large : 71 ≤ fieldNumber field) :
    ¬ ReadsByNumber k host s field := by
  intro reads
  have hends := reads t h.threads
  have hrun : (handlepReadReg k).run (s.withText (ch 'p' :: field)) =
      .error (.fault "reg_defs") (s.withText (ch 'p' :: field)) := by
    rw [handlepReadReg_run, (serving_withText h _).select, if_pos (by omega), EStateM.run_bind,
      collectRegisterAsString,
      EStateM.run_bind, regAt_run_none (regDefs_none large)]
  unfold Proc.Ends at hends
  rw [handlePacket_p, EStateM.run_bind, hrun] at hends
  exact hends

/-- `P` behind `set_desired_inferior`. -/
theorem handlePWriteReg_run (field : List Byte) :
    (handlePWriteReg : Proc (Server σ) Unit).run (s.withText (ch 'P' :: field)) =
      (if fieldNumber field ≥ 0 then do
        let r ← regAt (fieldNumber field).toNat
        let value := fieldValue field r.size
        if value.1.length > regbufSize then
          throw (.fault "regbuf")
        else if value.2 then
          supplyRegister (fieldNumber field).toNat value.1
          writeOk
        else
          throw invalidDigit
      else writeEnn : Proc (Server σ) Unit).run ((s.withText (ch 'P' :: field)).select true) := by
  simp only [← fieldValue_withText (s := s) field, ← packetNumber_withText (s := s) (ch 'P') field]
  unfold handlePWriteReg
  rw [EStateM.run_bind, packet_run]
  dsimp only
  rw [EStateM.run_bind, setDesiredInferior_run]
  rfl

/-- The value of every register fits the buffer of `handle_P_write_reg`. -/
theorem not_long_fieldValue {r : Regcache.Reg RegName} (hr : r ∈ regDefs) (field : List Byte) :
    ¬ (fieldValue field r.size).1.length > regbufSize := by
  have hsize := regDefs_size_le hr
  have hle : (fieldValue field r.size).1.length ≤ r.size / 8 := convertAsciiToInt_length_le _ _
  unfold regbufSize
  omega

theorem handlePWriteReg_run_some (nodup : (s.allThreads.map ThreadInfo.node).Nodup)
    (h : (s.withText (ch 'P' :: field)).desired true = some t) {r : Regcache.Reg RegName}
    (hr : registerAt (fieldNumber field) = some r)
    (complete : (fieldValue field r.size).2 = true) :
    handlePWriteReg.run (s.withText (ch 'P' :: field)) = .ok ()
      (((((s.withText (ch 'P' :: field)).select true).record
        (.supply t.node t.regcache.valid true (r.offset / 8)
          (fieldValue field r.size).1)).assignThread
          t.node (supply r (fieldValue field r.size).1)).withText (ascii "OK")) := by
  obtain ⟨pos, hget, hmem⟩ := registerAt_some hr
  have hlive := live_select (s := s.withText (ch 'P' :: field)) nodup h
  have hsupply := supplyRegister_run hlive hget (fieldValue field r.size).1
  have hshort := not_long_fieldValue hmem field
  rw [handlePWriteReg_run, if_pos pos, EStateM.run_bind, regAt_run hget]
  dsimp only
  rw [if_neg hshort, complete, if_pos rfl, EStateM.run_bind, hsupply]
  exact reply_run (by decide)

/-- A bad value is told apart before anything is written. -/
theorem handlePWriteReg_run_incomplete {r : Regcache.Reg RegName}
    (hr : registerAt (fieldNumber field) = some r)
    (incomplete : (fieldValue field r.size).2 = false) :
    handlePWriteReg.run (s.withText (ch 'P' :: field)) =
      .error invalidDigit ((s.withText (ch 'P' :: field)).select true) := by
  obtain ⟨pos, hget, hmem⟩ := registerAt_some hr
  have hshort := not_long_fieldValue hmem field
  rw [handlePWriteReg_run, if_pos pos, EStateM.run_bind, regAt_run hget]
  dsimp only
  rw [if_neg hshort, incomplete, if_neg Bool.false_ne_true]
  rfl

theorem writesByNumber_of_lt (h : Serving rs s t) (lt : fieldNumber field < 71) :
    WritesByNumber k host s field := by
  intro t' single
  obtain rfl : t = t' := List.singleton_inj.mp (h.threads.symm.trans single)
  let s₁ := s.withText (ch 'P' :: field)
  have h₁ : Serving rs s₁ t := h
  unfold Proc.Ends
  rw [handlePacket_P]
  change Proc.Ends (do handlePWriteReg; return false) _ _ s₁
  rw [Proc.Ends.bind_iff]
  by_cases pos : 0 ≤ fieldNumber field
  · obtain ⟨r, -, hat, -⟩ := registerAt_of_lt pos lt
    have hdesired := desired_singleton h₁.threads true
    cases hcomplete : (fieldValue field r.size).2 with
    | true =>
      rw [Proc.Ends.of_run (handlePWriteReg_run_some (s := s) h.nodup hdesired hat hcomplete),
        hat]
      refine ⟨hcomplete, cstr_withText (by decide), ?_⟩
      simp [Server.withText, Server.assignThread, Server.record, Server.select, h.threads]
    | false =>
      rw [Proc.Ends.of_run_error (handlePWriteReg_run_incomplete (s := s) hat hcomplete)]
      exact ⟨rfl, single, r, hat, hcomplete⟩
  · unfold Proc.Ends
    rw [handlePWriteReg_run, h₁.select, if_neg pos, writeEnn, reply_run (by decide),
      registerAt_of_neg pos]
    exact ⟨cstr_withText zero_not_mem_E01, single⟩

theorem not_writesByNumber (h : Serving rs s t) (large : 71 ≤ fieldNumber field) :
    ¬ WritesByNumber k host s field := by
  intro writes
  have hends := writes t h.threads
  have hrun : (handlePWriteReg : Proc (Server σ) Unit).run (s.withText (ch 'P' :: field)) =
      .error (.fault "reg_defs") (s.withText (ch 'P' :: field)) := by
    rw [handlePWriteReg_run, (serving_withText h _).select, if_pos (by omega), EStateM.run_bind,
      regAt_run_none (regDefs_none large)]
  unfold Proc.Ends at hends
  rw [handlePacket_P, EStateM.run_bind, hrun] at hends
  exact Stop.noConfusion hends.1

/-- A number beyond the table is not rejected, and every other one is treated as it should
be. -/
theorem register_number_iff (reachable : Reachable k host s) (field : List Byte) :
    (ReadsByNumber k host s field ↔ fieldNumber field < 71) ∧
      (WritesByNumber k host s field ↔ fieldNumber field < 71) := by
  obtain ⟨rs, t, h⟩ := reachable.serving
  refine ⟨⟨fun reads => ?_, readsByNumber_of_lt h⟩, ⟨fun writes => ?_, writesByNumber_of_lt h⟩⟩
  · by_contra large
    exact not_readsByNumber h (Int.not_lt.mp large) reads
  · by_contra large
    exact not_writesByNumber h (Int.not_lt.mp large) writes

theorem register_number_iff_40 :
    (ReadsByNumber singleThread Signals.darwin (launched []) (ascii "40") ↔
        fieldNumber (ascii "40") < 71) ∧
      (WritesByNumber singleThread Signals.darwin (launched []) (ascii "40") ↔
        fieldNumber (ascii "40") < 71) :=
  register_number_iff (reachable_launched []) (ascii "40")

/-- `p47` asks for register 71, the first that does not exist. -/
theorem not_reads_47 :
    Reachable singleThread Signals.darwin (launched []) ∧
      ¬ ReadsByNumber singleThread Signals.darwin (launched []) (ascii "47") := by
  obtain ⟨rs, t, h⟩ := (reachable_launched []).serving
  exact ⟨reachable_launched [], not_readsByNumber h (by decide)⟩

/-- The number of bytes a `G` packet has for the cache. -/
def givenBytes (field : List Byte) : Nat := min ((cstr field).length / 2) registerBytes

/-- The characters that are read for them. -/
def givenPairs (field : List Byte) : List Byte := field.take (2 * givenBytes field)

/-- `G` stores all its bytes, or ends in `error` and stores none. -/
def AllOrNothing (k : Kernel σ) (host : Signals.Host) (s : Server σ) (field : List Byte) : Prop :=
  ∀ t, s.allThreads = [t] → Proc.Ends (handlePacket k host)
    (fun _ s' => (∀ c ∈ givenPairs field, LowerHex c) ∧ cstr s'.ownBuf = ascii "OK" ∧
      ∃ u, s'.allThreads = [u] ∧ u.regcache.registers = leadingBytes (givenPairs field) ++
        (filled k s.os t).regcache.registers.drop (givenBytes field))
    (fun e s' => e = invalidDigit ∧ s'.allThreads = [filled k s.os t])
    (s.withText (ch 'G' :: field))

theorem givenBytes_le_length (field : List Byte) : 2 * givenBytes field ≤ field.length := by
  have hle := cstr_length_le field
  unfold givenBytes
  omega

theorem givenPairs_length (field : List Byte) :
    (givenPairs field).length = 2 * givenBytes field :=
  List.length_take_of_le (givenBytes_le_length field)

/-- What is decoded is what the pairs spell. -/
theorem decodedRegisters_withText (field : List Byte) :
    decodedRegisters ((s.withText (ch 'G' :: field)).ownBuf.drop 1) =
      (leadingBytes (givenPairs field), decide (∀ c ∈ givenPairs field, LowerHex c)) := by
  have hbuf : (s.withText (ch 'G' :: field)).ownBuf.drop 1 =
      field ++ 0 :: s.ownBuf.drop ((ch 'G' :: field).length + 1) := rfl
  have hcount : min (cstr field).length (2 * registerBytes) / 2 = givenBytes field := by
    unfold givenBytes
    omega
  have hpairs : ∀ stale : List Byte,
      (field ++ 0 :: stale).take (2 * givenBytes field) = givenPairs field := fun stale =>
    List.take_append_of_le_length (givenBytes_le_length field)
  rw [decodedRegisters, hbuf, cstr_stored, hcount, convertAsciiToInt_eq, hpairs]
  simp only [leadingBytes_length_eq_iff (givenPairs_length field)]

theorem storeBytes_registers {bytes : List Byte} (h : bytes.length ≤ registerBytes) :
    (storeBytes bytes t).regcache.registers =
      bytes ++ t.regcache.registers.drop bytes.length :=
  Overlay.memcpy_zero (by rw [t.regcache.registers_length]; exact h)

/-- Storing bytes that are there already changes nothing. -/
theorem storeBytes_eq_self_iff {bytes : List Byte} (h : bytes.length ≤ registerBytes) :
    storeBytes bytes t = t ↔ bytes <+: t.regcache.registers := by
  have hregisters := storeBytes_registers (t := t) h
  constructor
  · intro hself
    rw [hself] at hregisters
    exact ⟨_, hregisters.symm⟩
  · rintro ⟨rest, hrest⟩
    have hsame : (storeBytes bytes t).regcache.registers = t.regcache.registers := by
      rw [hregisters, ← hrest, List.drop_left]
    cases t with
    | mk node id pid port regcache =>
      cases regcache with
      | mk valid registers hlen =>
        dsimp only at hsame
        simp only [storeBytes] at hsame ⊢
        simp only [hsame]

theorem givenBytes_le (field : List Byte) :
    (leadingBytes (givenPairs field)).length ≤ registerBytes := by
  have hle := leadingBytes_length (givenPairs field)
  rw [givenPairs_length, givenBytes] at hle
  omega

/-- How a `G` packet is handled. -/
theorem handlePacket_G_ends (h : Serving rs s t) (field : List Byte) :
    Proc.Ends (handlePacket k host)
      (fun _ s' => (∀ c ∈ givenPairs field, LowerHex c) ∧ cstr s'.ownBuf = ascii "OK" ∧
        s'.allThreads = [storeBytes (leadingBytes (givenPairs field)) (filled k s.os t)])
      (fun e s' => e = invalidDigit ∧ ¬ (∀ c ∈ givenPairs field, LowerHex c) ∧
        s'.allThreads = [storeBytes (leadingBytes (givenPairs field)) (filled k s.os t)])
      (s.withText (ch 'G' :: field)) := by
  let s₁ := s.withText (ch 'G' :: field)
  have h₁ : Serving rs s₁ t := h
  have hstored := registersFromString_run (k := k) h₁.live h₁.nodup (s₁.ownBuf.drop 1)
  rw [decodedRegisters_withText field] at hstored
  have hthreads : ∀ s' : Server σ, s'.allThreads = [filled k s.os t] →
      (s'.assignThread t.node (storeBytes (leadingBytes (givenPairs field)))).allThreads =
        [storeBytes (leadingBytes (givenPairs field)) (filled k s.os t)] := by
    intro s' hs'
    simp [Server.assignThread, hs']
  have hfill : ((s₁.fill k t).record (.supply t.node true
      (decide (∀ c ∈ givenPairs field, LowerHex c)) 0
        (leadingBytes (givenPairs field)))).allThreads = [filled k s.os t] :=
    (h₁.fill (k := k)).threads
  have hrun : (handlePacket k host).run s₁ =
      (do handleGWriteRegs k; return false : Proc (Server σ) Bool).run s₁ := by
    rw [handlePacket_run, show command s₁ = 'G' from rfl]
    rfl
  unfold Proc.Ends
  rw [hrun]
  change Proc.Ends (do handleGWriteRegs k; return false) _ _ s₁
  rw [Proc.Ends.bind_iff, handleGWriteRegs, Proc.Ends.bind_iff, Proc.Ends.of_run packet_run,
    Proc.Ends.bind_iff, Proc.Ends.of_run (h₁.setDesiredInferior_run true), Proc.Ends.bind_iff]
  by_cases good : ∀ c ∈ givenPairs field, LowerHex c
  · rw [if_pos (decide_eq_true good)] at hstored
    rw [Proc.Ends.of_run hstored, writeOk, Proc.Ends.of_run (reply_run (by decide))]
    exact ⟨good, cstr_withText (by decide), hthreads _ hfill⟩
  · rw [if_neg fun hdecide => good (of_decide_eq_true hdecide)] at hstored
    rw [Proc.Ends.of_run_error hstored]
    exact ⟨rfl, good, hthreads _ hfill⟩

/-- `G` is all or nothing just if there is no bad digit, or what stands before it is in the
cache already. -/
theorem allOrNothing_iff (reachable : Reachable k host s) (single : s.allThreads = [t])
    (field : List Byte) :
    AllOrNothing k host s field ↔ (∀ c ∈ givenPairs field, LowerHex c) ∨
      leadingBytes (givenPairs field) <+: (filled k s.os t).regcache.registers := by
  obtain ⟨rs, t', h⟩ := reachable.serving
  obtain rfl : t' = t := List.singleton_inj.mp (h.threads.symm.trans single)
  have hends : Proc.Ends (handlePacket k host) _ _ _ := handlePacket_G_ends h field
  have hle := givenBytes_le field
  constructor
  · intro whole
    by_cases good : ∀ c ∈ givenPairs field, LowerHex c
    · exact Or.inl good
    · refine Or.inr ((storeBytes_eq_self_iff hle).mp ?_)
      have hboth := hends.and (whole t' single)
      unfold Proc.Ends at hboth
      split at hboth
      · exact absurd hboth.1.1 good
      · obtain ⟨⟨-, -, hstored⟩, -, hkept⟩ := hboth
        exact List.singleton_inj.mp (hstored.symm.trans hkept)
  · intro hcondition u hu
    obtain rfl : t' = u := List.singleton_inj.mp (single.symm.trans hu)
    refine hends.imp ?_ ?_
    · rintro _ s' ⟨good, hreply, hthreads⟩
      have hfull : (leadingBytes (givenPairs field)).length = givenBytes field :=
        (leadingBytes_length_eq_iff (givenPairs_length field)).mpr good
      refine ⟨good, hreply, _, hthreads, ?_⟩
      rw [storeBytes_registers hle, hfull]
    · rintro e s' ⟨he, bad, hthreads⟩
      have hsame := (storeBytes_eq_self_iff hle).mpr (hcondition.resolve_left bad)
      exact ⟨he, hthreads.trans (by rw [hsame])⟩

theorem allOrNothing_iff_00 :
    ∃ t, (launched []).allThreads = [t] ∧
      (AllOrNothing singleThread Signals.darwin (launched []) (ascii "00") ↔
        (∀ c ∈ givenPairs (ascii "00"), LowerHex c) ∨
          leadingBytes (givenPairs (ascii "00")) <+:
            (filled singleThread (launched []).os t).regcache.registers) := by
  obtain ⟨rs, t, h⟩ := (reachable_launched []).serving
  exact ⟨t, h.threads, allOrNothing_iff (reachable_launched []) h.threads (ascii "00")⟩

/-- A register of the thread as `thread_get_state` shows it. -/
theorem collect_filled_of_invalid {os : σ} {state : ThreadState}
    (invalid : t.regcache.valid = false) (read : (k.threadGetState t.port os).1 = some state)
    {name : RegName} (hname : name.isFloat = false) (float : FloatState) :
    collectByName name (filled k os t).regcache.registers =
      ({ thread := state, float := float } : Machine).get name := by
  have hfetch := DarwinPpc.collect_fetchRegisters k read t.regcache.registers_length hname float
  simpa [filled, invalid] using hfetch

/-- `Gff0g` is refused at its last character, and the `ff` is in the cache then. -/
theorem not_allOrNothing_ff0g :
    Reachable singleThread Signals.darwin (launched []) ∧
      ¬ AllOrNothing singleThread Signals.darwin (launched []) (ascii "ff0g") := by
  refine ⟨reachable_launched [], fun whole => ?_⟩
  obtain ⟨rs, t, h⟩ := (reachable_launched []).serving
  have hinvalid : (launched []).allThreads.map (fun t => t.regcache.valid) = [false] := rfl
  have hread : (launched []).allThreads.map
      (fun t => (singleThread.threadGetState t.port (launched []).os).1) =
        [some blankMachine.thread] := rfl
  have hboth := (handlePacket_G_ends h (ascii "ff0g")).and (whole t h.threads)
  have hthreads := h.threads
  generalize launched [] = s at *
  rw [hthreads, List.map_singleton, List.singleton_inj] at hinvalid hread
  have hzero : collectByName (.r 0) (filled singleThread s.os t).regcache.registers =
      [0, 0, 0, 0] :=
    collect_filled_of_invalid hinvalid hread rfl blankMachine.float
  unfold Proc.Ends at hboth
  split at hboth
  · exact absurd hboth.1.1 (by decide)
  · obtain ⟨⟨-, -, hstored⟩, -, hkept⟩ := hboth
    have hself := List.singleton_inj.mp (hstored.symm.trans hkept)
    have hprefix := (storeBytes_eq_self_iff (givenBytes_le (ascii "ff0g"))).mp hself
    have hbytes : leadingBytes (givenPairs (ascii "ff0g")) = [0xff] := by decide
    obtain ⟨rest, hrest⟩ := hbytes ▸ hprefix
    rw [← hrest] at hzero
    have hfirst : (0xff : Byte) = 0 := Option.some.inj (congrArg List.head? hzero)
    exact absurd hfirst (by decide)

end Gdbserver
