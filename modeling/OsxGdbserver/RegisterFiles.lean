import OsxGdbserver.Machines
import OsxGdbserver.RegisterPackets
import OsxGdbserver.Lib.Simulation

/-!
# Register caches as register files

What a client and the inferior see of the caches of any number of threads, against a model
in which each thread owns one register file and `G` and `P` write it at once.
-/

namespace Gdbserver

open Remote CString Ppc

variable {σ : Type} {k : Kernel σ} {host : Signals.Host} {machine : σ → Port → Machine}

/-- The bytes of each register. -/
abbrev RegisterFile := RegName → List Byte

/-- A packet by what follows its letters, a resume as the handlers make it, and the stop
reply when the inferior has stopped. -/
inductive RegisterOp
  | Hg (field : List Byte)
  | g
  | p (field : List Byte)
  | G (field : List Byte)
  | P (field : List Byte)
  | resume (contThread stepThread : Int) (info : List ThreadResume)
  | stopReply (sig : Byte)
  deriving DecidableEq, Repr

/-- What shows of an operation: a reply with registers, or at the `ptrace` request the
registers of every thread. -/
inductive Shown
  | reply (text : List Byte)
  | resumed (files : List RegisterFile)
  | nothing
  | stopped

def handleText (k : Kernel σ) (host : Signals.Host) (body : List Byte) :
    Proc (Server σ) Unit := do
  modify fun s => s.withText body
  let _ ← handlePacket k host

def RegisterOp.call (k : Kernel σ) (host : Signals.Host) : RegisterOp → Proc (Server σ) Unit
  | .Hg field => handleText k host (ascii "Hg" ++ field)
  | .g => handleText k host (ascii "g")
  | .p field => handleText k host (ch 'p' :: field)
  | .G field => handleText k host (ch 'G' :: field)
  | .P field => handleText k host (ch 'P' :: field)
  | .resume contThread stepThread info => do
    modify fun s => { s with contThread := contThread, stepThread := stepThread }
    setDesiredInferior false
    darwinResume k info
  | .stopReply sig => do
    modify fun s => { s with status := ch 'T', sig := sig }
    prepareResumeReply k host

def RegisterOp.shown (machine : σ → Port → Machine) (op : RegisterOp) (s : Server σ) : Shown :=
  match op, s.ptraces with
  | .g, _ | .p _, _ => .reply (cstr s.ownBuf)
  | .resume _ _ _, (_, _, _, os) :: _ =>
    .resumed (s.allThreads.map fun t => (machine os t.port).get)
  | _, _ => .nothing

def cacheStep (k : Kernel σ) (host : Signals.Host) (machine : σ → Port → Machine)
    (s : Server σ) (op : RegisterOp) : Shown × Server σ :=
  match (op.call k host).run s with
  | .ok _ s' => (op.shown machine s', s')
  | .error _ s' => (.stopped, s')

/-- The threads by their ids; `served` are those whose registers the client has been shown,
or has written, since the last resume. -/
structure FileModel where
  ids : List Int
  general : Int
  current : Int
  served : Int → Bool
  files : Int → RegisterFile

namespace FileModel

/-- The first of the wanted threads that there is, or else the first of all. -/
def chosen (m : FileModel) (wanted : List Int) : Int :=
  ((wanted.find? fun id => id ∈ m.ids).or m.ids.head?).getD 0

/-- The model when a packet has selected a thread and was served for it. -/
def serve (m : FileModel) (id : Int) : FileModel :=
  { m with current := id, served := Function.update m.served id true }

def write (m : FileModel) (id : Int) (file : RegisterFile) : FileModel :=
  { m with files := Function.update m.files id file }

end FileModel

/-- `step_thread`, where it counts, and `cont_thread`. -/
def resumeWanted (contThread stepThread : Int) : List Int :=
  if stepThread > 0 ∧ (contThread = 0 ∨ contThread = -1) then [stepThread, contThread]
  else [contThread]

/-- `after` are the registers that the threads have when the inferior has run. -/
def fileStep (after : Int → RegisterFile) (m : FileModel) : RegisterOp → Shown × FileModel
  | .Hg field =>
    let m := { m with general := fieldNumber field }
    (.nothing, { m with current := m.chosen [m.general] })
  | .g =>
    let id := m.chosen [m.general]
    (.reply (convertIntToAscii (regDefs.flatMap fun r => m.files id r.name)), m.serve id)
  | .p field =>
    let id := m.chosen [m.general]
    match registerAt (fieldNumber field) with
    | some r => (.reply (convertIntToAscii (m.files id r.name)), m.serve id)
    | none => (.stopped, m)
  | .G field =>
    let id := m.chosen [m.general]
    (.nothing, (m.serve id).write id fun name => collectByName name (leadingBytes field))
  | .P field =>
    let id := m.chosen [m.general]
    match registerAt (fieldNumber field) with
    | some r =>
      (.nothing, (m.serve id).write id
        (Function.update (m.files id) r.name (fieldValue field r.size).1))
    | none => (.stopped, m)
  | .resume contThread stepThread _ =>
    (.resumed (m.ids.map m.files),
      { m with
        current := m.chosen (resumeWanted contThread stepThread)
        served := fun _ => false
        files := after })
  | .stopReply _ => (.nothing, { m.serve m.current with general := m.current })

attribute [local simp] fileStep RegisterOp.shown

/-- The register exists, the digits are good, and `P` comes only after its thread was
served. -/
def RegisterOp.Valid (m : FileModel) : RegisterOp → Prop
  | .p field => (registerAt (fieldNumber field)).isSome = true
  | .G field => field.length = registersLength ∧ ∀ c ∈ field, LowerHex c
  | .P field =>
    (∃ r, registerAt (fieldNumber field) = some r ∧ (fieldValue field r.size).2 = true) ∧
      m.served (m.chosen [m.general]) = true
  | .resume _ _ info => ∃ r ∈ info, r.thread = -1
  | _ => True

/-- The registers of the listed threads, as the machine has them. -/
def registerFiles (machine : σ → Port → Machine) (s : Server σ) (id : Int) : RegisterFile :=
  match findInferiorId s.allThreads id with
  | some t => (machine s.os t.port).get
  | none => fun _ => []

/-- Both make the step, and the model's files are then what the machine has made of them. -/
def bothStep (k : Kernel σ) (host : Signals.Host) (machine : σ → Port → Machine)
    (both : Server σ × FileModel) (op : RegisterOp) : (Shown × Shown) × (Server σ × FileModel) :=
  let server := cacheStep k host machine both.1 op
  let model := fileStep (registerFiles machine server.2) both.2 op
  ((server.1, model.1), (server.2, model.2))

/-- The files of the threads before any of them was served. -/
def FileModel.of (machine : σ → Port → Machine) (s : Server σ) (t : ThreadInfo) : FileModel where
  ids := s.allThreads.map ThreadInfo.id
  general := s.generalThread
  current := t.id
  served := fun _ => false
  files := registerFiles machine s

/-- No two threads share an address, an id or the registers of one port. -/
structure OwnThreads (threads : List ThreadInfo) : Prop where
  nodes : (threads.map ThreadInfo.node).Nodup
  ids : (threads.map ThreadInfo.id).Nodup
  ports : (threads.map ThreadInfo.port).Nodup

/-- A thread's registers as a client sees them: in its cache while that is valid. -/
def registersOf (machines : Port → Machine) (t : ThreadInfo) : RegisterFile :=
  if t.regcache.valid then fun name => collectByName name t.regcache.registers
  else (machines t.port).get

/-- A thread's cache after `get_regcache`. -/
theorem collect_filled (shows : ShowsRegisters k machine) (obliging : Obliging k) (os : σ)
    (t : ThreadInfo) (name : RegName) :
    collectByName name (filled k os t).regcache.registers = registersOf (machine os) t name := by
  unfold filled registersOf
  split
  · rfl
  · have hfetch := shows.collect_fetchRegisters t.port t.regcache.registers_length os name
    rw [if_pos (obliging.fetched t.port os name)] at hfetch
    exact hfetch

/-- One thread's cache goes to the machine. -/
theorem storedOs_machine (shows : ShowsRegisters k machine) (obliging : Obliging k) (os : σ)
    (t : ThreadInfo) :
    (machine (storedOs k os t) t.port).get = registersOf (machine os) t ∧
      ∀ other, other ≠ t.port → machine (storedOs k os t) other = machine os other := by
  unfold storedOs registersOf
  cases hvalid : t.regcache.valid with
  | false => exact ⟨rfl, fun _ _ => rfl⟩
  | true =>
    obtain ⟨hown, hothers⟩ := shows.storeRegisters t.port t.regcache.registers_length os
    refine ⟨funext fun name => ?_, hothers⟩
    have hname := hown name
    rw [if_pos (obliging.stored _ _ _ _)] at hname
    exact hname

/-- All of them go, each to its own port. -/
theorem flush_machine (shows : ShowsRegisters k machine) (obliging : Obliging k)
    {threads : List ThreadInfo} (ports : (threads.map ThreadInfo.port).Nodup) (os : σ) :
    (∀ t ∈ threads, (machine (threads.foldl (storedOs k) os) t.port).get =
      registersOf (machine os) t) ∧
    ∀ other ∉ threads.map ThreadInfo.port,
      machine (threads.foldl (storedOs k) os) other = machine os other := by
  induction threads generalizing os with
  | nil => exact ⟨by simp, fun _ _ => rfl⟩
  | cons t threads ih =>
    rw [List.map_cons, List.nodup_cons] at ports
    obtain ⟨hone, hrest⟩ := storedOs_machine shows obliging os t
    obtain ⟨hlisted, hothers⟩ := ih ports.2 (storedOs k os t)
    constructor
    · intro u hu
      rcases List.mem_cons.mp hu with rfl | hu
      · exact (congrArg Machine.get (hothers u.port ports.1)).trans hone
      · have hne : u.port ≠ t.port := fun heq => ports.1 (heq ▸ List.mem_map_of_mem hu)
        refine (hlisted u hu).trans ?_
        unfold registersOf
        rw [hrest u.port hne]
    · intro other hother
      rw [List.map_cons, List.mem_cons, not_or] at hother
      exact (hothers other hother.2).trans (hrest other hother.1)

/-- Each file of the model is the cache of its thread, while that is valid, and what the
machine has otherwise. -/
structure FilesAgree (machines : Port → Machine) (threads : List ThreadInfo) (general : Int)
    (current : Option Nat) (m : FileModel) : Prop where
  own : OwnThreads threads
  ids : m.ids = threads.map ThreadInfo.id
  general : m.general = general
  current : ∃ t ∈ threads, current = some t.node ∧ t.id = m.current
  served : ∀ t ∈ threads, m.served t.id = t.regcache.valid
  files : ∀ t ∈ threads, m.files t.id = registersOf machines t

def Mirrors (machine : σ → Port → Machine) (s : Server σ) (m : FileModel) : Prop :=
  FilesAgree (machine s.os) s.allThreads s.generalThread s.currentInferior m

section Agreeing

variable {machines : Port → Machine} {threads : List ThreadInfo} {general : Int}
  {current : Option Nat} {m : FileModel} {t : ThreadInfo}

theorem id_of_find {id : Int} (h : findInferiorId threads id = some t) : t.id = id :=
  of_decide_eq_true (List.find?_some (p := fun t : ThreadInfo => t.id = id) h)

theorem findInferiorId_map (threads : List ThreadInfo) (id : Int) :
    (findInferiorId threads id).map ThreadInfo.id =
      if id ∈ threads.map ThreadInfo.id then some id else none := by
  cases hfind : findInferiorId threads id with
  | none =>
    have hnot : id ∉ threads.map ThreadInfo.id := by
      intro hmem
      obtain ⟨t, ht, hid⟩ := List.mem_map.mp hmem
      simpa [hid] using List.find?_eq_none.mp hfind t ht
    rw [if_neg hnot]
    rfl
  | some t =>
    have hid := id_of_find hfind
    have hmem := List.mem_map_of_mem (f := ThreadInfo.id) (List.mem_of_find?_eq_some hfind)
    rw [if_pos (hid ▸ hmem), ← hid]
    rfl

theorem findInferiorId_of_mem (ids : (threads.map ThreadInfo.id).Nodup) (ht : t ∈ threads) :
    findInferiorId threads t.id = some t := by
  cases hfind : findInferiorId threads t.id with
  | none => simpa using List.find?_eq_none.mp hfind t ht
  | some u =>
    rw [List.inj_on_of_nodup_map ids (List.mem_of_find?_eq_some hfind) ht (id_of_find hfind)]

/-- The thread that `set_desired_inferior` finds among those wanted. -/
theorem chosen_of_or {found : Option ThreadInfo} {wanted : List Int}
    (ids : m.ids = threads.map ThreadInfo.id)
    (hfound : found.map ThreadInfo.id = wanted.find? fun id => id ∈ m.ids)
    (h : found.or threads.head? = some t) : m.chosen wanted = t.id := by
  have hhead : m.ids.head? = threads.head?.map ThreadInfo.id := by
    rw [ids, List.head?_map]
  rw [FileModel.chosen, ← hfound, hhead, ← Option.map_or, h]
  rfl

theorem chosen_general {s : Server σ} (ids : m.ids = s.allThreads.map ThreadInfo.id)
    (general : m.general = s.generalThread) (h : s.desired true = some t) :
    m.chosen [m.general] = t.id := by
  refine chosen_of_or ids ?_ h
  rw [if_pos rfl, findInferiorId_map, ← general, ← ids]
  by_cases hmem : m.general ∈ m.ids <;> simp [hmem]

theorem chosen_resume {s : Server σ} (ids : m.ids = s.allThreads.map ThreadInfo.id)
    (h : s.desired false = some t) :
    m.chosen (resumeWanted s.contThread s.stepThread) = t.id := by
  refine chosen_of_or ids ?_ h
  rw [if_neg Bool.false_ne_true, Option.map_or, findInferiorId_map, ← ids, resumeWanted]
  by_cases hstep : s.stepThread > 0 ∧ (s.contThread = 0 ∨ s.contThread = -1)
  · rw [if_pos hstep, if_pos hstep, findInferiorId_map, ← ids]
    by_cases hmem : s.stepThread ∈ m.ids <;> by_cases hcont : s.contThread ∈ m.ids <;>
      simp [hmem, hcont]
  · rw [if_neg hstep, if_neg hstep]
    by_cases hcont : s.contThread ∈ m.ids <;> simp [hcont]

namespace FilesAgree

theorem select (h : FilesAgree machines threads general current m) (ht : t ∈ threads) :
    FilesAgree machines threads general (some t.node) { m with current := t.id } where
  own := h.own
  ids := h.ids
  general := h.general
  current := ⟨t, ht, rfl, rfl⟩
  served := h.served
  files := h.files

/-- The one thread becomes valid, with the given registers in its cache. -/
theorem assign (h : FilesAgree machines threads general current m) (ht : t ∈ threads)
    {f : ThreadInfo → ThreadInfo} {file : RegisterFile} (node : ∀ u, (f u).node = u.node)
    (id : ∀ u, (f u).id = u.id) (port : ∀ u, (f u).port = u.port)
    (valid : (f t).regcache.valid = true)
    (cached : ∀ name, collectByName name (f t).regcache.registers = file name) :
    FilesAgree machines (threads.map fun u => if u.node = t.node then f u else u) general current
      { m with
        served := Function.update m.served t.id true
        files := Function.update m.files t.id file } := by
  have hsame : ∀ {α : Type} {v : ThreadInfo → α}, (∀ u, v (f u) = v u) →
      (threads.map fun u => if u.node = t.node then f u else u).map v = threads.map v := by
    intro α v hv
    rw [List.map_map]
    apply List.map_congr_left
    intro u _
    by_cases hu : u.node = t.node <;> simp [hu, hv]
  have hlisted : ∀ {P : ThreadInfo → Prop}, P (f t) →
      (∀ u ∈ threads, u.id ≠ t.id → P u) →
        ∀ u ∈ threads.map fun u => if u.node = t.node then f u else u, P u := by
    intro P hone hothers u hu
    obtain ⟨v, hv, rfl⟩ := List.mem_map.mp hu
    by_cases hnode : v.node = t.node
    · rw [if_pos hnode, List.inj_on_of_nodup_map h.own.nodes hv ht hnode]
      exact hone
    · rw [if_neg hnode]
      refine hothers v hv fun hid => hnode ?_
      rw [List.inj_on_of_nodup_map h.own.ids hv ht hid]
  constructor
  · exact ⟨hsame node ▸ h.own.nodes, hsame id ▸ h.own.ids, hsame port ▸ h.own.ports⟩
  · exact h.ids.trans (hsame id).symm
  · exact h.general
  · obtain ⟨v, hv, hcurrent, hid⟩ := h.current
    refine ⟨_, List.mem_map_of_mem hv, ?_, ?_⟩
    · rw [hcurrent]
      split <;> simp [node]
    · rw [← hid]
      split <;> simp [id]
  · apply hlisted
    · rw [id, valid]
      exact Function.update_self ..
    · intro u hu hne
      exact (Function.update_of_ne hne ..).trans (h.served u hu)
  · apply hlisted
    · rw [id, registersOf, if_pos valid, funext cached]
      exact Function.update_self ..
    · intro u hu hne
      exact (Function.update_of_ne hne ..).trans (h.files u hu)

/-- The thread's registers come into the cache, and the model's file stays what it is. -/
theorem serve (h : FilesAgree machines threads general current m) (ht : t ∈ threads)
    {f : ThreadInfo → ThreadInfo} (node : ∀ u, (f u).node = u.node)
    (id : ∀ u, (f u).id = u.id) (port : ∀ u, (f u).port = u.port)
    (valid : (f t).regcache.valid = true)
    (cached : ∀ name, collectByName name (f t).regcache.registers = m.files t.id name) :
    FilesAgree machines (threads.map fun u => if u.node = t.node then f u else u) general current
      { m with served := Function.update m.served t.id true } := by
  have hassign := h.assign ht node id port valid cached
  rwa [Function.update_eq_self] at hassign

theorem setGeneral (h : FilesAgree machines threads general current m) (id : Int) :
    FilesAgree machines threads id current { m with general := id } where
  own := h.own
  ids := h.ids
  general := rfl
  current := h.current
  served := h.served
  files := h.files

/-- No cache is valid any more, and the files are what the machine then has. -/
theorem resumed (h : FilesAgree machines threads general current m) (ht : t ∈ threads)
    (machines' : Port → Machine) :
    FilesAgree machines' (threads.map (setValid false)) general (some t.node)
      { m with
        current := t.id
        served := fun _ => false
        files := fun id =>
          match findInferiorId (threads.map (setValid false)) id with
          | some u => (machines' u.port).get
          | none => fun _ => [] } := by
  have hsame : ∀ {α : Type} {v : ThreadInfo → α}, (∀ u, v (setValid false u) = v u) →
      (threads.map (setValid false)).map v = threads.map v := by
    intro α v hv
    rw [List.map_map]
    exact List.map_congr_left fun u _ => hv u
  have hids : ((threads.map (setValid false)).map ThreadInfo.id).Nodup :=
    hsame (v := ThreadInfo.id) (fun _ => rfl) ▸ h.own.ids
  constructor
  · exact ⟨hsame (v := ThreadInfo.node) (fun _ => rfl) ▸ h.own.nodes, hids,
      hsame (v := ThreadInfo.port) (fun _ => rfl) ▸ h.own.ports⟩
  · exact h.ids.trans (hsame fun _ => rfl).symm
  · exact h.general
  · exact ⟨setValid false t, List.mem_map_of_mem ht, rfl, rfl⟩
  · intro u hu
    obtain ⟨v, -, rfl⟩ := List.mem_map.mp hu
    rfl
  · intro u hu
    have hfind := findInferiorId_of_mem hids hu
    obtain ⟨v, -, rfl⟩ := List.mem_map.mp hu
    dsimp only
    rw [hfind]
    rfl

end FilesAgree

end Agreeing

section Operations

variable {s : Server σ} {m : FileModel} {t : ThreadInfo} {field : List Byte}

theorem exists_desired (listed : t ∈ s.allThreads) (useGeneral : Bool) :
    ∃ u, s.desired useGeneral = some u := by
  rw [← Option.isSome_iff_exists, ← Option.ne_none_iff_isSome]
  intro hnone
  have hhead := (Option.or_eq_none_iff.mp hnone).2
  rw [List.head?_eq_none_iff.mp hhead] at listed
  cases listed

theorem handleText_run {body : List Byte} {s' : Server σ} {c : Char} {p : Proc (Server σ) Unit}
    (hc : command (s.withText body) = c) (hp : dispatch k host c = do p; return false)
    (run : p.run (s.withText body) = .ok () s') :
    (handleText k host body).run s = .ok () s' := by
  have hpacket : (handlePacket k host).run (s.withText body) = .ok false s' := by
    rw [handlePacket_run, hc, hp, EStateM.run_bind, run]
    rfl
  simp only [handleText, EStateM.run_bind, EStateM.run_modify, hpacket]
  rfl

theorem handleHSetThread_run (field : List Byte) :
    (handleHSetThread : Proc (Server σ) Unit).run (s.withText (ascii "Hg" ++ field)) =
      .ok () (({ s.withText (ascii "Hg" ++ field) with
        generalThread := fieldNumber field }.withText (ascii "OK")).select true) := by
  have hnumber : (strtol ((s.withText (ascii "Hg" ++ field)).ownBuf.drop 2)).1 =
      fieldNumber field := strtol_nul field _ []
  have hg : deref ((s.withText (ascii "Hg" ++ field)).ownBuf.drop 1) = ch 'g' := rfl
  have hok : ∀ s : Server σ, writeOk.run s = .ok () (s.withText (ascii "OK")) :=
    fun _ => reply_run (by decide)
  simp only [handleHSetThread, EStateM.run_bind, packet_run, hnumber, if_pos hg,
    EStateM.run_modify, hok, setDesiredInferior_run]

theorem handlegReadRegs_run (nodup : (s.allThreads.map ThreadInfo.node).Nodup)
    (h : s.desired true = some t) :
    (handlegReadRegs k).run s = .ok () (((s.select true).fill k t).withText
      (convertIntToAscii (filled k s.os t).regcache.registers)) := by
  have hread := registersToString_run (k := k) (live_select nodup h) nodup
  have hfits : (convertIntToAscii (filled k s.os t).regcache.registers).length < pbufsiz := by
    rw [convertIntToAscii_length, (filled k s.os t).regcache.registers_length]
    decide
  rw [handlegReadRegs, EStateM.run_bind, setDesiredInferior_run]
  dsimp only
  rw [EStateM.run_bind, hread]
  exact reply_run hfits

/-- Every byte of the cache is given. -/
theorem givenPairs_full (full : field.length = registersLength)
    (digits : ∀ c ∈ field, LowerHex c) : givenPairs field = field := by
  have hnul : 0 ∉ field := fun hmem => absurd (digits 0 hmem) (by decide)
  have hcstr : cstr field = field := by
    have happend := cstr_append_nul hnul []
    rwa [cstr_stored] at happend
  have hbytes : 2 * givenBytes field = field.length := by
    rw [givenBytes, hcstr, full, registersLength]
    omega
  rw [givenPairs, hbytes, List.take_length]

theorem handleGWriteRegs_run (nodup : (s.allThreads.map ThreadInfo.node).Nodup)
    (h : (s.withText (ch 'G' :: field)).desired true = some t)
    (full : field.length = registersLength) (digits : ∀ c ∈ field, LowerHex c) :
    (handleGWriteRegs k).run (s.withText (ch 'G' :: field)) = .ok ()
      (((((((s.withText (ch 'G' :: field)).select true).fill k t).record
        (.supply t.node true true 0 (leadingBytes field))).assignThread t.node
          (storeBytes (leadingBytes field)))).withText (ascii "OK")) := by
  have hlive := live_select (s := s.withText (ch 'G' :: field)) nodup h
  have hstored := registersFromString_run (k := k) hlive nodup
    ((s.withText (ch 'G' :: field)).ownBuf.drop 1)
  rw [decodedRegisters_withText, givenPairs_full full digits, if_pos (decide_eq_true digits),
    decide_eq_true digits] at hstored
  rw [handleGWriteRegs, EStateM.run_bind, packet_run]
  dsimp only
  rw [EStateM.run_bind, setDesiredInferior_run]
  dsimp only
  rw [EStateM.run_bind, hstored]
  exact reply_run (by decide)

theorem fieldValue_length {size : Nat} (complete : (fieldValue field size).2 = true) :
    (fieldValue field size).1.length = size / 8 := by
  rw [fieldValue, pValue, convertAsciiToInt_eq] at complete ⊢
  exact of_decide_eq_true complete

theorem resumeChoice_some {info : List ThreadResume} (all : ∃ r ∈ info, r.thread = -1)
    (pid : Int) : ∃ step sig, resumeChoice pid info = some (step, sig) := by
  induction info with
  | nil => obtain ⟨r, hr, -⟩ := all; cases hr
  | cons e info ih =>
    by_cases he : e.thread = -1 ∨ e.thread = pid
    · exact ⟨e.step, e.sig, if_pos he⟩
    · obtain ⟨r, hr, hall⟩ := all
      rcases List.mem_cons.mp hr with rfl | hr
      · exact absurd (Or.inl hall) he
      · obtain ⟨step, sig, hrest⟩ := ih ⟨r, hr, hall⟩
        exact ⟨step, sig, (if_neg he).trans hrest⟩

/-- `op` returns, with the model's result, and in the model's state. -/
def Follows (k : Kernel σ) (host : Signals.Host) (machine : σ → Port → Machine) (s : Server σ)
    (m : FileModel) (op : RegisterOp) : Prop :=
  ∃ s', (op.call k host).run s = .ok () s' ∧
    op.shown machine s' = (fileStep (registerFiles machine s') m op).1 ∧
      Mirrors machine s' (fileStep (registerFiles machine s') m op).2

/-- The thread that a packet with `set_desired_inferior(1)` is for. -/
theorem Mirrors.chosen (h : Mirrors machine s m) :
    ∃ t ∈ s.allThreads, s.desired true = some t ∧ m.chosen [m.general] = t.id := by
  obtain ⟨u, hu, -, -⟩ := h.current
  obtain ⟨t, ht⟩ := exists_desired hu true
  exact ⟨t, desired_mem ht, ht, chosen_general h.ids h.general ht⟩

theorem Mirrors.select (h : Mirrors machine s m) (desired : s.desired true = some t) :
    Mirrors machine (s.select true) { m with current := t.id } := by
  have hcurrent : (s.select true).currentInferior = some t.node :=
    congrArg (Option.map ThreadInfo.node) desired
  have hselect := FilesAgree.select h (desired_mem desired)
  unfold Mirrors
  rw [hcurrent]
  exact hselect

/-- The cache is filled for a packet. -/
theorem Mirrors.fill (h : Mirrors machine s m) (shows : ShowsRegisters k machine)
    (obliging : Obliging k) (ht : t ∈ s.allThreads) :
    Mirrors machine (s.fill k t) { m with served := Function.update m.served t.id true } ∧
      ∀ name, collectByName name (filled k s.os t).regcache.registers = m.files t.id name := by
  have hcached : ∀ name, collectByName name (filled k s.os t).regcache.registers =
      m.files t.id name := fun name =>
    (collect_filled shows obliging s.os t name).trans (congrFun (h.files t ht) name).symm
  have hserve := FilesAgree.serve h ht (filled_node s.os) (filled_id s.os) (filled_port s.os)
    (filled_valid s.os t) hcached
  have hmachine : machine (s.fill k t).os = machine s.os := shows.filledOs s.os t
  refine ⟨?_, hcached⟩
  unfold Mirrors
  rw [hmachine]
  exact hserve

/-- What is sent of a cache is what is sent of its file. -/
theorem flatMap_file {registers : List Byte} (hlen : registers.length = registerBytes)
    {file : RegisterFile} (cached : ∀ name, collectByName name registers = file name) :
    regDefs.flatMap (fun r => file r.name) = registers := by
  have hall := Regcache.flatMap_registerData byteSized (Nat.dvd_zero 8) registers
  have htotal : Regcache.totalBits regsPpc / 8 = registerBytes := rfl
  rw [Nat.zero_div, List.drop_zero, htotal, List.take_of_length_le hlen.le] at hall
  refine Eq.trans ?_ hall
  apply List.flatMap_congr
  intro r hr
  rw [← cached r.name, collectByName, named_of_mem hr]

theorem follows_Hg (h : Mirrors machine s m) : Follows k host machine s m (.Hg field) := by
  let s₁ : Server σ := Server.withText { s.withText (ascii "Hg" ++ field) with
    generalThread := fieldNumber field } (ascii "OK")
  have h₁ : Mirrors machine s₁ { m with general := fieldNumber field } :=
    FilesAgree.setGeneral h _
  obtain ⟨t, -, hdesired, hchosen⟩ := h₁.chosen
  refine ⟨s₁.select true, handleText_run (c := 'H') rfl rfl (handleHSetThread_run field), rfl, ?_⟩
  have hselect := h₁.select hdesired
  rw [← hchosen] at hselect
  exact hselect

theorem follows_g (h : Mirrors machine s m) (shows : ShowsRegisters k machine)
    (obliging : Obliging k) : Follows k host machine s m .g := by
  have h₁ : Mirrors machine (s.withText (ascii "g")) m := h
  obtain ⟨t, ht, hdesired, hchosen⟩ := h₁.chosen
  obtain ⟨hfill, hcached⟩ := (h₁.select hdesired).fill shows obliging ht
  refine ⟨_, handleText_run (c := 'g') rfl rfl (handlegReadRegs_run h.own.nodes hdesired), ?_, ?_⟩
  · have hfile := flatMap_file (filled k s.os t).regcache.registers_length hcached
    simp only [RegisterOp.shown, fileStep, hchosen,
      cstr_withText (zero_not_mem_convertIntToAscii _), hfile]
    rfl
  · rw [fileStep, hchosen]
    exact hfill

theorem follows_p (h : Mirrors machine s m) (shows : ShowsRegisters k machine)
    (obliging : Obliging k) (valid : (RegisterOp.p field).Valid m) :
    Follows k host machine s m (.p field) := by
  obtain ⟨r, hr⟩ := Option.isSome_iff_exists.mp valid
  have h₁ : Mirrors machine (s.withText (ch 'p' :: field)) m := h
  obtain ⟨t, ht, hdesired, hchosen⟩ := h₁.chosen
  obtain ⟨hfill, hcached⟩ := (h₁.select hdesired).fill shows obliging ht
  have hrun := handlepReadReg_run_some (k := k) h.own.nodes hdesired hr
  have hdata : Regcache.registerData r (filled k s.os t).regcache.registers =
      m.files t.id r.name := by
    have hname := hcached r.name
    rw [collectByName, named_of_mem (registerAt_some hr).2.2] at hname
    exact hname
  refine ⟨_, handleText_run (c := 'p') rfl rfl hrun, ?_, ?_⟩
  · simp only [RegisterOp.shown, fileStep, hchosen, hr, hdata,
      cstr_withText (zero_not_mem_convertIntToAscii _)]
  · simp only [fileStep, hchosen, hr]
    exact hfill

theorem follows_G (h : Mirrors machine s m) (shows : ShowsRegisters k machine)
    (obliging : Obliging k) (valid : (RegisterOp.G field).Valid m) :
    Follows k host machine s m (.G field) := by
  obtain ⟨full, digits⟩ := valid
  have h₁ : Mirrors machine (s.withText (ch 'G' :: field)) m := h
  obtain ⟨t, ht, hdesired, hchosen⟩ := h₁.chosen
  obtain ⟨hfill, -⟩ := (h₁.select hdesired).fill shows obliging ht
  have hrun := handleGWriteRegs_run (k := k) h.own.nodes hdesired full digits
  have hlen : (leadingBytes field).length = registerBytes :=
    (leadingBytes_length_eq_iff full).mpr digits
  have hcached : ∀ name, collectByName name
      (storeBytes (leadingBytes field) (filled k s.os t)).regcache.registers =
        collectByName name (leadingBytes field) := by
    intro name
    rw [storeBytes_registers hlen.le, hlen, List.drop_eq_nil_of_le, List.append_nil]
    rw [(filled k s.os t).regcache.registers_length]
  have hmem : filled k s.os t ∈
      (((s.withText (ch 'G' :: field)).select true).fill k t).allThreads :=
    List.mem_map.mpr ⟨t, ht, if_pos rfl⟩
  have hassign := FilesAgree.assign hfill hmem (f := storeBytes (leadingBytes field))
    (fun _ => rfl) (fun _ => rfl) (fun _ => rfl) (filled_valid s.os t) hcached
  refine ⟨_, handleText_run (c := 'G') rfl rfl hrun, rfl, ?_⟩
  simp only [filled_id, filled_node, Function.update_idem] at hassign
  rw [fileStep, hchosen]
  exact hassign

/-- A register that is supplied is updated, and no other one. -/
theorem collect_supplied {r : Regcache.Reg RegName} (hr : r ∈ regDefs) {value registers : List Byte}
    (hvalue : value.length = r.size / 8) (hlen : registers.length = registerBytes)
    (name : RegName) : collectByName name (Regcache.supplyRegister r value registers) =
      Function.update (fun name => collectByName name registers) r.name value name := by
  have hnamed : named r.name = r := named_of_mem hr
  by_cases hname : name = r.name
  · have hbytes : value.length = r.name.bytes := by
      rw [hvalue, ← named_size, hnamed]
    have hsame := collect_supply_same hbytes hlen
    rw [hnamed] at hsame
    rw [hname, Function.update_self]
    exact hsame
  · have hother := collect_supply_other (Ne.symm hname) value registers
    rw [hnamed] at hother
    rw [Function.update_of_ne hname]
    exact hother

theorem follows_P (h : Mirrors machine s m) (valid : (RegisterOp.P field).Valid m) :
    Follows k host machine s m (.P field) := by
  obtain ⟨⟨r, hr, complete⟩, hserved⟩ := valid
  have h₁ : Mirrors machine (s.withText (ch 'P' :: field)) m := h
  obtain ⟨t, ht, hdesired, hchosen⟩ := h₁.chosen
  have hvalid : t.regcache.valid = true := by
    rw [← h₁.served t ht, ← hchosen, hserved]
  have hrun := handlePWriteReg_run_some h.own.nodes hdesired hr complete
  have hfile : m.files t.id = fun name => collectByName name t.regcache.registers := by
    rw [h₁.files t ht, registersOf, if_pos hvalid]
  have hcached : ∀ name, collectByName name
      (supply r (fieldValue field r.size).1 t).regcache.registers =
        Function.update (m.files t.id) r.name (fieldValue field r.size).1 name := by
    intro name
    rw [hfile]
    exact collect_supplied (registerAt_some hr).2.2 (fieldValue_length complete)
      t.regcache.registers_length name
  have hassign := FilesAgree.assign (h₁.select hdesired) ht
    (f := supply r (fieldValue field r.size).1) (fun _ => rfl) (fun _ => rfl) (fun _ => rfl)
    hvalid hcached
  refine ⟨_, handleText_run (c := 'P') rfl rfl hrun, ?_, ?_⟩
  · simp only [RegisterOp.shown, fileStep, hr]
  · simp only [fileStep, hchosen, hr]
    exact hassign

/-- Every thread's registers are in the machine when the request is made, and in no cache
after it. -/
theorem follows_resume (h : Mirrors machine s m) (shows : ShowsRegisters k machine)
    (obliging : Obliging k) {contThread stepThread : Int} {info : List ThreadResume}
    (valid : (RegisterOp.resume contThread stepThread info).Valid m) :
    Follows k host machine s m (.resume contThread stepThread info) := by
  let s₁ : Server σ := { s with contThread := contThread, stepThread := stepThread }
  have h₁ : Mirrors machine s₁ m := h
  obtain ⟨u, hu, -, -⟩ := h.current
  obtain ⟨t, hdesired⟩ := exists_desired (s := s₁) hu false
  have hlive := live_select (s := s₁) h.own.nodes hdesired
  obtain ⟨step, sig, hchoice⟩ := resumeChoice_some valid t.pid
  have hrun := darwinResume_run (k := k) hlive h.own.nodes hchoice
  have hchosen : m.chosen (resumeWanted contThread stepThread) = t.id :=
    chosen_resume h₁.ids hdesired
  obtain ⟨hflushed, -⟩ := flush_machine shows obliging h.own.ports s.os
  refine ⟨(s₁.select false).resumed k (resumeRequest step) t.pid sig, ?_, ?_, ?_⟩
  · simp only [RegisterOp.call, EStateM.run_bind, EStateM.run_modify, setDesiredInferior_run]
    exact hrun
  · simp only [RegisterOp.shown, resumed_ptraces, fileStep, h.ids]
    congr 1
    change (s.allThreads.map (setValid false)).map _ = _
    rw [List.map_map, List.map_map]
    apply List.map_congr_left
    intro v hv
    exact (hflushed v hv).trans (h.files v hv).symm
  · have hresumed := FilesAgree.resumed h (desired_mem (s := s₁) hdesired) (machine
      ((s₁.select false).resumed k (resumeRequest step) t.pid sig).os)
    have hcurrent : ((s₁.select false).resumed k (resumeRequest step) t.pid sig).currentInferior =
        some t.node := hlive.current
    unfold Mirrors
    rw [hcurrent, fileStep, hchosen]
    exact hresumed

theorem follows_stopReply (h : Mirrors machine s m) (shows : ShowsRegisters k machine)
    (obliging : Obliging k) (sig : Byte) : Follows k host machine s m (.stopReply sig) := by
  let s₁ : Server σ := { s with status := ch 'T', sig := sig }
  have h₁ : Mirrors machine s₁ m := h
  obtain ⟨t, ht, hcurrent, hid⟩ := h₁.current
  have hlive : Live s₁ t := live_of_mem h.own.nodes ht hcurrent
  have hrun := prepareResumeReply_run k host hlive h.own.nodes
  obtain ⟨hfill, -⟩ := h₁.fill shows obliging ht
  have hgeneral := FilesAgree.setGeneral hfill t.id
  refine ⟨(s₁.reported k t).withText (resumeReply k host s₁ t), ?_, rfl, ?_⟩
  · simp only [RegisterOp.call, EStateM.run_bind, EStateM.run_modify]
    exact hrun
  · have hreported : s₁.reported k t = { s₁.fill k t with
        threadFromWait := t.id, generalThread := t.id, oldThreadFromWait := t.id } := if_pos rfl
    rw [hreported]
    rw [hid] at hgeneral
    rw [fileStep, FileModel.serve]
    rw [← hid] at hgeneral ⊢
    exact hgeneral

theorem follows (h : Mirrors machine s m) (shows : ShowsRegisters k machine)
    (obliging : Obliging k) (op : RegisterOp) (valid : op.Valid m) :
    Follows k host machine s m op := by
  cases op with
  | Hg field => exact follows_Hg h
  | g => exact follows_g h shows obliging
  | p field => exact follows_p h shows obliging valid
  | G field => exact follows_G h shows obliging valid
  | P field => exact follows_P h valid
  | resume contThread stepThread info => exact follows_resume h shows obliging valid
  | stopReply sig => exact follows_stopReply h shows obliging sig

/-- The step keeps the agreement, and both show the same. -/
theorem bothStep_agrees (h : Mirrors machine s m) (shows : ShowsRegisters k machine)
    (obliging : Obliging k) (op : RegisterOp) (valid : op.Valid m) :
    Mirrors machine (bothStep k host machine (s, m) op).2.1
        (bothStep k host machine (s, m) op).2.2 ∧
      (bothStep k host machine (s, m) op).1.1 = (bothStep k host machine (s, m) op).1.2 := by
  have hfollows : Follows k host machine s m op := follows h shows obliging op valid
  obtain ⟨s', hrun, hshown, hmirrors⟩ := hfollows
  have hstep : cacheStep k host machine s op = (op.shown machine s', s') := by
    rw [cacheStep, hrun]
  simp only [bothStep, hstep]
  exact ⟨hmirrors, hshown⟩

theorem mirrors_of (own : OwnThreads s.allThreads) (live : Live s t)
    (invalid : ∀ u ∈ s.allThreads, u.regcache.valid = false) :
    Mirrors machine s (.of machine s t) := by
  constructor
  · exact own
  · rfl
  · rfl
  · exact ⟨t, live.mem, live.current, rfl⟩
  · intro u hu
    exact (invalid u hu).symm
  · intro u hu
    have hfind := findInferiorId_of_mem own.ids hu
    change registerFiles machine s u.id = _
    rw [registerFiles, hfind, registersOf, invalid u hu]
    rfl

/-- All replies with registers, and all registers at a resume, are the model's. -/
def WritesThrough (k : Kernel σ) (host : Signals.Host) (machine : σ → Port → Machine)
    (s : Server σ) (t : ThreadInfo) (ops : List RegisterOp) : Prop :=
  ∀ step ∈ Simulation.trace (bothStep k host machine) (s, .of machine s t) ops,
    step.1.1 = step.1.2

/-- The operations are valid, each in the state that it finds. -/
def ValidRun (k : Kernel σ) (host : Signals.Host) (machine : σ → Port → Machine)
    (s : Server σ) (t : ThreadInfo) (ops : List RegisterOp) : Prop :=
  Simulation.AllowedRun (fun both op => op.Valid both.2) (bothStep k host machine)
    (s, .of machine s t) ops

/-- In every run in which `P` comes only after its thread was served. -/
theorem write_through (shows : ShowsRegisters k machine) (obliging : Obliging k)
    (own : OwnThreads s.allThreads) (live : Live s t)
    (invalid : ∀ u ∈ s.allThreads, u.regcache.valid = false) {ops : List RegisterOp}
    (valid : ValidRun k host machine s t ops) : WritesThrough k host machine s t ops := by
  have hstep : ∀ both op, Mirrors machine both.1 both.2 → RegisterOp.Valid both.2 op →
      Mirrors machine (bothStep k host machine both op).2.1 (bothStep k host machine both op).2.2 ∧
        (bothStep k host machine both op).1.1 = (bothStep k host machine both op).1.2 :=
    fun _ op h valid => bothStep_agrees h shows obliging op valid
  exact Simulation.trace_property (P := fun both => Mirrors machine both.1 both.2) hstep
    (mirrors_of own live invalid) valid

end Operations

/-- A machine in which each port stands for a thread, and whose state is their registers. -/
def perPort : Kernel (Port → Machine) where
  forkExec m := (some 7, m)
  ptrace _ _ _ m := (true, m)
  readD _ _ m := (.ok (Vector.replicate 4 0), m)
  writeD _ _ _ m := (0, m)
  waitpid _ m := (.stopped 5, m)
  reap _ m := m
  kill _ _ m := (true, m)
  taskForPid _ m := (some 1, m)
  taskThreads _ m := (some [1, 2], m)
  vmRead _ _ n m := (some (List.replicate n 0), m)
  vmWrite _ _ _ m := (true, m)
  vmProtect _ _ _ m := (true, m)
  threadGetState port m := (some (m port).thread, m)
  threadSetState port state m := (true, Function.update m port { m port with thread := state })
  floatGetState port m := (some (m port).float, m)
  floatSetState port fstate m := (true, Function.update m port { m port with float := fstate })
  vmRead_length := by
    intro _ _ n _ bs hbs
    cases hbs
    exact List.length_replicate

theorem perPort_shows : ShowsRegisters perPort id where
  threadGot _ _ _ hstate := (Option.some.inj hstate).symm
  threadGet _ _ := rfl
  floatGot _ _ _ hfstate := (Option.some.inj hfstate).symm
  floatGet _ _ := rfl
  threadSet _ _ _ := rfl
  floatSet _ _ _ := rfl
  readD _ _ _ := rfl
  writeD _ _ _ _ := rfl
  vmRead _ _ _ _ := rfl
  vmWrite _ _ _ _ := rfl
  vmProtect _ _ _ _ := rfl
  kill _ _ _ := rfl

theorem perPort_obliging : Obliging perPort where
  threadGet _ _ := rfl
  floatGet _ _ := rfl
  threadSet _ _ _ := rfl
  floatSet _ _ _ := rfl

/-- Two threads, of which the first is the current one. -/
def firstThread : ThreadInfo :=
  { node := 0, id := 7, pid := 7, port := 1, regcache := newRegisterCache }

def besideThread : Server (Port → Machine) :=
  { initial (fun _ => blankMachine) [] with
    allThreads := [firstThread, { firstThread with node := 1, id := 9, port := 2 }]
    nextThread := 2
    currentInferior := some 0 }

/-- The second thread is selected and served, its first register is written, and the
inferior is resumed. -/
theorem write_through_second : WritesThrough perPort Signals.darwin id besideThread firstThread
    [.Hg (ascii "9"), .g, .P (ascii "0=00000005"), .resume (-1) 0 [stayStopped]] := by
  have hown : OwnThreads besideThread.allThreads := ⟨by decide, by decide, by decide⟩
  refine write_through perPort_shows perPort_obliging hown rfl ?_ ?_
  · simp [besideThread, firstThread, newRegisterCache]
  · exact ⟨trivial, trivial, ⟨⟨_, rfl, rfl⟩, by decide +kernel⟩,
      ⟨stayStopped, List.mem_singleton_self _, rfl⟩,
      trivial⟩

end Gdbserver
