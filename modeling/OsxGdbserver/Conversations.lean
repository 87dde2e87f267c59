import OsxGdbserver.Chunkings
import OsxGdbserver.LeftoverBytes

/-!
# Conversations over a bad line

A client sends one request after the other, waits for the reply, and asks for it again until
it has come through. Whatever the line does to the frames before they get through, the server
serves the requests in order, each of them once, and ends up as one that is not behind a line.
-/

namespace Remote

variable {α : Type} {later : List (List Byte)}

/-- The chunks `later` have not been touched, or some of what they hold has been returned. -/
structure Cut (later : List (List Byte)) (l : Link) : Prop where
  wellFormed : l.input.WellFormed
  untouched : (∃ front, l.input.chunks = front ++ later) ∨
    l.input.pending.length < later.flatten.length

theorem readchar_buffered {l : Link} (h : 0 < l.input.bufcnt) :
    (Proc.final (readchar.run l)).input.chunks = l.input.chunks := by
  simp [readchar, setBufcnt, nextBuffered, h]

/-- `readchar` refills its buffer from the first chunk, and only when it is empty. -/
theorem readchar_cut : Proc.Preserves (Cut later) readchar := by
  rintro ⟨i, s⟩ ⟨wf, untouched⟩
  rcases eq_or_ne later [] with rfl | hlater
  · have hkept := readchar_ends (l := ⟨i, s⟩) wf
    have hwf := Proc.Ends.final_iff.mp (hkept.imp (fun _ _ h => h.1) fun _ _ h => h.elim)
    exact ⟨hwf, Or.inl ⟨_, (List.append_nil _).symm⟩⟩
  · cases hp : i.pending with
    | nil =>
      obtain ⟨i', hrun, wf', hp'⟩ := readchar_eof s wf hp
      have hpos : 0 < later.flatten.length := by
        rcases untouched with ⟨front, hchunks⟩ | hless
        · obtain ⟨chunk, hchunk⟩ := List.exists_mem_of_ne_nil later hlater
          have hmem : chunk ∈ i.chunks := by rw [hchunks]; exact List.mem_append_right _ hchunk
          have hflat : i.chunks.flatten = [] := (List.append_eq_nil_iff.mp hp).2
          exact absurd (List.flatten_eq_nil_iff.mp hflat chunk hmem) (wf.nonempty chunk hmem)
        · omega
      rw [hrun, Proc.final_ok]
      exact ⟨wf', Or.inr (by rw [hp']; exact hpos)⟩
    | cons b rest =>
      obtain ⟨i', wf', hp', hrun⟩ := readchar_consumes b i s rest wf hp
      have hless : i'.pending.length < i.pending.length := by
        rw [hp, hp', List.length_cons]
        omega
      have hfinal : Proc.final (readchar.run ⟨i, s⟩) = ⟨i', id s⟩ := congrArg Proc.final hrun
      rcases untouched with ⟨front, hchunks⟩ | hshort
      · by_cases hcnt : 0 < i.bufcnt
        · have hsame := readchar_buffered (l := ⟨i, s⟩) hcnt
          rw [hfinal] at hsame ⊢
          exact ⟨wf', Or.inl ⟨front, hsame.trans hchunks⟩⟩
        · have hempty : i.bufcnt.toNat = 0 := by omega
          cases front with
          | nil =>
            have hpending : i.pending = later.flatten := by
              simp [Input.pending, hempty, show i.chunks = later from hchunks]
            rw [hfinal]
            exact ⟨wf', Or.inr (by rw [← hpending]; exact hless)⟩
          | cons chunk front =>
            have hne : chunk ≠ [] := wf.nonempty chunk (by rw [hchunks]; simp)
            obtain ⟨c, cs, rfl⟩ := List.exists_cons_of_ne_nil hne
            have hrefill := readchar_run_refill s hcnt hchunks
            rw [hrefill, Proc.final_ok] at hfinal
            rw [hrefill, Proc.final_ok, hfinal]
            have hi : i.refilled c cs (front ++ later) = i' := congrArg Link.input hfinal
            refine ⟨wf', Or.inl ?_⟩
            rw [← hi]
            by_cases hleft : (c :: cs).drop bufsiz = []
            · exact ⟨front, by simp [Input.refilled, hleft]⟩
            · exact ⟨(c :: cs).drop bufsiz :: front, by simp [Input.refilled, hleft]⟩
      · rw [hfinal]
        exact ⟨wf', Or.inr (hless.trans hshort)⟩

/-- Nothing else has to do with the input. -/
theorem cut_of_keeps {p : Proc Link α} (h : Proc.Keeps (fun l : Link => l.input) p) :
    Proc.Preserves (Cut later) p :=
  .of_keeps h fun l l' hinput hcut => by
    constructor
    · rw [hinput]
      exact hcut.wellFormed
    · rw [hinput]
      exact hcut.untouched

theorem poke_cut (i : Nat) (b : Byte) : Proc.Preserves (Cut later) (poke i b) :=
  cut_of_keeps (.ite (.modify fun _ => rfl) (.throw _))

theorem scanStart_cut (fuel : Nat) : Proc.Preserves (Cut later) (scanStart fuel) := by
  induction fuel with
  | zero => exact .throw _
  | succ fuel ih =>
    refine .bind readchar_cut fun a => ?_
    cases a with
    | none => exact .pure _
    | some c => exact .ite (.pure _) ih

theorem readBody_cut (fuel i : Nat) (csum : Byte) :
    Proc.Preserves (Cut later) (readBody fuel i csum) := by
  induction fuel generalizing i csum with
  | zero => exact .throw _
  | succ fuel ih =>
    refine .bind readchar_cut fun a => ?_
    cases a with
    | none => exact .pure _
    | some c =>
      exact .ite (.bind (poke_cut _ _) fun _ => .pure _) (.bind (poke_cut _ _) fun _ => ih _ _)

theorem receive_cut (fuel : Nat) : Proc.Preserves (Cut later) (receive fuel) := by
  have hdigit : ∀ a : Option Byte, Proc.Preserves (Cut later) (fromhex a : Proc Link Nat) := by
    intro a
    unfold fromhex
    cases a.bind hexDigit with
    | none => exact .throw _
    | some v => exact .pure _
  induction fuel with
  | zero => exact .throw _
  | succ fuel ih =>
    refine .bind (scanStart_cut _) fun found =>
      .ite (.bind (readBody_cut _ _ _) fun r => ?_) (.pure _)
    rcases r with _ | ⟨len, csum⟩
    · exact .pure _
    · refine .bind readchar_cut fun a => .bind (hdigit a) fun c1 => ?_
      refine .bind readchar_cut fun a => .bind (hdigit a) fun c2 => .ite (.pure _) ?_
      exact .bind (cut_of_keeps (.modifyGet fun _ => rfl)) fun _ => ih

theorem getpkt_cut : Proc.Preserves (Cut later) getpkt := by
  have hwrite : Proc.Preserves (Cut later) (write [0x2b]) := cut_of_keeps (.modifyGet fun _ => rfl)
  refine .bind .get fun l => .bind (receive_cut _) fun len => .bind .get fun l' => ?_
  exact .ite (.bind hwrite fun _ => .pure _) (.pure _)

/-- If just what comes before these chunks has been read, they are what is left. -/
theorem Cut.left {l : Link} (cut : Cut later l) (pending : l.input.pending = later.flatten) :
    l.input.chunks = later ∧ l.input.bufcnt ≤ 0 := by
  have wf := cut.wellFormed
  rcases cut.untouched with ⟨front, hchunks⟩ | hless
  · have hlen := congrArg List.length pending
    simp only [Input.pending, hchunks, List.flatten_append, List.length_append] at hlen
    have hfront : front = [] := by
      cases front with
      | nil => rfl
      | cons chunk front =>
        have hne := wf.nonempty chunk (by rw [hchunks]; simp)
        have hpos := List.length_pos_iff.mpr hne
        simp only [List.flatten_cons, List.length_append] at hlen
        omega
    refine ⟨by rw [hchunks, hfront, List.nil_append], ?_⟩
    by_contra hcnt
    have hbuffered := wf.buffered (by omega)
    rw [List.length_take, List.length_drop] at hlen
    omega
  · rw [pending] at hless
    exact absurd hless (Nat.lt_irrefl _)

/-- The client has still to send these chunks, and its end is open. -/
structure Awaits (later : List (List Byte)) (l : Link) : Prop where
  wellFormed : l.input.WellFormed
  chunks : l.input.chunks = later
  unread : l.input.bufcnt ≤ 0
  writable : l.session.writable = none

theorem Awaits.pending {l : Link} (h : Awaits later l) : l.input.pending = later.flatten := by
  have hcnt : l.input.bufcnt.toNat = 0 := by
    have := h.unread
    omega
  simp [Input.pending, hcnt, h.chunks]

theorem handled_writable (noise : List Noise) {s : Session} (h : s.writable = none) :
    (noise.foldl (fun s n => n.handled s) s).writable = none := by
  induction noise generalizing s with
  | nil => exact h
  | cons n noise ih =>
    apply ih
    cases n with
    | junk run => exact h
    | corrupted body x y =>
      simp only [Noise.handled, Session.wrote]
      rw [store_eq, h]
      rfl

/-- What `getpkt` leaves behind a packet that has come in behind some noise. -/
structure Accepted (noise : List Noise) (body : List Byte) (later : List (List Byte))
    (l l' : Link) : Prop where
  awaits : Awaits later l'
  ownBuf : ∃ stale, l'.session.ownBuf = body ++ 0 :: stale
  mode : l'.session.noAckMode = l.session.noAckMode
  writes : l'.session.writes = l.session.writes ++
    (List.replicate (noise.map Noise.nacks).sum [0x2d] ++
      if l.session.noAckMode then [] else [[0x2b]])

/-- The first frame that is good is accepted, and nothing behind it is read. -/
theorem getpkt_accepts {noise : List Noise} (acceptable : ∀ n ∈ noise, n.Acceptable)
    {body : List Byte} (hbody : Body body) {front : List (List Byte)}
    (wire : front.flatten = noise.flatMap Noise.wire ++ frame body) {l : Link}
    (h : Awaits (front ++ later) l) :
    ∃ l', getpkt.run l = .ok body.length l' ∧ Accepted noise body later l l' := by
  have hpending : l.input.pending =
      [] ++ noise.flatMap Noise.wire ++ frame body ++ later.flatten := by
    rw [h.pending, List.flatten_append, wire, List.nil_append]
  have hreceive : Consumes ([] ++ noise.flatMap Noise.wire ++ frame body)
      (receive (l.input.pending.length + 1)) body.length (received noise body) := by
    refine receive_consumes acceptable hbody (by simp) ?_
    rw [hpending]
    simp only [List.length_append]
    omega
  obtain ⟨i', wf', hpending', hrun⟩ :=
    hreceive l.input l.session later.flatten h.wellFormed hpending
  obtain ⟨hwrites, hmode⟩ := handled_writes noise l.session
  have hwritable := handled_writable noise h.writable
  have hreceived : received noise body l.session =
      { noise.foldl (fun s n => n.handled s) l.session with
        ownBuf := (received noise body l.session).ownBuf } := by
    rw [received, store_eq]
  replace hwrites := (congrArg Session.writes hreceived).trans hwrites
  replace hmode := (congrArg Session.noAckMode hreceived).trans hmode
  replace hwritable := (congrArg Session.writable hreceived).trans hwritable
  have hbuf : ∃ stale, (received noise body l.session).ownBuf = body ++ 0 :: stale := by
    rw [received, store_ownBuf 0 body _ (Nat.zero_le _)]
    exact ⟨_, rfl⟩
  let l' : Link :=
    { input := i'
      session :=
        if l.session.noAckMode then received noise body l.session
        else (received noise body l.session).wrote [0x2b] }
  have hget : getpkt.run l = .ok body.length l' := by
    cases hno : l.session.noAckMode <;>
      simp [getpkt, hrun, hmode, hno, write, Session.wrote, l']
  have hcut := getpkt_cut l ⟨h.wellFormed, Or.inl ⟨front, h.chunks⟩⟩
  rw [hget, Proc.final_ok] at hcut
  obtain ⟨hchunks, hcnt⟩ := hcut.left hpending'
  refine ⟨l', hget, ⟨wf', hchunks, hcnt, ?_⟩, ?_, ?_, ?_⟩
  · cases hno : l.session.noAckMode <;> simp [l', hno, Session.wrote, hwritable]
  · cases hno : l.session.noAckMode <;> simpa [l', hno, Session.wrote] using hbuf
  · cases hno : l.session.noAckMode <;> simp [l', hno, Session.wrote, hmode]
  · cases hno : l.session.noAckMode <;> simp [l', hno, Session.wrote, hwrites]

end Remote

namespace Gdbserver

open Remote CString Ppc Simulation

variable {σ : Type} {k : Kernel σ} {host : Signals.Host} {a s : Server σ}
  {later : List (List Byte)}

/-- The connection after the client has answered, and been sent these buffers. -/
def Server.exchanged (later writes : List (List Byte)) (s : Server σ) : Server σ :=
  s.updateLink fun l =>
    { input := { l.input with chunks := later }
      session := { l.session with writes := l.session.writes ++ writes } }

theorem exchanged_once (open' : s.link.session.writable = none) (bytes : List Byte) :
    (s.wrote bytes).withChunks later = s.exchanged later [bytes] := by
  simp [Server.wrote, Server.withChunks, Server.exchanged, Server.updateLink, Session.wrote, open']

theorem exchanged_exchanged (later' writes writes' : List (List Byte)) :
    (s.exchanged later' writes).exchanged later writes' =
      s.exchanged later (writes ++ writes') := by
  simp [Server.exchanged, Server.updateLink]

theorem awaits_exchanged {chunks : List (List Byte)} (h : Awaits chunks s.link)
    (nonempty : ∀ chunk ∈ later, chunk ≠ []) (writes : List (List Byte)) :
    Awaits later (s.exchanged later writes).link :=
  ⟨⟨h.wellFormed.buffered, nonempty⟩, rfl, h.unread, h.writable⟩

/-- Each of the refusals makes the server write its frame once more. -/
theorem sendFrame_accepted {fuel : Nat} (acks : s.noAckMode = false) {front : List (List Byte)}
    (h : Awaits (front ++ later) s.link) {refusals : List Byte}
    (plain : ∀ c ∈ refusals, c ≠ ch '+' ∧ c ≠ 3) (wire : front.flatten = refusals ++ [ch '+'])
    (enough : s.link.input.chunks.flatten.length < fuel) (bytes : List Byte) :
    Proc.Ends (sendFrame k host bytes fuel)
      (fun r s' => r = 1 ∧ s' = s.exchanged later (List.replicate (1 + refusals.length) bytes))
      (fun _ _ => False) s := by
  induction fuel generalizing s front refusals with
  | zero => exact absurd enough (Nat.not_lt_zero _)
  | succ fuel ih =>
    have hnonempty : ∀ chunk ∈ front ++ later, chunk ≠ [] := h.chunks ▸ h.wellFormed.nonempty
    obtain ⟨c, left, rest, rfl⟩ : ∃ c left rest, front = (c :: left) :: rest := by
      rcases front with _ | ⟨_ | ⟨c, left⟩, rest⟩
      · simp at wire
      · exact absurd rfl (hnonempty [] (by simp))
      · exact ⟨c, left, rest, rfl⟩
    have hchunks : s.link.input.chunks = (c :: left) :: (rest ++ later) := h.chunks
    have hleft : (if left = [] then rest ++ later else left :: (rest ++ later)) =
        (if left = [] then rest else left :: rest) ++ later := by
      split <;> rfl
    have hrest : ∀ chunk ∈ (if left = [] then rest else left :: rest) ++ later, chunk ≠ [] := by
      rw [← hleft]
      intro chunk hchunk
      split at hchunk
      · exact hnonempty chunk (List.mem_cons_of_mem _ hchunk)
      · rename_i hne
        rcases List.mem_cons.mp hchunk with rfl | hchunk
        · exact hne
        · exact hnonempty chunk (List.mem_cons_of_mem _ hchunk)
    rw [flatten_left] at wire
    refine sendFrame_round bytes ?_ ?_ ?_ ?_ ?_
    · exact fun closed => absurd (h.writable.symm.trans closed) (by simp)
    · exact fun silent => absurd silent (Bool.eq_false_iff.mp acks)
    · exact fun hnone => absurd hchunks (hnone _ _ _)
    · intro left' rest' hplus
      rw [hchunks] at hplus
      cases hplus
      cases refusals with
      | nil =>
        have hflat := (List.cons.inj wire).2
        have hnone : (if left = [] then rest else left :: rest) = [] := by
          refine List.eq_nil_iff_forall_not_mem.mpr fun chunk hchunk => ?_
          exact hrest chunk (List.mem_append_left _ hchunk)
            (List.flatten_eq_nil_iff.mp hflat chunk hchunk)
        rw [hleft, hnone]
        exact ⟨rfl, exchanged_once h.writable bytes⟩
      | cons d refusals =>
        -- a refusal is no `+`
        exact absurd (List.cons.inj wire).1.symm (plain d List.mem_cons_self).1
    · intro c' left' rest' hbyte hc _
      rw [hchunks] at hbyte
      cases hbyte
      cases refusals with
      | nil => exact absurd (List.cons.inj wire).1 hc
      | cons d refusals =>
        obtain ⟨rfl, hflat⟩ := List.cons.inj wire
        rw [if_neg (plain _ List.mem_cons_self).2, hleft, exchanged_once h.writable]
        have acks' : (s.exchanged ((if left = [] then rest else left :: rest) ++ later)
          [bytes]).noAckMode = false := acks
        refine (ih acks' (awaits_exchanged h hrest [bytes])
          (fun e he => plain e (List.mem_cons_of_mem _ he)) hflat ?_).imp ?_ fun _ _ h => h
        · rw [hchunks, flatten_left, hleft, List.length_cons] at enough
          exact Nat.lt_of_succ_lt_succ enough
        · rintro r s' ⟨rfl, rfl⟩
          refine ⟨rfl, ?_⟩
          rw [exchanged_exchanged, List.length_cons, ← Nat.add_assoc, Nat.add_comm 1,
            List.replicate_succ]
          rfl

/-- The same server with another connection, in the same mode. -/
structure SameWork (a s : Server σ) : Prop where
  rest : s = a.updateLink fun _ => s.link
  mode : s.noAckMode = a.noAckMode

/-- The text is in `own_buf` of both. -/
structure Talks (text : List Byte) (a s : Server σ) : Prop extends SameWork a s where
  held : ∃ stale, a.ownBuf = text ++ 0 :: stale
  held' : ∃ stale, s.ownBuf = text ++ 0 :: stale

/-- The connection `l₀`, with the buffer and the mode of `l`. -/
def beside (l₀ l : Link) : Link :=
  { input := l₀.input
    session :=
      { l₀.session with noAckMode := l.session.noAckMode, ownBuf := l.session.ownBuf } }

theorem besideBuffer_beside (l : Link) : BesideBuffer (beside l) :=
  ⟨fun _ => rfl, fun _ _ => rfl⟩

theorem awaits_beside {l l' : Link} (h : Awaits later l) (same : l' = beside l l') :
    Awaits later l' := by
  rw [same]
  exact ⟨h.wellFormed, h.chunks, h.unread, h.writable⟩

/-- What uses the text alone does the same in both, and leaves the line alone. -/
theorem Talks.respects {α : Type} {p : Proc (Server σ) α} {text : List Byte} (h : Talks text a s)
    (same : ∀ m, Holding text a m → Proc.SameResult SameText (p.run a) (p.run m))
    (blind : ∀ l, Blind (beside l) p) :
    Proc.SameResult (fun a' s' => (∃ text', Talks text' a' s') ∧ s'.link = beside s.link s'.link)
      (p.run a) (p.run s) := by
  obtain ⟨stale, hbuf⟩ := h.held
  obtain ⟨stale', hbuf'⟩ := h.held'
  let m := a.updateLink (setBuffer (text ++ 0 :: stale'))
  have hm : s = m.updateLink (Gdbserver.beside s.link) := by
    have hlink : s.link = Gdbserver.beside s.link m.link := by
      have hmode : s.link.session.noAckMode = a.link.session.noAckMode := h.mode
      simp only [Gdbserver.beside, m, Server.updateLink, setBuffer]
      rw [← hbuf', ← hmode]
    rw [h.rest]
    exact congrArg (fun l => { a with link := l }) hlink
  have hsame := same m ⟨stale, stale', hbuf, rfl⟩
  have hrun := blind s.link m
  rw [← hm] at hrun
  rw [hrun]
  have hafter : ∀ a' m' : Server σ, SameText a' m' →
      (∃ text', Talks text' a' (m'.updateLink (Gdbserver.beside s.link))) ∧
        (m'.updateLink (Gdbserver.beside s.link)).link =
          Gdbserver.beside s.link (m'.updateLink (Gdbserver.beside s.link)).link := by
    rintro a' m' ⟨text', left, left', hleft, rfl⟩
    exact ⟨⟨text', ⟨rfl, rfl⟩, ⟨left, hleft⟩, ⟨left', rfl⟩⟩, rfl⟩
  generalize p.run a = r at hsame
  generalize p.run m = r' at hsame
  cases hsame with
  | ok b hst => exact .ok b (hafter _ _ hst)
  | error e hst => exact .error e (hafter _ _ hst)

theorem handlePacket_talks (k : Kernel σ) (host : Signals.Host) {body : List Byte}
    (h : Talks body a s) (given : ¬ AddressMissing body)
    (notD : deref body ≠ ch 'D') :
    Proc.SameResult (fun a' s' => (∃ text, Talks text a' s') ∧ s'.link = beside s.link s'.link)
      ((handlePacket k host).run a) ((handlePacket k host).run s) := by
  have hcommand : ∀ {r : Server σ} {stale : List Byte}, r.ownBuf = body ++ 0 :: stale →
      (handlePacket k host).run r = (dispatch k host (Char.ofUInt8 (deref body))).run r := by
    intro r stale hbuf
    rw [handlePacket_run, command, hbuf, deref_nul]
  obtain ⟨stale, hbuf⟩ := h.held
  obtain ⟨stale', hbuf'⟩ := h.held'
  rw [hcommand hbuf, hcommand hbuf']
  refine h.respects ?_ fun l => dispatch_blind (besideBuffer_beside l) ?_ fun _ =>
    handleSet_blind (besideBuffer_beside l) fun _ => rfl
  · rintro m ⟨left, left', hleft, hm⟩
    have hbufm : m.ownBuf = body ++ 0 :: left' := by
      rw [hm]
      rfl
    have hsame := handlePacket_sameText k host ⟨left, left', hleft, hm⟩ given
    rwa [hcommand hbuf, hcommand hbufm] at hsame
  · exact fun hD => notD (ch_of_ofUInt8 hD)

theorem handleTerminatedInferior_talks {text : List Byte} (h : Talks text a s) :
    Proc.SameResult (fun a' s' => (∃ text, Talks text a' s') ∧ s'.link = beside s.link s'.link)
      ((handleTerminatedInferior k).run a) ((handleTerminatedInferior k).run s) := by
  have hrespects : Proc.Respects SameText (handleTerminatedInferior k) :=
    SameText.get_bind (fun _ _ => rfl) fun s =>
      .ite (.ite SameText.restart (.throw _)) (.pure _)
  exact h.respects (fun m holding => hrespects a m ⟨text, holding⟩)
    fun l => handleTerminatedInferior_blind (besideBuffer_beside l)

/-- `putpkt` where a reply is received as soon as it is sent. -/
def deliver : Proc (Server σ) Unit := do
  let buf := cstr (← get).ownBuf
  modify fun s => s.record (.putpkt buf)
  if buf.length + 5 ≤ pbufsiz then
    return ()
  else
    throw (.fault "buf2")

/-- `servePacket` on such a server. -/
def answer (k : Kernel σ) (host : Signals.Host) : Proc (Server σ) Unit := do
  if ← handlePacket k host then
    deliver
  else
    deliver
    let _ ← handleTerminatedInferior k

/-- What becomes of the server with a request, and the reason if it stops. -/
def answerStep (k : Kernel σ) (host : Signals.Host) (a : Server σ) (body : List Byte) :
    Option Stop × Server σ :=
  let r := (answer k host).run (a.withText body)
  (Proc.stop r, Proc.final r)

/-- Whether the packet loop goes on, be it through `error`, after a turn that has ended so. -/
def loops : Option Stop → Bool
  | none => true
  | some (.error _) => true
  | some _ => false

def GoesOn (k : Kernel σ) (host : Signals.Host) (a : Server σ) (body : List Byte) : Prop :=
  loops (answerStep k host a body).1 = true

instance (a : Server σ) (body : List Byte) : Decidable (GoesOn k host a body) :=
  inferInstanceAs (Decidable (_ = true))

/-- Whether the reply needs no `+`, and its text, if the handler has returned. -/
def replyOf : EStateM.Result Stop (Server σ) Bool → Option (Bool × List Byte)
  | .ok _ a => some (a.noAckMode, cstr a.ownBuf)
  | .error _ _ => none

def replyTo (k : Kernel σ) (host : Signals.Host) (a : Server σ) (body : List Byte) :
    Option (Bool × List Byte) :=
  replyOf ((handlePacket k host).run (a.withText body))

/-- A request with what stands before its frame, the bytes that come for its reply before the
`+`, and how all of this is cut. -/
structure Exchange where
  noise : List Noise
  body : List Byte
  refusals : List Byte
  request : List (List Byte)
  answers : List (List Byte)
  deriving DecidableEq, Repr

/-- `D` leaves the packet loop, and `Z0` and `z0` alone have no address. -/
structure Exchange.Sound (e : Exchange) : Prop where
  acceptable : ∀ n ∈ e.noise, n.Acceptable
  body : Body e.body
  asks : e.body ≠ []
  given : ¬ AddressMissing e.body
  notD : deref e.body ≠ ch 'D'
  request : e.request.flatten = e.noise.flatMap Noise.wire ++ frame e.body
  plain : ∀ c ∈ e.refusals, c ≠ ch '+' ∧ c ≠ 3
  answers : e.answers.flatten = e.refusals ++ [ch '+']

/-- What the client sends for the reply. -/
def Exchange.heard (e : Exchange) : Option (Bool × List Byte) → List (List Byte)
  | some (false, _) => e.answers
  | _ => []

/-- The copies of the reply. -/
def Exchange.copies (e : Exchange) : Option (Bool × List Byte) → List (List Byte)
  | some (false, text) => List.replicate (1 + e.refusals.length) (frame text)
  | some (true, text) => [frame text]
  | none => []

/-- What is written for the request, and then for its reply. -/
def Exchange.written (e : Exchange) (silent : Bool) (reply : Option (Bool × List Byte)) :
    List (List Byte) :=
  List.replicate (e.noise.map Noise.nacks).sum [0x2d] ++
    (if silent then [] else [[0x2b]]) ++ e.copies reply

/-- The chunks that a client sends who waits for its replies. -/
def sentOver (k : Kernel σ) (host : Signals.Host) :
    Server σ → List Exchange → List (List Byte)
  | _, [] => []
  | a, e :: es => e.request ++ (e.heard (replyTo k host a e.body) ++
      sentOver k host (answerStep k host a e.body).2 es)

/-- The buffers that the server writes to it. -/
def writtenOver (k : Kernel σ) (host : Signals.Host) :
    Server σ → List Exchange → List (List Byte)
  | _, [] => []
  | a, e :: es => e.written a.noAckMode (replyTo k host a e.body) ++
      writtenOver k host (answerStep k host a e.body).2 es

theorem Talks.cstr_eq {text : List Byte} (h : Talks text a s) : cstr s.ownBuf = cstr a.ownBuf := by
  obtain ⟨stale, hbuf⟩ := h.held
  obtain ⟨stale', hbuf'⟩ := h.held'
  rw [hbuf, hbuf', cstr_nul text stale' stale]

/-- The same server, where `putpkt` has been called. -/
theorem Talks.exchanged {text : List Byte} (h : Talks text a s) (writes : List (List Byte)) :
    Talks text (a.record (.putpkt (cstr a.ownBuf)))
      ((s.record (.putpkt (cstr s.ownBuf))).exchanged later writes) where
  rest := by
    rw [h.cstr_eq]
    conv_lhs => rw [h.rest]
    rfl
  mode := h.mode
  held := h.held
  held' := h.held'

theorem putpkt_delivers (k : Kernel σ) (host : Signals.Host) {text : List Byte}
    (h : Talks text a s) {e : Exchange} (sound : e.Sound)
    (awaits : Awaits (e.heard (some (a.noAckMode, cstr a.ownBuf)) ++ later) s.link)
    (frames : Frames a) :
    ∃ r, (putpkt k host).run s =
      .ok r ((s.record (.putpkt (cstr s.ownBuf))).exchanged later
        (e.copies (some (a.noAckMode, cstr a.ownBuf)))) := by
  have hframes : (cstr s.ownBuf).length + 5 ≤ pbufsiz := by
    rw [h.cstr_eq]
    exact frames
  have hrun : (putpkt k host).run s = (sendFrame k host (frame (cstr s.ownBuf))
      (s.link.input.chunks.flatten.length + 1)).run (s.record (.putpkt (cstr s.ownBuf))) := by
    simp only [putpkt, EStateM.run_bind, EStateM.run_get, EStateM.run_modify, hframes, if_true]
  have hmode := h.mode
  rw [hrun]
  cases hacks : a.noAckMode with
  | false =>
    rw [hacks] at awaits hmode
    let sent := s.record (.putpkt (cstr s.ownBuf))
    have hacks : sent.noAckMode = false := hmode
    have hawaits : Awaits (e.answers ++ later) sent.link := awaits
    have hsent : Proc.Ends (sendFrame k host (frame (cstr s.ownBuf))
        (s.link.input.chunks.flatten.length + 1))
        (fun r s' => r = 1 ∧ s' = sent.exchanged later
          (List.replicate (1 + e.refusals.length) (frame (cstr s.ownBuf))))
        (fun _ _ => False) sent :=
      sendFrame_accepted hacks hawaits sound.plain sound.answers (Nat.lt_succ_self _) _
    unfold Proc.Ends at hsent
    split at hsent
    · rename_i r s' hsend
      refine ⟨r, ?_⟩
      rw [hsend, hsent.2, Exchange.copies, ← h.cstr_eq]
    · exact hsent.elim
  | true =>
    rw [hacks] at awaits hmode
    have hchunks : s.link.input.chunks = later := awaits.chunks
    rw [sendFrame_silent (s := s.record (.putpkt (cstr s.ownBuf))) (.inl hmode)]
    refine ⟨_, congrArg _ ?_⟩
    simp [Server.exchanged, Server.updateLink, Server.record, Session.wrote, Exchange.copies,
      awaits.writable, ← hchunks, h.cstr_eq]

/-- A server that is not behind a line, and one whose turn is over behind it. -/
structure Turned (later writes : List (List Byte)) (a s : Server σ) : Prop extends
    SameWork a s where
  awaits : Awaits later s.link
  writes : s.link.session.writes = writes

theorem servePacket_answers (k : Kernel σ) (host : Signals.Host) {e : Exchange}
    (sound : e.Sound) (h : Talks e.body a s)
    (awaits : Awaits (e.heard (replyOf ((handlePacket k host).run a)) ++ later) s.link)
    (on : loops (Proc.stop ((answer k host).run a)) = true) :
    Proc.SameResult (Turned later
        (s.link.session.writes ++ e.copies (replyOf ((handlePacket k host).run a))))
      ((answer k host).run a) ((servePacket k host).run s) := by
  have hhandled := handlePacket_talks k host h sound.given sound.notD
  unfold answer at on ⊢
  unfold servePacket
  rw [EStateM.run_bind] at on ⊢
  rw [EStateM.run_bind]
  generalize (handlePacket k host).run a = r at hhandled awaits on ⊢
  generalize (handlePacket k host).run s = r' at hhandled ⊢
  cases hhandled with
  | error stop hst =>
    rename_i a₁ s₁
    obtain ⟨⟨text, htalks⟩, hlink⟩ := hst
    have hwrites : s₁.link.session.writes = s.link.session.writes := by rw [hlink]; rfl
    refine .error stop ⟨htalks.toSameWork, awaits_beside awaits hlink, ?_⟩
    rw [hwrites]
    exact (List.append_nil _).symm
  | ok restarted hst =>
    rename_i a₁ s₁
    obtain ⟨⟨text, htalks⟩, hlink⟩ := hst
    have hwrites : s₁.link.session.writes = s.link.session.writes := by rw [hlink]; rfl
    let a₂ := a₁.record (.putpkt (cstr a₁.ownBuf))
    have hdeliver : (deliver : Proc (Server σ) Unit).run a₁ =
        if (cstr a₁.ownBuf).length + 5 ≤ pbufsiz then .ok () a₂ else .error (.fault "buf2") a₂ := by
      simp only [deliver, EStateM.run_bind, EStateM.run_get, EStateM.run_modify]
      split <;> rfl
    by_cases frames : (cstr a₁.ownBuf).length + 5 ≤ pbufsiz
    · rw [if_pos frames] at hdeliver
      have hawaits := awaits_beside awaits hlink
      obtain ⟨n, hput⟩ := putpkt_delivers k host htalks sound hawaits frames
      let copies := e.copies (replyOf (.ok restarted a₁))
      let s₂ := (s₁.record (.putpkt (cstr s₁.ownBuf))).exchanged later copies
      have hput : (putpkt k host).run s₁ = .ok n s₂ := hput
      have htalks₂ : Talks text a₂ s₂ := htalks.exchanged copies
      have hnonempty : ∀ chunk ∈ later, chunk ≠ [] := fun chunk hchunk =>
        hawaits.wellFormed.nonempty chunk
          (by rw [hawaits.chunks]; exact List.mem_append_right _ hchunk)
      have hawaits₂ : Awaits later s₂.link :=
        awaits_exchanged (s := s₁.record (.putpkt (cstr s₁.ownBuf))) hawaits hnonempty copies
      have hwrites₂ : s₂.link.session.writes = s.link.session.writes ++ copies := by
        rw [← hwrites]
        rfl
      cases restarted with
      | true =>
        simp only [if_true, hdeliver, EStateM.run_bind, hput]
        exact .ok () ⟨htalks₂.toSameWork, hawaits₂, hwrites₂⟩
      | false =>
        have hends := handleTerminatedInferior_talks (k := k) htalks₂
        simp only [Bool.false_eq_true, if_false, hdeliver, EStateM.run_bind, hput]
        generalize (handleTerminatedInferior k).run a₂ = r at hends
        generalize (handleTerminatedInferior k).run s₂ = r' at hends
        have hturned : ∀ a₃ s₃ : Server σ, (∃ text, Talks text a₃ s₃) →
            s₃.link = beside s₂.link s₃.link →
              Turned later (s.link.session.writes ++ copies) a₃ s₃ := by
          rintro a₃ s₃ ⟨_, htalks₃⟩ hlink₃
          refine ⟨htalks₃.toSameWork, awaits_beside hawaits₂ hlink₃, ?_⟩
          rw [hlink₃]
          exact hwrites₂
        cases hends with
        | ok _ hst => exact .ok () (hturned _ _ hst.1 hst.2)
        | error stop hst => exact .error stop (hturned _ _ hst.1 hst.2)
    · rw [if_neg frames] at hdeliver
      cases restarted with
      | true => simp [hdeliver, loops, Proc.stop] at on
      | false => simp [hdeliver, loops, Proc.stop, EStateM.run_bind] at on

/-- A request is accepted behind the noise, served, and answered until the client has the
reply. -/
theorem turn_answers {e : Exchange} (sound : e.Sound) (same : SameWork a s)
    (awaits : Awaits (e.request ++ (e.heard (replyTo k host a e.body) ++ later)) s.link)
    (on : GoesOn k host a e.body) :
    acceptedPacket s = some e.body ∧ ∃ s', Next k host s s' ∧
      Turned later (s.link.session.writes ++ e.written a.noAckMode (replyTo k host a e.body))
        (answerStep k host a e.body).2 s' := by
  obtain ⟨l', hrun, haccepted⟩ := getpkt_accepts sound.acceptable sound.body sound.request awaits
  let s₁ : Server σ := { s with link := l' }
  have hgetpkt : (onLink getpkt).run s = .ok (e.body.length : Int) s₁ := by
    rw [onLink, Proc.run_zoom, hrun]
  obtain ⟨stale, hbuf⟩ := haccepted.ownBuf
  have hbuf : s₁.ownBuf = e.body ++ 0 :: stale := hbuf
  have pos : 0 < (e.body.length : Int) := by
    have hlen := List.length_pos_iff.mpr sound.asks
    omega
  have htalks : Talks e.body (a.withText e.body) s₁ := by
    refine ⟨⟨?_, ?_⟩, ⟨_, rfl⟩, ⟨stale, hbuf⟩⟩
    · conv_lhs => rw [show s₁ = { s with link := l' } from rfl, same.rest]
      rfl
    · exact haccepted.mode.trans same.mode
  have hwrites : s₁.link.session.writes ++ e.copies (replyTo k host a e.body) =
      s.link.session.writes ++ e.written a.noAckMode (replyTo k host a e.body) := by
    have hmode : s.link.session.noAckMode = a.noAckMode := same.mode
    rw [show s₁.link.session.writes = _ from haccepted.writes, hmode, Exchange.written]
    simp only [List.append_assoc]
  have hserved := servePacket_answers k host sound htalks haccepted.awaits on
  change Proc.SameResult (Turned later (_ ++ e.copies (replyTo k host a e.body))) _ _ at hserved
  rw [hwrites] at hserved
  unfold GoesOn answerStep at on
  unfold answerStep
  dsimp only at on ⊢
  constructor
  · rw [acceptedPacket, hgetpkt]
    simp [hbuf]
  · generalize (answer k host).run (a.withText e.body) = r at hserved on ⊢
    generalize hserve : (servePacket k host).run s₁ = r' at hserved
    cases hserved with
    | ok _ hturned =>
      refine ⟨_, .served ?_, hturned⟩
      simp only [turn, EStateM.run_bind, hgetpkt, gt_iff_lt, pos, if_true, hserve]
      rfl
    | error stop hturned =>
      rename_i a' s'
      cases stop with
      | error message =>
        have hjump : (turn k host).run s = .error (.error message) s' := by
          simp only [turn, EStateM.run_bind, hgetpkt, gt_iff_lt, pos, if_true, hserve]
        exact ⟨_, .failed hjump, hturned⟩
      | exit code => simp [loops, Proc.stop] at on
      | fault access => simp [loops, Proc.stop] at on

/-- The turns that serve the requests, one after the other. -/
theorem serveTurns_answers {es : List Exchange} (sound : ∀ e ∈ es, e.Sound)
    (on : AllowedRun (GoesOn k host) (answerStep k host) a (es.map Exchange.body))
    (same : SameWork a s) (awaits : Awaits (sentOver k host a es) s.link) :
    (serveTurns k host es.length s).1 = es.map Exchange.body ∧
      Turned [] (s.link.session.writes ++ writtenOver k host a es)
        (finalState (answerStep k host) a (es.map Exchange.body))
        (serveTurns k host es.length s).2 := by
  induction es generalizing a s with
  | nil => exact ⟨rfl, same, awaits, (List.append_nil _).symm⟩
  | cons e es ih =>
    obtain ⟨hgoes, hrest⟩ := on
    obtain ⟨hpacket, s', next, hturned⟩ :=
      turn_answers (sound e List.mem_cons_self) same awaits hgoes
    obtain ⟨hpackets, hrest⟩ :=
      ih (fun e he => sound e (List.mem_cons_of_mem _ he)) hrest hturned.toSameWork hturned.awaits
    have hserve : serveTurns k host (es.length + 1) s =
        ([e.body] ++ (serveTurns k host es.length s').1, (serveTurns k host es.length s').2) := by
      rw [serveTurns, hpacket]
      cases next with
      | served again => rw [again]; rfl
      | failed jumped => rw [jumped]; rfl
    simp only [List.length_cons, hserve]
    rw [hturned.writes, List.append_assoc] at hrest
    exact ⟨congrArg _ hpackets, hrest⟩

/-- Each request is accepted as it was sent, once and in its turn. Apart from the connection
the server then is as if there were no line, and what it has written is told by what went
wrong on the way. -/
theorem conversation_delivered {es : List Exchange} (sound : ∀ e ∈ es, e.Sound)
    (on : AllowedRun (GoesOn k host) (answerStep k host) a (es.map Exchange.body))
    (same : SameWork a s) (awaits : Awaits (sentOver k host a es) s.link) :
    let served := serveTurns k host es.length s
    served.1 = es.map Exchange.body ∧
      SameWork (finalState (answerStep k host) a (es.map Exchange.body)) served.2 ∧
      served.2.link.input.pending = [] ∧
      served.2.link.session.writes = s.link.session.writes ++ writtenOver k host a es := by
  obtain ⟨hpackets, hturned⟩ := serveTurns_answers sound on same awaits
  exact ⟨hpackets, hturned.toSameWork, hturned.awaits.pending, hturned.writes⟩

/-- An `H` that is damaged at first and whose reply is refused once, an `m` without an address,
which gets no reply, and the end of the acknowledgements. -/
def threeRequests : List Exchange :=
  [{ noise := [.junk (ascii "+"), .corrupted (ascii "Hg8") (ch 'e') (ch '6')]
     body := ascii "Hg7"
     refusals := ascii "-"
     request := [ascii "+$Hg8#e6", ascii "$Hg7", ascii "#e6"]
     answers := [ascii "-", ascii "+"] },
   { noise := [], body := ascii "m", refusals := []
     request := [ascii "$m#6d"], answers := [ascii "+"] },
   { noise := [], body := ascii "QStartNoAckMode", refusals := []
     request := [ascii "$QStart", ascii "NoAckMode#b0"], answers := [ascii "+"] }]

theorem sound_threeRequests : ∀ e ∈ threeRequests, e.Sound := by
  have hgiven : ∀ e ∈ threeRequests, ¬ AddressMissing e.body := by
    unfold AddressMissing
    decide +kernel
  have hrange : ∀ e ∈ threeRequests, (∀ b ∈ e.body, b < 0x80) ∧ 0x23 ∉ e.body ∧
      e.body.length < pbufsiz ∧ e.body ≠ [] ∧ deref e.body ≠ ch 'D' := by decide +kernel
  have hwire : ∀ e ∈ threeRequests, e.request.flatten = e.noise.flatMap Noise.wire ++ frame e.body ∧
      (∀ c ∈ e.refusals, c ≠ ch '+' ∧ c ≠ 3) ∧ e.answers.flatten = e.refusals ++ [ch '+'] := by
    decide +kernel
  have hnoise : ∀ e ∈ threeRequests, ∀ n ∈ e.noise, n.Acceptable := by
    intro e he n hn
    simp only [threeRequests, List.mem_cons, List.not_mem_nil, or_false] at he
    rcases he with rfl | rfl | rfl
    · simp only [List.mem_cons, List.not_mem_nil, or_false] at hn
      rcases hn with rfl | rfl
      · show ∀ b ∈ ascii "+", b &&& 0x7f ≠ 0x24
        decide +kernel
      · exact ⟨⟨by decide +kernel, by decide +kernel, by decide +kernel⟩, 14, 6, by decide +kernel,
          by decide +kernel, by decide +kernel⟩
    · cases hn
    · cases hn
  intro e he
  obtain ⟨seven, noEnd, fits, asks, notD⟩ := hrange e he
  obtain ⟨request, plain, answers⟩ := hwire e he
  exact ⟨hnoise e he, ⟨seven, noEnd, fits⟩, asks, hgiven e he, notD, request, plain, answers⟩

/-- Start-up does not look at the line. -/
theorem sameWork_launched (chunks : List (List Byte)) :
    SameWork (launched []) (launched chunks) := by
  have hblind := prepareInferior_blind (u := fun _ => (initial blankMachine chunks).link)
    (k := singleThread) 0 0 (initial blankMachine [])
  have hrun : launched chunks =
      (launched []).updateLink fun _ => (initial blankMachine chunks).link := by
    have hfinal := congrArg Proc.final hblind
    rwa [Proc.final_mapState] at hfinal
  rw [hrun]
  exact ⟨rfl, rfl⟩

theorem awaits_launched {chunks : List (List Byte)} (nonempty : ∀ chunk ∈ chunks, chunk ≠ []) :
    Awaits chunks (launched chunks).link := by
  rw [show (launched chunks).link = (initial blankMachine chunks).link from rfl]
  exact ⟨⟨fun hpos => absurd hpos (Int.lt_irrefl 0), nonempty⟩, rfl, Int.le_refl 0, rfl⟩

theorem conversation_delivered_three :
    let a := launched []
    let s := launched (sentOver singleThread Signals.darwin a threeRequests)
    let served := serveTurns singleThread Signals.darwin threeRequests.length s
    served.1 = threeRequests.map Exchange.body ∧
      SameWork (finalState (answerStep singleThread Signals.darwin) a
        (threeRequests.map Exchange.body)) served.2 ∧
      served.2.link.input.pending = [] ∧
      served.2.link.session.writes = s.link.session.writes ++
        writtenOver singleThread Signals.darwin a threeRequests :=
  conversation_delivered sound_threeRequests (by decide +kernel) (sameWork_launched _)
    (awaits_launched (by decide +kernel))

end Gdbserver
