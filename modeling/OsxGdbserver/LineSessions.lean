import OsxGdbserver.SessionLengths
import OsxGdbserver.StartUps

/-!
# Memory over a line

Sessions of memory packets that go over a line on which frames are damaged and replies refused.
What the client receives depends on the program and on its own requests: they act on a plain
memory, to which neither the line nor the breakpoints make a difference.
-/

namespace Gdbserver

open Remote CString Overlay Simulation Ppc

variable {σ : Type} {k : Kernel σ} {host : Signals.Host} {memory : σ → MemBreak.Memory}
  {text : Int → Prop} {task : Port} {s s' : Server σ} {t : ThreadInfo} {pid ep : Int}
  {plain : MemBreak.Memory} {r : Request} {reply : List Byte}

/-- A request, and how it goes over the line. -/
structure Asked where
  exchange : Exchange
  request : Request
  sound : exchange.Sound
  asks : exchange.body = request.body

namespace Asked

/-- The chunks of the request and of what the client sends for the reply. -/
def sent (q : Asked) : List (List Byte) := q.exchange.request ++ q.exchange.answers

/-- What comes back if the client has `plain`. -/
def received (plain : MemBreak.Memory) (q : Asked) : List (List Byte) :=
  q.exchange.written false ((q.request.plainStep plain).1.map fun reply => (false, reply))

/-- What comes back in a session. -/
def receivedOver : MemBreak.Memory → List Asked → List (List Byte)
  | _, [] => []
  | plain, q :: qs => q.received plain ++ receivedOver (q.request.plainStep plain).2 qs

end Asked

/-- Every request about memory is answered. -/
theorem Request.Fits.told {listed : List Int} (fits : r.Fits text listed)
    (plain : MemBreak.Memory) : ∃ reply, (r.plainStep plain).1 = some reply := by
  cases r with
  | read addr len | write addr len data | insert addr | remove addr => exact ⟨_, rfl⟩
  | other body => cases fits

/-- What the client knows: its memory, and where its breakpoints are. -/
def Request.clientStep (c : MemBreak.Memory × List Int) (r : Request) :
    Option (List Byte) × MemBreak.Memory × List Int :=
  ((r.plainStep c.1).1, (r.plainStep c.1).2, r.places c.2)

/-- The server with what its client knows about it. -/
structure InStep (k : Kernel σ) (memory : σ → MemBreak.Memory) (text : Int → Prop) (task : Port)
    (s : Server σ) (c : MemBreak.Memory × List Int) : Prop where
  hides : ∃ t, Hides k memory text task s t
  same : ∀ x, text x → s.clientMemory k memory x = c.1 x
  places : s.breakpoints.map (·.pc) = c.2
  acks : s.noAckMode = false
  alive : ¬ (s.status = ch 'W' ∨ s.status = ch 'X')

theorem MemoryTurn.replyTo {m : MemBreak.MemState (Darwin.TargetState σ)}
    (turn : MemoryTurn k host memory text task s r reply m plain) (acks : s.noAckMode = false) :
    replyTo k host s r.body = some (false, reply) := by
  have hreply : cstr (((s.withText r.body).putMemory m).withText reply).ownBuf = reply :=
    cstr_append_nul turn.noNul _
  rw [Gdbserver.replyTo, turn.run, replyOf, hreply]
  exact congrArg (fun mode => some (mode, reply)) acks

/-- The process is still there, so the server goes on. -/
theorem MemoryTurn.answerStep {m : MemBreak.MemState (Darwin.TargetState σ)}
    (turn : MemoryTurn k host memory text task s r reply m plain)
    (alive : ¬ (s.status = ch 'W' ∨ s.status = ch 'X')) :
    answerStep k host s r.body =
      (none, (((s.withText r.body).putMemory m).withText reply).record (.putpkt reply)) := by
  let s₁ := ((s.withText r.body).putMemory m).withText reply
  have hreply : cstr s₁.ownBuf = reply := cstr_append_nul turn.noNul _
  have hdeliver : deliver.run s₁ = .ok () (s₁.record (.putpkt reply)) := by
    rw [deliver_run, hreply, if_pos turn.frames]
  have hended : (handleTerminatedInferior k).run (s₁.record (.putpkt reply)) =
      .ok false (s₁.record (.putpkt reply)) := by
    rw [handleTerminatedInferior, EStateM.run_bind, EStateM.run_get]
    exact congrArg (fun p : Proc (Server σ) Bool => p.run _) (if_neg alive)
  have hanswer : (answer k host).run (s.withText r.body) = .ok () (s₁.record (.putpkt reply)) := by
    rw [answer, EStateM.run_bind, turn.run]
    simp only [Bool.false_eq_true, if_false, EStateM.run_bind, EStateM.run_pure]
    rw [show deliver.run s₁ = _ from hdeliver]
    simp only [hended]
  rw [Gdbserver.answerStep, hanswer]
  rfl

theorem InStep.request (host : Signals.Host) (laws : ProcessMemory k memory text)
    {c : MemBreak.Memory × List Int} (h : InStep k memory text task s c)
    (fits : r.Fits text c.2) (reads : r.ReadsText text) (reaches : r.Reaches k s) :
    replyTo k host s r.body = (r.plainStep c.1).1.map (fun reply => (false, reply)) ∧
      GoesOn k host s r.body ∧
      InStep k memory text task (answerStep k host s r.body).2 (r.clientStep c).2 := by
  obtain ⟨t, hides⟩ := h.hides
  rw [← h.places] at fits
  obtain ⟨reply, m, told, turn⟩ := hides.onMemory host laws fits reaches
  obtain ⟨hreply, hsame⟩ := Request.plainStep_congr reads h.same
  have hreplied := turn.replied hides
  have hstep := turn.answerStep h.alive
  refine ⟨?_, ?_, ⟨t, hreplied.hides⟩, ?_, ?_, ?_, ?_⟩
  · rw [turn.replyTo h.acks, ← hreply, told]
    rfl
  · rw [GoesOn, hstep]
    rfl
  · intro x hx
    rw [hreplied.plain]
    exact hsame x hx
  · rw [hstep]
    exact turn.places.trans (congrArg (r.places ·) h.places)
  · rw [hstep]
    exact h.acks
  · rw [hstep]
    exact h.alive

/-- A session behind the line, and the client's own account of it. -/
structure Carried (k : Kernel σ) (host : Signals.Host) (memory : σ → MemBreak.Memory)
    (text : Int → Prop) (task : Port) (s : Server σ) (c : MemBreak.Memory × List Int)
    (qs : List Asked) : Prop where
  sent : sentOver k host s (qs.map Asked.exchange) = qs.flatMap Asked.sent
  written : writtenOver k host s (qs.map Asked.exchange) = Asked.receivedOver c.1 qs
  on : AllowedRun (GoesOn k host) (answerStep k host) s ((qs.map Asked.exchange).map Exchange.body)
  inStep : InStep k memory text task
    (finalState (answerStep k host) s ((qs.map Asked.exchange).map Exchange.body))
    (finalState Request.clientStep c (qs.map Asked.request))

theorem InStep.session (host : Signals.Host) (laws : ProcessMemory k memory text)
    {c : MemBreak.Memory × List Int} (h : InStep k memory text task s c) {qs : List Asked}
    (fits : AllowedRun (fun c r => r.Fits text c.2 ∧ r.ReadsText text) Request.clientStep c
      (qs.map Asked.request))
    (reaches : AllowedRun (fun s r => r.Reaches k s) (requestStep k host) s
      (qs.map Asked.request)) :
    Carried k host memory text task s c qs := by
  induction qs generalizing s c with
  | nil => exact ⟨rfl, rfl, trivial, h⟩
  | cons q qs ih =>
    obtain ⟨⟨hfits, hreads⟩, hrest⟩ := fits
    obtain ⟨hreaches, hreached⟩ := reaches
    obtain ⟨hreply, hgoes, hafter⟩ := h.request host laws hfits hreads hreaches
    rw [requestStep] at hreached
    rw [← q.asks] at hreply hgoes hafter hreached
    have hrest := ih hafter hrest hreached
    have hheard : q.exchange.heard (replyTo k host s q.exchange.body) = q.exchange.answers := by
      obtain ⟨reply, told⟩ := hfits.told c.1
      rw [hreply, told]
      rfl
    constructor
    · simp only [List.map_cons, sentOver, hheard, hrest.sent, List.flatMap_cons, Asked.sent,
        List.append_assoc]
    · simp only [List.map_cons, writtenOver, hreply, hrest.written, Asked.receivedOver,
        Asked.received, h.acks]
      rfl
    · exact ⟨hgoes, hrest.on⟩
    · exact hrest.inStep

theorem SameWork.clientMemory {a : Server σ} (same : SameWork a s) :
    s.clientMemory k memory = a.clientMemory k memory := by
  rw [same.rest]
  rfl

/-- Whatever happens on the line, the client of a program that has been started receives what
a memory would have replied that held the program as it was loaded. -/
theorem memory_over_line (laws : ProcessMemory k memory text) (host : Signals.Host)
    (fresh : Fresh s) (entry : EntryIn k text ep s)
    (prepared : (prepareInferior k ep pid).run s = .ok () s')
    (alive : ¬ (s'.status = ch 'W' ∨ s'.status = ch 'X')) {qs : List Asked}
    (fits : AllowedRun (fun c r => r.Fits text c.2 ∧ r.ReadsText text) Request.clientStep
      (s.loaded k memory, []) (qs.map Asked.request))
    (reaches : AllowedRun (fun s r => r.Reaches k s) (requestStep k host) s'
      (qs.map Asked.request))
    (awaits : Awaits (qs.flatMap Asked.sent) s.link) :
    let served := serveTurns k host qs.length s'
    served.1 = qs.map (fun q => q.request.body) ∧ served.2.link.input.pending = [] ∧
      served.2.link.session.writes =
        s.link.session.writes ++ Asked.receivedOver (s.loaded k memory) qs ∧
      ∀ x, text x → served.2.clientMemory k memory x =
        (finalState Request.clientStep (s.loaded k memory, []) (qs.map Asked.request)).1 x := by
  have reachable : Reachable k host s' := .start ep pid fresh prepared
  obtain ⟨rs, t, serving⟩ := reachable.serving
  obtain ⟨task, current⟩ := reachable.currentTask
  have hunmarked := start_up_unmarked laws fresh entry prepared
  have hlink : s'.link = s.link := by
    have hkept := prepareInferior_keepsLink (k := k) ep pid s
    rwa [prepared, Proc.final_ok] at hkept
  obtain ⟨hides, hsame⟩ := hunmarked.bare (k := k) serving current
  have hstart : InStep k memory text task s' (s.loaded k memory, []) := by
    refine ⟨⟨t, hides⟩, hsame, ?_, ?_, alive⟩
    · rw [hunmarked.empty]
      rfl
    · rw [Server.noAckMode, hlink]
      exact fresh.noAckMode
  have hsession := hstart.session host laws fits reaches
  have hsound : ∀ e ∈ qs.map Asked.exchange, e.Sound := by
    intro e he
    obtain ⟨q, -, rfl⟩ := List.mem_map.mp he
    exact q.sound
  rw [← hsession.sent, ← hlink] at awaits
  obtain ⟨hpackets, hturned⟩ := serveTurns_answers hsound hsession.on ⟨rfl, rfl⟩ awaits
  rw [List.length_map] at hpackets hturned
  refine ⟨?_, hturned.awaits.pending, ?_, ?_⟩
  · rw [hpackets, List.map_map]
    exact List.map_congr_left fun q _ => q.asks
  · rw [hturned.writes, hsession.written, hlink]
  · intro x hx
    rw [hturned.toSameWork.clientMemory]
    exact hsession.inStep.same x hx

/-- A breakpoint is planted, and the client refuses the reply once. -/
def planting : Exchange where
  noise := []
  body := ascii "Z0,10,4"
  refusals := ascii "-"
  request := [ascii "$Z0,10", ascii ",4#77"]
  answers := [ascii "-", ascii "+"]

/-- What is under it is read, after a frame that is damaged on the way. -/
def peeking : Exchange where
  noise := [.corrupted (ascii "m10,8") (ch '2') (ch 'e')]
  body := ascii "m10,4"
  refusals := []
  request := [ascii "$m10,8#2e$m10", ascii ",4#2e"]
  answers := [ascii "+"]

theorem sound_planting : planting.Sound where
  acceptable := by simp [planting]
  body := ⟨by decide +kernel, by decide +kernel, by decide +kernel⟩
  asks := by decide
  given := by
    unfold AddressMissing
    decide +kernel
  notD := by decide
  request := by decide +kernel
  plain := by decide +kernel
  answers := by decide +kernel

theorem sound_peeking : peeking.Sound where
  acceptable := by
    intro n hn
    rw [peeking, List.mem_singleton] at hn
    rw [hn]
    exact ⟨⟨by decide +kernel, by decide +kernel, by decide +kernel⟩, 2, 14, by decide +kernel,
      by decide +kernel, by decide +kernel⟩
  body := ⟨by decide +kernel, by decide +kernel, by decide +kernel⟩
  asks := by decide
  given := by
    unfold AddressMissing
    decide +kernel
  notD := by decide
  request := by decide +kernel
  plain := by decide +kernel
  answers := by decide +kernel

def plantAndPeek : List Asked :=
  [⟨planting, .insert (ascii "10"), sound_planting, rfl⟩,
    ⟨peeking, .read (ascii "10") (ascii "4"), sound_peeking, rfl⟩]

theorem memory_over_line_sevens :
    let chunks := plantAndPeek.flatMap Asked.sent
    let served := serveTurns obligingMachine Signals.darwin plantAndPeek.length
      (afterSevens chunks)
    served.1 = [ascii "Z0,10,4", ascii "m10,4"] ∧ served.2.link.input.pending = [] ∧
      served.2.link.session.writes =
        [ascii "+", frame (ascii "OK"), frame (ascii "OK"), ascii "-", ascii "+",
          frame (ascii "07070707")] ∧
      ∀ x, True → served.2.clientMemory obligingMachine Prod.snd x =
        (finalState Request.clientStep
          ((beforeSevens chunks).loaded obligingMachine Prod.snd, [])
          (plantAndPeek.map Asked.request)).1 x := by
  have hentry := entryIn_sixteen (beforeSevens (plantAndPeek.flatMap Asked.sent))
  have hprepared : (prepareInferior obligingMachine 16 0).run
      (beforeSevens (plantAndPeek.flatMap Asked.sent)) =
        .ok () (afterSevens (plantAndPeek.flatMap Asked.sent)) :=
    Proc.eq_ok_of_value (by decide +kernel)
  have halive : ¬ ((afterSevens (plantAndPeek.flatMap Asked.sent)).status = ch 'W' ∨
      (afterSevens (plantAndPeek.flatMap Asked.sent)).status = ch 'X') := by decide +kernel
  have hawaits : Awaits (plantAndPeek.flatMap Asked.sent)
      (beforeSevens (plantAndPeek.flatMap Asked.sent)).link :=
    ⟨⟨fun hpos => absurd hpos (Int.lt_irrefl 0), by decide +kernel⟩, rfl, Int.le_refl 0, rfl⟩
  have hfits : AllowedRun (fun c r => r.Fits (fun _ => True) c.2 ∧ r.ReadsText fun _ => True)
      Request.clientStep
      ((beforeSevens (plantAndPeek.flatMap Asked.sent)).loaded obligingMachine Prod.snd, [])
      (plantAndPeek.map Asked.request) := by
    obtain ⟨h10, -, h4, -⟩ := digits_watched
    exact ⟨⟨⟨by decide, h10, by decide, fun _ _ => trivial, by simp⟩, trivial⟩,
      ⟨⟨h10, h4, by decide⟩, fun _ _ => trivial⟩, trivial⟩
  have hreaches : AllowedRun (fun s r => r.Reaches obligingMachine s)
      (requestStep obligingMachine Signals.darwin)
      (afterSevens (plantAndPeek.flatMap Asked.sent)) (plantAndPeek.map Asked.request) :=
    ⟨obligingMachine_reaches _ _, obligingMachine_reaches _ _, trivial⟩
  obtain ⟨hpackets, hpending, hwrites, hmemory⟩ := memory_over_line
    obligingMachine_processMemory Signals.darwin (fresh_initial _ _) hentry hprepared halive hfits
    hreaches hawaits
  have hreceived : (beforeSevens (plantAndPeek.flatMap Asked.sent)).link.session.writes ++
      Asked.receivedOver
        ((beforeSevens (plantAndPeek.flatMap Asked.sent)).loaded obligingMachine Prod.snd)
        plantAndPeek =
      [ascii "+", frame (ascii "OK"), frame (ascii "OK"), ascii "-", ascii "+",
        frame (ascii "07070707")] := by decide +kernel
  have hbodies : plantAndPeek.map (fun q => q.request.body) =
      [ascii "Z0,10,4", ascii "m10,4"] := by decide +kernel
  exact ⟨hpackets.trans hbodies, hpending, hwrites.trans hreceived, hmemory⟩

end Gdbserver
