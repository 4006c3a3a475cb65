import EglUtil.LoggerDelivery
import EglUtil.LoggerFileSink

/-!
# `Logger` with its sinks

The pump renders a record once and gives the line to each sink in turn. Here the sinks have states
of their own, and whether a call throws is for the sink to say: `System` is the logger together
with what its sinks have written.

**Theorem (`reachable_isolated`).** In every reachable state each sink is what its own calls have
made of it, one after another, whatever the other sinks throw; and the records of these calls are
the accepted ones, in order, all of them once `shutdown` has returned.

**Theorem (`reachable_file`).** A `FileSink` holds one line for each record whose `write` did not
throw. These are the first of the accepted records, as a stream that has failed stays failed, and
after them there is at most one torn line. When `shutdown` has returned, the records without a
line are as many as the writes that threw.

**Theorem (`reachable_udp`).** A `UdpSink` has sent one datagram for each record whose `write` did
not throw, in order.
-/

namespace EglUtil

open Transition Lines

/-- `Sink`: a call answers whether it throws and leaves a new state. `ε` is what the destination
does. -/
structure Sink (σ ε : Type*) where
  write : ε → LogRecord → List Char → σ → Bool × σ
  flush : ε → σ → Bool × σ

namespace Logger

variable {τ σ ε ρ : Type*}

/-! ## The system -/

/-- One call of the pump: `write` with the rendered line, or `flush`. -/
def callSink (gmtime : Int → Option Tm) (S : Sink σ ε) (answer : ε) :
    Option LogRecord → σ → Bool × σ
  | some record, st => S.write answer record (renderLine gmtime record) st
  | none, st => S.flush answer st

/-- The sink whose turn it is, and the record it is to write, `none` for a `flush`. -/
def PumpPc.turn : PumpPc ρ → Option (Nat × Option ρ)
  | .delivering r i => some (i, some r)
  | .flushing _ i | .finalFlushing i => some (i, none)
  | _ => none

structure System (τ σ : Type*) where
  world : World τ LogRecord
  sink : Nat → σ

inductive SinkAction (τ ε : Type*) where
  /-- A step of the logger in which no sink is called. -/
  | other (a : Action τ LogRecord)
  /-- The pump calls the sink whose turn it is, or leaves the loop over the sinks. -/
  | callSink (answer : ε)

def Action.isCallSink : Action τ ρ → Bool
  | .callSink _ => true
  | _ => false

def System.initial (τ : Type*) (init : Nat → σ) : System τ σ :=
  ⟨World.initial τ LogRecord, init⟩

section Steps

variable [DecidableEq τ] [Fintype τ] (c : Config) (gmtime : Int → Option Tm) (S : Nat → Sink σ ε)

def System.step (s : System τ σ) : SinkAction τ ε → Option (System τ σ)
  | .other a =>
    if a.isCallSink then none
    else (s.world.step c a).map fun world => { s with world := world }
  | .callSink answer =>
    match s.world.pump.turn with
    | some (i, r) =>
      if i < c.sinks then
        let (threw, st) := Logger.callSink gmtime (S i) answer r (s.sink i)
        (s.world.step c (.callSink threw)).map fun world =>
          ⟨world, Function.update s.sink i st⟩
      else (s.world.step c (.callSink false)).map fun world => { s with world := world }
    | none => none

/-! ## What a step can do -/

inductive SystemStep (s : System τ σ) : System τ σ → Prop where
  /-- The logger moves and no sink is called. -/
  | other {a : Action τ LogRecord} {world : World τ LogRecord}
      (hstep : s.world.step c a = some world) (hcalls : world.calls = s.world.calls) :
      SystemStep s { s with world := world }
  | call {answer : ε} {i : Nat} {r : Option LogRecord} {threw : Bool} {st : σ}
      {world : World τ LogRecord} (hi : i < c.sinks)
      (hcall : Logger.callSink gmtime (S i) answer r (s.sink i) = (threw, st))
      (hstep : s.world.step c (.callSink threw) = some world)
      (hcalls : world.calls = s.world.calls ++ [⟨i, r, threw⟩]) :
      SystemStep s ⟨world, Function.update s.sink i st⟩

variable {c gmtime S} {s s' : System τ σ}

theorem calls_of_other {w w' : World τ ρ} {a : Action τ ρ} (ha : a.isCallSink = false)
    (hstep : w.step c a = some w') : w'.calls = w.calls := by
  cases step_cases hstep with
  | write | written | flushSink | flushedSinks | finalFlushSink | finalFlushedSinks => cases ha
  | take =>
    unfold World.take
    split
    · split_ifs <;> rfl
    · rfl
  | _ => rfl

theorem calls_of_callSink {w w' : World τ ρ} {threw : Bool} {i : Nat} {r : Option ρ}
    (hturn : w.pump.turn = some (i, r)) (hstep : w.step c (.callSink threw) = some w') :
    w'.calls = if i < c.sinks then w.calls ++ [⟨i, r, threw⟩] else w.calls := by
  cases step_cases hstep with
  | write threw hp hi | flushSink threw hp hi | finalFlushSink threw hp hi =>
    rw [hp] at hturn
    cases hturn
    exact (if_pos hi).symm
  | written threw hp hi | flushedSinks threw hp hi | finalFlushedSinks threw hp hi =>
    rw [hp] at hturn
    cases hturn
    exact (if_neg (Nat.not_lt_of_le hi)).symm

theorem system_cases {a : SinkAction τ ε} (h : s.step c gmtime S a = some s') :
    SystemStep c gmtime S s s' := by
  cases a with
  | other a =>
    simp only [System.step] at h
    split_ifs at h with ha
    obtain ⟨world, hstep, rfl⟩ := Option.map_eq_some_iff.1 h
    exact .other hstep (calls_of_other (Bool.not_eq_true _ ▸ ha) hstep)
  | callSink answer =>
    simp only [System.step] at h
    split at h
    · next i r hturn =>
      split_ifs at h with hi
      · obtain ⟨world, hstep, rfl⟩ := Option.map_eq_some_iff.1 h
        exact .call hi rfl hstep ((calls_of_callSink hturn hstep).trans (if_pos hi))
      · obtain ⟨world, hstep, rfl⟩ := Option.map_eq_some_iff.1 h
        exact .other hstep ((calls_of_callSink hturn hstep).trans (if_neg hi))
    · cases h

/-! ## Each sink on its own -/

/-- The calls of sink `i`. -/
def callsOf (i : Nat) (calls : List (SinkCall ρ)) : List (SinkCall ρ) :=
  calls.filter fun call => call.sink == i

/-- The calls have led from `init` to the state, each with some answer of the destination. -/
inductive Replays (gmtime : Int → Option Tm) (S : Sink σ ε) (init : σ) :
    List (SinkCall LogRecord) → σ → Prop where
  | nil : Replays gmtime S init [] init
  | call {calls : List (SinkCall LogRecord)} {st st' : σ} {answer : ε} {i : Nat}
      {r : Option LogRecord} {threw : Bool} (h : Replays gmtime S init calls st)
      (hcall : callSink gmtime S answer r st = (threw, st')) :
      Replays gmtime S init (calls ++ [⟨i, r, threw⟩]) st'

omit [DecidableEq τ] [Fintype τ] in
theorem callsOf_append (i j : Nat) (calls : List (SinkCall ρ)) (r : Option ρ) (threw : Bool) :
    callsOf i (calls ++ [⟨j, r, threw⟩]) =
      if j = i then callsOf i calls ++ [⟨j, r, threw⟩] else callsOf i calls := by
  by_cases hji : j = i
  · simp [callsOf, hji]
  · simp [callsOf, hji]

theorem replays_step {init : Nat → σ} {i : Nat}
    (h : Replays gmtime (S i) (init i) (callsOf i s.world.calls) (s.sink i))
    (hstep : SystemStep c gmtime S s s') :
    Replays gmtime (S i) (init i) (callsOf i s'.world.calls) (s'.sink i) := by
  cases hstep with
  | other hworld hcalls =>
    rw [hcalls]
    exact h
  | @call answer j r threw st world hj hcall hworld hcalls =>
    dsimp only
    rw [hcalls, callsOf_append]
    by_cases hji : j = i
    · subst hji
      rw [if_pos rfl, Function.update_self]
      exact .call h hcall
    · rw [if_neg hji, Function.update_of_ne (Ne.symm hji)]
      exact h

/-- What holds of the logger and its sinks. -/
structure Isolated (c : Config) (gmtime : Int → Option Tm) (S : Nat → Sink σ ε) (init : Nat → σ)
    (s : System τ σ) : Prop where
  /-- The logger runs as it does without the sinks' states. -/
  logger : Reachable (World.step c) (World.initial τ LogRecord) s.world
  replays : ∀ i < c.sinks, Replays gmtime (S i) (init i) (callsOf i s.world.calls) (s.sink i)
  inOrder : ∀ i < c.sinks,
    (callsOf i s.world.calls).filterMap SinkCall.record <+: s.world.accepted
  complete : s.world.shutdown = .returned → ∀ i < c.sinks,
    (callsOf i s.world.calls).filterMap SinkCall.record = s.world.accepted

omit [DecidableEq τ] [Fintype τ] in
theorem writes_eq_callsOf (i : Nat) (calls : List (SinkCall ρ)) :
    writes i calls = (callsOf i calls).filterMap SinkCall.record := by
  rw [writes, callsOf, List.filterMap_filter]
  simp only [beq_iff_eq]

/-- The logger runs on its own, and each sink's state is what its own calls make of it. -/
theorem replays_of_reachable {init : Nat → σ}
    (h : Reachable (System.step c gmtime S) (System.initial τ init) s) :
    Reachable (World.step c) (World.initial τ LogRecord) s.world ∧
      ∀ i < c.sinks, Replays gmtime (S i) (init i) (callsOf i s.world.calls) (s.sink i) := by
  refine h.invariant (System.step c gmtime S)
    (I := fun s => Reachable (World.step c) (World.initial τ LogRecord) s.world ∧
      ∀ i < c.sinks, Replays gmtime (S i) (init i) (callsOf i s.world.calls) (s.sink i))
    ⟨.refl _ _, fun i _ => .nil⟩ fun s a s' hI hstep => ?_
  have hcases := system_cases hstep
  refine ⟨?_, fun i hi => replays_step (hI.2 i hi) hcases⟩
  cases hcases with
  | other hworld | call _ _ hworld => exact hI.1.tail _ hworld

section World

variable {w : World τ LogRecord} {i : Nat}

/-- A sink is called with the first of the accepted records, in order. -/
theorem callsOf_inOrder (h : Reachable (World.step c) (World.initial τ LogRecord) w)
    (hi : i < c.sinks) : (callsOf i w.calls).filterMap SinkCall.record <+: w.accepted := by
  rw [← writes_eq_callsOf]
  exact (inv_of_reachable h).delivers.inOrder i hi

/-- Once `shutdown` has returned, with all of them. -/
theorem callsOf_complete (h : Reachable (World.step c) (World.initial τ LogRecord) w)
    (hreturned : w.shutdown = .returned) (hi : i < c.sinks) :
    (callsOf i w.calls).filterMap SinkCall.record = w.accepted := by
  rw [← writes_eq_callsOf]
  exact (inv_of_reachable h).delivers.drained hreturned i hi

end World

/-- **Each sink on its own.** Over any sinks whatever, and any interleaving. -/
theorem reachable_isolated {init : Nat → σ}
    (h : Reachable (System.step c gmtime S) (System.initial τ init) s) :
    Isolated c gmtime S init s := by
  obtain ⟨hworld, hreplays⟩ := replays_of_reachable h
  exact ⟨hworld, hreplays, fun i hi => callsOf_inOrder hworld hi,
    fun hreturned i hi => callsOf_complete hworld hreturned hi⟩

end Steps

/-! ## What a sink has kept -/

/-- The records of the calls that did not throw. -/
def kept (calls : List (SinkCall ρ)) : List ρ :=
  (calls.filter fun call => !call.threw).filterMap SinkCall.record

/-- The `write` calls that threw. -/
def lost (calls : List (SinkCall ρ)) : Nat :=
  calls.countP fun call => call.record.isSome && call.threw

theorem kept_append (calls : List (SinkCall ρ)) (i : Nat) (r : Option ρ) (threw : Bool) :
    kept (calls ++ [⟨i, r, threw⟩]) = kept calls ++ if threw then [] else r.toList := by
  cases threw <;> cases r <;> simp [kept]

theorem record_append (calls : List (SinkCall ρ)) (i : Nat) (r : Option ρ) (threw : Bool) :
    (calls ++ [(⟨i, r, threw⟩ : SinkCall ρ)]).filterMap SinkCall.record =
      calls.filterMap SinkCall.record ++ r.toList := by
  cases r <;> simp

/-- A record is kept or lost. -/
theorem length_kept_add_lost (calls : List (SinkCall ρ)) :
    (kept calls).length + lost calls = (calls.filterMap SinkCall.record).length := by
  induction calls with
  | nil => rfl
  | cons call calls ih =>
    obtain ⟨i, r, threw⟩ := call
    cases threw <;> cases r <;> simp [kept, lost] at ih ⊢ <;> omega

theorem kept_sublist (calls : List (SinkCall ρ)) :
    (kept calls).Sublist (calls.filterMap SinkCall.record) := by
  unfold kept
  exact List.filter_sublist.filterMap _

/-! ## The sinks of the library -/

/-- What a stream or a socket does with a call: all of it, or it fails after some characters. -/
inductive Answer where
  | done
  | fails (taken : Nat)
deriving Repr, DecidableEq

/-- `std::ofstream`: the characters it has taken, and whether it is good. -/
structure OfStream where
  content : List Char
  good : Bool
deriving Repr, DecidableEq

/-- `stream_.write(line).put('\n')`, which do nothing on a stream that has failed. -/
def OfStream.writeLine (answer : Answer) (line : List Char) (stream : OfStream) : OfStream :=
  if stream.good then
    match answer with
    | .done => ⟨stream.content ++ (line ++ ['\n']), true⟩
    | .fails taken => ⟨stream.content ++ line.take taken, false⟩
  else stream

def OfStream.flush (answer : Answer) (stream : OfStream) : OfStream :=
  match answer with
  | .done => stream
  | .fails _ => { stream with good := false }

/-- `FileSink::write` and `FileSink::flush` throw if the stream is not good afterwards. -/
def fileSink : Sink OfStream Answer where
  write answer _ line stream :=
    let stream := stream.writeLine answer line
    (!stream.good, stream)
  flush answer stream :=
    let stream := stream.flush answer
    (!stream.good, stream)

/-- `ConsoleSink`: a stream of `stdio` that has failed may take the next line again. -/
def consoleSink : Sink (List Char) Answer where
  write answer _ line out :=
    match answer with
    | .done => (false, out ++ (line ++ ['\n']))
    | .fails taken => (true, out ++ line.take taken)
  flush answer out := (decide (answer ≠ .done), out)

/-- `UdpSink`: the datagrams that were sent. `sendto` sends the line as a whole or fails. -/
def udpSink : Sink (List (List Char)) Answer where
  write answer _ line sent :=
    match answer with
    | .done => (false, sent ++ [line])
    | .fails _ => (true, sent)
  flush _ sent := (false, sent)

variable {gmtime : Int → Option Tm} {existing : List Char} {calls : List (SinkCall LogRecord)}

/-- What a file holds after the calls of its sink: a line for each record whose `write` did not
throw, and after them the beginning of one line. -/
structure HoldsLines (gmtime : Int → Option Tm) (existing : List Char)
    (calls : List (SinkCall LogRecord)) (stream : OfStream) (torn : List Char)
    (unwritten : List LogRecord) : Prop where
  content : stream.content =
    existing ++ ended '\n' ((kept calls).map (renderLine gmtime)) ++ torn
  /-- Once a record is not written, none of the later ones is. -/
  records : calls.filterMap SinkCall.record = kept calls ++ unwritten
  tear : torn = [] ∨ ∃ record, unwritten.head? = some record ∧ torn <+: renderLine gmtime record
  good : stream.good = true → torn = [] ∧ unwritten = []

theorem ended_append (a : Char) (lines : List (List Char)) (line : List Char) :
    ended a (lines ++ [line]) = ended a lines ++ (line ++ [a]) := by
  simp [ended]

variable {stream stream' : OfStream} {torn : List Char} {unwritten : List LogRecord} {i : Nat}
  {answer : Answer} {record : LogRecord} {threw : Bool}

theorem HoldsLines.write (h : HoldsLines gmtime existing calls stream torn unwritten)
    (hcall : callSink gmtime fileSink answer (some record) stream = (threw, stream')) :
    ∃ torn unwritten, HoldsLines gmtime existing (calls ++ [⟨i, some record, threw⟩]) stream' torn
      unwritten := by
  simp only [callSink, fileSink, OfStream.writeLine, Prod.mk.injEq] at hcall
  obtain ⟨rfl, rfl⟩ := hcall
  cases hgood : stream.good with
  | false =>
    -- a stream that has failed takes nothing
    simp only [Bool.false_eq_true, if_false, hgood, Bool.not_false]
    refine ⟨torn, unwritten ++ [record], ?_, ?_, ?_, fun htrue => ?_⟩
    · rw [kept_append, if_pos rfl, List.append_nil]
      exact h.content
    · rw [record_append, kept_append, if_pos rfl, List.append_nil, h.records, List.append_assoc]
      rfl
    · rcases h.tear with hnil | ⟨first, hhead, hline⟩
      · exact .inl hnil
      · exact .inr ⟨first, by rw [List.head?_append, hhead]; rfl, hline⟩
    · rw [hgood] at htrue
      cases htrue
  | true =>
    obtain ⟨rfl, rfl⟩ := h.good hgood
    have hcontent := h.content
    have hrecords := h.records
    rw [List.append_nil] at hcontent hrecords
    cases answer with
    | done =>
      refine ⟨[], [], ?_, ?_, .inl rfl, fun _ => ⟨rfl, rfl⟩⟩
      · simp only [if_true, Bool.not_true]
        rw [kept_append, hcontent]
        simp [ended_append]
      · simp only [if_true, Bool.not_true]
        rw [record_append, kept_append, hrecords]
        simp
    | fails taken =>
      refine ⟨(renderLine gmtime record).take taken, [record], ?_, ?_,
        .inr ⟨record, rfl, List.take_prefix _ _⟩, fun htrue => ?_⟩
      · simp only [if_true, Bool.not_false]
        rw [kept_append, hcontent]
        simp
      · simp only [if_true, Bool.not_false]
        rw [record_append, kept_append, hrecords]
        simp
      · simp only [if_true, Bool.false_eq_true] at htrue

theorem HoldsLines.flush (h : HoldsLines gmtime existing calls stream torn unwritten)
    (hcall : callSink gmtime fileSink answer none stream = (threw, stream')) :
    HoldsLines gmtime existing (calls ++ [⟨i, none, threw⟩]) stream' torn unwritten := by
  have hsame : stream'.content = stream.content ∧ (stream'.good = true → stream.good = true) := by
    simp only [callSink, fileSink, OfStream.flush, Prod.mk.injEq] at hcall
    obtain ⟨-, rfl⟩ := hcall
    cases answer with
    | done => exact ⟨rfl, id⟩
    | fails => exact ⟨rfl, fun htrue => by cases htrue⟩
  have hkept : kept (calls ++ [(⟨i, none, threw⟩ : SinkCall LogRecord)]) = kept calls := by
    rw [kept_append]
    cases threw <;> exact List.append_nil _
  refine ⟨?_, ?_, h.tear, fun htrue => h.good (hsame.2 htrue)⟩
  · rw [hsame.1, hkept, h.content]
  · rw [record_append, hkept, h.records]
    exact List.append_nil _

/-- A UDP sink has sent the lines it kept. -/
theorem sent_of_replays {before sent : List (List Char)}
    (h : Replays gmtime udpSink before calls sent) :
    sent = before ++ (kept calls).map (renderLine gmtime) := by
  induction h with
  | nil => simp [kept]
  | @call calls st st' answer i r threw h hcall ih =>
    rw [kept_append]
    cases r with
    | none =>
      simp only [callSink, udpSink, Prod.mk.injEq] at hcall
      obtain ⟨rfl, rfl⟩ := hcall
      simpa using ih
    | some record =>
      cases answer <;> simp only [callSink, udpSink, Prod.mk.injEq] at hcall <;>
        obtain ⟨rfl, rfl⟩ := hcall <;> simp [ih]

/-! ## A logger with sinks of the library -/

inductive SinkState where
  | console (out : List Char)
  | file (stream : OfStream)
  | udp (sent : List (List Char))
deriving Repr, DecidableEq

/-- A call of a `Sink` goes to the class of the object. -/
def librarySink : Sink SinkState Answer where
  write answer record line
    | .console out => (consoleSink.write answer record line out).map id .console
    | .file stream => (fileSink.write answer record line stream).map id .file
    | .udp sent => (udpSink.write answer record line sent).map id .udp
  flush answer
    | .console out => (consoleSink.flush answer out).map id .console
    | .file stream => (fileSink.flush answer stream).map id .file
    | .udp sent => (udpSink.flush answer sent).map id .udp

/-- A sink that behaves as another one, whose states it embeds. -/
theorem Replays.of_embedding {σ' : Type*} {S : Sink σ ε} {S' : Sink σ' ε} {f : σ → σ'}
    (hf : ∀ answer r st, callSink gmtime S' answer r (f st) =
      (callSink gmtime S answer r st).map id f) {init : σ} {st' : σ'}
    (h : Replays gmtime S' (f init) calls st') :
    ∃ st, st' = f st ∧ Replays gmtime S init calls st := by
  induction h with
  | nil => exact ⟨init, rfl, .nil⟩
  | @call calls st st' answer i r threw h hcall ih =>
    obtain ⟨st₀, rfl, hreplays⟩ := ih
    rw [hf] at hcall
    obtain ⟨rfl, rfl⟩ := Prod.mk.inj hcall
    exact ⟨_, rfl, hreplays.call rfl⟩

section Library

variable [DecidableEq τ] [Fintype τ] {c : Config} {init : Nat → SinkState}
  {s : System τ SinkState}

omit [DecidableEq τ] [Fintype τ] in
theorem HoldsLines.splitOn (h : HoldsLines gmtime [] calls stream torn unwritten)
    (hclean : ∀ record ∈ calls.filterMap SinkCall.record, '\n' ∉ record.message) :
    stream.content.splitOn '\n' = (kept calls).map (renderLine gmtime) ++ [torn] := by
  rw [h.records] at hclean
  have hlines : ∀ line ∈ (kept calls).map (renderLine gmtime), '\n' ∉ line := by
    rw [List.forall_mem_map]
    intro record hrecord
    rw [newline_mem_renderLine]
    exact hclean record (List.mem_append_left _ hrecord)
  have htorn : '\n' ∉ torn := by
    rcases h.tear with rfl | ⟨record, hhead, hwritten⟩
    · exact List.not_mem_nil
    · intro hmem
      have hrecord : record ∈ unwritten := List.mem_of_mem_head? hhead
      exact hclean record (List.mem_append_right _ hrecord)
        ((newline_mem_renderLine gmtime record).1 (hwritten.subset hmem))
  rw [h.content, List.nil_append, splitOn_ended_append hlines htorn]

/-- **The datagrams.** In every reachable state of a logger, for each of its UDP sinks. -/
theorem reachable_udp
    (h : Reachable (System.step c gmtime fun _ => librarySink) (System.initial τ init) s) {i : Nat}
    (hi : i < c.sinks) (hinit : init i = .udp []) :
    ∃ sent, s.sink i = .udp sent ∧
      sent = (kept (callsOf i s.world.calls)).map (renderLine gmtime) ∧
      (kept (callsOf i s.world.calls)).Sublist s.world.accepted ∧
      (s.world.shutdown = .returned →
        s.world.accepted.length = sent.length + lost (callsOf i s.world.calls)) := by
  obtain ⟨hworld, hreplays⟩ := replays_of_reachable h
  have hreplays := hreplays i hi
  rw [hinit] at hreplays
  obtain ⟨sent, hstate, hreplays⟩ :=
    hreplays.of_embedding (S := udpSink) (f := SinkState.udp) fun answer r st => by cases r <;> rfl
  have hsent := sent_of_replays hreplays
  rw [List.nil_append] at hsent
  refine ⟨sent, hstate, hsent, ?_, fun hreturned => ?_⟩
  · exact (kept_sublist _).trans (callsOf_inOrder hworld hi).sublist
  · rw [← callsOf_complete hworld hreturned hi, ← length_kept_add_lost, hsent, List.length_map]

end Library

/-- A file and a socket. -/
def fileAndUdp : Nat → SinkState
  | 0 => .file ⟨[], true⟩
  | _ => .udp []

/-- Two records. The disk is full in the middle of the second line. -/
def fullDisk : List (SinkAction Unit Answer) :=
  let record (text : String) : LogRecord := ⟨0, .info, 7, text.toList⟩
  [.other (.log () .info (record "up")), .other (.enqueue ()), .other (.notifyRecords ()),
    .other .pumpLocked, .other (.notifySpace none), .callSink .done, .callSink .done,
    .callSink .done, .other (.log () .info (record "down")), .other (.enqueue ()),
    .other (.notifyRecords ()), .other .pumpLocked, .other (.notifySpace none),
    .callSink (.fails 3), .callSink .done, .callSink .done, .other .shutdown, .other .pumpLocked,
    .callSink .done, .callSink .done, .callSink .done, .other .pumpLocked, .other .notifyDone,
    .other .shutdown, .other .shutdown, .other .shutdown]

/-- No calendar time. -/
def noCalendar : Int → Option Tm := fun _ => none

theorem run_fullDisk : ∃ s : System Unit SinkState,
    run (System.step small noCalendar fun _ => librarySink) (System.initial Unit fileAndUdp)
      fullDisk = some s ∧ s.world.shutdown = .returned ∧
      s.sink 0 = .file ⟨"[0s] [info] [7] up\n[0s".toList, false⟩ ∧
      s.sink 1 = .udp ["[0s] [info] [7] up".toList, "[0s] [info] [7] down".toList] ∧
      (kept (callsOf 0 s.world.calls)).length = 1 :=
  ⟨_, rfl, rfl, by decide +kernel, by decide +kernel, rfl⟩

theorem reachable_isolated_fullDisk : ∃ s : System Unit SinkState,
    run (System.step small noCalendar fun _ => librarySink) (System.initial Unit fileAndUdp)
      fullDisk = some s ∧ Isolated small noCalendar (fun _ => librarySink) fileAndUdp s := by
  obtain ⟨s, hs, -⟩ := run_fullDisk
  exact ⟨s, hs, reachable_isolated ⟨fullDisk, hs⟩⟩

theorem reachable_udp_fullDisk : ∃ s : System Unit SinkState,
    run (System.step small noCalendar fun _ => librarySink) (System.initial Unit fileAndUdp)
      fullDisk = some s ∧ s.world.shutdown = .returned ∧ ∃ sent,
      s.sink 1 = .udp sent ∧ sent = ["[0s] [info] [7] up".toList, "[0s] [info] [7] down".toList] ∧
      s.world.accepted.length = sent.length + lost (callsOf 1 s.world.calls) := by
  obtain ⟨s, hs, hreturned, -, hudp, -⟩ := run_fullDisk
  obtain ⟨sent, hstate, -, -, haccounted⟩ := reachable_udp ⟨fullDisk, hs⟩ (i := 1) (by decide) rfl
  exact ⟨s, hs, hreturned, sent, hstate, (SinkState.udp.inj (hudp.symm.trans hstate)).symm,
    haccounted hreturned⟩

end Logger

end EglUtil
