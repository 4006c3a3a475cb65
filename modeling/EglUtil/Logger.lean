import EglUtil.Lib.Runs
import EglUtil.Lib.Tally

/-!
# `Logger`: producers, the pump and shutdown

Any number of threads call `log` and `flush`, one dedicated pump thread delivers to the sinks,
and one thread calls `shutdown`. Each section that holds `mutex_` is one step, each notification
sent outside it is one step, and each call of a sink is one step (outside the lock). A thread
waiting on a condition variable is *parked*; a notification or a spurious wake-up makes it
*woken*, and a woken thread tests its predicate again when it next holds the mutex.

Rendering and allocation do not fail, and sinks do not call back into the logger.

Besides the fields of the class, the state keeps what an observer sees: the records accepted into
the queue, the calls made to the sinks, and how many `log` calls have ended and how.
-/

namespace EglUtil

open Transition Tally

inductive LogLevel where
  | trace
  | debug
  | info
  | warning
  | error
  | critical
  | off
deriving Repr, DecidableEq

/-- The value of the enumerator. -/
def LogLevel.value : LogLevel → Nat
  | .trace => 0
  | .debug => 1
  | .info => 2
  | .warning => 3
  | .error => 4
  | .critical => 5
  | .off => 6

inductive OverflowPolicy where
  | block
  | drop
deriving Repr, DecidableEq

namespace Logger

/-! ## State -/

/-- What a logger is constructed with; the constructor throws unless both sizes are positive. -/
structure Config where
  sinks : Nat
  capacity : Nat
  policy : OverflowPolicy
  sinks_pos : 0 < sinks
  capacity_pos : 0 < capacity

inductive QueueItem (ρ : Type*) where
  | record (r : ρ)
  | marker (ticket : Nat)
deriving Repr, DecidableEq

/-- A call of the sink with the given index: `write` of a record, or `flush`. -/
structure SinkCall (ρ : Type*) where
  sink : Nat
  /-- `none` is a `flush`. -/
  record : Option ρ
  threw : Bool
deriving Repr, DecidableEq

/-- Where a calling thread stands. In a `flush`, `before` is the number of records that had been
accepted when the call began. -/
inductive Pc (ρ : Type*) where
  | idle
  /-- `log` has passed the filter; `enqueue` is about to take the mutex. -/
  | entering (r : ρ)
  | spaceParked (r : ρ)
  | spaceWoken (r : ρ)
  /-- `enqueue` has released the mutex and is about to notify the pump. -/
  | notifying
  | flushEntering (before : Nat)
  | flushParked (ticket before : Nat)
  | flushWoken (ticket before : Nat)
  /-- `flush` has returned. -/
  | flushed (before : Nat)
deriving Repr, DecidableEq

/-- Where the pump stands; `i` is the sink whose turn it is. -/
inductive PumpPc (ρ : Type*) where
  | top
  | parked
  | woken
  /-- An item has been popped; `space_available_` is about to be notified. -/
  | popped (item : QueueItem ρ)
  | delivering (r : ρ) (i : Nat)
  | flushing (ticket i : Nat)
  | completing (ticket : Nat)
  | notifyingDone
  | finalFlushing (i : Nat)
  | finalCompleting
  | finalNotifying
  | exited
deriving Repr, DecidableEq

inductive ShutdownPc where
  | notCalled
  | notifyingRecords
  | notifyingSpace
  | joining
  | returned
deriving Repr, DecidableEq

structure World (τ ρ : Type*) where
  minLevel : LogLevel
  queue : List (QueueItem ρ)
  flushRequested : Nat
  flushCompleted : Nat
  stopping : Bool
  dropped : Nat
  sinkFailures : Nat
  thread : τ → Pc ρ
  pump : PumpPc ρ
  shutdown : ShutdownPc
  /-- The records accepted into the queue, in order. -/
  accepted : List ρ
  /-- The `log` calls that passed the filter and have ended. -/
  completed : Nat
  /-- Those of them that threw `std::logic_error`. -/
  threw : Nat
  calls : List (SinkCall ρ)

def World.initial (τ ρ : Type*) : World τ ρ where
  minLevel := .trace
  queue := []
  flushRequested := 0
  flushCompleted := 0
  stopping := false
  dropped := 0
  sinkFailures := 0
  thread := fun _ => .idle
  pump := .top
  shutdown := .notCalled
  accepted := []
  completed := 0
  threw := 0
  calls := []

inductive Action (τ ρ : Type*) where
  | setLevel (level : LogLevel)
  /-- `log` begins, with the record it would build. -/
  | log (t : τ) (level : LogLevel) (r : ρ)
  /-- `enqueue` holds the mutex, on entry or after a wake-up. -/
  | enqueue (t : τ)
  | notifyRecords (t : τ)
  /-- `flush` begins. -/
  | flush (t : τ)
  /-- `flush` holds the mutex, on entry or after a wake-up. -/
  | flushLocked (t : τ)
  /-- The caller of a `flush` that has returned goes on. -/
  | resume (t : τ)
  /-- A spurious wake-up of a caller, or of the pump. -/
  | wake (t : τ)
  | wakePump
  /-- The pump holds the mutex. -/
  | pumpLocked
  /-- The pump notifies `space_available_`, which wakes `u` (nobody, if nobody is parked). -/
  | notifySpace (u : Option τ)
  /-- The pump calls the sink whose turn it is, or leaves the loop over the sinks. -/
  | callSink (threw : Bool)
  /-- The pump notifies everybody on `flush_done_`. -/
  | notifyDone
  /-- The next step of `shutdown`. -/
  | shutdown

variable {τ ρ : Type*} {c : Config} {w w' : World τ ρ}

/-! ## Wake-ups -/

def Pc.wakeSpace : Pc ρ → Pc ρ
  | .spaceParked r => .spaceWoken r
  | pc => pc

def Pc.wakeDone : Pc ρ → Pc ρ
  | .flushParked ticket before => .flushWoken ticket before
  | pc => pc

def PumpPc.wakeRecords : PumpPc ρ → PumpPc ρ
  | .parked => .woken
  | pc => pc

def Pc.isSpaceParked : Pc ρ → Bool
  | .spaceParked _ => true
  | _ => false

def Pc.isNotifying : Pc ρ → Bool
  | .notifying => true
  | _ => false

/-- `enqueue` is about to hold the mutex, on entry or after a wake-up. -/
def Pc.isEnqueuing : Pc ρ → Prop
  | .entering _ | .spaceWoken _ => True
  | _ => False

/-! ## Producers -/

section Steps

variable [DecidableEq τ]

def World.setPc (w : World τ ρ) (t : τ) (pc : Pc ρ) : World τ ρ :=
  { w with thread := Function.update w.thread t pc }

/-- `queue_.emplace_back(std::move(record))` -/
def World.accept (w : World τ ρ) (t : τ) (r : ρ) : World τ ρ :=
  { w.setPc t .notifying with
    queue := w.queue ++ [.record r]
    accepted := w.accepted ++ [r] }

/-- `throw std::logic_error("Logger: log after shutdown")` -/
def World.refuse (w : World τ ρ) (t : τ) : World τ ρ :=
  { w.setPc t .idle with completed := w.completed + 1, threw := w.threw + 1 }

def World.drop (w : World τ ρ) (t : τ) : World τ ρ :=
  { w.setPc t .idle with completed := w.completed + 1, dropped := w.dropped + 1 }

def World.enqueue (c : Config) (w : World τ ρ) (t : τ) (r : ρ) : World τ ρ :=
  if w.stopping then w.refuse t
  else if w.queue.length ≥ c.capacity then
    match c.policy with
    | .drop => w.drop t
    | .block => w.setPc t (.spaceParked r)
  else w.accept t r

/-- `enqueue` after a wake-up on `space_available_`. -/
def World.enqueueWoken (c : Config) (w : World τ ρ) (t : τ) (r : ρ) : World τ ρ :=
  if w.stopping then w.refuse t
  else if w.queue.length < c.capacity then w.accept t r
  else w.setPc t (.spaceParked r)

/-! ## Flushers -/

/-- The marker enters the queue and the pump is notified, still under the mutex; the ticket
cannot be complete yet, so the caller parks. -/
def World.flushLocked (w : World τ ρ) (t : τ) (before : Nat) : World τ ρ :=
  if w.stopping then w.setPc t (.flushed before)
  else
    { w.setPc t (.flushParked (w.flushRequested + 1) before) with
      flushRequested := w.flushRequested + 1
      queue := w.queue ++ [.marker (w.flushRequested + 1)]
      pump := w.pump.wakeRecords }

def World.flushWoken (w : World τ ρ) (t : τ) (ticket before : Nat) : World τ ρ :=
  if w.flushCompleted ≥ ticket then w.setPc t (.flushed before)
  else w.setPc t (.flushParked ticket before)

/-! ## The pump -/

/-- `records_available_.wait`, and the pop or the exit from the loop that follow it. -/
def World.take (w : World τ ρ) : World τ ρ :=
  match w.queue with
  | [] => if w.stopping then { w with pump := .finalFlushing 0 } else { w with pump := .parked }
  | item :: rest => { w with pump := .popped item, queue := rest }

/-- One call of sink `i`. -/
def World.record (w : World τ ρ) (i : Nat) (r : Option ρ) (threw : Bool) (next : PumpPc ρ) :
    World τ ρ :=
  { w with
    calls := w.calls ++ [⟨i, r, threw⟩]
    sinkFailures := w.sinkFailures + threw.toNat
    pump := next }

/-- What the pump does with an item, once space has been announced. -/
def QueueItem.handle : QueueItem ρ → PumpPc ρ
  | .record r => .delivering r 0
  | .marker ticket => .flushing ticket 0

/-! ## Steps -/

def World.step [Fintype τ] (c : Config) (w : World τ ρ) : Action τ ρ → Option (World τ ρ)
  | .setLevel level => some { w with minLevel := level }
  | .log t level r =>
    match w.thread t with
    | .idle =>
      -- `off` throws `std::invalid_argument`, and a level below the filter returns
      if level = .off ∨ level.value < w.minLevel.value then some w
      else some (w.setPc t (.entering r))
    | _ => none
  | .enqueue t =>
    match w.thread t with
    | .entering r => some (w.enqueue c t r)
    | .spaceWoken r => some (w.enqueueWoken c t r)
    | _ => none
  | .notifyRecords t =>
    match w.thread t with
    | .notifying =>
      some { w.setPc t .idle with pump := w.pump.wakeRecords, completed := w.completed + 1 }
    | _ => none
  | .flush t =>
    match w.thread t with
    | .idle => some (w.setPc t (.flushEntering w.accepted.length))
    | _ => none
  | .flushLocked t =>
    match w.thread t with
    | .flushEntering before => some (w.flushLocked t before)
    | .flushWoken ticket before => some (w.flushWoken t ticket before)
    | _ => none
  | .resume t =>
    match w.thread t with
    | .flushed _ => some (w.setPc t .idle)
    | _ => none
  | .wake t =>
    match w.thread t with
    | .spaceParked r => some (w.setPc t (.spaceWoken r))
    | .flushParked ticket before => some (w.setPc t (.flushWoken ticket before))
    | _ => none
  | .wakePump =>
    match w.pump with
    | .parked => some { w with pump := .woken }
    | _ => none
  | .pumpLocked =>
    match w.pump with
    | .top | .woken => some w.take
    | .completing ticket =>
      some { w with flushCompleted := max w.flushCompleted ticket, pump := .notifyingDone }
    | .finalCompleting =>
      some { w with flushCompleted := w.flushRequested, pump := .finalNotifying }
    | _ => none
  | .notifySpace u =>
    match w.pump with
    | .popped item =>
      match u with
      | none =>
        if ∀ t, (w.thread t).isSpaceParked = false then some { w with pump := item.handle }
        else none
      | some t =>
        if (w.thread t).isSpaceParked then
          some { w.setPc t (w.thread t).wakeSpace with pump := item.handle }
        else none
    | _ => none
  | .callSink threw =>
    match w.pump with
    | .delivering r i =>
      if i < c.sinks then some (w.record i (some r) threw (.delivering r (i + 1)))
      else some { w with pump := .top }
    | .flushing ticket i =>
      if i < c.sinks then some (w.record i none threw (.flushing ticket (i + 1)))
      else some { w with pump := .completing ticket }
    | .finalFlushing i =>
      if i < c.sinks then some (w.record i none threw (.finalFlushing (i + 1)))
      else some { w with pump := .finalCompleting }
    | _ => none
  | .notifyDone =>
    match w.pump with
    | .notifyingDone =>
      some { w with thread := fun t => (w.thread t).wakeDone, pump := .top }
    | .finalNotifying =>
      some { w with thread := fun t => (w.thread t).wakeDone, pump := .exited }
    | _ => none
  | .shutdown =>
    match w.shutdown with
    | .notCalled => some { w with stopping := true, shutdown := .notifyingRecords }
    | .notifyingRecords =>
      some { w with pump := w.pump.wakeRecords, shutdown := .notifyingSpace }
    | .notifyingSpace =>
      some { w with thread := fun t => (w.thread t).wakeSpace, shutdown := .joining }
    | .joining =>
      match w.pump with
      | .exited => some { w with shutdown := .returned }
      | _ => none
    | .returned => none

/-! ## What a step can do -/

/-- The steps, one constructor for each way they can go, with what held before. -/
inductive Step (c : Config) (w : World τ ρ) : Action τ ρ → World τ ρ → Prop where
  | setLevel (level : LogLevel) : Step c w (.setLevel level) { w with minLevel := level }
  | filtered (t : τ) (level : LogLevel) (r : ρ) : Step c w (.log t level r) w
  | entered {t : τ} {r : ρ} (level : LogLevel) (hpc : w.thread t = .idle) :
      Step c w (.log t level r) (w.setPc t (.entering r))
  | accepted {t : τ} {r : ρ} (hpc : (w.thread t).isEnqueuing) (hs : w.stopping = false) :
      Step c w (.enqueue t) (w.accept t r)
  | refused {t : τ} (hpc : (w.thread t).isEnqueuing) : Step c w (.enqueue t) (w.refuse t)
  | dropped {t : τ} (hpc : (w.thread t).isEnqueuing) (hpol : c.policy = .drop) :
      Step c w (.enqueue t) (w.drop t)
  | spaceParked {t : τ} {r : ρ} (hpc : (w.thread t).isEnqueuing) :
      Step c w (.enqueue t) (w.setPc t (.spaceParked r))
  | notifyRecords {t : τ} (hpc : w.thread t = .notifying) :
      Step c w (.notifyRecords t)
        { w.setPc t .idle with pump := w.pump.wakeRecords, completed := w.completed + 1 }
  | flush {t : τ} (hpc : w.thread t = .idle) :
      Step c w (.flush t) (w.setPc t (.flushEntering w.accepted.length))
  | marked {t : τ} {before : Nat} (hpc : w.thread t = .flushEntering before)
      (hs : w.stopping = false) :
      Step c w (.flushLocked t)
        { w.setPc t (.flushParked (w.flushRequested + 1) before) with
          flushRequested := w.flushRequested + 1
          queue := w.queue ++ [.marker (w.flushRequested + 1)]
          pump := w.pump.wakeRecords }
  | flushSkipped {t : τ} {before : Nat} (hpc : w.thread t = .flushEntering before)
      (hs : w.stopping = true) : Step c w (.flushLocked t) (w.setPc t (.flushed before))
  | flushed {t : τ} {ticket before : Nat} (hpc : w.thread t = .flushWoken ticket before)
      (hk : ticket ≤ w.flushCompleted) : Step c w (.flushLocked t) (w.setPc t (.flushed before))
  | flushParked {t : τ} {ticket before : Nat} (hpc : w.thread t = .flushWoken ticket before) :
      Step c w (.flushLocked t) (w.setPc t (.flushParked ticket before))
  | resume {t : τ} {before : Nat} (hpc : w.thread t = .flushed before) :
      Step c w (.resume t) (w.setPc t .idle)
  | wakeSpace {t : τ} {r : ρ} (hpc : w.thread t = .spaceParked r) :
      Step c w (.wake t) (w.setPc t (.spaceWoken r))
  | wakeDone {t : τ} {ticket before : Nat} (hpc : w.thread t = .flushParked ticket before) :
      Step c w (.wake t) (w.setPc t (.flushWoken ticket before))
  | wakePump (hp : w.pump = .parked) : Step c w .wakePump { w with pump := .woken }
  | take (hp : w.pump = .top ∨ w.pump = .woken) : Step c w .pumpLocked w.take
  | complete {ticket : Nat} (hp : w.pump = .completing ticket) :
      Step c w .pumpLocked
        { w with flushCompleted := max w.flushCompleted ticket, pump := .notifyingDone }
  | completeAll (hp : w.pump = .finalCompleting) :
      Step c w .pumpLocked { w with flushCompleted := w.flushRequested, pump := .finalNotifying }
  | notifyNobody {item : QueueItem ρ} (hp : w.pump = .popped item) :
      Step c w (.notifySpace none) { w with pump := item.handle }
  | notifyOne {item : QueueItem ρ} {t : τ} {r : ρ} (hp : w.pump = .popped item)
      (hpc : w.thread t = .spaceParked r) :
      Step c w (.notifySpace (some t)) { w.setPc t (.spaceWoken r) with pump := item.handle }
  | write {r : ρ} {i : Nat} (threw : Bool) (hp : w.pump = .delivering r i) (hi : i < c.sinks) :
      Step c w (.callSink threw) (w.record i (some r) threw (.delivering r (i + 1)))
  | written {r : ρ} {i : Nat} (threw : Bool) (hp : w.pump = .delivering r i) (hi : c.sinks ≤ i) :
      Step c w (.callSink threw) { w with pump := .top }
  | flushSink {ticket i : Nat} (threw : Bool) (hp : w.pump = .flushing ticket i)
      (hi : i < c.sinks) :
      Step c w (.callSink threw) (w.record i none threw (.flushing ticket (i + 1)))
  | flushedSinks {ticket i : Nat} (threw : Bool) (hp : w.pump = .flushing ticket i)
      (hi : c.sinks ≤ i) : Step c w (.callSink threw) { w with pump := .completing ticket }
  | finalFlushSink {i : Nat} (threw : Bool) (hp : w.pump = .finalFlushing i) (hi : i < c.sinks) :
      Step c w (.callSink threw) (w.record i none threw (.finalFlushing (i + 1)))
  | finalFlushedSinks {i : Nat} (threw : Bool) (hp : w.pump = .finalFlushing i)
      (hi : c.sinks ≤ i) : Step c w (.callSink threw) { w with pump := .finalCompleting }
  | notifyDone (hp : w.pump = .notifyingDone) :
      Step c w .notifyDone { w with thread := fun t => (w.thread t).wakeDone, pump := .top }
  | finalNotifyDone (hp : w.pump = .finalNotifying) :
      Step c w .notifyDone { w with thread := fun t => (w.thread t).wakeDone, pump := .exited }
  | stop (hs : w.shutdown = .notCalled) :
      Step c w .shutdown { w with stopping := true, shutdown := .notifyingRecords }
  | notifyAllRecords (hs : w.shutdown = .notifyingRecords) :
      Step c w .shutdown { w with pump := w.pump.wakeRecords, shutdown := .notifyingSpace }
  | notifyAllSpace (hs : w.shutdown = .notifyingSpace) :
      Step c w .shutdown
        { w with thread := fun t => (w.thread t).wakeSpace, shutdown := .joining }
  | join (hs : w.shutdown = .joining) (hp : w.pump = .exited) :
      Step c w .shutdown { w with shutdown := .returned }

theorem step_enqueue {t : τ} {r : ρ} (hpc : w.thread t = .entering r) :
    Step c w (.enqueue t) (w.enqueue c t r) := by
  have henq : (w.thread t).isEnqueuing := by rw [hpc]; trivial
  unfold World.enqueue
  split_ifs with hs
  · exact .refused henq
  · split
    · next hpol => exact .dropped henq hpol
    · exact .spaceParked henq
  · exact .accepted henq (Bool.eq_false_iff.2 hs)

theorem step_enqueueWoken {t : τ} {r : ρ} (hpc : w.thread t = .spaceWoken r) :
    Step c w (.enqueue t) (w.enqueueWoken c t r) := by
  have henq : (w.thread t).isEnqueuing := by rw [hpc]; trivial
  unfold World.enqueueWoken
  split_ifs with hs
  · exact .refused henq
  · exact .accepted henq (Bool.eq_false_iff.2 hs)
  · exact .spaceParked henq

theorem step_flushLocked {t : τ} {before : Nat} (hpc : w.thread t = .flushEntering before) :
    Step c w (.flushLocked t) (w.flushLocked t before) := by
  unfold World.flushLocked
  split_ifs with hs
  · exact .flushSkipped hpc hs
  · exact .marked hpc (Bool.eq_false_iff.2 hs)

theorem step_flushWoken {t : τ} {ticket before : Nat}
    (hpc : w.thread t = .flushWoken ticket before) :
    Step c w (.flushLocked t) (w.flushWoken t ticket before) := by
  unfold World.flushWoken
  split_ifs with hk
  · exact .flushed hpc hk
  · exact .flushParked hpc

theorem step_notifySpace [Fintype τ] {u : Option τ} {item : QueueItem ρ}
    (hp : w.pump = .popped item) (h : w.step c (.notifySpace u) = some w') :
    Step c w (.notifySpace u) w' := by
  simp only [World.step, hp] at h
  cases u with
  | none =>
    dsimp only at h
    split_ifs at h
    cases h
    exact .notifyNobody hp
  | some t =>
    dsimp only at h
    split_ifs at h with hpark
    cases h
    cases hpc : w.thread t with
    | spaceParked r => exact .notifyOne hp hpc
    | _ =>
      rw [hpc] at hpark
      cases hpark

/-- **Inversion.** -/
theorem step_cases [Fintype τ] {a : Action τ ρ} (h : w.step c a = some w') : Step c w a w' := by
  cases a with
  | setLevel level =>
    cases h
    exact .setLevel level
  | log t level r =>
    simp only [World.step] at h
    split at h
    · next hpc =>
      split_ifs at h <;> cases h
      · exact .filtered t level r
      · exact .entered level hpc
    · cases h
  | enqueue t =>
    simp only [World.step] at h
    split at h <;> cases h
    · next hpc => exact step_enqueue hpc
    · next hpc => exact step_enqueueWoken hpc
  | notifyRecords t =>
    simp only [World.step] at h
    split at h <;> cases h
    next hpc => exact .notifyRecords hpc
  | flush t =>
    simp only [World.step] at h
    split at h <;> cases h
    next hpc => exact .flush hpc
  | flushLocked t =>
    simp only [World.step] at h
    split at h <;> cases h
    · next hpc => exact step_flushLocked hpc
    · next hpc => exact step_flushWoken hpc
  | resume t =>
    simp only [World.step] at h
    split at h <;> cases h
    next hpc => exact .resume hpc
  | wake t =>
    simp only [World.step] at h
    split at h <;> cases h
    · next hpc => exact .wakeSpace hpc
    · next hpc => exact .wakeDone hpc
  | wakePump =>
    simp only [World.step] at h
    split at h <;> cases h
    next hp => exact .wakePump hp
  | pumpLocked =>
    simp only [World.step] at h
    split at h <;> cases h
    · next hp => exact .take (.inl hp)
    · next hp => exact .take (.inr hp)
    · next hp => exact .complete hp
    · next hp => exact .completeAll hp
  | notifySpace u =>
    cases hp : w.pump with
    | popped item => exact step_notifySpace hp h
    | _ =>
      simp only [World.step, hp] at h
      cases h
  | callSink threw =>
    simp only [World.step] at h
    split at h
    · next hp =>
      split_ifs at h with hi <;> cases h
      · exact .write threw hp hi
      · exact .written threw hp (Nat.le_of_not_lt hi)
    · next hp =>
      split_ifs at h with hi <;> cases h
      · exact .flushSink threw hp hi
      · exact .flushedSinks threw hp (Nat.le_of_not_lt hi)
    · next hp =>
      split_ifs at h with hi <;> cases h
      · exact .finalFlushSink threw hp hi
      · exact .finalFlushedSinks threw hp (Nat.le_of_not_lt hi)
    · cases h
  | notifyDone =>
    simp only [World.step] at h
    split at h <;> cases h
    · next hp => exact .notifyDone hp
    · next hp => exact .finalNotifyDone hp
  | shutdown =>
    simp only [World.step] at h
    split at h
    · next hs =>
      cases h
      exact .stop hs
    · next hs =>
      cases h
      exact .notifyAllRecords hs
    · next hs =>
      cases h
      exact .notifyAllSpace hs
    · next hs =>
      split at h <;> cases h
      next hp => exact .join hs hp
    · cases h

end Steps

/-! ## What an observer reads off a state -/

/-- The records among queue items. -/
def records (q : List (QueueItem ρ)) : List ρ :=
  q.filterMap fun
    | .record r => some r
    | .marker _ => none

/-- The records sink `i` was asked to write. -/
def writes (i : Nat) (calls : List (SinkCall ρ)) : List ρ :=
  calls.filterMap fun call => if call.sink = i then call.record else none

end Logger

end EglUtil
