import EglUtil.LoggerWaking

/-!
# `Logger`: every call comes to its end

A woken producer may find the queue full again and park once more, a flush wakes everybody who
waits for one, and each record is handed to every sink. All of it is paid for in advance, in units
of one step.

**Theorem (`run_work_le`).** In every run of `N` threads over `S` sinks, the steps of the pump, of
`shutdown` and of calls that have begun (`Action.finishes`) are at most `S + 8` for each call of
`log`, `S + N + 9` for each `flush`, one for each spurious wake-up, and `S + 2N + 9` for the pump
and `shutdown`.

**Theorem (`reachable_comes_to_rest`).** From every reachable state, without any further call or
spurious wake-up, in whatever order the threads are scheduled and whatever the sinks throw, there
are at most `(N + q + 3)(S + N + 9)` steps, for `q` items in the queue; and when none is left, every
caller has returned, the queue is empty and every sink was given every accepted record.

The weights are what a thread, an item or the pump may still cost, with the wake-ups it will send.
-/

namespace EglUtil

open Transition Tally

namespace Logger

variable {τ ρ : Type*} {c : Config} {w w' : World τ ρ}

/-! ## Weights -/

/-- A thread in a call, for `N` threads and `S` sinks. -/
def Pc.weight (N S : Nat) : Pc ρ → Nat
  | .idle => 0
  | .flushed _ | .flushParked _ _ => 1
  | .flushWoken _ _ | .notifying => 2
  | .spaceParked _ => S + 7
  | .spaceWoken _ | .entering _ => S + 8
  | .flushEntering _ => S + N + 9

def QueueItem.weight (N S : Nat) : QueueItem ρ → Nat
  | .record _ => S + 4
  | .marker _ => S + N + 6

/-- The pump keeps enough for its last flush. -/
def PumpPc.weight (N S : Nat) : PumpPc ρ → Nat
  | .exited => 0
  | .finalNotifying => N + 1
  | .finalCompleting => N + 2
  | .finalFlushing i => S - i + (N + 3)
  | .parked => S + N + 3
  | .top | .woken => S + N + 4
  | .notifyingDone => S + 2 * N + 5
  | .completing _ => S + 2 * N + 6
  | .flushing _ i => S - i + (S + 2 * N + 7)
  | .delivering _ i => S - i + (S + N + 5)
  | .popped (.record _) => 2 * S + N + 7
  | .popped (.marker _) => 2 * S + 2 * N + 9

def ShutdownPc.weight (N : Nat) : ShutdownPc → Nat
  | .notCalled => N + 5
  | .notifyingRecords => N + 4
  | .notifyingSpace => N + 2
  | .joining => 1
  | .returned => 0

def queueWeight (N S : Nat) (q : List (QueueItem ρ)) : Nat := (q.map (QueueItem.weight N S)).sum

@[simp] theorem queueWeight_nil (N S : Nat) : queueWeight N S ([] : List (QueueItem ρ)) = 0 := rfl

@[simp] theorem queueWeight_cons (N S : Nat) (item : QueueItem ρ) (q : List (QueueItem ρ)) :
    queueWeight N S (item :: q) = item.weight N S + queueWeight N S q := rfl

@[simp] theorem queueWeight_append (N S : Nat) (q q' : List (QueueItem ρ)) :
    queueWeight N S (q ++ q') = queueWeight N S q + queueWeight N S q' := by
  simp [queueWeight]

theorem weight_wakeRecords_le (N S : Nat) (p : PumpPc ρ) :
    p.wakeRecords.weight N S ≤ p.weight N S + 1 := by
  cases p <;> simp [PumpPc.wakeRecords, PumpPc.weight]

theorem weight_wakeSpace_le (N S : Nat) (pc : Pc ρ) :
    pc.wakeSpace.weight N S ≤ pc.weight N S + 1 := by
  cases pc <;> simp [Pc.wakeSpace, Pc.weight]

theorem weight_wakeDone_le (N S : Nat) (pc : Pc ρ) :
    pc.wakeDone.weight N S ≤ pc.weight N S + 1 := by
  cases pc <;> simp [Pc.wakeDone, Pc.weight]

theorem Pc.isEnqueuing.weight_eq {pc : Pc ρ} (h : pc.isEnqueuing) (N S : Nat) :
    pc.weight N S = S + 8 := by
  cases pc with
  | entering | spaceWoken => rfl
  | _ => cases h

theorem weight_handle_le (N S : Nat) (item : QueueItem ρ) :
    item.handle.weight N S + 2 = (PumpPc.popped item).weight N S := by
  cases item with
  | record r =>
    simp only [QueueItem.handle, PumpPc.weight]
    omega
  | marker ticket =>
    simp only [QueueItem.handle, PumpPc.weight]
    omega

/-! ## What an action costs, and brings in -/

/-- The step is one of the pump or of `shutdown`, or goes on with a call. -/
def Action.finishes : Action τ ρ → Bool
  | .enqueue _ | .notifyRecords _ | .flushLocked _ | .resume _ | .pumpLocked | .notifySpace _
  | .callSink _ | .notifyDone | .shutdown => true
  | .setLevel _ | .log _ _ _ | .flush _ | .wake _ | .wakePump => false

def Action.logs : Action τ ρ → Bool
  | .log _ _ _ => true
  | _ => false

def Action.flushes : Action τ ρ → Bool
  | .flush _ => true
  | _ => false

/-- A spurious wake-up. -/
def Action.disturbs : Action τ ρ → Bool
  | .wake _ | .wakePump => true
  | _ => false

def Action.cost (a : Action τ ρ) : Nat := a.finishes.toNat

def Action.budget (N S : Nat) : Action τ ρ → Nat
  | .log _ _ _ => S + 8
  | .flush _ => S + N + 9
  | .wake _ | .wakePump => 1
  | _ => 0

theorem budget_eq (N S : Nat) (a : Action τ ρ) :
    a.budget N S = (S + 8) * a.logs.toNat + (S + N + 9) * a.flushes.toNat +
      1 * a.disturbs.toNat := by
  cases a <;> simp [Action.budget, Action.logs, Action.flushes, Action.disturbs]

section Threads

variable [Fintype τ]

/-- What the threads may still cost. -/
def threadWeight (S : Nat) (f : τ → Pc ρ) : Nat := ∑ t, (f t).weight (Fintype.card τ) S

/-- What everything but the threads may still cost. -/
def World.restWeight (c : Config) (w : World τ ρ) : Nat :=
  queueWeight (Fintype.card τ) c.sinks w.queue + w.pump.weight (Fintype.card τ) c.sinks +
    w.shutdown.weight (Fintype.card τ)

def World.potential (c : Config) (w : World τ ρ) : Nat :=
  threadWeight c.sinks w.thread + w.restWeight c

theorem threadWeight_wake {S : Nat} {wake : Pc ρ → Pc ρ}
    (h : ∀ pc, (wake pc).weight (Fintype.card τ) S ≤ pc.weight (Fintype.card τ) S + 1)
    (f : τ → Pc ρ) :
    threadWeight S (fun t => wake (f t)) ≤ threadWeight S f + Fintype.card τ := by
  have hsum : ∑ t, (wake (f t)).weight (Fintype.card τ) S ≤
      ∑ t, ((f t).weight (Fintype.card τ) S + 1) := Finset.sum_le_sum fun t _ => h (f t)
  rwa [Finset.sum_add_distrib, Finset.sum_const_nat (m := 1) fun _ _ => rfl, Nat.mul_one,
    Finset.card_univ] at hsum

variable [DecidableEq τ]

theorem threadWeight_update (S : Nat) (f : τ → Pc ρ) (t : τ) (pc : Pc ρ) :
    threadWeight S (Function.update f t pc) + (f t).weight (Fintype.card τ) S ≤
      threadWeight S f + pc.weight (Fintype.card τ) S := by
  have hsum := sum_add_le (t := t) (c := 0) (f := fun u => (f u).weight (Fintype.card τ) S)
    (g := fun u => (Function.update f t pc u).weight (Fintype.card τ) S)
    fun u hu => by rw [Function.update_of_ne hu]; exact Nat.le_add_right _ _
  rw [Function.update_self] at hsum
  exact hsum

/-- One thread moves, and the rest may change. -/
theorem potential_move {t : τ} {pc : Pc ρ} {cost budget : Nat}
    (hthread : w'.thread = Function.update w.thread t pc)
    (h : pc.weight (Fintype.card τ) c.sinks + w'.restWeight c + cost ≤
      (w.thread t).weight (Fintype.card τ) c.sinks + w.restWeight c + budget) :
    w'.potential c + cost ≤ w.potential c + budget := by
  have hsum := threadWeight_update c.sinks w.thread t pc
  rw [World.potential, World.potential, hthread]
  omega

omit [DecidableEq τ] in
theorem potential_stay {cost budget : Nat} (hthread : w'.thread = w.thread)
    (h : w'.restWeight c + cost ≤ w.restWeight c + budget) :
    w'.potential c + cost ≤ w.potential c + budget := by
  rw [World.potential, World.potential, hthread]
  omega

omit [DecidableEq τ] in
/-- Everybody is woken. -/
theorem potential_wake {wake : Pc ρ → Pc ρ} {cost budget : Nat}
    (hwake : ∀ pc, (wake pc).weight (Fintype.card τ) c.sinks ≤
      pc.weight (Fintype.card τ) c.sinks + 1)
    (hthread : w'.thread = fun t => wake (w.thread t))
    (h : Fintype.card τ + w'.restWeight c + cost ≤ w.restWeight c + budget) :
    w'.potential c + cost ≤ w.potential c + budget := by
  have hsum := threadWeight_wake hwake w.thread
  rw [World.potential, World.potential, hthread]
  omega

omit [DecidableEq τ] in
theorem restWeight_take (hp : w.pump = .top ∨ w.pump = .woken) :
    w.take.restWeight c + 1 ≤ w.restWeight c := by
  have hpump : w.pump.weight (Fintype.card τ) c.sinks = c.sinks + Fintype.card τ + 4 := by
    rcases hp with hp | hp <;> rw [hp] <;> rfl
  unfold World.take World.restWeight
  rw [hpump]
  split
  · next hq =>
    split_ifs
    · simp only [hq, queueWeight_nil, PumpPc.weight]
      omega
    · simp only [hq, queueWeight_nil, PumpPc.weight]
      omega
  · next item rest hq =>
    cases item with
    | record r =>
      simp only [hq, queueWeight_cons, QueueItem.weight, PumpPc.weight]
      omega
    | marker ticket =>
      simp only [hq, queueWeight_cons, QueueItem.weight, PumpPc.weight]
      omega

/-- A thread moves, and nothing else. -/
theorem potential_setPc {t : τ} {pc : Pc ρ} {cost budget : Nat}
    (h : pc.weight (Fintype.card τ) c.sinks + cost ≤
      (w.thread t).weight (Fintype.card τ) c.sinks + budget) :
    (w.setPc t pc).potential c + cost ≤ w.potential c + budget := by
  refine potential_move rfl ?_
  have hrest : (w.setPc t pc).restWeight c = w.restWeight c := rfl
  omega

/-- **Every step pays for itself.** -/
theorem potential_step {a : Action τ ρ} (hstep : w.step c a = some w') :
    w'.potential c + a.cost ≤ w.potential c + a.budget (Fintype.card τ) c.sinks := by
  cases step_cases hstep with
  | setLevel level => exact Nat.le_refl _
  | filtered t level r => exact Nat.add_le_add_left (Nat.zero_le _) _
  | entered level hpc | flush hpc | flushSkipped hpc hs | flushed hpc hk | flushParked hpc
  | resume hpc | wakeSpace hpc | wakeDone hpc =>
    refine potential_setPc ?_
    simp only [hpc, Pc.weight, Action.cost, Action.finishes, Action.budget, Bool.toNat_true,
      Bool.toNat_false]
    omega
  | spaceParked henq =>
    refine potential_setPc ?_
    rw [henq.weight_eq]
    exact Nat.le_refl _
  | refused henq | dropped henq hpol =>
    refine potential_move rfl ?_
    rw [henq.weight_eq]
    simp only [World.restWeight, World.refuse, World.drop, World.setPc, Pc.weight, Action.cost,
      Action.finishes, Bool.toNat_true]
    omega
  | accepted henq hs =>
    refine potential_move rfl ?_
    rw [henq.weight_eq]
    simp only [World.restWeight, World.accept, World.setPc, Pc.weight, queueWeight_append,
      queueWeight_cons, queueWeight_nil, QueueItem.weight, Action.cost, Action.finishes,
      Bool.toNat_true]
    omega
  | notifyRecords hpc =>
    have hpump := weight_wakeRecords_le (Fintype.card τ) c.sinks w.pump
    refine potential_move rfl ?_
    simp only [hpc, World.restWeight, World.setPc, Pc.weight, Action.cost, Action.finishes,
      Bool.toNat_true]
    omega
  | marked hpc hs =>
    have hpump := weight_wakeRecords_le (Fintype.card τ) c.sinks w.pump
    refine potential_move rfl ?_
    simp only [hpc, World.restWeight, World.setPc, Pc.weight, queueWeight_append,
      queueWeight_cons, queueWeight_nil, QueueItem.weight, Action.cost, Action.finishes,
      Bool.toNat_true]
    omega
  | wakePump hp =>
    refine potential_stay rfl ?_
    simp only [hp, World.restWeight, PumpPc.weight, Action.cost, Action.finishes, Action.budget,
      Bool.toNat_false]
    omega
  | take hp =>
    have htake := restWeight_take (c := c) hp
    refine potential_stay ?_ (Nat.le_trans htake (Nat.le_add_right _ _))
    unfold World.take
    split
    · split_ifs <;> rfl
    · rfl
  | complete hp | completeAll hp =>
    refine potential_stay rfl ?_
    simp only [hp, World.restWeight, PumpPc.weight, Action.cost, Action.finishes,
      Bool.toNat_true]
    omega
  | @notifyNobody item hp =>
    have hhandle := weight_handle_le (Fintype.card τ) c.sinks item
    refine potential_stay rfl ?_
    simp only [World.restWeight, hp, Action.cost, Action.finishes, Bool.toNat_true]
    omega
  | @notifyOne item t r hp hpc =>
    have hhandle := weight_handle_le (Fintype.card τ) c.sinks item
    refine potential_move rfl ?_
    simp only [World.restWeight, World.setPc, hp, hpc, Pc.weight, Action.cost, Action.finishes,
      Bool.toNat_true]
    omega
  | write threw hp hi | flushSink threw hp hi | finalFlushSink threw hp hi
  | written threw hp hi | flushedSinks threw hp hi | finalFlushedSinks threw hp hi =>
    refine potential_stay rfl ?_
    simp only [hp, World.restWeight, World.record, PumpPc.weight, Action.cost, Action.finishes,
      Bool.toNat_true]
    omega
  | notifyDone hp | finalNotifyDone hp =>
    refine potential_wake (weight_wakeDone_le _ _) rfl ?_
    simp only [hp, World.restWeight, PumpPc.weight, Action.cost, Action.finishes,
      Bool.toNat_true]
    omega
  | stop hs | join hs hp =>
    refine potential_stay rfl ?_
    simp only [hs, World.restWeight, ShutdownPc.weight, Action.cost, Action.finishes,
      Bool.toNat_true]
    omega
  | notifyAllRecords hs =>
    have hpump := weight_wakeRecords_le (Fintype.card τ) c.sinks w.pump
    refine potential_stay rfl ?_
    simp only [hs, World.restWeight, ShutdownPc.weight, Action.cost, Action.finishes,
      Bool.toNat_true]
    omega
  | notifyAllSpace hs =>
    refine potential_wake (weight_wakeSpace_le _ _) rfl ?_
    simp only [hs, World.restWeight, ShutdownPc.weight, Action.cost, Action.finishes,
      Bool.toNat_true]
    omega

theorem potential_finishes {a : Action τ ρ} (ha : a.finishes = true)
    (hstep : w.step c a = some w') : w'.potential c + 1 ≤ w.potential c := by
  have hpays := potential_step hstep
  have hbudget : a.budget (Fintype.card τ) c.sinks = 0 := by
    cases a with
    | setLevel | log | flush | wake | wakePump => cases ha
    | _ => rfl
  rwa [Action.cost, ha, hbudget] at hpays

/-! ## Every run -/

omit [Fintype τ] [DecidableEq τ] in
theorem sum_budget (N S : Nat) (as : List (Action τ ρ)) :
    (as.map (Action.budget N S)).sum = (S + 8) * as.countP Action.logs +
      (S + N + 9) * as.countP Action.flushes + as.countP Action.disturbs := by
  rw [List.map_congr_left fun a _ => budget_eq N S a, List.sum_map_add, List.sum_map_add,
    sum_map_mul_toNat, sum_map_mul_toNat, sum_map_mul_toNat, Nat.one_mul]

omit [DecidableEq τ] in
theorem potential_initial : (World.initial τ ρ).potential c = c.sinks + 2 * Fintype.card τ + 9 := by
  have hthreads : threadWeight c.sinks (World.initial τ ρ).thread = 0 :=
    Finset.sum_eq_zero fun _ _ => rfl
  rw [World.potential, hthreads]
  simp only [World.restWeight, World.initial, queueWeight_nil, PumpPc.weight, ShutdownPc.weight]
  omega

/-- **Nobody spins**: the steps of a run are paid for by its calls and its spurious wake-ups. -/
theorem run_work_le (as : List (Action τ ρ))
    (hrun : run (World.step c) (World.initial τ ρ) as = some w) :
    as.countP Action.finishes ≤ (c.sinks + 8) * as.countP Action.logs +
      (c.sinks + Fintype.card τ + 9) * as.countP Action.flushes + as.countP Action.disturbs +
      (c.sinks + 2 * Fintype.card τ + 9) := by
  have hpays := run_countP_le (World.step c) (World.potential c) Action.finishes
    (Action.budget (Fintype.card τ) c.sinks) (fun _ _ _ hstep => potential_step hstep) hrun
  rw [potential_initial, sum_budget] at hpays
  omega

/-! ## When no step is left -/

/-- Nothing is left to do but to call the logger. -/
def Exhausted (c : Config) (w : World τ ρ) : Prop :=
  ∀ a : Action τ ρ, a.finishes = true →
    w.step c a = none ∨ a = .shutdown ∧ w.shutdown = .notCalled

/-- Nobody is inside, and every accepted record has been handed to every sink. -/
structure AtRest (c : Config) (w : World τ ρ) : Prop where
  idle : ∀ t, w.thread t = .idle
  queue : w.queue = []
  delivered : ∀ i, i < c.sinks → writes i w.calls = w.accepted
  pump : (w.shutdown = .notCalled ∧ w.pump = .parked) ∨
    (w.shutdown = .returned ∧ w.pump = .exited)

theorem Exhausted.not_enabled (h : Exhausted c w) {a : Action τ ρ} (ha : a.finishes = true)
    (hne : a ≠ .shutdown) (henabled : w.step c a = some w') : False := by
  rcases h a ha with hnone | ⟨heq, -⟩
  · rw [henabled] at hnone
    cases hnone
  · exact hne heq

theorem exists_notifySpace {item : QueueItem ρ} (hp : w.pump = .popped item) :
    ∃ u w', w.step c (.notifySpace u) = some w' := by
  by_cases hnone : ∀ t, (w.thread t).isSpaceParked = false
  · exact ⟨none, _, by simp only [World.step, hp]; rw [if_pos hnone]⟩
  · obtain ⟨t, ht⟩ := not_forall.1 hnone
    exact ⟨some t, _, by simp only [World.step, hp]; rw [if_pos (eq_true_of_ne_false ht)]⟩

theorem exists_callSink {i : Nat}
    (hp : (∃ r, w.pump = .delivering r i) ∨ (∃ ticket, w.pump = .flushing ticket i) ∨
      w.pump = .finalFlushing i) : ∃ w', w.step c (.callSink false) = some w' := by
  rcases hp with ⟨r, hp⟩ | ⟨ticket, hp⟩ | hp
  all_goals
    simp only [World.step, hp]
    split_ifs
    · exact ⟨_, rfl⟩
    · exact ⟨_, rfl⟩

theorem Exhausted.pump (h : Exhausted c w) : w.pump = .parked ∨ w.pump = .exited := by
  cases hp : w.pump with
  | parked => exact .inl rfl
  | exited => exact .inr rfl
  | top | woken | completing | finalCompleting =>
    exact (h.not_enabled (a := .pumpLocked) rfl (by simp) (by simp only [World.step, hp]; rfl)).elim
  | popped item =>
    obtain ⟨u, w', hstep⟩ := exists_notifySpace (c := c) hp
    exact (h.not_enabled (a := .notifySpace u) rfl (by simp) hstep).elim
  | delivering r i =>
    obtain ⟨w', hstep⟩ := exists_callSink (c := c) (.inl ⟨r, hp⟩)
    exact (h.not_enabled (a := .callSink false) rfl (by simp) hstep).elim
  | flushing ticket i =>
    obtain ⟨w', hstep⟩ := exists_callSink (c := c) (.inr (.inl ⟨ticket, hp⟩))
    exact (h.not_enabled (a := .callSink false) rfl (by simp) hstep).elim
  | finalFlushing i =>
    obtain ⟨w', hstep⟩ := exists_callSink (c := c) (.inr (.inr hp))
    exact (h.not_enabled (a := .callSink false) rfl (by simp) hstep).elim
  | notifyingDone | finalNotifying =>
    exact (h.not_enabled (a := .notifyDone) rfl (by simp) (by simp only [World.step, hp]; rfl)).elim

/-- A caller that is inside is parked. -/
theorem Exhausted.thread (h : Exhausted c w) (t : τ) : w.thread t = .idle ∨
    (w.thread t).isSpaceParked = true ∨ ∃ k, (w.thread t).parkedTicket = some k := by
  cases hpc : w.thread t with
  | idle => exact .inl rfl
  | spaceParked r => exact .inr (.inl rfl)
  | flushParked ticket before => exact .inr (.inr ⟨ticket, rfl⟩)
  | entering | spaceWoken =>
    exact (h.not_enabled (a := .enqueue t) rfl (by simp) (by simp only [World.step, hpc]; rfl)).elim
  | notifying =>
    exact (h.not_enabled (a := .notifyRecords t) rfl (by simp)
      (by simp only [World.step, hpc]; rfl)).elim
  | flushEntering | flushWoken =>
    exact (h.not_enabled (a := .flushLocked t) rfl (by simp)
      (by simp only [World.step, hpc]; rfl)).elim
  | flushed before =>
    exact (h.not_enabled (a := .resume t) rfl (by simp) (by simp only [World.step, hpc]; rfl)).elim

theorem Exhausted.shutdown (h : Exhausted c w) : w.shutdown = .notCalled ∨ w.shutdown = .returned ∨
    (w.shutdown = .joining ∧ w.pump ≠ .exited) := by
  rcases h .shutdown rfl with hnone | ⟨-, hnot⟩
  · cases hs : w.shutdown with
    | returned => exact .inr (.inl rfl)
    | joining =>
      refine .inr (.inr ⟨rfl, fun hp => ?_⟩)
      simp only [World.step, hs, hp] at hnone
      cases hnone
    | _ =>
      simp only [World.step, hs] at hnone
      cases hnone
  · exact .inl hnot

theorem Exhausted.quiet (h : Exhausted c w) : Quiet w := by
  refine ⟨fun t => ?_, ?_, ?_⟩
  · rcases h.thread t with hidle | hpark | ⟨k, hk⟩
    · rw [hidle]
      exact ⟨rfl, rfl⟩
    · cases hpc : w.thread t with
      | spaceParked r => exact ⟨rfl, rfl⟩
      | _ =>
        rw [hpc] at hpark
        cases hpark
    · cases hpc : w.thread t with
      | flushParked ticket before => exact ⟨rfl, rfl⟩
      | _ =>
        rw [hpc] at hk
        cases hk
  · rcases h.pump with hp | hp
    all_goals
      rw [hp]
      exact ⟨nofun, rfl, rfl⟩
  · rcases h.shutdown with hs | hs | ⟨hs, -⟩
    all_goals
      rw [hs]
      exact ⟨nofun, nofun⟩

/-- **When no step is left, every call has come to its end.** -/
theorem Exhausted.atRest (h : Exhausted c w) (hinv : Inv c w) (hpromised : Promised w)
    (hflushers : Flushers w) : AtRest c w := by
  have hquiet := h.quiet
  have hqueue : w.queue = [] ∧ ((w.shutdown = .notCalled ∧ w.pump = .parked) ∨
      (w.shutdown = .returned ∧ w.pump = .exited)) := by
    rcases h.pump with hp | hp
    · rcases hpromised.records hp with ⟨hempty, hrun⟩ | ⟨u, hu⟩ | hs
      · refine ⟨hempty, .inl ⟨?_, hp⟩⟩
        by_contra hcalled
        rw [hinv.drained.began.2 hcalled] at hrun
        cases hrun
      · rw [(hquiet.callers u).1] at hu
        cases hu
      · exact absurd hs hquiet.shutdown.1
    · obtain ⟨hstop, hempty⟩ := hinv.drained.empty (by rw [hp]; rfl)
      have hcalled := hinv.drained.began.1 hstop
      rcases h.shutdown with hs | hs | ⟨-, hne⟩
      · exact absurd hs hcalled
      · exact ⟨hempty, .inr ⟨hs, hp⟩⟩
      · exact absurd hp hne
  obtain ⟨hempty, hpump⟩ := hqueue
  have hticket : w.pump.ticket = [] := by
    rcases hpump with ⟨-, hp⟩ | ⟨-, hp⟩ <;> rw [hp] <;> rfl
  have hnobody := nobodyParked hpromised hflushers hquiet hempty hticket
  refine ⟨fun t => ?_, hempty, fun i hi => ?_, hpump⟩
  · rcases h.thread t with hidle | hpark | ⟨k, hk⟩
    · exact hidle
    · rw [(hnobody t).1] at hpark
      cases hpark
    · rw [(hnobody t).2] at hk
      cases hk
  · have hdelivery := hinv.delivery i hi
    have hhand : w.pump.inHand i = [] := by
      rcases hpump with ⟨-, hp⟩ | ⟨-, hp⟩ <;> rw [hp] <;> rfl
    rw [hhand, hempty] at hdelivery
    simpa [records] using hdelivery.symm

/-! ## Coming to rest -/

theorem PumpPc.weight_le (N S : Nat) (p : PumpPc ρ) : p.weight N S ≤ 2 * S + 2 * N + 9 := by
  cases p with
  | popped item =>
    cases item with
    | record r =>
      simp only [PumpPc.weight]
      omega
    | marker ticket => exact Nat.le_refl _
  | _ =>
    simp only [PumpPc.weight]
    omega

omit [DecidableEq τ] in
theorem potential_le (c : Config) (w : World τ ρ) :
    w.potential c ≤
      (Fintype.card τ + w.queue.length + 3) * (c.sinks + Fintype.card τ + 9) := by
  have hthread : ∀ t ∈ Finset.univ, (w.thread t).weight (Fintype.card τ) c.sinks ≤
      c.sinks + Fintype.card τ + 9 := by
    intro t _
    cases w.thread t <;> simp only [Pc.weight] <;> omega
  have hthreads := Finset.sum_le_card_nsmul Finset.univ _ _ hthread
  rw [Nat.nsmul_eq_mul, Finset.card_univ] at hthreads
  have hqueue : queueWeight (Fintype.card τ) c.sinks w.queue ≤
      w.queue.length * (c.sinks + Fintype.card τ + 9) := by
    have hitem : ∀ n ∈ w.queue.map (QueueItem.weight (Fintype.card τ) c.sinks),
        n ≤ c.sinks + Fintype.card τ + 9 := by
      intro n hn
      obtain ⟨item, -, rfl⟩ := List.mem_map.1 hn
      cases item <;> simp only [QueueItem.weight] <;> omega
    have hsum := List.sum_le_card_nsmul _ _ hitem
    rwa [Nat.nsmul_eq_mul, List.length_map] at hsum
  have hpump := PumpPc.weight_le (Fintype.card τ) c.sinks w.pump
  have hshutdown : w.shutdown.weight (Fintype.card τ) ≤ Fintype.card τ + 5 := by
    cases w.shutdown <;> simp only [ShutdownPc.weight] <;> omega
  rw [Nat.add_mul, Nat.add_mul, World.potential, World.restWeight, threadWeight]
  omega

/-- **Every call comes to its end.** -/
theorem reachable_comes_to_rest (h : Reachable (World.step c) (World.initial τ ρ) w)
    {as : List (Action τ ρ)} (hfinishes : ∀ a ∈ as, a.finishes = true)
    (hrun : run (World.step c) w as = some w') :
    as.length ≤ (Fintype.card τ + w.queue.length + 3) * (c.sinks + Fintype.card τ + 9) ∧
      (Exhausted c w' → AtRest c w') := by
  have hlater : Reachable (World.step c) (World.initial τ ρ) w' := by
    obtain ⟨before, hbefore⟩ := h
    exact ⟨before ++ as, by rw [run_append, hbefore, Option.bind_some, hrun]⟩
  refine ⟨?_, fun hexhausted => ?_⟩
  · exact Nat.le_trans (run_length_le (World.step c) (World.potential c)
      (fun _ _ _ ha hstep => potential_finishes ha hstep) hfinishes hrun) (potential_le c w)
  · obtain ⟨hpromised, hflushers⟩ := waking_of_reachable hlater
    exact hexhausted.atRest (inv_of_reachable hlater) hpromised hflushers

end Threads

/-- Two producers compete for the one place. -/
def competing : List (Action Bool Nat) :=
  [.log true .info 7, .log false .info 8, .enqueue true, .enqueue false]

/-- Both records are written. -/
def bothWritten : List (Action Bool Nat) :=
  [.notifyRecords true, .pumpLocked, .notifySpace (some false), .enqueue false, .callSink true,
    .callSink false, .callSink false, .notifyRecords false, .pumpLocked, .notifySpace none,
    .callSink false, .callSink false, .callSink false, .pumpLocked]

theorem run_work_le_bothWritten :
    ∃ w, run (World.step small) (World.initial Bool Nat) (competing ++ bothWritten) = some w ∧
      16 ≤ (2 + 8) * 2 + (2 + 2 + 9) * 0 + 0 + (2 + 2 * 2 + 9) := by
  have hrun : ∃ w, run (World.step small) (World.initial Bool Nat) (competing ++ bothWritten) =
      some w := ⟨_, rfl⟩
  obtain ⟨w, hw⟩ := hrun
  exact ⟨w, hw, run_work_le _ hw⟩

theorem reachable_comes_to_rest_bothWritten :
    ∃ w w', run (World.step small) (World.initial Bool Nat) competing = some w ∧
      run (World.step small) w bothWritten = some w' ∧ 14 ≤ (2 + 1 + 3) * (2 + 2 + 9) ∧
      AtRest small w' := by
  have hrun : ∃ w w', run (World.step small) (World.initial Bool Nat) competing = some w ∧
      run (World.step small) w bothWritten = some w' ∧ w.queue.length = 1 ∧
      w'.pump = .parked ∧ w'.shutdown = .notCalled ∧ ∀ t, w'.thread t = .idle :=
    ⟨_, _, rfl, rfl, rfl, rfl, rfl, by decide⟩
  obtain ⟨w, w', hw, hw', hlength, hpump, hshutdown, hthread⟩ := hrun
  obtain ⟨hbound, hrest⟩ := reachable_comes_to_rest ⟨_, hw⟩ (by decide) hw'
  rw [hlength] at hbound
  refine ⟨w, w', hw, hw', hbound, hrest fun a ha => ?_⟩
  cases a with
  | shutdown => exact .inr ⟨rfl, hshutdown⟩
  | setLevel | log | flush | wake | wakePump => cases ha
  | enqueue t | notifyRecords t | flushLocked t | resume t =>
    exact .inl (by simp only [World.step, hthread])
  | pumpLocked | notifySpace | callSink | notifyDone =>
    exact .inl (by simp only [World.step, hpump])

end Logger

end EglUtil
