import EglUtil.LoggerDelivery

/-!
# `Logger::flush` as a barrier

**Theorem (`flush_barrier`).** A `flush` call that has returned finds every record accepted before
it began written to every sink, and every sink flushed after that, in every run in which no
`flush` takes the mutex between the start of `shutdown` and the end of the pump's final flush.
(In between, `flush` returns at once although the drain is still going on: `early_return`.)

The invariant says where the marker of a waiting `flush` is. In the queue, fewer records follow
it than were accepted since the call began; in the pump's hands, the sinks whose turn has come are
flushed already; otherwise every sink is. Tickets in the queue increase and are above
`flush_completed_`, so a ticket that counts as complete is in neither place.
-/

namespace EglUtil

open Transition

namespace Logger

variable {τ ρ : Type*} {c : Config} {w w' : World τ ρ}

/-! ## Sinks that are up to date -/

/-- Sink `i` was flushed after it had been given at least `n` records. -/
def Settled (i n : Nat) (calls : List (SinkCall ρ)) : Prop :=
  ∃ before threw after, calls = before ++ ⟨i, none, threw⟩ :: after ∧ n ≤ (writes i before).length

theorem Settled.append {i n : Nat} {calls : List (SinkCall ρ)} (h : Settled i n calls)
    (more : List (SinkCall ρ)) : Settled i n (calls ++ more) := by
  obtain ⟨before, threw, after, rfl, hn⟩ := h
  exact ⟨before, threw, after ++ more, by simp, hn⟩

theorem Settled.mono {i m n : Nat} {calls : List (SinkCall ρ)} (h : Settled i n calls)
    (hm : m ≤ n) : Settled i m calls := by
  obtain ⟨before, threw, after, hc, hn⟩ := h
  exact ⟨before, threw, after, hc, hm.trans hn⟩

theorem settled_flush {i n : Nat} {calls : List (SinkCall ρ)} (h : n ≤ (writes i calls).length)
    (threw : Bool) : Settled i n (calls ++ [⟨i, none, threw⟩]) :=
  ⟨calls, threw, [], rfl, h⟩

/-- All sinks are. -/
def Barrier (c : Config) (n : Nat) (calls : List (SinkCall ρ)) : Prop :=
  ∀ i, i < c.sinks → Settled i n calls

theorem Barrier.append {n : Nat} {calls : List (SinkCall ρ)} (h : Barrier c n calls)
    (more : List (SinkCall ρ)) : Barrier c n (calls ++ more) :=
  fun i hi => (h i hi).append more

theorem Barrier.mono {m n : Nat} {calls : List (SinkCall ρ)} (h : Barrier c n calls)
    (hm : m ≤ n) : Barrier c m calls :=
  fun i hi => (h i hi).mono hm

/-! ## Tickets -/

/-- The tickets among queue items. -/
def tickets (q : List (QueueItem ρ)) : List Nat :=
  q.filterMap fun
    | .record _ => none
    | .marker ticket => some ticket

/-- The ticket in the pump's hands. -/
def PumpPc.ticket : PumpPc ρ → List Nat
  | .popped (.marker ticket) => [ticket]
  | .flushing ticket _ => [ticket]
  | .completing ticket => [ticket]
  | _ => []

@[simp] theorem ticket_wakeRecords (p : PumpPc ρ) : p.wakeRecords.ticket = p.ticket := by
  cases p <;> rfl

@[simp] theorem tickets_append (q q' : List (QueueItem ρ)) :
    tickets (q ++ q') = tickets q ++ tickets q' := by
  simp [tickets]

@[simp] theorem tickets_cons_record (q : List (QueueItem ρ)) (r : ρ) :
    tickets (.record r :: q) = tickets q := rfl

@[simp] theorem tickets_cons_marker (q : List (QueueItem ρ)) (ticket : Nat) :
    tickets (.marker ticket :: q) = ticket :: tickets q := rfl

@[simp] theorem tickets_nil : tickets ([] : List (QueueItem ρ)) = [] := rfl

/-- The tickets on their way, oldest first. -/
def World.outstanding (w : World τ ρ) : List Nat := w.pump.ticket ++ tickets w.queue

/-- Tickets increase, from `flush_completed_` to `flush_requested_`. -/
structure Tickets (w : World τ ρ) : Prop where
  sorted : w.outstanding.Pairwise (· < ·)
  above : ∀ k ∈ w.outstanding, w.flushCompleted < k
  issued : ∀ k ∈ w.outstanding, k ≤ w.flushRequested
  completed : w.flushCompleted ≤ w.flushRequested

theorem Tickets.congr (h : Tickets w) (ho : w'.outstanding = w.outstanding)
    (hr : w'.flushRequested = w.flushRequested) (hc : w'.flushCompleted = w.flushCompleted) :
    Tickets w' :=
  ⟨ho ▸ h.sorted, by rw [ho, hc]; exact h.above, by rw [ho, hr]; exact h.issued,
    by rw [hr, hc]; exact h.completed⟩

/-- A new ticket is above all others. -/
theorem Tickets.push (h : Tickets w) (ho : w'.outstanding = w.outstanding ++ [w.flushRequested + 1])
    (hr : w'.flushRequested = w.flushRequested + 1) (hc : w'.flushCompleted = w.flushCompleted) :
    Tickets w' := by
  have hle := h.completed
  refine ⟨?_, ?_, ?_, by omega⟩
  · rw [ho, List.pairwise_append]
    refine ⟨h.sorted, List.pairwise_singleton _ _, fun a ha b hb => ?_⟩
    have := h.issued a ha
    rw [List.mem_singleton] at hb
    omega
  · intro k hk
    rw [ho, List.mem_append, List.mem_singleton] at hk
    rcases hk with hk | rfl
    · have := h.above k hk
      omega
    · omega
  · intro k hk
    rw [ho, List.mem_append, List.mem_singleton] at hk
    rcases hk with hk | rfl
    · have := h.issued k hk
      omega
    · omega

/-- The oldest ticket is completed. -/
theorem Tickets.pop (h : Tickets w) {k : Nat} (ho : w.outstanding = k :: w'.outstanding)
    (hr : w'.flushRequested = w.flushRequested)
    (hc : w'.flushCompleted = max w.flushCompleted k) : Tickets w' := by
  have hs := h.sorted
  have hk := h.issued k (by rw [ho]; exact List.mem_cons_self)
  have hle := h.completed
  rw [ho, List.pairwise_cons] at hs
  have hmem : ∀ j ∈ w'.outstanding, j ∈ w.outstanding := fun j hj => by
    rw [ho]
    exact List.mem_cons_of_mem _ hj
  refine ⟨hs.2, fun j hj => ?_, fun j hj => ?_, by omega⟩
  · have := hs.1 j hj
    have := h.above j (hmem j hj)
    omega
  · rw [hr]
    exact h.issued j (hmem j hj)

/-- The final completion finds none. -/
theorem Tickets.finish (ho : w'.outstanding = []) (hc : w'.flushCompleted = w'.flushRequested) :
    Tickets w' :=
  ⟨by rw [ho]; exact .nil, by rw [ho]; nofun, by rw [ho]; nofun, by omega⟩

/-! ## Waiting callers -/

/-- With a ticket in hand, the sinks whose turn has come are flushed. -/
def PumpPc.progress (c : Config) (n : Nat) (calls : List (SinkCall ρ)) : PumpPc ρ → Prop
  | .flushing _ i => ∀ j, j < i → j < c.sinks → Settled j n calls
  | .completing _ => Barrier c n calls
  | _ => True

/-- The same for the flush after the drain. -/
def PumpPc.finalProgress (c : Config) (n : Nat) (calls : List (SinkCall ρ)) : PumpPc ρ → Prop
  | .finalFlushing i => ∀ j, j < i → j < c.sinks → Settled j n calls
  | .finalCompleting | .finalNotifying | .exited => Barrier c n calls
  | _ => True

/-- Where the marker of a `flush` with ticket `k` is, which began after `n` records. -/
def Waits (c : Config) (w : World τ ρ) (k n : Nat) : Prop :=
  (∃ q q', w.queue = q ++ .marker k :: q' ∧ n + (records q').length ≤ w.accepted.length) ∨
  (w.pump.ticket = [k] ∧ n + (records w.queue).length ≤ w.accepted.length ∧
    w.pump.progress c n w.calls) ∨
  Barrier c n w.calls

def PcOk (c : Config) (w : World τ ρ) : Pc ρ → Prop
  | .flushEntering before => before ≤ w.accepted.length
  | .flushParked ticket before | .flushWoken ticket before => Waits c w ticket before
  | .flushed before => Barrier c before w.calls
  | _ => True

structure FlushInv (c : Config) (w : World τ ρ) : Prop where
  tickets : Tickets w
  threads : ∀ t, PcOk c w (w.thread t)
  final : w.pump.finalProgress c w.accepted.length w.calls

/-- What held for a caller in `w` holds in `v`. -/
structure Carries (c : Config) (w v : World τ ρ) : Prop where
  accepted : w.accepted.length ≤ v.accepted.length
  waits : ∀ k n, Waits c w k n → Waits c v k n
  barrier : ∀ n, Barrier c n w.calls → Barrier c n v.calls

theorem Carries.pcOk (h : Carries c w w') {pc : Pc ρ} (hpc : PcOk c w pc) : PcOk c w' pc := by
  cases pc with
  | flushEntering before => exact Nat.le_trans hpc h.accepted
  | flushParked ticket before => exact h.waits _ _ hpc
  | flushWoken ticket before => exact h.waits _ _ hpc
  | flushed before => exact h.barrier _ hpc
  | _ => trivial

/-- Queue, records and calls are the same, and the pump has gone on. -/
theorem carries_pump (hq : w'.queue = w.queue) (ha : w'.accepted = w.accepted)
    (hc : w'.calls = w.calls)
    (hp : ∀ k n, w.pump.ticket = [k] → w.pump.progress c n w.calls →
      (w'.pump.ticket = [k] ∧ w'.pump.progress c n w.calls) ∨ Barrier c n w.calls) :
    Carries c w w' := by
  refine ⟨by rw [ha], fun k n hw => ?_, fun n hb => by rw [hc]; exact hb⟩
  unfold Waits
  rw [hq, ha, hc]
  rcases hw with hw | ⟨hk, hn, hprog⟩ | hw
  · exact .inl hw
  · rcases hp k n hk hprog with ⟨hk', hprog'⟩ | hb
    · exact .inr (.inl ⟨hk', hn, hprog'⟩)
    · exact .inr (.inr hb)
  · exact .inr (.inr hw)

theorem carries_of_eq (hq : w'.queue = w.queue) (ha : w'.accepted = w.accepted)
    (hc : w'.calls = w.calls) (hp : w'.pump = w.pump) : Carries c w w' :=
  carries_pump hq ha hc fun _ _ hk hprog => .inl (by rw [hp]; exact ⟨hk, hprog⟩)

theorem progress_wakeRecords (p : PumpPc ρ) (n : Nat) (calls : List (SinkCall ρ)) :
    p.wakeRecords.progress c n calls = p.progress c n calls := by
  cases p <;> rfl

theorem finalProgress_wakeRecords (p : PumpPc ρ) (n : Nat) (calls : List (SinkCall ρ)) :
    p.wakeRecords.finalProgress c n calls = p.finalProgress c n calls := by
  cases p <;> rfl

/-- A record enters at the end of the queue. -/
theorem carries_accept {r : ρ} (hq : w'.queue = w.queue ++ [.record r])
    (ha : w'.accepted = w.accepted ++ [r]) (hc : w'.calls = w.calls) (hp : w'.pump = w.pump) :
    Carries c w w' := by
  refine ⟨by simp [ha], fun k n hw => ?_, fun n hb => by rw [hc]; exact hb⟩
  unfold Waits
  rw [hq, ha, hc, hp]
  rcases hw with ⟨q, q', hsplit, hn⟩ | ⟨hk, hn, hprog⟩ | hw
  · refine .inl ⟨q, q' ++ [.record r], by simp [hsplit], ?_⟩
    simp only [records_append_record, List.length_append, List.length_singleton]
    omega
  · refine .inr (.inl ⟨hk, ?_, hprog⟩)
    simp only [records_append_record, List.length_append, List.length_singleton]
    omega
  · exact .inr (.inr hw)

/-- A marker does. -/
theorem carries_marker {k' : Nat} (hq : w'.queue = w.queue ++ [.marker k'])
    (ha : w'.accepted = w.accepted) (hc : w'.calls = w.calls)
    (hp : w'.pump = w.pump.wakeRecords) : Carries c w w' := by
  refine ⟨by rw [ha], fun k n hw => ?_, fun n hb => by rw [hc]; exact hb⟩
  unfold Waits
  rw [hq, ha, hc, hp, ticket_wakeRecords, progress_wakeRecords]
  rcases hw with ⟨q, q', hsplit, hn⟩ | ⟨hk, hn, hprog⟩ | hw
  · exact .inl ⟨q, q' ++ [.marker k'], by simp [hsplit], by simpa using hn⟩
  · exact .inr (.inl ⟨hk, by simpa using hn, hprog⟩)
  · exact .inr (.inr hw)

/-- The pump takes the oldest item. -/
theorem carries_pop {item : QueueItem ρ} (hq : w.queue = item :: w'.queue)
    (ha : w'.accepted = w.accepted) (hc : w'.calls = w.calls) (hp : w'.pump = .popped item)
    (hfree : w.pump.ticket = []) : Carries c w w' := by
  refine ⟨by rw [ha], fun k n hw => ?_, fun n hb => by rw [hc]; exact hb⟩
  unfold Waits
  rw [ha, hc]
  rcases hw with ⟨q, q', hsplit, hn⟩ | ⟨hk, -⟩ | hw
  · rw [hq] at hsplit
    cases q with
    | nil =>
      -- the marker itself was popped
      obtain ⟨rfl, rfl⟩ := List.cons.inj hsplit
      exact .inr (.inl ⟨by rw [hp]; rfl, hn, by rw [hp]; trivial⟩)
    | cons item' q =>
      obtain ⟨rfl, htail⟩ := List.cons.inj hsplit
      exact .inl ⟨q, q', htail, hn⟩
  · rw [hfree] at hk
    cases hk
  · exact .inr (.inr hw)

/-- A sink is called. -/
theorem carries_call {call : SinkCall ρ} (hq : w'.queue = w.queue) (ha : w'.accepted = w.accepted)
    (hc : w'.calls = w.calls ++ [call])
    (hp : ∀ k n, w.pump.ticket = [k] → n + (records w.queue).length ≤ w.accepted.length →
      w.pump.progress c n w.calls → w'.pump.ticket = [k] ∧ w'.pump.progress c n w'.calls) :
    Carries c w w' := by
  refine ⟨by rw [ha], fun k n hw => ?_, fun n hb => by rw [hc]; exact hb.append _⟩
  unfold Waits
  rw [hq, ha]
  rcases hw with hw | ⟨hk, hn, hprog⟩ | hw
  · exact .inl hw
  · obtain ⟨hk', hprog'⟩ := hp k n hk hn hprog
    exact .inr (.inl ⟨hk', hn, hprog'⟩)
  · rw [hc]
    exact .inr (.inr (hw.append _))

/-! ## One step -/

theorem threads_map (h : ∀ t, PcOk c w (w.thread t)) (hc : Carries c w w') {f : Pc ρ → Pc ρ}
    (hf : ∀ pc, PcOk c w' pc → PcOk c w' (f pc)) (ht : w'.thread = fun t => f (w.thread t)) :
    ∀ t, PcOk c w' (w'.thread t) := by
  intro t
  rw [ht]
  exact hf _ (hc.pcOk (h t))

theorem threads_same (h : ∀ t, PcOk c w (w.thread t)) (hc : Carries c w w')
    (ht : w'.thread = w.thread) : ∀ t, PcOk c w' (w'.thread t) :=
  threads_map h hc (fun _ hpc => hpc) ht

section Steps

variable [DecidableEq τ]

theorem threads_move (h : ∀ t, PcOk c w (w.thread t)) (hc : Carries c w w') {t : τ} {pc : Pc ρ}
    (ht : w'.thread = Function.update w.thread t pc) (hpc : PcOk c w' pc) :
    ∀ u, PcOk c w' (w'.thread u) := by
  intro u
  rw [ht]
  by_cases hu : u = t
  · subst hu
    rw [Function.update_self]
    exact hpc
  · rw [Function.update_of_ne hu]
    exact hc.pcOk (h u)

/-- One caller moves and nothing else changes. -/
theorem FlushInv.setPc (h : FlushInv c w) {t : τ} {p : Pc ρ} (hpc : PcOk c w p) :
    FlushInv c (w.setPc t p) := by
  have hcar : Carries c w (w.setPc t p) := carries_of_eq rfl rfl rfl rfl
  exact ⟨h.tickets.congr rfl rfl rfl, threads_move h.threads hcar rfl (hcar.pcOk hpc), h.final⟩

/-- A record is accepted, so the pump is still in its loop. -/
theorem FlushInv.accept (h : FlushInv c w) (hd : Drained w) (hrun : w.stopping = false) (t : τ)
    (r : ρ) : FlushInv c (w.accept t r) := by
  have hcar : Carries c w (w.accept t r) := carries_accept rfl rfl rfl rfl
  refine ⟨h.tickets.congr ?_ rfl rfl, threads_move h.threads hcar rfl trivial, ?_⟩
  · simp [World.outstanding, World.accept, World.setPc]
  · have hloop : w.pump.isFinal = false := by
      by_contra hf
      rw [(hd.empty (by simpa using hf)).1] at hrun
      cases hrun
    change w.pump.finalProgress c _ _
    cases hp : w.pump <;> simp_all [PumpPc.isFinal, PumpPc.finalProgress]

theorem FlushInv.marker (h : FlushInv c w) {t : τ} {before : Nat}
    (hb : before ≤ w.accepted.length) :
    FlushInv c { w.setPc t (.flushParked (w.flushRequested + 1) before) with
      flushRequested := w.flushRequested + 1
      queue := w.queue ++ [.marker (w.flushRequested + 1)]
      pump := w.pump.wakeRecords } := by
  refine ⟨h.tickets.push ?_ rfl rfl,
    threads_move h.threads (carries_marker rfl rfl rfl rfl) rfl ?_, ?_⟩
  · simp [World.outstanding]
  · exact .inl ⟨w.queue, [], rfl, hb⟩
  · change w.pump.wakeRecords.finalProgress c _ _
    rw [finalProgress_wakeRecords]
    exact h.final

omit [DecidableEq τ] in
/-- The pump moves on to a state in which it holds the same ticket, or none. -/
theorem FlushInv.pump (h : FlushInv c w) {p : PumpPc ρ} (hk : p.ticket = w.pump.ticket)
    (hprog : ∀ n, w.pump.progress c n w.calls → p.progress c n w.calls)
    (hfinal : p.finalProgress c w.accepted.length w.calls) : FlushInv c { w with pump := p } := by
  have hcar : Carries c w { w with pump := p } :=
    carries_pump rfl rfl rfl fun k n hk' hp => .inl ⟨hk.trans hk', hprog n hp⟩
  refine ⟨h.tickets.congr ?_ rfl rfl, threads_same h.threads hcar rfl, hfinal⟩
  simp [World.outstanding, hk]

omit [DecidableEq τ] in
theorem FlushInv.take (h : FlushInv c w) (hp : w.pump = .top ∨ w.pump = .woken) :
    FlushInv c w.take := by
  have hfree : w.pump.ticket = [] := by rcases hp with hp | hp <;> rw [hp] <;> rfl
  unfold World.take
  split
  · split_ifs
    · exact h.pump hfree.symm (fun _ _ => trivial) nofun
    · exact h.pump hfree.symm (fun _ _ => trivial) trivial
  · next item rest hq =>
    have hcar : Carries c w { w with pump := .popped item, queue := rest } :=
      carries_pop hq rfl rfl rfl hfree
    refine ⟨h.tickets.congr ?_ rfl rfl, threads_same h.threads hcar rfl, trivial⟩
    simp only [World.outstanding, hfree, hq]
    cases item <;> rfl

omit [DecidableEq τ] in
/-- Sink `i` is called, and the pump goes to `p`. -/
theorem FlushInv.record (h : FlushInv c w) {i : Nat} {r : Option ρ} {threw : Bool} {p : PumpPc ρ}
    (hk : p.ticket = w.pump.ticket)
    (hprog : ∀ k n, w.pump.ticket = [k] → n + (records w.queue).length ≤ w.accepted.length →
      w.pump.progress c n w.calls → p.progress c n (w.calls ++ [⟨i, r, threw⟩]))
    (hfinal : p.finalProgress c w.accepted.length (w.calls ++ [⟨i, r, threw⟩])) :
    FlushInv c (w.record i r threw p) := by
  have hcar : Carries c w (w.record i r threw p) :=
    carries_call rfl rfl rfl fun k n hk' hn hp => ⟨hk.trans hk', hprog k n hk' hn hp⟩
  refine ⟨h.tickets.congr ?_ rfl rfl, threads_same h.threads hcar rfl, hfinal⟩
  simp [World.outstanding, World.record, hk]

omit [DecidableEq τ] in
/-- With no record in hand, a sink has been given all but the queued records. -/
theorem Delivery.le_writes (h : Delivery c w) {i n : Nat} (hi : i < c.sinks)
    (hhand : w.pump.inHand i = []) (hn : n + (records w.queue).length ≤ w.accepted.length) :
    n ≤ (writes i w.calls).length := by
  have := congrArg List.length (h i hi)
  rw [hhand, List.append_nil, List.length_append] at this
  omega

/-- The pump has finished the flush that follows the drain. -/
def PumpPc.hasFlushed : PumpPc ρ → Bool
  | .finalCompleting | .finalNotifying | .exited => true
  | _ => false

omit [DecidableEq τ] in
theorem FlushInv.barrier_of_hasFlushed (h : FlushInv c w) (hp : w.pump.hasFlushed = true) :
    Barrier c w.accepted.length w.calls := by
  have := h.final
  cases hpump : w.pump <;> simp_all [PumpPc.hasFlushed, PumpPc.finalProgress]

/-- No `flush` takes the mutex between the start of `shutdown` and the end of the pump's final
flush of the sinks. -/
def NotWhileDraining (w : World τ ρ) : Action τ ρ → Prop
  | .flushLocked t => ∀ before, w.thread t = .flushEntering before → w.stopping = true →
    w.pump.hasFlushed = true
  | _ => True

omit [DecidableEq τ] in
/-- A ticket that counts as complete is neither queued nor in hand. -/
theorem FlushInv.barrier_of_completed (h : FlushInv c w) {k n : Nat} (hw : Waits c w k n)
    (hk : k ≤ w.flushCompleted) : Barrier c n w.calls := by
  have hout : k ∉ w.outstanding := by
    intro hmem
    have := h.tickets.above k hmem
    omega
  rcases hw with ⟨q, q', hq, -⟩ | ⟨hp, -⟩ | hw
  · exact absurd (by simp [World.outstanding, hq]) hout
  · exact absurd (by simp [World.outstanding, hp]) hout
  · exact hw

omit [DecidableEq τ] in
theorem pcOk_wakeDone (pc : Pc ρ) (h : PcOk c w pc) : PcOk c w pc.wakeDone := by
  cases pc <;> exact h

omit [DecidableEq τ] in
theorem pcOk_wakeSpace (pc : Pc ρ) (h : PcOk c w pc) : PcOk c w pc.wakeSpace := by
  cases pc <;> exact h

omit [DecidableEq τ] in
theorem FlushInv.wakeRecords (h : FlushInv c w) :
    FlushInv c { w with pump := w.pump.wakeRecords } :=
  h.pump (ticket_wakeRecords _) (fun n hp => by rwa [progress_wakeRecords])
    (by rw [finalProgress_wakeRecords]; exact h.final)

omit [DecidableEq τ] in
/-- The counters do not matter. -/
theorem flushInv_counters (h : FlushInv c w) {completed threw dropped : Nat} :
    FlushInv c { w with completed := completed, threw := threw, dropped := dropped } :=
  ⟨h.tickets.congr rfl rfl rfl,
    threads_same h.threads (carries_of_eq rfl rfl rfl rfl) rfl, h.final⟩

omit [DecidableEq τ] in
/-- The filter, the stop flag and `shutdown` do not matter either. -/
theorem flushInv_outside (h : FlushInv c w) {minLevel : LogLevel} {stopping : Bool}
    {shutdown : ShutdownPc} :
    FlushInv c { w with minLevel := minLevel, stopping := stopping, shutdown := shutdown } :=
  ⟨h.tickets.congr rfl rfl rfl,
    threads_same h.threads (carries_of_eq rfl rfl rfl rfl) rfl, h.final⟩

omit [DecidableEq τ] in
/-- Every thread is woken, or none is. -/
theorem flushInv_wake (h : FlushInv c w) {f : Pc ρ → Pc ρ}
    (hf : ∀ pc, PcOk c w pc → PcOk c w (f pc)) :
    FlushInv c { w with thread := fun t => f (w.thread t) } :=
  ⟨h.tickets.congr rfl rfl rfl,
    threads_map h.threads (carries_of_eq rfl rfl rfl rfl) hf rfl, h.final⟩

omit [DecidableEq τ] in
/-- The pump goes on to deliver the item, or to flush. -/
theorem FlushInv.handle (h : FlushInv c w) {item : QueueItem ρ} (hp : w.pump = .popped item) :
    FlushInv c { w with pump := item.handle } := by
  refine h.pump ?_ (fun n _ => ?_) ?_
  · rw [hp]
    cases item <;> rfl
  · cases item with
    | record r => trivial
    | marker k => exact fun j hj => absurd hj (Nat.not_lt_zero j)
  · cases item <;> trivial

omit [DecidableEq τ] in
theorem FlushInv.complete (h : FlushInv c w) {ticket : Nat} (hp : w.pump = .completing ticket) :
    FlushInv c { w with
      flushCompleted := max w.flushCompleted ticket, pump := .notifyingDone } := by
  have hcar : Carries c w
      { w with flushCompleted := max w.flushCompleted ticket, pump := .notifyingDone } :=
    carries_pump rfl rfl rfl fun _ n _ hprog => .inr (by rw [hp] at hprog; exact hprog)
  refine ⟨h.tickets.pop ?_ rfl rfl, threads_same h.threads hcar rfl, trivial⟩
  simp [World.outstanding, hp, PumpPc.ticket]

omit [DecidableEq τ] in
/-- After the drain every ticket counts as complete; none is queued any more. -/
theorem FlushInv.completeAll (h : FlushInv c w) (hd : Drained w) (hp : w.pump = .finalCompleting) :
    FlushInv c { w with flushCompleted := w.flushRequested, pump := .finalNotifying } := by
  have hfin := h.final
  have hempty := (hd.empty (by rw [hp]; rfl)).2
  rw [hp] at hfin
  have hcar : Carries c w { w with flushCompleted := w.flushRequested, pump := .finalNotifying } :=
    carries_pump rfl rfl rfl fun _ n hk => by rw [hp] at hk; cases hk
  refine ⟨.finish ?_ rfl, threads_same h.threads hcar rfl, hfin⟩
  simp [World.outstanding, PumpPc.ticket, hempty]

omit [DecidableEq τ] in
theorem FlushInv.flushSink (h : FlushInv c w) (hI : Delivery c w) {ticket i : Nat} {threw : Bool}
    (hp : w.pump = .flushing ticket i) (hi : i < c.sinks) :
    FlushInv c (w.record i none threw (.flushing ticket (i + 1))) := by
  refine h.record (by rw [hp]; rfl) (fun k n _ hn hprog j hj hjs => ?_) trivial
  rw [hp] at hprog
  rcases Nat.lt_succ_iff_lt_or_eq.1 hj with hji | rfl
  · exact (hprog j hji hjs).append _
  · exact settled_flush (hI.le_writes hi (by rw [hp]; rfl) hn) threw

omit [DecidableEq τ] in
/-- The flush after the drain: the sink has been given every accepted record. -/
theorem FlushInv.finalFlushSink (h : FlushInv c w) (hI : Delivery c w) (hd : Drained w) {i : Nat}
    {threw : Bool} (hp : w.pump = .finalFlushing i) (hi : i < c.sinks) :
    FlushInv c (w.record i none threw (.finalFlushing (i + 1))) := by
  have hfin := h.final
  have hempty := (hd.empty (by rw [hp]; rfl)).2
  rw [hp] at hfin
  refine h.record (by rw [hp]; rfl) (fun k n hk => ?_) fun j hj hjs => ?_
  · rw [hp] at hk
    cases hk
  · rcases Nat.lt_succ_iff_lt_or_eq.1 hj with hji | rfl
    · exact (hfin j hji hjs).append _
    · exact settled_flush
        (hI.le_writes hi (by rw [hp]; rfl) (by simp [hempty, records])) threw

theorem flushInv_step [Fintype τ] {a : Action τ ρ} (h : FlushInv c w) (hI : Inv c w)
    (ha : NotWhileDraining w a) (hstep : w.step c a = some w') : FlushInv c w' := by
  have hidle : ∀ t, FlushInv c (w.setPc t .idle) := fun t => h.setPc trivial
  have hok := h.threads
  have hfin := h.final
  cases step_cases hstep with
  | setLevel => exact flushInv_outside h
  | filtered => exact h
  | entered | spaceParked | resume => exact h.setPc trivial
  | accepted _ hs => exact h.accept hI.drained hs _ _
  | refused | dropped => exact flushInv_counters (hidle _)
  | notifyRecords => exact flushInv_counters (hidle _).wakeRecords
  | flush => exact h.setPc (Nat.le_refl _)
  | @marked t before hpc =>
    have hbefore := hok t
    rw [hpc] at hbefore
    exact h.marker hbefore
  | @flushSkipped t before hpc hs =>
    have hbefore := hok t
    rw [hpc] at hbefore
    exact h.setPc ((h.barrier_of_hasFlushed (ha before hpc hs)).mono hbefore)
  | @flushed t ticket before hpc hk =>
    have hwaits := hok t
    rw [hpc] at hwaits
    exact h.setPc (h.barrier_of_completed hwaits hk)
  | @flushParked t ticket before hpc =>
    have hwaits := hok t
    rw [hpc] at hwaits
    exact h.setPc hwaits
  | wakeSpace => exact h.setPc trivial
  | @wakeDone t ticket before hpc =>
    have hwaits := hok t
    rw [hpc] at hwaits
    exact h.setPc hwaits
  | wakePump hp => exact h.pump (by rw [hp]; rfl) (fun _ _ => trivial) trivial
  | take hp => exact h.take hp
  | complete hp => exact h.complete hp
  | completeAll hp => exact h.completeAll hI.drained hp
  | notifyNobody hp => exact h.handle hp
  | notifyOne hp => exact (h.handle hp).setPc trivial
  | write threw hp =>
    refine h.record (by rw [hp]; rfl) (fun k n hk => ?_) trivial
    rw [hp] at hk
    cases hk
  | written threw hp => exact h.pump (by rw [hp]; rfl) (fun _ _ => trivial) trivial
  | flushSink threw hp hi => exact h.flushSink hI.delivery hp hi
  | flushedSinks threw hp hi =>
    refine h.pump (by rw [hp]; rfl) (fun n hprog j hjs => ?_) trivial
    rw [hp] at hprog
    exact hprog j (Nat.lt_of_lt_of_le hjs hi) hjs
  | finalFlushSink threw hp hi => exact h.finalFlushSink hI.delivery hI.drained hp hi
  | finalFlushedSinks threw hp hi =>
    rw [hp] at hfin
    refine h.pump (by rw [hp]; rfl) (fun _ _ => trivial) fun j hjs => ?_
    exact hfin j (Nat.lt_of_lt_of_le hjs hi) hjs
  | notifyDone hp =>
    have hgo : FlushInv c { w with pump := .top } :=
      h.pump (by rw [hp]; rfl) (fun _ _ => trivial) trivial
    exact flushInv_wake hgo pcOk_wakeDone
  | finalNotifyDone hp =>
    rw [hp] at hfin
    have hgo : FlushInv c { w with pump := .exited } :=
      h.pump (by rw [hp]; rfl) (fun _ _ => trivial) hfin
    exact flushInv_wake hgo pcOk_wakeDone
  | stop => exact flushInv_outside h
  | notifyAllRecords => exact flushInv_outside h.wakeRecords
  | notifyAllSpace => exact flushInv_outside (flushInv_wake h pcOk_wakeSpace)
  | join => exact flushInv_outside h

/-! ## Every run -/

omit [DecidableEq τ] in
theorem flushInv_initial : FlushInv c (World.initial τ ρ) where
  tickets := .finish rfl rfl
  threads _ := trivial
  final := trivial

/-- The first `n` accepted records were written to every sink, and every sink was flushed after
that. -/
def WrittenAndFlushed (c : Config) (w : World τ ρ) (n : Nat) : Prop :=
  ∀ i, i < c.sinks → ∃ earlier threw later,
    w.calls = earlier ++ ⟨i, none, threw⟩ :: later ∧ w.accepted.take n <+: writes i earlier

omit [DecidableEq τ] in
theorem Barrier.writtenAndFlushed {n : Nat} (h : Barrier c n w.calls) (hd : Delivery c w) :
    WrittenAndFlushed c w n := by
  intro i hi
  obtain ⟨earlier, threw, later, hcalls, hn⟩ := h i hi
  refine ⟨earlier, threw, later, hcalls, ?_⟩
  have hpre : writes i earlier <+: w.accepted := by
    rw [hd i hi, hcalls, writes_append, List.append_assoc, List.append_assoc]
    exact List.prefix_append _ _
  rw [List.prefix_iff_eq_take.1 hpre, List.prefix_take_iff]
  exact ⟨List.take_prefix _ _, by simp; omega⟩

/-- **`flush` is a barrier** in every run in which none takes the mutex during the drain. -/
theorem flush_barrier [Fintype τ] {actions : List (Action τ ρ)}
    (hP : Along (World.step c) NotWhileDraining (World.initial τ ρ) actions)
    (hrun : run (World.step c) (World.initial τ ρ) actions = some w) {t : τ} {before : Nat}
    (ht : w.thread t = .flushed before) : WrittenAndFlushed c w before := by
  have hinv : Inv c w ∧ FlushInv c w :=
    run_invariant_along (World.step c) (P := NotWhileDraining)
      (I := fun w => Inv c w ∧ FlushInv c w)
      (fun _ _ _ ⟨hI, hF⟩ ha hstep => ⟨inv_step hI hstep, flushInv_step hF hI ha hstep⟩)
      ⟨inv_initial, flushInv_initial⟩ hP hrun
  have hb := hinv.2.threads t
  rw [ht] at hb
  exact hb.writtenAndFlushed hinv.1.delivery

end Steps

/-- One record is logged and flushed. -/
def flushRun : List (Action Bool Nat) :=
  [.log true .info 7, .enqueue true, .notifyRecords true, .flush false, .flushLocked false,
    .pumpLocked, .notifySpace none, .callSink true, .callSink false, .callSink false, .pumpLocked,
    .notifySpace none, .callSink false, .callSink true, .callSink false, .pumpLocked, .notifyDone,
    .flushLocked false]

theorem flush_barrier_flushRun :
    ∃ w, run (World.step small) (World.initial Bool Nat) flushRun = some w ∧
      w.thread false = .flushed 1 ∧ WrittenAndFlushed small w 1 := by
  have hrun : ∃ w, run (World.step small) (World.initial Bool Nat) flushRun = some w ∧
      w.thread false = .flushed 1 := ⟨_, rfl, rfl⟩
  have hP : Along (World.step small) NotWhileDraining (World.initial Bool Nat) flushRun := by
    -- `shutdown` is not called, so `stopping_` is false at both `flushLocked`
    iterate 18
      refine ⟨(by first | exact trivial | exact fun _ _ hs => (nomatch hs)), fun _ h => ?_⟩
      cases h
    trivial
  obtain ⟨w, hw, ht⟩ := hrun
  exact ⟨w, hw, ht, flush_barrier hP hw ht⟩

/-- A record is accepted, `shutdown` begins, and a `flush` returns before the pump has moved. -/
def earlyRun : List (Action Bool Nat) :=
  [.log true .info 7, .enqueue true, .notifyRecords true, .shutdown, .flush false,
    .flushLocked false]

theorem early_return :
    ∃ w, run (World.step small) (World.initial Bool Nat) earlyRun = some w ∧
      w.thread false = .flushed 1 ∧ w.accepted = [7] ∧ w.calls = [] ∧
      ¬ WrittenAndFlushed small w 1 := by
  refine ⟨_, rfl, rfl, rfl, rfl, fun h => ?_⟩
  obtain ⟨earlier, threw, later, hcalls, -⟩ := h 0 (by decide)
  cases earlier <;> cases hcalls

end Logger

end EglUtil
