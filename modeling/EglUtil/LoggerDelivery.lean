import EglUtil.Logger

/-!
# `Logger`: every accepted record is delivered once, in order

**Theorem (`reachable_delivers`).** In every reachable state, for each sink, the accepted records
are the ones it was asked to write, then the one in the pump's hands if this sink's turn has not
come, then the ones in the queue; and the counters add up.

Each conjunct is an invariant of its own with a `_step` lemma, a case analysis by `step_cases`:
`Delivery`, `Drained` (once the pump has left its loop the queue stays empty), `Counted`,
`NoneDropped` and `FailuresCounted`.
-/

namespace EglUtil

open Transition Tally

namespace Logger

variable {τ ρ : Type*} {c : Config} {w w' : World τ ρ}

/-! ## Delivery -/

/-- The records the pump holds that sink `i` has not been given yet. -/
def PumpPc.inHand (i : Nat) : PumpPc ρ → List ρ
  | .popped (.record r) => [r]
  | .delivering r j => if j ≤ i then [r] else []
  | _ => []

@[simp] theorem inHand_wakeRecords (i : Nat) (p : PumpPc ρ) :
    p.wakeRecords.inHand i = p.inHand i := by
  cases p <;> rfl

@[simp] theorem records_append_record (q : List (QueueItem ρ)) (r : ρ) :
    records (q ++ [.record r]) = records q ++ [r] := by
  simp [records]

@[simp] theorem records_append_marker (q : List (QueueItem ρ)) (ticket : Nat) :
    records (q ++ [.marker ticket]) = records q := by
  simp [records]

@[simp] theorem records_cons_record (q : List (QueueItem ρ)) (r : ρ) :
    records (.record r :: q) = r :: records q := rfl

@[simp] theorem records_cons_marker (q : List (QueueItem ρ)) (ticket : Nat) :
    records (.marker ticket :: q) = records q := rfl

theorem writes_append (i : Nat) (calls calls' : List (SinkCall ρ)) :
    writes i (calls ++ calls') = writes i calls ++ writes i calls' := by
  simp [writes]

@[simp] theorem writes_flush (i j : Nat) (threw : Bool) :
    writes i [(⟨j, none, threw⟩ : SinkCall ρ)] = [] := by
  simp [writes]

theorem writes_write (i j : Nat) (r : ρ) (threw : Bool) :
    writes i [(⟨j, some r, threw⟩ : SinkCall ρ)] = if j = i then [r] else [] := by
  by_cases h : j = i <;> simp [writes, h]

/-- The accepted records, by where they are. -/
def Delivery (c : Config) (w : World τ ρ) : Prop :=
  ∀ i, i < c.sinks → w.accepted = writes i w.calls ++ w.pump.inHand i ++ records w.queue

theorem delivery_wakeRecords (h : Delivery c w) :
    Delivery c { w with pump := w.pump.wakeRecords } :=
  fun i hi => by simpa using h i hi

section

variable [DecidableEq τ]

theorem delivery_accept (h : Delivery c w) (t : τ) (r : ρ) : Delivery c (w.accept t r) := by
  intro i hi
  simp only [World.accept, World.setPc, records_append_record]
  rw [h i hi, List.append_assoc]

omit [DecidableEq τ] in
theorem delivery_take (h : Delivery c w) (hp : w.pump = .top ∨ w.pump = .woken) :
    Delivery c w.take := by
  have hhand : ∀ i, w.pump.inHand i = [] := by
    intro i
    rcases hp with hp | hp <;> rw [hp] <;> rfl
  intro i hi
  have hi' := h i hi
  rw [hhand i, List.append_nil] at hi'
  unfold World.take
  split
  · next hq =>
    rw [hq] at hi'
    split_ifs <;> simpa [PumpPc.inHand, hq] using hi'
  · next item rest hq =>
    rw [hq] at hi'
    cases item <;> simpa [PumpPc.inHand] using hi'

omit [DecidableEq τ] in
theorem delivery_write (h : Delivery c w) {r : ρ} {j : Nat} (hp : w.pump = .delivering r j)
    (threw : Bool) : Delivery c (w.record j (some r) threw (.delivering r (j + 1))) := by
  intro i hi
  have hi' := h i hi
  simp only [hp, PumpPc.inHand] at hi'
  simp only [World.record, PumpPc.inHand, writes_append, writes_write]
  rw [hi']
  rcases Nat.lt_trichotomy j i with hji | rfl | hji
  · rw [if_pos (by omega), if_neg (by omega), if_pos (by omega), List.append_nil]
  · rw [if_pos (by omega), if_pos rfl, if_neg (by omega), List.append_nil]
  · rw [if_neg (by omega), if_neg (by omega), if_neg (by omega), List.append_nil, List.append_nil]

omit [DecidableEq τ] in
/-- The pump moves on without touching a record. -/
theorem delivery_pump (h : Delivery c w) (hc : w'.calls = w.calls) (ha : w'.accepted = w.accepted)
    (hq : records w'.queue = records w.queue)
    (hp : ∀ i, i < c.sinks → w'.pump.inHand i = w.pump.inHand i) : Delivery c w' := by
  intro i hi
  rw [hc, ha, hq, hp i hi]
  exact h i hi

omit [DecidableEq τ] in
/-- A sink is flushed. -/
theorem delivery_flushSink (h : Delivery c w) {j : Nat} {threw : Bool} {p : PumpPc ρ}
    (hp : ∀ i, p.inHand i = w.pump.inHand i) : Delivery c (w.record j none threw p) := by
  intro i hi
  simpa [World.record, writes_append, hp i] using h i hi

theorem inHand_handle (item : QueueItem ρ) (i : Nat) :
    item.handle.inHand i = (PumpPc.popped item).inHand i := by
  cases item <;> simp [QueueItem.handle, PumpPc.inHand]

theorem delivery_step [Fintype τ] {a : Action τ ρ} (h : Delivery c w)
    (hstep : w.step c a = some w') : Delivery c w' := by
  cases step_cases hstep with
  | accepted => exact delivery_accept h _ _
  | notifyRecords => exact delivery_wakeRecords h
  | marked => exact delivery_pump h rfl rfl (by simp) fun i _ => by simp
  | wakePump hp => exact delivery_pump h rfl rfl rfl fun i _ => by rw [hp]; rfl
  | take hp => exact delivery_take h hp
  | complete hp | completeAll hp => exact delivery_pump h rfl rfl rfl fun i _ => by rw [hp]; rfl
  | notifyNobody hp | notifyOne hp =>
    exact delivery_pump h rfl rfl rfl fun i _ => by rw [hp, ← inHand_handle]
  | write threw hp => exact delivery_write h hp threw
  | written threw hp hj =>
    -- every sink has had its turn
    refine delivery_pump h rfl rfl rfl fun i hi => ?_
    rw [hp]
    exact (if_neg (Nat.not_le_of_lt (Nat.lt_of_lt_of_le hi hj))).symm
  | flushSink threw hp | finalFlushSink threw hp =>
    exact delivery_flushSink h fun i => by rw [hp]; rfl
  | flushedSinks threw hp | finalFlushedSinks threw hp =>
    exact delivery_pump h rfl rfl rfl fun i _ => by rw [hp]; rfl
  | notifyDone hp | finalNotifyDone hp =>
    exact delivery_pump h rfl rfl rfl fun i _ => by rw [hp]; rfl
  | notifyAllRecords => exact delivery_wakeRecords h
  | _ => exact h

/-! ## The drain -/

/-- The pump has left its loop. -/
def PumpPc.isFinal : PumpPc ρ → Bool
  | .finalFlushing _ | .finalCompleting | .finalNotifying | .exited => true
  | _ => false

/-- Admissions end for good when `shutdown` begins, and the pump leaves its loop only when they
have ended and nothing is left. -/
structure Drained (w : World τ ρ) : Prop where
  began : w.stopping = true ↔ w.shutdown ≠ .notCalled
  empty : w.pump.isFinal = true → w.stopping = true ∧ w.queue = []
  joined : w.shutdown = .returned → w.pump = .exited

@[simp] theorem isFinal_wakeRecords (p : PumpPc ρ) : p.wakeRecords.isFinal = p.isFinal := by
  cases p <;> rfl

theorem wakeRecords_exited {p : PumpPc ρ} (h : p = .exited) : p.wakeRecords = .exited := by
  rw [h]
  rfl

omit [DecidableEq τ] in
/-- A step of the pump that has not exited. -/
theorem Drained.of_pump (h : Drained w) (hrun : w.pump ≠ .exited)
    (hb : w'.stopping = w.stopping) (hs : w'.shutdown = w.shutdown)
    (he : w'.pump.isFinal = true → w'.stopping = true ∧ w'.queue = []) : Drained w' where
  began := by rw [hb, hs, h.began]
  empty := he
  joined := by
    rw [hs]
    exact fun hr => absurd (h.joined hr) hrun

theorem drained_accept (h : Drained w) (hrun : w.stopping = false) (t : τ) (r : ρ) :
    Drained (w.accept t r) where
  began := h.began
  empty hf := by
    rw [(h.empty hf).1] at hrun
    cases hrun
  joined := h.joined

omit [DecidableEq τ] in
theorem drained_take (h : Drained w) (hp : w.pump ≠ .exited) : Drained w.take := by
  unfold World.take
  split
  · next hq =>
    split_ifs with hs
    · exact h.of_pump hp rfl rfl fun _ => ⟨hs, hq⟩
    · exact h.of_pump hp rfl rfl nofun
  · exact h.of_pump hp rfl rfl nofun

omit [DecidableEq τ] in
/-- A step that leaves the pump, the queue and `shutdown` alone. -/
theorem Drained.congr (h : Drained w) (hb : w'.stopping = w.stopping)
    (hs : w'.shutdown = w.shutdown) (hp : w'.pump = w.pump) (hq : w'.queue = w.queue) :
    Drained w' where
  began := by rw [hb, hs, h.began]
  empty := by rw [hp, hb, hq]; exact h.empty
  joined := by rw [hs, hp]; exact h.joined

omit [DecidableEq τ] in
theorem drained_wakeRecords (h : Drained w) (hb : w'.stopping = w.stopping)
    (hs : w'.shutdown = w.shutdown) (hp : w'.pump = w.pump.wakeRecords)
    (hq : w'.queue = w.queue ∨ w.stopping = false) : Drained w' where
  began := by rw [hb, hs, h.began]
  empty hf := by
    rw [hp, isFinal_wakeRecords] at hf
    have hempty := h.empty hf
    rcases hq with hq | hrun
    · rw [hb, hq]
      exact hempty
    · rw [hempty.1] at hrun
      cases hrun
  joined hr := by
    rw [hs] at hr
    rw [hp]
    exact wakeRecords_exited (h.joined hr)

theorem isFinal_handle (item : QueueItem ρ) : item.handle.isFinal = false := by
  cases item <;> rfl

theorem drained_step [Fintype τ] {a : Action τ ρ} (h : Drained w)
    (hstep : w.step c a = some w') : Drained w' := by
  cases step_cases hstep with
  | accepted _ hs => exact drained_accept h hs _ _
  | notifyRecords => exact drained_wakeRecords h rfl rfl rfl (.inl rfl)
  | marked _ hs => exact drained_wakeRecords h rfl rfl rfl (.inr hs)
  | take hp => exact drained_take h (by rcases hp with hp | hp <;> simp [hp])
  | wakePump hp | complete hp => exact h.of_pump (by simp [hp]) rfl rfl nofun
  | notifyNobody hp | notifyOne hp =>
    exact h.of_pump (by simp [hp]) rfl rfl (by simp [isFinal_handle])
  | write _ hp | written _ hp | flushSink _ hp | flushedSinks _ hp | notifyDone hp =>
    exact h.of_pump (by simp [hp]) rfl rfl nofun
  | completeAll hp | finalFlushSink _ hp | finalFlushedSinks _ hp | finalNotifyDone hp =>
    exact h.of_pump (by simp [hp]) rfl rfl fun _ => h.empty (by rw [hp]; rfl)
  | stop hs => exact ⟨by simp, fun hf => ⟨rfl, (h.empty hf).2⟩, nofun⟩
  | notifyAllRecords hs =>
    have hbegan := h.began
    exact ⟨by simpa [hs] using hbegan, by simpa using h.empty, nofun⟩
  | notifyAllSpace hs =>
    have hbegan := h.began
    exact ⟨by simpa [hs] using hbegan, h.empty, nofun⟩
  | join hs hp =>
    have hbegan := h.began
    exact ⟨by simpa [hs] using hbegan, h.empty, fun _ => hp⟩
  | _ => exact h.congr rfl rfl rfl rfl

/-! ## The counters -/

section Counters

variable [Fintype τ]

/-- Every `log` call that passed the filter and has ended, or has its record in the queue and is
about to end, was accepted, dropped or refused. -/
def Counted (w : World τ ρ) : Prop :=
  w.completed + tally Pc.isNotifying w.thread = w.accepted.length + w.dropped + w.threw

theorem counted_setPc (h : Counted w) {t : τ} {p : Pc ρ}
    (hpc : p.isNotifying = (w.thread t).isNotifying) : Counted (w.setPc t p) := by
  have := tally_update Pc.isNotifying w.thread t p
  unfold Counted at h ⊢
  simp only [World.setPc]
  rw [hpc] at this
  omega

theorem counted_accept (h : Counted w) {t : τ} (ht : (w.thread t).isNotifying = false) (r : ρ) :
    Counted (w.accept t r) := by
  have := tally_update Pc.isNotifying w.thread t .notifying
  unfold Counted at h ⊢
  simp only [World.accept, World.setPc, List.length_append, List.length_singleton]
  rw [ht] at this
  simp only [Pc.isNotifying, Bool.toNat_true, Bool.toNat_false] at this
  omega

theorem counted_refuse (h : Counted w) {t : τ} (ht : (w.thread t).isNotifying = false) :
    Counted (w.refuse t) := by
  have := counted_setPc (p := .idle) h ht.symm
  unfold Counted at this ⊢
  simp only [World.refuse, World.setPc] at this ⊢
  omega

theorem counted_drop (h : Counted w) {t : τ} (ht : (w.thread t).isNotifying = false) :
    Counted (w.drop t) := by
  have := counted_setPc (p := .idle) h ht.symm
  unfold Counted at this ⊢
  simp only [World.drop, World.setPc] at this ⊢
  omega

omit [DecidableEq τ] in
theorem counted_map (h : Counted w) {f : Pc ρ → Pc ρ}
    (hf : ∀ pc, (f pc).isNotifying = pc.isNotifying)
    (hw : w' = { w with
      thread := fun t => f (w.thread t), pump := w'.pump, shutdown := w'.shutdown }) :
    Counted w' := by
  have htally : tally Pc.isNotifying w'.thread = tally Pc.isNotifying w.thread := by
    rw [hw]
    simp only [tally, hf]
  unfold Counted at h ⊢
  rw [htally, hw]
  exact h

omit [DecidableEq τ] in
theorem counted_take (h : Counted w) : Counted w.take := by
  unfold World.take
  split
  · split_ifs <;> exact h
  · exact h

omit [Fintype τ] [DecidableEq τ] in
theorem not_notifying_of_enqueuing {pc : Pc ρ} (h : pc.isEnqueuing) : pc.isNotifying = false := by
  cases pc <;> first | rfl | cases h

theorem counted_step {a : Action τ ρ} (h : Counted w) (hstep : w.step c a = some w') :
    Counted w' := by
  have hdone : ∀ pc : Pc ρ, pc.wakeDone.isNotifying = pc.isNotifying := fun pc => by
    cases pc <;> rfl
  have hspace : ∀ pc : Pc ρ, pc.wakeSpace.isNotifying = pc.isNotifying := fun pc => by
    cases pc <;> rfl
  cases step_cases hstep with
  | accepted hpc => exact counted_accept h (not_notifying_of_enqueuing hpc) _
  | refused hpc => exact counted_refuse h (not_notifying_of_enqueuing hpc)
  | dropped hpc => exact counted_drop h (not_notifying_of_enqueuing hpc)
  | spaceParked hpc => exact counted_setPc h (not_notifying_of_enqueuing hpc).symm
  | @notifyRecords t hpc =>
    have := tally_update Pc.isNotifying w.thread t .idle
    unfold Counted at h ⊢
    simp only [World.setPc, hpc, Pc.isNotifying, Bool.toNat_true, Bool.toNat_false] at this ⊢
    omega
  | entered _ hpc | flush hpc | marked hpc | flushSkipped hpc | flushed hpc | flushParked hpc
  | resume hpc | wakeSpace hpc | wakeDone hpc =>
    exact counted_setPc h (by rw [hpc]; rfl)
  | notifyOne _ hpc => exact counted_setPc h (by rw [hpc]; rfl)
  | take => exact counted_take h
  | notifyDone | finalNotifyDone => exact counted_map h hdone rfl
  | notifyAllSpace => exact counted_map h hspace rfl
  | _ => exact h

/-- Nothing is dropped under the `block` policy. -/
def NoneDropped (c : Config) (w : World τ ρ) : Prop := c.policy = .block → w.dropped = 0

/-- `sink_failures_` counts the calls that threw. -/
def FailuresCounted (w : World τ ρ) : Prop := w.sinkFailures = w.calls.countP SinkCall.threw

/-- A step changes the two counters of failures in two ways only. -/
theorem step_counters {a : Action τ ρ} (hstep : w.step c a = some w') :
    (w'.dropped = w.dropped ∨ c.policy = .drop) ∧
      ((w'.sinkFailures = w.sinkFailures ∧ w'.calls = w.calls) ∨
        ∃ i r threw, w'.calls = w.calls ++ [⟨i, r, threw⟩] ∧
          w'.sinkFailures = w.sinkFailures + threw.toNat) := by
  cases step_cases hstep with
  | dropped _ hpol => exact ⟨.inr hpol, .inl ⟨rfl, rfl⟩⟩
  | write threw | flushSink threw | finalFlushSink threw =>
    exact ⟨.inl rfl, .inr ⟨_, _, threw, rfl, rfl⟩⟩
  | take =>
    unfold World.take
    split
    · split_ifs <;> exact ⟨.inl rfl, .inl ⟨rfl, rfl⟩⟩
    · exact ⟨.inl rfl, .inl ⟨rfl, rfl⟩⟩
  | _ => exact ⟨.inl rfl, .inl ⟨rfl, rfl⟩⟩

theorem noneDropped_step {a : Action τ ρ} (h : NoneDropped c w) (hstep : w.step c a = some w') :
    NoneDropped c w' := by
  intro hpol
  rcases (step_counters hstep).1 with hd | hd
  · rw [hd]
    exact h hpol
  · rw [hpol] at hd
    cases hd

theorem failuresCounted_step {a : Action τ ρ} (h : FailuresCounted w)
    (hstep : w.step c a = some w') : FailuresCounted w' := by
  unfold FailuresCounted at h ⊢
  rcases (step_counters hstep).2 with ⟨hf, hc⟩ | ⟨i, r, threw, hc, hf⟩
  · rw [hf, hc, h]
  · rw [hf, hc, h, List.countP_append, List.countP_singleton]
    cases threw <;> rfl

/-! ## Every reachable state -/

structure Inv (c : Config) (w : World τ ρ) : Prop where
  delivery : Delivery c w
  drained : Drained w
  counted : Counted w
  noneDropped : NoneDropped c w
  failures : FailuresCounted w

omit [DecidableEq τ] in
theorem inv_initial : Inv c (World.initial τ ρ) where
  delivery _ _ := rfl
  drained := ⟨by simp [World.initial], nofun, nofun⟩
  counted := by
    have : tally Pc.isNotifying (fun _ : τ => (Pc.idle : Pc ρ)) = 0 := tally_eq_zero.2 fun _ => rfl
    simp [Counted, World.initial, this]
  noneDropped _ := rfl
  failures := rfl

theorem inv_step {a : Action τ ρ} (h : Inv c w) (hstep : w.step c a = some w') : Inv c w' :=
  ⟨delivery_step h.delivery hstep, drained_step h.drained hstep, counted_step h.counted hstep,
    noneDropped_step h.noneDropped hstep, failuresCounted_step h.failures hstep⟩

theorem inv_of_reachable (h : Reachable (World.step c) (World.initial τ ρ) w) : Inv c w :=
  h.invariant (World.step c) inv_initial fun _ _ _ hI hstep => inv_step hI hstep

/-- What an observer may rely on. -/
structure Delivers (c : Config) (w : World τ ρ) : Prop where
  /-- Each sink is given the accepted records, once each and in order. -/
  inOrder : ∀ i, i < c.sinks → writes i w.calls <+: w.accepted
  /-- What a sink has not been given yet is in the pump's hands or in the queue. -/
  pending : ∀ i, i < c.sinks →
    w.accepted = writes i w.calls ++ w.pump.inHand i ++ records w.queue
  drained : w.shutdown = .returned → ∀ i, i < c.sinks → writes i w.calls = w.accepted
  /-- A `log` call whose record is in the queue, but which has not notified the pump, has not
  returned yet. -/
  counted : w.completed + (Finset.univ.filter fun t => (w.thread t).isNotifying).card =
    w.accepted.length + w.dropped + w.threw
  settled : (∀ t, (w.thread t).isNotifying = false) →
    w.completed = w.accepted.length + w.dropped + w.threw
  dropped : c.policy = .block → w.dropped = 0
  failures : w.sinkFailures = w.calls.countP SinkCall.threw

omit [DecidableEq τ] in
theorem Inv.delivers (h : Inv c w) : Delivers c w where
  inOrder i hi := by
    rw [h.delivery i hi, List.append_assoc]
    exact List.prefix_append _ _
  pending := h.delivery
  drained hr i hi := by
    have hexit := h.drained.joined hr
    have hempty := (h.drained.empty (by rw [hexit]; rfl)).2
    have := h.delivery i hi
    rw [hexit, hempty] at this
    simpa [PumpPc.inHand, records] using this.symm
  counted := h.counted
  settled hnone := by
    have := h.counted
    rw [Counted, tally_eq_zero.2 hnone] at this
    exact this
  dropped := h.noneDropped
  failures := h.failures

end Counters

end

/-- Two sinks and room for one record. -/
def small : Config := ⟨2, 1, .block, by decide, by decide⟩

end Logger

end EglUtil
