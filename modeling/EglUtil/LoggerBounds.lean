import EglUtil.LoggerWaking

/-!
# `Logger`: what the queue can hold

The capacity bounds what `enqueue` adds, but a flush marker enters a full queue.

**Theorem (`reachable_bounded`).** In every reachable state the queue holds no more records than the
capacity, and no more markers than there are callers in `flush`, so it is never longer than both
together. For each sink all accepted records but one more than the capacity have been written.

The markers are counted by their callers: each outstanding ticket is awaited by a caller of its own
(`Awaited`), since nobody leaves `flush` before the ticket is complete.
-/

namespace EglUtil

open Transition Tally Updates

namespace Logger

variable {τ ρ : Type*} {c : Config} {w w' : World τ ρ}

/-! ## Records and room -/

def Room (c : Config) (w : World τ ρ) : Prop := (records w.queue).length ≤ c.capacity

theorem length_records_le (q : List (QueueItem ρ)) : (records q).length ≤ q.length :=
  List.length_filterMap_le _ q

theorem length_eq (q : List (QueueItem ρ)) :
    q.length = (records q).length + (tickets q).length := by
  induction q with
  | nil => rfl
  | cons item q ih =>
    cases item with
    | record r =>
      rw [records_cons_record, tickets_cons_record, List.length_cons, List.length_cons, ih]
      omega
    | marker ticket =>
      rw [records_cons_marker, tickets_cons_marker, List.length_cons, List.length_cons, ih]
      omega

section Steps

variable [DecidableEq τ]

theorem room_accept (hroom : w.queue.length < c.capacity) (t : τ) (r : ρ) :
    Room c (w.accept t r) := by
  have hle := length_records_le w.queue
  rw [Room, World.accept, records_append_record, List.length_append, List.length_singleton]
  omega

variable [Fintype τ]

theorem room_enqueue {t : τ} (h : Room c w) (hstep : w.step c (.enqueue t) = some w') :
    Room c w' := by
  simp only [World.step] at hstep
  split at hstep <;> cases hstep
  · unfold World.enqueue
    split_ifs with hs hfull
    · exact h
    · split
      · exact h
      · exact h
    · exact room_accept (Nat.lt_of_not_le hfull) _ _
  · unfold World.enqueueWoken
    split_ifs with hs hroom
    · exact h
    · exact room_accept hroom _ _
    · exact h

theorem room_step {a : Action τ ρ} (h : Room c w) (hstep : w.step c a = some w') : Room c w' := by
  cases step_cases hstep with
  | accepted | refused | dropped | spaceParked => exact room_enqueue h hstep
  | marked =>
    rw [Room, records_append_marker]
    exact h
  | take hp =>
    unfold Room World.take at *
    split
    · split_ifs <;> exact h
    · next item rest hq =>
      rw [hq] at h
      cases item with
      | record r => exact Nat.le_of_succ_le h
      | marker ticket => exact h
  | _ => exact h

/-! ## Tickets and callers -/

/-- Every ticket on its way has a caller that waits for it. -/
def Awaited (w : World τ ρ) : Prop :=
  ∀ k ∈ w.outstanding, ∃ t, (w.thread t).awaited = some k

omit [DecidableEq τ] [Fintype τ] in
theorem Awaited.frame (h : Awaited w) (hout : ∀ k ∈ w'.outstanding, k ∈ w.outstanding)
    (hthread : ∀ t, (w'.thread t).awaited = (w.thread t).awaited) : Awaited w' := by
  intro k hk
  obtain ⟨t, ht⟩ := h k (hout k hk)
  exact ⟨t, (hthread t).trans ht⟩

omit [DecidableEq τ] [Fintype τ] in
theorem Awaited.congr (h : Awaited w) (hout : w'.outstanding = w.outstanding)
    (hthread : w'.thread = w.thread) : Awaited w' :=
  h.frame (fun k hk => hout ▸ hk) fun t => by rw [hthread]

omit [Fintype τ] in
/-- The caller that moves still waits, or its ticket was none of those on their way. -/
theorem Awaited.setPc (h : Awaited w) {t : τ} {pc : Pc ρ}
    (hpc : ∀ k ∈ w.outstanding, (w.thread t).awaited = some k → pc.awaited = some k) :
    Awaited (w.setPc t pc) := by
  intro k hk
  obtain ⟨u, hu⟩ := h k hk
  exact ⟨u, update_keeps (p := Pc.awaited) (hpc k hk) u hu⟩

omit [Fintype τ] in
theorem Awaited.leave (h : Awaited w) {t : τ} {pc : Pc ρ} (hpc : (w.thread t).awaited = none) :
    Awaited (w.setPc t pc) := by
  refine h.setPc fun k _ hk => ?_
  rw [hpc] at hk
  cases hk

omit [DecidableEq τ] [Fintype τ] in
theorem Pc.isEnqueuing.awaited {pc : Pc ρ} (h : pc.isEnqueuing) : pc.awaited = none := by
  cases pc with
  | entering | spaceWoken => rfl
  | _ => cases h

omit [Fintype τ] in
theorem Awaited.marked (h : Awaited w) {t : τ} {before : Nat}
    (hpc : w.thread t = .flushEntering before) :
    Awaited { w.setPc t (.flushParked (w.flushRequested + 1) before) with
      flushRequested := w.flushRequested + 1
      queue := w.queue ++ [.marker (w.flushRequested + 1)]
      pump := w.pump.wakeRecords } := by
  have hout : w.pump.wakeRecords.ticket ++
      Logger.tickets (w.queue ++ [.marker (w.flushRequested + 1)]) =
        w.outstanding ++ [w.flushRequested + 1] := by
    simp [World.outstanding]
  intro k hk
  rw [World.outstanding, hout, List.mem_append, List.mem_singleton] at hk
  rcases hk with hk | rfl
  · obtain ⟨u, hu⟩ := h k hk
    refine ⟨u, update_keeps (p := Pc.awaited) (fun hself => ?_) u hu⟩
    rw [hpc] at hself
    cases hself
  · refine ⟨t, ?_⟩
    simp only [World.setPc, Function.update_self, Pc.awaited]

omit [DecidableEq τ] [Fintype τ] in
theorem Awaited.take (h : Awaited w) (hp : w.pump = .top ∨ w.pump = .woken) : Awaited w.take := by
  refine h.congr (outstanding_take hp) ?_
  unfold World.take
  split
  · split_ifs <;> rfl
  · rfl

omit [DecidableEq τ] [Fintype τ] in
/-- The pump moves on with the ticket that it holds. -/
theorem Awaited.pump (h : Awaited w) (hticket : w'.pump.ticket = w.pump.ticket)
    (hqueue : w'.queue = w.queue) (hthread : w'.thread = w.thread) : Awaited w' :=
  h.congr (by rw [World.outstanding, World.outstanding, hticket, hqueue]) hthread

theorem awaited_step {a : Action τ ρ} (h : Awaited w) (ht : Tickets w)
    (hstep : w.step c a = some w') : Awaited w' := by
  cases step_cases hstep with
  | setLevel | filtered | stop | join => exact h.congr rfl rfl
  | entered _ hpc | flush hpc | flushSkipped hpc | resume hpc | wakeSpace hpc =>
    exact h.leave (by rw [hpc]; rfl)
  | spaceParked henq => exact h.leave henq.awaited
  | @refused t henq | @dropped t henq =>
    have hidle : Awaited (w.setPc t .idle) := h.leave henq.awaited
    exact hidle.congr rfl rfl
  | @accepted t r henq =>
    have hgo : Awaited (w.setPc t .notifying) := h.leave henq.awaited
    exact hgo.congr (by simp [World.outstanding, World.accept, World.setPc]) rfl
  | @notifyRecords t hpc =>
    have hidle : Awaited (w.setPc t .idle) := h.leave (by rw [hpc]; rfl)
    exact hidle.pump (ticket_wakeRecords _) rfl rfl
  | marked hpc => exact h.marked hpc
  | flushed hpc hk =>
    -- A ticket on its way is not complete.
    refine h.setPc fun k hmem hawaited => ?_
    rw [hpc] at hawaited
    cases hawaited
    exact absurd hk (Nat.not_le_of_lt (ht.above _ hmem))
  | flushParked hpc | wakeDone hpc =>
    refine h.setPc fun k _ hawaited => ?_
    rw [hpc] at hawaited
    exact hawaited
  | take hp => exact h.take hp
  | complete hp =>
    refine h.frame (fun k hk => ?_) fun _ => rfl
    rw [World.outstanding, hp]
    exact List.mem_append_right _ hk
  | notifyNobody hp => exact h.pump (by rw [hp, ticket_handle]) rfl rfl
  | @notifyOne item t r hp hpc =>
    have hwoken : Awaited (w.setPc t (.spaceWoken r)) := h.leave (by rw [hpc]; rfl)
    exact hwoken.pump (by rw [ticket_handle, ← hp]; rfl) rfl rfl
  | notifyDone hp | finalNotifyDone hp =>
    refine h.frame (fun k hk => ?_) fun u => (awaited_wakeDone _).1
    rw [World.outstanding, hp]
    exact hk
  | notifyAllRecords => exact h.pump (ticket_wakeRecords _) rfl rfl
  | notifyAllSpace => exact h.frame (fun _ hk => hk) fun u => (awaited_wakeSpace _).1
  | wakePump hp | completeAll hp | write _ hp | flushSink _ hp | finalFlushSink _ hp
  | written _ hp | flushedSinks _ hp | finalFlushedSinks _ hp =>
    exact h.pump (by rw [hp]; rfl) rfl rfl

/-! ## Counting -/

def Pc.awaits (pc : Pc ρ) : Bool := pc.awaited.isSome

omit [DecidableEq τ] in
/-- Different tickets have different callers. -/
theorem Awaited.length_le (h : Awaited w) (ht : Tickets w) :
    w.outstanding.length ≤ tally Pc.awaits w.thread := by
  have hnodup : w.outstanding.Nodup := ht.sorted.imp Nat.ne_of_lt
  have hsub : w.outstanding.toFinset ⊆
      (Finset.univ.filter fun t => (w.thread t).awaits).image
        fun t => (w.thread t).awaited.getD 0 := by
    intro k hk
    obtain ⟨t, hawaited⟩ := h k (List.mem_toFinset.1 hk)
    have hmem : (w.thread t).awaits = true := by rw [Pc.awaits, hawaited]; rfl
    exact Finset.mem_image.2
      ⟨t, Finset.mem_filter.2 ⟨Finset.mem_univ t, hmem⟩, by rw [hawaited]; rfl⟩
  rw [← List.toFinset_card_of_nodup hnodup]
  exact Nat.le_trans (Finset.card_le_card hsub) Finset.card_image_le

theorem PumpPc.length_inHand_le (p : PumpPc ρ) (i : Nat) : (p.inHand i).length ≤ 1 := by
  cases p with
  | popped item =>
    cases item with
    | record r => exact Nat.le_refl 1
    | marker ticket => exact Nat.zero_le 1
  | delivering r j =>
    simp only [PumpPc.inHand]
    split_ifs
    · exact Nat.le_refl 1
    · exact Nat.zero_le 1
  | _ => exact Nat.zero_le 1

/-- **The queue is bounded.** -/
theorem reachable_bounded (h : Reachable (World.step c) (World.initial τ ρ) w) :
    (records w.queue).length ≤ c.capacity ∧
      (tickets w.queue).length ≤ tally Pc.awaits w.thread ∧
      w.queue.length ≤ c.capacity + tally Pc.awaits w.thread ∧
      ∀ i, i < c.sinks → w.accepted.length ≤ (writes i w.calls).length + c.capacity + 1 := by
  obtain ⟨hroom, hawaited, hflushers, hinv⟩ :
      Room c w ∧ Awaited w ∧ Flushers w ∧ Inv c w := by
    refine Reachable.invariant (World.step c)
      (I := fun w => Room c w ∧ Awaited w ∧ Flushers w ∧ Inv c w) h ?_ ?_
    · exact ⟨Nat.zero_le _, nofun, flushers_initial, inv_initial⟩
    · intro v a v' ⟨hR, hA, hF, hI⟩ hstep
      exact ⟨room_step hR hstep, awaited_step hA hF.tickets hstep,
        flushers_step hF hI.drained hstep, inv_step hI hstep⟩
  have hmarkers : (tickets w.queue).length ≤ tally Pc.awaits w.thread := by
    have hle := hawaited.length_le hflushers.tickets
    rw [World.outstanding, List.length_append] at hle
    omega
  refine ⟨hroom, hmarkers, ?_, fun i hi => ?_⟩
  · rw [length_eq w.queue]
    exact Nat.add_le_add hroom hmarkers
  · have hdelivery := congrArg List.length (hinv.delivery i hi)
    rw [List.length_append, List.length_append] at hdelivery
    have hhand := PumpPc.length_inHand_le w.pump i
    have hrecords : (records w.queue).length ≤ c.capacity := hroom
    omega

end Steps

/-- The numerals of `crowded` name threads. -/
local instance crowded_neZero : NeZero 4 := ⟨by decide⟩

/-- Room for one record: a record fills the queue, and two callers of `flush` go past it. -/
def crowded : List (Action (Fin 4) Nat) :=
  [.log 0 .info 7, .enqueue 0, .log 1 .info 8, .enqueue 1, .flush 2, .flushLocked 2, .flush 3,
    .flushLocked 3]

theorem reachable_bounded_crowded :
    ∃ w, run (World.step small) (World.initial (Fin 4) Nat) crowded = some w ∧
      w.queue.length = 3 ∧ tally Pc.awaits w.thread = 2 ∧ w.queue.length ≤ 1 + 2 := by
  have hrun : ∃ w, run (World.step small) (World.initial (Fin 4) Nat) crowded = some w ∧
      w.queue.length = 3 ∧ tally Pc.awaits w.thread = 2 := ⟨_, rfl, rfl, rfl⟩
  obtain ⟨w, hw, hlength, htally⟩ := hrun
  obtain ⟨-, -, hbound, -⟩ := reachable_bounded ⟨crowded, hw⟩
  rw [htally] at hbound
  exact ⟨w, hw, hlength, htally, hbound⟩

end Logger

end EglUtil
