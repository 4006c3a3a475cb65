import EglUtil.Lib.Updates
import EglUtil.LoggerFlush

/-!
# `Logger`: no caller is left parked

Three condition variables share one mutex, and most notifications are sent after it is released.

**Theorem (`reachable_strands_nobody`).** In every reachable state in which no notification is
pending and no woken thread has still to test its predicate: if the pump is parked, the queue is
empty, `shutdown` has not begun and no caller is parked; if the pump has exited, no caller is.

**The pump** (`Promised.records`). While it is parked with something to do, a producer is about to
notify it, or `shutdown` is.

**Producers** (`Promised.space`). While one is parked, the queue is not empty, or the pump has
popped an item and is about to notify, or a producer was woken and has not looked yet. A woken
producer that parks again, because markers or another producer have filled the queue, leaves a
queue that is not empty, from which another notification will come.

**Flush callers** (`Flushers`). The ticket that a caller waits for is complete or on its way
through the queue; it is complete while the caller is parked only if the pump is about to say so.
-/

namespace EglUtil

open Transition Updates

namespace Logger

variable {τ ρ : Type*} {c : Config} {w w' : World τ ρ}

/-! ## Who waits and who is on the way -/

def Pc.isSpaceWoken : Pc ρ → Bool
  | .spaceWoken _ => true
  | _ => false

/-- Somebody has woken the caller, and it has not held the mutex since. -/
def Pc.isWoken : Pc ρ → Bool
  | .spaceWoken _ | .flushWoken _ _ => true
  | _ => false

/-- The ticket that a `flush` waits for. -/
def Pc.awaited : Pc ρ → Option Nat
  | .flushParked ticket _ | .flushWoken ticket _ => some ticket
  | _ => none

/-- The same while the caller is parked. -/
def Pc.parkedTicket : Pc ρ → Option Nat
  | .flushParked ticket _ => some ticket
  | _ => none

def PumpPc.isPopped : PumpPc ρ → Bool
  | .popped _ => true
  | _ => false

/-- The pump is about to notify everybody on `flush_done_`. -/
def PumpPc.announces : PumpPc ρ → Bool
  | .notifyingDone | .finalNotifying => true
  | _ => false

/-- Somebody will look after the producers that are parked. -/
def SpacePromised (w : World τ ρ) : Prop :=
  (w.shutdown = .notifyingRecords ∨ w.shutdown = .notifyingSpace) ∨
  w.stopping = false ∧
    (w.queue ≠ [] ∨ w.pump.isPopped = true ∨ ∃ u, (w.thread u).isSpaceWoken = true)

structure Promised (w : World τ ρ) : Prop where
  records : w.pump = .parked → (w.queue = [] ∧ w.stopping = false) ∨
    (∃ u, (w.thread u).isNotifying = true) ∨ w.shutdown = .notifyingRecords
  space : ∀ t, (w.thread t).isSpaceParked = true → SpacePromised w

structure Flushers (w : World τ ρ) : Prop where
  tickets : Tickets w
  onTheWay : ∀ t k, (w.thread t).awaited = some k → k ≤ w.flushCompleted ∨ k ∈ w.outstanding
  announced : ∀ t k, (w.thread t).parkedTicket = some k → k ≤ w.flushCompleted →
    w.pump.announces = true

theorem promised_initial : Promised (World.initial τ ρ) := ⟨nofun, nofun⟩

theorem flushers_initial : Flushers (World.initial τ ρ) := ⟨.finish rfl rfl, nofun, nofun⟩

/-! ## What the tests decide -/

/-- `enqueue` refuses the record after `shutdown` has begun. Otherwise, whatever it does, the
queue is not empty afterwards: the record is in it, or it was full. -/
theorem enqueue_cases [DecidableEq τ] [Fintype τ] {t : τ}
    (hstep : w.step c (.enqueue t) = some w') :
    w.stopping = true ∧ w' = w.refuse t ∨ w'.stopping = false ∧ w'.queue ≠ [] := by
  have hfull : c.capacity ≤ w.queue.length → w.queue ≠ [] := by
    intro hle hnil
    have hpos := c.capacity_pos
    rw [hnil] at hle
    exact absurd hle (Nat.not_le_of_lt hpos)
  simp only [World.step] at hstep
  split at hstep <;> cases hstep
  · next r hpc =>
    unfold World.enqueue
    split_ifs with hs hle
    · exact .inl ⟨hs, rfl⟩
    · rw [Bool.not_eq_true] at hs
      split
      · exact .inr ⟨hs, hfull hle⟩
      · exact .inr ⟨hs, hfull hle⟩
    · rw [Bool.not_eq_true] at hs
      exact .inr ⟨hs, List.append_ne_nil_of_right_ne_nil _ (List.cons_ne_nil _ _)⟩
  · next r hpc =>
    unfold World.enqueueWoken
    split_ifs with hs hlt
    · exact .inl ⟨hs, rfl⟩
    · rw [Bool.not_eq_true] at hs
      exact .inr ⟨hs, List.append_ne_nil_of_right_ne_nil _ (List.cons_ne_nil _ _)⟩
    · rw [Bool.not_eq_true] at hs
      exact .inr ⟨hs, hfull (Nat.le_of_not_lt hlt)⟩

/-- A woken `flush` parks again only while its ticket is not complete. -/
theorem flushWoken_parked [DecidableEq τ] [Fintype τ] {t : τ} {k before : Nat}
    (hpc : w.thread t = .flushWoken k before)
    (hstep : w.step c (.flushLocked t) = some (w.setPc t (.flushParked k before))) :
    w.flushCompleted < k := by
  simp only [World.step, hpc, World.flushWoken, Option.some.injEq] at hstep
  split_ifs at hstep with hdone
  · have hthread := congrFun (congrArg World.thread hstep) t
    simp only [World.setPc, Function.update_self] at hthread
    cases hthread
  · exact Nat.lt_of_not_le hdone

/-- The pump wakes nobody only when no producer is parked. -/
theorem notifySpace_none [DecidableEq τ] [Fintype τ]
    (hstep : w.step c (.notifySpace none) = some w') (t : τ) :
    (w.thread t).isSpaceParked = false := by
  simp only [World.step] at hstep
  split at hstep
  · split_ifs at hstep with hnone
    exact hnone t
  · cases hstep

/-! ## Frames -/

/-- The queue and the progress of `shutdown` are the same, the pump has not parked, and threads
have neither parked nor forgotten whom they will wake. -/
theorem Promised.frame (h : Promised w) (hqueue : w'.queue = w.queue)
    (hstopping : w'.stopping = w.stopping) (hshutdown : w'.shutdown = w.shutdown)
    (hpump : w'.pump = w.pump ∨ w'.pump ≠ .parked ∧ w.pump.isPopped = false)
    (hnotify : w'.pump = .parked → ∀ u, (w.thread u).isNotifying = true →
      (w'.thread u).isNotifying = true)
    (hparked : ∀ u, (w'.thread u).isSpaceParked = true → (w.thread u).isSpaceParked = true)
    (hwoken : ∀ u, (w.thread u).isSpaceWoken = true → (w'.thread u).isSpaceWoken = true) :
    Promised w' where
  records := by
    intro hp
    have hp' : w.pump = .parked := by
      rcases hpump with hsame | ⟨hne, -⟩
      · rw [← hsame, hp]
      · exact absurd hp hne
    rw [hqueue, hstopping, hshutdown]
    rcases h.records hp' with hidle | ⟨u, hu⟩ | hshut
    · exact .inl hidle
    · exact .inr (.inl ⟨u, hnotify hp u hu⟩)
    · exact .inr (.inr hshut)
  space := by
    intro t ht
    unfold SpacePromised
    rw [hqueue, hstopping, hshutdown]
    rcases h.space t (hparked t ht) with hshut | ⟨hrun, hq | hpop | ⟨u, hu⟩⟩
    · exact .inl hshut
    · exact .inr ⟨hrun, .inl hq⟩
    · rcases hpump with hsame | ⟨-, hnot⟩
      · exact .inr ⟨hrun, .inr (.inl (by rw [hsame]; exact hpop))⟩
      · rw [hpop] at hnot
        cases hnot
    · exact .inr ⟨hrun, .inr (.inr ⟨u, hwoken u hu⟩)⟩

/-- A thread moves that was on the way to nobody, and does not park for space. -/
theorem Promised.setPc [DecidableEq τ] (h : Promised w) {t : τ} {pc : Pc ρ}
    (hnotify : (w.thread t).isNotifying = false) (hwoken : (w.thread t).isSpaceWoken = false)
    (hparked : pc.isSpaceParked = false) : Promised (w.setPc t pc) := by
  refine h.frame rfl rfl rfl (.inl rfl) (fun _ => update_keeps ?_) (update_reflects ?_)
    (update_keeps ?_)
  · intro hold
    rw [hnotify] at hold
    cases hold
  · intro hnew
    rw [hparked] at hnew
    cases hnew
  · intro hold
    rw [hwoken] at hold
    cases hold

/-- The pump goes on. -/
theorem Promised.pump (h : Promised w) (hqueue : w'.queue = w.queue)
    (hstopping : w'.stopping = w.stopping) (hshutdown : w'.shutdown = w.shutdown)
    (hthread : w'.thread = w.thread) (hp : w'.pump ≠ .parked) (hold : w.pump.isPopped = false) :
    Promised w' := by
  refine h.frame hqueue hstopping hshutdown (.inr ⟨hp, hold⟩) ?_ ?_ ?_
  · intro hparked
    exact absurd hparked hp
  · intro u hu
    rwa [hthread] at hu
  · intro u hu
    rwa [hthread]

/-- Tickets are where they were, and no caller has begun to wait. -/
theorem Flushers.frame (h : Flushers w) (hout : w'.outstanding = w.outstanding)
    (hrequested : w'.flushRequested = w.flushRequested)
    (hcompleted : w'.flushCompleted = w.flushCompleted)
    (hannounces : w.pump.announces = true → w'.pump.announces = true ∨
      ∀ u, (w'.thread u).parkedTicket = none)
    (hawaited : ∀ u k, (w'.thread u).awaited = some k → (w.thread u).awaited = some k)
    (hparked : ∀ u k, (w'.thread u).parkedTicket = some k →
      (w.thread u).parkedTicket = some k ∨ w.flushCompleted < k) : Flushers w' where
  tickets := h.tickets.congr hout hrequested hcompleted
  onTheWay := by
    intro t k hk
    rw [hcompleted, hout]
    exact h.onTheWay t k (hawaited t k hk)
  announced := by
    intro t k hk hle
    rw [hcompleted] at hle
    rcases hparked t k hk with hk' | hlt
    · rcases hannounces (h.announced t k hk' hle) with hp | hnone
      · exact hp
      · rw [hnone t] at hk
        cases hk
    · exact absurd hle (Nat.not_le_of_lt hlt)

/-- A thread moves that begins no wait. -/
theorem Flushers.setPc [DecidableEq τ] (h : Flushers w) {t : τ} {pc : Pc ρ}
    (hawaited : ∀ k, pc.awaited = some k → (w.thread t).awaited = some k)
    (hparked : ∀ k, pc.parkedTicket = some k →
      (w.thread t).parkedTicket = some k ∨ w.flushCompleted < k) : Flushers (w.setPc t pc) := by
  refine h.frame rfl rfl rfl .inl (fun u k => update_reflects (hawaited k) u) ?_
  intro u k hk
  by_cases hut : u = t
  · rw [World.setPc, hut] at hk
    simp only [Function.update_self] at hk
    rw [hut]
    exact hparked k hk
  · rw [World.setPc] at hk
    simp only [Function.update_of_ne hut] at hk
    exact .inl hk

/-- A caller goes where it waits for no ticket. -/
theorem Flushers.leave [DecidableEq τ] (h : Flushers w) {t : τ} {pc : Pc ρ}
    (hawaited : pc.awaited = none) (hparked : pc.parkedTicket = none) :
    Flushers (w.setPc t pc) := by
  refine h.setPc ?_ ?_
  · intro k hk
    rw [hawaited] at hk
    cases hk
  · intro k hk
    rw [hparked] at hk
    cases hk

/-- The pump goes on with the ticket it has. -/
theorem Flushers.pump (h : Flushers w) (hticket : w'.pump.ticket = w.pump.ticket)
    (hold : w.pump.announces = false) (hqueue : w'.queue = w.queue)
    (hrequested : w'.flushRequested = w.flushRequested)
    (hcompleted : w'.flushCompleted = w.flushCompleted) (hthread : w'.thread = w.thread) :
    Flushers w' := by
  refine h.frame ?_ hrequested hcompleted ?_ ?_ ?_
  · rw [World.outstanding, hticket, hqueue, World.outstanding]
  · intro hannounces
    rw [hold] at hannounces
    cases hannounces
  · intro u k hk
    rwa [hthread] at hk
  · intro u k hk
    rw [hthread] at hk
    exact .inl hk

/-! ## One step -/

section Steps

variable [DecidableEq τ] [Fintype τ]

omit [DecidableEq τ] [Fintype τ] in
theorem not_parked_wakeRecords (p : PumpPc ρ) : p.wakeRecords ≠ .parked := by
  cases p <;> exact nofun

omit [DecidableEq τ] [Fintype τ] in
theorem isPopped_wakeRecords (p : PumpPc ρ) : p.wakeRecords.isPopped = p.isPopped := by
  cases p <;> rfl

omit [DecidableEq τ] [Fintype τ] in
theorem announces_wakeRecords (p : PumpPc ρ) : p.wakeRecords.announces = p.announces := by
  cases p <;> rfl

omit [DecidableEq τ] [Fintype τ] in
/-- Notifying the pump takes care of the records. -/
theorem promised_wakeRecords (hpump : w'.pump = w.pump.wakeRecords)
    (hspace : ∀ t, (w'.thread t).isSpaceParked = true → SpacePromised w') : Promised w' where
  records := by
    intro hp
    rw [hpump] at hp
    exact absurd hp (not_parked_wakeRecords _)
  space := hspace

/-- `enqueue`: either it refuses, and `shutdown` will wake the others, or the queue is not
empty. -/
theorem Promised.enqueue (h : Promised w) {t : τ}
    (hstep : w.step c (.enqueue t) = some w') (hpump : w'.pump = w.pump)
    (hrecords : w'.pump = .parked → (w'.queue = w.queue ∧ w'.stopping = w.stopping ∧
      w'.shutdown = w.shutdown ∧ ∀ u, (w.thread u).isNotifying = true →
        (w'.thread u).isNotifying = true) ∨ ∃ u, (w'.thread u).isNotifying = true) :
    Promised w' where
  records := by
    intro hp
    rcases hrecords hp with ⟨hqueue, hstopping, hshutdown, hnotify⟩ | hnew
    · rw [hqueue, hstopping, hshutdown]
      rw [hpump] at hp
      rcases h.records hp with hidle | ⟨u, hu⟩ | hshut
      · exact .inl hidle
      · exact .inr (.inl ⟨u, hnotify u hu⟩)
      · exact .inr (.inr hshut)
    · exact .inr (.inl hnew)
  space := by
    intro u hu
    rcases enqueue_cases hstep with ⟨hs, rfl⟩ | ⟨hs, hq⟩
    · have hu' : (w.thread u).isSpaceParked = true :=
        update_reflects (p := Pc.isSpaceParked) (fun hidle => by cases hidle) u hu
      rcases h.space u hu' with hshut | ⟨hrun, -⟩
      · exact .inl hshut
      · rw [hs] at hrun
        cases hrun
    · exact .inr ⟨hs, .inl hq⟩

omit [Fintype τ] in
/-- The move of a thread in `enqueue` takes no notification away from the pump. -/
theorem notifying_kept {t : τ} {pc : Pc ρ} (hpc : (w.thread t).isEnqueuing) (u : τ)
    (hu : (w.thread u).isNotifying = true) :
    (Function.update w.thread t pc u).isNotifying = true := by
  refine update_keeps (p := Pc.isNotifying) ?_ u hu
  intro hold
  rw [not_notifying_of_enqueuing hpc] at hold
  cases hold

omit [DecidableEq τ] [Fintype τ] in
theorem Promised.take (h : Promised w) (hp : w.pump = .top ∨ w.pump = .woken) :
    Promised w.take := by
  have hnot : w.pump.isPopped = false := by rcases hp with hp | hp <;> rw [hp] <;> rfl
  unfold World.take
  split
  · next hq =>
    split_ifs with hs
    · exact h.pump rfl rfl rfl rfl nofun hnot
    · rw [Bool.not_eq_true] at hs
      refine ⟨fun _ => .inl ⟨hq, hs⟩, fun t ht => ?_⟩
      rcases h.space t ht with hshut | ⟨hrun, hne | hpop | hwoken⟩
      · exact .inl hshut
      · exact absurd hq hne
      · rw [hnot] at hpop
        cases hpop
      · exact .inr ⟨hrun, .inr (.inr hwoken)⟩
  · refine ⟨nofun, fun t ht => ?_⟩
    rcases h.space t ht with hshut | ⟨hrun, -⟩
    · exact .inl hshut
    · exact .inr ⟨hrun, .inr (.inl rfl)⟩

omit [DecidableEq τ] [Fintype τ] in
theorem handle_ne_parked (item : QueueItem ρ) : item.handle ≠ .parked := by
  cases item <;> exact nofun

omit [DecidableEq τ] [Fintype τ] in
theorem isSpace_wakeDone (pc : Pc ρ) : pc.wakeDone.isNotifying = pc.isNotifying ∧
    pc.wakeDone.isSpaceParked = pc.isSpaceParked ∧ pc.wakeDone.isSpaceWoken = pc.isSpaceWoken := by
  cases pc <;> exact ⟨rfl, rfl, rfl⟩

omit [DecidableEq τ] [Fintype τ] in
/-- `notify_all` on `flush_done_` concerns neither the pump nor the producers. -/
theorem Promised.notifyDone (h : Promised w) {p : PumpPc ρ} (hp : p ≠ .parked)
    (hold : w.pump.isPopped = false) :
    Promised { w with thread := fun t => (w.thread t).wakeDone, pump := p } := by
  refine h.frame rfl rfl rfl (.inr ⟨hp, hold⟩) ?_ ?_ ?_
  · intro _ u hu
    rw [(isSpace_wakeDone _).1, hu]
  · intro u hu
    rwa [(isSpace_wakeDone _).2.1] at hu
  · intro u hu
    rw [(isSpace_wakeDone _).2.2, hu]

omit [DecidableEq τ] [Fintype τ] in
theorem isSpaceParked_wakeSpace (pc : Pc ρ) : pc.wakeSpace.isSpaceParked = false ∧
    pc.wakeSpace.isNotifying = pc.isNotifying := by
  cases pc <;> exact ⟨rfl, rfl⟩

omit [Fintype τ] in
/-- A producer that notifies the pump was about to, and was not parked. -/
theorem Promised.notifyRecords (h : Promised w) {t : τ} (hpc : w.thread t = .notifying) :
    Promised
      { w.setPc t .idle with pump := w.pump.wakeRecords, completed := w.completed + 1 } := by
  refine promised_wakeRecords rfl fun u hu => ?_
  have hu' : (w.thread u).isSpaceParked = true :=
    update_reflects (p := Pc.isSpaceParked) (fun hidle => by cases hidle) u hu
  rcases h.space u hu' with hshut | ⟨hrun, hq | hpop | ⟨v, hv⟩⟩
  · exact .inl hshut
  · exact .inr ⟨hrun, .inl hq⟩
  · exact .inr ⟨hrun, .inr (.inl (by rw [isPopped_wakeRecords]; exact hpop))⟩
  · refine .inr ⟨hrun, .inr (.inr ⟨v, update_keeps (p := Pc.isSpaceWoken) ?_ v hv⟩)⟩
    intro hold
    rw [hpc] at hold
    cases hold

omit [DecidableEq τ] [Fintype τ] in
/-- `shutdown` has notified the pump before, and leaves no producer parked. -/
theorem Promised.notifyAllSpace (h : Promised w) (hs : w.shutdown = .notifyingSpace) :
    Promised
      { w with thread := fun t => (w.thread t).wakeSpace, shutdown := .joining } where
  records := by
    intro hp
    rcases h.records hp with hidle | ⟨u, hu⟩ | hshut
    · exact .inl hidle
    · exact .inr (.inl ⟨u, by rw [(isSpaceParked_wakeSpace _).2, hu]⟩)
    · rw [hs] at hshut
      cases hshut
  space := by
    intro t ht
    rw [(isSpaceParked_wakeSpace _).1] at ht
    cases ht

omit [DecidableEq τ] [Fintype τ] in
theorem Promised.join (h : Promised w) (hs : w.shutdown = .joining) (hp : w.pump = .exited) :
    Promised { w with shutdown := .returned } where
  records := by
    intro hp'
    rw [hp] at hp'
    cases hp'
  space := by
    intro t ht
    rcases h.space t ht with hshut | hrun
    · rw [hs] at hshut
      rcases hshut with hshut | hshut <;> cases hshut
    · exact .inr hrun

/-- **One step**, for the pump and the producers. -/
theorem promised_step {a : Action τ ρ} (h : Promised w) (hstep : w.step c a = some w') :
    Promised w' := by
  cases step_cases hstep with
  | setLevel => exact ⟨h.records, h.space⟩
  | filtered => exact h
  | entered _ hpc | flush hpc | flushSkipped hpc | flushed hpc | flushParked hpc | resume hpc
  | wakeDone hpc => exact h.setPc (by rw [hpc]; rfl) (by rw [hpc]; rfl) rfl
  | @accepted t r hpc =>
    refine h.enqueue hstep rfl fun _ => .inr ⟨t, ?_⟩
    simp only [World.accept, World.setPc, Function.update_self, Pc.isNotifying]
  | refused hpc | dropped hpc | spaceParked hpc =>
    exact h.enqueue hstep rfl fun _ => .inl ⟨rfl, rfl, rfl, notifying_kept hpc⟩
  | notifyRecords hpc => exact h.notifyRecords hpc
  | marked hpc hs =>
    refine promised_wakeRecords rfl fun _ _ => .inr ⟨hs, .inl ?_⟩
    exact List.append_ne_nil_of_right_ne_nil _ (List.cons_ne_nil _ _)
  | @wakeSpace t r hpc =>
    exact h.setPc (by rw [hpc]; rfl) (by rw [hpc]; rfl) rfl
  | wakePump hp => exact h.pump rfl rfl rfl rfl (by simp) (by rw [hp]; rfl)
  | take hp => exact h.take hp
  | complete hp | completeAll hp => exact h.pump rfl rfl rfl rfl (by simp) (by rw [hp]; rfl)
  | notifyNobody hp =>
    refine ⟨fun hp' => absurd hp' (handle_ne_parked _), fun t ht => ?_⟩
    rw [notifySpace_none hstep t] at ht
    cases ht
  | @notifyOne item t r hp hpc =>
    refine ⟨fun hp' => absurd hp' (handle_ne_parked _), fun u hu => ?_⟩
    rcases h.space t (by rw [hpc]; rfl) with hshut | ⟨hrun, -⟩
    · exact .inl hshut
    · refine .inr ⟨hrun, .inr (.inr ⟨t, ?_⟩)⟩
      simp only [World.setPc, Function.update_self, Pc.isSpaceWoken]
  | write _ hp | flushSink _ hp | finalFlushSink _ hp | written _ hp | flushedSinks _ hp
  | finalFlushedSinks _ hp =>
    exact h.pump rfl rfl rfl rfl (by simp [World.record]) (by rw [hp]; rfl)
  | notifyDone hp | finalNotifyDone hp => exact h.notifyDone (by simp) (by rw [hp]; rfl)
  | stop => exact ⟨fun _ => .inr (.inr rfl), fun _ _ => .inl (.inl rfl)⟩
  | notifyAllRecords => exact promised_wakeRecords rfl fun _ _ => .inl (.inr rfl)
  | notifyAllSpace hs => exact h.notifyAllSpace hs
  | join hs hp => exact h.join hs hp

omit [DecidableEq τ] [Fintype τ] in
theorem ticket_handle (item : QueueItem ρ) :
    item.handle.ticket = (PumpPc.popped item).ticket := by
  cases item <;> rfl

omit [DecidableEq τ] [Fintype τ] in
theorem awaited_wakeSpace (pc : Pc ρ) : pc.wakeSpace.awaited = pc.awaited ∧
    pc.wakeSpace.parkedTicket = pc.parkedTicket := by
  cases pc <;> exact ⟨rfl, rfl⟩

omit [DecidableEq τ] [Fintype τ] in
theorem awaited_wakeDone (pc : Pc ρ) : pc.wakeDone.awaited = pc.awaited ∧
    pc.wakeDone.parkedTicket = none := by
  cases pc <;> exact ⟨rfl, rfl⟩

omit [DecidableEq τ] [Fintype τ] in
/-- The pump takes the oldest item, and its ticket with it. -/
theorem outstanding_take (hp : w.pump = .top ∨ w.pump = .woken) :
    w.take.outstanding = w.outstanding := by
  have hfree : w.pump.ticket = [] := by rcases hp with hp | hp <;> rw [hp] <;> rfl
  unfold World.take World.outstanding
  split
  · next hq =>
    split_ifs <;> rw [hq, hfree] <;> rfl
  · next item rest hq =>
    rw [hq, hfree]
    cases item <;> rfl

omit [DecidableEq τ] [Fintype τ] in
theorem Flushers.take (h : Flushers w) (hp : w.pump = .top ∨ w.pump = .woken) :
    Flushers w.take := by
  have hsame : w.take.thread = w.thread ∧ w.take.flushRequested = w.flushRequested ∧
      w.take.flushCompleted = w.flushCompleted := by
    unfold World.take
    split
    · split_ifs <;> exact ⟨rfl, rfl, rfl⟩
    · exact ⟨rfl, rfl, rfl⟩
  refine h.frame (outstanding_take hp) hsame.2.1 hsame.2.2 ?_ ?_ ?_
  · intro hannounces
    rcases hp with hp | hp <;> rw [hp] at hannounces <;> cases hannounces
  · intro u k hk
    rwa [hsame.1] at hk
  · intro u k hk
    rw [hsame.1] at hk
    exact .inl hk

omit [Fintype τ] in
/-- A caller takes the next ticket, which enters the queue with it. -/
theorem Flushers.marked (h : Flushers w) {t : τ} {before : Nat} :
    Flushers { w.setPc t (.flushParked (w.flushRequested + 1) before) with
      flushRequested := w.flushRequested + 1
      queue := w.queue ++ [.marker (w.flushRequested + 1)]
      pump := w.pump.wakeRecords } := by
  have hout : w.pump.wakeRecords.ticket ++
      Logger.tickets (w.queue ++ [.marker (w.flushRequested + 1)]) =
        w.outstanding ++ [w.flushRequested + 1] := by
    simp [World.outstanding]
  have hle := h.tickets.completed
  refine ⟨h.tickets.push hout rfl rfl, ?_, ?_⟩
  · intro u k hk
    rw [World.outstanding, hout, List.mem_append, List.mem_singleton]
    by_cases hut : u = t
    · simp only [World.setPc, hut, Function.update_self, Pc.awaited, Option.some.injEq] at hk
      exact .inr (.inr hk.symm)
    · simp only [World.setPc, Function.update_of_ne hut] at hk
      rcases h.onTheWay u k hk with hdone | hmem
      · exact .inl hdone
      · exact .inr (.inl hmem)
  · intro u k hk hdone
    change k ≤ w.flushCompleted at hdone
    by_cases hut : u = t
    · simp only [World.setPc, hut, Function.update_self, Pc.parkedTicket, Option.some.injEq] at hk
      omega
    · simp only [World.setPc, Function.update_of_ne hut] at hk
      rw [announces_wakeRecords]
      exact h.announced u k hk hdone

omit [DecidableEq τ] [Fintype τ] in
/-- The pump completes the oldest ticket. -/
theorem Flushers.complete (h : Flushers w) {ticket : Nat} (hp : w.pump = .completing ticket) :
    Flushers { w with
      flushCompleted := max w.flushCompleted ticket, pump := .notifyingDone } := by
  have hout : w.outstanding = ticket :: Logger.tickets w.queue := by
    simp [World.outstanding, hp, PumpPc.ticket]
  refine ⟨h.tickets.pop hout rfl rfl, ?_, fun _ _ _ _ => rfl⟩
  intro u k hk
  rcases h.onTheWay u k hk with hdone | hmem
  · exact .inl (Nat.le_trans hdone (Nat.le_max_left _ _))
  · rw [hout, List.mem_cons] at hmem
    rcases hmem with rfl | hmem
    · exact .inl (Nat.le_max_right _ _)
    · exact .inr hmem

omit [DecidableEq τ] [Fintype τ] in
/-- The drain over, the pump completes every ticket that was ever given. -/
theorem Flushers.completeAll (h : Flushers w) (hd : Drained w) (hp : w.pump = .finalCompleting) :
    Flushers { w with flushCompleted := w.flushRequested, pump := .finalNotifying } := by
  have hempty := (hd.empty (by rw [hp]; rfl)).2
  refine ⟨.finish ?_ rfl, ?_, fun _ _ _ _ => rfl⟩
  · simp [World.outstanding, PumpPc.ticket, hempty]
  · intro u k hk
    rcases h.onTheWay u k hk with hdone | hmem
    · exact .inl (Nat.le_trans hdone h.tickets.completed)
    · exact .inl (h.tickets.issued k hmem)

omit [DecidableEq τ] [Fintype τ] in
/-- `notify_all` on `flush_done_` leaves nobody parked. -/
theorem Flushers.notifyDone (h : Flushers w) {p : PumpPc ρ} (hticket : p.ticket = w.pump.ticket) :
    Flushers { w with thread := fun t => (w.thread t).wakeDone, pump := p } := by
  refine h.frame (by simp only [World.outstanding, hticket]) rfl rfl ?_ ?_ ?_
  · intro _
    exact .inr fun u => (awaited_wakeDone _).2
  · intro u k hk
    rwa [(awaited_wakeDone _).1] at hk
  · intro u k hk
    rw [(awaited_wakeDone _).2] at hk
    cases hk

omit [DecidableEq τ] [Fintype τ] in
/-- The pump is notified. -/
theorem Flushers.wakeRecords (h : Flushers w) (hpump : w'.pump = w.pump.wakeRecords)
    (hqueue : w'.queue = w.queue) (hrequested : w'.flushRequested = w.flushRequested)
    (hcompleted : w'.flushCompleted = w.flushCompleted) (hthread : w'.thread = w.thread) :
    Flushers w' := by
  refine h.frame ?_ hrequested hcompleted ?_ ?_ ?_
  · rw [World.outstanding, hpump, hqueue, ticket_wakeRecords, World.outstanding]
  · rw [hpump, announces_wakeRecords]
    exact .inl
  · intro u k hk
    rwa [hthread] at hk
  · intro u k hk
    rw [hthread] at hk
    exact .inl hk

omit [DecidableEq τ] [Fintype τ] in
/-- Nothing that a `flush` looks at has changed. -/
theorem Flushers.congr (h : Flushers w) (hout : w'.outstanding = w.outstanding)
    (hpump : w'.pump = w.pump) (hrequested : w'.flushRequested = w.flushRequested)
    (hcompleted : w'.flushCompleted = w.flushCompleted) (hthread : w'.thread = w.thread) :
    Flushers w' := by
  refine h.frame hout hrequested hcompleted ?_ ?_ ?_
  · rw [hpump]
    exact .inl
  · intro u k hk
    rwa [hthread] at hk
  · intro u k hk
    rw [hthread] at hk
    exact .inl hk

/-- **One step**, for the flush callers. -/
theorem flushers_step {a : Action τ ρ} (h : Flushers w) (hd : Drained w)
    (hstep : w.step c a = some w') : Flushers w' := by
  have hidle : ∀ t, Flushers (w.setPc t .idle) := fun t => h.leave rfl rfl
  cases step_cases hstep with
  | setLevel => exact h.congr rfl rfl rfl rfl rfl
  | filtered => exact h
  | entered | flush | flushSkipped | flushed | resume | spaceParked | wakeSpace =>
    exact h.leave rfl rfl
  | @accepted t r =>
    have hgo : Flushers (w.setPc t .notifying) := h.leave rfl rfl
    exact hgo.congr (by simp [World.outstanding, World.accept, World.setPc]) rfl rfl rfl rfl
  | @refused t | @dropped t => exact (hidle t).congr rfl rfl rfl rfl rfl
  | @notifyRecords t => exact (hidle t).wakeRecords rfl rfl rfl rfl rfl
  | marked => exact h.marked
  | @flushParked t ticket before hpc =>
    refine h.setPc ?_ ?_
    · intro k hk
      rw [hpc]
      exact hk
    · intro k hk
      cases hk
      exact .inr (flushWoken_parked hpc hstep)
  | wakeDone hpc =>
    refine h.setPc ?_ ?_
    · intro k hk
      rw [hpc]
      exact hk
    · intro k hk
      cases hk
  | take hp => exact h.take hp
  | complete hp => exact h.complete hp
  | completeAll hp => exact h.completeAll hd hp
  | notifyNobody hp =>
    exact h.pump (by rw [hp, ticket_handle]) (by rw [hp]; rfl) rfl rfl rfl rfl
  | @notifyOne item t r hp =>
    have hgo : Flushers { w with pump := item.handle } :=
      h.pump (by rw [hp, ticket_handle]) (by rw [hp]; rfl) rfl rfl rfl rfl
    exact hgo.leave rfl rfl
  | wakePump hp | write _ hp | flushSink _ hp | finalFlushSink _ hp | written _ hp
  | flushedSinks _ hp | finalFlushedSinks _ hp =>
    exact h.pump (by rw [hp]; rfl) (by rw [hp]; rfl) rfl rfl rfl rfl
  | notifyDone hp | finalNotifyDone hp => exact h.notifyDone (by rw [hp]; rfl)
  | stop | join => exact h.congr rfl rfl rfl rfl rfl
  | notifyAllRecords => exact h.wakeRecords rfl rfl rfl rfl rfl
  | notifyAllSpace =>
    refine h.frame rfl rfl rfl .inl ?_ ?_
    · intro u k hk
      rwa [(awaited_wakeSpace _).1] at hk
    · intro u k hk
      rw [(awaited_wakeSpace _).2] at hk
      exact .inl hk

/-! ## Every run -/

/-- No notification is pending, and nobody who was woken has still to look. -/
structure Quiet (w : World τ ρ) : Prop where
  callers : ∀ t, (w.thread t).isNotifying = false ∧ (w.thread t).isWoken = false
  pump : w.pump ≠ .woken ∧ w.pump.isPopped = false ∧ w.pump.announces = false
  shutdown : w.shutdown ≠ .notifyingRecords ∧ w.shutdown ≠ .notifyingSpace

/-- No producer is parked for space, and no `flush` is. -/
def NobodyParked (w : World τ ρ) : Prop :=
  ∀ t, (w.thread t).isSpaceParked = false ∧ (w.thread t).parkedTicket = none

omit [DecidableEq τ] [Fintype τ] in
theorem isWoken_of_isSpaceWoken {pc : Pc ρ} (h : pc.isSpaceWoken = true) : pc.isWoken = true := by
  cases pc with
  | spaceWoken => rfl
  | _ => cases h

omit [DecidableEq τ] [Fintype τ] in
theorem awaited_of_parkedTicket {pc : Pc ρ} {k : Nat} (h : pc.parkedTicket = some k) :
    pc.awaited = some k := by
  cases pc with
  | flushParked => exact h
  | _ => cases h

omit [DecidableEq τ] [Fintype τ] in
/-- In a quiet state a producer parks for space only while the queue is not empty. -/
theorem Promised.queue_ne_nil (h : Promised w) (hq : Quiet w) {t : τ}
    (ht : (w.thread t).isSpaceParked = true) : w.stopping = false ∧ w.queue ≠ [] := by
  rcases h.space t ht with (hshut | hshut) | ⟨hrun, hne | hpop | ⟨u, hu⟩⟩
  · exact absurd hshut hq.shutdown.1
  · exact absurd hshut hq.shutdown.2
  · exact ⟨hrun, hne⟩
  · rw [hq.pump.2.1] at hpop
    cases hpop
  · have hwoken := isWoken_of_isSpaceWoken hu
    rw [(hq.callers u).2] at hwoken
    cases hwoken

omit [DecidableEq τ] [Fintype τ] in
/-- A `flush` is parked only while its ticket is outstanding. -/
theorem Flushers.outstanding_ne_nil (h : Flushers w) (hq : Quiet w) {t : τ} {k : Nat}
    (ht : (w.thread t).parkedTicket = some k) : w.outstanding ≠ [] := by
  rcases h.onTheWay t k (awaited_of_parkedTicket ht) with hdone | hmem
  · have hannounces := h.announced t k ht hdone
    rw [hq.pump.2.2] at hannounces
    cases hannounces
  · exact List.ne_nil_of_mem hmem

omit [DecidableEq τ] [Fintype τ] in
/-- With an empty queue, and no ticket in the hands of the pump, nobody is parked. -/
theorem nobodyParked (hp : Promised w) (hf : Flushers w) (hq : Quiet w) (hempty : w.queue = [])
    (hticket : w.pump.ticket = []) : NobodyParked w := by
  intro t
  constructor
  · by_contra hpark
    rw [Bool.not_eq_false] at hpark
    exact (hp.queue_ne_nil hq hpark).2 hempty
  · by_contra hpark
    obtain ⟨k, hk⟩ := Option.ne_none_iff_exists'.1 hpark
    refine hf.outstanding_ne_nil hq hk ?_
    rw [World.outstanding, hticket, hempty]
    rfl

theorem waking_of_reachable (h : Reachable (World.step c) (World.initial τ ρ) w) :
    Promised w ∧ Flushers w := by
  have hinv : Inv c w ∧ Promised w ∧ Flushers w := by
    refine Reachable.invariant (World.step c) (I := fun w => Inv c w ∧ Promised w ∧ Flushers w) h
      ?_ ?_
    · exact ⟨inv_initial, promised_initial, flushers_initial⟩
    · intro v a v' ⟨hI, hP, hF⟩ hstep
      exact ⟨inv_step hI hstep, promised_step hP hstep, flushers_step hF hI.drained hstep⟩
  exact hinv.2

/-- **The logger strands no caller.** In a quiet reachable state, with the pump parked or gone,
nothing is left that a caller could wait for. -/
theorem reachable_strands_nobody (h : Reachable (World.step c) (World.initial τ ρ) w)
    (hq : Quiet w) :
    (w.pump = .parked →
      w.queue = [] ∧ w.stopping = false ∧ w.shutdown = .notCalled ∧ NobodyParked w) ∧
    (w.pump = .exited → NobodyParked w) := by
  obtain ⟨hP, hF⟩ := waking_of_reachable h
  have hd := (inv_of_reachable h).drained
  constructor
  · intro hp
    have hidle : w.queue = [] ∧ w.stopping = false := by
      rcases hP.records hp with hidle | ⟨u, hu⟩ | hshut
      · exact hidle
      · rw [(hq.callers u).1] at hu
        cases hu
      · exact absurd hshut hq.shutdown.1
    have hnot : w.shutdown = .notCalled := by
      by_contra hcalled
      rw [hd.began.2 hcalled] at hidle
      cases hidle.2
    exact ⟨hidle.1, hidle.2, hnot, nobodyParked hP hF hq hidle.1 (by rw [hp]; rfl)⟩
  · intro hp
    have hempty := (hd.empty (by rw [hp]; rfl)).2
    exact nobodyParked hP hF hq hempty (by rw [hp]; rfl)

end Steps

/-- A record fills the queue, a producer parks behind it, and a marker goes past both. The first
wake-up of the producer is useless, since the marker still fills the queue; the second is not. -/
def markerRun : List (Action (Fin 3) Nat) :=
  [.log 0 .info 7, .enqueue 0, .notifyRecords 0, .log 1 .info 8, .enqueue 1, .flush 2,
    .flushLocked 2, .pumpLocked, .notifySpace (some 1), .enqueue 1, .callSink false,
    .callSink false, .callSink false, .pumpLocked, .notifySpace (some 1), .enqueue 1,
    .notifyRecords 1, .callSink false, .callSink false, .callSink false, .pumpLocked, .notifyDone,
    .flushLocked 2, .resume 2, .pumpLocked, .notifySpace none, .callSink false, .callSink false,
    .callSink false, .pumpLocked]

theorem reachable_strands_nobody_markerRun :
    ∃ w, run (World.step small) (World.initial (Fin 3) Nat) markerRun = some w ∧
      w.accepted = [7, 8] ∧ w.queue = [] ∧ w.stopping = false ∧ w.shutdown = .notCalled ∧
      NobodyParked w := by
  have hrun : ∃ w, run (World.step small) (World.initial (Fin 3) Nat) markerRun = some w ∧
      w.accepted = [7, 8] ∧ w.pump = .parked ∧ w.shutdown = .notCalled ∧
      ∀ t, w.thread t = .idle :=
    ⟨_, rfl, rfl, rfl, rfl, fun | 0 => rfl | 1 => rfl | 2 => rfl⟩
  obtain ⟨w, hw, hacc, hpump, hshut, hthread⟩ := hrun
  have hq : Quiet w := by
    refine ⟨fun t => by rw [hthread t]; exact ⟨rfl, rfl⟩, ?_, ?_⟩
    · rw [hpump]
      exact ⟨nofun, rfl, rfl⟩
    · rw [hshut]
      exact ⟨nofun, nofun⟩
  exact ⟨w, hw, hacc, (reachable_strands_nobody ⟨markerRun, hw⟩ hq).1 hpump⟩

end Logger

end EglUtil
