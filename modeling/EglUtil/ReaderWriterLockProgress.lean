import EglUtil.ReaderWriterLockWaking

/-!
# `ReaderWriterLock`: everyone is served

A woken thread may find the lock busy and park again, and a notification may wake many threads of
which one gets the lock. Both are paid for in advance.

**Theorem (`run_steps_le`).** In every run of `N` threads, the steps that go on with a call or give
back what is held (`Action.finishes`) are at most `N + 3` for each call of an acquisition, and one
more for each spurious wake-up and each deadline.

**Theorem (`reachable_drains`).** Suppose that no thread waits for the lock while it holds it. Then
the threads that are inside, without any further acquisition, spurious wake-up or deadline and in
whatever order they are scheduled, take at most `2N(N + 1)` steps; and when no step is left, nobody
waits or holds the lock. So every waiting thread has been admitted, or has found its deadline gone.

Each thread has a weight (`Thread.weight`): the steps that its call may still cost, with those of
the threads that it will wake.
-/

namespace EglUtil

open Transition Tally

namespace ReaderWriterLock

/-! ## The weight of a thread -/

/-- A thread that notifies may wake the `N - 1` others. -/
@[simp] def Pc.weight (N : Nat) : Pc → Nat
  | .idle => 0
  | .notifying _ => N
  | .writerParked _ | .readerParked _ => N + 2
  | .writerWoken _ _ | .readerWoken _ _ => N + 3

/-- What is held will be given back, and someone notified. -/
def heldWeight (N : Nat) (held : Bool) : Nat := if held then N + 1 else 0

@[simp] theorem heldWeight_true (N : Nat) : heldWeight N true = N + 1 := rfl

@[simp] theorem heldWeight_false (N : Nat) : heldWeight N false = 0 := rfl

theorem heldWeight_le (N : Nat) (held : Bool) : heldWeight N held ≤ N + 1 := by
  cases held <;> simp

@[simp] def Thread.weight (N : Nat) (th : Thread) : Nat :=
  th.pc.weight N + heldWeight N th.shared + heldWeight N th.exclusive

variable {τ : Type*} [DecidableEq τ] [Fintype τ] {s s' : World τ} {t : τ} {l : ReaderWriterLock}
  {th : Thread}

def World.potential (s : World τ) : Nat := ∑ t, (s.thread t).weight (Fintype.card τ)

/-! ## What an action costs, and brings in -/

/-- The step goes on with a call, or gives back what is held. -/
@[simp] def Action.finishes : Action τ → Bool
  | .unlock _ | .unlockShared _ | .recheck _ | .notify _ _ => true
  | .lock _ _ | .tryLock _ | .lockShared _ _ | .tryLockShared _ | .wake _ | .expire _ => false

@[simp] def Action.acquires : Action τ → Bool
  | .lock _ _ | .tryLock _ | .lockShared _ _ | .tryLockShared _ => true
  | .unlock _ | .unlockShared _ | .recheck _ | .notify _ _ | .wake _ | .expire _ => false

/-- A spurious wake-up, or a deadline. -/
@[simp] def Action.disturbs : Action τ → Bool
  | .wake _ | .expire _ => true
  | .lock _ _ | .tryLock _ | .lockShared _ _ | .tryLockShared _ | .unlock _ | .unlockShared _
  | .recheck _ | .notify _ _ => false

@[simp] def Action.cost (a : Action τ) : Nat := a.finishes.toNat

@[simp] def Action.budget (N : Nat) (a : Action τ) : Nat :=
  (N + 3) * a.acquires.toNat + a.disturbs.toNat

/-- One thread moves, and pays for it. -/
theorem potential_put {cost budget : Nat}
    (h : th.weight (Fintype.card τ) + cost ≤ (s.thread t).weight (Fintype.card τ) + budget) :
    (s.put t l th).potential + cost ≤ s.potential + budget := by
  have hsum := sum_add_le (t := t) (c := 0)
    (f := fun u => (s.thread u).weight (Fintype.card τ))
    (g := fun u => ((s.put t l th).thread u).weight (Fintype.card τ))
    fun u hu => by rw [put_of_ne hu]; exact Nat.le_add_right _ _
  rw [put_self] at hsum
  unfold World.potential
  omega

omit [DecidableEq τ] [Fintype τ] in
theorem weight_wakeReader_le (N : Nat) (th : Thread) :
    th.wakeReader.weight N ≤ th.weight N + 1 := by
  rcases th with ⟨pc, sh, ex⟩
  cases pc <;> simp [Thread.wakeReader]
  omega

omit [DecidableEq τ] [Fintype τ] in
theorem weight_afterSection_le (N : Nat) (o : Option Notification) :
    (afterSection o).weight N ≤ N := by
  cases o with
  | none => exact Nat.zero_le N
  | some n => exact Nat.le_refl N

/-- A writer that tests its predicate takes the lock or parks. -/
theorem potential_writerTest {timed : Bool} {cost budget : Nat}
    (h : Fintype.card τ + 2 + cost ≤ (s.thread t).pc.weight (Fintype.card τ) + budget) :
    (s.writerTest t l timed).potential + cost ≤ s.potential + budget := by
  unfold World.writerTest
  split_ifs
  · refine potential_put ?_
    simp at h ⊢
    omega
  · refine potential_put ?_
    simp at h ⊢
    omega

theorem potential_readerTest {timed : Bool} {cost budget : Nat}
    (h : Fintype.card τ + 2 + cost ≤ (s.thread t).pc.weight (Fintype.card τ) + budget) :
    (s.readerTest t timed).potential + cost ≤ s.potential + budget := by
  unfold World.readerTest
  split_ifs
  · refine potential_put ?_
    simp at h ⊢
    omega
  · refine potential_put ?_
    simp at h ⊢
    omega

/-- The thread that notifies pays for the threads that it wakes. -/
theorem potential_notify {f : τ → Thread} {n : Notification} (hpc : (s.thread t).pc = .notifying n)
    (hwoken : ∀ u, u ≠ t →
      (f u).weight (Fintype.card τ) ≤ (s.thread u).weight (Fintype.card τ) + 1)
    (ht : f t = { s.thread t with pc := .idle }) :
    World.potential ⟨s.lock, f⟩ + 1 ≤ s.potential := by
  have hcard : 1 ≤ Fintype.card τ := Fintype.card_pos_iff.2 ⟨t⟩
  have hsum := sum_add_le (t := t) (c := 1) (f := fun u => (s.thread u).weight (Fintype.card τ))
    (g := fun u => (f u).weight (Fintype.card τ)) hwoken
  have hold : (s.thread t).weight (Fintype.card τ) =
      (f t).weight (Fintype.card τ) + Fintype.card τ := by
    rw [ht]
    simp [hpc]
    omega
  unfold World.potential
  dsimp only at hsum ⊢
  omega

/-- **Every step pays for itself.** -/
theorem potential_step {a : Action τ} (hstep : s.step a = some s') :
    s'.potential + a.cost ≤ s.potential + a.budget (Fintype.card τ) := by
  cases step_cases hstep with
  | lock timed hpc => exact potential_writerTest (by simp [hpc])
  | tryLock hpc ha hr =>
    refine potential_put ?_
    simp [hpc]
    omega
  | tryLockFailed t | tryLockSharedFailed t => exact Nat.add_le_add_left (Nat.zero_le _) _
  | unlock hpc hx => exact potential_put (by simp [hpc, hx]; omega)
  | lockShared timed hpc hs => exact potential_readerTest (by simp [hpc])
  | tryLockShared hpc hs ha hw => exact potential_put (by simp [hpc, hs]; omega)
  | unlockShared hpc hs =>
    have hafter := weight_afterSection_le (Fintype.card τ) s.lock.unlockShared.2
    exact potential_put (by simp [hpc, hs] at hafter ⊢; omega)
  | wakeWriter hpc | wakeReader hpc | expireWriter hpc | expireReader hpc =>
    exact potential_put (by simp [hpc]; omega)
  | giveUpWriter hpc hbusy =>
    have hafter := weight_afterSection_le (Fintype.card τ) s.lock.giveUpWriter.2
    exact potential_put (by simp [hpc] at hafter ⊢; omega)
  | recheckWriter hpc => exact potential_writerTest (by simp [hpc])
  | giveUpReader hpc hbusy =>
    refine potential_put ?_
    simp only [Thread.weight, Pc.weight, Action.cost, Action.finishes, Bool.toNat_true, hpc]
    omega
  | recheckReader hpc => exact potential_readerTest (by simp [hpc])
  | @notifyReaders t u hpc =>
    refine potential_notify hpc (fun v hv => ?_) (Function.update_self _ _ _)
    rw [Function.update_of_ne hv]
    exact weight_wakeReader_le _ _
  | notifyNobody hpc =>
    refine potential_notify hpc (fun v hv => ?_) (Function.update_self _ _ _)
    rw [Function.update_of_ne hv]
    exact Nat.le_add_right _ _
  | @notifyWriter t v timed hpc hv =>
    refine potential_notify hpc (fun u hu => ?_) (Function.update_self _ _ _)
    rw [Function.update_of_ne hu]
    by_cases huv : u = v
    · subst huv
      rw [Function.update_self]
      simp [hv]
      omega
    · rw [Function.update_of_ne huv]
      exact Nat.le_add_right _ _

theorem potential_finishes {a : Action τ} (ha : a.finishes = true) (hstep : s.step a = some s') :
    s'.potential + 1 ≤ s.potential := by
  have hpays := potential_step hstep
  have hbudget : a.budget (Fintype.card τ) = 0 := by
    cases a with
    | unlock | unlockShared | recheck | notify => rfl
    | lock | tryLock | lockShared | tryLockShared | wake | expire => cases ha
  rwa [Action.cost, ha, hbudget] at hpays

/-! ## Every run -/

omit [DecidableEq τ] [Fintype τ] in
theorem sum_budget (N : Nat) (as : List (Action τ)) :
    (as.map (Action.budget N)).sum =
      (N + 3) * as.countP Action.acquires + as.countP Action.disturbs := by
  have hsum := sum_map_mul_toNat 1 (Action.disturbs (τ := τ)) as
  simp only [Nat.one_mul] at hsum
  show (as.map fun a => (N + 3) * a.acquires.toNat + a.disturbs.toNat).sum = _
  rw [List.sum_map_add, sum_map_mul_toNat, hsum]

omit [DecidableEq τ] in
theorem potential_initial : (World.initial τ).potential = 0 :=
  Finset.sum_eq_zero fun _ _ => rfl

/-- **Nobody spins**: the steps of a run are paid for by its calls, its spurious wake-ups and its
deadlines. -/
theorem run_steps_le (as : List (Action τ))
    (hrun : run World.step (World.initial τ) as = some s) :
    as.countP Action.finishes ≤ (Fintype.card τ + 3) * as.countP Action.acquires +
      as.countP Action.disturbs := by
  have hpays := run_countP_le World.step World.potential Action.finishes
    (Action.budget (Fintype.card τ)) (fun _ _ _ hstep => potential_step hstep) hrun
  rwa [potential_initial, Nat.zero_add, sum_budget] at hpays

/-- The numerals of `handedOn` name threads. -/
local instance handedOn_neZero : NeZero 3 := ⟨by decide⟩

/-- A writer and a reader wait behind a reader, and are served one after the other. -/
def handedOn : List (Action (Fin 3)) :=
  [.unlockShared 0, .notify 0 (some 1), .recheck 1, .unlock 1, .notify 1 none, .recheck 2,
    .unlockShared 2]

theorem run_steps_le_handedOn :
    ∃ s, run World.step (World.initial (Fin 3))
        ([.lockShared 0 false, .lock 1 false, .lockShared 2 false, .wake 2, .recheck 2] ++
          handedOn) = some s ∧
      8 ≤ (Fintype.card (Fin 3) + 3) * 3 + 1 := by
  have hrun : ∃ s, run World.step (World.initial (Fin 3))
      ([.lockShared 0 false, .lock 1 false, .lockShared 2 false, .wake 2, .recheck 2] ++
        handedOn) = some s := ⟨_, rfl⟩
  obtain ⟨s, hs⟩ := hrun
  exact ⟨s, hs, run_steps_le _ hs⟩

/-! ## Serving those who are inside -/

def Thread.waits (th : Thread) : Bool := th.awaitsWrite || th.awaitsRead

/-- No thread waits for the lock while it holds it. -/
def Calm (s : World τ) : Prop :=
  ∀ t, (s.thread t).waits = true → (s.thread t).shared = false ∧ (s.thread t).exclusive = false

/-- `th'` waits only if `th` does, and holds the same then. -/
def Thread.Stays (th th' : Thread) : Prop :=
  th'.waits = true → th.waits = true ∧ th'.shared = th.shared ∧ th'.exclusive = th.exclusive

omit [DecidableEq τ] [Fintype τ] in
theorem Calm.mono (h : Calm s) (hs : ∀ t, (s.thread t).Stays (s'.thread t)) : Calm s' := by
  intro t ht
  obtain ⟨hwaits, hshared, hexclusive⟩ := hs t ht
  rw [hshared, hexclusive]
  exact h t hwaits

omit [Fintype τ] in
theorem Calm.put (h : Calm s) (hth : (s.thread t).Stays th) : Calm (s.put t l th) := by
  refine h.mono fun u => ?_
  by_cases hut : u = t
  · subst hut
    rw [put_self]
    exact hth
  · rw [put_of_ne hut]
    exact fun hu => ⟨hu, rfl, rfl⟩

omit [Fintype τ] in
theorem Calm.writerTest {timed : Bool} (h : Calm s) (ht : (s.thread t).waits = true) :
    Calm (s.writerTest t l timed) := by
  unfold World.writerTest
  split_ifs
  · exact h.put nofun
  · exact h.put fun _ => ⟨ht, rfl, rfl⟩

omit [Fintype τ] in
theorem Calm.readerTest {timed : Bool} (h : Calm s) (ht : (s.thread t).waits = true) :
    Calm (s.readerTest t timed) := by
  unfold World.readerTest
  split_ifs
  · exact h.put nofun
  · exact h.put fun _ => ⟨ht, rfl, rfl⟩

theorem stays_wakeReader (th : Thread) : th.Stays th.wakeReader := by
  rcases th with ⟨pc, sh, ex⟩
  cases pc <;> exact fun h => ⟨h, rfl, rfl⟩

theorem not_waits_afterSection (o : Option Notification) (sh ex : Bool) :
    (Thread.waits ⟨afterSection o, sh, ex⟩) = false := by
  cases o <;> rfl

/-- Going on with a call, or giving the lock back, does not begin to wait. -/
theorem calm_step {a : Action τ} (h : Calm s) (ha : a.finishes = true)
    (hstep : s.step a = some s') : Calm s' := by
  cases step_cases hstep with
  | lock | tryLock | tryLockFailed | lockShared | tryLockShared | tryLockSharedFailed
  | wakeWriter | wakeReader | expireWriter | expireReader => cases ha
  | unlock hpc hx => exact h.put fun hwaits => by cases hwaits
  | unlockShared hpc hs | giveUpWriter hpc hbusy =>
    exact h.put fun hwaits => by simp [not_waits_afterSection] at hwaits
  | recheckWriter hpc => exact h.writerTest (by simp [Thread.waits, Thread.awaitsWrite, hpc])
  | giveUpReader hpc hbusy => exact h.put fun hwaits => by cases hwaits
  | recheckReader hpc => exact h.readerTest (by simp [Thread.waits, Thread.awaitsRead, hpc])
  | @notifyReaders t u hpc =>
    refine h.mono fun v => ?_
    dsimp only
    by_cases hv : v = t
    · subst hv
      rw [Function.update_self]
      exact fun hwaits => by cases hwaits
    · rw [Function.update_of_ne hv]
      exact stays_wakeReader _
  | notifyNobody hpc => exact h.put fun hwaits => by cases hwaits
  | @notifyWriter t v timed hpc hv =>
    refine h.mono fun u => ?_
    dsimp only
    by_cases hut : u = t
    · subst hut
      rw [Function.update_self]
      exact fun hwaits => by cases hwaits
    · rw [Function.update_of_ne hut]
      by_cases huv : u = v
      · subst huv
        rw [Function.update_self]
        exact fun _ => ⟨by simp [Thread.waits, Thread.awaitsWrite, hv], rfl, rfl⟩
      · rw [Function.update_of_ne huv]
        exact fun hu => ⟨hu, rfl, rfl⟩

omit [DecidableEq τ] in
/-- What the threads inside may still cost. -/
theorem potential_le (hinv : Inv s) (h : Calm s) :
    s.potential ≤ 2 * Fintype.card τ * (Fintype.card τ + 1) := by
  have hthread : ∀ t ∈ Finset.univ,
      (s.thread t).weight (Fintype.card τ) ≤ 2 * (Fintype.card τ + 1) := by
    intro t _
    have hcard : 1 ≤ Fintype.card τ := Fintype.card_pos_iff.2 ⟨t⟩
    have hshared := heldWeight_le (Fintype.card τ) (s.thread t).shared
    have hexclusive := heldWeight_le (Fintype.card τ) (s.thread t).exclusive
    by_cases hwaits : (s.thread t).waits = true
    · obtain ⟨hs, hx⟩ := h t hwaits
      cases hpc : (s.thread t).pc <;> simp [hpc, hs, hx] <;> omega
    · cases hpc : (s.thread t).pc with
      | idle =>
        simp [hpc]
        omega
      | notifying n =>
        -- A thread that holds the lock exclusively does not share it.
        have hone : (s.thread t).shared = false ∨ (s.thread t).exclusive = false := by
          by_contra hboth
          simp only [not_or, Bool.not_eq_false] at hboth
          have hpos := hinv.reader_pos hboth.1
          rw [hinv.excludes (hinv.active_of_exclusive hboth.2)] at hpos
          exact absurd hpos (Nat.lt_irrefl 0)
        rcases hone with hnone | hnone <;> simp [hpc, hnone] <;> omega
      | writerParked timed | writerWoken timed expired | readerParked timed
      | readerWoken timed expired =>
        simp [Thread.waits, Thread.awaitsWrite, Thread.awaitsRead, hpc] at hwaits
  have hsum := Finset.sum_le_card_nsmul Finset.univ _ _ hthread
  rw [Nat.nsmul_eq_mul, Finset.card_univ] at hsum
  rw [Nat.mul_comm 2, Nat.mul_assoc]
  exact hsum

/-- A pending notification can be sent. -/
theorem step_of_notifying {n : Notification} (hpc : (s.thread t).pc = .notifying n) :
    ∃ u s', s.step (.notify t u) = some s' := by
  cases n with
  | readersAllowed => exact ⟨none, _, by simp only [World.step, hpc]; rfl⟩
  | writerTurn =>
    by_cases hnone : ∀ v, (s.thread v).parkedWriter = false
    · exact ⟨none, _, by simp only [World.step, hpc]; rw [if_pos hnone]⟩
    · obtain ⟨v, hv⟩ := not_forall.1 hnone
      cases hpv : (s.thread v).pc with
      | writerParked timed => exact ⟨some v, _, by simp only [World.step, hpc, hpv]; rfl⟩
      | _ => simp [Thread.parkedWriter, hpv] at hv

/-- A woken thread can test its predicate. -/
theorem step_of_woken (ht : (s.thread t).woken = true) : ∃ s', s.step (.recheck t) = some s' := by
  cases hpc : (s.thread t).pc with
  | writerWoken timed expired =>
    simp only [World.step, hpc]
    split_ifs
    · exact ⟨_, rfl⟩
    · exact ⟨_, rfl⟩
  | readerWoken timed expired =>
    simp only [World.step, hpc]
    split_ifs
    · exact ⟨_, rfl⟩
    · exact ⟨_, rfl⟩
  | _ => simp [Thread.woken, hpc] at ht

/-- No step is left. -/
def Stuck (s : World τ) : Prop := ∀ a : Action τ, a.finishes = true → s.step a = none

theorem Stuck.notifies (h : Stuck s) (t : τ) : (s.thread t).notifies = false := by
  cases hpc : (s.thread t).pc with
  | notifying n =>
    obtain ⟨u, s', hstep⟩ := step_of_notifying hpc
    rw [h _ rfl] at hstep
    cases hstep
  | _ => simp [Thread.notifies, hpc]

theorem Stuck.woken (h : Stuck s) (t : τ) : (s.thread t).woken = false := by
  by_contra hwoken
  obtain ⟨s', hstep⟩ := step_of_woken (eq_true_of_ne_false hwoken)
  rw [h _ rfl] at hstep
  cases hstep

theorem Thread.idle_of {th : Thread} (hn : th.notifies = false) (hw : th.waits = false) :
    th.pc = .idle := by
  rcases th with ⟨pc, sh, ex⟩
  cases pc <;> simp_all [Thread.notifies, Thread.waits, Thread.awaitsWrite, Thread.awaitsRead]

/-- Who holds the lock does not wait, and could give it back. -/
theorem Stuck.holds_nothing (h : Stuck s) (hcalm : Calm s) (t : τ) :
    (s.thread t).shared = false ∧ (s.thread t).exclusive = false := by
  by_cases hwaits : (s.thread t).waits = true
  · exact hcalm t hwaits
  · have hpc := Thread.idle_of (h.notifies t) (Bool.not_eq_true _ ▸ hwaits)
    have hshared := h (.unlockShared t) rfl
    have hexclusive := h (.unlock t) rfl
    simp only [World.step, hpc, true_and] at hshared hexclusive
    split_ifs at hshared hexclusive with hs hx
    exact ⟨Bool.not_eq_true _ ▸ hs, Bool.not_eq_true _ ▸ hx⟩

/-- **When no step is left, nobody is inside.** -/
theorem Stuck.eq_initial (h : Stuck s) (hinv : Inv s) (hpromised : Promised s) (hcalm : Calm s) :
    s = World.initial τ := by
  have hheld := h.holds_nothing hcalm
  have hreaders : s.lock.activeReaders = 0 :=
    hinv.readers.trans (tally_eq_zero.2 fun t => (hheld t).1)
  have hactive : s.lock.writerActive = false := by
    have hcount := hinv.writer.trans (tally_eq_zero.2 fun t => (hheld t).2)
    cases hw : s.lock.writerActive with
    | false => rfl
    | true => simp [hw] at hcount
  -- Nobody is on the way to a parked writer, and so no writer is parked.
  have hawaits : ∀ t, (s.thread t).awaitsWrite = false := by
    intro t
    have hwoken := h.woken t
    by_cases hparked : (s.thread t).parkedWriter = true
    · obtain ⟨u, hu⟩ := hpromised.writer (writerMayEnter_iff.2 ⟨hactive, hreaders⟩) t hparked
      rw [Thread.wakesWriter_eq_false (h.notifies u) (h.woken u)] at hu
      cases hu
    · cases hpc : (s.thread t).pc <;>
        simp_all [Thread.parkedWriter, Thread.woken, Thread.awaitsWrite]
  have hwaiting : s.lock.waitingWriters = 0 := hinv.writers.trans (tally_eq_zero.2 hawaits)
  -- The readers may enter now.
  have hreads : ∀ t, (s.thread t).awaitsRead = false := by
    intro t
    have hwoken := h.woken t
    by_cases hparked : (s.thread t).parkedReader = true
    · obtain ⟨u, hu⟩ := hpromised.reader (readerMayEnter_iff.2 ⟨hactive, hwaiting⟩) t hparked
      rw [Thread.wakesReaders_eq_false (h.notifies u)] at hu
      cases hu
    · cases hpc : (s.thread t).pc <;>
        simp_all [Thread.parkedReader, Thread.woken, Thread.awaitsRead]
  have hthread : s.thread = fun _ => ⟨.idle, false, false⟩ := by
    funext t
    have hpc := Thread.idle_of (h.notifies t) (by simp [Thread.waits, hawaits t, hreads t])
    obtain ⟨hshared, hexclusive⟩ := hheld t
    cases hth : s.thread t
    simp_all
  rcases s with ⟨⟨readers, waiting, active⟩, thread⟩
  dsimp only at hreaders hwaiting hactive hthread
  rw [hreaders, hwaiting, hactive, hthread]
  rfl

/-- **Everyone who is inside is served.** -/
theorem reachable_drains (h : Reachable World.step (World.initial τ) s) (hcalm : Calm s)
    {as : List (Action τ)} (hfinishes : ∀ a ∈ as, a.finishes = true)
    (hrun : run World.step s as = some s') :
    as.length ≤ 2 * Fintype.card τ * (Fintype.card τ + 1) ∧
      (Stuck s' → s' = World.initial τ) := by
  have hboth : Inv s ∧ Promised s :=
    Reachable.invariant World.step (I := fun s => Inv s ∧ Promised s) h
      ⟨inv_initial, promised_initial⟩
      fun _ _ _ hI hstep => ⟨inv_step hI.1 hstep, promised_step hI.1 hI.2 hstep⟩
  have hlater : Inv s' ∧ Promised s' ∧ Calm s' :=
    run_invariant_along World.step (P := fun _ a => a.finishes = true)
      (I := fun s => Inv s ∧ Promised s ∧ Calm s)
      (fun _ _ _ hI ha hstep => ⟨inv_step hI.1 hstep, promised_step hI.1 hI.2.1 hstep,
        calm_step hI.2.2 ha hstep⟩)
      ⟨hboth.1, hboth.2, hcalm⟩ (along_of_forall World.step hfinishes) hrun
  refine ⟨?_, fun hstuck => hstuck.eq_initial hlater.1 hlater.2.1 hlater.2.2⟩
  exact Nat.le_trans (run_length_le World.step World.potential
    (fun _ _ _ ha hstep => potential_finishes ha hstep) hfinishes hrun)
    (potential_le hboth.1 hcalm)

theorem reachable_drains_handedOn :
    ∃ s s', run World.step (World.initial (Fin 3))
        [.lockShared 0 false, .lock 1 false, .lockShared 2 false] = some s ∧
      run World.step s handedOn = some s' ∧
      7 ≤ 2 * Fintype.card (Fin 3) * (Fintype.card (Fin 3) + 1) ∧
      (Stuck s' → s' = World.initial (Fin 3)) := by
  have hrun : ∃ s s', run World.step (World.initial (Fin 3))
        [.lockShared 0 false, .lock 1 false, .lockShared 2 false] = some s ∧
      run World.step s handedOn = some s' ∧
      (∀ t, (s.thread t).waits = true →
        (s.thread t).shared = false ∧ (s.thread t).exclusive = false) :=
    ⟨_, _, rfl, rfl, by decide⟩
  obtain ⟨s, s', hs, hs', hcalm⟩ := hrun
  exact ⟨s, s', hs, hs', reachable_drains ⟨_, hs⟩ hcalm (by decide) hs'⟩

end ReaderWriterLock

end EglUtil
