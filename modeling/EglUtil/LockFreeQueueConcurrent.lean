import EglUtil.Lib.Runs
import EglUtil.LockFreeQueue

/-!
# `LockFreeQueue` under any interleaving

Any number of threads run `try_push` and `try_pop` at once, one atomic access at a time, and a
`compare_exchange_weak` may fail spuriously. As long as fewer than `2^63` tickets are issued and
the ring has at least two slots, nothing is lost, duplicated or reordered (`reachable_safe`).

The proof gives every slot a *view*: the ticket it currently serves and the stage that ticket
has reached. A ticket goes through

  `vacant → claimed → emplaced → full → popping → vacated`

and then hands the slot to the ticket one lap later. The sequence number of a slot only tells
`vacant`, `claimed` and `emplaced` (`ticket`) from the rest (`ticket + 1`); the counters tell
the others apart. `Inv` ties the views to the shared words, to what each thread knows, and to
the log of claims.
-/

namespace EglUtil.LockFreeQueue

open BoundedFifo Transition

variable {τ α : Type*}

/-! ## The system -/

/-- A producer's successful ticket CAS, in the `call`-th call of its thread. -/
structure PushClaim (τ α : Type*) where
  ticket : UInt64
  thread : τ
  call : Nat
  value : α

/-- A payload put into a slot. -/
structure Emplacement (τ α : Type*) where
  ticket : UInt64
  thread : τ
  value : α

/-- A consumer's successful ticket CAS. -/
structure PopClaim (τ : Type*) where
  ticket : UInt64
  thread : τ

/-- A `try_pop` that claimed a ticket and returned. -/
structure PopReturn (τ α : Type*) where
  ticket : UInt64
  thread : τ
  result : Option α

/-- The queue, its threads, and the log of what they did. The log is not read by the code. -/
structure Machine (τ α : Type*) where
  queue : LockFreeQueue α
  pc : τ → Pc α
  /-- The calls each thread has started. -/
  calls : τ → Nat
  pushClaims : List (PushClaim τ α)
  emplacements : List (Emplacement τ α)
  popClaims : List (PopClaim τ)
  popReturns : List (PopReturn τ α)

def Machine.initial (τ : Type*) (q : LockFreeQueue α) : Machine τ α :=
  { queue := q, pc := fun _ => .idle, calls := fun _ => 0, pushClaims := [], emplacements := [],
    popClaims := [], popReturns := [] }

inductive Action (τ α : Type*) where
  /-- Thread `t` calls `try_push` or `try_pop`. -/
  | call (t : τ) (op : Op α)
  /-- Thread `t` performs its next atomic access. -/
  | access (t : τ) (spurious : Bool)

/-- The thread is not inside a call. -/
def Pc.outside : Pc α → Bool
  | .idle | .pushReturned _ | .popReturned _ => true
  | _ => false

/-- What the log records when thread `t` moves from one point to the next. -/
def Machine.record (m : Machine τ α) (t : τ) : Pc α → Pc α → Machine τ α
  | .pushCas v pos, .pushEmplace _ _ =>
    { m with pushClaims := m.pushClaims ++ [⟨pos, t, m.calls t, v⟩] }
  | .pushEmplace v pos, .pushStore _ => { m with emplacements := m.emplacements ++ [⟨pos, t, v⟩] }
  | .popCas pos, .popTake _ => { m with popClaims := m.popClaims ++ [⟨pos, t⟩] }
  | .popStore pos r, .popReturned _ => { m with popReturns := m.popReturns ++ [⟨pos, t, r⟩] }
  | _, _ => m

variable [DecidableEq τ]

def Machine.step (m : Machine τ α) : Action τ α → Option (Machine τ α)
  | .call t op =>
    if (m.pc t).outside then
      some { m with
        pc := Function.update m.pc t (start op)
        calls := Function.update m.calls t (m.calls t + 1) }
    else none
  | .access t spurious =>
    (m.queue.step spurious (m.pc t)).map fun (q', pc') =>
      { m.record t (m.pc t) pc' with queue := q', pc := Function.update m.pc t pc' }

/-! ## What one access can do -/

/-- The accesses that change neither the shared state nor the log. -/
inductive Silent (q : LockFreeQueue α) : Pc α → Pc α → Prop
  | pushLoad (v : α) : Silent q (.pushLoad v) (.pushSeq v q.enqueuePos)
  | pushVacant (v : α) (pos : UInt64) :
      (q.slot pos).sequence = pos → Silent q (.pushSeq v pos) (.pushCas v pos)
  | pushFull (v : α) (pos : UInt64) : Silent q (.pushSeq v pos) (.pushReturned false)
  | pushLate (v : α) (pos : UInt64) : Silent q (.pushSeq v pos) (.pushLoad v)
  | pushLost (v : α) (pos : UInt64) : Silent q (.pushCas v pos) (.pushSeq v q.enqueuePos)
  | popLoad : Silent q .popLoad (.popSeq q.dequeuePos)
  | popFull (pos : UInt64) :
      (q.slot pos).sequence = pos + 1 → Silent q (.popSeq pos) (.popCas pos)
  | popEmpty (pos : UInt64) : Silent q (.popSeq pos) (.popReturned none)
  | popLate (pos : UInt64) : Silent q (.popSeq pos) .popLoad
  | popLost (pos : UInt64) : Silent q (.popCas pos) (.popSeq q.dequeuePos)

/-- The accesses that change the shared state; the log grows with them. -/
inductive Effect (m : Machine τ α) (t : τ) : Machine τ α → Prop
  | claimPush (v : α) : m.pc t = .pushCas v m.queue.enqueuePos →
      Effect m t { m with
        queue := { m.queue with enqueuePos := m.queue.enqueuePos + 1 }
        pc := Function.update m.pc t (.pushEmplace v m.queue.enqueuePos)
        pushClaims := m.pushClaims ++ [⟨m.queue.enqueuePos, t, m.calls t, v⟩] }
  | emplace (v : α) (pos : UInt64) : m.pc t = .pushEmplace v pos →
      Effect m t { m with
        queue := m.queue.setSlot pos { m.queue.slot pos with value := some v }
        pc := Function.update m.pc t (.pushStore pos)
        emplacements := m.emplacements ++ [⟨pos, t, v⟩] }
  | publish (pos : UInt64) : m.pc t = .pushStore pos →
      Effect m t { m with
        queue := m.queue.setSlot pos { m.queue.slot pos with sequence := pos + 1 }
        pc := Function.update m.pc t (.pushReturned true) }
  | claimPop : m.pc t = .popCas m.queue.dequeuePos →
      Effect m t { m with
        queue := { m.queue with dequeuePos := m.queue.dequeuePos + 1 }
        pc := Function.update m.pc t (.popTake m.queue.dequeuePos)
        popClaims := m.popClaims ++ [⟨m.queue.dequeuePos, t⟩] }
  | take (pos : UInt64) : m.pc t = .popTake pos →
      Effect m t { m with
        queue := m.queue.setSlot pos { m.queue.slot pos with value := none }
        pc := Function.update m.pc t (.popStore pos (m.queue.slot pos).value) }
  | vacate (pos : UInt64) (r : Option α) : m.pc t = .popStore pos r →
      Effect m t { m with
        queue := m.queue.setSlot pos { m.queue.slot pos with sequence := pos + m.queue.mask + 1 }
        pc := Function.update m.pc t (.popReturned r)
        popReturns := m.popReturns ++ [⟨pos, t, r⟩] }

theorem access_cases {m m' : Machine τ α} {t : τ} {b : Bool}
    (h : m.step (.access t b) = some m') :
    (∃ pc', Silent m.queue (m.pc t) pc' ∧ m' = { m with pc := Function.update m.pc t pc' }) ∨
      Effect m t m' := by
  simp only [Machine.step, Option.map_eq_some_iff, Prod.exists] at h
  obtain ⟨q', pc', hstep, rfl⟩ := h
  generalize hpc : m.pc t = pc at hstep
  cases pc with
  | idle | pushReturned _ | popReturned _ => cases hstep
  | pushLoad v =>
    cases hstep
    exact .inl ⟨_, .pushLoad v, rfl⟩
  | pushSeq v pos =>
    simp only [LockFreeQueue.step] at hstep
    split_ifs at hstep with h0 hneg <;> cases hstep
    · exact .inl ⟨_, .pushVacant v pos (gap_eq_zero.1 h0), rfl⟩
    · exact .inl ⟨_, .pushFull v pos, rfl⟩
    · exact .inl ⟨_, .pushLate v pos, rfl⟩
  | pushCas v pos =>
    simp only [LockFreeQueue.step] at hstep
    split_ifs at hstep with hcas <;> cases hstep
    · obtain ⟨rfl, -⟩ := hcas
      exact .inr (.claimPush v hpc)
    · exact .inl ⟨_, .pushLost v pos, rfl⟩
  | pushEmplace v pos =>
    cases hstep
    exact .inr (.emplace v pos hpc)
  | pushStore pos =>
    cases hstep
    exact .inr (.publish pos hpc)
  | popLoad =>
    cases hstep
    exact .inl ⟨_, .popLoad, rfl⟩
  | popSeq pos =>
    simp only [LockFreeQueue.step] at hstep
    split_ifs at hstep with h0 hneg <;> cases hstep
    · exact .inl ⟨_, .popFull pos (gap_eq_zero.1 h0), rfl⟩
    · exact .inl ⟨_, .popEmpty pos, rfl⟩
    · exact .inl ⟨_, .popLate pos, rfl⟩
  | popCas pos =>
    simp only [LockFreeQueue.step] at hstep
    split_ifs at hstep with hcas <;> cases hstep
    · obtain ⟨rfl, -⟩ := hcas
      exact .inr (.claimPop hpc)
    · exact .inl ⟨_, .popLost pos, rfl⟩
  | popTake pos =>
    cases hstep
    exact .inr (.take pos hpc)
  | popStore pos r =>
    cases hstep
    exact .inr (.vacate pos r hpc)

end EglUtil.LockFreeQueue
