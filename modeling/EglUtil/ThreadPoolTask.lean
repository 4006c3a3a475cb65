import EglUtil.TaskFuture

/-!
# `ThreadPool`: the wrapper around a task

`submit` wraps the callable in a closure that runs it inside `try`, hands the result to the
promise, and in the handler hands over whatever was thrown. Storing the result can itself throw,
as it constructs a value inside the variant of the shared state, and such an emplacement leaves
the variant valueless. The handler's `set_exception` then finds an index other than 0, takes the
state for one that is already set, and throws `logic_error` out of the closure.

**Theorem (`runTask_delivers_iff`).** The wrapped task returns to `worker_loop` and its future
delivers the real outcome exactly if storing the result does not throw.

The closure's promise owns its shared state, and an exception is being handled where
`current_exception` is called, so `TaskPromise` passes both calls on to the shared state.
-/

namespace EglUtil

namespace ThreadPool

variable {α ε : Type*}

/-- A submitted callable: what invoking it gives, and what constructing a result inside the
shared state gives. A `void` result is stored as a tag, which cannot fail. -/
structure Callable (α ε : Type*) where
  invoke : Except (Thrown ε) α
  store : α → Except (Thrown ε) α

/-- The body of the `try` block: `promise.set_value(task())`. -/
def Callable.attempt (c : Callable α ε) (st : SharedTaskState α ε) :
    Except (Thrown ε) Unit × SharedTaskState α ε :=
  match c.invoke with
  | .ok v => st.setValue (c.store v)
  | .error e => (.error e, st)

/-- The closure: what it returns or lets escape, and the shared state it leaves. -/
def runTask (c : Callable α ε) (st : SharedTaskState α ε) :
    Except (Thrown ε) Unit × SharedTaskState α ε :=
  match c.attempt st with
  | (.ok (), st') => (.ok (), st')
  | (.error e, st') => st'.setException e

/-- What the future is to deliver: the value, or what the callable or storing its result threw. -/
def Callable.outcome (c : Callable α ε) : Except (Thrown ε) α := c.invoke.bind c.store

/-- The closure returns normally, and `get` on the future delivers the outcome. -/
def Delivers (c : Callable α ε) : Prop :=
  (runTask c .fresh).1 = .ok () ∧ (runTask c .fresh).2.get = some c.outcome

theorem runTask_of_throws {c : Callable α ε} {e : Thrown ε} (h : c.invoke = .error e) :
    runTask c .fresh = (.ok (), ⟨.exception e, false⟩) := by
  simp only [runTask, Callable.attempt, h]
  rfl

theorem runTask_of_stored {c : Callable α ε} {v w : α} (h : c.invoke = .ok v)
    (hstore : c.store v = .ok w) : runTask c .fresh = (.ok (), ⟨.value w, false⟩) := by
  simp only [runTask, Callable.attempt, h, hstore]
  rfl

/-- A result that cannot be stored leaves the variant valueless, and the handler throws. -/
theorem runTask_of_unstorable {c : Callable α ε} {v : α} {e : Thrown ε} (h : c.invoke = .ok v)
    (hstore : c.store v = .error e) : runTask c .fresh =
      (.error (.logicError "TaskPromise: result already set"), ⟨.valueless, false⟩) := by
  simp only [runTask, Callable.attempt, h, hstore]
  rfl

/-- **Exactly when a failing task is harmless.** -/
theorem runTask_delivers_iff (c : Callable α ε) :
    Delivers c ↔ ∀ v e, c.invoke = .ok v → c.store v ≠ .error e := by
  unfold Delivers Callable.outcome
  cases hinvoke : c.invoke with
  | error e =>
    rw [runTask_of_throws hinvoke]
    exact ⟨fun _ => nofun, fun _ => ⟨rfl, rfl⟩⟩
  | ok v =>
    cases hstore : c.store v with
    | ok w =>
      rw [runTask_of_stored hinvoke hstore]
      refine ⟨fun _ v' e hv' => ?_, fun _ => ⟨rfl, ?_⟩⟩
      · cases hv'
        rw [hstore]
        exact nofun
      · simp only [Except.bind, hstore]
        rfl
    | error e =>
      rw [runTask_of_unstorable hinvoke hstore]
      constructor
      · intro h
        cases h.1
      · intro h
        exact absurd hstore (h v e rfl)

/-- A callable that returns 7, whose copy into the shared state throws. -/
def unstorable : Callable Nat String := ⟨.ok 7, fun _ => .error (.user "copy failed")⟩

/-- The exception escapes into `worker_loop`, and `get` throws `bad_variant_access`. -/
theorem unstorable_kills_worker :
    ¬ Delivers unstorable ∧
    (runTask unstorable .fresh).1 = .error (.logicError "TaskPromise: result already set") ∧
    (runTask unstorable .fresh).2.get = some (.error .badVariantAccess) := by
  refine ⟨fun h => ?_, rfl, rfl⟩
  cases h.1

/-! ## A worker and its tasks -/

/-- `worker_loop` over the tasks it dequeues, each with its own shared state: an exception that
escapes from one of them ends the thread. -/
def workerRun : List (Callable α ε) → Except (Thrown ε) (List (SharedTaskState α ε))
  | [] => .ok []
  | c :: cs =>
    match runTask c .fresh with
    | (.ok (), st) => (workerRun cs).map (st :: ·)
    | (.error e, _) => .error e

/-- A worker gets through its tasks, and every future delivers, exactly if every result can be
stored. -/
theorem workerRun_delivers_iff (cs : List (Callable α ε)) :
    (∃ sts, workerRun cs = .ok sts ∧
      sts.map SharedTaskState.get = cs.map fun c => some c.outcome) ↔ ∀ c ∈ cs, Delivers c := by
  induction cs with
  | nil => exact ⟨fun _ => nofun, fun _ => ⟨[], rfl, rfl⟩⟩
  | cons c cs ih =>
    rw [List.forall_mem_cons, ← ih]
    simp only [workerRun, Delivers]
    rcases hrun : runTask c .fresh with ⟨_ | _, st⟩
    · constructor
      · intro hruns
        obtain ⟨sts, hsts, -⟩ := hruns
        cases hsts
      · intro hall
        obtain ⟨⟨hok, -⟩, -⟩ := hall
        cases hok
    · constructor
      · intro hruns
        obtain ⟨sts, hsts, hget⟩ := hruns
        cases hrest : workerRun cs with
        | error e =>
          rw [hrest] at hsts
          cases hsts
        | ok rest =>
          rw [hrest] at hsts
          cases hsts
          simp only [List.map_cons, List.cons.injEq] at hget
          exact ⟨⟨rfl, hget.1⟩, rest, rfl, hget.2⟩
      · intro hall
        obtain ⟨⟨-, hget⟩, rest, hrest, hgets⟩ := hall
        rw [hrest]
        refine ⟨st :: rest, rfl, ?_⟩
        rw [List.map_cons, List.map_cons, hgets, hget]

end ThreadPool

end EglUtil
