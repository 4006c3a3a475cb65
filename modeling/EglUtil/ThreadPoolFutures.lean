import EglUtil.ThreadPool
import EglUtil.ThreadPoolTask

/-!
# `ThreadPool`: the futures that `submit` returns

The pool with the shared states of its tasks. A task that a worker has taken runs the wrapper of
`submit`, which settles the shared state, and the closure is then destroyed with its promise. An
exception that escapes from the wrapper ends the process; there is no step from then on.

**Theorem (`reachable_serves`).** In every reachable state a future that is ready answers with
what its own callable returned or threw, and keeps that answer. When the workers have exited every
future is ready. And no future is ever stuck: as long as the results of the unfinished tasks can
be stored, the workers and the notifications that are under way can go on, with no help from the
threads outside, until it is ready.

A task here waits for nothing, in particular for no other future of the same pool.
-/

namespace EglUtil

namespace ThreadPool

open Transition Tally WeakOrder

variable {α ε ρ τ ω : Type*}

/-- The callable that is submitted. -/
def Action.submits : Action ρ τ ω → Option ρ
  | .submit _ _ run | .submitWithin _ _ run => some run
  | _ => none

/-- What the workers do, and the notifications that are under way. -/
def Action.serves : Action ρ τ ω → Bool
  | .notify _ _ | .notifyWithin _ _ | .workerLoop _ | .finish _ => true
  | _ => false

/-- `shared` is by ticket, and so is `submitted`, the callables that were accepted. -/
structure System (α ε τ ω : Type*) where
  world : World (Callable α ε) τ ω
  shared : Nat → SharedTaskState α ε
  submitted : List (Callable α ε)
  /-- An exception has escaped from `worker_loop`. -/
  terminated : Bool

namespace System

def initial (α ε τ ω : Type*) : System α ε τ ω :=
  ⟨World.initial (Callable α ε) τ ω, fun _ => .fresh, [], false⟩

variable [DecidableEq τ] [DecidableEq ω] [Fintype ω]
variable (H : HeapAlgorithms (QueuedTask (Callable α ε)))

/-- A step in which no task ends. The promise that `submit` makes before it takes the mutex is
gone again if the task is refused. -/
def move (s : System α ε τ ω) (a : Action (Callable α ε) τ ω) : Option (System α ε τ ω) :=
  (s.world.step H a).map fun world =>
    { s with
      world := world
      submitted :=
        if s.world.pool.accepted < world.pool.accepted then s.submitted ++ a.submits.toList
        else s.submitted }

/-- The task of worker `w` runs to its end. -/
def finish (s : System α ε τ ω) (w : ω) : Option (System α ε τ ω) :=
  match s.world.worker w with
  | .running task =>
    match runTask task.run (s.shared task.ticket) with
    | (.ok (), st) =>
      -- the closure is destroyed, and its promise abandons a state that is not set
      (s.world.step H (.finish w)).map fun world =>
        { s with world := world, shared := Function.update s.shared task.ticket st.abandon }
    | (.error _, st) =>
      some { s with shared := Function.update s.shared task.ticket st, terminated := true }
  | _ => none

def step (s : System α ε τ ω) (a : Action (Callable α ε) τ ω) : Option (System α ε τ ω) :=
  if s.terminated then none
  else
    match a with
    | .finish w => s.finish H w
    | a => s.move H a

/-! ## What a step can do -/

/-- The steps, with what held before. -/
inductive Step (s : System α ε τ ω) : Action (Callable α ε) τ ω → System α ε τ ω → Prop where
  | move {a : Action (Callable α ε) τ ω} {world : World (Callable α ε) τ ω}
      (hgo : s.terminated = false) (hfinish : ∀ w, a ≠ .finish w)
      (hstep : s.world.step H a = some world) : Step s a
        { s with
          world := world
          submitted :=
            if s.world.pool.accepted < world.pool.accepted then s.submitted ++ a.submits.toList
            else s.submitted }
  | finish {w : ω} {task : QueuedTask (Callable α ε)} {world : World (Callable α ε) τ ω}
      {st : SharedTaskState α ε} (hgo : s.terminated = false)
      (hpc : s.world.worker w = .running task)
      (hrun : runTask task.run (s.shared task.ticket) = (.ok (), st))
      (hstep : s.world.step H (.finish w) = some world) : Step s (.finish w)
        { s with world := world, shared := Function.update s.shared task.ticket st.abandon }
  | escape {w : ω} {task : QueuedTask (Callable α ε)} {e : Thrown ε}
      {st : SharedTaskState α ε} (hgo : s.terminated = false)
      (hpc : s.world.worker w = .running task)
      (hrun : runTask task.run (s.shared task.ticket) = (.error e, st)) : Step s (.finish w)
        { s with shared := Function.update s.shared task.ticket st, terminated := true }

variable {H} {s s' : System α ε τ ω}

theorem step_cases {a : Action (Callable α ε) τ ω} (h : s.step H a = some s') : Step H s a s' := by
  unfold System.step at h
  split_ifs at h with hgo
  rw [Bool.not_eq_true] at hgo
  cases a with
  | finish w =>
    simp only [System.finish] at h
    split at h
    · next task hpc =>
      split at h
      · next st hrun =>
        obtain ⟨world, hstep, rfl⟩ := Option.map_eq_some_iff.1 h
        exact .finish hgo hpc hrun hstep
      · next e st hrun =>
        cases h
        exact .escape hgo hpc hrun
    · cases h
  | _ =>
    obtain ⟨world, hstep, rfl⟩ := Option.map_eq_some_iff.1 h
    exact .move hgo (fun w hw => by cases hw) hstep

end System

/-! ## The task of a ticket -/

section World

variable {s s' : World ρ τ ω} {task : QueuedTask ρ}

/-- A worker has taken the task and is not through with it. -/
def WorkerPc.holds (task : QueuedTask ρ) : WorkerPc ρ → Prop
  | .running task' | .notifying task' => task' = task
  | _ => False

/-- The task was accepted: it is queued, with a worker, or done. -/
def World.Has (s : World ρ τ ω) (task : QueuedTask ρ) : Prop :=
  task ∈ s.pool.heap ∨ (∃ w, (s.worker w).holds task) ∨ task ∈ s.done

theorem holds_wake {pc : WorkerPc ρ} : pc.wake.holds task ↔ pc.holds task := by
  cases pc <;> rfl

variable [DecidableEq ω]

theorem putWorker_self {w : ω} {pc : WorkerPc ρ} : (s.putWorker w pc).worker w = pc := by
  simp only [World.putWorker, Function.update_self]

theorem putWorker_of_ne {w u : ω} {pc : WorkerPc ρ} (huw : u ≠ w) :
    (s.putWorker w pc).worker u = s.worker u := by
  simp only [World.putWorker, Function.update_of_ne huw]

theorem holds_putWorker {w u : ω} {pc : WorkerPc ρ}
    (h : ((s.putWorker w pc).worker u).holds task) :
    pc.holds task ∨ (s.worker u).holds task := by
  by_cases huw : u = w
  · rw [huw, putWorker_self] at h
    exact .inl h
  · rw [putWorker_of_ne huw] at h
    exact .inr h

/-- A worker that moves holds no task that it did not hold. -/
theorem World.Has.of_putWorker {w : ω} {pc : WorkerPc ρ} (h : (s.putWorker w pc).Has task)
    (hpc : pc.holds task → (s.worker w).holds task) : s.Has task := by
  rcases h with hheap | ⟨u, hu⟩ | hdone
  · exact .inl hheap
  · rcases holds_putWorker hu with hw | hold
    · exact .inr (.inl ⟨w, hpc hw⟩)
    · exact .inr (.inl ⟨u, hold⟩)
  · exact .inr (.inr hdone)

variable [Fintype ω]

theorem notifyOne_cases {u : Option ω} (h : s.notifyOne u = some s') :
    s' = s ∨ ∃ v, s' = s.putWorker v .contending := by
  cases u with
  | none =>
    simp only [World.notifyOne] at h
    split_ifs at h
    cases h
    exact .inl rfl
  | some v =>
    simp only [World.notifyOne] at h
    split_ifs at h
    cases h
    exact .inr ⟨v, rfl⟩

variable [DecidableEq τ] {H : HeapAlgorithms (QueuedTask ρ)}

omit [DecidableEq ω] [Fintype ω] [DecidableEq τ] in
theorem has_enqueue (hH : H.Correct runsLater) (hheap : IsHeap runsLater s.pool.heap)
    {priority : Int} {run : ρ} (h : task ∈ (s.pool.enqueue H priority run).heap) :
    s.Has task ∨ task.ticket = s.pool.accepted ∧ some run = some task.run := by
  obtain ⟨hperm, -⟩ := hH.push s.pool.heap
    ⟨priority, s.pool.nextSequence, run, s.pool.accepted⟩ hheap
  rcases List.mem_append.1 (hperm.mem_iff.1 h) with hold | hnew
  · exact .inl (.inl hold)
  · rw [List.mem_singleton.1 hnew]
    exact .inr ⟨rfl, rfl⟩

/-- An accepted task was accepted before the step, or is the one that the step submits. -/
theorem has_step (hH : H.Correct runsLater) (hinv : Inv s) {a : Action ρ τ ω}
    (hstep : s.step H a = some s') (h : s'.Has task) : s.Has task ∨
      s.pool.accepted < s'.pool.accepted ∧ task.ticket = s.pool.accepted ∧
        a.submits = some task.run := by
  have hidle : ∀ {w : ω}, (s.putWorker w .contending).Has task → s.Has task :=
    fun hput => hput.of_putWorker False.elim
  cases step_cases hstep with
  | submit priority run hpc hstop =>
    rcases h with hheap | hrest
    · exact (has_enqueue hH hinv.queue.heap hheap).imp_right (⟨Nat.lt_succ_self _, ·⟩)
    · exact .inl (.inr hrest)
  | @submitWithin w task' priority run hpc hstop =>
    rcases h with hheap | hrest
    · exact (has_enqueue hH hinv.queue.heap hheap).imp_right (⟨Nat.lt_succ_self _, ·⟩)
    · have hput : (s.putWorker w (.notifying task')).Has task := .inr hrest
      exact .inl (hput.of_putWorker fun hw => by rwa [hpc])
  | submitRefused | submitWithinRefused | dequeueNothing => exact .inl h
  | notifyNobody | join | shutdown => exact .inl h
  | notifyWorker => exact .inl (hidle h)
  | @notifyWithin w task' u s' hpc hs' =>
    have hput : (s.putWorker w (.running task')).Has task → s.Has task :=
      fun hput => hput.of_putWorker fun hw => by rwa [hpc]
    refine .inl (hput ?_)
    rcases notifyOne_cases hs' with rfl | ⟨v, rfl⟩
    · exact h
    · exact h.of_putWorker False.elim
  | notifyAll hpc =>
    rcases h with hheap | ⟨v, hv⟩ | hdone
    · exact .inl (.inl hheap)
    · exact .inl (.inr (.inl ⟨v, holds_wake.1 hv⟩))
    · exact .inl (.inr (.inr hdone))
  | wake hpc | park hpc | exit hpc => exact .inl (h.of_putWorker False.elim)
  | @dequeue w task' pool hpc hd hne =>
    obtain ⟨first, heap, hd', hperm, -, -⟩ := hinv.queue.dequeue hH hne
    rw [hd] at hd'
    cases hd'
    rcases h with hheap | ⟨u, hu⟩ | hdone
    · exact .inl (.inl (hperm.mem_iff.2 (List.mem_cons_of_mem _ hheap)))
    · rcases holds_putWorker hu with rfl | hold
      · exact .inl (.inl (hperm.mem_iff.2 List.mem_cons_self))
      · exact .inl (.inr (.inl ⟨u, hold⟩))
    · exact .inl (.inr (.inr hdone))
  | @finish w task' hpc =>
    rcases h with hheap | ⟨u, hu⟩ | hdone
    · exact .inl (.inl hheap)
    · exact .inl (hidle (w := w) (.inr (.inl ⟨u, hu⟩)))
    · have hmem : task ∈ s.done ++ [task'] := by simpa [World.done] using hdone
      rcases List.mem_append.1 hmem with hold | hnew
      · exact .inl (.inr (.inr hold))
      · rw [List.mem_singleton.1 hnew]
        exact .inl (.inr (.inl ⟨w, by rw [hpc]; rfl⟩))

theorem accepted_step {a : Action ρ τ ω} (hstep : s.step H a = some s') :
    s'.pool.accepted = s.pool.accepted ∨
      s'.pool.accepted = s.pool.accepted + 1 ∧ ∃ run, a.submits = some run := by
  cases step_cases hstep with
  | submit priority run | submitWithin priority run => exact .inr ⟨rfl, run, rfl⟩
  | notifyWithin u s' hpc hs' =>
    rw [notifyOne_pool hs']
    exact .inl rfl
  | dequeue hpc hd =>
    simp only [ThreadPool.dequeue, Option.map_eq_some_iff, Prod.mk.injEq] at hd
    obtain ⟨-, -, -, rfl⟩ := hd
    exact .inl rfl
  | _ => exact .inl rfl

theorem done_step {a : Action ρ τ ω} (hstep : s.step H a = some s')
    (hfinish : ∀ w, a ≠ .finish w) : s'.done = s.done := by
  cases step_cases hstep with
  | notifyWithin u s' hpc hs' =>
    rcases notifyOne_cases hs' with rfl | ⟨v, rfl⟩
    · rfl
    · rfl
  | finish => exact absurd rfl (hfinish _)
  | _ => rfl

omit [DecidableEq ω] [DecidableEq τ] in
/-- A task that is running is not done. -/
theorem Inv.copies_done (h : Inv s) {w : ω} (hpc : s.worker w = .running task) :
    copies task.ticket s.done = 0 := by
  have honce := h.queue.once task.ticket
  have hrun := h.run task.ticket
  have hpos : 0 < tally (WorkerPc.runs task.ticket) s.worker :=
    tally_pos (t := w) (by rw [hpc]; exact beq_self_eq_true _)
  split_ifs at honce <;> omega

end World

/-! ## The wrapper -/

/-- If the wrapper returns, its future delivers, and destroying its promise abandons nothing. -/
theorem runTask_ok {c : Callable α ε} {st : SharedTaskState α ε}
    (h : runTask c .fresh = (.ok (), st)) :
    st.abandon = st ∧ st.get = some c.outcome ∧ Delivers c := by
  have hdelivers (hget : st.get = some c.outcome) : Delivers c := by
    rw [Delivers, h]
    exact ⟨rfl, hget⟩
  cases hinvoke : c.invoke with
  | error e =>
    have hget : (⟨.exception e, false⟩ : SharedTaskState α ε).get = some c.outcome := by
      rw [Callable.outcome, hinvoke]
      rfl
    rw [runTask_of_throws hinvoke] at h
    cases h
    exact ⟨rfl, hget, hdelivers hget⟩
  | ok v =>
    cases hstore : c.store v with
    | error e =>
      rw [runTask_of_unstorable hinvoke hstore] at h
      cases h
    | ok v' =>
      have hget : (⟨.value v', false⟩ : SharedTaskState α ε).get = some c.outcome := by
        rw [Callable.outcome, hinvoke, Except.bind, hstore]
        rfl
      rw [runTask_of_stored hinvoke hstore] at h
      cases h
      exact ⟨rfl, hget, hdelivers hget⟩

namespace System

variable [DecidableEq τ] [DecidableEq ω] [Fintype ω]
variable {H : HeapAlgorithms (QueuedTask (Callable α ε))} {s s' : System α ε τ ω}

/-! ## The invariant -/

/-- A shared state is untouched until its task has returned, and then it is what the wrapper made
of a fresh one. -/
structure Kept (s : System α ε τ ω) : Prop where
  inv : Inv s.world
  length : s.submitted.length = s.world.pool.accepted
  callable : ∀ task, s.world.Has task → s.submitted[task.ticket]? = some task.run
  returned : ∀ task ∈ s.world.done, runTask task.run .fresh = (.ok (), s.shared task.ticket)
  fresh : s.terminated = false → ∀ k, copies k s.world.done = 0 → s.shared k = .fresh
  escaped : s.terminated = true →
    ∃ w task, s.world.worker w = .running task ∧ ¬ Delivers task.run

omit [DecidableEq τ] [DecidableEq ω] in
theorem kept_initial : Kept (initial α ε τ ω) where
  inv := inv_initial
  length := rfl
  callable := by
    rintro task (hheap | ⟨w, hw⟩ | hdone)
    · cases hheap
    · exact hw.elim
    · cases hdone
  returned := by
    intro task hmem
    cases hmem
  fresh := fun _ _ _ => rfl
  escaped := by
    intro h
    cases h

theorem Kept.move [Nonempty ω] (hH : H.Correct runsLater) (h : Kept s)
    {a : Action (Callable α ε) τ ω} {world : World (Callable α ε) τ ω}
    (hgo : s.terminated = false) (hfinish : ∀ w, a ≠ .finish w)
    (hstep : s.world.step H a = some world) : Kept { s with
      world := world
      submitted :=
        if s.world.pool.accepted < world.pool.accepted then s.submitted ++ a.submits.toList
        else s.submitted } where
  inv := inv_step hH h.inv hstep
  length := by
    rcases accepted_step hstep with hsame | ⟨hnew, run, hrun⟩
    · simp only [hsame, Nat.lt_irrefl, if_false]
      exact h.length
    · simp only [hnew, Nat.lt_succ_self, if_true, hrun]
      simp [h.length]
  callable := by
    intro task hhas
    rcases has_step hH h.inv hstep hhas with hold | ⟨hlt, hticket, hsubmits⟩
    · have hcallable := h.callable task hold
      dsimp only
      split_ifs
      · exact List.getElem?_append_left (List.getElem?_eq_some_iff.1 hcallable).1 ▸ hcallable
      · exact hcallable
    · dsimp only
      rw [if_pos hlt, hsubmits, hticket, ← h.length]
      simp
  returned := by
    intro task hmem
    rw [done_step hstep hfinish] at hmem
    exact h.returned task hmem
  fresh := by
    intro _ k hk
    rw [done_step hstep hfinish] at hk
    exact h.fresh hgo k hk
  escaped := by
    intro hterminated
    rw [hgo] at hterminated
    cases hterminated

omit [DecidableEq τ] [DecidableEq ω] in
/-- A task that is done is not the one that runs. -/
theorem Kept.ticket_ne (h : Kept s) {w : ω} {task other : QueuedTask (Callable α ε)}
    (hpc : s.world.worker w = .running task) (hmem : other ∈ s.world.done) :
    other.ticket ≠ task.ticket := by
  intro heq
  have hpos := copies_pos hmem
  rw [heq, h.inv.copies_done hpc] at hpos
  exact Nat.lt_irrefl 0 hpos

theorem Kept.finish [Nonempty ω] (hH : H.Correct runsLater) (h : Kept s) {w : ω}
    {task : QueuedTask (Callable α ε)} {world : World (Callable α ε) τ ω}
    {st : SharedTaskState α ε} (hgo : s.terminated = false)
    (hpc : s.world.worker w = .running task)
    (hrun : runTask task.run (s.shared task.ticket) = (.ok (), st))
    (hstep : s.world.step H (.finish w) = some world) : Kept
      { s with world := world, shared := Function.update s.shared task.ticket st.abandon } := by
  rw [h.fresh hgo _ (h.inv.copies_done hpc)] at hrun
  obtain ⟨habandon, -, -⟩ := runTask_ok hrun
  have hworld : world.pool = s.world.pool ∧ world.done = s.world.done ++ [task] := by
    simp only [World.step, hpc, Option.some.injEq] at hstep
    rw [← hstep]
    exact ⟨rfl, by simp [World.done]⟩
  rw [habandon]
  refine ⟨inv_step hH h.inv hstep, ?_, fun other hhas => ?_, fun other hmem => ?_,
    fun _ k hk => ?_, fun hterminated => ?_⟩
  · rw [hworld.1]
    exact h.length
  · rcases has_step hH h.inv hstep hhas with hold | ⟨hlt, -⟩
    · exact h.callable other hold
    · rw [hworld.1] at hlt
      exact absurd hlt (Nat.lt_irrefl _)
  · rw [hworld.2] at hmem
    rcases List.mem_append.1 hmem with hold | hnew
    · dsimp only
      rw [Function.update_of_ne (h.ticket_ne hpc hold)]
      exact h.returned other hold
    · rw [List.mem_singleton.1 hnew]
      dsimp only
      rw [Function.update_self]
      exact hrun
  · rw [hworld.2, copies_append, copies_cons] at hk
    have hne : k ≠ task.ticket := by
      rintro rfl
      simp at hk
    dsimp only
    rw [Function.update_of_ne hne]
    exact h.fresh hgo k (by omega)
  · rw [hgo] at hterminated
    cases hterminated

omit [DecidableEq τ] [DecidableEq ω] in
theorem Kept.escape (h : Kept s) {w : ω} {task : QueuedTask (Callable α ε)} {e : Thrown ε}
    {st : SharedTaskState α ε} (hgo : s.terminated = false)
    (hpc : s.world.worker w = .running task)
    (hrun : runTask task.run (s.shared task.ticket) = (.error e, st)) : Kept
      { s with shared := Function.update s.shared task.ticket st, terminated := true } where
  inv := h.inv
  length := h.length
  callable := h.callable
  returned := by
    intro other hmem
    dsimp only
    rw [Function.update_of_ne (h.ticket_ne hpc hmem)]
    exact h.returned other hmem
  fresh := by
    intro hterminated
    cases hterminated
  escaped := by
    rw [h.fresh hgo _ (h.inv.copies_done hpc)] at hrun
    refine fun _ => ⟨w, task, hpc, fun hdelivers => ?_⟩
    have hok := hdelivers.1
    rw [hrun] at hok
    cases hok

/-- **One step.** -/
theorem kept_step [Nonempty ω] (hH : H.Correct runsLater) {a : Action (Callable α ε) τ ω}
    (h : Kept s) (hstep : s.step H a = some s') : Kept s' := by
  cases step_cases hstep with
  | move hgo hfinish hworld => exact h.move hH hgo hfinish hworld
  | finish hgo hpc hrun hworld => exact h.finish hH hgo hpc hrun hworld
  | escape hgo hpc hrun => exact h.escape hgo hpc hrun

/-! ## Answers -/

omit [DecidableEq τ] [DecidableEq ω] in
/-- A task that is done has an answer, and it is the outcome of the callable with its ticket. -/
theorem Kept.get_of_done (h : Kept s) {task : QueuedTask (Callable α ε)}
    (hmem : task ∈ s.world.done) : s.submitted[task.ticket]? = some task.run ∧
      (s.shared task.ticket).get = some task.run.outcome := by
  obtain ⟨-, hget, -⟩ := runTask_ok (h.returned task hmem)
  exact ⟨h.callable task (.inr (.inr hmem)), hget⟩

omit [DecidableEq τ] [DecidableEq ω] in
/-- A future that is ready belongs to a task that is done. -/
theorem Kept.done_of_get (h : Kept s) (hgo : s.terminated = false) {k : Nat}
    (hready : (s.shared k).get ≠ none) : ∃ task ∈ s.world.done, task.ticket = k := by
  by_contra hnone
  have hzero : copies k s.world.done = 0 := by
    rw [copies, List.countP_eq_zero]
    intro task hmem hticket
    exact hnone ⟨task, hmem, beq_iff_eq.1 hticket⟩
  rw [h.fresh hgo k hzero] at hready
  exact hready rfl

omit [DecidableEq τ] [DecidableEq ω] in
theorem Kept.answer (h : Kept s) (hgo : s.terminated = false) {k : Nat} {c : Callable α ε}
    (hc : s.submitted[k]? = some c) {r : Except (Thrown ε) α} (hr : (s.shared k).get = some r) :
    r = c.outcome := by
  obtain ⟨task, hmem, rfl⟩ := h.done_of_get hgo (by rw [hr]; exact Option.some_ne_none r)
  obtain ⟨hcallable, hget⟩ := h.get_of_done hmem
  rw [hc] at hcallable
  cases hcallable
  rw [hr] at hget
  exact Option.some.inj hget

theorem done_mono {a : Action (Callable α ε) τ ω} (hstep : s.step H a = some s') :
    s.world.done ⊆ s'.world.done := by
  cases step_cases hstep with
  | move hgo hfinish hworld =>
    dsimp only
    rw [done_step hworld hfinish]
    exact List.Subset.refl _
  | @finish w task world st hgo hpc hrun hworld =>
    simp only [World.step, hpc, Option.some.injEq] at hworld
    rw [← hworld]
    intro other hmem
    simp only [World.done, List.map_append] at hmem ⊢
    exact List.mem_append_left _ hmem
  | escape => exact List.Subset.refl _

/-- A step takes no answer back. -/
theorem Kept.get_step [Nonempty ω] (hH : H.Correct runsLater) (h : Kept s)
    {a : Action (Callable α ε) τ ω} (hstep : s.step H a = some s') {k : Nat}
    {r : Except (Thrown ε) α} (hr : (s.shared k).get = some r) : (s'.shared k).get = some r := by
  have hgo : s.terminated = false := by
    cases step_cases hstep with
    | move hgo | finish hgo | escape hgo => exact hgo
  obtain ⟨task, hmem, rfl⟩ := h.done_of_get hgo (by rw [hr]; exact Option.some_ne_none r)
  rw [← hr, (h.get_of_done hmem).2]
  exact ((kept_step hH h hstep).get_of_done (done_mono hstep hmem)).2

/-! ## Nobody is stuck -/

/-- The process runs, and what is not ready yet can be stored. -/
structure Good (s : System α ε τ ω) : Prop where
  kept : Kept s
  running : s.terminated = false
  storable : ∀ (k : Nat) (c : Callable α ε), s.submitted[k]? = some c →
    (s.shared k).get = none → Delivers c

omit [DecidableEq τ] [DecidableEq ω] in
theorem Good.delivers (h : Good s) {w : ω} {task : QueuedTask (Callable α ε)}
    (hpc : s.world.worker w = .running task) : Delivers task.run := by
  have hfresh := h.kept.fresh h.running _ (h.kept.inv.copies_done hpc)
  refine h.storable task.ticket task.run (h.kept.callable task (.inr (.inl ⟨w, ?_⟩))) ?_
  · rw [hpc]
    rfl
  · rw [hfresh]
    rfl

theorem Good.step [Nonempty ω] (hH : H.Correct runsLater) (h : Good s)
    {a : Action (Callable α ε) τ ω} (ha : a.serves = true) (hstep : s.step H a = some s') :
    Good s' ∧ s'.submitted = s.submitted := by
  have hkept := kept_step hH h.kept hstep
  have hmain : s'.terminated = false ∧ s'.submitted = s.submitted := by
    cases step_cases hstep with
    | move hgo hfinish hworld =>
      refine ⟨hgo, ?_⟩
      rcases accepted_step hworld with hsame | ⟨-, run, hrun⟩
      · simp only [hsame, Nat.lt_irrefl, if_false]
      · cases a <;> cases ha <;> cases hrun
    | finish hgo => exact ⟨hgo, rfl⟩
    | escape hgo hpc hrun =>
      have hok := (h.delivers hpc).1
      rw [h.kept.fresh hgo _ (h.kept.inv.copies_done hpc)] at hrun
      rw [hrun] at hok
      cases hok
  refine ⟨⟨hkept, hmain.1, fun k c hc hnone => ?_⟩, hmain.2⟩
  rw [hmain.2] at hc
  refine h.storable k c hc (Option.eq_none_iff_forall_ne_some.2 fun r hr => ?_)
  rw [h.kept.get_step hH hstep hr] at hnone
  cases hnone

/-- The workers and the notifications under way lead from `s` to `s'`. -/
def Leads (H : HeapAlgorithms (QueuedTask (Callable α ε))) (s s' : System α ε τ ω) : Prop :=
  ∃ as, (∀ a ∈ as, a.serves = true) ∧ run (System.step H) s as = some s'

theorem Leads.refl (s : System α ε τ ω) : Leads H s s :=
  ⟨[], fun _ ha => (List.not_mem_nil ha).elim, rfl⟩

theorem Leads.trans {s'' : System α ε τ ω} (h : Leads H s s') (h' : Leads H s' s'') :
    Leads H s s'' := by
  obtain ⟨as, has, hrun⟩ := h
  obtain ⟨as', has', hrun'⟩ := h'
  refine ⟨as ++ as', fun a ha => ?_, ?_⟩
  · rcases List.mem_append.1 ha with ha | ha
    · exact has a ha
    · exact has' a ha
  · rw [run_append, hrun, Option.bind_some, hrun']

theorem leads_step {a : Action (Callable α ε) τ ω} (ha : a.serves = true)
    (hstep : s.step H a = some s') : Leads H s s' := by
  refine ⟨[a], fun b hb => ?_, ?_⟩
  · rw [List.mem_singleton.1 hb]
    exact ha
  · rw [run_cons, hstep]
    rfl

theorem Good.leads [Nonempty ω] (hH : H.Correct runsLater) (h : Good s) (hleads : Leads H s s') :
    Good s' ∧ s'.submitted = s.submitted := by
  obtain ⟨as, has, hrun⟩ := hleads
  refine run_invariant_along (System.step H)
    (I := fun t => Good t ∧ t.submitted = s.submitted) (fun _ _ _ hI ha hstep => ?_)
    ⟨h, rfl⟩ (along_of_forall (System.step H) has) hrun
  obtain ⟨hgood, hsame⟩ := hI.1.step hH ha hstep
  exact ⟨hgood, hsame.trans hI.2⟩

/-- A worker that runs a task comes back for the next one, and the task is done. -/
theorem Good.exists_finish (h : Good s) {w : ω} {task : QueuedTask (Callable α ε)}
    (hpc : s.world.worker w = .running task) : ∃ s', Leads H s s' ∧
      s'.world.worker w = .contending ∧ s'.world.pool = s.world.pool ∧
      (s'.shared task.ticket).get ≠ none := by
  have hok := (h.delivers hpc).1
  have hfresh := h.kept.fresh h.running _ (h.kept.inv.copies_done hpc)
  obtain ⟨st, hst⟩ : ∃ st, runTask task.run .fresh = (.ok (), st) :=
    ⟨_, Prod.ext hok rfl⟩
  obtain ⟨habandon, hget, -⟩ := runTask_ok hst
  have hworld : s.world.step H (.finish w) = some { s.world.putWorker w .contending with
      finished := s.world.finished ++ [(w, task)] } := by
    simp only [World.step, hpc]
  have hstep : s.step H (.finish w) = some { s with
      world := { s.world.putWorker w .contending with
        finished := s.world.finished ++ [(w, task)] }
      shared := Function.update s.shared task.ticket st } := by
    simp only [System.step, h.running, Bool.false_eq_true, if_false, System.finish, hpc, hfresh,
      hst, hworld, Option.map_some, habandon]
  refine ⟨_, leads_step rfl hstep, ?_, rfl, ?_⟩
  · simp [World.putWorker]
  · dsimp only
    rw [Function.update_self, hget]
    exact Option.some_ne_none _

theorem step_of_world {a : Action (Callable α ε) τ ω} {world : World (Callable α ε) τ ω}
    (hgo : s.terminated = false) (hfinish : ∀ w, a ≠ .finish w)
    (hworld : s.world.step H a = some world)
    (hsame : world.pool.accepted = s.world.pool.accepted) :
    s.step H a = some { s with world := world } := by
  have hmove : s.step H a = s.move H a := by
    unfold System.step
    rw [hgo, if_neg Bool.false_ne_true]
    cases a with
    | finish w => exact absurd rfl (hfinish w)
    | _ => rfl
  rw [hmove, System.move, hworld, Option.map_some, hsame, if_neg (Nat.lt_irrefl _)]

/-- A worker inside a task notifies, and goes on with the task. -/
theorem Good.exists_notify (h : Good s) {w : ω} {task : QueuedTask (Callable α ε)}
    (hpc : s.world.worker w = .notifying task) : ∃ s', Leads H s s' ∧
      s'.world.worker w = .running task ∧ s'.world.pool = s.world.pool := by
  have hself : (s.world.putWorker w (.running task)).worker w = .running task := putWorker_self
  by_cases hparked : ∃ v, ((s.world.putWorker w (.running task)).worker v).isParked = true
  · obtain ⟨v, hv⟩ := hparked
    have hvw : w ≠ v := by
      rintro rfl
      rw [hself] at hv
      cases hv
    have hworld : s.world.step H (.notifyWithin w (some v)) =
        some ((s.world.putWorker w (.running task)).putWorker v .contending) := by
      simp only [World.step, hpc, World.notifyOne, hv, if_true]
    exact ⟨_, leads_step rfl (step_of_world h.running (fun w hw => by cases hw) hworld rfl),
      (putWorker_of_ne hvw).trans hself, rfl⟩
  · have hnone : ∀ v, ((s.world.putWorker w (.running task)).worker v).isParked = false := by
      intro v
      by_contra hv
      exact hparked ⟨v, Bool.not_eq_false _ ▸ hv⟩
    have hworld : s.world.step H (.notifyWithin w none) =
        some (s.world.putWorker w (.running task)) := by
      simp only [World.step, hpc, World.notifyOne]
      rw [if_pos hnone]
    exact ⟨_, leads_step rfl (step_of_world h.running (fun w hw => by cases hw) hworld rfl), hself,
      rfl⟩

/-- A worker that holds a task gets through it. -/
theorem Good.exists_done [Nonempty ω] (hH : H.Correct runsLater) (h : Good s) {w : ω}
    {task : QueuedTask (Callable α ε)} (hpc : (s.world.worker w).holds task) :
    ∃ s', Leads H s s' ∧ s'.world.worker w = .contending ∧ s'.world.pool = s.world.pool ∧
      (s'.shared task.ticket).get ≠ none := by
  cases hw : s.world.worker w with
  | running task' =>
    rw [hw] at hpc
    cases hpc
    exact h.exists_finish hw
  | notifying task' =>
    rw [hw] at hpc
    cases hpc
    obtain ⟨t, hleads, ht, hpool⟩ := h.exists_notify hw
    obtain ⟨s', hleads', hs', hpool', hget⟩ := (h.leads hH hleads).1.exists_finish ht
    exact ⟨s', hleads.trans hleads', hs', hpool'.trans hpool, hget⟩
  | _ =>
    rw [hw] at hpc
    exact hpc.elim

/-- While a task is queued, a worker comes to the mutex. -/
theorem Good.exists_contending [Nonempty ω] (hH : H.Correct runsLater) (h : Good s)
    (hne : s.world.pool.heap ≠ []) :
    ∃ s' w, Leads H s s' ∧ s'.world.worker w = .contending ∧ s'.world.pool = s.world.pool := by
  have hawake (w : ω) (hw : (s.world.worker w).isAwake = true) :
      ∃ s' w, Leads H s s' ∧ s'.world.worker w = .contending ∧ s'.world.pool = s.world.pool := by
    cases hpc : s.world.worker w with
    | contending => exact ⟨s, w, .refl s, hpc, rfl⟩
    | running task | notifying task =>
      obtain ⟨s', hleads, hs', hpool, -⟩ := h.exists_done hH (w := w) (by rw [hpc]; rfl)
      exact ⟨s', w, hleads, hs', hpool⟩
    | parked | exited =>
      rw [hpc] at hw
      cases hw
  rcases h.kept.inv.awake hne with ⟨w, hw⟩ | ⟨t, ht⟩
  · exact hawake w hw
  · by_cases hparked : ∃ u, (s.world.worker u).isParked = true
    · obtain ⟨u, hu⟩ := hparked
      have hworld : s.world.step H (.notify t (some u)) =
          some ((s.world.putClient t .idle).putWorker u .contending) := by
        simp only [World.step, ht, if_true, World.notifyOne, World.putClient, hu]
      exact ⟨_, u, leads_step rfl (step_of_world h.running (fun w hw => by cases hw) hworld rfl),
        putWorker_self, rfl⟩
    · obtain ⟨w, hw⟩ := h.kept.inv.exists_awake (fun u => by
        by_contra hu
        exact hparked ⟨u, Bool.not_eq_false _ ▸ hu⟩) hne
      exact hawake w hw

theorem Good.exists_dequeue [Nonempty ω] (hH : H.Correct runsLater) (h : Good s)
    (hne : s.world.pool.heap ≠ []) :
    ∃ s', Leads H s s' ∧ s'.world.pool.heap.length < s.world.pool.heap.length := by
  obtain ⟨t, w, hleads, hw, hpool⟩ := h.exists_contending hH hne
  have hgood := (h.leads hH hleads).1
  rw [← hpool] at hne ⊢
  obtain ⟨task, heap, hd, hperm, -, -⟩ := hgood.kept.inv.queue.dequeue hH hne
  have hempty : t.world.pool.heap.isEmpty = false := List.isEmpty_eq_false_iff.2 hne
  have hworld : t.world.step H (.workerLoop w) = some { t.world.putWorker w (.running task) with
      pool := { t.world.pool with heap := heap }
      dequeued := t.world.dequeued ++ [(w, task)] } := by
    simp only [World.step, hw, World.loop, hempty, hd, Bool.false_eq_true, and_false, if_false]
  refine ⟨_, hleads.trans (leads_step rfl
    (step_of_world hgood.running (fun w hw => by cases hw) hworld rfl)), ?_⟩
  rw [hperm.length_eq, List.length_cons]
  exact Nat.lt_succ_self _

/-- The workers empty the queue. -/
theorem Good.exists_drain [Nonempty ω] (hH : H.Correct runsLater) (h : Good s) :
    ∃ s', Leads H s s' ∧ s'.world.pool.heap = [] := by
  induction hn : s.world.pool.heap.length using Nat.strongRecOn generalizing s with
  | ind n ih =>
    by_cases hne : s.world.pool.heap = []
    · exact ⟨s, .refl s, hne⟩
    · obtain ⟨t, hleads, hlt⟩ := h.exists_dequeue hH hne
      obtain ⟨s', hleads', hs'⟩ := ih _ (hn ▸ hlt) (h.leads hH hleads).1 rfl
      exact ⟨s', hleads.trans hleads', hs'⟩

omit [DecidableEq τ] [DecidableEq ω] in
/-- The task of a ticket that is not queued any more is with a worker, or done. -/
theorem Kept.exists_holds (h : Kept s) (hempty : s.world.pool.heap = []) {k : Nat}
    (hk : k < s.world.pool.accepted) : (∃ task ∈ s.world.done, task.ticket = k) ∨
      ∃ w task, (s.world.worker w).holds task ∧ task.ticket = k := by
  have honce := h.inv.queue.once k
  have hrun := h.inv.run k
  rw [hempty, if_pos hk] at honce
  have hzero : copies k ([] : List (QueuedTask (Callable α ε))) = 0 := rfl
  by_cases hdone : copies k s.world.done = 0
  · right
    have hpos : tally (WorkerPc.runs k) s.world.worker ≠ 0 := by omega
    rw [Ne, tally_eq_zero, not_forall] at hpos
    obtain ⟨w, hw⟩ := hpos
    rw [Bool.not_eq_false] at hw
    cases hpc : s.world.worker w with
    | running task | notifying task =>
      rw [hpc] at hw
      exact ⟨w, task, by rw [hpc]; rfl, beq_iff_eq.1 hw⟩
    | _ =>
      rw [hpc] at hw
      cases hw
  · left
    obtain ⟨task, hmem, hticket⟩ := List.countP_pos_iff.1 (Nat.pos_of_ne_zero hdone)
    exact ⟨task, hmem, beq_iff_eq.1 hticket⟩

/-- **Nobody is stuck.** -/
theorem Good.exists_ready [Nonempty ω] (hH : H.Correct runsLater) (h : Good s) {k : Nat}
    {c : Callable α ε} (hc : s.submitted[k]? = some c) :
    ∃ s', Leads H s s' ∧ (s'.shared k).get = some c.outcome := by
  obtain ⟨t, hleads, hempty⟩ := h.exists_drain hH
  obtain ⟨hgood, hsame⟩ := h.leads hH hleads
  have hready (s' : System α ε τ ω) (hleads' : Leads H t s') (hget : (s'.shared k).get ≠ none) :
      ∃ s', Leads H s s' ∧ (s'.shared k).get = some c.outcome := by
    obtain ⟨hgood', hsame'⟩ := hgood.leads hH hleads'
    obtain ⟨r, hr⟩ := Option.ne_none_iff_exists'.1 hget
    refine ⟨s', hleads.trans hleads', ?_⟩
    rw [hr, hgood'.kept.answer hgood'.running (by rw [hsame', hsame, hc]) hr]
  have hk : k < t.world.pool.accepted := by
    rw [← hgood.kept.length, hsame]
    exact (List.getElem?_eq_some_iff.1 hc).1
  rcases hgood.kept.exists_holds hempty hk with ⟨task, hmem, rfl⟩ | ⟨w, task, hw, rfl⟩
  · refine hready t (.refl t) ?_
    rw [(hgood.kept.get_of_done hmem).2]
    exact Option.some_ne_none _
  · obtain ⟨s', hleads', -, -, hget⟩ := hgood.exists_done hH hw
    exact hready s' hleads' hget

/-! ## The theorem -/

/-- What a caller of `submit` may rely on in state `s`. -/
structure Serves (H : HeapAlgorithms (QueuedTask (Callable α ε))) (s : System α ε τ ω) : Prop where
  /-- A task that is done has answered its future. -/
  done : ∀ task ∈ s.world.done, s.submitted[task.ticket]? = some task.run ∧
    (s.shared task.ticket).get = some task.run.outcome
  /-- A future that is ready answers for its own callable. -/
  answer : s.terminated = false → ∀ (k : Nat) (c : Callable α ε), s.submitted[k]? = some c →
    ∀ r, (s.shared k).get = some r → r = c.outcome
  /-- It goes on to, whatever happens. -/
  kept : ∀ (k : Nat) (r : Except (Thrown ε) α), (s.shared k).get = some r →
    ∀ as s', run (System.step H) s as = some s' → (s'.shared k).get = some r
  /-- The process is ended only by a result that cannot be stored. -/
  escaped : s.terminated = true →
    ∃ w task, s.world.worker w = .running task ∧ ¬ Delivers task.run
  /-- When the workers have exited every future is ready. -/
  drained : s.terminated = false → (∀ w, s.world.worker w = .exited) →
    ∀ (k : Nat) (c : Callable α ε), s.submitted[k]? = some c →
      (s.shared k).get = some c.outcome
  /-- The workers can make every future ready, without a step of the threads outside. -/
  served : s.terminated = false →
    (∀ (k : Nat) (c : Callable α ε), s.submitted[k]? = some c → (s.shared k).get = none →
      Delivers c) →
    ∀ (k : Nat) (c : Callable α ε), s.submitted[k]? = some c →
      ∃ as s', (∀ a ∈ as, a.serves = true) ∧ run (System.step H) s as = some s' ∧
        (s'.shared k).get = some c.outcome

omit [DecidableEq τ] [DecidableEq ω] in
theorem Kept.drained [Nonempty ω] (h : Kept s) (hall : ∀ w, s.world.worker w = .exited) {k : Nat}
    {c : Callable α ε} (hc : s.submitted[k]? = some c) : (s.shared k).get = some c.outcome := by
  obtain ⟨hempty, -⟩ := h.inv.drained hall
  have hk : k < s.world.pool.accepted := h.length ▸ (List.getElem?_eq_some_iff.1 hc).1
  rcases h.exists_holds hempty hk with ⟨task, hmem, rfl⟩ | ⟨w, task, hw, -⟩
  · obtain ⟨hcallable, hget⟩ := h.get_of_done hmem
    rw [hc] at hcallable
    cases hcallable
    exact hget
  · rw [hall w] at hw
    exact hw.elim

/-- An answer lasts over a run. -/
theorem Kept.get_run [Nonempty ω] (hH : H.Correct runsLater) (h : Kept s) {k : Nat}
    {r : Except (Thrown ε) α} (hr : (s.shared k).get = some r)
    {as : List (Action (Callable α ε) τ ω)} (hrun : run (System.step H) s as = some s') :
    (s'.shared k).get = some r := by
  have hboth : Kept s' ∧ (s'.shared k).get = some r := by
    refine run_invariant (System.step H) (I := fun t => Kept t ∧ (t.shared k).get = some r)
      (fun t a t' hI hstep => ?_) ⟨h, hr⟩ hrun
    exact ⟨kept_step hH hI.1 hstep, hI.1.get_step hH hstep hI.2⟩
  exact hboth.2

/-- **The future of an accepted task is answered.** For any correct heap algorithms, any callables,
any number of workers and any interleaving. -/
theorem reachable_serves [Nonempty ω]
    (hH : ∀ lt : QueuedTask (Callable α ε) → QueuedTask (Callable α ε) → Bool,
      (IsStrictWeakOrder (QueuedTask (Callable α ε)) fun a b => lt a b = true) → H.Correct lt)
    (h : Reachable (System.step H) (initial α ε τ ω) s) : Serves H s := by
  have hcorrect : H.Correct runsLater := hH runsLater isStrictWeakOrder_runsLater
  have hkept : Kept s :=
    h.invariant (System.step H) kept_initial fun _ _ _ hI hstep => kept_step hcorrect hI hstep
  exact {
    done := fun task hmem => hkept.get_of_done hmem
    answer := fun hgo k c hc r hr => hkept.answer hgo hc hr
    kept := fun k r hr as s' hrun => hkept.get_run hcorrect hr hrun
    escaped := hkept.escaped
    drained := fun _ hall k c hc => hkept.drained hall hc
    served := fun hgo hstore k c hc => by
      obtain ⟨s', ⟨as, has, hrun⟩, hget⟩ :=
        Good.exists_ready hcorrect ⟨hkept, hgo, hstore⟩ hc
      exact ⟨as, s', has, hrun, hget⟩ }

/-- One worker; a task that returns submits another one from inside, which throws. -/
def nestedFutures : List (Action (Callable Nat String) Unit Unit) :=
  [.submit () 0 ⟨.ok 7, .ok⟩, .notify () none, .workerLoop (),
    .submitWithin () 3 ⟨.error (.user "boom"), .ok⟩, .notifyWithin () none, .finish ()]

theorem reachable_serves_nestedFutures :
    ∃ s : System Nat String Unit Unit,
      run (System.step (HeapAlgorithms.sorting _)) (initial Nat String Unit Unit) nestedFutures =
        some s ∧ (s.shared 0).get = some (.ok 7) ∧ (s.shared 1).get = none ∧
      ∃ as s', run (System.step (HeapAlgorithms.sorting _)) s as = some s' ∧
        (s'.shared 0).get = some (.ok 7) ∧ (s'.shared 1).get = some (.error (.user "boom")) := by
  have hrun : ∃ s : System Nat String Unit Unit,
      run (System.step (HeapAlgorithms.sorting _)) (initial Nat String Unit Unit) nestedFutures =
        some s ∧ s.terminated = false ∧ (s.shared 0).get = some (.ok 7) ∧
      (s.shared 1).get = none ∧ s.submitted = [⟨.ok 7, .ok⟩, ⟨.error (.user "boom"), .ok⟩] :=
    ⟨_, rfl, rfl, rfl, rfl, rfl⟩
  obtain ⟨s, hs, hgo, hfirst, hsecond, hsubmitted⟩ := hrun
  have hserves := reachable_serves (fun _ => HeapAlgorithms.sorting_correct) ⟨nestedFutures, hs⟩
  have hdelivers : ∀ (k : Nat) (c : Callable Nat String), s.submitted[k]? = some c →
      (s.shared k).get = none → Delivers c := by
    intro k c hc _
    have hmem := List.mem_of_getElem? hc
    rw [hsubmitted, List.mem_cons, List.mem_singleton] at hmem
    rcases hmem with rfl | rfl
    · exact ⟨rfl, rfl⟩
    · exact ⟨rfl, rfl⟩
  obtain ⟨as, s', -, hs', hget⟩ := hserves.served hgo hdelivers 1 _ (by rw [hsubmitted]; rfl)
  exact ⟨s, hs, hfirst, hsecond, as, s', hs', hserves.kept 0 _ hfirst as s' hs', hget⟩

end System

end ThreadPool

end EglUtil
