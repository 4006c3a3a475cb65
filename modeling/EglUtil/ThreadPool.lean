import EglUtil.Lib.Runs
import EglUtil.Lib.Tally
import EglUtil.Lib.Updates
import EglUtil.Lib.WeakOrder
import Mathlib.Data.UInt

/-!
# `ThreadPool`: order, exactly-once and drain

Workers take tasks from a priority queue kept in a vector by `std::push_heap` and
`std::pop_heap`. Each section that holds the mutex is one step; a notification is a step of its
own, taken afterwards. Any thread may submit, a worker in the middle of a task included.

**Theorem (`reachable_runs_once`).** In every reachable state each accepted task is either
queued or was dequeued, and that once; a dequeue takes a task of the highest priority and among
those the smallest sequence number; after `shutdown` has begun nothing is enqueued any more; and
when every worker has exited the queue is empty and each accepted task has been run, once.
While a task is queued some worker is awake or about to be woken.

**Invariant** (`Inv`). The vector is a heap, so its first task is the next to run. Counted by
ticket, accepted is queued plus dequeued, and dequeued is finished plus being run. A worker
exits only when it sees the stop flag and an empty queue under the mutex, and from then on both
last: one exited worker already means that the pool is drained.

The order of the tickets is the order of acceptance; they are not in the source, where the
sequence number is a ticket modulo `2 ^ 64`.
-/

namespace EglUtil

open Transition Tally WeakOrder

/-- A queued task. `ticket` says how many tasks had been accepted before it. -/
structure QueuedTask (ρ : Type*) where
  priority : Int
  sequence : UInt64
  run : ρ
  ticket : Nat
deriving Repr, DecidableEq

/-- The fields guarded by `mutex_`; `accepted` counts the tasks ever enqueued. -/
structure ThreadPool (ρ : Type*) where
  heap : List (QueuedTask ρ)
  nextSequence : UInt64
  stopping : Bool
  accepted : Nat
deriving Repr, DecidableEq

namespace ThreadPool

variable {ρ τ ω : Type*}

/-! ## The sections that hold the mutex -/

/-- Lower priority runs later; among equals the later submission. -/
def runsLater (left right : QueuedTask ρ) : Bool :=
  if left.priority ≠ right.priority then left.priority < right.priority
  else left.sequence > right.sequence

def empty : ThreadPool ρ := ⟨[], 0, false, 0⟩

variable (H : HeapAlgorithms (QueuedTask ρ))

/-- `push_back`, with the next sequence number, then `push_heap`. -/
def enqueue (p : ThreadPool ρ) (priority : Int) (run : ρ) : ThreadPool ρ :=
  { p with
    heap := H.pushHeap runsLater (p.heap ++ [⟨priority, p.nextSequence, run, p.accepted⟩])
    nextSequence := p.nextSequence + 1
    accepted := p.accepted + 1 }

def submit (p : ThreadPool ρ) (priority : Int) (run : ρ) : Except String (ThreadPool ρ) :=
  if p.stopping then .error "ThreadPool: submit after shutdown" else .ok (p.enqueue H priority run)

/-- `pop_heap`, then the last element is moved out and removed. -/
def dequeue (p : ThreadPool ρ) : Option (QueuedTask ρ × ThreadPool ρ) :=
  let heap := H.popHeap runsLater p.heap
  heap.getLast?.map fun task => (task, { p with heap := heap.dropLast })

/-! ## Threads -/

inductive WorkerPc (ρ : Type*) where
  /-- At the mutex: about to test the predicate of `work_available_`. -/
  | contending
  | parked
  | running (task : QueuedTask ρ)
  /-- Inside a task that has just submitted another one. -/
  | notifying (task : QueuedTask ρ)
  | exited
deriving Repr, DecidableEq

/-- A thread outside the pool. -/
inductive ClientPc where
  | idle
  /-- `submit` has released the mutex. -/
  | notifying
  /-- `shutdown` has released the mutex. -/
  | notifyingAll
  | joining
deriving Repr, DecidableEq

def WorkerPc.isParked : WorkerPc ρ → Bool
  | .parked => true
  | _ => false

def WorkerPc.hasExited : WorkerPc ρ → Bool
  | .exited => true
  | _ => false

/-- The worker runs the task with ticket `k`. -/
def WorkerPc.runs (k : Nat) : WorkerPc ρ → Bool
  | .running task | .notifying task => task.ticket == k
  | _ => false

def WorkerPc.wake : WorkerPc ρ → WorkerPc ρ
  | .parked => .contending
  | pc => pc

/-- The pool, its workers `ω`, the threads `τ` that use it, and what was dequeued and run. -/
structure World (ρ τ ω : Type*) where
  pool : ThreadPool ρ
  worker : ω → WorkerPc ρ
  client : τ → ClientPc
  dequeued : List (ω × QueuedTask ρ)
  finished : List (ω × QueuedTask ρ)

def World.initial (ρ τ ω : Type*) : World ρ τ ω :=
  ⟨ThreadPool.empty, fun _ => .contending, fun _ => .idle, [], []⟩

inductive Action (ρ τ ω : Type*) where
  | submit (t : τ) (priority : Int) (run : ρ)
  /-- `submit` called by the task that worker `w` runs. -/
  | submitWithin (w : ω) (priority : Int) (run : ρ)
  /-- `notify_one` wakes `u`, or nobody if no worker is parked. -/
  | notify (t : τ) (u : Option ω)
  | notifyWithin (w : ω) (u : Option ω)
  | shutdown (t : τ)
  | notifyAll (t : τ)
  /-- `shutdown` has joined every worker. -/
  | join (t : τ)
  /-- A spurious wake-up. -/
  | wake (w : ω)
  /-- The section of `worker_loop`: park, exit, or dequeue a task. -/
  | workerLoop (w : ω)
  /-- The task returns. -/
  | finish (w : ω)

section Steps

variable [DecidableEq τ] [DecidableEq ω] [Fintype ω]

def World.putWorker (s : World ρ τ ω) (w : ω) (pc : WorkerPc ρ) : World ρ τ ω :=
  { s with worker := Function.update s.worker w pc }

def World.putClient (s : World ρ τ ω) (t : τ) (pc : ClientPc) : World ρ τ ω :=
  { s with client := Function.update s.client t pc }

/-- `notify_one`: wake the parked worker `u`; `none` is for nobody being parked. -/
def World.notifyOne (s : World ρ τ ω) : Option ω → Option (World ρ τ ω)
  | none => if ∀ w, (s.worker w).isParked = false then some s else none
  | some u => if (s.worker u).isParked then some (s.putWorker u .contending) else none

/-- The body of `worker_loop` under the mutex. -/
def World.loop (s : World ρ τ ω) (w : ω) : World ρ τ ω :=
  if s.pool.stopping = false ∧ s.pool.heap.isEmpty then s.putWorker w .parked
  else if s.pool.heap.isEmpty then s.putWorker w .exited
  else
    match s.pool.dequeue H with
    | none => s
    | some (task, pool) =>
      { s.putWorker w (.running task) with pool := pool, dequeued := s.dequeued ++ [(w, task)] }

def World.step (s : World ρ τ ω) : Action ρ τ ω → Option (World ρ τ ω)
  | .submit t priority run =>
    if s.client t = .idle then
      match s.pool.submit H priority run with
      | .ok pool => some { s.putClient t .notifying with pool := pool }
      | .error _ => some s
    else none
  | .submitWithin w priority run =>
    match s.worker w with
    | .running task =>
      match s.pool.submit H priority run with
      | .ok pool => some { s.putWorker w (.notifying task) with pool := pool }
      | .error _ => some s
    | _ => none
  | .notify t u =>
    if s.client t = .notifying then (s.putClient t .idle).notifyOne u else none
  | .notifyWithin w u =>
    match s.worker w with
    | .notifying task => (s.putWorker w (.running task)).notifyOne u
    | _ => none
  | .shutdown t =>
    if s.client t = .idle then
      some { s.putClient t .notifyingAll with pool := { s.pool with stopping := true } }
    else none
  | .notifyAll t =>
    if s.client t = .notifyingAll then
      some { s.putClient t .joining with worker := fun w => (s.worker w).wake }
    else none
  | .join t =>
    if s.client t = .joining ∧ ∀ w, (s.worker w).hasExited = true then some (s.putClient t .idle)
    else none
  | .wake w => if (s.worker w).isParked then some (s.putWorker w .contending) else none
  | .workerLoop w =>
    match s.worker w with
    | .contending => some (s.loop H w)
    | _ => none
  | .finish w =>
    match s.worker w with
    | .running task =>
      some { s.putWorker w .contending with finished := s.finished ++ [(w, task)] }
    | _ => none

/-! ## What a step can do -/

theorem WorkerPc.eq_parked {pc : WorkerPc ρ} (h : pc.isParked = true) : pc = .parked := by
  cases pc with
  | parked => rfl
  | _ => cases h

/-- The steps, one constructor for each way they can go, with what held before. -/
inductive Step (s : World ρ τ ω) : Action ρ τ ω → World ρ τ ω → Prop where
  | submit {t : τ} (priority : Int) (run : ρ) (hpc : s.client t = .idle)
      (hstop : s.pool.stopping = false) : Step s (.submit t priority run)
        { s.putClient t .notifying with pool := s.pool.enqueue H priority run }
  | submitRefused (t : τ) (priority : Int) (run : ρ) : Step s (.submit t priority run) s
  | submitWithin {w : ω} {task : QueuedTask ρ} (priority : Int) (run : ρ)
      (hpc : s.worker w = .running task) (hstop : s.pool.stopping = false) :
      Step s (.submitWithin w priority run)
        { s.putWorker w (.notifying task) with pool := s.pool.enqueue H priority run }
  | submitWithinRefused (w : ω) (priority : Int) (run : ρ) :
      Step s (.submitWithin w priority run) s
  | notifyNobody {t : τ} (hpc : s.client t = .notifying)
      (hnone : ∀ w, (s.worker w).isParked = false) :
      Step s (.notify t none) (s.putClient t .idle)
  | notifyWorker {t : τ} {u : ω} (hpc : s.client t = .notifying) (hu : s.worker u = .parked) :
      Step s (.notify t (some u)) ((s.putClient t .idle).putWorker u .contending)
  | notifyWithin {w : ω} {task : QueuedTask ρ} (u : Option ω) (s' : World ρ τ ω)
      (hpc : s.worker w = .notifying task)
      (hs' : (s.putWorker w (.running task)).notifyOne u = some s') :
      Step s (.notifyWithin w u) s'
  | shutdown {t : τ} (hpc : s.client t = .idle) : Step s (.shutdown t)
      { s.putClient t .notifyingAll with pool := { s.pool with stopping := true } }
  | notifyAll {t : τ} (hpc : s.client t = .notifyingAll) : Step s (.notifyAll t)
      { s.putClient t .joining with worker := fun w => (s.worker w).wake }
  | join {t : τ} (hpc : s.client t = .joining) : Step s (.join t) (s.putClient t .idle)
  | wake {w : ω} (hpc : s.worker w = .parked) : Step s (.wake w) (s.putWorker w .contending)
  | park {w : ω} (hpc : s.worker w = .contending) (hempty : s.pool.heap = [])
      (hstop : s.pool.stopping = false) : Step s (.workerLoop w) (s.putWorker w .parked)
  | exit {w : ω} (hpc : s.worker w = .contending) (hempty : s.pool.heap = [])
      (hstop : s.pool.stopping = true) : Step s (.workerLoop w) (s.putWorker w .exited)
  | dequeue {w : ω} {task : QueuedTask ρ} {pool : ThreadPool ρ}
      (hpc : s.worker w = .contending) (hd : s.pool.dequeue H = some (task, pool))
      (hne : s.pool.heap ≠ []) : Step s (.workerLoop w) { s.putWorker w (.running task) with
        pool := pool, dequeued := s.dequeued ++ [(w, task)] }
  | dequeueNothing {w : ω} (hpc : s.worker w = .contending)
      (hd : s.pool.dequeue H = none) : Step s (.workerLoop w) s
  | finish {w : ω} {task : QueuedTask ρ} (hpc : s.worker w = .running task) :
      Step s (.finish w)
        { s.putWorker w .contending with finished := s.finished ++ [(w, task)] }

variable {H} {s s' : World ρ τ ω}

/-- **Inversion.** -/
theorem step_cases {a : Action ρ τ ω} (h : s.step H a = some s') : Step H s a s' := by
  cases a with
  | submit t priority run =>
    simp only [World.step, ThreadPool.submit] at h
    split_ifs at h with hpc hstop <;> cases h
    · exact .submitRefused t priority run
    · exact .submit priority run hpc (Bool.eq_false_iff.2 hstop)
  | submitWithin w priority run =>
    simp only [World.step, ThreadPool.submit] at h
    split at h
    · next task hpc =>
      split_ifs at h with hstop <;> cases h
      · exact .submitWithinRefused w priority run
      · exact .submitWithin priority run hpc (Bool.eq_false_iff.2 hstop)
    · cases h
  | notify t u =>
    simp only [World.step] at h
    split_ifs at h with hpc
    cases u with
    | none =>
      simp only [World.notifyOne] at h
      split_ifs at h with hnone
      cases h
      exact .notifyNobody hpc hnone
    | some u =>
      simp only [World.notifyOne] at h
      split_ifs at h with hu
      cases h
      exact .notifyWorker hpc (WorkerPc.eq_parked hu)
  | notifyWithin w u =>
    simp only [World.step] at h
    split at h
    · next task hpc => exact .notifyWithin u s' hpc h
    · cases h
  | shutdown t =>
    simp only [World.step] at h
    split_ifs at h with hpc
    cases h
    exact .shutdown hpc
  | notifyAll t =>
    simp only [World.step] at h
    split_ifs at h with hpc
    cases h
    exact .notifyAll hpc
  | join t =>
    simp only [World.step] at h
    split_ifs at h with hpc
    cases h
    exact .join hpc.1
  | wake w =>
    simp only [World.step] at h
    split_ifs at h with hpc
    cases h
    exact .wake (WorkerPc.eq_parked hpc)
  | workerLoop w =>
    simp only [World.step] at h
    split at h
    · next hpc =>
      cases h
      unfold World.loop
      split_ifs with hpark hempty
      · exact .park hpc (List.isEmpty_iff.1 hpark.2) hpark.1
      · refine .exit hpc (List.isEmpty_iff.1 hempty) ?_
        by_contra hstop
        exact hpark ⟨Bool.eq_false_iff.2 hstop, hempty⟩
      · split
        · next hd => exact .dequeueNothing hpc hd
        · next task pool hd => exact .dequeue hpc hd (fun hnil => hempty (by rw [hnil]; rfl))
    · cases h
  | finish w =>
    simp only [World.step] at h
    split at h
    · next task hpc =>
      cases h
      exact .finish hpc
    · cases h

end Steps

/-! ## The queue -/

theorem runsLater_iff {left right : QueuedTask ρ} : runsLater left right = true ↔
    left.priority < right.priority ∨
      left.priority = right.priority ∧ right.sequence < left.sequence := by
  unfold runsLater
  split_ifs with hne
  · simp [hne]
  · push Not at hne
    simp [hne]

theorem runsLater_eq_false {left right : QueuedTask ρ} : runsLater left right = false ↔
    right.priority < left.priority ∨
      right.priority = left.priority ∧ left.sequence ≤ right.sequence := by
  rw [← Bool.not_eq_true, runsLater_iff]
  push Not
  constructor
  · intro h
    obtain ⟨hle, hseq⟩ := h
    rcases hle.lt_or_eq with hlt | heq
    · exact .inl hlt
    · exact .inr ⟨heq, UInt64.not_lt.1 (hseq heq.symm)⟩
  · intro h
    rcases h with hlt | ⟨heq, hseq⟩
    · exact ⟨hlt.le, fun heq => absurd heq hlt.ne'⟩
    · exact ⟨heq.le, fun _ => UInt64.not_lt.2 hseq⟩

theorem runsLater_incomparable {left right : QueuedTask ρ} :
    runsLater left right = false ∧ runsLater right left = false ↔
      left.priority = right.priority ∧ left.sequence = right.sequence := by
  rw [runsLater_eq_false, runsLater_eq_false]
  constructor
  · intro h
    rcases h with ⟨hlt | ⟨heq, hle⟩, hlt' | ⟨heq', hle'⟩⟩
    · exact absurd hlt hlt'.asymm
    · exact absurd heq' hlt.ne'
    · exact absurd heq hlt'.ne'
    · exact ⟨heq', UInt64.le_antisymm hle hle'⟩
  · intro h
    obtain ⟨hprio, hseq⟩ := h
    rw [hprio, hseq]
    exact ⟨.inr ⟨rfl, UInt64.le_refl _⟩, .inr ⟨rfl, UInt64.le_refl _⟩⟩

instance isStrictWeakOrder_runsLater :
    IsStrictWeakOrder (QueuedTask ρ) fun left right => runsLater left right = true where
  irrefl a := by simp [runsLater_iff]
  trans a b c hab hbc := by
    rw [runsLater_iff] at *
    rcases hab with hab | ⟨hab, hab'⟩ <;> rcases hbc with hbc | ⟨hbc, hbc'⟩
    · exact .inl (hab.trans hbc)
    · exact .inl (hbc ▸ hab)
    · exact .inl (hab ▸ hbc)
    · exact .inr ⟨hab.trans hbc, UInt64.lt_trans hbc' hab'⟩
  incomp_trans a b c hab hbc := by
    simp only [Bool.not_eq_true, runsLater_incomparable] at *
    exact ⟨hab.1.trans hbc.1, hab.2.trans hbc.2⟩

/-- How often the task with ticket `k` occurs. -/
def copies (k : Nat) (tasks : List (QueuedTask ρ)) : Nat :=
  tasks.countP fun task => task.ticket == k

theorem copies_append (k : Nat) (l l' : List (QueuedTask ρ)) :
    copies k (l ++ l') = copies k l + copies k l' := List.countP_append

theorem copies_perm (k : Nat) {l l' : List (QueuedTask ρ)} (h : l.Perm l') :
    copies k l = copies k l' := h.countP_eq _

theorem copies_cons (k : Nat) (task : QueuedTask ρ) (l : List (QueuedTask ρ)) :
    copies k (task :: l) = copies k l + (task.ticket == k).toNat := by
  unfold copies
  rw [List.countP_cons]
  cases task.ticket == k <;> rfl

theorem copies_pos {task : QueuedTask ρ} {l : List (QueuedTask ρ)} (h : task ∈ l) :
    0 < copies task.ticket l :=
  List.countP_pos_iff.2 ⟨task, h, beq_self_eq_true _⟩

/-- The vector is a heap, a sequence number is a ticket, and a ticket is given out once: its task
is queued or was taken. -/
structure Queue (p : ThreadPool ρ) (taken : List (QueuedTask ρ)) : Prop where
  heap : IsHeap runsLater p.heap
  next : p.nextSequence = UInt64.ofNat p.accepted
  sequence : ∀ task ∈ p.heap, task.sequence = UInt64.ofNat task.ticket
  once : ∀ k, copies k p.heap + copies k taken = if k < p.accepted then 1 else 0

section Queue

variable {H : HeapAlgorithms (QueuedTask ρ)} {p : ThreadPool ρ} {taken : List (QueuedTask ρ)}

theorem Queue.ticket_lt (h : Queue p taken) {task : QueuedTask ρ} (hmem : task ∈ p.heap) :
    task.ticket < p.accepted := by
  have honce := h.once task.ticket
  have hpos := copies_pos hmem
  by_contra hle
  rw [if_neg hle] at honce
  omega

theorem Queue.enqueue (hH : H.Correct runsLater) (h : Queue p taken) (priority : Int) (run : ρ) :
    Queue (p.enqueue H priority run) taken := by
  obtain ⟨hperm, hheap⟩ := hH.push p.heap ⟨priority, p.nextSequence, run, p.accepted⟩ h.heap
  refine ⟨hheap, ?_, ?_, ?_⟩
  · show p.nextSequence + 1 = UInt64.ofNat (p.accepted + 1)
    rw [h.next, UInt64.ofNat_add]
    rfl
  · intro task hmem
    rcases List.mem_append.1 (hperm.mem_iff.1 hmem) with hold | hnew
    · exact h.sequence task hold
    · rw [List.mem_singleton.1 hnew]
      exact h.next
  · intro k
    have honce := h.once k
    show copies k (H.pushHeap runsLater _) + copies k taken = if k < p.accepted + 1 then 1 else 0
    rw [copies_perm k hperm, copies_append, copies_cons]
    by_cases hk : p.accepted = k
    · subst hk
      rw [if_neg (Nat.lt_irrefl _)] at honce
      simp only [Nat.lt_succ_self, if_true, copies, List.countP_nil, beq_self_eq_true,
        Bool.toNat_true] at honce ⊢
      omega
    · have hlt : k < p.accepted + 1 ↔ k < p.accepted := by omega
      simp only [hlt, beq_eq_false_iff_ne.2 hk, Bool.toNat_false, copies,
        List.countP_nil] at honce ⊢
      omega

/-- A dequeue takes a task, and no other is to run before it. -/
theorem Queue.dequeue (hH : H.Correct runsLater) (h : Queue p taken) (hne : p.heap ≠ []) :
    ∃ task heap, p.dequeue H = some (task, { p with heap := heap }) ∧
      p.heap.Perm (task :: heap) ∧ (∀ other ∈ heap, runsLater task other = false) ∧
      Queue { p with heap := heap } (taken ++ [task]) := by
  obtain ⟨task, rest, hcons⟩ := List.exists_cons_of_ne_nil hne
  have hroot := h.heap
  rw [hcons] at hroot
  obtain ⟨heap, hpop, hperm, hheap⟩ := hH.pop rest task hroot
  have hall : p.heap.Perm (task :: heap) := by
    rw [hcons]
    exact hperm.symm.cons task
  refine ⟨task, heap, ?_, hall, fun other hmem => hroot.root (hperm.mem_iff.1 hmem),
    hheap, h.next, fun other hmem => h.sequence other ?_, fun k => ?_⟩
  · simp only [ThreadPool.dequeue, hcons, hpop, List.getLast?_concat, Option.map_some,
      List.dropLast_concat]
  · exact hall.mem_iff.2 (List.mem_cons_of_mem task hmem)
  · have honce := h.once k
    rw [copies_perm k hall, copies_cons] at honce
    rw [copies_append, copies_cons]
    show copies k heap + (copies k taken + (0 + _)) = if k < p.accepted then 1 else 0
    omega

/-- Before the sequence numbers wrap around, they are in the order of acceptance. -/
theorem Queue.ticket_order (h : Queue p taken) (hfew : p.accepted ≤ 2 ^ 64)
    {task other : QueuedTask ρ} {heap : List (QueuedTask ρ)} (hperm : p.heap.Perm (task :: heap))
    (hmem : other ∈ heap) (hle : task.sequence ≤ other.sequence) : task.ticket < other.ticket := by
  have htask : task ∈ p.heap := hperm.mem_iff.2 List.mem_cons_self
  have hother : other ∈ p.heap := hperm.mem_iff.2 (List.mem_cons_of_mem _ hmem)
  have hltTask := h.ticket_lt htask
  have hltOther := h.ticket_lt hother
  have hne : task.ticket ≠ other.ticket := by
    intro heq
    have honce := h.once other.ticket
    have hpos := copies_pos hmem
    rw [copies_perm _ hperm, copies_cons, heq, beq_self_eq_true, if_pos hltOther] at honce
    simp only [Bool.toNat_true] at honce
    omega
  rw [h.sequence task htask, h.sequence other hother, UInt64.le_iff_toNat_le,
    UInt64.toNat_ofNat', UInt64.toNat_ofNat', Nat.mod_eq_of_lt (by omega),
    Nat.mod_eq_of_lt (by omega)] at hle
  omega

end Queue

/-! ## The invariant -/

def WorkerPc.isAwake : WorkerPc ρ → Bool
  | .parked | .exited => false
  | _ => true

/-- What was dequeued, without the worker. -/
def World.taken (s : World ρ τ ω) : List (QueuedTask ρ) := s.dequeued.map Prod.snd

/-- What was run to its end, without the worker. -/
def World.done (s : World ρ τ ω) : List (QueuedTask ρ) := s.finished.map Prod.snd

/-- The accounts, and who is awake. -/
structure Inv [Fintype ω] (s : World ρ τ ω) : Prop where
  queue : Queue s.pool s.taken
  run : ∀ k, copies k s.taken = copies k s.done + tally (WorkerPc.runs k) s.worker
  exited : ∀ w, s.worker w = .exited → s.pool.stopping = true ∧ s.pool.heap = []
  awake : s.pool.heap ≠ [] →
    (∃ w, (s.worker w).isAwake = true) ∨ ∃ t, s.client t = .notifying
  notified : s.pool.stopping = true → ∀ w, s.worker w = .parked → ∃ t, s.client t = .notifyingAll

section Moves

variable [Fintype ω] {H : HeapAlgorithms (QueuedTask ρ)} {s s' : World ρ τ ω}

theorem inv_initial : Inv (World.initial ρ τ ω) where
  queue := ⟨isHeap_nil, rfl, nofun, fun _ => rfl⟩
  run := by
    intro k
    have hnone : tally (WorkerPc.runs k) (World.initial ρ τ ω).worker = 0 :=
      tally_eq_zero.2 fun _ => rfl
    rw [hnone]
    rfl
  exited := nofun
  awake := fun h => absurd rfl h
  notified := nofun

theorem Inv.enqueue (hH : H.Correct runsLater) (h : Inv s) (hstop : s.pool.stopping = false)
    (hawake : (∃ w, (s.worker w).isAwake = true) ∨ ∃ t, s.client t = .notifying)
    (priority : Int) (run : ρ) : Inv { s with pool := s.pool.enqueue H priority run } where
  queue := h.queue.enqueue hH priority run
  run := h.run
  exited := by
    intro w hw
    have hexit := (h.exited w hw).1
    rw [hstop] at hexit
    cases hexit
  awake := fun _ => hawake
  notified := by
    intro hstop'
    have hsame : s.pool.stopping = true := hstop'
    rw [hstop] at hsame
    cases hsame

theorem Inv.stop (h : Inv s) (hall : ∃ t, s.client t = .notifyingAll) :
    Inv { s with pool := { s.pool with stopping := true } } where
  queue := ⟨h.queue.heap, h.queue.next, h.queue.sequence, h.queue.once⟩
  run := h.run
  exited := fun w hw => ⟨rfl, (h.exited w hw).2⟩
  awake := h.awake
  notified := fun _ _ _ => hall

theorem Inv.wakeAll (h : Inv s) : Inv { s with worker := fun w => (s.worker w).wake } where
  queue := h.queue
  run := by
    intro k
    have hruns : ∀ pc : WorkerPc ρ, pc.wake.runs k = pc.runs k := by
      intro pc
      cases pc <;> rfl
    show copies k s.taken = copies k s.done + tally (WorkerPc.runs k) fun w => (s.worker w).wake
    simp only [tally, hruns]
    exact h.run k
  exited := by
    intro w hw
    refine h.exited w ?_
    cases hpc : s.worker w with
    | exited => rfl
    | _ => simp [hpc, WorkerPc.wake] at hw
  awake := by
    intro hne
    refine (h.awake hne).imp_left ?_
    rintro ⟨w, hw⟩
    refine ⟨w, ?_⟩
    cases hpc : s.worker w with
    | exited => simp [hpc, WorkerPc.isAwake] at hw
    | _ => simp [hpc, WorkerPc.wake, WorkerPc.isAwake]
  notified := by
    intro _ w hw
    cases hpc : s.worker w with
    | _ => simp [hpc, WorkerPc.wake] at hw

/-- With no worker parked and a task queued, some worker is awake: none has exited. -/
theorem Inv.exists_awake [Nonempty ω] (h : Inv s) (hnone : ∀ w, (s.worker w).isParked = false)
    (hne : s.pool.heap ≠ []) : ∃ w, (s.worker w).isAwake = true := by
  obtain ⟨w⟩ := ‹Nonempty ω›
  refine ⟨w, ?_⟩
  cases hpc : s.worker w with
  | parked =>
    have hw := hnone w
    simp [hpc, WorkerPc.isParked] at hw
  | exited => exact absurd (h.exited w hpc).2 hne
  | _ => rfl

/-- A thread outside the pool moves. -/
theorem Inv.putClient [DecidableEq τ] (h : Inv s) {t : τ} {pc : ClientPc}
    (hone : s.client t = .notifying → s.pool.heap ≠ [] → ∃ w, (s.worker w).isAwake = true)
    (hall : s.client t = .notifyingAll → ∀ w, s.worker w ≠ .parked) :
    Inv (s.putClient t pc) where
  queue := h.queue
  run := h.run
  exited := h.exited
  awake := by
    intro hne
    rcases h.awake hne with hw | ⟨u, hu⟩
    · exact .inl hw
    · by_cases hut : u = t
      · subst hut
        exact .inl (hone hu hne)
      · exact .inr ⟨u, by simp only [World.putClient, Function.update_of_ne hut, hu]⟩
  notified := by
    intro hstop w hw
    obtain ⟨u, hu⟩ := h.notified hstop w hw
    by_cases hut : u = t
    · subst hut
      exact absurd hw (hall hu w)
    · exact ⟨u, by simp only [World.putClient, Function.update_of_ne hut, hu]⟩

variable [DecidableEq ω]

omit [Fintype ω] in
/-- A worker that has not been put there was there before. -/
theorem worker_of_putWorker {w u : ω} {pc pc' : WorkerPc ρ}
    (hu : (s.putWorker w pc).worker u = pc') (hne : pc ≠ pc') : s.worker u = pc' :=
  Updates.update_reflects (p := fun pc => pc) (fun heq => absurd heq hne) u hu

/-- A worker moves without taking or ending a task. -/
theorem Inv.putWorker (h : Inv s) {w : ω} {pc : WorkerPc ρ}
    (hruns : ∀ k, pc.runs k = (s.worker w).runs k)
    (hexit : pc = .exited → s.pool.stopping = true ∧ s.pool.heap = [])
    (hawake : s.pool.heap ≠ [] → pc.isAwake = true)
    (hparked : pc = .parked → s.pool.stopping = false) : Inv (s.putWorker w pc) where
  queue := h.queue
  run := by
    intro k
    have hold := h.run k
    have hmove := tally_update (WorkerPc.runs k) s.worker w pc
    rw [hruns k] at hmove
    show copies k s.taken =
      copies k s.done + tally (WorkerPc.runs k) (Function.update s.worker w pc)
    omega
  exited := by
    intro u hu
    by_cases hpc : pc = .exited
    · exact hexit hpc
    · exact h.exited u (worker_of_putWorker hu hpc)
  awake := by
    intro hne
    refine .inl ⟨w, ?_⟩
    simp only [World.putWorker, Function.update_self]
    exact hawake hne
  notified := by
    intro hstop u hu
    by_cases hpc : pc = .parked
    · have hgo := hparked hpc
      rw [show s.pool.stopping = true from hstop] at hgo
      cases hgo
    · exact h.notified hstop u (worker_of_putWorker hu hpc)

theorem Inv.wakeWorker (h : Inv s) {w : ω} (hpc : s.worker w = .parked) :
    Inv (s.putWorker w .contending) :=
  h.putWorker (fun k => by rw [hpc]; rfl) nofun (fun _ => rfl) nofun

theorem Inv.notifyOne (h : Inv s) {u : Option ω} (hs' : s.notifyOne u = some s') : Inv s' := by
  cases u with
  | none =>
    simp only [World.notifyOne] at hs'
    split_ifs at hs'
    cases hs'
    exact h
  | some u =>
    simp only [World.notifyOne] at hs'
    split_ifs at hs' with hu
    cases hs'
    exact h.wakeWorker (WorkerPc.eq_parked hu)

/-- The dequeued task is with the worker from now on. -/
theorem Inv.dequeue (hH : H.Correct runsLater) (h : Inv s) {w : ω} {task : QueuedTask ρ}
    {pool : ThreadPool ρ} (hpc : s.worker w = .contending) (hne : s.pool.heap ≠ [])
    (hd : s.pool.dequeue H = some (task, pool)) :
    Inv { s.putWorker w (.running task) with
      pool := pool, dequeued := s.dequeued ++ [(w, task)] } := by
  obtain ⟨task', heap, hd', -, -, hqueue⟩ := h.queue.dequeue hH hne
  rw [hd] at hd'
  cases hd'
  refine ⟨?_, fun k => ?_, fun u hu => ?_, fun _ => .inl ⟨w, ?_⟩, fun hstop u hu => ?_⟩
  · simpa [World.taken] using hqueue
  · have hold := h.run k
    have hmove := tally_update (WorkerPc.runs k) s.worker w (.running task)
    rw [hpc] at hmove
    simp only [World.taken, World.done, World.putWorker, List.map_append, List.map_cons,
      List.map_nil, copies_append, copies_cons, WorkerPc.runs, Bool.toNat_false] at hold hmove ⊢
    simp only [copies, List.countP_nil] at hold hmove ⊢
    omega
  · have hmoved : (s.putWorker w (.running task)).worker u = .exited := hu
    exact absurd (h.exited u (worker_of_putWorker hmoved nofun)).2 hne
  · simp [World.putWorker, WorkerPc.isAwake]
  · have hmoved : (s.putWorker w (.running task)).worker u = .parked := hu
    exact h.notified hstop u (worker_of_putWorker hmoved nofun)

theorem Inv.finish (h : Inv s) {w : ω} {task : QueuedTask ρ} (hpc : s.worker w = .running task) :
    Inv { s.putWorker w .contending with finished := s.finished ++ [(w, task)] } := by
  refine ⟨h.queue, fun k => ?_, fun u hu => ?_, fun _ => .inl ⟨w, ?_⟩, fun hstop u hu => ?_⟩
  · have hold := h.run k
    have hmove := tally_update (WorkerPc.runs k) s.worker w .contending
    rw [hpc] at hmove
    simp only [World.taken, World.done, World.putWorker, List.map_append, List.map_cons,
      List.map_nil, copies_append, copies_cons, WorkerPc.runs, Bool.toNat_false] at hold hmove ⊢
    simp only [copies, List.countP_nil] at hold hmove ⊢
    omega
  · have hmoved : (s.putWorker w .contending).worker u = .exited := hu
    exact h.exited u (worker_of_putWorker hmoved nofun)
  · simp [World.putWorker, WorkerPc.isAwake]
  · have hmoved : (s.putWorker w .contending).worker u = .parked := hu
    exact h.notified hstop u (worker_of_putWorker hmoved nofun)

/-- **One step.** -/
theorem inv_step [DecidableEq τ] [Nonempty ω] (hH : H.Correct runsLater) {a : Action ρ τ ω}
    (h : Inv s) (hstep : s.step H a = some s') : Inv s' := by
  cases step_cases hstep with
  | @submit t priority run hpc hstop =>
    have hmoved : Inv (s.putClient t .notifying) :=
      h.putClient (fun hn => by rw [hpc] at hn; cases hn) (fun hn => by rw [hpc] at hn; cases hn)
    exact hmoved.enqueue hH hstop (.inr ⟨t, by simp [World.putClient]⟩) priority run
  | submitRefused | submitWithinRefused | dequeueNothing => exact h
  | @submitWithin w task priority run hpc hstop =>
    have hmoved : Inv (s.putWorker w (.notifying task)) :=
      h.putWorker (fun k => by rw [hpc]; rfl) nofun (fun _ => rfl) nofun
    exact hmoved.enqueue hH hstop (.inl ⟨w, by simp [World.putWorker, WorkerPc.isAwake]⟩)
      priority run
  | notifyNobody hpc hnone =>
    exact h.putClient (fun _ => h.exists_awake hnone) (fun hn => by rw [hpc] at hn; cases hn)
  | @notifyWorker t u hpc hu =>
    -- the worker is woken first, so that somebody is awake when the notifier leaves
    have hwoken : Inv (s.putWorker u .contending) := h.wakeWorker hu
    refine hwoken.putClient (fun _ _ => ⟨u, ?_⟩) (fun hn => ?_)
    · simp [World.putWorker, WorkerPc.isAwake]
    · rw [show (s.putWorker u .contending).client t = s.client t from rfl, hpc] at hn
      cases hn
  | @notifyWithin w task u s' hpc hs' =>
    have hmoved : Inv (s.putWorker w (.running task)) :=
      h.putWorker (fun k => by rw [hpc]; rfl) nofun (fun _ => rfl) nofun
    exact hmoved.notifyOne hs'
  | @shutdown t hpc =>
    have hmoved : Inv (s.putClient t .notifyingAll) :=
      h.putClient (fun hn => by rw [hpc] at hn; cases hn) (fun hn => by rw [hpc] at hn; cases hn)
    exact hmoved.stop ⟨t, by simp [World.putClient]⟩
  | notifyAll hpc =>
    refine h.wakeAll.putClient (fun hn => ?_) (fun _ w => ?_)
    · rw [hpc] at hn
      cases hn
    · cases hw : s.worker w <;> simp [hw, WorkerPc.wake]
  | join hpc =>
    exact h.putClient (fun hn => by rw [hpc] at hn; cases hn)
      (fun hn => by rw [hpc] at hn; cases hn)
  | wake hpc => exact h.wakeWorker hpc
  | park hpc hempty hstop =>
    exact h.putWorker (fun k => by rw [hpc]; rfl) nofun (absurd hempty) fun _ => hstop
  | exit hpc hempty hstop =>
    exact h.putWorker (fun k => by rw [hpc]; rfl) (fun _ => ⟨hstop, hempty⟩) (absurd hempty) nofun
  | dequeue hpc hd hne => exact h.dequeue hH hpc hne hd
  | finish hpc => exact h.finish hpc

end Moves

/-! ## Every reachable state -/

variable [DecidableEq τ] [DecidableEq ω] [Fintype ω] {H : HeapAlgorithms (QueuedTask ρ)}
variable {s s' : World ρ τ ω}

/-- What holds in every state `s`, and of every step and run from it. -/
structure RunsOnce (H : HeapAlgorithms (QueuedTask ρ)) (s : World ρ τ ω) : Prop where
  /-- An accepted task is queued or was dequeued by one worker, once. -/
  once : ∀ k, copies k s.pool.heap + copies k s.taken = if k < s.pool.accepted then 1 else 0
  /-- A worker that gets a task removes it from the queue, and it is the one to run next. -/
  order : ∀ w s' task, s.step H (.workerLoop w) = some s' → s'.worker w = .running task →
    s'.dequeued = s.dequeued ++ [(w, task)] ∧ s.pool.heap.Perm (task :: s'.pool.heap) ∧
    ∀ other ∈ s'.pool.heap, other.priority < task.priority ∨
      other.priority = task.priority ∧ task.sequence ≤ other.sequence ∧
        (s.pool.accepted ≤ 2 ^ 64 → task.ticket < other.ticket)
  /-- Once the pool is stopping, `submit` throws and nothing is enqueued. -/
  refused : s.pool.stopping = true → ∀ as s', Transition.run (World.step H) s as = some s' →
    s'.pool.stopping = true ∧ s'.pool.accepted = s.pool.accepted ∧
    (∀ priority run, s'.pool.submit H priority run =
      .error "ThreadPool: submit after shutdown") ∧
    (∀ t priority run s'', s'.step H (.submit t priority run) = some s'' → s'' = s') ∧
    ∀ w priority run s'', s'.step H (.submitWithin w priority run) = some s'' → s'' = s'
  /-- When every worker has exited, every accepted task was dequeued once and run once. -/
  drained : (∀ w, s.worker w = .exited) → s.pool.heap = [] ∧
    ∀ k < s.pool.accepted, copies k s.taken = 1 ∧ copies k s.done = 1
  /-- While a task is queued, a worker is awake or about to be notified. -/
  awake : s.pool.heap ≠ [] →
    (∃ w, (s.worker w).isAwake = true) ∨ ∃ t, s.client t = .notifying
  /-- Once the pool is stopping, a worker stays parked only until the notification is sent. -/
  notified : s.pool.stopping = true → ∀ w, s.worker w = .parked → ∃ t, s.client t = .notifyingAll

theorem Inv.order (hH : H.Correct runsLater) (h : Inv s) {w : ω} {task : QueuedTask ρ}
    (hstep : s.step H (.workerLoop w) = some s') (hrun : s'.worker w = .running task) :
    s'.dequeued = s.dequeued ++ [(w, task)] ∧ s.pool.heap.Perm (task :: s'.pool.heap) ∧
    ∀ other ∈ s'.pool.heap, other.priority < task.priority ∨
      other.priority = task.priority ∧ task.sequence ≤ other.sequence ∧
        (s.pool.accepted ≤ 2 ^ 64 → task.ticket < other.ticket) := by
  cases step_cases hstep with
  | park | exit => simp [World.putWorker] at hrun
  | dequeueNothing hpc =>
    rw [hpc] at hrun
    cases hrun
  | @dequeue w task' pool hpc hd hne =>
    obtain ⟨first, heap, hd', hperm, hfirst, -⟩ := h.queue.dequeue hH hne
    rw [hd] at hd'
    cases hd'
    simp only [World.putWorker, Function.update_self, WorkerPc.running.injEq] at hrun
    subst hrun
    refine ⟨rfl, hperm, fun other hmem => ?_⟩
    rcases runsLater_eq_false.1 (hfirst other hmem) with hlt | ⟨heq, hle⟩
    · exact .inl hlt
    · exact .inr ⟨heq, hle, fun hfew => h.queue.ticket_order hfew hperm hmem hle⟩

omit [DecidableEq τ] in
theorem notifyOne_pool {u : Option ω} (hs' : s.notifyOne u = some s') : s'.pool = s.pool := by
  cases u with
  | none =>
    simp only [World.notifyOne] at hs'
    split_ifs at hs'
    cases hs'
    rfl
  | some u =>
    simp only [World.notifyOne] at hs'
    split_ifs at hs'
    cases hs'
    rfl

/-- A step of a stopping pool enqueues nothing, and the pool stays stopping. -/
theorem step_stopping {a : Action ρ τ ω} (hstop : s.pool.stopping = true)
    (hstep : s.step H a = some s') :
    s'.pool.stopping = true ∧ s'.pool.accepted = s.pool.accepted := by
  have hgo : ∀ {P : Prop}, s.pool.stopping = false → P := by
    intro P hgo
    rw [hstop] at hgo
    cases hgo
  cases step_cases hstep with
  | submit _ _ _ h | submitWithin _ _ _ h => exact hgo h
  | @notifyWithin w task u s' hpc hs' =>
    rw [notifyOne_pool hs']
    exact ⟨hstop, rfl⟩
  | shutdown => exact ⟨rfl, rfl⟩
  | @dequeue w task pool hpc hd hne =>
    simp only [ThreadPool.dequeue, Option.map_eq_some_iff, Prod.mk.injEq] at hd
    obtain ⟨-, -, -, rfl⟩ := hd
    exact ⟨hstop, rfl⟩
  | _ => exact ⟨hstop, rfl⟩

theorem run_stopping {as : List (Action ρ τ ω)} (hstop : s.pool.stopping = true)
    (hrun : Transition.run (World.step H) s as = some s') :
    s'.pool.stopping = true ∧ s'.pool.accepted = s.pool.accepted := by
  refine run_invariant (World.step H) (I := fun t => t.pool.stopping = true ∧
    t.pool.accepted = s.pool.accepted) (fun t a t' hI hstep => ?_) ⟨hstop, rfl⟩ hrun
  obtain ⟨hstop', hsame⟩ := step_stopping hI.1 hstep
  exact ⟨hstop', hsame.trans hI.2⟩

theorem submit_refused (hstop : s.pool.stopping = true) :
    (∀ priority run, s.pool.submit H priority run = .error "ThreadPool: submit after shutdown") ∧
    (∀ t priority run s', s.step H (.submit t priority run) = some s' → s' = s) ∧
    ∀ w priority run s', s.step H (.submitWithin w priority run) = some s' → s' = s := by
  have hthrow : ∀ priority run,
      s.pool.submit H priority run = .error "ThreadPool: submit after shutdown" := by
    intro priority run
    rw [ThreadPool.submit, if_pos hstop]
  refine ⟨hthrow, fun t priority run s' hstep => ?_, fun w priority run s' hstep => ?_⟩
  · simp only [World.step, hthrow] at hstep
    split_ifs at hstep
    exact (Option.some.inj hstep).symm
  · simp only [World.step, hthrow] at hstep
    split at hstep
    · exact (Option.some.inj hstep).symm
    · cases hstep

omit [DecidableEq τ] [DecidableEq ω] in
/-- One exited worker has seen the queue empty for good, and no worker runs anything. -/
theorem Inv.drained [Nonempty ω] (h : Inv s) (hall : ∀ w, s.worker w = .exited) :
    s.pool.heap = [] ∧ ∀ k < s.pool.accepted, copies k s.taken = 1 ∧ copies k s.done = 1 := by
  obtain ⟨w⟩ := ‹Nonempty ω›
  obtain ⟨-, hempty⟩ := h.exited w (hall w)
  refine ⟨hempty, fun k hk => ?_⟩
  have honce := h.queue.once k
  have hrun := h.run k
  have hnone : tally (WorkerPc.runs k) s.worker = 0 := by
    refine tally_eq_zero.2 fun w => ?_
    rw [hall w]
    rfl
  rw [hempty, if_pos hk] at honce
  have hzero : copies k ([] : List (QueuedTask ρ)) = 0 := rfl
  omega

/-- **Exactly once, in order, drained.** For any correct heap algorithms, any number of workers
and any interleaving of submissions, dequeues and a shutdown. -/
theorem reachable_runs_once [Nonempty ω]
    (hH : ∀ lt : QueuedTask ρ → QueuedTask ρ → Bool,
      (IsStrictWeakOrder (QueuedTask ρ) fun a b => lt a b = true) → H.Correct lt)
    (h : Reachable (World.step H) (World.initial ρ τ ω) s) : RunsOnce H s := by
  have hcorrect : H.Correct runsLater := hH runsLater isStrictWeakOrder_runsLater
  have hinv : Inv s :=
    h.invariant (World.step H) inv_initial fun _ _ _ hI hstep => inv_step hcorrect hI hstep
  exact {
    once := hinv.queue.once
    order := fun w s' task hstep hrun => hinv.order hcorrect hstep hrun
    refused := fun hstop as s' hrun => by
      obtain ⟨hstop', hsame⟩ := run_stopping hstop hrun
      exact ⟨hstop', hsame, submit_refused hstop'⟩
    drained := hinv.drained
    awake := hinv.awake
    notified := hinv.notified }

/-- One worker; its first task submits two others, the more urgent one last, and the pool is
shut down while one of them is still queued. -/
def nestedTasks : List (Action String Unit Unit) :=
  [.submit () 0 "first", .notify () none, .workerLoop (), .submitWithin () 0 "low",
    .notifyWithin () none, .submitWithin () 5 "high", .notifyWithin () none, .finish (),
    .workerLoop (), .shutdown (), .notifyAll (), .finish (), .workerLoop (), .finish (),
    .workerLoop (), .join ()]

theorem reachable_runs_once_nestedTasks :
    ∃ s : World String Unit Unit,
      Transition.run (World.step (HeapAlgorithms.sorting _)) (World.initial String Unit Unit)
        nestedTasks = some s ∧
      s.dequeued.map (fun entry => entry.2.run) = ["first", "high", "low"] ∧
      s.pool.heap = [] ∧ ∀ k < 3, copies k s.done = 1 := by
  have hrun : ∃ s, Transition.run (World.step (HeapAlgorithms.sorting _))
      (World.initial String Unit Unit) nestedTasks = some s ∧
      s.dequeued.map (fun entry => entry.2.run) = ["first", "high", "low"] ∧
      s.pool.accepted = 3 ∧ ∀ w, s.worker w = .exited := ⟨_, rfl, rfl, rfl, by decide⟩
  obtain ⟨s, hs, hdequeued, haccepted, hexited⟩ := hrun
  have honce := reachable_runs_once (fun _ => HeapAlgorithms.sorting_correct) ⟨nestedTasks, hs⟩
  obtain ⟨hempty, hdone⟩ := honce.drained hexited
  exact ⟨s, hs, hdequeued, hempty, fun k hk => (hdone k (by omega)).2⟩

end ThreadPool

end EglUtil
