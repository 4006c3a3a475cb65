import EglUtil.Lib.Runs
import EglUtil.Lib.Tally

/-!
# `ReaderWriterLock`: exclusion and accounting

A writer-preferring reader/writer lock: one mutex, one condition variable per side, and three
fields. Each section that holds the mutex is one step. A thread that waits on a condition
variable is *parked*; it becomes *woken* by a notification, spuriously, or (in a timed call) by
its deadline, and then re-acquires the mutex and tests its predicate again. A notification is a
step of its own, taken after the mutex is released.

**Theorem (`reachable_accounted`).** In every reachable state the three fields count exactly the
threads they are about, a writer excludes readers, and no thread acquires shared ownership while
a writer waits.

Callers meet the documented preconditions: a thread releases only a mode it holds, and does not
acquire shared ownership it already holds.
-/

namespace EglUtil

open Transition Tally

/-- The fields guarded by `mutex_`. -/
structure ReaderWriterLock where
  activeReaders : Nat
  waitingWriters : Nat
  writerActive : Bool
deriving Repr, DecidableEq

namespace ReaderWriterLock

/-! ## The sections that hold the mutex -/

/-- What a thread sends after it has released the mutex. -/
inductive Notification where
  /-- `writer_turn_.notify_one()` -/
  | writerTurn
  /-- `readers_allowed_.notify_all()` -/
  | readersAllowed
deriving Repr, DecidableEq

def initial : ReaderWriterLock := ⟨0, 0, false⟩

/-- The predicate of `writer_turn_`. -/
def writerMayEnter (l : ReaderWriterLock) : Bool := !l.writerActive && l.activeReaders == 0

/-- The predicate of `readers_allowed_`. -/
def readerMayEnter (l : ReaderWriterLock) : Bool := !l.writerActive && l.waitingWriters == 0

/-- `++waiting_writers_`, before the wait of `lock` and of `writer_wait`. -/
def announceWriter (l : ReaderWriterLock) : ReaderWriterLock :=
  { l with waitingWriters := l.waitingWriters + 1 }

/-- `--waiting_writers_; writer_active_ = true`, once the wait has succeeded. -/
def admitWriter (l : ReaderWriterLock) : ReaderWriterLock :=
  { l with waitingWriters := l.waitingWriters - 1, writerActive := true }

/-- The end of `writer_wait` on a timeout: the readers held back on this writer's account are
woken when no other writer holds or awaits the lock. -/
def giveUpWriter (l : ReaderWriterLock) : ReaderWriterLock × Option Notification :=
  let l' := { l with waitingWriters := l.waitingWriters - 1 }
  (l', if l'.waitingWriters = 0 ∧ l'.writerActive = false then some .readersAllowed else none)

def tryLock (l : ReaderWriterLock) : Option ReaderWriterLock :=
  if l.writerActive = true ∨ l.activeReaders > 0 then none
  else some { l with writerActive := true }

def unlock (l : ReaderWriterLock) : ReaderWriterLock × Notification :=
  ({ l with writerActive := false },
    if l.waitingWriters > 0 then .writerTurn else .readersAllowed)

/-- `++active_readers_`, once a shared acquisition has passed its test. -/
def admitReader (l : ReaderWriterLock) : ReaderWriterLock :=
  { l with activeReaders := l.activeReaders + 1 }

def tryLockShared (l : ReaderWriterLock) : Option ReaderWriterLock :=
  if l.writerActive = true ∨ l.waitingWriters > 0 then none else some l.admitReader

def unlockShared (l : ReaderWriterLock) : ReaderWriterLock × Option Notification :=
  let l' := { l with activeReaders := l.activeReaders - 1 }
  (l', if l'.activeReaders = 0 ∧ l'.waitingWriters > 0 then some .writerTurn else none)

/-! ## Threads -/

/-- Where a thread stands. `timed` tells `try_lock_for`/`try_lock_until` (and their shared
counterparts) from `lock` (`lock_shared`); `expired` that the deadline has passed. -/
inductive Pc where
  | idle
  | writerParked (timed : Bool)
  | writerWoken (timed expired : Bool)
  | readerParked (timed : Bool)
  | readerWoken (timed expired : Bool)
  | notifying (n : Notification)
deriving Repr, DecidableEq

structure Thread where
  pc : Pc
  shared : Bool
  exclusive : Bool
deriving Repr, DecidableEq

/-- The thread is inside a blocking or timed writer acquisition. -/
def Thread.awaitsWrite (th : Thread) : Bool :=
  match th.pc with
  | .writerParked _ | .writerWoken _ _ => true
  | _ => false

structure World (τ : Type*) where
  lock : ReaderWriterLock
  thread : τ → Thread

inductive Action (τ : Type*) where
  /-- `lock` (untimed), or `try_lock_for` / `try_lock_until` (timed) -/
  | lock (t : τ) (timed : Bool)
  | tryLock (t : τ)
  | unlock (t : τ)
  /-- `lock_shared` (untimed), or `try_lock_shared_for` / `try_lock_shared_until` (timed) -/
  | lockShared (t : τ) (timed : Bool)
  | tryLockShared (t : τ)
  | unlockShared (t : τ)
  /-- A spurious wake-up of a parked thread. -/
  | wake (t : τ)
  /-- The deadline of a timed wait passes. -/
  | expire (t : τ)
  /-- A woken thread re-acquires the mutex and tests its predicate. -/
  | recheck (t : τ)
  /-- The pending notification is sent; a `notify_one` wakes `u`, or nobody if no writer is
  parked. -/
  | notify (t : τ) (u : Option τ)

def World.initial (τ : Type*) : World τ :=
  ⟨ReaderWriterLock.initial, fun _ => ⟨.idle, false, false⟩⟩

/-- `notify_all` on `readers_allowed_`. -/
def Thread.wakeReader (th : Thread) : Thread :=
  match th.pc with
  | .readerParked timed => { th with pc := .readerWoken timed false }
  | _ => th

def Thread.parkedWriter (th : Thread) : Bool :=
  match th.pc with
  | .writerParked _ => true
  | _ => false

variable {τ : Type*}

section Steps

variable [DecidableEq τ]

/-- Thread `t` leaves its section with lock fields `l` and local state `th`. -/
def World.put (s : World τ) (t : τ) (l : ReaderWriterLock) (th : Thread) : World τ :=
  ⟨l, Function.update s.thread t th⟩

/-- Where a thread goes after its section: to send a notification, or back to its caller. -/
def afterSection : Option Notification → Pc
  | some n => .notifying n
  | none => .idle

/-- The wait of a writer that has announced itself: take the lock or park. -/
def World.writerTest (s : World τ) (t : τ) (l : ReaderWriterLock) (timed : Bool) : World τ :=
  if l.writerMayEnter then
    s.put t l.admitWriter { s.thread t with pc := .idle, exclusive := true }
  else s.put t l { s.thread t with pc := .writerParked timed }

/-- The wait of a reader: take the lock or park. -/
def World.readerTest (s : World τ) (t : τ) (timed : Bool) : World τ :=
  if s.lock.readerMayEnter then
    s.put t s.lock.admitReader { s.thread t with pc := .idle, shared := true }
  else s.put t s.lock { s.thread t with pc := .readerParked timed }

def World.step [Fintype τ] (s : World τ) : Action τ → Option (World τ)
  | .lock t timed =>
    if (s.thread t).pc = .idle then some (s.writerTest t s.lock.announceWriter timed) else none
  | .tryLock t =>
    if (s.thread t).pc = .idle then
      match s.lock.tryLock with
      | some l => some (s.put t l { s.thread t with exclusive := true })
      | none => some s
    else none
  | .unlock t =>
    if (s.thread t).pc = .idle ∧ (s.thread t).exclusive = true then
      some (s.put t s.lock.unlock.1
        { s.thread t with pc := .notifying s.lock.unlock.2, exclusive := false })
    else none
  | .lockShared t timed =>
    if (s.thread t).pc = .idle ∧ (s.thread t).shared = false then some (s.readerTest t timed)
    else none
  | .tryLockShared t =>
    if (s.thread t).pc = .idle ∧ (s.thread t).shared = false then
      match s.lock.tryLockShared with
      | some l => some (s.put t l { s.thread t with shared := true })
      | none => some s
    else none
  | .unlockShared t =>
    if (s.thread t).pc = .idle ∧ (s.thread t).shared = true then
      some (s.put t s.lock.unlockShared.1
        { s.thread t with pc := afterSection s.lock.unlockShared.2, shared := false })
    else none
  | .wake t =>
    match (s.thread t).pc with
    | .writerParked timed =>
      some (s.put t s.lock { s.thread t with pc := .writerWoken timed false })
    | .readerParked timed =>
      some (s.put t s.lock { s.thread t with pc := .readerWoken timed false })
    | _ => none
  | .expire t =>
    match (s.thread t).pc with
    | .writerParked true => some (s.put t s.lock { s.thread t with pc := .writerWoken true true })
    | .readerParked true => some (s.put t s.lock { s.thread t with pc := .readerWoken true true })
    | _ => none
  | .recheck t =>
    match (s.thread t).pc with
    | .writerWoken timed expired =>
      if s.lock.writerMayEnter = false ∧ expired = true then
        some (s.put t s.lock.giveUpWriter.1
          { s.thread t with pc := afterSection s.lock.giveUpWriter.2 })
      else some (s.writerTest t s.lock timed)
    | .readerWoken timed expired =>
      if s.lock.readerMayEnter = false ∧ expired = true then
        some (s.put t s.lock { s.thread t with pc := .idle })
      else some (s.readerTest t timed)
    | _ => none
  | .notify t u =>
    match (s.thread t).pc with
    | .notifying .readersAllowed =>
      some ⟨s.lock,
        Function.update (fun v => (s.thread v).wakeReader) t { s.thread t with pc := .idle }⟩
    | .notifying .writerTurn =>
      match u with
      | none =>
        if ∀ v, (s.thread v).parkedWriter = false then
          some (s.put t s.lock { s.thread t with pc := .idle })
        else none
      | some v =>
        match (s.thread v).pc with
        | .writerParked timed =>
          some ⟨s.lock, Function.update (Function.update s.thread v
            { s.thread v with pc := .writerWoken timed false }) t { s.thread t with pc := .idle }⟩
        | _ => none
    | _ => none

/-! ## What a step can do -/

/-- The steps, one constructor for each way they can go, with what held before. -/
inductive Step (s : World τ) : Action τ → World τ → Prop where
  | lock {t : τ} (timed : Bool) (hpc : (s.thread t).pc = .idle) :
      Step s (.lock t timed) (s.writerTest t s.lock.announceWriter timed)
  | tryLock {t : τ} (hpc : (s.thread t).pc = .idle) (ha : s.lock.writerActive = false)
      (hr : s.lock.activeReaders = 0) :
      Step s (.tryLock t)
        (s.put t { s.lock with writerActive := true } { s.thread t with exclusive := true })
  | tryLockFailed (t : τ) : Step s (.tryLock t) s
  | unlock {t : τ} (hpc : (s.thread t).pc = .idle) (hx : (s.thread t).exclusive = true) :
      Step s (.unlock t) (s.put t s.lock.unlock.1
        { s.thread t with pc := .notifying s.lock.unlock.2, exclusive := false })
  | lockShared {t : τ} (timed : Bool) (hpc : (s.thread t).pc = .idle)
      (hs : (s.thread t).shared = false) : Step s (.lockShared t timed) (s.readerTest t timed)
  | tryLockShared {t : τ} (hpc : (s.thread t).pc = .idle) (hs : (s.thread t).shared = false)
      (ha : s.lock.writerActive = false) (hw : s.lock.waitingWriters = 0) :
      Step s (.tryLockShared t) (s.put t s.lock.admitReader { s.thread t with shared := true })
  | tryLockSharedFailed (t : τ) : Step s (.tryLockShared t) s
  | unlockShared {t : τ} (hpc : (s.thread t).pc = .idle) (hs : (s.thread t).shared = true) :
      Step s (.unlockShared t) (s.put t s.lock.unlockShared.1
        { s.thread t with pc := afterSection s.lock.unlockShared.2, shared := false })
  | wakeWriter {t : τ} {timed : Bool} (hpc : (s.thread t).pc = .writerParked timed) :
      Step s (.wake t) (s.put t s.lock { s.thread t with pc := .writerWoken timed false })
  | wakeReader {t : τ} {timed : Bool} (hpc : (s.thread t).pc = .readerParked timed) :
      Step s (.wake t) (s.put t s.lock { s.thread t with pc := .readerWoken timed false })
  | expireWriter {t : τ} (hpc : (s.thread t).pc = .writerParked true) :
      Step s (.expire t) (s.put t s.lock { s.thread t with pc := .writerWoken true true })
  | expireReader {t : τ} (hpc : (s.thread t).pc = .readerParked true) :
      Step s (.expire t) (s.put t s.lock { s.thread t with pc := .readerWoken true true })
  | giveUpWriter {t : τ} {timed : Bool} (hpc : (s.thread t).pc = .writerWoken timed true)
      (hbusy : s.lock.writerMayEnter = false) :
      Step s (.recheck t) (s.put t s.lock.giveUpWriter.1
        { s.thread t with pc := afterSection s.lock.giveUpWriter.2 })
  | recheckWriter {t : τ} {timed expired : Bool}
      (hpc : (s.thread t).pc = .writerWoken timed expired) :
      Step s (.recheck t) (s.writerTest t s.lock timed)
  | giveUpReader {t : τ} {timed : Bool} (hpc : (s.thread t).pc = .readerWoken timed true)
      (hbusy : s.lock.readerMayEnter = false) :
      Step s (.recheck t) (s.put t s.lock { s.thread t with pc := .idle })
  | recheckReader {t : τ} {timed expired : Bool}
      (hpc : (s.thread t).pc = .readerWoken timed expired) :
      Step s (.recheck t) (s.readerTest t timed)
  | notifyReaders {t : τ} (u : Option τ) (hpc : (s.thread t).pc = .notifying .readersAllowed) :
      Step s (.notify t u) ⟨s.lock,
        Function.update (fun v => (s.thread v).wakeReader) t { s.thread t with pc := .idle }⟩
  | notifyNobody {t : τ} (hpc : (s.thread t).pc = .notifying .writerTurn) :
      Step s (.notify t none) (s.put t s.lock { s.thread t with pc := .idle })
  | notifyWriter {t v : τ} {timed : Bool} (hpc : (s.thread t).pc = .notifying .writerTurn)
      (hv : (s.thread v).pc = .writerParked timed) :
      Step s (.notify t (some v)) ⟨s.lock, Function.update (Function.update s.thread v
        { s.thread v with pc := .writerWoken timed false }) t { s.thread t with pc := .idle }⟩

/-- **Inversion.** -/
theorem step_cases [Fintype τ] {s s' : World τ} {a : Action τ} (h : s.step a = some s') :
    Step s a s' := by
  cases a with
  | lock t timed =>
    simp only [World.step] at h
    split_ifs at h with hpc
    cases h
    exact .lock timed hpc
  | tryLock t =>
    simp only [World.step, ReaderWriterLock.tryLock] at h
    split_ifs at h with hpc hbusy <;> cases h
    · exact .tryLockFailed t
    · push Not at hbusy
      exact .tryLock hpc (Bool.eq_false_iff.2 hbusy.1) (Nat.le_zero.1 hbusy.2)
  | unlock t =>
    simp only [World.step] at h
    split_ifs at h with hpc
    cases h
    exact .unlock hpc.1 hpc.2
  | lockShared t timed =>
    simp only [World.step] at h
    split_ifs at h with hpc
    cases h
    exact .lockShared timed hpc.1 hpc.2
  | tryLockShared t =>
    simp only [World.step, ReaderWriterLock.tryLockShared] at h
    split_ifs at h with hpc hbusy <;> cases h
    · exact .tryLockSharedFailed t
    · push Not at hbusy
      exact .tryLockShared hpc.1 hpc.2 (Bool.eq_false_iff.2 hbusy.1) (Nat.le_zero.1 hbusy.2)
  | unlockShared t =>
    simp only [World.step] at h
    split_ifs at h with hpc
    cases h
    exact .unlockShared hpc.1 hpc.2
  | wake t =>
    simp only [World.step] at h
    split at h <;> cases h
    · next hpc => exact .wakeWriter hpc
    · next hpc => exact .wakeReader hpc
  | expire t =>
    simp only [World.step] at h
    split at h <;> cases h
    · next hpc => exact .expireWriter hpc
    · next hpc => exact .expireReader hpc
  | recheck t =>
    simp only [World.step] at h
    split at h
    · next timed expired hpc =>
      split_ifs at h with hgive <;> cases h
      · exact .giveUpWriter (hgive.2 ▸ hpc) hgive.1
      · exact .recheckWriter hpc
    · next timed expired hpc =>
      split_ifs at h with hgive <;> cases h
      · exact .giveUpReader (hgive.2 ▸ hpc) hgive.1
      · exact .recheckReader hpc
    · cases h
  | notify t u =>
    simp only [World.step] at h
    split at h
    · next hpc =>
      cases h
      exact .notifyReaders u hpc
    · next hpc =>
      split at h
      · split_ifs at h
        cases h
        exact .notifyNobody hpc
      · split at h <;> cases h
        next hv => exact .notifyWriter hpc hv
    · cases h

end Steps

/-! ## The invariant -/

/-- The thread is inside a blocking or timed reader acquisition. -/
def Thread.awaitsRead (th : Thread) : Bool :=
  match th.pc with
  | .readerParked _ | .readerWoken _ _ => true
  | _ => false

section Counts

variable [Fintype τ]

/-- The three fields count the threads they are about, a writer excludes readers, and nobody
waits for shared ownership it holds. -/
structure Inv (s : World τ) : Prop where
  readers : s.lock.activeReaders = tally Thread.shared s.thread
  writers : s.lock.waitingWriters = tally Thread.awaitsWrite s.thread
  writer : s.lock.writerActive.toNat = tally Thread.exclusive s.thread
  excludes : s.lock.writerActive = true → s.lock.activeReaders = 0
  reading : ∀ t, (s.thread t).awaitsRead = true → (s.thread t).shared = false

variable {s : World τ} {t : τ}

theorem Inv.reader_pos (h : Inv s) (ht : (s.thread t).shared = true) :
    0 < s.lock.activeReaders := by
  rw [h.readers]
  exact tally_pos ht

theorem Inv.waiting_pos (h : Inv s) (ht : (s.thread t).awaitsWrite = true) :
    0 < s.lock.waitingWriters := by
  rw [h.writers]
  exact tally_pos ht

theorem Inv.active_of_exclusive (h : Inv s) (ht : (s.thread t).exclusive = true) :
    s.lock.writerActive = true := by
  have hpos : 0 < s.lock.writerActive.toNat := by
    rw [h.writer]
    exact tally_pos ht
  cases hact : s.lock.writerActive with
  | true => rfl
  | false => simp [hact] at hpos

theorem Inv.exclusive_of_free (h : Inv s) (hfree : s.lock.writerActive = false) (t : τ) :
    (s.thread t).exclusive = false := by
  cases hx : (s.thread t).exclusive with
  | false => rfl
  | true =>
    rw [h.active_of_exclusive hx] at hfree
    cases hfree

end Counts

theorem writerMayEnter_iff {l : ReaderWriterLock} :
    l.writerMayEnter = true ↔ l.writerActive = false ∧ l.activeReaders = 0 := by
  simp [writerMayEnter]

theorem readerMayEnter_iff {l : ReaderWriterLock} :
    l.readerMayEnter = true ↔ l.writerActive = false ∧ l.waitingWriters = 0 := by
  simp [readerMayEnter]

/-! ## One step -/

variable [DecidableEq τ] [Fintype τ] {s s' : World τ} {t : τ}

/-- One thread moves, and each field changes by that thread's contribution. -/
theorem Inv.put (h : Inv s) {l : ReaderWriterLock} {th : Thread}
    (hr : l.activeReaders + (s.thread t).shared.toNat = s.lock.activeReaders + th.shared.toNat)
    (hw : l.waitingWriters + (s.thread t).awaitsWrite.toNat =
      s.lock.waitingWriters + th.awaitsWrite.toNat)
    (ha : l.writerActive.toNat + (s.thread t).exclusive.toNat =
      s.lock.writerActive.toNat + th.exclusive.toNat)
    (hx : l.writerActive = true → l.activeReaders = 0)
    (hf : th.awaitsRead = true → th.shared = false) : Inv (s.put t l th) where
  readers := by
    have := tally_update Thread.shared s.thread t th
    have := h.readers
    simp only [World.put]
    omega
  writers := by
    have := tally_update Thread.awaitsWrite s.thread t th
    have := h.writers
    simp only [World.put]
    omega
  writer := by
    have := tally_update Thread.exclusive s.thread t th
    have := h.writer
    simp only [World.put]
    omega
  excludes := hx
  reading := by
    intro u hu
    simp only [World.put] at hu ⊢
    by_cases hut : u = t
    · subst hut
      rw [Function.update_self] at hu ⊢
      exact hf hu
    · rw [Function.update_of_ne hut] at hu ⊢
      exact h.reading u hu

/-- A move that touches neither the fields nor what the thread holds or waits for. -/
theorem Inv.move (h : Inv s) {p : Pc}
    (hw : ({ s.thread t with pc := p } : Thread).awaitsWrite = (s.thread t).awaitsWrite)
    (hf : ({ s.thread t with pc := p } : Thread).awaitsRead = true →
      (s.thread t).shared = false) :
    Inv (s.put t s.lock { s.thread t with pc := p }) :=
  h.put rfl (by rw [hw]) rfl h.excludes hf

/-- A writer that is counted, or has just announced itself, takes the lock or parks. -/
theorem Inv.writerTest (h : Inv s) {l : ReaderWriterLock} {timed : Bool}
    (hlr : l.activeReaders = s.lock.activeReaders) (hla : l.writerActive = s.lock.writerActive)
    (hw : l.waitingWriters + (s.thread t).awaitsWrite.toNat = s.lock.waitingWriters + 1)
    (hpos : 0 < l.waitingWriters) : Inv (s.writerTest t l timed) := by
  unfold World.writerTest
  split_ifs with hfree
  · obtain ⟨hna, hnr⟩ := writerMayEnter_iff.1 hfree
    have hnx := h.exclusive_of_free (hla ▸ hna) t
    refine h.put ?_ ?_ ?_ (fun _ => hnr) nofun
    · simp only [admitWriter, hlr]
    · simp only [admitWriter, Thread.awaitsWrite, Bool.toNat_false] at hw ⊢
      omega
    · simp [admitWriter, hnx, ← hla, hna]
  · refine h.put ?_ ?_ ?_ ?_ nofun
    · simp only [hlr]
    · simpa [Thread.awaitsWrite] using hw
    · simp only [hla]
    · rw [hlr, hla]
      exact h.excludes

theorem Inv.readerTest (h : Inv s) {timed : Bool} (hs : (s.thread t).shared = false)
    (hw : (s.thread t).awaitsWrite = false) : Inv (s.readerTest t timed) := by
  unfold World.readerTest
  split_ifs with hfree
  · obtain ⟨hna, -⟩ := readerMayEnter_iff.1 hfree
    refine h.put ?_ ?_ rfl (fun hact => ?_) nofun
    · simp [admitReader, hs]
    · rw [hw]
      rfl
    · rw [admitReader, hna] at hact
      cases hact
  · exact h.move hw.symm fun _ => hs

omit [DecidableEq τ] in
/-- Waking every parked reader changes no count. -/
theorem Inv.wakeReaders (h : Inv s) : Inv ⟨s.lock, fun v => (s.thread v).wakeReader⟩ := by
  have hs : ∀ th : Thread, th.wakeReader.shared = th.shared ∧
      th.wakeReader.exclusive = th.exclusive ∧ th.wakeReader.awaitsWrite = th.awaitsWrite ∧
      th.wakeReader.awaitsRead = th.awaitsRead := by
    rintro ⟨pc, -, -⟩
    cases pc <;> exact ⟨rfl, rfl, rfl, rfl⟩
  refine ⟨h.readers.trans ?_, h.writers.trans ?_, h.writer.trans ?_, h.excludes, fun t ht => ?_⟩
  · simp only [tally, (hs _).1]
  · simp only [tally, (hs _).2.2.1]
  · simp only [tally, (hs _).2.1]
  · rw [(hs _).1]
    exact h.reading t ((hs _).2.2.2 ▸ ht)

omit [DecidableEq τ] in
theorem inv_initial : Inv (World.initial τ) := by
  have hnone : ∀ p : Thread → Bool, p ⟨.idle, false, false⟩ = false →
      0 = tally p (World.initial τ).thread := fun p hp => (tally_eq_zero.2 fun _ => hp).symm
  exact ⟨hnone _ rfl, hnone _ rfl, hnone _ rfl, nofun, fun _ h => by cases h⟩

theorem Inv.tryLock (h : Inv s) (hpc : (s.thread t).pc = .idle)
    (ha : s.lock.writerActive = false) (hr : s.lock.activeReaders = 0) :
    Inv (s.put t { s.lock with writerActive := true } { s.thread t with exclusive := true }) := by
  refine h.put rfl rfl ?_ (fun _ => hr) fun hf => ?_
  · simp [ha, h.exclusive_of_free ha t]
  · simp [Thread.awaitsRead, hpc] at hf

theorem Inv.tryLockShared (h : Inv s) (hpc : (s.thread t).pc = .idle)
    (hs : (s.thread t).shared = false) (ha : s.lock.writerActive = false) :
    Inv (s.put t s.lock.admitReader { s.thread t with shared := true }) := by
  refine h.put ?_ rfl rfl (fun hact => ?_) fun hf => ?_
  · simp [admitReader, hs]
  · rw [admitReader, ha] at hact
    cases hact
  · simp [Thread.awaitsRead, hpc] at hf

theorem Inv.unlockShared (h : Inv s) (hpc : (s.thread t).pc = .idle)
    (hs : (s.thread t).shared = true) :
    Inv (s.put t s.lock.unlockShared.1
      { s.thread t with pc := afterSection s.lock.unlockShared.2, shared := false }) := by
  have hpos := h.reader_pos hs
  refine h.put ?_ ?_ rfl (fun hact => ?_) fun _ => rfl
  · simp only [ReaderWriterLock.unlockShared, hs, Bool.toNat_true, Bool.toNat_false]
    omega
  · simp only [ReaderWriterLock.unlockShared, afterSection]
    split_ifs <;> simp [Thread.awaitsWrite, hpc]
  · have hzero := h.excludes hact
    omega

/-- A writer that gives up is no longer counted, whether or not it wakes the readers. -/
theorem Inv.giveUpWriter (h : Inv s) (hw : (s.thread t).awaitsWrite = true) :
    Inv (s.put t s.lock.giveUpWriter.1
      { s.thread t with pc := afterSection s.lock.giveUpWriter.2 }) := by
  have hpos := h.waiting_pos hw
  refine h.put rfl ?_ rfl h.excludes ?_
  · rw [hw]
    simp only [ReaderWriterLock.giveUpWriter, afterSection]
    split_ifs <;> simp [Thread.awaitsWrite] <;> omega
  · simp only [ReaderWriterLock.giveUpWriter, afterSection]
    split_ifs <;> exact nofun

theorem Inv.notifyReaders (h : Inv s) (hpc : (s.thread t).pc = .notifying .readersAllowed) :
    Inv ⟨s.lock,
      Function.update (fun v => (s.thread v).wakeReader) t { s.thread t with pc := .idle }⟩ := by
  have hself : (s.thread t).wakeReader = s.thread t := by simp [Thread.wakeReader, hpc]
  have hidle := h.wakeReaders.move (t := t) (p := .idle)
    (by simp [Thread.awaitsWrite, hself, hpc]) nofun
  simpa only [World.put, hself] using hidle

/-- The notified writer is another thread, so the two moves do not meet. -/
theorem Inv.notifyWriter (h : Inv s) {v : τ} {timed : Bool}
    (hpc : (s.thread t).pc = .notifying .writerTurn)
    (hv : (s.thread v).pc = .writerParked timed) :
    Inv ⟨s.lock, Function.update (Function.update s.thread v
      { s.thread v with pc := .writerWoken timed false }) t { s.thread t with pc := .idle }⟩ := by
  have hne : t ≠ v := by
    rintro rfl
    rw [hpc] at hv
    cases hv
  have hwoken := h.move (t := v) (p := .writerWoken timed false)
    (by simp [Thread.awaitsWrite, hv]) nofun
  have hidle := hwoken.move (t := t) (p := .idle)
    (by simp [World.put, Function.update_of_ne hne, Thread.awaitsWrite, hpc]) nofun
  simpa only [World.put, Function.update_of_ne hne] using hidle

/-- **One step.** Every action keeps the accounts. -/
theorem inv_step {a : Action τ} (h : Inv s) (hstep : s.step a = some s') : Inv s' := by
  cases step_cases hstep with
  | lock timed hpc =>
    refine h.writerTest rfl rfl ?_ (Nat.succ_pos _)
    simp [Thread.awaitsWrite, hpc, announceWriter]
  | tryLock hpc ha hr => exact h.tryLock hpc ha hr
  | tryLockFailed | tryLockSharedFailed => exact h
  | unlock hpc hx =>
    refine h.put rfl ?_ ?_ nofun nofun
    · simp [Thread.awaitsWrite, hpc, ReaderWriterLock.unlock]
    · simp [hx, h.active_of_exclusive hx, ReaderWriterLock.unlock]
  | lockShared timed hpc hs => exact h.readerTest hs (by simp [Thread.awaitsWrite, hpc])
  | tryLockShared hpc hs ha => exact h.tryLockShared hpc hs ha
  | unlockShared hpc hs => exact h.unlockShared hpc hs
  | wakeWriter hpc | expireWriter hpc => exact h.move (by simp [Thread.awaitsWrite, hpc]) nofun
  | wakeReader hpc | expireReader hpc =>
    exact h.move (by simp [Thread.awaitsWrite, hpc])
      fun _ => h.reading _ (by simp [Thread.awaitsRead, hpc])
  | giveUpWriter hpc => exact h.giveUpWriter (by simp [Thread.awaitsWrite, hpc])
  | @recheckWriter t timed expired hpc =>
    have hawaits : (s.thread t).awaitsWrite = true := by simp [Thread.awaitsWrite, hpc]
    exact h.writerTest rfl rfl (by rw [hawaits]; rfl) (h.waiting_pos hawaits)
  | giveUpReader hpc => exact h.move (by simp [Thread.awaitsWrite, hpc]) nofun
  | recheckReader hpc =>
    exact h.readerTest (h.reading _ (by simp [Thread.awaitsRead, hpc]))
      (by simp [Thread.awaitsWrite, hpc])
  | notifyReaders u hpc => exact h.notifyReaders hpc
  | notifyNobody hpc => exact h.move (by simp [Thread.awaitsWrite, hpc]) nofun
  | notifyWriter hpc hv => exact h.notifyWriter hpc hv

/-! ## Shared ownership is not acquired past a waiting writer -/

omit [Fintype τ] in
/-- Only thread `t` can change what it holds, so nobody else acquires anything. -/
theorem shared_put {l : ReaderWriterLock} {th : Thread} {u : τ}
    (hu : (s.thread u).shared = false) (hu' : ((s.put t l th).thread u).shared = true) :
    u = t ∧ th.shared = true := by
  simp only [World.put] at hu'
  by_cases hut : u = t
  · subst hut
    rw [Function.update_self] at hu'
    exact ⟨rfl, hu'⟩
  · rw [Function.update_of_ne hut, hu] at hu'
    cases hu'

omit [Fintype τ] in
/-- A move that keeps what the thread holds acquires nothing. -/
theorem not_shared_put {l : ReaderWriterLock} {th : Thread} {u : τ}
    (hth : th.shared = true → (s.thread t).shared = true) (hu : (s.thread u).shared = false) :
    ¬ ((s.put t l th).thread u).shared = true := by
  intro hu'
  obtain ⟨rfl, hs⟩ := shared_put hu hu'
  rw [hth hs] at hu
  cases hu

omit [Fintype τ] in
theorem shared_readerTest {timed : Bool} {u : τ} (hu : (s.thread u).shared = false)
    (hu' : ((s.readerTest t timed).thread u).shared = true) : s.lock.waitingWriters = 0 := by
  unfold World.readerTest at hu'
  split_ifs at hu' with hfree
  · exact (readerMayEnter_iff.1 hfree).2
  · exact absurd hu' (not_shared_put id hu)

omit [Fintype τ] in
theorem not_shared_writerTest {l : ReaderWriterLock} {timed : Bool} {u : τ}
    (hu : (s.thread u).shared = false) : ¬ ((s.writerTest t l timed).thread u).shared = true := by
  unfold World.writerTest
  split_ifs
  · exact not_shared_put id hu
  · exact not_shared_put id hu

omit [Fintype τ] in
/-- Sending a notification acquires nothing, whatever it does to the other threads' `pc`. -/
theorem not_shared_update {threads : τ → Thread} {u : τ}
    (hsame : ∀ v, (threads v).shared = (s.thread v).shared) (hu : (s.thread u).shared = false) :
    ¬ (Function.update threads t { s.thread t with pc := .idle } u).shared = true := by
  by_cases hut : u = t
  · subst hut
    rw [Function.update_self, hu]
    exact Bool.false_ne_true
  · rw [Function.update_of_ne hut, hsame, hu]
    exact Bool.false_ne_true

/-- A step in which `u` acquires shared ownership is taken while no writer waits. -/
theorem step_shared {a : Action τ} {u : τ} (hstep : s.step a = some s')
    (hu : (s.thread u).shared = false) (hu' : (s'.thread u).shared = true) :
    s.lock.waitingWriters = 0 := by
  cases step_cases hstep with
  | lock | recheckWriter => exact absurd hu' (not_shared_writerTest hu)
  | tryLockFailed | tryLockSharedFailed =>
    rw [hu] at hu'
    cases hu'
  | lockShared | recheckReader => exact shared_readerTest hu hu'
  | tryLockShared _ _ _ hw => exact hw
  | unlockShared => exact absurd hu' (not_shared_put nofun hu)
  | notifyReaders =>
    refine absurd hu' (not_shared_update (fun v => ?_) hu)
    unfold Thread.wakeReader
    split <;> rfl
  | @notifyWriter t v timed _ hv =>
    refine absurd hu' (not_shared_update (fun w => ?_) hu)
    by_cases hwv : w = v
    · subst hwv
      rw [Function.update_self]
    · rw [Function.update_of_ne hwv]
  | _ => exact absurd hu' (not_shared_put id hu)

/-! ## Every reachable state -/

/-- What the fields say, in every state. -/
structure Accounted (s : World τ) : Prop where
  readers : s.lock.activeReaders = (Finset.univ.filter fun t => (s.thread t).shared).card
  writer : s.lock.writerActive = true ↔ ∃! t, (s.thread t).exclusive = true
  noWriter : s.lock.writerActive = false → ∀ t, (s.thread t).exclusive = false
  excludes : s.lock.writerActive = true → s.lock.activeReaders = 0
  writers : s.lock.waitingWriters = (Finset.univ.filter fun t => (s.thread t).awaitsWrite).card

omit [DecidableEq τ] in
theorem Inv.accounted (h : Inv s) : Accounted s where
  readers := h.readers
  writer := by
    constructor
    · intro hact
      have hone : tally Thread.exclusive s.thread = 1 := by rw [← h.writer, hact]; rfl
      obtain ⟨t, ht⟩ := Finset.card_eq_one.1 hone
      have hmem : ∀ u, (s.thread u).exclusive = true ↔ u = t := by
        intro u
        have := Finset.ext_iff.1 ht u
        simpa using this
      exact ⟨t, (hmem t).2 rfl, fun u hu => (hmem u).1 hu⟩
    · rintro ⟨t, ht, -⟩
      exact h.active_of_exclusive ht
  noWriter := h.exclusive_of_free
  excludes := h.excludes
  writers := h.writers

/-- **Exclusion and accounting.** In every state reached by any interleaving the fields count
the threads that hold and await the lock, a writer is alone, and no step from it acquires
shared ownership while a writer waits. -/
theorem reachable_accounted (h : Reachable World.step (World.initial τ) s) :
    Accounted s ∧ ∀ a s' t, s.step a = some s' → (s.thread t).shared = false →
      (s'.thread t).shared = true → s.lock.waitingWriters = 0 := by
  have hinv : Inv s :=
    h.invariant World.step inv_initial fun _ _ _ hI hstep => inv_step hI hstep
  exact ⟨hinv.accounted, fun a s' t hstep ht ht' => step_shared hstep ht ht'⟩

/-- A reader leaves while a timed writer waits for it; the writer is then notified and admitted,
and a `try_lock_shared` fails. -/
def handOver : List (Action Bool) :=
  [.lockShared false false, .lock true true, .unlockShared false, .notify false (some true),
    .recheck true, .tryLockShared false]

theorem reachable_accounted_handOver :
    ∃ s : World Bool, run World.step (World.initial Bool) handOver = some s ∧
      Accounted s ∧ (s.thread true).exclusive = true := by
  have hrun : ∃ s, run World.step (World.initial Bool) handOver = some s ∧
      (s.thread true).exclusive = true := ⟨_, rfl, rfl⟩
  obtain ⟨s, hs, hx⟩ := hrun
  exact ⟨s, hs, (reachable_accounted ⟨handOver, hs⟩).1, hx⟩

end ReaderWriterLock

end EglUtil
