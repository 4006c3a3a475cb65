import EglUtil.ReaderWriterLock
import Mathlib.Algebra.GroupWithZero.Nat

/-!
# `ReaderWriterLock`: no waiter is left parked

The lock decides whom to wake while it holds the mutex and sends the notification afterwards, so
between the two the decision lives only in the control point of the thread that took it.

**Theorem (`reachable_not_stranded`).** In every reachable state in which no notification is
pending and no woken thread has still to test its predicate, no writer is parked while the lock
is free and no reader is parked while no writer holds or awaits the lock.

**Invariant** (`Promised`). Whenever parked threads could go ahead, some thread is on its way to
them: a thread about to send the notification or, on the writers' side, a writer that was woken
and has not looked yet. A reader needs no such second case, as `notify_all` leaves none parked.
A woken writer that finds the lock busy again may park or give up, because whoever made it busy
decides anew when it leaves.
-/

namespace EglUtil

open Transition Tally

namespace ReaderWriterLock

/-! ## Who is on the way to a parked thread -/

/-- The thread is about to wake a writer, or is a woken writer itself. -/
def Thread.wakesWriter (th : Thread) : Bool :=
  match th.pc with
  | .notifying .writerTurn | .writerWoken _ _ => true
  | _ => false

/-- The thread is about to wake the readers. -/
def Thread.wakesReaders (th : Thread) : Bool :=
  match th.pc with
  | .notifying .readersAllowed => true
  | _ => false

def Thread.parkedReader (th : Thread) : Bool :=
  match th.pc with
  | .readerParked _ => true
  | _ => false

/-- The thread was woken and has not tested its predicate since. -/
def Thread.woken (th : Thread) : Bool :=
  match th.pc with
  | .writerWoken _ _ | .readerWoken _ _ => true
  | _ => false

def Thread.notifies (th : Thread) : Bool :=
  match th.pc with
  | .notifying _ => true
  | _ => false

theorem Thread.awaitsWrite_of_parkedWriter {th : Thread} (h : th.parkedWriter = true) :
    th.awaitsWrite = true := by
  rcases th with ⟨pc, sh, ex⟩
  cases pc <;> simp_all [Thread.parkedWriter, Thread.awaitsWrite]

theorem Thread.wakesWriter_eq_false {th : Thread} (hn : th.notifies = false)
    (hw : th.woken = false) : th.wakesWriter = false := by
  rcases th with ⟨pc, sh, ex⟩
  cases pc <;> simp_all [Thread.notifies, Thread.woken, Thread.wakesWriter]

theorem Thread.wakesReaders_eq_false {th : Thread} (hn : th.notifies = false) :
    th.wakesReaders = false := by
  rcases th with ⟨pc, sh, ex⟩
  cases pc <;> simp_all [Thread.notifies, Thread.wakesReaders]

variable {τ : Type*}

/-- A parked thread that could go ahead has someone on the way to it. -/
structure Promised (s : World τ) : Prop where
  writer : s.lock.writerMayEnter = true → ∀ t, (s.thread t).parkedWriter = true →
    ∃ u, (s.thread u).wakesWriter = true
  reader : s.lock.readerMayEnter = true → ∀ t, (s.thread t).parkedReader = true →
    ∃ u, (s.thread u).wakesReaders = true

/-! ## One thread moves -/

variable [DecidableEq τ] {s s' : World τ} {t : τ} {l : ReaderWriterLock} {th : Thread}

theorem put_self : (s.put t l th).thread t = th := by
  simp only [World.put, Function.update_self]

theorem put_of_ne {u : τ} (h : u ≠ t) : (s.put t l th).thread u = s.thread u := by
  simp only [World.put, Function.update_of_ne h]

/-- Whoever was on the way still is, unless it was the thread that moved. -/
theorem exists_put {p : Thread → Bool} (h : ∃ u, p (s.thread u) = true)
    (ht : p (s.thread t) = false) : ∃ u, p ((s.put t l th).thread u) = true := by
  obtain ⟨u, hu⟩ := h
  have hut : u ≠ t := by
    rintro rfl
    rw [ht] at hu
    cases hu
  exact ⟨u, by rw [put_of_ne hut]; exact hu⟩

/-- Whoever is parked was so before, unless it is the thread that moved. -/
theorem parked_of_put {p : Thread → Bool} {u : τ} (h : p ((s.put t l th).thread u) = true)
    (ht : p th = false) : p (s.thread u) = true := by
  have hut : u ≠ t := by
    rintro rfl
    rw [put_self, ht] at h
    cases h
  rwa [put_of_ne hut] at h

/-- Thread `t` moves. Where the parked threads of a side could go ahead afterwards, either `t`
is now on the way to them, or they could go ahead before and `t` is neither one of them nor was
on the way. -/
theorem Promised.put [Fintype τ] (h : Promised s) (hinv : Inv (s.put t l th))
    (hw : l.writerMayEnter = true → 0 < l.waitingWriters → th.wakesWriter = true ∨
      s.lock.writerMayEnter = true ∧ th.parkedWriter = false ∧ (s.thread t).wakesWriter = false)
    (hr : l.readerMayEnter = true → th.wakesReaders = true ∨
      s.lock.readerMayEnter = true ∧ th.parkedReader = false ∧
        (s.thread t).wakesReaders = false) :
    Promised (s.put t l th) where
  writer := by
    intro hfree u hu
    have hpos : 0 < l.waitingWriters :=
      hinv.waiting_pos (Thread.awaitsWrite_of_parkedWriter hu)
    rcases hw hfree hpos with hth | ⟨hbefore, hnot, ht⟩
    · exact ⟨t, by rw [put_self]; exact hth⟩
    · exact exists_put (h.writer hbefore u (parked_of_put hu hnot)) ht
  reader := by
    intro hfree u hu
    rcases hr hfree with hth | ⟨hbefore, hnot, ht⟩
    · exact ⟨t, by rw [put_self]; exact hth⟩
    · exact exists_put (h.reader hbefore u (parked_of_put hu hnot)) ht

/-- A move that changes no field, by a thread that was on nobody's behalf. -/
theorem Promised.move [Fintype τ] (h : Promised s) {p : Pc}
    (hinv : Inv (s.put t s.lock { s.thread t with pc := p }))
    (hw : ({ s.thread t with pc := p } : Thread).wakesWriter = true ∨
      ({ s.thread t with pc := p } : Thread).parkedWriter = false ∧
        (s.thread t).wakesWriter = false)
    (hp : ({ s.thread t with pc := p } : Thread).parkedReader = false)
    (hr : (s.thread t).wakesReaders = false) :
    Promised (s.put t s.lock { s.thread t with pc := p }) :=
  h.put hinv (fun hfree _ => hw.imp id fun hw => ⟨hfree, hw⟩) fun hfree => .inr ⟨hfree, hp, hr⟩

/-! ## One step -/

variable [Fintype τ]

/-- A writer takes the lock, or parks on a busy one while it is counted. -/
theorem Promised.writerTest {timed : Bool} (h : Promised s)
    (hinv : Inv (s.writerTest t l timed)) (hpos : 0 < l.waitingWriters) :
    Promised (s.writerTest t l timed) := by
  unfold World.writerTest at hinv ⊢
  split_ifs at hinv ⊢ with hfree
  · refine h.put hinv (fun henter => ?_) fun henter => ?_
    · rw [writerMayEnter_iff] at henter
      cases henter.1
    · rw [readerMayEnter_iff] at henter
      cases henter.1
  · refine h.put hinv (fun henter => absurd henter hfree) fun henter => ?_
    rw [readerMayEnter_iff] at henter
    omega

/-- A reader takes the lock, which is then not free, or parks while it may not enter. -/
theorem Promised.readerTest {timed : Bool} (h : Promised s)
    (hinv : Inv (s.readerTest t timed)) (hw : (s.thread t).wakesWriter = false)
    (hr : (s.thread t).wakesReaders = false) : Promised (s.readerTest t timed) := by
  unfold World.readerTest at hinv ⊢
  split_ifs at hinv ⊢ with hfree
  · refine h.put hinv (fun henter => ?_) fun _ => .inr ⟨hfree, rfl, hr⟩
    obtain ⟨-, hnone⟩ := writerMayEnter_iff.1 henter
    cases hnone
  · exact h.put hinv (fun henter _ => .inr ⟨henter, rfl, hw⟩) fun henter => absurd henter hfree

/-- The departing writer wakes a writer if one waits, otherwise the readers. -/
theorem Promised.unlock (h : Promised s) {sh ex : Bool}
    (hinv : Inv (s.put t s.lock.unlock.1 ⟨.notifying s.lock.unlock.2, sh, ex⟩)) :
    Promised (s.put t s.lock.unlock.1 ⟨.notifying s.lock.unlock.2, sh, ex⟩) := by
  refine h.put hinv (fun _ hpos => .inl ?_) fun henter => .inl ?_
  · have hwaiting : s.lock.waitingWriters > 0 := hpos
    simp only [Thread.wakesWriter, ReaderWriterLock.unlock, if_pos hwaiting]
  · have hnone : s.lock.waitingWriters = 0 := (readerMayEnter_iff.1 henter).2
    simp only [Thread.wakesReaders, ReaderWriterLock.unlock, hnone, gt_iff_lt, lt_irrefl,
      if_false]

/-- The last departing reader wakes a writer if one waits. A reader can enter before its
departure exactly when it can afterwards. -/
theorem Promised.unlockShared (h : Promised s) (hpc : (s.thread t).pc = .idle) {sh ex : Bool}
    (hinv : Inv (s.put t s.lock.unlockShared.1 ⟨afterSection s.lock.unlockShared.2, sh, ex⟩)) :
    Promised (s.put t s.lock.unlockShared.1 ⟨afterSection s.lock.unlockShared.2, sh, ex⟩) := by
  refine h.put hinv (fun henter hpos => .inl ?_) fun henter => .inr ⟨henter, ?_, ?_⟩
  · have hlast := (writerMayEnter_iff.1 henter).2
    simp only [ReaderWriterLock.unlockShared] at hlast hpos
    simp only [ReaderWriterLock.unlockShared, hlast, hpos, and_self, if_true, afterSection,
      Thread.wakesWriter]
  · simp only [ReaderWriterLock.unlockShared, afterSection]
    split_ifs <;> rfl
  · simp only [Thread.wakesReaders, hpc]

/-- A writer gives up only on a busy lock, and wakes the readers it was the last to hold back. -/
theorem Promised.giveUpWriter (h : Promised s) (hbusy : s.lock.writerMayEnter = false)
    {sh ex : Bool}
    (hinv : Inv (s.put t s.lock.giveUpWriter.1 ⟨afterSection s.lock.giveUpWriter.2, sh, ex⟩)) :
    Promised (s.put t s.lock.giveUpWriter.1 ⟨afterSection s.lock.giveUpWriter.2, sh, ex⟩) := by
  refine h.put hinv (fun henter => ?_) fun henter => .inl ?_
  · have hsame : s.lock.giveUpWriter.1.writerMayEnter = s.lock.writerMayEnter := rfl
    rw [hsame, hbusy] at henter
    cases henter
  · obtain ⟨hactive, hnone⟩ := readerMayEnter_iff.1 henter
    simp only [ReaderWriterLock.giveUpWriter] at hactive hnone
    simp only [ReaderWriterLock.giveUpWriter, hactive, hnone, and_self, if_true, afterSection,
      Thread.wakesReaders]

theorem parkedReader_wakeReader (th : Thread) : th.wakeReader.parkedReader = false := by
  rcases th with ⟨pc, sh, ex⟩
  cases pc <;> rfl

theorem parkedWriter_wakeReader (th : Thread) :
    th.wakeReader.parkedWriter = th.parkedWriter ∧ th.wakeReader.wakesWriter = th.wakesWriter := by
  rcases th with ⟨pc, sh, ex⟩
  cases pc <;> exact ⟨rfl, rfl⟩

omit [Fintype τ] in
/-- `notify_all` leaves no reader parked, and touches no writer. -/
theorem Promised.notifyReaders (h : Promised s)
    (hpc : (s.thread t).pc = .notifying .readersAllowed) :
    Promised ⟨s.lock,
      Function.update (fun v => (s.thread v).wakeReader) t { s.thread t with pc := .idle }⟩ where
  writer := by
    intro hfree u hu
    have hut : u ≠ t := by
      rintro rfl
      simp [Thread.parkedWriter] at hu
    simp only [Function.update_of_ne hut, (parkedWriter_wakeReader _).1] at hu
    obtain ⟨v, hv⟩ := h.writer hfree u hu
    have hvt : v ≠ t := by
      rintro rfl
      simp [Thread.wakesWriter, hpc] at hv
    exact ⟨v, by simpa only [Function.update_of_ne hvt, (parkedWriter_wakeReader _).2] using hv⟩
  reader := by
    intro _ u hu
    by_cases hut : u = t
    · subst hut
      simp [Thread.parkedReader] at hu
    · simp only [Function.update_of_ne hut, parkedReader_wakeReader] at hu
      cases hu

omit [Fintype τ] in
/-- `notify_one` hands the promise to the writer it wakes. -/
theorem Promised.notifyWriter (h : Promised s) {v : τ} {timed : Bool}
    (hpc : (s.thread t).pc = .notifying .writerTurn)
    (hv : (s.thread v).pc = .writerParked timed) :
    Promised ⟨s.lock, Function.update (Function.update s.thread v
      { s.thread v with pc := .writerWoken timed false }) t { s.thread t with pc := .idle }⟩ where
  writer := by
    intro _ _ _
    have hvt : v ≠ t := by
      rintro rfl
      rw [hpc] at hv
      cases hv
    exact ⟨v, by simp only [Function.update_of_ne hvt, Function.update_self, Thread.wakesWriter]⟩
  reader := by
    intro hfree u hu
    have hut : u ≠ t := by
      rintro rfl
      simp [Thread.parkedReader] at hu
    have huv : u ≠ v := by
      rintro rfl
      simp [Function.update_of_ne hut, Thread.parkedReader] at hu
    simp only [Function.update_of_ne hut, Function.update_of_ne huv] at hu
    obtain ⟨w, hw⟩ := h.reader hfree u hu
    have hwt : w ≠ t := by
      rintro rfl
      simp [Thread.wakesReaders, hpc] at hw
    have hwv : w ≠ v := by
      rintro rfl
      simp [Thread.wakesReaders, hv] at hw
    exact ⟨w, by simpa only [Function.update_of_ne hwt, Function.update_of_ne hwv] using hw⟩

/-- `notify_one` wakes nobody only when no writer is parked. -/
theorem step_notify_none (hpc : (s.thread t).pc = .notifying .writerTurn)
    (hstep : s.step (.notify t none) = some s') (u : τ) : (s.thread u).parkedWriter = false := by
  simp only [World.step, hpc] at hstep
  split_ifs at hstep with hnone
  exact hnone u

omit [Fintype τ] in
theorem Promised.notifyNobody (h : Promised s) (hpc : (s.thread t).pc = .notifying .writerTurn)
    (hnone : ∀ u, (s.thread u).parkedWriter = false) :
    Promised (s.put t s.lock { s.thread t with pc := .idle }) where
  writer := by
    intro _ u hu
    have hbefore := parked_of_put hu rfl
    rw [hnone u] at hbefore
    cases hbefore
  reader := by
    intro hfree u hu
    exact exists_put (h.reader hfree u (parked_of_put hu rfl))
      (by simp only [Thread.wakesReaders, hpc])

/-- **One step.** Every action keeps the promise. -/
theorem promised_step {a : Action τ} (hinv : Inv s) (h : Promised s)
    (hstep : s.step a = some s') : Promised s' := by
  have hinv' := inv_step hinv hstep
  cases step_cases hstep with
  | lock timed hpc => exact h.writerTest hinv' (Nat.succ_pos _)
  | tryLock hpc ha hr =>
    refine h.put hinv' (fun henter => ?_) fun henter => ?_
    · cases (writerMayEnter_iff.1 henter).1
    · cases (readerMayEnter_iff.1 henter).1
  | tryLockFailed | tryLockSharedFailed => exact h
  | unlock hpc hx => exact h.unlock hinv'
  | lockShared timed hpc hs =>
    exact h.readerTest hinv' (by simp only [Thread.wakesWriter, hpc])
      (by simp only [Thread.wakesReaders, hpc])
  | tryLockShared hpc hs ha hw =>
    refine h.put hinv' (fun henter => ?_) fun henter => .inr ⟨henter, ?_, ?_⟩
    · cases (writerMayEnter_iff.1 henter).2
    · simp only [Thread.parkedReader, hpc]
    · simp only [Thread.wakesReaders, hpc]
  | unlockShared hpc hs => exact h.unlockShared hpc hinv'
  | wakeWriter hpc | expireWriter hpc =>
    exact h.move hinv' (.inl rfl) rfl (by simp only [Thread.wakesReaders, hpc])
  | wakeReader hpc | expireReader hpc | giveUpReader hpc =>
    exact h.move hinv' (.inr ⟨rfl, by simp only [Thread.wakesWriter, hpc]⟩) rfl
      (by simp only [Thread.wakesReaders, hpc])
  | giveUpWriter hpc hbusy => exact h.giveUpWriter hbusy hinv'
  | @recheckWriter t timed expired hpc =>
    have hawaits : (s.thread t).awaitsWrite = true := by simp only [Thread.awaitsWrite, hpc]
    exact h.writerTest hinv' (hinv.waiting_pos hawaits)
  | recheckReader hpc =>
    exact h.readerTest hinv' (by simp only [Thread.wakesWriter, hpc])
      (by simp only [Thread.wakesReaders, hpc])
  | notifyReaders u hpc => exact h.notifyReaders hpc
  | notifyNobody hpc => exact h.notifyNobody hpc (step_notify_none hpc hstep)
  | notifyWriter hpc hv => exact h.notifyWriter hpc hv

/-! ## Every reachable state -/

omit [DecidableEq τ] [Fintype τ] in
theorem promised_initial : Promised (World.initial τ) :=
  ⟨fun _ _ ht => (Bool.false_ne_true ht).elim, fun _ _ ht => (Bool.false_ne_true ht).elim⟩

/-- **No waiter is stranded.** When nobody has a notification to send or a predicate to test
again, every parked thread is parked for a reason. -/
theorem reachable_not_stranded (h : Reachable World.step (World.initial τ) s)
    (hnotify : ∀ t, (s.thread t).notifies = false) (hwoken : ∀ t, (s.thread t).woken = false) :
    (s.lock.writerActive = false ∧ s.lock.activeReaders = 0 →
      ∀ t, (s.thread t).parkedWriter = false) ∧
    (s.lock.writerActive = false ∧ s.lock.waitingWriters = 0 →
      ∀ t, (s.thread t).parkedReader = false) := by
  have hboth : Inv s ∧ Promised s :=
    Reachable.invariant World.step (I := fun s => Inv s ∧ Promised s) h
      ⟨inv_initial, promised_initial⟩
      fun _ _ _ hI hstep => ⟨inv_step hI.1 hstep, promised_step hI.1 hI.2 hstep⟩
  obtain ⟨-, hpromised⟩ := hboth
  refine ⟨fun hfree t => ?_, fun hfree t => ?_⟩
  · by_contra hparked
    obtain ⟨u, hu⟩ := hpromised.writer (writerMayEnter_iff.2 hfree) t (eq_true_of_ne_false hparked)
    rw [Thread.wakesWriter_eq_false (hnotify u) (hwoken u)] at hu
    cases hu
  · by_contra hparked
    obtain ⟨u, hu⟩ := hpromised.reader (readerMayEnter_iff.2 hfree) t (eq_true_of_ne_false hparked)
    rw [Thread.wakesReaders_eq_false (hnotify u)] at hu
    cases hu

/-- The numerals of `timedGiveUp` name threads. -/
local instance threads_neZero : NeZero 3 := ⟨by decide⟩

/-- A timed writer holds back a reader, gives up behind the first reader, and wakes the second
one; in between, the reader stays parked with the lock closed to it. -/
def timedGiveUp : List (Action (Fin 3)) :=
  [.lockShared 0 false, .lock 1 true, .lockShared 2 false, .expire 1, .recheck 1, .notify 1 none,
    .recheck 2]

theorem reachable_not_stranded_timedGiveUp :
    ∃ s : World (Fin 3), run World.step (World.initial (Fin 3)) timedGiveUp = some s ∧
      s.lock.writerActive = false ∧ s.lock.waitingWriters = 0 ∧
      ∀ t, (s.thread t).parkedReader = false := by
  have hrun : ∃ s, run World.step (World.initial (Fin 3)) timedGiveUp = some s ∧
      s.lock.writerActive = false ∧ s.lock.waitingWriters = 0 ∧
      (∀ t, (s.thread t).notifies = false) ∧ ∀ t, (s.thread t).woken = false :=
    ⟨_, rfl, rfl, rfl, by decide, by decide⟩
  obtain ⟨s, hs, hactive, hwaiting, hnotify, hwoken⟩ := hrun
  have hnone := (reachable_not_stranded ⟨timedGiveUp, hs⟩ hnotify hwoken).2
  exact ⟨s, hs, hactive, hwaiting, hnone ⟨hactive, hwaiting⟩⟩

end ReaderWriterLock

end EglUtil
