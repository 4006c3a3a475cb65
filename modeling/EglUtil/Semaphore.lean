import EglUtil.Lib.Runs
import EglUtil.Lib.Tally
import Mathlib.Algebra.Ring.Int.Defs

/-!
# `Semaphore`

A counting semaphore: one mutex, one condition variable and a count. Each section that holds the
mutex is one step. A thread that waits is *parked*; it becomes *woken* by a notification,
spuriously, or (in a timed call) by its deadline, and then re-acquires the mutex and tests the
count again. A notification is a step of its own, taken after the mutex is released.

**Theorem (`reachable_conserves`).** In every reachable state the count is the initial one and
what was released, less what was acquired, and within its range; a release that throws changes
nothing, and none computes a sum outside the range of the type. When no notification is pending
and no woken thread has still to test the count, nobody is parked while there are units.

**Invariant** (`Inv`). While anybody is parked, there are at most as many units as there are
threads about to notify one thread or woken themselves, or somebody is about to notify all. So
every unit has a thread on its way to it: whoever takes a unit without having been woken leaves
one of those threads without, but never a unit without one of them.
-/

namespace EglUtil

open Transition Tally

namespace Semaphore

/-! ## The sections that hold the mutex -/

/-- `count_type` is `std::ptrdiff_t`. -/
def least : Int := -2 ^ 63

def max : Int := 2 ^ 63 - 1

/-- The value, if the type has it: a signed overflow has no result. -/
def checked (n : Int) : Option Int := if least ≤ n ∧ n ≤ max then some n else none

inductive Error where
  | invalidArgument (what : String)
  | overflowError (what : String)
deriving Repr, DecidableEq

/-- The constructor. -/
def create (initial : Int) : Except Error Int :=
  if initial < 0 then
    .error (.invalidArgument "Semaphore: initial count must be non-negative")
  else .ok initial

/-- The predicate of `available_`. -/
def mayAcquire (count : Int) : Bool := decide (count > 0)

/-- `release` up to its notification. -/
def release (count update : Int) : Option (Except Error Int) :=
  if update < 0 then
    some (.error (.invalidArgument "Semaphore: release update must be non-negative"))
  else if update = 0 then some (.ok count)
  else
    (checked (max - update)).bind fun room =>
      if count > room then
        some (.error (.overflowError "Semaphore: count would exceed max()"))
      else (checked (count + update)).map .ok

/-! ## Threads -/

/-- What a thread sends after it has released the mutex. -/
inductive Notification where
  | one
  | all
deriving Repr, DecidableEq

/-- Where a thread stands. `timed` tells `try_acquire_for` and `try_acquire_until` from
`acquire`; `expired` that the deadline has passed. -/
inductive Pc where
  | idle
  | parked (timed : Bool)
  | woken (timed expired : Bool)
  | notifying (n : Notification)
deriving Repr, DecidableEq

/-- How a call has ended, as far as the count is concerned. -/
inductive Event where
  | acquired
  /-- `try_acquire`, or a timed acquisition whose deadline passed, returned `false`. -/
  | refused
  | released (update : Int)
  | threw (e : Error)
deriving Repr, DecidableEq

/-- `log` is history: the calls so far, the latest first. -/
structure World (τ : Type*) where
  count : Int
  log : List Event
  pc : τ → Pc

inductive Action (τ : Type*) where
  /-- `acquire` (untimed), or `try_acquire_for` / `try_acquire_until` (timed) -/
  | acquire (t : τ) (timed : Bool)
  | tryAcquire (t : τ)
  | release (t : τ) (update : Int)
  /-- A spurious wake-up of a parked thread. -/
  | wake (t : τ)
  /-- The deadline of a timed wait passes. -/
  | expire (t : τ)
  /-- A woken thread re-acquires the mutex and tests the count. -/
  | recheck (t : τ)
  /-- The pending notification is sent; a `notify_one` wakes `u`, or nobody if no thread is
  parked. -/
  | notify (t : τ) (u : Option τ)

variable {τ : Type*}

def World.initial (τ : Type*) (count : Int) : World τ := ⟨count, [], fun _ => .idle⟩

def Pc.parkedHere : Pc → Bool
  | .parked _ => true
  | _ => false

/-- `notify_all` -/
def Pc.wake : Pc → Pc
  | .parked timed => .woken timed false
  | pc => pc

/-- Where a thread goes after a successful release. -/
def afterRelease (update : Int) : Pc :=
  if update = 0 then .idle else .notifying (if update = 1 then .one else .all)

section Steps

variable [DecidableEq τ]

/-- Thread `t` goes on to `pc`. -/
def World.move (s : World τ) (t : τ) (pc : Pc) : World τ :=
  { s with pc := Function.update s.pc t pc }

/-- `--count_`, and the call returns. -/
def World.take (s : World τ) (t : τ) : World τ :=
  ⟨s.count - 1, .acquired :: s.log, Function.update s.pc t .idle⟩

/-- The call returns `false`. -/
def World.refuse (s : World τ) (t : τ) : World τ :=
  ⟨s.count, .refused :: s.log, Function.update s.pc t .idle⟩

/-- The wait: take a unit or park. -/
def World.test (s : World τ) (t : τ) (timed : Bool) : World τ :=
  if mayAcquire s.count then s.take t else s.move t (.parked timed)

/-- None if the action is not possible or has no defined result. -/
def World.step [Fintype τ] (s : World τ) : Action τ → Option (World τ)
  | .acquire t timed => if s.pc t = .idle then some (s.test t timed) else none
  | .tryAcquire t =>
    if s.pc t = .idle then some (if s.count = 0 then s.refuse t else s.take t) else none
  | .release t update =>
    -- every argument is a value of its type
    if s.pc t = .idle ∧ (checked update).isSome = true then
      (release s.count update).map fun
        | .error e => { s with log := .threw e :: s.log }
        | .ok count =>
          ⟨count, .released update :: s.log, Function.update s.pc t (afterRelease update)⟩
    else none
  | .wake t =>
    match s.pc t with
    | .parked timed => some (s.move t (.woken timed false))
    | _ => none
  | .expire t =>
    match s.pc t with
    | .parked true => some (s.move t (.woken true true))
    | _ => none
  | .recheck t =>
    match s.pc t with
    | .woken timed expired =>
      if mayAcquire s.count = false ∧ expired = true then some (s.refuse t)
      else some (s.test t timed)
    | _ => none
  | .notify t u =>
    match s.pc t with
    | .notifying .all =>
      some { s with pc := Function.update (fun v => (s.pc v).wake) t .idle }
    | .notifying .one =>
      match u with
      | none => if ∀ v, (s.pc v).parkedHere = false then some (s.move t .idle) else none
      | some v =>
        match s.pc v with
        | .parked timed => some ((s.move v (.woken timed false)).move t .idle)
        | _ => none
    | _ => none

/-! ## What a step can do -/

/-- The steps, one constructor for each way they can go, with what held before. -/
inductive Step (s : World τ) : Action τ → World τ → Prop where
  | acquire {t : τ} (timed : Bool) (hpc : s.pc t = .idle) :
      Step s (.acquire t timed) (s.test t timed)
  | tryAcquire {t : τ} (hpc : s.pc t = .idle) (hcount : s.count ≠ 0) :
      Step s (.tryAcquire t) (s.take t)
  | tryRefused {t : τ} (hpc : s.pc t = .idle) (hcount : s.count = 0) :
      Step s (.tryAcquire t) (s.refuse t)
  | release {t : τ} {update count : Int} (hpc : s.pc t = .idle)
      (hupdate : (checked update).isSome = true)
      (hcount : Semaphore.release s.count update = some (.ok count)) :
      Step s (.release t update)
        ⟨count, .released update :: s.log, Function.update s.pc t (afterRelease update)⟩
  | releaseThrows {t : τ} {update : Int} {e : Error}
      (hthrows : Semaphore.release s.count update = some (.error e)) :
      Step s (.release t update) { s with log := .threw e :: s.log }
  | wake {t : τ} {timed : Bool} (hpc : s.pc t = .parked timed) :
      Step s (.wake t) (s.move t (.woken timed false))
  | expire {t : τ} (hpc : s.pc t = .parked true) :
      Step s (.expire t) (s.move t (.woken true true))
  | giveUp {t : τ} {timed : Bool} (hpc : s.pc t = .woken timed true)
      (hnone : mayAcquire s.count = false) : Step s (.recheck t) (s.refuse t)
  | recheck {t : τ} {timed expired : Bool} (hpc : s.pc t = .woken timed expired) :
      Step s (.recheck t) (s.test t timed)
  | notifyAll {t : τ} (u : Option τ) (hpc : s.pc t = .notifying .all) :
      Step s (.notify t u) { s with pc := Function.update (fun v => (s.pc v).wake) t .idle }
  | notifyNobody {t : τ} (hpc : s.pc t = .notifying .one)
      (hnone : ∀ v, (s.pc v).parkedHere = false) : Step s (.notify t none) (s.move t .idle)
  | notifyOne {t v : τ} {timed : Bool} (hpc : s.pc t = .notifying .one)
      (hv : s.pc v = .parked timed) :
      Step s (.notify t (some v)) ((s.move v (.woken timed false)).move t .idle)

/-- **Inversion.** -/
theorem step_cases [Fintype τ] {s s' : World τ} {a : Action τ} (h : s.step a = some s') :
    Step s a s' := by
  cases a with
  | acquire t timed =>
    simp only [World.step] at h
    split_ifs at h with hpc
    cases h
    exact .acquire timed hpc
  | tryAcquire t =>
    simp only [World.step] at h
    split_ifs at h with hpc hcount <;> cases h
    · exact .tryRefused hpc hcount
    · exact .tryAcquire hpc hcount
  | release t update =>
    simp only [World.step] at h
    split_ifs at h with hpc
    rw [Option.map_eq_some_iff] at h
    obtain ⟨result, hresult, heq⟩ := h
    cases result <;> cases heq
    · exact .releaseThrows hresult
    · exact .release hpc.1 hpc.2 hresult
  | wake t =>
    simp only [World.step] at h
    split at h <;> cases h
    next hpc => exact .wake hpc
  | expire t =>
    simp only [World.step] at h
    split at h <;> cases h
    next hpc => exact .expire hpc
  | recheck t =>
    simp only [World.step] at h
    split at h
    · next timed expired hpc =>
      split_ifs at h with hgive <;> cases h
      · exact .giveUp (hgive.2 ▸ hpc) hgive.1
      · exact .recheck hpc
    · cases h
  | notify t u =>
    simp only [World.step] at h
    split at h
    · next hpc =>
      cases h
      exact .notifyAll u hpc
    · next hpc =>
      split at h
      · split_ifs at h with hnone
        cases h
        exact .notifyNobody hpc hnone
      · split at h <;> cases h
        next hv => exact .notifyOne hpc hv
    · cases h

end Steps

/-! ## Releasing -/

theorem checked_isSome {n : Int} : (checked n).isSome = true ↔ least ≤ n ∧ n ≤ max := by
  rw [checked]
  split_ifs with h
  · exact iff_of_true rfl h
  · exact iff_of_false nofun h

/-- A release adds its units if the sum fits and is refused otherwise; in neither case is the
result undefined. -/
theorem release_eq {count update : Int} (hcount : 0 ≤ count) (hmax : count ≤ max)
    (hupdate : update ≤ max) :
    release count update =
      some (if update < 0 then
          .error (.invalidArgument "Semaphore: release update must be non-negative")
        else if count + update ≤ max then .ok (count + update)
        else .error (.overflowError "Semaphore: count would exceed max()")) := by
  have hroom : 0 ≤ update → checked (max - update) = some (max - update) := by
    intro hpos
    refine if_pos ⟨?_, by omega⟩
    have : least ≤ 0 := by decide
    omega
  rw [release]
  split_ifs with hneg hzero hfits hfits
  · rfl
  · rw [hzero, Int.add_zero]
  · omega
  · have hsum : checked (count + update) = some (count + update) := by
      refine if_pos ⟨?_, hfits⟩
      have : least ≤ 0 := by decide
      omega
    rw [hroom (by omega), Option.bind_some, if_neg (by omega), hsum]
    rfl
  · rw [hroom (by omega), Option.bind_some, if_pos (by omega)]

theorem release_ok {count update count' : Int} (hcount : 0 ≤ count) (hmax : count ≤ max)
    (hupdate : update ≤ max) (hok : release count update = some (.ok count')) :
    0 ≤ update ∧ count' = count + update ∧ count' ≤ max := by
  rw [release_eq hcount hmax hupdate, Option.some.injEq] at hok
  split_ifs at hok with hneg hfits
  have hsum : count + update = count' := Except.ok.inj hok
  exact ⟨Int.not_lt.1 hneg, hsum.symm, hsum ▸ hfits⟩

/-! ## The invariant -/

/-- The units that a call added. -/
def Event.units : Event → Int
  | .acquired => -1
  | .released update => update
  | .refused | .threw _ => 0

/-- The thread is about to wake one thread, or was woken and has not tested the count since. -/
def Pc.onTheWay : Pc → Bool
  | .woken _ _ | .notifying .one => true
  | _ => false

structure Inv [Fintype τ] (initial : Int) (s : World τ) : Prop where
  counted : s.count = initial + (s.log.map Event.units).sum
  nonneg : 0 ≤ s.count
  le_max : s.count ≤ max
  promised : (∃ t, (s.pc t).parkedHere = true) →
    (∃ t, s.pc t = .notifying .all) ∨ s.count ≤ tally Pc.onTheWay s.pc

theorem inv_initial [Fintype τ] {initial : Int} (hnonneg : 0 ≤ initial) (hmax : initial ≤ max) :
    Inv initial (World.initial τ initial) := by
  refine ⟨?_, hnonneg, hmax, ?_⟩
  · simp [World.initial]
  · intro hparked
    obtain ⟨t, ht⟩ := hparked
    cases ht

/-! ## One step -/

variable [DecidableEq τ] [Fintype τ] {s s' : World τ} {t : τ} {initial : Int}

/-- Thread `t` goes on to `pc`, which is not parked, with as many units more as it is on the way
to a unit itself. -/
theorem Inv.put (h : Inv initial s) {count : Int} {e : List Event} {pc : Pc}
    (hcounted : count + (s.log.map Event.units).sum = s.count + (e.map Event.units).sum)
    (hnonneg : 0 ≤ count) (hmax : count ≤ max)
    (hpromised : count = 0 ∨ pc = .notifying .all ∨ pc.parkedHere = false ∧
      s.pc t ≠ .notifying .all ∧
      count + (s.pc t).onTheWay.toNat ≤ s.count + pc.onTheWay.toNat) :
    Inv initial ⟨count, e, Function.update s.pc t pc⟩ := by
  refine ⟨?_, hnonneg, hmax, fun hparked => ?_⟩
  · have := h.counted
    simp only
    omega
  · rcases hpromised with hzero | hall | ⟨hpc, hold, hle⟩
    · right
      simp only [hzero]
      omega
    · exact .inl ⟨t, by simp only [Function.update_self, hall]⟩
    · obtain ⟨u, hu⟩ := hparked
      have hut : u ≠ t := by
        intro hut
        simp only [hut, Function.update_self, hpc] at hu
        cases hu
      simp only [Function.update_of_ne hut] at hu
      rcases h.promised ⟨u, hu⟩ with ⟨v, hv⟩ | hle'
      · have hvt : v ≠ t := fun hvt => hold (hvt ▸ hv)
        exact .inl ⟨v, by simp only [Function.update_of_ne hvt, hv]⟩
      · have hupdate := tally_update Pc.onTheWay s.pc t pc
        right
        simp only
        omega

theorem mayAcquire_iff {count : Int} : mayAcquire count = true ↔ 0 < count := by
  rw [mayAcquire, decide_eq_true_iff]

theorem mayAcquire_eq_false {count : Int} : mayAcquire count = false ↔ count ≤ 0 := by
  rw [← Bool.not_eq_true, mayAcquire_iff, Int.not_lt]

/-- Taking a unit takes away one thread that was on the way to it, if at all. -/
theorem Inv.take (h : Inv initial s) (hpos : 0 < s.count) (hold : s.pc t ≠ .notifying .all) :
    Inv initial (s.take t) := by
  have hmax := h.le_max
  have hway := Bool.toNat_le (s.pc t).onTheWay
  refine h.put ?_ (by omega) (by omega) (.inr (.inr ⟨rfl, hold, ?_⟩))
  · simp only [List.map_cons, List.sum_cons, Event.units]
    omega
  · have hidle : Pc.idle.onTheWay.toNat = 0 := rfl
    rw [hidle]
    omega

theorem Inv.refuse (h : Inv initial s) (hzero : s.count = 0) : Inv initial (s.refuse t) := by
  refine h.put ?_ h.nonneg h.le_max (.inl hzero)
  simp only [List.map_cons, List.sum_cons, Event.units, Int.zero_add]

/-- A thread that was not about to notify takes a unit, or parks when there is none. -/
theorem Inv.test {timed : Bool} (h : Inv initial s) (hold : s.pc t ≠ .notifying .all) :
    Inv initial (s.test t timed) := by
  rw [World.test]
  split_ifs with hmay
  · exact h.take (mayAcquire_iff.1 hmay) hold
  · rw [Bool.not_eq_true, mayAcquire_eq_false] at hmay
    exact h.put rfl h.nonneg h.le_max (.inl (Int.le_antisymm hmay h.nonneg))

/-- A parked thread that wakes for whatever reason is on its way. -/
theorem Inv.wake {timed timed' expired : Bool} (h : Inv initial s) (hpc : s.pc t = .parked timed) :
    Inv initial (s.move t (.woken timed' expired)) := by
  refine h.put rfl h.nonneg h.le_max (.inr (.inr ⟨rfl, ?_, ?_⟩))
  · rw [hpc]
    exact nofun
  · rw [hpc]
    simp only [Pc.onTheWay, Bool.toNat_false, Bool.toNat_true]
    omega

/-- Each release brings a notification: for its one unit, or for everybody. -/
theorem Inv.release {update count : Int} (h : Inv initial s) (hpc : s.pc t = .idle)
    (hcount : Semaphore.release s.count update = some (.ok count)) (hupdate : update ≤ max) :
    Inv initial ⟨count, .released update :: s.log,
      Function.update s.pc t (afterRelease update)⟩ := by
  obtain ⟨hneg, hsum, hfits⟩ := release_ok h.nonneg h.le_max hupdate hcount
  have hnonneg := h.nonneg
  refine h.put ?_ (by omega) hfits (.inr ?_)
  · simp only [List.map_cons, List.sum_cons, Event.units]
    omega
  · rw [hpc, afterRelease]
    split_ifs with hzero hone
    · refine .inr ⟨rfl, nofun, ?_⟩
      simp only [Pc.onTheWay, hsum, hzero]
      omega
    · refine .inr ⟨rfl, nofun, ?_⟩
      simp only [Pc.onTheWay, hsum, hone, Bool.toNat_false, Bool.toNat_true]
      omega
    · exact .inl rfl

theorem parkedHere_wake (pc : Pc) : pc.wake.parkedHere = false := by
  cases pc <;> rfl

omit [DecidableEq τ] in
/-- Where nobody is parked there is nothing to promise. -/
theorem Inv.unparked (h : Inv initial s) {pc : τ → Pc} (hnone : ∀ u, (pc u).parkedHere = false) :
    Inv initial { s with pc := pc } := by
  refine ⟨h.counted, h.nonneg, h.le_max, fun hparked => ?_⟩
  obtain ⟨u, hu⟩ := hparked
  rw [hnone u] at hu
  cases hu

/-- `notify_one` hands its place over to the thread it wakes. -/
theorem Inv.notifyOne {v : τ} {timed : Bool} (h : Inv initial s) (hpc : s.pc t = .notifying .one)
    (hv : s.pc v = .parked timed) :
    Inv initial ((s.move v (.woken timed false)).move t .idle) := by
  have hvt : v ≠ t := by
    intro hvt
    rw [hvt, hpc] at hv
    cases hv
  refine ⟨h.counted, h.nonneg, h.le_max, fun _ => ?_⟩
  rcases h.promised ⟨v, by rw [hv]; rfl⟩ with ⟨u, hu⟩ | hle
  · have hut : u ≠ t := by
      intro hut
      rw [hut, hpc] at hu
      cases hu
    have huv : u ≠ v := by
      intro huv
      rw [huv, hv] at hu
      cases hu
    refine .inl ⟨u, ?_⟩
    simp only [World.move, Function.update_of_ne hut, Function.update_of_ne huv, hu]
  · have hwoken := tally_update Pc.onTheWay s.pc v (.woken timed false)
    have hidle := tally_update Pc.onTheWay (Function.update s.pc v (.woken timed false)) t .idle
    rw [Function.update_of_ne (Ne.symm hvt), hpc] at hidle
    rw [hv] at hwoken
    simp only [Pc.onTheWay, Bool.toNat_false, Bool.toNat_true] at hwoken hidle
    right
    simp only [World.move]
    omega

/-- **One step.** -/
theorem inv_step {a : Action τ} (h : Inv initial s) (hstep : s.step a = some s') :
    Inv initial s' := by
  cases step_cases hstep with
  | acquire timed hpc => exact h.test (by rw [hpc]; exact nofun)
  | tryAcquire hpc hcount =>
    have hnonneg := h.nonneg
    exact h.take (by omega) (by rw [hpc]; exact nofun)
  | tryRefused hpc hcount => exact h.refuse hcount
  | release hpc hupdate hcount => exact h.release hpc hcount (checked_isSome.1 hupdate).2
  | releaseThrows hthrows =>
    refine ⟨?_, h.nonneg, h.le_max, h.promised⟩
    simp only [List.map_cons, List.sum_cons, Event.units, Int.zero_add]
    exact h.counted
  | wake hpc | expire hpc => exact h.wake hpc
  | giveUp hpc hnone =>
    exact h.refuse (Int.le_antisymm (mayAcquire_eq_false.1 hnone) h.nonneg)
  | recheck hpc => exact h.test (by rw [hpc]; exact nofun)
  | @notifyAll t u hpc =>
    apply h.unparked
    rw [Function.forall_update_iff _ fun _ pc => Pc.parkedHere pc = false]
    refine ⟨rfl, ?_⟩
    exact fun v _ => parkedHere_wake _
  | @notifyNobody t hpc hnone =>
    apply h.unparked
    rw [Function.forall_update_iff _ fun _ pc => Pc.parkedHere pc = false]
    refine ⟨rfl, ?_⟩
    exact fun v _ => hnone v
  | notifyOne hpc hv => exact h.notifyOne hpc hv

/-! ## Every reachable state -/

/-- The units of the successful releases. -/
def releasedUnits (log : List Event) : Int :=
  (log.map fun e => match e with | .released update => update | _ => 0).sum

/-- The number of successful acquisitions. -/
def acquisitions (log : List Event) : Nat := log.countP (· == .acquired)

theorem sum_units (log : List Event) :
    (log.map Event.units).sum = releasedUnits log - acquisitions log := by
  induction log with
  | nil => rfl
  | cons e log ih =>
    simp only [releasedUnits, acquisitions, List.map_cons, List.sum_cons, List.countP_cons,
      beq_iff_eq] at ih ⊢
    rw [ih]
    cases e <;> simp [Event.units] <;> omega

def Pc.notifies : Pc → Bool
  | .notifying _ => true
  | _ => false

/-- The thread was woken and has not tested the count since. -/
def Pc.isWoken : Pc → Bool
  | .woken _ _ => true
  | _ => false

theorem onTheWay_eq_false {pc : Pc} (hn : pc.notifies = false) (hw : pc.isWoken = false) :
    pc.onTheWay = false := by
  cases pc <;> simp_all [Pc.notifies, Pc.isWoken, Pc.onTheWay]

/-- **Units are conserved and nobody is stranded.** -/
theorem reachable_conserves (hcreate : create initial = .ok initial) (hmax : initial ≤ max)
    (hreach : Reachable World.step (World.initial τ initial) s) :
    s.count = initial + releasedUnits s.log - acquisitions s.log ∧
    0 ≤ s.count ∧ s.count ≤ max ∧
    (∀ update, (checked update).isSome = true → (release s.count update).isSome = true) ∧
    (∀ t update s' e, s.step (.release t update) = some s' → s'.log = .threw e :: s.log →
      s'.count = s.count) ∧
    ((∀ t, (s.pc t).notifies = false) → (∀ t, (s.pc t).isWoken = false) → 0 < s.count →
      ∀ t, (s.pc t).parkedHere = false) := by
  have hnonneg : 0 ≤ initial := by
    rw [create] at hcreate
    split_ifs at hcreate with hneg
    exact Int.not_lt.1 hneg
  have hinv : Inv initial s :=
    hreach.invariant World.step (inv_initial hnonneg hmax) fun _ _ _ => inv_step
  refine ⟨?_, hinv.nonneg, hinv.le_max, fun update hupdate => ?_, ?_, ?_⟩
  · rw [hinv.counted, sum_units]
    omega
  · rw [release_eq hinv.nonneg hinv.le_max (checked_isSome.1 hupdate).2]
    rfl
  · intro t update s' e hstep hlog
    cases step_cases hstep with
    | release hpc hupdate hcount => cases hlog
    | releaseThrows hthrows => rfl
  · intro hnotify hwoken hpos t
    by_contra hparked
    rw [Bool.not_eq_false] at hparked
    rcases hinv.promised ⟨t, hparked⟩ with ⟨u, hu⟩ | hle
    · have hnone := hnotify u
      rw [hu] at hnone
      cases hnone
    · rw [tally_eq_zero.2 fun u => onTheWay_eq_false (hnotify u) (hwoken u)] at hle
      omega

/-- Two threads park and two units are released; a third thread takes one of the units before
the first woken thread looks, and the other woken thread times out in vain. -/
def barging : List (Action (Fin 4)) :=
  [.acquire 0 false, .acquire 1 true, .release 2 2, .notify 2 none, .tryAcquire 3, .recheck 0,
    .recheck 1, .expire 1, .recheck 1, .release 2 1, .notify 2 none, .release 2 (-1)]

theorem reachable_conserves_barging :
    ∃ s : World (Fin 4), run World.step (World.initial (Fin 4) 0) barging = some s ∧
      s.count = 1 ∧ releasedUnits s.log - acquisitions s.log = 1 ∧
      ∀ t, (s.pc t).parkedHere = false := by
  have hrun : ∃ s, run World.step (World.initial (Fin 4) 0) barging = some s ∧ s.count = 1 ∧
      (∀ t, (s.pc t).notifies = false) ∧ ∀ t, (s.pc t).isWoken = false :=
    ⟨_, rfl, rfl, by decide, by decide⟩
  obtain ⟨s, hs, hcount, hnotify, hwoken⟩ := hrun
  obtain ⟨hsum, -, -, -, -, hnone⟩ := reachable_conserves rfl (by decide) ⟨barging, hs⟩
  exact ⟨s, hs, hcount, by omega, hnone hnotify hwoken (by omega)⟩

end Semaphore

end EglUtil
