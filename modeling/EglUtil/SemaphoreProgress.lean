import EglUtil.Semaphore

/-!
# `Semaphore`: units find the threads that wait

A woken thread may find the unit taken and park again, and a release of several units wakes
everybody.

**Theorem (`reachable_hands_out`).** From every reachable state, without any further call, spurious
wake-up or deadline, in whatever order the threads are scheduled, `N` threads take at most
`N(N + 1)` steps; and when none is left, exactly as many of the waiting threads have taken a unit as
there were units, or all of them if there were more. Those that still wait, wait with no unit left.

**Theorem (`run_rechecks_le`).** In every run the steps that go on with a call are at most `N + 1`
for each release, and one for each spurious wake-up and each deadline.

In a run without calls only a unit that is taken, or a deadline found gone at a count of zero, takes
a thread off the waiting ones (`HandedOut`).
-/

namespace EglUtil

open Transition Tally

namespace Semaphore

variable {τ : Type*} [DecidableEq τ] [Fintype τ] {s s' : World τ} {t : τ} {initial : Int}

/-! ## Weights -/

/-- A notification wakes one thread, or everybody. -/
def Pc.weight (N : Nat) : Pc → Nat
  | .idle | .parked _ => 0
  | .woken _ _ => 1
  | .notifying .one => 2
  | .notifying .all => N + 1

def World.potential (s : World τ) : Nat := ∑ t, (s.pc t).weight (Fintype.card τ)

/-- The step goes on with a call. -/
def Action.finishes : Action τ → Bool
  | .recheck _ | .notify _ _ => true
  | .acquire _ _ | .tryAcquire _ | .release _ _ | .wake _ | .expire _ => false

def Action.releases : Action τ → Bool
  | .release _ _ => true
  | _ => false

/-- A spurious wake-up, or a deadline. -/
def Action.disturbs : Action τ → Bool
  | .wake _ | .expire _ => true
  | _ => false

def Action.cost (a : Action τ) : Nat := a.finishes.toNat

def Action.budget (N : Nat) : Action τ → Nat
  | .release _ _ => N + 1
  | .wake _ | .expire _ => 1
  | _ => 0

omit [DecidableEq τ] [Fintype τ] in
theorem budget_eq (N : Nat) (a : Action τ) :
    a.budget N = (N + 1) * a.releases.toNat + 1 * a.disturbs.toNat := by
  cases a <;> simp [Action.budget, Action.releases, Action.disturbs]

omit [Fintype τ] in
theorem pc_move_of_ne {v : τ} (h : t ≠ v) (s : World τ) (pc : Pc) : (s.move v pc).pc t = s.pc t :=
  Function.update_of_ne h ..

/-- One thread moves, and pays for it. -/
theorem potential_update {pc : Pc} {f : τ → Pc} {cost budget c : Nat} {s' : World τ}
    (hpc : s'.pc = Function.update f t pc)
    (hothers : ∀ u, u ≠ t → (f u).weight (Fintype.card τ) ≤ (s.pc u).weight (Fintype.card τ) + c)
    (h : pc.weight (Fintype.card τ) + (Fintype.card τ - 1) * c + cost ≤
      (s.pc t).weight (Fintype.card τ) + budget) :
    s'.potential + cost ≤ s.potential + budget := by
  have hsum := sum_add_le (t := t) (c := c) (f := fun u => (s.pc u).weight (Fintype.card τ))
    (g := fun u => (s'.pc u).weight (Fintype.card τ)) fun u hu => by
      rw [hpc, Function.update_of_ne hu]
      exact hothers u hu
  have hself : s'.pc t = pc := by rw [hpc, Function.update_self]
  rw [hself] at hsum
  unfold World.potential
  omega

/-- The other threads stay where they are. -/
theorem potential_alone {pc : Pc} {cost budget : Nat} {s' : World τ}
    (hpc : s'.pc = Function.update s.pc t pc)
    (h : pc.weight (Fintype.card τ) + cost ≤ (s.pc t).weight (Fintype.card τ) + budget) :
    s'.potential + cost ≤ s.potential + budget :=
  potential_update (c := 0) hpc (fun _ _ => Nat.le_refl _) (by omega)

theorem potential_test {timed : Bool} {cost budget : Nat}
    (h : cost ≤ (s.pc t).weight (Fintype.card τ) + budget) :
    (s.test t timed).potential + cost ≤ s.potential + budget := by
  unfold World.test
  split_ifs
  · exact potential_alone rfl (by rwa [Pc.weight, Nat.zero_add])
  · exact potential_alone rfl (by rwa [Pc.weight, Nat.zero_add])

omit [DecidableEq τ] [Fintype τ] in
theorem weight_wake_le (N : Nat) (pc : Pc) : pc.wake.weight N ≤ pc.weight N + 1 := by
  cases pc <;> simp [Pc.wake, Pc.weight]

omit [DecidableEq τ] [Fintype τ] in
theorem weight_afterRelease_le {N : Nat} (hN : 1 ≤ N) (update : Int) :
    (afterRelease update).weight N ≤ N + 1 := by
  unfold afterRelease
  split_ifs
  · exact Nat.zero_le _
  · exact Nat.succ_le_succ hN
  · exact Nat.le_refl _

/-- **Every step pays for itself.** -/
theorem potential_step {a : Action τ} (hstep : s.step a = some s') :
    s'.potential + a.cost ≤ s.potential + a.budget (Fintype.card τ) := by
  cases step_cases hstep with
  | acquire timed hpc => exact potential_test (Nat.zero_le _)
  | tryAcquire hpc hcount | tryRefused hpc hcount =>
    refine potential_alone rfl ?_
    exact Nat.zero_le _
  | @release t update count hpc hupdate hcount =>
    have hcard : 1 ≤ Fintype.card τ := Fintype.card_pos_iff.2 ⟨t⟩
    refine potential_alone rfl ?_
    exact Nat.le_trans (weight_afterRelease_le hcard update) (Nat.le_add_left _ _)
  | releaseThrows hthrows => exact Nat.add_le_add_left (Nat.zero_le _) _
  | wake hpc | expire hpc =>
    refine potential_alone rfl ?_
    rw [hpc]
    exact Nat.le_refl _
  | giveUp hpc hnone =>
    refine potential_alone rfl ?_
    rw [hpc]
    exact Nat.le_refl _
  | recheck hpc =>
    refine potential_test ?_
    rw [hpc]
    exact Nat.le_refl _
  | @notifyAll t u hpc =>
    have hcard : 1 ≤ Fintype.card τ := Fintype.card_pos_iff.2 ⟨t⟩
    refine potential_update (c := 1) rfl (fun v _ => weight_wake_le _ _) ?_
    rw [hpc]
    simp only [Pc.weight, Action.cost, Action.finishes, Bool.toNat_true]
    omega
  | notifyNobody hpc hnone =>
    refine potential_alone rfl ?_
    rw [hpc]
    simp only [Pc.weight, Action.cost, Action.finishes, Bool.toNat_true]
    omega
  | @notifyOne t v timed hpc hv =>
    have hne : t ≠ v := by
      rintro rfl
      rw [hpc] at hv
      cases hv
    have hmoved : (s.move v (.woken timed false)).potential + 0 ≤ s.potential + 1 := by
      refine potential_alone rfl ?_
      rw [hv]
      exact Nat.le_refl _
    have hkept : (s.move v (.woken timed false)).pc t = .notifying .one := by
      rw [pc_move_of_ne hne, hpc]
    have hidle : ((s.move v (.woken timed false)).move t .idle).potential + 2 ≤
        (s.move v (.woken timed false)).potential + 0 := by
      refine potential_alone rfl ?_
      rw [hkept]
      exact Nat.le_refl _
    simp only [Action.cost, Action.finishes, Bool.toNat_true]
    omega

theorem potential_finishes {a : Action τ} (ha : a.finishes = true) (hstep : s.step a = some s') :
    s'.potential + 1 ≤ s.potential := by
  have hpays := potential_step hstep
  have hbudget : a.budget (Fintype.card τ) = 0 := by
    cases a with
    | recheck | notify => rfl
    | acquire | tryAcquire | release | wake | expire => cases ha
  rwa [Action.cost, ha, hbudget] at hpays

/-! ## Every run -/

omit [DecidableEq τ] [Fintype τ] in
theorem sum_budget (N : Nat) (as : List (Action τ)) :
    (as.map (Action.budget N)).sum =
      (N + 1) * as.countP Action.releases + as.countP Action.disturbs := by
  rw [List.map_congr_left fun a _ => budget_eq N a, List.sum_map_add, sum_map_mul_toNat,
    sum_map_mul_toNat, Nat.one_mul]

/-- **Nobody spins.** -/
theorem run_rechecks_le (as : List (Action τ))
    (hrun : run World.step (World.initial τ initial) as = some s) :
    as.countP Action.finishes ≤
      (Fintype.card τ + 1) * as.countP Action.releases + as.countP Action.disturbs := by
  have hpays := run_countP_le World.step World.potential Action.finishes
    (Action.budget (Fintype.card τ)) (fun _ _ _ hstep => potential_step hstep) hrun
  have hnothing : (World.initial τ initial).potential = 0 := Finset.sum_eq_zero fun _ _ => rfl
  rwa [hnothing, Nat.zero_add, sum_budget] at hpays

/-! ## Handing out units -/

/-- The thread is in an acquisition that has not returned. -/
def Pc.waits : Pc → Bool
  | .parked _ | .woken _ _ => true
  | .idle | .notifying _ => false

/-- Since `s`, some of the waiting threads have taken a unit each; others have left only at a count
of zero. -/
def HandedOut (s cur : World τ) (taken : Nat) : Prop :=
  acquisitions cur.log = acquisitions s.log + taken ∧ cur.count + taken = s.count ∧
    ∃ left, tally Pc.waits cur.pc + taken + left = tally Pc.waits s.pc ∧
      (0 < left → cur.count ≤ 0)

omit [DecidableEq τ] in
theorem handedOut_refl (s : World τ) : HandedOut s s 0 :=
  ⟨rfl, by omega, 0, rfl, fun h => absurd h (Nat.lt_irrefl 0)⟩

/-- A thread moves and goes on waiting, or was not waiting. -/
theorem HandedOut.move {cur : World τ} {taken : Nat} (h : HandedOut s cur taken) {pc : Pc}
    (hpc : pc.waits = (cur.pc t).waits) : HandedOut s (cur.move t pc) taken := by
  obtain ⟨hacquired, hcount, left, hwaits, hleft⟩ := h
  have htally := tally_update Pc.waits cur.pc t pc
  rw [hpc] at htally
  refine ⟨hacquired, hcount, left, ?_, hleft⟩
  have hmoved : tally Pc.waits (cur.move t pc).pc = tally Pc.waits cur.pc :=
    Nat.add_right_cancel htally
  rw [hmoved]
  exact hwaits

theorem HandedOut.take {cur : World τ} {taken : Nat} (h : HandedOut s cur taken)
    (hpc : (cur.pc t).waits = true) : HandedOut s (cur.take t) (taken + 1) := by
  obtain ⟨hacquired, hcount, left, hwaits, hleft⟩ := h
  have htally := tally_update Pc.waits cur.pc t .idle
  rw [hpc] at htally
  simp only [Pc.waits, Bool.toNat_true, Bool.toNat_false] at htally
  refine ⟨?_, ?_, left, ?_, fun hpos => ?_⟩
  · have hone : acquisitions (cur.take t).log = acquisitions cur.log + 1 := by
      simp [acquisitions, World.take]
    omega
  · show cur.count - 1 + ((taken + 1 : Nat) : Int) = s.count
    omega
  · show tally Pc.waits (Function.update cur.pc t .idle) + (taken + 1) + left = _
    omega
  · have hzero := hleft hpos
    show cur.count - 1 ≤ 0
    omega

theorem HandedOut.refuse {cur : World τ} {taken : Nat} (h : HandedOut s cur taken)
    (hpc : (cur.pc t).waits = true) (hnone : mayAcquire cur.count = false) :
    HandedOut s (cur.refuse t) taken := by
  obtain ⟨hacquired, hcount, left, hwaits, hleft⟩ := h
  have htally := tally_update Pc.waits cur.pc t .idle
  rw [hpc] at htally
  simp only [Pc.waits, Bool.toNat_true, Bool.toNat_false] at htally
  refine ⟨?_, hcount, left + 1, ?_, fun _ => mayAcquire_eq_false.1 hnone⟩
  · have hsame : acquisitions (cur.refuse t).log = acquisitions cur.log := by
      simp [acquisitions, World.refuse]
    omega
  · show tally Pc.waits (Function.update cur.pc t .idle) + taken + (left + 1) = _
    omega

omit [DecidableEq τ] in
theorem tally_wake (f : τ → Pc) :
    tally Pc.waits (fun v => (f v).wake) = tally Pc.waits f := by
  have hwake : ∀ pc : Pc, pc.wake.waits = pc.waits := by
    intro pc
    cases pc <;> rfl
  rw [tally_eq_sum, tally_eq_sum]
  exact Finset.sum_congr rfl fun v _ => by rw [hwake]

theorem handedOut_step {cur cur' : World τ} {taken : Nat} {a : Action τ} (h : HandedOut s cur taken)
    (ha : a.finishes = true) (hstep : cur.step a = some cur') :
    ∃ taken', HandedOut s cur' taken' := by
  cases step_cases hstep with
  | acquire | tryAcquire | tryRefused | release | releaseThrows | wake | expire => cases ha
  | giveUp hpc hnone => exact ⟨taken, h.refuse (by rw [hpc]; rfl) hnone⟩
  | recheck hpc =>
    unfold World.test
    split_ifs
    · exact ⟨taken + 1, h.take (by rw [hpc]; rfl)⟩
    · exact ⟨taken, h.move (by rw [hpc]; rfl)⟩
  | @notifyAll t u hpc =>
    have hwoken : HandedOut s { cur with pc := fun v => (cur.pc v).wake } taken := by
      obtain ⟨hacquired, hcount, left, hwaits, hleft⟩ := h
      exact ⟨hacquired, hcount, left, by rw [tally_wake]; exact hwaits, hleft⟩
    exact ⟨taken, hwoken.move (by dsimp only; rw [hpc]; rfl)⟩
  | notifyNobody hpc hnone => exact ⟨taken, h.move (by rw [hpc]; rfl)⟩
  | @notifyOne t v timed hpc hv =>
    have hne : t ≠ v := by
      rintro rfl
      rw [hpc] at hv
      cases hv
    have hwoken : HandedOut s (cur.move v (.woken timed false)) taken := h.move (by rw [hv]; rfl)
    refine ⟨taken, hwoken.move ?_⟩
    rw [pc_move_of_ne hne, hpc]
    rfl

/-! ## When no step is left -/

/-- No call that has begun can go on. -/
def Exhausted (s : World τ) : Prop := ∀ a : Action τ, a.finishes = true → s.step a = none

theorem Exhausted.notifies (h : Exhausted s) (t : τ) : (s.pc t).notifies = false := by
  cases hpc : s.pc t with
  | idle | parked | woken => rfl
  | notifying n =>
    cases n with
    | all =>
      have hnone := h (.notify t none) rfl
      simp only [World.step, hpc] at hnone
      cases hnone
    | one =>
      by_cases hparked : ∀ v, (s.pc v).parkedHere = false
      · have hnone := h (.notify t none) rfl
        simp only [World.step, hpc] at hnone
        rw [if_pos hparked] at hnone
        cases hnone
      · obtain ⟨v, hv⟩ := not_forall.1 hparked
        have hnone := h (.notify t (some v)) rfl
        cases hpv : s.pc v with
        | parked timed =>
          simp only [World.step, hpc, hpv] at hnone
          cases hnone
        | _ => simp [Pc.parkedHere, hpv] at hv

theorem Exhausted.isWoken (h : Exhausted s) (t : τ) : (s.pc t).isWoken = false := by
  cases hpc : s.pc t with
  | idle | parked | notifying => rfl
  | woken timed expired =>
    have hnone := h (.recheck t) rfl
    simp only [World.step, hpc] at hnone
    split_ifs at hnone

/-- What is left: threads that wait while there is no unit. -/
theorem Exhausted.parked (h : Exhausted s) (hinv : Inv initial s) (hpos : 0 < s.count) (t : τ) :
    (s.pc t).parkedHere = false := by
  by_contra hparked
  rw [Bool.not_eq_false] at hparked
  rcases hinv.promised ⟨t, hparked⟩ with ⟨u, hu⟩ | hle
  · have hnone := h.notifies u
    rw [hu] at hnone
    cases hnone
  · rw [tally_eq_zero.2 fun u => onTheWay_eq_false (h.notifies u) (h.isWoken u)] at hle
    omega

theorem Exhausted.waits (h : Exhausted s) (hinv : Inv initial s) (hpos : 0 < s.count) :
    tally Pc.waits s.pc = 0 := by
  refine tally_eq_zero.2 fun t => ?_
  have hparked := h.parked hinv hpos t
  have hwoken := h.isWoken t
  cases hpc : s.pc t with
  | idle | notifying => rfl
  | parked timed =>
    rw [hpc] at hparked
    cases hparked
  | woken timed expired =>
    rw [hpc] at hwoken
    cases hwoken

omit [DecidableEq τ] in
theorem potential_le (s : World τ) : s.potential ≤ Fintype.card τ * (Fintype.card τ + 1) := by
  have hthread : ∀ t ∈ Finset.univ, (s.pc t).weight (Fintype.card τ) ≤ Fintype.card τ + 1 := by
    intro t _
    have hcard : 1 ≤ Fintype.card τ := Fintype.card_pos_iff.2 ⟨t⟩
    cases s.pc t with
    | idle | parked => exact Nat.zero_le _
    | woken => exact Nat.le_add_left 1 _
    | notifying n =>
      cases n with
      | one => exact Nat.succ_le_succ hcard
      | all => exact Nat.le_refl _
  have hsum := Finset.sum_le_card_nsmul Finset.univ _ _ hthread
  rwa [Nat.nsmul_eq_mul, Finset.card_univ] at hsum

/-- **Units find the threads that wait.** -/
theorem reachable_hands_out (hcreate : create initial = .ok initial) (hmax : initial ≤ max)
    (h : Reachable World.step (World.initial τ initial) s) {as : List (Action τ)}
    (hfinishes : ∀ a ∈ as, a.finishes = true) (hrun : run World.step s as = some s') :
    as.length ≤ Fintype.card τ * (Fintype.card τ + 1) ∧
      (Exhausted s' →
        acquisitions s'.log = acquisitions s.log + min (tally Pc.waits s.pc) s.count.toNat ∧
        s'.count = s.count - min (tally Pc.waits s.pc) s.count.toNat ∧
        (s'.count = 0 ∨ ∀ t, s'.pc t = .idle)) := by
  have hnonneg : 0 ≤ initial := by
    rw [create] at hcreate
    split_ifs at hcreate with hneg
    exact Int.not_lt.1 hneg
  have hinv : Inv initial s :=
    h.invariant World.step (inv_initial hnonneg hmax) fun _ _ _ => inv_step
  constructor
  · exact Nat.le_trans (run_length_le World.step World.potential
      (fun _ _ _ ha hstep => potential_finishes ha hstep) hfinishes hrun) (potential_le s)
  · intro hexhausted
    have hlater : Inv initial s' ∧ ∃ taken, HandedOut s s' taken :=
      run_invariant_along World.step (P := fun _ a => a.finishes = true)
        (I := fun cur => Inv initial cur ∧ ∃ taken, HandedOut s cur taken)
        (fun _ _ _ hI ha hstep => ⟨inv_step hI.1 hstep,
          Exists.elim hI.2 fun _ hout => handedOut_step hout ha hstep⟩)
        ⟨hinv, 0, handedOut_refl s⟩ (along_of_forall World.step hfinishes) hrun
    obtain ⟨hinv', taken, hacquired, hcount, left, hwaits, hleft⟩ := hlater
    have hnonneg' := hinv'.nonneg
    by_cases hpos : 0 < s'.count
    · have hnobody := hexhausted.waits hinv' hpos
      have hstayed : left = 0 := by
        by_contra hne
        have hzero := hleft (Nat.pos_of_ne_zero hne)
        omega
      have htaken : taken = min (tally Pc.waits s.pc) s.count.toNat := by omega
      rw [← htaken]
      refine ⟨hacquired, by omega, .inr fun t => ?_⟩
      have hidle := tally_eq_zero.1 hnobody t
      have hnotifies := hexhausted.notifies t
      cases hpc : s'.pc t with
      | idle => rfl
      | notifying n =>
        rw [hpc] at hnotifies
        cases hnotifies
      | parked | woken =>
        rw [hpc] at hidle
        cases hidle
    · have hzero : s'.count = 0 := by omega
      have htaken : taken = min (tally Pc.waits s.pc) s.count.toNat := by omega
      rw [← htaken]
      exact ⟨hacquired, by omega, .inl hzero⟩

/-- The numerals of `twoWait` name threads. -/
local instance twoWait_neZero : NeZero 3 := ⟨by decide⟩

/-- Two threads wait, one of them with a deadline, and a third releases five units. -/
def twoWait : List (Action (Fin 3)) := [.acquire 0 false, .acquire 1 true, .release 2 5]

def bothServed : List (Action (Fin 3)) := [.notify 2 none, .recheck 1, .recheck 0]

theorem run_rechecks_le_bothServed :
    ∃ s, run World.step (World.initial (Fin 3) 0) (twoWait ++ bothServed) = some s ∧
      3 ≤ (Fintype.card (Fin 3) + 1) * 1 + 0 := by
  have hrun : ∃ s, run World.step (World.initial (Fin 3) 0) (twoWait ++ bothServed) = some s :=
    ⟨_, rfl⟩
  obtain ⟨s, hs⟩ := hrun
  exact ⟨s, hs, run_rechecks_le _ hs⟩

theorem reachable_hands_out_bothServed :
    ∃ s s', run World.step (World.initial (Fin 3) 0) twoWait = some s ∧
      run World.step s bothServed = some s' ∧
      3 ≤ Fintype.card (Fin 3) * (Fintype.card (Fin 3) + 1) ∧
      acquisitions s'.log = acquisitions s.log + 2 ∧ s'.count = 3 := by
  have hrun : ∃ s s', run World.step (World.initial (Fin 3) 0) twoWait = some s ∧
      run World.step s bothServed = some s' ∧ s.count = 5 ∧ tally Pc.waits s.pc = 2 ∧
      ∀ t, s'.pc t = .idle :=
    ⟨_, _, rfl, rfl, rfl, rfl, by decide⟩
  obtain ⟨s, s', hs, hs', hcount, hwaits, hidle⟩ := hrun
  obtain ⟨hbound, hout⟩ := reachable_hands_out rfl (by decide) ⟨_, hs⟩ (by decide) hs'
  have hexhausted : Exhausted s' := by
    intro a ha
    cases a with
    | acquire | tryAcquire | release | wake | expire => cases ha
    | recheck t | notify t u => simp only [World.step, hidle]
  obtain ⟨hacquired, hcount', -⟩ := hout hexhausted
  rw [hcount, hwaits] at hacquired hcount'
  exact ⟨s, s', hs, hs', hbound, hacquired, hcount'⟩

end Semaphore

end EglUtil
