import EglUtil.Lib.Ownership
import EglUtil.TaskFuture
import Mathlib.Data.List.Nodup

/-!
# `TaskPromise` and `TaskFuture`: a single-assignment, single-delivery channel

**Theorem (`run_channel`).** Along every run a shared state receives at most one outcome, which
never changes: it has outcome `o` exactly if some step set it while it had none, by `set_value`
or `set_exception` on the promise that owned it, or by destroying or assigning over that promise.
At most one future is created for it, at most one `get` delivers, and delivers that outcome. A
consumed future answers every access with `logic_error` until another future is moved into it,
and a call that throws `logic_error` or `invalid_argument` leaves every shared state alone.

**Invariant** (`Inv`). A shared state is owned by at most one promise and held by at most one
future or pending `get`; the promise's flag tells whether its future was created; what is held
was created and not delivered. All that a step can do to a shared state is in `shared_step`: it
leaves it alone, or sets one that had no outcome.
-/

namespace EglUtil

open Transition Ownership SharedTaskState Updates

namespace TaskFuture

variable {π φ α ε : Type*}

/-! ## The invariant -/

/-- Which shared state each promise owns. -/
def World.owners (s : World π φ α ε) : π → Option Nat :=
  (fun P => P.bind TaskPromise.state) ∘ s.promise

/-- Which shared state each future holds, and each `get` in progress. -/
def World.holders (s : World π φ α ε) : φ ⊕ φ → Option Nat :=
  Sum.elim ((fun F => F.bind TaskFuture.state) ∘ s.future) s.getting

structure States (s : World π φ α ε) : Prop where
  fresh : ∀ id, s.nextId ≤ id → s.shared id = .fresh
  single : ∀ id, (s.shared id).Single

/-- A shared state has at most one owner, which has not abandoned it and whose flag tells
whether its future exists. -/
structure Promises (s : World π φ α ε) : Prop where
  owned : Exclusive s.owners
  allocated : ∀ id, Held s.owners id → id < s.nextId
  kept : ∀ id, Held s.owners id → (s.shared id).abandoned = false
  retrieved : ∀ p P id, s.promise p = some P → P.state = some id →
    (P.futureRetrieved = true ↔ id ∈ s.created)

/-- A shared state has at most one future, which delivers at most once. -/
structure Futures (s : World π φ α ε) : Prop where
  held : Exclusive s.holders
  heldCreated : ∀ id, Held s.holders id → id ∈ s.created
  heldUndelivered : ∀ id, Held s.holders id → id ∉ s.delivered.map Prod.fst
  allocated : ∀ id ∈ s.created, id < s.nextId
  created : s.created.Nodup
  delivered : (s.delivered.map Prod.fst).Nodup
  deliveredCreated : ∀ id ∈ s.delivered.map Prod.fst, id ∈ s.created
  consumed : ∀ f id, s.getting f = some id → s.future f = some ⟨none⟩

structure Inv (s : World π φ α ε) : Prop where
  states : States s
  promises : Promises s
  futures : Futures s
  answered : ∀ id r, (id, r) ∈ s.delivered →
    ∃ o, (s.shared id).outcome = some o ∧ r = o.answer

theorem inv_initial : Inv (World.initial π φ α ε) where
  states := ⟨fun _ _ => rfl, fun _ => SharedTaskState.single_fresh⟩
  promises := by
    refine ⟨?_, ?_, ?_, ?_⟩
    · intro _ _ _ h
      cases h
    · rintro _ ⟨_, h⟩
      cases h
    · rintro _ ⟨_, h⟩
      cases h
    · intro _ _ _ h
      cases h
  futures := by
    have hnone : ∀ x, (World.initial π φ α ε).holders x = none := by
      rintro (f | f) <;> rfl
    refine ⟨?_, ?_, ?_, nofun, List.nodup_nil, List.nodup_nil, nofun, nofun⟩
    · intro x _ _ h
      rw [hnone] at h
      cases h
    · rintro _ ⟨x, h⟩
      rw [hnone] at h
      cases h
    · rintro _ ⟨x, h⟩
      rw [hnone] at h
      cases h
  answered := nofun

/-! ## One step -/

variable {s s' : World π φ α ε} {a : Action π φ α ε} {r : Except (Thrown ε) (Answer α)}

/-- Action `a`, taken in `s`, gives shared state `id`, which has no outcome yet, the outcome
`o`. -/
inductive Sets (s : World π φ α ε) : Action π φ α ε → Nat → Outcome α ε → Prop where
  | setValue {p : π} {P : TaskPromise} {id : Nat} (v : α) (hp : s.promise p = some P)
      (hid : P.state = some id) (hnone : (s.shared id).outcome = none) :
      Sets s (.setValue p v) id (.value v)
  | setException {p : π} {P : TaskPromise} {id : Nat} (e : Thrown ε) (hp : s.promise p = some P)
      (hid : P.state = some id) (hnone : (s.shared id).outcome = none) :
      Sets s (.setException p (some e)) id (.exception e)
  | destroyed {p : π} {P : TaskPromise} {id : Nat} (hp : s.promise p = some P)
      (hid : P.state = some id) (hnone : (s.shared id).outcome = none) :
      Sets s (.destroyPromise p) id .abandoned
  | overwritten {p q : π} {P Q : TaskPromise} {id : Nat} (hp : s.promise p = some P)
      (hq : s.promise q = some Q) (hne : p ≠ q) (hid : Q.state = some id)
      (hnone : (s.shared id).outcome = none) : Sets s (.assignPromise p q) id .abandoned

theorem owners_eq_some {p : π} {P : TaskPromise} {id : Nat} (hp : s.promise p = some P)
    (hid : P.state = some id) : s.owners p = some id := by
  simp only [World.owners, Function.comp_apply, hp, Option.bind_some, hid]

theorem Sets.held {id : Nat} {o : Outcome α ε} (h : Sets s a id o) : Held s.owners id := by
  cases h with
  | @setValue p P _ _ hp hid | @setException p P _ _ hp hid | @destroyed p P _ hp hid =>
    exact ⟨p, owners_eq_some hp hid⟩
  | @overwritten p q P Q _ hp hq hne hid => exact ⟨q, owners_eq_some hq hid⟩

theorem Sets.outcome_none {id : Nat} {o : Outcome α ε} (h : Sets s a id o) :
    (s.shared id).outcome = none := by
  cases h <;> assumption

/-- Abandoning what `P` owns changes at most that state, and only if it has no outcome. -/
theorem abandonIfOwned_shared (h : States s) (P : TaskPromise) (id : Nat) :
    (s.abandonIfOwned P).shared id = s.shared id ∨
    P.state = some id ∧ (s.shared id).outcome = none ∧
      (s.abandonIfOwned P).shared id = Outcome.abandoned.state := by
  unfold World.abandonIfOwned
  cases hP : P.state with
  | none => exact .inl rfl
  | some id' =>
    by_cases hid : id = id'
    · subst hid
      simp only [World.setShared, Function.update_self]
      rcases abandon_cases (h.single id) with ⟨-, hsame⟩ | ⟨hfresh, hnew⟩
      · exact .inl hsame
      · refine .inr ⟨trivial, ?_, hnew⟩
        rw [hfresh]
        rfl
    · exact .inl (Function.update_of_ne hid _ _)

theorem abandonIfOwned_of_none (h : States s) {P : TaskPromise} {id : Nat}
    (hid : P.state = some id) (hnone : (s.shared id).outcome = none) :
    (s.abandonIfOwned P).shared id = Outcome.abandoned.state := by
  simp only [World.abandonIfOwned, hid, World.setShared, Function.update_self]
  rw [(outcome_eq_none (h.single id)).1 hnone]
  rfl

/-- Only the shared states can be different. -/
theorem abandonIfOwned_eq (P : TaskPromise) :
    ∃ shared, s.abandonIfOwned P = { s with shared := shared } := by
  unfold World.abandonIfOwned
  split
  · exact ⟨s.shared, rfl⟩
  · exact ⟨_, rfl⟩

variable [DecidableEq π] [DecidableEq φ]

/-- **Single assignment.** A step leaves a shared state as it is, or sets it. -/
theorem shared_step (h : Inv s) (hcall : Calls s a r s') (id : Nat) :
    s'.shared id = s.shared id ∨ ∃ o, Sets s a id o ∧ s'.shared id = o.state := by
  cases hcall with
  | makePromise hp =>
    by_cases hid : id = s.nextId
    · subst hid
      exact .inl ((Function.update_self ..).trans (h.states.fresh _ (Nat.le_refl _)).symm)
    · exact .inl (Function.update_of_ne hid _ _)
  | @setValue p P id' v hp hid' hopen =>
    by_cases hid : id = id'
    · subst hid
      have hfresh := hasOutcome_eq_false.1 hopen
      refine .inr ⟨.value v, .setValue v hp hid' (by rw [hfresh]; rfl), ?_⟩
      simp only [World.setShared, Function.update_self, hfresh]
      rfl
    · exact .inl (Function.update_of_ne hid _ _)
  | @setException p P id' e hp hid' hopen =>
    by_cases hid : id = id'
    · subst hid
      have hfresh := hasOutcome_eq_false.1 hopen
      refine .inr ⟨.exception e, .setException e hp hid' (by rw [hfresh]; rfl), ?_⟩
      simp only [World.setShared, Function.update_self, hfresh]
      rfl
    · exact .inl (Function.update_of_ne hid _ _)
  | @assignPromise p q P Q hp hq hne =>
    rcases abandonIfOwned_shared h.states Q id with hsame | ⟨hid, hnone, hnew⟩
    · exact .inl hsame
    · exact .inr ⟨.abandoned, .overwritten hp hq hne hid hnone, hnew⟩
  | @destroyPromise p P hp =>
    rcases abandonIfOwned_shared h.states P id with hsame | ⟨hid, hnone, hnew⟩
    · exact .inl hsame
    · exact .inr ⟨.abandoned, .destroyed hp hid hnone, hnew⟩
  | _ => exact .inl rfl

/-- A call that sets an outcome does set it. -/
theorem Sets.shared (h : Inv s) {id : Nat} {o : Outcome α ε} (hset : Sets s a id o)
    (hcall : s.call a = some (r, s')) : s'.shared id = o.state := by
  have hfresh := (outcome_eq_none (h.states.single id)).1 hset.outcome_none
  have hopen : (SharedTaskState.fresh : SharedTaskState α ε).hasOutcome = false := rfl
  cases hset with
  | setValue v hp hid hnone =>
    simp only [World.call, hp, hid, World.set, SharedTaskState.setValue, hfresh, hopen,
      Option.some.injEq, Prod.mk.injEq] at hcall
    rw [← hcall.2]
    simp only [World.setShared, Function.update_self]
    rfl
  | setException e hp hid hnone =>
    simp only [World.call, hp, hid, World.set, SharedTaskState.setException, hfresh, hopen,
      Option.some.injEq, Prod.mk.injEq] at hcall
    rw [← hcall.2]
    simp only [World.setShared, Function.update_self]
    rfl
  | destroyed hp hid hnone =>
    simp only [World.call, hp, Option.some.injEq, Prod.mk.injEq] at hcall
    rw [← hcall.2]
    exact abandonIfOwned_of_none h.states hid hnone
  | overwritten hp hq hne hid hnone =>
    simp only [World.call, hp, hq, if_neg hne, Option.some.injEq, Prod.mk.injEq] at hcall
    rw [← hcall.2]
    exact abandonIfOwned_of_none h.states hid hnone

/-- **Outcomes.** A shared state has outcome `o` after a step exactly if it had it before or the
step set it. -/
theorem outcome_step (h : Inv s) (hcall : s.call a = some (r, s')) (id : Nat)
    (o : Outcome α ε) : (s'.shared id).outcome = some o ↔
      (s.shared id).outcome = some o ∨ Sets s a id o := by
  constructor
  · intro ho
    rcases shared_step h (call_cases hcall) id with hsame | ⟨o', hset, hnew⟩
    · exact .inl (hsame ▸ ho)
    · rw [hnew, Outcome.outcome_state] at ho
      cases ho
      exact .inr hset
  · intro h'
    rcases h' with ho | hset
    · rcases shared_step h (call_cases hcall) id with hsame | ⟨o', hset, hnew⟩
      · rw [hsame, ho]
      · rw [hset.outcome_none] at ho
        cases ho
    · rw [hset.shared h hcall, Outcome.outcome_state]

/-! ### Ownership -/

theorem nextId_step (hcall : Calls s a r s') : s.nextId ≤ s'.nextId := by
  cases hcall with
  | makePromise => exact Nat.le_succ _
  | @assignPromise _ _ _ P | @destroyPromise _ P =>
    obtain ⟨shared, heq⟩ := abandonIfOwned_eq (s := s) P
    have hnext : (s.abandonIfOwned P).nextId = s.nextId := by rw [heq]
    exact Nat.le_of_eq hnext.symm
  | _ => exact Nat.le_refl _

omit [DecidableEq φ] in
theorem owners_update (promise : π → Option TaskPromise) (p : π) (P : Option TaskPromise) :
    (fun P => P.bind TaskPromise.state) ∘ Function.update promise p P =
      Function.update ((fun P => P.bind TaskPromise.state) ∘ promise) p
        (P.bind TaskPromise.state) :=
  Function.comp_update _ _ _ _

omit [DecidableEq φ] in
/-- Moving a promise moves what it owns. -/
theorem owners_move {p q : π} {P : TaskPromise} (hp : s.promise p = some P) :
    (fun P => P.bind TaskPromise.state) ∘
      Function.update (Function.update s.promise p (some { P with state := none })) q (some P) =
      Function.update (Function.update s.owners p none) q (s.owners p) := by
  rw [owners_update, owners_update]
  simp only [Option.bind_some]
  rw [World.owners, Function.comp_apply, hp]
  rfl

/-- What is owned after a step was owned before, or has just been allocated. -/
theorem held_owners_step (hcall : Calls s a r s') {id : Nat} (hid : Held s'.owners id) :
    Held s.owners id ∨ s.nextId = id ∧ id < s'.nextId := by
  cases hcall with
  | makePromise hp =>
    simp only [World.owners, owners_update] at hid
    rcases held_update hid with hnew | hold
    · simp only [Option.bind_some, Option.some.injEq] at hnew
      exact .inr ⟨hnew, hnew ▸ Nat.lt_succ_self _⟩
    · exact .inl hold
  | @getFuture p f id' hp hf =>
    simp only [World.owners, owners_update] at hid
    rcases held_update hid with hnew | hold
    · exact .inl ⟨p, (owners_eq_some hp rfl).trans hnew⟩
    · exact .inl hold
  | movePromise hp | assignPromise hp =>
    simp only [World.owners, owners_move hp] at hid
    exact .inl (held_move hid)
  | destroyPromise hp =>
    simp only [World.owners, owners_update] at hid
    exact .inl ((held_update hid).resolve_left nofun)
  | _ => exact .inl hid

/-- An abandoned state has lost its owner. -/
theorem Sets.not_held (h : Promises s) {id : Nat} (hset : Sets s a id .abandoned)
    (hcall : s.call a = some (r, s')) : ¬ Held s'.owners id := by
  cases hset with
  | destroyed hp hid hnone =>
    simp only [World.call, hp, Option.some.injEq, Prod.mk.injEq] at hcall
    rw [← hcall.2, World.owners, owners_update]
    exact h.owned.not_held_drop (owners_eq_some hp hid)
  | overwritten hp hq hne hid hnone =>
    simp only [World.call, hp, hq, if_neg hne, Option.some.injEq, Prod.mk.injEq] at hcall
    rw [← hcall.2, World.owners, owners_move hp]
    exact h.owned.not_held_overwrite hne (owners_eq_some hq hid)

theorem owned_step (h : Promises s) (hcall : Calls s a r s') : Exclusive s'.owners := by
  cases hcall with
  | makePromise hp =>
    simp only [World.owners, owners_update]
    exact h.owned.grant fun hheld => Nat.lt_irrefl _ (h.allocated _ hheld)
  | @getFuture p f id hp hf =>
    simp only [World.owners, owners_update, Option.bind_some]
    rw [← show s.owners p = some id from owners_eq_some hp rfl]
    exact (Function.update_eq_self p s.owners).symm ▸ h.owned
  | movePromise hp | assignPromise hp =>
    simp only [World.owners, owners_move hp]
    exact h.owned.move
  | destroyPromise hp =>
    simp only [World.owners, owners_update]
    exact h.owned.drop
  | _ => exact h.owned

/-- The promise that owns a state afterwards carries the flag of the one that did before, up to
the future that a `get_future` has just created. -/
theorem retrieved_step (h : Inv s) (hcall : Calls s a r s') (p : π) (P : TaskPromise) (id : Nat)
    (hp : s'.promise p = some P) (hid : P.state = some id) :
    P.futureRetrieved = true ↔ id ∈ s'.created := by
  have hmove : ∀ {q q' : π} {Q : TaskPromise}, s.promise q = some Q →
      Function.update (Function.update s.promise q (some { Q with state := none })) q' (some Q) p =
        some P → (P.futureRetrieved = true ↔ id ∈ s.created) := by
    intro q q' Q hq hp
    rcases update_eq_some hp with ⟨-, hQ⟩ | ⟨-, hp⟩
    · cases hQ
      exact h.promises.retrieved q _ id hq hid
    · rcases update_eq_some hp with ⟨-, hQ⟩ | ⟨-, hp⟩
      · cases hQ
        cases hid
      · exact h.promises.retrieved p P id hp hid
  cases hcall with
  | @makePromise q hq =>
    rcases update_eq_some hp with ⟨-, hQ⟩ | ⟨-, hp⟩
    · cases hQ
      cases hid
      refine ⟨nofun, fun hmem => ?_⟩
      exact absurd (h.futures.allocated _ hmem) (Nat.lt_irrefl _)
    · exact h.promises.retrieved p P id hp hid
  | @getFuture q f id' hq hf =>
    rcases update_eq_some hp with ⟨-, hQ⟩ | ⟨hpq, hold⟩
    · cases hQ
      cases hid
      simp
    · have hne : id ≠ id' := by
        rintro rfl
        exact hpq (h.promises.owned p q id (owners_eq_some hold hid) (owners_eq_some hq rfl))
      rw [h.promises.retrieved p P id hold hid]
      simp [hne]
  | movePromise hq => exact hmove hq hp
  | @assignPromise q q' Q Q' hq =>
    obtain ⟨shared, heq⟩ := abandonIfOwned_eq (s := s) Q'
    rw [heq]
    exact hmove hq hp
  | @destroyPromise q Q hq =>
    obtain ⟨shared, heq⟩ := abandonIfOwned_eq (s := s) Q
    rw [heq]
    rcases update_eq_some hp with ⟨-, hQ⟩ | ⟨-, hp⟩
    · cases hQ
    · exact h.promises.retrieved p P id hp hid
  | _ => exact h.promises.retrieved p P id hp hid

theorem promises_step (h : Inv s) (hcall : s.call a = some (r, s')) : Promises s' where
  owned := owned_step h.promises (call_cases hcall)
  allocated := by
    intro id hheld
    rcases held_owners_step (call_cases hcall) hheld with hold | ⟨-, hlt⟩
    · exact Nat.lt_of_lt_of_le (h.promises.allocated id hold) (nextId_step (call_cases hcall))
    · exact hlt
  kept := by
    intro id hheld
    rcases shared_step h (call_cases hcall) id with hsame | ⟨o, hset, hnew⟩
    · rw [hsame]
      rcases held_owners_step (call_cases hcall) hheld with hold | ⟨hid, -⟩
      · exact h.promises.kept id hold
      · rw [h.states.fresh id (Nat.le_of_eq hid)]
        rfl
    · rw [hnew]
      cases o with
      | abandoned => exact absurd hheld (hset.not_held h.promises hcall)
      | _ => rfl
  retrieved := retrieved_step h (call_cases hcall)

theorem states_step (h : Inv s) (hcall : Calls s a r s') : States s' where
  fresh := by
    intro id hle
    have hle' := Nat.le_trans (nextId_step hcall) hle
    rcases shared_step h hcall id with hsame | ⟨o, hset, -⟩
    · rw [hsame]
      exact h.states.fresh id hle'
    · exact absurd (h.promises.allocated id hset.held) (Nat.not_lt.2 hle')
  single := by
    intro id
    rcases shared_step h hcall id with hsame | ⟨o, -, hnew⟩
    · rw [hsame]
      exact h.states.single id
    · rw [hnew]
      exact o.single_state

/-! ### Delivery -/

omit [DecidableEq π] in
/-- A future is given a shared state, or loses it. -/
theorem holders_update (future : φ → Option TaskFuture) (getting : φ → Option Nat) (f : φ)
    (F : Option TaskFuture) :
    Sum.elim ((fun F => F.bind TaskFuture.state) ∘ Function.update future f F) getting =
      Function.update (Sum.elim ((fun F => F.bind TaskFuture.state) ∘ future) getting) (.inl f)
        (F.bind TaskFuture.state) := by
  rw [Function.comp_update, Sum.update_elim_inl]

omit [DecidableEq π] in
/-- Moving a future moves what it holds. -/
theorem holders_move {f g : φ} {F : TaskFuture} (hf : s.future f = some F) :
    Sum.elim ((fun F => F.bind TaskFuture.state) ∘
      Function.update (Function.update s.future f (some ⟨none⟩)) g (some F)) s.getting =
      Function.update (Function.update s.holders (.inl f) none) (.inl g) (s.holders (.inl f)) := by
  rw [holders_update, holders_update]
  simp only [World.holders, Sum.elim_inl, Function.comp_apply, hf]
  rfl

omit [DecidableEq π] in
/-- A `get` takes the shared state over from the future. -/
theorem holders_get {f : φ} {id : Nat} (hf : s.future f = some ⟨some id⟩) :
    Sum.elim ((fun F => F.bind TaskFuture.state) ∘ Function.update s.future f (some ⟨none⟩))
      (Function.update s.getting f (some id)) =
      Function.update (Function.update s.holders (.inl f) none) (.inr f) (s.holders (.inl f)) := by
  rw [← Sum.update_elim_inr, holders_update]
  simp only [World.holders, Sum.elim_inl, Function.comp_apply, hf]
  rfl

omit [DecidableEq π] [DecidableEq φ] in
/-- What is held elsewhere than before must be accounted for; the rest of the record stays. -/
theorem Futures.rearrange (h : Futures s) (hheld : Exclusive s'.holders)
    (hsub : ∀ id, Held s'.holders id → Held s.holders id) (hcreated : s'.created = s.created)
    (hdelivered : s'.delivered = s.delivered) (hnext : s.nextId ≤ s'.nextId)
    (hconsumed : ∀ f id, s'.getting f = some id → s'.future f = some ⟨none⟩) : Futures s' where
  held := hheld
  heldCreated := fun id hid => hcreated ▸ h.heldCreated id (hsub id hid)
  heldUndelivered := fun id hid => hdelivered ▸ h.heldUndelivered id (hsub id hid)
  allocated := fun id hid => Nat.lt_of_lt_of_le (h.allocated id (hcreated ▸ hid)) hnext
  created := hcreated ▸ h.created
  delivered := hdelivered ▸ h.delivered
  deliveredCreated := fun id hid => hcreated ▸ h.deliveredCreated id (hdelivered ▸ hid)
  consumed := hconsumed

omit [DecidableEq π] in
/-- A future object that no `get` is in progress on may be replaced. -/
theorem consumed_update {future : φ → Option TaskFuture} {getting : φ → Option Nat} {f : φ}
    {F : Option TaskFuture} (h : ∀ g id, getting g = some id → future g = some ⟨none⟩)
    (hidle : getting f = none) (g : φ) (id : Nat) (hg : getting g = some id) :
    Function.update future f F g = some ⟨none⟩ := by
  have hgf : g ≠ f := by
    rintro rfl
    rw [hidle] at hg
    cases hg
  rw [Function.update_of_ne hgf]
  exact h g id hg

omit [DecidableEq π] [DecidableEq φ] in
theorem Futures.idle_of_vacant (h : Futures s) {f : φ} (hf : s.future f = none) :
    s.getting f = none := by
  cases hg : s.getting f with
  | none => rfl
  | some id =>
    rw [h.consumed f id hg] at hf
    cases hf

theorem Futures.getFuture (h : Inv s) {p : π} {f : φ} {id : Nat}
    (hp : s.promise p = some ⟨some id, false⟩) (hf : s.future f = none) :
    Futures { s with
      promise := Function.update s.promise p (some ⟨some id, true⟩)
      future := Function.update s.future f (some ⟨some id⟩)
      created := s.created ++ [id] } := by
  have hnew : id ∉ s.created := fun hmem =>
    Bool.false_ne_true ((h.promises.retrieved p _ id hp rfl).2 hmem)
  have hcases : ∀ id', Held (Function.update s.holders (.inl f) (some id)) id' →
      id' = id ∨ Held s.holders id' := by
    intro id' hid'
    exact (held_update hid').imp_left fun heq => (Option.some.inj heq).symm
  refine ⟨?_, fun id' hid' => ?_, fun id' hid' => ?_, fun id' hmem => ?_, ?_,
    h.futures.delivered, fun id' hmem => ?_,
    consumed_update h.futures.consumed (h.futures.idle_of_vacant hf)⟩
  · simp only [World.holders, holders_update]
    exact h.futures.held.grant fun hheld => hnew (h.futures.heldCreated id hheld)
  · simp only [World.holders, holders_update] at hid'
    rcases hcases id' hid' with rfl | hold
    · exact List.mem_append_right _ List.mem_cons_self
    · exact List.mem_append_left _ (h.futures.heldCreated id' hold)
  · simp only [World.holders, holders_update] at hid'
    rcases hcases id' hid' with rfl | hold
    · exact fun hmem => hnew (h.futures.deliveredCreated id' hmem)
    · exact h.futures.heldUndelivered id' hold
  · rcases List.mem_append.1 hmem with hold | hlast
    · exact h.futures.allocated id' hold
    · rw [List.mem_singleton.1 hlast]
      exact h.promises.allocated id ⟨p, owners_eq_some hp rfl⟩
  · refine List.nodup_append.2 ⟨h.futures.created, List.nodup_singleton _, ?_⟩
    intro x hx y hy
    rw [List.mem_singleton.1 hy]
    rintro rfl
    exact hnew hx
  · exact List.mem_append_left _ (h.futures.deliveredCreated id' hmem)

omit [DecidableEq π] in
theorem Futures.deliver (h : Futures s) {f : φ} {id : Nat} {r : Except (Thrown ε) α}
    (hf : s.getting f = some id) : Futures { s with
      getting := Function.update s.getting f none
      delivered := s.delivered ++ [(id, r)] } := by
  have hheld : s.holders (.inr f) = some id := hf
  have hdrop : Sum.elim ((fun F => F.bind TaskFuture.state) ∘ s.future)
      (Function.update s.getting f none) = Function.update s.holders (.inr f) none := by
    rw [World.holders, Sum.update_elim_inr]
  have hsub : ∀ id', Held (Function.update s.holders (.inr f) none) id' → Held s.holders id' :=
    fun id' hid' => (held_update hid').resolve_left nofun
  refine ⟨?_, fun id' hid' => ?_, fun id' hid' => ?_, h.allocated, h.created, ?_,
    fun id' hmem => ?_, fun g id' hg => ?_⟩
  · simp only [World.holders, hdrop]
    exact h.held.drop
  · simp only [World.holders, hdrop] at hid'
    exact h.heldCreated id' (hsub id' hid')
  · simp only [World.holders, hdrop] at hid'
    simp only [List.map_append, List.map_cons, List.map_nil, List.mem_append, List.mem_singleton]
    intro hdelivered
    rcases hdelivered with hmem | rfl
    · exact h.heldUndelivered id' (hsub id' hid') hmem
    · exact h.held.not_held_drop hheld hid'
  · simp only [List.map_append, List.map_cons, List.map_nil]
    refine List.nodup_append.2 ⟨h.delivered, List.nodup_singleton _, ?_⟩
    intro x hx y hy
    rw [List.mem_singleton.1 hy]
    rintro rfl
    exact h.heldUndelivered x ⟨_, hheld⟩ hx
  · simp only [List.map_append, List.map_cons, List.map_nil, List.mem_append,
      List.mem_singleton] at hmem
    rcases hmem with hold | rfl
    · exact h.deliveredCreated id' hold
    · exact h.heldCreated id' ⟨_, hheld⟩
  · rcases update_eq_some hg with ⟨-, hnone⟩ | ⟨-, hg⟩
    · cases hnone
    · exact h.consumed g id' hg

omit [DecidableEq π] in
/-- A future is moved into another object. -/
theorem Futures.move (h : Futures s) {f g : φ} {F : TaskFuture} (hidle : s.getting f = none)
    (hf : s.future f = some F) (hidle' : s.getting g = none) : Futures { s with
      future := Function.update (Function.update s.future f (some ⟨none⟩)) g (some F) } := by
  refine h.rearrange ?_ (fun id hid => ?_) rfl rfl (Nat.le_refl _)
    (consumed_update (consumed_update h.consumed hidle) hidle')
  · simp only [World.holders, holders_move hf]
    exact h.held.move
  · simp only [World.holders, holders_move hf] at hid
    exact held_move hid

omit [DecidableEq π] in
theorem Futures.get (h : Futures s) {f : φ} {id : Nat} (hf : s.future f = some ⟨some id⟩) :
    Futures { s with
      future := Function.update s.future f (some ⟨none⟩)
      getting := Function.update s.getting f (some id) } := by
  refine h.rearrange ?_ (fun id' hid' => ?_) rfl rfl (Nat.le_refl _) fun g id' hg => ?_
  · simp only [World.holders, holders_get hf]
    exact h.held.move
  · simp only [World.holders, holders_get hf] at hid'
    exact held_move hid'
  · dsimp only at hg ⊢
    by_cases hgf : g = f
    · rw [hgf, Function.update_self]
    · rw [Function.update_of_ne hgf] at hg ⊢
      exact h.consumed g id' hg

omit [DecidableEq π] in
/-- A future object that holds nothing is made, or one is destroyed. -/
theorem Futures.drop (h : Futures s) {f : φ} {F : Option TaskFuture} (hidle : s.getting f = none)
    (hF : F.bind TaskFuture.state = none) :
    Futures { s with future := Function.update s.future f F } := by
  refine h.rearrange ?_ (fun id hid => ?_) rfl rfl (Nat.le_refl _)
    (consumed_update h.consumed hidle)
  · simp only [World.holders, holders_update, hF]
    exact h.held.drop
  · simp only [World.holders, holders_update, hF] at hid
    exact (held_update hid).resolve_left nofun

theorem futures_step (h : Inv s) (hcall : Calls s a r s') : Futures s' := by
  have hf := h.futures
  have hsame : ∀ {shared promise nextId}, s.nextId ≤ nextId → Futures
      { s with shared := shared, promise := promise, nextId := nextId } := fun hle =>
    hf.rearrange hf.held (fun _ => id) rfl rfl hle hf.consumed
  cases hcall with
  | misuse | unchanged => exact hf
  | makePromise hp => exact hsame (Nat.le_succ _)
  | setValue | setException | movePromise => exact hsame (Nat.le_refl _)
  | @assignPromise _ _ _ P | @destroyPromise _ P =>
    obtain ⟨shared, heq⟩ := abandonIfOwned_eq (s := s) P
    rw [heq]
    exact hsame (Nat.le_refl _)
  | makeFuture hnone => exact hf.drop (hf.idle_of_vacant hnone) rfl
  | destroyFuture hidle => exact hf.drop hidle rfl
  | getFuture hp hnone => exact Futures.getFuture h hp hnone
  | get hidle hfut => exact hf.get hfut
  | deliver hget hr => exact hf.deliver hget
  | moveFuture hidle hfut hnone => exact hf.move hidle hfut (hf.idle_of_vacant hnone)
  | assignFuture hidle hfut hidle' hne => exact hf.move hidle hfut hidle'

/-- What was delivered is the outcome, and stays it. -/
theorem answered_step (h : Inv s) (hcall : s.call a = some (r, s')) (id : Nat)
    (r' : Except (Thrown ε) α) (hmem : (id, r') ∈ s'.delivered) :
    ∃ o, (s'.shared id).outcome = some o ∧ r' = o.answer := by
  have hold : (id, r') ∈ s.delivered → ∃ o, (s'.shared id).outcome = some o ∧ r' = o.answer := by
    intro hmem
    obtain ⟨o, ho, hr'⟩ := h.answered id r' hmem
    exact ⟨o, (outcome_step h hcall id o).2 (.inl ho), hr'⟩
  cases call_cases hcall with
  | @deliver f id' r hf hr =>
    rcases List.mem_append.1 hmem with hmem | hlast
    · exact hold hmem
    · cases List.mem_singleton.1 hlast
      rw [get_eq (h.states.single id)] at hr
      obtain ⟨o, ho, hanswer⟩ := Option.map_eq_some_iff.1 hr
      exact ⟨o, ho, hanswer.symm⟩
  | @assignPromise _ _ _ P | @destroyPromise _ P =>
    obtain ⟨shared, heq⟩ := abandonIfOwned_eq (s := s) P
    rw [heq] at hmem
    exact hold hmem
  | _ => exact hold hmem

/-- **One step.** -/
theorem inv_step (h : Inv s) (hstep : s.step a = some s') : Inv s' := by
  obtain ⟨⟨r, t⟩, hcall, rfl⟩ := Option.map_eq_some_iff.1 hstep
  exact ⟨states_step h (call_cases hcall), promises_step h hcall,
    futures_step h (call_cases hcall), answered_step h hcall⟩

/-! ## Every run -/

/-- The action puts another shared state into the future object `f`, or ends its life. -/
def renews (f : φ) : Action π φ α ε → Bool
  | .assignFuture g f' => f' = f && g ≠ f
  | .destroyFuture f' => f' = f
  | _ => false

/-- The future has given its shared state away. -/
def Consumed (s : World π φ α ε) (f : φ) : Prop :=
  s.future f = some ⟨none⟩ ∧ s.getting f = none

/-- Every access to a consumed future throws, and `valid` answers false. -/
theorem Consumed.accesses {f : φ} (h : Consumed s f) :
    s.call (.valid f) = some (.ok (.bool false), s) ∧
    s.call (.ready f) = some (.error noSharedState, s) ∧
    s.call (.wait f) = some (.error noSharedState, s) ∧
    s.call (.waitFor f) = some (.error noSharedState, s) ∧
    s.call (.get f) = some (.error noSharedState, s) := by
  have husable : s.usable f = some ⟨none⟩ := usable_eq_some.2 ⟨h.2, h.1⟩
  simp [World.call, husable]

/-- A future stays consumed until another one is assigned to it. -/
theorem consumed_step {f : φ} (h : Consumed s f) (ha : renews f a = false)
    (hstep : s.step a = some s') : Consumed s' f := by
  obtain ⟨⟨r, t⟩, hcall, rfl⟩ := Option.map_eq_some_iff.1 hstep
  have hother : ∀ {g : φ} {G : Option TaskFuture} {future : φ → Option TaskFuture}, f ≠ g →
      future f = some ⟨none⟩ → Function.update future g G f = some ⟨none⟩ := by
    intro g G future hne hf
    rw [Function.update_of_ne hne, hf]
  have hvacant : ∀ {g : φ}, s.future g = none → f ≠ g := by
    rintro g hg rfl
    rw [h.1] at hg
    cases hg
  obtain ⟨hf, hidle⟩ := h
  cases call_cases hcall with
  | makeFuture hnone | getFuture _ hnone => exact ⟨hother (hvacant hnone) hf, hidle⟩
  | @get g id _ hg =>
    have hne : f ≠ g := by
      rintro rfl
      rw [hf] at hg
      cases hg
    exact ⟨hother hne hf, by simpa only [Function.update_of_ne hne] using hidle⟩
  | @deliver g id r hg =>
    have hne : f ≠ g := by
      rintro rfl
      rw [hidle] at hg
      cases hg
    exact ⟨hf, by simpa only [Function.update_of_ne hne] using hidle⟩
  | @assignPromise _ _ _ P | @destroyPromise _ P =>
    obtain ⟨shared, heq⟩ := abandonIfOwned_eq (s := s) P
    rw [heq]
    exact ⟨hf, hidle⟩
  | @moveFuture g g' G _ hg hnone =>
    refine ⟨hother (hvacant hnone) ?_, hidle⟩
    by_cases hne : f = g
    · rw [hne, Function.update_self]
    · exact hother hne hf
  | @assignFuture g g' G _ hg _ hne' =>
    have hfg' : f ≠ g' := by
      rintro rfl
      simp [renews, hne'] at ha
    refine ⟨hother hfg' ?_, hidle⟩
    by_cases hne : f = g
    · rw [hne, Function.update_self]
    · exact hother hne hf
  | @destroyFuture g _ =>
    have hne : f ≠ g := by
      rintro rfl
      simp [renews] at ha
    exact ⟨hother hne hf, hidle⟩
  | _ => exact ⟨hf, hidle⟩

/-- What a run `as` that ends in `s` guarantees. -/
structure Channel (as : List (Action π φ α ε)) (s : World π φ α ε) : Prop where
  /-- A shared state has the outcome that some step set, when it had none. -/
  outcome : ∀ id o, (s.shared id).outcome = some o ↔
    Sometime World.step (fun t a => Sets t a id o) (World.initial π φ α ε) as
  /-- The outcome never changes. -/
  stable : ∀ id o as' s', run World.step s as' = some s' → (s.shared id).outcome = some o →
    (s'.shared id).outcome = some o
  /-- A shared state is abandoned exactly if the promise owning it was destroyed or assigned
  over while it was unset; it then holds neither a value nor an exception. -/
  abandoned : ∀ id, (s.shared id).abandoned = true ↔
    Sometime World.step (fun t a => Sets t a id .abandoned) (World.initial π φ α ε) as
  unset : ∀ id, (s.shared id).abandoned = true → (s.shared id).result = .empty
  /-- One future for each shared state. -/
  created : s.created.Nodup
  /-- One delivery for each shared state. -/
  delivered : (s.delivered.map Prod.fst).Nodup
  /-- It delivers the outcome. -/
  answered : ∀ id r, (id, r) ∈ s.delivered →
    (∀ v, r = .ok v ↔ (s.shared id).outcome = some (.value v)) ∧
    ∀ e, r = .error e ↔ (s.shared id).outcome = some (.exception e) ∨
      (s.shared id).outcome = some .abandoned ∧ e = .brokenTaskPromise
  /-- The future that delivered throws on every access until another one is assigned to it. -/
  consumed : ∀ f r t, s.call (.deliver f) = some (r, t) → ∀ as' s', run World.step t as' = some s' →
    (∀ a ∈ as', renews f a = false) →
    s'.call (.valid f) = some (.ok (.bool false), s') ∧
    s'.call (.ready f) = some (.error noSharedState, s') ∧
    s'.call (.wait f) = some (.error noSharedState, s') ∧
    s'.call (.waitFor f) = some (.error noSharedState, s') ∧
    s'.call (.get f) = some (.error noSharedState, s')
  /-- A call that throws `logic_error` or `invalid_argument` changes no shared state. -/
  misuse : ∀ a e s', s.call a = some (.error e, s') → isMisuse e = true →
    ∀ id, s'.shared id = s.shared id

omit [DecidableEq π] [DecidableEq φ] in
theorem abandoned_iff (h : Inv s) (id : Nat) :
    (s.shared id).abandoned = true ↔ (s.shared id).outcome = some .abandoned := by
  obtain ⟨hvalued, hunset⟩ := h.states.single id
  generalize s.shared id = st at hvalued hunset
  rcases st with ⟨result, abandoned⟩
  cases result <;> cases abandoned <;> simp_all [SharedTaskState.outcome]

omit [DecidableEq π] [DecidableEq φ] in
theorem Inv.answer (h : Inv s) {id : Nat} {r : Except (Thrown ε) α}
    (hmem : (id, r) ∈ s.delivered) :
    (∀ v, r = .ok v ↔ (s.shared id).outcome = some (.value v)) ∧
    ∀ e, r = .error e ↔ (s.shared id).outcome = some (.exception e) ∨
      (s.shared id).outcome = some .abandoned ∧ e = .brokenTaskPromise := by
  obtain ⟨o, ho, rfl⟩ := h.answered id r hmem
  rw [ho]
  cases o with
  | value v => simp [Outcome.answer]
  | exception e => simp [Outcome.answer]
  | abandoned => simp [Outcome.answer, eq_comm]

theorem misuse_shared (hcall : Calls s a r s') {e : Thrown ε} (hr : r = .error e) (id : Nat) :
    s'.shared id = s.shared id := by
  cases hcall with
  | misuse | unchanged | deliver => rfl
  | _ => cases hr

theorem consumed_deliver (h : Inv s) {f : φ} (hcall : s.call (.deliver f) = some (r, s')) :
    Consumed s' f := by
  simp only [World.call] at hcall
  split at hcall
  · cases hcall
  · next id hf =>
    obtain ⟨r, -, hpost⟩ := Option.map_eq_some_iff.1 hcall
    cases hpost
    exact ⟨h.futures.consumed f id hf, Function.update_self ..⟩

/-- **A single-assignment, single-delivery channel.** Whatever the order in which promises and
futures are made, moved, assigned, used and destroyed. -/
theorem run_channel {as : List (Action π φ α ε)}
    (hrun : run World.step (World.initial π φ α ε) as = some s) : Channel as s := by
  have hstep : ∀ (s : World π φ α ε) a s', Inv s → s.step a = some s' → Inv s' :=
    fun _ _ _ hI hstep => inv_step hI hstep
  have houtcome : ∀ id o (s : World π φ α ε) a s', Inv s → s.step a = some s' →
      ((s'.shared id).outcome = some o ↔ (s.shared id).outcome = some o ∨ Sets s a id o) := by
    intro id o s a s' hI hstep
    obtain ⟨⟨r, t⟩, hcall, rfl⟩ := Option.map_eq_some_iff.1 hstep
    exact outcome_step hI hcall id o
  have hinv : Inv s := run_invariant World.step hstep inv_initial hrun
  have hset : ∀ id o, (s.shared id).outcome = some o ↔
      Sometime World.step (fun t a => Sets t a id o) (World.initial π φ α ε) as := by
    intro id o
    have hflag := run_flag World.step (P := fun t a => Sets t a id o)
      (F := fun t => (t.shared id).outcome = some o) hstep (houtcome id o) inv_initial hrun
    rw [hflag]
    exact or_iff_right nofun
  refine ⟨hset, fun id o as' s' hrun' ho => ?_, fun id => ?_,
    fun id => (hinv.states.single id).unset, hinv.futures.created, hinv.futures.delivered,
    fun id r hmem => hinv.answer hmem,
    fun f r t hcall as' s' hrun' has => ?_,
    fun a e s' hcall _ => misuse_shared (call_cases hcall) rfl⟩
  · exact (run_flag World.step (P := fun t a => Sets t a id o)
      (F := fun t => (t.shared id).outcome = some o) hstep (houtcome id o) hinv hrun').2 (.inl ho)
  · rw [abandoned_iff hinv, hset]
  · have hconsumed : Consumed s' f := by
      have hquiet : Along World.step (fun _ a => renews f a = false) t as' :=
        along_of_forall World.step has
      exact run_invariant_along World.step (I := fun t => Consumed t f)
        (fun _ _ _ hI ha hstep => consumed_step hI ha hstep) (consumed_deliver hinv hcall)
        hquiet hrun'
    exact hconsumed.accesses

/-- A promise keeps its word to `false`, whose future then receives a second shared state. -/
def refill : List (Action Bool Bool Nat String) :=
  [.makePromise false, .getFuture false false, .setValue false 1, .get false, .deliver false,
    .makePromise true, .getFuture true true, .setValue true 2, .assignFuture true false]

/-- An access to a future that has delivered need not throw: a valid future may have been
assigned to it. And `BrokenTaskPromise` may have been set by hand. -/
theorem refilled_future_delivers :
    (¬ ∀ (as : List (Action Bool Bool Nat String)) (s : World Bool Bool Nat String) f r s',
      run World.step (World.initial Bool Bool Nat String) as = some s → .deliver f ∈ as →
      s.call (.get f) = some (r, s') → ∃ what, r = .error (.logicError what)) ∧
    ¬ ∀ (as : List (Action Bool Bool Nat String)) (s : World Bool Bool Nat String) id,
      run World.step (World.initial Bool Bool Nat String) as = some s →
      (id, .error .brokenTaskPromise) ∈ s.delivered → (s.shared id).abandoned = true := by
  refine ⟨fun h => ?_, fun h => ?_⟩
  · obtain ⟨what, hthrow⟩ := h refill _ false _ _ rfl (by simp [refill]) rfl
    cases hthrow
  · have habandoned := h [.makePromise false, .getFuture false false,
      .setException false (some .brokenTaskPromise), .get false, .deliver false] _ 0 rfl
      List.mem_cons_self
    cases habandoned

theorem run_channel_refill :
    ∃ s, run World.step (World.initial Bool Bool Nat String) refill = some s ∧
      Channel refill s ∧ (s.shared 0).outcome = some (.value 1) := by
  have hrun : ∃ s, run World.step (World.initial Bool Bool Nat String) refill = some s ∧
      (s.shared 0).outcome = some (.value 1) := ⟨_, rfl, rfl⟩
  obtain ⟨s, hs, ho⟩ := hrun
  exact ⟨s, hs, run_channel hs, ho⟩

end TaskFuture

end EglUtil
