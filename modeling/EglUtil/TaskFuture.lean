import EglUtil.Lib.Runs
import Mathlib.Logic.Function.Basic

/-!
# `TaskPromise` and `TaskFuture`: objects and calls

A promise and a future share a heap-allocated state. Both are movable objects: ownership of the
shared state travels between promise objects together with the flag that its future was
retrieved, and overwriting or destroying a promise that owns an unset state abandons that state.

The model is a world of promise objects `π`, future objects `φ` and shared states, numbered in
the order of their allocation. `get` takes two steps: it moves the shared state out of the
future, and it returns once the state has an outcome. The sections that hold the mutex of a
shared state are atomic, and each object belongs to one thread at a time, so a call is one step.
-/

namespace EglUtil

/-! ## The shared state -/

/-- What a call can throw; `user` stands for the exceptions of the tasks themselves. -/
inductive Thrown (ε : Type*) where
  | user (e : ε)
  | logicError (what : String)
  | invalidArgument (what : String)
  | brokenTaskPromise
  | badVariantAccess
deriving Repr, DecidableEq

/-- The variant of the shared state. It is `valueless` after an emplacement that threw. -/
inductive TaskResult (α ε : Type*) where
  | empty
  | value (v : α)
  | exception (e : Thrown ε)
  | valueless
deriving Repr, DecidableEq

/-- `index() == 0` -/
def TaskResult.isEmpty {α ε : Type*} : TaskResult α ε → Bool
  | .empty => true
  | _ => false

structure SharedTaskState (α ε : Type*) where
  result : TaskResult α ε
  abandoned : Bool
deriving Repr, DecidableEq

namespace SharedTaskState

variable {α ε : Type*}

def fresh : SharedTaskState α ε := ⟨.empty, false⟩

def hasOutcome (st : SharedTaskState α ε) : Bool := !st.result.isEmpty || st.abandoned

/-- `set_value`; `payload` is what constructing the value inside the variant gives. -/
def setValue (st : SharedTaskState α ε) (payload : Except (Thrown ε) α) :
    Except (Thrown ε) Unit × SharedTaskState α ε :=
  if st.hasOutcome then (.error (.logicError "TaskPromise: result already set"), st)
  else
    match payload with
    | .ok v => (.ok (), { st with result := .value v })
    | .error e => (.error e, { st with result := .valueless })

def setException (st : SharedTaskState α ε) (e : Thrown ε) :
    Except (Thrown ε) Unit × SharedTaskState α ε :=
  if st.hasOutcome then (.error (.logicError "TaskPromise: result already set"), st)
  else (.ok (), { st with result := .exception e })

def abandon (st : SharedTaskState α ε) : SharedTaskState α ε :=
  if st.result.isEmpty && !st.abandoned then { st with abandoned := true } else st

/-- `get`, or `none` while it waits for an outcome. -/
def get (st : SharedTaskState α ε) : Option (Except (Thrown ε) α) :=
  if st.hasOutcome then
    match st.result with
    | .exception e => some (.error e)
    | .value v => some (if st.abandoned then .error .brokenTaskPromise else .ok v)
    | _ => some (.error (if st.abandoned then .brokenTaskPromise else .badVariantAccess))
  else none

/-! ### Outcomes -/

inductive Outcome (α ε : Type*) where
  | value (v : α)
  | exception (e : Thrown ε)
  | abandoned
deriving Repr, DecidableEq

/-- What `get` answers. -/
def Outcome.answer : Outcome α ε → Except (Thrown ε) α
  | .value v => .ok v
  | .exception e => .error e
  | .abandoned => .error .brokenTaskPromise

def outcome (st : SharedTaskState α ε) : Option (Outcome α ε) :=
  match st.result with
  | .value v => some (.value v)
  | .exception e => some (.exception e)
  | _ => if st.abandoned then some .abandoned else none

/-- The shared state that has just received an outcome. -/
def Outcome.state : Outcome α ε → SharedTaskState α ε
  | .value v => ⟨.value v, false⟩
  | .exception e => ⟨.exception e, false⟩
  | .abandoned => ⟨.empty, true⟩

/-- The variant holds a value, and an abandoned state was never set. -/
structure Single (st : SharedTaskState α ε) : Prop where
  valued : st.result ≠ .valueless
  unset : st.abandoned = true → st.result = .empty

theorem single_fresh : Single (fresh : SharedTaskState α ε) := ⟨nofun, fun _ => rfl⟩

theorem Outcome.single_state (o : Outcome α ε) : o.state.Single := by
  cases o <;> exact ⟨nofun, by simp [Outcome.state]⟩

theorem Outcome.outcome_state (o : Outcome α ε) : o.state.outcome = some o := by
  cases o <;> rfl

variable {st : SharedTaskState α ε}

theorem outcome_eq_none (h : Single st) : st.outcome = none ↔ st = fresh := by
  obtain ⟨hvalued, -⟩ := h
  rcases st with ⟨result, abandoned⟩
  cases result <;> cases abandoned <;> simp_all [outcome, fresh]

theorem hasOutcome_eq_false : st.hasOutcome = false ↔ st = fresh := by
  rcases st with ⟨result, abandoned⟩
  cases result <;> cases abandoned <;> simp [hasOutcome, TaskResult.isEmpty, fresh]

/-- `get` returns once there is an outcome, and answers with it. -/
theorem get_eq (h : Single st) : st.get = st.outcome.map Outcome.answer := by
  obtain ⟨hvalued, hunset⟩ := h
  rcases st with ⟨result, abandoned⟩
  cases result <;> cases abandoned <;>
    simp_all [get, outcome, hasOutcome, TaskResult.isEmpty, Outcome.answer]

/-- An abandoned state is one that had no outcome; any other is left alone. -/
theorem abandon_cases (h : Single st) :
    st.outcome ≠ none ∧ st.abandon = st ∨ st = fresh ∧ st.abandon = Outcome.abandoned.state := by
  obtain ⟨hvalued, hunset⟩ := h
  rcases st with ⟨result, abandoned⟩
  cases result <;> cases abandoned <;>
    simp_all [abandon, outcome, TaskResult.isEmpty, fresh, Outcome.state]

end SharedTaskState

/-! ## Objects and calls -/

/-- A promise; `state` is the number of the shared state it owns, if any. -/
structure TaskPromise where
  state : Option Nat
  futureRetrieved : Bool
deriving Repr, DecidableEq

structure TaskFuture where
  state : Option Nat
deriving Repr, DecidableEq

namespace TaskFuture

variable {π φ α ε : Type*}

/-- The live objects and the shared states. `getting f` is the shared state of a `get` in
progress on `f`; `created` and `delivered` record the futures made and what `get` returned. -/
structure World (π φ α ε : Type*) where
  shared : Nat → SharedTaskState α ε
  nextId : Nat
  promise : π → Option TaskPromise
  future : φ → Option TaskFuture
  getting : φ → Option Nat
  created : List Nat
  delivered : List (Nat × Except (Thrown ε) α)

def World.initial (π φ α ε : Type*) : World π φ α ε :=
  ⟨fun _ => .fresh, 0, fun _ => none, fun _ => none, fun _ => none, [], []⟩

inductive Action (π φ α ε : Type*) where
  | makePromise (p : π)
  /-- The default constructor: an invalid future. -/
  | makeFuture (f : φ)
  /-- `get_future` on `p`, returned into the new object `f`. -/
  | getFuture (p : π) (f : φ)
  | setValue (p : π) (v : α)
  /-- `none` is a null `exception_ptr`. -/
  | setException (p : π) (e : Option (Thrown ε))
  | valid (f : φ)
  | ready (f : φ)
  | wait (f : φ)
  /-- `wait_for` and `wait_until`, at the time they return. -/
  | waitFor (f : φ)
  /-- `get` is called, and blocks. -/
  | get (f : φ)
  /-- The `get` in progress on `f` returns. -/
  | deliver (f : φ)
  /-- `q` is constructed from `std::move(p)`. -/
  | movePromise (p q : π)
  /-- `q = std::move(p)` -/
  | assignPromise (p q : π)
  | destroyPromise (p : π)
  | moveFuture (f g : φ)
  | assignFuture (f g : φ)
  | destroyFuture (f : φ)

inductive Answer (α : Type*) where
  | unit
  | bool (b : Bool)
  | value (v : α)
  /-- The call has not returned yet. -/
  | pending
deriving Repr, DecidableEq

/-- The future, unless a `get` on it is in progress: it belongs to one thread at a time. -/
def World.usable (s : World π φ α ε) (f : φ) : Option TaskFuture :=
  if (s.getting f).isSome then none else s.future f

def World.setShared (s : World π φ α ε) (id : Nat) (st : SharedTaskState α ε) : World π φ α ε :=
  { s with shared := Function.update s.shared id st }

/-- `abandon_if_owned` -/
def World.abandonIfOwned (s : World π φ α ε) (P : TaskPromise) : World π φ α ε :=
  match P.state with
  | none => s
  | some id => s.setShared id (s.shared id).abandon

/-- `set_value` and `set_exception` once the shared state is known. -/
def World.set (s : World π φ α ε) (id : Nat)
    (r : Except (Thrown ε) Unit × SharedTaskState α ε) :
    Except (Thrown ε) (Answer α) × World π φ α ε :=
  (r.1.map fun _ => .unit, s.setShared id r.2)

def noSharedState : Thrown ε := .logicError "TaskFuture: no shared state"

def movedFrom : Thrown ε := .logicError "TaskPromise: no shared state (moved from)"

variable [DecidableEq π] [DecidableEq φ]

/-- One call: what it answers or throws, and the world after it; `none` if it cannot happen or
does not return yet. -/
def World.call (s : World π φ α ε) :
    Action π φ α ε → Option (Except (Thrown ε) (Answer α) × World π φ α ε)
  | .makePromise p =>
    match s.promise p with
    | some _ => none
    | none => some (.ok .unit, { s with
        shared := Function.update s.shared s.nextId .fresh
        nextId := s.nextId + 1
        promise := Function.update s.promise p (some ⟨some s.nextId, false⟩) })
  | .makeFuture f =>
    match s.future f with
    | some _ => none
    | none => some (.ok .unit, { s with future := Function.update s.future f (some ⟨none⟩) })
  | .getFuture p f =>
    match s.promise p, s.future f with
    | some P, none =>
      match P.state with
      | none => some (.error movedFrom, s)
      | some id =>
        if P.futureRetrieved then
          some (.error (.logicError "TaskPromise: future already retrieved"), s)
        else some (.ok .unit, { s with
          promise := Function.update s.promise p (some ⟨some id, true⟩)
          future := Function.update s.future f (some ⟨some id⟩)
          created := s.created ++ [id] })
    | _, _ => none
  | .setValue p v =>
    match s.promise p with
    | none => none
    | some P =>
      match P.state with
      | none => some (.error movedFrom, s)
      | some id => some (s.set id ((s.shared id).setValue (.ok v)))
  | .setException p e =>
    match s.promise p with
    | none => none
    | some P =>
      match e with
      | none => some (.error (.invalidArgument "TaskPromise: null exception_ptr"), s)
      | some e =>
        match P.state with
        | none => some (.error movedFrom, s)
        | some id => some (s.set id ((s.shared id).setException e))
  | .valid f => (s.usable f).map fun F => (.ok (.bool F.state.isSome), s)
  | .ready f | .waitFor f =>
    match s.usable f with
    | none => none
    | some F =>
      match F.state with
      | none => some (.error noSharedState, s)
      | some id => some (.ok (.bool (s.shared id).hasOutcome), s)
  | .wait f =>
    match s.usable f with
    | none => none
    | some F =>
      match F.state with
      | none => some (.error noSharedState, s)
      | some id => if (s.shared id).hasOutcome then some (.ok .unit, s) else none
  | .get f =>
    match s.usable f with
    | none => none
    | some F =>
      match F.state with
      | none => some (.error noSharedState, s)
      | some id => some (.ok .pending, { s with
          future := Function.update s.future f (some ⟨none⟩)
          getting := Function.update s.getting f (some id) })
  | .deliver f =>
    match s.getting f with
    | none => none
    | some id => (s.shared id).get.map fun r => (r.map .value, { s with
        getting := Function.update s.getting f none
        delivered := s.delivered ++ [(id, r)] })
  | .movePromise p q =>
    match s.promise p, s.promise q with
    | some P, none => some (.ok .unit, { s with
        promise := Function.update (Function.update s.promise p (some { P with state := none })) q
          (some P) })
    | _, _ => none
  | .assignPromise p q =>
    match s.promise p, s.promise q with
    | some P, some Q =>
      if p = q then some (.ok .unit, s)
      else some (.ok .unit, { s.abandonIfOwned Q with
        promise := Function.update (Function.update s.promise p (some { P with state := none })) q
          (some P) })
    | _, _ => none
  | .destroyPromise p =>
    match s.promise p with
    | none => none
    | some P => some (.ok .unit, { s.abandonIfOwned P with
        promise := Function.update s.promise p none })
  | .moveFuture f g =>
    match s.usable f, s.future g with
    | some F, none => some (.ok .unit, { s with
        future := Function.update (Function.update s.future f (some ⟨none⟩)) g (some F) })
    | _, _ => none
  | .assignFuture f g =>
    match s.usable f, s.usable g with
    | some F, some _ =>
      if f = g then some (.ok .unit, s)
      else some (.ok .unit, { s with
        future := Function.update (Function.update s.future f (some ⟨none⟩)) g (some F) })
    | _, _ => none
  | .destroyFuture f =>
    match s.usable f with
    | none => none
    | some _ => some (.ok .unit, { s with future := Function.update s.future f none })

def World.step (s : World π φ α ε) (a : Action π φ α ε) : Option (World π φ α ε) :=
  (s.call a).map Prod.snd

/-! ## What a call can do -/

/-- `logic_error` and `invalid_argument`. -/
def isMisuse : Thrown ε → Bool
  | .logicError _ | .invalidArgument _ => true
  | _ => false

/-- The calls, one constructor for each way they can go, with what held before. -/
inductive Calls (s : World π φ α ε) :
    Action π φ α ε → Except (Thrown ε) (Answer α) → World π φ α ε → Prop where
  | misuse (a : Action π φ α ε) (e : Thrown ε) (he : isMisuse e = true) : Calls s a (.error e) s
  /-- A probe of a future, or an assignment of an object to itself. -/
  | unchanged (a : Action π φ α ε) (r : Answer α) : Calls s a (.ok r) s
  | makePromise {p : π} (hp : s.promise p = none) : Calls s (.makePromise p) (.ok .unit) { s with
      shared := Function.update s.shared s.nextId .fresh
      nextId := s.nextId + 1
      promise := Function.update s.promise p (some ⟨some s.nextId, false⟩) }
  | makeFuture {f : φ} (hf : s.future f = none) : Calls s (.makeFuture f) (.ok .unit)
      { s with future := Function.update s.future f (some ⟨none⟩) }
  | getFuture {p : π} {f : φ} {id : Nat} (hp : s.promise p = some ⟨some id, false⟩)
      (hf : s.future f = none) : Calls s (.getFuture p f) (.ok .unit) { s with
        promise := Function.update s.promise p (some ⟨some id, true⟩)
        future := Function.update s.future f (some ⟨some id⟩)
        created := s.created ++ [id] }
  | setValue {p : π} {P : TaskPromise} {id : Nat} (v : α) (hp : s.promise p = some P)
      (hid : P.state = some id) (hopen : (s.shared id).hasOutcome = false) :
      Calls s (.setValue p v) (.ok .unit)
        (s.setShared id { s.shared id with result := .value v })
  | setException {p : π} {P : TaskPromise} {id : Nat} (e : Thrown ε) (hp : s.promise p = some P)
      (hid : P.state = some id) (hopen : (s.shared id).hasOutcome = false) :
      Calls s (.setException p (some e)) (.ok .unit)
        (s.setShared id { s.shared id with result := .exception e })
  | get {f : φ} {id : Nat} (hidle : s.getting f = none) (hf : s.future f = some ⟨some id⟩) :
      Calls s (.get f) (.ok .pending) { s with
        future := Function.update s.future f (some ⟨none⟩)
        getting := Function.update s.getting f (some id) }
  | deliver {f : φ} {id : Nat} {r : Except (Thrown ε) α} (hf : s.getting f = some id)
      (hr : (s.shared id).get = some r) : Calls s (.deliver f) (r.map .value) { s with
        getting := Function.update s.getting f none
        delivered := s.delivered ++ [(id, r)] }
  | movePromise {p q : π} {P : TaskPromise} (hp : s.promise p = some P)
      (hq : s.promise q = none) : Calls s (.movePromise p q) (.ok .unit) { s with
        promise := Function.update (Function.update s.promise p (some { P with state := none })) q
          (some P) }
  | assignPromise {p q : π} {P Q : TaskPromise} (hp : s.promise p = some P)
      (hq : s.promise q = some Q) (hne : p ≠ q) :
      Calls s (.assignPromise p q) (.ok .unit) { s.abandonIfOwned Q with
        promise := Function.update (Function.update s.promise p (some { P with state := none })) q
          (some P) }
  | destroyPromise {p : π} {P : TaskPromise} (hp : s.promise p = some P) :
      Calls s (.destroyPromise p) (.ok .unit)
        { s.abandonIfOwned P with promise := Function.update s.promise p none }
  | moveFuture {f g : φ} {F : TaskFuture} (hidle : s.getting f = none)
      (hf : s.future f = some F) (hg : s.future g = none) :
      Calls s (.moveFuture f g) (.ok .unit) { s with
        future := Function.update (Function.update s.future f (some ⟨none⟩)) g (some F) }
  | assignFuture {f g : φ} {F : TaskFuture} (hidle : s.getting f = none)
      (hf : s.future f = some F) (hidle' : s.getting g = none) (hne : f ≠ g) :
      Calls s (.assignFuture f g) (.ok .unit) { s with
        future := Function.update (Function.update s.future f (some ⟨none⟩)) g (some F) }
  | destroyFuture {f : φ} (hidle : s.getting f = none) :
      Calls s (.destroyFuture f) (.ok .unit)
        { s with future := Function.update s.future f none }

variable {s s' : World π φ α ε} {a : Action π φ α ε} {r : Except (Thrown ε) (Answer α)}

omit [DecidableEq π] [DecidableEq φ] in
theorem usable_eq_some {f : φ} {F : TaskFuture} :
    s.usable f = some F ↔ s.getting f = none ∧ s.future f = some F := by
  unfold World.usable
  cases s.getting f <;> simp

omit [DecidableEq π] [DecidableEq φ] in
theorem setShared_self (id : Nat) : s.setShared id (s.shared id) = s := by
  rw [World.setShared, Function.update_eq_self]

/-- **Inversion.** -/
theorem call_cases (h : s.call a = some (r, s')) : Calls s a r s' := by
  cases a with
  | makePromise p =>
    simp only [World.call] at h
    split at h
    · cases h
    · next hp =>
      cases h
      exact .makePromise hp
  | makeFuture f =>
    simp only [World.call] at h
    split at h
    · cases h
    · next hf =>
      cases h
      exact .makeFuture hf
  | getFuture p f =>
    simp only [World.call] at h
    split at h
    · next P hp hf =>
      split at h
      · cases h
        exact .misuse _ _ rfl
      · next id hid =>
        split_ifs at h with hflag <;> cases h
        · exact .misuse _ _ rfl
        · refine .getFuture ?_ hf
          rw [hp, ← hid, ← Bool.eq_false_iff.2 hflag]
    · cases h
  | setValue p v =>
    simp only [World.call] at h
    split at h
    · cases h
    · next P hp =>
      split at h
      · cases h
        exact .misuse _ _ rfl
      · next id hid =>
        simp only [World.set, SharedTaskState.setValue] at h
        split_ifs at h with hopen <;> cases h
        · rw [setShared_self]
          exact .misuse _ _ rfl
        · exact .setValue v hp hid (Bool.eq_false_iff.2 hopen)
  | setException p e =>
    simp only [World.call] at h
    split at h
    · cases h
    · next P hp =>
      split at h
      · cases h
        exact .misuse _ _ rfl
      · next e =>
        split at h
        · cases h
          exact .misuse _ _ rfl
        · next id hid =>
          simp only [World.set, SharedTaskState.setException] at h
          split_ifs at h with hopen <;> cases h
          · rw [setShared_self]
            exact .misuse _ _ rfl
          · exact .setException e hp hid (Bool.eq_false_iff.2 hopen)
  | valid f =>
    simp only [World.call, Option.map_eq_some_iff] at h
    obtain ⟨F, -, hF⟩ := h
    cases hF
    exact .unchanged _ _
  | ready f | waitFor f =>
    simp only [World.call] at h
    split at h
    · cases h
    · split at h <;> cases h
      · exact .misuse _ _ rfl
      · exact .unchanged _ _
  | wait f =>
    simp only [World.call] at h
    split at h
    · cases h
    · split at h
      · cases h
        exact .misuse _ _ rfl
      · split_ifs at h
        cases h
        exact .unchanged _ _
  | get f =>
    simp only [World.call] at h
    split at h
    · cases h
    · next F hF =>
      obtain ⟨hidle, hf⟩ := usable_eq_some.1 hF
      split at h <;> cases h
      · exact .misuse _ _ rfl
      · next id hid =>
        refine .get hidle ?_
        rw [hf, ← hid]
  | deliver f =>
    simp only [World.call] at h
    split at h
    · cases h
    · next id hf =>
      obtain ⟨r, hr, hpost⟩ := Option.map_eq_some_iff.1 h
      cases hpost
      exact .deliver hf hr
  | movePromise p q =>
    simp only [World.call] at h
    split at h
    · next P hp hq =>
      cases h
      exact .movePromise hp hq
    · cases h
  | assignPromise p q =>
    simp only [World.call] at h
    split at h
    · next P Q hp hq =>
      split_ifs at h with hpq <;> cases h
      · exact .unchanged _ _
      · exact .assignPromise hp hq hpq
    · cases h
  | destroyPromise p =>
    simp only [World.call] at h
    split at h
    · cases h
    · next P hp =>
      cases h
      exact .destroyPromise hp
  | moveFuture f g =>
    simp only [World.call] at h
    split at h
    · next F hF hg =>
      cases h
      obtain ⟨hidle, hf⟩ := usable_eq_some.1 hF
      exact .moveFuture hidle hf hg
    · cases h
  | assignFuture f g =>
    simp only [World.call] at h
    split at h
    · next F G hF hG =>
      split_ifs at h with hfg <;> cases h
      · exact .unchanged _ _
      · obtain ⟨hidle, hf⟩ := usable_eq_some.1 hF
        exact .assignFuture hidle hf (usable_eq_some.1 hG).1 hfg
    · cases h
  | destroyFuture f =>
    simp only [World.call] at h
    split at h
    · cases h
    · next F hF =>
      cases h
      exact .destroyFuture (usable_eq_some.1 hF).1

end TaskFuture

end EglUtil
