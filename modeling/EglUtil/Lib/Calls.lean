import Mathlib.Data.Option.Basic
import Mathlib.Data.List.Basic

/-!
# Calls of an object

An object has states `σ` and a function that answers a call and moves to another state, or is
`none` if the call is not allowed. A program is a list of calls.

* `run_rel`: two objects that answer each call alike, and stay related by it, answer every program
  alike.
* `run_perform`: the same, if the second object allows every call.
* `run_eq_none`: a program that is not allowed has a first call that is not.
-/

namespace Calls

variable {σ τ ι ρ π : Type*}

/-- The answers to the calls and the state that is left. -/
def run (step : σ → ι → Option (ρ × σ)) : σ → List ι → Option (List ρ × σ)
  | s, [] => some ([], s)
  | s, i :: is => (step s i).bind fun x => (run step x.2 is).map fun xs => (x.1 :: xs.1, xs.2)

/-- An object that allows every call. -/
def perform (next : τ → ι → ρ × τ) : τ → List ι → List ρ × τ
  | t, [] => ([], t)
  | t, i :: is =>
    let x := next t i
    let xs := perform next x.2 is
    (x.1 :: xs.1, xs.2)

variable {step : σ → ι → Option (ρ × σ)} {step' : τ → ι → Option (π × τ)}
  {next : τ → ι → ρ × τ} {R : σ → τ → Prop} {s : σ} {t : τ}

theorem run_cons (step : σ → ι → Option (ρ × σ)) (s : σ) (i : ι) (is : List ι) :
    run step s (i :: is) =
      (step s i).bind fun x => (run step x.2 is).map fun xs => (x.1 :: xs.1, xs.2) := rfl

/-- **Related objects.** An answer of the first is translated by `f`. -/
theorem run_rel (f : ρ → π)
    (hstep : ∀ s t i, R s t →
      Option.Rel (fun x y => f x.1 = y.1 ∧ R x.2 y.2) (step s i) (step' t i))
    (h : R s t) (is : List ι) :
    Option.Rel (fun x y => x.1.map f = y.1 ∧ R x.2 y.2) (run step s is) (run step' t is) := by
  induction is generalizing s t with
  | nil => exact .some ⟨rfl, h⟩
  | cons i is ih =>
    have hfirst := hstep s t i h
    rw [run_cons, run_cons]
    generalize step s i = x at hfirst ⊢
    generalize step' t i = y at hfirst ⊢
    cases hfirst with
    | none => exact .none
    | @some x y hxy =>
      have hrest := ih hxy.2
      rw [Option.bind_some, Option.bind_some, ← hxy.1]
      generalize run step x.2 is = xs at hrest ⊢
      generalize run step' y.2 is = ys at hrest ⊢
      cases hrest with
      | none => exact .none
      | some hxys => exact .some ⟨congrArg (f x.1 :: ·) hxys.1, hxys.2⟩

theorem run_perform
    (hstep : ∀ s t i, R s t → ∃ s', step s i = some ((next t i).1, s') ∧ R s' (next t i).2)
    (h : R s t) (is : List ι) :
    ∃ s', run step s is = some ((perform next t is).1, s') ∧ R s' (perform next t is).2 := by
  induction is generalizing s t with
  | nil => exact ⟨s, rfl, h⟩
  | cons i is ih =>
    obtain ⟨s₁, hfirst, h₁⟩ := hstep s t i h
    obtain ⟨s₂, hrest, h₂⟩ := ih h₁
    refine ⟨s₂, ?_, h₂⟩
    rw [run_cons, hfirst, Option.bind_some, hrest]
    rfl

theorem run_eq_none {is : List ι} (hnone : run step s is = none) :
    ∃ before i after answers s', is = before ++ i :: after ∧
      run step s before = some (answers, s') ∧ step s' i = none := by
  induction is generalizing s with
  | nil => cases hnone
  | cons i is ih =>
    cases hi : step s i with
    | none => exact ⟨[], i, is, [], s, rfl, rfl, hi⟩
    | some x =>
      rw [run_cons, hi, Option.bind_some, Option.map_eq_none_iff] at hnone
      obtain ⟨before, j, after, answers, s', rfl, hbefore, hj⟩ := ih hnone
      refine ⟨i :: before, j, after, x.1 :: answers, s', rfl, ?_, hj⟩
      rw [run_cons, hi, Option.bind_some, hbefore]
      rfl

end Calls
