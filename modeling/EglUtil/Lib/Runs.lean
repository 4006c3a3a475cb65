import Mathlib.Algebra.GroupWithZero.Nat
import Mathlib.Data.List.Basic

/-!
# Runs of a guarded step function

A system is a state type `σ`, an action type `α` and a step function `σ → α → Option σ` that
answers `none` when the action is not enabled. All nondeterminism (which thread moves, what the
environment answers) is in the action, so a run is a list of actions and can be evaluated.

* `run` performs a list of actions;
* `Along` says that every action of a run meets a condition in the state it is taken from;
* `run_invariant_along` is the induction rule every safety proof uses;
* `Sometime` says that some action of a run meets a condition, and `run_flag` that what each
  step either keeps or sets holds at the end exactly if it held at the start or was set;
* `run_potential` is the amortized bound: what the steps cost is paid by what the potential
  loses and by what the steps bring in; `run_countP_le` and `run_length_le` are the cases in which
  a step costs one.
-/

namespace Transition

variable {σ α : Type*} (step : σ → α → Option σ)

/-- Perform the actions in order; `none` as soon as one of them is not enabled. -/
def run : σ → List α → Option σ
  | s, [] => some s
  | s, a :: as => (step s a).bind fun s' => run s' as

@[simp] theorem run_nil (s : σ) : run step s [] = some s := rfl

theorem run_cons (s : σ) (a : α) (as : List α) :
    run step s (a :: as) = (step s a).bind fun s' => run step s' as := rfl

theorem run_cons_eq_some {s s' : σ} {a : α} {as : List α} :
    run step s (a :: as) = some s' ↔ ∃ t, step s a = some t ∧ run step t as = some s' := by
  rw [run_cons, Option.bind_eq_some_iff]

theorem run_append (s : σ) (as bs : List α) :
    run step s (as ++ bs) = (run step s as).bind fun s' => run step s' bs := by
  induction as generalizing s with
  | nil => rfl
  | cons a as ih =>
    rw [List.cons_append, run_cons, run_cons, Option.bind_assoc]
    congr 1
    funext t
    exact ih t

/-- Every action of the run satisfies `P` in the state it is taken from. -/
def Along (P : σ → α → Prop) : σ → List α → Prop
  | _, [] => True
  | s, a :: as => P s a ∧ ∀ s', step s a = some s' → Along P s' as

theorem along_of_forall {P : α → Prop} {s : σ} {as : List α} (h : ∀ a ∈ as, P a) :
    Along step (fun _ a => P a) s as := by
  induction as generalizing s with
  | nil => trivial
  | cons a as ih =>
    refine ⟨h a List.mem_cons_self, fun t _ => ih fun b hb => ?_⟩
    exact h b (List.mem_cons_of_mem a hb)

/-- **The invariant rule.** What holds at the start and is kept by every step that meets `P`
holds at the end of every run whose steps all meet `P`. -/
theorem run_invariant_along {P : σ → α → Prop} {I : σ → Prop}
    (hstep : ∀ s a s', I s → P s a → step s a = some s' → I s') {s s' : σ} {as : List α}
    (h₀ : I s) (hP : Along step P s as) (hrun : run step s as = some s') : I s' := by
  induction as generalizing s with
  | nil =>
    cases hrun
    exact h₀
  | cons a as ih =>
    obtain ⟨t, hst, hrest⟩ := (run_cons_eq_some step).1 hrun
    exact ih (hstep s a t h₀ hP.1 hst) (hP.2 t hst) hrest

theorem run_invariant {I : σ → Prop} (hstep : ∀ s a s', I s → step s a = some s' → I s')
    {s s' : σ} {as : List α} (h₀ : I s) (hrun : run step s as = some s') : I s' := by
  induction as generalizing s with
  | nil =>
    cases hrun
    exact h₀
  | cons a as ih =>
    obtain ⟨t, hst, hrest⟩ := (run_cons_eq_some step).1 hrun
    exact ih (hstep s a t h₀ hst) hrest

/-- What no step lowers stays below any bound that it meets at the end. -/
theorem along_of_mono {μ : σ → Nat} (hmono : ∀ s a s', step s a = some s' → μ s ≤ μ s')
    {B : Nat} {s s' : σ} {as : List α} (hrun : run step s as = some s') (hB : μ s' < B) :
    Along step (fun t _ => μ t < B) s as := by
  induction as generalizing s with
  | nil => trivial
  | cons a as ih =>
    obtain ⟨t, hst, hrest⟩ := (run_cons_eq_some step).1 hrun
    have hle : μ s ≤ μ s' := run_invariant_along step (P := fun _ _ => True) (I := (μ s ≤ μ ·))
      (fun _ _ _ hI _ h => Nat.le_trans hI (hmono _ _ _ h)) (Nat.le_refl _)
      (along_of_forall step fun _ _ => trivial) hrun
    refine ⟨by omega, fun t' hst' => ?_⟩
    rw [hst] at hst'
    cases hst'
    exact ih hrest

/-- **The amortized bound.** If every step pays for itself, with what the potential loses and
what the action brings in, then so does every run. -/
theorem run_potential (Φ : σ → Nat) (cost budget : α → Nat) {P : σ → α → Prop} {I : σ → Prop}
    (hstep : ∀ s a s', I s → P s a → step s a = some s' → I s' ∧ Φ s' + cost a ≤ Φ s + budget a)
    {s s' : σ} {as : List α} (h₀ : I s) (hP : Along step P s as) (hrun : run step s as = some s') :
    Φ s' + (as.map cost).sum ≤ Φ s + (as.map budget).sum := by
  induction as generalizing s with
  | nil =>
    cases hrun
    exact Nat.le_refl _
  | cons a as ih =>
    obtain ⟨t, hst, hrest⟩ := (run_cons_eq_some step).1 hrun
    obtain ⟨hI, hle⟩ := hstep s a t h₀ hP.1 hst
    have := ih hI (hP.2 t hst) hrest
    simp only [List.map_cons, List.sum_cons]
    omega

/-- A cost, or budget, of `n` for each action that satisfies `p`. -/
theorem sum_map_mul_toNat (n : Nat) (p : α → Bool) (as : List α) :
    (as.map fun a => n * (p a).toNat).sum = n * as.countP p := by
  induction as with
  | nil => rfl
  | cons a as ih =>
    rw [List.map_cons, List.sum_cons, ih, List.countP_cons]
    cases p a <;> simp [Nat.mul_add, Nat.add_comm]

/-- The actions that satisfy `p` cost one each. -/
theorem run_countP_le (Φ : σ → Nat) (p : α → Bool) (budget : α → Nat)
    (hstep : ∀ s a s', step s a = some s' → Φ s' + (p a).toNat ≤ Φ s + budget a) {s s' : σ}
    {as : List α} (hrun : run step s as = some s') :
    as.countP p ≤ Φ s + (as.map budget).sum := by
  have hsum := run_potential step Φ (fun a => 1 * (p a).toNat) budget (P := fun _ _ => True)
    (I := fun _ => True)
    (fun s a s' _ _ h => ⟨trivial, by rw [Nat.one_mul]; exact hstep s a s' h⟩) trivial
    (along_of_forall step fun _ _ => trivial) hrun
  rw [sum_map_mul_toNat] at hsum
  omega

/-- Actions that bring nothing in make no longer a run than the potential allows. -/
theorem run_length_le (Φ : σ → Nat) {P : α → Prop}
    (hstep : ∀ s a s', P a → step s a = some s' → Φ s' + 1 ≤ Φ s) {s s' : σ} {as : List α}
    (hP : ∀ a ∈ as, P a) (hrun : run step s as = some s') : as.length ≤ Φ s := by
  induction as generalizing s with
  | nil => exact Nat.zero_le _
  | cons a as ih =>
    obtain ⟨t, hst, hrest⟩ := (run_cons_eq_some step).1 hrun
    have hle := ih (fun b hb => hP b (List.mem_cons_of_mem a hb)) hrest
    have hfirst := hstep s a t (hP a List.mem_cons_self) hst
    rw [List.length_cons]
    omega

/-- Some action of the run satisfies `P` in the state it is taken from. -/
def Sometime (P : σ → α → Prop) : σ → List α → Prop
  | _, [] => False
  | s, a :: as => P s a ∨ ∃ s', step s a = some s' ∧ Sometime P s' as

theorem run_flag {P : σ → α → Prop} {F I : σ → Prop}
    (hinv : ∀ s a s', I s → step s a = some s' → I s')
    (hstep : ∀ s a s', I s → step s a = some s' → (F s' ↔ F s ∨ P s a)) {s s' : σ} {as : List α}
    (h₀ : I s) (hrun : run step s as = some s') : F s' ↔ F s ∨ Sometime step P s as := by
  induction as generalizing s with
  | nil =>
    cases hrun
    rw [Sometime, or_false]
  | cons a as ih =>
    obtain ⟨t, hst, hrest⟩ := (run_cons_eq_some step).1 hrun
    have hlater : (∃ t, step s a = some t ∧ Sometime step P t as) ↔ Sometime step P t as := by
      rw [hst]
      simp
    rw [ih (hinv s a t h₀ hst) hrest, hstep s a t h₀ hst, Sometime, hlater, or_assoc]

/-- `s` is the end of some run from `s₀`. -/
def Reachable (s₀ s : σ) : Prop := ∃ as, run step s₀ as = some s

theorem Reachable.invariant {I : σ → Prop} {s₀ s : σ} (h : Reachable step s₀ s) (h₀ : I s₀)
    (hstep : ∀ s a s', I s → step s a = some s' → I s') : I s := by
  obtain ⟨as, hrun⟩ := h
  exact run_invariant step hstep h₀ hrun

theorem Reachable.refl (s : σ) : Reachable step s s := ⟨[], rfl⟩

theorem Reachable.tail {s₀ s s' : σ} {a : α} (h : Reachable step s₀ s)
    (hstep : step s a = some s') : Reachable step s₀ s' := by
  obtain ⟨as, hrun⟩ := h
  refine ⟨as ++ [a], ?_⟩
  rw [run_append, hrun, Option.bind_some, run_cons, hstep]
  rfl

end Transition
