import Mathlib.Logic.Function.Basic

/-!
# One entry replaced

Threads, objects or places have states `f : ι → β`, and a step replaces the state of one of them.

* `update_eq_some`: who has a value afterwards is the one that was given it, or had it before.
* `update_keeps`, `update_reflects`: what the one that moves does not lose, or does not gain,
  nobody loses, or gains.
-/

namespace Updates

variable {ι β γ : Type*} [DecidableEq ι] {i j : ι}

theorem update_eq_some {m : ι → Option β} {o : Option β} {b : β}
    (h : Function.update m i o j = some b) : j = i ∧ o = some b ∨ j ≠ i ∧ m j = some b := by
  by_cases hji : j = i
  · subst hji
    rw [Function.update_self] at h
    exact .inl ⟨rfl, h⟩
  · rw [Function.update_of_ne hji] at h
    exact .inr ⟨hji, h⟩

variable {f : ι → β} {b : β} {p : β → γ} {c : γ}

theorem update_keeps (hold : p (f i) = c → p b = c) (j : ι) (hj : p (f j) = c) :
    p (Function.update f i b j) = c := by
  by_cases hji : j = i
  · rw [hji, Function.update_self]
    exact hold (hji ▸ hj)
  · rw [Function.update_of_ne hji]
    exact hj

theorem update_reflects (hnew : p b = c → p (f i) = c) (j : ι)
    (hj : p (Function.update f i b j) = c) : p (f j) = c := by
  by_cases hji : j = i
  · rw [hji, Function.update_self] at hj
    rw [hji]
    exact hnew hj
  · rwa [Function.update_of_ne hji] at hj

end Updates
