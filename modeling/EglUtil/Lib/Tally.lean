import Mathlib.Algebra.BigOperators.Group.Finset.Piecewise
import Mathlib.Data.Fintype.Basic
import Mathlib.Algebra.Order.BigOperators.Group.Finset

/-!
# Counting the threads in a given situation

Threads are the elements of a finite type `τ` and their local states form a function
`τ → β`. `tally p f` is the number of threads whose local state satisfies `p`; when one
thread moves, the tally changes by that thread's contribution only.
-/

namespace Tally

variable {τ β : Type*} [Fintype τ]

/-- The number of threads whose local state satisfies `p`. -/
def tally (p : β → Bool) (f : τ → β) : Nat := (Finset.univ.filter fun t => p (f t)).card

theorem tally_eq_sum (p : β → Bool) (f : τ → β) : tally p f = ∑ t, (p (f t)).toNat := by
  rw [tally, Finset.card_filter]
  refine Finset.sum_congr rfl fun t _ => ?_
  cases p (f t) <;> rfl

/-- Moving one thread trades its old contribution for its new one. -/
theorem tally_update [DecidableEq τ] (p : β → Bool) (f : τ → β) (t : τ) (b : β) :
    tally p (Function.update f t b) + (p (f t)).toNat = tally p f + (p b).toNat := by
  have hother : ∀ u ∈ Finset.univ.erase t, p (Function.update f t b u) = p (f u) :=
    fun u hu => by rw [Function.update_of_ne (Finset.ne_of_mem_erase hu)]
  have hnew := Finset.add_sum_erase Finset.univ (fun u => (p (Function.update f t b u)).toNat)
    (Finset.mem_univ t)
  have hold := Finset.add_sum_erase Finset.univ (fun u => (p (f u)).toNat) (Finset.mem_univ t)
  rw [Finset.sum_congr rfl fun u hu => congrArg Bool.toNat (hother u hu)] at hnew
  simp only [Function.update_self] at hnew
  rw [tally_eq_sum, tally_eq_sum]
  omega

theorem tally_pos {p : β → Bool} {f : τ → β} {t : τ} (h : p (f t) = true) : 0 < tally p f :=
  Finset.card_pos.2 ⟨t, by simpa using h⟩

theorem tally_eq_zero {p : β → Bool} {f : τ → β} : tally p f = 0 ↔ ∀ t, p (f t) = false := by
  rw [tally, Finset.card_eq_zero, Finset.filter_eq_empty_iff]
  simp

/-- If one thread moves and the others gain at most `c` each. -/
theorem sum_add_le [DecidableEq τ] {f g : τ → Nat} {t : τ} {c : Nat}
    (h : ∀ u, u ≠ t → g u ≤ f u + c) :
    ∑ u, g u + f t ≤ ∑ u, f u + g t + (Fintype.card τ - 1) * c := by
  have hnew := Finset.add_sum_erase Finset.univ g (Finset.mem_univ t)
  have hold := Finset.add_sum_erase Finset.univ f (Finset.mem_univ t)
  have hothers : ∑ u ∈ Finset.univ.erase t, g u ≤
      ∑ u ∈ Finset.univ.erase t, f u + (Fintype.card τ - 1) * c := by
    have hle : ∑ u ∈ Finset.univ.erase t, g u ≤ ∑ u ∈ Finset.univ.erase t, (f u + c) :=
      Finset.sum_le_sum fun u hu => h u (Finset.ne_of_mem_erase hu)
    rwa [Finset.sum_add_distrib, Finset.sum_const_nat (m := c) fun _ _ => rfl,
      Finset.card_erase_of_mem (Finset.mem_univ t), Finset.card_univ] at hle
  omega

end Tally
