import EglUtil.Lib.Updates
import Mathlib.Data.Sum.Basic

/-!
# Tokens with at most one owner

Places `ι` hold tokens `κ`: `m i = some k` when place `i` holds `k`. Handing a token over is
emptying one place and filling another, so a partial map that is injective where it is defined
stays so.
-/

namespace Ownership

open Updates

variable {ι κ : Type*}

/-- No token is held at two places. -/
def Exclusive (m : ι → Option κ) : Prop := ∀ i j k, m i = some k → m j = some k → i = j

/-- Some place holds the token. -/
def Held (m : ι → Option κ) (k : κ) : Prop := ∃ i, m i = some k

variable [DecidableEq ι] {m : ι → Option κ} {i j : ι} {k : κ} {o : Option κ}

theorem held_update (h : Held (Function.update m i o) k) : o = some k ∨ Held m k := by
  obtain ⟨j, hj⟩ := h
  rcases update_eq_some hj with ⟨-, ho⟩ | ⟨-, hm⟩
  · exact .inl ho
  · exact .inr ⟨j, hm⟩

theorem held_move (h : Held (Function.update (Function.update m i none) j (m i)) k) :
    Held m k := by
  rcases held_update h with hi | hrest
  · exact ⟨i, hi⟩
  · exact (held_update hrest).resolve_left nofun

theorem Exclusive.drop (h : Exclusive m) : Exclusive (Function.update m i none) := by
  intro a b k ha hb
  rcases update_eq_some ha with ⟨-, hnone⟩ | ⟨-, ha⟩
  · cases hnone
  · rcases update_eq_some hb with ⟨-, hnone⟩ | ⟨-, hb⟩
    · cases hnone
    · exact h a b k ha hb

theorem Exclusive.grant (h : Exclusive m) (hnew : ¬ Held m k) :
    Exclusive (Function.update m i (some k)) := by
  intro a b k' ha hb
  rcases update_eq_some ha with ⟨hai, hk⟩ | ⟨-, ha'⟩
  · rcases update_eq_some hb with ⟨hbi, -⟩ | ⟨-, hb'⟩
    · rw [hai, hbi]
    · cases hk
      exact absurd ⟨b, hb'⟩ hnew
  · rcases update_eq_some hb with ⟨-, hk⟩ | ⟨-, hb'⟩
    · cases hk
      exact absurd ⟨a, ha'⟩ hnew
    · exact h a b k' ha' hb'

/-- A token that has left its only place is held nowhere. -/
theorem Exclusive.not_held_drop (h : Exclusive m) (hi : m i = some k) :
    ¬ Held (Function.update m i none) k := by
  rintro ⟨j, hj⟩
  rcases update_eq_some hj with ⟨-, hnone⟩ | ⟨hne, hm⟩
  · cases hnone
  · exact hne (h j i k hm hi)

/-- A token whose place is overwritten by another one is held nowhere. -/
theorem Exclusive.not_held_overwrite (h : Exclusive m) (hij : i ≠ j) (hj : m j = some k) :
    ¬ Held (Function.update (Function.update m i none) j (m i)) k := by
  rintro ⟨a, ha⟩
  rcases update_eq_some ha with ⟨-, hi⟩ | ⟨haj, ha⟩
  · exact hij (h i j k hi hj)
  · rcases update_eq_some ha with ⟨-, hnone⟩ | ⟨-, ha⟩
    · cases hnone
    · exact haj (h a j k ha hj)

theorem Exclusive.move (h : Exclusive m) :
    Exclusive (Function.update (Function.update m i none) j (m i)) := by
  cases hi : m i with
  | none => exact h.drop.drop
  | some k => exact h.drop.grant (h.not_held_drop hi)

/-! ## What is held afterwards -/

theorem held_grant_iff (hi : m i = none) {k' : κ} :
    Held (Function.update m i (some k)) k' ↔ k = k' ∨ Held m k' := by
  constructor
  · intro h
    exact (held_update h).imp_left Option.some.inj
  · intro h
    rcases h with rfl | ⟨j, hj⟩
    · exact ⟨i, by rw [Function.update_self]⟩
    · have hji : j ≠ i := by
        intro hji
        rw [hji, hi] at hj
        cases hj
      exact ⟨j, by rw [Function.update_of_ne hji, hj]⟩

theorem Exclusive.held_update_iff (h : Exclusive m) :
    Held (Function.update m i o) k ↔ o = some k ∨ Held m k ∧ m i ≠ some k := by
  constructor
  · intro hheld
    obtain ⟨j, hj⟩ := hheld
    rcases update_eq_some hj with ⟨-, ho⟩ | ⟨hne, hm⟩
    · exact .inl ho
    · exact .inr ⟨⟨j, hm⟩, fun hi => hne (h j i k hm hi)⟩
  · intro hheld
    rcases hheld with ho | ⟨⟨j, hj⟩, hi⟩
    · exact ⟨i, by rw [Function.update_self, ho]⟩
    · have hji : j ≠ i := by
        intro hji
        rw [← hji, hj] at hi
        exact hi rfl
      exact ⟨j, by rw [Function.update_of_ne hji, hj]⟩

theorem Exclusive.held_drop_iff (h : Exclusive m) (hi : m i = some k) {k' : κ} :
    Held (Function.update m i none) k' ↔ k ≠ k' ∧ Held m k' := by
  constructor
  · intro hheld
    refine ⟨?_, (held_update hheld).resolve_left nofun⟩
    intro hk
    rw [← hk] at hheld
    exact h.not_held_drop hi hheld
  · intro hheld
    obtain ⟨hne, j, hj⟩ := hheld
    have hji : j ≠ i := by
      intro hji
      rw [hji, hi] at hj
      exact hne (Option.some.inj hj)
    exact ⟨j, by rw [Function.update_of_ne hji, hj]⟩

/-- Handing a token over to an empty place loses none. -/
theorem held_move_iff (hj : m j = none) :
    Held (Function.update (Function.update m i none) j (m i)) k ↔ Held m k := by
  refine ⟨held_move, fun h => ?_⟩
  obtain ⟨a, ha⟩ := h
  have haj : a ≠ j := by
    intro haj
    rw [haj, hj] at ha
    cases ha
  by_cases hai : a = i
  · exact ⟨j, by rw [Function.update_self, ← hai, ha]⟩
  · exact ⟨a, by rw [Function.update_of_ne haj, Function.update_of_ne hai, ha]⟩

end Ownership
