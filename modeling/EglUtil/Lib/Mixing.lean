import Mathlib.Data.List.Basic
import Mathlib.Data.Nat.ModEq
import Mathlib.Data.Nat.Prime.Basic
import Mathlib.Logic.Function.Basic

/-!
# Mixing words

A hash folds a step `mix : State → Symbol → State` over the symbols of its input. The step
`Mixes` if it forgets neither of its arguments: it is injective in the state, and at each state
injective in the symbol.

**Theorem (`Mixes.foldl_ne`).** If the step mixes, then two inputs of one length that differ in
exactly one place are folded to different states. The states agree up to that place, differ after
it since the step reads the symbol, and keep differing since every later step is injective.

The second half is about words of `w` bits: multiplying by an odd word, rotating and xoring a
word with itself shifted are injective.
-/

namespace Mixing

section Fold

variable {σ α : Type*} {mix : σ → α → σ}

/-- The step determines the state from the symbol and the result, and the symbol from the state
and the result. -/
structure Mixes (mix : σ → α → σ) : Prop where
  state : ∀ a, Function.Injective fun s => mix s a
  symbol : ∀ s, Function.Injective (mix s)

/-- The lists have one length and differ, but agree at every place outside `p`. -/
structure DifferOnlyIn (p : ℕ → Prop) (xs ys : List α) : Prop where
  length_eq : xs.length = ys.length
  ne : xs ≠ ys
  agree : ∀ i, ¬ p i → xs[i]? = ys[i]?

theorem Mixes.foldl_injective (h : Mixes mix) (l : List α) :
    Function.Injective fun s => l.foldl mix s := by
  induction l with
  | nil => exact fun _ _ h => h
  | cons a l ih => exact fun s t hst => h.state a (ih hst)

theorem DifferOnlyIn.exists_ne {p : ℕ → Prop} {xs ys : List α} (h : DifferOnlyIn p xs ys) :
    ∃ i, p i ∧ xs[i]? ≠ ys[i]? := by
  by_contra hall
  simp only [not_exists, not_and, not_not] at hall
  apply h.ne
  apply List.ext_getElem?
  intro i
  by_cases hp : p i
  · exact hall i hp
  · exact h.agree i hp

/-- Lists that differ in one place only are one list up to it and one list after it. -/
theorem DifferOnlyIn.split {i : ℕ} {xs ys : List α} (h : DifferOnlyIn (· = i) xs ys) :
    ∃ pre a b post, xs = pre ++ a :: post ∧ ys = pre ++ b :: post ∧ a ≠ b := by
  obtain ⟨j, rfl, hj⟩ := h.exists_ne
  have hx : j < xs.length := by
    by_contra hge
    have hy : ¬ j < ys.length := h.length_eq ▸ hge
    exact hj (by rw [List.getElem?_eq_none (by omega), List.getElem?_eq_none (by omega)])
  have hy : j < ys.length := h.length_eq ▸ hx
  have hpre : xs.take j = ys.take j := by
    apply List.ext_getElem?
    intro k
    by_cases hk : k < j
    · rw [List.getElem?_take_of_lt hk, List.getElem?_take_of_lt hk]
      exact h.agree k (by omega)
    · rw [List.getElem?_take_eq_none (by omega), List.getElem?_take_eq_none (by omega)]
  have hpost : xs.drop (j + 1) = ys.drop (j + 1) := by
    apply List.ext_getElem?
    intro k
    rw [List.getElem?_drop, List.getElem?_drop]
    exact h.agree (j + 1 + k) (by omega)
  refine ⟨xs.take j, xs[j], ys[j], xs.drop (j + 1), ?_, ?_, ?_⟩
  · rw [← List.drop_eq_getElem_cons hx, List.take_append_drop]
  · rw [hpre, hpost, ← List.drop_eq_getElem_cons hy, List.take_append_drop]
  · intro hab
    exact hj (by rw [List.getElem?_eq_getElem hx, List.getElem?_eq_getElem hy, hab])

/-- **A change in one place is never lost.** -/
theorem Mixes.foldl_ne (h : Mixes mix) {i : ℕ} {xs ys : List α}
    (hd : DifferOnlyIn (· = i) xs ys) (s : σ) : xs.foldl mix s ≠ ys.foldl mix s := by
  obtain ⟨pre, a, b, post, rfl, rfl, hab⟩ := hd.split
  intro heq
  simp only [List.foldl_append, List.foldl_cons] at heq
  exact hab (h.symbol _ (h.foldl_injective post heq))

end Fold

section Words

variable {w : ℕ}

/-- An odd word is invertible modulo `2 ^ w`. -/
theorem mul_odd_injective {c : BitVec w} (hc : c.toNat % 2 = 1) :
    Function.Injective fun x : BitVec w => x * c := by
  intro x y hxy
  have hcop : Nat.gcd (2 ^ w) c.toNat = 1 :=
    Nat.Coprime.pow_left w (Nat.coprime_two_left.mpr (Nat.odd_iff.mpr hc))
  have hmod : x.toNat * c.toNat ≡ y.toNat * c.toNat [MOD 2 ^ w] := by
    have h := congrArg BitVec.toNat hxy
    simp only [BitVec.toNat_mul] at h
    exact h
  apply BitVec.eq_of_toNat_eq
  exact (Nat.ModEq.cancel_right_of_coprime hcop hmod).eq_of_lt_of_lt x.isLt y.isLt

/-- A rotation written as two shifts loses no bit: bit `i` stands at `i + k`, or wrapped round. -/
theorem rotate_injective {k : ℕ} (hk : k ≤ w) :
    Function.Injective fun x : BitVec w => x <<< k ||| x >>> (w - k) := by
  intro x y hxy
  have hbit (i : ℕ) := congrArg (fun z : BitVec w => z.getLsbD i) hxy
  simp only [BitVec.getLsbD_or, BitVec.getLsbD_shiftLeft, BitVec.getLsbD_ushiftRight] at hbit
  apply BitVec.eq_of_getLsbD_eq
  intro i hi
  by_cases hwrap : i + k < w
  · have h := hbit (i + k)
    have hlow : ¬ i + k < k := by omega
    simpa [hwrap, hlow, BitVec.getLsbD_of_ge x (w - k + (i + k)) (by omega),
      BitVec.getLsbD_of_ge y (w - k + (i + k)) (by omega)] using h
  · have h := hbit (i + k - w)
    have hback : w - k + (i + k - w) = i := by omega
    have hlow : i + k - w < k := by omega
    simpa [hback, hlow] using h

/-- A word is read back from its xor with its own shift, the high bits first. -/
theorem xorShift_injective {k : ℕ} (hk : 0 < k) :
    Function.Injective fun x : BitVec w => x ^^^ x >>> k := by
  intro x y hxy
  have hbit (i : ℕ) := congrArg (fun z : BitVec w => z.getLsbD i) hxy
  simp only [BitVec.getLsbD_xor, BitVec.getLsbD_ushiftRight] at hbit
  -- The induction goes down from the top bit: bit `k + i` is known when bit `i` is read.
  have hdown (d : ℕ) : ∀ i, w - i ≤ d → x.getLsbD i = y.getLsbD i := by
    induction d with
    | zero =>
      intro i hi
      rw [BitVec.getLsbD_of_ge x i (by omega), BitVec.getLsbD_of_ge y i (by omega)]
    | succ d ih =>
      intro i hi
      by_cases hiw : w ≤ i
      · rw [BitVec.getLsbD_of_ge x i hiw, BitVec.getLsbD_of_ge y i hiw]
      · have hhigh := ih (k + i) (by omega)
        have h := hbit i
        rw [hhigh] at h
        exact (Bool.xor_left_inj).mp h
  exact BitVec.eq_of_getLsbD_eq fun i _ => hdown w i (by omega)

end Words

end Mixing
