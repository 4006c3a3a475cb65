import Mathlib.Data.List.Basic
import Mathlib.Data.List.Range

/-!
# Lists cut into blocks

`blocks n l` are the complete blocks of `n` symbols that `l` starts with, in order; fewer than `n`
symbols at the end are in no block. `flatten_blocks`: where `n` divides the length, the blocks are
all of the list.

`foldl_range_invariant` is the invariant rule of a counted loop.
-/

namespace Blocks

variable {α σ : Type*} {n : ℕ} {l : List α}

/-- Block `b` of the list. -/
def block (n : ℕ) (l : List α) (b : ℕ) : List α := (l.drop (b * n)).take n

/-- The complete blocks of `n` symbols, in order. -/
def blocks (n : ℕ) (l : List α) : List (List α) := (List.range (l.length / n)).map (block n l)

theorem length_block {b : ℕ} (hb : b < l.length / n) : (block n l b).length = n := by
  have hle : (b + 1) * n ≤ l.length := Nat.mul_le_of_le_div n (b + 1) l.length hb
  rw [Nat.succ_mul] at hle
  rw [block, List.length_take, List.length_drop]
  omega

/-- Symbol `i` of block `b` is symbol `b * n + i` of the list. -/
theorem getD_block {b i : ℕ} (hi : i < n) (d : α) :
    (block n l b).getD i d = l.getD (b * n + i) d := by
  rw [block, List.getD_eq_getElem?_getD, List.getD_eq_getElem?_getD,
    List.getElem?_take_of_lt hi, List.getElem?_drop]

theorem flatten_map_block (n : ℕ) (l : List α) (m : ℕ) :
    ((List.range m).map (block n l)).flatten = l.take (m * n) := by
  induction m with
  | zero => simp
  | succ m ih =>
    rw [List.range_succ, List.map_append, List.flatten_append, ih, Nat.succ_mul, List.take_add]
    simp [block]

/-- Cutting loses nothing. -/
theorem flatten_blocks (hn : n ∣ l.length) : (blocks n l).flatten = l := by
  rw [blocks, flatten_map_block, Nat.div_mul_cancel hn, List.take_length]

/-- What holds before a counted loop, and is kept by turn `i` for each `i`, holds after it. -/
theorem foldl_range_invariant (P : ℕ → σ → Prop) {f : σ → ℕ → σ} {a c : ℕ} {s : σ}
    (init : P a s) (turn : ∀ i s, a ≤ i → i < a + c → P i s → P (i + 1) (f s i)) :
    P (a + c) ((List.range' a c).foldl f s) := by
  induction c with
  | zero => exact init
  | succ c ih =>
    rw [List.range'_concat, List.foldl_append, Nat.one_mul]
    apply turn _ _ (Nat.le_add_right a c) (by omega)
    exact ih fun i s hlo hhi => turn i s hlo (by omega)

end Blocks
