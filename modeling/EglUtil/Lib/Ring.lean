import Mathlib.Data.List.Rotate
import Mathlib.Data.Nat.ModEq

/-!
# A window on a ring of cells

A list of cells is a ring: behind the last cell comes the first. The window shows so many cells
from a place on.

* `window_append`: a cell written behind the window joins it.
* `window_tail`: the window moves past its first cell, whatever is left there.
* `window_overwrite`: a window on the whole ring moves past its first cell, which then is its last.
-/

namespace Ring

variable {α : Type*} {cells : List α} {head count k : Nat}

def window (cells : List α) (head count : Nat) : List α := (cells.rotate head).take count

theorem window_zero (cells : List α) (head : Nat) : window cells head 0 = [] := List.take_zero

theorem length_window (h : count ≤ cells.length) : (window cells head count).length = count := by
  rw [window, List.length_take, List.length_rotate]
  exact Nat.min_eq_left h

theorem getElem?_window (head : Nat) (hk : k < count) (h : count ≤ cells.length) :
    (window cells head count)[k]? = cells[(head + k) % cells.length]? := by
  rw [window, List.getElem?_take_of_lt hk, List.getElem?_rotate (Nat.lt_of_lt_of_le hk h),
    Nat.add_comm]

/-- A cell of the ring, counted from a place. -/
theorem rotate_set (head : Nat) (h : k < cells.length) (x : α) :
    (cells.set ((head + k) % cells.length) x).rotate head = (cells.rotate head).set k x := by
  refine List.ext_getElem? fun j => ?_
  by_cases hj : j < cells.length
  · rw [List.getElem?_rotate (by rwa [List.length_set]), List.length_set, List.getElem?_set,
      List.getElem?_set, List.length_rotate, List.getElem?_rotate hj, Nat.add_comm j head]
    have hplace : (head + k) % cells.length = (head + j) % cells.length ↔ k = j := by
      refine ⟨fun hmod => ?_, fun heq => by rw [heq]⟩
      exact (Nat.ModEq.add_left_cancel' head hmod).eq_of_lt_of_lt h hj
    have hcell : (head + k) % cells.length < cells.length :=
      Nat.mod_lt _ (Nat.lt_of_le_of_lt (Nat.zero_le k) h)
    simp only [hplace, h, hcell]
  · rw [List.getElem?_eq_none (by simpa using hj), List.getElem?_eq_none (by simpa using hj)]

theorem window_append (h : count < cells.length) (x : α) :
    window (cells.set ((head + count) % cells.length) x) head (count + 1) =
      window cells head count ++ [x] := by
  have hlt : count < (cells.rotate head).length := by rwa [List.length_rotate]
  rw [window, window, rotate_set head h, List.take_add_one, List.getElem?_set_self hlt,
    List.take_set_of_le (Nat.le_refl _)]
  rfl

/-- The ring from the next cell on, when something is written to the first. -/
theorem rotate_set_first (h : 0 < cells.length) (x : α) :
    (cells.set (head % cells.length) x).rotate ((head + 1) % cells.length) =
      (cells.rotate head).tail ++ [x] := by
  have hset := rotate_set head h x
  rw [Nat.add_zero] at hset
  have hmod := List.rotate_mod (cells.set (head % cells.length) x) (head + 1)
  rw [List.length_set] at hmod
  rw [hmod, ← List.rotate_rotate, hset]
  cases hring : cells.rotate head with
  | nil => rw [List.rotate_eq_nil_iff] at hring; rw [hring] at h; cases h
  | cons a t => simp

theorem window_tail (head : Nat) (h : count ≤ cells.length) (hpos : 0 < count) (x : α) :
    window (cells.set (head % cells.length) x) ((head + 1) % cells.length) (count - 1) =
      (window cells head count).tail := by
  have hle : count - 1 ≤ (cells.rotate head).tail.length := by
    rw [List.length_tail, List.length_rotate]
    omega
  rw [window, window, rotate_set_first (Nat.lt_of_lt_of_le hpos h),
    List.take_append_of_le_length hle, ← List.drop_one, ← List.drop_one, List.drop_take]

theorem window_overwrite (head : Nat) (h : 0 < cells.length) (x : α) :
    window (cells.set (head % cells.length) x) ((head + 1) % cells.length) cells.length =
      (window cells head cells.length).tail ++ [x] := by
  have hwhole : (cells.rotate head).take cells.length = cells.rotate head :=
    List.take_of_length_le (by rw [List.length_rotate])
  rw [window, window, rotate_set_first h, hwhole]
  refine List.take_of_length_le ?_
  rw [List.length_append, List.length_tail, List.length_rotate, List.length_singleton]
  omega

end Ring
