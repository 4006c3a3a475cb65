import Mathlib.Data.List.DropRight

/-!
# The bounded FIFO

What a bounded queue is for, on plain lists: the oldest element stands first, a push appends
unless `cap` elements are stored, and a pop removes the head. A push that overwrites makes room
for itself, and so keeps the last `cap` elements of all (`overwrite_rtake`).
-/

namespace BoundedFifo

variable {α : Type*}

/-- The calls a client makes. -/
inductive Op (α : Type*) where
  | push (v : α)
  | pop
deriving Repr, DecidableEq

/-- What a call answers. -/
inductive Reply (α : Type*) where
  | pushed (ok : Bool)
  | popped (v : Option α)
deriving Repr, DecidableEq

/-- One call on the stored list. -/
def apply (cap : Nat) (xs : List α) : Op α → List α × Reply α
  | .push v => if xs.length < cap then (xs ++ [v], .pushed true) else (xs, .pushed false)
  | .pop => (xs.tail, .popped xs.head?)

/-- A sequence of calls: the list left at the end and the replies in call order. -/
def run (cap : Nat) : List α → List (Op α) → List α × List (Reply α)
  | xs, [] => (xs, [])
  | xs, op :: ops =>
    let (xs', r) := apply cap xs op
    let (xs'', rs) := run cap xs' ops
    (xs'', r :: rs)

theorem run_cons (cap : Nat) (xs : List α) (op : Op α) (ops : List (Op α)) :
    run cap xs (op :: ops) =
      ((run cap (apply cap xs op).1 ops).1,
        (apply cap xs op).2 :: (run cap (apply cap xs op).1 ops).2) :=
  rfl

/-! ## Overwriting -/

/-- A push that drops the oldest element if `cap` elements are stored. -/
def overwrite (cap : Nat) (xs : List α) (v : α) : List α :=
  if xs.length < cap then xs ++ [v] else xs.tail ++ [v]

theorem length_rtake (cap : Nat) (xs : List α) : (xs.rtake cap).length = min cap xs.length := by
  rw [List.rtake, List.length_drop]
  omega

theorem rtake_of_length_le {cap : Nat} {xs : List α} (h : xs.length ≤ cap) :
    xs.rtake cap = xs := by
  rw [List.rtake, Nat.sub_eq_zero_of_le h, List.drop_zero]

theorem overwrite_rtake {cap : Nat} (hcap : 0 < cap) (xs : List α) (v : α) :
    overwrite cap (xs.rtake cap) v = (xs ++ [v]).rtake cap := by
  obtain ⟨n, rfl⟩ : ∃ n, cap = n + 1 := ⟨cap - 1, by omega⟩
  rw [List.rtake_concat_succ, overwrite, length_rtake]
  by_cases h : xs.length < n + 1
  · rw [if_pos (by omega), rtake_of_length_le (Nat.le_of_lt h),
      rtake_of_length_le (Nat.le_of_lt_succ h)]
  · have hdrop : xs.length - (n + 1) + 1 = xs.length - n := by omega
    rw [if_neg (by omega), List.rtake, List.rtake, List.tail_drop, hdrop]

end BoundedFifo
