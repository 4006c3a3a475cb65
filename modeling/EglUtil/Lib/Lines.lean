import Mathlib.Algebra.GroupWithZero.Nat
import Mathlib.Data.List.Basic

/-!
# Lines ended by a separator

A text is written as lines, each followed by a separator, and read back by splitting at the
separators. What stands behind the last one, here the empty line, is a piece as well.

* `length_splitOn`: there is one more piece than separators;
* `splitOn_ended_iff`: the pieces are the lines that were written exactly if none contains the
  separator. A separator within a line makes a piece of its own, so there would be too many;
* `not_mem_of_length_splitOn`: so their number alone tells;
* `splitOn_ended_append`: an unfinished line at the end is the last piece.
-/

namespace Lines

variable {α : Type*} {a : α}

/-- The lines, each followed by the separator. -/
def ended (a : α) (lines : List (List α)) : List α := lines.flatMap fun line => line ++ [a]

theorem ended_cons (a : α) (line : List α) (lines : List (List α)) :
    ended a (line :: lines) = line ++ a :: ended a lines := by
  rw [ended, List.flatMap_cons, List.append_assoc]
  rfl

variable [DecidableEq α]

theorem length_splitOn (a : α) (text : List α) :
    (text.splitOn a).length = text.count a + 1 := by
  induction text with
  | nil => rfl
  | cons c text ih =>
    rw [List.splitOn_cons_eq_if_modifyHead, List.count_cons]
    by_cases hc : c = a
    · rw [if_pos (beq_iff_eq.mpr hc), if_pos (beq_iff_eq.mpr hc), List.length_cons, ih]
    · rw [if_neg (by simpa using hc), if_neg (by simpa using hc), List.length_modifyHead, ih]

theorem count_ended (a : α) (lines : List (List α)) :
    (ended a lines).count a = lines.length + (lines.map (List.count a)).sum := by
  induction lines with
  | nil => rfl
  | cons line lines ih =>
    rw [ended_cons, List.count_append, List.count_cons_self, ih, List.length_cons, List.map_cons,
      List.sum_cons]
    omega

theorem splitOn_ended (lines : List (List α)) (h : ∀ line ∈ lines, a ∉ line) :
    (ended a lines).splitOn a = lines ++ [[]] := by
  induction lines with
  | nil => rfl
  | cons line lines ih =>
    rw [List.forall_mem_cons] at h
    rw [ended_cons, List.splitOn_append_cons_self_of_not_mem h.1, ih h.2, List.cons_append]

/-- What stands behind the last separator is a piece as well. -/
theorem splitOn_ended_append {lines : List (List α)} {rest : List α}
    (h : ∀ line ∈ lines, a ∉ line) (hrest : a ∉ rest) :
    (ended a lines ++ rest).splitOn a = lines ++ [rest] := by
  induction lines with
  | nil => exact List.splitOn_eq_singleton hrest
  | cons line lines ih =>
    rw [List.forall_mem_cons] at h
    rw [ended_cons, List.append_assoc, List.cons_append,
      List.splitOn_append_cons_self_of_not_mem h.1, ih h.2, List.cons_append]

/-- As many pieces as lines, and what stands behind them: no line contains the separator. -/
theorem not_mem_of_length_splitOn {lines : List (List α)}
    (h : ((ended a lines).splitOn a).length = lines.length + 1) : ∀ line ∈ lines, a ∉ line := by
  intro line hline hmem
  rw [length_splitOn, count_ended] at h
  have hzero : (lines.map (List.count a)).sum = 0 := by omega
  have hcount := List.sum_eq_zero_iff_forall_eq_nat.mp hzero (line.count a)
    (List.mem_map_of_mem hline)
  exact List.count_eq_zero.mp hcount hmem

/-- **Reading the lines back.** -/
theorem splitOn_ended_iff {lines : List (List α)} :
    (ended a lines).splitOn a = lines ++ [[]] ↔ ∀ line ∈ lines, a ∉ line := by
  refine ⟨fun h => not_mem_of_length_splitOn ?_, splitOn_ended lines⟩
  rw [h, List.length_append, List.length_singleton]

end Lines
