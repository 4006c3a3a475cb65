import Mathlib.Data.List.Infix
import Mathlib.Data.List.Basic

/-!
# Splitting at a delimiter

A delimiter may overlap itself, so its occurrences in a text are taken from the left, and the next
one is looked for behind the last. They cut the text into fields.

* `occurrences`: how many there are, by one scan.
* `Fields`: the fields, cut off one by one. There is one more than occurrences (`Fields.length`),
  none contains the delimiter (`Fields.not_infix`), and with the delimiter between them they are
  the text (`Fields.intercalate`).
-/

namespace Splitting

variable {α : Type*} {delimiter text field rest : List α} {fields : List (List α)}

/-! ## Occurrences -/

section Occurrences

variable [DecidableEq α]

/-- The occurrences behind the next `skip` elements. -/
def scan (delimiter : List α) : Nat → List α → Nat
  | _, [] => 0
  | skip + 1, _ :: text => scan delimiter skip text
  | 0, x :: text =>
    if delimiter <+: x :: text then 1 + scan delimiter (delimiter.length - 1) text
    else scan delimiter 0 text

/-- The number of occurrences that do not overlap, each as far left as possible. -/
def occurrences (delimiter text : List α) : Nat := scan delimiter 0 text

theorem scan_append (delimiter a b : List α) : scan delimiter a.length (a ++ b) =
    occurrences delimiter b := by
  induction a with
  | nil => rfl
  | cons x a ih => exact ih

theorem occurrences_delimiter (hne : delimiter ≠ []) (rest : List α) :
    occurrences delimiter (delimiter ++ rest) = 1 + occurrences delimiter rest := by
  cases delimiter with
  | nil => exact absurd rfl hne
  | cons x delimiter =>
    have hbegins : x :: delimiter <+: x :: (delimiter ++ rest) := List.prefix_append _ _
    rw [List.cons_append, occurrences, scan, if_pos hbegins, List.length_cons,
      Nat.add_sub_cancel, scan_append]

end Occurrences

/-! ## Fields -/

/-- The delimiter does not begin at any of these places. -/
def Absent (delimiter text : List α) (places : Nat) : Prop :=
  ∀ i < places, ¬ delimiter <+: text.drop i

theorem Absent.not_infix (hne : delimiter ≠ [])
    (h : Absent delimiter (field ++ rest) field.length) : ¬ delimiter <:+: field := by
  rintro ⟨before, after, rfl⟩
  refine h before.length ?_ ?_
  · have hpos := List.length_pos_iff.2 hne
    simp only [List.length_append]
    omega
  · simp

/-- Cutting a text at the occurrences. -/
inductive Fields (delimiter : List α) : List α → List (List α) → Prop where
  | last {text : List α} (h : Absent delimiter text text.length) : Fields delimiter text [text]
  | cut {field rest : List α} {fields : List (List α)}
    (h : Absent delimiter (field ++ (delimiter ++ rest)) field.length)
    (hrest : Fields delimiter rest fields) :
    Fields delimiter (field ++ (delimiter ++ rest)) (field :: fields)

theorem Fields.ne_nil (h : Fields delimiter text fields) : fields ≠ [] := by
  cases h <;> exact List.cons_ne_nil _ _

theorem Fields.intercalate (h : Fields delimiter text fields) :
    delimiter.intercalate fields = text := by
  induction h with
  | last => exact List.intercalate_singleton
  | cut h hrest ih => rw [List.intercalate_cons_of_ne_nil hrest.ne_nil, ih, List.append_assoc]

theorem Fields.not_infix (hne : delimiter ≠ []) (h : Fields delimiter text fields) :
    ∀ field ∈ fields, ¬ delimiter <:+: field := by
  induction h with
  | @last text h =>
    intro field hfield
    have habsent : Absent delimiter (text ++ []) text.length := by rwa [List.append_nil]
    rw [List.mem_singleton.1 hfield]
    exact habsent.not_infix hne
  | cut h hrest ih => exact List.forall_mem_cons.2 ⟨h.not_infix hne, ih⟩

section Count

variable [DecidableEq α]

theorem Absent.occurrences_append (h : Absent delimiter (field ++ rest) field.length) :
    occurrences delimiter (field ++ rest) = occurrences delimiter rest := by
  induction field with
  | nil => rfl
  | cons x field ih =>
    have hfirst : ¬ delimiter <+: x :: (field ++ rest) := h 0 (Nat.succ_pos _)
    rw [← ih fun i hi => h (i + 1) (Nat.succ_lt_succ hi), List.cons_append, occurrences, scan,
      if_neg hfirst]
    rfl

theorem Fields.length (hne : delimiter ≠ []) (h : Fields delimiter text fields) :
    fields.length = occurrences delimiter text + 1 := by
  induction h with
  | @last text h =>
    have habsent : Absent delimiter (text ++ []) text.length := by rwa [List.append_nil]
    have hnone := habsent.occurrences_append
    rw [List.append_nil] at hnone
    rw [hnone]
    rfl
  | cut h hrest ih =>
    rw [h.occurrences_append, occurrences_delimiter hne, List.length_cons, ih]
    omega

end Count

end Splitting
