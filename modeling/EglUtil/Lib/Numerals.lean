import Mathlib.Data.List.Induction

/-!
# Numerals

A number written in base `b`, most significant digit first, with the digits `0` to `9` and `a` to
`f`: what `Nat.toDigits` writes, and what a reader makes of any text of digits.

* `value_toDigits`: what is written reads back;
* `IsNumeral.eq_zeros_append`: a text of digits is the numeral of its value, behind some zeros.
  So a number has one numeral of each length from that of `Nat.toDigits` on, and no other;
* `IsNumeral.takeWhile_append`: a numeral that ends before a character that is no digit can be
  taken off a text.
-/

namespace Numerals

/-- The value of a digit. -/
def digitOf (c : Char) : Nat := if c.isDigit then c.toNat - '0'.toNat else c.toNat - 'a'.toNat + 10

/-- The value of a text of digits. -/
def value (b : Nat) (text : List Char) : Nat := text.foldl (fun n c => b * n + digitOf c) 0

/-- The text has digits of base `b` only. -/
def IsNumeral (b : Nat) (text : List Char) : Prop := ∀ c ∈ text, ∃ d, d < b ∧ c = Nat.digitChar d

def isDigitOf (b : Nat) (c : Char) : Bool := (List.range b).any fun d => c = Nat.digitChar d

variable {b n d : Nat} {text : List Char}

theorem digitOf_digitChar (hd : d < 16) : digitOf d.digitChar = d := by
  have hall : ∀ e : Fin 16, digitOf (Nat.digitChar e) = e := by decide
  exact hall ⟨d, hd⟩

theorem isDigit_digitChar (hd : d < 10) : d.digitChar.isDigit = true := by
  have hall : ∀ e : Fin 10, (Nat.digitChar e).isDigit = true := by decide
  exact hall ⟨d, hd⟩

/-- The digits of base 10 are those that `Char.isDigit` accepts. -/
theorem exists_digitChar {c : Char} (hc : c.isDigit = true) :
    ∃ d, d < 10 ∧ c = Nat.digitChar d := by
  have hbounds : 48 ≤ c.toNat ∧ c.toNat ≤ 57 := by
    simpa [Char.isDigit, Char.le_def, UInt32.le_iff_toNat_le] using hc
  have hall : ∀ e : Fin 10, Char.ofNat (48 + e) = Nat.digitChar e := by decide
  refine ⟨c.toNat - 48, by omega, ?_⟩
  have hsum : 48 + (c.toNat - 48) = c.toNat := by omega
  rw [← hall ⟨c.toNat - 48, by omega⟩, hsum, Char.ofNat_toNat]

@[simp] theorem value_nil (b : Nat) : value b [] = 0 := rfl

theorem value_append_singleton (b : Nat) (text : List Char) (c : Char) :
    value b (text ++ [c]) = b * value b text + digitOf c := by
  simp [value, List.foldl_append]

theorem isNumeral_nil (b : Nat) : IsNumeral b [] := by simp [IsNumeral]

theorem isNumeral_append {text' : List Char} :
    IsNumeral b (text ++ text') ↔ IsNumeral b text ∧ IsNumeral b text' := by
  simp only [IsNumeral, List.mem_append, or_imp, forall_and]

theorem isNumeral_singleton {c : Char} : IsNumeral b [c] ↔ ∃ d, d < b ∧ c = Nat.digitChar d := by
  simp [IsNumeral]

theorem isNumeral_ten_iff : IsNumeral 10 text ↔ text.all Char.isDigit = true := by
  rw [List.all_eq_true]
  constructor
  · intro h c hc
    obtain ⟨d, hd, rfl⟩ := h c hc
    exact isDigit_digitChar hd
  · exact fun h c hc => exists_digitChar (h c hc)

theorem isNumeral_toDigits (hb : 1 < b) (n : Nat) : IsNumeral b (Nat.toDigits b n) := by
  induction n using Nat.base_induction b hb with
  | single d hd =>
    rw [Nat.toDigits_of_lt_base hd]
    exact isNumeral_singleton.2 ⟨d, hd, rfl⟩
  | digit n d hd hn ih =>
    rw [← Nat.toDigits_append_toDigits hb hn hd, isNumeral_append]
    refine ⟨ih, ?_⟩
    rw [Nat.toDigits_of_lt_base hd]
    exact isNumeral_singleton.2 ⟨d, hd, rfl⟩

/-- **What is written reads back.** -/
theorem value_toDigits (hb : 1 < b) (hb' : b ≤ 16) (n : Nat) : value b (Nat.toDigits b n) = n := by
  induction n using Nat.base_induction b hb with
  | single d hd =>
    rw [Nat.toDigits_of_lt_base hd, ← List.nil_append [_], value_append_singleton, value_nil,
      digitOf_digitChar (by omega)]
    omega
  | digit n d hd hn ih =>
    rw [← Nat.toDigits_append_toDigits hb hn hd, Nat.toDigits_of_lt_base hd,
      value_append_singleton, ih, digitOf_digitChar (by omega)]

theorem value_zeros (b zeros : Nat) : value b (List.replicate zeros '0') = 0 := by
  induction zeros with
  | zero => rfl
  | succ zeros ih =>
    rw [List.replicate_succ', value_append_singleton, ih]
    rfl

theorem value_zeros_append (b zeros : Nat) (text : List Char) :
    value b (List.replicate zeros '0' ++ text) = value b text := by
  rw [value, List.foldl_append]
  show List.foldl _ (value b (List.replicate zeros '0')) text = _
  rw [value_zeros, value]

theorem isNumeral_zeros (hb : 1 < b) (zeros : Nat) : IsNumeral b (List.replicate zeros '0') := by
  intro c hc
  exact ⟨0, by omega, List.eq_of_mem_replicate hc⟩

/-- **A text of digits is the numeral of its value behind some zeros.** -/
theorem IsNumeral.eq_zeros_append (h : IsNumeral b text) (hb : 1 < b) (hb' : b ≤ 16)
    (hne : text ≠ []) :
    ∃ zeros, text = List.replicate zeros '0' ++ Nat.toDigits b (value b text) := by
  induction text using List.reverseRecOn with
  | nil => exact absurd rfl hne
  | append_singleton text c ih =>
    obtain ⟨htext, hlast⟩ := isNumeral_append.1 h
    obtain ⟨d, hd, rfl⟩ := isNumeral_singleton.1 hlast
    rw [value_append_singleton, digitOf_digitChar (by omega)]
    by_cases hnil : text = []
    · subst hnil
      exact ⟨0, by simp [Nat.toDigits_of_lt_base hd]⟩
    · obtain ⟨zeros, htext⟩ := ih htext hnil
      by_cases hzero : value b text = 0
      · -- Nothing but zeros so far, the last one of them the numeral of 0.
        refine ⟨zeros + 1, ?_⟩
        rw [hzero, Nat.toDigits_zero] at htext
        rw [hzero, Nat.mul_zero, Nat.zero_add, Nat.toDigits_of_lt_base hd, List.replicate_succ',
          ← htext]
      · refine ⟨zeros, ?_⟩
        rw [← Nat.toDigits_append_toDigits hb (Nat.pos_of_ne_zero hzero) hd,
          Nat.toDigits_of_lt_base hd, ← List.append_assoc, ← htext]

/-- The texts of digits that read as `n`. -/
theorem isNumeral_and_value_iff (hb : 1 < b) (hb' : b ≤ 16) :
    text ≠ [] ∧ IsNumeral b text ∧ value b text = n ↔
      ∃ zeros, text = List.replicate zeros '0' ++ Nat.toDigits b n := by
  constructor
  · rintro ⟨hne, hnumeral, rfl⟩
    exact hnumeral.eq_zeros_append hb hb' hne
  · rintro ⟨zeros, rfl⟩
    refine ⟨by simp, isNumeral_append.2 ⟨isNumeral_zeros hb zeros, isNumeral_toDigits hb n⟩, ?_⟩
    rw [value_zeros_append, value_toDigits hb hb']

/-- No zero is written in front. -/
theorem head?_toDigits_ne (hb : 1 < b) (hb' : b ≤ 16) (hn : n ≠ 0) :
    (Nat.toDigits b n).head? ≠ some '0' := by
  intro hhead
  obtain ⟨rest, hrest⟩ := List.head?_eq_some_iff.1 hhead
  have hnumeral : IsNumeral b (['0'] ++ rest) := by
    rw [List.singleton_append, ← hrest]
    exact isNumeral_toDigits hb n
  have hvalue : value b rest = n := by
    rw [← value_zeros_append b 1 rest, ← value_toDigits hb hb' n, hrest]
    rfl
  have hne : rest ≠ [] := by
    rintro rfl
    exact hn hvalue.symm
  -- Behind the zero the numeral would stand once more.
  obtain ⟨zeros, hagain⟩ := (isNumeral_append.1 hnumeral).2.eq_zeros_append hb hb' hne
  have hlength := congrArg List.length hagain
  rw [hvalue, hrest] at hlength
  simp at hlength
  omega

/-! ## A numeral at the beginning of a text -/

theorem isDigitOf_iff {c : Char} : isDigitOf b c = true ↔ ∃ d, d < b ∧ c = Nat.digitChar d := by
  simp [isDigitOf]

/-- A reader that takes digits while there are any takes the numeral. -/
theorem IsNumeral.takeWhile_append (h : IsNumeral b text) {rest : List Char}
    (hrest : ∀ c ∈ rest.head?, isDigitOf b c = false) :
    (text ++ rest).takeWhile (isDigitOf b) = text ∧
      (text ++ rest).dropWhile (isDigitOf b) = rest := by
  have hall : ∀ c ∈ text, isDigitOf b c = true := fun c hc => isDigitOf_iff.2 (h c hc)
  rw [List.takeWhile_append_of_pos hall, List.dropWhile_append_of_pos hall]
  cases rest with
  | nil => simp
  | cons c rest =>
    have hc := hrest c rfl
    simp [hc]

end Numerals
