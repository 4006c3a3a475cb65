import EglUtil.Lib.Numerals
import EglUtil.CliParser
import EglUtil.LoggerFileSink

/-!
# `StringBuilder` and integers as text

A builder appends texts, characters and integers to a buffer. An integer goes through an array of
24 characters with `std::to_chars`; if it did not fit, nothing would be appended. `cli_parse` reads
an integer back with `std::from_chars` and takes the whole token or nothing.

**Theorem (`integer_texts`).** Let an integer type have at most 64 bits. Every value of the type is
appended, with at most 20 characters. A token is read as the value exactly if it is an allowed
sign, any number of zeros and the decimal digits of the magnitude; of these, the text that is
appended is the shortest.

A minus sign is allowed before a negative value, and, where the type is signed, before zero.
-/

namespace EglUtil

open Numerals

/-! ## Integer types -/

/-- An integer type of the language that has at most 64 bits. -/
structure IntegerType where
  width : Nat
  signed : Bool
  positive : 0 < width
  bounded : width ≤ 64

theorem byte_positive : 0 < 8 := by decide

theorem byte_bounded : 8 ≤ 64 := by decide

/-- `std::int8_t` -/
def int8 : IntegerType := ⟨8, true, byte_positive, byte_bounded⟩

/-- `std::int64_t` -/
def int64 : IntegerType := ⟨64, true, by decide, by decide⟩

/-- `std::size_t` -/
def sizeType : IntegerType := ⟨64, false, by decide, by decide⟩

namespace IntegerType

def least (I : IntegerType) : Int := if I.signed then -(2 ^ (I.width - 1) : Nat) else 0

def greatest (I : IntegerType) : Int :=
  if I.signed then (2 ^ (I.width - 1) : Nat) - 1 else (2 ^ I.width : Nat) - 1

/-- The type has the value. -/
def Holds (I : IntegerType) (value : Int) : Prop := I.least ≤ value ∧ value ≤ I.greatest

instance (I : IntegerType) (value : Int) : Decidable (I.Holds value) := by
  unfold Holds
  infer_instance

/-- The signs that a value of the type may be written with. -/
def signs (I : IntegerType) (value : Int) : List (List Char) :=
  if value < 0 then [['-']] else if value = 0 ∧ I.signed then [[], ['-']] else [[]]

theorem mem_signs {I : IntegerType} {value : Int} {sign : List Char} :
    sign ∈ I.signs value ↔ (sign = [] ∧ 0 ≤ value) ∨
      (sign = ['-'] ∧ value ≤ 0 ∧ (value = 0 → I.signed = true)) := by
  unfold signs
  split_ifs with hneg hzero
  · have hvalue : ¬ 0 ≤ value ∧ value ≤ 0 ∧ value ≠ 0 := by omega
    simp [hvalue]
  · obtain ⟨rfl, hsigned⟩ := hzero
    simp [hsigned]
  · by_cases hvalue : value = 0
    · subst hvalue
      have hunsigned : I.signed = false := by simpa using hzero
      simp [hunsigned]
    · have hpos : 0 ≤ value ∧ ¬ value ≤ 0 := by omega
      simp [hpos]

end IntegerType

/-! ## The builder -/

structure StringBuilder where
  buffer : List Char
deriving Repr, DecidableEq

namespace StringBuilder

/-- `StringBuilder(initial)` -/
def create (initial : List Char) : StringBuilder := ⟨initial⟩

def append (out : StringBuilder) (text : List Char) : StringBuilder := ⟨out.buffer ++ text⟩

def appendChar (out : StringBuilder) (character : Char) : StringBuilder :=
  ⟨out.buffer ++ [character]⟩

/-- The characters of `digits`, the array that `std::to_chars` writes to. -/
def digitsSize : Nat := 24

/-- `append(T value)` for an integer type. -/
def appendInteger (out : StringBuilder) (value : Int) : StringBuilder :=
  if (toChars value).length ≤ digitsSize then ⟨out.buffer ++ toChars value⟩ else out

def clear (_ : StringBuilder) : StringBuilder := ⟨[]⟩

/-- `str() &&`: the text, and the builder that is left. -/
def str (out : StringBuilder) : List Char × StringBuilder := (out.buffer, out.clear)

end StringBuilder

/-! ## The characters of an integer -/

theorem toChars_eq (value : Int) :
    toChars value = (if value < 0 then ['-'] else []) ++ Nat.toDigits 10 value.natAbs := by
  cases value with
  | ofNat n => rfl
  | negSucc n =>
    rw [if_pos (Int.negSucc_lt_zero n)]
    rfl

namespace IntegerType

variable {I : IntegerType} {value : Int}

theorem two_pow_width_le (I : IntegerType) : 2 ^ I.width ≤ 2 ^ 64 :=
  Nat.pow_le_pow_right (by decide) I.bounded

theorem two_pow_pred_le (I : IntegerType) : 2 ^ (I.width - 1) ≤ 2 ^ 63 :=
  Nat.pow_le_pow_right (by decide) (by have hbounded := I.bounded; omega)

theorem Holds.natAbs_lt (h : I.Holds value) : value.natAbs < 10 ^ 20 := by
  obtain ⟨hleast, hgreatest⟩ := h
  have hwidth := I.two_pow_width_le
  have hpred := I.two_pow_pred_le
  unfold least at hleast
  unfold greatest at hgreatest
  split_ifs at hleast hgreatest <;> omega

/-- A negative value has one digit less. -/
theorem Holds.natAbs_lt_of_neg (h : I.Holds value) (hneg : value < 0) :
    value.natAbs < 10 ^ 19 := by
  obtain ⟨hleast, -⟩ := h
  have hpred := I.two_pow_pred_le
  unfold least at hleast
  split_ifs at hleast <;> omega

theorem Holds.length_toChars_le (h : I.Holds value) : (toChars value).length ≤ 20 := by
  rw [toChars_eq, List.length_append]
  split_ifs with hneg
  · have hdigits := (Nat.length_toDigits_le_iff (b := 10) (by decide) (by decide)).2
      (h.natAbs_lt_of_neg hneg)
    rw [List.length_singleton]
    omega
  · have hdigits := (Nat.length_toDigits_le_iff (b := 10) (by decide) (by decide)).2 h.natAbs_lt
    rw [List.length_nil]
    omega

theorem least_neg_iff (I : IntegerType) : I.least < 0 ↔ I.signed = true := by
  have hpos : 0 < 2 ^ (I.width - 1) := Nat.pow_pos (by decide)
  unfold least
  split_ifs with hsigned
  · simp only [hsigned, iff_true]
    omega
  · simp [hsigned]

theorem Holds.signed_of_neg (h : I.Holds value) (hneg : value < 0) : I.signed = true :=
  I.least_neg_iff.1 (Int.lt_of_le_of_lt h.1 hneg)

end IntegerType

/-- What is appended is never dropped. -/
theorem StringBuilder.appendInteger_eq {I : IntegerType} {value : Int} (h : I.Holds value)
    (out : StringBuilder) : out.appendInteger value = ⟨out.buffer ++ toChars value⟩ :=
  if_pos (Nat.le_trans h.length_toChars_le (by decide))

/-! ## Reading -/

namespace Cli

theorem magnitude_eq_value {digits : Token} (h : digits.all Char.isDigit = true) :
    magnitude digits = Numerals.value 10 digits := by
  unfold magnitude Numerals.value
  refine List.foldl_ext _ _ _ fun n c hc => ?_
  rw [digitOf, if_pos (List.all_eq_true.1 h c hc)]

/-- The tokens without a sign that are read as `n`. -/
theorem digits_iff {digits : Token} {n : Nat} :
    digits ≠ [] ∧ digits.all Char.isDigit = true ∧ magnitude digits = n ↔
      ∃ zeros, digits = List.replicate zeros '0' ++ Nat.toDigits 10 n := by
  rw [← isNumeral_and_value_iff (by decide) (by decide), isNumeral_ten_iff]
  refine and_congr_right fun _ => and_congr_right fun hdigits => ?_
  rw [magnitude_eq_value hdigits]

section Reading

variable {I : IntegerType} {value : Int} {token digits : Token}

/-- A token that is read behind a minus sign. -/
theorem cliParseInteger_minus_iff (hsigned : I.signed = true) :
    cliParseInteger I.least I.greatest ('-' :: digits) = some value ↔
      I.Holds value ∧ value ≤ 0 ∧
        ∃ zeros, digits = List.replicate zeros '0' ++ Nat.toDigits 10 value.natAbs := by
  have hnegative : (decide (I.least < 0) && ('-' :: digits).head? == some '-') = true := by
    simp [I.least_neg_iff, hsigned]
  rw [← digits_iff]
  simp only [cliParseInteger, hnegative, if_true, List.tail_cons, Option.ite_none_right_eq_some,
    Option.some.injEq, IntegerType.Holds]
  constructor
  · rintro ⟨⟨hne, hall, hleast, hgreatest⟩, rfl⟩
    exact ⟨⟨hleast, hgreatest⟩, by omega, hne, hall, by omega⟩
  · rintro ⟨⟨hleast, hgreatest⟩, hvalue, hne, hall, hmagnitude⟩
    have heq : -(magnitude digits : Int) = value := by omega
    rw [heq]
    exact ⟨⟨hne, hall, hleast, hgreatest⟩, rfl⟩

/-- A token that is read without a sign. -/
theorem cliParseInteger_plain_iff (hplain : I.signed = false ∨ token.head? ≠ some '-') :
    cliParseInteger I.least I.greatest token = some value ↔
      I.Holds value ∧ 0 ≤ value ∧
        ∃ zeros, token = List.replicate zeros '0' ++ Nat.toDigits 10 value.natAbs := by
  have hnegative : (decide (I.least < 0) && token.head? == some '-') = false := by
    rcases hplain with hsigned | hhead
    · simp [I.least_neg_iff, hsigned]
    · simp [hhead]
  rw [← digits_iff]
  simp only [cliParseInteger, hnegative, Bool.false_eq_true, if_false,
    Option.ite_none_right_eq_some, Option.some.injEq, IntegerType.Holds]
  constructor
  · rintro ⟨⟨hne, hall, hleast, hgreatest⟩, rfl⟩
    exact ⟨⟨hleast, hgreatest⟩, by omega, hne, hall, by omega⟩
  · rintro ⟨⟨hleast, hgreatest⟩, hvalue, hne, hall, hmagnitude⟩
    have heq : (magnitude token : Int) = value := by omega
    rw [heq]
    exact ⟨⟨hne, hall, hleast, hgreatest⟩, rfl⟩

/-- No numeral begins with a minus sign. -/
theorem head?_numeral_ne (zeros n : Nat) :
    (List.replicate zeros '0' ++ Nat.toDigits 10 n).head? ≠ some '-' := by
  intro hhead
  have hnumeral := isNumeral_append.2
    ⟨isNumeral_zeros (b := 10) (by decide) zeros, isNumeral_toDigits (by decide) n⟩
  have hdigit := List.all_eq_true.1 (isNumeral_ten_iff.1 hnumeral) '-'
    (List.mem_of_mem_head? hhead)
  exact absurd hdigit (by decide)

/-- **The tokens that are read as a value.** -/
theorem cliParseInteger_iff :
    cliParseInteger I.least I.greatest token = some value ↔
      I.Holds value ∧ ∃ sign ∈ I.signs value, ∃ zeros,
        token = sign ++ (List.replicate zeros '0' ++ Nat.toDigits 10 value.natAbs) := by
  simp only [IntegerType.mem_signs]
  by_cases hminus : I.signed = true ∧ token.head? = some '-'
  · obtain ⟨hsigned, hhead⟩ := hminus
    obtain ⟨digits, rfl⟩ := List.head?_eq_some_iff.1 hhead
    rw [cliParseInteger_minus_iff hsigned]
    refine and_congr_right fun _ => ⟨?_, ?_⟩
    · rintro ⟨hvalue, zeros, rfl⟩
      exact ⟨['-'], .inr ⟨rfl, by omega, fun _ => hsigned⟩, zeros, rfl⟩
    · rintro ⟨sign, ⟨rfl, -⟩ | ⟨rfl, hvalue, -⟩, zeros, htoken⟩
      · exact absurd (congrArg List.head? htoken).symm (head?_numeral_ne zeros value.natAbs)
      · exact ⟨hvalue, zeros, List.tail_eq_of_cons_eq htoken⟩
  · have hplain : I.signed = false ∨ token.head? ≠ some '-' := by
      rwa [not_and_or, Bool.not_eq_true] at hminus
    rw [cliParseInteger_plain_iff hplain]
    refine and_congr_right fun hholds => ⟨?_, ?_⟩
    · rintro ⟨hvalue, zeros, rfl⟩
      exact ⟨[], .inl ⟨rfl, hvalue⟩, zeros, rfl⟩
    · rintro ⟨sign, ⟨rfl, hvalue⟩ | ⟨rfl, hvalue, hsigned⟩, zeros, rfl⟩
      · exact ⟨hvalue, zeros, rfl⟩
      · -- A minus sign is allowed only where it is read as one.
        by_cases hzero : value = 0
        · exact absurd ⟨hsigned hzero, rfl⟩ hminus
        · exact absurd ⟨hholds.signed_of_neg (by omega), rfl⟩ hminus

/-- What is appended is read as the value. -/
theorem cliParseInteger_toChars (h : I.Holds value) :
    cliParseInteger I.least I.greatest (toChars value) = some value := by
  refine cliParseInteger_iff.2 ⟨h, _, ?_, 0, toChars_eq value⟩
  rw [IntegerType.mem_signs]
  split_ifs with hneg
  · exact .inr ⟨rfl, by omega, by omega⟩
  · exact .inl ⟨rfl, by omega⟩

/-- No other token that is read as the value is as short. -/
theorem length_toChars_lt (h : cliParseInteger I.least I.greatest token = some value)
    (hne : token ≠ toChars value) : (toChars value).length < token.length := by
  obtain ⟨-, sign, hsign, zeros, rfl⟩ := cliParseInteger_iff.1 h
  rw [toChars_eq] at hne ⊢
  simp only [List.length_append, List.length_replicate]
  rcases IntegerType.mem_signs.1 hsign with ⟨rfl, hvalue⟩ | ⟨rfl, hvalue, -⟩
  · have hneg : ¬ value < 0 := by omega
    rw [if_neg hneg] at hne ⊢
    have hzeros : zeros ≠ 0 := by
      rintro rfl
      exact hne rfl
    simp only [List.length_nil]
    omega
  · by_cases hneg : value < 0
    · rw [if_pos hneg] at hne ⊢
      have hzeros : zeros ≠ 0 := by
        rintro rfl
        exact hne rfl
      omega
    · simp only [if_neg hneg, List.length_nil, List.length_singleton]
      omega

end Reading

end Cli

/-- **Integers as text.** Every value is appended; the tokens that are read as a value are known,
and what is appended is the shortest of them. -/
theorem integer_texts (I : IntegerType) :
    (∀ value, I.Holds value → ∀ out : StringBuilder,
      out.appendInteger value = ⟨out.buffer ++ toChars value⟩ ∧ (toChars value).length ≤ 20 ∧
      Cli.cliParseInteger I.least I.greatest (toChars value) = some value) ∧
    ∀ token value,
      (Cli.cliParseInteger I.least I.greatest token = some value ↔
        I.Holds value ∧ ∃ sign ∈ I.signs value, ∃ zeros,
          token = sign ++ (List.replicate zeros '0' ++ Nat.toDigits 10 value.natAbs)) ∧
      (Cli.cliParseInteger I.least I.greatest token = some value → token ≠ toChars value →
        (toChars value).length < token.length) := by
  refine ⟨fun value h out => ?_, fun token value => ⟨Cli.cliParseInteger_iff, ?_⟩⟩
  · exact ⟨StringBuilder.appendInteger_eq h out, h.length_toChars_le, Cli.cliParseInteger_toChars h⟩
  · exact Cli.length_toChars_lt

/-- The longest text, and a zero that is read in a longer spelling. -/
theorem integer_texts_int64 :
    (StringBuilder.create "n=".toList).appendInteger (-9223372036854775808) =
      ⟨"n=-9223372036854775808".toList⟩ ∧
    Cli.cliParseInteger int64.least int64.greatest "-9223372036854775808".toList =
      some (-9223372036854775808) ∧
    Cli.cliParseInteger int64.least int64.greatest "-000".toList = some 0 := by
  obtain ⟨happended, hread⟩ := integer_texts int64
  obtain ⟨hbuffer, -, hback⟩ := happended (-9223372036854775808) (by decide) (.create "n=".toList)
  refine ⟨hbuffer, hback, (hread "-000".toList 0).1.2 ⟨by decide, ['-'], by decide, 2, rfl⟩⟩

end EglUtil
