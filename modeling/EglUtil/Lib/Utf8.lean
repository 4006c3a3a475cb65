import Mathlib.Algebra.Group.Nat.Defs
import Mathlib.Data.List.Basic
import Mathlib.Tactic.SplitIfs

/-!
# UTF-8

The encoding of a scalar value is `String.utf8EncodeChar`; a scalar value is a `Char`.

* `WellFormed`: the byte sequences that are UTF-8, as ranges of bytes. No overlong form, no
  surrogate and nothing above `0x10FFFF` is among them.
* `wellFormed_encode`: what is encoded is well-formed.
* `or_lead`, `or_tail`: the bytes of an encoding, as marks joined to bits by a bitwise or.
* `high`, `low`: the two surrogates of a scalar value that has more than 16 bits.
-/

namespace Utf8

/-! ## Well-formed sequences -/

/-- A byte that does not begin a sequence. -/
def Tail (b : UInt8) : Prop := 0x80 ≤ b.toNat ∧ b.toNat ≤ 0xBF

/-- The bytes of one scalar value. -/
inductive Sequence : List UInt8 → Prop where
  | one {a : UInt8} : a.toNat ≤ 0x7F → Sequence [a]
  /-- `0xC0` and `0xC1` would begin an overlong form. -/
  | two {a b : UInt8} : 0xC2 ≤ a.toNat → a.toNat ≤ 0xDF → Tail b → Sequence [a, b]
  /-- Behind `0xE0` a small byte would make an overlong form, behind `0xED` a great one would make
  a surrogate. -/
  | three {a b c : UInt8} : 0xE0 ≤ a.toNat → a.toNat ≤ 0xEF → Tail b → Tail c →
      (a.toNat = 0xE0 → 0xA0 ≤ b.toNat) → (a.toNat = 0xED → b.toNat ≤ 0x9F) → Sequence [a, b, c]
  /-- Behind `0xF0` a small byte would make an overlong form, behind `0xF4` a great one would go
  beyond the last scalar value. -/
  | four {a b c d : UInt8} : 0xF0 ≤ a.toNat → a.toNat ≤ 0xF4 → Tail b → Tail c → Tail d →
      (a.toNat = 0xF0 → 0x90 ≤ b.toNat) → (a.toNat = 0xF4 → b.toNat ≤ 0x8F) →
      Sequence [a, b, c, d]

/-- Sequences one behind the other. -/
inductive WellFormed : List UInt8 → Prop where
  | nil : WellFormed []
  | cons {s rest : List UInt8} : Sequence s → WellFormed rest → WellFormed (s ++ rest)

/-! ## What is encoded -/

theorem toNat_cases (c : Char) :
    c.toNat < 0xD800 ∨ (0xDFFF < c.toNat ∧ c.toNat < 0x110000) := c.valid

theorem tail_ofNat (n : Nat) : Tail (UInt8.ofNat (n % 0x40 + 0x80)) := by
  unfold Tail
  rw [UInt8.toNat_ofNat']
  omega

/-- **An encoded scalar value is a sequence.** By its number of bytes. -/
theorem sequence_encode (c : Char) : Sequence (String.utf8EncodeChar c) := by
  have hc := toNat_cases c
  unfold Char.toNat at hc
  unfold String.utf8EncodeChar
  generalize c.val.toNat = v at hc ⊢
  dsimp only
  split_ifs
  · refine .one ?_
    rw [UInt8.toNat_ofNat']
    omega
  · refine .two ?_ ?_ (tail_ofNat v)
    all_goals
      rw [UInt8.toNat_ofNat']
      omega
  · refine .three ?_ ?_ (tail_ofNat (v / 64)) (tail_ofNat v) ?_ ?_
    all_goals
      simp only [UInt8.toNat_ofNat']
      omega
  · refine .four ?_ ?_ (tail_ofNat (v / 4096)) (tail_ofNat (v / 64)) (tail_ofNat v) ?_ ?_
    all_goals
      simp only [UInt8.toNat_ofNat']
      omega

/-- **What is encoded is well-formed.** -/
theorem wellFormed_encode (cs : List Char) : WellFormed (cs.flatMap String.utf8EncodeChar) := by
  induction cs with
  | nil => exact .nil
  | cons c cs ih => exact .cons (sequence_encode c) ih

/-! ## Marks and bits -/

/-- A mark in front of the first bits. -/
theorem or_lead (mark bits shift : Nat) {v : Nat} (hv : v < 2 ^ (bits + shift)) :
    mark <<< bits ||| v >>> shift = v / 2 ^ shift % 2 ^ bits + mark <<< bits := by
  have hlt : v / 2 ^ shift < 2 ^ bits :=
    Nat.div_lt_of_lt_mul (by rwa [← Nat.pow_add, Nat.add_comm])
  rw [Nat.shiftRight_eq_div_pow, ← Nat.shiftLeft_add_eq_or_of_lt hlt, Nat.mod_eq_of_lt hlt,
    Nat.add_comm]

/-- The mark of a byte that does not begin a sequence. -/
theorem or_tail (v : Nat) : 0x80 ||| v &&& 0x3F = v % 0x40 + 0x80 := by
  have hmask : v &&& 0x3F = v % 0x40 := Nat.and_two_pow_sub_one_eq_mod v 6
  have hlt : v % 0x40 < 2 ^ 6 := Nat.mod_lt _ (by decide)
  rw [hmask, Nat.add_comm]
  exact (Nat.shiftLeft_add_eq_or_of_lt hlt 2).symm

/-! ## Surrogates -/

/-- The high surrogate of a scalar value. -/
def high (c : Char) : Nat := 0xD800 + (c.toNat - 0x10000) / 0x400

/-- The low surrogate of a scalar value. -/
def low (c : Char) : Nat := 0xDC00 + (c.toNat - 0x10000) % 0x400

theorem high_bounds {c : Char} : 0xD800 ≤ high c ∧ high c ≤ 0xDBFF := by
  have hc := toNat_cases c
  unfold high
  omega

theorem low_bounds {c : Char} : 0xDC00 ≤ low c ∧ low c ≤ 0xDFFF := by
  unfold low
  omega

/-- The pair is read back. -/
theorem join_surrogates {c : Char} (h : 0x10000 ≤ c.toNat) :
    0x10000 + (high c - 0xD800) <<< 10 + (low c - 0xDC00) = c.toNat := by
  unfold high low
  rw [Nat.shiftLeft_eq]
  omega

end Utf8
