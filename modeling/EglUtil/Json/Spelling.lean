import EglUtil.Json.Decoding
import EglUtil.Lib.Utf8
import Mathlib.Tactic.IntervalCases

/-!
# What a spelling decodes to

The same text can be spelled in many ways between the quotes: as bytes, with short escapes, and
with `\u` escapes in hex digits of either case.

**Theorem (`decode_spelled`).** However the scalar values of a list are spelled, `decode_string`
yields the UTF-8 encoding of the list, and this is well-formed UTF-8.

The proof follows the decoder along the list. One scalar value costs the decoder no more rounds
than it has bytes (`Decodes`), for each way of spelling it; so the rounds suffice for the whole
list (`decodeFrom_spelled`).
-/

namespace EglUtil

namespace Json

/-! ## Spellings -/

/-- The digit is written as this byte, in lower or upper case. -/
def HexDigit (d : Nat) (c : UInt8) : Prop :=
  (d < 10 ∧ c = UInt8.ofNat (0x30 + d)) ∨
    (10 ≤ d ∧ d < 16 ∧ (c = UInt8.ofNat (0x61 + (d - 10)) ∨ c = UInt8.ofNat (0x41 + (d - 10))))

instance (d : Nat) (c : UInt8) : Decidable (HexDigit d c) :=
  inferInstanceAs (Decidable (_ ∨ _))

/-- Four digits spell the number. -/
inductive Hex4 : Nat → Bytes → Prop where
  | mk {d₁ d₂ d₃ d₄ : Nat} {h₁ h₂ h₃ h₄ : UInt8} : HexDigit d₁ h₁ → HexDigit d₂ h₂ →
      HexDigit d₃ h₃ → HexDigit d₄ h₄ →
      Hex4 (d₁ * 0x1000 + d₂ * 0x100 + d₃ * 0x10 + d₄) [h₁, h₂, h₃, h₄]

/-- The scalar values that have a short escape, each with the byte behind the backslash. -/
def shortEscapes : List (Nat × UInt8) :=
  [(0x22, 0x22), (0x5C, 0x5C), (0x2F, 0x2F), (0x08, 0x62), (0x0C, 0x66), (0x0A, 0x6E),
    (0x0D, 0x72), (0x09, 0x74)]

/-- A way to spell the scalar value between the quotes. -/
inductive Spelling (c : Char) : Bytes → Prop where
  | bytes : backslash ∉ String.utf8EncodeChar c → Spelling c (String.utf8EncodeChar c)
  | short {e : UInt8} : (c.toNat, e) ∈ shortEscapes → Spelling c [backslash, e]
  | unicode {ds : Bytes} : c.toNat < 0x10000 → Hex4 c.toNat ds →
      Spelling c (backslash :: lowerU :: ds)
  | pair {hs ls : Bytes} : 0x10000 ≤ c.toNat → Hex4 (Utf8.high c) hs → Hex4 (Utf8.low c) ls →
      Spelling c (backslash :: lowerU :: (hs ++ backslash :: lowerU :: ls))

/-! ## Digits -/

theorem HexDigit.read {d : Nat} {c : UInt8} (h : HexDigit d c) : hexDigit? c = some d := by
  rcases h with ⟨hd, rfl⟩ | ⟨hge, hlt, rfl | rfl⟩
  all_goals
    interval_cases d
    all_goals rfl

section Cursor

variable {raw before rest : Bytes} {i : Nat}

theorem Hex4.read {v : Nat} {ds : Bytes} (h : Hex4 v ds) (hat : At raw i before (ds ++ rest)) :
    readHex4 raw i = .ok (v, i + 4) := by
  cases h with
  | @mk d₁ d₂ d₃ d₄ _ _ _ _ hd₁ hd₂ hd₃ hd₄ =>
    have hvalue : ((d₁ * 16 + d₂) * 16 + d₃) * 16 + d₄ =
        d₁ * 0x1000 + d₂ * 0x100 + d₃ * 0x10 + d₄ := by omega
    rw [readHex4_digits hat hd₁.read hd₂.read hd₃.read hd₄.read, hvalue]

theorem Hex4.length_eq {v : Nat} {ds : Bytes} (h : Hex4 v ds) : ds.length = 4 := by
  cases h
  rfl

/-! ## The encoder -/

/-- **The encoder encodes.** By the number of bytes, of which each is a mark joined to bits. -/
theorem appendUtf8_eq (out : Bytes) (c : Char) :
    appendUtf8 out c.toNat = out ++ String.utf8EncodeChar c := by
  have hc := Utf8.toNat_cases c
  unfold Char.toNat at hc
  unfold appendUtf8 String.utf8EncodeChar Char.toNat
  generalize c.val.toNat = v at hc ⊢
  dsimp only
  split_ifs
  · rfl
  · have hlead : 0xC0 ||| v >>> 6 = v / 64 % 0x20 + 0xC0 := Utf8.or_lead 6 5 6 (by omega)
    rw [hlead, Utf8.or_tail]
  · have hlead : 0xE0 ||| v >>> 12 = v / 4096 % 0x10 + 0xE0 := Utf8.or_lead 14 4 12 (by omega)
    rw [hlead, Utf8.or_tail, Utf8.or_tail, Nat.shiftRight_eq_div_pow]
  · have hlead : 0xF0 ||| v >>> 18 = v / 262144 % 0x08 + 0xF0 := Utf8.or_lead 30 3 18 (by omega)
    rw [hlead, Utf8.or_tail, Utf8.or_tail, Utf8.or_tail, Nat.shiftRight_eq_div_pow,
      Nat.shiftRight_eq_div_pow]

/-! ## The decoder on one spelling -/

/-- The decoder reads these bytes as the scalar value, and no more rounds than bytes. -/
def Decodes (raw : Bytes) (i : Nat) (c : Char) (s : Bytes) : Prop :=
  ∃ n ≤ s.length, ∀ rounds out, decodeFrom raw (rounds + n) i out =
    decodeFrom raw rounds (i + s.length) (out ++ String.utf8EncodeChar c)

/-- Bytes without a backslash are copied. -/
theorem decodeFrom_copies {s : Bytes} (hs : backslash ∉ s) (hat : At raw i before (s ++ rest))
    (rounds : Nat) (out : Bytes) :
    decodeFrom raw (rounds + s.length) i out = decodeFrom raw rounds (i + s.length) (out ++ s) := by
  induction s generalizing i before out with
  | nil => rw [List.append_nil]; rfl
  | cons b s ih =>
    have hb : b ≠ backslash := (List.ne_of_not_mem_cons hs).symm
    have hpos : i + 1 + s.length = i + (s.length + 1) := by omega
    rw [List.length_cons, ← Nat.add_assoc, decodeFrom_plain hat hb,
      ih (List.not_mem_of_not_mem_cons hs) hat.next, hpos, List.append_assoc]
    rfl

theorem decodes_short {c : Char} {e : UInt8} (he : (c.toNat, e) ∈ shortEscapes)
    (hat : At raw i before (backslash :: e :: rest)) : Decodes raw i c [backslash, e] := by
  have hesc : shortEscape? e = some (UInt8.ofNat c.toNat) ∧ c.toNat ≤ 0x7F :=
    (by decide : ∀ p ∈ shortEscapes, shortEscape? p.2 = some (UInt8.ofNat p.1) ∧ p.1 ≤ 0x7F) _ he
  have hbyte : String.utf8EncodeChar c = [UInt8.ofNat c.toNat] := if_pos hesc.2
  refine ⟨1, Nat.succ_le_succ (Nat.zero_le 1), fun rounds out => ?_⟩
  rw [decodeFrom_backslash hat, hesc.1, hbyte]
  rfl

theorem decodes_unicode {c : Char} {ds : Bytes} (hc : c.toNat < 0x10000) (hds : Hex4 c.toNat ds)
    (hat : At raw i before (backslash :: lowerU :: (ds ++ rest))) :
    Decodes raw i c (backslash :: lowerU :: ds) := by
  have hcases := Utf8.toNat_cases c
  have hhigh : ¬ (0xD800 ≤ c.toNat ∧ c.toNat ≤ 0xDBFF) := by omega
  have hlow : ¬ (0xDC00 ≤ c.toNat ∧ c.toNat ≤ 0xDFFF) := by omega
  have hcode : decodeUnicode raw (i + 2) = .ok (c.toNat, i + 2 + 4) :=
    decodeUnicode_single (hds.read hat.next.next) hhigh hlow
  refine ⟨1, Nat.succ_le_succ (Nat.zero_le _), fun rounds out => ?_⟩
  rw [decodeFrom_unicode hat, hcode, ok_bind, appendUtf8_eq, List.length_cons, List.length_cons,
    hds.length_eq]

/-- The pair is one code point. -/
theorem decodes_pair {c : Char} {hs ls : Bytes} (hc : 0x10000 ≤ c.toNat)
    (hhs : Hex4 (Utf8.high c) hs) (hls : Hex4 (Utf8.low c) ls)
    (hat : At raw i before (backslash :: lowerU :: (hs ++ backslash :: lowerU :: (ls ++ rest)))) :
    Decodes raw i c (backslash :: lowerU :: (hs ++ backslash :: lowerU :: ls)) := by
  have hsecond := hat.next.next.advance
  rw [hhs.length_eq] at hsecond
  have hcode : decodeUnicode raw (i + 2) = .ok (c.toNat, i + 2 + 4 + 2 + 4) := by
    rw [decodeUnicode_double (hhs.read hat.next.next) Utf8.high_bounds hsecond
      (hls.read hsecond.next.next) Utf8.low_bounds, Utf8.join_surrogates hc]
  refine ⟨1, Nat.succ_le_succ (Nat.zero_le _), fun rounds out => ?_⟩
  have hlength : (backslash :: lowerU :: (hs ++ backslash :: lowerU :: ls)).length = 12 := by
    simp only [List.length_cons, List.length_append, hhs.length_eq, hls.length_eq]
  rw [decodeFrom_unicode hat, hcode, ok_bind, appendUtf8_eq, hlength]

theorem Spelling.decodes {c : Char} {s : Bytes} (h : Spelling c s)
    (hat : At raw i before (s ++ rest)) : Decodes raw i c s := by
  cases h with
  | bytes hplain => exact ⟨_, Nat.le_refl _, decodeFrom_copies hplain hat⟩
  | short he => exact decodes_short he hat
  | unicode hc hds => exact decodes_unicode hc hds hat
  | pair hc hhs hls =>
    rw [List.cons_append, List.cons_append, List.append_assoc] at hat
    exact decodes_pair hc hhs hls hat

/-! ## The decoder on a list -/

/-- **The decoder follows the list.** By induction on it, with as many rounds as bytes. -/
theorem decodeFrom_spelled {cs : List Char} {ss : List Bytes} (h : List.Forall₂ Spelling cs ss)
    (hat : At raw i before ss.flatten) {rounds : Nat} (hrounds : ss.flatten.length ≤ rounds)
    (out : Bytes) :
    decodeFrom raw rounds i out = .ok (out ++ cs.flatMap String.utf8EncodeChar) := by
  induction h generalizing i before rounds out with
  | nil =>
    have hend : ¬ i < raw.length := by
      rw [hat.split, hat.pos_eq, List.flatten_nil, List.append_nil]
      exact Nat.lt_irrefl _
    rw [List.flatMap_nil, List.append_nil]
    cases rounds with
    | zero => rw [decodeFrom, if_neg hend]
    | succ rounds => rw [decodeFrom, if_neg hend]
  | @cons c s cs ss hc _ ih =>
    rw [List.flatten_cons] at hat
    rw [List.flatten_cons, List.length_append] at hrounds
    obtain ⟨n, hn, hdecode⟩ := hc.decodes hat
    obtain ⟨rounds, rfl⟩ : ∃ k, rounds = k + n := ⟨rounds - n, by omega⟩
    rw [hdecode, ih hat.advance (by omega), List.append_assoc, List.flatMap_cons]

end Cursor

/-! ## The theorem -/

/-- **What is decoded does not depend on the spelling.** -/
theorem decode_spelled (cs : List Char) (ss : List Bytes) (h : List.Forall₂ Spelling cs ss) :
    decodeString ss.flatten = .ok (cs.flatMap String.utf8EncodeChar) ∧
      Utf8.WellFormed (cs.flatMap String.utf8EncodeChar) :=
  ⟨decodeFrom_spelled h (at_zero _) (Nat.le_refl _) [], Utf8.wellFormed_encode cs⟩

/-- An accented letter, a character beyond 16 bits, and a quote. -/
def mixedText : List Char := [Char.ofNat 0xE9, Char.ofNat 0x1F600, Char.ofNat 0x22]

/-- Its spelling as bytes, as `\uD83d\udE00`, and as a short escape. -/
def mixedSpelling : List Bytes :=
  [[0xC3, 0xA9],
    [0x5C, 0x75, 0x44, 0x38, 0x33, 0x64, 0x5C, 0x75, 0x64, 0x45, 0x30, 0x30],
    [0x5C, 0x22]]

theorem decode_spelled_mixed :
    decodeString mixedSpelling.flatten = .ok [0xC3, 0xA9, 0xF0, 0x9F, 0x98, 0x80, 0x22] ∧
      Utf8.WellFormed [0xC3, 0xA9, 0xF0, 0x9F, 0x98, 0x80, 0x22] := by
  have hhigh : Hex4 (Utf8.high (Char.ofNat 0x1F600)) [0x44, 0x38, 0x33, 0x64] :=
    @Hex4.mk 13 8 3 13 _ _ _ _ (by decide) (by decide) (by decide) (by decide)
  have hlow : Hex4 (Utf8.low (Char.ofNat 0x1F600)) [0x64, 0x45, 0x30, 0x30] :=
    @Hex4.mk 13 14 0 0 _ _ _ _ (by decide) (by decide) (by decide) (by decide)
  have hletter : Spelling (Char.ofNat 0xE9) [0xC3, 0xA9] := .bytes (by decide)
  have hquote : Spelling (Char.ofNat 0x22) [0x5C, 0x22] := .short (by decide)
  have hpair := Spelling.pair (by decide) hhigh hlow
  have hspelled : List.Forall₂ Spelling mixedText mixedSpelling :=
    .cons hletter (.cons hpair (.cons hquote .nil))
  exact decode_spelled mixedText mixedSpelling hspelled

end Json

end EglUtil
