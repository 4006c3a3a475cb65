import EglUtil.Json.Spelling

/-!
# The bytes that a string stands for

`Text text raw` says that `raw`, between the quotes, stands for the bytes `text`: plain bytes stand
for themselves, and an escape (or a surrogate pair of them) for the encoding of a scalar value.

**Theorem (`decodeString_eq_ok_iff`).** On the content of a string, `decode_string` gives the bytes
that it stands for, and fails where it stands for none.

Every byte string can be spelled (`text_escape`).
-/

namespace EglUtil

namespace Json

inductive Text : Bytes → Bytes → Prop where
  | nil : Text [] []
  | plain {c : UInt8} {text raw : Bytes} (hq : c ≠ quote) (hb : c ≠ backslash) (hc : 0x20 ≤ c)
      (h : Text text raw) : Text (c :: text) (c :: raw)
  | escaped {c : Char} {s text raw : Bytes} (hs : Spelling c (backslash :: s)) (h : Text text raw) :
      Text (String.utf8EncodeChar c ++ text) (backslash :: (s ++ raw))

/-! ## Hex digits -/

theorem hexDigit_of_read {d : Nat} {c : UInt8} (h : hexDigit? c = some d) : HexDigit d c := by
  have hc : c = UInt8.ofNat c.toNat := (UInt8.ofNat_toNat).symm
  unfold hexDigit? at h
  unfold HexDigit
  split_ifs at h with hdigit hlower hupper
  · have hsub := UInt8.toNat_sub_of_le _ _ hdigit.1
    have hbounds := And.intro (UInt8.le_iff_toNat_le.1 hdigit.1) (UInt8.le_iff_toNat_le.1 hdigit.2)
    cases h
    simp only [UInt8.reduceToNat] at hsub hbounds
    refine .inl ⟨by omega, ?_⟩
    rw [hsub, Nat.add_sub_cancel' hbounds.1]
    exact hc
  · have hsub := UInt8.toNat_sub_of_le _ _ hlower.1
    have hbounds := And.intro (UInt8.le_iff_toNat_le.1 hlower.1) (UInt8.le_iff_toNat_le.1 hlower.2)
    cases h
    simp only [UInt8.reduceToNat] at hsub hbounds
    refine .inr ⟨by omega, by omega, .inl ?_⟩
    rw [hsub, Nat.add_sub_cancel, Nat.add_sub_cancel' hbounds.1]
    exact hc
  · have hsub := UInt8.toNat_sub_of_le _ _ hupper.1
    have hbounds := And.intro (UInt8.le_iff_toNat_le.1 hupper.1) (UInt8.le_iff_toNat_le.1 hupper.2)
    cases h
    simp only [UInt8.reduceToNat] at hsub hbounds
    refine .inr ⟨by omega, by omega, .inr ?_⟩
    rw [hsub, Nat.add_sub_cancel, Nat.add_sub_cancel' hbounds.1]
    exact hc

theorem HexDigit.isHex {d : Nat} {c : UInt8} (h : HexDigit d c) : isHex c = true := by
  rcases h with ⟨hd, rfl⟩ | ⟨hge, hlt, rfl | rfl⟩
  all_goals
    interval_cases d
    all_goals rfl

/-- The four digits of an escape spell its code. -/
theorem Segment.hex4 {h₁ h₂ h₃ h₄ : UInt8} {code : Nat}
    (hvalid : (Segment.unicode h₁ h₂ h₃ h₄).Valid)
    (hcode : (Segment.unicode h₁ h₂ h₃ h₄).code? = some code) :
    Hex4 code [h₁, h₂, h₃, h₄] ∧ code < 0x10000 := by
  obtain ⟨hx₁, hx₂, hx₃, hx₄⟩ := hvalid
  obtain ⟨d₁, hd₁⟩ := hexDigit_of_isHex hx₁
  obtain ⟨d₂, hd₂⟩ := hexDigit_of_isHex hx₂
  obtain ⟨d₃, hd₃⟩ := hexDigit_of_isHex hx₃
  obtain ⟨d₄, hd₄⟩ := hexDigit_of_isHex hx₄
  have hlt₁ := hexDigit_lt hd₁
  have hlt₂ := hexDigit_lt hd₂
  have hlt₃ := hexDigit_lt hd₃
  have hlt₄ := hexDigit_lt hd₄
  simp only [Segment.code?, hd₁, hd₂, hd₃, hd₄, Option.getD_some, Option.some.injEq] at hcode
  have hsum : code = d₁ * 0x1000 + d₂ * 0x100 + d₃ * 0x10 + d₄ := by omega
  refine ⟨?_, by omega⟩
  rw [hsum]
  exact .mk (hexDigit_of_read hd₁) (hexDigit_of_read hd₂) (hexDigit_of_read hd₃)
    (hexDigit_of_read hd₄)

/-! ## A text is the content of a string -/

theorem Hex4.chars {v : Nat} {ds raw : Bytes} (h : Hex4 v ds) (hraw : Chars raw) :
    Chars (backslash :: lowerU :: (ds ++ raw)) := by
  cases h with
  | mk h₁ h₂ h₃ h₄ => exact .unicode h₁.isHex h₂.isHex h₃.isHex h₄.isHex hraw

theorem Spelling.chars {c : Char} {s t raw : Bytes} (h : Spelling c t) (ht : t = backslash :: s)
    (hraw : Chars raw) : Chars (t ++ raw) := by
  cases h with
  | bytes hplain =>
    rw [ht] at hplain
    exact absurd List.mem_cons_self hplain
  | @short e he =>
    exact .escape ((by decide : ∀ p ∈ shortEscapes, isShortEscape p.2 = true) _ he) hraw
  | unicode _ hds => exact hds.chars hraw
  | @pair hs ls _ hhs hls =>
    have hpair := hhs.chars (hls.chars hraw)
    rwa [List.cons_append, List.cons_append, List.append_assoc]

theorem Text.chars {text raw : Bytes} (h : Text text raw) : Chars raw := by
  induction h with
  | nil => exact .nil
  | plain hq hb hc _ ih => exact .plain hq hb hc ih
  | escaped hs _ ih => exact hs.chars rfl ih

/-! ## What stands for bytes is decoded -/

theorem decodeFrom_text {raw before text b : Bytes} {i rounds : Nat} (h : Text text b)
    (hat : At raw i before b) (hrounds : b.length ≤ rounds) (out : Bytes) :
    decodeFrom raw rounds i out = .ok (out ++ text) := by
  induction h generalizing i before rounds out with
  | nil =>
    have hend : ¬ i < raw.length := by
      rw [hat.split, hat.pos_eq, List.append_nil]
      exact Nat.lt_irrefl _
    rw [List.append_nil]
    cases rounds with
    | zero => rw [decodeFrom, if_neg hend]
    | succ rounds => rw [decodeFrom, if_neg hend]
  | @plain c text b _ hb _ _ ih =>
    rw [List.length_cons] at hrounds
    obtain ⟨rounds, rfl⟩ : ∃ k, rounds = k + 1 := ⟨rounds - 1, by omega⟩
    rw [decodeFrom_plain hat hb, ih hat.next (by omega), List.append_assoc]
    rfl
  | @escaped c s text b hs _ ih =>
    rw [← List.cons_append] at hat hrounds
    rw [List.length_append] at hrounds
    obtain ⟨n, hn, hdecode⟩ := hs.decodes hat
    obtain ⟨rounds, rfl⟩ : ∃ k, rounds = k + n := ⟨rounds - n, by omega⟩
    rw [hdecode, ih hat.advance (by omega), List.append_assoc]

theorem Text.decode {text raw : Bytes} (h : Text text raw) : decodeString raw = .ok text :=
  decodeFrom_text h (at_zero raw) (Nat.le_refl _) []

/-! ## What has no unpaired surrogate stands for bytes -/

theorem toNat_ofNat {n : Nat} (h : n < 0xD800 ∨ 0xDFFF < n ∧ n < 0x110000) :
    (Char.ofNat n).toNat = n := by
  rw [Char.ofNat, dif_pos h]
  rfl

theorem spelling_unicode {h₁ h₂ h₃ h₄ : UInt8} (hvalid : (Segment.unicode h₁ h₂ h₃ h₄).Valid)
    (hhigh : (Segment.unicode h₁ h₂ h₃ h₄).isHigh = false)
    (hlow : (Segment.unicode h₁ h₂ h₃ h₄).isLow = false) :
    ∃ c, Spelling c [backslash, lowerU, h₁, h₂, h₃, h₄] := by
  cases hcode : (Segment.unicode h₁ h₂ h₃ h₄).code? with
  | none => cases hcode
  | some code =>
    obtain ⟨hhex, hlt⟩ := Segment.hex4 hvalid hcode
    simp only [Segment.isHigh, Segment.isLow, hcode, Option.any_some, decide_eq_false_iff_not]
      at hhigh hlow
    have hc := toNat_ofNat (n := code) (by omega)
    exact ⟨Char.ofNat code, .unicode (by omega) (by rwa [hc])⟩

theorem spelling_pair {h₁ h₂ h₃ h₄ l₁ l₂ l₃ l₄ : UInt8}
    (hvalid : (Segment.unicode h₁ h₂ h₃ h₄).Valid) (hvalid' : (Segment.unicode l₁ l₂ l₃ l₄).Valid)
    (hhigh : (Segment.unicode h₁ h₂ h₃ h₄).isHigh = true)
    (hlow : (Segment.unicode l₁ l₂ l₃ l₄).isLow = true) :
    ∃ c, Spelling c
      [backslash, lowerU, h₁, h₂, h₃, h₄, backslash, lowerU, l₁, l₂, l₃, l₄] := by
  cases hcode : (Segment.unicode h₁ h₂ h₃ h₄).code? with
  | none => cases hcode
  | some high =>
    cases hcode' : (Segment.unicode l₁ l₂ l₃ l₄).code? with
    | none => cases hcode'
    | some low =>
      obtain ⟨hhex, -⟩ := Segment.hex4 hvalid hcode
      obtain ⟨hhex', -⟩ := Segment.hex4 hvalid' hcode'
      simp only [Segment.isHigh, Segment.isLow, hcode, hcode', Option.any_some,
        decide_eq_true_eq] at hhigh hlow
      obtain ⟨n, hn⟩ : ∃ n, n = 0x10000 + (high - 0xD800) * 0x400 + (low - 0xDC00) := ⟨_, rfl⟩
      have hc := toNat_ofNat (n := n) (by omega)
      have hfirst : Utf8.high (Char.ofNat n) = high := by
        rw [Utf8.high, hc]
        omega
      have hsecond : Utf8.low (Char.ofNat n) = low := by
        rw [Utf8.low, hc]
        omega
      rw [← hfirst] at hhex
      rw [← hsecond] at hhex'
      exact ⟨Char.ofNat n, .pair (by omega) hhex hhex'⟩

/-- What follows a segment is the content of a string as well. -/
theorem Chars.of_segment {g : Segment} {raw : Bytes} (hg : g.Valid) (h : Chars (g.bytes ++ raw)) :
    Chars raw := by
  cases g with
  | plain c =>
    cases h with
    | plain _ _ _ hraw => exact hraw
    | escape _ _ => exact absurd rfl hg
    | unicode _ _ _ _ _ => exact absurd rfl hg
  | escape e =>
    cases h with
    | plain _ hb _ _ => exact absurd rfl hb
    | escape _ hraw => exact hraw
    | unicode _ _ _ _ _ => cases hg
  | unicode h₁ h₂ h₃ h₄ =>
    cases h with
    | plain _ hb _ _ => exact absurd rfl hb
    | escape he _ => cases he
    | unicode _ _ _ _ hraw => exact hraw

theorem spelling_escape {e : UInt8} (he : isShortEscape e = true) :
    ∃ c, Spelling c [backslash, e] := by
  simp only [isShortEscape, Bool.or_eq_true, beq_iff_eq] at he
  rcases he with ((((((rfl | rfl) | rfl) | rfl) | rfl) | rfl) | rfl) | rfl
  · exact ⟨Char.ofNat 0x22, .short (by decide)⟩
  · exact ⟨Char.ofNat 0x5C, .short (by decide)⟩
  · exact ⟨Char.ofNat 0x2F, .short (by decide)⟩
  · exact ⟨Char.ofNat 0x08, .short (by decide)⟩
  · exact ⟨Char.ofNat 0x0C, .short (by decide)⟩
  · exact ⟨Char.ofNat 0x0A, .short (by decide)⟩
  · exact ⟨Char.ofNat 0x0D, .short (by decide)⟩
  · exact ⟨Char.ofNat 0x09, .short (by decide)⟩

/-- By induction on the number of segments, as a pair is two. -/
theorem text_of_paired (n : Nat) (gs : List Segment) (hn : gs.length < n)
    (hgs : ∀ g ∈ gs, g.Valid) (hchars : Chars (gs.flatMap Segment.bytes)) (h : ¬ Unpaired gs) :
    ∃ text, Text text (gs.flatMap Segment.bytes) := by
  induction n generalizing gs with
  | zero => exact absurd hn (Nat.not_lt_zero _)
  | succ n ih =>
    cases gs with
    | nil => exact ⟨[], .nil⟩
    | cons g gs =>
      have hg := hgs g List.mem_cons_self
      have hgs' : ∀ g ∈ gs, g.Valid := fun g hmem => hgs g (List.mem_cons_of_mem _ hmem)
      have hn' : gs.length < n := Nat.lt_of_succ_lt_succ hn
      rw [List.flatMap_cons] at hchars ⊢
      have hrest := hchars.of_segment hg
      cases g with
      | plain c =>
        rw [unpaired_cons_other rfl rfl] at h
        obtain ⟨text, htext⟩ := ih gs hn' hgs' hrest h
        generalize gs.flatMap Segment.bytes = raw at hchars htext ⊢
        cases hchars with
        | plain hq hb hc _ => exact ⟨c :: text, .plain hq hb hc htext⟩
        | escape _ _ => exact absurd rfl hg
        | unicode _ _ _ _ _ => exact absurd rfl hg
      | escape e =>
        rw [unpaired_cons_other rfl rfl] at h
        obtain ⟨text, htext⟩ := ih gs hn' hgs' hrest h
        obtain ⟨c, hc⟩ := spelling_escape hg
        exact ⟨_, .escaped hc htext⟩
      | unicode h₁ h₂ h₃ h₄ =>
        cases hlow : (Segment.unicode h₁ h₂ h₃ h₄).isLow with
        | true => exact absurd ⟨[], _, gs, rfl, .inr ⟨hlow, rfl⟩⟩ h
        | false =>
          cases hhigh : (Segment.unicode h₁ h₂ h₃ h₄).isHigh with
          | false =>
            rw [unpaired_cons_other hhigh hlow] at h
            obtain ⟨text, htext⟩ := ih gs hn' hgs' hrest h
            obtain ⟨c, hc⟩ := spelling_unicode hg hhigh hlow
            exact ⟨_, .escaped hc htext⟩
          | true =>
            cases hnext : gs.head?.any Segment.isLow with
            | false => exact absurd ⟨[], _, gs, rfl, .inl ⟨hhigh, hnext⟩⟩ h
            | true =>
              obtain ⟨l₁, l₂, l₃, l₄, gs, rfl, hlow'⟩ := exists_low hnext
              rw [unpaired_cons_pair hhigh hlow'] at h
              have hg' := hgs' _ List.mem_cons_self
              rw [List.flatMap_cons] at hrest
              obtain ⟨text, htext⟩ := ih gs (by rw [List.length_cons] at hn'; omega)
                (fun g hmem => hgs' g (List.mem_cons_of_mem _ hmem)) (hrest.of_segment hg') h
              obtain ⟨c, hc⟩ := spelling_pair hg hg' hhigh hlow'
              have hescaped := Text.escaped hc htext
              exact ⟨_, hescaped⟩

/-- **What `decode_string` decodes.** -/
theorem decodeString_eq_ok_iff {text raw : Bytes} (h : Chars raw) :
    decodeString raw = .ok text ↔ Text text raw := by
  constructor
  · intro hdecode
    obtain ⟨gs, hspells⟩ := h.spells
    have hpaired : ¬ Unpaired gs := by
      rcases decode_segments hspells with ⟨herror, -⟩ | ⟨-, hpaired⟩
      · rw [hdecode] at herror
        cases herror
      · exact hpaired
    obtain ⟨hgs, rfl⟩ := hspells
    obtain ⟨text', htext⟩ := text_of_paired (gs.length + 1) gs (Nat.lt_succ_self _) hgs h hpaired
    obtain rfl : text' = text := Except.ok.inj (htext.decode.symm.trans hdecode)
    exact htext
  · exact Text.decode

/-! ## Every byte string has a spelling -/

/-- The lower-case digit. -/
def hexByte (d : Nat) : UInt8 := UInt8.ofNat (if d < 10 then 0x30 + d else 0x61 + (d - 10))

/-- A byte between the quotes. -/
def escapeByte (c : UInt8) : Bytes :=
  if c = quote ∨ c = backslash then [backslash, c]
  else if c < 0x20 then
    [backslash, lowerU, zero, zero, hexByte (c.toNat / 16), hexByte (c.toNat % 16)]
  else [c]

theorem hexDigit_hexByte {d : Nat} (h : d < 16) : HexDigit d (hexByte d) := by
  unfold HexDigit hexByte
  split_ifs with hd
  · exact .inl ⟨hd, rfl⟩
  · exact .inr ⟨by omega, h, .inl rfl⟩

theorem text_escapeByte (c : UInt8) {text raw : Bytes} (h : Text text raw) :
    Text (c :: text) (escapeByte c ++ raw) := by
  unfold escapeByte
  split_ifs with hspecial hcontrol
  · rcases hspecial with rfl | rfl
    · exact .escaped (c := Char.ofNat 0x22) (s := [quote]) (.short (by decide)) h
    · exact .escaped (c := Char.ofNat 0x5C) (s := [backslash]) (.short (by decide)) h
  · have hlt : c.toNat < 32 := UInt8.lt_iff_toNat_lt.1 hcontrol
    have hc := toNat_ofNat (n := c.toNat) (by omega)
    have hbyte : String.utf8EncodeChar (Char.ofNat c.toNat) = [c] := by
      have hencode : String.utf8EncodeChar (Char.ofNat c.toNat) =
          [UInt8.ofNat (Char.ofNat c.toNat).toNat] := if_pos (by
        show (Char.ofNat c.toNat).toNat ≤ 127
        omega)
      rw [hencode, hc, UInt8.ofNat_toNat]
    have hhex : Hex4 (0 * 0x1000 + 0 * 0x100 + c.toNat / 16 * 0x10 + c.toNat % 16)
        [zero, zero, hexByte (c.toNat / 16), hexByte (c.toNat % 16)] :=
      .mk (.inl ⟨by decide, rfl⟩) (.inl ⟨by decide, rfl⟩) (hexDigit_hexByte (by omega))
        (hexDigit_hexByte (by omega))
    have hcode : 0 * 0x1000 + 0 * 0x100 + c.toNat / 16 * 0x10 + c.toNat % 16 =
        (Char.ofNat c.toNat).toNat := by omega
    rw [hcode] at hhex
    have hescaped := Text.escaped (.unicode (by omega) hhex) h
    rwa [hbyte] at hescaped
  · obtain ⟨hq, hb⟩ := not_or.1 hspecial
    exact .plain hq hb (UInt8.not_lt.1 hcontrol) h

theorem text_escape (text : Bytes) : Text text (text.flatMap escapeByte) := by
  induction text with
  | nil => exact .nil
  | cons c text ih => exact text_escapeByte c ih

end Json

end EglUtil
