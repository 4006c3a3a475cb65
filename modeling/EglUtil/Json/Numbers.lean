import EglUtil.Json.Decoding
import EglUtil.StringBuilder

/-!
# Numbers as integers

`to_number<I>` reads a number with `std::from_chars`, which knows other texts than the grammar
does: it takes leading zeros, and no fraction and no exponent.

**Theorem (`toNumber_emitted`).** On the text of a number that the parser emits, `to_number` for an
integer type gives a value exactly if the text is what `StringBuilder::append` writes for that
value, or minus zero for a signed type. And what is written for any value of the type is a document
of its own, which the parser emits as that number.

The texts of the grammar and those of `std::from_chars` meet in the spellings without leading
zeros.
-/

namespace EglUtil

namespace Json

/-! ## Bytes and characters -/

def charOf (b : UInt8) : Char := Char.ofNat b.toNat

def byteOf (c : Char) : UInt8 := UInt8.ofNat c.toNat

theorem toNat_charOf (b : UInt8) : (charOf b).toNat = b.toNat := by
  have hvalid : b.toNat.isValidChar := .inl (by have hlt := b.toNat_lt; omega)
  rw [charOf, Char.ofNat, dif_pos hvalid]
  rfl

theorem byteOf_charOf (b : UInt8) : byteOf (charOf b) = b := by
  rw [byteOf, toNat_charOf, UInt8.ofNat_toNat]

theorem charOf_injective : Function.Injective charOf :=
  Function.LeftInverse.injective byteOf_charOf

theorem charOf_byteOf {c : Char} (h : c.toNat < 256) : charOf (byteOf c) = c := by
  rw [charOf, byteOf, UInt8.toNat_ofNat', Nat.mod_eq_of_lt h, Char.ofNat_toNat]

theorem map_charOf_byteOf {text : List Char} (h : ∀ c ∈ text, c.toNat < 256) :
    (text.map byteOf).map charOf = text := by
  rw [List.map_map]
  exact (List.map_congr_left fun c hc => charOf_byteOf (h c hc)).trans (List.map_id text)

theorem isDigit_charOf (b : UInt8) : (charOf b).isDigit = isDigit b := by
  rw [Bool.eq_iff_iff]
  simp only [Char.isDigit, isDigit, ge_iff_le, Bool.and_eq_true, decide_eq_true_eq,
    UInt32.le_iff_toNat_le, UInt8.le_iff_toNat_le]
  show 48 ≤ (charOf b).toNat ∧ (charOf b).toNat ≤ 57 ↔ _
  rw [toNat_charOf]
  rfl

theorem toNat_lt_of_isDigit {c : Char} (h : c.isDigit = true) : c.toNat < 256 := by
  simp only [Char.isDigit, ge_iff_le, Bool.and_eq_true, decide_eq_true_eq,
    UInt32.le_iff_toNat_le] at h
  have hle : c.toNat ≤ 57 := h.2
  omega

/-! ## `to_number` -/

/-- `parse_arithmetic` and `to_number` for an integer type. -/
def toNumber (I : IntegerType) (literal : Bytes) : Option Int :=
  Cli.cliParseInteger I.least I.greatest (literal.map charOf)

/-- The bytes that `StringBuilder::append` writes. -/
def numberText (value : Int) : Bytes := (toChars value).map byteOf

theorem isDigit_toDigits (n : Nat) : ∀ c ∈ Nat.toDigits 10 n, c.isDigit = true :=
  List.all_eq_true.1 (Numerals.isNumeral_ten_iff.1 (Numerals.isNumeral_toDigits (by decide) n))

theorem map_charOf_numberText (value : Int) : (numberText value).map charOf = toChars value := by
  refine map_charOf_byteOf fun c hc => ?_
  rw [toChars_eq, List.mem_append] at hc
  rcases hc with hsign | hdigit
  · split_ifs at hsign with hneg
    · cases List.mem_singleton.1 hsign
      decide
    · cases hsign
  · exact toNat_lt_of_isDigit (isDigit_toDigits _ c hdigit)

theorem eq_of_map_charOf {b : Bytes} {text : List Char} (h : b.map charOf = text) :
    b = text.map byteOf := by
  rw [← h, List.map_map]
  exact ((List.map_congr_left fun c _ => byteOf_charOf c).trans (List.map_id b)).symm

/-- A text of digits behind a sign has no fraction and no exponent. -/
theorem Number.eq_sign_append {l : Bytes} (h : Number l) {sign digits : List Char}
    (hsign : sign = [] ∨ sign = ['-']) (hdigits : ∀ c ∈ digits, c.isDigit = true)
    (hl : l.map charOf = sign ++ digits) :
    ∃ int, Integer int ∧ l = sign.map byteOf ++ int ∧ int.map charOf = digits := by
  obtain ⟨sign', int, frac, exp, rfl, hsign', hint, hfrac, hexp⟩ := h
  have hmem : ∀ b ∈ sign' ++ (int ++ (frac ++ exp)),
      charOf b = '-' ∨ (charOf b).isDigit = true := by
    intro b hb
    have hchar := List.mem_map_of_mem (f := charOf) hb
    rw [hl, List.mem_append] at hchar
    rcases hchar with hminus | hdigit
    · rcases hsign with rfl | rfl
      · cases hminus
      · exact .inl (List.mem_singleton.1 hminus)
    · exact .inr (hdigits _ hdigit)
  have hnofrac : frac = [] := by
    refine hfrac.resolve_right ?_
    rintro ⟨ds, rfl, -⟩
    exact absurd (hmem point (by simp)) (by decide)
  have hnoexp : exp = [] := by
    refine hexp.resolve_right ?_
    rintro ⟨e, sign'', ds, rfl, rfl | rfl, -⟩
    · exact absurd (hmem lowerE (by simp)) (by decide)
    · exact absurd (hmem upperE (by simp)) (by decide)
  subst hnofrac hnoexp
  simp only [List.append_nil] at hl ⊢
  -- The first digit tells where the sign ends.
  have hfirst : ∃ d ds, int = d :: ds ∧ (charOf d).isDigit = true := by
    rcases hint with rfl | ⟨d, ds, rfl, hd, -⟩
    · exact ⟨zero, [], rfl, by decide⟩
    · exact ⟨d, ds, rfl, by rw [isDigit_charOf, hd]⟩
  obtain ⟨d, ds, hcons, hd⟩ := hfirst
  refine ⟨int, hint, ?_⟩
  rw [List.map_append] at hl
  rcases hsign' with rfl | rfl <;> rcases hsign with rfl | rfl
  · exact ⟨rfl, hl⟩
  · rw [hcons] at hl
    injection hl with hhead
    rw [hhead] at hd
    exact absurd hd (by decide)
  · cases digits with
    | nil => cases hl
    | cons c cs =>
      injection hl with hhead
      have hc := hdigits c List.mem_cons_self
      rw [← hhead] at hc
      exact absurd hc (by decide)
  · injection hl with hhead htail
    exact ⟨rfl, htail⟩

section Reading

variable {I : IntegerType} {l : Bytes} {value : Int}

/-- **The numbers that are read as an integer.** -/
theorem Number.toNumber_iff (h : Number l) :
    toNumber I l = some value ↔ I.Holds value ∧
      (l = numberText value ∨ l = [minus, zero] ∧ value = 0 ∧ I.signed = true) := by
  constructor
  · intro hread
    obtain ⟨hholds, sign, hsign, zeros, htext⟩ := Cli.cliParseInteger_iff.1 hread
    rw [IntegerType.mem_signs] at hsign
    refine ⟨hholds, ?_⟩
    have hdigits : ∀ c ∈ List.replicate zeros '0' ++ Nat.toDigits 10 value.natAbs,
        c.isDigit = true := by
      intro c hc
      rcases List.mem_append.1 hc with hc | hc
      · rw [List.eq_of_mem_replicate hc]
        rfl
      · exact isDigit_toDigits _ c hc
    obtain ⟨int, hint, rfl, hbody⟩ := h.eq_sign_append
      (hsign.imp (fun hplain => hplain.1) fun hminus => hminus.1) hdigits htext
    rcases hint with rfl | ⟨d, ds, rfl, hd, hne, -⟩
    · have hzero : value.natAbs = 0 := by
        rw [← Numerals.value_toDigits (b := 10) (by decide) (by decide) value.natAbs,
          ← Numerals.value_zeros_append 10 zeros, ← hbody]
        rfl
      obtain rfl : value = 0 := Int.natAbs_eq_zero.1 hzero
      rcases hsign with ⟨rfl, -⟩ | ⟨rfl, -, hsigned⟩
      · exact .inl rfl
      · exact .inr ⟨rfl, rfl, hsigned rfl⟩
    · -- No zero stands in front of the first digit.
      have hfirst : charOf d ≠ '0' := fun heq => hne (charOf_injective heq)
      have hzeros : zeros = 0 := by
        cases zeros with
        | zero => rfl
        | succ zeros =>
          injection hbody with hhead
          exact absurd hhead hfirst
      subst hzeros
      have hvalue : value ≠ 0 := by
        rintro rfl
        injection hbody with hhead
        exact absurd hhead hfirst
      left
      rw [eq_of_map_charOf hbody, numberText, toChars_eq, List.map_append]
      rcases hsign with ⟨rfl, hnonneg⟩ | ⟨rfl, hnonpos, -⟩
      · rw [if_neg (by omega)]
        rfl
      · rw [if_pos (by omega)]
        rfl
  · rintro ⟨hholds, rfl | ⟨rfl, rfl, hsigned⟩⟩
    · rw [toNumber, map_charOf_numberText]
      exact Cli.cliParseInteger_toChars hholds
    · refine Cli.cliParseInteger_iff.2 ⟨hholds, ['-'], ?_, 0, rfl⟩
      exact IntegerType.mem_signs.2 (.inr ⟨rfl, Int.le_refl 0, fun _ => hsigned⟩)

/-- What is written is a number. -/
theorem number_numberText (value : Int) : Number (numberText value) := by
  have hdigits : ∀ c ∈ Nat.toDigits 10 value.natAbs, isDigit (byteOf c) = true := by
    intro c hc
    have hdigit := isDigit_toDigits _ c hc
    rw [← isDigit_charOf, charOf_byteOf (toNat_lt_of_isDigit hdigit)]
    exact hdigit
  have hint : Integer ((Nat.toDigits 10 value.natAbs).map byteOf) := by
    by_cases hzero : value.natAbs = 0
    · rw [hzero]
      exact .inl rfl
    · have hhead := Numerals.head?_toDigits_ne (b := 10) (by decide) (by decide) hzero
      cases hcons : Nat.toDigits 10 value.natAbs with
      | nil => exact absurd hcons (by simp)
      | cons c cs =>
        rw [hcons] at hdigits hhead
        refine .inr ⟨byteOf c, cs.map byteOf, rfl, hdigits c List.mem_cons_self, ?_, ?_⟩
        · intro heq
          have hc : c.isDigit = true :=
            isDigit_toDigits _ c (by rw [hcons]; exact List.mem_cons_self)
          rw [← charOf_byteOf (toNat_lt_of_isDigit hc), heq] at hhead
          exact hhead rfl
        · exact List.forall_mem_map.2 fun c' hc' => hdigits c' (List.mem_cons_of_mem c hc')
  refine ⟨if value < 0 then [minus] else [], _, [], [], ?_, ?_, hint, .inl rfl, .inl rfl⟩
  · rw [numberText, toChars_eq, List.map_append, List.append_nil, List.append_nil]
    split_ifs <;> rfl
  · split_ifs
    · exact .inr rfl
    · exact .inl rfl

end Reading

/-! ## What the parser emits -/

/-- Every number event has the text of a number. -/
def NumbersOk (es : List JsonEvent) : Prop := ∀ e ∈ es, e.type = .number → Number e.text

theorem NumbersOk.append {es fs : List JsonEvent} (h : NumbersOk es) (h' : NumbersOk fs) :
    NumbersOk (es ++ fs) := by
  intro e he
  rcases List.mem_append.1 he with he | he
  · exact h e he
  · exact h' e he

theorem NumbersOk.cons {e : JsonEvent} {es : List JsonEvent} (h : NumbersOk es)
    (he : e.type ≠ .number) : NumbersOk (e :: es) :=
  List.forall_mem_cons.2 ⟨fun htype => absurd htype he, h⟩

theorem numbersOk_nil : NumbersOk [] := nofun

theorem Derives.numbersOk {ph : Phrase} {b : Bytes} (h : Derives ph b) : NumbersOk ph.events := by
  induction h with
  | null | boolean | string => exact numbersOk_nil.cons nofun
  | number hl => exact List.forall_mem_singleton.2 fun _ => hl
  | array _ ih =>
    have hclose : NumbersOk [⟨.endArray, []⟩] := numbersOk_nil.cons nofun
    exact (ih.append hclose).cons nofun
  | object _ ih =>
    have hclose : NumbersOk [⟨.endObject, []⟩] := numbersOk_nil.cons nofun
    exact (ih.append hclose).cons nofun
  | element _ _ _ ih => exact ih
  | noElements | noMembers => exact numbersOk_nil
  | firstElement _ ih => exact numbersOk_nil.append ih
  | nextElement _ _ ih ih' => exact ih.append ih'
  | firstMember _ _ ih => exact numbersOk_nil.append (ih.cons nofun)
  | nextMember _ _ _ ih ih' => exact ih.append (ih'.cons nofun)

theorem number_of_emitted {maxDepth : Nat} {s : Bytes} {n : Nat}
    (h : (emitted maxDepth s n).type = .number) : Number (emitted maxDepth s n).text := by
  rcases afterCalls_cases maxDepth s n with ⟨es, hrun⟩ | hstopped
  · have hproceeds : (emitted maxDepth s n).proceeds = true := by
      rw [JsonEvent.proceeds, h]
      rfl
    have hemitted := run_emitted hrun hproceeds
    obtain ⟨q, hstands⟩ := stands_of_run hemitted
    obtain ⟨before, rest, hcursor⟩ := hstands.cursor
    obtain ⟨t, v, hdoc, -, hes⟩ := hcursor.reads.viable
    rw [hstands.events] at hes
    have hv : NumbersOk v.events := Derives.numbersOk hdoc
    exact hv _ (hes.subset (List.mem_append_right _ List.mem_cons_self)) h
  · unfold emitted JsonParser.next at h
    cases hstate : (afterCalls maxDepth s n).state with
    | running => exact absurd hstate hstopped
    | finished | errored => simp [hstate] at h

/-- A number is a document of its own. -/
theorem Number.emitted_eq {l : Bytes} (h : Number l) (maxDepth : Nat) :
    emitted maxDepth l 0 = ⟨.number, l⟩ := by
  have hnothing : Whitespace [] := nofun
  have hdoc : Document (.number l) ([] ++ (l ++ [])) := .element hnothing (.number h) hnothing
  rw [List.nil_append, List.append_nil] at hdoc
  obtain ⟨p, hrun, -⟩ := @Document.accepts maxDepth _ _ hdoc (Nat.zero_le _)
  obtain ⟨p', hpull, -⟩ := (Transition.run_cons_eq_some _).1 hrun
  exact congrArg Prod.fst (pull_eq_some.1 hpull).1

/-- **Numbers as integers.** -/
theorem toNumber_emitted (I : IntegerType) :
    (∀ (maxDepth : Nat) (s : Bytes) (n : Nat), (emitted maxDepth s n).type = .number →
      ∀ value, toNumber I (emitted maxDepth s n).text = some value ↔ I.Holds value ∧
        ((emitted maxDepth s n).text = numberText value ∨
          (emitted maxDepth s n).text = [minus, zero] ∧ value = 0 ∧ I.signed = true)) ∧
    ∀ value, I.Holds value → ∀ maxDepth,
      ((StringBuilder.create []).appendInteger value).buffer.map byteOf = numberText value ∧
      emitted maxDepth (numberText value) 0 = ⟨.number, numberText value⟩ ∧
      toNumber I (numberText value) = some value := by
  refine ⟨fun maxDepth s n h value => (number_of_emitted h).toNumber_iff,
    fun value h maxDepth => ⟨?_, (number_numberText value).emitted_eq maxDepth, ?_⟩⟩
  · rw [StringBuilder.appendInteger_eq h]
    rfl
  · exact (number_numberText value).toNumber_iff.2 ⟨h, .inl rfl⟩

/-- `[7,-0]` -/
def minusZero : Bytes := [openBracket, 0x37, comma, minus, zero, closeBracket]

theorem toNumber_emitted_minusZero :
    emitted 64 minusZero 2 = ⟨.number, [minus, zero]⟩ ∧
      toNumber int64 [minus, zero] = some 0 ∧
      emitted 64 [0x37] 0 = ⟨.number, [0x37]⟩ ∧ toNumber int64 [0x37] = some 7 := by
  obtain ⟨hread, hwritten⟩ := toNumber_emitted int64
  have hzero := (hread 64 minusZero 2 rfl 0).2 ⟨by decide, .inr ⟨rfl, rfl, rfl⟩⟩
  obtain ⟨-, hseven, hback⟩ := hwritten 7 (by decide) 64
  exact ⟨rfl, hzero, hseven, hback⟩

end Json

end EglUtil
