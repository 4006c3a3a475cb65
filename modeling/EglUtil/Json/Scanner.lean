import Mathlib.Data.List.TakeWhile
import EglUtil.Json.Parser

/-!
# What the scanners accept, and where they give up

`At s pos before rest` splits the source at the cursor. For each scanner two facts are proved in
these terms: what it accepts is a token of the grammar and, if it gives up, what it had consumed
so far can be completed to one (`_spec`); and it accepts every token, up to its end (`_complete`).
-/

namespace EglUtil

namespace Json

/-- The cursor `pos` stands between `before` and `rest`. -/
structure At (s : Bytes) (pos : Nat) (before rest : Bytes) : Prop where
  split : s = before ++ rest
  pos_eq : pos = before.length

section Cursor

variable {s before rest : Bytes} {pos : Nat}

theorem at_zero (s : Bytes) : At s 0 [] s := ⟨rfl, rfl⟩

theorem At.drop (h : At s pos before rest) : s.drop pos = rest := by
  rw [h.split, h.pos_eq, List.drop_left]

theorem At.take (h : At s pos before rest) : s.take pos = before := by
  rw [h.split, h.pos_eq, List.take_left]

theorem At.le (h : At s pos before rest) : pos ≤ s.length := by
  rw [h.split, h.pos_eq, List.length_append]
  exact Nat.le_add_right _ _

theorem At.getElem? (h : At s pos before rest) : s[pos]? = rest.head? := by
  rw [← h.drop, List.head?_drop]

theorem At.peek (h : At s pos before rest) : peek s pos = rest.head?.getD 0 := by
  rw [Json.peek, h.getElem?]

theorem At.advance {a b : Bytes} (h : At s pos before (a ++ b)) :
    At s (pos + a.length) (before ++ a) b :=
  ⟨by rw [h.split, List.append_assoc], by rw [h.pos_eq, List.length_append]⟩

theorem At.next {c : UInt8} {b : Bytes} (h : At s pos before (c :: b)) :
    At s (pos + 1) (before ++ [c]) b :=
  h.advance (a := [c])

/-- The byte under the cursor, if it is not the terminator that `peek` invents. -/
theorem At.of_peek {c : UInt8} (h : At s pos before rest) (hp : Json.peek s pos = c) (hc : c ≠ 0) :
    ∃ rest', rest = c :: rest' := by
  rw [h.peek] at hp
  cases rest with
  | nil => exact absurd hp.symm hc
  | cons d rest' => exact ⟨rest', by rw [← hp]; rfl⟩

/-- Nothing more of the kind `p` follows. -/
def StopsAt (p : UInt8 → Bool) (rest : Bytes) : Prop := ∀ c, rest.head? = some c → p c = false

theorem takeWhile_append_of_stopsAt {p : UInt8 → Bool} {w : Bytes} (hw : ∀ c ∈ w, p c = true)
    (hrest : StopsAt p rest) : (w ++ rest).takeWhile p = w := by
  induction w with
  | nil =>
    cases rest with
    | nil => rfl
    | cons c rest => simp [hrest c rfl]
  | cons c w ih =>
    rw [List.cons_append, List.takeWhile_cons_of_pos (hw c List.mem_cons_self),
      ih fun d hd => hw d (List.mem_cons_of_mem _ hd)]

theorem stopsAt_dropWhile (p : UInt8 → Bool) (rest : Bytes) : StopsAt p (rest.dropWhile p) := by
  induction rest with
  | nil => nofun
  | cons c rest ih =>
    by_cases hc : p c = true
    · rwa [List.dropWhile_cons_of_pos hc]
    · rw [List.dropWhile_cons_of_neg hc]
      intro d hd
      cases hd
      exact Bool.eq_false_iff.2 hc

/-- A loop that skips bytes of the kind `p` skips all of them. -/
theorem At.skip (p : UInt8 → Bool) (h : At s pos before rest) :
    ∃ w rest', rest = w ++ rest' ∧ (∀ c ∈ w, p c = true) ∧ StopsAt p rest' ∧
      At s (pos + ((s.drop pos).takeWhile p).length) (before ++ w) rest' := by
  refine ⟨rest.takeWhile p, rest.dropWhile p, List.takeWhile_append_dropWhile.symm,
    fun c hc => List.mem_takeWhile_imp hc, stopsAt_dropWhile p rest, ?_⟩
  rw [h.drop]
  refine At.advance ?_
  rwa [List.takeWhile_append_dropWhile]

theorem At.skip_eq {p : UInt8 → Bool} {w : Bytes} (h : At s pos before (w ++ rest))
    (hw : ∀ c ∈ w, p c = true) (hrest : StopsAt p rest) :
    At s (pos + ((s.drop pos).takeWhile p).length) (before ++ w) rest := by
  rw [h.drop, takeWhile_append_of_stopsAt hw hrest]
  exact h.advance

end Cursor

/-! ## Giving up half-way -/

/-- A scanner of the tokens `T`, at `pos` with `rest` ahead: it answers with the end of a token, or
gives up at a point where what it has read can still become one. -/
def Consumes (T : Bytes → Prop) (rest : Bytes) (pos : Nat) : Except Failure Nat → Prop
  | .ok pos' => ∃ tok tail, rest = tok ++ tail ∧ T tok ∧ pos' = pos + tok.length
  | .error f =>
    ∃ part fin tail, rest = part ++ tail ∧ f.offset = pos + part.length ∧ T (part ++ fin)

/-- A token of `T`, then one of `U`. -/
def Seq (T U : Bytes → Prop) (b : Bytes) : Prop := ∃ x y, b = x ++ y ∧ T x ∧ U y

section Consumes

variable {T U : Bytes → Prop} {rest : Bytes} {pos : Nat}

theorem Consumes.mono {r : Except Failure Nat} (hTU : ∀ b, T b → U b)
    (h : Consumes T rest pos r) : Consumes U rest pos r := by
  cases r with
  | ok pos' =>
    obtain ⟨tok, tail, hrest, htok, hpos⟩ := h
    exact ⟨tok, tail, hrest, hTU _ htok, hpos⟩
  | error f =>
    obtain ⟨part, fin, tail, hrest, hoff, hpart⟩ := h
    exact ⟨part, fin, tail, hrest, hoff, hTU _ hpart⟩

/-- Read a `T`, then go on with a scanner of `U`. -/
theorem Consumes.seq {x tail : Bytes} {r : Except Failure Nat} (hrest : rest = x ++ tail)
    (hx : T x) (h : Consumes U tail (pos + x.length) r) : Consumes (Seq T U) rest pos r := by
  subst hrest
  cases r with
  | ok pos' =>
    obtain ⟨y, tail', htail, hy, hpos⟩ := h
    refine ⟨x ++ y, tail', by rw [htail, List.append_assoc], ⟨x, y, rfl, hx, hy⟩, ?_⟩
    rw [hpos, List.length_append, Nat.add_assoc]
  | error f =>
    obtain ⟨part, fin, tail', htail, hoff, hpart⟩ := h
    refine ⟨x ++ part, fin, tail', by rw [htail, List.append_assoc],
      by rw [hoff, List.length_append, Nat.add_assoc], x, part ++ fin, ?_, hx, hpart⟩
    rw [List.append_assoc]

/-- Where the first scanner gives up, the second token can be chosen freely. -/
theorem Consumes.seq_error {y : Bytes} {f : Failure} (hy : U y)
    (h : Consumes T rest pos (.error f)) : Consumes (Seq T U) rest pos (.error f) := by
  obtain ⟨part, fin, tail, hrest, hoff, hpart⟩ := h
  exact ⟨part, fin ++ y, tail, hrest, hoff, part ++ fin, y, (List.append_assoc _ _ _).symm, hpart,
    hy⟩

end Consumes

/-! ## Strings -/

theorem Chars.unicode_append {ds cs : Bytes} (hlen : ds.length = 4)
    (hds : ∀ c ∈ ds, isHex c = true) (hcs : Chars cs) :
    Chars (backslash :: lowerU :: (ds ++ cs)) := by
  match ds, hlen with
  | [_, _, _, _], _ =>
    simp only [List.mem_cons, List.not_mem_nil, or_false, forall_eq_or_imp, forall_eq] at hds
    exact .unicode hds.1 hds.2.1 hds.2.2.1 hds.2.2.2 hcs

section Strings

variable {s before rest : Bytes} {pos : Nat}

/-- The escape after a backslash: with any further content it is content of a string. -/
def EscapeTail (esc : Bytes) : Prop := ∀ cs, Chars cs → Chars (backslash :: (esc ++ cs))

theorem escapeTail_short {e : UInt8} (he : isShortEscape e = true) : EscapeTail [e] :=
  fun _ hcs => .escape he hcs

theorem escapeTail_unicode {ds : Bytes} (hlen : ds.length = 4) (hds : ∀ c ∈ ds, isHex c = true) :
    EscapeTail (lowerU :: ds) :=
  fun _ hcs => .unicode_append hlen hds hcs

/-- Hex digits that a `\\u` still lacks, as zeros. -/
theorem hex_pad {ds : Bytes} (hlen : ds.length ≤ 4) (hds : ∀ c ∈ ds, isHex c = true) :
    EscapeTail (lowerU :: (ds ++ List.replicate (4 - ds.length) zero)) := by
  refine escapeTail_unicode ?_ ?_
  · rw [List.length_append, List.length_replicate]
    omega
  · intro c hc
    rcases List.mem_append.1 hc with hc | hc
    · exact hds c hc
    · rw [List.eq_of_mem_replicate hc]
      decide

theorem validateEscape_spec (h : At s pos before (backslash :: rest)) :
    Consumes (fun b => ∃ esc, b = backslash :: esc ∧ EscapeTail esc) (backslash :: rest) pos
      (validateEscape s pos) := by
  have hshort : EscapeTail [lowerN] := escapeTail_short (by decide)
  unfold validateEscape
  rw [h.next.getElem?]
  cases rest with
  | nil => exact ⟨[], _, _, rfl, rfl, _, rfl, hshort⟩
  | cons c rest =>
    dsimp only [List.head?_cons]
    by_cases hc : isShortEscape c = true
    · rw [if_pos hc]
      exact ⟨[backslash, c], rest, rfl, ⟨_, rfl, escapeTail_short hc⟩, rfl⟩
    · rw [if_neg hc]
      by_cases hu : c = lowerU
      · subst hu
        rw [if_pos rfl, h.next.next.drop]
        -- the digits that are there, and what follows the first byte that is not one
        have hds : ∀ c ∈ (rest.take 4).takeWhile isHex, isHex c = true :=
          fun c hc => List.mem_takeWhile_imp hc
        have hlen : ((rest.take 4).takeWhile isHex).length ≤ 4 :=
          Nat.le_trans (List.takeWhile_prefix _).length_le (List.length_take_le _ _)
        obtain ⟨tail, htail⟩ := (List.takeWhile_prefix isHex).trans (List.take_prefix 4 rest)
        generalize (rest.take 4).takeWhile isHex = ds at hds hlen htail
        subst htail
        by_cases h4 : ds.length = 4
        · rw [if_pos h4]
          refine ⟨backslash :: lowerU :: ds, tail, rfl, ⟨_, rfl, escapeTail_unicode h4 hds⟩, ?_⟩
          simp only [List.length_cons, h4]
        · rw [if_neg h4]
          refine ⟨backslash :: lowerU :: ds, _, tail, rfl, ?_, _, rfl, hex_pad hlen hds⟩
          simp only [List.length_cons]
          omega
      · rw [if_neg hu]
        exact ⟨[backslash], _, _, rfl, rfl, _, rfl, hshort⟩

/-- The loop of `scan_string` answers with the closing quote, or it gives up at the opening quote or
at a point where what it has read can still become the content of a string. -/
def ScansChars (openQuote : Nat) (rest : Bytes) (pos : Nat) : Except Failure Nat → Prop
  | .ok close => ∃ raw tail, rest = raw ++ quote :: tail ∧ Chars raw ∧ close = pos + raw.length
  | .error f => f.offset = openQuote ∨ Consumes Chars rest pos (.error f)

/-- A round that reads `x` and goes on. -/
theorem ScansChars.round {openQuote : Nat} {x tail : Bytes} {r : Except Failure Nat}
    (hx : ∀ cs, Chars cs → Chars (x ++ cs)) (h : ScansChars openQuote tail (pos + x.length) r) :
    ScansChars openQuote (x ++ tail) pos r := by
  cases r with
  | ok close =>
    obtain ⟨raw, tail', rfl, hraw, hclose⟩ := h
    refine ⟨x ++ raw, tail', (List.append_assoc _ _ _).symm, hx raw hraw, ?_⟩
    rw [hclose, List.length_append, Nat.add_assoc]
  | error f =>
    rcases h with h | ⟨part, fin, tail', rfl, hoff, hpart⟩
    · exact .inl h
    · refine .inr ⟨x ++ part, fin, tail', (List.append_assoc _ _ _).symm, ?_, ?_⟩
      · rw [hoff, List.length_append, Nat.add_assoc]
      · rw [List.append_assoc]
        exact hx _ hpart

theorem scanStringFrom_spec (openQuote rounds : Nat) (h : At s pos before rest) :
    ScansChars openQuote rest pos (scanStringFrom s openQuote rounds pos) := by
  induction rounds generalizing pos before rest with
  | zero => exact .inl rfl
  | succ rounds ih =>
    unfold scanStringFrom
    rw [h.getElem?]
    cases rest with
    | nil => exact .inl rfl
    | cons c rest =>
      dsimp only [List.head?_cons]
      by_cases hq : c = quote
      · subst hq
        rw [if_pos rfl]
        exact ⟨[], rest, rfl, .nil, rfl⟩
      rw [if_neg hq]
      by_cases hb : c = backslash
      · subst hb
        rw [if_pos rfl]
        have hesc := validateEscape_spec h
        generalize validateEscape s pos = r at hesc
        cases r with
        | error f =>
          obtain ⟨part, fin, tail, hrest, hoff, esc, hpart, htail⟩ := hesc
          refine .inr ⟨part, fin, tail, hrest, hoff, ?_⟩
          rw [hpart, ← List.append_nil esc]
          exact htail [] .nil
        | ok pos' =>
          obtain ⟨x, tail, hrest, ⟨esc, rfl, htail⟩, rfl⟩ := hesc
          rw [hrest] at h ⊢
          exact ScansChars.round htail (ih h.advance)
      · rw [if_neg hb]
        by_cases hc : c < 0x20
        · rw [if_pos hc]
          exact .inr ⟨[], [], _, rfl, rfl, .nil⟩
        · rw [if_neg hc]
          refine ScansChars.round (x := [c]) (fun cs hcs => ?_) (ih h.next)
          exact .plain hq hb (UInt8.not_lt.1 hc) hcs

/-- The bytes of a string with the content `raw`. -/
def StringToken (raw tok : Bytes) : Prop := Chars raw ∧ tok = quote :: (raw ++ [quote])

theorem StringToken.length {raw tok : Bytes} (h : StringToken raw tok) :
    tok.length = raw.length + 2 := by
  rw [h.2, List.length_cons, List.length_append, List.length_singleton]

/-- The slice of the source from `pos` on that has the length of `raw`. -/
theorem take_content (raw tail : Bytes) (pos : Nat) :
    (raw ++ tail).take (pos + raw.length - pos) = raw := by
  rw [Nat.add_sub_cancel_left, List.take_left]

/-- A scanner that answers with a text and the position after the token: the token, of the kind
`T`, has that text, or what was read can still become such a token. -/
def Scans (T : Bytes → Bytes → Prop) (rest : Bytes) (pos : Nat) :
    Except Failure (Bytes × Nat) → Prop
  | .ok (text, pos') => ∃ tok tail, rest = tok ++ tail ∧ T text tok ∧ pos' = pos + tok.length
  | .error f => ∃ text part fin tail, rest = part ++ tail ∧ f.offset = pos + part.length ∧
      T text (part ++ fin)

theorem scanString_spec (h : At s pos before (quote :: rest)) :
    Scans StringToken (quote :: rest) pos (scanString s pos) := by
  unfold scanString
  have hscan := scanStringFrom_spec pos s.length h.next
  rw [h.next.drop]
  generalize scanStringFrom s pos s.length (pos + 1) = r at hscan
  cases r with
  | error f =>
    rcases hscan with hoff | ⟨part, fin, tail, rfl, hoff, hpart⟩
    · exact ⟨[], [], _, _, rfl, hoff, .nil, rfl⟩
    · refine ⟨part ++ fin, quote :: part, fin ++ [quote], tail, rfl, ?_, hpart, by simp⟩
      rw [hoff, List.length_cons]
      omega
  | ok close =>
    obtain ⟨raw, tail, rfl, hraw, rfl⟩ := hscan
    have htok : StringToken raw (quote :: (raw ++ [quote])) := ⟨hraw, rfl⟩
    refine ⟨quote :: (raw ++ [quote]), tail, by simp, ?_, ?_⟩
    · rwa [take_content]
    · rw [htok.length]
      omega

theorem validateEscape_short {e : UInt8} (he : isShortEscape e = true)
    (h : At s pos before (backslash :: e :: rest)) : validateEscape s pos = .ok (pos + 2) := by
  unfold validateEscape
  rw [h.next.getElem?]
  exact if_pos he

theorem validateEscape_unicode (ds : Bytes) (hlen : ds.length = 4)
    (hds : ∀ c ∈ ds, isHex c = true) (h : At s pos before (backslash :: lowerU :: (ds ++ rest))) :
    validateEscape s pos = .ok (pos + 6) := by
  have htake : (ds ++ rest).take 4 = ds := by rw [← hlen, List.take_left]
  unfold validateEscape
  rw [h.next.getElem?, h.next.next.drop, htake, List.takeWhile_eq_self_iff.2 hds]
  dsimp only [List.head?_cons]
  rw [if_neg (by decide), if_pos rfl, if_pos hlen]

/-- A round at a backslash. -/
theorem scanStringFrom_escape {rounds pos' : Nat} (openQuote : Nat)
    (h : At s pos before (backslash :: rest)) (hesc : validateEscape s pos = .ok pos') :
    scanStringFrom s openQuote (rounds + 1) pos = scanStringFrom s openQuote rounds pos' := by
  rw [scanStringFrom, h.getElem?, hesc]
  rfl

/-- Each round consumes a byte, so the rounds do not run out before the closing quote. -/
theorem scanStringFrom_complete {raw : Bytes} (openQuote : Nat) (hraw : Chars raw) {rounds : Nat}
    (hrounds : raw.length < rounds) (h : At s pos before (raw ++ quote :: rest)) :
    scanStringFrom s openQuote rounds pos = .ok (pos + raw.length) := by
  induction hraw generalizing rounds pos before with
  | nil =>
    obtain ⟨rounds, rfl⟩ := Nat.exists_eq_succ_of_ne_zero (Nat.ne_zero_of_lt hrounds)
    unfold scanStringFrom
    rw [h.getElem?]
    rfl
  | @plain c cs hq hb hc hcs ih =>
    obtain ⟨rounds, rfl⟩ := Nat.exists_eq_succ_of_ne_zero (Nat.ne_zero_of_lt hrounds)
    unfold scanStringFrom
    rw [h.getElem?]
    dsimp only [List.cons_append, List.head?_cons]
    rw [if_neg hq, if_neg hb, if_neg (UInt8.not_lt.2 hc), ih (by simpa using hrounds) h.next,
      List.length_cons, Nat.add_assoc, Nat.add_comm 1]
  | @escape e cs he hcs ih =>
    obtain ⟨rounds, rfl⟩ := Nat.exists_eq_succ_of_ne_zero (Nat.ne_zero_of_lt hrounds)
    rw [scanStringFrom_escape openQuote h (validateEscape_short he h),
      ih (by simp only [List.length_cons] at hrounds; omega) h.next.next]
    refine congrArg Except.ok ?_
    simp only [List.length_cons]
    omega
  | @unicode h₁ h₂ h₃ h₄ cs hx₁ hx₂ hx₃ hx₄ hcs ih =>
    obtain ⟨rounds, rfl⟩ := Nat.exists_eq_succ_of_ne_zero (Nat.ne_zero_of_lt hrounds)
    have hesc : validateEscape s pos = .ok (pos + 6) :=
      validateEscape_unicode [h₁, h₂, h₃, h₄] rfl (by simp [hx₁, hx₂, hx₃, hx₄]) h
    rw [scanStringFrom_escape openQuote h hesc,
      ih (by simp only [List.length_cons] at hrounds; omega) h.next.next.next.next.next.next]
    refine congrArg Except.ok ?_
    simp only [List.length_cons]
    omega

theorem scanString_complete {raw tok : Bytes} (htok : StringToken raw tok)
    (h : At s pos before (tok ++ rest)) : scanString s pos = .ok (raw, pos + tok.length) := by
  obtain ⟨hraw, rfl⟩ := htok
  have hopen : At s (pos + 1) (before ++ [quote]) (raw ++ quote :: rest) := by
    simpa using h.next
  have hlen : raw.length < s.length := by
    rw [hopen.split]
    simp only [List.length_append, List.length_cons]
    omega
  have hend : pos + 1 + raw.length + 1 = pos + (quote :: (raw ++ [quote])).length := by
    rw [StringToken.length ⟨hraw, rfl⟩]
    omega
  unfold scanString
  rw [scanStringFrom_complete pos hraw hlen hopen, hopen.drop]
  dsimp only
  rw [take_content, hend]

end Strings

/-! ## Numbers -/

section Numbers

variable {s before rest : Bytes} {pos : Nat}

theorem skipDigits_spec (h : At s pos before rest) :
    ∃ ds tail, rest = ds ++ tail ∧ Digits ds ∧ StopsAt isDigit tail ∧
      skipDigits s pos = pos + ds.length := by
  obtain ⟨ds, tail, hrest, hds, htail, h'⟩ := h.skip isDigit
  refine ⟨ds, tail, hrest, hds, htail, ?_⟩
  have hpos := h'.pos_eq
  rwa [List.length_append, ← h.pos_eq] at hpos

/-- The digits that a `peek` has announced. -/
theorem skipDigits_ne_nil (h : At s pos before rest) (hd : isDigit (peek s pos) = true) :
    ∃ d ds tail, rest = d :: (ds ++ tail) ∧ peek s pos = d ∧ isDigit d = true ∧ Digits ds ∧
      skipDigits s pos = pos + (d :: ds).length := by
  obtain ⟨ds, tail, hrest, hds, htail, hpos⟩ := skipDigits_spec h
  rw [h.peek, hrest] at hd
  cases ds with
  | nil =>
    cases tail with
    | nil => exact absurd hd (by decide)
    | cons c tail => exact absurd (htail c rfl) (by simpa using hd)
  | cons d ds =>
    refine ⟨d, ds, tail, hrest, by rw [h.peek, hrest]; rfl, hds d List.mem_cons_self, ?_, hpos⟩
    exact fun c hc => hds c (List.mem_cons_of_mem _ hc)

theorem integer_zero : Integer [zero] := .inl rfl

theorem scanInteger_spec (h : At s pos before rest) :
    Consumes Integer rest pos (scanInteger s pos) := by
  unfold scanInteger
  by_cases hz : peek s pos = zero
  · obtain ⟨tail, rfl⟩ := h.of_peek hz (by decide)
    rw [if_pos hz]
    exact ⟨[zero], tail, rfl, integer_zero, rfl⟩
  · rw [if_neg hz]
    by_cases hd : isDigit (peek s pos) = true
    · rw [if_pos hd]
      obtain ⟨d, ds, tail, rfl, hpeek, hdig, hds, hpos⟩ := skipDigits_ne_nil h hd
      rw [hpeek] at hz
      exact ⟨d :: ds, tail, rfl, .inr ⟨d, ds, rfl, hdig, hz, hds⟩, hpos⟩
    · rw [if_neg hd]
      exact ⟨[], [zero], rest, rfl, rfl, integer_zero⟩

theorem digits_zero : Digits [zero] := by
  intro c hc
  rw [List.mem_singleton.1 hc]
  decide

theorem scanFraction_spec (h : At s pos before rest) :
    Consumes Fraction rest pos (scanFraction s pos) := by
  unfold scanFraction
  by_cases hp : peek s pos = point
  · obtain ⟨rest, rfl⟩ := h.of_peek hp (by decide)
    rw [if_pos hp]
    by_cases hd : isDigit (peek s (pos + 1)) = true
    · rw [if_pos hd]
      obtain ⟨d, ds, tail, rfl, -, hdig, hds, hpos⟩ := skipDigits_ne_nil h.next hd
      refine ⟨point :: d :: ds, tail, rfl, .inr ⟨d :: ds, rfl, List.cons_ne_nil _ _, ?_⟩, ?_⟩
      · exact List.forall_mem_cons.2 ⟨hdig, hds⟩
      · rw [hpos]
        simp only [List.length_cons]
        omega
    · rw [if_neg hd]
      exact ⟨[point], [zero], rest, rfl, rfl, .inr ⟨[zero], rfl, by decide, digits_zero⟩⟩
  · rw [if_neg hp]
    exact ⟨[], rest, rfl, .inl rfl, rfl⟩

/-- The optional sign of an exponent. -/
theorem sign_spec (h : At s pos before rest) :
    ∃ sign tail, rest = sign ++ tail ∧ Sign sign ∧
      (if peek s pos = plus ∨ peek s pos = minus then pos + 1 else pos) = pos + sign.length := by
  by_cases hp : peek s pos = plus
  · obtain ⟨tail, rfl⟩ := h.of_peek hp (by decide)
    exact ⟨[plus], tail, rfl, .inr (.inl rfl), if_pos (.inl hp)⟩
  by_cases hm : peek s pos = minus
  · obtain ⟨tail, rfl⟩ := h.of_peek hm (by decide)
    exact ⟨[minus], tail, rfl, .inr (.inr rfl), if_pos (.inr hm)⟩
  · exact ⟨[], rest, rfl, .inl rfl, if_neg (not_or.2 ⟨hp, hm⟩)⟩

theorem scanExponent_spec (h : At s pos before rest) :
    Consumes Exponent rest pos (scanExponent s pos) := by
  unfold scanExponent
  by_cases he : peek s pos = lowerE ∨ peek s pos = upperE
  · obtain ⟨e, rest', rfl, hmark⟩ : ∃ e rest', rest = e :: rest' ∧ (e = lowerE ∨ e = upperE) := by
      rcases he with he | he
      · obtain ⟨rest', hrest⟩ := h.of_peek he (by decide)
        exact ⟨_, rest', hrest, .inl rfl⟩
      · obtain ⟨rest', hrest⟩ := h.of_peek he (by decide)
        exact ⟨_, rest', hrest, .inr rfl⟩
    rw [if_pos he]
    obtain ⟨sign, tail, rfl, hsign, hpos⟩ := sign_spec h.next
    have hstart : At s (pos + 1 + sign.length) (before ++ [e] ++ sign) tail := h.next.advance
    dsimp only
    rw [hpos]
    by_cases hd : isDigit (peek s (pos + 1 + sign.length)) = true
    · rw [if_pos hd]
      obtain ⟨d, ds, tail, rfl, -, hdig, hds, hend⟩ := skipDigits_ne_nil hstart hd
      refine ⟨e :: (sign ++ (d :: ds)), tail, by simp, .inr ⟨e, sign, d :: ds, rfl, hmark, hsign,
        List.cons_ne_nil _ _, List.forall_mem_cons.2 ⟨hdig, hds⟩⟩, ?_⟩
      rw [hend]
      simp only [List.length_append, List.length_cons]
      omega
    · rw [if_neg hd]
      refine ⟨e :: sign, [zero], tail, rfl, ?_, .inr ⟨e, sign, [zero], rfl, hmark, hsign,
        by decide, digits_zero⟩⟩
      rw [List.length_cons, Nat.add_assoc, Nat.add_comm 1]
  · rw [if_neg he]
    exact ⟨[], rest, rfl, .inl rfl, rfl⟩

theorem exponent_nil : Exponent [] := .inl rfl

theorem scanNumber_spec (h : At s pos before rest) :
    Consumes Number rest pos (scanNumber s pos) := by
  have hfrac : Seq Fraction Exponent [] := ⟨[], [], rfl, .inl rfl, exponent_nil⟩
  obtain ⟨sign, tail, rfl, hsign, hpos⟩ : ∃ sign tail, rest = sign ++ tail ∧
      (sign = [] ∨ sign = [minus]) ∧
      (if peek s pos = minus then pos + 1 else pos) = pos + sign.length := by
    by_cases hm : peek s pos = minus
    · obtain ⟨tail, rfl⟩ := h.of_peek hm (by decide)
      exact ⟨[minus], tail, rfl, .inr rfl, if_pos hm⟩
    · exact ⟨[], rest, rfl, .inl rfl, if_neg hm⟩
  unfold scanNumber
  rw [hpos]
  refine Consumes.mono (T := Seq (fun b => b = [] ∨ b = [minus])
    (Seq Integer (Seq Fraction Exponent))) ?_ (Consumes.seq rfl hsign ?_)
  · rintro _ ⟨sign, _, rfl, hsign, int, _, rfl, hint, frac, exp, rfl, hfrac, hexp⟩
    exact ⟨sign, int, frac, exp, rfl, hsign, hint, hfrac, hexp⟩
  have hint := scanInteger_spec h.advance
  generalize scanInteger s (pos + sign.length) = r at hint
  cases r with
  | error f => exact hint.seq_error hfrac
  | ok pos₁ =>
    obtain ⟨int, tail, rfl, hint, rfl⟩ := hint
    refine Consumes.seq rfl hint ?_
    dsimp only
    have hfrac := scanFraction_spec h.advance.advance
    generalize scanFraction s (pos + sign.length + int.length) = r at hfrac
    cases r with
    | error f => exact hfrac.seq_error exponent_nil
    | ok pos₂ =>
      obtain ⟨frac, tail, rfl, hfrac, rfl⟩ := hfrac
      exact Consumes.seq rfl hfrac (scanExponent_spec h.advance.advance.advance)

/-- No byte follows that would make a number longer. -/
def NumberEnds (rest : Bytes) : Prop :=
  ∀ c, rest.head? = some c → isDigit c = false ∧ c ≠ point ∧ c ≠ lowerE ∧ c ≠ upperE

theorem NumberEnds.stopsAt (h : NumberEnds rest) : StopsAt isDigit rest := fun c hc => (h c hc).1

theorem NumberEnds.peek_ne {c : UInt8} (hrest : NumberEnds rest) (h : At s pos before rest)
    (hc : c = point ∨ c = lowerE ∨ c = upperE) : peek s pos ≠ c := by
  intro hp
  have h0 : c ≠ 0 := by rcases hc with rfl | rfl | rfl <;> decide
  obtain ⟨tail, rfl⟩ := h.of_peek hp h0
  obtain ⟨-, h₁, h₂, h₃⟩ := hrest c rfl
  rcases hc with rfl | rfl | rfl
  · exact h₁ rfl
  · exact h₂ rfl
  · exact h₃ rfl

theorem skipDigits_complete {ds : Bytes} (hds : Digits ds) (hrest : StopsAt isDigit rest)
    (h : At s pos before (ds ++ rest)) : skipDigits s pos = pos + ds.length := by
  unfold skipDigits
  rw [h.drop, takeWhile_append_of_stopsAt hds hrest]

theorem peek_cons {c : UInt8} (h : At s pos before (c :: rest)) : peek s pos = c := by
  rw [h.peek]
  rfl

theorem scanInteger_complete {int : Bytes} (hint : Integer int) (hrest : StopsAt isDigit rest)
    (h : At s pos before (int ++ rest)) : scanInteger s pos = .ok (pos + int.length) := by
  unfold scanInteger
  rcases hint with rfl | ⟨d, ds, rfl, hdig, hz, hds⟩
  · rw [if_pos (peek_cons h)]
    rfl
  · rw [peek_cons h, if_neg hz, if_pos hdig,
      skipDigits_complete (List.forall_mem_cons.2 ⟨hdig, hds⟩) hrest h]

/-- The loop over the digits that `peek` has announced. -/
theorem digits_complete {ds : Bytes} (hne : ds ≠ []) (hds : Digits ds)
    (hrest : StopsAt isDigit rest) (h : At s pos before (ds ++ rest)) :
    isDigit (peek s pos) = true ∧ skipDigits s pos = pos + ds.length := by
  obtain ⟨d, ds, rfl⟩ := List.exists_cons_of_ne_nil hne
  refine ⟨?_, skipDigits_complete hds hrest h⟩
  rw [peek_cons h]
  exact hds d List.mem_cons_self

theorem scanFraction_complete {frac : Bytes} (hfrac : Fraction frac)
    (hrest : StopsAt isDigit rest) (hp : ∀ c, rest.head? = some c → c ≠ point)
    (h : At s pos before (frac ++ rest)) : scanFraction s pos = .ok (pos + frac.length) := by
  unfold scanFraction
  rcases hfrac with rfl | ⟨ds, rfl, hne, hds⟩
  · refine if_neg fun hpeek => ?_
    obtain ⟨tail, rfl⟩ := At.of_peek h hpeek (by decide)
    exact hp point rfl rfl
  · obtain ⟨hd, hpos⟩ := digits_complete hne hds hrest h.next
    rw [if_pos (peek_cons h), if_pos hd, hpos, List.length_cons, Nat.add_assoc, Nat.add_comm 1]

theorem sign_complete {sign ds : Bytes} (hsign : Sign sign) (hne : ds ≠ []) (hds : Digits ds)
    (h : At s pos before (sign ++ (ds ++ rest))) :
    (if peek s pos = plus ∨ peek s pos = minus then pos + 1 else pos) = pos + sign.length := by
  rcases hsign with rfl | rfl | rfl
  · obtain ⟨d, ds, rfl⟩ := List.exists_cons_of_ne_nil hne
    have hdig : isDigit d = true := hds d List.mem_cons_self
    rw [peek_cons h]
    refine if_neg (not_or.2 ⟨?_, ?_⟩)
    · rintro rfl
      exact absurd hdig (by decide)
    · rintro rfl
      exact absurd hdig (by decide)
  · exact if_pos (.inl (peek_cons h))
  · exact if_pos (.inr (peek_cons h))

theorem scanExponent_complete {exp : Bytes} (hexp : Exponent exp) (hrest : NumberEnds rest)
    (h : At s pos before (exp ++ rest)) : scanExponent s pos = .ok (pos + exp.length) := by
  unfold scanExponent
  rcases hexp with rfl | ⟨e, sign, ds, rfl, hmark, hsign, hne, hds⟩
  · refine if_neg (not_or.2 ⟨?_, ?_⟩)
    · exact hrest.peek_ne h (.inr (.inl rfl))
    · exact hrest.peek_ne h (.inr (.inr rfl))
  · have hstart : At s (pos + 1) (before ++ [e]) (sign ++ (ds ++ rest)) := by
      simpa using h.next
    obtain ⟨hd, hpos⟩ := digits_complete hne hds hrest.stopsAt hstart.advance
    rw [if_pos (by rwa [peek_cons h])]
    dsimp only
    rw [sign_complete hsign hne hds hstart, if_pos hd, hpos]
    refine congrArg Except.ok ?_
    simp only [List.length_append, List.length_cons]
    omega

theorem Exponent.head {exp : Bytes} (hexp : Exponent exp) (hrest : NumberEnds rest) {c : UInt8}
    (hc : (exp ++ rest).head? = some c) : isDigit c = false ∧ c ≠ point := by
  rcases hexp with rfl | ⟨e, sign, ds, rfl, hmark, -⟩
  · obtain ⟨hd, hp, -⟩ := hrest c hc
    exact ⟨hd, hp⟩
  · cases hc
    rcases hmark with rfl | rfl <;> decide

theorem Fraction.head {frac exp : Bytes} (hfrac : Fraction frac) (hexp : Exponent exp)
    (hrest : NumberEnds rest) : StopsAt isDigit (frac ++ (exp ++ rest)) := by
  intro c hc
  rcases hfrac with rfl | ⟨ds, rfl, -⟩
  · exact (hexp.head hrest hc).1
  · cases hc
    decide

/-- **Maximal munch.** `scan_number` reads all of a number that no byte makes longer. -/
theorem scanNumber_complete {l : Bytes} (hl : Number l) (hrest : NumberEnds rest)
    (h : At s pos before (l ++ rest)) : scanNumber s pos = .ok (pos + l.length) := by
  obtain ⟨sign, int, frac, exp, rfl, hsign, hint, hfrac, hexp⟩ := hl
  simp only [List.append_assoc] at h
  have hminus : (if peek s pos = minus then pos + 1 else pos) = pos + sign.length := by
    rcases hsign with rfl | rfl
    · refine if_neg fun hp => ?_
      obtain ⟨tail, htail⟩ := h.of_peek hp (by decide)
      rcases hint with rfl | ⟨d, ds, rfl, hdig, -⟩
      · cases htail
      · cases htail
        exact absurd hdig (by decide)
    · exact if_pos (peek_cons h)
  have hstop : StopsAt isDigit (exp ++ rest) := fun c hc => (hexp.head hrest hc).1
  unfold scanNumber
  rw [hminus, scanInteger_complete hint (hfrac.head hexp hrest) h.advance]
  dsimp only
  rw [scanFraction_complete hfrac hstop (fun c hc => (hexp.head hrest hc).2) h.advance.advance]
  dsimp only
  rw [scanExponent_complete hexp hrest h.advance.advance.advance]
  simp only [List.length_append, Nat.add_assoc]

end Numbers

/-! ## Literals -/

theorem scanLiteral_spec {s before rest : Bytes} {pos : Nat} (literal : Bytes)
    (h : At s pos before rest) :
    Consumes (fun b => b = literal) rest pos (scanLiteral s pos literal) := by
  unfold scanLiteral
  rw [h.drop]
  by_cases hp : literal.isPrefixOf rest = true
  · obtain ⟨tail, rfl⟩ := List.isPrefixOf_iff_prefix.1 hp
    rw [if_pos hp]
    exact ⟨literal, tail, rfl, rfl, rfl⟩
  · rw [if_neg hp]
    exact ⟨[], literal, rest, rfl, rfl, rfl⟩

theorem scanLiteral_complete {s before rest : Bytes} {pos : Nat} (literal : Bytes)
    (h : At s pos before (literal ++ rest)) :
    scanLiteral s pos literal = .ok (pos + literal.length) := by
  unfold scanLiteral
  rw [h.drop]
  exact if_pos (List.isPrefixOf_iff_prefix.2 (List.prefix_append _ _))

end Json

end EglUtil
