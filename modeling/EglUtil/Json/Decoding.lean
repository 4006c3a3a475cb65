import EglUtil.Json.Correctness

/-!
# `decode_string`

The raw text of a key or a string is decoded on demand, by a scanner of its own: it cuts the text
into plain bytes, two-byte escapes and six-byte `\u` escapes, and joins surrogate pairs.

**Theorem (`decode_emitted`).** On the text of an event that the parser emits, `decode_string`
fails exactly if the text has an unpaired surrogate escape, and it reads no byte outside the text.

What the parser emits is `Chars`, and so can be cut into segments. `decode_segments` follows the
decoder along any such cut: the decoder finds the same segments, and gives up at the first
surrogate that has no partner.
-/

namespace EglUtil

namespace Json

/-! ## The decoder -/

/-- Why there is no decoded text: `decode_string` returned false, or it read a byte that is not
part of the text, or it had not come to its end when the rounds were used up. -/
inductive Fault where
  | malformed
  | outside
  | unfinished
deriving Repr, DecidableEq

/-- `raw[i]` -/
def byteAt (raw : Bytes) (i : Nat) : Except Fault UInt8 :=
  match raw[i]? with
  | some c => .ok c
  | none => .error .outside

def hexDigit? (c : UInt8) : Option Nat :=
  if 0x30 ≤ c ∧ c ≤ 0x39 then some (c - 0x30).toNat
  else if 0x61 ≤ c ∧ c ≤ 0x66 then some ((c - 0x61).toNat + 10)
  else if 0x41 ≤ c ∧ c ≤ 0x46 then some ((c - 0x41).toNat + 10)
  else none

/-- The loop of `read_hex4`: so many more digits at `i`, after those that make up `value`. -/
def readHexDigits (raw : Bytes) : Nat → Nat → Nat → Except Fault (Nat × Nat)
  | 0, i, value => .ok (value, i)
  | digits + 1, i, value => do
    let c ← byteAt raw i
    match hexDigit? c with
    | some d => readHexDigits raw digits (i + 1) (value <<< 4 ||| d)
    | none => .error .malformed

/-- Four hex digits at `i`: their value, and the index behind them. -/
def readHex4 (raw : Bytes) (i : Nat) : Except Fault (Nat × Nat) :=
  if i + 4 > raw.length then .error .malformed else readHexDigits raw 4 i 0

def appendUtf8 (out : Bytes) (code : Nat) : Bytes :=
  if code ≤ 0x7F then out ++ [UInt8.ofNat code]
  else if code ≤ 0x7FF then
    out ++ [UInt8.ofNat (0xC0 ||| code >>> 6), UInt8.ofNat (0x80 ||| code &&& 0x3F)]
  else if code ≤ 0xFFFF then
    out ++ [UInt8.ofNat (0xE0 ||| code >>> 12), UInt8.ofNat (0x80 ||| code >>> 6 &&& 0x3F),
      UInt8.ofNat (0x80 ||| code &&& 0x3F)]
  else
    out ++ [UInt8.ofNat (0xF0 ||| code >>> 18), UInt8.ofNat (0x80 ||| code >>> 12 &&& 0x3F),
      UInt8.ofNat (0x80 ||| code >>> 6 &&& 0x3F), UInt8.ofNat (0x80 ||| code &&& 0x3F)]

/-- What a two-byte escape stands for. -/
def shortEscape? (esc : UInt8) : Option UInt8 :=
  if esc = quote then some quote
  else if esc = backslash then some backslash
  else if esc = 0x2F then some 0x2F
  else if esc = 0x62 then some 0x08
  else if esc = 0x66 then some 0x0C
  else if esc = 0x6E then some 0x0A
  else if esc = 0x72 then some 0x0D
  else if esc = 0x74 then some 0x09
  else none

/-- The case of `\u`, with `i` behind the `u`: the code point, and the index behind the escape or
the pair of escapes. -/
def decodeUnicode (raw : Bytes) (i : Nat) : Except Fault (Nat × Nat) := do
  let (code, i) ← readHex4 raw i
  if 0xD800 ≤ code ∧ code ≤ 0xDBFF then
    if i + 1 ≥ raw.length then .error .malformed
    else
      let c ← byteAt raw i
      if c ≠ backslash then .error .malformed
      else
        let u ← byteAt raw (i + 1)
        if u ≠ lowerU then .error .malformed
        else
          let (low, i) ← readHex4 raw (i + 2)
          if low < 0xDC00 ∨ low > 0xDFFF then .error .malformed
          else .ok (0x10000 + (code - 0xD800) <<< 10 + (low - 0xDC00), i)
  else if 0xDC00 ≤ code ∧ code ≤ 0xDFFF then .error .malformed
  else .ok (code, i)

/-- The loop of `decode_string`. Each round consumes a byte, so there are at most as many rounds
(the first number) as bytes. -/
def decodeFrom (raw : Bytes) : Nat → Nat → Bytes → Except Fault Bytes
  | 0, i, out => if i < raw.length then .error .unfinished else .ok out
  | rounds + 1, i, out =>
    if i < raw.length then do
      let c ← byteAt raw i
      if c ≠ backslash then decodeFrom raw rounds (i + 1) (out ++ [c])
      else if i + 1 ≥ raw.length then .error .malformed
      else
        let esc ← byteAt raw (i + 1)
        match shortEscape? esc with
        | some b => decodeFrom raw rounds (i + 2) (out ++ [b])
        | none =>
          if esc = lowerU then
            let (code, i) ← decodeUnicode raw (i + 2)
            decodeFrom raw rounds i (appendUtf8 out code)
          else .error .malformed
    else .ok out

def decodeString (raw : Bytes) : Except Fault Bytes := decodeFrom raw raw.length 0 []

/-! ## Segments -/

/-- A plain byte, a two-byte escape, or a six-byte `\u` escape. -/
inductive Segment where
  | plain (c : UInt8)
  | escape (e : UInt8)
  | unicode (h₁ h₂ h₃ h₄ : UInt8)
deriving Repr, DecidableEq

namespace Segment

def bytes : Segment → Bytes
  | .plain c => [c]
  | .escape e => [backslash, e]
  | .unicode h₁ h₂ h₃ h₄ => [backslash, lowerU, h₁, h₂, h₃, h₄]

def Valid : Segment → Prop
  | .plain c => c ≠ backslash
  | .escape e => isShortEscape e = true
  | .unicode h₁ h₂ h₃ h₄ =>
    isHex h₁ = true ∧ isHex h₂ = true ∧ isHex h₃ = true ∧ isHex h₄ = true

/-- The number that the four digits of a `\u` escape spell. -/
def code? : Segment → Option Nat
  | .unicode h₁ h₂ h₃ h₄ =>
    let d := fun h => (hexDigit? h).getD 0
    some (((d h₁ * 16 + d h₂) * 16 + d h₃) * 16 + d h₄)
  | .plain _ | .escape _ => none

def isHigh (g : Segment) : Bool := g.code?.any fun code => 0xD800 ≤ code ∧ code ≤ 0xDBFF

def isLow (g : Segment) : Bool := g.code?.any fun code => 0xDC00 ≤ code ∧ code ≤ 0xDFFF

theorem length_bytes_pos (g : Segment) : 0 < g.bytes.length := by
  cases g <;> exact Nat.succ_pos _

end Segment

/-- The segments make up the text. -/
def Spells (gs : List Segment) (raw : Bytes) : Prop :=
  (∀ g ∈ gs, g.Valid) ∧ gs.flatMap Segment.bytes = raw

/-- A high surrogate that no low one follows, or a low one that no high one precedes. -/
def Unpaired (gs : List Segment) : Prop :=
  ∃ before g after, gs = before ++ g :: after ∧
    (g.isHigh = true ∧ after.head?.any Segment.isLow = false ∨
      g.isLow = true ∧ before.getLast?.any Segment.isHigh = false)

/-- The same for segments behind others, of which the last is a high surrogate or not. -/
def UnpairedAfter (high : Bool) (gs : List Segment) : Prop :=
  ∃ before g after, gs = before ++ g :: after ∧
    (g.isHigh = true ∧ after.head?.any Segment.isLow = false ∨
      g.isLow = true ∧ (before.getLast?.map Segment.isHigh).getD high = false)

theorem unpaired_iff (gs : List Segment) : Unpaired gs ↔ UnpairedAfter false gs := by
  have hlast : ∀ before : List Segment, before.getLast?.any Segment.isHigh =
      (before.getLast?.map Segment.isHigh).getD false := by
    intro before
    cases before.getLast? <;> rfl
  simp only [Unpaired, UnpairedAfter, hlast]

theorem unpairedAfter_cons (high : Bool) (g : Segment) (gs : List Segment) :
    UnpairedAfter high (g :: gs) ↔
      (g.isHigh = true ∧ gs.head?.any Segment.isLow = false) ∨ (g.isLow = true ∧ high = false) ∨
        UnpairedAfter g.isHigh gs := by
  have hlast : ∀ before : List Segment, ((g :: before).getLast?.map Segment.isHigh).getD high =
      (before.getLast?.map Segment.isHigh).getD g.isHigh := by
    intro before
    cases before with
    | nil => rfl
    | cons b before => rw [List.getLast?_cons_cons, List.getLast?_eq_some_getLast (by simp)]; rfl
  constructor
  · intro h
    obtain ⟨before, g', after, hsplit, h⟩ := h
    cases before with
    | nil =>
      cases hsplit
      rcases h with h | h
      · exact .inl h
      · exact .inr (.inl h)
    | cons b before =>
      obtain ⟨rfl, rfl⟩ := List.cons.inj hsplit
      rw [hlast] at h
      exact .inr (.inr ⟨before, g', after, rfl, h⟩)
  · intro h
    rcases h with h | h | ⟨before, g', after, rfl, h⟩
    · exact ⟨[], g, gs, rfl, .inl h⟩
    · exact ⟨[], g, gs, rfl, .inr h⟩
    · refine ⟨g :: before, g', after, rfl, ?_⟩
      rwa [hlast]

theorem isLow_of_isHigh {g : Segment} (h : g.isHigh = true) : g.isLow = false := by
  unfold Segment.isHigh at h
  unfold Segment.isLow
  cases hcode : g.code? with
  | none => rfl
  | some code =>
    rw [hcode] at h
    simp only [Option.any_some, decide_eq_true_eq] at h
    simp only [Option.any_some, decide_eq_false_iff_not]
    omega

/-- A segment that is no surrogate. -/
theorem unpaired_cons_other {g : Segment} (hhigh : g.isHigh = false) (hlow : g.isLow = false)
    (gs : List Segment) : Unpaired (g :: gs) ↔ Unpaired gs := by
  rw [unpaired_iff, unpairedAfter_cons, unpaired_iff]
  simp [hhigh, hlow]

/-- A surrogate pair. -/
theorem unpaired_cons_pair {g g' : Segment} (hhigh : g.isHigh = true) (hlow : g'.isLow = true)
    (gs : List Segment) : Unpaired (g :: g' :: gs) ↔ Unpaired gs := by
  have hg := isLow_of_isHigh hhigh
  have hg' : g'.isHigh = false := by
    cases h : g'.isHigh with
    | false => rfl
    | true =>
      rw [isLow_of_isHigh h] at hlow
      cases hlow
  rw [unpaired_iff, unpairedAfter_cons, unpairedAfter_cons, unpaired_iff]
  simp [hhigh, hlow, hg, hg']

/-! ## The decoder on one segment -/

theorem ok_bind {α β : Type} (a : α) (f : α → Except Fault β) : (Except.ok a >>= f) = f a := rfl

theorem error_bind {α β : Type} (e : Fault) (f : α → Except Fault β) :
    (Except.error e >>= f) = .error e := rfl

section Cursor

variable {raw before rest : Bytes} {i rounds : Nat} {out : Bytes}

theorem At.lt {c : UInt8} (h : At raw i before (c :: rest)) : i < raw.length := by
  rw [h.split, h.pos_eq, List.length_append, List.length_cons]
  omega

theorem At.byteAt {c : UInt8} (h : At raw i before (c :: rest)) : byteAt raw i = .ok c := by
  rw [Json.byteAt, h.getElem?]
  rfl

/-- A byte of a range, counted from the first. -/
theorem toNat_sub_le {first last c : UInt8} (h : first ≤ c ∧ c ≤ last) :
    (c - first).toNat ≤ last.toNat - first.toNat := by
  rw [UInt8.toNat_sub_of_le _ _ h.1]
  exact Nat.sub_le_sub_right (UInt8.le_iff_toNat_le.1 h.2) _

theorem hexDigit_lt {c : UInt8} {d : Nat} (h : hexDigit? c = some d) : d < 16 := by
  unfold hexDigit? at h
  split_ifs at h with hdigit hlower hupper
  · cases h
    exact Nat.lt_of_le_of_lt (toNat_sub_le hdigit) (by decide)
  · cases h
    exact Nat.lt_of_le_of_lt (Nat.add_le_add_right (toNat_sub_le hlower) 10) (by decide)
  · cases h
    exact Nat.lt_of_le_of_lt (Nat.add_le_add_right (toNat_sub_le hupper) 10) (by decide)

theorem hexDigit_of_isHex {c : UInt8} (h : isHex c = true) : ∃ d, hexDigit? c = some d := by
  unfold hexDigit?
  split_ifs with hdigit hlower hupper
  · exact ⟨_, rfl⟩
  · exact ⟨_, rfl⟩
  · exact ⟨_, rfl⟩
  · simp [isHex, isDigit, hdigit, hlower, hupper] at h

theorem readHexDigits_cons {c : UInt8} {d : Nat} (h : At raw i before (c :: rest))
    (hd : hexDigit? c = some d) (digits value : Nat) :
    readHexDigits raw (digits + 1) i value =
      readHexDigits raw digits (i + 1) (value * 16 + d) := by
  have hor : value <<< 4 ||| d = value * 16 + d := by
    rw [← Nat.shiftLeft_add_eq_or_of_lt (hexDigit_lt hd), Nat.shiftLeft_eq]
  rw [readHexDigits, h.byteAt]
  rw [ok_bind, hd]
  exact congrArg _ hor

section Digits

variable {h₁ h₂ h₃ h₄ : UInt8}

/-- Four hex digits are read as the number they spell. -/
theorem readHex4_digits {d₁ d₂ d₃ d₄ : Nat} (h : At raw i before (h₁ :: h₂ :: h₃ :: h₄ :: rest))
    (hd₁ : hexDigit? h₁ = some d₁) (hd₂ : hexDigit? h₂ = some d₂) (hd₃ : hexDigit? h₃ = some d₃)
    (hd₄ : hexDigit? h₄ = some d₄) :
    readHex4 raw i = .ok (((d₁ * 16 + d₂) * 16 + d₃) * 16 + d₄, i + 4) := by
  have hroom : ¬ i + 4 > raw.length := by
    rw [h.split, h.pos_eq, List.length_append]
    simp only [List.length_cons]
    omega
  rw [readHex4, if_neg hroom, readHexDigits_cons h hd₁, readHexDigits_cons h.next hd₂,
    readHexDigits_cons h.next.next hd₃, readHexDigits_cons h.next.next.next hd₄, readHexDigits,
    Nat.zero_mul, Nat.zero_add]

theorem readHex4_unicode (h : At raw i before (h₁ :: h₂ :: h₃ :: h₄ :: rest))
    (hvalid : (Segment.unicode h₁ h₂ h₃ h₄).Valid) :
    ∃ code, (Segment.unicode h₁ h₂ h₃ h₄).code? = some code ∧
      readHex4 raw i = .ok (code, i + 4) := by
  obtain ⟨hx₁, hx₂, hx₃, hx₄⟩ := hvalid
  obtain ⟨d₁, hd₁⟩ := hexDigit_of_isHex hx₁
  obtain ⟨d₂, hd₂⟩ := hexDigit_of_isHex hx₂
  obtain ⟨d₃, hd₃⟩ := hexDigit_of_isHex hx₃
  obtain ⟨d₄, hd₄⟩ := hexDigit_of_isHex hx₄
  refine ⟨_, ?_, readHex4_digits h hd₁ hd₂ hd₃ hd₄⟩
  simp [Segment.code?, hd₁, hd₂, hd₃, hd₄]

end Digits

theorem decodeFrom_plain {c : UInt8} (h : At raw i before (c :: rest)) (hc : c ≠ backslash) :
    decodeFrom raw (rounds + 1) i out = decodeFrom raw rounds (i + 1) (out ++ [c]) := by
  rw [decodeFrom, if_pos h.lt, h.byteAt, ok_bind, if_pos hc]

/-- A backslash and the byte behind it. -/
theorem decodeFrom_backslash {e : UInt8} (h : At raw i before (backslash :: e :: rest)) :
    decodeFrom raw (rounds + 1) i out =
      match shortEscape? e with
      | some b => decodeFrom raw rounds (i + 2) (out ++ [b])
      | none =>
        if e = lowerU then do
          let (code, i) ← decodeUnicode raw (i + 2)
          decodeFrom raw rounds i (appendUtf8 out code)
        else .error .malformed := by
  have hlt := h.next.lt
  rw [decodeFrom, if_pos h.lt, h.byteAt]
  rw [ok_bind, if_neg (not_not_intro rfl), if_neg (by omega), h.next.byteAt, ok_bind]

theorem shortEscape_of_isShortEscape {e : UInt8} (he : isShortEscape e = true) :
    ∃ b, shortEscape? e = some b := by
  unfold shortEscape?
  simp only [isShortEscape, Bool.or_eq_true, beq_iff_eq] at he
  rcases he with ((((((rfl | rfl) | rfl) | rfl) | rfl) | rfl) | rfl) | rfl
  all_goals exact ⟨_, rfl⟩

theorem decodeFrom_escape {e : UInt8} (h : At raw i before (backslash :: e :: rest))
    (he : isShortEscape e = true) :
    ∃ b, ∀ rounds out,
      decodeFrom raw (rounds + 1) i out = decodeFrom raw rounds (i + 2) (out ++ [b]) := by
  obtain ⟨b, hb⟩ := shortEscape_of_isShortEscape he
  refine ⟨b, fun rounds out => ?_⟩
  rw [decodeFrom_backslash h, hb]

theorem decodeFrom_unicode (h : At raw i before (backslash :: lowerU :: rest)) :
    decodeFrom raw (rounds + 1) i out =
      decodeUnicode raw (i + 2) >>= fun r => decodeFrom raw rounds r.2 (appendUtf8 out r.1) := by
  rw [decodeFrom_backslash h]
  rfl

theorem decodeUnicode_single {code j : Nat} (hread : readHex4 raw i = .ok (code, j))
    (hhigh : ¬ (0xD800 ≤ code ∧ code ≤ 0xDBFF)) (hlow : ¬ (0xDC00 ≤ code ∧ code ≤ 0xDFFF)) :
    decodeUnicode raw i = .ok (code, j) := by
  rw [decodeUnicode, hread, ok_bind]
  dsimp only
  rw [if_neg hhigh, if_neg hlow]

theorem decodeUnicode_double {high low j k : Nat} (hread : readHex4 raw i = .ok (high, j))
    (hhigh : 0xD800 ≤ high ∧ high ≤ 0xDBFF) (h : At raw j before (backslash :: lowerU :: rest))
    (hread' : readHex4 raw (j + 2) = .ok (low, k)) (hlow : 0xDC00 ≤ low ∧ low ≤ 0xDFFF) :
    decodeUnicode raw i = .ok (0x10000 + (high - 0xD800) <<< 10 + (low - 0xDC00), k) := by
  have hlt := h.next.lt
  rw [decodeUnicode, hread, ok_bind]
  dsimp only
  rw [if_pos hhigh, if_neg (by omega), h.byteAt, ok_bind, if_neg (not_not_intro rfl),
    h.next.byteAt, ok_bind, if_neg (not_not_intro rfl), hread', ok_bind]
  exact if_neg (by omega)

section Unicode

variable {h₁ h₂ h₃ h₄ : UInt8}

/-- A `\u` escape that is no surrogate. -/
theorem decodeUnicode_other (h : At raw i before (h₁ :: h₂ :: h₃ :: h₄ :: rest))
    (hvalid : (Segment.unicode h₁ h₂ h₃ h₄).Valid)
    (hhigh : (Segment.unicode h₁ h₂ h₃ h₄).isHigh = false)
    (hlow : (Segment.unicode h₁ h₂ h₃ h₄).isLow = false) :
    ∃ code, decodeUnicode raw i = .ok (code, i + 4) := by
  obtain ⟨code, hcode, hread⟩ := readHex4_unicode h hvalid
  simp only [Segment.isHigh, Segment.isLow, hcode, Option.any_some, decide_eq_false_iff_not]
    at hhigh hlow
  exact ⟨code, decodeUnicode_single hread hhigh hlow⟩

/-- A low surrogate first. -/
theorem decodeUnicode_low (h : At raw i before (h₁ :: h₂ :: h₃ :: h₄ :: rest))
    (hvalid : (Segment.unicode h₁ h₂ h₃ h₄).Valid)
    (hlow : (Segment.unicode h₁ h₂ h₃ h₄).isLow = true) :
    decodeUnicode raw i = .error .malformed := by
  obtain ⟨code, hcode, hread⟩ := readHex4_unicode h hvalid
  simp only [Segment.isLow, hcode, Option.any_some, decide_eq_true_eq] at hlow
  have hhigh : ¬ (0xD800 ≤ code ∧ code ≤ 0xDBFF) := by omega
  rw [decodeUnicode, hread, ok_bind]
  dsimp only
  rw [if_neg hhigh, if_pos hlow]

/-- A high surrogate and a low one. -/
theorem decodeUnicode_pair {l₁ l₂ l₃ l₄ : UInt8}
    (h : At raw i before
      (h₁ :: h₂ :: h₃ :: h₄ :: backslash :: lowerU :: l₁ :: l₂ :: l₃ :: l₄ :: rest))
    (hvalid : (Segment.unicode h₁ h₂ h₃ h₄).Valid) (hvalid' : (Segment.unicode l₁ l₂ l₃ l₄).Valid)
    (hhigh : (Segment.unicode h₁ h₂ h₃ h₄).isHigh = true)
    (hlow : (Segment.unicode l₁ l₂ l₃ l₄).isLow = true) :
    ∃ code, decodeUnicode raw i = .ok (code, i + 10) := by
  obtain ⟨high, hcode, hread⟩ := readHex4_unicode h hvalid
  have hback := h.next.next.next.next
  obtain ⟨low, hcode', hread'⟩ := readHex4_unicode hback.next.next hvalid'
  simp only [Segment.isHigh, hcode, Option.any_some, decide_eq_true_eq] at hhigh
  simp only [Segment.isLow, hcode', Option.any_some, decide_eq_true_eq] at hlow
  exact ⟨_, decodeUnicode_double hread hhigh hback hread' hlow⟩

/-- A high surrogate that no low one follows. -/
theorem decodeUnicode_high {gs : List Segment}
    (h : At raw i before (h₁ :: h₂ :: h₃ :: h₄ :: gs.flatMap Segment.bytes))
    (hvalid : (Segment.unicode h₁ h₂ h₃ h₄).Valid) (hgs : ∀ g ∈ gs, g.Valid)
    (hhigh : (Segment.unicode h₁ h₂ h₃ h₄).isHigh = true)
    (hnext : gs.head?.any Segment.isLow = false) :
    decodeUnicode raw i = .error .malformed := by
  obtain ⟨high, hcode, hread⟩ := readHex4_unicode h hvalid
  have hback := h.next.next.next.next
  simp only [Segment.isHigh, hcode, Option.any_some, decide_eq_true_eq] at hhigh
  rw [decodeUnicode, hread, ok_bind]
  dsimp only
  rw [if_pos hhigh]
  split_ifs with hend
  · rfl
  cases gs with
  | nil =>
    rw [hback.split, List.flatMap_nil, List.append_nil, ← hback.pos_eq] at hend
    omega
  | cons g gs =>
    have hg := hgs g List.mem_cons_self
    cases g with
    | plain c =>
      have hc : c ≠ backslash := hg
      rw [hback.byteAt, ok_bind, if_pos hc]
    | escape e =>
      have hu : e ≠ lowerU := by
        rintro rfl
        cases hg
      rw [hback.byteAt, ok_bind, if_neg (not_not_intro rfl), hback.next.byteAt, ok_bind, if_pos hu]
    | unicode l₁ l₂ l₃ l₄ =>
      obtain ⟨low, hcode', hread'⟩ := readHex4_unicode hback.next.next hg
      have hlow : ¬ (0xDC00 ≤ low ∧ low ≤ 0xDFFF) := by
        simpa [Segment.isLow, hcode'] using hnext
      rw [hback.byteAt, ok_bind, if_neg (not_not_intro rfl), hback.next.byteAt, ok_bind,
        if_neg (not_not_intro rfl), hread', ok_bind]
      exact if_pos (by omega)

end Unicode

/-! ## The decoder on a text -/

/-- The decoder fails just when there is an unpaired surrogate, and else has a text. -/
def Settles (gs : List Segment) (result : Except Fault Bytes) : Prop :=
  (result = .error .malformed ∧ Unpaired gs) ∨ (∃ text, result = .ok text) ∧ ¬ Unpaired gs

/-- Segments in front that are no surrogates, or a pair, make no difference. -/
theorem Settles.of_iff {gs gs' : List Segment} {result : Except Fault Bytes}
    (h : Settles gs result) (hiff : Unpaired gs' ↔ Unpaired gs) : Settles gs' result := by
  unfold Settles
  rwa [hiff]

/-- A low surrogate in front is a `\u` escape. -/
theorem exists_low {gs : List Segment} (h : gs.head?.any Segment.isLow = true) :
    ∃ l₁ l₂ l₃ l₄ gs', gs = .unicode l₁ l₂ l₃ l₄ :: gs' ∧
      (Segment.unicode l₁ l₂ l₃ l₄).isLow = true := by
  cases gs with
  | nil => cases h
  | cons g gs =>
    cases g with
    | plain c => cases h
    | escape e => cases h
    | unicode l₁ l₂ l₃ l₄ => exact ⟨l₁, l₂, l₃, l₄, gs, rfl, h⟩

theorem not_unpaired_nil : ¬ Unpaired [] := by
  intro h
  obtain ⟨before, g, after, hsplit, -⟩ := h
  cases before <;> cases hsplit

/-- **The decoder follows the segments.** By induction on their number, as a pair is two. -/
theorem decodeFrom_settles (n : Nat) (gs : List Segment) (hn : gs.length < n)
    (h : At raw i before (gs.flatMap Segment.bytes)) (hgs : ∀ g ∈ gs, g.Valid)
    (hrounds : (gs.flatMap Segment.bytes).length ≤ rounds) :
    Settles gs (decodeFrom raw rounds i out) := by
  induction n generalizing gs before i rounds out with
  | zero => exact absurd hn (Nat.not_lt_zero _)
  | succ n ih =>
    cases gs with
    | nil =>
      have hend : ¬ i < raw.length := by
        rw [h.split, List.flatMap_nil, List.append_nil, ← h.pos_eq]
        exact Nat.lt_irrefl i
      refine .inr ⟨⟨out, ?_⟩, not_unpaired_nil⟩
      cases rounds with
      | zero => rw [decodeFrom, if_neg hend]
      | succ rounds => rw [decodeFrom, if_neg hend]
    | cons g gs =>
      have hg := hgs g List.mem_cons_self
      have hgs' : ∀ g ∈ gs, g.Valid := fun g hmem => hgs g (List.mem_cons_of_mem _ hmem)
      have hn' : gs.length < n := Nat.lt_of_succ_lt_succ hn
      have hbytes := g.length_bytes_pos
      rw [List.flatMap_cons, List.length_append] at hrounds
      rw [List.flatMap_cons] at h
      obtain ⟨rounds, rfl⟩ : ∃ k, rounds = k + 1 := ⟨rounds - 1, by omega⟩
      have hrounds' : (gs.flatMap Segment.bytes).length ≤ rounds := by omega
      cases g with
      | plain c =>
        rw [decodeFrom_plain h hg]
        exact (ih gs hn' h.next hgs' hrounds').of_iff (unpaired_cons_other rfl rfl gs)
      | escape e =>
        obtain ⟨b, hb⟩ := decodeFrom_escape h hg
        rw [hb]
        exact (ih gs hn' h.next.next hgs' hrounds').of_iff (unpaired_cons_other rfl rfl gs)
      | unicode h₁ h₂ h₃ h₄ =>
        have hdigits := h.next.next
        rw [decodeFrom_unicode h]
        cases hlow : (Segment.unicode h₁ h₂ h₃ h₄).isLow with
        | true =>
          rw [decodeUnicode_low hdigits hg hlow, error_bind]
          exact .inl ⟨rfl, [], _, gs, rfl, .inr ⟨hlow, rfl⟩⟩
        | false =>
          cases hhigh : (Segment.unicode h₁ h₂ h₃ h₄).isHigh with
          | false =>
            obtain ⟨code, hdecode⟩ := decodeUnicode_other hdigits hg hhigh hlow
            rw [hdecode, ok_bind]
            have hrest := hdigits.next.next.next.next
            exact (ih gs hn' hrest hgs' hrounds').of_iff (unpaired_cons_other hhigh hlow gs)
          | true =>
            cases hnext : gs.head?.any Segment.isLow with
            | false =>
              rw [decodeUnicode_high hdigits hg hgs' hhigh hnext, error_bind]
              exact .inl ⟨rfl, [], _, gs, rfl, .inl ⟨hhigh, hnext⟩⟩
            | true =>
              -- the low surrogate is the next segment, and is decoded with the high one
              obtain ⟨l₁, l₂, l₃, l₄, gs, rfl, hlow'⟩ := exists_low hnext
              have hg' := hgs' _ List.mem_cons_self
              rw [List.flatMap_cons] at hdigits
              obtain ⟨code, hdecode⟩ := decodeUnicode_pair hdigits hg hg' hhigh hlow'
              rw [hdecode, ok_bind]
              have hrest := hdigits.next.next.next.next.next.next.next.next.next.next
              refine (ih gs ?_ hrest ?_ ?_).of_iff (unpaired_cons_pair hhigh hlow' gs)
              · rw [List.length_cons] at hn'
                omega
              · exact fun g hmem => hgs' g (List.mem_cons_of_mem _ hmem)
              · rw [List.flatMap_cons, List.length_append] at hrounds'
                omega

end Cursor

/-- **The decoder on a text that is made up of segments.** -/
theorem decode_segments {gs : List Segment} {raw : Bytes} (h : Spells gs raw) :
    Settles gs (decodeString raw) := by
  obtain ⟨hgs, rfl⟩ := h
  exact decodeFrom_settles (gs.length + 1) gs (Nat.lt_succ_self _) (at_zero _) hgs (Nat.le_refl _)

/-- A surrogate pair, `\uD83D\uDE00`, is one code point. -/
example : decodeString [0x5C, 0x75, 0x44, 0x38, 0x33, 0x44, 0x5C, 0x75, 0x44, 0x45, 0x30, 0x30] =
    .ok [0xF0, 0x9F, 0x98, 0x80] := by decide +kernel

/-! ## What the parser emits -/

/-- The content of a string can be cut into segments. -/
theorem Chars.spells {raw : Bytes} (h : Chars raw) : ∃ gs, Spells gs raw := by
  induction h with
  | nil => exact ⟨[], by simp [Spells]⟩
  | @plain c cs _ hb _ _ ih =>
    obtain ⟨gs, hgs, rfl⟩ := ih
    exact ⟨.plain c :: gs, List.forall_mem_cons.2 ⟨hb, hgs⟩, rfl⟩
  | @escape e cs he _ ih =>
    obtain ⟨gs, hgs, rfl⟩ := ih
    exact ⟨.escape e :: gs, List.forall_mem_cons.2 ⟨he, hgs⟩, rfl⟩
  | @unicode h₁ h₂ h₃ h₄ cs hx₁ hx₂ hx₃ hx₄ _ ih =>
    obtain ⟨gs, hgs, rfl⟩ := ih
    exact ⟨.unicode h₁ h₂ h₃ h₄ :: gs, List.forall_mem_cons.2 ⟨⟨hx₁, hx₂, hx₃, hx₄⟩, hgs⟩, rfl⟩

/-- The event has the raw text of a string. -/
def JsonEvent.hasString (e : JsonEvent) : Prop := e.type = .key ∨ e.type = .string

/-- Every key and every string is the content of a string. -/
def StringsOk (es : List JsonEvent) : Prop := ∀ e ∈ es, e.hasString → Chars e.text

theorem stringsOk_nil : StringsOk [] := nofun

theorem StringsOk.cons {e : JsonEvent} {es : List JsonEvent} (h : StringsOk es)
    (he : e.hasString → Chars e.text) : StringsOk (e :: es) :=
  List.forall_mem_cons.2 ⟨he, h⟩

theorem StringsOk.append {es fs : List JsonEvent} (h : StringsOk es) (h' : StringsOk fs) :
    StringsOk (es ++ fs) := by
  intro e he
  rcases List.mem_append.1 he with he | he
  · exact h e he
  · exact h' e he

/-- An event that is neither a key nor a string. -/
theorem chars_of_not_hasString {e : JsonEvent} (hkey : e.type ≠ .key) (hstring : e.type ≠ .string) :
    e.hasString → Chars e.text := by
  intro h
  rcases h with h | h
  · exact absurd h hkey
  · exact absurd h hstring

theorem Derives.stringsOk {ph : Phrase} {b : Bytes} (h : Derives ph b) : StringsOk ph.events := by
  induction h with
  | null => exact stringsOk_nil.cons (chars_of_not_hasString nofun nofun)
  | boolean => exact stringsOk_nil.cons (chars_of_not_hasString nofun nofun)
  | number => exact stringsOk_nil.cons (chars_of_not_hasString nofun nofun)
  | string hraw => exact stringsOk_nil.cons fun _ => hraw
  | array _ ih =>
    have hclose : StringsOk [⟨.endArray, []⟩] :=
      stringsOk_nil.cons (chars_of_not_hasString nofun nofun)
    exact (ih.append hclose).cons (chars_of_not_hasString nofun nofun)
  | object _ ih =>
    have hclose : StringsOk [⟨.endObject, []⟩] :=
      stringsOk_nil.cons (chars_of_not_hasString nofun nofun)
    exact (ih.append hclose).cons (chars_of_not_hasString nofun nofun)
  | element _ _ _ ih => exact ih
  | noElements => exact stringsOk_nil
  | firstElement _ ih => exact stringsOk_nil.append ih
  | nextElement _ _ ih ih' => exact ih.append ih'
  | noMembers => exact stringsOk_nil
  | firstMember hk _ ih =>
    obtain ⟨-, -, -, hchars, -⟩ := hk
    exact stringsOk_nil.append (ih.cons fun _ => hchars)
  | nextMember _ hk _ ih ih' =>
    obtain ⟨-, -, -, hchars, -⟩ := hk
    exact ih.append (ih'.cons fun _ => hchars)

/-- **What the parser validates.** Along a run every key and every string is the content of a
string. -/
theorem stringsOk_of_run {maxDepth : Nat} {s : Bytes} {es : List JsonEvent} {p : JsonParser}
    (h : Transition.run (pull maxDepth) (.create s) es = some p) : StringsOk es := by
  obtain ⟨q, hstands⟩ := stands_of_run h
  obtain ⟨before, rest, hcursor⟩ := hstands.cursor
  obtain ⟨t, v, hdoc, -, hes⟩ := hcursor.reads.viable
  rw [hstands.events] at hes
  have hv : StringsOk v.events := Derives.stringsOk hdoc
  exact fun e he => hv e (hes.subset he)

/-! ## Every call of `next` -/

/-- The parser after so many calls of `next`. -/
def afterCalls (maxDepth : Nat) (s : Bytes) : Nat → JsonParser
  | 0 => .create s
  | n + 1 => ((afterCalls maxDepth s n).next maxDepth).2

/-- The event of the next call. -/
def emitted (maxDepth : Nat) (s : Bytes) (n : Nat) : JsonEvent :=
  ((afterCalls maxDepth s n).next maxDepth).1

/-- An event that the consumer stops at leaves a parser that has stopped. -/
def StopsOnly (r : JsonEvent × JsonParser) : Prop :=
  r.1.proceeds = true ∨ r.2.state ≠ .running

theorem stopsOnly_makeError (p : JsonParser) (f : Failure) : StopsOnly (p.makeError f) := by
  refine .inr ?_
  unfold JsonParser.makeError
  split_ifs with h
  · dsimp only
    rw [h]
    decide
  · exact nofun

theorem stopsOnly_finishScalar (p : JsonParser) {token : JsonToken}
    (htoken : (⟨token, []⟩ : JsonEvent).proceeds = true) (r : Except Failure (Bytes × Nat)) :
    StopsOnly (p.finishScalar token r) := by
  cases r with
  | error f => exact stopsOnly_makeError p f
  | ok r => exact .inl htoken

theorem stopsOnly_openFrame (maxDepth : Nat) (p : JsonParser) (isObject : Bool) {token : JsonToken}
    (htoken : (⟨token, []⟩ : JsonEvent).proceeds = true) :
    StopsOnly (p.openFrame maxDepth isObject token) := by
  unfold JsonParser.openFrame
  split_ifs
  · exact stopsOnly_makeError ..
  · exact .inl htoken

theorem stopsOnly_startValue (maxDepth : Nat) (p : JsonParser) :
    StopsOnly (p.startValue maxDepth) := by
  unfold JsonParser.startValue
  dsimp only
  split
  · exact stopsOnly_makeError ..
  · unfold JsonParser.dispatch
    split_ifs
    · exact stopsOnly_openFrame _ _ _ rfl
    · exact stopsOnly_openFrame _ _ _ rfl
    all_goals first | exact stopsOnly_finishScalar _ rfl _ | exact stopsOnly_makeError ..

theorem stopsOnly_nextInArray (maxDepth : Nat) (p : JsonParser) (frame : Frame)
    (outer : List Frame) : StopsOnly (p.nextInArray maxDepth frame outer) := by
  unfold JsonParser.nextInArray
  dsimp only
  split_ifs
  · exact .inl rfl
  · exact stopsOnly_makeError ..
  · exact stopsOnly_makeError ..
  · exact stopsOnly_startValue ..
  · exact stopsOnly_startValue ..

theorem stopsOnly_readKey (p : JsonParser) (outer : List Frame) :
    StopsOnly (p.readKey outer) := by
  unfold JsonParser.readKey
  dsimp only
  split_ifs
  · exact stopsOnly_makeError ..
  · split
    · exact stopsOnly_makeError ..
    · split_ifs
      · exact stopsOnly_makeError ..
      · exact .inl rfl

theorem stopsOnly_nextInObject (maxDepth : Nat) (p : JsonParser) (frame : Frame)
    (outer : List Frame) : StopsOnly (p.nextInObject maxDepth frame outer) := by
  unfold JsonParser.nextInObject
  dsimp only
  split_ifs
  · exact stopsOnly_startValue ..
  · exact .inl rfl
  · exact stopsOnly_makeError ..
  · exact stopsOnly_makeError ..
  · exact stopsOnly_readKey ..
  · exact stopsOnly_readKey ..

theorem stopsOnly_next (maxDepth : Nat) (p : JsonParser) : StopsOnly (p.next maxDepth) := by
  unfold JsonParser.next
  split
  · next h => exact .inr (by rw [h]; decide)
  · next h => exact .inr (by rw [h]; decide)
  · split
    · split_ifs
      · dsimp only
        split_ifs
        · exact stopsOnly_makeError ..
        · exact .inr nofun
      · exact stopsOnly_startValue ..
    · split_ifs
      · exact stopsOnly_nextInObject ..
      · exact stopsOnly_nextInArray ..

/-- A parser that has stopped emits `error` or `end` for ever. -/
theorem next_stopped (maxDepth : Nat) {p : JsonParser} (h : p.state ≠ .running) :
    ¬ (p.next maxDepth).1.hasString ∧ (p.next maxDepth).2 = p := by
  unfold JsonParser.next
  cases hstate : p.state with
  | running => exact absurd hstate h
  | finished => exact ⟨by simp [JsonEvent.hasString], rfl⟩
  | errored => exact ⟨by simp [JsonEvent.hasString], rfl⟩

/-- One more call of a run. -/
theorem run_emitted {maxDepth : Nat} {s : Bytes} {n : Nat} {es : List JsonEvent}
    (hrun : Transition.run (pull maxDepth) (.create s) es = some (afterCalls maxDepth s n))
    (h : (emitted maxDepth s n).proceeds = true) :
    Transition.run (pull maxDepth) (.create s) (es ++ [emitted maxDepth s n]) =
      some (afterCalls maxDepth s (n + 1)) := by
  have hpull : pull maxDepth (afterCalls maxDepth s n) (emitted maxDepth s n) =
      some (afterCalls maxDepth s (n + 1)) := pull_eq_some.2 ⟨rfl, h⟩
  rw [Transition.run_append, hrun, Option.bind_some, Transition.run_cons, hpull]
  rfl

/-- The calls so far are a run, or the parser has stopped. -/
theorem afterCalls_cases (maxDepth : Nat) (s : Bytes) (n : Nat) :
    (∃ es, Transition.run (pull maxDepth) (.create s) es = some (afterCalls maxDepth s n)) ∨
      (afterCalls maxDepth s n).state ≠ .running := by
  induction n with
  | zero => exact .inl ⟨[], rfl⟩
  | succ n ih =>
    rcases ih with ⟨es, hrun⟩ | hstopped
    · rcases stopsOnly_next maxDepth (afterCalls maxDepth s n) with hproceeds | hstops
      · exact .inl ⟨_, run_emitted hrun hproceeds⟩
      · exact .inr hstops
    · rw [afterCalls, (next_stopped maxDepth hstopped).2]
      exact .inr hstopped

/-- Every key and every string that is emitted, whenever, is the content of a string. -/
theorem chars_of_emitted {maxDepth : Nat} {s : Bytes} {n : Nat}
    (h : (emitted maxDepth s n).hasString) : Chars (emitted maxDepth s n).text := by
  rcases afterCalls_cases maxDepth s n with ⟨es, hrun⟩ | hstopped
  · have hproceeds : (emitted maxDepth s n).proceeds = true := by
      rcases h with h | h <;> rw [JsonEvent.proceeds, h] <;> rfl
    exact stringsOk_of_run (run_emitted hrun hproceeds) _
      (List.mem_append_right _ List.mem_cons_self) h
  · exact absurd h (next_stopped maxDepth hstopped).1

/-! ## The theorem -/

/-- **The validator and the decoder agree.** On the text of a key or a string that the parser
emits, the decoder fails exactly if there is an unpaired surrogate escape, and for no other
reason: otherwise it has decoded the text. -/
theorem decode_emitted (maxDepth : Nat) (s : Bytes) (n : Nat)
    (h : (emitted maxDepth s n).type = .key ∨ (emitted maxDepth s n).type = .string) :
    (decodeString (emitted maxDepth s n).text = .error .malformed ↔
      ∃ gs, Spells gs (emitted maxDepth s n).text ∧ Unpaired gs) ∧
    (decodeString (emitted maxDepth s n).text = .error .malformed ∨
      ∃ out, decodeString (emitted maxDepth s n).text = .ok out) := by
  obtain ⟨gs, hgs⟩ := (chars_of_emitted h).spells
  refine ⟨⟨?_, ?_⟩, ?_⟩
  · intro hfailed
    rcases decode_segments hgs with ⟨-, hunpaired⟩ | ⟨⟨out, hok⟩, -⟩
    · exact ⟨gs, hgs, hunpaired⟩
    · rw [hfailed] at hok
      cases hok
  · intro hsurrogate
    obtain ⟨gs', hgs', hunpaired⟩ := hsurrogate
    rcases decode_segments hgs' with ⟨hfailed, -⟩ | ⟨-, hpaired⟩
    · exact hfailed
    · exact absurd hunpaired hpaired
  · rcases decode_segments hgs with ⟨hfailed, -⟩ | ⟨hok, -⟩
    · exact .inl hfailed
    · exact .inr hok

/-- The text `["\ud83d"]`: a high surrogate alone. -/
def loneSurrogate : Bytes :=
  [0x5B, 0x22, 0x5C, 0x75, 0x64, 0x38, 0x33, 0x64, 0x22, 0x5D]

theorem decode_emitted_loneSurrogate :
    (emitted 64 loneSurrogate 1).type = .string ∧
      decodeString (emitted 64 loneSurrogate 1).text = .error .malformed := by
  have htype : (emitted 64 loneSurrogate 1).type = .string := rfl
  refine ⟨htype, (decode_emitted 64 loneSurrogate 1 (.inr htype)).1.2 ?_⟩
  refine ⟨[.unicode 0x64 0x38 0x33 0x64], ⟨?_, rfl⟩, [], _, [], rfl, .inl (by decide)⟩
  exact List.forall_mem_singleton.2 (by simp [Segment.Valid, isHex, isDigit])

end Json

end EglUtil
