import EglUtil.Json.Scanner
import EglUtil.Json.Reading

/-!
# The parser accepts every document

By induction on the derivation (`Derives.parses`): at the first byte of a value the parser delivers
the events of the value and comes to rest behind it, with the frames it had before. The whitespace
behind an element is only skipped by the call after it, so the parser comes to rest in front of
some whitespace.

The first section says what one call does at each place where the grammar goes on: it closes a
container, reads a key, or dispatches on the first byte of a value.
-/

namespace EglUtil

namespace Json

open Transition

/-! ## Calls -/

section Calls

variable (maxDepth : Nat) {p : JsonParser} {before rest w w' : Bytes} {outer : List Frame}
  {c : UInt8}

theorem skipWhitespace_eq {s : Bytes} {pos : Nat} (h : At s pos before (w ++ c :: rest))
    (hw : Whitespace w) (hc : isWhitespace c = false) : skipWhitespace s pos = pos + w.length := by
  have hstop : StopsAt isWhitespace (c :: rest) := by
    intro d hd
    cases hd
    exact hc
  unfold skipWhitespace
  rw [h.drop, takeWhile_append_of_stopsAt hw hstop]

theorem startValue_eq (h : At p.source p.pos before (w ++ c :: rest)) (hw : Whitespace w)
    (hc : isWhitespace c = false) :
    p.startValue maxDepth = { p with pos := p.pos + w.length }.dispatch maxDepth c := by
  unfold JsonParser.startValue
  rw [skipWhitespace_eq h hw hc]
  dsimp only
  rw [h.advance.getElem?]
  rfl

/-- The first byte of a value: no whitespace and no end of the array. -/
def StartsValue (c : UInt8) : Prop := isWhitespace c = false ∧ c ≠ closeBracket

theorem next_of_array {seen : Bool} (hrun : p.state = .running)
    (hstack : p.stack = ⟨false, seen, false⟩ :: outer) :
    p.next maxDepth = p.nextInArray maxDepth ⟨false, seen, false⟩ outer := by
  unfold JsonParser.next
  rw [hrun, hstack]
  rfl

theorem next_of_object {seen expect : Bool} (hrun : p.state = .running)
    (hstack : p.stack = ⟨true, seen, expect⟩ :: outer) :
    p.next maxDepth = p.nextInObject maxDepth ⟨true, seen, expect⟩ outer := by
  unfold JsonParser.next
  rw [hrun, hstack]
  rfl

theorem next_closeArray {seen : Bool} (hrun : p.state = .running)
    (hstack : p.stack = ⟨false, seen, false⟩ :: outer)
    (h : At p.source p.pos before (w ++ closeBracket :: rest)) (hw : Whitespace w) :
    p.next maxDepth =
      (⟨.endArray, []⟩, { p with pos := p.pos + w.length + 1, stack := outer }) := by
  rw [next_of_array maxDepth hrun hstack]
  unfold JsonParser.nextInArray JsonParser.closeFrame
  rw [skipWhitespace_eq h hw (by decide), hstack]
  dsimp only
  rw [if_pos (peek_cons h.advance)]
  rfl

theorem next_closeObject {seen : Bool} (hrun : p.state = .running)
    (hstack : p.stack = ⟨true, seen, false⟩ :: outer)
    (h : At p.source p.pos before (w ++ closeBrace :: rest)) (hw : Whitespace w) :
    p.next maxDepth =
      (⟨.endObject, []⟩, { p with pos := p.pos + w.length + 1, stack := outer }) := by
  rw [next_of_object maxDepth hrun hstack]
  unfold JsonParser.nextInObject JsonParser.closeFrame
  rw [skipWhitespace_eq h hw (by decide), hstack]
  dsimp only
  rw [if_neg (by decide), if_pos (peek_cons h.advance)]
  rfl

/-- The comma between two elements or members, and the whitespace around it. -/
theorem skip_comma {s : Bytes} {pos : Nat}
    (h : At s pos before (w ++ comma :: (w' ++ c :: rest))) (hw : Whitespace w)
    (hw' : Whitespace w') (hc : isWhitespace c = false) :
    skipWhitespace s pos = pos + w.length ∧ peek s (pos + w.length) = comma ∧
      skipWhitespace s (pos + w.length + 1) = pos + w.length + 1 + w'.length ∧
      At s (pos + w.length + 1 + w'.length) (before ++ w ++ [comma] ++ w') (c :: rest) :=
  ⟨skipWhitespace_eq h hw (by decide), peek_cons h.advance,
    skipWhitespace_eq h.advance.next hw' hc, h.advance.next.advance⟩

/-- In an array, behind the elements that were read: the next element. -/
theorem next_element {seen : Bool} (hrun : p.state = .running)
    (hstack : p.stack = ⟨false, seen, false⟩ :: outer)
    (h : At p.source p.pos before (w ++ (separator seen ++ (w' ++ c :: rest)))) (hw : Whitespace w)
    (hw' : Whitespace w') (hc : StartsValue c) :
    ∃ pos before', At p.source pos before' (c :: rest) ∧
      p.next maxDepth =
        { p with pos := pos, stack := ⟨false, true, false⟩ :: outer }.dispatch maxDepth c := by
  rw [next_of_array maxDepth hrun hstack]
  unfold JsonParser.nextInArray
  cases seen with
  | false =>
    have h' : At p.source p.pos before ((w ++ w') ++ c :: rest) := by
      rw [List.append_assoc]
      exact h
    refine ⟨_, _, h'.advance, ?_⟩
    rw [skipWhitespace_eq h' (hw.append hw') hc.1]
    dsimp only
    rw [if_neg (by rw [peek_cons h'.advance]; exact hc.2), if_neg (by decide)]
    exact startValue_eq maxDepth (w := []) h'.advance whitespace_nil hc.1
  | true =>
    obtain ⟨hpos, hcomma, hpos', hat⟩ := skip_comma h hw hw' hc.1
    refine ⟨_, _, hat, ?_⟩
    rw [hpos]
    dsimp only
    rw [hcomma, if_neg (by decide), if_pos rfl, if_neg (by decide), hpos', peek_cons hat,
      if_neg hc.2, hstack]
    exact startValue_eq maxDepth (w := []) hat whitespace_nil hc.1

theorem readKey_eq {k tok : Bytes} (htok : StringToken k tok)
    (h : At p.source p.pos before (tok ++ (w ++ colon :: rest))) (hw : Whitespace w) :
    p.readKey outer =
      (⟨.key, k⟩,
        { p with
          pos := p.pos + tok.length + w.length + 1
          stack := ⟨true, true, true⟩ :: outer }) := by
  have hquote : peek p.source p.pos = quote := by
    obtain ⟨-, rfl⟩ := htok
    exact peek_cons h
  unfold JsonParser.readKey
  dsimp only
  rw [if_neg (not_not.2 hquote), scanString_complete htok h]
  dsimp only
  rw [skipWhitespace_eq h.advance hw (by decide), if_neg (not_not.2 (peek_cons h.advance.advance))]

/-- In an object, behind the members that were read: the next key. -/
theorem next_key {seen : Bool} {k a : Bytes} (hrun : p.state = .running)
    (hstack : p.stack = ⟨true, seen, false⟩ :: outer)
    (h : At p.source p.pos before (w ++ (separator seen ++ (a ++ rest)))) (hw : Whitespace w)
    (hk : KeyColon k a) :
    ∃ pos before', At p.source pos before' rest ∧
      p.next maxDepth =
        (⟨.key, k⟩, { p with pos := pos, stack := ⟨true, true, true⟩ :: outer }) := by
  obtain ⟨w', w'', hw', hchars, hw'', rfl⟩ := hk
  have htok : StringToken k (quote :: (k ++ [quote])) := ⟨hchars, rfl⟩
  rw [next_of_object maxDepth hrun hstack]
  unfold JsonParser.nextInObject
  rw [if_neg Bool.false_ne_true]
  cases seen with
  | false =>
    have h' : At p.source p.pos before
        ((w ++ w') ++ quote :: (k ++ quote :: (w'' ++ colon :: rest))) := by
      simpa [separator] using h
    have hat : At p.source (p.pos + (w ++ w').length) (before ++ (w ++ w'))
        ((quote :: (k ++ [quote])) ++ (w'' ++ colon :: rest)) := by
      simpa using h'.advance
    refine ⟨_, _, hat.advance.advance.next, ?_⟩
    rw [skipWhitespace_eq h' (hw.append hw') (by decide)]
    dsimp only
    rw [peek_cons h'.advance, if_neg (by decide), if_neg (by decide)]
    exact readKey_eq htok hat hw''
  | true =>
    have h' : At p.source p.pos before
        (w ++ comma :: (w' ++ quote :: (k ++ quote :: (w'' ++ colon :: rest)))) := by
      simpa [separator] using h
    obtain ⟨hpos, hcomma, hpos', hquote⟩ := skip_comma h' hw hw' (by decide)
    have hat : At p.source (p.pos + w.length + 1 + w'.length) (before ++ w ++ [comma] ++ w')
        ((quote :: (k ++ [quote])) ++ (w'' ++ colon :: rest)) := by
      simpa using hquote
    refine ⟨_, _, hat.advance.advance.next, ?_⟩
    rw [hpos]
    dsimp only
    rw [hcomma, if_neg (by decide), if_pos rfl, if_neg (by decide), hpos', peek_cons hquote,
      if_neg (by decide)]
    exact readKey_eq htok hat hw''

/-- Behind a key: the value. -/
theorem next_member (hrun : p.state = .running) (hstack : p.stack = ⟨true, true, true⟩ :: outer)
    (h : At p.source p.pos before (w ++ c :: rest)) (hw : Whitespace w)
    (hc : isWhitespace c = false) :
    p.next maxDepth =
      { p with
        pos := p.pos + w.length
        stack := ⟨true, true, false⟩ :: outer }.dispatch maxDepth c := by
  rw [next_of_object maxDepth hrun hstack]
  unfold JsonParser.nextInObject
  rw [if_pos rfl]
  exact startValue_eq maxDepth h hw hc

end Calls

/-! ## Runs -/

/-- The call that came to `r` delivers the first of the events `es`, the calls after it the rest. -/
def Walks (maxDepth : Nat) (r : JsonEvent × JsonParser) (es : List JsonEvent) (p : JsonParser) :
    Prop :=
  r.1.proceeds = true ∧ ∃ fs, es = r.1 :: fs ∧ run (pull maxDepth) r.2 fs = some p

theorem pull_next {maxDepth : Nat} {p : JsonParser} (he : (p.next maxDepth).1.proceeds = true) :
    pull maxDepth p (p.next maxDepth).1 = some (p.next maxDepth).2 :=
  if_pos ⟨rfl, he⟩

theorem Walks.run {maxDepth : Nat} {p p' : JsonParser} {es : List JsonEvent}
    (h : Walks maxDepth (p.next maxDepth) es p') : run (pull maxDepth) p es = some p' := by
  obtain ⟨he, fs, rfl, hrun⟩ := h
  rw [run_cons, pull_next he]
  exact hrun

theorem run_walks {maxDepth : Nat} {p p₁ p₂ : JsonParser} {es fs : List JsonEvent}
    (h : run (pull maxDepth) p es = some p₁) (hw : Walks maxDepth (p₁.next maxDepth) fs p₂) :
    run (pull maxDepth) p (es ++ fs) = some p₂ := by
  rw [run_append, h]
  exact hw.run

/-- The parser stands in front of `b`, and `n` more levels are allowed. -/
structure Before (maxDepth n : Nat) (p : JsonParser) (b rest : Bytes) : Prop where
  running : p.state = .running
  split : ∃ before, At p.source p.pos before (b ++ rest)
  room : n + p.stack.length ≤ maxDepth
  ends : NumberEnds rest

/-- In front of `rest`, up to whitespace. -/
def Behind (s : Bytes) (pos : Nat) (rest : Bytes) : Prop :=
  ∃ before w, Whitespace w ∧ At s pos before (w ++ rest)

/-- At the first byte `c` of a value: its events are delivered. -/
def ParsesFrom (maxDepth : Nat) (v : Value) (c : UInt8) (b : Bytes) : Prop :=
  ∀ p rest, Before maxDepth v.depth p (c :: b) rest →
    ∃ pos, Behind p.source pos rest ∧
      Walks maxDepth (p.dispatch maxDepth c) v.events { p with pos := pos }

/-- The parser delivers the events `es` of the elements or members of the container on top of the
stack, up to `rest`. -/
def ReadsInside (maxDepth : Nat) (p : JsonParser) (isObject : Bool) (outer : List Frame)
    (es : List JsonEvent) (seen : Bool) (rest : Bytes) : Prop :=
  ∃ pos, Behind p.source pos rest ∧ run (pull maxDepth) p es =
    some { p with pos := pos, stack := ⟨isObject, seen, false⟩ :: outer }

def Parses (maxDepth : Nat) : Phrase → Bytes → Prop
  | .value v, b => ∃ c b', b = c :: b' ∧ StartsValue c ∧ ParsesFrom maxDepth v c b'
  | .element v, b =>
    ∃ w c b', b = w ++ c :: b' ∧ Whitespace w ∧ StartsValue c ∧ ParsesFrom maxDepth v c b'
  | .elements els, b =>
    ∀ p rest outer, p.stack = ⟨false, false, false⟩ :: outer → Before maxDepth els.depth p b rest →
      ReadsInside maxDepth p false outer els.events els.nonempty rest
  | .members ms, b =>
    ∀ p rest outer, p.stack = ⟨true, false, false⟩ :: outer → Before maxDepth ms.depth p b rest →
      ReadsInside maxDepth p true outer ms.events ms.nonempty rest

/-! ## Scalars -/

theorem behind_of_at {s before rest : Bytes} {pos : Nat} (h : At s pos before rest) :
    Behind s pos rest :=
  ⟨before, [], whitespace_nil, h⟩

/-- A scalar whose scanner answers with the text `text` and the end of `c :: b`. -/
theorem parsesFrom_scalar {maxDepth : Nat} {v : Value} {c : UInt8} {b text : Bytes}
    {token : JsonToken} (htoken : (⟨token, text⟩ : JsonEvent).proceeds = true)
    (hevents : v.events = [⟨token, text⟩])
    (hdispatch : ∀ p rest, Before maxDepth v.depth p (c :: b) rest →
      p.dispatch maxDepth c = (⟨token, text⟩, { p with pos := p.pos + (c :: b).length })) :
    ParsesFrom maxDepth v c b := by
  intro p rest hp
  obtain ⟨before, hat⟩ := hp.split
  refine ⟨p.pos + (c :: b).length, behind_of_at hat.advance, ?_⟩
  rw [hdispatch p rest hp]
  exact ⟨htoken, [], hevents, rfl⟩

theorem parses_string {maxDepth : Nat} {raw : Bytes} (hraw : Chars raw) :
    Parses maxDepth (.value (.string raw)) (quote :: (raw ++ [quote])) := by
  refine ⟨quote, raw ++ [quote], rfl, ⟨by decide, by decide⟩, parsesFrom_scalar rfl rfl ?_⟩
  intro p rest hp
  obtain ⟨before, hat⟩ := hp.split
  unfold JsonParser.dispatch
  rw [if_neg (by decide), if_neg (by decide), if_pos rfl, scanString_complete ⟨hraw, rfl⟩ hat]
  rfl

theorem parses_null {maxDepth : Nat} : Parses maxDepth (.value .null) nullBytes := by
  refine ⟨lowerN, _, rfl, ⟨by decide, by decide⟩, parsesFrom_scalar rfl rfl ?_⟩
  intro p rest hp
  obtain ⟨before, hat⟩ := hp.split
  show p.finishScalar .nullValue _ = _
  rw [scanLiteral_complete nullBytes hat]
  rfl

theorem parses_boolean {maxDepth : Nat} (b : Bool) :
    Parses maxDepth (.value (.boolean b)) (booleanBytes b) := by
  cases b with
  | true =>
    refine ⟨lowerT, _, rfl, ⟨by decide, by decide⟩, parsesFrom_scalar rfl rfl ?_⟩
    intro p rest hp
    obtain ⟨before, hat⟩ := hp.split
    show p.finishScalar .boolean _ = _
    rw [scanLiteral_complete (booleanBytes true) hat]
    rfl
  | false =>
    refine ⟨lowerF, _, rfl, ⟨by decide, by decide⟩, parsesFrom_scalar rfl rfl ?_⟩
    intro p rest hp
    obtain ⟨before, hat⟩ := hp.split
    show p.finishScalar .boolean _ = _
    rw [scanLiteral_complete (booleanBytes false) hat]
    rfl

/-- The bytes that `start_value` takes for the start of a number. -/
def StartsNumber (c : UInt8) : Prop := c = minus ∨ isDigit c = true

theorem StartsNumber.ne {c d : UInt8} (hc : StartsNumber c) (hd : ¬ StartsNumber d) : c ≠ d := by
  rintro rfl
  exact hd hc

instance (c : UInt8) : Decidable (StartsNumber c) := inferInstanceAs (Decidable (_ ∨ _))

theorem Number.starts {l : Bytes} (hl : Number l) : ∃ c b, l = c :: b ∧ StartsNumber c := by
  obtain ⟨sign, int, frac, exp, rfl, hsign, hint, -⟩ := hl
  rcases hsign with rfl | rfl
  · rcases hint with rfl | ⟨d, ds, rfl, hd, -⟩
    · exact ⟨zero, _, rfl, by decide⟩
    · exact ⟨d, _, rfl, .inr hd⟩
  · exact ⟨minus, _, rfl, .inl rfl⟩

theorem StartsNumber.startsValue {c : UInt8} (hc : StartsNumber c) : StartsValue c := by
  refine ⟨?_, hc.ne (by decide)⟩
  simp only [isWhitespace, Bool.or_eq_false_iff, beq_eq_false_iff_ne]
  exact ⟨⟨⟨hc.ne (by decide), hc.ne (by decide)⟩, hc.ne (by decide)⟩, hc.ne (by decide)⟩

theorem parses_number {maxDepth : Nat} {l : Bytes} (hl : Number l) :
    Parses maxDepth (.value (.number l)) l := by
  obtain ⟨c, b, rfl, hc⟩ := hl.starts
  refine ⟨c, b, rfl, hc.startsValue, parsesFrom_scalar rfl rfl ?_⟩
  intro p rest hp
  obtain ⟨before, hat⟩ := hp.split
  unfold JsonParser.dispatch
  rw [if_neg (hc.ne (by decide)), if_neg (hc.ne (by decide)), if_neg (hc.ne (by decide)),
    if_neg (hc.ne (by decide)), if_neg (hc.ne (by decide)), if_neg (hc.ne (by decide)),
    if_pos (show c = minus ∨ isDigit c = true from hc), scanNumber_complete hl hp.ends hat,
    hat.drop]
  simp [Except.map, JsonParser.finishScalar]

/-! ## Values in their surroundings -/

theorem numberEnds_of_head {c : UInt8} {rest : Bytes}
    (hc : isDigit c = false ∧ c ≠ point ∧ c ≠ lowerE ∧ c ≠ upperE) : NumberEnds (c :: rest) := by
  intro d hd
  cases hd
  exact hc

theorem NumberEnds.space {w rest : Bytes} (hw : Whitespace w) (hrest : NumberEnds rest) :
    NumberEnds (w ++ rest) := by
  cases w with
  | nil => exact hrest
  | cons c w =>
    have hc := hw c List.mem_cons_self
    refine numberEnds_of_head ?_
    simp only [isWhitespace, Bool.or_eq_true, beq_iff_eq] at hc
    rcases hc with ((rfl | rfl) | rfl) | rfl <;> decide

theorem Behind.space {s w rest : Bytes} {pos : Nat} (hw : Whitespace w)
    (h : Behind s pos (w ++ rest)) : Behind s pos rest := by
  obtain ⟨before, w', hw', hat⟩ := h
  exact ⟨before, w' ++ w, hw'.append hw, by rwa [List.append_assoc]⟩

theorem parses_element {maxDepth : Nat} {v : Value} {w b w' : Bytes} (hw : Whitespace w)
    (hv : Parses maxDepth (.value v) b) (hw' : Whitespace w') :
    Parses maxDepth (.element v) (w ++ (b ++ w')) := by
  obtain ⟨c, b, rfl, hc, hfrom⟩ := hv
  refine ⟨w, c, b ++ w', rfl, hw, hc, ?_⟩
  intro p rest hp
  obtain ⟨before, hat⟩ := hp.split
  have hbefore : Before maxDepth v.depth p (c :: b) (w' ++ rest) :=
    ⟨hp.running, ⟨before, by simpa using hat⟩, hp.room, hp.ends.space hw'⟩
  obtain ⟨pos, hbehind, hwalks⟩ := hfrom p (w' ++ rest) hbefore
  exact ⟨pos, hbehind.space hw', hwalks⟩

/-! ## Containers -/

/-- From the opening byte `o` to the closing byte `c`: the frame is opened, what is inside is read,
and the call at the closing byte takes the frame away again. -/
theorem parsesFrom_container {maxDepth n : Nat} {v : Value} {isObject seen : Bool} {o c : UInt8}
    {b : Bytes} {es : List JsonEvent} (start stop : JsonToken)
    (hstart : (⟨start, []⟩ : JsonEvent).proceeds = true)
    (hstop : (⟨stop, []⟩ : JsonEvent).proceeds = true)
    (hevents : v.events = ⟨start, []⟩ :: (es ++ [⟨stop, []⟩])) (hdepth : v.depth = n + 1)
    (hopen : ∀ p : JsonParser, p.dispatch maxDepth o = p.openFrame maxDepth isObject start)
    (hin : ∀ p rest outer, p.stack = ⟨isObject, false, false⟩ :: outer →
      Before maxDepth n p b rest → ReadsInside maxDepth p isObject outer es seen rest)
    (hc : ∀ rest, NumberEnds (c :: rest))
    (hclose : ∀ (p : JsonParser) before w rest outer, p.state = .running →
      p.stack = ⟨isObject, seen, false⟩ :: outer → At p.source p.pos before (w ++ c :: rest) →
      Whitespace w → p.next maxDepth =
        (⟨stop, []⟩, { p with pos := p.pos + w.length + 1, stack := outer })) :
    ParsesFrom maxDepth v o (b ++ [c]) := by
  intro p rest hp
  obtain ⟨before, hat⟩ := hp.split
  have hroom := hp.room
  rw [hdepth] at hroom
  have hframe : p.openFrame maxDepth isObject start = (⟨start, []⟩,
      { p with pos := p.pos + 1, stack := ⟨isObject, false, false⟩ :: p.stack }) :=
    if_neg (by omega)
  have hready : Before maxDepth n
      { p with pos := p.pos + 1, stack := ⟨isObject, false, false⟩ :: p.stack } b (c :: rest) := by
    refine ⟨hp.running, ⟨_, by simpa using hat.next⟩, ?_, hc rest⟩
    rw [List.length_cons]
    omega
  obtain ⟨pos, ⟨before', w, hw, hat'⟩, hrun⟩ := hin _ _ p.stack rfl hready
  refine ⟨pos + w.length + 1, behind_of_at hat'.advance.next, ?_⟩
  rw [hopen, hframe, hevents]
  refine ⟨hstart, _, rfl, run_walks hrun ?_⟩
  rw [hclose { p with pos := pos, stack := _ :: p.stack } before' w rest _ hp.running rfl hat' hw]
  exact ⟨hstop, [], rfl, rfl⟩

theorem parses_array {maxDepth : Nat} {els : Elements} {b : Bytes}
    (hels : Parses maxDepth (.elements els) b) :
    Parses maxDepth (.value (.array els)) (openBracket :: (b ++ [closeBracket])) := by
  refine ⟨openBracket, _, rfl, ⟨by decide, by decide⟩, ?_⟩
  exact parsesFrom_container .beginArray .endArray rfl rfl rfl rfl
    (fun _ => rfl) hels (fun _ => numberEnds_of_head (by decide))
    fun _ _ _ _ _ => next_closeArray maxDepth

theorem parses_object {maxDepth : Nat} {ms : Members} {b : Bytes}
    (hms : Parses maxDepth (.members ms) b) :
    Parses maxDepth (.value (.object ms)) (openBrace :: (b ++ [closeBrace])) := by
  refine ⟨openBrace, _, rfl, ⟨by decide, by decide⟩, ?_⟩
  exact parsesFrom_container .beginObject .endObject rfl rfl rfl rfl
    (fun _ => rfl) hms (fun _ => numberEnds_of_head (by decide))
    fun _ _ _ _ _ => next_closeObject maxDepth

section Growing

variable {maxDepth : Nat} {p : JsonParser} {outer : List Frame} {v : Value} {b rest : Bytes}

theorem readsInside_nil {isObject : Bool} {before w : Bytes}
    (hstack : p.stack = ⟨isObject, false, false⟩ :: outer)
    (hat : At p.source p.pos before (w ++ rest)) (hw : Whitespace w) :
    ReadsInside maxDepth p isObject outer [] false rest := by
  refine ⟨p.pos, ⟨before, w, hw, hat⟩, ?_⟩
  rw [← hstack]
  rfl

/-- One more element. -/
theorem ReadsInside.element {es : List JsonEvent} {seen : Bool}
    (h : ReadsInside maxDepth p false outer es seen (separator seen ++ (b ++ rest)))
    (hv : Parses maxDepth (.element v) b) (hrunning : p.state = .running)
    (hroom : v.depth + (outer.length + 1) ≤ maxDepth) (hends : NumberEnds rest) :
    ReadsInside maxDepth p false outer (es ++ v.events) true rest := by
  obtain ⟨pos, ⟨before, w, hw, hat⟩, hrun⟩ := h
  obtain ⟨w', c, b, rfl, hw', hc, hfrom⟩ := hv
  rw [List.append_assoc, List.cons_append] at hat
  obtain ⟨pos₁, before₁, hat₁, hnext⟩ := next_element maxDepth
    (p := { p with pos := pos, stack := ⟨false, seen, false⟩ :: outer })
    hrunning rfl hat hw hw' hc
  obtain ⟨pos₂, hbehind, hwalks⟩ := hfrom
    { p with pos := pos₁, stack := ⟨false, true, false⟩ :: outer } rest
    ⟨hrunning, ⟨before₁, hat₁⟩, hroom, hends⟩
  refine ⟨pos₂, hbehind, run_walks hrun ?_⟩
  rw [hnext]
  exact hwalks

/-- One more member. -/
theorem ReadsInside.member {es : List JsonEvent} {seen : Bool} {k a : Bytes}
    (h : ReadsInside maxDepth p true outer es seen (separator seen ++ (a ++ (b ++ rest))))
    (hk : KeyColon k a) (hv : Parses maxDepth (.element v) b) (hrunning : p.state = .running)
    (hroom : v.depth + (outer.length + 1) ≤ maxDepth) (hends : NumberEnds rest) :
    ReadsInside maxDepth p true outer (es ++ ⟨.key, k⟩ :: v.events) true rest := by
  obtain ⟨pos, ⟨before, w, hw, hat⟩, hrun⟩ := h
  obtain ⟨w', c, b, rfl, hw', hc, hfrom⟩ := hv
  obtain ⟨pos₁, before₁, hat₁, hkey⟩ := next_key maxDepth
    (p := { p with pos := pos, stack := ⟨true, seen, false⟩ :: outer })
    hrunning rfl hat hw hk
  rw [List.append_assoc, List.cons_append] at hat₁
  have hnext := next_member maxDepth
    (p := { p with pos := pos₁, stack := ⟨true, true, true⟩ :: outer })
    hrunning rfl hat₁ hw' hc.1
  obtain ⟨pos₂, hbehind, hwalks⟩ := hfrom
    { p with pos := pos₁ + w'.length, stack := ⟨true, true, false⟩ :: outer } rest
    ⟨hrunning, ⟨_, hat₁.advance⟩, hroom, hends⟩
  refine ⟨pos₂, hbehind, run_walks hrun ?_⟩
  rw [hkey]
  refine ⟨rfl, v.events, rfl, Walks.run ?_⟩
  rw [hnext]
  exact hwalks

end Growing

/-! ## Documents -/

theorem Derives.parses (maxDepth : Nat) {ph : Phrase} {b : Bytes} (h : Derives ph b) :
    Parses maxDepth ph b := by
  induction h with
  | null => exact parses_null
  | boolean b => exact parses_boolean b
  | number hl => exact parses_number hl
  | string hraw => exact parses_string hraw
  | array _ ih => exact parses_array ih
  | object _ ih => exact parses_object ih
  | element hw _ hw' ih => exact parses_element hw ih hw'
  | noElements hw =>
    intro p rest outer hstack hp
    obtain ⟨before, hat⟩ := hp.split
    exact readsInside_nil hstack hat hw
  | firstElement _ ih =>
    intro p rest outer hstack hp
    obtain ⟨before, hat⟩ := hp.split
    have hroom := hp.room
    rw [Elements.depth, hstack, List.length_cons] at hroom
    exact (readsInside_nil (w := []) hstack hat whitespace_nil).element ih hp.running
      (Nat.le_trans (Nat.add_le_add_right (Nat.le_max_right _ _) _) hroom) hp.ends
  | nextElement _ _ ihs ih =>
    intro p rest outer hstack hp
    obtain ⟨before, hat⟩ := hp.split
    have hroom := hp.room
    rw [Elements.depth] at hroom
    rw [List.append_assoc] at hat
    refine (ihs p _ outer hstack ⟨hp.running, ⟨before, hat⟩, ?_, ?_⟩).element ih hp.running ?_
      hp.ends
    · exact Nat.le_trans (Nat.add_le_add_right (Nat.le_max_left _ _) _) hroom
    · exact numberEnds_of_head (by decide)
    · rw [hstack, List.length_cons] at hroom
      exact Nat.le_trans (Nat.add_le_add_right (Nat.le_max_right _ _) _) hroom
  | noMembers hw =>
    intro p rest outer hstack hp
    obtain ⟨before, hat⟩ := hp.split
    exact readsInside_nil hstack hat hw
  | firstMember hk _ ih =>
    intro p rest outer hstack hp
    obtain ⟨before, hat⟩ := hp.split
    have hroom := hp.room
    rw [Members.depth, hstack, List.length_cons] at hroom
    rw [List.append_assoc] at hat
    exact (readsInside_nil (w := []) hstack hat whitespace_nil).member hk ih hp.running
      (Nat.le_trans (Nat.add_le_add_right (Nat.le_max_right _ _) _) hroom) hp.ends
  | nextMember _ hk _ ihs ih =>
    intro p rest outer hstack hp
    obtain ⟨before, hat⟩ := hp.split
    have hroom := hp.room
    rw [Members.depth] at hroom
    rw [List.append_assoc, List.cons_append, List.append_assoc] at hat
    refine (ihs p _ outer hstack ⟨hp.running, ⟨before, hat⟩, ?_, ?_⟩).member hk ih hp.running ?_
      hp.ends
    · exact Nat.le_trans (Nat.add_le_add_right (Nat.le_max_left _ _) _) hroom
    · exact numberEnds_of_head (by decide)
    · rw [hstack, List.length_cons] at hroom
      exact Nat.le_trans (Nat.add_le_add_right (Nat.le_max_right _ _) _) hroom

/-- Behind the value, and up to whitespace at the end of the text, `next` reports the end. -/
theorem next_end {maxDepth : Nat} {p : JsonParser} (hrun : p.state = .running)
    (hstack : p.stack = []) (hstarted : p.topLevelStarted = true)
    (h : Behind p.source p.pos []) : (p.next maxDepth).1.type = .end := by
  obtain ⟨before, w, hw, hat⟩ := h
  have hskip : skipWhitespace p.source p.pos = p.source.length := by
    have hend := hat.skip_eq hw nofun
    exact hend.pos_eq.trans (by rw [hend.split, List.append_nil])
  unfold JsonParser.next
  rw [hrun, hstack]
  dsimp only
  rw [if_pos hstarted, hskip, if_neg (Nat.lt_irrefl _)]

/-- **Completeness.** -/
theorem Document.accepts {maxDepth : Nat} {v : Value} {s : Bytes} (h : Document v s)
    (hd : v.depth ≤ maxDepth) : Accepts maxDepth s v.events := by
  obtain ⟨w, c, b, rfl, hw, hc, hfrom⟩ := h.parses maxDepth
  have hat := at_zero (w ++ c :: b)
  have hready : Before maxDepth v.depth ⟨w ++ c :: b, 0 + w.length, [], true, .running, "", 0⟩
      (c :: b) [] := ⟨rfl, ⟨_, by rw [List.append_nil]; exact hat.advance⟩, hd, nofun⟩
  obtain ⟨pos, hbehind, hwalks⟩ := hfrom _ _ hready
  refine ⟨⟨w ++ c :: b, pos, [], true, .running, "", 0⟩, Walks.run ?_, next_end rfl rfl rfl hbehind⟩
  have hstart : (JsonParser.create (w ++ c :: b)).next maxDepth =
      (JsonParser.mk (w ++ c :: b) (0 + w.length) [] true .running "" 0).dispatch maxDepth c :=
    startValue_eq maxDepth (p := ⟨w ++ c :: b, 0, [], true, .running, "", 0⟩) hat hw hc.1
  rw [hstart]
  exact hwalks

end Json

end EglUtil
