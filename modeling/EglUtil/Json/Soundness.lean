import EglUtil.Json.Scanner
import EglUtil.Json.Reading

/-!
# The parser stays on a readable text

Between two calls of `next` the parser rests at a point of the text (`Rests`): its frames are the
holes around the point. `Stands` adds that the bytes before the cursor can be read up to that
point and that the events delivered are those of the point. One call of `next` keeps this, or it
ends (`Outcome`, `next_outcome`):

* it delivers an event and stands at the point behind it, or
* it reports an error, and the bytes before the error's offset can be completed to a document
  whose events start with those delivered, or
* it reports the end, and the whole source is a document with just these events.
-/

namespace EglUtil

namespace Json

/-! ## Where the parser rests -/

/-- The frame of a container around a value that is being read. -/
def Hole.frame : Hole → Frame
  | .array _ => ⟨false, true, false⟩
  | .member _ _ => ⟨true, true, false⟩

/-- The points between two calls, with `top_level_started_` and the frames. -/
inductive Rests : Point → Bool → List Frame → Prop where
  | start : Rests (.slot []) false []
  | done (v : Value) : Rests (.done v) true []
  | array (es : Elements) (holes : List Hole) :
      Rests (.array es holes) true (⟨false, es.nonempty, false⟩ :: holes.map Hole.frame)
  | object (ms : Members) (holes : List Hole) :
      Rests (.object ms holes) true (⟨true, ms.nonempty, false⟩ :: holes.map Hole.frame)
  | member (ms : Members) (k : Bytes) (holes : List Hole) :
      Rests (.slot (.member ms k :: holes)) true (⟨true, true, true⟩ :: holes.map Hole.frame)

theorem rests_plug (v : Value) (holes : List Hole) :
    Rests (plug v holes) true (holes.map Hole.frame) := by
  match holes with
  | [] => exact .done v
  | .array es :: holes => exact .array (.snoc es v) holes
  | .member ms k :: holes => exact .object (.snoc ms k v) holes

/-- The parser has read `before`, up to the point `q`. -/
structure Cursor (maxDepth : Nat) (s : Bytes) (q : Point) (p : JsonParser) (before rest : Bytes) :
    Prop where
  running : p.state = .running
  source : p.source = s
  split : At s p.pos before rest
  reads : Reads maxDepth q before

structure Stands (maxDepth : Nat) (s : Bytes) (es : List JsonEvent) (q : Point) (p : JsonParser) :
    Prop where
  cursor : ∃ before rest, Cursor maxDepth s q p before rest
  events : q.events = es
  rests : Rests q p.topLevelStarted p.stack

/-- What a call of `next` can come to, after the events `es`. -/
inductive Outcome (maxDepth : Nat) (s : Bytes) (es : List JsonEvent) :
    JsonEvent × JsonParser → Prop where
  | event {e : JsonEvent} {q : Point} {p : JsonParser} (he : e.proceeds = true)
      (h : Stands maxDepth s (es ++ [e]) q p) : Outcome maxDepth s es (e, p)
  | error {p : JsonParser} (hle : p.errorOffset ≤ s.length)
      (h : Completable maxDepth (s.take p.errorOffset) es) :
      Outcome maxDepth s es (⟨.error, []⟩, p)
  | end {p : JsonParser} {v : Value} (hdoc : Document v s) (hd : v.depth ≤ maxDepth)
      (hes : v.events = es) : Outcome maxDepth s es (⟨.end, []⟩, p)

section Step

variable {maxDepth : Nat} {s : Bytes} {es : List JsonEvent} {p : JsonParser} {q : Point}
  {before rest : Bytes} {holes : List Hole}

theorem outcome_makeError {f : Failure} (hrun : p.state = .running)
    (hat : At s f.offset before rest) (h : Completable maxDepth before es) :
    Outcome maxDepth s es (p.makeError f) := by
  unfold JsonParser.makeError
  rw [if_neg (by rw [hrun]; decide)]
  exact .error hat.le (by rwa [hat.take])

theorem Cursor.skip (h : Cursor maxDepth s q p before rest) :
    ∃ w rest', Whitespace w ∧ Cursor maxDepth s q { p with pos := skipWhitespace p.source p.pos }
      (before ++ w) rest' := by
  obtain ⟨w, rest', -, hw, -, hat⟩ := h.split.skip isWhitespace
  refine ⟨w, rest', hw, h.running, h.source, ?_, h.reads.space hw⟩
  rw [h.source]
  exact hat

theorem Cursor.completable (h : Cursor maxDepth s q p before rest) (hes : q.events = es) :
    Completable maxDepth before es := by
  rw [← hes]
  exact h.reads.viable

/-! ## Values -/

/-- A value is wanted at the cursor, and the frames are those of the holes. -/
structure InSlot (maxDepth : Nat) (s : Bytes) (es : List JsonEvent) (holes : List Hole)
    (p : JsonParser) (before rest : Bytes) : Prop
    extends Cursor maxDepth s (.slot holes) p before rest where
  events : holesEvents holes = es
  started : p.topLevelStarted = true
  stack : p.stack = holes.map Hole.frame

theorem InSlot.completable (h : InSlot maxDepth s es holes p before rest) :
    Completable maxDepth before es :=
  h.toCursor.completable h.events

/-- The kinds of scalars: the token of the text `text` spells `value text`. -/
structure ScalarKind (T : Bytes → Bytes → Prop) (token : JsonToken) (value : Bytes → Value) :
    Prop where
  proceeds : ∀ text, (⟨token, text⟩ : JsonEvent).proceeds = true
  spells : ∀ text tok, T text tok → Derives (.value (value text)) tok
  events : ∀ text tok, T text tok → (value text).events = [⟨token, text⟩]
  depth : ∀ text, (value text).depth = 0

theorem InSlot.reads_scalar {v : Value} {tok : Bytes}
    (h : InSlot maxDepth s es holes p before rest) (hv : Derives (.value v) tok)
    (hd : v.depth = 0) : Reads maxDepth (plug v holes) (before ++ tok) := by
  refine h.reads.value hv ?_
  rw [hd, Nat.zero_add]
  exact HolesFit.length_le h.reads.fits

theorem outcome_finishScalar {T : Bytes → Bytes → Prop} {token : JsonToken} {value : Bytes → Value}
    {r : Except Failure (Bytes × Nat)} (hT : ScalarKind T token value)
    (h : InSlot maxDepth s es holes p before rest) (hr : Scans T rest p.pos r) :
    Outcome maxDepth s es (p.finishScalar token r) := by
  match r, hr with
  | .error f, ⟨text, part, fin, tail, hrest, hoff, htok⟩ =>
    -- what was read of the scalar can be completed, and then everything
    have hat : At s f.offset (before ++ part) tail := by
      rw [hoff]
      exact (hrest ▸ h.split).advance
    have hviable := (h.reads_scalar (hT.spells _ _ htok) (hT.depth text)).viable
    rw [← List.append_assoc, events_plug, h.events] at hviable
    exact outcome_makeError h.running hat hviable.of_append
  | .ok (text, pos), ⟨tok, tail, hrest, htok, hpos⟩ =>
    refine .event (q := plug (value text) holes) (hT.proceeds text)
      ⟨⟨before ++ tok, tail, ?_⟩, ?_, ?_⟩
    · refine ⟨h.running, h.source, ?_, h.reads_scalar (hT.spells _ _ htok) (hT.depth text)⟩
      rw [hpos]
      exact (hrest ▸ h.split).advance
    · rw [events_plug, h.events, hT.events _ _ htok]
    · rw [h.started, h.stack]
      exact rests_plug _ _

theorem scalarKind_string : ScalarKind StringToken .string .string where
  proceeds _ := rfl
  spells _ _ h := by
    obtain ⟨hraw, rfl⟩ := h
    exact .string hraw
  events _ _ _ := rfl
  depth _ := by simp [Value.depth]

theorem scalarKind_number :
    ScalarKind (fun text tok => Number text ∧ tok = text) .number .number where
  proceeds _ := rfl
  spells _ _ h := by
    obtain ⟨hl, rfl⟩ := h
    exact .number hl
  events _ _ _ := rfl
  depth _ := by simp [Value.depth]

theorem scalarKind_boolean (b : Bool) :
    ScalarKind (fun text tok => text = booleanBytes b ∧ tok = booleanBytes b) .boolean
      fun _ => .boolean b where
  proceeds _ := rfl
  spells _ _ h := by
    obtain ⟨-, rfl⟩ := h
    exact .boolean b
  events _ _ h := by
    obtain ⟨rfl, -⟩ := h
    rfl
  depth _ := by simp [Value.depth]

theorem scalarKind_null :
    ScalarKind (fun text tok => text = nullBytes ∧ tok = nullBytes) .nullValue fun _ => .null where
  proceeds _ := rfl
  spells _ _ h := by
    obtain ⟨-, rfl⟩ := h
    exact .null
  events _ _ h := by
    obtain ⟨rfl, -⟩ := h
    rfl
  depth _ := by simp [Value.depth]

theorem scans_literal (literal : Bytes) (h : At s p.pos before rest) :
    Scans (fun text tok => text = literal ∧ tok = literal) rest p.pos
      ((scanLiteral s p.pos literal).map fun e => (literal, e)) := by
  have hlit := scanLiteral_spec literal h
  generalize scanLiteral s p.pos literal = r at hlit
  cases r with
  | error f =>
    obtain ⟨part, fin, tail, hrest, hoff, hpart⟩ := hlit
    exact ⟨literal, part, fin, tail, hrest, hoff, rfl, hpart⟩
  | ok pos =>
    obtain ⟨tok, tail, hrest, htok, hpos⟩ := hlit
    exact ⟨tok, tail, hrest, ⟨rfl, htok⟩, hpos⟩

theorem scans_number (h : At s p.pos before rest) :
    Scans (fun text tok => Number text ∧ tok = text) rest p.pos
      ((scanNumber s p.pos).map fun e => ((s.drop p.pos).take (e - p.pos), e)) := by
  have hnum := scanNumber_spec h
  generalize scanNumber s p.pos = r at hnum
  cases r with
  | error f =>
    obtain ⟨part, fin, tail, hrest, hoff, hpart⟩ := hnum
    exact ⟨part ++ fin, part, fin, tail, hrest, hoff, hpart, rfl⟩
  | ok pos =>
    obtain ⟨tok, tail, hrest, htok, hpos⟩ := hnum
    have htext : (s.drop p.pos).take (pos - p.pos) = tok := by
      rw [h.drop, hrest, hpos, take_content]
    refine ⟨tok, tail, hrest, ?_, hpos⟩
    rw [htext]
    exact ⟨htok, rfl⟩

/-- `open_frame`: the frame of an empty container, unless there are too many. -/
theorem outcome_openFrame {isObject : Bool} {token : JsonToken} {c : UInt8} {rest' : Bytes}
    (htoken : (⟨token, []⟩ : JsonEvent).proceeds = true)
    (h : InSlot maxDepth s es holes p before rest) (hrest : rest = c :: rest')
    (hreads : holes.length < maxDepth → Reads maxDepth q (before ++ [c]))
    (hes : q.events = holesEvents holes ++ [⟨token, []⟩])
    (hrests : Rests q true (⟨isObject, false, false⟩ :: holes.map Hole.frame)) :
    Outcome maxDepth s es (p.openFrame maxDepth isObject token) := by
  subst hrest
  unfold JsonParser.openFrame
  rw [h.stack, List.length_map]
  by_cases hd : holes.length ≥ maxDepth
  · rw [if_pos hd]
    exact outcome_makeError h.running h.split h.completable
  · rw [if_neg hd]
    refine .event htoken ⟨⟨_, rest', h.running, h.source, h.split.next,
      hreads (Nat.lt_of_not_le hd)⟩, ?_, ?_⟩
    · rw [hes, h.events]
    · rw [h.started]
      exact hrests

theorem outcome_dispatch {c : UInt8} {rest' : Bytes} (h : InSlot maxDepth s es holes p before rest)
    (hrest : rest = c :: rest') : Outcome maxDepth s es (p.dispatch maxDepth c) := by
  unfold JsonParser.dispatch
  rw [h.source]
  by_cases hbrace : c = openBrace
  · rw [if_pos hbrace]
    subst hbrace
    exact outcome_openFrame rfl h hrest h.reads.openObject rfl (.object .nil holes)
  rw [if_neg hbrace]
  by_cases hbracket : c = openBracket
  · rw [if_pos hbracket]
    subst hbracket
    exact outcome_openFrame rfl h hrest h.reads.openArray rfl (.array .nil holes)
  rw [if_neg hbracket]
  by_cases hquote : c = quote
  · rw [if_pos hquote]
    refine outcome_finishScalar scalarKind_string h ?_
    rw [hrest, hquote]
    exact scanString_spec (hquote ▸ hrest ▸ h.split)
  rw [if_neg hquote]
  by_cases ht : c = lowerT
  · rw [if_pos ht]
    exact outcome_finishScalar (scalarKind_boolean true) h (scans_literal _ h.split)
  rw [if_neg ht]
  by_cases hf : c = lowerF
  · rw [if_pos hf]
    exact outcome_finishScalar (scalarKind_boolean false) h (scans_literal _ h.split)
  rw [if_neg hf]
  by_cases hn : c = lowerN
  · rw [if_pos hn]
    exact outcome_finishScalar scalarKind_null h (scans_literal _ h.split)
  rw [if_neg hn]
  by_cases hd : c = minus ∨ isDigit c = true
  · rw [if_pos hd]
    exact outcome_finishScalar scalarKind_number h (scans_number h.split)
  · rw [if_neg hd]
    exact outcome_makeError h.running h.split h.completable

/-- **`start_value`.** -/
theorem outcome_startValue (h : InSlot maxDepth s es holes p before rest) :
    Outcome maxDepth s es (p.startValue maxDepth) := by
  obtain ⟨w, rest', -, hskip⟩ := h.toCursor.skip
  have hslot : InSlot maxDepth s es holes { p with pos := skipWhitespace p.source p.pos }
      (before ++ w) rest' := ⟨hskip, h.events, h.started, h.stack⟩
  unfold JsonParser.startValue
  dsimp only
  rw [h.source] at hslot ⊢
  rw [hslot.split.getElem?]
  cases rest' with
  | nil => exact outcome_makeError hslot.running hslot.split hslot.completable
  | cons c rest' => exact outcome_dispatch hslot rfl

/-! ## Arrays -/

/-- `close_frame`, once the closing byte has been read. -/
theorem outcome_closeFrame {v : Value} {token : JsonToken} {frame : Frame}
    (htoken : (⟨token, []⟩ : JsonEvent).proceeds = true)
    (h : Cursor maxDepth s (plug v holes) p before rest)
    (hes : (plug v holes).events = es ++ [⟨token, []⟩]) (hstarted : p.topLevelStarted = true)
    (hstack : p.stack = frame :: holes.map Hole.frame) :
    Outcome maxDepth s es (p.closeFrame token) := by
  refine .event (q := plug v holes) htoken ⟨⟨before, rest, h.running, h.source, h.split, h.reads⟩,
    hes, ?_⟩
  show Rests _ p.topLevelStarted p.stack.tail
  rw [hstarted, hstack]
  exact rests_plug v holes

theorem outcome_nextInArray {els : Elements}
    (h : Cursor maxDepth s (.array els holes) p before rest)
    (hes : (Point.array els holes).events = es) (hstarted : p.topLevelStarted = true)
    (hstack : p.stack = ⟨false, els.nonempty, false⟩ :: holes.map Hole.frame) :
    Outcome maxDepth s es
      (p.nextInArray maxDepth ⟨false, els.nonempty, false⟩ (holes.map Hole.frame)) := by
  have hsource := h.source
  obtain ⟨w, rest, -, hskip⟩ := h.skip
  have hreads := hskip.reads
  unfold JsonParser.nextInArray
  dsimp only
  rw [hsource] at hskip ⊢
  generalize skipWhitespace s p.pos = pos at hskip ⊢
  by_cases hclose : peek s pos = closeBracket
  · obtain ⟨rest, rfl⟩ := hskip.split.of_peek hclose (by decide)
    rw [if_pos hclose]
    exact outcome_closeFrame rfl ⟨h.running, rfl, hskip.split.next, hreads.closeArray⟩
      (by rw [events_closeArray, hes]) hstarted hstack
  rw [if_neg hclose]
  have helement := hreads.element
  by_cases hseen : els.nonempty = true
  · rw [if_pos hseen]
    rw [hseen] at hstack
    rw [separator, if_pos hseen] at helement
    by_cases hcomma : peek s pos = comma
    · rw [if_neg (not_not.2 hcomma)]
      obtain ⟨rest, rfl⟩ := hskip.split.of_peek hcomma (by decide)
      have hnext : Cursor maxDepth s (.slot (.array els :: holes)) { p with pos := pos + 1 }
          (before ++ w ++ [comma]) rest := ⟨h.running, hsource, hskip.split.next, helement⟩
      obtain ⟨w', rest, -, hnext⟩ := hnext.skip
      dsimp only at hnext
      rw [hsource] at hnext
      generalize skipWhitespace s (pos + 1) = pos' at hnext ⊢
      by_cases hbracket : peek s pos' = closeBracket
      · rw [if_pos hbracket]
        exact outcome_makeError h.running hnext.split (hnext.completable hes)
      · rw [if_neg hbracket]
        exact outcome_startValue ⟨hnext, hes, hstarted, hstack⟩
    · rw [if_pos hcomma]
      exact outcome_makeError h.running hskip.split (hskip.completable hes)
  · rw [if_neg hseen]
    rw [separator, if_neg hseen, List.append_nil] at helement
    exact outcome_startValue ⟨⟨h.running, rfl, hskip.split, helement⟩, hes, hstarted, rfl⟩

/-! ## Objects -/

theorem keyColon_of_token {w k tok w' : Bytes} (hw : Whitespace w) (htok : StringToken k tok)
    (hw' : Whitespace w') : KeyColon k (w ++ (tok ++ (w' ++ [colon]))) := by
  obtain ⟨hk, rfl⟩ := htok
  exact ⟨w, w', hw, hk, hw', by simp⟩

/-- The start `a` of a key can be completed, and then everything. -/
theorem completable_of_key {ms : Members} {k b a t : Bytes}
    (h : Reads maxDepth (.object ms holes) b)
    (hk : KeyColon k (a ++ t)) (hes : (Point.object ms holes).events = es) :
    Completable maxDepth (b ++ (separator ms.nonempty ++ a)) es := by
  have hviable := (h.member hk).viable
  rw [events_member, hes, ← List.append_assoc, ← List.append_assoc] at hviable
  rw [← List.append_assoc]
  exact hviable.of_append

theorem stringToken_nil : StringToken [] [quote, quote] := ⟨.nil, rfl⟩

/-- Where a key is wanted, the empty key would do. -/
theorem completable_of_keyWanted {ms : Members} {b w : Bytes}
    (h : Reads maxDepth (.object ms holes) b) (hw : Whitespace w)
    (hes : (Point.object ms holes).events = es) :
    Completable maxDepth (b ++ (separator ms.nonempty ++ w)) es :=
  completable_of_key h (keyColon_of_token hw stringToken_nil whitespace_nil) hes

theorem outcome_readKey {ms : Members} {b w : Bytes} (hrun : p.state = .running)
    (hsource : p.source = s) (hat : At s p.pos (b ++ (separator ms.nonempty ++ w)) rest)
    (hreads : Reads maxDepth (.object ms holes) b) (hw : Whitespace w)
    (hes : (Point.object ms holes).events = es) (hstarted : p.topLevelStarted = true) :
    Outcome maxDepth s es (p.readKey (holes.map Hole.frame)) := by
  unfold JsonParser.readKey
  dsimp only
  rw [hsource]
  by_cases hquote : peek s p.pos = quote
  · rw [if_neg (not_not.2 hquote)]
    obtain ⟨rest, rfl⟩ := hat.of_peek hquote (by decide)
    have hscan := scanString_spec hat
    generalize scanString s p.pos = r at hscan
    match r, hscan with
    | .error f, ⟨k, part, fin, tail, hrest, hoff, htok⟩ =>
      have hat' : At s f.offset (b ++ (separator ms.nonempty ++ (w ++ part))) tail := by
        have hadv := (hrest ▸ hat).advance
        rwa [← hoff, List.append_assoc, List.append_assoc] at hadv
      have hk : KeyColon k ((w ++ part) ++ (fin ++ [colon])) := by
        have hkey := keyColon_of_token hw htok whitespace_nil
        simpa only [List.append_assoc, List.nil_append] using hkey
      exact outcome_makeError hrun hat' (completable_of_key hreads hk hes)
    | .ok (k, pos), ⟨tok, tail, hrest, htok, hpos⟩ =>
      have hend : At s pos (b ++ (separator ms.nonempty ++ (w ++ tok))) tail := by
        have hadv := (hrest ▸ hat).advance
        rwa [← hpos, List.append_assoc, List.append_assoc] at hadv
      obtain ⟨w', rest, -, hw', -, hskip⟩ := hend.skip isWhitespace
      have hk : KeyColon k ((w ++ (tok ++ w')) ++ [colon]) := by
        simpa only [List.append_assoc] using keyColon_of_token hw htok hw'
      dsimp only
      change At s (skipWhitespace s pos) _ _ at hskip
      generalize skipWhitespace s pos = pos' at hskip
      simp only [List.append_assoc] at hskip
      by_cases hcolon : peek s pos' = colon
      · rw [if_neg (not_not.2 hcolon)]
        obtain ⟨rest, rfl⟩ := hskip.of_peek hcolon (by decide)
        refine .event (q := .slot (.member ms k :: holes)) rfl ⟨⟨_, rest, hrun, rfl, hskip.next,
          ?_⟩, by rw [events_member, hes], ?_⟩
        · simpa only [List.append_assoc] using hreads.member hk
        · rw [hstarted]
          exact .member ms k holes
      · rw [if_pos hcolon]
        exact outcome_makeError hrun hskip (completable_of_key hreads hk hes)
  · rw [if_pos hquote]
    exact outcome_makeError hrun hat (completable_of_keyWanted hreads hw hes)

theorem outcome_nextInObject {ms : Members} (h : Cursor maxDepth s (.object ms holes) p before rest)
    (hes : (Point.object ms holes).events = es) (hstarted : p.topLevelStarted = true)
    (hstack : p.stack = ⟨true, ms.nonempty, false⟩ :: holes.map Hole.frame) :
    Outcome maxDepth s es
      (p.nextInObject maxDepth ⟨true, ms.nonempty, false⟩ (holes.map Hole.frame)) := by
  have hsource := h.source
  obtain ⟨w, rest, -, hskip⟩ := h.skip
  have hreads := hskip.reads
  unfold JsonParser.nextInObject
  dsimp only
  rw [if_neg (by decide), hsource]
  rw [hsource] at hskip
  generalize skipWhitespace s p.pos = pos at hskip ⊢
  by_cases hclose : peek s pos = closeBrace
  · obtain ⟨rest, rfl⟩ := hskip.split.of_peek hclose (by decide)
    rw [if_pos hclose]
    exact outcome_closeFrame rfl ⟨h.running, rfl, hskip.split.next, hreads.closeObject⟩
      (by rw [events_closeObject, hes]) hstarted hstack
  rw [if_neg hclose]
  by_cases hseen : ms.nonempty = true
  · rw [if_pos hseen]
    by_cases hcomma : peek s pos = comma
    · rw [if_neg (not_not.2 hcomma)]
      obtain ⟨rest, rfl⟩ := hskip.split.of_peek hcomma (by decide)
      obtain ⟨w', rest, -, hw', -, hnext⟩ := hskip.split.next.skip isWhitespace
      change At s (skipWhitespace s (pos + 1)) _ _ at hnext
      have hat : At s (skipWhitespace s (pos + 1))
          (before ++ w ++ (separator ms.nonempty ++ w')) rest := by
        rw [separator, if_pos hseen, ← List.append_assoc]
        exact hnext
      generalize skipWhitespace s (pos + 1) = pos' at hat
      by_cases hbrace : peek s pos' = closeBrace
      · rw [if_pos hbrace]
        exact outcome_makeError h.running hat (completable_of_keyWanted hreads hw' hes)
      · rw [if_neg hbrace]
        exact outcome_readKey h.running rfl hat hreads hw' hes hstarted
    · rw [if_pos hcomma]
      exact outcome_makeError h.running hskip.split (hskip.completable hes)
  · rw [if_neg hseen]
    have hat : At s pos (before ++ w ++ (separator ms.nonempty ++ [])) rest := by
      rw [separator, if_neg hseen, List.append_nil, List.append_nil]
      exact hskip.split
    exact outcome_readKey h.running rfl hat hreads whitespace_nil hes hstarted

/-! ## One call -/

/-- **The step lemma.** -/
theorem next_outcome (h : Stands maxDepth s es q p) : Outcome maxDepth s es (p.next maxDepth) := by
  obtain ⟨⟨before, rest, h⟩, hes, hrests⟩ := h
  unfold JsonParser.next
  rw [h.running]
  dsimp only
  generalize hstarted : p.topLevelStarted = started at hrests
  generalize hstack : p.stack = stack at hrests
  cases hrests with
  | start =>
    dsimp only
    rw [if_neg (by decide)]
    exact outcome_startValue ⟨⟨rfl, h.source, h.split, h.reads⟩, hes, rfl, rfl⟩
  | done v =>
    dsimp only
    rw [if_pos rfl]
    obtain ⟨w, rest, -, hskip⟩ := h.skip
    rw [h.source] at hskip ⊢
    by_cases hlt : skipWhitespace s p.pos < s.length
    · rw [if_pos hlt]
      exact outcome_makeError rfl hskip.split (hskip.completable hes)
    · rw [if_neg hlt]
      have hs : s = before ++ w := by
        rw [← hskip.split.take, List.take_of_length_le (Nat.le_of_not_lt hlt)]
      refine .end (v := v) ?_ hskip.reads.fits hes
      rw [hs]
      exact hskip.reads.document
  | array els holes =>
    dsimp only
    rw [if_neg (by decide)]
    exact outcome_nextInArray h hes hstarted hstack
  | object ms holes =>
    dsimp only
    rw [if_pos rfl]
    exact outcome_nextInObject h hes hstarted hstack
  | member ms k holes =>
    dsimp only
    rw [if_pos rfl]
    unfold JsonParser.nextInObject
    rw [if_pos rfl]
    exact outcome_startValue ⟨⟨h.running, h.source, h.split, h.reads⟩, hes, hstarted, rfl⟩

end Step

end Json

end EglUtil
