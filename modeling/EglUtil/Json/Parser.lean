import EglUtil.Lib.Runs
import EglUtil.Json.Grammar

/-!
# `JsonParser`

The pull parser: a cursor into the source, a stack of frames for the containers that are open
(innermost first, so its length is `depth_`), and a latch for the first error. The scanners read
the source at a position and answer with the position after the token, or with the message and
the position at which they give up.
-/

namespace EglUtil

namespace Json

/-! ## Scanners -/

/-- What `make_error` latches. -/
structure Failure where
  message : String
  offset : Nat
deriving Repr, DecidableEq

/-- The current byte, or `'\0'` at the end of the input. -/
def peek (s : Bytes) (pos : Nat) : UInt8 := s[pos]?.getD 0

def skipWhitespace (s : Bytes) (pos : Nat) : Nat :=
  pos + ((s.drop pos).takeWhile isWhitespace).length

/-- `while (is_digit(peek())) ++pos_;` -/
def skipDigits (s : Bytes) (pos : Nat) : Nat := pos + ((s.drop pos).takeWhile isDigit).length

/-- At the backslash in `start`: the position after the escape. -/
def validateEscape (s : Bytes) (start : Nat) : Except Failure Nat :=
  match s[start + 1]? with
  | none => .error ⟨"unterminated escape sequence", start⟩
  | some c =>
    if isShortEscape c then .ok (start + 2)
    else if c = lowerU then
      -- the loop over four digits stops at the first byte that is not one
      let digits := (((s.drop (start + 2)).take 4).takeWhile isHex).length
      if digits = 4 then .ok (start + 6)
      else .error ⟨"invalid \\u escape: expected four hex digits", start + 2 + digits⟩
    else .error ⟨"invalid escape sequence", start + 1⟩

/-- The loop of `scan_string`, up to the closing quote. Each round consumes a byte, so there are
at most as many rounds (the first argument) as bytes. -/
def scanStringFrom (s : Bytes) (openQuote : Nat) : Nat → Nat → Except Failure Nat
  | 0, _ => .error ⟨"unterminated string", openQuote⟩
  | rounds + 1, pos =>
    match s[pos]? with
    | none => .error ⟨"unterminated string", openQuote⟩
    | some c =>
      if c = quote then .ok pos
      else if c = backslash then
        match validateEscape s pos with
        | .error f => .error f
        | .ok pos' => scanStringFrom s openQuote rounds pos'
      else if c < 0x20 then .error ⟨"unescaped control character in string", pos⟩
      else scanStringFrom s openQuote rounds (pos + 1)

/-- At the opening quote: the raw content, and the position after the closing quote. -/
def scanString (s : Bytes) (pos : Nat) : Except Failure (Bytes × Nat) :=
  match scanStringFrom s pos s.length (pos + 1) with
  | .error f => .error f
  | .ok close => .ok ((s.drop (pos + 1)).take (close - (pos + 1)), close + 1)

def scanInteger (s : Bytes) (pos : Nat) : Except Failure Nat :=
  if peek s pos = zero then .ok (pos + 1)
  else if isDigit (peek s pos) then .ok (skipDigits s pos)
  else .error ⟨"invalid number: expected a digit", pos⟩

def scanFraction (s : Bytes) (pos : Nat) : Except Failure Nat :=
  if peek s pos = point then
    if isDigit (peek s (pos + 1)) then .ok (skipDigits s (pos + 1))
    else .error ⟨"invalid number: expected a digit after '.'", pos + 1⟩
  else .ok pos

def scanExponent (s : Bytes) (pos : Nat) : Except Failure Nat :=
  if peek s pos = lowerE ∨ peek s pos = upperE then
    let pos := if peek s (pos + 1) = plus ∨ peek s (pos + 1) = minus then pos + 2 else pos + 1
    if isDigit (peek s pos) then .ok (skipDigits s pos)
    else .error ⟨"invalid number: expected a digit in the exponent", pos⟩
  else .ok pos

/-- The position after the number that starts at `start`. -/
def scanNumber (s : Bytes) (start : Nat) : Except Failure Nat :=
  match scanInteger s (if peek s start = minus then start + 1 else start) with
  | .error f => .error f
  | .ok pos =>
    match scanFraction s pos with
    | .error f => .error f
    | .ok pos => scanExponent s pos

def scanLiteral (s : Bytes) (pos : Nat) (literal : Bytes) : Except Failure Nat :=
  if literal.isPrefixOf (s.drop pos) then .ok (pos + literal.length)
  else .error ⟨"invalid literal", pos⟩

/-! ## The parser -/

inductive State where
  | running
  | finished
  | errored
deriving Repr, DecidableEq

structure Frame where
  isObject : Bool
  /-- At least one member or element was emitted. -/
  seenElement : Bool
  /-- A key was just emitted, and its value comes next. -/
  expectValue : Bool
deriving Repr, DecidableEq

structure JsonParser where
  source : Bytes
  pos : Nat
  stack : List Frame
  topLevelStarted : Bool
  state : State
  errorMessage : String
  errorOffset : Nat
deriving Repr, DecidableEq

namespace JsonParser

def create (source : Bytes) : JsonParser := ⟨source, 0, [], false, .running, "", 0⟩

def makeError (p : JsonParser) (f : Failure) : JsonEvent × JsonParser :=
  (⟨.error, []⟩,
    if p.state = .errored then { p with pos := f.offset }
    else
      { p with
        pos := f.offset
        state := .errored
        errorMessage := f.message
        errorOffset := f.offset })

/-- A scalar event, once its scanner has answered. -/
def finishScalar (p : JsonParser) (token : JsonToken) : Except Failure (Bytes × Nat) →
    JsonEvent × JsonParser
  | .error f => p.makeError f
  | .ok (text, pos) => (⟨token, text⟩, { p with pos := pos })

def openFrame (maxDepth : Nat) (p : JsonParser) (isObject : Bool) (token : JsonToken) :
    JsonEvent × JsonParser :=
  if p.stack.length ≥ maxDepth then p.makeError ⟨"maximum nesting depth exceeded", p.pos⟩
  else (⟨token, []⟩, { p with pos := p.pos + 1, stack := ⟨isObject, false, false⟩ :: p.stack })

/-- The dispatch of `start_value` on the byte `c` at the cursor. -/
def dispatch (maxDepth : Nat) (p : JsonParser) (c : UInt8) : JsonEvent × JsonParser :=
  if c = openBrace then p.openFrame maxDepth true .beginObject
  else if c = openBracket then p.openFrame maxDepth false .beginArray
  else if c = quote then p.finishScalar .string (scanString p.source p.pos)
  else if c = lowerT then
    p.finishScalar .boolean
      ((scanLiteral p.source p.pos (booleanBytes true)).map fun e => (booleanBytes true, e))
  else if c = lowerF then
    p.finishScalar .boolean
      ((scanLiteral p.source p.pos (booleanBytes false)).map fun e => (booleanBytes false, e))
  else if c = lowerN then
    p.finishScalar .nullValue ((scanLiteral p.source p.pos nullBytes).map fun e => (nullBytes, e))
  else if c = minus ∨ isDigit c then
    p.finishScalar .number ((scanNumber p.source p.pos).map fun e =>
      ((p.source.drop p.pos).take (e - p.pos), e))
  else p.makeError ⟨"unexpected character; expected a value", p.pos⟩

def startValue (maxDepth : Nat) (p : JsonParser) : JsonEvent × JsonParser :=
  let p := { p with pos := skipWhitespace p.source p.pos }
  match p.source[p.pos]? with
  | none => p.makeError ⟨"expected a value but reached end of input", p.pos⟩
  | some c => p.dispatch maxDepth c

/-- `close_frame`; the closing byte has been consumed. -/
def closeFrame (p : JsonParser) (token : JsonToken) : JsonEvent × JsonParser :=
  (⟨token, []⟩, { p with stack := p.stack.tail })

/-- The part of `next_in_object` that reads a key and the colon. -/
def readKey (p : JsonParser) (outer : List Frame) : JsonEvent × JsonParser :=
  let p := { p with stack := ⟨true, true, false⟩ :: outer }
  if peek p.source p.pos ≠ quote then p.makeError ⟨"expected a string key", p.pos⟩
  else
    match scanString p.source p.pos with
    | .error f => p.makeError f
    | .ok (raw, pos) =>
      let pos := skipWhitespace p.source pos
      if peek p.source pos ≠ colon then p.makeError ⟨"expected ':' after object key", pos⟩
      else (⟨.key, raw⟩, { p with pos := pos + 1, stack := ⟨true, true, true⟩ :: outer })

def nextInObject (maxDepth : Nat) (p : JsonParser) (frame : Frame) (outer : List Frame) :
    JsonEvent × JsonParser :=
  if frame.expectValue then
    { p with stack := { frame with expectValue := false } :: outer }.startValue maxDepth
  else
    let p := { p with pos := skipWhitespace p.source p.pos }
    if peek p.source p.pos = closeBrace then { p with pos := p.pos + 1 }.closeFrame .endObject
    else if frame.seenElement then
      if peek p.source p.pos ≠ comma then p.makeError ⟨"expected ',' or '\x7d' in object", p.pos⟩
      else
        let p := { p with pos := skipWhitespace p.source (p.pos + 1) }
        if peek p.source p.pos = closeBrace then p.makeError ⟨"trailing comma before '\x7d'", p.pos⟩
        else p.readKey outer
    else p.readKey outer

def nextInArray (maxDepth : Nat) (p : JsonParser) (frame : Frame) (outer : List Frame) :
    JsonEvent × JsonParser :=
  let p := { p with pos := skipWhitespace p.source p.pos }
  if peek p.source p.pos = closeBracket then { p with pos := p.pos + 1 }.closeFrame .endArray
  else if frame.seenElement then
    if peek p.source p.pos ≠ comma then p.makeError ⟨"expected ',' or ']' in array", p.pos⟩
    else
      let p := { p with pos := skipWhitespace p.source (p.pos + 1) }
      if peek p.source p.pos = closeBracket then p.makeError ⟨"trailing comma before ']'", p.pos⟩
      else p.startValue maxDepth
  else { p with stack := { frame with seenElement := true } :: outer }.startValue maxDepth

def next (maxDepth : Nat) (p : JsonParser) : JsonEvent × JsonParser :=
  match p.state with
  | .errored => (⟨.error, []⟩, p)
  | .finished => (⟨.end, []⟩, p)
  | .running =>
    match p.stack with
    | [] =>
      if p.topLevelStarted then
        let p := { p with pos := skipWhitespace p.source p.pos }
        if p.pos < p.source.length then
          p.makeError ⟨"unexpected trailing characters after the top-level value", p.pos⟩
        else (⟨.end, []⟩, { p with state := .finished })
      else { p with topLevelStarted := true }.startValue maxDepth
    | frame :: outer =>
      if frame.isObject then p.nextInObject maxDepth frame outer
      else p.nextInArray maxDepth frame outer

end JsonParser

/-! ## The consumer -/

/-- The events that do not stop the consumer. -/
def JsonEvent.proceeds (e : JsonEvent) : Bool := e.type != .end && e.type != .error

/-- One round of the consumer: `next` delivers `e`, and `e` is neither `end` nor `error`. A run is
then the list of the events delivered. -/
def pull (maxDepth : Nat) (p : JsonParser) (e : JsonEvent) : Option JsonParser :=
  if (p.next maxDepth).1 = e ∧ e.proceeds then some (p.next maxDepth).2 else none

/-- `next` delivers the events `es` and then `end`. -/
def Accepts (maxDepth : Nat) (s : Bytes) (es : List JsonEvent) : Prop :=
  ∃ p, Transition.run (pull maxDepth) (.create s) es = some p ∧ (p.next maxDepth).1.type = .end

/-- `next` delivers the events `es` and then `error`, and `error_offset()` is `offset`. -/
def Rejects (maxDepth : Nat) (s : Bytes) (es : List JsonEvent) (offset : Nat) : Prop :=
  ∃ p, Transition.run (pull maxDepth) (.create s) es = some p ∧
    (p.next maxDepth).1.type = .error ∧ (p.next maxDepth).2.errorOffset = offset

end Json

end EglUtil
