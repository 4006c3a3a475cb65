import Mathlib.Data.List.Basic

/-!
# The JSON grammar, over bytes

The grammar of RFC 8259 as a derivation relation: `Derives p b` says that the bytes `b` spell the
phrase `p`. A phrase names the parse tree it stands for, so a derivation of `.element v` (a value
with whitespace around it) is at once a document and its tree.

Lists of elements and members grow at the end, as a parser that reads from left to right finds
them. `Value.events` is the pre-order walk that the pull parser is to produce.
-/

namespace EglUtil

namespace Json

abbrev Bytes := List UInt8

/-! ## Bytes -/

abbrev quote : UInt8 := 0x22
abbrev backslash : UInt8 := 0x5C
abbrev openBracket : UInt8 := 0x5B
abbrev closeBracket : UInt8 := 0x5D
abbrev openBrace : UInt8 := 0x7B
abbrev closeBrace : UInt8 := 0x7D
abbrev colon : UInt8 := 0x3A
abbrev comma : UInt8 := 0x2C
abbrev minus : UInt8 := 0x2D
abbrev plus : UInt8 := 0x2B
abbrev point : UInt8 := 0x2E
abbrev zero : UInt8 := 0x30
abbrev lowerE : UInt8 := 0x65
abbrev upperE : UInt8 := 0x45
abbrev lowerF : UInt8 := 0x66
abbrev lowerN : UInt8 := 0x6E
abbrev lowerT : UInt8 := 0x74
abbrev lowerU : UInt8 := 0x75

def nullBytes : Bytes := [0x6E, 0x75, 0x6C, 0x6C]

def booleanBytes : Bool → Bytes
  | true => [0x74, 0x72, 0x75, 0x65]
  | false => [0x66, 0x61, 0x6C, 0x73, 0x65]

def isWhitespace (c : UInt8) : Bool := c == 0x20 || c == 0x09 || c == 0x0A || c == 0x0D

def isDigit (c : UInt8) : Bool := 0x30 ≤ c && c ≤ 0x39

def isHex (c : UInt8) : Bool := isDigit c || (0x61 ≤ c && c ≤ 0x66) || (0x41 ≤ c && c ≤ 0x46)

/-- The eight short escapes: `" \ / b f n r t`. -/
def isShortEscape (c : UInt8) : Bool :=
  c == quote || c == backslash || c == 0x2F || c == 0x62 || c == 0x66 || c == 0x6E || c == 0x72 ||
    c == 0x74

/-! ## Tokens -/

def Whitespace (b : Bytes) : Prop := ∀ c ∈ b, isWhitespace c = true

def Digits (b : Bytes) : Prop := ∀ c ∈ b, isDigit c = true

/-- The content of a string, between the quotes. -/
inductive Chars : Bytes → Prop where
  | nil : Chars []
  | plain {c : UInt8} {cs : Bytes} (hq : c ≠ quote) (hb : c ≠ backslash) (hc : 0x20 ≤ c)
      (hcs : Chars cs) : Chars (c :: cs)
  | escape {e : UInt8} {cs : Bytes} (he : isShortEscape e = true) (hcs : Chars cs) :
      Chars (backslash :: e :: cs)
  | unicode {h₁ h₂ h₃ h₄ : UInt8} {cs : Bytes} (hx₁ : isHex h₁ = true) (hx₂ : isHex h₂ = true)
      (hx₃ : isHex h₃ = true) (hx₄ : isHex h₄ = true) (hcs : Chars cs) :
      Chars (backslash :: lowerU :: h₁ :: h₂ :: h₃ :: h₄ :: cs)

/-- A lone zero, or digits that do not start with one. -/
def Integer (b : Bytes) : Prop :=
  b = [zero] ∨ ∃ d ds, b = d :: ds ∧ isDigit d = true ∧ d ≠ zero ∧ Digits ds

def Fraction (b : Bytes) : Prop := b = [] ∨ ∃ ds, b = point :: ds ∧ ds ≠ [] ∧ Digits ds

def Sign (b : Bytes) : Prop := b = [] ∨ b = [plus] ∨ b = [minus]

def Exponent (b : Bytes) : Prop :=
  b = [] ∨ ∃ e sign ds, b = e :: (sign ++ ds) ∧ (e = lowerE ∨ e = upperE) ∧ Sign sign ∧
    ds ≠ [] ∧ Digits ds

def Number (b : Bytes) : Prop :=
  ∃ sign int frac exp, b = sign ++ (int ++ (frac ++ exp)) ∧ (sign = [] ∨ sign = [minus]) ∧
    Integer int ∧ Fraction frac ∧ Exponent exp

/-! ## Trees -/

mutual

inductive Value where
  | null
  | boolean (b : Bool)
  | number (literal : Bytes)
  | string (raw : Bytes)
  | array (es : Elements)
  | object (ms : Members)

inductive Elements where
  | nil
  | snoc (es : Elements) (v : Value)

inductive Members where
  | nil
  | snoc (ms : Members) (key : Bytes) (v : Value)

end

mutual

/-- How deep objects and arrays are nested. -/
def Value.depth : Value → Nat
  | .array es => es.depth + 1
  | .object ms => ms.depth + 1
  | _ => 0

def Elements.depth : Elements → Nat
  | .nil => 0
  | .snoc es v => max es.depth v.depth

def Members.depth : Members → Nat
  | .nil => 0
  | .snoc ms _ v => max ms.depth v.depth

end

/-! ## Derivations -/

inductive Phrase where
  | value (v : Value)
  /-- A value with whitespace around it. -/
  | element (v : Value)
  | elements (es : Elements)
  | members (ms : Members)

/-- A key, the whitespace around it, and the colon. -/
def KeyColon (k : Bytes) (b : Bytes) : Prop :=
  ∃ w w', Whitespace w ∧ Chars k ∧ Whitespace w' ∧
    b = w ++ (quote :: (k ++ quote :: (w' ++ [colon])))

inductive Derives : Phrase → Bytes → Prop where
  | null : Derives (.value .null) nullBytes
  | boolean (b : Bool) : Derives (.value (.boolean b)) (booleanBytes b)
  | number {l : Bytes} (hl : Number l) : Derives (.value (.number l)) l
  | string {raw : Bytes} (hraw : Chars raw) :
      Derives (.value (.string raw)) (quote :: (raw ++ [quote]))
  | array {es : Elements} {b : Bytes} (hes : Derives (.elements es) b) :
      Derives (.value (.array es)) (openBracket :: (b ++ [closeBracket]))
  | object {ms : Members} {b : Bytes} (hms : Derives (.members ms) b) :
      Derives (.value (.object ms)) (openBrace :: (b ++ [closeBrace]))
  | element {v : Value} {w b w' : Bytes} (hw : Whitespace w) (hv : Derives (.value v) b)
      (hw' : Whitespace w') : Derives (.element v) (w ++ (b ++ w'))
  | noElements {w : Bytes} (hw : Whitespace w) : Derives (.elements .nil) w
  | firstElement {v : Value} {b : Bytes} (hv : Derives (.element v) b) :
      Derives (.elements (.snoc .nil v)) b
  | nextElement {es : Elements} {u v : Value} {b b' : Bytes}
      (hes : Derives (.elements (.snoc es u)) b) (hv : Derives (.element v) b') :
      Derives (.elements (.snoc (.snoc es u) v)) (b ++ comma :: b')
  | noMembers {w : Bytes} (hw : Whitespace w) : Derives (.members .nil) w
  | firstMember {k : Bytes} {v : Value} {a b : Bytes} (hk : KeyColon k a)
      (hv : Derives (.element v) b) : Derives (.members (.snoc .nil k v)) (a ++ b)
  | nextMember {ms : Members} {j k : Bytes} {u v : Value} {b a b' : Bytes}
      (hms : Derives (.members (.snoc ms j u)) b) (hk : KeyColon k a)
      (hv : Derives (.element v) b') :
      Derives (.members (.snoc (.snoc ms j u) k v)) (b ++ comma :: (a ++ b'))

/-- The whole text: one value, with whitespace around it. -/
def Document (v : Value) (s : Bytes) : Prop := Derives (.element v) s

/-! ## Events -/

inductive JsonToken where
  | beginObject
  | endObject
  | beginArray
  | endArray
  | key
  | string
  | number
  | boolean
  | nullValue
  | end
  | error
deriving Repr, DecidableEq

structure JsonEvent where
  type : JsonToken
  text : Bytes
deriving Repr, DecidableEq

mutual

/-- The pre-order walk of a tree. -/
def Value.events : Value → List JsonEvent
  | .null => [⟨.nullValue, nullBytes⟩]
  | .boolean b => [⟨.boolean, booleanBytes b⟩]
  | .number l => [⟨.number, l⟩]
  | .string raw => [⟨.string, raw⟩]
  | .array es => ⟨.beginArray, []⟩ :: (es.events ++ [⟨.endArray, []⟩])
  | .object ms => ⟨.beginObject, []⟩ :: (ms.events ++ [⟨.endObject, []⟩])

def Elements.events : Elements → List JsonEvent
  | .nil => []
  | .snoc es v => es.events ++ v.events

def Members.events : Members → List JsonEvent
  | .nil => []
  | .snoc ms k v => ms.events ++ ⟨.key, k⟩ :: v.events

end

end Json

end EglUtil
