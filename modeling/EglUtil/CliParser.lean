import Mathlib.Logic.Function.Basic
import Mathlib.Data.List.Basic

/-!
# `CliParser`

A command line is a list of tokens. Options and positionals are registered, each bound to a
variable of the caller; `parse` walks the tokens once and writes what it converts straight into
the variables. A token may take the next one as its value, so the parsers of a single token say
whether they advanced the loop's index.

The variables are in two groups: the `bool` variables of the flags, and the variables of the
value options and positionals, each with a type of its own. A value is converted by the
`cli_parse` of the variable's type; those for strings, `bool` and the integers are below.
-/

namespace EglUtil.Cli

/-- A text: a token, a part of one, or a name. -/
abbrev Token := List Char

/-! ## Conversions -/

def cliParseString (input : Token) : Option Token := some input

def cliParseBool (input : Token) : Option Bool :=
  if input ∈ ["true", "1", "yes", "on"].map String.toList then some true
  else if input ∈ ["false", "0", "no", "off"].map String.toList then some false
  else none

/-- The digits of a number in base 10. -/
def magnitude (digits : Token) : Nat :=
  digits.foldl (fun n c => 10 * n + (c.toNat - '0'.toNat)) 0

/-- `std::from_chars` on a whole token, for the integer type with this range. A minus sign is
read only if the type has negative values. -/
def cliParseInteger (least greatest : Int) (input : Token) : Option Int :=
  let negative := decide (least < 0) && input.head? == some '-'
  let digits := if negative then input.tail else input
  let value : Int := if negative then -(magnitude digits : Int) else magnitude digits
  if digits ≠ [] ∧ digits.all Char.isDigit ∧ least ≤ value ∧ value ≤ greatest then some value
  else none

/-! ## Data -/

inductive CliError where
  | unknownOption
  | missingValue
  | unexpectedValue
  | invalidValue
  | missingRequired
  | unexpectedPositional
deriving Repr, DecidableEq

inductive ParseResult where
  | success
  | help
  | failure (code : CliError) (message : String)
deriving Repr, DecidableEq

/-- The variables that arguments are bound to. -/
structure Variables (β : Type*) {κ : Type*} (V : κ → Type*) where
  flag : β → Bool
  value : (target : κ) → V target

/-- What an option does: `is_help`, or the flag it sets, or the variable it converts a value
for (`takes_value`). -/
inductive Action (β : Type*) {κ : Type*} (V : κ → Type*) where
  | help
  | flag (bound : β)
  | value (target : κ) (convert : Token → Option (V target))

/-- The long name is without its dashes, and empty if there is none; `'\0'` is no short name. -/
structure OptionSpec (β : Type*) {κ : Type*} (V : κ → Type*) where
  longName : Token
  shortName : Char
  required : Bool
  seen : Bool
  action : Action β V

structure PositionalSpec {κ : Type*} (V : κ → Type*) where
  name : Token
  required : Bool
  seen : Bool
  target : κ
  convert : Token → Option (V target)

structure CliParser (β : Type*) {κ : Type*} (V : κ → Type*) where
  options : List (OptionSpec β V)
  positionals : List (PositionalSpec V)

variable {β κ : Type*} {V : κ → Type*}

namespace CliParser

/-! ## Registration -/

/-- The option of this long name, and its place. -/
def findLong (p : CliParser β V) (name : Token) : Option (OptionSpec β V × Nat) :=
  p.options.zipIdx.find? fun o => decide (o.1.longName ≠ [] ∧ o.1.longName = name)

/-- The option of this short name, and its place. -/
def findShort (p : CliParser β V) (name : Char) : Option (OptionSpec β V × Nat) :=
  p.options.zipIdx.find? fun o => decide (o.1.shortName ≠ '\x00' ∧ o.1.shortName = name)

/-- A parser has the option `--help` from the start. -/
def new : CliParser β V := ⟨[⟨"help".toList, 'h', false, false, .help⟩], []⟩

def makeNamedSpec (p : CliParser β V) (longName : Token) (shortName : Char) (required : Bool)
    (action : Action β V) : Except String (OptionSpec β V) :=
  if longName = [] ∧ shortName = '\x00' then
    .error "CliParser: an option needs a long name or a short name"
  else if longName ≠ [] ∧ (p.findLong longName).isSome then
    .error ("CliParser: duplicate long name '--" ++ String.ofList longName ++ "'")
  else if shortName ≠ '\x00' ∧ (p.findShort shortName).isSome then
    .error ("CliParser: duplicate short name '-" ++ String.ofList [shortName] ++ "'")
  else .ok ⟨longName, shortName, required, false, action⟩

def addSpec (p : CliParser β V) (longName : Token) (shortName : Char) (required : Bool)
    (action : Action β V) : Except String (CliParser β V) :=
  (p.makeNamedSpec longName shortName required action).map fun spec =>
    { p with options := p.options ++ [spec] }

def addFlag (p : CliParser β V) (longName : Token) (shortName : Char) (bound : β) :
    Except String (CliParser β V) :=
  p.addSpec longName shortName false (.flag bound)

def addOption (p : CliParser β V) (longName : Token) (shortName : Char) (target : κ)
    (convert : Token → Option (V target)) (required : Bool) : Except String (CliParser β V) :=
  p.addSpec longName shortName required (.value target convert)

def addPositional (p : CliParser β V) (name : Token) (target : κ)
    (convert : Token → Option (V target)) (required : Bool) : Except String (CliParser β V) :=
  if name = [] then .error "CliParser: positional name must not be empty"
  else if ∃ existing ∈ p.positionals, existing.name = name then
    .error ("CliParser: duplicate positional name '" ++ String.ofList name ++ "'")
  else .ok { p with positionals := p.positionals ++ [⟨name, required, false, target, convert⟩] }

end CliParser

/-! ## Parsing -/

/-- A parser at work, and the variables it writes to. -/
structure State (β : Type*) {κ : Type*} (V : κ → Type*) where
  parser : CliParser β V
  vars : Variables β V

namespace State

def seeOption (st : State β V) (i : Nat) : State β V :=
  { st with parser.options := st.parser.options.modify i fun o => { o with seen := true } }

def seePositional (st : State β V) (k : Nat) : State β V :=
  { st with parser.positionals :=
      st.parser.positionals.modify k fun q => { q with seen := true } }

def setFlag [DecidableEq β] (st : State β V) (bound : β) : State β V :=
  { st with vars.flag := Function.update st.vars.flag bound true }

def store [DecidableEq κ] (st : State β V) (target : κ) (value : V target) : State β V :=
  { st with vars.value := Function.update st.vars.value target value }

@[simp] theorem seeOption_positionals (st : State β V) (i : Nat) :
    (st.seeOption i).parser.positionals = st.parser.positionals := rfl

@[simp] theorem seeOption_vars (st : State β V) (i : Nat) : (st.seeOption i).vars = st.vars := rfl

@[simp] theorem seePositional_options (st : State β V) (k : Nat) :
    (st.seePositional k).parser.options = st.parser.options := rfl

@[simp] theorem seePositional_vars (st : State β V) (k : Nat) :
    (st.seePositional k).vars = st.vars := rfl

@[simp] theorem parser_setFlag [DecidableEq β] (st : State β V) (bound : β) :
    (st.setFlag bound).parser = st.parser := rfl

@[simp] theorem setFlag_flag [DecidableEq β] (st : State β V) (bound : β) :
    (st.setFlag bound).vars.flag = Function.update st.vars.flag bound true := rfl

@[simp] theorem setFlag_value [DecidableEq β] (st : State β V) (bound : β) :
    (st.setFlag bound).vars.value = st.vars.value := rfl

@[simp] theorem parser_store [DecidableEq κ] (st : State β V) (target : κ) (value : V target) :
    (st.store target value).parser = st.parser := rfl

@[simp] theorem store_flag [DecidableEq κ] (st : State β V) (target : κ) (value : V target) :
    (st.store target value).vars.flag = st.vars.flag := rfl

@[simp] theorem store_value [DecidableEq κ] (st : State β V) (target : κ) (value : V target) :
    (st.store target value).vars.value = Function.update st.vars.value target value := rfl

end State

/-- What the parser of one token returns; `advanced` if it took the next token as well. -/
structure Step (β : Type*) {κ : Type*} (V : κ → Type*) where
  result : ParseResult
  state : State β V
  advanced : Bool

/-- The name and the inline value of `name=value`. -/
def splitInline (body : Token) : Token × Option Token :=
  if '=' ∈ body then (body.take (body.idxOf '='), some (body.drop (body.idxOf '=' + 1)))
  else (body, none)

/-- The rest of a cluster without the `=` it may begin with. -/
def dropEquals : Token → Token
  | '=' :: rest => rest
  | rest => rest

variable [DecidableEq β] [DecidableEq κ]

omit [DecidableEq β] in
def assignOption (st : State β V) (i : Nat) (target : κ) (convert : Token → Option (V target))
    (label : String) (value : Token) (advanced : Bool) : Step β V :=
  match convert value with
  | none => ⟨.failure .invalidValue
      ("invalid value '" ++ String.ofList value ++ "' for option '" ++ label ++ "'"), st, advanced⟩
  | some v => ⟨.success, (st.store target v).seeOption i, advanced⟩

/-- `--name` or `--name=value`, the dashes removed; `rest` are the tokens that follow. -/
def parseLong (st : State β V) (body : Token) (rest : List Token) : Step β V :=
  let (name, inlineValue) := splitInline body
  match st.parser.findLong name with
  | none => ⟨.failure .unknownOption ("unknown option '--" ++ String.ofList name ++ "'"), st, false⟩
  | some (option, i) =>
    let label := "--" ++ String.ofList option.longName
    match option.action with
    | .help => ⟨.help, st, false⟩
    | .flag bound =>
      match inlineValue with
      | some _ => ⟨.failure .unexpectedValue ("flag '" ++ label ++ "' takes no value"), st, false⟩
      | none => ⟨.success, (st.setFlag bound).seeOption i, false⟩
    | .value target convert =>
      match inlineValue, rest with
      | some value, _ => assignOption st i target convert label value false
      | none, [] =>
        ⟨.failure .missingValue ("option '" ++ label ++ "' requires a value"), st, false⟩
      | none, value :: _ => assignOption st i target convert label value true

/-- The letters of a cluster `-abc`. -/
def parseShort (st : State β V) (body : Token) (rest : List Token) : Step β V :=
  match body with
  | [] => ⟨.success, st, false⟩
  | letter :: body =>
    let label := "-" ++ String.ofList [letter]
    match st.parser.findShort letter with
    | none => ⟨.failure .unknownOption ("unknown option '" ++ label ++ "'"), st, false⟩
    | some (option, i) =>
      match option.action with
      | .help => ⟨.help, st, false⟩
      | .flag bound => parseShort ((st.setFlag bound).seeOption i) body rest
      | .value target convert =>
        if body ≠ [] then assignOption st i target convert label (dropEquals body) false
        else
          match rest with
          | [] => ⟨.failure .missingValue ("option '" ++ label ++ "' requires a value"), st, false⟩
          | value :: _ => assignOption st i target convert label value true

omit [DecidableEq β] in
def consumePositional (st : State β V) (token : Token) (positionalIndex : Nat) :
    ParseResult × State β V :=
  match st.parser.positionals[positionalIndex]? with
  | none => (.failure .unexpectedPositional
      ("unexpected positional argument '" ++ String.ofList token ++ "'"), st)
  | some positional =>
    match positional.convert token with
    | none => (.failure .invalidValue ("invalid value '" ++ String.ofList token ++
        "' for argument '" ++ String.ofList positional.name ++ "'"), st)
    | some v => (.success, (st.store positional.target v).seePositional positionalIndex)

omit [DecidableEq β] [DecidableEq κ] in
def checkRequired (p : CliParser β V) : ParseResult :=
  match p.options.find? fun o => o.required && !o.seen with
  | some option => .failure .missingRequired
      ("missing required option '--" ++ String.ofList option.longName ++ "'")
  | none =>
    match p.positionals.find? fun q => q.required && !q.seen with
    | some positional => .failure .missingRequired
        ("missing required argument '" ++ String.ofList positional.name ++ "'")
    | none => .success

/-- The loop over the tokens. -/
def parseTokens (st : State β V) (positionalIndex : Nat) (optionsEnded : Bool) :
    List Token → ParseResult × State β V
  | [] => (checkRequired st.parser, st)
  | token :: rest =>
    if optionsEnded = false ∧ token = ['-', '-'] then parseTokens st positionalIndex true rest
    else if optionsEnded = false ∧ ['-', '-'] <+: token then
      let r := parseLong st (token.drop 2) rest
      if r.result ≠ .success then (r.result, r.state)
      else
        match r.advanced, rest with
        | true, _ :: rest => parseTokens r.state positionalIndex optionsEnded rest
        | _, rest => parseTokens r.state positionalIndex optionsEnded rest
    else if optionsEnded = false ∧ 2 ≤ token.length ∧ token.head? = some '-' then
      let r := parseShort st (token.drop 1) rest
      if r.result ≠ .success then (r.result, r.state)
      else
        match r.advanced, rest with
        | true, _ :: rest => parseTokens r.state positionalIndex optionsEnded rest
        | _, rest => parseTokens r.state positionalIndex optionsEnded rest
    else
      let r := consumePositional st token positionalIndex
      if r.1 ≠ .success then r else parseTokens r.2 (positionalIndex + 1) optionsEnded rest

namespace CliParser

omit [DecidableEq β] [DecidableEq κ] in
/-- Nothing has been seen yet. -/
def reset (p : CliParser β V) : CliParser β V :=
  ⟨p.options.map fun o => { o with seen := false },
    p.positionals.map fun q => { q with seen := false }⟩

def parse (p : CliParser β V) (args : List Token) (vars : Variables β V) :
    ParseResult × State β V :=
  parseTokens ⟨p.reset, vars⟩ 0 false args

end CliParser

end EglUtil.Cli
