import EglUtil.CliParser

/-!
# `CliParser`: the command lines it accepts

The grammar is stated without the parser. A *unit* is one or two tokens: a long flag, a long
option with its value, a cluster of short flags that may end in an option with its value, or a
positional. A command line is a sequence of units, or such a sequence, the terminator `--`, and
positionals. Reading it gives a list of *pieces*: which flags occurred, which options with which
text, and the texts of the positionals.

What the pieces ask for is stated beside them: that every text can be converted and every
positional was registered (`Converts`), that what is required is there (`Required`), and what the
variables then hold (`Bound`).
-/

namespace EglUtil.Cli

variable {β κ : Type*} {V : κ → Type*}

/-! ## The grammar -/

/-- One thing the command line says; options are meant by their place among the registered. -/
inductive Piece where
  | flag (i : Nat)
  | value (i : Nat) (text : Token)
  | positional (text : Token)
deriving Repr, DecidableEq

/-- The letters of a cluster, the token it takes as a value, and what it says. -/
inductive Cluster (p : CliParser β V) : Token → List Token → List Piece → Prop where
  | nil : Cluster p [] [] []
  | flag {i : Nat} {o : OptionSpec β V} {bound : β} {body : Token} {used : List Token}
      {pieces : List Piece} (ho : p.options[i]? = some o) (hname : o.shortName ≠ '\x00')
      (haction : o.action = .flag bound) (hrest : Cluster p body used pieces) :
      Cluster p (o.shortName :: body) used (.flag i :: pieces)
  | attached {i : Nat} {o : OptionSpec β V} {target : κ} {convert : Token → Option (V target)}
      {text : Token} (ho : p.options[i]? = some o) (hname : o.shortName ≠ '\x00')
      (haction : o.action = .value target convert) (htext : text ≠ [])
      (hequals : text.head? ≠ some '=') : Cluster p (o.shortName :: text) [] [.value i text]
  | joined {i : Nat} {o : OptionSpec β V} {target : κ} {convert : Token → Option (V target)}
      {text : Token} (ho : p.options[i]? = some o) (hname : o.shortName ≠ '\x00')
      (haction : o.action = .value target convert) :
      Cluster p (o.shortName :: '=' :: text) [] [.value i text]
  | separate {i : Nat} {o : OptionSpec β V} {target : κ} {convert : Token → Option (V target)}
      {text : Token} (ho : p.options[i]? = some o) (hname : o.shortName ≠ '\x00')
      (haction : o.action = .value target convert) :
      Cluster p [o.shortName] [text] [.value i text]

/-- The tokens of a unit before the terminator, and what it says. -/
inductive ArgUnit (p : CliParser β V) : List Token → List Piece → Prop where
  | flag {i : Nat} {o : OptionSpec β V} {bound : β} (ho : p.options[i]? = some o)
      (hname : o.longName ≠ []) (haction : o.action = .flag bound) :
      ArgUnit p ['-' :: '-' :: o.longName] [.flag i]
  | joined {i : Nat} {o : OptionSpec β V} {target : κ} {convert : Token → Option (V target)}
      {text : Token} (ho : p.options[i]? = some o) (hname : o.longName ≠ [])
      (haction : o.action = .value target convert) :
      ArgUnit p ['-' :: '-' :: (o.longName ++ '=' :: text)] [.value i text]
  | separate {i : Nat} {o : OptionSpec β V} {target : κ} {convert : Token → Option (V target)}
      {text : Token} (ho : p.options[i]? = some o) (hname : o.longName ≠ [])
      (haction : o.action = .value target convert) :
      ArgUnit p ['-' :: '-' :: o.longName, text] [.value i text]
  | cluster {body : Token} {used : List Token} {pieces : List Piece} (hne : body ≠ [])
      (hcluster : Cluster p body used pieces) : ArgUnit p (('-' :: body) :: used) pieces
  | positional {token : Token} (h : token = [] ∨ token = ['-'] ∨ token.head? ≠ some '-') :
      ArgUnit p [token] [.positional token]

/-- The tokens of a command line, before or after the terminator, and what they say. -/
inductive Reads (p : CliParser β V) : Bool → List Token → List Piece → Prop where
  | done {optionsEnded : Bool} : Reads p optionsEnded [] []
  | unit {tokens rest : List Token} {pieces bs : List Piece} (hunit : ArgUnit p tokens pieces)
      (hrest : Reads p false rest bs) : Reads p false (tokens ++ rest) (pieces ++ bs)
  | terminator {rest : List Token} {bs : List Piece} (hrest : Reads p true rest bs) :
      Reads p false (['-', '-'] :: rest) bs
  | positional {token : Token} {rest : List Token} {bs : List Piece}
      (hrest : Reads p true rest bs) : Reads p true (token :: rest) (.positional token :: bs)

/-! ## What the pieces ask for -/

def Piece.option? : Piece → Option Nat
  | .flag i | .value i _ => some i
  | .positional _ => none

def Piece.text? : Piece → Option Token
  | .positional text => some text
  | .flag _ | .value _ _ => none

def Piece.valueOf? (i : Nat) : Piece → Option Token
  | .value j text => if j = i then some text else none
  | .flag _ | .positional _ => none

/-- The options that occur. -/
def occurring (bs : List Piece) : List Nat := bs.filterMap Piece.option?

/-- The texts of the positionals, in order. -/
def texts (bs : List Piece) : List Token := bs.filterMap Piece.text?

/-- The last text given for an option. -/
def lastValue (i : Nat) (bs : List Piece) : Option Token :=
  (bs.filterMap (Piece.valueOf? i)).getLast?

/-- Every text can be converted, and every positional has been registered. -/
structure Converts (p : CliParser β V) (bs : List Piece) : Prop where
  options : ∀ (i : Nat) (text : Token), .value i text ∈ bs →
    ∀ (o : OptionSpec β V) (target : κ) (convert : Token → Option (V target)),
      p.options[i]? = some o → o.action = .value target convert → (convert text).isSome
  room : (texts bs).length ≤ p.positionals.length
  positionals : ∀ (k : Nat) (q : PositionalSpec V) (text : Token), p.positionals[k]? = some q →
    (texts bs)[k]? = some text → (q.convert text).isSome

/-- What is required is there. -/
structure Required (p : CliParser β V) (bs : List Piece) : Prop where
  options : ∀ (i : Nat) (o : OptionSpec β V), p.options[i]? = some o → o.required →
    i ∈ occurring bs
  positionals : ∀ (k : Nat) (q : PositionalSpec V), p.positionals[k]? = some q → q.required →
    k < (texts bs).length

/-- The value of a variable that was given this text, if any. -/
def Holds {α : Type*} (convert : Token → Option α) (text : Option Token) (before after : α) :
    Prop :=
  match text with
  | some text => convert text = some after
  | none => after = before

/-- What the variables hold after the pieces: flags that occurred are true, options hold their
last value, positionals theirs, and all else is as before. -/
structure Bound (p : CliParser β V) (vars vars' : Variables β V) (bs : List Piece) : Prop where
  flags : ∀ (i : Nat) (o : OptionSpec β V) (bound : β), p.options[i]? = some o →
    o.action = .flag bound → vars'.flag bound = (decide (.flag i ∈ bs) || vars.flag bound)
  options : ∀ (i : Nat) (o : OptionSpec β V) (target : κ) (convert : Token → Option (V target)),
    p.options[i]? = some o → o.action = .value target convert →
      Holds convert (lastValue i bs) (vars.value target) (vars'.value target)
  positionals : ∀ (k : Nat) (q : PositionalSpec V), p.positionals[k]? = some q →
    Holds q.convert (texts bs)[k]? (vars.value q.target) (vars'.value q.target)
  otherFlags : ∀ bound : β,
    (∀ (i : Nat) (o : OptionSpec β V), p.options[i]? = some o → o.action ≠ .flag bound) →
      vars'.flag bound = vars.flag bound
  otherValues : ∀ target : κ,
    (∀ (i : Nat) (o : OptionSpec β V) (convert : Token → Option (V target)),
      p.options[i]? = some o → o.action ≠ .value target convert) →
    (∀ (k : Nat) (q : PositionalSpec V), p.positionals[k]? = some q → q.target ≠ target) →
      vars'.value target = vars.value target

@[simp] theorem occurring_append (bs bs' : List Piece) :
    occurring (bs ++ bs') = occurring bs ++ occurring bs' :=
  List.filterMap_append

@[simp] theorem texts_append (bs bs' : List Piece) : texts (bs ++ bs') = texts bs ++ texts bs' :=
  List.filterMap_append

@[simp] theorem occurring_flag (i : Nat) : occurring [.flag i] = [i] := rfl

@[simp] theorem occurring_value (i : Nat) (text : Token) : occurring [.value i text] = [i] := rfl

@[simp] theorem occurring_positional (text : Token) : occurring [.positional text] = [] := rfl

@[simp] theorem texts_flag (i : Nat) : texts [.flag i] = [] := rfl

@[simp] theorem texts_value (i : Nat) (text : Token) : texts [.value i text] = [] := rfl

@[simp] theorem texts_positional (text : Token) : texts [.positional text] = [text] := rfl

/-- The last value after one more piece. -/
theorem lastValue_concat (i : Nat) (bs : List Piece) (b : Piece) :
    lastValue i (bs ++ [b]) = (b.valueOf? i).or (lastValue i bs) := by
  unfold lastValue
  rw [List.filterMap_append]
  cases hb : b.valueOf? i with
  | none => simp [hb]
  | some text => simp [hb]

/-- All pieces of a part of the command line can be converted if the whole can. -/
theorem Converts.of_append {p : CliParser β V} {bs bs' : List Piece}
    (h : Converts p (bs ++ bs')) : Converts p bs where
  options i text hmem := h.options i text (List.mem_append_left _ hmem)
  room := by
    have hroom := h.room
    rw [texts_append, List.length_append] at hroom
    omega
  positionals k q text hq htext := by
    refine h.positionals k q text hq ?_
    obtain ⟨hlt, -⟩ := List.getElem?_eq_some_iff.1 htext
    rw [texts_append, List.getElem?_append_left hlt, htext]

/-! ## The parsers considered -/

/-- Long names have no `=`, and `-` is no short name. -/
def PlainNames (p : CliParser β V) : Prop :=
  ∀ o ∈ p.options, '=' ∉ o.longName ∧ o.shortName ≠ '-'

/-- Each option and each positional has its own variable. -/
structure OwnVariables (p : CliParser β V) : Prop where
  flags : ∀ (i j : Nat) (o o' : OptionSpec β V) (bound : β), p.options[i]? = some o →
    p.options[j]? = some o' → o.action = .flag bound → o'.action = .flag bound → i = j
  options : ∀ (i j : Nat) (o o' : OptionSpec β V) (target : κ)
    (convert convert' : Token → Option (V target)), p.options[i]? = some o →
      p.options[j]? = some o' → o.action = .value target convert →
      o'.action = .value target convert' → i = j
  positionals : ∀ (k l : Nat) (q q' : PositionalSpec V), p.positionals[k]? = some q →
    p.positionals[l]? = some q' → q.target = q'.target → k = l
  apart : ∀ (i k : Nat) (o : OptionSpec β V) (q : PositionalSpec V)
    (convert : Token → Option (V q.target)), p.options[i]? = some o →
      p.positionals[k]? = some q → o.action ≠ .value q.target convert

section Registered

variable [DecidableEq β] [DecidableEq κ]

/-- A parser that was built by successful registrations, and may have been used before. -/
inductive Registered : CliParser β V → Prop where
  | new : Registered .new
  | addFlag {p p' : CliParser β V} {longName : Token} {shortName : Char} {bound : β}
      (h : Registered p) (hok : p.addFlag longName shortName bound = .ok p') : Registered p'
  | addOption {p p' : CliParser β V} {longName : Token} {shortName : Char} {target : κ}
      {convert : Token → Option (V target)} {required : Bool} (h : Registered p)
      (hok : p.addOption longName shortName target convert required = .ok p') : Registered p'
  | addPositional {p p' : CliParser β V} {name : Token} {target : κ}
      {convert : Token → Option (V target)} {required : Bool} (h : Registered p)
      (hok : p.addPositional name target convert required = .ok p') : Registered p'
  | parse {p : CliParser β V} {args : List Token} {vars : Variables β V} (h : Registered p) :
      Registered (p.parse args vars).2.parser

end Registered

end EglUtil.Cli
