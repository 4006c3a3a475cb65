import Mathlib.Data.List.Basic

/-!
# `StringFormatter`

`check_format_string` decides, at compile time, which texts `format_to` is called with. The
renderer looks at the character behind a brace without looking at the size, and takes any brace
that is not doubled for a placeholder.

**Theorem (`check_and_format`).** The accepted texts are the spellings of sequences of tokens with
as many placeholders as arguments. On these the renderer never looks past the end, and writes
what the tokens say: each argument once, in order, and as it is.

Both go through the text from left to right, and both are followed token by token. Where the
renderer stops, behind a placeholder, the rest of the text is the spelling of the rest of the
tokens.
-/

namespace EglUtil.StringFormatter

/-! ## The validator -/

inductive FormatStringError where
  | none
  | unterminatedOpenBrace
  | strayCloseBrace
  | argumentCountMismatch
deriving DecidableEq

/-- The loop, with what is left of the text. -/
def scan (argumentCount placeholders : Nat) : List Char → FormatStringError
  | [] => if placeholders = argumentCount then .none else .argumentCountMismatch
  | ch :: rest =>
    if ch = '{' then
      match rest with
      | [] => .unterminatedOpenBrace
      | next :: rest =>
        if next = '{' then scan argumentCount placeholders rest
        else if next = '}' then scan argumentCount (placeholders + 1) rest
        else .unterminatedOpenBrace
    else if ch = '}' then
      match rest with
      | [] => .strayCloseBrace
      | next :: rest =>
        if next = '}' then scan argumentCount placeholders rest else .strayCloseBrace
    else scan argumentCount placeholders rest

def checkFormatString (text : List Char) (argumentCount : Nat) : FormatStringError :=
  scan argumentCount 0 text

/-! ## The renderer -/

/-- `run` is the pending literal run, before what is left of the text. The result is none if
`rest[i + 1]` is past the end. -/
def advanceToPlaceholder (out run : List Char) :
    List Char → Option (Bool × List Char × List Char)
  | [] => some (false, out ++ run, [])
  | ch :: rest =>
    if ch ≠ '{' ∧ ch ≠ '}' then advanceToPlaceholder out (run ++ [ch]) rest
    else
      match rest with
      | [] => none
      | next :: rest =>
        if next = ch then advanceToPlaceholder (out ++ run ++ [ch]) [] rest
        else some (true, out ++ run, rest)

def appendSegment (out rest value : List Char) : Option (List Char × List Char) :=
  (advanceToPlaceholder out [] rest).map fun r =>
    if r.1 then (r.2.1 ++ value, r.2.2) else (r.2.1, r.2.2)

def appendSegments (out rest : List Char) :
    List (List Char) → Option (List Char × List Char)
  | [] => some (out, rest)
  | value :: args => (appendSegment out rest value).bind fun r => appendSegments r.1 r.2 args

/-- The arguments are rendered already. -/
def formatTo (out text : List Char) (args : List (List Char)) : Option (List Char) :=
  (appendSegments out text args).bind fun r =>
    (advanceToPlaceholder r.1 [] r.2).map fun r => r.2.1

/-! ## Tokens -/

inductive Token where
  | literal (ch : Char) (h : ch ≠ '{' ∧ ch ≠ '}')
  | openBrace
  | closeBrace
  | placeholder
deriving DecidableEq

def Token.spelling : Token → List Char
  | literal ch _ => [ch]
  | openBrace => ['{', '{']
  | closeBrace => ['}', '}']
  | placeholder => ['{', '}']

def spell (tokens : List Token) : List Char := tokens.flatMap Token.spelling

/-- The text that is meant, with the arguments in the places of the placeholders. -/
def render : List Token → List (List Char) → List Char
  | [], _ => []
  | .literal ch _ :: tokens, args => ch :: render tokens args
  | .openBrace :: tokens, args => '{' :: render tokens args
  | .closeBrace :: tokens, args => '}' :: render tokens args
  | .placeholder :: tokens, value :: args => value ++ render tokens args
  | .placeholder :: tokens, [] => render tokens []

theorem spell_cons (token : Token) (tokens : List Token) :
    spell (token :: tokens) = token.spelling ++ spell tokens := List.flatMap_cons

/-! ## The validator follows the tokens -/

theorem scan_literal {ch : Char} (h : ch ≠ '{' ∧ ch ≠ '}') (argumentCount placeholders : Nat)
    (rest : List Char) :
    scan argumentCount placeholders (ch :: rest) = scan argumentCount placeholders rest := by
  rw [scan.eq_def]
  simp only [h.1, h.2, if_false]

/-- Spellings are accepted if the count is right. -/
theorem scan_spell (argumentCount placeholders : Nat) (tokens : List Token) :
    scan argumentCount placeholders (spell tokens) =
      if placeholders + tokens.count .placeholder = argumentCount then .none
      else .argumentCountMismatch := by
  induction tokens generalizing placeholders with
  | nil => rfl
  | cons token tokens ih =>
    rw [spell_cons]
    cases token with
    | literal ch h => simp [Token.spelling, scan_literal h, ih]
    | openBrace => simp [Token.spelling, scan, ih]
    | closeBrace => simp [Token.spelling, scan, ih]
    | placeholder =>
      have hcount : placeholders + 1 + tokens.count .placeholder =
          placeholders + (tokens.count .placeholder + 1) := by omega
      simp [Token.spelling, scan, ih, hcount]

/-- Other texts are not accepted. -/
theorem exists_tokens_of_scan {argumentCount placeholders : Nat} {text : List Char}
    (h : scan argumentCount placeholders text = .none) : ∃ tokens, spell tokens = text := by
  fun_induction scan argumentCount placeholders text with
  | case1 => exact ⟨[], rfl⟩
  | case4 placeholders rest ih =>
    obtain ⟨tokens, rfl⟩ := ih h
    exact ⟨.openBrace :: tokens, spell_cons _ _⟩
  | case5 placeholders rest _ ih =>
    obtain ⟨tokens, rfl⟩ := ih h
    exact ⟨.placeholder :: tokens, spell_cons _ _⟩
  | case8 placeholders rest _ ih =>
    obtain ⟨tokens, rfl⟩ := ih h
    exact ⟨.closeBrace :: tokens, spell_cons _ _⟩
  | case10 placeholders ch rest hopen hclose ih =>
    obtain ⟨tokens, rfl⟩ := ih h
    exact ⟨.literal ch ⟨hopen, hclose⟩ :: tokens, spell_cons _ _⟩
  | _ => cases h

theorem checkFormatString_eq_none {text : List Char} {argumentCount : Nat} :
    checkFormatString text argumentCount = .none ↔
      ∃ tokens, spell tokens = text ∧ tokens.count .placeholder = argumentCount := by
  have hcount : ∀ tokens, checkFormatString (spell tokens) argumentCount = .none ↔
      tokens.count .placeholder = argumentCount := by
    intro tokens
    rw [checkFormatString, scan_spell, Nat.zero_add]
    split_ifs with h
    · exact iff_of_true rfl h
    · exact iff_of_false nofun h
  constructor
  · intro h
    obtain ⟨tokens, rfl⟩ := exists_tokens_of_scan h
    exact ⟨tokens, rfl, (hcount tokens).1 h⟩
  · rintro ⟨tokens, rfl, h⟩
    exact (hcount tokens).2 h

/-! ## The renderer follows the tokens -/

theorem advanceToPlaceholder_literal {ch : Char} (h : ch ≠ '{' ∧ ch ≠ '}')
    (out run rest : List Char) :
    advanceToPlaceholder out run (ch :: rest) = advanceToPlaceholder out (run ++ [ch]) rest := by
  rw [advanceToPlaceholder.eq_def]
  simp only [ne_eq, h.1, h.2, not_false_eq_true, and_self, if_true]

/-- Up to the first placeholder, or to the end. -/
theorem advanceToPlaceholder_spell {tokens : List Token} (hnone : .placeholder ∉ tokens)
    (out run after : List Char) (args : List (List Char)) :
    advanceToPlaceholder out run (spell tokens) =
        some (false, out ++ run ++ render tokens args, []) ∧
      advanceToPlaceholder out run (spell tokens ++ '{' :: '}' :: after) =
        some (true, out ++ run ++ render tokens args, after) := by
  induction tokens generalizing out run with
  | nil => simp [spell, advanceToPlaceholder, render]
  | cons token tokens ih =>
    obtain ⟨hne, hrest⟩ := List.ne_and_not_mem_of_not_mem_cons hnone
    rw [spell_cons, List.append_assoc]
    cases token with
    | literal ch h =>
      have hstep := ih hrest out (run ++ [ch])
      simpa [Token.spelling, advanceToPlaceholder_literal h, render] using hstep
    | openBrace =>
      have hstep := ih hrest (out ++ run ++ ['{']) []
      simpa [Token.spelling, advanceToPlaceholder, render] using hstep
    | closeBrace =>
      have hstep := ih hrest (out ++ run ++ ['}']) []
      simpa [Token.spelling, advanceToPlaceholder, render] using hstep
    | placeholder => exact absurd rfl hne

theorem render_append {before : List Token} (hnone : .placeholder ∉ before)
    (after : List Token) (args : List (List Char)) :
    render (before ++ after) args = render before [] ++ render after args := by
  induction before with
  | nil => rfl
  | cons token before ih =>
    obtain ⟨hne, hrest⟩ := List.ne_and_not_mem_of_not_mem_cons hnone
    cases token with
    | placeholder => exact absurd rfl hne
    | _ => simp [render, ih hrest]

/-- One argument is written in the place of the first placeholder. -/
theorem appendSegment_spell {before : List Token} (hnone : .placeholder ∉ before)
    (after : List Token) (out value : List Char) :
    appendSegment out (spell (before ++ .placeholder :: after)) value =
      some (out ++ render before [] ++ value, spell after) := by
  have hspell : spell (before ++ .placeholder :: after) =
      spell before ++ '{' :: '}' :: spell after := by simp [spell, Token.spelling]
  rw [appendSegment, hspell, (advanceToPlaceholder_spell hnone out [] (spell after) []).2]
  simp

/-- **Rendering.** -/
theorem formatTo_spell {tokens : List Token} {args : List (List Char)}
    (hcount : tokens.count .placeholder = args.length) (out : List Char) :
    formatTo out (spell tokens) args = some (out ++ render tokens args) := by
  induction args generalizing tokens out with
  | nil =>
    have hnone := List.count_eq_zero.1 hcount
    simp [formatTo, appendSegments, (advanceToPlaceholder_spell hnone out [] [] []).1]
  | cons value args ih =>
    have hmem : Token.placeholder ∈ tokens := by
      rw [← List.count_pos_iff, hcount]
      exact Nat.succ_pos _
    obtain ⟨before, after, rfl, hnone⟩ := List.eq_append_cons_of_mem hmem
    have hafter : after.count .placeholder = args.length := by
      have hbefore := List.count_eq_zero_of_not_mem hnone
      rw [List.count_append, List.count_cons_self, hbefore, List.length_cons] at hcount
      omega
    have hrest := ih hafter (out ++ render before [] ++ value)
    rw [formatTo] at hrest
    rw [formatTo, appendSegments, appendSegment_spell hnone, Option.bind_some, hrest,
      render_append hnone, render]
    simp only [List.append_assoc]

/-! ## Doubled braces -/

/-- A text with every brace doubled. -/
def doubleBraces (text : List Char) : List Char :=
  text.flatMap fun ch => if ch = '{' ∨ ch = '}' then [ch, ch] else [ch]

def Token.ofChar (ch : Char) : Token :=
  if hopen : ch = '{' then .openBrace
  else if hclose : ch = '}' then .closeBrace
  else .literal ch ⟨hopen, hclose⟩

theorem spell_ofChar (text : List Char) : spell (text.map Token.ofChar) = doubleBraces text := by
  rw [spell, doubleBraces, List.flatMap_map]
  congr 1
  funext ch
  by_cases hopen : ch = '{'
  · simp [Token.ofChar, Token.spelling, hopen]
  · by_cases hclose : ch = '}'
    · simp [Token.ofChar, Token.spelling, hclose]
    · simp [Token.ofChar, Token.spelling, hopen, hclose]

theorem count_ofChar (text : List Char) : (text.map Token.ofChar).count .placeholder = 0 := by
  refine List.count_eq_zero.2 fun hmem => ?_
  obtain ⟨ch, -, hch⟩ := List.mem_map.1 hmem
  rw [Token.ofChar] at hch
  split_ifs at hch

theorem render_ofChar (text : List Char) : render (text.map Token.ofChar) [] = text := by
  induction text with
  | nil => rfl
  | cons ch text ih =>
    rw [List.map_cons]
    by_cases hopen : ch = '{'
    · simp [Token.ofChar, render, hopen, ih]
    · by_cases hclose : ch = '}'
      · simp [Token.ofChar, render, hclose, ih]
      · simp [Token.ofChar, render, hopen, hclose, ih]

/-- **The validator and the renderer agree.** A text is accepted if and only if it is the spelling
of tokens with a placeholder for each argument. Then nothing past its end is looked at, and what
is written is the tokens, with the arguments in the places of the placeholders. A text with its
braces doubled is written as it was. -/
theorem check_and_format :
    (∀ text argumentCount, checkFormatString text argumentCount = .none ↔
      ∃ tokens, spell tokens = text ∧ tokens.count .placeholder = argumentCount) ∧
    (∀ tokens args out, tokens.count .placeholder = args.length →
      formatTo out (spell tokens) args = some (out ++ render tokens args)) ∧
    ∀ text out, checkFormatString (doubleBraces text) 0 = .none ∧
      formatTo out (doubleBraces text) [] = some (out ++ text) := by
  refine ⟨fun text argumentCount => checkFormatString_eq_none,
    fun tokens args out hcount => formatTo_spell hcount out, fun text out => ⟨?_, ?_⟩⟩
  · exact checkFormatString_eq_none.2 ⟨_, spell_ofChar text, count_ofChar text⟩
  · rw [← spell_ofChar, formatTo_spell (count_ofChar text), render_ofChar]

/-- An argument of braces, between doubled braces. -/
theorem check_and_format_braces :
    checkFormatString "{{{}}}".toList 1 = .none ∧
      formatTo [] "{{{}}}".toList ["{}".toList] = some "{{}}".toList :=
  ⟨(check_and_format.1 _ _).2 ⟨[.openBrace, .placeholder, .closeBrace], rfl, rfl⟩,
    check_and_format.2.1 [.openBrace, .placeholder, .closeBrace] ["{}".toList] [] rfl⟩

end EglUtil.StringFormatter
