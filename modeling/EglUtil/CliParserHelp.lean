import EglUtil.Lib.Lines
import EglUtil.CliParserWriting

/-!
# `CliParser::help`

The help text is a usage line, the description, and a row for every positional and every option:
its label, and behind it, in a column of their own, the words that were registered with it.

**Theorem (`help_shows`).** The lines of the text are the usage line, the description, the headings
and the rows, exactly if nothing that was registered contains a newline. The words of every row
begin at the same column, no label is cut, and the column is as narrow as that allows. The label of
an option whose long name has no space is read back as the names and the name of the value; and
these names are those that the parser finds the option by.

A parser is kept together with the texts of its arguments, one for each (`DescribedParser`).
-/

namespace EglUtil.Cli

open Lines

variable {β κ : Type*} {V : κ → Type*}

/-! ## A parser and its texts -/

/-- What `OptionSpec` holds for the help text alone. -/
structure OptionText where
  help : Token
  valueName : Token

structure DescribedParser (β : Type*) {κ : Type*} (V : κ → Type*) where
  parser : CliParser β V
  programName : Token
  description : Token
  optionTexts : List OptionText
  positionalHelps : List Token
  options_described : optionTexts.length = parser.options.length
  positionals_described : positionalHelps.length = parser.positionals.length

/-- `takes_value` -/
def OptionSpec.takesValue (o : OptionSpec β V) : Bool :=
  match o.action with
  | .value _ _ => true
  | .help | .flag _ => false

namespace DescribedParser

/-- `CliParser(program_name, description)` -/
def new (programName description : Token) : DescribedParser β V :=
  ⟨.new, programName, description, [⟨"Show this help message and exit.".toList, "VALUE".toList⟩],
    [], rfl, rfl⟩

/-- The parser with one more option, and its texts. -/
def withOption (d : DescribedParser β V) (text : OptionText) (spec : OptionSpec β V) :
    DescribedParser β V :=
  { d with
    parser := ⟨d.parser.options ++ [spec], d.parser.positionals⟩
    optionTexts := d.optionTexts ++ [text]
    options_described := by simp [d.options_described] }

def addFlag (d : DescribedParser β V) (longName : Token) (shortName : Char) (help : Token)
    (bound : β) : Except String (DescribedParser β V) :=
  (d.parser.makeNamedSpec longName shortName false (.flag bound)).map
    (d.withOption ⟨help, "VALUE".toList⟩)

def addOption (d : DescribedParser β V) (longName : Token) (shortName : Char) (help : Token)
    (target : κ) (convert : Token → Option (V target)) (required : Bool) (valueName : Token) :
    Except String (DescribedParser β V) :=
  (d.parser.makeNamedSpec longName shortName required (.value target convert)).map
    (d.withOption ⟨help, valueName⟩)

def addPositional (d : DescribedParser β V) (name help : Token) (target : κ)
    (convert : Token → Option (V target)) (required : Bool) :
    Except String (DescribedParser β V) :=
  match h : d.parser.addPositional name target convert required with
  | .error message => .error message
  | .ok parser => .ok { d with
      parser := parser
      positionalHelps := d.positionalHelps ++ [help]
      options_described := by
        unfold CliParser.addPositional at h
        split_ifs at h
        cases h
        exact d.options_described
      positionals_described := by
        unfold CliParser.addPositional at h
        split_ifs at h
        cases h
        simp [d.positionals_described] }

end DescribedParser

/-! ## Rendering -/

/-- `option_label` -/
def optionLabel (o : OptionSpec β V) (text : OptionText) : Token :=
  let label : Token := []
  let label :=
    if o.shortName ≠ '\x00' then
      let label := label ++ ['-'] ++ [o.shortName]
      if o.longName ≠ [] then label ++ ", ".toList else label
    else label ++ "    ".toList
  let label := if o.longName ≠ [] then label ++ "--".toList ++ o.longName else label
  if o.takesValue then label ++ [' '] ++ text.valueName else label

/-- `option_help` -/
def optionHelp (o : OptionSpec β V) (text : OptionText) : Token :=
  if o.required then text.help ++ " (required)".toList else text.help

/-- The loop over `pad` in `append_help_row`. -/
def appendPadding (out : StringBuilder) (pad width : Nat) : StringBuilder :=
  if pad < width then appendPadding (out.appendChar ' ') (pad + 1) width else out
termination_by width - pad

/-- `append_help_row` -/
def appendHelpRow (out : StringBuilder) (label help : Token) (width : Nat) : StringBuilder :=
  let out := (out.append "  ".toList).append label
  let out := appendPadding out label.length width
  ((out.append "  ".toList).append help).appendChar '\n'

def appendHelpRows (width : Nat) (out : StringBuilder) (rows : List (Token × Token)) :
    StringBuilder :=
  rows.foldl (fun out row => appendHelpRow out row.1 row.2 width) out

namespace DescribedParser

variable (d : DescribedParser β V)

/-- Label and words of each positional. -/
def positionalRows : List (Token × Token) :=
  (d.parser.positionals.zip d.positionalHelps).map fun q => (q.1.name, q.2)

/-- Label and words of each option. -/
def optionRows : List (Token × Token) :=
  (d.parser.options.zip d.optionTexts).map fun o => (optionLabel o.1 o.2, optionHelp o.1 o.2)

/-- `label_column_width` -/
def labelColumnWidth : Nat :=
  let width := d.positionalRows.foldl (fun width row => max width row.1.length) 0
  d.optionRows.foldl (fun width row => max width row.1.length) width

/-- A positional in the usage line. -/
def appendUsage (out : StringBuilder) (q : PositionalSpec V) : StringBuilder :=
  let out := out.append (if q.required then " <".toList else " [".toList)
  let out := out.append q.name
  out.append (if q.required then ">".toList else "]".toList)

def help : Token :=
  let out := StringBuilder.create []
  let out := (out.append "Usage: ".toList).append d.programName
  let out := if d.parser.options ≠ [] then out.append " [OPTIONS]".toList else out
  let out := d.parser.positionals.foldl appendUsage out
  let out := out.appendChar '\n'
  let out :=
    if d.description ≠ [] then ((out.appendChar '\n').append d.description).appendChar '\n' else out
  let width := d.labelColumnWidth
  let out :=
    if d.parser.positionals ≠ [] then
      appendHelpRows width (out.append "\nPositional arguments:\n".toList) d.positionalRows
    else out
  (appendHelpRows width (out.append "\nOptions:\n".toList) d.optionRows).str.1

end DescribedParser

/-! ## The lines of the text -/

/-- A row, without its newline. -/
def helpRow (width : Nat) (row : Token × Token) : Token :=
  "  ".toList ++ (row.1 ++ List.replicate (width - row.1.length) ' ') ++ "  ".toList ++ row.2

/-- A positional in the usage line. -/
def usageWord (q : PositionalSpec V) : Token :=
  (if q.required then " <".toList else " [".toList) ++ q.name ++
    if q.required then ">".toList else "]".toList

namespace DescribedParser

variable (d : DescribedParser β V)

def rows : List (Token × Token) := d.positionalRows ++ d.optionRows

def usageLine : Token :=
  "Usage: ".toList ++ d.programName ++
    (if d.parser.options ≠ [] then " [OPTIONS]".toList else []) ++
    d.parser.positionals.flatMap usageWord

def helpLines : List Token :=
  d.usageLine :: (if d.description ≠ [] then [[], d.description] else []) ++
    (if d.parser.positionals ≠ [] then
      [] :: "Positional arguments:".toList :: d.positionalRows.map (helpRow d.labelColumnWidth)
    else []) ++
    [] :: "Options:".toList :: d.optionRows.map (helpRow d.labelColumnWidth)

end DescribedParser

theorem buffer_appendPadding (out : StringBuilder) (pad width : Nat) :
    (appendPadding out pad width).buffer = out.buffer ++ List.replicate (width - pad) ' ' := by
  fun_induction appendPadding out pad width with
  | case1 out pad hlt ih =>
    have hwidth : width - pad = width - (pad + 1) + 1 := by omega
    rw [ih, hwidth, List.replicate_succ]
    simp [StringBuilder.appendChar]
  | case2 out pad hge =>
    have hwidth : width - pad = 0 := by omega
    rw [hwidth, List.replicate_zero, List.append_nil]

theorem buffer_appendHelpRow (out : StringBuilder) (row : Token × Token) (width : Nat) :
    (appendHelpRow out row.1 row.2 width).buffer = out.buffer ++ (helpRow width row ++ ['\n']) := by
  simp [appendHelpRow, helpRow, StringBuilder.append, StringBuilder.appendChar,
    buffer_appendPadding]

theorem buffer_appendHelpRows (width : Nat) (out : StringBuilder) (rows : List (Token × Token)) :
    (appendHelpRows width out rows).buffer =
      out.buffer ++ ended '\n' (rows.map (helpRow width)) := by
  induction rows generalizing out with
  | nil => simp [appendHelpRows, ended]
  | cons row rows ih =>
    show (appendHelpRows width (appendHelpRow out row.1 row.2 width) rows).buffer = _
    rw [ih, buffer_appendHelpRow, List.map_cons, ended_cons]
    simp

theorem buffer_appendUsage (out : StringBuilder) (qs : List (PositionalSpec V)) :
    (qs.foldl DescribedParser.appendUsage out).buffer = out.buffer ++ qs.flatMap usageWord := by
  induction qs generalizing out with
  | nil => simp
  | cons q qs ih =>
    rw [List.foldl_cons, ih, List.flatMap_cons]
    simp [DescribedParser.appendUsage, usageWord, StringBuilder.append]

/-- The text is its lines. -/
theorem help_eq (d : DescribedParser β V) : d.help = ended '\n' d.helpLines := by
  have hended : ∀ lines lines' : List Token,
      ended '\n' (lines ++ lines') = ended '\n' lines ++ ended '\n' lines' := fun _ _ =>
    List.flatMap_append
  unfold DescribedParser.help DescribedParser.helpLines DescribedParser.usageLine
  by_cases hoptions : d.parser.options ≠ [] <;> by_cases hdescription : d.description ≠ [] <;>
    by_cases hpositionals : d.parser.positionals ≠ [] <;>
    simp only [if_pos hoptions, if_neg hoptions, if_pos hdescription, if_neg hdescription,
      if_pos hpositionals, if_neg hpositionals, StringBuilder.str, StringBuilder.append,
      StringBuilder.appendChar, StringBuilder.create, buffer_appendHelpRows, buffer_appendUsage,
      hended, ended_cons, List.cons_append, List.nil_append, List.append_assoc] <;>
    simp [ended]

/-! ## Newlines -/

namespace DescribedParser

/-- What was registered, as it is shown. -/
def texts (d : DescribedParser β V) : List Token :=
  d.programName :: d.description :: (d.rows.map Prod.fst ++ d.rows.map Prod.snd)

theorem map_fst_positionalRows (d : DescribedParser β V) :
    d.positionalRows.map Prod.fst = d.parser.positionals.map PositionalSpec.name := by
  have hzip := List.map_fst_zip (Nat.le_of_eq d.positionals_described.symm)
  rw [← hzip, positionalRows, List.map_map, List.map_map]
  rfl

end DescribedParser

theorem newline_mem_helpRow {width : Nat} {row : Token × Token} :
    '\n' ∈ helpRow width row ↔ '\n' ∈ row.1 ∨ '\n' ∈ row.2 := by
  simp [helpRow]

theorem newline_mem_usageWord {q : PositionalSpec V} :
    '\n' ∈ usageWord q ↔ '\n' ∈ q.name := by
  unfold usageWord
  split_ifs <;> simp

/-! ## The column -/

theorem foldl_max (rows : List (Token × Token)) (least : Nat) :
    let width := rows.foldl (fun width row => max width row.1.length) least
    least ≤ width ∧ (∀ row ∈ rows, row.1.length ≤ width) ∧
      (width = least ∨ ∃ row ∈ rows, row.1.length = width) := by
  induction rows generalizing least with
  | nil => simp
  | cons row rows ih =>
    obtain ⟨hleast, hall, hsome⟩ := ih (max least row.1.length)
    simp only [List.foldl_cons, List.forall_mem_cons]
    refine ⟨by omega, ⟨by omega, hall⟩, ?_⟩
    rcases hsome with heq | ⟨row', hmem, heq⟩
    · rcases Nat.le_total least row.1.length with hle | hle
      · exact .inr ⟨row, List.mem_cons_self, by omega⟩
      · exact .inl (by omega)
    · exact .inr ⟨row', List.mem_cons_of_mem _ hmem, heq⟩

theorem labelColumnWidth_eq (d : DescribedParser β V) :
    d.labelColumnWidth = d.rows.foldl (fun width row => max width row.1.length) 0 := by
  rw [DescribedParser.rows, List.foldl_append]
  rfl

/-- Behind two spaces and the column, two more spaces; then the words. -/
theorem helpRow_aligned {width : Nat} {row : Token × Token} (h : row.1.length ≤ width) :
    (helpRow width row).take (width + 4) =
        "  ".toList ++ row.1 ++ List.replicate (width - row.1.length) ' ' ++ "  ".toList ∧
      (helpRow width row).drop (width + 4) = row.2 := by
  have hlength : ("  ".toList ++ (row.1 ++ List.replicate (width - row.1.length) ' ') ++
      "  ".toList).length = width + 4 := by
    simp
    omega
  unfold helpRow
  rw [List.take_left' hlength, List.drop_left' hlength, List.append_assoc "  ".toList]
  exact ⟨rfl, rfl⟩

/-! ## Reading a label -/

/-- What a label shows: the short name, the long name, and the name of the value. -/
def shown (o : OptionSpec β V) (text : OptionText) : Option Char × Token × Option Token :=
  (if o.shortName ≠ '\x00' then some o.shortName else none, o.longName,
    if o.takesValue then some text.valueName else none)

/-- The name of the value, behind a space. -/
def readValueName : Token → Option Token
  | ' ' :: name => some name
  | _ => none

def readLong (text : Token) : Token × Option Token :=
  (text.takeWhile (· != ' '), readValueName (text.dropWhile (· != ' ')))

def readLabel : Token → Option Char × Token × Option Token
  | '-' :: short :: ',' :: ' ' :: '-' :: '-' :: text => (some short, readLong text)
  | '-' :: short :: text => (some short, [], readValueName text)
  | ' ' :: ' ' :: ' ' :: ' ' :: '-' :: '-' :: text => (none, readLong text)
  | _ => (none, [], none)

/-- The value of an option, behind its names. -/
def valueText (o : OptionSpec β V) (text : OptionText) : Token :=
  if o.takesValue then ' ' :: text.valueName else []

theorem readLong_append {o : OptionSpec β V} (text : OptionText) (h : ' ' ∉ o.longName) :
    readLong (o.longName ++ valueText o text) =
      (o.longName, if o.takesValue then some text.valueName else none) := by
  have hall : ∀ c ∈ o.longName, (c != ' ') = true := by
    intro c hc
    rw [bne_iff_ne]
    rintro rfl
    exact h hc
  unfold readLong valueText
  rw [List.takeWhile_append_of_pos hall, List.dropWhile_append_of_pos hall]
  split_ifs <;> simp [readValueName]

theorem readLabel_optionLabel {o : OptionSpec β V} (text : OptionText) (hsound : o.Sound)
    (hspace : ' ' ∉ o.longName) : readLabel (optionLabel o text) = shown o text := by
  have hlong := readLong_append text hspace
  by_cases hshort : o.shortName ≠ '\x00'
  · by_cases hname : o.longName ≠ []
    · have hlabel : optionLabel o text = '-' :: o.shortName :: ',' :: ' ' :: '-' :: '-' ::
          (o.longName ++ valueText o text) := by
        unfold optionLabel valueText
        simp only [if_pos hshort, if_pos hname]
        split_ifs <;> simp
      rw [hlabel, readLabel, hlong, shown, if_pos hshort]
    · have hlabel : optionLabel o text = '-' :: o.shortName :: valueText o text := by
        unfold optionLabel valueText
        simp only [if_pos hshort, if_neg hname]
        split_ifs <;> simp
      rw [hlabel, shown, if_pos hshort, not_ne_iff.1 hname]
      unfold valueText
      split_ifs <;> rfl
  · have hname := hsound.named.resolve_right hshort
    have hlabel : optionLabel o text = ' ' :: ' ' :: ' ' :: ' ' :: '-' :: '-' ::
        (o.longName ++ valueText o text) := by
      unfold optionLabel valueText
      simp only [if_neg hshort, if_pos hname]
      split_ifs <;> simp
    rw [hlabel, readLabel, hlong, shown, if_neg hshort]

/-! ## What the text shows -/

theorem newline_mem_helpLines (d : DescribedParser β V) :
    (∀ line ∈ d.helpLines, '\n' ∉ line) ↔ ∀ text ∈ d.texts, '\n' ∉ text := by
  have hnames : (∃ q ∈ d.parser.positionals, '\n' ∈ q.name) ↔
      ∃ row ∈ d.positionalRows, '\n' ∈ row.1 := by
    have hmap := d.map_fst_positionalRows
    constructor
    · rintro ⟨q, hq, hmem⟩
      have hname := List.mem_map_of_mem (f := PositionalSpec.name) hq
      rw [← hmap] at hname
      obtain ⟨row, hrow, heq⟩ := List.mem_map.1 hname
      exact ⟨row, hrow, heq ▸ hmem⟩
    · rintro ⟨row, hrow, hmem⟩
      have hname := List.mem_map_of_mem (f := Prod.fst) hrow
      rw [hmap] at hname
      obtain ⟨q, hq, heq⟩ := List.mem_map.1 hname
      exact ⟨q, hq, heq ▸ hmem⟩
  have husage : '\n' ∈ d.usageLine ↔
      '\n' ∈ d.programName ∨ ∃ row ∈ d.positionalRows, '\n' ∈ row.1 := by
    unfold DescribedParser.usageLine
    split_ifs <;> simp [newline_mem_usageWord, hnames]
  have hrows : ∀ (width : Nat) (rows : List (Token × Token)),
      (∀ line ∈ rows.map (helpRow width), '\n' ∉ line) ↔
        (∀ row ∈ rows, '\n' ∉ row.1) ∧ ∀ row ∈ rows, '\n' ∉ row.2 := by
    intro width rows
    simp only [List.forall_mem_map, newline_mem_helpRow, not_or, forall_and]
  have hdescription : (∀ line ∈ if d.description ≠ [] then [[], d.description] else [],
      '\n' ∉ line) ↔ '\n' ∉ d.description := by
    split_ifs with hsome
    · simp
    · simp [not_ne_iff.1 hsome]
  have hpositionals : (∀ line ∈ if d.parser.positionals ≠ [] then [] ::
        "Positional arguments:".toList :: d.positionalRows.map (helpRow d.labelColumnWidth)
      else [], '\n' ∉ line) ↔
      (∀ row ∈ d.positionalRows, '\n' ∉ row.1) ∧ ∀ row ∈ d.positionalRows, '\n' ∉ row.2 := by
    split_ifs with hsome
    · rw [List.forall_mem_cons, List.forall_mem_cons, hrows]
      simp
    · simp [DescribedParser.positionalRows, not_ne_iff.1 hsome]
  have hoptions : (∀ line ∈ [] :: "Options:".toList ::
        d.optionRows.map (helpRow d.labelColumnWidth), '\n' ∉ line) ↔
      (∀ row ∈ d.optionRows, '\n' ∉ row.1) ∧ ∀ row ∈ d.optionRows, '\n' ∉ row.2 := by
    rw [List.forall_mem_cons, List.forall_mem_cons, hrows]
    simp
  rw [DescribedParser.helpLines, List.forall_mem_append, List.forall_mem_append,
    List.forall_mem_cons, hdescription, hpositionals, hoptions, husage]
  simp only [DescribedParser.texts, DescribedParser.rows, List.forall_mem_cons, List.map_append,
    List.forall_mem_append, List.forall_mem_map, not_or, not_exists, not_and]
  constructor
  · rintro ⟨⟨⟨⟨hprogram, -⟩, hwords⟩, hfirst, hsecond⟩, hfirst', hsecond'⟩
    exact ⟨hprogram, hwords, ⟨hfirst, hfirst'⟩, hsecond, hsecond'⟩
  · rintro ⟨hprogram, hwords, ⟨hfirst, hfirst'⟩, hsecond, hsecond'⟩
    exact ⟨⟨⟨⟨hprogram, hfirst⟩, hwords⟩, hfirst, hsecond⟩, hfirst', hsecond'⟩

/-- The registrations with their texts. -/
inductive DescribedParser.Built [DecidableEq β] [DecidableEq κ] : DescribedParser β V → Prop where
  | new {programName description : Token} : Built (.new programName description)
  | addFlag {d d' : DescribedParser β V} {longName help : Token} {shortName : Char} {bound : β}
      (h : Built d) (hok : d.addFlag longName shortName help bound = .ok d') : Built d'
  | addOption {d d' : DescribedParser β V} {longName help valueName : Token} {shortName : Char}
      {target : κ} {convert : Token → Option (V target)} {required : Bool} (h : Built d)
      (hok : d.addOption longName shortName help target convert required valueName = .ok d') :
      Built d'
  | addPositional {d d' : DescribedParser β V} {name help : Token} {target : κ}
      {convert : Token → Option (V target)} {required : Bool} (h : Built d)
      (hok : d.addPositional name help target convert required = .ok d') : Built d'

section Built

variable {d d' : DescribedParser β V} {longName name help valueName : Token} {shortName : Char}
  {bound : β} {target : κ} {convert : Token → Option (V target)} {required : Bool}

theorem parser_addFlag (hok : d.addFlag longName shortName help bound = .ok d') :
    d.parser.addFlag longName shortName bound = .ok d'.parser := by
  unfold DescribedParser.addFlag at hok
  cases hspec : d.parser.makeNamedSpec longName shortName false (.flag bound) with
  | error message =>
    rw [hspec] at hok
    cases hok
  | ok spec =>
    rw [hspec] at hok
    cases hok
    rw [CliParser.addFlag, CliParser.addSpec, hspec]
    rfl

theorem parser_addOption
    (hok : d.addOption longName shortName help target convert required valueName = .ok d') :
    d.parser.addOption longName shortName target convert required = .ok d'.parser := by
  unfold DescribedParser.addOption at hok
  cases hspec : d.parser.makeNamedSpec longName shortName required (.value target convert) with
  | error message =>
    rw [hspec] at hok
    cases hok
  | ok spec =>
    rw [hspec] at hok
    cases hok
    rw [CliParser.addOption, CliParser.addSpec, hspec]
    rfl

theorem parser_addPositional
    (hok : d.addPositional name help target convert required = .ok d') :
    d.parser.addPositional name target convert required = .ok d'.parser := by
  unfold DescribedParser.addPositional at hok
  split at hok
  · cases hok
  · next hparser =>
    cases hok
    exact hparser

theorem DescribedParser.Built.registered [DecidableEq β] [DecidableEq κ] (h : d.Built) :
    Registered d.parser := by
  induction h with
  | new => exact .new
  | addFlag _ hok ih => exact .addFlag ih (parser_addFlag hok)
  | addOption _ hok ih => exact .addOption ih (parser_addOption hok)
  | addPositional _ hok ih => exact .addPositional ih (parser_addPositional hok)

end Built

/-- What a help text shows of its parser. -/
structure HelpShows (d : DescribedParser β V) : Prop where
  lines : d.help.splitOn '\n' = d.helpLines ++ [[]] ↔ ∀ text ∈ d.texts, '\n' ∉ text
  /-- The words of every row begin at the same column. -/
  column : ∀ row ∈ d.rows,
    (helpRow d.labelColumnWidth row).take (d.labelColumnWidth + 4) = "  ".toList ++ row.1 ++
      List.replicate (d.labelColumnWidth - row.1.length) ' ' ++ "  ".toList ∧
    (helpRow d.labelColumnWidth row).drop (d.labelColumnWidth + 4) = row.2
  /-- The longest label fills it. -/
  narrow : ∃ row ∈ d.rows, row.1.length = d.labelColumnWidth
  /-- Every option has its row, and its label is read back. -/
  labels : ∀ (i : Nat) (o : OptionSpec β V), d.parser.options[i]? = some o →
    ∃ text, d.optionTexts[i]? = some text ∧
      d.optionRows[i]? = some (optionLabel o text, optionHelp o text) ∧
      (' ' ∉ o.longName → readLabel (optionLabel o text) = shown o text)
  /-- The parser finds the option by the names that are shown. -/
  found : ∀ (i : Nat) (o : OptionSpec β V), d.parser.options[i]? = some o →
    (o.longName ≠ [] → d.parser.findLong o.longName = some (o, i)) ∧
    (o.shortName ≠ '\x00' → d.parser.findShort o.shortName = some (o, i))

/-- **The help text shows what was registered.** -/
theorem help_shows [DecidableEq β] [DecidableEq κ] {d : DescribedParser β V} (h : d.Built) :
    HelpShows d := by
  have hnames := h.registered.uniqueNames
  obtain ⟨-, hfits, hfilled⟩ := foldl_max d.rows 0
  rw [← labelColumnWidth_eq] at hfits hfilled
  have hlabels : ∀ (i : Nat) (o : OptionSpec β V), d.parser.options[i]? = some o →
      ∃ text, d.optionTexts[i]? = some text ∧
        d.optionRows[i]? = some (optionLabel o text, optionHelp o text) ∧
        (' ' ∉ o.longName → readLabel (optionLabel o text) = shown o text) := by
    intro i o ho
    have hlt := (List.getElem?_eq_some_iff.1 ho).1
    rw [← d.options_described] at hlt
    have htext := List.getElem?_eq_getElem hlt
    refine ⟨_, htext, ?_, readLabel_optionLabel _ (h.registered.sound o (List.mem_of_getElem? ho))⟩
    have hzip : (d.parser.options.zip d.optionTexts)[i]? = some (o, d.optionTexts[i]) :=
      List.getElem?_zip_eq_some.2 ⟨ho, htext⟩
    rw [DescribedParser.optionRows, List.getElem?_map, hzip]
    rfl
  refine ⟨?_, fun row hrow => helpRow_aligned (hfits row hrow), ?_, hlabels, fun i o ho => ?_⟩
  · rw [help_eq, splitOn_ended_iff, newline_mem_helpLines]
  · rcases hfilled with hzero | hrow
    · -- The row of `--help` is there, and it is not longer.
      obtain ⟨o, ho, -⟩ := h.registered.helpFirst.exists_help
      obtain ⟨text, -, hrow, -⟩ := hlabels 0 o ho
      have hmem : (optionLabel o text, optionHelp o text) ∈ d.rows :=
        List.mem_append_right _ (List.mem_of_getElem? hrow)
      have hle := hfits _ hmem
      exact ⟨_, hmem, by omega⟩
    · exact hrow
  · exact ⟨fun hlong => hnames.findLong_iff.2 ⟨ho, hlong, rfl⟩,
      fun hshort => hnames.findShort_iff.2 ⟨ho, hshort, rfl⟩⟩

/-- `copyParser` with its texts. -/
def describedCopyParser : DescribedParser Unit CopyValue where
  parser := copyParser
  programName := "mytool".toList
  description := "Process an input file.".toList
  optionTexts := [⟨"Show this help message and exit.".toList, "VALUE".toList⟩,
    ⟨"Say more.".toList, "VALUE".toList⟩, ⟨"How often.".toList, "N".toList⟩]
  positionalHelps := ["Input file.".toList]
  options_described := rfl
  positionals_described := rfl

theorem built_describedCopyParser : describedCopyParser.Built := by
  have hflag : DescribedParser.Built { describedCopyParser with
      parser := ⟨copyParser.options.take 2, []⟩
      optionTexts := describedCopyParser.optionTexts.take 2
      positionalHelps := []
      options_described := rfl
      positionals_described := rfl } :=
    .addFlag .new (show DescribedParser.addFlag (.new "mytool".toList _) "verbose".toList 'v'
      "Say more.".toList () = .ok _ from rfl)
  have hoption : DescribedParser.Built { describedCopyParser with
      parser := ⟨copyParser.options, []⟩
      positionalHelps := []
      options_described := rfl
      positionals_described := rfl } :=
    .addOption hflag (show DescribedParser.addOption _ "count".toList 'c' "How often.".toList false
      (cliParseInteger (-128) 127) true "N".toList = .ok _ from rfl)
  exact .addPositional hoption (show DescribedParser.addPositional _ "input".toList
    "Input file.".toList true cliParseString true = .ok _ from rfl)

theorem help_shows_describedCopyParser :
    HelpShows describedCopyParser ∧
    describedCopyParser.help.splitOn '\n' =
      ["Usage: mytool [OPTIONS] <input>".toList, [], "Process an input file.".toList, [],
        "Positional arguments:".toList, "  input          Input file.".toList, [],
        "Options:".toList, "  -h, --help     Show this help message and exit.".toList,
        "  -v, --verbose  Say more.".toList, "  -c, --count N  How often. (required)".toList,
        []] := by
  have hshows := help_shows built_describedCopyParser
  have hlines : describedCopyParser.help.splitOn '\n' = describedCopyParser.helpLines ++ [[]] :=
    hshows.lines.2 (by decide +kernel)
  exact ⟨hshows, hlines.trans (by decide +kernel)⟩

end EglUtil.Cli
