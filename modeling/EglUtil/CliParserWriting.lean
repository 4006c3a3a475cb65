import EglUtil.CliParserCorrectness
import EglUtil.StringBuilder

/-!
# `CliParser`: command lines that set given values

For every configuration of the variables there is a command line that sets it. It is made of one
token for each option, `--name=value` or `-n=value`, and `--name` or `-n` for each flag that is to
be true; then the terminator, and the positionals.

**Theorem (`commandLine_reads_back`).** Let a parser be built by successful registrations, and let
each value be written as a text that its conversion reads back. Then the command line is accepted,
whatever characters the texts are made of and whatever the variables held before, and every bound
variable holds the value that was written; a flag that was true stays so.

The texts come from anywhere. For integers they may be what a `StringBuilder` appends: that is read
back by `cliParseInteger_toChars`.
-/

namespace EglUtil.Cli

variable {β κ : Type*} {V : κ → Type*}

/-! ## Writing -/

section Writing

variable (render : (target : κ) → V target → Token) (vars : Variables β V)

/-- The token of an option, by its long name if it has one. -/
def OptionSpec.token (o : OptionSpec β V) : Token :=
  if o.longName ≠ [] then '-' :: '-' :: o.longName else ['-', o.shortName]

def OptionSpec.written (o : OptionSpec β V) : List Token :=
  match o.action with
  | .help => []
  | .flag bound => if vars.flag bound then [o.token] else []
  | .value target _ => [o.token ++ '=' :: render target (vars.value target)]

/-- The command line of a configuration. -/
def CliParser.commandLine (p : CliParser β V) : List Token :=
  p.options.flatMap (OptionSpec.written render vars) ++
    ['-', '-'] :: p.positionals.map fun q => render q.target (vars.value q.target)

/-- What the tokens of an option say. -/
def OptionSpec.pieces (o : OptionSpec β V) (i : Nat) : List Piece :=
  match o.action with
  | .help => []
  | .flag bound => if vars.flag bound then [.flag i] else []
  | .value target _ => [.value i (render target (vars.value target))]

/-- What the command line says. -/
def CliParser.said (p : CliParser β V) : List Piece :=
  (p.options.zipIdx.flatMap fun o => o.1.pieces render vars o.2) ++
    p.positionals.map fun q => .positional (render q.target (vars.value q.target))

/-- The texts are read back. -/
structure Renders (p : CliParser β V) : Prop where
  options : ∀ o ∈ p.options, ∀ target (convert : Token → Option (V target)),
    o.action = .value target convert →
      convert (render target (vars.value target)) = some (vars.value target)
  positionals : ∀ q ∈ p.positionals,
    q.convert (render q.target (vars.value q.target)) = some (vars.value q.target)

end Writing

/-! ## Registered options -/

/-- An option has a name, and is required only if it takes a value. -/
structure OptionSpec.Sound (o : OptionSpec β V) : Prop where
  named : o.longName ≠ [] ∨ o.shortName ≠ '\x00'
  required : o.required = true → ∃ target convert, o.action = .value target convert

theorem addSpec_named {p p' : CliParser β V} {longName : Token} {shortName : Char}
    {required : Bool} {action : Action β V}
    (hok : p.addSpec longName shortName required action = .ok p') :
    longName ≠ [] ∨ shortName ≠ '\x00' := by
  unfold CliParser.addSpec CliParser.makeNamedSpec at hok
  split_ifs at hok with hnone
  · cases hok
  all_goals exact not_and_or.1 hnone

theorem sound_addSpec {p p' : CliParser β V} {longName : Token} {shortName : Char}
    {required : Bool} {action : Action β V}
    (hok : p.addSpec longName shortName required action = .ok p')
    (hrequired : required = true → ∃ target convert, action = .value target convert)
    (h : ∀ o ∈ p.reset.options, o.Sound) : ∀ o ∈ p'.reset.options, o.Sound := by
  have hnamed := addSpec_named hok
  obtain ⟨-, -, rfl⟩ := addSpec_eq_ok hok
  rw [CliParser.reset, List.map_append, List.forall_mem_append]
  refine ⟨h, ?_⟩
  rw [List.map_singleton, List.forall_mem_singleton]
  exact ⟨hnamed, hrequired⟩

theorem Registered.sound_reset [DecidableEq β] [DecidableEq κ] {p : CliParser β V}
    (h : Registered p) : ∀ o ∈ p.reset.options, o.Sound := by
  induction h with
  | new =>
    rw [CliParser.reset, CliParser.new, List.map_singleton, List.forall_mem_singleton]
    exact ⟨.inl (by simp), by simp⟩
  | addFlag _ hok ih => exact sound_addSpec hok (by simp) ih
  | @addOption _ _ _ _ target convert _ _ hok ih =>
    exact sound_addSpec hok (fun _ => ⟨target, convert, rfl⟩) ih
  | @addPositional p p' name target convert required _ hok ih =>
    unfold CliParser.addPositional at hok
    split_ifs at hok
    cases hok
    exact ih
  | parse _ ih =>
    rw [reset_parse]
    exact ih

theorem Registered.sound [DecidableEq β] [DecidableEq κ] {p : CliParser β V} (h : Registered p) :
    ∀ o ∈ p.options, o.Sound := by
  intro o ho
  obtain ⟨hnamed, hrequired⟩ := h.sound_reset { o with seen := false } (List.mem_map_of_mem ho)
  exact ⟨hnamed, hrequired⟩

/-! ## Reading what was written -/

section Reading

variable {p : CliParser β V} {render : (target : κ) → V target → Token} {vars : Variables β V}

/-- An option writes nothing, or one token that says it. -/
theorem argUnit_written {o : OptionSpec β V} {i : Nat} (ho : p.options[i]? = some o)
    (hsound : o.Sound) :
    (o.written render vars = [] ∧ o.pieces render vars i = []) ∨
      ∃ token, o.written render vars = [token] ∧ ArgUnit p [token] (o.pieces render vars i) := by
  have hshort : ¬ o.longName ≠ [] → o.shortName ≠ '\x00' := hsound.named.resolve_left
  unfold OptionSpec.written OptionSpec.pieces OptionSpec.token
  cases haction : o.action with
  | help => exact .inl ⟨rfl, rfl⟩
  | flag bound =>
    by_cases hset : vars.flag bound = true
    · simp only [if_pos hset]
      refine .inr ⟨_, rfl, ?_⟩
      by_cases hlong : o.longName ≠ []
      · rw [if_pos hlong]
        exact .flag ho hlong haction
      · rw [if_neg hlong]
        exact .cluster (by simp) (.flag ho (hshort hlong) haction .nil)
    · exact .inl ⟨if_neg hset, if_neg hset⟩
  | value target convert =>
    refine .inr ⟨_, rfl, ?_⟩
    by_cases hlong : o.longName ≠ []
    · rw [if_pos hlong]
      exact .joined ho hlong haction
    · rw [if_neg hlong]
      exact .cluster (by simp) (.joined ho (hshort hlong) haction)

theorem reads_options {os : List (OptionSpec β V × Nat)} {rest : List Token} {bs : List Piece}
    (hos : ∀ o ∈ os, p.options[o.2]? = some o.1 ∧ o.1.Sound) (hrest : Reads p false rest bs) :
    Reads p false (os.flatMap (fun o => o.1.written render vars) ++ rest)
      (os.flatMap (fun o => o.1.pieces render vars o.2) ++ bs) := by
  induction os with
  | nil => exact hrest
  | cons o os ih =>
    obtain ⟨⟨ho, hsound⟩, hos⟩ := List.forall_mem_cons.1 hos
    rw [List.flatMap_cons, List.flatMap_cons, List.append_assoc, List.append_assoc]
    rcases argUnit_written ho hsound with ⟨hwritten, hpieces⟩ | ⟨token, hwritten, hunit⟩
    · rw [hwritten, hpieces]
      exact ih hos
    · rw [hwritten]
      exact .unit hunit (ih hos)

theorem reads_positionals (p : CliParser β V) (tokens : List Token) :
    Reads p true tokens (tokens.map .positional) := by
  induction tokens with
  | nil => exact .done
  | cons token tokens ih => exact .positional ih

/-- **The command line is read as what it says.** -/
theorem reads_commandLine (hsound : ∀ o ∈ p.options, o.Sound) :
    Reads p false (p.commandLine render vars) (p.said render vars) := by
  have hoptions : p.options = p.options.zipIdx.map Prod.fst := (List.zipIdx_map_fst 0 _).symm
  have hpositionals := reads_positionals p
    (p.positionals.map fun q => render q.target (vars.value q.target))
  rw [List.map_map] at hpositionals
  unfold CliParser.commandLine CliParser.said
  rw [congrArg (List.flatMap _) hoptions, List.flatMap_map]
  refine reads_options (fun o ho => ?_) (.terminator hpositionals)
  have hplace := List.mem_zipIdx_iff_getElem?.1 ho
  exact ⟨hplace, hsound _ (List.mem_of_getElem? hplace)⟩

/-! ## What is said -/

theorem mem_pieces {o : OptionSpec β V} {i : Nat} {b : Piece} :
    b ∈ o.pieces render vars i ↔
      (∃ bound, o.action = .flag bound ∧ vars.flag bound = true ∧ b = .flag i) ∨
      ∃ target convert, o.action = .value target convert ∧
        b = .value i (render target (vars.value target)) := by
  unfold OptionSpec.pieces
  cases haction : o.action with
  | help => simp
  | flag bound =>
    by_cases hset : vars.flag bound = true
    · simp [hset]
    · simp [hset]
  | value target convert => simp

theorem mem_said {b : Piece} :
    b ∈ p.said render vars ↔
      (∃ (i : Nat) (o : OptionSpec β V), p.options[i]? = some o ∧ b ∈ o.pieces render vars i) ∨
      ∃ q ∈ p.positionals, b = .positional (render q.target (vars.value q.target)) := by
  simp only [CliParser.said, List.mem_append, List.mem_flatMap, List.mem_map,
    List.mem_zipIdx_iff_getElem?, Prod.exists, eq_comm (a := b)]
  rw [exists_comm]

theorem flag_mem_said {i : Nat} {o : OptionSpec β V} {bound : β} (ho : p.options[i]? = some o)
    (haction : o.action = .flag bound) :
    .flag i ∈ p.said render vars ↔ vars.flag bound = true := by
  rw [mem_said]
  constructor
  · rintro (⟨j, o', ho', hmem⟩ | ⟨q, -, heq⟩)
    · rcases mem_pieces.1 hmem with ⟨bound', haction', hset, heq⟩ | ⟨_, _, _, heq⟩
      · cases heq
        cases ho.symm.trans ho'
        cases haction.symm.trans haction'
        exact hset
      · cases heq
    · cases heq
  · exact fun hset => .inl ⟨i, o, ho, mem_pieces.2 (.inl ⟨bound, haction, hset, rfl⟩)⟩

/-- An option is given the text of its variable's value, and no other. -/
theorem value_mem_said {i : Nat} {o : OptionSpec β V} {target : κ}
    {convert : Token → Option (V target)} (ho : p.options[i]? = some o)
    (haction : o.action = .value target convert) {text : Token} :
    .value i text ∈ p.said render vars ↔ text = render target (vars.value target) := by
  rw [mem_said]
  constructor
  · rintro (⟨j, o', ho', hmem⟩ | ⟨q, -, heq⟩)
    · rcases mem_pieces.1 hmem with ⟨_, _, _, heq⟩ | ⟨target', convert', haction', heq⟩
      · cases heq
      · cases heq
        cases ho.symm.trans ho'
        cases haction.symm.trans haction'
        rfl
    · cases heq
  · rintro rfl
    exact .inl ⟨i, o, ho, mem_pieces.2 (.inr ⟨target, convert, haction, rfl⟩)⟩

theorem texts_said : texts (p.said render vars) =
    p.positionals.map fun q => render q.target (vars.value q.target) := by
  have hoptions : texts (p.options.zipIdx.flatMap fun o => o.1.pieces render vars o.2) = [] := by
    refine List.filterMap_eq_nil_iff.2 fun b hb => ?_
    obtain ⟨o, -, hmem⟩ := List.mem_flatMap.1 hb
    rcases mem_pieces.1 hmem with ⟨_, _, _, rfl⟩ | ⟨_, _, _, rfl⟩ <;> rfl
  rw [CliParser.said, texts_append, hoptions, List.nil_append, texts, List.filterMap_map]
  show List.filterMap (some ∘ fun q => render q.target (vars.value q.target)) p.positionals = _
  rw [List.filterMap_eq_map]

theorem lastValue_said {i : Nat} {o : OptionSpec β V} {target : κ}
    {convert : Token → Option (V target)} (ho : p.options[i]? = some o)
    (haction : o.action = .value target convert) :
    lastValue i (p.said render vars) = some (render target (vars.value target)) := by
  have hgiven : .value i (render target (vars.value target)) ∈ p.said render vars :=
    (value_mem_said ho haction).2 rfl
  have hall : ∀ text ∈ (p.said render vars).filterMap (Piece.valueOf? i),
      text = render target (vars.value target) := by
    intro text htext
    obtain ⟨b, hb, hvalue⟩ := List.mem_filterMap.1 htext
    cases b with
    | flag j => cases hvalue
    | positional text' => cases hvalue
    | value j text' =>
      obtain ⟨rfl, rfl⟩ : j = i ∧ text' = text := by simpa [Piece.valueOf?] using hvalue
      exact (value_mem_said ho haction).1 hb
  have hne : (p.said render vars).filterMap (Piece.valueOf? i) ≠ [] :=
    List.ne_nil_of_mem (List.mem_filterMap.2 ⟨_, hgiven, if_pos rfl⟩)
  rw [lastValue, List.getLast?_eq_some_getLast hne, hall _ (List.getLast_mem hne)]

theorem converts_said (h : Renders render vars p) : Converts p (p.said render vars) where
  options i text hmem o target convert ho haction := by
    rw [(value_mem_said ho haction).1 hmem, h.options o (List.mem_of_getElem? ho) _ _ haction]
    rfl
  room := by rw [texts_said, List.length_map]
  positionals k q text hq htext := by
    rw [texts_said, List.getElem?_map, hq, Option.map_some, Option.some.injEq] at htext
    rw [← htext, h.positionals q (List.mem_of_getElem? hq)]
    rfl

theorem required_said (hsound : ∀ o ∈ p.options, o.Sound) : Required p (p.said render vars) where
  options i o ho hrequired := by
    obtain ⟨target, convert, haction⟩ := (hsound o (List.mem_of_getElem? ho)).required hrequired
    exact List.mem_filterMap.2 ⟨_, (value_mem_said ho haction).2 rfl, rfl⟩
  positionals k q hq _ := by
    rw [texts_said, List.length_map]
    exact (List.getElem?_eq_some_iff.1 hq).1

end Reading

/-! ## Round trip -/

/-- **Every configuration can be written, and is read back.** -/
theorem commandLine_reads_back [DecidableEq β] [DecidableEq κ] {p : CliParser β V}
    (hp : Registered p) (hplain : PlainNames p) (hown : OwnVariables p)
    {render : (target : κ) → V target → Token} {vars : Variables β V}
    (hrender : Renders render vars p) (before : Variables β V) :
    ∃ st, p.parse (p.commandLine render vars) before = (.success, st) ∧
      (∀ o ∈ p.options, ∀ bound, o.action = .flag bound →
        st.vars.flag bound = (vars.flag bound || before.flag bound)) ∧
      (∀ o ∈ p.options, ∀ target (convert : Token → Option (V target)),
        o.action = .value target convert → st.vars.value target = vars.value target) ∧
      ∀ q ∈ p.positionals, st.vars.value q.target = vars.value q.target := by
  have hreads : Reads p false (p.commandLine render vars) (p.said render vars) :=
    reads_commandLine hp.sound
  obtain ⟨ms, ended, hall, hpieces⟩ := (reads_iff hp.uniqueNames hplain).1 hreads
  obtain ⟨hsuccess, hbound⟩ := hall.parse_success hown before
  rw [hpieces] at hsuccess hbound
  have hok := hsuccess.2 ⟨converts_said hrender, required_said hp.sound⟩
  have hvars := hbound hok
  refine ⟨_, Prod.ext hok rfl, fun o ho bound haction => ?_,
    fun o ho target convert haction => ?_, fun q hq => ?_⟩
  · obtain ⟨i, hi⟩ := List.getElem?_of_mem ho
    rw [hvars.flags i o bound hi haction]
    simp only [flag_mem_said hi haction, Bool.decide_eq_true]
  · obtain ⟨i, hi⟩ := List.getElem?_of_mem ho
    have hvalue := hvars.options i o target convert hi haction
    rw [lastValue_said hi haction, Holds, hrender.options o ho target convert haction] at hvalue
    exact (Option.some.inj hvalue).symm
  · obtain ⟨k, hk⟩ := List.getElem?_of_mem hq
    have hvalue := hvars.positionals k q hk
    rw [texts_said, List.getElem?_map, hk, Option.map_some, Holds,
      hrender.positionals q hq] at hvalue
    exact (Option.some.inj hvalue).symm

/-- The integer goes through a `StringBuilder`. -/
def copyRender : (target : Bool) → CopyValue target → Token
  | false, count => ((StringBuilder.create []).appendInteger count).buffer
  | true, input => input

/-- A negative number, and a file with the name of an option. -/
def copyConfiguration : Variables Unit CopyValue :=
  ⟨fun _ => true, fun | false => (-7 : Int) | true => "--help".toList⟩

theorem renders_copyConfiguration : Renders copyRender copyConfiguration copyParser where
  options o ho target convert haction := by
    obtain ⟨i, hi⟩ := List.getElem?_of_mem ho
    rcases action_copyParser hi with ⟨hhelp, -⟩ | ⟨hflag, -⟩ | ⟨hvalue, -⟩
    · cases hhelp.symm.trans haction
    · cases hflag.symm.trans haction
    · cases hvalue.symm.trans haction
      have hholds : int8.Holds (-7) := by decide
      exact cliParseInteger_toChars hholds
  positionals q hq := by
    obtain ⟨k, hk⟩ := List.getElem?_of_mem hq
    obtain ⟨-, rfl⟩ := positional_copyParser hk
    cases hk
    rfl

theorem commandLine_reads_back_copyParser :
    copyParser.commandLine copyRender copyConfiguration =
      ["--verbose".toList, "--count=-7".toList, "--".toList, "--help".toList] ∧
    ∃ st, copyParser.parse (copyParser.commandLine copyRender copyConfiguration) copyVars =
        (.success, st) ∧
      st.vars.flag () = true ∧ st.vars.value false = (-7 : Int) ∧
      st.vars.value true = "--help".toList := by
  obtain ⟨st, hst, hflags, hoptions, hpositionals⟩ :=
    commandLine_reads_back registered_copyParser plainNames_copyParser ownVariables_copyParser
      renders_copyConfiguration copyVars
  refine ⟨by decide +kernel, st, hst, ?_, ?_, ?_⟩
  · exact hflags ⟨"verbose".toList, 'v', false, false, .flag ()⟩ (by simp [copyParser]) () rfl
  · exact hoptions ⟨"count".toList, 'c', true, false, .value false (cliParseInteger (-128) 127)⟩
      (by simp [copyParser]) false _ rfl
  · exact hpositionals ⟨"input".toList, true, false, true, cliParseString⟩ (by simp [copyParser])

end EglUtil.Cli
