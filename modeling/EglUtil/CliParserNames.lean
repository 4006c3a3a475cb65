import Mathlib.Logic.ExistsUnique
import EglUtil.CliParserGrammar
import EglUtil.CliParserReading

/-!
# `CliParser`: options and their names

Registration compares names with each other. Reading makes names out of tokens: a long name ends at
the first `=`, and `--` is the terminator before anything else. So two kinds of names are registered
that no token spells.

**Theorem (`namesReach_iff`).** Names are distinct and there is one option for help, always. Every
option with a long name is reached by its names exactly if no such name has a `=` in it, and no such
option has the short name `-`.
-/

namespace EglUtil.Cli

variable {β κ : Type*} {V : κ → Type*}

/-! ## Lookup by name -/

/-- The first element with a property that singles it out. -/
theorem find_zipIdx_iff {α : Type*} {l : List α} {P : α → Prop} [DecidablePred P]
    (hunique : ∀ (i j : Nat) (a b : α), l[i]? = some a → l[j]? = some b → P a → P b → i = j)
    {a : α} {i : Nat} :
    l.zipIdx.find? (fun x => decide (P x.1)) = some (a, i) ↔ l[i]? = some a ∧ P a := by
  constructor
  · intro h
    have hmem := List.mem_of_find?_eq_some h
    have hP := List.find?_some h
    exact ⟨List.mk_mem_zipIdx_iff_getElem?.1 hmem, of_decide_eq_true hP⟩
  · intro h
    have hmem : (a, i) ∈ l.zipIdx := List.mk_mem_zipIdx_iff_getElem?.2 h.1
    cases hfind : l.zipIdx.find? (fun x => decide (P x.1)) with
    | none => exact absurd (decide_eq_true h.2) (List.find?_eq_none.1 hfind _ hmem)
    | some found =>
      obtain ⟨b, j⟩ := found
      have hb := List.mk_mem_zipIdx_iff_getElem?.1 (List.mem_of_find?_eq_some hfind)
      have hPb := List.find?_some hfind
      obtain rfl := hunique i j a b h.1 hb h.2 (of_decide_eq_true hPb)
      rw [Option.some.inj (h.1.symm.trans hb)]

/-- The option that is found has this long name. -/
theorem of_findLong {p : CliParser β V} {name : Token} {o : OptionSpec β V} {i : Nat}
    (h : p.findLong name = some (o, i)) :
    p.options[i]? = some o ∧ o.longName ≠ [] ∧ o.longName = name := by
  have hmem := List.mem_of_find?_eq_some h
  have hname := List.find?_some h
  exact ⟨List.mk_mem_zipIdx_iff_getElem?.1 hmem, of_decide_eq_true hname⟩

/-- The option that is found has this short name. -/
theorem of_findShort {p : CliParser β V} {name : Char} {o : OptionSpec β V} {i : Nat}
    (h : p.findShort name = some (o, i)) :
    p.options[i]? = some o ∧ o.shortName ≠ '\x00' ∧ o.shortName = name := by
  have hmem := List.mem_of_find?_eq_some h
  have hname := List.find?_some h
  exact ⟨List.mk_mem_zipIdx_iff_getElem?.1 hmem, of_decide_eq_true hname⟩

/-- No two options have the same long name, or the same short name. -/
structure UniqueNames (p : CliParser β V) : Prop where
  long : ∀ (i j : Nat) (o o' : OptionSpec β V), p.options[i]? = some o →
    p.options[j]? = some o' → o.longName ≠ [] → o.longName = o'.longName → i = j
  short : ∀ (i j : Nat) (o o' : OptionSpec β V), p.options[i]? = some o →
    p.options[j]? = some o' → o.shortName ≠ '\x00' → o.shortName = o'.shortName → i = j

theorem UniqueNames.findLong_iff {p : CliParser β V} (h : UniqueNames p) {name : Token}
    {o : OptionSpec β V} {i : Nat} :
    p.findLong name = some (o, i) ↔
      p.options[i]? = some o ∧ o.longName ≠ [] ∧ o.longName = name := by
  refine find_zipIdx_iff (P := fun o : OptionSpec β V => o.longName ≠ [] ∧ o.longName = name) ?_
  intro i j a b ha hb hPa hPb
  exact h.long i j a b ha hb hPa.1 (hPa.2.trans hPb.2.symm)

theorem UniqueNames.findShort_iff {p : CliParser β V} (h : UniqueNames p) {name : Char}
    {o : OptionSpec β V} {i : Nat} :
    p.findShort name = some (o, i) ↔
      p.options[i]? = some o ∧ o.shortName ≠ '\x00' ∧ o.shortName = name := by
  refine find_zipIdx_iff
    (P := fun o : OptionSpec β V => o.shortName ≠ '\x00' ∧ o.shortName = name) ?_
  intro i j a b ha hb hPa hPb
  exact h.short i j a b ha hb hPa.1 (hPa.2.trans hPb.2.symm)

/-! ## Registration keeps names distinct -/

/-- Keys stay unique when an element with a new key is added. -/
theorem unique_append {α γ : Type*} {l : List α} {x : α} {key : α → γ} {P : γ → Prop}
    (hunique : ∀ (i j : Nat) (a b : α), l[i]? = some a → l[j]? = some b → P (key a) →
      key a = key b → i = j)
    (hfresh : ∀ (i : Nat) (a : α), l[i]? = some a → P (key a) → key a ≠ key x) (i j : Nat)
    (a b : α) (ha : (l ++ [x])[i]? = some a) (hb : (l ++ [x])[j]? = some b) (hP : P (key a))
    (hsame : key a = key b) : i = j := by
  have hplace : ∀ {k : Nat} {c : α}, (l ++ [x])[k]? = some c →
      l[k]? = some c ∨ k = l.length ∧ c = x := by
    intro k c hc
    rw [List.getElem?_append] at hc
    split_ifs at hc with hk
    · exact .inl hc
    · obtain ⟨hlt, hx⟩ := List.getElem?_eq_some_iff.1 hc
      rw [List.length_singleton] at hlt
      exact .inr ⟨by omega, by simpa using hx.symm⟩
  rcases hplace ha with hi | ⟨hi, rfl⟩
  · rcases hplace hb with hj | ⟨-, rfl⟩
    · exact hunique i j a b hi hj hP hsame
    · exact absurd hsame (hfresh i a hi hP)
  · rcases hplace hb with hj | ⟨hj, -⟩
    · exact absurd hsame.symm (hfresh j b hj (hsame ▸ hP))
    · rw [hi, hj]

/-- What a registration checks and adds. -/
theorem addSpec_eq_ok {p p' : CliParser β V} {longName : Token} {shortName : Char}
    {required : Bool} {action : Action β V}
    (hok : p.addSpec longName shortName required action = .ok p') :
    (longName ≠ [] → p.findLong longName = none) ∧
      (shortName ≠ '\x00' → p.findShort shortName = none) ∧
      p' = ⟨p.options ++ [⟨longName, shortName, required, false, action⟩], p.positionals⟩ := by
  unfold CliParser.addSpec CliParser.makeNamedSpec at hok
  split_ifs at hok with hnone hlong hshort
  · cases hok
  · cases hok
  · cases hok
  · cases hok
    rw [not_and, Option.not_isSome_iff_eq_none] at hlong hshort
    exact ⟨hlong, hshort, rfl⟩

theorem UniqueNames.addSpec {p p' : CliParser β V} (h : UniqueNames p) {longName : Token}
    {shortName : Char} {required : Bool} {action : Action β V}
    (hok : p.addSpec longName shortName required action = .ok p') : UniqueNames p' := by
  obtain ⟨hlong, hshort, rfl⟩ := addSpec_eq_ok hok
  refine ⟨unique_append (P := fun name => name ≠ []) h.long ?_,
    unique_append (P := fun name => name ≠ '\x00') h.short ?_⟩
  · intro i o ho hne hsame
    dsimp only at hsame
    have hfind := h.findLong_iff.2 ⟨ho, hne, hsame⟩
    rw [hlong (hsame ▸ hne)] at hfind
    cases hfind
  · intro i o ho hne hsame
    dsimp only at hsame
    have hfind := h.findShort_iff.2 ⟨ho, hne, hsame⟩
    rw [hshort (hsame ▸ hne)] at hfind
    cases hfind

theorem uniqueNames_new : UniqueNames (.new : CliParser β V) := by
  have hzero : ∀ {i : Nat} {o : OptionSpec β V},
      (CliParser.new : CliParser β V).options[i]? = some o → i = 0 := by
    intro i o ho
    obtain ⟨hlt, -⟩ := List.getElem?_eq_some_iff.1 ho
    exact Nat.lt_one_iff.1 hlt
  refine ⟨?_, ?_⟩
  all_goals
    intro i j o o' ho ho' _ _
    rw [hzero ho, hzero ho']

theorem UniqueNames.of_reset {p q : CliParser β V} (h : UniqueNames p)
    (hreset : q.reset = p.reset) : UniqueNames q := by
  have hlookup : ∀ {i : Nat} {o : OptionSpec β V}, q.options[i]? = some o →
      ∃ o', p.options[i]? = some o' ∧ o'.longName = o.longName ∧ o'.shortName = o.shortName := by
    intro i o ho
    have hi : p.reset.options[i]? = some { o with seen := false } := by
      rw [← hreset, CliParser.reset, List.getElem?_map, ho, Option.map_some]
    rw [CliParser.reset, List.getElem?_map, Option.map_eq_some_iff] at hi
    obtain ⟨o', ho', hsame⟩ := hi
    obtain ⟨hlong, hshort, -⟩ := OptionSpec.mk.inj hsame
    exact ⟨o', ho', hlong, hshort⟩
  refine ⟨?_, ?_⟩
  all_goals
    intro i j a b ha hb hname hsame
    obtain ⟨a', ha', hlong, hshort⟩ := hlookup ha
    obtain ⟨b', hb', hlong', hshort'⟩ := hlookup hb
  · exact h.long i j a' b' ha' hb' (by rwa [hlong]) (by rw [hlong, hlong', hsame])
  · exact h.short i j a' b' ha' hb' (by rwa [hshort]) (by rw [hshort, hshort', hsame])

/-- The names of a registered parser are unique. -/
theorem Registered.uniqueNames [DecidableEq β] [DecidableEq κ] {p : CliParser β V}
    (h : Registered p) : UniqueNames p := by
  induction h with
  | new => exact uniqueNames_new
  | addFlag _ hok ih => exact ih.addSpec hok
  | addOption _ hok ih => exact ih.addSpec hok
  | @addPositional p p' name target convert required _ hok ih =>
    unfold CliParser.addPositional at hok
    split_ifs at hok
    cases hok
    exact ⟨ih.long, ih.short⟩
  | parse _ ih => exact ih.of_reset (reset_parse _ _ _)

/-! ## Names in tokens -/

/-- The name of `name=value` ends at the first `=`. -/
theorem splitInline_joined {name text : Token} (hname : '=' ∉ name) :
    splitInline (name ++ '=' :: text) = (name, some text) := by
  have hidx : (name ++ '=' :: text).idxOf '=' = name.length := by
    rw [List.idxOf_append_of_notMem hname, List.idxOf_cons_self, Nat.add_zero]
  have hmem : '=' ∈ name ++ '=' :: text := List.mem_append_right _ List.mem_cons_self
  rw [splitInline, if_pos hmem, hidx]
  simp

theorem splitInline_plain {name : Token} (hname : '=' ∉ name) : splitInline name = (name, none) :=
  if_neg hname

/-- The parts of a text make up the text. -/
theorem splitInline_eq {body name : Token} {inlineValue : Option Token}
    (h : splitInline body = (name, inlineValue)) :
    body = name ++ (inlineValue.map fun text => '=' :: text).getD [] := by
  unfold splitInline at h
  split_ifs at h with hmem
  · cases h
    have hlt := List.idxOf_lt_length_iff.2 hmem
    have hdrop := List.drop_eq_getElem_cons hlt
    rw [List.getElem_idxOf hlt] at hdrop
    rw [Option.map_some, Option.getD_some, ← hdrop, List.take_append_drop]
  · cases h
    simp

theorem dropEquals_of_head_ne {text : Token} (h : text.head? ≠ some '=') :
    dropEquals text = text := by
  unfold dropEquals
  split
  · exact absurd rfl h
  · rfl

/-- What an option asks for by its name alone. -/
def OptionSpec.alone (o : OptionSpec β V) (i : Nat) (label : String) :
    List (Match β V) × Next V :=
  match o.action with
  | .help => ([], .ended .help)
  | .flag bound => ([.flag i bound], .goesOn)
  | .value target convert => ([], .awaits i label target convert)

section Lookup

variable {p : CliParser β V} {i : Nat} {o : OptionSpec β V}

/-- A long name without a `=`. -/
theorem readLong_name (hp : UniqueNames p) (ho : p.options[i]? = some o) (hne : o.longName ≠ [])
    (hplain : '=' ∉ o.longName) :
    p.readLong o.longName = o.alone i ("--" ++ String.ofList o.longName) := by
  have hfind := hp.findLong_iff.2 ⟨ho, hne, rfl⟩
  rw [CliParser.readLong, splitInline_plain hplain]
  simp only [hfind]
  cases haction : o.action <;> simp only [OptionSpec.alone, haction]

/-- A long name and a value. -/
theorem readLong_joined (hp : UniqueNames p) (ho : p.options[i]? = some o) (hne : o.longName ≠ [])
    (hplain : '=' ∉ o.longName) {target : κ} {convert : Token → Option (V target)}
    (haction : o.action = .value target convert) (value : Token) :
    p.readLong (o.longName ++ '=' :: value) =
      ([.value i ("--" ++ String.ofList o.longName) target convert value], .goesOn) := by
  have hfind := hp.findLong_iff.2 ⟨ho, hne, rfl⟩
  rw [CliParser.readLong, splitInline_joined hplain]
  simp only [hfind, haction]

theorem readShort_name (hp : UniqueNames p) (ho : p.options[i]? = some o)
    (hne : o.shortName ≠ '\x00') :
    p.readShort [o.shortName] = o.alone i ("-" ++ String.ofList [o.shortName]) := by
  have hfind := hp.findShort_iff.2 ⟨ho, hne, rfl⟩
  rw [CliParser.readShort, hfind, OptionSpec.alone]
  dsimp only
  cases o.action with
  | help => rfl
  | flag bound => rfl
  | value target convert => exact if_neg (not_not_intro rfl)

/-- A short name and the value that follows it in the cluster. -/
theorem readShort_value (hp : UniqueNames p) (ho : p.options[i]? = some o)
    (hne : o.shortName ≠ '\x00') {target : κ} {convert : Token → Option (V target)}
    (haction : o.action = .value target convert) {body : Token} (hbody : body ≠ []) :
    p.readShort (o.shortName :: body) =
      ([.value i ("-" ++ String.ofList [o.shortName]) target convert (dropEquals body)],
        .goesOn) := by
  have hfind := hp.findShort_iff.2 ⟨ho, hne, rfl⟩
  rw [CliParser.readShort, hfind]
  simp only [haction, if_pos hbody]

end Lookup

/-! ## Reaching an option -/

/-- The token, met while options are processed, is the option at this place. -/
def Dispatches (p : CliParser β V) (token : Token) (i : Nat) : Prop :=
  token ≠ ['-', '-'] ∧ ∃ o label, p.options[i]? = some o ∧ p.readToken token = o.alone i label

/-- Each option with a long name is reached by its names, and by no name that another has. -/
structure NamesReach (p : CliParser β V) : Prop where
  distinct : UniqueNames p
  help : ∃! i : Nat, ∃ o : OptionSpec β V, p.options[i]? = some o ∧ o.action = .help
  long : ∀ (i : Nat) (o : OptionSpec β V), p.options[i]? = some o → o.longName ≠ [] →
    Dispatches p ('-' :: '-' :: o.longName) i
  short : ∀ (i : Nat) (o : OptionSpec β V), p.options[i]? = some o → o.longName ≠ [] →
    o.shortName ≠ '\x00' → Dispatches p ['-', o.shortName] i

/-- The loop then goes on as the option wants it. -/
theorem Dispatches.parseTokens_eq [DecidableEq β] [DecidableEq κ] {p : CliParser β V}
    {token : Token} {i : Nat} (h : Dispatches p token i) {st : State β V}
    (hst : st.parser.reset = p.reset) (k : Nat) (rest : List Token) :
    ∃ o label, p.options[i]? = some o ∧ parseTokens st k false (token :: rest) =
      execute st k (p.follow (o.alone i label) rest).1 (p.follow (o.alone i label) rest).2 := by
  obtain ⟨hne, o, label, ho, hread⟩ := h
  refine ⟨o, label, ho, ?_⟩
  rw [performs p false (token :: rest) st k hst, p.readTokens_token hne, hread]

theorem dispatches_long {p : CliParser β V} (hp : UniqueNames p) {i : Nat} {o : OptionSpec β V}
    (ho : p.options[i]? = some o) (hne : o.longName ≠ []) (hplain : '=' ∉ o.longName) :
    Dispatches p ('-' :: '-' :: o.longName) i := by
  refine ⟨by simp [hne], o, "--" ++ String.ofList o.longName, ho, ?_⟩
  rw [p.readToken_long, readLong_name hp ho hne hplain]

theorem dispatches_short {p : CliParser β V} (hp : UniqueNames p) {i : Nat} {o : OptionSpec β V}
    (ho : p.options[i]? = some o) (hne : o.shortName ≠ '\x00') (hdash : o.shortName ≠ '-') :
    Dispatches p ['-', o.shortName] i := by
  refine ⟨by simp [hdash], o, "-" ++ String.ofList [o.shortName], ho, ?_⟩
  rw [p.readToken_short (List.cons_ne_nil _ _) (by simpa using hdash), readShort_name hp ho hne]

/-- A name with a `=` is cut there, and then it is not the name of this option. -/
theorem not_dispatches_of_equals {p : CliParser β V} {i : Nat} {o : OptionSpec β V}
    (ho : p.options[i]? = some o) (haction : o.action ≠ .help) (hequals : '=' ∈ o.longName) :
    ¬ Dispatches p ('-' :: '-' :: o.longName) i := by
  intro h
  obtain ⟨-, o', label, ho', hread⟩ := h
  rw [ho] at ho'
  cases ho'
  rw [p.readToken_long, CliParser.readLong, splitInline, if_pos hequals] at hread
  cases haction' : o.action with
  | help => exact haction haction'
  | flag bound =>
    simp only [OptionSpec.alone, haction'] at hread
    split at hread
    · cases hread
    · split at hread <;> cases hread
  | value target convert =>
    simp only [OptionSpec.alone, haction'] at hread
    split at hread
    · cases hread
    · split at hread <;> cases hread

/-! ## The option for help -/

/-- The option for help is the first, and the only one. -/
def HelpFirst (p : CliParser β V) : Prop :=
  ∃ rest, p.reset.options = (CliParser.new : CliParser β V).options ++ rest ∧
    ∀ o ∈ rest, o.action ≠ .help

theorem HelpFirst.addSpec {p p' : CliParser β V} (h : HelpFirst p) {longName : Token}
    {shortName : Char} {required : Bool} {action : Action β V} (haction : action ≠ .help)
    (hok : p.addSpec longName shortName required action = .ok p') : HelpFirst p' := by
  obtain ⟨-, -, rfl⟩ := addSpec_eq_ok hok
  obtain ⟨rest, hrest, hothers⟩ := h
  refine ⟨rest ++ [⟨longName, shortName, required, false, action⟩], ?_, ?_⟩
  · rw [← List.append_assoc, ← hrest]
    simp [CliParser.reset]
  · refine List.forall_mem_append.2 ⟨hothers, List.forall_mem_singleton.2 haction⟩

theorem Registered.helpFirst [DecidableEq β] [DecidableEq κ] {p : CliParser β V}
    (h : Registered p) : HelpFirst p := by
  induction h with
  | new => exact ⟨[], rfl, by simp⟩
  | @addFlag _ _ _ _ bound _ hok ih =>
    have haction : (Action.flag bound : Action β V) ≠ .help := nofun
    exact ih.addSpec haction hok
  | @addOption _ _ _ _ target convert _ _ hok ih =>
    have haction : (Action.value target convert : Action β V) ≠ .help := nofun
    exact ih.addSpec haction hok
  | @addPositional p p' name target convert required _ hok ih =>
    unfold CliParser.addPositional at hok
    split_ifs at hok
    cases hok
    exact ih
  | parse _ ih =>
    unfold HelpFirst
    rw [reset_parse]
    exact ih

theorem HelpFirst.help_iff {p : CliParser β V} (h : HelpFirst p) {i : Nat} {o : OptionSpec β V}
    (ho : p.options[i]? = some o) : o.action = .help ↔ i = 0 := by
  obtain ⟨rest, hrest, hothers⟩ := h
  have hreset : p.reset.options[i]? = some { o with seen := false } := by
    rw [CliParser.reset, List.getElem?_map, ho, Option.map_some]
  rw [hrest] at hreset
  cases i with
  | zero =>
    have haction : o.action = .help :=
      congrArg OptionSpec.action (Option.some.inj hreset).symm
    exact ⟨fun _ => rfl, fun _ => haction⟩
  | succ i =>
    have hrest : rest[i]? = some { o with seen := false } := hreset
    have hne := hothers _ (List.mem_of_getElem? hrest)
    exact ⟨fun haction => absurd haction hne, fun hzero => absurd hzero (Nat.succ_ne_zero i)⟩

theorem HelpFirst.exists_help {p : CliParser β V} (h : HelpFirst p) :
    ∃ o, p.options[0]? = some o ∧ o.longName = "help".toList := by
  obtain ⟨rest, hrest, -⟩ := h
  have hreset : (p.options.map fun o => { o with seen := false })[0]? =
      some ⟨"help".toList, 'h', false, false, .help⟩ := by
    rw [show p.options.map _ = _ from hrest]
    rfl
  rw [List.getElem?_map, Option.map_eq_some_iff] at hreset
  obtain ⟨o, ho, hhelp⟩ := hreset
  exact ⟨o, ho, congrArg OptionSpec.longName hhelp⟩

/-! ## Names that no token spells -/

/-- **Options are reached by their names** exactly if no long name has a `=`, and `-` is not the
short name of an option with a long name. -/
theorem namesReach_iff [DecidableEq β] [DecidableEq κ] {p : CliParser β V} (h : Registered p) :
    NamesReach p ↔ ∀ o ∈ p.options, o.longName ≠ [] → '=' ∉ o.longName ∧ o.shortName ≠ '-' := by
  have hunique := h.uniqueNames
  have hhelp := h.helpFirst
  obtain ⟨help, hfirst, hname⟩ := hhelp.exists_help
  constructor
  · intro hreach o hmem hne
    obtain ⟨i, ho⟩ := List.mem_iff_getElem?.1 hmem
    refine ⟨?_, ?_⟩
    · intro hequals
      refine not_dispatches_of_equals ho ?_ hequals (hreach.long i o ho hne)
      intro haction
      obtain rfl := (hhelp.help_iff ho).1 haction
      rw [hfirst] at ho
      cases ho
      rw [hname] at hequals
      exact absurd hequals (by decide)
    · intro hdash
      have hshort := hreach.short i o ho hne (by rw [hdash]; decide)
      rw [hdash] at hshort
      exact hshort.1 rfl
  · intro hplain
    refine ⟨hunique, ⟨0, ⟨help, hfirst, (hhelp.help_iff hfirst).2 rfl⟩, ?_⟩, ?_, ?_⟩
    · intro i hi
      obtain ⟨o, ho, haction⟩ := hi
      exact (hhelp.help_iff ho).1 haction
    · intro i o ho hne
      exact dispatches_long hunique ho hne (hplain o (List.mem_of_getElem? ho) hne).1
    · intro i o ho hne hshort
      exact dispatches_short hunique ho hshort (hplain o (List.mem_of_getElem? ho) hne).2

/-- The variables of `copyParser`: a number and a text. -/
abbrev CopyValue : Bool → Type
  | false => Int
  | true => Token

/-- A parser with a flag, an integer option and a positional. -/
def copyParser : CliParser Unit CopyValue :=
  ⟨[⟨"help".toList, 'h', false, false, .help⟩, ⟨"verbose".toList, 'v', false, false, .flag ()⟩,
      ⟨"count".toList, 'c', true, false, .value false (cliParseInteger (-128) 127)⟩],
    [⟨"input".toList, true, false, true, cliParseString⟩]⟩

theorem registered_copyParser : Registered copyParser := by
  have hflag : Registered (⟨copyParser.options.take 2, []⟩ : CliParser Unit CopyValue) :=
    .addFlag .new (show CliParser.new.addFlag "verbose".toList 'v' () = .ok _ from rfl)
  have hoption : Registered (⟨copyParser.options, []⟩ : CliParser Unit CopyValue) :=
    .addOption hflag (show CliParser.addOption _ "count".toList 'c' false
      (cliParseInteger (-128) 127) true = .ok _ from rfl)
  exact .addPositional hoption
    (show CliParser.addPositional _ "input".toList true cliParseString true = .ok _ from rfl)

theorem plainNames_copyParser : PlainNames copyParser := by
  unfold PlainNames copyParser
  simp

/-- Its only flag and its only value option. -/
theorem action_copyParser {i : Nat} {o : OptionSpec Unit CopyValue}
    (ho : copyParser.options[i]? = some o) :
    (o.action = .help ∧ i = 0) ∨ (o.action = .flag () ∧ i = 1) ∨
      (o.action = .value false (cliParseInteger (-128) 127) ∧ i = 2) := by
  rcases i with _ | _ | _ | i
  · cases ho
    exact .inl ⟨rfl, rfl⟩
  · cases ho
    exact .inr (.inl ⟨rfl, rfl⟩)
  · cases ho
    exact .inr (.inr ⟨rfl, rfl⟩)
  · cases ho

/-- Nothing is set. -/
def copyVars : Variables Unit CopyValue :=
  ⟨fun _ => false, fun | false => (0 : Int) | true => ([] : Token)⟩

theorem namesReach_copyParser : NamesReach copyParser := by
  refine (namesReach_iff registered_copyParser).2 fun o ho _ => ?_
  exact plainNames_copyParser o ho

/-- A parser with a flag `a=b`, and a flag with the short name `-`. -/
def misnamed : CliParser Bool (fun _ : Unit => Token) :=
  ⟨[⟨"help".toList, 'h', false, false, .help⟩,
      ⟨"a=b".toList, '\x00', false, false, .flag false⟩,
      ⟨"dash".toList, '-', false, false, .flag true⟩], []⟩

theorem registered_misnamed : Registered misnamed := by
  have hequals : Registered
      (⟨misnamed.options.take 2, []⟩ : CliParser Bool (fun _ : Unit => Token)) :=
    .addFlag .new (show CliParser.new.addFlag "a=b".toList '\x00' false = .ok _ from rfl)
  exact .addFlag hequals (show CliParser.addFlag _ "dash".toList '-' true = .ok _ from rfl)

/-- `--a=b` is an unknown option, and `--` ends the options. -/
theorem not_namesReach_misnamed :
    (Registered misnamed ∧ ¬ NamesReach misnamed) ∧
      (misnamed.parse ["--a=b".toList] ⟨fun _ => false, fun _ => []⟩).1 =
        .failure .unknownOption "unknown option '--a'" ∧
      ¬ Dispatches misnamed ['-', '-'] 2 := by
  have hequals : ¬ Dispatches misnamed ('-' :: '-' :: "a=b".toList) 1 :=
    not_dispatches_of_equals (p := misnamed) (i := 1)
      (o := ⟨"a=b".toList, '\x00', false, false, .flag false⟩) rfl nofun (by decide)
  refine ⟨⟨registered_misnamed, fun h => hequals ?_⟩, by decide +kernel, fun h => h.1 rfl⟩
  exact h.long 1 _ rfl (by decide)

end EglUtil.Cli
