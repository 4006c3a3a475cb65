import EglUtil.CliParserNames

/-!
# `CliParser`: equal spellings

What is written in another way is read in the same way, wherever it stands: reading what follows
some tokens depends on them only by whether options are still open (`readTokens_append`). So it is
enough to compare what two spellings ask for.

**Theorem (`cluster_expands`).** `-abc` is `-a -bc`, unless `a` takes a value.

**Theorem (`spellings_agree`).** `--name=v`, `--name v`, `-n=v`, `-n v` and `-nv` do the same to
the variables, and differ in the message about a text that cannot be converted at most.
-/

namespace EglUtil.Cli

variable {β κ : Type*} {V : κ → Type*}

/-! ## What stands before -/

namespace CliParser

/-- A token that follows these is met as an option is, if it is met at all: they contain no
terminator, and no option at their end waits for its value. -/
def optionsOpen (p : CliParser β V) : List Token → Bool
  | [] => true
  | token :: rest =>
    if token = ['-', '-'] then false
    else
      match (p.readToken token).2 with
      | .ended _ => true
      | .goesOn => p.optionsOpen rest
      | .awaits .. =>
        match rest with
        | [] => false
        | _ :: rest => p.optionsOpen rest

/-- **In context.** Reading has ended before, or goes on in the same way. -/
theorem readTokens_append (p : CliParser β V) {pre : List Token} (hopen : p.optionsOpen pre) :
    (∃ r, ∀ rest, p.readTokens false (pre ++ rest) = r) ∨
    ∃ ms, ∀ rest, p.readTokens false (pre ++ rest) =
      (ms ++ (p.readTokens false rest).1, (p.readTokens false rest).2) := by
  induction pre using tokens_induction with
  | nil => exact .inr ⟨[], fun rest => rfl⟩
  | cons token tokens ih ihtail =>
    rw [optionsOpen.eq_def] at hopen
    dsimp only at hopen
    split_ifs at hopen with hne
    have hread : ∀ rest, p.readTokens false (token :: tokens ++ rest) =
        p.follow (p.readToken token) (tokens ++ rest) :=
      fun rest => p.readTokens_token hne _
    generalize p.readToken token = r at hopen hread
    obtain ⟨ms, next⟩ := r
    cases next with
    | ended result => exact .inl ⟨(ms, some result), hread⟩
    | goesOn =>
      rcases ih hopen with ⟨r, hr⟩ | ⟨ms', hms'⟩
      · refine .inl ⟨(ms ++ r.1, r.2), fun rest => ?_⟩
        rw [hread, follow_goesOn, hr]
      · refine .inr ⟨ms ++ ms', fun rest => ?_⟩
        rw [hread, follow_goesOn, hms']
        simp only [List.append_assoc]
    | awaits i label target convert =>
      cases tokens with
      | nil => cases hopen
      | cons value tokens =>
        rcases ihtail hopen with ⟨r, hr⟩ | ⟨ms', hms'⟩
        · refine .inl ⟨(ms ++ .value i label target convert value :: r.1, r.2), fun rest => ?_⟩
          rw [List.tail_cons] at hr
          rw [hread, List.cons_append, follow_awaits, hr]
        · refine .inr ⟨ms ++ .value i label target convert value :: ms', fun rest => ?_⟩
          rw [List.tail_cons] at hms'
          rw [hread, List.cons_append, follow_awaits, hms']
          simp only [List.append_assoc, List.cons_append]

/-! ## Clusters -/

theorem readTokens_cluster (p : CliParser β V) {letter : Char} (hletter : letter ≠ '-')
    (body : Token) (rest : List Token) :
    p.readTokens false (('-' :: letter :: body) :: rest) =
      p.follow (p.readShort (letter :: body)) rest := by
  have hne : '-' :: letter :: body ≠ ['-', '-'] := by simp [hletter]
  rw [p.readTokens_token hne, p.readToken_short (List.cons_ne_nil _ _) (by simpa using hletter)]

/-- The first letter of a cluster may stand alone. -/
theorem readTokens_expand (p : CliParser β V) {c₁ c₂ : Char} (h₁ : c₁ ≠ '-') (h₂ : c₂ ≠ '-')
    (hvalue : ∀ o ∈ p.options, o.shortName ≠ '\x00' → o.shortName = c₁ →
      ∀ target convert, o.action ≠ .value target convert) (cs : Token) (rest : List Token) :
    p.readTokens false (('-' :: c₁ :: c₂ :: cs) :: rest) =
      p.readTokens false (['-', c₁] :: ('-' :: c₂ :: cs) :: rest) := by
  have hcut : p.follow (p.readShort []) (('-' :: c₂ :: cs) :: rest) =
      p.follow (p.readShort (c₂ :: cs)) rest := p.readTokens_cluster h₂ cs rest
  rw [p.readTokens_cluster h₁, p.readTokens_cluster h₁]
  have hne : c₂ :: cs ≠ [] := List.cons_ne_nil c₂ cs
  generalize c₂ :: cs = body at hcut hne ⊢
  rw [readShort, readShort]
  cases hfind : p.findShort c₁ with
  | none => rfl
  | some found =>
    obtain ⟨o, i⟩ := found
    obtain ⟨ho, hne, hname⟩ := of_findShort hfind
    dsimp only
    cases haction : o.action with
    | help => rfl
    | flag bound =>
      dsimp only
      rw [follow_cons, follow_cons, hcut]
    | value target convert =>
      exact absurd haction (hvalue o (List.mem_of_getElem? ho) hne hname target convert)

end CliParser

section Parsing

variable [DecidableEq β] [DecidableEq κ]

theorem parse_congr {p : CliParser β V} {args args' : List Token}
    (h : p.readTokens false args = p.readTokens false args') (vars : Variables β V) :
    p.parse args vars = p.parse args' vars := by
  rw [parse_eq_execute, parse_eq_execute, h]

/-- **Clusters expand.** -/
theorem cluster_expands (p : CliParser β V) (pre post : List Token) (c₁ c₂ : Char) (cs : Token)
    (hopen : p.optionsOpen pre) (h₁ : c₁ ≠ '-') (h₂ : c₂ ≠ '-')
    (hvalue : ∀ o ∈ p.options, o.shortName ≠ '\x00' → o.shortName = c₁ →
      ∀ target convert, o.action ≠ .value target convert) (vars : Variables β V) :
    p.parse (pre ++ ('-' :: c₁ :: c₂ :: cs) :: post) vars =
      p.parse (pre ++ ['-', c₁] :: ('-' :: c₂ :: cs) :: post) vars := by
  have hhere := p.readTokens_expand h₁ h₂ hvalue cs post
  refine parse_congr ?_ vars
  rcases p.readTokens_append hopen with ⟨r, hr⟩ | ⟨ms, hms⟩
  · rw [hr, hr]
  · rw [hms, hms, hhere]

theorem flag_of_copyParser_v {o : OptionSpec Unit CopyValue} (ho : o ∈ copyParser.options)
    (hname : o.shortName = 'v') (target : Bool) (convert : Token → Option (CopyValue target)) :
    o.action ≠ .value target convert := by
  obtain ⟨i, hi⟩ := List.mem_iff_getElem?.1 ho
  rcases action_copyParser hi with ⟨haction, -⟩ | ⟨haction, -⟩ | ⟨-, rfl⟩
  · rw [haction]
    nofun
  · rw [haction]
    nofun
  · cases hi
    cases hname

/-- `-vc x` is `-v -c x`, and fails in the same way. -/
theorem cluster_expands_copyParser :
    copyParser.optionsOpen ["--count=7".toList] = true ∧
      copyParser.parse (["--count=7".toList] ++ "-vc".toList :: ["x".toList]) copyVars =
        copyParser.parse (["--count=7".toList] ++ "-v".toList :: "-c".toList :: ["x".toList])
          copyVars :=
  ⟨by decide, cluster_expands copyParser ["--count=7".toList] ["x".toList] 'v' 'c' [] (by decide)
    (by decide) (by decide) (fun _ ho _ hname => flag_of_copyParser_v ho hname) copyVars⟩

end Parsing

/-! ## An option with its value -/

/-- The ways to give an option a value, and how an error names the option. -/
inductive Spells (o : OptionSpec β V) (value : Token) : String → List Token → Prop where
  | longJoined : Spells o value ("--" ++ String.ofList o.longName)
      ['-' :: '-' :: (o.longName ++ '=' :: value)]
  | longSeparate : Spells o value ("--" ++ String.ofList o.longName)
      ['-' :: '-' :: o.longName, value]
  | shortJoined : Spells o value ("-" ++ String.ofList [o.shortName])
      ['-' :: o.shortName :: '=' :: value]
  | shortSeparate : Spells o value ("-" ++ String.ofList [o.shortName]) [['-', o.shortName], value]
  | shortAttached (hne : value ≠ []) (hequals : value.head? ≠ some '=') :
      Spells o value ("-" ++ String.ofList [o.shortName]) ['-' :: o.shortName :: value]

/-- A value option with a long and a short name that can be told from other tokens. -/
structure ValueOption (p : CliParser β V) (i : Nat) (o : OptionSpec β V) (target : κ)
    (convert : Token → Option (V target)) : Prop where
  registered : p.options[i]? = some o
  action : o.action = .value target convert
  long : o.longName ≠ []
  plain : '=' ∉ o.longName
  short : o.shortName ≠ '\x00'
  dash : o.shortName ≠ '-'

/-- **Each spelling asks for the same.** -/
theorem Spells.readTokens_eq {p : CliParser β V} (hp : UniqueNames p) {i : Nat}
    {o : OptionSpec β V} {target : κ} {convert : Token → Option (V target)}
    (h : ValueOption p i o target convert) {value : Token} {label : String} {spelling : List Token}
    (hspells : Spells o value label spelling) (rest : List Token) :
    p.readTokens false (spelling ++ rest) =
      (.value i label target convert value :: (p.readTokens false rest).1,
        (p.readTokens false rest).2) := by
  cases hspells with
  | longJoined =>
    have hread := readLong_joined hp h.registered h.long h.plain h.action value
    rw [List.singleton_append, p.readTokens_token (by simp), p.readToken_long, hread]
    rfl
  | longSeparate =>
    have hread := readLong_name hp h.registered h.long h.plain
    rw [OptionSpec.alone, h.action] at hread
    rw [List.cons_append, p.readTokens_token (by simp [h.long]), p.readToken_long, hread]
    rfl
  | shortJoined =>
    have hread := readShort_value hp h.registered h.short h.action (List.cons_ne_nil '=' value)
    rw [List.singleton_append, p.readTokens_cluster h.dash, hread]
    rfl
  | shortSeparate =>
    have hread := readShort_name hp h.registered h.short
    rw [OptionSpec.alone, h.action] at hread
    rw [List.cons_append, p.readTokens_cluster h.dash, hread]
    rfl
  | shortAttached hne hequals =>
    have hread := readShort_value hp h.registered h.short h.action hne
    rw [dropEquals_of_head_ne hequals] at hread
    rw [List.singleton_append, p.readTokens_cluster h.dash, hread]
    rfl

section Parsing

variable [DecidableEq β] [DecidableEq κ]

/-- Two results, the same but for the name of the option whose text cannot be converted. -/
def SameButLabel (value : Token) (label label' : String) (r r' : ParseResult) : Prop :=
  r = r' ∨
    r = .failure .invalidValue
      ("invalid value '" ++ String.ofList value ++ "' for option '" ++ label ++ "'") ∧
    r' = .failure .invalidValue
      ("invalid value '" ++ String.ofList value ++ "' for option '" ++ label' ++ "'")

/-- The label of a match is for its message alone. -/
theorem execute_label (i : Nat) (label label' : String) (target : κ)
    (convert : Token → Option (V target)) (value : Token) (ms ms' : List (Match β V))
    (ended : Option ParseResult) (st : State β V) (k : Nat) :
    SameButLabel value label label'
        (execute st k (ms ++ .value i label target convert value :: ms') ended).1
        (execute st k (ms ++ .value i label' target convert value :: ms') ended).1 ∧
      (execute st k (ms ++ .value i label target convert value :: ms') ended).2 =
        (execute st k (ms ++ .value i label' target convert value :: ms') ended).2 := by
  induction ms generalizing st k with
  | nil =>
    rw [List.nil_append, List.nil_append, execute_cons, execute_cons]
    cases hv : convert value with
    | none =>
      have hfails : ∀ label, (Match.value i label target convert value).perform st k =
          (.failure .invalidValue ("invalid value '" ++ String.ofList value ++
            "' for option '" ++ label ++ "'"), st) := by
        intro label
        simp only [Match.perform, assignOption, hv]
      have hstops : ∀ label,
          ((Match.value i label target convert value).perform st k).1 ≠ .success := by
        intro label
        rw [hfails]
        simp
      rw [if_pos (hstops label), if_pos (hstops label'), hfails, hfails]
      exact ⟨.inr ⟨rfl, rfl⟩, rfl⟩
    | some v =>
      have hassigns : ∀ label, (Match.value i label target convert value).perform st k =
          (.success, (st.store target v).seeOption i) := by
        intro label
        simp only [Match.perform, assignOption, hv]
      rw [hassigns, hassigns]
      exact ⟨.inl rfl, rfl⟩
  | cons m ms ih =>
    rw [List.cons_append, List.cons_append, execute_cons, execute_cons]
    split_ifs
    · exact ⟨.inl rfl, rfl⟩
    · exact ih _ _

/-- **Spellings agree.** -/
theorem spellings_agree {p : CliParser β V} (hp : Registered p) {i : Nat} {o : OptionSpec β V}
    {target : κ} {convert : Token → Option (V target)} (h : ValueOption p i o target convert)
    (pre post : List Token) (hopen : p.optionsOpen pre) (value : Token) {label label' : String}
    {spelling spelling' : List Token} (hspells : Spells o value label spelling)
    (hspells' : Spells o value label' spelling') (vars : Variables β V) :
    SameButLabel value label label' (p.parse (pre ++ (spelling ++ post)) vars).1
        (p.parse (pre ++ (spelling' ++ post)) vars).1 ∧
      (p.parse (pre ++ (spelling ++ post)) vars).2 =
        (p.parse (pre ++ (spelling' ++ post)) vars).2 := by
  have hread := hspells.readTokens_eq hp.uniqueNames h post
  have hread' := hspells'.readTokens_eq hp.uniqueNames h post
  simp only [parse_eq_execute]
  rcases p.readTokens_append hopen with ⟨r, hr⟩ | ⟨ms, hms⟩
  · rw [hr, hr]
    exact ⟨.inl rfl, rfl⟩
  · rw [hms, hms, hread, hread']
    exact execute_label ..

theorem valueOption_copyParser : ValueOption copyParser 2
    ⟨"count".toList, 'c', true, false, .value false (cliParseInteger (-128) 127)⟩ false
    (cliParseInteger (-128) 127) := by
  refine ⟨rfl, rfl, ?_, ?_, ?_, ?_⟩ <;> decide

/-- `-v --count=12 in` is `-v -c12 in`. -/
theorem spellings_agree_copyParser :
    SameButLabel "12".toList "--count" "-c"
        (copyParser.parse (["-v".toList] ++ (["--count=12".toList] ++ ["in".toList])) copyVars).1
        (copyParser.parse (["-v".toList] ++ (["-c12".toList] ++ ["in".toList])) copyVars).1 ∧
      (copyParser.parse (["-v".toList] ++ (["--count=12".toList] ++ ["in".toList])) copyVars).2 =
        (copyParser.parse (["-v".toList] ++ (["-c12".toList] ++ ["in".toList])) copyVars).2 :=
  spellings_agree registered_copyParser valueOption_copyParser ["-v".toList] ["in".toList]
    (by decide) "12".toList .longJoined (.shortAttached (by decide) (by decide)) copyVars

end Parsing

end EglUtil.Cli
