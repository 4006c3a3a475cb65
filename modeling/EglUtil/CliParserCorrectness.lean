import EglUtil.CliParserEffects

/-!
# `CliParser`: it accepts its grammar

**Theorem (`parse_success_iff`).** `parse` succeeds exactly if the command line can be read, every
text can be converted, there is a positional registered for each one given, and what is required
is there. Then every variable holds what the pieces say.

When a parse of whole units succeeds is known (`ReadsAll.parse_success`). What is left is that the
units the parser reads are those of the grammar (`reads_iff`). Each part of the grammar has two
lemmas, one for each direction: what is read is in the grammar (`_sound`), and what is in the
grammar is read (`_complete`).
-/

namespace EglUtil.Cli

variable {β κ : Type*} {V : κ → Type*} {p : CliParser β V}

/-! ## Clusters -/

/-- The token that is taken after a token, and what it says. -/
inductive Takes : Next V → List Token → List Piece → Prop where
  | nothing : Takes .goesOn [] []
  | value {i : Nat} {label : String} {target : κ} {convert : Token → Option (V target)}
      {value : Token} : Takes (.awaits i label target convert) [value] [.value i value]

/-- The rest of a cluster is the value of its last option, with or without a `=`. -/
theorem cluster_value {i : Nat} {o : OptionSpec β V} {target : κ}
    {convert : Token → Option (V target)} {body : Token} (ho : p.options[i]? = some o)
    (hname : o.shortName ≠ '\x00') (haction : o.action = .value target convert)
    (hbody : body ≠ []) : Cluster p (o.shortName :: body) [] [.value i (dropEquals body)] := by
  unfold dropEquals
  split
  · exact .joined ho hname haction
  · next hequals =>
    refine .attached ho hname haction hbody ?_
    intro hhead
    obtain ⟨tail, rfl⟩ := List.head?_eq_some_iff.1 hhead
    exact hequals tail rfl

/-- **A cluster, soundness.** -/
theorem cluster_sound {body : Token} {ms : List (Match β V)} {next : Next V} {used : List Token}
    {pieces : List Piece} (hread : p.readShort body = (ms, next)) (h : Takes next used pieces) :
    Cluster p body used (ms.map Match.piece ++ pieces) := by
  induction body generalizing ms with
  | nil =>
    cases hread
    cases h
    exact .nil
  | cons letter body ih =>
    rw [CliParser.readShort] at hread
    cases hfind : p.findShort letter with
    | none =>
      rw [hfind] at hread
      cases hread
      cases h
    | some found =>
      obtain ⟨o, i⟩ := found
      obtain ⟨ho, hname, rfl⟩ := of_findShort hfind
      rw [hfind] at hread
      dsimp only at hread
      cases haction : o.action with
      | help =>
        rw [haction] at hread
        cases hread
        cases h
      | flag bound =>
        rw [haction] at hread
        cases hread
        exact .flag ho hname haction (ih rfl)
      | value target convert =>
        rw [haction] at hread
        dsimp only at hread
        split_ifs at hread with hbody
        · cases hread
          cases h
          exact cluster_value ho hname haction hbody
        · obtain rfl : body = [] := not_not.1 hbody
          cases hread
          cases h
          exact .separate ho hname haction

/-- **A cluster, completeness.** -/
theorem cluster_complete (hp : UniqueNames p) {body : Token} {used : List Token}
    {pieces : List Piece} (h : Cluster p body used pieces) :
    ∃ ms next extra, p.readShort body = (ms, next) ∧ Takes next used extra ∧
      ms.map Match.piece ++ extra = pieces := by
  induction h with
  | nil => exact ⟨[], .goesOn, [], rfl, .nothing, rfl⟩
  | @flag i o bound body used pieces ho hname haction hrest ih =>
    obtain ⟨ms, next, extra, hread, htakes, hpieces⟩ := ih
    refine ⟨.flag i bound :: ms, next, extra, ?_, htakes, by rw [← hpieces]; rfl⟩
    rw [CliParser.readShort, hp.findShort_iff.2 ⟨ho, hname, rfl⟩]
    simp only [haction, hread]
  | @attached i o target convert text ho hname haction htext hequals =>
    refine ⟨_, _, [], readShort_value hp ho hname haction htext, .nothing, ?_⟩
    rw [dropEquals_of_head_ne hequals]
    rfl
  | @joined i o target convert text ho hname haction =>
    exact ⟨_, _, [], readShort_value hp ho hname haction (List.cons_ne_nil '=' text), .nothing, rfl⟩
  | @separate i o target convert text ho hname haction =>
    have hread := readShort_name hp ho hname
    rw [OptionSpec.alone, haction] at hread
    exact ⟨_, _, [.value i text], hread, .value, rfl⟩

/-- A cluster does not look like a long option. -/
theorem Cluster.head_ne (hplain : PlainNames p) {body : Token} {used : List Token}
    {pieces : List Piece} (h : Cluster p body used pieces) : body.head? ≠ some '-' := by
  have hdash : ∀ {i : Nat} {o : OptionSpec β V}, p.options[i]? = some o →
      some o.shortName ≠ some '-' := by
    intro i o ho hsame
    exact (hplain o (List.mem_of_getElem? ho)).2 (Option.some.inj hsame)
  cases h with
  | nil => exact nofun
  | flag ho => exact hdash ho
  | attached ho => exact hdash ho
  | joined ho => exact hdash ho
  | separate ho => exact hdash ho

/-! ## Units -/

/-- **A long option, soundness.** -/
theorem long_sound {body : Token} {ms : List (Match β V)} {next : Next V} {used : List Token}
    {pieces : List Piece} (hread : p.readLong body = (ms, next)) (h : Takes next used pieces) :
    ArgUnit p (('-' :: '-' :: body) :: used) (ms.map Match.piece ++ pieces) := by
  unfold CliParser.readLong at hread
  cases hsplit : splitInline body with
  | mk name inlineValue =>
  obtain rfl := splitInline_eq hsplit
  rw [hsplit] at hread
  dsimp only at hread
  cases hfind : p.findLong name with
  | none =>
    rw [hfind] at hread
    cases hread
    cases h
  | some found =>
    obtain ⟨o, i⟩ := found
    obtain ⟨ho, hname, rfl⟩ := of_findLong hfind
    rw [hfind] at hread
    dsimp only at hread
    cases haction : o.action with
    | help =>
      rw [haction] at hread
      cases hread
      cases h
    | flag bound =>
      rw [haction] at hread
      cases inlineValue with
      | some text =>
        cases hread
        cases h
      | none =>
        cases hread
        cases h
        simpa [Match.piece] using ArgUnit.flag ho hname haction
    | value target convert =>
      rw [haction] at hread
      cases inlineValue with
      | some text =>
        cases hread
        cases h
        exact .joined ho hname haction
      | none =>
        cases hread
        cases h
        simpa using ArgUnit.separate ho hname haction

/-- **A token, soundness.** -/
theorem token_sound {token : Token} (hne : token ≠ ['-', '-']) {ms : List (Match β V)}
    {next : Next V} {used : List Token} {pieces : List Piece}
    (hread : p.readToken token = (ms, next)) (h : Takes next used pieces) :
    ArgUnit p (token :: used) (ms.map Match.piece ++ pieces) := by
  rcases token_cases token with rfl | ⟨body, hbody, rfl⟩ | ⟨body, hbody, hdash, rfl⟩ | hplain
  · exact absurd rfl hne
  · rw [p.readToken_long] at hread
    exact long_sound hread h
  · rw [p.readToken_short hbody hdash] at hread
    exact .cluster hbody (cluster_sound hread h)
  · rw [p.readToken_plain hplain] at hread
    cases hread
    cases h
    exact .positional hplain

/-- **A unit, soundness.** -/
theorem ReadsUnit.sound {tokens : List Token} {ms : List (Match β V)}
    (h : ReadsUnit p false tokens ms) : ArgUnit p tokens (ms.map Match.piece) := by
  cases h with
  | token hne hread =>
    have hunit := token_sound hne hread .nothing
    rwa [List.append_nil] at hunit
  | withValue hne hread =>
    rw [List.map_append]
    exact token_sound hne hread .value

theorem ReadsUnit.of_takes {token : Token} (hne : token ≠ ['-', '-']) {ms : List (Match β V)}
    {next : Next V} {used : List Token} {pieces : List Piece}
    (hread : p.readToken token = (ms, next)) (h : Takes next used pieces) :
    ∃ ms', ReadsUnit p false (token :: used) ms' ∧
      ms'.map Match.piece = ms.map Match.piece ++ pieces := by
  cases h with
  | nothing => exact ⟨ms, .token hne hread, (List.append_nil _).symm⟩
  | value => exact ⟨_, .withValue hne hread, List.map_append⟩

/-- **A unit, completeness.** -/
theorem ArgUnit.complete (hp : UniqueNames p) (hplain : PlainNames p) {tokens : List Token}
    {pieces : List Piece} (h : ArgUnit p tokens pieces) :
    ∃ ms, ReadsUnit p false tokens ms ∧ ms.map Match.piece = pieces := by
  cases h with
  | @flag i o bound ho hname haction =>
    have hread := readLong_name hp ho hname (hplain o (List.mem_of_getElem? ho)).1
    rw [OptionSpec.alone, haction, ← p.readToken_long] at hread
    exact ReadsUnit.of_takes (by simp [hname]) hread .nothing
  | @joined i o target convert text ho hname haction =>
    have hread := readLong_joined hp ho hname (hplain o (List.mem_of_getElem? ho)).1 haction text
    rw [← p.readToken_long] at hread
    exact ReadsUnit.of_takes (by simp) hread .nothing
  | @separate i o target convert text ho hname haction =>
    have hread := readLong_name hp ho hname (hplain o (List.mem_of_getElem? ho)).1
    rw [OptionSpec.alone, haction, ← p.readToken_long] at hread
    exact ReadsUnit.of_takes (by simp [hname]) hread .value
  | @cluster body used _ hne hcluster =>
    have hdash := hcluster.head_ne hplain
    obtain ⟨ms, next, extra, hread, htakes, rfl⟩ := cluster_complete hp hcluster
    refine ReadsUnit.of_takes ?_ ((p.readToken_short hne hdash).trans hread) htakes
    rintro heq
    simp [(List.cons.inj heq).2] at hdash
  | @positional token htoken =>
    have hplain : CliParser.Plain token := htoken
    exact ReadsUnit.of_takes hplain.ne_terminator (p.readToken_plain hplain) .nothing

/-! ## Command lines -/

/-- **The units that are read are those of the grammar.** -/
theorem reads_iff (hp : UniqueNames p) (hplain : PlainNames p) {optionsEnded : Bool}
    {args : List Token} {bs : List Piece} :
    Reads p optionsEnded args bs ↔
      ∃ ms ended, ReadsAll p optionsEnded args ms ended ∧ ms.map Match.piece = bs := by
  constructor
  · intro h
    induction h with
    | done => exact ⟨[], _, .done, rfl⟩
    | unit hunit hrest ih =>
      obtain ⟨ms, hread, rfl⟩ := hunit.complete hp hplain
      obtain ⟨ms', ended, hall, rfl⟩ := ih
      exact ⟨ms ++ ms', ended, .unit hread hall, List.map_append⟩
    | terminator hrest ih =>
      obtain ⟨ms, ended, hall, rfl⟩ := ih
      exact ⟨ms, ended, .terminator hall, rfl⟩
    | @positional token rest bs hrest ih =>
      obtain ⟨ms, ended, hall, rfl⟩ := ih
      exact ⟨.positional token :: ms, ended, .unit .argument hall, rfl⟩
  · intro h
    obtain ⟨ms, ended, hall, rfl⟩ := h
    induction hall with
    | done => exact .done
    | @unit optionsEnded ended tokens rest ms ms' hunit hrest ih =>
      rw [List.map_append]
      cases optionsEnded with
      | true =>
        cases hunit with
        | argument => exact .positional ih
      | false => exact .unit hunit.sound ih
    | terminator hrest ih => exact .terminator ih

/-- **`parse` accepts its grammar.** It succeeds exactly if the arguments can be read, every text
can be converted, every positional was registered, and what is required is there; the variables
then hold what was read. -/
theorem parse_success_iff [DecidableEq β] [DecidableEq κ] {p : CliParser β V} (hp : Registered p)
    (hplain : PlainNames p) (hown : OwnVariables p) (args : List Token) (vars : Variables β V) :
    ((p.parse args vars).1 = .success ↔
      ∃ bs, Reads p false args bs ∧ Converts p bs ∧ Required p bs) ∧
    ∀ bs, Reads p false args bs → Converts p bs → Required p bs →
      Bound p vars (p.parse args vars).2.vars bs := by
  have hreads : ∀ {bs}, Reads p false args bs ↔
      ∃ ms ended, ReadsAll p false args ms ended ∧ ms.map Match.piece = bs :=
    reads_iff hp.uniqueNames hplain
  refine ⟨⟨?_, ?_⟩, ?_⟩
  · intro hok
    obtain ⟨ms, ended, hall⟩ := readsAll_of_success hok
    exact ⟨_, hreads.2 ⟨ms, ended, hall, rfl⟩, (hall.parse_success hown vars).1.1 hok⟩
  · intro hread
    obtain ⟨bs, hbs, hconv, hrequired⟩ := hread
    obtain ⟨ms, ended, hall, rfl⟩ := hreads.1 hbs
    exact (hall.parse_success hown vars).1.2 ⟨hconv, hrequired⟩
  · intro bs hbs hconv hrequired
    obtain ⟨ms, ended, hall, rfl⟩ := hreads.1 hbs
    obtain ⟨hiff, hbound⟩ := hall.parse_success hown vars
    exact hbound (hiff.2 ⟨hconv, hrequired⟩)

/-- What `-vc=12 -- --` says: a cluster, the terminator, and a positional that looks like one. -/
def copyPieces : List Piece := [.flag 1, .value 2 "12".toList, .positional "--".toList]

theorem reads_copyPieces :
    Reads copyParser false ["-vc=12".toList, "--".toList, "--".toList] copyPieces := by
  have hflag : copyParser.options[1]? =
      some ⟨"verbose".toList, 'v', false, false, .flag ()⟩ := rfl
  have hoption : copyParser.options[2]? =
      some ⟨"count".toList, 'c', true, false, .value false (cliParseInteger (-128) 127)⟩ := rfl
  have hcluster : Cluster copyParser "vc=12".toList [] [.flag 1, .value 2 "12".toList] :=
    .flag hflag (by decide) rfl (.joined hoption (by decide) rfl)
  exact .unit (.cluster (by decide) hcluster) (.terminator (.positional .done))

theorem converts_copyPieces : Converts copyParser copyPieces := by
  refine ⟨?_, by decide, ?_⟩
  · intro i text hmem o target convert ho haction
    obtain ⟨rfl, rfl⟩ : i = 2 ∧ text = "12".toList := by simpa [copyPieces] using hmem
    cases ho
    cases haction
    decide
  · intro k q text hq _
    obtain ⟨-, rfl⟩ := positional_copyParser hq
    cases hq
    rfl

theorem required_copyPieces : Required copyParser copyPieces := by
  refine ⟨?_, ?_⟩
  · intro i o ho hrequired
    rcases i with _ | _ | _ | i
    · cases ho
      cases hrequired
    · cases ho
      cases hrequired
    · decide
    · cases ho
  · intro k q hq _
    obtain ⟨-, rfl⟩ := positional_copyParser hq
    decide

theorem parse_success_iff_copyParser :
    ∃ st, copyParser.parse ["-vc=12".toList, "--".toList, "--".toList] copyVars = (.success, st) ∧
      st.vars.flag () = true ∧ st.vars.value false = (12 : Int) ∧
      st.vars.value true = "--".toList := by
  obtain ⟨hiff, hbound⟩ := parse_success_iff registered_copyParser plainNames_copyParser
    ownVariables_copyParser ["-vc=12".toList, "--".toList, "--".toList] copyVars
  have hvars := hbound copyPieces reads_copyPieces converts_copyPieces required_copyPieces
  have hok := hiff.2 ⟨copyPieces, reads_copyPieces, converts_copyPieces, required_copyPieces⟩
  refine ⟨_, Prod.ext hok rfl, hvars.flags 1 _ () rfl rfl, ?_, ?_⟩
  · have hcount : cliParseInteger (-128) 127 "12".toList = some _ :=
      hvars.options 2 _ false _ rfl rfl
    exact Option.some.inj (hcount.symm.trans (by decide))
  · have hinput : cliParseString "--".toList = some _ := hvars.positionals 0 _ rfl
    exact (Option.some.inj hinput).symm

end EglUtil.Cli
