import EglUtil.CliParser

/-!
# `CliParser`: reading apart from writing

`parse` converts and writes while it scans. Here the two are taken apart.

**Reading** (`readTokens`) depends on names alone. It gives the *matches* that the tokens ask for,
in order, up to the first token or letter that cannot be read, and how reading ended there.

**Performing** (`execute`) takes one match after the other, converts its text and writes, up to
the first that fails.

**Theorem (`parse_eq_execute`).** `parse` performs what it reads: the same result, and the same
state.

**Theorem (`vars_parse`).** The assignments of a parse (`CliParser.writes`) do not depend on what
the variables hold, and carried out in order they give what the variables hold in the end.

**Theorem (`parse_afterCalls`).** `parse` has no memory of earlier calls.
-/

namespace EglUtil.Cli

variable {β κ : Type*} {V : κ → Type*}

/-! ## Reading -/

/-- What a token asks for, by the place of the option; `label` names it in an error. -/
inductive Match (β : Type*) {κ : Type*} (V : κ → Type*) where
  | flag (i : Nat) (bound : β)
  | value (i : Nat) (label : String) (target : κ) (convert : Token → Option (V target))
      (text : Token)
  | positional (text : Token)

/-- What follows a token: reading ends, goes on, or an option takes the next token. -/
inductive Next {κ : Type*} (V : κ → Type*) where
  | ended (result : ParseResult)
  | goesOn
  | awaits (i : Nat) (label : String) (target : κ) (convert : Token → Option (V target))

namespace CliParser

/-- `--name` or `--name=value`, the dashes removed. -/
def readLong (p : CliParser β V) (body : Token) : List (Match β V) × Next V :=
  let (name, inlineValue) := splitInline body
  match p.findLong name with
  | none =>
    ([], .ended (.failure .unknownOption ("unknown option '--" ++ String.ofList name ++ "'")))
  | some (option, i) =>
    let label := "--" ++ String.ofList option.longName
    match option.action with
    | .help => ([], .ended .help)
    | .flag bound =>
      match inlineValue with
      | some _ =>
        ([], .ended (.failure .unexpectedValue ("flag '" ++ label ++ "' takes no value")))
      | none => ([.flag i bound], .goesOn)
    | .value target convert =>
      match inlineValue with
      | some value => ([.value i label target convert value], .goesOn)
      | none => ([], .awaits i label target convert)

/-- The letters of a cluster. -/
def readShort (p : CliParser β V) : Token → List (Match β V) × Next V
  | [] => ([], .goesOn)
  | letter :: body =>
    let label := "-" ++ String.ofList [letter]
    match p.findShort letter with
    | none => ([], .ended (.failure .unknownOption ("unknown option '" ++ label ++ "'")))
    | some (option, i) =>
      match option.action with
      | .help => ([], .ended .help)
      | .flag bound => ((.flag i bound :: (p.readShort body).1), (p.readShort body).2)
      | .value target convert =>
        if body ≠ [] then ([.value i label target convert (dropEquals body)], .goesOn)
        else ([], .awaits i label target convert)

/-- A token that is met while options are processed, and is not the terminator. -/
def readToken (p : CliParser β V) (token : Token) : List (Match β V) × Next V :=
  if ['-', '-'] <+: token then p.readLong (token.drop 2)
  else if 2 ≤ token.length ∧ token.head? = some '-' then p.readShort (token.drop 1)
  else ([.positional token], .goesOn)

/-- The matches that the tokens ask for, and how reading ended if not with the last token. -/
def readTokens (p : CliParser β V) (optionsEnded : Bool) :
    List Token → List (Match β V) × Option ParseResult
  | [] => ([], none)
  | token :: rest =>
    if optionsEnded then
      (.positional token :: (readTokens p true rest).1, (readTokens p true rest).2)
    else if token = ['-', '-'] then readTokens p true rest
    else
      let r := p.readToken token
      match r.2 with
      | .ended result => (r.1, some result)
      | .goesOn => (r.1 ++ (readTokens p false rest).1, (readTokens p false rest).2)
      | .awaits i label target convert =>
        match rest with
        | [] => (r.1, some (.failure .missingValue ("option '" ++ label ++ "' requires a value")))
        | value :: rest =>
          (r.1 ++ .value i label target convert value :: (readTokens p false rest).1,
            (readTokens p false rest).2)

end CliParser

/-! ## Performing -/

section Performing

variable [DecidableEq β] [DecidableEq κ]

/-- A match; `k` positionals were given before. -/
def Match.perform (st : State β V) (k : Nat) : Match β V → ParseResult × State β V
  | .flag i bound => (.success, (st.setFlag bound).seeOption i)
  | .value i label target convert text =>
    let r := assignOption st i target convert label text false
    (r.result, r.state)
  | .positional text => consumePositional st text k

/-- The number of positionals given after this match, if it was `k`. -/
def Match.count (k : Nat) : Match β V → Nat
  | .positional _ => k + 1
  | .flag _ _ | .value _ _ _ _ _ => k

/-- One match after the other, and then how reading ended. -/
def execute (st : State β V) (k : Nat) :
    List (Match β V) → Option ParseResult → ParseResult × State β V
  | [], none => (checkRequired st.parser, st)
  | [], some result => (result, st)
  | m :: ms, ended =>
    if (m.perform st k).1 ≠ .success then m.perform st k
    else execute (m.perform st k).2 (m.count k) ms ended

end Performing

/-! ## Reading depends on names alone -/

namespace CliParser

theorem findLong_reset (p : CliParser β V) (name : Token) :
    p.reset.findLong name = (p.findLong name).map fun x => ({ x.1 with seen := false }, x.2) := by
  rw [findLong, findLong, reset, List.zipIdx_map, List.find?_map]
  rfl

theorem findShort_reset (p : CliParser β V) (name : Char) :
    p.reset.findShort name = (p.findShort name).map fun x => ({ x.1 with seen := false }, x.2) := by
  rw [findShort, findShort, reset, List.zipIdx_map, List.find?_map]
  rfl

theorem readLong_reset (p : CliParser β V) (body : Token) :
    p.reset.readLong body = p.readLong body := by
  simp only [readLong, findLong_reset]
  cases p.findLong (splitInline body).1 <;> rfl

theorem readShort_reset (p : CliParser β V) (body : Token) :
    p.reset.readShort body = p.readShort body := by
  induction body with
  | nil => rfl
  | cons letter body ih =>
    simp only [readShort, findShort_reset, ih]
    cases p.findShort letter <;> rfl

theorem readToken_reset (p : CliParser β V) (token : Token) :
    p.reset.readToken token = p.readToken token := by
  simp only [readToken, readLong_reset, readShort_reset]

/-- The token is empty, or `-`, or does not begin with a dash. -/
def Plain (token : Token) : Prop := token = [] ∨ token = ['-'] ∨ token.head? ≠ some '-'

theorem Plain.ne_terminator {token : Token} (h : Plain token) : token ≠ ['-', '-'] := by
  rintro rfl
  simp [Plain] at h

theorem readToken_long (p : CliParser β V) (body : Token) :
    p.readToken ('-' :: '-' :: body) = p.readLong body :=
  if_pos ⟨body, rfl⟩

theorem readToken_short (p : CliParser β V) {body : Token} (hbody : body ≠ [])
    (hdash : body.head? ≠ some '-') : p.readToken ('-' :: body) = p.readShort body := by
  obtain ⟨letter, body, rfl⟩ := List.exists_cons_of_ne_nil hbody
  have hletter : letter ≠ '-' := by simpa using hdash
  have hlong : ¬ ['-', '-'] <+: '-' :: letter :: body := by
    simp [List.cons_prefix_cons, hletter.symm]
  rw [readToken, if_neg hlong, if_pos ⟨by simp, rfl⟩]
  rfl

theorem readToken_plain (p : CliParser β V) {token : Token} (h : Plain token) :
    p.readToken token = ([.positional token], .goesOn) := by
  have hlong : ¬ ['-', '-'] <+: token := by
    rintro ⟨tail, rfl⟩
    simp [Plain] at h
  have hshort : ¬ (2 ≤ token.length ∧ token.head? = some '-') := by
    rintro ⟨hlength, hhead⟩
    rcases h with rfl | rfl | h
    · cases hhead
    · exact absurd hlength (by decide)
    · exact h hhead
  rw [readToken, if_neg hlong, if_neg hshort]

/-- What is read after a token. -/
def follow (p : CliParser β V) (r : List (Match β V) × Next V) (rest : List Token) :
    List (Match β V) × Option ParseResult :=
  match r.2 with
  | .ended result => (r.1, some result)
  | .goesOn => (r.1 ++ (p.readTokens false rest).1, (p.readTokens false rest).2)
  | .awaits i label target convert =>
    match rest with
    | [] => (r.1, some (.failure .missingValue ("option '" ++ label ++ "' requires a value")))
    | value :: rest =>
      (r.1 ++ .value i label target convert value :: (p.readTokens false rest).1,
        (p.readTokens false rest).2)

theorem follow_goesOn (p : CliParser β V) (ms : List (Match β V)) (rest : List Token) :
    p.follow (ms, .goesOn) rest =
      (ms ++ (p.readTokens false rest).1, (p.readTokens false rest).2) := rfl

theorem follow_awaits (p : CliParser β V) (ms : List (Match β V)) (i : Nat) (label : String)
    (target : κ) (convert : Token → Option (V target)) (value : Token) (rest : List Token) :
    p.follow (ms, .awaits i label target convert) (value :: rest) =
      (ms ++ .value i label target convert value :: (p.readTokens false rest).1,
        (p.readTokens false rest).2) := rfl

theorem readTokens_ended (p : CliParser β V) (token : Token) (rest : List Token) :
    p.readTokens true (token :: rest) =
      (.positional token :: (p.readTokens true rest).1, (p.readTokens true rest).2) := by
  simp only [readTokens, if_true]

theorem readTokens_terminator (p : CliParser β V) (rest : List Token) :
    p.readTokens false (['-', '-'] :: rest) = p.readTokens true rest := by
  simp only [readTokens, Bool.false_eq_true, if_false, if_true]

theorem readTokens_token (p : CliParser β V) {token : Token} (h : token ≠ ['-', '-'])
    (rest : List Token) :
    p.readTokens false (token :: rest) = p.follow (p.readToken token) rest := by
  rw [readTokens.eq_def]
  simp only [Bool.false_eq_true, if_false, if_neg h]
  rfl

theorem follow_congr {p q : CliParser β V} {rest : List Token}
    (h : p.readTokens false rest = q.readTokens false rest)
    (htail : p.readTokens false rest.tail = q.readTokens false rest.tail)
    (r : List (Match β V) × Next V) : p.follow r rest = q.follow r rest := by
  obtain ⟨ms, next⟩ := r
  cases next with
  | ended result => rfl
  | goesOn => simp only [follow, h]
  | awaits i label target convert =>
    cases rest with
    | nil => rfl
    | cons value rest =>
      rw [List.tail_cons] at htail
      simp only [follow, htail]

theorem follow_cons (p : CliParser β V) (m : Match β V) (r : List (Match β V) × Next V)
    (rest : List Token) :
    p.follow (m :: r.1, r.2) rest = (m :: (p.follow r rest).1, (p.follow r rest).2) := by
  obtain ⟨ms, next⟩ := r
  cases next with
  | ended result => rfl
  | goesOn => rfl
  | awaits i label target convert => cases rest <;> rfl

/-- Induction along a command line, where a token may take the next one. -/
theorem tokens_induction {motive : List Token → Prop} (nil : motive [])
    (cons : ∀ token rest, motive rest → motive rest.tail → motive (token :: rest))
    (args : List Token) : motive args := by
  have hboth : motive args ∧ motive args.tail := by
    induction args with
    | nil => exact ⟨nil, nil⟩
    | cons token rest ih => exact ⟨cons token rest ih.1 ih.2, ih.1⟩
  exact hboth.1

theorem readTokens_reset (p : CliParser β V) (optionsEnded : Bool) (args : List Token) :
    p.reset.readTokens optionsEnded args = p.readTokens optionsEnded args := by
  induction args using tokens_induction generalizing optionsEnded with
  | nil => rfl
  | cons token rest ih ihtail =>
    cases optionsEnded with
    | true => rw [readTokens_ended, readTokens_ended, ih]
    | false =>
      by_cases h : token = ['-', '-']
      · rw [h, readTokens_terminator, readTokens_terminator, ih]
      · rw [readTokens_token _ h, readTokens_token _ h, readToken_reset]
        exact follow_congr (ih false) (ihtail false) _

end CliParser

/-! ## The loop -/

/-- The tokens that are left after a step. -/
def Step.remaining (r : Step β V) (rest : List Token) : List Token :=
  if r.advanced then rest.tail else rest

section Loop

variable [DecidableEq β] [DecidableEq κ] {st : State β V}

/-- The loop after the parser of a token. -/
def continueWith (k : Nat) (rest : List Token) (r : Step β V) : ParseResult × State β V :=
  if r.result ≠ .success then (r.result, r.state)
  else parseTokens r.state k false (r.remaining rest)

theorem continueWith_eq (k : Nat) (rest : List Token) (r : Step β V) :
    (if r.result ≠ .success then (r.result, r.state)
      else
        match r.advanced, rest with
        | true, _ :: rest => parseTokens r.state k false rest
        | _, rest => parseTokens r.state k false rest) = continueWith k rest r := by
  obtain ⟨result, st', advanced⟩ := r
  unfold continueWith Step.remaining
  congr 1
  cases advanced <;> cases rest <;> rfl

theorem parseTokens_long (k : Nat) {body : Token} (hbody : body ≠ []) (rest : List Token) :
    parseTokens st k false (('-' :: '-' :: body) :: rest) =
      continueWith k rest (parseLong st body rest) := by
  have hne : ¬ ('-' :: '-' :: body) = ['-', '-'] := by simp [hbody]
  have hlong : ['-', '-'] <+: '-' :: '-' :: body := ⟨body, rfl⟩
  rw [parseTokens, if_neg (fun h => hne h.2), if_pos ⟨rfl, hlong⟩]
  exact continueWith_eq k rest (parseLong st body rest)

theorem parseTokens_short (k : Nat) {body : Token} (hbody : body ≠ [])
    (hdash : body.head? ≠ some '-') (rest : List Token) :
    parseTokens st k false (('-' :: body) :: rest) =
      continueWith k rest (parseShort st body rest) := by
  obtain ⟨letter, body, rfl⟩ := List.exists_cons_of_ne_nil hbody
  have hletter : letter ≠ '-' := by simpa using hdash
  have hlong : ¬ ['-', '-'] <+: '-' :: letter :: body := by
    simp [List.cons_prefix_cons, hletter.symm]
  have hne : ¬ ('-' :: letter :: body) = ['-', '-'] := by simp [hletter]
  rw [parseTokens, if_neg (fun h => hne h.2), if_neg (fun h => hlong h.2),
    if_pos ⟨rfl, by simp, rfl⟩]
  exact continueWith_eq k rest (parseShort st (letter :: body) rest)

theorem parseTokens_terminator (k : Nat) (rest : List Token) :
    parseTokens st k false (['-', '-'] :: rest) = parseTokens st k true rest := by
  rw [parseTokens, if_pos ⟨rfl, rfl⟩]

theorem parseTokens_positional (k : Nat) {optionsEnded : Bool} {token : Token}
    (htoken : optionsEnded = true ∨ token = [] ∨ token = ['-'] ∨ token.head? ≠ some '-')
    (rest : List Token) :
    parseTokens st k optionsEnded (token :: rest) =
      if (consumePositional st token k).1 ≠ .success then consumePositional st token k
      else parseTokens (consumePositional st token k).2 (k + 1) optionsEnded rest := by
  have hterm : ¬ (optionsEnded = false ∧ token = ['-', '-']) := by
    intro h
    obtain ⟨rfl, rfl⟩ := h
    simp at htoken
  have hlong : ¬ (optionsEnded = false ∧ ['-', '-'] <+: token) := by
    intro h
    obtain ⟨rfl, tail, rfl⟩ := h
    simp at htoken
  have hshort : ¬ (optionsEnded = false ∧ 2 ≤ token.length ∧ token.head? = some '-') := by
    intro h
    obtain ⟨rfl, hlength, hhead⟩ := h
    rcases htoken with h | rfl | rfl | h
    · cases h
    · cases hhead
    · exact absurd hlength (by decide)
    · exact h hhead
  rw [parseTokens, if_neg hterm, if_neg hlong, if_neg hshort]

/-- A token is the terminator, a long option, a cluster or a positional. -/
theorem token_cases (token : Token) :
    token = ['-', '-'] ∨ (∃ body, body ≠ [] ∧ token = '-' :: '-' :: body) ∨
    (∃ body, body ≠ [] ∧ body.head? ≠ some '-' ∧ token = '-' :: body) ∨
    (token = [] ∨ token = ['-'] ∨ token.head? ≠ some '-') := by
  by_cases hdash : token.head? = some '-'
  · obtain ⟨body, rfl⟩ := List.head?_eq_some_iff.1 hdash
    by_cases hlong : body.head? = some '-'
    · obtain ⟨name, rfl⟩ := List.head?_eq_some_iff.1 hlong
      by_cases hname : name = []
      · exact .inl (by rw [hname])
      · exact .inr (.inl ⟨name, hname, rfl⟩)
    · by_cases hbody : body = []
      · exact .inr (.inr (.inr (.inr (.inl (by rw [hbody])))))
      · exact .inr (.inr (.inl ⟨body, hbody, hlong, rfl⟩))
  · exact .inr (.inr (.inr (.inr (.inr hdash))))

end Loop

/-! ## Parsing is reading and performing -/

theorem reset_seeOption (st : State β V) (i : Nat) :
    (st.seeOption i).parser.reset = st.parser.reset := by
  have hoptions : (st.seeOption i).parser.options.map (fun o => { o with seen := false }) =
      st.parser.options.map fun o => { o with seen := false } := by
    refine List.ext_getElem? fun j => ?_
    simp only [State.seeOption, List.getElem?_map, List.getElem?_modify, Option.map_eq_map,
      Option.map_map]
    congr 1
    funext o
    by_cases hij : i = j <;> simp [hij]
  simp only [CliParser.reset, hoptions, State.seeOption_positionals]

theorem reset_seePositional (st : State β V) (k : Nat) :
    (st.seePositional k).parser.reset = st.parser.reset := by
  have hpositionals :
      (st.seePositional k).parser.positionals.map (fun q => { q with seen := false }) =
        st.parser.positionals.map fun q => { q with seen := false } := by
    refine List.ext_getElem? fun j => ?_
    simp only [State.seePositional, List.getElem?_map, List.getElem?_modify, Option.map_eq_map,
      Option.map_map]
    congr 1
    funext q
    by_cases hkj : k = j <;> simp [hkj]
  simp only [CliParser.reset, hpositionals, State.seePositional_options]

section Performing

variable [DecidableEq β] [DecidableEq κ]

/-- Performing changes what has been seen, and nothing else of the parser. -/
theorem reset_perform (st : State β V) (k : Nat) (m : Match β V) :
    (m.perform st k).2.parser.reset = st.parser.reset := by
  cases m with
  | flag i bound => exact reset_seeOption _ i
  | value i label target convert text =>
    simp only [Match.perform, assignOption]
    cases convert text with
    | none => rfl
    | some v => exact reset_seeOption _ i
  | positional text =>
    simp only [Match.perform, consumePositional]
    cases st.parser.positionals[k]? with
    | none => rfl
    | some q =>
      dsimp only
      cases q.convert text with
      | none => rfl
      | some v => exact reset_seePositional _ k

theorem execute_cons (st : State β V) (k : Nat) (m : Match β V) (ms : List (Match β V))
    (ended : Option ParseResult) :
    execute st k (m :: ms) ended =
      if (m.perform st k).1 ≠ .success then m.perform st k
      else execute (m.perform st k).2 (m.count k) ms ended := rfl

/-- The loop behind a token performs what it reads, from any state of this parser. -/
def Performs (p : CliParser β V) (optionsEnded : Bool) (rest : List Token) : Prop :=
  ∀ (st : State β V) (k : Nat), st.parser.reset = p.reset →
    parseTokens st k optionsEnded rest =
      execute st k (p.readTokens optionsEnded rest).1 (p.readTokens optionsEnded rest).2

variable {p : CliParser β V}

/-- **An option with its value.** -/
theorem continueWith_assignOption {st : State β V} (h : st.parser.reset = p.reset) (k i : Nat)
    (label : String) (target : κ) (convert : Token → Option (V target)) (value : Token)
    (advanced : Bool) {rest : List Token}
    (hrest : Performs p false (if advanced then rest.tail else rest)) :
    continueWith k rest (assignOption st i target convert label value advanced) =
      execute st k (.value i label target convert value ::
        (p.readTokens false (if advanced then rest.tail else rest)).1)
        (p.readTokens false (if advanced then rest.tail else rest)).2 := by
  have hperform : ∀ b : Bool, (assignOption st i target convert label value b).result =
      ((Match.value i label target convert value).perform st k).1 ∧
      (assignOption st i target convert label value b).state =
        ((Match.value i label target convert value).perform st k).2 ∧
      (assignOption st i target convert label value b).advanced = b := by
    intro b
    simp only [Match.perform, assignOption]
    cases convert value <;> exact ⟨rfl, rfl, rfl⟩
  obtain ⟨hresult, hstate, hadvanced⟩ := hperform advanced
  rw [continueWith, execute_cons, Step.remaining, hresult, hstate, hadvanced]
  congr 1
  exact hrest _ _ ((reset_perform st k _).trans h)

theorem continueWith_failure (code : CliError) (message : String) (st : State β V) (k : Nat)
    (rest : List Token) (advanced : Bool) :
    continueWith k rest ⟨.failure code message, st, advanced⟩ =
      execute st k [] (some (.failure code message)) :=
  if_pos nofun

theorem continueWith_help (st : State β V) (k : Nat) (rest : List Token) (advanced : Bool) :
    continueWith k rest ⟨.help, st, advanced⟩ = execute st k [] (some .help) :=
  if_pos nofun

theorem continueWith_parseLong {st : State β V} (h : st.parser.reset = p.reset) (k : Nat)
    (body : Token) {rest : List Token} (hrest : Performs p false rest)
    (htail : Performs p false rest.tail) :
    continueWith k rest (parseLong st body rest) =
      execute st k (p.follow (p.readLong body) rest).1 (p.follow (p.readLong body) rest).2 := by
  rw [← p.readLong_reset, ← h, st.parser.readLong_reset, parseLong, CliParser.readLong]
  generalize splitInline body = split
  obtain ⟨name, inlineValue⟩ := split
  dsimp only
  cases st.parser.findLong name with
  | none => exact continueWith_failure ..
  | some found =>
    obtain ⟨o, i⟩ := found
    dsimp only
    cases o.action with
    | help => exact continueWith_help ..
    | flag bound =>
      cases inlineValue with
      | some text => exact continueWith_failure ..
      | none => exact hrest _ k ((reset_seeOption _ i).trans h)
    | value target convert =>
      cases inlineValue with
      | some text => exact continueWith_assignOption h k i _ target convert text false hrest
      | none =>
        cases rest with
        | nil => exact continueWith_failure ..
        | cons value rest => exact continueWith_assignOption h k i _ target convert value true htail

theorem continueWith_parseShort {st : State β V} (h : st.parser.reset = p.reset) (k : Nat)
    (body : Token) {rest : List Token} (hrest : Performs p false rest)
    (htail : Performs p false rest.tail) :
    continueWith k rest (parseShort st body rest) =
      execute st k (p.follow (p.readShort body) rest).1 (p.follow (p.readShort body) rest).2 := by
  induction body generalizing st with
  | nil => exact hrest st k h
  | cons letter body ih =>
    have hread := p.readShort_reset (letter :: body)
    rw [← h, st.parser.readShort_reset] at hread
    rw [← hread, parseShort, CliParser.readShort]
    cases st.parser.findShort letter with
    | none => exact continueWith_failure ..
    | some found =>
      obtain ⟨o, i⟩ := found
      dsimp only
      cases o.action with
      | help => exact continueWith_help ..
      | flag bound =>
        have hst := (reset_seeOption (st.setFlag bound) i).trans h
        have hbody : st.parser.readShort body = p.readShort body := by
          rw [← st.parser.readShort_reset, h, p.readShort_reset]
        rw [hbody, CliParser.follow_cons]
        exact (ih hst).trans (if_neg (not_not_intro rfl)).symm
      | value target convert =>
        dsimp only
        split_ifs with hbody
        · exact continueWith_assignOption h k i _ target convert _ false hrest
        · cases rest with
          | nil => exact continueWith_failure ..
          | cons value rest =>
            exact continueWith_assignOption h k i _ target convert value true htail

/-- **Every loop performs what it reads.** -/
theorem performs (p : CliParser β V) (optionsEnded : Bool) (args : List Token) :
    Performs p optionsEnded args := by
  induction args using CliParser.tokens_induction generalizing optionsEnded with
  | nil =>
    intro st k h
    rfl
  | cons token rest ih ihtail =>
    intro st k h
    have hpositional : ∀ optionsEnded, (optionsEnded = true ∨ token = [] ∨ token = ['-'] ∨
        token.head? ≠ some '-') → parseTokens st k optionsEnded (token :: rest) =
          execute st k (.positional token :: (p.readTokens optionsEnded rest).1)
            (p.readTokens optionsEnded rest).2 := by
      intro optionsEnded htoken
      have hst := (reset_perform st k (.positional token)).trans h
      rw [parseTokens_positional k htoken, execute_cons]
      congr 1
      exact ih optionsEnded _ _ hst
    cases optionsEnded with
    | true =>
      rw [CliParser.readTokens_ended]
      exact hpositional true (.inl rfl)
    | false =>
      rcases token_cases token with rfl | ⟨body, hbody, rfl⟩ | ⟨body, hbody, hdash, rfl⟩ | htoken
      · rw [parseTokens_terminator, CliParser.readTokens_terminator]
        exact ih true st k h
      · rw [parseTokens_long k hbody, p.readTokens_token (by simp [hbody]), p.readToken_long]
        exact continueWith_parseLong h k body (ih false) (ihtail false)
      · have hne : '-' :: body ≠ ['-', '-'] := by
          rintro heq
          simp [(List.cons.inj heq).2] at hdash
        rw [parseTokens_short k hbody hdash, p.readTokens_token hne,
          p.readToken_short hbody hdash]
        exact continueWith_parseShort h k body (ih false) (ihtail false)
      · have hplain : CliParser.Plain token := htoken
        rw [p.readTokens_token hplain.ne_terminator, p.readToken_plain hplain]
        exact hpositional false (.inr htoken)

/-- **`parse` performs what it reads**, whatever was seen before. -/
theorem parse_eq_execute (p : CliParser β V) (args : List Token) (vars : Variables β V) :
    p.parse args vars =
      execute ⟨p.reset, vars⟩ 0 (p.readTokens false args).1 (p.readTokens false args).2 :=
  performs p false args ⟨p.reset, vars⟩ 0 (by simp [CliParser.reset])

/-! ## Assignments -/

end Performing

/-- An assignment to a variable. -/
inductive Write (β : Type*) {κ : Type*} (V : κ → Type*) where
  | flag (bound : β)
  | value (target : κ) (value : V target)

/-- What a match assigns; `k` positionals were given before. -/
def Match.write? (p : CliParser β V) (k : Nat) : Match β V → Option (Write β V)
  | .flag _ bound => some (.flag bound)
  | .value _ _ target convert text => (convert text).map (.value target)
  | .positional text => p.positionals[k]?.bind fun q => (q.convert text).map (.value q.target)

/-- The assignments of the matches, up to the first that fails. -/
def CliParser.assignments (p : CliParser β V) (k : Nat) : List (Match β V) → List (Write β V)
  | [] => []
  | m :: ms =>
    match m.write? p k with
    | none => []
    | some w => w :: p.assignments (m.count k) ms

/-- The assignments that a parse makes, in order. -/
def CliParser.writes (p : CliParser β V) (args : List Token) : List (Write β V) :=
  p.assignments 0 (p.readTokens false args).1

theorem write?_reset (p : CliParser β V) (k : Nat) (m : Match β V) :
    m.write? p.reset k = m.write? p k := by
  cases m with
  | flag i bound => rfl
  | value i label target convert text => rfl
  | positional text =>
    simp only [Match.write?, CliParser.reset, List.getElem?_map]
    cases p.positionals[k]? <;> rfl

theorem assignments_reset (p : CliParser β V) (k : Nat) (ms : List (Match β V)) :
    p.reset.assignments k ms = p.assignments k ms := by
  induction ms generalizing k with
  | nil => rfl
  | cons m ms ih => simp only [CliParser.assignments, write?_reset, ih]

theorem writes_reset (p : CliParser β V) (args : List Token) :
    p.reset.writes args = p.writes args := by
  rw [CliParser.writes, CliParser.writes, p.readTokens_reset, assignments_reset]

variable [DecidableEq β] [DecidableEq κ]

def Write.apply (vars : Variables β V) : Write β V → Variables β V
  | .flag bound => { vars with flag := Function.update vars.flag bound true }
  | .value target v => { vars with value := Function.update vars.value target v }

@[simp] theorem Write.apply_flag_flag (vars : Variables β V) (bound : β) :
    ((Write.flag bound).apply vars).flag = Function.update vars.flag bound true := rfl

@[simp] theorem Write.apply_flag_value (vars : Variables β V) (bound : β) :
    ((Write.flag bound).apply vars).value = vars.value := rfl

@[simp] theorem Write.apply_value_flag (vars : Variables β V) (target : κ) (v : V target) :
    ((Write.value target v).apply vars).flag = vars.flag := rfl

@[simp] theorem Write.apply_value_value (vars : Variables β V) (target : κ) (v : V target) :
    ((Write.value target v).apply vars).value = Function.update vars.value target v := rfl

/-- A match makes its assignment, or fails and changes nothing. -/
theorem perform_cases (st : State β V) (k : Nat) (m : Match β V) :
    (∃ w, m.write? st.parser k = some w ∧ (m.perform st k).1 = .success ∧
      (m.perform st k).2.vars = w.apply st.vars) ∨
    (m.write? st.parser k = none ∧ (m.perform st k).1 ≠ .success ∧ (m.perform st k).2 = st) := by
  cases m with
  | flag i bound => exact .inl ⟨_, rfl, rfl, rfl⟩
  | value i label target convert text =>
    simp only [Match.write?, Match.perform, assignOption]
    cases convert text with
    | none => exact .inr ⟨rfl, nofun, rfl⟩
    | some v => exact .inl ⟨_, rfl, rfl, rfl⟩
  | positional text =>
    simp only [Match.write?, Match.perform, consumePositional]
    cases st.parser.positionals[k]? with
    | none => exact .inr ⟨rfl, nofun, rfl⟩
    | some q =>
      dsimp only [Option.bind_some]
      cases q.convert text with
      | none => exact .inr ⟨rfl, nofun, rfl⟩
      | some v => exact .inl ⟨_, rfl, rfl, rfl⟩

theorem reset_execute (st : State β V) (k : Nat) (ms : List (Match β V))
    (ended : Option ParseResult) : (execute st k ms ended).2.parser.reset = st.parser.reset := by
  induction ms generalizing st k with
  | nil => cases ended <;> rfl
  | cons m ms ih =>
    rw [execute_cons]
    split_ifs
    · exact reset_perform st k m
    · exact (ih _ _).trans (reset_perform st k m)

theorem vars_execute (st : State β V) (k : Nat) (ms : List (Match β V))
    (ended : Option ParseResult) :
    (execute st k ms ended).2.vars = (st.parser.assignments k ms).foldl Write.apply st.vars := by
  induction ms generalizing st k with
  | nil => cases ended <;> rfl
  | cons m ms ih =>
    rw [execute_cons, CliParser.assignments]
    rcases perform_cases st k m with ⟨w, hw, hok, hvars⟩ | ⟨hnone, hfailed, hstate⟩
    · have hsame : (m.perform st k).2.parser.assignments (m.count k) ms =
          st.parser.assignments (m.count k) ms := by
        rw [← assignments_reset, reset_perform, assignments_reset]
      rw [if_neg (not_not_intro hok), ih, hw, hvars, hsame]
      rfl
    · rw [if_pos hfailed, hnone, hstate]
      rfl

/-- **The variables are what the assignments make of them.** -/
theorem vars_parse (p : CliParser β V) (args : List Token) (vars : Variables β V) :
    (p.parse args vars).2.vars = (p.writes args).foldl Write.apply vars := by
  rw [parse_eq_execute, vars_execute, assignments_reset]
  rfl

/-! ## No memory -/

/-- A parse leaves the registrations as they are. -/
theorem reset_parse (p : CliParser β V) (args : List Token) (vars : Variables β V) :
    (p.parse args vars).2.parser.reset = p.reset := by
  rw [parse_eq_execute, reset_execute]
  simp [CliParser.reset]

/-- The parser after earlier calls of `parse`. -/
def CliParser.afterCalls (p : CliParser β V) (calls : List (List Token × Variables β V)) :
    CliParser β V :=
  calls.foldl (fun q call => (q.parse call.1 call.2).2.parser) p

theorem reset_afterCalls (p : CliParser β V) (calls : List (List Token × Variables β V)) :
    (p.afterCalls calls).reset = p.reset := by
  induction calls generalizing p with
  | nil => rfl
  | cons call calls ih => exact (ih _).trans (reset_parse p call.1 call.2)

/-- **`parse` has no memory.** After any earlier calls the loop starts from the same parser, returns
what it returns at the first call, and makes the same assignments in the same order. -/
theorem parse_afterCalls (p : CliParser β V) (calls : List (List Token × Variables β V))
    (args : List Token) (vars : Variables β V) :
    (p.afterCalls calls).reset = p.reset ∧
      (p.afterCalls calls).parse args vars = p.parse args vars ∧
      (p.afterCalls calls).writes args = p.writes args ∧
      (p.parse args vars).2.vars = (p.writes args).foldl Write.apply vars := by
  have hreset := reset_afterCalls p calls
  refine ⟨hreset, ?_, ?_, vars_parse p args vars⟩
  · rw [CliParser.parse, CliParser.parse, hreset]
  · rw [← writes_reset, hreset, writes_reset]

end EglUtil.Cli
