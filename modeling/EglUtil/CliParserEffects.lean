import EglUtil.CliParserTracking

/-!
# `CliParser`: the effects of a command line

Reading a command line is followed unit by unit to the token at which it stops (`ReadsAll`,
`Stops`), and performing what was read to the first match that fails (`Tracks.execute`).

**Theorem (`ReadsAll.parse_success`).** A parse of whole units succeeds exactly if every text can be
converted and what is required is there, and then the variables hold what the pieces say.

**Theorem (`parse_unsuccessful`).** A parse that does not succeed has performed the matches before
the token, or the letter, at which it ends, and nothing else.
-/

namespace EglUtil.Cli

variable {β κ : Type*} {V : κ → Type*}

/-! ## Reading unit by unit -/

/-- A token, or an option and the token it takes, and what it asks for. -/
inductive ReadsUnit (p : CliParser β V) : Bool → List Token → List (Match β V) → Prop where
  | argument {token : Token} : ReadsUnit p true [token] [.positional token]
  | token {token : Token} {ms : List (Match β V)} (hne : token ≠ ['-', '-'])
      (hread : p.readToken token = (ms, .goesOn)) : ReadsUnit p false [token] ms
  | withValue {token value : Token} {ms : List (Match β V)} {i : Nat} {label : String}
      {target : κ} {convert : Token → Option (V target)} (hne : token ≠ ['-', '-'])
      (hread : p.readToken token = (ms, .awaits i label target convert)) :
      ReadsUnit p false [token, value] (ms ++ [.value i label target convert value])

/-- Whole units, and the terminator perhaps; the last `Bool` tells if it was among them. -/
inductive ReadsAll (p : CliParser β V) : Bool → List Token → List (Match β V) → Bool → Prop where
  | done {optionsEnded : Bool} : ReadsAll p optionsEnded [] [] optionsEnded
  | unit {optionsEnded ended : Bool} {tokens rest : List Token} {ms ms' : List (Match β V)}
      (hunit : ReadsUnit p optionsEnded tokens ms)
      (hrest : ReadsAll p optionsEnded rest ms' ended) :
      ReadsAll p optionsEnded (tokens ++ rest) (ms ++ ms') ended
  | terminator {ended : Bool} {rest : List Token} {ms : List (Match β V)}
      (hrest : ReadsAll p true rest ms ended) : ReadsAll p false (['-', '-'] :: rest) ms ended

/-- Reading ends at the last of the tokens `read`, with what it asked for until then. -/
inductive Stops (p : CliParser β V) (optionsEnded : Bool) (args : List Token) :
    List Token → List (Match β V) → ParseResult → Prop where
  | ended {before after : List Token} {token : Token} {ms letters : List (Match β V)}
      {result : ParseResult} (hargs : args = before ++ token :: after)
      (hbefore : ReadsAll p optionsEnded before ms false) (hne : token ≠ ['-', '-'])
      (hread : p.readToken token = (letters, .ended result)) :
      Stops p optionsEnded args (before ++ [token]) (ms ++ letters) result
  | missingValue {before : List Token} {token : Token} {ms letters : List (Match β V)} {i : Nat}
      {label : String} {target : κ} {convert : Token → Option (V target)}
      (hargs : args = before ++ [token]) (hbefore : ReadsAll p optionsEnded before ms false)
      (hne : token ≠ ['-', '-'])
      (hread : p.readToken token = (letters, .awaits i label target convert)) :
      Stops p optionsEnded args args (ms ++ letters)
        (.failure .missingValue ("option '" ++ label ++ "' requires a value"))

theorem ReadsUnit.readTokens_append {p : CliParser β V} {optionsEnded : Bool} {tokens : List Token}
    {ms : List (Match β V)} (h : ReadsUnit p optionsEnded tokens ms) (rest : List Token) :
    p.readTokens optionsEnded (tokens ++ rest) =
      (ms ++ (p.readTokens optionsEnded rest).1, (p.readTokens optionsEnded rest).2) := by
  cases h with
  | argument => exact p.readTokens_ended _ rest
  | token hne hread =>
    rw [List.singleton_append, p.readTokens_token hne, hread, CliParser.follow_goesOn]
  | withValue hne hread =>
    rw [List.cons_append, p.readTokens_token hne, hread, List.singleton_append,
      CliParser.follow_awaits, List.append_assoc, List.singleton_append]

theorem ReadsAll.readTokens_append {p : CliParser β V} {optionsEnded ended : Bool}
    {tokens : List Token} {ms : List (Match β V)} (h : ReadsAll p optionsEnded tokens ms ended)
    (rest : List Token) :
    p.readTokens optionsEnded (tokens ++ rest) =
      (ms ++ (p.readTokens ended rest).1, (p.readTokens ended rest).2) := by
  induction h with
  | done => rfl
  | unit hunit hrest ih =>
    rw [List.append_assoc, hunit.readTokens_append, ih]
    simp only [List.append_assoc]
  | terminator hrest ih => rw [List.cons_append, p.readTokens_terminator, ih]

theorem ReadsAll.readTokens_eq {p : CliParser β V} {optionsEnded ended : Bool}
    {tokens : List Token} {ms : List (Match β V)} (h : ReadsAll p optionsEnded tokens ms ended) :
    p.readTokens optionsEnded tokens = (ms, none) := by
  have happend := h.readTokens_append []
  rw [List.append_nil, CliParser.readTokens, List.append_nil] at happend
  exact happend

theorem Stops.readTokens_eq {p : CliParser β V} {optionsEnded : Bool} {args read : List Token}
    {ms : List (Match β V)} {result : ParseResult} (h : Stops p optionsEnded args read ms result) :
    p.readTokens optionsEnded args = (ms, some result) := by
  cases h with
  | ended hargs hbefore hne hread =>
    rw [hargs, hbefore.readTokens_append, p.readTokens_token hne, hread]
    rfl
  | missingValue hargs hbefore hne hread =>
    rw [hargs, hbefore.readTokens_append, p.readTokens_token hne, hread]
    rfl

theorem Stops.ne_success {p : CliParser β V} {optionsEnded : Bool} {args read : List Token}
    {ms : List (Match β V)} {result : ParseResult} (h : Stops p optionsEnded args read ms result) :
    result ≠ .success := by
  cases h with
  | @ended before after token ms letters result hargs hbefore hne hread =>
    have hresult := (readOf_readToken p token).next
    rw [hread] at hresult
    exact hresult
  | missingValue => exact nofun

/-- A token in front of what is read. -/
theorem Stops.cons {p : CliParser β V} {optionsEnded optionsEnded' : Bool}
    {tokens rest read : List Token} {ms ms' : List (Match β V)} {result : ParseResult}
    (hfront : ∀ {before : List Token} {ms' : List (Match β V)} {ended : Bool},
      ReadsAll p optionsEnded' before ms' ended →
        ReadsAll p optionsEnded (tokens ++ before) (ms ++ ms') ended)
    (h : Stops p optionsEnded' rest read ms' result) :
    Stops p optionsEnded (tokens ++ rest) (tokens ++ read) (ms ++ ms') result := by
  cases h with
  | ended hargs hbefore hne hread =>
    rw [← List.append_assoc, ← List.append_assoc]
    exact .ended (by rw [hargs, List.append_assoc]) (hfront hbefore) hne hread
  | missingValue hargs hbefore hne hread =>
    rw [← List.append_assoc]
    exact .missingValue (by rw [hargs, List.append_assoc]) (hfront hbefore) hne hread

/-- All of a command line is read, or reading ends at a token. -/
def ReadsOrStops (p : CliParser β V) (optionsEnded : Bool) (args : List Token) : Prop :=
  (∃ ms ended, ReadsAll p optionsEnded args ms ended) ∨
    ∃ read ms result, Stops p optionsEnded args read ms result

theorem ReadsOrStops.cons {p : CliParser β V} {optionsEnded optionsEnded' : Bool}
    (tokens : List Token) {rest : List Token} (ms : List (Match β V))
    (hfront : ∀ {before : List Token} {ms' : List (Match β V)} {ended : Bool},
      ReadsAll p optionsEnded' before ms' ended →
        ReadsAll p optionsEnded (tokens ++ before) (ms ++ ms') ended)
    (h : ReadsOrStops p optionsEnded' rest) : ReadsOrStops p optionsEnded (tokens ++ rest) := by
  rcases h with ⟨ms', ended, hall⟩ | ⟨read, ms', result, hstops⟩
  · exact .inl ⟨_, _, hfront hall⟩
  · exact .inr ⟨_, _, _, hstops.cons hfront⟩

theorem readsOrStops (p : CliParser β V) (optionsEnded : Bool) (args : List Token) :
    ReadsOrStops p optionsEnded args := by
  induction args using CliParser.tokens_induction generalizing optionsEnded with
  | nil => exact .inl ⟨[], optionsEnded, .done⟩
  | cons token rest ih ihtail =>
    cases optionsEnded with
    | true => exact (ih true).cons [token] _ fun hall => .unit .argument hall
    | false =>
      by_cases hne : token = ['-', '-']
      · rw [hne]
        exact (ih true).cons [['-', '-']] [] .terminator
      · cases hread : p.readToken token with
        | mk ms next =>
          cases next with
          | ended result => exact .inr ⟨_, _, _, .ended rfl .done hne hread⟩
          | goesOn => exact (ih false).cons [token] ms fun hall => .unit (.token hne hread) hall
          | awaits i label target convert =>
            cases rest with
            | nil => exact .inr ⟨_, _, _, .missingValue rfl .done hne hread⟩
            | cons value rest =>
              exact (ihtail false).cons [token, value] _ fun hall =>
                .unit (.withValue hne hread) hall

/-- The letters before an option that ends a cluster are flags. -/
theorem flag_of_readShort {p : CliParser β V} {body : Token}
    (hnext : (p.readShort body).2 ≠ .goesOn) {m : Match β V} (hm : m ∈ (p.readShort body).1) :
    ∃ i bound, m = .flag i bound := by
  induction body with
  | nil => exact absurd rfl hnext
  | cons letter body ih =>
    rw [CliParser.readShort] at hnext hm
    cases hfind : p.findShort letter with
    | none =>
      rw [hfind] at hm
      cases hm
    | some found =>
      obtain ⟨o, i⟩ := found
      rw [hfind] at hnext hm
      dsimp only at hnext hm
      cases haction : o.action with
      | help =>
        rw [haction] at hm
        cases hm
      | flag bound =>
        rw [haction] at hnext hm
        rcases List.mem_cons.1 hm with rfl | hm
        · exact ⟨i, bound, rfl⟩
        · exact ih hnext hm
      | value target convert =>
        rw [haction] at hnext hm
        dsimp only at hnext hm
        split_ifs at hnext hm
        · exact absurd rfl hnext
        · cases hm

theorem readLong_eq_nil {p : CliParser β V} {body : Token} (hnext : (p.readLong body).2 ≠ .goesOn) :
    (p.readLong body).1 = [] := by
  unfold CliParser.readLong at hnext ⊢
  generalize splitInline body = split at hnext ⊢
  obtain ⟨name, inlineValue⟩ := split
  dsimp only at hnext ⊢
  cases hfind : p.findLong name with
  | none => rfl
  | some found =>
    obtain ⟨o, i⟩ := found
    rw [hfind] at hnext
    dsimp only at hnext ⊢
    cases haction : o.action with
    | help => rfl
    | flag bound =>
      rw [haction] at hnext
      cases inlineValue with
      | some text => rfl
      | none => exact absurd rfl hnext
    | value target convert =>
      rw [haction] at hnext
      cases inlineValue with
      | some text => exact absurd rfl hnext
      | none => rfl

theorem flag_of_readToken {p : CliParser β V} {token : Token} {ms : List (Match β V)}
    {next : Next V} (hread : p.readToken token = (ms, next)) (hnext : next ≠ .goesOn)
    {m : Match β V} (hm : m ∈ ms) : ∃ i bound, m = .flag i bound := by
  obtain rfl : (p.readToken token).1 = ms := by rw [hread]
  obtain rfl : (p.readToken token).2 = next := by rw [hread]
  unfold CliParser.readToken at hnext hm
  split_ifs at hnext hm
  · rw [readLong_eq_nil hnext] at hm
    cases hm
  · exact flag_of_readShort hnext hm
  · exact absurd rfl hnext

/-- The tokens have a unit that asks for `m`, and before that ask for `done`. -/
def AsksFor (p : CliParser β V) (optionsEnded : Bool) (tokens : List Token)
    (done : List (Match β V)) (m : Match β V) : Prop :=
  ∃ before unit after ms letters more ended, tokens = before ++ (unit ++ after) ∧
    ReadsAll p optionsEnded before ms ended ∧ ReadsUnit p ended unit (letters ++ m :: more) ∧
    done = ms ++ letters

theorem ReadsAll.asksFor {p : CliParser β V} {optionsEnded ended : Bool} {tokens : List Token}
    {ms done later : List (Match β V)} {m : Match β V}
    (h : ReadsAll p optionsEnded tokens ms ended) (hms : ms = done ++ m :: later) :
    AsksFor p optionsEnded tokens done m := by
  induction h generalizing done with
  | done => exact absurd hms (by simp)
  | @unit optionsEnded ended tokens rest ms ms' hunit hrest ih =>
    have hlater : ∀ done', ms' = done' ++ m :: later → done = ms ++ done' →
        AsksFor p optionsEnded (tokens ++ rest) done m := by
      intro done' hms' hdone
      obtain ⟨before, unit, after, ms₁, letters, more, ended', htokens, hbefore, hunit', hsplit⟩ :=
        ih hms'
      refine ⟨tokens ++ before, unit, after, ms ++ ms₁, letters, more, ended', ?_,
        .unit hunit hbefore, hunit', ?_⟩
      · rw [htokens, List.append_assoc]
      · rw [hdone, hsplit, List.append_assoc]
    -- the match belongs to a later unit, or to this one
    rcases List.append_eq_append_iff.1 hms with ⟨done', hdone, hms'⟩ | ⟨tail, hms', hcut⟩
    · exact hlater done' hms' hdone
    · cases tail with
      | nil =>
        rw [List.append_nil] at hms'
        exact hlater [] hcut.symm (by rw [hms', List.append_nil])
      | cons m' more =>
        obtain ⟨rfl, -⟩ := List.cons.inj hcut
        exact ⟨[], tokens, rest, [], done, more, optionsEnded, rfl, .done, hms' ▸ hunit, rfl⟩
  | @terminator ended rest ms hrest ih =>
    obtain ⟨before, unit, after, ms₁, letters, more, ended', htokens, hbefore, hunit, hsplit⟩ :=
      ih hms
    exact ⟨['-', '-'] :: before, unit, after, ms₁, letters, more, ended',
      by rw [htokens, List.cons_append], .terminator hbefore, hunit, hsplit⟩

/-- Before the token at which reading ends, or in it, where only flags are asked for. -/
theorem Stops.asksFor {p : CliParser β V} {optionsEnded : Bool} {args read : List Token}
    {ms done later : List (Match β V)} {m : Match β V} {result : ParseResult}
    (h : Stops p optionsEnded args read ms result) (hms : ms = done ++ m :: later) :
    AsksFor p optionsEnded args done m ∨ ∃ i bound, m = .flag i bound := by
  have hsplit : ∀ {before after : List Token} {token : Token} {ms₁ letters : List (Match β V)}
      {next : Next V}, args = before ++ token :: after → ReadsAll p optionsEnded before ms₁ false →
      p.readToken token = (letters, next) → next ≠ .goesOn → ms₁ ++ letters = done ++ m :: later →
      AsksFor p optionsEnded args done m ∨ ∃ i bound, m = .flag i bound := by
    intro before after token ms₁ letters next hargs hbefore hread hnext hcut
    have hflag : ∀ m' ∈ letters, ∃ i bound, m' = .flag i bound :=
      fun m' hm' => flag_of_readToken hread hnext hm'
    rcases List.append_eq_append_iff.1 hcut with ⟨done', -, hletters⟩ | ⟨tail, hms₁, htail⟩
    · exact .inr (hflag m (by simp [hletters]))
    · cases tail with
      | nil =>
        rw [List.nil_append] at htail
        exact .inr (hflag m (htail ▸ List.mem_cons_self))
      | cons m' more =>
        obtain ⟨rfl, -⟩ := List.cons.inj htail
        obtain ⟨before', unit, after', ms', letters', more', ended, htokens, hrest⟩ :=
          hbefore.asksFor hms₁
        refine .inl
          ⟨before', unit, after' ++ token :: after, ms', letters', more', ended, ?_, hrest⟩
        rw [hargs, htokens]
        simp only [List.append_assoc]
  cases h with
  | ended hargs hbefore hne hread => exact hsplit hargs hbefore hread nofun hms
  | missingValue hargs hbefore hne hread => exact hsplit hargs hbefore hread nofun hms

theorem ReadsOrStops.asksFor {p : CliParser β V} {optionsEnded : Bool} {args : List Token}
    (h : ReadsOrStops p optionsEnded args) {done later : List (Match β V)} {m : Match β V}
    (hms : (p.readTokens optionsEnded args).1 = done ++ m :: later) :
    AsksFor p optionsEnded args done m ∨ ∃ i bound, m = .flag i bound := by
  rcases h with ⟨ms, ended, hall⟩ | ⟨read, ms, result, hstops⟩
  · rw [hall.readTokens_eq] at hms
    exact .inl (hall.asksFor hms)
  · rw [hstops.readTokens_eq] at hms
    exact hstops.asksFor hms

/-! ## Parses that succeed -/

section Parsing

variable [DecidableEq β] [DecidableEq κ]

/-- **What was read is performed**, or the first match that fails decides the result. -/
theorem parse_performs {p : CliParser β V} (hown : OwnVariables p) (args : List Token)
    (vars : Variables β V) :
    (∃ st, Tracks p vars ((p.readTokens false args).1.map Match.piece) st ∧
      ∀ args', (p.readTokens false args').1 = (p.readTokens false args).1 →
        p.parse args' vars = ((p.readTokens false args').2.getD (checkRequired st.parser), st)) ∨
    ∃ done m later r st, (p.readTokens false args).1 = done ++ m :: later ∧
      Tracks p vars (done.map Match.piece) st ∧
      m.Fails p (texts (done.map Match.piece)).length r ∧
      ∀ args' later', (p.readTokens false args').1 = done ++ m :: later' →
        p.parse args' vars = (r, st) := by
  obtain ⟨done, left, st, hsplit, htracks, hexecute, hleft⟩ :=
    (tracks_reset p vars).execute hown (of_readTokens p false args)
  rw [List.nil_append] at htracks hexecute hleft
  have hparse : ∀ args' later, (p.readTokens false args').1 = done ++ later →
      p.parse args' vars = execute st (texts (done.map Match.piece)).length later
        (p.readTokens false args').2 := by
    intro args' later hread
    rw [parse_eq_execute, hread]
    exact hexecute later _
  rcases hleft with rfl | ⟨m, later, r, rfl, hfails, hperform⟩
  · rw [List.append_nil] at hsplit
    rw [hsplit]
    refine .inl ⟨st, htracks, fun args' hread => ?_⟩
    rw [hparse args' [] (by rw [hread, List.append_nil])]
    cases (p.readTokens false args').2 <;> rfl
  · refine .inr ⟨done, m, later, r, st, hsplit, htracks, hfails, fun args' later' hread => ?_⟩
    rw [hparse args' (m :: later') hread, execute_cons, hperform, if_pos hfails.ne_success]

/-- **A command line that is read.** The parse succeeds if its pieces can be converted and what is
required is there, and then the variables hold what they say. -/
theorem ReadsAll.parse_success {p : CliParser β V} (hown : OwnVariables p) {args : List Token}
    {ms : List (Match β V)} {ended : Bool} (h : ReadsAll p false args ms ended)
    (vars : Variables β V) :
    ((p.parse args vars).1 = .success ↔
      Converts p (ms.map Match.piece) ∧ Required p (ms.map Match.piece)) ∧
    ((p.parse args vars).1 = .success →
      Bound p vars (p.parse args vars).2.vars (ms.map Match.piece)) := by
  have hms := of_readTokens p false args
  have hread := h.readTokens_eq
  rcases parse_performs hown args vars with
    ⟨st, htracks, hparse⟩ | ⟨done, m, later, r, st, hsplit, htracks, hfails, hparse⟩
  · have hresult := hparse args rfl
    rw [hread] at htracks hresult
    rw [hresult]
    refine ⟨?_, fun _ => htracks.bound⟩
    rw [Option.getD_none, checkRequired_iff htracks]
    exact ⟨fun hrequired => ⟨htracks.converts, hrequired⟩, And.right⟩
  · rw [hparse args later hsplit]
    rw [hread] at hsplit hms
    obtain rfl : ms = done ++ m :: later := hsplit
    have hnot : ¬ Converts p ((done ++ m :: later).map Match.piece) := by
      rw [List.map_append, List.map_cons]
      exact hfails.not_converts (hms m (by simp))
    exact ⟨⟨fun hok => absurd hok hfails.ne_success, fun hconv => absurd hconv.1 hnot⟩,
      fun hok => absurd hok hfails.ne_success⟩

theorem execute_stopped {result : ParseResult} (hresult : result ≠ .success) (st : State β V)
    (k : Nat) (ms : List (Match β V)) : (execute st k ms (some result)).1 ≠ .success := by
  induction ms generalizing st k with
  | nil => exact hresult
  | cons m ms ih =>
    rw [execute_cons]
    split_ifs with hfailed
    · exact hfailed
    · exact ih _ _

/-- A parse that succeeds has read everything. -/
theorem readsAll_of_success {p : CliParser β V} {args : List Token} {vars : Variables β V}
    (hok : (p.parse args vars).1 = .success) : ∃ ms ended, ReadsAll p false args ms ended := by
  rcases readsOrStops p false args with hall | ⟨read, ms, result, hstops⟩
  · exact hall
  · rw [parse_eq_execute, hstops.readTokens_eq] at hok
    exact absurd hok (execute_stopped hstops.ne_success _ _ _)

end Parsing

/-! ## Parses that do not succeed -/

/-- How a parse ends that does not succeed: the tokens up to the one at which it ends, the matches
that it has performed, and the result. -/
inductive Exit (p : CliParser β V) (args : List Token) :
    List Token → List (Match β V) → ParseResult → Prop where
  /-- All is performed, but something required is missing. -/
  | required {ms : List (Match β V)} {ended : Bool} {message : String}
      (hall : ReadsAll p false args ms ended) :
      Exit p args args ms (.failure .missingRequired message)
  /-- Reading ends, for help or for an error. -/
  | stops {read : List Token} {ms : List (Match β V)} {result : ParseResult}
      (hstops : Stops p false args read ms result) : Exit p args read ms result
  /-- A match fails. -/
  | fails {before unit after : List Token} {ms letters more : List (Match β V)} {m : Match β V}
      {ended : Bool} {result : ParseResult} (hargs : args = before ++ (unit ++ after))
      (hbefore : ReadsAll p false before ms ended)
      (hunit : ReadsUnit p ended unit (letters ++ m :: more))
      (hfails : m.Fails p (texts ((ms ++ letters).map Match.piece)).length result) :
      Exit p args (before ++ unit) (ms ++ letters) result

/-- The result depends on there being no more tokens. -/
def ParseResult.WantsMore (r : ParseResult) : Prop :=
  ∃ message, r = .failure .missingValue message ∨ r = .failure .missingRequired message

theorem checkRequired_cases (p : CliParser β V) :
    checkRequired p = .success ∨
      ∃ message, checkRequired p = .failure .missingRequired message := by
  unfold checkRequired
  split
  · exact .inr ⟨_, rfl⟩
  · split
    · exact .inr ⟨_, rfl⟩
    · exact .inl rfl

/-- What follows the token at which reading ends is not read. -/
theorem Stops.readTokens_append {p : CliParser β V} {optionsEnded : Bool} {args read : List Token}
    {ms : List (Match β V)} {result : ParseResult} (h : Stops p optionsEnded args read ms result)
    (hmore : ¬ result.WantsMore) (rest : List Token) :
    p.readTokens optionsEnded (read ++ rest) = (ms, some result) := by
  cases h with
  | ended hargs hbefore hne hread =>
    rw [List.append_assoc, hbefore.readTokens_append, List.singleton_append,
      p.readTokens_token hne, hread]
    rfl
  | missingValue => exact absurd ⟨_, .inl rfl⟩ hmore

section Parsing

variable [DecidableEq β] [DecidableEq κ]

/-- **A parse that does not succeed** has performed the matches before the token or the letter at
which it ends, and nothing else; the tokens that follow have no effect. -/
theorem parse_unsuccessful {p : CliParser β V} (hown : OwnVariables p) (args : List Token)
    (vars : Variables β V) (hfailed : (p.parse args vars).1 ≠ .success) :
    ∃ read done, Exit p args read done (p.parse args vars).1 ∧
      Bound p vars (p.parse args vars).2.vars (done.map Match.piece) ∧
      (¬ (p.parse args vars).1.WantsMore →
        ∀ rest, p.parse (read ++ rest) vars = p.parse args vars) := by
  have hreads := readsOrStops p false args
  rcases parse_performs hown args vars with
    ⟨st, htracks, hparse⟩ | ⟨done, m, later, r, st, hsplit, htracks, hfails, hparse⟩
  · have hresult := hparse args rfl
    rcases hreads with ⟨ms, ended, hall⟩ | ⟨read, ms, result, hstops⟩
    · rw [hall.readTokens_eq] at htracks hresult
      rw [hresult] at hfailed ⊢
      rw [Option.getD_none] at hfailed ⊢
      rcases checkRequired_cases st.parser with hok | ⟨message, hmissing⟩
      · exact absurd hok hfailed
      · rw [hmissing]
        exact ⟨args, ms, .required hall, htracks.bound, fun hmore => absurd ⟨_, .inr rfl⟩ hmore⟩
    · rw [hstops.readTokens_eq] at htracks hresult hparse
      rw [hresult]
      refine ⟨read, ms, .stops hstops, htracks.bound, fun hmore rest => ?_⟩
      have hread := hstops.readTokens_append hmore rest
      rw [hparse (read ++ rest) (by rw [hread]), hread]
  · rw [hparse args later hsplit]
    rcases hreads.asksFor hsplit with
      ⟨before, unit, after, ms, letters, more, ended, hargs, hbefore, hunit, rfl⟩ | ⟨i, bound, rfl⟩
    · refine ⟨before ++ unit, ms ++ letters, .fails hargs hbefore hunit hfails, htracks.bound, ?_⟩
      intro _ rest
      refine hparse (before ++ unit ++ rest) (more ++ (p.readTokens ended rest).1) ?_
      rw [List.append_assoc, hbefore.readTokens_append, hunit.readTokens_append]
      simp only [List.append_assoc, List.cons_append]
    · cases hfails

theorem positional_copyParser {k : Nat} {q : PositionalSpec CopyValue}
    (hq : copyParser.positionals[k]? = some q) : q.target = true ∧ k = 0 := by
  rcases k with _ | k
  · cases hq
    exact ⟨rfl, rfl⟩
  · cases hq

theorem ownVariables_copyParser : OwnVariables copyParser := by
  refine ⟨?_, ?_, ?_, ?_⟩
  · intro i j o o' bound ho ho' haction haction'
    rcases action_copyParser ho with h | h | h <;>
      rcases action_copyParser ho' with h' | h' | h' <;> simp_all
  · intro i j o o' target convert convert' ho ho' haction haction'
    rcases action_copyParser ho with h | h | h <;>
      rcases action_copyParser ho' with h' | h' | h' <;> simp_all
  · intro k l q q' hq hq' _
    rw [(positional_copyParser hq).2, (positional_copyParser hq').2]
  · intro i k o q convert ho hq haction
    have htarget := (positional_copyParser hq).1
    rcases action_copyParser ho with h | h | h <;> simp_all

/-- `-vc=x in` stops at the `x`, with `-v` performed. -/
theorem parse_unsuccessful_copyParser :
    ∃ read done, Exit copyParser ["-vc=x".toList, "in".toList] read done
        (.failure .invalidValue "invalid value 'x' for option '-c'") ∧
      Bound copyParser copyVars
        (copyParser.parse ["-vc=x".toList, "in".toList] copyVars).2.vars
        (done.map Match.piece) := by
  have hresult : (copyParser.parse ["-vc=x".toList, "in".toList] copyVars).1 =
      .failure .invalidValue "invalid value 'x' for option '-c'" := by decide +kernel
  obtain ⟨read, done, hexit, hbound, -⟩ := parse_unsuccessful ownVariables_copyParser
    ["-vc=x".toList, "in".toList] copyVars (by rw [hresult]; exact nofun)
  rw [hresult] at hexit
  exact ⟨read, done, hexit, hbound⟩

end Parsing

end EglUtil.Cli
