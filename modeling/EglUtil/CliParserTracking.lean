import EglUtil.CliParserNames

/-!
# `CliParser`: following the state

What a command line says is a list of pieces. `Bound` tells what the variables hold after them, and
`Converts` that they could all be converted; each of the three kinds of pieces keeps both, if it
comes last and its text can be converted.

`Tracks` is the invariant of a parse: between two matches, the state of the parser is what the
pieces so far make of the registered one.

**Theorem (`Tracks.execute`).** A list of matches is performed up to the first that fails, and the
invariant holds there.
-/

namespace EglUtil.Cli

variable {β κ : Type*} {V : κ → Type*}

/-! ## What a match says -/

def Match.piece : Match β V → Piece
  | .flag i _ => .flag i
  | .value i _ _ _ text => .value i text
  | .positional text => .positional text

/-- The option of a match is registered at its place. -/
def Match.Of (p : CliParser β V) : Match β V → Prop
  | .flag i bound => ∃ o, p.options[i]? = some o ∧ o.action = .flag bound
  | .value i _ target convert _ => ∃ o, p.options[i]? = some o ∧ o.action = .value target convert
  | .positional _ => True

/-- So is an option that waits for its value; and reading does not end in success. -/
def Next.Of (p : CliParser β V) : Next V → Prop
  | .ended result => result ≠ .success
  | .goesOn => True
  | .awaits i _ target convert => ∃ o, p.options[i]? = some o ∧ o.action = .value target convert

/-- Everything that was read is registered. -/
structure ReadOf (p : CliParser β V) (r : List (Match β V) × Next V) : Prop where
  ms : ∀ m ∈ r.1, m.Of p
  next : r.2.Of p

theorem readOf_nil {p : CliParser β V} {next : Next V} (h : next.Of p) : ReadOf p ([], next) :=
  ⟨fun _ hm => (List.not_mem_nil hm).elim, h⟩

theorem readOf_ended {p : CliParser β V} {result : ParseResult} (h : result ≠ .success) :
    ReadOf p ([], .ended result) :=
  readOf_nil h

theorem readOf_singleton {p : CliParser β V} {m : Match β V} (h : m.Of p) :
    ReadOf p ([m], .goesOn) :=
  ⟨fun _ hm => List.mem_singleton.1 hm ▸ h, trivial⟩

theorem readOf_readLong (p : CliParser β V) (body : Token) : ReadOf p (p.readLong body) := by
  unfold CliParser.readLong
  generalize splitInline body = split
  obtain ⟨name, inlineValue⟩ := split
  dsimp only
  cases hfind : p.findLong name with
  | none => exact readOf_ended nofun
  | some found =>
    obtain ⟨o, i⟩ := found
    obtain ⟨ho, -, -⟩ := of_findLong hfind
    dsimp only
    cases haction : o.action with
    | help => exact readOf_ended nofun
    | flag bound =>
      cases inlineValue with
      | some text => exact readOf_ended nofun
      | none => exact readOf_singleton ⟨o, ho, haction⟩
    | value target convert =>
      cases inlineValue with
      | some text => exact readOf_singleton ⟨o, ho, haction⟩
      | none => exact readOf_nil ⟨o, ho, haction⟩

theorem readOf_readShort (p : CliParser β V) (body : Token) : ReadOf p (p.readShort body) := by
  induction body with
  | nil => exact readOf_nil trivial
  | cons letter body ih =>
    rw [CliParser.readShort]
    cases hfind : p.findShort letter with
    | none => exact readOf_ended (by simp)
    | some found =>
      obtain ⟨o, i⟩ := found
      obtain ⟨ho, -, -⟩ := of_findShort hfind
      dsimp only
      cases haction : o.action with
      | help => exact readOf_ended (by simp)
      | flag bound => exact ⟨List.forall_mem_cons.2 ⟨⟨o, ho, haction⟩, ih.ms⟩, ih.next⟩
      | value target convert =>
        dsimp only
        split_ifs
        · exact readOf_singleton ⟨o, ho, haction⟩
        · exact readOf_nil ⟨o, ho, haction⟩

theorem readOf_readToken (p : CliParser β V) (token : Token) : ReadOf p (p.readToken token) := by
  unfold CliParser.readToken
  split_ifs
  · exact readOf_readLong p _
  · exact readOf_readShort p _
  · exact readOf_singleton trivial

theorem of_readTokens (p : CliParser β V) (optionsEnded : Bool) (args : List Token) :
    ∀ m ∈ (p.readTokens optionsEnded args).1, m.Of p := by
  induction args using CliParser.tokens_induction generalizing optionsEnded with
  | nil => exact fun _ hm => (List.not_mem_nil hm).elim
  | cons token rest ih ihtail =>
    cases optionsEnded with
    | true =>
      rw [CliParser.readTokens_ended]
      exact List.forall_mem_cons.2 ⟨trivial, ih true⟩
    | false =>
      by_cases h : token = ['-', '-']
      · rw [h, CliParser.readTokens_terminator]
        exact ih true
      · rw [CliParser.readTokens_token _ h]
        obtain ⟨hms, hnext⟩ := readOf_readToken p token
        generalize p.readToken token = r at hms hnext
        obtain ⟨ms, next⟩ := r
        cases next with
        | ended result => exact hms
        | goesOn => exact List.forall_mem_append.2 ⟨hms, ih false⟩
        | awaits i label target convert =>
          cases rest with
          | nil => exact hms
          | cons value rest =>
            exact List.forall_mem_append.2 ⟨hms, List.forall_mem_cons.2 ⟨hnext, ihtail false⟩⟩

/-! ## One more piece -/

section Pieces

variable {p : CliParser β V} {vars vars' : Variables β V} {bs : List Piece}

theorem Converts.flag (h : Converts p bs) (i : Nat) : Converts p (bs ++ [.flag i]) where
  options j text hmem := h.options j text (by simpa using hmem)
  room := by simpa using h.room
  positionals := by simpa using h.positionals

theorem Converts.value (h : Converts p bs) {i : Nat} {o : OptionSpec β V} {target : κ}
    {convert : Token → Option (V target)} {text : Token} {v : V target}
    (ho : p.options[i]? = some o) (haction : o.action = .value target convert)
    (hv : convert text = some v) : Converts p (bs ++ [.value i text]) where
  options j text' hmem o' target' convert' ho' haction' := by
    rcases List.mem_append.1 hmem with hmem | hmem
    · exact h.options j text' hmem o' target' convert' ho' haction'
    · obtain ⟨rfl, rfl⟩ : j = i ∧ text' = text := by simpa using hmem
      rw [ho] at ho'
      cases ho'
      rw [haction] at haction'
      cases haction'
      simp [hv]
  room := by simpa using h.room
  positionals := by simpa using h.positionals

theorem Converts.positional (h : Converts p bs) {q : PositionalSpec V} {text : Token}
    {v : V q.target} (hq : p.positionals[(texts bs).length]? = some q)
    (hv : q.convert text = some v) : Converts p (bs ++ [.positional text]) where
  options i text' hmem := h.options i text' (by simpa using hmem)
  room := by
    obtain ⟨hlt, -⟩ := List.getElem?_eq_some_iff.1 hq
    rw [texts_append, texts_positional, List.length_append, List.length_singleton]
    exact hlt
  positionals l q' text' hq' htext' := by
    rw [texts_append, texts_positional, List.getElem?_append] at htext'
    split_ifs at htext' with hl
    · exact h.positionals l q' text' hq' htext'
    · obtain rfl : l = (texts bs).length := by
        obtain ⟨hzero, -⟩ := List.getElem?_eq_some_iff.1 htext'
        rw [List.length_singleton] at hzero
        omega
      rw [hq] at hq'
      cases hq'
      obtain rfl : text = text' := by simpa using htext'
      simp [hv]

/-- Only its own flag is set. -/
theorem Bound.flag [DecidableEq β] [DecidableEq κ] (h : Bound p vars vars' bs)
    (hown : OwnVariables p) {i : Nat} {o : OptionSpec β V} {bound : β}
    (ho : p.options[i]? = some o) (haction : o.action = .flag bound) :
    Bound p vars ((Write.flag bound).apply vars') (bs ++ [.flag i]) where
  flags j o' bound' ho' haction' := by
    by_cases hj : bound' = bound
    · subst hj
      obtain rfl := hown.flags i j o o' bound' ho ho' haction haction'
      simp
    · have hne : j ≠ i := by
        intro hji
        subst hji
        rw [ho] at ho'
        cases ho'
        rw [haction] at haction'
        cases haction'
        exact hj rfl
      simp [hj, hne, h.flags j o' bound' ho' haction']
  options j o' target convert ho' haction' := by
    rw [lastValue_concat]
    exact h.options j o' target convert ho' haction'
  positionals k q hq := by simpa using h.positionals k q hq
  otherFlags bound' hother := by
    have hne : bound' ≠ bound := by
      intro heq
      exact hother i o ho (heq ▸ haction)
    simpa [hne] using h.otherFlags bound' hother
  otherValues := h.otherValues

/-- Only its own variable is assigned. -/
theorem Bound.value [DecidableEq β] [DecidableEq κ] (h : Bound p vars vars' bs)
    (hown : OwnVariables p) {i : Nat} {o : OptionSpec β V} {target : κ}
    {convert : Token → Option (V target)} {text : Token} {v : V target}
    (ho : p.options[i]? = some o) (haction : o.action = .value target convert)
    (hv : convert text = some v) :
    Bound p vars ((Write.value target v).apply vars') (bs ++ [.value i text]) where
  flags j o' bound ho' haction' := by simpa using h.flags j o' bound ho' haction'
  options j o' target' convert' ho' haction' := by
    rw [lastValue_concat]
    by_cases hj : i = j
    · subst hj
      rw [ho] at ho'
      cases ho'
      rw [haction] at haction'
      cases haction'
      simpa [Piece.valueOf?, Holds] using hv
    · have hne : target' ≠ target := by
        intro heq
        subst heq
        exact hj (hown.options i j o o' target' convert convert' ho ho' haction haction')
      simpa [Piece.valueOf?, hj, hne] using
        h.options j o' target' convert' ho' haction'
  positionals k q hq := by
    have hne : q.target ≠ target := by
      intro heq
      subst heq
      exact hown.apart i k o q convert ho hq haction
    simpa [hne] using h.positionals k q hq
  otherFlags := h.otherFlags
  otherValues target' hoptions hpositionals := by
    have hne : target' ≠ target := by
      intro heq
      subst heq
      exact hoptions i o convert ho haction
    simpa [hne] using h.otherValues target' hoptions hpositionals

theorem Bound.positional [DecidableEq β] [DecidableEq κ] (h : Bound p vars vars' bs)
    (hown : OwnVariables p) {q : PositionalSpec V} {text : Token} {v : V q.target}
    (hq : p.positionals[(texts bs).length]? = some q) (hv : q.convert text = some v) :
    Bound p vars ((Write.value q.target v).apply vars') (bs ++ [.positional text]) where
  flags i o bound ho haction := by simpa using h.flags i o bound ho haction
  options i o target convert ho haction := by
    have hne : target ≠ q.target := by
      intro heq
      subst heq
      exact hown.apart i _ o q convert ho hq haction
    rw [lastValue_concat]
    simpa [Piece.valueOf?, hne] using h.options i o target convert ho haction
  positionals l q' hq' := by
    by_cases hl : (texts bs).length = l
    · subst hl
      rw [hq] at hq'
      cases hq'
      simpa [Holds] using hv
    · have hne : q'.target ≠ q.target := by
        intro heq
        exact hl (hown.positionals _ l q q' hq hq' heq.symm)
      have htexts : (texts (bs ++ [.positional text]))[l]? = (texts bs)[l]? := by
        rw [texts_append, texts_positional, List.getElem?_append]
        split_ifs with hlt
        · rfl
        · rw [List.getElem?_eq_none (by simp; omega), List.getElem?_eq_none (by omega)]
      rw [htexts]
      simpa [hne] using h.positionals l q' hq'
  otherFlags := h.otherFlags
  otherValues target hoptions hpositionals := by
    have hne : target ≠ q.target := fun heq => hpositionals _ q hq heq.symm
    simpa [hne] using h.otherValues target hoptions hpositionals

end Pieces

/-! ## The invariant -/

/-- An option after the pieces. -/
def OptionSpec.after (o : OptionSpec β V) (i : Nat) (bs : List Piece) : OptionSpec β V :=
  { o with seen := decide (i ∈ occurring bs) }

/-- A positional after the pieces. -/
def PositionalSpec.after (q : PositionalSpec V) (k : Nat) (bs : List Piece) : PositionalSpec V :=
  { q with seen := decide (k < (texts bs).length) }

/-- The state of a parser that started from `p` and `vars` and has read these pieces. -/
structure Tracks (p : CliParser β V) (vars : Variables β V) (bs : List Piece) (st : State β V) :
    Prop where
  options : ∀ i : Nat, st.parser.options[i]? = (p.options[i]?).map fun o => o.after i bs
  positionals : ∀ k : Nat,
    st.parser.positionals[k]? = (p.positionals[k]?).map fun q => q.after k bs
  bound : Bound p vars st.vars bs
  converts : Converts p bs

theorem tracks_reset (p : CliParser β V) (vars : Variables β V) :
    Tracks p vars [] ⟨p.reset, vars⟩ where
  options i := by simp [CliParser.reset, OptionSpec.after, occurring]
  positionals k := by simp [CliParser.reset, PositionalSpec.after, texts]
  bound := by constructor <;> simp [Holds, lastValue, texts]
  converts := by constructor <;> simp [texts]

section Steps

variable {p : CliParser β V} {vars : Variables β V} {bs : List Piece} {st : State β V}

/-- Seeing an option marks it and no other. -/
theorem Tracks.seeOption_options (h : Tracks p vars bs st) {b : Piece} {i : Nat}
    (hb : b.option? = some i) (j : Nat) :
    (st.seeOption i).parser.options[j]? = (p.options[j]?).map fun o => o.after j (bs ++ [b]) := by
  have hoccurring : occurring [b] = [i] := by simp [occurring, hb]
  simp only [State.seeOption, List.getElem?_modify, h.options, Option.map_eq_map,
    Option.map_map]
  congr 1
  funext o
  by_cases hj : i = j
  · subst hj
    simp [OptionSpec.after, hoccurring]
  · simp [OptionSpec.after, hoccurring, hj, Ne.symm hj]

/-- Filling a positional marks it and no other. -/
theorem Tracks.seePositional_positionals (h : Tracks p vars bs st) (text : Token) (l : Nat) :
    (st.seePositional (texts bs).length).parser.positionals[l]? =
      (p.positionals[l]?).map fun q => q.after l (bs ++ [.positional text]) := by
  simp only [State.seePositional, List.getElem?_modify, h.positionals, Option.map_eq_map,
    Option.map_map]
  congr 1
  funext q
  by_cases hl : (texts bs).length = l
  · simp [PositionalSpec.after, hl]
  · have hiff : l < (texts bs).length ↔ l < (texts bs).length + 1 := by omega
    simp [PositionalSpec.after, hl, hiff]

/-- **A flag.** -/
theorem Tracks.flag [DecidableEq β] [DecidableEq κ] (h : Tracks p vars bs st)
    (hown : OwnVariables p) {i : Nat} {o : OptionSpec β V} {bound : β}
    (ho : p.options[i]? = some o) (haction : o.action = .flag bound) :
    Tracks p vars (bs ++ [.flag i]) ((st.setFlag bound).seeOption i) where
  options := h.seeOption_options rfl
  positionals k := by
    simpa [PositionalSpec.after] using h.positionals k
  bound := h.bound.flag hown ho haction
  converts := h.converts.flag i

/-- **An option with its value.** -/
theorem Tracks.value [DecidableEq β] [DecidableEq κ] (h : Tracks p vars bs st)
    (hown : OwnVariables p) {i : Nat} {o : OptionSpec β V} {target : κ}
    {convert : Token → Option (V target)} {text : Token} {v : V target}
    (ho : p.options[i]? = some o) (haction : o.action = .value target convert)
    (hv : convert text = some v) :
    Tracks p vars (bs ++ [.value i text]) ((st.store target v).seeOption i) where
  options := h.seeOption_options rfl
  positionals k := by
    simpa [PositionalSpec.after] using h.positionals k
  bound := h.bound.value hown ho haction hv
  converts := h.converts.value ho haction hv

/-- **A positional.** -/
theorem Tracks.positional [DecidableEq β] [DecidableEq κ] (h : Tracks p vars bs st)
    (hown : OwnVariables p) {q : PositionalSpec V} {text : Token} {v : V q.target}
    (hq : p.positionals[(texts bs).length]? = some q) (hv : q.convert text = some v) :
    Tracks p vars (bs ++ [.positional text])
      ((st.store q.target v).seePositional (texts bs).length) where
  options i := by
    simpa [OptionSpec.after] using h.options i
  positionals := h.seePositional_positionals text
  bound := h.bound.positional hown hq hv
  converts := h.converts.positional hq hv

theorem find_eq_none_iff {α : Type*} {l : List α} {P : α → Bool} :
    l.find? P = none ↔ ∀ (i : Nat) (a : α), l[i]? = some a → ¬ P a := by
  rw [List.find?_eq_none]
  constructor
  · intro h i a ha
    exact h a (List.mem_of_getElem? ha)
  · intro h a hmem
    obtain ⟨i, hi⟩ := List.mem_iff_getElem?.1 hmem
    exact h i a hi

/-- **What is required.** -/
theorem checkRequired_iff (h : Tracks p vars bs st) :
    checkRequired st.parser = .success ↔ Required p bs := by
  have hoptions : (st.parser.options.find? fun o => o.required && !o.seen) = none ↔
      ∀ (i : Nat) (o : OptionSpec β V), p.options[i]? = some o → o.required →
        i ∈ occurring bs := by
    rw [find_eq_none_iff]
    simp [h.options, OptionSpec.after]
  have hpositionals : (st.parser.positionals.find? fun q => q.required && !q.seen) = none ↔
      ∀ (k : Nat) (q : PositionalSpec V), p.positionals[k]? = some q → q.required →
        k < (texts bs).length := by
    rw [find_eq_none_iff]
    simp [h.positionals, PositionalSpec.after]
  unfold checkRequired
  constructor
  · intro hok
    split at hok
    · cases hok
    · next hnone =>
      split at hok
      · cases hok
      · next hnone' => exact ⟨hoptions.1 hnone, hpositionals.1 hnone'⟩
  · intro hrequired
    rw [hoptions.2 hrequired.options]
    dsimp only
    rw [hpositionals.2 hrequired.positionals]

end Steps

/-! ## Performing is tracked -/

/-- The match fails, with this result, if `k` positionals were given before. -/
inductive Match.Fails (p : CliParser β V) (k : Nat) : Match β V → ParseResult → Prop where
  | value {i : Nat} {label : String} {target : κ} {convert : Token → Option (V target)}
      {text : Token} (hconv : convert text = none) :
      Match.Fails p k (.value i label target convert text) (.failure .invalidValue
        ("invalid value '" ++ String.ofList text ++ "' for option '" ++ label ++ "'"))
  | argument {q : PositionalSpec V} {text : Token} (hq : p.positionals[k]? = some q)
      (hconv : q.convert text = none) :
      Match.Fails p k (.positional text) (.failure .invalidValue
        ("invalid value '" ++ String.ofList text ++ "' for argument '" ++
          String.ofList q.name ++ "'"))
  | room {text : Token} (hq : p.positionals[k]? = none) :
      Match.Fails p k (.positional text) (.failure .unexpectedPositional
        ("unexpected positional argument '" ++ String.ofList text ++ "'"))

theorem Match.Fails.ne_success {p : CliParser β V} {k : Nat} {m : Match β V} {r : ParseResult}
    (h : m.Fails p k r) : r ≠ .success := by
  cases h <;> exact nofun

/-- A match that fails stands in the way of converting all. -/
theorem Match.Fails.not_converts {p : CliParser β V} {m : Match β V} {r : ParseResult}
    {bs later : List Piece} (h : m.Fails p (texts bs).length r) (hm : m.Of p) :
    ¬ Converts p (bs ++ m.piece :: later) := by
  intro hconv
  have hlast : bs ++ m.piece :: later = bs ++ [m.piece] ++ later := by simp
  rw [hlast] at hconv
  have hconv := hconv.of_append
  cases h with
  | @value i label target convert text hnone =>
    obtain ⟨o, ho, haction⟩ := hm
    have hsome := hconv.options i text (by simp [Match.piece]) o target convert ho haction
    rw [hnone] at hsome
    cases hsome
  | @argument q text hq hnone =>
    have hsome := hconv.positionals _ q text hq (by simp [Match.piece])
    rw [hnone] at hsome
    cases hsome
  | @room text hq =>
    have hroom := hconv.room
    rw [List.getElem?_eq_none_iff] at hq
    simp only [Match.piece, texts_append, texts_positional, List.length_append,
      List.length_singleton] at hroom
    omega

theorem Match.count_eq (bs : List Piece) (m : Match β V) :
    m.count (texts bs).length = (texts (bs ++ [m.piece])).length := by
  cases m <;> simp [Match.count, Match.piece]

section Performing

variable [DecidableEq β] [DecidableEq κ] {p : CliParser β V} {vars : Variables β V}
  {bs : List Piece} {st : State β V}

/-- **One match.** It is one more piece, or fails and changes nothing. -/
theorem Tracks.perform (h : Tracks p vars bs st) (hown : OwnVariables p) {m : Match β V}
    (hm : m.Of p) :
    ((m.perform st (texts bs).length).1 = .success ∧
      Tracks p vars (bs ++ [m.piece]) (m.perform st (texts bs).length).2) ∨
    ∃ r, m.Fails p (texts bs).length r ∧ m.perform st (texts bs).length = (r, st) := by
  cases m with
  | flag i bound =>
    obtain ⟨o, ho, haction⟩ := hm
    exact .inl ⟨rfl, h.flag hown ho haction⟩
  | value i label target convert text =>
    obtain ⟨o, ho, haction⟩ := hm
    cases hv : convert text with
    | none =>
      refine .inr ⟨_, .value hv, ?_⟩
      simp only [Match.perform, assignOption, hv]
    | some v =>
      have hperform : (Match.value i label target convert text).perform st (texts bs).length =
          (.success, (st.store target v).seeOption i) := by
        simp only [Match.perform, assignOption, hv]
      rw [hperform]
      exact .inl ⟨rfl, h.value hown ho haction hv⟩
  | positional text =>
    have hlookup := h.positionals (texts bs).length
    cases hq : p.positionals[(texts bs).length]? with
    | none =>
      rw [hq] at hlookup
      refine .inr ⟨_, .room hq, ?_⟩
      simp only [Match.perform, consumePositional, hlookup, Option.map_none]
    | some q =>
      rw [hq] at hlookup
      cases hv : q.convert text with
      | none =>
        refine .inr ⟨_, .argument hq hv, ?_⟩
        simp only [Match.perform, consumePositional, hlookup, Option.map_some,
          PositionalSpec.after, hv]
      | some v =>
        have hperform : (Match.positional text).perform st (texts bs).length =
            (.success, (st.store q.target v).seePositional (texts bs).length) := by
          simp only [Match.perform, consumePositional, hlookup, Option.map_some,
            PositionalSpec.after, hv]
        rw [hperform]
        exact .inl ⟨rfl, h.positional hown hq hv⟩

/-- **Many matches.** They are performed up to the first that fails. -/
theorem Tracks.execute (h : Tracks p vars bs st) (hown : OwnVariables p) {ms : List (Match β V)}
    (hms : ∀ m ∈ ms, m.Of p) :
    ∃ done left st', ms = done ++ left ∧ Tracks p vars (bs ++ done.map Match.piece) st' ∧
      (∀ later ended, execute st (texts bs).length (done ++ later) ended =
        execute st' (texts (bs ++ done.map Match.piece)).length later ended) ∧
      (left = [] ∨ ∃ m later r, left = m :: later ∧
        m.Fails p (texts (bs ++ done.map Match.piece)).length r ∧
        m.perform st' (texts (bs ++ done.map Match.piece)).length = (r, st')) := by
  induction ms generalizing bs st with
  | nil =>
    refine ⟨[], [], st, rfl, ?_, ?_, .inl rfl⟩
    · rwa [List.map_nil, List.append_nil]
    · intro later ended
      rw [List.map_nil, List.append_nil, List.nil_append]
  | cons m ms ih =>
    obtain ⟨hm, hms⟩ := List.forall_mem_cons.1 hms
    rcases h.perform hown hm with ⟨hok, htracks⟩ | ⟨r, hfails, hperform⟩
    · obtain ⟨done, left, st', hsplit, hst', hexecute, hleft⟩ := ih htracks hms
      have hpieces : bs ++ [m.piece] ++ done.map Match.piece =
          bs ++ (m :: done).map Match.piece := by simp
      rw [hpieces] at hst' hexecute hleft
      refine ⟨m :: done, left, st', by rw [hsplit, List.cons_append], hst', ?_, hleft⟩
      intro later ended
      rw [List.cons_append, execute_cons, if_neg (not_not_intro hok), m.count_eq, hexecute]
    · refine ⟨[], m :: ms, st, rfl, ?_, ?_, .inr ⟨m, ms, r, rfl, ?_, ?_⟩⟩
      · rwa [List.map_nil, List.append_nil]
      · intro later ended
        rw [List.map_nil, List.append_nil, List.nil_append]
      · rwa [List.map_nil, List.append_nil]
      · rwa [List.map_nil, List.append_nil]

end Performing

end EglUtil.Cli
