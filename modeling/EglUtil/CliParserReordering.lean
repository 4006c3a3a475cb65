import EglUtil.CliParserEffects

/-!
# `CliParser`: the order of the units

A unit asks for the same wherever it stands, so what a command line says is the concatenation of
what its units say, and whether a parse succeeds and what it does to the variables depend on three
things alone (`SaysSame`): which pieces there are, the last text for each option, and the texts of
the positionals in order. A reordering keeps all three if it keeps the positionals in order, and the
units of each option.

**Theorem (`parse_reorder`).** The units of a command line that is parsed with success may be
reordered so: it is still parsed with success, and the variables end with the same values.
-/

namespace EglUtil.Cli

variable {β κ : Type*} {V : κ → Type*}

/-! ## What decides -/

/-- Two lists of pieces that ask for the same. -/
structure SaysSame (bs bs' : List Piece) : Prop where
  mem : ∀ b, b ∈ bs ↔ b ∈ bs'
  lastValue : ∀ i, lastValue i bs = lastValue i bs'
  texts : texts bs = texts bs'

theorem SaysSame.occurring {bs bs' : List Piece} (h : SaysSame bs bs') (i : Nat) :
    i ∈ occurring bs ↔ i ∈ occurring bs' := by
  simp only [Cli.occurring, List.mem_filterMap, h.mem]

theorem Converts.congr {p : CliParser β V} {bs bs' : List Piece} (h : Converts p bs)
    (hsame : SaysSame bs bs') : Converts p bs' where
  options i text hmem := h.options i text ((hsame.mem _).2 hmem)
  room := hsame.texts ▸ h.room
  positionals k q text hq htext := h.positionals k q text hq (hsame.texts ▸ htext)

theorem Required.congr {p : CliParser β V} {bs bs' : List Piece} (h : Required p bs)
    (hsame : SaysSame bs bs') : Required p bs' where
  options i o ho hrequired := (hsame.occurring i).1 (h.options i o ho hrequired)
  positionals k q hq hrequired := hsame.texts ▸ h.positionals k q hq hrequired

theorem Bound.congr {p : CliParser β V} {vars vars' : Variables β V} {bs bs' : List Piece}
    (h : Bound p vars vars' bs) (hsame : SaysSame bs bs') : Bound p vars vars' bs' where
  flags i o bound ho haction := by
    rw [h.flags i o bound ho haction, decide_eq_decide.2 (hsame.mem _)]
  options i o target convert ho haction :=
    hsame.lastValue i ▸ h.options i o target convert ho haction
  positionals k q hq := hsame.texts ▸ h.positionals k q hq
  otherFlags := h.otherFlags
  otherValues := h.otherValues

theorem Holds.unique {α : Type*} {convert : Token → Option α} {text : Option Token}
    {before a b : α} (ha : Holds convert text before a) (hb : Holds convert text before b) :
    a = b := by
  cases text with
  | none => exact ha.trans hb.symm
  | some text => exact Option.some.inj (ha.symm.trans hb)

/-- **The pieces determine the variables.** -/
theorem Bound.unique {p : CliParser β V} {vars a b : Variables β V} {bs : List Piece}
    (ha : Bound p vars a bs) (hb : Bound p vars b bs) : a = b := by
  have hflag : a.flag = b.flag := by
    funext bound
    by_cases hown : ∃ (i : Nat) (o : OptionSpec β V), p.options[i]? = some o ∧
        o.action = .flag bound
    · obtain ⟨i, o, ho, haction⟩ := hown
      rw [ha.flags i o bound ho haction, hb.flags i o bound ho haction]
    · have hother : ∀ (i : Nat) (o : OptionSpec β V), p.options[i]? = some o →
          o.action ≠ .flag bound :=
        fun i o ho haction => hown ⟨i, o, ho, haction⟩
      rw [ha.otherFlags bound hother, hb.otherFlags bound hother]
  have hvalue : a.value = b.value := by
    funext target
    by_cases hoption : ∃ (i : Nat) (o : OptionSpec β V) (convert : Token → Option (V target)),
        p.options[i]? = some o ∧ o.action = .value target convert
    · obtain ⟨i, o, convert, ho, haction⟩ := hoption
      exact (ha.options i o target convert ho haction).unique
        (hb.options i o target convert ho haction)
    · by_cases hpositional : ∃ (k : Nat) (q : PositionalSpec V), p.positionals[k]? = some q ∧
          q.target = target
      · obtain ⟨k, q, hq, rfl⟩ := hpositional
        exact (ha.positionals k q hq).unique (hb.positionals k q hq)
      · have hoptions : ∀ (i : Nat) (o : OptionSpec β V) (convert : Token → Option (V target)),
            p.options[i]? = some o → o.action ≠ .value target convert :=
          fun i o convert ho haction => hoption ⟨i, o, convert, ho, haction⟩
        have hpositionals : ∀ (k : Nat) (q : PositionalSpec V), p.positionals[k]? = some q →
            q.target ≠ target :=
          fun k q hq htarget => hpositional ⟨k, q, hq, htarget⟩
        rw [ha.otherValues target hoptions hpositionals,
          hb.otherValues target hoptions hpositionals]
  obtain ⟨flag, value⟩ := a
  obtain ⟨flag', value'⟩ := b
  cases hflag
  cases hvalue
  rfl

/-! ## Units -/

namespace CliParser

/-- What whole units say. -/
def pieces (p : CliParser β V) (tokens : List Token) : List Piece :=
  (p.readTokens false tokens).1.map Match.piece

/-- A flag or a cluster, an option together with its value, or a positional. -/
def IsUnit (p : CliParser β V) (tokens : List Token) : Prop := ∃ ms, ReadsUnit p false tokens ms

end CliParser

/-- The units in another order, which keeps that of the positionals and that of the units that
mention the same option. -/
structure Reorders (p : CliParser β V) (us us' : List (List Token)) : Prop where
  perm : us.Perm us'
  positionals : (us.filter fun u => decide (texts (p.pieces u) ≠ [])) =
    us'.filter fun u => decide (texts (p.pieces u) ≠ [])
  options : ∀ i, (us.filter fun u => decide (i ∈ occurring (p.pieces u))) =
    us'.filter fun u => decide (i ∈ occurring (p.pieces u))

/-- A command line that is read consists of units, and then the terminator perhaps. -/
theorem ReadsAll.units {p : CliParser β V} {optionsEnded ended : Bool} {args : List Token}
    {ms : List (Match β V)} (h : ReadsAll p optionsEnded args ms ended)
    (hopen : optionsEnded = false) :
    ∃ (us : List (List Token)) (rest : List Token), args = us.flatten ++ rest ∧
      (∀ u ∈ us, p.IsUnit u) ∧ (rest = [] ∨ ∃ rest', rest = ['-', '-'] :: rest') := by
  induction h with
  | done => exact ⟨[], [], rfl, by simp, .inl rfl⟩
  | @unit optionsEnded ended tokens rest ms ms' hunit hrest ih =>
    obtain ⟨us, rest', hrest', hus, htail⟩ := ih hopen
    subst hopen
    refine ⟨tokens :: us, rest', ?_, List.forall_mem_cons.2 ⟨⟨ms, hunit⟩, hus⟩, htail⟩
    rw [hrest', List.flatten_cons, List.append_assoc]
  | @terminator ended rest ms hrest ih =>
    exact ⟨[], ['-', '-'] :: rest, rfl, by simp, .inr ⟨rest, rfl⟩⟩

theorem ReadsUnit.pieces_eq {p : CliParser β V} {tokens : List Token} {ms : List (Match β V)}
    (h : ReadsUnit p false tokens ms) : p.pieces tokens = ms.map Match.piece := by
  have happend := h.readTokens_append []
  rw [List.append_nil, CliParser.readTokens, List.append_nil] at happend
  rw [CliParser.pieces, happend]

/-- **A sequence of units** says what the units say. -/
theorem readsAll_flatten {p : CliParser β V} {us : List (List Token)}
    (hus : ∀ u ∈ us, p.IsUnit u) :
    ∃ ms, ReadsAll p false us.flatten ms false ∧ ms.map Match.piece = us.flatMap p.pieces := by
  induction us with
  | nil => exact ⟨[], .done, rfl⟩
  | cons u us ih =>
    obtain ⟨⟨ms, hunit⟩, hus⟩ := List.forall_mem_cons.1 hus
    obtain ⟨ms', hall, hpieces⟩ := ih hus
    refine ⟨ms ++ ms', .unit hunit hall, ?_⟩
    rw [List.map_append, hpieces, List.flatMap_cons, hunit.pieces_eq]

/-! ## Reordering -/

/-- Elements from which nothing comes may be left out. -/
theorem flatMap_filter_of_nil {α γ : Type*} {f : α → List γ} {P : α → Bool} {l : List α}
    (h : ∀ a ∈ l, f a ≠ [] → P a) : l.flatMap f = (l.filter P).flatMap f := by
  induction l with
  | nil => rfl
  | cons a l ih =>
    obtain ⟨ha, hl⟩ := List.forall_mem_cons.1 h
    rw [List.flatMap_cons, List.filter_cons, ih hl]
    split_ifs with hP
    · rw [List.flatMap_cons]
    · rw [not_not.1 (mt ha hP), List.nil_append]

theorem occurring_of_valueOf {i : Nat} {bs : List Piece}
    (h : bs.filterMap (Piece.valueOf? i) ≠ []) : i ∈ occurring bs := by
  obtain ⟨text, htext⟩ := List.exists_mem_of_ne_nil _ h
  obtain ⟨b, hb, hvalue⟩ := List.mem_filterMap.1 htext
  refine List.mem_filterMap.2 ⟨b, hb, ?_⟩
  cases b with
  | flag j => cases hvalue
  | value j text' =>
    simp only [Piece.valueOf?] at hvalue
    split_ifs at hvalue with hj
    rw [Piece.option?, hj]
  | positional text' => cases hvalue

/-- **A reordering says the same.** -/
theorem Reorders.saysSame {p : CliParser β V} {us us' : List (List Token)}
    (h : Reorders p us us') : SaysSame (us.flatMap p.pieces) (us'.flatMap p.pieces) where
  mem _ := (h.perm.flatMap_right p.pieces).mem_iff
  lastValue i := by
    have hkeep : ∀ us : List (List Token), (us.flatMap p.pieces).filterMap (Piece.valueOf? i) =
        (us.filter fun u => decide (i ∈ occurring (p.pieces u))).flatMap fun u =>
          (p.pieces u).filterMap (Piece.valueOf? i) := by
      intro us
      rw [List.filterMap_flatMap]
      exact flatMap_filter_of_nil fun u _ hne => decide_eq_true (occurring_of_valueOf hne)
    rw [lastValue, lastValue, hkeep, hkeep, h.options i]
  texts := by
    have hkeep : ∀ us : List (List Token), texts (us.flatMap p.pieces) =
        (us.filter fun u => decide (texts (p.pieces u) ≠ [])).flatMap fun u =>
          texts (p.pieces u) := by
      intro us
      rw [texts, List.filterMap_flatMap]
      exact flatMap_filter_of_nil fun u _ hne => decide_eq_true hne
    rw [hkeep, hkeep, h.positionals]

/-- **The order of the options does not matter.** -/
theorem parse_reorder [DecidableEq β] [DecidableEq κ] {p : CliParser β V} (hown : OwnVariables p)
    (args : List Token) (vars : Variables β V) (hok : (p.parse args vars).1 = .success) :
    (∃ (us : List (List Token)) (rest : List Token), args = us.flatten ++ rest ∧
      (∀ u ∈ us, p.IsUnit u) ∧ (rest = [] ∨ ∃ rest', rest = ['-', '-'] :: rest')) ∧
    ∀ us us' : List (List Token), args = us.flatten → (∀ u ∈ us, p.IsUnit u) → Reorders p us us' →
      (p.parse us'.flatten vars).1 = .success ∧
        (p.parse us'.flatten vars).2.vars = (p.parse args vars).2.vars := by
  obtain ⟨ms, ended, hall⟩ := readsAll_of_success hok
  refine ⟨hall.units rfl, ?_⟩
  rintro us us' rfl hus hreorders
  have hus' : ∀ u ∈ us', p.IsUnit u := fun u hu => hus u (hreorders.perm.mem_iff.2 hu)
  obtain ⟨ms₁, hms₁, hpieces₁⟩ := readsAll_flatten hus
  obtain ⟨ms₂, hms₂, hpieces₂⟩ := readsAll_flatten hus'
  obtain ⟨hiff₁, hbound₁⟩ := hms₁.parse_success hown vars
  obtain ⟨hiff₂, hbound₂⟩ := hms₂.parse_success hown vars
  rw [hpieces₁] at hiff₁ hbound₁
  rw [hpieces₂] at hiff₂ hbound₂
  obtain ⟨hconv, hrequired⟩ := hiff₁.1 hok
  have hsame := hreorders.saysSame
  have hok₂ := hiff₂.2 ⟨hconv.congr hsame, hrequired.congr hsame⟩
  exact ⟨hok₂, (hbound₂ hok₂).unique ((hbound₁ hok).congr hsame)⟩

/-- `-v --count 12 in`, by units. -/
def copyUnits : List (List Token) :=
  [["-v".toList], ["--count".toList, "12".toList], ["in".toList]]

theorem isUnit_copyUnits : ∀ u ∈ copyUnits, copyParser.IsUnit u := by
  have hflag : copyParser.IsUnit ["-v".toList] := ⟨_, .token (by decide) rfl⟩
  have hoption : copyParser.IsUnit ["--count".toList, "12".toList] :=
    ⟨_, .withValue (by decide) rfl⟩
  have hpositional : copyParser.IsUnit ["in".toList] := ⟨_, .token (by decide) rfl⟩
  intro u hu
  rcases hu with _ | ⟨_, _ | ⟨_, _ | ⟨_, hu⟩⟩⟩
  · exact hflag
  · exact hoption
  · exact hpositional
  · cases hu

theorem reorders_copyUnits : Reorders copyParser copyUnits copyUnits.reverse where
  perm := copyUnits.reverse_perm.symm
  positionals := by decide +kernel
  options i := by
    have hoptions : ∀ u ∈ copyUnits, ∀ j ∈ occurring (copyParser.pieces u), j = 1 ∨ j = 2 := by
      decide +kernel
    by_cases hone : i = 1
    · subst hone
      decide +kernel
    · by_cases htwo : i = 2
      · subst htwo
        decide +kernel
      · have hnone : ∀ u ∈ copyUnits, ¬ decide (i ∈ occurring (copyParser.pieces u)) := by
          intro u hu hmem
          rcases hoptions u hu i (of_decide_eq_true hmem) with hi | hi
          · exact hone hi
          · exact htwo hi
        rw [List.filter_reverse, List.filter_eq_nil_iff.2 hnone, List.reverse_nil]

/-- `in --count 12 -v` is `-v --count 12 in`. -/
theorem parse_reorder_copyParser :
    (copyParser.parse copyUnits.reverse.flatten copyVars).1 = .success ∧
      (copyParser.parse copyUnits.reverse.flatten copyVars).2.vars =
        (copyParser.parse copyUnits.flatten copyVars).2.vars :=
  (parse_reorder ownVariables_copyParser copyUnits.flatten copyVars (by decide +kernel)).2
    copyUnits copyUnits.reverse rfl isUnit_copyUnits reorders_copyUnits

end EglUtil.Cli
