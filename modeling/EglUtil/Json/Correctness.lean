import EglUtil.Json.Events
import EglUtil.Json.Soundness
import EglUtil.Json.Completeness

/-!
# The parser and the grammar

**Theorem (`accepts_iff_document`).** A source is accepted just when it is a document that is
nested no deeper than allowed; every other source is rejected. The events delivered are those of
its tree, and it has only one.

**Theorem (`rejects_viable`).** Where a source is rejected, the bytes before the error's offset can
be completed to a document that is accepted, and the events delivered are the first events of that
document.

Soundness is the step lemma `next_outcome`, carried along a run by `Stands`. A run comes to an end
because each event costs a byte of the source.
-/

namespace EglUtil

namespace Json

open Transition

section Runs

variable {maxDepth : Nat} {s : Bytes} {p p' : JsonParser} {es fs : List JsonEvent}

theorem pull_eq_some {e : JsonEvent} :
    pull maxDepth p e = some p' ↔ p.next maxDepth = (e, p') ∧ e.proceeds = true := by
  unfold pull
  constructor
  · intro h
    split at h
    next hc =>
      cases h
      exact ⟨Prod.ext hc.1 rfl, hc.2⟩
    next => cases h
  · rintro ⟨hnext, he⟩
    rw [hnext]
    exact if_pos ⟨rfl, he⟩

/-! ## Standing on the text, along a run -/

theorem stands_create (maxDepth : Nat) (s : Bytes) :
    Stands maxDepth s [] (.slot []) (.create s) :=
  ⟨⟨[], s, rfl, rfl, at_zero s, .start⟩, rfl, .start⟩

theorem stands_pull {q : Point} {e : JsonEvent} (h : Stands maxDepth s es q p)
    (hpull : pull maxDepth p e = some p') : ∃ q', Stands maxDepth s (es ++ [e]) q' p' := by
  obtain ⟨hnext, he⟩ := pull_eq_some.1 hpull
  have hout := next_outcome h
  rw [hnext] at hout
  cases hout with
  | event _ h => exact ⟨_, h⟩
  | error _ _ => cases he
  | «end» _ _ _ => cases he

theorem stands_run {q : Point} (h : Stands maxDepth s es q p)
    (hrun : run (pull maxDepth) p fs = some p') : ∃ q', Stands maxDepth s (es ++ fs) q' p' := by
  induction fs generalizing es q p with
  | nil =>
    cases hrun
    exact ⟨q, by rwa [List.append_nil]⟩
  | cons e fs ih =>
    obtain ⟨p₁, hpull, hrest⟩ := (run_cons_eq_some _).1 hrun
    obtain ⟨q₁, h₁⟩ := stands_pull h hpull
    obtain ⟨q₂, h₂⟩ := ih h₁ hrest
    exact ⟨q₂, by rwa [List.append_assoc] at h₂⟩

theorem stands_of_run (h : run (pull maxDepth) (.create s) es = some p) :
    ∃ q, Stands maxDepth s es q p :=
  stands_run (stands_create maxDepth s) h

theorem Stands.length_le {q : Point} (h : Stands maxDepth s es q p) : es.length ≤ s.length := by
  obtain ⟨before, rest, hcursor⟩ := h.cursor
  rw [← h.events]
  refine Nat.le_trans hcursor.reads.length_events_le ?_
  rw [← hcursor.split.pos_eq]
  exact hcursor.split.le

/-! ## The end of a run -/

/-- The next call ends the run. -/
def Stops (maxDepth : Nat) (p : JsonParser) : Prop := (p.next maxDepth).1.proceeds = false

theorem run_unique {p₁ p₂ : JsonParser} (h₁ : run (pull maxDepth) p es = some p₁)
    (hs₁ : Stops maxDepth p₁) (h₂ : run (pull maxDepth) p fs = some p₂) (hs₂ : Stops maxDepth p₂) :
    es = fs ∧ p₁ = p₂ := by
  have stopped {p p' : JsonParser} {e : JsonEvent} (hs : Stops maxDepth p)
      (hpull : pull maxDepth p e = some p') : False := by
    obtain ⟨hnext, he⟩ := pull_eq_some.1 hpull
    rw [Stops, hnext, he] at hs
    cases hs
  induction es generalizing p fs with
  | nil =>
    cases h₁
    cases fs with
    | nil =>
      cases h₂
      exact ⟨rfl, rfl⟩
    | cons f fs =>
      obtain ⟨p', hpull, -⟩ := (run_cons_eq_some _).1 h₂
      exact (stopped hs₁ hpull).elim
  | cons e es ih =>
    obtain ⟨p', hpull, hrest⟩ := (run_cons_eq_some _).1 h₁
    cases fs with
    | nil =>
      cases h₂
      exact (stopped hs₂ hpull).elim
    | cons f fs =>
      obtain ⟨p'', hpull', hrest'⟩ := (run_cons_eq_some _).1 h₂
      obtain ⟨hnext, -⟩ := pull_eq_some.1 hpull
      obtain ⟨hnext', -⟩ := pull_eq_some.1 hpull'
      obtain ⟨rfl, rfl⟩ := Prod.mk.inj (hnext.symm.trans hnext')
      obtain ⟨rfl, rfl⟩ := ih hrest hrest'
      exact ⟨rfl, rfl⟩

/-- A run delivers no more events than there are bytes, so it comes to an end. -/
theorem stands_total {n : Nat} {q : Point} (hn : s.length < es.length + n)
    (h : Stands maxDepth s es q p) (hrun : run (pull maxDepth) (.create s) es = some p) :
    (∃ es, Accepts maxDepth s es) ∨ ∃ es offset, Rejects maxDepth s es offset := by
  induction n generalizing es p q with
  | zero => exact absurd h.length_le (Nat.not_le_of_lt hn)
  | succ n ih =>
    have hout := next_outcome h
    generalize hr : p.next maxDepth = r at hout
    cases hout with
    | @event e q' p' he h' =>
      have hpull : pull maxDepth p e = some p' := pull_eq_some.2 ⟨hr, he⟩
      refine ih ?_ h' ?_
      · rw [List.length_append, List.length_singleton]
        omega
      · rw [run_append, hrun, Option.bind_some, run_cons, hpull]
        rfl
    | error _ _ => exact .inr ⟨es, _, p, hrun, by rw [hr], rfl⟩
    | «end» _ _ _ => exact .inl ⟨es, p, hrun, by rw [hr]⟩

theorem accepts_or_rejects (maxDepth : Nat) (s : Bytes) :
    (∃ es, Accepts maxDepth s es) ∨ ∃ es offset, Rejects maxDepth s es offset :=
  stands_total (n := s.length + 1) (by simp) (stands_create maxDepth s) rfl

theorem not_proceeds_of_end {e : JsonEvent} (h : e.type = .end) : e.proceeds = false := by
  rw [JsonEvent.proceeds, h]
  rfl

theorem not_proceeds_of_error {e : JsonEvent} (h : e.type = .error) : e.proceeds = false := by
  rw [JsonEvent.proceeds, h]
  rfl

theorem Accepts.document (h : Accepts maxDepth s es) :
    ∃ v, Document v s ∧ v.depth ≤ maxDepth ∧ v.events = es := by
  obtain ⟨p, hrun, hend⟩ := h
  obtain ⟨q, hstands⟩ := stands_of_run hrun
  have hout := next_outcome hstands
  generalize p.next maxDepth = r at hout hend
  cases hout with
  | event he _ => exact absurd he (by rw [not_proceeds_of_end hend]; decide)
  | error _ _ => cases hend
  | «end» hdoc hd hes => exact ⟨_, hdoc, hd, hes⟩

theorem Rejects.completable {offset : Nat} (h : Rejects maxDepth s es offset) :
    offset ≤ s.length ∧ Completable maxDepth (s.take offset) es := by
  obtain ⟨p, hrun, herror, rfl⟩ := h
  obtain ⟨q, hstands⟩ := stands_of_run hrun
  have hout := next_outcome hstands
  generalize p.next maxDepth = r at hout herror
  cases hout with
  | event he _ => exact absurd he (by rw [not_proceeds_of_error herror]; decide)
  | error hle hc => exact ⟨hle, hc⟩
  | «end» _ _ _ => cases herror

theorem Accepts.unique (h : Accepts maxDepth s es) (h' : Accepts maxDepth s fs) : es = fs := by
  obtain ⟨p, hrun, hend⟩ := h
  obtain ⟨p', hrun', hend'⟩ := h'
  exact (run_unique hrun (not_proceeds_of_end hend) hrun' (not_proceeds_of_end hend')).1

theorem Accepts.not_rejects {offset : Nat} (h : Accepts maxDepth s es) :
    ¬ Rejects maxDepth s fs offset := by
  rintro ⟨p', hrun', herror, -⟩
  obtain ⟨p, hrun, hend⟩ := h
  obtain ⟨-, rfl⟩ := run_unique hrun (not_proceeds_of_end hend) hrun' (not_proceeds_of_error herror)
  rw [hend] at herror
  cases herror

end Runs

/-! ## The parser and the grammar -/

/-- A text has one tree: with enough levels allowed, the parser delivers the events of each. -/
theorem Document.unique {v v' : Value} {s : Bytes} (h : Document v s) (h' : Document v' s) :
    v = v' := by
  have hv := h.accepts (Nat.le_max_left v.depth v'.depth)
  have hv' := h'.accepts (Nat.le_max_right v.depth v'.depth)
  exact events_injective (hv.unique hv')

/-- **The parser decides the grammar.** -/
theorem accepts_iff_document (maxDepth : Nat) (s : Bytes) :
    ((∃ es, Accepts maxDepth s es) ↔ ∃ v, Document v s ∧ v.depth ≤ maxDepth) ∧
    ((∃ es offset, Rejects maxDepth s es offset) ↔ ¬ ∃ v, Document v s ∧ v.depth ≤ maxDepth) ∧
    ∀ es, Accepts maxDepth s es →
      ∃ v, Document v s ∧ v.events = es ∧ ∀ u, Document u s → u = v := by
  have haccepts : (∃ es, Accepts maxDepth s es) ↔ ∃ v, Document v s ∧ v.depth ≤ maxDepth := by
    constructor
    · rintro ⟨es, h⟩
      obtain ⟨v, hdoc, hd, -⟩ := h.document
      exact ⟨v, hdoc, hd⟩
    · rintro ⟨v, hdoc, hd⟩
      exact ⟨v.events, hdoc.accepts hd⟩
  refine ⟨haccepts, ?_, ?_⟩
  · rw [← haccepts]
    constructor
    · rintro ⟨es, offset, hrejects⟩ ⟨fs, h⟩
      exact h.not_rejects hrejects
    · intro h
      exact (accepts_or_rejects maxDepth s).resolve_left h
  · intro es h
    obtain ⟨v, hdoc, -, hes⟩ := h.document
    exact ⟨v, hdoc, hes, fun u hu => hu.unique hdoc⟩

/-- **Viable prefixes.** -/
theorem rejects_viable {maxDepth : Nat} {s : Bytes} {es : List JsonEvent} {offset : Nat}
    (h : Rejects maxDepth s es offset) :
    offset ≤ s.length ∧ (∃ d fs, Accepts maxDepth d (es ++ fs) ∧ s.take offset <+: d) ∧
      WellNested es := by
  obtain ⟨hle, t, v, hdoc, hd, hes⟩ := h.completable
  refine ⟨hle, ?_, wellNested_of_prefix hes⟩
  obtain ⟨fs, hfs⟩ := hes
  refine ⟨s.take offset ++ t, fs, ?_, List.prefix_append _ _⟩
  rw [hfs]
  exact hdoc.accepts hd

/-- The text `[1, 2, x]`. -/
def badElement : Bytes := [0x5B, 0x31, 0x2C, 0x20, 0x32, 0x2C, 0x20, 0x78, 0x5D]

/-- What is delivered of it. -/
def badElementEvents : List JsonEvent :=
  [⟨.beginArray, []⟩, ⟨.number, [0x31]⟩, ⟨.number, [0x32]⟩]

theorem rejects_viable_badElement :
    Rejects 64 badElement badElementEvents 7 ∧
      (∃ d fs, Accepts 64 d (badElementEvents ++ fs) ∧ badElement.take 7 <+: d) ∧
      WellNested badElementEvents := by
  have hrejects : Rejects 64 badElement badElementEvents 7 := ⟨_, rfl, rfl, rfl⟩
  exact ⟨hrejects, (rejects_viable hrejects).2⟩

end Json

end EglUtil
