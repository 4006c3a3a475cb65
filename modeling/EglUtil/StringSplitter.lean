import EglUtil.Lib.Splitting
import Mathlib.Data.List.Nodup

/-!
# `StringSplitter`

An iterator has the token it stands at as a view of the text, and the cursor behind the delimiter
that ends it. Two iterators are compared by pointer and length of their tokens.

**Theorem (`splits`).** From `begin()` to `end()` there are as many tokens as the delimiter has
leftmost occurrences, and one more. They are the fields between the occurrences, slices of the
text one behind the other. Iterators of a splitter are equal if they were advanced equally often,
or are both past the end.

The tokens that an iterator has before it depend on its cursor alone (`Slices`). A delimiter that
is not empty moves the cursor, so there are finitely many, and no two begin at one place, which is
why the comparison is right even for empty tokens.
-/

namespace EglUtil.StringSplitter

open Splitting

/-! ## Views of a text -/

/-- A `std::string_view` into the text: `data()` is `offset` characters behind its beginning. -/
@[ext]
structure View where
  offset : Nat
  size : Nat
deriving Repr, DecidableEq

def View.chars (text : List Char) (v : View) : List Char := (text.drop v.offset).take v.size

/-- `text.substr(pos, count)`, which throws if `pos` is past the end. -/
def substr (text : List Char) (pos count : Nat) : Option View :=
  if pos ≤ text.length then some ⟨pos, min count (text.length - pos)⟩ else none

/-- `text.find(delimiter, pos)`, or `npos`. -/
def find (text delimiter : List Char) (pos : Nat) : Option Nat :=
  (List.range' pos (text.length + 1 - pos)).find? fun i => delimiter.isPrefixOf (text.drop i)

/-! ## The iterator -/

structure Iterator where
  text : List Char
  delimiter : List Char
  current : View
  cursor : Nat
  final : Bool
  done : Bool
deriving Repr, DecidableEq

/-- `end()` -/
def Iterator.pastTheEnd : Iterator := ⟨[], [], ⟨0, 0⟩, 0, false, true⟩

/-- None if `substr` throws. -/
def Iterator.advance (it : Iterator) : Option Iterator :=
  if it.final then some { it with done := true, current := ⟨0, 0⟩ }
  else
    match find it.text it.delimiter it.cursor with
    | none =>
      (substr it.text it.cursor it.text.length).map fun v => { it with current := v, final := true }
    | some pos =>
      (substr it.text it.cursor (pos - it.cursor)).map fun v =>
        { it with current := v, cursor := pos + it.delimiter.length }

/-- `operator==`, for iterators of one text -/
def Iterator.equals (it other : Iterator) : Bool :=
  if it.done || other.done then it.done && other.done
  else it.current.offset == other.current.offset && it.current.size == other.current.size

/-- `begin()` -/
def start (text delimiter : List Char) : Option Iterator :=
  Iterator.advance ⟨text, delimiter, ⟨0, 0⟩, 0, false, false⟩

/-- `begin()`, advanced so often. -/
def position (text delimiter : List Char) : Nat → Option Iterator
  | 0 => start text delimiter
  | n + 1 => (position text delimiter n).bind Iterator.advance

/-- The tokens that a loop up to `end()` visits, in at most `fuel` steps. -/
def Iterator.collect : Nat → Iterator → Option (List View)
  | 0, _ => none
  | fuel + 1, it =>
    if it.equals .pastTheEnd then some []
    else it.advance.bind fun next => (next.collect fuel).map fun views => it.current :: views

def collect (fuel : Nat) (text delimiter : List Char) : Option (List View) :=
  (start text delimiter).bind (Iterator.collect fuel)

/-! ## Searching -/

variable {text delimiter : List Char} {cursor pos : Nat} {v : View} {views : List View}

theorem find_eq_some (h : find text delimiter cursor = some pos) :
    cursor ≤ pos ∧ pos ≤ text.length ∧ delimiter <+: text.drop pos ∧
      ∀ i, cursor ≤ i → i < pos → ¬ delimiter <+: text.drop i := by
  obtain ⟨hbegins, hmem, hbefore⟩ := List.find?_range'_eq_some.1 h
  obtain ⟨hle, hlt⟩ := List.mem_range'_1.1 hmem
  refine ⟨hle, by omega, List.isPrefixOf_iff_prefix.1 hbegins, ?_⟩
  intro i hle hlt hi
  have hnot := hbefore i hle hlt
  rw [List.isPrefixOf_iff_prefix.2 hi] at hnot
  cases hnot

theorem find_eq_none (h : find text delimiter cursor = none) {i : Nat} (hle : cursor ≤ i)
    (hi : i ≤ text.length) : ¬ delimiter <+: text.drop i := by
  intro hbegins
  have hnot := List.find?_range'_eq_none.1 h i hle (by omega)
  rw [List.isPrefixOf_iff_prefix.2 hbegins] at hnot
  cases hnot

/-! ## Slices -/

/-- The tokens that are cut off from a cursor on. -/
inductive Slices (text delimiter : List Char) : Nat → List View → Prop where
  | last {cursor : Nat} (hle : cursor ≤ text.length) (h : find text delimiter cursor = none) :
    Slices text delimiter cursor [⟨cursor, text.length - cursor⟩]
  | cut {cursor pos : Nat} {views : List View} (h : find text delimiter cursor = some pos)
    (hrest : Slices text delimiter (pos + delimiter.length) views) :
    Slices text delimiter cursor (⟨cursor, pos - cursor⟩ :: views)

/-- The delimiter that was found is in the text. -/
theorem find_add_le (hne : delimiter ≠ []) (h : find text delimiter cursor = some pos) :
    pos + delimiter.length ≤ text.length := by
  obtain ⟨-, -, hbegins, -⟩ := find_eq_some h
  have hlength := hbegins.length_le
  have hpos := List.length_pos_iff.2 hne
  rw [List.length_drop] at hlength
  omega

/-- The cursor moves on, so there is an end. -/
theorem exists_slices (hne : delimiter ≠ []) (hle : cursor ≤ text.length) :
    ∃ views, Slices text delimiter cursor views := by
  induction hn : text.length - cursor using Nat.strong_induction_on generalizing cursor with
  | _ n ih =>
    cases hfind : find text delimiter cursor with
    | none => exact ⟨_, .last hle hfind⟩
    | some pos =>
      have hcursor := (find_eq_some hfind).1
      have hend := find_add_le hne hfind
      have hpos := List.length_pos_iff.2 hne
      obtain ⟨views, hviews⟩ := ih _ (by omega) hend rfl
      exact ⟨_, .cut hfind hviews⟩

theorem Slices.ne_nil (h : Slices text delimiter cursor views) : views ≠ [] := by
  cases h <;> exact List.cons_ne_nil _ _

/-- The text from the cursor on is the token, the delimiter and the rest. -/
theorem drop_eq_of_find (h : find text delimiter cursor = some pos) :
    text.drop cursor = View.chars text ⟨cursor, pos - cursor⟩ ++
      (delimiter ++ text.drop (pos + delimiter.length)) := by
  obtain ⟨hle, -, ⟨rest, hrest⟩, -⟩ := find_eq_some h
  have hbehind : text.drop (pos + delimiter.length) = rest := by
    rw [← List.drop_drop, ← hrest, List.drop_left]
  have hpos : text.drop pos = (text.drop cursor).drop (pos - cursor) := by
    rw [List.drop_drop, Nat.add_sub_of_le hle]
  rw [hbehind, hrest, hpos, View.chars, List.take_append_drop]

/-- **The tokens are the fields.** -/
theorem Slices.fields (hne : delimiter ≠ []) (h : Slices text delimiter cursor views) :
    Fields delimiter (text.drop cursor) (views.map (View.chars text)) := by
  induction h with
  | @last cursor hle h =>
    have hchars : View.chars text ⟨cursor, text.length - cursor⟩ = text.drop cursor := by
      rw [View.chars, ← List.length_drop, List.take_length]
    rw [List.map_singleton, hchars]
    refine .last fun i hi => ?_
    rw [List.length_drop] at hi
    rw [List.drop_drop]
    exact find_eq_none h (Nat.le_add_right _ _) (by omega)
  | @cut cursor pos views h hrest ih =>
    obtain ⟨hle, -, -, hbefore⟩ := find_eq_some h
    have hend := find_add_le hne h
    have hlength : (View.chars text ⟨cursor, pos - cursor⟩).length = pos - cursor := by
      simp only [View.chars, List.length_take, List.length_drop]
      exact Nat.min_eq_left (by omega)
    rw [drop_eq_of_find h]
    refine .cut (fun i hi => ?_) ih
    rw [hlength] at hi
    rw [← drop_eq_of_find h, List.drop_drop]
    exact hbefore _ (Nat.le_add_right _ _) (by omega)

/-- One slice behind the other, with a delimiter between them, up to the end of the text. -/
def Consecutive (text delimiter : List Char) : Nat → List View → Prop
  | _, [] => False
  | offset, [v] => v.offset = offset ∧ v.offset + v.size = text.length
  | offset, v :: w :: views =>
    v.offset = offset ∧
      Consecutive text delimiter (v.offset + v.size + delimiter.length) (w :: views)

theorem Slices.consecutive (h : Slices text delimiter cursor views) :
    Consecutive text delimiter cursor views := by
  induction h with
  | last hle h => exact ⟨rfl, Nat.add_sub_of_le hle⟩
  | @cut cursor pos views h hrest ih =>
    obtain ⟨w, views, rfl⟩ := List.exists_cons_of_ne_nil hrest.ne_nil
    refine ⟨rfl, ?_⟩
    rw [Nat.add_sub_of_le (find_eq_some h).1]
    exact ih

theorem Slices.le_offset (h : Slices text delimiter cursor views) :
    ∀ v ∈ views, cursor ≤ v.offset := by
  induction h with
  | last hle h =>
    intro v hv
    rw [List.mem_singleton.1 hv]
  | cut h hrest ih =>
    have hle := (find_eq_some h).1
    refine List.forall_mem_cons.2 ⟨Nat.le_refl _, fun v hv => ?_⟩
    have hv := ih v hv
    omega

theorem Slices.increasing (hne : delimiter ≠ []) (h : Slices text delimiter cursor views) :
    views.Pairwise fun v w => v.offset < w.offset := by
  induction h with
  | last hle h => exact List.pairwise_singleton _ _
  | cut h hrest ih =>
    have hle := (find_eq_some h).1
    have hpos := List.length_pos_iff.2 hne
    refine List.pairwise_cons.2 ⟨fun w hw => ?_, ih⟩
    have hw := hrest.le_offset w hw
    dsimp only
    omega

/-! ## The iterator at a token -/

/-- The iterator stands at a token, and these follow. -/
structure Shows (text delimiter : List Char) (it : Iterator) (v : View) (views : List View) :
    Prop where
  text_eq : it.text = text
  delimiter_eq : it.delimiter = delimiter
  current_eq : it.current = v
  not_done : it.done = false
  ahead : it.final = true ∧ views = [] ∨
    it.final = false ∧ Slices text delimiter it.cursor views

/-- Cutting off a token. -/
theorem advance_slices {it : Iterator} (htext : it.text = text)
    (hdelimiter : it.delimiter = delimiter) (hdone : it.done = false) (hfinal : it.final = false)
    (h : Slices text delimiter it.cursor (v :: views)) :
    ∃ it', it.advance = some it' ∧ Shows text delimiter it' v views := by
  generalize hcursor : it.cursor = cursor at h
  rw [Iterator.advance, if_neg (by rw [hfinal]; exact Bool.false_ne_true), htext, hdelimiter,
    hcursor]
  cases h with
  | last hle h =>
    rw [h, substr, if_pos hle]
    refine ⟨_, rfl, rfl, rfl, ?_, hdone, .inl ⟨rfl, rfl⟩⟩
    simp
  | @cut _ pos _ h hrest =>
    obtain ⟨hle, hpos, -⟩ := find_eq_some h
    have hsubstr : substr text cursor (pos - cursor) = some ⟨cursor, pos - cursor⟩ := by
      rw [substr, if_pos (Nat.le_trans hle hpos), Nat.min_eq_left (by omega)]
    simp only [h, hsubstr, Option.map_some]
    exact ⟨_, rfl, rfl, rfl, rfl, hdone, .inr ⟨hfinal, hrest⟩⟩

theorem start_shows (h : Slices text delimiter 0 (v :: views)) :
    ∃ it, start text delimiter = some it ∧ Shows text delimiter it v views :=
  advance_slices rfl rfl rfl rfl h

theorem Shows.advance_cons {it : Iterator} {w : View}
    (h : Shows text delimiter it v (w :: views)) :
    ∃ it', it.advance = some it' ∧ Shows text delimiter it' w views := by
  rcases h.ahead with ⟨-, hnil⟩ | ⟨hfinal, hslices⟩
  · cases hnil
  · exact advance_slices h.text_eq h.delimiter_eq h.not_done hfinal hslices

/-- Past the end, where advancing changes nothing. -/
def Past (it : Iterator) : Prop := it.final = true ∧ it.done = true

theorem Shows.advance_nil {it : Iterator} (h : Shows text delimiter it v []) :
    ∃ it', it.advance = some it' ∧ Past it' := by
  rcases h.ahead with ⟨hfinal, -⟩ | ⟨-, hslices⟩
  · rw [Iterator.advance, if_pos hfinal]
    exact ⟨_, rfl, hfinal, rfl⟩
  · exact absurd rfl hslices.ne_nil

theorem Past.advance {it : Iterator} (h : Past it) : ∃ it', it.advance = some it' ∧ Past it' := by
  rw [Iterator.advance, if_pos h.1]
  exact ⟨_, rfl, h.1, rfl⟩

/-- The iterator that was advanced so often stands at the token of that number. -/
theorem position_shows (hslices : Slices text delimiter 0 views) (n : Nat) :
    ∃ it, position text delimiter n = some it ∧
      ((∃ v, views[n]? = some v ∧ Shows text delimiter it v (views.drop (n + 1))) ∨
        views.length ≤ n ∧ Past it) := by
  induction n with
  | zero =>
    obtain ⟨v, views, rfl⟩ := List.exists_cons_of_ne_nil hslices.ne_nil
    obtain ⟨it, hstart, hshows⟩ := start_shows hslices
    exact ⟨it, hstart, .inl ⟨v, rfl, hshows⟩⟩
  | succ n ih =>
    obtain ⟨it, hposition, ⟨v, hv, hshows⟩ | ⟨hle, hpast⟩⟩ := ih
    · rw [position, hposition, Option.bind_some]
      cases hrest : views.drop (n + 1) with
      | nil =>
        rw [hrest] at hshows
        obtain ⟨it', hadvance, hpast⟩ := hshows.advance_nil
        exact ⟨it', hadvance, .inr ⟨List.drop_eq_nil_iff.1 hrest, hpast⟩⟩
      | cons w rest =>
        rw [hrest] at hshows
        obtain ⟨it', hadvance, hshows'⟩ := hshows.advance_cons
        have hw : views[n + 1]? = some w := by
          rw [← List.head?_drop, hrest]
          rfl
        have hbehind : views.drop (n + 1 + 1) = rest := by
          rw [← List.tail_drop, hrest]
          rfl
        exact ⟨it', hadvance, .inl ⟨w, hw, by rwa [hbehind]⟩⟩
    · obtain ⟨it', hadvance, hpast'⟩ := hpast.advance
      rw [position, hposition, Option.bind_some]
      exact ⟨it', hadvance, .inr ⟨Nat.le_succ_of_le hle, hpast'⟩⟩

theorem Past.equals_pastTheEnd {it : Iterator} (h : Past it) :
    it.equals .pastTheEnd = true := by
  simp [Iterator.equals, Iterator.pastTheEnd, h.2]

theorem Shows.equals_pastTheEnd {it : Iterator} (h : Shows text delimiter it v views) :
    ¬ it.equals .pastTheEnd = true := by
  simp [Iterator.equals, Iterator.pastTheEnd, h.not_done]

theorem Past.collect {it : Iterator} (h : Past it) (fuel : Nat) :
    it.collect (fuel + 1) = some [] := by
  rw [Iterator.collect, if_pos h.equals_pastTheEnd]

/-- A loop visits the token and what follows. -/
theorem Shows.collect {it : Iterator} (h : Shows text delimiter it v views) {fuel : Nat}
    (hfuel : views.length + 1 < fuel) : it.collect fuel = some (v :: views) := by
  induction views generalizing it v fuel with
  | nil =>
    obtain ⟨fuel, rfl⟩ : ∃ n, fuel = n + 2 := ⟨fuel - 2, by simp at hfuel; omega⟩
    obtain ⟨it', hadvance, hpast⟩ := h.advance_nil
    rw [Iterator.collect, if_neg h.equals_pastTheEnd, hadvance, Option.bind_some,
      hpast.collect, h.current_eq]
    rfl
  | cons w views ih =>
    obtain ⟨fuel, rfl⟩ : ∃ n, fuel = n + 1 := ⟨fuel - 1, by omega⟩
    obtain ⟨it', hadvance, hshows⟩ := h.advance_cons
    have hrest := ih hshows (Nat.lt_of_succ_lt_succ hfuel)
    rw [Iterator.collect, if_neg h.equals_pastTheEnd, hadvance, Option.bind_some, hrest,
      h.current_eq]
    rfl

/-! ## Comparing iterators -/

theorem Slices.nodup (hne : delimiter ≠ []) (h : Slices text delimiter cursor views) :
    views.Nodup := by
  refine (h.increasing hne).imp fun {v w} hlt heq => ?_
  rw [heq] at hlt
  exact Nat.lt_irrefl _ hlt

theorem Shows.equals_iff {it it' : Iterator} {v' : View} {views' : List View}
    (h : Shows text delimiter it v views) (h' : Shows text delimiter it' v' views') :
    it.equals it' = true ↔ v = v' := by
  simp [Iterator.equals, h.not_done, h'.not_done, h.current_eq, h'.current_eq, View.ext_iff]

/-- Tokens in different places begin at different places. -/
theorem Slices.equals_iff (hne : delimiter ≠ []) (hslices : Slices text delimiter 0 views)
    {m n : Nat} {it it' : Iterator} (hm : position text delimiter m = some it)
    (hn : position text delimiter n = some it') :
    it.equals it' = true ↔ m = n ∨ views.length ≤ m ∧ views.length ≤ n := by
  obtain ⟨it₁, h₁, hshows₁⟩ := position_shows hslices m
  obtain ⟨it₂, h₂, hshows₂⟩ := position_shows hslices n
  obtain rfl := Option.some.inj (h₁.symm.trans hm)
  obtain rfl := Option.some.inj (h₂.symm.trans hn)
  rcases hshows₁ with ⟨v, hv, hv'⟩ | ⟨hle₁, hpast₁⟩
  · obtain ⟨hlt₁, rfl⟩ := List.getElem?_eq_some_iff.1 hv
    rcases hshows₂ with ⟨w, hw, hw'⟩ | ⟨hle₂, hpast₂⟩
    · obtain ⟨hlt₂, rfl⟩ := List.getElem?_eq_some_iff.1 hw
      rw [hv'.equals_iff hw', (hslices.nodup hne).getElem_inj_iff]
      omega
    · have hequals : ¬ it₁.equals it₂ = true := by
        simp [Iterator.equals, hv'.not_done, hpast₂.2]
      exact iff_of_false hequals (by omega)
  · rcases hshows₂ with ⟨w, hw, hw'⟩ | ⟨hle₂, hpast₂⟩
    · obtain ⟨hlt₂, rfl⟩ := List.getElem?_eq_some_iff.1 hw
      have hequals : ¬ it₁.equals it₂ = true := by
        simp [Iterator.equals, hw'.not_done, hpast₁.2]
      exact iff_of_false hequals (by omega)
    · have hequals : it₁.equals it₂ = true := by
        simp [Iterator.equals, hpast₁.2, hpast₂.2]
      exact iff_of_true hequals (.inr ⟨hle₁, hle₂⟩)

/-- **The splitter is faithful and terminates.** With a delimiter that is not empty, a loop from
`begin()` ends, and visits one token more than there are occurrences. The tokens with the delimiter
between them are the text, and none contains it. They are slices one behind the other, at
increasing offsets. An iterator that was advanced `n` times is `end()` when all were visited, and
two are equal when they were advanced equally often, or both to the end. -/
theorem splits (text : List Char) {delimiter : List Char} (hne : delimiter ≠ []) :
    ∃ views, (∀ fuel, views.length < fuel → collect fuel text delimiter = some views) ∧
      views.length = occurrences delimiter text + 1 ∧
      delimiter.intercalate (views.map (View.chars text)) = text ∧
      (∀ v ∈ views, ¬ delimiter <:+: v.chars text) ∧
      Consecutive text delimiter 0 views ∧
      (views.Pairwise fun v w => v.offset < w.offset) ∧
      ∀ n, ∃ it, position text delimiter n = some it ∧
        (it.equals .pastTheEnd = true ↔ views.length ≤ n) ∧
        ∀ m it', position text delimiter m = some it' →
          (it.equals it' = true ↔ n = m ∨ views.length ≤ n ∧ views.length ≤ m) := by
  obtain ⟨views, hslices⟩ := exists_slices hne (Nat.zero_le text.length)
  have hfields : Fields delimiter text (views.map (View.chars text)) := hslices.fields hne
  refine ⟨views, ?_, ?_, hfields.intercalate, ?_, hslices.consecutive, hslices.increasing hne, ?_⟩
  · intro fuel hfuel
    obtain ⟨v, views, rfl⟩ := List.exists_cons_of_ne_nil hslices.ne_nil
    obtain ⟨it, hstart, hshows⟩ := start_shows hslices
    rw [collect, hstart, Option.bind_some]
    exact hshows.collect hfuel
  · rw [← hfields.length hne, List.length_map]
  · intro v hv
    exact hfields.not_infix hne _ (List.mem_map_of_mem hv)
  · intro n
    obtain ⟨it, hposition, hshows⟩ := position_shows hslices n
    refine ⟨it, hposition, ?_, fun m it' hm => hslices.equals_iff hne hposition hm⟩
    rcases hshows with ⟨v, hv, hshows⟩ | ⟨hle, hpast⟩
    · obtain ⟨hlt, -⟩ := List.getElem?_eq_some_iff.1 hv
      exact iff_of_false hshows.equals_pastTheEnd (Nat.not_le_of_lt hlt)
    · exact iff_of_true hpast.equals_pastTheEnd hle

/-- A delimiter that overlaps itself is found on the left. -/
theorem splits_overlap :
    occurrences "aa".toList "aaa".toList = 1 ∧
      ∃ views, collect 3 "aaa".toList "aa".toList = some views ∧ views.length = 2 ∧
        "aa".toList.intercalate (views.map (View.chars "aaa".toList)) = "aaa".toList := by
  have hne : "aa".toList ≠ [] := by decide
  have hone : occurrences "aa".toList "aaa".toList = 1 := by decide
  obtain ⟨views, hcollect, hlength, hjoin, -⟩ := splits "aaa".toList hne
  rw [hone] at hlength
  exact ⟨hone, views, hcollect 3 (by omega), hlength, hjoin⟩

end EglUtil.StringSplitter
