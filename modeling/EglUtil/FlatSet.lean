import EglUtil.Lib.Calls
import EglUtil.Lib.OrderClasses

/-!
# `FlatSet`

A set as one sorted vector. The comparator is any strict weak order, and of equivalent elements
the vector has one.

**The reference.** `Reference.perform` says what each operation is for, on a finite set of classes
of equivalent elements. A position is the number of lesser classes.

**Theorem (`implements_set`).** Any calls have the same answers on both, up to equivalence, and the
vector always lists the set. A range in any order, or its elements one by one, give a vector of
the same classes.

`std::sort` is any function that sorts, and `std::lower_bound` and `std::upper_bound` are any that
are right on partitioned ranges. Each operation splits the vector at a value into what is less, the
equivalent element, and what is greater.
-/

namespace EglUtil.FlatSet

open WeakOrder SortedList OrderClasses

variable {α : Type*}

/-! ## Operations and their results -/

inductive Op (α : Type*) where
  | build (range : List α)
  | insert (value : α)
  | erase (value : α)
  | eraseAt (pos : Nat)
  | clear
  | find (value : α)
  | contains (value : α)
  | count (value : α)
  | lowerBound (value : α)
  | upperBound (value : α)
  | size
  | empty
deriving DecidableEq

/-- An iterator is a position and the element there, if it is not `end()`. -/
inductive Result (α : Type*) where
  | done
  | iterator (pos : Nat) (element : Option α)
  | inserted (pos : Nat) (element : Option α) (isNew : Bool)
  | bool (b : Bool)
  | size (n : Nat)
deriving DecidableEq

def Result.map {β : Type*} (f : α → β) : Result α → Result β
  | done => done
  | iterator pos element => iterator pos (element.map f)
  | inserted pos element isNew => inserted pos (element.map f) isNew
  | bool b => bool b
  | size n => size n

/-! ## The vector -/

section Vector

variable (S : SearchAlgorithms α) (sort : List α → List α) (comp : α → α → Bool)

def lowerBound (data : List α) (value : α) : Nat :=
  S.lowerBound (fun element => comp element value) data

def upperBound (data : List α) (value : α) : Nat :=
  S.upperBound (fun element => comp value element) data

/-- `pos != end() && !comp_(value, *pos)` -/
def holdsValue (data : List α) (pos : Nat) (value : α) : Bool :=
  data[pos]?.any fun element => !comp value element

def find (data : List α) (value : α) : Nat :=
  let pos := lowerBound S comp data value
  if holdsValue comp data pos value then pos else data.length

def contains (data : List α) (value : α) : Bool := find S comp data value != data.length

def count (data : List α) (value : α) : Nat := if contains S comp data value then 1 else 0

def insertImpl (data : List α) (value : α) : Result α × List α :=
  let pos := lowerBound S comp data value
  if holdsValue comp data pos value then (.inserted pos data[pos]? false, data)
  else
    let data := data.insertIdx pos value
    (.inserted pos data[pos]? true, data)

def erase (data : List α) (value : α) : Result α × List α :=
  let pos := find S comp data value
  if pos = data.length then (.size 0, data) else (.size 1, data.eraseIdx pos)

/-- The position has to be one of an element. -/
def eraseAt (data : List α) (pos : Nat) : Option (Result α × List α) :=
  if pos < data.length then
    let data := data.eraseIdx pos
    some (.iterator pos data[pos]?, data)
  else none

def sortUnique (data : List α) : List α := dropRepeats id comp (sort data)

/-- One call; none if it is not allowed. -/
def perform (data : List α) : Op α → Option (Result α × List α)
  | .build range => some (.done, sortUnique sort comp range)
  | .insert value => some (insertImpl S comp data value)
  | .erase value => some (erase S comp data value)
  | .eraseAt pos => eraseAt data pos
  | .clear => some (.done, [])
  | .find value => some (.iterator (find S comp data value) data[find S comp data value]?, data)
  | .contains value => some (.bool (contains S comp data value), data)
  | .count value => some (.size (count S comp data value), data)
  | .lowerBound value =>
    some (.iterator (lowerBound S comp data value) data[lowerBound S comp data value]?, data)
  | .upperBound value =>
    some (.iterator (upperBound S comp data value) data[upperBound S comp data value]?, data)
  | .size => some (.size data.length, data)
  | .empty => some (.bool data.isEmpty, data)

end Vector

/-! ## The reference -/

namespace Reference

variable (comp : α → α → Bool) [IsStrictWeakOrder α fun a b => comp a b = true]

/-- The class that so many others are less than; `end()` if there is none. -/
noncomputable def iterator (s : Finset (Class comp)) (pos : Nat) : Result (Class comp) :=
  .iterator pos (classAt s pos)

noncomputable def insert (s : Finset (Class comp)) (c : Class comp) :
    Result (Class comp) × Finset (Class comp) :=
  (.inserted (rank s c) (some c) (c ∉ s), Insert.insert c s)

noncomputable def perform (s : Finset (Class comp)) :
    Op α → Option (Result (Class comp) × Finset (Class comp))
  | .build range => some (.done, (range.map (classOf comp)).toFinset)
  | .insert value => some (insert comp s (classOf comp value))
  | .erase value =>
    some (.size (if classOf comp value ∈ s then 1 else 0), s.erase (classOf comp value))
  | .eraseAt pos =>
    (classAt s pos).map fun c => (iterator comp (s.erase c) pos, s.erase c)
  | .clear => some (.done, ∅)
  | .find value =>
    let pos := if classOf comp value ∈ s then rank s (classOf comp value) else s.card
    some (iterator comp s pos, s)
  | .contains value => some (.bool (classOf comp value ∈ s), s)
  | .count value => some (.size (if classOf comp value ∈ s then 1 else 0), s)
  | .lowerBound value => some (iterator comp s (rank s (classOf comp value)), s)
  | .upperBound value =>
    some (iterator comp s (s.filter fun c => (!less (classOf comp value) c) = true).card, s)
  | .size => some (.size s.card, s)
  | .empty => some (.bool (s = ∅), s)

end Reference

/-! ## One operation -/

section Step

variable {S : SearchAlgorithms α} {sort : List α → List α} {comp : α → α → Bool}
  {data less greater : List α} {same : Option α} {value : α}

theorem holdsValue_eq (h : Split id comp value data less same greater) :
    holdsValue comp data less.length value = same.isSome :=
  h.any_not_greater

/-- Only erasing where there is no element is not allowed. -/
theorem perform_eq_none {op : Op α} (hnone : perform S sort comp data op = none) :
    ∃ pos, op = .eraseAt pos ∧ data.length ≤ pos := by
  cases op with
  | eraseAt pos =>
    rw [perform, eraseAt] at hnone
    refine ⟨pos, rfl, ?_⟩
    by_contra hpos
    rw [if_pos (Nat.lt_of_not_le hpos)] at hnone
    cases hnone
  | _ => cases hnone

variable [IsStrictWeakOrder α fun a b => comp a b = true] {s : Finset (Class comp)}

/-- The same answer up to equivalence, and a vector that lists the set. -/
def Agree (comp : α → α → Bool) [IsStrictWeakOrder α fun a b => comp a b = true]
    (x : Result α × List α) (y : Result (Class comp) × Finset (Class comp)) : Prop :=
  x.1.map (classOf comp) = y.1 ∧ Lists x.2 y.2

theorem lowerBound_eq (hS : S.Correct) (h : Split id comp value data less same greater) :
    lowerBound S comp data value = less.length :=
  h.lowerBound hS

theorem find_eq (hS : S.Correct) (h : Split id comp value data less same greater) :
    find S comp data value = if same.isSome then less.length else data.length := by
  simp only [find, lowerBound_eq hS h, holdsValue_eq h]

/-- An iterator of the vector is one of the set. -/
theorem iterator_agree (hm : Lists data s) {pos pos' : Nat} (hpos : pos = pos') :
    Agree comp (.iterator pos data[pos]?, data) (Reference.iterator comp s pos', s) := by
  subst hpos
  refine ⟨?_, hm⟩
  rw [Reference.iterator, ← hm.getElem?_classOf]
  rfl

theorem find_rank (hS : S.Correct) (hm : Lists data s) (value : α) :
    find S comp data value =
      if classOf comp value ∈ s then rank s (classOf comp value) else s.card := by
  obtain ⟨less, same, greater, h⟩ := hm.increasing.split value
  simp only [find_eq hS h, hm.mem_iff_isSome h, hm.rank_classOf h, hm.card]

theorem contains_eq (hS : S.Correct) (hm : Lists data s) (value : α) :
    contains S comp data value = decide (classOf comp value ∈ s) := by
  obtain ⟨less, same, greater, h⟩ := hm.increasing.split value
  rw [contains, find_eq hS h]
  simp only [hm.mem_iff_isSome h]
  cases same with
  | none => simp
  | some e => simp [h.eq]

theorem insertImpl_agree (hS : S.Correct) (hm : Lists data s) (value : α) :
    Agree comp (insertImpl S comp data value) (Reference.insert comp s (classOf comp value)) := by
  obtain ⟨less, same, greater, h⟩ := hm.increasing.split value
  have hmem := hm.mem_iff_isSome h
  rw [insertImpl, Reference.insert]
  simp only [lowerBound_eq hS h, holdsValue_eq h, hm.rank_classOf h, hmem]
  cases same with
  | some e =>
    have hget : data[less.length]? = some e := h.getElem?_less
    have hclass : classOf comp e = classOf comp value := classOf_eq.2 (h.same e rfl)
    rw [Finset.insert_eq_of_mem (hmem.2 rfl), hget]
    refine ⟨?_, hm⟩
    rw [← hclass]
    rfl
  | none =>
    have hm' := hm.insert h (equiv_refl value)
    have hget : (less ++ value :: greater)[less.length]? = some value := by simp
    simp only [Option.isSome_none, Bool.false_eq_true, if_false, h.insertIdx_less, hget]
    exact ⟨rfl, hm'⟩

theorem erase_agree (hS : S.Correct) (hm : Lists data s) (value : α) :
    Agree comp (erase S comp data value)
      (.size (if classOf comp value ∈ s then 1 else 0), s.erase (classOf comp value)) := by
  obtain ⟨less, same, greater, h⟩ := hm.increasing.split value
  have hmem := hm.mem_iff_isSome h
  have herased := hm.erase h
  have hfind := find_eq hS h
  simp only [erase, hmem]
  cases same with
  | none =>
    have hdata : data = less ++ greater := h.eq
    have hpos : find S comp data value = data.length := hfind
    rw [← hdata] at herased
    rw [if_pos hpos]
    exact ⟨rfl, herased⟩
  | some e =>
    have hpos : find S comp data value = less.length := hfind
    have hne : less.length ≠ data.length := by
      rw [h.eq]
      simp
    rw [hpos, if_neg hne, h.eraseIdx_less]
    exact ⟨rfl, herased⟩

theorem eraseAt_agree (hm : Lists data s) (pos : Nat) :
    Option.Rel (Agree comp) (eraseAt data pos)
      ((classAt s pos).map fun c => (Reference.iterator comp (s.erase c) pos, s.erase c)) := by
  rw [eraseAt, ← hm.getElem?_classOf]
  split_ifs with hpos
  · have herased := hm.erase (hm.increasing.split_getElem hpos)
    rw [← List.eraseIdx_eq_take_drop_succ] at herased
    rw [List.getElem?_eq_getElem hpos]
    exact .some (iterator_agree herased rfl)
  · rw [List.getElem?_eq_none (Nat.le_of_not_lt hpos)]
    exact .none

theorem upperBound_card (hS : S.Correct) (hm : Lists data s) (value : α) :
    upperBound S comp data value =
      (s.filter fun c => (!OrderClasses.less (classOf comp value) c) = true).card := by
  obtain ⟨less, same, greater, h⟩ := hm.increasing.split value
  have hdata : data = (less ++ same.toList) ++ greater := by rw [h.eq, List.append_assoc]
  have hpos : upperBound S comp data value = (less ++ same.toList).length := h.upperBound hS
  rw [hpos, hm.card_filter fun c => !OrderClasses.less (classOf comp value) c, hdata]
  refine (countP_append_of_forall ?_ ?_).symm
  · intro x hx
    have hnot : comp value x = false := h.not_greater x hx
    simp [less_classOf, hnot]
  · intro x hx
    have hgreater : comp value x = true := h.greater x hx
    simp [less_classOf, hgreater]

/-- **One call.** -/
theorem perform_agree (hS : S.Correct) (hsort : Sorts comp sort) (hm : Lists data s)
    (op : Op α) :
    Option.Rel (Agree comp) (perform S sort comp data op) (Reference.perform comp s op) := by
  cases op with
  | build range => exact .some ⟨rfl, hsort.lists range⟩
  | insert value => exact .some (insertImpl_agree hS hm value)
  | erase value => exact .some (erase_agree hS hm value)
  | eraseAt pos => exact eraseAt_agree hm pos
  | clear => exact .some ⟨rfl, .nil, rfl⟩
  | find value => exact .some (iterator_agree hm (find_rank hS hm value))
  | contains value =>
    refine .some ⟨?_, hm⟩
    rw [contains_eq hS hm]
    rfl
  | count value =>
    refine .some ⟨?_, hm⟩
    rw [count, contains_eq hS hm]
    simp only [decide_eq_true_eq]
    rfl
  | lowerBound value =>
    obtain ⟨less, same, greater, h⟩ := hm.increasing.split value
    refine .some (iterator_agree hm ?_)
    rw [lowerBound_eq hS h, hm.rank_classOf h]
  | upperBound value => exact .some (iterator_agree hm (upperBound_card hS hm value))
  | size =>
    refine .some ⟨?_, hm⟩
    rw [hm.card]
    rfl
  | empty =>
    refine .some ⟨?_, hm⟩
    have hempty : data.isEmpty = decide (s = ∅) := by
      rw [Bool.eq_iff_iff, List.isEmpty_iff, decide_eq_true_eq, ← Finset.card_eq_zero, hm.card,
        List.length_eq_zero_iff]
    rw [hempty]
    rfl

/-! ## Sequences of operations -/

variable (sort) in
/-- Elements inserted one by one add their classes. -/
theorem run_insert (hS : S.Correct) (hm : Lists data s) (range : List α) :
    ∃ answers data', Calls.run (perform S sort comp) data (range.map .insert) =
        some (answers, data') ∧
      Lists data' ((range.map (classOf comp)).toFinset ∪ s) := by
  induction range generalizing data s with
  | nil => exact ⟨[], data, rfl, by simpa using hm⟩
  | cons value range ih =>
    obtain ⟨answers, data', hrun, hm'⟩ := ih (insertImpl_agree hS hm value).2
    refine ⟨(insertImpl S comp data value).1 :: answers, data', ?_, ?_⟩
    · rw [List.map_cons, Calls.run_cons, perform, Option.bind_some, hrun]
      rfl
    · rw [List.map_cons, List.toFinset_cons, Finset.insert_union, ← Finset.union_insert]
      exact hm'

/-- **A sorted vector is a set.** After any calls on an empty set the vector is strictly increasing
and lists the set of the reference, and each call answered, up to equivalence, what it answers
there. The only calls that are not allowed erase at a position where there is no element. A range
gives the same classes in any order, however it is sorted, and if it is inserted one by one. -/
theorem implements_set (hS : S.Correct) (hsort : Sorts comp sort) :
    (∀ ops, Option.Rel
        (fun x y => x.1.map (Result.map (classOf comp)) = y.1 ∧ Lists x.2 y.2)
        (Calls.run (perform S sort comp) [] ops) (Calls.run (Reference.perform comp) ∅ ops)) ∧
      (∀ ops, Calls.run (perform S sort comp) [] ops = none →
        ∃ before pos after answers data, ops = before ++ .eraseAt pos :: after ∧
          Calls.run (perform S sort comp) [] before = some (answers, data) ∧
          data.length ≤ pos) ∧
      ∀ range,
        (∀ sort' range', Sorts comp sort' → range.Perm range' →
          (sortUnique sort' comp range').map (classOf comp) =
            (sortUnique sort comp range).map (classOf comp)) ∧
        ∃ answers data, Calls.run (perform S sort comp) [] (range.map .insert) =
            some (answers, data) ∧
          data.map (classOf comp) = (sortUnique sort comp range).map (classOf comp) := by
  have hempty : Lists [] (∅ : Finset (Class comp)) := ⟨.nil, rfl⟩
  refine ⟨fun ops => ?_, fun ops hnone => ?_, fun range => ⟨?_, ?_⟩⟩
  · exact Calls.run_rel (R := Lists) _ (fun _ _ op hm => perform_agree hS hsort hm op) hempty ops
  · obtain ⟨before, op, after, answers, data, rfl, hbefore, hop⟩ := Calls.run_eq_none hnone
    obtain ⟨pos, rfl, hpos⟩ := perform_eq_none hop
    exact ⟨before, pos, after, answers, data, rfl, hbefore, hpos⟩
  · intro sort' range' hsort' hperm
    have hlists := hsort'.lists range'
    rw [← List.toFinset_eq_of_perm _ _ (hperm.map (classOf comp))] at hlists
    exact hlists.unique (hsort.lists range)
  · obtain ⟨answers, data, hrun, hm⟩ := run_insert sort hS hempty range
    rw [Finset.union_empty] at hm
    exact ⟨answers, data, hrun, hm.unique (hsort.lists range)⟩

end Step

/-- Numbers compared without their last digit. -/
def compTens (a b : Nat) : Bool := decide (a / 10 < b / 10)

instance : IsStrictWeakOrder Nat fun a b => compTens a b = true where
  irrefl a := by simp [compTens]
  trans a b c hab hbc := by
    simp only [compTens, decide_eq_true_eq] at *
    omega
  incomp_trans a b c hab hbc := by
    simp only [compTens, decide_eq_true_eq] at *
    omega

/-- A sort that is not stable. -/
def reversingSort (l : List Nat) : List Nat :=
  l.reverse.insertionSort fun a b => compTens b a = false

theorem sorts_reversingSort : Sorts compTens reversingSort := by
  have htotal : Std.Total fun a b => compTens b a = false := ⟨fun a b => by
    rcases hba : compTens b a with _ | _
    · exact .inl rfl
    · exact .inr (lt_asymm hba)⟩
  have htrans : IsTrans Nat fun a b => compTens b a = false :=
    ⟨fun _ _ _ hab hbc => not_lt_trans hbc hab⟩
  intro l
  have hsorted := List.pairwise_insertionSort (fun a b => compTens b a = false) l.reverse
  exact ⟨(List.perm_insertionSort _ _).trans (List.reverse_perm l), hsorted⟩

/-- Of 23 and 21 the last stays, whichever it is, but they are of the same class. -/
theorem implements_set_reversingSort :
    sortUnique reversingSort compTens [23, 5, 21] = [5, 21] ∧
      sortUnique reversingSort compTens [21, 23, 5] = [5, 23] ∧
      (sortUnique reversingSort compTens [21, 23, 5]).map (classOf compTens) =
        (sortUnique reversingSort compTens [23, 5, 21]).map (classOf compTens) :=
  ⟨by decide, by decide,
    ((implements_set SearchAlgorithms.scanning_correct sorts_reversingSort).2.2 [23, 5, 21]).1
      reversingSort [21, 23, 5] sorts_reversingSort (by decide)⟩

end EglUtil.FlatSet
