import EglUtil.Lib.Calls
import EglUtil.Lib.SortedList

/-!
# `FlatMap`

A map as one vector of entries, sorted by key. The comparator is any strict weak order, so keys
may be equivalent without being equal, and of equivalent keys the first one inserted stays.

**The reference.** `Reference.perform` says what each operation is for, on a list of entries in
the order in which their keys were first inserted, without sorting or searching: an operation
means the entry whose key is equivalent, and positions are numbers of lesser entries.

**Theorem (`buildFrom_constant_eq`).** The two ways to build a map, inserting in a constant
expression and sorting at run time, give the same vector.

**Theorem (`implements`).** Any sequence of operations gives the same results on both. The vector
is always strictly increasing, and holds the entries of the reference.

`std::lower_bound` and `std::upper_bound` are any functions that are right on partitioned ranges.
That each range is partitioned is the invariant: every operation splits the vector at a key into
what is less, the equivalent entry, and what is greater, and puts it together again.
-/

namespace EglUtil.FlatMap

open SortedList

variable {Key Value : Type*}

/-! ## Operations and their results -/

/-- The calls of a program. A reference to a value, as `at` and `operator[]` return it, is used to
change the value by a function. -/
inductive Op (Key Value : Type*) where
  | build (constantEvaluated : Bool) (init : List (Key × Value))
  | insert (kv : Key × Value)
  | insertKeyValue (key : Key) (value : Value)
  | subscript (key : Key) (change : Value → Value)
  | atKey (key : Key) (change : Value → Value)
  | eraseKey (key : Key)
  | eraseAt (pos : Nat)
  | clear
  | find (key : Key)
  | contains (key : Key)
  | count (key : Key)
  | lowerBound (key : Key)
  | upperBound (key : Key)
  | size
  | empty

/-- An iterator is a position and the entry there, if it is not `end()`; a reference is the value
it refers to. -/
inductive Result (Key Value : Type*) where
  | done
  | iterator (pos : Nat) (entry : Option (Key × Value))
  | inserted (pos : Nat) (entry : Option (Key × Value)) (isNew : Bool)
  | reference (value : Value)
  | outOfRange
  | bool (b : Bool)
  | size (n : Nat)
  deriving DecidableEq

/-! ## The vector -/

section Vector

variable (S : SearchAlgorithms (Key × Value)) (comp : Key → Key → Bool)

def lowerBound (data : List (Key × Value)) (key : Key) : Nat :=
  S.lowerBound (fun element => comp element.1 key) data

def upperBound (data : List (Key × Value)) (key : Key) : Nat :=
  S.upperBound (fun element => comp key element.1) data

/-- `pos != end() && !comp_(key, pos->first)` -/
def holdsKey (data : List (Key × Value)) (pos : Nat) (key : Key) : Bool :=
  data[pos]?.any fun element => !comp key element.1

/-- The entry of the key, or `end()`; `find` does the same. -/
def locate (data : List (Key × Value)) (key : Key) : Nat :=
  let pos := lowerBound S comp data key
  if holdsKey comp data pos key then pos else data.length

def find (data : List (Key × Value)) (key : Key) : Nat := locate S comp data key

def contains (data : List (Key × Value)) (key : Key) : Bool :=
  find S comp data key != data.length

def count (data : List (Key × Value)) (key : Key) : Nat :=
  if contains S comp data key then 1 else 0

/-- The value at a position, changed through a reference to it. -/
def changeAt (data : List (Key × Value)) (pos : Nat) (change : Value → Value) :
    List (Key × Value) :=
  data.modify pos fun element => (element.1, change element.2)

/-- `at` -/
def atKey (data : List (Key × Value)) (key : Key) (change : Value → Value) :
    Result Key Value × List (Key × Value) :=
  let pos := locate S comp data key
  match data[pos]? with
  | none => (.outOfRange, data)
  | some element => (.reference element.2, changeAt data pos change)

def insertImpl (data : List (Key × Value)) (kv : Key × Value) :
    Result Key Value × List (Key × Value) :=
  let pos := lowerBound S comp data kv.1
  if holdsKey comp data pos kv.1 then (.inserted pos data[pos]? false, data)
  else
    let data := data.insertIdx pos kv
    (.inserted pos data[pos]? true, data)

/-- `operator[]` -/
def subscript [Inhabited Value] (data : List (Key × Value)) (key : Key)
    (change : Value → Value) : Option (Result Key Value × List (Key × Value)) :=
  let pos := lowerBound S comp data key
  let data :=
    if data[pos]?.all fun element => comp key element.1 then data.insertIdx pos (key, default)
    else data
  data[pos]?.map fun element => (.reference element.2, changeAt data pos change)

def eraseKey (data : List (Key × Value)) (key : Key) : Result Key Value × List (Key × Value) :=
  let pos := locate S comp data key
  if pos = data.length then (.size 0, data) else (.size 1, data.eraseIdx pos)

/-- The position has to be one of an entry. -/
def eraseAt (data : List (Key × Value)) (pos : Nat) :
    Option (Result Key Value × List (Key × Value)) :=
  if pos < data.length then
    let data := data.eraseIdx pos
    some (.iterator pos data[pos]?, data)
  else none

/-- In a constant expression the entries are inserted one by one; at run time they are sorted, and
the repeated keys are dropped. -/
def buildFrom (constantEvaluated : Bool) (init : List (Key × Value)) : List (Key × Value) :=
  if constantEvaluated then init.foldl (fun data kv => (insertImpl S comp data kv).2) []
  else dropRepeats Prod.fst comp (stableSort Prod.fst comp init)

/-- One call; none if it is not allowed. -/
def perform [Inhabited Value] (data : List (Key × Value)) :
    Op Key Value → Option (Result Key Value × List (Key × Value))
  | .build constantEvaluated init => some (.done, buildFrom S comp constantEvaluated init)
  | .insert kv => some (insertImpl S comp data kv)
  | .insertKeyValue key value => some (insertImpl S comp data (key, value))
  | .subscript key change => subscript S comp data key change
  | .atKey key change => some (atKey S comp data key change)
  | .eraseKey key => some (eraseKey S comp data key)
  | .eraseAt pos => eraseAt data pos
  | .clear => some (.done, [])
  | .find key => some (.iterator (find S comp data key) data[find S comp data key]?, data)
  | .contains key => some (.bool (contains S comp data key), data)
  | .count key => some (.size (count S comp data key), data)
  | .lowerBound key =>
    some (.iterator (lowerBound S comp data key) data[lowerBound S comp data key]?, data)
  | .upperBound key =>
    some (.iterator (upperBound S comp data key) data[upperBound S comp data key]?, data)
  | .size => some (.size data.length, data)
  | .empty => some (.bool data.isEmpty, data)

end Vector

/-! ## The reference -/

namespace Reference

variable (comp : Key → Key → Bool)

/-- The entry whose key is equivalent. -/
def lookup (m : List (Key × Value)) (key : Key) : Option (Key × Value) :=
  m.find? fun entry => equiv comp entry.1 key

/-- Its value changed. -/
def update (m : List (Key × Value)) (key : Key) (change : Value → Value) : List (Key × Value) :=
  m.map fun entry => if equiv comp entry.1 key then (entry.1, change entry.2) else entry

/-- All other entries. -/
def erase (m : List (Key × Value)) (key : Key) : List (Key × Value) :=
  m.filter fun entry => !equiv comp entry.1 key

/-- The entry if its key is new. -/
def insert (m : List (Key × Value)) (kv : Key × Value) : List (Key × Value) :=
  addNew Prod.fst comp m kv

def insertResult (m : List (Key × Value)) (kv : Key × Value) : Result Key Value :=
  .inserted (rank Prod.fst comp m kv.1) (lookup comp (insert comp m kv) kv.1)
    (lookup comp m kv.1).isNone

def perform [Inhabited Value] (m : List (Key × Value)) :
    Op Key Value → Option (Result Key Value × List (Key × Value))
  | .build _ init => some (.done, init.foldl (insert comp) [])
  | .insert kv => some (insertResult comp m kv, insert comp m kv)
  | .insertKeyValue key value =>
    some (insertResult comp m (key, value), insert comp m (key, value))
  | .subscript key change =>
    let m := insert comp m (key, default)
    (lookup comp m key).map fun entry => (.reference entry.2, update comp m key change)
  | .atKey key change =>
    match lookup comp m key with
    | none => some (.outOfRange, m)
    | some entry => some (.reference entry.2, update comp m key change)
  | .eraseKey key =>
    some (.size (if (lookup comp m key).isSome then 1 else 0), erase comp m key)
  | .eraseAt pos =>
    (atRank Prod.fst comp m pos).map fun entry =>
      let m := erase comp m entry.1
      (.iterator pos (atRank Prod.fst comp m pos), m)
  | .clear => some (.done, [])
  | .find key =>
    let pos := if (lookup comp m key).isSome then rank Prod.fst comp m key else m.length
    some (.iterator pos (lookup comp m key), m)
  | .contains key => some (.bool (lookup comp m key).isSome, m)
  | .count key => some (.size (if (lookup comp m key).isSome then 1 else 0), m)
  | .lowerBound key =>
    some (.iterator (rank Prod.fst comp m key)
      (least Prod.fst comp m fun entry => !comp entry.1 key), m)
  | .upperBound key =>
    some (.iterator (m.countP fun entry => !comp key entry.1)
      (least Prod.fst comp m fun entry => comp key entry.1), m)
  | .size => some (.size m.length, m)
  | .empty => some (.bool m.isEmpty, m)

end Reference

/-! ## One operation -/

section Step

variable {S : SearchAlgorithms (Key × Value)} {comp : Key → Key → Bool}

/-- The vector is increasing, and holds the entries of the reference. -/
structure Matches (comp : Key → Key → Bool) (data m : List (Key × Value)) : Prop where
  increasing : Increasing Prod.fst comp data
  perm : data.Perm m

/-- The same result, in matching states. -/
def Agree {ρ : Type*} (comp : Key → Key → Bool) (x y : ρ × List (Key × Value)) : Prop :=
  x.1 = y.1 ∧ Matches comp x.2 y.2

variable {data m less greater : List (Key × Value)} {same : Option (Key × Value)} {key : Key}

/-! ### At the split -/

theorem holdsKey_eq (h : Split Prod.fst comp key data less same greater) :
    holdsKey comp data less.length key = same.isSome := h.any_not_greater

theorem changeAt_less {e : Key × Value} (h : Split Prod.fst comp key data less (some e) greater)
    (change : Value → Value) :
    changeAt data less.length change = less ++ (e.1, change e.2) :: greater := by
  rw [h.eq]
  exact List.modifyTailIdx_add _ 0 less (e :: greater)

variable [IsStrictWeakOrder Key fun a b => comp a b = true]

theorem lowerBound_eq (hS : S.Correct) (h : Split Prod.fst comp key data less same greater) :
    lowerBound S comp data key = less.length :=
  h.lowerBound hS

theorem locate_eq (hS : S.Correct) (h : Split Prod.fst comp key data less same greater) :
    locate S comp data key = if same.isSome then less.length else data.length := by
  simp only [locate, lowerBound_eq hS h, holdsKey_eq h]

theorem getElem?_locate (hS : S.Correct) (h : Split Prod.fst comp key data less same greater) :
    data[locate S comp data key]? = same := by
  rw [locate_eq hS h]
  cases same with
  | none => simp
  | some e =>
    rw [Option.isSome_some, if_pos rfl, h.getElem?_less]
    rfl

theorem lookup_eq (hm : Matches comp data m)
    (h : Split Prod.fst comp key data less same greater) :
    Reference.lookup comp m key = same := by
  rw [Reference.lookup, ← hm.increasing.distinct.find_perm hm.perm key, h.find?]

/-! ### Insertion -/

/-- A new entry goes between the lesser and the greater ones. -/
theorem Matches.insert_new (hm : Matches comp data m) (kv : Key × Value)
    (h : Split Prod.fst comp kv.1 data less none greater) :
    Split Prod.fst comp kv.1 (less ++ kv :: greater) less (some kv) greater ∧
      Matches comp (less ++ kv :: greater) (Reference.insert comp m kv) := by
  have hkv : ∀ x ∈ some kv, equiv comp x.1 kv.1 = true := by
    intro x hx
    cases hx
    exact equiv_refl _
  refine ⟨⟨rfl, h.less, hkv, h.greater⟩, h.increasing hm.increasing hkv, ?_⟩
  have hlookup := lookup_eq hm h
  rw [Reference.lookup] at hlookup
  have hnew : Reference.insert comp m kv = m ++ [kv] := by
    rw [Reference.insert, addNew, hlookup]
    rfl
  have heq : data = less ++ greater := h.eq
  rw [hnew]
  calc (less ++ kv :: greater).Perm (kv :: (less ++ greater)) := List.perm_middle
    _ |>.Perm (kv :: m) := (heq ▸ hm.perm).cons kv
    _ |>.Perm (m ++ [kv]) := (List.perm_append_singleton kv m).symm

theorem Reference.insert_old {kv e : Key × Value} (hm : Matches comp data m)
    (h : Split Prod.fst comp kv.1 data less (some e) greater) :
    Reference.insert comp m kv = m := by
  have hlookup := lookup_eq hm h
  rw [Reference.lookup] at hlookup
  rw [Reference.insert, addNew, hlookup]
  rfl

theorem insertImpl_agree (hS : S.Correct) (hm : Matches comp data m) (kv : Key × Value) :
    Agree comp (insertImpl S comp data kv)
      (Reference.insertResult comp m kv, Reference.insert comp m kv) := by
  obtain ⟨less, same, greater, h⟩ := hm.increasing.split kv.1
  have hrank := h.rank_eq hm.perm
  have hlookup := lookup_eq hm h
  cases same with
  | some e =>
    have hold := Reference.insert_old hm h
    have hget : data[less.length]? = some e := h.getElem?_less
    simp only [insertImpl, lowerBound_eq hS h, holdsKey_eq h, Option.isSome_some, if_true, hget,
      Reference.insertResult, hrank, hold, hlookup]
    exact ⟨rfl, hm⟩
  | none =>
    obtain ⟨h', hm'⟩ := hm.insert_new kv h
    have hget : (less ++ kv :: greater)[less.length]? = some kv := h'.getElem?_less
    simp only [insertImpl, lowerBound_eq hS h, holdsKey_eq h, Option.isSome_none,
      Bool.false_eq_true, if_false, h.insertIdx_less, hget, Reference.insertResult, hrank,
      hlookup, lookup_eq hm' h']
    exact ⟨rfl, hm'⟩

/-! ### Changing a value -/

theorem changeAt_matches {e : Key × Value} (hm : Matches comp data m)
    (h : Split Prod.fst comp key data less (some e) greater) (change : Value → Value) :
    Matches comp (changeAt data less.length change) (Reference.update comp m key change) := by
  rw [changeAt_less h]
  have hchanged : ∀ x ∈ some (e.1, change e.2), equiv comp x.1 key = true := by
    intro x hx
    cases hx
    exact h.same e rfl
  constructor
  · exact h.increasing hm.increasing hchanged
  · have hmap := h.map fun entry => (entry.1, change entry.2)
    exact hmap ▸ hm.perm.map _

/-! ### Erasure -/

theorem erase_matches (hm : Matches comp data m)
    (h : Split Prod.fst comp key data less same greater) :
    Matches comp (less ++ greater) (Reference.erase comp m key) := by
  have hnone : ∀ x ∈ (none : Option (Key × Value)), equiv comp x.1 key = true := nofun
  constructor
  · exact h.increasing hm.increasing hnone
  · have hfilter := h.filter
    exact hfilter ▸ hm.perm.filter _

/-! ### The operations -/

theorem subscript_agree [Inhabited Value] (hS : S.Correct) (hm : Matches comp data m) (key : Key)
    (change : Value → Value) :
    Option.Rel (Agree comp) (subscript S comp data key change)
      (Reference.perform comp m (.subscript key change)) := by
  obtain ⟨less, same, greater, h⟩ := hm.increasing.split key
  have hempty : (data[less.length]?.all fun element => comp key element.1) = same.isNone := by
    have hholds := holdsKey_eq h
    rw [holdsKey] at hholds
    rw [← Option.not_isSome, ← hholds]
    cases data[less.length]? <;> simp
  cases same with
  | some e =>
    have hold : Reference.insert comp m (key, default) = m := Reference.insert_old hm h
    have hget : data[less.length]? = some e := h.getElem?_less
    rw [hget] at hempty
    simp only [subscript, lowerBound_eq hS h, hget, hempty, Option.isNone_some,
      Bool.false_eq_true, if_false, Option.map_some, Reference.perform, hold, lookup_eq hm h]
    exact .some ⟨rfl, changeAt_matches hm h change⟩
  | none =>
    obtain ⟨h', hm'⟩ := hm.insert_new (key, default) h
    have hget : (less ++ (key, default) :: greater)[less.length]? = some (key, default) :=
      h'.getElem?_less
    simp only [subscript, lowerBound_eq hS h, hempty, Option.isNone_none, if_true,
      h.insertIdx_less, hget, Option.map_some, Reference.perform, lookup_eq hm' h']
    exact .some ⟨rfl, changeAt_matches hm' h' change⟩

theorem atKey_agree [Inhabited Value] (hS : S.Correct) (hm : Matches comp data m) (key : Key)
    (change : Value → Value) :
    Option.Rel (Agree comp) (some (atKey S comp data key change))
      (Reference.perform comp m (.atKey key change)) := by
  obtain ⟨less, same, greater, h⟩ := hm.increasing.split key
  simp only [atKey, getElem?_locate hS h, Reference.perform, lookup_eq hm h]
  cases same with
  | none => exact .some ⟨rfl, hm⟩
  | some e =>
    have hlocate : locate S comp data key = less.length := locate_eq hS h
    simp only [hlocate]
    exact .some ⟨rfl, changeAt_matches hm h change⟩

theorem eraseKey_agree [Inhabited Value] (hS : S.Correct) (hm : Matches comp data m) (key : Key) :
    Option.Rel (Agree comp) (some (eraseKey S comp data key))
      (Reference.perform comp m (.eraseKey key)) := by
  obtain ⟨less, same, greater, h⟩ := hm.increasing.split key
  have herased := erase_matches hm h
  have hlocate := locate_eq hS h
  simp only [eraseKey, Reference.perform, lookup_eq hm h]
  cases same with
  | none =>
    have hdata : data = less ++ greater := h.eq
    rw [← hdata] at herased
    have hpos : locate S comp data key = data.length := hlocate
    rw [hpos, if_pos rfl]
    exact .some ⟨rfl, herased⟩
  | some e =>
    have hlt : less.length ≠ data.length := by
      rw [h.eq]
      simp
    have hpos : locate S comp data key = less.length := hlocate
    rw [hpos, if_neg hlt, h.eraseIdx_less]
    exact .some ⟨rfl, herased⟩

theorem eraseAt_agree [Inhabited Value] (hm : Matches comp data m) (pos : Nat) :
    Option.Rel (Agree comp) (eraseAt data pos) (Reference.perform comp m (.eraseAt pos)) := by
  simp only [eraseAt, Reference.perform, hm.increasing.atRank_eq hm.perm]
  split_ifs with hpos
  · have h := hm.increasing.split_getElem hpos
    have herased := erase_matches hm h
    rw [← List.eraseIdx_eq_take_drop_succ] at herased
    rw [List.getElem?_eq_getElem hpos, Option.map_some]
    refine .some ⟨?_, herased⟩
    rw [herased.increasing.atRank_eq herased.perm]
  · rw [List.getElem?_eq_none (Nat.le_of_not_lt hpos)]
    exact .none

theorem find_agree [Inhabited Value] (hS : S.Correct) (hm : Matches comp data m) (key : Key) :
    Option.Rel (Agree comp) (perform S comp data (.find key))
      (Reference.perform comp m (.find key)) := by
  obtain ⟨less, same, greater, h⟩ := hm.increasing.split key
  refine .some ⟨?_, hm⟩
  simp only [find, getElem?_locate hS h, lookup_eq hm h, h.rank_eq hm.perm,
    ← hm.perm.length_eq]
  rw [locate_eq hS h]

theorem contains_eq (hS : S.Correct) (hm : Matches comp data m) (key : Key) :
    contains S comp data key = (Reference.lookup comp m key).isSome := by
  obtain ⟨less, same, greater, h⟩ := hm.increasing.split key
  rw [contains, find, locate_eq hS h, lookup_eq hm h]
  cases same with
  | none => simp
  | some e => simp [h.eq]

theorem lowerBound_agree [Inhabited Value] (hS : S.Correct) (hm : Matches comp data m)
    (key : Key) :
    Option.Rel (Agree comp) (perform S comp data (.lowerBound key))
      (Reference.perform comp m (.lowerBound key)) := by
  obtain ⟨less, same, greater, h⟩ := hm.increasing.split key
  refine .some ⟨?_, hm⟩
  have hleast : least Prod.fst comp m (fun entry => !comp entry.1 key) =
      (same.toList ++ greater).head? := by
    refine Increasing.least_eq (h.eq ▸ hm.increasing) ?_ ?_ (h.eq ▸ hm.perm)
    · intro x hx
      simp [h.less x hx]
    · intro x hx
      simp [h.not_less x hx]
  simp only [lowerBound_eq hS h, h.getElem?_less, h.rank_eq hm.perm, hleast]

theorem upperBound_agree [Inhabited Value] (hS : S.Correct) (hm : Matches comp data m)
    (key : Key) :
    Option.Rel (Agree comp) (perform S comp data (.upperBound key))
      (Reference.perform comp m (.upperBound key)) := by
  obtain ⟨less, same, greater, h⟩ := hm.increasing.split key
  refine .some ⟨?_, hm⟩
  have hdata : data = (less ++ same.toList) ++ greater := by rw [h.eq, List.append_assoc]
  have hpos : upperBound S comp data key = (less ++ same.toList).length := h.upperBound hS
  have hget : data[(less ++ same.toList).length]? = greater.head? := by
    rw [hdata, List.getElem?_append_right (Nat.le_refl _), Nat.sub_self, List.head?_eq_getElem?]
  have hcount : m.countP (fun entry => !comp key entry.1) = (less ++ same.toList).length := by
    rw [← hm.perm.countP_eq, hdata]
    refine countP_append_of_forall ?_ ?_
    · intro x hx
      simp [h.not_greater x hx]
    · intro x hx
      simp [h.greater x hx]
  have hleast : least Prod.fst comp m (fun entry => comp key entry.1) = greater.head? := by
    refine Increasing.least_eq (hdata ▸ hm.increasing) ?_ h.greater (hdata ▸ hm.perm)
    exact h.not_greater
  simp only [hpos, hget, hcount, hleast]

/-- Inserting one by one, or sorting and dropping repeats, keeps the first of equivalent keys. -/
theorem buildFrom_matches (hS : S.Correct) (constantEvaluated : Bool)
    (init : List (Key × Value)) :
    Matches comp (buildFrom S comp constantEvaluated init)
      (init.foldl (Reference.insert comp) []) := by
  cases constantEvaluated with
  | true =>
    have hfold : ∀ data m, Matches comp data m →
        Matches comp (init.foldl (fun data kv => (insertImpl S comp data kv).2) data)
          (init.foldl (Reference.insert comp) m) := by
      induction init with
      | nil => exact fun data m hm => hm
      | cons kv init ih => exact fun data m hm => ih _ _ (insertImpl_agree hS hm kv).2
    exact hfold [] [] ⟨.nil, .nil⟩
  | false =>
    exact ⟨increasing_dropRepeats (ascending_stableSort init), dropRepeats_stableSort_perm init⟩

/-- **One map by two constructions.** In a constant expression and at run time the same entries
give the same vector: strictly increasing, and of each class of keys it holds the first entry. -/
theorem buildFrom_constant_eq (hS : S.Correct) (init : List (Key × Value)) :
    buildFrom S comp true init = buildFrom S comp false init ∧
      Increasing Prod.fst comp (buildFrom S comp false init) ∧
      ∀ x, x ∈ buildFrom S comp false init ↔ ∃ before after, init = before ++ x :: after ∧
        ∀ y ∈ before, equiv comp y.1 x.1 = false := by
  have hconstant : Matches comp (buildFrom S comp true init)
      (init.foldl (Reference.insert comp) []) := buildFrom_matches hS true init
  have hruntime : Matches comp (buildFrom S comp false init)
      (init.foldl (Reference.insert comp) []) := buildFrom_matches hS false init
  refine ⟨?_, hruntime.increasing, fun x => ?_⟩
  · exact hconstant.increasing.eq_of_perm hruntime.increasing
      (hconstant.perm.trans hruntime.perm.symm)
  · rw [hruntime.perm.mem_iff]
    exact ((mem_foldl_addNew_iff init).2 x).trans isFirst_iff

theorem perform_agree [Inhabited Value] (hS : S.Correct) (hm : Matches comp data m)
    (op : Op Key Value) :
    Option.Rel (Agree comp) (perform S comp data op) (Reference.perform comp m op) := by
  cases op with
  | build constantEvaluated init =>
    exact .some ⟨rfl, buildFrom_matches hS constantEvaluated init⟩
  | insert kv => exact .some (insertImpl_agree hS hm kv)
  | insertKeyValue key value => exact .some (insertImpl_agree hS hm (key, value))
  | subscript key change => exact subscript_agree hS hm key change
  | atKey key change => exact atKey_agree hS hm key change
  | eraseKey key => exact eraseKey_agree hS hm key
  | eraseAt pos => exact eraseAt_agree hm pos
  | clear => exact .some ⟨rfl, .nil, .nil⟩
  | find key => exact find_agree hS hm key
  | contains key =>
    refine .some ⟨?_, hm⟩
    rw [contains_eq hS hm]
  | count key =>
    refine .some ⟨?_, hm⟩
    rw [count, contains_eq hS hm]
  | lowerBound key => exact lowerBound_agree hS hm key
  | upperBound key => exact upperBound_agree hS hm key
  | size =>
    refine .some ⟨?_, hm⟩
    rw [hm.perm.length_eq]
  | empty =>
    refine .some ⟨?_, hm⟩
    rw [hm.perm.isEmpty_eq]

theorem Reference.perform_eq_none [Inhabited Value] {op : Op Key Value}
    (hnone : Reference.perform comp m op = none) :
    ∃ pos, op = .eraseAt pos ∧ atRank Prod.fst comp m pos = none := by
  cases op with
  | eraseAt pos => exact ⟨pos, rfl, Option.map_eq_none_iff.1 hnone⟩
  | subscript key change =>
    have hsome : (Reference.lookup comp (Reference.insert comp m (key, default)) key).isSome :=
      find_addNew_isSome m (key, default)
    rw [Option.map_eq_none_iff.1 hnone] at hsome
    cases hsome
  | atKey key change =>
    rw [Reference.perform] at hnone
    split at hnone <;> cases hnone
  | _ => cases hnone

/-- Only erasing where there is no entry is not allowed. -/
theorem perform_eq_none [Inhabited Value] (hS : S.Correct) (hm : Matches comp data m)
    {op : Op Key Value} (hnone : perform S comp data op = none) :
    ∃ pos, op = .eraseAt pos ∧ data.length ≤ pos := by
  have hrel := perform_agree hS hm op
  rw [hnone] at hrel
  generalize href : Reference.perform comp m op = y at hrel
  cases hrel
  obtain ⟨pos, hop, hpos⟩ := Reference.perform_eq_none href
  rw [hm.increasing.atRank_eq hm.perm, List.getElem?_eq_none_iff] at hpos
  exact ⟨pos, hop, hpos⟩

end Step

/-! ## Sequences of operations -/

/-- The results of the calls and the state after them; none if a call is not allowed. -/
def run {σ : Type*} (step : σ → Op Key Value → Option (Result Key Value × σ)) :
    σ → List (Op Key Value) → Option (List (Result Key Value) × σ)
  | s, [] => some ([], s)
  | s, op :: ops =>
    (step s op).bind fun x => (run step x.2 ops).map fun rest => (x.1 :: rest.1, rest.2)

theorem run_eq_calls {σ : Type*} (step : σ → Op Key Value → Option (Result Key Value × σ))
    (s : σ) (ops : List (Op Key Value)) : run step s ops = Calls.run step s ops := by
  induction ops generalizing s with
  | nil => rfl
  | cons op ops ih => simp only [run, Calls.run_cons, ih]

section Run

variable {S : SearchAlgorithms (Key × Value)} {comp : Key → Key → Bool}
  [IsStrictWeakOrder Key fun a b => comp a b = true] [Inhabited Value]

theorem run_agree (hS : S.Correct) (ops : List (Op Key Value)) {data m : List (Key × Value)}
    (hm : Matches comp data m) :
    Option.Rel (Agree comp) (run (perform S comp) data ops)
      (run (Reference.perform comp) m ops) := by
  have hstep : ∀ data m op, Matches comp data m →
      Option.Rel (fun x y => id x.1 = y.1 ∧ Matches comp x.2 y.2) (perform S comp data op)
        (Reference.perform comp m op) := fun data m op hm => perform_agree hS hm op
  have hrel := Calls.run_rel id hstep hm ops
  simp only [List.map_id] at hrel
  rw [run_eq_calls, run_eq_calls]
  exact hrel

/-- **A sorted vector is a map.** After any sequence of constructions and operations from an empty
map, the vector is strictly increasing by key and holds the entries of the reference, and each
call returned what it returns on the reference. The only calls that are not allowed erase at a
position where there is no entry. -/
theorem implements (hS : S.Correct) (ops : List (Op Key Value)) :
    Option.Rel (Agree comp) (run (perform S comp) [] ops)
        (run (Reference.perform comp) [] ops) ∧
      (run (perform S comp) [] ops = none → ∃ before pos after results data,
        ops = before ++ .eraseAt pos :: after ∧
        run (perform S comp) [] before = some (results, data) ∧ data.length ≤ pos) := by
  refine ⟨run_agree hS ops ⟨.nil, .nil⟩, fun hnone => ?_⟩
  rw [run_eq_calls] at hnone
  obtain ⟨before, op, after, results, data, rfl, hbefore, hop⟩ := Calls.run_eq_none hnone
  rw [← run_eq_calls] at hbefore
  have hrel : Option.Rel (Agree comp) (run (perform S comp) [] before)
      (run (Reference.perform comp) [] before) := run_agree hS before ⟨.nil, .nil⟩
  rw [hbefore] at hrel
  generalize run (Reference.perform comp) [] before = y at hrel
  cases hrel with
  | some hxy =>
    obtain ⟨pos, rfl, hpos⟩ := perform_eq_none hS hxy.2 hop
    exact ⟨before, pos, after, results, data, rfl, hbefore, hpos⟩

end Run

/-- Pairs compared by their first components: pairs with the same are equivalent. -/
def compFirst (a b : Nat × Nat) : Bool := decide (a.1 < b.1)

instance : IsStrictWeakOrder (Nat × Nat) fun a b => compFirst a b = true where
  irrefl a := by simp [compFirst]
  trans a b c hab hbc := by
    simp only [compFirst, decide_eq_true_eq] at *
    omega
  incomp_trans a b c hab hbc := by
    simp only [compFirst, decide_eq_true_eq] at *
    omega

def exampleEntries : List ((Nat × Nat) × Nat) := [((2, 0), 20), ((1, 0), 10), ((2, 1), 21)]

/-- Of the two entries with first component 2, the first stays. -/
theorem buildFrom_constant_eq_exampleEntries :
    buildFrom (.scanning _) compFirst false exampleEntries = [((1, 0), 10), ((2, 0), 20)] := by
  have h : buildFrom (.scanning _) compFirst true exampleEntries =
      buildFrom (.scanning _) compFirst false exampleEntries :=
    (buildFrom_constant_eq SearchAlgorithms.scanning_correct exampleEntries).1
  rw [← h]
  decide

def exampleCalls : List (Op (Nat × Nat) Nat) :=
  [.build true [((2, 0), 20), ((1, 0), 10), ((2, 1), 21)], .insertKeyValue (1, 7) 11,
    .subscript (3, 0) (· + 5), .atKey (2, 9) (· + 1), .eraseAt 0, .find (2, 3),
    .upperBound (2, 0)]

theorem implements_exampleCalls :
    run (perform (.scanning _) compFirst) [] exampleCalls =
        some ([.done, .inserted 0 (some ((1, 0), 10)) false, .reference 0, .reference 20,
          .iterator 0 (some ((2, 0), 21)), .iterator 0 (some ((2, 0), 21)),
          .iterator 1 (some ((3, 0), 5))], [((2, 0), 21), ((3, 0), 5)]) ∧
      Option.Rel (Agree compFirst) (run (perform (.scanning _) compFirst) [] exampleCalls)
        (run (Reference.perform compFirst) [] exampleCalls) :=
  ⟨by decide, (implements SearchAlgorithms.scanning_correct exampleCalls).1⟩

end EglUtil.FlatMap
