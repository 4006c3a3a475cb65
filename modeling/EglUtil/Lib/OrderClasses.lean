import EglUtil.Lib.SortedList
import Mathlib.Data.Finset.Card
import Mathlib.Data.Finset.Dedup

/-!
# The classes of a strict weak order

Equivalent elements taken together. Of the classes one is always less than another, so a finite set
of them is listed by exactly one strictly increasing list.

* `rank` and `classAt`: a class of a set is known by how many others are less.
* `Lists`: a strictly increasing list has one element of each class of a set. `Lists.unique` says
  that its classes are then determined, `Lists.getElem?_classOf` that a place is a rank.
-/

namespace OrderClasses

open WeakOrder SortedList

variable {α : Type*} (lt : α → α → Bool) [hlt : IsStrictWeakOrder α fun a b => lt a b = true]

/-! ## Classes -/

def setoid : Setoid α where
  r a b := equiv lt a b = true
  iseqv := ⟨equiv_refl, fun {a b} h => by rwa [equiv_comm], equiv_trans⟩

abbrev Class : Type _ := Quotient (setoid lt)

def classOf (a : α) : Class lt := Quotient.mk (setoid lt) a

variable {lt}

theorem classOf_eq {a b : α} : classOf lt a = classOf lt b ↔ equiv lt a b = true := Quotient.eq

instance : DecidableEq (Class lt) := fun c d =>
  Quotient.recOnSubsingleton₂ c d fun _ _ => decidable_of_iff _ classOf_eq.symm

/-- Equivalent elements are less than the same elements. -/
theorem lt_congr {a a' b b' : α} (ha : equiv lt a a' = true) (hb : equiv lt b b' = true) :
    lt a b = lt a' b' := by
  rw [equiv_iff] at ha hb
  rw [Bool.eq_iff_iff]
  constructor
  · intro h
    exact lt_of_lt_of_not_lt (lt_of_not_lt_of_lt ha.1 h) hb.2
  · intro h
    exact lt_of_lt_of_not_lt (lt_of_not_lt_of_lt ha.2 h) hb.1

def less : Class lt → Class lt → Bool :=
  Quotient.lift₂ lt fun _ _ _ _ => lt_congr

theorem less_classOf (a b : α) : less (classOf lt a) (classOf lt b) = lt a b := rfl

instance : IsStrictWeakOrder (Class lt) fun c d => less c d = true where
  irrefl c := by
    induction c using Quotient.ind with
    | _ a => exact irrefl_of (fun a b => lt a b = true) a
  trans c d e := by
    induction c, d using Quotient.ind₂ with
    | _ a b => induction e using Quotient.ind with
      | _ x => exact trans_of (fun a b => lt a b = true)
  incomp_trans c d e := by
    induction c, d using Quotient.ind₂ with
    | _ a b => induction e using Quotient.ind with
      | _ x => exact hlt.incomp_trans a b x

/-- Classes neither of which is less are the same. -/
theorem eq_of_equiv {c d : Class lt} (h : equiv less c d = true) : c = d := by
  induction c, d using Quotient.ind₂ with
  | _ a b => exact classOf_eq.2 h

theorem increasing_classes {l : List α} (h : Increasing id lt l) :
    Increasing id less (l.map (classOf lt)) := List.pairwise_map.2 h

/-! ## Sets of classes -/

/-- The number of classes that are less. -/
def rank (s : Finset (Class lt)) (c : Class lt) : Nat := (s.filter fun d => less d c = true).card

/-- The class that so many others are less than. -/
noncomputable def classAt (s : Finset (Class lt)) (pos : Nat) : Option (Class lt) :=
  s.toList.find? fun c => rank s c == pos

/-- The list is strictly increasing, and its classes are those of the set. -/
structure Lists (l : List α) (s : Finset (Class lt)) : Prop where
  increasing : Increasing id lt l
  classes_eq : (l.map (classOf lt)).toFinset = s

section Lists

variable {l l' : List α} {s : Finset (Class lt)}

theorem Lists.nodup (h : Lists l s) : (l.map (classOf lt)).Nodup :=
  (increasing_classes h.increasing).distinct.nodup

theorem Lists.mem_iff (h : Lists l s) {c : Class lt} : c ∈ s ↔ ∃ x ∈ l, classOf lt x = c := by
  rw [← h.classes_eq, List.mem_toFinset, List.mem_map]

/-- A test passes as often in the list as in the set. -/
theorem Lists.card_filter (h : Lists l s) (p : Class lt → Bool) :
    (s.filter fun c => p c = true).card = l.countP fun x => p (classOf lt x) := by
  rw [← h.classes_eq, ← List.toFinset_filter,
    List.toFinset_card_of_nodup (h.nodup.sublist List.filter_sublist),
    ← List.countP_eq_length_filter, List.countP_map]
  rfl

theorem Lists.card (h : Lists l s) : s.card = l.length := by
  rw [← h.classes_eq, List.toFinset_card_of_nodup h.nodup, List.length_map]

/-- **One list of classes.** Increasing lists of the same set have the same classes in the same
places. -/
theorem Lists.unique (h : Lists l s) (h' : Lists l' s) :
    l.map (classOf lt) = l'.map (classOf lt) := by
  refine (increasing_classes h.increasing).eq_of_perm (increasing_classes h'.increasing) ?_
  refine (List.perm_ext_iff_of_nodup h.nodup h'.nodup).2 fun c => ?_
  rw [← List.mem_toFinset, ← List.mem_toFinset, h.classes_eq, h'.classes_eq]

theorem Lists.rank_classOf (h : Lists l s) {a : α} {less greater : List α} {same : Option α}
    (hsplit : Split id lt a l less same greater) : rank s (classOf lt a) = less.length := by
  rw [rank, h.card_filter fun d => OrderClasses.less d (classOf lt a)]
  exact hsplit.rank_eq (List.Perm.refl l)

theorem Lists.rank_getElem (h : Lists l s) {i : Nat} (hi : i < l.length) :
    rank s (classOf lt l[i]) = i := by
  have hrank : rank s (classOf lt l[i]) = (l.take i).length :=
    h.rank_classOf (h.increasing.split_getElem hi)
  rw [hrank, List.length_take, Nat.min_eq_left hi.le]

/-- A place in the list is a rank in the set. -/
theorem Lists.getElem?_classOf (h : Lists l s) (i : Nat) :
    l[i]?.map (classOf lt) = classAt s i := by
  have hplace : ∀ c ∈ s, rank s c = i → l[i]?.map (classOf lt) = some c := by
    intro c hc hrank
    obtain ⟨x, hx, rfl⟩ := h.mem_iff.1 hc
    obtain ⟨j, hj, rfl⟩ := List.getElem_of_mem hx
    rw [h.rank_getElem hj] at hrank
    rw [← hrank, List.getElem?_eq_getElem hj, Option.map_some]
  cases hfind : classAt s i with
  | some c =>
    have hc := Finset.mem_toList.1 (List.mem_of_find?_eq_some hfind)
    have hrank := List.find?_some hfind
    exact hplace c hc (beq_iff_eq.1 hrank)
  | none =>
    rw [Option.map_eq_none_iff, List.getElem?_eq_none_iff]
    by_contra hi
    rw [Nat.not_le] at hi
    have hmem := h.mem_iff.2 ⟨_, List.getElem_mem hi, rfl⟩
    refine List.find?_eq_none.1 hfind _ (Finset.mem_toList.2 hmem) ?_
    rw [h.rank_getElem hi, beq_self_eq_true]

/-! ### At a split -/

section Split

variable {a : α} {less greater : List α} {same : Option α}

theorem Lists.mem_iff_isSome (h : Lists l s) (hsplit : Split id lt a l less same greater) :
    classOf lt a ∈ s ↔ same.isSome := by
  rw [h.mem_iff, ← hsplit.find?, List.find?_isSome]
  simp only [classOf_eq, id]

theorem Lists.insert {b : α} (h : Lists l s) (hsplit : Split id lt a l less none greater)
    (hb : equiv lt b a = true) :
    Lists (less ++ b :: greater) (Insert.insert (classOf lt a) s) := by
  have hsame : ∀ x ∈ some b, equiv lt x a = true := by
    intro x hx
    cases hx
    exact hb
  refine ⟨hsplit.increasing h.increasing hsame, ?_⟩
  have hl : l = less ++ greater := hsplit.eq
  ext c
  rw [← h.classes_eq, hl, ← classOf_eq.2 hb]
  simp only [List.map_append, List.map_cons, List.toFinset_append, List.toFinset_cons,
    Finset.mem_union, Finset.mem_insert]
  tauto

theorem Lists.erase (h : Lists l s) (hsplit : Split id lt a l less same greater) :
    Lists (less ++ greater) (s.erase (classOf lt a)) := by
  have hnone : ∀ x ∈ (none : Option α), equiv lt x a = true := nofun
  refine ⟨hsplit.increasing h.increasing hnone, ?_⟩
  ext c
  rw [← hsplit.filter, List.mem_toFinset, List.mem_map, Finset.mem_erase, h.mem_iff]
  constructor
  · rintro ⟨x, hx, rfl⟩
    obtain ⟨hxl, hne⟩ := List.mem_filter.1 hx
    refine ⟨?_, x, hxl, rfl⟩
    intro heq
    rw [id, classOf_eq.1 heq] at hne
    cases hne
  · rintro ⟨hne, x, hxl, rfl⟩
    refine ⟨x, List.mem_filter.2 ⟨hxl, ?_⟩, rfl⟩
    rw [Bool.not_eq_true', Bool.eq_false_iff]
    exact fun heq => hne (classOf_eq.2 heq)

end Split

end Lists

/-! ## Sorting -/

/-- What `std::sort` promises: a sorted permutation, and nothing of equivalent elements. -/
def Sorts (lt : α → α → Bool) (sort : List α → List α) : Prop :=
  ∀ l, (sort l).Perm l ∧ Ascending id lt (sort l)

/-- **Sorting and dropping repeats** lists the classes. -/
theorem Sorts.lists {sort : List α → List α} (h : Sorts lt sort) (l : List α) :
    Lists (dropRepeats id lt (sort l)) (l.map (classOf lt)).toFinset := by
  obtain ⟨hperm, hsorted⟩ := h l
  refine ⟨increasing_dropRepeats hsorted, ?_⟩
  ext c
  rw [List.mem_toFinset, List.mem_toFinset, List.mem_map, List.mem_map]
  constructor
  · rintro ⟨x, hx, rfl⟩
    have hfirst := (mem_dropRepeats_iff hsorted x).1 hx
    exact ⟨x, hperm.mem_iff.1 (List.mem_of_find?_eq_some hfirst), rfl⟩
  · rintro ⟨x, hx, rfl⟩
    have hsome : ((sort l).find? fun y => equiv lt (id y) (id x)).isSome :=
      List.find?_isSome.2 ⟨x, hperm.mem_iff.2 hx, equiv_refl _⟩
    obtain ⟨y, hy⟩ := Option.isSome_iff_exists.1 hsome
    refine ⟨y, (mem_dropRepeats_iff hsorted y).2 (isFirst_of_find hy), ?_⟩
    have hyx := List.find?_some hy
    exact classOf_eq.2 hyx

end OrderClasses
