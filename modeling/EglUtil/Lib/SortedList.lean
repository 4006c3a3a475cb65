import EglUtil.Lib.WeakOrder
import Mathlib.Data.List.Destutter

/-!
# Lists sorted by a key

A list whose elements have keys, in the order of a strict weak order on the keys.

* `Split`: a key `k` splits a strictly increasing list into what is less, the element with an
  equivalent key if there is one, and what is greater. Each operation of a sorted container is
  computed from this split.
* `SearchAlgorithms.Correct`: what binary search promises on a partitioned range.
* `mem_dropRepeats_iff`: stable sorting and then dropping repeated keys leaves the first element
  of each class.
-/

namespace SortedList

open WeakOrder

variable {α κ : Type*} {key : α → κ} {lt : κ → κ → Bool}

/-! ## Order and equivalence -/

/-- Neither is less. -/
def equiv (lt : κ → κ → Bool) (a b : κ) : Bool := !lt a b && !lt b a

/-- Each element is less than the later ones. -/
def Increasing (key : α → κ) (lt : κ → κ → Bool) (l : List α) : Prop :=
  l.Pairwise fun x y => lt (key x) (key y) = true

/-- No element is greater than a later one. -/
def Ascending (key : α → κ) (lt : κ → κ → Bool) (l : List α) : Prop :=
  l.Pairwise fun x y => lt (key y) (key x) = false

theorem equiv_iff {a b : κ} : equiv lt a b = true ↔ lt a b = false ∧ lt b a = false := by
  simp [equiv]

theorem equiv_comm (a b : κ) : equiv lt a b = equiv lt b a := Bool.and_comm _ _

theorem equiv_of_lt {a b : κ} (h : lt a b = true) : equiv lt a b = false := by
  simp [equiv, h]

theorem equiv_of_gt {a b : κ} (h : lt b a = true) : equiv lt a b = false := by
  simp [equiv, h]

section Order

variable [IsStrictWeakOrder κ fun a b => lt a b = true] {a b c : κ}

theorem equiv_refl (a : κ) : equiv lt a a = true :=
  equiv_iff.2 ⟨lt_irrefl lt a, lt_irrefl lt a⟩

theorem equiv_trans (hab : equiv lt a b = true) (hbc : equiv lt b c = true) :
    equiv lt a c = true := by
  rw [equiv_iff] at hab hbc ⊢
  exact ⟨not_lt_trans hab.1 hbc.1, not_lt_trans hbc.2 hab.2⟩

/-- Equivalent keys are equivalent to the same keys. -/
theorem equiv_congr (hab : equiv lt a b = true) (c : κ) : equiv lt a c = equiv lt b c := by
  rw [Bool.eq_iff_iff]
  constructor
  · intro hac
    rw [equiv_comm] at hab
    exact equiv_trans hab hac
  · exact equiv_trans hab

/-- What is greater than a key is greater than the keys that are not greater than it. -/
theorem lt_of_not_lt_of_lt (hba : lt b a = false) (hbc : lt b c = true) : lt a c = true := by
  by_contra hac
  rw [Bool.not_eq_true] at hac
  rw [not_lt_trans hba hac] at hbc
  cases hbc

theorem lt_of_lt_of_not_lt (hab : lt a b = true) (hcb : lt c b = false) : lt a c = true := by
  by_contra hac
  rw [Bool.not_eq_true] at hac
  rw [not_lt_trans hac hcb] at hab
  cases hab

end Order

/-! ## Splitting at a key -/

/-- The list is what is less than `k`, the element equivalent to it, and what is greater. -/
structure Split (key : α → κ) (lt : κ → κ → Bool) (k : κ) (l less : List α) (same : Option α)
    (greater : List α) : Prop where
  eq : l = less ++ (same.toList ++ greater)
  less : ∀ x ∈ less, lt (key x) k = true
  same : ∀ x ∈ same, equiv lt (key x) k = true
  greater : ∀ x ∈ greater, lt k (key x) = true

theorem Increasing.split [IsStrictWeakOrder κ fun a b => lt a b = true] {l : List α}
    (h : Increasing key lt l) (k : κ) :
    ∃ less same greater, Split key lt k l less same greater := by
  induction l with
  | nil => exact ⟨[], none, [], rfl, nofun, nofun, nofun⟩
  | cons x l ih =>
    obtain ⟨hx, hl⟩ := List.pairwise_cons.1 h
    by_cases hless : lt (key x) k = true
    · obtain ⟨less, same, greater, hsplit⟩ := ih hl
      refine ⟨x :: less, same, greater, ?_, ?_, hsplit.same, hsplit.greater⟩
      · rw [hsplit.eq, List.cons_append]
      · exact List.forall_mem_cons.2 ⟨hless, hsplit.less⟩
    · rw [Bool.not_eq_true] at hless
      by_cases hgreater : lt k (key x) = true
      · refine ⟨[], none, x :: l, rfl, nofun, nofun, ?_⟩
        exact List.forall_mem_cons.2 ⟨hgreater, fun y hy => lt_trans hgreater (hx y hy)⟩
      · rw [Bool.not_eq_true] at hgreater
        refine ⟨[], some x, l, rfl, nofun, ?_, ?_⟩
        · intro y hy
          cases hy
          exact equiv_iff.2 ⟨hless, hgreater⟩
        · exact fun y hy => lt_of_not_lt_of_lt hless (hx y hy)

section Split

variable {k : κ} {l less greater : List α} {same : Option α}

theorem Split.find? (h : Split key lt k l less same greater) :
    l.find? (fun x => equiv lt (key x) k) = same := by
  have hless : less.find? (fun x => equiv lt (key x) k) = none :=
    List.find?_eq_none.2 fun x hx => by simp [equiv_of_lt (h.less x hx)]
  have hgreater : greater.find? (fun x => equiv lt (key x) k) = none :=
    List.find?_eq_none.2 fun x hx => by simp [equiv_of_gt (h.greater x hx)]
  rw [h.eq, List.find?_append, List.find?_append, hless, hgreater]
  cases same with
  | none => rfl
  | some x => simp [h.same x rfl]

theorem Split.not_less [IsStrictWeakOrder κ fun a b => lt a b = true]
    (h : Split key lt k l less same greater) :
    ∀ x ∈ same.toList ++ greater, lt (key x) k = false := by
  intro x hx
  rcases List.mem_append.1 hx with hx | hx
  · exact (equiv_iff.1 (h.same x (Option.mem_toList.1 hx))).1
  · exact lt_asymm (h.greater x hx)

theorem Split.not_greater [IsStrictWeakOrder κ fun a b => lt a b = true]
    (h : Split key lt k l less same greater) :
    ∀ x ∈ less ++ same.toList, lt k (key x) = false := by
  intro x hx
  rcases List.mem_append.1 hx with hx | hx
  · exact lt_asymm (h.less x hx)
  · exact (equiv_iff.1 (h.same x (Option.mem_toList.1 hx))).2

/-- Putting an element in the place of the equivalent one, or between the parts, keeps the
order. -/
theorem Split.increasing [IsStrictWeakOrder κ fun a b => lt a b = true] {same' : Option α}
    (h : Split key lt k l less same greater) (hl : Increasing key lt l)
    (hsame' : ∀ x ∈ same', equiv lt (key x) k = true) :
    Increasing key lt (less ++ (same'.toList ++ greater)) := by
  rw [h.eq] at hl
  obtain ⟨hless, hrest, hcross⟩ := List.pairwise_append.1 hl
  obtain ⟨-, hgreater, -⟩ := List.pairwise_append.1 hrest
  refine List.pairwise_append.2 ⟨hless, List.pairwise_append.2 ⟨?_, hgreater, ?_⟩, ?_⟩
  · cases same' with
    | none => exact .nil
    | some x => exact List.pairwise_singleton _ _
  · intro x hx y hy
    rw [Option.mem_toList] at hx
    exact lt_of_not_lt_of_lt (equiv_iff.1 (hsame' x hx)).2 (h.greater y hy)
  · intro x hx y hy
    rcases List.mem_append.1 hy with hy | hy
    · rw [Option.mem_toList] at hy
      exact lt_of_lt_of_not_lt (h.less x hx) (equiv_iff.1 (hsame' y hy)).1
    · exact hcross x hx y (List.mem_append_right _ hy)

/-- The parts, each without what has an equivalent key. -/
theorem Split.filter (h : Split key lt k l less same greater) :
    l.filter (fun x => !equiv lt (key x) k) = less ++ greater := by
  have hless : less.filter (fun x => !equiv lt (key x) k) = less :=
    List.filter_eq_self.2 fun x hx => by simp [equiv_of_lt (h.less x hx)]
  have hgreater : greater.filter (fun x => !equiv lt (key x) k) = greater :=
    List.filter_eq_self.2 fun x hx => by simp [equiv_of_gt (h.greater x hx)]
  rw [h.eq, List.filter_append, List.filter_append, hless, hgreater]
  cases same with
  | none => rfl
  | some x => simp [h.same x rfl]

/-- Changing the element with an equivalent key. -/
theorem Split.map (h : Split key lt k l less same greater) (f : α → α) :
    l.map (fun x => if equiv lt (key x) k then f x else x) =
      less ++ ((same.map f).toList ++ greater) := by
  have hless : less.map (fun x => if equiv lt (key x) k then f x else x) = less :=
    List.map_congr_left (g := id) (fun x hx => by simp [equiv_of_lt (h.less x hx)]) |>.trans
      (List.map_id _)
  have hgreater : greater.map (fun x => if equiv lt (key x) k then f x else x) = greater :=
    List.map_congr_left (g := id) (fun x hx => by simp [equiv_of_gt (h.greater x hx)]) |>.trans
      (List.map_id _)
  rw [h.eq, List.map_append, List.map_append, hless, hgreater]
  cases same with
  | none => rfl
  | some x => simp [h.same x rfl]

/-! ### At the place of the key -/

theorem Split.getElem?_less (h : Split key lt k l less same greater) :
    l[less.length]? = (same.toList ++ greater).head? := by
  rw [h.eq, List.getElem?_append_right (Nat.le_refl _), Nat.sub_self, List.head?_eq_getElem?]

/-- One comparison tells whether the element there has an equivalent key. -/
theorem Split.any_not_greater (h : Split key lt k l less same greater) :
    (l[less.length]?.any fun x => !lt k (key x)) = same.isSome := by
  rw [h.getElem?_less]
  cases same with
  | some x => simp [(equiv_iff.1 (h.same x rfl)).2]
  | none =>
    cases greater with
    | nil => rfl
    | cons x greater => simp [h.greater x List.mem_cons_self]

theorem Split.insertIdx_less (h : Split key lt k l less none greater) (x : α) :
    l.insertIdx less.length x = less ++ x :: greater := by
  rw [h.eq]
  exact List.modifyTailIdx_add (List.cons x) 0 less greater

theorem Split.eraseIdx_less {x : α} (h : Split key lt k l less (some x) greater) :
    l.eraseIdx less.length = less ++ greater := by
  rw [h.eq, List.eraseIdx_append_of_length_le (Nat.le_refl _), Nat.sub_self]
  rfl

end Split

/-! ## Searching -/

/-- `std::lower_bound` and `std::upper_bound`, which find the end of the elements that satisfy a
test, and the first that does. -/
structure SearchAlgorithms (α : Type*) where
  lowerBound : (α → Bool) → List α → Nat
  upperBound : (α → Bool) → List α → Nat

/-- What the standard promises of them on a partitioned range. -/
structure SearchAlgorithms.Correct (S : SearchAlgorithms α) : Prop where
  lower : ∀ p a b, (∀ x ∈ a, p x = true) → (∀ x ∈ b, p x = false) →
    S.lowerBound p (a ++ b) = a.length
  upper : ∀ p a b, (∀ x ∈ a, p x = false) → (∀ x ∈ b, p x = true) →
    S.upperBound p (a ++ b) = a.length

theorem Split.lowerBound [IsStrictWeakOrder κ fun a b => lt a b = true] {S : SearchAlgorithms α}
    (hS : S.Correct) {k : κ} {l less greater : List α} {same : Option α}
    (h : Split key lt k l less same greater) :
    S.lowerBound (fun x => lt (key x) k) l = less.length := by
  rw [h.eq]
  exact hS.lower _ _ _ h.less h.not_less

theorem Split.upperBound [IsStrictWeakOrder κ fun a b => lt a b = true] {S : SearchAlgorithms α}
    (hS : S.Correct) {k : κ} {l less greater : List α} {same : Option α}
    (h : Split key lt k l less same greater) :
    S.upperBound (fun x => lt k (key x)) l = (less ++ same.toList).length := by
  rw [h.eq, ← List.append_assoc]
  exact hS.upper _ _ _ h.not_greater h.greater

/-- Searching from the front. -/
def SearchAlgorithms.scanning (α : Type*) : SearchAlgorithms α where
  lowerBound p l := l.findIdx fun x => !p x
  upperBound p l := l.findIdx p

theorem SearchAlgorithms.scanning_correct : (SearchAlgorithms.scanning α).Correct := by
  have hfind : ∀ (p : α → Bool) (a b : List α), (∀ x ∈ a, p x = false) →
      (∀ x ∈ b, p x = true) → (a ++ b).findIdx p = a.length := by
    intro p a b ha hb
    induction a with
    | nil =>
      cases b with
      | nil => rfl
      | cons x b => simp [List.findIdx_cons, hb x List.mem_cons_self]
    | cons x a ih =>
      rw [List.cons_append, List.findIdx_cons, ha x List.mem_cons_self,
        ih fun y hy => ha y (List.mem_cons_of_mem _ hy)]
      rfl
  constructor
  · intro p a b ha hb
    exact hfind _ a b (fun x hx => by simp [ha x hx]) (fun x hx => by simp [hb x hx])
  · exact hfind

/-! ## One element of each class -/

theorem countP_append_of_forall {p : α → Bool} {a b : List α} (ha : ∀ x ∈ a, p x = true)
    (hb : ∀ x ∈ b, p x = false) : (a ++ b).countP p = a.length := by
  rw [List.countP_append, List.countP_eq_length.2 ha,
    List.countP_eq_zero.2 fun x hx => by simp [hb x hx], Nat.add_zero]

/-- No two elements have equivalent keys. -/
def Distinct (key : α → κ) (lt : κ → κ → Bool) (l : List α) : Prop :=
  l.Pairwise fun x y => equiv lt (key x) (key y) = false

theorem Increasing.distinct {l : List α} (h : Increasing key lt l) : Distinct key lt l :=
  h.imp fun hxy => equiv_of_lt hxy

theorem Distinct.perm {l l' : List α} (h : Distinct key lt l) (hp : l.Perm l') :
    Distinct key lt l' :=
  (hp.pairwise_iff fun hxy => by rwa [equiv_comm]).1 h

theorem Distinct.eq_of_equiv {l : List α} (h : Distinct key lt l) {x y : α} (hx : x ∈ l)
    (hy : y ∈ l) (hxy : equiv lt (key x) (key y) = true) : x = y := by
  have hsymm : Std.Symm fun x y : α => equiv lt (key x) (key y) = false :=
    ⟨fun x y h => by rwa [equiv_comm]⟩
  by_contra hne
  have hfalse := List.Pairwise.forall h hx hy hne
  rw [hxy] at hfalse
  cases hfalse

/-- Where at most one element passes a test, it is found in any order. -/
theorem find_perm {l l' : List α} {p : α → Bool} (hp : l.Perm l')
    (hunique : ∀ x ∈ l, ∀ y ∈ l, p x = true → p y = true → x = y) : l.find? p = l'.find? p := by
  cases hfind : l.find? p with
  | none =>
    rw [eq_comm, List.find?_eq_none]
    exact fun x hx => List.find?_eq_none.1 hfind x (hp.mem_iff.2 hx)
  | some x =>
    have hx := List.mem_of_find?_eq_some hfind
    have hpx := List.find?_some hfind
    cases hfind' : l'.find? p with
    | none => exact absurd hpx (List.find?_eq_none.1 hfind' x (hp.mem_iff.1 hx))
    | some y =>
      have hy := hp.mem_iff.2 (List.mem_of_find?_eq_some hfind')
      rw [hunique x hx y hy hpx (List.find?_some hfind')]

/-- Two increasing lists of the same elements are the same list. -/
theorem Increasing.eq_of_perm [IsStrictWeakOrder κ fun a b => lt a b = true] {l l' : List α}
    (h : Increasing key lt l) (h' : Increasing key lt l') (hp : l.Perm l') : l = l' := by
  refine hp.eq_of_pairwise (fun x y _ _ hxy hyx => ?_) h h'
  rw [lt_asymm hxy] at hyx
  cases hyx

section Classes

variable [IsStrictWeakOrder κ fun a b => lt a b = true] {l l' : List α}

theorem Distinct.nodup (h : Distinct key lt l) : l.Nodup := by
  refine h.imp fun {x y} hxy heq => ?_
  rw [heq, equiv_refl] at hxy
  cases hxy

theorem Distinct.find_perm (h : Distinct key lt l) (hp : l.Perm l') (k : κ) :
    l.find? (fun x => equiv lt (key x) k) = l'.find? (fun x => equiv lt (key x) k) := by
  refine SortedList.find_perm hp ?_
  intro x hx y hy hxk hyk
  rw [equiv_comm] at hyk
  exact h.eq_of_equiv hx hy (equiv_trans hxk hyk)

/-! ### Adding what is new -/

/-- The element is appended unless there is one with an equivalent key. -/
def addNew (key : α → κ) (lt : κ → κ → Bool) (l : List α) (x : α) : List α :=
  if (l.find? fun y => equiv lt (key y) (key x)).isSome then l else l ++ [x]

theorem find_addNew_isSome (l : List α) (x : α) :
    ((addNew key lt l x).find? fun y => equiv lt (key y) (key x)).isSome := by
  rw [addNew]
  split_ifs with h
  · exact h
  · simp [List.find?_append, equiv_refl]

/-- The first element of a class. -/
def IsFirst (key : α → κ) (lt : κ → κ → Bool) (l : List α) (x : α) : Prop :=
  l.find? (fun y => equiv lt (key y) (key x)) = some x

/-- The class of a key has a first element. -/
theorem isFirst_of_find {k : κ} {x : α} (h : l.find? (fun y => equiv lt (key y) k) = some x) :
    IsFirst key lt l x := by
  have hx := List.find?_some h
  have hsame : (fun y => equiv lt (key y) (key x)) = fun y => equiv lt (key y) k := by
    funext y
    rw [equiv_comm, equiv_congr hx, equiv_comm]
  rw [IsFirst, hsame, h]

/-- No earlier element has an equivalent key. -/
theorem isFirst_iff {x : α} : IsFirst key lt l x ↔
    ∃ before after, l = before ++ x :: after ∧ ∀ y ∈ before, equiv lt (key y) (key x) = false := by
  rw [IsFirst, List.find?_eq_some_iff_append]
  simp only [equiv_refl, true_and, Bool.not_eq_true']

/-- What was added are the first elements of the classes. -/
theorem mem_foldl_addNew_iff (l : List α) :
    Distinct key lt (l.foldl (addNew key lt) []) ∧
      ∀ x, x ∈ l.foldl (addNew key lt) [] ↔ IsFirst key lt l x := by
  induction l using List.reverseRecOn with
  | nil => exact ⟨.nil, fun x => by simp [IsFirst]⟩
  | append_singleton l y ih =>
    obtain ⟨hdistinct, hmem⟩ := ih
    rw [List.foldl_append, List.foldl_cons, List.foldl_nil, addNew]
    split_ifs with hold
    · -- an element equivalent to `y` was there already
      obtain ⟨z, hz⟩ := Option.isSome_iff_exists.1 hold
      have hzl := (hmem z).1 (List.mem_of_find?_eq_some hz)
      have hzy := List.find?_some hz
      refine ⟨hdistinct, fun x => ?_⟩
      rw [hmem, IsFirst, IsFirst, List.find?_append]
      cases hfind : l.find? (fun w => equiv lt (key w) (key x)) with
      | some w => rfl
      | none =>
        have hyx : equiv lt (key y) (key x) = false := by
          rw [Bool.eq_false_iff]
          intro hyx
          exact List.find?_eq_none.1 hfind z (List.mem_of_find?_eq_some hzl) (equiv_trans hzy hyx)
        simp [hyx]
    · have hnew : ∀ z ∈ l, equiv lt (key z) (key y) = false := by
        intro z hz
        rw [Bool.eq_false_iff]
        intro hzy
        have hsome : (l.find? fun w => equiv lt (key w) (key y)).isSome :=
          List.find?_isSome.2 ⟨z, hz, hzy⟩
        obtain ⟨w, hw⟩ := Option.isSome_iff_exists.1 hsome
        have hwl := (hmem w).2 (isFirst_of_find hw)
        have hwy := List.find?_some hw
        exact hold (List.find?_isSome.2 ⟨w, hwl, hwy⟩)
      refine ⟨?_, fun x => ?_⟩
      · refine List.pairwise_append.2 ⟨hdistinct, List.pairwise_singleton _ _, ?_⟩
        intro x hx z hz
        rw [List.mem_singleton.1 hz]
        exact hnew x (List.mem_of_find?_eq_some ((hmem x).1 hx))
      · rw [List.mem_append, hmem, IsFirst, IsFirst, List.find?_append, List.mem_singleton]
        cases hfind : l.find? (fun w => equiv lt (key w) (key x)) with
        | some w =>
          have hxy : x ≠ y := by
            intro hxy
            rw [hxy] at hfind
            have hwy := hnew w (List.mem_of_find?_eq_some hfind)
            rw [List.find?_some hfind] at hwy
            cases hwy
          simp [hxy]
        | none =>
          by_cases hxy : x = y
          · simp [hxy, equiv_refl]
          · simp [hxy, Ne.symm hxy]

/-! ### Sorting and dropping repeats -/

/-- `std::stable_sort` -/
def stableSort (key : α → κ) (lt : κ → κ → Bool) (l : List α) : List α :=
  l.mergeSort fun x y => !lt (key y) (key x)

/-- `std::unique`: of consecutive elements with equivalent keys only the first is left. -/
def dropRepeats (key : α → κ) (lt : κ → κ → Bool) (l : List α) : List α :=
  l.destutter fun x y => equiv lt (key x) (key y) = false

theorem not_lt_total (x y : α) :
    (!lt (key y) (key x) || !lt (key x) (key y)) = true := by
  cases hxy : lt (key x) (key y) with
  | false => simp
  | true => simp [lt_asymm hxy]

theorem not_lt_transitive (x y z : α) (hxy : (!lt (key y) (key x)) = true)
    (hyz : (!lt (key z) (key y)) = true) : (!lt (key z) (key x)) = true := by
  rw [Bool.not_eq_true'] at hxy hyz ⊢
  exact not_lt_trans hyz hxy

theorem ascending_stableSort (l : List α) : Ascending key lt (stableSort key lt l) :=
  (List.pairwise_mergeSort not_lt_transitive not_lt_total l).imp fun h => by simpa using h

/-- Sorting keeps the order within a class. -/
theorem filter_stableSort (l : List α) (k : κ) :
    (stableSort key lt l).filter (fun x => equiv lt (key x) k) =
      l.filter fun x => equiv lt (key x) k := by
  have hclass : (l.filter fun x => equiv lt (key x) k).Pairwise
      fun x y => (!lt (key y) (key x)) = true := by
    refine List.pairwise_of_forall_mem_list fun x hx y hy => ?_
    have hxk := (List.mem_filter.1 hx).2
    have hyk := (List.mem_filter.1 hy).2
    rw [equiv_comm] at hxk
    simpa using (equiv_iff.1 (equiv_trans hyk hxk)).1
  have hsub := (List.sublist_mergeSort not_lt_transitive not_lt_total hclass
    List.filter_sublist).filter fun x => equiv lt (key x) k
  rw [List.filter_filter] at hsub
  simp only [Bool.and_self] at hsub
  have hlength := ((List.mergeSort_perm l fun x y => !lt (key y) (key x)).filter
    fun x => equiv lt (key x) k).length_eq
  exact (hsub.eq_of_length hlength.symm).symm

theorem find_stableSort (l : List α) (k : κ) :
    (stableSort key lt l).find? (fun x => equiv lt (key x) k) =
      l.find? fun x => equiv lt (key x) k := by
  rw [← List.head?_filter, ← List.head?_filter, filter_stableSort]

/-- Of an ascending list, the first elements of the classes are left. -/
theorem mem_destutter'_iff {a : α} (h : Ascending key lt (a :: l)) (x : α) :
    x ∈ l.destutter' (fun x y => equiv lt (key x) (key y) = false) a ↔
      IsFirst key lt (a :: l) x := by
  unfold IsFirst
  induction l generalizing a with
  | nil =>
    rw [List.destutter'_nil, List.mem_singleton]
    by_cases hxa : x = a
    · simp [hxa, equiv_refl]
    · simp [hxa, Ne.symm hxa]
  | cons b l ih =>
    obtain ⟨ha, hbl⟩ := List.pairwise_cons.1 h
    have hba := ha b List.mem_cons_self
    cases hab : equiv lt (key a) (key b) with
    | false =>
      -- everything behind `a` is greater
      have hlt : lt (key a) (key b) = true := by simpa [equiv, hba] using hab
      have hgreater : ∀ y ∈ b :: l, lt (key a) (key y) = true := by
        intro y hy
        rcases List.mem_cons.1 hy with rfl | hy
        · exact hlt
        · exact lt_of_lt_of_not_lt hlt ((List.pairwise_cons.1 hbl).1 y hy)
      rw [List.destutter'_cons_pos l hab, List.mem_cons, ih hbl]
      cases hax : equiv lt (key a) (key x) with
      | true =>
        have hfirst : (a :: b :: l).find? (fun y => equiv lt (key y) (key x)) = some a :=
          List.find?_cons_of_pos hax
        rw [hfirst, Option.some.injEq, eq_comm]
        refine or_iff_left ?_
        intro hfind
        rw [equiv_of_lt (hgreater x (List.mem_of_find?_eq_some hfind))] at hax
        cases hax
      | false =>
        have hne : x ≠ a := by
          intro hxa
          rw [hxa, equiv_refl] at hax
          cases hax
        have hskip : (a :: b :: l).find? (fun y => equiv lt (key y) (key x)) =
            (b :: l).find? (fun y => equiv lt (key y) (key x)) :=
          List.find?_cons_of_neg (by simp [hax])
        rw [hskip, or_iff_right hne]
    | true =>
      have hal : Ascending key lt (a :: l) :=
        List.pairwise_cons.2 ⟨fun y hy => ha y (List.mem_cons_of_mem _ hy),
          (List.pairwise_cons.1 hbl).2⟩
      rw [List.destutter'_cons_neg l (by simp [hab]), ih hal]
      cases hax : equiv lt (key a) (key x) with
      | true => simp only [List.find?_cons, hax]
      | false =>
        have hbx : equiv lt (key b) (key x) = false := by rw [← equiv_congr hab, hax]
        simp only [List.find?_cons, hax, hbx]

theorem mem_dropRepeats_iff (h : Ascending key lt l) (x : α) :
    x ∈ dropRepeats key lt l ↔ IsFirst key lt l x := by
  cases l with
  | nil => simp [dropRepeats, IsFirst]
  | cons a l => exact mem_destutter'_iff h x

theorem increasing_dropRepeats (h : Ascending key lt l) :
    Increasing key lt (dropRepeats key lt l) := by
  have hsub : Ascending key lt (dropRepeats key lt l) :=
    List.Pairwise.sublist (List.destutter_sublist _ l) h
  have hchain : (dropRepeats key lt l).IsChain
      fun x y => equiv lt (key x) (key y) = false := List.isChain_destutter _ l
  have htrans : IsTrans α fun x y => lt (key x) (key y) = true := ⟨fun _ _ _ => lt_trans⟩
  refine List.isChain_iff_pairwise.1 (List.isChain_iff_getElem.2 fun i hi => ?_)
  have hne := List.isChain_iff_getElem.1 hchain i hi
  have hle := List.pairwise_iff_getElem.1 hsub i (i + 1) (by omega) hi (Nat.lt_succ_self i)
  simpa [equiv, hle] using hne

/-- **Sorting and dropping repeats** leaves the elements that are new when they are added one by
one. -/
theorem dropRepeats_stableSort_perm (l : List α) :
    (dropRepeats key lt (stableSort key lt l)).Perm (l.foldl (addNew key lt) []) := by
  have hsorted : Increasing key lt (dropRepeats key lt (stableSort key lt l)) :=
    increasing_dropRepeats (ascending_stableSort l)
  obtain ⟨hdistinct, hmem⟩ : Distinct key lt (l.foldl (addNew key lt) []) ∧
      ∀ x, x ∈ l.foldl (addNew key lt) [] ↔ IsFirst key lt l x := mem_foldl_addNew_iff l
  refine (List.perm_ext_iff_of_nodup hsorted.distinct.nodup hdistinct.nodup).2 fun x => ?_
  rw [hmem, mem_dropRepeats_iff (ascending_stableSort l), IsFirst, IsFirst, find_stableSort]

/-! ## Positions -/

/-- The number of elements that are less. -/
def rank (key : α → κ) (lt : κ → κ → Bool) (l : List α) (k : κ) : Nat :=
  l.countP fun x => lt (key x) k

/-- The element that so many others are less than. -/
def atRank (key : α → κ) (lt : κ → κ → Bool) (l : List α) (i : Nat) : Option α :=
  l.find? fun x => rank key lt l (key x) == i

/-- The least element that passes the test. -/
def least (key : α → κ) (lt : κ → κ → Bool) (l : List α) (p : α → Bool) : Option α :=
  l.find? fun x => p x && l.all fun y => !p y || !lt (key y) (key x)

theorem Split.rank_eq {k : κ} {less greater : List α} {same : Option α}
    (h : Split key lt k l less same greater) (hp : l.Perm l') :
    rank key lt l' k = less.length := by
  rw [rank, ← hp.countP_eq, h.eq]
  exact countP_append_of_forall h.less h.not_less

theorem Increasing.split_getElem (h : Increasing key lt l) {i : Nat} (hi : i < l.length) :
    Split key lt (key l[i]) l (l.take i) (some l[i]) (l.drop (i + 1)) := by
  have hsplit : l = l.take i ++ ([l[i]] ++ l.drop (i + 1)) := by
    rw [List.singleton_append, ← List.drop_eq_getElem_cons hi, List.take_append_drop]
  have hpairs := h
  rw [Increasing, hsplit] at hpairs
  obtain ⟨-, hrest, hcross⟩ := List.pairwise_append.1 hpairs
  obtain ⟨-, -, hgreater⟩ := List.pairwise_append.1 hrest
  refine ⟨hsplit, ?_, ?_, ?_⟩
  · exact fun x hx => hcross x hx _ (List.mem_append_left _ List.mem_cons_self)
  · intro x hx
    cases hx
    exact equiv_refl _
  · exact fun x hx => hgreater _ List.mem_cons_self x hx

theorem Increasing.rank_getElem (h : Increasing key lt l) {i : Nat} (hi : i < l.length)
    (hp : l.Perm l') : rank key lt l' (key l[i]) = i := by
  rw [(h.split_getElem hi).rank_eq hp, List.length_take, Nat.min_eq_left hi.le]

/-- The element of a rank is the one in that place of the increasing list. -/
theorem Increasing.atRank_eq (h : Increasing key lt l) (hp : l.Perm l') (i : Nat) :
    atRank key lt l' i = l[i]? := by
  have hindex : ∀ x ∈ l, (rank key lt l' (key x) == i) = true → l[i]? = some x := by
    intro x hx hrank
    obtain ⟨j, hj, rfl⟩ := List.getElem_of_mem hx
    rw [h.rank_getElem hj hp, beq_iff_eq] at hrank
    rw [← hrank, List.getElem?_eq_getElem hj]
  cases hfind : atRank key lt l' i with
  | some x =>
    have hx := hp.mem_iff.2 (List.mem_of_find?_eq_some hfind)
    have hrank := List.find?_some hfind
    exact (hindex x hx hrank).symm
  | none =>
    rw [eq_comm, List.getElem?_eq_none_iff]
    by_contra hi
    rw [Nat.not_le] at hi
    have hmem := hp.mem_iff.1 (List.getElem_mem hi)
    exact List.find?_eq_none.1 hfind _ hmem (by simp [h.rank_getElem hi hp])

/-- Where the elements that pass the test are behind the others, the first of them is least. -/
theorem Increasing.least_eq {p : α → Bool} {a b : List α} (h : Increasing key lt (a ++ b))
    (ha : ∀ x ∈ a, p x = false) (hb : ∀ x ∈ b, p x = true) (hp : (a ++ b).Perm l') :
    least key lt l' p = b.head? := by
  have hpass : ∀ x ∈ l', p x = true → x ∈ b := by
    intro x hx hpx
    rcases List.mem_append.1 (hp.mem_iff.2 hx) with hx | hx
    · rw [ha x hx] at hpx
      cases hpx
    · exact hx
  cases b with
  | nil =>
    refine List.find?_eq_none.2 fun x hx hQ => ?_
    rw [Bool.and_eq_true] at hQ
    cases hpass x hx hQ.1
  | cons e b =>
    obtain ⟨he, -⟩ := List.pairwise_cons.1 (List.pairwise_append.1 h).2.1
    have hpe := hb e List.mem_cons_self
    have hel : e ∈ l' := hp.mem_iff.1 (List.mem_append_right _ List.mem_cons_self)
    cases hfind : least key lt l' p with
    | none =>
      refine absurd ?_ (List.find?_eq_none.1 hfind e hel)
      rw [Bool.and_eq_true, List.all_eq_true]
      refine ⟨hpe, fun y hy => ?_⟩
      cases hpy : p y with
      | false => rfl
      | true =>
        rcases List.mem_cons.1 (hpass y hy hpy) with rfl | hyb
        · simp [WeakOrder.lt_irrefl lt]
        · simp [lt_asymm (he y hyb)]
    | some x =>
      have hQ := List.find?_some hfind
      rw [Bool.and_eq_true, List.all_eq_true] at hQ
      rcases List.mem_cons.1 (hpass x (List.mem_of_find?_eq_some hfind) hQ.1) with rfl | hxb
      · rfl
      · have hnot := hQ.2 e hel
        simp [hpe, he x hxb] at hnot

end Classes

end SortedList
