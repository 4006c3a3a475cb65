import Mathlib.Data.List.Sort
import Mathlib.Order.RelClasses

/-!
# Strict weak orders and heaps

The comparator of an ordered container or of a heap is a Boolean function `lt` that is a strict
weak order: elements neither of which is less are equivalent without being equal.

* `not_lt_trans`: being not less is transitive, which is how equivalence is used;
* `IsHeap`: the order that `push_heap` and `pop_heap` maintain in an array, and `IsHeap.root`,
  which says that its first element is a greatest one;
* `HeapAlgorithms.Correct`: what the two algorithms promise.
-/

namespace WeakOrder

variable {α : Type*} {lt : α → α → Bool}

section Order

variable [hlt : IsStrictWeakOrder α fun a b => lt a b = true] {a b c : α}

variable (lt) in
theorem lt_irrefl (a : α) : lt a a = false :=
  Bool.eq_false_iff.2 (irrefl_of (fun a b => lt a b = true) a)

theorem lt_trans (hab : lt a b = true) (hbc : lt b c = true) : lt a c = true :=
  trans_of (fun a b => lt a b = true) hab hbc

theorem lt_asymm (hab : lt a b = true) : lt b a = false := by
  rw [Bool.eq_false_iff]
  intro hba
  have haa := lt_trans hab hba
  rw [lt_irrefl lt] at haa
  cases haa

/-- Where neither step is strict one of them may still be an equivalence, and an equivalent
element compares alike. -/
theorem not_lt_trans (hab : lt a b = false) (hbc : lt b c = false) : lt a c = false := by
  rw [Bool.eq_false_iff] at hab hbc ⊢
  intro hac
  have hba : ¬ lt b a = true := fun hba => hbc (lt_trans hba hac)
  have hcb : ¬ lt c b = true := fun hcb => hab (lt_trans hac hcb)
  exact (hlt.incomp_trans a b c ⟨hab, hba⟩ ⟨hbc, hcb⟩).1 hac

end Order

/-! ## Heaps -/

/-- No element is greater than its parent. -/
def IsHeap (lt : α → α → Bool) (l : List α) : Prop :=
  ∀ (i : Nat) (x y : α), l[i / 2]? = some x → l[i + 1]? = some y → lt x y = false

theorem isHeap_nil : IsHeap lt ([] : List α) := by
  intro i x y hx
  cases hx

/-- The first element of a heap is a greatest one: compare along the chain of parents. -/
theorem IsHeap.root [IsStrictWeakOrder α fun a b => lt a b = true] {x : α} {l : List α}
    (h : IsHeap lt (x :: l)) {y : α} (hy : y ∈ l) : lt x y = false := by
  have hindex : ∀ (j : Nat) (z : α), (x :: l)[j]? = some z → lt x z = false := by
    intro j
    induction j using Nat.strong_induction_on with
    | _ j ih =>
      intro z hz
      cases j with
      | zero =>
        cases hz
        exact lt_irrefl lt x
      | succ i =>
        obtain ⟨hlt, -⟩ := List.getElem?_eq_some_iff.1 hz
        have hparent : i / 2 < (x :: l).length := by omega
        have hget := List.getElem?_eq_getElem hparent
        exact not_lt_trans (ih (i / 2) (by omega) _ hget) (h i _ z hget hz)
  obtain ⟨j, hj⟩ := List.getElem?_of_mem hy
  exact hindex (j + 1) y (by rw [List.getElem?_cons_succ, hj])

/-- `std::push_heap` and `std::pop_heap`: both rearrange a whole range. -/
structure HeapAlgorithms (α : Type*) where
  pushHeap : (α → α → Bool) → List α → List α
  popHeap : (α → α → Bool) → List α → List α

/-- What the standard promises: `push_heap` makes a heap of a heap with one element appended,
`pop_heap` moves the first element of a heap to the end and makes a heap of the others. -/
structure HeapAlgorithms.Correct (H : HeapAlgorithms α) (lt : α → α → Bool) : Prop where
  push : ∀ l x, IsHeap lt l → (H.pushHeap lt (l ++ [x])).Perm (l ++ [x]) ∧
    IsHeap lt (H.pushHeap lt (l ++ [x]))
  pop : ∀ l x, IsHeap lt (x :: l) → ∃ l', H.popHeap lt (x :: l) = l' ++ [x] ∧ l'.Perm l ∧
    IsHeap lt l'

/-! ### Heaps that are sorted -/

/-- A list in which no element is less than a later one is a heap. -/
theorem isHeap_of_pairwise {l : List α} (h : l.Pairwise fun a b => lt a b = false) :
    IsHeap lt l := by
  intro i x y hx hy
  obtain ⟨hi, rfl⟩ := List.getElem?_eq_some_iff.1 hx
  obtain ⟨hj, rfl⟩ := List.getElem?_eq_some_iff.1 hy
  exact List.pairwise_iff_getElem.1 h _ _ hi hj (by omega)

/-- The two algorithms by sorting, greatest first. -/
def HeapAlgorithms.sorting (α : Type*) : HeapAlgorithms α where
  pushHeap lt l := l.insertionSort fun a b => lt a b = false
  popHeap lt l := (l.tail.insertionSort fun a b => lt a b = false) ++ l.head?.toList

theorem HeapAlgorithms.sorting_correct (hlt : IsStrictWeakOrder α fun a b => lt a b = true) :
    (HeapAlgorithms.sorting α).Correct lt := by
  have htotal : Std.Total fun a b => lt a b = false := ⟨fun a b => by
    rcases hab : lt a b with _ | _
    · exact .inl rfl
    · exact .inr (lt_asymm hab)⟩
  have htrans : IsTrans α fun a b => lt a b = false := ⟨fun _ _ _ => not_lt_trans⟩
  have hsorted : ∀ l : List α, IsHeap lt (l.insertionSort fun a b => lt a b = false) :=
    fun l => isHeap_of_pairwise (List.pairwise_insertionSort _ l)
  constructor
  · intro l x _
    exact ⟨List.perm_insertionSort _ _, hsorted _⟩
  · intro l x _
    exact ⟨_, rfl, List.perm_insertionSort _ _, hsorted _⟩

end WeakOrder
