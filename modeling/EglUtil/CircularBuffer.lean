import EglUtil.Lib.BoundedFifo
import EglUtil.Lib.Calls
import EglUtil.Lib.Ring

/-!
# `CircularBuffer`

A ring of slots, allocated once. The elements are in `count` slots from `head` on; a push that
finds the ring full is refused, or takes the place of the oldest element.

**Theorem (`calls_refine`).** After any calls the elements are those of a bounded list that was
driven by the same calls, every answer is the list's, and every index was inside the vector. The
list is the end of the history, as far as the capacity goes.

An index is wrapped by comparing and subtracting; each of the three helpers computes a remainder
(`toNat_advance`, `toNat_tailIndex`, `toNat_backIndex`), so the elements are a window on the ring,
and a call moves the window.
-/

namespace EglUtil

/-- `count` elements, the oldest at `head`. -/
structure CircularBuffer (α : Type*) where
  buffer : List α
  head : UInt64
  count : UInt64
deriving Repr

namespace CircularBuffer

variable {α : Type*}

/-! ## The operations -/

/-- `std::vector::max_size`: a size must be a `std::ptrdiff_t`, whatever the elements. -/
def maxSize : Nat := 2 ^ 63 - 1

/-- The constructor, with the value of a new slot; `std::vector` throws if it is too large. -/
def create (capacity : UInt64) (value : α) : Option (CircularBuffer α) :=
  if capacity.toNat ≤ maxSize then some ⟨List.replicate capacity.toNat value, 0, 0⟩ else none

def capacity (b : CircularBuffer α) : UInt64 := UInt64.ofNat b.buffer.length

def size (b : CircularBuffer α) : UInt64 := b.count

def empty (b : CircularBuffer α) : Bool := b.count == 0

def full (b : CircularBuffer α) : Bool := b.count == b.capacity

def clear (b : CircularBuffer α) : CircularBuffer α := { b with head := 0, count := 0 }

/-- The index behind this one, around the end. -/
def advance (b : CircularBuffer α) (index : UInt64) : UInt64 :=
  let next := index + 1
  if next = b.capacity then 0 else next

def tailIndex (b : CircularBuffer α) : UInt64 :=
  let tail := b.head + b.count
  if tail ≥ b.capacity then tail - b.capacity else tail

def backIndex (b : CircularBuffer α) : UInt64 :=
  let back := b.head + b.count - 1
  if back ≥ b.capacity then back - b.capacity else back

/-- `buffer_[index]`, or none outside the vector. -/
def slot (b : CircularBuffer α) (index : UInt64) : Option α := b.buffer[index.toNat]?

/-- `buffer_[index] = value`, or none outside the vector. -/
def put (b : CircularBuffer α) (index : UInt64) (value : α) : Option (CircularBuffer α) :=
  if index.toNat < b.buffer.length then
    some { b with buffer := b.buffer.set index.toNat value }
  else none

def tryPush (b : CircularBuffer α) (value : α) : Option (Bool × CircularBuffer α) :=
  if b.full then some (false, b)
  else (b.put b.tailIndex value).map fun b' => (true, { b' with count := b'.count + 1 })

def pushOverwrite (b : CircularBuffer α) (value : α) : Option (CircularBuffer α) :=
  if b.full then (b.put b.head value).map fun b' => { b' with head := b'.advance b'.head }
  else (b.put b.tailIndex value).map fun b' => { b' with count := b'.count + 1 }

/-- `moved` is what is left of an element that was moved from. -/
def pop (moved : α → α) (b : CircularBuffer α) : Option (Option α × CircularBuffer α) :=
  if b.empty then some (none, b)
  else
    (b.slot b.head).bind fun value => (b.put b.head (moved value)).map fun b' =>
      (some value, { b' with head := b'.advance b'.head, count := b'.count - 1 })

/-- None if the assertion fails. -/
def front (b : CircularBuffer α) : Option α := if b.empty then none else b.slot b.head

def back (b : CircularBuffer α) : Option α := if b.empty then none else b.slot b.backIndex

/-! ## Calls -/

inductive Op (α : Type*) where
  | tryPush (value : α)
  | pushOverwrite (value : α)
  | pop
  | clear
deriving Repr, DecidableEq

inductive Reply (α : Type*) where
  | pushed (ok : Bool)
  | popped (value : Option α)
  | done
deriving Repr, DecidableEq

def call (moved : α → α) (b : CircularBuffer α) : Op α → Option (Reply α × CircularBuffer α)
  | .tryPush value => (b.tryPush value).map fun r => (.pushed r.1, r.2)
  | .pushOverwrite value => (b.pushOverwrite value).map fun b' => (.done, b')
  | .pop => (b.pop moved).map fun r => (.popped r.1, r.2)
  | .clear => some (.done, b.clear)

/-- Calls one after the other: the answers, and the buffer that is left. -/
def calls (moved : α → α) : CircularBuffer α → List (Op α) →
    Option (List (Reply α) × CircularBuffer α) :=
  Calls.run (call moved)

/-! ## The bounded list -/

/-- The elements, the oldest first. -/
def contents (b : CircularBuffer α) : List α :=
  Ring.window b.buffer b.head.toNat b.count.toNat

/-- What a call does to a list of at most `cap` elements. -/
def Op.onList (cap : Nat) (xs : List α) : Op α → Reply α × List α
  | .tryPush value =>
    if xs.length < cap then (.pushed true, xs ++ [value]) else (.pushed false, xs)
  | .pushOverwrite value => (.done, BoundedFifo.overwrite cap xs value)
  | .pop => (.popped xs.head?, xs.tail)
  | .clear => (.done, [])

def callsOnList (cap : Nat) : List α → List (Op α) → List (Reply α) × List α :=
  Calls.perform (Op.onList cap)

/-- What was pushed and neither refused, popped nor cleared, be it overwritten or not. A pop takes
away the oldest element that is left, and the history before it. -/
def Op.onHistory (cap : Nat) (history : List α) : Op α → List α
  | .tryPush value => if history.length < cap then history ++ [value] else history
  | .pushOverwrite value => history ++ [value]
  | .pop => (history.rtake cap).tail
  | .clear => []

/-- The list is the end of the history. -/
theorem onList_rtake {cap : Nat} (hcap : 0 < cap) (history : List α) (op : Op α) :
    (op.onList cap (history.rtake cap)).2 = (op.onHistory cap history).rtake cap := by
  cases op with
  | tryPush value =>
    have hroom : min cap history.length < cap ↔ history.length < cap := by omega
    simp only [Op.onList, Op.onHistory, BoundedFifo.length_rtake, hroom]
    split_ifs with h
    · rw [BoundedFifo.rtake_of_length_le (Nat.le_of_lt h), BoundedFifo.rtake_of_length_le]
      rwa [List.length_append]
    · rfl
  | pushOverwrite value => exact BoundedFifo.overwrite_rtake hcap history value
  | pop =>
    refine (BoundedFifo.rtake_of_length_le ?_).symm
    simp only [Op.onList, List.length_tail, BoundedFifo.length_rtake]
    omega
  | clear => exact (List.rtake_nil cap).symm

theorem callsOnList_rtake {cap : Nat} (hcap : 0 < cap) (history : List α) (ops : List (Op α)) :
    (callsOnList cap (history.rtake cap) ops).2 =
      (ops.foldl (Op.onHistory cap) history).rtake cap := by
  induction ops generalizing history with
  | nil => rfl
  | cons op ops ih =>
    rw [List.foldl_cons, ← ih, ← onList_rtake hcap]
    rfl

/-! ## Indices -/

/-- The indices of a buffer that is in use. -/
structure Sound (b : CircularBuffer α) : Prop where
  head_lt : b.head.toNat < b.buffer.length
  count_le : b.count.toNat ≤ b.buffer.length
  size_le : b.buffer.length ≤ maxSize

section Sound

variable {b : CircularBuffer α}

theorem Sound.length_lt (h : Sound b) : b.buffer.length < 2 ^ 63 :=
  Nat.lt_of_le_of_lt h.size_le (by decide)

theorem Sound.toNat_capacity (h : Sound b) : b.capacity.toNat = b.buffer.length :=
  UInt64.toNat_ofNat_of_lt' (Nat.lt_of_lt_of_le h.length_lt (by decide))

theorem Sound.toNat_advance (h : Sound b) {index : UInt64}
    (hindex : index.toNat < b.buffer.length) :
    (b.advance index).toNat = (index.toNat + 1) % b.buffer.length := by
  have hlength := h.length_lt
  have hnext : (index + 1).toNat = index.toNat + 1 := by
    rw [UInt64.toNat_add]
    exact Nat.mod_eq_of_lt (by simp only [UInt64.toNat_one]; omega)
  have hiff : index + 1 = b.capacity ↔ index.toNat + 1 = b.buffer.length := by
    rw [← UInt64.toNat_inj, hnext, h.toNat_capacity]
  unfold advance
  simp only [hiff]
  split_ifs with hwrap
  · rw [hwrap, Nat.mod_self]
    rfl
  · rw [hnext, Nat.mod_eq_of_lt (by omega)]

/-- Comparing and subtracting is enough for a sum of two indices. -/
theorem Sound.toNat_wrap (h : Sound b) {sum : UInt64} {n : Nat} (hsum : sum.toNat = n)
    (hn : n < 2 * b.buffer.length) :
    (if sum ≥ b.capacity then sum - b.capacity else sum).toNat = n % b.buffer.length := by
  have hiff : sum ≥ b.capacity ↔ b.buffer.length ≤ n := by
    rw [ge_iff_le, UInt64.le_iff_toNat_le, h.toNat_capacity, hsum]
  split_ifs with hwrap
  · rw [UInt64.toNat_sub_of_le _ _ hwrap, hsum, h.toNat_capacity]
    rw [hiff] at hwrap
    rw [Nat.mod_eq_sub_mod hwrap, Nat.mod_eq_of_lt (by omega)]
  · rw [hiff] at hwrap
    rw [hsum, Nat.mod_eq_of_lt (Nat.lt_of_not_le hwrap)]

theorem Sound.toNat_add (h : Sound b) :
    (b.head + b.count).toNat = b.head.toNat + b.count.toNat := by
  have hlength := h.length_lt
  have hhead := h.head_lt
  have hcount := h.count_le
  rw [UInt64.toNat_add]
  exact Nat.mod_eq_of_lt (by omega)

theorem Sound.toNat_tailIndex (h : Sound b) :
    b.tailIndex.toNat = (b.head.toNat + b.count.toNat) % b.buffer.length := by
  have hhead := h.head_lt
  have hcount := h.count_le
  exact h.toNat_wrap h.toNat_add (by omega)

theorem Sound.toNat_backIndex (h : Sound b) (hpos : 0 < b.count.toNat) :
    b.backIndex.toNat = (b.head.toNat + (b.count.toNat - 1)) % b.buffer.length := by
  have hhead := h.head_lt
  have hcount := h.count_le
  have hone : (1 : UInt64) ≤ b.head + b.count := by
    rw [UInt64.le_iff_toNat_le, h.toNat_add, UInt64.toNat_one]
    omega
  refine h.toNat_wrap ?_ (by omega)
  rw [UInt64.toNat_sub_of_le _ _ hone, h.toNat_add, UInt64.toNat_one]
  omega

/-! ## One call -/

theorem Sound.length_pos (h : Sound b) : 0 < b.buffer.length :=
  Nat.lt_of_le_of_lt (Nat.zero_le _) h.head_lt

theorem Sound.length_contents (h : Sound b) : b.contents.length = b.count.toNat :=
  Ring.length_window h.count_le

theorem empty_iff : b.empty = true ↔ b.count.toNat = 0 := by
  rw [empty, beq_iff_eq, ← UInt64.toNat_inj, UInt64.toNat_zero]

theorem Sound.full_iff (h : Sound b) : b.full = true ↔ b.count.toNat = b.buffer.length := by
  rw [full, beq_iff_eq, ← UInt64.toNat_inj, h.toNat_capacity]

theorem put_of_lt {index : UInt64} (hindex : index.toNat < b.buffer.length) (value : α) :
    b.put index value = some { b with buffer := b.buffer.set index.toNat value } := if_pos hindex

/-- The elements of a buffer of so many slots. -/
structure Refines (length : Nat) (b : CircularBuffer α) (xs : List α) : Prop where
  sound : Sound b
  length_eq : b.buffer.length = length
  contents_eq : b.contents = xs

/-- A push into a slot that is free. -/
theorem Sound.append (h : Sound b) (hfull : ¬ b.full = true) (value : α) :
    ∃ b', ((b.put b.tailIndex value).map fun b' => { b' with count := b'.count + 1 }) = some b' ∧
      Refines b.buffer.length b' (b.contents ++ [value]) := by
  rw [h.full_iff] at hfull
  have hcount := h.count_le
  have hlength := h.length_lt
  have htail : b.tailIndex.toNat < b.buffer.length := by
    rw [h.toNat_tailIndex]
    exact Nat.mod_lt _ h.length_pos
  have hnext : (b.count + 1).toNat = b.count.toNat + 1 := by
    rw [UInt64.toNat_add, UInt64.toNat_one]
    exact Nat.mod_eq_of_lt (by omega)
  refine ⟨_, by rw [put_of_lt htail, Option.map_some], ⟨?_, ?_, ?_⟩, ?_, ?_⟩
  · simpa using h.head_lt
  · simp only [List.length_set, hnext]
    omega
  · simpa using h.size_le
  · exact List.length_set
  · simp only [contents, hnext, h.toNat_tailIndex]
    exact Ring.window_append (by omega) value

/-- The head moves on, and something is left in the slot it stood at. -/
theorem Sound.advance_head (h : Sound b) (value : α) :
    (CircularBuffer.advance { b with buffer := b.buffer.set b.head.toNat value } b.head).toNat =
      (b.head.toNat + 1) % b.buffer.length := by
  have hadvance := h.toNat_advance h.head_lt
  rwa [advance, capacity, List.length_set]

/-- A push into the slot of the oldest element. -/
theorem Sound.rotate (h : Sound b) (hfull : b.full = true) (value : α) :
    ∃ b', ((b.put b.head value).map fun b' => { b' with head := b'.advance b'.head }) = some b' ∧
      Refines b.buffer.length b' (b.contents.tail ++ [value]) := by
  rw [h.full_iff] at hfull
  have hover := Ring.window_overwrite b.head.toNat h.length_pos value
  rw [Nat.mod_eq_of_lt h.head_lt] at hover
  refine ⟨_, by rw [put_of_lt h.head_lt, Option.map_some], ⟨?_, ?_, ?_⟩, ?_, ?_⟩
  · simp only [h.advance_head, List.length_set]
    exact Nat.mod_lt _ h.length_pos
  · simpa using h.count_le
  · simpa using h.size_le
  · exact List.length_set
  · simp only [contents, h.advance_head, hfull]
    exact hover

theorem Sound.dropOldest (h : Sound b) (hempty : ¬ b.empty = true) (value : α) :
    ∃ b', ((b.put b.head value).map fun b' =>
        { b' with head := b'.advance b'.head, count := b'.count - 1 }) = some b' ∧
      Refines b.buffer.length b' b.contents.tail := by
  have hcount := h.count_le
  rw [empty_iff] at hempty
  have htail := Ring.window_tail b.head.toNat hcount (Nat.pos_of_ne_zero hempty) value
  rw [Nat.mod_eq_of_lt h.head_lt] at htail
  have hone : (1 : UInt64) ≤ b.count := by
    rw [UInt64.le_iff_toNat_le, UInt64.toNat_one]
    omega
  have hless : (b.count - 1).toNat = b.count.toNat - 1 := by
    rw [UInt64.toNat_sub_of_le _ _ hone, UInt64.toNat_one]
  refine ⟨_, by rw [put_of_lt h.head_lt, Option.map_some], ⟨?_, ?_, ?_⟩, ?_, ?_⟩
  · simp only [h.advance_head, List.length_set]
    exact Nat.mod_lt _ h.length_pos
  · simp only [List.length_set, hless]
    omega
  · simpa using h.size_le
  · exact List.length_set
  · simp only [contents, h.advance_head, hless]
    exact htail

theorem Sound.slot_head (h : Sound b) (hempty : ¬ b.empty = true) :
    b.slot b.head = b.contents.head? := by
  rw [empty_iff] at hempty
  have hfirst := Ring.getElem?_window b.head.toNat (Nat.pos_of_ne_zero hempty) h.count_le
  rw [Nat.add_zero, Nat.mod_eq_of_lt h.head_lt] at hfirst
  rw [slot, ← hfirst, List.head?_eq_getElem?]
  rfl

theorem Sound.contents_eq_nil (h : Sound b) : b.contents = [] ↔ b.empty = true := by
  rw [empty_iff, ← h.length_contents, List.length_eq_zero_iff]

/-- **One call** is a call of the list. -/
theorem call_refines (moved : α → α) (h : Sound b) (op : Op α) :
    ∃ b', b.call moved op = some ((op.onList b.buffer.length b.contents).1, b') ∧
      Refines b.buffer.length b' (op.onList b.buffer.length b.contents).2 := by
  have hcount := h.count_le
  have hroom : b.contents.length < b.buffer.length ↔ ¬ b.full = true := by
    rw [h.length_contents, h.full_iff]
    omega
  cases op with
  | tryPush value =>
    simp only [call, tryPush, Op.onList, hroom]
    by_cases hfull : b.full = true
    · rw [if_pos hfull, if_neg (not_not_intro hfull)]
      exact ⟨b, rfl, h, rfl, rfl⟩
    · obtain ⟨b', happend, hb'⟩ := h.append hfull value
      obtain ⟨b'', hput, rfl⟩ := Option.map_eq_some_iff.1 happend
      rw [if_neg hfull, if_pos hfull, hput]
      exact ⟨_, rfl, hb'⟩
  | pushOverwrite value =>
    simp only [call, pushOverwrite, Op.onList, BoundedFifo.overwrite, hroom]
    by_cases hfull : b.full = true
    · obtain ⟨b', hrotate, hb'⟩ := h.rotate hfull value
      rw [if_pos hfull, hrotate, if_neg (not_not_intro hfull)]
      exact ⟨b', rfl, hb'⟩
    · obtain ⟨b', happend, hb'⟩ := h.append hfull value
      rw [if_neg hfull, happend, if_pos hfull]
      exact ⟨b', rfl, hb'⟩
  | pop =>
    simp only [call, pop, Op.onList]
    by_cases hempty : b.empty = true
    · rw [if_pos hempty, h.contents_eq_nil.2 hempty]
      exact ⟨b, rfl, h, rfl, h.contents_eq_nil.2 hempty⟩
    · have hne : b.contents ≠ [] := fun hnil => hempty (h.contents_eq_nil.1 hnil)
      have hvalue := List.head?_eq_some_head hne
      obtain ⟨b', hdrop, hb'⟩ := h.dropOldest hempty (moved (b.contents.head hne))
      obtain ⟨b'', hput, rfl⟩ := Option.map_eq_some_iff.1 hdrop
      rw [if_neg hempty, h.slot_head hempty, hvalue, Option.bind_some, hput]
      exact ⟨_, rfl, hb'⟩
  | clear => exact ⟨b.clear, rfl, ⟨h.length_pos, Nat.zero_le _, h.size_le⟩, rfl,
    Ring.window_zero _ _⟩

/-! ## All calls -/

/-- **Any calls** are the same calls of the list. -/
theorem calls_refine_list (moved : α → α) {length : Nat} {xs : List α}
    (h : Refines length b xs) (ops : List (Op α)) :
    ∃ b', b.calls moved ops = some ((callsOnList length xs ops).1, b') ∧
      Refines length b' (callsOnList length xs ops).2 := by
  refine Calls.run_perform (fun b xs op h => ?_) h ops
  obtain ⟨b', hcall, hb'⟩ := call_refines moved h.sound op
  rw [h.length_eq, h.contents_eq] at hcall hb'
  exact ⟨b', hcall, hb'⟩

/-- What the buffer shows of these elements, and its indices. -/
structure Holds (b : CircularBuffer α) (xs : List α) : Prop where
  contents_eq : b.contents = xs
  size_eq : b.size.toNat = xs.length
  empty_iff : b.empty = true ↔ xs = []
  full_iff : b.full = true ↔ xs.length = b.capacity.toNat
  front_eq : b.front = xs.head?
  back_eq : b.back = xs.getLast?
  head_lt : b.head < b.capacity
  count_le : b.count ≤ b.capacity
  advance_lt : b.advance b.head < b.capacity
  tailIndex_lt : b.tailIndex < b.capacity
  backIndex_lt : b.empty = false → b.backIndex < b.capacity

theorem Sound.slot_backIndex (h : Sound b) (hempty : ¬ b.empty = true) :
    b.slot b.backIndex = b.contents.getLast? := by
  rw [empty_iff] at hempty
  have hcount := h.count_le
  have hlast := Ring.getElem?_window b.head.toNat
    (Nat.sub_lt (Nat.pos_of_ne_zero hempty) Nat.one_pos) hcount
  rw [slot, h.toNat_backIndex (Nat.pos_of_ne_zero hempty), ← hlast, List.getLast?_eq_getElem?,
    h.length_contents]
  rfl

/-- An index that is a remainder is inside the vector. -/
theorem Sound.lt_capacity (h : Sound b) {index : UInt64} {n : Nat}
    (hindex : index.toNat = n % b.buffer.length) : index < b.capacity := by
  rw [UInt64.lt_iff_toNat_lt, h.toNat_capacity, hindex]
  exact Nat.mod_lt _ h.length_pos

theorem Sound.holds (h : Sound b) : Holds b b.contents where
  contents_eq := rfl
  size_eq := h.length_contents.symm
  empty_iff := h.contents_eq_nil.symm
  full_iff := by rw [h.full_iff, h.length_contents, h.toNat_capacity]
  front_eq := by
    by_cases hempty : b.empty = true
    · rw [front, if_pos hempty, h.contents_eq_nil.2 hempty]
      rfl
    · rw [front, if_neg hempty, h.slot_head hempty]
  back_eq := by
    by_cases hempty : b.empty = true
    · rw [back, if_pos hempty, h.contents_eq_nil.2 hempty]
      rfl
    · rw [back, if_neg hempty, h.slot_backIndex hempty]
  head_lt := by
    rw [UInt64.lt_iff_toNat_lt, h.toNat_capacity]
    exact h.head_lt
  count_le := by
    rw [UInt64.le_iff_toNat_le, h.toNat_capacity]
    exact h.count_le
  advance_lt := h.lt_capacity (h.toNat_advance h.head_lt)
  tailIndex_lt := h.lt_capacity h.toNat_tailIndex
  backIndex_lt := by
    intro hempty
    have hcount : ¬ b.count.toNat = 0 := by
      rw [← CircularBuffer.empty_iff, hempty]
      exact Bool.false_ne_true
    exact h.lt_capacity (h.toNat_backIndex (Nat.pos_of_ne_zero hcount))

end Sound

/-- A new buffer has no elements. -/
theorem create_refines {capacity : UInt64} {value : α} {b : CircularBuffer α} (hpos : 0 < capacity)
    (hnew : create capacity value = some b) :
    Refines capacity.toNat b [] := by
  obtain ⟨hsize, hb⟩ := Option.ite_none_right_eq_some.1 hnew
  obtain rfl := Option.some.inj hb
  rw [UInt64.lt_iff_toNat_lt, UInt64.toNat_zero] at hpos
  have hlength : (List.replicate capacity.toNat value).length = capacity.toNat :=
    List.length_replicate
  refine ⟨⟨?_, Nat.zero_le _, ?_⟩, hlength, Ring.window_zero _ _⟩
  · simpa using hpos
  · simpa using hsize

/-- **The buffer refines a bounded list.** The list has the same answers to any calls on a new
buffer, no call leaves the vector, and the buffer holds the list. It is the end of the history. -/
theorem calls_refine (moved : α → α) {capacity : UInt64} {value : α} {b₀ : CircularBuffer α}
    (hpos : 0 < capacity) (hnew : create capacity value = some b₀) (ops : List (Op α)) :
    ∃ b, b₀.calls moved ops = some ((callsOnList capacity.toNat [] ops).1, b) ∧
      b.capacity = capacity ∧ Holds b (callsOnList capacity.toNat [] ops).2 ∧
      (callsOnList capacity.toNat [] ops).2 =
        (ops.foldl (Op.onHistory capacity.toNat) []).rtake capacity.toNat := by
  obtain ⟨b, hcalls, hb⟩ := calls_refine_list moved (create_refines hpos hnew) ops
  refine ⟨b, hcalls, ?_, ?_, ?_⟩
  · rw [CircularBuffer.capacity, hb.length_eq, UInt64.ofNat_toNat]
  · rw [← hb.contents_eq]
    exact hb.sound.holds
  · rw [← callsOnList_rtake (by simpa [UInt64.lt_iff_toNat_lt] using hpos), List.rtake_nil]

/-- A buffer of two slots, where the third push takes the place of the first. -/
theorem calls_refine_two :
    ∃ b, (⟨[0, 0], 0, 0⟩ : CircularBuffer Nat).calls id
        [.tryPush 1, .tryPush 2, .tryPush 3, .pushOverwrite 4, .pop] =
          some ([.pushed true, .pushed true, .pushed false, .done, .popped (some 2)], b) ∧
      b.capacity = 2 ∧ Holds b [4] ∧
      [4] = ([.tryPush 1, .tryPush 2, .tryPush 3, .pushOverwrite 4, .pop].foldl
        (Op.onHistory 2) []).rtake 2 :=
  calls_refine id (by decide : (0 : UInt64) < 2) (if_pos (by decide) : create 2 0 = some _) _

end CircularBuffer

end EglUtil
