import Mathlib.Data.Nat.Log
import Mathlib.Tactic.Linarith
import EglUtil.Lib.BoundedFifo

/-!
# `LockFreeQueue`: the ring and the threads that drive it

A bounded MPMC queue: two ticket counters and a ring of slots, each slot pairing an atomic
sequence number with an optional payload. A producer that reads `sequence = pos` may claim the
ticket `pos`, fill the slot and publish `pos + 1`; a consumer that reads `sequence = pos + 1`
may claim it, empty the slot and publish `pos + capacity` for the next lap.

`try_push` and `try_pop` are given as programs over `Pc`, one constructor for each point
between two atomic accesses, and `step` performs one access. The same program is run by one
thread alone (`EglUtil.LockFreeQueueSequential`) and by any number of threads
(`EglUtil.LockFreeQueueConcurrent`).

`std::size_t` is `UInt64`, so every ticket and sequence operation wraps modulo `2^64`.
-/

namespace EglUtil

/-- `LockFreeQueue::Slot`. -/
structure Slot (α : Type*) where
  sequence : UInt64
  value : Option α

/-- The shared state. `slots i` is `slots_[i]`; only the indices below `size` exist. -/
structure LockFreeQueue (α : Type*) where
  slots : Nat → Slot α
  size : UInt64
  mask : UInt64
  enqueuePos : UInt64
  dequeuePos : UInt64

namespace LockFreeQueue

variable {α : Type*}

/-! ## Construction -/

/-- `std::bit_ceil`: the least power of two that is at least `n`. -/
def bitCeil (n : Nat) : Nat := 2 ^ Nat.clog 2 n

/-- `std::size_t{1} << (digits - 1)`. -/
def largest : UInt64 := (1 : UInt64) <<< (63 : UInt64)

def roundedCapacity (minCapacity : UInt64) : Except String UInt64 :=
  if minCapacity = 0 ∨ minCapacity > largest then
    .error "LockFreeQueue: capacity must be positive and representable"
  else .ok (UInt64.ofNat (bitCeil minCapacity.toNat))

/-- The constructor: slot `i` starts with sequence `i` and no payload. -/
def create (α : Type*) (minCapacity : UInt64) : Except String (LockFreeQueue α) :=
  match roundedCapacity minCapacity with
  | .error e => .error e
  | .ok size => .ok
      { slots := fun i => ⟨UInt64.ofNat i, none⟩
        size := size
        mask := size - 1
        enqueuePos := 0
        dequeuePos := 0 }

def capacity (q : LockFreeQueue α) : UInt64 := q.mask + 1

/-! ## The program of one thread -/

/-- `pos & mask_`. -/
def index (q : LockFreeQueue α) (pos : UInt64) : Nat := (pos &&& q.mask).toNat

def slot (q : LockFreeQueue α) (pos : UInt64) : Slot α := q.slots (q.index pos)

def setSlot (q : LockFreeQueue α) (pos : UInt64) (s : Slot α) : LockFreeQueue α :=
  { q with slots := Function.update q.slots (q.index pos) s }

/-- `static_cast<std::ptrdiff_t>(seq - pos)`. -/
def gap (seq pos : UInt64) : Int64 := (seq - pos).toInt64

/-- Where a thread stands in `try_push` or `try_pop`. -/
inductive Pc (α : Type*) where
  | idle
  /-- `enqueue_pos_` is to be loaded. -/
  | pushLoad (value : α)
  /-- The sequence of slot `pos & mask_` is to be loaded. -/
  | pushSeq (value : α) (pos : UInt64)
  /-- The gap was zero; the ticket is to be claimed. -/
  | pushCas (value : α) (pos : UInt64)
  /-- Ticket `pos` is claimed; the payload is to be emplaced. -/
  | pushEmplace (value : α) (pos : UInt64)
  /-- The payload is in the slot; the sequence is to be stored. -/
  | pushStore (pos : UInt64)
  | pushReturned (ok : Bool)
  /-- `dequeue_pos_` is to be loaded. -/
  | popLoad
  /-- The sequence of slot `pos & mask_` is to be loaded. -/
  | popSeq (pos : UInt64)
  /-- The gap was zero; the ticket is to be claimed. -/
  | popCas (pos : UInt64)
  /-- Ticket `pos` is claimed; the payload is to be moved out. -/
  | popTake (pos : UInt64)
  /-- The payload is in `result`; the sequence is to be stored. -/
  | popStore (pos : UInt64) (result : Option α)
  | popReturned (result : Option α)
deriving DecidableEq

/-- Where a call starts. -/
def start : BoundedFifo.Op α → Pc α
  | .push v => .pushLoad v
  | .pop => .popLoad

/-- One atomic access of a thread that stands at the given point; `none` when it is not inside
a call. `spurious` makes a `compare_exchange_weak` fail although the counter is unchanged. -/
def step (q : LockFreeQueue α) (spurious : Bool) : Pc α → Option (LockFreeQueue α × Pc α)
  | .pushLoad value => some (q, .pushSeq value q.enqueuePos)
  | .pushSeq value pos =>
    let g := gap (q.slot pos).sequence pos
    if g = 0 then some (q, .pushCas value pos)
    else if g < 0 then some (q, .pushReturned false)
    else some (q, .pushLoad value)
  | .pushCas value pos =>
    if q.enqueuePos = pos ∧ spurious = false then
      some ({ q with enqueuePos := pos + 1 }, .pushEmplace value pos)
    else some (q, .pushSeq value q.enqueuePos)
  | .pushEmplace value pos =>
    some (q.setSlot pos { q.slot pos with value := some value }, .pushStore pos)
  | .pushStore pos =>
    some (q.setSlot pos { q.slot pos with sequence := pos + 1 }, .pushReturned true)
  | .popLoad => some (q, .popSeq q.dequeuePos)
  | .popSeq pos =>
    let g := gap (q.slot pos).sequence (pos + 1)
    if g = 0 then some (q, .popCas pos)
    else if g < 0 then some (q, .popReturned none)
    else some (q, .popLoad)
  | .popCas pos =>
    if q.dequeuePos = pos ∧ spurious = false then
      some ({ q with dequeuePos := pos + 1 }, .popTake pos)
    else some (q, .popSeq q.dequeuePos)
  | .popTake pos =>
    some (q.setSlot pos { q.slot pos with value := none }, .popStore pos (q.slot pos).value)
  | .popStore pos result =>
    some (q.setSlot pos { q.slot pos with sequence := pos + q.mask + 1 }, .popReturned result)
  | .idle | .pushReturned _ | .popReturned _ => none

/-! ## Word arithmetic -/

theorem gap_eq_zero {seq pos : UInt64} : gap seq pos = 0 ↔ seq = pos := by
  constructor
  · intro h
    have h0 : seq - pos = 0 := by
      have hback := congrArg Int64.toUInt64 h
      rwa [gap, UInt64.toUInt64_toInt64] at hback
    have : seq - pos + pos = pos := by rw [h0, UInt64.zero_add]
    rwa [UInt64.sub_add_cancel] at this
  · rintro rfl
    simp [gap]

theorem gap_neg {seq pos : UInt64} : gap seq pos < 0 ↔ 2 ^ 63 ≤ (seq - pos).toNat := by
  have hint : (seq - pos).toInt64.toInt = (seq - pos).toBitVec.toInt := rfl
  have hnat : (seq - pos).toBitVec.toNat = (seq - pos).toNat := rfl
  have hlt := (seq - pos).toNat_lt
  rw [gap, Int64.lt_iff_toInt_lt, hint, BitVec.toInt_eq_toNat_cond, hnat, Int64.toInt_zero]
  split <;> omega

theorem gap_ne_zero_of_neg {seq pos : UInt64} (h : gap seq pos < 0) : gap seq pos ≠ 0 := by
  intro h0
  rw [h0] at h
  exact absurd h (by decide)

/-- A slot index is the ticket modulo the ring size. -/
theorem toNat_ofNat_and_mask {k : Nat} (hk : k ≤ 63) (n : Nat) :
    (UInt64.ofNat n &&& UInt64.ofNat (2 ^ k - 1)).toNat = n % 2 ^ k := by
  have hpow : 2 ^ k ≤ 2 ^ 63 := Nat.pow_le_pow_right (by omega) hk
  have hpos : 0 < 2 ^ k := Nat.two_pow_pos k
  have hdvd : 2 ^ k ∣ 2 ^ 64 := Nat.pow_dvd_pow 2 (by omega)
  rw [UInt64.toNat_and, UInt64.toNat_ofNat', UInt64.toNat_ofNat',
    Nat.mod_eq_of_lt (a := 2 ^ k - 1) (by omega), Nat.and_two_pow_sub_one_eq_mod,
    Nat.mod_mod_of_dvd n hdvd]

theorem step_pushSeq_of_eq {q : LockFreeQueue α} {pos : UInt64} (b : Bool) (v : α)
    (h : (q.slot pos).sequence = pos) : q.step b (.pushSeq v pos) = some (q, .pushCas v pos) := by
  simp only [step, gap_eq_zero.2 h, if_true]

theorem step_pushCas_self (q : LockFreeQueue α) (v : α) :
    q.step false (.pushCas v q.enqueuePos) =
      some ({ q with enqueuePos := q.enqueuePos + 1 }, .pushEmplace v q.enqueuePos) := by
  simp only [step, and_self, if_true]

theorem step_popSeq_of_eq {q : LockFreeQueue α} {pos : UInt64} (b : Bool)
    (h : (q.slot pos).sequence = pos + 1) : q.step b (.popSeq pos) = some (q, .popCas pos) := by
  simp only [step, gap_eq_zero.2 h, if_true]

theorem step_popCas_self (q : LockFreeQueue α) :
    q.step false (.popCas q.dequeuePos) =
      some ({ q with dequeuePos := q.dequeuePos + 1 }, .popTake q.dequeuePos) := by
  simp only [step, and_self, if_true]

/-! ## What the constructor accepts -/

/-- The geometry every operation keeps: the ring has `2^k` slots, `k ≤ 63`, and the mask
selects the slot of a ticket. -/
structure Ring (k : Nat) (q : LockFreeQueue α) : Prop where
  le : k ≤ 63
  mask : q.mask = UInt64.ofNat (2 ^ k - 1)

variable {k : Nat} {q : LockFreeQueue α}

theorem Ring.index_ofNat (h : Ring k q) (n : Nat) : q.index (UInt64.ofNat n) = n % 2 ^ k := by
  rw [index, h.mask, toNat_ofNat_and_mask h.le]

theorem Ring.capacity_eq (h : Ring k q) : q.capacity = UInt64.ofNat (2 ^ k) := by
  have hpos : 0 < 2 ^ k := Nat.two_pow_pos k
  rw [capacity, h.mask, ← UInt64.ofNat_one, ← UInt64.ofNat_add, Nat.sub_add_cancel hpos]

theorem Ring.capacity_toNat (h : Ring k q) : q.capacity.toNat = 2 ^ k := by
  have hpow : 2 ^ k ≤ 2 ^ 63 := Nat.pow_le_pow_right (by omega) h.le
  rw [h.capacity_eq, UInt64.toNat_ofNat', Nat.mod_eq_of_lt (by omega)]

/-- No slot outside the allocation is ever touched. -/
theorem Ring.index_lt (h : Ring k q) (pos : UInt64) : q.index pos < q.capacity.toNat := by
  have := h.index_ofNat pos.toNat
  rw [UInt64.ofNat_toNat] at this
  rw [this, h.capacity_toNat]
  exact Nat.mod_lt _ (Nat.two_pow_pos k)

/-- The sequence a consumer publishes is its ticket one lap later. -/
theorem Ring.nextLap (h : Ring k q) (n : Nat) :
    UInt64.ofNat n + q.mask + 1 = UInt64.ofNat (n + 2 ^ k) := by
  have hpos : 0 < 2 ^ k := Nat.two_pow_pos k
  rw [h.mask, ← UInt64.ofNat_one, ← UInt64.ofNat_add, ← UInt64.ofNat_add]
  congr 1
  omega

theorem clog_le {m : Nat} (h : m ≤ 2 ^ 63) : Nat.clog 2 m ≤ 63 :=
  (Nat.clog_le_iff_le_pow (by omega)).2 h

/-- An empty ring of `n` slots. -/
def emptyRing (α : Type*) (n : Nat) : LockFreeQueue α :=
  { slots := fun i => ⟨UInt64.ofNat i, none⟩
    size := UInt64.ofNat n
    mask := UInt64.ofNat (n - 1)
    enqueuePos := 0
    dequeuePos := 0 }

/-- The constructor accepts `1 ≤ min_capacity ≤ 2^63`, and builds an empty ring of
`bit_ceil(min_capacity)` slots. -/
theorem create_eq_ok {m : UInt64} (h₁ : 0 < m.toNat) (h₂ : m.toNat ≤ 2 ^ 63) :
    create α m = .ok (emptyRing α (bitCeil m.toNat)) := by
  have hne : m ≠ 0 := by
    rintro rfl
    simp at h₁
  have hle : ¬ m > largest := by
    rw [gt_iff_lt, UInt64.lt_iff_toNat_lt]
    have : largest.toNat = 2 ^ 63 := by rfl
    omega
  have hone : 1 ≤ bitCeil m.toNat := Nat.one_le_two_pow
  rw [create, roundedCapacity, if_neg (by simp [hne, hle])]
  simp only [emptyRing, UInt64.ofNat_sub hone]
  rfl

theorem create_error_iff {m : UInt64} :
    (∃ e, create α m = .error e) ↔ m.toNat = 0 ∨ 2 ^ 63 < m.toNat := by
  have hl : largest.toNat = 2 ^ 63 := by rfl
  constructor
  · rintro ⟨e, he⟩
    by_contra hc
    push Not at hc
    rw [create_eq_ok (by omega) hc.2] at he
    cases he
  · intro h
    have hbad : m = 0 ∨ m > largest := by
      rcases h with h | h
      · exact Or.inl (UInt64.toNat_inj.1 (by simpa using h))
      · refine Or.inr ?_
        rw [gt_iff_lt, UInt64.lt_iff_toNat_lt, hl]
        exact h
    exact ⟨_, by rw [create, roundedCapacity, if_pos hbad]⟩

end LockFreeQueue

end EglUtil
