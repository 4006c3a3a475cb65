import Mathlib.Data.List.Induction
import Mathlib.Data.Nat.ModEq
import EglUtil.LockFreeQueue

/-!
# `LockFreeQueue` driven by one thread

A single thread runs its calls one after the other, and `compare_exchange_weak` does not fail
spuriously. For a ring of at least two slots every call then returns, and the replies are those
of a FIFO bounded by `capacity()`, over any number of laps and across the wrap of the counters
(`refines_iff`).

With one slot the encoding breaks: a published element leaves the sequence at `pos + 1`, which
is also what a vacant slot shows to the next ticket. The second push overwrites the first, and
the pop after it waits for a sequence that has already passed.
-/

namespace EglUtil.LockFreeQueue

open BoundedFifo

variable {α : Type*}

/-! ## Calls of one thread -/

/-- The reply of a call that has returned. -/
def Pc.reply : Pc α → Option (Reply α)
  | .pushReturned ok => some (.pushed ok)
  | .popReturned v => some (.popped v)
  | _ => none

/-- Run the thread until its call returns, for fewer than `fuel` accesses. -/
def finish : Nat → LockFreeQueue α → Pc α → Option (LockFreeQueue α × Reply α)
  | 0, _, _ => none
  | fuel + 1, q, pc =>
    match pc.reply with
    | some r => some (q, r)
    | none => (q.step false pc).bind fun (q', pc') => finish fuel q' pc'

/-- A sequence of calls: the queue left at the end and the replies in call order. -/
def calls (fuel : Nat) : LockFreeQueue α → List (Op α) → Option (LockFreeQueue α × List (Reply α))
  | q, [] => some (q, [])
  | q, op :: ops =>
    (finish fuel q (start op)).bind fun (q', r) =>
      (calls fuel q' ops).map fun (q'', rs) => (q'', r :: rs)

/-- The stored elements: the payloads of the tickets from `dequeue_pos_` to `enqueue_pos_`. -/
def contents (q : LockFreeQueue α) : List α :=
  (List.range (q.enqueuePos - q.dequeuePos).toNat).filterMap fun i =>
    (q.slot (q.dequeuePos + UInt64.ofNat i)).value

/-- `q` behaves as a FIFO of its capacity: every sequence of calls returns, with the replies of
the FIFO, and leaves the elements the FIFO holds. -/
def Refines (q : LockFreeQueue α) : Prop :=
  ∀ ops : List (Op α), ∃ fuel q',
    calls fuel q ops = some (q', (BoundedFifo.run q.capacity.toNat [] ops).2) ∧
      q'.contents = (BoundedFifo.run q.capacity.toNat [] ops).1

/-! ## Fuel -/

theorem finish_reply {n : Nat} {q : LockFreeQueue α} {pc : Pc α} {r : Reply α}
    (h : pc.reply = some r) : finish (n + 1) q pc = some (q, r) := by
  simp only [finish, h]

theorem finish_step {n : Nat} {q q' : LockFreeQueue α} {pc pc' : Pc α} (hr : pc.reply = none)
    (h : q.step false pc = some (q', pc')) : finish (n + 1) q pc = finish n q' pc' := by
  simp only [finish, hr, h, Option.bind_some]

theorem finish_mono {n m : Nat} (hnm : n ≤ m) {q : LockFreeQueue α} {pc : Pc α}
    {x : LockFreeQueue α × Reply α} (h : finish n q pc = some x) : finish m q pc = some x := by
  induction n generalizing m q pc with
  | zero => simp [finish] at h
  | succ n ih =>
    obtain ⟨m, rfl⟩ := Nat.exists_eq_add_one_of_ne_zero (show m ≠ 0 by omega)
    simp only [finish] at h ⊢
    cases hr : pc.reply with
    | some r => simpa [hr] using h
    | none =>
      rw [hr] at h
      obtain ⟨⟨q', pc'⟩, hstep, hrest⟩ := Option.bind_eq_some_iff.1 h
      simp only [hstep, Option.bind_some]
      exact ih (by omega) hrest

theorem calls_mono {n m : Nat} (hnm : n ≤ m) {q : LockFreeQueue α} {ops : List (Op α)}
    {x : LockFreeQueue α × List (Reply α)} (h : calls n q ops = some x) :
    calls m q ops = some x := by
  induction ops generalizing q x with
  | nil => exact h
  | cons op ops ih =>
    obtain ⟨⟨q', r⟩, hop, hrest⟩ := Option.bind_eq_some_iff.1 h
    obtain ⟨⟨q'', rs⟩, hops, rfl⟩ := Option.map_eq_some_iff.1 hrest
    simp only [calls, finish_mono hnm hop, ih hops, Option.bind_some, Option.map_some]

theorem calls_det {n m : Nat} {q : LockFreeQueue α} {ops : List (Op α)}
    {x y : LockFreeQueue α × List (Reply α)} (hx : calls n q ops = some x)
    (hy : calls m q ops = some y) : x = y := by
  have hx' := calls_mono (Nat.le_max_left n m) hx
  have hy' := calls_mono (Nat.le_max_right n m) hy
  rw [hx'] at hy'
  exact Option.some.inj hy'

/-! ## The invariant

Tickets are counted without wrapping: `d` is the number of pops so far, and the stored list
fixes the number of pushes. The words in memory are these numbers modulo `2^64`; since the ring
size divides `2^64`, the slot of a ticket survives the wrap. -/

/-- The ring holds `xs`, whose oldest element has ticket `d`. -/
structure Stores (k : Nat) (q : LockFreeQueue α) (d : Nat) (xs : List α) : Prop where
  ring : Ring k q
  length_le : xs.length ≤ 2 ^ k
  enqueuePos : q.enqueuePos = UInt64.ofNat (d + xs.length)
  dequeuePos : q.dequeuePos = UInt64.ofNat d
  full : ∀ i v, xs[i]? = some v →
    q.slots ((d + i) % 2 ^ k) = ⟨UInt64.ofNat (d + i + 1), some v⟩
  vacant : ∀ i, xs.length ≤ i → i < 2 ^ k →
    q.slots ((d + i) % 2 ^ k) = ⟨UInt64.ofNat (d + i), none⟩

/-- Within one lap, distinct tickets have distinct slots. -/
theorem add_mod_inj {d i j c : Nat} (hi : i < c) (hj : j < c)
    (h : (d + i) % c = (d + j) % c) : i = j := by
  have hij : Nat.ModEq c i j := Nat.ModEq.add_left_cancel' d h
  rwa [Nat.ModEq, Nat.mod_eq_of_lt hi, Nat.mod_eq_of_lt hj] at hij

theorem add_succ_mod_ne {d i c : Nat} (h : i + 1 < c) : (d + 1 + i) % c ≠ d % c := by
  intro he
  have he' : (d + (i + 1)) % c = (d + 0) % c := by
    rwa [show d + (i + 1) = d + 1 + i by omega, Nat.add_zero]
  have := add_mod_inj h (by omega) he'
  omega

variable {k : Nat} {q : LockFreeQueue α} {d : Nat} {xs : List α}

theorem Stores.slot_vacant (h : Stores k q d xs) (hlt : xs.length < 2 ^ k) :
    q.slot q.enqueuePos = ⟨q.enqueuePos, none⟩ := by
  rw [slot, h.enqueuePos, h.ring.index_ofNat]
  exact h.vacant xs.length le_rfl hlt

/-- In a full ring the next producer finds the element of the previous lap. -/
theorem Stores.gap_full (h : Stores k q d xs) (hk : 1 ≤ k) (hfull : xs.length = 2 ^ k) :
    gap (q.slot q.enqueuePos).sequence q.enqueuePos < 0 := by
  have hpow : 2 ^ k ≤ 2 ^ 63 := Nat.pow_le_pow_right (by omega) h.ring.le
  have htwo : 2 ^ 1 ≤ 2 ^ k := Nat.pow_le_pow_right (by omega) hk
  obtain ⟨v, hv⟩ : ∃ v, xs[0]? = some v := by
    cases xs with
    | nil => simp only [List.length_nil] at hfull; omega
    | cons v xs => exact ⟨v, rfl⟩
  have hslot : q.slot q.enqueuePos = ⟨UInt64.ofNat (d + 1), some v⟩ := by
    rw [slot, h.enqueuePos, h.ring.index_ofNat, hfull, Nat.add_mod_right]
    exact h.full 0 v hv
  rw [gap_neg, hslot, h.enqueuePos, hfull, UInt64.toNat_sub, UInt64.toNat_ofNat',
    UInt64.toNat_ofNat']
  omega

theorem Stores.slot_front {v : α} (h : Stores k q d xs) (hv : xs[0]? = some v) :
    q.slot q.dequeuePos = ⟨q.dequeuePos + 1, some v⟩ := by
  rw [slot, h.dequeuePos, h.ring.index_ofNat, ← UInt64.ofNat_one, ← UInt64.ofNat_add]
  exact h.full 0 v hv

/-- In an empty ring the next consumer finds a slot no producer has filled. -/
theorem Stores.gap_empty (h : Stores k q d []) :
    gap (q.slot q.dequeuePos).sequence (q.dequeuePos + 1) < 0 := by
  have hslot : q.slot q.dequeuePos = ⟨UInt64.ofNat d, none⟩ := by
    rw [slot, h.dequeuePos, h.ring.index_ofNat]
    exact h.vacant 0 le_rfl (Nat.two_pow_pos k)
  rw [gap_neg, hslot, h.dequeuePos, ← UInt64.ofNat_one, ← UInt64.ofNat_add, UInt64.toNat_sub,
    UInt64.toNat_ofNat', UInt64.toNat_ofNat']
  omega

/-! ## One call -/

/-- A push that finds its own ticket in the slot takes it, whatever the slot holds. -/
theorem finish_push_of_eq {q : LockFreeQueue α} (h : (q.slot q.enqueuePos).sequence = q.enqueuePos)
    (v : α) :
    finish 6 q (.pushLoad v) = some
      ({ q with
          slots := Function.update q.slots (q.index q.enqueuePos) ⟨q.enqueuePos + 1, some v⟩
          enqueuePos := q.enqueuePos + 1 }, .pushed true) := by
  rw [finish_step rfl rfl, finish_step rfl (step_pushSeq_of_eq _ v h),
    finish_step rfl (step_pushCas_self q v), finish_step rfl rfl, finish_step rfl rfl,
    finish_reply rfl]
  simp [setSlot, slot, index]

theorem finish_push (h : Stores k q d xs) (hlt : xs.length < 2 ^ k) (v : α) :
    finish 6 q (.pushLoad v) = some
      ({ q with
          slots := Function.update q.slots ((d + xs.length) % 2 ^ k)
            ⟨UInt64.ofNat (d + xs.length + 1), some v⟩
          enqueuePos := UInt64.ofNat (d + xs.length + 1) }, .pushed true) := by
  have hindex : q.index q.enqueuePos = (d + xs.length) % 2 ^ k := by
    rw [h.enqueuePos, h.ring.index_ofNat]
  have hnext : q.enqueuePos + 1 = UInt64.ofNat (d + xs.length + 1) := by
    rw [h.enqueuePos, UInt64.ofNat_add (d + xs.length) 1, UInt64.ofNat_one]
  rw [finish_push_of_eq (by rw [h.slot_vacant hlt]), hindex, hnext]

theorem Stores.push (h : Stores k q d xs) (hlt : xs.length < 2 ^ k) (v : α) :
    Stores k
      { q with
        slots := Function.update q.slots ((d + xs.length) % 2 ^ k)
          ⟨UInt64.ofNat (d + xs.length + 1), some v⟩
        enqueuePos := UInt64.ofNat (d + xs.length + 1) } d (xs ++ [v]) where
  ring := ⟨h.ring.le, h.ring.mask⟩
  length_le := by rw [List.length_append]; exact hlt
  enqueuePos := by simp [Nat.add_assoc]
  dequeuePos := h.dequeuePos
  full := by
    intro i w hw
    have hi : i < (xs ++ [v]).length := (List.getElem?_eq_some_iff.1 hw).1
    rw [List.length_append, List.length_singleton] at hi
    by_cases hix : i = xs.length
    · subst hix
      rw [List.getElem?_append_right le_rfl, Nat.sub_self] at hw
      cases hw
      exact Function.update_self ..
    · have hne : (d + i) % 2 ^ k ≠ (d + xs.length) % 2 ^ k :=
        fun he => hix (add_mod_inj (by omega) hlt he)
      rw [List.getElem?_append_left (by omega)] at hw
      exact (Function.update_of_ne hne ..).trans (h.full i w hw)
  vacant := by
    intro i hi hik
    rw [List.length_append, List.length_singleton] at hi
    have hne : (d + i) % 2 ^ k ≠ (d + xs.length) % 2 ^ k := fun he => by
      have := add_mod_inj hik hlt he
      omega
    exact (Function.update_of_ne hne ..).trans (h.vacant i (by omega) hik)

theorem finish_push_full (h : Stores k q d xs) (hk : 1 ≤ k) (hfull : xs.length = 2 ^ k) (v : α) :
    finish 6 q (.pushLoad v) = some (q, .pushed false) := by
  have hneg := h.gap_full hk hfull
  simp [finish, Pc.reply, step, gap_ne_zero_of_neg hneg, hneg]

/-- A pop of a stored element empties the oldest slot and advances the counter. -/
theorem finish_pop {v : α} (h : Stores k q d (v :: xs)) :
    finish 6 q .popLoad = some
      ({ q with
          slots := Function.update q.slots (d % 2 ^ k) ⟨UInt64.ofNat (d + 2 ^ k), none⟩
          dequeuePos := UInt64.ofNat (d + 1) }, .popped (some v)) := by
  have hslot := h.slot_front (v := v) rfl
  have hseq : (q.slot q.dequeuePos).sequence = q.dequeuePos + 1 := by rw [hslot]
  have hvalue : (q.slots (q.index q.dequeuePos)).value = some v := congrArg Slot.value hslot
  have hindex : q.index q.dequeuePos = d % 2 ^ k := by
    rw [h.dequeuePos, h.ring.index_ofNat]
  have hlap : q.dequeuePos + q.mask + 1 = UInt64.ofNat (d + 2 ^ k) := by
    rw [h.dequeuePos, h.ring.nextLap]
  have hnext : q.dequeuePos + 1 = UInt64.ofNat (d + 1) := by
    rw [h.dequeuePos, UInt64.ofNat_add, UInt64.ofNat_one]
  rw [finish_step rfl rfl, finish_step rfl (step_popSeq_of_eq _ hseq),
    finish_step rfl (step_popCas_self q), finish_step rfl rfl, finish_step rfl rfl,
    finish_reply rfl, ← hindex, ← hnext, ← hlap, ← hvalue]
  simp [setSlot, slot, index]

theorem Stores.pop {v : α} (h : Stores k q d (v :: xs)) :
    Stores k
      { q with
        slots := Function.update q.slots (d % 2 ^ k) ⟨UInt64.ofNat (d + 2 ^ k), none⟩
        dequeuePos := UInt64.ofNat (d + 1) } (d + 1) xs where
  ring := ⟨h.ring.le, h.ring.mask⟩
  length_le := (Nat.le_succ _).trans h.length_le
  enqueuePos := by
    rw [h.enqueuePos, List.length_cons]
    congr 1
    omega
  dequeuePos := rfl
  full := by
    intro i w hw
    have hi : i < xs.length := (List.getElem?_eq_some_iff.1 hw).1
    have hlen : xs.length + 1 ≤ 2 ^ k := h.length_le
    have hne := add_succ_mod_ne (d := d) (show i + 1 < 2 ^ k by omega)
    have hold := h.full (i + 1) w (by simpa using hw)
    rw [show d + (i + 1) = d + 1 + i by omega] at hold
    exact (Function.update_of_ne hne ..).trans hold
  vacant := by
    intro i hi hik
    by_cases hlast : i + 1 = 2 ^ k
    · -- The slot just emptied is the vacant one at the far end of the next lap.
      rw [show d + 1 + i = d + 2 ^ k by omega, Nat.add_mod_right]
      exact Function.update_self ..
    · have hne := add_succ_mod_ne (d := d) (show i + 1 < 2 ^ k by omega)
      have hold := h.vacant (i + 1) (by simpa using hi) (by omega)
      rw [show d + (i + 1) = d + 1 + i by omega] at hold
      exact (Function.update_of_ne hne ..).trans hold

theorem finish_pop_empty (h : Stores k q d []) :
    finish 6 q .popLoad = some (q, .popped none) := by
  have hneg := h.gap_empty
  simp [finish, Pc.reply, step, gap_ne_zero_of_neg hneg, hneg]

/-- **One call.** On a ring of at least two slots every call returns within five accesses, with
the reply of the FIFO and the FIFO's new list in the ring. -/
theorem finish_apply (h : Stores k q d xs) (hk : 1 ≤ k) (op : Op α) :
    ∃ q' d', finish 6 q (start op) = some (q', (BoundedFifo.apply (2 ^ k) xs op).2) ∧
      Stores k q' d' (BoundedFifo.apply (2 ^ k) xs op).1 := by
  cases op with
  | push v =>
    by_cases hlt : xs.length < 2 ^ k
    · have happly : BoundedFifo.apply (2 ^ k) xs (.push v) = (xs ++ [v], .pushed true) :=
        if_pos hlt
      rw [happly]
      exact ⟨_, d, finish_push h hlt v, h.push hlt v⟩
    · have hfull : xs.length = 2 ^ k := le_antisymm h.length_le (not_lt.1 hlt)
      have happly : BoundedFifo.apply (2 ^ k) xs (.push v) = (xs, .pushed false) := if_neg hlt
      rw [happly]
      exact ⟨q, d, finish_push_full h hk hfull v, h⟩
  | pop =>
    cases xs with
    | nil => exact ⟨q, d, finish_pop_empty h, h⟩
    | cons v xs => exact ⟨_, d + 1, finish_pop h, h.pop⟩

/-! ## Whole runs -/

theorem calls_run (hk : 1 ≤ k) (ops : List (Op α)) {q : LockFreeQueue α} {d : Nat} {xs : List α}
    (h : Stores k q d xs) :
    ∃ q' d', calls 6 q ops = some (q', (BoundedFifo.run (2 ^ k) xs ops).2) ∧
      Stores k q' d' (BoundedFifo.run (2 ^ k) xs ops).1 := by
  induction ops generalizing q d xs with
  | nil => exact ⟨q, d, rfl, h⟩
  | cons op ops ih =>
    obtain ⟨q₁, d₁, hop, h₁⟩ := finish_apply h hk op
    obtain ⟨q₂, d₂, hops, h₂⟩ := ih h₁
    refine ⟨q₂, d₂, ?_, h₂⟩
    simp only [calls, hop, hops, Option.bind_some, Option.map_some, BoundedFifo.run_cons]

theorem filterMap_getElem_range (xs : List α) :
    (List.range xs.length).filterMap (fun i => xs[i]?) = xs := by
  induction xs using List.reverseRecOn with
  | nil => rfl
  | append_singleton xs v ih =>
    have hpre : ∀ i ∈ List.range xs.length, (xs ++ [v])[i]? = xs[i]? := fun i hi =>
      List.getElem?_append_left (List.mem_range.1 hi)
    rw [List.length_append, List.length_singleton, List.range_succ, List.filterMap_append,
      List.filterMap_congr hpre, ih]
    simp

/-- The stored list is what the tickets between the two counters show. -/
theorem Stores.contents_eq (h : Stores k q d xs) : q.contents = xs := by
  have hpow : 2 ^ k ≤ 2 ^ 63 := Nat.pow_le_pow_right (by omega) h.ring.le
  have hlen := h.length_le
  have hcount : (q.enqueuePos - q.dequeuePos).toNat = xs.length := by
    rw [h.enqueuePos, h.dequeuePos, UInt64.toNat_sub, UInt64.toNat_ofNat', UInt64.toNat_ofNat']
    omega
  have hget : ∀ i ∈ List.range xs.length,
      (q.slot (q.dequeuePos + UInt64.ofNat i)).value = xs[i]? := by
    intro i hi
    obtain ⟨v, hv⟩ : ∃ v, xs[i]? = some v := ⟨_, List.getElem?_eq_getElem (List.mem_range.1 hi)⟩
    rw [h.dequeuePos, ← UInt64.ofNat_add, slot, h.ring.index_ofNat, h.full i v hv, hv]
  rw [contents, hcount, List.filterMap_congr hget]
  exact filterMap_getElem_range xs

/-! ## The ring against the FIFO -/

/-- The queue a constructor call builds stores nothing. -/
theorem stores_create {m : UInt64} {q : LockFreeQueue α} (h₁ : 0 < m.toNat)
    (h₂ : m.toNat ≤ 2 ^ 63) (hq : create α m = .ok q) :
    Stores (Nat.clog 2 m.toNat) q 0 [] := by
  rw [create_eq_ok h₁ h₂] at hq
  cases hq
  exact {
    ring := ⟨clog_le h₂, rfl⟩
    length_le := Nat.zero_le _
    enqueuePos := rfl
    dequeuePos := rfl
    full := by simp
    vacant := fun i _ hi => by simp [emptyRing, Nat.mod_eq_of_lt hi] }

theorem refines_of_stores {k : Nat} {q : LockFreeQueue α} (h : Stores k q 0 []) (hk : 1 ≤ k) :
    Refines q := by
  intro ops
  obtain ⟨q', d', hcalls, hstores⟩ := calls_run hk ops h
  rw [h.ring.capacity_toNat]
  exact ⟨6, q', hcalls, hstores.contents_eq⟩

/-- A consumer that finds a later sequence than its own reloads the same ticket for ever. -/
theorem finish_pop_spins {q : LockFreeQueue α}
    (h : 0 < gap (q.slot q.dequeuePos).sequence (q.dequeuePos + 1)) (fuel : Nat) :
    finish fuel q .popLoad = none := by
  have hne : gap (q.slot q.dequeuePos).sequence (q.dequeuePos + 1) ≠ 0 := by
    intro h0
    rw [h0] at h
    exact absurd h (by decide)
  have hnn : ¬ gap (q.slot q.dequeuePos).sequence (q.dequeuePos + 1) < 0 := by
    rw [Int64.lt_iff_toInt_lt] at h ⊢
    omega
  have hturn : q.step false (.popSeq q.dequeuePos) = some (q, .popLoad) := by
    simp only [step, hne, hnn, if_false]
  -- Two accesses bring the thread back to where it was.
  induction fuel using Nat.strongRecOn with
  | ind fuel ih =>
    rcases fuel with _ | _ | fuel
    · rfl
    · rfl
    · rw [finish_step rfl rfl, finish_step rfl hturn]
      exact ih fuel (by omega)

/-- On a single slot a second push is accepted over the first, and the pop that follows never
returns. -/
theorem calls_push_push_one {q : LockFreeQueue α} (hq : create α 1 = .ok q) (v w : α) :
    ∃ q', calls 6 q [.push v, .push w] = some (q', [.pushed true, .pushed true]) ∧
      ∀ fuel, finish fuel q' (start .pop) = none := by
  have hone : bitCeil (1 : UInt64).toNat = 1 := by decide
  rw [create_eq_ok (by decide) (by decide), hone] at hq
  cases hq
  simp only [calls, start]
  rw [finish_push_of_eq (by simp [emptyRing, slot, index]), Option.bind_some,
    finish_push_of_eq (by simp [emptyRing, slot, index])]
  refine ⟨_, rfl, finish_pop_spins ?_⟩
  simp [emptyRing, slot, index]
  decide

theorem not_refines_one {q : LockFreeQueue α} (hq : create α 1 = .ok q) (v : α) :
    ¬ Refines q := by
  intro h
  obtain ⟨fuel, q₁, h₁, -⟩ := h [.push v, .push v]
  obtain ⟨q₂, h₂, -⟩ := calls_push_push_one hq v v
  have hstores := stores_create (by decide) (by decide) hq
  have hcap : q.capacity.toNat = 1 := hstores.ring.capacity_toNat
  have hreplies := congrArg Prod.snd (calls_det h₁ h₂)
  rw [hcap] at hreplies
  simp [BoundedFifo.run, BoundedFifo.apply] at hreplies

/-- **One thread.** For every capacity the constructor accepts, the queue behaves as a FIFO
bounded by `capacity()` exactly when at least two elements were asked for. -/
theorem refines_iff [Inhabited α] {m : UInt64} (h₁ : 0 < m.toNat) (h₂ : m.toNat ≤ 2 ^ 63) :
    ∃ q, create α m = .ok q ∧ (Refines q ↔ 2 ≤ m.toNat) := by
  refine ⟨_, create_eq_ok h₁ h₂, fun h => ?_, fun hm => ?_⟩
  · by_contra hlt
    have hone : m = 1 := UInt64.toNat_inj.1 (by rw [UInt64.toNat_one]; omega)
    subst hone
    exact not_refines_one (create_eq_ok h₁ h₂) default h
  · have hk : 1 ≤ Nat.clog 2 m.toNat := Nat.clog_pos (by omega) hm
    exact refines_of_stores (stores_create h₁ h₂ (create_eq_ok h₁ h₂)) hk

theorem refines_iff_three : ∃ q, create Nat 3 = .ok q ∧ (Refines q ↔ 2 ≤ (3 : UInt64).toNat) :=
  refines_iff (by decide) (by decide)

/-- The smallest queue the constructor accepts is no FIFO: it takes two elements into its one
slot, and the pop after them never returns. -/
theorem one_slot_overwrites :
    ∃ q q', create Nat 1 = .ok q ∧ q.capacity = 1 ∧
      calls 6 q [.push 10, .push 20] = some (q', [.pushed true, .pushed true]) ∧
      (∀ fuel, finish fuel q' (start .pop) = none) ∧ ¬ Refines q := by
  have hq := create_eq_ok (α := Nat) (m := 1) (by decide) (by decide)
  obtain ⟨q', hcalls, hspin⟩ := calls_push_push_one hq 10 20
  have hcap := (stores_create (by decide) (by decide) hq).ring.capacity_eq
  exact ⟨_, q', hq, hcap, hcalls, hspin, not_refines_one hq 0⟩

end EglUtil.LockFreeQueue
