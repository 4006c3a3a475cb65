import EglUtil.Lib.Ownership
import EglUtil.Lib.Runs
import Mathlib.Algebra.GroupWithZero.Nat
import Mathlib.Data.List.Nodup
import Mathlib.Data.List.Perm.Subperm

/-!
# `ObjectPool`

Pools of objects, each with a stack of the slots that are free, and handles that borrow a slot.
A step is a section that holds the mutex of a pool, together with what the same thread then does
to its own handles. Move-assignment gives the overwritten borrow back in such a section and takes
over the other handle's borrow afterwards, so other threads run in between.

**Theorem (`reachable_lends_once`).** In every reachable state the free slots of a pool and the
slots its handles borrow are all slots of the pool, each once.

**Invariant** (`Inv`). Borrows are tokens that handles own: exclusive, and held exactly for the
slots that are not free. The target of a running move-assignment owns none.
-/

namespace EglUtil

open Transition Ownership

/-! ## A pool -/

/-- The objects themselves are left out: there are `capacity` of them, the size of `storage_`. -/
structure ObjectPool where
  capacity : Nat
  freeSlots : List Nat
  freeCount : Nat
deriving Repr, DecidableEq

namespace ObjectPool

/-- `init_free_list` -/
def create (capacity : Nat) : ObjectPool := ⟨capacity, List.range capacity, capacity⟩

/-- The slot, or `nullopt`. There is no result if the read is outside `free_slots_`. -/
def tryAcquire (p : ObjectPool) : Option (Option Nat × ObjectPool) :=
  if p.freeCount = 0 then some (none, p)
  else
    let count := p.freeCount - 1
    p.freeSlots[count]?.map fun index => (some index, { p with freeCount := count })

/-- There is no result if the write is outside `free_slots_`. -/
def release (p : ObjectPool) (index : Nat) : Option ObjectPool :=
  if p.freeCount < p.freeSlots.length then
    some { p with freeSlots := p.freeSlots.set p.freeCount index, freeCount := p.freeCount + 1 }
  else none

def available (p : ObjectPool) : Nat := p.freeCount

def inUse (p : ObjectPool) : Nat := p.capacity - p.freeCount

/-- The slots on the stack. -/
def free (p : ObjectPool) : List Nat := p.freeSlots.take p.freeCount

/-- The stack has its full size. -/
structure Sized (p : ObjectPool) : Prop where
  slots : p.freeSlots.length = p.capacity
  count : p.freeCount ≤ p.capacity

theorem Sized.length_free {p : ObjectPool} (h : p.Sized) : p.free.length = p.freeCount := by
  rw [free, List.length_take, h.slots, Nat.min_eq_left h.count]

theorem tryAcquire_empty {p : ObjectPool} (hzero : p.freeCount = 0) :
    p.tryAcquire = some (none, p) := by
  rw [tryAcquire, if_pos hzero]

theorem Sized.tryAcquire {p : ObjectPool} (h : p.Sized) (hpos : p.freeCount ≠ 0) :
    ∃ index q, p.tryAcquire = some (some index, q) ∧ q.Sized ∧ q.capacity = p.capacity ∧
      p.free = q.free ++ [index] := by
  have hcount := h.count
  have hslots := h.slots
  have hlt : p.freeCount - 1 < p.freeSlots.length := by omega
  refine ⟨p.freeSlots[p.freeCount - 1], { p with freeCount := p.freeCount - 1 }, ?_, ?_, rfl, ?_⟩
  · simp only [ObjectPool.tryAcquire, if_neg hpos, List.getElem?_eq_getElem hlt, Option.map_some]
  · exact ⟨hslots, Nat.le_trans (Nat.sub_le _ _) hcount⟩
  · rw [free, free, List.take_append_getElem hlt, Nat.sub_add_cancel (Nat.pos_of_ne_zero hpos)]

theorem Sized.release {p : ObjectPool} (h : p.Sized) (hlt : p.freeCount < p.capacity)
    (index : Nat) :
    ∃ q, p.release index = some q ∧ q.Sized ∧ q.capacity = p.capacity ∧
      q.free = p.free ++ [index] := by
  have hlen : p.freeCount < p.freeSlots.length := by
    rw [h.slots]
    exact hlt
  refine ⟨_, if_pos hlen, ?_, rfl, ?_⟩
  · refine ⟨?_, hlt⟩
    rw [List.length_set, h.slots]
  · have hset : p.freeCount < (p.freeSlots.set p.freeCount index).length := by
      rw [List.length_set]
      exact hlen
    rw [free, free, ← List.take_append_getElem hset, List.getElem_set_self,
      List.take_set_of_le (Nat.le_refl _)]

/-- The slots are divided into those on the stack and those that are held. -/
structure Divided (p : ObjectPool) (held : Nat → Prop) : Prop where
  sized : p.Sized
  nodup : p.free.Nodup
  apart : ∀ i ∈ p.free, ¬ held i
  slot_iff : ∀ i, i < p.capacity ↔ i ∈ p.free ∨ held i

theorem divided_create (capacity : Nat) : (create capacity).Divided fun _ => False := by
  have hfree : (create capacity).free = List.range capacity := by
    rw [free, create]
    exact List.take_of_length_le (Nat.le_of_eq List.length_range)
  refine ⟨⟨List.length_range, Nat.le_refl _⟩, ?_, fun _ _ h => h, fun i => ?_⟩
  · rw [hfree]
    exact List.nodup_range
  · rw [hfree, List.mem_range, or_false]
    rfl

section Divided

variable {p q : ObjectPool} {held held' : Nat → Prop} {index : Nat}

theorem Divided.congr (h : p.Divided held) (hiff : ∀ i, held' i ↔ held i) : p.Divided held' where
  sized := h.sized
  nodup := h.nodup
  apart i hi hheld := h.apart i hi ((hiff i).1 hheld)
  slot_iff i := by rw [h.slot_iff, hiff]

/-- A slot that is held is missing on the stack, so there is room for it. -/
theorem Divided.freeCount_lt (h : p.Divided held) (hindex : held index) :
    p.freeCount < p.capacity := by
  have hnodup : (index :: p.free).Nodup :=
    List.nodup_cons.2 ⟨fun hmem => h.apart index hmem hindex, h.nodup⟩
  have hsub : index :: p.free ⊆ List.range p.capacity := by
    intro i hi
    rw [List.mem_range, h.slot_iff]
    rcases List.mem_cons.1 hi with rfl | hi
    · exact .inr hindex
    · exact .inl hi
  have hle := (hnodup.subperm hsub).length_le
  rw [List.length_cons, h.sized.length_free, List.length_range] at hle
  exact hle

theorem Divided.acquire (h : p.Divided held) (hsized : q.Sized)
    (hcapacity : q.capacity = p.capacity) (hfree : p.free = q.free ++ [index]) :
    q.Divided (fun i => index = i ∨ held i) ∧ ¬ held index := by
  have hnodup := h.nodup
  rw [hfree, List.nodup_append] at hnodup
  obtain ⟨hq, -, hdisjoint⟩ := hnodup
  refine ⟨⟨hsized, hq, fun i hi hheld => ?_, fun i => ?_⟩, ?_⟩
  · rcases hheld with rfl | hheld
    · exact hdisjoint index hi index List.mem_cons_self rfl
    · exact h.apart i (by rw [hfree]; exact List.mem_append_left _ hi) hheld
  · rw [hcapacity, h.slot_iff, hfree, List.mem_append, List.mem_singleton, or_assoc, @eq_comm _ i]
  · exact h.apart index (by rw [hfree]; exact List.mem_append_right _ List.mem_cons_self)

theorem Divided.release (h : p.Divided held) (hindex : held index) (hsized : q.Sized)
    (hcapacity : q.capacity = p.capacity) (hfree : q.free = p.free ++ [index]) :
    q.Divided fun i => index ≠ i ∧ held i := by
  refine ⟨hsized, ?_, fun i hi hheld => ?_, fun i => ?_⟩
  · rw [hfree, List.nodup_append]
    refine ⟨h.nodup, List.nodup_singleton _, ?_⟩
    intro i hi j hj hij
    rw [List.mem_singleton] at hj
    rw [hij, hj] at hi
    exact h.apart index hi hindex
  · rw [hfree, List.mem_append, List.mem_singleton] at hi
    rcases hi with hi | rfl
    · exact h.apart i hi hheld.2
    · exact hheld.1 rfl
  · rw [hcapacity, h.slot_iff, hfree, List.mem_append, List.mem_singleton]
    by_cases hi : index = i
    · rw [← hi]
      simp [hindex]
    · simp [hi, Ne.symm hi]

end Divided

/-! ## Pools and handles -/

/-- An empty handle, one that was moved from, keeps its index. -/
structure Handle (π : Type*) where
  pool : Option π
  index : Nat
deriving Repr, DecidableEq

structure World (π η : Type*) where
  pool : π → ObjectPool
  handle : η → Option (Handle π)
  /-- The move-assignments that have released what they overwrite, target and source. -/
  assigning : List (η × η)

inductive Action (π η : Type*) where
  /-- The borrow goes to a new handle. -/
  | tryAcquire (p : π) (h : η)
  | moveConstruct (h other : η)
  /-- Move-assignment up to its release. -/
  | moveAssign (h other : η)
  /-- The rest of a move-assignment. -/
  | finishAssign (h other : η)
  | destroy (h : η)

variable {π η : Type*}

def World.initial (capacity : π → Nat) : World π η :=
  ⟨fun p => create (capacity p), fun _ => none, []⟩

section Steps

variable [DecidableEq π] [DecidableEq η]

def World.alive (w : World π η) (h : η) : Bool := (w.handle h).isSome

def World.inCall (w : World π η) (h : η) : Bool :=
  w.assigning.any fun c => c.1 == h || c.2 == h

/-- A handle is used by one thread at a time. -/
def World.usable (w : World π η) (h : η) : Bool := w.alive h && !w.inCall h

def World.allows (w : World π η) : Action π η → Bool
  | .tryAcquire _ h => !w.alive h
  | .moveConstruct h other => !w.alive h && w.usable other
  | .moveAssign h other => w.usable h && w.usable other
  | .finishAssign h other => w.assigning.contains (h, other)
  | .destroy h => w.usable h

/-- `release_slot` -/
def World.releaseSlot (w : World π η) (h : η) : Option (World π η) :=
  match w.handle h with
  | some ⟨some p, index⟩ =>
    ((w.pool p).release index).map fun pool =>
      { w with
        pool := Function.update w.pool p pool
        handle := Function.update w.handle h (some ⟨none, index⟩) }
  | _ => some w

/-- The borrow of `other` goes to `h`: `std::exchange` on the pool, a copy of the index. -/
def World.handOver (w : World π η) (h other : η) : World π η :=
  match w.handle other with
  | some x =>
    { w with
      handle := Function.update (Function.update w.handle other (some ⟨none, x.index⟩)) h
        (some x) }
  | none => w

/-- There is no result if an access is outside the memory of a pool. -/
def World.perform (w : World π η) : Action π η → Option (World π η)
  | .tryAcquire p h =>
    (w.pool p).tryAcquire.map fun (found, pool) =>
      { w with
        pool := Function.update w.pool p pool
        handle := match found with
          | some index => Function.update w.handle h (some ⟨some p, index⟩)
          | none => w.handle }
  | .moveConstruct h other => some (w.handOver h other)
  | .moveAssign h other =>
    if h = other then some w
    else (w.releaseSlot h).map fun w => { w with assigning := (h, other) :: w.assigning }
  | .finishAssign h other =>
    some { w.handOver h other with assigning := w.assigning.erase (h, other) }
  | .destroy h =>
    (w.releaseSlot h).map fun w => { w with handle := Function.update w.handle h none }

def World.step (w : World π η) (a : Action π η) : Option (World π η) :=
  if w.allows a then w.perform a else none

end Steps

/-! ## Borrows as tokens -/

/-- The slot that a handle borrows. -/
def Handle.borrow (x : Handle π) : Option (π × Nat) := x.pool.map fun p => (p, x.index)

/-- What each handle borrows. -/
def World.borrow (w : World π η) : η → Option (π × Nat) :=
  (fun o => o.bind Handle.borrow) ∘ w.handle

/-- The handles of the running move-assignments. -/
def World.inUse (w : World π η) : List η := w.assigning.flatMap fun c => [c.1, c.2]

/-- The slots of each pool are its free ones and the borrowed ones, each borrowed once. -/
structure Lent (capacity : π → Nat) (w : World π η) : Prop where
  capacity : ∀ p, (w.pool p).capacity = capacity p
  divided : ∀ p, (w.pool p).Divided fun i => Held w.borrow (p, i)
  exclusive : Exclusive w.borrow

/-- Running move-assignments have handles of their own, and their targets are empty. -/
structure Calls (w : World π η) : Prop where
  nodup : w.inUse.Nodup
  alive : ∀ h ∈ w.inUse, w.handle h ≠ none
  released : ∀ c ∈ w.assigning, w.borrow c.1 = none

structure Inv (capacity : π → Nat) (w : World π η) : Prop where
  lent : Lent capacity w
  calls : Calls w

theorem borrow_eq_some {w : World π η} {h : η} {p : π} {index : Nat} :
    w.borrow h = some (p, index) ↔ w.handle h = some ⟨some p, index⟩ := by
  rw [World.borrow, Function.comp_apply]
  rcases w.handle h with _ | ⟨_ | q, i⟩ <;> simp [Handle.borrow]

theorem inv_initial (capacity : π → Nat) : Inv capacity (World.initial capacity : World π η) := by
  have hheld : ∀ k, ¬ Held (World.initial capacity : World π η).borrow k := by
    intro k hk
    obtain ⟨h, hh⟩ := hk
    cases hh
  refine ⟨⟨fun _ => rfl, fun p => ?_, ?_⟩, List.nodup_nil, nofun, nofun⟩
  · exact (divided_create (capacity p)).congr fun i => iff_of_false (hheld (p, i)) id
  · intro _ _ _ hi
    cases hi

/-! ## One step -/

section Steps

variable {capacity : π → Nat} {w w' : World π η} {h other : η}
  {p : π} {index : Nat}

theorem borrow_update [DecidableEq η] {o : Option (Handle π)}
    (hw : w'.handle = Function.update w.handle h o) :
    w'.borrow = Function.update w.borrow h (o.bind Handle.borrow) := by
  rw [World.borrow, hw, Function.comp_update]
  rfl

theorem Lent.congr (hlent : Lent capacity w) (hpool : w'.pool = w.pool)
    (hborrow : w'.borrow = w.borrow) : Lent capacity w' := by
  refine ⟨fun p => ?_, fun p => ?_, ?_⟩
  · rw [hpool]
    exact hlent.capacity p
  · rw [hpool, hborrow]
    exact hlent.divided p
  · rw [hborrow]
    exact hlent.exclusive

/-- One pool and what is borrowed from it change. -/
theorem Lent.change [DecidableEq π] (hlent : Lent capacity w) {q : ObjectPool} {held : Nat → Prop}
    (hcapacity : q.capacity = (w.pool p).capacity) (hdivided : q.Divided held)
    (hpool : w'.pool = Function.update w.pool p q) (hexclusive : Exclusive w'.borrow)
    (hheld : ∀ i, Held w'.borrow (p, i) ↔ held i)
    (hother : ∀ p' i, p' ≠ p → (Held w'.borrow (p', i) ↔ Held w.borrow (p', i))) :
    Lent capacity w' := by
  refine ⟨fun p' => ?_, fun p' => ?_, hexclusive⟩
  · by_cases hp : p' = p
    · rw [hp, hpool, Function.update_self, hcapacity, hlent.capacity]
    · rw [hpool, Function.update_of_ne hp, hlent.capacity]
  · by_cases hp : p' = p
    · rw [hp, hpool, Function.update_self]
      exact hdivided.congr hheld
    · rw [hpool, Function.update_of_ne hp]
      exact (hlent.divided p').congr fun i => hother p' i hp

theorem Lent.acquire [DecidableEq π] [DecidableEq η] (hlent : Lent capacity w)
    (hnew : w.handle h = none) {q : ObjectPool}
    (hsized : q.Sized) (hcapacity : q.capacity = (w.pool p).capacity)
    (hfree : (w.pool p).free = q.free ++ [index]) (hpool : w'.pool = Function.update w.pool p q)
    (hhandle : w'.handle = Function.update w.handle h (some ⟨some p, index⟩)) :
    Lent capacity w' := by
  obtain ⟨hdivided, hunheld⟩ := (hlent.divided p).acquire hsized hcapacity hfree
  have hnone : w.borrow h = none := by
    rw [World.borrow, Function.comp_apply, hnew]
    rfl
  have hborrow : w'.borrow = Function.update w.borrow h (some (p, index)) := borrow_update hhandle
  refine hlent.change hcapacity hdivided hpool ?_ (fun i => ?_) fun p' i hp => ?_
  · rw [hborrow]
    exact hlent.exclusive.grant hunheld
  · rw [hborrow, held_grant_iff hnone, Prod.mk.injEq, and_iff_right rfl]
  · rw [hborrow, held_grant_iff hnone, Prod.mk.injEq]
    exact or_iff_right fun heq => hp heq.1.symm

/-- Giving a borrow back never writes outside the stack, and empties the handle. -/
theorem Lent.releaseSlot [DecidableEq π] [DecidableEq η] (hlent : Lent capacity w) {x : Handle π}
    (hx : w.handle h = some x) :
    ∃ w', w.releaseSlot h = some w' ∧ Lent capacity w' ∧ w'.assigning = w.assigning ∧
      w'.handle = Function.update w.handle h (some ⟨none, x.index⟩) := by
  obtain ⟨pool, index⟩ := x
  cases pool with
  | none =>
    refine ⟨w, ?_, hlent, rfl, ?_⟩
    · simp only [World.releaseSlot, hx]
    · rw [← hx, Function.update_eq_self]
  | some p =>
    have hb : w.borrow h = some (p, index) := borrow_eq_some.2 hx
    have hdivided := hlent.divided p
    have hindex : Held w.borrow (p, index) := ⟨h, hb⟩
    obtain ⟨q, hq, hsized, hcapacity, hfree⟩ :=
      hdivided.sized.release (hdivided.freeCount_lt hindex) index
    let w' : World π η :=
      { w with
        pool := Function.update w.pool p q
        handle := Function.update w.handle h (some ⟨none, index⟩) }
    refine ⟨w', ?_, ?_, rfl, rfl⟩
    · simp only [World.releaseSlot, hx, hq, Option.map_some, w']
    · have hborrow : w'.borrow = Function.update w.borrow h none := by
        rw [borrow_update (o := some ⟨none, index⟩) rfl]
        rfl
      have hreleased := hdivided.release hindex hsized hcapacity hfree
      refine hlent.change hcapacity hreleased rfl ?_ (fun i => ?_) fun p' i hp => ?_
      · rw [hborrow]
        exact hlent.exclusive.drop
      · rw [hborrow, hlent.exclusive.held_drop_iff hb, ne_eq, Prod.mk.injEq, and_iff_right rfl]
      · rw [hborrow, hlent.exclusive.held_drop_iff hb, ne_eq, Prod.mk.injEq]
        exact and_iff_right fun heq => hp heq.1.symm

/-- A borrow moves to an empty handle. -/
theorem Lent.handOver [DecidableEq η] (hlent : Lent capacity w) (hnone : w.borrow h = none) :
    Lent capacity (w.handOver h other) := by
  rw [World.handOver]
  cases hx : w.handle other with
  | none => exact hlent
  | some x =>
    have hborrow : (fun o => o.bind Handle.borrow) ∘ Function.update
        (Function.update w.handle other (some ⟨none, x.index⟩)) h (some x) =
        Function.update (Function.update w.borrow other none) h (w.borrow other) := by
      rw [Function.comp_update, Function.comp_update, World.borrow, Function.comp_apply, hx]
      rfl
    refine ⟨hlent.capacity, fun p => ?_, ?_⟩
    · refine (hlent.divided p).congr fun i => ?_
      rw [World.borrow, hborrow, held_move_iff hnone]
    · rw [World.borrow, hborrow]
      exact hlent.exclusive.move

/-! ### Running move-assignments -/

theorem inCall_iff [DecidableEq η] : w.inCall h = true ↔ h ∈ w.inUse := by
  simp only [World.inCall, World.inUse, List.any_eq_true, Bool.or_eq_true, beq_iff_eq,
    List.mem_flatMap, List.mem_cons, List.not_mem_nil, or_false, @eq_comm _ h]

theorem usable_iff [DecidableEq η] :
    w.usable h = true ↔ (∃ x, w.handle h = some x) ∧ h ∉ w.inUse := by
  rw [World.usable, Bool.and_eq_true, World.alive, Option.isSome_iff_exists, Bool.not_eq_true',
    ← Bool.not_eq_true, inCall_iff]

theorem alive_eq_false : w.alive h = false ↔ w.handle h = none := by
  rw [World.alive, Option.isSome_eq_false_iff, Option.isNone_iff_eq_none]

/-- A handle that no running move-assignment uses changes. -/
theorem Calls.update [DecidableEq η] (hcalls : Calls w) (hfree : h ∉ w.inUse)
    {o : Option (Handle π)} (hassigning : w'.assigning = w.assigning)
    (hhandle : w'.handle = Function.update w.handle h o) : Calls w' := by
  have hinUse : w'.inUse = w.inUse := by rw [World.inUse, hassigning, World.inUse]
  refine ⟨?_, fun k hk => ?_, fun c hc => ?_⟩
  · rw [hinUse]
    exact hcalls.nodup
  · rw [hinUse] at hk
    have hkh : k ≠ h := fun heq => hfree (heq ▸ hk)
    rw [hhandle, Function.update_of_ne hkh]
    exact hcalls.alive k hk
  · rw [hassigning] at hc
    have hmem : c.1 ∈ w.inUse := List.mem_flatMap.2 ⟨c, hc, List.mem_cons_self⟩
    have hkh : c.1 ≠ h := fun heq => hfree (heq ▸ hmem)
    rw [borrow_update hhandle, Function.update_of_ne hkh]
    exact hcalls.released c hc

theorem Calls.begin (hcalls : Calls w) (hne : h ≠ other) (hh : h ∉ w.inUse)
    (hother : other ∉ w.inUse) (hempty : w.borrow h = none) (halive : w.handle h ≠ none)
    (hotherAlive : w.handle other ≠ none) :
    Calls { w with assigning := (h, other) :: w.assigning } := by
  refine ⟨?_, fun k hk => ?_, fun c hc => ?_⟩
  · refine List.nodup_cons.2 ⟨?_, List.nodup_cons.2 ⟨hother, hcalls.nodup⟩⟩
    exact List.not_mem_cons_of_ne_of_not_mem hne hh
  · rcases List.mem_cons.1 hk with rfl | hk
    · exact halive
    · rcases List.mem_cons.1 hk with rfl | hk
      · exact hotherAlive
      · exact hcalls.alive k hk
  · rcases List.mem_cons.1 hc with rfl | hc
    · exact hempty
    · exact hcalls.released c hc

theorem Calls.finish [DecidableEq η] (hcalls : Calls w) (hmem : (h, other) ∈ w.assigning) :
    Calls { w with assigning := w.assigning.erase (h, other) } ∧ h ≠ other ∧
      h ∉ World.inUse { w with assigning := w.assigning.erase (h, other) } ∧
      other ∉ World.inUse { w with assigning := w.assigning.erase (h, other) } := by
  have hperm : w.inUse.Perm (h :: other ::
      World.inUse { w with assigning := w.assigning.erase (h, other) }) :=
    (List.perm_cons_erase hmem).flatMap_right _
  obtain ⟨hh, hrest⟩ := List.nodup_cons.1 (hperm.nodup hcalls.nodup)
  obtain ⟨hother, hnodup⟩ := List.nodup_cons.1 hrest
  refine ⟨⟨hnodup, fun k hk => ?_, fun c hc => ?_⟩, ?_, ?_, hother⟩
  · exact hcalls.alive k (hperm.mem_iff.2 (List.mem_cons_of_mem _ (List.mem_cons_of_mem _ hk)))
  · exact hcalls.released c (List.mem_of_mem_erase hc)
  · exact fun heq => hh (heq ▸ List.mem_cons_self)
  · exact fun hk => hh (List.mem_cons_of_mem _ hk)

/-! ### Every action -/

theorem handOver_assigning [DecidableEq η] (calls : List (η × η)) :
    { w.handOver h other with assigning := calls } =
      World.handOver { w with assigning := calls } h other := by
  simp only [World.handOver]
  cases w.handle other <;> rfl

theorem Calls.handOver [DecidableEq η] (hcalls : Calls w) (hh : h ∉ w.inUse)
    (hother : other ∉ w.inUse) : Calls (w.handOver h other) := by
  rw [World.handOver]
  cases w.handle other with
  | none => exact hcalls
  | some x =>
    let w' : World π η :=
      { w with handle := Function.update w.handle other (some ⟨none, x.index⟩) }
    have hcalls' : Calls w' := hcalls.update hother rfl rfl
    exact hcalls'.update hh rfl rfl

/-- **One step.** An action that is allowed can be taken, and keeps the invariant. -/
theorem inv_step [DecidableEq π] [DecidableEq η] {a : Action π η} (hinv : Inv capacity w)
    (hallows : w.allows a = true) : ∃ w', w.step a = some w' ∧ Inv capacity w' := by
  rw [World.step, if_pos hallows]
  obtain ⟨hlent, hcalls⟩ := hinv
  cases a with
  | tryAcquire p h =>
    have hnew : w.handle h = none := by
      rwa [World.allows, Bool.not_eq_true', alive_eq_false] at hallows
    have hfree : h ∉ w.inUse := fun hmem => hcalls.alive h hmem hnew
    by_cases hzero : (w.pool p).freeCount = 0
    · refine ⟨w, ?_, hlent, hcalls⟩
      simp only [World.perform, tryAcquire_empty hzero, Option.map_some, Function.update_eq_self]
    · obtain ⟨index, q, hq, hsized, hcapacity, hfreeSlots⟩ :=
        (hlent.divided p).sized.tryAcquire hzero
      refine ⟨_, by rw [World.perform, hq, Option.map_some], ?_, ?_⟩
      · exact hlent.acquire hnew hsized hcapacity hfreeSlots rfl rfl
      · exact hcalls.update hfree rfl rfl
  | moveConstruct h other =>
    rw [World.allows, Bool.and_eq_true, Bool.not_eq_true', alive_eq_false, usable_iff] at hallows
    obtain ⟨hnew, -, hother⟩ := hallows
    have hnone : w.borrow h = none := by
      rw [World.borrow, Function.comp_apply, hnew]
      rfl
    refine ⟨_, rfl, hlent.handOver hnone, hcalls.handOver ?_ hother⟩
    exact fun hmem => hcalls.alive h hmem hnew
  | moveAssign h other =>
    rw [World.allows, Bool.and_eq_true, usable_iff, usable_iff] at hallows
    obtain ⟨⟨⟨x, hx⟩, hh⟩, ⟨y, hy⟩, hother⟩ := hallows
    by_cases heq : h = other
    · exact ⟨w, by rw [World.perform, if_pos heq], hlent, hcalls⟩
    · obtain ⟨w', hw', hlent', hassigning, hhandle⟩ := hlent.releaseSlot hx
      have hcalls' : Calls w' := hcalls.update hh hassigning hhandle
      have hinUse : w'.inUse = w.inUse := by rw [World.inUse, hassigning, World.inUse]
      rw [← hinUse] at hh hother
      refine ⟨_, by rw [World.perform, if_neg heq, hw', Option.map_some], ?_, ?_⟩
      · exact hlent'.congr rfl rfl
      · refine hcalls'.begin heq hh hother ?_ ?_ ?_
        · rw [borrow_update hhandle, Function.update_self]
          rfl
        · rw [hhandle, Function.update_self]
          exact Option.some_ne_none _
        · rw [hhandle, Function.update_of_ne (Ne.symm heq), hy]
          exact Option.some_ne_none _
  | finishAssign h other =>
    rw [World.allows, List.contains_iff_mem] at hallows
    obtain ⟨hcalls', hne, hh, hother⟩ := hcalls.finish hallows
    have hlent' : Lent capacity (w.handOver h other) := hlent.handOver (hcalls.released _ hallows)
    refine ⟨_, rfl, hlent'.congr rfl rfl, ?_⟩
    rw [handOver_assigning]
    exact hcalls'.handOver hh hother
  | destroy h =>
    rw [World.allows, usable_iff] at hallows
    obtain ⟨⟨x, hx⟩, hh⟩ := hallows
    obtain ⟨w', hw', hlent', hassigning, hhandle⟩ := hlent.releaseSlot hx
    have hcalls' : Calls w' := hcalls.update hh hassigning hhandle
    refine ⟨_, by rw [World.perform, hw', Option.map_some], ?_, ?_⟩
    · refine hlent'.congr rfl ?_
      have hempty : w'.borrow h = none := by
        rw [borrow_update hhandle, Function.update_self]
        rfl
      rw [borrow_update (o := none) rfl, Option.bind_none, ← hempty, Function.update_eq_self]
    · refine hcalls'.update ?_ rfl rfl
      rwa [World.inUse, hassigning]

end Steps

/-! ## Every reachable state -/

variable {capacity : π → Nat} {w : World π η}

theorem inv_reachable [DecidableEq π] [DecidableEq η]
    (h : Reachable World.step (World.initial capacity) w) : Inv capacity w := by
  refine h.invariant World.step (inv_initial capacity) ?_
  intro w a w' hinv hstep
  have hallows : w.allows a = true := by
    by_contra hnot
    rw [World.step, if_neg hnot] at hstep
    cases hstep
  obtain ⟨w'', hw'', hinv''⟩ := inv_step hinv hallows
  rw [hstep] at hw''
  cases hw''
  exact hinv''

/-- The handles of a pool with the slots they borrow. -/
structure Borrows (w : World π η) (p : π) (bs : List (η × Nat)) : Prop where
  nodup : bs.Nodup
  mem_iff : ∀ h i, (h, i) ∈ bs ↔ w.handle h = some ⟨some p, i⟩

theorem Lent.exists_borrows (hlent : Lent capacity w) (p : π) : ∃ bs, Borrows w p bs := by
  have hbelow : ∀ n, ∃ bs : List (η × Nat), bs.Nodup ∧
      ∀ h i, (h, i) ∈ bs ↔ w.borrow h = some (p, i) ∧ i < n := by
    intro n
    induction n with
    | zero => exact ⟨[], List.nodup_nil, fun h i => by simp⟩
    | succ n ih =>
      obtain ⟨bs, hnodup, hmem⟩ := ih
      by_cases hn : Held w.borrow (p, n)
      · obtain ⟨k, hk⟩ := hn
        refine ⟨(k, n) :: bs, List.nodup_cons.2 ⟨?_, hnodup⟩, fun h i => ?_⟩
        · rw [hmem]
          exact fun hlt => Nat.lt_irrefl n hlt.2
        · rw [List.mem_cons, hmem, Prod.mk.injEq]
          constructor
          · intro hor
            rcases hor with ⟨rfl, rfl⟩ | ⟨hh, hi⟩
            · exact ⟨hk, Nat.lt_succ_self _⟩
            · exact ⟨hh, Nat.lt_succ_of_lt hi⟩
          · intro hand
            obtain ⟨hh, hi⟩ := hand
            rcases Nat.lt_succ_iff_lt_or_eq.1 hi with hi | rfl
            · exact .inr ⟨hh, hi⟩
            · exact .inl ⟨hlent.exclusive h k _ hh hk, rfl⟩
      · refine ⟨bs, hnodup, fun h i => ?_⟩
        rw [hmem]
        refine and_congr_right fun hh => ⟨Nat.lt_succ_of_lt, fun hi => ?_⟩
        refine Nat.lt_of_le_of_ne (Nat.lt_succ_iff.1 hi) fun heq => hn ⟨h, ?_⟩
        rw [hh, heq]
  obtain ⟨bs, hnodup, hmem⟩ := hbelow (capacity p)
  refine ⟨bs, hnodup, fun h i => ?_⟩
  rw [hmem, ← borrow_eq_some]
  refine and_iff_left_of_imp fun hh => ?_
  rw [← hlent.capacity, (hlent.divided p).slot_iff]
  exact .inr ⟨h, hh⟩

/-- The free slots and the borrowed ones are all slots. -/
theorem Lent.perm (hlent : Lent capacity w) {p : π} {bs : List (η × Nat)}
    (hbs : Borrows w p bs) :
    ((w.pool p).free ++ bs.map Prod.snd).Perm (List.range (capacity p)) := by
  have hdivided := hlent.divided p
  have hheld : ∀ i, i ∈ bs.map Prod.snd ↔ Held w.borrow (p, i) := by
    intro i
    rw [List.mem_map]
    constructor
    · intro hmem
      obtain ⟨⟨h, j⟩, hb, rfl⟩ := hmem
      exact ⟨h, borrow_eq_some.2 ((hbs.mem_iff h j).1 hb)⟩
    · intro hheld
      obtain ⟨h, hh⟩ := hheld
      exact ⟨(h, i), (hbs.mem_iff h i).2 (borrow_eq_some.1 hh), rfl⟩
  have hborrowed : (bs.map Prod.snd).Nodup := by
    refine hbs.nodup.map_on ?_
    intro b hb b' hb' heq
    obtain ⟨h, i⟩ := b
    obtain ⟨h', i'⟩ := b'
    obtain rfl : i = i' := heq
    have hsame := hlent.exclusive h h' (p, i) (borrow_eq_some.2 ((hbs.mem_iff h i).1 hb))
      (borrow_eq_some.2 ((hbs.mem_iff h' i).1 hb'))
    rw [hsame]
  refine (List.perm_ext_iff_of_nodup ?_ List.nodup_range).2 fun i => ?_
  · refine List.nodup_append.2 ⟨hdivided.nodup, hborrowed, ?_⟩
    intro i hi j hj hij
    rw [← hij] at hj
    exact hdivided.apart i hi ((hheld i).1 hj)
  · rw [List.mem_append, hheld, List.mem_range, ← hlent.capacity, hdivided.slot_iff]

/-- **Each slot is lent once.** In every reachable state the free slots of a pool and those its
handles borrow are all its slots, each once. So no two handles borrow the same object, `in_use`
counts the handles, a release has room, and `try_acquire` finds no slot exactly when as many
handles borrow from the pool as it has objects. -/
theorem reachable_lends_once [DecidableEq π] [DecidableEq η]
    (hreach : Reachable World.step (World.initial capacity) w) :
    (∀ p, ∃ bs, Borrows w p bs ∧
      ((w.pool p).freeSlots.take (w.pool p).freeCount ++ bs.map Prod.snd).Perm
        (List.range (capacity p)) ∧
      (w.pool p).inUse = bs.length ∧
      ((w.pool p).tryAcquire.map Prod.fst = some none ↔ bs.length = capacity p)) ∧
    (∀ p i h h', w.handle h = some ⟨some p, i⟩ → w.handle h' = some ⟨some p, i⟩ → h = h') ∧
    (∀ p i h, w.handle h = some ⟨some p, i⟩ →
      (w.pool p).freeCount < (w.pool p).freeSlots.length) ∧
    ∀ a, w.allows a = true → (w.step a).isSome := by
  have hinv := inv_reachable hreach
  have hlent := hinv.lent
  refine ⟨fun p => ?_, fun p i h h' hh hh' => ?_, fun p i h hh => ?_, fun a ha => ?_⟩
  · have hsized := (hlent.divided p).sized
    obtain ⟨bs, hbs⟩ := hlent.exists_borrows p
    have hperm := hlent.perm hbs
    have hlength := hperm.length_eq
    rw [List.length_append, hsized.length_free, List.length_map, List.length_range] at hlength
    have hcapacity := hlent.capacity p
    refine ⟨bs, hbs, hperm, ?_, ?_⟩
    · rw [ObjectPool.inUse]
      omega
    · by_cases hzero : (w.pool p).freeCount = 0
      · rw [tryAcquire_empty hzero]
        exact iff_of_true rfl (by omega)
      · obtain ⟨index, q, hq, -⟩ := hsized.tryAcquire hzero
        rw [hq]
        exact iff_of_false (fun h => by cases h) (by omega)
  · exact hlent.exclusive h h' (p, i) (borrow_eq_some.2 hh) (borrow_eq_some.2 hh')
  · have hdivided := hlent.divided p
    rw [hdivided.sized.slots]
    exact hdivided.freeCount_lt ⟨h, borrow_eq_some.2 hh⟩
  · obtain ⟨w', hw', -⟩ := inv_step hinv ha
    rw [hw']
    rfl

/-- The numerals of `exchange` name handles. -/
local instance handles_neZero : NeZero 3 := ⟨by decide⟩

/-- Handle 0 borrows from a pool of one object and handle 1 from a pool of two; handle 0 takes
over the borrow of handle 1, after which a third handle gets the first pool's object. -/
def exchange : List (Action Bool (Fin 3)) :=
  [.tryAcquire false 0, .tryAcquire true 1, .moveAssign 0 1, .tryAcquire false 2,
    .finishAssign 0 1]

theorem reachable_lends_once_exchange :
    ∃ w, run World.step (World.initial fun p => if p then 2 else 1) exchange = some w ∧
      w.handle 0 = some ⟨some true, 1⟩ ∧
      ∃ bs, Borrows w false bs ∧
        ((w.pool false).freeSlots.take (w.pool false).freeCount ++ bs.map Prod.snd).Perm
          (List.range 1) := by
  have hrun : ∃ w, run World.step (World.initial fun p => if p then 2 else 1) exchange = some w ∧
      w.handle 0 = some ⟨some true, 1⟩ := ⟨_, rfl, rfl⟩
  obtain ⟨w, hw, hhandle⟩ := hrun
  obtain ⟨bs, hbs, hperm, -⟩ := (reachable_lends_once ⟨exchange, hw⟩).1 false
  exact ⟨w, hw, hhandle, bs, hbs, hperm⟩

end ObjectPool

end EglUtil
