import Mathlib.Algebra.Order.Floor.Div
import EglUtil.Lib.Regions
import EglUtil.Lib.Runs
import Mathlib.Data.UInt

/-!
# `StackAllocator<Size>`

A bump allocator over a buffer inside the object. The state is one offset relative to the buffer,
while alignment is a property of absolute addresses; `std::align` does the padding and the bound
check, and is defined here by its specification. Sizes and offsets are `size_t`.

**The ledger** (`World.ledger`). What the callers hold: the live allocations as regions of
addresses, and the marks that are still valid, those not above the offset that a later `rewind`
went back to. The allocator sees none of it; its offset stays where the level of the ledger is
(`Refines`).

**Theorem (`reachable_sound`).** In every reachable state the offset is at most `Size`, the live
allocations lie in the buffer and apart from each other, every `allocate` that succeeds returns
an aligned range in the buffer apart from them, one that throws changes nothing and there was no
room, and `rewind` takes back exactly what was allocated since the mark.

**Theorem (`allocateUninitialized_sound_iff`).** The byte count `count * sizeof(T)` wraps. A call
is sound if and only if the product is a `size_t`, or the wrapped request does not fit either.
-/

namespace EglUtil

open Transition Regions

/-- Where `buffer_` lies, and `Size`. -/
structure Buffer where
  base : Nat
  size : UInt64
  size_pos : 0 < size
deriving DecidableEq

namespace StackAllocator

/-! ## `std::align` -/

/-- The first address from `ptr` on that is a multiple of `alignment`. -/
def alignUp (alignment ptr : Nat) : Nat := alignment * (ptr ⌈/⌉ alignment)

theorem dvd_alignUp (alignment ptr : Nat) : alignment ∣ alignUp alignment ptr :=
  Nat.dvd_mul_right _ _

theorem alignUp_le_iff {alignment ptr address : Nat} (hpos : 0 < alignment)
    (hdvd : alignment ∣ address) : alignUp alignment ptr ≤ address ↔ ptr ≤ address := by
  obtain ⟨k, rfl⟩ := hdvd
  rw [alignUp, Nat.mul_le_mul_left_iff hpos, ceilDiv_le_iff_le_mul hpos]

theorem le_alignUp {alignment : Nat} (hpos : 0 < alignment) (ptr : Nat) :
    ptr ≤ alignUp alignment ptr :=
  (alignUp_le_iff hpos (dvd_alignUp alignment ptr)).1 (Nat.le_refl _)

/-- `std::align`: the first aligned storage of `size` bytes in the `space` bytes at `ptr`. -/
def align (alignment size : UInt64) (ptr : Nat) (space : UInt64) : Option Nat :=
  let aligned := alignUp alignment.toNat ptr
  if aligned + size.toNat ≤ ptr + space.toNat then some aligned else none

/-- The condition that `allocate` asserts of the alignment. -/
def isPowerOfTwo (alignment : UInt64) : Prop :=
  0 < alignment ∧ alignment &&& (alignment - 1) = 0

instance : DecidablePred isPowerOfTwo := fun _ => inferInstanceAs (Decidable (_ ∧ _))

theorem isPowerOfTwo_iff (alignment : UInt64) :
    isPowerOfTwo alignment ↔ ∃ k, alignment.toNat = 2 ^ k := by
  have hnat := @Nat.ne_zero_and_sub_one_eq_zero_iff_isPowerOfTwo alignment.toNat
  rw [Nat.isPowerOfTwo] at hnat
  rw [← hnat]
  by_cases hpos : 0 < alignment
  · have hne : alignment.toNat ≠ 0 := Nat.ne_of_gt (UInt64.lt_iff_toNat_lt.1 hpos)
    have hone : (1 : UInt64) ≤ alignment := by
      rw [UInt64.le_iff_toNat_le]
      exact UInt64.lt_iff_toNat_lt.1 hpos
    rw [isPowerOfTwo, ← UInt64.toNat_inj, UInt64.toNat_and, UInt64.toNat_sub_of_le _ _ hone]
    exact and_congr (iff_of_true hpos hne) Iff.rfl
  · have hzero : alignment.toNat = 0 := by
      rw [UInt64.lt_iff_toNat_lt, UInt64.toNat_zero] at hpos
      exact Nat.eq_zero_of_not_pos hpos
    exact iff_of_false (fun h => hpos h.1) fun h => h.1 hzero

theorem toNat_pos {alignment : UInt64} (h : isPowerOfTwo alignment) : 0 < alignment.toNat :=
  UInt64.lt_iff_toNat_lt.1 h.1

end StackAllocator

/-! ## The allocator -/

structure StackAllocator (b : Buffer) where
  offset : UInt64
deriving DecidableEq

namespace StackAllocator

variable {b : Buffer} {alloc : StackAllocator b} {bytes alignment : UInt64}

def create (b : Buffer) : StackAllocator b := ⟨0⟩

/-- `none` is `throw std::bad_alloc{}`. -/
def allocate (alloc : StackAllocator b) (bytes alignment : UInt64) :
    Option Nat × StackAllocator b :=
  let cursor := b.base + alloc.offset.toNat
  let space := b.size - alloc.offset
  match align alignment bytes cursor space with
  | none => (none, alloc)
  | some aligned => (some aligned, ⟨UInt64.ofNat (aligned - b.base) + bytes⟩)

/-- `allocate_uninitialized<T>(count)`; the product is a `size_t`. -/
def allocateUninitialized (alloc : StackAllocator b) (sizeofT alignofT count : UInt64) :
    Option Nat × StackAllocator b :=
  alloc.allocate (count * sizeofT) alignofT

def reset (_ : StackAllocator b) : StackAllocator b := ⟨0⟩

def mark (alloc : StackAllocator b) : UInt64 := alloc.offset

def rewind (_ : StackAllocator b) (marker : UInt64) : StackAllocator b := ⟨marker⟩

/-- Where the next byte would come from. -/
def cursor (alloc : StackAllocator b) : Nat := b.base + alloc.offset.toNat

/-- The first address behind the buffer. -/
def limit (b : Buffer) : Nat := b.base + b.size.toNat

/-- There is an aligned range of `n` bytes at or after the offset. -/
def Fits (alloc : StackAllocator b) (alignment : UInt64) (n : Nat) : Prop :=
  ∃ address, alignment.toNat ∣ address ∧ alloc.cursor ≤ address ∧ address + n ≤ limit b

/-! ### One call -/

theorem cursor_add_space (h : alloc.offset ≤ b.size) :
    alloc.cursor + (b.size - alloc.offset).toNat = limit b := by
  have hle := UInt64.le_iff_toNat_le.1 h
  rw [UInt64.toNat_sub_of_le _ _ h, cursor, limit]
  omega

theorem allocate_eq (h : alloc.offset ≤ b.size) :
    alloc.allocate bytes alignment =
      if alignUp alignment.toNat alloc.cursor + bytes.toNat ≤ limit b then
        (some (alignUp alignment.toNat alloc.cursor),
          ⟨UInt64.ofNat (alignUp alignment.toNat alloc.cursor - b.base) + bytes⟩)
      else (none, alloc) := by
  have hspace := cursor_add_space h
  unfold cursor at hspace
  unfold allocate align cursor
  dsimp only
  rw [hspace]
  split_ifs <;> rfl

/-- The first aligned address is good enough if any is. -/
theorem fits_iff (hpow : isPowerOfTwo alignment) {n : Nat} :
    alloc.Fits alignment n ↔ alignUp alignment.toNat alloc.cursor + n ≤ limit b := by
  have hpos := toNat_pos hpow
  constructor
  · intro h
    obtain ⟨address, hdvd, hcursor, hlimit⟩ := h
    have hfirst := (alignUp_le_iff hpos hdvd).2 hcursor
    omega
  · intro h
    exact ⟨_, dvd_alignUp _ _, le_alignUp hpos _, h⟩

theorem allocate_eq_none_iff (h : alloc.offset ≤ b.size) (hpow : isPowerOfTwo alignment) :
    (alloc.allocate bytes alignment).1 = none ↔ ¬ alloc.Fits alignment bytes.toNat := by
  rw [fits_iff hpow, allocate_eq h]
  split_ifs with hfits
  · exact iff_of_false nofun fun hnot => hnot hfits
  · exact iff_of_true rfl hfits

/-- A call that throws changes nothing. -/
theorem allocate_of_none (h : alloc.offset ≤ b.size)
    (hnone : (alloc.allocate bytes alignment).1 = none) :
    (alloc.allocate bytes alignment).2 = alloc := by
  rw [allocate_eq h] at hnone ⊢
  split_ifs at hnone ⊢
  rfl

/-- What a call that succeeds returns, and what it leaves. -/
structure Allocated (alloc : StackAllocator b) (bytes alignment : UInt64) (address : Nat)
    (after : StackAllocator b) : Prop where
  aligned : alignment.toNat ∣ address
  cursor_le : alloc.cursor ≤ address
  le_limit : address + bytes.toNat ≤ limit b
  cursor_after : after.cursor = address + bytes.toNat
  offset_after : after.offset ≤ b.size

/-- Inside the buffer neither the distance nor the sum wraps. -/
theorem toNat_offset {aligned : Nat} (hbase : b.base ≤ aligned)
    (hlimit : aligned + bytes.toNat ≤ limit b) :
    (UInt64.ofNat (aligned - b.base) + bytes).toNat = aligned - b.base + bytes.toNat := by
  have hsize := b.size.toNat_lt
  rw [limit] at hlimit
  rw [UInt64.toNat_add, UInt64.toNat_ofNat_of_lt' (by omega : aligned - b.base < 2 ^ 64)]
  exact Nat.mod_eq_of_lt (by omega)

theorem allocate_of_some (h : alloc.offset ≤ b.size) (hpow : isPowerOfTwo alignment)
    {address : Nat} (hsome : (alloc.allocate bytes alignment).1 = some address) :
    Allocated alloc bytes alignment address (alloc.allocate bytes alignment).2 := by
  rw [allocate_eq h] at hsome ⊢
  split_ifs at hsome ⊢ with hfits
  cases hsome
  have hcursor := le_alignUp (toNat_pos hpow) alloc.cursor
  have hbase : b.base ≤ alignUp alignment.toNat alloc.cursor :=
    Nat.le_trans (Nat.le_add_right _ _) hcursor
  have hoffset := toNat_offset hbase hfits
  rw [limit] at hfits
  refine ⟨dvd_alignUp _ _, hcursor, hfits, ?_, ?_⟩
  · rw [cursor, hoffset, ← Nat.add_assoc, Nat.add_sub_cancel' hbase]
  · rw [UInt64.le_iff_toNat_le, hoffset]
    omega

/-! ## Runs -/

/-- The allocator, and what its callers hold. -/
structure World (b : Buffer) where
  allocator : StackAllocator b
  ledger : Ledger Nat

def World.initial (b : Buffer) : World b := ⟨create b, .start b.base⟩

inductive Action where
  | allocate (bytes alignment : UInt64)
  | mark
  /-- `rewind(marker)`, where `marker` was returned when `m` was set. -/
  | rewind (marker : UInt64) (m : Mark Nat)
  | reset

def World.step (w : World b) : Action → Option (World b)
  | .allocate bytes alignment =>
    if isPowerOfTwo alignment then
      match w.allocator.allocate bytes alignment with
      | (none, allocator) => some { w with allocator := allocator }
      | (some address, allocator) =>
        some ⟨allocator, w.ledger.grant address (address + bytes.toNat)⟩
    else none
  | .mark => some { w with ledger := w.ledger.mark }
  | .rewind marker m =>
    if m ∈ w.ledger.marks ∧ m.level = b.base + marker.toNat then
      some ⟨w.allocator.rewind marker, w.ledger.rewind m⟩
    else none
  | .reset => some ⟨w.allocator.reset, w.ledger.reset b.base⟩

/-- The offset is where the level of the ledger is, inside the buffer. -/
structure Refines (w : World b) : Prop where
  ledger : w.ledger.Ok b.base
  level : w.ledger.level = w.allocator.cursor
  offset_le : w.allocator.offset ≤ b.size

theorem refines_initial : Refines (World.initial b) := by
  refine ⟨Ledger.ok_start, rfl, ?_⟩
  rw [UInt64.le_iff_toNat_le]
  exact Nat.zero_le _

variable {w w' : World b}

theorem Refines.allocate (h : Refines w) (hpow : isPowerOfTwo alignment)
    (hstep : w.step (.allocate bytes alignment) = some w') : Refines w' := by
  simp only [World.step, if_pos hpow] at hstep
  split at hstep
  · next allocator heq =>
    cases hstep
    have hnone := allocate_of_none h.offset_le (congrArg Prod.fst heq)
    rw [heq] at hnone
    cases hnone
    exact h
  · next address allocator heq =>
    cases hstep
    have hsome := allocate_of_some h.offset_le hpow (congrArg Prod.fst heq)
    rw [heq] at hsome
    have hlevel : w.ledger.level ≤ address := by
      rw [h.level]
      exact hsome.cursor_le
    refine ⟨h.ledger.grant hlevel (Nat.le_add_right _ _), ?_, hsome.offset_after⟩
    exact hsome.cursor_after.symm

theorem Refines.rewind (h : Refines w) {marker : UInt64} {m : Mark Nat}
    (hm : m ∈ w.ledger.marks) (hmarker : m.level = b.base + marker.toNat) :
    Refines ⟨w.allocator.rewind marker, w.ledger.rewind m⟩ := by
  refine ⟨h.ledger.rewind hm, hmarker, ?_⟩
  have hlevel := (h.ledger.marks m hm).le
  have hoffset := UInt64.le_iff_toNat_le.1 h.offset_le
  rw [h.level, hmarker, cursor] at hlevel
  rw [UInt64.le_iff_toNat_le]
  exact Nat.le_trans (Nat.le_of_add_le_add_left hlevel) hoffset

/-- **One step** keeps the allocator and the ledger together. -/
theorem refines_step {a : Action} (h : Refines w) (hstep : w.step a = some w') : Refines w' := by
  cases a with
  | allocate bytes alignment =>
    by_cases hpow : isPowerOfTwo alignment
    · exact h.allocate hpow hstep
    · simp only [World.step, if_neg hpow] at hstep
      cases hstep
  | mark =>
    cases hstep
    exact ⟨h.ledger.mark, h.level, h.offset_le⟩
  | rewind marker m =>
    simp only [World.step] at hstep
    split_ifs at hstep with hmark
    cases hstep
    exact h.rewind hmark.1 hmark.2
  | reset =>
    cases hstep
    refine ⟨Ledger.ok_reset, rfl, ?_⟩
    rw [UInt64.le_iff_toNat_le]
    exact Nat.zero_le _

theorem refines_of_reachable (h : Reachable World.step (World.initial b) w) : Refines w :=
  Reachable.invariant World.step h refines_initial fun _ _ _ hw hstep => refines_step hw hstep

/-! ## What the callers may rely on -/

/-- `n` bytes at `address` can be used besides everything that is live. -/
structure Usable (w : World b) (alignment : UInt64) (address n : Nat) : Prop where
  aligned : alignment.toNat ∣ address
  within : b.base ≤ address ∧ address + n ≤ limit b
  apart : ∀ r ∈ w.ledger.live, Apart (w.ledger.next address (address + n)) r

/-- What holds of the allocator whenever it is called. -/
structure Sound (w : World b) : Prop where
  offset_le : w.allocator.offset ≤ b.size
  /-- A mark that is set now denotes the current level. -/
  mark : w.ledger.level = b.base + w.allocator.mark.toNat
  within : ∀ r ∈ w.ledger.live, b.base ≤ r.lo ∧ r.hi ≤ limit b
  apart : w.ledger.live.Pairwise Apart
  allocate : ∀ bytes alignment address, isPowerOfTwo alignment →
    (w.allocator.allocate bytes alignment).1 = some address →
    Usable w alignment address bytes.toNat
  badAlloc : ∀ bytes alignment, isPowerOfTwo alignment →
    (w.allocator.allocate bytes alignment).1 = none →
    (w.allocator.allocate bytes alignment).2 = w.allocator
  badAlloc_iff : ∀ bytes alignment, isPowerOfTwo alignment →
    ((w.allocator.allocate bytes alignment).1 = none ↔
      ¬ w.allocator.Fits alignment bytes.toNat)
  rewind : ∀ marker m w', w.step (.rewind marker m) = some w' →
    w'.ledger.level = b.base + w'.allocator.offset.toNat ∧ w.ledger.Rewound m w'.ledger
  reset : ∀ w', w.step .reset = some w' → w'.allocator.offset = 0 ∧ w'.ledger.live = []

theorem Refines.cursor_le (h : Refines w) : w.allocator.cursor ≤ limit b :=
  Nat.add_le_add_left (UInt64.le_iff_toNat_le.1 h.offset_le) _

/-- Whatever lies at or above the offset is free. -/
theorem Refines.usable (h : Refines w) {address n : Nat} (hdvd : alignment.toNat ∣ address)
    (hcursor : w.allocator.cursor ≤ address) (hlimit : address + n ≤ limit b) :
    Usable w alignment address n := by
  have hlevel : w.ledger.level ≤ address := by rw [h.level]; exact hcursor
  refine ⟨hdvd, ⟨h.ledger.above.trans hlevel, hlimit⟩, ?_⟩
  intro r hr
  exact h.ledger.apart_next hlevel hr

theorem Refines.sound (h : Refines w) : Sound w where
  offset_le := h.offset_le
  mark := h.level
  within := by
    intro r hr
    obtain ⟨hbase, -, hlevel⟩ := h.ledger.within r hr
    rw [h.level] at hlevel
    exact ⟨hbase, hlevel.trans h.cursor_le⟩
  apart := h.ledger.pairwise_apart
  allocate := by
    intro bytes alignment address hpow hsome
    have hdone := allocate_of_some h.offset_le hpow hsome
    exact h.usable hdone.aligned hdone.cursor_le hdone.le_limit
  badAlloc := fun _ _ _ hnone => allocate_of_none h.offset_le hnone
  badAlloc_iff := fun _ _ hpow => allocate_eq_none_iff h.offset_le hpow
  rewind := by
    intro marker m w' hstep
    have hlevel := (refines_step h hstep).level
    simp only [World.step] at hstep
    split_ifs at hstep with hmark
    cases hstep
    exact ⟨hlevel, h.ledger.rewound hmark.1⟩
  reset := by
    intro w' hstep
    cases hstep
    exact ⟨rfl, rfl⟩

/-- **Every reachable state is sound.** -/
theorem reachable_sound (h : Reachable World.step (World.initial b) w) : Sound w :=
  (refines_of_reachable h).sound

def exampleBuffer : Buffer := ⟨100, 64, by decide⟩

/-- The second allocation is padded up to a multiple of 16 and taken back; the last one asks for
an alignment that no address in the buffer has. -/
def exampleRun : List Action :=
  [.allocate 10 8, .mark, .allocate 1 16, .rewind 14 ⟨114, 1, [⟨104, 114, 0⟩]⟩, .allocate 20 1,
    .allocate 1 256]

theorem reachable_sound_exampleRun :
    ∃ w, run World.step (World.initial exampleBuffer) exampleRun = some w ∧
      w.ledger.live = [⟨104, 114, 0⟩, ⟨114, 134, 3⟩] ∧ w.allocator.offset = 34 ∧ Sound w := by
  have hrun : ∃ w, run World.step (World.initial exampleBuffer) exampleRun = some w ∧
      w.ledger.live = [⟨104, 114, 0⟩, ⟨114, 134, 3⟩] ∧ w.allocator.offset = 34 :=
    ⟨_, rfl, rfl, rfl⟩
  obtain ⟨w, hw, hlive, hoffset⟩ := hrun
  exact ⟨w, hw, hlive, hoffset, reachable_sound ⟨exampleRun, hw⟩⟩

/-! ## `allocate_uninitialized` -/

/-- The call throws and changes nothing, or returns room for `count` objects and keeps it from
later calls. -/
def SoundCall (w : World b) (sizeofT alignofT count : UInt64) : Prop :=
  ((w.allocator.allocateUninitialized sizeofT alignofT count).1 = none →
    (w.allocator.allocateUninitialized sizeofT alignofT count).2 = w.allocator) ∧
  ∀ address, (w.allocator.allocateUninitialized sizeofT alignofT count).1 = some address →
    Usable w alignofT address (count.toNat * sizeofT.toNat) ∧
    address + count.toNat * sizeofT.toNat ≤
      (w.allocator.allocateUninitialized sizeofT alignofT count).2.cursor

variable {sizeofT alignofT count : UInt64}

theorem toNat_count_mul :
    (count * sizeofT).toNat = count.toNat * sizeofT.toNat % 2 ^ 64 := UInt64.toNat_mul _ _

/-- Without overflow the request is the one that was meant. -/
theorem Refines.soundCall (h : Refines w) (hpow : isPowerOfTwo alignofT)
    (hlt : count.toNat * sizeofT.toNat < 2 ^ 64) : SoundCall w sizeofT alignofT count := by
  have hbytes : (count * sizeofT).toNat = count.toNat * sizeofT.toNat := by
    rw [toNat_count_mul, Nat.mod_eq_of_lt hlt]
  constructor
  · intro hnone
    exact allocate_of_none h.offset_le hnone
  · intro address hsome
    have hdone := allocate_of_some h.offset_le hpow hsome
    have hlimit := hdone.le_limit
    have hafter := hdone.cursor_after
    rw [hbytes] at hlimit hafter
    exact ⟨h.usable hdone.aligned hdone.cursor_le hlimit, Nat.le_of_eq hafter.symm⟩

/-- **`allocate_uninitialized` is sound** exactly when the product does not overflow, or what is
left of it does not fit. -/
theorem allocateUninitialized_sound_iff (h : Reachable World.step (World.initial b) w)
    (hpow : isPowerOfTwo alignofT) :
    SoundCall w sizeofT alignofT count ↔
      count.toNat * sizeofT.toNat < 2 ^ 64 ∨
        ¬ w.allocator.Fits alignofT (count.toNat * sizeofT.toNat % 2 ^ 64) := by
  have hrefines := refines_of_reachable h
  have hnone : (w.allocator.allocateUninitialized sizeofT alignofT count).1 = none ↔
      ¬ w.allocator.Fits alignofT (count.toNat * sizeofT.toNat % 2 ^ 64) := by
    rw [← toNat_count_mul]
    exact allocate_eq_none_iff hrefines.offset_le hpow
  constructor
  · intro hcall
    by_cases hthrow : (w.allocator.allocateUninitialized sizeofT alignofT count).1 = none
    · exact .inr (hnone.1 hthrow)
    · obtain ⟨address, hsome⟩ := Option.ne_none_iff_exists'.1 hthrow
      have hwithin := (hcall.2 address hsome).1.within
      have hsize := b.size.toNat_lt
      rw [limit] at hwithin
      exact .inl (by omega)
  · intro hcond
    rcases hcond with hlt | hfull
    · exact hrefines.soundCall hpow hlt
    · have hthrow := hnone.2 hfull
      refine ⟨fun _ => allocate_of_none hrefines.offset_le hthrow, ?_⟩
      intro address hsome
      rw [hthrow] at hsome
      cases hsome

/-- In an empty buffer of 64 bytes: room for three objects of 8 bytes, and none for nine. -/
theorem allocateUninitialized_sound_iff_exampleBuffer :
    SoundCall (World.initial exampleBuffer) 8 8 3 ∧
      SoundCall (World.initial exampleBuffer) 8 8 9 :=
  ⟨(allocateUninitialized_sound_iff ⟨[], rfl⟩ (by decide)).2 (.inl (by decide)),
    (allocateUninitialized_sound_iff ⟨[], rfl⟩ (by decide)).2 (.inl (by decide))⟩

/-- With `2^61 + 1` objects of 8 bytes, the call reserves 8 bytes and succeeds. -/
theorem allocateUninitialized_overflow :
    Reachable World.step (World.initial exampleBuffer) (World.initial exampleBuffer) ∧
      isPowerOfTwo 8 ∧ ¬ SoundCall (World.initial exampleBuffer) 8 8 (2 ^ 61 + 1) := by
  have hcall : ((World.initial exampleBuffer).allocator.allocateUninitialized 8 8
      (2 ^ 61 + 1)) = (some 104, ⟨12⟩) := by decide +kernel
  refine ⟨⟨[], rfl⟩, by decide, fun hsound => ?_⟩
  have hreserved := (hsound.2 104 (congrArg Prod.fst hcall)).2
  rw [hcall] at hreserved
  exact absurd hreserved (by decide +kernel)

end StackAllocator

end EglUtil
