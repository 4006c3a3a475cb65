import Mathlib.Data.List.Nodup
import Mathlib.Data.Nat.ModEq
import EglUtil.Lib.Updates
import EglUtil.LockFreeQueueConcurrent

/-!
# `LockFreeQueue`: nothing lost, nothing duplicated

The invariant behind `reachable_safe`, one layer at a time:

* `SlotOk` — a slot's words agree with its view;
* `Slots` — the counters and all slots agree;
* `Knows` — what a thread may rely on at each point of its call;
* `Logs` — the log of claims is in ticket order and matches the views.

Throughout, `e` and `d` are the numbers of tickets claimed by producers and consumers, counted
without wrapping. While `e < 2^63` every ticket and sequence is below `2^64`, so equal words
mean equal tickets.
-/

namespace EglUtil.LockFreeQueue

open Transition Updates

variable {τ α : Type*}

/-! ## Views -/

/-- How far the ticket of a slot has come. -/
inductive Stage (τ α : Type*) where
  | vacant
  | claimed (t : τ) (v : α)
  | emplaced (t : τ) (v : α)
  | full (v : α)
  | popping (t : τ) (v : α)
  | vacated (t : τ) (v : α)

/-- The ticket a slot serves, and its stage. -/
structure View (τ α : Type*) where
  ticket : Nat
  stage : Stage τ α

namespace Stage

/-- The sequence number the slot shows. -/
def sequence (n : Nat) : Stage τ α → Nat
  | .vacant | .claimed _ _ | .emplaced _ _ => n
  | .full _ | .popping _ _ | .vacated _ _ => n + 1

/-- The payload the slot holds. -/
def value : Stage τ α → Option α
  | .vacant | .claimed _ _ | .vacated _ _ => none
  | .emplaced _ v | .full v | .popping _ v => some v

/-- The thread between its CAS and its sequence store. -/
def owner : Stage τ α → Option τ
  | .vacant | .full _ => none
  | .claimed t _ | .emplaced t _ | .popping t _ | .vacated t _ => some t

/-- Where the ticket lies relative to the two counters. -/
def InRange (k e d n : Nat) : Stage τ α → Prop
  | .vacant => e ≤ n ∧ n < d + 2 ^ k
  | .claimed _ _ | .emplaced _ _ | .full _ => d ≤ n ∧ n < e
  | .popping _ _ | .vacated _ _ => n < d

end Stage

/-! ## Slots -/

/-- The words of slot `i` agree with its view. -/
structure SlotOk (k e d i : Nat) (s : Slot α) (w : View τ α) : Prop where
  mod : w.ticket % 2 ^ k = i
  lap : e ≤ w.ticket + 2 ^ k
  sequence : s.sequence = UInt64.ofNat (w.stage.sequence w.ticket)
  value : s.value = w.stage.value
  range : w.stage.InRange k e d w.ticket

variable {k e d i : Nat} {s : Slot α} {w : View τ α}

theorem toNat_ticket {n : Nat} (h : n < 2 ^ 64) : (UInt64.ofNat n).toNat = n :=
  UInt64.toNat_ofNat_of_lt' h

theorem ofNat_inj {a b : Nat} (ha : a < 2 ^ 64) (hb : b < 2 ^ 64)
    (h : UInt64.ofNat a = UInt64.ofNat b) : a = b := by
  have := congrArg UInt64.toNat h
  rwa [toNat_ticket ha, toNat_ticket hb] at this

/-- A ticket is less than one lap beyond the producers' counter. -/
theorem SlotOk.ticket_lt (h : SlotOk k e d i s w) (hde : d ≤ e) : w.ticket < e + 2 ^ k := by
  have hpos : 0 < 2 ^ k := Nat.two_pow_pos k
  have hr := h.range
  cases hw : w.stage <;> simp only [hw, Stage.InRange] at hr <;> omega

theorem SlotOk.word_lt (h : SlotOk k e d i s w) (hk : k ≤ 63) (hde : d ≤ e) (he : e < 2 ^ 63) :
    w.ticket < 2 ^ 64 := by
  have hpow : 2 ^ k ≤ 2 ^ 63 := Nat.pow_le_pow_right (by omega) hk
  have := h.ticket_lt hde
  omega

/-- A producer's claim leaves the other slots' views true. -/
theorem SlotOk.push_other (h : SlotOk k e d i s w) (hi : i ≠ e % 2 ^ k) :
    SlotOk k (e + 1) d i s w := by
  have hmod := h.mod
  have hne : w.ticket ≠ e := by
    rintro rfl
    exact hi hmod.symm
  have hlap : w.ticket + 2 ^ k ≠ e := by
    rintro rfl
    exact hi (by rw [Nat.add_mod_right, hmod])
  have hle := h.lap
  refine ⟨hmod, by omega, h.sequence, h.value, ?_⟩
  have hr := h.range
  cases hw : w.stage <;> simp only [hw, Stage.InRange] at hr ⊢ <;> omega

/-- A consumer's claim leaves the other slots' views true. -/
theorem SlotOk.pop_other (h : SlotOk k e d i s w) (hi : i ≠ d % 2 ^ k) :
    SlotOk k e (d + 1) i s w := by
  have hmod := h.mod
  have hne : w.ticket ≠ d := by
    rintro rfl
    exact hi hmod.symm
  refine ⟨hmod, h.lap, h.sequence, h.value, ?_⟩
  have hr := h.range
  cases hw : w.stage <;> simp only [hw, Stage.InRange] at hr ⊢ <;> omega

/-- The counters and every slot agree with the views. -/
structure Slots (k : Nat) (q : LockFreeQueue α) (e d : Nat) (view : Nat → View τ α) : Prop where
  ring : Ring k q
  enqueuePos : q.enqueuePos = UInt64.ofNat e
  dequeuePos : q.dequeuePos = UInt64.ofNat d
  deq_le : d ≤ e
  enq_le : e ≤ d + 2 ^ k
  slot : ∀ i < 2 ^ k, SlotOk k e d i (q.slots i) (view i)

variable {q : LockFreeQueue α} {view : Nat → View τ α}

theorem Slots.slot_at (h : Slots k q e d view) (p : Nat) :
    SlotOk k e d (p % 2 ^ k) (q.slot (UInt64.ofNat p)) (view (p % 2 ^ k)) := by
  rw [LockFreeQueue.slot, h.ring.index_ofNat]
  exact h.slot _ (Nat.mod_lt _ (Nat.two_pow_pos k))

/-- Writing one slot moves that slot's view and no other. -/
theorem Slots.setSlot (h : Slots k q e d view) (p : Nat) {s' : Slot α} {w' : View τ α}
    (hw : SlotOk k e d (p % 2 ^ k) s' w') :
    Slots k (q.setSlot (UInt64.ofNat p) s') e d (Function.update view (p % 2 ^ k) w') where
  ring := ⟨h.ring.le, h.ring.mask⟩
  enqueuePos := h.enqueuePos
  dequeuePos := h.dequeuePos
  deq_le := h.deq_le
  enq_le := h.enq_le
  slot := by
    intro i hi
    simp only [LockFreeQueue.setSlot, h.ring.index_ofNat]
    by_cases hip : i = p % 2 ^ k
    · subst hip
      rw [Function.update_self, Function.update_self]
      exact hw
    · rw [Function.update_of_ne hip, Function.update_of_ne hip]
      exact h.slot i hi

/-- A producer claims the ticket its slot was vacant for. -/
theorem Slots.claimPush (h : Slots k q e d view) (hv : view (e % 2 ^ k) = ⟨e, .vacant⟩)
    (t : τ) (v : α) :
    Slots k { q with enqueuePos := q.enqueuePos + 1 } (e + 1) d
      (Function.update view (e % 2 ^ k) ⟨e, .claimed t v⟩) := by
  have hpos : 0 < 2 ^ k := Nat.two_pow_pos k
  have hok := h.slot _ (Nat.mod_lt e hpos)
  rw [hv] at hok
  have hrange : e ≤ e ∧ e < d + 2 ^ k := hok.range
  have hde := h.deq_le
  refine ⟨⟨h.ring.le, h.ring.mask⟩, ?_, h.dequeuePos, by omega, by omega, fun i hi => ?_⟩
  · rw [h.enqueuePos, UInt64.ofNat_add, UInt64.ofNat_one]
  · by_cases hie : i = e % 2 ^ k
    · subst hie
      rw [Function.update_self]
      exact ⟨rfl, by dsimp only; omega, hok.sequence, hok.value, ⟨hde, by dsimp only; omega⟩⟩
    · rw [Function.update_of_ne hie]
      exact (h.slot i hi).push_other hie

/-- A consumer claims the ticket its slot is full for. -/
theorem Slots.claimPop {v : α} (h : Slots k q e d view) (hv : view (d % 2 ^ k) = ⟨d, .full v⟩)
    (t : τ) :
    Slots k { q with dequeuePos := q.dequeuePos + 1 } e (d + 1)
      (Function.update view (d % 2 ^ k) ⟨d, .popping t v⟩) := by
  have hpos : 0 < 2 ^ k := Nat.two_pow_pos k
  have hok := h.slot _ (Nat.mod_lt d hpos)
  rw [hv] at hok
  have hrange : d ≤ d ∧ d < e := hok.range
  have hed := h.enq_le
  refine ⟨⟨h.ring.le, h.ring.mask⟩, h.enqueuePos, ?_, by omega, by omega, fun i hi => ?_⟩
  · rw [h.dequeuePos, UInt64.ofNat_add, UInt64.ofNat_one]
  · by_cases hid : i = d % 2 ^ k
    · subst hid
      rw [Function.update_self]
      exact ⟨rfl, hok.lap, hok.sequence, hok.value, Nat.lt_succ_self d⟩
    · rw [Function.update_of_ne hid]
      exact (h.slot i hi).pop_other hid

/-- Neighbouring tickets have different slots, in a ring of two or more. -/
theorem succ_mod_ne {c : Nat} (hc : 2 ≤ c) (n : Nat) : (n + 1) % c ≠ n % c := by
  intro h
  have h10 : Nat.ModEq c 1 0 := Nat.ModEq.add_left_cancel' n h
  rw [Nat.ModEq, Nat.zero_mod, Nat.mod_eq_of_lt (by omega)] at h10
  omega

/-- A producer that reads the sequence of the next ticket reads a vacant slot. Two slots are
needed here: on a ring of one, the element just published shows the same number. -/
theorem Slots.vacant_of_sequence (h : Slots k q e d view) (hk : 1 ≤ k) (he : e < 2 ^ 63)
    (hseq : (q.slot (UInt64.ofNat e)).sequence = UInt64.ofNat e) :
    view (e % 2 ^ k) = ⟨e, .vacant⟩ := by
  have hok := h.slot_at e
  have hlt := hok.word_lt h.ring.le h.deq_le he
  have hr := hok.range
  have htwo : 2 ^ 1 ≤ 2 ^ k := Nat.pow_le_pow_right (by omega) hk
  have hmod := hok.mod
  rcases hw : view (e % 2 ^ k) with ⟨n, stage⟩
  rw [hw] at hok hlt hr hmod
  dsimp only at hlt hr hmod
  have hword : UInt64.ofNat (stage.sequence n) = UInt64.ofNat e := hok.sequence.symm.trans hseq
  cases stage with
  | vacant =>
    have : n = e := ofNat_inj hlt (by omega) hword
    rw [this]
  | claimed | emplaced =>
    have : n = e := ofNat_inj hlt (by omega) hword
    simp only [Stage.InRange] at hr
    omega
  | full | popping | vacated =>
    have hde := h.deq_le
    have hne : n < e := by
      simp only [Stage.InRange] at hr
      omega
    have hsucc : n + 1 = e := ofNat_inj (by omega) (by omega) hword
    rw [← hsucc] at hmod
    exact absurd hmod.symm (succ_mod_ne htwo n)

/-- A consumer that reads the sequence published for its ticket reads a full slot. -/
theorem Slots.full_of_sequence (h : Slots k q e d view) (hk : 1 ≤ k) (he : e < 2 ^ 63)
    (hseq : (q.slot (UInt64.ofNat d)).sequence = UInt64.ofNat (d + 1)) :
    ∃ v, view (d % 2 ^ k) = ⟨d, .full v⟩ := by
  have hok := h.slot_at d
  have hlt := hok.ticket_lt h.deq_le
  have hr := hok.range
  have htwo : 2 ^ 1 ≤ 2 ^ k := Nat.pow_le_pow_right (by omega) hk
  have hpow : 2 ^ k ≤ 2 ^ 63 := Nat.pow_le_pow_right (by omega) h.ring.le
  have hmod := hok.mod
  have hde := h.deq_le
  rcases hw : view (d % 2 ^ k) with ⟨n, stage⟩
  rw [hw] at hok hlt hr hmod
  dsimp only at hlt hr hmod
  have hword : UInt64.ofNat (stage.sequence n) = UInt64.ofNat (d + 1) :=
    hok.sequence.symm.trans hseq
  cases stage with
  | vacant | claimed | emplaced =>
    have hsucc : n = d + 1 := ofNat_inj (show n < 2 ^ 64 by omega) (by omega) hword
    rw [hsucc] at hmod
    exact absurd hmod (succ_mod_ne htwo d)
  | full v =>
    simp only [Stage.InRange] at hr
    have : n + 1 = d + 1 := ofNat_inj (by omega) (by omega) hword
    exact ⟨v, by rw [Nat.succ_injective this]⟩
  | popping | vacated =>
    simp only [Stage.InRange] at hr
    have : n + 1 = d + 1 := ofNat_inj (by omega) (by omega) hword
    omega

/-! ## Threads -/

/-- What thread `t` may rely on where it stands. A loaded ticket may be stale; a thread about to
claim one knows what its slot looks like in case it is not. -/
def Knows (k e d : Nat) (view : Nat → View τ α) (t : τ) : Pc α → Prop
  | .pushSeq _ pos => ∃ p ≤ e, pos = UInt64.ofNat p
  | .pushCas _ pos => ∃ p ≤ e, pos = UInt64.ofNat p ∧ (p = e → view (p % 2 ^ k) = ⟨p, .vacant⟩)
  | .pushEmplace v pos => ∃ p, pos = UInt64.ofNat p ∧ view (p % 2 ^ k) = ⟨p, .claimed t v⟩
  | .pushStore pos => ∃ p v, pos = UInt64.ofNat p ∧ view (p % 2 ^ k) = ⟨p, .emplaced t v⟩
  | .popSeq pos => ∃ p ≤ d, pos = UInt64.ofNat p
  | .popCas pos => ∃ p ≤ d, pos = UInt64.ofNat p ∧
      (p = d → ∃ v, view (p % 2 ^ k) = ⟨p, .full v⟩)
  | .popTake pos => ∃ p v, pos = UInt64.ofNat p ∧ view (p % 2 ^ k) = ⟨p, .popping t v⟩
  | .popStore pos r => ∃ p v, pos = UInt64.ofNat p ∧ r = some v ∧
      view (p % 2 ^ k) = ⟨p, .vacated t v⟩
  | .idle | .pushLoad _ | .pushReturned _ | .popLoad | .popReturned _ => True

variable {t u : τ} {pc pc' : Pc α}

/-- What a thread relies on survives any change that keeps the slots it owns and, while its
counter stands still, the slot it may claim. -/
theorem Knows.frame {e' d' : Nat} {view' : Nat → View τ α} (h : Knows k e d view u pc)
    (he : e ≤ e') (hd : d ≤ d')
    (hown : ∀ j, (view j).stage.owner = some u → view' j = view j)
    (hvacant : e' = e → ∀ j, view j = ⟨e, .vacant⟩ → view' j = view j)
    (hfull : d' = d → ∀ j v, view j = ⟨d, .full v⟩ → view' j = view j) :
    Knows k e' d' view' u pc := by
  have howned : ∀ {j x}, view j = x → x.stage.owner = some u → view' j = x := by
    rintro j x rfl hx
    exact hown j hx
  cases pc with
  | idle | pushLoad | pushReturned | popLoad | popReturned => trivial
  | pushSeq v pos =>
    obtain ⟨p, hp, hpos⟩ := h
    exact ⟨p, hp.trans he, hpos⟩
  | popSeq pos =>
    obtain ⟨p, hp, hpos⟩ := h
    exact ⟨p, hp.trans hd, hpos⟩
  | pushCas v pos =>
    obtain ⟨p, hp, hpos, hview⟩ := h
    refine ⟨p, hp.trans he, hpos, fun hpe => ?_⟩
    obtain rfl : p = e := by omega
    rw [hvacant hpe.symm _ (hview rfl), hview rfl]
  | popCas pos =>
    obtain ⟨p, hp, hpos, hview⟩ := h
    refine ⟨p, hp.trans hd, hpos, fun hpd => ?_⟩
    obtain rfl : p = d := by omega
    obtain ⟨v, hv⟩ := hview rfl
    exact ⟨v, (hfull hpd.symm _ v hv).trans hv⟩
  | pushEmplace v pos =>
    obtain ⟨p, hpos, hview⟩ := h
    exact ⟨p, hpos, howned hview rfl⟩
  | pushStore pos =>
    obtain ⟨p, v, hpos, hview⟩ := h
    exact ⟨p, v, hpos, howned hview rfl⟩
  | popTake pos =>
    obtain ⟨p, v, hpos, hview⟩ := h
    exact ⟨p, v, hpos, howned hview rfl⟩
  | popStore pos r =>
    obtain ⟨p, v, hpos, hr, hview⟩ := h
    exact ⟨p, v, hpos, hr, howned hview rfl⟩

/-- A slot whose view satisfies what slot `i` does not keeps its view when `i` is written. -/
theorem update_view_of_ne {P : View τ α → Prop} {j : Nat} (hi : ¬ P (view i)) (hj : P (view j))
    (w' : View τ α) : Function.update view i w' j = view j := by
  rw [Function.update_of_ne]
  rintro rfl
  exact hi hj

/-- A thread relies on no slot that another thread owns. -/
theorem Knows.of_owned (h : Knows k e d view u pc) (hown : (view i).stage.owner = some t)
    (hne : u ≠ t) (w' : View τ α) : Knows k e d (Function.update view i w') u pc := by
  refine h.frame le_rfl le_rfl (fun j hj => ?_) (fun _ j hj => ?_) fun _ j v hj => ?_
  · refine update_view_of_ne (P := fun x => x.stage.owner = some u) ?_ hj w'
    rw [hown]
    exact fun he => hne (Option.some.inj he).symm
  · refine update_view_of_ne (P := (· = _)) ?_ hj w'
    intro hi
    rw [hi] at hown
    cases hown
  · refine update_view_of_ne (P := (· = _)) ?_ hj w'
    intro hi
    rw [hi] at hown
    cases hown

/-- A producer's claim makes every other loaded producer ticket stale. -/
theorem Knows.of_claimPush (h : Knows k e d view u pc) (hv : view (e % 2 ^ k) = ⟨e, .vacant⟩)
    (w' : View τ α) : Knows k (e + 1) d (Function.update view (e % 2 ^ k) w') u pc := by
  refine h.frame (Nat.le_succ e) le_rfl (fun j hj => ?_) (fun he => by omega) fun _ j v hj => ?_
  · refine update_view_of_ne (P := fun x => x.stage.owner = some u) ?_ hj w'
    rw [hv]
    exact nofun
  · refine update_view_of_ne (P := (· = _)) ?_ hj w'
    rw [hv]
    exact nofun

/-- A consumer's claim makes every other loaded consumer ticket stale. -/
theorem Knows.of_claimPop {v : α} (h : Knows k e d view u pc)
    (hv : view (d % 2 ^ k) = ⟨d, .full v⟩) (w' : View τ α) :
    Knows k e (d + 1) (Function.update view (d % 2 ^ k) w') u pc := by
  refine h.frame le_rfl (Nat.le_succ d) (fun j hj => ?_) (fun _ j hj => ?_) fun hd => by omega
  · refine update_view_of_ne (P := fun x => x.stage.owner = some u) ?_ hj w'
    rw [hv]
    exact nofun
  · refine update_view_of_ne (P := (· = _)) ?_ hj w'
    rw [hv]
    exact nofun

/-- A silent access leaves the thread with what it needs at its next point. -/
theorem Knows.of_silent (hs : Slots k q e d view) (hk : 1 ≤ k) (he : e < 2 ^ 63)
    (h : Knows k e d view t pc) (hstep : Silent q pc pc') : Knows k e d view t pc' := by
  have hde := hs.deq_le
  cases hstep with
  | pushLoad v => exact ⟨e, le_rfl, hs.enqueuePos⟩
  | pushVacant v pos hseq =>
    obtain ⟨p, hp, rfl⟩ := h
    refine ⟨p, hp, rfl, fun hpe => ?_⟩
    subst hpe
    exact hs.vacant_of_sequence hk he hseq
  | pushFull | pushLate | popEmpty | popLate => trivial
  | pushLost v pos => exact ⟨e, le_rfl, hs.enqueuePos⟩
  | popLoad => exact ⟨d, le_rfl, hs.dequeuePos⟩
  | popFull pos hseq =>
    obtain ⟨p, hp, rfl⟩ := h
    refine ⟨p, hp, rfl, fun hpd => ?_⟩
    subst hpd
    refine hs.full_of_sequence hk he ?_
    rw [hseq, UInt64.ofNat_add, UInt64.ofNat_one]
  | popLost pos => exact ⟨d, le_rfl, hs.dequeuePos⟩

/-! ## The log -/

/-- The thread is inside a `try_push` that has not claimed a ticket yet. -/
def Pc.claiming : Pc α → Bool
  | .pushLoad _ | .pushSeq _ _ | .pushCas _ _ => true
  | _ => false

/-- The log is in ticket order, every entry goes back to a claim, and no ticket is served
twice. -/
structure Logs (m : Machine τ α) : Prop where
  pushTicket : ∀ j c, m.pushClaims[j]? = some c → c.ticket = UInt64.ofNat j
  popTicket : ∀ j c, m.popClaims[j]? = some c → c.ticket = UInt64.ofNat j
  emplaced : ∀ x ∈ m.emplacements, ∃ j c, x.ticket = UInt64.ofNat j ∧
    m.pushClaims[j]? = some c ∧ c.thread = x.thread ∧ c.value = x.value
  emplacedOnce : (m.emplacements.map (·.ticket)).Nodup
  returned : ∀ r ∈ m.popReturns, ∃ j c, r.ticket = UInt64.ofNat j ∧
    m.popClaims[j]? = some c ∧ c.thread = r.thread ∧
    ∃ x ∈ m.emplacements, x.ticket = r.ticket ∧ r.result = some x.value
  returnedOnce : (m.popReturns.map (·.ticket)).Nodup
  call_le : ∀ c ∈ m.pushClaims, c.call ≤ m.calls c.thread
  call_lt : ∀ c ∈ m.pushClaims, (m.pc c.thread).claiming = true → c.call < m.calls c.thread
  callOrder : m.pushClaims.Pairwise fun c c' => c.thread = c'.thread → c.call < c'.call

/-- What the log says about ticket `n` at each stage. -/
def Logged (m : Machine τ α) (n : Nat) : Stage τ α → Prop
  | .vacant => True
  | .claimed t v => (∃ c, m.pushClaims[n]? = some c ∧ c.thread = t ∧ c.value = v) ∧
      ∀ x ∈ m.emplacements, x.ticket ≠ UInt64.ofNat n
  | .emplaced _ v | .full v => ∃ x ∈ m.emplacements, x.ticket = UInt64.ofNat n ∧ x.value = v
  | .popping t v | .vacated t v =>
      (∃ x ∈ m.emplacements, x.ticket = UInt64.ofNat n ∧ x.value = v) ∧
      (∃ c, m.popClaims[n]? = some c ∧ c.thread = t) ∧
      ∀ r ∈ m.popReturns, r.ticket ≠ UInt64.ofNat n

theorem getElem?_append_of_some {β : Type*} {l r : List β} {n : Nat} {a : β}
    (h : l[n]? = some a) : (l ++ r)[n]? = some a := by
  obtain ⟨hn, -⟩ := List.getElem?_eq_some_iff.1 h
  rw [List.getElem?_append_left hn, h]

theorem getElem?_append_singleton {β : Type*} {l : List β} {n : Nat} {a b : β}
    (h : (l ++ [b])[n]? = some a) : l[n]? = some a ∨ n = l.length ∧ a = b := by
  rcases lt_trichotomy n l.length with hn | hn | hn
  · rw [List.getElem?_append_left hn] at h
    exact .inl h
  · subst hn
    rw [List.getElem?_append_right le_rfl, Nat.sub_self] at h
    exact .inr ⟨rfl, (Option.some.inj h).symm⟩
  · rw [List.getElem?_eq_none (by simp; omega)] at h
    cases h

variable {m m' : Machine τ α}

/-- New log entries for other tickets change nothing for ticket `n`. -/
theorem Logged.grow {n : Nat} {st : Stage τ α} (h : Logged m n st)
    (hpush : ∃ cs, m'.pushClaims = m.pushClaims ++ cs)
    (hemplace : ∃ xs, m'.emplacements = m.emplacements ++ xs ∧
      ∀ x ∈ xs, x.ticket ≠ UInt64.ofNat n)
    (hpop : ∃ cs, m'.popClaims = m.popClaims ++ cs)
    (hreturn : ∃ rs, m'.popReturns = m.popReturns ++ rs ∧ ∀ r ∈ rs, r.ticket ≠ UInt64.ofNat n) :
    Logged m' n st := by
  obtain ⟨cs, hcs⟩ := hpush
  obtain ⟨xs, hxs, hxn⟩ := hemplace
  obtain ⟨ps, hps⟩ := hpop
  obtain ⟨rs, hrs, hrn⟩ := hreturn
  have hkeep : ∀ v, (∃ x ∈ m.emplacements, x.ticket = UInt64.ofNat n ∧ x.value = v) →
      ∃ x ∈ m'.emplacements, x.ticket = UInt64.ofNat n ∧ x.value = v := by
    rintro v ⟨x, hx, hxv⟩
    exact ⟨x, by rw [hxs]; exact List.mem_append_left _ hx, hxv⟩
  have hpopping : ∀ t v, Logged m n (.popping t v) → Logged m' n (.popping t v) := by
    rintro t v ⟨hx, ⟨c, hc, hct⟩, hr⟩
    refine ⟨hkeep v hx, ⟨c, by rw [hps]; exact getElem?_append_of_some hc, hct⟩, fun r hr' => ?_⟩
    rw [hrs] at hr'
    rcases List.mem_append.1 hr' with hr' | hr'
    · exact hr r hr'
    · exact hrn r hr'
  cases st with
  | vacant => trivial
  | claimed t v =>
    obtain ⟨⟨c, hc, hct⟩, hx⟩ := h
    refine ⟨⟨c, by rw [hcs]; exact getElem?_append_of_some hc, hct⟩, fun x hx' => ?_⟩
    rw [hxs] at hx'
    rcases List.mem_append.1 hx' with hx' | hx'
    · exact hx x hx'
    · exact hxn x hx'
  | emplaced t v => exact hkeep v h
  | full v => exact hkeep v h
  | popping t v => exact hpopping t v h
  | vacated t v => exact hpopping t v h

/-- Moving a thread keeps the log, unless it starts to claim again. -/
theorem Logs.of_pc (h : Logs m) (q' : LockFreeQueue α) {pc' : τ → Pc α}
    (hpc : ∀ t, (pc' t).claiming = true → (m.pc t).claiming = true) :
    Logs { m with queue := q', pc := pc' } :=
  { h with call_lt := fun c hc hcl => h.call_lt c hc (hpc _ hcl) }

theorem Silent.claiming (h : Silent q pc pc') (hc : pc'.claiming = true) :
    pc.claiming = true := by
  cases h <;> first | rfl | cases hc

variable [DecidableEq τ]

theorem Logs.claimPush (h : Logs m) {v : α} (hpc : m.pc t = .pushCas v m.queue.enqueuePos)
    (hpos : m.queue.enqueuePos = UInt64.ofNat m.pushClaims.length) :
    Logs { m with
      queue := { m.queue with enqueuePos := m.queue.enqueuePos + 1 }
      pc := Function.update m.pc t (.pushEmplace v m.queue.enqueuePos)
      pushClaims := m.pushClaims ++ [⟨m.queue.enqueuePos, t, m.calls t, v⟩] } where
  pushTicket := by
    intro j c hj
    rcases getElem?_append_singleton hj with hj | ⟨rfl, rfl⟩
    · exact h.pushTicket j c hj
    · exact hpos
  popTicket := h.popTicket
  emplaced := by
    intro x hx
    obtain ⟨j, c, hj, hc, hxc⟩ := h.emplaced x hx
    exact ⟨j, c, hj, getElem?_append_of_some hc, hxc⟩
  emplacedOnce := h.emplacedOnce
  returned := h.returned
  returnedOnce := h.returnedOnce
  call_le := by
    intro c hc
    rcases List.mem_append.1 hc with hc | hc
    · exact h.call_le c hc
    · rw [List.mem_singleton.1 hc]
  call_lt := by
    intro c hc hcl
    change (Function.update m.pc t _ c.thread).claiming = true at hcl
    by_cases hct : c.thread = t
    · rw [hct, Function.update_self] at hcl
      cases hcl
    · rw [Function.update_of_ne hct] at hcl
      rcases List.mem_append.1 hc with hc | hc
      · exact h.call_lt c hc hcl
      · rw [List.mem_singleton.1 hc] at hct
        exact absurd rfl hct
  callOrder := by
    refine List.pairwise_append.2 ⟨h.callOrder, List.pairwise_singleton _ _, ?_⟩
    intro c hc c' hc' hcc
    rw [List.mem_singleton.1 hc'] at hcc ⊢
    have := h.call_lt c hc (by rw [hcc, hpc]; rfl)
    rwa [hcc] at this

theorem Logs.emplace (h : Logs m) {v : α} {p : Nat} (hlog : Logged m p (.claimed t v))
    (q' : LockFreeQueue α) :
    Logs { m with
      queue := q'
      pc := Function.update m.pc t (.pushStore (UInt64.ofNat p))
      emplacements := m.emplacements ++ [⟨UInt64.ofNat p, t, v⟩] } where
  pushTicket := h.pushTicket
  popTicket := h.popTicket
  emplaced := by
    intro x hx
    rcases List.mem_append.1 hx with hx | hx
    · exact h.emplaced x hx
    · obtain ⟨⟨c, hc, hct, hcv⟩, -⟩ := hlog
      rw [List.mem_singleton.1 hx]
      exact ⟨p, c, rfl, hc, hct, hcv⟩
  emplacedOnce := by
    rw [List.map_append, List.nodup_append]
    refine ⟨h.emplacedOnce, List.nodup_singleton _, ?_⟩
    intro a ha b hb
    obtain ⟨x, hx, rfl⟩ := List.mem_map.1 ha
    rw [List.map_singleton, List.mem_singleton] at hb
    rw [hb]
    exact hlog.2 x hx
  returned := by
    intro r hr
    obtain ⟨j, c, hj, hc, hcr, x, hx, hxr⟩ := h.returned r hr
    exact ⟨j, c, hj, hc, hcr, x, List.mem_append_left _ hx, hxr⟩
  returnedOnce := h.returnedOnce
  call_le := h.call_le
  call_lt := fun c hc hcl => h.call_lt c hc (update_reflects (by exact nofun) _ hcl)
  callOrder := h.callOrder

theorem Logs.claimPop (h : Logs m)
    (hpos : m.queue.dequeuePos = UInt64.ofNat m.popClaims.length) :
    Logs { m with
      queue := { m.queue with dequeuePos := m.queue.dequeuePos + 1 }
      pc := Function.update m.pc t (.popTake m.queue.dequeuePos)
      popClaims := m.popClaims ++ [⟨m.queue.dequeuePos, t⟩] } where
  pushTicket := h.pushTicket
  popTicket := by
    intro j c hj
    rcases getElem?_append_singleton hj with hj | ⟨rfl, rfl⟩
    · exact h.popTicket j c hj
    · exact hpos
  emplaced := h.emplaced
  emplacedOnce := h.emplacedOnce
  returned := by
    intro r hr
    obtain ⟨j, c, hj, hc, hrest⟩ := h.returned r hr
    exact ⟨j, c, hj, getElem?_append_of_some hc, hrest⟩
  returnedOnce := h.returnedOnce
  call_le := h.call_le
  call_lt := fun c hc hcl => h.call_lt c hc (update_reflects (by exact nofun) _ hcl)
  callOrder := h.callOrder

theorem Logs.vacate (h : Logs m) {v : α} {p : Nat} (hlog : Logged m p (.vacated t v))
    (q' : LockFreeQueue α) :
    Logs { m with
      queue := q'
      pc := Function.update m.pc t (.popReturned (some v))
      popReturns := m.popReturns ++ [⟨UInt64.ofNat p, t, some v⟩] } where
  pushTicket := h.pushTicket
  popTicket := h.popTicket
  emplaced := h.emplaced
  emplacedOnce := h.emplacedOnce
  returned := by
    intro r hr
    rcases List.mem_append.1 hr with hr | hr
    · exact h.returned r hr
    · obtain ⟨⟨x, hx, hxp, hxv⟩, ⟨c, hc, hct⟩, -⟩ := hlog
      rw [List.mem_singleton.1 hr]
      exact ⟨p, c, rfl, hc, hct, x, hx, hxp, by rw [hxv]⟩
  returnedOnce := by
    rw [List.map_append, List.nodup_append]
    refine ⟨h.returnedOnce, List.nodup_singleton _, ?_⟩
    intro a ha b hb
    obtain ⟨r, hr, rfl⟩ := List.mem_map.1 ha
    rw [List.map_singleton, List.mem_singleton] at hb
    rw [hb]
    exact hlog.2.2 r hr
  call_le := h.call_le
  call_lt := fun c hc hcl => h.call_lt c hc (update_reflects (by exact nofun) _ hcl)
  callOrder := h.callOrder

/-! ## The invariant -/

structure Inv (k : Nat) (m : Machine τ α) (view : Nat → View τ α) : Prop where
  slots : Slots k m.queue m.pushClaims.length m.popClaims.length view
  knows : ∀ t, Knows k m.pushClaims.length m.popClaims.length view t (m.pc t)
  logged : ∀ i < 2 ^ k, Logged m (view i).ticket (view i).stage
  logs : Logs m

omit [DecidableEq τ] in
theorem Inv.logged_at (h : Inv k m view) {p : Nat} {st : Stage τ α}
    (hv : view (p % 2 ^ k) = ⟨p, st⟩) : Logged m p st := by
  have := h.logged _ (Nat.mod_lt p (Nat.two_pow_pos k))
  rwa [hv] at this

omit [DecidableEq τ] in
/-- Other slots serve other tickets, and their words tell. -/
theorem Inv.ticket_ne (h : Inv k m view) (he : m.pushClaims.length < 2 ^ 63) {p j : Nat}
    (hj : j < 2 ^ k) (hp : (view (p % 2 ^ k)).ticket = p) (hne : j ≠ p % 2 ^ k) :
    UInt64.ofNat p ≠ UInt64.ofNat (view j).ticket := by
  intro hword
  have hj' := h.slots.slot j hj
  have hp' := h.slots.slot_at p
  have hplt := hp'.word_lt h.slots.ring.le h.slots.deq_le he
  rw [hp] at hplt
  have := ofNat_inj hplt (hj'.word_lt h.slots.ring.le h.slots.deq_le he) hword
  exact hne (by rw [← hj'.mod, this])

/-- A thread at a new point, the others where they were. -/
theorem knows_update {e' d' : Nat} {view' : Nat → View τ α} {p' : Pc α}
    (hself : Knows k e' d' view' t p')
    (hothers : ∀ u, u ≠ t → Knows k e' d' view' u (m.pc u)) (u : τ) :
    Knows k e' d' view' u (Function.update m.pc t p' u) :=
  (Function.forall_update_iff _ fun u p => Knows k e' d' view' u p).2 ⟨hself, hothers⟩ u

omit [DecidableEq τ] in
/-- The view of one slot changes, the log of the others stays true. -/
theorem logged_update (h : Inv k m view) (he : m.pushClaims.length < 2 ^ 63) {p : Nat}
    (hp : (view (p % 2 ^ k)).ticket = p) {w' : View τ α} (hnew : Logged m' w'.ticket w'.stage)
    (hpush : ∃ cs, m'.pushClaims = m.pushClaims ++ cs)
    (hemplace : ∃ xs, m'.emplacements = m.emplacements ++ xs ∧
      ∀ x ∈ xs, x.ticket = UInt64.ofNat p)
    (hpop : ∃ cs, m'.popClaims = m.popClaims ++ cs)
    (hreturn : ∃ rs, m'.popReturns = m.popReturns ++ rs ∧ ∀ r ∈ rs, r.ticket = UInt64.ofNat p)
    {j : Nat} (hj : j < 2 ^ k) :
    Logged m' (Function.update view (p % 2 ^ k) w' j).ticket
      (Function.update view (p % 2 ^ k) w' j).stage := by
  by_cases hjp : j = p % 2 ^ k
  · subst hjp
    rwa [Function.update_self]
  · rw [Function.update_of_ne hjp]
    have hne := h.ticket_ne he hj hp hjp
    obtain ⟨xs, hxs, hxp⟩ := hemplace
    obtain ⟨rs, hrs, hrp⟩ := hreturn
    exact (h.logged j hj).grow hpush ⟨xs, hxs, fun x hx => by rw [hxp x hx]; exact hne⟩ hpop
      ⟨rs, hrs, fun r hr => by rw [hrp r hr]; exact hne⟩

theorem inv_claimPush (h : Inv k m view) (he : m.pushClaims.length < 2 ^ 63) {v : α}
    (hpc : m.pc t = .pushCas v m.queue.enqueuePos) :
    ∃ view', Inv k { m with
      queue := { m.queue with enqueuePos := m.queue.enqueuePos + 1 }
      pc := Function.update m.pc t (.pushEmplace v m.queue.enqueuePos)
      pushClaims := m.pushClaims ++ [⟨m.queue.enqueuePos, t, m.calls t, v⟩] } view' := by
  have hpos := h.slots.enqueuePos
  have hvacant : view (m.pushClaims.length % 2 ^ k) = ⟨m.pushClaims.length, .vacant⟩ := by
    have hk := h.knows t
    rw [hpc] at hk
    obtain ⟨p, hp, hpp, hview⟩ := hk
    have : p = m.pushClaims.length := ofNat_inj (by omega) (by omega) (hpp.symm.trans hpos)
    rw [← this]
    exact hview this
  have hself : Logged
      { m with pushClaims := m.pushClaims ++ [⟨m.queue.enqueuePos, t, m.calls t, v⟩] }
      m.pushClaims.length (.claimed t v) := by
    refine ⟨⟨_, List.getElem?_concat_length, rfl, rfl⟩, fun x hx hxt => ?_⟩
    obtain ⟨j, c, hxj, hc, -⟩ := h.logs.emplaced x hx
    obtain ⟨hj, -⟩ := List.getElem?_eq_some_iff.1 hc
    have : j = m.pushClaims.length := ofNat_inj (by omega) (by omega) (hxj.symm.trans hxt)
    omega
  refine ⟨Function.update view (m.pushClaims.length % 2 ^ k) ⟨m.pushClaims.length, .claimed t v⟩,
    ?_, ?_, fun j hj => ?_, h.logs.claimPush hpc hpos⟩
  · rw [List.length_append]
    exact h.slots.claimPush hvacant t v
  · rw [List.length_append]
    refine knows_update ⟨_, hpos, ?_⟩ fun u _ => (h.knows u).of_claimPush hvacant _
    exact Function.update_self ..
  · exact logged_update h he (by rw [hvacant]) hself ⟨_, rfl⟩ ⟨[], by simp⟩ ⟨[], by simp⟩
      ⟨[], by simp⟩ hj

theorem inv_emplace (h : Inv k m view) (he : m.pushClaims.length < 2 ^ 63) {v : α} {pos : UInt64}
    (hpc : m.pc t = .pushEmplace v pos) :
    ∃ view', Inv k { m with
      queue := m.queue.setSlot pos { m.queue.slot pos with value := some v }
      pc := Function.update m.pc t (.pushStore pos)
      emplacements := m.emplacements ++ [⟨pos, t, v⟩] } view' := by
  have hk := h.knows t
  rw [hpc] at hk
  obtain ⟨p, rfl, hview⟩ := hk
  have hok := h.slots.slot_at p
  rw [hview] at hok
  refine ⟨Function.update view (p % 2 ^ k) ⟨p, .emplaced t v⟩,
    h.slots.setSlot p ⟨hok.mod, hok.lap, hok.sequence, rfl, hok.range⟩, ?_, fun j hj => ?_,
    h.logs.emplace (h.logged_at hview) _⟩
  · refine knows_update ⟨p, v, rfl, Function.update_self ..⟩ fun u hu => ?_
    exact (h.knows u).of_owned (t := t) (by rw [hview]; rfl) hu _
  · refine logged_update h he (by rw [hview]) ?_ ⟨[], by simp⟩ ⟨_, rfl, by simp⟩ ⟨[], by simp⟩
      ⟨[], by simp⟩ hj
    exact ⟨_, List.mem_append_right _ (List.mem_singleton_self _), rfl, rfl⟩

theorem inv_publish (h : Inv k m view) (he : m.pushClaims.length < 2 ^ 63) {pos : UInt64}
    (hpc : m.pc t = .pushStore pos) :
    ∃ view', Inv k { m with
      queue := m.queue.setSlot pos { m.queue.slot pos with sequence := pos + 1 }
      pc := Function.update m.pc t (.pushReturned true) } view' := by
  have hk := h.knows t
  rw [hpc] at hk
  obtain ⟨p, v, rfl, hview⟩ := hk
  have hok := h.slots.slot_at p
  rw [hview] at hok
  have hseq : UInt64.ofNat p + 1 = UInt64.ofNat (p + 1) := by
    rw [UInt64.ofNat_add, UInt64.ofNat_one]
  refine ⟨Function.update view (p % 2 ^ k) ⟨p, .full v⟩,
    h.slots.setSlot p ⟨hok.mod, hok.lap, hseq, hok.value, hok.range⟩, ?_, fun j hj => ?_,
    h.logs.of_pc _ (update_reflects (by exact nofun))⟩
  · refine knows_update trivial fun u hu => ?_
    exact (h.knows u).of_owned (t := t) (by rw [hview]; rfl) hu _
  · have hlog : Logged m p (.emplaced t v) := h.logged_at hview
    refine logged_update h he (by rw [hview]) ?_ ⟨[], by simp⟩ ⟨[], by simp⟩ ⟨[], by simp⟩
      ⟨[], by simp⟩ hj
    exact hlog

theorem inv_claimPop (h : Inv k m view) (he : m.pushClaims.length < 2 ^ 63)
    (hpc : m.pc t = .popCas m.queue.dequeuePos) :
    ∃ view', Inv k { m with
      queue := { m.queue with dequeuePos := m.queue.dequeuePos + 1 }
      pc := Function.update m.pc t (.popTake m.queue.dequeuePos)
      popClaims := m.popClaims ++ [⟨m.queue.dequeuePos, t⟩] } view' := by
  have hpos := h.slots.dequeuePos
  have hde := h.slots.deq_le
  obtain ⟨v, hfull⟩ : ∃ v, view (m.popClaims.length % 2 ^ k) = ⟨m.popClaims.length, .full v⟩ := by
    have hk := h.knows t
    rw [hpc] at hk
    obtain ⟨p, hp, hpp, hview⟩ := hk
    have : p = m.popClaims.length := ofNat_inj (by omega) (by omega) (hpp.symm.trans hpos)
    rw [← this]
    exact hview this
  have hself : Logged { m with popClaims := m.popClaims ++ [⟨m.queue.dequeuePos, t⟩] }
      m.popClaims.length (.popping t v) := by
    refine ⟨h.logged_at hfull, ⟨_, List.getElem?_concat_length, rfl⟩, fun r hr hrt => ?_⟩
    obtain ⟨j, c, hrj, hc, -⟩ := h.logs.returned r hr
    obtain ⟨hj, -⟩ := List.getElem?_eq_some_iff.1 hc
    have : j = m.popClaims.length := ofNat_inj (by omega) (by omega) (hrj.symm.trans hrt)
    omega
  refine ⟨Function.update view (m.popClaims.length % 2 ^ k) ⟨m.popClaims.length, .popping t v⟩,
    ?_, ?_, fun j hj => ?_, h.logs.claimPop hpos⟩
  · rw [List.length_append]
    exact h.slots.claimPop hfull t
  · rw [List.length_append]
    refine knows_update ⟨_, v, hpos, ?_⟩ fun u _ => (h.knows u).of_claimPop hfull _
    exact Function.update_self ..
  · exact logged_update h he (by rw [hfull]) hself ⟨[], by simp⟩ ⟨[], by simp⟩ ⟨_, rfl⟩
      ⟨[], by simp⟩ hj

theorem inv_take (h : Inv k m view) (he : m.pushClaims.length < 2 ^ 63) {pos : UInt64}
    (hpc : m.pc t = .popTake pos) :
    ∃ view', Inv k { m with
      queue := m.queue.setSlot pos { m.queue.slot pos with value := none }
      pc := Function.update m.pc t (.popStore pos (m.queue.slot pos).value) } view' := by
  have hk := h.knows t
  rw [hpc] at hk
  obtain ⟨p, v, rfl, hview⟩ := hk
  have hok := h.slots.slot_at p
  rw [hview] at hok
  refine ⟨Function.update view (p % 2 ^ k) ⟨p, .vacated t v⟩,
    h.slots.setSlot p ⟨hok.mod, hok.lap, hok.sequence, rfl, hok.range⟩, ?_, fun j hj => ?_,
    h.logs.of_pc _ (update_reflects (by exact nofun))⟩
  · refine knows_update ⟨p, v, rfl, hok.value, Function.update_self ..⟩ fun u hu => ?_
    exact (h.knows u).of_owned (t := t) (by rw [hview]; rfl) hu _
  · have hlog : Logged m p (.popping t v) := h.logged_at hview
    refine logged_update h he (by rw [hview]) ?_ ⟨[], by simp⟩ ⟨[], by simp⟩ ⟨[], by simp⟩
      ⟨[], by simp⟩ hj
    exact hlog

theorem inv_vacate (h : Inv k m view) (he : m.pushClaims.length < 2 ^ 63) {pos : UInt64}
    {r : Option α} (hpc : m.pc t = .popStore pos r) :
    ∃ view', Inv k { m with
      queue := m.queue.setSlot pos { m.queue.slot pos with sequence := pos + m.queue.mask + 1 }
      pc := Function.update m.pc t (.popReturned r)
      popReturns := m.popReturns ++ [⟨pos, t, r⟩] } view' := by
  have hk := h.knows t
  rw [hpc] at hk
  obtain ⟨p, v, rfl, rfl, hview⟩ := hk
  have hok := h.slots.slot_at p
  rw [hview] at hok
  have hlap : m.pushClaims.length ≤ p + 2 ^ k := hok.lap
  have hrange : p < m.popClaims.length := hok.range
  -- The slot now serves the ticket one lap later, which no producer has claimed yet.
  have hnext : SlotOk k m.pushClaims.length m.popClaims.length (p % 2 ^ k)
      { m.queue.slot (UInt64.ofNat p) with
        sequence := UInt64.ofNat p + m.queue.mask + 1 }
      (⟨p + 2 ^ k, .vacant⟩ : View τ α) :=
    ⟨Nat.add_mod_right p _, hlap.trans (Nat.le_add_right _ _), h.slots.ring.nextLap p, hok.value,
      ⟨hlap, Nat.add_lt_add_right hrange _⟩⟩
  refine ⟨Function.update view (p % 2 ^ k) ⟨p + 2 ^ k, .vacant⟩, h.slots.setSlot p hnext, ?_,
    fun j hj => ?_, h.logs.vacate (h.logged_at hview) _⟩
  · refine knows_update trivial fun u hu => ?_
    exact (h.knows u).of_owned (t := t) (by rw [hview]; rfl) hu _
  · refine logged_update h he (by rw [hview]) ?_ ⟨[], by simp⟩ ⟨[], by simp⟩ ⟨[], by simp⟩
      ⟨_, rfl, by simp⟩ hj
    trivial

theorem inv_silent (h : Inv k m view) (hk : 1 ≤ k) (he : m.pushClaims.length < 2 ^ 63)
    (hstep : Silent m.queue (m.pc t) pc') :
    Inv k { m with pc := Function.update m.pc t pc' } view where
  slots := h.slots
  knows := knows_update ((h.knows t).of_silent h.slots hk he hstep) fun u _ => h.knows u
  logged := h.logged
  logs := h.logs.of_pc _ (update_reflects hstep.claiming)

theorem inv_call (h : Inv k m view) (t : τ) (op : BoundedFifo.Op α) :
    Inv k { m with
      pc := Function.update m.pc t (start op)
      calls := Function.update m.calls t (m.calls t + 1) } view where
  slots := h.slots
  knows := knows_update (by cases op <;> trivial) fun u _ => h.knows u
  logged := h.logged
  logs :=
    { h.logs with
      call_le := by
        intro c hc
        have := h.logs.call_le c hc
        change c.call ≤ Function.update m.calls t (m.calls t + 1) c.thread
        by_cases hct : c.thread = t
        · rw [hct, Function.update_self]
          rw [hct] at this
          omega
        · rwa [Function.update_of_ne hct]
      call_lt := by
        intro c hc hcl
        have hle := h.logs.call_le c hc
        change c.call < Function.update m.calls t (m.calls t + 1) c.thread
        change (Function.update m.pc t (start op) c.thread).claiming = true at hcl
        by_cases hct : c.thread = t
        · rw [hct, Function.update_self]
          rw [hct] at hle
          omega
        · rw [Function.update_of_ne hct] at hcl ⊢
          exact h.logs.call_lt c hc hcl }

/-- **One step.** Every action keeps the invariant while fewer than `2^63` tickets are claimed. -/
theorem inv_step (h : Inv k m view) (hk : 1 ≤ k) (he : m.pushClaims.length < 2 ^ 63)
    {a : Action τ α} (hstep : m.step a = some m') : ∃ view', Inv k m' view' := by
  cases a with
  | call t op =>
    simp only [Machine.step] at hstep
    split_ifs at hstep
    cases hstep
    exact ⟨view, inv_call h t op⟩
  | access t b =>
    rcases access_cases hstep with ⟨pc', hsilent, rfl⟩ | heffect
    · exact ⟨view, inv_silent h hk he hsilent⟩
    · cases heffect with
      | claimPush v hpc => exact inv_claimPush h he hpc
      | emplace v pos hpc => exact inv_emplace h he hpc
      | publish pos hpc => exact inv_publish h he hpc
      | claimPop hpc => exact inv_claimPop h he hpc
      | take pos hpc => exact inv_take h he hpc
      | vacate pos r hpc => exact inv_vacate h he hpc

/-! ## Safety -/

/-- The thread is between its successful CAS and its sequence store for slot `i`. -/
def Pc.Owns (q : LockFreeQueue α) (i : Nat) : Pc α → Prop
  | .pushEmplace _ pos | .pushStore pos | .popTake pos | .popStore pos _ => q.index pos = i
  | _ => False

/-- What no interleaving breaks. -/
structure Safe (m : Machine τ α) : Prop where
  count_nonneg : m.queue.dequeuePos.toNat ≤ m.queue.enqueuePos.toNat
  count_le : m.queue.enqueuePos.toNat - m.queue.dequeuePos.toNat ≤ m.queue.capacity.toNat
  /-- At most one thread is inside a slot. -/
  exclusive : ∀ t u i, (m.pc t).Owns m.queue i → (m.pc u).Owns m.queue i → t = u
  emplace_disengaged : ∀ t v pos, m.pc t = .pushEmplace v pos → (m.queue.slot pos).value = none
  take_engaged : ∀ t pos, m.pc t = .popTake pos → (m.queue.slot pos).value.isSome = true
  /-- Tickets are issued in order. -/
  pushTicket : ∀ (j : Nat) (c : PushClaim τ α), m.pushClaims[j]? = some c → c.ticket.toNat = j
  popTicket : ∀ (j : Nat) (c : PopClaim τ), m.popClaims[j]? = some c → c.ticket.toNat = j
  /-- The consumer that claimed a ticket returns what the producer of that ticket emplaced. -/
  popValue : ∀ r ∈ m.popReturns, ∃ c ∈ m.popClaims, ∃ x ∈ m.emplacements, ∃ c' ∈ m.pushClaims,
    c.ticket = r.ticket ∧ c.thread = r.thread ∧ x.ticket = r.ticket ∧ c'.ticket = r.ticket ∧
      c'.thread = x.thread ∧ c'.value = x.value ∧ r.result = some x.value
  /-- A ticket is filled at most once and returned at most once. -/
  emplacedOnce : (m.emplacements.map (·.ticket)).Nodup
  poppedOnce : (m.popReturns.map (·.ticket)).Nodup
  /-- A value that is in and not yet claimed by a consumer is still in its slot. -/
  stored : ∀ x ∈ m.emplacements, m.popClaims.length ≤ x.ticket.toNat →
    (m.queue.slot x.ticket).value = some x.value
  /-- Of two values pushed by one thread, consumers claim the earlier one first. -/
  fifo : ∀ c ∈ m.pushClaims, ∀ c' ∈ m.pushClaims, c.thread = c'.thread → c.call < c'.call →
    c.ticket.toNat < c'.ticket.toNat ∧
      ∀ (y : Nat) (p' : PopClaim τ), m.popClaims[y]? = some p' → p'.ticket = c'.ticket →
        ∃ x < y, ∃ p : PopClaim τ, m.popClaims[x]? = some p ∧ p.ticket = c.ticket

omit [DecidableEq τ] in
/-- A thread inside slot `i` is the owner in the slot's view. -/
theorem Inv.owner_of_owns (h : Inv k m view) (howns : (m.pc t).Owns m.queue i) :
    (view i).stage.owner = some t := by
  have hk := h.knows t
  cases hpc : m.pc t with
  | pushEmplace v pos =>
    rw [hpc] at hk howns
    obtain ⟨p, rfl, hview⟩ := hk
    rw [Pc.Owns, h.slots.ring.index_ofNat] at howns
    rw [← howns, hview]
    rfl
  | pushStore pos =>
    rw [hpc] at hk howns
    obtain ⟨p, v, rfl, hview⟩ := hk
    rw [Pc.Owns, h.slots.ring.index_ofNat] at howns
    rw [← howns, hview]
    rfl
  | popTake pos =>
    rw [hpc] at hk howns
    obtain ⟨p, v, rfl, hview⟩ := hk
    rw [Pc.Owns, h.slots.ring.index_ofNat] at howns
    rw [← howns, hview]
    rfl
  | popStore pos r =>
    rw [hpc] at hk howns
    obtain ⟨p, v, rfl, -, hview⟩ := hk
    rw [Pc.Owns, h.slots.ring.index_ofNat] at howns
    rw [← howns, hview]
    rfl
  | _ =>
    rw [hpc] at howns
    exact howns.elim

omit [DecidableEq τ] in
/-- A ticket between the counters is the one its slot serves. -/
theorem Inv.view_of_pending (h : Inv k m view) {p : Nat} (hd : m.popClaims.length ≤ p)
    (he : p < m.pushClaims.length) :
    (view (p % 2 ^ k)).ticket = p ∧ (view (p % 2 ^ k)).stage.InRange k m.pushClaims.length
      m.popClaims.length p ∧ (view (p % 2 ^ k)).stage ≠ .vacant := by
  have hok := h.slots.slot_at p
  have hmod : Nat.ModEq (2 ^ k) (view (p % 2 ^ k)).ticket p := hok.mod
  have hlap := hok.lap
  have hr := hok.range
  have hle := h.slots.enq_le
  rcases hw : view (p % 2 ^ k) with ⟨n, stage⟩
  rw [hw] at hmod hlap hr
  dsimp only at hmod hlap hr ⊢
  have hclose : ∀ {a b : Nat}, Nat.ModEq (2 ^ k) a b → a < b → a + 2 ^ k ≤ b := by
    intro a b hab hlt
    obtain ⟨c, hc⟩ := (Nat.modEq_iff_dvd' hlt.le).1 hab
    have hc1 : 1 ≤ c := by
      rcases Nat.eq_zero_or_pos c with rfl | hpos
      · omega
      · exact hpos
    have := Nat.mul_le_mul_left (2 ^ k) hc1
    omega
  have hnp : n = p := by
    rcases lt_trichotomy n p with hlt | heq | hgt
    · have := hclose hmod hlt
      omega
    · exact heq
    · have := hclose hmod.symm hgt
      cases stage <;> simp only [Stage.InRange] at hr <;> omega
  subst hnp
  refine ⟨rfl, hr, ?_⟩
  rintro rfl
  simp only [Stage.InRange] at hr
  omega

omit [DecidableEq τ] in
theorem Inv.stored (h : Inv k m view) (hlt : m.pushClaims.length < 2 ^ 63)
    {x : Emplacement τ α} (hx : x ∈ m.emplacements) (hd : m.popClaims.length ≤ x.ticket.toNat) :
    (m.queue.slot x.ticket).value = some x.value := by
  obtain ⟨p, c, hxp, hc, -⟩ := h.logs.emplaced x hx
  obtain ⟨hp, -⟩ := List.getElem?_eq_some_iff.1 hc
  rw [hxp, toNat_ticket (by omega)] at hd
  obtain ⟨hticket, hr, hne⟩ := h.view_of_pending hd hp
  have hval := (h.slots.slot_at p).value
  have hlog := h.logged _ (Nat.mod_lt p (Nat.two_pow_pos k))
  rw [hticket] at hlog
  rw [hxp, hval]
  -- Whatever stage shows a payload shows the one emplaced for this ticket.
  have hsame : ∀ v, (∃ y ∈ m.emplacements, y.ticket = UInt64.ofNat p ∧ y.value = v) →
      some v = some x.value := by
    rintro v ⟨y, hy, hyp, rfl⟩
    rw [List.inj_on_of_nodup_map h.logs.emplacedOnce hy hx (hyp.trans hxp.symm)]
  cases hst : (view (p % 2 ^ k)).stage with
  | vacant => exact absurd hst hne
  | claimed t v =>
    rw [hst] at hlog
    exact absurd hxp (hlog.2 x hx)
  | emplaced t v =>
    rw [hst] at hlog
    exact hsame v hlog
  | full v =>
    rw [hst] at hlog
    exact hsame v hlog
  | popping t v | vacated t v =>
    rw [hst] at hr
    simp only [Stage.InRange] at hr
    omega

omit [DecidableEq τ] in
theorem Inv.fifo (h : Inv k m view) (hlt : m.pushClaims.length < 2 ^ 63) {c c' : PushClaim τ α}
    (hc : c ∈ m.pushClaims) (hc' : c' ∈ m.pushClaims) (hthread : c.thread = c'.thread)
    (hcall : c.call < c'.call) :
    c.ticket.toNat < c'.ticket.toNat ∧
      ∀ (y : Nat) (p' : PopClaim τ), m.popClaims[y]? = some p' → p'.ticket = c'.ticket →
        ∃ x < y, ∃ p : PopClaim τ, m.popClaims[x]? = some p ∧ p.ticket = c.ticket := by
  obtain ⟨i, hi⟩ := List.getElem?_of_mem hc
  obtain ⟨j, hj⟩ := List.getElem?_of_mem hc'
  obtain ⟨hil, hiv⟩ := List.getElem?_eq_some_iff.1 hi
  obtain ⟨hjl, hjv⟩ := List.getElem?_eq_some_iff.1 hj
  have hci := h.logs.pushTicket i c hi
  have hcj := h.logs.pushTicket j c' hj
  have hij : i < j := by
    by_contra hge
    rcases Nat.lt_or_ge j i with hji | hij
    · have := List.pairwise_iff_getElem.1 h.logs.callOrder j i hjl hil hji
      rw [hiv, hjv] at this
      have := this hthread.symm
      omega
    · obtain rfl : i = j := by omega
      rw [hi] at hj
      cases hj
      omega
  have hde := h.slots.deq_le
  rw [hci, hcj, toNat_ticket (by omega), toNat_ticket (by omega)]
  refine ⟨hij, fun y p' hy hp' => ?_⟩
  obtain ⟨hyl, -⟩ := List.getElem?_eq_some_iff.1 hy
  have hyj : y = j :=
    ofNat_inj (by omega) (by omega) ((h.logs.popTicket y p' hy).symm.trans (hp'.trans rfl))
  subst hyj
  refine ⟨i, hij, m.popClaims[i], List.getElem?_eq_getElem (by omega), ?_⟩
  exact h.logs.popTicket i _ (List.getElem?_eq_getElem (by omega))

omit [DecidableEq τ] in
theorem Inv.safe (h : Inv k m view) (hlt : m.pushClaims.length < 2 ^ 63) : Safe m := by
  have hde := h.slots.deq_le
  have hed := h.slots.enq_le
  have hpow : 2 ^ k ≤ 2 ^ 63 := Nat.pow_le_pow_right (by omega) h.slots.ring.le
  have henq : m.queue.enqueuePos.toNat = m.pushClaims.length := by
    rw [h.slots.enqueuePos, toNat_ticket (by omega)]
  have hdeq : m.queue.dequeuePos.toNat = m.popClaims.length := by
    rw [h.slots.dequeuePos, toNat_ticket (by omega)]
  exact {
    count_nonneg := by rw [henq, hdeq]; exact hde
    count_le := by rw [henq, hdeq, h.slots.ring.capacity_toNat]; omega
    exclusive := by
      intro t u i ht hu
      have := h.owner_of_owns ht
      rw [h.owner_of_owns hu] at this
      exact (Option.some.inj this).symm
    emplace_disengaged := by
      intro t v pos hpc
      have hk := h.knows t
      rw [hpc] at hk
      obtain ⟨p, rfl, hview⟩ := hk
      rw [(h.slots.slot_at p).value, hview]
      rfl
    take_engaged := by
      intro t pos hpc
      have hk := h.knows t
      rw [hpc] at hk
      obtain ⟨p, v, rfl, hview⟩ := hk
      rw [(h.slots.slot_at p).value, hview]
      rfl
    pushTicket := by
      intro j c hj
      obtain ⟨hjl, -⟩ := List.getElem?_eq_some_iff.1 hj
      rw [h.logs.pushTicket j c hj, toNat_ticket (by omega)]
    popTicket := by
      intro j c hj
      obtain ⟨hjl, -⟩ := List.getElem?_eq_some_iff.1 hj
      rw [h.logs.popTicket j c hj, toNat_ticket (by omega)]
    popValue := by
      intro r hr
      obtain ⟨j, c, hrj, hc, hct, x, hx, hxr, hres⟩ := h.logs.returned r hr
      obtain ⟨i, c', hxi, hc', hct', hcv'⟩ := h.logs.emplaced x hx
      exact ⟨c, List.mem_of_getElem? hc, x, hx, c', List.mem_of_getElem? hc',
        (h.logs.popTicket j c hc).trans hrj.symm, hct, hxr,
        (h.logs.pushTicket i c' hc').trans (hxi.symm.trans hxr), hct', hcv', hres⟩
    emplacedOnce := h.logs.emplacedOnce
    poppedOnce := h.logs.returnedOnce
    stored := fun x hx hd => h.stored hlt hx hd
    fifo := fun c hc c' hc' => h.fifo hlt hc hc' }

/-! ## Every reachable state -/

omit [DecidableEq τ] in
theorem inv_initial {minCapacity : UInt64} (hq : create α minCapacity = .ok q) :
    Inv (Nat.clog 2 minCapacity.toNat) (Machine.initial τ q) fun i => ⟨i, .vacant⟩ := by
  have hok : ¬ ∃ err, create α minCapacity = .error err := by
    rintro ⟨err, herr⟩
    rw [herr] at hq
    cases hq
  rw [create_error_iff] at hok
  push Not at hok
  rw [create_eq_ok (by omega) hok.2] at hq
  cases hq
  exact {
    slots := {
      ring := ⟨clog_le hok.2, rfl⟩
      enqueuePos := rfl
      dequeuePos := rfl
      deq_le := le_rfl
      enq_le := Nat.zero_le _
      slot := fun i hi =>
        ⟨Nat.mod_eq_of_lt hi, Nat.zero_le _, rfl, rfl, Nat.zero_le _,
          by simpa [Machine.initial] using hi⟩ }
    knows := fun _ => trivial
    logged := fun _ _ => trivial
    logs := by constructor <;> simp [Machine.initial] }

/-- Steps never take claims back. -/
theorem claims_le {a : Action τ α} (hstep : m.step a = some m') :
    m.pushClaims.length ≤ m'.pushClaims.length := by
  cases a with
  | call t op =>
    simp only [Machine.step] at hstep
    split_ifs at hstep
    cases hstep
    exact le_rfl
  | access t b =>
    rcases access_cases hstep with ⟨pc', -, rfl⟩ | heffect
    · exact le_rfl
    · cases heffect <;> simp

/-- **Any interleaving.** On a queue of capacity at least two, in every state reached while
fewer than `2^63` tickets are issued, the counters stay within one lap, a slot has at most one
thread inside, a payload goes only into a disengaged slot and out of an engaged one, and every
consumer returns what the producer of its ticket emplaced: nothing is lost, duplicated or taken
out of a producer's order. -/
theorem reachable_safe {minCapacity : UInt64} (hq : create α minCapacity = .ok q)
    (hcap : 2 ≤ q.capacity.toNat) (hm : Reachable Machine.step (Machine.initial τ q) m)
    (htickets : m.pushClaims.length + m.popClaims.length < 2 ^ 63) : Safe m := by
  have h₀ := inv_initial (τ := τ) hq
  have hk : 1 ≤ Nat.clog 2 minCapacity.toNat := by
    by_contra hlt
    have hcap' : q.capacity.toNat = _ := h₀.slots.ring.capacity_toNat
    rw [show Nat.clog 2 minCapacity.toNat = 0 by omega] at hcap'
    omega
  obtain ⟨view, hinv⟩ := hm.invariant Machine.step
    (I := fun m => m.pushClaims.length < 2 ^ 63 → ∃ view, Inv (Nat.clog 2 minCapacity.toNat) m view)
    (fun _ => ⟨_, h₀⟩) (fun m a m' ih hstep hlt => by
      have hle := claims_le hstep
      obtain ⟨view, hinv⟩ := ih (by omega)
      exact inv_step hinv hk (by omega) hstep) (by omega)
  exact hinv.safe (by omega)

/-- Two threads on a ring of two: the producer claims a ticket, the consumer looks too early and
finds nothing, and takes the value on its second call. -/
def handOver : List (Action Bool Nat) :=
  [.call true (.push 7), .access true false, .access true false, .access true true,
    .access true false, .access true false, .call false .pop, .access false false,
    .access false false, .access true false, .access true false, .call false .pop,
    .access false false, .access false false, .access false false, .access false false,
    .access false false]

theorem reachable_safe_handOver :
    ∃ q, create Nat 2 = .ok q ∧ ∃ m, run Machine.step (Machine.initial Bool q) handOver = some m ∧
      m.popReturns.map (·.result) = [some 7] ∧ Safe m := by
  have hq := create_eq_ok (α := Nat) (m := 2) (by decide) (by decide)
  have hrun : ((run Machine.step (Machine.initial Bool (emptyRing Nat 2)) handOver).map fun m =>
      (m.pushClaims.length, m.popClaims.length, m.popReturns.map (·.result))) =
      some (1, 1, [some 7]) := by
    decide
  obtain ⟨m, hm, hlog⟩ := Option.map_eq_some_iff.1 hrun
  obtain ⟨hpush, hpop, hres⟩ : m.pushClaims.length = 1 ∧ m.popClaims.length = 1 ∧
      m.popReturns.map (·.result) = [some 7] := by simpa using hlog
  exact ⟨_, hq, m, hm, hres,
    reachable_safe hq (by decide) ⟨handOver, hm⟩ (by rw [hpush, hpop]; decide)⟩

end EglUtil.LockFreeQueue
