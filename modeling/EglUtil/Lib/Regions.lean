import Mathlib.Order.Lattice
import Mathlib.Data.List.Basic

/-!
# Regions below a watermark

Regions of a linear order are granted one after another, each at or above the current level,
which then rises to its end. A mark remembers the level; rewinding to it takes back every region
granted since, and the level falls to the remembered one. Marks above the new level are void.

**Invariant** (`Ledger.Ok`). The live regions follow one another from `bottom` to the level. For
a valid mark, a live region lies below the remembered level if it is older than the mark, and
above if it is younger; and of the regions live when the mark was set, those that are not empty
are live still.

The last part is why a mark may be used even after a rewind to another: a region that is not empty
and lies below one valid mark cannot lie above another one that is not lower.
-/

namespace Regions

variable {α : Type*} [LinearOrder α]

/-- What lies from `lo` up to, but not including, `hi`; `made` numbers the grants and marks. -/
structure Region (α : Type*) where
  lo : α
  hi : α
  made : Nat
deriving DecidableEq

structure Mark (α : Type*) where
  level : α
  made : Nat
  /-- The regions that were live when the mark was set. -/
  live : List (Region α)
deriving DecidableEq

structure Ledger (α : Type*) where
  level : α
  clock : Nat
  /-- Oldest first. -/
  live : List (Region α)
  /-- The marks that are valid. -/
  marks : List (Mark α)

/-- The two have nothing in common. -/
def Apart (r s : Region α) : Prop := r.hi ≤ s.lo ∨ s.hi ≤ r.lo

namespace Ledger

variable {l : Ledger α} {bottom lo hi : α} {m m' : Mark α}

def start (bottom : α) : Ledger α := ⟨bottom, 0, [], []⟩

/-- The region that is granted next. -/
def next (l : Ledger α) (lo hi : α) : Region α := ⟨lo, hi, l.clock⟩

def grant (l : Ledger α) (lo hi : α) : Ledger α :=
  ⟨hi, l.clock + 1, l.live ++ [l.next lo hi], l.marks⟩

def mark (l : Ledger α) : Ledger α :=
  ⟨l.level, l.clock + 1, l.live, ⟨l.level, l.clock, l.live⟩ :: l.marks⟩

def rewind (l : Ledger α) (m : Mark α) : Ledger α :=
  ⟨m.level, l.clock, l.live.filter (·.made < m.made), l.marks.filter (·.level ≤ m.level)⟩

def reset (l : Ledger α) (bottom : α) : Ledger α := ⟨bottom, l.clock, [], []⟩

/-- What a valid mark is good for. -/
structure MarkOk (l : Ledger α) (bottom : α) (m : Mark α) : Prop where
  above : bottom ≤ m.level
  le : m.level ≤ l.level
  made_lt : m.made < l.clock
  older : ∀ r ∈ l.live, r.made < m.made → r.hi ≤ m.level ∧ r ∈ m.live
  younger : ∀ r ∈ l.live, ¬ r.made < m.made → m.level ≤ r.lo
  kept : ∀ r ∈ m.live, r.made < m.made ∧ (r.lo < r.hi → r ∈ l.live)

structure Ok (l : Ledger α) (bottom : α) : Prop where
  above : bottom ≤ l.level
  within : ∀ r ∈ l.live, bottom ≤ r.lo ∧ r.lo ≤ r.hi ∧ r.hi ≤ l.level
  inOrder : l.live.Pairwise fun r s => r.hi ≤ s.lo
  made_lt : ∀ r ∈ l.live, r.made < l.clock
  marks : ∀ m ∈ l.marks, l.MarkOk bottom m

theorem ok_start : (start bottom).Ok bottom := ⟨le_refl _, nofun, .nil, nofun, nofun⟩

theorem Ok.pairwise_apart (h : l.Ok bottom) : l.live.Pairwise Apart := h.inOrder.imp .inl

/-- A region at or above the level has nothing in common with those granted before. -/
theorem Ok.apart_next (h : l.Ok bottom) (hlo : l.level ≤ lo) {r : Region α} (hr : r ∈ l.live) :
    Apart (l.next lo hi) r := .inr ((h.within r hr).2.2.trans hlo)

omit [LinearOrder α] in
theorem mem_grant {r : Region α} : r ∈ (l.grant lo hi).live ↔ r ∈ l.live ∨ r = l.next lo hi := by
  simp [grant]

theorem Ok.grant (h : l.Ok bottom) (hlo : l.level ≤ lo) (hhi : lo ≤ hi) :
    (l.grant lo hi).Ok bottom where
  above := h.above.trans (hlo.trans hhi)
  within := by
    intro r hr
    rcases mem_grant.1 hr with hr | rfl
    · obtain ⟨hbottom, hle, htop⟩ := h.within r hr
      exact ⟨hbottom, hle, htop.trans (hlo.trans hhi)⟩
    · exact ⟨h.above.trans hlo, hhi, le_refl _⟩
  inOrder := by
    refine List.pairwise_append.2 ⟨h.inOrder, List.pairwise_singleton _ _, ?_⟩
    intro r hr s hs
    rw [List.mem_singleton.1 hs]
    exact (h.within r hr).2.2.trans hlo
  made_lt := by
    intro r hr
    rcases mem_grant.1 hr with hr | rfl
    · exact Nat.lt_succ_of_lt (h.made_lt r hr)
    · exact Nat.lt_succ_self _
  marks := by
    intro m hm
    have hmark := h.marks m hm
    refine ⟨hmark.above, hmark.le.trans (hlo.trans hhi), Nat.lt_succ_of_lt hmark.made_lt,
      ?_, ?_, ?_⟩
    · intro r hr hold
      rcases mem_grant.1 hr with hr | rfl
      · exact hmark.older r hr hold
      · exact absurd hold (Nat.not_lt_of_gt hmark.made_lt)
    · intro r hr hnew
      rcases mem_grant.1 hr with hr | rfl
      · exact hmark.younger r hr hnew
      · exact hmark.le.trans hlo
    · intro r hr
      exact ⟨(hmark.kept r hr).1, fun hne => mem_grant.2 (.inl ((hmark.kept r hr).2 hne))⟩

theorem Ok.mark (h : l.Ok bottom) : l.mark.Ok bottom where
  above := h.above
  within := h.within
  inOrder := h.inOrder
  made_lt := fun r hr => Nat.lt_succ_of_lt (h.made_lt r hr)
  marks := by
    intro m hm
    rcases List.mem_cons.1 hm with rfl | hm
    · refine ⟨h.above, le_refl _, Nat.lt_succ_self _, ?_, ?_, ?_⟩
      · intro r hr _
        exact ⟨(h.within r hr).2.2, hr⟩
      · intro r hr hnew
        exact absurd (h.made_lt r hr) hnew
      · intro r hr
        exact ⟨h.made_lt r hr, fun _ => hr⟩
    · have hmark := h.marks m hm
      exact ⟨hmark.above, hmark.le, Nat.lt_succ_of_lt hmark.made_lt, hmark.older, hmark.younger,
        hmark.kept⟩

theorem mem_rewind {r : Region α} :
    r ∈ (l.rewind m).live ↔ r ∈ l.live ∧ r.made < m.made := by
  simp [rewind]

/-- A region that is not empty and lies below a valid mark is older than every valid mark that is
not lower. -/
theorem Ok.older_of_le (h : l.Ok bottom) (hm : m ∈ l.marks) (hm' : m' ∈ l.marks)
    (hle : m.level ≤ m'.level) {r : Region α} (hr : r ∈ m.live) (hne : r.lo < r.hi) :
    r ∈ l.live ∧ r.made < m'.made := by
  have hmark := h.marks m hm
  obtain ⟨hold, hkept⟩ := hmark.kept r hr
  have hlive := hkept hne
  refine ⟨hlive, ?_⟩
  by_contra hnew
  have hbelow : r.hi ≤ m'.level := (hmark.older r hlive hold).1.trans hle
  have habove : m'.level ≤ r.lo := (h.marks m' hm').younger r hlive hnew
  exact absurd (hbelow.trans habove) (not_le_of_gt hne)

theorem Ok.rewind (h : l.Ok bottom) (hm : m ∈ l.marks) : (l.rewind m).Ok bottom where
  above := (h.marks m hm).above
  within := by
    intro r hr
    obtain ⟨hlive, hold⟩ := mem_rewind.1 hr
    obtain ⟨hbottom, hle, -⟩ := h.within r hlive
    exact ⟨hbottom, hle, ((h.marks m hm).older r hlive hold).1⟩
  inOrder := h.inOrder.filter _
  made_lt := fun r hr => h.made_lt r (mem_rewind.1 hr).1
  marks := by
    intro m' hm'
    rw [Ledger.rewind, List.mem_filter, decide_eq_true_eq] at hm'
    obtain ⟨hm', hle⟩ := hm'
    have hmark := h.marks m' hm'
    refine ⟨hmark.above, hle, hmark.made_lt, ?_, ?_, ?_⟩
    · intro r hr hold
      exact hmark.older r (mem_rewind.1 hr).1 hold
    · intro r hr hnew
      exact hmark.younger r (mem_rewind.1 hr).1 hnew
    · intro r hr
      exact ⟨(hmark.kept r hr).1, fun hne => mem_rewind.2 (h.older_of_le hm' hm hle hr hne)⟩

theorem ok_reset : (l.reset bottom).Ok bottom :=
  ⟨le_refl _, nofun, .nil, nofun, nofun⟩

/-- What a rewind takes back and what it leaves. -/
structure Rewound (l : Ledger α) (m : Mark α) (l' : Ledger α) : Prop where
  /-- Exactly the live regions older than the mark are live still. -/
  live : ∀ r, r ∈ l'.live ↔ r ∈ l.live ∧ r.made < m.made
  /-- They were live when the mark was set; and no other was, unless it is empty. -/
  snapshot : ∀ r, r ∈ l'.live → r ∈ m.live
  kept : ∀ r ∈ m.live, r.lo < r.hi → r ∈ l'.live
  /-- The level separates what is live from what was taken back. -/
  below : ∀ r ∈ l'.live, r.hi ≤ l'.level
  above : ∀ r ∈ l.live, r ∉ l'.live → l'.level ≤ r.lo

theorem Ok.rewound (h : l.Ok bottom) (hm : m ∈ l.marks) : Rewound l m (l.rewind m) where
  live := fun _ => mem_rewind
  snapshot := by
    intro r hr
    obtain ⟨hlive, hold⟩ := mem_rewind.1 hr
    exact ((h.marks m hm).older r hlive hold).2
  kept := fun _ hr hne => mem_rewind.2 (h.older_of_le hm hm (le_refl _) hr hne)
  below := fun r hr => ((h.rewind hm).within r hr).2.2
  above := by
    intro r hr hgone
    refine (h.marks m hm).younger r hr fun hold => ?_
    exact hgone (mem_rewind.2 ⟨hr, hold⟩)

end Ledger

end Regions
