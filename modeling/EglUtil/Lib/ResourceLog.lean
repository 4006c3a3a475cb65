import Mathlib.Data.List.Count
import Mathlib.Order.BooleanAlgebra.Set
import EglUtil.Lib.Ownership

/-!
# Resources that are acquired and released

A log records acquisitions and releases, newest first. A resource is out when the last entry about
it is an acquisition. An environment hands out only what is not out; the program may release
whatever it likes, and a log is `Clean` if it never released what was not out. A resource name may
be used again once it has been released.

* `Log.Clean.balanced`: in a clean log a resource was acquired as often as it was released, and once
  more if it is out;
* `Exchanges` describes a stretch of the log by the resources that are held before it and those
  that are held after it; such stretches compose (`Exchanges.trans`);
* `Triple` is the same for a program, with one rule for each way to build one;
* `Accounted` says that what is out is what the places of a system hold, each resource once. A
  program that exchanges what one place holds keeps the account.
-/

namespace ResourceLog

variable {κ : Type}

inductive Entry (κ : Type) where
  | acquired (k : κ)
  | released (k : κ)
deriving Repr, DecidableEq

/-- Newest first. -/
abbrev Log (κ : Type) := List (Entry κ)

namespace Log

variable [DecidableEq κ]

def out : Log κ → κ → Bool
  | [], _ => false
  | .acquired k' :: log, k => k' = k || out log k
  | .released k' :: log, k => k' ≠ k && out log k

/-- Nothing is acquired while it is out, and nothing else is released. -/
def Clean : Log κ → Prop
  | [] => True
  | .acquired k :: log => out log k = false ∧ Clean log
  | .released k :: log => out log k = true ∧ Clean log

end Log

/-- A program that keeps a log, and may be stuck. -/
abbrev Program (κ : Type) := StateT (Log κ) Option

/-- The environment hands out `k`. -/
def acquire [DecidableEq κ] (k : κ) : Program κ Unit := fun log =>
  if log.out k then none else some ((), .acquired k :: log)

def release (k : κ) : Program κ Unit := fun log => some ((), .released k :: log)

variable [DecidableEq κ] {log log' log'' : Log κ} {k : κ} {given left held : Set κ}

theorem out_acquired {k' : κ} :
    Log.out (.acquired k' :: log) k = true ↔ k' = k ∨ log.out k = true := by
  simp [Log.out]

theorem out_released {k' : κ} :
    Log.out (.released k' :: log) k = true ↔ k' ≠ k ∧ log.out k = true := by
  simp [Log.out]

/-- **Every acquisition is released once**, except for what is out. -/
theorem Log.Clean.balanced (h : log.Clean) (k : κ) :
    log.count (.acquired k) = log.count (.released k) + (log.out k).toNat := by
  induction log with
  | nil => rfl
  | cons e log ih =>
    cases e with
    | acquired k' =>
      obtain ⟨hout, hclean⟩ := h
      have hrest := ih hclean
      by_cases hk : k' = k
      · subst hk
        simp only [hout, Bool.toNat_false] at hrest
        simp [Log.out, hrest]
      · simp [Log.out, hk, hrest]
    | released k' =>
      obtain ⟨hout, hclean⟩ := h
      have hrest := ih hclean
      by_cases hk : k' = k
      · subst hk
        simp only [hout, Bool.toNat_true] at hrest
        simp [Log.out, hrest]
      · simp [Log.out, hk, hrest]

/-! ## Stretches of the log -/

/-- From `log` to `log'`, what was held was `given` before and is `left` after, and nothing else
has changed. -/
structure Exchanges (log log' : Log κ) (given left : Set κ) : Prop where
  clean : log.Clean → log'.Clean
  out : ∀ k, log'.out k = true ↔ (log.out k = true ∧ k ∉ given) ∨ k ∈ left
  fresh : ∀ k ∈ left, k ∈ given ∨ log.out k = false

theorem Exchanges.refl (h : ∀ k ∈ given, log.out k = true) : Exchanges log log given given where
  clean := id
  out := by
    intro k
    constructor
    · intro hout
      by_cases hk : k ∈ given
      · exact .inr hk
      · exact .inl ⟨hout, hk⟩
    · intro hk
      rcases hk with ⟨hout, -⟩ | hk
      · exact hout
      · exact h k hk
  fresh := fun _ hk => .inl hk

theorem Exchanges.trans (h : Exchanges log log' given held)
    (h' : Exchanges log' log'' held left) : Exchanges log log'' given left where
  clean := fun hclean => h'.clean (h.clean hclean)
  out := by
    intro k
    rw [h'.out k, h.out k]
    constructor
    · intro hk
      rcases hk with ⟨hk | hk, hne⟩ | hk
      · exact .inl hk
      · exact absurd hk hne
      · exact .inr hk
    · intro hk
      rcases hk with ⟨hout, hne⟩ | hk
      · refine .inl ⟨.inl ⟨hout, hne⟩, fun hheld => ?_⟩
        rcases h.fresh k hheld with hgiven | hnot
        · exact hne hgiven
        · rw [hout] at hnot
          cases hnot
      · exact .inr hk
  fresh := by
    intro k hk
    rcases h'.fresh k hk with hheld | hnot
    · exact h.fresh k hheld
    · by_cases hgiven : k ∈ given
      · exact .inl hgiven
      · refine .inr ?_
        rw [← Bool.not_eq_true] at hnot ⊢
        exact fun hout => hnot ((h.out k).2 (.inl ⟨hout, hgiven⟩))

theorem exchanges_acquired (hgiven : ∀ j ∈ given, log.out j = true) (h : log.out k = false) :
    Exchanges log (.acquired k :: log) given (insert k given) where
  clean := fun hclean => ⟨h, hclean⟩
  out := by
    intro j
    rw [out_acquired, Set.mem_insert_iff, (Exchanges.refl hgiven).out j]
    tauto
  fresh := by
    intro j hj
    rcases Set.mem_insert_iff.1 hj with rfl | hj
    · exact .inr h
    · exact .inl hj

theorem exchanges_released (hgiven : ∀ j ∈ given, log.out j = true) (h : k ∈ given) :
    Exchanges log (.released k :: log) given (given \ {k}) where
  clean := fun hclean => ⟨hgiven k h, hclean⟩
  out := by
    intro j
    rw [out_released, Set.mem_sdiff, Set.mem_singleton_iff]
    constructor
    · intro hj
      obtain ⟨hne, hout⟩ := hj
      exact (((Exchanges.refl hgiven).out j).1 hout).imp_right fun hj => ⟨hj, Ne.symm hne⟩
    · intro hj
      rcases hj with ⟨hout, hj⟩ | ⟨hj, hne⟩
      · exact ⟨fun hk => hj (hk ▸ h), hout⟩
      · exact ⟨Ne.symm hne, hgiven j hj⟩
  fresh := fun _ hj => .inl hj.1

/-! ## Programs -/

section Programs

variable {α β : Type} {p : Program κ α} {q : α → Program κ β}

/-- Whatever `p` returns, it was given `given` and leaves what `left` says. -/
def Triple (given : Set κ) (p : Program κ α) (left : α → Set κ) : Prop :=
  ∀ log a log', (∀ k ∈ given, log.out k = true) → p log = some (a, log') →
    Exchanges log log' given (left a)

theorem Triple.pure {a : α} {left : α → Set κ} (h : given = left a) :
    Triple given (pure a) left := by
  intro log a' log' hgiven hrun
  cases hrun
  rw [← h]
  exact .refl hgiven

theorem Triple.failure (left : α → Set κ) : Triple given failure left := by
  intro log a log' _ hrun
  cases hrun

theorem Triple.bind {left : β → Set κ} {mid : α → Set κ} (hp : Triple given p mid)
    (hq : ∀ a, Triple (mid a) (q a) left) : Triple given (p >>= q) left := by
  intro log b log'' hgiven hrun
  obtain ⟨⟨a, log'⟩, hmid, hrest⟩ := Option.bind_eq_some_iff.1 hrun
  have hfirst := hp log a log' hgiven hmid
  exact hfirst.trans (hq a log' b log'' (fun k hk => (hfirst.out k).2 (.inr hk)) hrest)

theorem triple_acquire (k : κ) : Triple given (acquire k) fun _ => insert k given := by
  intro log a log' hgiven hrun
  unfold acquire at hrun
  split_ifs at hrun with hout
  cases hrun
  exact exchanges_acquired hgiven (Bool.not_eq_true _ ▸ hout)

theorem triple_release (h : k ∈ given) : Triple given (release k) fun _ => given \ {k} := by
  intro log a log' hgiven hrun
  cases hrun
  exact exchanges_released hgiven h

/-- What is given back right after it was handed out makes no difference. -/
theorem triple_wasted (hk : k ∉ given) {p : Program κ α} {left : α → Set κ}
    (hp : Triple given p left) :
    Triple (insert k given) (release k >>= fun _ => p) left := by
  refine Triple.bind (triple_release (Set.mem_insert k given)) fun _ => ?_
  rw [Set.insert_sdiff_self_of_notMem hk]
  exact hp

/-- What `p` returns, if it returns, satisfies `post`, whatever the log. -/
def Returns (p : Program κ α) (post : α → Prop) : Prop :=
  ∀ log a log', p log = some (a, log') → post a

omit [DecidableEq κ] in
theorem Returns.pure {a : α} {post : α → Prop} (h : post a) :
    Returns (Pure.pure a : Program κ α) post := by
  intro log a' log' hrun
  cases hrun
  exact h

omit [DecidableEq κ] in
theorem Returns.failure (post : α → Prop) : Returns (failure : Program κ α) post := by
  intro log a log' hrun
  cases hrun

omit [DecidableEq κ] in
theorem Returns.bind {post : β → Prop} (h : ∀ a, Returns (q a) post) : Returns (p >>= q) post := by
  intro log b log'' hrun
  obtain ⟨⟨a, log'⟩, -, hrest⟩ := Option.bind_eq_some_iff.1 hrun
  exact h a log' b log'' hrest

end Programs

/-! ## Places -/

/-- What a place holds, as a set. -/
def token (o : Option κ) : Set κ := {k | o = some k}

omit [DecidableEq κ] in
@[simp] theorem token_none : token (none : Option κ) = ∅ := Set.eq_empty_of_forall_notMem nofun

omit [DecidableEq κ] in
@[simp] theorem token_some (k : κ) : token (some k) = {k} := by
  ext j
  rw [token, Set.mem_ofPred_eq, Option.some.injEq, Set.mem_singleton_iff, eq_comm]

open Ownership

variable {ι : Type*} {m : ι → Option κ} {i j : ι} {o : Option κ}

/-- What is out is what the places hold, each resource once. -/
structure Accounted (log : Log κ) (m : ι → Option κ) : Prop where
  clean : log.Clean
  exclusive : Exclusive m
  out_iff : ∀ k, log.out k = true ↔ Held m k

theorem accounted_nil : Accounted ([] : Log κ) fun _ : ι => none where
  clean := trivial
  exclusive := nofun
  out_iff := by
    intro k
    exact iff_of_false nofun fun ⟨_, hi⟩ => nomatch hi

variable [DecidableEq ι]

/-- The place `i` exchanges what it holds. -/
theorem Accounted.exchange (h : Accounted log m)
    (hpart : Exchanges log log' (token (m i)) (token o)) :
    Accounted log' (Function.update m i o) where
  clean := hpart.clean h.clean
  exclusive := by
    cases ho : o with
    | none => exact h.exclusive.drop
    | some k =>
      rcases hpart.fresh k ho with hsame | hnot
      · rw [← show m i = some k from hsame, Function.update_eq_self]
        exact h.exclusive
      · refine h.exclusive.grant fun hheld => ?_
        rw [(h.out_iff k).2 hheld] at hnot
        cases hnot
  out_iff := by
    intro k
    rw [hpart.out k, h.out_iff k, h.exclusive.held_update_iff, or_comm]
    rfl

/-- A program runs on behalf of the place `i`. -/
theorem Accounted.run (h : Accounted log m) {α : Type} {p : Program κ α} (left : α → Option κ)
    (hp : Triple (token (m i)) p fun a => token (left a)) {a : α}
    (hrun : p log = some (a, log')) : Accounted log' (Function.update m i (left a)) := by
  refine h.exchange (hp log a log' ?_ hrun)
  intro k hk
  exact (h.out_iff k).2 ⟨i, hk⟩

/-- What the place `i` holds is handed over to `j`, which holds nothing. -/
theorem Accounted.move (h : Accounted log m) (hj : m j = none) :
    Accounted log (Function.update (Function.update m i none) j (m i)) where
  clean := h.clean
  exclusive := h.exclusive.move
  out_iff := by
    intro k
    rw [h.out_iff k, held_move_iff hj]

/-- The place `i` gives up what it holds and takes over what `j` holds. -/
theorem Accounted.replace (h : Accounted log m) (hij : i ≠ j) {α : Type} {p : Program κ α}
    (hp : Triple (token (m i)) p fun _ => token none) {a : α} (hrun : p log = some (a, log')) :
    Accounted log' (Function.update (Function.update m j none) i (m j)) := by
  have hmove := (h.run (fun _ => none) hp hrun).move (i := j) (Function.update_self i _ m)
  rw [Function.update_of_ne hij.symm, Function.update_comm hij, Function.update_idem] at hmove
  exact hmove

end ResourceLog
