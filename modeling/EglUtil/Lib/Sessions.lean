import EglUtil.Lib.ResourceLog

/-!
# Which time a resource was handed out

An environment uses the name of a resource again once it has got the resource back. A session is a
name together with how often it had been handed out by then, so it tells the uses of a name apart.

* `Spares` describes a program that only adds to the log and does not acquire again what was out
  and not its own. There is one rule for each way to build a program;
* `Accounted.sessions_run`: a program that runs on behalf of one place leaves the sessions that the
  other places hold as they are;
* `Log.over_mono`: a session that is over is over for ever.
-/

namespace ResourceLog

variable {κ α β : Type} [DecidableEq κ] {log log' : Log κ} {k : κ} {given : Set κ}

/-! ## Sessions -/

/-- The session of `k` that began last. -/
def Log.current (log : Log κ) (k : κ) : κ × Nat := (k, log.count (.acquired k))

/-- It has begun, and its resource was given back. -/
def Log.Over (log : Log κ) (d : κ × Nat) : Prop :=
  d.2 < log.count (.acquired d.1) ∨ d.2 = log.count (.acquired d.1) ∧ log.out d.1 = false

instance (log : Log κ) (d : κ × Nat) : Decidable (log.Over d) := by
  unfold Log.Over
  infer_instance

theorem Log.not_over_current (h : log.out k = true) : ¬ log.Over (log.current k) := by
  rintro (hlt | ⟨-, hout⟩)
  · exact absurd hlt (Nat.lt_irrefl _)
  · rw [Log.current, h] at hout
    cases hout

/-- What is handed out anew is counted. -/
theorem Log.out_of_count_eq (h : log <:+ log')
    (hcount : log'.count (.acquired k) = log.count (.acquired k)) (hout : log'.out k = true) :
    log.out k = true := by
  obtain ⟨entries, rfl⟩ := h
  induction entries with
  | nil => exact hout
  | cons entry entries ih =>
    have hle : log.count (.acquired k) ≤ (entries ++ log).count (.acquired k) :=
      (List.suffix_append entries log).sublist.count_le _
    cases entry with
    | acquired k' =>
      rw [List.cons_append, List.count_cons] at hcount
      by_cases hk : k' = k
      · subst hk
        simp at hcount
        omega
      · have hentry : ((Entry.acquired k' : Entry κ) == .acquired k) = false := by simp [hk]
        rw [hentry] at hcount
        rcases out_acquired.1 hout with heq | hrest
        · exact absurd heq hk
        · exact ih (by simpa using hcount) hrest
    | released k' =>
      rw [List.cons_append, List.count_cons] at hcount
      exact ih (by simpa using hcount) (out_released.1 hout).2

/-- **A session that is over stays over.** -/
theorem Log.over_mono (h : log <:+ log') {d : κ × Nat} (hover : log.Over d) : log'.Over d := by
  have hle : log.count (.acquired d.1) ≤ log'.count (.acquired d.1) := h.sublist.count_le _
  rcases hover with hlt | ⟨heq, hout⟩
  · exact .inl (by omega)
  · rcases Nat.lt_or_eq_of_le hle with hlt | hsame
    · exact .inl (by omega)
    · refine .inr ⟨heq.trans hsame, ?_⟩
      rw [← Bool.not_eq_true] at hout ⊢
      exact fun hout' => hout (Log.out_of_count_eq h hsame.symm hout')

/-! ## Programs -/

/-- `p` only adds to the log, and does not acquire what was out and not `given`. -/
def Spares (given : Set κ) (p : Program κ α) : Prop :=
  ∀ log a log', (∀ k ∈ given, log.out k = true) → p log = some (a, log') →
    log <:+ log' ∧ ∀ k, log.out k = true → k ∉ given →
      log'.count (.acquired k) = log.count (.acquired k)

theorem Spares.pure (a : α) : Spares given (Pure.pure a : Program κ α) := by
  intro log a' log' _ hrun
  cases hrun
  exact ⟨List.suffix_refl log, fun _ _ _ => rfl⟩

theorem Spares.failure : Spares given (failure : Program κ α) := by
  intro log a log' _ hrun
  cases hrun

theorem spares_acquire : Spares given (acquire k) := by
  intro log a log' _ hrun
  unfold acquire at hrun
  split_ifs at hrun with hnew
  cases hrun
  refine ⟨List.suffix_cons _ log, fun j hout _ => ?_⟩
  have hne : k ≠ j := by
    rintro rfl
    exact hnew hout
  simp [hne]

theorem spares_release : Spares given (release k) := by
  intro log a log' _ hrun
  cases hrun
  exact ⟨List.suffix_cons _ log, fun j _ _ => by simp⟩

theorem Spares.bind {p : Program κ α} {q : α → Program κ β} {mid : α → Set κ}
    (hp : Triple given p mid) (hs : Spares given p) (hq : ∀ a, Spares (mid a) (q a)) :
    Spares given (p >>= q) := by
  intro log b log'' hgiven hrun
  obtain ⟨⟨a, log'⟩, hmid, hrest⟩ := Option.bind_eq_some_iff.1 hrun
  have hfirst := hp log a log' hgiven hmid
  obtain ⟨hgrows, hsame⟩ := hs log a log' hgiven hmid
  obtain ⟨hgrows', hsame'⟩ :=
    hq a log' b log'' (fun k hk => (hfirst.out k).2 (.inr hk)) hrest
  refine ⟨hgrows.trans hgrows', fun k hout hk => ?_⟩
  rw [hsame' k ((hfirst.out k).2 (.inl ⟨hout, hk⟩)) ?_, hsame k hout hk]
  -- What `p` leaves was given to it, or was not out.
  intro hleft
  rcases hfirst.fresh k hleft with hgiven | hin
  · exact hk hgiven
  · rw [hout] at hin
    cases hin

theorem spares_wasted (hk : k ∉ given) {p : Program κ α} (hp : Spares given p) :
    Spares (insert k given) (release k >>= fun _ => p) := by
  refine .bind (triple_release (Set.mem_insert k given)) spares_release fun _ => ?_
  rw [Set.insert_sdiff_self_of_notMem hk]
  exact hp

/-! ## Places -/

section Places

variable {ι : Type*} {m : ι → Option κ} {i j : ι} {o : Option κ}

/-- The session that each place holds. -/
def sessions (log : Log κ) (m : ι → Option κ) : ι → Option (κ × Nat) :=
  fun i => (m i).map log.current

theorem sessions_eq_some {d : κ × Nat} :
    sessions log m i = some d ↔ m i = some d.1 ∧ d = log.current d.1 := by
  unfold sessions
  rw [Option.map_eq_some_iff]
  constructor
  · rintro ⟨k, hk, rfl⟩
    exact ⟨hk, rfl⟩
  · rintro ⟨hk, hd⟩
    exact ⟨d.1, hk, hd.symm⟩

/-- No two places hold the same. -/
theorem exclusive_sessions (h : Ownership.Exclusive m) :
    Ownership.Exclusive (sessions log m) :=
  fun i j d hi hj => h i j d.1 (sessions_eq_some.1 hi).1 (sessions_eq_some.1 hj).1

variable [DecidableEq ι]

/-- **The other places keep their sessions.** -/
theorem Accounted.sessions_run (h : Accounted log m) {p : Program κ α}
    (hp : Spares (token (m i)) p) {a : α} (hrun : p log = some (a, log')) :
    sessions log' (Function.update m i o) =
      Function.update (sessions log m) i (o.map log'.current) := by
  have hgiven : ∀ k ∈ token (m i), log.out k = true := fun k hk => (h.out_iff k).2 ⟨i, hk⟩
  obtain ⟨-, hsame⟩ := hp log a log' hgiven hrun
  funext j
  by_cases hj : j = i
  · subst hj
    rw [sessions, Function.update_self, Function.update_self]
  · rw [sessions, Function.update_of_ne hj, Function.update_of_ne hj, sessions]
    refine Option.map_congr fun k hk => ?_
    have hother : k ∉ token (m i) := fun hi => hj (h.exclusive j i k hk hi)
    rw [Log.current, Log.current, hsame k ((h.out_iff k).2 ⟨j, hk⟩) hother]

theorem sessions_move :
    sessions log (Function.update (Function.update m i none) j (m i)) =
      Function.update (Function.update (sessions log m) i none) j (sessions log m i) := by
  funext x
  unfold sessions
  by_cases hxj : x = j
  · subst hxj
    simp
  · by_cases hxi : x = i
    · subst hxi
      simp [hxj]
    · simp [hxj, hxi]

/-- The place `i` gives up what it holds and takes over what `j` holds. -/
theorem Accounted.sessions_replace (h : Accounted log m) (hij : i ≠ j) {p : Program κ α}
    (hp : Spares (token (m i)) p) {a : α} (hrun : p log = some (a, log')) :
    sessions log' (Function.update (Function.update m j none) i (m j)) =
      Function.update (Function.update (sessions log m) j none) i (sessions log m j) := by
  have hrest := h.sessions_run (o := none) hp hrun
  have hidem : ∀ {γ : Type _} (f : ι → γ) (a b c : γ),
      Function.update (Function.update (Function.update f i a) j b) i c =
        Function.update (Function.update f j b) i c := by
    intro γ f a b c
    rw [Function.update_comm hij, Function.update_idem]
  have hmove := @sessions_move _ _ log' _ (Function.update m i none) j i _
  rw [hrest, Function.update_of_ne hij.symm, Function.update_of_ne hij.symm, hidem, hidem] at hmove
  exact hmove

end Places

end ResourceLog
