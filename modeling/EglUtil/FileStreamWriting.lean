import EglUtil.FileStream
import EglUtil.Lib.Runs
import EglUtil.Lib.Updates
import Mathlib.Algebra.GroupWithZero.Nat

/-!
# `FileStream`: what reaches the operating system

Any number of stream objects are constructed, opened, moved, written, flushed, closed and
destroyed in any order. For each descriptor `sent` collects the bytes the system accepted and
`written` the spans passed to `write`, since it was opened.

**Theorem (`write_transparent`).** If the system reports no error, and does not interrupt every
call from some point on, then every `write` and `flush` returns true, and at every point the
bytes sent and the bytes buffered make up the bytes written.

**Theorem (`sent_sublist_of_run`).** Whatever the system answers, the bytes sent are a
subsequence of the bytes written, in every run in which no flush of a buffer fails after part of
that buffer was accepted. (`resends` is a run in which one does, and a byte goes out twice.)

Both are the same invariant, `Inv R`, with `R` equality and with `R` the sublist relation.
-/

namespace EglUtil

open Transition Updates

namespace FileStream

structure World (ι : Type*) where
  object : ι → Option FileStream
  /-- The descriptors the system has open. -/
  isOpen : Nat → Bool
  script : List Response
  sent : Nat → List UInt8
  written : Nat → List UInt8
  /-- A call is waiting for the system. -/
  blocked : Bool

def World.initial (ι : Type*) (script : List Response) : World ι :=
  ⟨fun _ => none, fun _ => false, script, fun _ => [], fun _ => [], false⟩

inductive Op (ι : Type*) where
  | construct (i : ι)
  | open (i : ι) (answer : Except Nat Nat) (mode : FileMode) (bufferSize : Nat)
  /-- `FileStream i{std::move(j)}` -/
  | moveConstruct (i j : ι)
  /-- `i = std::move(j)` -/
  | moveAssign (i j : ι) (answer : CloseResponse)
  | destroy (i : ι) (answer : CloseResponse)
  | write (i : ι) (src : List UInt8)
  | flush (i : ι)
  | close (i : ι) (answer : CloseResponse)

/-- Append to the entry of a descriptor, if there is one. -/
def appendAt (f : Nat → List UInt8) (handle : Option Nat) (bytes : List UInt8) :
    Nat → List UInt8 :=
  match handle with
  | none => f
  | some h => Function.update f h (f h ++ bytes)

section Steps

variable {ι : Type*} [DecidableEq ι]

/-- The world after the call `c` of object `i`, which was in state `st`. -/
def World.after (w : World ι) (i : ι) (st : FileStream) (src : List UInt8) (c : Call) :
    World ι where
  object := Function.update w.object i (some c.stream)
  isOpen := w.isOpen
  script := c.script
  sent := appendAt w.sent st.handle c.accepted
  written := appendAt w.written st.handle src
  blocked := decide (c.reply = .blocked)

/-- The same for `close`, which also gives the descriptor back. -/
def World.afterClose (w : World ι) (i : ι) (st : FileStream) (c : Call) : World ι :=
  let w' := w.after i st [] c
  match st.handle with
  | none => w'
  | some h => if w'.blocked then w' else { w' with isOpen := Function.update w.isOpen h false }

def World.set (w : World ι) (i : ι) (o : Option FileStream) : World ι :=
  { w with object := Function.update w.object i o }

/-- One operation, and what it returns to its caller. An operation on an object that does not
exist (or does already, where it must not) changes nothing. -/
def World.perform (w : World ι) : Op ι → Option Reply × World ι
  | .construct i =>
    match w.object i with
    | none => (none, w.set i (some closedStream))
    | some _ => (none, w)
  | .open i answer mode bufferSize =>
    match w.object i, answer with
    | none, .error err => (none, w.set i (some (opened (.error err) mode bufferSize)))
    | none, .ok h =>
      if w.isOpen h then (none, w)
      else
        (none, { w.set i (some (opened (.ok h) mode bufferSize)) with
          isOpen := Function.update w.isOpen h true
          sent := Function.update w.sent h []
          written := Function.update w.written h [] })
    | some _, _ => (none, w)
  | .moveConstruct i j =>
    match w.object i, w.object j with
    | none, some other => (none, (w.set i (some other)).set j (some other.movedFrom))
    | _, _ => (none, w)
  | .moveAssign i j answer =>
    if i = j then (none, w)
    else
      match w.object i, w.object j with
      | some st, some other =>
        let w' := w.afterClose i st (close answer st w.script)
        (none, if w'.blocked then w' else (w'.set i (some other)).set j (some other.movedFrom))
      | _, _ => (none, w)
  | .destroy i answer =>
    match w.object i with
    | none => (none, w)
    | some st =>
      let w' := w.afterClose i st (close answer st w.script)
      (none, if w'.blocked then w' else w'.set i none)
  | .write i src =>
    match w.object i with
    | none => (none, w)
    | some st =>
      let c := write src st w.script
      (some c.reply, w.after i st (if st.mode = .read then [] else src) c)
  | .flush i =>
    match w.object i with
    | none => (none, w)
    | some st =>
      let c := flush st w.script
      (some c.reply, w.after i st [] c)
  | .close i answer =>
    match w.object i with
    | none => (none, w)
    | some st =>
      let c := close answer st w.script
      (some c.reply, w.afterClose i st c)

/-- The next operation starts when the last one has returned. -/
def World.step (w : World ι) (op : Op ι) : Option (World ι) :=
  if w.blocked then none else some (w.perform op).2

/-! ## What an operation can do -/

/-- The operations, one constructor for each way they can go, with what held before. -/
inductive Performs (w : World ι) : Op ι → World ι → Prop where
  | nothing (op : Op ι) : Performs w op w
  | constructed (i : ι) : Performs w (.construct i) (w.set i (some closedStream))
  | openFailed (i : ι) (err : Nat) (mode : FileMode) (bufferSize : Nat) :
      Performs w (.open i (.error err) mode bufferSize)
        (w.set i (some (opened (.error err) mode bufferSize)))
  | opened {h : Nat} (i : ι) (mode : FileMode) (bufferSize : Nat) (hfree : w.isOpen h = false) :
      Performs w (.open i (.ok h) mode bufferSize)
        { w.set i (some (opened (.ok h) mode bufferSize)) with
          isOpen := Function.update w.isOpen h true
          sent := Function.update w.sent h []
          written := Function.update w.written h [] }
  | moved {i j : ι} {other : FileStream} (hj : w.object j = some other) :
      Performs w (.moveConstruct i j) ((w.set i (some other)).set j (some other.movedFrom))
  | moveAssigned {i j : ι} {st other : FileStream} (answer : CloseResponse) (hij : i ≠ j)
      (hi : w.object i = some st) (hj : w.object j = some other)
      (hrun : (w.afterClose i st (close answer st w.script)).blocked = false) :
      Performs w (.moveAssign i j answer)
        (((w.afterClose i st (close answer st w.script)).set i (some other)).set j
          (some other.movedFrom))
  | moveBlocked {i : ι} {st : FileStream} (j : ι) (answer : CloseResponse)
      (hi : w.object i = some st)
      (hb : (w.afterClose i st (close answer st w.script)).blocked = true) :
      Performs w (.moveAssign i j answer) (w.afterClose i st (close answer st w.script))
  | destroyed {i : ι} {st : FileStream} (answer : CloseResponse) (hi : w.object i = some st)
      (hrun : (w.afterClose i st (close answer st w.script)).blocked = false) :
      Performs w (.destroy i answer) ((w.afterClose i st (close answer st w.script)).set i none)
  | destroyBlocked {i : ι} {st : FileStream} (answer : CloseResponse) (hi : w.object i = some st)
      (hb : (w.afterClose i st (close answer st w.script)).blocked = true) :
      Performs w (.destroy i answer) (w.afterClose i st (close answer st w.script))
  | wrote {i : ι} {st : FileStream} (src : List UInt8) (hi : w.object i = some st) :
      Performs w (.write i src)
        (w.after i st (if st.mode = .read then [] else src) (write src st w.script))
  | flushed {i : ι} {st : FileStream} (hi : w.object i = some st) :
      Performs w (.flush i) (w.after i st [] (flush st w.script))
  | closed {i : ι} {st : FileStream} (answer : CloseResponse) (hi : w.object i = some st) :
      Performs w (.close i answer) (w.afterClose i st (close answer st w.script))

/-- **Inversion.** -/
theorem perform_cases (w : World ι) (op : Op ι) : Performs w op (w.perform op).2 := by
  cases op with
  | construct i =>
    simp only [World.perform]
    split
    · exact .constructed i
    · exact .nothing _
  | «open» i answer mode bufferSize =>
    simp only [World.perform]
    split
    · exact .openFailed i _ mode bufferSize
    · split_ifs with hopen
      · exact .nothing _
      · exact .opened i mode bufferSize (Bool.eq_false_iff.2 hopen)
    · exact .nothing _
  | moveConstruct i j =>
    simp only [World.perform]
    split
    · next hj => exact .moved hj
    · exact .nothing _
  | moveAssign i j answer =>
    simp only [World.perform]
    split_ifs with hij
    · exact .nothing _
    · split
      · next hi hj =>
        dsimp only
        split_ifs with hb
        · exact .moveBlocked j answer hi hb
        · exact .moveAssigned answer hij hi hj (Bool.eq_false_iff.2 hb)
      · exact .nothing _
  | destroy i answer =>
    simp only [World.perform]
    split
    · exact .nothing _
    · next hi =>
      dsimp only
      split_ifs with hb
      · exact .destroyBlocked answer hi hb
      · exact .destroyed answer hi (Bool.eq_false_iff.2 hb)
  | write i src =>
    simp only [World.perform]
    split
    · exact .nothing _
    · next hi => exact .wrote src hi
  | flush i =>
    simp only [World.perform]
    split
    · exact .nothing _
    · next hi => exact .flushed hi
  | close i answer =>
    simp only [World.perform]
    split
    · exact .nothing _
    · next hi => exact .closed answer hi

end Steps

/-! ## The invariant -/

/-- Each descriptor has one owner, and what was sent and is still buffered is related to what was
written. -/
structure Inv {ι : Type*} (R : List UInt8 → List UInt8 → Prop) (w : World ι) : Prop where
  owned : ∀ {i st h}, w.object i = some st → st.handle = some h → w.isOpen h = true
  unique : ∀ {i j st st' h}, w.object i = some st → w.object j = some st' → st.handle = some h →
    st'.handle = some h → i = j
  fits : ∀ {i st}, w.object i = some st → st.pos ≤ st.buffer.length
  held : ∀ {i st h}, w.object i = some st → st.handle = some h →
    R (w.sent h ++ st.unsent) (w.written h)
  shut : ∀ {h}, w.isOpen h = false → R (w.sent h) (w.written h)

@[simp] theorem appendAt_self (f : Nat → List UInt8) (h : Nat) (bytes : List UInt8) :
    appendAt f (some h) bytes h = f h ++ bytes := Function.update_self ..

theorem appendAt_of_ne (f : Nat → List UInt8) {handle : Option Nat} {k : Nat}
    (hne : handle ≠ some k) (bytes : List UInt8) : appendAt f handle bytes k = f k := by
  cases handle with
  | none => rfl
  | some h => exact Function.update_of_ne (fun e => hne (by rw [e])) _ _

theorem inv_initial {ι : Type*} {R : List UInt8 → List UInt8 → Prop} (hR : R [] [])
    (script : List Response) : Inv R (World.initial ι script) where
  owned := nofun
  unique := nofun
  fits := nofun
  held := nofun
  shut := fun _ => hR

variable {ι : Type*} [DecidableEq ι] {R : List UInt8 → List UInt8 → Prop} {w : World ι}

/-- An object without a descriptor may appear anywhere. -/
theorem Inv.set_closed (hI : Inv R w) (i : ι) {o : Option FileStream}
    (ho : ∀ st, o = some st → st.handle = none ∧ st.pos ≤ st.buffer.length) :
    Inv R (w.set i o) := by
  have hold : ∀ {j st h}, (w.set i o).object j = some st → st.handle = some h →
      w.object j = some st := by
    intro j st h hj hh
    rcases update_eq_some hj with ⟨-, hj⟩ | ⟨-, hj⟩
    · rw [(ho st hj).1] at hh
      cases hh
    · exact hj
  refine ⟨fun hj hh => hI.owned (hold hj hh) hh,
    fun hj hk hh hh' => hI.unique (hold hj hh) (hold hk hh') hh hh', fun hj => ?_,
    fun hj hh => hI.held (hold hj hh) hh, hI.shut⟩
  rcases update_eq_some hj with ⟨-, hj⟩ | ⟨-, hj⟩
  · exact (ho _ hj).2
  · exact hI.fits hj

/-- A new descriptor starts with nothing sent and nothing written. -/
theorem Inv.set_opened (hI : Inv R w) (hR : R [] []) (i : ι) {h : Nat} (hfree : w.isOpen h = false)
    (mode : FileMode) (bufferSize : Nat) :
    Inv R { w.set i (some (opened (.ok h) mode bufferSize)) with
      isOpen := Function.update w.isOpen h true
      sent := Function.update w.sent h []
      written := Function.update w.written h [] } := by
  have hother : ∀ {j st k}, w.object j = some st → st.handle = some k → k ≠ h := by
    rintro j st k hj hk rfl
    rw [hI.owned hj hk] at hfree
    cases hfree
  refine ⟨fun hj hk => ?_, fun hj hj' hk hk' => ?_, fun hj => ?_, fun hj hk => ?_, fun hk => ?_⟩
  · rcases update_eq_some hj with ⟨-, hj⟩ | ⟨-, hj⟩
    · cases hj
      cases hk
      exact Function.update_self ..
    · dsimp only
      rw [Function.update_of_ne (hother hj hk)]
      exact hI.owned hj hk
  · rcases update_eq_some hj with ⟨hji, hst⟩ | ⟨-, hold⟩
    · rcases update_eq_some hj' with ⟨hji', -⟩ | ⟨-, hold'⟩
      · exact hji.trans hji'.symm
      · cases hst
        cases hk
        exact absurd rfl (hother hold' hk')
    · rcases update_eq_some hj' with ⟨-, hst'⟩ | ⟨-, hold'⟩
      · cases hst'
        cases hk'
        exact absurd rfl (hother hold hk)
      · exact hI.unique hold hold' hk hk'
  · rcases update_eq_some hj with ⟨-, hj⟩ | ⟨-, hj⟩
    · cases hj
      exact Nat.zero_le _
    · exact hI.fits hj
  · rcases update_eq_some hj with ⟨-, hj⟩ | ⟨-, hj⟩
    · cases hj
      cases hk
      have hnone : (opened (.ok h) mode bufferSize).unsent = [] := by
        simp [unsent, opened, closedStream]
      dsimp only
      rw [Function.update_self, Function.update_self, hnone]
      exact hR
    · dsimp only
      rw [Function.update_of_ne (hother hj hk), Function.update_of_ne (hother hj hk)]
      exact hI.held hj hk
  · rename_i k
    by_cases hkh : k = h
    · subst hkh
      simp at hk
    · dsimp only at hk ⊢
      rw [Function.update_of_ne hkh] at hk
      rw [Function.update_of_ne hkh, Function.update_of_ne hkh]
      exact hI.shut hk

/-- A move hands the descriptor and the buffer from `j` to `i`. -/
theorem Inv.move (hI : Inv R w) {i j : ι} {other : FileStream}
    (hj : w.object j = some other) :
    Inv R ((w.set i (some other)).set j (some other.movedFrom)) := by
  -- a holder in the new world held the same stream before, under the name `j` if it is `i`
  have hold : ∀ {k st h},
      ((w.set i (some other)).set j (some other.movedFrom)).object k = some st →
      st.handle = some h → (k = i ∧ st = other) ∨ (k ≠ i ∧ k ≠ j ∧ w.object k = some st) := by
    intro k st h hk hh
    rcases update_eq_some hk with ⟨-, hk⟩ | ⟨hkj, hk⟩
    · cases hk
      cases hh
    · rcases update_eq_some hk with ⟨hki, hk⟩ | ⟨hki, hk⟩
      · cases hk
        exact .inl ⟨hki, rfl⟩
      · exact .inr ⟨hki, hkj, hk⟩
  refine ⟨fun hk hh => ?_, fun hk hk' hh hh' => ?_, fun hk => ?_, fun hk hh => ?_, hI.shut⟩
  · rcases hold hk hh with ⟨-, rfl⟩ | ⟨-, -, hk⟩
    · exact hI.owned hj hh
    · exact hI.owned hk hh
  · rcases hold hk hh with ⟨hki, hst⟩ | ⟨-, hkj, hk₀⟩
    · rcases hold hk' hh' with ⟨hki', -⟩ | ⟨-, hkj', hk₀'⟩
      · exact hki.trans hki'.symm
      · exact absurd (hI.unique hk₀' hj hh' (hst ▸ hh)) hkj'
    · rcases hold hk' hh' with ⟨-, hst'⟩ | ⟨-, -, hk₀'⟩
      · exact absurd (hI.unique hk₀ hj hh (hst' ▸ hh')) hkj
      · exact hI.unique hk₀ hk₀' hh hh'
  · rcases update_eq_some hk with ⟨-, hk⟩ | ⟨-, hk⟩
    · cases hk
      exact Nat.zero_le _
    · rcases update_eq_some hk with ⟨-, hk⟩ | ⟨-, hk⟩
      · cases hk
        exact hI.fits hj
      · exact hI.fits hk
  · rcases hold hk hh with ⟨-, rfl⟩ | ⟨-, -, hk⟩
    · exact hI.held hj hh
    · exact hI.held hk hh

/-- A call that keeps the descriptor. -/
theorem Inv.after (hI : Inv R w) {i : ι} {st : FileStream} (hi : w.object i = some st)
    {src : List UInt8} {c : Call} (hhandle : c.stream.handle = st.handle)
    (hfit : c.stream.pos ≤ c.stream.buffer.length)
    (hR : ∀ h, st.handle = some h →
      R (w.sent h ++ c.accepted ++ c.stream.unsent) (w.written h ++ src)) :
    Inv R (w.after i st src c) := by
  have hold : ∀ {j st' h}, (w.after i st src c).object j = some st' → st'.handle = some h →
      ∃ st'', w.object j = some st'' ∧ st''.handle = some h := by
    intro j st' h hj hh
    rcases update_eq_some hj with ⟨rfl, hst⟩ | ⟨-, hj₀⟩
    · cases hst
      exact ⟨st, hi, hhandle ▸ hh⟩
    · exact ⟨st', hj₀, hh⟩
  refine ⟨fun hj hh => ?_, fun hj hj' hh hh' => ?_, fun hj => ?_, fun hj hh => ?_, fun hh => ?_⟩
  · obtain ⟨st', hj, hh⟩ := hold hj hh
    exact hI.owned hj hh
  · obtain ⟨_, hj, hh⟩ := hold hj hh
    obtain ⟨_, hj', hh'⟩ := hold hj' hh'
    exact hI.unique hj hj' hh hh'
  · rcases update_eq_some hj with ⟨-, hj⟩ | ⟨-, hj⟩
    · cases hj
      exact hfit
    · exact hI.fits hj
  · rename_i k
    rcases update_eq_some hj with ⟨-, hj⟩ | ⟨hji, hj⟩
    · cases hj
      rw [hhandle] at hh
      simp only [World.after, hh, appendAt_self]
      exact hR k hh
    · have hne : st.handle ≠ some k := fun e => hji (hI.unique hj hi hh e)
      simp only [World.after, appendAt_of_ne _ hne]
      exact hI.held hj hh
  · rename_i k
    have hne : st.handle ≠ some k := by
      intro e
      rw [World.after, hI.owned hi e] at hh
      cases hh
    simp only [World.after, appendAt_of_ne _ hne]
    exact hI.shut hh

theorem afterClose_object (w : World ι) (i : ι) (st : FileStream) (c : Call) :
    (w.afterClose i st c).object = Function.update w.object i (some c.stream) := by
  unfold World.afterClose
  cases st.handle with
  | none => rfl
  | some h =>
    dsimp only
    split_ifs <;> rfl

/-- A `close` that returned gives the descriptor back. -/
theorem Inv.afterClose (hI : Inv R w) {i : ι} {st : FileStream} (hi : w.object i = some st)
    {c : Call} (hblocked : c.reply ≠ .blocked) (hnone : c.stream.handle = none)
    (hpos : c.stream.pos = 0)
    (hR : ∀ h, st.handle = some h → R (w.sent h ++ c.accepted) (w.written h)) :
    Inv R (w.afterClose i st c) := by
  have hfits : ∀ {j st'}, (w.after i st [] c).object j = some st' →
      st'.pos ≤ st'.buffer.length := by
    intro j st' hj
    rcases update_eq_some hj with ⟨-, hst⟩ | ⟨-, hj₀⟩
    · cases hst
      rw [hpos]
      exact Nat.zero_le _
    · exact hI.fits hj₀
  -- the holders of a descriptor are the other objects that held it before
  have hold : ∀ {j st' k}, (w.after i st [] c).object j = some st' → st'.handle = some k →
      w.object j = some st' ∧ st.handle ≠ some k := by
    intro j st' k hj hk
    rcases update_eq_some hj with ⟨-, hst⟩ | ⟨hji, hj₀⟩
    · cases hst
      rw [hnone] at hk
      cases hk
    · exact ⟨hj₀, fun e => hji (hI.unique hj₀ hi hk e)⟩
  unfold World.afterClose
  cases hh : st.handle with
  | none =>
    refine ⟨fun hj hk => ?_, fun hj hj' hk hk' => ?_, hfits, fun hj hk => ?_, fun hk => ?_⟩
    · exact hI.owned (hold hj hk).1 hk
    · exact hI.unique (hold hj hk).1 (hold hj' hk').1 hk hk'
    · simpa [World.after, hh, appendAt] using hI.held (hold hj hk).1 hk
    · simpa [World.after, hh, appendAt] using hI.shut hk
  | some h =>
    have hrun : (w.after i st [] c).blocked = false := by simp [World.after, hblocked]
    dsimp only
    rw [hrun, if_neg Bool.false_ne_true]
    refine ⟨fun hj hk => ?_, fun hj hj' hk hk' => ?_, hfits, fun hj hk => ?_, fun hk => ?_⟩
    · obtain ⟨hj₀, hne⟩ := hold hj hk
      rw [hh] at hne
      dsimp only
      rw [Function.update_of_ne fun e => hne (by rw [e])]
      exact hI.owned hj₀ hk
    · exact hI.unique (hold hj hk).1 (hold hj' hk').1 hk hk'
    · obtain ⟨hj₀, hne⟩ := hold hj hk
      simp only [World.after, appendAt_of_ne _ hne]
      exact hI.held hj₀ hk
    · rename_i k
      by_cases hkh : k = h
      · subst hkh
        simpa [World.after, hh] using hR k hh
      · have hne : st.handle ≠ some k := by
          rw [hh]
          exact fun e => hkh (Option.some.inj e).symm
        dsimp only at hk
        rw [Function.update_of_ne hkh] at hk
        simp only [World.after, appendAt_of_ne _ hne]
        exact hI.shut hk

/-! ## One operation -/

/-- `write` and `flush` leave a stream alone that is closed or not open for writing. -/
theorem write_idle {st : FileStream} (h : st.handle = none ∨ st.mode = .read) (src : List UInt8)
    (script : List Response) :
    (write src st script).stream = st ∧ (write src st script).accepted = [] ∧
      (write src st script).script = script ∧ (write src st script).reply ≠ .blocked := by
  unfold write
  by_cases hn : st.handle = none
  · simp [hn]
  · simp [hn, h.resolve_left hn]

theorem flush_idle {st : FileStream} (h : st.handle = none ∨ st.mode = .read)
    (script : List Response) :
    (flush st script).stream = st ∧ (flush st script).accepted = [] ∧
      (flush st script).script = script ∧ (flush st script).reply ≠ .blocked := by
  unfold flush
  by_cases hn : st.handle = none
  · simp [hn]
  · simp [hn, h.resolve_left hn]

theorem close_idle {st : FileStream} (h : st.handle = none) (answer : CloseResponse)
    (script : List Response) :
    close answer st script = ⟨.returned true, st, [], script⟩ := if_pos h

/-- What the calls of `w` have to do for `Inv R` to survive them. -/
structure CallsKeep (R : List UInt8 → List UInt8 → Prop) (w : World ι) (op : Op ι) : Prop where
  write : ∀ {i st h src}, op = .write i src → w.object i = some st → st.handle = some h →
    st.mode ≠ .read → (write src st w.script).reply ≠ .blocked →
    R (w.sent h ++ (write src st w.script).accepted ++ (write src st w.script).stream.unsent)
      (w.written h ++ src)
  flush : ∀ {i st h}, op = .flush i → w.object i = some st → st.handle = some h →
    st.mode ≠ .read → (flush st w.script).reply ≠ .blocked →
    R (w.sent h ++ (flush st w.script).accepted ++ (flush st w.script).stream.unsent) (w.written h)
  close : ∀ {i st h} (answer : CloseResponse), w.object i = some st → st.handle = some h →
    (close answer st w.script).reply ≠ .blocked →
    R (w.sent h ++ (close answer st w.script).accepted) (w.written h)

theorem Inv.close (hI : Inv R w) {op : Op ι} (hk : CallsKeep R w op) {i : ι} {st : FileStream}
    (answer : CloseResponse) (hi : w.object i = some st)
    (hb : (w.afterClose i st (FileStream.close answer st w.script)).blocked = false) :
    Inv R (w.afterClose i st (FileStream.close answer st w.script)) := by
  cases hh : st.handle with
  | none =>
    rw [close_idle hh, World.afterClose, hh]
    refine hI.after hi rfl (hI.fits hi) fun h e => ?_
    rw [hh] at e
    cases e
  | some h =>
    have hblocked : (FileStream.close answer st w.script).reply ≠ .blocked := by
      intro hr
      simp [World.afterClose, World.after, hh, hr] at hb
    have hopen : st.handle ≠ none := by simp [hh]
    obtain ⟨-, hnone, hpos⟩ :=
      ((close_closes answer w.script hopen (hI.fits hi)).returned.resolve_left hblocked)
    exact hI.afterClose hi hblocked hnone hpos fun k hk' => hk.close answer hi hk' hblocked

theorem Inv.write (hI : Inv R w) {i : ι} {st : FileStream} (src : List UInt8)
    (hk : CallsKeep R w (.write i src)) (hi : w.object i = some st)
    (hblocked : (FileStream.write src st w.script).reply ≠ .blocked) :
    Inv R (w.after i st (if st.mode = .read then [] else src)
      (FileStream.write src st w.script)) := by
  by_cases hidle : st.handle = none ∨ st.mode = .read
  · obtain ⟨hstream, hacc, -, -⟩ := write_idle hidle src w.script
    refine hI.after hi (by rw [hstream]) (by rw [hstream]; exact hI.fits hi) fun h hh => ?_
    have hread : st.mode = .read := hidle.resolve_left (by simp [hh])
    rw [hstream, hacc, if_pos hread, List.append_nil, List.append_nil]
    exact hI.held hi hh
  · push Not at hidle
    have he := write_effect src w.script hidle.1 hidle.2 (hI.fits hi)
    refine hI.after hi he.handle he.fits fun h hh => ?_
    rw [if_neg hidle.2]
    exact hk.write rfl hi hh hidle.2 hblocked

theorem Inv.flush (hI : Inv R w) {i : ι} {st : FileStream} (hk : CallsKeep R w (.flush i))
    (hi : w.object i = some st) (hblocked : (FileStream.flush st w.script).reply ≠ .blocked) :
    Inv R (w.after i st [] (FileStream.flush st w.script)) := by
  by_cases hidle : st.handle = none ∨ st.mode = .read
  · obtain ⟨hstream, hacc, -, -⟩ := flush_idle hidle w.script
    refine hI.after hi (by rw [hstream]) (by rw [hstream]; exact hI.fits hi) fun h hh => ?_
    rw [hstream, hacc, List.append_nil, List.append_nil]
    exact hI.held hi hh
  · push Not at hidle
    have he := flush_effect w.script hidle.1 hidle.2 (hI.fits hi)
    refine hI.after hi he.handle he.fits fun h hh => ?_
    rw [List.append_nil]
    exact hk.flush rfl hi hh hidle.2 hblocked

/-- **One operation keeps the invariant**, if its calls do and it returns. -/
theorem Inv.perform (hI : Inv R w) (hnil : R [] []) {op : Op ι} (hk : CallsKeep R w op)
    (hb : (w.perform op).2.blocked = false) : Inv R (w.perform op).2 := by
  have hperf := perform_cases w op
  generalize (w.perform op).2 = w' at hperf hb
  cases hperf with
  | nothing => exact hI
  | constructed i | openFailed i =>
    refine hI.set_closed i fun st hst => ?_
    cases hst
    exact ⟨rfl, Nat.zero_le _⟩
  | opened i mode bufferSize hfree => exact hI.set_opened hnil i hfree mode bufferSize
  | moved hj => exact hI.move hj
  | moveAssigned answer hij hi hj hrun =>
    refine (hI.close hk answer hi hrun).move ?_
    rw [afterClose_object, Function.update_of_ne (Ne.symm hij)]
    exact hj
  | moveBlocked j answer hi hblocked | destroyBlocked answer hi hblocked =>
    rw [hblocked] at hb
    cases hb
  | @destroyed i _ answer hi hrun => exact (hI.close hk answer hi hrun).set_closed i nofun
  | wrote src hi => exact hI.write src hk hi (by simpa [World.after] using hb)
  | flushed hi => exact hI.flush hk hi (by simpa [World.after] using hb)
  | closed answer hi => exact hI.close hk answer hi hb

/-! ## No byte twice -/

/-- No flush of a buffer, on its way in this operation, fails after part of the buffer was
accepted. (A `close` may: it drops the buffer with the descriptor.) -/
def NotMidway (w : World ι) : Op ι → Prop
  | .write i src => ∀ st, w.object i = some st → st.handle ≠ none → st.mode ≠ .read →
    st.flushesFor src → ¬ FailsMidway w.script st.pos
  | .flush i => ∀ st, w.object i = some st → st.handle ≠ none → st.mode ≠ .read →
    ¬ FailsMidway w.script st.pos
  | _ => True

omit [DecidableEq ι] in
theorem callsKeep_sublist (hI : Inv List.Sublist w) {op : Op ι} (hop : NotMidway w op) :
    CallsKeep List.Sublist w op where
  write := by
    rintro i st h src rfl hi hh hmode hblocked
    have hopen : st.handle ≠ none := by simp [hh]
    have he := write_effect src w.script hopen hmode (hI.fits hi)
    have honce := he.once hblocked fun ⟨hf, hm⟩ => hop st hi hopen hmode hf hm
    have hsent := honce.append_left (w.sent h)
    rw [← List.append_assoc, ← List.append_assoc] at hsent
    exact hsent.trans ((hI.held hi hh).append_right src)
  flush := by
    rintro i st h rfl hi hh hmode hblocked
    have hopen : st.handle ≠ none := by simp [hh]
    have he := flush_effect w.script hopen hmode (hI.fits hi)
    have honce := he.once hblocked (hop st hi hopen hmode)
    rw [List.append_nil] at honce
    have hsent := honce.append_left (w.sent h)
    rw [← List.append_assoc] at hsent
    exact hsent.trans (hI.held hi hh)
  close := by
    intro i st h answer hi hh hblocked
    have hopen : st.handle ≠ none := by simp [hh]
    have hacc := (close_closes answer w.script hopen (hI.fits hi)).accepted
    exact (hacc.sublist.append_left (w.sent h)).trans (hI.held hi hh)

/-- Nothing was sent that was not written before, in order. -/
def SentOnce (w : World ι) : Prop := ∀ h, (w.sent h).Sublist (w.written h)

theorem SentOnce.after (hS : SentOnce w) {i : ι} {st : FileStream} {src : List UInt8} {c : Call}
    (hc : ∀ h, st.handle = some h → (w.sent h ++ c.accepted).Sublist (w.written h ++ src)) :
    SentOnce (w.after i st src c) := by
  intro k
  by_cases hk : st.handle = some k
  · simp only [World.after, hk, appendAt_self]
    exact hc k hk
  · simp only [World.after, appendAt_of_ne _ hk]
    exact hS k

theorem SentOnce.close (hS : SentOnce w) (hI : Inv List.Sublist w) {i : ι} {st : FileStream}
    (answer : CloseResponse) (hi : w.object i = some st) :
    SentOnce (w.afterClose i st (FileStream.close answer st w.script)) := by
  have hafter : SentOnce (w.after i st [] (FileStream.close answer st w.script)) := by
    refine hS.after fun h hh => ?_
    have hacc := (close_closes answer w.script (by simp [hh]) (hI.fits hi)).accepted
    rw [List.append_nil]
    exact (hacc.sublist.append_left (w.sent h)).trans (hI.held hi hh)
  unfold World.afterClose
  split
  · exact hafter
  · dsimp only
    split_ifs <;> exact hafter

/-- Also while an operation waits for the system. -/
theorem SentOnce.perform (hS : SentOnce w) (hI : Inv List.Sublist w) (op : Op ι) :
    SentOnce (w.perform op).2 := by
  -- what a call has sent so far is a leading part of what waited and what came in
  have hcall : ∀ {i st src h} {c : Call}, w.object i = some st → st.handle = some h →
      c.accepted <+: st.unsent ++ src → (w.sent h ++ c.accepted).Sublist (w.written h ++ src) := by
    intro i st src h c hi hh hacc
    have hsent := hacc.sublist.append_left (w.sent h)
    rw [← List.append_assoc] at hsent
    exact hsent.trans ((hI.held hi hh).append_right src)
  have hperf := perform_cases w op
  generalize (w.perform op).2 = w' at hperf
  cases hperf with
  | nothing | constructed | openFailed | moved => exact hS
  | @opened h =>
    intro k
    by_cases hk : k = h
    · subst hk
      simp
    · dsimp only
      rw [Function.update_of_ne hk, Function.update_of_ne hk]
      exact hS k
  | moveAssigned answer _ hi | moveBlocked _ answer hi => exact hS.close hI answer hi
  | destroyed answer hi | destroyBlocked answer hi => exact hS.close hI answer hi
  | @wrote i st src hi =>
    refine hS.after fun h hh => hcall hi hh ?_
    by_cases hmode : st.mode = .read
    · rw [(write_idle (.inr hmode) src w.script).2.1]
      exact List.nil_prefix
    · rw [if_neg hmode]
      exact (write_effect src w.script (by simp [hh]) hmode (hI.fits hi)).accepted
  | @flushed i st hi =>
    refine hS.after fun h hh => hcall hi hh ?_
    by_cases hmode : st.mode = .read
    · rw [(flush_idle (.inr hmode) w.script).2.1]
      exact List.nil_prefix
    · exact (flush_effect w.script (by simp [hh]) hmode (hI.fits hi)).accepted
  | closed answer hi => exact hS.close hI answer hi

/-- **No byte is written twice.** Whatever the system answers, in every run in which no flush of a
buffer fails midway, the bytes accepted on each descriptor are a subsequence of the spans passed
to `write`. -/
theorem sent_sublist_of_run {script : List Response} {ops : List (Op ι)} {w : World ι}
    (hops : Along World.step NotMidway (World.initial ι script) ops)
    (hrun : run World.step (World.initial ι script) ops = some w) (h : Nat) :
    (w.sent h).Sublist (w.written h) := by
  have hinv : SentOnce w ∧ (w.blocked = false → Inv List.Sublist w) := by
    refine run_invariant_along World.step (P := NotMidway)
      (I := fun w => SentOnce w ∧ (w.blocked = false → Inv List.Sublist w)) ?_
      ⟨fun _ => .slnil, fun _ => inv_initial .slnil script⟩ hops hrun
    rintro s op s' ⟨hS, hI⟩ hop hstep
    unfold World.step at hstep
    split_ifs at hstep with hb
    cases hstep
    have hI' := hI (Bool.eq_false_iff.2 hb)
    exact ⟨hS.perform hI' op, fun hb' => hI'.perform .slnil (callsKeep_sublist hI' hop) hb'⟩
  exact hinv.1 h

/-- A buffer of four bytes, of which the system takes one before it fails once. -/
def resendOps : List (Op Unit) :=
  [.open () (.ok 3) .write 4, .write () [97, 98, 99], .flush (), .flush ()]

def resendAnswers : List Response := [.accepted 1, .failed 5, .accepted 3]

/-- The first byte goes out twice. -/
theorem resends :
    ∃ w, run World.step (World.initial Unit resendAnswers) resendOps = some w ∧
      w.sent 3 = [97, 97, 98, 99] ∧ w.written 3 = [97, 98, 99] ∧
      ¬ (w.sent 3).Sublist (w.written 3) := by
  refine ⟨_, rfl, ?_⟩
  decide

/-- A flush that fails at once may be tried again. -/
def retryOps : List (Op Unit) :=
  [.open () (.ok 3) .append 4, .write () [97, 98, 99], .flush (), .flush ()]

def retryAnswers : List Response := [.failed 5, .interrupted, .accepted 2, .accepted 9]

theorem sent_sublist_of_retry :
    ∃ w, run World.step (World.initial Unit retryAnswers) retryOps = some w ∧
      w.sent 3 = [97, 98, 99] ∧ (w.sent 3).Sublist (w.written 3) := by
  have hops : Along World.step NotMidway (World.initial Unit retryAnswers) retryOps := by
    refine ⟨trivial, fun _ h => ?_⟩
    cases h
    refine ⟨fun st hst _ _ hf hm => ?_, fun _ h => ?_⟩
    · exact absurd hm.2.1 (by decide)
    cases h
    refine ⟨fun st hst _ _ hm => ?_, fun _ h => ?_⟩
    · exact absurd hm.2.1 (by decide)
    cases h
    refine ⟨fun st hst _ _ hm => ?_, fun _ h => trivial⟩
    obtain ⟨⟨err, hmem⟩, -⟩ := hm
    simp [World.perform, World.after, World.set, World.initial, opened, closedStream, write, flush,
      flushBuffer, osWriteAll, osWriteAllFrom, store, retryAnswers] at hmem
  exact ⟨_, rfl, rfl, sent_sublist_of_run hops rfl 3⟩

/-! ## Every byte, in order -/

/-- The first `n` answers of a system. -/
def answers (os : Nat → Response) (n : Nat) : List Response := (List.range n).map os

theorem budget_answers_succ (os : Nat → Response) (n : Nat) :
    budget (answers os (n + 1)) =
      budget (answers os n) + if os n = .interrupted then 0 else 1 := by
  simp only [budget, answers, List.range_succ, List.map_append, List.countP_append, List.map_cons,
    List.map_nil, List.countP_singleton]
  split_ifs <;> simp_all

theorem budget_answers_mono (os : Nat → Response) {m n : Nat} (h : m ≤ n) :
    budget (answers os m) ≤ budget (answers os n) := by
  induction h with
  | refl => exact Nat.le_refl _
  | step _ ih =>
    rw [budget_answers_succ]
    omega

/-- A system that does not interrupt for ever answers as often as one waits for. -/
theorem exists_budget_ge {os : Nat → Response} (hfair : ∀ k, ∃ j, k ≤ j ∧ os j ≠ .interrupted)
    (m : Nat) : ∃ N, ∀ n, N ≤ n → m ≤ budget (answers os n) := by
  induction m with
  | zero => exact ⟨0, fun _ _ => Nat.zero_le _⟩
  | succ m ih =>
    obtain ⟨N, hN⟩ := ih
    obtain ⟨j, hj, hne⟩ := hfair N
    refine ⟨j + 1, fun n hn => ?_⟩
    have hmono := budget_answers_mono os hn
    rw [budget_answers_succ, if_neg hne] at hmono
    have := hN j hj
    omega

def Op.bytes : Op ι → Nat
  | .write _ src => src.length
  | _ => 0

/-- The world is able to perform `ops`, each of which needs at most `T` answers. -/
structure Ready (T : Nat) (w : World ι) (ops : List (Op ι)) : Prop where
  inv : Inv Eq w
  running : w.blocked = false
  ok : ∀ err, .failed err ∉ w.script
  enough : ops.length * T ≤ budget w.script
  bounded : ∀ h, (w.written h).length + (ops.map Op.bytes).sum ≤ T

variable {T : Nat} {op : Op ι} {ops : List (Op ι)}

omit [DecidableEq ι] in
theorem Ready.one (hr : Ready T w (op :: ops)) : T ≤ budget w.script := by
  have := hr.enough
  rw [List.length_cons, Nat.add_one_mul] at this
  omega

omit [DecidableEq ι] in
theorem Ready.room (hr : Ready T w (op :: ops)) {i : ι} {st : FileStream} {h : Nat}
    (hi : w.object i = some st) (hh : st.handle = some h) : st.unsent.length + op.bytes ≤ T := by
  have hlen := congrArg List.length (hr.inv.held hi hh)
  have := hr.bounded h
  rw [List.map_cons, List.sum_cons] at this
  rw [List.length_append] at hlen
  omega

omit [DecidableEq ι] in
theorem callsKeep_eq (hr : Ready T w (op :: ops)) : CallsKeep Eq w op where
  write := by
    rintro i st h src rfl hi hh hmode -
    have hopen : st.handle ≠ none := by simp [hh]
    have hroom : st.unsent.length + src.length ≤ budget w.script :=
      Nat.le_trans (hr.room hi hh) hr.one
    have hreply := (write_total src hr.ok hopen hmode hroom (hr.inv.fits hi)).1
    have he := write_effect src w.script hopen hmode (hr.inv.fits hi)
    rw [List.append_assoc, he.success hreply, ← List.append_assoc, hr.inv.held hi hh]
  flush := by
    rintro i st h rfl hi hh hmode -
    have hopen : st.handle ≠ none := by simp [hh]
    have hroom : st.unsent.length ≤ budget w.script :=
      Nat.le_trans (hr.room hi hh) hr.one
    have hreply := (flush_total hr.ok hopen hmode hroom (hr.inv.fits hi)).1
    have he := flush_effect w.script hopen hmode (hr.inv.fits hi)
    rw [List.append_assoc, he.success hreply, List.append_nil, hr.inv.held hi hh]
  close := by
    intro i st h answer hi hh hblocked
    have hopen : st.handle ≠ none := by simp [hh]
    have hroom : st.unsent.length ≤ budget w.script := by
      have := hr.room hi hh
      have := hr.one
      omega
    rw [(close_total st answer hr.ok hopen hroom (hr.inv.fits hi)).2.1, hr.inv.held hi hh]

/-- What an operation uses up. -/
structure Progress (T : Nat) (w w' : World ι) (bytes : Nat) : Prop where
  running : w'.blocked = false
  suffix : w'.script <:+ w.script
  budget : budget w.script ≤ budget w'.script + T
  written : ∀ h, (w'.written h).length ≤ (w.written h).length + bytes

theorem progress_after {i : ι} {st : FileStream} {src : List UInt8} {c : Call}
    (hreply : c.reply ≠ .blocked) (hpays : Pays w.script c) (hT : c.accepted.length ≤ T) :
    Progress T w (w.after i st src c) src.length := by
  refine ⟨by simp [World.after, hreply], hpays.suffix, ?_, fun k => ?_⟩
  · have := hpays.budget
    simp only [World.after]
    omega
  · by_cases hk : st.handle = some k
    · simp [World.after, hk]
    · simp [World.after, appendAt_of_ne _ hk]

omit [DecidableEq ι] in
/-- An operation that calls nothing. -/
theorem progress_same {w' : World ι} {bytes : Nat} (hb : w'.blocked = false)
    (hs : w'.script = w.script) (hw : w'.written = w.written) : Progress T w w' bytes :=
  ⟨hb, hs ▸ List.suffix_rfl, by rw [hs]; exact Nat.le_add_right _ _,
    fun _ => by rw [hw]; exact Nat.le_add_right _ _⟩

theorem progress_close (hr : Ready T w (op :: ops)) {i : ι} {st : FileStream}
    (answer : CloseResponse) (hi : w.object i = some st) :
    Progress T w (w.afterClose i st (close answer st w.script)) 0 := by
  have hafter : Progress T w (w.after i st [] (close answer st w.script)) 0 := by
    rcases hh : st.handle with _ | h
    · rw [close_idle hh]
      exact progress_after nofun ⟨List.suffix_rfl, Nat.le_add_right _ _⟩ (Nat.zero_le _)
    · have hroom := hr.room hi hh
      have hone := hr.one
      obtain ⟨hreply, hacc, hpays⟩ :=
        close_total st answer hr.ok (by simp [hh]) (by omega) (hr.inv.fits hi)
      exact progress_after hreply hpays (by rw [hacc]; omega)
  unfold World.afterClose
  split
  · exact hafter
  · dsimp only
    split_ifs
    · exact hafter
    · exact ⟨hafter.running, hafter.suffix, hafter.budget, hafter.written⟩

theorem progress_write (hr : Ready T w (op :: ops)) {i : ι} {st : FileStream} {src : List UInt8}
    (hop : op = .write i src) (hi : w.object i = some st) :
    Progress T w (w.after i st (if st.mode = .read then [] else src) (write src st w.script))
      src.length := by
  subst hop
  by_cases hidle : st.handle = none ∨ st.mode = .read
  · obtain ⟨-, hacc, hscript, hreply⟩ := write_idle hidle src w.script
    have hp : Progress T w
        (w.after i st (if st.mode = .read then [] else src) (write src st w.script)) _ :=
      progress_after hreply (by constructor <;> simp [hscript]) (by simp [hacc])
    refine ⟨hp.running, hp.suffix, hp.budget, fun h => Nat.le_trans (hp.written h) ?_⟩
    split_ifs <;> simp
  · push Not at hidle
    obtain ⟨h, hh⟩ := Option.ne_none_iff_exists'.1 hidle.1
    have hroom : st.unsent.length + src.length ≤ T := hr.room hi hh
    have hone := hr.one
    obtain ⟨hreply, hpays⟩ := write_total src hr.ok hidle.1 hidle.2 (by omega) (hr.inv.fits hi)
    have hacc := (write_effect src w.script hidle.1 hidle.2 (hr.inv.fits hi)).accepted.length_le
    rw [List.length_append] at hacc
    rw [if_neg hidle.2]
    exact progress_after (by simp [hreply]) hpays (by omega)

theorem progress_flush (hr : Ready T w (op :: ops)) {i : ι} {st : FileStream}
    (hop : op = .flush i) (hi : w.object i = some st) :
    Progress T w (w.after i st [] (flush st w.script)) 0 := by
  subst hop
  by_cases hidle : st.handle = none ∨ st.mode = .read
  · obtain ⟨-, hacc, hscript, hreply⟩ := flush_idle hidle w.script
    exact progress_after hreply (by constructor <;> simp [hscript]) (by simp [hacc])
  · push Not at hidle
    obtain ⟨h, hh⟩ := Option.ne_none_iff_exists'.1 hidle.1
    have hroom : st.unsent.length ≤ T := hr.room hi hh
    have hone := hr.one
    obtain ⟨hreply, hpays⟩ := flush_total hr.ok hidle.1 hidle.2 (by omega) (hr.inv.fits hi)
    have hacc := (flush_effect w.script hidle.1 hidle.2 (hr.inv.fits hi)).accepted.length_le
    rw [List.append_nil] at hacc
    exact progress_after (by simp [hreply]) hpays (by omega)

theorem progress_perform (hr : Ready T w (op :: ops)) :
    Progress T w (w.perform op).2 op.bytes := by
  have hperf := perform_cases w op
  generalize (w.perform op).2 = w' at hperf
  cases hperf with
  | nothing | constructed | openFailed | moved => exact progress_same hr.running rfl rfl
  | @opened h =>
    refine ⟨hr.running, List.suffix_rfl, Nat.le_add_right _ _, fun k => ?_⟩
    by_cases hk : k = h
    · subst hk
      simp
    · dsimp only
      rw [Function.update_of_ne hk]
      exact Nat.le_add_right _ _
  | moveAssigned answer _ hi =>
    have hp := progress_close hr answer hi
    exact ⟨hp.running, hp.suffix, hp.budget, hp.written⟩
  | moveBlocked _ answer hi | destroyBlocked answer hi => exact progress_close hr answer hi
  | destroyed answer hi =>
    have hp := progress_close hr answer hi
    exact ⟨hp.running, hp.suffix, hp.budget, hp.written⟩
  | wrote src hi => exact progress_write hr rfl hi
  | flushed hi => exact progress_flush hr rfl hi
  | closed answer hi => exact progress_close hr answer hi

theorem Ready.perform (hr : Ready T w (op :: ops)) : Ready T (w.perform op).2 ops := by
  have hp := progress_perform hr
  refine ⟨hr.inv.perform rfl (callsKeep_eq hr) hp.running, hp.running, fun err hmem => ?_, ?_,
    fun h => ?_⟩
  · exact hr.ok err (hp.suffix.subset hmem)
  · have := hr.enough
    have := hp.budget
    rw [List.length_cons, Nat.add_one_mul] at *
    omega
  · have := hr.bounded h
    have := hp.written h
    rw [List.map_cons, List.sum_cons] at *
    omega

/-- Whatever the world is ready for, it performs. -/
theorem Ready.run (hr : Ready T w (ops ++ [op])) :
    ∃ w', run World.step w ops = some w' ∧ Ready T w' [op] := by
  induction ops generalizing w with
  | nil => exact ⟨w, rfl, hr⟩
  | cons o ops ih =>
    obtain ⟨w', hrun, hr'⟩ := ih hr.perform
    refine ⟨w', ?_, hr'⟩
    rw [run_cons, World.step, if_neg (by simp [hr.running])]
    exact hrun

/-- The bytes sent and the bytes buffered make up the bytes written, on every open descriptor; a
descriptor that was given back has everything. -/
structure Transparent (w : World ι) : Prop where
  held : ∀ i st h, w.object i = some st → st.handle = some h → st.mode ≠ .read →
    w.sent h ++ st.buffer.take st.pos = w.written h ∧ st.pos ≤ st.buffer.length
  shut : ∀ h, w.isOpen h = false → w.sent h = w.written h

/-- The operation returns, and what it returns. -/
def Returns (w : World ι) (op : Op ι) : Prop :=
  (w.perform op).2.blocked = false ∧
  match op with
  | .write i _ => ∀ st, w.object i = some st → st.handle ≠ none → st.mode ≠ .read →
    (w.perform op).1 = some (.returned true)
  | .flush i => ∀ st h, w.object i = some st → st.handle = some h → st.mode ≠ .read →
    (w.perform op).1 = some (.returned true) ∧ (w.perform op).2.sent h = (w.perform op).2.written h
  | .close i _ => ∀ st h, w.object i = some st → st.handle = some h →
    (w.perform op).1 = some (.returned true) → (w.perform op).2.sent h = (w.perform op).2.written h
  | _ => True

omit [DecidableEq ι] in
theorem Inv.transparent (hI : Inv Eq w) : Transparent w where
  held i st h hi hh hmode := by
    have := hI.held hi hh
    rw [unsent_of_mode hmode] at this
    exact ⟨this, hI.fits hi⟩
  shut h := hI.shut

theorem Ready.returns (hr : Ready T w [op]) : Returns w op := by
  have hnext := hr.perform
  refine ⟨hnext.running, ?_⟩
  have hone := hr.one
  cases op with
  | write i src =>
    intro st hi hopen hmode
    obtain ⟨h, hh⟩ := Option.ne_none_iff_exists'.1 hopen
    have hroom : st.unsent.length + src.length ≤ T := hr.room hi hh
    simp only [World.perform, hi]
    rw [(write_total src hr.ok hopen hmode (by omega) (hr.inv.fits hi)).1]
  | flush i =>
    intro st h hi hh hmode
    have hopen : st.handle ≠ none := by simp [hh]
    have hroom : st.unsent.length ≤ T := hr.room hi hh
    have hreply := (flush_total hr.ok hopen hmode (by omega) (hr.inv.fits hi)).1
    have hhandle := (flush_effect w.script hopen hmode (hr.inv.fits hi)).handle
    -- the stream still holds the descriptor, with an empty buffer
    have hobj : (w.perform (.flush i)).2.object i = some (flush st w.script).stream := by
      simp [World.perform, hi, World.after]
    have hheld := hnext.inv.held hobj (hhandle.trans hh)
    rw [flush_empties hopen hmode hreply, List.append_nil] at hheld
    refine ⟨?_, hheld⟩
    simp only [World.perform, hi, hreply]
  | close i answer =>
    intro st h hi hh _
    refine hnext.inv.shut ?_
    have hrunning := hnext.running
    simp only [World.perform, hi, World.afterClose, hh] at hrunning ⊢
    split_ifs at hrunning ⊢ with hb
    · rw [hb] at hrunning
      cases hrunning
    · simp
  | _ => trivial

/-- **Write buffering is transparent.** The system reports no error and does not interrupt every
call from some point on. Then, after any operations and given enough of its answers, no call is
stuck, the bytes sent and buffered are the bytes written, and so for the next operation. -/
theorem write_transparent {os : Nat → Response} (hok : ∀ k err, os k ≠ .failed err)
    (hfair : ∀ k, ∃ j, k ≤ j ∧ os j ≠ .interrupted) (ops : List (Op ι)) (op : Op ι) :
    ∃ N, ∀ n, N ≤ n → ∃ w, run World.step (World.initial ι (answers os n)) ops = some w ∧
      w.blocked = false ∧ Transparent w ∧ Returns w op := by
  obtain ⟨N, hN⟩ :=
    exists_budget_ge hfair ((ops ++ [op]).length * ((ops ++ [op]).map Op.bytes).sum)
  refine ⟨N, fun n hn => ?_⟩
  have hready : Ready ((ops ++ [op]).map Op.bytes).sum (World.initial ι (answers os n))
      (ops ++ [op]) := by
    refine ⟨inv_initial rfl _, rfl, fun err hmem => ?_, hN n hn, fun h => ?_⟩
    · obtain ⟨k, -, hk⟩ := List.mem_map.1 hmem
      exact hok k err hk
    · simp [World.initial]
  obtain ⟨w, hrun, hr⟩ := hready.run
  exact ⟨w, hrun, hr.running, hr.inv.transparent, hr.returns⟩

/-- Every other call is interrupted, and the others take one byte. -/
def slowSystem (k : Nat) : Response := if k % 2 = 0 then .interrupted else .accepted 1

theorem write_transparent_slowSystem :
    ∃ n w, run World.step (World.initial Bool (answers slowSystem n))
        [.open true (.ok 3) .write 2, .write true [1], .moveConstruct false true] = some w ∧
      Transparent w ∧ (w.perform (.write false [2, 3])).1 = some (.returned true) := by
  have hok : ∀ k err, slowSystem k ≠ .failed err := by
    intro k err
    unfold slowSystem
    split_ifs <;> nofun
  have hfair : ∀ k, ∃ j, k ≤ j ∧ slowSystem j ≠ .interrupted := fun k =>
    ⟨2 * k + 1, by omega, by simp [slowSystem, Nat.add_mod]⟩
  obtain ⟨N, hN⟩ := write_transparent (ι := Bool) hok hfair
    [.open true (.ok 3) .write 2, .write true [1], .moveConstruct false true]
    (.write false [2, 3])
  obtain ⟨w, hrun, -, htrans, hret⟩ := hN N (Nat.le_refl N)
  refine ⟨N, w, hrun, htrans, ?_⟩
  have hw := hrun
  cases hrun
  exact hret.2 _ rfl nofun nofun

theorem osWriteAllFrom_interruptions {src : List UInt8} {written : Nat} (h : written < src.length)
    (n : Nat) :
    osWriteAllFrom src (List.replicate n .interrupted) written = ⟨.blocked, [], []⟩ := by
  induction n with
  | zero => exact osWriteAllFrom_nil h
  | succ n ih => rw [List.replicate_succ, osWriteAllFrom_interrupted _ h, ih]

/-- A system that interrupts every call: a `write` of as many bytes as the buffer holds does not
return, however long one waits. -/
theorem write_interrupted_forever :
    ∃ os : Nat → Response, (∀ k, os k = .interrupted ∨ ∃ n, os k = .accepted n) ∧
      ∀ n, ∃ w, run World.step (World.initial Unit (answers os n)) [.open () (.ok 3) .write 1] =
          some w ∧
        (w.perform (.write () [1])).1 = some .blocked := by
  refine ⟨fun _ => .interrupted, fun _ => .inl rfl, fun n => ⟨_, rfl, ?_⟩⟩
  have hlt : 0 < ([1] : List UInt8).length := by decide
  have hblocked := osWriteAllFrom_interruptions hlt n
  simp [World.perform, World.initial, World.set, opened, closedStream, write, flushBuffer,
    Call.andThen, writeThrough, osWriteAll, answers, hblocked]

end FileStream

end EglUtil
