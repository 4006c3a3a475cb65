import EglUtil.FileStreamReading
import EglUtil.Lib.Runs
import Mathlib.Data.Nat.Nth

/-!
# `FileStream`: what the readers return

Three laws about any sequence of `read` and `read_line` calls on one stream, all from
`perform_reads`: a call sees only the bytes ahead and the answer behind them.

**Theorem (`read_transparent`).** Reading a file through the stream is reading the plain list of
its bytes, whatever the buffer size and however the system cuts the file into answers. A call
that has not returned waits for a system that keeps interrupting it.

**Theorem (`run_keeps_bytes`).** Nothing the system delivered is lost, as long as no `read_line`
that has bytes ahead without a newline ends in an error, be it one reported now or an earlier one
that `error_` still shows: `read_line` then drops the line it has accumulated.

**Theorem (`earlier_error_iff`).** An earlier error changes what later calls return exactly if
one of them is a `read` that delivers nothing (asked for nothing, or at the end of the file) or
a `read_line` that ends at the end of the file with an unterminated line.
-/

namespace EglUtil

open Transition

namespace FileStream

/-! ## No byte is lost -/

/-- The bytes of the file that a reply accounts for. -/
def ReadReply.consumed : ReadReply → List UInt8
  | .bytes got => got
  | .line text terminator => text ++ terminator
  | .nullopt | .threw _ => []

/-- A stream, its system, and everything the calls have returned. -/
structure Reader where
  stream : FileStream
  system : ReadSystem
  returned : List UInt8

def Reader.opened (handle bufferSize : Nat) (script : List ReadResponse) : Reader :=
  ⟨FileStream.opened (.ok handle) .read bufferSize, ⟨script, [], 0⟩, []⟩

/-- One call, if it returns. -/
def Reader.step (w : Reader) (c : ReadCall) : Option Reader :=
  (c.perform w.stream w.system).map fun r => ⟨r.2.1, r.2.2, w.returned ++ r.1.consumed⟩

/-- The stream is open for reading, with its window inside the buffer. -/
structure Readable (st : FileStream) : Prop where
  opened : st.handle ≠ none
  mode : st.mode = .read
  fits : st.Fits

theorem readable_opened (handle bufferSize : Nat) :
    Readable (opened (.ok handle) .read bufferSize) :=
  ⟨nofun, rfl, Nat.le_refl _, Nat.zero_le _⟩

theorem Readable.follows {st st' : FileStream} {sys sys' : ReadSystem} (h : Readable st)
    (hf : Follows st sys st' sys') : Readable st' :=
  ⟨hf.handle ▸ h.opened, hf.mode.trans h.mode, hf.fits⟩

theorem Readable.stopped {st st' : FileStream} {e : Halt} (h : Readable st)
    (hs : Stopped st e st') : Readable st' :=
  ⟨hs.handle ▸ h.opened, hs.mode.trans h.mode, hs.fits⟩

/-- The call does not drop bytes: a `read_line` finds a newline ahead, or nothing at all, or
comes to a clean end of file. -/
def KeepsBytes (w : Reader) : ReadCall → Prop
  | .read _ => True
  | .readLine => newline ∈ w.stream.ahead w.system.script ∨
      w.stream.ahead w.system.script = [] ∨
      w.stream.error = 0 ∧ ∃ rest, w.stream.halt w.system.script = some (.eof, rest)

/-- Folding `\r\n` gives back the line and its terminator. -/
theorem consumed_foldLine (line : List UInt8) :
    (foldLine line).consumed = line ++ [newline] := by
  unfold foldLine
  split_ifs with hcr
  · have hne : line ≠ [] := by
      rintro rfl
      cases hcr
    have hlast : line.getLast hne = carriageReturn := by
      rw [List.getLast?_eq_some_getLast hne] at hcr
      exact Option.some.inj hcr
    have hline := List.dropLast_append_getLast hne
    rw [hlast] at hline
    conv => rhs; rw [← hline]
    simp only [ReadReply.consumed, List.append_assoc, List.singleton_append]
  · rfl

/-- A call that found enough bytes returns what it consumed. -/
theorem consumed_served {c : ReadCall} {bytes : List UInt8} {k : Nat} (error : Nat)
    (hk : c.demand bytes = some k) :
    (c.served error (bytes.take k)).consumed = bytes.take k := by
  cases c with
  | read want =>
    simp only [ReadCall.served]
    split_ifs with hnil
    · rw [hnil.1]
      rfl
    · rfl
  | readLine =>
    simp only [ReadCall.demand] at hk
    split_ifs at hk with hmem
    cases hk
    have hlt := List.idxOf_lt_length_iff.2 hmem
    simp only [ReadCall.served, consumed_foldLine]
    rw [List.take_succ_eq_append_getElem hlt, List.dropLast_concat, List.getElem_idxOf hlt]

/-- A call that came to an end returns what it consumed, unless it is a `read_line` and the
error field is set. -/
theorem consumed_ended (c : ReadCall) (error : Nat) (bytes : List UInt8) :
    (c.ended error bytes).consumed = bytes ↔ c = .readLine → bytes = [] ∨ error = 0 := by
  cases c with
  | read want =>
    simp only [ReadCall.ended]
    split_ifs with hnil
    · rw [hnil.1]
      simp [ReadReply.consumed]
    · simp [ReadReply.consumed]
  | readLine =>
    simp only [ReadCall.ended]
    split_ifs with herr hnil <;> simp_all [ReadReply.consumed, eq_comm]

/-- Every byte delivered was returned or is still in the buffer. -/
def Reader.Complete (w : Reader) : Prop :=
  w.returned ++ w.stream.unread = w.system.delivered

/-- **One call.** From a state in which no byte is missing, none is missing afterwards exactly if
the call keeps its bytes. -/
theorem complete_step {w w' : Reader} {c : ReadCall} (hr : Readable w.stream) (h : w.Complete)
    (hstep : w.step c = some w') : Readable w'.stream ∧ (w'.Complete ↔ KeepsBytes w c) := by
  obtain ⟨⟨reply, st', sys'⟩, hperform, rfl⟩ := Option.map_eq_some_iff.1 hstep
  have hcases := perform_reads c w.system hr.opened hr.mode hr.fits
  rw [hperform] at hcases
  have hall : w.returned ++ w.stream.ahead w.system.script =
      w.system.delivered ++ (upcoming w.stream.buffer.length w.system.script).1 := by
    rw [ahead, ← List.append_assoc, h]
  unfold Reader.Complete
  cases hcases with
  | @served k _ _ hk hfollows hahead =>
    refine ⟨hr.follows hfollows, iff_of_true ?_ ?_⟩
    · dsimp only
      rw [consumed_served _ hk]
      have hsame : w.returned ++ (w.stream.ahead w.system.script).take k ++ st'.unread ++
          (upcoming st'.buffer.length sys'.script).1 =
          sys'.delivered ++ (upcoming st'.buffer.length sys'.script).1 := by
        rw [List.append_assoc, hfollows.delivered, ← hall]
        show _ ++ st'.ahead sys'.script = _
        rw [hahead, List.append_assoc, List.take_append_drop]
      exact List.append_cancel_right hsame
    · cases c with
      | read want => trivial
      | readLine =>
        simp only [ReadCall.demand] at hk
        split_ifs at hk with hmem
        exact .inl hmem
  | @ended e _ _ hk hhalt hst' hdelivered _ =>
    refine ⟨hr.stopped hst', ?_⟩
    dsimp only
    rw [hst'.unread, List.append_nil, hdelivered, ← hall, List.append_cancel_left_eq,
      consumed_ended]
    cases c with
    | read want => simp [KeepsBytes]
    | readLine =>
      have hmem : newline ∉ w.stream.ahead w.system.script := by
        intro hmem
        simp [ReadCall.demand, hmem] at hk
      rw [hst'.error]
      simp only [KeepsBytes, hmem, hhalt, false_or, forall_const, Option.some.injEq,
        Prod.mk.injEq, exists_and_left, exists_eq', and_true]
      cases e with
      | eof => simp
      | failed err => simp

/-- **No byte is lost.** At every moment between the calls of a run whose calls all keep their
bytes, everything returned followed by what is still in the buffer is everything delivered. -/
theorem run_keeps_bytes {handle bufferSize : Nat} {script : List ReadResponse}
    {cs : List ReadCall} {w : Reader}
    (hkeeps : Along Reader.step KeepsBytes (Reader.opened handle bufferSize script) cs)
    (hrun : run Reader.step (Reader.opened handle bufferSize script) cs = some w) :
    w.returned ++ w.stream.unread = w.system.delivered := by
  have hstart : Readable (Reader.opened handle bufferSize script).stream ∧
      (Reader.opened handle bufferSize script).Complete :=
    ⟨readable_opened handle bufferSize, rfl⟩
  have hend := run_invariant_along Reader.step (I := fun w => Readable w.stream ∧ w.Complete)
    (fun w c w' hI hkeeps hstep => ?_) hstart hkeeps hrun
  · exact hend.2
  · obtain ⟨hreadable, hiff⟩ := complete_step hI.1 hI.2 hstep
    exact ⟨hreadable, hiff.2 hkeeps⟩

/-- `"ab"`, an error, and the end of the line. -/
def brokenLine : List ReadResponse := [.delivered [97, 98], .failed 5, .delivered [99, 10]]

/-- `read_line` takes `"ab"` out of the buffer and returns nothing for it. -/
theorem readLine_drops_bytes :
    ∃ w, run Reader.step (Reader.opened 3 2 brokenLine) [.readLine] = some w ∧
      w.returned = [] ∧ w.stream.unread = [] ∧ w.system.delivered = [97, 98] :=
  ⟨_, rfl, rfl, rfl, rfl⟩

/-- The same line, read in two steps that keep their bytes. -/
theorem run_keeps_bytes_brokenLine :
    ∃ w, run Reader.step (Reader.opened 3 2 brokenLine) [.read 2, .read 1, .readLine] = some w ∧
      w.returned ++ w.stream.unread = [97, 98, 99, 10] := by
  have hrun : ∃ w, run Reader.step (Reader.opened 3 2 brokenLine) [.read 2, .read 1, .readLine] =
      some w ∧ w.system.delivered = [97, 98, 99, 10] := ⟨_, rfl, rfl⟩
  have hkeeps : Along Reader.step KeepsBytes (Reader.opened 3 2 brokenLine)
      [.read 2, .read 1, .readLine] := by
    refine ⟨trivial, fun w₁ h₁ => ⟨trivial, fun w₂ h₂ => ⟨.inl ?_, fun _ _ => trivial⟩⟩⟩
    cases h₁
    cases h₂
    decide
  obtain ⟨w, hw, hdelivered⟩ := hrun
  exact ⟨w, hw, (run_keeps_bytes hkeeps hw).trans hdelivered⟩

/-! ## An earlier error -/

/-- Two streams that see the same bytes ahead, and the same end of them. -/
structure Alike (st₁ : FileStream) (sys₁ : ReadSystem) (st₂ : FileStream) (sys₂ : ReadSystem) :
    Prop where
  left : Readable st₁
  right : Readable st₂
  size : st₁.buffer.length = st₂.buffer.length
  ahead : st₁.ahead sys₁.script = st₂.ahead sys₂.script
  halt : st₁.halt sys₁.script = st₂.halt sys₂.script

/-- Streams whose buffered bytes, buffer size and system agree. -/
theorem alike_of_unread {st₁ st₂ : FileStream} (h₁ : Readable st₁) (h₂ : Readable st₂)
    (hsize : st₁.buffer.length = st₂.buffer.length) (hunread : st₁.unread = st₂.unread)
    (sys : ReadSystem) : Alike st₁ sys st₂ sys where
  left := h₁
  right := h₂
  size := hsize
  ahead := by rw [FileStream.ahead, FileStream.ahead, hsize, hunread]
  halt := by rw [FileStream.halt, FileStream.halt, hsize]

/-- The calls on both streams return together, and with the same reply unless the system reports
an error. -/
def Agree (st₁ : FileStream) (sys₁ : ReadSystem) (st₂ : FileStream) (sys₂ : ReadSystem) :
    List ReadCall → Prop
  | [] => True
  | c :: cs =>
    match c.perform st₁ sys₁, c.perform st₂ sys₂ with
    | some (r₁, st₁', sys₁'), some (r₂, st₂', sys₂') =>
      (sys₁'.errors = sys₁.errors → sys₂'.errors = sys₂.errors → r₁ = r₂) ∧
        Agree st₁' sys₁' st₂' sys₂' cs
    | none, none => True
    | _, _ => False

/-- The reply to the call does not depend on the error field: a `read` is asked for a byte and
has one, and a `read_line` does not come to the end of the file within a line. -/
def Harmless (st : FileStream) (sys : ReadSystem) : ReadCall → Prop
  | .read want => want ≠ 0 ∧
      (st.ahead sys.script ≠ [] ∨ ∀ rest, st.halt sys.script ≠ some (.eof, rest))
  | .readLine => newline ∈ st.ahead sys.script ∨ st.ahead sys.script = [] ∨
      ∀ rest, st.halt sys.script ≠ some (.eof, rest)

/-- Every call is harmless, up to the next error the system reports. -/
def Unaffected (st : FileStream) (sys : ReadSystem) : List ReadCall → Prop
  | [] => True
  | c :: cs => Harmless st sys c ∧
      match c.perform st sys with
      | some (_, st', sys') => sys'.errors = sys.errors → Unaffected st' sys' cs
      | none => True

/-- What one call does to two streams alike. -/
inductive Both (c : ReadCall) (st₁ : FileStream) (sys₁ : ReadSystem) (st₂ : FileStream)
    (sys₂ : ReadSystem) : Option (ReadReply × FileStream × ReadSystem) →
    Option (ReadReply × FileStream × ReadSystem) → Prop where
  | served {k : Nat} {st₁' st₂' : FileStream} {sys₁' sys₂' : ReadSystem}
      (hk : c.demand (st₁.ahead sys₁.script) = some k) (halike : Alike st₁' sys₁' st₂' sys₂')
      (herror₁ : st₁'.error = st₁.error) (herror₂ : st₂'.error = st₂.error)
      (herrors₁ : sys₁'.errors = sys₁.errors) (herrors₂ : sys₂'.errors = sys₂.errors) :
      Both c st₁ sys₁ st₂ sys₂
        (some (c.served st₁.error ((st₁.ahead sys₁.script).take k), st₁', sys₁'))
        (some (c.served st₂.error ((st₁.ahead sys₁.script).take k), st₂', sys₂'))
  | ended {h : Halt} {rest : List ReadResponse} {st₁' st₂' : FileStream}
      {sys₁' sys₂' : ReadSystem} (hk : c.demand (st₁.ahead sys₁.script) = none)
      (hhalt : st₁.halt sys₁.script = some (h, rest)) (halike : Alike st₁' sys₁' st₂' sys₂')
      (hst₁' : Stopped st₁ h st₁') (hst₂' : Stopped st₂ h st₂')
      (herrors₁ : sys₁'.errors = sys₁.errors + h.errors)
      (herrors₂ : sys₂'.errors = sys₂.errors + h.errors) :
      Both c st₁ sys₁ st₂ sys₂
        (some (c.ended st₁'.error (st₁.ahead sys₁.script), st₁', sys₁'))
        (some (c.ended st₂'.error (st₁.ahead sys₁.script), st₂', sys₂'))
  | blocked (hk : c.demand (st₁.ahead sys₁.script) = none)
      (hhalt : st₁.halt sys₁.script = none) : Both c st₁ sys₁ st₂ sys₂ none none

theorem Alike.both {st₁ st₂ : FileStream} {sys₁ sys₂ : ReadSystem}
    (h : Alike st₁ sys₁ st₂ sys₂) (c : ReadCall) :
    Both c st₁ sys₁ st₂ sys₂ (c.perform st₁ sys₁) (c.perform st₂ sys₂) := by
  have h₁ := perform_reads c sys₁ h.left.opened h.left.mode h.left.fits
  have h₂ := perform_reads c sys₂ h.right.opened h.right.mode h.right.fits
  generalize c.perform st₁ sys₁ = result₁ at h₁
  generalize c.perform st₂ sys₂ = result₂ at h₂
  cases h₁ with
  | @served k st₁' sys₁' hk hfollows hahead =>
    cases h₂ with
    | @served k' st₂' sys₂' hk' hfollows' hahead' =>
      rw [← h.ahead] at hk' hahead' ⊢
      cases hk.symm.trans hk'
      exact .served hk ⟨h.left.follows hfollows, h.right.follows hfollows',
        by rw [hfollows.size, hfollows'.size, h.size], by rw [hahead, hahead'],
        by rw [hfollows.halt, hfollows'.halt, h.halt]⟩ hfollows.error hfollows'.error
        hfollows.errors hfollows'.errors
    | ended hk' => rw [← h.ahead, hk] at hk'; cases hk'
    | blocked hk' => rw [← h.ahead, hk] at hk'; cases hk'
  | @ended e st₁' sys₁' hk hhalt hst₁' _ herrors₁ =>
    cases h₂ with
    | served hk' => rw [← h.ahead, hk] at hk'; cases hk'
    | @ended e' st₂' sys₂' hk' hhalt' hst₂' _ herrors₂ =>
      have hsame := hhalt.symm.trans (h.halt.trans hhalt')
      simp only [Option.some.injEq, Prod.mk.injEq] at hsame
      obtain ⟨rfl, hscript⟩ := hsame
      have hsize : st₁'.buffer.length = st₂'.buffer.length := by
        rw [hst₁'.size, hst₂'.size, h.size]
      rw [← h.ahead]
      refine .ended hk hhalt ⟨h.left.stopped hst₁', h.right.stopped hst₂', hsize, ?_, ?_⟩
        hst₁' hst₂' herrors₁ herrors₂
      · rw [FileStream.ahead, FileStream.ahead, hst₁'.unread, hst₂'.unread, hsize, hscript]
      · rw [FileStream.halt, FileStream.halt, hsize, hscript]
    | blocked hk' hhalt' => rw [← h.halt, hhalt] at hhalt'; cases hhalt'
  | blocked hk hhalt =>
    cases h₂ with
    | served hk' => rw [← h.ahead, hk] at hk'; cases hk'
    | ended hk' hhalt' => rw [← h.halt, hhalt] at hhalt'; cases hhalt'
    | blocked hk' hhalt' => exact .blocked hk hhalt

/-- Only whether the error field is set shows in a reply. -/
theorem reply_congr (c : ReadCall) {error₁ error₂ : Nat} (h : error₁ ≠ 0 ↔ error₂ ≠ 0)
    (taken : List UInt8) :
    c.served error₁ taken = c.served error₂ taken ∧
      c.ended error₁ taken = c.ended error₂ taken := by
  cases c <;> simp only [ReadCall.served, ReadCall.ended, h, and_self]

theorem served_eq_iff {c : ReadCall} {error : Nat} (herror : error ≠ 0) (taken : List UInt8) :
    c.served 0 taken = c.served error taken ↔ c = .readLine ∨ taken ≠ [] := by
  cases c with
  | read want =>
    by_cases hnil : taken = [] <;> simp [ReadCall.served, hnil, herror]
  | readLine => simp [ReadCall.served]

theorem ended_eq_iff {c : ReadCall} {error : Nat} (herror : error ≠ 0) (taken : List UInt8) :
    c.ended 0 taken = c.ended error taken ↔ (c = .readLine ↔ taken = []) := by
  cases c with
  | read want =>
    by_cases hnil : taken = [] <;> simp [ReadCall.ended, hnil, herror]
  | readLine =>
    by_cases hnil : taken = [] <;> simp [ReadCall.ended, hnil, herror]

/-- With both error fields set, nothing differs. -/
theorem agree_of_errors {st₁ st₂ : FileStream} {sys₁ sys₂ : ReadSystem} (cs : List ReadCall)
    (h : Alike st₁ sys₁ st₂ sys₂) (herror₁ : st₁.error ≠ 0) (herror₂ : st₂.error ≠ 0) :
    Agree st₁ sys₁ st₂ sys₂ cs := by
  induction cs generalizing st₁ st₂ sys₁ sys₂ with
  | nil => trivial
  | cons c cs ih =>
    have hboth := h.both c
    rw [Agree]
    generalize c.perform st₁ sys₁ = result₁ at hboth ⊢
    generalize c.perform st₂ sys₂ = result₂ at hboth ⊢
    cases hboth with
    | served hk halike hsame₁ hsame₂ =>
      refine ⟨fun _ _ => (reply_congr c (iff_of_true herror₁ herror₂) _).1, ih halike ?_ ?_⟩
      · rw [hsame₁]
        exact herror₁
      · rw [hsame₂]
        exact herror₂
    | @ended e rest st₁' st₂' sys₁' sys₂' hk hhalt halike hst₁' hst₂' =>
      have hset : st₁'.error ≠ 0 ∧ st₂'.error ≠ 0 := by
        rw [hst₁'.error, hst₂'.error]
        cases e with
        | eof => exact ⟨herror₁, herror₂⟩
        | failed err => exact ⟨err.ne_zero, err.ne_zero⟩
      exact ⟨fun _ _ => (reply_congr c (iff_of_true hset.1 hset.2) _).2, ih halike hset.1 hset.2⟩
    | blocked => trivial

/-- A call that found enough bytes is harmless exactly if it does not return an empty span. -/
theorem harmless_of_served {c : ReadCall} {st : FileStream} {sys : ReadSystem} {k : Nat}
    (hk : c.demand (st.ahead sys.script) = some k) :
    Harmless st sys c ↔ c = .readLine ∨ (st.ahead sys.script).take k ≠ [] := by
  cases c with
  | read want =>
    simp only [ReadCall.demand] at hk
    split_ifs at hk with hle
    cases hk
    simp only [Harmless, reduceCtorEq, false_or, ne_eq, List.take_eq_nil_iff, not_or]
    exact and_congr_right fun hwant => iff_of_true
      (.inl fun hnil => hwant (by rw [hnil, List.length_nil] at hle; omega))
      (fun hnil => hwant (by rw [hnil, List.length_nil] at hle; omega))
  | readLine =>
    simp only [ReadCall.demand] at hk
    split_ifs at hk with hmem
    simp [Harmless, hmem]

/-- At the end of the file, a call is harmless exactly if a `read` still returns something, or a
`read_line` has nothing to return. -/
theorem harmless_of_eof {c : ReadCall} {st : FileStream} {sys : ReadSystem}
    {rest : List ReadResponse} (hk : c.demand (st.ahead sys.script) = none)
    (hhalt : st.halt sys.script = some (.eof, rest)) :
    Harmless st sys c ↔ (c = .readLine ↔ st.ahead sys.script = []) := by
  cases c with
  | read want =>
    have hwant : want ≠ 0 := by
      rintro rfl
      simp [ReadCall.demand] at hk
    simp [Harmless, hhalt, hwant]
  | readLine =>
    have hmem : newline ∉ st.ahead sys.script := by
      intro hmem
      simp [ReadCall.demand, hmem] at hk
    simp [Harmless, hhalt, hmem]

/-- A call that does not come to the end of the file is harmless. -/
theorem harmless_of_not_eof {c : ReadCall} {st : FileStream} {sys : ReadSystem}
    (hk : c.demand (st.ahead sys.script) = none)
    (hhalt : ∀ rest, st.halt sys.script ≠ some (.eof, rest)) : Harmless st sys c := by
  cases c with
  | read want =>
    refine ⟨?_, .inr hhalt⟩
    rintro rfl
    simp [ReadCall.demand] at hk
  | readLine => exact .inr (.inr hhalt)

theorem Alike.agree_iff {st₁ st₂ : FileStream} {sys₁ sys₂ : ReadSystem} (cs : List ReadCall)
    (h : Alike st₁ sys₁ st₂ sys₂) (herror₁ : st₁.error = 0) (herror₂ : st₂.error ≠ 0) :
    Agree st₁ sys₁ st₂ sys₂ cs ↔ Unaffected st₁ sys₁ cs := by
  induction cs generalizing st₁ st₂ sys₁ sys₂ with
  | nil => exact Iff.rfl
  | cons c cs ih =>
    have hboth := h.both c
    rw [Agree, Unaffected]
    generalize c.perform st₁ sys₁ = result₁ at hboth ⊢
    generalize c.perform st₂ sys₂ = result₂ at hboth ⊢
    cases hboth with
    | served hk halike hsame₁ hsame₂ herrors₁ herrors₂ =>
      have hrest := ih halike (hsame₁.trans herror₁) (hsame₂ ▸ herror₂)
      simp only [herrors₁, herrors₂, forall_const]
      rw [hrest, harmless_of_served hk, herror₁, served_eq_iff herror₂]
    | @ended e rest st₁' st₂' sys₁' sys₂' hk hhalt halike hst₁' hst₂' herrors₁ herrors₂ =>
      cases e with
      | eof =>
        have hclear : st₁'.error = 0 := hst₁'.error.trans herror₁
        have hset : st₂'.error ≠ 0 := fun hzero => herror₂ (hst₂'.error.symm.trans hzero)
        have hrest := ih halike hclear hset
        simp only [herrors₁, herrors₂, Halt.errors, Nat.add_zero, forall_const]
        rw [hrest, harmless_of_eof hk hhalt, hclear, ended_eq_iff hset]
      | failed err =>
        have hset₁ : st₁'.error ≠ 0 := fun hzero => err.ne_zero (hst₁'.error.symm.trans hzero)
        have hset₂ : st₂'.error ≠ 0 := fun hzero => err.ne_zero (hst₂'.error.symm.trans hzero)
        have hne : sys₁'.errors ≠ sys₁.errors := by
          rw [herrors₁, Halt.errors]
          omega
        refine iff_of_true ⟨fun heq => absurd heq hne, agree_of_errors cs halike hset₁ hset₂⟩
          ⟨harmless_of_not_eof hk fun rest' => ?_, fun heq => absurd heq hne⟩
        rw [hhalt]
        exact nofun
    | blocked hk hhalt =>
      refine iff_of_true trivial ⟨harmless_of_not_eof hk fun rest' => ?_, trivial⟩
      rw [hhalt]
      exact nofun

/-- **An earlier error.** Two open streams whose buffered bytes, buffer size and system agree,
only one of which has failed before, return the same exactly if every call is harmless. -/
theorem earlier_error_iff {st₁ st₂ : FileStream} (h₁ : Readable st₁) (h₂ : Readable st₂)
    (hsize : st₁.buffer.length = st₂.buffer.length) (hunread : st₁.unread = st₂.unread)
    (herror₁ : st₁.error = 0) (herror₂ : st₂.error ≠ 0) (sys : ReadSystem) (cs : List ReadCall) :
    Agree st₁ sys st₂ sys cs ↔ Unaffected st₁ sys cs :=
  (alike_of_unread h₁ h₂ hsize hunread sys).agree_iff cs herror₁ herror₂

/-- A stream after a `read` that the system failed. -/
def onceFailed : FileStream := { opened (.ok 3) .read 2 with error := 5 }

example : ReadCall.perform (.read 1) (opened (.ok 3) .read 2) ⟨[.failed 5], [], 0⟩ =
    some (.nullopt, onceFailed, ⟨[], [], 1⟩) := rfl

/-- At the end of the file `read` returns no count, and `read_line` no last line. -/
theorem onceFailed_disagrees :
    ¬ Agree (opened (.ok 3) .read 2) ⟨[.delivered []], [], 0⟩ onceFailed
      ⟨[.delivered []], [], 0⟩ [.read 1] ∧
    ¬ Agree (opened (.ok 3) .read 2) ⟨[.delivered [97], .delivered []], [], 0⟩ onceFailed
      ⟨[.delivered [97], .delivered []], [], 0⟩ [.readLine] := by
  refine ⟨fun h => ?_, fun h => ?_⟩
  · have hreply := h.1 rfl rfl
    cases hreply
  · have hreply := h.1 rfl rfl
    cases hreply

/-- As long as there are bytes and terminated lines, nothing differs. -/
theorem earlier_error_iff_onceFailed :
    Agree (opened (.ok 3) .read 2) ⟨[.delivered [97, 98], .delivered [10]], [], 0⟩ onceFailed
      ⟨[.delivered [97, 98], .delivered [10]], [], 0⟩ [.read 1, .readLine] := by
  have hfailed : Readable onceFailed := ⟨nofun, rfl, Nat.le_refl _, Nat.zero_le _⟩
  refine (earlier_error_iff (readable_opened 3 2) hfailed rfl rfl rfl (by decide) _ _).2 ?_
  refine ⟨⟨by decide, .inl (by decide)⟩, fun _ => ⟨.inl (by decide), fun _ => trivial⟩⟩

/-! ## Reading a file -/

/-- One answer of a system that serves a file: an interruption, or a number of bytes, which is
brought into the range from 1 to what was asked for and is left. -/
inductive Chunk where
  | interrupted
  | upTo (n : Nat)
deriving Repr, DecidableEq

/-- The answers of a system that serves the file `content` to reads of `size` bytes. -/
def serve (size : Nat) : List UInt8 → List Chunk → List ReadResponse
  | _, [] => []
  | content, .interrupted :: chunks => .interrupted :: serve size content chunks
  | content, .upTo n :: chunks =>
    let k := clamp n (min size content.length)
    .delivered (content.take k) :: serve size (content.drop k) chunks

/-- The calls on the plain list of bytes. -/
def ReadCall.plain (content : List UInt8) : ReadCall → ReadReply × List UInt8
  | .read want => (.bytes (content.take want), content.drop want)
  | .readLine =>
    if newline ∈ content then
      (foldLine (content.take (content.idxOf newline)), content.drop (content.idxOf newline + 1))
    else if content = [] then (.nullopt, [])
    else (.line content [], [])

def plainReplies : List UInt8 → List ReadCall → List ReadReply
  | _, [] => []
  | content, c :: cs => (c.plain content).1 :: plainReplies (c.plain content).2 cs

/-- The replies of a stream, up to the first call that has not returned. -/
def replies : FileStream → ReadSystem → List ReadCall → List ReadReply
  | _, _, [] => []
  | st, sys, c :: cs =>
    match c.perform st sys with
    | none => []
    | some (reply, st, sys) => reply :: replies st sys cs

/-- The number of answers that are not interruptions. -/
def chunkBudget (chunks : List Chunk) : Nat := chunks.countP fun c => decide (c ≠ .interrupted)

/-- The source of a system that serves a file: all of it and then the end of the file, given one
answer for each byte and one for the end; otherwise a part of it. -/
theorem upcoming_serve {size : Nat} (hsize : 0 < size) (content : List UInt8)
    (chunks : List Chunk) :
    (∃ chunks', upcoming size (serve size content chunks) =
        (content, some (.eof, serve size [] chunks')) ∧
      chunkBudget chunks ≤ chunkBudget chunks' + content.length + 1) ∨
    (∃ part, upcoming size (serve size content chunks) = (part, none) ∧ part <+: content ∧
      chunkBudget chunks ≤ content.length) := by
  induction chunks generalizing content with
  | nil => exact .inr ⟨[], rfl, List.nil_prefix, Nat.zero_le _⟩
  | cons c chunks ih =>
    cases c with
    | interrupted => exact ih content
    | upTo n =>
      have hbudget : chunkBudget (.upTo n :: chunks) = chunkBudget chunks + 1 := by
        simp [chunkBudget]
      cases content with
      | nil =>
        have hzero : clamp n (min size ([] : List UInt8).length) = 0 := by simp [clamp]
        refine .inl ⟨chunks, ?_, by rw [hbudget, List.length_nil]⟩
        simp only [serve, hzero, List.drop_zero, upcoming, List.take_nil]
      | cons b bytes =>
        have hpos := clamp_pos (n := n) (show 0 < min size (b :: bytes).length by
          rw [List.length_cons]
          omega)
        have hle := clamp_le n (min size (b :: bytes).length)
        simp only [serve]
        generalize clamp n (min size (b :: bytes).length) = k at hpos hle
        -- the answer delivers `k` bytes, at least one and at most `size`
        obtain ⟨m, rfl⟩ : ∃ m, k = m + 1 := ⟨k - 1, by omega⟩
        have hwhole : ((b :: bytes).take (m + 1)).take size = b :: bytes.take m := by
          rw [List.take_take, Nat.min_eq_right (by omega), List.take_succ_cons]
        have hdrop : ((b :: bytes).drop (m + 1)).length + (m + 1) = (b :: bytes).length := by
          rw [List.length_drop]
          omega
        simp only [upcoming, hwhole]
        rcases ih ((b :: bytes).drop (m + 1)) with ⟨chunks', hup, hle'⟩ | ⟨part, hup, hpart, hle'⟩
        · refine .inl ⟨chunks', ?_, by omega⟩
          rw [hup, ← List.take_succ_cons, List.take_append_drop]
        · refine .inr ⟨(b :: bytes).take (m + 1) ++ part, ?_, ?_, by omega⟩
          · rw [hup, List.take_succ_cons]
          · have hleading := (List.prefix_append_right_inj ((b :: bytes).take (m + 1))).2 hpart
            rwa [List.take_append_drop] at hleading

/-- What is left of the file is ahead, with at least `n` answers for the end of the file behind
it; or, with no such promise, a part of it. -/
structure Stands (n : Nat) (content : List UInt8) (st : FileStream) (script : List ReadResponse) :
    Prop where
  readable : Readable st
  error : st.error = 0
  size : 0 < st.buffer.length
  source :
    (st.ahead script = content ∧ ∃ chunks,
      st.halt script = some (.eof, serve st.buffer.length [] chunks) ∧
      n ≤ chunkBudget chunks + 1) ∨
    (n = 0 ∧ st.ahead script <+: content ∧ st.halt script = none)

theorem stands_of_serve {n : Nat} {content : List UInt8} {st : FileStream} {chunks : List Chunk}
    (hr : Readable st) (herror : st.error = 0) (hsize : 0 < st.buffer.length)
    (hunread : st.unread = []) (hn : n = 0 ∨ n + content.length ≤ chunkBudget chunks) :
    Stands n content st (serve st.buffer.length content chunks) := by
  refine ⟨hr, herror, hsize, ?_⟩
  rw [ahead, halt, hunread, List.nil_append]
  rcases upcoming_serve hsize content chunks with ⟨chunks', hup, hle⟩ | ⟨part, hup, hpart, hle⟩
  · rw [hup]
    exact .inl ⟨rfl, chunks', rfl, by omega⟩
  · rw [hup]
    exact .inr ⟨by omega, hpart, rfl⟩

theorem Stands.ahead_prefix {n : Nat} {content : List UInt8} {st : FileStream}
    {script : List ReadResponse} (h : Stands n content st script) :
    st.ahead script <+: content := by
  rcases h.source with ⟨hall, -⟩ | ⟨-, hpart, -⟩
  · rw [hall]
  · exact hpart

/-- A call that finds enough bytes in a leading part of the file is the call on the file. -/
theorem plain_of_demand {c : ReadCall} {bytes content : List UInt8} {k : Nat}
    (hk : c.demand bytes = some k) (hpre : bytes <+: content) :
    c.plain content = (c.served 0 (bytes.take k), content.drop k) ∧ k ≤ bytes.length := by
  obtain ⟨rest, rfl⟩ := hpre
  cases c with
  | read want =>
    simp only [ReadCall.demand] at hk
    split_ifs at hk with hle
    cases hk
    refine ⟨?_, hle⟩
    simp [ReadCall.plain, ReadCall.served, List.take_append_of_le_length hle]
  | readLine =>
    simp only [ReadCall.demand] at hk
    split_ifs at hk with hmem
    cases hk
    have hlt := List.idxOf_lt_length_iff.2 hmem
    refine ⟨?_, hlt⟩
    have hdrop : (bytes.take (bytes.idxOf newline + 1)).dropLast =
        bytes.take (bytes.idxOf newline) := by
      rw [List.take_succ_eq_append_getElem hlt, List.dropLast_concat]
    simp only [ReadCall.plain, if_pos (List.mem_append_left rest hmem), ReadCall.served, hdrop,
      List.idxOf_append_of_mem hmem, List.take_append_of_le_length hlt.le]

/-- A call that runs out of bytes returns the rest of the file. -/
theorem plain_of_not_demand {c : ReadCall} {content : List UInt8}
    (hk : c.demand content = none) : c.plain content = (c.ended 0 content, []) := by
  cases c with
  | read want =>
    simp only [ReadCall.demand] at hk
    split_ifs at hk with hle
    have hlt := Nat.lt_of_not_le hle
    simp [ReadCall.plain, ReadCall.ended, List.take_of_length_le hlt.le,
      List.drop_of_length_le hlt.le]
  | readLine =>
    simp only [ReadCall.demand] at hk
    split_ifs at hk with hmem
    simp only [ReadCall.plain, ReadCall.ended, if_neg hmem]
    split_ifs <;> simp_all

/-- **One call.** -/
theorem Stands.perform {n : Nat} {content : List UInt8} {st : FileStream} {sys : ReadSystem}
    (h : Stands n content st sys.script) (c : ReadCall) :
    match c.perform st sys with
    | none => n = 0
    | some (reply, st', sys') => reply = (c.plain content).1 ∧
        Stands (n - 1) (c.plain content).2 st' sys'.script := by
  have hreads := perform_reads c sys h.readable.opened h.readable.mode h.readable.fits
  generalize c.perform st sys = result at hreads ⊢
  cases hreads with
  | @served k st' sys' hk hfollows hahead =>
    obtain ⟨hplain, hle⟩ := plain_of_demand hk h.ahead_prefix
    dsimp only
    rw [hplain, h.error]
    refine ⟨rfl, h.readable.follows hfollows, hfollows.error.trans h.error,
      hfollows.size ▸ h.size, ?_⟩
    rw [hahead, hfollows.halt, hfollows.size]
    rcases h.source with ⟨hall, chunks, hhalt, hn⟩ | ⟨hn, hpart, hhalt⟩
    · exact .inl ⟨by rw [hall], chunks, hhalt, by omega⟩
    · exact .inr ⟨by omega, hpart.drop k, hhalt⟩
  | @ended e st' sys' hk hhalt hst' _ _ =>
    rcases h.source with ⟨hall, chunks, hhalt', hn⟩ | ⟨-, -, hhalt'⟩
    · rw [hhalt] at hhalt'
      simp only [Option.some.injEq, Prod.mk.injEq] at hhalt'
      obtain ⟨rfl, hscript⟩ := hhalt'
      have hclear : st'.error = 0 := hst'.error.trans h.error
      dsimp only
      rw [hall] at hk ⊢
      rw [plain_of_not_demand hk, hclear, hscript, ← hst'.size]
      refine ⟨rfl, stands_of_serve (h.readable.stopped hst') hclear (hst'.size ▸ h.size)
        hst'.unread (.inr ?_)⟩
      rw [List.length_nil]
      omega
    · rw [hhalt] at hhalt'
      cases hhalt'
  | blocked hk hhalt =>
    rcases h.source with ⟨-, chunks, hhalt', -⟩ | ⟨hn, -⟩
    · rw [hhalt] at hhalt'
      cases hhalt'
    · exact hn

/-- The replies are those of the plain list, all of them if there are answers enough. -/
theorem Stands.replies {n : Nat} {content : List UInt8} {st : FileStream} {sys : ReadSystem}
    (h : Stands n content st sys.script) (cs : List ReadCall) :
    replies st sys cs <+: plainReplies content cs ∧
      (cs.length ≤ n → replies st sys cs = plainReplies content cs) := by
  induction cs generalizing n content st sys with
  | nil => exact ⟨List.prefix_rfl, fun _ => rfl⟩
  | cons c cs ih =>
    have hcall := h.perform c
    rw [FileStream.replies, plainReplies]
    generalize c.perform st sys = result at hcall ⊢
    rcases result with _ | ⟨reply, st', sys'⟩
    · refine ⟨List.nil_prefix, fun hle => ?_⟩
      rw [List.length_cons] at hle
      omega
    · obtain ⟨rfl, hstands⟩ := hcall
      obtain ⟨hleading, hall⟩ := ih hstands
      refine ⟨(List.prefix_cons_inj _).2 hleading, fun hle => ?_⟩
      rw [List.length_cons] at hle
      exact congrArg _ (hall (by omega))

/-- The first `n` answers of a system. -/
def firstChunks (os : Nat → Chunk) (n : Nat) : List Chunk := (List.range n).map os

theorem chunkBudget_firstChunks (os : Nat → Chunk) (n : Nat) :
    chunkBudget (firstChunks os n) = Nat.count (fun j => os j ≠ .interrupted) n := by
  induction n with
  | zero => rfl
  | succ n ih =>
    rw [Nat.count_succ, ← ih, firstChunks, List.range_succ, List.map_append, chunkBudget,
      List.countP_append]
    by_cases hn : os n = .interrupted <;> simp [firstChunks, chunkBudget, hn]

/-- A system that does not interrupt every read from some point on gives any number of answers. -/
theorem exists_chunkBudget_ge {os : Nat → Chunk} (hfair : ∀ k, ∃ j, k ≤ j ∧ os j ≠ .interrupted)
    (m : Nat) : ∃ N, ∀ n, N ≤ n → m ≤ chunkBudget (firstChunks os n) := by
  have hinf : {j | os j ≠ .interrupted}.Infinite := by
    refine Set.infinite_of_not_bddAbove fun ⟨bound, hbound⟩ => ?_
    obtain ⟨j, hj, hne⟩ := hfair (bound + 1)
    exact Nat.not_succ_le_self bound (hj.trans (hbound hne))
  refine ⟨Nat.nth (fun j => os j ≠ .interrupted) m, fun n hn => ?_⟩
  rw [chunkBudget_firstChunks]
  calc m = Nat.count (fun j => os j ≠ .interrupted) (Nat.nth (fun j => os j ≠ .interrupted) m) :=
        (Nat.count_nth_of_infinite hinf m).symm
    _ ≤ Nat.count (fun j => os j ≠ .interrupted) n := Nat.count_monotone _ hn

/-- The replies of a freshly opened stream when the system has given its first `n` answers. -/
def fileReplies (os : Nat → Chunk) (content : List UInt8) (handle bufferSize n : Nat)
    (cs : List ReadCall) : List ReadReply :=
  replies (opened (.ok handle) .read bufferSize)
    ⟨serve (max bufferSize 1) content (firstChunks os n), [], 0⟩ cs

/-- **Reading is independent of buffering.** Every call that returns gives what it gives on the
plain list of bytes, and every call returns unless the system interrupts every read from some
point on. -/
theorem read_transparent (os : Nat → Chunk) (content : List UInt8) (handle bufferSize : Nat)
    (cs : List ReadCall) :
    (∀ n, fileReplies os content handle bufferSize n cs <+: plainReplies content cs) ∧
    ((∀ k, ∃ j, k ≤ j ∧ os j ≠ .interrupted) → ∃ N, ∀ n, N ≤ n →
      fileReplies os content handle bufferSize n cs = plainReplies content cs) := by
  have hsize : (opened (.ok handle) .read bufferSize).buffer.length = max bufferSize 1 :=
    List.length_replicate
  have hstands : ∀ n m, m = 0 ∨ m + content.length ≤ chunkBudget (firstChunks os n) →
      Stands m content (opened (.ok handle) .read bufferSize)
        (serve (max bufferSize 1) content (firstChunks os n)) := by
    intro n m hm
    rw [← hsize]
    exact stands_of_serve (readable_opened handle bufferSize) rfl (by omega) rfl hm
  have hreplies : ∀ n m, m = 0 ∨ m + content.length ≤ chunkBudget (firstChunks os n) →
      fileReplies os content handle bufferSize n cs <+: plainReplies content cs ∧
        (cs.length ≤ m →
          fileReplies os content handle bufferSize n cs = plainReplies content cs) :=
    fun n m hm => Stands.replies (hstands n m hm) cs
  constructor
  · intro n
    exact (hreplies n 0 (.inl rfl)).1
  · intro hfair
    obtain ⟨N, hN⟩ := exists_chunkBudget_ge hfair (cs.length + content.length)
    refine ⟨N, fun n hn => ?_⟩
    exact (hreplies n cs.length (.inr (hN n hn))).2 (Nat.le_refl _)

/-- Every other read is interrupted, and the others give one byte. -/
def slowFile (k : Nat) : Chunk := if k % 2 = 0 then .interrupted else .upTo 1

/-- `"a\r\nb"` through a buffer of two bytes: the first line loses its terminator, and the last
one has none. -/
theorem read_transparent_slowFile :
    ∃ n, fileReplies slowFile [97, 13, 10, 98] 3 2 n [.read 0, .readLine, .readLine, .readLine] =
      [.bytes [], .line [97] [13, 10], .line [98] [], .nullopt] := by
  have hfair : ∀ k, ∃ j, k ≤ j ∧ slowFile j ≠ .interrupted := fun k =>
    ⟨2 * k + 1, by omega, by simp [slowFile, Nat.add_mod]⟩
  obtain ⟨N, hN⟩ := (read_transparent slowFile [97, 13, 10, 98] 3 2
    [.read 0, .readLine, .readLine, .readLine]).2 hfair
  exact ⟨N, hN N (Nat.le_refl N)⟩

/-- With nothing ahead and no answer behind it, a `read` of a byte waits. -/
theorem perform_read_blocked {st : FileStream} (hr : Readable st) {sys : ReadSystem}
    (hahead : st.ahead sys.script = []) (hhalt : st.halt sys.script = none) :
    ReadCall.perform (.read 1) st sys = none := by
  have hreads := perform_reads (.read 1) sys hr.opened hr.mode hr.fits
  generalize ReadCall.perform (.read 1) st sys = result at hreads ⊢
  cases hreads with
  | served hk =>
    rw [hahead] at hk
    cases hk
  | ended _ hend =>
    rw [hhalt] at hend
    cases hend
  | blocked => rfl

/-- A system that interrupts every read: a `read` of one byte of a file that has one does not
return, however long one waits. -/
theorem read_interrupted_forever :
    ∃ os : Nat → Chunk, ∀ n, fileReplies os [97] 3 1 n [.read 1] = [] ∧
      plainReplies [97] [.read 1] = [.bytes [97]] := by
  refine ⟨fun _ => .interrupted, fun n => ⟨?_, rfl⟩⟩
  have hsource : upcoming 1 (serve (max 1 1) [97] (firstChunks (fun _ => .interrupted) n)) =
      ([], none) := by
    unfold firstChunks
    induction List.range n with
    | nil => rfl
    | cons _ _ ih => exact ih
  have hblocked : ReadCall.perform (.read 1) (opened (.ok 3) .read 1)
      ⟨serve (max 1 1) [97] (firstChunks (fun _ => .interrupted) n), [], 0⟩ = none := by
    refine perform_read_blocked (readable_opened 3 1) ?_ ?_
    · show [] ++ (upcoming 1 _).1 = []
      rw [hsource, List.nil_append]
    · show (upcoming 1 _).2 = none
      rw [hsource]
  rw [fileReplies, replies, hblocked]

end FileStream

end EglUtil
