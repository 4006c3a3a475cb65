import Mathlib.Data.List.Basic

/-!
# `FileStream`: the writing side

A buffered wrapper around one descriptor (the POSIX branch). The operating system is a script of
answers, one for each `::write`; a call that finds the script empty has not returned yet. What
the system accepted is part of a call's result, so it is visible also when the call fails or has
not returned.

The last section says what one call does to the bytes that are still unsent.
-/

namespace EglUtil

inductive FileMode where
  | read
  | write
  | append
deriving Repr, DecidableEq

structure FileStream where
  /-- `none` is `invalid_handle`. -/
  handle : Option Nat
  buffer : List UInt8
  pos : Nat
  len : Nat
  mode : FileMode
  error : Nat
  eof : Bool
deriving Repr, DecidableEq

namespace FileStream

/-! ## The operating system -/

/-- The answer to one `::write`. -/
inductive Response where
  /-- `EINTR` -/
  | interrupted
  /-- At least one byte is taken and at most what was offered; `n` is brought into that range. -/
  | accepted (n : Nat)
  | failed (err : Nat)
deriving Repr, DecidableEq

/-- The answer to `::close`. -/
inductive CloseResponse where
  | closed
  | interrupted
  | failed (err : Nat)
deriving Repr, DecidableEq

/-- The number of bytes an answer takes of `offered` bytes. -/
def clamp (n offered : Nat) : Nat := min (max n 1) offered

inductive Outcome where
  | done
  | failed (err : Nat)
  /-- Still waiting for an answer. -/
  | blocked
deriving Repr, DecidableEq

structure Transfer where
  outcome : Outcome
  accepted : List UInt8
  script : List Response
deriving Repr, DecidableEq

/-- The loop of `os_write_all`; `written` counts the bytes already accepted. -/
def osWriteAllFrom (src : List UInt8) (script : List Response) (written : Nat) : Transfer :=
  if written < src.length then
    match script with
    | [] => ⟨.blocked, [], []⟩
    | .interrupted :: rest => osWriteAllFrom src rest written
    | .failed err :: rest => ⟨.failed err, [], rest⟩
    | .accepted n :: rest =>
      let chunk := src.drop written
      let k := clamp n chunk.length
      let t := osWriteAllFrom src rest (written + k)
      { t with accepted := chunk.take k ++ t.accepted }
  else ⟨.done, [], script⟩

def osWriteAll (script : List Response) (src : List UInt8) : Transfer :=
  osWriteAllFrom src script 0

/-! ## The calls -/

inductive Reply where
  | returned (ok : Bool)
  /-- `std::logic_error` -/
  | threw
  /-- The call has not returned. -/
  | blocked
deriving Repr, DecidableEq

structure Call where
  reply : Reply
  stream : FileStream
  accepted : List UInt8
  script : List Response
deriving Repr, DecidableEq

/-- The default constructor. -/
def closedStream : FileStream := ⟨none, [], 0, 0, .read, 0, false⟩

/-- `open`, with the system's answer: a descriptor or an error code. -/
def opened (answer : Except Nat Nat) (mode : FileMode) (bufferSize : Nat) : FileStream :=
  let stream := { closedStream with mode := mode, buffer := List.replicate (max bufferSize 1) 0 }
  match answer with
  | .error err => { stream with error := err }
  | .ok handle => { stream with handle := some handle }

/-- What a move leaves in the source: no descriptor, and a moved-from vector. -/
def movedFrom (st : FileStream) : FileStream :=
  { st with handle := none, buffer := [], pos := 0, len := 0 }

def flushBuffer (st : FileStream) (script : List Response) : Call :=
  if st.pos = 0 then ⟨.returned true, st, [], script⟩
  else
    let t := osWriteAll script (st.buffer.take st.pos)
    match t.outcome with
    | .done => ⟨.returned true, { st with pos := 0 }, t.accepted, t.script⟩
    | .failed err => ⟨.returned false, { st with error := err }, t.accepted, t.script⟩
    | .blocked => ⟨.blocked, st, t.accepted, t.script⟩

/-- `std::ranges::copy` to the fill level, which then moves. -/
def store (st : FileStream) (src : List UInt8) : FileStream :=
  { st with
    buffer := st.buffer.take st.pos ++ src ++ st.buffer.drop (st.pos + src.length)
    pos := st.pos + src.length }

/-- Continue after a successful `flush_buffer`. -/
def Call.andThen (c : Call) (next : FileStream → List Response → Call) : Call :=
  match c.reply with
  | .returned true =>
    let d := next c.stream c.script
    { d with accepted := c.accepted ++ d.accepted }
  | _ => c

/-- The bypass of a large `write`. -/
def writeThrough (src : List UInt8) (st : FileStream) (script : List Response) : Call :=
  let t := osWriteAll script src
  match t.outcome with
  | .done => ⟨.returned true, st, t.accepted, t.script⟩
  | .failed err => ⟨.returned false, { st with error := err }, t.accepted, t.script⟩
  | .blocked => ⟨.blocked, st, t.accepted, t.script⟩

def write (src : List UInt8) (st : FileStream) (script : List Response) : Call :=
  if st.handle = none then ⟨.returned false, st, [], script⟩
  else if st.mode = .read then ⟨.threw, st, [], script⟩
  else if src.length ≥ st.buffer.length then (st.flushBuffer script).andThen (writeThrough src)
  else if st.pos + src.length > st.buffer.length then
    (st.flushBuffer script).andThen fun st script => ⟨.returned true, st.store src, [], script⟩
  else ⟨.returned true, st.store src, [], script⟩

def flush (st : FileStream) (script : List Response) : Call :=
  if st.handle = none then ⟨.returned false, st, [], script⟩
  else if st.mode = .read then ⟨.returned true, st, [], script⟩
  else st.flushBuffer script

/-- The end of `close`: `os_close`, and the stream is closed whatever it answers. -/
def finishClose (c : Call) (answer : CloseResponse) : Call :=
  let shut := { c.stream with handle := none, pos := 0, len := 0 }
  match answer with
  | .closed | .interrupted => { c with stream := shut }
  | .failed err => { c with reply := .returned false, stream := { shut with error := err } }

def close (answer : CloseResponse) (st : FileStream) (script : List Response) : Call :=
  if st.handle = none then ⟨.returned true, st, [], script⟩
  else
    let c := if st.mode = .read then ⟨.returned true, st, [], script⟩ else st.flushBuffer script
    if c.reply = .blocked then c else finishClose c answer

/-! ## What the system accepts -/

theorem clamp_pos {n k : Nat} (h : 0 < k) : 0 < clamp n k := by
  unfold clamp
  omega

theorem clamp_le (n k : Nat) : clamp n k ≤ k := Nat.min_le_right _ _

/-- The number of answers that are not interruptions. -/
def budget (script : List Response) : Nat := script.countP fun r => decide (r ≠ .interrupted)

@[simp] theorem budget_interrupted (script : List Response) :
    budget (.interrupted :: script) = budget script := rfl

@[simp] theorem budget_accepted (n : Nat) (script : List Response) :
    budget (.accepted n :: script) = budget script + 1 := by
  simp [budget]

section Loop

variable {src : List UInt8}

theorem osWriteAllFrom_done {written : Nat} (script : List Response) (h : ¬ written < src.length) :
    osWriteAllFrom src script written = ⟨.done, [], script⟩ := by
  rw [osWriteAllFrom.eq_def, if_neg h]

theorem osWriteAllFrom_nil {written : Nat} (h : written < src.length) :
    osWriteAllFrom src [] written = ⟨.blocked, [], []⟩ := by
  rw [osWriteAllFrom, if_pos h]

theorem osWriteAllFrom_interrupted {written : Nat} (rest : List Response)
    (h : written < src.length) :
    osWriteAllFrom src (.interrupted :: rest) written = osWriteAllFrom src rest written := by
  rw [osWriteAllFrom, if_pos h]

theorem osWriteAllFrom_failed {written : Nat} (err : Nat) (rest : List Response)
    (h : written < src.length) :
    osWriteAllFrom src (.failed err :: rest) written = ⟨.failed err, [], rest⟩ := by
  rw [osWriteAllFrom, if_pos h]

theorem osWriteAllFrom_accepted {written : Nat} (n : Nat) (rest : List Response)
    (h : written < src.length) :
    osWriteAllFrom src (.accepted n :: rest) written =
      let k := clamp n (src.length - written)
      let t := osWriteAllFrom src rest (written + k)
      { t with accepted := (src.drop written).take k ++ t.accepted } := by
  rw [osWriteAllFrom, if_pos h]
  simp only [List.length_drop]

/-- The system accepts a leading part, and all of it if the loop ends well. -/
theorem osWriteAllFrom_accepts (src : List UInt8) (script : List Response) (written : Nat) :
    ∃ rest, src.drop written = (osWriteAllFrom src script written).accepted ++ rest ∧
      ((osWriteAllFrom src script written).outcome = .done → rest = []) := by
  induction script generalizing written with
  | nil =>
    by_cases h : written < src.length
    · exact ⟨src.drop written, by simp [osWriteAllFrom_nil h]⟩
    · exact ⟨[], by simpa [osWriteAllFrom_done _ h] using h⟩
  | cons r script ih =>
    by_cases h : written < src.length
    · cases r with
      | interrupted =>
        rw [osWriteAllFrom_interrupted _ h]
        exact ih written
      | failed err => exact ⟨src.drop written, by simp [osWriteAllFrom_failed _ _ h]⟩
      | accepted n =>
        obtain ⟨rest, hdrop, hdone⟩ := ih (written + clamp n (src.length - written))
        refine ⟨rest, ?_, ?_⟩
        · rw [osWriteAllFrom_accepted _ _ h]
          dsimp only
          rw [List.append_assoc, ← hdrop, ← List.drop_drop, List.take_append_drop]
        · rw [osWriteAllFrom_accepted _ _ h]
          exact hdone
    · exact ⟨[], by simpa [osWriteAllFrom_done _ h] using h⟩

/-- Without errors, one answer for each byte is enough, and each answer used is paid for by a
byte accepted. -/
theorem osWriteAllFrom_total {script : List Response} (hok : ∀ err, .failed err ∉ script)
    (written : Nat) (hb : src.length ≤ written + budget script) :
    (osWriteAllFrom src script written).outcome = .done ∧
      (osWriteAllFrom src script written).script <:+ script ∧
      budget script ≤ budget (osWriteAllFrom src script written).script +
        (osWriteAllFrom src script written).accepted.length := by
  induction script generalizing written with
  | nil =>
    have h : ¬ written < src.length := by simpa [budget] using hb
    simp [osWriteAllFrom_done _ h]
  | cons r script ih =>
    have hok' : ∀ err, Response.failed err ∉ script := fun err hmem =>
      hok err (List.mem_cons_of_mem _ hmem)
    by_cases h : written < src.length
    · cases r with
      | interrupted =>
        rw [osWriteAllFrom_interrupted _ h]
        obtain ⟨hdone, hsuf, hle⟩ := ih hok' written hb
        exact ⟨hdone, hsuf.trans (List.suffix_cons _ _), hle⟩
      | failed err => exact absurd List.mem_cons_self (hok err)
      | accepted n =>
        have hpos := clamp_pos (n := n) (Nat.sub_pos_of_lt h)
        have hle := clamp_le n (src.length - written)
        rw [osWriteAllFrom_accepted _ _ h]
        obtain ⟨hdone, hsuf, hbud⟩ := ih hok' (written + clamp n (src.length - written)) (by
            rw [budget_accepted] at hb
            omega)
        refine ⟨hdone, hsuf.trans (List.suffix_cons _ _), ?_⟩
        dsimp only
        rw [budget_accepted, List.length_append, List.length_take, List.length_drop]
        omega
    · simp [osWriteAllFrom_done _ h]

/-- The bytes the answers before the first error are ready to take. -/
def takenBeforeError : List Response → Nat
  | [] => 0
  | .interrupted :: rest => takenBeforeError rest
  | .accepted n :: rest => max n 1 + takenBeforeError rest
  | .failed _ :: _ => 0

/-- The answers to come take some, but not all, of `n` bytes before an error. -/
def FailsMidway (script : List Response) (n : Nat) : Prop :=
  (∃ err, .failed err ∈ script) ∧ 0 < takenBeforeError script ∧ takenBeforeError script < n

/-- A loop that ends with an error has accepted what the answers before it took. -/
theorem osWriteAllFrom_error {script : List Response} {written err : Nat}
    (h : (osWriteAllFrom src script written).outcome = .failed err) :
    .failed err ∈ script ∧
      (osWriteAllFrom src script written).accepted.length = takenBeforeError script ∧
      written + takenBeforeError script < src.length := by
  induction script generalizing written with
  | nil =>
    by_cases hlt : written < src.length
    · simp [osWriteAllFrom_nil hlt] at h
    · simp [osWriteAllFrom_done _ hlt] at h
  | cons r script ih =>
    by_cases hlt : written < src.length
    · cases r with
      | interrupted =>
        rw [osWriteAllFrom_interrupted _ hlt] at h ⊢
        obtain ⟨hmem, hlen, hsum⟩ := ih h
        exact ⟨List.mem_cons_of_mem _ hmem, hlen, hsum⟩
      | failed e =>
        rw [osWriteAllFrom_failed _ _ hlt] at h ⊢
        cases h
        exact ⟨List.mem_cons_self, rfl, hlt⟩
      | accepted n =>
        rw [osWriteAllFrom_accepted _ _ hlt] at h ⊢
        dsimp only at h ⊢
        obtain ⟨hmem, hlen, hsum⟩ := ih h
        -- had this answer taken everything, the loop would have ended well
        have hclamp : clamp n (src.length - written) = max n 1 := by
          unfold clamp at hsum ⊢
          omega
        rw [hclamp] at hlen hsum ⊢
        refine ⟨List.mem_cons_of_mem _ hmem, ?_, ?_⟩
        · rw [List.length_append, List.length_take, List.length_drop, hlen, takenBeforeError]
          omega
        · rw [takenBeforeError]
          omega
    · simp [osWriteAllFrom_done _ hlt] at h

end Loop

/-! ## What one call does to the unsent bytes -/

/-- The bytes that wait in a write buffer. -/
def unsent (st : FileStream) : List UInt8 :=
  if st.mode = .read then [] else st.buffer.take st.pos

theorem flushBuffer_cases (st : FileStream) (script : List Response) :
    (∃ script', st.flushBuffer script =
        ⟨.returned true, { st with pos := 0 }, st.buffer.take st.pos, script'⟩) ∨
      (∃ err script' acc, st.flushBuffer script =
          ⟨.returned false, { st with error := err }, acc, script'⟩ ∧
        acc <+: st.buffer.take st.pos ∧
        (acc ≠ [] → FailsMidway script (st.buffer.take st.pos).length)) ∨
      ∃ script' acc, st.flushBuffer script = ⟨.blocked, st, acc, script'⟩ ∧
        acc <+: st.buffer.take st.pos := by
  unfold flushBuffer
  by_cases hpos : st.pos = 0
  · rw [if_pos hpos]
    refine .inl ⟨script, ?_⟩
    cases st
    simp_all
  · rw [if_neg hpos]
    obtain ⟨rest, hacc, hdone⟩ := osWriteAllFrom_accepts (st.buffer.take st.pos) script 0
    rw [List.drop_zero] at hacc
    rw [osWriteAll]
    dsimp only
    cases hout : (osWriteAllFrom (st.buffer.take st.pos) script 0).outcome with
    | done =>
      rw [hdone hout, List.append_nil] at hacc
      exact .inl ⟨_, by rw [← hacc]⟩
    | failed err =>
      refine .inr (.inl ⟨err, _, _, rfl, ⟨rest, hacc.symm⟩, fun hne => ?_⟩)
      obtain ⟨hmem, hlen, hlt⟩ := osWriteAllFrom_error hout
      rw [Nat.zero_add] at hlt
      exact ⟨⟨err, hmem⟩, by rw [← hlen]; exact List.length_pos_iff.2 hne, hlt⟩
    | blocked => exact .inr (.inr ⟨_, _, rfl, ⟨rest, hacc.symm⟩⟩)

/-- `write(src)` on this stream goes through `flush_buffer`. -/
def flushesFor (st : FileStream) (src : List UInt8) : Prop :=
  src.length ≥ st.buffer.length ∨ st.pos + src.length > st.buffer.length

/-- What a `write` (or, with nothing to write, a `flush`) of an open stream does. -/
structure Effect (st : FileStream) (src : List UInt8) (midway : Prop) (c : Call) : Prop where
  handle : c.stream.handle = st.handle
  mode : c.stream.mode = st.mode
  fits : c.stream.pos ≤ c.stream.buffer.length
  /-- At every moment. -/
  accepted : c.accepted <+: st.unsent ++ src
  returned : c.reply = .blocked ∨ ∃ ok, c.reply = .returned ok
  success : c.reply = .returned true → c.accepted ++ c.stream.unsent = st.unsent ++ src
  /-- Unless the flush of the buffer failed midway, no byte is both accepted and kept. -/
  once : c.reply ≠ .blocked → ¬ midway → (c.accepted ++ c.stream.unsent).Sublist (st.unsent ++ src)

section Effects

variable {st : FileStream} {src : List UInt8} {script : List Response}

theorem unsent_of_mode (h : st.mode ≠ .read) : st.unsent = st.buffer.take st.pos := if_neg h

theorem length_store (h : st.pos + src.length ≤ st.buffer.length) :
    (st.store src).buffer.length = st.buffer.length := by
  simp only [store, List.length_append, List.length_take, List.length_drop]
  omega

theorem unsent_store (hmode : st.mode ≠ .read) (h : st.pos ≤ st.buffer.length) :
    (st.store src).unsent = st.unsent ++ src := by
  have hmode' : (st.store src).mode ≠ .read := hmode
  rw [unsent_of_mode hmode', unsent_of_mode hmode]
  exact List.take_left' (by simp [store, h])

theorem flushBuffer_effect (script : List Response) (hmode : st.mode ≠ .read)
    (hfit : st.pos ≤ st.buffer.length) :
    Effect st [] (FailsMidway script st.pos) (st.flushBuffer script) := by
  have hlen : (st.buffer.take st.pos).length = st.pos := by simp [hfit]
  rcases flushBuffer_cases st script with ⟨script', hc⟩ | ⟨err, script', acc, hc, hpre, hmid⟩ |
    ⟨script', acc, hc, hpre⟩
  · rw [hc]
    refine ⟨rfl, rfl, Nat.zero_le _, ?_, .inr ⟨true, rfl⟩, ?_, ?_⟩ <;>
      simp [unsent, hmode]
  · rw [hlen] at hmid
    rw [hc]
    refine ⟨rfl, rfl, hfit, ?_, .inr ⟨false, rfl⟩, nofun, fun _ hnot => ?_⟩
    · simpa [unsent, hmode] using hpre
    · have hnil : acc = [] := by
        by_contra hne
        exact hnot (hmid hne)
      simp [hnil, unsent, hmode]
  · rw [hc]
    refine ⟨rfl, rfl, hfit, ?_, .inl rfl, nofun, fun hne => absurd rfl hne⟩
    simpa [unsent, hmode] using hpre

theorem writeThrough_effect (hpos : st.pos = 0) :
    Effect st src False (writeThrough src st script) := by
  obtain ⟨rest, hacc, hdone⟩ := osWriteAllFrom_accepts src script 0
  rw [List.drop_zero] at hacc
  have hnone : st.unsent = [] := by simp [unsent, hpos]
  have hpre : (osWriteAllFrom src script 0).accepted <+: st.unsent ++ src := by
    rw [hnone]
    exact ⟨rest, hacc.symm⟩
  rw [writeThrough, osWriteAll]
  cases hout : (osWriteAllFrom src script 0).outcome with
  | done =>
    rw [hdone hout, List.append_nil] at hacc
    refine ⟨rfl, rfl, by simp [hpos], hpre, .inr ⟨true, rfl⟩, ?_, ?_⟩ <;>
      simp [hnone, ← hacc]
  | failed err =>
    have hnone' : ({ st with error := err } : FileStream).unsent = [] := hnone
    refine ⟨rfl, rfl, by simp [hpos], hpre, .inr ⟨false, rfl⟩, nofun, fun _ _ => ?_⟩
    rw [hnone', List.append_nil]
    exact hpre.sublist
  | blocked => exact ⟨rfl, rfl, by simp [hpos], hpre, .inl rfl, nofun, fun hne => absurd rfl hne⟩

theorem store_effect (hmode : st.mode ≠ .read) (h : st.pos + src.length ≤ st.buffer.length) :
    Effect st src False ⟨.returned true, st.store src, [], script⟩ := by
  have hun : (st.store src).unsent = st.unsent ++ src := unsent_store hmode (by omega)
  refine ⟨rfl, rfl, ?_, List.nil_prefix, .inr ⟨true, rfl⟩, fun _ => hun, fun _ _ => ?_⟩
  · rw [length_store h]
    exact h
  · rw [hun, List.nil_append]

/-- A flush that succeeded has handed over what waited; what follows starts from there. -/
theorem Effect.andThen {midway : Prop} {c : Call} (h : Effect st [] midway c)
    {next : FileStream → List Response → Call}
    (hnext : c.reply = .returned true → Effect c.stream src False (next c.stream c.script)) :
    Effect st src midway (c.andThen next) := by
  unfold Call.andThen
  split
  · next hreply =>
    obtain ⟨hh, hm, hf, hacc, hret, hsucc, honce⟩ := hnext hreply
    have hall : c.accepted ++ c.stream.unsent = st.unsent := by simpa using h.success hreply
    refine ⟨hh.trans h.handle, hm.trans h.mode, hf, ?_, hret, fun hr => ?_, fun hr _ => ?_⟩
    · rw [← hall, List.append_assoc]
      exact (List.prefix_append_right_inj _).2 hacc
    · rw [← hall, List.append_assoc, List.append_assoc]
      exact congrArg _ (hsucc hr)
    · rw [← hall, List.append_assoc, List.append_assoc]
      exact (honce hr not_false).append_left _
  · next hreply =>
    have hacc : c.accepted <+: st.unsent := by simpa using h.accepted
    refine ⟨h.handle, h.mode, h.fits, hacc.trans (List.prefix_append _ _), h.returned,
      fun hr => absurd hr hreply, fun hr hmid => ?_⟩
    have honce : (c.accepted ++ c.stream.unsent).Sublist st.unsent := by simpa using h.once hr hmid
    exact honce.trans (List.sublist_append_left _ _)

theorem Effect.mono {midway midway' : Prop} {c : Call} (h : Effect st src midway c)
    (himp : midway → midway') : Effect st src midway' c :=
  { h with once := fun hr hnot => h.once hr fun hmid => hnot (himp hmid) }

/-- After a successful flush the buffer is empty and otherwise as before. -/
theorem flushBuffer_stream (h : (st.flushBuffer script).reply = .returned true) :
    (st.flushBuffer script).stream = { st with pos := 0 } := by
  rcases flushBuffer_cases st script with ⟨_, hc⟩ | ⟨_, _, _, hc, -⟩ | ⟨_, _, hc, -⟩ <;>
    rw [hc] at h ⊢
  · cases h
  · cases h

/-- **`write`.** -/
theorem write_effect (src : List UInt8) (script : List Response) (hopen : st.handle ≠ none)
    (hmode : st.mode ≠ .read) (hfit : st.pos ≤ st.buffer.length) :
    Effect st src (st.flushesFor src ∧ FailsMidway script st.pos) (write src st script) := by
  have hflush := flushBuffer_effect script hmode hfit
  unfold write
  rw [if_neg hopen, if_neg hmode]
  split_ifs with hbig hfull
  · refine (hflush.andThen fun hr => ?_).mono fun hmid => ⟨.inl hbig, hmid⟩
    rw [flushBuffer_stream hr]
    exact writeThrough_effect rfl
  · refine (hflush.andThen fun hr => ?_).mono fun hmid => ⟨.inr hfull, hmid⟩
    rw [flushBuffer_stream hr]
    exact store_effect hmode (by simpa using Nat.le_of_not_ge hbig)
  · exact (store_effect hmode (Nat.le_of_not_gt hfull)).mono False.elim

/-- **`flush`.** -/
theorem flush_effect (script : List Response) (hopen : st.handle ≠ none) (hmode : st.mode ≠ .read)
    (hfit : st.pos ≤ st.buffer.length) :
    Effect st [] (FailsMidway script st.pos) (st.flush script) := by
  unfold flush
  rw [if_neg hopen, if_neg hmode]
  exact flushBuffer_effect script hmode hfit

theorem flush_empties (hopen : st.handle ≠ none) (hmode : st.mode ≠ .read)
    (h : (st.flush script).reply = .returned true) : (st.flush script).stream.unsent = [] := by
  unfold flush at h ⊢
  rw [if_neg hopen, if_neg hmode] at h ⊢
  simp [flushBuffer_stream h, unsent]

/-- What a `close` of an open stream does. -/
structure Closes (st : FileStream) (c : Call) : Prop where
  accepted : c.accepted <+: st.unsent
  returned : c.reply = .blocked ∨
    (∃ ok, c.reply = .returned ok) ∧ c.stream.handle = none ∧ c.stream.pos = 0
  success : c.reply = .returned true → c.accepted = st.unsent

theorem finishClose_closes {c : Call} (answer : CloseResponse) (hacc : c.accepted <+: st.unsent)
    (hret : ∃ ok, c.reply = .returned ok)
    (hsucc : c.reply = .returned true → c.accepted = st.unsent) :
    Closes st (finishClose c answer) := by
  cases answer with
  | closed | interrupted => exact ⟨hacc, .inr ⟨hret, rfl, rfl⟩, hsucc⟩
  | failed err => exact ⟨hacc, .inr ⟨⟨false, rfl⟩, rfl, rfl⟩, nofun⟩

/-- **`close`.** -/
theorem close_closes (answer : CloseResponse) (script : List Response) (hopen : st.handle ≠ none)
    (hfit : st.pos ≤ st.buffer.length) : Closes st (close answer st script) := by
  unfold close
  rw [if_neg hopen]
  by_cases hmode : st.mode = .read
  · have hnone : st.unsent = [] := if_pos hmode
    rw [if_pos hmode, if_neg nofun]
    exact finishClose_closes answer List.nil_prefix ⟨true, rfl⟩ fun _ => hnone.symm
  · have he := flushBuffer_effect script hmode hfit
    have hacc : (st.flushBuffer script).accepted <+: st.unsent := by simpa using he.accepted
    rw [if_neg hmode]
    dsimp only
    split_ifs with hblocked
    · exact ⟨hacc, .inl hblocked, fun hr => by rw [hblocked] at hr; cases hr⟩
    · refine finishClose_closes answer hacc (he.returned.resolve_left hblocked) fun hr => ?_
      have := he.success hr
      simpa [flushBuffer_stream hr, unsent] using this

/-! ### Enough answers -/

/-- A call that used no more answers than it had bytes accepted. -/
structure Pays (script : List Response) (c : Call) : Prop where
  suffix : c.script <:+ script
  budget : budget script ≤ budget c.script + c.accepted.length

theorem flushBuffer_total (st : FileStream) (hok : ∀ err, .failed err ∉ script)
    (hb : st.pos ≤ budget script) :
    (st.flushBuffer script).reply = .returned true ∧ Pays script (st.flushBuffer script) := by
  unfold flushBuffer
  split_ifs with hpos
  · exact ⟨rfl, List.suffix_rfl, Nat.le_add_right _ _⟩
  · have hlen : (st.buffer.take st.pos).length ≤ 0 + budget script := by
      have := List.length_take_le st.pos st.buffer
      omega
    obtain ⟨hdone, hsuf, hbud⟩ := osWriteAllFrom_total hok 0 hlen
    rw [osWriteAll]
    simp only [hdone]
    exact ⟨trivial, hsuf, hbud⟩

theorem writeThrough_total (hok : ∀ err, .failed err ∉ script) (hb : src.length ≤ budget script) :
    (writeThrough src st script).reply = .returned true ∧
      Pays script (writeThrough src st script) := by
  have hlen : src.length ≤ 0 + budget script := by omega
  obtain ⟨hdone, hsuf, hbud⟩ := osWriteAllFrom_total hok 0 hlen
  rw [writeThrough, osWriteAll]
  simp only [hdone]
  exact ⟨trivial, hsuf, hbud⟩

theorem Pays.andThen {c : Call} (h : Pays script c) (hr : c.reply = .returned true)
    {next : FileStream → List Response → Call}
    (hnext : (next c.stream c.script).reply = .returned true ∧
      Pays c.script (next c.stream c.script)) :
    (c.andThen next).reply = .returned true ∧ Pays script (c.andThen next) := by
  obtain ⟨hreply, hsuf, hbud⟩ := hnext
  unfold Call.andThen
  simp only [hr]
  refine ⟨hreply, hsuf.trans h.suffix, ?_⟩
  have := h.budget
  simp only [List.length_append]
  omega

theorem write_total (src : List UInt8) (hok : ∀ err, .failed err ∉ script)
    (hopen : st.handle ≠ none) (hmode : st.mode ≠ .read)
    (hb : st.unsent.length + src.length ≤ budget script) (hfit : st.pos ≤ st.buffer.length) :
    (write src st script).reply = .returned true ∧ Pays script (write src st script) := by
  have hlen : st.unsent.length = st.pos := by simp [unsent_of_mode hmode, hfit]
  obtain ⟨hr, hpays⟩ := flushBuffer_total st hok (by omega)
  have hok' : ∀ err, .failed err ∉ (st.flushBuffer script).script := fun err hmem =>
    hok err (hpays.suffix.subset hmem)
  have hacc : (st.flushBuffer script).accepted.length ≤ st.pos := by
    have := (flushBuffer_effect script hmode hfit).accepted.length_le
    rw [List.append_nil] at this
    omega
  unfold write
  rw [if_neg hopen, if_neg hmode]
  split_ifs
  · have := hpays.budget
    exact hpays.andThen hr (writeThrough_total hok' (by omega))
  · exact hpays.andThen hr ⟨rfl, List.suffix_rfl, Nat.le_add_right _ _⟩
  · exact ⟨rfl, List.suffix_rfl, Nat.le_add_right _ _⟩

theorem flush_total (hok : ∀ err, .failed err ∉ script) (hopen : st.handle ≠ none)
    (hmode : st.mode ≠ .read) (hb : st.unsent.length ≤ budget script)
    (hfit : st.pos ≤ st.buffer.length) :
    (st.flush script).reply = .returned true ∧ Pays script (st.flush script) := by
  have hlen : st.unsent.length = st.pos := by simp [unsent_of_mode hmode, hfit]
  unfold flush
  rw [if_neg hopen, if_neg hmode]
  exact flushBuffer_total st hok (by omega)

@[simp] theorem finishClose_accepted (c : Call) (answer : CloseResponse) :
    (finishClose c answer).accepted = c.accepted := by
  cases answer <;> rfl

@[simp] theorem finishClose_script (c : Call) (answer : CloseResponse) :
    (finishClose c answer).script = c.script := by
  cases answer <;> rfl

theorem close_total (st : FileStream) (answer : CloseResponse) (hok : ∀ err, .failed err ∉ script)
    (hopen : st.handle ≠ none) (hb : st.unsent.length ≤ budget script)
    (hfit : st.pos ≤ st.buffer.length) :
    (close answer st script).reply ≠ .blocked ∧
      (close answer st script).accepted = st.unsent ∧ Pays script (close answer st script) := by
  -- the flush succeeds, whatever `::close` answers afterwards
  have hflushed : ∀ c : Call, c.reply = .returned true → c.accepted = st.unsent → Pays script c →
      (finishClose c answer).reply ≠ .blocked ∧
        (finishClose c answer).accepted = st.unsent ∧ Pays script (finishClose c answer) := by
    intro c hr hacc hpays
    refine ⟨?_, by rw [finishClose_accepted, hacc], ?_⟩
    · cases answer <;> simp [finishClose, hr]
    · exact ⟨by rw [finishClose_script]; exact hpays.suffix,
        by rw [finishClose_script, finishClose_accepted]; exact hpays.budget⟩
  unfold close
  rw [if_neg hopen]
  by_cases hmode : st.mode = .read
  · rw [if_pos hmode, if_neg nofun]
    exact hflushed _ rfl (if_pos hmode).symm ⟨List.suffix_rfl, Nat.le_add_right _ _⟩
  · have hlen : st.unsent.length = st.pos := by simp [unsent_of_mode hmode, hfit]
    obtain ⟨hr, hpays⟩ := flushBuffer_total st hok (by omega)
    have hacc : (st.flushBuffer script).accepted = st.unsent := by
      have := (flushBuffer_effect script hmode hfit).success hr
      simpa [flushBuffer_stream hr, unsent] using this
    rw [if_neg hmode]
    dsimp only
    rw [if_neg (by simp [hr])]
    exact hflushed _ hr hacc hpays

end Effects

end FileStream

end EglUtil
