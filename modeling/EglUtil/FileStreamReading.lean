import EglUtil.FileStream
import Mathlib.Data.PNat.Defs

/-!
# `FileStream`: the reading side

`read` and `read_line` share one window into the owned buffer and refill it from the descriptor.
The operating system is a script of answers, one for each `::read`; a call that finds the script
empty has not returned yet.

What a call can see of the script is its *source*: the bytes the answers deliver up to the first
answer that stops the loop, an end of file or an error, and that answer (`upcoming`). The window
followed by those bytes is what the calls consume (`ahead`); how the bytes are cut into answers,
and how large the buffer is, no longer shows. `readLoop_spec` and `lineLoop_spec` say so, each by
one induction on the iterations of its loop, from `refill_spec`.
-/

namespace EglUtil

namespace FileStream

/-! ## The operating system -/

/-- The answer to one `::read`. -/
inductive ReadResponse where
  /-- `EINTR` -/
  | interrupted
  /-- At most as many bytes as were asked for; none at the end of the file. -/
  | delivered (bytes : List UInt8)
  | failed (err : ℕ+)
deriving DecidableEq

/-- The answers to come, all bytes delivered so far, and the number of errors reported. -/
structure ReadSystem where
  script : List ReadResponse
  delivered : List UInt8
  errors : Nat
deriving DecidableEq

/-- `os_read`: an error, or the bytes, none of them at the end of the file. -/
def osRead (size : Nat) :
    List ReadResponse → Option (Except ℕ+ (List UInt8) × List ReadResponse)
  | [] => none
  | .interrupted :: rest => osRead size rest
  | .failed err :: rest => some (.error err, rest)
  | .delivered bytes :: rest => some (.ok (bytes.take size), rest)

/-! ## The calls -/

/-- The bytes of the buffer that have not been served. -/
def unread (st : FileStream) : List UInt8 := (st.buffer.drop st.pos).take (st.len - st.pos)

/-- `fill_buffer`: whether at least one byte is now available. -/
def fillBuffer (st : FileStream) (sys : ReadSystem) : Option (Bool × FileStream × ReadSystem) :=
  match osRead st.buffer.length sys.script with
  | none => none
  | some (.error err, script) =>
    some (false, { st with pos := 0, len := 0, error := err },
      { sys with script := script, errors := sys.errors + 1 })
  | some (.ok [], script) =>
    some (false, { st with pos := 0, len := 0, eof := true }, { sys with script := script })
  | some (.ok (b :: bytes), script) =>
    some (true, { st with
      buffer := (b :: bytes) ++ st.buffer.drop (b :: bytes).length
      pos := 0
      len := (b :: bytes).length },
      { sys with script := script, delivered := sys.delivered ++ (b :: bytes) })

/-- `buffer_pos_ >= buffer_len_ && !fill_buffer()`, negated. -/
def refill (st : FileStream) (sys : ReadSystem) : Option (Bool × FileStream × ReadSystem) :=
  if st.pos ≥ st.len then fillBuffer st sys else some (true, st, sys)

/-- The loop of `read`; every iteration but the last serves at least one byte, so `fuel` counts
the bytes still wanted. -/
def readLoop (want : Nat) : Nat → FileStream → List UInt8 → ReadSystem →
    Option (List UInt8 × FileStream × ReadSystem)
  | 0, st, got, sys => some (got, st, sys)
  | fuel + 1, st, got, sys =>
    if got.length < want then
      match refill st sys with
      | none => none
      | some (false, st, sys) => some (got, st, sys)
      | some (true, st, sys) =>
        let take := min (st.len - st.pos) (want - got.length)
        readLoop want fuel { st with pos := st.pos + take }
          (got ++ (st.buffer.drop st.pos).take take) sys
    else some (got, st, sys)

def newline : UInt8 := 10

def carriageReturn : UInt8 := 13

/-- The loop of `read_line`: whether it found a newline, and the line so far. Every iteration but
the first refills the buffer. -/
def lineLoop : Nat → FileStream → List UInt8 → ReadSystem →
    Option (Bool × List UInt8 × FileStream × ReadSystem)
  | 0, _, _, _ => none
  | fuel + 1, st, line, sys =>
    match refill st sys with
    | none => none
    | some (false, st, sys) => some (false, line, st, sys)
    | some (true, st, sys) =>
      let window := st.unread
      let count := window.idxOf newline
      if count < window.length then
        some (true, line ++ window.take count, { st with pos := st.pos + count + 1 }, sys)
      else lineLoop fuel { st with pos := st.pos + count } (line ++ window.take count) sys

inductive ReadReply where
  | nullopt
  | bytes (got : List UInt8)
  /-- A line, and the terminator that was consumed with it. -/
  | line (text terminator : List UInt8)
  /-- `std::logic_error` -/
  | threw (what : String)
deriving Repr, DecidableEq

def read (want : Nat) (st : FileStream) (sys : ReadSystem) :
    Option (ReadReply × FileStream × ReadSystem) :=
  if st.handle = none then some (.nullopt, st, sys)
  else if st.mode ≠ .read then
    some (.threw "FileStream::read on a stream not opened for reading", st, sys)
  else
    match readLoop want want st [] sys with
    | none => none
    | some (got, st, sys) =>
      if got = [] ∧ st.error ≠ 0 then some (.nullopt, st, sys) else some (.bytes got, st, sys)

/-- A terminated line: `\r\n` is folded into `\n`. -/
def foldLine (line : List UInt8) : ReadReply :=
  if line.getLast? = some carriageReturn then .line line.dropLast [carriageReturn, newline]
  else .line line [newline]

def readLine (st : FileStream) (sys : ReadSystem) : Option (ReadReply × FileStream × ReadSystem) :=
  if st.handle = none then some (.nullopt, st, sys)
  else if st.mode ≠ .read then
    some (.threw "FileStream::read_line on a stream not opened for reading", st, sys)
  else
    match lineLoop (sys.script.length + 1) st [] sys with
    | none => none
    | some (true, line, st, sys) => some (foldLine line, st, sys)
    | some (false, line, st, sys) =>
      if st.error ≠ 0 then some (.nullopt, st, sys)
      else if line = [] then some (.nullopt, st, sys)
      else some (.line line [], st, sys)

inductive ReadCall where
  | read (want : Nat)
  | readLine
deriving Repr, DecidableEq

def ReadCall.perform (c : ReadCall) (st : FileStream) (sys : ReadSystem) :
    Option (ReadReply × FileStream × ReadSystem) :=
  match c with
  | .read want => FileStream.read want st sys
  | .readLine => FileStream.readLine st sys

/-! ## The source of bytes -/

/-- The answers that stop a loop. -/
inductive Halt where
  | eof
  | failed (err : ℕ+)
deriving DecidableEq

/-- The bytes delivered before the next end of file or error, and that answer with the script
behind it. -/
def upcoming (size : Nat) : List ReadResponse → List UInt8 × Option (Halt × List ReadResponse)
  | [] => ([], none)
  | .interrupted :: rest => upcoming size rest
  | .failed err :: rest => ([], some (.failed err, rest))
  | .delivered bytes :: rest =>
    match bytes.take size with
    | [] => ([], some (.eof, rest))
    | b :: bytes => ((b :: bytes) ++ (upcoming size rest).1, (upcoming size rest).2)

/-- What the calls will see before the next end of file or error. -/
def ahead (st : FileStream) (script : List ReadResponse) : List UInt8 :=
  st.unread ++ (upcoming st.buffer.length script).1

def halt (st : FileStream) (script : List ReadResponse) : Option (Halt × List ReadResponse) :=
  (upcoming st.buffer.length script).2

/-- The window lies inside the buffer. -/
structure Fits (st : FileStream) : Prop where
  window : st.pos ≤ st.len
  buffer : st.len ≤ st.buffer.length

/-- What the stream becomes when a loop stops. -/
def stopped (st : FileStream) : Halt → FileStream
  | .eof => { st with pos := 0, len := 0, eof := true }
  | .failed err => { st with pos := 0, len := 0, error := err }

/-- The number of errors an answer reports. -/
def Halt.errors : Halt → Nat
  | .eof => 0
  | .failed _ => 1

/-! ## Refilling -/

/-- `os_read` skips the interruptions, and its answer is the first one of the source. -/
theorem osRead_spec (size : Nat) (script : List ReadResponse) :
    match osRead size script with
    | none => upcoming size script = ([], none)
    | some (.error err, rest) =>
      upcoming size script = ([], some (.failed err, rest)) ∧ rest.length < script.length
    | some (.ok [], rest) =>
      upcoming size script = ([], some (.eof, rest)) ∧ rest.length < script.length
    | some (.ok (b :: bytes), rest) =>
      upcoming size script = ((b :: bytes) ++ (upcoming size rest).1, (upcoming size rest).2) ∧
        (b :: bytes).length ≤ size ∧ rest.length < script.length := by
  induction script with
  | nil => rfl
  | cons r rest ih =>
    cases r with
    | interrupted =>
      simp only [osRead, upcoming]
      split <;> simp_all <;> omega
    | failed err => simp [osRead, upcoming]
    | delivered bytes =>
      simp only [osRead, upcoming]
      cases htake : bytes.take size with
      | nil => simp
      | cons b bytes' =>
        refine ⟨rfl, ?_, Nat.lt_succ_self _⟩
        rw [← htake]
        exact List.length_take_le _ _

/-- The stream is the same up to its window, and sees the same source behind what was
consumed. -/
structure Follows (st : FileStream) (sys : ReadSystem) (st' : FileStream) (sys' : ReadSystem) :
    Prop where
  fits : st'.Fits
  handle : st'.handle = st.handle
  mode : st'.mode = st.mode
  size : st'.buffer.length = st.buffer.length
  error : st'.error = st.error
  halt : st'.halt sys'.script = st.halt sys.script
  delivered : sys'.delivered ++ (upcoming st'.buffer.length sys'.script).1 =
    sys.delivered ++ (upcoming st.buffer.length sys.script).1
  errors : sys'.errors = sys.errors

/-- The ways a refill can go. -/
inductive Refills (st : FileStream) (sys : ReadSystem) :
    Option (Bool × FileStream × ReadSystem) → Prop where
  | blocked (hahead : st.ahead sys.script = []) (hhalt : st.halt sys.script = none) :
      Refills st sys none
  | stopped {h : Halt} {rest : List ReadResponse} (hahead : st.ahead sys.script = [])
      (hhalt : st.halt sys.script = some (h, rest)) :
      Refills st sys (some (false, st.stopped h,
        { sys with script := rest, errors := sys.errors + h.errors }))
  | ready {st' : FileStream} {sys' : ReadSystem} (hfollows : Follows st sys st' sys')
      (hpos : st'.pos < st'.len) (hahead : st'.ahead sys'.script = st.ahead sys.script)
      (hfuel : sys'.script.length + 1 ≤
        sys.script.length + if st.pos < st.len then 1 else 0) :
      Refills st sys (some (true, st', sys'))

theorem unread_eq_nil {st : FileStream} (h : st.len ≤ st.pos) : st.unread = [] := by
  rw [unread, Nat.sub_eq_zero_of_le h, List.take_zero]

theorem length_unread {st : FileStream} (h : st.Fits) : st.unread.length = st.len - st.pos := by
  have hbuffer := h.buffer
  rw [unread, List.length_take, List.length_drop]
  omega

theorem refill_cases {st : FileStream} (sys : ReadSystem) (hfit : st.Fits) :
    Refills st sys (st.refill sys) := by
  unfold refill
  split_ifs with hpos
  · have hnone : st.unread = [] := unread_eq_nil hpos
    have hspec := osRead_spec st.buffer.length sys.script
    unfold fillBuffer
    generalize osRead st.buffer.length sys.script = answer at hspec
    rcases answer with _ | ⟨err | (_ | ⟨b, bytes⟩), rest⟩
    · exact .blocked (by rw [ahead, hnone, hspec]; rfl) (by rw [halt, hspec])
    · exact .stopped (by rw [ahead, hnone, hspec.1]; rfl) (by rw [halt, hspec.1])
    · exact .stopped (by rw [ahead, hnone, hspec.1]; rfl) (by rw [halt, hspec.1])
    · obtain ⟨hup, hsize, hrest⟩ := hspec
      have hlen : ((b :: bytes) ++ st.buffer.drop (b :: bytes).length).length =
          st.buffer.length := by
        rw [List.length_append, List.length_drop]
        omega
      refine .ready ⟨⟨Nat.zero_le _, by dsimp only; omega⟩, rfl, rfl, hlen, rfl, ?_, ?_, rfl⟩
        (Nat.succ_pos _) ?_ ?_
      · simp only [halt, hlen, hup]
      · simp only [hlen, hup, List.append_assoc]
      · rw [ahead, ahead, hnone, hup, List.nil_append]
        simp only [hlen, unread, List.drop_zero, Nat.sub_zero, List.take_left]
      · dsimp only
        omega
  · have hlt : st.pos < st.len := Nat.lt_of_not_ge hpos
    refine .ready ⟨hfit, rfl, rfl, rfl, rfl, rfl, rfl, rfl⟩ hlt rfl ?_
    rw [if_pos hlt]

/-! ## The loops -/

theorem Follows.trans {st₁ st₂ st₃ : FileStream} {sys₁ sys₂ sys₃ : ReadSystem}
    (h : Follows st₁ sys₁ st₂ sys₂) (h' : Follows st₂ sys₂ st₃ sys₃) :
    Follows st₁ sys₁ st₃ sys₃ where
  fits := h'.fits
  handle := h'.handle.trans h.handle
  mode := h'.mode.trans h.mode
  size := h'.size.trans h.size
  error := h'.error.trans h.error
  halt := h'.halt.trans h.halt
  delivered := h'.delivered.trans h.delivered
  errors := h'.errors.trans h.errors

/-- Serving `k` bytes of the window. -/
theorem advance {st : FileStream} (sys : ReadSystem) (hfit : st.Fits) {k : Nat}
    (hk : k ≤ st.len - st.pos) :
    Follows st sys { st with pos := st.pos + k } sys ∧
      ({ st with pos := st.pos + k } : FileStream).ahead sys.script =
        (st.ahead sys.script).drop k := by
  obtain ⟨hwindow, hbuffer⟩ := hfit
  refine ⟨⟨⟨?_, hbuffer⟩, rfl, rfl, rfl, rfl, rfl, rfl, rfl⟩, ?_⟩
  · dsimp only
    omega
  · have hle : k ≤ st.unread.length := by
      rw [length_unread ⟨hwindow, hbuffer⟩]
      exact hk
    rw [ahead, ahead, List.drop_append_of_le_length hle]
    congr 1
    simp only [unread, List.drop_take, List.drop_drop]
    congr 1
    omega

theorem take_unread {st : FileStream} {script : List ReadResponse} (hfit : st.Fits) {k : Nat}
    (hk : k ≤ st.len - st.pos) :
    (st.buffer.drop st.pos).take k = (st.ahead script).take k := by
  have hle : k ≤ st.unread.length := by
    rw [length_unread hfit]
    exact hk
  rw [ahead, List.take_append_of_le_length hle, unread, List.take_take, Nat.min_eq_left hk]

/-- What a loop that stopped leaves. -/
structure Stopped (st : FileStream) (h : Halt) (st' : FileStream) : Prop where
  fits : st'.Fits
  unread : st'.unread = []
  handle : st'.handle = st.handle
  mode : st'.mode = st.mode
  size : st'.buffer.length = st.buffer.length
  error : st'.error = match h with
    | .eof => st.error
    | .failed err => err

theorem stopped_stopped (st : FileStream) (h : Halt) : Stopped st h (st.stopped h) := by
  cases h <;> exact ⟨⟨Nat.le_refl _, Nat.zero_le _⟩, unread_eq_nil (Nat.le_refl _),
    rfl, rfl, rfl, rfl⟩

theorem Stopped.of_follows {st₁ st₂ st₃ : FileStream} {sys₁ sys₂ : ReadSystem} {h : Halt}
    (hf : Follows st₁ sys₁ st₂ sys₂) (hs : Stopped st₂ h st₃) : Stopped st₁ h st₃ where
  fits := hs.fits
  unread := hs.unread
  handle := hs.handle.trans hf.handle
  mode := hs.mode.trans hf.mode
  size := hs.size.trans hf.size
  error := by
    rw [hs.error, hf.error]

/-- How the loop of `read` ends when `want` bytes are still wanted. -/
inductive ReadEnds (want : Nat) (st : FileStream) (got : List UInt8) (sys : ReadSystem) :
    Option (List UInt8 × FileStream × ReadSystem) → Prop where
  | full {st' : FileStream} {sys' : ReadSystem} (hle : want ≤ (st.ahead sys.script).length)
      (hfollows : Follows st sys st' sys')
      (hahead : st'.ahead sys'.script = (st.ahead sys.script).drop want) :
      ReadEnds want st got sys (some (got ++ (st.ahead sys.script).take want, st', sys'))
  | stopped {h : Halt} {rest : List ReadResponse} {st' : FileStream} {sys' : ReadSystem}
      (hlt : (st.ahead sys.script).length < want) (hhalt : st.halt sys.script = some (h, rest))
      (hst' : Stopped st h st') (hscript : sys'.script = rest)
      (hdelivered : sys'.delivered = sys.delivered ++ (upcoming st.buffer.length sys.script).1)
      (herrors : sys'.errors = sys.errors + h.errors) :
      ReadEnds want st got sys (some (got ++ st.ahead sys.script, st', sys'))
  | blocked (hlt : (st.ahead sys.script).length < want) (hhalt : st.halt sys.script = none) :
      ReadEnds want st got sys none

/-- Bytes served before the rest of the loop. -/
theorem ReadEnds.serve {want k : Nat} {st st' : FileStream} {got : List UInt8}
    {sys sys' : ReadSystem} {result : Option (List UInt8 × FileStream × ReadSystem)}
    (hfollows : Follows st sys st' sys')
    (hahead : st'.ahead sys'.script = (st.ahead sys.script).drop k)
    (hk : k ≤ want) (hlen : k ≤ (st.ahead sys.script).length)
    (h : ReadEnds (want - k) st' (got ++ (st.ahead sys.script).take k) sys' result) :
    ReadEnds want st got sys result := by
  have hsplit : (st.ahead sys.script).take k ++ st'.ahead sys'.script = st.ahead sys.script := by
    rw [hahead, List.take_append_drop]
  have hdiff : (st'.ahead sys'.script).length = (st.ahead sys.script).length - k := by
    rw [hahead, List.length_drop]
  cases h with
  | @full st'' sys'' hle hfollows' hahead' =>
    have hbytes : got ++ (st.ahead sys.script).take k ++ (st'.ahead sys'.script).take (want - k) =
        got ++ (st.ahead sys.script).take want := by
      rw [List.append_assoc, hahead, ← List.take_add, Nat.add_sub_cancel' hk]
    rw [hbytes]
    refine .full (by omega) (hfollows.trans hfollows') ?_
    rw [hahead', hahead, List.drop_drop, Nat.add_sub_cancel' hk]
  | @stopped h rest st'' sys'' hlt hhalt hst'' hscript hdelivered herrors =>
    rw [List.append_assoc, hsplit]
    exact .stopped (by omega) (hfollows.halt ▸ hhalt) (.of_follows hfollows hst'') hscript
      (hdelivered.trans hfollows.delivered) (by rw [herrors, hfollows.errors])
  | blocked hlt hhalt => exact .blocked (by omega) (hfollows.halt ▸ hhalt)

theorem ReadEnds.done {st : FileStream} (hfit : st.Fits) (got : List UInt8) (sys : ReadSystem) :
    ReadEnds 0 st got sys (some (got, st, sys)) := by
  have hfull : ReadEnds 0 st got sys (some (got ++ (st.ahead sys.script).take 0, st, sys)) :=
    .full (Nat.zero_le _) ⟨hfit, rfl, rfl, rfl, rfl, rfl, rfl, rfl⟩ List.drop_zero.symm
  rwa [List.take_zero, List.append_nil] at hfull

/-- **`read`'s loop.** It serves the bytes ahead, up to what is wanted or to the end of the
source. -/
theorem readLoop_spec {want fuel : Nat} {st : FileStream} {got : List UInt8} {sys : ReadSystem}
    (hfit : st.Fits) (hgot : got.length ≤ want) (hfuel : want ≤ got.length + fuel) :
    ReadEnds (want - got.length) st got sys (readLoop want fuel st got sys) := by
  induction fuel generalizing st got sys with
  | zero =>
    rw [show want - got.length = 0 by omega]
    exact .done hfit got sys
  | succ fuel ih =>
    rw [readLoop]
    split_ifs with hlt
    · have hrefill := refill_cases sys hfit
      generalize st.refill sys = filled at hrefill
      cases hrefill with
      | blocked hahead hhalt =>
        exact .blocked (by rw [hahead, List.length_nil]; omega) hhalt
      | @stopped h rest hahead hhalt =>
        have hnil : (upcoming st.buffer.length sys.script).1 = [] :=
          (List.append_eq_nil_iff.1 hahead).2
        have hend : ReadEnds (want - got.length) st got sys
            (some (got ++ st.ahead sys.script, st.stopped h,
            { sys with script := rest, errors := sys.errors + h.errors })) :=
          .stopped (by rw [hahead, List.length_nil]; omega) hhalt (stopped_stopped st h) rfl
            (by rw [hnil, List.append_nil]) rfl
        rwa [hahead, List.append_nil] at hend
      | @ready st' sys' hfollows hpos hahead _ =>
        dsimp only
        generalize hk : min (st'.len - st'.pos) (want - got.length) = k
        have hle : k ≤ st'.len - st'.pos := hk ▸ Nat.min_le_left _ _
        have hserved : k ≤ (st.ahead sys.script).length := by
          rw [← hahead, ahead, List.length_append, length_unread hfollows.fits]
          omega
        obtain ⟨hadvance, hdrop⟩ := advance sys' hfollows.fits hle
        rw [take_unread hfollows.fits hle, hahead]
        have hnew : (got ++ (st.ahead sys.script).take k).length = got.length + k := by
          rw [List.length_append, List.length_take, Nat.min_eq_left hserved]
        refine .serve (hfollows.trans hadvance) (hdrop.trans (by rw [hahead])) (by omega) hserved ?_
        rw [Nat.sub_sub, ← hnew]
        exact ih hadvance.fits (by omega) (by omega)
    · rw [show want - got.length = 0 by omega]
      exact .done hfit got sys

/-- How the loop of `read_line` ends. -/
inductive LineEnds (st : FileStream) (line : List UInt8) (sys : ReadSystem) :
    Option (Bool × List UInt8 × FileStream × ReadSystem) → Prop where
  | found {st' : FileStream} {sys' : ReadSystem} (hmem : newline ∈ st.ahead sys.script)
      (hfollows : Follows st sys st' sys')
      (hahead : st'.ahead sys'.script =
        (st.ahead sys.script).drop ((st.ahead sys.script).idxOf newline + 1)) :
      LineEnds st line sys (some (true,
        line ++ (st.ahead sys.script).take ((st.ahead sys.script).idxOf newline), st', sys'))
  | stopped {h : Halt} {rest : List ReadResponse} {st' : FileStream} {sys' : ReadSystem}
      (hmem : newline ∉ st.ahead sys.script) (hhalt : st.halt sys.script = some (h, rest))
      (hst' : Stopped st h st') (hscript : sys'.script = rest)
      (hdelivered : sys'.delivered = sys.delivered ++ (upcoming st.buffer.length sys.script).1)
      (herrors : sys'.errors = sys.errors + h.errors) :
      LineEnds st line sys (some (false, line ++ st.ahead sys.script, st', sys'))
  | blocked (hmem : newline ∉ st.ahead sys.script) (hhalt : st.halt sys.script = none) :
      LineEnds st line sys none

/-- A window without a newline is consumed before the rest of the loop. -/
theorem LineEnds.serve {k : Nat} {st st' : FileStream} {line : List UInt8}
    {sys sys' : ReadSystem} {result : Option (Bool × List UInt8 × FileStream × ReadSystem)}
    (hfollows : Follows st sys st' sys')
    (hahead : st'.ahead sys'.script = (st.ahead sys.script).drop k)
    (hlen : k ≤ (st.ahead sys.script).length) (hk : newline ∉ (st.ahead sys.script).take k)
    (h : LineEnds st' (line ++ (st.ahead sys.script).take k) sys' result) :
    LineEnds st line sys result := by
  have hsplit : (st.ahead sys.script).take k ++ st'.ahead sys'.script = st.ahead sys.script := by
    rw [hahead, List.take_append_drop]
  have hmem : newline ∈ st.ahead sys.script ↔ newline ∈ st'.ahead sys'.script := by
    rw [← hsplit, List.mem_append, or_iff_right hk]
  have hidx : (st.ahead sys.script).idxOf newline = k + (st'.ahead sys'.script).idxOf newline := by
    rw [← hsplit, List.idxOf_append_of_notMem hk, List.length_take, Nat.min_eq_left hlen]
  cases h with
  | @found st'' sys'' hmem' hfollows' hahead' =>
    have hbytes : line ++ (st.ahead sys.script).take k ++
        (st'.ahead sys'.script).take ((st'.ahead sys'.script).idxOf newline) =
        line ++ (st.ahead sys.script).take ((st.ahead sys.script).idxOf newline) := by
      rw [List.append_assoc, hidx, List.take_add, ← hahead]
    rw [hbytes]
    refine .found (hmem.2 hmem') (hfollows.trans hfollows') ?_
    rw [hahead', hahead, List.drop_drop, ← hahead, hidx, Nat.add_assoc]
  | @stopped h rest st'' sys'' hmem' hhalt hst'' hscript hdelivered herrors =>
    rw [List.append_assoc, hsplit]
    exact .stopped (mt hmem.1 hmem') (hfollows.halt ▸ hhalt) (.of_follows hfollows hst'') hscript
      (hdelivered.trans hfollows.delivered) (by rw [herrors, hfollows.errors])
  | blocked hmem' hhalt => exact .blocked (mt hmem.1 hmem') (hfollows.halt ▸ hhalt)

/-- **`read_line`'s loop.** It takes the bytes ahead up to a newline, or all of them. -/
theorem lineLoop_spec {fuel : Nat} {st : FileStream} {line : List UInt8} {sys : ReadSystem}
    (hfit : st.Fits)
    (hfuel : sys.script.length + (if st.pos < st.len then 1 else 0) ≤ fuel) :
    LineEnds st line sys (lineLoop fuel st line sys) := by
  induction fuel generalizing st line sys with
  | zero =>
    have hscript : sys.script = [] := List.length_eq_zero_iff.1 (by omega)
    have hpos : ¬ st.pos < st.len := by
      intro hlt
      rw [if_pos hlt] at hfuel
      omega
    have hahead : st.ahead sys.script = [] := by
      rw [ahead, unread_eq_nil (Nat.le_of_not_lt hpos), hscript]
      rfl
    rw [lineLoop]
    exact .blocked (by rw [hahead]; exact List.not_mem_nil) (by rw [halt, hscript]; rfl)
  | succ fuel ih =>
    rw [lineLoop]
    have hrefill := refill_cases sys hfit
    generalize st.refill sys = filled at hrefill
    cases hrefill with
    | blocked hahead hhalt => exact .blocked (by rw [hahead]; exact List.not_mem_nil) hhalt
    | @stopped h rest hahead hhalt =>
      have hnil : (upcoming st.buffer.length sys.script).1 = [] :=
        (List.append_eq_nil_iff.1 hahead).2
      have hend : LineEnds st line sys
          (some (false, line ++ st.ahead sys.script, st.stopped h,
            { sys with script := rest, errors := sys.errors + h.errors })) :=
        .stopped (by rw [hahead]; exact List.not_mem_nil) hhalt (stopped_stopped st h) rfl
          (by rw [hnil, List.append_nil]) rfl
      rwa [hahead, List.append_nil] at hend
    | @ready st' sys' hfollows hpos hahead hrest =>
      have hwindow := length_unread hfollows.fits
      have hsplit : st.ahead sys.script =
          st'.unread ++ (upcoming st'.buffer.length sys'.script).1 := hahead.symm
      dsimp only
      split_ifs with hcount
      · have hmem : newline ∈ st'.unread := List.idxOf_lt_length_iff.1 hcount
        have hidx : (st.ahead sys.script).idxOf newline = st'.unread.idxOf newline := by
          rw [hsplit, List.idxOf_append_of_mem hmem]
        have htake : st'.unread.take (st'.unread.idxOf newline) =
            (st.ahead sys.script).take ((st.ahead sys.script).idxOf newline) := by
          rw [hidx, hsplit, List.take_append_of_le_length hcount.le]
        obtain ⟨hadvance, hdrop⟩ :=
          advance (k := st'.unread.idxOf newline + 1) sys' hfollows.fits (by omega)
        rw [htake]
        refine .found (by rw [hsplit]; exact List.mem_append_left _ hmem)
          (hfollows.trans hadvance) ?_
        rw [hidx, ← hahead]
        exact hdrop
      · have hmem : newline ∉ st'.unread := fun hmem => hcount (List.idxOf_lt_length_iff.2 hmem)
        have hall : st'.unread.idxOf newline = st'.unread.length := List.idxOf_eq_length hmem
        have htake : st'.unread.take (st'.unread.idxOf newline) =
            (st.ahead sys.script).take st'.unread.length := by
          rw [hall, hsplit, List.take_left, List.take_length]
        obtain ⟨hadvance, hdrop⟩ := advance (k := st'.unread.length) sys' hfollows.fits (by omega)
        rw [htake, hall]
        refine .serve (hfollows.trans hadvance) (hdrop.trans (by rw [hahead])) ?_ ?_
          (ih hadvance.fits ?_)
        · rw [hsplit, List.length_append]
          omega
        · rw [hsplit, List.take_left]
          exact hmem
        · rw [if_neg (by dsimp only; omega)]
          omega

/-! ## The calls, by their source -/

/-- How many of the bytes ahead a call consumes, if they are enough for it. -/
def ReadCall.demand (bytes : List UInt8) : ReadCall → Option Nat
  | .read want => if want ≤ bytes.length then some want else none
  | .readLine => if newline ∈ bytes then some (bytes.idxOf newline + 1) else none

/-- The reply of a call that found enough bytes. -/
def ReadCall.served (error : Nat) (taken : List UInt8) : ReadCall → ReadReply
  | .read _ => if taken = [] ∧ error ≠ 0 then .nullopt else .bytes taken
  | .readLine => foldLine taken.dropLast

/-- The reply of a call that came to an end of file or an error, with `error` set accordingly. -/
def ReadCall.ended (error : Nat) (taken : List UInt8) : ReadCall → ReadReply
  | .read _ => if taken = [] ∧ error ≠ 0 then .nullopt else .bytes taken
  | .readLine =>
    if error ≠ 0 then .nullopt else if taken = [] then .nullopt else .line taken []

/-- The ways a call on an open read-mode stream can go. -/
inductive Reads (c : ReadCall) (st : FileStream) (sys : ReadSystem) :
    Option (ReadReply × FileStream × ReadSystem) → Prop where
  | served {k : Nat} {st' : FileStream} {sys' : ReadSystem}
      (hk : c.demand (st.ahead sys.script) = some k) (hfollows : Follows st sys st' sys')
      (hahead : st'.ahead sys'.script = (st.ahead sys.script).drop k) :
      Reads c st sys (some (c.served st.error ((st.ahead sys.script).take k), st', sys'))
  | ended {h : Halt} {st' : FileStream} {sys' : ReadSystem}
      (hk : c.demand (st.ahead sys.script) = none)
      (hhalt : st.halt sys.script = some (h, sys'.script)) (hst' : Stopped st h st')
      (hdelivered : sys'.delivered = sys.delivered ++ (upcoming st.buffer.length sys.script).1)
      (herrors : sys'.errors = sys.errors + h.errors) :
      Reads c st sys (some (c.ended st'.error (st.ahead sys.script), st', sys'))
  | blocked (hk : c.demand (st.ahead sys.script) = none) (hhalt : st.halt sys.script = none) :
      Reads c st sys none

theorem read_reads {want : Nat} {st : FileStream} {sys : ReadSystem} (hopen : st.handle ≠ none)
    (hmode : st.mode = .read) (hfit : st.Fits) :
    Reads (.read want) st sys (read want st sys) := by
  have hends : ReadEnds (want - ([] : List UInt8).length) st [] sys
      (readLoop want want st [] sys) :=
    readLoop_spec hfit (Nat.zero_le want) (Nat.le_add_left want 0)
  unfold read
  rw [if_neg hopen, if_neg (not_not_intro hmode)]
  rw [List.length_nil, Nat.sub_zero] at hends
  generalize readLoop want want st [] sys = result at hends
  cases hends with
  | @full st' sys' hle hfollows hahead =>
    have hserved : Reads (.read want) st sys
        (some (ReadCall.served st.error ((st.ahead sys.script).take want) (.read want), st',
          sys')) :=
      .served (if_pos hle) hfollows hahead
    simp only [List.nil_append, hfollows.error]
    simp only [ReadCall.served] at hserved
    split_ifs at hserved ⊢
    · exact hserved
    · exact hserved
  | @stopped h rest st' sys' hlt hhalt hst' hscript hdelivered herrors =>
    have hended : Reads (.read want) st sys
        (some (ReadCall.ended st'.error (st.ahead sys.script) (.read want), st', sys')) :=
      .ended (if_neg (Nat.not_le_of_lt hlt)) (by rw [hhalt, hscript]) hst' hdelivered herrors
    simp only [List.nil_append]
    simp only [ReadCall.ended] at hended
    split_ifs at hended ⊢
    · exact hended
    · exact hended
  | blocked hlt hhalt => exact .blocked (if_neg (Nat.not_le_of_lt hlt)) hhalt

theorem readLine_reads {st : FileStream} {sys : ReadSystem} (hopen : st.handle ≠ none)
    (hmode : st.mode = .read) (hfit : st.Fits) :
    Reads .readLine st sys (readLine st sys) := by
  have hfuel : sys.script.length + (if st.pos < st.len then 1 else 0) ≤ sys.script.length + 1 := by
    split_ifs <;> omega
  have hends : LineEnds st [] sys (lineLoop (sys.script.length + 1) st [] sys) :=
    lineLoop_spec hfit hfuel
  unfold readLine
  rw [if_neg hopen, if_neg (not_not_intro hmode)]
  generalize lineLoop (sys.script.length + 1) st [] sys = result at hends
  cases hends with
  | @found st' sys' hmem hfollows hahead =>
    have hlt : (st.ahead sys.script).idxOf newline < (st.ahead sys.script).length :=
      List.idxOf_lt_length_iff.2 hmem
    have hdrop : ((st.ahead sys.script).take ((st.ahead sys.script).idxOf newline + 1)).dropLast =
        (st.ahead sys.script).take ((st.ahead sys.script).idxOf newline) := by
      rw [List.dropLast_eq_take, List.take_take, List.length_take]
      congr 1
      omega
    have hserved : Reads .readLine st sys (some (ReadCall.served st.error
        ((st.ahead sys.script).take ((st.ahead sys.script).idxOf newline + 1)) .readLine,
        st', sys')) := .served (if_pos hmem) hfollows hahead
    simpa only [ReadCall.served, hdrop, List.nil_append] using hserved
  | @stopped h rest st' sys' hmem hhalt hst' hscript hdelivered herrors =>
    have hended : Reads .readLine st sys
        (some (ReadCall.ended st'.error (st.ahead sys.script) .readLine, st', sys')) :=
      .ended (if_neg hmem) (by rw [hhalt, hscript]) hst' hdelivered herrors
    simp only [List.nil_append]
    simp only [ReadCall.ended] at hended
    split_ifs at hended ⊢
    · exact hended
    · exact hended
    · exact hended
  | blocked hmem hhalt => exact .blocked (if_neg hmem) hhalt

/-- **A call sees only its source.** -/
theorem perform_reads (c : ReadCall) {st : FileStream} (sys : ReadSystem)
    (hopen : st.handle ≠ none) (hmode : st.mode = .read) (hfit : st.Fits) :
    Reads c st sys (c.perform st sys) := by
  cases c with
  | read want => exact read_reads hopen hmode hfit
  | readLine => exact readLine_reads hopen hmode hfit

end FileStream

end EglUtil
