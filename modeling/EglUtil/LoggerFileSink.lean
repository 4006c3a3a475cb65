import EglUtil.Lib.Lines
import EglUtil.Logger

/-!
# Rendered lines and `FileSink`

`render_line` makes the text of a record, and `FileSink::write` puts it and a newline into the
stream. The message is the caller's and goes in unchanged.

**Theorem (`fileSink_lines_iff`).** Splitting a file written from the start at its newlines gives
the rendered lines of the records, one each and in order, exactly if no message contains a
newline.

Whatever `gmtime_r` answers, the header has no newline: it is made of digits and fixed texts. So
a rendered line contains one exactly if the message does, and then the file has a line too many.

A `char` is a byte of the file. `gmtime_r` is a parameter, and `none` is its failure.
-/

namespace EglUtil

open Lines

/-- `level_name(level)` -/
def LogLevel.name : LogLevel → List Char
  | .trace => "trace".toList
  | .debug => "debug".toList
  | .info => "info".toList
  | .warning => "warning".toList
  | .error => "error".toList
  | .critical => "critical".toList
  | .off => "off".toList

structure LogRecord where
  /-- Nanoseconds since the epoch. -/
  time : Int
  level : LogLevel
  threadId : UInt64
  message : List Char

/-- The fields of `std::tm` that are rendered. -/
structure Tm where
  (year mon mday hour min sec : Int)

/-! ## The line of a record -/

/-- The characters of `std::to_chars`. -/
def toChars : Int → List Char
  | .ofNat n => Nat.toDigits 10 n
  | .negSucc n => '-' :: Nat.toDigits 10 (n + 1)

/-- `append_padded(out, value, width)` -/
def appendPadded (out : List Char) (value : Int) (width : Nat) : List Char :=
  let digits := toChars value
  let out := out ++ List.replicate (width - digits.length) '0'
  out ++ digits

/-- The second of a time point, rounded down. -/
def epochSeconds (time : Int) : Int := time / 1000000000

/-- The milliseconds since that second. -/
def millisecond (time : Int) : Int := (time - epochSeconds time * 1000000000) / 1000000

/-- `render_line(record)` -/
def renderLine (gmtime : Int → Option Tm) (record : LogRecord) : List Char :=
  let out := ['[']
  let out := match gmtime (epochSeconds record.time) with
    | some utc =>
      let out := appendPadded out (utc.year + 1900) 4 ++ ['-']
      let out := appendPadded out (utc.mon + 1) 2 ++ ['-']
      let out := appendPadded out utc.mday 2 ++ [' ']
      let out := appendPadded out utc.hour 2 ++ [':']
      let out := appendPadded out utc.min 2 ++ [':']
      let out := appendPadded out utc.sec 2 ++ ['.']
      appendPadded out (millisecond record.time) 3
    | none => out ++ toChars (epochSeconds record.time) ++ ['s']
  let out := out ++ "] [".toList ++ record.level.name ++ "] [".toList ++
    Nat.toDigits 10 record.threadId.toNat ++ "] ".toList
  out ++ record.message

/-! ## The sink -/

/-- The bytes of the file, those in the stream's buffer included. -/
structure FileSink where
  content : List Char

namespace FileSink

/-- The constructor, on a file that holds `existing`; `opens` says whether the stream opens. -/
def construct (opens : Bool) (path existing : List Char) (append : Bool) :
    Except (List Char) FileSink :=
  if opens then .ok ⟨if append then existing else []⟩
  else .error ("FileSink: cannot open '".toList ++ path ++ "'".toList)

/-- `write(record, line)`; `accepts` says whether the stream takes the bytes. -/
def write (accepts : Bool) (line : List Char) (sink : FileSink) : Except (List Char) FileSink :=
  if accepts then .ok ⟨sink.content ++ line ++ ['\n']⟩
  else .error "FileSink: write failed".toList

/-- The pump's calls for the records, each with its rendered line, while the stream is good. -/
def writeRecords (gmtime : Int → Option Tm) (records : List LogRecord) (sink : FileSink) :
    Except (List Char) FileSink :=
  records.foldlM (fun sink record => sink.write true (renderLine gmtime record)) sink

end FileSink

/-! ## Newlines -/

theorem newline_not_mem_digits (n : Nat) : '\n' ∉ Nat.toDigits 10 n := by
  intro hmem
  have hdigit := Nat.isDigit_of_mem_toDigits (by decide) (by decide) hmem
  exact absurd hdigit (by decide)

theorem newline_not_mem_toChars (value : Int) : '\n' ∉ toChars value := by
  cases value with
  | ofNat n => exact newline_not_mem_digits n
  | negSucc n =>
    rw [toChars, List.mem_cons, not_or]
    exact ⟨by decide, newline_not_mem_digits (n + 1)⟩

theorem newline_mem_appendPadded (out : List Char) (value : Int) (width : Nat) :
    '\n' ∈ appendPadded out value width ↔ '\n' ∈ out := by
  have hdigits := newline_not_mem_toChars value
  simp [appendPadded, hdigits]

theorem newline_not_mem_name (level : LogLevel) : '\n' ∉ level.name := by
  cases level <;> decide +kernel

/-- The header has no newline, whatever the time. -/
theorem newline_mem_renderLine (gmtime : Int → Option Tm) (record : LogRecord) :
    '\n' ∈ renderLine gmtime record ↔ '\n' ∈ record.message := by
  have hname := newline_not_mem_name record.level
  have hthread := newline_not_mem_digits record.threadId.toNat
  rw [renderLine]
  cases gmtime (epochSeconds record.time) with
  | none =>
    have hseconds := newline_not_mem_toChars (epochSeconds record.time)
    simp [hname, hthread, hseconds]
  | some utc => simp [newline_mem_appendPadded, hname, hthread]

namespace FileSink

/-- While the stream is good, every record adds its line and a newline. -/
theorem writeRecords_eq (gmtime : Int → Option Tm) (records : List LogRecord) (sink : FileSink) :
    sink.writeRecords gmtime records =
      .ok ⟨sink.content ++ ended '\n' (records.map (renderLine gmtime))⟩ := by
  induction records generalizing sink with
  | nil => simp [writeRecords, ended, pure, Except.pure]
  | cons record records ih =>
    have hwrite : sink.write true (renderLine gmtime record) =
        .ok ⟨sink.content ++ renderLine gmtime record ++ ['\n']⟩ := rfl
    rw [writeRecords, List.foldlM_cons, hwrite]
    show writeRecords gmtime records _ = _
    rw [ih, List.map_cons, ended_cons]
    simp

end FileSink

/-- **One line per record, exactly if no message contains a newline.** -/
theorem fileSink_lines_iff (gmtime : Int → Option Tm) (path existing : List Char)
    (records : List LogRecord) :
    ∃ sink, (FileSink.construct true path existing false >>=
        FileSink.writeRecords gmtime records) = .ok sink ∧
      (sink.content.splitOn '\n' = records.map (renderLine gmtime) ++ [[]] ↔
        ∀ record ∈ records, '\n' ∉ record.message) := by
  refine ⟨⟨ended '\n' (records.map (renderLine gmtime))⟩, FileSink.writeRecords_eq _ _ _, ?_⟩
  rw [splitOn_ended_iff, List.forall_mem_map]
  simp only [newline_mem_renderLine]

/-- One record whose message has two lines: the file has two as well, and neither is the rendered
line. -/
theorem fileSink_two_lines :
    let gmtime : Int → Option Tm := fun _ => some ⟨126, 6, 3, 12, 30, 45⟩
    let record : LogRecord := ⟨7000000, .error, 42, "disk full\nretrying".toList⟩
    ∃ sink, (FileSink.construct true "app.log".toList [] false >>=
        FileSink.writeRecords gmtime [record]) = .ok sink ∧
      sink.content.splitOn '\n' =
        ["[2026-07-03 12:30:45.007] [error] [42] disk full".toList, "retrying".toList, []] ∧
      sink.content.splitOn '\n' ≠ [renderLine gmtime record] ++ [[]] :=
  ⟨_, rfl, by decide +kernel, by decide +kernel⟩

end EglUtil
