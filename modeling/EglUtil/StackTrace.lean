import EglUtil.Lib.Lines
import EglUtil.StringBuilder

/-!
# `StackTrace`

`capture` keeps the addresses of the innermost frames. `to_string` asks the system for the names
behind them and writes one line a frame, `#index 0xaddress name`; without a name the address stands
alone. What `dladdr` and the demangler answer is a parameter. This is the POSIX side of the source.

**Theorem (`toString_reads_back`).** A captured trace is a window of the stack, of the frames behind
those that were skipped. If no name contains a newline, the lines of its text give back the index,
the address and the name of every frame, in order; and the text is one line a frame for no other
names.

**Reading a line** (`readFrame`). Index and address are texts of digits that end where they must,
so the name is all that is left, whatever characters it has.

`hard_limit` bounds both what is skipped and what is kept.
-/

namespace EglUtil

open Numerals Lines

/-! ## Capturing -/

/-- `hard_limit` -/
def StackTrace.hardLimit : Nat := 1024

/-- The addresses, outermost call last. -/
structure StackTrace where
  addresses : List UInt64
  short : addresses.length ≤ StackTrace.hardLimit

/-- What the system knows of addresses. -/
structure Symbols where
  /-- `dladdr` fails, or finds a symbol, which may have no name. -/
  dladdr : UInt64 → Option (Option (List Char))
  /-- `__cxa_demangle`, with a status other than 0 as `none`. -/
  demangle : List Char → Option (List Char)

/-- The name that `describe_address` settles on, if there is one. -/
def Symbols.name (symbols : Symbols) (address : UInt64) : Option (List Char) :=
  match symbols.dladdr address with
  | none | some none => none
  | some (some sname) => some ((symbols.demangle sname).getD sname)

/-- `Frame` -/
structure Frame where
  address : UInt64
  description : List Char
deriving Repr, DecidableEq

namespace StackTrace

/-- `capture_addresses`; `stack` is what `backtrace` could collect, the function's own frame
first. -/
def captureAddresses (stack : List UInt64) (skip maxFrames : Nat) : List UInt64 :=
  let wanted := maxFrames + skip + 1
  let raw := stack.take wanted
  let collected := raw.length
  let drop := min collected (skip + 1)
  let keep := min (collected - drop) maxFrames
  (raw.drop drop).take keep

theorem captureAddresses_eq (stack : List UInt64) (skip maxFrames : Nat) :
    captureAddresses stack skip maxFrames = (stack.drop (skip + 1)).take maxFrames := by
  have hdrop : ∀ (raw : List UInt64) n, raw.drop (min raw.length n) = raw.drop n := by
    intro raw n
    rcases Nat.le_total raw.length n with h | h
    · rw [Nat.min_eq_left h, List.drop_length, List.drop_eq_nil_of_le h]
    · rw [Nat.min_eq_right h]
  have htake : ∀ (raw : List UInt64) m n, raw.length = m → raw.take (min m n) = raw.take n := by
    rintro raw _ n rfl
    rcases Nat.le_total raw.length n with h | h
    · rw [Nat.min_eq_left h, List.take_length, List.take_of_length_le h]
    · rw [Nat.min_eq_right h]
  unfold captureAddresses
  simp only
  rw [htake _ _ _ List.length_drop, hdrop, List.drop_take, List.take_take]
  congr 1
  omega

/-- `capture(skip, max_frames)` -/
def capture (stack : List UInt64) (skip maxFrames : Nat) : StackTrace :=
  if maxFrames = 0 then ⟨[], Nat.zero_le _⟩
  else
    ⟨captureAddresses stack (min skip hardLimit) (min maxFrames hardLimit), by
      rw [captureAddresses_eq, List.length_take]
      omega⟩

theorem addresses_capture (stack : List UInt64) (skip maxFrames : Nat) :
    (capture stack skip maxFrames).addresses =
      (stack.drop (min skip hardLimit + 1)).take (min maxFrames hardLimit) := by
  unfold capture
  split_ifs with hzero
  · subst hzero
    rw [Nat.zero_min, List.take_zero]
  · exact captureAddresses_eq _ _ _

/-! ## Rendering -/

/-- The characters of `digits` in `append_address`. -/
def addressDigits : Nat := 18

/-- `append_address` -/
def appendAddress (out : StringBuilder) (address : UInt64) : StringBuilder :=
  let digits := Nat.toDigits 16 address.toNat
  let out := out.append "0x".toList
  if digits.length ≤ addressDigits then out.append digits else out

/-- `address_only` -/
def addressOnly (address : UInt64) : List Char := (appendAddress (.create []) address).str.1

/-- `describe_address` -/
def describeAddress (symbols : Symbols) (address : UInt64) : List Char :=
  match symbols.name address with
  | none => addressOnly address
  | some name =>
    (((appendAddress (.create []) address).appendChar ' ').append name).str.1

def symbolize (symbols : Symbols) (trace : StackTrace) : List Frame :=
  trace.addresses.map fun address => ⟨address, describeAddress symbols address⟩

/-- A turn of the loop of `to_string`. -/
def appendFrame (out : StringBuilder) (frame : Frame) (index : Nat) : StringBuilder :=
  ((((out.appendChar '#').appendInteger index).appendChar ' ').append frame.description).appendChar
    '\n'

/-- The loop of `to_string`. -/
def appendFrames (out : StringBuilder) (index : Nat) : List Frame → StringBuilder
  | [] => out
  | frame :: frames => appendFrames (appendFrame out frame index) (index + 1) frames

/-- `to_string()` -/
def toString (symbols : Symbols) (trace : StackTrace) : List Char :=
  (appendFrames (.create []) 0 (trace.symbolize symbols)).str.1

/-- The text of an address. -/
def addressText (address : UInt64) : List Char := "0x".toList ++ Nat.toDigits 16 address.toNat

theorem buffer_appendAddress (out : StringBuilder) (address : UInt64) :
    (appendAddress out address).buffer = out.buffer ++ addressText address := by
  have hfits : (Nat.toDigits 16 address.toNat).length ≤ addressDigits := by
    rw [Nat.length_toDigits_le_iff (by decide) (by decide)]
    exact Nat.lt_trans address.toNat_lt (by decide)
  rw [appendAddress, if_pos hfits, addressText]
  simp [StringBuilder.append]

/-- What stands behind the address in a line. -/
def nameText : Option (List Char) → List Char
  | none => []
  | some name => ' ' :: name

theorem describeAddress_eq (symbols : Symbols) (address : UInt64) :
    describeAddress symbols address = addressText address ++ nameText (symbols.name address) := by
  unfold describeAddress
  cases symbols.name address with
  | none => simp [addressOnly, StringBuilder.str, buffer_appendAddress, nameText,
      StringBuilder.create]
  | some name =>
    simp [StringBuilder.str, StringBuilder.append, StringBuilder.appendChar,
      buffer_appendAddress, nameText, StringBuilder.create]

/-- The line of a frame, without its newline. -/
def frameLine (symbols : Symbols) (address : UInt64) (index : Nat) : List Char :=
  '#' :: Nat.toDigits 10 index ++ ' ' :: (addressText address ++ nameText (symbols.name address))

theorem buffer_appendFrames (symbols : Symbols) (out : StringBuilder) (addresses : List UInt64)
    (index : Nat) (hindex : index + addresses.length < 2 ^ 64) :
    (appendFrames out index
        (addresses.map fun address => ⟨address, describeAddress symbols address⟩)).buffer =
      out.buffer ++
        ended '\n' ((addresses.zipIdx index).map fun a => frameLine symbols a.1 a.2) := by
  induction addresses generalizing out index with
  | nil => simp [appendFrames, ended]
  | cons address addresses ih =>
    rw [List.length_cons] at hindex
    have hholds : sizeType.Holds index := by
      simp only [IntegerType.Holds, IntegerType.least, IntegerType.greatest, sizeType]
      simp only [Bool.false_eq_true, if_false]
      omega
    rw [List.map_cons, appendFrames, ih _ _ (by omega), List.zipIdx_cons, List.map_cons, ended_cons,
      appendFrame, StringBuilder.appendInteger_eq hholds]
    simp [StringBuilder.append, StringBuilder.appendChar, describeAddress_eq, frameLine, toChars]

/-- The text is the lines of the frames. -/
theorem toString_eq (symbols : Symbols) (trace : StackTrace) :
    trace.toString symbols =
      ended '\n' (trace.addresses.zipIdx.map fun a => frameLine symbols a.1 a.2) := by
  have hshort := trace.short
  unfold hardLimit at hshort
  rw [toString, symbolize, StringBuilder.str, buffer_appendFrames _ _ _ _ (by omega)]
  rfl

/-! ## Reading a text back -/

/-- A line, read as index, address and name. -/
def readFrame : List Char → Option (Nat × Nat × Option (List Char))
  | '#' :: line =>
    match line.dropWhile (isDigitOf 10) with
    | ' ' :: '0' :: 'x' :: rest =>
      let index := value 10 (line.takeWhile (isDigitOf 10))
      let address := value 16 (rest.takeWhile (isDigitOf 16))
      match rest.dropWhile (isDigitOf 16) with
      | [] => some (index, address, none)
      | ' ' :: name => some (index, address, some name)
      | _ => none
    | _ => none
  | _ => none

theorem readFrame_frameLine (symbols : Symbols) (address : UInt64) (index : Nat) :
    readFrame (frameLine symbols address index) =
      some (index, address.toNat, symbols.name address) := by
  have hspace : ∀ rest : List Char, ∀ c ∈ (' ' :: rest).head?, isDigitOf 10 c = false := by
    rintro rest c ⟨⟩
    decide
  have hname : ∀ c ∈ (nameText (symbols.name address)).head?, isDigitOf 16 c = false := by
    intro c hc
    cases hname : symbols.name address with
    | none =>
      rw [hname] at hc
      cases hc
    | some name =>
      rw [hname] at hc
      cases hc
      decide
  obtain ⟨hindex, hbehind⟩ := (isNumeral_toDigits (by decide) index).takeWhile_append
    (hspace (addressText address ++ nameText (symbols.name address)))
  obtain ⟨haddress, hend⟩ :=
    (isNumeral_toDigits (by decide) address.toNat).takeWhile_append hname
  have htext : addressText address ++ nameText (symbols.name address) =
      '0' :: 'x' :: (Nat.toDigits 16 address.toNat ++ nameText (symbols.name address)) := rfl
  rw [frameLine, List.cons_append, readFrame.eq_def]
  simp only
  rw [hbehind, hindex, htext]
  simp only
  rw [haddress, hend, value_toDigits (by decide) (by decide),
    value_toDigits (by decide) (by decide)]
  cases symbols.name address <;> rfl

theorem newline_mem_frameLine {symbols : Symbols} {address : UInt64} {index : Nat} :
    '\n' ∈ frameLine symbols address index ↔
      ∃ name, symbols.name address = some name ∧ '\n' ∈ name := by
  have hindex := newline_not_mem_digits index
  have haddress : '\n' ∉ Nat.toDigits 16 address.toNat := by
    intro hmem
    obtain ⟨d, hd, heq⟩ := isNumeral_toDigits (by decide) address.toNat '\n' hmem
    have hall : ∀ e : Fin 16, '\n' ≠ Nat.digitChar e := by decide
    exact hall ⟨d, hd⟩ heq
  cases hname : symbols.name address with
  | none => simp [frameLine, addressText, nameText, hname, hindex, haddress]
  | some name => simp [frameLine, addressText, nameText, hname, hindex, haddress]

/-- **The text gives the trace back**, exactly if no name contains a newline. -/
theorem toString_reads_back (symbols : Symbols) (stack : List UInt64) (skip maxFrames : Nat) :
    let trace := capture stack skip maxFrames
    trace.addresses = (stack.drop (min skip hardLimit + 1)).take (min maxFrames hardLimit) ∧
    (((trace.toString symbols).splitOn '\n').map readFrame =
        trace.addresses.zipIdx.map (fun a => some (a.2, a.1.toNat, symbols.name a.1)) ++ [none] ↔
      ∀ address ∈ trace.addresses, ∀ name, symbols.name address = some name → '\n' ∉ name) := by
  intro trace
  refine ⟨addresses_capture stack skip maxFrames, ?_⟩
  have hlines :
      (∀ line ∈ trace.addresses.zipIdx.map fun a => frameLine symbols a.1 a.2, '\n' ∉ line) ↔
        ∀ address ∈ trace.addresses, ∀ name, symbols.name address = some name → '\n' ∉ name := by
    simp only [List.forall_mem_map, newline_mem_frameLine, not_exists, not_and]
    constructor
    · intro h address haddress
      obtain ⟨index, hindex⟩ := List.getElem?_of_mem haddress
      exact h _ (List.mk_mem_zipIdx_iff_getElem?.2 hindex)
    · intro h a ha
      exact h _ (List.fst_mem_of_mem_zipIdx ha)
  rw [toString_eq, ← hlines]
  constructor
  · intro h
    have hlength := congrArg List.length h
    simp only [List.length_map, List.length_append, List.length_singleton] at hlength
    exact not_mem_of_length_splitOn (by simpa using hlength)
  · intro h
    rw [splitOn_ended _ h, List.map_append, List.map_map]
    simp only [Function.comp_def, readFrame_frameLine]
    rfl

end StackTrace

end EglUtil
