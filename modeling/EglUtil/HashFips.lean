import EglUtil.Lib.Blocks
import Mathlib.Data.Nat.NthRoot.Defs
import Mathlib.Data.Nat.Find
import Mathlib.Data.Nat.Prime.Basic

/-!
# SHA-256 as FIPS 180-4 specifies it

The message is padded, cut into blocks of sixteen words, and folded with the compression function.
Nothing here is taken from the code: the constants are the fractional parts of roots of primes,
the schedule is the recurrence, and the amount of padding is the least that fits.
-/

namespace EglUtil.Fips

open Blocks

/-- A word of 32 bits. -/
abbrev Word := BitVec 32

/-! ## Constants -/

/-- The first 32 bits of the fractional part of the `k`-th root of `p`. -/
def rootFraction (k p : ℕ) : Word := BitVec.ofNat 32 (Nat.nthRoot k (p * 2 ^ (32 * k)))

/-- The first sixty-four primes. -/
def primes : List ℕ := [
  2, 3, 5, 7, 11, 13, 17, 19, 23, 29, 31, 37, 41, 43, 47, 53, 59, 61, 67, 71, 73, 79, 83, 89, 97,
  101, 103, 107, 109, 113, 127, 131, 137, 139, 149, 151, 157, 163, 167, 173, 179, 181, 191, 193,
  197, 199, 211, 223, 227, 229, 233, 239, 241, 251, 257, 263, 269, 271, 277, 281, 283, 293, 307,
  311]

/-- The list is sorted and leaves out no prime up to its end. -/
theorem primes_first : primes.length = 64 ∧ primes.Pairwise (· < ·) ∧
    ∀ p ≤ 311, p ∈ primes ↔ p.Prime := by
  refine ⟨rfl, by decide, fun p hp => ?_⟩
  have hsqrt : Nat.sqrt p < 18 := Nat.sqrt_lt.mpr (by omega)
  have hall : ∀ p < 312, p ∈ primes ↔ 2 ≤ p ∧ ∀ m < 18, 2 ≤ m → m < p → ¬ m ∣ p := by
    decide +kernel
  rw [hall p (by omega)]
  constructor
  · rintro ⟨h2, hdvd⟩
    refine Nat.prime_def_le_sqrt.mpr ⟨h2, fun m hm hms => hdvd m (by omega) hm ?_⟩
    exact lt_of_le_of_lt hms (Nat.sqrt_lt_self (by omega))
  · intro hprime
    refine ⟨hprime.two_le, fun m _ hm hmp hd => ?_⟩
    rcases hprime.eq_one_or_self_of_dvd m hd with h | h <;> omega

/-- `K_t`: from the cube roots of the primes. -/
def K (t : ℕ) : Word := rootFraction 3 (primes.getD t 0)

/-! ## Functions -/

def Ch (x y z : Word) : Word := (x &&& y) ^^^ (~~~x &&& z)

def Maj (x y z : Word) : Word := (x &&& y) ^^^ (x &&& z) ^^^ (y &&& z)

def bigSigma0 (x : Word) : Word := x.rotateRight 2 ^^^ x.rotateRight 13 ^^^ x.rotateRight 22

def bigSigma1 (x : Word) : Word := x.rotateRight 6 ^^^ x.rotateRight 11 ^^^ x.rotateRight 25

def smallSigma0 (x : Word) : Word := x.rotateRight 7 ^^^ x.rotateRight 18 ^^^ x >>> 3

def smallSigma1 (x : Word) : Word := x.rotateRight 17 ^^^ x.rotateRight 19 ^^^ x >>> 10

/-! ## Padding -/

theorem exists_zeros (len : ℕ) : ∃ k, (len + 1 + k) % 64 = 56 :=
  ⟨(119 - len % 64) % 64, by omega⟩

/-- The least number of zero bytes that makes the length 56 modulo 64. -/
def zeros (len : ℕ) : ℕ := Nat.find (exists_zeros len)

/-- The number as eight bytes, the highest first. -/
def lengthBytes (bits : ℕ) : List UInt8 :=
  (List.range 8).map fun j => UInt8.ofNat (bits / 256 ^ (7 - j))

/-- The padded message. -/
def pad (m : List UInt8) : List UInt8 :=
  m ++ 0x80 :: (List.replicate (zeros m.length) 0 ++ lengthBytes (8 * m.length))

/-- The word whose bytes are the first four of the list, the highest first. -/
def word (bs : List UInt8) : Word :=
  (bs.getD 0 0).toBitVec ++ (bs.getD 1 0).toBitVec ++ (bs.getD 2 0).toBitVec ++
    (bs.getD 3 0).toBitVec

/-- The padded message as blocks of sixteen words. -/
def parse (m : List UInt8) : List (List Word) :=
  (blocks 64 m).map fun block => (blocks 4 block).map word

/-! ## Hash computation -/

/-- The message schedule of the block `M`. -/
def W (M : List Word) (t : ℕ) : Word :=
  if t < 16 then M.getD t 0
  else smallSigma1 (W M (t - 2)) + W M (t - 7) + smallSigma0 (W M (t - 15)) + W M (t - 16)
termination_by t

/-- The eight working variables, also the eight words of a hash value. -/
structure Vars where
  (a b c d e f g h : Word)
deriving DecidableEq

/-- The initial hash value: from the square roots of the first eight primes. -/
def H0 : Vars where
  a := rootFraction 2 2
  b := rootFraction 2 3
  c := rootFraction 2 5
  d := rootFraction 2 7
  e := rootFraction 2 11
  f := rootFraction 2 13
  g := rootFraction 2 17
  h := rootFraction 2 19

/-- Round `t` with the schedule `W`. -/
def round (W : ℕ → Word) (v : Vars) (t : ℕ) : Vars :=
  let T1 := v.h + bigSigma1 v.e + Ch v.e v.f v.g + K t + W t
  let T2 := bigSigma0 v.a + Maj v.a v.b v.c
  ⟨T1 + T2, v.a, v.b, v.c, v.d + T1, v.e, v.f, v.g⟩

/-- The working variables added to the hash value they started from. -/
def Vars.add (v H : Vars) : Vars :=
  ⟨v.a + H.a, v.b + H.b, v.c + H.c, v.d + H.d, v.e + H.e, v.f + H.f, v.g + H.g, v.h + H.h⟩

/-- The next hash value after the block `M`. -/
def compress (H : Vars) (M : List Word) : Vars :=
  ((List.range 64).foldl (round (W M)) H).add H

/-- The bytes of a word, the highest first. -/
def wordBytes (x : Word) : List UInt8 :=
  (List.range 4).map fun j => UInt8.ofNat (x.toNat / 256 ^ (3 - j))

def Vars.bytes (H : Vars) : List UInt8 :=
  [H.a, H.b, H.c, H.d, H.e, H.f, H.g, H.h].flatMap wordBytes

/-- The message digest. -/
def sha256 (m : List UInt8) : List UInt8 := ((parse (pad m)).foldl compress H0).bytes

end EglUtil.Fips
