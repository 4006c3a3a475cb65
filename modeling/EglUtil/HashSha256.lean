import EglUtil.Hash
import EglUtil.HashFips
import Mathlib.Algebra.Order.Floor.Div

/-!
# The SHA-256 digest

`sha256` never holds the padded message: `padded` computes each of its bytes from the index, in
four regions. The lengths and indices are 64-bit words, the hash is an array of eight 32-bit words
and the schedule an array of sixty-four.

**Theorem (`sha256_eq_fips`).** On every message of less than `2 ^ 61` bytes the digest is the one
that FIPS 180-4 specifies; there are `⌈(len + 9) / 64⌉` blocks, and `padded(i)` is byte `i` of the
padded message.

Below that length no 64-bit word overflows. The loops are compared turn by turn: before turn `t`
the array `w` holds the first `t` words of the schedule, the working variables are those of the
specification after `t` rounds, and `h` is the hash value after the blocks so far.
-/

namespace EglUtil.Hash

open Blocks

/-! ## The code -/

def sha256_k : Vector (BitVec 32) 64 := #v[
  0x428a2f98, 0x71374491, 0xb5c0fbcf, 0xe9b5dba5, 0x3956c25b, 0x59f111f1, 0x923f82a4, 0xab1c5ed5,
  0xd807aa98, 0x12835b01, 0x243185be, 0x550c7dc3, 0x72be5d74, 0x80deb1fe, 0x9bdc06a7, 0xc19bf174,
  0xe49b69c1, 0xefbe4786, 0x0fc19dc6, 0x240ca1cc, 0x2de92c6f, 0x4a7484aa, 0x5cb0a9dc, 0x76f988da,
  0x983e5152, 0xa831c66d, 0xb00327c8, 0xbf597fc7, 0xc6e00bf3, 0xd5a79147, 0x06ca6351, 0x14292967,
  0x27b70a85, 0x2e1b2138, 0x4d2c6dfc, 0x53380d13, 0x650a7354, 0x766a0abb, 0x81c2c92e, 0x92722c85,
  0xa2bfe8a1, 0xa81a664b, 0xc24b8b70, 0xc76c51a3, 0xd192e819, 0xd6990624, 0xf40e3585, 0x106aa070,
  0x19a4c116, 0x1e376c08, 0x2748774c, 0x34b0bcb5, 0x391c0cb3, 0x4ed8aa4a, 0x5b9cca4f, 0x682e6ff3,
  0x748f82ee, 0x78a5636f, 0x84c87814, 0x8cc70208, 0x90befffa, 0xa4506ceb, 0xbef9a3f7, 0xc67178f2]

/-- `rotr(x, n)` -/
def rotr (x : BitVec 32) (n : ℕ) : BitVec 32 := x >>> n ||| x <<< (32 - n)

/-- `while (total % 64u != 56u) { ++total; }` -/
def padLoop (total : BitVec 64) : BitVec 64 :=
  if total % 64 ≠ 56 then padLoop (total + 1) else total
termination_by (120 - total.toNat % 64) % 64
decreasing_by
  have h : total.toNat % 64 ≠ 56 := fun h => ‹total % 64 ≠ 56› (BitVec.eq_of_toNat_eq h)
  rw [BitVec.toNat_add, show (1 : BitVec 64).toNat = 1 from rfl]
  omega

/-- `total` after the loop and `total += 8u`. -/
def total (len : BitVec 64) : BitVec 64 := padLoop (len + 1) + 8

def nblocks (len : BitVec 64) : BitVec 64 := total len / 64

/-- The lambda `padded`: byte `i` of the padded message. -/
def padded (data : List UInt8) (i : BitVec 64) : BitVec 32 :=
  let len := BitVec.ofNat 64 data.length
  let bitlen := len * 8
  let total := total len
  if i < len then byteAt data i.toNat
  else if i = len then 0x80
  else if i ≥ total - 8 then
    let shift := (total - 1 - i) * 8
    (bitlen >>> shift &&& 0xff).setWidth 32
  else 0

/-- One turn of the loop over the first sixteen words of `w`. -/
def loadWord (data : List UInt8) (blk : BitVec 64) (w : Vector (BitVec 32) 64) (t : ℕ) :
    Vector (BitVec 32) 64 :=
  let base := blk * 64 + BitVec.ofNat 64 t * 4
  w.set! t (padded data base <<< 24 ||| padded data (base + 1) <<< 16 |||
    padded data (base + 2) <<< 8 ||| padded data (base + 3))

/-- One turn of the loop over the other words of `w`. -/
def extendWord (w : Vector (BitVec 32) 64) (t : ℕ) : Vector (BitVec 32) 64 :=
  let s0 := rotr w[t - 15]! 7 ^^^ rotr w[t - 15]! 18 ^^^ w[t - 15]! >>> 3
  let s1 := rotr w[t - 2]! 17 ^^^ rotr w[t - 2]! 19 ^^^ w[t - 2]! >>> 10
  w.set! t (w[t - 16]! + s0 + w[t - 7]! + s1)

/-- `w` before the rounds. -/
def schedule (data : List UInt8) (blk : BitVec 64) : Vector (BitVec 32) 64 :=
  let w := (List.range' 0 16).foldl (loadWord data blk) (Vector.replicate 64 0)
  (List.range' 16 48).foldl extendWord w

/-- The locals `a` to `hh`. -/
structure Working where
  (a b c d e f g hh : BitVec 32)

/-- One turn of the round loop. -/
def sha256Round (w : Vector (BitVec 32) 64) (v : Working) (t : ℕ) : Working :=
  let s1 := rotr v.e 6 ^^^ rotr v.e 11 ^^^ rotr v.e 25
  let ch := (v.e &&& v.f) ^^^ (~~~v.e &&& v.g)
  let temp1 := v.hh + s1 + ch + sha256_k[t]! + w[t]!
  let s0 := rotr v.a 2 ^^^ rotr v.a 13 ^^^ rotr v.a 22
  let maj := (v.a &&& v.b) ^^^ (v.a &&& v.c) ^^^ (v.b &&& v.c)
  let temp2 := s0 + maj
  { hh := v.g, g := v.f, f := v.e, e := v.d + temp1, d := v.c, c := v.b, b := v.a
    a := temp1 + temp2 }

/-- The locals before the round loop. -/
def loadHash (h : Vector (BitVec 32) 8) : Working :=
  { a := h[0], b := h[1], c := h[2], d := h[3], e := h[4], f := h[5], g := h[6], hh := h[7] }

/-- `h[0] += a;` to `h[7] += hh;` -/
def addHash (h : Vector (BitVec 32) 8) (v : Working) : Vector (BitVec 32) 8 :=
  #v[h[0] + v.a, h[1] + v.b, h[2] + v.c, h[3] + v.d, h[4] + v.e, h[5] + v.f, h[6] + v.g,
    h[7] + v.hh]

/-- One turn of the block loop. -/
def sha256Block (data : List UInt8) (h : Vector (BitVec 32) 8) (blk : BitVec 64) :
    Vector (BitVec 32) 8 :=
  let w := schedule data blk
  addHash h ((List.range 64).foldl (sha256Round w) (loadHash h))

/-- `static_cast<std::uint8_t>(x)` -/
def lowByte (x : BitVec 32) : UInt8 := UInt8.ofBitVec (x.setWidth 8)

/-- The bytes of `digest`: each turn of the loop fills the next four places. -/
def digest (h : Vector (BitVec 32) 8) : List UInt8 :=
  (List.range 8).flatMap fun i =>
    let x : BitVec 32 := h[i]!
    [lowByte (x >>> 24), lowByte (x >>> 16), lowByte (x >>> 8), lowByte x]

/-- `h` before the block loop. -/
def sha256Init : Vector (BitVec 32) 8 := #v[
  0x6a09e667, 0xbb67ae85, 0x3c6ef372, 0xa54ff53a, 0x510e527f, 0x9b05688c, 0x1f83d9ab, 0x5be0cd19]

/-- `sha256(data)` -/
def sha256 (data : List UInt8) : List UInt8 :=
  let len := BitVec.ofNat 64 data.length
  let h := (List.range (nblocks len).toNat).foldl
    (fun h blk => sha256Block data h (BitVec.ofNat 64 blk)) sha256Init
  digest h

/-- The NIST vector for "abc". -/
example : sha256 [0x61, 0x62, 0x63] =
    [0xba, 0x78, 0x16, 0xbf, 0x8f, 0x01, 0xcf, 0xea, 0x41, 0x41, 0x40, 0xde, 0x5d, 0xae, 0x22, 0x23,
      0xb0, 0x03, 0x61, 0xa3, 0x96, 0x17, 0x7a, 0x9c, 0xb4, 0x10, 0xff, 0x61, 0xf2, 0x00, 0x15,
      0xad] := by
  decide +kernel

/-! ## Padding -/

/-- The loop adds what is missing to 56 modulo 64. -/
theorem toNat_padLoop (t : BitVec 64) (h : t.toNat + (120 - t.toNat % 64) % 64 < 2 ^ 64) :
    (padLoop t).toNat = t.toNat + (120 - t.toNat % 64) % 64 := by
  have h1 : (1 : BitVec 64).toNat = 1 := rfl
  induction t using padLoop.induct with
  | case1 t hne ih =>
    have hmod : t.toNat % 64 ≠ 56 := fun h => hne (BitVec.eq_of_toNat_eq h)
    have hadd : (t + 1).toNat = t.toNat + 1 := by
      rw [BitVec.toNat_add, h1, Nat.mod_eq_of_lt (by omega)]
    rw [hadd] at ih
    rw [padLoop, if_pos hne, ih (by omega)]
    omega
  | case2 t heq =>
    have hmod : t.toNat % 64 = 56 := congrArg BitVec.toNat (not_not.mp heq)
    rw [padLoop, if_neg heq]
    omega

theorem zeros_eq (len : ℕ) : Fips.zeros len = (119 - len % 64) % 64 :=
  (Nat.find_eq_iff _).mpr ⟨by omega, fun k hk => by omega⟩

theorem length_pad (m : List UInt8) :
    (Fips.pad m).length = m.length + 1 + Fips.zeros m.length + 8 := by
  simp only [Fips.pad, Fips.lengthBytes, List.length_append, List.length_cons,
    List.length_replicate, List.length_map, List.length_range]
  omega

/-- The four regions of the padded message. -/
theorem getD_pad (m : List UInt8) {i : ℕ} (hi : i < (Fips.pad m).length) :
    (Fips.pad m).getD i 0 =
      if i < m.length then m.getD i 0
      else if i = m.length then 0x80
      else if (Fips.pad m).length - 8 ≤ i then
        UInt8.ofNat (8 * m.length / 256 ^ ((Fips.pad m).length - 1 - i))
      else 0 := by
  have hlen := length_pad m
  have hbytes : (Fips.lengthBytes (8 * m.length)).length = 8 := by simp [Fips.lengthBytes]
  simp only [List.getD_eq_getElem?_getD]
  by_cases hmsg : i < m.length
  · rw [if_pos hmsg, Fips.pad, List.getElem?_append_left hmsg]
  · rw [if_neg hmsg]
    by_cases hmark : i = m.length
    · rw [if_pos hmark, Fips.pad, hmark, List.getElem?_append_right (Nat.le_refl _), Nat.sub_self]
      rfl
    · obtain ⟨k, rfl⟩ : ∃ k, i = m.length + (k + 1) := ⟨i - m.length - 1, by omega⟩
      rw [if_neg hmark]
      by_cases hbits : (Fips.pad m).length - 8 ≤ m.length + (k + 1)
      · have hk : k - Fips.zeros m.length < 8 := by omega
        have hplace : (Fips.pad m).length - 1 - (m.length + (k + 1)) =
            7 - (k - Fips.zeros m.length) := by omega
        rw [if_pos hbits, hplace, Fips.pad, List.getElem?_append_right (Nat.le_add_right _ _),
          Nat.add_sub_cancel_left, List.getElem?_cons_succ,
          List.getElem?_append_right (by rw [List.length_replicate]; omega),
          List.length_replicate, Fips.lengthBytes, List.getElem?_map, List.getElem?_range hk]
        rfl
      · rw [if_neg hbits, Fips.pad, List.getElem?_append_right (Nat.le_add_right _ _),
          Nat.add_sub_cancel_left, List.getElem?_cons_succ,
          List.getElem?_append_left (by rw [List.length_replicate]; omega),
          List.getElem?_replicate_of_lt (by omega)]
        rfl

section Short

variable {data : List UInt8}

theorem toNat_length (hlen : data.length < 2 ^ 61) :
    (BitVec.ofNat 64 data.length).toNat = data.length := by
  rw [BitVec.toNat_ofNat, Nat.mod_eq_of_lt (by omega)]

/-- The loop stops at the length of the padded message. -/
theorem toNat_total (hlen : data.length < 2 ^ 61) :
    (total (BitVec.ofNat 64 data.length)).toNat = (Fips.pad data).length := by
  have hsucc : (BitVec.ofNat 64 data.length + 1).toNat = data.length + 1 := by
    rw [BitVec.toNat_add, toNat_length hlen, show (1 : BitVec 64).toNat = 1 from rfl,
      Nat.mod_eq_of_lt (by omega)]
  have hloop := toNat_padLoop (BitVec.ofNat 64 data.length + 1) (by rw [hsucc]; omega)
  rw [hsucc] at hloop
  rw [total, BitVec.toNat_add, hloop, length_pad, zeros_eq, show (8 : BitVec 64).toNat = 8 from rfl,
    Nat.mod_eq_of_lt (by omega)]
  omega

/-- A byte of the big-endian bit length, read off by a shift and a mask. -/
theorem toNat_shift_mask (x : BitVec 64) (shift : BitVec 64) (k : ℕ) (hk : shift.toNat = 8 * k) :
    ((x >>> shift &&& 0xff).setWidth 32 : BitVec 32) = byte (UInt8.ofNat (x.toNat / 256 ^ k)) := by
  apply BitVec.eq_of_toNat_eq
  have hpow : 2 ^ (8 * k) = 256 ^ k := by rw [Nat.pow_mul]
  have hmask (n : ℕ) : n &&& 255 = n % 256 := Nat.and_two_pow_sub_one_eq_mod n 8
  rw [BitVec.toNat_setWidth, BitVec.toNat_and, BitVec.ushiftRight_eq', BitVec.toNat_ushiftRight, hk,
    Nat.shiftRight_eq_div_pow, hpow, show (0xff : BitVec 64).toNat = 255 from rfl, hmask, byte,
    BitVec.toNat_setWidth, UInt8.toNat_toBitVec, UInt8.toNat_ofNat']

theorem toNat_ofNat_of_le_pad (hlen : data.length < 2 ^ 61) {i : ℕ}
    (hi : i ≤ (Fips.pad data).length) : (BitVec.ofNat 64 i).toNat = i := by
  have hpad := length_pad data
  have hzeros := zeros_eq data.length
  rw [BitVec.toNat_ofNat, Nat.mod_eq_of_lt (by omega)]

theorem toNat_total_sub (hlen : data.length < 2 ^ 61) {i : ℕ} (hi : i ≤ (Fips.pad data).length) :
    (total (BitVec.ofNat 64 data.length) - BitVec.ofNat 64 i).toNat =
      (Fips.pad data).length - i := by
  have hI := toNat_ofNat_of_le_pad hlen hi
  have hT := toNat_total hlen
  rw [BitVec.toNat_sub_of_le (BitVec.le_def.mpr (by rw [hT, hI]; exact hi)), hT, hI]

/-- `shift`, in the bytes that hold the bit length. -/
theorem toNat_shift (hlen : data.length < 2 ^ 61) {i : ℕ} (hi : i < (Fips.pad data).length)
    (hbits : (Fips.pad data).length - 8 ≤ i) :
    ((total (BitVec.ofNat 64 data.length) - 1 - BitVec.ofNat 64 i) * 8).toNat =
      8 * ((Fips.pad data).length - 1 - i) := by
  have hpad := length_pad data
  have hI := toNat_ofNat_of_le_pad hlen hi.le
  have hlast : (total (BitVec.ofNat 64 data.length) - 1).toNat = (Fips.pad data).length - 1 :=
    toNat_total_sub hlen (show 1 ≤ _ by omega)
  have hplace : (total (BitVec.ofNat 64 data.length) - 1 - BitVec.ofNat 64 i).toNat =
      (Fips.pad data).length - 1 - i := by
    rw [BitVec.toNat_sub_of_le (BitVec.le_def.mpr (by rw [hlast, hI]; omega)), hlast, hI]
  rw [BitVec.toNat_mul, hplace, show (8 : BitVec 64).toNat = 8 from rfl,
    Nat.mod_eq_of_lt (by omega), Nat.mul_comm]

theorem toNat_bitlen (hlen : data.length < 2 ^ 61) :
    (BitVec.ofNat 64 data.length * 8).toNat = 8 * data.length := by
  rw [BitVec.toNat_mul, toNat_length hlen, show (8 : BitVec 64).toNat = 8 from rfl,
    Nat.mod_eq_of_lt (by omega), Nat.mul_comm]

/-- **`padded(i)` is byte `i` of the padded message.** -/
theorem padded_eq (hlen : data.length < 2 ^ 61) {i : ℕ} (hi : i < (Fips.pad data).length) :
    padded data (BitVec.ofNat 64 i) = byte ((Fips.pad data).getD i 0) := by
  have hL := toNat_length hlen
  have hI := toNat_ofNat_of_le_pad hlen hi.le
  have hT8 : (total (BitVec.ofNat 64 data.length) - 8).toNat = (Fips.pad data).length - 8 :=
    toNat_total_sub hlen (by rw [length_pad]; exact Nat.le_add_left 8 _)
  rw [getD_pad data hi, padded]
  simp only [BitVec.lt_def, ge_iff_le, BitVec.le_def, hL, hI, hT8]
  by_cases hmsg : i < data.length
  · rw [if_pos hmsg, if_pos hmsg, byteAt]
  · rw [if_neg hmsg, if_neg hmsg]
    by_cases hmark : i = data.length
    · rw [if_pos hmark, if_pos (by rw [hmark])]
      rfl
    · have hne : BitVec.ofNat 64 i ≠ BitVec.ofNat 64 data.length := by
        intro heq
        have h := congrArg BitVec.toNat heq
        rw [hI, hL] at h
        exact hmark h
      rw [if_neg hmark, if_neg hne]
      by_cases hbits : (Fips.pad data).length - 8 ≤ i
      · rw [if_pos hbits, if_pos hbits, toNat_shift_mask _ _ _ (toNat_shift hlen hi hbits),
          toNat_bitlen hlen]
      · rw [if_neg hbits, if_neg hbits]
        rfl

end Short

/-! ## The schedule -/

theorem rotr_eq (x : BitVec 32) {n : ℕ} (hn : n < 32) : rotr x n = x.rotateRight n := by
  rw [rotr, BitVec.rotateRight_def, Nat.mod_eq_of_lt hn]

theorem getElem!_set! (w : Vector (BitVec 32) 64) (x : BitVec 32) {i j : ℕ} (hj : j < 64) :
    (w.set! i x)[j]! = if i = j then x else w[j]! := by
  rw [getElem!_pos _ j hj, getElem!_pos _ j hj, Vector.set!_eq_setIfInBounds,
    Vector.getElem_setIfInBounds]

/-- Four bytes put together by shifts are the word made of them. -/
theorem shifted_bytes_eq (a b c d : UInt8) :
    (byte a <<< 24 ||| byte b <<< 16 ||| byte c <<< 8 ||| byte d : BitVec 32) =
      a.toBitVec ++ b.toBitVec ++ c.toBitVec ++ d.toBitVec := by
  apply BitVec.eq_of_getLsbD_eq
  intro i hi
  obtain ⟨j, p, hj, hp, rfl⟩ : ∃ j p, j < 4 ∧ p < 8 ∧ i = 8 * j + p :=
    ⟨i / 8, i % 8, by omega, by omega, by omega⟩
  have h (ch : UInt8) (k : ℕ) := getLsbD_byte_shiftLeft ch k hj hp
  have h3 := h a 3
  have h2 := h b 2
  have h1 := h c 1
  have h0 := h d 0
  simp only [Nat.reduceMul, BitVec.shiftLeft_zero] at h0 h1 h2 h3
  simp only [BitVec.getLsbD_or, h0, h1, h2, h3, BitVec.getLsbD_append]
  match j, hj with
  | 0, _ => simp [hp]
  | 1, _ => simp [hp]
  | 2, _ =>
    simp [show ¬ 16 + p < 8 by omega, show 16 + p - 8 = 8 + p by omega,
      show ¬ 8 + p < 8 by omega, hp]
  | 3, _ =>
    simp [show ¬ 24 + p < 8 by omega, show 24 + p - 8 = 16 + p by omega, show ¬ 16 + p < 8 by omega,
      show 16 + p - 8 = 8 + p by omega, show ¬ 8 + p < 8 by omega, hp]

/-- Cutting the padded message leaves nothing over. -/
theorem flatten_blocks_pad (m : List UInt8) : (blocks 64 (Fips.pad m)).flatten = Fips.pad m := by
  apply flatten_blocks
  have hpad := length_pad m
  have hzeros := zeros_eq m.length
  omega

/-- The words of block `b` of the padded message. -/
def blockOf (data : List UInt8) (b : ℕ) : List Fips.Word :=
  (blocks 4 (block 64 (Fips.pad data) b)).map Fips.word

theorem parse_eq (m : List UInt8) :
    Fips.parse (Fips.pad m) = (List.range ((Fips.pad m).length / 64)).map (blockOf m) := by
  rw [Fips.parse, blocks, List.map_map]
  rfl

theorem getD_blockOf (data : List UInt8) {b t : ℕ} (hb : b < (Fips.pad data).length / 64)
    (ht : t < 16) : (blockOf data b).getD t 0 =
      byte ((Fips.pad data).getD (b * 64 + t * 4) 0) <<< 24 |||
        byte ((Fips.pad data).getD (b * 64 + t * 4 + 1) 0) <<< 16 |||
        byte ((Fips.pad data).getD (b * 64 + t * 4 + 2) 0) <<< 8 |||
        byte ((Fips.pad data).getD (b * 64 + t * 4 + 3) 0) := by
  have hlen : (block 64 (Fips.pad data) b).length / 4 = 16 := by rw [length_block hb]
  have hbyte {j : ℕ} (hj : j < 4) : (block 4 (block 64 (Fips.pad data) b) t).getD j 0 =
      (Fips.pad data).getD (b * 64 + t * 4 + j) 0 := by
    rw [getD_block hj, getD_block (by omega), Nat.add_assoc]
  rw [shifted_bytes_eq, blockOf, blocks, List.map_map, hlen, List.getD_eq_getElem?_getD,
    List.getElem?_map, List.getElem?_range ht]
  show Fips.word (block 4 (block 64 (Fips.pad data) b) t) = _
  rw [Fips.word, hbyte (by decide), hbyte (by decide), hbyte (by decide), hbyte (by decide)]
  rfl

theorem loadWord_eq {data : List UInt8} (hlen : data.length < 2 ^ 61) {b t : ℕ}
    (hb : b < (Fips.pad data).length / 64) (ht : t < 16) (w : Vector (BitVec 32) 64) :
    loadWord data (BitVec.ofNat 64 b) w t = w.set! t ((blockOf data b).getD t 0) := by
  have hbase : BitVec.ofNat 64 b * 64 + BitVec.ofNat 64 t * 4 =
      BitVec.ofNat 64 (b * 64 + t * 4) := by
    rw [BitVec.ofNat_add, BitVec.ofNat_mul, BitVec.ofNat_mul]
    rfl
  have hnext (j : ℕ) : BitVec.ofNat 64 (b * 64 + t * 4) + BitVec.ofNat 64 j =
      BitVec.ofNat 64 (b * 64 + t * 4 + j) := (BitVec.ofNat_add _ j).symm
  rw [loadWord, hbase, getD_blockOf data hb ht, padded_eq hlen (by omega)]
  show w.set! t (_ ||| padded data (_ + BitVec.ofNat 64 1) <<< 16 |||
    padded data (_ + BitVec.ofNat 64 2) <<< 8 ||| padded data (_ + BitVec.ofNat 64 3)) = _
  rw [hnext, hnext, hnext, padded_eq hlen (by omega), padded_eq hlen (by omega),
    padded_eq hlen (by omega)]

/-- The first loop fills in the words of the block. -/
theorem loadWords_eq {data : List UInt8} (hlen : data.length < 2 ^ 61) {b : ℕ}
    (hb : b < (Fips.pad data).length / 64) {t : ℕ} (ht : t < 16) :
    ((List.range' 0 16).foldl (loadWord data (BitVec.ofNat 64 b)) (Vector.replicate 64 0))[t]! =
      Fips.W (blockOf data b) t := by
  refine foldl_range_invariant (a := 0) (c := 16)
    (fun n w => ∀ t < n, w[t]! = Fips.W (blockOf data b) t) (by simp) ?_ t ht
  intro n w _ hn hw t ht
  rw [loadWord_eq hlen hb (by omega), getElem!_set! _ _ (by omega)]
  by_cases hnt : n = t
  · rw [if_pos hnt, Fips.W, if_pos (by omega), hnt]
  · rw [if_neg hnt]
    exact hw t (by omega)

/-- The second loop continues with the recurrence. -/
theorem schedule_eq {data : List UInt8} (hlen : data.length < 2 ^ 61) {b : ℕ}
    (hb : b < (Fips.pad data).length / 64) {t : ℕ} (ht : t < 64) :
    (schedule data (BitVec.ofNat 64 b))[t]! = Fips.W (blockOf data b) t := by
  rw [schedule]
  refine foldl_range_invariant (a := 16) (c := 48)
    (fun n w => ∀ t < n, w[t]! = Fips.W (blockOf data b) t)
    (fun t ht => loadWords_eq hlen hb ht) ?_ t ht
  intro n w hlo hn hw t ht
  rw [extendWord, getElem!_set! _ _ (by omega)]
  by_cases hnt : n = t
  · subst hnt
    rw [if_pos rfl, hw (n - 16) (by omega), hw (n - 15) (by omega), hw (n - 7) (by omega),
      hw (n - 2) (by omega), Fips.W.eq_def _ n, if_neg (by omega), Fips.smallSigma0,
      Fips.smallSigma1, rotr_eq _ (by decide), rotr_eq _ (by decide), rotr_eq _ (by decide),
      rotr_eq _ (by decide)]
    ac_rfl
  · rw [if_neg hnt]
    exact hw t (by omega)

/-! ## The rounds -/

/-- The table is the one that the roots of the primes give. -/
theorem sha256_k_eq {t : ℕ} (ht : t < 64) : sha256_k[t]! = Fips.K t := by
  have hall : ∀ t : Fin 64, sha256_k[t.val]! = Fips.K t := by decide +kernel
  exact hall ⟨t, ht⟩

/-- The locals as the working variables of the specification. -/
def Working.vars (v : Working) : Fips.Vars := ⟨v.a, v.b, v.c, v.d, v.e, v.f, v.g, v.hh⟩

/-- The array as a hash value. -/
def hashValue (h : Vector (BitVec 32) 8) : Fips.Vars :=
  ⟨h[0], h[1], h[2], h[3], h[4], h[5], h[6], h[7]⟩

theorem vars_loadHash (h : Vector (BitVec 32) 8) : (loadHash h).vars = hashValue h := rfl

theorem hashValue_addHash (h : Vector (BitVec 32) 8) (v : Working) :
    hashValue (addHash h v) = v.vars.add (hashValue h) := by
  show Fips.Vars.mk (h[0] + v.a) (h[1] + v.b) (h[2] + v.c) (h[3] + v.d) (h[4] + v.e) (h[5] + v.f)
    (h[6] + v.g) (h[7] + v.hh) = _
  simp only [Fips.Vars.add, Working.vars, hashValue, BitVec.add_comm]

theorem vars_sha256Round {w : Vector (BitVec 32) 64} {W : ℕ → Fips.Word} {t : ℕ} (ht : t < 64)
    (hw : w[t]! = W t) (v : Working) :
    (sha256Round w v t).vars = Fips.round W v.vars t := by
  simp only [sha256Round, sha256_k_eq ht, hw, rotr_eq _ (show 2 < 32 by decide),
    rotr_eq _ (show 6 < 32 by decide), rotr_eq _ (show 11 < 32 by decide),
    rotr_eq _ (show 13 < 32 by decide), rotr_eq _ (show 22 < 32 by decide),
    rotr_eq _ (show 25 < 32 by decide)]
  rfl

/-- **One turn of the block loop is one compression.** -/
theorem hashValue_sha256Block {data : List UInt8} (hlen : data.length < 2 ^ 61) {b : ℕ}
    (hb : b < (Fips.pad data).length / 64) (h : Vector (BitVec 32) 8) :
    hashValue (sha256Block data h (BitVec.ofNat 64 b)) =
      Fips.compress (hashValue h) (blockOf data b) := by
  have hrounds (v : Working) :
      ((List.range 64).foldl (sha256Round (schedule data (BitVec.ofNat 64 b))) v).vars =
        (List.range 64).foldl (Fips.round (Fips.W (blockOf data b))) v.vars := by
    apply List.foldl_rel (r := fun v v' => Working.vars v = v') rfl
    intro t ht v v' hv
    have ht' : t < 64 := List.mem_range.mp ht
    rw [← hv]
    exact vars_sha256Round ht' (schedule_eq hlen hb ht') v
  rw [Fips.compress, sha256Block, hashValue_addHash, hrounds, vars_loadHash]

theorem hashValue_sha256Init : hashValue sha256Init = Fips.H0 := by decide +kernel

theorem lowByte_shift (x : BitVec 32) (k : ℕ) :
    lowByte (x >>> (8 * k)) = UInt8.ofNat (x.toNat / 256 ^ k) := by
  apply UInt8.toNat_inj.mp
  have hpow : 2 ^ (8 * k) = 256 ^ k := by rw [Nat.pow_mul]
  rw [UInt8.toNat_ofNat', ← hpow, ← Nat.shiftRight_eq_div_pow, ← BitVec.toNat_ushiftRight]
  exact BitVec.toNat_setWidth _ _

theorem wordBytes_eq (x : BitVec 32) :
    Fips.wordBytes x = [lowByte (x >>> 24), lowByte (x >>> 16), lowByte (x >>> 8), lowByte x] := by
  have h0 : lowByte x = UInt8.ofNat (x.toNat / 256 ^ 0) := lowByte_shift x 0
  rw [lowByte_shift x 3, lowByte_shift x 2, lowByte_shift x 1, h0]
  rfl

theorem bytes_hashValue (h : Vector (BitVec 32) 8) : (hashValue h).bytes = digest h := by
  rw [Fips.Vars.bytes, funext wordBytes_eq]
  rfl

/-- **The digest is the one of the standard.** -/
theorem sha256_eq_fips {data : List UInt8} (hlen : data.length < 2 ^ 61) :
    sha256 data = Fips.sha256 data ∧
    (nblocks (BitVec.ofNat 64 data.length)).toNat = (data.length + 9) ⌈/⌉ 64 ∧
    ∀ i < (Fips.pad data).length,
      padded data (BitVec.ofNat 64 i) = byte ((Fips.pad data).getD i 0) := by
  have hpad := length_pad data
  have hzeros := zeros_eq data.length
  have hblocks : (nblocks (BitVec.ofNat 64 data.length)).toNat = (Fips.pad data).length / 64 := by
    rw [nblocks, BitVec.toNat_udiv, toNat_total hlen]
    rfl
  refine ⟨?_, ?_, fun i hi => padded_eq hlen hi⟩
  · rw [sha256, Fips.sha256, parse_eq, hblocks, List.foldl_map, ← hashValue_sha256Init,
      ← bytes_hashValue]
    congr 1
    apply List.foldl_rel (r := fun h H => hashValue h = H) rfl
    intro b hb h H hh
    rw [← hh]
    exact hashValue_sha256Block hlen (List.mem_range.mp hb) h
  · rw [hblocks, Nat.ceilDiv_eq_add_pred_div]
    omega

theorem sha256_eq_fips_abc :
    sha256 [0x61, 0x62, 0x63] = Fips.sha256 [0x61, 0x62, 0x63] ∧
    (nblocks (BitVec.ofNat 64 3)).toNat = (3 + 9) ⌈/⌉ 64 ∧
    ∀ i < (Fips.pad [0x61, 0x62, 0x63]).length,
      padded [0x61, 0x62, 0x63] (BitVec.ofNat 64 i) =
        byte ((Fips.pad [0x61, 0x62, 0x63]).getD i 0) :=
  sha256_eq_fips (by decide)

end EglUtil.Hash
