import EglUtil.Lib.Mixing

/-!
# The FNV-1a and MurmurHash3 hashes

`fnv1a_64`, `fnv1a_32` and `murmur3_x86_32` of a string's bytes. A `char` is read through
`static_cast<std::uint8_t>`, so a byte from 128 on is widened with zeros and not with its sign.
Arithmetic is modulo `2 ^ 32` or `2 ^ 64`.

**Theorem (`fnv1a_detects_byte`).** Strings of one length that differ in exactly one byte have
different FNV-1a hashes, of both widths.

**Theorem (`murmur3_detects_block`).** Strings of one length that differ only within one aligned
block of four bytes, or only within the tail, have different MurmurHash3 hashes, for every seed.

Both loops fold a step that `Mixes`: its factors are odd words, and rotating and xoring with the
own shift lose nothing. What comes after MurmurHash3's loop is injective in the loop's result, and
at a fixed result in the tail word.
-/

namespace EglUtil.Hash

open Mixing

variable {w : ℕ}

/-- `static_cast<std::uint8_t>(ch)`, widened to a word. -/
def byte (ch : UInt8) : BitVec w := ch.toBitVec.setWidth w

theorem byte_injective (hw : 8 ≤ w) : Function.Injective (byte : UInt8 → BitVec w) := by
  intro a b hab
  have h := congrArg (BitVec.setWidth 8) hab
  simp only [byte, BitVec.setWidth_setWidth_of_le _ hw, BitVec.setWidth_eq] at h
  exact UInt8.toBitVec_inj.mp h

/-! ## FNV-1a -/

/-- One turn of the loops of `fnv1a_64` and `fnv1a_32`. -/
def fnvStep (prime hash : BitVec w) (ch : UInt8) : BitVec w :=
  let hash := hash ^^^ byte ch
  hash * prime

/-- The body of `fnv1a_64` and `fnv1a_32`: they differ in the width, the offset and the prime. -/
def fnv1a (offset prime : BitVec w) (data : List UInt8) : BitVec w :=
  data.foldl (fnvStep prime) offset

/-- `fnv1a_64(data)` -/
def fnv1a_64 (data : List UInt8) : BitVec 64 := fnv1a 0xcbf29ce484222325 0x100000001b3 data

/-- `fnv1a_32(data)` -/
def fnv1a_32 (data : List UInt8) : BitVec 32 := fnv1a 0x811c9dc5 0x01000193 data

/-- A turn with an odd factor loses neither the hash nor the byte. -/
theorem fnvStep_mixes {prime : BitVec w} (hw : 8 ≤ w) (hodd : prime.toNat % 2 = 1) :
    Mixes (fnvStep prime) where
  state ch := by
    intro a b hab
    exact (BitVec.xor_left_inj _).mp (mul_odd_injective hodd hab)
  symbol hash := by
    intro a b hab
    exact byte_injective hw ((BitVec.xor_right_inj _).mp (mul_odd_injective hodd hab))

theorem fnv1a_ne {offset prime : BitVec w} (hw : 8 ≤ w) (hodd : prime.toNat % 2 = 1) {i : ℕ}
    {xs ys : List UInt8} (h : DifferOnlyIn (· = i) xs ys) :
    fnv1a offset prime xs ≠ fnv1a offset prime ys :=
  (fnvStep_mixes hw hodd).foldl_ne h offset

/-- **FNV-1a detects every change of one byte.** -/
theorem fnv1a_detects_byte {i : ℕ} {xs ys : List UInt8} (h : DifferOnlyIn (· = i) xs ys) :
    fnv1a_32 xs ≠ fnv1a_32 ys ∧ fnv1a_64 xs ≠ fnv1a_64 ys := by
  constructor
  · exact fnv1a_ne (by decide) (by decide) h
  · exact fnv1a_ne (by decide) (by decide) h

/-- The bytes of "a\xff" and "aa". -/
theorem fnv1a_detects_byte_sign :
    fnv1a_32 [0x61, 0xff] ≠ fnv1a_32 [0x61, 0x61] ∧ fnv1a_64 [0x61, 0xff] ≠ fnv1a_64 [0x61, 0x61] :=
  fnv1a_detects_byte (i := 1) ⟨rfl, by decide, fun j hj => by
    match j, hj with
    | 0, _ => rfl
    | _ + 2, _ => rfl⟩

/-- The published values for "foobar". -/
example : fnv1a_32 [0x66, 0x6f, 0x6f, 0x62, 0x61, 0x72] = 0xbf9cf968 ∧
    fnv1a_64 [0x66, 0x6f, 0x6f, 0x62, 0x61, 0x72] = 0x85944171f73967e8 := by decide

/-! ## MurmurHash3 -/

/-- The byte at index `i` as a word: the lambda `byte` of `murmur3_x86_32`. -/
def byteAt (data : List UInt8) (i : ℕ) : BitVec 32 := byte (data.getD i 0)

/-- `k1 *= c1`, the rotation by 15, `k1 *= c2`. -/
def scramble (k1 : BitVec 32) : BitVec 32 :=
  let k1 := k1 * 0xcc9e2d51
  let k1 := k1 <<< 15 ||| k1 >>> 17
  k1 * 0x1b873593

/-- What one turn of the block loop does to `h1`. -/
def mixBlock (h1 k1 : BitVec 32) : BitVec 32 :=
  let h1 := h1 ^^^ scramble k1
  let h1 := h1 <<< 13 ||| h1 >>> 19
  h1 * 5 + 0xe6546b64

/-- The little-endian word that turn `i` of the block loop reads. -/
def blockWord (data : List UInt8) (i : ℕ) : BitVec 32 :=
  let j := i * 4
  byteAt data j ||| byteAt data (j + 1) <<< 8 ||| byteAt data (j + 2) <<< 16 |||
    byteAt data (j + 3) <<< 24

/-- `h1` after the block loop. -/
def blockLoop (data : List UInt8) (seed : BitVec 32) : BitVec 32 :=
  (List.range (data.length / 4)).foldl (fun h1 i => mixBlock h1 (blockWord data i)) seed

/-- The `switch` on `len & 3`: every case falls through to the next one below it. -/
def mixTail (data : List UInt8) (h1 : BitVec 32) : BitVec 32 :=
  let tail := data.length / 4 * 4
  let case1 := fun k1 => h1 ^^^ scramble (k1 ^^^ byteAt data tail)
  let case2 := fun k1 => case1 (k1 ^^^ byteAt data (tail + 1) <<< 8)
  let case3 := fun k1 => case2 (k1 ^^^ byteAt data (tail + 2) <<< 16)
  match data.length &&& 3 with
  | 3 => case3 0
  | 2 => case2 0
  | 1 => case1 0
  | _ => h1

/-- The statements after the `switch`. -/
def finalize (len : ℕ) (h1 : BitVec 32) : BitVec 32 :=
  let h1 := h1 ^^^ BitVec.ofNat 32 len
  let h1 := h1 ^^^ h1 >>> 16
  let h1 := h1 * 0x85ebca6b
  let h1 := h1 ^^^ h1 >>> 13
  let h1 := h1 * 0xc2b2ae35
  h1 ^^^ h1 >>> 16

/-- `murmur3_x86_32(data, seed)` -/
def murmur3_x86_32 (data : List UInt8) (seed : BitVec 32 := 0) : BitVec 32 :=
  let h1 := blockLoop data seed
  let h1 := mixTail data h1
  finalize data.length h1

/-- The published values for the empty string, "a" and "hello". -/
example : murmur3_x86_32 [] 1 = 0x514e28b7 ∧ murmur3_x86_32 [0x61] = 0x3c2569b2 ∧
    murmur3_x86_32 [0x68, 0x65, 0x6c, 0x6c, 0x6f] = 0x248bfa47 := by decide +kernel

/-! ### The words hold the bytes -/

/-- The low `n` bytes of `k1` are the `n` bytes from `start` on. -/
def Lanes (data : List UInt8) (start n : ℕ) (k1 : BitVec 32) : Prop :=
  ∀ j < n, ∀ i < 8, k1.getLsbD (8 * j + i) = (data.getD (start + j) 0).toBitVec.getLsbD i

/-- A word tells the bytes it holds. -/
theorem Lanes.getElem?_eq {xs ys : List UInt8} {start n i : ℕ} {k1 : BitVec 32}
    (hx : Lanes xs start n k1) (hy : Lanes ys start n k1) (hlen : xs.length = ys.length)
    (hlo : start ≤ i) (hhi : i < start + n) : xs[i]? = ys[i]? := by
  have hbyte : xs.getD i 0 = ys.getD i 0 := by
    apply UInt8.toBitVec_inj.mp
    apply BitVec.eq_of_getLsbD_eq
    intro b hb
    have h := (hx (i - start) (by omega) b hb).symm.trans (hy (i - start) (by omega) b hb)
    rwa [show start + (i - start) = i by omega] at h
  by_cases hi : i < xs.length
  · have hi' : i < ys.length := hlen ▸ hi
    rw [List.getD_eq_getElem?_getD, List.getD_eq_getElem?_getD, List.getElem?_eq_getElem hi,
      List.getElem?_eq_getElem hi', Option.getD_some, Option.getD_some] at hbyte
    rw [List.getElem?_eq_getElem hi, List.getElem?_eq_getElem hi', hbyte]
  · rw [List.getElem?_eq_none (by omega), List.getElem?_eq_none (by omega)]

/-- Of the byte shifted to place `k` only that place sees anything. -/
theorem getLsbD_byte_shiftLeft (ch : UInt8) (k : ℕ) {j b : ℕ} (hj : j < 4) (hb : b < 8) :
    ((byte ch : BitVec 32) <<< (8 * k)).getLsbD (8 * j + b) =
      (decide (j = k) && ch.toBitVec.getLsbD b) := by
  simp only [byte, BitVec.getLsbD_shiftLeft, BitVec.getLsbD_setWidth]
  by_cases hjk : j = k
  · subst hjk
    simp [show 8 * j + b < 32 by omega, show b < 32 by omega]
  · by_cases hlt : j < k
    · simp [hjk, show 8 * j + b < 8 * k by omega]
    · simp [hjk, BitVec.getLsbD_of_ge _ (8 * j + b - 8 * k) (show 8 ≤ 8 * j + b - 8 * k by omega)]

theorem lanes_blockWord (data : List UInt8) (i : ℕ) : Lanes data (i * 4) 4 (blockWord data i) := by
  intro j hj b hb
  have h (p k : ℕ) := getLsbD_byte_shiftLeft (data.getD p 0) k hj hb
  have h0 := h (i * 4) 0
  have h1 := h (i * 4 + 1) 1
  have h2 := h (i * 4 + 2) 2
  have h3 := h (i * 4 + 3) 3
  simp only [Nat.reduceMul, BitVec.shiftLeft_zero] at h0 h1 h2 h3
  simp only [blockWord, byteAt, BitVec.getLsbD_or, h0, h1, h2, h3]
  match j, hj with
  | 0, _ => simp
  | 1, _ => simp
  | 2, _ => simp
  | 3, _ => simp

/-- `k1` after the bytes of a tail of `r` bytes. -/
def tailWord (data : List UInt8) (tail : ℕ) : ℕ → BitVec 32
  | 3 => 0 ^^^ byteAt data (tail + 2) <<< 16 ^^^ byteAt data (tail + 1) <<< 8 ^^^ byteAt data tail
  | 2 => 0 ^^^ byteAt data (tail + 1) <<< 8 ^^^ byteAt data tail
  | _ => 0 ^^^ byteAt data tail

theorem mixTail_eq (data : List UInt8) (h1 : BitVec 32) :
    mixTail data h1 = if data.length % 4 = 0 then h1 else
      h1 ^^^ scramble (tailWord data (data.length / 4 * 4) (data.length % 4)) := by
  have hlt : data.length % 4 < 4 := Nat.mod_lt _ (by decide)
  have hand : data.length &&& 3 = data.length % 4 := Nat.and_two_pow_sub_one_eq_mod _ 2
  rw [mixTail, hand]
  match data.length % 4, hlt with
  | 0, _ => rfl
  | 1, _ => rfl
  | 2, _ => rfl
  | 3, _ => rfl

theorem lanes_tailWord (data : List UInt8) (tail : ℕ) {r : ℕ} (hpos : 0 < r) (hr : r < 4) :
    Lanes data tail r (tailWord data tail r) := by
  intro j hj b hb
  have h (p k : ℕ) := getLsbD_byte_shiftLeft (data.getD p 0) k (show j < 4 by omega) hb
  have h0 := h tail 0
  have h1 := h (tail + 1) 1
  have h2 := h (tail + 2) 2
  simp only [Nat.reduceMul, BitVec.shiftLeft_zero] at h0 h1 h2
  match r, hpos, hr with
  | 1, _, _ =>
    simp only [tailWord, byteAt, BitVec.getLsbD_xor, h0]
    match j, hj with
    | 0, _ => simp
  | 2, _, _ =>
    simp only [tailWord, byteAt, BitVec.getLsbD_xor, h0, h1]
    match j, hj with
    | 0, _ => simp
    | 1, _ => simp
  | 3, _, _ =>
    simp only [tailWord, byteAt, BitVec.getLsbD_xor, h0, h1, h2]
    match j, hj with
    | 0, _ => simp
    | 1, _ => simp
    | 2, _ => simp

/-! ### Nothing is lost on the way -/

theorem scramble_injective : Function.Injective scramble := by
  have hc1 := mul_odd_injective (w := 32) (c := 0xcc9e2d51) (by decide)
  have hrot := rotate_injective (w := 32) (k := 15) (by decide)
  have hc2 := mul_odd_injective (w := 32) (c := 0x1b873593) (by decide)
  exact hc2.comp (hrot.comp hc1)

/-- A turn of the block loop loses neither `h1` nor the word. -/
theorem mixBlock_mixes : Mixes mixBlock := by
  have hrot := rotate_injective (w := 32) (k := 13) (by decide)
  have hmul := mul_odd_injective (w := 32) (c := 5) (by decide)
  have hafter {a b : BitVec 32} (hab : (a <<< 13 ||| a >>> 19) * 5 + 0xe6546b64 =
      (b <<< 13 ||| b >>> 19) * 5 + 0xe6546b64) : a = b :=
    hrot (hmul ((BitVec.add_left_inj _).mp hab))
  constructor
  · intro k1 a b hab
    exact (BitVec.xor_left_inj _).mp (hafter hab)
  · intro h1 a b hab
    exact scramble_injective ((BitVec.xor_right_inj _).mp (hafter hab))

theorem finalize_injective (len : ℕ) : Function.Injective (finalize len) := by
  have hlen : Function.Injective fun h1 : BitVec 32 => h1 ^^^ BitVec.ofNat 32 len :=
    fun _ _ hab => (BitVec.xor_left_inj _).mp hab
  have h16 := xorShift_injective (w := 32) (k := 16) (by decide)
  have h13 := xorShift_injective (w := 32) (k := 13) (by decide)
  have hm := mul_odd_injective (w := 32) (c := 0x85ebca6b) (by decide)
  have hn := mul_odd_injective (w := 32) (c := 0xc2b2ae35) (by decide)
  exact h16.comp (hn.comp (h13.comp (hm.comp (h16.comp hlen))))

theorem mixTail_injective (data : List UInt8) : Function.Injective (mixTail data) := by
  intro a b hab
  rw [mixTail_eq, mixTail_eq] at hab
  by_cases hr : data.length % 4 = 0
  · rwa [if_pos hr, if_pos hr] at hab
  · rw [if_neg hr, if_neg hr] at hab
    exact (BitVec.xor_left_inj _).mp hab

/-! ### What reads the same bytes does the same -/

section Agree

variable {xs ys : List UInt8}

theorem byteAt_congr {i : ℕ} (h : xs[i]? = ys[i]?) : byteAt xs i = byteAt ys i := by
  rw [byteAt, byteAt, List.getD_eq_getElem?_getD, List.getD_eq_getElem?_getD, h]

theorem blockWord_congr {i : ℕ} (h : ∀ j, j / 4 = i → xs[j]? = ys[j]?) :
    blockWord xs i = blockWord ys i := by
  simp only [blockWord]
  rw [byteAt_congr (h (i * 4) (by omega)), byteAt_congr (h (i * 4 + 1) (by omega)),
    byteAt_congr (h (i * 4 + 2) (by omega)), byteAt_congr (h (i * 4 + 3) (by omega))]

theorem mixTail_congr (hlen : xs.length = ys.length)
    (h : ∀ j, xs.length / 4 * 4 ≤ j → xs[j]? = ys[j]?) : mixTail xs = mixTail ys := by
  funext h1
  simp only [mixTail, ← hlen]
  rw [byteAt_congr (h (xs.length / 4 * 4) (by omega)),
    byteAt_congr (h (xs.length / 4 * 4 + 1) (by omega)),
    byteAt_congr (h (xs.length / 4 * 4 + 2) (by omega))]

/-- The words that the block loop folds. -/
def blockWords (data : List UInt8) : List (BitVec 32) :=
  (List.range (data.length / 4)).map (blockWord data)

theorem blockLoop_eq (data : List UInt8) (seed : BitVec 32) :
    blockLoop data seed = (blockWords data).foldl mixBlock seed := by
  rw [blockLoop, blockWords, List.foldl_map]

theorem blockWords_congr (hlen : xs.length = ys.length)
    (h : ∀ i < xs.length / 4, blockWord xs i = blockWord ys i) : blockWords xs = blockWords ys := by
  rw [blockWords, blockWords, ← hlen]
  apply List.map_congr_left
  intro i hi
  exact h i (List.mem_range.mp hi)

/-- A change within one block of bytes is a change of one word. -/
theorem blockWords_differ {b : ℕ} (hb : b < xs.length / 4)
    (h : DifferOnlyIn (fun i => i / 4 = b) xs ys) :
    DifferOnlyIn (· = b) (blockWords xs) (blockWords ys) where
  length_eq := by simp only [blockWords, List.length_map, List.length_range, h.length_eq]
  ne := by
    intro heq
    obtain ⟨i, rfl, hi⟩ := h.exists_ne
    have hw : blockWord xs (i / 4) = blockWord ys (i / 4) := by
      have hget := congrArg (fun ws : List (BitVec 32) => ws[i / 4]?) heq
      simpa [blockWords, ← h.length_eq, hb] using hget
    have hx := lanes_blockWord xs (i / 4)
    have hy := lanes_blockWord ys (i / 4)
    rw [← hw] at hy
    exact hi (hx.getElem?_eq hy h.length_eq (by omega) (by omega))
  agree := by
    intro i hi
    have hw : blockWord xs i = blockWord ys i :=
      blockWord_congr fun j hj => h.agree j (by rw [hj]; exact hi)
    simp only [blockWords, List.getElem?_map, ← h.length_eq]
    by_cases hlt : i < xs.length / 4
    · rw [List.getElem?_range hlt, Option.map_some, Option.map_some, hw]
    · rw [List.getElem?_eq_none (by simpa using hlt)]
      rfl

end Agree

/-- **MurmurHash3 detects every change within one block or within the tail.** -/
theorem murmur3_detects_block (seed : BitVec 32) {xs ys : List UInt8}
    (h : (∃ b < xs.length / 4, DifferOnlyIn (fun i => i / 4 = b) xs ys) ∨
      DifferOnlyIn (fun i => xs.length / 4 * 4 ≤ i) xs ys) :
    murmur3_x86_32 xs seed ≠ murmur3_x86_32 ys seed := by
  intro heq
  rcases h with ⟨b, hb, h⟩ | h
  · have hloop : blockLoop xs seed ≠ blockLoop ys seed := by
      rw [blockLoop_eq, blockLoop_eq]
      exact mixBlock_mixes.foldl_ne (blockWords_differ hb h) seed
    have htail : mixTail xs = mixTail ys :=
      mixTail_congr h.length_eq fun j hj => h.agree j (by omega)
    simp only [murmur3_x86_32, htail, h.length_eq] at heq
    exact hloop (mixTail_injective ys (finalize_injective _ heq))
  · have hloop : blockLoop xs seed = blockLoop ys seed := by
      rw [blockLoop_eq, blockLoop_eq, blockWords_congr h.length_eq]
      exact fun i hi => blockWord_congr fun j hj => h.agree j (by omega)
    obtain ⟨i, hlo, hi⟩ := h.exists_ne
    have hxi : i < xs.length := by
      by_contra hge
      have hlen := h.length_eq
      exact hi (by rw [List.getElem?_eq_none (by omega), List.getElem?_eq_none (by omega)])
    simp only [murmur3_x86_32, hloop, h.length_eq] at heq
    have hmix := finalize_injective _ heq
    rw [mixTail_eq, mixTail_eq, h.length_eq] at hmix
    have hlen := h.length_eq
    rw [if_neg (by omega), if_neg (by omega), BitVec.xor_right_inj] at hmix
    have hx := lanes_tailWord xs (ys.length / 4 * 4) (r := ys.length % 4) (by omega) (by omega)
    have hy := lanes_tailWord ys (ys.length / 4 * 4) (r := ys.length % 4) (by omega) (by omega)
    rw [← scramble_injective hmix] at hy
    exact hi (hx.getElem?_eq hy h.length_eq (by omega) (by omega))

/-- "hello" and "hallo" differ in the block, "hello" and "hellp" in the tail. -/
theorem murmur3_detects_block_hello :
    murmur3_x86_32 [0x68, 0x65, 0x6c, 0x6c, 0x6f] 7 ≠
      murmur3_x86_32 [0x68, 0x61, 0x6c, 0x6c, 0x6f] 7 ∧
    murmur3_x86_32 [0x68, 0x65, 0x6c, 0x6c, 0x6f] 7 ≠
      murmur3_x86_32 [0x68, 0x65, 0x6c, 0x6c, 0x70] 7 := by
  constructor
  · refine murmur3_detects_block 7 (.inl ⟨0, by decide, rfl, by decide, fun j hj => ?_⟩)
    match j, hj with
    | 4, _ => rfl
    | _ + 5, _ => rfl
  · refine murmur3_detects_block 7 (.inr ⟨rfl, by decide, fun j hj => ?_⟩)
    match j, hj with
    | 0, _ => rfl
    | 1, _ => rfl
    | 2, _ => rfl
    | 3, _ => rfl
    | _ + 4, hj => exact absurd (Nat.le_add_left 4 _) hj

end EglUtil.Hash
