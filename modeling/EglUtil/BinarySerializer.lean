import Mathlib.Data.Nat.Digits.Lemmas
import Mathlib.Data.List.GetD

/-!
# `BinarySerializer` and `BinaryDeserializer`

A codec over caller-owned byte buffers. A scalar is copied as its object representation, and
reversed first when the wire order differs from the host's; raw blocks are copied verbatim. The
host order is a parameter, and may differ between the writer and the reader.

**Theorem (`streams_agree`).** After any calls the written bytes are the accepted encodings in
call order, where the encoding of a scalar is its base-256 digits in wire order, and a reader on
any host that asks for the accepted items gets exactly them.

Over arbitrary bytes, successful reads are consecutive slices of the buffer, and a failed read
leaves the cursor where it was.

Both directions rest on one fact about the conditional reverse (`reorder_ordered`,
`ordered_reorder`): whatever the host order, the bytes on the wire are the digits in wire order.
-/

namespace EglUtil

/-- `std::endian`, without the mixed orders that the header rejects. -/
inductive Endian where
  | little
  | big
deriving Repr, DecidableEq

/-- A contiguous range of bytes; its size is a `size_t`. -/
structure Span where
  bytes : List UInt8
  size_lt : bytes.length < 2 ^ 64

namespace Span

/-- `size()`. -/
def size (b : Span) : UInt64 := UInt64.ofNat b.bytes.length

@[simp] theorem toNat_size (b : Span) : b.size.toNat = b.bytes.length :=
  UInt64.toNat_ofNat_of_lt' b.size_lt

/-- With the cursor inside the buffer, `size() - pos` does not wrap. -/
theorem toNat_size_sub (b : Span) {pos : UInt64} (h : pos.toNat ≤ b.bytes.length) :
    (b.size - pos).toNat = b.bytes.length - pos.toNat := by
  have hle : pos ≤ b.size := by
    rw [UInt64.le_iff_toNat_le, toNat_size]
    exact h
  rw [UInt64.toNat_sub_of_le _ _ hle, toNat_size]

/-- Nor does an advance that stays inside the buffer. -/
theorem toNat_advance (b : Span) {pos : UInt64} {n : Nat} (h : pos.toNat + n ≤ b.bytes.length) :
    (pos + UInt64.ofNat n).toNat = pos.toNat + n := by
  have hsize := b.size_lt
  rw [UInt64.toNat_add, UInt64.toNat_ofNat_of_lt' (by omega : n < 2 ^ 64)]
  exact Nat.mod_eq_of_lt (by omega)

end Span

/-! ## Object representations -/

/-- Bytes given least significant first, laid out in order `e`. -/
def Endian.ordered (e : Endian) (bytes : List UInt8) : List UInt8 :=
  match e with
  | .little => bytes
  | .big => bytes.reverse

/-- The bytes of an `n`-byte value, least significant first. -/
def significantBytes {n : Nat} (v : BitVec (8 * n)) : List UInt8 :=
  List.ofFn fun i : Fin n => UInt8.ofBitVec (v.extractLsb' (8 * i) 8)

/-- `std::bit_cast` of a scalar to the bytes of its object representation. -/
def toObject (host : Endian) {n : Nat} (v : BitVec (8 * n)) : List UInt8 :=
  host.ordered (significantBytes v)

/-- `std::bit_cast` of `n` bytes to a scalar. -/
def ofObject (host : Endian) (n : Nat) (raw : List UInt8) : BitVec (8 * n) :=
  BitVec.ofNat (8 * n) (Nat.ofDigits 256 ((host.ordered raw).map UInt8.toNat))

/-- The conditional `std::ranges::reverse` of both directions. -/
def reorder (host order : Endian) (raw : List UInt8) : List UInt8 :=
  if order ≠ host then raw.reverse else raw

@[simp] theorem length_ordered (e : Endian) (bytes : List UInt8) :
    (e.ordered bytes).length = bytes.length := by
  cases e
  · rfl
  · exact List.length_reverse

@[simp] theorem ordered_ordered (e : Endian) (bytes : List UInt8) :
    e.ordered (e.ordered bytes) = bytes := by
  cases e
  · rfl
  · exact List.reverse_reverse bytes

@[simp] theorem length_reorder (host order : Endian) (raw : List UInt8) :
    (reorder host order raw).length = raw.length := by
  unfold reorder
  split_ifs
  · exact List.length_reverse
  · rfl

/-- The host order cancels. -/
theorem reorder_ordered (host order : Endian) (bytes : List UInt8) :
    reorder host order (host.ordered bytes) = order.ordered bytes := by
  cases host <;> cases order <;> simp [reorder, Endian.ordered]

theorem ordered_reorder (host order : Endian) (raw : List UInt8) :
    host.ordered (reorder host order raw) = order.ordered raw := by
  cases host <;> cases order <;> simp [reorder, Endian.ordered]

/-! ## The wire encoding -/

/-- The `n` base-256 digits of `v`, least significant first. -/
def digits {n : Nat} (v : BitVec (8 * n)) : List UInt8 :=
  (Nat.digitsAppend 256 n v.toNat).map UInt8.ofNat

theorem toNat_lt_pow {n : Nat} (v : BitVec (8 * n)) : v.toNat < 256 ^ n := by
  have h := v.isLt
  rwa [pow_mul] at h

@[simp] theorem length_digits {n : Nat} (v : BitVec (8 * n)) : (digits v).length = n := by
  rw [digits, List.length_map, Nat.length_digitsAppend (by decide) n (toNat_lt_pow v)]

@[simp] theorem length_significantBytes {n : Nat} (v : BitVec (8 * n)) :
    (significantBytes v).length = n := List.length_ofFn

theorem map_toNat_digits {n : Nat} (v : BitVec (8 * n)) :
    (digits v).map UInt8.toNat = Nat.digitsAppend 256 n v.toNat := by
  rw [digits, List.map_map]
  refine (List.map_congr_left fun d hd => ?_).trans (List.map_id _)
  exact UInt8.toNat_ofNat_of_lt' (Nat.lt_of_mem_digitsAppend (by decide) n d hd)

theorem ofDigits_digits {n : Nat} (v : BitVec (8 * n)) :
    Nat.ofDigits 256 ((digits v).map UInt8.toNat) = v.toNat := by
  rw [map_toNat_digits]
  exact (Nat.setInvOn_digitsAppend_ofDigits (by decide) n).2 (toNat_lt_pow v)

theorem digits_ofDigits {n : Nat} {raw : List UInt8} (h : raw.length = n) :
    digits (BitVec.ofNat (8 * n) (Nat.ofDigits 256 (raw.map UInt8.toNat))) = raw := by
  have hmem : raw.map UInt8.toNat ∈ {L : List Nat | L.length = n ∧ ∀ x ∈ L, x < 256} := by
    refine ⟨by simpa using h, fun x hx => ?_⟩
    obtain ⟨b, -, rfl⟩ := List.mem_map.1 hx
    exact b.toNat_lt
  have hlt : Nat.ofDigits 256 (raw.map UInt8.toNat) < 2 ^ (8 * n) := by
    rw [pow_mul]
    exact Nat.mapsTo_ofDigits (by decide) n hmem
  rw [digits, BitVec.toNat_ofNat, Nat.mod_eq_of_lt hlt,
    (Nat.setInvOn_digitsAppend_ofDigits (by decide) n).1 hmem, List.map_map]
  exact (List.map_congr_left fun b _ => UInt8.ofNat_toNat).trans (List.map_id raw)

theorem getElem_digitsAppend {n x i : Nat} (hi : i < (Nat.digitsAppend 256 n x).length) :
    (Nat.digitsAppend 256 n x)[i] = x / 256 ^ i % 256 := by
  rw [← Nat.getD_digits _ _ (by decide), List.getElem_eq_getD 0, Nat.digitsAppend]
  by_cases h : i < (Nat.digits 256 x).length
  · exact List.getD_append _ _ _ _ h
  · push Not at h
    rw [List.getD_append_right _ _ _ _ h, List.getD_eq_default _ _ h]
    exact List.getElem?_getD_replicate_default_eq _ _ _

/-- The bytes a bit pattern is made of are its base-256 digits. -/
theorem significantBytes_eq_digits {n : Nat} (v : BitVec (8 * n)) :
    significantBytes v = digits v := by
  refine List.ext_getElem (by simp) fun i hi hi' => UInt8.toNat_inj.1 ?_
  have hbyte : v.toNat / 256 ^ i % 256 < 256 := Nat.mod_lt _ (by decide)
  have hshift : v.toNat >>> (8 * i) = v.toNat / 256 ^ i := by
    rw [Nat.shiftRight_eq_div_pow, pow_mul]
    rfl
  simp only [significantBytes, digits, List.getElem_ofFn, List.getElem_map, getElem_digitsAppend]
  rw [UInt8.toNat_ofNat_of_lt' hbyte, UInt8.toNat_ofBitVec, BitVec.extractLsb'_toNat, hshift]

/-! ## The writer -/

structure BinarySerializer where
  buffer : Span
  pos : UInt64
  order : Endian
  overflowed : Bool
  pos_le : pos.toNat ≤ buffer.bytes.length

/-- One call: `write<T>` of an `n`-byte scalar, or `write_bytes`. The same type serves for what
the reader returns. -/
inductive Item where
  | scalar (n : Nat) (v : BitVec (8 * n))
  | bytes (b : Span)

/-- The bytes of an item on the wire. -/
def Item.encode (order : Endian) : Item → List UInt8
  | .scalar _ v => order.ordered (digits v)
  | .bytes b => b.bytes

/-- The number of bytes of an item. -/
def Item.size : Item → Nat
  | .scalar n _ => n
  | .bytes b => b.bytes.length

@[simp] theorem Item.length_encode (order : Endian) (i : Item) :
    (i.encode order).length = i.size := by
  cases i <;> simp [Item.encode, Item.size]

namespace BinarySerializer

def create (buffer : Span) (order : Endian) : BinarySerializer :=
  ⟨buffer, 0, order, false, by simp⟩

def data (s : BinarySerializer) : List UInt8 := s.buffer.bytes.take s.pos.toNat

def bytesWritten (s : BinarySerializer) : UInt64 := s.pos

def remaining (s : BinarySerializer) : UInt64 := s.buffer.size - s.pos

theorem toNat_remaining (s : BinarySerializer) :
    s.remaining.toNat = s.buffer.bytes.length - s.pos.toNat :=
  s.buffer.toNat_size_sub s.pos_le

theorem add_le_of_fits (s : BinarySerializer) {n : Nat} (h : n ≤ s.remaining.toNat) :
    s.pos.toNat + n ≤ s.buffer.bytes.length := by
  have := s.pos_le
  rw [toNat_remaining] at h
  omega

/-- `std::ranges::copy` to `buffer_.subspan(pos_)`, then `pos_ += raw.size()`. -/
def put (s : BinarySerializer) (raw : List UInt8) (h : raw.length ≤ s.remaining.toNat) :
    BinarySerializer where
  buffer := ⟨s.buffer.bytes.take s.pos.toNat ++ raw ++
    s.buffer.bytes.drop (s.pos.toNat + raw.length), by
      have := s.add_le_of_fits h
      have := s.buffer.size_lt
      simp only [List.length_append, List.length_take, List.length_drop]
      omega⟩
  pos := s.pos + UInt64.ofNat raw.length
  order := s.order
  overflowed := s.overflowed
  pos_le := by
    have := s.add_le_of_fits h
    rw [s.buffer.toNat_advance this]
    simp only [List.length_append, List.length_take, List.length_drop]
    omega

/-- `overflowed_ = true; return false;` -/
def reject (s : BinarySerializer) : BinarySerializer := { s with overflowed := true }

def writeBytes (s : BinarySerializer) (src : Span) : Bool × BinarySerializer :=
  if h : src.bytes.length > s.remaining.toNat then (false, s.reject)
  else (true, s.put src.bytes (Nat.le_of_not_gt h))

def writeRaw (host : Endian) (s : BinarySerializer) (raw : List UInt8) :
    Bool × BinarySerializer :=
  if h : raw.length > s.remaining.toNat then (false, s.reject)
  else (true, s.put (reorder host s.order raw) (by simpa using h))

def write (host : Endian) (s : BinarySerializer) {n : Nat} (v : BitVec (8 * n)) :
    Bool × BinarySerializer := s.writeRaw host (toObject host v)

def call (host : Endian) (s : BinarySerializer) : Item → Bool × BinarySerializer
  | .scalar _ v => s.write host v
  | .bytes b => s.writeBytes b

theorem put_congr (s : BinarySerializer) {raw raw' : List UInt8} (e : raw = raw')
    (h : raw.length ≤ s.remaining.toNat) : s.put raw h = s.put raw' (e ▸ h) := by
  subst e
  rfl

/-- Either kind of call lays down the encoding of its item, or rejects it. -/
theorem call_of_fits (host : Endian) (s : BinarySerializer) {i : Item}
    (h : i.size ≤ s.remaining.toNat) :
    s.call host i = (true, s.put (i.encode s.order) (by rwa [Item.length_encode])) := by
  cases i with
  | scalar n v =>
    have hlen : ¬ (toObject host v).length > s.remaining.toNat := by
      simpa [toObject, Item.size] using h
    rw [call, write, writeRaw, dif_neg hlen]
    refine congrArg _ (put_congr s ?_ _)
    rw [toObject, reorder_ordered, significantBytes_eq_digits, Item.encode]
  | bytes b => rw [call, writeBytes, dif_neg (by simpa [Item.size] using h)]; rfl

theorem call_of_not_fits (host : Endian) (s : BinarySerializer) {i : Item}
    (h : ¬ i.size ≤ s.remaining.toNat) : s.call host i = (false, s.reject) := by
  cases i with
  | scalar n v =>
    have hlen : (toObject host v).length > s.remaining.toNat := by
      simpa [toObject, Item.size] using h
    rw [call, write, writeRaw, dif_pos hlen]
  | bytes b => rw [call, writeBytes, dif_pos (by simpa [Item.size] using h)]

theorem call_fits_iff (host : Endian) (s : BinarySerializer) (i : Item) :
    (s.call host i).1 = true ↔ i.size ≤ s.remaining.toNat := by
  by_cases h : i.size ≤ s.remaining.toNat
  · simp [call_of_fits host s h, h]
  · simp [call_of_not_fits host s h, h]

/-! ### What one call does -/

variable {s : BinarySerializer} {raw : List UInt8}

theorem bytes_put (h : raw.length ≤ s.remaining.toNat) :
    (s.put raw h).buffer.bytes =
      s.data ++ raw ++ s.buffer.bytes.drop (s.pos.toNat + raw.length) := rfl

theorem toNat_pos_put (h : raw.length ≤ s.remaining.toNat) :
    (s.put raw h).pos.toNat = s.pos.toNat + raw.length :=
  s.buffer.toNat_advance (s.add_le_of_fits h)

@[simp] theorem length_data (s : BinarySerializer) : s.data.length = s.pos.toNat := by
  rw [data, List.length_take]
  exact Nat.min_eq_left s.pos_le

theorem data_put (h : raw.length ≤ s.remaining.toNat) : (s.put raw h).data = s.data ++ raw := by
  rw [data, bytes_put, toNat_pos_put]
  exact List.take_left' (by simp)

theorem drop_put (h : raw.length ≤ s.remaining.toNat) :
    (s.put raw h).buffer.bytes.drop (s.put raw h).pos.toNat =
      s.buffer.bytes.drop (s.put raw h).pos.toNat := by
  rw [bytes_put, toNat_pos_put]
  exact List.drop_left' (by simp)

theorem length_put (h : raw.length ≤ s.remaining.toNat) :
    (s.put raw h).buffer.bytes.length = s.buffer.bytes.length := by
  have := s.add_le_of_fits h
  simp only [put, List.length_append, List.length_take, List.length_drop]
  omega

/-! ### Sequences of calls -/

def writeAll (host : Endian) (s : BinarySerializer) : List Item → BinarySerializer
  | [] => s
  | i :: is => writeAll host (s.call host i).2 is

/-- The items whose call returned true. -/
def accepted (host : Endian) (s : BinarySerializer) : List Item → List Item
  | [] => []
  | i :: is =>
    if (s.call host i).1 then i :: accepted host (s.call host i).2 is
    else accepted host (s.call host i).2 is

theorem accepted_sublist (host : Endian) (s : BinarySerializer) (items : List Item) :
    (s.accepted host items).Sublist items := by
  induction items generalizing s with
  | nil => exact List.Sublist.refl _
  | cons i is ih =>
    rw [accepted]
    split_ifs
    · exact (ih _).cons_cons i
    · exact (ih _).cons i

/-- What calls leave behind that accepted the given items, and rejected others or not. -/
structure Wrote (s s' : BinarySerializer) (accepted : List Item) (rejected : Prop) : Prop where
  order : s'.order = s.order
  data : s'.data = s.data ++ accepted.flatMap (Item.encode s.order)
  size : s'.buffer.bytes.length = s.buffer.bytes.length
  rest : s'.buffer.bytes.drop s'.pos.toNat = s.buffer.bytes.drop s'.pos.toNat
  overflowed : s'.overflowed = true ↔ s.overflowed = true ∨ rejected

theorem wrote_accept (host : Endian) (s : BinarySerializer) {i : Item}
    (h : i.size ≤ s.remaining.toNat) : Wrote s (s.call host i).2 [i] False := by
  have hfit : (i.encode s.order).length ≤ s.remaining.toNat := by rwa [Item.length_encode]
  rw [call_of_fits host s h]
  refine ⟨rfl, ?_, length_put hfit, drop_put hfit, ?_⟩
  · simpa using data_put hfit
  · simp [put]

theorem wrote_reject (host : Endian) (s : BinarySerializer) {i : Item}
    (h : ¬ i.size ≤ s.remaining.toNat) : Wrote s (s.call host i).2 [] True := by
  rw [call_of_not_fits host s h]
  refine ⟨rfl, ?_, rfl, rfl, by simp [reject]⟩
  simp [reject, BinarySerializer.data]

theorem Wrote.pos_le {s s' : BinarySerializer} {is : List Item} {r : Prop}
    (h : Wrote s s' is r) : s.pos.toNat ≤ s'.pos.toNat := by
  have := congrArg List.length h.data
  simp only [length_data, List.length_append] at this
  omega

theorem Wrote.trans {s₁ s₂ s₃ : BinarySerializer} {is js : List Item} {r q : Prop}
    (h : Wrote s₁ s₂ is r) (h' : Wrote s₂ s₃ js q) : Wrote s₁ s₃ (is ++ js) (r ∨ q) where
  order := h'.order.trans h.order
  data := by rw [h'.data, h.data, h.order, List.flatMap_append, List.append_assoc]
  size := h'.size.trans h.size
  rest := by
    obtain ⟨k, hk⟩ := Nat.exists_eq_add_of_le h'.pos_le
    rw [h'.rest, hk, ← List.drop_drop, h.rest, List.drop_drop]
  overflowed := by rw [h'.overflowed, h.overflowed, or_assoc]

theorem wrote_writeAll (host : Endian) (s : BinarySerializer) (items : List Item) :
    Wrote s (s.writeAll host items) (s.accepted host items)
      ((s.accepted host items).length < items.length) := by
  induction items generalizing s with
  | nil => exact ⟨rfl, by simp [writeAll, accepted], rfl, rfl, by simp [writeAll, accepted]⟩
  | cons i is ih =>
    have hrest := ih (s.call host i).2
    rw [writeAll, accepted]
    by_cases h : i.size ≤ s.remaining.toNat
    · rw [if_pos ((call_fits_iff host s i).2 h)]
      simpa using (wrote_accept host s h).trans hrest
    · rw [if_neg (fun hc => h ((call_fits_iff host s i).1 hc))]
      have hlen := (accepted_sublist host (s.call host i).2 is).length_le
      simpa [hlen] using (wrote_reject host s h).trans hrest

end BinarySerializer

/-! ## The reader -/

structure BinaryDeserializer where
  buffer : Span
  pos : UInt64
  order : Endian
  pos_le : pos.toNat ≤ buffer.bytes.length

/-- `read<T>` of an `n`-byte scalar, or `read_bytes(n)`. -/
inductive Request where
  | scalar (n : Nat)
  | bytes (n : UInt64)

def Request.size : Request → Nat
  | .scalar n => n
  | .bytes n => n.toNat

/-- The request that reads an item back. -/
def Item.request : Item → Request
  | .scalar n _ => .scalar n
  | .bytes b => .bytes b.size

@[simp] theorem Item.size_request (i : Item) : i.request.size = i.size := by
  cases i <;> simp [Item.request, Request.size, Item.size]

namespace BinaryDeserializer

def create (buffer : Span) (order : Endian) : BinaryDeserializer := ⟨buffer, 0, order, by simp⟩

def bytesRead (r : BinaryDeserializer) : UInt64 := r.pos

def remaining (r : BinaryDeserializer) : UInt64 := r.buffer.size - r.pos

def exhausted (r : BinaryDeserializer) : Bool := r.pos == r.buffer.size

theorem toNat_remaining (r : BinaryDeserializer) :
    r.remaining.toNat = r.buffer.bytes.length - r.pos.toNat :=
  r.buffer.toNat_size_sub r.pos_le

theorem add_le_of_fits (r : BinaryDeserializer) {n : Nat} (h : n ≤ r.remaining.toNat) :
    r.pos.toNat + n ≤ r.buffer.bytes.length := by
  have := r.pos_le
  rw [toNat_remaining] at h
  omega

/-- `pos_ += n`. -/
def advance (r : BinaryDeserializer) (n : Nat) (h : n ≤ r.remaining.toNat) :
    BinaryDeserializer where
  buffer := r.buffer
  pos := r.pos + UInt64.ofNat n
  order := r.order
  pos_le := by
    rw [r.buffer.toNat_advance (r.add_le_of_fits h)]
    exact r.add_le_of_fits h

/-- `buffer_.subspan(pos_, n)`. -/
def subspan (r : BinaryDeserializer) (n : Nat) : Span where
  bytes := (r.buffer.bytes.drop r.pos.toNat).take n
  size_lt := by
    have := r.buffer.size_lt
    simp only [List.length_take, List.length_drop]
    omega

def read (host : Endian) (r : BinaryDeserializer) (n : Nat) :
    Option (BitVec (8 * n)) × BinaryDeserializer :=
  if h : n > r.remaining.toNat then (none, r)
  else (some (ofObject host n (reorder host r.order (r.subspan n).bytes)),
    r.advance n (Nat.le_of_not_gt h))

def readBytes (r : BinaryDeserializer) (n : UInt64) : Option Span × BinaryDeserializer :=
  if h : n.toNat > r.remaining.toNat then (none, r)
  else (some (r.subspan n.toNat), r.advance n.toNat (Nat.le_of_not_gt h))

def call (host : Endian) (r : BinaryDeserializer) : Request → Option Item × BinaryDeserializer
  | .scalar n => (r.read host n).map (Option.map (Item.scalar n)) id
  | .bytes n => (r.readBytes n).map (Option.map Item.bytes) id

/-! ### What one call does -/

@[simp] theorem length_subspan (r : BinaryDeserializer) {n : Nat} (h : n ≤ r.remaining.toNat) :
    (r.subspan n).bytes.length = n := by
  rw [toNat_remaining] at h
  simp only [subspan, List.length_take, List.length_drop]
  omega

/-- A scalar that fits is read from the next bytes, which are its encoding. -/
theorem read_of_fits (host : Endian) (r : BinaryDeserializer) {n : Nat}
    (h : n ≤ r.remaining.toNat) :
    ∃ v : BitVec (8 * n), r.read host n = (some v, r.advance n h) ∧
      r.order.ordered (digits v) = (r.subspan n).bytes := by
  refine ⟨ofObject host n (reorder host r.order (r.subspan n).bytes), ?_, ?_⟩
  · rw [read, dif_neg (Nat.not_lt.2 h)]
  · rw [ofObject, ordered_reorder, digits_ofDigits, ordered_ordered]
    rw [length_ordered, r.length_subspan h]

/-- A call that fits consumes the next `q.size` bytes and returns the item they encode. -/
theorem call_of_fits (host : Endian) (r : BinaryDeserializer) {q : Request}
    (h : q.size ≤ r.remaining.toNat) :
    ∃ i : Item, r.call host q = (some i, r.advance q.size h) ∧ i.request = q ∧
      i.encode r.order = (r.buffer.bytes.drop r.pos.toNat).take q.size := by
  cases q with
  | scalar n =>
    have hn : n ≤ r.remaining.toNat := h
    obtain ⟨v, hread, henc⟩ := r.read_of_fits host hn
    refine ⟨.scalar n v, ?_, rfl, henc⟩
    rw [call, hread]
    rfl
  | bytes n =>
    have hn : n.toNat ≤ r.remaining.toNat := h
    have hsize : (r.subspan n.toNat).size = n := by
      apply UInt64.toNat_inj.1
      rw [Span.toNat_size, r.length_subspan hn]
    refine ⟨.bytes (r.subspan n.toNat), ?_, ?_, rfl⟩
    · rw [call, readBytes, dif_neg (Nat.not_lt.2 hn)]
      rfl
    · rw [Item.request, hsize]

theorem call_of_not_fits (host : Endian) (r : BinaryDeserializer) {q : Request}
    (h : ¬ q.size ≤ r.remaining.toNat) : r.call host q = (none, r) := by
  cases q with
  | scalar n =>
    have hn : n > r.remaining.toNat := Nat.lt_of_not_le h
    rw [call, read, dif_pos hn]
    rfl
  | bytes n =>
    have hn : n.toNat > r.remaining.toNat := Nat.lt_of_not_le h
    rw [call, readBytes, dif_pos hn]
    rfl

/-! ### Sequences of calls -/

def readAll (host : Endian) (r : BinaryDeserializer) :
    List Request → List (Option Item) × BinaryDeserializer
  | [] => ([], r)
  | q :: qs =>
    let rest := readAll host (r.call host q).2 qs
    ((r.call host q).1 :: rest.1, rest.2)

/-- What reads leave behind that returned the given items: the items lie one after the other
between the two positions of the cursor. -/
structure Read (r r' : BinaryDeserializer) (items : List Item) : Prop where
  buffer : r'.buffer = r.buffer
  order : r'.order = r.order
  consumed : r'.buffer.bytes.take r'.pos.toNat =
    r.buffer.bytes.take r.pos.toNat ++ items.flatMap (Item.encode r.order)

theorem Read.trans {r₁ r₂ r₃ : BinaryDeserializer} {is js : List Item} (h : Read r₁ r₂ is)
    (h' : Read r₂ r₃ js) : Read r₁ r₃ (is ++ js) where
  buffer := h'.buffer.trans h.buffer
  order := h'.order.trans h.order
  consumed := by
    rw [h'.consumed, h.consumed, h.order, List.flatMap_append, List.append_assoc]

theorem read_call (host : Endian) (r : BinaryDeserializer) (q : Request) :
    Read r (r.call host q).2 (r.call host q).1.toList := by
  by_cases h : q.size ≤ r.remaining.toNat
  · obtain ⟨i, hcall, -, henc⟩ := r.call_of_fits host h
    rw [hcall]
    refine ⟨rfl, rfl, ?_⟩
    simp only [advance, Option.toList_some, List.flatMap_singleton]
    rw [henc, r.buffer.toNat_advance (r.add_le_of_fits h), List.take_add]
  · rw [r.call_of_not_fits host h]
    exact ⟨rfl, rfl, by simp⟩

theorem read_readAll (host : Endian) (r : BinaryDeserializer) (qs : List Request) :
    Read r (r.readAll host qs).2 ((r.readAll host qs).1.filterMap id) := by
  induction qs generalizing r with
  | nil => exact ⟨rfl, rfl, by simp [readAll]⟩
  | cons q qs ih =>
    have := (read_call host r q).trans (ih (r.call host q).2)
    rw [readAll]
    cases hq : (r.call host q).1 with
    | none => simpa [hq] using this
    | some i => simpa [hq] using this

/-! ## Round trips -/

/-- An item is determined by its request and its bytes. -/
theorem item_ext {i j : Item} {order : Endian} (hreq : i.request = j.request)
    (henc : i.encode order = j.encode order) : i = j := by
  cases i with
  | scalar n v =>
    cases j with
    | scalar m w =>
      obtain rfl : n = m := by simpa [Item.request] using hreq
      have hdigits : digits v = digits w := by
        have := congrArg order.ordered henc
        simpa only [Item.encode, ordered_ordered] using this
      have hnat : v.toNat = w.toNat := by rw [← ofDigits_digits v, ← ofDigits_digits w, hdigits]
      rw [BitVec.eq_of_toNat_eq hnat]
    | bytes c => simp [Item.request] at hreq
  | bytes b =>
    cases j with
    | scalar m w => simp [Item.request] at hreq
    | bytes c =>
      cases b
      cases c
      simpa [Item.encode] using henc

/-- A reader whose rest of the buffer is the encoding of some items returns those items. -/
theorem readAll_encoded (host : Endian) (items : List Item) (r : BinaryDeserializer)
    (h : r.buffer.bytes.drop r.pos.toNat = items.flatMap (Item.encode r.order)) :
    (r.readAll host (items.map Item.request)).1 = items.map some ∧
      (r.readAll host (items.map Item.request)).2.exhausted = true := by
  induction items generalizing r with
  | nil =>
    refine ⟨rfl, ?_⟩
    have hle : r.buffer.bytes.length ≤ r.pos.toNat := List.drop_eq_nil_iff.1 h
    have heq : r.pos = r.buffer.size := by
      apply UInt64.toNat_inj.1
      rw [Span.toNat_size]
      exact Nat.le_antisymm r.pos_le hle
    simp [readAll, exhausted, heq]
  | cons i is ih =>
    have hlen := congrArg List.length h
    have hfit : i.request.size ≤ r.remaining.toNat := by
      simp only [List.length_drop, List.flatMap_cons, List.length_append,
        Item.length_encode] at hlen
      rw [toNat_remaining, Item.size_request]
      omega
    obtain ⟨j, hcall, hreq, henc⟩ := r.call_of_fits host hfit
    rw [h, List.flatMap_cons, Item.size_request, List.take_left' (Item.length_encode r.order i)]
      at henc
    obtain rfl := item_ext hreq henc
    have hrest := ih (r.advance j.request.size hfit) (by
      rw [advance]
      dsimp only
      rw [r.buffer.toNat_advance (r.add_le_of_fits hfit), ← List.drop_drop, h, List.flatMap_cons,
        Item.size_request, List.drop_left' (Item.length_encode r.order j)])
    rw [List.map_cons, readAll, hcall]
    exact ⟨by rw [List.map_cons, hrest.1], hrest.2⟩

end BinaryDeserializer

/-- The bytes a writer has written, as the buffer of a reader. -/
def BinarySerializer.dataSpan (s : BinarySerializer) : Span where
  bytes := s.data
  size_lt := by
    rw [length_data]
    exact Nat.lt_of_le_of_lt s.pos_le s.buffer.size_lt

/-- What holds of a writer `s` that was constructed over `buffer` and has seen the calls `items`,
of which it accepted `accepted`; `reader` is the host order of whoever reads the bytes. -/
structure WriterLaw (host reader order : Endian) (buffer : Span) (items accepted : List Item)
    (s : BinarySerializer) : Prop where
  /-- The next call is accepted iff it fits; if not, it changes nothing but the flag. -/
  next : ∀ i : Item, ((s.call host i).1 = true ↔ i.size ≤ s.remaining.toNat) ∧
    ((s.call host i).1 = false → (s.call host i).2 = { s with overflowed := true })
  data : s.data = accepted.flatMap (Item.encode order)
  overflowed : s.overflowed = true ↔ accepted.length < items.length
  size : s.buffer.bytes.length = buffer.bytes.length
  rest : s.buffer.bytes.drop s.bytesWritten.toNat = buffer.bytes.drop s.bytesWritten.toNat
  /-- Asking for the accepted items returns them and leaves nothing. -/
  readBack : ∃ r, (BinaryDeserializer.create s.dataSpan order).readAll reader
    (accepted.map Item.request) = (accepted.map some, r) ∧ r.exhausted = true

/-- What holds of a reader `r` that was constructed over `buffer` and has answered `replies`. -/
structure ReaderLaw (host order : Endian) (buffer : Span) (replies : List (Option Item))
    (r : BinaryDeserializer) : Prop where
  bounded : r.bytesRead.toNat ≤ buffer.bytes.length
  /-- The successful reads are consecutive slices from the start of the buffer. -/
  consumed : (replies.filterMap id).flatMap (Item.encode order) =
    buffer.bytes.take r.bytesRead.toNat
  /-- The next read fails, and then moves nothing, iff too few bytes remain. -/
  fails : ∀ q : Request, ((r.call host q).1 = none ↔ r.remaining.toNat < q.size) ∧
    ((r.call host q).1 = none → (r.call host q).2 = r)
  /-- If it succeeds it returns what was asked for, decoded from the next bytes. -/
  slice : ∀ (q : Request) (i : Item), (r.call host q).1 = some i → i.request = q ∧
    i.encode order = (buffer.bytes.drop r.bytesRead.toNat).take q.size ∧
    (r.call host q).2.bytesRead.toNat = r.bytesRead.toNat + q.size

open BinarySerializer in
theorem writer_law (host reader order : Endian) (buffer : Span) (items : List Item) :
    WriterLaw host reader order buffer items ((create buffer order).accepted host items)
      ((create buffer order).writeAll host items) := by
  have hw := wrote_writeAll host (create buffer order) items
  have hdata : ((create buffer order).writeAll host items).data =
      ((create buffer order).accepted host items).flatMap (Item.encode order) := by
    simpa [create, BinarySerializer.data] using hw.data
  refine ⟨fun i => ⟨call_fits_iff host _ i, fun hc => ?_⟩, hdata, ?_, hw.size, hw.rest, ?_⟩
  · rw [call_of_not_fits host _ (fun hfit => by simp [(call_fits_iff host _ i).2 hfit] at hc)]
    rfl
  · simpa [create] using hw.overflowed
  · have hread := BinaryDeserializer.readAll_encoded reader
      ((create buffer order).accepted host items) (.create (dataSpan _) order) hdata
    exact ⟨_, Prod.ext hread.1 rfl, hread.2⟩

open BinaryDeserializer in
theorem reader_law (host order : Endian) (buffer : Span) (qs : List Request) :
    ReaderLaw host order buffer ((create buffer order).readAll host qs).1
      ((create buffer order).readAll host qs).2 := by
  have hr := read_readAll host (create buffer order) qs
  set r := ((create buffer order).readAll host qs).2
  have hbuf : r.buffer = buffer := hr.buffer
  have hord : r.order = order := hr.order
  have hnone : ∀ q : Request, (r.call host q).1 = none ↔ r.remaining.toNat < q.size := by
    intro q
    by_cases h : q.size ≤ r.remaining.toNat
    · obtain ⟨i, hcall, -, -⟩ := r.call_of_fits host h
      simp [hcall, h]
    · simp [r.call_of_not_fits host h, Nat.lt_of_not_le h]
  refine ⟨hbuf ▸ r.pos_le, ?_, fun q => ⟨hnone q, fun hq => ?_⟩, fun q i hq => ?_⟩
  · have := hr.consumed
    rw [hbuf] at this
    simpa [create, bytesRead] using this.symm
  · rw [r.call_of_not_fits host (Nat.not_le.2 ((hnone q).1 hq))]
  · have hfit : q.size ≤ r.remaining.toNat := by
      by_contra h
      rw [r.call_of_not_fits host h] at hq
      cases hq
    obtain ⟨j, hcall, hreq, henc⟩ := r.call_of_fits host hfit
    rw [hcall] at hq ⊢
    cases hq
    rw [hbuf, hord] at henc
    exact ⟨hreq, henc, r.buffer.toNat_advance (r.add_le_of_fits hfit)⟩

/-- **The two sides agree over whole streams.** -/
theorem streams_agree (host reader order : Endian) (buffer : Span) :
    (∀ items : List Item,
      WriterLaw host reader order buffer items
        ((BinarySerializer.create buffer order).accepted host items)
        ((BinarySerializer.create buffer order).writeAll host items)) ∧
    ∀ qs : List Request,
      ReaderLaw host order buffer ((BinaryDeserializer.create buffer order).readAll host qs).1
        ((BinaryDeserializer.create buffer order).readAll host qs).2 :=
  ⟨writer_law host reader order buffer, reader_law host order buffer⟩

/-- A big-endian stream written on a little-endian host. -/
example : (Item.scalar 4 0x01020304#32).encode .big = [1, 2, 3, 4] ∧
    reorder .little .big (toObject .little (n := 4) 0x01020304#32) = [1, 2, 3, 4] := by
  decide

end EglUtil
