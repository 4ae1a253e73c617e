/-
# Records on the wire

Ranks exchange strings of bytes.  A message is a row of records of one type, each of a fixed
width and little-endian; `Record` says how one record is written and read, and that the two
are inverse.  `encodeAll` writes a row, `decodeAll` and `decodeOne` read what a peer sent and
name the peer when the length is wrong.

Two records belong to the exchange itself: `Count`, the size header that goes ahead of a
payload, and `Span`, the range of indices that a rank claims.
-/
import ShardedVector.Error
import ShardedVector.LittleEndian

namespace ShardedVector

/-! ## 1. Records -/

/-- A type whose values are written as strings of bytes of one width. -/
class Record (α : Type) where
  width : Nat
  encode : α → Bytes
  decode : Bytes → α
  width_pos : 0 < width
  length_encode (a : α) : (encode a).length = width
  decode_encode (a : α) : decode (encode a) = a
  encode_decode (bs : Bytes) (h : bs.length = width) : encode (decode bs) = bs

namespace Wire

/-- A row of records, one after the other. -/
def encodeAll {α : Type} [Record α] (items : List α) : Bytes := items.flatMap Record.encode

/-- The first `n` records of a string of bytes. -/
def take {α : Type} [Record α] : Nat → Bytes → List α
  | 0, _ => []
  | n + 1, bs => Record.decode (bs.take (Record.width α)) :: take n (bs.drop (Record.width α))

/-- The records that `peer` sent. -/
def decodeAll (α : Type) [Record α] (peer : Nat) (bs : Bytes) : Except Error (List α) :=
  if bs.length % Record.width α = 0 then .ok (take (bs.length / Record.width α) bs)
  else .error (.communication peer (.ragged bs.length (Record.width α)))

/-- A message must have exactly the expected length. -/
def expectLength (actual expected : Nat) : Except MessageFault Unit :=
  if actual = expected then .ok () else .error (.length expected actual)

/-- The one record that `peer` sent. -/
def decodeOne (α : Type) [Record α] (peer : Nat) (bs : Bytes) : Except Error α :=
  match expectLength bs.length (Record.width α) with
  | .ok () => .ok (Record.decode bs)
  | .error fault => .error (.communication peer fault)

theorem length_encodeAll {α : Type} [Record α] (items : List α) :
    (encodeAll items).length = items.length * Record.width α := by
  induction items with
  | nil => simp [encodeAll]
  | cons a rest ih =>
    have ha := Record.length_encode a
    simp only [encodeAll, List.flatMap_cons, List.length_append, List.length_cons] at ih ⊢
    rw [ih, ha, Nat.succ_mul, Nat.add_comm]

end Wire

/-! ## 2. Words -/

instance : Record UInt8 where
  width := 1
  encode x := LittleEndian.encode 1 x.toNat
  decode bs := UInt8.ofNat (LittleEndian.decode bs)
  width_pos := by decide
  length_encode _ := LittleEndian.length_encode ..
  decode_encode x := by
    rw [LittleEndian.decode_encode_of_lt x.toNat_lt, UInt8.ofNat_toNat]
  encode_decode bs h := by
    have hlt := LittleEndian.decode_lt bs
    rw [h] at hlt
    rw [UInt8.toNat_ofNat_of_lt' hlt, ← h, LittleEndian.encode_decode]

instance : Record UInt16 where
  width := 2
  encode x := LittleEndian.encode 2 x.toNat
  decode bs := UInt16.ofNat (LittleEndian.decode bs)
  width_pos := by decide
  length_encode _ := LittleEndian.length_encode ..
  decode_encode x := by
    rw [LittleEndian.decode_encode_of_lt x.toNat_lt, UInt16.ofNat_toNat]
  encode_decode bs h := by
    have hlt := LittleEndian.decode_lt bs
    rw [h] at hlt
    rw [UInt16.toNat_ofNat_of_lt' hlt, ← h, LittleEndian.encode_decode]

instance : Record UInt32 where
  width := 4
  encode x := LittleEndian.encode 4 x.toNat
  decode bs := UInt32.ofNat (LittleEndian.decode bs)
  width_pos := by decide
  length_encode _ := LittleEndian.length_encode ..
  decode_encode x := by
    rw [LittleEndian.decode_encode_of_lt x.toNat_lt, UInt32.ofNat_toNat]
  encode_decode bs h := by
    have hlt := LittleEndian.decode_lt bs
    rw [h] at hlt
    rw [UInt32.toNat_ofNat_of_lt' hlt, ← h, LittleEndian.encode_decode]

instance : Record UInt64 where
  width := 8
  encode x := LittleEndian.encode 8 x.toNat
  decode bs := UInt64.ofNat (LittleEndian.decode bs)
  width_pos := by decide
  length_encode _ := LittleEndian.length_encode ..
  decode_encode x := by
    rw [LittleEndian.decode_encode_of_lt x.toNat_lt, UInt64.ofNat_toNat]
  encode_decode bs h := by
    have hlt := LittleEndian.decode_lt bs
    rw [h] at hlt
    rw [UInt64.toNat_ofNat_of_lt' hlt, ← h, LittleEndian.encode_decode]

/-- An entry travels as its bits, so a NaN keeps its payload. -/
instance : Record Binary64 where
  width := 8
  encode x := Record.encode x.bits
  decode bs := ⟨Record.decode bs⟩
  width_pos := by decide
  length_encode x := Record.length_encode x.bits
  decode_encode x := by simp [Record.decode_encode]
  encode_decode bs h := by
    have := Record.encode_decode (α := UInt64) bs h
    simpa using this

/-! ## 3. Size headers -/

/-- The size header of a payload: its number of bytes in 32 bits.  The largest value is
reserved for a payload that cannot be announced, so that a receiver fails on it and does not
wait for the payload. -/
structure Count where
  word : UInt32
deriving DecidableEq

namespace Count

/-- The header of a payload of `n` bytes, if such a payload can be announced. -/
def ofNat? (n : Nat) : Option Count :=
  if n ≤ longestPayload then some ⟨UInt32.ofNat n⟩ else none

/-- The reserved header. -/
def oversized : Count := ⟨0xffffffff⟩

/-- The announced number of bytes; none for the reserved header. -/
def get? (c : Count) : Option Nat := if c = oversized then none else some c.word.toNat

/-- The header of a payload of `n` bytes for `peer`. -/
def forPeer (peer n : Nat) : Except Error Count :=
  match ofNat? n with
  | some c => .ok c
  | none => .error (.communication peer (.unannounceable n))

/-- What is sent ahead of a payload of `n` bytes, also of one that cannot be announced. -/
def header (n : Nat) : Count := (ofNat? n).getD oversized

end Count

instance : Record Count where
  width := 4
  encode c := Record.encode c.word
  decode bs := ⟨Record.decode bs⟩
  width_pos := by decide
  length_encode c := Record.length_encode c.word
  decode_encode c := by simp [Record.decode_encode]
  encode_decode bs h := by
    have := Record.encode_decode (α := UInt32) bs h
    simpa using this

/-! ## 4. Ranges of indices -/

/-- The half-open range of global indices that a rank claims. -/
structure Span where
  start : UInt64
  stop : UInt64
deriving DecidableEq

instance : Record Span where
  width := 16
  encode r := (Record.encode r.start : Bytes) ++ Record.encode r.stop
  decode bs := ⟨Record.decode (bs.take 8), Record.decode (bs.drop 8)⟩
  width_pos := by decide
  length_encode r := by
    have h₁ := Record.length_encode r.start
    have h₂ := Record.length_encode r.stop
    have hw : Record.width UInt64 = 8 := rfl
    rw [List.length_append, h₁, h₂, hw]
  decode_encode r := by
    have h₁ : (Record.encode r.start : Bytes).length = 8 := Record.length_encode r.start
    rw [List.take_left' h₁, List.drop_left' h₁, Record.decode_encode, Record.decode_encode]
  encode_decode bs h := by
    have hw : Record.width UInt64 = 8 := rfl
    rw [Record.encode_decode (α := UInt64) (bs.take 8) (by rw [List.length_take, hw]; omega),
      Record.encode_decode (α := UInt64) (bs.drop 8) (by rw [List.length_drop, hw]; omega),
      List.take_append_drop]

end ShardedVector
