/-
# The format of messages

A message is a row of records of one width.  Writing and reading are inverse both ways: a row is
read back as it was written (`decodeAll_encodeAll`), and what was read is written as the same bytes
(`encodeAll_of_decodeAll`).  A string of bytes is read exactly when it is made of whole records, and
read as one record exactly when it is one (`decodeOne_eq_ok_iff`).  `Carried` states this of a type
of records, and all types of records have it.

A size header is a number of 32 bits, the least significant byte first.  The largest number is
reserved, and no payload can be announced by it or past it (`Count.exists_ofNat?_iff`).
-/
import Mathlib.Algebra.Group.Nat.Defs
import ShardedVector.Wire

namespace ShardedVector

variable {α : Type} [Record α]

/-! ## 1. Rows and their bytes -/

namespace Wire

theorem encodeAll_cons (a : α) (rest : List α) :
    encodeAll (a :: rest) = Record.encode a ++ encodeAll rest := List.flatMap_cons

theorem encodeAll_singleton (a : α) : encodeAll [a] = Record.encode a := List.flatMap_singleton _ _

theorem take_encodeAll (items : List α) : take items.length (encodeAll items) = items := by
  induction items with
  | nil => rfl
  | cons a rest ih =>
    have hwidth : (Record.encode a).length = Record.width α := Record.length_encode a
    rw [List.length_cons, take, encodeAll_cons, List.take_left' hwidth, List.drop_left' hwidth,
      Record.decode_encode, ih]

/-- A row is read back from its bytes, whoever sent it. -/
theorem decodeAll_encodeAll (peer : Nat) (items : List α) :
    decodeAll α peer (encodeAll items) = .ok items := by
  have hlen := length_encodeAll items
  rw [decodeAll, hlen, if_pos (Nat.mul_mod_left _ _),
    Nat.mul_div_cancel _ (Record.width_pos (α := α)), take_encodeAll]

/-- Records that fill their bytes are written as the same bytes. -/
theorem encodeAll_take (n : Nat) :
    ∀ {bytes : Bytes}, bytes.length = n * Record.width α →
      encodeAll (take n bytes : List α) = bytes := by
  induction n with
  | zero =>
    intro bytes hlen
    rw [Nat.zero_mul] at hlen
    rw [List.eq_nil_of_length_eq_zero hlen]
    rfl
  | succ n ih =>
    intro bytes hlen
    rw [Nat.succ_mul] at hlen
    have hfirst : (bytes.take (Record.width α)).length = Record.width α := by
      rw [List.length_take]
      omega
    have hrest : (bytes.drop (Record.width α)).length = n * Record.width α := by
      rw [List.length_drop]
      omega
    rw [take, encodeAll_cons, Record.encode_decode _ hfirst, ih hrest, List.take_append_drop]

theorem exists_decodeAll_iff (peer : Nat) (bytes : Bytes) :
    (∃ row, decodeAll α peer bytes = .ok row) ↔ Record.width α ∣ bytes.length := by
  rw [Nat.dvd_iff_mod_eq_zero, decodeAll]
  split
  · next hwhole => exact iff_of_true ⟨_, rfl⟩ hwhole
  · next hragged => exact iff_of_false nofun hragged

/-- What was read is written as the bytes it was read from. -/
theorem encodeAll_of_decodeAll {peer : Nat} {bytes : Bytes} {row : List α}
    (h : decodeAll α peer bytes = .ok row) : encodeAll row = bytes := by
  have hwhole := (exists_decodeAll_iff peer bytes).mp ⟨row, h⟩
  rw [decodeAll, if_pos (Nat.mod_eq_zero_of_dvd hwhole)] at h
  obtain rfl := Except.ok.inj h
  exact encodeAll_take _ (Nat.div_mul_cancel hwhole).symm

/-- A row takes as many bytes as it was read from. -/
theorem length_of_decodeAll {peer : Nat} {bytes : Bytes} {row : List α}
    (h : decodeAll α peer bytes = .ok row) : row.length * Record.width α = bytes.length := by
  rw [← length_encodeAll, encodeAll_of_decodeAll h]

/-! ## 2. Single records -/

theorem decodeOne_encode (peer : Nat) (a : α) : decodeOne α peer (Record.encode a) = .ok a := by
  rw [decodeOne, expectLength, if_pos (Record.length_encode a), Record.decode_encode]

theorem exists_decodeOne_iff (peer : Nat) (bytes : Bytes) :
    (∃ a, decodeOne α peer bytes = .ok a) ↔ bytes.length = Record.width α := by
  rw [decodeOne, expectLength]
  by_cases hlen : bytes.length = Record.width α
  · rw [if_pos hlen]
    exact iff_of_true ⟨_, rfl⟩ hlen
  · rw [if_neg hlen]
    exact iff_of_false nofun hlen

/-- One record is read where a row would be a single one. -/
theorem decodeOne_eq_ok_iff {peer : Nat} {bytes : Bytes} {a : α} :
    decodeOne α peer bytes = .ok a ↔ decodeAll α peer bytes = .ok [a] := by
  constructor
  · intro h
    have hlen := (exists_decodeOne_iff peer bytes).mp ⟨a, h⟩
    rw [decodeOne, expectLength, if_pos hlen] at h
    obtain rfl := Except.ok.inj h
    have hback := decodeAll_encodeAll peer [(Record.decode bytes : α)]
    rwa [encodeAll_singleton, Record.encode_decode bytes hlen] at hback
  · intro h
    have hbytes := encodeAll_of_decodeAll h
    rw [encodeAll_singleton] at hbytes
    rw [← hbytes, decodeOne_encode]

end Wire

/-- Records of this type are carried as they are. -/
structure Carried (α : Type) [Record α] : Prop where
  /-- What was written is read, whoever sent it. -/
  read : ∀ peer (row : List α), Wire.decodeAll α peer (Wire.encodeAll row) = .ok row
  /-- Whole records are read, and nothing else. -/
  whole : ∀ peer bytes,
    (∃ row, Wire.decodeAll α peer bytes = .ok row) ↔ Record.width α ∣ bytes.length
  /-- What was read is written as the same bytes. -/
  written : ∀ peer bytes row, Wire.decodeAll α peer bytes = .ok row → Wire.encodeAll row = bytes
  /-- A single record is read where there is one. -/
  single : ∀ peer bytes,
    (∃ a, Wire.decodeOne α peer bytes = .ok a) ↔ bytes.length = Record.width α
  /-- It is what a row would be made of. -/
  agrees : ∀ peer bytes a,
    Wire.decodeOne α peer bytes = .ok a ↔ Wire.decodeAll α peer bytes = .ok [a]

theorem carried (α : Type) [Record α] : Carried α where
  read := Wire.decodeAll_encodeAll
  whole := Wire.exists_decodeAll_iff
  written := fun _ _ _ => Wire.encodeAll_of_decodeAll
  single := Wire.exists_decodeOne_iff
  agrees := fun _ _ _ => Wire.decodeOne_eq_ok_iff

/-- An entry is carried as its bits. -/
theorem Wire.encodeAll_map_bits (entries : List Binary64) :
    Wire.encodeAll entries = Wire.encodeAll (entries.map Binary64.bits) := by
  rw [Wire.encodeAll, Wire.encodeAll, List.flatMap_map]
  rfl

/-! ## 3. Size headers -/

namespace Count

theorem exists_ofNat?_iff (n : Nat) : (∃ c, ofNat? n = some c) ↔ n < 2 ^ 32 - 1 := by
  rw [ofNat?, longestPayload]
  split
  · exact iff_of_true ⟨_, rfl⟩ (by omega)
  · exact iff_of_false nofun (by omega)

theorem get?_eq_none_iff {c : Count} : c.get? = none ↔ c = oversized := by
  simp [get?]

theorem toNat_word_of_ofNat? {n : Nat} {c : Count} (h : ofNat? n = some c) : c.word.toNat = n := by
  have hlt := (exists_ofNat?_iff n).mp ⟨c, h⟩
  rw [ofNat?, if_pos (by rw [longestPayload]; omega)] at h
  obtain rfl := Option.some.inj h
  exact UInt32.toNat_ofNat_of_lt' (Nat.lt_trans hlt (by decide))

/-- A header says the number it was made for. -/
theorem get?_of_ofNat? {n : Nat} {c : Count} (h : ofNat? n = some c) : c.get? = some n := by
  have hlt := (exists_ofNat?_iff n).mp ⟨c, h⟩
  have hword := toNat_word_of_ofNat? h
  have hne : c ≠ oversized := by
    rintro rfl
    exact absurd (hword.symm.trans (by decide)) (Nat.ne_of_lt hlt)
  rw [get?, if_neg hne, hword]

/-- It is written in four bytes, of which the least significant one goes first. -/
theorem encodeAll_of_ofNat? {n : Nat} {c : Count} (h : ofNat? n = some c) :
    Wire.encodeAll [c] = [UInt8.ofNat n, UInt8.ofNat (n / 2 ^ 8), UInt8.ofNat (n / 2 ^ 16),
      UInt8.ofNat (n / 2 ^ 24)] := by
  have hbytes : Wire.encodeAll [c] = LittleEndian.encode 4 c.word.toNat :=
    Wire.encodeAll_singleton c
  rw [hbytes, toNat_word_of_ofNat? h]
  simp only [LittleEndian.encode, Nat.div_div_eq_div_mul]
  rfl

/-- What goes ahead of a payload says its number of bytes, or that it is too long. -/
theorem get?_header (n : Nat) :
    (header n).get? = if n ≤ longestPayload then some n else none := by
  rw [header]
  by_cases hn : n ≤ longestPayload
  · have hmade : ofNat? n = some ⟨UInt32.ofNat n⟩ := if_pos hn
    rw [if_pos hn, hmade, Option.getD_some, get?_of_ofNat? hmade]
  · have hnone : ofNat? n = none := if_neg hn
    rw [if_neg hn, hnone, Option.getD_none, get?_eq_none_iff.mpr rfl]

/-- Only one string of four bytes is read as the header that says no number. -/
theorem exists_decodeOne_none_iff (peer : Nat) (bytes : Bytes) :
    (∃ c, Wire.decodeOne Count peer bytes = .ok c ∧ c.get? = none) ↔
      bytes = [0xff, 0xff, 0xff, 0xff] := by
  have hreserved : Wire.encodeAll [oversized] = [0xff, 0xff, 0xff, 0xff] := by decide
  rw [← hreserved]
  constructor
  · rintro ⟨c, hread, hnone⟩
    obtain rfl := get?_eq_none_iff.mp hnone
    exact (Wire.encodeAll_of_decodeAll (Wire.decodeOne_eq_ok_iff.mp hread)).symm
  · rintro rfl
    exact ⟨oversized, Wire.decodeOne_eq_ok_iff.mpr (Wire.decodeAll_encodeAll peer _),
      get?_eq_none_iff.mpr rfl⟩

end Count

/-- **Messages carry records as they are.**  Of each of the six types of records, a row is read back
as it was written, every string of whole records is read and written back as the same bytes, and a
single record is read exactly from its own number of bytes, as a row of one.  Entries travel as
their bits.  A header can be made for every number of bytes below the largest of 32 bits; it is that
number in four bytes, the least significant one first, and says it; only one string of four bytes
is a header that says none. -/
theorem records_carried :
    (Carried UInt8 ∧ Carried UInt16 ∧ Carried UInt64 ∧ Carried Binary64 ∧ Carried Count ∧
      Carried Span) ∧
    [Record.width UInt8, Record.width UInt16, Record.width UInt64, Record.width Binary64,
      Record.width Count, Record.width Span] = [1, 2, 8, 8, 4, 16] ∧
    (∀ entries : List Binary64,
      Wire.encodeAll entries = Wire.encodeAll (entries.map Binary64.bits)) ∧
    (∀ n, (∃ c, Count.ofNat? n = some c) ↔ n < 2 ^ 32 - 1) ∧
    (∀ n c, Count.ofNat? n = some c →
      Wire.encodeAll [c] = [UInt8.ofNat n, UInt8.ofNat (n / 2 ^ 8), UInt8.ofNat (n / 2 ^ 16),
        UInt8.ofNat (n / 2 ^ 24)] ∧ c.get? = some n) ∧
    (∀ peer bytes, (∃ c, Wire.decodeOne Count peer bytes = .ok c ∧ c.get? = none) ↔
      bytes = [0xff, 0xff, 0xff, 0xff]) := by
  exact ⟨⟨carried _, carried _, carried _, carried _, carried _, carried _⟩, rfl,
    Wire.encodeAll_map_bits, Count.exists_ofNat?_iff,
    fun _ _ h => ⟨Count.encodeAll_of_ofNat? h, Count.get?_of_ofNat? h⟩,
    Count.exists_decodeOne_none_iff⟩

/-- A NaN keeps its payload and a zero its sign. -/
example :
    let entries : List Binary64 := [⟨0x7ff8000000000001⟩, .negativeZero]
    Wire.decodeAll Binary64 0 (Wire.encodeAll entries) = .ok entries := rfl

end ShardedVector
