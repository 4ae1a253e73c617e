/-
# A vector and its shares

`Spread size offsets v` says that the shards `v 0`, `v 1`, … are the shares of one vector on the
ranks of a group, laid out by one table of offsets.  The vector itself is `joined size v`: the
entries of all shares in rank order.  An index finds the same entry in both: in the share of its
owner at its place there, and in the vector at its place among all
(`entryAt?_eq_getElem?_joined`).
-/
import ShardedVector.Proofs.Partition.Table
import ShardedVector.Proofs.Storage.Entries

namespace ShardedVector

/-- The entries that a range of indices has in a list of all entries. -/
def Span.slice {α : Type} (range : Span) (entries : List α) : List α :=
  (entries.take range.stop.toNat).drop range.start.toNat

namespace Shard

/-! ## 1. Shares -/

/-- Shards that are the shares of one vector. -/
structure Spread (size : Nat) (offsets : List UInt64) (v : Nat → Shard) : Prop where
  tiles : Partition.Tiles size offsets
  seat : ∀ r < size, (v r).seat = .ofRank r size
  layout : ∀ r < size, (v r).layout = some ⟨r, offsets⟩
  sound : ∀ r < size, (v r).storage.Sound
  length : ∀ r < size,
    (v r).toList.length = (offsets.getD (r + 1) 0).toNat - (offsets.getD r 0).toNat

/-- The entries of the first `size` shares in rank order. -/
def joined (size : Nat) (v : Nat → Shard) : List Binary64 :=
  (List.range size).flatMap fun r => (v r).toList

theorem joined_succ (size : Nat) (v : Nat → Shard) :
    joined (size + 1) v = joined size v ++ (v size).toList := by
  simp [joined, List.range_succ]

namespace Spread

variable {size : Nat} {offsets : List UInt64} {v : Nat → Shard} (h : Spread size offsets v)

include h

theorem size_eq {r : Nat} (hr : r < size) : (v r).size = offsets.getD size 0 := by
  rw [Shard.size, h.layout r hr]
  exact Partition.size_eq h.tiles.length

theorem localRange_eq {r : Nat} (hr : r < size) :
    (v r).localRange = ⟨offsets.getD r 0, offsets.getD (r + 1) 0⟩ := by
  rw [Shard.localRange, h.layout r hr]
  exact Partition.rangeOf_eq h.tiles.length hr

/-- The table alone tells the range. -/
theorem localRange_table {r : Nat} (hr : r < size) :
    (⟨r, offsets⟩ : Partition).localRange = (v r).localRange := by
  rw [Shard.localRange, h.layout r hr]

theorem ownerOf?_eq_some_iff {r s : Nat} (hr : r < size) {i : UInt64} :
    (v r).ownerOf? i = some s ↔
      s < size ∧ offsets.getD s 0 ≤ i ∧ i < offsets.getD (s + 1) 0 := by
  rw [Shard.ownerOf?, h.layout r hr]
  exact h.tiles.ownerOf?_eq_some_iff

theorem exists_ownerOf? {r : Nat} (hr : r < size) {i : UInt64} (hi : i < (v r).size) :
    ∃ s < size, (v r).ownerOf? i = some s := by
  rw [Shard.size, h.layout r hr] at hi
  obtain ⟨s, hs, hin⟩ := h.tiles.exists_owner hi
  exact ⟨s, hs, (h.ownerOf?_eq_some_iff hr).mpr ⟨hs, hin⟩⟩

/-! ## 2. The whole vector -/

/-- The shares of the ranks below `r` end where the range of `r` begins. -/
theorem length_joined {r : Nat} (hr : r ≤ size) :
    (joined r v).length = (offsets.getD r 0).toNat := by
  induction r with
  | zero =>
    rw [h.tiles.first]
    rfl
  | succ r ih =>
    have hstep := UInt64.le_iff_toNat_le.mp (h.tiles.step r hr)
    rw [joined_succ, List.length_append, ih (by omega), h.length r hr]
    omega

theorem getElem?_joined {r i : Nat} (hr : r < size) (hi : i < (v r).toList.length) :
    (joined size v)[(offsets.getD r 0).toNat + i]? = (v r).toList[i]? := by
  have upTo : ∀ k ≤ size, r < k →
      (joined k v)[(offsets.getD r 0).toNat + i]? = (v r).toList[i]? := by
    intro k
    induction k with
    | zero => intro _ hrk; omega
    | succ k ih =>
      intro hk hrk
      rw [joined_succ]
      rcases Nat.lt_succ_iff_lt_or_eq.mp hrk with hlt | rfl
      · have hlen := h.length_joined (show k ≤ size by omega)
        have hstop := h.tiles.mono (show r + 1 ≤ k by omega) (by omega)
        have hstart := UInt64.le_iff_toNat_le.mp (h.tiles.step r hr)
        rw [h.length r hr] at hi
        rw [List.getElem?_append_left (by omega), ih (by omega) hlt]
      · have hlen := h.length_joined (Nat.le_of_lt hr)
        rw [List.getElem?_append_right (by omega), hlen, Nat.add_sub_cancel_left]
  exact upTo size (Nat.le_refl size) hr

/-- **An index finds the same entry with its owner and in the whole vector.** -/
theorem entryAt?_eq_getElem?_joined {s : Nat} (hs : s < size) {i : UInt64}
    (hi : offsets.getD s 0 ≤ i ∧ i < offsets.getD (s + 1) 0) :
    (v s).entryAt? i = (joined size v)[i.toNat]? ∧ i.toNat < (joined size v).length := by
  obtain ⟨hstart, hstop⟩ := hi
  have hplace := UInt64.toNat_sub_of_le _ _ hstart
  have hstartNat := UInt64.le_iff_toNat_le.mp hstart
  have hstopNat := UInt64.lt_iff_toNat_lt.mp hstop
  have hlocal := h.length s hs
  have hend := h.tiles.mono (show s + 1 ≤ size by omega) (Nat.le_refl size)
  constructor
  · have hget := h.getElem?_joined (i := i.toNat - (offsets.getD s 0).toNat) hs (by omega)
    rw [Shard.entryAt?, h.localRange_eq hs, if_neg (UInt64.not_lt.mpr hstart),
      Storage.entry?_eq_getElem? (h.sound s hs), hplace]
    refine hget.symm.trans ?_
    congr 1
    omega
  · rw [h.length_joined (Nat.le_refl size)]
    omega

/-- The share of a rank is the slice of its range. -/
theorem toList_eq_slice {r : Nat} (hr : r < size) :
    (v r).toList = (v r).localRange.slice (joined size v) := by
  have hlen := h.length r hr
  have hstep := UInt64.le_iff_toNat_le.mp (h.tiles.step r hr)
  have hend := h.tiles.mono (show r + 1 ≤ size by omega) (Nat.le_refl size)
  have hall := h.length_joined (Nat.le_refl size)
  rw [h.localRange_eq hr]
  refine List.ext_getElem? fun i => ?_
  simp only [Span.slice, List.getElem?_drop, List.getElem?_take]
  rcases Nat.lt_or_ge i (v r).toList.length with hlt | hge
  · rw [if_pos (by omega), h.getElem?_joined hr hlt]
  · rw [List.getElem?_eq_none hge, if_neg (by omega)]

end Spread

/-! ## 3. Storages of a vector -/

/-- The shares of a vector with other storages. -/
theorem Spread.withStorage {size : Nat} {offsets : List UInt64} {v : Nat → Shard}
    (h : Spread size offsets v) {storage : Nat → Storage}
    (hs : ∀ r < size, (storage r).Sound ∧ (storage r).toList.length = (v r).toList.length) :
    Spread size offsets fun r => { v r with storage := storage r } where
  tiles := h.tiles
  seat := h.seat
  layout := h.layout
  sound := fun r hr => (hs r hr).1
  length := fun r hr => (hs r hr).2.trans (h.length r hr)

theorem toList_bind (v : Shard) (p : Partition) :
    (v.bind p).toList = List.replicate p.localSize .zero :=
  Storage.toList_reset _ _

/-- Shards that are laid out by one table are the shares of a vector of zeros. -/
theorem spread_bind {size : Nat} {offsets : List UInt64} {v : Nat → Shard}
    (ht : Partition.Tiles size offsets) (hseat : ∀ r < size, (v r).seat = .ofRank r size) :
    Spread size offsets fun r => (v r).bind ⟨r, offsets⟩ where
  tiles := ht
  seat := hseat
  layout := fun r _ => rfl
  sound := fun r _ => Storage.sound_reset _ _
  length := by
    intro r hr
    have hrange : (⟨r, offsets⟩ : Partition).localRange =
        ⟨offsets.getD r 0, offsets.getD (r + 1) 0⟩ := Partition.rangeOf_eq ht.length hr
    rw [toList_bind, List.length_replicate, Partition.localSize, hrange]
    exact UInt64.toNat_sub_of_le _ _ (ht.step r hr)

end Shard

end ShardedVector
