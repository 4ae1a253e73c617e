/-
# Vectors in other layouts

To redistribute is to gather the range that a rank has in another layout.  What comes of it is
the slice of the whole vector there (`converses_redistribute`), so slices kept in that layout are
shares of the same vector (`joined_of_slices`), and bringing them back restores the shares
(`converses_thereAndBack`).  What one rank asks of another one on the way back is what the other
one asked of it on the way there (`length_ownedBy_comm`), so one bound suffices for both.

`concludes_gatherValues` states all of it for every interleaving.
-/
import Mathlib.Data.List.Nodup
import ShardedVector.Proofs.Shard.Gather

namespace ShardedVector

/-! ## 1. Indices and slices -/

namespace Span

theorem mem_indices {range : Span} {i : UInt64} :
    i ∈ range.indices ↔ range.start ≤ i ∧ i < range.stop := by
  have hword := range.stop.toNat_lt
  simp only [indices, List.mem_map, List.mem_range'_1, UInt64.le_iff_toNat_le,
    UInt64.lt_iff_toNat_lt]
  constructor
  · rintro ⟨n, ⟨hstart, hstop⟩, rfl⟩
    have hn : (UInt64.ofNat n).toNat = n := UInt64.toNat_ofNat_of_lt' (by
      have hsize : UInt64.size = 2 ^ 64 := rfl
      omega)
    omega
  · rintro ⟨hstart, hstop⟩
    exact ⟨i.toNat, by omega, UInt64.ofNat_toNat⟩

theorem pairwise_indices (range : Span) : range.indices.Pairwise (· < ·) := by
  have hword := range.stop.toNat_lt
  have hsize : UInt64.size = 2 ^ 64 := rfl
  refine List.pairwise_map.mpr (List.Pairwise.imp_of_mem (fun {n m} hn hm hnm => ?_)
    List.pairwise_lt_range')
  have hn := List.mem_range'_1.mp hn
  have hm := List.mem_range'_1.mp hm
  rw [UInt64.lt_iff_toNat_lt, UInt64.toNat_ofNat_of_lt' (by omega),
    UInt64.toNat_ofNat_of_lt' (by omega)]
  exact hnm

theorem nodup_indices (range : Span) : range.indices.Nodup :=
  range.pairwise_indices.imp fun hlt => UInt64.ne_of_lt hlt

/-- The entries at the indices of a range are its slice. -/
theorem map_entryOf_indices {range : Span} {entries : List Binary64}
    (hstop : range.stop.toNat ≤ entries.length) :
    range.indices.map (Shard.entryOf entries) = range.slice entries := by
  have hword := range.stop.toNat_lt
  have hsize : UInt64.size = 2 ^ 64 := rfl
  refine List.ext_getElem (by simp [indices, slice, hstop]) fun i h₁ h₂ => ?_
  have hi : i < range.stop.toNat - range.start.toNat := by simpa [indices] using h₁
  have hplace : (UInt64.ofNat (range.start.toNat + i)).toNat = range.start.toNat + i :=
    UInt64.toNat_ofNat_of_lt' (by omega)
  have hlt : range.start.toNat + i < entries.length := by omega
  simp only [indices, slice, List.getElem_map, List.getElem_range', Nat.one_mul, Shard.entryOf,
    hplace, List.getElem_drop, List.getElem_take]
  exact List.getD_eq_getElem _ _ hlt

end Span

/-- The indices of all ranges, one after the other, are those of the whole. -/
theorem Partition.Tiles.flatMap_indices {size : Nat} {offsets : List UInt64}
    (h : Tiles size offsets) :
    ((List.range size).flatMap fun r =>
      (⟨offsets.getD r 0, offsets.getD (r + 1) 0⟩ : Span).indices) =
      (⟨0, offsets.getD size 0⟩ : Span).indices := by
  have upTo : ∀ k ≤ size, ((List.range k).flatMap fun r =>
      (⟨offsets.getD r 0, offsets.getD (r + 1) 0⟩ : Span).indices) =
      (⟨0, offsets.getD k 0⟩ : Span).indices := by
    intro k
    induction k with
    | zero =>
      intro _
      rw [h.first]
      rfl
    | succ k ih =>
      intro hk
      have hstep := UInt64.le_iff_toNat_le.mp (h.step k hk)
      have happend := List.range'_append_1 (s := 0) (m := (offsets.getD k 0).toNat)
        (n := (offsets.getD (k + 1) 0).toNat - (offsets.getD k 0).toNat)
      rw [Nat.zero_add, Nat.add_sub_cancel' hstep] at happend
      rw [List.range_succ, List.flatMap_append, ih (by omega), List.flatMap_singleton]
      simp only [Span.indices, UInt64.toNat_zero, Nat.sub_zero, ← List.map_append, happend]
  exact upTo size (Nat.le_refl size)

namespace Shard

/-- The slices of all ranges, one after the other, are the whole. -/
theorem flatMap_slice {size : Nat} {offsets : List UInt64} (h : Partition.Tiles size offsets)
    {entries : List Binary64} (hlen : entries.length = (offsets.getD size 0).toNat) :
    ((List.range size).flatMap fun r =>
      (⟨offsets.getD r 0, offsets.getD (r + 1) 0⟩ : Span).slice entries) = entries := by
  have upTo : ∀ k ≤ size, ((List.range k).flatMap fun r =>
      (⟨offsets.getD r 0, offsets.getD (r + 1) 0⟩ : Span).slice entries) =
      entries.take (offsets.getD k 0).toNat := by
    intro k
    induction k with
    | zero =>
      intro _
      rw [h.first]
      rfl
    | succ k ih =>
      intro hk
      have hstep := UInt64.le_iff_toNat_le.mp (h.step k hk)
      have htake : entries.take (offsets.getD k 0).toNat =
          (entries.take (offsets.getD (k + 1) 0).toNat).take (offsets.getD k 0).toNat := by
        rw [List.take_take, Nat.min_eq_left hstep]
      rw [List.range_succ, List.flatMap_append, ih (by omega), List.flatMap_singleton, htake]
      exact List.take_append_drop _ _
  rw [upTo size (Nat.le_refl size), ← hlen, List.take_length]

section Redistribute

variable {size : Nat} {offsets others : List UInt64} {v w : Nat → Shard}

/-- Shards that hold the slices of a vector are shares of it. -/
theorem joined_of_slices (hv : Spread size offsets v) (hw : Spread size others w)
    (hsize : others.getD size 0 = offsets.getD size 0)
    (h : ∀ r < size, (w r).toList = (w r).localRange.slice (joined size v)) :
    joined size w = joined size v := by
  have hlen : (joined size v).length = (others.getD size 0).toNat := by
    rw [hv.length_joined (Nat.le_refl size), hsize]
  refine Eq.trans ?_ (flatMap_slice hw.tiles hlen)
  refine List.flatMap_congr fun r hr => ?_
  have hr : r < size := List.mem_range.mp hr
  rw [h r hr, hw.localRange_eq hr]

/-- What rank `r` asks of rank `s` on the way there is as much as what `s` asks of `r` on the way
back. -/
theorem length_ownedBy_comm (hv : Spread size offsets v) (hw : Spread size others w)
    {r s : Nat} (hr : r < size) (hs : s < size) :
    ((v r).ownedBy s (w r).localRange.indices).length =
      ((w s).ownedBy r (v s).localRange.indices).length := by
  refine List.Perm.length_eq ((List.perm_ext_iff_of_nodup ?_ ?_).mpr fun i => ?_)
  · exact (Span.nodup_indices _).filter _
  · exact (Span.nodup_indices _).filter _
  · simp only [ownedBy, List.mem_filter, decide_eq_true_eq, Span.mem_indices,
      hv.ownerOf?_eq_some_iff hr, hw.ownerOf?_eq_some_iff hs, hv.localRange_eq hs,
      hw.localRange_eq hr, hr, hs, true_and]
    exact And.comm

/-- **A vector in another layout.**  Every rank obtains the slice of its range there. -/
theorem converses_redistribute (group : Nat) (hv : Spread size offsets v)
    (ht : Partition.Tiles size others) (hsize : others.getD size 0 = offsets.getD size 0)
    (short : ∀ r < size, ∀ s < size, r ≠ s →
      ((v r).ownedBy s (⟨r, others⟩ : Partition).localRange.indices).length < 2 ^ 29) :
    Converses group size (fun r => ((v r).redistribute ⟨r, others⟩).outcome)
      (fun r => .ok ((⟨r, others⟩ : Partition).localRange.slice (joined size v))) := by
  have hrange : ∀ r < size, (⟨r, others⟩ : Partition).localRange =
      ⟨others.getD r 0, others.getD (r + 1) 0⟩ := fun r hr => Partition.rangeOf_eq ht.length hr
  have hstop : ∀ r < size, (others.getD (r + 1) 0).toNat ≤ (offsets.getD size 0).toNat := by
    intro r hr
    have hle := ht.mono (show r + 1 ≤ size by omega) (Nat.le_refl size)
    rwa [hsize] at hle
  have inside : ∀ r < size, ∀ i ∈ (⟨r, others⟩ : Partition).localRange.indices,
      i < (v r).size := by
    intro r hr i hi
    rw [hrange r hr] at hi
    rw [hv.size_eq hr]
    exact UInt64.lt_iff_toNat_lt.mpr (Nat.lt_of_lt_of_le
      (UInt64.lt_iff_toNat_lt.mp (Span.mem_indices.mp hi).2) (hstop r hr))
  refine (converses_gatherValues hv group inside short).congr (fun r hr => ?_) fun r hr => ?_
  · have hcheck : checkGlobalSize .redistribute (v r).size
        (⟨r, others⟩ : Partition).size = .ok () := by
      rw [checkGlobalSize, hv.size_eq hr, Partition.size_eq ht.length, if_pos hsize.symm]
    rw [redistribute, hcheck]
    rfl
  · rw [Span.map_entryOf_indices]
    rw [hrange r hr, hv.length_joined (Nat.le_refl size)]
    exact hstop r hr

/-! ## 2. There and back -/

/-- The slices of a vector of the same size can be kept in the shares of another one. -/
theorem exists_kept (hv : Spread size offsets v) (hw : Spread size others w)
    (hsize : others.getD size 0 = offsets.getD size 0) :
    ∃ kept : Nat → Shard, Spread size others kept ∧ joined size kept = joined size v ∧
      ∀ r < size, (w r).withStorage
        ((w r).storage.setLocal ((w r).localRange.slice (joined size v))) = .ok (kept r) := by
  have hfits : ∀ r < size, (w r).storage.toList.length =
      ((w r).localRange.slice (joined size v)).length := by
    intro r hr
    have hend := hw.tiles.mono (show r + 1 ≤ size by omega) (Nat.le_refl size)
    have hlen := hw.length r hr
    rw [hsize] at hend
    rw [hw.localRange_eq hr]
    simp only [Span.slice, List.length_drop, List.length_take,
      hv.length_joined (Nat.le_refl size), Nat.min_eq_left hend]
    exact hlen
  choose! storage hok hsound hlist using fun r (hr : r < size) =>
    Storage.setLocal_spec (hw.sound r hr) (hfits r hr)
  have hkept : Spread size others fun r => { w r with storage := storage r } := by
    refine hw.withStorage fun r hr => ⟨hsound r hr, ?_⟩
    rw [hlist r hr, ← hfits r hr]
    rfl
  refine ⟨_, hkept, joined_of_slices hv hkept hsize hlist, fun r hr => ?_⟩
  rw [hok r hr]
  rfl

/-- Brings a vector into the layout of another one, keeps it there, and brings it back. -/
def thereAndBack (v w : Shard) (there back : Partition) : Attempt (List Binary64) := do
  let moved ← v.redistribute there
  let kept ← Attempt.ofExcept (w.withStorage (w.storage.setLocal moved))
  kept.redistribute back

/-- **What was brought into another layout comes back as it was.** -/
theorem converses_thereAndBack (group : Nat) (hv : Spread size offsets v)
    (hw : Spread size others w) (hsize : others.getD size 0 = offsets.getD size 0)
    (short : ∀ r < size, ∀ s < size, r ≠ s →
      ((v r).ownedBy s (⟨r, others⟩ : Partition).localRange.indices).length < 2 ^ 29) :
    Converses group size
      (fun r => (thereAndBack (v r) (w r) ⟨r, others⟩ ⟨r, offsets⟩).outcome)
      (fun r => .ok (v r).toList) := by
  obtain ⟨kept, hkept, hsame, hkeeps⟩ := exists_kept hv hw hsize
  have hback := converses_redistribute group hkept hv.tiles hsize.symm fun r hr s hs hrs => by
    have hcomm := length_ownedBy_comm hv hkept hs hr
    have hlt := short s hs r hr (Ne.symm hrs)
    rw [hw.localRange_table hs, hw.localRange_eq hs] at hlt
    rw [hv.localRange_table hr, ← hcomm, hkept.localRange_eq hs]
    exact hlt
  refine Converses.bind_ok (converses_redistribute group hv hw.tiles hsize short)
    (hback.congr (fun r hr => ?_) fun r hr => ?_)
  · rw [hw.localRange_table hr, hkeeps r hr]
    rfl
  · rw [hsame, hv.localRange_table hr, ← hv.toList_eq_slice hr]

/-! ## 3. Every interleaving -/

/-- **Entries are found wherever they are.**  Under every interleaving every rank obtains, for
each index it asks for, the entry that the owner keeps there; in another layout of the same
size it obtains the slice of its range; and what was kept in vectors of that layout, on any
backends, comes back as it was.  No rank may ask another one for more than a size header can
announce. -/
theorem concludes_gatherValues (group : Nat) (h : Spread size offsets v) :
    (∀ indices : Nat → List UInt64, (∀ r < size, ∀ i ∈ indices r, i < (v r).size) →
      (∀ r < size, ∀ s < size, r ≠ s → ((v r).ownedBy s (indices r)).length < 2 ^ 29) →
      ∃ values : Nat → List Binary64,
        (Ensemble.ofGroup group size fun r =>
          ((v r).gatherValues (indices r)).outcome).Concludes
          ((List.range size).map fun r => .ok (values r)) ∧
        ∀ r < size, (values r).length = (indices r).length ∧
          ∀ (k : Nat) (i : UInt64), (indices r)[k]? = some i →
            ∃ (s : Nat) (x : Binary64), (v r).ownerOf? i = some s ∧ s < size ∧
              (v s).entryAt? i = some x ∧ (values r)[k]? = some x) ∧
    (∀ others, Partition.Tiles size others → others.getD size 0 = offsets.getD size 0 →
      (∀ r < size, ∀ s < size, r ≠ s →
        ((v r).ownedBy s (⟨r, others⟩ : Partition).localRange.indices).length < 2 ^ 29) →
      (Ensemble.ofGroup group size fun r =>
        ((v r).redistribute ⟨r, others⟩).outcome).Concludes
        ((List.range size).map fun r =>
          .ok ((⟨r, others⟩ : Partition).localRange.slice (joined size v))) ∧
      ∀ w, Spread size others w →
        (Ensemble.ofGroup group size fun r =>
          (thereAndBack (v r) (w r) ⟨r, others⟩ ⟨r, offsets⟩).outcome).Concludes
          ((List.range size).map fun r => .ok (v r).toList)) := by
  constructor
  · intro indices inside short
    refine ⟨fun r => (indices r).map (entryOf (joined size v)),
      (converses_gatherValues h group inside short).concludes, fun r hr => ?_⟩
    refine ⟨List.length_map _, fun k i hk => ?_⟩
    obtain ⟨s, hs, howner⟩ := h.exists_ownerOf? hr (inside r hr i (List.mem_of_getElem? hk))
    have hin := ((h.ownerOf?_eq_some_iff hr).mp howner).2
    obtain ⟨hentry, hlt⟩ := h.entryAt?_eq_getElem?_joined hs hin
    refine ⟨s, (joined size v)[i.toNat], howner, hs, ?_, ?_⟩
    · rw [hentry, List.getElem?_eq_getElem hlt]
    · rw [List.getElem?_map, hk, Option.map_some, entryOf, List.getD_eq_getElem _ _ hlt]
  · intro others ht hsize short
    refine ⟨(converses_redistribute group h ht hsize short).concludes, fun w hw => ?_⟩
    exact (converses_thereAndBack group h hw hsize short).concludes

end Redistribute

/-- Two ranks on two backends: rank zero asks for entries of both, one of them twice, and rank
one for nothing; then the vector moves into a layout of other ranges. -/
theorem concludes_gatherValues_two :
    let v : Nat → Shard := fun r => ⟨.ofRank r 2, some ⟨r, [0, 1, 3]⟩,
      [.tpetra ⟨[[.one]], 1⟩, .petsc ⟨[.nan, .negativeOne], 7, .fresh 0⟩].getD r (.ofList []), true⟩
    let w : Nat → Shard := fun r => (unbound (.ofRank r 2) .dense).bind ⟨r, [0, 2, 3]⟩
    let indices : Nat → List UInt64 := fun r => if r = 0 then [2, 0, 2] else []
    Spread 2 [0, 1, 3] v ∧
    (∃ values : Nat → List Binary64,
      (Ensemble.ofGroup 1 2 fun r => ((v r).gatherValues (indices r)).outcome).Concludes
        [.ok (values 0), .ok (values 1)]) ∧
    (Ensemble.ofGroup 1 2 fun r => ((v r).redistribute ⟨r, [0, 2, 3]⟩).outcome).Concludes
      [.ok [.one, .nan], .ok [.negativeOne]] ∧
    (Ensemble.ofGroup 1 2 fun r =>
      (thereAndBack (v r) (w r) ⟨r, [0, 2, 3]⟩ ⟨r, [0, 1, 3]⟩).outcome).Concludes
      [.ok [.one], .ok [.nan, .negativeOne]] := by
  intro v w indices
  have hv : Spread 2 [0, 1, 3] v := {
    tiles := ⟨rfl, rfl, by decide⟩
    seat := fun _ _ => rfl
    layout := fun _ _ => rfl
    sound := by
      intro r hr
      rcases (show r = 0 ∨ r = 1 by omega) with rfl | rfl
      · exact ⟨show 1 ≤ Blocked.blockLength by decide, rfl⟩
      · trivial
    length := by decide }
  have ht : Partition.Tiles 2 [0, 2, 3] := ⟨rfl, rfl, by decide⟩
  have hinside : ∀ r < 2, ∀ i ∈ indices r, i < (v r).size := by
    intro r hr i hi
    rcases (show r = 0 ∨ r = 1 by omega) with rfl | rfl
    · have hcases : i = 2 ∨ i = 0 ∨ i = 2 := by simpa [indices] using hi
      rcases hcases with rfl | rfl | rfl
      · exact show (2 : UInt64) < 3 by decide
      · exact show (0 : UInt64) < 3 by decide
      · exact show (2 : UInt64) < 3 by decide
    · exact absurd hi List.not_mem_nil
  obtain ⟨hgather, hmove⟩ := concludes_gatherValues 1 hv
  obtain ⟨values, hvalues, -⟩ := hgather indices hinside (by decide)
  obtain ⟨hthere, hback⟩ := hmove [0, 2, 3] ht rfl (by decide)
  exact ⟨hv, ⟨values, hvalues⟩, hthere, hback w (spread_bind ht fun _ _ => rfl)⟩

end Shard

end ShardedVector
