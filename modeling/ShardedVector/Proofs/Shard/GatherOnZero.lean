/-
# Gathering everything on rank zero

There are two ways to have all entries of a vector on rank zero.  In a gather to a root every rank
sends its share, and the root puts the shares one after the other; in a gather by index the root
asks the owner of every index.  The first way knows nothing of indices, and comes to the same since
the ranges of the ranks ascend with the ranks (`converses_gatherOnZero`, `map_entryOf_all`).

The entries in global order do not depend on the layout, so a vector that was brought into another
one comes to the same on rank zero (`converses_movedOnZero`).  A rank never asks another one for
more than the whole share of that one (`length_ownedBy_le`), which keeps every message of this
short enough.

`concludes_gatherOnZero` states all of it for every interleaving.
-/
import ShardedVector.Proofs.Collective.Root
import ShardedVector.Proofs.Shard.Redistribute

namespace ShardedVector

namespace Collective

/-- The root obtains the rows of all ranks, and the other ranks nothing. -/
theorem converses_gatherRecordsTo {α : Type} [Record α] (group : Nat) {size root : Nat} (tag : Tag)
    (hroot : root < size) (rows : Nat → List α)
    (short : ∀ r < size, r ≠ root → (rows r).length * Record.width α ≤ longestPayload) :
    Converses group size
      (fun r => (gatherRecordsTo (Seat.ofRank r size) tag root (rows r)).outcome)
      (fun r => .ok (if r = root then (List.range size).map rows else [])) := by
  have hbytes := converses_gatherTo group tag hroot (fun r => Wire.encodeAll (rows r))
    fun r hr hne => by
      rw [Wire.length_encodeAll]
      exact short r hr hne
  refine Converses.bind_ok hbytes ((Converses.finish group size _).of_eq fun r _ => ?_)
  by_cases hr : r = root
  · have hrows := decodeFrom_map_encodeAll 0 ((List.range size).map rows)
    rw [List.map_map] at hrows
    rw [if_pos hr, if_pos hr]
    exact congrArg Routine.finish hrows
  · rw [if_neg hr, if_neg hr]
    rfl

end Collective

namespace Shard

section GatherOnZero

variable {size : Nat} {offsets others : List UInt64} {v w : Nat → Shard}

/-! ## 1. The shares one after the other -/

/-- What every rank obtains when everything is gathered on rank zero. -/
def onZero (entries : List Binary64) (r : Nat) : List Binary64 := if r = 0 then entries else []

/-- **Rank zero obtains the shares in rank order**, and the other ranks nothing. -/
theorem converses_gatherOnZero (group : Nat) (h : Spread size offsets v) (hsize : 0 < size)
    (hgather : ∀ r < size, (v r).capabilities.gather = true)
    (short : ∀ r < size, r ≠ 0 → (v r).toList.length < 2 ^ 29) :
    Converses group size (fun r => (v r).gatherOnZero.outcome)
      (fun r => .ok (onZero (joined size v) r)) := by
  have hrows := Collective.converses_gatherRecordsTo group .gatherZero hsize
    (fun r => (v r).toList) fun r hr hne => by
      have hlt := short r hr hne
      have hwidth : Record.width Binary64 = 8 := rfl
      rw [hwidth, longestPayload]
      omega
  have hflat : ∀ r, (if r = 0 then (List.range size).map fun s => (v s).toList else []).flatten =
      onZero (joined size v) r := by
    intro r
    by_cases hr : r = 0
    · rw [onZero, if_pos hr, if_pos hr, joined, List.flatMap_def]
    · rw [onZero, if_neg hr, if_neg hr, List.flatten_nil]
  let share : Nat → Attempt (List Binary64) := fun r => do
    let parts ← Collective.gatherRecordsTo (v r).seat .gatherZero 0 (v r).toList
    return parts.flatten
  have hshare : Converses group size (fun r => (share r).outcome)
      (fun r => .ok (onZero (joined size v) r)) := by
    refine (Converses.bind_ok (f := fun _ parts => return parts.flatten) hrows
      ((Converses.finish group size _).of_eq fun r _ => ?_)).of_eq fun r hr => ?_
    · rw [hflat r]
      rfl
    · simp only [share, h.seat r hr]
  have htimed : Converses group size
      (fun r => ((v r).timed gatherOnZeroTask (share r)).outcome)
      (fun r => .ok (onZero (joined size v) r)) := converses_timed hshare
  refine htimed.of_eq fun r hr => ?_
  rw [gatherOnZero, requireGather, if_pos (hgather r hr)]
  rfl

/-! ## 2. All entries by index -/

/-- The entries at all indices in ascending order are the shares one after the other. -/
theorem map_entryOf_all (h : Spread size offsets v) :
    (⟨0, offsets.getD size 0⟩ : Span).indices.map (entryOf (joined size v)) = joined size v := by
  have hlen := h.length_joined (Nat.le_refl size)
  rw [Span.map_entryOf_indices (Nat.le_of_eq hlen.symm), Span.slice, ← hlen, List.take_length]
  rfl

/-- A rank is asked for no more than its share, when no index is asked for twice. -/
theorem length_ownedBy_le (h : Spread size offsets v) {r s : Nat} (hr : r < size) (hs : s < size)
    {indices : List UInt64} (hnodup : indices.Nodup) :
    ((v r).ownedBy s indices).length ≤ (v s).toList.length := by
  have hsubset : (v r).ownedBy s indices ⊆ (v s).localRange.indices := by
    intro i hi
    rw [h.localRange_eq hs]
    exact Span.mem_indices.mpr (range_of_mem_ownedBy h hr hi).2
  have hlen : (v s).localRange.indices.length = (v s).toList.length := by
    rw [h.localRange_eq hs, h.length s hs]
    simp [Span.indices]
  rw [← hlen]
  exact (List.subperm_of_subset (hnodup.filter _) hsubset).length_le

theorem converses_gather (group : Nat) (h : Spread size offsets v) {indices : Nat → List UInt64}
    (hgather : ∀ r < size, (v r).capabilities.gather = true)
    (inside : ∀ r < size, ∀ i ∈ indices r, i < (v r).size)
    (short : ∀ r < size, ∀ s < size, r ≠ s → ((v r).ownedBy s (indices r)).length < 2 ^ 29) :
    Converses group size (fun r => ((v r).gather (indices r)).outcome)
      (fun r => .ok ((indices r).map (entryOf (joined size v)))) := by
  refine (converses_gatherValues h group inside short).of_eq fun r hr => ?_
  rw [gather, requireGather, if_pos (hgather r hr)]
  rfl

/-! ## 3. In another layout -/

/-- Brings a vector into the layout of another one, keeps it there, and gathers it on rank zero. -/
def movedOnZero (v w : Shard) (there : Partition) : Attempt (List Binary64) := do
  let moved ← v.redistribute there
  let kept ← Attempt.ofExcept (w.withStorage (w.storage.setLocal moved))
  kept.gatherOnZero

/-- Other entries are kept in the same way. -/
theorem capabilities_of_setLocal {v u : Shard} {values : List Binary64}
    (h : v.withStorage (v.storage.setLocal values) = .ok u) : u.capabilities = v.capabilities := by
  cases hset : v.storage.setLocal values with
  | error e =>
    rw [hset] at h
    cases h
  | ok storage =>
    rw [hset] at h
    rw [← Except.ok.inj h]
    rw [Storage.setLocal_eq_zip] at hset
    exact congrArg Backend.capabilities (Storage.backend_zip _ _ hset)

/-- **The same in every layout.**  On the way there a rank asks for no more than the share of the
other one, and for no more than its own share there, so one of the two bounds serves. -/
theorem converses_movedOnZero (group : Nat) (hv : Spread size offsets v)
    (hw : Spread size others w) (hsize : 0 < size)
    (heq : others.getD size 0 = offsets.getD size 0)
    (hgather : ∀ r < size, (w r).capabilities.gather = true)
    (hshort : ∀ r < size, r ≠ 0 → (v r).toList.length < 2 ^ 29)
    (hshort' : ∀ r < size, r ≠ 0 → (w r).toList.length < 2 ^ 29) :
    Converses group size (fun r => (movedOnZero (v r) (w r) ⟨r, others⟩).outcome)
      (fun r => .ok (onZero (joined size v) r)) := by
  obtain ⟨kept, hkept, hsame, hkeeps⟩ := exists_kept hv hw heq
  have hlength : ∀ r < size, (kept r).toList.length = (w r).toList.length := fun r hr =>
    (hkept.length r hr).trans (hw.length r hr).symm
  have hmove := converses_redistribute group hv hw.tiles heq fun r hr s hs hrs => by
    rw [hw.localRange_table hr]
    -- only the share of rank zero may be too long, and then the one that asks is another rank
    by_cases hs0 : s = 0
    · have hr0 : r ≠ 0 := fun hr0 => hrs (hr0.trans hs0.symm)
      have hcomm := length_ownedBy_comm hv hw hr hs
      have hle := length_ownedBy_le hw hs hr (Span.nodup_indices (v s).localRange)
      rw [hcomm]
      exact Nat.lt_of_le_of_lt hle (hshort' r hr hr0)
    · have hle := length_ownedBy_le hv hr hs (Span.nodup_indices (w r).localRange)
      exact Nat.lt_of_le_of_lt hle (hshort s hs hs0)
  have hzero := converses_gatherOnZero group hkept hsize
    (fun r hr => (congrArg Capabilities.gather (capabilities_of_setLocal (hkeeps r hr))).trans
      (hgather r hr))
    fun r hr hr0 => (hlength r hr).trans_lt (hshort' r hr hr0)
  rw [hsame] at hzero
  refine Converses.bind_ok hmove (hzero.of_eq fun r hr => ?_)
  rw [hw.localRange_table hr, hkeeps r hr]
  rfl

/-! ## 4. Every interleaving -/

/-- **All entries in global order on rank zero.**  Let a vector be laid out in any way, with
backends that can gather and shares that a size header can announce.  There is one list of entries,
with the entry of its owner for each index, such that under every interleaving

* a gather on zero comes to this list on rank zero and to nothing on the other ranks;
* a gather by index comes to this list on rank zero when it asks for all indices in order, whatever
  the other ranks ask for;
* a gather on zero comes to the same after the vector was brought into any other layout of the same
  size, on any backends that can gather. -/
theorem concludes_gatherOnZero (group : Nat) (h : Spread size offsets v) (hsize : 0 < size)
    (hgather : ∀ r < size, (v r).capabilities.gather = true)
    (short : ∀ r < size, r ≠ 0 → (v r).toList.length < 2 ^ 29) :
    ∃ entries : List Binary64,
      (∀ r < size, entries.length = (v r).size.toNat) ∧
      (∀ r < size, ∀ i < (v r).size, ∃ (s : Nat) (x : Binary64),
        (v r).ownerOf? i = some s ∧ s < size ∧ (v s).entryAt? i = some x ∧
          entries[i.toNat]? = some x) ∧
      (Ensemble.ofGroup group size fun r => (v r).gatherOnZero.outcome).Concludes
        ((List.range size).map fun r => .ok (if r = 0 then entries else [])) ∧
      (∀ indices : Nat → List UInt64, indices 0 = (⟨0, (v 0).size⟩ : Span).indices →
        (∀ r < size, r ≠ 0 → (∀ i ∈ indices r, i < (v r).size) ∧
          ∀ s < size, r ≠ s → ((v r).ownedBy s (indices r)).length < 2 ^ 29) →
        ∃ values : Nat → List Binary64, values 0 = entries ∧
          (Ensemble.ofGroup group size fun r => ((v r).gather (indices r)).outcome).Concludes
            ((List.range size).map fun r => .ok (values r))) ∧
      ∀ (others : List UInt64) (w : Nat → Shard), Spread size others w →
        (w 0).size = (v 0).size → (∀ r < size, (w r).capabilities.gather = true) →
        (∀ r < size, r ≠ 0 → (w r).toList.length < 2 ^ 29) →
        (Ensemble.ofGroup group size fun r =>
          (movedOnZero (v r) (w r) ⟨r, others⟩).outcome).Concludes
          ((List.range size).map fun r => .ok (if r = 0 then entries else [])) := by
  refine ⟨joined size v, fun r hr => ?_, fun r hr i hi => ?_,
    (converses_gatherOnZero group h hsize hgather short).concludes,
    fun indices hall hothers => ?_, fun others w hw heq hgather' short' => ?_⟩
  · rw [h.size_eq hr]
    exact h.length_joined (Nat.le_refl size)
  · obtain ⟨s, hs, howner⟩ := h.exists_ownerOf? hr hi
    have hin := ((h.ownerOf?_eq_some_iff hr).mp howner).2
    obtain ⟨hentry, hlt⟩ := h.entryAt?_eq_getElem?_joined hs hin
    refine ⟨s, (joined size v)[i.toNat], howner, hs, ?_, List.getElem?_eq_getElem hlt⟩
    rw [hentry, List.getElem?_eq_getElem hlt]
  · have inside : ∀ r < size, ∀ i ∈ indices r, i < (v r).size := by
      intro r hr i hi
      by_cases hr0 : r = 0
      · subst hr0
        rw [hall] at hi
        exact (Span.mem_indices.mp hi).2
      · exact (hothers r hr hr0).1 i hi
    have hshort : ∀ r < size, ∀ s < size, r ≠ s →
        ((v r).ownedBy s (indices r)).length < 2 ^ 29 := by
      intro r hr s hs hrs
      by_cases hr0 : r = 0
      · subst hr0
        rw [hall]
        exact Nat.lt_of_le_of_lt (length_ownedBy_le h hr hs (Span.nodup_indices _))
          (short s hs (Ne.symm hrs))
      · exact (hothers r hr hr0).2 s hs hrs
    refine ⟨fun r => (indices r).map (entryOf (joined size v)), ?_,
      (converses_gather group h hgather inside hshort).concludes⟩
    change (indices 0).map _ = _
    rw [hall, h.size_eq hsize]
    exact map_entryOf_all h
  · rw [hw.size_eq hsize, h.size_eq hsize] at heq
    exact (converses_movedOnZero group h hw hsize heq hgather' short short').concludes

end GatherOnZero

/-- Three entries on two ranks with different backends, which then move into a layout in which rank
zero has none of them. -/
theorem concludes_gatherOnZero_two :
    let v : Nat → Shard := fun r => ⟨.ofRank r 2, some ⟨r, [0, 1, 3]⟩,
      [.ofList [.one], .petsc ⟨[.nan, .negativeOne], 7, .fresh 0⟩].getD r (.ofList []), true⟩
    let w : Nat → Shard := fun r => (unbound (.ofRank r 2) .petsc).bind ⟨r, [0, 0, 3]⟩
    (Spread 2 [0, 1, 3] v ∧ 0 < 2 ∧ (∀ r < 2, (v r).capabilities.gather = true) ∧
      ∀ r < 2, r ≠ 0 → (v r).toList.length < 2 ^ 29) ∧
    ∃ entries : List Binary64, entries.length = 3 ∧ entries[1]? = some .nan ∧
      (Ensemble.ofGroup 1 2 fun r => (v r).gatherOnZero.outcome).Concludes
        [.ok entries, .ok []] ∧
      (Ensemble.ofGroup 1 2 fun r => (movedOnZero (v r) (w r) ⟨r, [0, 0, 3]⟩).outcome).Concludes
        [.ok entries, .ok []] := by
  intro v w
  have hv : Spread 2 [0, 1, 3] v := {
    tiles := ⟨rfl, rfl, by decide⟩
    seat := fun _ _ => rfl
    layout := fun _ _ => rfl
    sound := by
      intro r hr
      rcases (show r = 0 ∨ r = 1 by omega) with rfl | rfl
      · exact Storage.sound_ofList _
      · trivial
    length := by decide }
  have hw : Spread 2 [0, 0, 3] w := spread_bind ⟨rfl, rfl, by decide⟩ fun _ _ => rfl
  have hgather : ∀ r < 2, (v r).capabilities.gather = true := by decide
  have hshort : ∀ r < 2, r ≠ 0 → (v r).toList.length < 2 ^ 29 := by decide
  obtain ⟨entries, hlength, hentries, hzero, -, hmoved⟩ :=
    concludes_gatherOnZero 1 hv (by decide) hgather hshort
  obtain ⟨s, x, howner, -, hx, hget⟩ := hentries 0 (by decide) 1 (by decide)
  refine ⟨⟨hv, by decide, hgather, hshort⟩, entries, hlength 0 (by decide), ?_, hzero,
    hmoved _ w hw rfl (by decide) (by decide)⟩
  have hs : s = 1 := Option.some.inj (howner.symm.trans (by decide))
  have hnan : (v 1).entryAt? 1 = some .nan := by decide
  rw [hs, hnan] at hx
  rw [Option.some.inj hx]
  exact hget

end Shard

end ShardedVector
