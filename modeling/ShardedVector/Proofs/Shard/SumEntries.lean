/-
# Sums of some entries

The ranks put the sets of indices that they ask for together, and each of them sums its own entries
whose index is in the union.  Merging and dropping repetitions comes to the union itself
(`eraseReps_mergeAll`), and looking up its indices one by one comes to going through the own
entries and keeping those whose index is in it (`entriesAt_indexSet`).

`concludes_sumEntries` says what all ranks obtain, under every interleaving.
-/
import ShardedVector.Proofs.Merge.IndexSet
import ShardedVector.Proofs.Shard.Redistribute

namespace ShardedVector.Shard

/-! ## 1. The entries that are summed -/

/-- The entries of a share whose index is in a list, in ascending order of their indices. -/
def selected (v : Shard) (indices : List UInt64) : List Binary64 :=
  ((v.localRange.indices.zip v.toList).filter fun entry => decide (entry.1 ∈ indices)).map Prod.snd

/-- What is selected depends on the indices as a set. -/
theorem selected_congr {v : Shard} {indices indices' : List UInt64}
    (h : ∀ i, i ∈ indices ↔ i ∈ indices') : v.selected indices = v.selected indices' := by
  simp only [selected, h]

theorem filterMap_filter {α β : Type} {f : α → Option β} {p : α → Bool} :
    ∀ {as : List α} {bs : List β}, as.map f = bs.map some →
      (as.filter p).filterMap f = ((as.zip bs).filter fun x => p x.1).map Prod.snd
  | [], _, _ => rfl
  | a :: as, [], h => by simp at h
  | a :: as, b :: bs, h => by
    obtain ⟨hab, hrest⟩ := List.cons_eq_cons.mp h
    have ih := filterMap_filter (p := p) hrest
    by_cases hp : p a <;> simp [hp, hab, ih]

section Entries

variable {size : Nat} {offsets : List UInt64} {v : Nat → Shard} (h : Spread size offsets v)
  {r : Nat} (hr : r < size)

include h hr

theorem owns_iff_mem_indices {i : UInt64} : (v r).owns i ↔ i ∈ (v r).localRange.indices := by
  rw [owns, localRange, h.layout r hr, Span.mem_indices]
  exact decide_eq_true_iff

theorem length_indices_localRange : (v r).localRange.indices.length = (v r).toList.length := by
  rw [h.localRange_eq hr, h.length r hr]
  simp [Span.indices]

/-- The indices of the range look up the entries in order. -/
theorem map_entry?_indices :
    (v r).localRange.indices.map
        (fun i => Storage.entry? (v r).storage (i - (v r).localRange.start).toNat) =
      (v r).toList.map some := by
  have hlen := length_indices_localRange h hr
  refine List.ext_getElem (by simpa using hlen) fun k h₁ h₂ => ?_
  have hk : k < (v r).toList.length := by simpa using h₂
  have hword := (v r).localRange.stop.toNat_lt
  have hplace : ((UInt64.ofNat ((v r).localRange.start.toNat + k)) -
      (v r).localRange.start).toNat = k := by
    have hsize : UInt64.size = 2 ^ 64 := rfl
    have hrange : k < (v r).localRange.stop.toNat - (v r).localRange.start.toNat := by
      rw [← hlen] at hk
      simpa [Span.indices] using hk
    have hi : (UInt64.ofNat ((v r).localRange.start.toNat + k)).toNat =
        (v r).localRange.start.toNat + k := UInt64.toNat_ofNat_of_lt' (by omega)
    rw [UInt64.toNat_sub_of_le _ _ (UInt64.le_iff_toNat_le.mpr (by omega)), hi]
    omega
  simp only [Span.indices, List.getElem_map, List.getElem_range', Nat.one_mul, hplace]
  rw [Storage.entry?_eq_getElem? (h.sound r hr)]
  exact List.getElem?_eq_getElem hk

/-- **Looking up the indices of a set comes to going through the entries**, once each. -/
theorem entriesAt_indexSet (indices : List UInt64) :
    (v r).entriesAt (indexSet indices) = (v r).selected indices := by
  have hown : (indexSet indices).filter (v r).owns =
      (v r).localRange.indices.filter fun i => decide (i ∈ indices) := by
    refine List.Pairwise.eq_of_mem_iff ((pairwise_indexSet indices).filter _)
      ((Span.pairwise_indices _).filter _) fun i => ?_
    rw [List.mem_filter, List.mem_filter, mem_indexSet, owns_iff_mem_indices h hr,
      decide_eq_true_iff]
    exact and_comm
  rw [entriesAt, hown]
  exact filterMap_filter (map_entry?_indices h hr)

/-- With every index of the vector nothing is left out. -/
theorem selected_of_forall {indices : List UInt64} (hall : ∀ i < (v r).size, i ∈ indices) :
    (v r).selected indices = (v r).toList := by
  have hkeep : ∀ entry ∈ (v r).localRange.indices.zip (v r).toList,
      decide (entry.1 ∈ indices) = true := by
    intro entry hentry
    obtain ⟨-, hstop⟩ := Span.mem_indices.mp (List.of_mem_zip hentry).1
    have hend := h.tiles.mono (show r + 1 ≤ size by omega) (Nat.le_refl size)
    rw [h.localRange_eq hr, UInt64.lt_iff_toNat_lt] at hstop
    refine decide_eq_true (hall entry.1 ?_)
    rw [h.size_eq hr, UInt64.lt_iff_toNat_lt]
    exact Nat.lt_of_lt_of_le hstop hend
  rw [selected, List.filter_eq_self.mpr hkeep]
  exact List.map_snd_zip (Nat.le_of_eq (length_indices_localRange h hr).symm)

end Entries

/-! ## 2. The conversation -/

/-- The indices that the ranks of a group ask for together. -/
def union (size : Nat) (indices : Nat → List UInt64) : List UInt64 :=
  (List.range size).flatMap indices

theorem mem_union {size : Nat} {indices : Nat → List UInt64} {i : UInt64} :
    i ∈ union size indices ↔ ∃ r < size, i ∈ indices r := by
  simp [union]

/-- Lists of indices that a group may ask for: none is outside the vector, and no rank asks for more
indices than a size header can announce. -/
structure Askable (size : Nat) (v : Nat → Shard) (indices : Nat → List UInt64) : Prop where
  inside : ∀ r < size, ∀ i ∈ indices r, i < (v r).size
  short : ∀ r < size, (indices r).dedup.length < 2 ^ 29

/-- The sum of the entries whose index is in the union: each rank sums its own ones, and the sums
are folded in rank order. -/
def unionSum (size : Nat) (v : Nat → Shard) (indices : Nat → List UInt64) : Binary64 :=
  Collective.reduced size .sum fun r => Binary64.sum ((v r).selected (union size indices))

theorem unionSum_congr {size : Nat} {v : Nat → Shard} {indices indices' : Nat → List UInt64}
    (h : ∀ i, (∃ r < size, i ∈ indices r) ↔ ∃ r < size, i ∈ indices' r) :
    unionSum size v indices = unionSum size v indices' := by
  have hunion : ∀ i, i ∈ union size indices ↔ i ∈ union size indices' := fun i => by
    rw [mem_union, mem_union, h i]
  simp only [unionSum, selected_congr hunion]

theorem checkIndices_ok {v : Shard} {indices : List UInt64} (h : ∀ i ∈ indices, i < v.size) :
    v.checkIndices indices = .ok () := by
  have hfind : (indices.find? fun i => decide (v.size ≤ i)) = none :=
    List.find?_eq_none.mpr fun i hi => by simpa using h i hi
  rw [checkIndices, hfind]

section Conversation

variable {size : Nat} {offsets : List UInt64} {v : Nat → Shard} {indices : Nat → List UInt64}
  (h : Spread size offsets v)

include h

theorem converses_sumEntries (group : Nat) (hask : Askable size v indices) :
    Converses group size (fun r => ((v r).sumEntries (indices r)).outcome)
      (fun _ => .ok (unionSum size v indices)) := by
  have hlists := Collective.converses_allGatherRecords group size .sumEntries
    (fun r => indexSet (indices r)) fun r hr => by
      have hwidth : Record.width UInt64 = 8 := rfl
      have hshort := hask.short r hr
      rw [length_indexSet, hwidth, longestPayload]
      omega
  have hreduced := Collective.converses_reduceAll group size .reduce .sum fun r =>
    Binary64.sum ((v r).selected (union size indices))
  have hsums : Converses group size
      (fun r => (Collective.reduceAll (v r).seat .reduce .sum (Binary64.sum ((v r).entriesAt
        (mergeAll ((List.range size).map fun r => indexSet (indices r))).eraseReps))).outcome)
      (fun _ => .ok (unionSum size v indices)) := by
    refine hreduced.of_eq fun r hr => ?_
    have hmerged := eraseReps_mergeAll ((List.range size).map indices)
    rw [List.map_map, ← List.flatMap_def] at hmerged
    rw [h.seat r hr, ← entriesAt_indexSet h hr]
    exact congrArg (fun is => (Collective.reduceAll (Seat.ofRank r size) .reduce .sum
      (Binary64.sum ((v r).entriesAt is))).outcome) hmerged
  refine (Converses.bind_ok (f := fun r lists => Collective.reduceAll (v r).seat .reduce .sum
    (Binary64.sum ((v r).entriesAt (mergeAll lists).eraseReps))) hlists hsums).of_eq fun r hr => ?_
  rw [sumEntries, checkIndices_ok (hask.inside r hr), h.seat r hr]
  rfl

theorem converses_sum (group : Nat) :
    Converses group size (fun r => ((v r).sum).outcome)
      (fun _ => .ok (Collective.reduced size .sum fun r => (v r).storage.localSum)) := by
  refine (Collective.converses_reduceAll group size .reduce .sum _).of_eq fun r hr => ?_
  rw [Shard.sum, h.seat r hr]

/-- The sum of all entries of a vector that is kept in contiguous arrays. -/
theorem unionSum_eq_sum (hdense : ∀ r < size, (v r).backend = .dense)
    (hall : ∀ r < size, ∀ i < (v r).size, ∃ s < size, i ∈ indices s) :
    unionSum size v indices = Collective.reduced size .sum fun r => (v r).storage.localSum := by
  have hlocal : ∀ r < size, Binary64.sum ((v r).selected (union size indices)) =
      (v r).storage.localSum := by
    intro r hr
    rw [selected_of_forall h hr fun i hi => mem_union.mpr (hall r hr i hi)]
    have hbackend := hdense r hr
    rw [backend] at hbackend
    rw [toList]
    generalize (v r).storage = s at hbackend
    cases s with
    | dense array => rfl
    | petsc array => cases hbackend
    | tpetra blocks => cases hbackend
  exact Collective.reduced_congr hlocal

/-- **The sum of the entries whose index is asked for by some rank**, under every interleaving: all
ranks obtain it, and it is the same for all lists with the same union.  On contiguous arrays the
sum of all entries, asked for one by one, is the sum of the vector. -/
theorem concludes_sumEntries (group : Nat) (hask : Askable size v indices) :
    (Ensemble.ofGroup group size fun r => ((v r).sumEntries (indices r)).outcome).Concludes
      ((List.range size).map fun _ => .ok (unionSum size v indices)) ∧
    (∀ indices', Askable size v indices' →
      (∀ i, (∃ r < size, i ∈ indices r) ↔ ∃ r < size, i ∈ indices' r) →
      (Ensemble.ofGroup group size fun r => ((v r).sumEntries (indices' r)).outcome).Concludes
        ((List.range size).map fun _ => .ok (unionSum size v indices))) ∧
    ((∀ r < size, (v r).backend = .dense) →
      (∀ r < size, ∀ i < (v r).size, ∃ s < size, i ∈ indices s) →
      (Ensemble.ofGroup group size fun r => ((v r).sum).outcome).Concludes
        ((List.range size).map fun _ => .ok (unionSum size v indices))) := by
  refine ⟨(converses_sumEntries h group hask).concludes, ?_, ?_⟩
  · intro indices' hask' hunion
    rw [unionSum_congr hunion]
    exact (converses_sumEntries h group hask').concludes
  · intro hdense hall
    rw [unionSum_eq_sum h hdense hall]
    exact (converses_sum h group).concludes

end Conversation

/-- Two ranks with contiguous arrays, the second of which asks for nothing at first; then it asks
for what the other one leaves out. -/
theorem concludes_sumEntries_two :
    let v : Nat → Shard := fun r => ⟨.ofRank r 2, some ⟨r, [0, 2, 3]⟩,
      .ofList ([[.one, .negativeOne], [.one]].getD r []), true⟩
    let all : Nat → List UInt64 := fun r => if r = 0 then [2, 0, 1, 2] else []
    let shared : Nat → List UInt64 := fun r => if r = 0 then [1, 2] else [0, 1]
    Spread 2 [0, 2, 3] v ∧ Askable 2 v all ∧ Askable 2 v shared ∧
    (Ensemble.ofGroup 1 2 fun r => ((v r).sumEntries (all r)).outcome).Concludes
      [.ok .one, .ok .one] ∧
    (Ensemble.ofGroup 1 2 fun r => ((v r).sumEntries (shared r)).outcome).Concludes
      [.ok .one, .ok .one] ∧
    (Ensemble.ofGroup 1 2 fun r => ((v r).sum).outcome).Concludes [.ok .one, .ok .one] := by
  have hunion : ∀ i : UInt64, i ∈ [2, 0, 1, 2] ∨ i ∈ ([] : List UInt64) ↔
      i ∈ [1, 2] ∨ i ∈ ([0, 1] : List UInt64) := by
    intro i
    simp only [List.mem_cons, List.not_mem_nil, or_false]
    tauto
  have hranks : ∀ P : Nat → Prop, (∃ r < 2, P r) ↔ P 0 ∨ P 1 := by
    intro P
    constructor
    · rintro ⟨r, hr, hP⟩
      rcases (show r = 0 ∨ r = 1 by omega) with rfl | rfl
      · exact .inl hP
      · exact .inr hP
    · rintro (hP | hP)
      · exact ⟨0, by omega, hP⟩
      · exact ⟨1, by omega, hP⟩
  have hvector : ∀ i : UInt64, i.toNat < 3 → i ∈ ([2, 0, 1, 2] : List UInt64) := by
    intro i hi
    simp only [List.mem_cons, List.not_mem_nil, or_false, ← UInt64.toNat_inj, UInt64.reduceToNat]
    omega
  intro v all shared
  have hv : Spread 2 [0, 2, 3] v := {
    tiles := ⟨rfl, rfl, by decide⟩
    seat := fun _ _ => rfl
    layout := fun _ _ => rfl
    sound := fun _ _ => trivial
    length := by decide }
  have hbelow : ∀ l : List UInt64, l.all (· < 3) = true → ∀ i ∈ l, i < 3 := fun l h i hi => by
    simpa using List.all_eq_true.mp h i hi
  have hall : Askable 2 v all :=
    ⟨fun r hr => hbelow (all r) (by revert r; decide), by decide⟩
  have hshared : Askable 2 v shared :=
    ⟨fun r hr => hbelow (shared r) (by revert r; decide), by decide⟩
  have hvalue : unionSum 2 v all = .one := by decide
  obtain ⟨hfirst, hsame, hsum⟩ := concludes_sumEntries hv 1 hall
  rw [hvalue] at hfirst hsame hsum
  refine ⟨hv, hall, hshared, hfirst, hsame shared hshared fun i => ?_,
    hsum (fun _ _ => rfl) fun r _ i hi => ⟨0, by omega, ?_⟩⟩
  · rw [hranks, hranks]
    exact hunion i
  · have hi : i.toNat < 3 := UInt64.lt_iff_toNat_lt.mp hi
    exact hvector i hi

end ShardedVector.Shard
