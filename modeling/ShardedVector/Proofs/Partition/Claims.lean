/-
# Claims of a whole group

Each rank claims a range; all of them check the same list and come to the same verdict.

* `claimFault` is what is wrong with the claim of one rank, seen beside the claim before it.
* `verdict` is the table that the claims make, or else the fault of the first rank that has one.
* `contiguous_iff`: no rank has a fault exactly when the claims follow each other from zero.
* `concludes_explicit`: under every interleaving each rank ends with the verdict, and the ranges
  of a partition, claimed again, make the same partition.
-/
import ShardedVector.Partition.Explicit
import ShardedVector.Proofs.Collective.Records
import ShardedVector.Proofs.Partition.Balanced

namespace ShardedVector.Partition

/-! ## 1. Faults -/

/-- Where the claims of the ranks below `r` stop. -/
def stopBelow (claim : Nat → Span) : Nat → UInt64
  | 0 => 0
  | r + 1 => (claim r).stop

/-- What is wrong with the claim of rank `r`: reversed, begun too early or begun too late, tested
in this order. -/
def claimFault (claim : Nat → Span) (r : Nat) : Option LayoutFault :=
  let start := (claim r).start
  let stop := (claim r).stop
  let expected := stopBelow claim r
  if stop < start then some (.reversed r start.toNat stop.toNat)
  else if start < expected then some (.overlap r start.toNat stop.toNat expected.toNat)
  else if expected < start then some (.gap r expected.toNat start.toNat)
  else none

theorem claimFault_eq_none_iff {claim : Nat → Span} {r : Nat} :
    claimFault claim r = none ↔
      (claim r).start ≤ (claim r).stop ∧ (claim r).start = stopBelow claim r := by
  simp only [claimFault]
  constructor
  · intro h
    split at h
    · contradiction
    split at h
    · contradiction
    split at h
    · contradiction
    next h₁ h₂ h₃ =>
    exact ⟨UInt64.not_lt.mp h₁, UInt64.le_antisymm (UInt64.not_lt.mp h₃) (UInt64.not_lt.mp h₂)⟩
  · rintro ⟨hle, heq⟩
    rw [if_neg (UInt64.not_lt.mpr hle), heq, if_neg (UInt64.lt_irrefl _),
      if_neg (UInt64.lt_irrefl _)]

/-- Claims that follow each other from zero, none of them reversed. -/
structure Contiguous (size : Nat) (claim : Nat → Span) : Prop where
  first : (claim 0).start = 0
  forward : ∀ r < size, (claim r).start ≤ (claim r).stop
  next : ∀ r, r + 1 < size → (claim (r + 1)).start = (claim r).stop

theorem contiguous_iff {size : Nat} (hsize : 0 < size) {claim : Nat → Span} :
    Contiguous size claim ↔ ∀ r < size, claimFault claim r = none := by
  constructor
  · rintro ⟨first, forward, next⟩ r hr
    refine claimFault_eq_none_iff.mpr ⟨forward r hr, ?_⟩
    cases r with
    | zero => exact first
    | succ r => exact next r hr
  · intro h
    have h := fun r hr => claimFault_eq_none_iff.mp (h r hr)
    exact ⟨(h 0 hsize).2, fun r hr => (h r hr).1, fun r hr => (h (r + 1) hr).2⟩

/-! ## 2. Verdicts -/

/-- The verdict on the claims of the ranks `first`, `first + 1`, … -/
def verdictFrom (claim : Nat → Span) (first count : Nat) : Except LayoutFault (List UInt64) :=
  match (List.range' first count).findSome? (claimFault claim) with
  | some fault => .error fault
  | none =>
    .ok ((List.range' first count).map (fun r => (claim r).start) ++
      [stopBelow claim (first + count)])

/-- The verdict on the claims of a group: the offsets, or the first fault in rank order. -/
def verdict (size : Nat) (claim : Nat → Span) : Except LayoutFault (List UInt64) :=
  verdictFrom claim 0 size

/-- A verdict as rank `me` ends with it. -/
def sharedBy (me : Nat) : Except LayoutFault (List UInt64) → Except Error Partition
  | .ok offsets => .ok ⟨me, offsets⟩
  | .error fault => .error (.invalidLayout fault)

theorem offsetsFrom_map_range' (claim : Nat → Span) (first count : Nat) :
    offsetsFrom first (stopBelow claim first) ((List.range' first count).map claim) =
      (verdictFrom claim first count).mapError .invalidLayout := by
  induction count generalizing first with
  | zero => rfl
  | succ count ih =>
    have hrest : offsetsFrom (first + 1) (claim first).stop
        ((List.range' (first + 1) count).map claim) = _ := ih (first + 1)
    have hstop : first + (count + 1) = first + 1 + count := by omega
    simp only [List.range'_succ, List.map_cons, offsetsFrom, hrest, verdictFrom,
      List.findSome?_cons, claimFault, hstop]
    -- the tests are the same ones in the same order; past them the rest decides
    by_cases h₁ : (claim first).stop < (claim first).start
    · simp only [if_pos h₁]
      rfl
    by_cases h₂ : (claim first).start < stopBelow claim first
    · simp only [if_neg h₁, if_pos h₂]
      rfl
    by_cases h₃ : stopBelow claim first < (claim first).start
    · simp only [if_neg h₁, if_neg h₂, if_pos h₃]
      rfl
    simp only [if_neg h₁, if_neg h₂, if_neg h₃]
    cases (List.range' (first + 1) count).findSome? (claimFault claim) <;> rfl

theorem ofClaims_map_range (claim : Nat → Span) (me size : Nat) :
    ofClaims (.ofRank me size) ((List.range size).map claim) =
      sharedBy me (verdict size claim) := by
  have htable := offsetsFrom_map_range' claim 0 size
  rw [← List.range_eq_range'] at htable
  have hlen : ((List.range size).map claim).length = (Seat.ofRank me size).size := by
    simp [Seat.ofRank]
  rw [ofClaims, if_pos hlen]
  simp only [stopBelow] at htable
  rw [htable, verdict]
  cases verdictFrom claim 0 size <;> rfl

/-- The fault that is reported is that of the first rank that has one. -/
theorem verdict_eq_error_iff {size : Nat} {claim : Nat → Span} {fault : LayoutFault} :
    verdict size claim = .error fault ↔
      ∃ r < size, claimFault claim r = some fault ∧ ∀ s < r, claimFault claim s = none := by
  have hfind : verdict size claim = .error fault ↔
      (List.range' 0 size).findSome? (claimFault claim) = some fault := by
    rw [verdict, verdictFrom]
    cases (List.range' 0 size).findSome? (claimFault claim) <;> simp
  rw [hfind, List.findSome?_eq_some_iff]
  constructor
  · rintro ⟨below, r, above, hsplit, hr, hbelow⟩
    obtain ⟨k, -, rfl, hcons⟩ := List.range'_eq_append_iff.mp hsplit
    obtain ⟨hk, hpos, -⟩ := List.range'_eq_cons_iff.mp hcons.symm
    obtain rfl : k = r := by omega
    exact ⟨k, by omega, hr, fun s hs => hbelow s (List.mem_range'_1.mpr ⟨Nat.zero_le s, by omega⟩)⟩
  · rintro ⟨r, hlt, hr, hbelow⟩
    obtain ⟨above, rfl⟩ : ∃ above, size = r + (above + 1) := ⟨size - (r + 1), by omega⟩
    refine ⟨List.range' 0 r, r, List.range' (r + 1) above, ?_, hr, fun s hs => ?_⟩
    · rw [← List.range'_append_1, List.range'_succ, Nat.zero_add]
    · exact hbelow s (by simpa using hs)

theorem verdict_eq_ok_iff {size : Nat} {claim : Nat → Span} {offsets : List UInt64} :
    verdict size claim = .ok offsets ↔
      (∀ r < size, claimFault claim r = none) ∧
        offsets = (List.range size).map (fun r => (claim r).start) ++ [stopBelow claim size] := by
  have hnone : (List.range size).findSome? (claimFault claim) = none ↔
      ∀ r < size, claimFault claim r = none := by simp
  rw [verdict, verdictFrom, ← List.range_eq_range', Nat.zero_add, ← hnone]
  cases (List.range size).findSome? (claimFault claim) with
  | none => simp [eq_comm]
  | some fault => simp

/-! ## 3. Accepted claims -/

section Accepted

variable {size : Nat} {claim : Nat → Span} {offsets : List UInt64}

theorem length_of_verdict (h : verdict size claim = .ok offsets) : offsets.length = size + 1 := by
  rw [(verdict_eq_ok_iff.mp h).2]
  simp

/-- Offset `r` is where the claims of the ranks below `r` stop. -/
theorem getD_of_verdict (h : verdict size claim = .ok offsets) {r : Nat} (hr : r ≤ size) :
    offsets.getD r 0 = stopBelow claim r := by
  obtain ⟨hfaults, rfl⟩ := verdict_eq_ok_iff.mp h
  rw [List.getD_eq_getElem?_getD]
  rcases Nat.lt_or_eq_of_le hr with hlt | rfl
  · rw [List.getElem?_append_left (by simpa using hlt)]
    simpa [hlt] using (claimFault_eq_none_iff.mp (hfaults r hlt)).2
  · rw [List.getElem?_append_right (by simp)]
    simp

theorem tiles_of_verdict (h : verdict size claim = .ok offsets) : Tiles size offsets where
  length := length_of_verdict h
  first := getD_of_verdict h (Nat.zero_le size)
  step := by
    intro r hr
    obtain ⟨hle, heq⟩ := claimFault_eq_none_iff.mp ((verdict_eq_ok_iff.mp h).1 r hr)
    rw [getD_of_verdict h (Nat.le_of_lt hr), getD_of_verdict h hr, ← heq]
    exact hle

/-- The ranges of the partition are the claims. -/
theorem rangeOf_of_verdict (h : verdict size claim = .ok offsets) (me : Nat) {r : Nat}
    (hr : r < size) : (⟨me, offsets⟩ : Partition).rangeOf r = claim r := by
  have hstart := (claimFault_eq_none_iff.mp ((verdict_eq_ok_iff.mp h).1 r hr)).2
  rw [rangeOf_eq (length_of_verdict h) hr, getD_of_verdict h (Nat.le_of_lt hr),
    getD_of_verdict h hr, ← hstart]
  rfl

theorem size_of_verdict (h : verdict size claim = .ok offsets) (me : Nat) :
    (⟨me, offsets⟩ : Partition).size = stopBelow claim size := by
  rw [size_eq (length_of_verdict h), getD_of_verdict h (Nat.le_refl size)]

/-- The ranges of a table that tiles the indices, claimed again, make the same table. -/
theorem verdict_of_tiles (h : Tiles size offsets)
    (hclaim : ∀ r < size, claim r = ⟨offsets.getD r 0, offsets.getD (r + 1) 0⟩) :
    verdict size claim = .ok offsets := by
  have hstop : ∀ r ≤ size, stopBelow claim r = offsets.getD r 0 := by
    intro r hr
    cases r with
    | zero => exact h.first.symm
    | succ r => rw [stopBelow, hclaim r hr]
  refine verdict_eq_ok_iff.mpr ⟨fun r hr => claimFault_eq_none_iff.mpr ?_, ?_⟩
  · rw [hstop r (Nat.le_of_lt hr), hclaim r hr]
    exact ⟨h.step r hr, rfl⟩
  · refine List.ext_getElem (by simp [h.length]) fun r hr _ => ?_
    have hle : r ≤ size := by have := h.length; omega
    have hget : offsets[r] = offsets.getD r 0 := by rw [List.getD_eq_getElem _ _ hr]
    rw [hget, List.getElem_append]
    split
    · next hlt =>
      have hlt : r < size := by simpa using hlt
      simp [hclaim r hlt]
    · next hge =>
      obtain rfl : r = size := by simp at hge; omega
      simp [hstop r (Nat.le_refl r)]

end Accepted

/-! ## 4. Claims that are exchanged -/

/-- Every rank comes to the verdict. -/
theorem converses_explicit (group size : Nat) (claim : Nat → Span) :
    Converses group size (fun r => (explicit (.ofRank r size) (claim r)).outcome)
      (fun r => sharedBy r (verdict size claim)) := by
  have hrows := Collective.converses_allGatherRecords group size .partition (fun r => [claim r])
    fun r _ => by
      have hwidth : Record.width Span = 16 := rfl
      rw [hwidth, longestPayload, List.length_singleton]
      decide
  refine Converses.bind_ok hrows ((Converses.finish group size _).of_eq fun r _ => ?_)
  have hflat : ((List.range size).map fun r => [claim r]).flatten =
      (List.range size).map claim := by
    rw [← List.flatMap_def, List.map_eq_flatMap]
  rw [hflat, ofClaims_map_range]
  rfl

/-- **Claims are judged as one.**  Under every interleaving all ranks end with the verdict on the
claims.  They are accepted exactly when they follow each other from zero, and then they are the
ranges of the partition; otherwise the fault is that of the first rank that has one.  The ranges
of an accepted or an even partition, claimed again, make the same partition. -/
theorem concludes_explicit (group : Nat) {size : Nat} (hsize : 0 < size) (claim : Nat → Span) :
    (Ensemble.ofGroup group size fun r => (explicit (.ofRank r size) (claim r)).outcome).Concludes
      ((List.range size).map fun r => sharedBy r (verdict size claim)) ∧
    ((∃ offsets, verdict size claim = .ok offsets) ↔ Contiguous size claim) ∧
    (∀ offsets, verdict size claim = .ok offsets → ∀ me,
      (∀ r < size, (⟨me, offsets⟩ : Partition).rangeOf r = claim r) ∧
      (⟨me, offsets⟩ : Partition).size = (claim (size - 1)).stop) ∧
    (∀ fault, verdict size claim = .error fault ↔
      ∃ r < size, claimFault claim r = some fault ∧ ∀ s < r, claimFault claim s = none) ∧
    (∀ layout : Nat → Partition,
      (∃ offsets, verdict size claim = .ok offsets ∧ ∀ r < size, layout r = ⟨r, offsets⟩) ∨
        (size < 2 ^ 64 ∧ ∃ n, ∀ r < size, layout r = balanced (.ofRank r size) n) →
      (Ensemble.ofGroup group size fun r =>
        (explicit (.ofRank r size) (layout r).localRange).outcome).Concludes
        ((List.range size).map fun r => .ok (layout r))) := by
  refine ⟨(converses_explicit group size claim).concludes, ?_, ?_, ?_, ?_⟩
  · rw [contiguous_iff hsize]
    constructor
    · rintro ⟨offsets, h⟩
      exact (verdict_eq_ok_iff.mp h).1
    · intro h
      exact ⟨_, verdict_eq_ok_iff.mpr ⟨h, rfl⟩⟩
  · intro offsets h me
    refine ⟨fun r hr => rangeOf_of_verdict h me hr, ?_⟩
    obtain ⟨last, rfl⟩ : ∃ last, size = last + 1 := ⟨size - 1, by omega⟩
    exact size_of_verdict h me
  · exact fun fault => verdict_eq_error_iff
  · intro layout hlayout
    obtain ⟨offsets, htiles, hoffsets⟩ : ∃ offsets, Tiles size offsets ∧
        ∀ r < size, layout r = ⟨r, offsets⟩ := by
      rcases hlayout with ⟨offsets, h, hlayout⟩ | ⟨hword, n, hlayout⟩
      · exact ⟨offsets, tiles_of_verdict h, hlayout⟩
      · exact ⟨_, tiles_balanced 0 hsize hword n, hlayout⟩
    have hverdict : verdict size (fun r => (layout r).localRange) = .ok offsets :=
      verdict_of_tiles htiles fun r hr => by
        rw [hoffsets r hr]
        exact rangeOf_eq htiles.length hr
    refine ((converses_explicit group size fun r => (layout r).localRange).congr (fun _ _ => rfl)
      fun r hr => ?_).concludes
    rw [hverdict, hoffsets r hr]
    rfl

/-- Three ranks, one of which owns nothing; and three ranks of which the last two are at fault. -/
theorem concludes_explicit_three :
    let accepted : Nat → Span := fun r => [⟨0, 4⟩, ⟨4, 4⟩, ⟨4, 9⟩].getD r ⟨0, 0⟩
    let refused : Nat → Span := fun r => [⟨0, 4⟩, ⟨3, 6⟩, ⟨9, 7⟩].getD r ⟨0, 0⟩
    0 < 3 ∧
    (Ensemble.ofGroup 1 3 fun r => (explicit (.ofRank r 3) (accepted r)).outcome).Concludes
      [.ok ⟨0, [0, 4, 4, 9]⟩, .ok ⟨1, [0, 4, 4, 9]⟩, .ok ⟨2, [0, 4, 4, 9]⟩] ∧
    (Ensemble.ofGroup 1 3 fun r => (explicit (.ofRank r 3) (refused r)).outcome).Concludes
      (List.replicate 3 (.error (.invalidLayout (.overlap 1 3 6 4)))) :=
  ⟨by decide, (concludes_explicit 1 (by decide) _).1, (concludes_explicit 1 (by decide) _).1⟩

end ShardedVector.Partition
