/-
# Records that are exchanged

A row of records is read back from the bytes it was written to (`Wire.decodeAll_encodeAll`), so the
typed collectives come to what the collectives on bytes come to, row for row.  A row is short
enough when its bytes are: a size header announces `longestPayload` bytes at most.
-/
import ShardedVector.Proofs.Collective.Exchange

namespace ShardedVector

variable {α : Type} [Record α]

namespace Collective

theorem decodeFrom_map_encodeAll :
    ∀ (first : Nat) (rows : List (List α)),
      decodeFrom α first (rows.map Wire.encodeAll) = .ok rows
  | _, [] => rfl
  | first, items :: rest => by
    rw [List.map_cons, decodeFrom, Wire.decodeAll_encodeAll,
      decodeFrom_map_encodeAll (first + 1) rest]
    rfl

/-! ## 1. The typed collectives -/

variable (group size : Nat) (tag : Tag)

/-- Every rank obtains the rows of all ranks. -/
theorem converses_allGatherRecords (items : Nat → List α)
    (short : ∀ r < size, (items r).length * Record.width α ≤ longestPayload) :
    Converses group size
      (fun r => (allGatherRecords (Seat.ofRank r size) tag (items r)).outcome)
      (fun _ => .ok ((List.range size).map items)) := by
  have hbytes := converses_allGather group size tag (fun r => Wire.encodeAll (items r))
    fun r hr => by
      rw [Wire.length_encodeAll]
      exact short r hr
  refine Converses.bind_ok hbytes ((Converses.finish group size _).of_eq fun _ _ => ?_)
  have hrows := decodeFrom_map_encodeAll 0 ((List.range size).map items)
  rw [List.map_map] at hrows
  exact congrArg Routine.finish hrows

/-- Every rank obtains the rows that all ranks have for it. -/
theorem converses_allToAllRecords (rows : Nat → Nat → List α)
    (short : ∀ r < size, ∀ p < size, p ≠ r →
      (rows p r).length * Record.width α ≤ longestPayload) :
    Converses group size
      (fun r =>
        (allToAllRecords (Seat.ofRank r size) tag ((List.range size).map (rows r))).outcome)
      (fun r => .ok ((List.range size).map fun p => rows p r)) := by
  have hbytes := converses_allToAll group size tag (fun r p => Wire.encodeAll (rows r p))
    fun r hr p hp hpr => by
      rw [Wire.length_encodeAll]
      exact short r hr p hp hpr
  refine Converses.bind_ok (hbytes.of_eq fun r _ => ?_)
    ((Converses.finish group size _).of_eq fun r _ => ?_)
  · rw [List.map_map]
    rfl
  · have hrows := decodeFrom_map_encodeAll 0 ((List.range size).map fun p => rows p r)
    rw [List.map_map] at hrows
    exact congrArg Routine.finish hrows

/-! ## 2. Reductions -/

/-- What the numbers of all ranks reduce to: they are folded in rank order, and a number that is
alone stays as it is. -/
def reduced (size : Nat) (op : Reduction) (x : Nat → Binary64) : Binary64 :=
  let numbers := (List.range size).map x
  if size = 1 then x 0
  else match op with
    | .sum => numbers.foldl (fun acc y => acc + y) .zero
    | .min => numbers.foldl Binary64.min .infinity
    | .max => numbers.foldl Binary64.max .negativeInfinity

theorem reduced_one (op : Reduction) (x : Nat → Binary64) : reduced 1 op x = x 0 := rfl

theorem reduced_of_ne_one {size : Nat} (h : size ≠ 1) (op : Reduction) (x : Nat → Binary64) :
    reduced size op x = op.fold ((List.range size).map x) := by
  cases op <;> exact if_neg h

theorem reduced_congr {size : Nat} {op : Reduction} {x y : Nat → Binary64}
    (h : ∀ r < size, x r = y r) : reduced size op x = reduced size op y := by
  have hmap : (List.range size).map x = (List.range size).map y :=
    List.map_congr_left fun r hr => h r (List.mem_range.mp hr)
  by_cases hsize : size = 1
  · subst hsize
    rw [reduced_one, reduced_one, h 0 (by omega)]
  · rw [reduced_of_ne_one hsize, reduced_of_ne_one hsize, hmap]

/-- Every rank obtains the same number. -/
theorem converses_reduceAll (op : Reduction) (x : Nat → Binary64) :
    Converses group size (fun r => (reduceAll (Seat.ofRank r size) tag op (x r)).outcome)
      (fun _ => .ok (reduced size op x)) := by
  by_cases hsize : size = 1
  · subst hsize
    refine (Converses.finish group 1 fun _ => .ok (x 0)).congr (fun r hr => ?_) fun _ _ => rfl
    rw [Nat.lt_one_iff.mp hr]
    rfl
  · have hwidth : Record.width Binary64 ≤ longestPayload := by decide
    have hrows := converses_allGatherRecords group size tag (fun r => [x r]) fun _ _ => by
      rwa [List.length_singleton, Nat.one_mul]
    have hfold : Converses group size
        (fun _ => (return op.fold ((List.range size).map fun r => [x r]).flatten :
          Attempt Binary64).outcome)
        (fun _ => .ok (reduced size op x)) := by
      rw [reduced_of_ne_one hsize, ← List.flatMap_def, ← List.map_eq_flatMap]
      exact Converses.finish group size _
    refine (Converses.bind_ok (f := fun _ rows => return op.fold rows.flatten) hrows hfold).of_eq
      fun r _ => ?_
    rw [reduceAll]
    exact congrArg Attempt.outcome (if_neg hsize)

end Collective

end ShardedVector
