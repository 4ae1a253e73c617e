/-
# The even cut

An even cut is computed with words.  `balancedRangeWithin` forms the same products and sums in the
same order, but has no value when one of them exceeds a bound; with the number of indices as the
bound it always has one (`balancedRange_within`), so none of them leaves the 64 bits, and the words
stand for what they would be as natural numbers.

A partition keeps the starts of the ranges and at the end the number of indices.  Every range ends
where the next one starts (`getD_offsets_balanced_succ`), so the table tiles the indices
(`tiles_balanced`) and its ranges are those of the cut (`balancedRange_tiles`).

The number of ranks is itself a 64-bit number.
-/
import Mathlib.Tactic.Ring
import ShardedVector.Proofs.Partition.Table

namespace ShardedVector.Partition

/-! ## 1. Starts as natural numbers -/

/-- The start of rank `r` lies within the indices. -/
theorem evenStart_le {r size n : Nat} (hr : r ≤ size) :
    r * (n / size) + min r (n % size) ≤ n := by
  have h₁ : r * (n / size) ≤ size * (n / size) := Nat.mul_le_mul_right _ hr
  have h₂ := Nat.div_add_mod n size
  have h₃ := Nat.min_le_right r (n % size)
  omega

/-- The next start is a block further on, and one index more while the rest lasts. -/
theorem evenStart_succ (r size n : Nat) :
    (r + 1) * (n / size) + min (r + 1) (n % size) =
      r * (n / size) + min r (n % size) + n / size + (if r < n % size then 1 else 0) := by
  have hmul : (r + 1) * (n / size) = r * (n / size) + n / size := by ring
  rw [hmul]
  generalize r * (n / size) = start
  split <;> omega

/-- Past the last rank nothing is left. -/
theorem evenStart_last {size : Nat} (hpos : 0 < size) (n : Nat) :
    size * (n / size) + min size (n % size) = n := by
  have hmod := Nat.mod_lt n hpos
  rw [Nat.min_eq_right (Nat.le_of_lt hmod), Nat.div_add_mod]

/-! ## 2. The words of a cut -/

section Words

variable {r size : Nat} (hr : r < size) (hsize : size < 2 ^ 64) (n : UInt64)

include hr hsize

theorem toNat_rank : (UInt64.ofNat r).toNat = r :=
  UInt64.toNat_ofNat_of_lt' (Nat.lt_trans hr hsize)

theorem toNat_parts : (UInt64.ofNat (Nat.max size 1)).toNat = size := by
  have hmax : Nat.max size 1 = size := Nat.max_eq_left (Nat.zero_lt_of_lt hr)
  rw [hmax, UInt64.toNat_ofNat_of_lt' hsize]

theorem toNat_block : (n / UInt64.ofNat (Nat.max size 1)).toNat = n.toNat / size := by
  rw [UInt64.toNat_div, toNat_parts hr hsize]

theorem toNat_rest : (n % UInt64.ofNat (Nat.max size 1)).toNat = n.toNat % size := by
  rw [UInt64.toNat_mod, toNat_parts hr hsize]

/-- How many of the ranks below have a longer range. -/
theorem toNat_longerBelow :
    (if UInt64.ofNat r ≤ n % UInt64.ofNat (Nat.max size 1) then UInt64.ofNat r
      else n % UInt64.ofNat (Nat.max size 1)).toNat = min r (n.toNat % size) := by
  simp only [UInt64.le_iff_toNat_le, apply_ite UInt64.toNat, toNat_rank hr hsize,
    toNat_rest hr hsize]
  split <;> omega

/-- Whether the rank itself has a longer range. -/
theorem toNat_longer :
    (if UInt64.ofNat r < n % UInt64.ofNat (Nat.max size 1) then (1 : UInt64) else 0).toNat =
      if r < n.toNat % size then 1 else 0 := by
  simp only [UInt64.lt_iff_toNat_lt, apply_ite UInt64.toNat, toNat_rank hr hsize,
    toNat_rest hr hsize, UInt64.toNat_one, UInt64.toNat_zero]

end Words

/-! ## 3. Products and sums within a bound -/

/-- A product of words, unless it exceeds a bound. -/
def productWithin (bound : Nat) (a b : UInt64) : Option UInt64 :=
  if a.toNat * b.toNat ≤ bound then some (a * b) else none

/-- A sum of words, unless it exceeds a bound. -/
def sumWithin (bound : Nat) (a b : UInt64) : Option UInt64 :=
  if a.toNat + b.toNat ≤ bound then some (a + b) else none

section Within

variable {bound : Nat} (hbound : bound < 2 ^ 64) {a b : UInt64}

include hbound

theorem productWithin_eq_some (h : a.toNat * b.toNat ≤ bound) :
    productWithin bound a b = some (a * b) ∧ (a * b).toNat = a.toNat * b.toNat := by
  rw [productWithin, if_pos h, UInt64.toNat_mul, Nat.mod_eq_of_lt (Nat.lt_of_le_of_lt h hbound)]
  exact ⟨rfl, rfl⟩

theorem sumWithin_eq_some (h : a.toNat + b.toNat ≤ bound) :
    sumWithin bound a b = some (a + b) ∧ (a + b).toNat = a.toNat + b.toNat := by
  rw [sumWithin, if_pos h, UInt64.toNat_add, Nat.mod_eq_of_lt (Nat.lt_of_le_of_lt h hbound)]
  exact ⟨rfl, rfl⟩

end Within

/-- The range of `rank` in an even cut, by the products and sums of `balancedRange` in the order in
which it forms them, unless one of them exceeds a bound. -/
def balancedRangeWithin (bound rank size : Nat) (n : UInt64) : Option Span := do
  let parts := UInt64.ofNat (Nat.max size 1)
  let r := UInt64.ofNat rank
  let block := n / parts
  let rest := n % parts
  let blocks ← productWithin bound r block
  let start ← sumWithin bound blocks (if r ≤ rest then r else rest)
  let next ← sumWithin bound start block
  let stop ← sumWithin bound next (if r < rest then 1 else 0)
  return ⟨start, stop⟩

section Cut

variable {r size : Nat} (hsize : size < 2 ^ 64) (n : UInt64)

include hsize

/-- **No product and no sum of a cut exceeds the number of indices**, so both ends of the range are
what they are among the natural numbers. -/
theorem balancedRange_within (hr : r < size) :
    balancedRangeWithin n.toNat r size n = some (balancedRange r size n) ∧
      (balancedRange r size n).start.toNat = r * (n.toNat / size) + min r (n.toNat % size) ∧
      (balancedRange r size n).stop.toNat =
        (r + 1) * (n.toNat / size) + min (r + 1) (n.toNat % size) := by
  have hword := n.toNat_lt
  have hfits := evenStart_le (n := n.toNat) (Nat.succ_le_of_lt hr)
  have hrank := toNat_rank hr hsize
  have hblock := toNat_block hr hsize n
  have hbelow := toNat_longerBelow hr hsize n
  have hlonger := toNat_longer hr hsize n
  rw [evenStart_succ] at hfits ⊢
  -- from here on it does not matter how these words were computed
  simp only [balancedRange, balancedRangeWithin]
  generalize UInt64.ofNat r = rank at *
  generalize n / UInt64.ofNat (Nat.max size 1) = block at *
  generalize n % UInt64.ofNat (Nat.max size 1) = rest at *
  generalize (if rank ≤ rest then rank else rest) = below at *
  generalize (if rank < rest then (1 : UInt64) else 0) = longer at *
  obtain ⟨hproduct, hblocks⟩ := productWithin_eq_some hword
    (show rank.toNat * block.toNat ≤ n.toNat by rw [hrank, hblock]; omega)
  rw [hrank, hblock] at hblocks
  obtain ⟨hfirst, hstart⟩ := sumWithin_eq_some hword
    (show (rank * block).toNat + below.toNat ≤ n.toNat by rw [hblocks, hbelow]; omega)
  rw [hblocks, hbelow] at hstart
  obtain ⟨hsecond, hnext⟩ := sumWithin_eq_some hword
    (show (rank * block + below).toNat + block.toNat ≤ n.toNat by rw [hstart, hblock]; omega)
  rw [hstart, hblock] at hnext
  obtain ⟨hthird, hstop⟩ := sumWithin_eq_some hword
    (show (rank * block + below + block).toNat + longer.toNat ≤ n.toNat by
      rw [hnext, hlonger]; omega)
  rw [hnext, hlonger] at hstop
  refine ⟨?_, hstart, hstop⟩
  rw [hproduct, Option.bind_eq_bind, Option.bind_some, hfirst, Option.bind_some, hsecond,
    Option.bind_some, hthird]
  rfl

theorem toNat_start_balancedRange (hr : r < size) :
    (balancedRange r size n).start.toNat = r * (n.toNat / size) + min r (n.toNat % size) :=
  (balancedRange_within hsize n hr).2.1

theorem toNat_stop_balancedRange (hr : r < size) :
    (balancedRange r size n).stop.toNat =
      (r + 1) * (n.toNat / size) + min (r + 1) (n.toNat % size) :=
  (balancedRange_within hsize n hr).2.2

theorem toNat_stop_eq_start_add (hr : r < size) :
    (balancedRange r size n).stop.toNat = (balancedRange r size n).start.toNat +
      n.toNat / size + (if r < n.toNat % size then 1 else 0) := by
  rw [toNat_stop_balancedRange hsize n hr, toNat_start_balancedRange hsize n hr, evenStart_succ]

theorem start_balancedRange_zero (hpos : 0 < size) : (balancedRange 0 size n).start = 0 := by
  refine UInt64.toNat.inj ?_
  rw [toNat_start_balancedRange hsize n hpos, Nat.zero_mul, Nat.zero_min]
  rfl

/-- A range starts where the one before it stops. -/
theorem start_balancedRange_succ (hr : r + 1 < size) :
    (balancedRange (r + 1) size n).start = (balancedRange r size n).stop := by
  refine UInt64.toNat.inj ?_
  rw [toNat_start_balancedRange hsize n hr,
    toNat_stop_balancedRange hsize n (Nat.lt_of_succ_lt hr)]

/-- The last range stops at the number of indices. -/
theorem stop_balancedRange_last (hr : r + 1 = size) : (balancedRange r size n).stop = n := by
  subst hr
  refine UInt64.toNat.inj ?_
  rw [toNat_stop_balancedRange hsize n (Nat.lt_succ_self r), evenStart_last (Nat.succ_pos r)]

end Cut

/-! ## 4. The table of a cut -/

section Table

variable (me : Seat) (n : UInt64) {r : Nat}

theorem length_offsets_balanced : (balanced me n).offsets.length = me.size + 1 := by
  simp [balanced, Seat.ranks]

/-- The table keeps the starts. -/
theorem getD_offsets_balanced (hr : r < me.size) :
    (balanced me n).offsets.getD r 0 = (balancedRange r me.size n).start := by
  rw [balanced, List.getD_eq_getElem?_getD, List.getElem?_append_left (by simpa [Seat.ranks])]
  simp [Seat.ranks, hr]

/-- After a start comes the stop of its range, also after the last one. -/
theorem getD_offsets_balanced_succ (hsize : me.size < 2 ^ 64) (hr : r < me.size) :
    (balanced me n).offsets.getD (r + 1) 0 = (balancedRange r me.size n).stop := by
  rcases Nat.lt_or_eq_of_le (Nat.succ_le_of_lt hr) with hlt | hlast
  · rw [getD_offsets_balanced me n hlt]
    exact start_balancedRange_succ hsize n hlt
  · have hend : (balanced me n).offsets.getD me.size 0 = n := by
      rw [balanced, List.getD_eq_getElem?_getD, List.getElem?_append_right (by simp [Seat.ranks])]
      simp [Seat.ranks]
    have hlast : r + 1 = me.size := hlast
    rw [hlast, hend, stop_balancedRange_last hsize n hlast]

end Table

/-- **The even cut tiles the indices.** -/
theorem tiles_balanced {size : Nat} (me : Nat) (h₁ : 0 < size) (h₂ : size < 2 ^ 64)
    (n : UInt64) : Tiles size (balanced (.ofRank me size) n).offsets where
  length := length_offsets_balanced (.ofRank me size) n
  first := by
    rw [getD_offsets_balanced (.ofRank me size) n h₁]
    exact start_balancedRange_zero h₂ n h₁
  step := by
    intro r hr
    rw [getD_offsets_balanced (.ofRank me size) n hr,
      getD_offsets_balanced_succ (.ofRank me size) n h₂ hr]
    refine UInt64.le_iff_toNat_le.mpr ?_
    calc (balancedRange r size n).start.toNat
      _ ≤ (balancedRange r size n).start.toNat + n.toNat / size +
          (if r < n.toNat % size then 1 else 0) :=
        Nat.le_trans (Nat.le_add_right _ _) (Nat.le_add_right _ _)
      _ = (balancedRange r size n).stop.toNat := (toNat_stop_eq_start_add h₂ n hr).symm

/-- A process without a group has all indices. -/
theorem balanced_alone (n : UInt64) : balanced .alone n = ⟨0, [0, n]⟩ := by
  have hstart : (balancedRange 0 1 n).start = 0 := by simp [balancedRange]
  exact congrArg (fun start => (⟨0, [start, n]⟩ : Partition)) hstart

/-- **The ranges of an even cut follow each other from zero to the number of indices.**  Each is as
long as the quotient, and those of the lowest ranks, as many as the remainder counts, are longer by
one.  No product and no sum on the way exceeds the number of indices.  A partition that keeps only
the starts and that number has the same ranges, on whichever rank. -/
theorem balancedRange_tiles {size : Nat} (hpos : 0 < size) (hword : size < 2 ^ 64) (n : UInt64) :
    (balancedRange 0 size n).start = 0 ∧
    (∀ r, r + 1 < size → (balancedRange (r + 1) size n).start = (balancedRange r size n).stop) ∧
    (balancedRange (size - 1) size n).stop = n ∧
    (∀ r < size, (balancedRange r size n).stop.toNat = (balancedRange r size n).start.toNat +
      n.toNat / size + (if r < n.toNat % size then 1 else 0)) ∧
    (∀ r < size, balancedRangeWithin n.toNat r size n = some (balancedRange r size n)) ∧
    (∀ me : Seat, me.size = size → ∀ r < size,
      (balanced me n).rangeOf r = balancedRange r size n) := by
  refine ⟨start_balancedRange_zero hword n hpos,
    fun r hr => start_balancedRange_succ hword n hr,
    stop_balancedRange_last hword n (Nat.sub_add_cancel hpos),
    fun r hr => toNat_stop_eq_start_add hword n hr,
    fun r hr => (balancedRange_within hword n hr).1, ?_⟩
  rintro me rfl r hr
  exact (rangeOf_eq (length_offsets_balanced me n) hr).trans (congrArg₂ Span.mk
    (getD_offsets_balanced me n hr) (getD_offsets_balanced_succ me n hword hr))

/-- As many ranks as a word can count, and one index less than there are ranks: the last rank is the
only one that has none. -/
theorem balancedRange_tiles_largest :
    let size := 2 ^ 64 - 1
    let n : UInt64 := 0xfffffffffffffffe
    (0 < size ∧ size < 2 ^ 64) ∧
    (balancedRange 0 size n = ⟨0, 1⟩ ∧ balancedRange (size - 1) size n = ⟨n, n⟩) ∧
    (balancedRange (size - 1) size n).stop = n ∧
    balancedRangeWithin n.toNat (size - 1) size n = some ⟨n, n⟩ ∧
    (balancedRange 1 size n).start = (balancedRange 0 size n).stop := by
  intro size n
  have hpos : 0 < size := by decide
  have hword : size < 2 ^ 64 := by decide
  have hlast : balancedRange (size - 1) size n = ⟨n, n⟩ := by decide +kernel
  obtain ⟨-, hnext, hend, -, hwithin, -⟩ := balancedRange_tiles hpos hword n
  exact ⟨⟨hpos, hword⟩, ⟨by decide +kernel, hlast⟩, hend,
    (hwithin (size - 1) (by decide)).trans (congrArg some hlast), hnext 0 (by decide)⟩

/-- Ten indices on four ranks. -/
example : (List.range 4).map (fun r => balancedRange r 4 10) =
    [⟨0, 3⟩, ⟨3, 6⟩, ⟨6, 8⟩, ⟨8, 10⟩] := by decide +kernel

end ShardedVector.Partition
