/-
# The number that comes first in a list

The smaller and the larger of two numbers are the one that comes first, in ascending order and in
descending order, and a NaN gives way.  So both are one function, and what it makes of a list is
one fact.

* `First o xs x`: in the order `o` no number of the list comes before `x`, which is one of them.  It
  may stand at several places with zeros of both signs, but for that it is the only one
  (`First.sameNumber`).
* `first_foldl`: a left fold from a number comes to the first of that number and of the list, and
  `First.flatMap`: the first of the firsts of parts is the first of all.

The seed of a fold is there whether it is first or not.  When it comes after everything that may be
in the list, the result is `Extreme`: it is the first number of the list if there is one, and
otherwise the seed.
-/
import Mathlib.Data.List.Basic
import ShardedVector.Binary64.Basic

namespace ShardedVector.Binary64

variable {x y : Binary64}

/-! ## 1. Ranks -/

/-- The same number: the same word, but for the sign of a zero. -/
def SameNumber (x y : Binary64) : Prop := x = y ∨ x.isZero = true ∧ y.isZero = true

theorem toNat_bits (x : Binary64) :
    x.bits.toNat = x.magnitude + if x.isNegative then 0x8000000000000000 else 0 := by
  have hword := x.bits.toNat_lt
  simp only [magnitude, isNegative, decide_eq_true_eq]
  split <;> omega

theorem eq_of_magnitude (h : x.magnitude = y.magnitude) (hsign : x.isNegative = y.isNegative) :
    x = y :=
  congrArg mk (UInt64.toNat_inj.mp (by rw [toNat_bits, toNat_bits, h, hsign]))

/-- Numbers at one place are the same, for only the zeros share theirs. -/
theorem sameNumber_of_key (h : x.key = y.key) : SameNumber x y := by
  by_cases hsign : x.isNegative = y.isNegative
  · refine .inl (eq_of_magnitude ?_ hsign)
    rw [key, key, hsign] at h
    split at h <;> omega
  · have hzero : x.magnitude = 0 ∧ y.magnitude = 0 := by
      simp only [key] at h
      cases hx : x.isNegative <;> cases hy : y.isNegative <;> simp [hx, hy] at h hsign <;> omega
    exact .inr ⟨decide_eq_true hzero.1, decide_eq_true hzero.2⟩

theorem key_bounds (hx : x.isNaN = false) :
    -(infiniteMagnitude : Int) ≤ x.key ∧ x.key ≤ infiniteMagnitude := by
  have hmagnitude : x.magnitude ≤ infiniteMagnitude := by simpa [isNaN] using hx
  rw [key]
  split <;> omega

/-- A way through the numbers. -/
inductive Order where
  | ascending
  | descending
deriving DecidableEq

namespace Order

/-- The place of a number on the way. -/
def rank : Order → Binary64 → Int
  | ascending, x => x.key
  | descending, x => -x.key

/-- The number that comes first of two. -/
def pick : Order → Binary64 → Binary64 → Binary64
  | ascending => Binary64.min
  | descending => Binary64.max

/-- The number that comes last of all. -/
def last : Order → Binary64
  | ascending => infinity
  | descending => negativeInfinity

variable {o : Order}

theorem rank_inj : o.rank x = o.rank y ↔ x.key = y.key := by
  cases o <;> simp only [rank, Int.neg_inj]

theorem pick_eq (hx : x.isNaN = false) :
    o.pick x y = if y.isNaN = false ∧ o.rank y < o.rank x then y else x := by
  cases o with
  | ascending =>
    simp only [pick, Binary64.min, hx, Bool.false_eq_true, if_false]
    exact if_congr (by rw [lt_iff_key, hx]; simp [rank]) rfl rfl
  | descending =>
    simp only [pick, Binary64.max, hx, Bool.false_eq_true, if_false]
    exact if_congr (by rw [lt_iff_key, hx]; simp [rank]) rfl rfl

theorem isNaN_last : o.last.isNaN = false := by cases o <;> decide

/-- Every number but the last one itself comes before it. -/
theorem eq_last (hy : y.isNaN = false) (h : o.rank o.last ≤ o.rank y) : y = o.last := by
  obtain ⟨hlower, hupper⟩ := key_bounds hy
  have hkey : y.key = o.last.key := by
    cases o with
    | ascending =>
      have hlast : infinity.key = infiniteMagnitude := by decide
      simp only [rank, last, hlast] at h ⊢
      omega
    | descending =>
      have hlast : negativeInfinity.key = -infiniteMagnitude := by decide
      simp only [rank, last, hlast] at h ⊢
      omega
  have hnonzero : o.last.isZero = false := by cases o <;> decide
  rcases sameNumber_of_key hkey with heq | ⟨-, hzero⟩
  · exact heq
  · rw [hnonzero] at hzero
    cases hzero

end Order

/-! ## 2. First numbers -/

/-- The number `x` is in the list, and no number of the list comes before it. -/
structure First (o : Order) (xs : List Binary64) (x : Binary64) : Prop where
  mem : x ∈ xs
  number : x.isNaN = false
  first : ∀ y ∈ xs, y.isNaN = false → o.rank x ≤ o.rank y

section First

variable {o : Order} {xs ys : List Binary64} {d : Binary64}

theorem First.congr (h : First o xs x) (hmem : ∀ y, y ∈ xs ↔ y ∈ ys) : First o ys x where
  mem := (hmem x).mp h.mem
  number := h.number
  first := fun y hy => h.first y ((hmem y).mpr hy)

/-- A list has one first number. -/
theorem First.sameNumber (h : First o xs x) (h' : First o xs y) : SameNumber x y :=
  sameNumber_of_key (Order.rank_inj.mp
    (Int.le_antisymm (h.first y h'.mem h'.number) (h'.first x h.mem h.number)))

theorem first_singleton (hx : x.isNaN = false) : First o [x] x where
  mem := List.mem_singleton.mpr rfl
  number := hx
  first := fun _ hy _ => Int.le_of_eq (congrArg o.rank (List.mem_singleton.mp hy).symm)

theorem first_pick (hx : x.isNaN = false) (y : Binary64) : First o [x, y] (o.pick x y) := by
  rw [Order.pick_eq hx]
  split
  case isTrue h =>
    refine ⟨by simp, h.1, fun z hz _ => ?_⟩
    rcases List.mem_pair.mp hz with rfl | rfl
    · exact Int.le_of_lt h.2
    · exact Int.le_refl _
  case isFalse h =>
    refine ⟨by simp, hx, fun z hz hnumber => ?_⟩
    rcases List.mem_pair.mp hz with rfl | rfl
    · exact Int.le_refl _
    · exact Int.not_lt.mp fun hlt => h ⟨hnumber, hlt⟩

/-- The first number of two may stand for both. -/
theorem First.of_pair (hpair : First o [x, y] d) {r : Binary64} (h : First o (d :: xs) r) :
    First o (x :: y :: xs) r := by
  refine ⟨?_, h.number, fun z hz hnumber => ?_⟩
  · rcases List.mem_cons.mp h.mem with rfl | hrest
    · exact List.mem_append_left xs hpair.mem
    · exact List.mem_append_right [x, y] hrest
  · rcases List.mem_append.mp (show z ∈ [x, y] ++ xs from hz) with hz | hz
    · exact Int.le_trans (h.first d (List.mem_cons_self ..) hpair.number)
        (hpair.first z hz hnumber)
    · exact h.first z (List.mem_cons_of_mem d hz) hnumber

/-- **A left fold comes to the first number** of its seed and of the list. -/
theorem first_foldl : ∀ (xs : List Binary64) {seed : Binary64}, seed.isNaN = false →
    First o (seed :: xs) (xs.foldl o.pick seed)
  | [], _, hseed => first_singleton hseed
  | y :: ys, _, hseed =>
    have hpick := first_pick hseed y
    hpick.of_pair (first_foldl ys hpick.number)

/-- **The first of the first numbers of parts is the first of all.** -/
theorem First.flatMap {ι : Type} {is : List ι} {part : ι → List Binary64} {firsts : ι → Binary64}
    (hpart : ∀ i ∈ is, First o (part i) (firsts i)) (h : First o (is.map firsts) x) :
    First o (is.flatMap part) x := by
  refine ⟨?_, h.number, fun y hy hnumber => ?_⟩
  · obtain ⟨i, hi, rfl⟩ := List.mem_map.mp h.mem
    exact List.mem_flatMap.mpr ⟨i, hi, (hpart i hi).mem⟩
  · obtain ⟨i, hi, hy⟩ := List.mem_flatMap.mp hy
    have hfirst := h.first (firsts i) (List.mem_map_of_mem hi) (hpart i hi).number
    exact Int.le_trans hfirst ((hpart i hi).first y hy hnumber)

/-! ## 3. Extremes -/

/-- The first number of a list, or what stands for it when the list has no number. -/
structure Extreme (o : Order) (default : Binary64) (xs : List Binary64) (x : Binary64) : Prop where
  found : (∃ y ∈ xs, y.isNaN = false) → First o xs x
  missing : (∀ y ∈ xs, y.isNaN = true) → x = default

/-- A list has one extreme. -/
theorem Extreme.sameNumber (h : Extreme o d xs x) (h' : Extreme o d xs y) : SameNumber x y := by
  by_cases hnumber : ∃ z ∈ xs, z.isNaN = false
  · exact (h.found hnumber).sameNumber (h'.found hnumber)
  · have hall : ∀ z ∈ xs, z.isNaN = true := fun z hz => by
      by_contra hz'
      exact hnumber ⟨z, hz, Bool.eq_false_iff.mpr hz'⟩
    exact .inl ((h.missing hall).trans (h'.missing hall).symm)

/-- With a number in front that comes after all others of the list. -/
theorem First.extreme (h : First o (d :: xs) x)
    (hd : ∀ y ∈ xs, y.isNaN = false → o.rank d ≤ o.rank y → y = d) : Extreme o d xs x where
  found := by
    rintro ⟨y, hy, hnumber⟩
    refine ⟨?_, h.number, fun z hz => h.first z (List.mem_cons_of_mem d hz)⟩
    rcases List.mem_cons.mp h.mem with rfl | hmem
    · obtain rfl := hd y hy hnumber (h.first y (List.mem_cons_of_mem _ hy) hnumber)
      exact hy
    · exact hmem
  missing := fun hall => by
    rcases List.mem_cons.mp h.mem with rfl | hmem
    · rfl
    · have hnan := hall x hmem
      rw [h.number] at hnan
      cases hnan

end First

end ShardedVector.Binary64
