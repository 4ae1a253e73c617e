/-
# Integers and the words nearest to them

`ofInt` takes an integer to the nearest word, and `truncate?` takes a word to its integer part.
Words have 53 significant bits, and what an integer has beyond them is lost on the way.

* `Representable n`: the integer has no more than 53 significant bits.
* `Exactly x n`: the word `x` is finite, and its value is the integer.

`rounded n` is the natural number that the way there and back makes of `n`: the word nearest to `n`
has exactly that value (`exactly_ofNat`), and it is `n` itself just when `n` is representable
(`rounded_eq_self_iff`).  The same holds with signs (`exactly_ofInt`, `roundedInt_eq_self_iff`).
Whatever is the value of a word is representable (`Exactly.representable`), and of one word only
(`Exactly.unique`).
-/
import Mathlib.Algebra.Ring.Int.Defs
import Mathlib.Algebra.Group.Basic
import Mathlib.Algebra.Group.Nat.Defs
import ShardedVector.Proofs.Binary64.Extremum
import ShardedVector.Binary64.OfInt

namespace ShardedVector.Binary64

/-! ## 1. Significant bits -/

/-- An integer of 53 significant bits at most. -/
def Representable (n : Int) : Prop := ∃ (m : Int) (e : Nat), m.natAbs < 2 ^ 53 ∧ n = m * 2 ^ e

/-- Only the magnitude counts. -/
theorem representable_iff_natAbs {n : Int} :
    Representable n ↔ ∃ m e : Nat, m < 2 ^ 53 ∧ n.natAbs = m * 2 ^ e := by
  constructor
  · rintro ⟨m, e, hm, rfl⟩
    refine ⟨m.natAbs, e, hm, ?_⟩
    rw [Int.natAbs_mul, Int.natAbs_pow]
    rfl
  · rintro ⟨m, e, hm, hn⟩
    rcases Int.natAbs_eq n with h | h
    · refine ⟨m, e, by simpa using hm, ?_⟩
      rw [h, hn]
      push_cast
      rfl
    · refine ⟨-m, e, by simpa using hm, ?_⟩
      rw [h, hn]
      push_cast
      exact (neg_mul _ _).symm

/-! ## 2. Rounding -/

theorem roundShift_eq (n shift : Nat) :
    roundShift n shift = n / 2 ^ shift ∨ roundShift n shift = n / 2 ^ shift + 1 := by
  simp only [roundShift, Nat.pow_eq]
  split
  · exact .inr rfl
  · exact .inl rfl

theorem roundShift_of_dvd {n shift : Nat} (h : 2 ^ shift ∣ n) :
    roundShift n shift = n / 2 ^ shift := by
  have hpos : 0 < 2 ^ shift := Nat.two_pow_pos shift
  have hrest : n % 2 ^ shift = 0 := Nat.mod_eq_zero_of_dvd h
  simp only [roundShift, Nat.pow_eq, hrest]
  rw [if_neg]
  omega

/-- The natural number nearest to `n` among those of 53 significant bits. -/
def rounded (n : Nat) : Nat :=
  if n.log2 ≤ 52 then n else roundShift n (n.log2 - 52) * 2 ^ (n.log2 - 52)

/-- **A number is kept exactly when it has no more than 53 significant bits.** -/
theorem rounded_eq_self_iff {n : Nat} : rounded n = n ↔ Representable n := by
  rw [representable_iff_natAbs, Int.natAbs_natCast, rounded]
  by_cases hzero : n = 0
  · subst hzero
    simp only [Nat.log2_zero, Nat.zero_le, if_true, true_iff]
    exact ⟨0, 0, by decide, rfl⟩
  have hlow : 2 ^ n.log2 ≤ n := Nat.log2_self_le hzero
  have hhigh : n < 2 ^ (n.log2 + 1) := Nat.lt_log2_self
  by_cases hsmall : n.log2 ≤ 52
  · rw [if_pos hsmall]
    have hlt : n < 2 ^ 53 :=
      Nat.lt_of_lt_of_le hhigh (Nat.pow_le_pow_right (by decide) (by omega))
    simp only [true_iff]
    exact ⟨n, 0, hlt, by rw [Nat.pow_zero, Nat.mul_one]⟩
  · rw [if_neg hsmall]
    constructor
    · intro hround
      refine ⟨n / 2 ^ (n.log2 - 52), n.log2 - 52, ?_, ?_⟩
      · rw [Nat.div_lt_iff_lt_mul (Nat.two_pow_pos _), ← Nat.pow_add]
        have hexp : 53 + (n.log2 - 52) = n.log2 + 1 := by omega
        rwa [hexp]
      · exact (Nat.div_mul_cancel ⟨_, (Nat.mul_comm _ _).trans hround |>.symm⟩).symm
    · rintro ⟨m, e, hm, hn⟩
      -- the last significant bit of `m * 2 ^ e` stands no lower than at `e`
      have hle : n.log2 - 52 ≤ e := by
        have hlt : 2 ^ n.log2 < 2 ^ (53 + e) := by
          rw [Nat.pow_add]
          have hpos : 0 < 2 ^ e := Nat.two_pow_pos e
          calc 2 ^ n.log2 ≤ m * 2 ^ e := hn ▸ hlow
            _ < 2 ^ 53 * 2 ^ e := Nat.mul_lt_mul_of_pos_right hm hpos
        have := (Nat.pow_lt_pow_iff_right (by decide)).mp hlt
        omega
      have hdvd : 2 ^ (n.log2 - 52) ∣ n := by
        rw [hn]
        exact Nat.dvd_mul_left_of_dvd (Nat.pow_dvd_pow 2 (hn ▸ hle)) m
      rw [roundShift_of_dvd hdvd, Nat.div_mul_cancel hdvd]

/-! ## 3. The word nearest to a number -/

/-- A word is finite and stands for an integer, with its sign. -/
structure Exactly (x : Binary64) (n : Int) : Prop where
  finite : x.isFinite = true
  value : x.scaled = n * unitsPerOne
  sign : x.isNegative = decide (n < 0)

/-- The significand at the place of a leading bit, as `nearestMagnitude` rounds it. -/
def leading (n : Nat) : Nat :=
  if n.log2 ≤ 52 then n * 2 ^ (52 - n.log2) else roundShift n (n.log2 - 52)

theorem leading_bounds {n : Nat} (hn : n ≠ 0) : 2 ^ 52 ≤ leading n ∧ leading n ≤ 2 ^ 53 := by
  have hlow : 2 ^ n.log2 ≤ n := Nat.log2_self_le hn
  have hhigh : n < 2 ^ (n.log2 + 1) := Nat.lt_log2_self
  rw [leading]
  split
  · next hsmall =>
    have hpos : 0 < 2 ^ (52 - n.log2) := Nat.two_pow_pos _
    have hexp : n.log2 + (52 - n.log2) = 52 := by omega
    constructor
    · calc 2 ^ 52 = 2 ^ n.log2 * 2 ^ (52 - n.log2) := by rw [← Nat.pow_add, hexp]
        _ ≤ n * 2 ^ (52 - n.log2) := Nat.mul_le_mul_right _ hlow
    · calc n * 2 ^ (52 - n.log2) ≤ 2 ^ (n.log2 + 1) * 2 ^ (52 - n.log2) :=
          Nat.mul_le_mul_right _ (Nat.le_of_lt hhigh)
        _ = 2 ^ 53 := by rw [← Nat.pow_add]; congr 1; omega
  · next hlarge =>
    have hpos : 0 < 2 ^ (n.log2 - 52) := Nat.two_pow_pos _
    have hquotient : 2 ^ 52 ≤ n / 2 ^ (n.log2 - 52) ∧ n / 2 ^ (n.log2 - 52) < 2 ^ 53 := by
      rw [Nat.le_div_iff_mul_le hpos, Nat.div_lt_iff_lt_mul hpos, ← Nat.pow_add, ← Nat.pow_add]
      have hexp : 52 + (n.log2 - 52) = n.log2 := by omega
      have hexp' : 53 + (n.log2 - 52) = n.log2 + 1 := by omega
      rw [hexp, hexp']
      exact ⟨hlow, hhigh⟩
    rcases roundShift_eq n (n.log2 - 52) with h | h <;> omega

/-- The significand, at its place, is the rounded number. -/
theorem leading_mul_pow (n : Nat) {d k : Nat} (hk : k = 52 + d) :
    leading n * 2 ^ (n.log2 + d) = rounded n * 2 ^ k := by
  subst hk
  rw [leading, rounded]
  split
  · next hsmall =>
    have hexp : 52 - n.log2 + (n.log2 + d) = 52 + d := by omega
    rw [Nat.mul_assoc, ← Nat.pow_add, hexp]
  · next hlarge =>
    have hexp : n.log2 - 52 + (52 + d) = n.log2 + d := by omega
    rw [Nat.mul_assoc, ← Nat.pow_add, hexp]

theorem exists_unitsPerOne_eq : ∃ k, k = 52 + 1022 ∧ unitsPerOne = 2 ^ k :=
  ⟨52 + 1022, rfl, by decide +kernel⟩

/-- A word made of an exponent and of a significand with a leading one, which may have been rounded
up to the next power of two, has the value that they say. -/
theorem scaledMagnitude_of_magnitude {x : Binary64} {f s : Nat} (hlow : 2 ^ 52 ≤ s)
    (hhigh : s ≤ 2 ^ 53) (h : x.magnitude = f * 2 ^ 52 + s) : x.scaledMagnitude = s * 2 ^ f := by
  rcases Nat.lt_or_eq_of_le hhigh with hlt | rfl
  · have hfield : x.exponentField = f + 1 := by
      rw [exponentField, h]
      omega
    have hrest : x.magnitude % 0x10000000000000 = s - 2 ^ 52 := by
      rw [h]
      omega
    rw [scaledMagnitude, significand, hfield, hrest, if_neg (by omega), Nat.pow_eq]
    congr 1
    omega
  · have hfield : x.exponentField = f + 2 := by
      rw [exponentField, h]
      omega
    have hrest : x.magnitude % 0x10000000000000 = 0 := by
      rw [h]
      omega
    rw [scaledMagnitude, significand, hfield, hrest, if_neg (by omega), Nat.pow_eq]
    have hexp : f + 2 - 1 = f + 1 := rfl
    rw [hexp, Nat.pow_succ]
    omega

theorem nearestMagnitude_eq {n : Nat} (hn : n ≠ 0) (hsize : n.log2 ≤ 1022) :
    nearestMagnitude n = (n.log2 + 1022) * 2 ^ 52 + leading n ∧
      nearestMagnitude n < infiniteMagnitude := by
  obtain ⟨-, hhigh⟩ := leading_bounds hn
  have hleading : (if n.log2 ≤ 52 then n * Nat.pow 2 (52 - n.log2)
      else roundShift n (n.log2 - 52)) = leading n := rfl
  have hlt : (n.log2 + 1022) * 0x10000000000000 + leading n < infiniteMagnitude := by
    have hinfinite : infiniteMagnitude = 0x7ff0000000000000 := rfl
    omega
  have heq : nearestMagnitude n = (n.log2 + 1022) * 0x10000000000000 + leading n := by
    simp only [nearestMagnitude, if_neg hn, hleading]
    exact Nat.min_eq_left (Nat.le_of_lt hlt)
  exact ⟨heq, heq ▸ hlt⟩

theorem magnitude_ofNat {n : Nat} (h : nearestMagnitude n < infiniteMagnitude) :
    (ofNat n).magnitude = nearestMagnitude n ∧ (ofNat n).isNegative = false := by
  have hinfinite : infiniteMagnitude = 0x7ff0000000000000 := rfl
  have hsize : UInt64.size = 2 ^ 64 := rfl
  have hword : (ofNat n).bits.toNat = nearestMagnitude n :=
    UInt64.toNat_ofNat_of_lt' (by omega)
  constructor
  · rw [magnitude, hword]
    omega
  · rw [isNegative, hword, decide_eq_false_iff_not]
    omega

/-- **The word nearest to a natural number has the value of its rounding.** -/
theorem exactly_ofNat {n : Nat} (hsize : n.log2 ≤ 1022) : (ofNat n).Exactly (rounded n) := by
  by_cases hn : n = 0
  · subst hn
    have hvalue : ((rounded 0 : Nat) : Int) * unitsPerOne = 0 := Int.zero_mul _
    exact ⟨by decide, Eq.trans (by decide) hvalue.symm, by decide⟩
  · obtain ⟨hmagnitude, hlt⟩ := nearestMagnitude_eq hn hsize
    obtain ⟨hword, hsign⟩ := magnitude_ofNat hlt
    obtain ⟨hlow, hhigh⟩ := leading_bounds hn
    have hscaled : (ofNat n).scaledMagnitude = rounded n * unitsPerOne := by
      obtain ⟨k, hk, hunits⟩ := exists_unitsPerOne_eq
      rw [scaledMagnitude_of_magnitude hlow hhigh (hword.trans hmagnitude), leading_mul_pow n hk,
        hunits]
    have hpositive : decide ((rounded n : Int) < 0) = false :=
      decide_eq_false (Int.not_lt.mpr (Int.natCast_nonneg _))
    refine ⟨decide_eq_true (hword ▸ hlt), ?_, hsign.trans hpositive.symm⟩
    simp only [scaled, hsign, hscaled, Bool.false_eq_true, if_false, Int.natCast_mul]

theorem isNegative_neg (x : Binary64) : x.neg.isNegative = !x.isNegative := by
  have hword := x.bits.toNat_lt
  simp only [isNegative, neg, UInt64.toNat_add, UInt64.reduceToNat]
  by_cases hx : 0x8000000000000000 ≤ x.bits.toNat
  · simp only [hx, decide_true, Bool.not_true, decide_eq_false_iff_not]
    omega
  · simp only [hx, decide_false, Bool.not_false, decide_eq_true_eq]
    omega

/-- The word with its sign turned stands for the opposite number. -/
theorem Exactly.neg {x : Binary64} {n : Int} (h : x.Exactly n) (hn : 0 < n) :
    x.neg.Exactly (-n) := by
  have hmagnitude := magnitude_neg x
  have hsign : x.isNegative = false := h.sign.trans (decide_eq_false (by omega))
  have hvalue := h.value
  have hscaled : x.neg.scaledMagnitude = x.scaledMagnitude := by
    rw [scaledMagnitude, scaledMagnitude, significand, significand, exponentField, exponentField,
      hmagnitude]
  simp only [scaled, hsign, Bool.false_eq_true, if_false] at hvalue
  refine ⟨?_, ?_, ?_⟩
  · have hfinite := h.finite
    rwa [isFinite, ← hmagnitude] at hfinite
  · simp only [scaled, isNegative_neg, hsign, Bool.not_false, if_true, hscaled, hvalue]
    exact (Int.neg_mul _ _).symm
  · rw [isNegative_neg, hsign]
    exact (decide_eq_true (by omega)).symm

theorem rounded_pos {n : Nat} (hn : n ≠ 0) : 0 < rounded n := by
  obtain ⟨hlow, -⟩ := leading_bounds hn
  rw [leading] at hlow
  rw [rounded]
  split
  · omega
  · next hlarge =>
    rw [if_neg hlarge] at hlow
    exact Nat.mul_pos (by omega) (Nat.two_pow_pos _)

/-- What the way to the nearest word makes of an integer. -/
def roundedInt (n : Int) : Int := if n < 0 then -(rounded n.natAbs : Int) else rounded n.natAbs

theorem exactly_ofInt {n : Int} (hsize : n.natAbs.log2 ≤ 1022) :
    (ofInt n).Exactly (roundedInt n) := by
  have hexact := exactly_ofNat hsize
  rw [ofInt, roundedInt]
  split
  · have hpos := rounded_pos (n := n.natAbs) (by omega)
    exact hexact.neg (by omega)
  · exact hexact

/-- The integer part of an integer is the integer. -/
theorem Exactly.truncate? {x : Binary64} {n : Int} (h : x.Exactly n) : x.truncate? = some n := by
  have hunits : (unitsPerOne : Int) ≠ 0 := by
    obtain ⟨k, -, hunits⟩ := exists_unitsPerOne_eq
    rw [hunits]
    exact Int.natCast_ne_zero.mpr (Nat.ne_of_gt (Nat.two_pow_pos k))
  rw [Binary64.truncate?, if_pos h.finite, h.value, Int.mul_tdiv_cancel n hunits]

/-- A significand below the leading one stands at the least exponent. -/
theorem significand_bounds (x : Binary64) :
    x.significand < 2 ^ 53 ∧ (2 ≤ x.exponentField → 2 ^ 52 ≤ x.significand) := by
  simp only [significand]
  split <;> omega

/-- **The value of a word, if it is an integer, has no more than 53 significant bits.** -/
theorem Exactly.representable {x : Binary64} {n : Int} (h : x.Exactly n) : Representable n := by
  rw [representable_iff_natAbs]
  obtain ⟨hsignificand, -⟩ := significand_bounds x
  have hvalue : n.natAbs * unitsPerOne = x.significand * 2 ^ (x.exponentField - 1) := by
    have habs : x.scaled.natAbs = x.scaledMagnitude := by
      rw [scaled]
      split
      · rw [Int.natAbs_neg, Int.natAbs_natCast]
      · rw [Int.natAbs_natCast]
    rw [h.value, Int.natAbs_mul, Int.natAbs_natCast] at habs
    rw [habs, scaledMagnitude, Nat.pow_eq]
  obtain ⟨units, -, hunits⟩ := exists_unitsPerOne_eq
  rw [hunits] at hvalue
  rcases Nat.le_total units (x.exponentField - 1) with hle | hle
  · refine ⟨x.significand, x.exponentField - 1 - units, hsignificand, ?_⟩
    have hsplit : 2 ^ (x.exponentField - 1) = 2 ^ (x.exponentField - 1 - units) * 2 ^ units := by
      rw [← Nat.pow_add, Nat.sub_add_cancel hle]
    rw [hsplit, ← Nat.mul_assoc] at hvalue
    exact Nat.eq_of_mul_eq_mul_right (Nat.two_pow_pos units) hvalue
  · have hsplit : 2 ^ units = 2 ^ (units - (x.exponentField - 1)) * 2 ^ (x.exponentField - 1) := by
      rw [← Nat.pow_add, Nat.sub_add_cancel hle]
    rw [hsplit, ← Nat.mul_assoc] at hvalue
    have hshift := Nat.eq_of_mul_eq_mul_right (Nat.two_pow_pos _) hvalue
    refine ⟨n.natAbs, 0, ?_, by rw [Nat.pow_zero, Nat.mul_one]⟩
    have hpos : 0 < 2 ^ (units - (x.exponentField - 1)) := Nat.two_pow_pos _
    calc n.natAbs ≤ n.natAbs * 2 ^ (units - (x.exponentField - 1)) :=
          Nat.le_mul_of_pos_right _ hpos
      _ < 2 ^ 53 := hshift ▸ hsignificand

/-- Words of the same absolute value have the same magnitude.  By the exponents: a significand at a
higher place has its leading one, so it is worth more than any one below. -/
theorem magnitude_eq_of_scaledMagnitude {x y : Binary64}
    (h : x.scaledMagnitude = y.scaledMagnitude) : x.magnitude = y.magnitude := by
  have apart : ∀ {x y : Binary64}, x.scaledMagnitude = y.scaledMagnitude →
      ¬x.exponentField - 1 < y.exponentField - 1 := by
    intro x y h hlt
    obtain ⟨hx, -⟩ := significand_bounds x
    obtain ⟨-, hy⟩ := significand_bounds y
    have hy := hy (by omega)
    rw [scaledMagnitude, scaledMagnitude, Nat.pow_eq, Nat.pow_eq] at h
    have hsplit : 2 ^ (y.exponentField - 1) =
        2 ^ (y.exponentField - 1 - (x.exponentField - 1)) * 2 ^ (x.exponentField - 1) := by
      rw [← Nat.pow_add, Nat.sub_add_cancel (Nat.le_of_lt hlt)]
    rw [hsplit, ← Nat.mul_assoc] at h
    have hcancel := Nat.eq_of_mul_eq_mul_right (Nat.two_pow_pos _) h
    have hstep : 1 ≤ y.exponentField - 1 - (x.exponentField - 1) := by omega
    have htwo : 2 ^ 1 ≤ 2 ^ (y.exponentField - 1 - (x.exponentField - 1)) :=
      Nat.pow_le_pow_right (by decide) hstep
    have hdouble := Nat.mul_le_mul hy htwo
    omega
  have hplace : x.exponentField - 1 = y.exponentField - 1 := by
    have h₁ := apart h
    have h₂ := apart h.symm
    omega
  rw [scaledMagnitude, scaledMagnitude, hplace] at h
  have hsignificand := Nat.eq_of_mul_eq_mul_right (Nat.two_pow_pos _) h
  simp only [significand, exponentField] at hsignificand hplace
  by_cases hx : x.magnitude / 0x10000000000000 = 0 <;>
    by_cases hy : y.magnitude / 0x10000000000000 = 0 <;>
    simp only [hx, hy, if_true, if_false] at hsignificand <;> omega

/-- **No other word stands for the integer.** -/
theorem Exactly.unique {x y : Binary64} {n : Int} (hx : x.Exactly n) (hy : y.Exactly n) :
    x = y := by
  have hsign : x.isNegative = y.isNegative := hx.sign.trans hy.sign.symm
  have hvalue : x.scaled = y.scaled := hx.value.trans hy.value.symm
  refine eq_of_magnitude (magnitude_eq_of_scaledMagnitude ?_) hsign
  rw [scaled, scaled, hsign] at hvalue
  split at hvalue <;> omega

/-- An integer is kept exactly when it has no more than 53 significant bits. -/
theorem roundedInt_eq_self_iff {n : Int} : roundedInt n = n ↔ Representable n := by
  have habs : Representable n ↔ Representable n.natAbs := by
    rw [representable_iff_natAbs, representable_iff_natAbs, Int.natAbs_natCast]
  rw [habs, ← rounded_eq_self_iff, roundedInt]
  split <;> omega

end ShardedVector.Binary64
