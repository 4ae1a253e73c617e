/-
# Tables of offsets

A table of offsets is sound for a group (`Tiles`) when it has one offset for each rank and one
more at the end, starts at zero and never descends.  Then the ranges tile the indices, whatever
ranks own nothing, and the owner of an index is found where its range says
(`ownerOf?_eq_some_iff`).
-/
import Mathlib.Data.List.GetD
import ShardedVector.Partition.Basic

namespace ShardedVector.Partition

/-- A table that tiles the indices among the ranks of a group. -/
structure Tiles (size : Nat) (offsets : List UInt64) : Prop where
  length : offsets.length = size + 1
  first : offsets.getD 0 0 = 0
  step : ∀ r < size, offsets.getD r 0 ≤ offsets.getD (r + 1) 0

/-! ## 1. Ranges -/

variable {size me : Nat} {offsets : List UInt64}

theorem rangeOf_eq (h : offsets.length = size + 1) {r : Nat} (hr : r < size) :
    (⟨me, offsets⟩ : Partition).rangeOf r = ⟨offsets.getD r 0, offsets.getD (r + 1) 0⟩ := by
  have h₁ : offsets[r]? = some (offsets.getD r 0) := by
    rw [List.getD_eq_getElem _ _ (by omega), List.getElem?_eq_getElem]
  have h₂ : offsets[r + 1]? = some (offsets.getD (r + 1) 0) := by
    rw [List.getD_eq_getElem _ _ (by omega), List.getElem?_eq_getElem]
  simp only [rangeOf, h₁, h₂]

theorem size_eq (h : offsets.length = size + 1) :
    (⟨me, offsets⟩ : Partition).size = offsets.getD size 0 := by
  rw [Partition.size, List.getLast?_eq_getElem?, h, Nat.add_sub_cancel,
    List.getD_eq_getElem?_getD]

namespace Tiles

variable (h : Tiles size offsets)

include h

/-- The offsets ascend. -/
theorem mono {r s : Nat} (hrs : r ≤ s) (hs : s ≤ size) :
    (offsets.getD r 0).toNat ≤ (offsets.getD s 0).toNat := by
  induction s with
  | zero => exact Nat.le_of_eq (by rw [Nat.le_zero.mp hrs])
  | succ s ih =>
    rcases Nat.lt_or_ge r (s + 1) with hlt | hge
    · have hstep := UInt64.le_iff_toNat_le.mp (h.step s (by omega))
      exact Nat.le_trans (ih (by omega) (by omega)) hstep
    · exact Nat.le_of_eq (by rw [Nat.le_antisymm hrs hge])

theorem le_size (me : Nat) {r : Nat} (hr : r ≤ size) :
    (offsets.getD r 0).toNat ≤ ((⟨me, offsets⟩ : Partition).size).toNat := by
  rw [size_eq h.length]
  exact h.mono hr (Nat.le_refl size)

/-! ## 2. Owners -/

/-- Every index below the size is in the range of some rank. -/
theorem exists_owner {i : UInt64} (hi : i < (⟨me, offsets⟩ : Partition).size) :
    ∃ r < size, offsets.getD r 0 ≤ i ∧ i < offsets.getD (r + 1) 0 := by
  rw [size_eq h.length] at hi
  have all : ∀ n ≤ size, i < offsets.getD n 0 →
      ∃ r < size, offsets.getD r 0 ≤ i ∧ i < offsets.getD (r + 1) 0 := by
    intro n
    induction n with
    | zero =>
      intro _ hlt
      rw [h.first] at hlt
      exact absurd (UInt64.lt_iff_toNat_lt.mp hlt) (by simp)
    | succ n ih =>
      intro hn hlt
      by_cases hin : i < offsets.getD n 0
      · exact ih (by omega) hin
      · exact ⟨n, by omega, UInt64.not_lt.mp hin, hlt⟩
  exact all size (Nat.le_refl size) hi

/-- The offsets up to an index are those up to its owner. -/
theorem length_takeWhile {i : UInt64} {r : Nat} (hr : r < size)
    (hri : offsets.getD r 0 ≤ i ∧ i < offsets.getD (r + 1) 0) :
    (offsets.takeWhile fun o => decide (o ≤ i)).length = r + 1 := by
  have hlen := h.length
  simp only [UInt64.le_iff_toNat_le, UInt64.lt_iff_toNat_lt] at hri ⊢
  have hfind : offsets.findIdx (fun o => !decide (o.toNat ≤ i.toNat)) = r + 1 := by
    rw [List.findIdx_eq (by omega)]
    refine ⟨?_, fun j hj => ?_⟩
    · rw [List.getD_eq_getElem _ _ (by omega : r + 1 < offsets.length)] at hri
      simpa using hri.2
    · have hle := h.mono (show j ≤ r by omega) (by omega)
      rw [List.getD_eq_getElem _ _ (by omega : j < offsets.length)] at hle
      simp only [Bool.not_eq_false', decide_eq_true_eq]
      omega
  rw [List.takeWhile_eq_take_findIdx_not, hfind, List.length_take]
  omega

/-- **The owner of an index is the rank whose range it is in.** -/
theorem ownerOf?_eq_some_iff {i : UInt64} {r : Nat} :
    (⟨me, offsets⟩ : Partition).ownerOf? i = some r ↔
      r < size ∧ offsets.getD r 0 ≤ i ∧ i < offsets.getD (r + 1) 0 := by
  have found {s : Nat} (hs : s < size)
      (hsi : offsets.getD s 0 ≤ i ∧ i < offsets.getD (s + 1) 0) :
      (⟨me, offsets⟩ : Partition).ownerOf? i = some s := by
    have hlt : i < (⟨me, offsets⟩ : Partition).size := by
      have hsize := h.le_size me (show s + 1 ≤ size by omega)
      have hstop := UInt64.lt_iff_toNat_lt.mp hsi.2
      exact UInt64.lt_iff_toNat_lt.mpr (by omega)
    rw [ownerOf?, if_neg (UInt64.not_le.mpr hlt), h.length_takeWhile hs hsi, Nat.add_sub_cancel]
  constructor
  · intro hr
    have hlt : i < (⟨me, offsets⟩ : Partition).size := by
      refine UInt64.not_le.mp fun hle => ?_
      rw [ownerOf?, if_pos hle] at hr
      exact absurd hr (by simp)
    obtain ⟨s, hs, hsi⟩ := h.exists_owner hlt
    obtain rfl : s = r := Option.some.inj ((found hs hsi).symm.trans hr)
    exact ⟨hs, hsi⟩
  · rintro ⟨hr, hri⟩
    exact found hr hri

end Tiles

end ShardedVector.Partition
