/-
# Sets of indices

A set of indices is kept as its strictly ascending list, and there is only one such list of a set
(`eq_indexSet`).  So it makes no difference how the indices of several ranks are put together: the
merge of their lists, without repetitions, is the set of all of them (`eraseReps_mergeAll`).
-/
import Mathlib.Data.List.Dedup
import ShardedVector.Proofs.Merge.Heap
import ShardedVector.Shard.Reduction

namespace ShardedVector

variable {i x : UInt64}

/-! ## 1. The ascending list of a set -/

theorem mem_insertIndex : ∀ {l : List UInt64}, x ∈ insertIndex i l ↔ x = i ∨ x ∈ l
  | [] => by simp [insertIndex]
  | j :: rest => by
    have ih := @mem_insertIndex rest
    rw [insertIndex]
    split
    · exact List.mem_cons
    · split
      · next heq => simp [heq]
      · rw [List.mem_cons, List.mem_cons, ih]
        exact or_left_comm

theorem pairwise_insertIndex :
    ∀ {l : List UInt64}, l.Pairwise (· < ·) → (insertIndex i l).Pairwise (· < ·)
  | [], _ => List.pairwise_singleton _ _
  | j :: rest, h => by
    obtain ⟨hj, hrest⟩ := List.pairwise_cons.mp h
    rw [insertIndex]
    split
    · next hlt =>
      refine List.pairwise_cons.mpr ⟨fun k hk => ?_, h⟩
      rcases List.mem_cons.mp hk with rfl | hk
      · exact hlt
      · exact UInt64.lt_trans hlt (hj k hk)
    · next hge =>
      split
      · exact h
      · next hne =>
        refine List.pairwise_cons.mpr ⟨fun k hk => ?_, pairwise_insertIndex hrest⟩
        rcases mem_insertIndex.mp hk with rfl | hk
        · exact UInt64.lt_of_le_of_ne (UInt64.not_lt.mp hge) (Ne.symm hne)
        · exact hj k hk

theorem mem_indexSet {l : List UInt64} : x ∈ indexSet l ↔ x ∈ l := by
  induction l with
  | nil => rfl
  | cons j rest ih => rw [indexSet, List.foldr_cons, mem_insertIndex, List.mem_cons, ← ih, indexSet]

theorem pairwise_indexSet (l : List UInt64) : (indexSet l).Pairwise (· < ·) := by
  induction l with
  | nil => exact .nil
  | cons j rest ih => exact pairwise_insertIndex ih

/-- **A set has only one ascending list.** -/
theorem eq_indexSet {l m : List UInt64} (h : l.Pairwise (· < ·)) (hmem : ∀ x, x ∈ l ↔ x ∈ m) :
    l = indexSet m :=
  h.eq_of_mem_iff (pairwise_indexSet m) fun x => (hmem x).trans mem_indexSet.symm

theorem nodup_of_pairwise_lt {l : List UInt64} (h : l.Pairwise (· < ·)) : l.Nodup :=
  h.imp fun hlt => UInt64.ne_of_lt hlt

theorem length_indexSet (l : List UInt64) : (indexSet l).length = l.dedup.length := by
  refine List.Perm.length_eq ((List.perm_ext_iff_of_nodup ?_ l.nodup_dedup).mpr fun x => ?_)
  · exact nodup_of_pairwise_lt (pairwise_indexSet l)
  · rw [mem_indexSet, List.mem_dedup]

/-! ## 2. Repetitions -/

theorem eraseRepsBy_loop {α : Type} (r : α → α → Bool) :
    ∀ (a : α) (as acc : List α),
      List.eraseRepsBy.loop r a as acc = acc.reverse ++ List.eraseRepsBy.loop r a as []
  | a, [], acc => by simp [List.eraseRepsBy.loop]
  | a, b :: as, acc => by
    rw [List.eraseRepsBy.loop, List.eraseRepsBy.loop]
    split
    · exact eraseRepsBy_loop r a as acc
    · rw [eraseRepsBy_loop r b as (a :: acc), eraseRepsBy_loop r b as [a]]
      simp

theorem eraseReps_cons_cons (a b : UInt64) (as : List UInt64) :
    (a :: b :: as).eraseReps = if a = b then (a :: as).eraseReps else a :: (b :: as).eraseReps := by
  simp only [List.eraseReps, List.eraseRepsBy]
  rw [List.eraseRepsBy.loop]
  by_cases hab : a = b
  · rw [if_pos hab, beq_iff_eq.mpr hab]
  · rw [if_neg hab, beq_eq_false_iff_ne.mpr hab]
    exact eraseRepsBy_loop _ b as [a]

theorem mem_eraseReps : ∀ {l : List UInt64}, x ∈ l.eraseReps ↔ x ∈ l
  | [] => Iff.rfl
  | [a] => Iff.rfl
  | a :: b :: as => by
    rw [eraseReps_cons_cons]
    split
    · next heq => rw [mem_eraseReps, heq, List.mem_cons, List.mem_cons, List.mem_cons, or_self_left]
    · rw [List.mem_cons, mem_eraseReps, ← List.mem_cons]

theorem pairwise_eraseReps :
    ∀ {l : List UInt64}, l.Pairwise (· ≤ ·) → l.eraseReps.Pairwise (· < ·)
  | [], _ => .nil
  | [a], _ => List.pairwise_singleton _ _
  | a :: b :: as, h => by
    obtain ⟨ha, hbs⟩ := List.pairwise_cons.mp h
    obtain ⟨hb, has⟩ := List.pairwise_cons.mp hbs
    rw [eraseReps_cons_cons]
    split
    · exact pairwise_eraseReps (List.pairwise_cons.mpr ⟨fun x hx => ha x (by simp [hx]), has⟩)
    · next hne =>
      have hab := UInt64.lt_of_le_of_ne (ha b (by simp)) hne
      refine List.pairwise_cons.mpr ⟨fun x hx => ?_, pairwise_eraseReps hbs⟩
      rcases List.mem_cons.mp (mem_eraseReps.mp hx) with rfl | hx
      · exact hab
      · exact UInt64.lt_of_lt_of_le hab (hb x hx)

/-! ## 3. Sets that are merged -/

/-- **The merge of several sets is the set of all their members.** -/
theorem eraseReps_mergeAll (ls : List (List UInt64)) :
    (mergeAll (ls.map indexSet)).eraseReps = indexSet ls.flatten := by
  have hsets : ∀ l ∈ ls.map indexSet, l.Pairwise (· ≤ ·) := by
    intro l hl
    obtain ⟨m, -, rfl⟩ := List.mem_map.mp hl
    exact (pairwise_indexSet m).imp UInt64.le_of_lt
  obtain ⟨hperm, hascending⟩ := mergeAll_spec hsets
  refine eq_indexSet (pairwise_eraseReps hascending) fun x => ?_
  rw [mem_eraseReps, hperm.mem_iff, List.mem_flatten, List.mem_flatten]
  simp [mem_indexSet]

end ShardedVector
