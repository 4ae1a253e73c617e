/-
# What the kernels of the backends come to

Most of what can be done to a storage is written over its primitives.  Where a backend has its own
way, it has to come to the same: `setAll_eq_update` and `setLocal_eq_zip` say so of filling and of
copying, so a change is one of very few kinds whatever the backend (`edit_zero`, `edit_setAll`,
`edit_setLocal`).

Local sums and norms do not come to the same bits, for the backends start them from different
zeros.  `sumPlain` and `normPlain` say what each of them makes of a plain list of entries: a left
fold, and where it starts.  `localSum_eq_sumPlain`, `norm_eq_normPlain`, `computeNorm_eq_normPlain`
and `foldNorm_eq_normPlain` are the backends.
-/
import ShardedVector.Proofs.Storage.Blocks
import ShardedVector.Storage.Edit

namespace ShardedVector

namespace Storage

/-! ## 1. Changes of all entries -/

/-- **To fill a storage is to set every entry**, also where it is filled as a whole. -/
theorem setAll_eq_update (s : Storage) (x : Binary64) : s.setAll x = s.update fun _ _ => x := by
  cases s with
  | petsc a => rfl
  | tpetra b => rfl
  | dense a =>
    have hvisit := visitEntries_id (fun _ _ => x) 0 a.entries
    have hfill : List.replicate a.size x = a.entries.mapIdx fun _ _ => x :=
      List.ext_getElem (by simp [Contiguous.size]) fun i h₁ h₂ => by simp
    exact congrArg (Storage.dense ⟨·⟩) (hfill.trans hvisit.symm)

/-- The entries of a list, each put at its place. -/
theorem mapIdx_getD_toArray {entries values : List Binary64} (h : entries.length = values.length) :
    (entries.mapIdx fun i _ => values.toArray.getD i .zero) = values := by
  refine List.ext_getElem (by simp [h]) fun i h₁ h₂ => ?_
  simp [h₂]

/-- **To copy a list is to set every entry to the one at its place**, also where it is copied as a
whole, and it is refused for the same reason. -/
theorem setLocal_eq_zip (s : Storage) (values : List Binary64) :
    s.setLocal values = s.zip .setLocal (fun _ x => x) values := by
  cases s with
  | petsc a => rfl
  | tpetra b => rfl
  | dense a =>
    rw [setLocal, Contiguous.setLocal, zip, checkSize]
    by_cases hlen : a.size = values.length
    · have hvisit := visitEntries_id (fun i _ => values.toArray.getD i .zero) 0 a.entries
      simp only [Nat.zero_add, mapIdx_getD_toArray hlen] at hvisit
      rw [if_neg (fun hne => hne hlen.symm), size, if_pos hlen]
      exact congrArg (fun entries => Except.ok (Storage.dense ⟨entries⟩)) hvisit.symm
    · rw [if_pos (Ne.symm hlen), size, if_neg hlen]
      rfl

theorem edit_setAll (s : Storage) (x : Binary64) :
    s.edit (.setAll x) = s.edit (.update fun _ _ => x) := by
  rw [edit, edit, setAll_eq_update]

theorem edit_zero (s : Storage) : s.edit .zero = s.edit (.update fun _ _ => .zero) :=
  s.edit_setAll .zero

theorem edit_setLocal (s : Storage) (values : List Binary64) :
    s.edit (.setLocal values) = s.settleWith (s.zip .setLocal (fun _ x => x) values) := by
  rw [edit, setLocal_eq_zip]

/-! ## 2. Sums and norms -/

/-- What a backend makes of a list of entries as their sum. -/
def sumPlain (b : Backend) (entries : List Binary64) : Binary64 :=
  match b with
  | .dense => entries.foldl (fun acc x => acc + x) .negativeZero
  | .petsc | .tpetra => entries.foldl (fun acc x => acc + x) .zero

/-- What a backend makes of a list of entries as the local part of a norm: the sum of absolute
values, the sum of squares, or the largest absolute value. -/
def normPlain (b : Backend) (k : Norm) (entries : List Binary64) : Binary64 :=
  let start : Binary64 := match b with
    | .dense | .petsc => .negativeZero
    | .tpetra => .zero
  match k with
  | .l1 => entries.foldl (fun acc x => acc + x.abs) start
  | .l2 => entries.foldl (fun acc x => acc + x * x) start
  | .linf => entries.foldl (fun acc x => Binary64.max acc x.abs) .zero

/-- A fold goes through the entries in order. -/
theorem fold_eq_foldl {β : Type} (s : Storage) (f : β → Binary64 → β) (seed : β) :
    s.fold f seed = s.toList.foldl f seed := by
  cases s with
  | dense a => rfl
  | petsc a => rfl
  | tpetra b => exact (List.foldl_flatten ..).symm

theorem localSum_eq_sumPlain (s : Storage) : s.localSum = sumPlain s.backend s.toList := by
  cases s with
  | dense a => rfl
  | petsc a => rfl
  | tpetra b => exact fold_eq_foldl (.tpetra b) _ _

theorem foldNorm_eq_normPlain (s : Storage) (k : Norm) :
    s.foldNorm k = normPlain .tpetra k s.toList := by
  cases k <;> exact fold_eq_foldl s _ _

end Storage

theorem Contiguous.norm_eq_normPlain (a : Contiguous) (k : Norm) :
    a.norm k = Storage.normPlain .dense k a.entries := by
  cases k with
  | l1 => exact List.foldl_map
  | l2 => exact List.foldl_map
  | linf => rfl

theorem Counted.computeNorm_eq_normPlain (a : Counted) (k : Norm) :
    a.computeNorm k = Storage.normPlain .petsc k a.entries := by
  cases k with
  | l1 => exact List.foldl_map
  | l2 => exact List.foldl_map
  | linf => rfl

end ShardedVector
