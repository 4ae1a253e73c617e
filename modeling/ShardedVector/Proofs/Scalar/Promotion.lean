/-
# Which integers enter the arithmetic of entries

A scalar of a checked kind goes to the nearest word and back, and is admitted when it comes back as
it was.  What comes back is the rounded integer, or nothing when the kind cannot hold it
(`ofEntry?_ofInt`); the latter is so for the largest values of a kind, which round up to a power of
two outside of it.  So a scalar comes back as it was exactly when it has no more than 53 significant
bits.

`promote_checked` says what this means for the promotion: a scalar is promoted to the one word that
stands for it exactly, and is refused when there is none.
-/
import ShardedVector.Proofs.Binary64.Nearest
import ShardedVector.Scalar.Promotion

namespace ShardedVector

open Binary64

/-! ## 1. The way back -/

namespace IntKind

/-- The kinds whose values are checked one by one. -/
def checkedKinds : List IntKind := [i64, u64, i128, u128, isize, usize]

theorem admission_of_mem_checkedKinds {k : IntKind} (hk : k ∈ checkedKinds) :
    (ScalarKind.int k).admission = .checked := by
  simp only [checkedKinds, List.mem_cons, List.not_mem_nil, or_false] at hk
  rcases hk with rfl | rfl | rfl | rfl | rfl | rfl <;> rfl

/-- The values of every kind lie far below the largest word. -/
theorem log2_natAbs_le {k : IntKind} {n : Int} (hn : k.holds n = true) : n.natAbs.log2 ≤ 1022 := by
  have hleast : -(2 ^ 128 : Int) ≤ k.least := by cases k <;> decide
  have hbound : k.bound ≤ (2 ^ 128 : Int) := by cases k <;> decide
  obtain ⟨hlow, hhigh⟩ := of_decide_eq_true hn
  have hlt : n.natAbs < 2 ^ 129 := by omega
  by_cases hzero : n.natAbs = 0
  · rw [hzero]
    decide
  · have hlog := (Nat.log2_lt hzero).mpr hlt
    omega

/-- An integer comes back rounded, if a value of the kind can be that. -/
theorem ofEntry?_ofInt {k : IntKind} {n : Int} (hn : k.holds n = true) :
    k.ofEntry? (ofInt n) = if k.holds (roundedInt n) then some (roundedInt n) else none := by
  unfold ofEntry?
  rw [(exactly_ofInt (log2_natAbs_le hn)).truncate?]

/-- **A value comes back as it was exactly when it has no more than 53 significant bits.** -/
theorem ofEntry?_ofInt_eq_some_iff {k : IntKind} {n : Int} (hn : k.holds n = true) :
    k.ofEntry? (ofInt n) = some n ↔ Representable n := by
  rw [ofEntry?_ofInt hn, ← roundedInt_eq_self_iff]
  constructor
  · intro hback
    split at hback
    · exact Option.some.inj hback
    · cases hback
  · intro hkept
    rw [hkept, if_pos hn]

end IntKind

/-! ## 2. Admission -/

namespace Scalar

theorem promote_of_mem_checkedKinds {k : IntKind} (hk : k ∈ IntKind.checkedKinds) (n : Int) :
    promote (.int k n) =
      if k.ofEntry? (ofInt n) = some n then .ok (ofInt n) else .error (.promotion (.int k n)) := by
  rw [promote, IntKind.admission_of_mem_checkedKinds hk]

/-- **A scalar of a checked kind is promoted to the one word that stands for it exactly.**  There is
such a word exactly when the scalar is `m * 2 ^ e` with an `m` of 53 bits at most.  A scalar of more
significant bits is refused, and neither rounded nor cut to what the kind can hold. -/
theorem promote_checked {k : IntKind} (hk : k ∈ IntKind.checkedKinds) {n : Int}
    (hn : k.holds n = true) :
    (ScalarKind.int k).admission = .checked ∧
    (∀ x, promote (.int k n) = .ok x ↔ x.Exactly n) ∧
    ((∃ x, promote (.int k n) = .ok x) ↔ Representable n) ∧
    (¬Representable n → promote (.int k n) = .error (.promotion (.int k n))) := by
  refine ⟨IntKind.admission_of_mem_checkedKinds hk, ?_⟩
  have hback := IntKind.ofEntry?_ofInt_eq_some_iff hn
  rw [promote_of_mem_checkedKinds hk]
  by_cases hrepresentable : Representable n
  · have hexact : (ofInt n).Exactly n := by
      have hrounded := exactly_ofInt (IntKind.log2_natAbs_le hn)
      rwa [roundedInt_eq_self_iff.mpr hrepresentable] at hrounded
    rw [if_pos (hback.mpr hrepresentable)]
    refine ⟨fun x => ⟨?_, ?_⟩, ⟨fun _ => hrepresentable, fun _ => ⟨_, rfl⟩⟩,
      fun h => absurd hrepresentable h⟩
    · intro hok
      exact Except.ok.inj hok ▸ hexact
    · intro hx
      exact congrArg Except.ok (hexact.unique hx)
  · rw [if_neg fun h => hrepresentable (hback.mp h)]
    refine ⟨fun x => ⟨nofun, fun hx => absurd hx.representable hrepresentable⟩,
      ⟨?_, fun h => absurd h hrepresentable⟩, fun _ => rfl⟩
    rintro ⟨x, hok⟩
    cases hok

/-- The largest values of two kinds round up to a power of two outside of the kind, and are refused;
the least value of a kind is that power of two itself. -/
theorem promote_checked_largest :
    promote (.int .i64 (2 ^ 63 - 1)) = .error (.promotion (.int .i64 (2 ^ 63 - 1))) ∧
    promote (.int .u128 (2 ^ 128 - 1)) = .error (.promotion (.int .u128 (2 ^ 128 - 1))) ∧
    ∃ x, promote (.int .i128 (-2 ^ 127)) = .ok x ∧ x.Exactly (-2 ^ 127) := by
  have hi64 := promote_checked (k := .i64) (n := 2 ^ 63 - 1) (by decide) (by decide)
  have hu128 := promote_checked (k := .u128) (n := 2 ^ 128 - 1) (by decide) (by decide)
  have hi128 := promote_checked (k := .i128) (n := -2 ^ 127) (by decide) (by decide)
  refine ⟨hi64.2.2.2 fun h => ?_, hu128.2.2.2 fun h => ?_, ?_⟩
  · exact absurd (roundedInt_eq_self_iff.mpr h) (by decide)
  · exact absurd (roundedInt_eq_self_iff.mpr h) (by decide)
  · obtain ⟨x, hx⟩ := hi128.2.2.1.mpr ⟨-1, 127, by decide, by decide⟩
    exact ⟨x, hx, (hi128.2.1 x).mp hx⟩

end Scalar

end ShardedVector
