/-
# Remembered norms

A counted array remembers the local parts of norms together with the state they were computed in.
What it remembers for the present state must be what its entries give (`Honest`).

The counter is a word.  After 2^64 changes the array is in an old state again, and what was computed
in that state would be taken for present.  So `Honest` alone is not kept by a change; it follows
(`Current.follows`) when the array remembers nothing at all, or was asked for a norm since the
change before, for then the state that is remembered is the one just left.
-/
import ShardedVector.Proofs.Storage.Kernels

namespace ShardedVector

/-! ## 1. The cache -/

namespace NormCache

variable (c : NormCache) (k : Norm)

@[simp] theorem get?_fresh (state : UInt64) : (fresh state).get? k = none := by
  cases k <;> rfl

theorem get?_set_self (x : Binary64) : (c.set k x).get? k = some x := by
  cases k <;> rfl

theorem get?_set_ne {k j : Norm} (h : j ≠ k) (x : Binary64) : (c.set k x).get? j = c.get? j := by
  cases k <;> cases j <;> first | rfl | exact absurd rfl h

@[simp] theorem state_set (x : Binary64) : (c.set k x).state = c.state := by
  cases k <;> rfl

@[simp] theorem state_forState (state : UInt64) : (c.forState state).state = state := by
  by_cases h : c.state = state
  · rw [forState, if_pos h, h]
  · rw [forState, if_neg h]
    rfl

theorem forState_of_eq {state : UInt64} (h : c.state = state) : c.forState state = c := if_pos h

theorem forState_of_ne {state : UInt64} (h : c.state ≠ state) : c.forState state = fresh state :=
  if_neg h

end NormCache

/-! ## 2. The array -/

namespace Counted

/-- Nothing is remembered, whatever the state. -/
def Unasked (a : Counted) : Prop := ∀ k, a.cache.get? k = none

/-- What is remembered for the present state is what the entries give. -/
def Honest (a : Counted) : Prop :=
  ∀ k x, (a.cache.forState a.state).get? k = some x → x = a.computeNorm k

/-- Nothing is remembered, or else for no state but the present one, and rightly. -/
def Current (a : Counted) : Prop := a.Unasked ∨ a.cache.state = a.state ∧ a.Honest

/-- An array after an attempt to change it: as it was, or counted up by one with any entries.  What
is remembered stays as it is. -/
inductive Follows (a : Counted) : Counted → Prop
  | same : Follows a a
  | counted {a' : Counted} (hstate : a'.state = a.state + 1) (hcache : a'.cache = a.cache) :
      Follows a a'

variable {a a' : Counted}

theorem Unasked.get?_forState (h : a.Unasked) (state : UInt64) (k : Norm) :
    (a.cache.forState state).get? k = none := by
  by_cases hstate : a.cache.state = state
  · rw [NormCache.forState_of_eq _ hstate]
    exact h k
  · rw [NormCache.forState_of_ne _ hstate, NormCache.get?_fresh]

theorem Unasked.honest (h : a.Unasked) : a.Honest := by
  intro k x hget
  rw [h.get?_forState] at hget
  cases hget

theorem Current.honest (h : a.Current) : a.Honest := h.elim Unasked.honest And.right

theorem Unasked.follows (h : a.Unasked) (hfollows : a.Follows a') : a'.Unasked := by
  cases hfollows with
  | same => exact h
  | counted _ hcache =>
    intro k
    rw [hcache]
    exact h k

/-- **A change leaves an honest array** if what was remembered before it was current. -/
theorem Current.follows (h : a.Current) (hfollows : a.Follows a') : a'.Honest := by
  cases hfollows with
  | same => exact h.honest
  | counted hstate hcache =>
    rcases h with hunasked | ⟨hpresent, -⟩
    · exact (hunasked.follows (.counted hstate hcache)).honest
    · have hother : a'.cache.state ≠ a'.state := by
        rw [hcache, hstate, hpresent]
        simp
      intro k x hget
      rw [NormCache.forState_of_ne _ hother, NormCache.get?_fresh] at hget
      cases hget

/-- An honest array answers with what its entries give, and is current afterwards. -/
theorem normPartial_spec (h : a.Honest) (k : Norm) :
    (a.normPartial k).1 = a.computeNorm k ∧
      (a.normPartial k).2.entries = a.entries ∧ (a.normPartial k).2.Current := by
  cases hget : (a.cache.forState a.state).get? k with
  | some x =>
    have hrun : a.normPartial k = (x, { a with cache := a.cache.forState a.state }) := by
      simp only [normPartial, hget]
    rw [hrun]
    have hstate : (a.cache.forState a.state).state = a.state := NormCache.state_forState ..
    refine ⟨h k x hget, rfl, .inr ⟨hstate, fun j y hj => h j y ?_⟩⟩
    rwa [NormCache.forState_of_eq _ hstate] at hj
  | none =>
    have hrun : a.normPartial k = (a.computeNorm k,
        { a with cache := (a.cache.forState a.state).set k (a.computeNorm k) }) := by
      simp only [normPartial, hget]
    rw [hrun]
    have hstate : ((a.cache.forState a.state).set k (a.computeNorm k)).state = a.state := by simp
    refine ⟨rfl, rfl, .inr ⟨hstate, fun j y hj => ?_⟩⟩
    rw [NormCache.forState_of_eq _ hstate] at hj
    by_cases hjk : j = k
    · rw [hjk, NormCache.get?_set_self] at hj
      rw [hjk, ← Option.some.inj hj]
      rfl
    · rw [NormCache.get?_set_ne _ hjk] at hj
      exact h j y hj

theorem unasked_ofSize (n : Nat) : (ofSize n).Unasked := fun k => NormCache.get?_fresh k 0

end Counted

/-! ## 3. Storages of any backend -/

namespace Storage

/-- Nothing is remembered. -/
def Unasked : Storage → Prop
  | .petsc a => a.Unasked
  | .dense _ | .tpetra _ => True

/-- What is remembered for the present state is what the entries give. -/
def Honest : Storage → Prop
  | .petsc a => a.Honest
  | .dense _ | .tpetra _ => True

/-- Nothing is remembered, or else for no state but the present one, and rightly. -/
def Current : Storage → Prop
  | .petsc a => a.Current
  | .dense _ | .tpetra _ => True

/-- A storage after an attempt to change it: of the same backend, and counted at most once. -/
inductive Follows : Storage → Storage → Prop
  | dense (a a' : Contiguous) : Follows (.dense a) (.dense a')
  | petsc {a a' : Counted} (h : a.Follows a') : Follows (.petsc a) (.petsc a')
  | tpetra (b b' : Blocked) : Follows (.tpetra b) (.tpetra b')

variable {s s' : Storage}

theorem Unasked.current (h : s.Unasked) : s.Current := by
  cases s with
  | petsc a => exact .inl h
  | dense a => trivial
  | tpetra b => trivial

theorem Current.honest (h : s.Current) : s.Honest := by
  cases s with
  | petsc a => exact Counted.Current.honest h
  | dense a => trivial
  | tpetra b => trivial

theorem Follows.backend (h : s.Follows s') : s'.backend = s.backend := by
  cases h <;> rfl

theorem Follows.refl (s : Storage) : s.Follows s := by
  cases s with
  | dense a => exact .dense a a
  | petsc a => exact .petsc .same
  | tpetra b => exact .tpetra b b

theorem Unasked.follows (h : s.Unasked) (hfollows : s.Follows s') : s'.Unasked := by
  cases hfollows with
  | dense a a' => trivial
  | petsc hcounted => exact Counted.Unasked.follows h hcounted
  | tpetra b b' => trivial

theorem Current.follows (h : s.Current) (hfollows : s.Follows s') : s'.Honest := by
  cases hfollows with
  | dense a a' => trivial
  | petsc hcounted => exact Counted.Current.follows h hcounted
  | tpetra b b' => trivial

theorem unasked_create (b : Backend) (n : Nat) : (create b n).Unasked := by
  cases b with
  | dense => trivial
  | petsc => exact Counted.unasked_ofSize n
  | tpetra => trivial

theorem follows_reset (s : Storage) (n : Nat) : s.Follows (s.reset n) := by
  cases s with
  | dense a => exact .dense ..
  | petsc a => exact .petsc (.counted rfl rfl)
  | tpetra b => exact .tpetra ..

theorem follows_modify (s : Storage) (i : Nat) (change : Binary64 → Binary64) :
    s.Follows (s.modify i change) := by
  cases s with
  | dense a => exact .dense ..
  | petsc a => exact .petsc (.counted rfl rfl)
  | tpetra b => exact .tpetra ..

theorem follows_visit {σ : Type} (s : Storage) (f : Nat → Binary64 → StateM σ Binary64)
    (memory : σ) : s.Follows ((s.visit f).run memory).1 := by
  cases s with
  | dense a => exact .dense ..
  | petsc a => exact .petsc (.counted rfl rfl)
  | tpetra b => exact .tpetra ..

theorem follows_update (s : Storage) (f : Nat → Binary64 → Binary64) : s.Follows (s.update f) := by
  cases s with
  | dense a => exact .dense ..
  | petsc a => exact .petsc (.counted rfl rfl)
  | tpetra b => exact .tpetra ..

/-- Operands that are taken in are taken in by a change of every entry. -/
theorem exists_update_of_zip {op : Operation} {f : Binary64 → Binary64 → Binary64}
    {values : List Binary64} (hok : s.zip op f values = .ok s') : ∃ g, s' = s.update g := by
  rw [zip, checkSize] at hok
  by_cases hlen : s.size = values.length
  · rw [if_pos hlen] at hok
    exact ⟨_, (Except.ok.inj hok).symm⟩
  · rw [if_neg hlen] at hok
    cases hok

theorem follows_zip {op : Operation} {f : Binary64 → Binary64 → Binary64} {values : List Binary64}
    (hok : s.zip op f values = .ok s') : s.Follows s' := by
  obtain ⟨g, rfl⟩ := exists_update_of_zip hok
  exact follows_update s g

/-- An honest storage answers with what its backend makes of its entries, and is current
afterwards. -/
theorem normPartial_spec (h : s.Honest) (k : Norm) :
    (s.normPartial k).1 = normPlain s.backend k s.toList ∧
      (s.normPartial k).2.toList = s.toList ∧ (s.normPartial k).2.backend = s.backend ∧
      (s.normPartial k).2.Current := by
  cases s with
  | dense a => exact ⟨a.norm_eq_normPlain k, rfl, rfl, trivial⟩
  | petsc a =>
    obtain ⟨hvalue, hentries, hcurrent⟩ := Counted.normPartial_spec h k
    exact ⟨hvalue.trans (a.computeNorm_eq_normPlain k), hentries, rfl, hcurrent⟩
  | tpetra b => exact ⟨foldNorm_eq_normPlain (.tpetra b) k, rfl, rfl, trivial⟩

end Storage

end ShardedVector
