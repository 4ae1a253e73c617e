/-
# Entries behind a change counter

Every access that may change an entry counts the state of the array up, also one that finds no
entry to change.  The local part of a norm is computed once for each state: what was computed
is remembered together with the state it was computed in, and is forgotten as soon as the
array is in another state.  The counter is a 64-bit word and begins again after the last one.
-/
import ShardedVector.Storage.Contiguous

namespace ShardedVector

/-! ## 1. Remembered norms -/

/-- The local parts of norms that were computed in one state of an array. -/
structure NormCache where
  state : UInt64
  l1 : Option Binary64
  l2 : Option Binary64
  linf : Option Binary64
deriving DecidableEq

namespace NormCache

/-- Nothing was computed yet in a state. -/
def fresh (state : UInt64) : NormCache := ⟨state, none, none, none⟩

def get? (c : NormCache) : Norm → Option Binary64
  | .l1 => c.l1
  | .l2 => c.l2
  | .linf => c.linf

def set (c : NormCache) (k : Norm) (x : Binary64) : NormCache :=
  match k with
  | .l1 => { c with l1 := some x }
  | .l2 => { c with l2 := some x }
  | .linf => { c with linf := some x }

/-- The cache for an array in a state: what it holds if it was filled in that state, and else
nothing. -/
def forState (c : NormCache) (state : UInt64) : NormCache :=
  if c.state = state then c else fresh state

end NormCache

/-! ## 2. The array -/

structure Counted where
  entries : List Binary64
  state : UInt64
  cache : NormCache
deriving DecidableEq

namespace Counted

/-- So many zeros, never changed. -/
def ofSize (n : Nat) : Counted := ⟨List.replicate n .zero, 0, .fresh 0⟩

def size (s : Counted) : Nat := s.entries.length

/-- Counts one access that may change an entry. -/
def touch (s : Counted) : Counted := { s with state := s.state + 1 }

/-- Holds so many zeros from now on. -/
def reset (n : Nat) (s : Counted) : Counted :=
  { s with entries := List.replicate n .zero }.touch

def entry? (s : Counted) (i : Nat) : Option Binary64 := s.entries[i]?

/-- Changes entry `i`, if there is one, and counts the access in any case. -/
def modify (s : Counted) (i : Nat) (change : Binary64 → Binary64) : Counted :=
  { s with entries := s.entries.modify i change }.touch

def visit {m : Type → Type} [Monad m] (f : Nat → Binary64 → m Binary64) (s : Counted) :
    m Counted := do
  let entries ← visitEntries f 0 s.entries
  pure { s with entries := entries }.touch

def fold {β : Type} (f : β → Binary64 → β) (seed : β) (s : Counted) : β :=
  s.entries.foldl f seed

/-- A copy: the entries and the count, and nothing remembered. -/
def copy (s : Counted) : Counted := { s with cache := .fresh 0 }

/-- The local part of a norm as the entries give it: a sum of absolute values, a sum of squares, or
the largest absolute value. -/
def computeNorm (s : Counted) : Norm → Binary64
  | .l1 => Binary64.sum (s.entries.map Binary64.abs)
  | .l2 => Binary64.sum (s.entries.map fun x => x * x)
  | .linf => s.entries.foldl (fun acc x => Binary64.max acc x.abs) .zero

/-- The local part of a norm: what is remembered for the present state, or else what the
entries give, which is remembered. -/
def normPartial (s : Counted) (k : Norm) : Binary64 × Counted :=
  let cache := s.cache.forState s.state
  match cache.get? k with
  | some x => (x, { s with cache := cache })
  | none => (s.computeNorm k, { s with cache := cache.set k (s.computeNorm k) })

end Counted

end ShardedVector
