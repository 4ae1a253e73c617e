/-
# Entries in one contiguous array

The plainest way of keeping entries.  Its entries may be seen, and changed, as one window.  It has
its own way of filling all of them, of copying a list into them, and of summing them and computing
their norms; such a sum starts from the negative zero.
-/
import ShardedVector.Error

namespace ShardedVector

/-! ## 1. Visiting a list of entries -/

/-- Replaces every entry of a list by what a visitor makes of it and of its index, which counts
from `first`.  The visitor is called once for each entry, in order. -/
def visitEntries {m : Type → Type} [Monad m] (visit : Nat → Binary64 → m Binary64)
    (first : Nat) : List Binary64 → m (List Binary64)
  | [] => pure []
  | x :: rest => do
    let y ← visit first x
    let others ← visitEntries visit (first + 1) rest
    pure (y :: others)

/-! ## 2. The array -/

structure Contiguous where
  entries : List Binary64
deriving DecidableEq

namespace Contiguous

/-- So many zeros. -/
def ofSize (n : Nat) : Contiguous := ⟨List.replicate n .zero⟩

def size (s : Contiguous) : Nat := s.entries.length

def entry? (s : Contiguous) (i : Nat) : Option Binary64 := s.entries[i]?

/-- Changes entry `i`, if there is one. -/
def modify (s : Contiguous) (i : Nat) (change : Binary64 → Binary64) : Contiguous :=
  ⟨s.entries.modify i change⟩

def visit {m : Type → Type} [Monad m] (f : Nat → Binary64 → m Binary64) (s : Contiguous) :
    m Contiguous := do
  let entries ← visitEntries f 0 s.entries
  pure ⟨entries⟩

def fold {β : Type} (f : β → Binary64 → β) (seed : β) (s : Contiguous) : β :=
  s.entries.foldl f seed

/-- Every entry becomes `x`. -/
def fill (x : Binary64) (s : Contiguous) : Contiguous := ⟨List.replicate s.size x⟩

/-- Copies a list of the same length over the entries. -/
def setLocal (s : Contiguous) (values : List Binary64) : Except Error Contiguous :=
  if values.length ≠ s.size then .error (.dimensionMismatch .setLocal s.size values.length)
  else .ok ⟨values⟩

def sum (s : Contiguous) : Binary64 := Binary64.sum s.entries

/-- The local part of a norm: a sum of absolute values, a sum of squares, or the largest absolute
value. -/
def norm (s : Contiguous) : Norm → Binary64
  | .l1 => Binary64.sum (s.entries.map Binary64.abs)
  | .l2 => Binary64.sum (s.entries.map fun x => x * x)
  | .linf => s.entries.foldl (fun acc x => Binary64.max acc x.abs) .zero

end Contiguous

end ShardedVector
