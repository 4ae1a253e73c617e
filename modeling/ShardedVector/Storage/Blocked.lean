/-
# Entries in blocks

Entries are kept in blocks of 64, the last block holding what is left over.  Entry `i` is the
one at `i % 64` in block `i / 64`; no window shows all entries at once.
-/
import ShardedVector.Storage.Contiguous

namespace ShardedVector

structure Blocked where
  blocks : List (List Binary64)
  size : Nat
deriving DecidableEq

namespace Blocked

/-- How many entries a full block holds. -/
def blockLength : Nat := 64

/-- So many zeros. -/
def ofSize (n : Nat) : Blocked :=
  ⟨(List.range ((n + (blockLength - 1)) / blockLength)).map fun b =>
      List.replicate (Nat.min blockLength (n - b * blockLength)) .zero, n⟩

def blockCount (s : Blocked) : Nat := s.blocks.length

def entry? (s : Blocked) (i : Nat) : Option Binary64 :=
  match s.blocks[i / blockLength]? with
  | some block => block[i % blockLength]?
  | none => none

/-- Changes entry `i`, if there is one. -/
def modify (s : Blocked) (i : Nat) (change : Binary64 → Binary64) : Blocked :=
  { s with blocks :=
      s.blocks.modify (i / blockLength) fun block => block.modify (i % blockLength) change }

/-- Visits the blocks of a list, the first of which is block `b`. -/
def visitBlocks {m : Type → Type} [Monad m] (f : Nat → Binary64 → m Binary64) (b : Nat) :
    List (List Binary64) → m (List (List Binary64))
  | [] => pure []
  | block :: rest => do
    let first ← visitEntries f (b * blockLength) block
    let others ← visitBlocks f (b + 1) rest
    pure (first :: others)

def visit {m : Type → Type} [Monad m] (f : Nat → Binary64 → m Binary64) (s : Blocked) :
    m Blocked := do
  let blocks ← visitBlocks f 0 s.blocks
  pure { s with blocks := blocks }

def fold {β : Type} (f : β → Binary64 → β) (seed : β) (s : Blocked) : β :=
  s.blocks.foldl (fun acc block => block.foldl f acc) seed

/-- All entries in order. -/
def toList (s : Blocked) : List Binary64 := s.blocks.flatten

end Blocked

end ShardedVector
