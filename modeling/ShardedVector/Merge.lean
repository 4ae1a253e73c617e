/-
# Merging several lists of indices

`mergeAll` merges any number of lists into one.  At each step the least of their first elements
is taken off.  The lists wait in a heap: a binary tree in which no list begins with less than
the one above it, filled level by level from the left.  After an element is taken off the list
at the top, the list sinks to its place; a list that is used up is replaced at the top by the
last one of the tree.

Lists in ascending order come out as one list in ascending order.  A list out of order is
merged as it is.
-/
namespace ShardedVector

/-- A list that is not used up: its first element and the rest. -/
structure IndexRun where
  head : UInt64
  tail : List UInt64

/-- A binary tree of lists. -/
inductive RunHeap where
  | leaf
  | node (run : IndexRun) (left right : RunHeap)

namespace RunHeap

/-! ## 1. Sinking -/

/-- The tree with another list in place of the one at the top, sunk to its place: it changes
places with the child that begins with less, the left one of two equal ones, until no child
begins with less than it. -/
def replaceTop (run : IndexRun) : RunHeap → RunHeap
  | leaf => leaf
  | node _ leaf right => node run leaf right
  | node _ (node a la ra) leaf =>
    if a.head < run.head then node a (replaceTop run (node a la ra)) leaf
    else node run (node a la ra) leaf
  | node _ (node a la ra) (node b lb rb) =>
    if b.head < a.head then
      if b.head < run.head then node b (node a la ra) (replaceTop run (node b lb rb))
      else node run (node a la ra) (node b lb rb)
    else
      if a.head < run.head then node a (replaceTop run (node a la ra)) (node b lb rb)
      else node run (node a la ra) (node b lb rb)

/-! ## 2. The last list of the tree -/

/-- The number of levels. -/
def depth : RunHeap → Nat
  | leaf => 0
  | node _ left _ => left.depth + 1

/-- Takes out the last list of the lowest level: it is on the right if the right side is as
deep as the left one. -/
def removeLast : RunHeap → Option (IndexRun × RunHeap)
  | leaf => none
  | node run left right =>
    if left.depth = right.depth then
      match right.removeLast with
      | some (last, right') => some (last, node run left right')
      | none => some (run, leaf)
    else
      match left.removeLast with
      | some (last, left') => some (last, node run left' right)
      | none => some (run, leaf)

/-! ## 3. Building and draining -/

/-- The tree whose lists, level by level, are those of an array from position `i` down. -/
def build (runs : Array IndexRun) : Nat → Nat → RunHeap
  | 0, _ => leaf
  | fuel + 1, i =>
    match runs[i]? with
    | none => leaf
    | some run =>
      replaceTop run (node run (build runs fuel (2 * i + 1)) (build runs fuel (2 * i + 2)))

/-- Takes the first element off the list at the top. -/
def pop : RunHeap → Option (UInt64 × RunHeap)
  | leaf => none
  | node ⟨head, next :: tail⟩ left right =>
    some (head, replaceTop ⟨next, tail⟩ (node ⟨head, next :: tail⟩ left right))
  | node ⟨head, []⟩ left right =>
    match (node ⟨head, []⟩ left right).removeLast with
    | some (last, rest) => some (head, replaceTop last rest)
    | none => some (head, leaf)

/-- Takes off up to so many elements. -/
def drain : Nat → RunHeap → List UInt64
  | 0, _ => []
  | count + 1, heap =>
    match heap.pop with
    | none => []
    | some (head, rest) => head :: drain count rest

end RunHeap

/-- The lists that are not empty. -/
def runsOf : List (List UInt64) → List IndexRun
  | [] => []
  | [] :: rest => runsOf rest
  | (head :: tail) :: rest => ⟨head, tail⟩ :: runsOf rest

/-- The elements of all lists, the least first element next. -/
def mergeAll (lists : List (List UInt64)) : List UInt64 :=
  let runs := runsOf lists
  (RunHeap.build runs.toArray runs.length 0).drain lists.flatten.length

end ShardedVector
