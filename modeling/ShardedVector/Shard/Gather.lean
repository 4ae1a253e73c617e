/-
# Entries by global index

A rank may ask for entries anywhere in the index space.  Each rank sends to every owner the
list of indices it wants from it, every owner answers each list in its order, and the asker
puts the answers together in the order in which it asked.  A rank with nothing to ask takes
part as well, and a rank that is asked for an index it does not own answers with a NaN in its
place, so that no other rank is left waiting; it is refused itself after that.
-/
import ShardedVector.Shard.Basic

namespace ShardedVector.Shard

/-! ## 1. Requests -/

/-- The owner of each index of a list; the first index that nobody owns is refused. -/
def owners (v : Shard) : List UInt64 → Except Error (List Nat)
  | [] => .ok []
  | index :: rest =>
    match v.ownerOf? index with
    | none => .error (.indexOutOfRange index.toNat v.size.toNat)
    | some owner =>
      match owners v rest with
      | .ok others => .ok (owner :: others)
      | .error e => .error e

/-- What is asked of one rank: the indices it owns, in the order of the list. -/
def askedOf (rank : Nat) : List Nat → List UInt64 → List UInt64
  | owner :: owners, index :: indices =>
    if owner = rank then index :: askedOf rank owners indices else askedOf rank owners indices
  | _, _ => []

/-! ## 2. Answers -/

/-- The entry at a global index, if it is on this rank. -/
def entryAt? (v : Shard) (index : UInt64) : Option Binary64 :=
  if index < v.localRange.start then none
  else v.storage.entry? (index - v.localRange.start).toNat

/-- The answers to a list of indices. -/
def answer (v : Shard) (wanted : List UInt64) : List Binary64 :=
  wanted.map fun index => (v.entryAt? index).getD .nan

/-- Refuses the first index that is not on this rank, in the requests of ranks `first`,
`first + 1`, … -/
def checkRequests (v : Shard) (first : Nat) : List (List UInt64) → Except Error Unit
  | [] => .ok ()
  | wanted :: rest =>
    match wanted.find? fun index => (v.entryAt? index).isNone with
    | some index => .error (.communication first (.unowned index.toNat))
    | none => checkRequests v (first + 1) rest

/-- Every rank must have sent as many entries as it was asked for; the counts are those of
ranks `first`, `first + 1`, … -/
def checkAnswers (first : Nat) : List (List UInt64) → List (List Binary64) → Except Error Unit
  | asked :: requests, answers =>
    let received := (answers.headD []).length
    if received = asked.length then checkAnswers (first + 1) requests answers.tail
    else .error (.communication first (.answers asked.length received))
  | [], _ => .ok ()

/-- The answers in the order in which the indices were asked for: for each index the next
answer of its owner. -/
def assemble : List Nat → List (List Binary64) → List Binary64
  | [], _ => []
  | owner :: rest, answers =>
    match answers[owner]? with
    | some (x :: others) => x :: assemble rest (answers.set owner others)
    | _ => assemble rest answers

/-! ## 3. The conversation -/

def gatherTask : String := "la: gather"

/-- The conversation after the owners of all indices are known. -/
def converse (v : Shard) (indices : List UInt64) (owners : List Nat) :
    Attempt (List Binary64) := do
  let requests := v.seat.ranks.map fun r => askedOf r owners indices
  let incoming ← Collective.allToAllRecords v.seat .gatherRequest requests
  let answers ← Collective.allToAllRecords v.seat .gatherReply (incoming.map v.answer)
  Attempt.ofExcept (v.checkRequests 0 incoming)
  Attempt.ofExcept (checkAnswers 0 requests answers)
  return assemble owners answers

/-- The entries at global indices, in the order of the list.  Nothing is sent when an index is
out of range. -/
def gatherValues (v : Shard) (indices : List UInt64) : Attempt (List Binary64) :=
  v.timed gatherTask do
    let owners ← Attempt.ofExcept (v.owners indices)
    v.converse indices owners

/-- The backend must be able to gather. -/
def requireGather (v : Shard) (op : Operation) : Except Error Unit :=
  if v.capabilities.gather then .ok () else .error (.unsupported v.backend op)

/-- The entries at global indices, on a backend that can gather. -/
def gather (v : Shard) (indices : List UInt64) : Attempt (List Binary64) := do
  Attempt.ofExcept (v.requireGather .gather)
  v.gatherValues indices

/-- What a gather into another vector checks before anything is sent: the backend of the source,
the group of the target, and the size of a target that has one. -/
def checkTarget (v target : Shard) (count : Nat) : Except Error Unit := do
  v.requireGather .gather
  if target.seat.size ≠ 1 then .error (.invalidTarget target.seat.size)
  else if target.isBound ∧ target.size.toNat ≠ count then
    .error (.dimensionMismatch .gather count target.size.toNat)
  else .ok ()

/-- The target with the gathered entries; an unbound one is bound first. -/
def receive (target : Shard) (values : List Binary64) : Except Error Shard :=
  let bound := if target.isBound then target else target.initSize (UInt64.ofNat values.length)
  bound.withStorage (bound.storage.setLocal values)

/-- Gathers into a vector of one process. -/
def gatherInto (v target : Shard) (indices : List UInt64) : Attempt Shard := do
  Attempt.ofExcept (v.checkTarget target indices.length)
  let values ← v.gatherValues indices
  Attempt.ofExcept (target.receive values)

def gatherOnZeroTask : String := "la: gather on zero"

/-- All entries in global order on rank zero, and nothing on the other ranks. -/
def gatherOnZero (v : Shard) : Attempt (List Binary64) := do
  Attempt.ofExcept (v.requireGather .gatherOnZero)
  v.timed gatherOnZeroTask do
    let parts ← Collective.gatherRecordsTo v.seat .gatherZero 0 v.toList
    return parts.flatten

/-- The entries that this rank would have in another layout of the same size.  Every backend
can do this. -/
def redistribute (v : Shard) (layout : Partition) : Attempt (List Binary64) := do
  Attempt.ofExcept (checkGlobalSize .redistribute v.size layout.size)
  v.gatherValues layout.localRange.indices

end ShardedVector.Shard
