/-
# A shard as text

`describe` is one line for people, followed by the entries when they are asked for;
`debugText` shows the parts of a shard.
-/
import ShardedVector.Shard.Basic

namespace ShardedVector

/-- The partition as debugging output shows it. -/
def Partition.debugText (p : Partition) : String :=
  "IndexPartition \x7b rank: " ++ digits p.rank ++ ", offsets: [" ++
    String.intercalate ", " (p.offsets.map fun o => digits o.toNat) ++ "] \x7d"

namespace Shard

/-- Backend, size and local range in one line, and the entries of this rank in a second one if
`verbose`. -/
def describe (v : Shard) (verbose : Bool) : String :=
  let line := "<" ++ v.backend.displayName ++ " vector of size " ++ digits v.size.toNat ++
    ", local range " ++ rangeText v.localRange.start.toNat v.localRange.stop.toNat ++
    " on rank " ++ digits v.seat.rank ++ ">"
  if verbose then
    line ++ "\n[" ++ String.intercalate ", " (v.toList.map Binary64.scientificText) ++ "]"
  else line

/-- The parts of the shard. -/
def debugText (v : Shard) : String :=
  let layout := match v.layout with
    | some p => "Some(" ++ p.debugText ++ ")"
    | none => "None"
  "DistributedVector \x7b rank: " ++ digits v.seat.rank ++ ", partition: " ++ layout ++
    ", storage: " ++ v.storage.debugText ++ " \x7d"

end Shard

end ShardedVector
