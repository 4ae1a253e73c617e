/-
# Changes to the local entries of a shard

The changes that a rank may make to its own entries by itself.  None of them changes how many
entries there are, so a shard keeps its layout through all of them.
-/
import ShardedVector.Shard.Basic
import ShardedVector.Storage.Edit

namespace ShardedVector

inductive LocalEdit where
  | zero
  | setAll (x : Binary64)
  | abs
  | setLocal (values : List Binary64)
  | addLocal (values : List Binary64)
  | setEntry (i : Nat) (x : Binary64)
  | addEntry (i : Nat) (x : Binary64)
  | setInView (i : Nat) (x : Binary64)
deriving DecidableEq

namespace LocalEdit

/-- The change as one of the storage. -/
def toEdit : LocalEdit → Storage.Edit
  | zero => .zero
  | setAll x => .setAll x
  | abs => .abs
  | setLocal values => .setLocal values
  | addLocal values => .addLocal values
  | setEntry i x => .setEntry i x
  | addEntry i x => .addEntry i x
  | setInView i x => .setInView i x

end LocalEdit

/-- Changes the entries on this rank.  The shard is given back also when the change is refused. -/
def Shard.editLocal (v : Shard) (e : LocalEdit) : Shard × Except Error Unit :=
  let (storage, outcome) := v.storage.edit e.toEdit
  ({ v with storage := storage }, outcome)

end ShardedVector
