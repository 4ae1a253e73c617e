/-
# Changes to a storage

`Edit` lists everything that can be done to the entries of a storage from outside.  An edit
leaves a storage behind also when it is refused: the entries are then as they were, but a
counted array has counted an access to an entry that is not there.
-/
import ShardedVector.Storage.Basic

namespace ShardedVector.Storage

inductive Edit where
  | reset (size : Nat)
  | zero
  | setAll (x : Binary64)
  | scale (x : Binary64)
  | shift (x : Binary64)
  | abs
  | setEntry (i : Nat) (x : Binary64)
  | addEntry (i : Nat) (x : Binary64)
  | setLocal (values : List Binary64)
  | addLocal (values : List Binary64)
  | axpy (a : Binary64) (other : Storage)
  | add (other : Storage)
  | multiply (other : Storage)
  | divide (other : Storage)
  | update (f : Nat → Binary64 → Binary64)
  | setInView (i : Nat) (x : Binary64)

/-- The storage after an attempt to change it, and whether it was refused. -/
def settleWith (s : Storage) : Except Error Storage → Storage × Except Error Unit
  | .ok s' => (s', .ok ())
  | .error e => (s, .error e)

/-- Applies an edit. -/
def edit (s : Storage) : Edit → Storage × Except Error Unit
  | .reset n => (s.reset n, .ok ())
  | .zero => (s.zero, .ok ())
  | .setAll x => (s.setAll x, .ok ())
  | .scale x => (s.scale x, .ok ())
  | .shift x => (s.shift x, .ok ())
  | .abs => (s.abs, .ok ())
  | .setEntry i x => s.setEntry i x
  | .addEntry i x => s.addEntry i x
  | .setLocal values => s.settleWith (s.setLocal values)
  | .addLocal values => s.settleWith (s.addLocal values)
  | .axpy a other => s.settleWith (s.axpy a other)
  | .add other => s.settleWith (s.add other)
  | .multiply other => s.settleWith (s.multiply other)
  | .divide other => s.settleWith (s.divide other)
  | .update f => (s.update f, .ok ())
  | .setInView i x => s.settleWith (s.setInView i x)

end ShardedVector.Storage
