/-
# Which scalars enter the arithmetic of entries

A scalar is admitted by its kind first: the kind of the entries passes through, the integer
kinds of 64 bits and more are checked value by value, and every narrower kind is turned away.
A checked integer is admitted exactly when it survives the way to the nearest entry and back.
-/
import ShardedVector.Binary64.OfInt
import ShardedVector.Error

namespace ShardedVector

/-- How the scalars of a kind are admitted. -/
inductive Admission where
  | exact
  | checked
  | rejected
deriving DecidableEq

namespace ScalarKind

def admission : ScalarKind → Admission
  | f64 => .exact
  | f32 => .rejected
  | int .i64 | int .i128 | int .isize | int .u64 | int .u128 | int .usize => .checked
  | int .i8 | int .i16 | int .i32 | int .u8 | int .u16 | int .u32 => .rejected

end ScalarKind

namespace Admission

/-- The name that texts show. -/
def displayName : Admission → String
  | exact => "Exact"
  | checked => "Checked"
  | rejected => "Rejected"

end Admission

namespace IntKind

/-- The integer part of an entry, if a value of the kind can be it. -/
def ofEntry? (k : IntKind) (x : Binary64) : Option Int :=
  match x.truncate? with
  | some n => if k.holds n then some n else none
  | none => none

end IntKind

namespace Scalar

/-- The entry a scalar stands for in vector arithmetic. -/
def promote (s : Scalar) : Except Error Binary64 :=
  match s with
  | double x => .ok x
  | single _ => .error (.promotion s)
  | int k n =>
    match (ScalarKind.int k).admission with
    | .rejected => .error (.promotion s)
    | .exact | .checked =>
      let x := Binary64.ofInt n
      if k.ofEntry? x = some n then .ok x else .error (.promotion s)

end Scalar

end ShardedVector
