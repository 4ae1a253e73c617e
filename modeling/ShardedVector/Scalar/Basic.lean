/-
# Scalars and their kinds

A scalar operand of vector arithmetic comes with a number type of its own.  `Kind` lists
those types and `Kind.bounds` says which integers an integer type holds.  A `Scalar` is a
value together with its kind.
-/
import ShardedVector.Binary32
import ShardedVector.Binary64.Basic

namespace ShardedVector

/-! ## 1. Kinds -/

/-- The integer types: signed and unsigned, of a fixed width or of the width of an address. -/
inductive IntKind where
  | i8 | i16 | i32 | i64 | i128 | isize
  | u8 | u16 | u32 | u64 | u128 | usize
deriving DecidableEq

/-- The number types a scalar may have. -/
inductive ScalarKind where
  | int (kind : IntKind)
  | f32
  | f64
deriving DecidableEq

namespace IntKind

/-- Width in bits; an address takes 64. -/
def width : IntKind → Nat
  | i8 | u8 => 8
  | i16 | u16 => 16
  | i32 | u32 => 32
  | i64 | u64 | isize | usize => 64
  | i128 | u128 => 128

def isSigned : IntKind → Bool
  | i8 | i16 | i32 | i64 | i128 | isize => true
  | u8 | u16 | u32 | u64 | u128 | usize => false

/-- The least value. -/
def least (k : IntKind) : Int := if k.isSigned then -(Nat.pow 2 (k.width - 1) : Int) else 0

/-- One past the largest value. -/
def bound (k : IntKind) : Int := if k.isSigned then Nat.pow 2 (k.width - 1) else Nat.pow 2 k.width

/-- Whether a value of this type can be `n`. -/
def holds (k : IntKind) (n : Int) : Bool := decide (k.least ≤ n ∧ n < k.bound)

/-- The name of the type as error texts write it. -/
def name : IntKind → String
  | i8 => "I8" | i16 => "I16" | i32 => "I32" | i64 => "I64" | i128 => "I128" | isize => "Isize"
  | u8 => "U8" | u16 => "U16" | u32 => "U32" | u64 => "U64" | u128 => "U128" | usize => "Usize"

end IntKind

/-- The name of the type as error texts write it. -/
def ScalarKind.name : ScalarKind → String
  | int k => k.name
  | f32 => "F32"
  | f64 => "F64"

/-! ## 2. Values -/

/-- A number of one of the kinds. -/
inductive Scalar where
  | int (kind : IntKind) (value : Int)
  | single (value : Binary32)
  | double (value : Binary64)
deriving DecidableEq

namespace Scalar

def kind : Scalar → ScalarKind
  | int k _ => .int k
  | single _ => .f32
  | double _ => .f64

end Scalar

end ShardedVector
