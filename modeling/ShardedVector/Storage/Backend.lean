/-
# Backends and norms, and the names they are chosen by

A backend is a way of keeping the local entries of a vector.  It is chosen by a name whose
ASCII letters may be of either case; norms are chosen by exact names.
-/
namespace ShardedVector

/-! ## 1. Backends -/

/-- The ways of keeping entries: one contiguous array, an array behind a change counter with
remembered norms, and fixed-size blocks. -/
inductive Backend where
  | dense
  | petsc
  | tpetra
deriving DecidableEq

/-- What a backend can do beyond the operations every backend has: hand out its entries as one
window, and answer for entries anywhere in the global index space. -/
structure Capabilities where
  contiguous : Bool
  gather : Bool
deriving DecidableEq

namespace Backend

def capabilities : Backend → Capabilities
  | dense => ⟨true, true⟩
  | petsc => ⟨false, true⟩
  | tpetra => ⟨false, false⟩

/-- The backend of a vector when nothing else is asked for. -/
def standard : Backend := dense

instance : Inhabited Backend := ⟨standard⟩

/-- The name that texts show. -/
def displayName : Backend → String
  | dense => "Dense"
  | petsc => "PETSc"
  | tpetra => "Tpetra"

/-- The backend a lower-case name stands for; the contiguous one has two names. -/
def ofExactName? : String → Option Backend
  | "dense" | "eigen" => some dense
  | "petsc" => some petsc
  | "tpetra" => some tpetra
  | _ => none

/-- The lower-case name of a backend. -/
def exactName : Backend → String
  | dense => "dense"
  | petsc => "petsc"
  | tpetra => "tpetra"

/-- The backend a name stands for, its ASCII letters taken as lower case. -/
def ofName? (name : String) : Option Backend := ofExactName? (name.map Char.toLower)

end Backend

/-! ## 2. Norms -/

/-- The norms of a vector: the sum of absolute values, the root of the sum of squares, the
largest absolute value. -/
inductive Norm where
  | l1
  | l2
  | linf
deriving DecidableEq

namespace Norm

def ofName? : String → Option Norm
  | "l1" => some l1
  | "l2" => some l2
  | "linf" => some linf
  | _ => none

/-- The name that texts show. -/
def displayName : Norm → String
  | l1 => "L1"
  | l2 => "L2"
  | linf => "Linf"

end Norm

/-! ## 3. Finishing modes -/

/-- How a round of changes is finished: the changes replaced entries or were added to them. -/
inductive ApplyMode where
  | insert
  | add
deriving DecidableEq

namespace ApplyMode

def ofName? : String → Option ApplyMode
  | "insert" => some insert
  | "add" => some add
  | _ => none

/-- The name that texts show. -/
def displayName : ApplyMode → String
  | insert => "Insert"
  | add => "Add"

end ApplyMode

end ShardedVector
