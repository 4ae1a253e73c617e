/-
# What can go wrong

`Error` lists the causes for which an operation on a vector, a partition, a message or a
timer is refused; `Error.message` is their wording.  A check is made before anything is
changed or sent, so a refusal names the operation and the sizes it met.
-/
import ShardedVector.Binary64.Scientific
import ShardedVector.Scalar.Basic
import ShardedVector.Storage.Backend

namespace ShardedVector

/-! ## 1. Causes -/

/-- The operations that a refusal can name. -/
inductive Operation where
  | setLocal | addLocal | axpy | multiply | divide | inner | assign
  | allToAll | gather | gatherOnZero | redistribute | seeView | changeView
  | plus | minus | times | dividedBy
  | plusAssign | minusAssign | timesAssign | dividedByAssign
deriving DecidableEq

/-- What is wrong with the ranges that the ranks of a group claim. -/
inductive LayoutFault where
  /-- The ranks sent another number of ranges than there are ranks. -/
  | count (expected received : Nat)
  /-- The range of a rank ends before it starts. -/
  | reversed (rank start stop : Nat)
  /-- The range of a rank starts before the one of the previous rank ends. -/
  | overlap (rank start stop previous : Nat)
  /-- Nobody claims the indices between two ranges. -/
  | gap (rank low high : Nat)
deriving DecidableEq

/-- What is wrong with a message to or from a peer. -/
inductive MessageFault where
  /-- A payload that does not divide into records. -/
  | ragged (bytes record : Nat)
  /-- A message of another length than the one record it must be. -/
  | length (expected actual : Nat)
  /-- A payload too long for its size header. -/
  | unannounceable (bytes : Nat)
  /-- A payload of another length than was announced. -/
  | payload (expected received : Nat)
  /-- No payload came where one was announced. -/
  | noPayload
  /-- No size header came. -/
  | noSize
  /-- The peer announced a payload too long for a size header. -/
  | oversized
  /-- The peer asked for an index that this rank does not own. -/
  | unowned (index : Nat)
  /-- The peer answered with another number of entries than it was asked for. -/
  | answers (asked received : Nat)
deriving DecidableEq

/-- The causes for which an operation is refused. -/
inductive Error where
  /-- Sizes disagree where they must match. -/
  | dimensionMismatch (op : Operation) (expected found : Nat)
  /-- The global sizes agree but the ranges of some rank differ. -/
  | incompatibleLayout (op : Operation)
  | invalidLayout (fault : LayoutFault)
  /-- A gather must end in a vector of one process. -/
  | invalidTarget (processes : Nat)
  /-- The backend lacks the capability. -/
  | unsupported (backend : Backend) (op : Operation)
  /-- The scalar has no exact counterpart among the entries. -/
  | promotion (scalar : Scalar)
  | indexOutOfRange (index size : Nat)
  | communication (neighbor : Nat) (fault : MessageFault)
  | unknownTask (task : String)
  | invalidNorm (name : String)
  | invalidApplyMode (name : String)
  | unknownBackend (name : String)
deriving DecidableEq

/-! ## 2. Wording -/

/-- The name of an operation in a text. -/
def Operation.name : Operation → String
  | setLocal => "set_local"
  | addLocal => "add_local"
  | axpy => "axpy"
  | multiply => "multiply"
  | divide => "divide"
  | inner => "inner"
  | assign => "assign"
  | allToAll => "all_to_all"
  | gather => "gather"
  | gatherOnZero => "gather_on_zero"
  | redistribute => "redistribute"
  | seeView => "local_view"
  | changeView => "local_view_mut"
  | plus => "+"
  | minus => "-"
  | times => "*"
  | dividedBy => "/"
  | plusAssign => "+="
  | minusAssign => "-="
  | timesAssign => "*="
  | dividedByAssign => "/="

/-- The digits of a number. -/
def digits (n : Nat) : String := Decimal.text n

/-- A half-open range as texts write it. -/
def rangeText (start stop : Nat) : String := "[" ++ digits start ++ ", " ++ digits stop ++ ")"

def LayoutFault.message : LayoutFault → String
  | count expected received =>
      "expected " ++ digits expected ++ " ranges, received " ++ digits received
  | reversed rank start stop =>
      "rank " ++ digits rank ++ " range " ++ rangeText start stop ++ " is reversed"
  | overlap rank start stop previous =>
      "rank " ++ digits rank ++ " range " ++ rangeText start stop ++
        " overlaps the previous rank (ends at " ++ digits previous ++ ")"
  | gap rank low high =>
      "gap " ++ rangeText low high ++ " before rank " ++ digits rank

/-- The longest payload that a size header announces. -/
def longestPayload : Nat := 0xfffffffe

def MessageFault.message (neighbor : Nat) : MessageFault → String
  | ragged bytes record =>
      "payload of " ++ digits bytes ++ " bytes is not a multiple of the " ++ digits record ++
        "-byte record"
  | length expected actual =>
      "expected " ++ digits expected ++ " bytes, got " ++ digits actual
  | unannounceable bytes =>
      "payload of " ++ digits bytes ++ " bytes exceeds the " ++ digits longestPayload ++
        "-byte header limit"
  | payload expected received =>
      "expected " ++ digits expected ++ " payload bytes, got " ++ digits received
  | noPayload => "failed to receive payload from rank " ++ digits neighbor
  | noSize => "failed to receive size from rank " ++ digits neighbor
  | oversized =>
      "rank " ++ digits neighbor ++ " announced a payload past the header limit"
  | unowned index =>
      "rank " ++ digits neighbor ++ " requested unowned index " ++ digits index
  | answers asked received =>
      "asked for " ++ digits asked ++ " entries, received " ++ digits received

/-- A scalar as the refusal to promote it shows it. -/
def Scalar.text : Scalar → String
  | int _ n => toString n
  | single x => x.text
  | double x => x.scientificText

/-- The wording of a refusal. -/
def Error.message : Error → String
  | dimensionMismatch op expected found =>
      "Dimension mismatch in " ++ op.name ++ ": expected " ++ digits expected ++ ", found " ++
        digits found
  | incompatibleLayout op =>
      "Incompatible parallel layout in " ++ op.name ++ ": local ranges differ across ranks"
  | invalidLayout fault => "Invalid index layout: " ++ fault.message
  | invalidTarget processes =>
      "Invalid gather target: target is distributed over " ++ digits processes ++ " processes"
  | unsupported backend op =>
      "Operation `" ++ op.name ++ "` is not supported by the " ++ backend.displayName ++
        " backend"
  | promotion scalar =>
      "Cannot promote " ++ scalar.kind.name ++ " scalar `" ++ scalar.text ++
        "` to f64 without loss"
  | indexOutOfRange index size =>
      "Index " ++ digits index ++ " out of range for size " ++ digits size
  | communication neighbor fault =>
      "Communication error with rank " ++ digits neighbor ++ ": " ++ fault.message neighbor
  | unknownTask task => "No timing recorded for task `" ++ task ++ "`"
  | invalidNorm name =>
      "Unknown norm type `" ++ name ++ "` (expected l1, l2 or linf)"
  | invalidApplyMode name =>
      "Unknown apply mode `" ++ name ++ "` (expected insert or add)"
  | unknownBackend name => "Unknown linear algebra backend `" ++ name ++ "`"

/-! ## 3. Choosing by name -/

/-- The backend a name stands for. -/
def Backend.ofName (name : String) : Except Error Backend :=
  match ofName? name with
  | some b => .ok b
  | none => .error (.unknownBackend name)

/-- The norm a name stands for. -/
def Norm.ofName (name : String) : Except Error Norm :=
  match ofName? name with
  | some k => .ok k
  | none => .error (.invalidNorm name)

/-- The finishing mode a name stands for. -/
def ApplyMode.ofName (name : String) : Except Error ApplyMode :=
  match ofName? name with
  | some m => .ok m
  | none => .error (.invalidApplyMode name)

end ShardedVector
