/-
# The local entries of one rank

A `Storage` keeps entries in the way of one of the backends.  The backends differ in how they
keep them, and so in a handful of primitives: reset, access to one entry, a visit of all
entries in order, a fold over them in order.  Everything else is written once over the
primitives, unless a backend has its own way: a contiguous array is filled, copied into and
summed as a whole, and it and a counted one compute their norms themselves.  All of it means
the same on every backend; `toList` is the view that says what.

Three differences between the backends can be seen from outside: only a contiguous array has a
window on its entries, a counted one shows how often it was accessed for a change, and sums
start from a zero of one sign or of the other.
-/
import ShardedVector.Storage.Blocked
import ShardedVector.Storage.Counted

namespace ShardedVector

inductive Storage where
  | dense (array : Contiguous)
  | petsc (array : Counted)
  | tpetra (blocks : Blocked)
deriving DecidableEq

namespace Storage

/-! ## 1. Primitives -/

/-- So many zeros, kept in the way of a backend. -/
def create : Backend → Nat → Storage
  | .dense, n => .dense (.ofSize n)
  | .petsc, n => .petsc (.ofSize n)
  | .tpetra, n => .tpetra (.ofSize n)

/-- A contiguous array of given entries. -/
def ofList (entries : List Binary64) : Storage := .dense ⟨entries⟩

def backend : Storage → Backend
  | .dense _ => .dense
  | .petsc _ => .petsc
  | .tpetra _ => .tpetra

def capabilities (s : Storage) : Capabilities := s.backend.capabilities

def size : Storage → Nat
  | .dense a => a.size
  | .petsc a => a.size
  | .tpetra b => b.size

/-- All entries in order. -/
def toList : Storage → List Binary64
  | .dense a => a.entries
  | .petsc a => a.entries
  | .tpetra b => b.toList

/-- Discards all entries and holds so many zeros. -/
def reset (n : Nat) : Storage → Storage
  | .dense _ => .dense (.ofSize n)
  | .petsc a => .petsc (a.reset n)
  | .tpetra _ => .tpetra (.ofSize n)

/-- A copy of the storage. -/
def copy : Storage → Storage
  | .dense a => .dense a
  | .petsc a => .petsc a.copy
  | .tpetra b => .tpetra b

def entry? : Storage → Nat → Option Binary64
  | .dense a, i => a.entry? i
  | .petsc a, i => a.entry? i
  | .tpetra b, i => b.entry? i

/-- Accesses entry `i` for a change, and changes it if it is there. -/
def modify (s : Storage) (i : Nat) (change : Binary64 → Binary64) : Storage :=
  match s with
  | .dense a => .dense (a.modify i change)
  | .petsc a => .petsc (a.modify i change)
  | .tpetra b => .tpetra (b.modify i change)

/-- Replaces every entry by what the visitor makes of its index and of it, in order. -/
def visit {m : Type → Type} [Monad m] (f : Nat → Binary64 → m Binary64) :
    Storage → m Storage
  | .dense a => do let a' ← a.visit f; pure (.dense a')
  | .petsc a => do let a' ← a.visit f; pure (.petsc a')
  | .tpetra b => do let b' ← b.visit f; pure (.tpetra b')

/-- The left fold of all entries in order.  What is folded may hold more than a number, such as
what the one who folds has noted meanwhile. -/
def fold {β : Type} (f : β → Binary64 → β) (seed : β) : Storage → β
  | .dense a => a.fold f seed
  | .petsc a => a.fold f seed
  | .tpetra b => b.fold f seed

/-- Replaces every entry by a function of its index and of it. -/
def update (f : Nat → Binary64 → Binary64) (s : Storage) : Storage :=
  Id.run (s.visit fun i x => pure (f i x))

/-! ## 2. Windows -/

/-- The window on all entries, on a backend that has one. -/
def view : Storage → Except Error (List Binary64)
  | .dense a => .ok a.entries
  | .petsc _ => .error (.unsupported .petsc .seeView)
  | .tpetra _ => .error (.unsupported .tpetra .seeView)

/-- Changes the entries through the window: entry `i` becomes `x` if it is inside. -/
def setInView (s : Storage) (i : Nat) (x : Binary64) : Except Error Storage :=
  match s with
  | .dense a => .ok (.dense (a.modify i fun _ => x))
  | .petsc _ => .error (.unsupported .petsc .changeView)
  | .tpetra _ => .error (.unsupported .tpetra .changeView)

/-! ## 3. Changing entries -/

/-- Sizes that must match. -/
def checkSize (op : Operation) (expected found : Nat) : Except Error Unit :=
  if expected = found then .ok () else .error (.dimensionMismatch op expected found)

def setAll (x : Binary64) (s : Storage) : Storage :=
  match s with
  | .dense a => .dense (a.fill x)
  | .petsc _ | .tpetra _ => s.update fun _ _ => x

def zero (s : Storage) : Storage := s.setAll .zero

/-- Multiplies every entry. -/
def scale (a : Binary64) (s : Storage) : Storage := s.update fun _ x => x * a

/-- Adds a number to every entry. -/
def shift (a : Binary64) (s : Storage) : Storage := s.update fun _ x => x + a

def abs (s : Storage) : Storage := s.update fun _ x => x.abs

/-- Accesses entry `i` for a change; the storage afterwards, and whether the entry was there. -/
def modifyEntry (s : Storage) (i : Nat) (change : Binary64 → Binary64) :
    Storage × Except Error Unit :=
  (s.modify i change, if i < s.size then .ok () else .error (.indexOutOfRange i s.size))

def setEntry (s : Storage) (i : Nat) (x : Binary64) : Storage × Except Error Unit :=
  s.modifyEntry i fun _ => x

def addEntry (s : Storage) (i : Nat) (x : Binary64) : Storage × Except Error Unit :=
  s.modifyEntry i fun y => y + x

/-- Replaces every entry by a function of it and of the entry at the same place of a list,
which must have the same length. -/
def zip (op : Operation) (f : Binary64 → Binary64 → Binary64) (s : Storage)
    (values : List Binary64) : Except Error Storage := do
  checkSize op s.size values.length
  let operand := values.toArray
  return s.update fun i y => f y (operand.getD i .zero)

def setLocal (s : Storage) (values : List Binary64) : Except Error Storage :=
  match s with
  | .dense a => .dense <$> a.setLocal values
  | .petsc _ | .tpetra _ => s.zip .setLocal (fun _ x => x) values

def addLocal (s : Storage) (values : List Binary64) : Except Error Storage :=
  s.zip .addLocal (fun y x => y + x) values

/-- Adds a multiple of another storage. -/
def axpy (s : Storage) (a : Binary64) (other : Storage) : Except Error Storage :=
  s.zip .axpy (fun y x => y + a * x) other.toList

def add (s other : Storage) : Except Error Storage := s.axpy .one other

/-- Multiplies entry by entry. -/
def multiply (s other : Storage) : Except Error Storage :=
  s.zip .multiply (fun y x => y * x) other.toList

/-- Divides entry by entry. -/
def divide (s other : Storage) : Except Error Storage :=
  s.zip .divide (fun y x => y / x) other.toList

/-! ## 4. Local reductions -/

def localSum (s : Storage) : Binary64 :=
  match s with
  | .dense a => a.sum
  | .petsc _ | .tpetra _ => s.fold (· + ·) .zero

/-- The least entry, infinity if there is none. -/
def localMin (s : Storage) : Binary64 := s.fold Binary64.min .infinity

/-- The largest entry, minus infinity if there is none. -/
def localMax (s : Storage) : Binary64 := s.fold Binary64.max .negativeInfinity

/-- The local part of a norm on a backend that has no way of its own to compute it. -/
def foldNorm (s : Storage) : Norm → Binary64
  | .l1 => s.fold (fun acc x => acc + x.abs) .zero
  | .l2 => s.fold (fun acc x => acc + x * x) .zero
  | .linf => s.fold (fun acc x => Binary64.max acc x.abs) .zero

/-- The local part of a norm, and the storage, which may remember it. -/
def normPartial (s : Storage) (k : Norm) : Binary64 × Storage :=
  match s with
  | .dense a => (a.norm k, s)
  | .petsc a => let (x, a') := a.normPartial k; (x, .petsc a')
  | .tpetra _ => (s.foldNorm k, s)

/-- The local part of the inner product. -/
def localDot (s other : Storage) : Except Error Binary64 := do
  checkSize .inner s.size other.size
  return Binary64.sum (List.zipWith (· * ·) s.toList other.toList)

/-! ## 5. Text -/

/-- The storage as debugging output shows it. -/
def debugText : Storage → String
  | .dense a => "DenseStorage \x7b len: " ++ digits a.size ++ " \x7d"
  | .petsc a =>
      "PetscStorage \x7b len: " ++ digits a.size ++ ", state: " ++ digits a.state.toNat ++ " \x7d"
  | .tpetra b =>
      "TpetraStorage \x7b len: " ++ digits b.size ++ ", blocks: " ++ digits b.blockCount ++ " \x7d"

end Storage

end ShardedVector
