/-
# What one rank does in a conversation

A `Routine` is everything that one rank does with the outside: the messages it sends, the
messages it waits for, and the intervals it times.  It is a finite tree.  A receive branches
on what arrives, so a routine says what the rank does for every answer of its peers, and says
it before any of them has run.  How messages travel is not part of it; a group of ranks over
a shared mailbox, a rank alone and a rehearsal with a prepared inbox all run the same routine.

* A `Seat` is a rank's place in its group.
* A `Tag` keeps the messages of different conversations apart.
* An `Attempt` is a routine that may end in a refusal.
-/
import ShardedVector.Error
import ShardedVector.LittleEndian

namespace ShardedVector

/-! ## 1. Seats and tags -/

/-- A rank's place in its group.  A solitary rank has no group at all; it behaves as the one
rank of a group of size one. -/
structure Seat where
  rank : Nat
  size : Nat
  solitary : Bool
deriving DecidableEq

namespace Seat

/-- The seat of a process without a group. -/
def alone : Seat := ⟨0, 1, true⟩

/-- The seat of `rank` in a group of `size`. -/
def ofRank (rank size : Nat) : Seat := ⟨rank, size, false⟩

/-- All ranks of the group, in order. -/
def ranks (me : Seat) : List Nat := List.range me.size

/-- The other ranks of the group, in order. -/
def peers (me : Seat) : List Nat := me.ranks.filter (· != me.rank)

theorem mem_peers {me : Seat} {p : Nat} : p ∈ me.peers ↔ p < me.size ∧ p ≠ me.rank := by
  simp [peers, ranks]

end Seat

/-- The tag of a message, a 16-bit word. -/
structure Tag where
  code : UInt16
deriving DecidableEq

namespace Tag

/-- The tag `k` places on; past the last tag they begin again. -/
def offset (t : Tag) (k : UInt16) : Tag := ⟨t.code + k⟩

/-- A conversation sends its size headers on its tag and its payloads on the next one. -/
def payload (t : Tag) : Tag := t.offset 1

def partition : Tag := ⟨0x4c00⟩
def reduce : Tag := ⟨0x4c10⟩
def sumEntries : Tag := ⟨0x4c20⟩
def gatherRequest : Tag := ⟨0x4c30⟩
def gatherReply : Tag := ⟨0x4c40⟩
def gatherZero : Tag := ⟨0x4c50⟩
def apply : Tag := ⟨0x4c60⟩

theorem payload_ne (t : Tag) : t.payload ≠ t := by
  intro h
  have h' : t.code + 1 = t.code := congrArg Tag.code h
  have : (t.code + 1).toNat = t.code.toNat := congrArg UInt16.toNat h'
  have hlt := t.code.toNat_lt
  simp only [UInt16.toNat_add, UInt16.reduceToNat] at this
  omega

end Tag

/-! ## 2. Routines -/

/-- What one rank does: it ends with a value, sends a message and goes on, waits for a message
into a buffer with so much room and goes on with what came, or notes that an interval of a
task has ended.  A receive is answered by `none` when there is nobody to hear from. -/
inductive Routine (α : Type) where
  | finish (value : α)
  | send (peer : Nat) (tag : Tag) (message : Bytes) (next : Routine α)
  | receive (peer : Nat) (tag : Tag) (room : Nat) (next : Option Bytes → Routine α)
  | interval (task : String) (next : Routine α)

namespace Routine

/-- One routine after the other. -/
def bind {α β : Type} : Routine α → (α → Routine β) → Routine β
  | finish a, f => f a
  | send p t m next, f => send p t m (next.bind f)
  | receive p t room next, f => receive p t room fun answer => (next answer).bind f
  | interval task next, f => interval task (next.bind f)

instance : Monad Routine where
  pure := finish
  bind := bind

@[simp] theorem pure_eq {α : Type} (a : α) : (pure a : Routine α) = finish a := rfl

@[simp] theorem finish_bind {α β : Type} (a : α) (f : α → Routine β) :
    (finish a >>= f) = f a := rfl

@[simp] theorem send_bind {α β : Type} (p : Nat) (t : Tag) (m : Bytes) (next : Routine α)
    (f : α → Routine β) : (send p t m next >>= f) = send p t m (next >>= f) := rfl

@[simp] theorem receive_bind {α β : Type} (p : Nat) (t : Tag) (room : Nat)
    (next : Option Bytes → Routine α) (f : α → Routine β) :
    (receive p t room next >>= f) = receive p t room fun answer => next answer >>= f := rfl

@[simp] theorem interval_bind {α β : Type} (task : String) (next : Routine α)
    (f : α → Routine β) : (interval task next >>= f) = interval task (next >>= f) := rfl

theorem bind_finish {α : Type} (r : Routine α) : (r >>= finish) = r := by
  induction r with
  | finish a => rfl
  | send p t m next ih => rw [send_bind, ih]
  | receive p t room next ih => rw [receive_bind]; simp only [ih]
  | interval task next ih => rw [interval_bind, ih]

theorem bind_assoc {α β γ : Type} (r : Routine α) (f : α → Routine β) (g : β → Routine γ) :
    (r >>= f >>= g) = r >>= fun a => f a >>= g := by
  induction r with
  | finish a => rfl
  | send p t m next ih => simp only [send_bind, ih]
  | receive p t room next ih => simp only [receive_bind, ih]
  | interval task next ih => simp only [interval_bind, ih]

instance : LawfulMonad Routine :=
  LawfulMonad.mk' Routine bind_finish (fun _ _ => rfl) bind_assoc

end Routine

/-! ## 3. Attempts -/

/-- A routine that ends with a value or is refused. -/
abbrev Attempt (α : Type) := ExceptT Error Routine α

namespace Attempt

/-- An attempt whose outcome is settled without talking to anybody. -/
def ofExcept {α : Type} (outcome : Except Error α) : Attempt α := ExceptT.mk (.finish outcome)

/-- The routine of an attempt, its outcome as a value. -/
def outcome {α : Type} (a : Attempt α) : Routine (Except Error α) := a.run

/-- An attempt followed by a note that an interval of `task` has ended, however it ended. -/
def timed {α : Type} (task : String) (a : Attempt α) : Attempt α :=
  ExceptT.mk (a.run >>= fun outcome => .interval task (.finish outcome))

end Attempt

end ShardedVector
