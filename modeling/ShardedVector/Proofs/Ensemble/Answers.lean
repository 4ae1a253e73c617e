/-
# One rank against any answers

`Routine.against heard` is how a routine goes when a receive from a peer on a tag yields what
`heard` says: a message of any length, or nothing.  Nothing is said of who answers, so a statement
about every `heard` is one about every peer that fails, lies or belongs to another program.  A
conversation waits for each peer once on each of its tags, and then the peer and the tag tell one
receive from every other.

What comes of it is one of the endings that the routine has at all (`ends_against`).  One routine
after the other goes as the first one and then the second one (`against_bind`); for attempts the
second one is reached only when the first one was not refused (`against_bind_of_ok`,
`against_bind_of_error`).
-/
import ShardedVector.Proofs.Ensemble.Ends

namespace ShardedVector

variable {α β : Type}

/-! ## 1. Routines -/

namespace Rehearsal

/-- What went first, and what went after it. -/
def followedBy (first : Rehearsal α) (second : Rehearsal β) : Rehearsal β :=
  ⟨second.value, first.sent ++ second.sent, first.intervals ++ second.intervals⟩

@[simp] theorem value_followedBy (first : Rehearsal α) (second : Rehearsal β) :
    (first.followedBy second).value = second.value := rfl

@[simp] theorem sent_followedBy (first : Rehearsal α) (second : Rehearsal β) :
    (first.followedBy second).sent = first.sent ++ second.sent := rfl

end Rehearsal

namespace Routine

/-- How a routine goes when a receive from a peer on a tag yields what is given for them. -/
def against (heard : Nat → Tag → Option Bytes) : Routine α → Rehearsal α
  | finish a => ⟨a, [], []⟩
  | send peer tag message next =>
      let rest := next.against heard
      { rest with sent := ⟨peer, tag, message⟩ :: rest.sent }
  | receive peer tag _ next => (next (heard peer tag)).against heard
  | interval task next =>
      let rest := next.against heard
      { rest with intervals := task :: rest.intervals }

variable (heard : Nat → Tag → Option Bytes)

@[simp] theorem against_finish (a : α) : (finish a).against heard = ⟨a, [], []⟩ := rfl

theorem against_bind (r : Routine α) (f : α → Routine β) :
    (r >>= f).against heard =
      (r.against heard).followedBy ((f (r.against heard).value).against heard) := by
  induction r with
  | finish a => rfl
  | send peer tag message next ih =>
    rw [send_bind, against, ih]
    rfl
  | receive peer tag room next ih =>
    rw [receive_bind, against, ih]
    rfl
  | interval task next ih =>
    rw [interval_bind, against, ih]
    rfl

/-- It is one of the endings of the routine. -/
theorem ends_against (r : Routine α) :
    r.Ends (r.against heard).sent (r.against heard).value := by
  induction r with
  | finish a => exact .finish a
  | send peer tag message next ih => exact .send peer tag message ih
  | receive peer tag room next ih => exact .receive peer tag room (heard peer tag) (ih _)
  | interval task next ih => exact .interval task ih

end Routine

/-! ## 2. Attempts -/

namespace Attempt

/-- How an attempt goes against any answers. -/
def against (heard : Nat → Tag → Option Bytes) (a : Attempt α) : Rehearsal (Except Error α) :=
  a.outcome.against heard

variable {heard : Nat → Tag → Option Bytes} {a : Attempt α} {f : α → Attempt β}

theorem against_bind_of_ok {x : α} (h : (a.against heard).value = .ok x) :
    (a >>= f).against heard = (a.against heard).followedBy ((f x).against heard) := by
  rw [against, against] at *
  rw [outcome_bind, Routine.against_bind, h]
  rfl

theorem against_bind_of_error {e : Error} (h : (a.against heard).value = .error e) :
    (a >>= f).against heard =
      ⟨.error e, (a.against heard).sent, (a.against heard).intervals⟩ := by
  rw [against, against] at *
  rw [outcome_bind, Routine.against_bind, h]
  simp [Rehearsal.followedBy]

end Attempt

end ShardedVector
