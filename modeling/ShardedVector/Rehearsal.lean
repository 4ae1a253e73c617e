/-
# One rank against prepared answers

A `Rehearsal` runs the routine of one rank without its peers: an inbox of letters is prepared
beforehand, a receive takes the first letter of its peer and tag, whole, and is answered by
nothing when there is none.  What the rank sent is kept in order.  A rank without a group is
one with an empty inbox.
-/
import ShardedVector.Routine

namespace ShardedVector

/-- A message to or from a peer. -/
structure Letter where
  peer : Nat
  tag : Tag
  body : Bytes
deriving DecidableEq

/-- How a routine went: its value, the letters it sent, and the tasks whose intervals it noted,
in order. -/
structure Rehearsal (α : Type) where
  value : α
  sent : List Letter
  intervals : List String

namespace Letter

/-- Takes the first letter of a peer and tag out of an inbox. -/
def take (peer : Nat) (tag : Tag) : List Letter → Option Bytes × List Letter
  | [] => (none, [])
  | l :: rest =>
    if l.peer = peer ∧ l.tag = tag then (some l.body, rest)
    else
      let (found, others) := take peer tag rest
      (found, l :: others)

end Letter

namespace Routine

/-- Runs a routine against an inbox. -/
def rehearse {α : Type} : Routine α → List Letter → Rehearsal α
  | finish a, _ => ⟨a, [], []⟩
  | send peer tag message next, inbox =>
      let rest := next.rehearse inbox
      { rest with sent := ⟨peer, tag, message⟩ :: rest.sent }
  | receive peer tag _ next, inbox =>
      let (answer, others) := Letter.take peer tag inbox
      (next answer).rehearse others
  | interval task next, inbox =>
      let rest := next.rehearse inbox
      { rest with intervals := task :: rest.intervals }

/-- Runs a routine of a rank that has nobody to talk to. -/
def runAlone {α : Type} (r : Routine α) : Rehearsal α := r.rehearse []

end Routine

end ShardedVector
