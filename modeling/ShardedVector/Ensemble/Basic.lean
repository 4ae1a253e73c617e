/-
# Ranks that run side by side

An `Ensemble` is a number of ranks over one mailbox.  Each rank is a `Party`: the routine it has
yet to run.  One move of one party is atomic:

* a send puts the message into the mailbox;
* a receive takes the first message of its channel, if one is there, and goes on with it; if
  the queue is left empty, removing it is a move of its own, and other parties may move in
  between;
* a note of an interval goes into the party's own log.

A party whose message has not come, or that has finished, does not move when its turn comes.
An interleaving is a list of who has the next turn (`Ensemble.run`), so a statement about every
interleaving is one about every list.
-/
import ShardedVector.Mailbox

namespace ShardedVector

/-! ## 1. Parties -/

/-- One rank while it runs: its group and place in it, the channel it took a message from and
has yet to sweep, the rest of its routine, and the tasks whose intervals it noted. -/
structure Party (α : Type) where
  group : Nat
  rank : Nat
  sweeping : Option Channel
  routine : Routine α
  intervals : List String

namespace Party

variable {α : Type}

/-- A rank before its first move. -/
def start (group rank : Nat) (routine : Routine α) : Party α :=
  ⟨group, rank, none, routine, []⟩

/-- The channel on which the party sends to a peer. -/
def outbound (p : Party α) (peer : Nat) (tag : Tag) : Channel := ⟨p.group, p.rank, peer, tag⟩

/-- The channel on which the party hears from a peer. -/
def inbound (p : Party α) (peer : Nat) (tag : Tag) : Channel := ⟨p.group, peer, p.rank, tag⟩

/-- The value of a party that has finished and swept. -/
def result? (p : Party α) : Option α :=
  match p.sweeping, p.routine with
  | none, .finish a => some a
  | _, _ => none

/-- One move over a mailbox, if the party can move. -/
def move? (p : Party α) (m : Mailbox) : Option (Party α × Mailbox) :=
  match p.sweeping with
  | some c => some ({ p with sweeping := none }, m.sweep c)
  | none =>
    match p.routine with
    | .finish _ => none
    | .send peer tag message next =>
        some ({ p with routine := next }, m.push (p.outbound peer tag) message)
    | .receive peer tag room next =>
        match m.pop? (p.inbound peer tag) with
        | none => none
        | some (message, rest) =>
            some ({ p with
              sweeping := some (p.inbound peer tag)
              routine := next (some (message.take room)) }, rest)
    | .interval task next =>
        some ({ p with routine := next, intervals := p.intervals ++ [task] }, m)

end Party

/-! ## 2. Ensembles -/

/-- Ranks that run side by side over one mailbox. -/
structure Ensemble (α : Type) where
  mailbox : Mailbox
  parties : List (Party α)

namespace Ensemble

variable {α : Type}

/-- The ranks of one fresh group, before their first moves: rank `r` runs `routine r`. -/
def ofGroup (group size : Nat) (routine : Nat → Routine α) : Ensemble α :=
  ⟨.empty, (List.range size).map fun r => Party.start group r (routine r)⟩

/-- The ensemble after party `i` has had its turn and moved. -/
def step? (s : Ensemble α) (i : Nat) : Option (Ensemble α) :=
  match s.parties[i]? with
  | none => none
  | some p =>
    match p.move? s.mailbox with
    | none => none
    | some (p', m) => some ⟨m, s.parties.set i p'⟩

/-- A turn of party `i`, in which it may be unable to move. -/
def turn (s : Ensemble α) (i : Nat) : Ensemble α := (s.step? i).getD s

/-- The ensemble after an interleaving: a list of who has the next turn. -/
def run (s : Ensemble α) (turns : List Nat) : Ensemble α := turns.foldl turn s

/-- The values of all parties, if every one has finished. -/
def results? (s : Ensemble α) : Option (List α) := s.parties.mapM Party.result?

/-- The intervals that were noted, rank by rank. -/
def intervals (s : Ensemble α) : List String := s.parties.flatMap Party.intervals

@[simp] theorem run_nil (s : Ensemble α) : s.run [] = s := rfl

@[simp] theorem run_cons (s : Ensemble α) (i : Nat) (turns : List Nat) :
    s.run (i :: turns) = (s.turn i).run turns := rfl

theorem run_append (s : Ensemble α) (turns more : List Nat) :
    s.run (turns ++ more) = (s.run turns).run more := List.foldl_append

end Ensemble

end ShardedVector
