/-
# The mailbox that the ranks of a process share

A message waits in the queue of its channel: the group it belongs to, the rank that sent it,
the rank it is for, and its tag.  Three atomic steps change a mailbox:

* `push` puts a message at the end of its queue, and makes the queue if there is none;
* `pop?` takes the first message of a queue;
* `sweep` removes a queue that is empty.

`queue` is the view that matters to a receiver; `holds` also tells an empty queue from a
missing one.  Each step is described by what it does to both, on its own channel and on every
other one.
-/
import ShardedVector.Routine

namespace ShardedVector

/-- The address of a queue. -/
structure Channel where
  group : Nat
  source : Nat
  target : Nat
  tag : Tag
deriving DecidableEq

/-- The queues of a process, at most one for each channel. -/
structure Mailbox where
  entries : List (Channel × List Bytes)
deriving DecidableEq

namespace Mailbox

/-! ## 1. Queues by channel -/

/-- The first queue kept under a channel. -/
def find? (c : Channel) : List (Channel × List Bytes) → Option (List Bytes)
  | [] => none
  | (d, q) :: rest => if d = c then some q else find? c rest

/-- Replaces the queue of a channel, or adds one. -/
def put (c : Channel) (q : List Bytes) :
    List (Channel × List Bytes) → List (Channel × List Bytes)
  | [] => [(c, q)]
  | (d, r) :: rest => if d = c then (c, q) :: rest else (d, r) :: put c q rest

/-- Removes every queue of a channel. -/
def erase (c : Channel) : List (Channel × List Bytes) → List (Channel × List Bytes)
  | [] => []
  | (d, r) :: rest => if d = c then erase c rest else (d, r) :: erase c rest

theorem find?_put (c d : Channel) (q : List Bytes) (es : List (Channel × List Bytes)) :
    find? d (put c q es) = if c = d then some q else find? d es := by
  induction es with
  | nil => simp [put, find?]
  | cons e rest ih =>
    obtain ⟨e, r⟩ := e
    by_cases hec : e = c
    · subst hec
      by_cases hed : e = d <;> simp [put, find?, hed]
    · by_cases hed : e = d
      · subst hed
        simp [put, find?, hec, Ne.symm hec]
      · simp [put, find?, hec, hed, ih]

theorem find?_erase (c d : Channel) (es : List (Channel × List Bytes)) :
    find? d (erase c es) = if c = d then none else find? d es := by
  induction es with
  | nil => simp [erase, find?]
  | cons e rest ih =>
    obtain ⟨e, r⟩ := e
    by_cases hec : e = c
    · subst hec
      simp only [erase, if_true, ih]
      by_cases hed : e = d <;> simp [find?, hed]
    · by_cases hed : e = d
      · subst hed
        simp [erase, find?, hec, Ne.symm hec]
      · simp [erase, find?, hec, hed, ih]

/-! ## 2. The mailbox -/

def empty : Mailbox := ⟨[]⟩

/-- Whether there is a queue for the channel, an empty one included. -/
def holds (m : Mailbox) (c : Channel) : Bool := (find? c m.entries).isSome

/-- The messages that wait on a channel, the oldest first. -/
def queue (m : Mailbox) (c : Channel) : List Bytes := (find? c m.entries).getD []

/-- Puts a message at the end of its queue. -/
def push (m : Mailbox) (c : Channel) (message : Bytes) : Mailbox :=
  ⟨put c (m.queue c ++ [message]) m.entries⟩

/-- Takes the first message of a queue; the queue stays, also when nothing is left in it. -/
def pop? (m : Mailbox) (c : Channel) : Option (Bytes × Mailbox) :=
  match m.queue c with
  | [] => none
  | message :: rest => some (message, ⟨put c rest m.entries⟩)

/-- Removes a queue if it is empty. -/
def sweep (m : Mailbox) (c : Channel) : Mailbox :=
  match m.queue c with
  | [] => ⟨erase c m.entries⟩
  | _ :: _ => m

@[simp] theorem queue_empty (c : Channel) : empty.queue c = [] := rfl

@[simp] theorem holds_empty (c : Channel) : empty.holds c = false := rfl

/-! ## 3. What the steps do -/

theorem queue_push (m : Mailbox) (c d : Channel) (message : Bytes) :
    (m.push c message).queue d = if c = d then m.queue d ++ [message] else m.queue d := by
  by_cases h : c = d
  · subst h; simp [push, queue, find?_put]
  · simp [push, queue, find?_put, h]

theorem holds_push (m : Mailbox) (c d : Channel) (message : Bytes) :
    (m.push c message).holds d = (decide (c = d) || m.holds d) := by
  by_cases h : c = d
  · subst h; simp [push, holds, find?_put]
  · simp [push, holds, find?_put, h]

theorem pop?_eq_none_iff {m : Mailbox} {c : Channel} : m.pop? c = none ↔ m.queue c = [] := by
  unfold pop?
  split <;> simp_all

theorem queue_pop {m m' : Mailbox} {c : Channel} {message : Bytes}
    (h : m.pop? c = some (message, m')) (d : Channel) :
    m.queue d = if c = d then message :: m'.queue d else m'.queue d := by
  unfold pop? at h
  split at h
  · simp at h
  · next first rest hq =>
    simp only [Option.some.injEq, Prod.mk.injEq] at h
    obtain ⟨rfl, rfl⟩ := h
    by_cases hcd : c = d
    · subst hcd; simp [queue, find?_put] at hq ⊢; exact hq
    · simp [queue, find?_put, hcd]

theorem holds_pop {m m' : Mailbox} {c : Channel} {message : Bytes}
    (h : m.pop? c = some (message, m')) (d : Channel) : m'.holds d = m.holds d := by
  unfold pop? at h
  split at h
  · simp at h
  · next first rest hq =>
    simp only [Option.some.injEq, Prod.mk.injEq] at h
    obtain ⟨rfl, rfl⟩ := h
    by_cases hcd : c = d
    · subst hcd
      simp only [holds, find?_put, if_true, Option.isSome_some]
      cases hf : find? c m.entries with
      | none => simp [queue, hf] at hq
      | some q => simp
    · simp [holds, find?_put, hcd]

theorem queue_sweep (m : Mailbox) (c d : Channel) : (m.sweep c).queue d = m.queue d := by
  unfold sweep
  split
  · next hq =>
    by_cases h : c = d
    · subst h; rw [hq]; simp [queue, find?_erase]
    · simp [queue, find?_erase, h]
  · rfl

theorem holds_sweep (m : Mailbox) (c d : Channel) :
    (m.sweep c).holds d = (m.holds d && !(decide (c = d) && (m.queue d).isEmpty)) := by
  unfold sweep
  split
  · next hq =>
    by_cases h : c = d
    · subst h; simp [holds, find?_erase, hq]
    · simp [holds, find?_erase, h]
  · next hq =>
    by_cases h : c = d
    · subst h; simp [hq]
    · simp [h]

end Mailbox

/-! ## 4. Receive handles -/

/-- What a rank keeps between asking for a message and waiting for it: the channel and the room
in its buffer.  Asking leaves the mailbox as it is; the message is chosen by the wait. -/
structure Handle where
  channel : Channel
  room : Nat
deriving DecidableEq

namespace Handle

/-- One turn of a wait: the first message that waits, cut to the room in the buffer, and the
mailbox without it; nothing if no message is there. -/
def poll? (h : Handle) (m : Mailbox) : Option (Bytes × Mailbox) :=
  match m.pop? h.channel with
  | none => none
  | some (message, rest) => some (message.take h.room, rest.sweep h.channel)

end Handle

end ShardedVector
