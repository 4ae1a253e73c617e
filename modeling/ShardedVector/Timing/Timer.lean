/-
# Timers

A timer measures intervals between a start and a stop.  A named timer records each interval
under its name when it is stopped, or when it is dropped while it runs; an anonymous one
records nothing.  Starting a running timer again begins the interval anew, and stopping a
stopped one repeats the last interval and records nothing.

The clocks are read outside: every operation that needs a reading is given it as `now`.
-/
import ShardedVector.Timing.Registry

namespace ShardedVector

/-- A timer: its name, the reading at its start while it runs, and the last interval. -/
structure Timer where
  task : Option String
  started : Option Sample
  last : Sample
deriving DecidableEq

namespace Timer

/-- A named timer that does not run yet. -/
def unstarted (task : String) : Timer := ⟨some task, none, .zero⟩

/-- A running timer, with or without a name. -/
def running (task : Option String) (now : Sample) : Timer := ⟨task, some now, .zero⟩

def isRunning (t : Timer) : Bool := t.started.isSome

/-- Starts the timer, or begins its interval anew. -/
def start (t : Timer) (now : Sample) : Timer := { t with started := some now }

/-- The time since the start while it runs, and else the last interval. -/
def elapsed (t : Timer) (now : Sample) : Sample :=
  match t.started with
  | some start => now - start
  | none => t.last

/-- Stops the timer and records the interval under its name. -/
def stop (t : Timer) (now : Sample) (r : Registry) : Timer × Registry :=
  match t.started with
  | none => (t, r)
  | some start =>
    let t' := { t with started := none, last := now - start }
    match t.task with
    | some task => (t', r.record task t'.last)
    | none => (t', r)

/-- Gives the timer up; if it runs, it is stopped first. -/
def drop (t : Timer) (now : Sample) (r : Registry) : Registry := (t.stop now r).2

end Timer

end ShardedVector
