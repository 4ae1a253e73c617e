/-
# Timed calls

A wrapper times every call of a callable under one name.  It goes through phases: unarmed until
its first call, recording from the start of a call, idle once a call has committed its
interval.  The phase is one cell of the wrapper, written at the start and at the end of every
call; a call made by the callable itself writes it too.

What the callable does is given as a tree of calls: `Call.node inner` is one call during which
the callable calls its own wrapper once for each tree of `inner`, in order.  Running a tree
shows the phase at each point where the callable can look: on entry, between two inner calls,
and before it returns.
-/
import ShardedVector.Timing.Timer

namespace ShardedVector

/-! ## 1. Wrappers -/

inductive Phase where
  | unarmed
  | armed
  | recording
  | idle
deriving DecidableEq

namespace Phase

/-- The name that texts show. -/
def displayName : Phase → String
  | unarmed => "Unarmed"
  | armed => "Armed"
  | recording => "Recording"
  | idle => "Idle"

end Phase

/-- A wrapper: the name its calls are recorded under, and its phase. -/
structure Wrapper where
  task : String
  phase : Phase
deriving DecidableEq

namespace Wrapper

/-- A wrapper that was never called. -/
def ofTask (task : String) : Wrapper := ⟨task, .unarmed⟩

/-- The first call arms the wrapper. -/
def arm (w : Wrapper) : Wrapper :=
  if w.phase = .unarmed then { w with phase := .armed } else w

/-- The start of a call: the wrapper records, and the timer of the call runs. -/
def enter (w : Wrapper) (now : Sample) : Wrapper × Timer :=
  ({ w.arm with phase := .recording }, (Timer.unstarted w.task).start now)

/-- The end of a call: the timer of the call is stopped, and the wrapper is idle. -/
def leave (w : Wrapper) (timer : Timer) (now : Sample) (r : Registry) : Wrapper × Registry :=
  ({ w with phase := .idle }, (timer.stop now r).2)

end Wrapper

/-! ## 2. Calls -/

/-- One call, and the calls of the same wrapper that are made while it runs. -/
inductive Call where
  | node (inner : List Call)

namespace Call

/-- A call that calls the wrapper again, so many levels deep. -/
def nested : Nat → Call
  | 0 => .node []
  | depth + 1 => .node [nested depth]

end Call

/-- A wrapper and the registry it records into, with the phases seen so far. -/
structure CallState where
  wrapper : Wrapper
  registry : Registry
  seen : List Phase
deriving DecidableEq

namespace CallState

/-- The callable looks at the phase of its wrapper. -/
def look (s : CallState) : CallState := { s with seen := s.seen ++ [s.wrapper.phase] }

mutual

/-- A call through the wrapper: its timer runs while the callable does. -/
def call (now : Sample) (s : CallState) : Call → CallState
  | .node inner =>
    let (w, timer) := s.wrapper.enter now
    let s' := body now { s with wrapper := w }.look inner
    let (w', r) := s'.wrapper.leave timer now s'.registry
    { s' with wrapper := w', registry := r }

/-- The callable after its first look: its inner calls, and a look after the last of them. -/
def body (now : Sample) (s : CallState) : List Call → CallState
  | [] => s.look
  | [c] => (call now s c).look
  | c :: d :: rest => body now (call now s c).look (d :: rest)

end

/-- The callable itself, called without the wrapper. -/
def inner (now : Sample) (s : CallState) : Call → CallState
  | .node calls => body now s.look calls

end CallState

end ShardedVector
