/-
# A desk with timers and wrappers

A `Desk` holds named timers, named wrappers and the registry that all of them record into.
`Desk.exec` carries out one request and answers it.  A request takes no time of its own: all
clock readings in it are the one reading `now`.

A slot may be made anew while it is in use: the old timer is given up only after the new one
was made, so a running one is then recorded.
-/
import ShardedVector.Slots
import ShardedVector.Timing.Wrapper

namespace ShardedVector

structure Desk where
  registry : Registry
  timers : Slots Timer
  wrappers : Slots Wrapper

namespace Desk

def empty : Desk := ⟨.empty, .empty, .empty⟩

/-! ## 1. Requests and answers -/

inductive Request where
  | new (slot : String) (task : Option String)
  | start (slot : String)
  | stop (slot : String)
  | query (slot : String)
  | drop (slot : String)
  | wrap (slot task : String)
  | call (slot : String) (call : Call)
  | inner (slot : String) (call : Call)
  | dropWrapper (slot : String)
  | timing (task : String) (mode : Registry.Reading)
  | list (mode : Registry.Reading)
  | clear

inductive Answer where
  /-- A timer was made: its name, and whether it runs. -/
  | made (task : Option String) (running : Bool)
  | running (running : Bool)
  /-- A timer was stopped: whether it runs, and whether its elapsed time and the answer of a
  second stop are the interval that the stop returned. -/
  | stopped (running sameElapsed sameAgain : Bool)
  | status (task : Option String) (running nonnegative : Bool)
  | dropped (wasThere : Bool)
  | wrapped (task : String) (phase : Phase)
  | called (seen : List Phase) (after : Phase)
  | seen (seen : List Phase)
  | entry (count : Nat) (nonnegative : Bool)
  | listing (tasks : List (String × Nat))
  | cleared
  | failed (error : Error)
  | noSlot (slot : String)

/-! ## 2. Steps on slots -/

/-- Gives up what a timer slot holds. -/
def vacate (d : Desk) (now : Sample) (slot : String) : Desk :=
  match d.timers.get? slot with
  | none => d
  | some old =>
    { d with registry := old.drop now d.registry, timers := d.timers.erase slot }

/-- Keeps a timer in a slot after giving up the one that was there. -/
def place (d : Desk) (now : Sample) (slot : String) (t : Timer) : Desk :=
  let d' := d.vacate now slot
  { d' with timers := d'.timers.set slot t }

/-- Carries out one request. -/
def exec (d : Desk) (now : Sample) : Request → Answer × Desk
  | .new slot task =>
    let t := Timer.running task now
    (.made t.task t.isRunning, d.place now slot t)
  | .start slot =>
    match d.timers.get? slot with
    | none => (.noSlot slot, d)
    | some t =>
      let t' := t.start now
      (.running t'.isRunning, { d with timers := d.timers.set slot t' })
  | .stop slot =>
    match d.timers.get? slot with
    | none => (.noSlot slot, d)
    | some t =>
      let (t', r) := t.stop now d.registry
      let (t'', r') := t'.stop now r
      (.stopped t'.isRunning (Sample.eq (t'.elapsed now) t'.last) (Sample.eq t''.last t'.last),
        { d with registry := r', timers := d.timers.set slot t'' })
  | .query slot =>
    match d.timers.get? slot with
    | none => (.noSlot slot, d)
    | some t => (.status t.task t.isRunning (Binary64.le .zero (t.elapsed now).wall), d)
  | .drop slot => (.dropped (d.timers.get? slot).isSome, d.vacate now slot)
  | .wrap slot task =>
    let w := Wrapper.ofTask task
    (.wrapped w.task w.phase, { d with wrappers := d.wrappers.set slot w })
  | .call slot c =>
    match d.wrappers.get? slot with
    | none => (.noSlot slot, d)
    | some w =>
      let s := CallState.call now ⟨w, d.registry, []⟩ c
      (.called s.seen s.wrapper.phase,
        { d with registry := s.registry, wrappers := d.wrappers.set slot s.wrapper })
  | .inner slot c =>
    match d.wrappers.get? slot with
    | none => (.noSlot slot, d)
    | some w =>
      let s := CallState.inner now ⟨w, d.registry, []⟩ c
      (.seen s.seen,
        { d with registry := s.registry, wrappers := d.wrappers.set slot s.wrapper })
  | .dropWrapper slot =>
    (.dropped (d.wrappers.get? slot).isSome, { d with wrappers := d.wrappers.erase slot })
  | .timing task mode =>
    match d.registry.read task mode with
    | (.ok time, r) => (.entry time.count time.total.isNonnegative, { d with registry := r })
    | (.error e, r) => (.failed e, { d with registry := r })
  | .list mode =>
    let (entries, r) := d.registry.list mode
    (.listing (entries.map fun e => (e.1, e.2.count)), { d with registry := r })
  | .clear => (.cleared, { d with registry := d.registry.clear })

end Desk

end ShardedVector
