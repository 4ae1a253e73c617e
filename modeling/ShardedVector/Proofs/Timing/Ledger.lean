/-
# Intervals since the last clearing

A registry is shared by everything that is timed, and it may be cleared at any time, in whole or
task by task, while timers run.  This module says what it holds after any requests at a desk.

* A `Mark` is what happens to the intervals of tasks: one ends, or a task is forgotten.
  `Mark.since` counts the intervals of a task that ended since the task was last forgotten.
* A `Ledger` keeps the book that a request should make: which timers there are and which of them
  run, what the wrappers time, and the marks.  An interval ends where a named timer goes from
  running to not running, and once for every call of a wrapper.
* `Agrees` says that a desk is as its ledger says, and `Agrees.exec` that every request keeps it so.

`counts_intervals` is what this means to those who read the registry.
-/
import Mathlib.Logic.Function.Basic
import ShardedVector.Proofs.Timing.Registry
import ShardedVector.Timing.Desk

namespace ShardedVector

/-! ## 1. Marks -/

/-- What happens to the intervals of tasks. -/
inductive Mark where
  | ended (task : String)
  | forgotten (task : String)
  | allForgotten
deriving DecidableEq

namespace Mark

/-- Whether the intervals of a task are forgotten. -/
def forgets (task : String) : Mark → Bool
  | ended _ => false
  | forgotten t => decide (t = task)
  | allForgotten => true

/-- The intervals of a task that ended since it was last forgotten. -/
def since (task : String) (marks : List Mark) : Nat :=
  (marks.reverse.takeWhile fun m => !m.forgets task).count (.ended task)

variable (task : String) (marks : List Mark)

/-- They are not more than all intervals of the task. -/
theorem since_le_count : since task marks ≤ marks.count (.ended task) := by
  have hle := (List.takeWhile_sublist (l := marks.reverse) fun m => !m.forgets task).count_le
    (.ended task)
  rwa [List.count_reverse] at hle

@[simp] theorem since_ended (t : String) :
    since task (marks ++ [.ended t]) = since task marks + if t = task then 1 else 0 := by
  rw [since, List.reverse_concat, List.takeWhile_cons_of_pos rfl, List.count_cons]
  simp [since]

@[simp] theorem since_forgotten (t : String) :
    since task (marks ++ [.forgotten t]) = if t = task then 0 else since task marks := by
  rw [since, List.reverse_concat]
  by_cases ht : t = task <;> simp [forgets, ht, since]

@[simp] theorem since_allForgotten : since task (marks ++ [.allForgotten]) = 0 := by
  rw [since, List.reverse_concat]
  rfl

@[simp] theorem since_replicate (t : String) (n : Nat) :
    since task (marks ++ List.replicate n (.ended t)) =
      since task marks + if t = task then n else 0 := by
  induction n with
  | zero => simp
  | succ n ih =>
    rw [List.replicate_succ', ← List.append_assoc, since_ended, ih]
    split <;> rfl

end Mark

/-! ## 2. The book of a desk -/

mutual

/-- How many calls of the wrapper there are in a call, itself included. -/
def Call.size : Call → Nat
  | .node inner => Call.sizes inner + 1

def Call.sizes : List Call → Nat
  | [] => 0
  | c :: rest => c.size + Call.sizes rest

end

theorem Call.size_nested (depth : Nat) : (nested depth).size = depth + 1 := by
  induction depth with
  | zero => rfl
  | succ depth ih => rw [nested, size, sizes, sizes, ih]

/-- A timer as its book has it: its name, and whether it runs. -/
structure Clock where
  name : Option String
  running : Bool
deriving DecidableEq

/-- The mark that is made when a timer stops. -/
def Clock.ending : Clock → List Mark
  | ⟨some task, true⟩ => [.ended task]
  | _ => []

/-- The book of a desk: the timers, the tasks of the wrappers, and the marks. -/
structure Ledger where
  timers : String → Option Clock
  wrappers : String → Option String
  marks : List Mark

namespace Ledger

open Desk (Request)

def blank : Ledger := ⟨fun _ => none, fun _ => none, []⟩

/-- The mark that is made when the timer of a slot stops. -/
def ending (l : Ledger) (slot : String) : List Mark := (l.timers slot).elim [] Clock.ending

/-- The marks of so many calls of a wrapper. -/
def calls (l : Ledger) (slot : String) (n : Nat) : List Mark :=
  (l.wrappers slot).elim [] fun task => List.replicate n (.ended task)

/-- The slot holds another timer, or none, and some marks are made. -/
def turn (l : Ledger) (slot : String) (clock : Option Clock) (marks : List Mark) : Ledger :=
  { l with timers := Function.update l.timers slot clock, marks := l.marks ++ marks }

section Turn

variable (l : Ledger) (slot : String) (clock : Option Clock) (marks : List Mark)

theorem timers_turn (other : String) :
    (l.turn slot clock marks).timers other = if slot = other then clock else l.timers other :=
  (Function.update_apply ..).trans (if_congr eq_comm rfl rfl)

theorem turn_turn (clock' : Option Clock) (more : List Mark) :
    (l.turn slot clock marks).turn slot clock' more = l.turn slot clock' (marks ++ more) := by
  rw [turn, turn, turn, Function.update_idem, List.append_assoc]

theorem turn_eq_self {clock : Option Clock} (h : l.timers slot = clock) :
    l.turn slot clock [] = l := by
  rw [turn, ← h, Function.update_eq_self, List.append_nil]

end Turn

/-- What a request does to the book. -/
def step (l : Ledger) : Request → Ledger
  | .new slot task => l.turn slot (some ⟨task, true⟩) (l.ending slot)
  | .start slot => l.turn slot ((l.timers slot).map fun c => { c with running := true }) []
  | .stop slot => l.turn slot ((l.timers slot).map fun c => { c with running := false })
      (l.ending slot)
  | .query _ => l
  | .drop slot => l.turn slot none (l.ending slot)
  | .wrap slot task => { l with wrappers := Function.update l.wrappers slot (some task) }
  | .call slot c => { l with marks := l.marks ++ l.calls slot c.size }
  -- the callable itself is no call of the wrapper, but it makes those that are inside of it
  | .inner slot c => { l with marks := l.marks ++ l.calls slot (c.size - 1) }
  | .dropWrapper slot => { l with wrappers := Function.update l.wrappers slot none }
  | .timing task .clear => { l with marks := l.marks ++ [.forgotten task] }
  | .list .clear | .clear => { l with marks := l.marks ++ [.allForgotten] }
  | .timing _ .keep | .list .keep => l

/-- The book after a list of requests. -/
def run (l : Ledger) (requests : List Request) : Ledger := requests.foldl step l

end Ledger

/-! ## 3. Calls record -/

namespace CallState

variable (now : Sample)

/-- Between two states so many intervals were recorded, all under the name of the wrapper. -/
structure Records (s s' : CallState) (n : Nat) : Prop where
  task : s'.wrapper.task = s.wrapper.task
  registry : s'.registry =
    s.registry.recordAll (List.replicate n (s.wrapper.task, now - now))

variable {now}

theorem records_look (s : CallState) : Records now s s.look 0 := ⟨rfl, rfl⟩

theorem Records.trans {s s' s'' : CallState} {m n : Nat} (h : Records now s s' m)
    (h' : Records now s' s'' n) : Records now s s'' (m + n) := by
  refine ⟨h'.task.trans h.task, ?_⟩
  rw [h'.registry, h.registry, h.task, List.replicate_add, Registry.recordAll_append]

mutual

/-- **A call records one interval for every call that is in it.** -/
theorem records_call (s : CallState) : ∀ c : Call, Records now s (call now s c) c.size
  | .node inner => by
    have harm : s.wrapper.arm.task = s.wrapper.task := by
      rw [Wrapper.arm]
      split <;> rfl
    let entered : CallState := { s with wrapper := (s.wrapper.enter now).1 }
    have hentered : Records now s entered 0 := ⟨harm, rfl⟩
    have hbody := (hentered.trans (records_look entered)).trans (records_body entered.look inner)
    rw [Call.size, Nat.zero_add] at *
    exact hbody.trans (n := 1) ⟨rfl, congrArg (Registry.record _ · _) hbody.task.symm⟩

theorem records_body (s : CallState) :
    ∀ cs : List Call, Records now s (body now s cs) (Call.sizes cs)
  | [] => records_look s
  | [c] => (records_call s c).trans (records_look _)
  | c :: d :: rest => by
    rw [Call.sizes]
    exact ((records_call s c).trans (records_look _)).trans (records_body _ (d :: rest))

end

theorem records_inner (s : CallState) (c : Call) : Records now s (inner now s c) (c.size - 1) := by
  obtain ⟨calls⟩ := c
  have hbody : Records now s (inner now s (.node calls)) (0 + Call.sizes calls) :=
    (records_look s).trans (records_body s.look calls)
  rwa [Nat.zero_add] at hbody

end CallState

/-! ## 4. The desk agrees with its book -/

namespace Timer

/-- A timer as its book has it. -/
def clock (t : Timer) : Clock := ⟨t.task, t.isRunning⟩

variable (t : Timer)

theorem ending_clock : t.clock.ending = t.due.toList.map .ended := by
  obtain ⟨task, started, last⟩ := t
  cases started <;> cases task <;> rfl

theorem since_ending (marks : List Mark) (task : String) :
    Mark.since task (marks ++ t.clock.ending) =
      Mark.since task marks + if t.due = some task then 1 else 0 := by
  rw [ending_clock]
  cases t.due with
  | none => simp
  | some name => simp

@[simp] theorem clock_stop (now : Sample) (r : Registry) :
    (t.stop now r).1.clock = { t.clock with running := false } := by
  simp [clock]

@[simp] theorem due_stop (now : Sample) (r : Registry) : (t.stop now r).1.due = none := by
  simp [due]

theorem ending_clock_stop (now : Sample) (r : Registry) : (t.stop now r).1.clock.ending = [] := by
  rw [ending_clock, due_stop]
  rfl

/-- A timer that has no mark to make records nothing. -/
theorem stop_snd_of_ending (now : Sample) (r : Registry) (h : t.clock.ending = []) :
    (t.stop now r).2 = r := by
  rw [ending_clock] at h
  rw [stop_snd]
  cases hdue : t.due with
  | none => rfl
  | some task =>
    rw [hdue] at h
    cases h

end Timer

namespace Desk

variable {d : Desk} {l : Ledger} (now : Sample)

/-- A desk is as its book says. -/
structure Agrees (d : Desk) (l : Ledger) : Prop where
  timers : ∀ slot, (d.timers.get? slot).map Timer.clock = l.timers slot
  wrappers : ∀ slot, (d.wrappers.get? slot).map Wrapper.task = l.wrappers slot
  orderly : d.registry.Orderly
  counts : ∀ task, d.registry.count task = Mark.since task l.marks

theorem exec_timing_fst (d : Desk) (now : Sample) (task : String) (mode : Registry.Reading) :
    (d.exec now (.timing task mode)).1 =
      ( d.registry.entry? task).elim (.failed (.unknownTask task)) fun time =>
        .entry time.count time.total.isNonnegative := by
  have hread := d.registry.read_fst task mode
  rw [exec]
  cases hentry : d.registry.entry? task <;> rw [hentry] at hread <;> split <;> simp_all

/-- A reading of one task changes the registry at most. -/
theorem exec_timing_snd (d : Desk) (now : Sample) (task : String) (mode : Registry.Reading) :
    (d.exec now (.timing task mode)).2 = { d with registry := (d.registry.read task mode).2 } := by
  rw [exec]
  split <;> next hread => rw [hread]

theorem agrees_empty : empty.Agrees .blank :=
  ⟨fun _ => rfl, fun _ => rfl, Registry.orderly_empty, fun _ => rfl⟩

namespace Agrees

variable (h : d.Agrees l)

include h

theorem ending_eq (slot : String) :
    l.ending slot = (d.timers.get? slot).elim [] fun t => t.clock.ending := by
  rw [Ledger.ending, ← h.timers]
  cases d.timers.get? slot <;> rfl

theorem calls_eq (slot : String) (n : Nat) :
    l.calls slot n = (d.wrappers.get? slot).elim [] fun w => List.replicate n (.ended w.task) := by
  rw [Ledger.calls, ← h.wrappers]
  cases d.wrappers.get? slot <;> rfl

/-- **To give a timer up makes its mark.** -/
theorem vacate (slot : String) : (d.vacate now slot).Agrees (l.turn slot none (l.ending slot)) := by
  rw [Desk.vacate, h.ending_eq]
  split
  · next hnone =>
    refine ⟨fun other => ?_, h.wrappers, h.orderly, fun task => ?_⟩
    · rw [l.timers_turn]
      split
      · next hother => rw [← hother, hnone, Option.map_none]
      · exact h.timers other
    · rw [hnone, Ledger.turn, Option.elim_none, List.append_nil]
      exact h.counts task
  · next old hold =>
    refine ⟨fun other => ?_, h.wrappers, h.orderly.stop old now, fun task => ?_⟩
    · rw [Slots.get?_erase, l.timers_turn]
      split
      · rfl
      · exact h.timers other
    · rw [hold, Ledger.turn, Option.elim_some, old.since_ending, ← h.counts]
      exact h.orderly.count_stop old now task

/-- A timer is kept in a slot, and what was done with it before was recorded. -/
theorem keep {r : Registry} {marks : List Mark} (slot : String) (t : Timer) (horderly : r.Orderly)
    (hcounts : ∀ task, r.count task = Mark.since task (l.marks ++ marks)) :
    Desk.Agrees { d with registry := r, timers := d.timers.set slot t }
      (l.turn slot (some t.clock) marks) := by
  refine ⟨fun other => ?_, h.wrappers, horderly, hcounts⟩
  rw [Slots.get?_set, l.timers_turn]
  split
  · rfl
  · exact h.timers other

theorem place (slot : String) (t : Timer) :
    (d.place now slot t).Agrees (l.turn slot (some t.clock) (l.ending slot)) := by
  have hvacant := h.vacate now slot
  have hcounts (task : String) : (d.vacate now slot).registry.count task =
      Mark.since task ((l.turn slot none (l.ending slot)).marks ++ []) := by
    rw [List.append_nil, hvacant.counts]
  have hplaced := hvacant.keep slot t hvacant.orderly hcounts
  rwa [l.turn_turn, List.append_nil] at hplaced

/-- Another registry, with the marks that say what was recorded or forgotten. -/
theorem mark {r : Registry} {marks : List Mark} (horderly : r.Orderly)
    (hcounts : ∀ task, r.count task = Mark.since task (l.marks ++ marks)) :
    Desk.Agrees { d with registry := r } { l with marks := l.marks ++ marks } :=
  ⟨h.timers, h.wrappers, horderly, hcounts⟩

/-- Calls of a wrapper make a mark for every interval that they record. -/
theorem calls {slot : String} {w : Wrapper} {s : CallState} {n : Nat}
    (hw : d.wrappers.get? slot = some w) (hs : CallState.Records now ⟨w, d.registry, []⟩ s n) :
    Desk.Agrees { d with registry := s.registry, wrappers := d.wrappers.set slot s.wrapper }
      { l with marks := l.marks ++ l.calls slot n } := by
  have hregistry : s.registry = d.registry.recordAll (List.replicate n (w.task, now - now)) :=
    hs.registry
  refine ⟨h.timers, fun other => ?_, ?_, fun task => ?_⟩
  · rw [Slots.get?_set, ← h.wrappers]
    split
    · next hother => rw [← hother, hw, Option.map_some, Option.map_some, hs.task]
    · rfl
  · rw [hregistry]
    exact h.orderly.recordAll _
  · rw [h.calls_eq, hw, Option.elim_some, Mark.since_replicate, hregistry,
      h.orderly.count_recordAll, List.map_replicate, List.count_replicate, h.counts]
    simp only [beq_iff_eq]

/-- An empty slot has no timer in the book either. -/
theorem turn_of_vacant {slot : String} (hnone : d.timers.get? slot = none) :
    d.Agrees (l.turn slot none []) := by
  have hbook : l.timers slot = none := by rw [← h.timers, hnone, Option.map_none]
  rwa [l.turn_eq_self slot hbook]

/-- The wrapper of a slot is exchanged. -/
theorem setWrapper {ws : Slots Wrapper} {slot : String} {task : Option String}
    (hws : ∀ other, (ws.get? other).map Wrapper.task =
      if slot = other then task else (d.wrappers.get? other).map Wrapper.task) :
    Desk.Agrees { d with wrappers := ws }
      { l with wrappers := Function.update l.wrappers slot task } := by
  refine ⟨h.timers, fun other => ?_, h.orderly, h.counts⟩
  rw [hws, h.wrappers]
  exact ((Function.update_apply ..).trans (if_congr eq_comm rfl rfl)).symm

/-- **Every request keeps the desk as its book says.** -/
theorem exec (request : Request) : (d.exec now request).2.Agrees (l.step request) := by
  cases request with
  | new slot task => exact h.place now slot (.running task now)
  | start slot =>
    rw [Desk.exec, Ledger.step, ← h.timers]
    split
    · next hnone =>
      rw [hnone]
      exact h.turn_of_vacant hnone
    · next t ht =>
      rw [ht]
      exact h.keep slot (t.start now) h.orderly (by simpa using h.counts)
  | stop slot =>
    rw [Desk.exec, Ledger.step, ← h.timers, h.ending_eq]
    split
    · next hnone =>
      rw [hnone]
      exact h.turn_of_vacant hnone
    · next t ht =>
      -- the second stop finds a timer that does not run
      let stopped := (t.stop now d.registry).1
      have horderly := h.orderly.stop t now
      have hcounts (task : String) : (stopped.stop now (t.stop now d.registry).2).2.count task =
          Mark.since task (l.marks ++ t.clock.ending) := by
        rw [horderly.count_stop, t.due_stop, if_neg nofun, Nat.add_zero, h.orderly.count_stop,
          t.since_ending, h.counts]
      have hkept := h.keep slot (stopped.stop now (t.stop now d.registry).2).1
        (horderly.stop stopped now) hcounts
      rw [Timer.clock_stop, Timer.clock_stop] at hkept
      rw [ht]
      exact hkept
  | query slot =>
    rw [Desk.exec]
    split <;> exact h
  | drop slot => exact h.vacate now slot
  | wrap slot task =>
    refine h.setWrapper fun other => ?_
    rw [Slots.get?_set]
    split <;> rfl
  | call slot c =>
    rw [Desk.exec, Ledger.step]
    split
    · next hnone =>
      rw [h.calls_eq, hnone, Option.elim_none, List.append_nil]
      exact h
    · next w hw => exact h.calls now hw (CallState.records_call _ c)
  | inner slot c =>
    rw [Desk.exec, Ledger.step]
    split
    · next hnone =>
      rw [h.calls_eq, hnone, Option.elim_none, List.append_nil]
      exact h
    · next w hw => exact h.calls now hw (CallState.records_inner _ c)
  | dropWrapper slot =>
    refine h.setWrapper fun other => ?_
    rw [Slots.get?_erase]
    split <;> rfl
  | timing task mode =>
    rw [d.exec_timing_snd]
    cases mode with
    | keep =>
      rw [Registry.read_keep_snd]
      exact h
    | clear =>
      rw [Registry.read_clear_snd]
      refine h.mark (h.orderly.remove task) fun other => ?_
      rw [Registry.count_remove, Mark.since_forgotten, h.counts]
  | list mode =>
    cases mode with
    | keep => exact h
    | clear =>
      rw [Desk.exec, Registry.list_clear]
      exact h.mark Registry.orderly_empty fun task => (Mark.since_allForgotten ..).symm
  | clear => exact h.mark Registry.orderly_empty fun task => (Mark.since_allForgotten ..).symm

end Agrees

/-! ## 5. What the registry says -/

/-- The desk after requests, each at its own reading of the clocks. -/
def after (d : Desk) (history : List (Sample × Request)) : Desk :=
  history.foldl (fun d x => (d.exec x.1 x.2).2) d

theorem Agrees.after (h : d.Agrees l) (history : List (Sample × Request)) :
    (d.after history).Agrees (l.run (history.map Prod.snd)) := by
  induction history generalizing d l with
  | nil => exact h
  | cons x rest ih => exact ih (h.exec x.1 x.2)

/-- In the slot there is no timer that has something to record: it is empty, or its timer does not
run or has no name. -/
def Still (d : Desk) (slot : String) : Prop := ∀ t, d.timers.get? slot = some t → t.due = none

/-- The requests that neither add nor forget anything. -/
def Quiet (d : Desk) : Request → Prop
  | .new slot _ | .stop slot | .drop slot => d.Still slot
  | .call slot _ => d.wrappers.get? slot = none
  | .inner slot c => d.wrappers.get? slot = none ∨ c = .node []
  | .timing _ mode | .list mode => mode = .keep
  | .clear => False
  | .start _ | .query _ | .wrap _ _ | .dropWrapper _ => True

namespace Agrees

variable (h : d.Agrees l)

include h

theorem registry_vacate {slot : String} (hending : l.ending slot = []) :
    (d.vacate now slot).registry = d.registry := by
  rw [h.ending_eq] at hending
  rw [Desk.vacate]
  split
  · rfl
  · next old hold =>
    rw [hold] at hending
    exact old.stop_snd_of_ending now d.registry hending

theorem registry_calls {slot : String} {w : Wrapper} {s : CallState} {n : Nat}
    (hw : d.wrappers.get? slot = some w) (hs : CallState.Records now ⟨w, d.registry, []⟩ s n)
    (hcalls : l.calls slot n = []) : s.registry = d.registry := by
  rw [h.calls_eq, hw] at hcalls
  obtain rfl : n = 0 := List.replicate_eq_nil_iff _ |>.mp hcalls
  exact hs.registry

/-- **A request that makes no mark leaves the registry as it is.** -/
theorem registry_exec {request : Request} (hmarks : (l.step request).marks = l.marks) :
    (d.exec now request).2.registry = d.registry := by
  cases request with
  | new slot task => exact h.registry_vacate now (List.append_right_eq_self.mp hmarks)
  | drop slot => exact h.registry_vacate now (List.append_right_eq_self.mp hmarks)
  | start slot =>
    rw [Desk.exec]
    split <;> rfl
  | stop slot =>
    have hending : l.ending slot = [] := List.append_right_eq_self.mp hmarks
    rw [h.ending_eq] at hending
    rw [Desk.exec]
    split
    · rfl
    · next t ht =>
      rw [ht] at hending
      exact (Timer.stop_snd_of_ending _ now _ (t.ending_clock_stop now d.registry)).trans
        (t.stop_snd_of_ending now d.registry hending)
  | query slot =>
    rw [Desk.exec]
    split <;> rfl
  | wrap slot task => rfl
  | dropWrapper slot => rfl
  | call slot c =>
    have hcalls : l.calls slot c.size = [] := List.append_right_eq_self.mp hmarks
    rw [Desk.exec]
    split
    · rfl
    · next w hw => exact h.registry_calls now hw (CallState.records_call _ c) hcalls
  | inner slot c =>
    have hcalls : l.calls slot (c.size - 1) = [] := List.append_right_eq_self.mp hmarks
    rw [Desk.exec]
    split
    · rfl
    · next w hw => exact h.registry_calls now hw (CallState.records_inner _ c) hcalls
  | timing task mode =>
    cases mode with
    | keep => rw [d.exec_timing_snd, Registry.read_keep_snd]
    | clear => simp [Ledger.step] at hmarks
  | list mode =>
    cases mode with
    | keep => rfl
    | clear => simp [Ledger.step] at hmarks
  | clear => simp [Ledger.step] at hmarks

/-- A quiet request makes no mark. -/
theorem marks_step {request : Request} (hquiet : d.Quiet request) :
    (l.step request).marks = l.marks := by
  have hending {slot : String} (hslot : d.Still slot) : l.marks ++ l.ending slot = l.marks := by
    rw [h.ending_eq]
    cases ht : d.timers.get? slot with
    | none => exact List.append_nil _
    | some t =>
      rw [Option.elim_some, t.ending_clock, hslot t ht]
      exact List.append_nil _
  have hcalls {slot : String} {n : Nat} (hnone : d.wrappers.get? slot = none ∨ n = 0) :
      l.marks ++ l.calls slot n = l.marks := by
    rw [h.calls_eq]
    rcases hnone with hnone | rfl
    · rw [hnone]
      exact List.append_nil _
    · cases d.wrappers.get? slot <;> exact List.append_nil _
  cases request with
  | new slot task => exact hending hquiet
  | stop slot => exact hending hquiet
  | drop slot => exact hending hquiet
  | call slot c => exact hcalls (.inl hquiet)
  | inner slot c =>
    refine hcalls (hquiet.imp_right ?_)
    rintro rfl
    rfl
  | start slot => exact List.append_nil _
  | query slot | wrap slot task | dropWrapper slot => rfl
  | timing task mode =>
    obtain rfl : mode = .keep := hquiet
    rfl
  | list mode =>
    obtain rfl : mode = .keep := hquiet
    rfl
  | clear => exact absurd hquiet id

/-- **A call adds an interval for every call that is in it.** -/
theorem count_call {slot : String} {w : Wrapper} (hw : d.wrappers.get? slot = some w) (c : Call)
    (task : String) : (d.exec now (.call slot c)).2.registry.count task =
      d.registry.count task + if w.task = task then c.size else 0 := by
  rw [(h.exec now (.call slot c)).counts, Ledger.step, h.calls_eq, hw, Option.elim_some,
    Mark.since_replicate, h.counts]

/-- A reading of a task answers its count, or fails where there is nothing to read. -/
theorem exists_timing (task : String) (mode : Registry.Reading) :
    ∃ nonnegative, (d.exec now (.timing task mode)).1 =
      if Mark.since task l.marks = 0 then .failed (.unknownTask task)
      else .entry (Mark.since task l.marks) nonnegative := by
  rw [d.exec_timing_fst, ← h.counts]
  cases hentry : d.registry.entry? task with
  | none => exact ⟨true, (if_pos (h.orderly.entry?_eq_none_iff.mp hentry)).symm⟩
  | some time =>
    have hheld : d.registry.count task ≠ 0 := fun hzero => by
      rw [h.orderly.entry?_eq_none_iff.mpr hzero] at hentry
      cases hentry
    refine ⟨time.total.isNonnegative, ?_⟩
    rw [if_neg hheld, Registry.count_eq_of_entry_eq hentry, Option.elim_some]

/-- A reading of everything answers the tasks that have intervals, each once, in ascending order of
names. -/
theorem exists_listing : ∃ tasks : List (String × Nat),
    (∀ mode, (d.exec now (.list mode)).1 = .listing tasks) ∧
      tasks.Pairwise (fun x y => x.1 < y.1) ∧
      ∀ task n, (task, n) ∈ tasks ↔ n = Mark.since task l.marks ∧ 0 < n := by
  refine ⟨d.registry.entries.map fun e => (e.1, e.2.count), fun mode => ?_, ?_, fun task n => ?_⟩
  · cases mode <;> rfl
  · exact List.pairwise_map.mpr h.orderly.ascending
  · rw [← h.counts]
    constructor
    · intro hmem
      obtain ⟨⟨name, time⟩, he, heq⟩ := List.mem_map.mp hmem
      obtain ⟨rfl, rfl⟩ := Prod.mk.inj heq
      have hentry := h.orderly.mem_entries_iff.mp he
      exact ⟨(Registry.count_eq_of_entry_eq hentry).symm, h.orderly.positive _ he⟩
    · rintro ⟨rfl, hpos⟩
      obtain ⟨time, hentry⟩ : ∃ time, d.registry.entry? task = some time := by
        refine Option.ne_none_iff_exists'.mp fun hnone => ?_
        exact Nat.ne_of_gt hpos (h.orderly.entry?_eq_none_iff.mp hnone)
      rw [Registry.count_eq_of_entry_eq hentry]
      exact List.mem_map_of_mem (h.orderly.mem_entries_iff.mpr hentry)

end Agrees

/-- **The registry counts the intervals since the last clearing**, after any requests at a desk that
was empty.

Timers run as their book says, and a task has an entry exactly when an interval of it ended since it
was last forgotten; its count is how many did, and the word that it is kept in shows it if fewer
than 2^64 intervals of the task ended at all.  Readings answer these counts, and a reading of
everything lists each task that has one, once, in ascending order of names.  A call that is nested
adds one interval for every level.  A quiet request, such as to start a timer that runs or to give
one up that does not, leaves the registry as it is; and no reading or clearing changes a timer or a
wrapper. -/
theorem counts_intervals (history : List (Sample × Request)) (now : Sample) :
    let d := empty.after history
    let l := Ledger.blank.run (history.map Prod.snd)
    (∀ slot, (d.timers.get? slot).map Timer.clock = l.timers slot ∧
      (d.wrappers.get? slot).map Wrapper.task = l.wrappers slot) ∧
    (∀ task, d.registry.count task = Mark.since task l.marks ∧
      (d.registry.entry? task = none ↔ Mark.since task l.marks = 0) ∧
      (l.marks.count (.ended task) < 2 ^ 64 →
        (d.registry.held task).word.toNat = Mark.since task l.marks) ∧
      ∀ mode, ∃ nonnegative, (d.exec now (.timing task mode)).1 =
        if Mark.since task l.marks = 0 then .failed (.unknownTask task)
        else .entry (Mark.since task l.marks) nonnegative) ∧
    (∃ tasks : List (String × Nat),
      (∀ mode, (d.exec now (.list mode)).1 = .listing tasks) ∧
      tasks.Pairwise (fun x y => x.1 < y.1) ∧
      ∀ task n, (task, n) ∈ tasks ↔ n = Mark.since task l.marks ∧ 0 < n) ∧
    (∀ slot w, d.wrappers.get? slot = some w → ∀ depth task,
      (d.exec now (.call slot (.nested depth))).2.registry.count task =
        d.registry.count task + if w.task = task then depth + 1 else 0) ∧
    (∀ request, d.Quiet request → (d.exec now request).2.registry = d.registry) ∧
    ∀ task mode request, request ∈ [.timing task mode, .list mode, .clear] →
      (d.exec now request).2 = { d with registry := (d.exec now request).2.registry } := by
  intro d l
  have h : d.Agrees l := agrees_empty.after history
  refine ⟨fun slot => ⟨h.timers slot, h.wrappers slot⟩, fun task => ⟨h.counts task, ?_, ?_, ?_⟩,
    h.exists_listing now, fun slot w hw depth task => ?_,
    fun request hquiet => h.registry_exec now (h.marks_step hquiet), ?_⟩
  · rw [← h.counts]
    exact h.orderly.entry?_eq_none_iff
  · intro hfew
    have hle := Mark.since_le_count task l.marks
    rw [← h.counts] at hle ⊢
    exact TaskTime.toNat_word (Nat.lt_of_le_of_lt hle hfew)
  · exact h.exists_timing now task
  · rw [h.count_call now hw, Call.size_nested]
  · intro task mode request hrequest
    simp only [List.mem_cons, List.not_mem_nil, or_false] at hrequest
    rcases hrequest with rfl | rfl | rfl
    · rw [d.exec_timing_snd]
    · rfl
    · rfl

/-- A timer that is started twice, stopped and given up has one interval; a call that calls itself
twice has three, of which a clearing in between forgets none that come later; what has no name has
none. -/
theorem counts_intervals_restarted :
    let history : List (Sample × Request) := [
      (.zero, .new "a" (some "x")), (.zero, .start "a"), (.zero, .new "b" none),
      (.zero, .stop "a"), (.zero, .drop "a"), (.zero, .drop "b"),
      (.zero, .new "a" (some "y")), (.zero, .wrap "f" "y"), (.zero, .call "f" (.nested 2)),
      (.zero, .timing "y" .clear), (.zero, .call "f" (.nested 2))]
    let d := empty.after history
    (d.exec .zero (.list .keep)).1 = .listing [("x", 1), ("y", 3)] ∧
      (d.exec .zero (.start "a")).2.registry = d.registry ∧
      (d.exec .zero (.drop "a")).2.registry.count "y" = 4 := by
  intro history d
  obtain ⟨-, -, -, -, hquiet, -⟩ := counts_intervals history .zero
  obtain ⟨-, hcounts, -⟩ := counts_intervals (history ++ [(.zero, .drop "a")]) .zero
  exact ⟨rfl, hquiet (.start "a") trivial, (hcounts "y").1.trans rfl⟩

end Desk

end ShardedVector
