/-
# The phase in the course of calls

A wrapper has one phase, and every call of it writes that phase twice: when it is entered, and when
it returns.  Calls may run inside of each other, and then the phase no longer tells whether a call
is running: after an inner call has returned the wrapper is idle, while the outer call still runs.

* `Call.moments` lists what happens from the entry of a call to its return, and `CallStage` is where
  things stand after some of it.  `passAll_moments`: all of it together is the call.
* `Keeps` is what every moment keeps: an entered call either runs or has committed its interval, and
  the phase is the one that the last entry or return has written.
* `LifeCycle` is the rule that is meant: recording while a call runs, unarmed until the first one,
  and idle when every call has committed its interval.

`phases_of_calls` puts this together.  The rule is kept at every moment exactly when no call is made
inside of another one; `exists_idle_while_running` is the least run that breaks it.
-/
import ShardedVector.Proofs.Timing.Registry
import ShardedVector.Timing.Wrapper

namespace ShardedVector

/-! ## 1. What happens in a call -/

/-- What can happen while calls are made. -/
inductive Moment where
  | entered
  | looked
  | returned
deriving DecidableEq

mutual

/-- What happens from the entry of a call to its return. -/
def Call.moments : Call → List Moment
  | .node inner => .entered :: .looked :: (Call.bodyMoments inner ++ [.returned])

/-- What happens in the callable after its first look. -/
def Call.bodyMoments : List Call → List Moment
  | [] => [.looked]
  | [c] => c.moments ++ [.looked]
  | c :: d :: rest => c.moments ++ .looked :: Call.bodyMoments (d :: rest)

end

/-- Where things stand: the wrapper and its registry, and the timers of the calls that run, the
innermost one first. -/
structure CallStage where
  state : CallState
  timers : List Timer
deriving DecidableEq

namespace CallStage

/-- A wrapper that was never called, and a registry that holds nothing. -/
def opening (task : String) : CallStage := ⟨⟨.ofTask task, .empty, []⟩, []⟩

def phase (s : CallStage) : Phase := s.state.wrapper.phase

/-- What one moment changes. -/
def pass (now : Sample) (s : CallStage) : Moment → CallStage
  | .entered =>
    let (w, timer) := s.state.wrapper.enter now
    ⟨{ s.state with wrapper := w }, timer :: s.timers⟩
  | .looked => { s with state := s.state.look }
  | .returned =>
    match s.timers with
    | [] => s
    | timer :: rest =>
      let (w, r) := s.state.wrapper.leave timer now s.state.registry
      ⟨{ s.state with wrapper := w, registry := r }, rest⟩

def passAll (now : Sample) (s : CallStage) (ms : List Moment) : CallStage := ms.foldl (pass now) s

@[simp] theorem passAll_cons (now : Sample) (s : CallStage) (m : Moment) (ms : List Moment) :
    s.passAll now (m :: ms) = (s.pass now m).passAll now ms := rfl

@[simp] theorem passAll_append (now : Sample) (s : CallStage) (ms more : List Moment) :
    s.passAll now (ms ++ more) = (s.passAll now ms).passAll now more := List.foldl_append

mutual

/-- **The moments of a call come to the call**, and leave the calls around it running. -/
theorem passAll_moments (now : Sample) (s : CallStage) :
    ∀ c : Call, s.passAll now c.moments = ⟨s.state.call now c, s.timers⟩
  | .node inner => by
    rw [Call.moments, passAll_cons, passAll_cons, passAll_append, passAll_bodyMoments now _ inner]
    rfl

theorem passAll_bodyMoments (now : Sample) (s : CallStage) :
    ∀ cs : List Call, s.passAll now (Call.bodyMoments cs) = ⟨s.state.body now cs, s.timers⟩
  | [] => rfl
  | [c] => by
    rw [Call.bodyMoments, passAll_append, passAll_moments now s c]
    rfl
  | c :: d :: rest => by
    rw [Call.bodyMoments, passAll_append, passAll_moments now s c, passAll_cons,
      passAll_bodyMoments now _ (d :: rest)]
    rfl

end

theorem passAll_flatMap (now : Sample) (s : CallStage) (cs : List Call) :
    s.passAll now (cs.flatMap Call.moments) =
      ⟨cs.foldl (CallState.call now) s.state, s.timers⟩ := by
  induction cs generalizing s with
  | nil => rfl
  | cons c rest ih => rw [List.flatMap_cons, passAll_append, passAll_moments, ih, List.foldl_cons]

end CallStage

/-! ## 2. What every moment keeps -/

namespace Moment

/-- The last entry or return. -/
def last? (ms : List Moment) : Option Moment := (ms.filter fun m => decide (m ≠ .looked)).getLast?

theorem last?_concat (ms : List Moment) (m : Moment) :
    last? (ms ++ [m]) = if m = .looked then last? ms else some m := by
  by_cases hm : m = .looked <;> simp [last?, hm]

theorem last?_append (ms : List Moment) {more : List Moment} {m : Moment}
    (h : last? more = some m) : last? (ms ++ more) = some m := by
  rw [last?, List.filter_append, List.getLast?_append]
  exact congrArg (Option.or · _) h

theorem mem_of_last? {ms : List Moment} {m : Moment} (h : last? ms = some m) : m ∈ ms :=
  (List.mem_filter.mp (List.mem_of_getLast? h)).1

/-- The phase that the last entry or return has written. -/
def written (ms : List Moment) : Phase :=
  if .entered ∈ ms then if last? ms = some .entered then .recording else .idle else .unarmed

section Written

variable {ms : List Moment}

theorem written_eq_unarmed_iff : written ms = .unarmed ↔ .entered ∉ ms := by
  unfold written
  split
  · next hmem => split <;> simp [hmem]
  · next hmem => simp [hmem]

theorem written_eq_recording_iff : written ms = .recording ↔ last? ms = some .entered := by
  unfold written
  split
  · split <;> simp_all
  · next hmem =>
    have hlast : last? ms ≠ some .entered := fun hlast => hmem (mem_of_last? hlast)
    simp [hlast]

theorem written_eq_idle_iff :
    written ms = .idle ↔ .entered ∈ ms ∧ last? ms ≠ some .entered := by
  unfold written
  split
  · next hmem => split <;> simp_all
  · next hmem => simp [hmem]

end Written

end Moment

open Moment (last? written written_eq_unarmed_iff written_eq_recording_iff written_eq_idle_iff)

/-- The last thing that happens in a call is its return. -/
theorem Call.last?_moments (c : Call) : last? c.moments = some .returned := by
  obtain ⟨inner⟩ := c
  rw [moments, ← List.cons_append, ← List.cons_append, Moment.last?_concat]
  rfl

namespace CallStage

variable {task : String} {now : Sample}

/-- What is true after some moments of a wrapper that was new. -/
structure Keeps (task : String) (ms : List Moment) (s : CallStage) : Prop where
  named : s.state.wrapper.task = task
  orderly : s.state.registry.Orderly
  /-- The timer of every call that runs is running. -/
  running : ∀ t ∈ s.timers, t.task = some task ∧ t.isRunning = true
  /-- Every call that was entered runs or has committed its interval. -/
  counted : s.timers.length + s.state.registry.count task = ms.count .entered
  /-- A call that was just entered runs. -/
  entered : last? ms = some .entered → s.timers ≠ []
  phase : s.phase = written ms

theorem keeps_opening (task : String) : (opening task).Keeps task [] :=
  ⟨rfl, Registry.orderly_empty, nofun, rfl, nofun, rfl⟩

/-- **What every moment keeps.** -/
theorem Keeps.pass {ms : List Moment} {s : CallStage} (h : s.Keeps task ms) (now : Sample)
    (m : Moment) : (s.pass now m).Keeps task (ms ++ [m]) := by
  obtain ⟨⟨w, r, seen⟩, timers⟩ := s
  obtain ⟨hnamed, horderly, hrunning, hcounted, hentered, hphase⟩ := h
  replace horderly : r.Orderly := horderly
  cases m with
  | entered =>
    have harmed : w.arm.task = task := by
      rw [← hnamed, Wrapper.arm]
      split <;> rfl
    refine ⟨harmed, horderly, ?_, ?_, fun _ => List.cons_ne_nil _ _, ?_⟩
    · intro t ht
      rcases List.mem_cons.mp ht with rfl | ht
      · exact ⟨congrArg some hnamed, rfl⟩
      · exact hrunning t ht
    · rw [List.count_append, ← hcounted]
      exact Nat.add_right_comm _ _ _
    · simp [written, Moment.last?_concat]
      rfl
  | looked =>
    refine ⟨hnamed, horderly, hrunning, ?_, ?_, ?_⟩
    · rw [List.count_append, ← hcounted]
      rfl
    · rwa [Moment.last?_concat, if_pos rfl]
    · refine hphase.trans ?_
      simp [written, Moment.last?_concat]
  | returned =>
    have hlast : last? (ms ++ [.returned]) = some .returned := Moment.last?_concat ms .returned
    have hcount : (ms ++ [Moment.returned]).count .entered = ms.count .entered := by
      rw [List.count_append]
      rfl
    cases timers with
    | nil =>
      -- nobody is left to return, so the phase is not written
      refine ⟨hnamed, horderly, hrunning, hcount ▸ hcounted, by simp [hlast], hphase.trans ?_⟩
      have hidle : last? ms ≠ some .entered := fun hlast => hentered hlast rfl
      simp [written, hlast, hidle]
    | cons timer rest =>
      obtain ⟨htimer, hrest⟩ := List.forall_mem_cons.mp hrunning
      have hdue : timer.due = some task := by rw [Timer.due, htimer.2, if_pos rfl, htimer.1]
      have hmem : Moment.entered ∈ ms := by
        have hpos : 0 < ms.count .entered := by
          rw [← hcounted]
          exact Nat.add_pos_left (Nat.succ_pos _) _
        exact List.count_pos_iff.mp hpos
      refine ⟨hnamed, horderly.stop timer now, hrest, ?_, by simp [hlast], ?_⟩
      · have hcounted : rest.length + 1 + r.count task = ms.count .entered := hcounted
        have hstop := horderly.count_stop timer now task
        rw [if_pos hdue] at hstop
        rw [hcount, ← hcounted]
        change rest.length + (timer.stop now r).2.count task = _
        omega
      · simp [written, hlast, hmem]
        rfl

theorem Keeps.passAll {before : List Moment} {s : CallStage} (h : s.Keeps task before)
    (now : Sample) (ms : List Moment) : (s.passAll now ms).Keeps task (before ++ ms) := by
  induction ms generalizing before s with
  | nil => rwa [List.append_nil]
  | cons m rest ih =>
    have hrest := ih (h.pass now m)
    rwa [List.append_assoc] at hrest

/-! ## 3. The rule that is meant -/

/-- The life cycle of a wrapper, after some moments: recording while a call runs, unarmed until the
first call, idle when there was a call and every call has committed its interval. -/
structure LifeCycle (ms : List Moment) (s : CallStage) : Prop where
  recording : s.timers ≠ [] → s.phase = .recording
  unarmed : s.phase = .unarmed ↔ .entered ∉ ms
  idle : s.phase = .idle ↔ .entered ∈ ms ∧ s.timers = []

/-- **The rule holds unless a call has returned inside of another one** that still runs. -/
theorem Keeps.lifeCycle_iff {ms : List Moment} {s : CallStage} (h : s.Keeps task ms) :
    s.LifeCycle ms ↔ (s.timers ≠ [] → last? ms = some .entered) := by
  constructor
  · intro hcycle hruns
    exact written_eq_recording_iff.mp (h.phase.symm.trans (hcycle.recording hruns))
  · intro hrule
    refine ⟨fun hruns => ?_, ?_, ?_⟩
    · rw [h.phase, written_eq_recording_iff]
      exact hrule hruns
    · rw [h.phase, written_eq_unarmed_iff]
    · rw [h.phase, written_eq_idle_iff]
      -- nobody runs exactly when nobody was entered last
      have hlast : last? ms ≠ some .entered ↔ s.timers = [] :=
        ⟨fun hlast => not_not.mp fun hruns => hlast (hrule hruns),
          fun hdone hlast => h.entered hlast hdone⟩
      rw [hlast]

/-- While calls that make no call inside of them are made, a call that runs was the last to be
entered. -/
theorem last?_of_flat {cs : List Call} (hflat : ∀ c ∈ cs, c = .node []) (now : Sample) (n : Nat)
    (before : List Moment) {s : CallStage} (hdone : s.timers = [])
    (hruns : (s.passAll now ((cs.flatMap Call.moments).take n)).timers ≠ []) :
    last? (before ++ (cs.flatMap Call.moments).take n) = some .entered := by
  induction cs generalizing n before s with
  | nil =>
    rw [List.flatMap_nil, List.take_nil] at hruns
    exact absurd hdone hruns
  | cons c rest ih =>
    obtain ⟨rfl, hrest⟩ := List.forall_mem_cons.mp hflat
    match n with
    | 0 => exact absurd hdone hruns
    | 1 | 2 | 3 => exact Moment.last?_append before rfl
    | n + 4 =>
      have htake : ((Call.node [] :: rest).flatMap Call.moments).take (n + 4) =
          (Call.node []).moments ++ (rest.flatMap Call.moments).take n := rfl
      rw [htake, passAll_append, passAll_moments] at hruns
      rw [htake, ← List.append_assoc]
      refine ih hrest n _ ?_ hruns
      exact hdone

theorem Call.exists_bodyMoments_cons (c : Call) (rest : List Call) :
    ∃ more, Call.bodyMoments (c :: rest) = c.moments ++ more := by
  cases rest with
  | nil => exact ⟨_, rfl⟩
  | cons d rest => exact ⟨_, rfl⟩

/-- **A call inside of another one has returned while the other one still runs.** -/
theorem exists_returned_inside {cs : List Call} {d : Call} {rest : List Call}
    (hnested : .node (d :: rest) ∈ cs) (now : Sample) (s : CallStage) :
    ∃ n, (s.passAll now ((cs.flatMap Call.moments).take n)).timers ≠ [] ∧
      last? ((cs.flatMap Call.moments).take n) = some .returned := by
  obtain ⟨before, after, rfl⟩ := List.append_of_mem hnested
  obtain ⟨more, hmore⟩ := Call.exists_bodyMoments_cons d rest
  -- up to the return of the inner call
  let upTo := before.flatMap Call.moments ++ [.entered, .looked] ++ d.moments
  have hsplit : (before ++ .node (d :: rest) :: after).flatMap Call.moments =
      upTo ++ (more ++ [.returned] ++ after.flatMap Call.moments) := by
    simp [upTo, Call.moments, hmore]
  refine ⟨upTo.length, ?_⟩
  rw [hsplit, List.take_left]
  refine ⟨?_, Moment.last?_append _ d.last?_moments⟩
  rw [passAll_append, passAll_append, passAll_moments, passAll_flatMap]
  exact List.cons_ne_nil _ _

/-- Where things stand after the first `n` moments of calls of a new wrapper. -/
def after (task : String) (now : Sample) (cs : List Call) (n : Nat) : CallStage :=
  (opening task).passAll now ((cs.flatMap Call.moments).take n)

/-- **The phase in the course of calls**, of any number and nested to any depth.  At every moment
each call that was entered runs or has committed its interval, and the phase is the one written by
the last entry or return: unarmed until the first call, recording after an entry, idle after a
return, also while another call runs.  So the rule that is meant holds at a moment unless a call has
returned inside of one that still runs, and it holds throughout exactly when no call is made inside
of another one. -/
theorem phases_of_calls (task : String) (now : Sample) (cs : List Call) :
    (∀ n, let s := after task now cs n; let ms := (cs.flatMap Call.moments).take n
      s.timers.length + s.state.registry.count task = ms.count .entered ∧
      (s.phase = .unarmed ↔ .entered ∉ ms) ∧
      (s.phase = .recording ↔ last? ms = some .entered) ∧
      (s.phase = .idle ↔ .entered ∈ ms ∧ last? ms ≠ some .entered) ∧
      (s.LifeCycle ms ↔ (s.timers ≠ [] → last? ms = some .entered))) ∧
    ((∀ n, (after task now cs n).LifeCycle ((cs.flatMap Call.moments).take n)) ↔
      ∀ c ∈ cs, c = .node []) ∧
    (after task now cs (cs.flatMap Call.moments).length).state =
      cs.foldl (CallState.call now) ⟨.ofTask task, .empty, []⟩ := by
  have hkeeps (n : Nat) : (after task now cs n).Keeps task ((cs.flatMap Call.moments).take n) :=
    (keeps_opening task).passAll now _
  refine ⟨fun n => ?_, ⟨fun hcycle => ?_, fun hflat n => ?_⟩, ?_⟩
  · intro s ms
    have hphase : s.phase = written ms := (hkeeps n).phase
    rw [hphase]
    exact ⟨(hkeeps n).counted, written_eq_unarmed_iff, written_eq_recording_iff,
      written_eq_idle_iff, (hkeeps n).lifeCycle_iff⟩
  · rintro ⟨inner⟩ hc
    cases inner with
    | nil => rfl
    | cons d rest =>
      obtain ⟨n, hruns, hlast⟩ := exists_returned_inside hc now (opening task)
      have hentered := (hkeeps n).lifeCycle_iff.mp (hcycle n) hruns
      rw [hlast] at hentered
      cases hentered
  · exact (hkeeps n).lifeCycle_iff.mpr fun hruns =>
      last?_of_flat hflat now n [] rfl hruns
  · rw [after, List.take_length, passAll_flatMap]
    rfl

/-- A call inside of another one has returned, and while the outer one still runs the wrapper is
idle; that is what the callable sees when it looks. -/
theorem exists_idle_while_running :
    let cs := [Call.nested 1]
    let s := after "task" .zero cs 6
    s.timers.length = 1 ∧ s.phase = .idle ∧ ¬s.LifeCycle ((cs.flatMap Call.moments).take 6) ∧
      (CallState.call .zero ⟨.ofTask "task", .empty, []⟩ (.nested 1)).seen =
        [.recording, .recording, .recording, .idle] := by
  refine ⟨rfl, rfl, fun hcycle => ?_, rfl⟩
  have hrecording := hcycle.recording nofun
  cases hrecording

end CallStage

end ShardedVector
