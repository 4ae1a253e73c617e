/-
# What programs note

All ranks of a group carry out a program, and some of its commands note an interval.  This module
says which ones.

* `Command.tasks` is the rule: the notes of a command are settled by the vectors that it names, as
  they are before it.  `Command.gives?` is where a new vector has its instrumentation from, and no
  command changes that of a vector that is there (`Command.instrumentedAfter`).
* `notes_exec` says that every command goes by both rules, whatever arrives.
* `Way` is the way of one rank through a program, and `exists_way` says that the log of the rank is
  what the rule says of every command on that way.

`timings_of_programs` puts the ranks together: the registry of a run has the notes of all commands
on all ranks, and nothing else.  A program that only uses vectors of factories that do not
instrument leaves it empty.
-/
import ShardedVector.Program.Exec
import ShardedVector.Proofs.Shard.Noted
import ShardedVector.Proofs.Timing.Registry

namespace ShardedVector

/-! ## 1. The rules -/

namespace Workspace

variable (ws : Workspace)

/-- Whether the vector of a slot is instrumented, if there is one. -/
def instrumented? (name : String) : Option Bool := (ws.shards.get? name).map Shard.instrumented

/-- Whether the factory of a slot instruments its vectors, if there is one. -/
def instruments? (name : String) : Option Bool :=
  (ws.factories.get? name).map fun f => f.config.instrument

end Workspace

/-- Whether a command did what it was to do. -/
def Answer.isDone : Answer → Bool
  | .refused _ | .invalidConfig | .noSlot _ => false
  | _ => true

namespace Command

/-- The tasks of timed conversations. -/
def timedTasks : List String := [Shard.partitionTask, Shard.gatherTask, Shard.gatherOnZeroTask]

/-- The notes that a command makes in a workspace: at most one, and none but for an instrumented
vector that a timed conversation begins on. -/
def tasks (ws : Workspace) : Command → List String
  | .init v _ => (ws.shards.get? v).elim [] fun shard => shard.noted Shard.partitionTask True
  | .gather v _ => (ws.shards.get? v).elim [] fun shard =>
      shard.noted Shard.gatherTask (shard.capabilities.gather = true)
  | .gatherOnZero v => (ws.shards.get? v).elim [] fun shard =>
      shard.noted Shard.gatherOnZeroTask (shard.capabilities.gather = true)
  | .gatherIntoLocal v t indices => (ws.shards.get? v).elim [] fun shard =>
      (ws.locals.get? t).elim [] fun target =>
        shard.noted Shard.gatherTask (shard.Admits target indices.length)
  | .gatherInto v w indices => (ws.shards.get? v).elim [] fun shard =>
      (ws.shards.get? w).elim [] fun target =>
        shard.noted Shard.gatherTask (shard.Admits target indices.length)
  | .redistribute v p => (ws.shards.get? v).elim [] fun shard =>
      (ws.partitions.get? p).elim [] fun layout =>
        shard.noted Shard.gatherTask (shard.size = layout.size)
  | .combine _ w _ u => (ws.shards.get? w).elim [] fun left =>
      (ws.shards.get? u).elim [] fun right =>
        right.noted Shard.gatherTask (left.size = right.size ∧ left.sameLayout right = false)
  | _ => []

/-- The notes of a command are none, or the note of a vector. -/
theorem tasks_of_noted {ws : Workspace} {P : List String → Prop} (hnil : P [])
    (hnoted : ∀ name s, ws.shards.get? name = some s → ∀ task ∈ timedTasks,
      ∀ (begun : Prop) [Decidable begun], P (s.noted task begun)) (c : Command) :
    P (c.tasks ws) := by
  have hslot {α : Type} {slots : Slots α} {name : String} {noted : α → List String}
      (hvalue : ∀ value, slots.get? name = some value → P (noted value)) :
      P ((slots.get? name).elim [] noted) := by
    cases h : slots.get? name with
    | none => exact hnil
    | some value => exact hvalue value h
  cases c with
  | init v claim => exact hslot fun s hs => hnoted v s hs _ (by simp [timedTasks]) _
  | gather v indices => exact hslot fun s hs => hnoted v s hs _ (by simp [timedTasks]) _
  | gatherOnZero v => exact hslot fun s hs => hnoted v s hs _ (by simp [timedTasks]) _
  | gatherIntoLocal v t indices =>
    exact hslot fun s hs => hslot fun _ _ => hnoted v s hs _ (by simp [timedTasks]) _
  | gatherInto v w indices =>
    exact hslot fun s hs => hslot fun _ _ => hnoted v s hs _ (by simp [timedTasks]) _
  | redistribute v p =>
    exact hslot fun s hs => hslot fun _ _ => hnoted v s hs _ (by simp [timedTasks]) _
  | combine v w sign u =>
    exact hslot fun _ _ => hslot fun s hs => hnoted u s hs _ (by simp [timedTasks]) _
  | _ => exact hnil

/-- **A command makes one note at most.** -/
theorem tasks_eq (ws : Workspace) (c : Command) :
    c.tasks ws = [] ∨ ∃ task ∈ timedTasks, c.tasks ws = [task] := by
  refine tasks_of_noted (P := fun tasks => tasks = [] ∨ ∃ task ∈ timedTasks, tasks = [task])
    (.inl rfl) (fun _ s _ task htask begun _ => ?_) c
  rw [Shard.noted]
  split
  · exact .inr ⟨task, htask, rfl⟩
  · exact .inl rfl

/-- The slot of a vector that a command makes or drops, and whether the vector is instrumented. -/
def gives? (ws : Workspace) : Command → Option (String × Option Bool)
  | .makeEmpty v _ | .makeOfSize v _ _ => some (v, some true)
  | .create f v _ => some (v, ws.instruments? f)
  | .copy v w | .combine v w _ _ | .scalarRight v w _ _ | .scalarLeft v _ _ w =>
    some (v, ws.instrumented? w)
  | .drop v => some (v, none)
  | _ => none

/-- Whether the vector of a slot is instrumented after a command with an answer. -/
def instrumentedAfter (ws : Workspace) (c : Command) (a : Answer) (name : String) : Option Bool :=
  match c.gives? ws with
  | some (v, on) => if a.isDone = true ∧ v = name then on else ws.instrumented? name
  | none => ws.instrumented? name

/-- The slot of a factory that a command makes, and whether the factory instruments. -/
def sets? : Command → Option (String × Bool)
  | .factoryOfConfig f document =>
    (Config.ofDocument? document).map fun config => (f, config.instrument)
  | .factoryOfBackend f backend =>
    match Backend.ofName backend with
    | .ok _ => some (f, Config.standard.instrument)
    | .error _ => none
  | _ => none

/-- Which factories instrument after a command. -/
def settings (c : Command) (factories : String → Option Bool) : String → Option Bool :=
  match c.sets? with
  | some (f, on) => Function.update factories f (some on)
  | none => factories

end Command

/-! ## 2. Outcomes -/

namespace Workspace

variable {ws : Workspace} {c : Command}

/-- What a command leaves is by the rules. -/
structure Follows (ws : Workspace) (c : Command) (x : Workspace × Answer) : Prop where
  instrumented : ∀ name, x.1.instrumented? name = c.instrumentedAfter ws x.2 name
  instruments : x.1.instruments? = c.settings ws.instruments?

theorem instrumented?_keep (ws : Workspace) (v : String) (u : Shard) (name : String) :
    (ws.keep v u).1.instrumented? name =
      if v = name then some u.instrumented else ws.instrumented? name := by
  rw [instrumented?, keep, Slots.get?_set]
  split <;> rfl

/-- A factory that is made. -/
theorem follows_set {f : String} {factory : Factory}
    (hsets : c.sets? = some (f, factory.config.instrument)) (hgives : c.gives? ws = none) :
    ws.Follows c (ws.keepFactory f factory) := by
  refine ⟨fun name => ?_, funext fun name => ?_⟩
  · rw [Command.instrumentedAfter, hgives]
    rfl
  · rw [Command.settings, hsets, instruments?, keepFactory, Slots.get?_set]
    refine Eq.trans ?_ (Function.update_apply ..).symm
    by_cases hname : f = name
    · rw [if_pos hname, if_pos hname.symm, Option.map_some]
    · rw [if_neg hname, if_neg (Ne.symm hname)]
      rfl

section Follows

variable (hsets : c.sets? = none)

include hsets

theorem settings_of_sets_none (factories : String → Option Bool) :
    c.settings factories = factories := by
  rw [Command.settings, hsets]

theorem follows_of_not_isDone {a : Answer} (ha : a.isDone = false) : ws.Follows c (ws, a) := by
  refine ⟨fun name => ?_, (settings_of_sets_none hsets _).symm⟩
  rw [Command.instrumentedAfter]
  split <;> simp [ha]

/-- A vector that is made. -/
theorem follows_made {v : String} {on : Option Bool} {u : Shard}
    (hgives : c.gives? ws = some (v, on)) (hon : on = some u.instrumented) :
    ws.Follows c (ws.keep v u) := by
  refine ⟨fun name => ?_, (settings_of_sets_none hsets _).symm⟩
  rw [instrumented?_keep, Command.instrumentedAfter, hgives, hon]
  simp [keep, Answer.isDone]

section Gives

variable (hgives : c.gives? ws = none)

include hgives

/-- A workspace with the same vectors and factories. -/
theorem follows_same {x : Workspace × Answer} (hshards : x.1.shards = ws.shards)
    (hfactories : x.1.factories = ws.factories) : ws.Follows c x := by
  refine ⟨fun name => ?_, ?_⟩
  · rw [Command.instrumentedAfter, hgives, instrumented?, hshards]
    rfl
  · rw [settings_of_sets_none hsets]
    funext name
    rw [instruments?, hfactories]
    rfl

/-- A vector that is changed in its slot. -/
theorem follows_changed {v : String} {s u : Shard} (hs : ws.shards.get? v = some s)
    (hu : u.instrumented = s.instrumented) (a : Answer) :
    ws.Follows c ({ ws with shards := ws.shards.set v u }, a) := by
  refine ⟨fun name => ?_, (settings_of_sets_none hsets _).symm⟩
  rw [Command.instrumentedAfter, hgives]
  refine (instrumented?_keep ws v u name).trans ?_
  split
  · next hname => rw [← hname, instrumented?, hs, hu, Option.map_some]
  · rfl

end Gives

end Follows

section Notes

variable {α : Type} {P : Workspace × Answer → Prop} {tasks : List String}

theorem notes_answer {a : Answer} (h : P (ws, a)) : (ws.answer a).Notes [] P :=
  Routine.notes_finish h

theorem notes_withSlot {slots : Slots α} {name : String} {next : α → Outcome}
    {tasks : α → List String} (hnone : P (ws, .noSlot name))
    (hnext : ∀ value, slots.get? name = some value → (next value).Notes (tasks value) P) :
    (ws.withSlot slots name next).Notes ((slots.get? name).elim [] tasks) P := by
  rw [withSlot]
  cases hvalue : slots.get? name with
  | none => exact notes_answer hnone
  | some value => exact hnext value hvalue

/-- Where nothing is noted of the value either. -/
theorem notes_withSlot_nil {slots : Slots α} {name : String} {next : α → Outcome}
    (hnone : P (ws, .noSlot name))
    (hnext : ∀ value, slots.get? name = some value → (next value).Notes [] P) :
    (ws.withSlot slots name next).Notes [] P := by
  have hnotes := notes_withSlot hnone hnext
  cases hvalue : slots.get? name <;> rwa [hvalue] at hnotes

theorem notes_keepAttempt {v : String} {attempt : Attempt Shard} {Q : Shard → Prop}
    (hattempt : attempt.Notes tasks Q) (hok : ∀ u, Q u → P (ws.keep v u))
    (herror : ∀ e, P (ws, .refused e)) : (ws.keepAttempt v attempt).Notes tasks P := by
  refine Routine.Notes.bind_nil hattempt fun outcome houtcome => ?_
  cases outcome with
  | ok u => exact Routine.notes_finish (hok u (houtcome u rfl))
  | error e => exact Routine.notes_finish (herror e)

theorem notes_keepExcept {v : String} {outcome : Except Error Shard}
    (hok : ∀ u, outcome = .ok u → P (ws.keep v u)) (herror : ∀ e, P (ws, .refused e)) :
    (ws.keepExcept v outcome).Notes [] P :=
  notes_keepAttempt (Attempt.notes_ofExcept fun _ hu => hu) hok herror

theorem notes_answerAttempt {form : α → Answer} {attempt : Attempt α}
    (hattempt : attempt.Notes tasks fun _ => True) (h : ∀ a, P (ws, a)) :
    (ws.answerAttempt form attempt).Notes tasks P := by
  refine Routine.Notes.bind_nil hattempt fun outcome _ => ?_
  cases outcome with
  | ok x => exact Routine.notes_finish (h _)
  | error e => exact Routine.notes_finish (h _)

end Notes

/-! ## 3. Commands -/

theorem instrumented?_eq {w : String} {s : Shard} (hs : ws.shards.get? w = some s) :
    ws.instrumented? w = some s.instrumented := by
  rw [instrumented?, hs, Option.map_some]

section Marks

variable {note : String}

theorem marks_map {α β : Type} {a : Attempt α} (f : α → β) (h : a.outcome.Marks note 0) :
    (f <$> a : Attempt β).outcome.Marks note 0 :=
  Collective.marks_attempt_bind h fun _ => rfl

theorem marks_allGatherRow (me : Seat) (tag : Tag) (row : Row) :
    (allGatherRow me tag row).outcome.Marks note 0 := by
  cases row <;> exact marks_map _ (Collective.marks_allGatherRecords me tag _)

theorem marks_gatherRowTo (me : Seat) (tag : Tag) (root : Nat) (row : Row) :
    (gatherRowTo me tag root row).outcome.Marks note 0 := by
  cases row <;> exact marks_map _ (Shard.marks_gatherRecordsTo me tag root _)

theorem marks_allToAllRows (me : Seat) (tag : Tag) (rows : Rows) :
    (allToAllRows me tag rows).outcome.Marks note 0 := by
  cases rows <;> exact marks_map _ (Shard.marks_allToAllRecords me tag _)

end Marks

section Commands

variable {α : Type} (hsets : c.sets? = none)

include hsets

section Gives

variable (hgives : c.gives? ws = none)

include hgives

theorem follows_answer (a : Answer) : ws.Follows c (ws, a) := follows_same hsets hgives rfl rfl

/-- What is asked of the vector of a slot. -/
theorem notes_asked {v : String} {form : α → Answer} {attempt : Shard → Attempt α}
    {tasks : Shard → List String} (h : ∀ shard, (attempt shard).Notes (tasks shard) fun _ => True) :
    (ws.withShard v fun shard => ws.answerAttempt form (attempt shard)).Notes
      ((ws.shards.get? v).elim [] tasks) (ws.Follows c) :=
  notes_withSlot (follows_answer hsets hgives _) fun shard _ =>
    notes_answerAttempt (h shard) (follows_answer hsets hgives)

/-- What is asked of the vector of a slot without a note. -/
theorem notes_asked_nil {v : String} {form : α → Answer} {attempt : Shard → Attempt α}
    (h : ∀ shard note, (attempt shard).outcome.Marks note 0) :
    (ws.withShard v fun shard => ws.answerAttempt form (attempt shard)).Notes [] (ws.Follows c) :=
  notes_withSlot_nil (follows_answer hsets hgives _) fun shard _ =>
    notes_answerAttempt (Attempt.notes_of_marks (h shard)) (follows_answer hsets hgives)

/-- What is asked of all ranks. -/
theorem notes_collective {form : α → Answer} {attempt : Attempt α}
    (h : ∀ note, attempt.outcome.Marks note 0) :
    (ws.answerAttempt form attempt).Notes [] (ws.Follows c) :=
  notes_answerAttempt (Attempt.notes_of_marks h) (follows_answer hsets hgives)

/-- A vector is changed in its slot. -/
theorem notes_kept {v : String} {make : Shard → Shard}
    (h : ∀ s, (make s).instrumented = s.instrumented) :
    (ws.withShard v fun s => .finish (ws.keep v (make s))).Notes [] (ws.Follows c) :=
  notes_withSlot_nil (follows_answer hsets hgives _) fun s hs =>
    Routine.notes_finish (follows_changed hsets hgives hs (h s) _)

/-- A vector is changed in its slot, or the change is refused. -/
theorem notes_changed {v : String} {outcome : Shard → Except Error Shard}
    (h : ∀ s u, outcome s = .ok u → u.instrumented = s.instrumented) :
    (ws.withShard v fun s => ws.keepExcept v (outcome s)).Notes [] (ws.Follows c) :=
  notes_withSlot_nil (follows_answer hsets hgives _) fun s hs =>
    notes_keepExcept (fun u hu => follows_changed hsets hgives hs (h s u hu) _)
      fun _ => follows_answer hsets hgives _

/-- A vector is changed in its slot with the help of another one, or the change is refused. -/
theorem notes_changed_with {v w : String} {outcome : Shard → Shard → Except Error Shard}
    (h : ∀ s t u, outcome s t = .ok u → u.instrumented = s.instrumented) :
    (ws.withShard v fun s => ws.withShard w fun t => ws.keepExcept v (outcome s t)).Notes []
      (ws.Follows c) :=
  notes_withSlot_nil (follows_answer hsets hgives _) fun s hs =>
    notes_withSlot_nil (follows_answer hsets hgives _) fun t _ =>
      notes_keepExcept (fun u hu => follows_changed hsets hgives hs (h s t u hu) _)
        fun _ => follows_answer hsets hgives _

end Gives

/-- A vector is made of another one, or refused. -/
theorem notes_made {v w : String} {outcome : Shard → Except Error Shard}
    (hgives : c.gives? ws = some (v, ws.instrumented? w))
    (h : ∀ s u, outcome s = .ok u → u.instrumented = s.instrumented) :
    (ws.withShard w fun s => ws.keepExcept v (outcome s)).Notes [] (ws.Follows c) :=
  notes_withSlot_nil (follows_of_not_isDone hsets rfl) fun s hs =>
    notes_keepExcept (fun u hu => follows_made hsets hgives
      ((instrumented?_eq hs).trans (congrArg some (h s u hu).symm)))
      fun _ => follows_of_not_isDone hsets rfl

end Commands

/-- **Every command notes what the rule says**, whatever arrives, and leaves every vector
instrumented as the rule says. -/
theorem notes_exec (ws : Workspace) (c : Command) :
    (ws.exec c).Notes (c.tasks ws) (ws.Follows c) := by
  cases c with
  -- making
  | makeEmpty v backend =>
    refine notes_keepExcept (fun u hu => follows_made rfl rfl (congrArg some ?_))
      fun _ => follows_of_not_isDone rfl rfl
    exact (Shard.instrumented_of_made hu fun _ => rfl).symm
  | makeOfSize v n backend =>
    refine notes_keepExcept (fun u hu => follows_made rfl rfl (congrArg some ?_))
      fun _ => follows_of_not_isDone rfl rfl
    exact (Shard.instrumented_of_made hu fun _ => rfl).symm
  | copy v w =>
    exact notes_withSlot_nil (follows_of_not_isDone rfl rfl) fun s hs =>
      Routine.notes_finish (follows_made rfl rfl ((instrumented?_eq hs).trans rfl))
  | initSize v n => exact notes_kept rfl rfl fun _ => rfl
  | init v claim =>
    exact notes_withSlot (follows_answer rfl rfl _) fun s hs =>
      notes_keepAttempt (s.notes_init claim) (fun u hu => follows_changed rfl rfl hs hu _)
        fun _ => follows_answer rfl rfl _
  | drop v =>
    refine Routine.notes_finish ⟨fun name => ?_, rfl⟩
    rw [instrumented?, Slots.get?_erase]
    simp only [Command.instrumentedAfter, Command.gives?, Answer.isDone, true_and]
    split <;> rfl
  | factoryOfConfig f document =>
    rw [exec]
    cases hconfig : Config.ofDocument? document with
    | none => exact notes_answer (follows_answer (by simp [Command.sets?, hconfig]) rfl _)
    | some config =>
      exact Routine.notes_finish (follows_set (by simp [Command.sets?, hconfig]) rfl)
  | factoryOfBackend f backend =>
    rw [exec]
    cases hbackend : Backend.ofName backend with
    | error e => exact notes_answer (follows_answer (by simp [Command.sets?, hbackend]) rfl _)
    | ok b => exact Routine.notes_finish (follows_set (by simp [Command.sets?, hbackend]; rfl) rfl)
  | create f v n =>
    refine notes_withSlot_nil (follows_of_not_isDone rfl rfl) fun factory hfactory => ?_
    have hon : ws.instruments? f = some factory.config.instrument := by
      rw [instruments?, hfactory, Option.map_some]
    cases n with
    | none => exact Routine.notes_finish (follows_made rfl rfl (hon.trans rfl))
    | some n => exact Routine.notes_finish (follows_made rfl rfl (hon.trans rfl))
  | makeLocal t maker n fill =>
    have made (factory : Factory) : Routine.Notes (.finish (ws.keepLocal t factory n fill)) []
        (ws.Follows (.makeLocal t maker n fill)) :=
      Routine.notes_finish (follows_same rfl rfl rfl rfl)
    cases maker with
    | factory f =>
      exact notes_withSlot_nil (follows_answer rfl rfl _) fun factory _ => made factory
    | backend name =>
      rw [exec]
      cases Backend.ofName name with
      | error e => exact notes_answer (follows_answer rfl rfl _)
      | ok b => exact made _
  -- asking
  | ask v question =>
    exact notes_withSlot_nil (follows_answer rfl rfl _) fun _ _ =>
      notes_answer (follows_answer rfl rfl _)
  | localInfo t =>
    exact notes_withSlot_nil (follows_answer rfl rfl _) fun _ _ =>
      notes_answer (follows_answer rfl rfl _)
  | sameLayout v w =>
    exact notes_withSlot_nil (follows_answer rfl rfl _) fun _ _ =>
      notes_withSlot_nil (follows_answer rfl rfl _) fun _ _ =>
        notes_answer (follows_answer rfl rfl _)
  | sameLayoutLocal v t =>
    exact notes_withSlot_nil (follows_answer rfl rfl _) fun _ _ =>
      notes_withSlot_nil (follows_answer rfl rfl _) fun _ _ =>
        notes_answer (follows_answer rfl rfl _)
  -- partitions
  | partition p n question => exact Routine.notes_finish (follows_same rfl rfl rfl rfl)
  | partitionExplicit p claim question =>
    refine (Routine.notes_of_marks fun _ => Shard.marks_explicit ws.seat claim).bind_nil
      fun outcome _ => ?_
    cases outcome with
    | ok layout => exact Routine.notes_finish (follows_same rfl rfl rfl rfl)
    | error e => exact Routine.notes_finish (follows_answer rfl rfl _)
  | samePartition p q =>
    exact notes_withSlot_nil (follows_answer rfl rfl _) fun _ _ =>
      notes_withSlot_nil (follows_answer rfl rfl _) fun _ _ =>
        notes_answer (follows_answer rfl rfl _)
  | redistribute v p =>
    exact notes_withSlot (follows_answer rfl rfl _) fun s _ =>
      notes_withSlot (follows_answer rfl rfl _) fun layout _ =>
        notes_answerAttempt (s.notes_redistribute layout) (follows_answer rfl rfl)
  -- local entries
  | edit v change =>
    refine notes_withSlot_nil (follows_answer rfl rfl _) fun s hs => ?_
    have hkept : (s.editLocal change).1.instrumented = s.instrumented := rfl
    dsimp only
    split <;> exact Routine.notes_finish (follows_changed rfl rfl hs hkept _)
  | assign v w => exact notes_changed_with rfl rfl fun _ _ _ => Shard.instrumented_of_checked
  | axpy v w a => exact notes_changed_with rfl rfl fun _ _ _ => Shard.instrumented_of_checked
  | apply v mode =>
    exact notes_asked_nil rfl rfl fun s _ => Collective.marks_attempt_bind rfl fun _ =>
      Collective.marks_attempt_bind (Collective.marks_barrier s.seat .apply) fun _ => rfl
  -- arithmetic
  | combineAssign v sign w =>
    exact notes_changed_with rfl rfl fun _ _ _ => Shard.instrumented_of_checked
  | numberAssign v sign x => exact notes_kept rfl rfl fun _ => rfl
  | scalarAssign v sign s =>
    exact notes_changed rfl rfl fun _ _ => Shard.instrumented_combineScalarAssign
  | combine v w sign u =>
    exact notes_withSlot (follows_of_not_isDone rfl rfl) fun s hs =>
      notes_withSlot (follows_of_not_isDone rfl rfl) fun t _ =>
        notes_keepAttempt (s.notes_combine sign t) (fun made hmade => follows_made rfl rfl
          ((instrumented?_eq hs).trans (congrArg some hmade.symm)))
          fun _ => follows_of_not_isDone rfl rfl
  | scalarRight v w sign s =>
    exact notes_made rfl rfl fun w _ => Shard.instrumented_combineScalarAssign (v := w.copy)
  | scalarLeft v s sign w =>
    exact notes_made rfl rfl fun _ _ => Shard.instrumented_combineScalarLeft
  -- reductions
  | sum v => exact notes_asked_nil rfl rfl fun s _ => Collective.marks_reduceAll s.seat _ _ _
  | min v => exact notes_asked_nil rfl rfl fun s _ => Collective.marks_reduceAll s.seat _ _ _
  | max v => exact notes_asked_nil rfl rfl fun s _ => Collective.marks_reduceAll s.seat _ _ _
  | norm v kind =>
    refine notes_withSlot_nil (follows_answer rfl rfl _) fun s hs => ?_
    cases Norm.ofName kind with
    | error e => exact notes_answer (follows_answer rfl rfl _)
    | ok k =>
      refine notes_answerAttempt (Attempt.notes_of_marks fun note => ?_)
        (follows_changed rfl rfl hs rfl)
      exact Collective.marks_attempt_bind (Collective.marks_reduceAll s.seat _ _ _) fun _ => rfl
  | inner v w =>
    exact notes_withSlot_nil (follows_answer rfl rfl _) fun s _ =>
      notes_withSlot_nil (follows_answer rfl rfl _) fun t _ =>
        notes_collective rfl rfl fun _ => Collective.marks_attempt_bind rfl fun _ =>
          Collective.marks_attempt_bind rfl fun _ => Collective.marks_reduceAll s.seat _ _ _
  | sumEntries v indices =>
    exact notes_asked_nil rfl rfl fun s _ => Collective.marks_attempt_bind rfl fun _ =>
      Collective.marks_attempt_bind (Collective.marks_allGatherRecords s.seat _ _) fun _ =>
        Collective.marks_reduceAll s.seat _ _ _
  -- gathering
  | gather v indices => exact notes_asked rfl rfl fun s => s.notes_gather indices
  | gatherOnZero v => exact notes_asked rfl rfl fun s => s.notes_gatherOnZero
  | gatherIntoLocal v t indices =>
    refine notes_withSlot (follows_answer rfl rfl _) fun s _ =>
      notes_withSlot (follows_answer rfl rfl _) fun target _ => ?_
    refine Routine.Notes.bind_nil (s.notes_gatherInto target indices) fun outcome _ => ?_
    cases outcome with
    | ok made => exact Routine.notes_finish (follows_same rfl rfl rfl rfl)
    | error e => exact Routine.notes_finish (follows_answer rfl rfl _)
  | gatherInto v w indices =>
    exact notes_withSlot (follows_answer rfl rfl _) fun s _ =>
      notes_withSlot (follows_answer rfl rfl _) fun target htarget =>
        notes_keepAttempt (s.notes_gatherInto target indices)
          (fun u hu => follows_changed rfl rfl htarget hu _) fun _ => follows_answer rfl rfl _
  -- plain collectives
  | allGather tag buffer =>
    exact notes_collective rfl rfl fun _ => Collective.marks_exchange ws.seat tag _
  | allToAll tag buffers =>
    exact notes_collective rfl rfl fun _ => Collective.marks_allToAll ws.seat tag buffers
  | gatherTo tag root buffer =>
    exact notes_collective rfl rfl fun _ => Collective.marks_gatherTo ws.seat tag root buffer
  | barrier tag => exact notes_collective rfl rfl fun _ => Collective.marks_barrier ws.seat tag
  | allGatherRow tag row =>
    exact notes_collective rfl rfl fun _ => marks_allGatherRow ws.seat tag row
  | gatherRowTo tag root row =>
    exact notes_collective rfl rfl fun _ => marks_gatherRowTo ws.seat tag root row
  | allToAllRows tag rows =>
    exact notes_collective rfl rfl fun _ => marks_allToAllRows ws.seat tag rows
  | reduceAll tag op x =>
    exact notes_collective rfl rfl fun _ => Collective.marks_reduceAll ws.seat tag op x

end Workspace

/-! ## 4. Programs -/

/-- A command of a program as one rank carries it out: the workspace before it, and its answer. -/
structure Stage where
  before : Workspace
  command : Command
  answer : Answer

def Stage.tasks (x : Stage) : List String := x.command.tasks x.before

/-- A rank carries out commands one after the other; each of them leads from the workspace before it
to the next one, with its answer, in one of the ways that it may come to an end. -/
inductive Workspace.Way : Workspace → List Stage → Prop
  | nil (ws : Workspace) : Way ws []
  | cons {ws ws' : Workspace} {c : Command} {a : Answer} {log : List String} {rest : List Stage}
      (h : (ws.exec c).Logs log (ws', a)) (hrest : Way ws' rest) :
      Way ws (⟨ws, c, a⟩ :: rest)

/-- **The log of a rank is what the rule says of every command** on its way. -/
theorem Workspace.exists_way {ws ws' : Workspace} {cs : List Command} {log : List String}
    {as : List Answer} (h : (ws.execAll cs).Logs log (ws', as)) :
    ∃ stages, ws.Way stages ∧ stages.map Stage.command = cs ∧
      stages.map Stage.answer = as ∧ log = stages.flatMap Stage.tasks := by
  induction cs generalizing ws log as with
  | nil =>
    obtain ⟨rfl, heq⟩ := h.of_finish
    obtain ⟨-, rfl⟩ := Prod.mk.inj heq
    exact ⟨[], .nil ws, rfl, rfl, rfl⟩
  | cons c rest ih =>
    obtain ⟨⟨ws₁, a⟩, first, later, hfirst, hlater, rfl⟩ := h.of_bind
    obtain ⟨⟨ws₂, as'⟩, second, last, hsecond, hlast, rfl⟩ := hlater.of_bind
    obtain ⟨rfl, heq⟩ := hlast.of_finish
    obtain ⟨rfl, rfl⟩ := Prod.mk.inj heq
    obtain ⟨stages, hway, rfl, rfl, rfl⟩ := ih hsecond
    obtain ⟨rfl, -⟩ := Workspace.notes_exec ws c first (ws₁, a) hfirst
    refine ⟨⟨ws, c, a⟩ :: stages, .cons hfirst hway, rfl, rfl, ?_⟩
    rw [List.append_nil, List.flatMap_cons]
    rfl

/-- One rank has carried out a program, and these were its answers. -/
structure Seat.Performed (me : Seat) (program : List Command) (answers : List Answer)
    (stages : List Stage) : Prop where
  way : (Workspace.empty me).Way stages
  commands : stages.map Stage.command = program
  answers : stages.map Stage.answer = answers

theorem Seat.exists_performed {me : Seat} {program : List Command} {log : List String}
    {as : List Answer} (h : (me.perform program).Logs log as) :
    ∃ stages, me.Performed program as stages ∧ log = stages.flatMap Stage.tasks := by
  obtain ⟨⟨ws', as'⟩, first, second, hfirst, hsecond, rfl⟩ := Routine.Logs.of_bind h
  obtain ⟨rfl, rfl⟩ := hsecond.of_finish
  obtain ⟨stages, hway, hcommands, hanswers, hlog⟩ := Workspace.exists_way hfirst
  rw [List.append_nil]
  exact ⟨stages, ⟨hway, hcommands, hanswers⟩, hlog⟩

/-! ## 5. Programs without instrumentation -/

namespace Command

/-- Where some factories instrument, a vector that the command makes is not instrumented, unless it
is made of one that is. -/
def MakesPlain (factories : String → Option Bool) : Command → Prop
  | .makeEmpty _ _ | .makeOfSize _ _ _ => False
  | .create f _ _ => factories f ≠ some true
  | _ => True

/-- A program only uses vectors of factories that do not instrument. -/
def UsesPlain (factories : String → Option Bool) : List Command → Prop
  | [] => True
  | c :: rest => c.MakesPlain factories ∧ UsesPlain (c.settings factories) rest

end Command

/-- No vector is instrumented. -/
def Workspace.Plain (ws : Workspace) : Prop := ∀ name, ws.instrumented? name ≠ some true

namespace Workspace.Plain

variable {ws : Workspace} (h : ws.Plain)

include h

theorem tasks_eq_nil (c : Command) : c.tasks ws = [] := by
  refine Command.tasks_of_noted (P := fun tasks => tasks = []) rfl
    (fun name s hs task _ begun _ => if_neg fun hnoted => h name ?_) c
  rw [instrumented?_eq hs, hnoted.2]

theorem gives_ne {c : Command} (hc : c.MakesPlain ws.instruments?) {v : String} {on : Option Bool}
    (hgives : c.gives? ws = some (v, on)) : on ≠ some true := by
  cases c with
  | makeEmpty | makeOfSize => exact hc.elim
  | create f v' n =>
    obtain ⟨-, rfl⟩ := Prod.mk.inj (Option.some.inj hgives)
    exact hc
  | copy | combine | scalarRight | scalarLeft =>
    obtain ⟨-, rfl⟩ := Prod.mk.inj (Option.some.inj hgives)
    exact h _
  | drop =>
    obtain ⟨-, rfl⟩ := Prod.mk.inj (Option.some.inj hgives)
    exact nofun
  | _ => cases hgives

/-- A command that makes no instrumented vector leaves none. -/
theorem follows {c : Command} {x : Workspace × Answer} (hx : ws.Follows c x)
    (hc : c.MakesPlain ws.instruments?) : x.1.Plain := by
  intro name
  rw [hx.instrumented, Command.instrumentedAfter]
  split
  · next v on hgives =>
    split
    · exact h.gives_ne hc hgives
    · exact h name
  · exact h name

theorem tasks_way {stages : List Stage} (hway : ws.Way stages)
    (huses : Command.UsesPlain ws.instruments? (stages.map Stage.command)) :
    stages.flatMap Stage.tasks = [] := by
  induction hway with
  | nil ws => rfl
  | @cons ws ws' c a log rest hstep _ ih =>
    obtain ⟨hc, hrest⟩ := huses
    obtain ⟨-, hfollows⟩ := Workspace.notes_exec ws c log (ws', a) hstep
    have hlater := ih (h.follows hfollows hc) (hfollows.instruments ▸ hrest)
    rw [List.flatMap_cons, hlater, List.append_nil]
    exact h.tasks_eq_nil c

end Workspace.Plain

theorem Workspace.plain_empty (me : Seat) : (empty me).Plain := nofun

/-- A rank that only uses vectors of factories that do not instrument notes nothing. -/
theorem Seat.log_eq_nil {me : Seat} {program : List Command} {log : List String}
    {as : List Answer} (h : (me.perform program).Logs log as)
    (huses : Command.UsesPlain (fun _ => none) program) : log = [] := by
  obtain ⟨stages, hperformed, rfl⟩ := exists_performed h
  exact (Workspace.plain_empty me).tasks_way hperformed.way (hperformed.commands ▸ huses)

/-! ## 6. Groups -/

/-- The ranks of a group, each of them with its own program. -/
def performers (group size : Nat) (programs : Nat → List Command) : Ensemble (List Answer) :=
  .ofGroup group size fun r => (Seat.ofRank r size).perform (programs r)

theorem length_parties_performers (group size : Nat) (programs : Nat → List Command)
    (turns : List Nat) : ((performers group size programs).run turns).parties.length = size := by
  rw [Ensemble.length_parties_run, performers, Ensemble.ofGroup, List.length_map, List.length_range]

section Performers

variable {group size : Nat} {programs : Nat → List Command} {turns : List Nat}

/-- The notes of a group are those of all commands of all ranks. -/
theorem exists_stages {rs : List (List Answer)}
    (h : ((performers group size programs).run turns).results? = some rs) :
    ∃ stages : Nat → List Stage,
      (∀ r < size, ∃ answers, rs[r]? = some answers ∧
        (Seat.ofRank r size).Performed (programs r) answers (stages r)) ∧
      ∀ task, (Registry.ofIntervals
          ((performers group size programs).run turns).intervals).count task =
        ((List.range size).map fun r =>
          ((stages r).map fun x => x.tasks.count task).sum).sum := by
  have hranks : ∀ r < size, ∃ stages answers,
      rs[r]? = some answers ∧ (Seat.ofRank r size).Performed (programs r) answers stages ∧
      ∃ p, ((performers group size programs).run turns).parties[r]? = some p ∧
        p.intervals = stages.flatMap Stage.tasks := by
    intro r hr
    obtain ⟨p, answers, hp, hanswers, hlog⟩ := Ensemble.exists_logs_of_results? h hr
    obtain ⟨stages, hperformed, hlog⟩ := Seat.exists_performed hlog
    exact ⟨stages, answers, hanswers, hperformed, p, hp, hlog⟩
  choose! stages answers hanswers hperformed hlog using hranks
  have hlength := length_parties_performers group size programs turns
  have hintervals : ((performers group size programs).run turns).intervals =
      (List.range ((performers group size programs).run turns).parties.length).flatMap
        fun r => (stages r).flatMap Stage.tasks :=
    Ensemble.intervals_eq_flatMap fun r hr => hlog r (hlength ▸ hr)
  refine ⟨stages, fun r hr => ⟨answers r, hanswers r hr, hperformed r hr⟩, fun task => ?_⟩
  rw [Registry.count_ofIntervals, hintervals, hlength, List.count_flatMap]
  refine congrArg List.sum (List.map_congr_left fun r _ => ?_)
  exact List.count_flatMap

/-- Ranks that only use vectors of factories that do not instrument note nothing. -/
theorem intervals_of_usesPlain
    (h : ∀ r < size, Command.UsesPlain (fun _ => none) (programs r)) (turns : List Nat) :
    ((performers group size programs).run turns).intervals = [] := by
  have hlength := length_parties_performers group size programs turns
  have hnone : ((performers group size programs).run turns).intervals =
      (List.range ((performers group size programs).run turns).parties.length).flatMap
        fun _ => [] := by
    refine Ensemble.intervals_eq_flatMap fun r hr => ?_
    have hr : r < size := hlength ▸ hr
    obtain ⟨p, log, as, hp, hlog⟩ := Ensemble.exists_logs group
      (fun r => (Seat.ofRank r size).perform (programs r)) turns hr
    have hempty := Seat.log_eq_nil hlog (h r hr)
    exact ⟨p, hp, (List.append_eq_nil_iff.mp hempty).1⟩
  rw [hnone, List.flatMap_eq_nil_iff]
  exact fun _ _ => rfl

end Performers

/-- **The registry of a group has the notes of all commands of all ranks**, by the rule, and nothing
else, under every interleaving in which all ranks come to an end; it is the same one under all of
them.

A command notes at most one interval, and only for an instrumented vector whose conversation begins
(`Command.tasks`): a layout by claims, accepted or not; a gather, a redistribution or a combination
of two layouts, when the operands are accepted, though an index may be out of range; and a gather on
rank zero.  Every command leaves the vectors instrumented by the rule as well, a made one as its
factory says or as the left operand is (`Workspace.Follows`).  So a program that only uses vectors
of factories that do not instrument leaves the registry empty, at any time. -/
theorem timings_of_programs (group size : Nat) (programs : Nat → List Command) :
    (∀ turns rs, ((performers group size programs).run turns).results? = some rs →
      ∃ stages : Nat → List Stage,
        (∀ r < size, ∃ answers, rs[r]? = some answers ∧
          (Seat.ofRank r size).Performed (programs r) answers (stages r)) ∧
        ∀ task, (Registry.ofIntervals
            ((performers group size programs).run turns).intervals).count task =
          ((List.range size).map fun r =>
            ((stages r).map fun x => x.tasks.count task).sum).sum) ∧
    (∀ turns turns', ((performers group size programs).run turns).results? ≠ none →
      ((performers group size programs).run turns').results? ≠ none →
      Registry.ofIntervals ((performers group size programs).run turns').intervals =
        Registry.ofIntervals ((performers group size programs).run turns).intervals) ∧
    ((∀ r < size, Command.UsesPlain (fun _ => none) (programs r)) → ∀ turns,
      Registry.ofIntervals ((performers group size programs).run turns).intervals = .empty) ∧
    (∀ (me : Seat) program inbox, ∃ stages : List Stage,
      me.Performed program ((me.perform program).rehearse inbox).value stages ∧
        ((me.perform program).rehearse inbox).intervals = stages.flatMap Stage.tasks) ∧
    ∀ ws c log x, (Workspace.exec ws c).Logs log x →
      log = Command.tasks ws c ∧ (log = [] ∨ ∃ task ∈ Command.timedTasks, log = [task]) ∧
        ws.Follows c x := by
  refine ⟨fun turns rs hrs => ?_, fun turns turns' h h' => ?_, fun huses turns => ?_,
    fun me program inbox => ?_, fun ws c log x hlog => ?_⟩
  · exact exists_stages hrs
  · exact congrArg Registry.ofIntervals (Ensemble.intervals_unique h h')
  · rw [intervals_of_usesPlain huses turns]
    rfl
  · exact Seat.exists_performed (Routine.logs_rehearse _ inbox)
  · obtain ⟨rfl, hfollows⟩ := Workspace.notes_exec ws c log x hlog
    exact ⟨rfl, c.tasks_eq ws, hfollows⟩

/-- Two ranks lay a vector out by claims, gather an index past its end, gather it on rank zero, and
add it to a vector that is not instrumented: the gather that was refused is noted, and so is the one
of the sum.  The sum is not instrumented itself, and its own gather is not noted. -/
theorem timings_of_programs_two :
    let quiet : List Command :=
      [.factoryOfConfig "f" (.record [("instrument", .boolean false)]), .create "f" "q" (some 4),
        .gather "q" [1]]
    let programs (r : Nat) : List Command := quiet ++
      [.makeOfSize "v" 4 "dense", .init "v" (if r = 0 then ⟨0, 1⟩ else ⟨1, 4⟩),
        .gather "v" [3, 9], .gatherOnZero "v", .combine "w" "q" .plus "v", .gather "w" [0]]
    let turns := (List.replicate 50 [0, 1]).flatten
    let registry (turns : List Nat) :=
      Registry.ofIntervals ((performers 7 2 programs).run turns).intervals
    (∃ rs, ((performers 7 2 programs).run turns).results? = some rs ∧
      ∃ stages : Nat → List Stage,
        (∀ r < 2, ∃ answers, rs[r]? = some answers ∧
          (Seat.ofRank r 2).Performed (programs r) answers (stages r)) ∧
        ∀ task, (registry turns).count task =
          ((List.range 2).map fun r => ((stages r).map fun x => x.tasks.count task).sum).sum) ∧
      (∀ turns', ((performers 7 2 programs).run turns').results? ≠ none →
        (registry turns').count "la: create partition" = 2 ∧
          (registry turns').count "la: gather" = 4 ∧
          (registry turns').count "la: gather on zero" = 2) ∧
      ∀ turns', Registry.ofIntervals ((performers 7 2 fun _ => quiet).run turns').intervals =
        .empty := by
  intro quiet programs turns registry
  have hended : ((performers 7 2 programs).run turns).results? ≠ none := by decide +kernel
  obtain ⟨rs, hrs⟩ := Option.ne_none_iff_exists'.mp hended
  have hquiet : Command.UsesPlain (fun _ => none) quiet := by
    refine ⟨trivial, ?_, trivial, trivial⟩
    rw [Command.MakesPlain]
    decide +kernel
  obtain ⟨hstages, hunique, -⟩ := timings_of_programs 7 2 programs
  obtain ⟨-, -, hempty, -⟩ := timings_of_programs 7 2 fun _ => quiet
  refine ⟨⟨rs, hrs, hstages turns rs hrs⟩, fun turns' hended' => ?_, hempty fun _ _ => hquiet⟩
  have hsame : registry turns' = registry turns := hunique turns turns' hended hended'
  rw [hsame]
  decide +kernel

end ShardedVector
