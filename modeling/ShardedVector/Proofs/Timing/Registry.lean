/-
# What a registry holds of a task

A registry is a list of tasks, but what matters to those who record and read is how many intervals
it holds of each task: `Registry.count`.  This module says what every access does to that number.

The list has one entry for each task, in ascending order of names, and no entry without an interval.
`Orderly` says so, and every access keeps it.  It is what makes the number and the entry the same
thing (`Orderly.entry?_eq_none_iff`), and what makes a reading of everything list each entry once
(`Orderly.mem_entries_iff`).

A timer records through `Timer.stop` alone, and `Timer.due` is the task that it would record.

Counts are natural numbers here, and `TaskTime.word` is the word that a count is kept in, which shows
it until 2^64 intervals are reached (`TaskTime.toNat_word`).
-/
import Mathlib.Algebra.Group.Nat.Defs
import Mathlib.Data.List.Basic
import ShardedVector.Timing.Timer

namespace ShardedVector

namespace Registry

/-! ## 1. Lists of tasks -/

section Lists

variable {es : List (String × TaskTime)} {task : String}

theorem find?_eq_none_iff : find? task es = none ↔ ∀ e ∈ es, e.1 ≠ task := by
  induction es with
  | nil => exact iff_of_true rfl nofun
  | cons e rest ih =>
    rw [find?, List.forall_mem_cons, ← ih]
    split
    · next htask => exact iff_of_false nofun fun h => h.1 htask
    · next htask => exact (and_iff_right htask).symm

theorem mem_of_find?_eq_some {time : TaskTime} (h : find? task es = some time) :
    (task, time) ∈ es := by
  induction es with
  | nil => cases h
  | cons e rest ih =>
    rw [find?] at h
    split at h
    · next htask =>
      obtain rfl := Option.some.inj h
      exact htask ▸ List.mem_cons_self
    · exact List.mem_cons_of_mem _ (ih h)

theorem find?_filter (task other : String) (es : List (String × TaskTime)) :
    find? other (es.filter fun e => decide (e.1 ≠ task)) =
      if task = other then none else find? other es := by
  induction es with
  | nil => simp [find?]
  | cons e rest ih =>
    obtain ⟨key, time⟩ := e
    by_cases hkey : key = task
    · subst hkey
      rw [List.filter_cons_of_neg (by simp), ih]
      split
      · rfl
      · next hother => rw [find?, if_neg hother]
    · rw [List.filter_cons_of_pos (by simpa using hkey), find?, find?, ih]
      split
      · next hother =>
        subst hother
        rw [if_neg (Ne.symm hkey)]
      · rfl

/-- The names in a list of tasks ascend. -/
def Ascending (es : List (String × TaskTime)) : Prop := es.Pairwise fun e f => e.1 < f.1

theorem Ascending.find?_tail_eq_none {e : String × TaskTime} (h : Ascending (e :: es))
    (htask : task ≤ e.1) : find? task es = none := by
  refine find?_eq_none_iff.mpr fun f hf heq => ?_
  have hlt := (List.pairwise_cons.mp h).1 f hf
  rw [heq] at hlt
  exact (String.not_lt.mpr htask) hlt

theorem Ascending.mem_iff (h : Ascending es) {time : TaskTime} :
    (task, time) ∈ es ↔ find? task es = some time := by
  refine ⟨fun hmem => ?_, mem_of_find?_eq_some⟩
  induction es with
  | nil => cases hmem
  | cons e rest ih =>
    obtain ⟨hfirst, hrest⟩ := List.pairwise_cons.mp h
    rcases List.mem_cons.mp hmem with rfl | hmem
    · rw [find?, if_pos rfl]
    · have hne : e.1 ≠ task := fun heq => String.lt_irrefl _ (heq ▸ hfirst _ hmem)
      rw [find?, if_neg hne]
      exact ih hrest hmem

/-- **An interval is added to its own task**, and begins an entry if the task has none. -/
theorem Ascending.find?_insert (h : Ascending es) (task other : String) (interval : Sample) :
    find? other (insert task interval es) =
      if task = other then some (((find? task es).getD .none).record interval)
      else find? other es := by
  induction es with
  | nil => simp [insert, find?]
  | cons e rest ih =>
    obtain ⟨key, time⟩ := e
    rw [insert]
    split
    · next hkey =>
      subst hkey
      by_cases hother : key = other <;> simp [find?, hother]
    · next hkey =>
      split
      · next hlt =>
        have hrest := h.find?_tail_eq_none (String.not_lt.mp (String.lt_asymm hlt))
        by_cases hother : task = other
        · subst hother
          simp [find?, hkey, hrest]
        · simp [find?, hother]
      · rw [find?, find?, ih (List.pairwise_cons.mp h).2]
        by_cases hother : task = other
        · subst hother
          simp [hkey]
        · simp [find?, hother]

theorem mem_insert {task : String} {interval : Sample} {f : String × TaskTime}
    (h : f ∈ insert task interval es) :
    f ∈ es ∨ f.1 = task ∧ 0 < f.2.count := by
  induction es with
  | nil =>
    obtain rfl := List.mem_singleton.mp h
    exact .inr ⟨rfl, Nat.succ_pos _⟩
  | cons e rest ih =>
    obtain ⟨key, time⟩ := e
    rw [insert] at h
    split at h
    · next hkey =>
      rcases List.mem_cons.mp h with rfl | h
      · exact .inr ⟨hkey, Nat.succ_pos _⟩
      · exact .inl (List.mem_cons_of_mem _ h)
    · split at h
      · rcases List.mem_cons.mp h with rfl | h
        · exact .inr ⟨rfl, Nat.succ_pos _⟩
        · exact .inl h
      · rcases List.mem_cons.mp h with rfl | h
        · exact .inl List.mem_cons_self
        · exact (ih h).imp_left (List.mem_cons_of_mem _)

theorem Ascending.insert (h : Ascending es) (task : String) (interval : Sample) :
    Ascending (insert task interval es) := by
  induction es with
  | nil => exact List.pairwise_singleton _ _
  | cons e rest ih =>
    obtain ⟨key, time⟩ := e
    obtain ⟨hfirst, hrest⟩ := List.pairwise_cons.mp h
    rw [Registry.insert]
    split
    · exact List.pairwise_cons.mpr ⟨hfirst, hrest⟩
    · next hkey =>
      split
      · next hlt =>
        refine List.pairwise_cons.mpr ⟨fun f hf => ?_, h⟩
        rcases List.mem_cons.mp hf with rfl | hf
        · exact hlt
        · exact String.lt_trans hlt (hfirst f hf)
      · next hlt =>
        refine List.pairwise_cons.mpr ⟨fun f hf => ?_, ih hrest⟩
        rcases mem_insert hf with hf | ⟨hf, -⟩
        · exact hfirst f hf
        · have hle := String.not_lt.mp hlt
          rw [hf]
          exact Std.lt_of_le_of_ne hle hkey

end Lists

/-! ## 2. Intervals of a task -/

end Registry

namespace TaskTime

/-- The count of a task as a word keeps it, which begins again after the last one. -/
def word (t : TaskTime) : UInt64 := .ofNat t.count

theorem toNat_word {t : TaskTime} (h : t.count < 2 ^ 64) : t.word.toNat = t.count :=
  UInt64.toNat_ofNat_of_lt' h

end TaskTime

namespace Registry

/-- What the registry holds of a task, which may be nothing. -/
def held (r : Registry) (task : String) : TaskTime := Option.getD ( r.entry? task) .none

/-- How many intervals the registry holds of a task. -/
def count (r : Registry) (task : String) : Nat := (r.held task).count

theorem count_eq_of_entry_eq {r : Registry} {task : String} {time : TaskTime}
    (h : r.entry? task = some time) : r.count task = time.count := by
  rw [count, held, h, Option.getD_some]

/-- One entry for each task, in ascending order of names, and none without an interval. -/
structure Orderly (r : Registry) : Prop where
  ascending : Ascending r.entries
  positive : ∀ e ∈ r.entries, 0 < e.2.count

theorem orderly_empty : empty.Orderly := ⟨.nil, nofun⟩

@[simp] theorem count_empty (task : String) : empty.count task = 0 := rfl

theorem entry?_remove (r : Registry) (task other : String) :
    Registry.entry? (r.remove task) other = if task = other then none else r.entry? other :=
  find?_filter task other r.entries

theorem count_remove (r : Registry) (task other : String) :
    (r.remove task).count other = if task = other then 0 else r.count other := by
  by_cases hother : task = other <;> simp [count, held, entry?_remove, hother, TaskTime.none]

theorem read_fst (r : Registry) (task : String) (mode : Reading) :
    (r.read task mode).1 = ( r.entry? task).elim (.error (.unknownTask task)) .ok := by
  rw [read]
  cases r.entry? task <;> cases mode <;> rfl

theorem read_keep_snd (r : Registry) (task : String) : (r.read task .keep).2 = r := by
  rw [read]
  split <;> rfl

/-- A clearing reading of a task forgets it, also where nothing is held of it. -/
theorem read_clear_snd (r : Registry) (task : String) : (r.read task .clear).2 = r.remove task := by
  rw [read]
  split
  · next hnone =>
    have hother (e : String × TaskTime) (he : e ∈ r.entries) : e.1 ≠ task :=
      find?_eq_none_iff.mp hnone e he
    rw [remove, List.filter_eq_self.mpr (by simpa using hother)]
  · rfl

/-- To remove the tasks of all entries is to forget everything. -/
theorem list_clear (r : Registry) : r.list .clear = (r.entries, empty) := by
  have remaining (es : List (String × TaskTime)) (s : Registry)
      (hs : ∀ f ∈ s.entries, f.1 ∈ es.map Prod.fst) :
      es.foldl (fun rest e => rest.remove e.1) s = empty := by
    induction es generalizing s with
    | nil =>
      have hnone : s.entries = [] := List.eq_nil_iff_forall_not_mem.mpr fun f hf => by
        simpa using hs f hf
      exact congrArg Registry.mk hnone
    | cons e rest ih =>
      refine ih _ fun f hf => ?_
      obtain ⟨hmem, hne⟩ := List.mem_filter.mp hf
      exact (List.mem_cons.mp (hs f hmem)).resolve_left (by simpa using hne)
  rw [list, remaining _ _ fun f hf => List.mem_map_of_mem hf]

namespace Orderly

variable {r : Registry} (h : r.Orderly)

include h

theorem record (task : String) (interval : Sample) : (r.record task interval).Orderly :=
  ⟨h.ascending.insert task interval, fun e he =>
    (mem_insert he).elim (h.positive e) fun hnew => hnew.2⟩

theorem remove (task : String) : (r.remove task).Orderly :=
  ⟨h.ascending.filter _, fun e he => h.positive e (List.mem_filter.mp he).1⟩

/-- To remove the first task leaves the others. -/
theorem entries_remove_head {e : String × TaskTime} {rest : List (String × TaskTime)}
    (hentries : r.entries = e :: rest) : (r.remove e.1).entries = rest := by
  have hascending := h.ascending
  rw [hentries] at hascending
  have hother (f : String × TaskTime) (hf : f ∈ rest) : f.1 ≠ e.1 := fun hname =>
    String.lt_irrefl _ (hname ▸ (List.pairwise_cons.mp hascending).1 f hf)
  rw [Registry.remove, hentries, List.filter_cons_of_neg (by simp)]
  exact List.filter_eq_self.mpr (by simpa using hother)

/-- **A reading lists exactly what is held**, each task once. -/
theorem mem_entries_iff {task : String} {time : TaskTime} :
    (task, time) ∈ r.entries ↔ r.entry? task = some time := h.ascending.mem_iff

theorem entry?_record (task other : String) (interval : Sample) :
    Registry.entry? (r.record task interval) other =
      if task = other then some ((r.held task).record interval) else r.entry? other :=
  h.ascending.find?_insert task other interval

/-- **Recording adds one interval to its task** and none to any other. -/
theorem count_record (task other : String) (interval : Sample) :
    (r.record task interval).count other = r.count other + if task = other then 1 else 0 := by
  rw [count, held, h.entry?_record]
  by_cases hother : task = other
  · subst hother
    rw [if_pos rfl, if_pos rfl]
    rfl
  · rw [if_neg hother, if_neg hother]
    rfl

/-- **There is an entry exactly when there is an interval.** -/
theorem entry?_eq_none_iff {task : String} : r.entry? task = none ↔ r.count task = 0 := by
  cases hentry : r.entry? task with
  | none =>
    refine iff_of_true rfl ?_
    rw [count, held, hentry]
    rfl
  | some time =>
    rw [count_eq_of_entry_eq hentry]
    have hpos : 0 < time.count := h.positive _ (h.mem_entries_iff.mpr hentry)
    exact iff_of_false nofun (Nat.ne_of_gt hpos)

end Orderly

end Registry

namespace Registry

/-! ## 3. Intervals one after the other -/

/-- Records intervals one after the other. -/
def recordAll (r : Registry) (intervals : List (String × Sample)) : Registry :=
  intervals.foldl (fun r x => r.record x.1 x.2) r

theorem recordAll_append (r : Registry) (xs ys : List (String × Sample)) :
    r.recordAll (xs ++ ys) = (r.recordAll xs).recordAll ys := List.foldl_append

theorem ofIntervals_eq (tasks : List String) :
    ofIntervals tasks = empty.recordAll (tasks.map fun task => (task, .zero)) := by
  rw [ofIntervals, recordAll, List.foldl_map]

namespace Orderly

variable {r : Registry} (h : r.Orderly)

include h

theorem recordAll (xs : List (String × Sample)) : (r.recordAll xs).Orderly := by
  induction xs generalizing r with
  | nil => exact h
  | cons x rest ih => exact ih (h.record x.1 x.2)

theorem count_recordAll (xs : List (String × Sample)) (task : String) :
    (r.recordAll xs).count task = r.count task + (xs.map Prod.fst).count task := by
  induction xs generalizing r with
  | nil => rfl
  | cons x rest ih =>
    have hrest := ih (h.record x.1 x.2)
    rw [h.count_record] at hrest
    rw [List.map_cons, List.count_cons]
    simp only [beq_iff_eq]
    exact hrest.trans (by omega)

end Orderly

/-- A registry of noted intervals has as many of a task as there are notes of it. -/
theorem count_ofIntervals (tasks : List String) (task : String) :
    (ofIntervals tasks).count task = tasks.count task := by
  rw [ofIntervals_eq, orderly_empty.count_recordAll, List.map_map, count_empty, Nat.zero_add]
  exact congrArg (List.count task) (List.map_id tasks)

end Registry

/-! ## 4. What a timer records -/

namespace Timer

/-- The task that an interval is recorded of when the timer stops. -/
def due (t : Timer) : Option String := if t.isRunning then t.task else none

variable (t : Timer) (now : Sample) (r : Registry)

/-- **A timer records when it stops running**, if it has a name. -/
theorem stop_snd :
    (t.stop now r).2 = match t.due with
      | some task => r.record task (t.elapsed now)
      | none => r := by
  obtain ⟨task, started, last⟩ := t
  cases started <;> cases task <;> rfl

@[simp] theorem isRunning_stop : (t.stop now r).1.isRunning = false := by
  obtain ⟨task, started, last⟩ := t
  cases started <;> cases task <;> rfl

@[simp] theorem task_stop : (t.stop now r).1.task = t.task := by
  obtain ⟨task, started, last⟩ := t
  cases started <;> cases task <;> rfl

end Timer

namespace Registry.Orderly

variable {r : Registry} (h : r.Orderly)

include h

theorem stop (t : Timer) (now : Sample) : (t.stop now r).2.Orderly := by
  rw [t.stop_snd]
  split
  · exact h.record _ _
  · exact h

theorem count_stop (t : Timer) (now : Sample) (task : String) :
    (t.stop now r).2.count task = r.count task + if t.due = some task then 1 else 0 := by
  rw [t.stop_snd]
  split
  · next name hdue => simp only [h.count_record, hdue, Option.some.injEq]
  · next hdue => rw [hdue, if_neg nofun, Nat.add_zero]

end Registry.Orderly

end ShardedVector
