/-
# The registry of timed tasks

A registry holds, for each task, how many intervals were recorded and how much time they took
together.  Each access concerns one task: `record`, `entry?` and `remove`.  A reading may clear
what it reads; reading everything takes a snapshot first and then removes, task by task, what
the snapshot holds.
-/
import ShardedVector.Error
import ShardedVector.Timing.Sample

namespace ShardedVector

/-! ## 1. Entries -/

/-- What is recorded of one task.  The count stands for a 64-bit word, which shows it as long as
there are fewer than 2^64 intervals. -/
structure TaskTime where
  count : Nat
  total : Sample
deriving DecidableEq

namespace TaskTime

def none : TaskTime := ⟨0, .zero⟩

/-- One more interval. -/
def record (t : TaskTime) (interval : Sample) : TaskTime :=
  ⟨t.count + 1, t.total + interval⟩

end TaskTime

/-- The recorded tasks, in ascending order of their names. -/
structure Registry where
  entries : List (String × TaskTime)
deriving DecidableEq

namespace Registry

def empty : Registry := ⟨[]⟩

/-! ## 2. Access to one task -/

/-- What is recorded under a name in a list of tasks. -/
def find? (task : String) : List (String × TaskTime) → Option TaskTime
  | [] => none
  | (t, time) :: rest => if t = task then some time else find? task rest

def entry? (r : Registry) (task : String) : Option TaskTime := find? task r.entries

/-- Adds an interval to its task, at the place of the task in the order of names. -/
def insert (task : String) (interval : Sample) :
    List (String × TaskTime) → List (String × TaskTime)
  | [] => [(task, TaskTime.none.record interval)]
  | (t, time) :: rest =>
    if t = task then (t, time.record interval) :: rest
    else if task < t then (task, TaskTime.none.record interval) :: (t, time) :: rest
    else (t, time) :: insert task interval rest

/-- Records one interval of a task. -/
def record (r : Registry) (task : String) (interval : Sample) : Registry :=
  ⟨insert task interval r.entries⟩

/-- Forgets a task. -/
def remove (r : Registry) (task : String) : Registry :=
  ⟨r.entries.filter fun e => decide (e.1 ≠ task)⟩

/-! ## 3. Readings -/

/-- Whether a reading removes what it reads. -/
inductive Reading where
  | keep
  | clear
deriving DecidableEq

/-- What is recorded of one task, and the registry after the reading. -/
def read (r : Registry) (task : String) (mode : Reading) : Except Error TaskTime × Registry :=
  match r.entry? task with
  | none => (.error (.unknownTask task), r)
  | some time =>
    match mode with
    | .keep => (.ok time, r)
    | .clear => (.ok time, r.remove task)

/-- Every task in ascending order of names, and the registry after the reading. -/
def list (r : Registry) (mode : Reading) : List (String × TaskTime) × Registry :=
  match mode with
  | .keep => (r.entries, r)
  | .clear => (r.entries, r.entries.foldl (fun rest e => rest.remove e.1) r)

/-- Forgets every task. -/
def clear (_ : Registry) : Registry := empty

/-- A registry of so many intervals without length, as a clockless run notes them. -/
def ofIntervals (tasks : List String) : Registry :=
  tasks.foldl (fun r task => r.record task .zero) empty

end Registry

end ShardedVector
