/-
# What the operations note

An instrumented shard notes its conversations, and only three kinds of them: laying itself out by
claims, gathering by index, and gathering on rank zero.  Redistribution and the combination of two
layouts are gathers too, and they are noted by the shard that is gathered from.

Each operation checks its operands before it begins, so whether there is a note is settled by the
operands alone: `Shard.noted` is the note of a shard under a condition.  A conversation that has
begun is noted also when it fails.

The other half of this module says that no operation changes whether a shard is instrumented.
-/
import ShardedVector.Factory
import ShardedVector.Proofs.Collective.Rendezvous
import ShardedVector.Proofs.Ensemble.Logs
import ShardedVector.Proofs.Shard.Attendance
import ShardedVector.Shard.Arithmetic
import ShardedVector.Shard.Edit
import ShardedVector.Shard.Reduction

namespace ShardedVector

/-! ## 1. Attempts -/

namespace Attempt

variable {α β : Type} {tasks : List String} {P : α → Prop} {Q : β → Prop}

/-- Whatever arrives, the attempt notes these tasks, and its value has a property if it has one. -/
def Notes (a : Attempt α) (tasks : List String) (P : α → Prop) : Prop :=
  a.outcome.Notes tasks fun outcome => ∀ x, outcome = .ok x → P x

theorem notes_ofExcept {outcome : Except Error α} (h : ∀ x, outcome = .ok x → P x) :
    (ofExcept outcome).Notes [] P := Routine.notes_finish h

theorem notes_of_marks {a : Attempt α} (h : ∀ note, a.outcome.Marks note 0) :
    a.Notes [] fun _ => True := (Routine.notes_of_marks h).mono fun _ _ _ _ => trivial

/-- What follows notes nothing any more. -/
theorem Notes.bind_nil {a : Attempt α} {f : α → Attempt β} (h : a.Notes tasks P)
    (hf : ∀ x, P x → (f x).Notes [] Q) : (a >>= f).Notes tasks Q := by
  rw [Notes, outcome_bind]
  refine Routine.Notes.bind_nil h fun outcome houtcome => ?_
  cases outcome with
  | ok x => exact hf x (houtcome x rfl)
  | error e => exact Routine.notes_finish nofun

end Attempt

namespace Shard

variable {v w u : Shard}

/-! ## 2. Shards stay instrumented -/

theorem instrumented_withStorage {outcome : Except Error Storage}
    (h : v.withStorage outcome = .ok u) : u.instrumented = v.instrumented := by
  cases outcome with
  | ok storage =>
    obtain rfl := Except.ok.inj h
    rfl
  | error e => cases h

/-- What is checked before another storage is taken over. -/
theorem instrumented_of_checked {check : Except Error Unit} {outcome : Except Error Storage}
    (h : (do check; v.withStorage outcome) = .ok u) : u.instrumented = v.instrumented := by
  cases check with
  | ok x => exact instrumented_withStorage h
  | error e => cases h

/-- What is made of a value that may be refused. -/
theorem instrumented_of_made {α : Type} {outcome : Except Error α} {make : α → Shard} {on : Bool}
    (h : (do let x ← outcome; return make x) = .ok u)
    (hmake : ∀ x, (make x).instrumented = on) : u.instrumented = on := by
  cases outcome with
  | ok x =>
    obtain rfl := Except.ok.inj h
    exact hmake x
  | error e => cases h

theorem instrumented_combineScalarAssign {sign : Sign} {s : Scalar}
    (h : v.combineScalarAssign sign s = .ok u) : u.instrumented = v.instrumented :=
  instrumented_of_made h fun _ => rfl

theorem instrumented_combineScalarLeft {sign : LeftSign} {s : Scalar}
    (h : v.combineScalarLeft sign s = .ok u) : u.instrumented = v.instrumented := by
  cases sign with
  | plus => exact instrumented_combineScalarAssign (v := v.copy) h
  | times => exact instrumented_combineScalarAssign (v := v.copy) h
  | minus => exact instrumented_of_made h fun _ => rfl

theorem instrumented_receive {values : List Binary64} (h : v.receive values = .ok u) :
    u.instrumented = v.instrumented := by
  rw [receive] at h
  have hbound := instrumented_withStorage h
  split at hbound <;> exact hbound

/-! ## 3. Notes -/

/-- The note of a shard, under a condition. -/
def noted (v : Shard) (task : String) (begun : Prop) [Decidable begun] : List String :=
  if begun ∧ v.instrumented = true then [task] else []

/-- **What follows a check is noted if the check is passed**, and else nothing is. -/
theorem notes_check {α : Type} {Q : α → Prop} {task : String} {begun : Prop} [Decidable begun]
    {check : Except Error Unit} {f : Unit → Attempt α} (hcheck : check = .ok () ↔ begun)
    (hf : begun → (f ()).Notes (v.noted task True) Q) :
    (Attempt.ofExcept check >>= f).Notes (v.noted task begun) Q := by
  by_cases h : begun
  · have hnoted : v.noted task begun = v.noted task True := by simp [noted, h]
    rw [hcheck.mpr h, hnoted]
    exact hf h
  · have hnoted : v.noted task begun = [] := if_neg fun hnoted => h hnoted.1
    rw [hnoted]
    cases check with
    | ok x => exact absurd (hcheck.mp rfl) h
    | error e => exact Routine.notes_finish nofun

/-- **A timed conversation makes one note at its end**, however it ends. -/
theorem notes_timed {α : Type} {a : Attempt α} (task : String)
    (h : ∀ note, a.outcome.Marks note 0) :
    (v.timed task a).Notes (v.noted task True) fun _ => True := by
  rw [Attempt.Notes, Encounter.outcome_timed]
  refine (Routine.notes_of_marks h).bind fun outcome _ => ?_
  intro log b hlog
  refine ⟨?_, fun _ _ => trivial⟩
  by_cases hon : v.instrumented = true
  · rw [if_pos hon] at hlog
    cases hlog with
    | interval _ hnext =>
      obtain ⟨rfl, -⟩ := hnext.of_finish
      exact (if_pos ⟨trivial, hon⟩).symm
  · rw [if_neg hon] at hlog
    obtain ⟨rfl, -⟩ := hlog.of_finish
    exact (if_neg fun hnoted => hon hnoted.2).symm

section Marks

variable {note : String} {α : Type} [Record α] (me : Seat) (tag : Tag)

theorem marks_allToAllRecords (rows : List (List α)) :
    (Collective.allToAllRecords me tag rows).outcome.Marks note 0 :=
  Collective.marks_attempt_bind (Collective.marks_allToAll me tag _) fun _ => rfl

theorem marks_gatherRecordsTo (root : Nat) (items : List α) :
    (Collective.gatherRecordsTo me tag root items).outcome.Marks note 0 :=
  Collective.marks_attempt_bind (Collective.marks_gatherTo me tag root _) fun _ => rfl

theorem marks_explicit (claim : Span) : (Partition.explicit me claim).outcome.Marks note 0 :=
  Collective.marks_attempt_bind (Collective.marks_allGatherRecords me _ _) fun _ => rfl

end Marks

theorem notes_init (v : Shard) (claim : Span) :
    (v.init claim).Notes (v.noted partitionTask True) fun u => u.instrumented = v.instrumented :=
  (notes_timed partitionTask fun _ => marks_explicit v.seat claim).bind_nil fun _ _ =>
    Routine.notes_finish fun _ hu => Except.ok.inj hu ▸ rfl

theorem notes_gatherValues (v : Shard) (indices : List UInt64) :
    (v.gatherValues indices).Notes (v.noted gatherTask True) fun _ => True := by
  refine notes_timed gatherTask fun note => ?_
  refine Collective.marks_attempt_bind rfl fun owners => ?_
  refine Collective.marks_attempt_bind (marks_allToAllRecords _ _ _) fun incoming => ?_
  refine Collective.marks_attempt_bind (marks_allToAllRecords _ _ _) fun answers => ?_
  exact Collective.marks_attempt_bind rfl fun _ =>
    Collective.marks_attempt_bind rfl fun _ => rfl

theorem requireGather_eq_ok_iff (v : Shard) (op : Operation) :
    v.requireGather op = .ok () ↔ v.capabilities.gather = true := by
  rw [requireGather]
  split <;> simp_all

theorem checkGlobalSize_eq_ok_iff (op : Operation) (expected found : UInt64) :
    checkGlobalSize op expected found = .ok () ↔ expected = found := by
  rw [checkGlobalSize]
  split <;> simp_all

theorem notes_gather (v : Shard) (indices : List UInt64) :
    (v.gather indices).Notes (v.noted gatherTask (v.capabilities.gather = true)) fun _ => True :=
  notes_check (v.requireGather_eq_ok_iff .gather) fun _ => v.notes_gatherValues indices

theorem notes_gatherOnZero (v : Shard) :
    v.gatherOnZero.Notes (v.noted gatherOnZeroTask (v.capabilities.gather = true))
      fun _ => True :=
  notes_check (v.requireGather_eq_ok_iff .gatherOnZero) fun _ =>
    notes_timed gatherOnZeroTask fun _ =>
      Collective.marks_attempt_bind (marks_gatherRecordsTo _ _ _ _) fun _ => rfl

/-- A gather of so many entries into a target may begin. -/
def Admits (v target : Shard) (count : Nat) : Prop :=
  v.capabilities.gather = true ∧ target.seat.size = 1 ∧
    (target.isBound = true → target.size.toNat = count)

instance (v target : Shard) (count : Nat) : Decidable (v.Admits target count) :=
  inferInstanceAs (Decidable (_ ∧ _ ∧ _))

theorem checkTarget_eq_ok_iff (v target : Shard) (count : Nat) :
    v.checkTarget target count = .ok () ↔ v.Admits target count := by
  rw [checkTarget, Admits, ← v.requireGather_eq_ok_iff .gather]
  cases v.requireGather .gather with
  | error e =>
    refine iff_of_false (fun h => ?_) fun h => ?_
    · cases h
    · cases h.1
  | ok x =>
    change (if _ then _ else _) = _ ↔ _
    split
    · next hsize => simp [hsize]
    · next hsize =>
      split
      · next hbound => simp [hbound]
      · next hbound => simp_all

theorem notes_gatherInto (v target : Shard) (indices : List UInt64) :
    (v.gatherInto target indices).Notes (v.noted gatherTask (v.Admits target indices.length))
      fun u => u.instrumented = target.instrumented :=
  notes_check (v.checkTarget_eq_ok_iff target indices.length) fun _ =>
    (v.notes_gatherValues indices).bind_nil fun _ _ =>
      Attempt.notes_ofExcept fun _ hu => instrumented_receive hu

theorem notes_redistribute (v : Shard) (layout : Partition) :
    (v.redistribute layout).Notes (v.noted gatherTask (v.size = layout.size)) fun _ => True :=
  notes_check (checkGlobalSize_eq_ok_iff .redistribute v.size layout.size) fun _ =>
    v.notes_gatherValues _

/-- Vectors of one size that have different layouts are both laid out. -/
theorem exists_layout_of_not_sameLayout (hsize : v.size = w.size)
    (hlayout : v.sameLayout w = false) :
    ∃ layout, v.layout = some layout ∧ w.size = layout.size := by
  rw [size, size] at hsize
  rw [sameLayout] at hlayout
  cases hv : v.layout with
  | some p =>
    rw [hv] at hsize
    exact ⟨p, rfl, hsize.symm⟩
  | none =>
    rw [hv] at hsize hlayout
    cases hw : w.layout with
    | none =>
      rw [hw] at hlayout
      cases hlayout
    | some q =>
      rw [hw] at hsize hlayout
      simp [← hsize] at hlayout

/-- **The right operand notes the gather** that brings it into the layout of the left one. -/
theorem notes_combine (v : Shard) (sign : Sign) (w : Shard) :
    (v.combine sign w).Notes (w.noted gatherTask (v.size = w.size ∧ v.sameLayout w = false))
      fun u => u.instrumented = v.instrumented := by
  rw [combine]
  by_cases hlayout : v.sameLayout w = true
  · -- the entries are combined in place
    have hnoted : w.noted gatherTask (v.size = w.size ∧ v.sameLayout w = false) = [] :=
      if_neg fun h => Bool.false_ne_true (h.1.2.symm.trans hlayout)
    rw [hnoted]
    refine (Attempt.notes_ofExcept fun _ _ => trivial).bind_nil (P := fun _ => True) fun _ _ => ?_
    rw [if_pos hlayout]
    exact Attempt.notes_ofExcept fun _ hu => instrumented_withStorage (v := v.copy) hu
  · have hnoted : w.noted gatherTask (v.size = w.size ∧ v.sameLayout w = false) =
        w.noted gatherTask (v.size = w.size) := by
      simp [noted, hlayout]
    rw [hnoted]
    refine notes_check (checkGlobalSize_eq_ok_iff _ _ _) fun hsize => ?_
    obtain ⟨layout, hv, hfits⟩ := exists_layout_of_not_sameLayout hsize (by simpa using hlayout)
    have hgather := w.notes_redistribute layout
    have hfits : w.noted gatherTask (w.size = layout.size) = w.noted gatherTask True := by
      simp [noted, hfits]
    rw [if_neg hlayout, hv, ← hfits]
    exact hgather.bind_nil fun _ _ =>
      Attempt.notes_ofExcept fun _ hu => instrumented_withStorage (v := v.copy) hu

end Shard

end ShardedVector
