/-
# Readings that clear while others record

Any number of threads share a registry: they record intervals, read a task and clear it, and list
everything and clear it, one access of the registry at a time and in any order.  To read and clear a
task is one access, but a clearing listing is many: it reads entry after entry, and then removes the
tasks that it has read.  `SharedRegistry` is the registry with its threads, and it keeps a record of
what was recorded, of what the readings returned, and of each removal by a listing: the count that
the listing has shown of the task, and the count that it has removed.

* `Balanced` is what every access keeps: what was recorded is what is held, returned or about to be
  returned, up to the difference between what the removals have shown and what they have removed.
* `Balanced.run` says so of every interleaving, and `run_listing` that a listing which nobody
  disturbs is `Registry.list` and removes what it shows.
* `Bounded`: no count exceeds the number of intervals that were recorded of its task, so the words
  that counts are kept in show them until 2^64 intervals are reached (`TaskTime.toNat_word`).

`conserved_iff_shown_eq_removed` is the law that follows.  A listing throws away what its removals
find, so an interval that comes between its reading and its removal is lost, and one that two
listings read is returned twice: `exists_lost_and_doubled`.
-/
import Mathlib.Algebra.BigOperators.Fin
import ShardedVector.Proofs.Timing.Registry

namespace ShardedVector

/-! ## 1. Threads and their accesses -/

/-- What a thread does to the registry in one atomic access.  The last five are the parts of a
clearing listing. -/
inductive Access where
  | record (task : String) (interval : Sample)
  | take (task : String)
  | enter
  | look (task : String)
  | turn
  | remove
  | finish
deriving DecidableEq

/-- How far the clearing listing of a thread has come, if it is at one: while it reads, the entries
that it has read; then those of them whose tasks it has removed, and those that are left. -/
inductive Reader where
  | idle
  | reading (shown : List (String × TaskTime))
  | removing (gone rest : List (String × TaskTime))
deriving DecidableEq

/-- A removal by a listing: the count that the listing shows of the task, and the count that it has
removed. -/
structure Removal where
  task : String
  shown : Nat
  removed : Nat
deriving DecidableEq

/-- How many intervals of each task are in a list of entries. -/
def Registry.counts (es : List (String × TaskTime)) : List (String × Nat) :=
  es.map fun e => (e.1, e.2.count)

/-- A registry and `n` threads, with a record of the tasks of all intervals, of the counts that
finished readings have returned, and of the removals by listings. -/
structure SharedRegistry (n : Nat) where
  registry : Registry
  readers : Fin n → Reader
  recorded : List String
  returned : List (String × Nat)
  removals : List Removal

namespace SharedRegistry

variable {n : Nat}

/-- Threads that have done nothing yet. -/
def opening (n : Nat) : SharedRegistry n := ⟨.empty, fun _ => .idle, [], [], []⟩

/-- Thread `i` comes to another point of its listing. -/
def setReader (s : SharedRegistry n) (i : Fin n) (r : Reader) : SharedRegistry n :=
  { s with readers := Function.update s.readers i r }

@[simp] theorem readers_setReader (s : SharedRegistry n) (i : Fin n) (r : Reader) :
    (s.setReader i r).readers i = r := Function.update_self ..

theorem readers_setReader_of_ne (s : SharedRegistry n) {i j : Fin n} (hj : j ≠ i) (r : Reader) :
    (s.setReader i r).readers j = s.readers j := Function.update_of_ne hj ..

/-- A listing reads the entry of a task, if there is one that it has not read yet. -/
def look (s : SharedRegistry n) (i : Fin n) (shown : List (String × TaskTime)) (task : String) :
    SharedRegistry n :=
  match s.registry.entry? task with
  | none => s
  | some time =>
    if task ∈ shown.map Prod.fst then s else s.setReader i (.reading (shown ++ [(task, time)]))

/-- The registry and its threads after an access by thread `i`.  In the middle of a listing a thread
does nothing but go on with it, and there is nothing to go on with outside of one. -/
def step (s : SharedRegistry n) (i : Fin n) (access : Access) : SharedRegistry n :=
  match s.readers i, access with
  | .idle, .record task interval =>
    { s with
      registry := s.registry.record task interval
      recorded := s.recorded ++ [task] }
  | .idle, .take task =>
    match s.registry.read task .clear with
    | (.error _, r) => { s with registry := r }
    | (.ok time, r) =>
      { s with
        registry := r
        returned := s.returned ++ [(task, time.count)] }
  | .idle, .enter => s.setReader i (.reading [])
  | .reading shown, .look task => s.look i shown task
  | .reading shown, .turn => s.setReader i (.removing [] shown)
  | .removing gone (e :: rest), .remove =>
    { s.setReader i (.removing (gone ++ [e]) rest) with
      registry := s.registry.remove e.1
      removals := s.removals ++ [⟨e.1, e.2.count, s.registry.count e.1⟩] }
  | .removing gone [], .finish =>
    { s.setReader i .idle with
      returned := s.returned ++ Registry.counts gone }
  | _, _ => s

/-- The registry and its threads after an interleaving: a list of which thread makes which
access. -/
def run (s : SharedRegistry n) (steps : List (Fin n × Access)) : SharedRegistry n :=
  steps.foldl (fun s x => s.step x.1 x.2) s

theorem run_append (s : SharedRegistry n) (steps more : List (Fin n × Access)) :
    s.run (steps ++ more) = (s.run steps).run more := List.foldl_append

/-! ## 2. The balance -/

/-- How many intervals of a task there are in a list of counts. -/
def total (task : String) (xs : List (String × Nat)) : Nat :=
  (xs.map fun x => if x.1 = task then x.2 else 0).sum

section Total

variable (task : String)

@[simp] theorem total_append (xs ys : List (String × Nat)) :
    total task (xs ++ ys) = total task xs + total task ys := by
  rw [total, List.map_append, List.sum_append]
  rfl

@[simp] theorem total_singleton (x : String × Nat) :
    total task [x] = if x.1 = task then x.2 else 0 := Nat.add_zero _

end Total

end SharedRegistry

namespace Reader

/-- What a listing is about to return of the tasks that it has removed. -/
def pending (task : String) : Reader → Nat
  | removing gone _ => SharedRegistry.total task (Registry.counts gone)
  | _ => 0

variable (task : String)

@[simp] theorem pending_idle : idle.pending task = 0 := rfl

@[simp] theorem pending_removing_concat (gone rest : List (String × TaskTime))
    (e : String × TaskTime) : (removing (gone ++ [e]) rest).pending task =
      (removing gone rest).pending task + if e.1 = task then e.2.count else 0 := by
  simp [pending, Registry.counts]

end Reader

namespace SharedRegistry

variable {n : Nat}

/-- What listings have shown of a task that they then removed. -/
def shown (s : SharedRegistry n) (task : String) : Nat :=
  total task (s.removals.map fun r => (r.task, r.shown))

/-- What the removals by listings have removed of a task. -/
def removed (s : SharedRegistry n) (task : String) : Nat :=
  total task (s.removals.map fun r => (r.task, r.removed))

/-- What listings in progress are about to return of a task. -/
def pending (s : SharedRegistry n) (task : String) : Nat := ∑ i, (s.readers i).pending task

/-- **The balance of a task.** -/
structure Balanced (s : SharedRegistry n) : Prop where
  orderly : s.registry.Orderly
  balance : ∀ task, s.recorded.count task + s.shown task =
    total task s.returned + s.pending task + s.registry.count task + s.removed task

theorem balanced_opening : (opening n).Balanced := by
  refine ⟨Registry.orderly_empty, fun task => ?_⟩
  have hpending : (opening n).pending task = 0 := Finset.sum_eq_zero fun _ _ => rfl
  rw [hpending]
  rfl

/-- One thread comes to another point, and all others stay where they are. -/
theorem pending_setReader (s : SharedRegistry n) (i : Fin n) (r : Reader) (task : String) :
    (s.setReader i r).pending task + (s.readers i).pending task =
      s.pending task + r.pending task := by
  have hothers : ∑ j ∈ Finset.univ.erase i, (Function.update s.readers i r j).pending task =
      ∑ j ∈ Finset.univ.erase i, (s.readers j).pending task :=
    Finset.sum_congr rfl fun j hj => by
      rw [Function.update_of_ne (Finset.ne_of_mem_erase hj)]
  have hbefore := Finset.add_sum_erase Finset.univ (fun j => (s.readers j).pending task)
    (Finset.mem_univ i)
  have hafter := Finset.add_sum_erase Finset.univ
    (fun j => (Function.update s.readers i r j).pending task) (Finset.mem_univ i)
  simp only [Function.update_self, hothers] at hafter hbefore
  change (∑ j, (Function.update s.readers i r j).pending task) + _ =
    (∑ j, (s.readers j).pending task) + _
  omega

namespace Balanced

variable {s : SharedRegistry n} (h : s.Balanced)

include h

/-- A thread that is about to return nothing more than before comes to another point. -/
theorem setReader {i : Fin n} {r : Reader}
    (hpending : ∀ task, r.pending task = (s.readers i).pending task) :
    (s.setReader i r).Balanced := by
  refine ⟨h.orderly, fun task => ?_⟩
  have hbalance := h.balance task
  have hsum := s.pending_setReader i r task
  rw [hpending] at hsum
  change s.recorded.count task + s.shown task = total task s.returned +
    (s.setReader i r).pending task + s.registry.count task + s.removed task
  omega

theorem record (task : String) (interval : Sample) : Balanced { s with
    registry := s.registry.record task interval
    recorded := s.recorded ++ [task] } := by
  refine ⟨h.orderly.record task interval, fun other => ?_⟩
  have hbalance := h.balance other
  have hcount := h.orderly.count_record task other interval
  have hrecorded : (s.recorded ++ [task]).count other =
      s.recorded.count other + if task = other then 1 else 0 := by
    simp [List.count_singleton]
  change (s.recorded ++ [task]).count other + s.shown other = total other s.returned +
    s.pending other + (s.registry.record task interval).count other + s.removed other
  omega

/-- What is removed at once is what is returned. -/
theorem take {task : String} {time : TaskTime} (hentry : s.registry.entry? task = some time) :
    Balanced { s with
      registry := s.registry.remove task
      returned := s.returned ++ [(task, time.count)] } := by
  refine ⟨h.orderly.remove task, fun other => ?_⟩
  have hbalance := h.balance other
  have hheld := Registry.count_eq_of_entry_eq hentry
  have hcount := s.registry.count_remove task other
  have hreturned := total_append other s.returned [(task, time.count)]
  rw [total_singleton] at hreturned
  change s.recorded.count other + s.shown other = total other (s.returned ++ [(task, time.count)]) +
    s.pending other + (s.registry.remove task).count other + s.removed other
  by_cases hother : task = other
  · subst hother
    simp only [if_true] at hcount hreturned
    omega
  · simp only [hother, if_false] at hcount hreturned
    omega

/-- What a listing removes need not be what it returns, so both are noted. -/
theorem remove {i : Fin n} {gone rest : List (String × TaskTime)} {e : String × TaskTime}
    (hreader : s.readers i = .removing gone (e :: rest)) :
    Balanced { s.setReader i (.removing (gone ++ [e]) rest) with
      registry := s.registry.remove e.1
      removals := s.removals ++ [⟨e.1, e.2.count, s.registry.count e.1⟩] } := by
  refine ⟨h.orderly.remove e.1, fun task => ?_⟩
  have hbalance := h.balance task
  have hsum := s.pending_setReader i (.removing (gone ++ [e]) rest) task
  rw [hreader, Reader.pending_removing_concat] at hsum
  have hcount := s.registry.count_remove e.1 task
  let noted := s.removals ++ [⟨e.1, e.2.count, s.registry.count e.1⟩]
  have hshown : total task (noted.map fun r => (r.task, r.shown)) =
      s.shown task + if e.1 = task then e.2.count else 0 := by
    simp [noted, shown]
  have hremoved : total task (noted.map fun r => (r.task, r.removed)) =
      s.removed task + if e.1 = task then s.registry.count e.1 else 0 := by
    simp [noted, removed]
  change s.recorded.count task + total task (noted.map fun r => (r.task, r.shown)) =
    total task s.returned + (s.setReader i (.removing (gone ++ [e]) rest)).pending task +
      (s.registry.remove e.1).count task + total task (noted.map fun r => (r.task, r.removed))
  have hpending : (Reader.removing gone (e :: rest)).pending task =
      (Reader.removing gone rest).pending task := rfl
  by_cases htask : e.1 = task
  · subst htask
    simp only [if_true] at *
    omega
  · simp only [htask, if_false] at *
    omega

/-- A listing that is done returns what it was about to return. -/
theorem finish {i : Fin n} {gone : List (String × TaskTime)}
    (hreader : s.readers i = .removing gone []) :
    Balanced { s.setReader i .idle with returned := s.returned ++ Registry.counts gone } := by
  refine ⟨h.orderly, fun task => ?_⟩
  have hbalance := h.balance task
  have hsum := s.pending_setReader i .idle task
  rw [hreader, Reader.pending_idle] at hsum
  have hreturned : total task (s.returned ++ Registry.counts gone) =
      total task s.returned + (Reader.removing gone []).pending task := total_append ..
  change s.recorded.count task + s.shown task = total task (s.returned ++ Registry.counts gone) +
    (s.setReader i .idle).pending task + s.registry.count task + s.removed task
  omega

/-- **Every access keeps the balance.** -/
theorem step (i : Fin n) (access : Access) : (s.step i access).Balanced := by
  unfold SharedRegistry.step
  split
  · exact h.record _ _
  · next task _ =>
    cases hentry : s.registry.entry? task with
    | none =>
      simp only [Registry.read, hentry]
      exact h
    | some time =>
      simp only [Registry.read, hentry]
      exact h.take hentry
  · next hidle =>
    refine h.setReader fun task => ?_
    rw [hidle]
    rfl
  · next shown task hreading =>
    unfold look
    split
    · exact h
    · split
      · exact h
      · refine h.setReader fun task => ?_
        rw [hreading]
        rfl
  · next shown hreading =>
    refine h.setReader fun task => ?_
    rw [hreading]
    rfl
  · next hremoving => exact h.remove hremoving
  · next hremoving => exact h.finish hremoving
  · exact h

theorem run (steps : List (Fin n × Access)) : (s.run steps).Balanced := by
  induction steps generalizing s with
  | nil => exact h
  | cons x rest ih => exact ih (h.step x.1 x.2)

end Balanced

/-! ## 3. No count outgrows what was recorded -/

end SharedRegistry

/-- The entries that a listing has read, those that it has removed among them. -/
def Reader.entries : Reader → List (String × TaskTime)
  | idle => []
  | reading shown => shown
  | removing gone rest => gone ++ rest

namespace SharedRegistry

/-- Whatever is held, read, returned or noted of a task is not more than what was recorded of it. -/
structure Bounded (s : SharedRegistry n) : Prop where
  held : ∀ task, s.registry.count task ≤ s.recorded.count task
  read : ∀ i, ∀ e ∈ (s.readers i).entries, e.2.count ≤ s.recorded.count e.1
  returned : ∀ x ∈ s.returned, x.2 ≤ s.recorded.count x.1
  removals : ∀ r ∈ s.removals,
    r.shown ≤ s.recorded.count r.task ∧ r.removed ≤ s.recorded.count r.task

theorem bounded_opening : (opening n).Bounded :=
  ⟨fun _ => Nat.le_refl 0, fun _ => nofun, nofun, nofun⟩

namespace Bounded

variable {s : SharedRegistry n} (h : s.Bounded)

include h

/-- A listing that has read nothing but what may be there. -/
theorem setReader {i : Fin n} {r : Reader}
    (hread : ∀ e ∈ r.entries, e.2.count ≤ s.recorded.count e.1) : (s.setReader i r).Bounded := by
  refine ⟨h.held, fun j => ?_, h.returned, h.removals⟩
  by_cases hj : j = i
  · subst hj
    rw [readers_setReader]
    exact hread
  · rw [s.readers_setReader_of_ne hj]
    exact h.read j

theorem record (horderly : s.registry.Orderly) (task : String) (interval : Sample) :
    Bounded { s with
      registry := s.registry.record task interval
      recorded := s.recorded ++ [task] } := by
  have hmore (other : String) : s.recorded.count other ≤ (s.recorded ++ [task]).count other := by
    rw [List.count_append]
    exact Nat.le_add_right _ _
  refine ⟨fun other => ?_, fun i e he => (h.read i e he).trans (hmore e.1),
    fun x hx => (h.returned x hx).trans (hmore x.1), fun r hr =>
      ⟨(h.removals r hr).1.trans (hmore r.task), (h.removals r hr).2.trans (hmore r.task)⟩⟩
  rw [horderly.count_record, List.count_append, List.count_singleton]
  simp only [beq_iff_eq]
  exact Nat.add_le_add_right (h.held other) _

theorem held_remove (task other : String) :
    (s.registry.remove task).count other ≤ s.recorded.count other := by
  rw [Registry.count_remove]
  split
  · exact Nat.zero_le _
  · exact h.held other

theorem take {task : String} {time : TaskTime} (hentry : s.registry.entry? task = some time) :
    Bounded { s with
      registry := s.registry.remove task
      returned := s.returned ++ [(task, time.count)] } := by
  refine ⟨h.held_remove task, h.read, fun x hx => ?_, h.removals⟩
  rcases List.mem_append.mp hx with hx | hx
  · exact h.returned x hx
  · obtain rfl := List.mem_singleton.mp hx
    exact Registry.count_eq_of_entry_eq hentry ▸ h.held task

/-- What a listing reads is held. -/
theorem look {i : Fin n} {shown : List (String × TaskTime)}
    (hreader : s.readers i = .reading shown) (task : String) : (s.look i shown task).Bounded := by
  rw [SharedRegistry.look]
  split
  · exact h
  · next time hentry =>
    split
    · exact h
    · refine h.setReader fun e he => ?_
      rcases List.mem_append.mp he with he | he
      · exact h.read i e (hreader ▸ he)
      · obtain rfl := List.mem_singleton.mp he
        exact Registry.count_eq_of_entry_eq hentry ▸ h.held task

theorem remove {i : Fin n} {gone rest : List (String × TaskTime)} {e : String × TaskTime}
    (hreader : s.readers i = .removing gone (e :: rest)) :
    Bounded { s.setReader i (.removing (gone ++ [e]) rest) with
      registry := s.registry.remove e.1
      removals := s.removals ++ [⟨e.1, e.2.count, s.registry.count e.1⟩] } := by
  have hread : ∀ f ∈ gone ++ e :: rest, f.2.count ≤ s.recorded.count f.1 := fun f hf =>
    h.read i f (hreader ▸ hf)
  have hset := h.setReader (i := i) (r := .removing (gone ++ [e]) rest) fun f hf =>
    hread f (by simpa [Reader.entries] using hf)
  refine ⟨h.held_remove e.1, hset.read, h.returned, fun r hr => ?_⟩
  rcases List.mem_append.mp hr with hr | hr
  · exact h.removals r hr
  · obtain rfl := List.mem_singleton.mp hr
    exact ⟨hread e (by simp), h.held e.1⟩

theorem finish {i : Fin n} {gone : List (String × TaskTime)}
    (hreader : s.readers i = .removing gone []) :
    Bounded { s.setReader i .idle with returned := s.returned ++ Registry.counts gone } := by
  have hset := h.setReader (i := i) (r := .idle) nofun
  refine ⟨h.held, hset.read, fun x hx => ?_, h.removals⟩
  rcases List.mem_append.mp hx with hx | hx
  · exact h.returned x hx
  · obtain ⟨e, he, rfl⟩ := List.mem_map.mp hx
    exact h.read i e (hreader ▸ List.mem_append_left [] he)

/-- **Every access keeps the counts in bounds.** -/
theorem step (horderly : s.registry.Orderly) (i : Fin n) (access : Access) :
    (s.step i access).Bounded := by
  unfold SharedRegistry.step
  split
  · exact h.record horderly _ _
  · next task _ =>
    cases hentry : s.registry.entry? task with
    | none =>
      simp only [Registry.read, hentry]
      exact h
    | some time =>
      simp only [Registry.read, hentry]
      exact h.take hentry
  · exact h.setReader fun e he => absurd he List.not_mem_nil
  · next hreading => exact h.look hreading _
  · next hreading => exact h.setReader fun e he => h.read i e (hreading ▸ he)
  · next hremoving => exact h.remove hremoving
  · next hremoving => exact h.finish hremoving
  · exact h

theorem run (hbalanced : s.Balanced) (steps : List (Fin n × Access)) : (s.run steps).Bounded := by
  induction steps generalizing s with
  | nil => exact h
  | cons x rest ih =>
    exact ih (h.step hbalanced.orderly x.1 x.2) (hbalanced.step x.1 x.2)

end Bounded

/-! ## 4. Without a listing, and with one that nobody disturbs -/

/-- No listing was ever begun. -/
structure Unlisted (s : SharedRegistry n) : Prop where
  idle : ∀ i, s.readers i = .idle
  removals : s.removals = []

theorem unlisted_opening : (opening n).Unlisted := ⟨fun _ => rfl, rfl⟩

variable {s : SharedRegistry n}

theorem Unlisted.step (h : s.Unlisted) (i : Fin n) {access : Access} (henter : access ≠ .enter) :
    (s.step i access).Unlisted := by
  unfold SharedRegistry.step
  rw [h.idle i]
  cases access with
  | record task interval => exact ⟨h.idle, h.removals⟩
  | take task =>
    dsimp only
    split <;> exact ⟨h.idle, h.removals⟩
  | enter => exact absurd rfl henter
  | look task | turn | remove | finish => exact h

theorem Unlisted.run (h : s.Unlisted) {steps : List (Fin n × Access)}
    (henter : ∀ x ∈ steps, x.2 ≠ .enter) : (s.run steps).Unlisted := by
  induction steps generalizing s with
  | nil => exact h
  | cons x rest ih =>
    obtain ⟨hx, hrest⟩ := List.forall_mem_cons.mp henter
    exact ih (h.step x.1 hx) hrest

/-- The accesses of a clearing listing that finds these entries. -/
def listing (i : Fin n) (es : List (String × TaskTime)) : List (Fin n × Access) :=
  (i, .enter) :: (es.map (fun e => (i, .look e.1)) ++
    (i, .turn) :: (es.map (fun _ => (i, .remove)) ++ [(i, .finish)]))

@[simp] theorem setReader_setReader (s : SharedRegistry n) (i : Fin n) (r r' : Reader) :
    (s.setReader i r).setReader i r' = s.setReader i r' := by
  rw [setReader, setReader, setReader, Function.update_idem]

theorem run_cons (s : SharedRegistry n) (i : Fin n) (access : Access)
    (rest : List (Fin n × Access)) : s.run ((i, access) :: rest) = (s.step i access).run rest := rfl

theorem look_of_entry_eq {i : Fin n} {shown : List (String × TaskTime)} {task : String}
    {time : TaskTime} (hentry : s.registry.entry? task = some time)
    (hfresh : task ∉ shown.map Prod.fst) :
    s.look i shown task = s.setReader i (.reading (shown ++ [(task, time)])) := by
  rw [look, hentry]
  exact if_neg hfresh

/-- A listing reads the entries that it has not read yet. -/
theorem run_look (horderly : s.registry.Orderly) {i : Fin n} {shown rest : List (String × TaskTime)}
    (hentries : s.registry.entries = shown ++ rest) :
    (s.setReader i (.reading shown)).run (rest.map fun e => (i, .look e.1)) =
      s.setReader i (.reading (shown ++ rest)) := by
  induction rest generalizing shown with
  | nil =>
    rw [List.append_nil]
    rfl
  | cons e rest ih =>
    have hmem : (e.1, e.2) ∈ s.registry.entries := by simp [hentries]
    have hentry : s.registry.entry? e.1 = some e.2 := horderly.mem_entries_iff.mp hmem
    -- the names before it are smaller
    have hfresh : e.1 ∉ shown.map Prod.fst := by
      intro hshown
      obtain ⟨f, hf, hname⟩ := List.mem_map.mp hshown
      have hascending := horderly.ascending
      rw [hentries] at hascending
      have hlt := (List.pairwise_append.mp hascending).2.2 f hf e List.mem_cons_self
      exact String.lt_irrefl _ (hname ▸ hlt)
    have hlook : (s.setReader i (.reading shown)).step i (.look e.1) =
        s.setReader i (.reading (shown ++ [e])) := by
      simp only [step, readers_setReader]
      exact (look_of_entry_eq (s := s.setReader i (.reading shown)) hentry hfresh).trans
        (setReader_setReader ..)
    rw [List.map_cons, run_cons, hlook, ih (by simpa using hentries), List.append_assoc,
      List.singleton_append]

/-- A listing removes the tasks that it has read. -/
theorem run_remove (horderly : s.registry.Orderly) {i : Fin n}
    {gone rest : List (String × TaskTime)} (hentries : s.registry.entries = rest) :
    (s.setReader i (.removing gone rest)).run (rest.map fun _ => (i, .remove)) =
      { s.setReader i (.removing (gone ++ rest) []) with
        registry := .empty
        removals := s.removals ++ rest.map fun e => ⟨e.1, e.2.count, e.2.count⟩ } := by
  induction rest generalizing s gone with
  | nil =>
    have hempty : s.registry = .empty := congrArg Registry.mk hentries
    simp only [List.append_nil, List.map_nil, ← hempty]
    rfl
  | cons e rest ih =>
    have hmem : (e.1, e.2) ∈ s.registry.entries := by simp [hentries]
    have hcount := Registry.count_eq_of_entry_eq (horderly.mem_entries_iff.mp hmem)
    have hleft : (s.registry.remove e.1).entries = rest := horderly.entries_remove_head hentries
    -- the removal finds what the reading has found
    let after : SharedRegistry n := { s with
      registry := s.registry.remove e.1
      removals := s.removals ++ [⟨e.1, e.2.count, e.2.count⟩] }
    have hremove : (s.setReader i (.removing gone (e :: rest))).step i .remove =
        after.setReader i (.removing (gone ++ [e]) rest) := by
      simp only [step, readers_setReader, setReader_setReader, after, ← hcount]
      rfl
    rw [List.map_cons, run_cons, hremove]
    refine (ih (s := after) (horderly.remove e.1) hleft).trans ?_
    simp [after, setReader]

/-- **A listing that nobody disturbs is `Registry.list`**, and removes what it shows. -/
theorem run_listing (horderly : s.registry.Orderly) {i : Fin n} (hidle : s.readers i = .idle) :
    s.run (listing i s.registry.entries) =
      { s with
        registry := (s.registry.list .clear).2
        returned := s.returned ++ Registry.counts (s.registry.list .clear).1
        removals := s.removals ++
          s.registry.entries.map fun e => ⟨e.1, e.2.count, e.2.count⟩ } := by
  have henter : s.step i .enter = s.setReader i (.reading []) := by simp only [step, hidle]
  have hlook := run_look horderly (i := i) (List.nil_append s.registry.entries).symm
  have hturn : (s.setReader i (.reading s.registry.entries)).step i .turn =
      s.setReader i (.removing [] s.registry.entries) := by
    simp only [step, readers_setReader, setReader_setReader]
  have hself : Function.update s.readers i .idle = s.readers := by
    rw [← hidle, Function.update_eq_self]
  rw [listing, run_cons, henter, run_append, hlook, List.nil_append, run_cons, hturn, run_append,
    run_remove horderly rfl, List.nil_append, Registry.list_clear, run_cons]
  simp [step, setReader, hself, run]

/-! ## 5. What is lost and what is doubled -/

/-- **A registry that is shared conserves a task exactly when the removals have removed what they
have shown of it**, whatever threads share it and however their accesses interleave, when no listing
is in progress.  So it does where there are no listings, and a listing that nobody disturbs changes
nothing about it.  No count exceeds the number of intervals that were recorded of its task. -/
theorem conserved_iff_shown_eq_removed (n : Nat) (steps : List (Fin n × Access)) :
    let s := (opening n).run steps
    (∀ task, s.recorded.count task + s.shown task =
      total task s.returned + s.pending task + s.registry.count task + s.removed task) ∧
    ((∀ i, s.readers i = .idle) → ∀ task,
      (total task s.returned + s.registry.count task = s.recorded.count task ↔
        s.shown task = s.removed task)) ∧
    ((∀ x ∈ steps, x.2 ≠ .enter) → ∀ task,
      total task s.returned + s.registry.count task = s.recorded.count task) ∧
    s.Bounded ∧
    ∀ i, s.readers i = .idle → s.run (listing i s.registry.entries) =
      { s with
        registry := (s.registry.list .clear).2
        returned := s.returned ++ Registry.counts (s.registry.list .clear).1
        removals := s.removals ++
          s.registry.entries.map fun e => ⟨e.1, e.2.count, e.2.count⟩ } := by
  intro s
  have h : s.Balanced := balanced_opening.run steps
  have hrest (hidle : ∀ i, s.readers i = .idle) (task : String) :
      total task s.returned + s.registry.count task = s.recorded.count task ↔
        s.shown task = s.removed task := by
    have hpending : s.pending task = 0 := Finset.sum_eq_zero fun i _ => by
      rw [hidle i, Reader.pending_idle]
    have hbalance := h.balance task
    omega
  refine ⟨h.balance, hrest, fun henter task => ?_, bounded_opening.run balanced_opening steps,
    fun i hidle => run_listing h.orderly hidle⟩
  have hunlisted : s.Unlisted := unlisted_opening.run henter
  refine (hrest hunlisted.idle task).mpr ?_
  rw [shown, removed, hunlisted.removals]
  rfl

/-- An interval is recorded between the reading of its task and the removal of it. -/
def overtaken : List (Fin 2 × Access) :=
  [(0, .record "x" .zero), (1, .enter), (1, .look "x"), (1, .turn), (0, .record "x" .zero),
    (1, .remove), (1, .finish)]

/-- Two listings read one entry. -/
def overlapping : List (Fin 2 × Access) :=
  [(0, .record "x" .zero), (0, .enter), (1, .enter), (0, .look "x"), (1, .look "x"), (0, .turn),
    (0, .remove), (0, .finish), (1, .turn), (1, .remove), (1, .finish)]

/-- An interval that comes between the reading of its task and the removal of it is lost; an entry
that two listings read is returned twice.  No listing is in progress any more, and nothing is left
in the registry. -/
theorem exists_lost_and_doubled :
    let s := (opening 2).run overtaken
    let t := (opening 2).run overlapping
    ((∀ i, s.readers i = .idle) ∧ s.registry = .empty ∧
      s.recorded = ["x", "x"] ∧ s.returned = [("x", 1)]) ∧
    (∀ i, t.readers i = .idle) ∧ t.registry = .empty ∧
      t.recorded = ["x"] ∧ t.returned = [("x", 1), ("x", 1)] := by
  decide

end SharedRegistry

end ShardedVector
