/-
# The log of a rank

What a rank notes while it runs depends on what arrives, and so does its value.  This module says
which logs and values go together, and that an ensemble shows nothing else.

* `Routine.Logs` lists the endings of a routine with the tasks that it notes on the way.
* `Routine.Notes` is a routine that notes the same tasks whatever arrives; `Notes.bind` and
  `notes_of_marks` build it up in the way the routines themselves are built.
* `Ensemble.exists_logs` says that the log of a rank is the beginning of one of its routine, and the
  whole of it when the rank has finished (`exists_logs_of_results?`).
* `Ensemble.intervals_unique`: when all ranks have finished, the logs are the same under every
  interleaving.
-/
import ShardedVector.Proofs.Ensemble.Ends
import ShardedVector.Proofs.Ensemble.Marks

namespace ShardedVector

/-! ## 1. Logs of a routine -/

namespace Routine

variable {α β : Type}

/-- The tasks that a routine may note, one after the other, and the value it may then end with.  A
wait may be answered by anything. -/
inductive Logs : Routine α → List String → α → Prop
  | finish (a : α) : Logs (.finish a) [] a
  | send (peer : Nat) (tag : Tag) (message : Bytes) {next : Routine α} {log : List String} {a : α}
      (h : Logs next log a) : Logs (.send peer tag message next) log a
  | receive (peer : Nat) (tag : Tag) (room : Nat) {next : Option Bytes → Routine α}
      (answer : Option Bytes) {log : List String} {a : α} (h : Logs (next answer) log a) :
      Logs (.receive peer tag room next) log a
  | interval (task : String) {next : Routine α} {log : List String} {a : α}
      (h : Logs next log a) : Logs (.interval task next) (task :: log) a

/-- A rehearsal shows one of the logs. -/
theorem logs_rehearse (r : Routine α) (inbox : List Letter) :
    r.Logs (r.rehearse inbox).intervals (r.rehearse inbox).value := by
  induction r generalizing inbox with
  | finish a => exact .finish a
  | send peer tag message next ih => exact .send peer tag message (ih inbox)
  | receive peer tag room next ih => exact .receive peer tag room _ (ih _ _)
  | interval task next ih => exact .interval task (ih inbox)

theorem Logs.of_finish {log : List String} {a b : α} (h : (Routine.finish a).Logs log b) :
    log = [] ∧ a = b := by
  cases h
  exact ⟨rfl, rfl⟩

/-- What two routines note after each other. -/
theorem Logs.of_bind {r : Routine α} {f : α → Routine β} {log : List String} {b : β}
    (h : (r >>= f).Logs log b) :
    ∃ a first second, r.Logs first a ∧ (f a).Logs second b ∧ first ++ second = log := by
  induction r generalizing log with
  | finish a => exact ⟨a, [], log, .finish a, h, rfl⟩
  | send peer tag message next ih =>
    cases h with
    | send _ _ _ hnext =>
      obtain ⟨a, first, second, hfirst, hsecond, rfl⟩ := ih hnext
      exact ⟨a, first, second, .send peer tag message hfirst, hsecond, rfl⟩
  | receive peer tag room next ih =>
    cases h with
    | receive _ _ _ answer hnext =>
      obtain ⟨a, first, second, hfirst, hsecond, rfl⟩ := ih answer hnext
      exact ⟨a, first, second, .receive peer tag room answer hfirst, hsecond, rfl⟩
  | interval task next ih =>
    cases h with
    | interval _ hnext =>
      obtain ⟨a, first, second, hfirst, hsecond, rfl⟩ := ih hnext
      exact ⟨a, _, second, .interval task hfirst, hsecond, rfl⟩

/-- A log has as many notes of a kind as the routine makes. -/
theorem Logs.count_eq {note : String} {r : Routine α} {log : List String} {a : α} {n : Nat}
    (h : r.Logs log a) (hmarks : r.Marks note n) : log.count note = n := by
  induction h generalizing n with
  | finish a => exact hmarks.symm
  | send _ _ _ _ ih => exact ih hmarks
  | receive _ _ _ answer _ ih => exact ih (hmarks answer)
  | interval task _ ih =>
    by_cases htask : task = note
    · subst htask
      rw [Marks, if_pos rfl] at hmarks
      obtain ⟨m, rfl, hm⟩ := hmarks
      rw [List.count_cons_self, ih hm]
    · rw [List.count_cons_of_ne htask, ih ((marks_interval_ne htask).mp hmarks)]

/-! ### The same notes whatever arrives -/

/-- Whatever arrives, the routine notes these tasks, and its value has a property. -/
def Notes (r : Routine α) (tasks : List String) (P : α → Prop) : Prop :=
  ∀ log a, r.Logs log a → log = tasks ∧ P a

variable {P : α → Prop} {Q : β → Prop} {tasks more : List String}

theorem notes_finish {a : α} (h : P a) : (finish a).Notes [] P := by
  intro log b hlog
  obtain ⟨rfl, rfl⟩ := hlog.of_finish
  exact ⟨rfl, h⟩

/-- A routine that makes no note of any kind. -/
theorem notes_of_marks {r : Routine α} (h : ∀ note, r.Marks note 0) :
    r.Notes [] fun _ => True := by
  intro log a hlog
  refine ⟨List.eq_nil_iff_forall_not_mem.mpr fun note hnote => ?_, trivial⟩
  have hcount : log.count note = 0 := hlog.count_eq (h note)
  exact List.count_eq_zero.mp hcount hnote

theorem Notes.bind {r : Routine α} {f : α → Routine β} (h : r.Notes tasks P)
    (hf : ∀ a, P a → (f a).Notes more Q) : (r >>= f).Notes (tasks ++ more) Q := by
  intro log b hlog
  obtain ⟨a, first, second, hfirst, hsecond, rfl⟩ := hlog.of_bind
  obtain ⟨rfl, ha⟩ := h first a hfirst
  obtain ⟨rfl, hb⟩ := hf a ha second b hsecond
  exact ⟨rfl, hb⟩

theorem Notes.mono {r : Routine α} {P' : α → Prop} (h : r.Notes tasks P)
    (hP : ∀ a, P a → P' a) : r.Notes tasks P' := fun log a hlog =>
  (h log a hlog).imp_right (hP a)

/-- What follows notes nothing any more. -/
theorem Notes.bind_nil {r : Routine α} {f : α → Routine β} (h : r.Notes tasks P)
    (hf : ∀ a, P a → (f a).Notes [] Q) : (r >>= f).Notes tasks Q := by
  have hbind := h.bind hf
  rwa [List.append_nil] at hbind

end Routine

/-! ## 2. Logs in an ensemble -/

namespace Party

variable {α : Type}

/-- What a party has noted and what it is going to note is a log of the routine that it began
with. -/
def Logged (origin : Routine α) (p : Party α) : Prop :=
  ∀ log a, p.routine.Logs log a → origin.Logs (p.intervals ++ log) a

theorem logged_start (group rank : Nat) (routine : Routine α) :
    (start group rank routine).Logged routine := fun _ _ h => h

/-- **A note goes from what is to be noted to what was noted.** -/
theorem Logged.move? {origin : Routine α} {p p' : Party α} {m m' : Mailbox}
    (h : p.move? m = some (p', m')) (hp : p.Logged origin) : p'.Logged origin := by
  intro log a hlog
  obtain ⟨e, hoffers, -⟩ := exists_offers_of_move? h
  cases hoffers with
  | sweep c busy => exact hp log a hlog
  | send peer tag message next clear doing =>
    exact hp log a (doing ▸ .send peer tag message hlog)
  | receive peer tag room next message clear doing =>
    exact hp log a (doing ▸ .receive peer tag room _ hlog)
  | interval task next clear doing =>
    have hbefore := hp (task :: log) a (doing ▸ .interval task hlog)
    rwa [List.append_cons] at hbefore

theorem Logged.of_result? {origin : Routine α} {p : Party α} (hp : p.Logged origin) {a : α}
    (h : p.result? = some a) : origin.Logs p.intervals a := by
  unfold result? at h
  split at h
  · next b _ hroutine =>
    obtain rfl : b = a := Option.some.inj h
    have hlog := hp [] b (hroutine ▸ Routine.Logs.finish b)
    rwa [List.append_nil] at hlog
  · cases h

end Party

namespace Ensemble

variable {α : Type}

theorem logged_of_getElem? {group size : Nat} {routine : Nat → Routine α} {r : Nat} {q : Party α}
    (h : (ofGroup group size routine).parties[r]? = some q) : q.Logged (routine r) := by
  obtain ⟨-, rfl⟩ := eq_start_of_getElem? h
  exact Party.logged_start group r (routine r)

theorem logged_run {s : Ensemble α} {origin : Routine α} {i : Nat}
    (h : ∀ p, s.parties[i]? = some p → p.Logged origin) (turns : List Nat) :
    ∀ p, (s.run turns).parties[i]? = some p → p.Logged origin := by
  induction turns generalizing s with
  | nil => exact h
  | cons j rest ih =>
    exact ih fun p hp => parties_turn_of_move? Party.Logged.move? h hp

/-- **The log of a rank is the beginning of one of its routine**, at any time. -/
theorem exists_logs (group : Nat) {size : Nat} (routine : Nat → Routine α) (turns : List Nat)
    {r : Nat} (hr : r < size) :
    ∃ p log a, ((ofGroup group size routine).run turns).parties[r]? = some p ∧
      (routine r).Logs (p.intervals ++ log) a := by
  have hlen : r < ((ofGroup group size routine).run turns).parties.length := by
    rw [length_parties_run]
    simpa [ofGroup] using hr
  have hp := List.getElem?_eq_getElem hlen
  have hlogged := logged_run (fun q => logged_of_getElem? (q := q)) turns _ hp
  exact ⟨_, _, _, hp, hlogged _ _ (Routine.logs_rehearse _ [])⟩

/-- **The log of a rank that has finished is one of its routine**, and belongs to its value. -/
theorem exists_logs_of_results? {group size : Nat} {routine : Nat → Routine α} {turns : List Nat}
    {rs : List α} (h : ((ofGroup group size routine).run turns).results? = some rs) {r : Nat}
    (hr : r < size) :
    ∃ p a, ((ofGroup group size routine).run turns).parties[r]? = some p ∧ rs[r]? = some a ∧
      (routine r).Logs p.intervals a := by
  have hlen : r < (ofGroup group size routine).parties.length := by simpa [ofGroup] using hr
  obtain ⟨p, a, hp, ha, hget⟩ := exists_of_results? h hlen
  have hlogged := logged_run (fun q => logged_of_getElem? (q := q)) turns p hp
  exact ⟨p, a, hp, hget, hlogged.of_result? ha⟩

/-- The notes of all ranks are those of one rank after the other. -/
theorem intervals_eq_flatMap {s : Ensemble α} {logs : Nat → List String}
    (h : ∀ r < s.parties.length, ∃ p, s.parties[r]? = some p ∧ p.intervals = logs r) :
    s.intervals = (List.range s.parties.length).flatMap logs := by
  have hmap : s.parties.map Party.intervals = (List.range s.parties.length).map logs := by
    refine List.ext_getElem (by simp) fun r hr _ => ?_
    rw [List.length_map] at hr
    obtain ⟨p, hp, hlog⟩ := h r hr
    obtain ⟨_, rfl⟩ := List.getElem?_eq_some_iff.mp hp
    simpa using hlog
  rw [intervals, List.flatMap_def, hmap, List.flatMap_def]

/-- **The notes are the same under every interleaving** in which all ranks finish. -/
theorem intervals_unique {group size : Nat} {routine : Nat → Routine α} {turns turns' : List Nat}
    (h : ((ofGroup group size routine).run turns).results? ≠ none)
    (h' : ((ofGroup group size routine).run turns').results? ≠ none) :
    ((ofGroup group size routine).run turns').intervals =
      ((ofGroup group size routine).run turns).intervals := by
  have hdistinct : (ofGroup group size routine).view.Distinct := by
    rw [view_ofGroup]
    exact View.distinct_partiesOf _ _ _
  have hended := (ended_of_results? h).stuck
  -- a state of rest is reached from every other one
  have hreach := View.Reaches.of_reaches hdistinct hended
    ((ofGroup group size routine).reaches_run turns)
    ((ofGroup group size routine).reaches_run turns')
  rcases Relation.ReflTransGen.cases_head hreach with heq | ⟨w, hstep, -⟩
  · exact congrArg (fun v => v.parties.flatMap Party.intervals) heq
  · exact absurd hstep ((ended_of_results? h').stuck w)

end Ensemble

end ShardedVector
