/-
# Coming to an end

An ensemble comes to an end when the state of rest that it comes to is one in which all parties
have finished.  What remains of an interleaving is therefore a single question, whether there is
an order that ends, and what it ends with.

`Ensemble.Concludes` says what follows from one, of every interleaving at once: nobody is
stranded, each party that finishes does so with its value of the list, no message is left when
all have finished, and all do finish when each of them keeps getting turns.
`concludes_of_rests` proves it from the state of rest.
-/
import ShardedVector.Proofs.Ensemble.Rest

namespace ShardedVector

/-! ## 1. Views in which all have finished -/

/-- Every party has finished. -/
def View.Ended {α : Type} (v : View α) : Prop := ∀ p ∈ v.parties, p.result?.isSome

theorem View.Ended.stuck {α : Type} {v : View α} (h : v.Ended) : v.Stuck := by
  rintro w ⟨i, p, p', e, hp, ho, -, -⟩
  have hr := h p (List.mem_of_getElem? hp)
  rw [ho.result?_eq_none] at hr
  exact absurd hr (by simp)

namespace Ensemble

variable {α : Type}

theorem results?_eq_some_iff {s : Ensemble α} {rs : List α} :
    s.results? = some rs ↔ s.parties.map Party.result? = rs.map some := by
  unfold results?
  induction s.parties generalizing rs with
  | nil => cases rs <;> simp
  | cons p ps ih =>
    cases hp : p.result? with
    | none => cases rs <;> simp [hp]
    | some a =>
      cases rs with
      | nil => cases hm : ps.mapM Party.result? <;> simp [hp, hm]
      | cons b bs =>
        have := @ih bs
        cases hm : ps.mapM Party.result? <;> simp_all

theorem ended_of_results? {s : Ensemble α} (h : s.results? ≠ none) : s.view.Ended := by
  obtain ⟨rs, hrs⟩ := Option.ne_none_iff_exists'.mp h
  intro p hp
  have hmem : p.result? ∈ s.parties.map Party.result? := List.mem_map_of_mem hp
  rw [results?_eq_some_iff.mp hrs] at hmem
  obtain ⟨a, -, ha⟩ := List.mem_map.mp hmem
  rw [← ha]
  rfl

theorem still_of_results? {s : Ensemble α} (h : s.results? ≠ none) : s.Still :=
  still_of_stuck (ended_of_results? h).stuck

/-! ## 2. Conclusions -/

/-- What is true of every interleaving of an ensemble that can come to an end at all. -/
structure Concludes (s : Ensemble α) (values : List α) : Prop where
  /-- As long as some party has not finished, some party can move. -/
  progress : ∀ turns, (s.run turns).results? = none → ∃ i, ((s.run turns).step? i).isSome
  /-- A party that finishes does so with its value, however far the others are. -/
  value : ∀ (turns : List Nat) (i : Nat) (p : Party α) (a : α),
    (s.run turns).parties[i]? = some p → p.result? = some a → values[i]? = some a
  /-- When all parties have finished, their values are the values of the list. -/
  results : ∀ turns rs, (s.run turns).results? = some rs → rs = values
  /-- When all parties have finished, no message waits. -/
  quiet : ∀ turns, (s.run turns).results? ≠ none → ∀ c, (s.run turns).mailbox.queue c = []
  /-- All parties finish, with their values, when each of them gets turns again and again. -/
  finish : ∀ schedule : Nat → Nat, (∀ i < s.parties.length, ∀ n, ∃ k, n ≤ k ∧ schedule k = i) →
    ∃ n, (s.run ((List.range n).map schedule)).results? = some values

theorem exists_map_some {outcomes : List (Option α)} (h : none ∉ outcomes) :
    ∃ values : List α, outcomes = values.map some := by
  induction outcomes with
  | nil => exact ⟨[], rfl⟩
  | cons o outcomes ih =>
    rw [List.mem_cons, not_or] at h
    obtain ⟨a, rfl⟩ := Option.ne_none_iff_exists'.mp (Ne.symm h.1)
    obtain ⟨values, rfl⟩ := ih h.2
    exact ⟨a :: values, rfl⟩

/-- Where nobody can move, somebody has not finished exactly when somebody never does. -/
theorem Rests.results?_eq_none_iff {s : Ensemble α} {outcomes : List (Option α)} {left : Queues}
    (h : s.Rests outcomes left) {turns : List Nat} (hstill : (s.run turns).Still) :
    (s.run turns).results? = none ↔ none ∈ outcomes := by
  have houtcomes := h.outcomes turns hstill
  constructor
  · intro hresults
    by_contra hall
    obtain ⟨values, hvalues⟩ := exists_map_some hall
    rw [results?_eq_some_iff.mpr (houtcomes.trans hvalues)] at hresults
    exact absurd hresults (by simp)
  · intro hnone
    by_contra hresults
    obtain ⟨rs, hrs⟩ := Option.ne_none_iff_exists'.mp hresults
    rw [← houtcomes, results?_eq_some_iff.mp hrs] at hnone
    simp at hnone

/-- **What a state of rest in which all have finished says about every interleaving.** -/
theorem concludes_of_rests {s : Ensemble α} {values : List α}
    (h : s.Rests (values.map some) Queues.none) : s.Concludes values := by
  have finished (turns : List Nat) (hstill : (s.run turns).Still) :
      (s.run turns).results? = some values :=
    results?_eq_some_iff.mpr (h.outcomes turns hstill)
  refine ⟨?_, ?_, ?_, ?_, ?_⟩
  · intro turns hnone
    by_contra hstill
    have hstill : (s.run turns).Still := fun i =>
      Option.not_isSome_iff_eq_none.mp fun hi => hstill ⟨i, hi⟩
    rw [finished turns hstill] at hnone
    exact absurd hnone (by simp)
  · intro turns i p a hp ha
    have hvalue := h.value turns i p a hp ha
    rw [List.getElem?_map] at hvalue
    simpa using hvalue
  · intro turns rs hrs
    have hstill : (s.run turns).Still := still_of_results? (by rw [hrs]; simp)
    rw [finished turns hstill] at hrs
    exact (Option.some.inj hrs).symm
  · intro turns hrs
    exact h.left turns (still_of_results? hrs)
  · intro schedule fair
    obtain ⟨n, hn⟩ := h.rest schedule fair
    exact ⟨n, finished _ hn⟩

/-- An ensemble that concludes rests nowhere else. -/
theorem Concludes.eq_of_rests {s : Ensemble α} {values : List α} (h : s.Concludes values)
    {outcomes : List (Option α)} {left : Queues} (hr : s.Rests outcomes left) :
    outcomes = values.map some ∧ left = Queues.none := by
  obtain ⟨turns, hstill⟩ := s.exists_still
  have hresults : (s.run turns).results? ≠ none := by
    intro hnone
    obtain ⟨i, hi⟩ := h.progress turns hnone
    rw [hstill i] at hi
    exact absurd hi (by simp)
  obtain ⟨rs, hrs⟩ := Option.ne_none_iff_exists'.mp hresults
  constructor
  · rw [← hr.outcomes turns hstill, results?_eq_some_iff.mp hrs, h.results turns rs hrs]
  · funext c
    rw [← hr.left turns hstill c]
    exact h.quiet turns hresults c

end Ensemble

end ShardedVector
