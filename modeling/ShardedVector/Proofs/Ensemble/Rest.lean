/-
# Coming to rest

Steps of different parties commute, so an ensemble behaves the same in every order of turns:
if one order comes to a state in which nobody can move, then every other order can be
continued to the same state (`Reaches.of_reaches`).  That state need not be an end of all
parties; some of them may wait for a message that nobody is going to send.

`Ensemble.Rests` says what follows of every interleaving at once: what each party ends with, or
that it never does, and which messages are left when nobody can move any more.
`rests_of_reaches` proves it from the one order.
-/
import Mathlib.Logic.Relation
import ShardedVector.Ensemble.Settle
import ShardedVector.Proofs.Ensemble.View

namespace ShardedVector

open Relation

/-! ## 1. Views that can be reached -/

namespace View

variable {α : Type}

/-- Any number of steps of any parties. -/
def Reaches (v w : View α) : Prop := ReflTransGen Step v w

/-- Nobody can move. -/
def Stuck (v : View α) : Prop := ∀ w, ¬ v.Step w

theorem Step.distinct {v w : View α} (h : v.Step w) (hv : v.Distinct) : w.Distinct := by
  obtain ⟨i, hi⟩ := h
  exact hi.distinct hv

/-- A party that has finished takes no further step. -/
theorem Step.result?_kept {v w : View α} (h : v.Step w) {i : Nat} {p : Party α} {a : α}
    (hp : v.parties[i]? = some p) (ha : p.result? = some a) : w.parties[i]? = some p := by
  obtain ⟨j, p₁, p₂, e, hp₁, ho, -, hw⟩ := h
  have hji : j ≠ i := by
    rintro rfl
    obtain rfl : p₁ = p := Option.some.inj (hp₁.symm.trans hp)
    exact absurd (ho.result?_eq_none.symm.trans ha) (by simp)
  rw [hw, List.getElem?_set_ne hji, hp]

theorem Reaches.result?_kept {v w : View α} (h : v.Reaches w) {i : Nat} {p : Party α} {a : α}
    (hp : v.parties[i]? = some p) (ha : p.result? = some a) : w.parties[i]? = some p := by
  induction h with
  | refl => exact hp
  | tail _ hs ih => exact hs.result?_kept ih ha

/-- A step made first does not keep from the state of rest.  By induction on the way there: the
step commutes with every step of that way up to the one that its own party makes there. -/
theorem Reaches.of_step {v w t : View α} (hv : v.Distinct) (ht : t.Stuck) (h : v.Reaches t)
    (hs : v.Step w) : w.Reaches t := by
  induction h using ReflTransGen.head_induction_on generalizing w with
  | refl => exact absurd hs (ht w)
  | head hvx hxt ih =>
    obtain ⟨i, hi⟩ := hs
    obtain ⟨j, hj⟩ := hvx
    by_cases hij : i = j
    · subst hij
      rw [hi.unique hj]
      exact hxt
    · obtain ⟨y, hwy, hxy⟩ := hi.comm hv hij hj
      exact .head ⟨j, hwy⟩ (ih (hj.distinct hv) ⟨i, hxy⟩)

/-- **One state of rest decides all**: whatever steps are made, it is still reached. -/
theorem Reaches.of_reaches {v w t : View α} (hv : v.Distinct) (ht : t.Stuck) (h : v.Reaches t)
    (hw : v.Reaches w) : w.Reaches t := by
  induction hw using ReflTransGen.head_induction_on with
  | refl => exact h
  | head hs _ ih => exact ih (hs.distinct hv) (h.of_step hv ht hs)

end View

/-! ## 2. Interleavings -/

namespace Ensemble

variable {α : Type}

theorem reaches_turn (s : Ensemble α) (i : Nat) : s.view.Reaches (s.turn i).view := by
  unfold turn
  cases h : s.step? i with
  | none => exact .refl
  | some s' => exact .single ⟨i, View.stepBy_of_step? h⟩

theorem reaches_run (s : Ensemble α) (turns : List Nat) : s.view.Reaches (s.run turns).view := by
  induction turns generalizing s with
  | nil => exact .refl
  | cons i rest ih => exact (s.reaches_turn i).trans (ih (s.turn i))

theorem length_parties_turn (s : Ensemble α) (i : Nat) :
    (s.turn i).parties.length = s.parties.length := by
  unfold turn step?
  cases s.parties[i]? with
  | none => rfl
  | some p => cases h : p.move? s.mailbox <;> simp [h]

/-- Nobody can move. -/
def Still (s : Ensemble α) : Prop := ∀ i, s.step? i = none

theorem still_of_stuck {s : Ensemble α} (h : s.view.Stuck) : s.Still := by
  intro i
  cases hs : s.step? i with
  | none => rfl
  | some s' => exact absurd ⟨i, View.stepBy_of_step? hs⟩ (h s'.view)

theorem exists_still (s : Ensemble α) : ∃ turns, (s.run turns).Still := by
  obtain ⟨turns, h⟩ := s.exists_run_eq_settle
  exact ⟨turns, fun i => h ▸ s.settle_stuck i⟩

/-- The first turn of a schedule in which a party moves. -/
theorem exists_first_step {s : Ensemble α} (schedule : Nat → Nat) {k : Nat}
    (hk : (s.step? (schedule k)).isSome) :
    ∃ n s', s.step? (schedule n) = some s' ∧ s.run ((List.range n).map schedule) = s := by
  induction k using Nat.strongRecOn with
  | _ k ih =>
    by_cases hall : ∃ j < k, (s.step? (schedule j)).isSome
    · obtain ⟨j, hj, hs⟩ := hall
      exact ih j hj hs
    · obtain ⟨s', hs'⟩ := Option.isSome_iff_exists.mp hk
      refine ⟨k, s', hs', ?_⟩
      have still : ∀ n ≤ k, s.run ((List.range n).map schedule) = s := by
        intro n
        induction n with
        | zero => exact fun _ => rfl
        | succ n ihn =>
          intro hn
          have hnone : s.step? (schedule n) = none :=
            Option.not_isSome_iff_eq_none.mp fun h => hall ⟨n, by omega, h⟩
          rw [List.range_succ, List.map_append, run_append, ihn (by omega)]
          simp [turn, hnone]
      exact still k (Nat.le_refl k)

/-- A schedule that keeps giving everybody turns comes to where nobody can move.  By induction on
the parties, which get smaller with every move. -/
theorem exists_still_of_fair (s : Ensemble α) (schedule : Nat → Nat)
    (fair : ∀ i < s.parties.length, ∀ n, ∃ k, n ≤ k ∧ schedule k = i) :
    ∃ n, (s.run ((List.range n).map schedule)).Still := by
  obtain ⟨ps, hps⟩ : ∃ ps, ps = s.parties := ⟨_, rfl⟩
  induction ps using Party.rowAfter_wf.induction generalizing s schedule with
  | _ ps ih =>
    by_cases hstill : s.Still
    · exact ⟨0, hstill⟩
    · obtain ⟨i, hi⟩ := not_forall.mp hstill
      have hi := Option.isSome_iff_ne_none.mpr hi
      have hlt : i < s.parties.length := by
        by_contra hge
        rw [step?, List.getElem?_eq_none (by omega)] at hi
        simp at hi
      obtain ⟨k, -, hk⟩ := fair i hlt 0
      rw [← hk] at hi
      obtain ⟨n, s', hs', hstays⟩ := exists_first_step schedule hi
      have hturn : s.turn (schedule n) = s' := by rw [turn, hs', Option.getD_some]
      have hlen : s'.parties.length = s.parties.length := by
        rw [← hturn, length_parties_turn]
      obtain ⟨m, hm⟩ := ih s'.parties (hps ▸ rowAfter_of_step? hs') s'
        (fun j => schedule (n + 1 + j))
        (fun i hi j => by
          obtain ⟨k, hk, hik⟩ := fair i (hlen ▸ hi) (n + 1 + j)
          exact ⟨k - (n + 1), by omega, by rw [← hik]; congr 1; omega⟩)
        rfl
      refine ⟨n + 1 + m, ?_⟩
      rw [List.range_add, List.map_append, run_append, List.range_succ, List.map_append,
        run_append, hstays]
      simpa [hturn, Function.comp_def] using hm

/-! ## 3. Rest -/

/-- What is true of every interleaving of an ensemble that comes to rest in one state. -/
structure Rests (s : Ensemble α) (outcomes : List (Option α)) (left : Queues) : Prop where
  /-- A party that finishes does so with its outcome, however far the others are. -/
  value : ∀ (turns : List Nat) (i : Nat) (p : Party α) (a : α),
    (s.run turns).parties[i]? = some p → p.result? = some a → outcomes[i]? = some (some a)
  /-- When nobody can move, each party has its outcome; one that has none waits for ever. -/
  outcomes : ∀ turns, (s.run turns).Still → (s.run turns).parties.map Party.result? = outcomes
  /-- When nobody can move, these messages are left. -/
  left : ∀ turns, (s.run turns).Still → ∀ c, (s.run turns).mailbox.queue c = left c
  /-- It does come to where nobody can move, when every party gets turns again and again. -/
  rest : ∀ schedule : Nat → Nat, (∀ i < s.parties.length, ∀ n, ∃ k, n ≤ k ∧ schedule k = i) →
    ∃ n, (s.run ((List.range n).map schedule)).Still

/-- **What one state of rest says about every interleaving.** -/
theorem rests_of_reaches {s : Ensemble α} {t : View α} (hs : s.view.Distinct)
    (h : s.view.Reaches t) (ht : t.Stuck) : s.Rests (t.parties.map Party.result?) t.queues := by
  have onward (turns : List Nat) : (s.run turns).view.Reaches t :=
    h.of_reaches hs ht (s.reaches_run turns)
  -- where nobody can move no step is left to make, so it is the state of rest itself
  have arrived (turns : List Nat) (hstill : (s.run turns).Still) : (s.run turns).view = t := by
    rcases (onward turns).cases_head with heq | ⟨w, ⟨i, hi⟩, -⟩
    · exact heq
    · obtain ⟨s', hs', -⟩ := View.exists_step?_of_stepBy hi
      rw [hstill i] at hs'
      exact absurd hs' (by simp)
  refine ⟨?_, ?_, ?_, s.exists_still_of_fair⟩
  · intro turns i p a hp ha
    have hpt : t.parties[i]? = some p := (onward turns).result?_kept hp ha
    rw [List.getElem?_map, hpt, Option.map_some, ha]
  · intro turns hstill
    rw [← arrived turns hstill]
    rfl
  · intro turns hstill c
    rw [← arrived turns hstill]
    rfl

end Ensemble

end ShardedVector
