/-
# Running an ensemble until nobody can move

A routine is a finite tree, and a move takes one party to a branch of its tree or sweeps a
queue.  So the parties of an ensemble get smaller with every move, whatever the order, and
`Ensemble.settle` may simply let the first party that can move do so until there is none
(`settle_stuck`).
-/
import ShardedVector.Ensemble.Basic

namespace ShardedVector

/-! ## 1. A move makes a party smaller -/

namespace Routine

/-- One routine is what another one goes on with after its first action. -/
inductive Continues {α : Type} : Routine α → Routine α → Prop
  | send (peer : Nat) (tag : Tag) (message : Bytes) (next : Routine α) :
      Continues next (.send peer tag message next)
  | receive (peer : Nat) (tag : Tag) (room : Nat) (next : Option Bytes → Routine α)
      (answer : Option Bytes) : Continues (next answer) (.receive peer tag room next)
  | interval (task : String) (next : Routine α) : Continues next (.interval task next)

theorem continues_wf {α : Type} : WellFounded (@Continues α) := by
  constructor
  intro r
  induction r with
  | finish a => exact ⟨_, fun _ h => nomatch h⟩
  | send p t m next ih => exact ⟨_, fun _ h => by cases h; exact ih⟩
  | receive p t room next ih => exact ⟨_, fun _ h => by cases h; exact ih _⟩
  | interval task next ih => exact ⟨_, fun _ h => by cases h; exact ih⟩

end Routine

namespace Party

variable {α : Type}

/-- A party after a move: it has less of its routine left, or the same and nothing to sweep. -/
inductive After : Party α → Party α → Prop
  | routine {p q : Party α} (h : Routine.Continues q.routine p.routine) : After q p
  | swept {p q : Party α} (same : q.routine = p.routine) (clear : q.sweeping = none)
      (busy : p.sweeping ≠ none) : After q p

theorem after_wf : WellFounded (@After α) := by
  have swept (r : Routine α)
      (ih : ∀ q : Party α, Routine.Continues q.routine r → Acc After q)
      (p : Party α) (hr : p.routine = r) (hs : p.sweeping = none) : Acc After p := by
    refine ⟨_, fun q h => ?_⟩
    cases h with
    | routine h => exact ih q (hr ▸ h)
    | swept _ _ busy => exact absurd hs busy
  have all (r : Routine α) : ∀ p : Party α, p.routine = r → Acc After p := by
    induction r using Routine.continues_wf.induction with
    | _ r ih =>
      intro p hr
      refine ⟨_, fun q h => ?_⟩
      cases h with
      | routine h => exact ih _ (hr ▸ h) q rfl
      | swept same clear _ =>
        exact swept r (fun q' h' => ih _ h' q' rfl) q (same.trans hr) clear
  exact ⟨fun p => all _ p rfl⟩

theorem after_of_move? {p p' : Party α} {m m' : Mailbox}
    (h : p.move? m = some (p', m')) : After p' p := by
  unfold move? at h
  split at h
  · next c hc =>
    simp only [Option.some.injEq, Prod.mk.injEq] at h
    obtain ⟨rfl, _⟩ := h
    exact .swept rfl rfl (by simp [hc])
  · split at h
    · simp at h
    · next hr =>
      simp only [Option.some.injEq, Prod.mk.injEq] at h
      obtain ⟨rfl, _⟩ := h
      exact .routine (by rw [hr]; exact .send ..)
    · next hr =>
      split at h
      · simp at h
      · simp only [Option.some.injEq, Prod.mk.injEq] at h
        obtain ⟨rfl, _⟩ := h
        exact .routine (by rw [hr]; exact .receive ..)
    · next hr =>
      simp only [Option.some.injEq, Prod.mk.injEq] at h
      obtain ⟨rfl, _⟩ := h
      exact .routine (by rw [hr]; exact .interval ..)

/-- A row of parties after a move of one of them. -/
inductive RowAfter : List (Party α) → List (Party α) → Prop
  | head {p q : Party α} (rest : List (Party α)) (h : After q p) :
      RowAfter (q :: rest) (p :: rest)
  | tail (p : Party α) {ps qs : List (Party α)} (h : RowAfter qs ps) :
      RowAfter (p :: qs) (p :: ps)

theorem rowAfter_wf : WellFounded (@RowAfter α) := by
  constructor
  intro ps
  induction ps with
  | nil => exact ⟨_, fun _ h => nomatch h⟩
  | cons p rest ih =>
    induction p using after_wf.induction generalizing rest with
    | _ p ihp =>
      induction ih with
      | intro rest hrest ihrest =>
        refine ⟨_, fun qs h => ?_⟩
        cases h with
        | head _ h => exact ihp _ h rest ⟨_, hrest⟩
        | tail _ h => exact ihrest _ h

theorem rowAfter_set {p q : Party α} (h : After q p) :
    ∀ {ps : List (Party α)} {i : Nat}, ps[i]? = some p → RowAfter (ps.set i q) ps
  | [], _, hi => by simp at hi
  | p' :: rest, 0, hi => by
    simp only [List.getElem?_cons_zero, Option.some.injEq] at hi
    subst hi
    exact .head rest h
  | p' :: rest, i + 1, hi => .tail p' (rowAfter_set h (by simpa using hi))

end Party

namespace Ensemble

variable {α : Type}

theorem rowAfter_of_step? {s s' : Ensemble α} {i : Nat} (h : s.step? i = some s') :
    Party.RowAfter s'.parties s.parties := by
  unfold step? at h
  split at h
  · simp at h
  · next p hp =>
    split at h
    · simp at h
    · next p' m hm =>
      simp only [Option.some.injEq] at h
      subst h
      exact Party.rowAfter_set (Party.after_of_move? hm) hp

/-! ## 2. Settling -/

/-- The ensemble after a move of the first party in a list that can move. -/
def firstStep? (s : Ensemble α) : List Nat → Option (Ensemble α)
  | [] => none
  | i :: rest =>
    match s.step? i with
    | some s' => some s'
    | none => firstStep? s rest

theorem exists_of_firstStep? {s s' : Ensemble α} :
    ∀ {is : List Nat}, s.firstStep? is = some s' → ∃ i ∈ is, s.step? i = some s'
  | i :: rest, h => by
    unfold firstStep? at h
    split at h
    · next s'' hs =>
      exact ⟨i, by simp, hs.trans h⟩
    · obtain ⟨j, hj, hs⟩ := exists_of_firstStep? h
      exact ⟨j, by simp [hj], hs⟩

theorem step?_eq_none_of_firstStep? {s : Ensemble α} :
    ∀ {is : List Nat}, s.firstStep? is = none → ∀ i ∈ is, s.step? i = none
  | i :: rest, h, j, hj => by
    unfold firstStep? at h
    split at h
    · simp at h
    · next hs =>
      rcases List.mem_cons.mp hj with rfl | hj
      · exact hs
      · exact step?_eq_none_of_firstStep? h j hj

instance : WellFoundedRelation (List (Party α)) := ⟨Party.RowAfter, Party.rowAfter_wf⟩

/-- Lets parties move until none can. -/
def settle (s : Ensemble α) : Ensemble α :=
  match _moved : s.firstStep? (List.range s.parties.length) with
  | some s' => settle s'
  | none => s
termination_by s.parties
decreasing_by
  obtain ⟨i, _, hs⟩ := exists_of_firstStep? _moved
  exact rowAfter_of_step? hs

/-- **Nobody can move in a settled ensemble.** -/
theorem settle_stuck (s : Ensemble α) (i : Nat) : s.settle.step? i = none := by
  fun_induction settle s with
  | case1 s s' _ ih => exact ih
  | case2 s h =>
    by_cases hi : i < s.parties.length
    · exact step?_eq_none_of_firstStep? h i (List.mem_range.mpr hi)
    · unfold step?
      rw [List.getElem?_eq_none (by omega)]

/-- A settled ensemble is reached by an interleaving. -/
theorem exists_run_eq_settle (s : Ensemble α) : ∃ turns, s.run turns = s.settle := by
  fun_induction settle s with
  | case1 s s' h ih =>
    obtain ⟨i, _, hs⟩ := exists_of_firstStep? h
    obtain ⟨turns, ht⟩ := ih
    exact ⟨i :: turns, by rw [run_cons, turn, hs, Option.getD_some, ht]⟩
  | case2 s h => exact ⟨[], rfl⟩

end Ensemble

end ShardedVector
