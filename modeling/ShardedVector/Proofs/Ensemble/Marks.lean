/-
# Notes as marks

A note goes into the log of its own party and touches nothing else.  So a routine that notes where
it is can be watched without being disturbed, and this module says how to read its log.

* `Routine.Marks` counts the notes of one kind that a routine is going to make.  `Party.Tallies`
  adds those that a party has made, and every step keeps the sum (`View.Reaches.tallies`).
* `View.extend` lets one party go on where it would have ended.  `View.Reaches.of_extend` says what
  is new then: nothing, until that party has made the first note of what it goes on with.
-/
import Mathlib.Data.List.Basic
import ShardedVector.Proofs.Ensemble.Conversation

namespace ShardedVector

open Relation

/-! ## 1. The notes of a routine -/

namespace Routine

variable {α β : Type} {note : String}

/-- Whatever arrives, the routine makes a note so many times. -/
def Marks (note : String) : Routine α → Nat → Prop
  | finish _, n => n = 0
  | send _ _ _ next, n => next.Marks note n
  | receive _ _ _ next, n => ∀ answer, (next answer).Marks note n
  | interval task next, n =>
    if task = note then ∃ m, n = m + 1 ∧ next.Marks note m else next.Marks note n

theorem marks_interval_self {next : Routine α} {n : Nat} (h : next.Marks note n) :
    (interval note next).Marks note (n + 1) := by
  rw [Marks, if_pos rfl]
  exact ⟨n, rfl, h⟩

theorem marks_interval_ne {task : String} {next : Routine α} {n : Nat} (hne : task ≠ note) :
    (interval task next).Marks note n ↔ next.Marks note n := by
  rw [Marks, if_neg hne]

theorem Marks.unique {r : Routine α} {m n : Nat} (hm : r.Marks note m) (hn : r.Marks note n) :
    m = n := by
  induction r generalizing m n with
  | finish a => exact hm.trans hn.symm
  | send _ _ _ next ih => exact ih hm hn
  | receive _ _ _ next ih => exact ih none (hm none) (hn none)
  | interval task next ih =>
    by_cases htask : task = note
    · rw [Marks, if_pos htask] at hm hn
      obtain ⟨m, rfl, hm⟩ := hm
      obtain ⟨n, rfl, hn⟩ := hn
      rw [ih hm hn]
    · exact ih ((marks_interval_ne htask).mp hm) ((marks_interval_ne htask).mp hn)

/-- One routine after the other makes the notes of both. -/
theorem Marks.bind {r : Routine α} {f : α → Routine β} {m n : Nat} (h : r.Marks note m)
    (hf : ∀ a, (f a).Marks note n) : (r >>= f).Marks note (m + n) := by
  induction r generalizing m with
  | finish a =>
    obtain rfl : m = 0 := h
    rw [Nat.zero_add]
    exact hf a
  | send _ _ _ next ih => exact ih h
  | receive _ _ _ next ih => exact fun answer => ih answer (h answer)
  | interval task next ih =>
    by_cases htask : task = note
    · subst htask
      rw [Marks, if_pos rfl] at h
      obtain ⟨m, rfl, h⟩ := h
      rw [Nat.add_right_comm]
      exact marks_interval_self (ih h)
    · exact (marks_interval_ne htask).mpr (ih ((marks_interval_ne htask).mp h))

theorem marks_finish (a : α) : (finish a).Marks note 0 := rfl

theorem Marks.bind_zero {r : Routine α} {f : α → Routine β} (h : r.Marks note 0)
    (hf : ∀ a, (f a).Marks note 0) : (r >>= f).Marks note 0 := h.bind hf

/-- The notes of what comes second are still to be made. -/
theorem Marks.le_of_bind {r : Routine α} {f : α → Routine β} {m n : Nat}
    (h : (r >>= f).Marks note m) (hf : ∀ a, (f a).Marks note n) : n ≤ m := by
  induction r generalizing m with
  | finish a => exact ((hf a).unique h).le
  | send _ _ _ next ih => exact ih h
  | receive _ _ _ next ih => exact ih none (h none)
  | interval task next ih =>
    by_cases htask : task = note
    · rw [interval_bind, Marks, if_pos htask] at h
      obtain ⟨m, rfl, h⟩ := h
      exact Nat.le_succ_of_le (ih h)
    · exact ih ((marks_interval_ne htask).mp h)

end Routine

/-! ## 2. The notes of a party -/

namespace Party

variable {α : Type} {note : String}

/-- The notes that the party has made and those that it is going to make. -/
def Tallies (note : String) (total : Nat) (p : Party α) : Prop :=
  ∃ n, p.routine.Marks note n ∧ p.intervals.count note + n = total

theorem Offers.tallies {p p' : Party α} {e : Effect} {total : Nat} (h : p.Offers e p')
    (hp : p.Tallies note total) : p'.Tallies note total := by
  obtain ⟨n, hn, htotal⟩ := hp
  cases h with
  | sweep c busy => exact ⟨n, hn, htotal⟩
  | send peer tag message next clear doing =>
    rw [doing] at hn
    exact ⟨n, hn, htotal⟩
  | receive peer tag room next message clear doing =>
    rw [doing] at hn
    exact ⟨n, hn _, htotal⟩
  | interval task next clear doing =>
    rw [doing] at hn
    by_cases htask : task = note
    · rw [Routine.Marks, if_pos htask] at hn
      obtain ⟨m, rfl, hm⟩ := hn
      refine ⟨m, hm, ?_⟩
      change (p.intervals ++ [task]).count note + m = total
      rw [List.count_append, htask, List.count_singleton_self]
      omega
    · refine ⟨n, (Routine.marks_interval_ne htask).mp hn, ?_⟩
      change (p.intervals ++ [task]).count note + n = total
      rw [List.count_append, List.count_singleton, if_neg (by simpa using htask)]
      exact htotal

/-- A party that has come to its end has made all of its notes. -/
theorem Tallies.count_eq {p : Party α} {total : Nat} (h : p.Tallies note total) {a : α}
    (ha : p.result? = some a) : p.intervals.count note = total := by
  obtain ⟨n, hn, htotal⟩ := h
  unfold result? at ha
  split at ha
  · next hroutine =>
    rw [hroutine] at hn
    obtain rfl : n = 0 := hn
    exact htotal
  · cases ha

/-- A log only grows. -/
theorem Offers.count_le {p p' : Party α} {e : Effect} (h : p.Offers e p') (note : String) :
    p.intervals.count note ≤ p'.intervals.count note := by
  cases h with
  | interval task next clear doing =>
    have hprefix : p.intervals <+: p.intervals ++ [task] := List.prefix_append _ _
    exact hprefix.sublist.count_le note
  | _ => exact Nat.le_refl _

/-- A party that has come to its end goes on with a note. -/
theorem Offers.count_lt_of_interval {p q : Party α} {e : Effect} {a : α} {note : String}
    {x next : Routine α} (ha : p.result? = some a) (hx : x = .interval note next)
    (h : ({ p with routine := x } : Party α).Offers e q) :
    p.intervals.count note < q.intervals.count note := by
  subst hx
  have hidle : p.sweeping = none := by
    unfold result? at ha
    split at ha
    · assumption
    · cases ha
  cases h with
  | sweep c busy => exact nomatch hidle.symm.trans busy
  | send _ _ _ _ _ doing => exact nomatch doing
  | receive _ _ _ _ _ _ doing => exact nomatch doing
  | interval task next' clear doing =>
    obtain ⟨rfl, rfl⟩ := Routine.interval.inj doing
    change _ < (p.intervals ++ [note]).count note
    rw [List.count_append, List.count_singleton_self]
    exact Nat.lt_succ_self _

/-- The party with more to do at the end. -/
def extend (p : Party α) (f : α → Routine α) : Party α := { p with routine := p.routine >>= f }

/-- A party with more to do moves as before, until it would have ended. -/
theorem Offers.of_extend {p p' : Party α} {f : α → Routine α} {e : Effect}
    (h : (p.extend f).Offers e p') :
    (∃ p₁, p.Offers e p₁ ∧ p' = p₁.extend f) ∨
      ∃ a, p.result? = some a ∧ ({ p with routine := f a } : Party α).Offers e p' := by
  obtain ⟨group, rank, sweeping, routine, intervals⟩ := p
  cases sweeping with
  | some c =>
    cases h with
    | sweep _ busy => exact .inl ⟨_, .sweep _ _ busy, rfl⟩
    | send _ _ _ _ clear => exact nomatch clear
    | receive _ _ _ _ _ clear => exact nomatch clear
    | interval _ _ clear => exact nomatch clear
  | none =>
    cases routine with
    | finish a => exact .inr ⟨a, rfl, h⟩
    | send peer tag message next =>
      cases h with
      | sweep _ busy => exact nomatch busy
      | send _ _ _ _ _ doing =>
        obtain ⟨rfl, rfl, rfl, rfl⟩ := Routine.send.inj doing
        exact .inl ⟨_, .send _ peer tag message next rfl rfl, rfl⟩
      | receive _ _ _ _ _ _ doing => exact nomatch doing
      | interval _ _ _ doing => exact nomatch doing
    | receive peer tag room next =>
      cases h with
      | sweep _ busy => exact nomatch busy
      | send _ _ _ _ _ doing => exact nomatch doing
      | receive _ _ _ _ message _ doing =>
        obtain ⟨rfl, rfl, rfl, rfl⟩ := Routine.receive.inj doing
        exact .inl ⟨_, .receive _ peer tag room next message rfl rfl, rfl⟩
      | interval _ _ _ doing => exact nomatch doing
    | interval task next =>
      cases h with
      | sweep _ busy => exact nomatch busy
      | send _ _ _ _ _ doing => exact nomatch doing
      | receive _ _ _ _ _ _ doing => exact nomatch doing
      | interval _ _ _ doing =>
        obtain ⟨rfl, rfl⟩ := Routine.interval.inj doing
        exact .inl ⟨_, .interval _ task next rfl rfl, rfl⟩

end Party

/-- A party of a group before its first move. -/
theorem Ensemble.eq_start_of_getElem? {α : Type} {group size : Nat} {routine : Nat → Routine α}
    {r : Nat} {p : Party α} (h : (ofGroup group size routine).parties[r]? = some p) :
    r < size ∧ p = Party.start group r (routine r) := by
  have hr : r < size := by
    have hlt := (List.getElem?_eq_some_iff.mp h).1
    simpa [ofGroup] using hlt
  exact ⟨hr, by simpa [ofGroup, hr, eq_comm] using h⟩

/-! ## 3. Views -/

namespace View

variable {α : Type} {i : Nat}

/-- What all steps keep of a party. -/
theorem Reaches.keeps {I : Party α → Prop}
    (step : ∀ {p p' : Party α} {e : Effect}, p.Offers e p' → I p → I p') {v w : View α}
    (h : v.Reaches w) (hv : ∀ p, v.parties[i]? = some p → I p) :
    ∀ p, w.parties[i]? = some p → I p := by
  induction h with
  | refl => exact hv
  | tail _ hstep ih =>
    obtain ⟨j, p, p', e, hp, ho, -, hw⟩ := hstep
    intro q hq
    rw [hw] at hq
    by_cases hji : j = i
    · subst hji
      rw [List.getElem?_set_self (List.getElem?_eq_some_iff.mp hp).1] at hq
      obtain rfl := Option.some.inj hq
      exact step ho (ih p hp)
    · rw [List.getElem?_set_ne hji] at hq
      exact ih q hq

theorem Reaches.tallies {note : String} {total : Nat} {v w : View α} (h : v.Reaches w)
    (hv : ∀ p, v.parties[i]? = some p → p.Tallies note total) :
    ∀ p, w.parties[i]? = some p → p.Tallies note total :=
  h.keeps Party.Offers.tallies hv

theorem Reaches.count_le {v w : View α} (h : v.Reaches w) {p q : Party α}
    (hp : v.parties[i]? = some p) (hq : w.parties[i]? = some q) (note : String) :
    p.intervals.count note ≤ q.intervals.count note := by
  refine h.keeps (I := fun q => p.intervals.count note ≤ q.intervals.count note)
    (fun ho hle => hle.trans (ho.count_le note)) (fun p' hp' => ?_) q hq
  obtain rfl := Option.some.inj (hp.symm.trans hp')
  exact Nat.le_refl _

/-- The same view, but party `i` has more to do at the end. -/
def extend (v : View α) (i : Nat) (f : α → Routine α) : View α :=
  ⟨v.parties.modify i fun p => p.extend f, v.queues⟩

theorem getElem?_extend (v : View α) (f : α → Routine α) (j : Nat) :
    (v.extend i f).parties[j]? =
      if i = j then v.parties[j]?.map fun p => p.extend f else v.parties[j]? := by
  rw [extend, List.getElem?_modify]
  split <;> simp

/-- Where a party has more to do its log is the same. -/
theorem exists_of_extend {v : View α} {f : α → Routine α} {j : Nat} {p : Party α}
    (h : (v.extend i f).parties[j]? = some p) :
    ∃ p', v.parties[j]? = some p' ∧ p'.intervals = p.intervals := by
  rw [getElem?_extend] at h
  split at h
  · obtain ⟨p', hp', rfl⟩ := Option.map_eq_some_iff.mp h
    exact ⟨p', hp', rfl⟩
  · exact ⟨p, h, rfl⟩

/-- What another party becomes it becomes also where party `i` has more to do. -/
theorem extend_set (v : View α) (f : α → Routine α) (j : Nat) (p : Party α) (q : Queues) :
    View.extend ⟨v.parties.set j p, q⟩ i f =
      ⟨(v.extend i f).parties.set j (if i = j then p.extend f else p), q⟩ := by
  rw [extend, extend, View.mk.injEq]
  refine ⟨List.ext_getElem? fun k => ?_, rfl⟩
  simp only [List.getElem?_modify, List.getElem?_set, List.length_modify]
  by_cases hjk : j = k
  · subst hjk
    by_cases hlt : j < v.parties.length <;> by_cases hij : i = j <;> simp [hlt, hij]
  · simp [hjk]

/-- A step where party `i` has more to do is a step where it has not, or its first one past its
end. -/
theorem StepBy.of_extend {v w : View α} {f : α → Routine α} {j : Nat}
    (h : (v.extend i f).StepBy j w) :
    (∃ w', v.StepBy j w' ∧ w = w'.extend i f) ∨
      ∃ p a e q, v.parties[i]? = some p ∧ p.result? = some a ∧
        ({ p with routine := f a } : Party α).Offers e q ∧ w.parties[i]? = some q := by
  obtain ⟨p, p', e, hp, ho, ha, hw⟩ := h
  have hlt : j < (v.extend i f).parties.length := (List.getElem?_eq_some_iff.mp hp).1
  obtain ⟨ps, q⟩ := w
  dsimp only at hw ha
  subst hw
  rw [getElem?_extend] at hp
  by_cases hij : i = j
  · subst hij
    rw [if_pos rfl] at hp
    obtain ⟨p₀, hp₀, rfl⟩ := Option.map_eq_some_iff.mp hp
    rcases ho.of_extend with ⟨p₁, ho₁, rfl⟩ | ⟨a, hend, ho₁⟩
    · refine .inl ⟨⟨v.parties.set i p₁, q⟩, ⟨p₀, p₁, e, hp₀, ho₁, ha, rfl⟩, ?_⟩
      rw [extend_set, if_pos rfl]
    · exact .inr ⟨p₀, a, e, p', hp₀, hend, ho₁, List.getElem?_set_self hlt⟩
  · rw [if_neg hij] at hp
    refine .inl ⟨⟨v.parties.set j p', q⟩, ⟨p, p', e, hp, ho, ha, rfl⟩, ?_⟩
    rw [extend_set, if_neg hij]

/-- **What is reached where party `i` has more to do** is reached where it has not, or party `i` has
come to its end and made its next note. -/
theorem Reaches.of_extend {v w : View α} {f : α → Routine α} {note : String}
    (hf : ∀ a, ∃ next, f a = .interval note next) (h : (v.extend i f).Reaches w) :
    (∃ w', v.Reaches w' ∧ w = w'.extend i f) ∨
      ∃ w' p a, v.Reaches w' ∧ w'.parties[i]? = some p ∧ p.result? = some a ∧
        ∀ q, w.parties[i]? = some q → p.intervals.count note < q.intervals.count note := by
  induction h with
  | refl => exact .inl ⟨v, .refl, rfl⟩
  | @tail u w _ hstep ih =>
    rcases ih with ⟨w', hw', rfl⟩ | ⟨w', p, a, hw', hp, ha, hlt⟩
    · obtain ⟨j, hj⟩ := hstep
      rcases hj.of_extend with ⟨w₁, hw₁, rfl⟩ | ⟨p, a, e, q, hp, ha, ho, hq⟩
      · exact .inl ⟨w₁, hw'.tail ⟨j, hw₁⟩, rfl⟩
      · obtain ⟨next, hnext⟩ := hf a
        refine .inr ⟨w', p, a, hw', hp, ha, fun q' hq' => ?_⟩
        obtain rfl := Option.some.inj (hq.symm.trans hq')
        exact Party.Offers.count_lt_of_interval ha hnext ho
    · refine .inr ⟨w', p, a, hw', hp, ha, ?_⟩
      exact Reaches.keeps (v := u) (fun ho hle => Nat.lt_of_lt_of_le hle (ho.count_le note))
        (.single hstep) hlt

/-- A group in which one rank has more to do. -/
theorem extend_ofGroup (group size : Nat) {s : Nat} (x : Routine α) (routine : Nat → Routine α)
    (f : α → Routine α) :
    (Ensemble.ofGroup group size fun r => if r = s then x else routine r).view.extend s f =
      (Ensemble.ofGroup group size fun r => if r = s then x >>= f else routine r).view := by
  rw [extend, Ensemble.view, Ensemble.view, View.mk.injEq]
  refine ⟨List.ext_getElem (by simp [Ensemble.ofGroup]) fun k _ _ => ?_, rfl⟩
  simp only [Ensemble.ofGroup, List.getElem_modify, List.getElem_map, List.getElem_range]
  by_cases hks : k = s
  · subst hks
    simp only [if_true]
    rfl
  · simp only [if_neg hks, if_neg (Ne.symm hks)]

end View

end ShardedVector
