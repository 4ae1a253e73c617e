/-
# What the counter of an array counts, and what a refusal leaves

The counter of a counted array is meant to count changes: one more for every change that is made,
none for a question, and none for what is refused, which is to leave the array as it was
(`Counted.Accounts`).

So it is with all requests but one kind (`accounts_iff_not_misses`).  An entry is accessed before it
is known to be there, and the access counts; so a change of an entry that is not there is refused
when it has already been counted.  It leaves the array `touch`ed: the entries and what is remembered
stay, and the counter is one further.  A question that does not show the counter has the same reply
as before, also a question for a norm, if what is remembered for either state is right.
-/
import ShardedVector.Proofs.Storage.Requests

namespace ShardedVector.Counted

variable {σ : Type} (a : Counted)

/-! ## 1. The counter after a request -/

theorem state_normPartial (k : Norm) : (a.normPartial k).2.state = a.state := by
  rw [normPartial]
  split <;> rfl

/-- A question leaves the counter and the entries as they are. -/
theorem counter_asked (q : Storage.Question) :
    ((Storage.petsc a).asked q).counter = a.state ∧
      ((Storage.petsc a).asked q).toList = a.entries := by
  cases q with
  | norm k => exact ⟨a.state_normPartial k, (Storage.recalls_normPartial (.petsc a) k).toList⟩
  | _ => exact ⟨rfl, rfl⟩

/-- Only a norm is remembered, and no question for a norm is refused. -/
theorem asked_of_error {q : Storage.Question} {e : Error}
    (h : ((Storage.petsc a).answer q).error? = some e) : (Storage.petsc a).asked q = .petsc a := by
  cases q with
  | norm k => cases h
  | _ => rfl

variable {a} in
/-- A change counts once, however many entries it changes. -/
theorem counter_rewritten {s : Storage} (h : (Storage.petsc a).Rewritten s) :
    s.counter = a.state + 1 := by
  cases h with
  | view hview => cases hview
  | _ => rfl

/-- An access that finds no entry counts and does nothing else. -/
theorem modify_of_size_le {i : Nat} (hi : a.size ≤ i) (f : Binary64 → Binary64) :
    (Storage.petsc a).modify i f = .petsc a.touch := by
  have hentries : a.entries.modify i f = a.entries := List.modify_eq_self hi
  rw [Storage.modify, modify, hentries]

theorem state_touch_ne : a.touch.state ≠ a.state := by
  simp [touch]

/-! ## 2. What a miss leaves to be seen -/

/-- A question that does not show the counter has the same reply after an access that finds no
entry; a norm has it if what is remembered for the one state and for the other is right. -/
theorem answer_touch {q : Storage.Question} (hcounter : q ≠ .counter) (htext : q ≠ .text)
    (hnorm : ∀ k, q = .norm k → a.Honest ∧ a.touch.Honest) :
    (Storage.petsc a.touch).answer q = (Storage.petsc a).answer q := by
  cases q with
  | counter => exact absurd rfl hcounter
  | text => exact absurd rfl htext
  | norm k =>
    obtain ⟨hbefore, hafter⟩ := hnorm k rfl
    have hreply : (a.touch.normPartial k).1 = (a.normPartial k).1 :=
      (normPartial_spec hafter k).1.trans (normPartial_spec hbefore k).1.symm
    exact congrArg Storage.Reply.number hreply
  | _ => rfl

/-! ## 3. The law that is meant, and where it fails -/

/-- The counter of an array counts the changes that are made and nothing else: what is refused
leaves the array as it was with all that it remembers, and a question leaves the counter and the
entries. -/
structure Accounts (memory : σ) (r : Storage.Request σ) : Prop where
  refused : ∀ e, ((Storage.petsc a).handle memory r).2.error? = some e →
    ((Storage.petsc a).handle memory r).1 = (.petsc a, memory)
  asked : r.Asks → ((Storage.petsc a).handle memory r).1.1.counter = a.state ∧
    ((Storage.petsc a).handle memory r).1.1.toList = a.entries
  granted : ((Storage.petsc a).handle memory r).2.Granted →
    ((Storage.petsc a).handle memory r).1.1.counter = a.state + 1

/-- A change that misses no entry. -/
theorem accounts_change (memory : σ) {c : Storage.Change σ} (hc : ¬c.Misses a.size) :
    a.Accounts memory (.change c) := by
  have heffect := Storage.effect_change (.petsc a) memory c
  generalize hrun : (Storage.petsc a).change memory c = attempt at heffect
  have hhandle : (Storage.petsc a).handle memory (.change c) = (attempt.1, .done attempt.2) := by
    rw [Storage.handle, hrun]
  cases heffect with
  | made _ hrewritten =>
    refine ⟨?_, nofun, ?_⟩ <;> rw [hhandle]
    · exact fun e he => nomatch he
    · exact fun _ => counter_rewritten hrewritten
  | missed hmisses => exact absurd hmisses hc
  | refused _ e =>
    refine ⟨?_, nofun, ?_⟩ <;> rw [hhandle]
    · exact fun _ _ => rfl
    · exact False.elim

/-- A change that misses its entry. -/
theorem handle_of_misses (memory : σ) {c : Storage.Change σ} (hc : c.Misses a.size) :
    ∃ i, a.size ≤ i ∧ (Storage.petsc a).handle memory (.change c) =
      ((.petsc a.touch, memory), .done (.error (.indexOutOfRange i a.size))) := by
  have heffect := Storage.effect_change (.petsc a) memory c
  generalize hrun : (Storage.petsc a).change memory c = attempt at heffect
  cases heffect with
  | made hthere => exact absurd hc hthere
  | refused hthere => exact absurd hc hthere
  | missed _ i f hi =>
    refine ⟨i, hi, ?_⟩
    rw [Storage.handle, hrun, a.modify_of_size_le hi]
    rfl

/-- **The counter of an array counts the changes that are made, and a refusal leaves the array as it
was, unless it is refused for an entry that is not there.**  Then the access has been counted, and
nothing else has happened: whatever does not show the counter is replied to as before.  An entry
that is handed out for a change counts whether it is there or not. -/
theorem accounts_iff_not_misses (memory : σ) (r : Storage.Request σ) :
    (a.Accounts memory r ↔ ¬r.Misses a.size) ∧
    (r.Misses a.size → a.touch.state ≠ a.state ∧
      ∃ i, a.size ≤ i ∧ (Storage.petsc a).handle memory r =
        ((.petsc a.touch, memory), .done (.error (.indexOutOfRange i a.size)))) ∧
    (∀ q : Storage.Question, q ≠ .counter → q ≠ .text →
      (∀ k, q = .norm k → a.Honest ∧ a.touch.Honest) →
      (Storage.petsc a.touch).answer q = (Storage.petsc a).answer q) ∧
    ∀ i f, ((Storage.petsc a).handle memory (.access i f)).1.1.counter = a.state + 1 ∧
      (a.size ≤ i → (Storage.petsc a).handle memory (.access i f) =
        ((.petsc a.touch, memory), .handed none)) := by
  have hmiss (hr : r.Misses a.size) : ∃ i, a.size ≤ i ∧ (Storage.petsc a).handle memory r =
      ((.petsc a.touch, memory), .done (.error (.indexOutOfRange i a.size))) := by
    cases r with
    | change c => exact a.handle_of_misses memory hr
    | _ => exact hr.elim
  refine ⟨⟨fun h hr => ?_, fun hr => ?_⟩, fun hr => ⟨a.state_touch_ne, hmiss hr⟩,
    fun q => a.answer_touch, fun i f => ⟨rfl, fun hi => ?_⟩⟩
  · -- the array would have to be as it was, but its counter is one further
    obtain ⟨i, -, hhandle⟩ := hmiss hr
    have hsame := h.refused (.indexOutOfRange i a.size) (by rw [hhandle]; rfl)
    rw [hhandle] at hsame
    exact a.state_touch_ne (congrArg (fun after => after.1.counter) hsame)
  · cases r with
    | change c => exact a.accounts_change memory hr
    | access i f => exact ⟨nofun, nofun, fun _ => rfl⟩
    | ask q =>
      refine ⟨fun e he => ?_, fun _ => a.counter_asked q, fun hgranted => ?_⟩
      · exact congrArg (·, memory) (a.asked_of_error he)
      · cases q <;> cases hgranted
    | copy => exact ⟨nofun, fun _ => ⟨rfl, rfl⟩, False.elim⟩
  · have hentry : a.entries[i]? = none := List.getElem?_eq_none hi
    rw [Storage.handle, a.modify_of_size_le hi, Storage.entry?, entry?, hentry]

/-- An entry past the end of an array: the change is refused, and counted all the same. -/
theorem exists_counted_refusal :
    let a := ofSize 1
    let r : Storage.Request Unit := .change (.edit (.setEntry 1 .one))
    let after := (Storage.petsc a).handle () r
    after.2.error? = some (.indexOutOfRange 1 1) ∧ (Storage.petsc a).counter = 0 ∧
      after.1.1.counter = 1 ∧ after.1.1.toList = a.entries ∧ ¬a.Accounts () r := by
  refine ⟨rfl, rfl, rfl, rfl, fun haccounts => ?_⟩
  have hsame := haccounts.refused (.indexOutOfRange 1 1) rfl
  have hcounter : (1 : UInt64) = 0 := congrArg (fun after => after.1.counter) hsame
  exact absurd hcounter (by decide)

end ShardedVector.Counted
