/-
# What a gather comes to

A gather is a pair of exchanges: requests go to the owners, and answers come back.  That every
rank obtains what it asked for is put together from three facts.

* The requests of one rank are the indices that each owner has, in the order of the list
  (`askedOf_map`).
* An owner answers with the entries of the whole vector (`answer_eq_map`).
* Taking for each index the next answer of its owner undoes the distribution (`assemble_map`).

`converses_gatherValues` and `converses_redistribute` say what the conversations come to, and
`concludes_gatherValues` says it of every interleaving.
-/
import Mathlib.Algebra.Group.Nat.Defs
import ShardedVector.Proofs.Collective.Records
import ShardedVector.Proofs.Shard.Spread
import ShardedVector.Shard.Gather

namespace ShardedVector.Shard

/-! ## 1. Requests -/

theorem owners_eq_ok {v : Shard} {owner : UInt64 → Nat} :
    ∀ {indices : List UInt64}, (∀ i ∈ indices, v.ownerOf? i = some (owner i)) →
      v.owners indices = .ok (indices.map owner)
  | [], _ => rfl
  | i :: rest, h => by
    have hrest := owners_eq_ok fun j hj => h j (List.mem_cons_of_mem i hj)
    rw [owners, h i (by simp), hrest]
    rfl

/-- What is asked of a rank is what it owns, in the order of the list. -/
theorem askedOf_map (owner : UInt64 → Nat) (s : Nat) :
    ∀ indices : List UInt64,
      askedOf s (indices.map owner) indices = indices.filter fun i => decide (owner i = s)
  | [] => rfl
  | i :: rest => by
    rw [List.map_cons, askedOf, askedOf_map owner s rest]
    by_cases hi : owner i = s <;> simp [hi]

/-! ## 2. Answers -/

/-- Taking for each index the next answer of its owner puts all answers in the order of the
list.  By induction on the list: the first index takes the head of the answers of its owner, and
what is left is what the rest of the list asked for. -/
theorem assemble_map (owner : UInt64 → Nat) (entry : UInt64 → Binary64) :
    ∀ (indices : List UInt64) (answers : List (List Binary64)),
      (∀ i ∈ indices, answers[owner i]? =
        some ((indices.filter fun j => decide (owner j = owner i)).map entry)) →
      assemble (indices.map owner) answers = indices.map entry
  | [], _, _ => rfl
  | i :: rest, answers, h => by
    have hfirst := h i (by simp)
    rw [List.filter_cons_of_pos (by simp), List.map_cons] at hfirst
    rw [List.map_cons, assemble, hfirst, List.map_cons]
    refine congrArg (entry i :: ·) (assemble_map owner entry rest _ fun j hj => ?_)
    by_cases hij : owner i = owner j
    · have hlt : owner i < answers.length := (List.getElem?_eq_some_iff.mp hfirst).1
      rw [← hij, List.getElem?_set_self hlt]
    · have hothers := h j (List.mem_cons_of_mem i hj)
      rw [List.filter_cons_of_neg (by simpa using hij)] at hothers
      rw [List.getElem?_set_ne hij, hothers]

theorem checkRequests_ok {v : Shard} :
    ∀ {first : Nat} {rows : List (List UInt64)},
      (∀ wanted ∈ rows, ∀ i ∈ wanted, (v.entryAt? i).isSome) → v.checkRequests first rows = .ok ()
  | _, [], _ => rfl
  | first, wanted :: rest, h => by
    have hfind : (wanted.find? fun i => (v.entryAt? i).isNone) = none := by
      refine List.find?_eq_none.mpr fun i hi => ?_
      simpa [Option.isSome_iff_ne_none] using h wanted (by simp) i hi
    rw [checkRequests, hfind]
    exact checkRequests_ok fun row hrow => h row (List.mem_cons_of_mem wanted hrow)

theorem checkAnswers_ok :
    ∀ {first : Nat} {requests : List (List UInt64)} {answers : List (List Binary64)},
      answers.map List.length = requests.map List.length →
        checkAnswers first requests answers = .ok ()
  | _, [], _, _ => rfl
  | first, asked :: requests, [], h => by simp at h
  | first, asked :: requests, received :: answers, h => by
    obtain ⟨hfirst, hrest⟩ := List.cons_eq_cons.mp h
    rw [checkAnswers, List.headD_cons, if_pos hfirst]
    exact checkAnswers_ok hrest

/-! ## 3. The conversation -/

/-- The indices of a list that rank `s` owns. -/
def ownedBy (v : Shard) (s : Nat) (indices : List UInt64) : List UInt64 :=
  indices.filter fun i => decide (v.ownerOf? i = some s)

/-- An entry of a whole vector. -/
def entryOf (entries : List Binary64) (i : UInt64) : Binary64 := entries.getD i.toNat .nan

/-- What is left of the conversation when the answers have come. -/
def settle (v : Shard) (owners : List Nat) (requests incoming : List (List UInt64))
    (answers : List (List Binary64)) : Attempt (List Binary64) := do
  Attempt.ofExcept (v.checkRequests 0 incoming)
  Attempt.ofExcept (checkAnswers 0 requests answers)
  return assemble owners answers

/-- What is left of the conversation when the requests have come. -/
def reply (v : Shard) (owners : List Nat) (requests incoming : List (List UInt64)) :
    Attempt (List Binary64) :=
  Collective.allToAllRecords v.seat .gatherReply (incoming.map v.answer) >>=
    v.settle owners requests incoming

theorem converse_eq_bind (v : Shard) (indices : List UInt64) (owners : List Nat) :
    v.converse indices owners =
      Collective.allToAllRecords v.seat .gatherRequest
        (v.seat.ranks.map fun r => askedOf r owners indices) >>=
      v.reply owners (v.seat.ranks.map fun r => askedOf r owners indices) := rfl

/-- A conversation that is timed comes to the same. -/
theorem converses_timed {α : Type} {group size : Nat} {task : String} {v : Nat → Shard}
    {a : Nat → Attempt α} {values : Nat → Except Error α}
    (h : Converses group size (fun r => (a r).outcome) values) :
    Converses group size (fun r => ((v r).timed task (a r)).outcome) values := by
  have hnoted := h.bind (f := fun r x =>
      if (v r).instrumented then .interval task (.finish x) else .finish x)
    ((Converses.finish group size values).noted (fun r => (v r).instrumented) task)
  refine hnoted.of_eq fun r _ => ?_
  rw [timed]
  by_cases hr : (v r).instrumented
  · simp only [hr, if_true]
    rfl
  · simp only [hr]
    exact (Routine.bind_finish _).symm

section Conversation

variable {size : Nat} {offsets : List UInt64} {v : Nat → Shard} {indices : Nat → List UInt64}
  {owner : UInt64 → Nat} (h : Spread size offsets v)
  (howner : ∀ r < size, ∀ i ∈ indices r, (v r).ownerOf? i = some (owner i))

include h

/-- An owner answers with the entries of the whole vector. -/
theorem answer_eq_map {s : Nat} (hs : s < size) {wanted : List UInt64}
    (hwanted : ∀ i ∈ wanted, offsets.getD s 0 ≤ i ∧ i < offsets.getD (s + 1) 0) :
    (v s).answer wanted = wanted.map (entryOf (joined size v)) := by
  refine List.map_congr_left fun i hi => ?_
  rw [(h.entryAt?_eq_getElem?_joined hs (hwanted i hi)).1, entryOf, List.getD_eq_getElem?_getD]

theorem range_of_mem_ownedBy {r s : Nat} (hr : r < size) {wanted : List UInt64} {i : UInt64}
    (hi : i ∈ (v r).ownedBy s wanted) :
    s < size ∧ offsets.getD s 0 ≤ i ∧ i < offsets.getD (s + 1) 0 :=
  (h.ownerOf?_eq_some_iff hr).mp (of_decide_eq_true (List.mem_filter.mp hi).2)

include howner

omit h in
theorem ownedBy_eq_filter {r : Nat} (hr : r < size) (s : Nat) :
    (v r).ownedBy s (indices r) = (indices r).filter fun i => decide (owner i = s) :=
  List.filter_congr fun i hi => by simp [howner r hr i hi]

/-- With requests from all ranks and answers from all owners, nothing is refused, and the
entries are in the order of the list. -/
theorem settle_eq_return {r : Nat} (hr : r < size) :
    (v r).settle ((indices r).map owner)
        ((List.range size).map fun s => (v r).ownedBy s (indices r))
        ((List.range size).map fun p => (v p).ownedBy r (indices p))
        ((List.range size).map fun s => (v s).answer ((v r).ownedBy s (indices r))) =
      return (indices r).map (entryOf (joined size v)) := by
  have hrequests : (v r).checkRequests 0
      ((List.range size).map fun p => (v p).ownedBy r (indices p)) = .ok () := by
    refine checkRequests_ok fun wanted hwanted i hi => ?_
    obtain ⟨p, hp, rfl⟩ := List.mem_map.mp hwanted
    obtain ⟨-, hin⟩ := range_of_mem_ownedBy h (List.mem_range.mp hp) hi
    obtain ⟨hentry, hlt⟩ := h.entryAt?_eq_getElem?_joined hr hin
    rw [hentry, List.getElem?_eq_getElem hlt]
    rfl
  have hanswers : checkAnswers 0 ((List.range size).map fun s => (v r).ownedBy s (indices r))
      ((List.range size).map fun s => (v s).answer ((v r).ownedBy s (indices r))) = .ok () :=
    checkAnswers_ok (by simp [answer])
  have hentries : assemble ((indices r).map owner)
      ((List.range size).map fun s => (v s).answer ((v r).ownedBy s (indices r))) =
      (indices r).map (entryOf (joined size v)) := by
    refine assemble_map owner _ _ _ fun i hi => ?_
    have hs := ((h.ownerOf?_eq_some_iff hr).mp (howner r hr i hi)).1
    rw [List.getElem?_map, List.getElem?_range hs, Option.map_some, answer_eq_map h hs fun j hj =>
      (range_of_mem_ownedBy h hr hj).2, ownedBy_eq_filter howner hr]
  rw [settle, hrequests, hanswers, hentries]
  rfl

/-- The two exchanges, when no list is too long for a size header. -/
theorem converses_converse (group : Nat)
    (short : ∀ r < size, ∀ s < size, r ≠ s → ((v r).ownedBy s (indices r)).length < 2 ^ 29) :
    Converses group size
      (fun r => ((v r).converse (indices r) ((indices r).map owner)).outcome)
      (fun r => .ok ((indices r).map (entryOf (joined size v)))) := by
  have hshort : ∀ r < size, ∀ s < size, r ≠ s →
      ((v r).ownedBy s (indices r)).length * 8 ≤ longestPayload := by
    intro r hr s hs hrs
    have hlt := short r hr s hs hrs
    rw [longestPayload]
    omega
  have hrequests := Collective.converses_allToAllRecords group size .gatherRequest
    (fun r s => (v r).ownedBy s (indices r)) fun r hr s hs hsr => hshort s hs r hr hsr
  have hreplies := Collective.converses_allToAllRecords group size .gatherReply
    (fun s r => (v s).answer ((v r).ownedBy s (indices r))) fun r hr s hs hsr => by
      rw [answer, List.length_map]
      exact hshort r hr s hs (Ne.symm hsr)
  have hsettle := (Converses.finish group size
    fun r => .ok ((indices r).map (entryOf (joined size v)))).of_eq
    fun r hr => congrArg Attempt.outcome (settle_eq_return h howner hr)
  have hlater : Converses group size
      (fun r => ((v r).reply ((indices r).map owner)
        ((List.range size).map fun s => (v r).ownedBy s (indices r))
        ((List.range size).map fun p => (v p).ownedBy r (indices p))).outcome)
      (fun r => .ok ((indices r).map (entryOf (joined size v)))) := by
    refine (Converses.bind_ok hreplies hsettle).of_eq fun r hr => ?_
    rw [reply, h.seat r hr, List.map_map]
    rfl
  have hconverse := Converses.bind_ok (f := fun r => (v r).reply ((indices r).map owner)
    ((List.range size).map fun s => (v r).ownedBy s (indices r))) hrequests hlater
  refine hconverse.of_eq fun r hr => ?_
  have hasked : ((Seat.ofRank r size).ranks.map fun s =>
      askedOf s ((indices r).map owner) (indices r)) =
      (List.range size).map fun s => (v r).ownedBy s (indices r) :=
    List.map_congr_left fun s _ => (askedOf_map owner s _).trans
      (ownedBy_eq_filter howner hr s).symm
  rw [converse_eq_bind, h.seat r hr, hasked]

omit howner

/-- **Every rank obtains the entries it asked for**, in the order in which it asked. -/
theorem converses_gatherValues (group : Nat)
    (inside : ∀ r < size, ∀ i ∈ indices r, i < (v r).size)
    (short : ∀ r < size, ∀ s < size, r ≠ s → ((v r).ownedBy s (indices r)).length < 2 ^ 29) :
    Converses group size (fun r => ((v r).gatherValues (indices r)).outcome)
      (fun r => .ok ((indices r).map (entryOf (joined size v)))) := by
  let owner : UInt64 → Nat := fun i => ((⟨0, offsets⟩ : Partition).ownerOf? i).getD 0
  have howner : ∀ r < size, ∀ i ∈ indices r, (v r).ownerOf? i = some (owner i) := by
    intro r hr i hi
    obtain ⟨s, -, hs⟩ := h.exists_ownerOf? hr (inside r hr i hi)
    have hshared : (⟨0, offsets⟩ : Partition).ownerOf? i = some s := by
      rw [Shard.ownerOf?, h.layout r hr] at hs
      exact hs
    rw [hs]
    simp only [owner, hshared, Option.getD_some]
  refine converses_timed ((converses_converse h howner group short).of_eq fun r hr => ?_)
  rw [owners_eq_ok (howner r hr)]
  rfl

end Conversation

end ShardedVector.Shard
