/-
# Operations that bring the ranks together

A barrier is an exchange of headers without payloads, on a tag that other conversations use as well,
and `apply`, the reductions and `init` are as good as a barrier.  An `Encounter` is one of these
operations, or one of the collectives themselves, with what each rank brings to it; a gather to a
root is one too, but nobody except the root waits in it.

`entered_before_returned` says of every list of encounters that all ranks go through in the same
order, and of every interleaving: no rank returns from an encounter before every rank has entered
that very one, whatever tags the ones before it and after it use.
-/
import ShardedVector.Proofs.Collective.Rendezvous
import ShardedVector.Proofs.Collective.Sequence
import ShardedVector.Proofs.Shard.SumEntries
import ShardedVector.Proofs.Shard.Verdict

namespace ShardedVector

open Collective (HeadersFirst Attendable attend entering returning)

/-! ## 1. Encounters -/

/-- What the ranks of a group enter together, and what each of them brings. -/
inductive Encounter where
  | joint (j : Collective.Joint)
  | reduce (tag : Tag) (op : Reduction) (x : Nat → Binary64)
  | apply (v : Nat → Shard) (mode : ApplyMode)
  | init (v : Nat → Shard) (claim : Nat → Span)
  | sum (v : Nat → Shard)
  | min (v : Nat → Shard)
  | max (v : Nat → Shard)
  | norm (v : Nat → Shard) (k : Norm)
  | inner (v w : Nat → Shard)
  | sumEntries (v : Nat → Shard) (indices : Nat → List UInt64)

/-- An attempt to its end, whatever it comes to. -/
def Attempt.ended {α : Type} (a : Attempt α) : Routine Unit := a.outcome >>= fun _ => .finish ()

/-- The seats of a group of more than one process, or of one that has a group all the same. -/
def Seated (size : Nat) (v : Nat → Shard) : Prop := ∀ r < size, (v r).seat = .ofRank r size

namespace Encounter

/-- What rank `r` does in an encounter. -/
def routine (size : Nat) : Encounter → Nat → Routine Unit
  | joint j, r => (j.attempt size r).ended
  | reduce tag op x, r => (Collective.reduceAll (.ofRank r size) tag op (x r)).ended
  | apply v mode, r => ((v r).apply mode).ended
  | init v claim, r => ((v r).init (claim r)).ended
  | sum v, r => (v r).sum.ended
  | min v, r => (v r).min.ended
  | max v, r => (v r).max.ended
  | norm v k, r => ((v r).norm k).1.ended
  | inner v w, r => ((v r).inner (w r)).ended
  | sumEntries v indices, r => ((v r).sumEntries (indices r)).ended

/-- The payloads can be announced, and no rank refuses its operands before it has talked to the
others. -/
def Fits (size : Nat) : Encounter → Prop
  | joint j => j.Announceable size
  | reduce _ _ _ => True
  | apply v _ | init v _ | sum v | min v | max v | norm v _ => Seated size v
  | inner v w => Seated size v ∧ ∀ r < size, (v r).checkLayout (w r) .inner = .ok () ∧
      ∃ x, (v r).storage.localDot (w r).storage = .ok x
  | sumEntries v indices => Seated size v ∧ Shard.Askable size v indices

/-- Every rank waits for every rank.  In a gather only the root does. -/
def Synchronises : Encounter → Prop
  | joint (.gatherTo _ _ _) => False
  | _ => True

/-! ## 2. Encounters as collectives -/

section Ended

variable {α : Type} {group size : Nat} {a : Nat → Attempt α}

theorem marks_ended {a : Attempt α} {note : String} (h : a.outcome.Marks note 0) :
    a.ended.Marks note 0 := h.bind_zero fun _ => rfl

theorem converses_ended {values : Nat → Except Error α}
    (h : Converses group size (fun r => (a r).outcome) values) :
    Converses group size (fun r => (a r).ended) fun _ => () :=
  h.bind (Converses.finish group size fun _ => ())

theorem headersFirst_ended (h : HeadersFirst size fun r => (a r).outcome) :
    HeadersFirst size fun r => (a r).ended := h.bind _

end Ended

/-- What follows a timed attempt is the note. -/
theorem outcome_timed {α : Type} (v : Shard) (task : String) (a : Attempt α) :
    (v.timed task a).outcome = a.outcome >>= fun outcome =>
      if v.instrumented then .interval task (.finish outcome) else .finish outcome := by
  rw [Shard.timed]
  by_cases hon : v.instrumented
  · simp only [hon, if_true]
    rfl
  · simp only [hon]
    exact (Routine.bind_finish _).symm

/-- No encounter makes a note, but for the one of a timed partition. -/
theorem marks_routine {note : String} (hnote : Shard.partitionTask ≠ note) (size : Nat)
    (e : Encounter) (r : Nat) : (e.routine size r).Marks note 0 := by
  have hreduce (seat : Seat) (op : Reduction) (x : Binary64) :
      (Collective.reduceAll seat .reduce op x).outcome.Marks note 0 :=
    Collective.marks_reduceAll seat .reduce op x
  cases e with
  | joint j =>
    cases j with
    | allGather tag buffer => exact marks_ended (Collective.marks_exchange _ tag _)
    | allToAll tag buffers => exact marks_ended (Collective.marks_allToAll _ tag _)
    | gatherTo tag root buffer => exact marks_ended (Collective.marks_gatherTo _ tag root _)
    | barrier tag =>
      exact marks_ended
        (Collective.marks_attempt_bind (Collective.marks_barrier _ tag) fun _ => rfl)
  | reduce tag op x => exact marks_ended (Collective.marks_reduceAll _ tag op _)
  | apply v mode => exact marks_ended (Collective.marks_barrier _ .apply)
  | init v claim =>
    refine marks_ended (Collective.marks_attempt_bind ?_ fun _ => rfl)
    rw [outcome_timed]
    refine (Collective.marks_attempt_bind (Collective.marks_allGatherRecords _ _ _)
      fun _ => rfl : (Partition.explicit _ _).outcome.Marks note 0).bind_zero fun outcome => ?_
    split
    · exact (Routine.marks_interval_ne hnote).mpr rfl
    · rfl
  | sum v => exact marks_ended (hreduce _ _ _)
  | min v => exact marks_ended (hreduce _ _ _)
  | max v => exact marks_ended (hreduce _ _ _)
  | norm v k => exact marks_ended (Collective.marks_attempt_bind (hreduce _ _ _) fun _ => rfl)
  | inner v w =>
    exact marks_ended (Collective.marks_attempt_bind rfl fun _ =>
      Collective.marks_attempt_bind rfl fun x => hreduce _ _ x)
  | sumEntries v indices =>
    exact marks_ended (Collective.marks_attempt_bind rfl fun _ =>
      Collective.marks_attempt_bind (Collective.marks_allGatherRecords _ _ _)
        fun _ => hreduce _ _ _)

/-- Operands that are accepted come down to one reduction. -/
theorem exists_inner_eq {size : Nat} {v w : Nat → Shard}
    (h : ∀ r < size, (v r).checkLayout (w r) .inner = .ok () ∧
      ∃ x, (v r).storage.localDot (w r).storage = .ok x) :
    ∃ x : Nat → Binary64, ∀ r < size,
      (v r).inner (w r) = Collective.reduceAll (v r).seat .reduce .sum (x r) := by
  choose! x hx using fun r hr => (h r hr).2
  refine ⟨x, fun r hr => ?_⟩
  rw [Shard.inner, (h r hr).1, hx r hr]
  rfl

theorem sumEntries_eq {v : Shard} {indices : List UInt64} (h : ∀ i ∈ indices, i < v.size) :
    v.sumEntries indices =
      Collective.allGatherRecords v.seat .sumEntries (indexSet indices) >>= fun lists =>
        Collective.reduceAll v.seat .reduce .sum
          (Binary64.sum (v.entriesAt (mergeAll lists).eraseReps)) := by
  rw [Shard.sumEntries, Shard.checkIndices_ok h]
  rfl

/-- Every encounter comes to an end. -/
theorem converses_routine (group size : Nat) {e : Encounter} (h : e.Fits size) :
    Converses group size (e.routine size) fun _ => () := by
  have hreduce {v : Nat → Shard} (hv : Seated size v) (op : Reduction) (x : Nat → Binary64) :
      Converses group size
        (fun r => (Collective.reduceAll (v r).seat .reduce op (x r)).outcome)
        fun _ => .ok (Collective.reduced size op x) :=
    (Collective.converses_reduceAll group size .reduce op x).of_eq fun r hr => by rw [hv r hr]
  cases e with
  | joint j => exact converses_ended (Collective.converses_attempt group size h)
  | reduce tag op x => exact converses_ended (Collective.converses_reduceAll group size tag op x)
  | apply v mode =>
    refine converses_ended ((Collective.converses_barrier group size .apply).of_eq fun r hr => ?_)
    rw [Shard.apply, h r hr]
  | init v claim =>
    exact converses_ended (Shard.converses_init group (.grouped fun _ _ => rfl) h claim)
  | sum v => exact converses_ended (hreduce h _ _)
  | min v => exact converses_ended (hreduce h _ _)
  | max v => exact converses_ended (hreduce h _ _)
  | norm v k =>
    exact converses_ended ((hreduce h _ _).bind_ok (Converses.finish group size _))
  | inner v w =>
    obtain ⟨x, hx⟩ := exists_inner_eq h.2
    exact converses_ended
      ((hreduce h.1 .sum x).of_eq fun r hr => congrArg Attempt.outcome (hx r hr))
  | sumEntries v indices =>
    have hlists := Collective.converses_allGatherRecords group size .sumEntries
      (fun r => indexSet (indices r)) fun r hr => by
        have hwidth : Record.width UInt64 = 8 := rfl
        have hshort := h.2.short r hr
        rw [length_indexSet, hwidth, longestPayload]
        omega
    refine converses_ended ((hlists.bind_ok (f := fun r lists => Collective.reduceAll (v r).seat
      .reduce .sum (Binary64.sum ((v r).entriesAt (mergeAll lists).eraseReps)))
      (hreduce h.1 .sum _)).of_eq fun r hr => ?_)
    rw [sumEntries_eq (h.2.inside r hr), h.1 r hr]

/-- Every encounter in which all ranks wait begins with headers, unless the rank is alone. -/
theorem headersFirst_routine {size : Nat} {e : Encounter} (h : e.Fits size)
    (hmeets : e.Synchronises) (hsize : size ≠ 1) : HeadersFirst size (e.routine size) := by
  have hreduce {v : Nat → Shard} (hv : Seated size v) (op : Reduction) (x : Nat → Binary64) :
      HeadersFirst size fun r => (Collective.reduceAll (v r).seat .reduce op (x r)).outcome :=
    (HeadersFirst.reduceAll hsize .reduce op x).congr fun r hr => by rw [hv r hr]
  cases e with
  | joint j =>
    cases j with
    | allGather tag buffer => exact headersFirst_ended (.allGather tag buffer)
    | allToAll tag buffers => exact headersFirst_ended (.allToAll tag buffers)
    | gatherTo tag root buffer => exact hmeets.elim
    | barrier tag => exact headersFirst_ended ((HeadersFirst.barrier tag).attempt_bind _)
  | reduce tag op x => exact headersFirst_ended (.reduceAll hsize tag op x)
  | apply v mode =>
    refine headersFirst_ended ((HeadersFirst.barrier .apply).congr fun r hr => ?_)
    rw [Shard.apply, h r hr]
  | init v claim =>
    have hclaims : HeadersFirst size fun r => (Partition.explicit (v r).seat (claim r)).outcome :=
      ((HeadersFirst.allGatherRecords .partition fun r => [claim r]).attempt_bind
        fun r claims => Attempt.ofExcept (Partition.ofClaims (v r).seat claims.flatten)).congr
          fun r hr => by rw [Partition.explicit, h r hr]
    refine headersFirst_ended (HeadersFirst.attempt_bind ?_ fun r p => return (v r).bind p)
    simp only [outcome_timed]
    exact hclaims.bind _
  | sum v => exact headersFirst_ended (hreduce h _ _)
  | min v => exact headersFirst_ended (hreduce h _ _)
  | max v => exact headersFirst_ended (hreduce h _ _)
  | norm v k => exact headersFirst_ended ((hreduce h _ _).attempt_bind _)
  | inner v w =>
    obtain ⟨x, hx⟩ := exists_inner_eq h.2
    exact headersFirst_ended ((hreduce h.1 .sum x).congr fun r hr =>
      congrArg Attempt.outcome (hx r hr))
  | sumEntries v indices =>
    refine headersFirst_ended (((HeadersFirst.allGatherRecords .sumEntries
      fun r => indexSet (indices r)).attempt_bind fun r lists => Collective.reduceAll (v r).seat
        .reduce .sum (Binary64.sum ((v r).entriesAt (mergeAll lists).eraseReps))).congr
          fun r hr => ?_)
    rw [sumEntries_eq (h.2.inside r hr), h.1 r hr]

theorem attendable_routine {size : Nat} {e : Encounter} (h : e.Fits size) :
    Attendable size (e.routine size) where
  marks_entering := e.marks_routine (by decide) size
  marks_returning := e.marks_routine (by decide) size
  converses := fun group => converses_routine group size h

end Encounter

/-! ## 3. Nobody returns before all have entered -/

/-- **The operations of a group bring its ranks together.**  When some rank has returned from the
encounter at place `k` of a list that all ranks go through, every rank has entered that encounter,
under every interleaving. -/
theorem entered_before_returned (group size : Nat) {es : List Encounter}
    (h : ∀ e ∈ es, e.Fits size) {k : Nat} {e : Encounter} (hk : es[k]? = some e)
    (hmeets : e.Synchronises) (turns : List Nat) {r s : Nat} (hs : s < size)
    (hreturned : k < ((Ensemble.ofGroup group size
      (attend (es.map (Encounter.routine size)))).run turns).returned r) :
    k < ((Ensemble.ofGroup group size
      (attend (es.map (Encounter.routine size)))).run turns).entered s := by
  have hattendable : ∀ x ∈ es.map (Encounter.routine size), Attendable size x := by
    intro x hx
    obtain ⟨e', he', rfl⟩ := List.mem_map.mp hx
    exact Encounter.attendable_routine (h e' he')
  have hat : (es.map (Encounter.routine size))[k]? = some (e.routine size) := by
    rw [List.getElem?_map, hk, Option.map_some]
  have hfits := h e (List.mem_of_getElem? hk)
  exact Collective.entered_of_returned hattendable group hat
    (Encounter.headersFirst_routine hfits hmeets) turns hs hreturned

/-- Three ranks use one tag for a barrier, for a gather and for a barrier again.  Rank `1`, which is
the fastest one, has nobody to wait for in the gather; it returns from the second barrier when rank
`0` has entered it. -/
theorem entered_before_returned_three :
    let es : List Encounter :=
      [.joint (.barrier ⟨7⟩), .joint (.gatherTo ⟨7⟩ 0 fun r => [UInt8.ofNat r]),
        .joint (.barrier ⟨7⟩), .sum fun r => (Shard.unbound (.ofRank r 3) .dense).initSize 5]
    let s := (Ensemble.ofGroup 1 3 (attend (es.map (Encounter.routine 3)))).run
      (List.replicate 22 [1, 0, 1, 2]).flatten
    (∀ e ∈ es, e.Fits 3) ∧ s.returned 0 = 2 ∧ 2 < s.returned 1 ∧ 2 < s.entered 0 := by
  intro es s
  have hfits : ∀ e ∈ es, e.Fits 3 := by
    intro e he
    simp only [es, List.mem_cons, List.not_mem_nil, or_false] at he
    rcases he with rfl | rfl | rfl | rfl
    · trivial
    · exact ⟨by decide, fun _ _ => by simp⟩
    · trivial
    · exact fun _ _ => rfl
  have hreturned : 2 < s.returned 1 := by decide +kernel
  exact ⟨hfits, by decide +kernel, hreturned,
    entered_before_returned 1 3 hfits (k := 2) rfl trivial _ (by decide) hreturned⟩

end ShardedVector
