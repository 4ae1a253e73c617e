/-
# Collectives and their peers

What a rank of a collective comes to if its peers send what they please.  Two things hold of
every collective: it brings one row for each rank, or it is refused for a message; and it is
never refused by a check of its operands, once there is one buffer for each rank and the root is
a rank of the group.  `settles_exchange` is the main case; the others are made of it.
-/
import ShardedVector.Collective
import ShardedVector.Proofs.Ensemble.Ends

namespace ShardedVector

theorem PastChecks.bind {α β : Type} {P : α → Prop} {Q : β → Prop} {outcome : Except Error α}
    {f : α → Except Error β} (h : PastChecks P outcome) (hf : ∀ a, P a → PastChecks Q (f a)) :
    PastChecks Q (outcome >>= f) := by
  cases outcome with
  | ok a => exact hf a h
  | error e => exact h

namespace Collective

open Routine

/-! ## 1. What a rank makes of messages -/

theorem pastChecks_readCount (peer : Nat) (answer : Option Bytes) :
    PastChecks (fun _ => True) (readCount peer answer) := by
  cases answer with
  | none => rfl
  | some message =>
    by_cases hlen : message.length = Record.width Count
    · have hone : Wire.decodeOne Count peer message = .ok (Record.decode message) := by
        simp only [Wire.decodeOne, Wire.expectLength, if_pos hlen]
      simp only [readCount, hone]
      cases (Record.decode message : Count).get? with
      | none => rfl
      | some n => trivial
    · simp only [readCount, Wire.decodeOne, Wire.expectLength, if_neg hlen]
      rfl

theorem pastChecks_readPayload (peer n : Nat) (answer : Option Bytes) :
    PastChecks (fun _ => True) (readPayload peer n answer) := by
  cases answer with
  | none => rfl
  | some message =>
    rw [readPayload]
    split
    · trivial
    · rfl

theorem pastChecks_readGathered (peer n : Nat) (answer : Option Bytes) :
    PastChecks (fun _ => True) (readGathered peer n answer) := by
  rw [readGathered]
  split
  · trivial
  · rfl

theorem pastChecks_announceable (length : Nat → Nat) :
    ∀ ps : List Nat, PastChecks (fun _ => True) (announceable length ps)
  | [] => trivial
  | p :: rest => by
    rw [announceable]
    cases hcount : Count.forPeer p (length p) with
    | ok c => exact pastChecks_announceable length rest
    | error e =>
      rw [Count.forPeer] at hcount
      split at hcount
      · cases hcount
      · obtain rfl := Except.error.inj hcount
        rfl

theorem pastChecks_decodeFrom (α : Type) [Record α] :
    ∀ (first : Nat) (buffers : List Bytes),
      PastChecks (fun rows => rows.length = buffers.length) (decodeFrom α first buffers)
  | _, [] => rfl
  | first, bytes :: rest => by
    rw [decodeFrom]
    have hfirst : PastChecks (fun _ => True) (Wire.decodeAll α first bytes) := by
      rw [Wire.decodeAll]
      split
      · trivial
      · rfl
    refine hfirst.bind fun items _ => ?_
    exact (pastChecks_decodeFrom α (first + 1) rest).bind fun others hothers =>
      congrArg (· + 1) hothers

/-! ## 2. Rounds -/

theorem always_sendEach (tag : Tag) (message : Nat → Bytes) :
    ∀ ps : List Nat, (sendEach tag message ps).Always fun _ => True
  | [] => trivial
  | _ :: rest => always_sendEach tag message rest

/-- Every rank of the list is heard, whatever it sent. -/
theorem always_forEach {α : Type} {routine : Nat → Routine (Except Error α)}
    (h : ∀ p, (routine p).Always (PastChecks fun _ => True)) :
    ∀ ps : List Nat, (forEach routine ps).Always (PastChecks fun as => as.length = ps.length)
  | [] => rfl
  | p :: rest => by
    refine always_bind.mpr ((h p).mono fun first hfirst => ?_)
    refine always_bind.mpr ((always_forEach h rest).mono fun others hothers => ?_)
    exact hfirst.bind fun a _ => hothers.bind fun as has => congrArg (· + 1) has

variable (me : Seat) (tag : Tag)

/-- The headers of all ranks. -/
theorem always_forEach_receiveCount :
    (forEach (fun p => if p = me.rank then .finish (.ok 0) else receiveCount tag p) me.ranks).Always
      (PastChecks fun _ => True) := by
  refine (always_forEach (fun p => ?_) me.ranks).mono fun outcome houtcome => ?_
  · split
    · trivial
    · exact pastChecks_readCount p
  · cases outcome with
    | ok counts => trivial
    | error e => exact houtcome

theorem settles_exchangeCounts (length : Nat → Nat) :
    (exchangeCounts me tag length).Settles fun _ => True := by
  refine always_bind.mpr ((always_sendEach tag _ _).mono fun _ _ => ?_)
  refine always_bind.mpr ((always_forEach_receiveCount me tag).mono fun counts hcounts => ?_)
  exact (pastChecks_announceable length me.peers).bind fun _ _ => hcounts

theorem settles_exchangePayloads (outgoing : Nat → Bytes) (counts : List Nat) :
    (exchangePayloads me tag outgoing counts).Settles fun buffers => buffers.length = me.size := by
  refine always_bind.mpr ((always_sendEach tag _ _).mono fun _ _ => ?_)
  refine (always_forEach (fun p => ?_) me.ranks).mono fun outcome houtcome => ?_
  · rw [receivePayload]
    split
    · trivial
    split
    · trivial
    · exact pastChecks_readPayload p _
  · rwa [Seat.ranks, List.length_range] at houtcome

/-- **An exchange brings one buffer for each rank, or is refused for a message.** -/
theorem settles_exchange (outgoing : Nat → Bytes) :
    (exchange me tag outgoing).Settles fun buffers => buffers.length = me.size :=
  (settles_exchangeCounts me tag _).bind fun counts _ =>
    settles_exchangePayloads me tag.payload outgoing counts

theorem settles_barrier : (barrier me tag).Settles fun _ => True :=
  (settles_exchange me tag _).bind fun _ _ => Attempt.settles_pure trivial

/-! ## 3. Records -/

section Records

variable {α : Type} [Record α]

theorem settles_allGatherRecords (items : List α) :
    (allGatherRecords me tag items).Settles fun rows => rows.length = me.size :=
  (settles_exchange me tag _).bind fun buffers hbuffers =>
    Attempt.settles_ofExcept (hbuffers ▸ pastChecks_decodeFrom α 0 buffers)

theorem settles_allToAllRecords {rows : List (List α)} (hrows : rows.length = me.size) :
    (allToAllRecords me tag rows).Settles fun incoming => incoming.length = me.size := by
  have hbytes : (allToAll me tag (rows.map Wire.encodeAll)).Settles
      fun buffers => buffers.length = me.size := by
    rw [allToAll, if_pos (by rwa [List.length_map])]
    exact settles_exchange me tag _
  exact hbytes.bind fun buffers hbuffers =>
    Attempt.settles_ofExcept (hbuffers ▸ pastChecks_decodeFrom α 0 buffers)

/-- The payloads that the root waits for. -/
theorem settles_gatherPayloads (buffer : Bytes) (counts : List Nat) :
    ∀ ps : List Nat, (gatherPayloads me tag buffer counts ps).Settles fun _ => True
  | [] => Attempt.settles_pure trivial
  | p :: rest => by
    rw [gatherPayloads]
    have hrest := settles_gatherPayloads buffer counts rest
    split
    · exact hrest.bind fun _ _ => Attempt.settles_pure trivial
    split
    · exact hrest.bind fun _ _ => Attempt.settles_pure trivial
    · refine Attempt.Settles.bind (pastChecks_readGathered p _) fun payload _ => ?_
      exact hrest.bind fun _ _ => Attempt.settles_pure trivial

theorem settles_gatherTo {root : Nat} (hroot : root < me.size) (buffer : Bytes) :
    (gatherTo me tag root buffer).Settles fun _ => True := by
  rw [gatherTo, if_neg (Nat.not_le.mpr hroot)]
  split
  · exact Attempt.Settles.bind (always_forEach_receiveCount me tag) fun counts _ =>
      settles_gatherPayloads me tag.payload buffer counts me.ranks
  · refine always_bind.mpr ((always_sendEach tag _ _).mono fun _ _ => ?_)
    refine always_bind.mpr ((always_sendEach tag.payload _ _).mono fun _ _ => ?_)
    exact (pastChecks_announceable _ [root]).bind fun _ _ => trivial

theorem settles_gatherRecordsTo {root : Nat} (hroot : root < me.size) (items : List α) :
    (gatherRecordsTo me tag root items).Settles fun _ => True :=
  (settles_gatherTo me tag hroot _).bind fun buffers _ =>
    (Attempt.settles_ofExcept (pastChecks_decodeFrom α 0 buffers)).mono fun _ _ => trivial

end Records

theorem settles_reduceAll (op : Reduction) (x : Binary64) :
    (reduceAll me tag op x).Settles fun _ => True := by
  rw [reduceAll]
  split
  · exact Attempt.settles_pure trivial
  · exact (settles_allGatherRecords me tag [x]).bind fun _ _ => Attempt.settles_pure trivial

/-! ## 4. Operands that are checked -/

/-- The number of buffers is checked before anything is sent. -/
theorem guarded_allToAll (buffers : List Bytes) :
    (allToAll me tag buffers).Guarded fun incoming => incoming.length = me.size := by
  rw [allToAll]
  split
  · exact (settles_exchange me tag _).guarded
  · exact .inl ⟨_, rfl⟩

theorem guarded_allToAllRecords {α : Type} [Record α] (rows : List (List α)) :
    (allToAllRecords me tag rows).Guarded fun incoming => incoming.length = me.size :=
  (guarded_allToAll me tag _).bind fun buffers hbuffers =>
    Attempt.settles_ofExcept (hbuffers ▸ pastChecks_decodeFrom α 0 buffers)

/-- The root is checked before anything is sent. -/
theorem guarded_gatherTo (root : Nat) (buffer : Bytes) :
    (gatherTo me tag root buffer).Guarded fun _ => True := by
  rcases Nat.lt_or_ge root me.size with hroot | hroot
  · exact (settles_gatherTo me tag hroot buffer).guarded
  · rw [gatherTo, if_pos hroot]
    exact .inl ⟨_, rfl⟩

theorem guarded_gatherRecordsTo {α : Type} [Record α] (root : Nat) (items : List α) :
    (gatherRecordsTo me tag root items).Guarded fun _ => True :=
  (guarded_gatherTo me tag root _).bind fun buffers _ =>
    (Attempt.settles_ofExcept (pastChecks_decodeFrom α 0 buffers)).mono fun _ _ => trivial

end Collective

end ShardedVector
