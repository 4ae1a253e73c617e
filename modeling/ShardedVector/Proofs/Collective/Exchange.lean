/-
# What an exchange comes to

An exchange is two rounds.  In the first one the headers travel; what it comes to is said for
buffers of any length (`converses_exchangeCounts`).  In the second one the payloads travel that
are not empty.  When every payload can be announced, every rank obtains what every rank has
for it (`converses_exchange`), and with that `allGather` and `allToAll` follow.
-/
import ShardedVector.Proofs.Collective.Round
import ShardedVector.Proofs.Wire.Format

namespace ShardedVector.Collective

/-! ## 1. Headers -/

theorem length_headerBytes (n : Nat) : (headerBytes n).length = Record.width Count :=
  Record.length_encode _

/-- What a rank makes of the header of a payload of `n` bytes from `peer`. -/
def announced (peer n : Nat) : Except Error Nat :=
  if n ≤ longestPayload then .ok n else .error (.communication peer .oversized)

theorem readCount_headerBytes (peer n : Nat) :
    readCount peer (some (headerBytes n)) = announced peer n := by
  have hone : Wire.decodeOne Count peer (headerBytes n) = .ok (Count.header n) :=
    Wire.decodeOne_encode peer (Count.header n)
  simp only [readCount, hone, Count.get?_header, announced]
  by_cases h : n ≤ longestPayload <;> simp only [h, if_true, if_false]

theorem announceable_of_le {length : Nat → Nat} :
    ∀ {ps : List Nat}, (∀ p ∈ ps, length p ≤ longestPayload) → announceable length ps = .ok ()
  | [], _ => rfl
  | p :: ps, h => by
    have hp : Count.forPeer p (length p) = .ok ⟨UInt32.ofNat (length p)⟩ := by
      simp [Count.forPeer, Count.ofNat?, h p (by simp)]
    simp only [announceable, hp]
    exact announceable_of_le fun p' hp' => h p' (by simp [hp'])

theorem announceable_congr {length length' : Nat → Nat} :
    ∀ {ps : List Nat}, (∀ p ∈ ps, length p = length' p) →
      announceable length ps = announceable length' ps
  | [], _ => rfl
  | p :: ps, h => by
    rw [announceable, announceable, h p (by simp),
      announceable_congr fun p' hp' => h p' (by simp [hp'])]

theorem mapM_ok {α β : Type} {f : α → Except Error β} {g : α → β} :
    ∀ {as : List α}, (∀ a ∈ as, f a = .ok (g a)) → as.mapM f = .ok (as.map g)
  | [], _ => rfl
  | a :: as, h => by
    rw [List.mapM_cons, h a (by simp), mapM_ok fun a' ha' => h a' (by simp [ha'])]
    rfl

theorem exists_of_mapM_ok {α β : Type} {f : α → Except Error β} :
    ∀ {as : List α} {bs : List β}, as.mapM f = .ok bs → ∀ a ∈ as, ∃ b, f a = .ok b
  | [], _, _, _, ha => absurd ha List.not_mem_nil
  | a' :: as, bs, h, a, ha => by
    rw [List.mapM_cons] at h
    cases hfirst : f a' with
    | error e =>
      rw [hfirst] at h
      cases h
    | ok b =>
      cases hrest : as.mapM f with
      | error e =>
        rw [hfirst, hrest] at h
        cases h
      | ok others =>
        rcases List.mem_cons.mp ha with rfl | ha
        · exact ⟨b, hfirst⟩
        · exact exists_of_mapM_ok hrest a ha

/-- A rank takes the header of a peer, and nothing else of the peer waits then. -/
theorem receiveCount_acts {group rank peer n : Nat} {tag : Tag} {q : Queues}
    (h : q ⟨group, peer, rank, tag⟩ = [headerBytes n]) :
    Acts group rank (q, receiveCount tag peer)
      (Function.update q ⟨group, peer, rank, tag⟩ [], .finish (announced peer n)) := by
  have hacts := Acts.receive h (readCount peer)
  rwa [length_headerBytes, readCount_headerBytes] at hacts

/-! ## 2. What a rank makes of all headers -/

/-- How many bytes each rank has for rank `r`.  The failures on the own side come first, then those
of the peers. -/
def counted (size : Nat) (length : Nat → Nat → Nat) (r : Nat) : Except Error (List Nat) := do
  announceable (length r) (Seat.ofRank r size).peers
  (List.range size).mapM fun p => if p = r then .ok 0 else announced p (length p r)

theorem mem_peers_ofRank {size r p : Nat} :
    p ∈ (Seat.ofRank r size).peers ↔ p < size ∧ p ≠ r :=
  Seat.mem_peers

theorem counted_eq_ok {size r : Nat} {length : Nat → Nat → Nat}
    (own : ∀ p < size, p ≠ r → length r p ≤ longestPayload)
    (peers : ∀ p < size, p ≠ r → length p r ≤ longestPayload) :
    counted size length r =
      .ok ((List.range size).map fun p => if p = r then 0 else length p r) := by
  have hown : announceable (length r) (Seat.ofRank r size).peers = .ok () :=
    announceable_of_le fun p hp => own p (mem_peers_ofRank.mp hp).1 (mem_peers_ofRank.mp hp).2
  have hpeers : ((List.range size).mapM fun p =>
      if p = r then .ok 0 else announced p (length p r)) =
      .ok ((List.range size).map fun p => if p = r then 0 else length p r) := by
    refine mapM_ok fun p hp => ?_
    by_cases hpr : p = r
    · rw [if_pos hpr, if_pos hpr]
    · rw [if_neg hpr, if_neg hpr, announced, if_pos (peers p (List.mem_range.mp hp) hpr)]
  rw [counted, hown, hpeers]
  rfl

/-! ## 3. The first round -/

section Rounds

variable (group size : Nat) (tag : Tag)

theorem nodup_peers (me : Seat) : me.peers.Nodup := List.nodup_range.filter _

/-- A rank takes the header of every rank but itself. -/
theorem hearCount_acts {length : Nat → Nat → Nat} {r p : Nat} (hr : r < size) {q : Queues}
    (hq : q ⟨group, p, r, tag⟩ =
      if r ∈ (Seat.ofRank p size).peers then [headerBytes (length p r)] else []) :
    Acts group r (q, if p = r then .finish (.ok 0) else receiveCount tag p)
      (Function.update q ⟨group, p, r, tag⟩ [],
        .finish (if p = r then .ok 0 else announced p (length p r))) := by
  by_cases hpr : p = r
  · subst hpr
    rw [if_neg fun h => (mem_peers_ofRank.mp h).2 rfl] at hq
    rw [if_pos rfl, if_pos rfl, ← hq, Function.update_eq_self]
    exact .refl _
  · rw [if_pos (mem_peers_ofRank.mpr ⟨hr, Ne.symm hpr⟩)] at hq
    rw [if_neg hpr, if_neg hpr]
    exact receiveCount_acts hq

/-- **What the exchange of headers comes to**, whatever the lengths are. -/
theorem converses_exchangeCounts (length : Nat → Nat → Nat) :
    Converses group size
      (fun r => (exchangeCounts (Seat.ofRank r size) tag (length r)).outcome)
      (counted size length) := by
  have hround := converses_round group size tag (fun r => (Seat.ofRank r size).peers)
    (fun r p => headerBytes (length r p))
    (fun r p => if p = r then .finish (.ok 0) else receiveCount tag p)
    (fun r p => if p = r then .ok 0 else announced p (length p r))
    (fun r _ => nodup_peers _)
    (fun r _ p hp => (mem_peers_ofRank.mp hp).1)
    (fun r hr p _ q hq => hearCount_acts group size tag hr hq)
  refine (hround.bind (f := fun r counts => .finish do
    announceable (length r) (Seat.ofRank r size).peers
    counts) (Converses.finish group size _)).of_eq fun r _ => ?_
  exact (Routine.bind_assoc _ _ _).symm

/-! ## 4. The second round -/

/-- The ranks to which rank `r` has a payload that is not empty. -/
def payloadTargets (outgoing : Nat → Nat → Bytes) (r : Nat) : List Nat :=
  (Seat.ofRank r size).peers.filter fun p => !(outgoing r p).isEmpty

theorem mem_payloadTargets {outgoing : Nat → Nat → Bytes} {r p : Nat} :
    p ∈ payloadTargets size outgoing r ↔ p < size ∧ p ≠ r ∧ outgoing r p ≠ [] := by
  simp [payloadTargets, List.mem_filter, mem_peers_ofRank, and_assoc]

/-- A rank takes the payload of a rank whose count it knows, if there is one, and nothing else of
that rank waits then. -/
theorem receivePayload_acts {outgoing : Nat → Nat → Bytes} {r p n : Nat} {q : Queues}
    (hn : p ≠ r → n = (outgoing p r).length)
    (hq : q ⟨group, p, r, tag⟩ =
      if p ≠ r ∧ outgoing p r ≠ [] then [outgoing p r] else []) :
    Acts group r
      (q, if p = r then .finish (.ok (outgoing r p)) else receivePayload tag p n)
      (Function.update q ⟨group, p, r, tag⟩ [], .finish (.ok (outgoing p r))) := by
  by_cases hpr : p = r
  · subst hpr
    rw [if_neg fun h => h.1 rfl] at hq
    rw [if_pos rfl, ← hq, Function.update_eq_self]
    exact .refl _
  · rw [if_neg hpr, hn hpr]
    by_cases hempty : outgoing p r = []
    · rw [if_neg fun h => h.2 hempty] at hq
      rw [← hq, Function.update_eq_self, hempty]
      exact .refl _
    · rw [if_pos ⟨hpr, hempty⟩] at hq
      have hlen : (outgoing p r).length ≠ 0 := fun h => hempty (List.length_eq_zero_iff.mp h)
      have hacts := Acts.receive hq (readPayload p (outgoing p r).length)
      simp only [receivePayload, if_neg hlen]
      simpa [readPayload] using hacts

/-- The payloads that are not empty reach their targets when each rank knows how many bytes it
is to hear. -/
theorem converses_exchangePayloads (outgoing : Nat → Nat → Bytes) (counts : Nat → List Nat)
    (hcounts : ∀ r < size, ∀ p < size, p ≠ r → (counts r).getD p 0 = (outgoing p r).length) :
    Converses group size
      (fun r => (exchangePayloads (Seat.ofRank r size) tag (outgoing r) (counts r)).outcome)
      (fun r => .ok ((List.range size).map fun p => outgoing p r)) := by
  have hround := converses_round group size tag (payloadTargets size outgoing) outgoing
    (fun r p =>
      if p = r then .finish (.ok (outgoing r p))
      else receivePayload tag p ((counts r).getD p 0))
    (fun r p => .ok (outgoing p r))
    (fun r _ => (nodup_peers _).filter _)
    (fun r _ p hp => ((mem_payloadTargets size).mp hp).1) ?_
  · exact hround.congr (fun r _ => rfl) fun r _ => (mapM_ok fun _ _ => rfl).symm
  · intro r hr p hp q hq
    refine receivePayload_acts group tag (hcounts r hr p hp) (hq.trans ?_)
    simp only [mem_payloadTargets, hr, true_and, ne_comm]

/-! ## 5. Exchanges -/

/-- **An exchange of payloads that can all be announced.**  Rank `r` obtains, in rank order,
what each rank has for it. -/
theorem converses_exchange (outgoing : Nat → Nat → Bytes)
    (short : ∀ r < size, ∀ p < size, p ≠ r → (outgoing p r).length ≤ longestPayload) :
    Converses group size (fun r => (exchange (Seat.ofRank r size) tag (outgoing r)).outcome)
      (fun r => .ok ((List.range size).map fun p => outgoing p r)) := by
  have hcounts : Converses group size
      (fun r => (exchangeCounts (Seat.ofRank r size) tag fun p => (outgoing r p).length).outcome)
      (fun r => .ok ((List.range size).map fun p =>
        if p = r then 0 else (outgoing p r).length)) := by
    refine (converses_exchangeCounts group size tag fun r p => (outgoing r p).length).congr
      (fun r _ => rfl) fun r hr => Eq.symm ?_
    exact counted_eq_ok (fun p hp hpr => short p hp r hr (Ne.symm hpr))
      fun p hp hpr => short r hr p hp hpr
  refine Converses.bind_ok hcounts
    (converses_exchangePayloads group size tag.payload outgoing _ fun r hr p hp hpr => ?_)
  simp [List.getD, hp, hpr]

/-- Every rank obtains the buffers of all ranks. -/
theorem converses_allGather (buffer : Nat → Bytes)
    (short : ∀ r < size, (buffer r).length ≤ longestPayload) :
    Converses group size (fun r => (allGather (Seat.ofRank r size) tag (buffer r)).outcome)
      (fun _ => .ok ((List.range size).map buffer)) :=
  converses_exchange group size tag (fun r _ => buffer r) fun _ _ p hp _ => short p hp

/-- An exchange depends on nothing but what the rank has for the ranks of its group. -/
theorem exchange_congr {me : Seat} {outgoing outgoing' : Nat → Bytes}
    (h : ∀ p < me.size, outgoing p = outgoing' p) :
    exchange me tag outgoing = exchange me tag outgoing' := by
  have hpeers : ∀ p ∈ me.peers, outgoing p = outgoing' p :=
    fun p hp => h p (Seat.mem_peers.mp hp).1
  have hcounts : exchangeCounts me tag (fun p => (outgoing p).length) =
      exchangeCounts me tag fun p => (outgoing' p).length := by
    rw [exchangeCounts, exchangeCounts, announceable_congr fun p hp => by rw [hpeers p hp],
      sendEach_congr fun p hp => by rw [hpeers p hp]]
  have htargets : (me.peers.filter fun p => !(outgoing p).isEmpty) =
      me.peers.filter fun p => !(outgoing' p).isEmpty :=
    List.filter_congr fun p hp => by rw [hpeers p hp]
  have hpayloads (counts : List Nat) : exchangePayloads me tag.payload outgoing counts =
      exchangePayloads me tag.payload outgoing' counts := by
    rw [exchangePayloads, exchangePayloads, htargets,
      sendEach_congr fun p hp => hpeers p (List.mem_filter.mp hp).1,
      forEach_congr fun p hp => by rw [h p (List.mem_range.mp hp)]]
  simp only [exchange, hcounts, hpayloads]

/-- With one buffer for each rank there is nothing to refuse. -/
theorem allToAll_ofRank (buffer : Nat → Bytes) {r : Nat} :
    allToAll (Seat.ofRank r size) tag ((List.range size).map buffer) =
      exchange (Seat.ofRank r size) tag buffer := by
  rw [allToAll, if_pos (by simp [Seat.ofRank])]
  refine exchange_congr tag fun p hp => ?_
  have hp : p < size := hp
  simp [List.getD, hp]

/-- Every rank obtains the buffers that all ranks have for it. -/
theorem converses_allToAll (buffers : Nat → Nat → Bytes)
    (short : ∀ r < size, ∀ p < size, p ≠ r → (buffers p r).length ≤ longestPayload) :
    Converses group size
      (fun r => (allToAll (Seat.ofRank r size) tag ((List.range size).map (buffers r))).outcome)
      (fun r => .ok ((List.range size).map fun p => buffers p r)) := by
  simp only [allToAll_ofRank]
  exact converses_exchange group size tag buffers short

/-- A barrier succeeds on every rank. -/
theorem converses_barrier :
    Converses group size (fun r => (barrier (Seat.ofRank r size) tag).outcome)
      (fun _ => .ok ()) :=
  Converses.bind_ok (converses_allGather group size tag (fun _ => []) fun _ _ => Nat.zero_le _)
    (Converses.finish group size _)

end Rounds

end ShardedVector.Collective
