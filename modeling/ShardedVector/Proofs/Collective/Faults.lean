/-
# Exchanges with faulty messages

What one rank makes of an exchange when its peers send anything: nothing at all, messages of another
length, the reserved header.

* `sendFault`, `headerFault` and `payloadFault` say what is wrong with an own buffer and with what a
  peer sent.  They look at one message each, and know nothing of the exchange.
* `FirstFault ps fault p found`: among the ranks `ps`, taken in order, `p` is the first one with a
  fault.  `Searches` says of an outcome that it is a refusal for the first fault, and a value when
  there is none; so it is whenever the ranks are taken one by one (`searches_mapM`,
  `searches_judgeAll`).
* `against_exchange`: the exchange succeeds exactly when nothing is wrong anywhere, and then has the
  buffers that were delivered; otherwise it names the first fault, that of an own buffer before that
  of a header, and that of a header before that of a payload.  What the rank sends depends on the
  first two only.
-/
import Mathlib.Algebra.Group.Nat.Defs
import ShardedVector.Proofs.Collective.Exchange
import ShardedVector.Proofs.Ensemble.Answers

namespace ShardedVector.Collective

/-! ## 1. What is wrong with a message -/

/-- An own buffer that no header can announce. -/
def sendFault (buffer : Bytes) : Option MessageFault :=
  if buffer.length < 2 ^ 32 - 1 then none else some (.unannounceable buffer.length)

/-- The reserved header. -/
def reserved : Bytes := [0xff, 0xff, 0xff, 0xff]

/-- A header that announces `n` bytes: four bytes, the least significant one first, and not the
reserved ones. -/
def Announces (answer : Option Bytes) (n : Nat) : Prop :=
  ∃ bytes, answer = some bytes ∧ bytes.length = 4 ∧ bytes ≠ reserved ∧ LittleEndian.decode bytes = n

/-- The number that a header stands for. -/
def announcement (answer : Option Bytes) : Nat := LittleEndian.decode (answer.getD [])

/-- What keeps an answer from being a header that announces a payload. -/
def headerFault : Option Bytes → Option MessageFault
  | none => some .noSize
  | some bytes =>
    if bytes.length = 4 then if bytes = reserved then some .oversized else none
    else some (.length 4 bytes.length)

/-- What keeps an answer from being a payload of `n` bytes; without bytes there is none to wait
for. -/
def payloadFault (n : Nat) : Option Bytes → Option MessageFault
  | none => if n = 0 then none else some .noPayload
  | some bytes =>
    if n = 0 ∨ bytes.length = n then none else some (.payload n bytes.length)

/-- The payload of `n` bytes that was delivered. -/
def delivered (n : Nat) (answer : Option Bytes) : Bytes := if n = 0 then [] else answer.getD []

theorem sendFault_eq_none_iff {buffer : Bytes} :
    sendFault buffer = none ↔ buffer.length < 2 ^ 32 - 1 := by
  simp [sendFault]

theorem announces_iff {answer : Option Bytes} {n : Nat} :
    Announces answer n ↔ headerFault answer = none ∧ announcement answer = n := by
  cases answer with
  | none => simp [Announces, headerFault]
  | some bytes =>
    have hfault : headerFault (some bytes) = none ↔ bytes.length = 4 ∧ bytes ≠ reserved := by
      rw [headerFault]
      split
      · next hlen =>
        rw [hlen]
        split <;> simp [*]
      · next hlen => simp [hlen]
    rw [hfault]
    simp [Announces, announcement, and_assoc]

theorem payloadFault_eq_none_iff {n : Nat} {answer : Option Bytes} :
    payloadFault n answer = none ↔ (0 < n → ∃ bytes, answer = some bytes ∧ bytes.length = n) := by
  rcases Nat.eq_zero_or_pos n with rfl | hpos
  · cases answer <;> simp [payloadFault]
  · have hne : n ≠ 0 := Nat.ne_of_gt hpos
    cases answer <;> simp [payloadFault, hpos, hne]

/-! ## 2. What a rank makes of a message -/

theorem forPeer_eq (peer n : Nat) :
    Count.forPeer peer n =
      if n < 2 ^ 32 - 1 then .ok ⟨UInt32.ofNat n⟩
      else .error (.communication peer (.unannounceable n)) := by
  have hlongest : n ≤ longestPayload ↔ n < 2 ^ 32 - 1 := by
    rw [longestPayload]
    omega
  by_cases h : n < 2 ^ 32 - 1 <;>
    simp only [Count.forPeer, Count.ofNat?, hlongest, h, if_true, if_false]

/-- The four bytes of the reserved header are the only ones that are read as it. -/
theorem decode_eq_oversized_iff {bytes : Bytes} (hlen : bytes.length = 4) :
    (Record.decode bytes : Count) = Count.oversized ↔ bytes = reserved := by
  have hback : Record.encode (Record.decode bytes : Count) = bytes :=
    Record.encode_decode bytes hlen
  have hreserved : (Record.encode Count.oversized : Bytes) = reserved := by decide
  constructor
  · intro h
    rw [← hback, h, hreserved]
  · intro h
    rw [h, ← hreserved, Record.decode_encode]

/-- What a header announces is short enough to be announced. -/
theorem Announces.le_longestPayload {answer : Option Bytes} {n : Nat} (h : Announces answer n) :
    n ≤ longestPayload := by
  obtain ⟨bytes, -, hlen, hne, rfl⟩ := h
  have hlt : LittleEndian.decode bytes < 2 ^ 32 := by
    have hdecode := LittleEndian.decode_lt bytes
    rwa [hlen] at hdecode
  have hword : LittleEndian.decode bytes ≠ 2 ^ 32 - 1 := by
    intro heq
    refine hne ((decode_eq_oversized_iff hlen).mp ?_)
    change (⟨UInt32.ofNat (LittleEndian.decode bytes)⟩ : Count) = Count.oversized
    rw [heq]
    rfl
  rw [longestPayload]
  omega

/-- A value that is taken over from a peer unless something is wrong. -/
def judged {α : Type} (peer : Nat) (fault : Option MessageFault) (value : α) : Except Error α :=
  match fault with
  | some found => .error (.communication peer found)
  | none => .ok value

@[simp] theorem judged_none {α : Type} (peer : Nat) (value : α) :
    judged peer none value = .ok value := rfl

@[simp] theorem judged_some {α : Type} (peer : Nat) (found : MessageFault) (value : α) :
    judged peer (some found) value = .error (.communication peer found) := rfl

theorem readCount_eq (peer : Nat) (answer : Option Bytes) :
    readCount peer answer = judged peer (headerFault answer) (announcement answer) := by
  have hwidth : Record.width Count = 4 := rfl
  cases answer with
  | none => rfl
  | some bytes =>
    simp only [readCount, Wire.decodeOne, Wire.expectLength, headerFault, hwidth]
    by_cases hlen : bytes.length = 4
    · -- four bytes are read as a word, and no other four bytes as the reserved one
      have hword : (Record.decode bytes : Count).word.toNat = LittleEndian.decode bytes := by
        have hlt := LittleEndian.decode_lt bytes
        rw [hlen] at hlt
        exact UInt32.toNat_ofNat_of_lt' hlt
      simp only [if_pos hlen, Count.get?, decode_eq_oversized_iff hlen, hword]
      by_cases hreserved : bytes = reserved
      · simp only [if_pos hreserved, judged_some]
      · simp only [if_neg hreserved, judged_none]
        rfl
    · simp only [if_neg hlen, judged_some]

theorem against_receivePayload (tag : Tag) (peer n : Nat) (heard : Nat → Tag → Option Bytes) :
    (receivePayload tag peer n).against heard =
      ⟨judged peer (payloadFault n (heard peer tag)) (delivered n (heard peer tag)), [], []⟩ := by
  by_cases hzero : n = 0
  · subst hzero
    cases heard peer tag <;> simp [receivePayload, payloadFault, delivered]
  · rw [receivePayload, if_neg hzero, Routine.against]
    cases heard peer tag with
    | none => simp [readPayload, payloadFault, hzero]
    | some bytes =>
      simp only [readPayload, payloadFault, delivered, hzero, false_or, if_false]
      by_cases hlen : bytes.length = n <;> simp [hlen]

/-! ## 3. The first fault -/

/-- Among ranks that are taken in ascending order, the first one with a fault. -/
structure FirstFault (ps : List Nat) (fault : Nat → Option MessageFault) (p : Nat)
    (found : MessageFault) : Prop where
  mem : p ∈ ps
  fails : fault p = some found
  lowest : ∀ q ∈ ps, q < p → fault q = none

section FirstFault

variable {fault : Nat → Option MessageFault} {p : Nat} {ps : List Nat} {found : MessageFault}

theorem firstFault_cons_of_some {f : MessageFault} (hps : (p :: ps).Pairwise (· < ·))
    (hp : fault p = some f) {q : Nat} : FirstFault (p :: ps) fault q found ↔ q = p ∧ found = f := by
  obtain ⟨hbelow, -⟩ := List.pairwise_cons.mp hps
  constructor
  · rintro ⟨hmem, hq, hfirst⟩
    rcases List.mem_cons.mp hmem with rfl | hmem
    · exact ⟨rfl, Option.some.inj (hq.symm.trans hp)⟩
    · have hnone := hfirst p List.mem_cons_self (hbelow q hmem)
      rw [hp] at hnone
      cases hnone
  · rintro ⟨rfl, rfl⟩
    refine ⟨List.mem_cons_self, hp, fun r hr hlt => ?_⟩
    rcases List.mem_cons.mp hr with rfl | hr
    · exact absurd hlt (Nat.lt_irrefl _)
    · exact absurd hlt (Nat.lt_asymm (hbelow r hr))

theorem firstFault_cons_of_none (hp : fault p = none) {q : Nat} :
    FirstFault (p :: ps) fault q found ↔ FirstFault ps fault q found := by
  constructor
  · rintro ⟨hmem, hq, hfirst⟩
    rcases List.mem_cons.mp hmem with rfl | hmem
    · rw [hp] at hq
      cases hq
    · exact ⟨hmem, hq, fun r hr => hfirst r (List.mem_cons_of_mem p hr)⟩
  · rintro ⟨hmem, hq, hfirst⟩
    refine ⟨List.mem_cons_of_mem p hmem, hq, fun r hr hlt => ?_⟩
    rcases List.mem_cons.mp hr with rfl | hr
    · exact hp
    · exact hfirst r hr hlt

/-- What a search through ranks comes to: a value when nothing is wrong, and otherwise a refusal for
the first fault. -/
def Searches {α : Type} (ps : List Nat) (fault : Nat → Option MessageFault)
    (outcome : Except Error α) (value : α) : Prop :=
  ((∀ p ∈ ps, fault p = none) ∧ outcome = .ok value) ∨
    ∃ p found, FirstFault ps fault p found ∧ outcome = .error (.communication p found)

theorem FirstFault.congr {fault' : Nat → Option MessageFault} (h : FirstFault ps fault p found)
    (heq : ∀ p ∈ ps, fault p = fault' p) : FirstFault ps fault' p found where
  mem := h.mem
  fails := (heq p h.mem).symm.trans h.fails
  lowest := fun q hq hlt => (heq q hq).symm.trans (h.lowest q hq hlt)

theorem Searches.congr {α : Type} {fault' : Nat → Option MessageFault}
    {outcome : Except Error α} {value : α} (h : Searches ps fault outcome value)
    (heq : ∀ p ∈ ps, fault p = fault' p) : Searches ps fault' outcome value := by
  rcases h with ⟨hnone, hok⟩ | ⟨p, found, hfirst, herror⟩
  · exact .inl ⟨fun p hp => (heq p hp).symm.trans (hnone p hp), hok⟩
  · exact .inr ⟨p, found, hfirst.congr heq, herror⟩

/-- A rank with which nothing is wrong is no part of the search. -/
theorem Searches.peers {α : Type} {me : Seat} {outcome : Except Error α} {value : α}
    (h : Searches me.ranks fault outcome value) (hown : fault me.rank = none) :
    Searches me.peers fault outcome value := by
  have hpeers : ∀ p, p ∈ me.peers ↔ p ∈ me.ranks ∧ p ≠ me.rank := by simp [Seat.peers]
  rcases h with ⟨hnone, hok⟩ | ⟨p, found, ⟨hmem, hfails, hlowest⟩, herror⟩
  · exact .inl ⟨fun p hp => hnone p ((hpeers p).mp hp).1, hok⟩
  · have hne : p ≠ me.rank := by
      rintro rfl
      cases hown.symm.trans hfails
    refine .inr ⟨p, found, ⟨(hpeers p).mpr ⟨hmem, hne⟩, hfails, fun q hq hlt => ?_⟩, herror⟩
    exact hlowest q ((hpeers q).mp hq).1 hlt

theorem Searches.cons_of_some {α : Type} (hps : (p :: ps).Pairwise (· < ·))
    (hp : fault p = some found) (value : α) :
    Searches (p :: ps) fault (.error (.communication p found)) value :=
  .inr ⟨p, found, (firstFault_cons_of_some hps hp).mpr ⟨rfl, rfl⟩, rfl⟩

theorem Searches.cons_of_none {α β : Type} {outcome : Except Error α} {value : α}
    (hp : fault p = none) (h : Searches ps fault outcome value) (f : α → β) :
    Searches (p :: ps) fault (f <$> outcome) (f value) := by
  rcases h with ⟨hnone, rfl⟩ | ⟨q, found, hq, rfl⟩
  · exact .inl ⟨List.forall_mem_cons.mpr ⟨hp, hnone⟩, rfl⟩
  · exact .inr ⟨q, found, (firstFault_cons_of_none hp).mpr hq, rfl⟩

/-- Values that are taken over from one rank after the other. -/
theorem searches_mapM {α : Type} (fault : Nat → Option MessageFault) (value : Nat → α) :
    ∀ {ps : List Nat}, ps.Pairwise (· < ·) →
      Searches ps fault (ps.mapM fun p => judged p (fault p) (value p)) (ps.map value)
  | [], _ => .inl ⟨nofun, rfl⟩
  | p :: ps, hps => by
    have ih := searches_mapM fault value (List.pairwise_cons.mp hps).2
    rw [List.mapM_cons]
    cases hp : fault p with
    | some found => exact .cons_of_some hps hp _
    | none =>
      have hcons := Searches.cons_of_none hp ih fun rest => value p :: rest
      rw [judged_none, List.map_cons]
      cases hrest : ps.mapM fun p => judged p (fault p) (value p) <;> rwa [hrest] at hcons

/-- A check of one rank after the other. -/
def judgeAll (fault : Nat → Option MessageFault) : List Nat → Except Error Unit
  | [] => .ok ()
  | p :: ps =>
    match fault p with
    | some found => .error (.communication p found)
    | none => judgeAll fault ps

theorem judgeAll_cons_of_some (hp : fault p = some found) :
    judgeAll fault (p :: ps) = .error (.communication p found) := by
  rw [judgeAll, hp]

theorem judgeAll_cons_of_none (hp : fault p = none) :
    judgeAll fault (p :: ps) = judgeAll fault ps := by
  rw [judgeAll, hp]

theorem searches_judgeAll (fault : Nat → Option MessageFault) :
    ∀ {ps : List Nat}, ps.Pairwise (· < ·) → Searches ps fault (judgeAll fault ps) ()
  | [], _ => .inl ⟨nofun, rfl⟩
  | p :: ps, hps => by
    have ih := searches_judgeAll fault (List.pairwise_cons.mp hps).2
    cases hp : fault p with
    | some found =>
      rw [judgeAll_cons_of_some hp]
      exact .cons_of_some hps hp ()
    | none =>
      have hcons := Searches.cons_of_none hp ih id
      rw [judgeAll_cons_of_none hp]
      rwa [id_map] at hcons

/-- The check of the own buffers is one of this kind. -/
theorem announceable_eq_judgeAll (outgoing : Nat → Bytes) :
    ∀ ps : List Nat, announceable (fun p => (outgoing p).length) ps =
      judgeAll (fun p => sendFault (outgoing p)) ps
  | [] => rfl
  | p :: ps => by
    rw [announceable, judgeAll, announceable_eq_judgeAll outgoing ps, forPeer_eq, sendFault]
    by_cases hlen : (outgoing p).length < 2 ^ 32 - 1
    · simp only [if_pos hlen]
    · simp only [if_neg hlen]

end FirstFault

/-! ## 4. The two rounds -/

section Rounds

variable (heard : Nat → Tag → Option Bytes) (me : Seat) (tag : Tag)

theorem against_sendEach (message : Nat → Bytes) :
    ∀ ps : List Nat, (sendEach tag message ps).against heard =
      ⟨(), ps.map fun p => ⟨p, tag, message p⟩, []⟩
  | [] => rfl
  | p :: ps => by
    rw [sendEach, Routine.against, against_sendEach message ps]
    rfl

/-- Ranks that are heard one by one, each with its own outcome. -/
theorem against_forEach {α : Type} {routine : Nat → Routine (Except Error α)}
    {outcome : Nat → Except Error α}
    (h : ∀ p, (routine p).against heard = ⟨outcome p, [], []⟩) :
    ∀ ps : List Nat, (forEach routine ps).against heard = ⟨ps.mapM outcome, [], []⟩
  | [] => rfl
  | p :: ps => by
    rw [forEach, Routine.against_bind, h p, Routine.against_bind, against_forEach h ps,
      List.mapM_cons]
    cases outcome p <;> cases ps.mapM outcome <;> rfl

theorem pairwise_ranks : me.ranks.Pairwise (· < ·) := List.pairwise_lt_range

theorem pairwise_peers : me.peers.Pairwise (· < ·) := (pairwise_ranks me).filter _

/-- What a rank makes of its peers, with a value of its own that nothing is wrong with. -/
theorem searches_peers {α : Type} (fault : Nat → Option MessageFault) (own : α) (value : Nat → α) :
    Searches me.peers fault
      (me.ranks.mapM fun p => if p = me.rank then .ok own else judged p (fault p) (value p))
      (me.ranks.map fun p => if p = me.rank then own else value p) := by
  have hranks := searches_mapM (fun p => if p = me.rank then none else fault p)
    (fun p => if p = me.rank then own else value p) (pairwise_ranks me)
  -- the own rank is searched too, but nothing is wrong with it
  have hown : (fun p => judged p (if p = me.rank then none else fault p)
      (if p = me.rank then own else value p)) = fun p =>
      if p = me.rank then .ok own else judged p (fault p) (value p) := by
    funext p
    by_cases hp : p = me.rank
    · simp only [hp, if_true, judged]
    · simp only [hp, if_false]
  rw [hown] at hranks
  refine (hranks.peers (if_pos rfl)).congr fun p hp => ?_
  rw [if_neg (Seat.mem_peers.mp hp).2]

/-- The headers that a rank sends. -/
def sentHeaders (outgoing : Nat → Bytes) : List Letter :=
  me.peers.map fun p => ⟨p, tag, headerBytes (outgoing p).length⟩

/-- The payloads that a rank sends, on the next tag. -/
def sentPayloads (outgoing : Nat → Bytes) : List Letter :=
  (me.peers.filter fun p => !(outgoing p).isEmpty).map fun p => ⟨p, tag.payload, outgoing p⟩

/-- What the headers come to: the own buffers are checked first, then the headers of the peers. -/
def heardCounts (outgoing : Nat → Bytes) : Except Error (List Nat) := do
  announceable (fun p => (outgoing p).length) me.peers
  me.ranks.mapM fun p => if p = me.rank then .ok 0 else readCount p (heard p tag)

/-- What the peers announced, and nothing for the rank itself. -/
def announcements : List Nat :=
  me.ranks.map fun p => if p = me.rank then 0 else announcement (heard p tag)

/-- What the payloads come to when each peer has announced so much. -/
def heardPayloads (outgoing : Nat → Bytes) (counts : List Nat) : Except Error (List Bytes) :=
  me.ranks.mapM fun p =>
    if p = me.rank then .ok (outgoing me.rank)
    else judged p (payloadFault (counts.getD p 0) (heard p tag))
      (delivered (counts.getD p 0) (heard p tag))

/-- **Every peer is sent a header**, whatever is wrong. -/
theorem against_exchangeCounts (outgoing : Nat → Bytes) :
    (exchangeCounts me tag fun p => (outgoing p).length).against heard =
      ⟨heardCounts heard me tag outgoing, sentHeaders me tag outgoing, []⟩ := by
  have hreceive : ∀ p, (if p = me.rank then .finish (.ok 0) else receiveCount tag p :
      Routine (Except Error Nat)).against heard =
      ⟨if p = me.rank then .ok 0 else readCount p (heard p tag), [], []⟩ := by
    intro p
    split <;> rfl
  change Routine.against heard (_ >>= _) = _
  rw [Routine.against_bind, against_sendEach, Routine.against_bind,
    against_forEach heard hreceive]
  simp [Rehearsal.followedBy, sentHeaders, heardCounts]

/-- **Every peer is sent its payload**, unless it is empty. -/
theorem against_exchangePayloads (outgoing : Nat → Bytes) (counts : List Nat) :
    (exchangePayloads me tag.payload outgoing counts).against heard =
      ⟨heardPayloads heard me tag.payload outgoing counts, sentPayloads me tag outgoing, []⟩ := by
  have hreceive : ∀ p, (if p = me.rank then .finish (.ok (outgoing p))
      else receivePayload tag.payload p (counts.getD p 0) :
      Routine (Except Error Bytes)).against heard =
      ⟨if p = me.rank then .ok (outgoing me.rank)
        else judged p (payloadFault (counts.getD p 0) (heard p tag.payload))
          (delivered (counts.getD p 0) (heard p tag.payload)), [], []⟩ := by
    intro p
    by_cases hp : p = me.rank
    · simp only [hp, if_true, Routine.against_finish]
    · simp only [hp, if_false, against_receivePayload]
  change Routine.against heard (_ >>= _) = _
  rw [Routine.against_bind, against_sendEach, against_forEach heard hreceive]
  simp [Rehearsal.followedBy, sentPayloads, heardPayloads]

end Rounds

/-! ## 5. Exchanges -/

section Exchange

variable (me : Seat) (tag : Tag) (outgoing : Nat → Bytes) (heard : Nat → Tag → Option Bytes)

/-- Nothing is wrong with the own buffers and with the headers of the peers. -/
def HeadersPass : Prop :=
  (∀ p ∈ me.peers, (outgoing p).length < 2 ^ 32 - 1) ∧
    ∀ p ∈ me.peers, ∃ n, Announces (heard p tag) n

theorem headersPass_iff : HeadersPass me tag outgoing heard ↔
    (∀ p ∈ me.peers, sendFault (outgoing p) = none) ∧
      ∀ p ∈ me.peers, headerFault (heard p tag) = none := by
  simp [HeadersPass, sendFault_eq_none_iff, announces_iff]

/-- The first fault of the round of headers. -/
def HeadersFail (p : Nat) (found : MessageFault) : Prop :=
  FirstFault me.peers (fun p => sendFault (outgoing p)) p found ∨
    (∀ p ∈ me.peers, sendFault (outgoing p) = none) ∧
      FirstFault me.peers (fun p => headerFault (heard p tag)) p found

/-- What is wrong with the payload of a peer, after what it has announced. -/
def payloadFaultOf (p : Nat) : Option MessageFault :=
  payloadFault (announcement (heard p tag)) (heard p tag.payload)

theorem heardCounts_cases :
    (HeadersPass me tag outgoing heard ∧
      heardCounts heard me tag outgoing = .ok (announcements heard me tag)) ∨
    ∃ p found, HeadersFail me tag outgoing heard p found ∧
      ¬HeadersPass me tag outgoing heard ∧
      heardCounts heard me tag outgoing = .error (.communication p found) := by
  have hread : (fun p => if p = me.rank then .ok 0 else readCount p (heard p tag)) = fun p =>
      if p = me.rank then .ok 0
      else judged p (headerFault (heard p tag)) (announcement (heard p tag)) := by
    funext p
    rw [readCount_eq]
  rw [headersPass_iff, heardCounts, hread]
  rw [announceable_eq_judgeAll]
  rcases searches_judgeAll (fun p => sendFault (outgoing p)) (pairwise_peers me) with
    ⟨hsend, hok⟩ | ⟨p, found, hfirst, herror⟩
  · rw [hok]
    rcases searches_peers me (fun p => headerFault (heard p tag)) 0
      (fun p => announcement (heard p tag)) with ⟨hheader, hok⟩ | ⟨p, found, hfirst, herror⟩
    · exact .inl ⟨⟨hsend, hheader⟩, hok⟩
    · refine .inr ⟨p, found, .inr ⟨hsend, hfirst⟩, fun hpass => ?_, herror⟩
      have hnone := hpass.2 p hfirst.mem
      rw [hfirst.fails] at hnone
      cases hnone
  · rw [herror]
    refine .inr ⟨p, found, .inl hfirst, fun hpass => ?_, rfl⟩
    have hnone := hpass.1 p hfirst.mem
    rw [hfirst.fails] at hnone
    cases hnone

/-- The own buffer, and what the peers delivered. -/
def received : List Bytes :=
  me.ranks.map fun p =>
    if p = me.rank then outgoing me.rank
    else delivered (announcement (heard p tag)) (heard p tag.payload)

theorem getD_announcements {p : Nat} (hp : p ∈ me.peers) :
    (announcements heard me tag).getD p 0 = announcement (heard p tag) := by
  obtain ⟨hlt, hne⟩ := Seat.mem_peers.mp hp
  simp [announcements, List.getD, Seat.ranks, hlt, hne]

theorem searches_heardPayloads :
    Searches me.peers (payloadFaultOf tag heard)
      (heardPayloads heard me tag.payload outgoing (announcements heard me tag))
      (received me tag outgoing heard) := by
  have hcount : ∀ p ∈ me.ranks, p ≠ me.rank →
      (announcements heard me tag).getD p 0 = announcement (heard p tag) := fun p hp hne =>
    getD_announcements me tag heard (Seat.mem_peers.mpr ⟨List.mem_range.mp hp, hne⟩)
  have hsearch := searches_peers me
    (fun p => payloadFault ((announcements heard me tag).getD p 0) (heard p tag.payload))
    (outgoing me.rank)
    (fun p => delivered ((announcements heard me tag).getD p 0) (heard p tag.payload))
  have hvalues : (me.ranks.map fun p => if p = me.rank then outgoing me.rank
      else delivered ((announcements heard me tag).getD p 0) (heard p tag.payload)) =
      received me tag outgoing heard := by
    refine List.map_congr_left fun p hp => ?_
    split
    · rfl
    · next hne => rw [hcount p hp hne]
  have hfaults : ∀ p ∈ me.peers,
      payloadFault ((announcements heard me tag).getD p 0) (heard p tag.payload) =
        payloadFaultOf tag heard p := by
    intro p hp
    rw [getD_announcements me tag heard hp, payloadFaultOf]
  rw [hvalues] at hsearch
  exact hsearch.congr hfaults

/-- **Every announced payload was delivered** in its announced length. -/
def PayloadsPass : Prop :=
  ∀ p ∈ me.peers, ∀ n, Announces (heard p tag) n → 0 < n →
    ∃ bytes, heard p tag.payload = some bytes ∧ bytes.length = n

theorem payloadsPass_iff (hpass : HeadersPass me tag outgoing heard) :
    PayloadsPass me tag heard ↔ ∀ p ∈ me.peers, payloadFaultOf tag heard p = none := by
  constructor
  · intro h p hp
    obtain ⟨n, hn⟩ := hpass.2 p hp
    have hcount : announcement (heard p tag) = n := (announces_iff.mp hn).2
    rw [payloadFaultOf, hcount, payloadFault_eq_none_iff]
    exact h p hp n hn
  · intro h p hp n hn hpos
    have hcount : announcement (heard p tag) = n := (announces_iff.mp hn).2
    have hnone := h p hp
    rw [payloadFaultOf, hcount, payloadFault_eq_none_iff] at hnone
    exact hnone hpos

theorem length_received : (received me tag outgoing heard).length = me.size := by
  simp [received, Seat.ranks]

theorem received_self (hme : me.rank < me.size) :
    (received me tag outgoing heard)[me.rank]? = some (outgoing me.rank) := by
  simp [received, Seat.ranks, hme]

/-- What is received from a peer that announced `n` bytes and delivered them. -/
theorem received_peer (hpayloads : PayloadsPass me tag heard) {p n : Nat} (hp : p ∈ me.peers)
    (hn : Announces (heard p tag) n) :
    (received me tag outgoing heard)[p]? = if n = 0 then some [] else heard p tag.payload := by
  obtain ⟨hlt, hne⟩ := Seat.mem_peers.mp hp
  have hcount : announcement (heard p tag) = n := (announces_iff.mp hn).2
  have hvalue : (received me tag outgoing heard)[p]? =
      some (delivered n (heard p tag.payload)) := by
    simp [received, Seat.ranks, hlt, hne, hcount]
  rw [hvalue, delivered]
  split
  · rfl
  · next hzero =>
    obtain ⟨bytes, hbytes, -⟩ := hpayloads p hp n hn (Nat.pos_of_ne_zero hzero)
    rw [hbytes, Option.getD_some]

/-- **The three ways in which an exchange can go.** -/
theorem against_exchange_cases :
    (HeadersPass me tag outgoing heard ∧ (∀ p ∈ me.peers, payloadFaultOf tag heard p = none) ∧
      (exchange me tag outgoing).against heard =
        ⟨.ok (received me tag outgoing heard),
          sentHeaders me tag outgoing ++ sentPayloads me tag outgoing, []⟩) ∨
    (∃ p found, HeadersPass me tag outgoing heard ∧
      FirstFault me.peers (payloadFaultOf tag heard) p found ∧
      (exchange me tag outgoing).against heard =
        ⟨.error (.communication p found),
          sentHeaders me tag outgoing ++ sentPayloads me tag outgoing, []⟩) ∨
    ∃ p found, HeadersFail me tag outgoing heard p found ∧ ¬HeadersPass me tag outgoing heard ∧
      (exchange me tag outgoing).against heard =
        ⟨.error (.communication p found), sentHeaders me tag outgoing, []⟩ := by
  have hcounts := against_exchangeCounts heard me tag outgoing
  rcases heardCounts_cases me tag outgoing heard with
    ⟨hpass, hok⟩ | ⟨p, found, hfail, hnot, herror⟩
  · have hvalue : ((exchangeCounts me tag fun p => (outgoing p).length).against heard).value =
        .ok (announcements heard me tag) := by
      rw [hcounts]
      exact hok
    have hexchange : (exchange me tag outgoing).against heard =
        ⟨heardPayloads heard me tag.payload outgoing (announcements heard me tag),
          sentHeaders me tag outgoing ++ sentPayloads me tag outgoing, []⟩ := by
      rw [exchange, Attempt.against_bind_of_ok hvalue, hcounts,
        against_exchangePayloads heard me tag outgoing]
      rfl
    -- from here on the payloads are all sent, whatever comes
    rw [hexchange]
    rcases searches_heardPayloads me tag outgoing heard with
      ⟨hnone, hok⟩ | ⟨p, found, hfirst, herror⟩
    · exact .inl ⟨hpass, hnone, by rw [hok]⟩
    · exact .inr (.inl ⟨p, found, hpass, hfirst, by rw [herror]⟩)
  · have hvalue : ((exchangeCounts me tag fun p => (outgoing p).length).against heard).value =
        .error (.communication p found) := by
      rw [hcounts]
      exact herror
    refine .inr (.inr ⟨p, found, hfail, hnot, ?_⟩)
    rw [exchange, Attempt.against_bind_of_error hvalue, hcounts]

/-- The counts of a round that goes well are looked up by rank, and there is one for each. -/
theorem length_of_exchangeCounts {counts : List Nat}
    (h : ((exchangeCounts me tag fun p => (outgoing p).length).against heard).value =
      .ok counts) : counts.length = me.size := by
  rw [against_exchangeCounts] at h
  rcases heardCounts_cases me tag outgoing heard with ⟨-, hok⟩ | ⟨p, found, -, -, herror⟩
  · cases hok.symm.trans h
    simp [announcements, Seat.ranks]
  · cases herror.symm.trans h

/-- **An exchange succeeds exactly when nothing is wrong.** -/
theorem exists_exchange_ok_iff :
    (∃ buffers, ((exchange me tag outgoing).against heard).value = .ok buffers) ↔
      HeadersPass me tag outgoing heard ∧ PayloadsPass me tag heard := by
  rcases against_exchange_cases me tag outgoing heard with
    ⟨hpass, hnone, hwent⟩ | ⟨p, found, hpass, hfirst, hwent⟩ | ⟨p, found, -, hnot, hwent⟩
  · have hpayloads := (payloadsPass_iff me tag outgoing heard hpass).mpr hnone
    exact iff_of_true ⟨_, congrArg (·.value) hwent⟩ ⟨hpass, hpayloads⟩
  · refine iff_of_false ?_ fun h => ?_
    · rintro ⟨buffers, hbuffers⟩
      cases (congrArg (·.value) hwent).symm.trans hbuffers
    · have hnone := (payloadsPass_iff me tag outgoing heard hpass).mp h.2 p hfirst.mem
      cases hnone.symm.trans hfirst.fails
  · refine iff_of_false ?_ fun h => hnot h.1
    rintro ⟨buffers, hbuffers⟩
    cases (congrArg (·.value) hwent).symm.trans hbuffers

/-- What it brings then. -/
theorem exchange_ok {buffers : List Bytes}
    (h : ((exchange me tag outgoing).against heard).value = .ok buffers) :
    buffers = received me tag outgoing heard := by
  rcases against_exchange_cases me tag outgoing heard with
    ⟨-, -, hwent⟩ | ⟨p, found, -, -, hwent⟩ | ⟨p, found, -, -, hwent⟩ <;>
    cases (congrArg (·.value) hwent).symm.trans h
  rfl

/-- What it is refused for otherwise. -/
theorem exchange_error {e : Error}
    (h : ((exchange me tag outgoing).against heard).value = .error e) :
    ∃ p found, e = .communication p found ∧ (HeadersFail me tag outgoing heard p found ∨
      HeadersPass me tag outgoing heard ∧
        FirstFault me.peers (payloadFaultOf tag heard) p found) := by
  rcases against_exchange_cases me tag outgoing heard with
    ⟨-, -, hwent⟩ | ⟨p, found, hpass, hfirst, hwent⟩ | ⟨p, found, hfail, -, hwent⟩ <;>
    cases (congrArg (·.value) hwent).symm.trans h
  · exact ⟨p, found, rfl, .inr ⟨hpass, hfirst⟩⟩
  · exact ⟨p, found, rfl, .inl hfail⟩

/-- **Only the headers decide what is sent.** -/
theorem sent_exchange :
    (HeadersPass me tag outgoing heard →
      ((exchange me tag outgoing).against heard).sent =
        sentHeaders me tag outgoing ++ sentPayloads me tag outgoing) ∧
    (¬HeadersPass me tag outgoing heard →
      ((exchange me tag outgoing).against heard).sent = sentHeaders me tag outgoing) := by
  rcases against_exchange_cases me tag outgoing heard with
    ⟨hpass, -, hwent⟩ | ⟨p, found, hpass, -, hwent⟩ | ⟨p, found, -, hnot, hwent⟩
  · exact ⟨fun _ => congrArg (·.sent) hwent, fun hnot => absurd hpass hnot⟩
  · exact ⟨fun _ => congrArg (·.sent) hwent, fun hnot => absurd hpass hnot⟩
  · exact ⟨fun hpass => absurd hpass hnot, fun _ => congrArg (·.sent) hwent⟩

/-- **An exchange against any answers.**  A rank of the group comes to an end whatever its peers
send.  It succeeds exactly when every own buffer for a peer can be announced, every peer announces a
payload, and every announced payload of at least one byte is there in its length.

* Then there is a buffer for each rank: the own one in the own place, the payload of a peer that has
  announced one, and nothing for a peer that has announced no byte.
* Otherwise the refusal names the lowest peer whose own buffer cannot be announced; without one the
  lowest peer with a bad header; without one the lowest peer with a bad payload.
* Each peer is sent one header, in rank order, and the payloads follow, without the empty ones, in
  rank order, exactly when nothing was wrong with a header. -/
theorem against_exchange (hme : me.rank < me.size) :
    let went := (exchange me tag outgoing).against heard
    ((∃ buffers, went.value = .ok buffers) ↔
      (∀ p ∈ me.peers, (outgoing p).length < 2 ^ 32 - 1) ∧
        (∀ p ∈ me.peers, ∃ n, Announces (heard p tag) n) ∧
        ∀ p ∈ me.peers, ∀ n, Announces (heard p tag) n → 0 < n →
          ∃ bytes, heard p tag.payload = some bytes ∧ bytes.length = n) ∧
    (∀ buffers, went.value = .ok buffers →
      buffers.length = me.size ∧ buffers[me.rank]? = some (outgoing me.rank) ∧
        ∀ p ∈ me.peers, ∀ n, Announces (heard p tag) n →
          buffers[p]? = if n = 0 then some [] else heard p tag.payload) ∧
    (∀ e, went.value = .error e → ∃ p found, e = .communication p found ∧
      (FirstFault me.peers (fun p => sendFault (outgoing p)) p found ∨
        (∀ p ∈ me.peers, (outgoing p).length < 2 ^ 32 - 1) ∧
          (FirstFault me.peers (fun p => headerFault (heard p tag)) p found ∨
            (∀ p ∈ me.peers, ∃ n, Announces (heard p tag) n) ∧
              FirstFault me.peers
                (fun p => payloadFault (announcement (heard p tag)) (heard p tag.payload))
                p found))) ∧
    (HeadersPass me tag outgoing heard →
      went.sent = sentHeaders me tag outgoing ++ sentPayloads me tag outgoing) ∧
    (¬HeadersPass me tag outgoing heard → went.sent = sentHeaders me tag outgoing) ∧
    ∀ counts, ((exchangeCounts me tag fun p => (outgoing p).length).against heard).value =
      .ok counts → counts.length = me.size := by
  intro went
  obtain ⟨hpass, hnot⟩ := sent_exchange me tag outgoing heard
  have hok := exists_exchange_ok_iff me tag outgoing heard
  refine ⟨hok.trans and_assoc, fun buffers hbuffers => ?_, fun e he => ?_, hpass, hnot,
    fun _ => length_of_exchangeCounts me tag outgoing heard⟩
  · obtain ⟨-, hpayloads⟩ := hok.mp ⟨buffers, hbuffers⟩
    rw [exchange_ok me tag outgoing heard hbuffers]
    exact ⟨length_received me tag outgoing heard, received_self me tag outgoing heard hme,
      fun p hp n hn => received_peer me tag outgoing heard hpayloads hp hn⟩
  · obtain ⟨p, found, rfl, (hsend | ⟨hsends, hheader⟩) | ⟨hpass, hpayload⟩⟩ :=
      exchange_error me tag outgoing heard he
    · exact ⟨p, found, rfl, .inl hsend⟩
    · have hshort := fun q hq => sendFault_eq_none_iff.mp (hsends q hq)
      exact ⟨p, found, rfl, .inr ⟨hshort, .inl hheader⟩⟩
    · exact ⟨p, found, rfl, .inr ⟨hpass.1, .inr ⟨hpass.2, hpayload⟩⟩⟩

/-- The rank in the middle of three hears a header of one byte, and nothing from the last rank. -/
theorem against_exchange_silent :
    (Seat.ofRank 1 3).rank < (Seat.ofRank 1 3).size ∧
      (¬∃ buffers, ((exchange (Seat.ofRank 1 3) Tag.apply fun _ => [7]).against
        fun p _ => if p = 0 then some [1, 0, 0, 0] else none).value = .ok buffers) ∧
      ((exchange (Seat.ofRank 1 3) Tag.apply fun _ => [7]).against
        fun p _ => if p = 0 then some [1, 0, 0, 0] else none).sent =
        [⟨0, Tag.apply, [1, 0, 0, 0]⟩, ⟨2, Tag.apply, [1, 0, 0, 0]⟩] := by
  have hme : (Seat.ofRank 1 3).rank < (Seat.ofRank 1 3).size := by decide
  obtain ⟨hok, -, -, -, hsent, -⟩ := against_exchange (Seat.ofRank 1 3) Tag.apply (fun _ => [7])
    (fun p _ => if p = 0 then some [1, 0, 0, 0] else none) hme
  have hpeer : 2 ∈ (Seat.ofRank 1 3).peers := by decide
  have hsilent : ¬∃ n, Announces (if (2 : Nat) = 0 then some [1, 0, 0, 0] else none) n := by
    simp [Announces]
  refine ⟨hme, fun h => hsilent ((hok.mp h).2.1 2 hpeer), ?_⟩
  rw [hsent fun hpass => hsilent (hpass.2 2 hpeer)]
  decide

end Exchange

end ShardedVector.Collective
