/-
# What a gather to a root comes to

Only the root hears anything in a gather.  The other ranks send a header and, if there is one,
a payload, and are done; so each of them may be far ahead when the root begins to listen
(`advances_gatherTo` says what is on its way then, for buffers of any length).  So a gather comes
to what its root makes of that (`advances_gatherTo_of_root`); when every payload can be announced,
the root obtains all of them (`converses_gatherTo`).
-/
import ShardedVector.Proofs.Collective.Exchange

namespace ShardedVector.Collective

variable {group size root : Nat} {tag : Tag}

/-! ## 1. The ranks that send -/

/-- What the ranks below `k` sent to the root. -/
def sentToRoot (group root : Nat) (tag : Tag) (buffer : Nat → Bytes) (k : Nat) : Queues :=
  fun c =>
    if c.group = group ∧ c.target = root ∧ c.source < k ∧ c.source ≠ root then
      if c.tag = tag then [headerBytes (buffer c.source).length]
      else if c.tag = tag.payload ∧ buffer c.source ≠ [] then [buffer c.source]
      else []
    else []

theorem sentToRoot_zero (buffer : Nat → Bytes) :
    sentToRoot group root tag buffer 0 = Queues.none := by
  funext c
  simp [sentToRoot, Queues.none]

theorem sentToRoot_succ_root (buffer : Nat → Bytes) :
    sentToRoot group root tag buffer (root + 1) = sentToRoot group root tag buffer root := by
  funext c
  have h : c.source < root + 1 ∧ c.source ≠ root ↔ c.source < root ∧ c.source ≠ root := by omega
  simp only [sentToRoot, h]

theorem sentToRoot_succ {buffer : Nat → Bytes} {r : Nat} (hr : r ≠ root) :
    sentToRoot group root tag buffer (r + 1) =
      ((sentToRoot group root tag buffer r).sent group r tag
        (fun _ => headerBytes (buffer r).length) [root]).sent group r tag.payload
        (fun _ => buffer r) (if (buffer r).isEmpty then [] else [root]) := by
  funext ⟨g, s, t, u⟩
  simp only [sentToRoot, Queues.sent]
  by_cases hs : s = r
  · subst hs
    by_cases hc : g = group ∧ t = root
    · obtain ⟨rfl, rfl⟩ := hc
      have hne : tag ≠ tag.payload := (Tag.payload_ne tag).symm
      by_cases hu : u = tag
      · subst hu
        simp [hr, hne]
      · by_cases hb : buffer s = [] <;> simp [hr, hu, hb]
    · have h₁ : ∀ p : Prop, ¬(g = group ∧ p ∧ t = root) := by tauto
      have h₂ : t ∈ (if (buffer s).isEmpty then [] else [root]) → t = root := by
        split <;> simp
      rw [if_neg (by tauto), if_neg (by tauto), if_neg (by simp; tauto), if_neg (by tauto)]
  · have h : s < r + 1 ↔ s < r := by omega
    simp [hs, h]

/-- One header of each rank waits for the root. -/
theorem sentToRoot_header (group size root : Nat) (tag : Tag) (buffer : Nat → Bytes) {p : Nat}
    (hp : p < size) :
    sentToRoot group root tag buffer size ⟨group, p, root, tag⟩ =
      if p = root then [] else [headerBytes (buffer p).length] := by
  by_cases hroot : p = root <;> simp [sentToRoot, hroot, hp]

/-- And the payload of each rank that has one. -/
theorem sentToRoot_payload (group size root : Nat) (tag : Tag) (buffer : Nat → Bytes) {p : Nat}
    (hp : p < size) :
    sentToRoot group root tag buffer size ⟨group, p, root, tag.payload⟩ =
      if p ≠ root ∧ buffer p ≠ [] then [buffer p] else [] := by
  by_cases hroot : p = root <;> simp [sentToRoot, hroot, hp, Tag.payload_ne]

theorem gatherSend_acts (r : Nat) (buffer : Bytes) (q : Queues) :
    Acts group r (q, (gatherSend tag root buffer).outcome)
      ((q.sent group r tag (fun _ => headerBytes buffer.length) [root]).sent group r tag.payload
        (fun _ => buffer) (if buffer.isEmpty then [] else [root]),
        .finish do
          announceable (fun _ => buffer.length) [root]
          return []) := by
  have hheader : Acts group r (q, sendEach tag (fun _ => headerBytes buffer.length) [root])
      (q.sent group r tag (fun _ => headerBytes buffer.length) [root], .finish ()) :=
    sendEach_acts _ (List.nodup_singleton root) q
  refine (hheader.bind_finish _).trans (Acts.bind_finish (sendEach_acts _ ?_ _) _)
  split <;> simp

/-- What a rank that is not the root ends with. -/
def sendOutcome (root : Nat) (buffer : Bytes) : Except Error (List Bytes) := do
  announceable (fun _ => buffer.length) [root]
  return []

/-- **The ranks that send need nobody.**  They end, and what they sent waits for the root behind
everything that waited there before. -/
theorem advances_gatherTo (hroot : root < size) (buffer : Nat → Bytes) (q : Queues) :
    Advances group
      (q, fun r : Fin size => (gatherTo (Seat.ofRank r size) tag root (buffer r)).outcome)
      (q.followedBy (sentToRoot group root tag buffer size), fun r : Fin size =>
        if r.val = root then (gatherReceive (Seat.ofRank root size) tag (buffer root)).outcome
        else .finish (sendOutcome root (buffer r))) := by
  have hin : ¬size ≤ root := by omega
  have hturn : ∀ r < size, Acts group r
      (q.followedBy (sentToRoot group root tag buffer r),
        (gatherTo (Seat.ofRank r size) tag root (buffer r)).outcome)
      (q.followedBy (sentToRoot group root tag buffer (r + 1)),
        if r = root then (gatherReceive (Seat.ofRank root size) tag (buffer root)).outcome
        else .finish (sendOutcome root (buffer r))) := by
    intro r _
    have hgather : gatherTo (Seat.ofRank r size) tag root (buffer r) =
        if r = root then gatherReceive (Seat.ofRank r size) tag (buffer r)
        else gatherSend tag root (buffer r) := if_neg hin
    rw [hgather]
    by_cases hr : r = root
    · subst hr
      rw [sentToRoot_succ_root, if_pos rfl, if_pos rfl]
      exact .refl _
    · rw [sentToRoot_succ hr, ← Queues.sent_followedBy, ← Queues.sent_followedBy, if_neg hr,
        if_neg hr]
      exact gatherSend_acts r (buffer r) _
  have hall := advances_in_turn (fun k => q.followedBy (sentToRoot group root tag buffer k)) _ _
    hturn
  simpa only [sentToRoot_zero, Queues.followedBy_none] using hall

/-! ## 2. The root -/

/-- What the root makes of all headers. -/
def countedOnRoot (size root : Nat) (buffer : Nat → Bytes) : Except Error (List Nat) :=
  (List.range size).mapM fun p => if p = root then .ok 0 else announced p (buffer p).length

theorem countedOnRoot_eq_ok {buffer : Nat → Bytes}
    (short : ∀ p < size, p ≠ root → (buffer p).length ≤ longestPayload) :
    countedOnRoot size root buffer =
      .ok ((List.range size).map fun p => if p = root then 0 else (buffer p).length) := by
  refine mapM_ok fun p hp => ?_
  by_cases hpr : p = root
  · rw [if_pos hpr, if_pos hpr]
  · rw [if_neg hpr, if_neg hpr, announced, if_pos (short p (List.mem_range.mp hp) hpr)]

/-- The headers that wait for the root, read in order. -/
theorem receiveCounts_acts (buffer : Nat → Bytes) {q : Queues}
    (hq : ∀ p < size, q ⟨group, p, root, tag⟩ =
      if p = root then [] else [headerBytes (buffer p).length]) :
    Acts group root
      (q, forEach (fun p => if p = root then .finish (.ok 0) else receiveCount tag p)
        (List.range size))
      (q.heard group root tag (List.range size), .finish (countedOnRoot size root buffer)) := by
  refine forEach_acts _ _ List.nodup_range _ fun p hp q' hq' => ?_
  have hp := hq'.trans (hq p (List.mem_range.mp hp))
  by_cases hroot : p = root
  · rw [if_pos hroot] at hp
    rw [if_pos hroot, if_pos hroot, ← hp, Function.update_eq_self]
    exact .refl _
  · rw [if_neg hroot] at hp
    rw [if_neg hroot, if_neg hroot]
    exact receiveCount_acts hp

/-- What the root makes of the payload of rank `p` when `message p` is the first one that waits. -/
def gathered (root : Nat) (buffer message : Nat → Bytes) (p : Nat) : Except Error Bytes :=
  if p = root then .ok (buffer p)
  else if buffer p = [] then .ok []
  else readGathered p (buffer p).length (some ((message p).take (buffer p).length))

theorem gathered_self (buffer : Nat → Bytes) (p : Nat) :
    gathered root buffer buffer p = .ok (buffer p) := by
  unfold gathered
  split
  · rfl
  · split
    · next hempty => rw [hempty]
    · simp [readGathered]

/-- What the root does to obtain the payload of one rank. -/
def gatherPayload (me : Seat) (tag : Tag) (buffer : Bytes) (counts : List Nat) (p : Nat) :
    Attempt Bytes :=
  if p = me.rank then pure buffer
  else if counts.getD p 0 = 0 then pure []
  else ExceptT.mk (.receive p tag (counts.getD p 0) fun answer =>
    .finish (readGathered p (counts.getD p 0) answer))

theorem gatherPayloads_cons (me : Seat) (buffer : Bytes) (counts : List Nat) (p : Nat)
    (ps : List Nat) :
    gatherPayloads me tag buffer counts (p :: ps) = do
      let payload ← gatherPayload me tag buffer counts p
      let others ← gatherPayloads me tag buffer counts ps
      return payload :: others := by
  rw [gatherPayloads, gatherPayload]
  split
  · rfl
  · split <;> rfl

/-- The root takes one message, if the rank has a payload. -/
theorem gatherPayload_acts {me : Seat} {counts : List Nat} {buffer message : Nat → Bytes}
    {p : Nat} {q : Queues} {rest : List Bytes}
    (hcount : p ≠ me.rank → counts.getD p 0 = (buffer p).length)
    (hq : q ⟨group, p, me.rank, tag⟩ =
      if p ≠ me.rank ∧ buffer p ≠ [] then message p :: rest else rest) :
    Acts group me.rank (q, (gatherPayload me tag (buffer me.rank) counts p).outcome)
      (Function.update q ⟨group, p, me.rank, tag⟩ rest,
        .finish (gathered me.rank buffer message p)) := by
  unfold gatherPayload gathered
  by_cases hme : p = me.rank
  · rw [if_neg fun h => h.1 hme] at hq
    rw [← hq, Function.update_eq_self, if_pos hme, if_pos hme, hme]
    exact .refl _
  · rw [if_neg hme, if_neg hme, hcount hme]
    by_cases hempty : buffer p = []
    · rw [if_neg fun h => h.2 hempty] at hq
      rw [← hq, Function.update_eq_self, hempty]
      exact .refl _
    · rw [if_pos ⟨hme, hempty⟩] at hq
      have hlen : (buffer p).length ≠ 0 := fun h => hempty (List.length_eq_zero_iff.mp h)
      rw [if_neg hlen, if_neg hempty]
      exact (Act.receive q p tag (buffer p).length _ (message p) rest hq).acts

/-- The root takes the payloads in order, and nothing is left of them. -/
theorem gatherPayloads_acts (me : Seat) (counts : List Nat) (buffer : Nat → Bytes) :
    ∀ {ps : List Nat}, ps.Nodup →
      (∀ p ∈ ps, p ≠ me.rank → counts.getD p 0 = (buffer p).length) → ∀ q : Queues,
      (∀ p ∈ ps, q ⟨group, p, me.rank, tag⟩ =
        if p ≠ me.rank ∧ buffer p ≠ [] then [buffer p] else []) →
      Acts group me.rank (q, (gatherPayloads me tag (buffer me.rank) counts ps).outcome)
        (q.heard group me.rank tag ps, .finish (.ok (ps.map buffer)))
  | [], _, _, q, _ => by
    rw [Queues.heard_nil]
    exact .refl _
  | p :: ps, hnd, hcounts, q, hq => by
    obtain ⟨hp, hps⟩ := List.nodup_cons.mp hnd
    have hfirst := gatherPayload_acts (hcounts p (by simp)) (hq p (by simp))
    have hrest := gatherPayloads_acts me counts buffer hps
      (fun p' hp' => hcounts p' (List.mem_cons_of_mem p hp'))
      (Function.update q ⟨group, p, me.rank, tag⟩ []) fun p' hp' => by
        have hne : p' ≠ p := fun e => hp (e ▸ hp')
        rw [Function.update_of_ne (by simp [hne])]
        exact hq p' (List.mem_cons_of_mem p hp')
    rw [gathered_self] at hfirst
    rw [gatherPayloads_cons, Queues.heard_cons]
    exact (hfirst.bind_finish _).trans (hrest.bind_finish _)

/-- The headers and the payloads are all that waits. -/
theorem heard_sentToRoot (buffer : Nat → Bytes) :
    ((sentToRoot group root tag buffer size).heard group root tag (List.range size)).heard
      group root tag.payload (List.range size) = Queues.none := by
  funext address
  obtain ⟨g, s, t, u⟩ := address
  simp only [Queues.heard, sentToRoot, Queues.none, List.mem_range]
  split
  · rfl
  · split
    · rfl
    · next h₁ h₂ =>
      split
      · next h =>
        rw [if_neg (fun hu => h₂ ⟨h.1, h.2.1, hu, h.2.2.1⟩),
          if_neg (fun hu => h₁ ⟨h.1, h.2.1, hu.1, h.2.2.1⟩)]
      · rfl

/-- What the ranks sent is all that the root waits for. -/
theorem gatherReceive_acts (buffer : Nat → Bytes)
    (short : ∀ r < size, r ≠ root → (buffer r).length ≤ longestPayload) :
    Acts group root
      (sentToRoot group root tag buffer size,
        (gatherReceive (Seat.ofRank root size) tag (buffer root)).outcome)
      (Queues.none, .finish (.ok ((List.range size).map buffer))) := by
  let counts := (List.range size).map fun p => if p = root then 0 else (buffer p).length
  have hheaders := receiveCounts_acts buffer fun p hp =>
    sentToRoot_header group size root tag buffer hp
  have hpayloads : Acts group root
      ((sentToRoot group root tag buffer size).heard group root tag (List.range size),
        (gatherPayloads (Seat.ofRank root size) tag.payload (buffer root) counts
          (List.range size)).outcome)
      (((sentToRoot group root tag buffer size).heard group root tag (List.range size)).heard
        group root tag.payload (List.range size),
        .finish (.ok ((List.range size).map buffer))) := by
    refine gatherPayloads_acts (Seat.ofRank root size) counts buffer List.nodup_range ?_ _ ?_
    · intro p hp hpr
      have hp : p < size := List.mem_range.mp hp
      have hpr : p ≠ root := hpr
      simp [counts, List.getD, hp, hpr]
    · intro p hp
      rw [Queues.heard_payload]
      exact sentToRoot_payload group size root tag buffer (List.mem_range.mp hp)
  rw [countedOnRoot_eq_ok short] at hheaders
  rw [heard_sentToRoot] at hpayloads
  exact (hheaders.bind_finish _).trans hpayloads

/-! ## 3. Gathers -/

/-- A gather comes to what its root comes to when everything is sent. -/
theorem advances_gatherTo_of_root (hroot : root < size) {buffer : Nat → Bytes} {q q' : Queues}
    {outcome : Except Error (List Bytes)}
    (h : Acts group root
      (q.followedBy (sentToRoot group root tag buffer size),
        (gatherReceive (Seat.ofRank root size) tag (buffer root)).outcome)
      (q', .finish outcome)) :
    Advances group
      (q, fun r : Fin size => (gatherTo (Seat.ofRank r size) tag root (buffer r)).outcome)
      (q', fun r : Fin size =>
        .finish (if r.val = root then outcome else sendOutcome root (buffer r))) := by
  refine (advances_gatherTo hroot buffer q).trans ?_
  let waiting : Fin size → Routine (Except Error (List Bytes)) := fun r =>
    if r.val = root then (gatherReceive (Seat.ofRank root size) tag (buffer root)).outcome
    else .finish (sendOutcome root (buffer r))
  have hadv : Advances group (q.followedBy (sentToRoot group root tag buffer size), waiting)
      (q', Function.update waiting ⟨root, hroot⟩ (.finish outcome)) :=
    Acts.advances ⟨root, hroot⟩ (by simpa [waiting] using h)
  have hends : Function.update waiting ⟨root, hroot⟩ (.finish outcome) = fun r : Fin size =>
      .finish (if r.val = root then outcome else sendOutcome root (buffer r)) := by
    funext r
    rw [Function.update_apply]
    by_cases hr : r.val = root
    · rw [if_pos (Fin.ext hr), if_pos hr]
    · rw [if_neg fun e => hr (congrArg Fin.val e), if_neg hr]
      exact if_neg hr
  rw [hends] at hadv
  exact hadv

/-- **A gather of payloads that can all be announced.**  The root obtains the buffers of all
ranks in rank order, and the other ranks nothing. -/
theorem converses_gatherTo (group : Nat) (tag : Tag) (hroot : root < size) (buffer : Nat → Bytes)
    (short : ∀ r < size, r ≠ root → (buffer r).length ≤ longestPayload) :
    Converses group size
      (fun r => (gatherTo (Seat.ofRank r size) tag root (buffer r)).outcome)
      (fun r => .ok (if r = root then (List.range size).map buffer else [])) := by
  have hgather : Converses group size
      (fun r => (gatherTo (Seat.ofRank r size) tag root (buffer r)).outcome) fun r =>
        if r = root then .ok ((List.range size).map buffer) else sendOutcome root (buffer r) :=
    advances_gatherTo_of_root hroot (gatherReceive_acts buffer short)
  refine hgather.congr (fun _ _ => rfl) fun r hr => ?_
  by_cases hroot : r = root
  · rw [if_pos hroot, if_pos hroot]
  · rw [if_neg hroot, if_neg hroot, sendOutcome, announceable_of_le fun _ _ => short r hr hroot]
    rfl

end ShardedVector.Collective
