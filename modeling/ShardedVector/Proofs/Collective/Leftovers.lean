/-
# What a gather leaves behind

The root of a gather gives up over the first header that announces nothing it could wait for, and
does not touch the payloads, while the other ranks send theirs in any case.  So a gather that fails
leaves all payloads (`abandoned`), those of the ranks that failed and those of the others.

They lie on the tag of the payloads, where the next gather on the same tag expects its own.  The
root of that one takes the first message that waits, cut to the length that was announced to it
just now: it fails over a message that is too short, and returns any other one as the payload.

* `rests_gatherTo`: what one gather comes to and leaves, for buffers of any length, and what the
  next one on the same tag comes to.
-/
import ShardedVector.Proofs.Collective.Sequence

namespace ShardedVector.Collective

/-! ## 1. Outcomes -/

/-- Some rank has a buffer for the root that cannot be announced. -/
def Unannounced (size root : Nat) (buffer : Nat → Bytes) : Prop :=
  ∃ p < size, p ≠ root ∧ longestPayload < (buffer p).length

instance (size root : Nat) (buffer : Nat → Bytes) : Decidable (Unannounced size root buffer) :=
  inferInstanceAs (Decidable (∃ p, p < size ∧ _))

/-- What the root ends with when `message p` is the first payload of rank `p` that waits. -/
def rootOutcome (size root : Nat) (buffer message : Nat → Bytes) : Except Error (List Bytes) := do
  let _ ← countedOnRoot size root buffer
  (List.range size).mapM (gathered root buffer message)

/-- What rank `r` ends with. -/
def gatherOutcome (size root : Nat) (buffer message : Nat → Bytes) (r : Nat) :
    Except Error (List Bytes) :=
  if r = root then rootOutcome size root buffer message else sendOutcome root (buffer r)

/-- What a gather leaves: nothing, or all payloads when the root fails. -/
def abandoned (group size root : Nat) (tag : Tag) (buffer : Nat → Bytes) : Queues := fun c =>
  if c.group = group ∧ c.target = root ∧ c.tag = tag.payload ∧ c.source < size ∧
      c.source ≠ root ∧ buffer c.source ≠ [] ∧ Unannounced size root buffer then
    [buffer c.source]
  else []

section Outcomes

variable {group size root : Nat} {tag : Tag} {buffer : Nat → Bytes}

theorem exists_countedOnRoot_eq_error (h : Unannounced size root buffer) :
    ∃ e, countedOnRoot size root buffer = .error e := by
  obtain ⟨p, hp, hpr, hlong⟩ := h
  cases hc : countedOnRoot size root buffer with
  | error e => exact ⟨e, rfl⟩
  | ok counts =>
    obtain ⟨n, hn⟩ := exists_of_mapM_ok hc p (List.mem_range.mpr hp)
    rw [if_neg hpr, announced, if_neg (by omega)] at hn
    cases hn

theorem short_of_not_unannounced (h : ¬Unannounced size root buffer) :
    ∀ p < size, p ≠ root → (buffer p).length ≤ longestPayload :=
  fun p hp hpr => Nat.le_of_not_lt fun hlong => h ⟨p, hp, hpr, hlong⟩

/-- Nothing is left exactly when all buffers could be announced. -/
theorem abandoned_eq_none_iff :
    abandoned group size root tag buffer = Queues.none ↔ ¬Unannounced size root buffer := by
  constructor
  · rintro hnone ⟨p, hp, hpr, hlong⟩
    have hsome : buffer p ≠ [] := by
      rintro hempty
      rw [hempty] at hlong
      simp at hlong
    have hqueue := congrFun hnone ⟨group, p, root, tag.payload⟩
    have hleft : Unannounced size root buffer := ⟨p, hp, hpr, hlong⟩
    simp [abandoned, Queues.none, hp, hpr, hsome, hleft] at hqueue
  · intro h
    funext c
    exact if_neg fun hc => h hc.2.2.2.2.2.2

/-! ## 2. One gather -/

/-- When the headers are taken, the payloads are left. -/
theorem heard_sentToRoot_eq_abandoned (h : Unannounced size root buffer) :
    (sentToRoot group root tag buffer size).heard group root tag (List.range size) =
      abandoned group size root tag buffer := by
  funext ⟨g, p, r, t⟩
  by_cases hc : g = group ∧ r = root ∧ p < size ∧ p ≠ root
  · obtain ⟨rfl, rfl, hp, hpr⟩ := hc
    by_cases ht : t = tag
    · subst ht
      simp [Queues.heard, abandoned, hp, (Tag.payload_ne t).symm]
    · simp [Queues.heard, sentToRoot, abandoned, hp, hpr, ht, h]
  · have h₁ : ∀ P : Prop, ¬(g = group ∧ r = root ∧ P ∧ p < size ∧ p ≠ root ∧ buffer p ≠ [] ∧
        Unannounced size root buffer) := by tauto
    simp only [Queues.heard, sentToRoot, abandoned, if_neg hc, ite_self, h₁, if_false]

/-- **One gather**, from queues without a message, of buffers of any length. -/
theorem advances_gatherTo_none (hroot : root < size) (buffer : Nat → Bytes) :
    Advances group
      (Queues.none, fun r : Fin size =>
        (gatherTo (Seat.ofRank r size) tag root (buffer r)).outcome)
      (abandoned group size root tag buffer, fun r : Fin size =>
        .finish (gatherOutcome size root buffer buffer r)) := by
  refine advances_gatherTo_of_root hroot ?_
  rw [Queues.none_followedBy]
  by_cases h : Unannounced size root buffer
  · obtain ⟨e, he⟩ := exists_countedOnRoot_eq_error h
    have hheaders := receiveCounts_acts buffer fun p hp =>
      sentToRoot_header group size root tag buffer hp
    rw [he, heard_sentToRoot_eq_abandoned h] at hheaders
    rw [rootOutcome, he]
    exact hheaders.bind_finish _
  · have hshort := short_of_not_unannounced h
    have houtcome : rootOutcome size root buffer buffer = .ok ((List.range size).map buffer) := by
      rw [rootOutcome, countedOnRoot_eq_ok hshort, mapM_ok fun p _ => gathered_self buffer p]
      rfl
    rw [houtcome, abandoned_eq_none_iff.mpr h]
    exact gatherReceive_acts buffer hshort

/-! ## 3. The next gather -/

/-- The root takes the first message of each rank that has a payload, up to the first bad one. -/
theorem exists_gatherPayloads_acts (me : Seat) (counts : List Nat) (buffer message : Nat → Bytes) :
    ∀ {ps : List Nat}, ps.Nodup →
      (∀ p ∈ ps, p ≠ me.rank → counts.getD p 0 = (buffer p).length) → ∀ q : Queues,
      (∀ p ∈ ps, ∃ rest, q ⟨group, p, me.rank, tag⟩ =
        if p ≠ me.rank ∧ buffer p ≠ [] then message p :: rest else rest) →
      ∃ q', Acts group me.rank (q, (gatherPayloads me tag (buffer me.rank) counts ps).outcome)
        (q', .finish (ps.mapM (gathered me.rank buffer message)))
  | [], _, _, q, _ => ⟨q, .refl _⟩
  | p :: ps, hnd, hcounts, q, hq => by
    obtain ⟨hp, hps⟩ := List.nodup_cons.mp hnd
    obtain ⟨rest, hfirst⟩ := hq p (by simp)
    have hfirst := gatherPayload_acts (hcounts p (by simp)) hfirst
    rw [gatherPayloads_cons, List.mapM_cons]
    cases hgathered : gathered me.rank buffer message p with
    | error e =>
      rw [hgathered] at hfirst
      exact ⟨_, hfirst.bind_finish _⟩
    | ok payload =>
      rw [hgathered] at hfirst
      obtain ⟨q', hrest⟩ := exists_gatherPayloads_acts me counts buffer message hps
        (fun p' hp' => hcounts p' (List.mem_cons_of_mem p hp'))
        (Function.update q ⟨group, p, me.rank, tag⟩ rest) fun p' hp' => by
          have hne : p' ≠ p := fun e => hp (e ▸ hp')
          rw [Function.update_of_ne (by simp [hne])]
          exact hq p' (List.mem_cons_of_mem p hp')
      refine ⟨q', (hfirst.bind_finish _).trans ((hrest.bind_finish _).trans ?_)⟩
      cases ps.mapM (gathered me.rank buffer message) <;> exact .refl _

theorem append_singleton_eq_headD_cons {α : Type} (as : List α) (a : α) :
    as ++ [a] = as.headD a :: (as ++ [a]).tail := by
  cases as <;> rfl

/-- A payload comes behind the messages that wait already; the first of them is what the root
takes. -/
theorem exists_payload_followedBy (buffer : Nat → Bytes) (q : Queues) {p : Nat} (hp : p < size) :
    ∃ rest, ((q.followedBy (sentToRoot group root tag buffer size)).heard group root tag
        (List.range size)) ⟨group, p, root, tag.payload⟩ =
      if p ≠ root ∧ buffer p ≠ [] then
        (q ⟨group, p, root, tag.payload⟩).headD (buffer p) :: rest
      else rest := by
  rw [Queues.heard_payload, Queues.followedBy, sentToRoot_payload group size root tag buffer hp]
  by_cases hsends : p ≠ root ∧ buffer p ≠ []
  · rw [if_pos hsends]
    exact ⟨_, (append_singleton_eq_headD_cons _ _).trans (if_pos hsends).symm⟩
  · rw [if_neg hsends]
    exact ⟨_, (if_neg hsends).symm⟩

/-- The root, when what the others send comes behind other payloads. -/
theorem exists_gatherReceive_acts (buffer : Nat → Bytes) {q : Queues}
    (hq : ∀ p < size, q ⟨group, p, root, tag⟩ = []) :
    ∃ q', Acts group root
      (q.followedBy (sentToRoot group root tag buffer size),
        (gatherReceive (Seat.ofRank root size) tag (buffer root)).outcome)
      (q', .finish (rootOutcome size root buffer fun p =>
        (q ⟨group, p, root, tag.payload⟩).headD (buffer p))) := by
  have hheaders := @receiveCounts_acts group size root tag buffer
    (q.followedBy (sentToRoot group root tag buffer size)) fun p hp => by
      rw [Queues.followedBy, hq p hp, List.nil_append]
      exact sentToRoot_header group size root tag buffer hp
  by_cases h : Unannounced size root buffer
  · obtain ⟨e, he⟩ := exists_countedOnRoot_eq_error h
    rw [he] at hheaders
    rw [rootOutcome, he]
    exact ⟨_, hheaders.bind_finish _⟩
  · have hcounts := countedOnRoot_eq_ok (short_of_not_unannounced h)
    rw [hcounts] at hheaders
    rw [rootOutcome, hcounts]
    have hlengths : ∀ p ∈ List.range size, p ≠ root →
        ((List.range size).map fun p => if p = root then 0 else (buffer p).length).getD p 0 =
          (buffer p).length := by
      intro p hp hpr
      simp [List.getD, List.mem_range.mp hp, hpr]
    obtain ⟨q', hpayloads⟩ := exists_gatherPayloads_acts (Seat.ofRank root size) _ buffer _
      List.nodup_range hlengths _ fun p hp =>
        exists_payload_followedBy buffer q (List.mem_range.mp hp)
    exact ⟨q', (hheaders.bind_finish _).trans hpayloads⟩

/-- **A gather whose payloads come behind others.** -/
theorem exists_advances_gatherTo (hroot : root < size) (buffer : Nat → Bytes) {q : Queues}
    (hq : ∀ p < size, q ⟨group, p, root, tag⟩ = []) :
    ∃ q', Advances group
      (q, fun r : Fin size => (gatherTo (Seat.ofRank r size) tag root (buffer r)).outcome)
      (q', fun r : Fin size => .finish (gatherOutcome size root buffer
        (fun p => (q ⟨group, p, root, tag.payload⟩).headD (buffer p)) r)) := by
  obtain ⟨q', h⟩ := exists_gatherReceive_acts buffer hq
  exact ⟨q', advances_gatherTo_of_root hroot h⟩

theorem abandoned_header {p : Nat} :
    abandoned group size root tag buffer ⟨group, p, root, tag⟩ = [] :=
  if_neg fun h => Tag.payload_ne tag h.2.2.1.symm

/-- One gather after the other, on the same tag. -/
theorem exists_rests_gatherTo_twice (hroot : root < size) (first second : Nat → Bytes) :
    ∃ left, (Ensemble.ofGroup group size (attendAll size
        [.gatherTo tag root first, .gatherTo tag root second])).Rests
      ((List.range size).map fun r => some [gatherOutcome size root first first r,
        gatherOutcome size root second (fun p =>
          (abandoned group size root tag first ⟨group, p, root, tag.payload⟩).headD (second p)) r])
      left := by
  have hfirst := @advances_gatherTo_none group size root tag hroot first
  obtain ⟨left, hsecond⟩ := @exists_advances_gatherTo group size root tag hroot second
    (abandoned group size root tag first) fun p _ => abandoned_header
  refine ⟨left, ?_⟩
  have hroutine : attendAll size [.gatherTo tag root first, .gatherTo tag root second] = fun r => do
      let a ← (gatherTo (Seat.ofRank r size) tag root (first r)).outcome
      let b ← (gatherTo (Seat.ofRank r size) tag root (second r)).outcome
      return [a, b] := by
    funext r
    simp only [attendAll, List.mapM_cons, List.mapM_nil, bind_assoc, pure_bind, Joint.attempt]
  rw [hroutine]
  exact Advances.rests ((hfirst.bind _).trans (hsecond.bind _)) fun r => .finished _

/-- **Gathers of buffers of any length**, under every interleaving: what one gather comes to and
leaves, and what the next one on the same tag comes to.  All ranks return from both, but the first
one leaves nothing only if no buffer was too long to be announced. -/
theorem rests_gatherTo (group : Nat) (tag : Tag) (root : Fin size) (first second : Nat → Bytes) :
    (Ensemble.ofGroup group size fun r =>
        (gatherTo (Seat.ofRank r size) tag root (first r)).outcome).Rests
      ((List.range size).map fun r => some (gatherOutcome size root first first r))
      (abandoned group size root tag first) ∧
    (abandoned group size root tag first = Queues.none ↔ ¬Unannounced size root first) ∧
    ∃ left, (Ensemble.ofGroup group size (attendAll size
        [.gatherTo tag root first, .gatherTo tag root second])).Rests
      ((List.range size).map fun r => some [gatherOutcome size root first first r,
        gatherOutcome size root second (fun p =>
          (abandoned group size root tag first ⟨group, p, root, tag.payload⟩).headD (second p)) r])
      left := by
  refine ⟨?_, abandoned_eq_none_iff, exists_rests_gatherTo_twice root.isLt first second⟩
  exact Advances.rests (advances_gatherTo_none root.isLt first) fun r => .finished _

end Outcomes

/-! ## 4. Three ranks -/

/-- Rank 1 has a buffer that cannot be announced, rank 2 a short one. -/
def halting (r : Nat) : Bytes :=
  if r = 1 then List.replicate (longestPayload + 1) 0 else if r = 2 then [0xaa] else []

theorem unannounced_halting : Unannounced 3 0 halting :=
  ⟨1, by omega, by omega, by simp [halting]⟩

/-- The root of the gather that follows obtains the payload of rank 2 that the gather before it
left. -/
theorem exists_stale_three :
    ∃ turns results, ((Ensemble.ofGroup 0 3 (attendAll 3 [.gatherTo ⟨100⟩ 0 halting,
        .gatherTo ⟨100⟩ 0 fun r => if r = 2 then [0xbb] else []])).run turns).results? =
      some results ∧
      results[0]? = some [.error (.communication 1 .oversized), .ok [[], [], [0xaa]]] := by
  let second : Nat → Bytes := fun r => if r = 2 then [0xbb] else []
  obtain ⟨left, hrests⟩ := @exists_rests_gatherTo_twice 0 3 0 ⟨100⟩ (by omega) halting second
  obtain ⟨turns, hstill⟩ := Ensemble.exists_still
    (Ensemble.ofGroup 0 3 (attendAll 3 [.gatherTo ⟨100⟩ 0 halting, .gatherTo ⟨100⟩ 0 second]))
  have hfirst : gatherOutcome 3 0 halting halting 0 = .error (.communication 1 .oversized) := by
    have hcounts : countedOnRoot 3 0 halting = .error (.communication 1 .oversized) := by
      simp [countedOnRoot, List.range_succ, announced, halting]
      rfl
    rw [gatherOutcome, if_pos rfl, rootOutcome, hcounts]
    rfl
  have hsecond : gatherOutcome 3 0 second (fun p =>
      (abandoned 0 3 0 ⟨100⟩ halting ⟨0, p, 0, Tag.payload ⟨100⟩⟩).headD (second p)) 0 =
      .ok [[], [], [0xaa]] := by
    have hstale : abandoned 0 3 0 ⟨100⟩ halting ⟨0, 2, 0, Tag.payload ⟨100⟩⟩ = [[0xaa]] := by
      simp [abandoned, unannounced_halting, halting]
    simp [gatherOutcome, rootOutcome, countedOnRoot, List.range_succ, announced, second, gathered,
      hstale, readGathered]
    rfl
  have hreturns : ((Ensemble.ofGroup 0 3 (attendAll 3 [.gatherTo ⟨100⟩ 0 halting,
      .gatherTo ⟨100⟩ 0 second])).run turns).results? ≠ none := by
    rw [Ne, hrests.results?_eq_none_iff hstill]
    simp
  obtain ⟨results, hresults⟩ := Option.ne_none_iff_exists'.mp hreturns
  refine ⟨turns, results, hresults, ?_⟩
  have hall := (Ensemble.results?_eq_some_iff.mp hresults).symm.trans (hrests.outcomes turns hstill)
  have hroot := congrArg (fun outcomes => outcomes[0]?) hall
  simp only [List.getElem?_map, List.getElem?_range (show 0 < 3 by omega), Option.map_some, hfirst,
    hsecond] at hroot
  obtain ⟨result, hresult, houtcome⟩ := Option.map_eq_some_iff.mp hroot
  rw [hresult]
  exact houtcome

end ShardedVector.Collective
