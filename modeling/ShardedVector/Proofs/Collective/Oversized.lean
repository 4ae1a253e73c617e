/-
# Exchanges with payloads that cannot be announced

A payload that cannot be announced makes two ranks fail over its header, the one that has it and
the one it is for, and both of them leave before the second round.  They leave with everything
that they announced to others unsent and with everything that others send to them unheard.

* `Refused` are the ranks that fail so, and `Withholds` says which of their payloads others wait
  for.
* `exchangeOutcome` is what a rank ends with, or that it never does; `Unclaimed` are the payloads
  that nobody takes.
* `rests_exchange`: under every interleaving the exchange comes to rest with exactly these.
* `concludes_exchange_iff`: all ranks return and leave nothing exactly when no payload goes between
  a rank that fails and one that does not.

Two ranks fail together or not at all, so all of this goes well with them
(`concludes_exchange_of_le_two`); among three there can be one that knows of no failure
(`exists_stranded_three`).
-/
import ShardedVector.Proofs.Collective.Exchange

namespace ShardedVector.Collective

/-! ## 1. Ranks that fail over a header -/

/-- A rank that has a payload that cannot be announced, or for which some rank has one. -/
def Refused (size : Nat) (outgoing : Nat → Nat → Bytes) (r : Nat) : Prop :=
  ∃ p < size, p ≠ r ∧
    (longestPayload < (outgoing r p).length ∨ longestPayload < (outgoing p r).length)

instance (size : Nat) (outgoing : Nat → Nat → Bytes) (r : Nat) :
    Decidable (Refused size outgoing r) :=
  inferInstanceAs (Decidable (∃ p, p < size ∧ _))

/-- A rank announced a payload to another one and leaves before it sends it. -/
def Withholds (size : Nat) (outgoing : Nat → Nat → Bytes) (p r : Nat) : Prop :=
  p ≠ r ∧ outgoing p r ≠ [] ∧ Refused size outgoing p

instance (size : Nat) (outgoing : Nat → Nat → Bytes) (p r : Nat) :
    Decidable (Withholds size outgoing p r) :=
  inferInstanceAs (Decidable (_ ∧ _))

/-- The rank for whose payload rank `r` waits in vain, if it comes to wait at all. -/
def blocker? (size : Nat) (outgoing : Nat → Nat → Bytes) (r : Nat) : Option Nat :=
  if Refused size outgoing r then none
  else (List.range size).find? fun p => decide (Withholds size outgoing p r)

theorem announceable_eq_ok_iff {length : Nat → Nat} :
    ∀ {ps : List Nat}, announceable length ps = .ok () ↔ ∀ p ∈ ps, length p ≤ longestPayload
  | [] => by simp [announceable]
  | p :: ps => by
    have ih := @announceable_eq_ok_iff length ps
    rw [List.forall_mem_cons, ← ih]
    by_cases hp : length p ≤ longestPayload <;>
      simp [announceable, Count.forPeer, Count.ofNat?, hp]

section Outcomes

variable {size : Nat} {outgoing : Nat → Nat → Bytes}

theorem exists_counted_eq_error {r : Nat} (h : Refused size outgoing r) :
    ∃ e, counted size (fun r p => (outgoing r p).length) r = .error e := by
  cases hc : counted size (fun r p => (outgoing r p).length) r with
  | error e => exact ⟨e, rfl⟩
  | ok counts =>
    obtain ⟨p, hp, hpr, hlong⟩ := h
    simp only [counted] at hc
    cases hown : announceable (fun p => (outgoing r p).length) (Seat.ofRank r size).peers with
    | error e =>
      rw [hown] at hc
      cases hc
    | ok u =>
      rw [hown] at hc
      have hall := announceable_eq_ok_iff.mp hown p (mem_peers_ofRank.mpr ⟨hp, hpr⟩)
      obtain ⟨n, hn⟩ := exists_of_mapM_ok hc p (List.mem_range.mpr hp)
      rw [if_neg hpr, announced, if_neg (by omega)] at hn
      cases hn

theorem counted_of_not_refused {r : Nat} (h : ¬Refused size outgoing r) :
    counted size (fun r p => (outgoing r p).length) r =
      .ok ((List.range size).map fun p => if p = r then 0 else (outgoing p r).length) := by
  refine counted_eq_ok (fun p hp hpr => ?_) fun p hp hpr => ?_
  · exact Nat.le_of_not_lt fun hlong => h ⟨p, hp, hpr, .inl hlong⟩
  · exact Nat.le_of_not_lt fun hlong => h ⟨p, hp, hpr, .inr hlong⟩

/-- What rank `r` ends with: a failure over a header, nothing at all if it waits in vain, or else
the payloads of all ranks. -/
def exchangeOutcome (size : Nat) (outgoing : Nat → Nat → Bytes) (r : Nat) :
    Option (Except Error (List Bytes)) :=
  match counted size (fun r p => (outgoing r p).length) r with
  | .error e => some (.error e)
  | .ok _ =>
    match blocker? size outgoing r with
    | some _ => none
    | none => some (.ok ((List.range size).map fun p => outgoing p r))

/-! ## 2. The second round of those that did not fail -/

/-- The payloads that are sent. -/
def sentTargets (size : Nat) (outgoing : Nat → Nat → Bytes) (r : Nat) : List Nat :=
  if Refused size outgoing r then [] else payloadTargets size outgoing r

/-- The ranks that rank `r` hears, or knows to have nothing for it, until it ends or waits in
vain. -/
def heardRanks (size : Nat) (outgoing : Nat → Nat → Bytes) (r : Nat) : List Nat :=
  if Refused size outgoing r then [] else List.range ((blocker? size outgoing r).getD size)

/-- A payload that is sent and never taken: the rank that it is for has failed, or waits in vain
for a rank that comes before. -/
def Unclaimed (size : Nat) (outgoing : Nat → Nat → Bytes) (p r : Nat) : Prop :=
  p < size ∧ r < size ∧ p ≠ r ∧ outgoing p r ≠ [] ∧ ¬Refused size outgoing p ∧
    (Refused size outgoing r ∨ ∃ b < p, Withholds size outgoing b r)

instance (size : Nat) (outgoing : Nat → Nat → Bytes) (p r : Nat) :
    Decidable (Unclaimed size outgoing p r) :=
  inferInstanceAs (Decidable (_ ∧ _ ∧ _ ∧ _ ∧ _ ∧ (_ ∨ ∃ b, b < p ∧ _)))

/-- What is left in the mailbox. -/
def unclaimed (group size : Nat) (tag : Tag) (outgoing : Nat → Nat → Bytes) : Queues := fun c =>
  if c.group = group ∧ c.tag = tag.payload ∧ Unclaimed size outgoing c.source c.target then
    [outgoing c.source c.target]
  else []

theorem blocker?_eq_some_iff {r b : Nat} :
    blocker? size outgoing r = some b ↔
      ¬Refused size outgoing r ∧ b < size ∧ Withholds size outgoing b r ∧
        ∀ p < b, ¬Withholds size outgoing p r := by
  by_cases h : Refused size outgoing r
  · simp [blocker?, h]
  · rw [blocker?, if_neg h, List.find?_range_eq_some]
    simp only [decide_eq_true_eq, List.mem_range, Bool.not_eq_true', decide_eq_false_iff_not, h,
      not_false_eq_true, true_and]
    exact and_left_comm

theorem blocker?_eq_none_iff {r : Nat} :
    blocker? size outgoing r = none ↔
      Refused size outgoing r ∨ ∀ p < size, ¬Withholds size outgoing p r := by
  by_cases h : Refused size outgoing r <;> simp [blocker?, h]

theorem mem_sentTargets {r p : Nat} :
    p ∈ sentTargets size outgoing r ↔
      ¬Refused size outgoing r ∧ p < size ∧ p ≠ r ∧ outgoing r p ≠ [] := by
  by_cases h : Refused size outgoing r <;> simp [sentTargets, h, mem_payloadTargets]

/-- A rank hears the others up to the first one that withholds a payload. -/
theorem mem_heardRanks {r p : Nat} :
    p ∈ heardRanks size outgoing r ↔
      ¬Refused size outgoing r ∧ p < size ∧ ∀ b ≤ p, ¬Withholds size outgoing b r := by
  by_cases h : Refused size outgoing r
  · simp [heardRanks, h]
  · rw [heardRanks, if_neg h]
    cases hb : blocker? size outgoing r with
    | none =>
      have hnone := (blocker?_eq_none_iff.mp hb).resolve_left h
      rw [Option.getD_none, List.mem_range]
      exact ⟨fun hp => ⟨h, hp, fun b hbp => hnone b (by omega)⟩, fun hp => hp.2.1⟩
    | some b =>
      obtain ⟨-, hlt, hwithholds, hbelow⟩ := blocker?_eq_some_iff.mp hb
      rw [Option.getD_some, List.mem_range]
      refine ⟨fun hp => ⟨h, by omega, fun b' hb' => hbelow b' (by omega)⟩, fun hp => ?_⟩
      exact Nat.lt_of_not_le fun hbp => hp.2.2 b hbp hwithholds

/-- A rank never returns exactly when it has not failed and some rank withholds a payload. -/
theorem exchangeOutcome_eq_none_iff {r : Nat} :
    exchangeOutcome size outgoing r = none ↔
      ¬Refused size outgoing r ∧ ∃ p < size, Withholds size outgoing p r := by
  by_cases h : Refused size outgoing r
  · obtain ⟨e, he⟩ := exists_counted_eq_error h
    simp [exchangeOutcome, he, h]
  · cases hb : blocker? size outgoing r with
    | none =>
      have hnone := (blocker?_eq_none_iff.mp hb).resolve_left h
      simp only [exchangeOutcome, counted_of_not_refused h, hb, reduceCtorEq, false_iff, not_and,
        not_exists]
      exact fun _ p hp => hnone p hp
    | some b =>
      obtain ⟨-, hlt, hwithholds, -⟩ := blocker?_eq_some_iff.mp hb
      simp only [exchangeOutcome, counted_of_not_refused h, hb, h, not_false_eq_true, true_and,
        true_iff]
      exact ⟨b, hlt, hwithholds⟩

/-! ## 3. What one rank does in the second round -/

/-- What rank `r` does in the second round. -/
def afterHeaders (size : Nat) (tag : Tag) (outgoing : Nat → Nat → Bytes) (r : Nat) :
    Attempt (List Bytes) := do
  let counts ← Attempt.ofExcept (counted size (fun r p => (outgoing r p).length) r)
  exchangePayloads (Seat.ofRank r size) tag (outgoing r) counts

/-- What rank `r`, if it has not failed, does to obtain the payload of rank `p`. -/
def hearPayload (size : Nat) (tag : Tag) (outgoing : Nat → Nat → Bytes) (r p : Nat) :
    Routine (Except Error Bytes) :=
  if p = r then .finish (.ok (outgoing r p))
  else receivePayload tag p
    (((List.range size).map fun p => if p = r then 0 else (outgoing p r).length).getD p 0)

/-- What is left of the second round when the payloads of the rank are sent. -/
def afterSends (size : Nat) (tag : Tag) (outgoing : Nat → Nat → Bytes) (r : Nat) :
    Routine (Except Error (List Bytes)) :=
  match counted size (fun r p => (outgoing r p).length) r with
  | .error e => .finish (.error e)
  | .ok _ => forEach (hearPayload size tag outgoing r) (List.range size)

variable (group : Nat) (tag : Tag)

theorem afterHeaders_acts (r : Nat) (q : Queues) :
    Acts group r (q, (afterHeaders size tag outgoing r).outcome)
      (q.sent group r tag (outgoing r) (sentTargets size outgoing r),
        afterSends size tag outgoing r) := by
  by_cases h : Refused size outgoing r
  · obtain ⟨e, he⟩ := exists_counted_eq_error h
    rw [afterHeaders, afterSends, he, sentTargets, if_pos h, Queues.sent_nil]
    exact .refl _
  · rw [afterHeaders, afterSends, counted_of_not_refused h, sentTargets, if_neg h]
    exact (sendEach_acts (outgoing r) ((nodup_peers _).filter _) q).bind_finish _

/-- A rank that has not failed obtains the payload of a rank that does not withhold it. -/
theorem hearPayload_acts {r p : Nat} (hr : r < size) (hp : p < size)
    (hsends : ¬Withholds size outgoing p r) {q : Queues}
    (hq : q ⟨group, p, r, tag⟩ =
      if r ∈ sentTargets size outgoing p then [outgoing p r] else []) :
    Acts group r (q, hearPayload size tag outgoing r p)
      (Function.update q ⟨group, p, r, tag⟩ [], .finish (.ok (outgoing p r))) := by
  refine receivePayload_acts group tag (fun hpr => ?_) (hq.trans ?_)
  · simp [List.getD, hp, hpr]
  · by_cases hrefused : Refused size outgoing p
    · rw [sentTargets, if_pos hrefused, if_neg List.not_mem_nil]
      exact (if_neg fun h => hsends ⟨h.1, h.2, hrefused⟩).symm
    · simp only [sentTargets, if_neg hrefused, mem_payloadTargets, hr, true_and, ne_comm]

/-- All that a rank hears of is there when everybody has sent. -/
theorem hears_of_mem_heardRanks {r : Nat} (hr : r < size) {q : Queues}
    (hq : ∀ p < size, q ⟨group, p, r, tag⟩ =
      if r ∈ sentTargets size outgoing p then [outgoing p r] else []) :
    ∀ p ∈ heardRanks size outgoing r, ∀ q' : Queues,
      q' ⟨group, p, r, tag⟩ = q ⟨group, p, r, tag⟩ →
      Acts group r (q', hearPayload size tag outgoing r p)
        (Function.update q' ⟨group, p, r, tag⟩ [], .finish (.ok (outgoing p r))) := by
  intro p hp q' hq'
  obtain ⟨-, hlt, hsends⟩ := mem_heardRanks.mp hp
  exact hearPayload_acts group tag hr hlt (hsends p (Nat.le_refl p)) (hq'.trans (hq p hlt))

/-- A rank that has not failed waits for the payload of a rank that withholds it. -/
theorem hearPayload_waits {r b : Nat} (hb : b < size) (h : Withholds size outgoing b r) :
    ∃ room next, hearPayload size tag outgoing r b = .receive b tag room next := by
  obtain ⟨hbr, hsome, -⟩ := h
  have hlen : (outgoing b r).length ≠ 0 := fun e => hsome (List.length_eq_zero_iff.mp e)
  refine ⟨(outgoing b r).length, fun answer =>
    .finish (readPayload b (outgoing b r).length answer), ?_⟩
  simp [hearPayload, receivePayload, List.getD, hb, hbr, hlen]

theorem range_eq_append {b n : Nat} (h : b < n) :
    List.range n = List.range b ++ b :: List.range' (b + 1) (n - b - 1) := by
  have hcount : n = b + (n - b - 1 + 1) := by omega
  calc List.range n
    _ = List.range' 0 (b + (n - b - 1 + 1)) := by rw [← hcount, List.range_eq_range']
    _ = List.range' 0 b ++ List.range' (0 + b) (n - b - 1 + 1) := List.range'_append_1.symm
    _ = List.range b ++ b :: List.range' (b + 1) (n - b - 1) := by
      rw [Nat.zero_add, List.range'_succ, List.range_eq_range']

/-- A rank hears all that it is going to hear, and is at rest then. -/
theorem exists_afterSends_acts {r : Nat} (hr : r < size) :
    ∃ x, (∀ q : Queues,
        (∀ p < size, q ⟨group, p, r, tag⟩ =
          if r ∈ sentTargets size outgoing p then [outgoing p r] else []) →
        Acts group r (q, afterSends size tag outgoing r)
          (q.heard group r tag (heardRanks size outgoing r), x)) ∧
      ∀ q : Queues, (∀ p < size, Refused size outgoing p → q ⟨group, p, r, tag⟩ = []) →
        Resting group r q x (exchangeOutcome size outgoing r) := by
  by_cases h : Refused size outgoing r
  · obtain ⟨e, he⟩ := exists_counted_eq_error h
    simp only [afterSends, exchangeOutcome, he, heardRanks, if_pos h, Queues.heard_nil]
    exact ⟨_, fun q _ => .refl _, fun q _ => .finished _⟩
  simp only [afterSends, exchangeOutcome, counted_of_not_refused h]
  cases hb : blocker? size outgoing r with
  | none =>
    have hall : heardRanks size outgoing r = List.range size := by simp [heardRanks, h, hb]
    refine ⟨.finish (.ok ((List.range size).map fun p => outgoing p r)), fun q hq => ?_,
      fun q _ => .finished _⟩
    have hacts := forEach_acts _ _ List.nodup_range q
      (hall ▸ hears_of_mem_heardRanks group tag hr hq)
    rw [mapM_ok fun _ _ => rfl] at hacts
    rwa [hall]
  | some b =>
    obtain ⟨-, hlt, hwithholds, -⟩ := blocker?_eq_some_iff.mp hb
    have hbefore : heardRanks size outgoing r = List.range b := by simp [heardRanks, h, hb]
    obtain ⟨room, next, hacts⟩ := forEach_waits group r (hearPayload size tag outgoing r)
      (fun p => .ok (outgoing p r)) (List.range' (b + 1) (size - b - 1))
      (hearPayload_waits tag hlt hwithholds) List.nodup_range
    refine ⟨.receive b tag room next, fun q hq => ?_,
      fun q hq => .waits _ _ _ _ (hq b hlt hwithholds.2.2)⟩
    have hwaits := hacts q (hbefore ▸ hears_of_mem_heardRanks group tag hr hq)
    rwa [← range_eq_append hlt, ← hbefore] at hwaits

/-! ## 4. Every interleaving -/

/-- What is sent in the second round and not heard is what is unclaimed. -/
theorem sent_and_unheard_iff {p r : Nat} :
    (p < size ∧ r ∈ sentTargets size outgoing p ∧ ¬(r < size ∧ p ∈ heardRanks size outgoing r)) ↔
      Unclaimed size outgoing p r := by
  rw [mem_sentTargets, mem_heardRanks]
  constructor
  · rintro ⟨hp, ⟨hsends, hr, hrp, hsome⟩, hunheard⟩
    refine ⟨hp, hr, Ne.symm hrp, hsome, hsends, ?_⟩
    by_contra hno
    rw [not_or, not_exists] at hno
    refine hunheard ⟨hr, hno.1, hp, fun b hbp hwithholds => ?_⟩
    -- the rank itself does not withhold, since it has not failed
    rcases Nat.lt_or_eq_of_le hbp with hlt | rfl
    · exact hno.2 b ⟨hlt, hwithholds⟩
    · exact hsends hwithholds.2.2
  · rintro ⟨hp, hr, hpr, hsome, hsends, hlost⟩
    refine ⟨hp, ⟨hsends, hr, Ne.symm hpr, hsome⟩, ?_⟩
    rintro ⟨-, hhears, -, hbefore⟩
    rcases hlost with hrefused | ⟨b, hbp, hwithholds⟩
    · exact hhears hrefused
    · exact hbefore b (Nat.le_of_lt hbp) hwithholds

theorem unheardFrom_eq_unclaimed :
    unheardFrom group size tag.payload (sentTargets size outgoing) outgoing
        (heardRanks size outgoing) size =
      unclaimed group size tag outgoing := by
  funext ⟨g, p, r, t⟩
  simp only [unheardFrom, sentBelow, unclaimed, ← sent_and_unheard_iff]
  by_cases hheard : r < size ∧ p ∈ heardRanks size outgoing r <;> simp [hheard]

/-- **An exchange of payloads of any length**, under every interleaving. -/
theorem rests_exchange (outgoing : Nat → Nat → Bytes) :
    (Ensemble.ofGroup group size fun r =>
      (exchange (Seat.ofRank r size) tag (outgoing r)).outcome).Rests
      ((List.range size).map (exchangeOutcome size outgoing))
      (unclaimed group size tag outgoing) := by
  have hheaders : Advances group
      (Queues.none, fun r : Fin size => (exchange (Seat.ofRank r size) tag (outgoing r)).outcome)
      (Queues.none, fun r : Fin size => (afterHeaders size tag.payload outgoing r).outcome) := by
    have hcounts := converses_exchangeCounts group size tag fun r p => (outgoing r p).length
    exact Advances.bind hcounts fun (r : Fin size) => ExceptT.bindCont fun counts =>
      exchangePayloads (Seat.ofRank r size) tag.payload (outgoing r) counts
  choose! ends hacts hrest using fun (r : Nat) (hr : r < size) =>
    @exists_afterSends_acts size outgoing group tag.payload r hr
  have hround := advances_round group size tag.payload
    (fun r => (afterHeaders size tag.payload outgoing r).outcome)
    (afterSends size tag.payload outgoing) ends (sentTargets size outgoing) outgoing
    (heardRanks size outgoing) (fun r _ q => afterHeaders_acts group tag.payload r q) hacts
  rw [unheardFrom_eq_unclaimed] at hround
  refine Advances.rests (hheaders.trans hround) fun r => hrest r r.isLt _ fun p hp hrefused => ?_
  simp [unclaimed, Unclaimed, hrefused]

/-- Between a rank that fails and one that does not no payload goes, if all ranks return and leave
nothing. -/
theorem refused_iff_of_concludes {values : List (Except Error (List Bytes))}
    (hconcludes : (Ensemble.ofGroup group size fun r =>
      (exchange (Seat.ofRank r size) tag (outgoing r)).outcome).Concludes values)
    {p r : Nat} (hp : p < size) (hr : r < size) (hpr : p ≠ r) (hsome : outgoing p r ≠ []) :
    Refused size outgoing p ↔ Refused size outgoing r := by
  obtain ⟨houtcomes, hleft⟩ := hconcludes.eq_of_rests (rests_exchange group tag outgoing)
  constructor
  · -- otherwise the rank waits in vain for the payload
    intro hrefused
    by_contra hwaits
    have hnone := exchangeOutcome_eq_none_iff.mpr ⟨hwaits, p, hp, hpr, hsome, hrefused⟩
    have hmem : exchangeOutcome size outgoing r ∈ values.map some :=
      houtcomes ▸ List.mem_map_of_mem (List.mem_range.mpr hr)
    rw [hnone] at hmem
    simp at hmem
  · -- otherwise the payload is left
    intro hrefused
    by_contra hsends
    have hqueue := congrFun hleft ⟨group, p, r, tag.payload⟩
    have hunclaimed : Unclaimed size outgoing p r :=
      ⟨hp, hr, hpr, hsome, hsends, .inl hrefused⟩
    simp [unclaimed, hunclaimed, Queues.none] at hqueue

section Agreement

variable (agree : ∀ p < size, ∀ r < size, p ≠ r → outgoing p r ≠ [] →
  (Refused size outgoing p ↔ Refused size outgoing r))

include agree

theorem refused_of_withholds {p r : Nat} (hp : p < size) (hr : r < size)
    (h : Withholds size outgoing p r) : Refused size outgoing r :=
  (agree p hp r hr h.1 h.2.1).mp h.2.2

theorem unclaimed_eq_none : unclaimed group size tag outgoing = Queues.none := by
  funext c
  refine if_neg ?_
  rintro ⟨-, -, hp, hr, hpr, hsome, hsends, hrefused | ⟨b, hb, hwithholds⟩⟩
  · exact hsends ((agree _ hp _ hr hpr hsome).mpr hrefused)
  · have hrefused := refused_of_withholds agree (by omega) hr hwithholds
    exact hsends ((agree _ hp _ hr hpr hsome).mpr hrefused)

theorem none_notMem_outcomes : none ∉ (List.range size).map (exchangeOutcome size outgoing) := by
  intro hmem
  obtain ⟨r, hr, hnone⟩ := List.mem_map.mp hmem
  obtain ⟨hwaits, p, hp, hwithholds⟩ := exchangeOutcome_eq_none_iff.mp hnone
  exact hwaits (refused_of_withholds agree hp (List.mem_range.mp hr) hwithholds)

end Agreement

/-- An exchange concludes exactly when every payload that is not empty goes between two ranks that
both fail or both do not. -/
theorem concludes_exchange_iff (outgoing : Nat → Nat → Bytes) :
    (∃ values, (Ensemble.ofGroup group size fun r =>
      (exchange (Seat.ofRank r size) tag (outgoing r)).outcome).Concludes values) ↔
      ∀ p < size, ∀ r < size, p ≠ r → outgoing p r ≠ [] →
        (Refused size outgoing p ↔ Refused size outgoing r) := by
  constructor
  · rintro ⟨values, hconcludes⟩ p hp r hr hpr hsome
    exact refused_iff_of_concludes group tag hconcludes hp hr hpr hsome
  · intro agree
    have hrests := @rests_exchange size group tag outgoing
    obtain ⟨values, hvalues⟩ := Ensemble.exists_map_some (none_notMem_outcomes agree)
    rw [hvalues, unclaimed_eq_none group tag agree] at hrests
    exact ⟨values, Ensemble.concludes_of_rests hrests⟩

/-- Two ranks fail together or not at all. -/
theorem concludes_exchange_of_le_two (outgoing : Nat → Nat → Bytes) (hsize : size ≤ 2) :
    ∃ values, (Ensemble.ofGroup group size fun r =>
      (exchange (Seat.ofRank r size) tag (outgoing r)).outcome).Concludes values := by
  have onward : ∀ p < size, ∀ r < size, p ≠ r → Refused size outgoing p →
      Refused size outgoing r := by
    rintro p hp r hr hpr ⟨other, hother, hne, hlong⟩
    obtain rfl : other = r := by omega
    exact ⟨p, hp, hpr, hlong.symm⟩
  refine (concludes_exchange_iff group tag outgoing).mpr fun p hp r hr hpr _ => ?_
  exact ⟨onward p hp r hr hpr, onward r hr p hp (Ne.symm hpr)⟩

/-- **An all-to-all of buffers of any length**, under every interleaving: what each rank ends with,
or that it never does, and what is left.  Nobody is stranded and nothing is left exactly when every
buffer that is not empty goes between two ranks that both fail or both do not.  With one rank or two
it is always so. -/
theorem rests_allToAll (size : Nat) (buffers : Nat → Nat → Bytes) :
    (Ensemble.ofGroup group size fun r =>
      (allToAll (Seat.ofRank r size) tag ((List.range size).map (buffers r))).outcome).Rests
      ((List.range size).map (exchangeOutcome size buffers))
      (unclaimed group size tag buffers) ∧
    ((∃ values, (Ensemble.ofGroup group size fun r =>
      (allToAll (Seat.ofRank r size) tag
        ((List.range size).map (buffers r))).outcome).Concludes values) ↔
      ∀ p < size, ∀ r < size, p ≠ r → buffers p r ≠ [] →
        (Refused size buffers p ↔ Refused size buffers r)) ∧
    (size ≤ 2 → ∃ values, (Ensemble.ofGroup group size fun r =>
      (allToAll (Seat.ofRank r size) tag
        ((List.range size).map (buffers r))).outcome).Concludes values) := by
  simp only [allToAll_ofRank]
  exact ⟨rests_exchange group tag buffers, concludes_exchange_iff group tag buffers,
    concludes_exchange_of_le_two group tag buffers⟩

end Outcomes

/-! ## 5. Three ranks -/

/-- One buffer that cannot be announced, from rank 0 to rank 1, and one short one. -/
def lopsided (source target : Nat) (r p : Nat) : Bytes :=
  if r = 0 ∧ p = 1 then List.replicate (longestPayload + 1) 0
  else if r = source ∧ p = target then [7] else []

theorem length_lopsided_le {source target r p : Nat} (h : ¬(r = 0 ∧ p = 1)) :
    (lopsided source target r p).length ≤ longestPayload := by
  rw [lopsided, if_neg h]
  split <;> simp [longestPayload]

theorem refused_lopsided {source target r : Nat} (hr : r < 3) :
    Refused 3 (lopsided source target) r ↔ r ≠ 2 := by
  have hlong : longestPayload < (lopsided source target 0 1).length := by simp [lopsided]
  constructor
  · rintro ⟨p, -, -, h | h⟩ rfl
    · exact absurd h (Nat.not_lt_of_le (length_lopsided_le (by omega)))
    · exact absurd h (Nat.not_lt_of_le (length_lopsided_le (by omega)))
  · intro hne
    obtain rfl | rfl : r = 0 ∨ r = 1 := by omega
    · exact ⟨1, by omega, by omega, .inl hlong⟩
    · exact ⟨0, by omega, by omega, .inr hlong⟩

/-- With three ranks, a rank that has nothing to do with the failure waits for ever for a payload
that was announced to it, or leaves one that nobody takes. -/
theorem exists_stranded_three :
    (∃ turns, ((Ensemble.ofGroup 0 3 fun r => (allToAll (Seat.ofRank r 3) ⟨100⟩
        ((List.range 3).map (lopsided 0 2 r))).outcome).run turns).Still ∧
      ((Ensemble.ofGroup 0 3 fun r => (allToAll (Seat.ofRank r 3) ⟨100⟩
        ((List.range 3).map (lopsided 0 2 r))).outcome).run turns).results? = none) ∧
    ∃ turns, ((Ensemble.ofGroup 0 3 fun r => (allToAll (Seat.ofRank r 3) ⟨100⟩
        ((List.range 3).map (lopsided 2 0 r))).outcome).run turns).results? ≠ none ∧
      ((Ensemble.ofGroup 0 3 fun r => (allToAll (Seat.ofRank r 3) ⟨100⟩
        ((List.range 3).map (lopsided 2 0 r))).outcome).run turns).mailbox.queue
          ⟨0, 2, 0, ⟨101⟩⟩ = [[7]] := by
  simp only [allToAll_ofRank]
  constructor
  · have hrests := @rests_exchange 3 0 ⟨100⟩ (lopsided 0 2)
    obtain ⟨turns, hstill⟩ := Ensemble.exists_still (Ensemble.ofGroup 0 3 fun r =>
      (exchange (Seat.ofRank r 3) ⟨100⟩ (lopsided 0 2 r)).outcome)
    refine ⟨turns, hstill, (hrests.results?_eq_none_iff hstill).mpr ?_⟩
    refine List.mem_map.mpr ⟨2, by simp, exchangeOutcome_eq_none_iff.mpr ⟨?_, 0, by omega, ?_⟩⟩
    · simp [refused_lopsided]
    · exact ⟨by omega, by simp [lopsided], (refused_lopsided (by omega)).mpr (by omega)⟩
  · have hrests := @rests_exchange 3 0 ⟨100⟩ (lopsided 2 0)
    obtain ⟨turns, hstill⟩ := Ensemble.exists_still (Ensemble.ofGroup 0 3 fun r =>
      (exchange (Seat.ofRank r 3) ⟨100⟩ (lopsided 2 0 r)).outcome)
    refine ⟨turns, fun hnone => ?_, ?_⟩
    · obtain ⟨r, hr, hr'⟩ := List.mem_map.mp ((hrests.results?_eq_none_iff hstill).mp hnone)
      obtain ⟨hwaits, p, hp, hpr, hsome, hrefused⟩ := exchangeOutcome_eq_none_iff.mp hr'
      rw [refused_lopsided (List.mem_range.mp hr)] at hwaits
      rw [refused_lopsided hp] at hrefused
      have hr2 : r = 2 := by omega
      subst hr2
      simp [lopsided, hrefused] at hsome
    · rw [hrests.left turns hstill]
      have hunclaimed : Unclaimed 3 (lopsided 2 0) 2 0 :=
        ⟨by omega, by omega, by omega, by simp [lopsided], by simp [refused_lopsided],
          .inl ((refused_lopsided (by omega)).mpr (by omega))⟩
      simp only [unclaimed, hunclaimed]
      rfl

end ShardedVector.Collective
