/-
# Collectives that nobody passes alone

A collective in which every rank sends a size header to every other one, and waits for a header of
every other one, cannot be passed by a rank while another rank has not begun it.

* `HeadersFirst` is a family of routines of that kind; `allGather`, `allToAll`, `barrier`, the
  collectives on records and `reduceAll` are, and so is what goes on from one of them.
* `HeadersFirst.advances_without`: if one rank stays away, every other rank ends up waiting for the
  header of that rank, and there is none.

A collective makes no notes of its own either (`marks_exchange` and what follows from it), so the
log of a rank that goes through some of them tells which of them it has begun and ended.
-/
import ShardedVector.Proofs.Collective.Records
import ShardedVector.Proofs.Ensemble.Ends
import ShardedVector.Proofs.Ensemble.Marks

namespace ShardedVector.Collective

open Routine

/-! ## 1. Collectives make no notes -/

section Marks

variable {note : String}

theorem marks_attempt_bind {α β : Type} {a : Attempt α} {f : α → Attempt β}
    (h : a.outcome.Marks note 0) (hf : ∀ x, (f x).outcome.Marks note 0) :
    (a >>= f).outcome.Marks note 0 := by
  rw [Attempt.outcome_bind]
  refine h.bind_zero fun outcome => ?_
  cases outcome with
  | ok x => exact hf x
  | error e => rfl

theorem marks_sendEach (tag : Tag) (message : Nat → Bytes) :
    ∀ ps : List Nat, (sendEach tag message ps).Marks note 0
  | [] => rfl
  | _ :: rest => marks_sendEach tag message rest

theorem marks_forEach {α : Type} {routine : Nat → Routine (Except Error α)}
    (h : ∀ p, (routine p).Marks note 0) : ∀ ps : List Nat, (forEach routine ps).Marks note 0
  | [] => rfl
  | p :: rest => (h p).bind_zero fun _ => (marks_forEach h rest).bind_zero fun _ => marks_finish _

variable (me : Seat) (tag : Tag)

theorem marks_forEach_receiveCount (ps : List Nat) :
    (forEach (fun p => if p = me.rank then .finish (.ok 0) else receiveCount tag p) ps).Marks
      note 0 := by
  refine marks_forEach (fun p => ?_) ps
  split
  · rfl
  · exact fun _ => rfl

theorem marks_exchangeCounts (length : Nat → Nat) :
    (exchangeCounts me tag length).outcome.Marks note 0 :=
  (marks_sendEach tag _ _).bind_zero fun _ =>
    (marks_forEach_receiveCount me tag _).bind_zero fun _ => marks_finish _

theorem marks_exchangePayloads (outgoing : Nat → Bytes) (counts : List Nat) :
    (exchangePayloads me tag outgoing counts).outcome.Marks note 0 := by
  refine (marks_sendEach tag _ _).bind_zero fun _ => marks_forEach (fun p => ?_) _
  rw [receivePayload]
  split
  · rfl
  split
  · rfl
  · exact fun _ => rfl

theorem marks_exchange (outgoing : Nat → Bytes) :
    (exchange me tag outgoing).outcome.Marks note 0 :=
  marks_attempt_bind (marks_exchangeCounts me tag _) (marks_exchangePayloads me tag.payload _)

theorem marks_barrier : (barrier me tag).outcome.Marks note 0 :=
  marks_attempt_bind (marks_exchange me tag _) fun _ => rfl

theorem marks_allToAll (buffers : List Bytes) :
    (allToAll me tag buffers).outcome.Marks note 0 := by
  rw [allToAll]
  split
  · exact marks_exchange me tag _
  · rfl

theorem marks_gatherPayloads (buffer : Bytes) (counts : List Nat) :
    ∀ ps : List Nat, (gatherPayloads me tag buffer counts ps).outcome.Marks note 0
  | [] => rfl
  | p :: rest => by
    rw [gatherPayloads]
    have hrest (payload : Bytes) : Marks note (Attempt.outcome do
        let others ← gatherPayloads me tag buffer counts rest
        return payload :: others) 0 :=
      marks_attempt_bind (marks_gatherPayloads buffer counts rest) fun _ => rfl
    split
    · exact hrest buffer
    split
    · exact hrest []
    · exact marks_attempt_bind (fun _ => rfl) hrest

theorem marks_gatherTo (root : Nat) (buffer : Bytes) :
    (gatherTo me tag root buffer).outcome.Marks note 0 := by
  rw [gatherTo]
  split
  · rfl
  split
  · exact marks_attempt_bind (marks_forEach_receiveCount me tag _)
      fun counts => marks_gatherPayloads me tag.payload buffer counts _
  · exact (marks_sendEach tag _ _).bind_zero fun _ =>
      (marks_sendEach tag.payload _ _).bind_zero fun _ => marks_finish _

theorem marks_allGatherRecords {α : Type} [Record α] (items : List α) :
    (allGatherRecords me tag items).outcome.Marks note 0 :=
  marks_attempt_bind (marks_exchange me tag _) fun _ => rfl

theorem marks_reduceAll (op : Reduction) (x : Binary64) :
    (reduceAll me tag op x).outcome.Marks note 0 := by
  rw [reduceAll]
  split
  · rfl
  · exact marks_attempt_bind (marks_allGatherRecords me tag _) fun _ => rfl

end Marks

/-! ## 2. Headers first -/

/-- Routines of the ranks of a group that begin by exchanging headers, all on one tag. -/
def HeadersFirst {α : Type} (size : Nat) (x : Nat → Routine α) : Prop :=
  ∃ (tag : Tag) (length : Nat → Nat → Nat) (rest : Nat → Except Error (List Nat) → Routine α),
    ∀ r < size, x r = (exchangeCounts (.ofRank r size) tag (length r)).outcome >>= rest r

namespace HeadersFirst

variable {α β : Type} {size : Nat}

theorem congr {x y : Nat → Routine α} (h : HeadersFirst size x) (hxy : ∀ r < size, y r = x r) :
    HeadersFirst size y := by
  obtain ⟨tag, length, rest, hx⟩ := h
  exact ⟨tag, length, rest, fun r hr => (hxy r hr).trans (hx r hr)⟩

/-- What follows may be anything. -/
theorem bind {x : Nat → Routine α} (h : HeadersFirst size x) (f : Nat → α → Routine β) :
    HeadersFirst size fun r => x r >>= f r := by
  obtain ⟨tag, length, rest, hx⟩ := h
  refine ⟨tag, length, fun r counts => rest r counts >>= f r, fun r hr => ?_⟩
  exact (congrArg (· >>= f r) (hx r hr)).trans (Routine.bind_assoc _ _ _)

theorem attempt_bind {a : Nat → Attempt α} (h : HeadersFirst size fun r => (a r).outcome)
    (f : Nat → α → Attempt β) : HeadersFirst size fun r => (a r >>= f r).outcome := by
  simp only [Attempt.outcome_bind]
  exact h.bind _

theorem exchange (tag : Tag) (outgoing : Nat → Nat → Bytes) :
    HeadersFirst size fun r => (Collective.exchange (.ofRank r size) tag (outgoing r)).outcome :=
  attempt_bind ⟨tag, fun r p => (outgoing r p).length, fun _ => .finish,
    fun _ _ => (Routine.bind_finish _).symm⟩ _

theorem allGather (tag : Tag) (buffer : Nat → Bytes) :
    HeadersFirst size fun r => (Collective.allGather (.ofRank r size) tag (buffer r)).outcome :=
  exchange tag fun r _ => buffer r

theorem allToAll (tag : Tag) (buffers : Nat → Nat → Bytes) :
    HeadersFirst size fun r =>
      (Collective.allToAll (.ofRank r size) tag ((List.range size).map (buffers r))).outcome :=
  (exchange tag buffers).congr fun _ _ => congrArg Attempt.outcome (allToAll_ofRank size tag _)

theorem barrier (tag : Tag) :
    HeadersFirst size fun r => (Collective.barrier (.ofRank r size) tag).outcome :=
  attempt_bind (allGather tag fun _ => []) _

theorem allGatherRecords {γ : Type} [Record γ] (tag : Tag) (items : Nat → List γ) :
    HeadersFirst size fun r =>
      (Collective.allGatherRecords (.ofRank r size) tag (items r)).outcome :=
  attempt_bind (allGather tag fun r => Wire.encodeAll (items r)) _

/-- A rank that is not alone reduces with the others. -/
theorem reduceAll (hsize : size ≠ 1) (tag : Tag) (op : Reduction) (x : Nat → Binary64) :
    HeadersFirst size fun r =>
      (Collective.reduceAll (.ofRank r size) tag op (x r)).outcome := by
  refine (attempt_bind (allGatherRecords tag fun r => [x r])
    (f := fun _ rows => return op.fold rows.flatten)).congr fun r _ => ?_
  exact congrArg Attempt.outcome (if_neg hsize)

/-! ## 3. A rank that stays away -/

theorem range_split {s size : Nat} (hs : s < size) :
    List.range size = List.range s ++ s :: List.range' (s + 1) (size - (s + 1)) := by
  have happend := List.range'_append_1 (s := 0) (m := s) (n := size - (s + 1) + 1)
  have hsize : s + (size - (s + 1) + 1) = size := by omega
  rw [Nat.zero_add, hsize, List.range'_succ] at happend
  rw [List.range_eq_range', List.range_eq_range', happend]

/-- A rank that hears the ranks in order, and one of them sends nothing, waits for that one. -/
theorem exists_waits_for (group : Nat) (tag : Tag) (length : Nat → Nat → Nat) {r s : Nat}
    (hs : s < size) (hr : r < size) (hrs : r ≠ s) :
    ∃ room next, ∀ q : Queues,
      (∀ p < s, q ⟨group, p, r, tag⟩ =
        if r ∈ (Seat.ofRank p size).peers then [headerBytes (length p r)] else []) →
      Acts group r
        (q, forEach (fun p => if p = r then .finish (.ok 0) else receiveCount tag p)
          (List.range size))
        (q.heard group r tag (List.range s), .receive s tag room next) := by
  have hnodup : (List.range s).Nodup := List.nodup_range
  obtain ⟨room, next, hacts⟩ := forEach_waits group r
    (fun p => if p = r then .finish (.ok 0) else receiveCount tag p)
    (fun p => if p = r then .ok 0 else announced p (length p r))
    (List.range' (s + 1) (size - (s + 1))) ⟨_, _, if_neg (Ne.symm hrs)⟩ hnodup
  refine ⟨room, next, fun q hq => ?_⟩
  rw [range_split hs]
  refine hacts q fun p hp q' hq' => hearCount_acts group size tag hr ?_
  rw [hq', hq p (List.mem_range.mp hp)]

/-- **If one rank stays away, every other one waits for its header**, and there is none. -/
theorem advances_without {x : Nat → Routine α} (h : HeadersFirst size x) (group : Nat) {s : Nat}
    (hs : s < size) (away : Routine α) :
    ∃ (tag : Tag) (room : Nat → Nat) (next : Nat → Option Bytes → Routine α) (q : Queues),
      Advances group (Queues.none, fun r : Fin size => if r = s then away else x r)
        (q, fun r : Fin size => if r = s then away else .receive s tag (room r) (next r)) ∧
      ∀ r, q ⟨group, s, r, tag⟩ = [] := by
  obtain ⟨tag, length, rest, hx⟩ := h
  let hear (r p : Nat) : Routine (Except Error Nat) :=
    if p = r then .finish (.ok 0) else receiveCount tag p
  let targets (r : Nat) : List Nat := if r = s then [] else (Seat.ofRank r size).peers
  have hwaits : ∀ r, ∃ room next, r ≠ s → r < size → ∀ q : Queues,
      (∀ p < s, q ⟨group, p, r, tag⟩ =
        if r ∈ (Seat.ofRank p size).peers then [headerBytes (length p r)] else []) →
      Acts group r (q, forEach (hear r) (List.range size))
        (q.heard group r tag (List.range s), .receive s tag room next) := by
    intro r
    by_cases hr : r ≠ s ∧ r < size
    · obtain ⟨room, next, hacts⟩ := exists_waits_for group tag length hs hr.2 hr.1
      exact ⟨room, next, fun _ _ => hacts⟩
    · exact ⟨0, fun _ => .finish (.ok []), fun hrs hlt => absurd ⟨hrs, hlt⟩ hr⟩
  choose room next hwaits using hwaits
  let settle (r : Nat) (counts : Except Error (List Nat)) : Routine α :=
    rest r do
      announceable (length r) (Seat.ofRank r size).peers
      counts
  have hround := advances_round group size tag
    (fun r => if r = s then away else x r)
    (fun r => if r = s then away else forEach (hear r) (List.range size) >>= settle r)
    (fun r => if r = s then away else
      .receive s tag (room r) fun answer => next r answer >>= settle r)
    targets (fun r p => headerBytes (length r p)) (fun r => if r = s then [] else List.range s)
    ?sends ?hears
  case sends =>
    intro r hr q
    by_cases hrs : r = s
    · simp only [targets, if_pos hrs, Queues.sent_nil]
      exact .refl _
    · have hbegin : x r = sendEach tag (fun p => headerBytes (length r p))
          (Seat.ofRank r size).peers >>= fun _ =>
            forEach (hear r) (List.range size) >>= settle r :=
        (hx r hr).trans ((Routine.bind_assoc _ _ _).trans
          (congrArg (_ >>= ·) (funext fun _ => Routine.bind_assoc _ _ _)))
      simp only [targets, if_neg hrs, hbegin]
      exact (sendEach_acts _ (nodup_peers _) q).bind_finish _
  case hears =>
    intro r hr q hq
    by_cases hrs : r = s
    · simp only [if_pos hrs, Queues.heard_nil]
      exact .refl _
    · simp only [if_neg hrs]
      refine (hwaits r hrs hr q fun p hp => ?_).bind _
      rw [hq p (by omega)]
      simp only [targets, if_neg (Nat.ne_of_lt hp)]
  refine ⟨tag, room, fun r answer => next r answer >>= settle r, _, hround, fun r => ?_⟩
  have hnone : sentBelow group tag targets (fun r p => headerBytes (length r p)) size
      ⟨group, s, r, tag⟩ = [] := if_neg fun h => by simp [targets] at h
  rw [unheardFrom, hnone, ite_self]

end HeadersFirst

/-! ## 4. Going through collectives -/

/-- The note of a rank that is about to begin a collective. -/
def entering : String := "enter"

/-- The note of a rank that a collective has returned to. -/
def returning : String := "return"

/-- Rank `r` goes through collectives one after the other, and notes when it enters each of them and
when it returns from it. -/
def attend : List (Nat → Routine Unit) → Nat → Routine Unit
  | [], _ => .finish ()
  | x :: rest, r => .interval entering (x r >>= fun _ => .interval returning (attend rest r))

/-- A collective for `attend`: it makes none of the two notes, and it comes to an end. -/
structure Attendable (size : Nat) (x : Nat → Routine Unit) : Prop where
  marks_entering : ∀ r, (x r).Marks entering 0
  marks_returning : ∀ r, (x r).Marks returning 0
  converses : ∀ group, Converses group size x fun _ => ()

theorem attend_append (xs ys : List (Nat → Routine Unit)) (r : Nat) :
    attend (xs ++ ys) r = attend xs r >>= fun _ => attend ys r := by
  induction xs with
  | nil => rfl
  | cons x rest ih =>
    rw [List.cons_append, attend, attend, ih, interval_bind, Routine.bind_assoc]
    rfl

section Attend

variable {size : Nat} {xs : List (Nat → Routine Unit)} (h : ∀ x ∈ xs, Attendable size x)

include h

theorem marks_attend_entering (r : Nat) : (attend xs r).Marks entering xs.length := by
  induction xs with
  | nil => exact marks_finish ()
  | cons x rest ih =>
    have hrest := ih fun y hy => h y (List.mem_cons_of_mem x hy)
    have hx := ((h x List.mem_cons_self).marks_entering r).bind
      (f := fun _ => .interval returning (attend rest r))
      fun _ => (marks_interval_ne (by decide)).mpr hrest
    rw [Nat.zero_add] at hx
    exact marks_interval_self hx

theorem marks_attend_returning (r : Nat) : (attend xs r).Marks returning xs.length := by
  induction xs with
  | nil => exact marks_finish ()
  | cons x rest ih =>
    have hrest := ih fun y hy => h y (List.mem_cons_of_mem x hy)
    have hx := ((h x List.mem_cons_self).marks_returning r).bind
      (f := fun _ => .interval returning (attend rest r)) fun _ => marks_interval_self hrest
    rw [Nat.zero_add] at hx
    exact (marks_interval_ne (by decide)).mpr hx

theorem converses_attend (group : Nat) : Converses group size (attend xs) fun _ => () := by
  induction xs with
  | nil => exact Converses.finish group size fun _ => ()
  | cons x rest ih =>
    have hrest := ih fun y hy => h y (List.mem_cons_of_mem x hy)
    have hx := ((h x List.mem_cons_self).converses group).bind
      (f := fun r _ => .interval returning (attend rest r)) (hrest.noted (fun _ => true) returning)
    exact hx.noted (fun _ => true) entering

end Attend

end ShardedVector.Collective

/-! ## 5. Nobody returns before all have entered -/

namespace ShardedVector

/-- How many collectives a rank has entered. -/
def Party.entered {α : Type} (p : Party α) : Nat := p.intervals.count Collective.entering

/-- How many collectives a rank has returned from. -/
def Party.returned {α : Type} (p : Party α) : Nat := p.intervals.count Collective.returning

/-- How many collectives rank `r` has entered. -/
def Ensemble.entered {α : Type} (e : Ensemble α) (r : Nat) : Nat :=
  (e.parties[r]?).elim 0 Party.entered

/-- How many collectives rank `r` has returned from. -/
def Ensemble.returned {α : Type} (e : Ensemble α) (r : Nat) : Nat :=
  (e.parties[r]?).elim 0 Party.returned

namespace Collective

open Routine

section Without

variable {size s : Nat} {before after : List (Nat → Routine Unit)} {x : Nat → Routine Unit}
  (hbefore : ∀ y ∈ before, Attendable size y) (hx : Attendable size x)
  (hafter : ∀ y ∈ after, Attendable size y) (hs : s < size)

/-- A group of which rank `s` goes home before a collective that the others enter. -/
def without (s : Nat) (before after : List (Nat → Routine Unit)) (x : Nat → Routine Unit)
    (r : Nat) : Routine Unit :=
  if r = s then attend before s else attend (before ++ x :: after) r

include hbefore hs in
/-- The others wait in that collective in the end. -/
theorem advances_without (group : Nat) (hheaders : HeadersFirst size x) :
    ∃ (tag : Tag) (room : Nat → Nat) (next : Nat → Option Bytes → Routine Unit) (q : Queues),
      Advances group (Queues.none, fun r : Fin size => without s before after x r)
        (q, fun r : Fin size =>
          if r = s then .finish ()
          else .receive s tag (room r) (next r) >>= fun _ =>
            .interval returning (attend after r)) ∧
      ∀ r, q ⟨group, s, r, tag⟩ = [] := by
  obtain ⟨tag, room, next, q, hwait, hempty⟩ := hheaders.advances_without group hs (.finish ())
  let onward (r : Nat) : Unit → Routine Unit :=
    if r = s then .finish else fun _ => .interval returning (attend after r)
  have hfirst := Advances.bind (converses_attend hbefore group) fun r : Fin size => fun _ =>
    if r = s then .finish () else attend (x :: after) r
  have henter : Advances group
      (Queues.none, fun r : Fin size => if r = s then .finish () else attend (x :: after) r)
      (Queues.none, fun r : Fin size => (if r = s then .finish () else x r) >>= onward r) :=
    advances_in_turn (fun _ => Queues.none)
      (fun r => if r = s then .finish () else attend (x :: after) r)
      (fun r => (if r = s then .finish () else x r) >>= onward r) fun r _ => by
        by_cases hrs : r = s
        · simp only [onward, if_pos hrs]
          exact .refl _
        · simp only [onward, if_neg hrs]
          exact (Act.interval _ entering _).acts
  have hwait := hwait.bind fun r : Fin size => onward r
  refine ⟨tag, room, next, q, ?_, hempty⟩
  have hbegin : (fun r : Fin size => without s before after x r) = fun r : Fin size =>
      attend before r >>= fun _ => if r.val = s then .finish () else attend (x :: after) r := by
    funext r
    by_cases hrs : r.val = s
    · simp only [without, hrs, if_true]
      exact (Routine.bind_finish _).symm
    · simp only [without, if_neg hrs, attend_append]
  have hend : (fun r : Fin size =>
      if r.val = s then .finish ()
      else .receive s tag (room r) (next r) >>= fun _ => .interval returning (attend after r)) =
      fun r : Fin size => (if r.val = s then .finish () else .receive s tag (room r) (next r)) >>=
        onward r := by
    funext r
    by_cases hrs : r.val = s <;> simp [onward, hrs]
  rw [hbegin, hend]
  exact hfirst.trans (henter.trans hwait)

include hbefore hx hafter in
/-- Every rank notes one return for each collective that it goes through. -/
theorem tallies_without (group : Nat) {r : Nat} {p : Party Unit}
    (hp : (Ensemble.ofGroup group size (without s before after x)).parties[r]? = some p) :
    p.Tallies returning (if r = s then before.length else before.length + 1 + after.length) := by
  obtain ⟨-, rfl⟩ := Ensemble.eq_start_of_getElem? hp
  refine ⟨_, ?_, Nat.zero_add _⟩
  have hall : ∀ y ∈ before ++ x :: after, Attendable size y := by
    intro y hy
    rcases List.mem_append.mp hy with hy | hy
    · exact hbefore y hy
    rcases List.mem_cons.mp hy with rfl | hy
    · exact hx
    · exact hafter y hy
  have hlength : (before ++ x :: after).length = before.length + 1 + after.length := by
    rw [List.length_append, List.length_cons]
    omega
  have hroutine : (Party.start group r (without s before after x r)).routine =
      without s before after x r := rfl
  rw [hroutine, without]
  by_cases hrs : r = s
  · rw [if_pos hrs, if_pos hrs]
    exact marks_attend_returning hbefore s
  · rw [if_neg hrs, if_neg hrs, ← hlength]
    exact marks_attend_returning hall r

include hbefore hx hafter hs in
/-- **Where one rank goes home, no rank returns** from the collective that it does not enter. -/
theorem returned_le_without (group : Nat) (hheaders : size ≠ 1 → HeadersFirst size x)
    {w : View Unit}
    (hw : (Ensemble.ofGroup group size (without s before after x)).view.Reaches w)
    {r : Nat} {p : Party Unit} (hp : w.parties[r]? = some p) : p.returned ≤ before.length := by
  have htallies := hw.tallies (fun p hp => tallies_without hbefore hx hafter group hp) p hp
  by_cases hrs : r = s
  · rw [if_pos hrs] at htallies
    obtain ⟨n, -, htotal⟩ := htallies
    exact htotal ▸ Nat.le_add_right _ _
  have hr : r < size := hw.keeps (I := fun _ => r < size) (fun _ hlt => hlt)
    (fun p hp => (Ensemble.eq_start_of_getElem? hp).1) p hp
  obtain ⟨tag, room, next, q, hadvances, hempty⟩ :=
    advances_without hbefore hs group (hheaders (by omega))
  -- the others come to rest in that collective, and whatever a rank has noted it has noted by then
  obtain ⟨logs, hreach⟩ := Advances.reaches (fun _ => []) hadvances
  rw [← Ensemble.view_ofGroup] at hreach
  let outcome (r : Nat) : Option Unit := if r = s then some () else none
  have hresting : ∀ r : Fin size, Resting group r q
      (if r.val = s then .finish ()
        else .receive s tag (room r) (next r) >>= fun _ => .interval returning (attend after r))
      (outcome r) := by
    intro r
    by_cases hrs : r.val = s
    · simp only [outcome, if_pos hrs]
      exact .finished ()
    · simp only [outcome, if_neg hrs]
      exact .waits s tag (room r) _ (hempty r)
  have hrest := View.Reaches.of_reaches
    (by rw [Ensemble.view_ofGroup]; exact View.distinct_partiesOf _ _ _)
    (View.stuck_of_resting logs hresting) hreach hw
  have hlast : (partiesOf group (fun r : Fin size =>
      if r.val = s then .finish ()
      else .receive s tag (room r) (next r) >>= fun _ => .interval returning (attend after r))
      logs)[r]? = some ⟨group, r, none, .receive s tag (room r) (next r) >>= fun _ =>
        .interval returning (attend after r), logs ⟨r, hr⟩⟩ := by
    simp [partiesOf, hr, hrs]
  obtain ⟨n, hn, htotal⟩ :=
    hreach.tallies (fun p hp => tallies_without hbefore hx hafter group hp) _ hlast
  have hleft : after.length + 1 ≤ n :=
    hn.le_of_bind fun _ => marks_interval_self (marks_attend_returning hafter r)
  have hle : p.returned ≤ _ := hrest.count_le hp hlast returning
  rw [if_neg hrs] at htotal
  omega

include hbefore in
/-- A rank that goes home has entered what it went through. -/
theorem tallies_entering_without (group : Nat) {p : Party Unit}
    (hp : (Ensemble.ofGroup group size (without s before after x)).parties[s]? = some p) :
    p.Tallies entering before.length := by
  obtain ⟨-, rfl⟩ := Ensemble.eq_start_of_getElem? hp
  have hroutine : (Party.start group s (without s before after x s)).routine = attend before s :=
    if_pos rfl
  have hmarks := marks_attend_entering hbefore s
  rw [← hroutine] at hmarks
  exact ⟨_, hmarks, Nat.zero_add _⟩

/-- Where rank `s` does not go home, it goes on from there. -/
theorem view_attend_eq_extend (group size s : Nat) (before after : List (Nat → Routine Unit))
    (x : Nat → Routine Unit) :
    (Ensemble.ofGroup group size (attend (before ++ x :: after))).view =
      (Ensemble.ofGroup group size (without s before after x)).view.extend s
        fun _ => attend (x :: after) s := by
  have hwithout : without s before after x =
      fun r => if r = s then attend before s else attend (before ++ x :: after) r := rfl
  rw [hwithout, View.extend_ofGroup]
  refine congrArg (fun routine => (Ensemble.ofGroup group size routine).view) (funext fun r => ?_)
  by_cases hrs : r = s
  · rw [if_pos hrs, ← attend_append, hrs]
  · rw [if_neg hrs]

include hbefore hx hafter hs in
/-- The group is one in which rank `s` goes home before a collective, or else has entered it. -/
theorem entered_of_returned_split (group : Nat) (hheaders : size ≠ 1 → HeadersFirst size x)
    (turns : List Nat) {r : Nat}
    (hreturned : before.length <
      ((Ensemble.ofGroup group size (attend (before ++ x :: after))).run turns).returned r) :
    before.length <
      ((Ensemble.ofGroup group size (attend (before ++ x :: after))).run turns).entered s := by
  have hreach := (Ensemble.ofGroup group size (attend (before ++ x :: after))).reaches_run turns
  have hpresent : s <
      ((Ensemble.ofGroup group size (attend (before ++ x :: after))).run turns).parties.length := by
    rw [Ensemble.length_parties_run]
    simpa [Ensemble.ofGroup] using hs
  have hq := List.getElem?_eq_getElem hpresent
  rw [Ensemble.entered, hq]
  rw [Ensemble.returned] at hreturned
  cases hp : ((Ensemble.ofGroup group size
      (attend (before ++ x :: after))).run turns).parties[r]? with
  | none => simp [hp] at hreturned
  | some p =>
  rw [hp, Option.elim_some] at hreturned
  rw [view_attend_eq_extend group size s] at hreach
  have henters : ∀ a : Unit, ∃ next, attend (x :: after) s = .interval entering next :=
    fun _ => ⟨_, rfl⟩
  rcases hreach.of_extend henters with ⟨w, hw, hview⟩ | ⟨w, p', a, hw, hp', ha, hmore⟩
  · have hp : (w.extend s fun _ => attend (x :: after) s).parties[r]? = some p := hview ▸ hp
    obtain ⟨p', hp', hlog⟩ := View.exists_of_extend hp
    have hle : p'.returned ≤ _ := returned_le_without hbefore hx hafter hs group hheaders hw hp'
    rw [Party.returned, hlog] at hle
    exact absurd hreturned (Nat.not_lt.mpr hle)
  · have htallies := hw.tallies (fun p hp => tallies_entering_without hbefore group hp) p' hp'
    have hmore := hmore _ hq
    rwa [htallies.count_eq ha] at hmore

end Without

/-- **Nobody returns from a collective before all have entered it.** -/
theorem entered_of_returned {size : Nat} {xs : List (Nat → Routine Unit)}
    (h : ∀ x ∈ xs, Attendable size x) (group : Nat) {k : Nat} {x : Nat → Routine Unit}
    (hk : xs[k]? = some x) (hheaders : size ≠ 1 → HeadersFirst size x) (turns : List Nat)
    {r s : Nat} (hs : s < size)
    (hreturned : k < ((Ensemble.ofGroup group size (attend xs)).run turns).returned r) :
    k < ((Ensemble.ofGroup group size (attend xs)).run turns).entered s := by
  obtain ⟨hlt, hget⟩ := List.getElem?_eq_some_iff.mp hk
  obtain ⟨before, after, rfl, rfl⟩ : ∃ before after, xs = before ++ x :: after ∧
      before.length = k := by
    refine ⟨xs.take k, xs.drop (k + 1), ?_, List.length_take_of_le hlt.le⟩
    rw [← hget, List.getElem_cons_drop, List.take_append_drop]
  have hbefore : ∀ y ∈ before, Attendable size y := fun y hy => h y (List.mem_append_left _ hy)
  have hrest : ∀ y ∈ x :: after, Attendable size y := fun y hy => h y (List.mem_append_right _ hy)
  exact entered_of_returned_split hbefore (hrest x List.mem_cons_self)
    (fun y hy => hrest y (List.mem_cons_of_mem x hy)) hs group hheaders turns hreturned

end Collective

end ShardedVector
