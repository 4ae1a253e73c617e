/-
# Moves on queues

A party learns of the mailbox only what waits on a channel, never how the queues are kept.
This module replaces the table of queues by a function from channels to queues and splits a
move in two: what the party offers to do (`Party.Offers`), and what that does to the queues
(`Effect.Acts`).  An ensemble moves exactly when its view moves:

* `stepBy_of_step?`: a step of the ensemble is a step of the view;
* `exists_step?_of_stepBy`: a step of the view is one of the ensemble.

Two facts about steps follow, and they are all that the order of turns ever needs: the same
party has at most one step (`StepBy.unique`), and the steps of two parties with different
seats commute (`StepBy.comm`).
-/
import Mathlib.Logic.Function.Basic
import ShardedVector.Ensemble.Basic

namespace ShardedVector

/-! ## 1. Queues and effects -/

/-- The messages that wait on every channel, the oldest first. -/
abbrev Queues := Channel → List Bytes

/-- No message waits. -/
def Queues.none : Queues := fun _ => []

/-- What a move does to the queues. -/
inductive Effect where
  | idle
  | put (c : Channel) (message : Bytes)
  | take (c : Channel) (message : Bytes)

namespace Effect

/-- The queues before an effect and after it. -/
inductive Acts : Effect → Queues → Queues → Prop
  | idle (q : Queues) : Acts .idle q q
  | put (c : Channel) (message : Bytes) (q : Queues) :
      Acts (.put c message) q (Function.update q c (q c ++ [message]))
  | take (c : Channel) (message : Bytes) (rest : List Bytes) (q : Queues)
      (h : q c = message :: rest) : Acts (.take c message) q (Function.update q c rest)

/-- An effect that the rank of a seat may have: it puts at its end of a channel and takes at
its end of a channel. -/
def AtSeat (group rank : Nat) : Effect → Prop
  | .idle => True
  | .put c _ => c.group = group ∧ c.source = rank
  | .take c _ => c.group = group ∧ c.target = rank

/-- A put and a take commute, also on one channel, where they work on its two ends. -/
theorem Acts.comm_put_take {c d : Channel} {m n : Bytes} {q q₁ q₂ : Queues}
    (h₁ : (Effect.put c m).Acts q q₁) (h₂ : (Effect.take d n).Acts q q₂) :
    ∃ q', (Effect.take d n).Acts q₁ q' ∧ (Effect.put c m).Acts q₂ q' := by
  cases h₁ with
  | put =>
  cases h₂ with
  | take _ _ rest _ hd =>
  by_cases hcd : c = d
  · subst hcd
    refine ⟨Function.update q c (rest ++ [m]), ?_, ?_⟩
    · have h := Acts.take c n (rest ++ [m]) (Function.update q c (q c ++ [m]))
        (by rw [Function.update_self, hd, List.cons_append])
      rwa [Function.update_idem] at h
    · have h := Acts.put c m (Function.update q c rest)
      rwa [Function.update_self, Function.update_idem] at h
  · refine ⟨_, .take d n rest _ (by rw [Function.update_of_ne (Ne.symm hcd), hd]), ?_⟩
    have h := Acts.put c m (Function.update q d rest)
    rw [Function.update_of_ne hcd, Function.update_comm (Ne.symm hcd)] at h
    exact h

/-- **Effects at different seats commute.**  Two puts go to different channels, and two takes come
from different channels. -/
theorem Acts.comm {e₁ e₂ : Effect} {q q₁ q₂ : Queues} {g₁ r₁ g₂ r₂ : Nat}
    (h₁ : e₁.Acts q q₁) (h₂ : e₂.Acts q q₂) (at₁ : e₁.AtSeat g₁ r₁) (at₂ : e₂.AtSeat g₂ r₂)
    (hne : (g₁, r₁) ≠ (g₂, r₂)) : ∃ q', e₂.Acts q₁ q' ∧ e₁.Acts q₂ q' := by
  cases h₁ with
  | idle => exact ⟨q₂, h₂, .idle q₂⟩
  | put c m =>
    cases h₂ with
    | idle => exact ⟨_, .idle _, .put c m _⟩
    | put d n =>
      obtain ⟨rfl, rfl⟩ := at₁
      obtain ⟨rfl, rfl⟩ := at₂
      have hcd : c ≠ d := fun e => hne (by rw [e])
      refine ⟨_, .put d n _, ?_⟩
      have h := Acts.put c m (Function.update q d (q d ++ [n]))
      rw [Function.update_of_ne hcd, Function.update_comm hcd.symm] at h
      rw [Function.update_of_ne hcd.symm]
      exact h
    | take d n rest _ hd => exact (Acts.put c m q).comm_put_take (.take d n rest q hd)
  | take c m rest _ hc =>
    cases h₂ with
    | idle => exact ⟨_, .idle _, .take c m rest _ hc⟩
    | put d n =>
      obtain ⟨q', htake, hput⟩ := (Acts.put d n q).comm_put_take (.take c m rest q hc)
      exact ⟨q', hput, htake⟩
    | take d n rest' _ hd =>
      obtain ⟨rfl, rfl⟩ := at₁
      obtain ⟨rfl, rfl⟩ := at₂
      have hcd : c ≠ d := fun e => hne (by rw [e])
      refine ⟨_, .take d n rest' _ (by rw [Function.update_of_ne hcd.symm, hd]), ?_⟩
      rw [Function.update_comm hcd]
      exact .take c m rest _ (by rw [Function.update_of_ne hcd, hc])

/-! The operations on a mailbox are effects on its queues. -/

theorem acts_sweep (m : Mailbox) (c : Channel) : idle.Acts m.queue (m.sweep c).queue := by
  have hq : (m.sweep c).queue = m.queue := funext fun d => Mailbox.queue_sweep m c d
  rw [hq]
  exact .idle _

theorem acts_push (m : Mailbox) (c : Channel) (message : Bytes) :
    (put c message).Acts m.queue (m.push c message).queue := by
  have hq : (m.push c message).queue = Function.update m.queue c (m.queue c ++ [message]) := by
    funext d
    rw [Mailbox.queue_push, Function.update_apply]
    by_cases hd : d = c
    · subst hd
      simp
    · simp [hd, Ne.symm hd]
  rw [hq]
  exact .put _ _ _

theorem acts_pop {m rest : Mailbox} {c : Channel} {message : Bytes}
    (h : m.pop? c = some (message, rest)) : (take c message).Acts m.queue rest.queue := by
  have hq : rest.queue = Function.update m.queue c (rest.queue c) := by
    funext d
    rw [Function.update_apply]
    by_cases hd : d = c
    · rw [if_pos hd, hd]
    · rw [if_neg hd, Mailbox.queue_pop h d, if_neg (Ne.symm hd)]
  rw [hq]
  exact .take _ _ _ _ (by rw [Mailbox.queue_pop h, if_pos rfl])

end Effect

/-! ## 2. What a party offers -/

namespace Party

variable {α : Type}

/-- A party may move with an effect and be another party then.  A party that waits for a
message offers to take any message. -/
inductive Offers : Party α → Effect → Party α → Prop
  | sweep (p : Party α) (c : Channel) (busy : p.sweeping = some c) :
      Offers p .idle { p with sweeping := none }
  | send (p : Party α) (peer : Nat) (tag : Tag) (message : Bytes) (next : Routine α)
      (clear : p.sweeping = none) (doing : p.routine = .send peer tag message next) :
      Offers p (.put (p.outbound peer tag) message) { p with routine := next }
  | receive (p : Party α) (peer : Nat) (tag : Tag) (room : Nat)
      (next : Option Bytes → Routine α) (message : Bytes)
      (clear : p.sweeping = none) (doing : p.routine = .receive peer tag room next) :
      Offers p (.take (p.inbound peer tag) message)
        { p with
          sweeping := some (p.inbound peer tag)
          routine := next (some (message.take room)) }
  | interval (p : Party α) (task : String) (next : Routine α)
      (clear : p.sweeping = none) (doing : p.routine = .interval task next) :
      Offers p .idle { p with routine := next, intervals := p.intervals ++ [task] }

/-- The seat of a party among all groups. -/
def address (p : Party α) : Nat × Nat := (p.group, p.rank)

theorem Offers.address_eq {p p' : Party α} {e : Effect} (h : p.Offers e p') :
    p'.address = p.address := by
  cases h <;> rfl

theorem Offers.atSeat {p p' : Party α} {e : Effect} (h : p.Offers e p') :
    e.AtSeat p.group p.rank := by
  cases h <;> simp [Effect.AtSeat, outbound, inbound]

/-- What a party does is settled by the queues. -/
theorem Offers.unique {p p₁ p₂ : Party α} {e₁ e₂ : Effect} {q q₁ q₂ : Queues}
    (h₁ : p.Offers e₁ p₁) (a₁ : e₁.Acts q q₁) (h₂ : p.Offers e₂ p₂) (a₂ : e₂.Acts q q₂) :
    p₁ = p₂ ∧ q₁ = q₂ := by
  cases h₁ with
  | sweep c busy =>
    cases h₂ <;> cases a₁ <;> cases a₂ <;> simp_all
  | send peer tag message next clear doing =>
    cases h₂ <;> cases a₁ <;> cases a₂ <;> simp_all
  | receive peer tag room next message clear doing =>
    cases h₂ <;> cases a₁ <;> cases a₂ <;> simp_all
  | interval task next clear doing =>
    cases h₂ <;> cases a₁ <;> cases a₂ <;> simp_all

/-- A party with a value has nothing left to do. -/
theorem Offers.result?_eq_none {p p' : Party α} {e : Effect} (h : p.Offers e p') :
    p.result? = none := by
  cases h <;> simp_all [result?]

/-- A move over a mailbox is an offer, with its effect on the queues. -/
theorem exists_offers_of_move? {p p' : Party α} {m m' : Mailbox}
    (h : p.move? m = some (p', m')) : ∃ e, p.Offers e p' ∧ e.Acts m.queue m'.queue := by
  unfold move? at h
  split at h
  · next c hc =>
    simp only [Option.some.injEq, Prod.mk.injEq] at h
    obtain ⟨rfl, rfl⟩ := h
    exact ⟨.idle, .sweep p c hc, Effect.acts_sweep m c⟩
  · next clear =>
    split at h
    · simp at h
    · next peer tag message next doing =>
      simp only [Option.some.injEq, Prod.mk.injEq] at h
      obtain ⟨rfl, rfl⟩ := h
      exact ⟨_, .send p peer tag message next clear doing, Effect.acts_push m _ message⟩
    · next peer tag room next doing =>
      split at h
      · simp at h
      · next message rest hpop =>
        simp only [Option.some.injEq, Prod.mk.injEq] at h
        obtain ⟨rfl, rfl⟩ := h
        exact ⟨_, .receive p peer tag room next message clear doing, Effect.acts_pop hpop⟩
    · next task next doing =>
      simp only [Option.some.injEq, Prod.mk.injEq] at h
      obtain ⟨rfl, rfl⟩ := h
      exact ⟨.idle, .interval p task next clear doing, .idle _⟩

/-- An offer whose effect the queues admit is a move over the mailbox. -/
theorem exists_move?_of_offers {p p' : Party α} {e : Effect} {m : Mailbox} {q : Queues}
    (h : p.Offers e p') (a : e.Acts m.queue q) :
    ∃ m', p.move? m = some (p', m') ∧ m'.queue = q := by
  have moves : (p.move? m).isSome := by
    cases h with
    | sweep c busy => simp only [move?, busy, Option.isSome_some]
    | send peer tag message next clear doing =>
      simp only [move?, clear, doing, Option.isSome_some]
    | receive peer tag room next message clear doing =>
      cases a with
      | take _ _ rest _ hq =>
        cases hpop : m.pop? (p.inbound peer tag) with
        | none =>
          rw [Mailbox.pop?_eq_none_iff, hq] at hpop
          exact absurd hpop (by simp)
        | some found => simp only [move?, clear, doing, hpop, Option.isSome_some]
    | interval task next clear doing => simp only [move?, clear, doing, Option.isSome_some]
  obtain ⟨⟨p'', m'⟩, hm⟩ := Option.isSome_iff_exists.mp moves
  obtain ⟨e', h', a'⟩ := exists_offers_of_move? hm
  obtain ⟨rfl, rfl⟩ := h.unique a h' a'
  exact ⟨m', hm, rfl⟩

end Party

/-! ## 3. Views and their steps -/

/-- An ensemble with its queues as a function. -/
structure View (α : Type) where
  parties : List (Party α)
  queues : Queues

/-- What can be seen of an ensemble. -/
def Ensemble.view {α : Type} (s : Ensemble α) : View α := ⟨s.parties, s.mailbox.queue⟩

namespace View

variable {α : Type}

/-- A step of party `i`. -/
def StepBy (v : View α) (i : Nat) (w : View α) : Prop :=
  ∃ p p' e, v.parties[i]? = some p ∧ p.Offers e p' ∧ e.Acts v.queues w.queues ∧
    w.parties = v.parties.set i p'

/-- A step of some party. -/
def Step (v w : View α) : Prop := ∃ i, v.StepBy i w

/-- No two parties have the same seat. -/
def Distinct (v : View α) : Prop := (v.parties.map Party.address).Nodup

theorem StepBy.map_address {v w : View α} {i : Nat} (h : v.StepBy i w) :
    w.parties.map Party.address = v.parties.map Party.address := by
  obtain ⟨p, p', e, hp, ho, -, hw⟩ := h
  rw [hw, List.map_set, ho.address_eq]
  refine List.ext_getElem? fun j => ?_
  rw [List.getElem?_set]
  split
  · next hij =>
    subst hij
    rw [List.getElem?_map, hp]
    have hi : i < v.parties.length := (List.getElem?_eq_some_iff.mp hp).1
    simp [hi]
  · rfl

theorem StepBy.distinct {v w : View α} {i : Nat} (h : v.StepBy i w) (hv : v.Distinct) :
    w.Distinct := by
  rw [Distinct, h.map_address]
  exact hv

/-- A party has at most one step. -/
theorem StepBy.unique {v w₁ w₂ : View α} {i : Nat} (h₁ : v.StepBy i w₁) (h₂ : v.StepBy i w₂) :
    w₁ = w₂ := by
  obtain ⟨p, p₁, e₁, hp, ho₁, ha₁, hw₁⟩ := h₁
  obtain ⟨p', p₂, e₂, hp', ho₂, ha₂, hw₂⟩ := h₂
  obtain rfl : p = p' := Option.some.inj (hp.symm.trans hp')
  obtain ⟨rfl, hq⟩ := ho₁.unique ha₁ ho₂ ha₂
  cases w₁; cases w₂
  simp_all

/-- **Steps of different parties commute.** -/
theorem StepBy.comm {v w₁ w₂ : View α} {i j : Nat} (hv : v.Distinct) (hij : i ≠ j)
    (h₁ : v.StepBy i w₁) (h₂ : v.StepBy j w₂) : ∃ w, w₁.StepBy j w ∧ w₂.StepBy i w := by
  obtain ⟨p₁, p₁', e₁, hp₁, ho₁, ha₁, hw₁⟩ := h₁
  obtain ⟨p₂, p₂', e₂, hp₂, ho₂, ha₂, hw₂⟩ := h₂
  have seats : (p₁.group, p₁.rank) ≠ (p₂.group, p₂.rank) := by
    intro e
    have hi : (v.parties.map Party.address)[i]? = some p₁.address := by
      rw [List.getElem?_map, hp₁]; rfl
    have hj : (v.parties.map Party.address)[j]? = some p₁.address := by
      rw [List.getElem?_map, hp₂]; exact congrArg some e.symm
    have hlt : i < (v.parties.map Party.address).length := (List.getElem?_eq_some_iff.mp hi).1
    exact hij ((List.getElem?_inj hlt hv).mp (hi.trans hj.symm))
  obtain ⟨q, hq₂, hq₁⟩ := ha₁.comm ha₂ ho₁.atSeat ho₂.atSeat seats
  refine ⟨⟨(v.parties.set i p₁').set j p₂', q⟩, ?_, ?_⟩
  · refine ⟨p₂, p₂', e₂, ?_, ho₂, hq₂, by rw [hw₁]⟩
    rw [hw₁, List.getElem?_set_ne hij, hp₂]
  · refine ⟨p₁, p₁', e₁, ?_, ho₁, hq₁, by rw [hw₂, List.set_comm _ _ hij]⟩
    rw [hw₂, List.getElem?_set_ne (Ne.symm hij), hp₁]

/-- A step of the ensemble is a step of its view. -/
theorem stepBy_of_step? {s s' : Ensemble α} {i : Nat} (h : s.step? i = some s') :
    s.view.StepBy i s'.view := by
  unfold Ensemble.step? at h
  split at h
  · simp at h
  · next p hp =>
    split at h
    · simp at h
    · next p' m hm =>
      obtain rfl := Option.some.inj h
      obtain ⟨e, ho, ha⟩ := Party.exists_offers_of_move? hm
      exact ⟨p, p', e, hp, ho, ha, rfl⟩

/-- A step of the view is one of the ensemble. -/
theorem exists_step?_of_stepBy {s : Ensemble α} {w : View α} {i : Nat}
    (h : s.view.StepBy i w) : ∃ s', s.step? i = some s' ∧ s'.view = w := by
  obtain ⟨p, p', e, hp, ho, ha, hw⟩ := h
  obtain ⟨m, hm, hq⟩ := Party.exists_move?_of_offers ho ha
  have hp : s.parties[i]? = some p := hp
  refine ⟨⟨m, s.parties.set i p'⟩, by simp only [Ensemble.step?, hp, hm], ?_⟩
  cases w
  simp_all [Ensemble.view]

end View

end ShardedVector
