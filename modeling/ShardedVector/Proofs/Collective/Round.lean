/-
# Rounds of messages

A round is the shape that every collective is made of: each rank sends one message to each of
its targets and then hears from every rank in order, where it takes exactly what was sent to
it.  `converses_round` says what a round comes to, whoever the targets are and whatever is made
of the messages; a rank from which nothing comes must not be waited for.  `advances_round` says
how far a round gets when the ranks hear from some of the others only.

The two halves of a round for a single rank, `sendEach_acts` and `forEach_acts`, say which
queues change and how; `forEach_waits` stops at the first peer whose message has not come.
-/
import ShardedVector.Collective
import ShardedVector.Proofs.Ensemble.Conversation

namespace ShardedVector

/-! ## 1. Queues after one half of a round -/

namespace Queues

/-- A rank sent one message to each of several peers. -/
def sent (group rank : Nat) (tag : Tag) (message : Nat → Bytes) (ps : List Nat) (q : Queues) :
    Queues := fun c =>
  if c.group = group ∧ c.source = rank ∧ c.tag = tag ∧ c.target ∈ ps then
    q c ++ [message c.target]
  else q c

/-- A rank took everything that several peers had sent to it. -/
def heard (group rank : Nat) (tag : Tag) (ps : List Nat) (q : Queues) : Queues := fun c =>
  if c.group = group ∧ c.target = rank ∧ c.tag = tag ∧ c.source ∈ ps then [] else q c

theorem sent_nil (group rank : Nat) (tag : Tag) (message : Nat → Bytes) (q : Queues) :
    q.sent group rank tag message [] = q := by
  funext c
  simp [sent]

theorem sent_cons {group rank : Nat} {tag : Tag} {message : Nat → Bytes} {p : Nat}
    {ps : List Nat} (hp : p ∉ ps) (q : Queues) :
    q.sent group rank tag message (p :: ps) =
      sent group rank tag message ps
        (Function.update q ⟨group, rank, p, tag⟩ (q ⟨group, rank, p, tag⟩ ++ [message p])) := by
  funext ⟨g, s, t, u⟩
  simp only [sent, Function.update_apply, Channel.mk.injEq, List.mem_cons]
  by_cases ht : t = p
  · subst ht
    by_cases hc : g = group ∧ s = rank ∧ u = tag
    · obtain ⟨rfl, rfl, rfl⟩ := hc
      simp [hp]
    · have h₁ : ¬(g = group ∧ s = rank ∧ u = tag ∧ (t = t ∨ t ∈ ps)) := by tauto
      have h₂ : ¬(g = group ∧ s = rank ∧ t = t ∧ u = tag) := by tauto
      rw [if_neg h₁, if_neg h₂]
      simp [hp]
  · simp [ht]

/-- Queues in which the messages of others wait behind those that are there. -/
def followedBy (q later : Queues) : Queues := fun c => q c ++ later c

theorem none_followedBy (later : Queues) : none.followedBy later = later := rfl

theorem followedBy_none (q : Queues) : q.followedBy none = q :=
  funext fun _ => List.append_nil _

/-- What is sent goes behind everything. -/
theorem sent_followedBy (group rank : Nat) (tag : Tag) (message : Nat → Bytes) (ps : List Nat)
    (q later : Queues) :
    (q.followedBy later).sent group rank tag message ps =
      q.followedBy (later.sent group rank tag message ps) := by
  funext c
  simp only [sent, followedBy]
  split
  · rw [List.append_assoc]
  · rfl

theorem heard_nil (group rank : Nat) (tag : Tag) (q : Queues) :
    q.heard group rank tag [] = q := by
  funext c
  simp [heard]

/-- Who hears on a tag takes no payload that follows on the next one. -/
theorem heard_payload (group rank : Nat) (tag : Tag) (ps : List Nat) (q : Queues)
    (g p r : Nat) : q.heard group rank tag ps ⟨g, p, r, tag.payload⟩ = q ⟨g, p, r, tag.payload⟩ :=
  if_neg fun h => Tag.payload_ne tag h.2.2.1

theorem heard_cons (group rank : Nat) (tag : Tag) (p : Nat) (ps : List Nat) (q : Queues) :
    q.heard group rank tag (p :: ps) =
      heard group rank tag ps (Function.update q ⟨group, p, rank, tag⟩ []) := by
  funext ⟨g, s, t, u⟩
  simp only [heard, Function.update_apply, Channel.mk.injEq, List.mem_cons]
  by_cases hs : s = p
  · subst hs
    by_cases hc : g = group ∧ t = rank ∧ u = tag
    · obtain ⟨rfl, rfl, rfl⟩ := hc
      simp
    · have h₁ : ¬(g = group ∧ t = rank ∧ u = tag ∧ (s = s ∨ s ∈ ps)) := by tauto
      have h₂ : ¬(g = group ∧ s = s ∧ t = rank ∧ u = tag) := by tauto
      have h₃ : ¬(g = group ∧ t = rank ∧ u = tag ∧ s ∈ ps) := by tauto
      rw [if_neg h₁, if_neg h₂, if_neg h₃]
  · simp [hs]

end Queues

/-! ## 2. One half of a round -/

namespace Collective

section Halves

variable {α : Type} {group rank : Nat} {tag : Tag}

theorem sendEach_acts (message : Nat → Bytes) :
    ∀ {ps : List Nat}, ps.Nodup → ∀ q : Queues,
      Acts group rank (q, sendEach tag message ps)
        (q.sent group rank tag message ps, .finish ())
  | [], _, q => by
    rw [Queues.sent_nil]
    exact .refl _
  | p :: ps, hnd, q => by
    obtain ⟨hp, hps⟩ := List.nodup_cons.mp hnd
    rw [Queues.sent_cons hp]
    exact (Act.send q p tag (message p) (sendEach tag message ps)).acts.trans
      (sendEach_acts message hps _)

theorem sendEach_congr {message message' : Nat → Bytes} :
    ∀ {ps : List Nat}, (∀ p ∈ ps, message p = message' p) →
      sendEach tag message ps = sendEach tag message' ps
  | [], _ => rfl
  | p :: ps, h => by
    rw [sendEach, sendEach, h p (by simp), sendEach_congr fun p' hp' => h p' (by simp [hp'])]

theorem forEach_congr {routine routine' : Nat → Routine (Except Error α)} :
    ∀ {ps : List Nat}, (∀ p ∈ ps, routine p = routine' p) →
      forEach routine ps = forEach routine' ps
  | [], _ => rfl
  | p :: ps, h => by
    rw [forEach, forEach, h p (by simp), forEach_congr fun p' hp' => h p' (by simp [hp'])]

/-- Hearing from each peer of a list empties the queues of all of them, provided that hearing
from one of them empties its queue. -/
theorem forEach_acts (routine : Nat → Routine (Except Error α)) (value : Nat → Except Error α) :
    ∀ {ps : List Nat}, ps.Nodup → ∀ q : Queues,
      (∀ p ∈ ps, ∀ q' : Queues, q' ⟨group, p, rank, tag⟩ = q ⟨group, p, rank, tag⟩ →
        Acts group rank (q', routine p)
          (Function.update q' ⟨group, p, rank, tag⟩ [], .finish (value p))) →
      Acts group rank (q, forEach routine ps)
        (q.heard group rank tag ps, .finish (ps.mapM value))
  | [], _, q, _ => by
    rw [Queues.heard_nil]
    exact .refl _
  | p :: ps, hnd, q, h => by
    obtain ⟨hp, hps⟩ := List.nodup_cons.mp hnd
    have hrest := forEach_acts routine value hps
      (Function.update q ⟨group, p, rank, tag⟩ []) fun p' hp' q' hq' => by
        have hne : p' ≠ p := fun e => hp (e ▸ hp')
        refine h p' (List.mem_cons_of_mem p hp') q' (hq'.trans ?_)
        exact Function.update_of_ne (by simp [hne]) _ _
    rw [Queues.heard_cons, List.mapM_cons]
    exact ((h p (by simp) q rfl).bind_finish _).trans (hrest.bind_finish _)

end Halves

/-- Hearing from the peers of a list up to one whose message is waited for: the queues of the
peers before it are empty then. -/
theorem forEach_waits {α : Type} (group rank : Nat) {tag : Tag}
    (routine : Nat → Routine (Except Error α)) (value : Nat → Except Error α) {p : Nat}
    (after : List Nat) (waits : ∃ room next, routine p = .receive p tag room next) :
    ∀ {before : List Nat}, before.Nodup →
      ∃ room next, ∀ q : Queues,
        (∀ b ∈ before, ∀ q' : Queues, q' ⟨group, b, rank, tag⟩ = q ⟨group, b, rank, tag⟩ →
          Acts group rank (q', routine b)
            (Function.update q' ⟨group, b, rank, tag⟩ [], .finish (value b))) →
        Acts group rank (q, forEach routine (before ++ p :: after))
          (q.heard group rank tag before, .receive p tag room next)
  | [], _ => by
    obtain ⟨room, next, hp⟩ := waits
    refine ⟨room, fun answer => next answer >>= fun first => forEach routine after >>= fun others =>
      .finish (do
        let a ← first
        let as ← others
        return a :: as), fun q _ => ?_⟩
    rw [Queues.heard_nil, List.nil_append, forEach, hp]
    exact .refl _
  | b :: before, hnd => by
    obtain ⟨hb, hbefore⟩ := List.nodup_cons.mp hnd
    obtain ⟨room, next, hrest⟩ := forEach_waits group rank routine value after waits hbefore
    refine ⟨room, fun answer => next answer >>= fun others =>
      .finish (do
        let a ← value b
        let as ← others
        return a :: as), fun q h => ?_⟩
    have hothers := hrest (Function.update q ⟨group, b, rank, tag⟩ []) fun b' hb' q' hq' => by
      have hne : b' ≠ b := fun e => hb (e ▸ hb')
      refine h b' (List.mem_cons_of_mem b hb') q' (hq'.trans ?_)
      exact Function.update_of_ne (by simp [hne]) _ _
    rw [Queues.heard_cons]
    exact ((h b (by simp) q rfl).bind_finish _).trans (hothers.bind _)

/-! ## 3. Rounds -/

section Round

variable {α β : Type} (group size : Nat) (tag : Tag)

/-- What the ranks below `k` sent in a round. -/
def sentBelow (targets : Nat → List Nat)
    (message : Nat → Nat → Bytes) (k : Nat) : Queues := fun c =>
  if c.group = group ∧ c.tag = tag ∧ c.source < k ∧ c.target ∈ targets c.source then
    [message c.source c.target]
  else []

/-- What is left of it when the ranks below `k` have heard, each from its own list of ranks. -/
def unheardFrom (targets : Nat → List Nat) (message : Nat → Nat → Bytes)
    (heard : Nat → List Nat) (k : Nat) : Queues := fun c =>
  if c.target < k ∧ c.source ∈ heard c.target then []
  else sentBelow group tag targets message size c

theorem sentBelow_zero (targets : Nat → List Nat) (message : Nat → Nat → Bytes) :
    sentBelow group tag targets message 0 = Queues.none := by
  funext c
  simp [sentBelow, Queues.none]

theorem sentBelow_succ (targets : Nat → List Nat)
    (message : Nat → Nat → Bytes) (k : Nat) :
    sentBelow group tag targets message (k + 1) =
      (sentBelow group tag targets message k).sent group k tag (message k) (targets k) := by
  funext ⟨g, s, t, u⟩
  simp only [sentBelow, Queues.sent]
  by_cases hs : s = k
  · subst hs
    by_cases hc : g = group ∧ u = tag <;> simp [hc]
  · have h₁ : s < k + 1 ↔ s < k := by omega
    simp [hs, h₁]

theorem unheardFrom_zero (targets : Nat → List Nat) (message : Nat → Nat → Bytes)
    (heard : Nat → List Nat) :
    unheardFrom group size tag targets message heard 0 =
      sentBelow group tag targets message size := by
  funext c
  simp [unheardFrom]

theorem unheardFrom_succ (targets : Nat → List Nat) (message : Nat → Nat → Bytes)
    (heard : Nat → List Nat) (k : Nat) :
    unheardFrom group size tag targets message heard (k + 1) =
      (unheardFrom group size tag targets message heard k).heard group k tag (heard k) := by
  funext ⟨g, s, t, u⟩
  simp only [unheardFrom, Queues.heard]
  by_cases ht : t = k
  · subst ht
    by_cases hs : s ∈ heard t
    · by_cases hc : g = group ∧ u = tag
      · obtain ⟨rfl, rfl⟩ := hc
        simp [hs]
      · have h₁ : ¬(g = group ∧ u = tag ∧ s < size ∧ t ∈ targets s) := by tauto
        simp [sentBelow, h₁]
    · simp [hs]
  · have h₁ : t < k + 1 ↔ t < k := by omega
    simp [ht, h₁]

/-- **A round**, in which rank `r` sends to `targets r` and hears from `heard r`.  All of them send
before any of them hears; a rank need not come to a value. -/
theorem advances_round (begins waiting ends : Nat → Routine β) (targets : Nat → List Nat)
    (message : Nat → Nat → Bytes) (heard : Nat → List Nat)
    (sends : ∀ r < size, ∀ q : Queues,
      Acts group r (q, begins r) (q.sent group r tag (message r) (targets r), waiting r))
    (hears : ∀ r < size, ∀ q : Queues,
      (∀ p < size, q ⟨group, p, r, tag⟩ = if r ∈ targets p then [message p r] else []) →
      Acts group r (q, waiting r) (q.heard group r tag (heard r), ends r)) :
    Advances group (Queues.none, fun r : Fin size => begins r)
      (unheardFrom group size tag targets message heard size, fun r : Fin size => ends r) := by
  have sending : Advances group
      (sentBelow group tag targets message 0, fun r : Fin size => begins r)
      (sentBelow group tag targets message size, fun r : Fin size => waiting r) :=
    advances_in_turn (sentBelow group tag targets message) begins waiting fun r hr => by
      rw [sentBelow_succ]
      exact sends r hr _
  have hearing : Advances group
      (unheardFrom group size tag targets message heard 0, fun r : Fin size => waiting r)
      (unheardFrom group size tag targets message heard size, fun r : Fin size => ends r) :=
    advances_in_turn (unheardFrom group size tag targets message heard) waiting ends
      fun r hr => by
        rw [unheardFrom_succ]
        exact hears r hr _ fun p hp => by simp [unheardFrom, sentBelow, hp]
  rw [sentBelow_zero] at sending
  rw [unheardFrom_zero] at hearing
  exact sending.trans hearing

/-- **A round that all ranks complete.**  `targets r` are the ranks that rank `r` sends to.
Hearing from rank `p` must take what `p` sent to the rank, which is one message or none. -/
theorem converses_round (targets : Nat → List Nat) (message : Nat → Nat → Bytes)
    (routine : Nat → Nat → Routine (Except Error α)) (value : Nat → Nat → Except Error α)
    (nodup : ∀ r < size, (targets r).Nodup) (inside : ∀ r < size, ∀ p ∈ targets r, p < size)
    (hears : ∀ r < size, ∀ p < size, ∀ q : Queues,
      q ⟨group, p, r, tag⟩ = (if r ∈ targets p then [message p r] else []) →
      Acts group r (q, routine r p)
        (Function.update q ⟨group, p, r, tag⟩ [], .finish (value r p))) :
    Converses group size
      (fun r => do
        sendEach tag (message r) (targets r)
        forEach (routine r) (List.range size))
      (fun r => (List.range size).mapM (value r)) := by
  have hround := advances_round group size tag
    (fun r => do
      sendEach tag (message r) (targets r)
      forEach (routine r) (List.range size))
    (fun r => forEach (routine r) (List.range size))
    (fun r => .finish ((List.range size).mapM (value r)))
    targets message (fun _ => List.range size)
    (fun r hr q => (sendEach_acts (message r) (nodup r hr) q).bind_finish _)
    (fun r hr q hq => forEach_acts (routine r) (value r) List.nodup_range q fun p hp q' hq' =>
      hears r hr p (List.mem_range.mp hp) q' (hq'.trans (hq p (List.mem_range.mp hp))))
  have ends : unheardFrom group size tag targets message (fun _ => List.range size) size =
      Queues.none := by
    funext c
    simp only [unheardFrom, sentBelow, Queues.none, List.mem_range]
    split
    · rfl
    · next hheard =>
      refine if_neg fun h => ?_
      exact hheard ⟨inside _ h.2.2.1 _ h.2.2.2, h.2.2.1⟩
  rw [ends] at hround
  exact hround

end Round

end Collective

end ShardedVector
