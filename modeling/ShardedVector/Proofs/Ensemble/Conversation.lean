/-
# Conversations

The one order of turns that `Ensemble.rests_of_reaches` asks for is put together here, and in
the same pieces as the routines themselves.

* `Act` is one action of one rank on the queues; a message that is taken is swept at once.
* `Advance` is an action of some rank of a group.
* `Converses group size routine values` says that the ranks of a group, from queues without a
  message, can act until rank `r` has ended with `values r` and no message is left.

`Converses.bind` runs one conversation after the other, and `advances_in_turn` lets the ranks
act one after the other, each as far as it gets.  `Converses.concludes` takes a conversation
back to the mailbox and to every interleaving; `Advances.rests` does the same for a group some
of whose ranks wait in vain, or which leaves messages behind.
-/
import Mathlib.Data.List.FinRange
import ShardedVector.Proofs.Ensemble.Conclusion

namespace ShardedVector

open Relation

/-! ## 1. Actions of one rank -/

/-- One action of a rank that has a routine to run.  A message that is taken is swept at
once. -/
inductive Act {α : Type} (group rank : Nat) :
    Queues × Routine α → Queues × Routine α → Prop
  | send (q : Queues) (peer : Nat) (tag : Tag) (message : Bytes) (next : Routine α) :
      Act group rank (q, .send peer tag message next)
        (Function.update q ⟨group, rank, peer, tag⟩ (q ⟨group, rank, peer, tag⟩ ++ [message]),
          next)
  | receive (q : Queues) (peer : Nat) (tag : Tag) (room : Nat)
      (next : Option Bytes → Routine α) (message : Bytes) (rest : List Bytes)
      (waits : q ⟨group, peer, rank, tag⟩ = message :: rest) :
      Act group rank (q, .receive peer tag room next)
        (Function.update q ⟨group, peer, rank, tag⟩ rest, next (some (message.take room)))
  | interval (q : Queues) (task : String) (next : Routine α) :
      Act group rank (q, .interval task next) (q, next)

/-- Any number of actions of a rank. -/
def Acts {α : Type} (group rank : Nat) (x y : Queues × Routine α) : Prop :=
  ReflTransGen (Act group rank) x y

section Acts

variable {α β : Type} {group rank : Nat}

theorem Acts.refl (x : Queues × Routine α) : Acts group rank x x := ReflTransGen.refl

theorem Acts.trans {x y z : Queues × Routine α} (h : Acts group rank x y)
    (h' : Acts group rank y z) : Acts group rank x z := ReflTransGen.trans h h'

theorem Act.acts {x y : Queues × Routine α} (h : Act group rank x y) : Acts group rank x y :=
  ReflTransGen.single h

theorem Act.bind {x y : Queues × Routine α} (h : Act group rank x y) (f : α → Routine β) :
    Act group rank (x.1, x.2 >>= f) (y.1, y.2 >>= f) := by
  cases h with
  | send q peer tag message next => exact .send q peer tag message _
  | receive q peer tag room next message rest waits =>
    exact .receive q peer tag room _ message rest waits
  | interval q task next => exact .interval q task _

/-- A rank that waits for the whole of a message takes it, and nothing else of its peer waits
then. -/
theorem Acts.receive {q : Queues} {peer : Nat} {tag : Tag} {message : Bytes}
    (h : q ⟨group, peer, rank, tag⟩ = [message]) (read : Option Bytes → α) :
    Acts group rank (q, .receive peer tag message.length fun answer => .finish (read answer))
      (Function.update q ⟨group, peer, rank, tag⟩ [], .finish (read (some message))) := by
  have hact : Act group rank
      (q, .receive peer tag message.length fun answer => .finish (read answer))
      (Function.update q ⟨group, peer, rank, tag⟩ [],
        .finish (read (some (message.take message.length)))) :=
    .receive q peer tag message.length _ message [] h
  rw [List.take_length] at hact
  exact hact.acts

/-- What a rank does first it does whatever follows. -/
theorem Acts.bind {q q' : Queues} {x y : Routine α} (h : Acts group rank (q, x) (q', y))
    (f : α → Routine β) : Acts group rank (q, x >>= f) (q', y >>= f) :=
  ReflTransGen.lift (fun s : Queues × Routine α => (s.1, s.2 >>= f)) (fun _ _ h => h.bind f)
    _ _ h

/-- A rank that comes to a value goes on with it. -/
theorem Acts.bind_finish {q q' : Queues} {x : Routine α} {a : α}
    (h : Acts group rank (q, x) (q', .finish a)) (f : α → Routine β) :
    Acts group rank (q, x >>= f) (q', f a) := h.bind f

end Acts

/-! ## 2. Actions of a group -/

/-- An action of some rank of a group. -/
inductive Advance {α : Type} (group : Nat) {size : Nat} :
    Queues × (Fin size → Routine α) → Queues × (Fin size → Routine α) → Prop
  | ofRank {q q' : Queues} {rs : Fin size → Routine α} {x : Routine α} (r : Fin size)
      (h : Act group r (q, rs r) (q', x)) : Advance group (q, rs) (q', Function.update rs r x)

/-- Any number of actions of the ranks of a group. -/
def Advances {α : Type} (group : Nat) {size : Nat}
    (x y : Queues × (Fin size → Routine α)) : Prop := ReflTransGen (Advance group) x y

/-- **A conversation that comes to an end.**  From queues without a message the ranks can act
until each has its value, and leave no message. -/
def Converses {α : Type} (group size : Nat) (routine : Nat → Routine α) (values : Nat → α) :
    Prop :=
  Advances group (Queues.none, fun r : Fin size => routine r)
    (Queues.none, fun r : Fin size => .finish (values r))

section Advances

variable {α β : Type} {group size : Nat}

/-- What one rank does is done by the group. -/
theorem Acts.advances {q q' : Queues} {rs : Fin size → Routine α} {x : Routine α} (r : Fin size)
    (h : Acts group r (q, rs r) (q', x)) :
    Advances group (q, rs) (q', Function.update rs r x) := by
  have all : ∀ y : Queues × Routine α, Acts group r (q, rs r) y →
      Advances group (q, rs) (y.1, Function.update rs r y.2) := by
    intro y hy
    induction hy with
    | refl =>
      rw [Function.update_eq_self]
      exact ReflTransGen.refl
    | @tail y z _ hyz ih =>
      have hstep : Advance group (y.1, Function.update rs r y.2)
          (z.1, Function.update (Function.update rs r y.2) r z.2) :=
        .ofRank r (by rw [Function.update_self]; exact hyz)
      rw [Function.update_idem] at hstep
      exact ih.tail hstep
  exact all (q', x) h

/-- **Ranks may act one after the other**: rank `r` from the queues that the lower ranks leave
to those that the next one finds. -/
theorem advances_in_turn (Q : Nat → Queues) (rs rs' : Nat → Routine α)
    (h : ∀ r < size, Acts group r (Q r, rs r) (Q (r + 1), rs' r)) :
    Advances group (Q 0, fun r : Fin size => rs r) (Q size, fun r : Fin size => rs' r) := by
  have upTo : ∀ k ≤ size, Advances group (Q 0, fun r : Fin size => rs r)
      (Q k, fun r : Fin size => if r.val < k then rs' r else rs r) := by
    intro k
    induction k with
    | zero =>
      intro _
      simp only [Nat.not_lt_zero, if_false]
      exact ReflTransGen.refl
    | succ k ih =>
      intro hk
      refine (ih (by omega)).trans ?_
      have hact := h k (by omega)
      have hadv : Advances group
          (Q k, fun r : Fin size => if r.val < k then rs' r else rs r)
          (Q (k + 1), Function.update (fun r : Fin size => if r.val < k then rs' r else rs r)
            ⟨k, by omega⟩ (rs' k)) := Acts.advances ⟨k, by omega⟩ (by simpa using hact)
      have hupd : Function.update (fun r : Fin size => if r.val < k then rs' r else rs r)
          ⟨k, by omega⟩ (rs' k) = fun r : Fin size => if r.val < k + 1 then rs' r else rs r := by
        funext r
        rw [Function.update_apply]
        by_cases hr : r.val = k
        · rw [if_pos (Fin.ext hr), if_pos (by omega), hr]
        · rw [if_neg fun e => hr (congrArg Fin.val e)]
          have : r.val < k ↔ r.val < k + 1 := by omega
          simp only [this]
      rw [hupd] at hadv
      exact hadv
  have hall := upTo size (Nat.le_refl _)
  simpa only [Fin.is_lt, if_true] using hall

theorem Advances.bind {q q' : Queues} {rs rs' : Fin size → Routine α}
    (h : Advances group (q, rs) (q', rs')) (f : Fin size → α → Routine β) :
    Advances group (q, fun r => rs r >>= f r) (q', fun r => rs' r >>= f r) := by
  refine ReflTransGen.lift
    (fun s : Queues × (Fin size → Routine α) => (s.1, fun r => s.2 r >>= f r)) ?_ _ _ h
  rintro _ _ @⟨q₁, q₂, rs₁, x, r, hact⟩
  have hstep : Advance group (q₁, fun i => rs₁ i >>= f i)
      (q₂, Function.update (fun i => rs₁ i >>= f i) r (x >>= f r)) :=
    .ofRank r (hact.bind (f r))
  have hupd : Function.update (fun i => rs₁ i >>= f i) r (x >>= f r) =
      fun i => Function.update rs₁ r x i >>= f i := by
    funext i
    by_cases hi : i = r
    · subst hi; simp
    · simp [Function.update_of_ne hi]
  rw [hupd] at hstep
  exact hstep

/-! ## 3. Conversations from conversations -/

namespace Converses

theorem finish (group size : Nat) (values : Nat → α) :
    Converses group size (fun r => .finish (values r)) values := ReflTransGen.refl

theorem congr {routine routine' : Nat → Routine α} {values values' : Nat → α}
    (h : Converses group size routine values) (hr : ∀ r < size, routine' r = routine r)
    (hv : ∀ r < size, values' r = values r) : Converses group size routine' values' := by
  have h₁ : (fun r : Fin size => routine' r) = fun r : Fin size => routine r :=
    funext fun r => hr r r.isLt
  have h₂ : (fun r : Fin size => (.finish (values' r) : Routine α)) =
      fun r : Fin size => .finish (values r) := funext fun r => by rw [hv r r.isLt]
  rw [Converses, h₁, h₂]
  exact h

theorem of_eq {routine routine' : Nat → Routine α} {values : Nat → α}
    (h : Converses group size routine values) (hr : ∀ r < size, routine' r = routine r) :
    Converses group size routine' values := h.congr hr fun _ _ => rfl

/-- **One conversation after the other.** -/
theorem bind {routine : Nat → Routine α} {values : Nat → α} {f : Nat → α → Routine β}
    {results : Nat → β} (h : Converses group size routine values)
    (hf : Converses group size (fun r => f r (values r)) results) :
    Converses group size (fun r => routine r >>= f r) results :=
  (Advances.bind h fun r : Fin size => f r).trans hf

/-- Notes of some of the ranks that an interval has ended change no value. -/
theorem noted {routine : Nat → Routine α} {values : Nat → α} (notes : Nat → Bool)
    (task : String) (h : Converses group size routine values) :
    Converses group size
      (fun r => if notes r then .interval task (routine r) else routine r) values := by
  have hnote : Advances group
      (Queues.none, fun r : Fin size =>
        if notes r then .interval task (routine r) else routine r)
      (Queues.none, fun r : Fin size => routine r) := by
    refine advances_in_turn (fun _ => Queues.none)
      (fun r => if notes r then .interval task (routine r) else routine r) routine fun r _ => ?_
    by_cases hr : notes r
    · rw [if_pos hr]
      exact (Act.interval _ task (routine r)).acts
    · rw [if_neg hr]
      exact .refl _
  exact hnote.trans h

/-- Attempts that all succeed are followed by the next ones. -/
theorem bind_ok {a : Nat → Attempt α} {values : Nat → α} {f : Nat → α → Attempt β}
    {results : Nat → Except Error β}
    (h : Converses group size (fun r => (a r).outcome) fun r => .ok (values r))
    (hf : Converses group size (fun r => (f r (values r)).outcome) results) :
    Converses group size (fun r => (a r >>= f r).outcome) results :=
  Converses.bind h hf

end Converses

end Advances

/-! ## 4. From conversations to interleavings -/

section Concludes

variable {α : Type} {group size : Nat}

/-- An action of party `i` in steps of the view: a receive is followed by its sweep. -/
theorem Act.reaches {v : View α} {i rank : Nat} {x x' : Routine α} {q' : Queues}
    {log : List String} (hi : v.parties[i]? = some ⟨group, rank, none, x, log⟩)
    (h : Act group rank (v.queues, x) (q', x')) :
    ∃ log', v.Reaches ⟨v.parties.set i ⟨group, rank, none, x', log'⟩, q'⟩ := by
  have hlt : i < v.parties.length := (List.getElem?_eq_some_iff.mp hi).1
  cases h with
  | send _ peer tag message next =>
    refine ⟨log, .single ⟨i, _, _, _, hi, .send _ peer tag message _ rfl rfl, ?_, rfl⟩⟩
    exact .put _ _ _
  | interval _ task next =>
    exact ⟨log ++ [task],
      .single ⟨i, _, _, _, hi, .interval _ task _ rfl rfl, .idle _, rfl⟩⟩
  | receive _ peer tag room next message rest waits =>
    have htake : v.StepBy i ⟨v.parties.set i ⟨group, rank, some ⟨group, peer, rank, tag⟩,
        next (some (message.take room)), log⟩,
        Function.update v.queues ⟨group, peer, rank, tag⟩ rest⟩ :=
      ⟨_, _, _, hi, .receive _ peer tag room next message rfl rfl, .take _ _ rest _ waits, rfl⟩
    refine ⟨log, .tail (.single ⟨i, htake⟩) ⟨i, _, _, _, ?_, .sweep ⟨group, rank, some
      ⟨group, peer, rank, tag⟩, next (some (message.take room)), log⟩ _ rfl, .idle _, ?_⟩⟩
    · exact List.getElem?_set_self hlt
    · rw [List.set_set]

/-- The parties of a group between two actions. -/
def partiesOf (group : Nat) {size : Nat} (rs : Fin size → Routine α)
    (logs : Fin size → List String) : List (Party α) :=
  List.ofFn fun r : Fin size => ⟨group, r, none, rs r, logs r⟩

theorem set_partiesOf {rs : Fin size → Routine α} {logs : Fin size → List String}
    (r : Fin size) (x : Routine α) (log : List String) :
    (partiesOf group rs logs).set r ⟨group, r, none, x, log⟩ =
      partiesOf group (Function.update rs r x) (Function.update logs r log) := by
  refine List.ext_getElem (by simp [partiesOf]) fun i h₁ h₂ => ?_
  rw [List.getElem_set]
  by_cases hi : r.val = i
  · subst hi; simp [partiesOf]
  · have hne : (⟨i, by simpa [partiesOf] using h₂⟩ : Fin size) ≠ r := fun e => hi (by rw [← e])
    simp [partiesOf, hi, Function.update_of_ne hne]

theorem Advances.reaches {q q' : Queues} {rs rs' : Fin size → Routine α}
    (logs : Fin size → List String) (h : Advances group (q, rs) (q', rs')) :
    ∃ logs', View.Reaches ⟨partiesOf group rs logs, q⟩ ⟨partiesOf group rs' logs', q'⟩ := by
  have all : ∀ y : Queues × (Fin size → Routine α), Advances group (q, rs) y →
      ∃ logs', View.Reaches ⟨partiesOf group rs logs, q⟩ ⟨partiesOf group y.2 logs', y.1⟩ := by
    intro y hy
    induction hy with
    | refl => exact ⟨logs, .refl⟩
    | tail _ hstep ih =>
      obtain ⟨logs', hreach⟩ := ih
      cases hstep with
      | @ofRank q₁ q₂ rs₁ x r hact =>
        have hr : (partiesOf group rs₁ logs')[r.val]? = some ⟨group, r, none, rs₁ r, logs' r⟩ := by
          simp [partiesOf]
        obtain ⟨log, hmore⟩ := Act.reaches (v := ⟨partiesOf group rs₁ logs', q₁⟩) hr hact
        rw [set_partiesOf] at hmore
        exact ⟨_, hreach.trans hmore⟩
  exact all (q', rs') h

theorem Ensemble.view_ofGroup (group size : Nat) (routine : Nat → Routine α) :
    (Ensemble.ofGroup group size routine).view =
      ⟨partiesOf group (fun r : Fin size => routine r) (fun _ => []), Queues.none⟩ := by
  have hp : (List.range size).map (fun r => Party.start group r (routine r)) =
      partiesOf group (fun r : Fin size => routine r) (fun _ => []) :=
    List.ext_getElem (by simp [partiesOf]) fun i _ _ => by simp [partiesOf, Party.start]
  rw [Ensemble.view, Ensemble.ofGroup, hp]
  rfl

theorem View.distinct_partiesOf (rs : Fin size → Routine α) (logs : Fin size → List String)
    (q : Queues) : View.Distinct ⟨partiesOf group rs logs, q⟩ := by
  rw [View.Distinct, partiesOf, List.map_ofFn, List.nodup_ofFn]
  intro r r' h
  exact Fin.ext (congrArg Prod.snd h)

/-- A rank at rest, and what it ends with: it has finished, or it waits for a message that is not
there. -/
inductive Resting (group rank : Nat) (q : Queues) : Routine α → Option α → Prop
  | finished (a : α) : Resting group rank q (.finish a) (some a)
  | waits (peer : Nat) (tag : Tag) (room : Nat) (next : Option Bytes → Routine α)
      (empty : q ⟨group, peer, rank, tag⟩ = []) :
      Resting group rank q (.receive peer tag room next) none

theorem Resting.result? {r : Nat} {q : Queues} {x : Routine α} {o : Option α} {log : List String}
    (h : Resting group r q x o) : Party.result? ⟨group, r, none, x, log⟩ = o := by
  cases h <;> rfl

theorem View.stuck_of_resting {rs : Fin size → Routine α} {q : Queues} {outcome : Nat → Option α}
    (logs : Fin size → List String) (h : ∀ r : Fin size, Resting group r q (rs r) (outcome r)) :
    View.Stuck ⟨partiesOf group rs logs, q⟩ := by
  rintro ⟨ps, q'⟩ ⟨i, p, p', e, hp, ho, ha, -⟩
  obtain ⟨r, rfl⟩ : ∃ r : Fin size, p = ⟨group, r, none, rs r, logs r⟩ := by
    obtain ⟨r, hr⟩ := List.mem_ofFn.mp (List.mem_of_getElem? hp)
    exact ⟨r, hr.symm⟩
  have hrest := h r
  generalize rs r = x at ho hrest
  generalize outcome r = o at hrest
  cases hrest with
  | finished a => exact absurd ho.result?_eq_none (by simp [Party.result?])
  | waits peer tag room next empty =>
    cases ho with
    | sweep c busy => simp at busy
    | send _ _ _ _ _ doing => simp at doing
    | interval _ _ _ doing => simp at doing
    | receive _ _ _ _ message _ doing =>
      obtain ⟨rfl, rfl, -, -⟩ := Routine.receive.inj doing
      cases ha with
      | take _ _ _ _ hq =>
        exact absurd (empty.symm.trans hq) (by simp)

/-- **A group that can act until every rank is at rest comes to rest there under every
interleaving.** -/
theorem Advances.rests {routine : Nat → Routine α} {rs : Fin size → Routine α} {q : Queues}
    {outcome : Nat → Option α}
    (h : Advances group (Queues.none, fun r : Fin size => routine r) (q, rs))
    (hrest : ∀ r : Fin size, Resting group r q (rs r) (outcome r)) :
    (Ensemble.ofGroup group size routine).Rests ((List.range size).map outcome) q := by
  obtain ⟨logs, hreach⟩ := Advances.reaches (fun _ => []) h
  rw [← Ensemble.view_ofGroup] at hreach
  have hrests := Ensemble.rests_of_reaches
    (by rw [Ensemble.view_ofGroup]; exact View.distinct_partiesOf _ _ _) hreach
    (View.stuck_of_resting logs hrest)
  have houtcomes : (partiesOf group rs logs).map Party.result? = (List.range size).map outcome :=
    List.ext_getElem (by simp [partiesOf]) fun i hi _ => by
      have hi : i < size := by simpa [partiesOf] using hi
      simpa [partiesOf] using (hrest ⟨i, hi⟩).result?
  rwa [houtcomes] at hrests

/-- **A conversation that can come to an end concludes under every interleaving.** -/
theorem Converses.concludes {routine : Nat → Routine α} {values : Nat → α}
    (h : Converses group size routine values) :
    (Ensemble.ofGroup group size routine).Concludes ((List.range size).map values) := by
  have hrests : (Ensemble.ofGroup group size routine).Rests
      ((List.range size).map fun r => some (values r)) Queues.none :=
    Advances.rests h fun r => .finished (values r)
  refine Ensemble.concludes_of_rests ?_
  rwa [List.map_map]

/-- All ranks may come to the same value. -/
theorem Converses.concludes_replicate {routine : Nat → Routine α} {value : α}
    (h : Converses group size routine fun _ => value) :
    (Ensemble.ofGroup group size routine).Concludes (List.replicate size value) := by
  have hconcludes := h.concludes
  rwa [List.map_const', List.length_range] at hconcludes

end Concludes

end ShardedVector
