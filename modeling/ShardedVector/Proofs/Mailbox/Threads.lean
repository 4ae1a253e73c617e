/-
# Threads that share a mailbox

Any number of threads push messages, wait for messages and remove emptied queues, one atomic step
at a time and in any order.  A wait is two such steps: one turn of it takes the first message of its
queue, and a later one removes the queue if nothing is left in it; other threads may come between
the two.  `PostOffice` is the mailbox with its threads, and it keeps a record of what was pushed and
of what the waits took.

* `PostOffice.InOrder` is what every step keeps: on each channel the messages that were taken,
  followed by the messages that wait, are the messages that were pushed.
* `PostOffice.Swept` is the other invariant: an empty queue is one that some thread has yet to
  sweep.
* `PostOffice.step_of_channel?_ne`: a step leaves every channel but its own alone.
* `PostOffice.poll_eq_next`: a turn of a wait takes the first message that no wait has taken yet,
  whatever handle it is for and however much of the message before it was cut off.
* `first_in_first_out` says it of every interleaving and every channel, and that the ranks of an
  ensemble are such threads.
-/
import Mathlib.Logic.Function.Basic
import ShardedVector.Ensemble.Basic

namespace ShardedVector

/-! ## 1. Threads and their steps -/

/-- What a thread can do in one atomic step.  To ask for a message is to keep a handle; the wait on
it is for the `k`-th handle that the thread has. -/
inductive ThreadStep where
  | ask (h : Handle)
  | push (c : Channel) (message : Bytes)
  | poll (k : Nat)
  | sweep
deriving DecidableEq

/-- A thread: the handles it asked for, in that order, and the queue it has yet to sweep. -/
structure Thread where
  asked : List Handle
  sweeping : Option Channel

/-- A wait that took a message: who waited, on which handle, and the message as it was pushed. -/
structure Receipt where
  thread : Nat
  handle : Handle
  message : Bytes
deriving DecidableEq

/-- What the wait returns to the thread: as much of the message as there is room for. -/
def Receipt.returned (r : Receipt) : Bytes := r.message.take r.handle.room

/-- A mailbox and the threads that share it, any number of them, with a record of what was pushed
and of what was taken. -/
structure PostOffice where
  mailbox : Mailbox
  threads : Nat → Thread
  pushed : List (Channel × Bytes)
  taken : List Receipt

namespace PostOffice

/-- Threads that have done nothing yet. -/
def opening : PostOffice := ⟨.empty, fun _ => ⟨[], none⟩, [], []⟩

/-- Thread `i` becomes another one. -/
def setThread (s : PostOffice) (i : Nat) (t : Thread) : PostOffice :=
  { s with threads := Function.update s.threads i t }

/-- One turn of a wait of thread `i`: it takes the first message of the queue, or nothing. -/
def poll (s : PostOffice) (i : Nat) (h : Handle) : PostOffice :=
  match s.mailbox.pop? h.channel with
  | none => s
  | some (message, rest) =>
    { s with
      mailbox := rest
      threads := Function.update s.threads i { s.threads i with sweeping := some h.channel }
      taken := s.taken ++ [⟨i, h, message⟩] }

/-- The office after a step of thread `i`.  In the middle of a wait a thread does nothing but go on
with it, and there is nothing to sweep outside of one. -/
def step (s : PostOffice) (i : Nat) (action : ThreadStep) : PostOffice :=
  match (s.threads i).sweeping, action with
  | some c, .sweep =>
    { s with
      mailbox := s.mailbox.sweep c
      threads := Function.update s.threads i { s.threads i with sweeping := none } }
  | some _, _ => s
  | none, .ask h => s.setThread i ⟨(s.threads i).asked ++ [h], none⟩
  | none, .push c message =>
    { s with mailbox := s.mailbox.push c message, pushed := s.pushed ++ [(c, message)] }
  | none, .poll k =>
    match (s.threads i).asked[k]? with
    | none => s
    | some h => s.poll i h
  | none, .sweep => s

/-- The office after an interleaving: a list of which thread takes which step. -/
def run (s : PostOffice) (steps : List (Nat × ThreadStep)) : PostOffice :=
  steps.foldl (fun s x => s.step x.1 x.2) s

theorem run_append (s : PostOffice) (steps more : List (Nat × ThreadStep)) :
    s.run (steps ++ more) = (s.run steps).run more := List.foldl_append

/-- The channel that a step of thread `i` works on, if it works on one. -/
def channel? (s : PostOffice) (i : Nat) (action : ThreadStep) : Option Channel :=
  match (s.threads i).sweeping, action with
  | some c, .sweep => some c
  | some _, _ => none
  | none, .push c _ => some c
  | none, .poll k => ((s.threads i).asked[k]?).map Handle.channel
  | none, _ => none

/-- The messages that were pushed on a channel, the first one first. -/
def pushedOn (s : PostOffice) (c : Channel) : List Bytes :=
  (s.pushed.filter fun x => decide (x.1 = c)).map Prod.snd

/-- The waits that took a message of a channel, the first one first. -/
def takenOn (s : PostOffice) (c : Channel) : List Receipt :=
  s.taken.filter fun r => decide (r.handle.channel = c)

/-! ## 2. What a step keeps -/

/-- On each channel the messages that were taken, followed by those that wait, are those that were
pushed. -/
def InOrder (s : PostOffice) : Prop :=
  ∀ c, (s.takenOn c).map Receipt.message ++ s.mailbox.queue c = s.pushedOn c

/-- An empty queue is one that some thread has taken the last message of, and has yet to sweep. -/
def Swept (s : PostOffice) : Prop :=
  ∀ c, s.mailbox.holds c = true → s.mailbox.queue c = [] → ∃ i, (s.threads i).sweeping = some c

variable {s : PostOffice}

theorem inOrder_opening : opening.InOrder := fun _ => rfl

theorem swept_opening : opening.Swept := fun _ h => absurd h Bool.false_ne_true

theorem pushedOn_append (s : PostOffice) (c d : Channel) (message : Bytes) :
    (({ s with pushed := s.pushed ++ [(d, message)] } : PostOffice)).pushedOn c =
      if d = c then s.pushedOn c ++ [message] else s.pushedOn c := by
  by_cases hdc : d = c <;> simp [pushedOn, hdc]

theorem takenOn_append (s : PostOffice) (c : Channel) (r : Receipt) :
    (({ s with taken := s.taken ++ [r] } : PostOffice)).takenOn c =
      if r.handle.channel = c then s.takenOn c ++ [r] else s.takenOn c := by
  by_cases hrc : r.handle.channel = c <;> simp [takenOn, hrc]

theorem InOrder.push (h : s.InOrder) (d : Channel) (message : Bytes) :
    InOrder { s with
      mailbox := s.mailbox.push d message
      pushed := s.pushed ++ [(d, message)] } := by
  intro c
  have hc := h c
  have hpushed := pushedOn_append s c d message
  change _ ++ (s.mailbox.push d message).queue c = _
  refine Eq.trans ?_ hpushed.symm
  rw [Mailbox.queue_push]
  by_cases hdc : d = c
  · rw [if_pos hdc, if_pos hdc, ← hc, ← List.append_assoc]
    rfl
  · rw [if_neg hdc, if_neg hdc]
    exact hc

theorem InOrder.poll (h : s.InOrder) (i : Nat) (handle : Handle) : (s.poll i handle).InOrder := by
  unfold PostOffice.poll
  split
  · exact h
  · next message rest hpop =>
    intro c
    have hc := h c
    have htaken := takenOn_append s c ⟨i, handle, message⟩
    rw [Mailbox.queue_pop hpop c] at hc
    refine Eq.trans (congrArg (·.map Receipt.message ++ rest.queue c) htaken) ?_
    by_cases hdc : handle.channel = c
    · rw [if_pos hdc] at hc ⊢
      rw [List.map_append, List.append_assoc]
      exact hc
    · rw [if_neg hdc] at hc ⊢
      exact hc

/-- **A step loses no message, doubles none and overtakes none.** -/
theorem InOrder.step (h : s.InOrder) (i : Nat) (action : ThreadStep) :
    (s.step i action).InOrder := by
  unfold PostOffice.step
  split
  · next c _ =>
    intro d
    have hd := h d
    rw [← Mailbox.queue_sweep s.mailbox c d] at hd
    exact hd
  · exact h
  · exact h
  · exact h.push _ _
  · split
    · exact h
    · exact h.poll i _
  · exact h

/-- A thread that had nothing to sweep may become any other one. -/
theorem exists_sweeping_update {threads : Nat → Thread} {i : Nat}
    (hidle : (threads i).sweeping = none) (t : Thread) {c : Channel}
    (h : ∃ j, (threads j).sweeping = some c) :
    ∃ j, (Function.update threads i t j).sweeping = some c := by
  obtain ⟨j, hj⟩ := h
  have hji : j ≠ i := by
    rintro rfl
    rw [hidle] at hj
    cases hj
  exact ⟨j, by rwa [Function.update_of_ne hji]⟩

theorem Swept.poll (h : s.Swept) {i : Nat} (hidle : (s.threads i).sweeping = none)
    (handle : Handle) : (s.poll i handle).Swept := by
  unfold PostOffice.poll
  split
  · exact h
  · next message rest hpop =>
    intro c hholds hempty
    by_cases hdc : handle.channel = c
    · exact ⟨i, by simp [hdc]⟩
    · -- the other queues are as they were, and so is who has to sweep them
      have hqueue := Mailbox.queue_pop hpop c
      rw [if_neg hdc] at hqueue
      rw [Mailbox.holds_pop hpop c] at hholds
      exact exists_sweeping_update hidle _ (h c hholds (hqueue.trans hempty))

/-- **A step leaves no empty queue behind** that no thread is going to sweep. -/
theorem Swept.step (h : s.Swept) (i : Nat) (action : ThreadStep) : (s.step i action).Swept := by
  unfold PostOffice.step
  split
  · next d hsweeping =>
    intro c hholds hempty
    have hempty : s.mailbox.queue c = [] := (Mailbox.queue_sweep s.mailbox d c).symm.trans hempty
    have hholds : (s.mailbox.sweep d).holds c = true := hholds
    rw [Mailbox.holds_sweep, hempty] at hholds
    simp only [List.isEmpty_nil, Bool.and_true, Bool.and_eq_true, Bool.not_eq_true',
      decide_eq_false_iff_not] at hholds
    obtain ⟨hheld, hdc⟩ := hholds
    -- the queue that was swept is gone, so whoever has to sweep this one is another thread
    obtain ⟨j, hj⟩ := h c hheld hempty
    have hji : j ≠ i := fun e => hdc (Option.some.inj (hsweeping.symm.trans (e ▸ hj)))
    exact ⟨j, (congrArg Thread.sweeping (Function.update_of_ne hji _ _)).trans hj⟩
  · exact h
  · next hidle => exact fun c hholds hempty => exists_sweeping_update hidle _ (h c hholds hempty)
  · next d message hidle =>
    intro c hholds hempty
    have hqueue : (s.mailbox.push d message).queue c = [] := hempty
    have hholds : (s.mailbox.push d message).holds c = true := hholds
    rw [Mailbox.queue_push] at hqueue
    by_cases hdc : d = c
    · simp [hdc] at hqueue
    · rw [if_neg hdc] at hqueue
      rw [Mailbox.holds_push, decide_eq_false hdc, Bool.false_or] at hholds
      exact h c hholds hqueue
  · next hidle =>
    split
    · exact h
    · exact h.poll hidle _
  · exact h

theorem inOrder_run (h : s.InOrder) (steps : List (Nat × ThreadStep)) : (s.run steps).InOrder := by
  induction steps generalizing s with
  | nil => exact h
  | cons x rest ih => exact ih (h.step x.1 x.2)

theorem swept_run (h : s.Swept) (steps : List (Nat × ThreadStep)) : (s.run steps).Swept := by
  induction steps generalizing s with
  | nil => exact h
  | cons x rest ih => exact ih (h.step x.1 x.2)

/-! ## 3. What a step leaves alone -/

/-- Two offices that have the same to say about a channel: what waits there, whether there is a
queue at all, what was pushed and what was taken. -/
structure AlikeOn (s s' : PostOffice) (c : Channel) : Prop where
  queue : s'.mailbox.queue c = s.mailbox.queue c
  holds : s'.mailbox.holds c = s.mailbox.holds c
  pushed : s'.pushedOn c = s.pushedOn c
  taken : s'.takenOn c = s.takenOn c

theorem AlikeOn.refl (s : PostOffice) (c : Channel) : s.AlikeOn s c := ⟨rfl, rfl, rfl, rfl⟩

/-- **A step works on one channel**; what there is to say about any other one stays as it is. -/
theorem step_of_channel?_ne {i : Nat} {action : ThreadStep} {c : Channel}
    (h : s.channel? i action ≠ some c) : s.AlikeOn (s.step i action) c := by
  unfold channel? at h
  unfold step
  split
  · next d hsweeping =>
    rw [hsweeping] at h
    have hdc : d ≠ c := fun e => h (congrArg some e)
    refine ⟨Mailbox.queue_sweep s.mailbox d c, (Mailbox.holds_sweep s.mailbox d c).trans ?_,
      rfl, rfl⟩
    simp [hdc]
  · exact .refl s c
  · exact ⟨rfl, rfl, rfl, rfl⟩
  · next d message hidle =>
    rw [hidle] at h
    have hdc : d ≠ c := fun e => h (congrArg some e)
    refine ⟨(Mailbox.queue_push s.mailbox d c message).trans (if_neg hdc),
      (Mailbox.holds_push s.mailbox d c message).trans ?_,
      (pushedOn_append s c d message).trans (if_neg hdc), rfl⟩
    simp [hdc]
  · next k hidle =>
    split
    · exact .refl s c
    · next handle hhandle =>
      simp only [hidle, hhandle, Option.map_some, ne_eq, Option.some.injEq] at h
      unfold poll
      split
      · exact .refl s c
      · next message rest hpop =>
        have hqueue := Mailbox.queue_pop hpop c
        rw [if_neg h] at hqueue
        exact ⟨hqueue.symm, Mailbox.holds_pop hpop c, rfl,
          (takenOn_append s c ⟨i, handle, message⟩).trans (if_neg h)⟩
  · exact .refl s c

/-! ## 4. What a wait takes -/

/-- To ask for a message is to remember a handle, and nothing more. -/
theorem step_ask (s : PostOffice) (i : Nat) (h : Handle) :
    (s.step i (.ask h)).mailbox = s.mailbox ∧ (s.step i (.ask h)).pushed = s.pushed ∧
      (s.step i (.ask h)).taken = s.taken := by
  unfold step
  split <;> simp_all [setThread]

/-- The message that the next wait on a channel takes: the first one pushed that no wait took. -/
def next? (s : PostOffice) (c : Channel) : Option Bytes := (s.pushedOn c)[(s.takenOn c).length]?

theorem InOrder.next?_eq_head? (h : s.InOrder) (c : Channel) :
    s.next? c = (s.mailbox.queue c).head? := by
  have hlength : ((s.takenOn c).map Receipt.message).length = (s.takenOn c).length :=
    List.length_map _
  unfold next?
  rw [← h c, List.getElem?_append_right (Nat.le_of_eq hlength), hlength, Nat.sub_self,
    List.head?_eq_getElem?]

/-- **A turn of a wait takes the next message of the channel**, or nothing if every message was
taken.  Which of the thread's handles it is for makes no difference, only the channel does.  The
turn and the sweep after it, with nothing in between, are what polling the handle comes to. -/
theorem poll_eq_next (hin : s.InOrder) {i k : Nat} {h : Handle}
    (hidle : (s.threads i).sweeping = none) (hasked : (s.threads i).asked[k]? = some h) :
    (s.next? h.channel = none ∧ s.step i (.poll k) = s ∧ h.poll? s.mailbox = none) ∨
      ∃ message, s.next? h.channel = some message ∧
        (s.step i (.poll k)).taken = s.taken ++ [⟨i, h, message⟩] ∧
        h.poll? s.mailbox =
          some (message.take h.room, ((s.step i (.poll k)).step i .sweep).mailbox) := by
  have hstep : s.step i (.poll k) = s.poll i h := by simp only [step, hidle, hasked]
  rw [hstep, hin.next?_eq_head?]
  cases hpop : s.mailbox.pop? h.channel with
  | none =>
    refine .inl ⟨?_, ?_, ?_⟩
    · rw [Mailbox.pop?_eq_none_iff.mp hpop, List.head?_nil]
    · simp only [poll, hpop]
    · simp only [Handle.poll?, hpop]
  | some popped =>
    obtain ⟨message, rest⟩ := popped
    refine .inr ⟨message, ?_, ?_, ?_⟩
    · rw [Mailbox.queue_pop hpop, if_pos rfl, List.head?_cons]
    · simp only [poll, hpop]
    · simp only [Handle.poll?, hpop, poll, step, Function.update_self]

/-- The waits that took a message of a channel took the messages in the order of the pushes. -/
theorem InOrder.getElem?_takenOn (h : s.InOrder) {c : Channel} {j : Nat} {r : Receipt}
    (hr : (s.takenOn c)[j]? = some r) : (s.pushedOn c)[j]? = some r.message := by
  have hlt : j < (s.takenOn c).length := (List.getElem?_eq_some_iff.mp hr).1
  rw [← h c, List.getElem?_append_left (by rwa [List.length_map]), List.getElem?_map, hr,
    Option.map_some]

/-! ## 5. The ranks of an ensemble -/

variable {α : Type}

/-- An office whose threads stand where the parties of an ensemble stand. -/
def Stages (s : PostOffice) (e : Ensemble α) : Prop :=
  s.mailbox = e.mailbox ∧ ∀ i p, e.parties[i]? = some p → (s.threads i).sweeping = p.sweeping

variable {e : Ensemble α}

/-- The threads after a move of party `i`. -/
theorem Stages.set (h : s.Stages e) {s' : PostOffice} {i : Nat} {p p' : Party α} {m : Mailbox}
    (hp : e.parties[i]? = some p) (hmailbox : s'.mailbox = m)
    (hself : (s'.threads i).sweeping = p'.sweeping)
    (hothers : ∀ j, j ≠ i → s'.threads j = s.threads j) :
    s'.Stages ⟨m, e.parties.set i p'⟩ := by
  have hlt : i < e.parties.length := (List.getElem?_eq_some_iff.mp hp).1
  refine ⟨hmailbox, fun j q hq => ?_⟩
  have hq : (e.parties.set i p')[j]? = some q := hq
  by_cases hji : j = i
  · subst hji
    rw [List.getElem?_set_self hlt] at hq
    rw [hself, Option.some.inj hq]
  · rw [List.getElem?_set_ne (Ne.symm hji)] at hq
    rw [hothers j hji]
    exact h.2 j q hq

/-- What a party does in one move its thread does in a few steps. -/
theorem Stages.move (h : s.Stages e) {i : Nat} {p p' : Party α} {m : Mailbox}
    (hp : e.parties[i]? = some p) (hmove : p.move? e.mailbox = some (p', m)) :
    ∃ steps, (s.run steps).Stages ⟨m, e.parties.set i p'⟩ := by
  have hsweeping := h.2 i p hp
  have hmailbox := h.1
  unfold Party.move? at hmove
  split at hmove
  · next c hc =>
    simp only [Option.some.injEq, Prod.mk.injEq] at hmove
    obtain ⟨rfl, rfl⟩ := hmove
    rw [hc] at hsweeping
    refine ⟨[(i, .sweep)], h.set hp ?_ ?_ ?_⟩ <;>
      simp +contextual [run, step, hsweeping, hmailbox]
  · next hidle =>
    rw [hidle] at hsweeping
    split at hmove
    · cases hmove
    · next peer tag message next _ =>
      simp only [Option.some.injEq, Prod.mk.injEq] at hmove
      obtain ⟨rfl, rfl⟩ := hmove
      refine ⟨[(i, .push (p.outbound peer tag) message)], h.set hp ?_ ?_ ?_⟩ <;>
        simp [run, step, hsweeping, hmailbox, hidle]
    · next peer tag room next _ =>
      split at hmove
      · cases hmove
      · next message rest hpop =>
        simp only [Option.some.injEq, Prod.mk.injEq] at hmove
        obtain ⟨rfl, rfl⟩ := hmove
        rw [← hmailbox] at hpop
        refine ⟨[(i, .ask ⟨p.inbound peer tag, room⟩), (i, .poll (s.threads i).asked.length)],
          h.set hp ?_ ?_ ?_⟩ <;>
          simp +contextual [run, step, setThread, poll, hsweeping, hpop]
    · next task next _ =>
      simp only [Option.some.injEq, Prod.mk.injEq] at hmove
      obtain ⟨rfl, rfl⟩ := hmove
      exact ⟨[], h.set hp hmailbox (hsweeping.trans hidle.symm) fun _ _ => rfl⟩

/-- **The ranks of an ensemble are threads that share its mailbox.** -/
theorem Stages.exists_run (h : s.Stages e) (turns : List Nat) :
    ∃ steps, (s.run steps).Stages (e.run turns) := by
  induction turns generalizing s e with
  | nil => exact ⟨[], h⟩
  | cons i rest ih =>
    have hturn : ∃ steps, (s.run steps).Stages (e.turn i) := by
      unfold Ensemble.turn Ensemble.step?
      cases hp : e.parties[i]? with
      | none => exact ⟨[], h⟩
      | some p =>
        cases hmove : p.move? e.mailbox with
        | none =>
          simp only [hmove, Option.getD_none]
          exact ⟨[], h⟩
        | some moved =>
          simp only [hmove, Option.getD_some]
          exact h.move hp hmove
    obtain ⟨steps, hsteps⟩ := hturn
    obtain ⟨more, hmore⟩ := ih hsteps
    exact ⟨steps ++ more, by rw [run_append]; exact hmore⟩

theorem stages_ofGroup (group size : Nat) (routine : Nat → Routine α) :
    opening.Stages (Ensemble.ofGroup group size routine) := by
  refine ⟨rfl, fun i p hp => ?_⟩
  obtain ⟨r, -, rfl⟩ := List.mem_map.mp (List.mem_of_getElem? hp)
  rfl

/-! ## 6. Every interleaving -/

/-- What there is to say about one channel of an office:

* nothing is lost, doubled or reordered: the messages that waits took, followed by the messages
  that are there, are the messages that were pushed, in that order;
* the `j`-th wait that took a message returned the `j`-th message that was pushed, cut to the room
  of its handle;
* the next turn of a wait takes the next message, from its first byte on, whichever handle it is
  for; there is nothing to take only if every message was taken;
* asking for a message changes nothing of this, and neither does a step on another channel;
* an empty queue is there only while some thread stands between its two steps of a wait. -/
structure Faithful (s : PostOffice) (c : Channel) : Prop where
  conserved : (s.takenOn c).map Receipt.message ++ s.mailbox.queue c = s.pushedOn c
  returned : ∀ (j : Nat) (r : Receipt), (s.takenOn c)[j]? = some r →
    ∃ message, (s.pushedOn c)[j]? = some message ∧ r.returned = message.take r.handle.room ∧
      r.returned.length = min r.handle.room message.length
  next : ∀ i k h, (s.threads i).sweeping = none → (s.threads i).asked[k]? = some h →
    h.channel = c →
      (s.next? c = none ∧ s.step i (.poll k) = s ∧ h.poll? s.mailbox = none) ∨
      ∃ message, s.next? c = some message ∧
        (s.step i (.poll k)).taken = s.taken ++ [⟨i, h, message⟩] ∧
        h.poll? s.mailbox =
          some (message.take h.room, ((s.step i (.poll k)).step i .sweep).mailbox)
  asking : ∀ i h, s.AlikeOn (s.step i (.ask h)) c
  elsewhere : ∀ i action, s.channel? i action ≠ some c → s.AlikeOn (s.step i action) c
  swept : s.mailbox.holds c = true → s.mailbox.queue c = [] →
    ∃ i, (s.threads i).sweeping = some c

/-- An office that keeps the order and leaves no empty queue behind is faithful on every
channel. -/
theorem InOrder.faithful (hin : s.InOrder) (hswept : s.Swept) (c : Channel) : s.Faithful c where
  conserved := hin c
  returned := fun _ r hr => ⟨r.message, hin.getElem?_takenOn hr, rfl, List.length_take⟩
  next := by
    rintro i k h hidle hasked rfl
    exact poll_eq_next hin hidle hasked
  asking := by
    intro i h
    obtain ⟨hmailbox, hpushed, htaken⟩ := step_ask s i h
    exact ⟨by rw [hmailbox], by rw [hmailbox], by rw [pushedOn, hpushed, pushedOn],
      by rw [takenOn, htaken, takenOn]⟩
  elsewhere := fun _ _ => step_of_channel?_ne
  swept := hswept c

/-- **A mailbox loses, doubles and reorders no message**, whatever threads share it and however
their steps interleave; and the ranks of an ensemble are such threads. -/
theorem first_in_first_out :
    (∀ (steps : List (Nat × ThreadStep)) (c : Channel), (opening.run steps).Faithful c) ∧
      ∀ (α : Type) (group size : Nat) (routine : Nat → Routine α) (turns : List Nat),
        ∃ steps, (opening.run steps).Stages ((Ensemble.ofGroup group size routine).run turns) := by
  refine ⟨fun steps c => ?_, fun α group size routine turns => ?_⟩
  · exact (inOrder_run inOrder_opening steps).faithful (swept_run swept_opening steps) c
  · exact (stages_ofGroup group size routine).exists_run turns

end PostOffice

/-- Two threads on one channel: thread `1` asks with room for two bytes and then for nine, waits on
the second handle first, and a push falls between its taking of a message and its sweep. -/
example :
    let c : Channel := ⟨0, 0, 1, ⟨7⟩⟩
    let s := PostOffice.opening.run
      [(1, .ask ⟨c, 2⟩), (1, .ask ⟨c, 9⟩), (0, .push c [1, 2, 3]), (1, .poll 1),
        (0, .push c [4, 5, 6]), (1, .sweep), (1, .poll 0)]
    s.taken.map Receipt.returned = [[1, 2, 3], [4, 5]] ∧ s.mailbox.holds c = true := by
  decide

end ShardedVector
