/-
# Whatever arrives

A routine branches on what its peers send, and its peers may fail, lie or belong to another
program.  This module says what is true of a routine on every branch.

* `Routine.Ends` lists the endings of a routine: the letters it sends on the way, and its value.
* `Routine.Always` is a property of the value on every branch; `always_iff` says that it is the
  same as one of every ending.
* `Routine.Silently` is a routine that has one ending and neither sends nor waits before it.

An attempt is `Guarded` when its checks come first: either one of them refuses it before anything
is sent or waited for, or it is past all checks, and then no refusal is one of a check any more.
`Guarded.bind` and `guarded_check` build it up in the way the attempts themselves are built.

What a rank ends with in an ensemble is one of its endings (`Ensemble.always_run`), and ranks that
are all silent leave the mailbox as it is (`Ensemble.mailbox_run_of_silent`).
-/
import ShardedVector.Proofs.Ensemble.Conclusion
import ShardedVector.Rehearsal

namespace ShardedVector

/-! ## 1. Endings -/

namespace Routine

variable {α β : Type}

/-- The letters that a routine may send, one after the other, and the value it may then end with.
A wait may be answered by anything. -/
inductive Ends : Routine α → List Letter → α → Prop
  | finish (a : α) : Ends (.finish a) [] a
  | send (peer : Nat) (tag : Tag) (message : Bytes) {next : Routine α} {sent : List Letter} {a : α}
      (h : Ends next sent a) : Ends (.send peer tag message next) (⟨peer, tag, message⟩ :: sent) a
  | receive (peer : Nat) (tag : Tag) (room : Nat) {next : Option Bytes → Routine α}
      (answer : Option Bytes) {sent : List Letter} {a : α} (h : Ends (next answer) sent a) :
      Ends (.receive peer tag room next) sent a
  | interval (task : String) {next : Routine α} {sent : List Letter} {a : α}
      (h : Ends next sent a) : Ends (.interval task next) sent a

/-- A rehearsal shows one of the endings. -/
theorem ends_rehearse (r : Routine α) (inbox : List Letter) :
    r.Ends (r.rehearse inbox).sent (r.rehearse inbox).value := by
  induction r generalizing inbox with
  | finish a => exact .finish a
  | send peer tag message next ih => exact .send peer tag message (ih inbox)
  | receive peer tag room next ih => exact .receive peer tag room _ (ih _ _)
  | interval task next ih => exact .interval task (ih inbox)

/-- Whatever arrives, the value has a property. -/
def Always : Routine α → (α → Prop) → Prop
  | finish a, P => P a
  | send _ _ _ next, P => next.Always P
  | receive _ _ _ next, P => ∀ answer, (next answer).Always P
  | interval _ next, P => next.Always P

/-- A routine that comes to its value without a word. -/
def Silently : Routine α → α → Prop
  | finish a, b => a = b
  | send _ _ _ _, _ => False
  | receive _ _ _ _, _ => False
  | interval _ next, b => next.Silently b

theorem always_iff {r : Routine α} {P : α → Prop} :
    r.Always P ↔ ∀ sent a, r.Ends sent a → P a := by
  constructor
  · intro h sent a hends
    induction hends with
    | finish a => exact h
    | send _ _ _ _ ih => exact ih h
    | receive _ _ _ answer _ ih => exact ih (h answer)
    | interval _ _ ih => exact ih h
  · intro h
    induction r with
    | finish a => exact h [] a (.finish a)
    | send peer tag message next ih =>
      exact ih fun sent a hends => h _ a (.send peer tag message hends)
    | receive peer tag room next ih =>
      intro answer
      exact ih answer fun sent a hends => h sent a (.receive peer tag room answer hends)
    | interval task next ih => exact ih fun sent a hends => h sent a (.interval task hends)

theorem Always.of_ends {r : Routine α} {P : α → Prop} {sent : List Letter} {a : α}
    (h : r.Always P) (hends : r.Ends sent a) : P a := always_iff.mp h sent a hends

theorem Always.mono {r : Routine α} {P Q : α → Prop} (h : r.Always P) (hPQ : ∀ a, P a → Q a) :
    r.Always Q :=
  always_iff.mpr fun _ a hends => hPQ a (h.of_ends hends)

theorem always_bind {r : Routine α} {f : α → Routine β} {P : β → Prop} :
    (r >>= f).Always P ↔ r.Always fun a => (f a).Always P := by
  induction r with
  | finish a => exact Iff.rfl
  | send _ _ _ next ih => exact ih
  | receive _ _ _ next ih => exact forall_congr' fun answer => ih answer
  | interval _ next ih => exact ih

theorem Ends.of_finish {sent : List Letter} {a b : α} (h : (Routine.finish a).Ends sent b) :
    sent = [] ∧ a = b := by
  cases h
  exact ⟨rfl, rfl⟩

/-- What two routines end with after each other. -/
theorem Ends.of_bind {r : Routine α} {f : α → Routine β} {sent : List Letter} {b : β}
    (h : (r >>= f).Ends sent b) :
    ∃ a first second, r.Ends first a ∧ (f a).Ends second b ∧ first ++ second = sent := by
  induction r generalizing sent with
  | finish a => exact ⟨a, [], sent, .finish a, h, rfl⟩
  | send peer tag message next ih =>
    cases h with
    | send _ _ _ hnext =>
      obtain ⟨a, first, second, hfirst, hsecond, rfl⟩ := ih hnext
      exact ⟨a, _, second, .send peer tag message hfirst, hsecond, rfl⟩
  | receive peer tag room next ih =>
    cases h with
    | receive _ _ _ answer hnext =>
      obtain ⟨a, first, second, hfirst, hsecond, rfl⟩ := ih answer hnext
      exact ⟨a, first, second, .receive peer tag room answer hfirst, hsecond, rfl⟩
  | interval task next ih =>
    cases h with
    | interval _ hnext =>
      obtain ⟨a, first, second, hfirst, hsecond, rfl⟩ := ih hnext
      exact ⟨a, first, second, .interval task hfirst, hsecond, rfl⟩

/-- What is made of the value of a routine is made of one of its endings. -/
theorem Ends.of_bind_finish {r : Routine α} {f : α → β} {sent : List Letter} {b : β}
    (h : (r >>= fun a => Routine.finish (f a)).Ends sent b) : ∃ a, r.Ends sent a ∧ f a = b := by
  obtain ⟨a, first, second, hfirst, hsecond, rfl⟩ := h.of_bind
  obtain ⟨rfl, hvalue⟩ := hsecond.of_finish
  rw [List.append_nil]
  exact ⟨a, hfirst, hvalue⟩

theorem Ends.bind_finish {r : Routine α} {sent : List Letter} {a : α} (h : r.Ends sent a)
    (f : α → β) : (r >>= fun a => Routine.finish (f a)).Ends sent (f a) := by
  induction h with
  | finish a => exact .finish (f a)
  | send peer tag message _ ih => exact .send peer tag message ih
  | receive peer tag room answer _ ih => exact .receive peer tag room answer ih
  | interval task _ ih => exact .interval task ih

/-- What follows a routine matters only for the values that it may end with. -/
theorem bind_congr_of_always {r : Routine α} {f g : α → Routine β}
    (h : r.Always fun a => f a = g a) : (r >>= f) = (r >>= g) := by
  induction r with
  | finish a => exact h
  | send peer tag message next ih => exact congrArg (Routine.send peer tag message) (ih h)
  | receive peer tag room next ih =>
    exact congrArg (Routine.receive peer tag room) (funext fun answer => ih answer (h answer))
  | interval task next ih => exact congrArg (Routine.interval task) (ih h)

theorem Silently.bind {r : Routine α} {f : α → Routine β} {a : α} {b : β} (h : r.Silently a)
    (hf : (f a).Silently b) : (r >>= f).Silently b := by
  induction r with
  | finish a' =>
    obtain rfl : a' = a := h
    exact hf
  | send _ _ _ next => exact h.elim
  | receive _ _ _ next => exact h.elim
  | interval _ next ih => exact ih h

/-- Without a word there is nothing else that a routine could end with. -/
theorem Silently.eq_of_ends {r : Routine α} {a b : α} {sent : List Letter} (h : r.Silently a)
    (hends : r.Ends sent b) : sent = [] ∧ b = a := by
  induction hends with
  | finish b => exact ⟨rfl, h⟩
  | send => exact h.elim
  | receive => exact h.elim
  | interval _ _ ih => exact ih h

end Routine

/-! ## 2. Checks -/

/-- The refusals that come out of a check of the operands. -/
def Error.ofCheck : Error → Bool
  | .dimensionMismatch .. | .incompatibleLayout _ | .invalidTarget _ | .unsupported ..
  | .promotion _ | .indexOutOfRange .. => true
  | .invalidLayout _ | .communication .. | .unknownTask _ | .invalidNorm _ | .invalidApplyMode _
  | .unknownBackend _ => false

/-- An outcome past all checks: a value with a property, or a refusal of another kind. -/
def PastChecks {α : Type} (P : α → Prop) : Except Error α → Prop
  | .ok a => P a
  | .error e => e.ofCheck = false

namespace Attempt

variable {α β : Type} {P : α → Prop} {Q : β → Prop}

/-- Whatever arrives, the attempt comes to an outcome past all checks. -/
def Settles (a : Attempt α) (P : α → Prop) : Prop := a.outcome.Always (PastChecks P)

/-- All checks come first: one of them refuses the attempt without a word, or it is past them. -/
def Guarded (a : Attempt α) (P : α → Prop) : Prop :=
  (∃ e, a.outcome.Silently (.error e)) ∨ a.Settles P

@[simp] theorem outcome_pure (x : α) : (pure x : Attempt α).outcome = .finish (.ok x) := rfl

@[simp] theorem outcome_ofExcept (outcome : Except Error α) :
    (ofExcept outcome).outcome = .finish outcome := rfl

@[simp] theorem outcome_bind (a : Attempt α) (f : α → Attempt β) :
    (a >>= f).outcome = a.outcome >>= fun
      | .ok x => (f x).outcome
      | .error e => .finish (.error e) := by
  refine congrArg (a.outcome >>= ·) (funext fun outcome => ?_)
  cases outcome <;> rfl

theorem outcome_timed (task : String) (a : Attempt α) :
    (a.timed task).outcome = a.outcome >>= fun outcome => .interval task (.finish outcome) := rfl

/-! ### Past all checks -/

theorem settles_pure {x : α} (h : P x) : (pure x : Attempt α).Settles P := h

theorem settles_ofExcept {outcome : Except Error α} (h : PastChecks P outcome) :
    (ofExcept outcome).Settles P := h

theorem Settles.mono {a : Attempt α} {P' : α → Prop} (h : a.Settles P) (hP : ∀ x, P x → P' x) :
    a.Settles P' := by
  refine Routine.Always.mono h fun outcome houtcome => ?_
  cases outcome with
  | ok x => exact hP x houtcome
  | error e => exact houtcome

theorem Settles.bind {a : Attempt α} {f : α → Attempt β} (h : a.Settles P)
    (hf : ∀ x, P x → (f x).Settles Q) : (a >>= f).Settles Q := by
  rw [Settles, outcome_bind]
  refine Routine.always_bind.mpr (Routine.Always.mono h fun outcome houtcome => ?_)
  cases outcome with
  | ok x => exact hf x houtcome
  | error e => exact houtcome

theorem Settles.timed {a : Attempt α} (h : a.Settles P) (task : String) :
    (a.timed task).Settles P := by
  rw [Settles, outcome_timed]
  exact Routine.always_bind.mpr h

/-! ### Checks first -/

theorem Settles.guarded {a : Attempt α} (h : a.Settles P) : a.Guarded P := .inr h

theorem guarded_ofExcept {outcome : Except Error α} (h : ∀ x, outcome = .ok x → P x) :
    (ofExcept outcome).Guarded P := by
  cases outcome with
  | ok x => exact .inr (h x rfl)
  | error e => exact .inl ⟨e, rfl⟩

/-- What follows an attempt makes no check any more. -/
theorem Guarded.bind {a : Attempt α} {f : α → Attempt β} (h : a.Guarded P)
    (hf : ∀ x, P x → (f x).Settles Q) : (a >>= f).Guarded Q := by
  rcases h with ⟨e, hsilent⟩ | hsettles
  · exact .inl ⟨e, hsilent.bind rfl⟩
  · exact .inr (hsettles.bind hf)

theorem Guarded.map {a : Attempt α} (h : a.Guarded P) (f : α → β) :
    (f <$> a).Guarded fun _ => True := by
  have hmap : (f <$> a : Attempt β) = a >>= fun x => pure (f x) := rfl
  rw [hmap]
  exact h.bind fun x _ => settles_pure trivial

/-- What follows a check may begin with the next one. -/
theorem guarded_check {check : Except Error α} {f : α → Attempt β}
    (hf : ∀ x, check = .ok x → (f x).Guarded Q) : (ofExcept check >>= f).Guarded Q := by
  cases check with
  | ok x => exact hf x rfl
  | error e => exact .inl ⟨e, rfl⟩

theorem Guarded.timed {a : Attempt α} (h : a.Guarded P) (task : String) :
    (a.timed task).Guarded P := by
  rcases h with ⟨e, hsilent⟩ | hsettles
  · exact .inl ⟨e, hsilent.bind rfl⟩
  · exact .inr (hsettles.timed task)

/-- **A check refuses without a word**, and a value has the property. -/
theorem Guarded.of_ends {a : Attempt α} {sent : List Letter} {outcome : Except Error α}
    (h : a.Guarded P) (hends : a.outcome.Ends sent outcome) :
    (∀ x, outcome = .ok x → P x) ∧ ∀ e, outcome = .error e → e.ofCheck → sent = [] := by
  rcases h with ⟨e, hsilent⟩ | hsettles
  · obtain ⟨rfl, rfl⟩ := hsilent.eq_of_ends hends
    exact ⟨nofun, fun _ _ _ => rfl⟩
  · have hpast := hsettles.of_ends hends
    refine ⟨fun x hx => ?_, fun e he hcheck => ?_⟩
    · rwa [hx] at hpast
    · rw [he] at hpast
      exact absurd (hpast.symm.trans hcheck) (by decide)

/-- Whatever arrives, a value has the property. -/
theorem Guarded.always {a : Attempt α} (h : a.Guarded P) :
    a.outcome.Always fun outcome => ∀ x, outcome = .ok x → P x :=
  Routine.always_iff.mpr fun _ _ hends => (h.of_ends hends).1

end Attempt

/-! ## 3. Ranks side by side -/

namespace Party

variable {α : Type}

/-- A move leaves a routine whose endings were all possible before. -/
theorem always_of_move? {p p' : Party α} {m m' : Mailbox} {P : α → Prop}
    (h : p.move? m = some (p', m')) (hp : p.routine.Always P) : p'.routine.Always P := by
  unfold move? at h
  split at h
  · obtain ⟨rfl, -⟩ := Prod.mk.inj (Option.some.inj h)
    exact hp
  · split at h
    · cases h
    · next hr =>
      obtain ⟨rfl, -⟩ := Prod.mk.inj (Option.some.inj h)
      rwa [hr] at hp
    · next hr =>
      split at h
      · cases h
      · obtain ⟨rfl, -⟩ := Prod.mk.inj (Option.some.inj h)
        rw [hr] at hp
        exact hp _
    · next hr =>
      obtain ⟨rfl, -⟩ := Prod.mk.inj (Option.some.inj h)
      rwa [hr] at hp

theorem always_of_result? {p : Party α} {P : α → Prop} {a : α} (hp : p.routine.Always P)
    (h : p.result? = some a) : P a := by
  unfold result? at h
  split at h
  · next hr =>
    obtain rfl := Option.some.inj h
    rwa [hr] at hp
  · cases h

/-- A party that has nothing to sweep and comes to a value without a word. -/
def Silent (p : Party α) : Prop := p.sweeping = none ∧ ∃ a, p.routine.Silently a

/-- A silent party stays silent and touches no queue. -/
theorem Silent.move? {p p' : Party α} {m m' : Mailbox} (hp : p.Silent)
    (h : p.move? m = some (p', m')) : p'.Silent ∧ m' = m := by
  obtain ⟨hsweeping, a, ha⟩ := hp
  unfold Party.move? at h
  rw [hsweeping] at h
  dsimp only at h
  split at h
  · cases h
  · next hr =>
    rw [hr] at ha
    exact ha.elim
  · next hr =>
    rw [hr] at ha
    exact ha.elim
  · next hr =>
    obtain ⟨rfl, rfl⟩ := Prod.mk.inj (Option.some.inj h)
    rw [hr] at ha
    exact ⟨⟨rfl, a, ha⟩, rfl⟩

end Party

namespace Ensemble

variable {α : Type}

/-- What all moves of all parties keep of a party. -/
theorem parties_turn_of_move? {I : Party α → Prop}
    (step : ∀ {p p' : Party α} {m m' : Mailbox}, p.move? m = some (p', m') → I p → I p')
    {s : Ensemble α} {i j : Nat} (h : ∀ p, s.parties[j]? = some p → I p) {p' : Party α}
    (hp' : (s.turn i).parties[j]? = some p') : I p' := by
  unfold turn step? at hp'
  cases hp : s.parties[i]? with
  | none =>
    rw [hp] at hp'
    exact h p' hp'
  | some p =>
    cases hm : p.move? s.mailbox with
    | none =>
      simp only [hp, hm, Option.getD_none] at hp'
      exact h p' hp'
    | some moved =>
      simp only [hp, hm, Option.getD_some] at hp'
      by_cases hij : i = j
      · subst hij
        have hlt : i < s.parties.length := (List.getElem?_eq_some_iff.mp hp).1
        rw [List.getElem?_set_self hlt] at hp'
        obtain rfl := Option.some.inj hp'
        exact step hm (h p hp)
      · rw [List.getElem?_set_ne hij] at hp'
        exact h p' hp'

/-- **What a rank ends with is one of its endings**, whatever the other parties do. -/
theorem always_run {P : α → Prop} {s : Ensemble α} {i : Nat}
    (h : ∀ p, s.parties[i]? = some p → p.routine.Always P) (turns : List Nat) {p : Party α} {a : α}
    (hp : (s.run turns).parties[i]? = some p) (ha : p.result? = some a) : P a := by
  induction turns generalizing s with
  | nil => exact Party.always_of_result? (h p hp) ha
  | cons j rest ih => exact ih (fun _ hp' => parties_turn_of_move? Party.always_of_move? h hp') hp

theorem length_parties_run (s : Ensemble α) (turns : List Nat) :
    (s.run turns).parties.length = s.parties.length := by
  induction turns generalizing s with
  | nil => rfl
  | cons i rest ih => exact (ih (s.turn i)).trans (s.length_parties_turn i)

/-- Where all parties have finished, each of them has its value in the list. -/
theorem exists_of_results? {s : Ensemble α} {turns : List Nat} {rs : List α}
    (h : (s.run turns).results? = some rs) {i : Nat} (hi : i < s.parties.length) :
    ∃ p a, (s.run turns).parties[i]? = some p ∧ p.result? = some a ∧ rs[i]? = some a := by
  have hp := List.getElem?_eq_getElem ((s.length_parties_run turns).symm ▸ hi)
  have hget := congrArg (·[i]?) (results?_eq_some_iff.mp h)
  simp only [List.getElem?_map, hp, Option.map_some] at hget
  obtain ⟨a, ha, hvalue⟩ := Option.map_eq_some_iff.mp hget.symm
  exact ⟨_, a, hp, hvalue.symm, ha⟩

/-- What all ranks of a group have ended with are endings of their routines. -/
theorem ends_of_results? {group size : Nat} {routine : Nat → Routine α} {values : Nat → α}
    {turns : List Nat}
    (h : ((ofGroup group size routine).run turns).results? = some ((List.range size).map values))
    {r : Nat} (hr : r < size) : ∃ sent, (routine r).Ends sent (values r) := by
  have hlen : r < (ofGroup group size routine).parties.length := by simpa [ofGroup] using hr
  obtain ⟨p, a, hp, ha, hmem⟩ := exists_of_results? h hlen
  have hvalue : values r = a := by simpa [hr] using hmem
  rw [hvalue]
  have hbegins : ∀ q, (ofGroup group size routine).parties[r]? = some q →
      q.routine.Always fun b => ∃ sent, (routine r).Ends sent b := by
    intro q hq
    obtain rfl : q = Party.start group r (routine r) := by simpa [ofGroup, hr, eq_comm] using hq
    exact Routine.always_iff.mpr fun sent b hends => ⟨sent, hends⟩
  exact always_run hbegins turns hp ha

/-- **Ranks that are silent leave the mailbox as it is.** -/
theorem mailbox_run_of_silent {s : Ensemble α} (h : ∀ p ∈ s.parties, p.Silent) (turns : List Nat) :
    (s.run turns).mailbox = s.mailbox := by
  induction turns generalizing s with
  | nil => rfl
  | cons i rest ih =>
    have hturn : (s.turn i).mailbox = s.mailbox := by
      unfold turn step?
      cases hp : s.parties[i]? with
      | none => rfl
      | some p =>
        cases hm : p.move? s.mailbox with
        | none => simp only [hm, Option.getD_none]
        | some moved =>
          simp only [hm, Option.getD_some]
          exact ((h p (List.mem_of_getElem? hp)).move? hm).2
    have hsilent : ∀ p ∈ (s.turn i).parties, p.Silent := by
      intro p hp
      obtain ⟨j, hj⟩ := List.mem_iff_getElem?.mp hp
      exact parties_turn_of_move? (fun hm hp => (Party.Silent.move? hp hm).1)
        (fun p hp => h p (List.mem_of_getElem? hp)) hj
    rw [run_cons, ih hsilent, hturn]

end Ensemble

end ShardedVector
