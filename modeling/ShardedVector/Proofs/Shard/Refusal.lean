/-
# Refusals leave everything as it was

A request that is refused leaves its shard unchanged: bound or unbound, laid out and kept as
before, with the same entries bit for bit.  A counted array may have counted an access, and a norm
may be remembered, but neither can be seen in an entry.  The operands of a request are only read.

A refusal by a check has cost no message.  So a step of a whole group that every rank is refused
by a check leaves the queues of the mailbox as they were, whatever had been waiting in them.
-/
import ShardedVector.Proofs.Shard.Reachable

namespace ShardedVector

namespace Shard

/-- A shard that is bound, laid out and kept like another, with the same entries. -/
structure Unchanged (v v' : Shard) : Prop where
  seat : v'.seat = v.seat
  layout : v'.layout = v.layout
  backend : v'.backend = v.backend
  toList : v'.toList = v.toList

theorem Unchanged.refl (v : Shard) : v.Unchanged v := ⟨rfl, rfl, rfl, rfl⟩

/-- A refused change of local entries changes none of them, also when it counts an access. -/
theorem WellFormed.unchanged_editLocal {v : Shard} (h : v.WellFormed) {e : LocalEdit}
    {refusal : Error} (hrefused : (v.editLocal e).2 = .error refusal) :
    v.Unchanged (v.editLocal e).1 := by
  obtain ⟨-, hbackend, -, hsame⟩ := Storage.edit_kept h.sound e
  exact ⟨rfl, rfl, hbackend, hsame refusal hrefused⟩

theorem unchanged_norm (v : Shard) (k : Norm) : v.Unchanged (v.norm k).2 := by
  have hrecalls := Storage.recalls_normPartial v.storage k
  exact ⟨rfl, rfl, hrecalls.backend, hrecalls.toList⟩

end Shard

variable {v : Shard}

theorem unchanged_refused (h : v.WellFormed) {t : Request} {sent : List Letter} {e : Error}
    (hends : (t.attempt v).outcome.Ends sent (.error e)) : v.Unchanged (t.refused v) := by
  cases t with
  | edit change =>
    cases hchange : (v.editLocal change).2 with
    | ok _ =>
      rw [Request.attempt, hchange] at hends
      cases hends
    | error refusal => exact h.unchanged_editLocal hchange
  | norm k => exact v.unchanged_norm k
  | _ => exact .refl v

/-- **One request that is refused**: it leaves the shard unchanged, and no letter was sent if it is
refused by a check. -/
theorem perform_refused (h : v.WellFormed) {t : Request}
    (hoperands : ∀ w ∈ t.operands, w.WellFormed) (hfits : t.Fits) {sent : List Letter} {e : Error}
    {v' : Shard} (hends : (t.perform v).Ends sent (.error e, v')) :
    v.Unchanged v' ∧ (e.ofCheck → sent = []) := by
  rw [perform_eq h hoperands hfits] at hends
  obtain ⟨came, hcame, hsettled⟩ := hends.of_bind_finish
  cases came with
  | ok x => cases hsettled
  | error e' =>
    obtain ⟨he, rfl⟩ := Prod.mk.inj hsettled
    obtain rfl := Except.error.inj he
    exact ⟨unchanged_refused h hcame, ((guarded_attempt h hoperands hfits).of_ends hcame).2 e' rfl⟩

/-- A request is refused without a word, or else by no check. -/
theorem perform_silent_or (h : v.WellFormed) {t : Request}
    (hoperands : ∀ w ∈ t.operands, w.WellFormed) (hfits : t.Fits) :
    (∃ x, (t.perform v).Silently x) ∨
      (t.perform v).Always fun x => ∀ e, x.1 = .error e → e.ofCheck = false := by
  rw [perform_eq h hoperands hfits]
  rcases guarded_attempt h hoperands hfits with ⟨e, hsilent⟩ | hsettles
  · exact .inl ⟨_, hsilent.bind rfl⟩
  · refine .inr (Routine.always_bind.mpr (Routine.Always.mono hsettles fun outcome hpast => ?_))
    intro e he
    cases outcome with
    | ok x => cases he
    | error e' =>
      obtain rfl := Except.error.inj he
      exact hpast

/-- The ranks of a group before a step, over a mailbox in which messages may be waiting. -/
def groupStep (group : Nat) (mailbox : Mailbox) (size : Nat) (t : Nat → Request)
    (v : Nat → Shard) : Ensemble (Except Error Reply × Shard) :=
  ⟨mailbox, (List.range size).map fun r => Party.start group r ((t r).perform (v r))⟩

theorem getElem?_parties_groupStep {group size r : Nat} {mailbox : Mailbox} {t : Nat → Request}
    {v : Nat → Shard} (hr : r < size) :
    (groupStep group mailbox size t v).parties[r]? =
      some (Party.start group r ((t r).perform (v r))) := by
  simp [groupStep, hr]

/-- **A step that every rank is refused by a check leaves the mailbox as it is.**  A rank that is
refused by a check is silent, for on every other branch it is refused by none. -/
theorem mailbox_of_all_refused {size : Nat} {t : Nat → Request} {v : Nat → Shard}
    (h : ∀ r < size, (v r).WellFormed) (hoperands : ∀ r < size, ∀ w ∈ (t r).operands, w.WellFormed)
    (hfits : ∀ r < size, (t r).Fits) (group : Nat) (mailbox : Mailbox) {turns : List Nat}
    {rs : List (Except Error Reply × Shard)}
    (hrs : ((groupStep group mailbox size t v).run turns).results? = some rs)
    (hrefused : ∀ x ∈ rs, ∃ e, x.1 = .error e ∧ e.ofCheck) :
    ((groupStep group mailbox size t v).run turns).mailbox = mailbox := by
  refine Ensemble.mailbox_run_of_silent (fun p hp => ?_) turns
  obtain ⟨r, hr, rfl⟩ := List.mem_map.mp hp
  have hr := List.mem_range.mp hr
  refine ⟨rfl, ?_⟩
  rcases perform_silent_or (h r hr) (hoperands r hr) (hfits r hr) with hsilent | halways
  · exact hsilent
  · obtain ⟨p, x, hp, hx, hmem⟩ := Ensemble.exists_of_results? hrs
      (show r < (groupStep group mailbox size t v).parties.length by simpa [groupStep] using hr)
    obtain ⟨e, he, hcheck⟩ := hrefused x (List.mem_of_getElem? hmem)
    have hbegins : ∀ q, (groupStep group mailbox size t v).parties[r]? = some q →
        q.routine.Always fun x => ∀ e, x.1 = .error e → e.ofCheck = false := by
      intro q hq
      rw [getElem?_parties_groupStep hr] at hq
      obtain rfl := Option.some.inj hq
      exact halways
    have hnone := Ensemble.always_run hbegins turns hp hx e he
    exact absurd (hnone.symm.trans hcheck) (by decide)

end ShardedVector
