/-
# A vector of one process that takes in a gather

A gather into another vector is refused for the vectors that take part in it before it sends
anything, or it goes on like a gather for its own sake.  The conversation is over when the target
is changed for the first time, so that a refusal must not happen any more: a target that is bound
was measured before, and one that is not is bound to as many entries as have come.

* `targetFault` is the rule by which a pair of vectors is refused, and `checkTarget_eq` says that
  the check follows it.
* `WellFormed.always_gather`: the conversation itself is never refused for one of these causes.
* `WellFormed.outcome_gatherInto`: past the check, what a gather into a target comes to is made of
  what a gather comes to.

`Reachable.fills_target` puts them together, for every source and every target and whatever the
other ranks send.
-/
import ShardedVector.Proofs.Shard.Reachable

namespace ShardedVector

/-! ## 1. Vectors that do not go together -/

/-- The refusals of a gather that concern its source or its target. -/
def Error.ofTarget : Error → Bool
  | .unsupported .. | .invalidTarget _ | .dimensionMismatch .. => true
  | _ => false

theorem Error.ofTarget_of_not_ofCheck {e : Error} (h : e.ofCheck = false) : e.ofTarget = false := by
  cases e <;> first | rfl | cases h

namespace Shard

/-- What is wrong with a target for so many entries: first the backend of the source counts, then
the group of the target, then the size of a target that has one. -/
def targetFault (v target : Shard) (count : Nat) : Option Error :=
  if v.capabilities.gather = false then some (.unsupported v.backend .gather)
  else if 1 < target.seat.size then some (.invalidTarget target.seat.size)
  else if target.isBound ∧ target.size.toNat ≠ count then
    some (.dimensionMismatch .gather count target.size.toNat)
  else none

variable {v w : Shard} {count : Nat}

theorem targetFault_ne_none_iff : v.targetFault w count ≠ none ↔
    v.capabilities.gather = false ∨ 1 < w.seat.size ∨ w.isBound ∧ w.size.toNat ≠ count := by
  rw [targetFault]
  split_ifs <;> simp_all

theorem gather_of_fault_none (h : v.targetFault w count = none) : v.capabilities.gather = true :=
  Bool.eq_true_of_not_eq_false fun hgather => targetFault_ne_none_iff.mpr (.inl hgather) h

theorem ofTarget_of_targetFault {e : Error} (h : v.targetFault w count = some e) :
    e.ofTarget = true := by
  rw [targetFault] at h
  split_ifs at h <;> cases h <;> rfl

/-- **The check follows the rule.**  A group that is not of one process is of more. -/
theorem checkTarget_eq (hseat : w.seat.Valid) : v.checkTarget w count =
    match v.targetFault w count with
    | some e => .error e
    | none => .ok () := by
  have hone : w.seat.size ≠ 1 ↔ 1 < w.seat.size := by
    have := hseat.rank_lt
    omega
  rw [checkTarget, requireGather, targetFault]
  cases v.capabilities.gather with
  | false => rfl
  | true =>
    simp only [hone, if_true, Bool.true_eq_false, if_false]
    change (if 1 < w.seat.size then _ else _) = _
    split_ifs <;> rfl

/-! ## 2. The conversation -/

/-- Only an index that nobody owns is refused when the owners are looked up. -/
theorem exists_of_owners_eq_error {e : Error} :
    ∀ {indices : List UInt64}, v.owners indices = .error e →
      ∃ i ∈ indices, e = .indexOutOfRange i.toNat v.size.toNat
  | i :: rest, h => by
    rw [owners] at h
    cases howner : v.ownerOf? i with
    | none =>
      rw [howner] at h
      exact ⟨i, List.mem_cons_self, (Except.error.inj h).symm⟩
    | some owner =>
      cases hrest : v.owners rest with
      | ok others =>
        rw [howner, hrest] at h
        cases h
      | error e' =>
        rw [howner, hrest] at h
        obtain rfl := Except.error.inj h
        obtain ⟨j, hj, he⟩ := exists_of_owners_eq_error hrest
        exact ⟨j, List.mem_cons_of_mem i hj, he⟩

/-- What is timed ends like what is not. -/
theorem always_timed {α : Type} {P : Except Error α → Prop} (task : String) {a : Attempt α}
    (h : a.outcome.Always P) : (v.timed task a).outcome.Always P := by
  rw [timed]
  split
  · exact Routine.always_bind.mpr h
  · exact h

/-- **On a backend that can gather, a gather is refused for no fault of its vectors**, whatever the
other ranks send. -/
theorem WellFormed.always_gather (h : v.WellFormed) (hgather : v.capabilities.gather = true)
    (indices : List UInt64) :
    (v.gather indices).outcome.Always fun outcome =>
      (∀ values, outcome = .ok values → values.length = indices.length) ∧
        ∀ e, outcome = .error e → e.ofTarget = false := by
  have hrequire : v.requireGather .gather = .ok () := if_pos hgather
  rw [gather, hrequire]
  refine always_timed gatherTask ?_
  cases howners : v.owners indices with
  | error e =>
    obtain ⟨i, -, rfl⟩ := exists_of_owners_eq_error howners
    exact ⟨nofun, fun e he => Except.error.inj he ▸ rfl⟩
  | ok owners =>
    refine Routine.Always.mono (h.settles_converse howners) fun outcome houtcome => ?_
    cases outcome with
    | ok values => exact ⟨fun _ hvalues => Except.ok.inj hvalues ▸ houtcome, nofun⟩
    | error e =>
      exact ⟨nofun, fun _ he => Except.error.inj he ▸ Error.ofTarget_of_not_ofCheck houtcome⟩

/-! ## 3. The target -/

/-- A target stays in its group and on its backend, and is bound afterwards. -/
theorem filled_keeps (w : Shard) (values : List Binary64) :
    (w.filled values).seat = w.seat ∧ (w.filled values).backend = w.backend ∧
      (w.filled values).isBound := by
  have hready : (w.readied values.length).seat = w.seat ∧
      (w.readied values.length).backend = w.backend ∧ (w.readied values.length).isBound := by
    rw [readied]
    split
    · next hbound => exact ⟨rfl, rfl, hbound⟩
    · exact ⟨rfl, (Storage.follows_reset w.storage _).backend, rfl⟩
  obtain ⟨hseat, hbackend, hbound⟩ := hready
  exact ⟨hseat, (Storage.follows_edit _ _).backend.trans hbackend, hbound⟩

theorem WellFormed.checkTarget_of_fault_none (hw : w.WellFormed)
    (h : v.targetFault w count = none) : v.checkTarget w count = .ok () := by
  rw [checkTarget_eq hw.seat, h]

/-- **A target that nothing is wrong with takes in as many entries as it was checked for.** -/
theorem WellFormed.filled_of_fault_none (hw : w.WellFormed) (hcount : count < 2 ^ 64)
    (hfault : v.targetFault w count = none) {values : List Binary64}
    (hlen : values.length = count) :
    (w.readied values.length).storage.setLocal values = .ok (w.filled values).storage ∧
      w.receive values = .ok (w.filled values) ∧ (w.filled values).toList = values ∧
      (w.filled values).size.toNat = count := by
  subst hlen
  have hcheck := hw.checkTarget_of_fault_none hfault
  obtain ⟨hwrite, hreceive, hwell, hlist⟩ := hw.filled_spec hcount hcheck
  refine ⟨hwrite, hreceive, hlist, ?_⟩
  have hone : (w.filled values).seat.size = 1 :=
    (congrArg Seat.size (w.filled_keeps values).1).trans (of_checkTarget hcheck).1
  rw [← hwell.length_eq_size hone, hlist]

theorem gather_eq_gatherValues (hgather : v.capabilities.gather = true) (indices : List UInt64) :
    v.gather indices = v.gatherValues indices := by
  have hrequire : v.requireGather .gather = .ok () := if_pos hgather
  rw [gather, hrequire]
  rfl

/-- **Past the check a gather into a target comes to what a gather comes to**, and the target takes
in what has come. -/
theorem WellFormed.outcome_gatherInto (hv : v.WellFormed) (hw : w.WellFormed)
    {indices : List UInt64} (hfits : indices.length < 2 ^ 64)
    (hfault : v.targetFault w indices.length = none) :
    (v.gatherInto w indices).outcome =
      (v.gather indices).outcome >>= fun outcome => .finish (w.filled <$> outcome) := by
  have hcheck := hw.checkTarget_of_fault_none hfault
  rw [gatherInto, gather_eq_gatherValues (gather_of_fault_none hfault), hcheck]
  simp only [Attempt.outcome_bind, Attempt.outcome_ofExcept, Routine.finish_bind]
  have halways := (hv.guarded_gatherValues indices).always
  refine Routine.bind_congr_of_always (halways.mono fun outcome houtcome => ?_)
  cases outcome with
  | error e => rfl
  | ok values =>
    obtain ⟨-, hreceive, -, -⟩ := hw.filled_of_fault_none hfits hfault (houtcome values rfl)
    exact congrArg Routine.finish hreceive

/-! ## 4. A gather into a target -/

section Steps

variable (hv : v.WellFormed) (hw : w.WellFormed) {indices : List UInt64}
  (hfits : indices.length < 2 ^ 64)

include hv hw hfits

/-- The steps of a gather into a target leave a target that is refused as it was. -/
theorem perform_receive_eq :
    (Request.receive v indices).perform w = (v.gatherInto w indices).outcome >>= fun outcome =>
      .finish (match outcome with
        | .ok u => (.ok .nothing, u)
        | .error e => (.error e, w)) := by
  rw [perform_receive hw hv hfits, Request.attempt, Attempt.outcome_bind, Routine.bind_assoc]
  refine congrArg (_ >>= ·) (funext fun outcome => ?_)
  cases outcome <;> rfl

theorem perform_receive_of_fault {e : Error} (hfault : v.targetFault w indices.length = some e) :
    ((Request.receive v indices).perform w).Silently (.error e, w) := by
  have hcheck : v.checkTarget w indices.length = .error e := by
    rw [checkTarget_eq hw.seat, hfault]
  rw [perform_receive_eq hv hw hfits, gatherInto, hcheck]
  rfl

theorem perform_receive_of_fault_none (hfault : v.targetFault w indices.length = none) :
    (Request.receive v indices).perform w = (v.gather indices).outcome >>= fun outcome =>
      .finish (match outcome with
        | .ok values => (.ok .nothing, w.filled values)
        | .error e => (.error e, w)) := by
  rw [perform_receive_eq hv hw hfits, hv.outcome_gatherInto hw hfits hfault, Routine.bind_assoc]
  refine congrArg (_ >>= ·) (funext fun outcome => ?_)
  cases outcome <;> rfl

/-- How a gather into a target ends that nothing is wrong with: as a gather ends. -/
theorem ends_of_fault_none (hfault : v.targetFault w indices.length = none) {sent : List Letter}
    {outcome : Except Error Reply} {w' : Shard}
    (hends : ((Request.receive v indices).perform w).Ends sent (outcome, w')) :
    (∃ e, (v.gather indices).outcome.Ends sent (.error e) ∧ outcome = .error e ∧ w' = w ∧
      e.ofTarget = false) ∨
    ∃ values, (v.gather indices).outcome.Ends sent (.ok values) ∧ outcome = .ok .nothing ∧
      w' = w.filled values ∧ values.length = indices.length := by
  rw [perform_receive_of_fault_none hv hw hfits hfault] at hends
  obtain ⟨came, hcame, hlast⟩ := hends.of_bind_finish
  have halways := hv.always_gather (gather_of_fault_none hfault) indices
  obtain ⟨hlen, hother⟩ := halways.of_ends hcame
  cases came with
  | error e =>
    obtain ⟨houtcome, hleft⟩ := Prod.mk.inj hlast
    exact .inl ⟨e, hcame, houtcome.symm, hleft.symm, hother e rfl⟩
  | ok values =>
    obtain ⟨houtcome, hleft⟩ := Prod.mk.inj hlast
    exact .inr ⟨values, hcame, houtcome.symm, hleft.symm, hlen values rfl⟩

end Steps

/-- **A gather into a target**, of any source and into any target, whatever the other ranks send.
It is refused for its source or its target exactly when the backend of the source cannot gather,
the target is distributed, or the target has a size and another one than is asked for; the first
of these that holds is reported, and nothing is sent or waited for before.  Otherwise it sends what
a gather sends and is refused only as that is refused, and a refusal of either kind leaves the
target as it was.  When it is not refused, the target is bound to as many entries as were asked for,
on its backend, and holds what a gather returns: the last write into it cannot be refused. -/
theorem Reachable.fills_target (hv : v.Reachable) (hw : w.Reachable) {indices : List UInt64}
    (hfits : indices.length < 2 ^ 64) :
    let went := (Request.receive v indices).perform w
    let gathered := (v.gather indices).outcome
    let fault := v.targetFault w indices.length
    (went = (v.gatherInto w indices).outcome >>= fun outcome => .finish (match outcome with
      | .ok u => (.ok .nothing, u)
      | .error e => (.error e, w))) ∧
    (fault ≠ none ↔ v.capabilities.gather = false ∨ 1 < w.seat.size ∨
      w.isBound ∧ w.size.toNat ≠ indices.length) ∧
    (∀ e, fault = some e → went.Silently (.error e, w)) ∧
    (fault = none → went = gathered >>= fun outcome => .finish (match outcome with
      | .ok values => (.ok .nothing, w.filled values)
      | .error e => (.error e, w))) ∧
    (fault = none → ∀ sent values, gathered.Ends sent (.ok values) →
      (w.readied values.length).storage.setLocal values = .ok (w.filled values).storage) ∧
    ∀ sent outcome w', went.Ends sent (outcome, w') →
      ((∃ e, outcome = .error e ∧ e.ofTarget) ↔ v.capabilities.gather = false ∨ 1 < w.seat.size ∨
        w.isBound ∧ w.size.toNat ≠ indices.length) ∧
      (∀ e, outcome = .error e → w' = w ∧
        (fault = some e ∧ sent = [] ∨ fault = none ∧ gathered.Ends sent (.error e))) ∧
      ∀ reply, outcome = .ok reply → ∃ values, gathered.Ends sent (.ok values) ∧
        values.length = indices.length ∧ w'.toList = values ∧ w'.isBound ∧
        w'.size.toNat = indices.length ∧ w'.backend = w.backend ∧ w'.seat = w.seat := by
  intro went gathered fault
  refine ⟨perform_receive_eq hv.wellFormed hw.wellFormed hfits, targetFault_ne_none_iff,
    fun e => perform_receive_of_fault hv.wellFormed hw.wellFormed hfits,
    perform_receive_of_fault_none hv.wellFormed hw.wellFormed hfits,
    fun hfault sent values hends => ?_, fun sent outcome w' hends => ?_⟩
  · have halways := hv.wellFormed.always_gather (gather_of_fault_none hfault) indices
    have hlen := (halways.of_ends hends).1 values rfl
    exact (hw.wellFormed.filled_of_fault_none hfits hfault hlen).1
  rw [← targetFault_ne_none_iff]
  cases hfault : v.targetFault w indices.length with
  | some e =>
    have hsilent := perform_receive_of_fault hv.wellFormed hw.wellFormed hfits hfault
    obtain ⟨rfl, hlast⟩ := hsilent.eq_of_ends hends
    obtain ⟨rfl, rfl⟩ := Prod.mk.inj hlast
    have hreported : fault = some e := hfault
    refine ⟨iff_of_true ⟨e, rfl, ofTarget_of_targetFault hfault⟩ nofun, fun e' he => ?_, nofun⟩
    obtain rfl := Except.error.inj he
    exact ⟨rfl, .inl ⟨hreported, rfl⟩⟩
  | none =>
    have hnone : fault = none := hfault
    rcases ends_of_fault_none hv.wellFormed hw.wellFormed hfits hfault hends with
      ⟨e, hcame, rfl, rfl, hother⟩ | ⟨values, hcame, rfl, rfl, hlen⟩
    · refine ⟨iff_of_false ?_ (not_not.mpr rfl), fun e' he => ?_, nofun⟩
      · rintro ⟨e', he, htarget⟩
        obtain rfl := Except.error.inj he
        exact absurd (hother.symm.trans htarget) (by decide)
      · obtain rfl := Except.error.inj he
        exact ⟨rfl, .inr ⟨hnone, hcame⟩⟩
    · obtain ⟨-, -, hlist, hsize⟩ := hw.wellFormed.filled_of_fault_none hfits hfault hlen
      obtain ⟨hseat, hbackend, hbound⟩ := w.filled_keeps values
      exact ⟨iff_of_false nofun (not_not.mpr rfl), nofun,
        fun _ _ => ⟨values, hcame, hlen, hlist, hbound, hsize, hbackend, hseat⟩⟩

/-- Three entries of a contiguous array go into a vector in blocks, one of them twice; a vector of
two entries does not take them. -/
theorem fills_target_unbound :
    let source := (unbound (.ofRank 0 1) .dense).initSize 3
    let v := (source.editLocal (.setLocal [.one, .negativeOne, .zero])).1
    let w := unbound (.ofRank 0 1) .tpetra
    let indices : List UInt64 := [2, 0, 2]
    let w' := w.filled [.zero, .one, .zero]
    (v.Reachable ∧ w.Reachable ∧ (w.initSize 2).Reachable ∧ indices.length < 2 ^ 64) ∧
      (((Request.receive v indices).perform w).Ends [] (.ok .nothing, w') ∧
        w'.toList = [.zero, .one, .zero] ∧ w'.size.toNat = 3 ∧ w'.backend = .tpetra) ∧
      ((Request.receive v indices).perform (w.initSize 2)).Silently
        (.error (.dimensionMismatch .gather 3 2), w.initSize 2) := by
  intro source v w indices w'
  have hempty (backend : Backend) : (unbound (.ofRank 0 1) backend).Reachable :=
    .unbound ⟨by decide, by decide⟩ backend
  have hv : v.Reachable :=
    .left (t := .edit (.setLocal [.one, .negativeOne, .zero])) ((hempty .dense).initSize 3) nofun
      trivial (.finish _)
  have hw : w.Reachable := hempty .tpetra
  have hfits : indices.length < 2 ^ 64 := by decide
  have hvalue : ((v.gather indices).outcome.rehearse []).value = .ok [.zero, .one, .zero] := by
    decide +kernel
  have hsent : ((v.gather indices).outcome.rehearse []).sent = [] := by decide +kernel
  have hgathered := Routine.ends_rehearse (v.gather indices).outcome []
  rw [hvalue, hsent] at hgathered
  obtain ⟨-, -, -, hgoes, -, hending⟩ := hv.fills_target hw hfits
  obtain ⟨-, -, hrefused, -⟩ := hv.fills_target (hw.initSize 2) hfits
  have hends : ((Request.receive v indices).perform w).Ends [] (.ok .nothing, w') := by
    rw [hgoes (by decide +kernel)]
    exact hgathered.bind_finish _
  obtain ⟨-, -, htaken⟩ := hending _ _ _ hends
  obtain ⟨-, -, -, -, -, hsize, hbackend, -⟩ := htaken .nothing rfl
  exact ⟨⟨hv, hw, hw.initSize 2, hfits⟩, ⟨hends, by decide +kernel, hsize, hbackend⟩,
    hrefused _ (by decide +kernel)⟩

end Shard

end ShardedVector
