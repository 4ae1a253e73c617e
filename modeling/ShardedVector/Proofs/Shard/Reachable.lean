/-
# Shards that can come about

`Shard.Reachable` is every shard that some sequence of requests leaves or makes, whether they
succeed or are refused, and whatever the other ranks send meanwhile.  Two facts carry the
induction.

* `perform_eq`: the steps of a request come to what the request comes to as an operation, with the
  same shard left when it is refused.  Only a gather into an unbound target could differ: it is
  bound before the entries are taken in, and they fit.
* `perform_spec`: what is left, and what is made, agrees in its parts.

`Reachable.agrees` says what that means to a user of the vector.
-/
import ShardedVector.Proofs.Shard.Guarded

namespace ShardedVector

variable {v : Shard}

/-! ## 1. Steps and operations -/

/-- A check of the layouts and an edit of the storage. -/
theorem on_checked_edit {op : Operation} {w : Shard} {e : Storage.Edit}
    {outcome : Except Error Storage} (hedit : v.storage.edit e = v.storage.settleWith outcome) :
    InPlace.on (do
      InPlace.look fun v => v.checkLayout w op
      InPlace.editStorage e
      return Reply.nothing) v =
    Attempt.outcome (do
      let u ← Attempt.ofExcept (do
        v.checkLayout w op
        v.withStorage outcome)
      return (Reply.nothing, u)) >>= fun outcome => .finish (settled v outcome) := by
  simp only [InPlace.on_bind, InPlace.on_look, InPlace.on_editStorage, Routine.finish_bind, hedit]
  cases v.checkLayout w op with
  | error e => rfl
  | ok _ => cases outcome <;> rfl

/-- **The steps of a gather into a target**: the target may be bound by the time the entries are
taken in, but then they are not refused any more. -/
theorem perform_receive (h : v.WellFormed) {source : Shard} (hsource : source.WellFormed)
    {indices : List UInt64} (hfits : indices.length < 2 ^ 64) :
    (Request.receive source indices).perform v =
      ((Request.receive source indices).attempt v).outcome >>= fun outcome =>
        .finish (settled v outcome) := by
  simp only [Request.perform, Request.steps, Request.attempt, Shard.gatherInto, InPlace.on_bind,
    InPlace.on_look, InPlace.on_talk, Attempt.outcome_bind, Attempt.outcome_ofExcept,
    Routine.finish_bind, Routine.bind_assoc]
  cases hcheck : source.checkTarget v indices.length with
  | error e => rfl
  | ok _ =>
    simp only [Routine.bind_assoc]
    have hgather := (hsource.guarded_gatherValues indices).always
    refine Routine.bind_congr_of_always (hgather.mono fun outcome houtcome => ?_)
    cases outcome with
    | error e => rfl
    | ok values =>
      have hvalues := houtcome values rfl
      rw [← hvalues] at hfits hcheck
      obtain ⟨hwrite, hreceive, -, -⟩ := h.filled_spec hfits hcheck
      have hedit : (v.readied values.length).storage.edit (.setLocal values) =
          ((v.filled values).storage, .ok ()) :=
        congrArg (v.readied values.length).storage.settleWith hwrite
      have hleft : { v.readied values.length with storage := (v.filled values).storage } =
          v.filled values := rfl
      simp [hedit, hreceive, settled, hleft]

/-- **The steps of a request come to what the request comes to as an operation**, and leave the
same shard when it is refused. -/
theorem perform_eq (h : v.WellFormed) {t : Request} (hoperands : ∀ w ∈ t.operands, w.WellFormed)
    (hfits : t.Fits) :
    t.perform v = (t.attempt v).outcome >>= fun outcome =>
      .finish (settled (t.refused v) outcome) := by
  cases t with
  | ask inquiry =>
    simp only [Request.perform, Request.steps, Request.attempt, InPlace.on_talk,
      Attempt.outcome_bind, Routine.bind_assoc]
    refine congrArg ((inquiry.attempt v).outcome >>= ·) (funext fun outcome => ?_)
    cases outcome <;> rfl
  | norm k =>
    simp only [Request.perform, Request.steps, Request.attempt, Shard.norm, InPlace.on_bind,
      InPlace.on_askNorm, InPlace.on_talk, Attempt.outcome_bind, Routine.finish_bind,
      Routine.bind_assoc]
    refine congrArg ((Collective.reduceAll v.seat _ _ _).outcome >>= ·) (funext fun outcome => ?_)
    cases outcome <;> rfl
  | initSize n => rfl
  | init claim =>
    simp only [Request.perform, Request.steps, Request.attempt, Shard.init, InPlace.on_bind,
      InPlace.on_talk, Attempt.outcome_bind, Routine.finish_bind, Routine.bind_assoc]
    refine congrArg ((v.timed _ _).outcome >>= ·) (funext fun outcome => ?_)
    cases outcome <;> rfl
  | edit e =>
    have houtcome : (v.editLocal e).2 = (v.storage.edit e.toEdit).2 := rfl
    simp only [Request.perform, Request.steps, Request.attempt, InPlace.on_bind,
      InPlace.on_editStorage, Attempt.outcome_bind, Attempt.outcome_ofExcept, Routine.finish_bind,
      houtcome]
    cases (v.storage.edit e.toEdit).2 <;> rfl
  | assign w => exact on_checked_edit rfl
  | axpy a w => exact on_checked_edit rfl
  | combineAssign sign w => exact on_checked_edit (sign.edit_eq_settleWith v.storage w.storage)
  | numberAssign sign x => rfl
  | scalarAssign sign s =>
    simp only [Request.perform, Request.steps, Request.attempt, Shard.combineScalarAssign,
      InPlace.on_bind, InPlace.on_look, Attempt.outcome_bind, Attempt.outcome_ofExcept,
      Routine.finish_bind]
    cases s.promote <;> rfl
  | receive source indices => exact perform_receive h (hoperands source List.mem_cons_self) hfits

/-! ## 2. What requests leave and make -/

theorem wellFormed_refused (h : v.WellFormed) (t : Request) : (t.refused v).WellFormed := by
  cases t with
  | edit e => exact h.editLocal e
  | norm k => exact h.norm k
  | _ => exact h

/-- **What a request leaves, and what it makes, agrees in its parts**, however it ends. -/
theorem perform_spec (h : v.WellFormed) {t : Request} (hoperands : ∀ w ∈ t.operands, w.WellFormed)
    (hfits : t.Fits) {sent : List Letter} {outcome : Except Error Reply} {v' : Shard}
    (hends : (t.perform v).Ends sent (outcome, v')) :
    v'.WellFormed ∧ ∀ reply, outcome = .ok reply → reply.WellFormed := by
  rw [perform_eq h hoperands hfits] at hends
  obtain ⟨came, hcame, hsettled⟩ := hends.of_bind_finish
  cases came with
  | ok x =>
    obtain ⟨hreply, hleft⟩ := ((guarded_attempt h hoperands hfits).of_ends hcame).1 x rfl
    obtain ⟨rfl, rfl⟩ := Prod.mk.inj hsettled
    exact ⟨hleft, fun reply hr => Except.ok.inj hr ▸ hreply⟩
  | error e =>
    obtain ⟨rfl, rfl⟩ := Prod.mk.inj hsettled
    exact ⟨wellFormed_refused h t, nofun⟩

/-! ## 3. Everything that can come about -/

namespace Shard

/-- The shards that sequences of requests leave and make, beginning with unbound ones.  Operands
are such shards too, and the other ranks may send anything. -/
inductive Reachable : Shard → Prop
  | unbound {seat : Seat} (hseat : seat.Valid) (backend : Backend) :
      Reachable (.unbound seat backend)
  | instrumented {v : Shard} (h : Reachable v) (on : Bool) :
      Reachable { v with instrumented := on }
  | left {v v' : Shard} {t : Request} {sent : List Letter} {outcome : Except Error Reply}
      (h : Reachable v) (hoperands : ∀ w ∈ t.operands, Reachable w) (hfits : t.Fits)
      (hends : (t.perform v).Ends sent (outcome, v')) : Reachable v'
  | made {v v' u : Shard} {t : Request} {sent : List Letter} (h : Reachable v)
      (hoperands : ∀ w ∈ t.operands, Reachable w) (hfits : t.Fits)
      (hends : (t.perform v).Ends sent (.ok (.vector u), v')) : Reachable u

theorem Reachable.wellFormed {v : Shard} (h : v.Reachable) : v.WellFormed := by
  induction h with
  | unbound hseat backend => exact wellFormed_unbound hseat backend
  | instrumented _ on ih => exact ih.instrument on
  | left _ _ hfits hends ih ihoperands => exact (perform_spec ih ihoperands hfits hends).1
  | made _ _ hfits hends ih ihoperands =>
    exact (perform_spec ih ihoperands hfits hends).2 _ rfl

theorem Reachable.initSize {v : Shard} (h : v.Reachable) (n : UInt64) : (v.initSize n).Reachable :=
  .left (t := .initSize n) h nofun trivial (.finish _)

theorem Reachable.init {v u : Shard} (h : v.Reachable) {claim : Span} {sent : List Letter}
    (hends : (v.init claim).outcome.Ends sent (.ok u)) : u.Reachable := by
  have hperform : (Request.init claim).perform v = (v.init claim).outcome >>= fun outcome =>
      .finish (settled v ((fun u => (Reply.nothing, u)) <$> outcome)) := by
    rw [perform_eq h.wellFormed (t := .init claim) nofun trivial, Request.attempt,
      Attempt.outcome_bind, Routine.bind_assoc]
    refine congrArg (_ >>= ·) (funext fun outcome => ?_)
    cases outcome <;> rfl
  refine .left (t := .init claim) h nofun trivial (?_ : Routine.Ends _ sent (.ok .nothing, u))
  rw [hperform]
  exact hends.bind_finish _

/-- The offsets of a table ascend. -/
theorem pairwise_of_tiles {size : Nat} {offsets : List UInt64}
    (h : Partition.Tiles size offsets) : offsets.Pairwise (· ≤ ·) := by
  refine List.pairwise_iff_getElem.mpr fun r s hr hs hrs => ?_
  have hlen := h.length
  have hmono := h.mono (Nat.le_of_lt hrs) (by omega)
  rw [List.getD_eq_getElem _ _ hr, List.getD_eq_getElem _ _ hs] at hmono
  exact UInt64.le_iff_toNat_le.mpr hmono

/-- **The parts of a vector agree on every rank, whatever was done with it.**  There are as many
entries as the own range is long, none at all on an unbound vector; the table has one offset more
than there are ranks, from zero on and never descending; and an index is owned exactly when there
is an entry for it.  So operands that the check of layouts accepts are never refused by the kernel
that follows it. -/
theorem Reachable.agrees {v : Shard} (hv : v.Reachable) :
    v.localRange.start ≤ v.localRange.stop ∧
    v.localSize = (v.localRange.stop - v.localRange.start).toNat ∧
    (v.isBound = false → v.localSize = 0 ∧ v.toList = []) ∧
    (∀ p, v.layout = some p → p.offsets.length = v.seat.size + 1 ∧ p.offsets[0]? = some 0 ∧
      p.offsets.Pairwise (· ≤ ·)) ∧
    (∀ g, v.localRange.start ≤ g →
      (v.owns g = true ↔ (v.storage.entry? (g - v.localRange.start).toNat).isSome)) ∧
    (∀ w : Shard, w.Reachable → w.seat = v.seat → ∀ op, v.checkLayout w op = .ok () →
      (∃ s, v.storage.setLocal w.toList = .ok s) ∧
      (∀ a, ∃ s, v.storage.axpy a w.storage = .ok s) ∧
      (∀ sign : Sign, ∃ s, sign.combine v.storage w.storage = .ok s) ∧
      ∃ x, v.storage.localDot w.storage = .ok x) := by
  have h := hv.wellFormed
  refine ⟨h.start_le_stop, h.localSize_eq, ?_, ?_, fun g hg => h.owns_iff hg, ?_⟩
  · intro hunbound
    have hnone : v.layout = none := by simpa [isBound] using hunbound
    have hempty := h.toList_unbound hnone
    refine ⟨?_, hempty⟩
    rw [localSize, Storage.size_eq_length h.sound]
    exact congrArg List.length hempty
  · intro p hp
    have htiles := (h.layout p hp).tiles
    have hlen := htiles.length
    have hfirst := htiles.first
    refine ⟨hlen, ?_, pairwise_of_tiles htiles⟩
    rw [List.getD_eq_getElem _ _ (by omega)] at hfirst
    rw [List.getElem?_eq_getElem (by omega), hfirst]
  · intro w hw hseat op hcheck
    have hlen := h.length_eq_of_checkLayout hw.wellFormed (congrArg Seat.rank hseat) hcheck
    have zipped (kernel : Operation) (f : Binary64 → Binary64 → Binary64) :
        ∃ s, v.storage.zip kernel f w.toList = .ok s := by
      obtain ⟨s, hok, -⟩ := Storage.zip_spec kernel f h.sound hlen
      exact ⟨s, hok⟩
    refine ⟨?_, fun a => zipped _ _, fun sign => ?_, _, h.localDot_eq hw.wellFormed hlen⟩
    · rw [Storage.setLocal_eq_zip]
      exact zipped _ _
    · rw [Sign.combine_eq_zip]
      exact zipped _ _

/-- The middle one of three ranks that share seven entries. -/
theorem agrees_middle :
    let v := (unbound (.ofRank 1 3) .tpetra).initSize 7
    v.Reachable ∧ v.localRange = ⟨3, 5⟩ ∧ v.localSize = 2 ∧
      (∀ g, 3 ≤ g → (v.owns g = true ↔ (v.storage.entry? (g - 3).toNat).isSome)) ∧
      (∃ s, v.storage.setLocal v.copy.toList = .ok s) := by
  intro v
  have hreachable : v.Reachable :=
    (Reachable.unbound ⟨by decide, by decide⟩ .tpetra).initSize 7
  have hrange : v.localRange = ⟨3, 5⟩ := by decide +kernel
  have hcopy : v.copy.Reachable := .made (t := .ask .copy) hreachable nofun trivial (.finish _)
  obtain ⟨-, hsize, -, -, howns, hkernels⟩ := hreachable.agrees
  rw [hrange] at hsize howns
  refine ⟨hreachable, hrange, hsize, howns, ?_⟩
  exact (hkernels v.copy hcopy rfl .assign (by decide +kernel)).1

end Shard

end ShardedVector
