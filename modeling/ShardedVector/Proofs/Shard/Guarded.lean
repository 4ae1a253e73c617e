/-
# Checks come first

Every operation of a shard that is refused by a check is refused before it sends anything or waits
for anything, and the value of one that is not refused is as it should be, whatever the other ranks
send (`Attempt.Guarded`).

Most operations make their checks and then converse.  Two go on after a conversation in a way that
could be refused once more, and there the number of entries decides: a gather brings one entry for
each index (`guarded_gatherValues`), so what was redistributed fits the left operand
(`guarded_combine`), and what was gathered fits its target (`guarded_gatherInto`).

`guarded_attempt` is the same for every request.
-/
import ShardedVector.Proofs.Shard.InPlace
import ShardedVector.Proofs.Shard.WellFormed

namespace ShardedVector

namespace Shard

/-! ## 1. Gathering -/

/-- The owners of a list of indices are ranks of the group, one for each index. -/
theorem WellFormed.owners_spec {v : Shard} (h : v.WellFormed) :
    ∀ {indices : List UInt64} {owners : List Nat}, v.owners indices = .ok owners →
      owners.length = indices.length ∧ ∀ o ∈ owners, o < v.seat.size
  | [], owners, hok => by
    obtain rfl := Except.ok.inj hok
    exact ⟨rfl, nofun⟩
  | i :: rest, owners, hok => by
    rw [Shard.owners] at hok
    cases howner : v.ownerOf? i with
    | none =>
      rw [howner] at hok
      cases hok
    | some owner =>
      cases hrest : v.owners rest with
      | error e =>
        rw [howner, hrest] at hok
        cases hok
      | ok others =>
        rw [howner, hrest] at hok
        obtain rfl := Except.ok.inj hok
        obtain ⟨hlen, hlt⟩ := h.owners_spec hrest
        have hown : owner < v.seat.size := by
          cases hlayout : v.layout with
          | none =>
            rw [Shard.ownerOf?, hlayout] at howner
            cases howner
          | some p =>
            rw [Shard.ownerOf?, hlayout] at howner
            exact ((h.layout p hlayout).tiles.ownerOf?_eq_some_iff.mp howner).1
        exact ⟨congrArg (· + 1) hlen, List.forall_mem_cons.mpr ⟨hown, hlt⟩⟩

/-- A rank is asked for as many entries as it owns indices of the list. -/
theorem length_askedOf (rank : Nat) :
    ∀ {owners : List Nat} {indices : List UInt64}, owners.length = indices.length →
      (askedOf rank owners indices).length = owners.count rank
  | [], _, _ => rfl
  | owner :: owners, i :: indices, h => by
    have ih := length_askedOf rank (Nat.succ.inj h)
    rw [askedOf, List.count_cons]
    by_cases howner : owner = rank
    · rw [if_pos howner, if_pos (beq_iff_eq.mpr howner), List.length_cons, ih]
    · rw [if_neg howner, if_neg (fun hbeq => howner (beq_iff_eq.mp hbeq)), ih, Nat.add_zero]

/-- Answers in the number that was asked for are all of the right number. -/
theorem length_of_checkAnswers :
    ∀ {first : Nat} {requests : List (List UInt64)} {answers : List (List Binary64)},
      checkAnswers first requests answers = .ok () →
        ∀ r < requests.length, (answers.getD r []).length = (requests.getD r []).length
  | _, [], _, _, _, hr => absurd hr (Nat.not_lt_zero _)
  | first, asked :: requests, answers, h, r, hr => by
    rw [checkAnswers] at h
    by_cases hfirst : (answers.headD []).length = asked.length
    · rw [if_pos hfirst] at h
      cases r with
      | zero =>
        cases answers with
        | nil => exact hfirst
        | cons received answers => exact hfirst
      | succ r =>
        have ih := length_of_checkAnswers h r (Nat.lt_of_succ_lt_succ hr)
        cases answers with
        | nil => exact ih
        | cons received answers => exact ih
    · rw [if_neg hfirst] at h
      cases h

/-- With answers enough for every owner the first index takes the first answer of its owner, and
there are answers enough for the rest: its owner is counted once less. -/
theorem assemble_cons {owner : Nat} {rest : List Nat} {answers : List (List Binary64)}
    (h : ∀ o, (owner :: rest).count o ≤ (answers.getD o []).length) :
    ∃ x others, answers.getD owner [] = x :: others ∧
      assemble (owner :: rest) answers = x :: assemble rest (answers.set owner others) ∧
      ((answers.set owner others).getD owner [] = others ∧
        ∀ o, owner ≠ o → (answers.set owner others).getD o [] = answers.getD o []) ∧
      ∀ o, rest.count o ≤ ((answers.set owner others).getD o []).length := by
  have hown := h owner
  rw [List.count_cons_self, List.getD_eq_getElem?_getD] at hown
  cases hget : answers[owner]? with
  | none =>
    rw [hget] at hown
    exact absurd hown (Nat.not_succ_le_zero _)
  | some received =>
    cases received with
    | nil =>
      rw [hget] at hown
      exact absurd hown (Nat.not_succ_le_zero _)
    | cons x others =>
      have hlt : owner < answers.length := (List.getElem?_eq_some_iff.mp hget).1
      have hself : (answers.set owner others).getD owner [] = others := by
        rw [List.getD_eq_getElem?_getD, List.getElem?_set_self hlt, Option.getD_some]
      have hother : ∀ o, owner ≠ o →
          (answers.set owner others).getD o [] = answers.getD o [] := fun o hoo => by
        rw [List.getD_eq_getElem?_getD, List.getElem?_set_ne hoo, List.getD_eq_getElem?_getD]
      refine ⟨x, others, ?_, ?_, ⟨hself, hother⟩, fun o => ?_⟩
      · rw [List.getD_eq_getElem?_getD, hget, Option.getD_some]
      · rw [assemble, hget]
      · by_cases hoo : owner = o
        · subst hoo
          rw [hget] at hown
          rw [hself]
          exact Nat.le_of_succ_le_succ hown
        · have ho := h o
          rw [List.count_cons_of_ne hoo] at ho
          rwa [hother o hoo]

/-- With answers enough for every owner there is an entry for every index. -/
theorem length_assemble :
    ∀ {owners : List Nat} {answers : List (List Binary64)},
      (∀ o, owners.count o ≤ (answers.getD o []).length) →
        (assemble owners answers).length = owners.length
  | [], _, _ => rfl
  | owner :: rest, answers, h => by
    obtain ⟨x, others, -, hassemble, -, henough⟩ := assemble_cons h
    rw [hassemble, List.length_cons, List.length_cons, length_assemble henough]

theorem guarded_timed {α : Type} (v : Shard) (task : String) {a : Attempt α} {P : α → Prop}
    (h : a.Guarded P) : (v.timed task a).Guarded P := by
  rw [timed]
  split
  · exact h.timed task
  · exact h

theorem pastChecks_checkRequests (v : Shard) :
    ∀ (first : Nat) (rows : List (List UInt64)),
      PastChecks (fun _ => True) (v.checkRequests first rows)
  | _, [] => trivial
  | first, wanted :: rest => by
    rw [checkRequests]
    split
    · rfl
    · exact pastChecks_checkRequests v (first + 1) rest

theorem pastChecks_checkAnswers :
    ∀ (first : Nat) (requests : List (List UInt64)) (answers : List (List Binary64)),
      PastChecks (fun _ => checkAnswers first requests answers = .ok ())
        (checkAnswers first requests answers)
  | _, [], _ => rfl
  | first, asked :: requests, answers => by
    rw [checkAnswers]
    split
    · exact pastChecks_checkAnswers (first + 1) requests answers.tail
    · rfl

variable {v w : Shard}

/-- Once the owners are known no check is made any more, and there is an answer for each index. -/
theorem WellFormed.settles_converse (h : v.WellFormed) {indices : List UInt64} {owners : List Nat}
    (howners : v.owners indices = .ok owners) :
    (v.converse indices owners).Settles fun values => values.length = indices.length := by
  obtain ⟨hlen, hlt⟩ := h.owners_spec howners
  refine (Collective.settles_allToAllRecords v.seat _ (by simp [Seat.ranks])).bind
    fun incoming hincoming => ?_
  refine (Collective.settles_allToAllRecords v.seat _ (by rwa [List.length_map])).bind
    fun answers _ => ?_
  refine (Attempt.settles_ofExcept (v.pastChecks_checkRequests 0 incoming)).bind fun _ _ => ?_
  refine (Attempt.settles_ofExcept (pastChecks_checkAnswers 0 _ answers)).bind
    fun _ hanswers => Attempt.settles_pure ?_
  refine (length_assemble fun o => ?_).trans hlen
  -- a rank of the group answered what it was asked; no other one owns an index
  by_cases ho : o < v.seat.size
  · have hanswer := length_of_checkAnswers hanswers o (by simpa [Seat.ranks] using ho)
    rw [hanswer]
    simp [Seat.ranks, ho, length_askedOf o hlen]
  · rw [List.count_eq_zero_of_not_mem fun hmem => ho (hlt o hmem)]
    exact Nat.zero_le _

/-- **A gather brings one entry for each index.**  Only an index out of range is refused by a
check, and that before anything is sent. -/
theorem WellFormed.guarded_gatherValues (h : v.WellFormed) (indices : List UInt64) :
    (v.gatherValues indices).Guarded fun values => values.length = indices.length :=
  guarded_timed v gatherTask (Attempt.guarded_check fun _ howners =>
    (h.settles_converse howners).guarded)

theorem WellFormed.guarded_redistribute (h : v.WellFormed) (layout : Partition) :
    (v.redistribute layout).Guarded fun values =>
      values.length = layout.localRange.stop.toNat - layout.localRange.start.toNat :=
  Attempt.guarded_check fun _ _ => by
    have hgather := h.guarded_gatherValues layout.localRange.indices
    simpa [Span.indices] using hgather

/-- Claims that are refused are refused after the conversation, but for no check. -/
theorem WellFormed.guarded_init (h : v.WellFormed) (claim : Span) :
    (v.init claim).Guarded WellFormed :=
  (guarded_timed v partitionTask (Partition.settles_explicit v.seat claim).guarded).bind
    fun _ hp => Attempt.settles_pure (wellFormed_bind h.seat hp)

/-! ## 2. Targets -/

theorem of_checkTarget {count : Nat} (h : w.checkTarget v count = .ok ()) :
    v.seat.size = 1 ∧ (v.isBound → v.size.toNat = count) := by
  rw [checkTarget] at h
  cases hgather : w.requireGather .gather with
  | error e =>
    rw [hgather] at h
    cases h
  | ok _ =>
    rw [hgather] at h
    change (if v.seat.size ≠ 1 then _ else _) = _ at h
    by_cases hone : v.seat.size = 1
    · rw [if_neg (not_not.mpr hone)] at h
      refine ⟨hone, fun hbound => ?_⟩
      by_contra hsize
      rw [if_pos ⟨hbound, hsize⟩] at h
      cases h
    · rw [if_pos hone] at h
      cases h

/-- **What is gathered fits its target**: a target that was accepted has the size that was asked
for, or is bound to it. -/
theorem WellFormed.readied_spec (h : v.WellFormed) {count : Nat} (hcount : count < 2 ^ 64)
    (hcheck : w.checkTarget v count = .ok ()) :
    (v.readied count).WellFormed ∧ (v.readied count).toList.length = count := by
  obtain ⟨hone, hsize⟩ := of_checkTarget hcheck
  rw [readied]
  by_cases hbound : v.isBound
  · rw [if_pos hbound]
    exact ⟨h, (h.length_eq_size hone).trans (hsize hbound)⟩
  · rw [if_neg hbound]
    have hready := h.initSize (.ofNat count)
    refine ⟨hready, (hready.length_eq_size hone).trans ?_⟩
    have hmade : (v.initSize (.ofNat count)).size = .ofNat count := Partition.size_balanced v.seat _
    rw [hmade, UInt64.toNat_ofNat_of_lt' hcount]

/-- A target with entries taken in.  One that is not bound is bound to their number first. -/
def filled (v : Shard) (values : List Binary64) : Shard :=
  { v.readied values.length with
    storage := ((v.readied values.length).storage.edit (.setLocal values)).1 }

/-- **The last write into a target that was accepted is not refused**, and all entries are taken
in. -/
theorem WellFormed.filled_spec (h : v.WellFormed) {values : List Binary64}
    (hfits : values.length < 2 ^ 64) (hcheck : w.checkTarget v values.length = .ok ()) :
    (v.readied values.length).storage.setLocal values = .ok (v.filled values).storage ∧
      v.receive values = .ok (v.filled values) ∧ (v.filled values).WellFormed ∧
      (v.filled values).toList = values := by
  obtain ⟨hready, hlen⟩ := h.readied_spec hfits hcheck
  obtain ⟨s, hok, hsound, hlist⟩ := Storage.setLocal_spec hready.sound hlen
  have hfilled : v.filled values = { v.readied values.length with storage := s } := by
    have hedit : (v.readied values.length).storage.edit (.setLocal values) = (s, .ok ()) :=
      congrArg (v.readied values.length).storage.settleWith hok
    rw [filled, hedit]
  rw [hfilled]
  exact ⟨hok, congrArg (v.readied values.length).withStorage hok,
    hready.withStorage hsound ((congrArg List.length hlist).trans hlen.symm), hlist⟩

theorem WellFormed.guarded_gatherInto (h : v.WellFormed) (hw : w.WellFormed)
    {indices : List UInt64} (hfits : indices.length < 2 ^ 64) :
    (w.gatherInto v indices).Guarded WellFormed := by
  refine Attempt.guarded_check fun _ hcheck =>
    (hw.guarded_gatherValues indices).bind fun values hvalues => Attempt.settles_ofExcept ?_
  rw [← hvalues] at hfits hcheck
  obtain ⟨-, hreceive, hwell, -⟩ := h.filled_spec hfits hcheck
  rw [hreceive]
  exact hwell

/-! ## 3. Arithmetic -/

theorem WellFormed.withStorage_zip (h : v.WellFormed) {op : Operation}
    {f : Binary64 → Binary64 → Binary64} {values : List Binary64} {u : Shard}
    (hok : v.withStorage (v.storage.zip op f values) = .ok u) : u.WellFormed := by
  cases hzip : v.storage.zip op f values with
  | error e =>
    rw [hzip] at hok
    cases hok
  | ok s =>
    rw [hzip] at hok
    obtain rfl := Except.ok.inj hok
    obtain ⟨hsound, hlen⟩ := Storage.zip_kept h.sound hzip
    exact h.withStorage hsound hlen

theorem WellFormed.zipAssign (h : v.WellFormed) {op kernel : Operation}
    {f : Binary64 → Binary64 → Binary64} {u : Shard}
    (hok : Shard.zipAssign op kernel f v w = .ok u) : u.WellFormed := by
  rw [Shard.zipAssign] at hok
  cases hcheck : v.checkLayout w op with
  | error e =>
    rw [hcheck] at hok
    cases hok
  | ok _ =>
    rw [hcheck] at hok
    exact h.withStorage_zip hok

/-- **Out of place**, a right operand that was brought into the layout of the left one fits it. -/
theorem WellFormed.guarded_combine (h : v.WellFormed) (hw : w.WellFormed) (sign : Sign) :
    (v.combine sign w).Guarded WellFormed := by
  refine Attempt.guarded_check fun _ _ => ?_
  simp only [Sign.combine_eq_zip]
  split
  · exact Attempt.guarded_ofExcept fun u hu => h.copy.withStorage_zip hu
  cases hlayout : v.layout with
  | none => exact .inl ⟨.incompatibleLayout sign.operation, rfl⟩
  | some p =>
    refine (hw.guarded_redistribute p).bind fun values hvalues => Attempt.settles_ofExcept ?_
    have hlen : v.copy.storage.toList.length = values.length := by
      have hlocal := h.copy.length
      rw [hvalues]
      rwa [localRange, show v.copy.layout = some p from hlayout] at hlocal
    obtain ⟨s, hok, hsound, hlist⟩ :=
      Storage.zip_spec sign.kernel sign.onEntries h.copy.sound hlen
    rw [Storage.toList_ofList, hok]
    obtain ⟨-, hkept⟩ := Storage.zip_kept h.copy.sound hok
    exact h.copy.withStorage hsound hkept

/-- What is made with a value that may be refused, as a scalar may when it is promoted. -/
theorem wellFormed_of_made {α : Type} {outcome : Except Error α} {make : α → Shard}
    (hmake : ∀ x, (make x).WellFormed) {u : Shard}
    (hok : (do let x ← outcome; return make x) = Except.ok u) : u.WellFormed := by
  cases outcome with
  | error e => cases hok
  | ok x =>
    obtain rfl := Except.ok.inj hok
    exact hmake x

theorem WellFormed.combineScalarLeft (h : v.WellFormed) {sign : LeftSign} {s : Scalar} {u : Shard}
    (hok : v.combineScalarLeft sign s = .ok u) : u.WellFormed := by
  cases sign with
  | plus => exact wellFormed_of_made (fun x => h.copy.combineNumberAssign .plus x) hok
  | times => exact wellFormed_of_made (fun x => h.copy.combineNumberAssign .times x) hok
  | minus =>
    exact wellFormed_of_made
      (fun x => (h.copy.combineNumberAssign .times .negativeOne).combineNumberAssign .plus x) hok

/-! ## 4. Numbers and rows -/

theorem guarded_inner (v w : Shard) : (v.inner w).Guarded fun _ => True :=
  Attempt.guarded_check fun _ _ => Attempt.guarded_check fun x _ =>
    (Collective.settles_reduceAll v.seat .reduce .sum x).guarded

theorem guarded_sumEntries (v : Shard) (indices : List UInt64) :
    (v.sumEntries indices).Guarded fun _ => True :=
  Attempt.guarded_check fun _ _ =>
    ((Collective.settles_allGatherRecords v.seat .sumEntries (indexSet indices)).bind fun _ _ =>
      Collective.settles_reduceAll v.seat .reduce .sum _).guarded

theorem settles_norm (v : Shard) (k : Norm) : (v.norm k).1.Settles fun _ => True :=
  (Collective.settles_reduceAll v.seat .reduce (normReduction k) (v.storage.normPartial k).1).bind
    fun _ _ => Attempt.settles_pure trivial

theorem WellFormed.guarded_gather (h : v.WellFormed) (indices : List UInt64) :
    (v.gather indices).Guarded fun values => values.length = indices.length :=
  Attempt.guarded_check fun _ _ => h.guarded_gatherValues indices

theorem WellFormed.guarded_gatherOnZero (h : v.WellFormed) :
    v.gatherOnZero.Guarded fun _ => True := by
  have hzero : 0 < v.seat.size := Nat.zero_lt_of_lt h.seat.rank_lt
  refine Attempt.guarded_check fun _ _ => guarded_timed v gatherOnZeroTask ?_
  exact ((Collective.settles_gatherRecordsTo v.seat .gatherZero hzero v.toList).bind
    fun _ _ => Attempt.settles_pure trivial).guarded

end Shard

/-! ## 5. Requests -/

/-- A reply that is a vector is one whose parts agree. -/
def Reply.WellFormed : Reply → Prop
  | vector v => v.WellFormed
  | nothing | number _ | entries _ => True

variable {v : Shard}

theorem guarded_inquiry (h : v.WellFormed) {inquiry : Inquiry}
    (hoperands : ∀ w ∈ (Request.ask inquiry).operands, w.WellFormed) :
    (inquiry.attempt v).Guarded Reply.WellFormed := by
  -- an inquiry for a number or for entries has a reply of its own form
  have replied {α : Type} {P : α → Prop} {a : Attempt α} {form : α → Reply} (ha : a.Guarded P)
      (hform : ∀ x, P x → (form x).WellFormed) :
      (a >>= fun x => pure (form x)).Guarded Reply.WellFormed :=
    ha.bind fun x hx => Attempt.settles_pure (hform x hx)
  have reduced (op : Reduction) (x : Binary64) :=
    (Collective.settles_reduceAll v.seat .reduce op x).guarded
  cases inquiry with
  | view => exact replied (Attempt.guarded_ofExcept fun _ _ => trivial) fun _ _ => trivial
  | apply mode =>
    exact replied (Collective.settles_barrier v.seat .apply).guarded fun _ _ => trivial
  | copy =>
    have hcopy : (Reply.vector v.copy).WellFormed := h.copy
    exact (Attempt.settles_pure hcopy).guarded
  | combine sign w =>
    exact replied (h.guarded_combine (hoperands w List.mem_cons_self) sign) fun _ hu => hu
  | scalarRight sign s =>
    refine replied (Attempt.guarded_ofExcept fun u hu => ?_) fun _ hu => hu
    exact Shard.wellFormed_of_made (fun x => h.copy.combineNumberAssign sign x) hu
  | scalarLeft sign s =>
    exact replied (Attempt.guarded_ofExcept fun u hu => h.combineScalarLeft hu) fun _ hu => hu
  | sum => exact replied (reduced _ _) fun _ _ => trivial
  | min => exact replied (reduced _ _) fun _ _ => trivial
  | max => exact replied (reduced _ _) fun _ _ => trivial
  | inner w => exact replied (Shard.guarded_inner v w) fun _ _ => trivial
  | sumEntries indices => exact replied (Shard.guarded_sumEntries v indices) fun _ _ => trivial
  | gather indices => exact replied (h.guarded_gather indices) fun _ _ => trivial
  | gatherOnZero => exact replied h.guarded_gatherOnZero fun _ _ => trivial
  | redistribute layout => exact replied (h.guarded_redistribute layout) fun _ _ => trivial

/-- **Checks come first, and what a request leaves agrees in its parts.** -/
theorem guarded_attempt (h : v.WellFormed) {t : Request}
    (hoperands : ∀ w ∈ t.operands, w.WellFormed) (hfits : t.Fits) :
    (t.attempt v).Guarded fun x => x.1.WellFormed ∧ x.2.WellFormed := by
  -- a request that only changes the shard replies nothing
  have changed {a : Attempt Shard} (ha : a.Guarded Shard.WellFormed) :
      (a >>= fun u => pure (.nothing, u)).Guarded
        fun x : Reply × Shard => x.1.WellFormed ∧ x.2.WellFormed :=
    ha.bind fun u hu => Attempt.settles_pure ⟨trivial, hu⟩
  have zipped {op kernel : Operation} {f : Binary64 → Binary64 → Binary64} (w : Shard) :
      (Attempt.ofExcept (Shard.zipAssign op kernel f v w)).Guarded Shard.WellFormed :=
    Attempt.guarded_ofExcept fun u hu => h.zipAssign hu
  cases t with
  | ask inquiry =>
    exact (guarded_inquiry h hoperands).bind fun reply hreply => Attempt.settles_pure ⟨hreply, h⟩
  | norm k =>
    exact ((Shard.settles_norm v k).bind fun x _ =>
      Attempt.settles_pure ⟨trivial, h.norm k⟩).guarded
  | initSize n => exact (Attempt.settles_pure ⟨trivial, h.initSize n⟩).guarded
  | init claim => exact changed (h.guarded_init claim)
  | edit e => exact Attempt.guarded_check fun _ _ =>
      (Attempt.settles_pure ⟨trivial, h.editLocal e⟩).guarded
  | assign w =>
    refine changed ?_
    rw [Shard.assign_eq_zipAssign]
    exact zipped w
  | axpy a w => exact changed (zipped w)
  | combineAssign sign w =>
    refine changed ?_
    rw [Shard.combineAssign_eq_zipAssign]
    exact zipped w
  | numberAssign sign x =>
    exact (Attempt.settles_pure ⟨trivial, h.combineNumberAssign sign x⟩).guarded
  | scalarAssign sign s =>
    refine changed (Attempt.guarded_ofExcept fun u hu => ?_)
    exact Shard.wellFormed_of_made (fun x => h.combineNumberAssign sign x) hu
  | receive source indices =>
    exact changed (h.guarded_gatherInto (hoperands source List.mem_cons_self) hfits)

end ShardedVector
