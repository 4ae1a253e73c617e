/-
# How often a shard was changed

A storage may answer a question for a norm with what it remembers, and it tells by its counter,
which is a word, whether that is still right.  So it has to be known of a shard how often its
counter was counted up since the norm was computed, whatever requests it took part in meanwhile.

* `Aged v w` says that some sequence of requests leaves or makes the shard `v`, and `w` is its
  storage with the number of accesses in that sequence.  Every shard that can come about has such a
  record (`Reachable.exists_aged`).
* `Request.accesses_steps` and `within_of_vector`: a request makes at most two accesses to the
  storage that it leaves, and so it does to one that it makes.
* `Reachable.honestAt`: what is remembered of a norm is the norm of the present entries, unless the
  counter has come round since.
* `Fresh.unasked`: a shard that was asked for no norm since it was made remembers none, so nothing
  has to be known of its counter.
-/
import ShardedVector.Proofs.Shard.Reachable
import ShardedVector.Proofs.Storage.Remembered

namespace ShardedVector

/-! ## 1. A number of accesses -/

namespace Storage

/-- A storage after so many accesses at most. -/
inductive Within : Nat → Storage → Storage → Prop
  | refl (n : Nat) (s : Storage) : Within n s s
  | step {n : Nat} {s t u : Storage} (h : s.Follows t) (hrest : Within n t u) :
      Within (n + 1) s u

variable {s t u : Storage} {m n : Nat}

theorem Follows.within (h : s.Follows t) : Within 1 s t := .step h (.refl 0 t)

theorem Within.trans (h : Within m s t) (h' : Within n t u) : Within (m + n) s u := by
  induction h with
  | refl m s =>
    induction h' with
    | refl n s => exact .refl _ s
    | step hfirst _ ih => exact .step hfirst ih
  | step hfirst _ ih =>
    rw [Nat.add_right_comm]
    exact .step hfirst (ih h')

theorem Within.mono (h : Within m s t) (hmn : m ≤ n) : Within n s t := by
  obtain ⟨k, rfl⟩ := Nat.le.dest hmn
  exact h.trans (.refl k t)

/-- One access counts the counter up by one, or not at all. -/
theorem Follows.counter (h : s.Follows t) :
    ∃ d ≤ 1, t.counter = s.counter + .ofNat d := by
  cases h with
  | dense a a' => exact ⟨0, by omega, rfl⟩
  | tpetra b b' => exact ⟨0, by omega, rfl⟩
  | petsc h =>
    cases h with
    | same => exact ⟨0, by omega, (UInt64.add_zero _).symm⟩
    | counted hstate _ => exact ⟨1, by omega, hstate⟩

end Storage

namespace Watched

variable {s u : Storage}

theorem add_ofNat_sub_self (a : UInt64) {d : Nat} (hd : d < 2 ^ 64) :
    (a + .ofNat d - a).toNat = d := by
  rw [UInt64.add_comm, UInt64.add_sub_cancel, UInt64.toNat_ofNat_of_lt' hd]

/-- What is remembered stays dated through a number of accesses, and the counter tells how many
there were. -/
theorem Dated.within {n : Nat} (h : Storage.Within n s u) (hn : n < 2 ^ 64) {bumps : Nat}
    {filledAt : Norm → Nat} (hdated : Dated ⟨s, bumps, filledAt⟩) :
    ∃ d ≤ n, u.counter = s.counter + .ofNat d ∧ Dated ⟨u, bumps + d, filledAt⟩ := by
  induction h generalizing bumps with
  | refl n s => exact ⟨0, Nat.zero_le n, (UInt64.add_zero _).symm, hdated⟩
  | @step n s t u hfirst _ ih =>
    obtain ⟨d, hd, hcounter⟩ := hfirst.counter
    have hdated := hdated.access hfirst
    rw [Watched.access, hcounter, add_ofNat_sub_self _ (by omega)] at hdated
    obtain ⟨d', hd', hcounter', hdated'⟩ := ih (by omega) hdated
    refine ⟨d + d', by omega, ?_, ?_⟩
    · rw [hcounter', hcounter, UInt64.add_assoc, UInt64.ofNat_add]
    · rwa [Nat.add_assoc] at hdated'

theorem Dated.accesses {w : Watched} (hdated : w.Dated) {n : Nat}
    (h : Storage.Within n w.storage u) (hn : n < 2 ^ 64) : (w.access u).Dated := by
  obtain ⟨d, hd, hcounter, hdated'⟩ := hdated.within h hn
  rwa [Watched.access, hcounter, add_ofNat_sub_self _ (by omega)]

end Watched

/-! ## 2. Requests access a storage at most twice -/

namespace InPlace

variable {α β : Type} {m n : Nat}

/-- Steps that access the storage so many times at most, whatever arrives and however they end. -/
def Accesses (n : Nat) (steps : InPlace α) : Prop :=
  ∀ v : Shard, (steps.on v).Always fun x => Storage.Within n v.storage x.2.storage

theorem accesses_pure (a : α) : Accesses 0 (pure a : InPlace α) := fun v => .refl 0 v.storage

theorem accesses_look (test : Shard → Except Error α) : Accesses 0 (look test) :=
  fun v => .refl 0 v.storage

theorem accesses_talk (attempt : Shard → Attempt α) : Accesses 0 (talk attempt) := by
  intro v
  rw [on_talk]
  exact Routine.always_bind.mpr (Routine.always_iff.mpr fun _ _ _ => .refl 0 v.storage)

theorem accesses_change {f : Shard → Shard}
    (h : ∀ v : Shard, Storage.Within n v.storage (f v).storage) : Accesses n (change f) := h

theorem accesses_editStorage (e : Storage.Edit) : Accesses 1 (editStorage e) :=
  fun v => (Storage.follows_edit v.storage e).within

theorem Accesses.bind {steps : InPlace α} {f : α → InPlace β} (h : Accesses m steps)
    (hf : ∀ a, Accesses n (f a)) : Accesses (m + n) (steps >>= f) := by
  intro v
  rw [on_bind]
  refine Routine.always_bind.mpr ((h v).mono fun x hx => ?_)
  obtain ⟨outcome, u⟩ := x
  cases outcome with
  | ok a => exact (hf a u).mono fun y hy => hx.trans hy
  | error e => exact hx.mono (Nat.le_add_right m n)

theorem Accesses.mono {steps : InPlace α} (h : Accesses m steps) (hmn : m ≤ n) :
    Accesses n steps :=
  fun v => (h v).mono fun _ hx => hx.mono hmn

end InPlace

namespace Shard

variable {v : Shard}

theorem within_bind (v : Shard) (p : Partition) : Storage.Within 1 v.storage (v.bind p).storage :=
  (Storage.follows_reset _ _).within

theorem within_combineNumberAssign (v : Shard) (sign : Sign) (x : Binary64) :
    Storage.Within 1 v.storage (v.combineNumberAssign sign x).storage := by
  rw [combineNumberAssign, sign.combineNumber_eq_update]
  exact (Storage.follows_update _ _).within

theorem within_readied (v : Shard) (count : Nat) :
    Storage.Within 1 v.storage (v.readied count).storage := by
  rw [readied]
  split
  · exact .refl 1 v.storage
  · exact within_bind v _

end Shard

open InPlace in
/-- **A request makes at most two accesses** to the storage that it leaves.  A norm makes none, but
it may be remembered. -/
theorem Request.accesses_steps {t : Request} (h : ∀ k, t ≠ .norm k) : Accesses 2 t.steps := by
  have edited (e : Storage.Edit) : Accesses 1 (do editStorage e; return Reply.nothing) :=
    (accesses_editStorage e).bind fun _ => accesses_pure _
  have changed {f : Shard → Shard} (hf : ∀ v : Shard, Storage.Within 1 v.storage (f v).storage) :
      Accesses 1 (do change f; return Reply.nothing) :=
    (accesses_change hf).bind fun _ => accesses_pure _
  have checked (test : Shard → Except Error Unit) (e : Storage.Edit) :
      Accesses 2 (do look test; editStorage e; return Reply.nothing) :=
    ((accesses_look test).bind fun _ => edited e).mono (by decide)
  cases t with
  | ask inquiry => exact (accesses_talk _).mono (by decide)
  | norm k => exact absurd rfl (h k)
  | initSize n => exact (changed fun v => v.within_bind _).mono (by decide)
  | init claim =>
    exact ((accesses_talk _).bind fun p => changed fun v => v.within_bind p).mono (by decide)
  | edit e => exact (edited e.toEdit).mono (by decide)
  | assign w => exact checked _ _
  | axpy a w => exact checked _ _
  | combineAssign sign w => exact checked _ _
  | numberAssign sign x =>
    exact (changed fun v => v.within_combineNumberAssign sign x).mono (by decide)
  | scalarAssign sign s =>
    exact ((accesses_look _).bind fun x =>
      changed fun v => v.within_combineNumberAssign sign x).mono (by decide)
  | receive source indices =>
    have stored (values : List Binary64) : Accesses 2 (do
        change fun v => v.readied values.length
        editStorage (.setLocal values)
        return Reply.nothing) :=
      (accesses_change fun v => v.within_readied values.length).bind fun _ =>
        edited (.setLocal values)
    have talked : Accesses (0 + 2) _ :=
      (accesses_talk fun _ => source.gatherValues indices).bind stored
    exact (accesses_look fun v => source.checkTarget v indices.length).bind fun _ => talked

/-! ## 3. What inquiries make -/

namespace Attempt

variable {α β : Type} {P : α → Prop} {Q : β → Prop}

/-- Whatever arrives, what the attempt comes to has a property, unless it is refused. -/
def Makes (a : Attempt α) (P : α → Prop) : Prop :=
  a.outcome.Always fun outcome => ∀ x, outcome = .ok x → P x

theorem makes_pure {x : α} (h : P x) : (pure x : Attempt α).Makes P :=
  fun _ hx => Except.ok.inj hx ▸ h

theorem makes_ofExcept {outcome : Except Error α} (h : ∀ x, outcome = .ok x → P x) :
    (ofExcept outcome).Makes P := h

theorem Makes.bind {a : Attempt α} {f : α → Attempt β} (h : a.Makes P)
    (hf : ∀ x, P x → (f x).Makes Q) : (a >>= f).Makes Q := by
  rw [Makes, outcome_bind]
  refine Routine.always_bind.mpr (h.mono fun outcome houtcome => ?_)
  cases outcome with
  | ok x => exact hf x (houtcome x rfl)
  | error e => exact nofun

theorem makes_bind {a : Attempt α} {f : α → Attempt β} (hf : ∀ x, (f x).Makes Q) :
    (a >>= f).Makes Q := by
  have htrue : a.Makes fun _ => True := Routine.always_iff.mpr fun _ _ _ _ _ => trivial
  exact htrue.bind fun x _ => hf x

end Attempt

namespace Shard

open Attempt

variable {v u : Shard}

theorem within_withStorage_combine {sign : Sign} {x : Storage}
    (h : v.withStorage (sign.combine v.storage x) = .ok u) :
    Storage.Within 2 v.storage u.storage := by
  rw [sign.combine_eq_zip] at h
  cases hok : v.storage.zip sign.kernel sign.onEntries x.toList with
  | error e =>
    rw [hok] at h
    cases h
  | ok s =>
    rw [hok] at h
    obtain rfl := Except.ok.inj h
    exact (Storage.follows_zip hok).within.mono (by decide)

theorem makes_combine (v : Shard) (sign : Sign) (w : Shard) :
    (v.combine sign w).Makes fun u => Storage.Within 2 v.copy.storage u.storage := by
  refine makes_bind fun _ => ?_
  split
  · exact makes_ofExcept fun u hu => within_withStorage_combine hu
  split
  · exact nofun
  · exact makes_bind fun values => makes_ofExcept fun u hu => within_withStorage_combine hu

theorem within_combineScalarAssign {sign : Sign} {s : Scalar}
    (h : v.combineScalarAssign sign s = .ok u) : Storage.Within 1 v.storage u.storage := by
  rw [combineScalarAssign] at h
  cases hs : s.promote with
  | error e =>
    rw [hs] at h
    cases h
  | ok x =>
    rw [hs] at h
    obtain rfl := Except.ok.inj h
    exact v.within_combineNumberAssign sign x

theorem within_combineScalarLeft {sign : LeftSign} {s : Scalar}
    (h : v.combineScalarLeft sign s = .ok u) : Storage.Within 2 v.copy.storage u.storage := by
  cases sign with
  | plus => exact (within_combineScalarAssign h).mono (by decide)
  | times => exact (within_combineScalarAssign h).mono (by decide)
  | minus =>
    rw [combineScalarLeft, subtractFrom] at h
    cases hs : s.promote with
    | error e =>
      rw [hs] at h
      cases h
    | ok x =>
      rw [hs] at h
      obtain rfl := Except.ok.inj h
      exact (v.copy.within_combineNumberAssign .times .negativeOne).trans
        (within_combineNumberAssign _ .plus x)

/-- **The vectors that inquiries make** are copies that were accessed at most twice. -/
theorem makes_inquiry (v : Shard) (inquiry : Inquiry) :
    (inquiry.attempt v).Makes fun reply =>
      ∀ u, reply = .vector u → Storage.Within 2 v.copy.storage u.storage := by
  have vector {x : Shard} (h : Storage.Within 2 v.copy.storage x.storage) :
      (return .vector x : Attempt Reply).Makes fun reply =>
        ∀ u, reply = .vector u → Storage.Within 2 v.copy.storage u.storage :=
    makes_pure fun _ hu => Reply.vector.inj hu ▸ h
  cases inquiry with
  | copy => exact vector (.refl 2 _)
  | combine sign w => exact (v.makes_combine sign w).bind fun _ => vector
  | scalarRight sign s =>
    exact (makes_ofExcept fun _ hx => (within_combineScalarAssign hx).mono (by decide)).bind
      fun _ => vector
  | scalarLeft sign s =>
    exact (makes_ofExcept fun _ hx => within_combineScalarLeft hx).bind fun _ => vector
  | _ => exact makes_bind fun _ => makes_pure fun _ hu => nomatch hu

end Shard

/-! ## 4. Shards with a record -/

/-- The record of a storage after a request: a norm is asked for, and anything else may have counted
the counter up. -/
def Watched.after (w : Watched) (s : Storage) : Request → Watched
  | .norm k => w.ask k
  | _ => w.access s

namespace Shard

/-- The shards that sequences of requests leave and make, with the record of their storages.  The
other ranks may send anything. -/
inductive Aged : Shard → Watched → Prop
  | unbound (seat : Seat) (backend : Backend) : Aged (.unbound seat backend) (.create backend 0)
  | instrumented {v : Shard} {w : Watched} (h : Aged v w) (on : Bool) :
      Aged { v with instrumented := on } w
  | left {v v' : Shard} {w : Watched} {t : Request} {sent : List Letter}
      {outcome : Except Error Reply} (h : Aged v w)
      (hends : (t.perform v).Ends sent (outcome, v')) : Aged v' (w.after v'.storage t)
  | made {v u : Shard} {w : Watched} {inquiry : Inquiry} {sent : List Letter} (h : Aged v w)
      (hends : (inquiry.attempt v).outcome.Ends sent (.ok (.vector u))) :
      Aged u (w.copy.access u.storage)

/-- A request for a norm leaves the shard that was asked. -/
theorem always_perform_norm (v : Shard) (k : Norm) :
    ((Request.norm k).perform v).Always fun x => x.2 = (v.norm k).2 := by
  simp only [Request.perform, Request.steps, InPlace.on_bind, InPlace.on_askNorm, InPlace.on_talk,
    Routine.finish_bind, Routine.bind_assoc]
  refine Routine.always_bind.mpr (Routine.always_iff.mpr fun _ outcome _ => ?_)
  cases outcome <;> exact rfl

/-- So does an edit, also one that is refused. -/
theorem always_perform_edit (v : Shard) (e : LocalEdit) :
    ((Request.edit e).perform v).Always fun x => x.2 = (v.editLocal e).1 := by
  simp only [Request.perform, Request.steps, InPlace.on_bind, InPlace.on_editStorage,
    Routine.finish_bind]
  cases (v.storage.edit e.toEdit).2 <;> exact rfl

/-- What is remembered of a shard is dated. -/
theorem Aged.dated {v : Shard} {w : Watched} (h : Aged v w) : w.storage = v.storage ∧ w.Dated := by
  induction h with
  | unbound seat backend => exact ⟨rfl, Watched.dated_create backend 0⟩
  | instrumented _ on ih => exact ih
  | @left v v' w t sent outcome _ hends ih =>
    obtain ⟨hstorage, hdated⟩ := ih
    by_cases hnorm : ∃ k, t = .norm k
    · obtain ⟨k, rfl⟩ := hnorm
      obtain rfl : v' = (v.norm k).2 := (always_perform_norm v k).of_ends hends
      exact ⟨congrArg (fun s => (s.normPartial k).2) hstorage, hdated.ask k⟩
    · have hne : ∀ k, t ≠ .norm k := fun k hk => hnorm ⟨k, hk⟩
      have hafter : w.after v'.storage t = w.access v'.storage := by
        cases t with
        | norm k => exact absurd rfl (hne k)
        | _ => rfl
      have hwithin := (Request.accesses_steps hne v).of_ends hends
      rw [hafter]
      exact ⟨rfl, hdated.accesses (hstorage ▸ hwithin) (by decide)⟩
  | @made v u w inquiry sent _ hends ih =>
    obtain ⟨hstorage, hdated⟩ := ih
    have hwithin := (v.makes_inquiry inquiry).of_ends hends _ rfl u rfl
    have hcopy : w.copy.storage = v.copy.storage := congrArg Storage.copy hstorage
    exact ⟨rfl, hdated.copy.accesses (hcopy ▸ hwithin) (by decide)⟩

/-- Only an inquiry makes a vector. -/
theorem makes_nothing_but {v : Shard} {t : Request} (h : ∀ inquiry, t ≠ .ask inquiry) :
    (t.attempt v).Makes fun x => ∀ u, x.1 ≠ .vector u := by
  cases t with
  | ask inquiry => exact absurd rfl (h inquiry)
  | initSize n => exact Attempt.makes_pure fun _ hu => nomatch hu
  | numberAssign sign x => exact Attempt.makes_pure fun _ hu => nomatch hu
  | _ => exact Attempt.makes_bind fun _ => Attempt.makes_pure fun _ hu => nomatch hu

/-- **Every shard that can come about has a record.** -/
theorem Reachable.exists_aged {v : Shard} (h : v.Reachable) : ∃ w, Aged v w := by
  induction h with
  | unbound hseat backend => exact ⟨_, .unbound _ backend⟩
  | instrumented _ on ih =>
    obtain ⟨w, hw⟩ := ih
    exact ⟨w, hw.instrumented on⟩
  | left _ _ _ hends ih =>
    obtain ⟨w, hw⟩ := ih
    exact ⟨_, hw.left hends⟩
  | @made v v' u t sent hv hoperands hfits hends ih =>
    obtain ⟨w, hw⟩ := ih
    by_cases hask : ∃ inquiry, t = .ask inquiry
    · obtain ⟨inquiry, rfl⟩ := hask
      obtain ⟨outcome, houtcome, hreply⟩ := hends.of_bind_finish
      obtain ⟨rfl, -⟩ := Prod.mk.inj hreply
      exact ⟨_, hw.made houtcome⟩
    · rw [perform_eq hv.wellFormed (fun w hw => (hoperands w hw).wellFormed) hfits] at hends
      obtain ⟨came, hcame, hsettled⟩ := hends.of_bind_finish
      cases came with
      | ok x =>
        obtain ⟨hreply, -⟩ := Prod.mk.inj hsettled
        have hnone := makes_nothing_but (v := v) fun inquiry h => hask ⟨inquiry, h⟩
        exact absurd (Except.ok.inj hreply) (hnone.of_ends hcame x rfl u)
      | error e => exact nomatch hsettled

section Leaves

variable {v v' : Shard} {w : Watched} (haged : Aged v w) (h : v.Reachable)

include haged h

/-- What a request leaves, whatever arrives, is reachable, and it has a record. -/
theorem Aged.leaves {t : Request} (hoperands : ∀ w ∈ t.operands, Reachable w) (hfits : t.Fits)
    (hleft : (t.perform v).Always fun x => x.2 = v') :
    v'.Reachable ∧ Aged v' (w.after v'.storage t) := by
  have hends := Routine.ends_rehearse (t.perform v) []
  obtain rfl := hleft.of_ends hends
  exact ⟨h.left hoperands hfits hends, haged.left hends⟩

theorem Aged.initSize (n : UInt64) :
    (v.initSize n).Reachable ∧ Aged (v.initSize n) (w.access (v.initSize n).storage) :=
  haged.leaves h (t := .initSize n) nofun trivial rfl

theorem Aged.norm (k : Norm) : (v.norm k).2.Reachable ∧ Aged (v.norm k).2 (w.ask k) :=
  haged.leaves h (t := .norm k) nofun trivial (always_perform_norm v k)

theorem Aged.editLocal (e : LocalEdit) :
    (v.editLocal e).1.Reachable ∧ Aged (v.editLocal e).1 (w.access (v.editLocal e).1.storage) :=
  haged.leaves h (t := .edit e) nofun trivial (always_perform_edit v e)

end Leaves

/-- Fewer than 2^64 accesses lie between the question that a remembered norm was computed for and
now, in some sequence of requests that leaves or makes the shard. -/
def Recent (v : Shard) (k : Norm) : Prop :=
  ∃ w, Aged v w ∧ ∀ x, w.storage.cached? k = some x → w.bumps < w.filledAt k + 2 ^ 64

/-- So it is if there were fewer accesses at all. -/
theorem Aged.recent {v : Shard} {w : Watched} (h : Aged v w) (hfew : w.bumps < 2 ^ 64) (k : Norm) :
    v.Recent k :=
  ⟨w, h, fun _ _ => Nat.lt_of_lt_of_le hfew (Nat.le_add_left _ _)⟩

/-- And if nothing is remembered of the norm. -/
theorem Reachable.recent_of_cached?_eq_none {v : Shard} (h : v.Reachable) {k : Norm}
    (hnone : v.storage.cached? k = none) : v.Recent k := by
  obtain ⟨w, haged⟩ := h.exists_aged
  refine ⟨w, haged, fun x hx => ?_⟩
  rw [haged.dated.1, hnone] at hx
  cases hx

end Shard

/-! ## 5. What is remembered -/

namespace Storage

/-- What is remembered of a norm for the present counter is the norm of the present entries. -/
def HonestAt (s : Storage) (k : Norm) : Prop := ∀ x, s.recalled? k = some x → x = s.recomputed k

variable {s : Storage} {k : Norm}

/-- The answer is what the entries give if what is remembered is. -/
theorem HonestAt.normPartial_eq (h : s.HonestAt k) : (s.normPartial k).1 = s.recomputed k := by
  cases s with
  | dense a => exact a.norm_eq_normPlain k
  | tpetra b => exact foldNorm_eq_normPlain (.tpetra b) k
  | petsc a =>
    rw [HonestAt, recomputed_petsc] at h
    rw [recomputed_petsc]
    refine Counted.normPartial_eq_computeNorm fun x hx hpresent => h x ?_
    rw [recalled?, NormCache.forState_of_eq _ hpresent, hx]

/-- An answer that is remembered is right. -/
theorem HonestAt.normPartial (h : s.HonestAt k) (j : Norm) : (s.normPartial j).2.HonestAt k := by
  cases s with
  | dense a => exact nofun
  | tpetra b => exact nofun
  | petsc a =>
    intro x hx
    have hstate : (a.cache.forState a.state).state = a.state := NormCache.state_forState ..
    cases hget : (a.cache.forState a.state).get? j with
    | some y =>
      simp only [Storage.normPartial, Counted.normPartial, hget, recalled?,
        NormCache.forState_of_eq _ hstate] at hx
      simp only [Storage.normPartial, Counted.normPartial, hget]
      exact h x hx
    | none =>
      have hset : ((a.cache.forState a.state).set j (a.computeNorm j)).state = a.state := by
        rw [NormCache.state_set, hstate]
      simp only [Storage.normPartial, Counted.normPartial, hget, recalled?,
        NormCache.forState_of_eq _ hset] at hx
      simp only [Storage.normPartial, Counted.normPartial, hget]
      by_cases hkj : k = j
      · subst hkj
        rw [NormCache.get?_set_self] at hx
        rw [recomputed_petsc]
        exact (Option.some.inj hx).symm
      · rw [NormCache.get?_set_ne _ hkj] at hx
        exact h x hx

end Storage

namespace Shard

theorem Recent.honestAt {v : Shard} {k : Norm} (h : v.Recent k) : v.storage.HonestAt k := by
  obtain ⟨w, haged, hrecent⟩ := h
  obtain ⟨hstorage, hdated⟩ := haged.dated
  rw [← hstorage]
  obtain ⟨storage, bumps, filledAt⟩ := w
  cases storage with
  | dense a => exact nofun
  | tpetra b => exact nofun
  | petsc a =>
    intro x hx
    rw [Storage.recalled?] at hx
    rw [Storage.recomputed_petsc]
    by_cases hpresent : a.cache.state = a.state
    · rw [NormCache.forState_of_eq _ hpresent] at hx
      exact Counted.Dated.eq_computeNorm hdated hx (hrecent x hx) hpresent
    · rw [NormCache.forState_of_ne _ hpresent, NormCache.get?_fresh] at hx
      cases hx

/-- **A remembered norm is right unless the counter has come round.** -/
theorem Reachable.honestAt {v : Shard} (h : v.Reachable) {k : Norm}
    (hrecent : v.storage.cached? k ≠ none → v.Recent k) : v.storage.HonestAt k := by
  by_cases hnone : v.storage.cached? k = none
  · exact (h.recent_of_cached?_eq_none hnone).honestAt
  · exact (hrecent hnone).honestAt

/-! ## 6. Shards that were asked for no norm -/

/-- A shard that was asked for no norm since it was made.  A copy is made when it is taken, and so
is what an operation makes of another shard. -/
inductive Fresh : Shard → Prop
  | unbound (seat : Seat) (backend : Backend) : Fresh (.unbound seat backend)
  | instrumented {v : Shard} (h : Fresh v) (on : Bool) : Fresh { v with instrumented := on }
  | left {v v' : Shard} {t : Request} {sent : List Letter} {outcome : Except Error Reply}
      (h : Fresh v) (hnorm : ∀ k, t ≠ .norm k) (hends : (t.perform v).Ends sent (outcome, v')) :
      Fresh v'
  | made {v u : Shard} {inquiry : Inquiry} {sent : List Letter}
      (hends : (inquiry.attempt v).outcome.Ends sent (.ok (.vector u))) : Fresh u

/-- Accesses leave a storage that remembers nothing. -/
theorem unasked_of_within {n : Nat} {s t : Storage} (h : Storage.Within n s t) (hs : s.Unasked) :
    t.Unasked := by
  induction h with
  | refl n s => exact hs
  | step hfirst _ ih => exact ih (hs.follows hfirst)

/-- **A shard that was asked for no norm remembers none.** -/
theorem Fresh.unasked {v : Shard} (h : Fresh v) : v.storage.Unasked := by
  induction h with
  | unbound seat backend => exact Storage.unasked_create backend 0
  | instrumented _ on ih => exact ih
  | @left v v' t sent outcome _ hnorm hends ih =>
    exact unasked_of_within ((Request.accesses_steps hnorm v).of_ends hends) ih
  | @made v u inquiry sent hends =>
    have hwithin := (v.makes_inquiry inquiry).of_ends hends _ rfl u rfl
    exact unasked_of_within hwithin v.storage.unasked_copy

theorem Fresh.honestAt {v : Shard} (h : Fresh v) (k : Norm) : v.storage.HonestAt k := by
  intro x hx
  rw [h.unasked.recalled?_eq_none] at hx
  cases hx

end Shard

end ShardedVector
