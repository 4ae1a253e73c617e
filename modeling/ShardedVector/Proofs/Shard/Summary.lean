/-
# What a group obtains when it asks about a vector

The ranks of a group ask one question after the other about a vector, each at its own pace.  Every
one of them obtains the `summary` of the vector for each question: the local parts of the ranks,
which are left folds over their own entries in ascending order of the indices (`Storage.sumPlain`,
`Storage.normPlain`), folded once more in rank order (`Collective.reduced`).

* `Shares` are the shares of one vector whatever they remember, so a question leaves them
  (`Shares.ask`).
* `converses_ask` is one question, `converses_summarise` all of them.
* `summary_congr`: a summary depends on the layout, the backends and the entries, and on nothing
  else.

A remembered norm is what could break this.  It is the one of the present entries unless the counter
has come round since (`Reachable.honestAt`), and a vector that was asked for no norm before
remembers none (`Fresh.honestAt`).
-/
import ShardedVector.Proofs.Shard.Aged
import ShardedVector.Proofs.Shard.Redistribute
import ShardedVector.Proofs.Shard.Verdict

namespace ShardedVector

/-! ## 1. Questions -/

/-- What a group asks about a vector.  An inner product is one with a second vector. -/
inductive Query where
  | sum
  | min
  | max
  | norm (k : Norm)
  | inner
deriving DecidableEq

namespace Query

/-- Asks a shard, and the shard that the question leaves. -/
def ask (v w : Shard) : Query → Attempt Binary64 × Shard
  | sum => (v.sum, v)
  | min => (v.min, v)
  | max => (v.max, v)
  | norm k => v.norm k
  | inner => (v.inner w, v)

/-- The part of one rank: a left fold over its entries. -/
def localPart (v w : Shard) : Query → Binary64
  | sum => Storage.sumPlain v.backend v.toList
  | min => v.toList.foldl Binary64.min .infinity
  | max => v.toList.foldl Binary64.max .negativeInfinity
  | norm k => Storage.normPlain v.backend k v.toList
  | inner => (List.zipWith (· * ·) v.toList w.toList).foldl (· + ·) .negativeZero

/-- How the parts of the ranks are combined. -/
def reduction : Query → Reduction
  | sum | inner | norm .l1 | norm .l2 => .sum
  | min => .min
  | max | norm .linf => .max

/-- What is made of the combined parts: of a sum of squares the root. -/
def finish : Query → Binary64 → Binary64
  | norm .l2, x => x.sqrt
  | _, x => x

/-- Only an inner product may be refused. -/
def check (size : Nat) (v w : Nat → Shard) : Query → Except Error Unit
  | inner => Shard.verdict size v w .inner
  | _ => .ok ()

/-- What a group is to obtain. -/
def summary (size : Nat) (v w : Nat → Shard) (q : Query) : Except Error Binary64 :=
  (fun _ => q.finish (Collective.reduced size q.reduction fun r => q.localPart (v r) (w r))) <$>
    q.check size v w

end Query

/-- A rank goes through a list of questions and keeps what each of them came to. -/
def summarise (w : Shard) : List Query → Shard → Routine (List (Except Error Binary64))
  | [], _ => .finish []
  | q :: qs, v => do
    let outcome ← (q.ask v w).1.outcome
    let others ← summarise w qs (q.ask v w).2
    return outcome :: others

namespace Shard

/-! ## 2. Shares of one vector -/

section Shares

variable {size : Nat} {seat : Nat → Seat} {v w : Nat → Shard}

/-- With a table they are spread by it, but for the seat of a rank that is alone. -/
theorem Shares.spread (hv : Shares size seat v) {offsets : List UInt64}
    (htabled : Tabled size offsets v) (hbound : ∀ r < size, (v r).layout = some ⟨r, offsets⟩) :
    Spread size offsets fun r => { v r with seat := .ofRank r size } where
  tiles := htabled.tiles
  seat := fun _ _ => rfl
  layout := hbound
  sound := fun r hr => (hv.wellFormed r hr).sound
  length := fun r hr => by
    have hlength := (hv.wellFormed r hr).length
    rwa [htabled.localRange_eq hr] at hlength

/-- **The entries of a rank are those of its range**, in ascending order of their indices. -/
theorem Shares.toList_eq (hv : Shares size seat v) {r : Nat} (hr : r < size) :
    (v r).toList = (v r).localRange.indices.map (entryOf (joined size v)) := by
  obtain ⟨offsets, htabled⟩ := hv.tabled
  rcases htabled.layout with hbound | ⟨hunbound, -⟩
  · have hspread := hv.spread htabled hbound
    have hstop : (v r).localRange.stop.toNat ≤ (joined size v).length := by
      have hall : (joined size v).length = _ := hspread.length_joined (Nat.le_refl size)
      rw [htabled.localRange_eq hr, hall]
      exact htabled.tiles.mono hr (Nat.le_refl size)
    rw [Span.map_entryOf_indices hstop]
    exact hspread.toList_eq_slice hr
  · rw [(hv.wellFormed r hr).toList_unbound (hunbound r hr), localRange_unbound (hunbound r hr)]
    rfl

end Shares

/-! ## 3. One question -/

section Storages

variable {v : Shard}

theorem recalls_ask (v w : Shard) (q : Query) :
    (q.ask v w).2 = { v with storage := (q.ask v w).2.storage } ∧
      v.storage.Recalls (q.ask v w).2.storage := by
  cases q with
  | norm k => exact ⟨rfl, Storage.recalls_normPartial v.storage k⟩
  | _ => exact ⟨rfl, ⟨id, rfl, rfl⟩⟩

/-- A question changes nothing that is remembered, but for adding to it. -/
theorem honestAt_ask {k : Norm} (h : v.storage.HonestAt k) (w : Shard) (q : Query) :
    (q.ask v w).2.storage.HonestAt k := by
  cases q with
  | norm j => exact h.normPartial j
  | _ => exact h

end Storages

section Conversations

variable {size : Nat} {seat : Nat → Seat} {v w : Nat → Shard}

/-- A question leaves the shares of the vector. -/
theorem Shares.ask (hv : Shares size seat v) (w : Nat → Shard) (q : Query) :
    Shares size seat fun r => (q.ask (v r) (w r)).2 where
  wellFormed := fun r hr => by
    obtain ⟨heq, hrecalls⟩ := recalls_ask (v r) (w r) q
    rw [heq]
    exact (hv.wellFormed r hr).withStorage (hrecalls.sound (hv.wellFormed r hr).sound)
      (congrArg List.length hrecalls.toList)
  seat := fun r hr => by
    rw [(recalls_ask (v r) (w r) q).1]
    exact hv.seat r hr
  tabled := by
    obtain ⟨offsets, htiles, hlayout⟩ := hv.tabled
    have hkept : ∀ r, (q.ask (v r) (w r)).2.layout = (v r).layout := fun r => by
      rw [(recalls_ask (v r) (w r) q).1]
    exact ⟨offsets, htiles, by simpa only [hkept] using hlayout⟩

/-- **A summary depends on the layouts, the backends and the entries**, and on nothing else. -/
theorem summary_congr {v' w' : Nat → Shard} (hsize : 0 < size)
    (hv : ∀ r < size, (v' r).layout = (v r).layout ∧ (v' r).backend = (v r).backend ∧
      (v' r).toList = (v r).toList)
    (hw : ∀ r < size, (w' r).layout = (w r).layout ∧ (w' r).toList = (w r).toList) (q : Query) :
    q.summary size v' w' = q.summary size v w := by
  have hparts : ∀ r < size, q.localPart (v' r) (w' r) = q.localPart (v r) (w r) := by
    intro r hr
    obtain ⟨-, hbackend, hlist⟩ := hv r hr
    cases q <;> simp only [Query.localPart, hbackend, hlist, (hw r hr).2]
  have hcheck : q.check size v' w' = q.check size v w := by
    cases q with
    | inner => exact verdict_congr hsize (fun r hr => (hv r hr).1) (fun r hr => (hw r hr).1) .inner
    | _ => rfl
  rw [Query.summary, Query.summary, hcheck, Collective.reduced_congr hparts]

variable (hseats : Seats size seat)

include hseats

/-- **Every rank obtains the summary**, if the norms that it remembers are right. -/
theorem Shares.converses_ask (hv : Shares size seat v) (hw : Shares size seat w) (group : Nat)
    (q : Query) (hhonest : ∀ k, q = .norm k → ∀ r < size, (v r).storage.HonestAt k) :
    Converses group size (fun r => (q.ask (v r) (w r)).1.outcome)
      (fun _ => q.summary size v w) := by
  have folded (f : Binary64 → Binary64 → Binary64) (r : Nat) (seed : Binary64) :
      (v r).storage.fold f seed = (v r).toList.foldl f seed := Storage.fold_eq_foldl _ f seed
  cases q with
  | sum =>
    exact hv.converses_reduceAll hseats group .sum fun r _ => (v r).storage.localSum_eq_sumPlain
  | min => exact hv.converses_reduceAll hseats group .min fun r _ => folded _ r _
  | max => exact hv.converses_reduceAll hseats group .max fun r _ => folded _ r _
  | norm k =>
    have hparts : ∀ r < size, ((v r).storage.normPartial k).1 = (v r).storage.recomputed k :=
      fun r hr => (hhonest k rfl r hr).normPartial_eq
    have hreduced := hv.converses_reduceAll hseats group (normReduction k) hparts
    cases k <;> exact Converses.bind_ok hreduced (Converses.finish group size _)
  | inner => exact hv.converses_inner hseats hw group

/-! ## 4. Many questions -/

/-- The questions are answered one after the other, for each leaves the shares of the vector. -/
theorem Shares.converses_summarise (hsize : 0 < size) (hv : Shares size seat v)
    (hw : Shares size seat w) (group : Nat) {qs : List Query}
    (hhonest : ∀ k, .norm k ∈ qs → ∀ r < size, (v r).storage.HonestAt k) :
    Converses group size (fun r => summarise (w r) qs (v r))
      (fun _ => qs.map (Query.summary size v w)) := by
  induction qs generalizing v with
  | nil => exact Converses.finish group size _
  | cons q qs ih =>
    have hfirst := hv.converses_ask hseats hw group q fun k hk => hhonest k (by simp [hk])
    have hrest := ih (hv.ask w q) fun k hk r hr =>
      honestAt_ask (hhonest k (List.mem_cons_of_mem q hk) r hr) (w r) q
    have hsame : Query.summary size (fun r => (q.ask (v r) (w r)).2) w =
        Query.summary size v w := by
      refine funext (summary_congr hsize (fun r _ => ?_) fun _ _ => ⟨rfl, rfl⟩)
      obtain ⟨heq, hrecalls⟩ := recalls_ask (v r) (w r) q
      exact ⟨by rw [heq], hrecalls.backend, hrecalls.toList⟩
    rw [hsame] at hrest
    exact hfirst.bind (f := fun r outcome => summarise (w r) qs (q.ask (v r) (w r)).2 >>=
      fun others => .finish (outcome :: others)) (hrest.bind (Converses.finish group size _))

/-- **What a group obtains when it asks about a vector that it asked for no norm before**, such as
a copy: under every interleaving of the ranks every rank obtains the summary. -/
theorem concludes_summarise_fresh (hsize : 0 < size) (hv : Distributed size seat v)
    (hw : Distributed size seat w) (group : Nat) (qs : List Query)
    (hfresh : ∀ r < size, (v r).Fresh) :
    (Ensemble.ofGroup group size fun r => summarise (w r) qs (v r)).Concludes
      (List.replicate size (qs.map (Query.summary size v w))) :=
  ((hv.shares hsize hseats).converses_summarise hseats hsize (hw.shares hsize hseats) group
    fun k _ r hr => (hfresh r hr).honestAt k).concludes_replicate

/-- **What a group obtains when it asks about a vector.**  Whatever was done with the vector before,
every interleaving of the ranks gives every rank the same bits: the summary, whose local parts are
left folds over the entries of a rank in ascending order of their indices.  It depends on the
layouts, the backends and the entries of the vectors, and on nothing else.  Fewer than 2^64 accesses
lie between a norm that is remembered and the question for it; where none is remembered there may
have been any number of them. -/
theorem concludes_summarise (hsize : 0 < size) (hv : Distributed size seat v)
    (hw : Distributed size seat w) (group : Nat) (qs : List Query)
    (hrecent : ∀ k, .norm k ∈ qs → ∀ r < size, (v r).storage.cached? k ≠ none → (v r).Recent k) :
    (Ensemble.ofGroup group size fun r => summarise (w r) qs (v r)).Concludes
      (List.replicate size (qs.map (Query.summary size v w))) ∧
    (∀ r < size, (v r).localRange.indices.Pairwise (· < ·) ∧
      (v r).toList = (v r).localRange.indices.map (entryOf (joined size v)) ∧
      (w r).toList = (w r).localRange.indices.map (entryOf (joined size w))) ∧
    ∀ v' w' : Nat → Shard, Distributed size seat v' → Distributed size seat w' →
      (∀ r < size, (v' r).layout = (v r).layout ∧ (v' r).backend = (v r).backend ∧
        (w' r).layout = (w r).layout) →
      joined size v' = joined size v → joined size w' = joined size w →
      ∀ q : Query, q.summary size v' w' = q.summary size v w := by
  have hshares {u : Nat → Shard} (hu : Distributed size seat u) := hu.shares hsize hseats
  refine ⟨?_, fun r hr => ?_, ?_⟩
  · exact ((hshares hv).converses_summarise hseats hsize (hshares hw) group
      fun k hk r hr => (hv.reachable r hr).honestAt (hrecent k hk r hr)).concludes_replicate
  · exact ⟨Span.pairwise_indices _, (hshares hv).toList_eq hr, (hshares hw).toList_eq hr⟩
  · intro v' w' hv' hw' halike hjoinedV hjoinedW
    have htoList {u u' : Nat → Shard} (hu : Distributed size seat u)
        (hu' : Distributed size seat u') {r : Nat} (hr : r < size)
        (hlayout : (u' r).layout = (u r).layout) (hjoined : joined size u' = joined size u) :
        (u' r).toList = (u r).toList := by
      rw [(hshares hu').toList_eq hr, (hshares hu).toList_eq hr, hjoined, localRange, hlayout]
      rfl
    refine summary_congr hsize (fun r hr => ?_) fun r hr => ?_
    · obtain ⟨hlayout, hbackend, -⟩ := halike r hr
      exact ⟨hlayout, hbackend, htoList hv hv' hr hlayout hjoinedV⟩
    · obtain ⟨-, -, hlayout⟩ := halike r hr
      exact ⟨hlayout, htoList hw hw' hr hlayout hjoinedW⟩

end Conversations

/-- Two ranks with counted arrays of zeros ask for a norm, set the entries to 1, -2 and 2, and ask for
everything, for that norm twice.  What they remember of it is not taken for present. -/
theorem concludes_summarise_two :
    let u : Nat → Shard := fun r => (unbound (.ofRank r 2) .petsc).initSize 3
    let two : Binary64 := ⟨0x4000000000000000⟩
    let v : Nat → Shard := fun r =>
      (((u r).norm .l1).2.editLocal (.setLocal ([[.one, -two], [two]].getD r []))).1
    Distributed 2 (.ofRank · 2) v ∧
    (∀ r < 2, (v r).storage.cached? .l1 ≠ none ∧ ∀ k, (v r).Recent k) ∧
    (Ensemble.ofGroup 1 2 fun r => summarise (v r)
      [.norm .l1, .norm .l2, .norm .linf, .sum, .min, .max, .inner, .norm .l1] (v r)).Concludes
      (List.replicate 2 [.ok ⟨0x4014000000000000⟩, .ok ⟨0x4008000000000000⟩, .ok two, .ok .one,
        .ok (-two), .ok two, .ok ⟨0x4022000000000000⟩, .ok ⟨0x4014000000000000⟩]) := by
  intro u two v
  have hseats : Seats 2 (.ofRank · 2) := .grouped fun _ _ => rfl
  let record : Nat → Watched := fun r =>
    (((Watched.create .petsc 0).access (u r).storage).ask .l1).access (v r).storage
  have hrecord : ∀ r < 2, (v r).Reachable ∧ Aged (v r) (record r) := by
    intro r hr
    have hseat : (Seat.ofRank r 2).Valid := ⟨hr, show 2 < 2 ^ 64 by decide⟩
    obtain ⟨hu, hagedU⟩ := (Aged.unbound _ .petsc).initSize (.unbound hseat .petsc) 3
    obtain ⟨hnorm, hagedNorm⟩ := hagedU.norm hu .l1
    have hedited := hagedNorm.editLocal hnorm (.setLocal ([[.one, -two], [two]].getD r []))
    exact hedited
  have hbumps : ∀ r < 2, (record r).bumps < 2 ^ 64 := by decide +kernel
  have hrecent : ∀ r < 2, ∀ k, (v r).Recent k := fun r hr => (hrecord r hr).2.recent (hbumps r hr)
  have hv : Distributed 2 (.ofRank · 2) v :=
    ⟨fun r hr => (hrecord r hr).1, fun _ _ => rfl, .even 3 fun _ _ => rfl⟩
  let qs : List Query := [.norm .l1, .norm .l2, .norm .linf, .sum, .min, .max, .inner, .norm .l1]
  have hsummary : qs.map (Query.summary 2 v v) =
      [.ok ⟨0x4014000000000000⟩, .ok ⟨0x4008000000000000⟩, .ok two, .ok .one,
        .ok (-two), .ok two, .ok ⟨0x4022000000000000⟩, .ok ⟨0x4014000000000000⟩] := by
    decide +kernel
  have hcached : ∀ r < 2, (v r).storage.cached? .l1 ≠ none := by decide +kernel
  obtain ⟨hconcludes, -⟩ := concludes_summarise hseats (by decide) hv hv 1 qs
    fun k _ r hr _ => hrecent r hr k
  rw [hsummary] at hconcludes
  exact ⟨hv, fun r hr => ⟨hcached r hr, hrecent r hr⟩, hconcludes⟩

end Shard

end ShardedVector
