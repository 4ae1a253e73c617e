/-
# Extremes do not depend on the distribution

A vector may be held by groups of any size, in any layout and on any backends.  What the ranks find
as its least entry, as its greatest one and as its greatest absolute value is the same in all of
them, but for the sign of a zero: it is the first number of the entries in an order, or what stands
for it when no entry is a number.

Three seeds take part: what stands for a missing number on each rank, what the fold over the ranks
starts from, and none at all on a rank that is alone.  The first one is kept in the list
(`first_localPart`), where it comes after all entries.  The second one is dropped, for every rank
has found a number (`first_reduced`).  So nothing but the entries decides (`first_joined`).
-/
import ShardedVector.Proofs.Binary64.Extremum
import ShardedVector.Proofs.Shard.Summary

namespace ShardedVector

open Binary64

/-! ## 1. Three questions -/

/-- The extremes that a group asks for. -/
inductive Extremum where
  | least
  | greatest
  | largest
deriving DecidableEq

namespace Extremum

/-- Asks a shard: for the least entry, the greatest one or the greatest absolute value. -/
def ask (v : Shard) : Extremum → Attempt Binary64
  | least => v.min
  | greatest => v.max
  | largest => (v.norm .linf).1

def query : Extremum → Query
  | least => .min
  | greatest => .max
  | largest => .norm .linf

/-- In which order the extreme is the first number. -/
def order : Extremum → Order
  | least => .ascending
  | greatest | largest => .descending

/-- What stands for it when there is none. -/
def default : Extremum → Binary64
  | least => .infinity
  | greatest => .negativeInfinity
  | largest => .zero

/-- Of which numbers it is one. -/
def candidates (e : Extremum) (entries : List Binary64) : List Binary64 :=
  match e with
  | least | greatest => entries
  | largest => entries.map Binary64.abs

/-- The extreme of a list of entries: the first of its candidates. -/
def Of (e : Extremum) (entries : List Binary64) (x : Binary64) : Prop :=
  Extreme e.order e.default (e.candidates entries) x

variable {e : Extremum}

theorem ask_eq (v w : Shard) (e : Extremum) : e.ask v = (e.query.ask v w).1 := by cases e <;> rfl

theorem isNaN_default : e.default.isNaN = false := by cases e <;> decide

/-- What stands for a missing candidate comes after all others. -/
theorem eq_default {entries : List Binary64} {y : Binary64} (hy : y ∈ e.candidates entries)
    (hnumber : y.isNaN = false) (h : e.order.rank e.default ≤ e.order.rank y) : y = e.default := by
  cases e with
  | least => exact Order.eq_last (o := .ascending) hnumber h
  | greatest => exact Order.eq_last (o := .descending) hnumber h
  | largest =>
    obtain ⟨x, -, rfl⟩ := List.mem_map.mp hy
    have hkey : x.abs.key ≤ Binary64.zero.key := Int.neg_le_neg_iff.mp h
    have hzero : Binary64.zero.key = 0 := by decide
    rw [key, isNegative_abs, if_neg Bool.false_ne_true, hzero] at hkey
    exact eq_of_magnitude (Nat.le_zero.mp (Int.ofNat_le.mp hkey)) (isNegative_abs x)

theorem candidates_flatMap {ι : Type} (is : List ι) (entries : ι → List Binary64) :
    e.candidates (is.flatMap entries) = is.flatMap fun i => e.candidates (entries i) := by
  cases e with
  | largest => exact List.map_flatMap
  | _ => rfl

/-! ## 2. What the ranks find -/

/-- The fold over the own entries comes to the first of them, with its seed among them. -/
theorem first_localPart (e : Extremum) (v w : Shard) :
    First e.order (e.default :: e.candidates v.toList) (e.query.localPart v w) := by
  have hfold := first_foldl (o := e.order) (e.candidates v.toList) (isNaN_default (e := e))
  cases e with
  | largest =>
    rw [candidates, List.foldl_map] at hfold
    exact hfold
  | _ => exact hfold

/-- The fold over the ranks comes to the first number that one of them found.  Its seed comes after
all numbers, so it is dropped; a rank that is alone has none. -/
theorem first_reduced (e : Extremum) {size : Nat} (hsize : 0 < size) {x : Nat → Binary64}
    (hx : ∀ r < size, (x r).isNaN = false) :
    First e.order ((List.range size).map x) (Collective.reduced size e.query.reduction x) := by
  by_cases hone : size = 1
  · subst hone
    exact first_singleton (hx 0 hsize)
  · have hfold := first_foldl (o := e.order) ((List.range size).map x)
      (Order.isNaN_last (o := e.order))
    have hextreme := hfold.extreme fun _ _ hnumber => Order.eq_last hnumber
    have hfound := hextreme.found ⟨x 0, List.mem_map_of_mem (List.mem_range.mpr hsize), hx 0 hsize⟩
    rw [Collective.reduced_of_ne_one hone]
    cases e <;> exact hfound

/-- So it is the first number of all entries, with the seed of the ranks among them. -/
theorem first_joined (e : Extremum) {size : Nat} (hsize : 0 < size) (v w : Nat → Shard) :
    First e.order (e.default :: e.candidates (Shard.joined size v))
      (Collective.reduced size e.query.reduction fun r => e.query.localPart (v r) (w r)) := by
  have hparts (r : Nat) : First e.order (e.default :: e.candidates (v r).toList)
      (e.query.localPart (v r) (w r)) := e.first_localPart (v r) (w r)
  have hranks := e.first_reduced hsize fun r _ => (hparts r).number
  refine (First.flatMap (fun r _ => hparts r) hranks).congr fun y => ?_
  rw [Shard.joined, candidates_flatMap]
  simp only [List.mem_flatMap, List.mem_cons, List.mem_range]
  constructor
  · rintro ⟨r, hr, rfl | hy⟩
    · exact .inl rfl
    · exact .inr ⟨r, hr, hy⟩
  · rintro (rfl | ⟨r, hr, hy⟩)
    · exact ⟨0, hsize, .inl rfl⟩
    · exact ⟨r, hr, .inr hy⟩

end Extremum

/-! ## 3. Groups that hold the same entries -/

namespace Shard

/-- A group that holds a vector with these entries, in some layout and on some backends, whatever
was done with it before. -/
structure HeldBy (entries : List Binary64) (size : Nat) (seat : Nat → Seat) (v : Nat → Shard) :
    Prop where
  nonempty : 0 < size
  seats : Seats size seat
  distributed : Distributed size seat v
  entries : joined size v = entries

variable {entries : List Binary64} {size : Nat} {seat : Nat → Seat} {v : Nat → Shard}

/-- Under every interleaving all ranks find the extreme of the entries. -/
theorem HeldBy.exists_extreme (h : HeldBy entries size seat v) (group : Nat) {e : Extremum}
    (hhonest : e = .largest → ∀ r < size, (v r).storage.HonestAt .linf) :
    ∃ x, (Ensemble.ofGroup group size fun r => (e.ask (v r)).outcome).Concludes
      (List.replicate size (.ok x)) ∧ e.Of entries x := by
  have hshares := h.distributed.shares h.nonempty h.seats
  have hhonest : ∀ k, e.query = .norm k → ∀ r < size, (v r).storage.HonestAt k := by
    intro k hk
    obtain ⟨rfl, rfl⟩ : e = .largest ∧ k = .linf := by cases e <;> cases hk; exact ⟨rfl, rfl⟩
    exact hhonest rfl
  have hasked : Converses group size (fun r => (e.ask (v r)).outcome)
      (fun _ => e.query.summary size v v) :=
    (hshares.converses_ask h.seats hshares group e.query hhonest).of_eq fun r _ => by
      rw [Extremum.ask_eq (v r) (v r)]
  have hsummary : e.query.summary size v v =
      .ok (Collective.reduced size e.query.reduction fun r => e.query.localPart (v r) (v r)) := by
    cases e <;> rfl
  have hconcludes := hasked.concludes_replicate
  rw [hsummary] at hconcludes
  have hfirst := e.first_joined h.nonempty v v
  rw [h.entries] at hfirst
  exact ⟨_, hconcludes, hfirst.extreme fun y => Extremum.eq_default⟩

section Two

variable {size' : Nat} {seat' : Nat → Seat} {v' : Nat → Shard}
  (h : HeldBy entries size seat v) (h' : HeldBy entries size' seat' v') (group group' : Nat)
  (e : Extremum)

include h h'

/-- **Extremes of vectors that were asked for no norm before**: any two groups that hold the same
entries find the same ones. -/
theorem extremes_agree_fresh (hfresh : ∀ r < size, (v r).Fresh)
    (hfresh' : ∀ r < size', (v' r).Fresh) :
    ∃ x x', (Ensemble.ofGroup group size fun r => (e.ask (v r)).outcome).Concludes
        (List.replicate size (.ok x)) ∧
      (Ensemble.ofGroup group' size' fun r => (e.ask (v' r)).outcome).Concludes
        (List.replicate size' (.ok x')) ∧
      SameNumber x x' ∧ e.Of entries x ∧ e.Of entries x' := by
  obtain ⟨x, hconcludes, hx⟩ :=
    h.exists_extreme group (e := e) fun _ r hr => (hfresh r hr).honestAt .linf
  obtain ⟨x', hconcludes', hx'⟩ :=
    h'.exists_extreme group' (e := e) fun _ r hr => (hfresh' r hr).honestAt .linf
  exact ⟨x, x', hconcludes, hconcludes', Extreme.sameNumber hx hx', hx, hx'⟩

/-- **Extremes do not depend on how a vector is distributed.**  Any two groups that hold the same
entries find the same least entry, the same greatest one and the same greatest absolute value, but
for the sign of a zero, under every interleaving of either.  It is the first number of the entries
in its order, whatever else is among them, and without a number it is infinity, minus infinity and
zero.  Fewer than 2^64 accesses lie between a greatest absolute value that is remembered and the
question for it; where none is remembered there may have been any number of them. -/
theorem extremes_agree
    (hrecent : e = .largest → ∀ r < size, (v r).storage.cached? .linf ≠ none →
      (v r).Recent .linf)
    (hrecent' : e = .largest → ∀ r < size', (v' r).storage.cached? .linf ≠ none →
      (v' r).Recent .linf) :
    ∃ x x', (Ensemble.ofGroup group size fun r => (e.ask (v r)).outcome).Concludes
        (List.replicate size (.ok x)) ∧
      (Ensemble.ofGroup group' size' fun r => (e.ask (v' r)).outcome).Concludes
        (List.replicate size' (.ok x')) ∧
      SameNumber x x' ∧ e.Of entries x ∧ e.Of entries x' := by
  obtain ⟨x, hconcludes, hx⟩ := h.exists_extreme group fun he r hr =>
    (h.distributed.reachable r hr).honestAt (hrecent he r hr)
  obtain ⟨x', hconcludes', hx'⟩ := h'.exists_extreme group' fun he r hr =>
    (h'.distributed.reachable r hr).honestAt (hrecent' he r hr)
  exact ⟨x, x', hconcludes, hconcludes', Extreme.sameNumber hx hx', hx, hx'⟩

end Two

/-- Three ranks with different backends, the last of which owns nothing, and a process without a
group: a NaN and a negative zero.  The ranks have asked for the norm before, and the counted array
remembers it. -/
theorem extremes_agree_mixed :
    let v : Nat → Shard := fun r =>
      (((((unbound (.ofRank r 3) ([.tpetra, .petsc].getD r .dense)).initSize 2).editLocal
        (.setLocal ([[.nan], [.negativeZero]].getD r []))).1).norm .linf).2
    let v' : Nat → Shard := fun _ =>
      (((unbound .alone .dense).initSize 2).editLocal (.setLocal [.nan, .negativeZero])).1
    HeldBy [.nan, .negativeZero] 3 (.ofRank · 3) v ∧
    HeldBy [.nan, .negativeZero] 1 (fun _ => .alone) v' ∧
    (v 1).storage.cached? .linf = some .zero ∧ (∀ r < 3, (v r).Recent .linf) ∧
    (Ensemble.ofGroup 1 3 fun r => ((v r).norm .linf).1.outcome).Concludes
      (List.replicate 3 (.ok .zero)) ∧
    (Ensemble.ofGroup 1 1 fun r => ((v' r).norm .linf).1.outcome).Concludes
      (List.replicate 1 (.ok .zero)) := by
  intro v v'
  have filled {seat : Seat} (hseat : seat.Valid) (backend : Backend) (entries : List Binary64) :=
    let ⟨hu, haged⟩ := (Aged.unbound seat backend).initSize (.unbound hseat backend) 2
    haged.editLocal hu (.setLocal entries)
  have hmixed : ∀ r < 3, (Seat.ofRank r 3).Valid := fun r hr => ⟨hr, show 3 < 2 ^ 64 by decide⟩
  have asked {r : Nat} (hr : r < 3) :=
    let ⟨hu, haged⟩ := filled (hmixed r hr) ([.tpetra, .petsc].getD r .dense)
      ([[.nan], [.negativeZero]].getD r [])
    haged.norm hu .linf
  have hv : HeldBy [.nan, .negativeZero] 3 (.ofRank · 3) v := {
    nonempty := by decide
    seats := .grouped fun _ _ => rfl
    distributed := ⟨fun r hr => (asked hr).1, fun _ _ => rfl, .even 2 fun _ _ => rfl⟩
    entries := by decide +kernel }
  have hv' : HeldBy [.nan, .negativeZero] 1 (fun _ => .alone) v' := {
    nonempty := by decide
    seats := .alone rfl rfl
    distributed := ⟨fun _ _ => (filled ⟨by decide, by decide⟩ _ _).1, fun _ _ => rfl,
      .even 2 fun _ _ => rfl⟩
    entries := by decide +kernel }
  have hrecent : ∀ r < 3, (v r).Recent .linf := fun r hr =>
    (asked hr).2.recent (by revert r; decide +kernel) .linf
  obtain ⟨x, x', hconcludes, hconcludes', -, hx, hx'⟩ :=
    extremes_agree hv hv' 1 1 .largest (fun _ r hr _ => hrecent r hr)
      fun _ _ _ hcached => absurd rfl hcached
  have only {y : Binary64} (hy : Extremum.largest.Of [.nan, .negativeZero] y) : y = .zero := by
    obtain ⟨hmem, hnumber, -⟩ := hy.found ⟨.zero, by decide, by decide⟩
    rcases List.mem_pair.mp hmem with rfl | rfl
    · exact absurd hnumber (by decide)
    · decide
  rw [only hx] at hconcludes
  rw [only hx'] at hconcludes'
  exact ⟨hv, hv', by decide +kernel, hrecent, hconcludes, hconcludes'⟩

end Shard

end ShardedVector
