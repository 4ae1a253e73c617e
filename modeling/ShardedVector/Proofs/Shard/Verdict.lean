/-
# One verdict of a whole group

An operation in place compares the layouts of its operands, and each rank does so by itself, with
the tables that it holds.  What makes the ranks agree is that they all hold the same table:

* `Distributed` is a vector of a group, one shard on each rank, with any entries.  Its layout was
  not set at all, or set evenly for one size, or by claims of all ranks that were accepted.
* `exists_tabled`: then there is one table of offsets that all ranks hold.  A vector without a
  layout is the same as one with the table of no entries.
* `Shares` is such a vector whatever was done with it, and `Shares.converses_inner` is what its
  ranks come to in an inner product.
* `sameLayout_eq_decide`: to have the same layout is to have the same table, on whatever rank it is
  asked.

So the ranks come to one `verdict`, which looks at the ranges of all of them, also where a rank can
see no difference in its own (`ranks_agree`).
-/
import ShardedVector.Proofs.Shard.Reachable

namespace ShardedVector

/-! ## 1. The seats of a group -/

/-- The seats of the ranks of a group.  A process without a group is the only rank of one. -/
inductive Seats (size : Nat) (seat : Nat → Seat) : Prop
  | grouped (h : ∀ r < size, seat r = .ofRank r size)
  | alone (hsize : size = 1) (h : seat 0 = .alone)

/-- What a process without a group does as the rank of one, all ranks of a group do. -/
theorem Seats.eq_ofRank {size : Nat} {seat : Nat → Seat} (h : Seats size seat) {β : Type}
    (f : Seat → β) (halone : f .alone = f (.ofRank 0 1)) {r : Nat} (hr : r < size) :
    f (seat r) = f (.ofRank r size) := by
  cases h with
  | grouped h => rw [h r hr]
  | alone hsize h =>
    subst hsize
    obtain rfl := Nat.lt_one_iff.mp hr
    rw [h, halone]

/-! ## 2. Equal tables -/

namespace Partition

variable {size : Nat} {a b : List UInt64}

/-- The table of a vector without entries. -/
def noEntries (size : Nat) : List UInt64 := List.replicate (size + 1) 0

theorem getD_noEntries (size r : Nat) : (noEntries size).getD r 0 = 0 := by
  rw [noEntries, List.getD_eq_getElem?_getD, List.getElem?_replicate]
  split <;> rfl

theorem tiles_noEntries (size : Nat) : Tiles size (noEntries size) where
  length := List.length_replicate
  first := getD_noEntries size 0
  step := fun r _ => by
    rw [getD_noEntries, getD_noEntries]
    exact UInt64.le_refl 0

theorem Tiles.ext (ha : Tiles size a) (hb : Tiles size b)
    (h : ∀ r ≤ size, a.getD r 0 = b.getD r 0) : a = b := by
  have hla := ha.length
  have hlb := hb.length
  refine List.ext_getElem (hla.trans hlb.symm) fun r hr hr' => ?_
  have hget := h r (by omega)
  rwa [List.getD_eq_getElem _ _ hr, List.getD_eq_getElem _ _ hr'] at hget

/-- Tables are the same when all of their ranges are. -/
theorem Tiles.eq_iff_ranges (hsize : 0 < size) (ha : Tiles size a) (hb : Tiles size b) :
    a = b ↔ ∀ r < size,
      (⟨a.getD r 0, a.getD (r + 1) 0⟩ : Span) = ⟨b.getD r 0, b.getD (r + 1) 0⟩ := by
  constructor
  · rintro rfl r _
    rfl
  · intro h
    refine ha.ext hb fun r hr => ?_
    -- an offset starts the range of its rank, and the last one stops the range of the last rank
    rcases Nat.lt_or_eq_of_le hr with hlt | rfl
    · exact congrArg Span.start (h r hlt)
    · obtain ⟨last, rfl⟩ : ∃ last, r = last + 1 := ⟨r - 1, by omega⟩
      exact congrArg Span.stop (h last (Nat.lt_succ_self last))

/-- A table that ends at zero is the one of no entries, for it ascends to its end. -/
theorem Tiles.eq_noEntries_iff (ha : Tiles size a) : a = noEntries size ↔ a.getD size 0 = 0 := by
  constructor
  · rintro rfl
    exact getD_noEntries size size
  · intro hlast
    refine ha.ext (tiles_noEntries size) fun r hr => ?_
    have hmono := ha.mono hr (Nat.le_refl size)
    rw [hlast] at hmono
    rw [getD_noEntries]
    exact UInt64.toNat_inj.mp (Nat.le_zero.mp hmono)

end Partition

namespace Shard

/-! ## 3. Vectors of a group -/

/-- How the layout of a vector may have been set on the ranks of a group: not at all, evenly for one
size, or by claims of all ranks that were accepted. -/
inductive LaidOut (size : Nat) (v : Nat → Shard) : Prop
  | unbound (h : ∀ r < size, (v r).layout = none)
  | even (n : UInt64) (h : ∀ r < size, (v r).layout = ((v r).initSize n).layout)
  | claimed (group : Nat) (u made : Nat → Shard) (claim : Nat → Span) (turns : List Nat)
      (hseat : ∀ r < size, (u r).seat = (v r).seat)
      (hmade : ((Ensemble.ofGroup group size fun r =>
        ((u r).init (claim r)).outcome).run turns).results? =
          some ((List.range size).map fun r => .ok (made r)))
      (h : ∀ r < size, (v r).layout = (made r).layout)

/-- A vector of a group, with any entries. -/
structure Distributed (size : Nat) (seat : Nat → Seat) (v : Nat → Shard) : Prop where
  reachable : ∀ r < size, (v r).Reachable
  seat : ∀ r < size, (v r).seat = seat r
  laidOut : LaidOut size v

/-- A vector whose ranks all hold one table, or else none, and then it has no entries. -/
structure Tabled (size : Nat) (offsets : List UInt64) (v : Nat → Shard) : Prop where
  tiles : Partition.Tiles size offsets
  layout : (∀ r < size, (v r).layout = some ⟨r, offsets⟩) ∨
    (∀ r < size, (v r).layout = none) ∧ offsets = Partition.noEntries size

/-- The shares of one vector of a group, whatever was done with them. -/
structure Shares (size : Nat) (seat : Nat → Seat) (v : Nat → Shard) : Prop where
  wellFormed : ∀ r < size, (v r).WellFormed
  seat : ∀ r < size, (v r).seat = seat r
  tabled : ∃ offsets, Tabled size offsets v

/-- Claims of a group lay the vector out by one table on all ranks, or on none. -/
theorem converses_init (group : Nat) {size : Nat} {seat : Nat → Seat} (hseats : Seats size seat)
    {u : Nat → Shard} (hseat : ∀ r < size, (u r).seat = seat r) (claim : Nat → Span) :
    Converses group size (fun r => ((u r).init (claim r)).outcome)
      (fun r => (u r).bind <$> Partition.sharedBy r (Partition.verdict size claim)) := by
  have hclaims : Converses group size
      (fun r => ((u r).timed partitionTask (Partition.explicit (u r).seat (claim r))).outcome)
      (fun r => Partition.sharedBy r (Partition.verdict size claim)) := by
    refine converses_timed ((Partition.converses_explicit group size claim).of_eq fun r hr => ?_)
    rw [hseat r hr]
    exact hseats.eq_ofRank (fun me => (Partition.explicit me (claim r)).outcome) rfl hr
  refine (hclaims.bind (f := fun r outcome => .finish ((u r).bind <$> outcome))
    (Converses.finish group size _)).of_eq fun r _ => ?_
  rw [init, Attempt.outcome_bind]
  refine congrArg (Attempt.outcome _ >>= ·) (funext fun outcome => ?_)
  cases outcome <;> rfl

section Tables

variable {size : Nat} {seat : Nat → Seat} {a b : List UInt64} {u v w : Nat → Shard}

/-- Claims that are accepted on all ranks have laid the vector out by one table. -/
theorem exists_table_of_init (hsize : 0 < size) (hseats : Seats size seat)
    (hseat : ∀ r < size, (u r).seat = seat r) {group : Nat} {made : Nat → Shard}
    {claim : Nat → Span} {turns : List Nat}
    (hmade : ((Ensemble.ofGroup group size fun r =>
      ((u r).init (claim r)).outcome).run turns).results? =
        some ((List.range size).map fun r => .ok (made r))) :
    ∃ offsets, Partition.Tiles size offsets ∧ ∀ r < size, made r = (u r).bind ⟨r, offsets⟩ := by
  have hresults := (converses_init group hseats hseat claim).concludes.results turns _ hmade
  have hranks : ∀ r < size, .ok (made r) =
      (u r).bind <$> Partition.sharedBy r (Partition.verdict size claim) :=
    fun r hr => List.map_inj_left.mp hresults r (List.mem_range.mpr hr)
  cases hverdict : Partition.verdict size claim with
  | error fault =>
    rw [hverdict] at hranks
    exact absurd (hranks 0 hsize) nofun
  | ok offsets =>
    rw [hverdict] at hranks
    exact ⟨offsets, Partition.tiles_of_verdict hverdict, fun r hr => Except.ok.inj (hranks r hr)⟩

theorem distributed_initSize (hu : ∀ r < size, (u r).Reachable)
    (hseat : ∀ r < size, (u r).seat = seat r) (n : UInt64) :
    Distributed size seat fun r => (u r).initSize n where
  reachable := fun r hr => (hu r hr).initSize n
  seat := hseat
  laidOut := .even n fun _ _ => rfl

theorem distributed_init (hsize : 0 < size) (hseats : Seats size seat)
    (hu : ∀ r < size, (u r).Reachable) (hseat : ∀ r < size, (u r).seat = seat r) {group : Nat}
    {made : Nat → Shard} {claim : Nat → Span} {turns : List Nat}
    (hmade : ((Ensemble.ofGroup group size fun r =>
      ((u r).init (claim r)).outcome).run turns).results? =
        some ((List.range size).map fun r => .ok (made r))) : Distributed size seat made := by
  obtain ⟨offsets, -, htable⟩ := exists_table_of_init hsize hseats hseat hmade
  have hseat' : ∀ r < size, (made r).seat = (u r).seat := fun r hr => by rw [htable r hr, bind]
  refine ⟨fun r hr => ?_, fun r hr => (hseat' r hr).trans (hseat r hr), ?_⟩
  · obtain ⟨sent, hends⟩ := Ensemble.ends_of_results? hmade hr
    exact (hu r hr).init hends
  · exact .claimed group u made claim turns (fun r hr => (hseat' r hr).symm) hmade fun _ _ => rfl

/-- **All ranks hold one table.** -/
theorem exists_tabled (hsize : 0 < size) (hseats : Seats size seat)
    (hv : Distributed size seat v) : ∃ offsets, Tabled size offsets v := by
  cases hv.laidOut with
  | unbound h => exact ⟨_, Partition.tiles_noEntries size, .inr ⟨h, rfl⟩⟩
  | even n h =>
    have hword : size < 2 ^ 64 := by
      have hcount : (v 0).seat.size = size :=
        (congrArg Seat.size (hv.seat 0 hsize)).trans (hseats.eq_ofRank Seat.size rfl hsize)
      have hvalid := (hv.reachable 0 hsize).wellFormed.seat.size_lt
      rwa [hcount] at hvalid
    refine ⟨_, Partition.tiles_balanced 0 hsize hword n, .inl fun r hr => ?_⟩
    rw [h r hr, initSize, bind, hv.seat r hr]
    exact hseats.eq_ofRank (fun me => some (Partition.balanced me n)) rfl hr
  | claimed group u made claim turns hseat hmade h =>
    obtain ⟨offsets, htiles, htable⟩ := exists_table_of_init hsize hseats
      (fun r hr => (hseat r hr).trans (hv.seat r hr)) hmade
    refine ⟨offsets, htiles, .inl fun r hr => ?_⟩
    rw [h r hr, htable r hr, bind]

theorem Distributed.shares (hsize : 0 < size) (hseats : Seats size seat)
    (hv : Distributed size seat v) : Shares size seat v where
  wellFormed := fun r hr => (hv.reachable r hr).wellFormed
  seat := hv.seat
  tabled := exists_tabled hsize hseats hv

namespace Tabled

theorem size_eq (h : Tabled size a v) {r : Nat} (hr : r < size) : (v r).size = a.getD size 0 := by
  rcases h.layout with hbound | ⟨hunbound, rfl⟩
  · rw [Shard.size, hbound r hr]
    exact Partition.size_eq h.tiles.length
  · rw [Shard.size, hunbound r hr]
    exact (Partition.getD_noEntries size size).symm

theorem localRange_eq (h : Tabled size a v) {r : Nat} (hr : r < size) :
    (v r).localRange = ⟨a.getD r 0, a.getD (r + 1) 0⟩ := by
  rcases h.layout with hbound | ⟨hunbound, rfl⟩
  · rw [Shard.localRange, hbound r hr]
    exact Partition.rangeOf_eq h.tiles.length hr
  · rw [localRange_unbound (hunbound r hr), Partition.getD_noEntries, Partition.getD_noEntries]

/-- **To have the same layout is to have the same table**, on whatever rank it is asked. -/
theorem sameLayout_eq_decide (hv : Tabled size a v) (hw : Tabled size b w) {r : Nat}
    (hr : r < size) : (v r).sameLayout (w r) = decide (a = b) := by
  have noEntries_iff {c : List UInt64} (hc : Partition.Tiles size c) :
      (⟨r, c⟩ : Partition).size = 0 ↔ c = Partition.noEntries size := by
    rw [Partition.size_eq hc.length, hc.eq_noEntries_iff]
  rcases hv.layout with hbound | ⟨hunbound, rfl⟩ <;>
    rcases hw.layout with hbound' | ⟨hunbound', rfl⟩
  · rw [sameLayout, hbound r hr, hbound' r hr]
    rfl
  · rw [sameLayout, hbound r hr, hunbound' r hr]
    exact decide_eq_decide.mpr (noEntries_iff hv.tiles)
  · rw [sameLayout, hunbound r hr, hbound' r hr]
    exact decide_eq_decide.mpr ((noEntries_iff hw.tiles).trans eq_comm)
  · rw [sameLayout, hunbound r hr, hunbound' r hr, decide_eq_true rfl]

end Tabled

/-! ## 4. The verdict -/

/-- What the ranks of a group come to about two vectors: first their sizes are compared, and then
the ranges of all ranks. -/
def verdict (size : Nat) (v w : Nat → Shard) (op : Operation) : Except Error Unit :=
  if (v 0).size ≠ (w 0).size then
    .error (.dimensionMismatch op (v 0).size.toNat (w 0).size.toNat)
  else if ∃ r < size, (v r).localRange ≠ (w r).localRange then .error (.incompatibleLayout op)
  else .ok ()

/-- **Each rank comes to the verdict by itself.** -/
theorem checkLayout_eq_verdict (hv : Tabled size a v) (hw : Tabled size b w) {r : Nat}
    (hr : r < size) (op : Operation) : (v r).checkLayout (w r) op = verdict size v w op := by
  have hsize : 0 < size := Nat.zero_lt_of_lt hr
  have hranges : (∃ r < size, (v r).localRange ≠ (w r).localRange) ↔ ¬ a = b := by
    rw [Partition.Tiles.eq_iff_ranges hsize hv.tiles hw.tiles]
    push Not
    refine exists_congr fun r => and_congr_right fun hr => ?_
    rw [hv.localRange_eq hr, hw.localRange_eq hr]
  rw [checkLayout_eq_ite, verdict, hv.size_eq hr, hw.size_eq hr, hv.size_eq hsize,
    hw.size_eq hsize, hv.sameLayout_eq_decide hw hr]
  simp only [hranges, decide_eq_true_eq, ne_eq, ite_not]

end Tables

/-- Layouts decide the verdict. -/
theorem verdict_congr {size : Nat} {v v' w w' : Nat → Shard} (hsize : 0 < size)
    (hv : ∀ r < size, (v' r).layout = (v r).layout)
    (hw : ∀ r < size, (w' r).layout = (w r).layout) (op : Operation) :
    verdict size v' w' op = verdict size v w op := by
  have hsizes : (v' 0).size = (v 0).size ∧ (w' 0).size = (w 0).size := by
    simp only [Shard.size, hv 0 hsize, hw 0 hsize, and_self]
  have hranges : (∃ r < size, (v' r).localRange ≠ (w' r).localRange) ↔
      ∃ r < size, (v r).localRange ≠ (w r).localRange := by
    refine exists_congr fun r => and_congr_right fun hr => ?_
    simp only [localRange, hv r hr, hw r hr]
  simp only [verdict, hsizes, hranges]

/-! ## 5. Operations -/

/-- Past the check of layouts an operation in place is not refused. -/
theorem zipAssign_eq_checkLayout {v w : Shard} (hv : v.WellFormed) (hw : w.WellFormed)
    (hrank : w.seat.rank = v.seat.rank) (op kernel : Operation)
    (f : Binary64 → Binary64 → Binary64) :
    (fun _ => ()) <$> zipAssign op kernel f v w = v.checkLayout w op := by
  rw [zipAssign]
  cases hcheck : v.checkLayout w op with
  | error e => rfl
  | ok _ =>
    have hlen := hv.length_eq_of_checkLayout hw hrank hcheck
    obtain ⟨s, hok, -⟩ := Storage.zip_spec kernel f hv.sound hlen
    have hkernel : v.storage.zip kernel f w.toList = .ok s := hok
    rw [hkernel]
    rfl

section Operations

variable {size : Nat} {seat : Nat → Seat} {v w : Nat → Shard} (hseats : Seats size seat)

/-- Each rank comes to the verdict by itself. -/
theorem Shares.checkLayout_eq_verdict (hv : Shares size seat v) (hw : Shares size seat w) {r : Nat}
    (hr : r < size) (op : Operation) : (v r).checkLayout (w r) op = verdict size v w op := by
  obtain ⟨a, hva⟩ := hv.tabled
  obtain ⟨b, hwb⟩ := hw.tabled
  exact Shard.checkLayout_eq_verdict hva hwb hr op

include hseats

/-- An operation in place comes to the verdict on each rank. -/
theorem Distributed.zipAssign_eq_verdict (hv : Distributed size seat v)
    (hw : Distributed size seat w) {r : Nat} (hr : r < size) (op kernel : Operation)
    (f : Binary64 → Binary64 → Binary64) :
    (fun _ => ()) <$> zipAssign op kernel f (v r) (w r) = verdict size v w op := by
  have hsize := Nat.zero_lt_of_lt hr
  have hseat : (w r).seat = (v r).seat := (hw.seat r hr).trans (hv.seat r hr).symm
  rw [zipAssign_eq_checkLayout (hv.reachable r hr).wellFormed (hw.reachable r hr).wellFormed
    (congrArg Seat.rank hseat)]
  exact (hv.shares hsize hseats).checkLayout_eq_verdict (hw.shares hsize hseats) hr op

/-- Numbers of the ranks of a vector are reduced as those of any group. -/
theorem Shares.converses_reduceAll (hv : Shares size seat v) (group : Nat) (op : Reduction)
    {x y : Nat → Binary64} (hxy : ∀ r < size, x r = y r) :
    Converses group size (fun r => (Collective.reduceAll (v r).seat .reduce op (x r)).outcome)
      (fun _ => .ok (Collective.reduced size op y)) := by
  refine (Collective.converses_reduceAll group size .reduce op y).of_eq fun r hr => ?_
  rw [hv.seat r hr, hxy r hr]
  exact hseats.eq_ofRank (fun me => (Collective.reduceAll me .reduce op (y r)).outcome) rfl hr

/-- The ranks refuse an inner product all or none of them, and then they come to one number. -/
theorem Shares.converses_inner (hv : Shares size seat v) (hw : Shares size seat w) (group : Nat) :
    Converses group size (fun r => ((v r).inner (w r)).outcome)
      (fun _ => (fun _ => Collective.reduced size .sum fun r =>
        Binary64.sum (List.zipWith (· * ·) (v r).toList (w r).toList)) <$>
          verdict size v w .inner) := by
  have hcheck : ∀ r < size, (v r).checkLayout (w r) .inner = verdict size v w .inner :=
    fun r hr => hv.checkLayout_eq_verdict hw hr .inner
  cases hverdict : verdict size v w .inner with
  | error e =>
    refine (Converses.finish group size _).of_eq fun r hr => ?_
    rw [inner, hcheck r hr, hverdict]
    rfl
  | ok _ =>
    refine (hv.converses_reduceAll hseats group .sum fun _ _ => rfl).of_eq fun r hr => ?_
    have hseat : (w r).seat = (v r).seat := (hw.seat r hr).trans (hv.seat r hr).symm
    have hlen := (hv.wellFormed r hr).length_eq_of_checkLayout (hw.wellFormed r hr)
      (congrArg Seat.rank hseat) ((hcheck r hr).trans hverdict)
    rw [inner, hcheck r hr, hverdict, (hv.wellFormed r hr).localDot_eq (hw.wellFormed r hr) hlen]
    rfl

end Operations

/-- To have the same layout is to have the same table, and so it is an equivalence. -/
theorem equivalence_sameLayout {size : Nat} (hsize : 0 < size) {seat : Nat → Seat}
    (hseats : Seats size seat) {r : Nat} (hr : r < size) :
    Equivalence fun x y : {u : Nat → Shard // Distributed size seat u} =>
      (x.1 r).sameLayout (y.1 r) = true := by
  choose table htable using fun x : {u : Nat → Shard // Distributed size seat u} =>
    exists_tabled hsize hseats x.2
  have hiff (x y : {u : Nat → Shard // Distributed size seat u}) :
      (x.1 r).sameLayout (y.1 r) = true ↔ table x = table y := by
    rw [(htable x).sameLayout_eq_decide (htable y) hr, decide_eq_true_iff]
  simp only [hiff]
  exact ⟨fun _ => rfl, Eq.symm, Eq.trans⟩

theorem sameLayout_iff_of_unbound {v : Shard} (h : v.isBound = false) (w : Shard) :
    v.sameLayout w = true ↔ w.size = 0 := by
  have hnone : v.layout = none := by simpa [isBound] using h
  cases hlayout : w.layout with
  | none => simp [sameLayout, Shard.size, hnone, hlayout]
  | some p => simp [sameLayout, Shard.size, hnone, hlayout]

/-- **The ranks of a group agree about an operation in place.**  On every rank it comes to the one
verdict on its operands: it is refused for the sizes exactly when they differ, for the layouts
exactly when the sizes agree and the ranges of some rank differ, and otherwise not at all.  So no
rank waits in an inner product that another one has refused.  To have the same layout is an
equivalence of the vectors of a group, and an unbound vector has the one of no entries. -/
theorem ranks_agree {size : Nat} (hsize : 0 < size) {seat : Nat → Seat} (hseats : Seats size seat)
    {v w : Nat → Shard} (hv : Distributed size seat v) (hw : Distributed size seat w) :
    (∀ r < size, (v r).size = (v 0).size ∧ (w r).size = (w 0).size) ∧
    (∀ r < size,
      (fun _ => ()) <$> (v r).assign (w r) = verdict size v w .assign ∧
      (∀ a, (fun _ => ()) <$> (v r).axpy a (w r) = verdict size v w .axpy) ∧
      ∀ sign : Sign, (fun _ => ()) <$> (v r).combineAssign sign (w r) =
        verdict size v w sign.assignOperation) ∧
    (∀ group, ∃ x, (Ensemble.ofGroup group size fun r => ((v r).inner (w r)).outcome).Concludes
      (List.replicate size ((fun _ => x) <$> verdict size v w .inner))) ∧
    (∀ r < size, (v r).sameLayout (w r) = (v 0).sameLayout (w 0)) ∧
    (∀ r < size, Equivalence fun x y : {u : Nat → Shard // Distributed size seat u} =>
      (x.1 r).sameLayout (y.1 r) = true) ∧
    ∀ r < size, (v r).isBound = false → ((v r).sameLayout (w r) = true ↔ (w r).size = 0) := by
  obtain ⟨a, hva⟩ := exists_tabled hsize hseats hv
  obtain ⟨b, hwb⟩ := exists_tabled hsize hseats hw
  refine ⟨?_, ?_, ?_, ?_, ?_, ?_⟩
  · intro r hr
    rw [hva.size_eq hr, hva.size_eq hsize, hwb.size_eq hr, hwb.size_eq hsize]
    exact ⟨rfl, rfl⟩
  · intro r hr
    refine ⟨?_, fun c => hv.zipAssign_eq_verdict hseats hw hr _ _ _, fun sign => ?_⟩
    · rw [assign_eq_zipAssign]
      exact hv.zipAssign_eq_verdict hseats hw hr _ _ _
    · rw [combineAssign_eq_zipAssign]
      exact hv.zipAssign_eq_verdict hseats hw hr _ _ _
  · intro group
    have hinner := (hv.shares hsize hseats).converses_inner hseats (hw.shares hsize hseats) group
    exact ⟨_, hinner.concludes_replicate⟩
  · intro r hr
    rw [hva.sameLayout_eq_decide hwb hr, hva.sameLayout_eq_decide hwb hsize]
  · intro r hr
    exact equivalence_sameLayout hsize hseats hr
  · intro r hr hunbound
    exact sameLayout_iff_of_unbound hunbound (w r)

/-- Three ranks, and two vectors of nine entries: the first rank has the same range in both, and the
other ones have not. -/
theorem ranks_agree_three :
    let u : Nat → Shard := fun r => .unbound (.ofRank r 3) .dense
    let v : Nat → Shard := fun r => (u r).initSize 9
    let w : Nat → Shard := fun r => (u r).bind ⟨r, [0, 3, 3, 9]⟩
    Distributed 3 (.ofRank · 3) v ∧ Distributed 3 (.ofRank · 3) w ∧
      (v 0).localRange = (w 0).localRange ∧
      (∀ r < 3, (fun _ => ()) <$> (v r).assign (w r) = .error (.incompatibleLayout .assign)) ∧
      (Ensemble.ofGroup 1 3 fun r => ((v r).inner (w r)).outcome).Concludes
        (List.replicate 3 (.error (.incompatibleLayout .inner))) := by
  intro u v w
  have hseats : Seats 3 (.ofRank · 3) := .grouped fun _ _ => rfl
  have hu : ∀ r < 3, (u r).Reachable := fun r hr => .unbound ⟨hr, show 3 < 2 ^ 64 by decide⟩ .dense
  have hv : Distributed 3 (.ofRank · 3) v := distributed_initSize hu (fun _ _ => rfl) 9
  have hmade : ((Ensemble.ofGroup 1 3 fun r => ((u r).init
      ([⟨0, 3⟩, ⟨3, 3⟩, ⟨3, 9⟩].getD r ⟨0, 0⟩)).outcome).run
        (List.replicate 13 [0, 1, 2]).flatten).results? =
      some ((List.range 3).map fun r => .ok (w r)) := by decide +kernel
  have hw : Distributed 3 (.ofRank · 3) w :=
    distributed_init (by decide) hseats hu (fun _ _ => rfl) hmade
  have hsizes : (v 0).size = (w 0).size := by decide +kernel
  have hranges : (v 1).localRange ≠ (w 1).localRange := by decide +kernel
  have hverdict : ∀ op, verdict 3 v w op = .error (.incompatibleLayout op) := by
    intro op
    rw [verdict, if_neg (not_not_intro hsizes), if_pos ⟨1, by decide, hranges⟩]
  obtain ⟨-, hassign, hinner, -⟩ := ranks_agree (by decide) hseats hv hw
  refine ⟨hv, hw, by decide +kernel, fun r hr => ?_, ?_⟩
  · rw [(hassign r hr).1, hverdict]
  · obtain ⟨x, hconcludes⟩ := hinner 1
    rwa [hverdict] at hconcludes

end Shard

end ShardedVector
