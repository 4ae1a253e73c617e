/-
# Shards whose parts agree

The partition and the storage of a shard are separate, and different operations change the one or
the other.  `Shard.WellFormed` says that they agree: the partition is a table for the group of the
shard (`Partition.Serves`), and there are as many entries as the own range is long.

An operation that lays a shard out makes such a shard (`wellFormed_bind`), and one that changes
entries keeps it (`WellFormed.withStorage`).  What the agreement is for: a rank owns an index
exactly when it has an entry for it (`WellFormed.owns_iff`), and operands of the same layout have
as many entries as the rank that takes them in (`WellFormed.length_eq_of_checkLayout`).
-/
import ShardedVector.Proofs.Partition.Owners
import ShardedVector.Proofs.Shard.Mirror
import ShardedVector.Proofs.Storage.Remembered
import ShardedVector.Shard.Edit
import ShardedVector.Shard.Reduction

namespace ShardedVector

/-! ## 1. Storages -/

namespace Storage

variable {s s' : Storage}

/-- Operands that are taken in leave as many entries. -/
theorem zip_kept (h : s.Sound) {op : Operation} {f : Binary64 → Binary64 → Binary64}
    {values : List Binary64} (hok : s.zip op f values = .ok s') :
    s'.Sound ∧ s'.toList.length = s.toList.length := by
  by_cases hlen : s.toList.length = values.length
  · obtain ⟨s'', hok', hsound, hlist⟩ := zip_spec op f h hlen
    obtain rfl := Except.ok.inj (hok.symm.trans hok')
    refine ⟨hsound, ?_⟩
    rw [hlist, List.length_zipWith]
    exact Nat.min_eq_left (Nat.le_of_eq hlen)
  · rw [zip_refused op f h hlen] at hok
    cases hok

/-- A change of a plain list leaves as many entries, and one that is refused leaves the same. -/
def Kept (entries : List Binary64) (attempt : List Binary64 × Except Error Unit) : Prop :=
  attempt.1.length = entries.length ∧ ∀ e, attempt.2 = .error e → attempt.1 = entries

theorem kept_ok {entries entries' : List Binary64} (h : entries'.length = entries.length) :
    Kept entries (entries', .ok ()) := ⟨h, nofun⟩

theorem kept_modifyPlain (entries : List Binary64) (i : Nat) (change : Binary64 → Binary64) :
    Kept entries (modifyPlain entries i change) := by
  rw [modifyPlain]
  split
  · exact kept_ok (List.length_modify ..)
  · exact ⟨rfl, fun _ _ => rfl⟩

theorem kept_zipPlain (op : Operation) (f : Binary64 → Binary64 → Binary64)
    (entries values : List Binary64) : Kept entries (zipPlain op f entries values) := by
  rw [zipPlain]
  split
  · next hlen => exact kept_ok (by rw [List.length_zipWith, hlen, Nat.min_self])
  · exact ⟨rfl, fun _ _ => rfl⟩

/-- A change of local entries keeps the storage as it should be kept and leaves as many entries; one
that is refused leaves the same ones. -/
theorem edit_kept (h : s.Sound) (e : LocalEdit) :
    (s.edit e.toEdit).1.Sound ∧ (s.edit e.toEdit).1.backend = s.backend ∧
      Kept s.toList ((s.edit e.toEdit).1.toList, (s.edit e.toEdit).2) := by
  have shared (hshared : e.toEdit.Shared) (hkept : Kept s.toList (e.toEdit.onList s.toList)) :
      (s.edit e.toEdit).1.Sound ∧ (s.edit e.toEdit).1.backend = s.backend ∧
        Kept s.toList ((s.edit e.toEdit).1.toList, (s.edit e.toEdit).2) := by
    have hbecomes := edit_becomes h hshared
    refine ⟨hbecomes.sound, hbecomes.follows.backend, ?_⟩
    rw [hbecomes.toList, hbecomes.answer]
    exact hkept
  cases e with
  | zero => exact shared trivial (kept_ok (List.length_map ..))
  | setAll x => exact shared trivial (kept_ok (List.length_map ..))
  | abs => exact shared trivial (kept_ok (List.length_map ..))
  | setLocal values => exact shared trivial (kept_zipPlain ..)
  | addLocal values => exact shared trivial (kept_zipPlain ..)
  | setEntry i x => exact shared trivial (kept_modifyPlain ..)
  | addEntry i x => exact shared trivial (kept_modifyPlain ..)
  | setInView i x =>
    -- only one backend has a window; on the others the storage is not touched
    cases s with
    | dense a => exact ⟨trivial, rfl, kept_ok (List.length_modify ..)⟩
    | petsc a => exact ⟨trivial, rfl, rfl, fun _ _ => rfl⟩
    | tpetra b => exact ⟨h, rfl, rfl, fun _ _ => rfl⟩

end Storage

/-! ## 2. Shards -/

namespace Shard

/-- A shard whose parts agree. -/
structure WellFormed (v : Shard) : Prop where
  seat : v.seat.Valid
  layout : ∀ p, v.layout = some p → p.Serves v.seat
  sound : v.storage.Sound
  length : v.toList.length = v.localRange.stop.toNat - v.localRange.start.toNat

theorem wellFormed_unbound {seat : Seat} (hseat : seat.Valid) (backend : Backend) :
    (unbound seat backend).WellFormed where
  seat := hseat
  layout := nofun
  sound := Storage.sound_create backend 0
  length := congrArg List.length (Storage.toList_create backend 0)

theorem localRange_unbound {v : Shard} (h : v.layout = none) : v.localRange = ⟨0, 0⟩ := by
  rw [localRange, h]

/-- A shard that is laid out has so many zeros as its range is long. -/
theorem wellFormed_bind {v : Shard} (hseat : v.seat.Valid) {p : Partition}
    (hp : p.Serves v.seat) : (v.bind p).WellFormed where
  seat := hseat
  layout := fun q hq => Option.some.inj hq ▸ hp
  sound := Storage.sound_reset _ _
  length := by
    rw [toList_bind, List.length_replicate]
    exact UInt64.toNat_sub_of_le _ _ (hp.start_le_stop hseat)

namespace WellFormed

variable {v w : Shard} (h : v.WellFormed)

include h

theorem start_le_stop : v.localRange.start ≤ v.localRange.stop := by
  cases hlayout : v.layout with
  | none =>
    rw [localRange_unbound hlayout]
    exact UInt64.le_refl 0
  | some p =>
    rw [localRange, hlayout]
    exact (h.layout p hlayout).start_le_stop h.seat

theorem localSize_eq : v.localSize = (v.localRange.stop - v.localRange.start).toNat := by
  rw [localSize, Storage.size_eq_length h.sound, UInt64.toNat_sub_of_le _ _ h.start_le_stop]
  exact h.length

theorem toList_unbound (hlayout : v.layout = none) : v.toList = [] := by
  have hlength := h.length
  rw [localRange_unbound hlayout] at hlength
  exact List.length_eq_zero_iff.mp hlength

/-- **A rank owns an index exactly when it has an entry for it.** -/
theorem owns_iff {g : UInt64} (hg : v.localRange.start ≤ g) :
    v.owns g = true ↔ (v.storage.entry? (g - v.localRange.start).toNat).isSome := by
  have hlength := h.length
  have hgNat := UInt64.le_iff_toNat_le.mp hg
  have hentry : (v.storage.entry? (g - v.localRange.start).toNat).isSome ↔
      g < v.localRange.stop := by
    rw [Storage.entry?_eq_getElem? h.sound, UInt64.toNat_sub_of_le _ _ hg, UInt64.lt_iff_toNat_lt,
      isSome_getElem?]
    change _ < v.toList.length ↔ _
    omega
  rw [hentry]
  cases hlayout : v.layout with
  | none =>
    rw [owns, localRange_unbound hlayout, hlayout]
    simp [UInt64.lt_iff_toNat_lt]
  | some p =>
    rw [localRange, hlayout] at hg ⊢
    simp [owns, hlayout, Partition.owns, hg]

theorem withStorage {s : Storage} (hs : s.Sound) (hlen : s.toList.length = v.toList.length) :
    WellFormed { v with storage := s } where
  seat := h.seat
  layout := h.layout
  sound := hs
  length := hlen.trans h.length

theorem instrument (on : Bool) : WellFormed { v with instrumented := on } :=
  ⟨h.seat, h.layout, h.sound, h.length⟩

theorem copy : v.copy.WellFormed :=
  h.withStorage h.sound.copy (congrArg List.length (Storage.toList_copy _))

theorem initSize (n : UInt64) : (v.initSize n).WellFormed :=
  wellFormed_bind h.seat (Partition.serves_balanced h.seat n)

theorem combineNumberAssign (sign : Sign) (x : Binary64) :
    (v.combineNumberAssign sign x).WellFormed := by
  rw [Shard.combineNumberAssign, Sign.combineNumber_eq_update]
  refine h.withStorage (h.sound.update _) ?_
  rw [Storage.toList_update_const h.sound, List.length_map]
  rfl

theorem editLocal (e : LocalEdit) : (v.editLocal e).1.WellFormed := by
  obtain ⟨hsound, -, hlen, -⟩ := Storage.edit_kept h.sound e
  exact h.withStorage hsound hlen

theorem norm (k : Norm) : (v.norm k).2.WellFormed := by
  have hrecalls := Storage.recalls_normPartial v.storage k
  exact h.withStorage (hrecalls.sound h.sound) (congrArg List.length hrecalls.toList)

/-- On one process the own range is everything. -/
theorem length_eq_size (hsize : v.seat.size = 1) : v.toList.length = v.size.toNat := by
  have hrank : v.seat.rank = 0 := by have := h.seat.rank_lt; omega
  cases hlayout : v.layout with
  | none =>
    rw [h.toList_unbound hlayout, Shard.size, hlayout]
    rfl
  | some p =>
    have hserves := h.layout p hlayout
    have hpartition : p.size = p.offsets.getD v.seat.size 0 :=
      Partition.size_eq hserves.tiles.length
    rw [h.length, Shard.size, Shard.localRange, hlayout]
    simp only [hpartition, hserves.localRange_eq h.seat, hrank, hsize, hserves.tiles.first]
    exact Nat.sub_zero _

/-- **Operands of the same layout are as long.** -/
theorem length_eq_of_sameLayout (hw : w.WellFormed) (hrank : w.seat.rank = v.seat.rank)
    (hsame : v.sameLayout w = true) : v.toList.length = w.toList.length := by
  have zero {u : Shard} (hu : u.WellFormed) {p : Partition} (hp : u.layout = some p)
      (hsize : p.size = 0) : u.toList = [] := by
    have hserves := hu.layout p hp
    have hstop := hserves.tiles.le_size p.rank (r := u.seat.rank + 1) hu.seat.rank_lt
    have hzero : p.size.toNat = 0 := congrArg UInt64.toNat hsize
    refine List.length_eq_zero_iff.mp ?_
    rw [hu.length, Shard.localRange, hp]
    simp only [hserves.localRange_eq hu.seat]
    have : (p.offsets.getD (u.seat.rank + 1) 0).toNat ≤ p.size.toNat := hstop
    omega
  cases hlayout : v.layout with
  | none =>
    cases hlayout' : w.layout with
    | none => rw [h.toList_unbound hlayout, hw.toList_unbound hlayout']
    | some q =>
      rw [sameLayout, hlayout, hlayout'] at hsame
      rw [h.toList_unbound hlayout, zero hw hlayout' (of_decide_eq_true hsame)]
  | some p =>
    cases hlayout' : w.layout with
    | none =>
      rw [sameLayout, hlayout, hlayout'] at hsame
      rw [hw.toList_unbound hlayout', zero h hlayout (of_decide_eq_true hsame)]
    | some q =>
      rw [sameLayout, hlayout, hlayout'] at hsame
      have hoffsets : p.offsets = q.offsets := of_decide_eq_true hsame
      rw [h.length, hw.length, Shard.localRange, Shard.localRange, hlayout, hlayout']
      simp only [(h.layout p hlayout).localRange_eq h.seat,
        (hw.layout q hlayout').localRange_eq hw.seat, hoffsets, hrank]

theorem length_eq_of_checkLayout (hw : w.WellFormed) (hrank : w.seat.rank = v.seat.rank)
    {op : Operation} (hcheck : v.checkLayout w op = .ok ()) :
    v.toList.length = w.toList.length := by
  refine h.length_eq_of_sameLayout hw hrank ?_
  by_contra hsame
  rw [checkLayout_eq_ite, if_neg hsame] at hcheck
  split at hcheck <;> cases hcheck

/-- The local part of the inner product with an operand that is as long is not refused. -/
theorem localDot_eq (hw : w.WellFormed) (hlen : v.toList.length = w.toList.length) :
    v.storage.localDot w.storage =
      .ok (Binary64.sum (List.zipWith (· * ·) v.toList w.toList)) := by
  have hsize : Storage.checkSize .inner v.storage.size w.storage.size = .ok () := by
    rw [Storage.checkSize, Storage.size_eq_length h.sound, Storage.size_eq_length hw.sound]
    exact if_pos hlen
  rw [Storage.localDot, hsize]
  rfl

end WellFormed

end Shard

end ShardedVector
