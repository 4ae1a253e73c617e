/-
# Partitions and their owners

A rank obtains its partition in two ways: by an even cut, or from the claims of all ranks when they
are accepted.  Both make a table that tiles the indices among the ranks of the group
(`Partition.Serves`), whatever the other ranks send.

The owner of an index is found by a search for the place at which the offsets come to exceed it.
Such a search needs a table that is in order, and finds how many offsets do not exceed the index
(`FindsTurn`).  That is one more than the owner, since the table begins at zero; and of ranges that
begin at the same offset, all but the last one are empty, so it is the one that is not
(`Built.unique_owner`).
-/
import ShardedVector.Proofs.Collective.Settles
import ShardedVector.Proofs.Partition.Claims

namespace ShardedVector

/-! ## 1. Tables of a group -/

/-- A rank of a group.  A word counts the ranks. -/
structure Seat.Valid (me : Seat) : Prop where
  rank_lt : me.rank < me.size
  size_lt : me.size < 2 ^ 64

namespace Partition

/-- A partition as the rank of a seat holds it. -/
structure Serves (p : Partition) (me : Seat) : Prop where
  rank : p.rank = me.rank
  tiles : Tiles me.size p.offsets

theorem Serves.localRange_eq {p : Partition} {me : Seat} (h : p.Serves me) (hme : me.Valid) :
    p.localRange = ⟨p.offsets.getD me.rank 0, p.offsets.getD (me.rank + 1) 0⟩ := by
  rw [localRange, h.rank]
  exact rangeOf_eq h.tiles.length hme.rank_lt

theorem Serves.start_le_stop {p : Partition} {me : Seat} (h : p.Serves me) (hme : me.Valid) :
    p.localRange.start ≤ p.localRange.stop := by
  rw [h.localRange_eq hme]
  exact h.tiles.step me.rank hme.rank_lt

theorem serves_balanced {me : Seat} (hme : me.Valid) (n : UInt64) : (balanced me n).Serves me :=
  ⟨rfl, tiles_balanced me.rank (Nat.zero_lt_of_lt hme.rank_lt) hme.size_lt n⟩

theorem size_balanced (me : Seat) (n : UInt64) : (balanced me n).size = n := by
  simp [Partition.size, balanced]

/-- Claims that are accepted make a table of the group, whatever the ranks sent. -/
theorem serves_of_ofClaims {me : Seat} {claims : List Span} {p : Partition}
    (h : ofClaims me claims = .ok p) : p.Serves me := by
  have hlen : claims.length = me.size := by
    by_contra hne
    rw [ofClaims, if_neg hne] at h
    cases h
  have hclaims : claims = (List.range me.size).map fun r => claims.getD r ⟨0, 0⟩ := by
    refine List.ext_getElem (by simp [hlen]) fun r h₁ h₂ => ?_
    rw [List.getElem_map, List.getElem_range, List.getD_eq_getElem _ _ h₁]
  have hverdict : ofClaims me claims =
      sharedBy me.rank (verdict me.size fun r => claims.getD r ⟨0, 0⟩) := by
    conv_lhs => rw [hclaims]
    exact ofClaims_map_range _ me.rank me.size
  rw [hverdict] at h
  cases hv : verdict me.size fun r => claims.getD r ⟨0, 0⟩ with
  | error fault =>
    rw [hv] at h
    cases h
  | ok offsets =>
    rw [hv] at h
    obtain rfl := Except.ok.inj h
    exact ⟨rfl, tiles_of_verdict hv⟩

/-- Claims that are refused are refused for themselves. -/
theorem pastChecks_ofClaims (me : Seat) (claims : List Span) :
    PastChecks (·.Serves me) (ofClaims me claims) := by
  have hoffsets : ∀ (claims : List Span) (rank : Nat) (expected : UInt64),
      PastChecks (fun _ => True) (offsetsFrom rank expected claims) := by
    intro claims
    induction claims with
    | nil => exact fun _ _ => trivial
    | cons r rest ih =>
      intro rank expected
      simp only [offsetsFrom]
      split
      · rfl
      split
      · rfl
      split
      · rfl
      have hrest := ih (rank + 1) r.stop
      cases hr : offsetsFrom (rank + 1) r.stop rest with
      | ok offsets => trivial
      | error e => rwa [hr] at hrest
  cases h : ofClaims me claims with
  | ok p => exact serves_of_ofClaims h
  | error e =>
    have hrefused := hoffsets claims 0 0
    rw [ofClaims] at h
    split at h
    · split at h
      · cases h
      · next hr =>
        obtain rfl := Except.error.inj h
        rwa [hr] at hrefused
    · obtain rfl := Except.error.inj h
      rfl

theorem settles_explicit (me : Seat) (claim : Span) :
    (explicit me claim).Settles (·.Serves me) :=
  (Collective.settles_allGatherRecords me .partition [claim]).bind fun claims _ =>
    Attempt.settles_ofExcept (pastChecks_ofClaims me claims.flatten)

/-! ## 2. Partitions that can be built -/

/-- The partitions that a rank can come to: an even cut, and what becomes of the claims when they
are accepted.  The other ranks may send anything. -/
inductive Built (me : Seat) : Partition → Prop
  | balanced (n : UInt64) : Built me (balanced me n)
  | explicit {claim : Span} {sent : List Letter} {p : Partition}
      (hends : (explicit me claim).outcome.Ends sent (.ok p)) : Built me p

theorem Built.serves {me : Seat} (hme : me.Valid) {p : Partition} (h : Built me p) :
    p.Serves me := by
  cases h with
  | balanced n => exact serves_balanced hme n
  | explicit hends => exact (settles_explicit me _).of_ends hends

/-! ## 3. The search for an owner -/

/-- A test that turns at most once along a list: before an entry that passes all entries pass. -/
def Turns (test : UInt64 → Bool) (xs : List UInt64) : Prop :=
  ∀ i j : Nat, i ≤ j → ∀ x y, xs[i]? = some x → xs[j]? = some y → test y = true → test x = true

/-- A search that finds how many entries of a list pass a test that turns at most once along it.
Nothing is said of what it finds in other lists. -/
def FindsTurn (search : (UInt64 → Bool) → List UInt64 → Nat) : Prop :=
  ∀ test xs, Turns test xs → search test xs = (xs.takeWhile test).length

/-- Whether an offset does not exceed an index. -/
def reaches (i offset : UInt64) : Bool := decide (offset ≤ i)

namespace Tiles

variable {size : Nat} {offsets : List UInt64} (h : Tiles size offsets)

include h

/-- The offsets ascend, so the ones up to an index come first. -/
theorem turns (g : UInt64) : Turns (reaches g) offsets := by
  intro i j hij x y hx hy hreaches
  have hlen := h.length
  obtain ⟨hj, rfl⟩ := List.getElem?_eq_some_iff.mp hy
  obtain ⟨hi, rfl⟩ := List.getElem?_eq_some_iff.mp hx
  have hmono := h.mono hij (by omega)
  rw [List.getD_eq_getElem _ _ hi, List.getD_eq_getElem _ _ hj] at hmono
  exact decide_eq_true (UInt64.le_trans (UInt64.le_iff_toNat_le.mpr hmono)
    (of_decide_eq_true hreaches))

/-- The first offset is zero and exceeds no index. -/
theorem length_takeWhile_pos (g : UInt64) : 1 ≤ (offsets.takeWhile (reaches g)).length := by
  have hlen := h.length
  have hfirst := h.first
  cases offsets with
  | nil => cases hlen
  | cons first rest =>
    obtain rfl : first = 0 := hfirst
    have hzero : reaches g 0 = true := decide_eq_true (UInt64.zero_le)
    rw [List.takeWhile_cons_of_pos hzero]
    exact Nat.succ_le_succ (Nat.zero_le _)

end Tiles

/-! ## 4. Owners -/

section Serves

variable {me : Seat} {p : Partition} (h : p.Serves me) (g : UInt64)

theorem ownerOf?_eq_none_iff : p.ownerOf? g = none ↔ p.size ≤ g := by
  simp [ownerOf?]

include h

theorem Serves.ownerOf?_eq_some_iff {r : Nat} :
    p.ownerOf? g = some r ↔
      r < me.size ∧ (p.rangeOf r).start ≤ g ∧ g < (p.rangeOf r).stop := by
  refine h.tiles.ownerOf?_eq_some_iff.trans (and_congr_right fun hr => ?_)
  have hrange : p.rangeOf r = ⟨p.offsets.getD r 0, p.offsets.getD (r + 1) 0⟩ :=
    rangeOf_eq h.tiles.length hr
  rw [hrange]

theorem Serves.existsUnique_owner (hg : g < p.size) :
    ∃! r, r < me.size ∧ (p.rangeOf r).start ≤ g ∧ g < (p.rangeOf r).stop := by
  cases howner : p.ownerOf? g with
  | none => exact absurd hg (UInt64.not_lt.mpr ((ownerOf?_eq_none_iff g).mp howner))
  | some r =>
    refine ⟨r, (h.ownerOf?_eq_some_iff g).mp howner, fun s hs => ?_⟩
    exact Option.some.inj (((h.ownerOf?_eq_some_iff g).mpr hs).symm.trans howner)

/-- Any search for the turn finds the owner, and has at least the first offset to count. -/
theorem Serves.ownerOf?_eq_search {search : (UInt64 → Bool) → List UInt64 → Nat}
    (hsearch : FindsTurn search) :
    1 ≤ search (reaches g) p.offsets ∧
      (g < p.size → p.ownerOf? g = some (search (reaches g) p.offsets - 1)) := by
  rw [hsearch (reaches g) p.offsets (h.tiles.turns g)]
  refine ⟨h.tiles.length_takeWhile_pos g, fun hg => ?_⟩
  rw [ownerOf?, if_neg (UInt64.not_le.mpr hg)]
  rfl

/-- A rank owns an index when it is the owner, and every rank can tell. -/
theorem Serves.owns_iff {k : Nat} (hk : k < me.size) :
    ({ p with rank := k } : Partition).owns g = true ↔ p.ownerOf? g = some k := by
  rw [h.ownerOf?_eq_some_iff g, owns, decide_eq_true_iff]
  exact (and_iff_right hk).symm

end Serves

/-- **Every index below the size has one owner and no other index has one**, in every partition that
a rank can come to, whatever ranks own nothing.  The owner is the one rank whose range the index is
in.  Its number is found by any search that is right on tables in order, for the table is in order,
and there is always an offset to take off.  Seen from a rank of the group, the rank owns what it is
the owner of. -/
theorem Built.unique_owner {me : Seat} (hme : me.Valid) {p : Partition} (hp : Built me p)
    (g : UInt64) :
    (p.ownerOf? g = none ↔ p.size ≤ g) ∧
    (∀ r, p.ownerOf? g = some r ↔
      r < me.size ∧ (p.rangeOf r).start ≤ g ∧ g < (p.rangeOf r).stop) ∧
    (g < p.size → ∃! r, r < me.size ∧ (p.rangeOf r).start ≤ g ∧ g < (p.rangeOf r).stop) ∧
    (∀ r, p.ownerOf? g = some r → (p.rangeOf r).start < (p.rangeOf r).stop) ∧
    (Turns (reaches g) p.offsets ∧ ∀ search, FindsTurn search →
      1 ≤ search (reaches g) p.offsets ∧
        (g < p.size → p.ownerOf? g = some (search (reaches g) p.offsets - 1))) ∧
    p.rank = me.rank ∧
    ∀ k < me.size, ({ p with rank := k } : Partition).owns g = true ↔ p.ownerOf? g = some k := by
  have h := hp.serves hme
  refine ⟨ownerOf?_eq_none_iff g, fun r => h.ownerOf?_eq_some_iff g, h.existsUnique_owner g,
    fun r hr => ?_, ⟨h.tiles.turns g, fun search hsearch => h.ownerOf?_eq_search g hsearch⟩,
    h.rank, fun k hk => h.owns_iff g hk⟩
  obtain ⟨-, hstart, hstop⟩ := (h.ownerOf?_eq_some_iff g).mp hr
  exact UInt64.lt_of_le_of_lt hstart hstop

/-- Of four ranks the first one and the third one own nothing: of the two ranges that begin at an
index, the last one holds it. -/
theorem unique_owner_amid_empty :
    let me : Seat := .ofRank 1 4
    let p : Partition := ⟨1, [0, 0, 3, 3, 5]⟩
    let search : (UInt64 → Bool) → List UInt64 → Nat := fun test xs => (xs.takeWhile test).length
    (me.Valid ∧ Built me p ∧ FindsTurn search) ∧
    (p.ownerOf? 3 = some 3 ∧ p.ownerOf? 5 = none) ∧
    p.ownerOf? 3 = some (search (reaches 3) p.offsets - 1) ∧
    (∃! r, r < 4 ∧ (p.rangeOf r).start ≤ 3 ∧ 3 < (p.rangeOf r).stop) ∧
    ({ p with rank := 3 } : Partition).owns 3 = true := by
  intro me p search
  have hme : me.Valid := ⟨by decide, by decide⟩
  -- the claims of the other three ranks, as they arrive
  let inbox : List Letter := [0, 2, 3].map (fun r => ⟨r, .partition, [16, 0, 0, 0]⟩) ++
    [⟨0, Tag.partition.payload, Record.encode (⟨0, 0⟩ : Span)⟩,
      ⟨2, Tag.partition.payload, Record.encode (⟨3, 3⟩ : Span)⟩,
      ⟨3, Tag.partition.payload, Record.encode (⟨3, 5⟩ : Span)⟩]
  have hvalue : ((explicit me ⟨0, 3⟩).outcome.rehearse inbox).value = .ok p := by decide +kernel
  have hends := Routine.ends_rehearse (explicit me ⟨0, 3⟩).outcome inbox
  rw [hvalue] at hends
  have hp : Built me p := .explicit hends
  have hsearch : FindsTurn search := fun _ _ _ => rfl
  have howner : p.ownerOf? 3 = some 3 := by decide
  obtain ⟨-, -, hunique, -, ⟨-, hfound⟩, -, howns⟩ := hp.unique_owner hme 3
  exact ⟨⟨hme, hp, hsearch⟩, ⟨howner, by decide⟩, (hfound search hsearch).2 (by decide),
    hunique (by decide), (howns 3 (by decide)).mpr howner⟩

end Partition

end ShardedVector
