/-
# The same vector on one process

`Mirrors size offsets v s` says that `s`, a vector that one process has to itself, is the vector
whose shares are `v`: it has the entries of all shares in rank order.  Whatever is done to every
entry by itself is done to both alike, however the shares are laid out and kept.

* `Mirrors.update` and `Mirrors.zip` are the two ways in which entries change.
* `zipAssign_alike`: an operation in place comes to the same on both, or else only the ranks refuse
  it, since their layouts differ.
* `converses_combine`: an operation out of place comes to the same on both in any case.
-/
import ShardedVector.Proofs.Partition.Balanced
import ShardedVector.Proofs.Shard.Redistribute
import ShardedVector.Shard.Arithmetic

namespace ShardedVector.Shard

/-! ## 1. Mirrors -/

/-- A vector of one process with the entries of the shares in rank order.  There are few enough
entries to move them all in one message. -/
structure Mirrors (size : Nat) (offsets : List UInt64) (v : Nat → Shard) (s : Shard) : Prop where
  spread : Spread size offsets v
  small : (offsets.getD size 0).toNat < 2 ^ 29
  layout : s.layout = some ⟨0, [0, offsets.getD size 0]⟩
  sound : s.storage.Sound
  entries : s.toList = joined size v

/-- Some process can always hold the whole vector. -/
theorem Spread.mirrored {size : Nat} {offsets : List UInt64} {v : Nat → Shard}
    (h : Spread size offsets v) (hsmall : (offsets.getD size 0).toNat < 2 ^ 29) :
    Mirrors size offsets v
      ⟨.alone, some ⟨0, [0, offsets.getD size 0]⟩, .ofList (joined size v), true⟩ :=
  ⟨h, hsmall, rfl, Storage.sound_ofList _, Storage.toList_ofList _⟩

/-- A vector of zeros that has just been laid out, whatever its backend, is the one of a process
without a group. -/
theorem mirrors_bind {size : Nat} {offsets : List UInt64} {v : Nat → Shard}
    (ht : Partition.Tiles size offsets) (hseat : ∀ r < size, (v r).seat = .ofRank r size)
    (hsmall : (offsets.getD size 0).toNat < 2 ^ 29) (backend : Backend) :
    Mirrors size offsets (fun r => (v r).bind ⟨r, offsets⟩)
      (.ofSize .alone (offsets.getD size 0) backend) := by
  have hspread := spread_bind ht hseat
  have hzeros : ∀ x ∈ joined size (fun r => (v r).bind ⟨r, offsets⟩), x = .zero := by
    intro x hx
    obtain ⟨r, -, hmem⟩ := List.mem_flatMap.mp hx
    simp only [toList_bind] at hmem
    exact List.eq_of_mem_replicate hmem
  have hlocal : (Partition.balanced .alone (offsets.getD size 0)).localSize =
      (offsets.getD size 0).toNat := by
    rw [Partition.balanced_alone]
    exact congrArg UInt64.toNat (UInt64.sub_zero _)
  refine ⟨hspread, hsmall, congrArg some (Partition.balanced_alone _), Storage.sound_reset _ _, ?_⟩
  rw [List.eq_replicate_of_mem hzeros, hspread.length_joined (Nat.le_refl size), ← hlocal]
  exact toList_bind _ _

section Entries

variable {α β γ : Type}

theorem flatMap_map_range (f : α → β) (parts : Nat → List α) (size : Nat) :
    ((List.range size).flatMap fun r => (parts r).map f) =
      ((List.range size).flatMap parts).map f := by
  rw [List.map_flatMap]

/-- Lists that are put together from parts of the same lengths can be zipped part by part. -/
theorem flatMap_zipWith_range (f : α → β → γ) {xs : Nat → List α} {ys : Nat → List β} :
    ∀ size : Nat, (∀ r < size, (xs r).length = (ys r).length) →
      ((List.range size).flatMap fun r => List.zipWith f (xs r) (ys r)) =
        List.zipWith f ((List.range size).flatMap xs) ((List.range size).flatMap ys)
  | 0, _ => rfl
  | size + 1, h => by
    have ih := flatMap_zipWith_range f size fun r hr => h r (by omega)
    have hlen : ((List.range size).flatMap xs).length = ((List.range size).flatMap ys).length := by
      simp only [List.length_flatMap]
      exact congrArg List.sum (List.map_congr_left fun r hr =>
        h r (by have := List.mem_range.mp hr; omega))
    simp only [List.range_succ, List.flatMap_append, List.flatMap_singleton]
    rw [ih, List.zipWith_append hlen]

end Entries

namespace Mirrors

variable {size : Nat} {offsets : List UInt64} {v : Nat → Shard} {s : Shard}
  (h : Mirrors size offsets v s)

include h

theorem size_eq : s.size = offsets.getD size 0 := by
  rw [Shard.size, h.layout]
  rfl

theorem localRange_eq : s.localRange = ⟨0, offsets.getD size 0⟩ := by
  rw [Shard.localRange, h.layout]
  rfl

/-- Other storages, on the ranks and on the one process. -/
theorem withStorage {storage : Nat → Storage} {t : Storage}
    (hs : ∀ r < size, (storage r).Sound ∧ (storage r).toList.length = (v r).toList.length)
    (ht : t.Sound) (hjoin : t.toList = (List.range size).flatMap fun r => (storage r).toList) :
    Mirrors size offsets (fun r => { v r with storage := storage r })
      { s with storage := t } where
  spread := h.spread.withStorage hs
  small := h.small
  layout := h.layout
  sound := ht
  entries := hjoin

/-- Every entry is changed by itself. -/
theorem update (g : Binary64 → Binary64) :
    Mirrors size offsets
      (fun r => { v r with storage := (v r).storage.update fun _ x => g x })
      { s with storage := s.storage.update fun _ x => g x } := by
  have hlist : ∀ r < size, ((v r).storage.update fun _ x => g x).toList = (v r).toList.map g :=
    fun r hr => Storage.toList_update_const (h.spread.sound r hr) g
  refine h.withStorage (fun r hr => ⟨(h.spread.sound r hr).update _, ?_⟩) (h.sound.update _) ?_
  · rw [hlist r hr, List.length_map]
  · have hjoin : (s.storage.toList).map g = (joined size v).map g := congrArg _ h.entries
    rw [Storage.toList_update_const h.sound, hjoin, joined, ← flatMap_map_range]
    exact List.flatMap_congr fun r hr => (hlist r (List.mem_range.mp hr)).symm

/-- Every entry is changed together with an operand at its place. -/
theorem zip (op : Operation) (f : Binary64 → Binary64 → Binary64) {xs : Nat → List Binary64}
    (hlen : ∀ r < size, (v r).toList.length = (xs r).length) :
    ∃ (storage : Nat → Storage) (t : Storage),
      (∀ r < size, (v r).storage.zip op f (xs r) = .ok (storage r)) ∧
      s.storage.zip op f ((List.range size).flatMap xs) = .ok t ∧
      Mirrors size offsets (fun r => { v r with storage := storage r }) { s with storage := t } ∧
      t.toList = List.zipWith f (joined size v) ((List.range size).flatMap xs) := by
  choose! storage hok hsound hlist using fun r (hr : r < size) =>
    Storage.zip_spec op f (h.spread.sound r hr) (hlen r hr)
  have hall : s.storage.toList.length = ((List.range size).flatMap xs).length := by
    have hjoin : s.storage.toList = joined size v := h.entries
    rw [hjoin, joined]
    simp only [List.length_flatMap]
    exact congrArg List.sum (List.map_congr_left fun r hr => hlen r (List.mem_range.mp hr))
  obtain ⟨t, hokt, hsoundt, hlistt⟩ := Storage.zip_spec op f h.sound hall
  have hentries : t.toList = List.zipWith f (joined size v) ((List.range size).flatMap xs) := by
    rw [hlistt]
    exact congrArg (fun l => List.zipWith f l _) h.entries
  refine ⟨storage, t, hok, hokt, h.withStorage (fun r hr => ⟨hsound r hr, ?_⟩) hsoundt ?_, hentries⟩
  · rw [hlist r hr, List.length_zipWith]
    exact Nat.min_eq_left (Nat.le_of_eq (hlen r hr))
  · rw [hentries, joined, ← flatMap_zipWith_range f size hlen]
    exact List.flatMap_congr fun r hr => (hlist r (List.mem_range.mp hr)).symm

theorem copy : Mirrors size offsets (fun r => (v r).copy) s.copy := by
  refine h.withStorage (fun r hr => ⟨(h.spread.sound r hr).copy, ?_⟩) h.sound.copy ?_
  · rw [Storage.toList_copy]
    rfl
  · simp only [Storage.toList_copy]
    exact h.entries

end Mirrors

/-! ## 2. Outcomes that are alike -/

/-- What the ranks come to and what the one process comes to: the same refusal, which is not
about layouts, or the same vector. -/
inductive Alike (size : Nat) (f : Nat → Except Error Shard) (g : Except Error Shard) : Prop
  | refused (e : Error) (he : ∀ op, e ≠ .incompatibleLayout op) (hf : ∀ r < size, f r = .error e)
      (hg : g = .error e)
  | made (offsets : List UInt64) (v : Nat → Shard) (s : Shard) (hf : ∀ r < size, f r = .ok (v r))
      (hg : g = .ok s) (h : Mirrors size offsets v s)

theorem checkLayout_eq_ite (v w : Shard) (op : Operation) :
    v.checkLayout w op =
      if v.size = w.size then
        if v.sameLayout w then .ok () else .error (.incompatibleLayout op)
      else .error (.dimensionMismatch op v.size.toNat w.size.toNat) := by
  rw [checkLayout, checkGlobalSize]
  by_cases h : v.size = w.size
  · rw [if_pos h, if_pos h]
    rfl
  · rw [if_neg h, if_neg h]
    rfl

section Pair

variable {size : Nat} {a b : List UInt64} {v w : Nat → Shard} {s t : Shard}
  (hv : Mirrors size a v s) (hw : Mirrors size b w t)

include hv hw

theorem sameLayout_shares {r : Nat} (hr : r < size) :
    (v r).sameLayout (w r) = decide (a = b) := by
  rw [sameLayout, hv.spread.layout r hr, hw.spread.layout r hr]
  rfl

theorem sameLayout_mirrors (hsize : a.getD size 0 = b.getD size 0) : s.sameLayout t = true := by
  rw [sameLayout, hv.layout, hw.layout, hsize]
  exact decide_eq_true rfl

/-! ## 3. In place -/

/-- An operation in place with a vector of the same layout. -/
def zipAssign (op kernel : Operation) (f : Binary64 → Binary64 → Binary64) (v w : Shard) :
    Except Error Shard := do
  v.checkLayout w op
  v.withStorage (v.storage.zip kernel f w.toList)

omit hv hw in
theorem assign_eq_zipAssign (v w : Shard) :
    v.assign w = zipAssign .assign .setLocal (fun _ x => x) v w := by
  rw [assign, Storage.setLocal_eq_zip]
  rfl

omit hv hw in
theorem axpy_eq_zipAssign (v w : Shard) (c : Binary64) :
    v.axpy c w = zipAssign .axpy .axpy (fun y x => y + c * x) v w := rfl

omit hv hw in
theorem combineAssign_eq_zipAssign (sign : Sign) (v w : Shard) :
    v.combineAssign sign w = zipAssign sign.assignOperation sign.kernel sign.onEntries v w := by
  rw [combineAssign, Sign.combine_eq_zip]
  rfl

/-- **In place.**  Either the layouts differ and every rank refuses for that, or the ranks and the
one process come to the same. -/
theorem zipAssign_alike (op kernel : Operation) (f : Binary64 → Binary64 → Binary64) :
    (∀ r < size, zipAssign op kernel f (v r) (w r) = .error (.incompatibleLayout op)) ∨
      Alike size (fun r => zipAssign op kernel f (v r) (w r)) (zipAssign op kernel f s t) := by
  by_cases hsize : a.getD size 0 = b.getD size 0
  · by_cases hab : a = b
    · right
      subst hab
      have hlen : ∀ r < size, (v r).toList.length = (w r).toList.length := fun r hr =>
        (hv.spread.length r hr).trans (hw.spread.length r hr).symm
      obtain ⟨storage, u, hok, hoku, hmirrors, -⟩ := hv.zip kernel f hlen
      refine .made a _ _ (fun r hr => ?_) ?_ hmirrors
      · have hcheck : (v r).checkLayout (w r) op = .ok () := by
          rw [checkLayout_eq_ite, hv.spread.size_eq hr, hw.spread.size_eq hr, if_pos rfl,
            sameLayout_shares hv hw hr]
          exact if_pos (decide_eq_true rfl)
        rw [zipAssign, hcheck, hok r hr]
        rfl
      · have hcheck : s.checkLayout t op = .ok () := by
          rw [checkLayout_eq_ite, hv.size_eq, hw.size_eq, if_pos rfl,
            sameLayout_mirrors hv hw rfl]
          rfl
        have hentries : t.toList = (List.range size).flatMap fun r => (w r).toList := hw.entries
        rw [zipAssign, hcheck, hentries, hoku]
        rfl
    · left
      intro r hr
      have hcheck : (v r).checkLayout (w r) op = .error (.incompatibleLayout op) := by
        rw [checkLayout_eq_ite, hv.spread.size_eq hr, hw.spread.size_eq hr, if_pos hsize,
          sameLayout_shares hv hw hr, decide_eq_false hab]
        rfl
      rw [zipAssign, hcheck]
      rfl
  · right
    refine .refused (.dimensionMismatch op (a.getD size 0).toNat (b.getD size 0).toNat)
      (fun _ => Error.noConfusion) (fun r hr => ?_) ?_
    · rw [zipAssign, checkLayout_eq_ite, hv.spread.size_eq hr, hw.spread.size_eq hr,
        if_neg hsize]
      rfl
    · rw [zipAssign, checkLayout_eq_ite, hv.size_eq, hw.size_eq, if_neg hsize]
      rfl

/-! ## 4. Out of place -/

omit hv in
/-- Nobody can ask for more entries than there are. -/
theorem length_ownedBy_lt {others : List UInt64} (ht : Partition.Tiles size others)
    (hsize : others.getD size 0 = b.getD size 0) {r : Nat} (hr : r < size) (p : Nat) :
    ((w r).ownedBy p (⟨r, others⟩ : Partition).localRange.indices).length < 2 ^ 29 := by
  have hrange : (⟨r, others⟩ : Partition).localRange =
      ⟨others.getD r 0, others.getD (r + 1) 0⟩ := Partition.rangeOf_eq ht.length hr
  have hstop := ht.mono (show r + 1 ≤ size by omega) (Nat.le_refl size)
  have hsmall := hw.small
  have hfilter := List.length_filter_le (fun i => decide ((w r).ownerOf? i = some p))
    (⟨r, others⟩ : Partition).localRange.indices
  rw [hsize] at hstop
  rw [ownedBy]
  refine Nat.lt_of_le_of_lt hfilter ?_
  rw [hrange]
  simp only [Span.indices, List.length_map, List.length_range']
  omega

/-- The parts of the right operand that the ranks combine with their shares, whether or not they
had to be brought there. -/
theorem converses_operand (group : Nat) (hsize : a.getD size 0 = b.getD size 0) (sign : Sign)
    {storage : Nat → Storage}
    (hok : ∀ r < size, (v r).copy.storage.zip sign.kernel sign.onEntries
      ((⟨a.getD r 0, a.getD (r + 1) 0⟩ : Span).slice (joined size w)) = .ok (storage r)) :
    Converses group size (fun r => ((v r).combine sign (w r)).outcome)
      (fun r => .ok { (v r).copy with storage := storage r }) := by
  have hcheck : ∀ r < size, checkGlobalSize sign.operation (v r).size (w r).size = .ok () := by
    intro r hr
    rw [checkGlobalSize, hv.spread.size_eq hr, hw.spread.size_eq hr, if_pos hsize]
  by_cases hab : a = b
  · subst hab
    refine (Converses.finish group size _).of_eq fun r hr => ?_
    have hpart : (w r).storage.toList =
        (⟨a.getD r 0, a.getD (r + 1) 0⟩ : Span).slice (joined size w) := by
      rw [← hw.spread.localRange_eq hr]
      exact hw.spread.toList_eq_slice hr
    rw [combine, hcheck r hr, sameLayout_shares hv hw hr, Sign.combine_eq_zip, hpart, hok r hr,
      if_pos (decide_eq_true rfl)]
    rfl
  · have hmove := converses_redistribute group hw.spread hv.spread.tiles hsize
      fun r hr p hp _ => length_ownedBy_lt hw hv.spread.tiles hsize hr p
    refine (Converses.bind_ok (f := fun r values => Attempt.ofExcept
      ((v r).copy.withStorage (sign.combine (v r).copy.storage (.ofList values)))) hmove
      ((Converses.finish group size _).of_eq fun r hr => ?_)).of_eq fun r hr => ?_
    · have hrange : (⟨r, a⟩ : Partition).localRange = ⟨a.getD r 0, a.getD (r + 1) 0⟩ :=
        Partition.rangeOf_eq hv.spread.tiles.length hr
      rw [Sign.combine_eq_zip, Storage.toList_ofList, hrange, hok r hr]
      rfl
    · rw [combine, hcheck r hr, sameLayout_shares hv hw hr, hv.spread.layout r hr,
        if_neg (by simp [hab])]
      rfl

/-- **Out of place, with operands of the same size.**  Whatever the layouts are, the ranks and the
one process come to the same vector, laid out and kept like the left operand. -/
theorem converses_combine_of_size_eq (group : Nat) (hsize : a.getD size 0 = b.getD size 0)
    (sign : Sign) :
    ∃ (out : Nat → Shard) (u : Shard),
      Converses group size (fun r => ((v r).combine sign (w r)).outcome) (fun r => .ok (out r)) ∧
      (s.combine sign t).outcome = .finish (.ok u) ∧ Mirrors size a out u ∧
      (∀ r < size, (out r).backend = (v r).backend) ∧
      joined size out = List.zipWith sign.onEntries (joined size v) (joined size w) := by
  have hall : (joined size w).length = (a.getD size 0).toNat := by
    rw [hw.spread.length_joined (Nat.le_refl size), hsize]
  have hparts := flatMap_slice hv.spread.tiles hall
  have hlen : ∀ r < size, (v r).copy.toList.length =
      ((⟨a.getD r 0, a.getD (r + 1) 0⟩ : Span).slice (joined size w)).length := by
    intro r hr
    have hlocal := hv.copy.spread.length r hr
    have hend := hv.spread.tiles.mono (show r + 1 ≤ size by omega) (Nat.le_refl size)
    simp only [Span.slice, List.length_drop, List.length_take, hall, Nat.min_eq_left hend]
    exact hlocal
  obtain ⟨storage, u, hok, hoku, hmirrors, hentries⟩ :=
    hv.copy.zip sign.kernel sign.onEntries hlen
  rw [hparts] at hoku hentries
  refine ⟨_, _, converses_operand hv hw group hsize sign hok, ?_, hmirrors, fun r hr => ?_, ?_⟩
  · have hcheck : checkGlobalSize sign.operation s.size t.size = .ok () := by
      rw [checkGlobalSize, hv.size_eq, hw.size_eq, if_pos hsize]
    have hright : t.storage.toList = joined size w := hw.entries
    rw [combine, hcheck, sameLayout_mirrors hv hw hsize, Sign.combine_eq_zip, hright, hoku]
    rfl
  · exact (Storage.backend_zip _ _ (hok r hr)).trans (Storage.backend_copy _)
  · have hleft : joined size (fun r => (v r).copy) = joined size v :=
      hv.copy.entries.symm.trans ((Storage.toList_copy s.storage).trans hv.entries)
    rw [hleft] at hentries
    rw [← hentries, ← hmirrors.entries]
    rfl

/-- **Out of place.**  The ranks and the one process come to the same in any case. -/
theorem converses_combine (group : Nat) (sign : Sign) :
    ∃ (f : Nat → Except Error Shard) (g : Except Error Shard),
      Converses group size (fun r => ((v r).combine sign (w r)).outcome) f ∧
      (s.combine sign t).outcome = .finish g ∧ Alike size f g := by
  by_cases hsize : a.getD size 0 = b.getD size 0
  · obtain ⟨out, u, hconv, hserial, hmirrors, -⟩ :=
      converses_combine_of_size_eq hv hw group hsize sign
    exact ⟨_, _, hconv, hserial, .made a out u (fun _ _ => rfl) rfl hmirrors⟩
  · let e : Error :=
      .dimensionMismatch sign.operation (a.getD size 0).toNat (b.getD size 0).toNat
    refine ⟨fun _ => .error e, .error e, (Converses.finish group size _).of_eq fun r hr => ?_, ?_,
      .refused e (fun _ => Error.noConfusion) (fun _ _ => rfl) rfl⟩
    · rw [combine, checkGlobalSize, hv.spread.size_eq hr, hw.spread.size_eq hr, if_neg hsize]
      rfl
    · rw [combine, checkGlobalSize, hv.size_eq, hw.size_eq, if_neg hsize]
      rfl

end Pair

/-! ## 5. With numbers -/

section Numbers

variable {size : Nat} {offsets : List UInt64} {v : Nat → Shard} {s : Shard}

/-- A scalar is turned away for its own sake only. -/
theorem eq_promotion_of_promote {c : Scalar} {e : Error} (hc : c.promote = .error e) :
    e = .promotion c := by
  cases c with
  | double x => exact absurd hc (by simp [Scalar.promote])
  | single x => exact (Except.error.inj hc).symm
  | int k n =>
    have hcase : (Scalar.int k n).promote = .ok (Binary64.ofInt n) ∨
        (Scalar.int k n).promote = .error (.promotion (.int k n)) := by
      simp only [Scalar.promote]
      cases (ScalarKind.int k).admission with
      | rejected => exact .inr rfl
      | exact | checked =>
        by_cases hn : k.ofEntry? (Binary64.ofInt n) = some n
        · exact .inl (if_pos hn)
        · exact .inr (if_neg hn)
    rcases hcase with hok | herror
    · exact absurd (hok.symm.trans hc) (by simp)
    · exact (Except.error.inj (herror.symm.trans hc)).symm

/-- What is done with a promoted scalar comes to the same on both. -/
theorem alike_of_promote (change : Binary64 → Shard → Shard)
    (hchange : ∀ x, Mirrors size offsets (fun r => change x (v r)) (change x s)) (c : Scalar) :
    Alike size (fun r => do let x ← c.promote; return change x (v r))
      (do let x ← c.promote; return change x s) := by
  cases hc : c.promote with
  | ok x => exact .made offsets _ _ (fun _ _ => rfl) rfl (hchange x)
  | error e =>
    refine .refused e (fun op he => ?_) (fun _ _ => rfl) rfl
    rw [eq_promotion_of_promote hc] at he
    exact Error.noConfusion he

variable (h : Mirrors size offsets v s)

include h

theorem Mirrors.combineNumberAssign (sign : Sign) (x : Binary64) :
    Mirrors size offsets (fun r => (v r).combineNumberAssign sign x)
      (s.combineNumberAssign sign x) := by
  simp only [Shard.combineNumberAssign, Sign.combineNumber_eq_update]
  exact h.update (sign.withNumber x)

theorem combineScalarAssign_alike (sign : Sign) (c : Scalar) :
    Alike size (fun r => (v r).combineScalarAssign sign c) (s.combineScalarAssign sign c) :=
  alike_of_promote (fun x v => v.combineNumberAssign sign x)
    (fun x => h.combineNumberAssign sign x) c

theorem combineScalar_alike (sign : Sign) (c : Scalar) :
    Alike size (fun r => (v r).combineScalar sign c) (s.combineScalar sign c) :=
  combineScalarAssign_alike h.copy sign c

theorem combineScalarLeft_alike (sign : LeftSign) (c : Scalar) :
    Alike size (fun r => (v r).combineScalarLeft sign c) (s.combineScalarLeft sign c) := by
  cases sign with
  | plus => exact combineScalar_alike h .plus c
  | times => exact combineScalar_alike h .times c
  | minus =>
    exact alike_of_promote
      (fun x v => (v.copy.combineNumberAssign .times .negativeOne).combineNumberAssign .plus x)
      (fun x => (h.copy.combineNumberAssign .times .negativeOne).combineNumberAssign .plus x) c

end Numbers

end ShardedVector.Shard
