/-
# When a remembered norm may be trusted

The counter of a counted array is a word, and what is remembered of a norm is taken for present
whenever the counter shows the same word again.  So one may ask what was remembered after how many
accesses, counted without a bound.  `Watched` is a storage together with those numbers: how often
its counter was counted up, and where the count stood when each remembered norm was computed.

* `Shelf` is a storage and its clones, and `Event` is anything that can be done with one of them.
* `Counted.Dated` is what every event keeps: the counter is the true count cut to a word, and so is
  the state of what is remembered; and a norm that is as old as the array is the one its entries
  give.
* `normPartial_eq_recomputed`: with fewer than 2^64 accesses since it was computed, a remembered
  norm is either known to be old or the one that the entries give.
* `exists_stale`: with exactly 2^64 accesses it may be neither.
-/
import Mathlib.Algebra.Group.Nat.Defs
import Mathlib.Logic.Function.Basic
import ShardedVector.Proofs.Storage.Alike

namespace ShardedVector

/-! ## 1. The counter of an array -/

namespace Counted

/-- The counter of an array that was counted up `bumps` times, and what it remembers, computed at
the counts `filledAt`. -/
structure Dated (a : Counted) (bumps : Nat) (filledAt : Norm → Nat) : Prop where
  counter : a.state = .ofNat bumps
  filled : ∀ k x, a.cache.get? k = some x →
    filledAt k ≤ bumps ∧ a.cache.state = .ofNat (filledAt k)
  fresh : ∀ k x, a.cache.get? k = some x → filledAt k = bumps → x = a.computeNorm k

variable {a a' : Counted} {bumps : Nat} {filledAt : Norm → Nat}

/-- **What is remembered is right for 2^64 accesses.**  If it is taken for present, its count and
the present one agree as words, and so they agree. -/
theorem Dated.eq_computeNorm (h : a.Dated bumps filledAt) {k : Norm} {x : Binary64}
    (hx : a.cache.get? k = some x) (hrecent : bumps < filledAt k + 2 ^ 64)
    (hpresent : a.cache.state = a.state) : x = a.computeNorm k := by
  obtain ⟨hle, hstate⟩ := h.filled k x hx
  refine h.fresh k x hx ?_
  have hword : (UInt64.ofNat (filledAt k)).toNat = (UInt64.ofNat bumps).toNat := by
    rw [← hstate, ← h.counter, hpresent]
  simp only [UInt64.toNat_ofNat'] at hword
  omega

/-- The answer to a question is right if what is remembered of it is. -/
theorem normPartial_eq_computeNorm {k : Norm}
    (h : ∀ x, a.cache.get? k = some x → a.cache.state = a.state → x = a.computeNorm k) :
    (a.normPartial k).1 = a.computeNorm k := by
  by_cases hpresent : a.cache.state = a.state
  · cases hget : a.cache.get? k with
    | none => simp only [normPartial, NormCache.forState_of_eq _ hpresent, hget]
    | some x =>
      simp only [normPartial, NormCache.forState_of_eq _ hpresent, hget]
      exact h x hget hpresent
  · simp only [normPartial, NormCache.forState_of_ne _ hpresent, NormCache.get?_fresh]

theorem Unasked.dated (h : a.Unasked) (hcounter : a.state = .ofNat bumps)
    (filledAt : Norm → Nat) : a.Dated bumps filledAt where
  counter := hcounter
  filled k _ hx := absurd hx (h k ▸ nofun)
  fresh k _ hx := absurd hx (h k ▸ nofun)

/-- An access leaves what is remembered one count behind. -/
theorem Dated.follows (h : a.Dated bumps filledAt) (hfollows : a.Follows a') :
    a'.Dated (bumps + (a'.state - a.state).toNat) filledAt := by
  cases hfollows with
  | same => simpa using h
  | counted hstate hcache =>
    have hone : (a'.state - a.state).toNat = 1 := by
      rw [hstate, UInt64.add_comm, UInt64.add_sub_cancel]
      rfl
    rw [hone]
    refine ⟨?_, ?_, ?_⟩
    · rw [hstate, h.counter, UInt64.ofNat_add]
      rfl
    · intro k x hx
      rw [hcache] at hx ⊢
      obtain ⟨hle, hfilled⟩ := h.filled k x hx
      exact ⟨Nat.le_succ_of_le hle, hfilled⟩
    · intro k x hx hcount
      rw [hcache] at hx
      have hle := (h.filled k x hx).1
      omega

/-- A copy remembers nothing. -/
theorem unasked_copy (a : Counted) : a.copy.Unasked := fun k => NormCache.get?_fresh k 0

theorem Dated.copy (h : a.Dated bumps filledAt) : a.copy.Dated bumps filledAt :=
  a.unasked_copy.dated h.counter filledAt

/-- What belongs to another state is forgotten. -/
theorem Dated.forState (h : a.Dated bumps filledAt) :
    Dated { a with cache := a.cache.forState a.state } bumps filledAt := by
  by_cases hpresent : a.cache.state = a.state
  · rw [NormCache.forState_of_eq _ hpresent]
    exact h
  · rw [NormCache.forState_of_ne _ hpresent]
    have hunasked : Unasked { a with cache := .fresh a.state } :=
      fun k => NormCache.get?_fresh k a.state
    exact hunasked.dated h.counter filledAt

/-- A norm that is computed now is remembered as of now. -/
theorem Dated.remember (h : a.Dated bumps filledAt) (hpresent : a.cache.state = a.state)
    (k : Norm) :
    Dated { a with cache := a.cache.set k (a.computeNorm k) } bumps
      (Function.update filledAt k bumps) := by
  refine ⟨h.counter, fun j x hx => ?_, fun j x hx hcount => ?_⟩
  · rw [NormCache.state_set]
    by_cases hjk : j = k
    · subst hjk
      rw [Function.update_self]
      exact ⟨Nat.le_refl bumps, hpresent.trans h.counter⟩
    · rw [NormCache.get?_set_ne _ hjk] at hx
      rw [Function.update_of_ne hjk]
      exact h.filled j x hx
  · by_cases hjk : j = k
    · subst hjk
      rw [NormCache.get?_set_self] at hx
      exact (Option.some.inj hx).symm
    · rw [NormCache.get?_set_ne _ hjk] at hx
      rw [Function.update_of_ne hjk] at hcount
      exact h.fresh j x hx hcount

/-- A norm that is remembered for the present state is not computed again; any other one is. -/
theorem Dated.normPartial (h : a.Dated bumps filledAt) (k : Norm) :
    (a.normPartial k).2.Dated bumps
      (if (a.cache.forState a.state).get? k = none then Function.update filledAt k bumps
        else filledAt) := by
  cases hget : (a.cache.forState a.state).get? k with
  | some x =>
    have hrun : (a.normPartial k).2 = { a with cache := a.cache.forState a.state } := by
      simp only [Counted.normPartial, hget]
    rw [hrun, if_neg (Option.some_ne_none x)]
    exact h.forState
  | none =>
    have hrun : (a.normPartial k).2 =
        { a with cache := (a.cache.forState a.state).set k (a.computeNorm k) } := by
      simp only [Counted.normPartial, hget]
    rw [hrun, if_pos rfl]
    exact h.forState.remember (NormCache.state_forState ..) k

end Counted

/-! ## 2. Storages of any backend -/

namespace Storage

/-- The word that counts the accesses; only a counted array has one. -/
def counter : Storage → UInt64
  | .petsc a => a.state
  | .dense _ | .tpetra _ => 0

/-- The counter that what is remembered belongs to. -/
def cacheState : Storage → UInt64
  | .petsc a => a.cache.state
  | .dense _ | .tpetra _ => 0

/-- What is remembered of a norm, whatever counter it belongs to. -/
def cached? : Storage → Norm → Option Binary64
  | .petsc a, k => a.cache.get? k
  | .dense _, _ | .tpetra _, _ => none

/-- What is remembered of a norm for the present counter. -/
def recalled? : Storage → Norm → Option Binary64
  | .petsc a, k => (a.cache.forState a.state).get? k
  | .dense _, _ | .tpetra _, _ => none

/-- The local part of a norm, computed from the present entries. -/
def recomputed (s : Storage) (k : Norm) : Binary64 := normPlain s.backend k s.toList

theorem recomputed_petsc (a : Counted) (k : Norm) :
    (Storage.petsc a).recomputed k = a.computeNorm k := (a.computeNorm_eq_normPlain k).symm

theorem unasked_copy (s : Storage) : s.copy.Unasked := by
  cases s with
  | dense a => trivial
  | tpetra b => trivial
  | petsc a => exact a.unasked_copy

theorem Unasked.recalled?_eq_none {s : Storage} (h : s.Unasked) (k : Norm) :
    s.recalled? k = none := by
  cases s with
  | dense a => rfl
  | tpetra b => rfl
  | petsc a => exact Counted.Unasked.get?_forState h a.state k

/-- A storage that is asked for a norm keeps its entries, whatever it remembers. -/
theorem recalls_normPartial (s : Storage) (k : Norm) : s.Recalls (s.normPartial k).2 := by
  cases s with
  | dense a => exact ⟨id, rfl, rfl⟩
  | tpetra b => exact ⟨id, rfl, rfl⟩
  | petsc a =>
    have hentries : (a.normPartial k).2.entries = a.entries := by
      rw [Counted.normPartial]
      split <;> rfl
    exact ⟨fun _ => trivial, hentries, rfl⟩

/-- An edit counts at most one access. -/
theorem follows_edit (s : Storage) (e : Edit) : s.Follows (s.edit e).1 := by
  have settled {outcome : Except Error Storage} (h : ∀ s', outcome = .ok s' → s.Follows s') :
      s.Follows (s.settleWith outcome).1 := by
    cases outcome with
    | ok s' => exact h s' rfl
    | error e => exact .refl s
  cases e with
  | reset n => exact follows_reset s n
  | zero =>
    rw [edit_zero]
    exact follows_update s _
  | setAll x =>
    rw [edit_setAll]
    exact follows_update s _
  | setEntry i x => exact follows_modify s i _
  | addEntry i x => exact follows_modify s i _
  | setLocal values =>
    rw [edit_setLocal]
    exact settled fun _ => follows_zip
  | addLocal values => exact settled fun _ => follows_zip
  | axpy a other => exact settled fun _ => follows_zip
  | add other => exact settled fun s' (h : s.axpy .one other = .ok s') => follows_zip h
  | multiply other => exact settled fun _ => follows_zip
  | divide other => exact settled fun _ => follows_zip
  | setInView i x =>
    cases s with
    | dense a => exact .dense ..
    | petsc a => exact .petsc .same
    | tpetra b => exact .tpetra b b
  | _ => exact follows_update s _

theorem follows_change {σ : Type} (s : Storage) (memory : σ) (c : Change σ) :
    s.Follows (s.change memory c).1.1 := by
  cases c with
  | edit e => exact follows_edit s e
  | visit f => exact follows_visit s f memory

end Storage

/-! ## 3. A storage and its clones -/

/-- A storage, how often its counter was counted up, and the counts at which the norms that it
remembers were computed. -/
structure Watched where
  storage : Storage
  bumps : Nat
  filledAt : Norm → Nat

namespace Watched

def create (b : Backend) (n : Nat) : Watched := ⟨.create b n, 0, fun _ => 0⟩

/-- The same storage after an access, which may have counted its counter up. -/
def access (w : Watched) (s : Storage) : Watched :=
  { w with storage := s, bumps := w.bumps + (s.counter - w.storage.counter).toNat }

/-- The same storage after a question for a norm, which is computed unless it is remembered for
the present counter. -/
def ask (w : Watched) (k : Norm) : Watched where
  storage := (w.storage.normPartial k).2
  bumps := w.bumps
  filledAt :=
    if w.storage.recalled? k = none then Function.update w.filledAt k w.bumps else w.filledAt

def copy (w : Watched) : Watched := { w with storage := w.storage.copy }

/-- What every event keeps of a storage. -/
def Dated (w : Watched) : Prop :=
  match w.storage with
  | .petsc a => a.Dated w.bumps w.filledAt
  | .dense _ | .tpetra _ => True

variable {w : Watched}

theorem dated_create (b : Backend) (n : Nat) : (create b n).Dated := by
  cases b with
  | dense => trivial
  | tpetra => trivial
  | petsc => exact (Counted.unasked_ofSize n).dated rfl _

theorem Dated.access (h : w.Dated) {s : Storage} (hfollows : w.storage.Follows s) :
    (w.access s).Dated := by
  obtain ⟨storage, bumps, filledAt⟩ := w
  cases hfollows with
  | dense a a' => trivial
  | tpetra b b' => trivial
  | petsc hcounted => exact Counted.Dated.follows h hcounted

theorem Dated.ask (h : w.Dated) (k : Norm) : (w.ask k).Dated := by
  obtain ⟨storage, bumps, filledAt⟩ := w
  cases storage with
  | dense a => trivial
  | tpetra b => trivial
  | petsc a => exact Counted.Dated.normPartial h k

theorem Dated.copy (h : w.Dated) : w.copy.Dated := by
  obtain ⟨storage, bumps, filledAt⟩ := w
  cases storage with
  | dense a => trivial
  | tpetra b => trivial
  | petsc a =>
    have h : a.Dated bumps filledAt := h
    exact h.copy

end Watched

/-- What can be done with one of several storages: a change of its entries, an access to one entry
by which it may be changed, a question for a norm, and a clone. -/
inductive Event (σ : Type) where
  | change (i : Nat) (c : Storage.Change σ)
  | access (i j : Nat) (f : Binary64 → Binary64)
  | ask (i : Nat) (k : Norm)
  | copy (i : Nat)

/-- A storage and its clones, and what their visitors remember. -/
structure Shelf (σ : Type) where
  memory : σ
  copies : List Watched

namespace Shelf

variable {σ : Type}

/-- A shelf with one storage of so many zeros. -/
def create (b : Backend) (n : Nat) (memory : σ) : Shelf σ := ⟨memory, [.create b n]⟩

/-- The shelf after an event; nothing happens to a storage that is not there. -/
def step (shelf : Shelf σ) : Event σ → Shelf σ
  | .change i c =>
    match shelf.copies[i]? with
    | some w =>
      let changed := (w.storage.change shelf.memory c).1
      ⟨changed.2, shelf.copies.set i (w.access changed.1)⟩
    | none => shelf
  | .access i j f =>
    { shelf with copies := shelf.copies.modify i fun w => w.access (w.storage.modify j f) }
  | .ask i k => { shelf with copies := shelf.copies.modify i (·.ask k) }
  | .copy i =>
    match shelf.copies[i]? with
    | some w => { shelf with copies := shelf.copies ++ [w.copy] }
    | none => shelf

/-- The shelf after a number of events. -/
def run (shelf : Shelf σ) (events : List (Event σ)) : Shelf σ := events.foldl step shelf

/-- What holds of every storage on the shelf. -/
def All (P : Watched → Prop) (shelf : Shelf σ) : Prop := ∀ w ∈ shelf.copies, P w

/-- What accesses, questions and clones keep holds of every storage after an event. -/
theorem All.step {P : Watched → Prop} {shelf : Shelf σ} (h : shelf.All P)
    (haccess : ∀ w s, P w → w.storage.Follows s → P (w.access s))
    (hask : ∀ w k, P w → P (w.ask k)) (hcopy : ∀ w, P w → P w.copy) (e : Event σ) :
    (shelf.step e).All P := by
  have modified {f : Watched → Watched} (hf : ∀ w, P w → P (f w)) (i : Nat) :
      ∀ w ∈ shelf.copies.modify i f, P w := by
    intro w hw
    obtain ⟨j, hj⟩ := List.mem_iff_getElem?.mp hw
    rw [List.getElem?_modify] at hj
    obtain ⟨u, hu, rfl⟩ := Option.map_eq_some_iff.mp hj
    have hPu := h u (List.mem_of_getElem? hu)
    split
    · exact hf u hPu
    · exact hPu
  cases e with
  | change i c =>
    cases hi : shelf.copies[i]? with
    | none => simpa only [Shelf.step, hi] using h
    | some w =>
      simp only [Shelf.step, hi]
      intro u hu
      rcases List.mem_or_eq_of_mem_set hu with hmem | rfl
      · exact h u hmem
      · exact haccess w _ (h w (List.mem_of_getElem? hi)) (Storage.follows_change ..)
  | access i j f => exact modified (fun w hw => haccess w _ hw (Storage.follows_modify ..)) i
  | ask i k => exact modified (fun w hw => hask w k hw) i
  | copy i =>
    cases hi : shelf.copies[i]? with
    | none => simpa only [Shelf.step, hi] using h
    | some w =>
      simp only [Shelf.step, hi]
      intro u hu
      rcases List.mem_append.mp hu with hmem | hmem
      · exact h u hmem
      · obtain rfl := List.mem_singleton.mp hmem
        exact hcopy w (h w (List.mem_of_getElem? hi))

theorem All.run {P : Watched → Prop} {shelf : Shelf σ} (h : shelf.All P)
    (haccess : ∀ w s, P w → w.storage.Follows s → P (w.access s))
    (hask : ∀ w k, P w → P (w.ask k)) (hcopy : ∀ w, P w → P w.copy) (events : List (Event σ)) :
    (shelf.run events).All P := by
  induction events generalizing shelf with
  | nil => exact h
  | cons e rest ih => exact ih (h.step haccess hask hcopy e)

end Shelf

/-! ## 4. Remembered norms are the ones of the entries -/

/-- A storage of a backend whose remembered norms are dated. -/
def Watched.Sound (b : Backend) (w : Watched) : Prop := w.Dated ∧ w.storage.backend = b

/-- What is remembered on a shelf is dated, after any events. -/
theorem sound_run {σ : Type} (b : Backend) (n : Nat) (memory : σ) (events : List (Event σ)) :
    ((Shelf.create b n memory).run events).All (Watched.Sound b) := by
  refine Shelf.All.run ?_ ?_ ?_ ?_ events
  · intro w hw
    obtain rfl := List.mem_singleton.mp hw
    exact ⟨Watched.dated_create b n, Storage.backend_create b n⟩
  · intro w s hw hfollows
    exact ⟨hw.1.access hfollows, hfollows.backend.trans hw.2⟩
  · intro w k hw
    exact ⟨hw.1.ask k, (Storage.recalls_normPartial w.storage k).backend.trans hw.2⟩
  · intro w hw
    exact ⟨hw.1.copy, (Storage.backend_copy w.storage).trans hw.2⟩

/-- **A remembered norm is the one of the entries**, on a storage and all its clones after any
events.  The counter is the number of accesses cut to a word.  If fewer than 2^64 accesses lie
between the question that a remembered norm was computed for and a question for it now, then it is
what the entries give, should it be taken for present, and the answer is what they give in any
case. -/
theorem normPartial_eq_recomputed {σ : Type} (b : Backend) (n : Nat) (memory : σ)
    (events : List (Event σ)) {w : Watched}
    (hw : w ∈ ((Shelf.create b n memory).run events).copies) :
    w.storage.backend = b ∧
    (b = .petsc → w.storage.counter = .ofNat w.bumps) ∧
    ∀ k, (∀ x, w.storage.cached? k = some x →
        w.filledAt k ≤ w.bumps ∧ w.storage.cacheState = .ofNat (w.filledAt k)) ∧
      ((∀ x, w.storage.cached? k = some x → w.bumps < w.filledAt k + 2 ^ 64) →
        (∀ x, w.storage.cached? k = some x → w.storage.cacheState = w.storage.counter →
          x = w.storage.recomputed k) ∧
        (w.storage.normPartial k).1 = w.storage.recomputed k) := by
  obtain ⟨hdated, hbackend⟩ := sound_run b n memory events w hw
  refine ⟨hbackend, ?_, fun k => ?_⟩
  · rintro rfl
    obtain ⟨storage, bumps, filledAt⟩ := w
    cases storage with
    | petsc a => exact Counted.Dated.counter hdated
    | dense a => cases hbackend
    | tpetra blocks => cases hbackend
  · obtain ⟨storage, bumps, filledAt⟩ := w
    cases storage with
    | dense a => exact ⟨nofun, fun _ => ⟨nofun, a.norm_eq_normPlain k⟩⟩
    | tpetra blocks =>
      exact ⟨nofun, fun _ => ⟨nofun, Storage.foldNorm_eq_normPlain (.tpetra blocks) k⟩⟩
    | petsc a =>
      have hdated : a.Dated bumps filledAt := hdated
      refine ⟨fun x hx => hdated.filled k x hx, fun hrecent => ?_⟩
      have hpresent : ∀ x, a.cache.get? k = some x → a.cache.state = a.state →
          x = a.computeNorm k :=
        fun x hx hstate => hdated.eq_computeNorm hx (hrecent x hx) hstate
      rw [Storage.recomputed_petsc]
      exact ⟨hpresent, Counted.normPartial_eq_computeNorm hpresent⟩

/-- A clone that goes its own way, and an access that finds no entry: the norm that was remembered
before is not taken for present. -/
def clonedEvents : List (Event Unit) :=
  [.change 0 (.edit (.setAll .one)), .ask 0 .l1, .copy 0, .change 1 (.edit (.reset 3)),
    .ask 1 .linf, .change 0 (.edit (.setEntry 7 .one))]

theorem normPartial_eq_recomputed_cloned :
    ∃ w ∈ ((Shelf.create .petsc 2 ()).run clonedEvents).copies,
      w.filledAt .l1 = 1 ∧ w.bumps = 2 ∧ w.storage.cached? .l1 ≠ none ∧
      (∀ x, w.storage.cached? .l1 = some x → w.bumps < w.filledAt .l1 + 2 ^ 64) ∧
      (w.storage.normPartial .l1).1 = w.storage.recomputed .l1 := by
  have hw := List.mem_of_getElem? (l := ((Shelf.create .petsc 2 ()).run clonedEvents).copies)
    (i := 0) rfl
  obtain ⟨-, -, hnorm⟩ := normPartial_eq_recomputed .petsc 2 () clonedEvents hw
  refine ⟨_, hw, rfl, rfl, nofun, fun _ _ => by decide, ((hnorm .l1).2 fun _ _ => by decide).2⟩

/-! ## 5. The bound is exact -/

/-- Any number of changes of a single entry to one. -/
theorem run_setAll (memory : Unit) (cache : NormCache) (filledAt : Norm → Nat) :
    ∀ (m : Nat) (x : Binary64) (state : UInt64) (bumps : Nat),
      Shelf.run ⟨memory, [⟨.petsc ⟨[x], state, cache⟩, bumps, filledAt⟩]⟩
        (List.replicate (m + 1) (.change 0 (.edit (.setAll .one)))) =
      ⟨memory, [⟨.petsc ⟨[.one], state + .ofNat (m + 1), cache⟩, bumps + (m + 1), filledAt⟩]⟩ := by
  have step (x : Binary64) (state : UInt64) (bumps : Nat) :
      Shelf.step ⟨memory, [⟨.petsc ⟨[x], state, cache⟩, bumps, filledAt⟩]⟩
        (.change 0 (.edit (.setAll .one))) =
      ⟨memory, [⟨.petsc ⟨[.one], state + 1, cache⟩, bumps + (state + 1 - state).toNat,
        filledAt⟩]⟩ := rfl
  have hone (state : UInt64) : (state + 1 - state).toNat = 1 := by
    rw [UInt64.add_comm, UInt64.add_sub_cancel]
    rfl
  intro m
  induction m with
  | zero =>
    intro x state bumps
    rw [List.replicate_one, Shelf.run, List.foldl_cons, step, hone]
    rfl
  | succ m ih =>
    intro x state bumps
    rw [List.replicate_succ, Shelf.run, List.foldl_cons, step, hone]
    refine (ih .one (state + 1) (bumps + 1)).trans ?_
    have hstate : state + 1 + UInt64.ofNat (m + 1) = state + UInt64.ofNat (m + 1 + 1) := by
      rw [UInt64.add_assoc, UInt64.ofNat_add (m + 1) 1, UInt64.add_comm (UInt64.ofNat (m + 1))]
      rfl
    have hbumps : bumps + 1 + (m + 1) = bumps + (m + 1 + 1) := by omega
    rw [hstate, hbumps]

/-- **After exactly 2^64 accesses a remembered norm may be wrong**: the counter has come round. -/
theorem exists_stale :
    ∃ (events : List (Event Unit)) (w : Watched),
      w ∈ ((Shelf.create .petsc 1 ()).run events).copies ∧ w.bumps = w.filledAt .l1 + 2 ^ 64 ∧
        (w.storage.normPartial .l1).1 ≠ w.storage.recomputed .l1 := by
  -- the number of changes is kept behind a name, so that nothing counts to it
  obtain ⟨m, hm⟩ : ∃ m, m + 1 = 2 ^ 64 := ⟨2 ^ 64 - 1, rfl⟩
  let cache : NormCache := ⟨0, some ((Counted.ofSize 1).computeNorm .l1), none, none⟩
  have hstale : ((Storage.petsc ⟨[.one], 0, cache⟩).normPartial .l1).1 ≠
      (Storage.petsc ⟨[.one], 0, cache⟩).recomputed .l1 := by decide +kernel
  have hasked : (Shelf.create .petsc 1 ()).step (.ask 0 .l1) =
      ⟨(), [⟨.petsc ⟨[.zero], 0, cache⟩, 0, Function.update (fun _ => 0) .l1 0⟩]⟩ := rfl
  have hround : (0 : UInt64) + UInt64.ofNat (m + 1) = 0 := by
    rw [hm]
    rfl
  refine ⟨.ask 0 .l1 :: List.replicate (m + 1) (.change 0 (.edit (.setAll .one))),
    ⟨.petsc ⟨[.one], 0, cache⟩, 0 + (m + 1), Function.update (fun _ => 0) .l1 0⟩, ?_, ?_, ?_⟩
  · have hrun := run_setAll () cache (Function.update (fun _ => 0) .l1 0) m .zero 0 0
    rw [Shelf.run, List.foldl_cons, hasked, ← Shelf.run, hrun, hround]
    exact List.mem_singleton.mpr rfl
  · rw [hm]
    rfl
  · exact hstale

end ShardedVector
