/-
# What a storage holds

Every backend keeps the same entries in its own way.  For a storage that is `Sound` the view
`toList` says everything: how many entries there are, which one is found at a place, and what
a change makes of all of them.  A change never looks at the way of keeping.

* `toList_update` is the one place where the backends differ; all changes are made of it.
* `zip_spec` says when a list of operands is accepted and what comes of it.
-/
import ShardedVector.Proofs.Storage.Blocks
import ShardedVector.Proofs.Storage.Counted
import ShardedVector.Shard.Arithmetic

namespace ShardedVector

namespace Storage

/-! ## 1. Sound storages -/

instance : Nonempty Storage := ⟨.ofList []⟩

/-- A storage as it is kept: only blocks can be kept wrongly. -/
def Sound : Storage → Prop
  | .dense _ => True
  | .petsc _ => True
  | .tpetra b => b.Sound

variable {s : Storage}

theorem size_eq_length (h : s.Sound) : s.size = s.toList.length := by
  cases s with
  | dense a => rfl
  | petsc a => rfl
  | tpetra b => exact h.size

theorem entry?_eq_getElem? (h : s.Sound) (i : Nat) : s.entry? i = s.toList[i]? := by
  cases s with
  | dense a => rfl
  | petsc a => rfl
  | tpetra b => exact Blocked.entry?_eq_getElem? h i

theorem sound_ofList (entries : List Binary64) : (ofList entries).Sound := trivial

@[simp] theorem toList_ofList (entries : List Binary64) : (ofList entries).toList = entries := rfl

theorem sound_create (b : Backend) (n : Nat) : (create b n).Sound := by
  cases b with
  | dense => trivial
  | petsc => trivial
  | tpetra => exact Blocked.sound_ofSize n

theorem backend_create (b : Backend) (n : Nat) : (create b n).backend = b := by
  cases b <;> rfl

theorem toList_create (b : Backend) (n : Nat) : (create b n).toList = List.replicate n .zero := by
  cases b with
  | dense => rfl
  | petsc => rfl
  | tpetra => exact Blocked.toList_ofSize n

theorem sound_reset (s : Storage) (n : Nat) : (s.reset n).Sound := by
  cases s with
  | dense a => trivial
  | petsc a => trivial
  | tpetra b => exact Blocked.sound_ofSize n

theorem toList_reset (s : Storage) (n : Nat) :
    (s.reset n).toList = List.replicate n .zero := by
  cases s with
  | dense a => rfl
  | petsc a => rfl
  | tpetra b => exact Blocked.toList_ofSize n

theorem Sound.copy (h : s.Sound) : s.copy.Sound := by
  cases s with
  | dense a => trivial
  | petsc a => trivial
  | tpetra b => exact h

@[simp] theorem toList_copy (s : Storage) : s.copy.toList = s.toList := by
  cases s <;> rfl

theorem backend_copy (s : Storage) : s.copy.backend = s.backend := by
  cases s <;> rfl

/-! ## 2. Changes of every entry -/

/-- Every entry is replaced by what becomes of it and of its place, on every backend. -/
theorem toList_update (h : s.Sound) (f : Nat → Binary64 → Binary64) :
    (s.update f).toList = s.toList.mapIdx f := by
  have hvisit := visitEntries_id f 0
  simp only [Nat.zero_add] at hvisit
  cases s with
  | dense a => exact hvisit a.entries
  | petsc a => exact hvisit a.entries
  | tpetra b => exact Blocked.toList_visit h f

theorem Sound.update (h : s.Sound) (f : Nat → Binary64 → Binary64) : (s.update f).Sound := by
  cases s with
  | dense a => trivial
  | petsc a => trivial
  | tpetra b => exact Blocked.Sound.visit h f

theorem Sound.modify (h : s.Sound) (i : Nat) (change : Binary64 → Binary64) :
    (s.modify i change).Sound := by
  cases s with
  | dense a => trivial
  | petsc a => trivial
  | tpetra b => exact Blocked.Sound.modify h i change

/-- One entry is changed at its place. -/
theorem toList_modify (h : s.Sound) (i : Nat) (change : Binary64 → Binary64) :
    (s.modify i change).toList = s.toList.modify i change := by
  cases s with
  | dense a => rfl
  | petsc a => rfl
  | tpetra b => exact Blocked.toList_modify h i change

/-- A visitor meets every entry once and in order, on every backend. -/
theorem visit_spec (h : s.Sound) {σ : Type} (f : Nat → Binary64 → StateM σ Binary64) (memory : σ) :
    ((s.visit f).run memory).1.Sound ∧
      (((s.visit f).run memory).1.toList, ((s.visit f).run memory).2) =
        (s.toList.mapIdxM f).run memory := by
  rw [← visitEntries_eq_mapIdxM]
  cases s with
  | dense a => exact ⟨trivial, rfl⟩
  | petsc a => exact ⟨trivial, rfl⟩
  | tpetra b =>
    obtain ⟨hrun, hlengths, hsize⟩ := Blocked.visit_run h f memory
    exact ⟨h.of_lengths hlengths hsize, hrun⟩

/-- A change that does not look at places. -/
theorem toList_update_const (h : s.Sound) (g : Binary64 → Binary64) :
    (s.update fun _ x => g x).toList = s.toList.map g := by
  rw [toList_update h]
  exact List.ext_getElem (by simp) fun i h₁ h₂ => by simp

/-! ## 3. Changes with operands -/

variable (op : Operation) (f : Binary64 → Binary64 → Binary64) {values : List Binary64}

/-- Operands of the right number are taken in, each at its place. -/
theorem zip_spec (h : s.Sound) (hlen : s.toList.length = values.length) :
    ∃ s', s.zip op f values = .ok s' ∧ s'.Sound ∧ s'.toList = List.zipWith f s.toList values := by
  have hcheck : checkSize op s.size values.length = .ok () := by
    rw [checkSize, size_eq_length h, if_pos hlen]
  refine ⟨s.update fun i y => f y (values.toArray.getD i .zero), ?_, h.update _, ?_⟩
  · rw [zip, hcheck]
    rfl
  · rw [toList_update h]
    refine List.ext_getElem (by simp [hlen]) fun i h₁ h₂ => ?_
    have hi : i < values.length := by simp at h₁; omega
    simp [hi]

/-- Operands never change the way of keeping. -/
theorem backend_zip {s' : Storage} (hok : s.zip op f values = .ok s') :
    s'.backend = s.backend := (follows_zip hok).backend

theorem setLocal_spec (h : s.Sound) (hlen : s.toList.length = values.length) :
    ∃ s', s.setLocal values = .ok s' ∧ s'.Sound ∧ s'.toList = values := by
  obtain ⟨s', hok, hsound, hlist⟩ := zip_spec .setLocal (fun _ x => x) h hlen
  refine ⟨s', (setLocal_eq_zip s values).trans hok, hsound, ?_⟩
  rw [hlist]
  exact List.ext_getElem (by simp [hlen]) fun i h₁ h₂ => by simp

/-- A wrong number of operands is refused. -/
theorem zip_refused (h : s.Sound) (hlen : s.toList.length ≠ values.length) :
    s.zip op f values = .error (.dimensionMismatch op s.toList.length values.length) := by
  have hcheck : checkSize op s.size values.length =
      .error (.dimensionMismatch op s.toList.length values.length) := by
    rw [checkSize, size_eq_length h, if_neg hlen]
  rw [zip, hcheck]
  rfl

end Storage

/-! ## 4. The four operations -/

namespace Sign

/-- What an operation makes of two entries.  Addition and subtraction multiply first. -/
def onEntries : Sign → Binary64 → Binary64 → Binary64
  | plus => fun y x => y + .one * x
  | minus => fun y x => y + .negativeOne * x
  | times => fun y x => y * x
  | dividedBy => fun y x => y / x

/-- What an operation with a number on the right makes of an entry. -/
def withNumber : Sign → Binary64 → Binary64 → Binary64
  | plus, a => fun y => y + a
  | minus, a => fun y => y + -a
  | times, a => fun y => y * a
  | dividedBy, a => fun y => y * a.reciprocal

/-- The operation on local entries that is named when it is refused. -/
def kernel : Sign → Operation
  | plus | minus => .axpy
  | times => .multiply
  | dividedBy => .divide

theorem combine_eq_zip (sign : Sign) (y x : Storage) :
    sign.combine y x = y.zip sign.kernel sign.onEntries x.toList := by
  cases sign <;> rfl

theorem combineNumber_eq_update (sign : Sign) (s : Storage) (a : Binary64) :
    sign.combineNumber s a = s.update fun _ x => sign.withNumber a x := by
  cases sign <;> rfl

end Sign

end ShardedVector
