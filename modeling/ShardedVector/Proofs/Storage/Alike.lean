/-
# The backends are alike

Whatever is done to a storage, what can be seen of it is decided by the plain list of its entries:
`onList` says what an edit makes of that list and whether it is refused, and no backend does
anything else (`edit_becomes`, `change_spec`).  So three storages of the same length stay alike
through every sequence of changes (`holds_changeAll`).

Two things are left out of `Shared`, the edits that mean the same everywhere: windows, which only
one backend has, and operands that are not kept as any backend keeps them.  `Holds` says what the
entries decide; local sums and norms also depend on where the backend starts them (`sumPlain`,
`normPlain`).

The norms of a counted array come out of a cache, so they are asked for in between: `changeAll`
asks for some of them before each change.  The run carries the entries, that everything remembered
is honest, and that nothing is remembered at all if nothing is asked for.
-/
import ShardedVector.Proofs.Storage.Entries
import ShardedVector.Storage.Edit

namespace ShardedVector.Storage

/-! ## 1. Edits of a plain list -/

/-- Changes entry `i`, which must be there. -/
def modifyPlain (entries : List Binary64) (i : Nat) (change : Binary64 → Binary64) :
    List Binary64 × Except Error Unit :=
  if i < entries.length then (entries.modify i change, .ok ())
  else (entries, .error (.indexOutOfRange i entries.length))

/-- Takes in operands, of which there must be as many as entries. -/
def zipPlain (op : Operation) (f : Binary64 → Binary64 → Binary64)
    (entries values : List Binary64) : List Binary64 × Except Error Unit :=
  if entries.length = values.length then (List.zipWith f entries values, .ok ())
  else (entries, .error (.dimensionMismatch op entries.length values.length))

namespace Edit

/-- What an edit makes of a list of entries, and whether it is refused. -/
def onList (entries : List Binary64) : Edit → List Binary64 × Except Error Unit
  | reset n => (List.replicate n .zero, .ok ())
  | zero => (entries.map fun _ => .zero, .ok ())
  | setAll x => (entries.map fun _ => x, .ok ())
  | scale a => (entries.map (· * a), .ok ())
  | shift a => (entries.map (· + a), .ok ())
  | abs => (entries.map Binary64.abs, .ok ())
  | setEntry i x => modifyPlain entries i fun _ => x
  | addEntry i x => modifyPlain entries i (· + x)
  | setLocal values => zipPlain .setLocal (fun _ x => x) entries values
  | addLocal values => zipPlain .addLocal (fun y x => y + x) entries values
  | axpy a other => zipPlain .axpy (fun y x => y + a * x) entries other.toList
  | add other => zipPlain .axpy (fun y x => y + .one * x) entries other.toList
  | multiply other => zipPlain .multiply (fun y x => y * x) entries other.toList
  | divide other => zipPlain .divide (fun y x => y / x) entries other.toList
  | update f => (entries.mapIdx f, .ok ())
  | setInView i x => (entries.modify i fun _ => x, .ok ())

/-- The edits that every backend offers, with an operand that is kept as it should be. -/
def Shared : Edit → Prop
  | axpy _ other | add other | multiply other | divide other => other.Sound
  | setInView _ _ => False
  | _ => True

end Edit

/-! ## 2. One edit -/

/-- What is left of a storage after an attempt to change it: a storage that follows it and holds
what the same attempt makes of a plain list, with the same answer. -/
structure Becomes (s : Storage) (attempt : Storage × Except Error Unit)
    (plain : List Binary64 × Except Error Unit) : Prop where
  sound : attempt.1.Sound
  follows : s.Follows attempt.1
  toList : attempt.1.toList = plain.1
  answer : attempt.2 = plain.2

variable {s : Storage}

theorem update_becomes (h : s.Sound) (f : Nat → Binary64 → Binary64) :
    s.Becomes (s.update f, .ok ()) (s.toList.mapIdx f, .ok ()) :=
  ⟨h.update f, follows_update s f, toList_update h f, rfl⟩

theorem update_const_becomes (h : s.Sound) (g : Binary64 → Binary64) :
    s.Becomes (s.update fun _ x => g x, .ok ()) (s.toList.map g, .ok ()) :=
  ⟨h.update _, follows_update s _, toList_update_const h g, rfl⟩

theorem modifyEntry_becomes (h : s.Sound) (i : Nat) (change : Binary64 → Binary64) :
    s.Becomes (s.modifyEntry i change) (modifyPlain s.toList i change) := by
  have hfollows := follows_modify s i change
  rw [modifyEntry, modifyPlain, size_eq_length h]
  by_cases hi : i < s.toList.length
  · rw [if_pos hi, if_pos hi]
    exact ⟨h.modify i change, hfollows, toList_modify h i change, rfl⟩
  · -- the access is counted all the same, so the storage need not be the one before
    have hsame : s.toList.modify i change = s.toList :=
      List.modify_eq_self (Nat.le_of_not_lt hi)
    rw [if_neg hi, if_neg hi]
    exact ⟨h.modify i change, hfollows, (toList_modify h i change).trans hsame, rfl⟩

theorem zip_becomes (h : s.Sound) (op : Operation) (f : Binary64 → Binary64 → Binary64)
    (values : List Binary64) :
    s.Becomes (s.settleWith (s.zip op f values)) (zipPlain op f s.toList values) := by
  rw [zipPlain]
  by_cases hlen : s.toList.length = values.length
  · obtain ⟨s', hok, hsound, hlist⟩ := zip_spec op f h hlen
    rw [if_pos hlen, hok]
    exact ⟨hsound, follows_zip hok, hlist, rfl⟩
  · rw [if_neg hlen, zip_refused op f h hlen]
    exact ⟨h, .refl s, rfl, rfl⟩

/-- **An edit does on every backend what it does to the list of entries**, and is refused for the
same reason. -/
theorem edit_becomes (h : s.Sound) {e : Edit} (he : e.Shared) :
    s.Becomes (s.edit e) (e.onList s.toList) := by
  cases e with
  | reset n => exact ⟨sound_reset s n, follows_reset s n, toList_reset s n, rfl⟩
  | zero =>
    rw [edit_zero]
    exact update_const_becomes h _
  | setAll x =>
    rw [edit_setAll]
    exact update_const_becomes h _
  | scale a => exact update_const_becomes h _
  | shift a => exact update_const_becomes h _
  | abs => exact update_const_becomes h _
  | setEntry i x => exact modifyEntry_becomes h i _
  | addEntry i x => exact modifyEntry_becomes h i _
  | setLocal values =>
    rw [edit_setLocal]
    exact zip_becomes h .setLocal _ values
  | addLocal values => exact zip_becomes h .addLocal _ values
  | axpy a other => exact zip_becomes h .axpy _ other.toList
  | add other => exact zip_becomes h .axpy (fun y x => y + Binary64.one * x) other.toList
  | multiply other => exact zip_becomes h .multiply _ other.toList
  | divide other => exact zip_becomes h .divide _ other.toList
  | update f => exact update_becomes h f
  | setInView i x => exact he.elim

/-! ## 3. One change, with a visitor that remembers -/

/-- What can be done to a storage from outside: an edit, or a visit of all entries by a visitor that
remembers things from one entry to the next and from one visit to the next. -/
inductive Change (σ : Type) where
  | edit (e : Edit)
  | visit (f : Nat → Binary64 → StateM σ Binary64)

variable {σ : Type} (memory : σ)

namespace Change

/-- The changes that every backend offers. -/
def Shared : Change σ → Prop
  | edit e => e.Shared
  | visit _ => True

/-- What a change makes of a list of entries and of the visitor's memory. -/
def onList (entries : List Binary64) : Change σ → (List Binary64 × σ) × Except Error Unit
  | edit e => (((e.onList entries).1, memory), (e.onList entries).2)
  | visit f => ((entries.mapIdxM f).run memory, .ok ())

end Change

/-- Applies a change. -/
def change (s : Storage) : Change σ → (Storage × σ) × Except Error Unit
  | .edit e => (((s.edit e).1, memory), (s.edit e).2)
  | .visit f => ((s.visit f).run memory, .ok ())

theorem change_spec (h : s.Sound) {c : Change σ} (hc : c.Shared) :
    (s.change memory c).1.1.Sound ∧ s.Follows (s.change memory c).1.1 ∧
      (((s.change memory c).1.1.toList, (s.change memory c).1.2), (s.change memory c).2) =
        c.onList memory s.toList := by
  cases c with
  | edit e =>
    have hedit := edit_becomes h hc
    refine ⟨hedit.sound, hedit.follows, ?_⟩
    rw [change, Change.onList, hedit.toList, hedit.answer]
  | visit f =>
    obtain ⟨hsound, hrun⟩ := visit_spec h f memory
    exact ⟨hsound, follows_visit s f memory, Prod.ext hrun rfl⟩

/-! ## 4. Norms in between -/

/-- A storage with the same entries kept in the same way; only what is remembered may differ. -/
structure Recalls (s s' : Storage) : Prop where
  sound : s.Sound → s'.Sound
  toList : s'.toList = s.toList
  backend : s'.backend = s.backend

theorem Recalls.trans {s s' s'' : Storage} (h : s.Recalls s') (h' : s'.Recalls s'') :
    s.Recalls s'' :=
  ⟨h'.sound ∘ h.sound, h'.toList.trans h.toList, h'.backend.trans h.backend⟩

theorem normPartial_recalls (h : s.Honest) (k : Norm) : s.Recalls (s.normPartial k).2 := by
  obtain ⟨-, hlist, hbackend, -⟩ := normPartial_spec h k
  refine ⟨fun hsound => ?_, hlist, hbackend⟩
  cases s with
  | dense a => trivial
  | petsc a => trivial
  | tpetra b => exact hsound

/-- Asks for the local parts of some norms, one after the other. -/
def askAll (s : Storage) : List Norm → List Binary64 × Storage
  | [] => ([], s)
  | k :: rest =>
    let answer := s.normPartial k
    let answers := answer.2.askAll rest
    (answer.1 :: answers.1, answers.2)

/-- An honest storage answers what its entries give and keeps them.  What it remembers is current
afterwards if it was so before, or if anything was asked for. -/
theorem askAll_spec : ∀ {s : Storage}, s.Honest → ∀ ks : List Norm,
    (s.askAll ks).1 = ks.map (fun k => normPlain s.backend k s.toList) ∧
      s.Recalls (s.askAll ks).2 ∧ (s.Current ∨ ks ≠ [] → (s.askAll ks).2.Current)
  | s, _, [] => ⟨rfl, ⟨id, rfl, rfl⟩, fun h => h.resolve_right (absurd rfl)⟩
  | s, h, k :: rest => by
    obtain ⟨hvalue, -, -, hcurrent⟩ := normPartial_spec h k
    have hrecalls := normPartial_recalls h k
    obtain ⟨hvalues, hrecalls', hcurrent'⟩ := askAll_spec hcurrent.honest rest
    rw [hrecalls.backend, hrecalls.toList] at hvalues
    refine ⟨?_, hrecalls.trans hrecalls', fun _ => hcurrent' (.inl hcurrent)⟩
    rw [askAll, List.map_cons, hvalue, hvalues]

/-! ## 5. A run of changes -/

/-- Applies changes one after the other, asking for some norms before each of them.  The storage and
the visitors' memory in the end, and which changes were refused. -/
def changeAll (asked : List Norm) : σ → Storage → List (Change σ) →
    (Storage × σ) × List (Except Error Unit)
  | memory, s, [] => ((s, memory), [])
  | memory, s, c :: rest =>
    let after := (s.askAll asked).2.change memory c
    let run := changeAll asked after.1.2 after.1.1 rest
    (run.1, after.2 :: run.2)

/-- The same run on a list of entries. -/
def Change.onListAll : σ → List Binary64 → List (Change σ) →
    (List Binary64 × σ) × List (Except Error Unit)
  | memory, entries, [] => ((entries, memory), [])
  | memory, entries, c :: rest =>
    let after := c.onList memory entries
    let run := onListAll after.1.2 after.1.1 rest
    (run.1, after.2 :: run.2)

/-- What a run keeps of its storage.  The last field is why the counter may come round: a storage
that is asked for nothing remembers nothing, and any other one is asked before each change. -/
structure Ready (asked : List Norm) (s : Storage) : Prop where
  sound : s.Sound
  honest : s.Honest
  unasked : s.Unasked ∨ asked ≠ []

variable {asked : List Norm}

theorem Ready.ask (h : s.Ready asked) :
    s.Recalls (s.askAll asked).2 ∧ (s.askAll asked).2.Current := by
  obtain ⟨-, hrecalls, hcurrent⟩ := askAll_spec h.honest asked
  exact ⟨hrecalls, hcurrent (h.unasked.imp_left Unasked.current)⟩

theorem Ready.follows {s' : Storage} (h : s.Ready asked) (hsound : s'.Sound)
    (hfollows : (s.askAll asked).2.Follows s') : s'.Ready asked := by
  refine ⟨hsound, h.ask.2.follows hfollows, ?_⟩
  cases asked with
  | nil => exact .inl ((h.unasked.resolve_right (absurd rfl)).follows hfollows)
  | cons k rest => exact .inr (List.cons_ne_nil k rest)

/-- **A run does on every backend what it does to the list of entries.** -/
theorem changeAll_spec : ∀ {s : Storage}, s.Ready asked →
    ∀ (memory : σ) {changes : List (Change σ)}, (∀ c ∈ changes, c.Shared) →
      (changeAll asked memory s changes).1.1.Ready asked ∧
      (changeAll asked memory s changes).1.1.backend = s.backend ∧
      (((changeAll asked memory s changes).1.1.toList, (changeAll asked memory s changes).1.2),
        (changeAll asked memory s changes).2) = Change.onListAll memory s.toList changes
  | s, h, memory, [], _ => ⟨h, rfl, rfl⟩
  | s, h, memory, c :: rest, hshared => by
    obtain ⟨hrecalls, -⟩ := h.ask
    obtain ⟨hsound, hfollows, hstep⟩ := change_spec memory (hrecalls.sound h.sound)
      (hshared c List.mem_cons_self)
    rw [hrecalls.toList] at hstep
    obtain ⟨hready, hbackend, hrun⟩ := changeAll_spec (h.follows hsound hfollows)
      (((s.askAll asked).2.change memory c).1.2) fun d hd => hshared d (List.mem_cons_of_mem c hd)
    refine ⟨hready, hbackend.trans (hfollows.backend.trans hrecalls.backend), ?_⟩
    rw [Change.onListAll, ← hstep, ← hrun]
    rfl

/-! ## 6. What can be seen -/

/-- Everything that can be asked of a storage is decided by its entries.  Local sums and norms are
also decided by the zero that its backend starts them from, see `sumPlain` and `normPlain`. -/
structure Holds (s : Storage) (entries : List Binary64) : Prop where
  toList : s.toList = entries
  size : s.size = entries.length
  entry? : ∀ i, s.entry? i = entries[i]?
  fold : ∀ {β : Type} (f : β → Binary64 → β) (seed : β), s.fold f seed = entries.foldl f seed
  localMin : s.localMin = entries.foldl Binary64.min .infinity
  localMax : s.localMax = entries.foldl Binary64.max .negativeInfinity
  localDot : ∀ other : Storage, other.Sound → s.localDot other =
    if entries.length = other.toList.length then
      .ok ((List.zipWith (· * ·) entries other.toList).foldl (· + ·) .negativeZero)
    else .error (.dimensionMismatch .inner entries.length other.toList.length)
  localSum : s.localSum = sumPlain s.backend entries
  norms : ∀ ks, (s.askAll ks).1 = ks.map fun k => normPlain s.backend k entries

theorem holds (hsound : s.Sound) (hhonest : s.Honest) : s.Holds s.toList where
  toList := rfl
  size := size_eq_length hsound
  entry? := entry?_eq_getElem? hsound
  fold := fold_eq_foldl s
  localMin := fold_eq_foldl s _ _
  localMax := fold_eq_foldl s _ _
  localDot other hother := by
    rw [localDot, checkSize, size_eq_length hsound, size_eq_length hother]
    by_cases hlen : s.toList.length = other.toList.length
    · rw [if_pos hlen, if_pos hlen]
      rfl
    · rw [if_neg hlen, if_neg hlen]
      rfl
  localSum := localSum_eq_sumPlain s
  norms ks := (askAll_spec hhonest ks).1

theorem ready_create (asked : List Norm) (b : Backend) (n : Nat) : (create b n).Ready asked :=
  ⟨sound_create b n, (unasked_create b n).current.honest, .inl (unasked_create b n)⟩

/-- **The backends are alike.**  The same changes to so many zeros leave every backend with the
entries and the visitors' memory that a plain list would be left with, and the same changes are
refused for the same reasons.  Afterwards all that can be seen is decided by the entries, and by
the zeros that the backend starts from, whichever norms were asked for in between. -/
theorem holds_changeAll (asked : List Norm) (memory : σ) (n : Nat) (changes : List (Change σ))
    (hshared : ∀ c ∈ changes, c.Shared) :
    ∃ entries memory' answers,
      Change.onListAll memory (List.replicate n .zero) changes = ((entries, memory'), answers) ∧
        ∀ b : Backend, ∃ s, changeAll asked memory (create b n) changes = ((s, memory'), answers) ∧
          s.backend = b ∧ s.Holds entries := by
  refine ⟨_, _, _, rfl, fun b => ?_⟩
  obtain ⟨hready, hbackend, hrun⟩ := changeAll_spec (ready_create asked b n) memory hshared
  rw [toList_create] at hrun
  rw [← hrun]
  exact ⟨_, rfl, hbackend.trans (backend_create b n), holds hready.sound hready.honest⟩

/-- Changes of 65 entries, one more than a block holds: operands of each backend, one of a wrong
size, an entry that is not there, and a visitor that counts the entries it meets. -/
def mixedChanges : List (Change Nat) :=
  [.edit (.setAll .one), .edit (.axpy .one (create .tpetra 65)), .edit (.setEntry 65 .one),
    .visit fun _ x => modifyGet fun count => (x + x, count + 1),
    .edit (.multiply (create .petsc 64)), .edit (.divide (ofList (List.replicate 65 .one)))]

theorem holds_changeAll_mixed :
    (∀ c ∈ mixedChanges, c.Shared) ∧
      ∃ entries memory' answers,
        Change.onListAll 0 (List.replicate 65 .zero) mixedChanges = ((entries, memory'), answers) ∧
          ∀ b : Backend, ∃ s,
            changeAll [.l1, .l2] 0 (create b 65) mixedChanges = ((s, memory'), answers) ∧
              s.backend = b ∧ s.Holds entries := by
  have hshared : ∀ c ∈ mixedChanges, c.Shared := by
    intro c hc
    simp only [mixedChanges, List.mem_cons, List.not_mem_nil, or_false] at hc
    rcases hc with rfl | rfl | rfl | rfl | rfl | rfl
    · trivial
    · exact sound_create .tpetra 65
    · trivial
    · trivial
    · exact sound_create .petsc 64
    · exact sound_ofList (List.replicate 65 .one)
  exact ⟨hshared, holds_changeAll [.l1, .l2] 0 65 mixedChanges hshared⟩

end ShardedVector.Storage
