/-
# Blocks and the entries they hold

A blocked array is `Regular` when every block but the last one is full.  Then entry `i` is where
it is looked for (`entry?_eq_getElem?`), a change of it changes nothing else (`toList_modify`), and
a visit hands every entry its place among all of them, whatever effects the visitor has
(`visit_map`).  None of these depends on anything but the lengths of the blocks, which changes and
visits keep.
-/
import ShardedVector.Storage.Basic

namespace ShardedVector

/-! ## 1. Visits without effects -/

/-- A visit that has no effect but its results. -/
theorem visitEntries_id (f : Nat → Binary64 → Binary64) :
    ∀ (first : Nat) (entries : List Binary64),
      Id.run (visitEntries (fun i x => pure (f i x)) first entries) =
        entries.mapIdx fun i x => f (first + i) x
  | _, [] => rfl
  | first, x :: rest => by
    have ih := visitEntries_id f (first + 1) rest
    have hindex : ∀ i, first + 1 + i = first + (i + 1) := by omega
    simp only [hindex] at ih
    simp only [visitEntries, List.mapIdx_cons, Id.run_bind, Id.run_pure, ih, Nat.add_zero]

section Visits

variable {m : Type → Type} [Monad m] [LawfulMonad m] {β : Type}
  (f : Nat → Binary64 → m Binary64)

/-- A visit keeps the number of entries. -/
theorem visitEntries_bind_length :
    ∀ (first : Nat) (entries : List Binary64) (next : List Binary64 → Nat → m β),
      (do
        let visited ← visitEntries f first entries
        next visited visited.length) =
      do
        let visited ← visitEntries f first entries
        next visited entries.length
  | _, [], next => by simp [visitEntries]
  | first, x :: rest, next => by
    have ih (y : Binary64) := visitEntries_bind_length (first + 1) rest fun visited n =>
      next (y :: visited) (n + 1)
    simp only [visitEntries, bind_assoc, pure_bind, List.length_cons, ih]

/-- Two lists that are visited one after the other. -/
theorem visitEntries_append :
    ∀ (first : Nat) (xs ys : List Binary64),
      visitEntries f first (xs ++ ys) = do
        let visited ← visitEntries f first xs
        let others ← visitEntries f (first + xs.length) ys
        pure (visited ++ others)
  | first, [], ys => by simp [visitEntries]
  | first, x :: rest, ys => by
    have hindex : first + (rest.length + 1) = first + 1 + rest.length := by omega
    simp only [List.cons_append, visitEntries, bind_assoc, pure_bind, List.length_cons, hindex,
      visitEntries_append (first + 1) rest ys]

theorem mapIdxM_go :
    ∀ (entries : List Binary64) (made : Array Binary64),
      List.mapIdxM.go f entries made = do
        let visited ← visitEntries f made.size entries
        pure (made.toList ++ visited)
  | [], made => by simp [List.mapIdxM.go, visitEntries]
  | x :: rest, made => by
    have ih (y : Binary64) := mapIdxM_go rest (made.push y)
    simp only [Array.size_push, Array.toList_push, List.append_assoc] at ih
    simp only [List.mapIdxM.go, visitEntries, ih, bind_assoc, pure_bind, List.singleton_append]

/-- **A visit meets the entries one after the other**, each with its place, and goes on with what the
visitor has left. -/
theorem visitEntries_eq_mapIdxM (entries : List Binary64) :
    visitEntries f 0 entries = entries.mapIdxM f := by
  refine Eq.symm ((mapIdxM_go f entries #[]).trans ?_)
  simp only [List.size_toArray, List.length_nil, List.nil_append, bind_pure]

end Visits

namespace Blocked

/-! ## 2. Regular blocks -/

/-- Lengths of blocks that are all full but the last one. -/
def Regular : List Nat → Prop
  | [] => True
  | [n] => n ≤ blockLength
  | n :: m :: rest => n = blockLength ∧ Regular (m :: rest)

/-- The lengths of the blocks. -/
def lengths (s : Blocked) : List Nat := s.blocks.map List.length

/-- An array as it is kept: regular blocks, and as many entries as it says. -/
structure Sound (s : Blocked) : Prop where
  regular : Regular s.lengths
  size : s.size = s.toList.length

theorem entry?_flatten :
    ∀ {blocks : List (List Binary64)}, Regular (blocks.map List.length) → ∀ i,
      (match blocks[i / blockLength]? with
        | some block => block[i % blockLength]?
        | none => none) = blocks.flatten[i]?
  | [], _, i => by simp
  | [block], h, i => by
    have h : block.length ≤ 64 := h
    simp only [blockLength, List.flatten_singleton]
    rcases Nat.lt_or_ge i 64 with hlt | hge
    · rw [Nat.div_eq_of_lt hlt, Nat.mod_eq_of_lt hlt]
      rfl
    · rw [List.getElem?_eq_none (by simp; omega), List.getElem?_eq_none (by omega)]
  | block :: next :: rest, h, i => by
    obtain ⟨hfull, hrest⟩ : block.length = 64 ∧ Regular ((next :: rest).map List.length) := h
    have ih := entry?_flatten hrest (i - 64)
    rw [List.flatten_cons]
    simp only [blockLength] at ih ⊢
    rcases Nat.lt_or_ge i 64 with hlt | hge
    · rw [Nat.div_eq_of_lt hlt, Nat.mod_eq_of_lt hlt, List.getElem?_append_left (by omega)]
      rfl
    · have hdiv : i / 64 = (i - 64) / 64 + 1 := by omega
      have hmod : i % 64 = (i - 64) % 64 := by omega
      rw [hdiv, hmod, List.getElem?_cons_succ, ih, List.getElem?_append_right (by omega), hfull]

/-- Entry `i` is the one at place `i` among all entries. -/
theorem entry?_eq_getElem? {s : Blocked} (h : s.Sound) (i : Nat) : s.entry? i = s.toList[i]? :=
  entry?_flatten h.regular i

/-! ## 3. Visits -/

section Visits

variable {m : Type → Type} [Monad m] [LawfulMonad m] {β : Type}
  (f : Nat → Binary64 → m Binary64)

/-- **To visit the blocks is to visit the entries** in order, whatever the visitor does besides; the
lengths of the blocks stay. -/
theorem visitBlocks_bind :
    ∀ {blocks : List (List Binary64)}, Regular (blocks.map List.length) →
      ∀ (b : Nat) (next : List Binary64 → List Nat → m β),
        (do
          let visited ← visitBlocks f b blocks
          next visited.flatten (visited.map List.length)) =
        do
          let entries ← visitEntries f (b * blockLength) blocks.flatten
          next entries (blocks.map List.length)
  | [], _, b, next => by simp [visitBlocks, visitEntries]
  | [block], _, b, next => by
    have hlength := visitEntries_bind_length f (b * blockLength) block fun entries n =>
      next entries [n]
    simpa [visitBlocks] using hlength
  | block :: following :: rest, h, b, next => by
    obtain ⟨hfull, hrest⟩ : block.length = blockLength ∧
      Regular ((following :: rest).map List.length) := h
    have hflat : (block :: following :: rest).flatten = block ++ (following :: rest).flatten := rfl
    have hlength := visitEntries_bind_length f (b * blockLength) block fun entries n => do
      let others ← visitEntries f (b * blockLength + block.length) (following :: rest).flatten
      next (entries ++ others) (n :: (following :: rest).map List.length)
    have hstart : (b + 1) * blockLength = b * blockLength + block.length := by
      rw [hfull, Nat.succ_mul]
    have ih (entries : List Binary64) := visitBlocks_bind hrest (b + 1) fun others lengths =>
      next (entries ++ others) (entries.length :: lengths)
    rw [hflat, visitEntries_append, visitBlocks]
    simp only [bind_assoc, pure_bind, List.flatten_cons, List.map_cons] at hlength ih ⊢
    simp only [ih, hstart]
    exact hlength

/-- The same for the whole array. -/
theorem visit_map {s : Blocked} (h : s.Sound) :
    (fun visited : Blocked => (visited.toList, visited.lengths, visited.size)) <$> s.visit f =
      (fun entries => (entries, s.lengths, s.size)) <$> visitEntries f 0 s.toList := by
  have hbind := visitBlocks_bind f h.regular 0 fun entries lengths =>
    pure (entries, lengths, s.size)
  rw [Nat.zero_mul] at hbind
  simpa only [visit, toList, lengths, map_eq_pure_bind, bind_assoc, pure_bind] using hbind

end Visits

/-- A visit without effects replaces each entry by what becomes of it and of its place. -/
theorem toList_visit {s : Blocked} (h : s.Sound) (f : Nat → Binary64 → Binary64) :
    (Id.run (s.visit fun i x => pure (f i x))).toList = s.toList.mapIdx f := by
  have hvisit := congrArg Prod.fst (visit_map (m := Id) (fun i x => pure (f i x)) h)
  have hentries := visitEntries_id f 0 s.toList
  simp only [Nat.zero_add] at hentries
  exact hvisit.trans hentries

theorem Sound.of_lengths {s s' : Blocked} (h : s.Sound) (hlengths : s'.lengths = s.lengths)
    (hsize : s'.size = s.size) : s'.Sound where
  regular := hlengths ▸ h.regular
  size := by
    rw [hsize, h.size, toList, toList, List.length_flatten, List.length_flatten]
    exact congrArg List.sum hlengths.symm

/-- A visit without effects keeps the lengths of the blocks. -/
theorem lengths_visit {s : Blocked} (h : s.Sound) (f : Nat → Binary64 → Binary64) :
    (Id.run (s.visit fun i x => pure (f i x))).lengths = s.lengths ∧
      (Id.run (s.visit fun i x => pure (f i x))).size = s.size := by
  have hvisit := visit_map (m := Id) (fun i x => pure (f i x)) h
  exact ⟨congrArg (fun t => t.2.1) hvisit, congrArg (fun t => t.2.2) hvisit⟩

theorem Sound.visit {s : Blocked} (h : s.Sound) (f : Nat → Binary64 → Binary64) :
    (Id.run (s.visit fun i x => pure (f i x))).Sound := by
  obtain ⟨hlengths, hsize⟩ := lengths_visit h f
  exact h.of_lengths hlengths hsize

/-- A visitor that remembers things meets the entries one after the other, and the lengths of the
blocks stay. -/
theorem visit_run {s : Blocked} (h : s.Sound) {σ : Type} (f : Nat → Binary64 → StateM σ Binary64)
    (memory : σ) :
    (((s.visit f).run memory).1.toList, ((s.visit f).run memory).2) =
        (visitEntries f 0 s.toList).run memory ∧
      ((s.visit f).run memory).1.lengths = s.lengths ∧
      ((s.visit f).run memory).1.size = s.size := by
  have hvisit := congrArg (fun visited => visited.run memory) (visit_map f h)
  exact ⟨congrArg (fun run => (run.1.1, run.2)) hvisit,
    congrArg (fun run => run.1.2.1) hvisit, congrArg (fun run => run.1.2.2) hvisit⟩

/-! ## 4. Changes of one entry -/

theorem lengths_modify (s : Blocked) (i : Nat) (change : Binary64 → Binary64) :
    (s.modify i change).lengths = s.lengths := by
  refine List.ext_getElem? fun b => ?_
  simp only [lengths, modify, List.getElem?_map, List.getElem?_modify]
  cases s.blocks[b]? with
  | none => rfl
  | some block => by_cases hb : i / blockLength = b <;> simp [hb]

theorem Sound.modify {s : Blocked} (h : s.Sound) (i : Nat) (change : Binary64 → Binary64) :
    (s.modify i change).Sound := h.of_lengths (lengths_modify s i change) rfl

/-- The entry that is found at place `i` is the one that changes. -/
theorem toList_modify {s : Blocked} (h : s.Sound) (i : Nat) (change : Binary64 → Binary64) :
    (s.modify i change).toList = s.toList.modify i change := by
  refine List.ext_getElem? fun j => ?_
  rw [← entry?_eq_getElem? (h.modify i change), List.getElem?_modify, ← entry?_eq_getElem? h]
  simp only [modify, entry?, List.getElem?_modify, blockLength]
  cases hblock : s.blocks[j / 64]? with
  | none => rfl
  | some block =>
    have hplace : i = j ↔ i / 64 = j / 64 ∧ i % 64 = j % 64 := by omega
    by_cases hdiv : i / 64 = j / 64 <;> simp [hdiv, hplace, List.getElem?_modify]

/-! ## 5. Zeros -/

/-- The blocks from block `b` on, when `count` more are needed for `n` zeros. -/
theorem regular_ofSize (n : Nat) :
    ∀ b count : Nat, b + count = (n + (blockLength - 1)) / blockLength →
      Regular (((List.range' b count).map fun b =>
        List.replicate (Nat.min blockLength (n - b * blockLength)) Binary64.zero).map List.length)
  | _, 0, _ => trivial
  | b, 1, _ => by
    have hlen : (List.replicate (Nat.min blockLength (n - b * blockLength))
        Binary64.zero).length ≤ blockLength := by
      rw [List.length_replicate]
      exact Nat.min_le_left _ _
    exact hlen
  | b, count + 2, h => by
    refine ⟨?_, regular_ofSize n (b + 1) (count + 1) (by omega)⟩
    simp only [blockLength] at h ⊢
    rw [List.length_replicate]
    exact Nat.min_eq_left (by omega)

theorem length_ofSize (n count : Nat) :
    ((List.range count).map fun b =>
      List.replicate (Nat.min blockLength (n - b * blockLength)) Binary64.zero).flatten.length =
      Nat.min n (count * blockLength) := by
  induction count with
  | zero => simp
  | succ count ih =>
    rw [List.range_succ, List.map_append, List.flatten_append, List.length_append, ih]
    simp only [blockLength, Nat.min_def, List.map_cons, List.map_nil, List.flatten_singleton,
      List.length_replicate]
    repeat' split
    all_goals omega

theorem toList_ofSize (n : Nat) : (ofSize n).toList = List.replicate n .zero := by
  refine List.eq_replicate_iff.mpr ⟨?_, fun x hx => ?_⟩
  · refine (length_ofSize n _).trans (Nat.min_eq_left ?_)
    simp only [blockLength]
    omega
  · obtain ⟨block, hblock, hx⟩ := List.mem_flatten.mp hx
    obtain ⟨b, -, rfl⟩ := List.mem_map.mp hblock
    exact List.eq_of_mem_replicate hx

theorem sound_ofSize (n : Nat) : (ofSize n).Sound where
  regular := by
    have h := regular_ofSize n 0 ((n + (blockLength - 1)) / blockLength) (Nat.zero_add _)
    rw [← List.range_eq_range'] at h
    exact h
  size := by
    rw [toList_ofSize, List.length_replicate]
    rfl

end Blocked

end ShardedVector
