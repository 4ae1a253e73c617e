/-
# Places in blocks

The blocks of an array are `Tiled`: as many as its entries need, all of them full but the last one,
and the last one not empty.  A change never moves an entry to another block, so the lengths stay
(`Tiled.rewritten`), and they are so after any requests (`Tiled.handleAll`).

Three ways lead from a number to a place: an entry is looked up and handed out for a change by
division and remainder, a visit counts through the blocks, and all entries are the blocks one after
the other.  On blocks that are tiled they agree: `Addressed` says so for one entry, and `InOrder` for
the calls that a visitor gets.

* `ofSize?_eq`: no difference is negative when an array is laid out.
* `places_of_requests`: all of this for an array after any requests.
-/
import Mathlib.Algebra.Order.Floor.Div
import ShardedVector.Proofs.Storage.Requests

namespace ShardedVector.Blocked

/-! ## 1. Lengths of blocks -/

/-- Blocks as the entries need them: no more blocks than it takes, all full but the last one, which
is not empty. -/
structure Tiled (s : Blocked) : Prop where
  count : s.blockCount = s.size ⌈/⌉ blockLength
  full : ∀ b, b + 1 < s.blockCount → s.lengths[b]? = some blockLength
  last : ∀ n, s.lengths.getLast? = some n → 1 ≤ n ∧ n ≤ blockLength
  total : s.lengths.sum = s.size

variable {s t : Blocked}

theorem length_lengths (s : Blocked) : s.lengths.length = s.blockCount := List.length_map ..

theorem lengths_ofSize (n : Nat) :
    (ofSize n).lengths = (List.range ((n + (blockLength - 1)) / blockLength)).map fun b =>
      Nat.min blockLength (n - b * blockLength) := by
  simp [lengths, ofSize, Function.comp_def]

theorem blockCount_ofSize (n : Nat) :
    (ofSize n).blockCount = (n + (blockLength - 1)) / blockLength := by
  rw [← length_lengths, lengths_ofSize, List.length_map, List.length_range]

example : (ofSize 133).lengths = [64, 64, 5] := by decide

theorem tiled_ofSize (n : Nat) : (ofSize n).Tiled where
  count := by
    rw [blockCount_ofSize, Nat.ceilDiv_eq_add_pred_div]
    rfl
  full b hb := by
    rw [blockCount_ofSize] at hb
    rw [lengths_ofSize, List.getElem?_map, List.getElem?_range (by omega), Option.map_some]
    simp only [blockLength] at hb ⊢
    exact congrArg some (Nat.min_eq_left (by omega))
  last m hm := by
    rw [List.getLast?_eq_getElem?, length_lengths, blockCount_ofSize, lengths_ofSize,
      List.getElem?_map] at hm
    obtain ⟨b, hb, rfl⟩ := Option.map_eq_some_iff.mp hm
    obtain ⟨hlt, rfl⟩ := List.getElem?_eq_some_iff.mp hb
    rw [List.length_range] at hlt
    simp only [List.getElem_range, blockLength, Nat.min_def] at hlt ⊢
    split <;> omega
  total := by
    rw [(sound_ofSize n).size, toList, List.length_flatten]
    rfl

/-- Whether blocks are tiled depends on their lengths and on the size alone. -/
theorem Tiled.of_lengths (h : s.Tiled) (hlengths : t.lengths = s.lengths)
    (hsize : t.size = s.size) : t.Tiled := by
  have hcount : t.blockCount = s.blockCount := by
    rw [← length_lengths, hlengths, length_lengths]
  refine ⟨?_, ?_, ?_, ?_⟩
  · rw [hcount, hsize]
    exact h.count
  · rw [hcount, hlengths]
    exact h.full
  · rw [hlengths]
    exact h.last
  · rw [hlengths, hsize]
    exact h.total

/-- Full blocks and a last one that is not too long are regular. -/
theorem regular_of_full : ∀ {lengths : List Nat},
    (∀ b, b + 1 < lengths.length → lengths[b]? = some blockLength) →
    (∀ n, lengths.getLast? = some n → n ≤ blockLength) → Regular lengths
  | [], _, _ => trivial
  | [n], _, hlast => hlast n rfl
  | n :: m :: rest, hfull, hlast => by
    refine ⟨Option.some.inj (hfull 0 (by simp)), regular_of_full (fun b hb => ?_) hlast⟩
    exact hfull (b + 1) (by simpa using hb)

theorem Tiled.sound (h : s.Tiled) : s.Sound where
  regular := regular_of_full (length_lengths s ▸ h.full) fun n hn => (h.last n hn).2
  size := by
    rw [toList, List.length_flatten]
    exact h.total.symm

/-! ## 2. Lengths stay -/

/-- **A change keeps the blocks tiled**, or lays them out anew. -/
theorem Tiled.rewritten (h : s.Tiled) {s' : Storage} (hs' : (Storage.tpetra s).Rewritten s') :
    ∃ t : Blocked, s' = .tpetra t ∧ t.Tiled := by
  cases hs' with
  | reset n => exact ⟨ofSize n, rfl, tiled_ofSize n⟩
  | update f =>
    obtain ⟨hlengths, hsize⟩ := lengths_visit h.sound f
    exact ⟨_, rfl, h.of_lengths hlengths hsize⟩
  | visit f memory =>
    obtain ⟨-, hlengths, hsize⟩ := visit_run h.sound f memory
    exact ⟨_, rfl, h.of_lengths hlengths hsize⟩
  | modify i f => exact ⟨_, rfl, h.of_lengths (lengths_modify s i f) rfl⟩
  | view hview => cases hview

variable {σ : Type}

theorem Tiled.handle (h : s.Tiled) (memory : σ) (r : Storage.Request σ) :
    ∃ t : Blocked, ((Storage.tpetra s).handle memory r).1.1 = .tpetra t ∧ t.Tiled := by
  cases r with
  | change c =>
    have heffect := Storage.effect_change (.tpetra s) memory c
    rw [Storage.handle]
    generalize (Storage.tpetra s).change memory c = attempt at heffect
    cases heffect with
    | made _ hrewritten => exact h.rewritten hrewritten
    -- the access past the end was made, but it found nothing to change
    | missed _ i f => exact h.rewritten (.modify i f)
    | refused => exact ⟨s, rfl, h⟩
  | access i f => exact h.rewritten (.modify i f)
  | ask q => exact ⟨s, by cases q <;> rfl, h⟩
  | copy => exact ⟨s, rfl, h⟩

/-- The blocks stay tiled however often the array is changed. -/
theorem Tiled.handleAll : ∀ (requests : List (Storage.Request σ)) {s : Blocked}, s.Tiled →
    ∀ memory : σ, ∃ t : Blocked,
      ((Storage.tpetra s).handleAll memory requests).1 = .tpetra t ∧ t.Tiled
  | [], s, h, _ => ⟨s, rfl, h⟩
  | r :: rest, _, h, memory => by
    obtain ⟨t, hafter, ht⟩ := h.handle memory r
    rw [Storage.handleAll, hafter]
    exact ht.handleAll rest _

/-! ## 3. One entry -/

/-- Entry `i` handed out for a change: what it is, and the array with something else in its place.
It is looked for in the block and at the place where it is looked up. -/
def handOut? (s : Blocked) (i : Nat) : Option (Binary64 × (Binary64 → Blocked)) :=
  match s.blocks[i / blockLength]? with
  | some block =>
    match block[i % blockLength]? with
    | some x =>
      some (x, fun y =>
        { s with blocks := s.blocks.set (i / blockLength) (block.set (i % blockLength) y) })
    | none => none
  | none => none

/-- What is handed out is what is looked up. -/
theorem fst_handOut? (s : Blocked) (i : Nat) : (s.handOut? i).map Prod.fst = s.entry? i := by
  rw [handOut?, entry?]
  cases s.blocks[i / blockLength]? with
  | none => rfl
  | some block => cases hx : block[i % blockLength]? <;> simp [hx]

/-- To change an entry is to have it handed out and to put something else in its place. -/
theorem modify_eq_handOut? (s : Blocked) (i : Nat) (change : Binary64 → Binary64) :
    s.modify i change = (s.handOut? i).elim s fun out => out.2 (change out.1) := by
  rw [modify, handOut?, List.modify_eq_set_getElem?]
  cases hblock : s.blocks[i / blockLength]? with
  | none => rfl
  | some block =>
    obtain ⟨hb, rfl⟩ := List.getElem?_eq_some_iff.mp hblock
    simp only [List.modify_eq_set_getElem?, Option.map_eq_map, Option.map_some, Option.getD_some]
    cases hx : s.blocks[i / blockLength][i % blockLength]? with
    | none =>
      simp only [Option.map_none, Option.getD_none, List.set_getElem_self, Option.elim_none]
    | some x => rfl

/-- Number `i` leads to entry `i` of all entries, to look it up and to hand it out for a change, and
past the end it leads nowhere.  A change of it has it handed out. -/
structure Addressed (s : Blocked) (i : Nat) : Prop where
  lookUp : s.entry? i = s.toList[i]?
  lookUp_none : s.entry? i = none ↔ s.size ≤ i
  handOut : ∀ x put, s.handOut? i = some (x, put) →
    s.toList[i]? = some x ∧ ∀ y, (put y).toList = s.toList.set i y
  handOut_none : s.handOut? i = none ↔ s.size ≤ i
  modify : ∀ f, s.modify i f = (s.handOut? i).elim s fun out => out.2 (f out.1)

theorem Sound.addressed (h : s.Sound) (i : Nat) : s.Addressed i := by
  have hlookUp := entry?_eq_getElem? h i
  have hnone : s.entry? i = none ↔ s.size ≤ i := by
    rw [hlookUp, List.getElem?_eq_none_iff, h.size]
  have hfst := fst_handOut? s i
  refine ⟨hlookUp, hnone, fun x put hout => ⟨?_, fun y => ?_⟩, ?_, modify_eq_handOut? s i⟩
  · rw [hout] at hfst
    exact (hfst.trans hlookUp).symm
  · have hput : s.modify i (fun _ => y) = put y := by
      simpa only [hout, Option.elim_some] using modify_eq_handOut? s i fun _ => y
    rw [← hput, toList_modify h, List.modify_eq_set]
  · rw [← hnone, ← hfst, Option.map_eq_none_iff]

/-! ## 4. The calls of a visit -/

/-- What one call of a visitor was: the number it was called with, the entry it met, and what it made
of it. -/
structure Meeting where
  index : Nat
  met : Binary64
  made : Binary64

section Calls

variable (f : Nat → Binary64 → StateM σ Binary64)

/-- The same visitor, which also notes its calls. -/
def noting (i : Nat) (x : Binary64) : StateM (σ × List Meeting) Binary64 := do
  let (memory, noted) ← get
  let (y, memory') := (f i x).run memory
  set (memory', noted ++ [⟨i, x, y⟩])
  return y

/-- A visit of a list: one call for each entry, in order, and a visitor that notes its calls does
nothing else besides. -/
theorem visitEntries_noting : ∀ (first : Nat) (entries : List Binary64) (memory : σ)
    (noted : List Meeting), ∃ meetings,
      (visitEntries (noting f) first entries).run (memory, noted) =
        (((visitEntries f first entries).run memory).1,
          (((visitEntries f first entries).run memory).2, noted ++ meetings)) ∧
      meetings.map Meeting.index = List.range' first entries.length ∧
      meetings.map Meeting.met = entries ∧
      meetings.map Meeting.made = ((visitEntries f first entries).run memory).1
  | _, [], _, noted => ⟨[], by rw [List.append_nil]; rfl, rfl, rfl, rfl⟩
  | first, x :: rest, memory, noted => by
    let y := ((f first x).run memory).1
    obtain ⟨meetings, hrun, hindex, hmet, hmade⟩ := visitEntries_noting (first + 1) rest
      ((f first x).run memory).2 (noted ++ [⟨first, x, y⟩])
    refine ⟨⟨first, x, y⟩ :: meetings, ?_, ?_, ?_, ?_⟩
    · -- the first call is noted behind what was noted before, and the others behind it
      rw [List.append_cons]
      exact congrArg (fun run => (y :: run.1, run.2)) hrun
    · rw [List.map_cons, hindex]
      rfl
    · rw [List.map_cons, hmet]
    · rw [List.map_cons, hmade]
      rfl

/-- A visitor of an array is called once with each number below the size, in order.  It meets the
entry that is looked up by this number, and what it makes of it is looked up by the same number
afterwards. -/
structure InOrder (s : Blocked) (memory : σ) : Prop where
  same : (((s.visit (noting f)).run (memory, [])).1, ((s.visit (noting f)).run (memory, [])).2.1) =
    (s.visit f).run memory
  indices : ((s.visit (noting f)).run (memory, [])).2.2.map Meeting.index = List.range s.size
  met : ∀ c ∈ ((s.visit (noting f)).run (memory, [])).2.2, s.entry? c.index = some c.met
  made : ∀ c ∈ ((s.visit (noting f)).run (memory, [])).2.2,
    entry? ((s.visit f).run memory).1 c.index = some c.made

end Calls

/-- What is listed in the order of its numbers is found by its number. -/
theorem getElem?_index {meetings : List Meeting} {n : Nat} {g : Meeting → Binary64}
    {entries : List Binary64} (hindex : meetings.map Meeting.index = List.range n)
    (hentries : meetings.map g = entries) {c : Meeting} (hc : c ∈ meetings) :
    entries[c.index]? = some (g c) := by
  obtain ⟨j, hj⟩ := List.mem_iff_getElem?.mp hc
  have hnumber : (List.range n)[j]? = some c.index := by
    rw [← hindex, List.getElem?_map, hj, Option.map_some]
  obtain ⟨hlt, hsame⟩ := List.getElem?_eq_some_iff.mp hnumber
  rw [List.getElem_range] at hsame
  rw [← hsame, ← hentries, List.getElem?_map, hj, Option.map_some]

/-- The lengths say how the entries are divided. -/
theorem eq_of_lengths (hlist : s.toList = t.toList) (hlengths : s.lengths = t.lengths)
    (hsize : s.size = t.size) : s = t := by
  obtain ⟨blocks, size⟩ := s
  obtain ⟨blocks', size'⟩ := t
  obtain rfl : size = size' := hsize
  obtain rfl : blocks = blocks' := List.eq_iff_flatten_eq.mpr ⟨hlist, hlengths⟩
  rfl

theorem Sound.inOrder (h : s.Sound) (f : Nat → Binary64 → StateM σ Binary64) (memory : σ) :
    s.InOrder f memory := by
  obtain ⟨hplain, hlengths, hsize⟩ := visit_run h f memory
  obtain ⟨hnoting, hlengths', hsize'⟩ := visit_run h (noting f) (memory, [])
  obtain ⟨meetings, hrun, hindex, hmet, hmade⟩ := visitEntries_noting f 0 s.toList memory []
  rw [hrun, List.nil_append, ← hplain] at hnoting
  obtain ⟨hlist, hstate⟩ := Prod.ext_iff.mp hnoting
  have hcalls : ((s.visit (noting f)).run (memory, [])).2.2 = meetings := congrArg Prod.snd hstate
  have hafter : ((s.visit f).run memory).1.Sound := h.of_lengths hlengths hsize
  rw [← h.size, ← List.range_eq_range'] at hindex
  rw [← hplain] at hmade
  refine ⟨Prod.ext ?_ (congrArg Prod.fst hstate), ?_, fun c hc => ?_, fun c hc => ?_⟩
  · -- both visits leave the same entries, and neither moves one to another block
    exact eq_of_lengths hlist (hlengths'.trans hlengths.symm) (hsize'.trans hsize.symm)
  · rw [hcalls, hindex]
  · rw [hcalls] at hc
    rw [entry?_eq_getElem? h]
    exact getElem?_index hindex hmet hc
  · rw [hcalls] at hc
    rw [entry?_eq_getElem? hafter]
    exact getElem?_index hindex hmade hc

/-! ## 5. Laying out -/

/-- A difference, unless it is negative. -/
def difference? (a b : Nat) : Option Nat := if b ≤ a then some (a - b) else none

/-- The zeros of a block, unless it starts past the end of `n` entries. -/
def zeroBlock? (n b : Nat) : Option (List Binary64) := do
  let rest ← difference? n (b * blockLength)
  return List.replicate (Nat.min blockLength rest) .zero

/-- So many zeros, laid out as in `ofSize` unless a difference is negative. -/
def ofSize? (n : Nat) : Option Blocked := do
  let blocks ← (List.range ((n + (blockLength - 1)) / blockLength)).mapM (zeroBlock? n)
  return ⟨blocks, n⟩

theorem mapM_zeroBlock? (n : Nat) : ∀ bs : List Nat, (∀ b ∈ bs, b * blockLength ≤ n) →
    bs.mapM (zeroBlock? n) = some (bs.map fun b =>
      List.replicate (Nat.min blockLength (n - b * blockLength)) Binary64.zero)
  | [], _ => rfl
  | b :: rest, h => by
    have hb : difference? n (b * blockLength) = some (n - b * blockLength) :=
      if_pos (h b List.mem_cons_self)
    have hrest := mapM_zeroBlock? n rest fun b' hb' => h b' (List.mem_cons_of_mem b hb')
    rw [List.mapM_cons, hrest, zeroBlock?, hb]
    rfl

/-- **No difference is negative** when an array is laid out, however many entries it has: every block
starts before the end of the entries. -/
theorem ofSize?_eq (n : Nat) : ofSize? n = some (ofSize n) := by
  have hstarts : ∀ b ∈ List.range ((n + (blockLength - 1)) / blockLength),
      b * blockLength ≤ n := by
    intro b hb
    have hlt := List.mem_range.mp hb
    simp only [blockLength] at hlt ⊢
    omega
  rw [ofSize?, mapM_zeroBlock? n _ hstarts]
  rfl

/-! ## 6. After any requests -/

/-- **Places in blocks.**  After any requests to so many zeros the blocks are tiled; by any number an
entry is looked up and handed out where it is among all entries, and nowhere past the end; and every
visitor is called once with each number in order and with the entry that is looked up by it.  No
difference that is formed to lay out the blocks is negative. -/
theorem places_of_requests (n : Nat) (memory : σ) (requests : List (Storage.Request σ)) :
    (∃ s : Blocked, ((Storage.create .tpetra n).handleAll memory requests).1 = .tpetra s ∧
      s.Tiled ∧ (∀ i, s.Addressed i) ∧
      ∀ (τ : Type) (f : Nat → Binary64 → StateM τ Binary64) (memory' : τ), s.InOrder f memory') ∧
    ofSize? n = some (ofSize n) := by
  obtain ⟨s, hrun, htiled⟩ := (tiled_ofSize n).handleAll requests memory
  exact ⟨⟨s, hrun, htiled, htiled.sound.addressed, fun _ => htiled.sound.inOrder⟩, ofSize?_eq n⟩

end ShardedVector.Blocked
