/-
# The heap that lists are merged with

What a tree holds is a multiset of lists, and with that a multiset of elements; sinking a list,
taking out the last one and building the tree are said in terms of it.  A tree is `Valid` when no
list begins with less than the one above it, no right side has more levels than the left one, and
every list ascends.

* `runs_replaceTop`, `ordered_replaceTop`: sinking changes the list at the top and nothing else,
  and puts the tree in order.
* `runs_build`: every list gets into the tree once.
* `pop_spec`: what is popped is the least element, and the tree stays valid without it.
* `drain_spec`: so all elements come out in ascending order.
-/
import Mathlib.Algebra.BigOperators.Intervals
import Mathlib.Data.Multiset.Bind
import ShardedVector.Merge

namespace ShardedVector

/-- All elements of a list that is not used up. -/
def IndexRun.elements (run : IndexRun) : List UInt64 := run.head :: run.tail

theorem IndexRun.elements_cons (head next : UInt64) (tail : List UInt64) :
    IndexRun.elements ⟨head, next :: tail⟩ = head :: IndexRun.elements ⟨next, tail⟩ := rfl

namespace RunHeap

/-! ## 1. What a tree holds -/

/-- The lists of a tree. -/
def runs : RunHeap → Multiset IndexRun
  | leaf => 0
  | node run left right => run ::ₘ (left.runs + right.runs)

/-- The lists of a tree without the one at the top. -/
def others : RunHeap → Multiset IndexRun
  | leaf => 0
  | node _ left right => left.runs + right.runs

/-- The elements of all lists of a tree. -/
def elements (t : RunHeap) : Multiset UInt64 := t.runs.bind fun run => run.elements

/-- No list of the tree begins with less than `x`. -/
def AtLeast (x : UInt64) (t : RunHeap) : Prop := ∀ run ∈ t.runs, x ≤ run.head

/-- No list begins with less than the one above it. -/
def Ordered : RunHeap → Prop
  | leaf => True
  | node run left right =>
    (left.AtLeast run.head ∧ right.AtLeast run.head) ∧ left.Ordered ∧ right.Ordered

/-- The same without the list at the top, which may begin with anything. -/
def OrderedBelow : RunHeap → Prop
  | leaf => True
  | node _ left right => left.Ordered ∧ right.Ordered

/-- No right side has more levels than the left one. -/
def Leaning : RunHeap → Prop
  | leaf => True
  | node _ left right => right.depth ≤ left.depth ∧ left.Leaning ∧ right.Leaning

/-- A tree as it is kept. -/
structure Valid (t : RunHeap) : Prop where
  leaning : t.Leaning
  ordered : t.Ordered
  ascending : ∀ run ∈ t.runs, run.elements.Pairwise (· ≤ ·)

variable {run last : IndexRun} {left right t t' : RunHeap} {x : UInt64}

theorem Ordered.below (h : t.Ordered) : t.OrderedBelow := by
  cases t with
  | leaf => trivial
  | node => exact h.2

theorem atLeast_leaf (x : UInt64) : leaf.AtLeast x := fun _ h => absurd h (Multiset.notMem_zero _)

theorem atLeast_node (hx : x ≤ run.head) (hl : left.AtLeast x) (hr : right.AtLeast x) :
    (node run left right).AtLeast x := by
  intro other hother
  rcases Multiset.mem_cons.mp hother with rfl | hother
  · exact hx
  · rcases Multiset.mem_add.mp hother with hleft | hright
    · exact hl other hleft
    · exact hr other hright

theorem Ordered.atLeast (h : (node run left right).Ordered) (hx : x ≤ run.head) :
    (node run left right).AtLeast x :=
  atLeast_node hx (fun other hother => UInt64.le_trans hx (h.1.1 other hother))
    fun other hother => UInt64.le_trans hx (h.1.2 other hother)

theorem depth_eq_zero_iff : t.depth = 0 ↔ t = leaf := by
  cases t <;> simp [depth]

theorem Leaning.right_eq_leaf (h : (node run leaf right).Leaning) : right = leaf :=
  depth_eq_zero_iff.mp (Nat.le_zero.mp h.1)

/-! ## 2. Sinking -/

theorem depth_replaceTop (run : IndexRun) (t : RunHeap) : (replaceTop run t).depth = t.depth := by
  fun_induction replaceTop run t <;> simp_all [depth]

theorem Leaning.replaceTop (h : t.Leaning) : (replaceTop run t).Leaning := by
  fun_induction RunHeap.replaceTop run t <;> simp_all [Leaning, depth_replaceTop, depth]

/-- The list that sinks takes the place of the one at the top. -/
theorem runs_replaceTop (ht : t ≠ leaf) : (replaceTop run t).runs = run ::ₘ t.others := by
  fun_induction replaceTop run t with
  | case1 => exact absurd rfl ht
  | case2 | case4 | case6 | case8 => rfl
  | case3 _ a la ra _ ih | case7 _ a la ra _ _ _ _ _ ih =>
    rw [runs, ih (by simp), others, others, Multiset.cons_add, Multiset.cons_swap,
      ← Multiset.cons_add]
    rfl
  | case5 _ a la ra b lb rb _ _ ih =>
    rw [runs, ih (by simp), others, others, Multiset.add_cons, Multiset.cons_swap,
      ← Multiset.add_cons]
    rfl

theorem atLeast_replaceTop (hx : x ≤ run.head) {old : IndexRun} (hl : left.AtLeast x)
    (hr : right.AtLeast x) : (replaceTop run (node old left right)).AtLeast x := by
  rw [AtLeast, runs_replaceTop (by simp)]
  exact atLeast_node hx hl hr

/-- **Sinking puts a tree in order** in which only the top was out of order.  By induction on the
way down: a list that moves up begins with no more than everything that was below it, and with no
more than its sibling, since the lesser child moves. -/
theorem ordered_replaceTop (hl : t.Leaning) (h : t.OrderedBelow) :
    (replaceTop run t).Ordered := by
  fun_induction replaceTop run t with
  | case1 => trivial
  | case2 _ right =>
    obtain rfl := hl.right_eq_leaf
    exact ⟨⟨atLeast_leaf _, atLeast_leaf _⟩, trivial, trivial⟩
  | case3 _ a la ra hlt ih =>
    obtain ⟨ha, -⟩ := h
    exact ⟨⟨atLeast_replaceTop (UInt64.le_of_lt hlt) ha.1.1 ha.1.2, atLeast_leaf _⟩,
      ih hl.2.1 ha.below, trivial⟩
  | case4 _ a la ra hge =>
    obtain ⟨ha, -⟩ := h
    exact ⟨⟨ha.atLeast (UInt64.not_lt.mp hge), atLeast_leaf _⟩, ha, trivial⟩
  | case5 _ a la ra b lb rb hba hlt ih =>
    obtain ⟨ha, hb⟩ := h
    exact ⟨⟨ha.atLeast (UInt64.le_of_lt hba),
      atLeast_replaceTop (UInt64.le_of_lt hlt) hb.1.1 hb.1.2⟩, ha, ih hl.2.2 hb.below⟩
  | case6 _ a la ra b lb rb hba hge =>
    obtain ⟨ha, hb⟩ := h
    have hrun := UInt64.not_lt.mp hge
    exact ⟨⟨ha.atLeast (UInt64.le_trans hrun (UInt64.le_of_lt hba)), hb.atLeast hrun⟩, ha, hb⟩
  | case7 _ a la ra b lb rb hab hlt ih =>
    obtain ⟨ha, hb⟩ := h
    exact ⟨⟨atLeast_replaceTop (UInt64.le_of_lt hlt) ha.1.1 ha.1.2,
      hb.atLeast (UInt64.not_lt.mp hab)⟩, ih hl.2.1 ha.below, hb⟩
  | case8 _ a la ra b lb rb hab hge =>
    obtain ⟨ha, hb⟩ := h
    have hrun := UInt64.not_lt.mp hge
    exact ⟨⟨ha.atLeast hrun, hb.atLeast (UInt64.le_trans hrun (UInt64.not_lt.mp hab))⟩, ha, hb⟩

theorem Valid.replaceTop (h : t.Valid) (ht : t ≠ leaf) (hrun : run.elements.Pairwise (· ≤ ·)) :
    (replaceTop run t).Valid where
  leaning := h.leaning.replaceTop
  ordered := ordered_replaceTop h.leaning h.ordered.below
  ascending := by
    intro other hother
    rw [runs_replaceTop ht] at hother
    rcases Multiset.mem_cons.mp hother with rfl | hother
    · exact hrun
    · cases t with
      | leaf => exact absurd rfl ht
      | node top left right => exact h.ascending other (Multiset.mem_cons_of_mem hother)

/-! ## 3. The last list -/

theorem removeLast_eq_none_iff : t.removeLast = none ↔ t = leaf := by
  cases t with
  | leaf => simp [removeLast]
  | node run left right =>
    simp only [removeLast, reduceCtorEq, iff_false]
    split <;> split <;> simp

/-- The last list is the only one, or the last one of a side; the top stays in place then. -/
theorem removeLast_node (hl : (node run left right).Leaning)
    (h : (node run left right).removeLast = some (last, t')) :
    (left = leaf ∧ right = leaf ∧ last = run ∧ t' = leaf) ∨
    (∃ right', left.depth = right.depth ∧ right.removeLast = some (last, right') ∧
      t' = node run left right') ∨
    ∃ left', right.depth < left.depth ∧ left.removeLast = some (last, left') ∧
      t' = node run left' right := by
  obtain ⟨hdepth, -, -⟩ := hl
  rw [removeLast] at h
  split at h
  · next heq =>
    cases hr : right.removeLast with
    | none =>
      rw [hr] at h
      obtain ⟨rfl, rfl⟩ := Prod.mk.inj (Option.some.inj h)
      obtain rfl := removeLast_eq_none_iff.mp hr
      exact .inl ⟨depth_eq_zero_iff.mp heq, rfl, rfl, rfl⟩
    | some found =>
      rw [hr] at h
      obtain ⟨rfl, rfl⟩ := Prod.mk.inj (Option.some.inj h)
      exact .inr (.inl ⟨found.2, heq, rfl, rfl⟩)
  · next hne =>
    cases hr : left.removeLast with
    | none =>
      obtain rfl := removeLast_eq_none_iff.mp hr
      exact absurd (Nat.le_zero.mp hdepth).symm hne
    | some found =>
      rw [hr] at h
      obtain ⟨rfl, rfl⟩ := Prod.mk.inj (Option.some.inj h)
      exact .inr (.inr ⟨found.2, Nat.lt_of_le_of_ne hdepth (Ne.symm hne), rfl, rfl⟩)

/-- What is left of a tree without its last list. -/
structure Removed (t : RunHeap) (last : IndexRun) (t' : RunHeap) : Prop where
  runs : t.runs = last ::ₘ t'.runs
  leaning : t'.Leaning
  ordered : t.Ordered → t'.Ordered
  depth_le : t'.depth ≤ t.depth
  le_depth : t.depth ≤ t'.depth + 1

theorem Removed.atLeast (h : Removed t last t') (hx : t.AtLeast x) : t'.AtLeast x :=
  fun other hother => hx other (h.runs ▸ Multiset.mem_cons_of_mem hother)

theorem removeLast_spec (hl : t.Leaning) (h : t.removeLast = some (last, t')) :
    Removed t last t' := by
  induction t generalizing last t' with
  | leaf => simp [removeLast] at h
  | node run left right ihl ihr =>
    obtain ⟨rfl, rfl, rfl, rfl⟩ | ⟨right', heq, hr, rfl⟩ | ⟨left', hlt, hr, rfl⟩ :=
      removeLast_node hl h
    · exact ⟨rfl, trivial, fun _ => trivial, Nat.zero_le _, Nat.le_refl _⟩
    · have ih := ihr hl.2.2 hr
      refine ⟨?_, ⟨Nat.le_trans ih.depth_le hl.1, hl.2.1, ih.leaning⟩, fun ho => ?_,
        Nat.le_refl _, Nat.le_succ _⟩
      · rw [runs, runs, ih.runs, Multiset.add_cons, Multiset.cons_swap]
      · exact ⟨⟨ho.1.1, ih.atLeast ho.1.2⟩, ho.2.1, ih.ordered ho.2.2⟩
    · have ih := ihl hl.2.1 hr
      have hle := ih.depth_le
      have hge := ih.le_depth
      refine ⟨?_, ⟨by omega, ih.leaning, hl.2.2⟩, fun ho => ?_, ?_, ?_⟩
      · rw [runs, runs, ih.runs, Multiset.cons_add, Multiset.cons_swap]
      · exact ⟨⟨ih.atLeast ho.1.1, ho.1.2⟩, ih.ordered ho.2.1, ho.2.2⟩
      · exact Nat.succ_le_succ hle
      · exact Nat.succ_le_succ hge

theorem Removed.valid (h : Removed t last t') (hv : t.Valid) : t'.Valid where
  leaning := h.leaning
  ordered := h.ordered hv.ordered
  ascending := fun run hrun => hv.ascending run (h.runs ▸ Multiset.mem_cons_of_mem hrun)

/-! ## 4. Building -/

theorem build_eq_leaf {lists : Array IndexRun} {fuel i : Nat} (hi : lists.size ≤ i) :
    build lists fuel i = leaf := by
  cases fuel with
  | zero => rfl
  | succ fuel => rw [build, Array.getElem?_eq_none hi]

theorem build_succ {lists : Array IndexRun} {fuel i : Nat} (hi : i < lists.size) :
    build lists (fuel + 1) i = replaceTop lists[i]
      (node lists[i] (build lists fuel (2 * i + 1)) (build lists fuel (2 * i + 2))) := by
  rw [build, Array.getElem?_eq_getElem hi]

/-- A tree further down has no more levels. -/
theorem depth_build_le (lists : Array IndexRun) :
    ∀ {fuel i j : Nat}, i ≤ j → (build lists fuel j).depth ≤ (build lists fuel i).depth
  | 0, _, _, _ => Nat.le_refl _
  | fuel + 1, i, j, hij => by
    by_cases hj : j < lists.size
    · have hstep : (build lists fuel (2 * j + 1)).depth ≤ (build lists fuel (2 * i + 1)).depth :=
        depth_build_le lists (by omega)
      rw [build_succ hj, build_succ (show i < lists.size by omega), depth_replaceTop,
        depth_replaceTop]
      exact Nat.succ_le_succ hstep
    · rw [build_eq_leaf (by omega)]
      exact Nat.zero_le _

theorem leaning_build (lists : Array IndexRun) :
    ∀ {fuel i : Nat}, (build lists fuel i).Leaning
  | 0, _ => trivial
  | fuel + 1, i => by
    by_cases hi : i < lists.size
    · rw [build_succ hi]
      exact Leaning.replaceTop ⟨depth_build_le lists (by omega), leaning_build lists,
        leaning_build lists⟩
    · rw [build_eq_leaf (by omega)]
      trivial

theorem ordered_build (lists : Array IndexRun) :
    ∀ {fuel i : Nat}, (build lists fuel i).Ordered
  | 0, _ => trivial
  | fuel + 1, i => by
    by_cases hi : i < lists.size
    · rw [build_succ hi]
      exact ordered_replaceTop ⟨depth_build_le lists (by omega), leaning_build lists,
        leaning_build lists⟩ ⟨ordered_build lists, ordered_build lists⟩
    · rw [build_eq_leaf (by omega)]
      trivial

/-- More fuel than there are lists builds nothing else. -/
theorem build_congr {lists : Array IndexRun} :
    ∀ {fuel fuel' i : Nat}, lists.size ≤ i + fuel → lists.size ≤ i + fuel' →
      build lists fuel i = build lists fuel' i
  | 0, fuel', i, h, _ => by
    have hi : lists.size ≤ i := h
    rw [build_eq_leaf hi, build_eq_leaf hi]
  | fuel + 1, 0, i, _, h => by
    have hi : lists.size ≤ i := h
    rw [build_eq_leaf hi, build_eq_leaf hi]
  | fuel + 1, fuel' + 1, i, h, h' => by
    by_cases hi : i < lists.size
    · rw [build_succ hi, build_succ hi,
        build_congr (show lists.size ≤ 2 * i + 1 + fuel by omega)
          (show lists.size ≤ 2 * i + 1 + fuel' by omega),
        build_congr (show lists.size ≤ 2 * i + 2 + fuel by omega)
          (show lists.size ≤ 2 * i + 2 + fuel' by omega)]
    · rw [build_eq_leaf (by omega), build_eq_leaf (by omega)]

theorem runs_build_of_lt {lists : Array IndexRun} {i : Nat} (hi : i < lists.size) :
    (build lists lists.size i).runs = lists[i] ::ₘ
      ((build lists lists.size (2 * i + 1)).runs + (build lists lists.size (2 * i + 2)).runs) := by
  have hmore : build lists lists.size i = build lists (lists.size + 1) i :=
    build_congr (Nat.le_add_left _ _) (by omega)
  rw [hmore, build_succ hi, runs_replaceTop (by simp)]
  rfl

/-- The trees at positions `k` to `2 * k` hold the lists from position `k` on.  By induction from
the end: the tree at position `k` makes way for its two sides, which are the next ones. -/
theorem sum_runs_build (lists : Array IndexRun) :
    ∀ {m k : Nat}, k + m = lists.size →
      ∑ i ∈ Finset.Ico k (2 * k + 1), (build lists lists.size i).runs =
        (lists.toList.drop k : Multiset IndexRun)
  | 0, k, hk => by
    rw [List.drop_of_length_le (by simp; omega), Multiset.coe_nil]
    refine Finset.sum_eq_zero fun i hi => ?_
    rw [build_eq_leaf (by have := (Finset.mem_Ico.mp hi).1; omega)]
    rfl
  | m + 1, k, hk => by
    have hnext := sum_runs_build lists (m := m) (k := k + 1) (by omega)
    have hlt : k < lists.size := by omega
    rw [show 2 * (k + 1) + 1 = 2 * k + 1 + 1 + 1 by omega, Finset.sum_Ico_succ_top (by omega),
      Finset.sum_Ico_succ_top (by omega)] at hnext
    rw [Finset.sum_eq_sum_Ico_succ_bot (by omega), runs_build_of_lt hlt,
      List.drop_eq_getElem_cons (by simpa using hlt), ← Multiset.cons_coe, ← hnext,
      Multiset.cons_add]
    congr 1
    exact (add_comm _ _).trans (add_assoc _ _ _).symm

/-- **Every list gets into the tree once.** -/
theorem runs_build (lists : Array IndexRun) :
    (build lists lists.size 0).runs = (lists.toList : Multiset IndexRun) := by
  simpa using sum_runs_build lists (m := lists.size) (Nat.zero_add _)

theorem valid_build {lists : Array IndexRun}
    (h : ∀ run ∈ lists.toList, run.elements.Pairwise (· ≤ ·)) :
    (build lists lists.size 0).Valid where
  leaning := leaning_build lists
  ordered := ordered_build lists
  ascending := fun run hrun => h run (by rwa [runs_build, Multiset.mem_coe] at hrun)

/-! ## 5. Draining -/

/-- The top of a valid tree begins with its least element. -/
theorem Valid.head_le (h : (node run left right).Valid) (hx : x ∈ (node run left right).elements) :
    run.head ≤ x := by
  obtain ⟨other, hother, hx⟩ := Multiset.mem_bind.mp hx
  have hhead := h.ordered.atLeast UInt64.le_rfl other hother
  rcases List.mem_cons.mp hx with rfl | hx
  · exact hhead
  · exact UInt64.le_trans hhead (List.rel_of_pairwise_cons (h.ascending other hother) hx)

theorem pop_eq_none_iff : t.pop = none ↔ t = leaf := by
  cases t with
  | leaf => simp [pop]
  | node run left right =>
    obtain ⟨head, tail⟩ := run
    cases tail with
    | nil =>
      simp only [pop, reduceCtorEq, iff_false]
      split <;> simp
    | cons next tail => simp [pop]

/-- **The least element is popped**, and the others stay. -/
theorem pop_spec (h : t.Valid) (hp : t.pop = some (x, t')) :
    t.elements = x ::ₘ t'.elements ∧ t'.Valid ∧ ∀ y ∈ t.elements, x ≤ y := by
  cases t with
  | leaf => simp [pop] at hp
  | node run left right =>
    obtain ⟨head, tail⟩ := run
    cases tail with
    | cons next tail =>
      obtain ⟨rfl, rfl⟩ := Prod.mk.inj (Option.some.inj hp)
      have hrun := h.ascending _ (Multiset.mem_cons_self _ _)
      refine ⟨?_, h.replaceTop (by simp) (List.pairwise_cons.mp hrun).2, fun y hy => h.head_le hy⟩
      rw [elements, elements, runs_replaceTop (by simp), runs, Multiset.cons_bind,
        Multiset.cons_bind, IndexRun.elements_cons, ← Multiset.cons_coe, Multiset.cons_add]
      rfl
    | nil =>
      cases hr : (node ⟨head, []⟩ left right).removeLast with
      | none => exact absurd (removeLast_eq_none_iff.mp hr) (by simp)
      | some found =>
        obtain ⟨last, rest⟩ := found
        rw [pop, hr] at hp
        obtain ⟨rfl, rfl⟩ := Prod.mk.inj (Option.some.inj hp)
        have hremoved := removeLast_spec h.leaning hr
        refine ⟨?_, ?_, fun y hy => h.head_le hy⟩
        · rw [elements, hremoved.runs, Multiset.cons_bind]
          obtain ⟨rfl, rfl, rfl, rfl⟩ | ⟨right', -, -, rfl⟩ | ⟨left', -, -, rfl⟩ :=
            removeLast_node h.leaning hr
          · rfl
          · rw [elements, runs_replaceTop (by simp), runs, Multiset.cons_bind, Multiset.cons_bind]
            exact Multiset.add_cons head _ _
          · rw [elements, runs_replaceTop (by simp), runs, Multiset.cons_bind, Multiset.cons_bind]
            exact Multiset.add_cons head _ _
        · have hrest := hremoved.valid h
          cases rest with
          | leaf => exact hrest
          | node top left' right' =>
            refine hrest.replaceTop (by simp) (h.ascending last ?_)
            rw [hremoved.runs]
            exact Multiset.mem_cons_self _ _

/-- **All elements come out in ascending order.** -/
theorem drain_spec :
    ∀ {count : Nat} {t : RunHeap}, t.Valid → t.elements.card = count →
      (drain count t : Multiset UInt64) = t.elements ∧ (drain count t).Pairwise (· ≤ ·)
  | 0, t, _, hcount => ⟨(Multiset.card_eq_zero.mp hcount).symm, .nil⟩
  | count + 1, t, h, hcount => by
    cases hp : t.pop with
    | none =>
      rw [pop_eq_none_iff.mp hp] at hcount
      simp [elements, runs] at hcount
    | some found =>
      obtain ⟨x, t'⟩ := found
      obtain ⟨helements, hvalid, hleast⟩ := pop_spec h hp
      rw [helements, Multiset.card_cons, Nat.succ_inj] at hcount
      obtain ⟨hdrained, hascending⟩ := drain_spec hvalid hcount
      rw [drain, hp]
      refine ⟨?_, List.pairwise_cons.mpr ⟨fun y hy => hleast y ?_, hascending⟩⟩
      · rw [← Multiset.cons_coe, hdrained, helements]
      · rw [helements, ← hdrained]
        exact Multiset.mem_cons_of_mem (Multiset.mem_coe.mpr hy)

end RunHeap

/-! ## 6. Merging -/

theorem elements_runsOf : ∀ lists : List (List UInt64),
    (runsOf lists).flatMap IndexRun.elements = lists.flatten
  | [] => rfl
  | [] :: rest => elements_runsOf rest
  | (head :: tail) :: rest => by
    rw [runsOf, List.flatMap_cons, elements_runsOf rest, List.flatten_cons]
    rfl

theorem elements_mem_of_mem_runsOf {run : IndexRun} :
    ∀ {lists : List (List UInt64)}, run ∈ runsOf lists → run.elements ∈ lists
  | [], h => absurd h List.not_mem_nil
  | [] :: rest, h => List.mem_cons_of_mem _ (elements_mem_of_mem_runsOf h)
  | (head :: tail) :: rest, h => by
    rcases List.mem_cons.mp h with rfl | h
    · exact List.mem_cons_self
    · exact List.mem_cons_of_mem _ (elements_mem_of_mem_runsOf h)

/-- **Ascending lists are merged into one**, which holds each of their elements as often as they
do together. -/
theorem mergeAll_spec {lists : List (List UInt64)} (h : ∀ l ∈ lists, l.Pairwise (· ≤ ·)) :
    (mergeAll lists).Perm lists.flatten ∧ (mergeAll lists).Pairwise (· ≤ ·) := by
  let tree := RunHeap.build (runsOf lists).toArray (runsOf lists).length 0
  have hruns : tree.runs = (runsOf lists : Multiset IndexRun) :=
    RunHeap.runs_build (runsOf lists).toArray
  have hvalid : tree.Valid :=
    RunHeap.valid_build fun run hrun => h _ (elements_mem_of_mem_runsOf hrun)
  have helements : tree.elements = (lists.flatten : Multiset UInt64) := by
    rw [RunHeap.elements, hruns, ← elements_runsOf]
    exact Multiset.coe_bind _ _
  obtain ⟨hdrained, hascending⟩ := RunHeap.drain_spec hvalid rfl
  rw [helements, Multiset.coe_card] at hdrained hascending
  exact ⟨Multiset.coe_eq_coe.mp hdrained, hascending⟩

end ShardedVector
