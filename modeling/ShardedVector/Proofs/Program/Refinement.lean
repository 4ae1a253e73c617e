/-
# Distributed programs refine serial ones

All ranks of a group go through the same steps, each with its own shares, while one process by
itself goes through them with whole vectors.  `Represents` says that the names stand for the same
vectors on both sides, with the entries in the same order and bit for bit the same; layouts and
backends may be different from vector to vector.

* `simulates_take`: a step keeps this so, whether it is local or moves entries between the ranks.
  The one exception is a step that the ranks reject since their layouts differ: it changes nothing
  on the ranks, and the one process leaves it out.
* `converses_takeAll`: by induction, all steps keep it so.
* `concludes_takeAll`: so it is under every interleaving for a program that begins with vectors of
  zeros, which `represents_begin` shows to be the same on both sides.
-/
import ShardedVector.Program.Exec
import ShardedVector.Proofs.Shard.Mirror
import ShardedVector.Rehearsal

namespace ShardedVector

/-! ## 1. Steps -/

/-- A change of every entry of a vector.  The values that are set or added are given for all
global indices, and each rank passes those of its own range. -/
inductive Change where
  | zero
  | setAll (x : Binary64)
  | abs
  | setLocal (values : UInt64 → Binary64)
  | addLocal (values : UInt64 → Binary64)

/-- The change as the rank with a range makes it. -/
def Change.edit (range : Span) : Change → LocalEdit
  | zero => .zero
  | setAll x => .setAll x
  | abs => .abs
  | setLocal values => .setLocal (range.indices.map values)
  | addLocal values => .addLocal (range.indices.map values)

/-- What all ranks do together in a program of vector arithmetic. -/
inductive Step where
  | change (v : String) (c : Change)
  | assign (v w : String)
  | axpy (v w : String) (a : Binary64)
  | combineAssign (v : String) (sign : Sign) (w : String)
  | numberAssign (v : String) (sign : Sign) (x : Binary64)
  | scalarAssign (v : String) (sign : Sign) (s : Scalar)
  | combine (v w : String) (sign : Sign) (u : String)
  | scalarRight (v w : String) (sign : Sign) (s : Scalar)
  | scalarLeft (v : String) (s : Scalar) (sign : LeftSign) (w : String)

namespace Workspace

/-- The range of the vector that a name stands for. -/
def rangeOf (ws : Workspace) (name : String) : Span :=
  match ws.shards.get? name with
  | some shard => shard.localRange
  | none => ⟨0, 0⟩

/-- The command that a step is in a workspace. -/
def commandOf (ws : Workspace) : Step → Command
  | .change v c => .edit v (c.edit (ws.rangeOf v))
  | .assign v w => .assign v w
  | .axpy v w a => .axpy v w a
  | .combineAssign v sign w => .combineAssign v sign w
  | .numberAssign v sign x => .numberAssign v sign x
  | .scalarAssign v sign s => .scalarAssign v sign s
  | .combine v w sign u => .combine v w sign u
  | .scalarRight v w sign s => .scalarRight v w sign s
  | .scalarLeft v s sign w => .scalarLeft v s sign w

/-- Takes a step. -/
def take (ws : Workspace) (step : Step) : Outcome := ws.exec (ws.commandOf step)

/-- Takes steps one after the other; the workspace and the answer after each of them. -/
def takeAll (ws : Workspace) : List Step → Routine (List (Workspace × Answer))
  | [] => .finish []
  | step :: rest => do
    let after ← ws.take step
    let later ← takeAll after.1 rest
    return after :: later

/-- The workspace and the answer after an attempt at a vector to keep. -/
def kept (ws : Workspace) (name : String) : Except Error Shard → Workspace × Answer
  | .ok shard => ws.keep name shard
  | .error e => (ws, .refused e)

theorem keepAttempt_eq_bind (ws : Workspace) (name : String) (attempt : Attempt Shard) :
    ws.keepAttempt name attempt = attempt.outcome >>= fun o => .finish (ws.kept name o) := by
  rw [keepAttempt]
  congr 1
  funext o
  cases o <;> rfl

end Workspace

/-- Whether an answer rejects a command since layouts differ. -/
def Answer.rejectsLayout : Answer → Bool
  | .refused (.incompatibleLayout _) => true
  | _ => false

/-- One process by itself takes the steps, except for those whose answer from the ranks rejects
them since layouts differ; the workspace and the answer after each of them. -/
def Workspace.takeAlone (ws : Workspace) : List (Step × Answer) → List (Workspace × Answer)
  | [] => []
  | (step, answer) :: rest =>
    let after := if answer.rejectsLayout then (ws, answer) else (ws.take step).runAlone.value
    after :: takeAlone after.1 rest

/-! ## 2. Workspaces that stand for the same vectors -/

/-- What a name stands for on the ranks and on the one process: nothing, or the same vector. -/
inductive Corresponds (size : Nat) (v : Nat → Option Shard) (s : Option Shard) : Prop
  | absent (hv : ∀ r < size, v r = none) (hs : s = none)
  | present (offsets : List UInt64) (shares : Nat → Shard) (mirror : Shard)
      (hv : ∀ r < size, v r = some (shares r)) (hs : s = some mirror)
      (h : Shard.Mirrors size offsets shares mirror)

/-- The workspaces of the ranks stand for the vectors of one process. -/
def Represents (size : Nat) (ws : Nat → Workspace) (serial : Workspace) : Prop :=
  ∀ name, Corresponds size (fun r => (ws r).shards.get? name) (serial.shards.get? name)

theorem Represents.set {size : Nat} {ws : Nat → Workspace} {serial : Workspace}
    (h : Represents size ws serial) (name : String) {offsets : List UInt64} {v : Nat → Shard}
    {s : Shard} (hmirrors : Shard.Mirrors size offsets v s) :
    Represents size (fun r => ((ws r).keep name (v r)).1) (serial.keep name s).1 := by
  intro other
  simp only [Workspace.keep, Slots.get?_set]
  by_cases hname : name = other
  · simp only [if_pos hname]
    exact .present offsets v s (fun _ _ => rfl) rfl hmirrors
  · simp only [if_neg hname]
    exact h other

/-- Answers of the ranks and of the one process: the same one, or the parts of a vector and the
whole of it. -/
inductive AnswersAgree (size : Nat) (answers : Nat → Answer) (a : Answer) : Prop
  | same (h : ∀ r < size, answers r = a)
  | parts (entries : Nat → List Binary64) (h : ∀ r < size, answers r = .entries (entries r))
      (ha : a = .entries ((List.range size).flatMap entries))

/-- A step of the ranks beside the same step of the one process: either the ranks reject it since
layouts differ and change nothing, or both sides come to the same. -/
def Simulates (group size : Nat) (serial : Workspace) (taken : Nat → Workspace.Outcome)
    (alone : Workspace.Outcome) : Prop :=
  ∃ (after : Nat → Workspace) (answers : Nat → Answer),
    Converses group size taken (fun r => (after r, answers r)) ∧
    ((∀ r < size, (answers r).rejectsLayout = true) ∧ Represents size after serial ∨
      ∃ (serial' : Workspace) (a : Answer), alone = .finish (serial', a) ∧
        (∀ r < size, (answers r).rejectsLayout = false) ∧ AnswersAgree size answers a ∧
        Represents size after serial')

theorem Simulates.of_eq {group size : Nat} {serial : Workspace}
    {taken taken' : Nat → Workspace.Outcome} {alone alone' : Workspace.Outcome}
    (h : Simulates group size serial taken alone) (hr : ∀ r < size, taken' r = taken r)
    (halone : alone' = alone) : Simulates group size serial taken' alone' := by
  obtain ⟨after, answers, hconv, hcases⟩ := h
  rw [halone]
  exact ⟨after, answers, hconv.of_eq hr, hcases⟩

section Simulation

variable {group size : Nat} {ws : Nat → Workspace} {serial : Workspace}
  (h : Represents size ws serial)

include h

/-- A step that goes on with what a name stands for. -/
theorem simulates_withShard (name : String) {next : Nat → Shard → Workspace.Outcome}
    {nextAlone : Shard → Workspace.Outcome}
    (hnext : ∀ offsets v s, (∀ r < size, (ws r).shards.get? name = some (v r)) →
      serial.shards.get? name = some s → Shard.Mirrors size offsets v s →
      Simulates group size serial (fun r => next r (v r)) (nextAlone s)) :
    Simulates group size serial (fun r => (ws r).withShard name (next r))
      (serial.withShard name nextAlone) := by
  rcases h name with ⟨hv, hs⟩ | ⟨offsets, v, s, hv, hs, hmirrors⟩
  · refine ⟨ws, fun _ => .noSlot name, (Converses.finish group size _).of_eq fun r hr => ?_,
      .inr ⟨serial, .noSlot name, ?_, fun _ _ => rfl, .same fun _ _ => rfl, h⟩⟩
    · rw [Workspace.withShard, Workspace.withSlot, hv r hr]
      rfl
    · rw [Workspace.withShard, Workspace.withSlot, hs]
      rfl
  · obtain ⟨after, answers, hconv, hcases⟩ := hnext offsets v s hv hs hmirrors
    refine ⟨after, answers, hconv.of_eq fun r hr => ?_, ?_⟩
    · rw [Workspace.withShard, Workspace.withSlot, hv r hr]
    · rw [Workspace.withShard, Workspace.withSlot, hs]
      exact hcases

/-- A step that keeps a vector under a name, unless it is refused. -/
theorem simulates_keepAttempt (name : String) {attempt : Nat → Attempt Shard}
    {attemptAlone : Attempt Shard} {f : Nat → Except Error Shard} {g : Except Error Shard}
    (hconv : Converses group size (fun r => (attempt r).outcome) f)
    (halone : attemptAlone.outcome = .finish g)
    (hcases : (∃ op, ∀ r < size, f r = .error (.incompatibleLayout op)) ∨
      Shard.Alike size f g) :
    Simulates group size serial (fun r => (ws r).keepAttempt name (attempt r))
      (serial.keepAttempt name attemptAlone) := by
  have hkept : Converses group size (fun r => (ws r).keepAttempt name (attempt r))
      (fun r => (ws r).kept name (f r)) := by
    simp only [Workspace.keepAttempt_eq_bind]
    exact hconv.bind (Converses.finish group size _)
  have hkeptAlone : serial.keepAttempt name attemptAlone = .finish (serial.kept name g) := by
    rw [Workspace.keepAttempt_eq_bind, halone]
    rfl
  rcases hcases with ⟨op, hf⟩ | ⟨e, he, hf, hg⟩ | ⟨offsets, v, s, hf, hg, hmirrors⟩
  · refine ⟨ws, fun _ => .refused (.incompatibleLayout op), hkept.congr (fun _ _ => rfl)
      fun r hr => ?_, .inl ⟨fun _ _ => rfl, h⟩⟩
    rw [hf r hr]
    rfl
  · refine ⟨ws, fun _ => .refused e, hkept.congr (fun _ _ => rfl) fun r hr => ?_,
      .inr ⟨serial, .refused e, ?_, fun _ _ => ?_, .same fun _ _ => rfl, h⟩⟩
    · rw [hf r hr]
      rfl
    · rw [hkeptAlone, hg]
      rfl
    · cases e with
      | incompatibleLayout op => exact absurd rfl (he op)
      | _ => rfl
  · refine ⟨fun r => ((ws r).keep name (v r)).1, fun r => .entries (v r).toList,
      hkept.congr (fun _ _ => rfl) fun r hr => ?_,
      .inr ⟨(serial.keep name s).1, .entries s.toList, ?_, fun _ _ => rfl, ?_, h.set name hmirrors⟩⟩
    · rw [hf r hr]
      rfl
    · rw [hkeptAlone, hg]
      rfl
    · exact .parts (fun r => (v r).toList) (fun _ _ => rfl)
        (congrArg Answer.entries hmirrors.entries)

/-- The same without a conversation. -/
theorem simulates_keepExcept (name : String) {f : Nat → Except Error Shard}
    {g : Except Error Shard}
    (hcases : (∃ op, ∀ r < size, f r = .error (.incompatibleLayout op)) ∨
      Shard.Alike size f g) :
    Simulates group size serial (fun r => (ws r).keepExcept name (f r))
      (serial.keepExcept name g) :=
  simulates_keepAttempt h name (Converses.finish group size f) rfl hcases

/-- A step that keeps a vector under a name and cannot be refused. -/
theorem simulates_keep (name : String) {offsets : List UInt64} {v : Nat → Shard} {s : Shard}
    (hmirrors : Shard.Mirrors size offsets v s) :
    Simulates group size serial (fun r => .finish ((ws r).keep name (v r)))
      (.finish (serial.keep name s)) :=
  simulates_keepExcept h name (f := fun r => .ok (v r)) (g := .ok s)
    (.inr (.made offsets v s (fun _ _ => rfl) rfl hmirrors))

end Simulation

/-! ## 3. One step -/

/-- A change is never refused and is the same one on both sides. -/
theorem exists_editLocal {size : Nat} {offsets : List UInt64} {v : Nat → Shard} {s : Shard}
    (h : Shard.Mirrors size offsets v s) (c : Change) :
    ∃ (v' : Nat → Shard) (s' : Shard),
      (∀ r < size, (v r).editLocal (c.edit (v r).localRange) = (v' r, .ok ())) ∧
      s.editLocal (c.edit s.localRange) = (s', .ok ()) ∧ Shard.Mirrors size offsets v' s' := by
  -- the operands of the ranks, put together, are those of the one process
  have hparts : ∀ values : UInt64 → Binary64,
      ((List.range size).flatMap fun r => (v r).localRange.indices.map values) =
        s.localRange.indices.map values := by
    intro values
    rw [Shard.flatMap_map_range, h.localRange_eq, ← h.spread.tiles.flatMap_indices]
    refine congrArg (List.map values) (List.flatMap_congr fun r hr => ?_)
    rw [h.spread.localRange_eq (List.mem_range.mp hr)]
  have hlen : ∀ values : UInt64 → Binary64, ∀ r < size,
      (v r).toList.length = ((v r).localRange.indices.map values).length := by
    intro values r hr
    rw [h.spread.length r hr, h.spread.localRange_eq hr]
    simp [Span.indices]
  cases c with
  | zero =>
    refine ⟨_, _, fun r _ => ?_, ?_, h.update fun _ => .zero⟩ <;>
      rw [Shard.editLocal, Change.edit, LocalEdit.toEdit, Storage.edit_zero] <;> rfl
  | setAll x =>
    refine ⟨_, _, fun r _ => ?_, ?_, h.update fun _ => x⟩ <;>
      rw [Shard.editLocal, Change.edit, LocalEdit.toEdit, Storage.edit_setAll] <;> rfl
  | abs => exact ⟨_, _, fun _ _ => rfl, rfl, h.update Binary64.abs⟩
  | setLocal values =>
    obtain ⟨storage, t, hok, hokt, hmirrors, -⟩ := h.zip .setLocal (fun _ x => x) (hlen values)
    rw [hparts values] at hokt
    refine ⟨_, _, fun r hr => ?_, ?_, hmirrors⟩
    · rw [Shard.editLocal, Change.edit, LocalEdit.toEdit, Storage.edit_setLocal, hok r hr]
      rfl
    · rw [Shard.editLocal, Change.edit, LocalEdit.toEdit, Storage.edit_setLocal, hokt]
      rfl
  | addLocal values =>
    obtain ⟨storage, t, hok, hokt, hmirrors, -⟩ :=
      h.zip .addLocal (fun y x => y + x) (hlen values)
    rw [hparts values] at hokt
    refine ⟨_, _, fun r hr => ?_, ?_, hmirrors⟩
    · rw [Shard.editLocal, Change.edit, LocalEdit.toEdit, Storage.edit, Storage.addLocal, hok r hr]
      rfl
    · rw [Shard.editLocal, Change.edit, LocalEdit.toEdit, Storage.edit, Storage.addLocal, hokt]
      rfl

section Steps

variable {size : Nat} {ws : Nat → Workspace} {serial : Workspace}

/-- **Every step is simulated.**  By cases on the step: each goes on with what its names stand
for, and what comes of that is alike on both sides. -/
theorem simulates_take (group : Nat) (h : Represents size ws serial) (step : Step) :
    Simulates group size serial (fun r => (ws r).take step) (serial.take step) := by
  cases step with
  | change name c =>
    refine simulates_withShard h name fun offsets v s hv hs hmirrors => ?_
    obtain ⟨v', s', hedit, heditAlone, hmirrors'⟩ := exists_editLocal hmirrors c
    have hrange : ∀ r < size, (ws r).rangeOf name = (v r).localRange := by
      intro r hr
      rw [Workspace.rangeOf, hv r hr]
    have hrangeAlone : serial.rangeOf name = s.localRange := by
      rw [Workspace.rangeOf, hs]
    refine (simulates_keep h name hmirrors').of_eq (fun r hr => ?_) ?_
    · rw [hrange r hr, hedit r hr]
    · rw [hrangeAlone, heditAlone]
  | assign v w =>
    refine simulates_withShard h v fun a v s _ _ hv => simulates_withShard h w
      fun b w t _ _ hw => simulates_keepExcept h _ ?_
    simp only [Shard.assign_eq_zipAssign]
    exact (Shard.zipAssign_alike hv hw _ _ _).imp_left fun hf => ⟨_, hf⟩
  | axpy v w c =>
    refine simulates_withShard h v fun a v s _ _ hv => simulates_withShard h w
      fun b w t _ _ hw => simulates_keepExcept h _ ?_
    simp only [Shard.axpy_eq_zipAssign]
    exact (Shard.zipAssign_alike hv hw _ _ _).imp_left fun hf => ⟨_, hf⟩
  | combineAssign v sign w =>
    refine simulates_withShard h v fun a v s _ _ hv => simulates_withShard h w
      fun b w t _ _ hw => simulates_keepExcept h _ ?_
    simp only [Shard.combineAssign_eq_zipAssign]
    exact (Shard.zipAssign_alike hv hw _ _ _).imp_left fun hf => ⟨_, hf⟩
  | numberAssign v sign x =>
    exact simulates_withShard h v fun a v s _ _ hv => simulates_keep h _
      (hv.combineNumberAssign sign x)
  | scalarAssign v sign c =>
    exact simulates_withShard h v fun a v s _ _ hv => simulates_keepExcept h _
      (.inr (Shard.combineScalarAssign_alike hv sign c))
  | combine v w sign u =>
    refine simulates_withShard h w fun a w s _ _ hw => simulates_withShard h u
      fun b u t _ _ hu => ?_
    obtain ⟨f, g, hconv, halone, halike⟩ := Shard.converses_combine hw hu group sign
    exact simulates_keepAttempt h v hconv halone (.inr halike)
  | scalarRight v w sign c =>
    exact simulates_withShard h w fun a w s _ _ hw => simulates_keepExcept h v
      (.inr (Shard.combineScalar_alike hw sign c))
  | scalarLeft v c sign w =>
    exact simulates_withShard h w fun a w s _ _ hw => simulates_keepExcept h v
      (.inr (Shard.combineScalarLeft_alike hw sign c))

/-! ## 4. All steps -/

/-- What the ranks keep of a run beside the run of one process.  After every step the workspaces
stand for the same vectors; either all ranks rejected it since layouts differ, or none did and
the answers agree. -/
structure Follows (size : Nat) (serial : Workspace) (steps : List Step)
    (histories : Nat → List (Workspace × Answer)) : Prop where
  length : ∀ r < size, (histories r).length = steps.length
  agree : ∀ k < steps.length, ∃ (after : Nat → Workspace) (answers : Nat → Answer)
    (serial' : Workspace) (a : Answer),
    (∀ r < size, (histories r)[k]? = some (after r, answers r)) ∧
    (serial.takeAlone (steps.zip ((histories 0).map Prod.snd)))[k]? = some (serial', a) ∧
    Represents size after serial' ∧
    ((∀ r < size, (answers r).rejectsLayout = true) ∨
      (∀ r < size, (answers r).rejectsLayout = false) ∧ AnswersAgree size answers a)

/-- The workspaces after a step stand for the same vectors, if the one process leaves the step
out where the ranks reject it. -/
theorem exists_after (group : Nat) (hsize : 0 < size) (h : Represents size ws serial)
    (step : Step) :
    ∃ (after : Nat → Workspace) (answers : Nat → Answer) (alone : Workspace × Answer),
      Converses group size (fun r => (ws r).take step) (fun r => (after r, answers r)) ∧
      (if (answers 0).rejectsLayout then (serial, answers 0)
        else (serial.take step).runAlone.value) = alone ∧
      Represents size after alone.1 ∧
      ((∀ r < size, (answers r).rejectsLayout = true) ∨
        (∀ r < size, (answers r).rejectsLayout = false) ∧ AnswersAgree size answers alone.2) := by
  obtain ⟨after, answers, hconv, hcases⟩ := simulates_take group h step
  rcases hcases with ⟨hreject, hafter⟩ | ⟨serial', a, halone, haccept, hagree, hafter⟩
  · exact ⟨after, answers, (serial, answers 0), hconv, if_pos (hreject 0 hsize), hafter,
      .inl hreject⟩
  · refine ⟨after, answers, (serial', a), hconv, ?_, hafter, .inr ⟨haccept, hagree⟩⟩
    rw [if_neg (by simp [haccept 0 hsize]), halone]
    rfl

/-- **Every run is simulated.**  By induction on the steps: the workspaces after the first one
stand for the same vectors again. -/
theorem converses_takeAll (group : Nat) (hsize : 0 < size) (h : Represents size ws serial)
    (steps : List Step) :
    ∃ histories : Nat → List (Workspace × Answer),
      Converses group size (fun r => (ws r).takeAll steps) histories ∧
      Follows size serial steps histories := by
  induction steps generalizing ws serial with
  | nil =>
    exact ⟨fun _ => [], Converses.finish group size _, fun _ _ => rfl,
      fun k hk => absurd hk (Nat.not_lt_zero k)⟩
  | cons step rest ih =>
    obtain ⟨after, answers, ⟨serial', a⟩, hconv, halone, hafter, hanswers⟩ :=
      exists_after group hsize h step
    obtain ⟨later, hlater, hfollows⟩ := ih hafter
    have hserial : serial.takeAlone ((step :: rest).zip
        (((after 0, answers 0) :: later 0).map Prod.snd)) =
        (serial', a) :: serial'.takeAlone (rest.zip ((later 0).map Prod.snd)) := by
      rw [List.map_cons, List.zip_cons_cons, Workspace.takeAlone]
      simp only [halone]
    refine ⟨fun r => (after r, answers r) :: later r, ?_, fun r hr => ?_, fun k hk => ?_⟩
    · have hrest : Converses group size
          (fun r => (after r).takeAll rest >>= fun xs => .finish ((after r, answers r) :: xs))
          (fun r => (after r, answers r) :: later r) :=
        hlater.bind (f := fun r xs => .finish ((after r, answers r) :: xs))
          (Converses.finish group size _)
      exact hconv.bind (f := fun r x => x.1.takeAll rest >>= fun xs => .finish (x :: xs)) hrest
    · rw [List.length_cons, List.length_cons, hfollows.length r hr]
    · rw [hserial]
      cases k with
      | zero => exact ⟨after, answers, serial', a, fun _ _ => rfl, rfl, hafter, hanswers⟩
      | succ k => exact hfollows.agree k (Nat.lt_of_succ_lt_succ hk)

end Steps

/-! ## 5. From the beginning -/

/-- A vector of zeros that a program begins with, with its layout and its backend on the ranks. -/
structure Declared where
  name : String
  offsets : List UInt64
  backend : Backend

/-- The layout is one for the group, even or explicit, and all entries can be moved in one
message. -/
structure Declared.Valid (size : Nat) (d : Declared) : Prop where
  tiles : Partition.Tiles size d.offsets
  small : (d.offsets.getD size 0).toNat < 2 ^ 29

/-- The share of a rank. -/
def Declared.share (size r : Nat) (d : Declared) : Shard :=
  (Shard.unbound (.ofRank r size) d.backend).bind ⟨r, d.offsets⟩

/-- The same vector on one process, with dense storage. -/
def Declared.whole (size : Nat) (d : Declared) : Shard :=
  .ofSize .alone (d.offsets.getD size 0) .dense

/-- Keeps what is made of every declared vector. -/
def Workspace.keepAll (ws : Workspace) (make : Declared → Shard) (vectors : List Declared) :
    Workspace :=
  vectors.foldl (fun ws d => (ws.keep d.name (make d)).1) ws

/-- What a rank begins with. -/
def Workspace.ofRank (r size : Nat) (vectors : List Declared) : Workspace :=
  (empty (.ofRank r size)).keepAll (Declared.share size r) vectors

/-- What a process without a group begins with. -/
def Workspace.ofWhole (size : Nat) (vectors : List Declared) : Workspace :=
  (empty .alone).keepAll (Declared.whole size) vectors

theorem represents_empty (size : Nat) :
    Represents size (fun r => .empty (.ofRank r size)) (.empty .alone) :=
  fun _ => .absent (fun _ _ => rfl) rfl

theorem Represents.keepAll {size : Nat} {vectors : List Declared}
    (hvalid : ∀ d ∈ vectors, d.Valid size) {ws : Nat → Workspace} {serial : Workspace}
    (h : Represents size ws serial) :
    Represents size (fun r => (ws r).keepAll (Declared.share size r) vectors)
      (serial.keepAll (Declared.whole size) vectors) := by
  induction vectors generalizing ws serial with
  | nil => exact h
  | cons d rest ih =>
    obtain ⟨hd, hrest⟩ := List.forall_mem_cons.mp hvalid
    have hmirrors : Shard.Mirrors size d.offsets (fun r => d.share size r) (d.whole size) :=
      Shard.mirrors_bind hd.tiles (fun _ _ => rfl) hd.small .dense
    exact ih hrest (h.set d.name hmirrors)

/-- What the ranks begin with stands for what the one process begins with. -/
theorem represents_begin {size : Nat} {vectors : List Declared}
    (hvalid : ∀ d ∈ vectors, d.Valid size) :
    Represents size (fun r => .ofRank r size vectors) (.ofWhole size vectors) :=
  (represents_empty size).keepAll hvalid

/-- **Distributed arithmetic refines serial arithmetic.**  Let a program begin with vectors of
zeros, laid out in any way and kept by any backends.  Under every interleaving the ranks get
through any steps, and after each of them their workspaces stand for the vectors of one process
with dense storage, which leaves out what the ranks reject since layouts differ.  Out of place
nothing is rejected for that: operands of the same size are combined entry by entry, and the
result is laid out and kept like the left one. -/
theorem concludes_takeAll (group : Nat) {size : Nat} (hsize : 0 < size)
    {vectors : List Declared} (hvalid : ∀ d ∈ vectors, d.Valid size) :
    (∀ steps : List Step, ∃ histories : Nat → List (Workspace × Answer),
      (Ensemble.ofGroup group size fun r =>
        (Workspace.ofRank r size vectors).takeAll steps).Concludes
        ((List.range size).map histories) ∧
      Follows size (.ofWhole size vectors) steps histories) ∧
    ∀ (sign : Sign) (a b : List UInt64) (v w : Nat → Shard),
      Shard.Spread size a v → Shard.Spread size b w → a.getD size 0 = b.getD size 0 →
      (a.getD size 0).toNat < 2 ^ 29 →
      ∃ out : Nat → Shard,
        (Ensemble.ofGroup group size fun r => ((v r).combine sign (w r)).outcome).Concludes
          ((List.range size).map fun r => .ok (out r)) ∧
        Shard.Spread size a out ∧ (∀ r < size, (out r).backend = (v r).backend) ∧
        Shard.joined size out =
          List.zipWith sign.onEntries (Shard.joined size v) (Shard.joined size w) := by
  constructor
  · intro steps
    obtain ⟨histories, hconv, hfollows⟩ :=
      converses_takeAll group hsize (represents_begin hvalid) steps
    exact ⟨histories, hconv.concludes, hfollows⟩
  · intro sign a b v w hv hw heq hsmall
    obtain ⟨out, u, hconv, -, hmirrors, hbackend, hentries⟩ := Shard.converses_combine_of_size_eq
      (hv.mirrored hsmall) (hw.mirrored (heq ▸ hsmall)) group heq sign
    exact ⟨out, hconv.concludes, hmirrors.spread, hbackend, hentries⟩

/-- Two ranks with two vectors, which have other layouts and other backends: a program that adds
them in place and out of place, and a sum out of place. -/
theorem concludes_takeAll_two :
    let vectors : List Declared := [⟨"v", [0, 1, 3], .tpetra⟩, ⟨"w", [0, 2, 3], .petsc⟩]
    let steps : List Step := [.change "v" (.setLocal fun i => if i = 1 then .one else .zero),
      .change "w" (.setAll .one), .combineAssign "v" .plus "w", .combine "u" "v" .plus "w"]
    let v : Nat → Shard := fun r => ⟨.ofRank r 2, some ⟨r, [0, 1, 3]⟩,
      [.tpetra ⟨[[.one]], 1⟩, .petsc ⟨[.negativeOne, .zero], 7, .fresh 0⟩].getD r (.ofList []),
      true⟩
    let w : Nat → Shard := fun r => ⟨.ofRank r 2, some ⟨r, [0, 2, 3]⟩,
      .ofList ([[.one, .one], [.one]].getD r []), true⟩
    (0 < 2 ∧ ∀ d ∈ vectors, d.Valid 2) ∧
    (∃ histories : Nat → List (Workspace × Answer),
      (Ensemble.ofGroup 1 2 fun r => (Workspace.ofRank r 2 vectors).takeAll steps).Concludes
        [histories 0, histories 1] ∧
      Follows 2 (.ofWhole 2 vectors) steps histories) ∧
    ∃ out : Nat → Shard,
      (Ensemble.ofGroup 1 2 fun r => ((v r).combine .plus (w r)).outcome).Concludes
        [.ok (out 0), .ok (out 1)] ∧
      Shard.joined 2 out = [⟨0x4000000000000000⟩, .zero, .one] := by
  intro vectors steps v w
  have hvalid : ∀ d ∈ vectors, d.Valid 2 := by
    intro d hd
    rcases List.mem_pair.mp hd with rfl | rfl
    · exact ⟨⟨rfl, rfl, by decide⟩, by decide⟩
    · exact ⟨⟨rfl, rfl, by decide⟩, by decide⟩
  have hv : Shard.Spread 2 [0, 1, 3] v := {
    tiles := ⟨rfl, rfl, by decide⟩
    seat := fun _ _ => rfl
    layout := fun _ _ => rfl
    sound := by
      intro r hr
      rcases (show r = 0 ∨ r = 1 by omega) with rfl | rfl
      · exact ⟨show 1 ≤ Blocked.blockLength by decide, rfl⟩
      · trivial
    length := by decide }
  have hw : Shard.Spread 2 [0, 2, 3] w := {
    tiles := ⟨rfl, rfl, by decide⟩
    seat := fun _ _ => rfl
    layout := fun _ _ => rfl
    sound := fun _ _ => Storage.sound_ofList _
    length := by decide }
  obtain ⟨hruns, hcombines⟩ := concludes_takeAll 1 (show 0 < 2 by decide) hvalid
  obtain ⟨out, hout, -, -, hentries⟩ := hcombines .plus _ _ v w hv hw rfl (by decide)
  refine ⟨⟨by decide, hvalid⟩, hruns steps, out, hout, ?_⟩
  rw [hentries]
  decide

end ShardedVector
