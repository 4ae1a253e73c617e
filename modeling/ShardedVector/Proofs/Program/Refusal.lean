/-
# Refused commands

A program names its vectors, and one vector may be the operand of any command.  So what a refused
command leaves is a question about all slots of a workspace, not only about the one that the
command was to change.

* `Sound` says of a workspace that the parts of all its vectors agree.
* `Keeps` is what every command does to a sound workspace, whatever the other ranks send: it leaves
  a sound one, and one with the same vectors if it is refused; a refusal by a check costs no letter.
* `keeps_exec` goes through the commands, and `sound_execAll` through programs.

`refused_leaves_everything` puts this together with what is true of one request and of a step of a
whole group.
-/
import ShardedVector.Program.Exec
import ShardedVector.Proofs.Shard.Refusal

namespace ShardedVector

namespace Workspace

/-! ## 1. Sound workspaces -/

/-- A workspace whose vectors agree in their parts. -/
structure Sound (ws : Workspace) : Prop where
  seat : ws.seat.Valid
  shards : ∀ name v, ws.shards.get? name = some v → v.WellFormed
  locals : ∀ name v, ws.locals.get? name = some v → v.WellFormed
  factories : ∀ name f, ws.factories.get? name = some f → f.seat.Valid

theorem sound_empty {seat : Seat} (hseat : seat.Valid) : (empty seat).Sound :=
  ⟨hseat, nofun, nofun, nofun⟩

/-- What holds of all values in slots holds of them after one more is kept. -/
theorem forall_get?_set {α : Type} {P : α → Prop} {slots : Slots α}
    (h : ∀ name x, slots.get? name = some x → P x) (key : String) {value : α} (hvalue : P value) :
    ∀ name x, (slots.set key value).get? name = some x → P x := by
  intro name x hx
  rw [Slots.get?_set] at hx
  split at hx
  · obtain rfl := Option.some.inj hx
    exact hvalue
  · exact h name x hx

/-- The same vectors under the same names, and everything else as it was. -/
structure Unchanged (ws ws' : Workspace) : Prop where
  seat : ws'.seat = ws.seat
  shards : ∀ name, Option.Rel Shard.Unchanged (ws.shards.get? name) (ws'.shards.get? name)
  locals : ws'.locals = ws.locals
  partitions : ws'.partitions = ws.partitions
  factories : ws'.factories = ws.factories

theorem Unchanged.refl (ws : Workspace) : ws.Unchanged ws := by
  refine ⟨rfl, fun name => ?_, rfl, rfl, rfl⟩
  cases ws.shards.get? name with
  | none => exact .none
  | some v => exact .some (.refl v)

variable {ws : Workspace}

/-- An unchanged vector in the place of the one that was there. -/
theorem unchanged_set {name : String} {v v' : Shard} (hv : ws.shards.get? name = some v)
    (h : v.Unchanged v') : ws.Unchanged { ws with shards := ws.shards.set name v' } := by
  refine ⟨rfl, fun other => ?_, rfl, rfl, rfl⟩
  rw [Slots.get?_set]
  split
  · next hname =>
    subst hname
    rw [hv]
    exact .some h
  · exact (Unchanged.refl ws).shards other

namespace Sound

variable (h : ws.Sound)

include h

theorem set {v : Shard} (hv : v.WellFormed) (name : String) :
    Sound { ws with shards := ws.shards.set name v } :=
  ⟨h.seat, forall_get?_set h.shards name hv, h.locals, h.factories⟩

theorem setLocal {v : Shard} (hv : v.WellFormed) (name : String) :
    Sound { ws with locals := ws.locals.set name v } :=
  ⟨h.seat, h.shards, forall_get?_set h.locals name hv, h.factories⟩

theorem setFactory {f : Factory} (hf : f.seat.Valid) (name : String) :
    Sound { ws with factories := ws.factories.set name f } :=
  ⟨h.seat, h.shards, h.locals, forall_get?_set h.factories name hf⟩

theorem setPartition (p : Partition) (name : String) :
    Sound { ws with partitions := ws.partitions.set name p } :=
  ⟨h.seat, h.shards, h.locals, h.factories⟩

theorem erase (name : String) : Sound { ws with shards := ws.shards.erase name } := by
  refine ⟨h.seat, fun other v hv => ?_, h.locals, h.factories⟩
  dsimp only at hv
  rw [Slots.get?_erase] at hv
  split at hv
  · cases hv
  · exact h.shards other v hv

end Sound

/-! ## 2. What outcomes keep -/

/-- However an outcome ends, it leaves a sound workspace; and if it is refused, the same vectors,
with no letter sent for a check. -/
def Keeps (ws : Workspace) (outcome : Outcome) : Prop :=
  ∀ (sent : List Letter) (ws' : Workspace) (a : Answer), outcome.Ends sent (ws', a) →
    ws'.Sound ∧ ∀ e, a = .refused e → ws.Unchanged ws' ∧ (e.ofCheck → sent = [])

theorem keeps_finish {x : Workspace × Answer} (hx : x.1.Sound)
    (hrefused : ∀ e, x.2 = .refused e → ws.Unchanged x.1) : ws.Keeps (.finish x) := by
  intro sent ws' a hends
  cases hends
  exact ⟨hx, fun e he => ⟨hrefused e he, fun _ => rfl⟩⟩

/-- What is made of an attempt: a sound workspace of a value, and the answer to a refusal. -/
theorem keeps_bind {α : Type} {P : α → Prop} {attempt : Attempt α} (hattempt : attempt.Guarded P)
    {after : Except Error α → Outcome} (made : α → Workspace × Answer) {left : Workspace}
    (hok : ∀ x, after (.ok x) = .finish (made x))
    (herror : ∀ e, after (.error e) = .finish (left, .refused e))
    (hmade : ∀ x, P x → (made x).1.Sound ∧ ∀ e, (made x).2 ≠ .refused e)
    (hleft : left.Sound) (hunchanged : ws.Unchanged left) :
    ws.Keeps (attempt.outcome >>= after) := by
  intro sent ws' a hends
  obtain ⟨outcome, first, second, hcame, hafter, rfl⟩ := hends.of_bind
  obtain ⟨hspec, hchecks⟩ := hattempt.of_ends hcame
  cases outcome with
  | ok x =>
    obtain ⟨hsound, hanswer⟩ := hmade x (hspec x rfl)
    rw [hok x] at hafter
    obtain ⟨rfl, hvalue⟩ := hafter.of_finish
    rw [hvalue] at hsound hanswer
    exact ⟨hsound, fun e he => absurd he (hanswer e)⟩
  | error e =>
    rw [herror e] at hafter
    obtain ⟨rfl, hvalue⟩ := hafter.of_finish
    obtain ⟨rfl, rfl⟩ := Prod.mk.inj hvalue
    refine ⟨hleft, fun e' he' => ⟨hunchanged, ?_⟩⟩
    obtain rfl := Answer.refused.inj he'
    rw [List.append_nil]
    exact hchecks e rfl

section Outcomes

variable (h : ws.Sound)

include h

theorem keeps_answer (a : Answer) : ws.Keeps (ws.answer a) :=
  keeps_finish h fun _ _ => .refl ws

theorem keeps_withSlot {α : Type} {slots : Slots α} {name : String} {next : α → Outcome}
    (hnext : ∀ value, slots.get? name = some value → ws.Keeps (next value)) :
    ws.Keeps (ws.withSlot slots name next) := by
  rw [withSlot]
  split
  · next value hvalue => exact hnext value hvalue
  · exact keeps_answer h _

theorem keeps_withShard {name : String} {next : Shard → Outcome}
    (hnext : ∀ v, v.WellFormed → ws.Keeps (next v)) : ws.Keeps (ws.withShard name next) :=
  keeps_withSlot h fun v hv => hnext v (h.shards name v hv)

theorem keeps_keep {v : Shard} (hv : v.WellFormed) (name : String) :
    ws.Keeps (.finish (ws.keep name v)) :=
  keeps_finish (h.set hv name) nofun

theorem keeps_keepAttempt {attempt : Attempt Shard} (hattempt : attempt.Guarded Shard.WellFormed)
    (name : String) : ws.Keeps (ws.keepAttempt name attempt) :=
  keeps_bind hattempt (ws.keep name) (fun _ => rfl) (fun _ => rfl)
    (fun _ hv => ⟨h.set hv name, nofun⟩) h (.refl ws)

theorem keeps_keepExcept {outcome : Except Error Shard}
    (houtcome : ∀ v, outcome = .ok v → v.WellFormed) (name : String) :
    ws.Keeps (ws.keepExcept name outcome) :=
  keeps_keepAttempt h (Attempt.guarded_ofExcept houtcome) name

/-- An answer after a vector was put into the place of an unchanged one. -/
theorem keeps_answerAttempt_of_unchanged {α : Type} {P : α → Prop} {attempt : Attempt α}
    {form : α → Answer} (hattempt : attempt.Guarded P) (hform : ∀ x e, form x ≠ .refused e)
    {before : Workspace} (hbefore : before.Unchanged ws) :
    before.Keeps (ws.answerAttempt form attempt) :=
  keeps_bind hattempt (fun x => (ws, form x)) (fun _ => rfl) (fun _ => rfl)
    (fun x _ => ⟨h, hform x⟩) h hbefore

theorem keeps_answerAttempt {α : Type} {P : α → Prop} {attempt : Attempt α} {form : α → Answer}
    (hattempt : attempt.Guarded P) (hform : ∀ x e, form x ≠ .refused e) :
    ws.Keeps (ws.answerAttempt form attempt) :=
  keeps_answerAttempt_of_unchanged h hattempt hform (.refl ws)

end Outcomes

end Workspace

/-! ## 3. Commands -/

/-- A list of indices is held in memory, so a word counts it. -/
def Command.Fits : Command → Prop
  | .gatherIntoLocal _ _ indices | .gatherInto _ _ indices => indices.length < 2 ^ 64
  | _ => True

theorem Factory.wellFormed_create {f : Factory} (hseat : f.seat.Valid) : f.create.WellFormed :=
  (Shard.wellFormed_unbound hseat _).instrument _

theorem Factory.wellFormed_createOfSize {f : Factory} (hseat : f.seat.Valid) (n : UInt64) :
    (f.createOfSize n).WellFormed :=
  ((Shard.wellFormed_unbound hseat _).initSize n).instrument _

namespace Workspace

theorem wellFormed_makeLocalShard (factory : Factory) (n : Option UInt64)
    (fill : Option Binary64) : (makeLocalShard factory n fill).WellFormed := by
  have halone : (factory.on .alone).seat.Valid := ⟨Nat.zero_lt_one, show 1 < 2 ^ 64 by decide⟩
  have hempty := Factory.wellFormed_create halone
  have hsized := Factory.wellFormed_createOfSize halone
  cases n with
  | none =>
    cases fill with
    | none => exact hempty
    | some x => exact hempty.editLocal (.setAll x)
  | some n =>
    cases fill with
    | none => exact hsized n
    | some x => exact (hsized n).editLocal (.setAll x)

theorem guarded_allGatherRow (me : Seat) (tag : Tag) (row : Row) :
    (allGatherRow me tag row).Guarded fun _ => True := by
  cases row with
  | words items => exact (Collective.settles_allGatherRecords me tag items).guarded.map _
  | entries items => exact (Collective.settles_allGatherRecords me tag items).guarded.map _
  | spans items => exact (Collective.settles_allGatherRecords me tag items).guarded.map _

theorem guarded_gatherRowTo (me : Seat) (tag : Tag) (root : Nat) (row : Row) :
    (gatherRowTo me tag root row).Guarded fun _ => True := by
  cases row with
  | words items => exact (Collective.guarded_gatherRecordsTo me tag root items).map _
  | entries items => exact (Collective.guarded_gatherRecordsTo me tag root items).map _
  | spans items => exact (Collective.guarded_gatherRecordsTo me tag root items).map _

theorem guarded_allToAllRows (me : Seat) (tag : Tag) (rows : Rows) :
    (allToAllRows me tag rows).Guarded fun _ => True := by
  cases rows with
  | words rows => exact (Collective.guarded_allToAllRecords me tag rows).map _
  | entries rows => exact (Collective.guarded_allToAllRecords me tag rows).map _
  | spans rows => exact (Collective.guarded_allToAllRecords me tag rows).map _

section Exec

variable {ws : Workspace} (h : ws.Sound)

include h

/-- The vector of a slot is changed in its place; a refused change leaves it unchanged there. -/
theorem keeps_edit {name : String} (change : LocalEdit) :
    ws.Keeps (ws.exec (.edit name change)) := by
  refine keeps_withSlot h fun v hv => ?_
  have hwell := h.shards name v hv
  have hset := h.set (hwell.editLocal change) name
  have hunchanged : ∀ e, (v.editLocal change).2 = .error e → v.Unchanged (v.editLocal change).1 :=
    fun _ => hwell.unchanged_editLocal
  rcases hedit : v.editLocal change with ⟨v', e | _⟩ <;> rw [hedit] at hset hunchanged
  · exact keeps_finish hset fun _ _ => unchanged_set hv (hunchanged e rfl)
  · exact keeps_finish hset fun _ hrefused => Answer.noConfusion hrefused

/-- The vector of a slot may remember the norm that it is asked for. -/
theorem keeps_norm {name kind : String} : ws.Keeps (ws.exec (.norm name kind)) := by
  refine keeps_withSlot h fun v hv => ?_
  cases Norm.ofName kind with
  | error e => exact keeps_answer h _
  | ok k =>
    have hform : ∀ (x : Binary64) (e : Error), Answer.number x ≠ .refused e := nofun
    exact keeps_answerAttempt_of_unchanged (h.set ((h.shards name v hv).norm k) name)
      (v.settles_norm k).guarded hform (unchanged_set hv (v.unchanged_norm k))

/-- What is made of the vector of a slot and of a value that may be refused. -/
theorem keeps_made {α : Type} {v name : String} {outcome : Shard → Except Error α}
    {make : Shard → α → Shard} (hmake : ∀ u, u.WellFormed → ∀ x, (make u x).WellFormed) :
    ws.Keeps (ws.withShard name fun u =>
      ws.keepExcept v (do let x ← outcome u; return make u x)) :=
  keeps_withShard h fun u hu =>
    keeps_keepExcept h (fun _ hok => Shard.wellFormed_of_made (hmake u hu) hok) v

/-- What is made of the vectors of two slots in place of the one. -/
theorem keeps_zipped {v w : String} {op kernel : Operation} {f : Binary64 → Binary64 → Binary64} :
    ws.Keeps (ws.withShard v fun shard => ws.withShard w fun operand =>
      ws.keepExcept v (Shard.zipAssign op kernel f shard operand)) :=
  keeps_withShard h fun _ hshard => keeps_withShard h fun _ _ =>
    keeps_keepExcept h (fun _ hok => hshard.zipAssign hok) v

/-- What is asked of the vector of a slot. -/
theorem keeps_answered {α : Type} {P : Shard → α → Prop} {name : String} {form : α → Answer}
    {attempt : Shard → Attempt α} (hattempt : ∀ v, v.WellFormed → (attempt v).Guarded (P v))
    (hform : ∀ x e, form x ≠ .refused e) :
    ws.Keeps (ws.withShard name fun v => ws.answerAttempt form (attempt v)) :=
  keeps_withShard h fun v hv => keeps_answerAttempt h (hattempt v hv) hform

/-- **What every command does to a sound workspace.** -/
theorem keeps_exec {c : Command} (hfits : c.Fits) : ws.Keeps (ws.exec c) := by
  cases c with
  -- making
  | makeEmpty v backend =>
    exact keeps_keepExcept h (fun _ hok =>
      Shard.wellFormed_of_made (fun b => Shard.wellFormed_unbound h.seat b) hok) v
  | makeOfSize v n backend =>
    exact keeps_keepExcept h (fun _ hok =>
      Shard.wellFormed_of_made (fun b => (Shard.wellFormed_unbound h.seat b).initSize n) hok) v
  | copy v w => exact keeps_withShard h fun w hw => keeps_keep h hw.copy v
  | initSize v n => exact keeps_withShard h fun shard hshard => keeps_keep h (hshard.initSize n) v
  | init v claim =>
    exact keeps_withShard h fun _ hshard => keeps_keepAttempt h (hshard.guarded_init claim) v
  | drop v => exact keeps_finish (h.erase v) nofun
  | factoryOfConfig f document =>
    rw [exec]
    cases Config.ofDocument? document with
    | none => exact keeps_answer h _
    | some config => exact keeps_finish (h.setFactory h.seat f) nofun
  | factoryOfBackend f backend =>
    rw [exec]
    cases Backend.ofName backend with
    | error e => exact keeps_answer h _
    | ok b => exact keeps_finish (h.setFactory h.seat f) nofun
  | create f v n =>
    refine keeps_withSlot h fun factory hfactory => ?_
    have hseat := h.factories f factory hfactory
    cases n with
    | none => exact keeps_keep h (Factory.wellFormed_create hseat) v
    | some n => exact keeps_keep h (Factory.wellFormed_createOfSize hseat n) v
  | makeLocal t maker n fill =>
    have made (factory : Factory) : ws.Keeps (.finish (ws.keepLocal t factory n fill)) :=
      keeps_finish (h.setLocal (wellFormed_makeLocalShard factory n fill) t) nofun
    cases maker with
    | factory f => exact keeps_withSlot h fun factory _ => made factory
    | backend name =>
      rw [exec]
      cases Backend.ofName name with
      | error e => exact keeps_answer h _
      | ok b => exact made _
  -- asking
  | ask v question => exact keeps_withShard h fun _ _ => keeps_answer h _
  | localInfo t => exact keeps_withSlot h fun _ _ => keeps_answer h _
  | sameLayout v w =>
    exact keeps_withShard h fun _ _ => keeps_withShard h fun _ _ => keeps_answer h _
  | sameLayoutLocal v t =>
    exact keeps_withShard h fun _ _ => keeps_withSlot h fun _ _ => keeps_answer h _
  -- partitions
  | partition p n question => exact keeps_finish (h.setPartition _ p) nofun
  | partitionExplicit p claim question =>
    exact keeps_bind (Partition.settles_explicit ws.seat claim).guarded
      (ws.keepPartition p question) (fun _ => rfl) (fun _ => rfl)
      (fun layout _ => ⟨h.setPartition layout p, nofun⟩) h (.refl ws)
  | samePartition p q =>
    exact keeps_withSlot h fun _ _ => keeps_withSlot h fun _ _ => keeps_answer h _
  | redistribute v p =>
    exact keeps_withShard h fun shard hshard => keeps_withSlot h fun layout _ =>
      keeps_answerAttempt h (hshard.guarded_redistribute layout) nofun
  -- local entries
  | edit v change => exact keeps_edit h change
  | assign v w =>
    simp only [exec, Shard.assign_eq_zipAssign]
    exact keeps_zipped h
  | axpy v w a => exact keeps_zipped h
  | apply v mode =>
    refine keeps_answered h (P := fun _ _ => True)
      (fun shard _ => Attempt.guarded_check fun mode _ => ?_) nofun
    exact ((Collective.settles_barrier shard.seat .apply).bind fun _ _ =>
      Attempt.settles_pure trivial).guarded
  -- arithmetic
  | combineAssign v sign w =>
    simp only [exec, Shard.combineAssign_eq_zipAssign]
    exact keeps_zipped h
  | numberAssign v sign x =>
    exact keeps_withShard h fun shard hshard => keeps_keep h (hshard.combineNumberAssign sign x) v
  | scalarAssign v sign s => exact keeps_made h fun u hu x => hu.combineNumberAssign sign x
  | combine v w sign u =>
    exact keeps_withShard h fun w hw => keeps_withShard h fun u hu =>
      keeps_keepAttempt h (hw.guarded_combine hu sign) v
  | scalarRight v w sign s => exact keeps_made h fun u hu x => hu.copy.combineNumberAssign sign x
  | scalarLeft v s sign w =>
    exact keeps_withShard h fun w hw =>
      keeps_keepExcept h (fun _ hok => hw.combineScalarLeft hok) v
  -- reductions
  | sum v => exact keeps_answered h (fun _ _ => (Collective.settles_reduceAll ..).guarded) nofun
  | min v => exact keeps_answered h (fun _ _ => (Collective.settles_reduceAll ..).guarded) nofun
  | max v => exact keeps_answered h (fun _ _ => (Collective.settles_reduceAll ..).guarded) nofun
  | norm v kind => exact keeps_norm h
  | inner v w =>
    exact keeps_withShard h fun v _ => keeps_withShard h fun w _ =>
      keeps_answerAttempt h (v.guarded_inner w) nofun
  | sumEntries v indices => exact keeps_answered h (fun v _ => v.guarded_sumEntries indices) nofun
  -- gathering
  | gather v indices => exact keeps_answered h (fun _ hv => hv.guarded_gather indices) nofun
  | gatherOnZero v => exact keeps_answered h (fun _ hv => hv.guarded_gatherOnZero) nofun
  | gatherIntoLocal v t indices =>
    refine keeps_withShard h fun shard hshard => keeps_withSlot h fun target htarget => ?_
    exact keeps_bind ((h.locals t target htarget).guarded_gatherInto hshard hfits)
      (fun target => ({ ws with locals := ws.locals.set t target }, .entries target.toList))
      (fun _ => rfl) (fun _ => rfl) (fun _ hmade => ⟨h.setLocal hmade t, nofun⟩) h (.refl ws)
  | gatherInto v w indices =>
    exact keeps_withShard h fun shard hshard => keeps_withShard h fun target htarget =>
      keeps_keepAttempt h (htarget.guarded_gatherInto hshard hfits) w
  -- plain collectives
  | allGather tag buffer =>
    exact keeps_answerAttempt h (Collective.settles_exchange ws.seat tag _).guarded nofun
  | allToAll tag buffers =>
    exact keeps_answerAttempt h (Collective.guarded_allToAll ws.seat tag buffers) nofun
  | gatherTo tag root buffer =>
    exact keeps_answerAttempt h (Collective.guarded_gatherTo ws.seat tag root buffer) nofun
  | barrier tag =>
    exact keeps_answerAttempt h (Collective.settles_barrier ws.seat tag).guarded nofun
  | allGatherRow tag row =>
    exact keeps_answerAttempt h (guarded_allGatherRow ws.seat tag row) nofun
  | gatherRowTo tag root row =>
    exact keeps_answerAttempt h (guarded_gatherRowTo ws.seat tag root row) nofun
  | allToAllRows tag rows =>
    exact keeps_answerAttempt h (guarded_allToAllRows ws.seat tag rows) nofun
  | reduceAll tag op x =>
    refine keeps_answerAttempt h (Collective.settles_reduceAll ws.seat tag op x).guarded ?_
    cases op <;> nofun

/-- Programs lead from sound workspaces to sound ones. -/
theorem sound_execAll {cs : List Command} (hfits : ∀ c ∈ cs, c.Fits) :
    (ws.execAll cs).Always fun x => x.1.Sound := by
  induction cs generalizing ws with
  | nil => exact h
  | cons c rest ih =>
    obtain ⟨hc, hrest⟩ := List.forall_mem_cons.mp hfits
    have hstep : (ws.exec c).Always fun x => x.1.Sound :=
      Routine.always_iff.mpr fun sent x hends => (keeps_exec h hc sent x.1 x.2 hends).1
    refine Routine.always_bind.mpr (hstep.mono fun x hx => ?_)
    exact Routine.always_bind.mpr ((ih hx hrest).mono fun y hy => hy)

end Exec

end Workspace

/-! ## 4. Refusals -/

/-- **Refusals leave everything as it was**, on every rank and under every interleaving.  A request
is carried out step by step on its shard, and comes to what it comes to as an operation.  If it is
refused, the shard that is left is bound, laid out and kept as before with the same entries; if it
is refused by a check, not a letter was sent.  When all ranks of a group are refused by a check in
one step, whatever each of them was asked for, their mailbox is left as it was.  And in a program,
where a vector may be an operand of any command, a refused command leaves all vectors unchanged. -/
theorem refused_leaves_everything {size : Nat} {t : Nat → Request} {v : Nat → Shard}
    (hv : ∀ r < size, (v r).Reachable)
    (hoperands : ∀ r < size, ∀ w ∈ (t r).operands, w.Reachable)
    (hfits : ∀ r < size, (t r).Fits) :
    (∀ r < size, (t r).perform (v r) = ((t r).attempt (v r)).outcome >>= fun outcome =>
      .finish (settled ((t r).refused (v r)) outcome)) ∧
    (∀ r < size, ∀ (sent : List Letter) (e : Error) (v' : Shard),
      ((t r).perform (v r)).Ends sent (.error e, v') →
        (v r).Unchanged v' ∧ (e.ofCheck → sent = [])) ∧
    (∀ (group : Nat) (mailbox : Mailbox) (turns : List Nat)
        (rs : List (Except Error Reply × Shard)),
      ((groupStep group mailbox size t v).run turns).results? = some rs →
      (∀ x ∈ rs, ∃ e, x.1 = .error e ∧ e.ofCheck) →
        ((groupStep group mailbox size t v).run turns).mailbox = mailbox) ∧
    ∀ (seat : Seat) (program : List Command) (c : Command), seat.Valid →
      (∀ c ∈ program, c.Fits) → c.Fits →
      ∀ (before sent : List Letter) (answers : List Answer) (ws ws' : Workspace) (e : Error),
        ((Workspace.empty seat).execAll program).Ends before (ws, answers) →
        (ws.exec c).Ends sent (ws', .refused e) → ws.Unchanged ws' ∧ (e.ofCheck → sent = []) := by
  have hshards : ∀ r < size, (v r).WellFormed := fun r hr => (hv r hr).wellFormed
  have hothers : ∀ r < size, ∀ w ∈ (t r).operands, w.WellFormed :=
    fun r hr w hw => (hoperands r hr w hw).wellFormed
  refine ⟨?_, ?_, ?_, ?_⟩
  · intro r hr
    exact perform_eq (hshards r hr) (hothers r hr) (hfits r hr)
  · intro r hr sent e v' hends
    exact perform_refused (hshards r hr) (hothers r hr) (hfits r hr) hends
  · intro group mailbox turns rs hrs hrefused
    exact mailbox_of_all_refused hshards hothers hfits group mailbox hrs hrefused
  · intro seat program c hseat hprogram hc before sent answers ws ws' e hmade hends
    have hsound : ws.Sound :=
      (Workspace.sound_execAll (Workspace.sound_empty hseat) hprogram).of_ends hmade
    exact (Workspace.keeps_exec hsound hc sent ws' _ hends).2 e rfl

/-- One of two ranks sets its entries to too many numbers and the other one asks for an entry that
there is not, while a message of an earlier step waits; and a program assigns a vector to one of
another size. -/
theorem refused_leaves_everything_waiting :
    let v : Nat → Shard := fun r => (Shard.unbound (.ofRank r 2) .petsc).initSize 3
    let t : Nat → Request
      | 0 => .edit (.setLocal [.one, .one, .one])
      | _ => .ask (.gather [1, 7])
    let mailbox := Mailbox.empty.push ⟨1, 0, 1, .gatherRequest⟩ [0xff]
    let ws := ((Workspace.empty .alone).execAll
      [.makeOfSize "v" 3 "petsc", .makeOfSize "w" 4 "dense"]).runAlone.value.1
    let after := (ws.exec (.assign "v" "w")).runAlone
    (∀ r < 2, (v r).Reachable) ∧
      ((groupStep 1 mailbox 2 t v).run [1, 0, 1]).results? =
        some [(.error (.dimensionMismatch .setLocal 2 3), v 0),
          (.error (.indexOutOfRange 7 3), v 1)] ∧
      ((groupStep 1 mailbox 2 t v).run [1, 0, 1]).mailbox = mailbox ∧
      after.value.2 = .refused (.dimensionMismatch .assign 3 4) ∧ ws.Unchanged after.value.1 := by
  intro v t mailbox ws after
  have hv : ∀ r < 2, (v r).Reachable := by
    intro r hr
    have hseat : (Seat.ofRank r 2).Valid := ⟨hr, show 2 < 2 ^ 64 by decide⟩
    exact (Shard.Reachable.unbound hseat .petsc).initSize 3
  have hoperands : ∀ r < 2, ∀ w ∈ (t r).operands, w.Reachable := by
    intro r hr
    match r with
    | 0 => nofun
    | 1 => nofun
  have hfits : ∀ r < 2, (t r).Fits := by
    intro r hr
    match r with
    | 0 => trivial
    | 1 => trivial
  obtain ⟨-, -, hgroup, hprogram⟩ := refused_leaves_everything hv hoperands hfits
  have hresults : ((groupStep 1 mailbox 2 t v).run [1, 0, 1]).results? =
      some [(.error (.dimensionMismatch .setLocal 2 3), v 0),
        (.error (.indexOutOfRange 7 3), v 1)] := rfl
  have hrefused : after.value.2 = .refused (.dimensionMismatch .assign 3 4) := by decide +kernel
  have hends : (ws.exec (.assign "v" "w")).Ends after.sent
      (after.value.1, .refused (.dimensionMismatch .assign 3 4)) :=
    hrefused ▸ Routine.ends_rehearse _ []
  have hmailbox := hgroup 1 mailbox [1, 0, 1] _ hresults (by simp [Error.ofCheck])
  refine ⟨hv, hresults, hmailbox, hrefused, ?_⟩
  refine (hprogram .alone _ (.assign "v" "w") ⟨Nat.zero_lt_one, show 1 < 2 ^ 64 by decide⟩ ?_
    trivial _ _ _ ws after.value.1 _ (Routine.ends_rehearse _ []) hends).1
  simp [Command.Fits]

end ShardedVector
