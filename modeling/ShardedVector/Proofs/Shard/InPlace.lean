/-
# Operations, step by step

The operations of a shard come to another shard or to a refusal; a refusal does not say what has
become of the shard.  A vector is changed where it stands, though, one step after the other, and a
step that is refused does not undo the steps before it.  `InPlace` programs are made of such
steps, and they leave a shard behind however they end.

* `Request` lists what can be done with a shard; an `Inquiry` is a request that only reads it.
* `Request.steps` writes out the checks, the conversations and the changes of a request in the
  order in which they are made, and `Request.perform` carries them out.
* `Request.attempt` is the same request as one of the operations on shards, and `Request.refused`
  is the shard that is left when it is refused.

That the two come to the same is proved where the shards are known to be well-formed: gathering
into an unbound vector binds it first and takes in the entries afterwards, so it matters that
their number is right by then.
-/
import Mathlib.Algebra.Group.Nat.Defs
import ShardedVector.Shard.Arithmetic
import ShardedVector.Shard.Edit
import ShardedVector.Shard.Reduction

namespace ShardedVector

/-! ## 1. Programs in place -/

/-- A program that changes a shard where it stands.  It may talk to other ranks and may be refused,
and it leaves a shard behind also then. -/
abbrev InPlace (α : Type) := ExceptT Error (StateT Shard Routine) α

namespace InPlace

variable {α β : Type}

/-- Runs the steps on a shard: the outcome, and the shard that is left. -/
def on (steps : InPlace α) (v : Shard) : Routine (Except Error α × Shard) := steps.run.run v

/-- A look at the shard, which may find something to refuse. -/
def look (test : Shard → Except Error α) : InPlace α :=
  ExceptT.mk fun v => .finish (test v, v)

/-- A conversation of the shard with other ranks. -/
def talk (attempt : Shard → Attempt α) : InPlace α :=
  ExceptT.mk fun v => do
    let outcome ← (attempt v).outcome
    return (outcome, v)

/-- A change that cannot be refused. -/
def change (f : Shard → Shard) : InPlace Unit :=
  ExceptT.mk fun v => .finish (.ok (), f v)

/-- An edit of the storage.  One that is refused leaves a storage behind as well. -/
def editStorage (e : Storage.Edit) : InPlace Unit :=
  ExceptT.mk fun v => .finish ((v.storage.edit e).2, { v with storage := (v.storage.edit e).1 })

/-- Asks the storage for its part of a norm, which the storage may remember. -/
def askNorm (k : Norm) : InPlace Binary64 :=
  ExceptT.mk fun v =>
    .finish (.ok (v.storage.normPartial k).1, { v with storage := (v.storage.normPartial k).2 })

@[simp] theorem on_pure (a : α) (v : Shard) : (pure a : InPlace α).on v = .finish (.ok a, v) := rfl

@[simp] theorem on_look (test : Shard → Except Error α) (v : Shard) :
    (look test).on v = .finish (test v, v) := rfl

@[simp] theorem on_talk (attempt : Shard → Attempt α) (v : Shard) :
    (talk attempt).on v = (attempt v).outcome >>= fun outcome => .finish (outcome, v) := rfl

@[simp] theorem on_change (f : Shard → Shard) (v : Shard) :
    (change f).on v = .finish (.ok (), f v) := rfl

@[simp] theorem on_editStorage (e : Storage.Edit) (v : Shard) :
    (editStorage e).on v =
      .finish ((v.storage.edit e).2, { v with storage := (v.storage.edit e).1 }) := rfl

@[simp] theorem on_askNorm (k : Norm) (v : Shard) :
    (askNorm k).on v = .finish (.ok (v.storage.normPartial k).1,
      { v with storage := (v.storage.normPartial k).2 }) := rfl

/-- One step after the other; a refusal ends the program where it stands. -/
@[simp] theorem on_bind (steps : InPlace α) (f : α → InPlace β) (v : Shard) :
    (steps >>= f).on v = steps.on v >>= fun x =>
      match x.1 with
      | .ok a => (f a).on x.2
      | .error e => .finish (.error e, x.2) := by
  refine congrArg (steps.on v >>= ·) (funext fun x => ?_)
  obtain ⟨outcome, u⟩ := x
  cases outcome <;> rfl

end InPlace

/-! ## 2. Requests -/

/-- What can be read from a shard, and what can be made of it and of others. -/
inductive Inquiry where
  | view
  | apply (mode : ApplyMode)
  | copy
  | combine (sign : Sign) (w : Shard)
  | scalarRight (sign : Sign) (s : Scalar)
  | scalarLeft (sign : LeftSign) (s : Scalar)
  | sum
  | min
  | max
  | inner (w : Shard)
  | sumEntries (indices : List UInt64)
  | gather (indices : List UInt64)
  | gatherOnZero
  | redistribute (layout : Partition)

/-- What can be done with a shard.  `receive` is a gather with this shard as its target. -/
inductive Request where
  | ask (inquiry : Inquiry)
  | norm (k : Norm)
  | initSize (n : UInt64)
  | init (claim : Span)
  | edit (e : LocalEdit)
  | assign (w : Shard)
  | axpy (a : Binary64) (w : Shard)
  | combineAssign (sign : Sign) (w : Shard)
  | numberAssign (sign : Sign) (x : Binary64)
  | scalarAssign (sign : Sign) (s : Scalar)
  | receive (source : Shard) (indices : List UInt64)

/-- What a request that is not refused returns. -/
inductive Reply where
  | nothing
  | number (x : Binary64)
  | entries (xs : List Binary64)
  | vector (v : Shard)

/-- The vectors that a request takes part in beside its own. -/
def Request.operands : Request → List Shard
  | .ask (.combine _ w) | .ask (.inner w) | .assign w | .axpy _ w | .combineAssign _ w
  | .receive w _ => [w]
  | _ => []

/-- A list of indices is held in memory, so a word counts it. -/
def Request.Fits : Request → Prop
  | .receive _ indices => indices.length < 2 ^ 64
  | _ => True

/-- What an inquiry comes to. -/
def Inquiry.attempt (v : Shard) : Inquiry → Attempt Reply
  | view => do return .entries (← Attempt.ofExcept v.storage.view)
  | apply mode => do
    v.apply mode
    return .nothing
  | copy => return .vector v.copy
  | combine sign w => do return .vector (← v.combine sign w)
  | scalarRight sign s => do return .vector (← Attempt.ofExcept (v.combineScalar sign s))
  | scalarLeft sign s => do return .vector (← Attempt.ofExcept (v.combineScalarLeft sign s))
  | sum => do return .number (← v.sum)
  | min => do return .number (← v.min)
  | max => do return .number (← v.max)
  | inner w => do return .number (← v.inner w)
  | sumEntries indices => do return .number (← v.sumEntries indices)
  | gather indices => do return .entries (← v.gather indices)
  | gatherOnZero => do return .entries (← v.gatherOnZero)
  | redistribute layout => do return .entries (← v.redistribute layout)

/-! ## 3. Steps -/

/-- A target for so many entries: one that is bound stays as it is. -/
def Shard.readied (v : Shard) (count : Nat) : Shard :=
  if v.isBound then v else v.initSize (.ofNat count)

/-- The operation on local entries as an edit of the left storage. -/
def Sign.edit : Sign → Storage → Storage.Edit
  | plus, x => .add x
  | minus, x => .axpy .negativeOne x
  | times, x => .multiply x
  | dividedBy, x => .divide x

theorem Sign.edit_eq_settleWith (sign : Sign) (y x : Storage) :
    y.edit (sign.edit x) = y.settleWith (sign.combine y x) := by
  cases sign <;> rfl

namespace Request

/-- The steps of a request, in the order in which they are made. -/
def steps : Request → InPlace Reply
  | ask inquiry => .talk fun v => inquiry.attempt v
  | norm k => do
    let part ← InPlace.askNorm k
    let total ← InPlace.talk fun v =>
      Collective.reduceAll v.seat .reduce (Shard.normReduction k) part
    return .number (Shard.finishNorm k total)
  | initSize n => do
    InPlace.change fun v => v.initSize n
    return .nothing
  | init claim => do
    let p ← InPlace.talk fun v => v.timed Shard.partitionTask (Partition.explicit v.seat claim)
    InPlace.change fun v => v.bind p
    return .nothing
  | edit e => do
    InPlace.editStorage e.toEdit
    return .nothing
  | assign w => do
    InPlace.look fun v => v.checkLayout w .assign
    InPlace.editStorage (.setLocal w.toList)
    return .nothing
  | axpy a w => do
    InPlace.look fun v => v.checkLayout w .axpy
    InPlace.editStorage (.axpy a w.storage)
    return .nothing
  | combineAssign sign w => do
    InPlace.look fun v => v.checkLayout w sign.assignOperation
    InPlace.editStorage (sign.edit w.storage)
    return .nothing
  | numberAssign sign x => do
    InPlace.change fun v => v.combineNumberAssign sign x
    return .nothing
  | scalarAssign sign s => do
    let x ← InPlace.look fun _ => s.promote
    InPlace.change fun v => v.combineNumberAssign sign x
    return .nothing
  | receive source indices => do
    InPlace.look fun v => source.checkTarget v indices.length
    let values ← InPlace.talk fun _ => source.gatherValues indices
    InPlace.change fun v => v.readied values.length
    InPlace.editStorage (.setLocal values)
    return .nothing

/-- Carries out the steps of a request: the outcome, and the shard that is left. -/
def perform (t : Request) (v : Shard) : Routine (Except Error Reply × Shard) := t.steps.on v

/-! ## 4. Requests as operations -/

/-- The reply, and the shard afterwards. -/
def attempt (v : Shard) : Request → Attempt (Reply × Shard)
  | ask inquiry => do return (← inquiry.attempt v, v)
  | norm k => do return (.number (← (v.norm k).1), (v.norm k).2)
  | initSize n => return (.nothing, v.initSize n)
  | init claim => do return (.nothing, ← v.init claim)
  | edit e => do
    Attempt.ofExcept (v.editLocal e).2
    return (.nothing, (v.editLocal e).1)
  | assign w => do return (.nothing, ← Attempt.ofExcept (v.assign w))
  | axpy a w => do return (.nothing, ← Attempt.ofExcept (v.axpy a w))
  | combineAssign sign w => do return (.nothing, ← Attempt.ofExcept (v.combineAssign sign w))
  | numberAssign sign x => return (.nothing, v.combineNumberAssign sign x)
  | scalarAssign sign s => do return (.nothing, ← Attempt.ofExcept (v.combineScalarAssign sign s))
  | receive source indices => do return (.nothing, ← source.gatherInto v indices)

/-- The shard that is left when a request is refused.  A refused edit may have counted an access,
and a norm may be remembered before the ranks talk about it. -/
def refused (v : Shard) : Request → Shard
  | edit e => (v.editLocal e).1
  | norm k => (v.norm k).2
  | _ => v

end Request

/-- The outcome of an attempt and the shard that is left: the new one, or the one that a refusal
leaves. -/
def settled (refused : Shard) : Except Error (Reply × Shard) → Except Error Reply × Shard
  | .ok (reply, v) => (.ok reply, v)
  | .error e => (.error e, refused)

end ShardedVector
