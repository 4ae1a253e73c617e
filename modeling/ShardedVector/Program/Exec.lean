/-
# Carrying out programs

A `Workspace` is what one rank keeps between commands.  `Workspace.exec` carries out one command
as a routine: it ends with the workspace afterwards and the answer.  A command that is refused
sets no slot; a change that was refused leaves the vector it was to change in its slot.
-/
import ShardedVector.Factory
import ShardedVector.Program.Answer
import ShardedVector.Shard.Reduction
import ShardedVector.Slots

namespace ShardedVector

/-- The vectors of one rank on the seat of the program, its vectors of one process, its
partitions and its factories. -/
structure Workspace where
  seat : Seat
  shards : Slots Shard
  locals : Slots Shard
  partitions : Slots Partition
  factories : Slots Factory

namespace Workspace

def empty (seat : Seat) : Workspace := ⟨seat, .empty, .empty, .empty, .empty⟩

/-- What carrying out a command comes to. -/
abbrev Outcome := Routine (Workspace × Answer)

/-! ## 1. Slots and outcomes -/

/-- An answer that changes nothing. -/
def answer (ws : Workspace) (a : Answer) : Outcome := .finish (ws, a)

/-- Goes on with the value of a slot. -/
def withSlot {α : Type} (ws : Workspace) (slots : Slots α) (name : String)
    (next : α → Outcome) : Outcome :=
  match slots.get? name with
  | some value => next value
  | none => ws.answer (.noSlot name)

def withShard (ws : Workspace) (name : String) (next : Shard → Outcome) : Outcome :=
  ws.withSlot ws.shards name next

/-- Keeps a shard and answers its entries. -/
def keep (ws : Workspace) (v : String) (shard : Shard) : Workspace × Answer :=
  ({ ws with shards := ws.shards.set v shard }, .entries shard.toList)

/-- Keeps the shard of an attempt that succeeds, and answers its entries. -/
def keepAttempt (ws : Workspace) (v : String) (attempt : Attempt Shard) : Outcome := do
  match ← attempt.outcome with
  | .ok shard => return ws.keep v shard
  | .error e => return (ws, .refused e)

/-- Keeps a shard that was not refused, and answers its entries. -/
def keepExcept (ws : Workspace) (v : String) (outcome : Except Error Shard) : Outcome :=
  ws.keepAttempt v (.ofExcept outcome)

/-- The answer of an attempt that changes nothing. -/
def answerAttempt {α : Type} (ws : Workspace) (form : α → Answer) (attempt : Attempt α) :
    Outcome := do
  match ← attempt.outcome with
  | .ok value => return (ws, form value)
  | .error e => return (ws, .refused e)

/-- Keeps a partition, and answers what was asked about it. -/
def keepPartition (ws : Workspace) (p : String) (question : PartitionQuestion)
    (partition : Partition) : Workspace × Answer :=
  ({ ws with partitions := ws.partitions.set p partition },
    .partition (some (partition.info question)))

/-- Keeps a factory, and answers whom it makes vectors for. -/
def keepFactory (ws : Workspace) (f : String) (factory : Factory) : Workspace × Answer :=
  ({ ws with factories := ws.factories.set f factory },
    .factory factory.config.backend factory.seat)

/-- The vector of one process that a factory makes, filled with a number if one is given. -/
def makeLocalShard (factory : Factory) (n : Option UInt64) (fill : Option Binary64) : Shard :=
  let made := match n with
    | some n => (factory.on .alone).createOfSize n
    | none => (factory.on .alone).create
  match fill with
  | some x => { made with storage := made.storage.setAll x }
  | none => made

/-- Keeps a vector of one process, and answers what it is. -/
def keepLocal (ws : Workspace) (t : String) (factory : Factory) (n : Option UInt64)
    (fill : Option Binary64) : Workspace × Answer :=
  let shard := makeLocalShard factory n fill
  ({ ws with locals := ws.locals.set t shard }, .info shard.info)

/-! ## 2. Collectives on rows -/

def allGatherRow (me : Seat) (tag : Tag) : Row → Attempt Rows
  | .words items => Rows.words <$> Collective.allGatherRecords me tag items
  | .entries items => Rows.entries <$> Collective.allGatherRecords me tag items
  | .spans items => Rows.spans <$> Collective.allGatherRecords me tag items

def gatherRowTo (me : Seat) (tag : Tag) (root : Nat) : Row → Attempt Rows
  | .words items => Rows.words <$> Collective.gatherRecordsTo me tag root items
  | .entries items => Rows.entries <$> Collective.gatherRecordsTo me tag root items
  | .spans items => Rows.spans <$> Collective.gatherRecordsTo me tag root items

def allToAllRows (me : Seat) (tag : Tag) : Rows → Attempt Rows
  | .words rows => Rows.words <$> Collective.allToAllRecords me tag rows
  | .entries rows => Rows.entries <$> Collective.allToAllRecords me tag rows
  | .spans rows => Rows.spans <$> Collective.allToAllRecords me tag rows

/-! ## 3. Commands -/

/-- Carries out a command. -/
def exec (ws : Workspace) : Command → Outcome
  | .makeEmpty v backend =>
    ws.keepExcept v (do return .unbound ws.seat (← Backend.ofName backend))
  | .makeOfSize v n backend =>
    ws.keepExcept v (do return .ofSize ws.seat n (← Backend.ofName backend))
  | .copy v w => ws.withShard w fun w => .finish (ws.keep v w.copy)
  | .initSize v n => ws.withShard v fun shard => .finish (ws.keep v (shard.initSize n))
  | .init v claim => ws.withShard v fun shard => ws.keepAttempt v (shard.init claim)
  | .drop v =>
    .finish ({ ws with shards := ws.shards.erase v }, .flag (ws.shards.get? v).isSome)
  | .factoryOfConfig f document =>
    match Config.ofDocument? document with
    | some config => .finish (ws.keepFactory f ⟨ws.seat, config⟩)
    | none => ws.answer .invalidConfig
  | .factoryOfBackend f backend =>
    match Backend.ofName backend with
    | .ok b => .finish (ws.keepFactory f (.ofBackend ws.seat b))
    | .error e => ws.answer (.refused e)
  | .create f v n =>
    ws.withSlot ws.factories f fun factory =>
      match n with
      | some n => .finish (ws.keep v (factory.createOfSize n))
      | none => .finish (ws.keep v factory.create)
  | .makeLocal t maker n fill =>
    match maker with
    | .factory f => ws.withSlot ws.factories f fun factory =>
        .finish (ws.keepLocal t factory n fill)
    | .backend name =>
      match Backend.ofName name with
      | .ok b => .finish (ws.keepLocal t (.ofBackend .alone b) n fill)
      | .error e => ws.answer (.refused e)
  | .ask v question => ws.withShard v fun shard => ws.answer (shard.ask question)
  | .localInfo t => ws.withSlot ws.locals t fun shard =>
      ws.answer (.localInfo shard.info shard.toList)
  | .sameLayout v w => ws.withShard v fun v => ws.withShard w fun w =>
      ws.answer (.flag (v.sameLayout w))
  | .sameLayoutLocal v t => ws.withShard v fun v => ws.withSlot ws.locals t fun t =>
      ws.answer (.flag (v.sameLayout t))
  | .partition p n question =>
    .finish (ws.keepPartition p question (.balanced ws.seat n))
  | .partitionExplicit p claim question => do
    match ← (Partition.explicit ws.seat claim).outcome with
    | .ok partition => return ws.keepPartition p question partition
    | .error e => return (ws, .refused e)
  | .samePartition p q => ws.withSlot ws.partitions p fun p => ws.withSlot ws.partitions q fun q =>
      ws.answer (.flag (p.sameLayout q))
  | .redistribute v p => ws.withShard v fun shard => ws.withSlot ws.partitions p fun layout =>
      ws.answerAttempt .entries (shard.redistribute layout)
  | .edit v change => ws.withShard v fun shard =>
      let (shard', outcome) := shard.editLocal change
      let (ws', a) := ws.keep v shard'
      match outcome with
      | .ok () => .finish (ws', a)
      | .error e => .finish (ws', .refused e)
  | .assign v w => ws.withShard v fun shard => ws.withShard w fun w =>
      ws.keepExcept v (shard.assign w)
  | .axpy v w a => ws.withShard v fun shard => ws.withShard w fun w =>
      ws.keepExcept v (shard.axpy a w)
  | .apply v mode => ws.withShard v fun shard =>
      ws.answerAttempt .entries (do
        let mode ← Attempt.ofExcept (ApplyMode.ofName mode)
        shard.apply mode
        return shard.toList)
  | .combineAssign v sign w => ws.withShard v fun shard => ws.withShard w fun w =>
      ws.keepExcept v (shard.combineAssign sign w)
  | .numberAssign v sign x => ws.withShard v fun shard =>
      .finish (ws.keep v (shard.combineNumberAssign sign x))
  | .scalarAssign v sign s => ws.withShard v fun shard =>
      ws.keepExcept v (shard.combineScalarAssign sign s)
  | .combine v w sign u => ws.withShard w fun w => ws.withShard u fun u =>
      ws.keepAttempt v (w.combine sign u)
  | .scalarRight v w sign s => ws.withShard w fun w => ws.keepExcept v (w.combineScalar sign s)
  | .scalarLeft v s sign w => ws.withShard w fun w =>
      ws.keepExcept v (w.combineScalarLeft sign s)
  | .sum v => ws.withShard v fun shard => ws.answerAttempt .number shard.sum
  | .min v => ws.withShard v fun shard => ws.answerAttempt .extremum shard.min
  | .max v => ws.withShard v fun shard => ws.answerAttempt .extremum shard.max
  | .norm v kind => ws.withShard v fun shard =>
      match Norm.ofName kind with
      | .error e => ws.answer (.refused e)
      | .ok k =>
        let (attempt, shard') := shard.norm k
        { ws with shards := ws.shards.set v shard' }.answerAttempt .number attempt
  | .inner v w => ws.withShard v fun shard => ws.withShard w fun w =>
      ws.answerAttempt .number (shard.inner w)
  | .sumEntries v indices => ws.withShard v fun shard =>
      ws.answerAttempt .number (shard.sumEntries indices)
  | .gather v indices => ws.withShard v fun shard =>
      ws.answerAttempt .entries (shard.gather indices)
  | .gatherOnZero v => ws.withShard v fun shard =>
      ws.answerAttempt .entries shard.gatherOnZero
  | .gatherIntoLocal v t indices => ws.withShard v fun shard =>
      ws.withSlot ws.locals t fun target => do
        match ← (shard.gatherInto target indices).outcome with
        | .ok target' =>
          return ({ ws with locals := ws.locals.set t target' }, .entries target'.toList)
        | .error e => return (ws, .refused e)
  | .gatherInto v w indices => ws.withShard v fun shard => ws.withShard w fun target =>
      ws.keepAttempt w (shard.gatherInto target indices)
  | .allGather tag buffer =>
    ws.answerAttempt .buffers (Collective.allGather ws.seat tag buffer)
  | .allToAll tag buffers =>
    ws.answerAttempt .buffers (Collective.allToAll ws.seat tag buffers)
  | .gatherTo tag root buffer =>
    ws.answerAttempt .buffers (Collective.gatherTo ws.seat tag root buffer)
  | .barrier tag => ws.answerAttempt (fun () => .nothing) (Collective.barrier ws.seat tag)
  | .allGatherRow tag row => ws.answerAttempt .rows (allGatherRow ws.seat tag row)
  | .gatherRowTo tag root row => ws.answerAttempt .rows (gatherRowTo ws.seat tag root row)
  | .allToAllRows tag rows => ws.answerAttempt .rows (allToAllRows ws.seat tag rows)
  | .reduceAll tag op x =>
    ws.answerAttempt (match op with | .sum => .number | .min | .max => .extremum)
      (Collective.reduceAll ws.seat tag op x)

/-! ## 4. Programs -/

/-- Carries out commands one after the other; the workspace afterwards and the answers. -/
def execAll (ws : Workspace) : List Command → Routine (Workspace × List Answer)
  | [] => .finish (ws, [])
  | c :: rest => do
    let (ws', a) ← ws.exec c
    let (ws'', as) ← execAll ws' rest
    return (ws'', a :: as)

end Workspace

/-- The answers of one rank to a program. -/
def Seat.perform (me : Seat) (program : List Command) : Routine (List Answer) :=
  (·.2) <$> (Workspace.empty me).execAll program

end ShardedVector
