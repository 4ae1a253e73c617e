/-
# Conversations of a whole group

Every rank of a group enters a collective, and each of them runs the routine written here.
A conversation has two stages.  First every pair exchanges a size header on the tag of the
conversation; then the non-empty payloads follow on the next tag.  A rank that cannot
announce a payload sends the reserved header in its place, so that the receiver fails and
does not wait.

* `exchange`: one buffer from every rank to every rank.  Every message that is announced is
  waited for, also after a failure; of several failures the first one is reported, the ones
  on the own side before those of the peers, and the peers in rank order.
* `gatherTo`: one buffer from every rank to a root.  The root gives up on the first bad
  payload; the other ranks wait for nothing.
* the typed forms carry rows of records, and `reduceAll` folds one number of each rank.
-/
import ShardedVector.Reduction
import ShardedVector.Routine
import ShardedVector.Wire

namespace ShardedVector.Collective

/-! ## 1. Sending to and hearing from many ranks -/

/-- Sends a message to each rank of a list, in the order of the list. -/
def sendEach (tag : Tag) (message : Nat → Bytes) : List Nat → Routine Unit
  | [] => .finish ()
  | p :: rest => .send p tag (message p) (sendEach tag message rest)

/-- Runs a routine for each rank of a list, to the end of the list whatever fails.  The values
in the order of the list, or the first failure. -/
def forEach {α : Type} (routine : Nat → Routine (Except Error α)) :
    List Nat → Routine (Except Error (List α))
  | [] => .finish (.ok [])
  | p :: rest => do
    let first ← routine p
    let others ← forEach routine rest
    return do
      let a ← first
      let as ← others
      return a :: as

/-! ## 2. Size headers -/

/-- The bytes of the header of a payload of `n` bytes. -/
def headerBytes (n : Nat) : Bytes := Record.encode (Count.header n)

/-- The number of bytes that `peer` announced, read from its header message. -/
def readCount (peer : Nat) : Option Bytes → Except Error Nat
  | none => .error (.communication peer .noSize)
  | some message =>
    match Wire.decodeOne Count peer message with
    | .error e => .error e
    | .ok count =>
      match count.get? with
      | some n => .ok n
      | none => .error (.communication peer .oversized)

/-- Waits for the header of a peer. -/
def receiveCount (tag : Tag) (peer : Nat) : Routine (Except Error Nat) :=
  .receive peer tag (Record.width Count) fun answer => .finish (readCount peer answer)

/-- Refuses the first payload of a list that cannot be announced. -/
def announceable (length : Nat → Nat) : List Nat → Except Error Unit
  | [] => .ok ()
  | p :: rest =>
    match Count.forPeer p (length p) with
    | .ok _ => announceable length rest
    | .error e => .error e

/-- Exchanges size headers with every peer: how many bytes each rank announced to this one,
in rank order, with nothing for the rank itself. -/
def exchangeCounts (me : Seat) (tag : Tag) (length : Nat → Nat) : Attempt (List Nat) :=
  ExceptT.mk do
    sendEach tag (fun p => headerBytes (length p)) me.peers
    let counts ← forEach (fun p =>
      if p = me.rank then .finish (.ok 0) else receiveCount tag p) me.ranks
    return do
      announceable length me.peers
      counts

/-! ## 3. Payloads -/

/-- The payload of `n` bytes that `peer` announced, read from its message. -/
def readPayload (peer n : Nat) : Option Bytes → Except Error Bytes
  | none => .error (.communication peer .noPayload)
  | some message =>
    if message.length = n then .ok message
    else .error (.communication peer (.payload n message.length))

/-- Waits for an announced payload; an empty one is not sent. -/
def receivePayload (tag : Tag) (peer n : Nat) : Routine (Except Error Bytes) :=
  if n = 0 then .finish (.ok [])
  else .receive peer tag n fun answer => .finish (readPayload peer n answer)

/-- Exchanges the payloads after the counts are known. -/
def exchangePayloads (me : Seat) (tag : Tag) (outgoing : Nat → Bytes) (counts : List Nat) :
    Attempt (List Bytes) :=
  ExceptT.mk do
    sendEach tag outgoing (me.peers.filter fun p => !(outgoing p).isEmpty)
    forEach (fun p =>
      if p = me.rank then .finish (.ok (outgoing p))
      else receivePayload tag p (counts.getD p 0)) me.ranks

/-- Exchanges one buffer with every peer.  The received buffers in rank order, with the own
outgoing buffer in the own place. -/
def exchange (me : Seat) (tag : Tag) (outgoing : Nat → Bytes) : Attempt (List Bytes) := do
  let counts ← exchangeCounts me tag fun p => (outgoing p).length
  exchangePayloads me tag.payload outgoing counts

/-! ## 4. Collectives on bytes -/

/-- Every rank contributes a buffer and receives all of them in rank order. -/
def allGather (me : Seat) (tag : Tag) (buffer : Bytes) : Attempt (List Bytes) :=
  exchange me tag fun _ => buffer

/-- Every rank sends one buffer to each rank and receives one from each. -/
def allToAll (me : Seat) (tag : Tag) (buffers : List Bytes) : Attempt (List Bytes) :=
  if buffers.length = me.size then exchange me tag fun p => buffers.getD p []
  else throw (.dimensionMismatch .allToAll me.size buffers.length)

/-- Every rank waits until every rank is there. -/
def barrier (me : Seat) (tag : Tag) : Attempt Unit := do
  let _ ← allGather me tag []
  return ()

/-- The part of a rank that is not the root: header and payload go out unconditionally. -/
def gatherSend (tag : Tag) (root : Nat) (buffer : Bytes) : Attempt (List Bytes) :=
  ExceptT.mk do
    sendEach tag (fun _ => headerBytes buffer.length) [root]
    sendEach tag.payload (fun _ => buffer) (if buffer.isEmpty then [] else [root])
    return do
      announceable (fun _ => buffer.length) [root]
      return []

/-- The payload of `n` bytes that `peer` announced to the root.  A message that never came
counts as one of no bytes. -/
def readGathered (peer n : Nat) (answer : Option Bytes) : Except Error Bytes :=
  let message := answer.getD []
  if answer.isSome ∧ message.length = n then .ok message
  else .error (.communication peer (.payload n message.length))

/-- Waits for the payloads of a list of ranks, up to the first bad one. -/
def gatherPayloads (me : Seat) (tag : Tag) (buffer : Bytes) (counts : List Nat) :
    List Nat → Attempt (List Bytes)
  | [] => return []
  | p :: rest => do
    let payload ←
      if p = me.rank then pure buffer
      else if counts.getD p 0 = 0 then pure []
      else ExceptT.mk (.receive p tag (counts.getD p 0) fun answer =>
        .finish (readGathered p (counts.getD p 0) answer))
    let others ← gatherPayloads me tag buffer counts rest
    return payload :: others

/-- The part of the root: all headers, then the payloads. -/
def gatherReceive (me : Seat) (tag : Tag) (buffer : Bytes) : Attempt (List Bytes) := do
  let counts ← ExceptT.mk (forEach (fun p =>
    if p = me.rank then .finish (.ok 0) else receiveCount tag p) me.ranks)
  gatherPayloads me tag.payload buffer counts me.ranks

/-- Collects the buffers of all ranks on `root`, in rank order; the other ranks receive
nothing. -/
def gatherTo (me : Seat) (tag : Tag) (root : Nat) (buffer : Bytes) : Attempt (List Bytes) :=
  if me.size ≤ root then throw (.indexOutOfRange root me.size)
  else if me.rank = root then gatherReceive me tag buffer
  else gatherSend tag root buffer

/-! ## 5. Collectives on records -/

/-- The records in the buffers of ranks `first`, `first + 1`, … -/
def decodeFrom (α : Type) [Record α] (first : Nat) : List Bytes → Except Error (List (List α))
  | [] => .ok []
  | bs :: rest => do
    let items ← Wire.decodeAll α first bs
    let others ← decodeFrom α (first + 1) rest
    return items :: others

section Records

variable {α : Type} [Record α]

/-- Every rank contributes a row of records and receives all of them in rank order. -/
def allGatherRecords (me : Seat) (tag : Tag) (items : List α) : Attempt (List (List α)) := do
  let buffers ← allGather me tag (Wire.encodeAll items)
  Attempt.ofExcept (decodeFrom α 0 buffers)

/-- Every rank sends one row of records to each rank and receives one from each. -/
def allToAllRecords (me : Seat) (tag : Tag) (rows : List (List α)) :
    Attempt (List (List α)) := do
  let buffers ← allToAll me tag (rows.map Wire.encodeAll)
  Attempt.ofExcept (decodeFrom α 0 buffers)

/-- Collects the rows of records of all ranks on `root`. -/
def gatherRecordsTo (me : Seat) (tag : Tag) (root : Nat) (items : List α) :
    Attempt (List (List α)) := do
  let buffers ← gatherTo me tag root (Wire.encodeAll items)
  Attempt.ofExcept (decodeFrom α 0 buffers)

end Records

/-! ## 6. Reductions -/

/-- Folds one number of each rank, in rank order.  A rank that is alone keeps its number. -/
def reduceAll (me : Seat) (tag : Tag) (op : Reduction) (x : Binary64) : Attempt Binary64 :=
  if me.size = 1 then return x
  else do
    let rows ← allGatherRecords me tag [x]
    return op.fold rows.flatten

end ShardedVector.Collective
