/-
# Everything that a storage is asked for

`Request` lists what a storage offers: changes of its entries, access to one entry by which it may
be changed, questions, and a clone with which the run goes on.  `handle` says what is left of the
storage and what is replied.

Sixteen edits and visits of any kind come down to few things: a storage is reset, all of its entries
are visited, or one of them is accessed.  `effect_change` says so once, together with the reply:
whatever is kept by these is kept by every change.  A change that is refused has done nothing of
this, unless it is refused for an entry that is not there (`Change.Misses`): then the access has
already been made.
-/
import ShardedVector.Proofs.Storage.Remembered

namespace ShardedVector.Storage

/-! ## 1. Questions -/

/-- What a storage can be asked without changing its entries. -/
inductive Question where
  | backend
  | size
  | entry (i : Nat)
  /-- All entries, as a copy of them or while the array is checked out. -/
  | entries
  | view
  | fold (f : Binary64 → Binary64 → Binary64) (seed : Binary64)
  | sum
  | min
  | max
  | norm (k : Norm)
  | dot (other : Storage)
  | counter
  | text

/-- What comes back from a request. -/
inductive Reply where
  | backend (b : Backend)
  | size (n : Nat)
  | entry (x : Option Binary64)
  | entries (xs : List Binary64)
  | view (xs : Except Error (List Binary64))
  | number (x : Binary64)
  | dot (x : Except Error Binary64)
  | counter (count : UInt64)
  | text (t : String)
  /-- A change was made or refused. -/
  | done (answer : Except Error Unit)
  /-- The entry that was handed out for a change, if it is there. -/
  | handed (x : Option Binary64)
  | copied

/-- The reply to a question. -/
def answer (s : Storage) : Question → Reply
  | .backend => .backend s.backend
  | .size => .size s.size
  | .entry i => .entry (s.entry? i)
  | .entries => .entries s.toList
  | .view => .view s.view
  | .fold f seed => .number (s.fold f seed)
  | .sum => .number s.localSum
  | .min => .number s.localMin
  | .max => .number s.localMax
  | .norm k => .number (s.normPartial k).1
  | .dot other => .dot (s.localDot other)
  | .counter => .counter s.counter
  | .text => .text s.debugText

/-- The storage after a question: a norm may be remembered. -/
def asked (s : Storage) : Question → Storage
  | .norm k => (s.normPartial k).2
  | _ => s

namespace Reply

/-- Why a request was refused. -/
def error? : Reply → Option Error
  | .done (.error e) | .view (.error e) | .dot (.error e) => some e
  | _ => none

/-- A change was made, or there is an entry that may now be changed. -/
def Granted : Reply → Prop
  | .done (.ok ()) | .handed (some _) => True
  | _ => False

end Reply

/-! ## 2. Requests -/

/-- What can be done with a storage; visitors have a memory of their own. -/
inductive Request (σ : Type) where
  | change (c : Change σ)
  /-- An entry is handed out, and is changed if it is there. -/
  | access (i : Nat) (f : Binary64 → Binary64)
  | ask (q : Question)
  /-- A clone is made, and is what is asked from now on. -/
  | copy

variable {σ : Type}

/-- A request that changes no entry. -/
def Request.Asks : Request σ → Prop
  | .ask _ | .copy => True
  | .change _ | .access _ _ => False

/-- The storage and the visitors' memory after a request, and the reply. -/
def handle (s : Storage) (memory : σ) : Request σ → (Storage × σ) × Reply
  | .change c => ((s.change memory c).1, .done (s.change memory c).2)
  | .access i f => ((s.modify i f, memory), .handed (s.entry? i))
  | .ask q => ((s.asked q, memory), s.answer q)
  | .copy => ((s.copy, memory), .copied)

/-- The storage and the visitors' memory after requests, one after the other. -/
def handleAll (s : Storage) (memory : σ) : List (Request σ) → Storage × σ
  | [] => (s, memory)
  | r :: rest => handleAll (s.handle memory r).1.1 (s.handle memory r).1.2 rest

/-! ## 3. What a change can do -/

/-- An access to an entry that is not there, among so many. -/
def Change.Misses (size : Nat) : Change σ → Prop
  | .edit (.setEntry i _) | .edit (.addEntry i _) => size ≤ i
  | _ => False

/-- A request that is refused for an entry that is not there. -/
def Request.Misses (size : Nat) : Request σ → Prop
  | .change c => c.Misses size
  | .access _ _ | .ask _ | .copy => False

/-- A storage after a change. -/
inductive Rewritten (s : Storage) : Storage → Prop
  | reset (n : Nat) : Rewritten s (s.reset n)
  | update (f : Nat → Binary64 → Binary64) : Rewritten s (s.update f)
  | visit {σ : Type} (f : Nat → Binary64 → StateM σ Binary64) (memory : σ) :
      Rewritten s ((s.visit f).run memory).1
  | modify (i : Nat) (f : Binary64 → Binary64) : Rewritten s (s.modify i f)
  /-- A window does not change how entries are kept, so only one backend comes to this. -/
  | view {i : Nat} {x : Binary64} {s' : Storage} (h : s.setInView i x = .ok s') : Rewritten s s'

/-- What an attempt at a change can come to, by whether an entry is missed. -/
inductive Effect (s : Storage) (memory : σ) (misses : Prop) :
    (Storage × σ) × Except Error Unit → Prop
  | made {s' : Storage} {memory' : σ} (hthere : ¬misses) (h : s.Rewritten s') :
      Effect s memory misses ((s', memory'), .ok ())
  /-- The access has been made when the entry turns out not to be there. -/
  | missed (hmisses : misses) (i : Nat) (f : Binary64 → Binary64) (hi : s.size ≤ i) :
      Effect s memory misses ((s.modify i f, memory), .error (.indexOutOfRange i s.size))
  | refused (hthere : ¬misses) (e : Error) : Effect s memory misses ((s, memory), .error e)

variable (s : Storage) (memory : σ)

theorem effect_modifyEntry (i : Nat) (f : Binary64 → Binary64) :
    s.Effect memory (s.size ≤ i) (((s.modifyEntry i f).1, memory), (s.modifyEntry i f).2) := by
  by_cases hi : i < s.size
  · rw [modifyEntry, if_pos hi]
    exact .made (Nat.not_le_of_lt hi) (.modify i f)
  · rw [modifyEntry, if_neg hi]
    exact .missed (Nat.le_of_not_lt hi) i f (Nat.le_of_not_lt hi)

/-- An attempt that leaves a storage only if it succeeds. -/
theorem effect_settleWith {outcome : Except Error Storage}
    (h : ∀ s', outcome = .ok s' → s.Rewritten s') :
    s.Effect memory False (((s.settleWith outcome).1, memory), (s.settleWith outcome).2) := by
  cases outcome with
  | ok s' => exact .made id (h s' rfl)
  | error e => exact .refused id e

variable {s} in
theorem rewritten_zip {op : Operation} {f : Binary64 → Binary64 → Binary64}
    {values : List Binary64} {s' : Storage} (hok : s.zip op f values = .ok s') :
    s.Rewritten s' := by
  obtain ⟨g, rfl⟩ := exists_update_of_zip hok
  exact .update g

/-- **What a change can do.**  The operands are looked at before anything is done, and an entry is
accessed before it is known to be there. -/
theorem effect_change (c : Change σ) :
    s.Effect memory (c.Misses s.size) (s.change memory c) := by
  cases c with
  | visit f => exact .made id (.visit f memory)
  | edit e =>
    cases e with
    | reset n => exact .made id (.reset n)
    | setEntry i x => exact effect_modifyEntry s memory i _
    | addEntry i x => exact effect_modifyEntry s memory i _
    | setLocal values =>
      rw [change, edit_setLocal]
      exact effect_settleWith s memory fun _ => rewritten_zip
    | addLocal values => exact effect_settleWith s memory fun _ => rewritten_zip
    | axpy a other => exact effect_settleWith s memory fun _ => rewritten_zip
    | add other =>
      exact effect_settleWith s memory fun s' (h : s.axpy .one other = .ok s') => rewritten_zip h
    | multiply other => exact effect_settleWith s memory fun _ => rewritten_zip
    | divide other => exact effect_settleWith s memory fun _ => rewritten_zip
    | setInView i x => exact effect_settleWith s memory fun _ => .view
    | zero =>
      rw [change, edit_zero]
      exact .made id (.update _)
    | setAll x =>
      rw [change, edit_setAll]
      exact .made id (.update _)
    | scale a => exact .made id (.update _)
    | shift a => exact .made id (.update _)
    | abs => exact .made id (.update _)
    | update f => exact .made id (.update f)

end ShardedVector.Storage
