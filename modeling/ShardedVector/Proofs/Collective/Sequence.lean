/-
# Collectives one after the other

The ranks of a group go through a list of collectives, all in the same order, each at its own
pace: a rank that sends to a root waits for nobody and may be many collectives ahead.  Tags may
be repeated, lie next to each other or wrap around, so messages of several collectives may wait
in one queue.  `concludes_attendAll` says that none of this is ever noticed.
-/
import Mathlib.Algebra.Group.Nat.Defs
import ShardedVector.Proofs.Collective.Root

namespace ShardedVector.Collective

/-- A collective that all ranks of a group enter, with what each of them brings: a buffer, or a
buffer for each rank. -/
inductive Joint where
  | allGather (tag : Tag) (buffer : Nat → Bytes)
  | allToAll (tag : Tag) (buffers : Nat → Nat → Bytes)
  | gatherTo (tag : Tag) (root : Nat) (buffer : Nat → Bytes)
  | barrier (tag : Tag)

namespace Joint

/-- What rank `r` of a group does in a collective. -/
def attempt (size r : Nat) : Joint → Attempt (List Bytes)
  | allGather tag buffer => Collective.allGather (.ofRank r size) tag (buffer r)
  | allToAll tag buffers =>
      Collective.allToAll (.ofRank r size) tag ((List.range size).map (buffers r))
  | gatherTo tag root buffer => Collective.gatherTo (.ofRank r size) tag root (buffer r)
  | barrier tag => do
    Collective.barrier (.ofRank r size) tag
    return []

/-- What rank `r` is to obtain from it: every rank the buffers of all ranks, the buffers that
all ranks have for it, the buffers of all ranks on the root alone, nothing. -/
def expected (size r : Nat) : Joint → List Bytes
  | allGather _ buffer => (List.range size).map buffer
  | allToAll _ buffers => (List.range size).map fun s => buffers s r
  | gatherTo _ root buffer => if r = root then (List.range size).map buffer else []
  | barrier _ => []

/-- The root is a rank of the group, and every buffer is short enough for a size header. -/
def Announceable (size : Nat) : Joint → Prop
  | allGather _ buffer => ∀ r < size, (buffer r).length < 2 ^ 32 - 1
  | allToAll _ buffers => ∀ r < size, ∀ s < size, (buffers r s).length < 2 ^ 32 - 1
  | gatherTo _ root buffer => root < size ∧ ∀ r < size, (buffer r).length < 2 ^ 32 - 1
  | barrier _ => True

end Joint

/-- Rank `r` goes through a list of collectives and keeps what each of them came to. -/
def attendAll (size : Nat) (js : List Joint) (r : Nat) :
    Routine (List (Except Error (List Bytes))) :=
  js.mapM fun j => (j.attempt size r).outcome

theorem le_longestPayload {n : Nat} (h : n < 2 ^ 32 - 1) : n ≤ longestPayload := by
  unfold longestPayload
  omega

/-- One collective. -/
theorem converses_attempt (group size : Nat) {j : Joint} (h : j.Announceable size) :
    Converses group size (fun r => (j.attempt size r).outcome)
      (fun r => .ok (j.expected size r)) := by
  cases j with
  | allGather tag buffer =>
    exact converses_allGather group size tag buffer fun r hr => le_longestPayload (h r hr)
  | allToAll tag buffers =>
    exact converses_allToAll group size tag buffers fun r hr p hp _ =>
      le_longestPayload (h p hp r hr)
  | gatherTo tag root buffer =>
    exact converses_gatherTo group tag h.1 buffer fun r hr _ => le_longestPayload (h.2 r hr)
  | barrier tag =>
    exact Converses.bind_ok (converses_barrier group size tag) (Converses.finish group size _)

/-- All of them. -/
theorem converses_attendAll (group size : Nat) {js : List Joint}
    (h : ∀ j ∈ js, j.Announceable size) :
    Converses group size (attendAll size js)
      (fun r => js.map fun j => .ok (j.expected size r)) := by
  induction js with
  | nil => exact Converses.finish group size fun _ => []
  | cons j js ih =>
    have hrest := ih fun j' hj' => h j' (List.mem_cons_of_mem j hj')
    refine ((converses_attempt group size (h j (by simp))).bind
      (f := fun r outcome => attendAll size js r >>= fun others => .finish (outcome :: others))
      (hrest.bind (Converses.finish group size _))).of_eq fun r _ => ?_
    exact List.mapM_cons

/-- **Collectives that are entered in the same order never cross.**  Under every interleaving
no rank is stranded, each collective succeeds on every rank with what the ranks brought to that
collective, and no message is left in the end. -/
theorem concludes_attendAll (group size : Nat) (js : List Joint)
    (h : ∀ j ∈ js, j.Announceable size) :
    (Ensemble.ofGroup group size (attendAll size js)).Concludes
      ((List.range size).map fun r => js.map fun j => .ok (j.expected size r)) :=
  (converses_attendAll group size h).concludes

/-- Three ranks gather twice on the last tag, with an exchange on the tag of its payloads and a
barrier in between. -/
theorem concludes_attendAll_three :
    let js : List Joint :=
      [.gatherTo ⟨0xffff⟩ 1 fun r => List.replicate r 7,
        .allToAll ⟨0⟩ fun r s => [UInt8.ofNat (10 * r + s)],
        .barrier ⟨0xffff⟩,
        .gatherTo ⟨0xffff⟩ 2 fun r => [UInt8.ofNat r]]
    (∀ j ∈ js, j.Announceable 3) ∧
      (Ensemble.ofGroup 1 3 (attendAll 3 js)).Concludes
        [[.ok [], .ok [[0], [10], [20]], .ok [], .ok []],
          [.ok [[], [7], [7, 7]], .ok [[1], [11], [21]], .ok [], .ok []],
          [.ok [], .ok [[2], [12], [22]], .ok [], .ok [[0], [1], [2]]]] := by
  intro js
  have h : ∀ j ∈ js, j.Announceable 3 := by
    intro j hj
    simp only [js, List.mem_cons, List.not_mem_nil, or_false] at hj
    rcases hj with rfl | rfl | rfl | rfl
    · refine ⟨by decide, fun r hr => ?_⟩
      rw [List.length_replicate]
      omega
    · exact fun _ _ _ _ => by simp
    · trivial
    · exact ⟨by decide, fun _ _ => by simp⟩
  exact ⟨h, concludes_attendAll 1 3 js h⟩

end ShardedVector.Collective
