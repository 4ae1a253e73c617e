/-
# Gathering from peers that fail

What one rank makes of a gather when its peers send anything: requests for indices that the rank
does not own, answers of another length, and every fault of an exchange.

* A gather is answered in full before anything is refused: whatever was asked, each rank has as many
  answers as it has asked for, and a NaN stands for an index that is not here (`getElem?_answer`).
* The two checks that follow are searches for a first fault (`searches_checkRequests`,
  `searches_checkAnswers`).  The own row passes both.
* When they pass, every index takes the next answer of its owner (`getElem?_assemble`).

`against_gatherValues` puts them together.
-/
import ShardedVector.Proofs.Collective.Faults
import ShardedVector.Proofs.Shard.Reachable

namespace ShardedVector

/-! ## 1. Rows that are exchanged -/

namespace Collective

variable {α : Type} [Record α]

/-- Each buffer is read for itself. -/
theorem decodeFrom_spec :
    ∀ {first : Nat} {buffers : List Bytes} {rows : List (List α)},
      decodeFrom α first buffers = .ok rows →
        rows.length = buffers.length ∧ ∀ p bytes, buffers[p]? = some bytes →
          ∃ row, rows[p]? = some row ∧ Wire.decodeAll α (first + p) bytes = .ok row
  | first, [], rows, h => by
    obtain rfl := Except.ok.inj h
    exact ⟨rfl, nofun⟩
  | first, bytes :: rest, rows, h => by
    rw [decodeFrom] at h
    cases hfirst : Wire.decodeAll α first bytes with
    | error e =>
      rw [hfirst] at h
      cases h
    | ok row =>
      cases hrest : decodeFrom α (first + 1) rest with
      | error e =>
        rw [hfirst, hrest] at h
        cases h
      | ok others =>
        rw [hfirst, hrest] at h
        obtain rfl := Except.ok.inj h
        obtain ⟨hlen, hothers⟩ := decodeFrom_spec hrest
        refine ⟨congrArg (· + 1) hlen, fun p bs hbs => ?_⟩
        cases p with
        | zero =>
          obtain rfl := Option.some.inj hbs
          exact ⟨row, rfl, hfirst⟩
        | succ p =>
          obtain ⟨row', hrow, hdecode⟩ := hothers p bs hbs
          refine ⟨row', hrow, ?_⟩
          rwa [Nat.add_assoc, Nat.add_comm 1 p] at hdecode

variable {me : Seat} {tag : Tag} {heard : Nat → Tag → Option Bytes}

/-- **Rows that are exchanged against any answers.**  There is one for each rank; the own one is the
one that was to be sent, and the one of a peer is short enough to be sent back. -/
theorem against_allToAllRecords (hme : me.rank < me.size) {rows got : List (List α)}
    (hrows : rows.length = me.size)
    (h : ((allToAllRecords me tag rows).against heard).value = .ok got) :
    got.length = me.size ∧ got.getD me.rank [] = rows.getD me.rank [] ∧
      ∀ p ∈ me.peers, (got.getD p []).length * Record.width α ≤ longestPayload := by
  have hall : allToAll me tag (rows.map Wire.encodeAll) =
      exchange me tag fun p => (rows.map Wire.encodeAll).getD p [] := by
    rw [allToAll, if_pos (by rwa [List.length_map])]
  have refused {p : Nat} {found : MessageFault}
      (hvalue : ((exchange me tag fun p => (rows.map Wire.encodeAll).getD p []).against
        heard).value = .error (.communication p found)) : False := by
    rw [allToAllRecords, hall, Attempt.against_bind_of_error hvalue] at h
    cases h
  rcases against_exchange_cases me tag (fun p => (rows.map Wire.encodeAll).getD p []) heard with
    ⟨hpass, hnone, hwent⟩ | ⟨p, found, -, -, hwent⟩ | ⟨p, found, -, -, hwent⟩
  · rw [allToAllRecords, hall, Attempt.against_bind_of_ok (congrArg (·.value) hwent)] at h
    obtain ⟨hlen, hrow⟩ := decodeFrom_spec h
    have hpayloads := (payloadsPass_iff me tag _ heard hpass).mpr hnone
    refine ⟨hlen.trans (length_received me tag _ heard), ?_, fun p hp => ?_⟩
    · obtain ⟨row, hgot, hdecode⟩ := hrow me.rank _ (received_self me tag _ heard hme)
      have hown : rows[me.rank]? = some (rows.getD me.rank []) := by
        rw [List.getD_eq_getElem?_getD, List.getElem?_eq_getElem (hrows ▸ hme), Option.getD_some]
      rw [List.getD_eq_getElem?_getD, List.getElem?_map, hown, Option.map_some, Option.getD_some,
        Wire.decodeAll_encodeAll] at hdecode
      obtain rfl := Except.ok.inj hdecode
      rw [List.getD_eq_getElem?_getD, hgot, Option.getD_some]
    · obtain ⟨n, hn⟩ := hpass.2 p hp
      have hreceived := received_peer me tag (fun p => (rows.map Wire.encodeAll).getD p []) heard
        hpayloads hp hn
      have hbytes : ∃ bytes, (received me tag (fun p => (rows.map Wire.encodeAll).getD p [])
          heard)[p]? = some bytes ∧ bytes.length = n := by
        rw [hreceived]
        split
        · next hzero => exact ⟨[], rfl, hzero.symm⟩
        · next hzero => exact hpayloads p hp n hn (Nat.pos_of_ne_zero hzero)
      obtain ⟨bytes, hbuffer, hcount⟩ := hbytes
      obtain ⟨row, hgot, hdecode⟩ := hrow p bytes hbuffer
      rw [List.getD_eq_getElem?_getD, hgot, Option.getD_some, Wire.length_of_decodeAll hdecode,
        hcount]
      exact hn.le_longestPayload
  · exact (refused (congrArg (·.value) hwent)).elim
  · exact (refused (congrArg (·.value) hwent)).elim

end Collective

namespace Shard

open Collective (FirstFault Searches judgeAll searches_judgeAll pairwise_ranks)

/-! ## 2. Answers -/

/-- **A rank has an entry for an index exactly when the index is in its range.** -/
theorem WellFormed.entryAt?_eq {v : Shard} (h : v.WellFormed) (i : UInt64) :
    v.entryAt? i =
      if v.localRange.start ≤ i ∧ i < v.localRange.stop then
        v.toList[i.toNat - v.localRange.start.toNat]?
      else none := by
  by_cases hstart : v.localRange.start ≤ i
  · have hplace := UInt64.toNat_sub_of_le _ _ hstart
    have hstartNat := UInt64.le_iff_toNat_le.mp hstart
    have hlen := h.length
    rw [entryAt?, if_neg (UInt64.not_lt.mpr hstart), Storage.entry?_eq_getElem? h.sound, hplace]
    by_cases hstop : i < v.localRange.stop
    · rw [if_pos ⟨hstart, hstop⟩]
      rfl
    · have hstopNat := UInt64.le_iff_toNat_le.mp (UInt64.not_lt.mp hstop)
      rw [if_neg fun hin => hstop hin.2]
      refine List.getElem?_eq_none ?_
      change v.toList.length ≤ _
      omega
  · rw [entryAt?, if_pos (UInt64.not_le.mp hstart), if_neg fun hin => hstart hin.1]

theorem WellFormed.isSome_entryAt? {v : Shard} (h : v.WellFormed) (i : UInt64) :
    (v.entryAt? i).isSome ↔ v.localRange.start ≤ i ∧ i < v.localRange.stop := by
  rw [h.entryAt?_eq]
  split
  · next hin =>
    have hstart := UInt64.le_iff_toNat_le.mp hin.1
    have hstop := UInt64.lt_iff_toNat_lt.mp hin.2
    have hlen := h.length
    rw [isSome_getElem?]
    exact iff_of_true (by omega) hin
  · next hout => exact iff_of_false nofun hout

/-- The own entry for an index in the own range, and a NaN for every other one. -/
theorem getElem?_answer {v : Shard} (h : v.WellFormed) {wanted : List UInt64} {k : Nat}
    {i : UInt64} (hk : wanted[k]? = some i) :
    (v.answer wanted)[k]? =
      if v.localRange.start ≤ i ∧ i < v.localRange.stop then
        v.toList[i.toNat - v.localRange.start.toNat]?
      else some .nan := by
  have hentry := h.isSome_entryAt? i
  rw [answer, List.getElem?_map, hk, Option.map_some, h.entryAt?_eq]
  rw [h.entryAt?_eq] at hentry
  split
  · next hin =>
    rw [if_pos hin] at hentry
    obtain ⟨x, hx⟩ := Option.isSome_iff_exists.mp (hentry.mpr hin)
    rw [hx, Option.getD_some]
  · rfl

/-! ## 3. What is wrong with a row -/

/-- The first index of a request that is not in the own range. -/
def requestFault (v : Shard) (wanted : List UInt64) : Option MessageFault :=
  (wanted.find? fun i => decide ¬(v.localRange.start ≤ i ∧ i < v.localRange.stop)).map
    fun i => .unowned i.toNat

/-- Answers in another number than asked for. -/
def answerFault (asked : List UInt64) (answers : List Binary64) : Option MessageFault :=
  if answers.length = asked.length then none else some (.answers asked.length answers.length)

theorem requestFault_eq_none_iff {v : Shard} {wanted : List UInt64} :
    v.requestFault wanted = none ↔
      ∀ i ∈ wanted, v.localRange.start ≤ i ∧ i < v.localRange.stop := by
  rw [requestFault, Option.map_eq_none_iff, List.find?_eq_none]
  exact forall₂_congr fun i _ => by rw [decide_eq_true_iff, not_not]

theorem answerFault_eq_none_iff {asked : List UInt64} {answers : List Binary64} :
    answerFault asked answers = none ↔ answers.length = asked.length := by
  simp [answerFault]

/-- The requests are judged rank by rank, those that are left from the rank `first` on. -/
theorem checkRequests_eq_judgeAll {v : Shard} (h : v.WellFormed) (rows : List (List UInt64)) :
    ∀ n first : Nat, first + n = rows.length →
      v.checkRequests first (rows.drop first) =
        judgeAll (fun p => v.requestFault (rows.getD p [])) (List.range' first n)
  | 0, first, hn => by
    have hend : rows.length ≤ first := Nat.le_of_eq hn.symm
    rw [List.drop_eq_nil_of_le hend]
    rfl
  | n + 1, first, hn => by
    have hlt : first < rows.length := by omega
    have hrow : rows.getD first [] = rows[first] := List.getD_eq_getElem _ _ hlt
    have hunowned : (fun i => (v.entryAt? i).isNone) = fun i =>
        decide ¬(v.localRange.start ≤ i ∧ i < v.localRange.stop) := by
      funext i
      rw [← Option.not_isSome, Bool.eq_iff_iff, Bool.not_eq_true', decide_eq_true_iff,
        ← h.isSome_entryAt? i, Bool.not_eq_true]
    -- the rows are dropped one by one, so that every row keeps the number of its rank
    rw [List.drop_eq_getElem_cons hlt, checkRequests, hunowned,
      checkRequests_eq_judgeAll h rows n (first + 1) (by omega), List.range'_succ, judgeAll, hrow,
      requestFault]
    cases rows[first].find? fun i =>
      decide ¬(v.localRange.start ≤ i ∧ i < v.localRange.stop) <;> rfl

/-- So are the answers. -/
theorem checkAnswers_eq_judgeAll (requests : List (List UInt64)) (answers : List (List Binary64)) :
    ∀ n first : Nat, first + n = requests.length →
      checkAnswers first (requests.drop first) (answers.drop first) =
        judgeAll (fun p => answerFault (requests.getD p []) (answers.getD p []))
          (List.range' first n)
  | 0, first, hn => by
    have hend : requests.length ≤ first := Nat.le_of_eq hn.symm
    rw [List.drop_eq_nil_of_le hend]
    rfl
  | n + 1, first, hn => by
    have hlt : first < requests.length := by omega
    have hrow : requests.getD first [] = requests[first] := List.getD_eq_getElem _ _ hlt
    have hhead : (answers.drop first).headD [] = answers.getD first [] := by
      rw [List.headD_eq_head?_getD, List.head?_drop, List.getD_eq_getElem?_getD]
    rw [List.drop_eq_getElem_cons hlt, checkAnswers, hhead, List.tail_drop,
      checkAnswers_eq_judgeAll requests answers n (first + 1) (by omega), List.range'_succ,
      judgeAll, hrow, answerFault]
    by_cases hlen : (answers.getD first []).length = requests[first].length
    · simp only [if_pos hlen]
    · simp only [if_neg hlen]

/-- The requests are searched for the lowest peer that asked for what is not here; the own request
does not count. -/
theorem searches_checkRequests {v : Shard} (h : v.WellFormed) {rows : List (List UInt64)}
    (hlen : rows.length = v.seat.size)
    (hown : v.requestFault (rows.getD v.seat.rank []) = none) :
    Searches v.seat.peers (fun p => v.requestFault (rows.getD p [])) (v.checkRequests 0 rows)
      () := by
  have hjudge := checkRequests_eq_judgeAll h rows v.seat.size 0 (by rw [hlen, Nat.zero_add])
  rw [List.drop_zero, ← List.range_eq_range'] at hjudge
  rw [hjudge]
  exact (searches_judgeAll _ (pairwise_ranks v.seat)).peers hown

/-- The answers are searched for the lowest peer that gave another number of them. -/
theorem searches_checkAnswers (me : Seat) {requests : List (List UInt64)}
    {answers : List (List Binary64)} (hlen : requests.length = me.size)
    (hown : answerFault (requests.getD me.rank []) (answers.getD me.rank []) = none) :
    Searches me.peers (fun p => answerFault (requests.getD p []) (answers.getD p []))
      (checkAnswers 0 requests answers) () := by
  have hjudge := checkAnswers_eq_judgeAll requests answers me.size 0 (by rw [hlen, Nat.zero_add])
  rw [List.drop_zero, List.drop_zero, ← List.range_eq_range'] at hjudge
  rw [hjudge]
  exact (searches_judgeAll _ (pairwise_ranks me)).peers hown

/-! ## 4. The order of the list -/

/-- Every index takes the next answer of its owner: as many are taken before it as there are
earlier indices of the same owner. -/
theorem getElem?_assemble :
    ∀ {owners : List Nat} {answers : List (List Binary64)},
      (∀ o, owners.count o ≤ (answers.getD o []).length) → ∀ {k owner : Nat},
        owners[k]? = some owner →
          (assemble owners answers)[k]? = (answers.getD owner [])[(owners.take k).count owner]?
  | [], _, _, _, _, hk => nomatch hk
  | first :: rest, answers, h, k, owner, hk => by
    obtain ⟨x, others, hfirst, hassemble, ⟨hself, hother⟩, henough⟩ := assemble_cons h
    rw [hassemble]
    cases k with
    | zero =>
      obtain rfl := Option.some.inj hk
      rw [hfirst]
      rfl
    | succ k =>
      have ih := getElem?_assemble henough hk
      rw [List.getElem?_cons_succ, ih, List.take_succ_cons]
      -- the first answer of the owner is gone exactly when the first index was its own
      by_cases howner : first = owner
      · subst howner
        rw [hself, hfirst, List.count_cons_self, List.getElem?_cons_succ]
      · rw [hother owner howner, List.count_cons_of_ne howner]

/-- An owner is counted as often as it owns an index of the list. -/
theorem count_map_owner {v : Shard} {owner : UInt64 → Nat} {indices : List UInt64}
    (howner : ∀ i ∈ indices, v.ownerOf? i = some (owner i)) (o : Nat) :
    (indices.map owner).count o = (v.ownedBy o indices).length := by
  rw [List.count, List.countP_map, List.countP_eq_length_filter, ownedBy]
  refine congrArg List.length (List.filter_congr fun i hi => ?_)
  rw [Function.comp_apply, howner i hi, Bool.eq_iff_iff, beq_iff_eq, decide_eq_true_iff,
    Option.some.injEq]

/-- With as many answers as were asked for, every index takes the next answer of its owner. -/
theorem assemble_spec {v : Shard} {owner : UInt64 → Nat} {indices : List UInt64}
    (howner : ∀ i ∈ indices, v.ownerOf? i = some (owner i))
    (hlt : ∀ i ∈ indices, owner i < v.seat.size) {answers : List (List Binary64)}
    (hanswers : ∀ o < v.seat.size, (answers.getD o []).length = (v.ownedBy o indices).length)
    {k : Nat} {i : UInt64} (hk : indices[k]? = some i) :
    (assemble (indices.map owner) answers)[k]? =
      (answers.getD (owner i) [])[(v.ownedBy (owner i) (indices.take k)).length]? := by
  have henough : ∀ o, (indices.map owner).count o ≤ (answers.getD o []).length := by
    intro o
    by_cases ho : o < v.seat.size
    · rw [hanswers o ho, count_map_owner howner o]
    · have hnot : o ∉ indices.map owner := by
        intro hmem
        obtain ⟨i, hi, rfl⟩ := List.mem_map.mp hmem
        exact ho (hlt i hi)
      rw [List.count_eq_zero_of_not_mem hnot]
      exact Nat.zero_le _
  have hown : (indices.map owner)[k]? = some (owner i) := by
    rw [List.getElem?_map, hk, Option.map_some]
  rw [getElem?_assemble henough hown, ← List.map_take,
    count_map_owner fun j hj => howner j (List.mem_of_mem_take hj)]

/-! ## 5. The conversation -/

theorem against_timed {α : Type} (v : Shard) (task : String) (a : Attempt α)
    (heard : Nat → Tag → Option Bytes) :
    ((v.timed task a).against heard).value = (a.against heard).value ∧
      ((v.timed task a).against heard).sent = (a.against heard).sent := by
  rw [timed]
  split
  · have hnoted : (a.timed task).against heard =
        (a.against heard).followedBy ⟨(a.against heard).value, [], [task]⟩ :=
      Routine.against_bind heard a.run _
    rw [hnoted]
    exact ⟨rfl, List.append_nil _⟩
  · exact ⟨rfl, rfl⟩

theorem against_settle (v : Shard) (owners : List Nat) (requests incoming : List (List UInt64))
    (answers : List (List Binary64)) (heard : Nat → Tag → Option Bytes) :
    (v.settle owners requests incoming answers).against heard =
      ⟨do
        v.checkRequests 0 incoming
        checkAnswers 0 requests answers
        .ok (assemble owners answers), [], []⟩ := by
  rw [settle]
  cases v.checkRequests 0 incoming with
  | error e => rfl
  | ok _ => cases checkAnswers 0 requests answers <;> rfl

/-- The owner of an index that has one. -/
def ownerIn (v : Shard) (i : UInt64) : Nat := (v.ownerOf? i).getD 0

section Conversation

variable {v : Shard} (h : v.WellFormed)

include h

/-- Every index of a vector has an owner in the group. -/
theorem WellFormed.exists_ownerOf? {i : UInt64} (hi : i < v.size) :
    ∃ r < v.seat.size, v.ownerOf? i = some r := by
  cases hlayout : v.layout with
  | none =>
    rw [Shard.size, hlayout] at hi
    exact absurd hi (UInt64.not_lt_zero)
  | some p =>
    rw [Shard.size, hlayout] at hi
    obtain ⟨r, hr, hin⟩ := (h.layout p hlayout).tiles.exists_owner hi
    refine ⟨r, hr, ?_⟩
    rw [Shard.ownerOf?, hlayout]
    exact (h.layout p hlayout).tiles.ownerOf?_eq_some_iff.mpr ⟨hr, hin⟩

theorem WellFormed.ownerOf?_eq {i : UInt64} (hi : i < v.size) :
    v.ownerOf? i = some (v.ownerIn i) := by
  obtain ⟨r, -, hr⟩ := h.exists_ownerOf? hi
  rw [ownerIn, hr, Option.getD_some]

theorem WellFormed.ownerIn_lt {i : UInt64} (hi : i < v.size) : v.ownerIn i < v.seat.size := by
  obtain ⟨r, hlt, hr⟩ := h.exists_ownerOf? hi
  rwa [ownerIn, hr, Option.getD_some]

/-- What a rank owns is in its range. -/
theorem WellFormed.mem_localRange {i : UInt64} (hi : v.ownerOf? i = some v.seat.rank) :
    v.localRange.start ≤ i ∧ i < v.localRange.stop := by
  cases hlayout : v.layout with
  | none =>
    rw [Shard.ownerOf?, hlayout] at hi
    cases hi
  | some p =>
    have hserves := h.layout p hlayout
    rw [Shard.ownerOf?, hlayout] at hi
    rw [Shard.localRange, hlayout]
    simp only [hserves.localRange_eq h.seat]
    exact (hserves.tiles.ownerOf?_eq_some_iff.mp hi).2

end Conversation

/-- What is asked of each rank: the indices it owns, in the order of the list. -/
def requests (v : Shard) (indices : List UInt64) : List (List UInt64) :=
  v.seat.ranks.map fun r => v.ownedBy r indices

/-- How the exchange of the requests goes. -/
def asking (v : Shard) (indices : List UInt64) (heard : Nat → Tag → Option Bytes) :
    Rehearsal (Except Error (List (List UInt64))) :=
  (Collective.allToAllRecords v.seat .gatherRequest (v.requests indices)).against heard

/-- How the exchange of the answers goes: each rank is sent what its own request comes to. -/
def replying (v : Shard) (incoming : List (List UInt64)) (heard : Nat → Tag → Option Bytes) :
    Rehearsal (Except Error (List (List Binary64))) :=
  (Collective.allToAllRecords v.seat .gatherReply (incoming.map v.answer)).against heard

theorem length_requests (v : Shard) (indices : List UInt64) :
    (v.requests indices).length = v.seat.size := by
  simp [requests, Seat.ranks]

theorem getD_requests {v : Shard} (indices : List UInt64) {r : Nat} (hr : r < v.seat.size) :
    (v.requests indices).getD r [] = v.ownedBy r indices := by
  simp [requests, Seat.ranks, List.getD_eq_getElem?_getD, hr]

section Conversation

variable {v : Shard} (h : v.WellFormed) {indices : List UInt64} (hin : ∀ i ∈ indices, i < v.size)
  (heard : Nat → Tag → Option Bytes)

include h

theorem requestFault_own : v.requestFault (v.ownedBy v.seat.rank indices) = none :=
  requestFault_eq_none_iff.mpr fun _ hi =>
    h.mem_localRange (of_decide_eq_true (List.mem_filter.mp hi).2)

/-- What the exchange of the requests brings. -/
theorem asking_spec {incoming : List (List UInt64)}
    (hasked : (v.asking indices heard).value = .ok incoming) :
    incoming.length = v.seat.size ∧ v.requestFault (incoming.getD v.seat.rank []) = none ∧
      ∀ p ∈ v.seat.peers, (incoming.getD p []).length * 8 < 2 ^ 32 - 1 := by
  obtain ⟨hlen, hown, hshort⟩ :=
    Collective.against_allToAllRecords h.seat.rank_lt (v.length_requests indices) hasked
  rw [getD_requests indices h.seat.rank_lt] at hown
  refine ⟨hlen, ?_, fun p hp => ?_⟩
  · rw [hown]
    exact requestFault_own h
  · have hp := hshort p hp
    rw [longestPayload] at hp
    exact Nat.lt_of_le_of_lt hp (by decide)

/-- What the exchange of the answers brings. -/
theorem replying_spec {incoming : List (List UInt64)} {answers : List (List Binary64)}
    (hasked : (v.asking indices heard).value = .ok incoming)
    (hreplied : (v.replying incoming heard).value = .ok answers) :
    answers.length = v.seat.size ∧
      (answers.getD v.seat.rank []).length = (v.ownedBy v.seat.rank indices).length := by
  obtain ⟨hlen, hown, -⟩ :=
    Collective.against_allToAllRecords h.seat.rank_lt (v.length_requests indices) hasked
  rw [getD_requests indices h.seat.rank_lt] at hown
  obtain ⟨hlen', hown', -⟩ := Collective.against_allToAllRecords h.seat.rank_lt
    ((List.length_map v.answer).trans hlen) hreplied
  refine ⟨hlen', ?_⟩
  have hrow : (incoming.map v.answer).getD v.seat.rank [] =
      v.answer (v.ownedBy v.seat.rank indices) := by
    rw [List.getD_eq_getElem?_getD] at hown ⊢
    rw [List.getElem?_map, List.getElem?_eq_getElem (hlen ▸ h.seat.rank_lt)] at *
    rw [Option.getD_some] at hown
    rw [Option.map_some, Option.getD_some, hown]
  rw [hown', hrow, answer, List.length_map]

omit h in
/-- A gather is the exchange of the requests and what is left of it when they have come. -/
theorem gatherValues_eq_timed (howner : ∀ i ∈ indices, v.ownerOf? i = some (v.ownerIn i)) :
    v.gatherValues indices = v.timed gatherTask
      (Collective.allToAllRecords v.seat .gatherRequest (v.requests indices) >>=
        v.reply (indices.map v.ownerIn) (v.requests indices)) := by
  have hrequests : (v.seat.ranks.map fun r => askedOf r (indices.map v.ownerIn) indices) =
      v.requests indices := by
    refine List.map_congr_left fun r _ => (askedOf_map v.ownerIn r indices).trans ?_
    refine List.filter_congr fun i hi => ?_
    simp only [howner i hi, Option.some.injEq]
  rw [gatherValues, owners_eq_ok howner]
  change v.timed gatherTask (v.converse indices (indices.map v.ownerIn)) = _
  rw [converse_eq_bind, hrequests]

include hin

/-- A gather is left when the requests could not be exchanged. -/
theorem against_gatherValues_of_asking_error {e : Error}
    (hasked : (v.asking indices heard).value = .error e) :
    ((v.gatherValues indices).against heard).value = .error e ∧
      ((v.gatherValues indices).against heard).sent = (v.asking indices heard).sent := by
  rw [gatherValues_eq_timed fun i hi => h.ownerOf?_eq (hin i hi)]
  obtain ⟨hvalue, hsent⟩ := v.against_timed gatherTask
    (Collective.allToAllRecords v.seat .gatherRequest (v.requests indices) >>=
      v.reply (indices.map v.ownerIn) (v.requests indices)) heard
  rw [hvalue, hsent, Attempt.against_bind_of_error hasked]
  exact ⟨rfl, rfl⟩

/-- When the requests have come they are answered, and the answers of the others decide. -/
theorem against_gatherValues_of_asking_ok {incoming : List (List UInt64)}
    (hasked : (v.asking indices heard).value = .ok incoming) :
    ((v.gatherValues indices).against heard).value =
        (do
          let answers ← (v.replying incoming heard).value
          v.checkRequests 0 incoming
          checkAnswers 0 (v.requests indices) answers
          .ok (assemble (indices.map v.ownerIn) answers)) ∧
      ((v.gatherValues indices).against heard).sent =
        (v.asking indices heard).sent ++ (v.replying incoming heard).sent := by
  rw [gatherValues_eq_timed fun i hi => h.ownerOf?_eq (hin i hi)]
  obtain ⟨hvalue, hsent⟩ := v.against_timed gatherTask
    (Collective.allToAllRecords v.seat .gatherRequest (v.requests indices) >>=
      v.reply (indices.map v.ownerIn) (v.requests indices)) heard
  rw [hvalue, hsent, Attempt.against_bind_of_ok hasked, Rehearsal.value_followedBy,
    Rehearsal.sent_followedBy]
  cases hreplied : (v.replying incoming heard).value with
  | error e =>
    rw [reply, Attempt.against_bind_of_error hreplied]
    exact ⟨rfl, rfl⟩
  | ok answers =>
    rw [reply, Attempt.against_bind_of_ok hreplied, against_settle, Rehearsal.sent_followedBy,
      List.append_nil]
    exact ⟨rfl, rfl⟩

/-- **What the two checks come to**, when both exchanges went well: the requests are judged first,
then the answers, and without a fault every index takes the next answer of its owner. -/
theorem against_gatherValues_cases {incoming : List (List UInt64)}
    (hasked : (v.asking indices heard).value = .ok incoming) {answers : List (List Binary64)}
    (hreplied : (v.replying incoming heard).value = .ok answers) :
    ((∀ p ∈ v.seat.peers, v.requestFault (incoming.getD p []) = none) ∧
      (∀ p ∈ v.seat.peers, answerFault (v.ownedBy p indices) (answers.getD p []) = none) ∧
      ((v.gatherValues indices).against heard).value =
        .ok (assemble (indices.map v.ownerIn) answers)) ∨
    ∃ p found, ((v.gatherValues indices).against heard).value = .error (.communication p found) ∧
      (FirstFault v.seat.peers (fun p => v.requestFault (incoming.getD p [])) p found ∨
        (∀ p ∈ v.seat.peers, v.requestFault (incoming.getD p []) = none) ∧
          FirstFault v.seat.peers (fun p => answerFault (v.ownedBy p indices) (answers.getD p []))
            p found) := by
  obtain ⟨hlen, hown, -⟩ := asking_spec h heard hasked
  obtain ⟨-, hown'⟩ := replying_spec h heard hasked hreplied
  have hrequests : ∀ p ∈ v.seat.peers,
      answerFault ((v.requests indices).getD p []) (answers.getD p []) =
        answerFault (v.ownedBy p indices) (answers.getD p []) := by
    intro p hp
    rw [getD_requests indices (Seat.mem_peers.mp hp).1]
  have hanswers := (searches_checkAnswers v.seat (v.length_requests indices) (by
    rw [getD_requests indices h.seat.rank_lt]
    exact answerFault_eq_none_iff.mpr hown')).congr hrequests
  have hvalue : ((v.gatherValues indices).against heard).value = (do
      v.checkRequests 0 incoming
      checkAnswers 0 (v.requests indices) answers
      .ok (assemble (indices.map v.ownerIn) answers)) := by
    rw [(against_gatherValues_of_asking_ok h hin heard hasked).1, hreplied]
    rfl
  rw [hvalue]
  rcases searches_checkRequests h hlen hown with ⟨hnone, hok⟩ | ⟨p, found, hfirst, herror⟩
  · rcases hanswers with ⟨hnone', hok'⟩ | ⟨p, found, hfirst, herror⟩
    · exact .inl ⟨hnone, hnone', by rw [hok, hok']; rfl⟩
    · exact .inr ⟨p, found, by rw [hok, herror]; rfl, .inr ⟨hnone, hfirst⟩⟩
  · exact .inr ⟨p, found, by rw [herror]; rfl, .inl hfirst⟩

/-- A gather that succeeds has had its requests and its answers. -/
theorem exists_answers {values : List Binary64}
    (hvalues : ((v.gatherValues indices).against heard).value = .ok values) :
    ∃ incoming answers, (v.asking indices heard).value = .ok incoming ∧
      (v.replying incoming heard).value = .ok answers := by
  cases hasked : (v.asking indices heard).value with
  | error e =>
    have hvalue := (against_gatherValues_of_asking_error h hin heard hasked).1
    cases hvalue.symm.trans hvalues
  | ok incoming =>
    have hvalue := (against_gatherValues_of_asking_ok h hin heard hasked).1
    cases hreplied : (v.replying incoming heard).value with
    | error e =>
      rw [hreplied] at hvalue
      cases hvalue.symm.trans hvalues
    | ok answers => exact ⟨incoming, answers, rfl, hreplied⟩

/-- **A gather succeeds exactly when both exchanges do and nothing is wrong with what they
brought.** -/
theorem exists_values_iff :
    (∃ values, ((v.gatherValues indices).against heard).value = .ok values) ↔
      ∃ incoming answers, (v.asking indices heard).value = .ok incoming ∧
        (v.replying incoming heard).value = .ok answers ∧
        (∀ p ∈ v.seat.peers, ∀ i ∈ incoming.getD p [],
          v.localRange.start ≤ i ∧ i < v.localRange.stop) ∧
        ∀ p ∈ v.seat.peers, (answers.getD p []).length = (v.ownedBy p indices).length := by
  constructor
  · rintro ⟨values, hvalues⟩
    obtain ⟨incoming, answers, hasked, hreplied⟩ := exists_answers h hin heard hvalues
    rcases against_gatherValues_cases h hin heard hasked hreplied with
      ⟨hrequests, hanswers, -⟩ | ⟨p, found, herror, -⟩
    · exact ⟨incoming, answers, hasked, hreplied,
        fun p hp => requestFault_eq_none_iff.mp (hrequests p hp),
        fun p hp => answerFault_eq_none_iff.mp (hanswers p hp)⟩
    · cases herror.symm.trans hvalues
  · rintro ⟨incoming, answers, hasked, hreplied, hinside, hlengths⟩
    rcases against_gatherValues_cases h hin heard hasked hreplied with
      ⟨-, -, hok⟩ | ⟨p, found, -, hfirst | ⟨-, hfirst⟩⟩
    · exact ⟨_, hok⟩
    · have hnone := requestFault_eq_none_iff.mpr (hinside p hfirst.mem)
      cases hnone.symm.trans hfirst.fails
    · have hnone := answerFault_eq_none_iff.mpr (hlengths p hfirst.mem)
      cases hnone.symm.trans hfirst.fails

/-- Then every index has the next answer of its owner. -/
theorem values_spec {values : List Binary64}
    (hvalues : ((v.gatherValues indices).against heard).value = .ok values) :
    values.length = indices.length ∧ ∃ incoming answers,
      (v.asking indices heard).value = .ok incoming ∧
      (v.replying incoming heard).value = .ok answers ∧
      ∀ (k : Nat) (i : UInt64), indices[k]? = some i → ∃ owner, v.ownerOf? i = some owner ∧
        values[k]? = (answers.getD owner [])[(v.ownedBy owner (indices.take k)).length]? := by
  have hends := Routine.ends_against heard (v.gatherValues indices).outcome
  refine ⟨((h.guarded_gatherValues indices).of_ends hends).1 values hvalues, ?_⟩
  obtain ⟨incoming, answers, hasked, hreplied⟩ := exists_answers h hin heard hvalues
  rcases against_gatherValues_cases h hin heard hasked hreplied with
    ⟨-, hanswers, hok⟩ | ⟨p, found, herror, -⟩
  · cases hok.symm.trans hvalues
    have howner : ∀ i ∈ indices, v.ownerOf? i = some (v.ownerIn i) :=
      fun i hi => h.ownerOf?_eq (hin i hi)
    have hlengths : ∀ o < v.seat.size,
        (answers.getD o []).length = (v.ownedBy o indices).length := by
      intro o ho
      -- the checks tell of the peers; the own answers came without a message
      by_cases hown : o = v.seat.rank
      · rw [hown]
        exact (replying_spec h heard hasked hreplied).2
      · exact answerFault_eq_none_iff.mp (hanswers o (Seat.mem_peers.mpr ⟨ho, hown⟩))
    refine ⟨incoming, answers, hasked, hreplied, fun k i hk => ?_⟩
    exact ⟨v.ownerIn i, howner i (List.mem_of_getElem? hk),
      assemble_spec howner (fun i hi => h.ownerIn_lt (hin i hi)) hlengths hk⟩
  · cases herror.symm.trans hvalues

end Conversation

/-- **A gather against any answers.**  Every index has an owner in the group, so the requests can be
made.

* When the exchange of the requests fails, so does the gather, and nothing more is sent.
* When it succeeds, there is a row for each rank, and none of a peer is too long to be answered.
  Every row is answered in its length: an index in the own range by the own entry, and every other
  one by a NaN.  These answers are exchanged, whatever was asked.
* When both succeed, the gather is refused for the lowest peer that asked for an index that is not
  here, and without one for the lowest peer that gave another number of answers than it was asked
  for.
* The gather succeeds exactly when there is none of all this.  Then every index has the next answer
  of its owner. -/
theorem against_gatherValues {v : Shard} (hv : v.Reachable) {indices : List UInt64}
    (hin : ∀ i ∈ indices, i < v.size) (heard : Nat → Tag → Option Bytes) :
    let asked := v.asking indices heard
    let replied := fun incoming => v.replying incoming heard
    let went := (v.gatherValues indices).against heard
    (∀ i ∈ indices, ∃ r < v.seat.size, v.ownerOf? i = some r) ∧
    (∀ e, asked.value = .error e → went.value = .error e ∧ went.sent = asked.sent) ∧
    (∀ incoming, asked.value = .ok incoming →
      incoming.length = v.seat.size ∧
      (∀ p ∈ v.seat.peers, (incoming.getD p []).length * 8 < 2 ^ 32 - 1) ∧
      (∀ wanted ∈ incoming, (v.answer wanted).length = wanted.length ∧
        ∀ (k : Nat) (i : UInt64), wanted[k]? = some i → (v.answer wanted)[k]? =
          if v.localRange.start ≤ i ∧ i < v.localRange.stop then
            v.toList[i.toNat - v.localRange.start.toNat]?
          else some .nan) ∧
      went.sent = asked.sent ++ (replied incoming).sent ∧
      (∀ e, (replied incoming).value = .error e → went.value = .error e) ∧
      ∀ answers, (replied incoming).value = .ok answers →
        answers.length = v.seat.size ∧
        ∀ e, went.value = .error e → ∃ p found, e = .communication p found ∧
          (FirstFault v.seat.peers (fun p => v.requestFault (incoming.getD p [])) p found ∨
            (∀ p ∈ v.seat.peers, v.requestFault (incoming.getD p []) = none) ∧
              FirstFault v.seat.peers
                (fun p => answerFault (v.ownedBy p indices) (answers.getD p [])) p found)) ∧
    ((∃ values, went.value = .ok values) ↔
      ∃ incoming answers, asked.value = .ok incoming ∧ (replied incoming).value = .ok answers ∧
        (∀ p ∈ v.seat.peers, ∀ i ∈ incoming.getD p [],
          v.localRange.start ≤ i ∧ i < v.localRange.stop) ∧
        ∀ p ∈ v.seat.peers, (answers.getD p []).length = (v.ownedBy p indices).length) ∧
    ∀ values, went.value = .ok values → values.length = indices.length ∧
      ∃ incoming answers, asked.value = .ok incoming ∧ (replied incoming).value = .ok answers ∧
        ∀ (k : Nat) (i : UInt64), indices[k]? = some i → ∃ owner, v.ownerOf? i = some owner ∧
          values[k]? = (answers.getD owner [])[(v.ownedBy owner (indices.take k)).length]? := by
  intro asked replied went
  have h := hv.wellFormed
  refine ⟨fun i hi => h.exists_ownerOf? (hin i hi),
    fun e he => against_gatherValues_of_asking_error h hin heard he, fun incoming hasked => ?_,
    exists_values_iff h hin heard, fun values hvalues => values_spec h hin heard hvalues⟩
  obtain ⟨hlen, -, hshort⟩ := asking_spec h heard hasked
  obtain ⟨hvalue, hsent⟩ := against_gatherValues_of_asking_ok h hin heard hasked
  refine ⟨hlen, hshort, fun wanted _ => ⟨List.length_map _, fun k i hk => getElem?_answer h hk⟩,
    hsent, fun e he => ?_, fun answers hreplied => ?_⟩
  · have he : (v.replying incoming heard).value = .error e := he
    rw [he] at hvalue
    exact hvalue
  · refine ⟨(replying_spec h heard hasked hreplied).1, fun e he => ?_⟩
    rcases against_gatherValues_cases h hin heard hasked hreplied with
      ⟨-, -, hok⟩ | ⟨p, found, herror, hfault⟩
    · cases hok.symm.trans he
    · cases herror.symm.trans he
      exact ⟨p, found, rfl, hfault⟩

/-- Of two ranks with two entries each, the first one asks for its own first entry, and the other
one asks it for an index past the end: it is answered all the same. -/
theorem against_gatherValues_past_end :
    let v := (unbound (.ofRank 0 2) .dense).initSize 4
    let heard : Nat → Tag → Option Bytes := fun _ tag =>
      if tag = .gatherRequest then some [8, 0, 0, 0]
      else if tag = Tag.gatherRequest.payload then some [7, 0, 0, 0, 0, 0, 0, 0]
      else some [0, 0, 0, 0]
    (v.Reachable ∧ ∀ i ∈ [(0 : UInt64)], i < v.size) ∧
      (v.asking [0] heard).value = .ok [[0], [7]] ∧
      ((v.gatherValues [0]).against heard).sent =
        (v.asking [0] heard).sent ++ (v.replying [[0], [7]] heard).sent ∧
      ¬∃ values, ((v.gatherValues [0]).against heard).value = .ok values := by
  intro v heard
  have hv : v.Reachable := (Reachable.unbound ⟨by decide, by decide⟩ .dense).initSize 4
  have hin : ∀ i ∈ [(0 : UInt64)], i < v.size := by
    intro i hi
    obtain rfl := List.mem_singleton.mp hi
    decide
  have hasked : (v.asking [0] heard).value = .ok [[0], [7]] := by decide
  obtain ⟨-, -, hsent, hvalue, -⟩ := against_gatherValues hv hin heard
  obtain ⟨-, -, -, hsent, -⟩ := hsent _ hasked
  refine ⟨⟨hv, hin⟩, hasked, hsent, fun hok => ?_⟩
  obtain ⟨incoming, answers, hasked', -, hinside, -⟩ := hvalue.mp hok
  cases hasked.symm.trans hasked'
  exact absurd (hinside 1 (by decide) 7 (by decide)) (by decide)

end Shard

end ShardedVector
