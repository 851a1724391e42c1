/-
**One node's log under hostile input.**

Trains of the issuers' slots arrive with any clock, acknowledgements and payloads, those of the
node's own slot included. While nobody is marked crashed and the node is not frozen, it stays a
`Replica` of one ordered log all the same: every gate of `is_deliverable` speaks about clocks seen,
done keys and parked keys, never about where a train came from.

* `NodeCall.Hostile` — the calls: any input with a train of an issuer's slot, and new trains.
* `Replica.call` — such a call appends its records to the log and leaves the node drained.
* `KeyOrder` — records in strictly increasing key order, with no key left out; each is the cargo of
  a received train, and the `Deliver` outputs are those of the records.
* `key_order` — **every run of such calls records in key order.**
-/

import TrainsRing.Interface.Calls

namespace TrainsRing

variable {cfg : RingConfig}

open TrainsNode

/-- Any input, with trains of issuers' slots, and new trains. -/
def NodeCall.Hostile : NodeCall cfg → Prop
  | step (.trainReceived train) => train.issuer < cfg.numTrains
  | step _ => True
  | issueInitialTrain => True
  | reissueTrain => True
  | _ => False

instance : (call : NodeCall cfg) → Decidable call.Hostile
  | .step (.trainReceived train) => inferInstanceAs (Decidable (train.issuer < cfg.numTrains))
  | .step (.localBroadcast _) | .step .tick | .issueInitialTrain | .reissueTrain =>
    instDecidableTrue
  | .confirmCrash _ | .markCrashed _ | .readmitNode _ | .setFrozen _ | .recoveryReport
  | .applyRecovery _ => instDecidableFalse

/-! ### One call -/

/-- **A hostile call** appends its records to the log of the node and leaves it drained. -/
theorem Replica.call {mode : DeliveryMode} {Source : Train → Prop} {node : TrainsNode cfg}
    {entries : List Entry} (replica : Replica (View.initial cfg mode) Source node entries)
    (drained : node.Drained) {call : NodeCall cfg} (hostile : call.Hostile)
    (source : ∀ train, call = .step (.trainReceived train) → Source train) :
    Replica (View.initial cfg mode) Source (call.run node).1 (entries ++ call.records node) ∧
      (call.run node).1.Drained := by
  -- a call that records nothing leaves clocks, deliveries and parked trains alone
  have quiet : ∀ after : TrainsNode cfg, after.clockState = node.clockState →
      after.delivery = node.delivery → after.parked = node.parked →
      after.viewFloor = node.viewFloor → after.frozen = node.frozen →
      Replica (View.initial cfg mode) Source after (entries ++ []) ∧ after.Drained := by
    intro after clocks delivery parked floor frozen
    rw [List.append_nil]
    exact ⟨replica.congr clocks delivery parked floor frozen,
      drained_congr drained clocks delivery parked⟩
  cases call with
  | step input =>
    cases input with
    | trainReceived train =>
      obtain ⟨forwarded, handled, -⟩ := node.handleTrain_entries train
      exact replica.handled drained (fun _ => ⟨hostile, View.alive_initial mode _⟩)
        (source train rfl) handled
    | localBroadcast data =>
      obtain ⟨-, clocks, delivery, parked, floor, frozen⟩ := node.handleBroadcast_keeps data
      exact quiet _ clocks delivery parked floor frozen
    | tick => exact quiet _ rfl rfl rfl rfl rfl
  | issueInitialTrain => exact quiet _ rfl rfl rfl rfl rfl
  | reissueTrain => exact quiet _ rfl rfl rfl rfl rfl
  | confirmCrash p => exact absurd hostile not_false
  | markCrashed p => exact absurd hostile not_false
  | readmitNode p => exact absurd hostile not_false
  | setFrozen frozen => exact absurd hostile not_false
  | recoveryReport => exact absurd hostile not_false
  | applyRecovery plan => exact absurd hostile not_false

/-- What hostile calls leave: a drained replica whose log is the records. -/
theorem Recording.replica {mode : DeliveryMode} {Source : Train → Prop}
    (calls : List (NodeCall cfg)) : ∀ {st : Recording cfg},
      Replica (View.initial cfg mode) Source st.node st.recorded → st.node.Drained →
      (∀ call ∈ calls, call.Hostile) →
      (∀ train, .step (.trainReceived train) ∈ calls → Source train) →
      Replica (View.initial cfg mode) Source (st.calls calls).node (st.calls calls).recorded := by
  induction calls with
  | nil => exact fun replica _ _ _ => replica
  | cons call rest ih =>
    intro st replica drained hostile source
    obtain ⟨next, settled⟩ := replica.call drained (hostile call List.mem_cons_self)
      fun train same => source train (same ▸ List.mem_cons_self)
    have later : Replica (View.initial cfg mode) Source ((st.call call).calls rest).node
        ((st.call call).calls rest).recorded := ih next settled
      (fun other later => hostile other (List.mem_cons_of_mem call later))
      fun train later => source train (List.mem_cons_of_mem call later)
    exact later

/-! ### Whole runs -/

/-- **The log of a node in key order.** `recorded` lists the calls of `record_delivered`, so the keys
in front of a record are those done when its key becomes done. -/
structure KeyOrder (calls : List (NodeCall cfg)) (st : Recording cfg) : Prop where
  increasing : (st.recorded.map Prod.fst).Pairwise (· < ·)
  closed : ∀ front entry back, st.recorded = front ++ entry :: back → ∀ key, key < entry.1 →
    1 ≤ key.clock → key.issuer < cfg.numTrains → key ∈ front.map Prod.fst
  done : st.node.delivery.doneKeys = (st.recorded.map Prod.fst).toFinset
  announced : delivers st.outputs = announcements st.recorded
  cargo : ∀ entry ∈ st.recorded, ∃ train, .step (.trainReceived train) ∈ calls ∧
    (train.key, train.payloads) = entry
  sorted : ∀ entry ∈ st.recorded, entry.content.Perm entry.2 ∧
    entry.content.Pairwise Payload.precedes

/-- **Total order at one node**: whatever trains of the issuers' slots it receives, a node records
in strictly increasing key order, each key when all smaller ones are done, and delivers what it
records, sorted. -/
theorem key_order {first : Recording cfg} (constructed : first.Constructed)
    {calls : List (NodeCall cfg)} (hostile : ∀ call ∈ calls, call.Hostile) :
    KeyOrder calls (first.calls calls) := by
  have accounted := constructed.accounted.calls calls
  obtain ⟨id, id_lt, mode, isNew⟩ := constructed
  have replica : Replica (View.initial cfg mode) (fun train => .step (.trainReceived train) ∈ calls)
      (first.calls calls).node (first.calls calls).recorded := by
    refine Recording.replica calls ?_ ?_ hostile fun train member => member
    · rw [isNew]
      exact .new id id_lt mode
    · rw [isNew]
      exact fun key train smallest => by cases smallest
  have segment := replica.segment
  refine ⟨List.pairwise_map.mpr segment.sorted, ?_, accounted.done, accounted.announced,
    fun entry member => ?_, fun entry _ => ⟨entry.perm_content, sorted_sortPayloads entry.2⟩⟩
  · intro front entry back split key below positive issues
    have inLog : entry ∈ front ++ entry :: back := List.mem_append_right _ List.mem_cons_self
    have isKey : (View.initial cfg mode).Key key :=
      ⟨⟨issues, View.alive_initial mode _⟩, by
        rw [View.initial, Slots.get_zero]
        exact positive⟩
    obtain ⟨earlier, member, rfl⟩ := segment.closed entry (split ▸ inLog) key isKey below
    have sorted := segment.sorted
    rw [split] at member sorted
    rcases List.mem_append.mp member with early | late
    · exact List.mem_map_of_mem early
    · -- a key at or after the entry is not below it
      have above := (List.pairwise_cons.mp (List.pairwise_append.mp sorted).2.1).1
      rcases List.mem_cons.mp late with rfl | later
      · exact absurd below (lt_irrefl _)
      · exact absurd below (above earlier later).asymm
  · obtain ⟨train, source, -, same⟩ := replica.cargo entry member
    exact ⟨train, source, same⟩

/-- A forged train of the node's own slot, one behind a gap and the one that fills it. -/
def hostileCalls : List (NodeCall .triple) :=
  [.step (.trainReceived ⟨1, 1, [⟨0, 0, [5]⟩], 7#32⟩), .issueInitialTrain,
    .step (.trainReceived ⟨0, 2, [⟨2, 1, [6]⟩, ⟨2, 0, [7]⟩], 7#32⟩),
    .step (.trainReceived ⟨0, 2, [⟨2, 1, [8]⟩], 7#32⟩),
    .step (.trainReceived ⟨0, 1, [⟨2, 1, [6]⟩, ⟨2, 0, [7]⟩], 7#32⟩)]

theorem key_order_triple : KeyOrder hostileCalls
    (Recording.calls ⟨TrainsNode.new .triple 1 (by decide) .uniformTotalOrder, [], []⟩
      hostileCalls) :=
  key_order ⟨1, by decide, _, rfl⟩ (by decide)

end TrainsRing
