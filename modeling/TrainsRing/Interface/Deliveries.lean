/-
**Each key is delivered once.**

Three places record a delivery. `try_deliver` and `apply_recovery` look whether the key is done, and
`drain_parked` relies on parked keys not being done. But `try_deliver` does not look whether the key
is parked: a gate that opens without a drain (`set_frozen(false)`, `mark_crashed`) lets the next
copy of a parked train through, and the drain after it records the key again.

* `Tidy` — no parked key is done, and every parked key has been seen.
* `Distinct` — what a call records it records once, and nothing that was done before.
* `NodeCall.Redelivers` — the call that goes wrong; `redelivers_repeats` shows that it does.
* `delivered_twice` — a run that delivers a key twice.
* `delivered_once` — **a run delivers every key at most once if and only if no call redelivers.**
-/

import TrainsRing.Interface.Calls

namespace TrainsRing

variable {cfg : RingConfig}

namespace TrainsNode

/-- No parked key is done, and every parked key has been seen. -/
structure Tidy (node : TrainsNode cfg) : Prop where
  apart : ∀ key train, node.parked.get? key = some train → key ∉ node.delivery.doneKeys
  seen : ∀ key train, node.parked.get? key = some train →
    key.issuer < cfg.ringSize ∧ key.clock ≤ node.seenClock key.issuer

/-- Nothing parked or done is new, and no clock is forgotten. -/
theorem Tidy.congr {node after : TrainsNode cfg} (tidy : node.Tidy)
    (parked : after.parked = node.parked)
    (done : after.delivery.doneKeys = node.delivery.doneKeys)
    (seen : ∀ q, node.seenClock q ≤ after.seenClock q) : after.Tidy := by
  refine ⟨fun key train found => ?_, fun key train found => ?_⟩
  · rw [done]
    exact tidy.apart key train (parked ▸ found)
  · obtain ⟨inside, known⟩ := tidy.seen key train (parked ▸ found)
    exact ⟨inside, known.trans (seen _)⟩

/-- The records are of distinct keys that were not done before. -/
structure Distinct (node : TrainsNode cfg) (records : List Entry) (after : TrainsNode cfg) :
    Prop where
  tidy : after.Tidy
  done : after.delivery.doneKeys = node.delivery.doneKeys ∪ (records.map Prod.fst).toFinset
  fresh : ∀ entry ∈ records, entry.1 ∉ node.delivery.doneKeys
  nodup : (records.map Prod.fst).Nodup

theorem Distinct.quiet {node after : TrainsNode cfg} (tidy : after.Tidy)
    (done : after.delivery.doneKeys = node.delivery.doneKeys) : Distinct node [] after :=
  ⟨tidy, by rw [done, List.map_nil, List.toFinset_nil, Finset.union_empty],
    fun _ member => absurd member List.not_mem_nil, List.nodup_nil⟩

theorem Distinct.append {node middle after : TrainsNode cfg} {first second : List Entry}
    (left : Distinct node first middle) (right : Distinct middle second after) :
    Distinct node (first ++ second) after := by
  refine ⟨right.tidy, ?_, fun entry member => ?_, ?_⟩
  · rw [right.done, left.done, List.map_append, List.toFinset_append, Finset.union_assoc]
  · rcases List.mem_append.mp member with old | new
    · exact left.fresh entry old
    · have unknown := right.fresh entry new
      rw [left.done] at unknown
      exact fun done => unknown (Finset.mem_union_left _ done)
  · rw [List.map_append]
    refine left.nodup.append right.nodup fun key old new => ?_
    obtain ⟨entry, member, rfl⟩ := List.mem_map.mp new
    have unknown := right.fresh entry member
    rw [left.done] at unknown
    exact unknown (Finset.mem_union_right _ (List.mem_toFinset.mpr old))

/-- Only the done keys of the start matter. -/
theorem Distinct.start {node other after : TrainsNode cfg} {records : List Entry}
    (distinct : Distinct other records after)
    (same : other.delivery.doneKeys = node.delivery.doneKeys) : Distinct node records after :=
  ⟨distinct.tidy, same ▸ distinct.done, same ▸ distinct.fresh, distinct.nodup⟩

/-! ### Draining and trying -/

/-- Recording a key that is neither done nor parked. -/
theorem Tidy.deliverNow {node : TrainsNode cfg} (tidy : node.Tidy) {key : ClockKey}
    (payloads : List Payload) (fresh : key ∉ node.delivery.doneKeys)
    (unparked : node.parked.get? key = none) :
    Distinct node [(key, payloads)] (node.deliverNow key payloads).1 := by
  have frame := node.deliverNow_frame key payloads
  refine ⟨⟨fun other train found => ?_, fun other train found => ?_⟩,
    (node.logged_deliverNow key payloads).done, fun entry member => ?_, List.nodup_singleton _⟩
  · rw [deliverNow_parked] at found
    rw [deliverNow_doneKeys, Finset.mem_insert, not_or]
    refine ⟨fun same => ?_, tidy.apart other train found⟩
    rw [same, unparked] at found
    cases found
  · rw [deliverNow_parked] at found
    rw [seenClock, frame.clockState]
    exact tidy.seen other train found
  · rw [List.mem_singleton.mp member]
    exact fresh

theorem Tidy.unpark {node : TrainsNode cfg} (tidy : node.Tidy) (key : ClockKey) :
    (node.unpark key).Tidy := by
  have kept : ∀ other train, (node.unpark key).parked.get? other = some train →
      node.parked.get? other = some train := fun other train found => by
    rw [TrainsNode.unpark, OrdMap.get?_erase] at found
    split_ifs at found
    exact found
  exact ⟨fun other train found => tidy.apart other train (kept other train found),
    fun other train found => tidy.seen other train (kept other train found)⟩

theorem Tidy.delivers {node after : TrainsNode cfg} {records : List Entry} (tidy : node.Tidy)
    (run : Delivers node records after) : Distinct node records after := by
  induction run with
  | nil node => exact .quiet tidy rfl
  | @cons node after key train entries parked _ _ ih =>
    have now : Distinct node [(key, train.payloads)]
        ((node.unpark key).deliverNow key train.payloads).1 :=
      ((tidy.unpark key).deliverNow train.payloads (tidy.apart key train parked)
        ((OrdMap.get?_erase ..).trans (if_pos rfl))).start rfl
    exact now.append (ih now.tidy)

theorem Tidy.drainParked {node : TrainsNode cfg} (tidy : node.Tidy) :
    Distinct node node.drainEntries node.drainParked.1 :=
  tidy.delivers node.drainParked_entries.1

/-- **One attempt to deliver** a train that has been seen, where it is not parked and deliverable. -/
theorem Tidy.tryDeliver {node : TrainsNode cfg} (tidy : node.Tidy) {train : Train}
    (inside : train.issuer < cfg.ringSize) (seen : train.clock ≤ node.seenClock train.issuer)
    (unparked : node.frozen = false →
      node.delivery.readyToDeliver train.ackBits node.delivery.mode = true →
      node.isDeliverable train.key = true → node.parked.get? train.key = none) :
    Distinct node (node.tryEntries train) (node.tryDeliver train).1 := by
  unfold TrainsNode.tryEntries TrainsNode.tryDeliver
  split_ifs with frozen unready done blocked
  · exact .quiet tidy rfl
  · exact .quiet tidy rfl
  · exact .quiet tidy rfl
  · have fresh : train.key ∉ node.delivery.doneKeys := by
      simpa [DeliveryState.alreadyDelivered] using done
    refine .quiet ⟨fun key held found => ?_, fun key held found => ?_⟩ rfl
    · by_cases same : key = train.key
      · rw [same]
        exact fresh
      · exact tidy.apart key held (((OrdMap.get?_insertNew ..).trans (if_neg same)).symm.trans found)
    · by_cases same : key = train.key
      · rw [same]
        exact ⟨inside, seen⟩
      · exact tidy.seen key held (((OrdMap.get?_insertNew ..).trans (if_neg same)).symm.trans found)
  · have fresh : train.key ∉ node.delivery.doneKeys := by
      simpa [DeliveryState.alreadyDelivered] using done
    exact tidy.deliverNow train.payloads fresh
      (unparked (by simpa using frozen) (by simpa using unready) (by simpa using blocked))

theorem Tidy.attempt {node : TrainsNode cfg} (tidy : node.Tidy) {train : Train}
    (inside : train.issuer < cfg.ringSize) (seen : train.clock ≤ node.seenClock train.issuer)
    (unparked : node.frozen = false →
      node.delivery.readyToDeliver train.ackBits node.delivery.mode = true →
      node.isDeliverable train.key = true → node.parked.get? train.key = none) :
    Distinct node (node.attemptEntries train) (node.tryDeliver train).1.drainParked.1 := by
  have tried := tidy.tryDeliver inside seen unparked
  exact tried.append tried.tidy.drainParked

/-! ### Received trains -/

/-- **The train that is delivered twice**: its key is parked and has become deliverable since the
last drain. -/
def Redelivers (node : TrainsNode cfg) (train : Train) : Prop :=
  node.frozen = false ∧ ¬ node.Stale train ∧
    node.delivery.readyToDeliver train.ackBits node.delivery.mode = true ∧
    (node.parked.get? train.key).isSome ∧ node.isDeliverable train.key = true

instance (node : TrainsNode cfg) (train : Train) : Decidable (node.Redelivers train) := by
  unfold Redelivers
  infer_instance

theorem Tidy.handleTrain {node : TrainsNode cfg} (tidy : node.Tidy) {train : Train}
    (safe : ¬ node.Redelivers train) :
    Distinct node (node.handleEntries train) (node.handleTrain train).1 := by
  have unparked : ¬ node.Stale train → node.frozen = false →
      node.delivery.readyToDeliver train.ackBits node.delivery.mode = true →
      node.isDeliverable train.key = true → node.parked.get? train.key = none := by
    intro fresh unfrozen ready deliverable
    by_contra isParked
    exact safe ⟨unfrozen, fresh, ready, Option.isSome_iff_ne_none.mpr isParked, deliverable⟩
  unfold handleEntries
  by_cases stale : node.Stale train
  · rw [if_pos stale, show node.handleTrain train = (node, []) from if_pos stale]
    exact .quiet tidy rfl
  rw [if_neg stale, show node.handleTrain train = if train.issuer = node.id then
    node.handleReturningTrain train else node.handleForeignTrain train from if_neg stale]
  by_cases own : train.issuer = node.id
  · rw [if_pos own, if_pos own]
    have observed : (node.observe node.id train.clock).Tidy :=
      tidy.congr rfl rfl (node.seenClock_le_observe node.id train.clock)
    unfold handleReturningTrain
    by_cases done : train.key ∈ node.delivery.doneKeys
    · simp only [DeliveryState.alreadyDelivered, done, decide_true, if_true]
      exact .quiet (observed.congr rfl rfl fun _ => le_rfl) rfl
    · simp only [DeliveryState.alreadyDelivered, done, decide_false]
      refine (observed.attempt (own ▸ node.id_lt) ?_ fun unfrozen ready deliverable => ?_).start rfl
      · rw [own, seenClock_observe node node.id_lt, if_pos rfl]
        exact le_max_right _ _
      · by_contra isParked
        obtain ⟨held, found⟩ := Option.ne_none_iff_exists'.mp isParked
        -- a parked key has been seen, so its return opens no gate
        have known := (tidy.seen train.key held found).2
        have same : node.observe node.id train.clock = node :=
          Replica.observe_of_seen (own ▸ known)
        rw [same] at deliverable ready unfrozen
        exact isParked (unparked stale unfrozen ready deliverable)
  · rw [if_neg own, if_neg own]
    by_cases old : node.Replay train
    · have noted : (node.noteSeen train.payloads).Tidy := tidy.congr rfl rfl fun _ => le_rfl
      rw [handleForeignTrain_replay old, if_pos old]
      exact (noted.attempt old.inside old.1 fun unfrozen ready deliverable =>
        unparked stale unfrozen ready deliverable).start rfl
    · have visited : (node.visit train).Tidy :=
        tidy.congr rfl rfl (node.seenClock_le_observe train.issuer train.clock)
      rw [handleForeignTrain_visit old, if_neg old]
      exact visited.drainParked.start rfl

/-! ### Applying a plan -/

theorem Tidy.applyAction {node : TrainsNode cfg} (tidy : node.Tidy)
    (entry : ClockKey × RecoveryAction) (inside : entry.1.issuer < cfg.ringSize) :
    Distinct node (node.actionEntries entry) (applyAction (node, []) entry).1 := by
  obtain ⟨key, action⟩ := entry
  have observed : (node.observe key.issuer key.clock).Tidy :=
    tidy.congr rfl rfl (node.seenClock_le_observe key.issuer key.clock)
  have cleared := observed.unpark key
  have gone : ((node.observe key.issuer key.clock).unpark key).parked.get? key = none :=
    (OrdMap.get?_erase ..).trans (if_pos rfl)
  rw [applyAction_eq, actionEntries]
  dsimp only
  split_ifs with done
  · exact .quiet (cleared.congr rfl rfl fun _ => le_rfl) rfl
  · have noted :
        (((node.observe key.issuer key.clock).unpark key).noteSeen action.payloads).Tidy :=
      cleared.congr rfl rfl fun _ => le_rfl
    exact (noted.deliverNow action.payloads done gone).start rfl

theorem Tidy.applyActions (entries : List (ClockKey × RecoveryAction)) :
    ∀ {node : TrainsNode cfg}, node.Tidy → (∀ entry ∈ entries, entry.1.issuer < cfg.ringSize) →
      ∀ outputs, Distinct node (loopEntries entries node)
        (entries.foldl TrainsNode.applyAction (node, outputs)).1 := by
  induction entries with
  | nil => exact fun tidy _ _ => .quiet tidy rfl
  | cons entry rest ih =>
    intro node tidy inside outputs
    have now := tidy.applyAction entry (inside entry List.mem_cons_self)
    rw [List.foldl_cons, applyAction_outputs]
    exact now.append (ih now.tidy (fun other member => inside other (List.mem_cons_of_mem _ member)) _)

end TrainsNode

/-- The calls that receive a train whose key is parked and deliverable. -/
def NodeCall.Redelivers (node : TrainsNode cfg) : NodeCall cfg → Prop
  | .step (.trainReceived train) => node.Redelivers train
  | _ => False

instance (node : TrainsNode cfg) : (call : NodeCall cfg) → Decidable (call.Redelivers node)
  | .step (.trainReceived train) => inferInstanceAs (Decidable (node.Redelivers train))
  | .step (.localBroadcast _) | .step .tick | .issueInitialTrain | .reissueTrain | .confirmCrash _
  | .markCrashed _ | .readmitNode _ | .setFrozen _ | .recoveryReport | .applyRecovery _ =>
    instDecidableFalse

open TrainsNode

/-- **Every other call records its keys once.** -/
theorem NodeCall.distinct {node : TrainsNode cfg} (tidy : node.Tidy) {call : NodeCall cfg}
    (inRange : call.InRange) (safe : ¬ call.Redelivers node) :
    Distinct node (call.records node) (call.run node).1 := by
  cases call with
  | step input =>
    cases input with
    | trainReceived train => exact tidy.handleTrain safe
    | localBroadcast data =>
      have keeps := node.handleBroadcast_keeps data
      have done := congrArg DeliveryState.doneKeys keeps.2.2.1
      refine .quiet (tidy.congr keeps.2.2.2.1 done fun q => le_of_eq ?_) done
      exact congrArg (fun state : ClockState cfg => state.lastSeen q) keeps.2.1.symm
    | tick => exact .quiet tidy rfl
  | confirmCrash p =>
    have marked : (node.markCrashed p).Tidy := tidy.congr rfl rfl fun _ => le_rfl
    exact marked.drainParked.start rfl
  | applyRecovery plan =>
    have loop := Tidy.applyActions plan.actions.entries tidy
      (fun entry member => inRange entry.1 (List.mem_map_of_mem member)) []
    have installed : (TrainsNode.installView
        (plan.actions.entries.foldl applyAction (node, [])).1 plan).Tidy :=
      loop.tidy.congr rfl rfl fun _ => le_rfl
    exact loop.append (installed.drainParked.start rfl)
  | issueInitialTrain => exact .quiet (tidy.congr rfl rfl fun _ => le_rfl) rfl
  | reissueTrain => exact .quiet (tidy.congr rfl rfl fun _ => le_rfl) rfl
  | markCrashed p => exact .quiet (tidy.congr rfl rfl fun _ => le_rfl) rfl
  | readmitNode p => exact .quiet (tidy.congr rfl rfl fun _ => le_rfl) rfl
  | setFrozen frozen => exact .quiet (tidy.congr rfl rfl fun _ => le_rfl) rfl
  | recoveryReport => exact .quiet tidy rfl

/-! ### The call that goes wrong -/

namespace TrainsNode

/-- Recording a key closes no gate. -/
theorem isDeliverable_deliverNow {node : TrainsNode cfg} {key : ClockKey} (recorded : ClockKey)
    (payloads : List Payload) (deliverable : node.isDeliverable key = true) :
    (node.deliverNow recorded payloads).1.isDeliverable key = true := by
  have frame := node.deliverNow_frame recorded payloads
  simp only [isDeliverable, seenClocksAdvancedEnough, DeliveryState.alreadyDelivered,
    DeliveryState.isCrashed, frame.clockState, frame.crashedBits, deliverNow_parked,
    deliverNow_doneKeys, Bool.and_eq_true, List.all_eq_true, Bool.or_eq_true,
    decide_eq_true_eq, Finset.mem_insert] at deliverable ⊢
  exact ⟨⟨deliverable.1.1, fun q inside clock low =>
    (deliverable.1.2 q inside clock low).imp_right Or.inr⟩, deliverable.2⟩

/-- A parked key that is deliverable is the smallest one. -/
theorem min_of_deliverable {node : TrainsNode cfg} {key : ClockKey}
    (isParked : (node.parked.get? key).isSome) (deliverable : node.isDeliverable key = true) :
    ∃ train, node.parked.min? = some (key, train) := by
  obtain ⟨held, found⟩ := Option.isSome_iff_exists.mp isParked
  cases smallest : node.parked.min? with
  | none =>
    rw [OrdMap.min?_eq_none.mp smallest key] at found
    cases found
  | some head =>
    obtain ⟨first, waiting⟩ := head
    obtain ⟨inParked, least⟩ := OrdMap.min?_eq_some smallest
    have notBelow : ¬ first < key := by
      simp only [isDeliverable, Bool.and_eq_true, List.all_eq_true, Bool.not_eq_true',
        decide_eq_false_iff_not] at deliverable
      exact deliverable.1.1 first (OrdMap.mem_keys_iff _ |>.mpr ⟨waiting, inParked⟩)
    have same : first = key := le_antisymm (least key held found) (not_lt.mp notBelow)
    exact ⟨waiting, by rw [same]⟩

/-- The drain records the smallest parked key first, when it is deliverable. -/
theorem drainEntries_of_deliverable {node : TrainsNode cfg} {key : ClockKey}
    (unfrozen : node.frozen = false) (isParked : (node.parked.get? key).isSome)
    (deliverable : node.isDeliverable key = true) :
    ∃ (train : Train) (more : List Entry), node.drainEntries = (key, train.payloads) :: more := by
  obtain ⟨train, smallest⟩ := min_of_deliverable isParked deliverable
  obtain ⟨held, found⟩ := Option.isSome_iff_exists.mp isParked
  have shrinks := OrdMap.size_erase_lt found
  obtain ⟨fuel, size⟩ := Nat.exists_eq_succ_of_ne_zero (n := node.parked.size) (by omega)
  refine ⟨train, drainLoopEntries fuel ((node.unpark key).deliverNow key train.payloads).1, ?_⟩
  unfold drainEntries
  rw [if_neg (by simp [unfrozen]), size]
  simp only [drainLoopEntries, smallest, deliverable, if_true]

/-- **The key is recorded by `try_deliver` and by the drain after it.** -/
theorem attempt_repeats {node : TrainsNode cfg} {train : Train} (unfrozen : node.frozen = false)
    (fresh : train.key ∉ node.delivery.doneKeys)
    (ready : node.delivery.readyToDeliver train.ackBits node.delivery.mode = true)
    (isParked : (node.parked.get? train.key).isSome)
    (deliverable : node.isDeliverable train.key = true) :
    ¬ ((node.attemptEntries train).map Prod.fst).Nodup := by
  have tried : node.tryEntries train = [(train.key, train.payloads)] := by
    simp [tryEntries, unfrozen, ready, deliverable, DeliveryState.alreadyDelivered, fresh]
  have same : (node.tryDeliver train).1 = (node.deliverNow train.key train.payloads).1 := by
    simp [tryDeliver, unfrozen, ready, deliverable, DeliveryState.alreadyDelivered, fresh]
  have frame := node.deliverNow_frame train.key train.payloads
  have stillParked : ((node.deliverNow train.key train.payloads).1.parked.get? train.key).isSome := by
    rw [deliverNow_parked]
    exact isParked
  obtain ⟨held, more, drained⟩ := drainEntries_of_deliverable (frame.frozen.trans unfrozen)
    stillParked (isDeliverable_deliverNow train.key train.payloads deliverable)
  unfold attemptEntries
  rw [tried, same, drained]
  simp

theorem redelivers_repeats {node : TrainsNode cfg} (tidy : node.Tidy) {train : Train}
    (redelivers : node.Redelivers train) : ¬ ((node.handleEntries train).map Prod.fst).Nodup := by
  obtain ⟨unfrozen, fresh, ready, isParked, deliverable⟩ := redelivers
  obtain ⟨held, found⟩ := Option.isSome_iff_exists.mp isParked
  obtain ⟨inside, seen⟩ := tidy.seen train.key held found
  have undone := tidy.apart train.key held found
  unfold handleEntries
  rw [if_neg fresh]
  by_cases own : train.issuer = node.id
  · have same : node.observe node.id train.clock = node := Replica.observe_of_seen (own ▸ seen)
    rw [if_pos own, if_neg undone, same]
    exact attempt_repeats unfrozen undone ready isParked deliverable
  · have positive : 0 < train.clock :=
      Nat.pos_of_ne_zero fun zero => fresh ⟨inside, by rw [zero]; exact Nat.zero_le _⟩
    rw [if_neg own, if_pos ⟨seen, lt_of_lt_of_le positive seen⟩]
    have repeats : ¬ (((node.noteSeen train.payloads).attemptEntries train).map Prod.fst).Nodup :=
      attempt_repeats unfrozen undone ready isParked deliverable
    exact repeats

end TrainsNode

/-! ### Whole runs -/

namespace Recording

/-- `record_delivered` has been called at most once for each key, so with no key that was done;
no key has given rise to two `Deliver` outputs; and no key is both parked and done. -/
structure Once (st : Recording cfg) : Prop where
  recorded : (st.recorded.map Prod.fst).Nodup
  delivered : ((st.recorded.filter fun entry => !entry.2.isEmpty).map Prod.fst).Nodup
  apart : ∀ key train, st.node.parked.get? key = some train → key ∉ st.node.delivery.doneKeys

/-- No call receives a train whose key is parked and deliverable. -/
def Orderly : Recording cfg → List (NodeCall cfg) → Prop
  | _, [] => True
  | st, call :: rest => ¬ call.Redelivers st.node ∧ Orderly (st.call call) rest

instance decidableOrderly : ∀ (st : Recording cfg) (calls : List (NodeCall cfg)),
    Decidable (st.Orderly calls)
  | _, [] => isTrue trivial
  | st, call :: rest =>
    have := decidableOrderly (st.call call) rest
    inferInstanceAs (Decidable (¬ call.Redelivers st.node ∧ Orderly (st.call call) rest))

theorem once_of_nodup {st : Recording cfg} (tidy : st.node.Tidy)
    (nodup : (st.recorded.map Prod.fst).Nodup) : st.Once :=
  ⟨nodup, nodup.sublist (List.filter_sublist.map Prod.fst), tidy.apart⟩

/-- Records are never taken back. -/
theorem recorded_grows (calls : List (NodeCall cfg)) : ∀ st : Recording cfg,
    st.recorded <+: (st.calls calls).recorded := by
  induction calls with
  | nil => exact fun st => List.prefix_rfl
  | cons call rest ih => exact fun st => (List.prefix_append _ _).trans (ih (st.call call))

/-- A call that does not redeliver keeps the records distinct. -/
theorem nodup_call {st : Recording cfg} (accounted : st.Accounted) (tidy : st.node.Tidy)
    (nodup : (st.recorded.map Prod.fst).Nodup) {call : NodeCall cfg} (inRange : call.InRange)
    (safe : ¬ call.Redelivers st.node) :
    (st.call call).node.Tidy ∧ ((st.call call).recorded.map Prod.fst).Nodup := by
  have distinct := call.distinct tidy inRange safe
  refine ⟨distinct.tidy, ?_⟩
  show ((st.recorded ++ call.records st.node).map Prod.fst).Nodup
  rw [List.map_append]
  refine nodup.append distinct.nodup fun key old new => ?_
  obtain ⟨entry, member, rfl⟩ := List.mem_map.mp new
  have unknown := distinct.fresh entry member
  rw [accounted.done] at unknown
  exact unknown (List.mem_toFinset.mpr old)

theorem once_iff (calls : List (NodeCall cfg)) : ∀ {st : Recording cfg}, st.Accounted →
    st.node.Tidy → (st.recorded.map Prod.fst).Nodup → (∀ call ∈ calls, call.InRange) →
    ((st.calls calls).Once ↔ st.Orderly calls) := by
  induction calls with
  | nil => exact fun _ tidy nodup _ => ⟨fun _ => trivial, fun _ => once_of_nodup tidy nodup⟩
  | cons call rest ih =>
    intro st accounted tidy nodup inRange
    have here := inRange call List.mem_cons_self
    have later := fun other member => inRange other (List.mem_cons_of_mem call member)
    have onward : ¬ call.Redelivers st.node →
        ((st.calls (call :: rest)).Once ↔ (st.call call).Orderly rest) := by
      intro safe
      obtain ⟨tidy', nodup'⟩ := nodup_call accounted tidy nodup here safe
      exact ih (accounted.call call) tidy' nodup' later
    refine ⟨fun once => ?_, fun ⟨safe, orderly⟩ => (onward safe).mpr orderly⟩
    have safe : ¬ call.Redelivers st.node := by
      intro redelivers
      -- the records of the call stay in the run's
      have kept := once.recorded.sublist
        ((recorded_grows rest (st.call call)).sublist.map Prod.fst)
      have part : ((call.records st.node).map Prod.fst).Nodup := by
        refine kept.sublist ((List.sublist_append_right st.recorded _).map Prod.fst)
      cases call with
      | step input =>
        cases input with
        | trainReceived train => exact redelivers_repeats tidy redelivers part
        | localBroadcast data => exact redelivers
        | tick => exact redelivers
      | _ => exact redelivers
    exact ⟨safe, (onward safe).mp once⟩

end Recording

/-- A train is parked, the gate opens while the node is frozen, and unfreezing does not drain. -/
def thawed : List (NodeCall .triple) :=
  [.step (.trainReceived ⟨0, 1, [⟨0, 0, [5]⟩], 1#32⟩),
    .step (.trainReceived ⟨0, 1, [⟨0, 0, [5]⟩], 7#32⟩), .setFrozen true,
    .step (.trainReceived ⟨1, 1, [], 2#32⟩), .setFrozen false]

def bystander : Recording .triple :=
  ⟨TrainsNode.new .triple 2 (by decide) .uniformTotalOrder, [], []⟩

/-- The next copy of the parked train is delivered twice. -/
theorem delivered_twice : ¬ ∀ (cfg : RingConfig) (first : Recording cfg)
    (calls : List (NodeCall cfg)), first.Constructed → (∀ call ∈ calls, call.InRange) →
      (first.calls calls).Once := by
  intro holds
  have once := holds .triple bystander
    (thawed ++ [.step (.trainReceived ⟨0, 1, [⟨0, 0, [5]⟩], 7#32⟩)]) ⟨2, by decide, _, rfl⟩
    (by decide +kernel)
  exact absurd once.delivered (by decide +kernel)

/-- **At most one delivery for each key** in every run without such a call, and in no other. The
done keys are the recorded ones and the `Deliver` outputs are those of the records. -/
theorem delivered_once {first : Recording cfg} (constructed : first.Constructed)
    {calls : List (NodeCall cfg)} (inRange : ∀ call ∈ calls, call.InRange) :
    (first.calls calls).node.delivery.doneKeys =
        ((first.calls calls).recorded.map Prod.fst).toFinset ∧
      delivers (first.calls calls).outputs = announcements (first.calls calls).recorded ∧
      ((first.calls calls).Once ↔ first.Orderly calls) := by
  have accounted := constructed.accounted
  have final := accounted.calls calls
  refine ⟨final.done, final.announced, ?_⟩
  obtain ⟨id, id_lt, mode, rfl⟩ := constructed
  refine Recording.once_iff calls accounted ⟨?_, ?_⟩ List.nodup_nil inRange
  · exact fun key train found => absurd found (by simp [TrainsNode.new])
  · exact fun key train found => absurd found (by simp [TrainsNode.new])

/-- After a crash is confirmed instead, the drain delivers the parked train. -/
theorem delivered_once_triple :
    (bystander.calls (thawed ++ [.confirmCrash 1,
      .step (.trainReceived ⟨0, 1, [⟨0, 0, [5]⟩], 7#32⟩)])).Once := by
  have constructed : bystander.Constructed := ⟨2, by decide, _, rfl⟩
  have inRange : ∀ call ∈ thawed ++ [.confirmCrash 1,
      .step (.trainReceived ⟨0, 1, [⟨0, 0, [5]⟩], 7#32⟩)], call.InRange := by decide +kernel
  have all := delivered_once constructed inRange
  exact all.2.2.mpr (by decide +kernel)

end TrainsRing
