/-
**Calls that leave a node settled.**

The gates of a parked train open when a clock is seen, a key is recorded or a process is marked
crashed. Every call that can do so drains before it returns, except `set_frozen(false)` and
`mark_crashed`. So under the other calls a node that is not frozen has nothing left to drain.

* `TrainsNode.Settling` — tidy, drained unless frozen, and every done key seen.
* `Settling.drainParked_eq` — draining again does nothing.
* `Settling.handleTrain`, `Settling.applyRecovery` — **received trains and plans keep it.**
* `NodeCall.Settles`, `Settling.call` — the calls that keep it; `settling_reachable` is the run.
-/

import TrainsRing.Interface.Deliveries
import TrainsRing.Library.Machine

namespace TrainsRing

variable {cfg : RingConfig}

namespace TrainsNode

/-- A tidy node that has drained, all of whose done keys have been seen. -/
structure Settling (node : TrainsNode cfg) : Prop where
  tidy : node.Tidy
  drained : node.frozen = false → node.Drained
  seen : ∀ key ∈ node.delivery.doneKeys, key.clock ≤ node.seenClock key.issuer

/-- A settling node delivers no parked train but by draining. -/
theorem Settling.safe {node : TrainsNode cfg} (settling : node.Settling) (train : Train) :
    ¬ node.Redelivers train := by
  rintro ⟨unfrozen, -, -, isParked, deliverable⟩
  rw [Replica.not_parked (settling.drained unfrozen) deliverable] at isParked
  cases isParked

/-- **Draining again does nothing.** -/
theorem Settling.drainParked_eq {node : TrainsNode cfg} (settling : node.Settling) :
    node.drainParked = (node, []) := by
  unfold drainParked
  by_cases frozen : node.frozen = true
  · exact if_pos frozen
  rw [if_neg frozen]
  have drained := settling.drained (by simpa using frozen)
  cases node.parked.size with
  | zero => rfl
  | succ fuel =>
    unfold drainLoop
    cases smallest : node.parked.min? with
    | none => rfl
    | some head => simp [drained head.1 head.2 smallest]

/-! ### What is recorded has been seen -/

/-- A run of deliveries records parked trains only. -/
theorem Delivers.parked {node after : TrainsNode cfg} {records : List Entry}
    (run : Delivers node records after) : ∀ entry ∈ records, ∃ train,
      node.parked.get? entry.1 = some train ∧ entry.2 = train.payloads := by
  induction run with
  | nil node => exact fun _ member => absurd member List.not_mem_nil
  | @cons node after key train records parked _ _ ih =>
    intro entry member
    rcases List.mem_cons.mp member with rfl | later
    · exact ⟨train, parked, rfl⟩
    · obtain ⟨held, found, cargo⟩ := ih entry later
      rw [deliverNow_parked, unpark, OrdMap.get?_erase] at found
      split_ifs at found
      exact ⟨held, found, cargo⟩

/-- What a drain records has been seen. -/
theorem Tidy.drained_seen {node : TrainsNode cfg} (tidy : node.Tidy) :
    ∀ entry ∈ node.drainEntries, entry.1.clock ≤ node.seenClock entry.1.issuer := by
  intro entry member
  obtain ⟨train, found, -⟩ := node.drainParked_entries.1.parked entry member
  exact (tidy.seen _ train found).2

/-- An attempt records the key of the train at most. -/
theorem key_of_tryEntries {node : TrainsNode cfg} {train : Train} {entry : Entry}
    (member : entry ∈ node.tryEntries train) : entry = (train.key, train.payloads) := by
  unfold tryEntries at member
  split_ifs at member
  · exact absurd member List.not_mem_nil
  · exact absurd member List.not_mem_nil
  · exact absurd member List.not_mem_nil
  · exact absurd member List.not_mem_nil
  · exact List.mem_singleton.mp member

/-- What an attempt to deliver a seen train and the drain after it record has been seen. -/
theorem attempt_seen {node : TrainsNode cfg} {train : Train} (tried : (node.tryDeliver train).1.Tidy)
    (seen : train.clock ≤ node.seenClock train.issuer) :
    ∀ entry ∈ node.attemptEntries train, entry.1.clock ≤ node.seenClock entry.1.issuer := by
  intro entry member
  rcases List.mem_append.mp member with now | later
  · rw [key_of_tryEntries now]
    exact seen
  · have frame := (node.tryDeliver_entries train).1.frame
    have known := tried.drained_seen entry later
    rw [seenClock, frame.clockState] at known
    exact known

theorem Frame.seenClock {node after : TrainsNode cfg} (frame : Frame node after) (q : Nat) :
    after.seenClock q = node.seenClock q := by
  rw [TrainsNode.seenClock, frame.clockState, TrainsNode.seenClock]

/-! ### The branches of a received train -/

/-- A train that is not stale goes to the issuer's or to the foreign branch. -/
theorem handleTrain_fresh {node : TrainsNode cfg} {train : Train} (fresh : ¬ node.Stale train) :
    node.handleTrain train = if train.issuer = node.id then
      node.handleReturningTrain train else node.handleForeignTrain train := if_neg fresh

theorem handleTrain_stale {node : TrainsNode cfg} {train : Train} (stale : node.Stale train) :
    node.handleTrain train = (node, []) := if_pos stale

theorem handleTrain_foreign {node : TrainsNode cfg} {train : Train} (fresh : ¬ node.Stale train)
    (foreign : train.issuer ≠ node.id) :
    node.handleTrain train = node.handleForeignTrain train := by
  rw [handleTrain_fresh fresh, if_neg foreign]

/-- A train of the node's own whose key is open. -/
theorem handleTrain_returned {node : TrainsNode cfg} {train : Train} (fresh : ¬ node.Stale train)
    (own : train.issuer = node.id) (undone : train.key ∉ node.delivery.doneKeys) :
    node.handleTrain train =
      (((node.observe node.id train.clock).tryDeliver train).1.drainParked.1,
        ((node.observe node.id train.clock).tryDeliver train).2 ++
          ((node.observe node.id train.clock).tryDeliver train).1.drainParked.2 ++
            [.forwardTrain train]) := by
  rw [handleTrain_fresh fresh, if_pos own]
  unfold handleReturningTrain
  simp only [DeliveryState.alreadyDelivered, undone, decide_false]
  rfl

/-- What a step leaves alone, and what it adds to only. -/
structure Advances (node after : TrainsNode cfg) : Prop where
  id : after.id = node.id
  mode : after.delivery.mode = node.delivery.mode
  crashedBits : after.delivery.crashedBits = node.delivery.crashedBits
  viewFloor : after.viewFloor = node.viewFloor
  frozen : after.frozen = node.frozen
  seen : ∀ q, node.seenClock q ≤ after.seenClock q
  done : node.delivery.doneKeys ⊆ after.delivery.doneKeys
  stamp : node.nextIssueClock ≤ after.nextIssueClock

theorem Advances.refl (node : TrainsNode cfg) : Advances node node :=
  ⟨rfl, rfl, rfl, rfl, rfl, fun _ => le_rfl, fun _ done => done, le_rfl⟩

theorem Advances.trans {node middle after : TrainsNode cfg} (first : Advances node middle)
    (second : Advances middle after) : Advances node after :=
  ⟨second.id.trans first.id, second.mode.trans first.mode,
    second.crashedBits.trans first.crashedBits, second.viewFloor.trans first.viewFloor,
    second.frozen.trans first.frozen, fun q => (first.seen q).trans (second.seen q),
    fun _ done => second.done (first.done done), first.stamp.trans second.stamp⟩

/-- Delivering after the clock of a train is stored. -/
theorem Frame.advances {node middle after : TrainsNode cfg} (frame : Frame middle after)
    (start : Advances node middle) (done : node.delivery.doneKeys ⊆ after.delivery.doneKeys) :
    Advances node after :=
  ⟨frame.id.trans start.id, frame.mode.trans start.mode,
    frame.crashedBits.trans start.crashedBits, frame.viewFloor.trans start.viewFloor,
    frame.frozen.trans start.frozen, fun q => (frame.seenClock q).symm ▸ start.seen q, done,
    frame.nextIssueClock.symm ▸ start.stamp⟩

theorem observe_advances (node : TrainsNode cfg) (issuer clock : Nat) :
    Advances node (node.observe issuer clock) :=
  ⟨rfl, rfl, rfl, rfl, rfl, node.seenClock_le_observe issuer clock, fun _ done => done, le_rfl⟩

/-- **A received train.** -/
theorem handleTrain_advances (node : TrainsNode cfg) (train : Train) :
    Advances node (node.handleTrain train).1 := by
  have done : node.delivery.doneKeys ⊆ (node.handleTrain train).1.delivery.doneKeys := by
    rw [(node.logged_handleTrain train).done]
    exact Finset.subset_union_left
  obtain ⟨_, _, handled, -⟩ := node.handleTrain_spec train
  generalize (node.handleTrain train).1 = after at handled done
  cases handled with
  | absorbed _ => exact .refl node
  | visited _ _ _ run _ =>
    have visit : Advances node (node.visit train) :=
      ⟨rfl, rfl, rfl, rfl, rfl, node.seenClock_le_observe train.issuer train.clock,
        fun _ done => done, le_rfl⟩
    exact run.frame.advances visit done
  | replayed _ _ _ tried run _ =>
    have noted : Advances node (node.noteSeen train.payloads) :=
      ⟨rfl, rfl, rfl, rfl, rfl, fun _ => le_rfl, fun _ done => done, le_rfl⟩
    exact (tried.frame.trans run.frame).advances noted done
  | recycled _ _ _ =>
    have issued : ∀ observed : TrainsNode cfg, Advances observed observed.issueNewTrain.1 :=
      fun observed => ⟨rfl, rfl, rfl, rfl, rfl, fun _ => le_rfl, fun _ done => done,
        le_satSucc observed.nextIssueClock⟩
    exact (node.observe_advances node.id train.clock).trans (issued _)
  | returned _ _ _ tried run _ =>
    exact (tried.frame.trans run.frame).advances (node.observe_advances node.id train.clock) done

/-- **A step.** -/
theorem step_advances (node : TrainsNode cfg) (input : Input) :
    Advances node (node.step input).1 := by
  cases input with
  | trainReceived train => exact node.handleTrain_advances train
  | tick => exact .refl node
  | localBroadcast data =>
    show Advances node (node.handleBroadcast data).1
    unfold TrainsNode.handleBroadcast
    split_ifs <;> exact ⟨rfl, rfl, rfl, rfl, rfl, fun _ => le_rfl, fun _ done => done, le_rfl⟩

namespace Settling

/-- A parked train's clock has been seen, so its own return stores nothing. -/
theorem observe_parked {node : TrainsNode cfg} (settling : node.Settling) {train held : Train}
    (own : train.issuer = node.id) (found : node.parked.get? train.key = some held) :
    node.observe node.id train.clock = node :=
  Replica.observe_of_seen (own ▸ (settling.tidy.seen train.key held found).2)

/-- An own train that is deliverable at its return is not parked. -/
theorem unparked_return {node : TrainsNode cfg} (settling : node.Settling) {train : Train}
    (own : train.issuer = node.id) (unfrozen : node.frozen = false)
    (deliverable : (node.observe node.id train.clock).isDeliverable train.key = true) :
    node.parked.get? train.key = none := by
  by_contra isParked
  obtain ⟨held, found⟩ := Option.ne_none_iff_exists'.mp isParked
  rw [settling.observe_parked own found] at deliverable
  exact isParked (Replica.not_parked (settling.drained unfrozen) deliverable)

/-- What a received train records has been seen. -/
theorem recorded_seen {node : TrainsNode cfg} (settling : node.Settling) (train : Train) :
    ∀ entry ∈ node.handleEntries train,
      entry.1.clock ≤ (node.handleTrain train).1.seenClock entry.1.issuer := by
  intro entry member
  have tidy := settling.tidy
  unfold handleEntries at member
  split_ifs at member with stale own isDone old
  · exact absurd member List.not_mem_nil
  · exact absurd member List.not_mem_nil
  · have observed : (node.observe node.id train.clock).Tidy :=
      tidy.congr rfl rfl (node.seenClock_le_observe node.id train.clock)
    have known : train.clock ≤ (node.observe node.id train.clock).seenClock train.issuer := by
      rw [own, seenClock_observe node node.id_lt, if_pos rfl]
      exact le_max_right _ _
    have tried := observed.tryDeliver (own ▸ node.id_lt) known fun unfrozen _ deliverable =>
      settling.unparked_return own unfrozen deliverable
    have frame := ((node.observe node.id train.clock).tryDeliver_entries train).1.frame.trans
      (TrainsNode.drainParked_entries _).1.frame
    rw [handleTrain_returned stale own isDone, frame.seenClock]
    exact attempt_seen tried.tidy known entry member
  · have noted : (node.noteSeen train.payloads).Tidy := tidy.congr rfl rfl fun _ => le_rfl
    have tried := noted.tryDeliver old.inside old.1 fun unfrozen _ deliverable =>
      Replica.not_parked (settling.drained unfrozen) deliverable
    have frame := ((node.noteSeen train.payloads).tryDeliver_entries train).1.frame.trans
      (TrainsNode.drainParked_entries _).1.frame
    rw [handleTrain_foreign stale own, handleForeignTrain_replay old, frame.seenClock]
    exact attempt_seen tried.tidy old.1 entry member
  · have visited : (node.visit train).Tidy :=
      tidy.congr rfl rfl (node.seenClock_le_observe train.issuer train.clock)
    rw [handleTrain_foreign stale own, handleForeignTrain_visit old,
      (TrainsNode.drainParked_entries _).1.frame.seenClock]
    exact visited.drained_seen entry member

/-- **A received train leaves a node settled.** -/
theorem handleTrain {node : TrainsNode cfg} (settling : node.Settling) (train : Train) :
    (node.handleTrain train).1.Settling := by
  have distinct := settling.tidy.handleTrain (settling.safe train)
  have done := (node.logged_handleTrain train).done
  refine ⟨distinct.tidy, ?_, fun key isDone => ?_⟩
  · obtain ⟨_, _, handled, -⟩ := node.handleTrain_spec train
    generalize (node.handleTrain train).1 = after at handled ⊢
    cases handled with
    | absorbed _ => exact settling.drained
    | visited _ _ _ run settled => exact fun unfrozen => settled (run.frame.frozen ▸ unfrozen)
    | replayed _ _ _ tried run settled =>
      exact fun unfrozen => settled ((tried.frame.trans run.frame).frozen ▸ unfrozen)
    | recycled _ own isDone =>
      -- the key is done, so its clock has been seen
      have same : node.observe node.id train.clock = node :=
        Replica.observe_of_seen (own ▸ settling.seen train.key isDone)
      rw [same]
      exact fun unfrozen => Replica.drained_congr (settling.drained unfrozen) rfl rfl rfl
    | returned _ _ _ tried run settled =>
      exact fun unfrozen => settled ((tried.frame.trans run.frame).frozen ▸ unfrozen)
  · rw [done, Finset.mem_union, List.mem_toFinset] at isDone
    rcases isDone with old | new
    · exact (settling.seen key old).trans ((node.handleTrain_advances train).seen _)
    · obtain ⟨entry, member, rfl⟩ := List.mem_map.mp new
      exact settling.recorded_seen train entry member

/-- Only the clocks, the delivery state, the parked trains and the freeze matter. -/
theorem congr {node after : TrainsNode cfg} (settling : node.Settling)
    (clocks : after.clockState = node.clockState) (delivery : after.delivery = node.delivery)
    (parked : after.parked = node.parked) (frozen : after.frozen = node.frozen) :
    after.Settling := by
  have seen : ∀ q, after.seenClock q = node.seenClock q := fun q =>
    congrArg (fun state : ClockState cfg => state.lastSeen q) clocks
  have done := congrArg DeliveryState.doneKeys delivery
  refine ⟨settling.tidy.congr parked done fun q => (seen q).ge, fun unfrozen => ?_,
    fun key isDone => ?_⟩
  · exact Replica.drained_congr (settling.drained (frozen ▸ unfrozen)) clocks delivery parked
  · rw [seen]
    exact settling.seen key (done ▸ isDone)

theorem handleBroadcast {node : TrainsNode cfg} (settling : node.Settling) (data : List UInt8) :
    (node.handleBroadcast data).1.Settling := by
  obtain ⟨-, clocks, delivery, parked, -, frozen⟩ := node.handleBroadcast_keeps data
  exact settling.congr clocks delivery parked frozen

theorem issueNewTrain {node : TrainsNode cfg} (settling : node.Settling) :
    node.issueNewTrain.1.Settling := settling.congr rfl rfl rfl rfl

theorem step {node : TrainsNode cfg} (settling : node.Settling) (input : Input) :
    (node.step input).1.Settling := by
  cases input with
  | trainReceived train => exact settling.handleTrain train
  | localBroadcast data => exact settling.handleBroadcast data
  | tick => exact settling

/-- A drain leaves a tidy node settled. -/
theorem of_drain {node : TrainsNode cfg} (tidy : node.Tidy)
    (seen : ∀ key ∈ node.delivery.doneKeys, key.clock ≤ node.seenClock key.issuer) :
    node.drainParked.1.Settling := by
  obtain ⟨run, -, drained⟩ := node.drainParked_entries
  have distinct := tidy.drainParked
  refine ⟨distinct.tidy, fun unfrozen => drained (run.frame.frozen ▸ unfrozen), fun key isDone => ?_⟩
  rw [run.frame.seenClock]
  rw [distinct.done, Finset.mem_union, List.mem_toFinset] at isDone
  rcases isDone with old | new
  · exact seen key old
  · obtain ⟨entry, member, rfl⟩ := List.mem_map.mp new
    exact tidy.drained_seen entry member

theorem confirmCrash {node : TrainsNode cfg} (settling : node.Settling) (p : Nat) :
    (node.confirmCrash p).1.Settling := by
  have marked : (node.markCrashed p).Tidy := settling.tidy.congr rfl rfl fun _ => le_rfl
  exact of_drain marked settling.seen

/-- Counting a process as alive again closes gates only. -/
theorem readmitNode {node : TrainsNode cfg} (settling : node.Settling) (p : Nat) :
    (node.readmitNode p).Settling := by
  have crashed : ∀ q, (node.readmitNode p).delivery.isCrashed q = true →
      node.delivery.isCrashed q = true := by
    intro q isCrashed
    by_contra alive
    have clear : node.delivery.crashedBits &&& (1#32 <<< q) = 0#32 := by
      simpa [DeliveryState.isCrashed, hasBit] using alive
    have masked : node.delivery.crashedBits &&& ~~~(1#32 <<< p) &&& (1#32 <<< q) = 0#32 := by
      rw [BitVec.and_assoc, BitVec.and_comm (~~~_), ← BitVec.and_assoc, clear, BitVec.zero_and]
    simp [TrainsNode.readmitNode, DeliveryState.unmarkCrashed, DeliveryState.isCrashed, hasBit,
      masked] at isCrashed
  refine ⟨settling.tidy.congr rfl rfl fun _ => le_rfl, fun unfrozen key train smallest => ?_,
    settling.seen⟩
  have blocked := settling.drained unfrozen key train smallest
  by_contra deliverable
  refine absurd blocked ?_
  simp only [Bool.not_eq_false, isDeliverable, seenClocksAdvancedEnough, Bool.and_eq_true,
    List.all_eq_true, Bool.or_eq_true] at deliverable ⊢
  exact ⟨deliverable.1, fun q member => (deliverable.2 q member).imp_left (crashed q)⟩

theorem setFrozen {node : TrainsNode cfg} (settling : node.Settling) :
    (node.setFrozen true).Settling :=
  ⟨settling.tidy.congr rfl rfl fun _ => le_rfl, fun unfrozen => absurd unfrozen (by
    simp [TrainsNode.setFrozen]), settling.seen⟩

end Settling

/-! ### Plans -/

/-- One round of `apply_recovery` stores the clock of its key. -/
theorem seenClock_applyAction (state : TrainsNode cfg × List Output)
    (entry : ClockKey × RecoveryAction) (q : Nat) : (applyAction state entry).1.seenClock q =
      (state.1.observe entry.1.issuer entry.1.clock).seenClock q := by
  rw [applyAction_eq]
  dsimp only
  split_ifs with done
  · rfl
  · exact (deliverNow_frame _ entry.1 entry.2.payloads).seenClock q

/-- The key's clock is stored before the key is recorded. -/
theorem applyAction_seen {state : TrainsNode cfg × List Output}
    (known : ∀ key ∈ state.1.delivery.doneKeys, key.clock ≤ state.1.seenClock key.issuer)
    {entry : ClockKey × RecoveryAction} (inside : entry.1.issuer < cfg.ringSize) :
    ∀ key ∈ (applyAction state entry).1.delivery.doneKeys,
      key.clock ≤ (applyAction state entry).1.seenClock key.issuer := by
  intro key isDone
  have done := (state.1.logged_applyAction entry).done
  rw [← state.1.applyAction_node state.2] at done
  rw [show applyAction state entry = applyAction (state.1, state.2) entry from rfl, done,
    Finset.mem_union, List.mem_toFinset] at isDone
  rw [seenClock_applyAction]
  rcases isDone with old | new
  · exact (known key old).trans (state.1.seenClock_le_observe _ _ _)
  · have same : key = entry.1 := by
      unfold actionEntries at new
      split_ifs at new
      · exact absurd new List.not_mem_nil
      · exact List.mem_singleton.mp new
    rw [same, seenClock_observe state.1 inside, if_pos rfl]
    exact le_max_right _ _

theorem applyActions_seen (entries : List (ClockKey × RecoveryAction)) :
    ∀ (state : TrainsNode cfg × List Output),
      (∀ key ∈ state.1.delivery.doneKeys, key.clock ≤ state.1.seenClock key.issuer) →
      (∀ entry ∈ entries, entry.1.issuer < cfg.ringSize) →
      ∀ key ∈ (entries.foldl applyAction state).1.delivery.doneKeys,
        key.clock ≤ (entries.foldl applyAction state).1.seenClock key.issuer := by
  induction entries with
  | nil => exact fun _ known _ => known
  | cons entry rest ih =>
    intro state known inside
    exact ih _ (applyAction_seen known (inside entry List.mem_cons_self))
      fun other member => inside other (List.mem_cons_of_mem entry member)

/-- **A plan whose keys are inside the ring leaves a node settled.** -/
theorem Settling.applyRecovery {node : TrainsNode cfg} (settling : node.Settling)
    {plan : RecoveryPlan cfg}
    (inside : ∀ entry ∈ plan.actions.entries, entry.1.issuer < cfg.ringSize) :
    (node.applyRecovery plan).1.Settling := by
  have loop := Tidy.applyActions plan.actions.entries settling.tidy inside []
  have known := applyActions_seen plan.actions.entries (node, []) settling.seen inside
  have installed : (TrainsNode.installView
      (plan.actions.entries.foldl applyAction (node, [])).1 plan).Tidy :=
    loop.tidy.congr rfl rfl fun _ => le_rfl
  exact of_drain installed known

end TrainsNode

/-! ### Runs of calls -/

namespace NodeCall

/-- The calls that drain what they make deliverable. -/
def Settles : NodeCall cfg → Prop
  | setFrozen frozen => frozen = true
  | markCrashed _ => False
  | applyRecovery plan => ∀ key ∈ plan.actions.keys, key.issuer < cfg.ringSize
  | _ => True

instance : (call : NodeCall cfg) → Decidable call.Settles
  | setFrozen frozen => inferInstanceAs (Decidable (frozen = true))
  | markCrashed _ => instDecidableFalse
  | applyRecovery plan =>
    inferInstanceAs (Decidable (∀ key ∈ plan.actions.keys, key.issuer < cfg.ringSize))
  | step _ | issueInitialTrain | reissueTrain | confirmCrash _ | readmitNode _
  | recoveryReport => instDecidableTrue

end NodeCall

/-- **Such a call leaves a node settled.** -/
theorem TrainsNode.Settling.call {node : TrainsNode cfg} (settling : node.Settling)
    {call : NodeCall cfg} (settles : call.Settles) : (call.run node).1.Settling := by
  cases call with
  | step input => exact settling.step input
  | issueInitialTrain => exact settling.issueNewTrain
  | reissueTrain => exact settling.issueNewTrain
  | confirmCrash p => exact settling.confirmCrash p
  | markCrashed p => exact absurd settles not_false
  | readmitNode p => exact settling.readmitNode p
  | setFrozen frozen =>
    obtain rfl : frozen = true := settles
    exact settling.setFrozen
  | recoveryReport => exact settling
  | applyRecovery plan =>
    exact settling.applyRecovery fun entry member => settles entry.1 (List.mem_map_of_mem member)

/-- The runs of a node, from its construction, by admitted calls. -/
def nodeRuns (admits : NodeCall cfg → Prop) : Machine (TrainsNode cfg) (NodeCall cfg) where
  start := fun node => ∃ id id_lt mode, node = TrainsNode.new cfg id id_lt mode
  legal := fun _ call => admits call
  next := fun node call => (call.run node).1

instance (admits : NodeCall cfg → Prop) [DecidablePred admits] (node : TrainsNode cfg)
    (call : NodeCall cfg) : Decidable ((nodeRuns admits).legal node call) :=
  inferInstanceAs (Decidable (admits call))

theorem TrainsNode.Settling.new (id : Nat) (id_lt : id < cfg.ringSize) (mode : DeliveryMode) :
    (TrainsNode.new cfg id id_lt mode).Settling := by
  refine ⟨⟨fun key train found => ?_, fun key train found => ?_⟩, fun _ key train found => ?_,
    fun key done => absurd done (Finset.notMem_empty key)⟩
  · exact absurd found (by simp [TrainsNode.new])
  · exact absurd found (by simp [TrainsNode.new])
  · exact absurd (OrdMap.min?_eq_some found).1 (by simp [TrainsNode.new])

/-- **Every node reached by such calls is settled.** -/
theorem settling_reachable {admits : NodeCall cfg → Prop}
    (settles : ∀ call, admits call → call.Settles) {node : TrainsNode cfg}
    (reachable : (nodeRuns admits).Reachable node) : node.Settling := by
  refine Machine.invariant ?_ (fun _ call settling admitted => ?_) reachable
  · rintro _ ⟨id, id_lt, mode, rfl⟩
    exact .new id id_lt mode
  · exact settling.call (settles call admitted)

end TrainsRing
