/-
**What the driver keeps true of its node.**

The driver freezes the node before it marks a crash and lifts the freeze only by applying a plan,
which drains. So the node is drained whenever it is not frozen, and the unchecked path of
`drain_parked` never meets a done key.

* `TrainsNode.Steady` — settling, with every clock a `u64`.
* `Steady.handleTrain`, `Steady.applyRecovery` — **received trains and plans keep it.**
-/

import TrainsRing.Driver.Driver

namespace TrainsRing

variable {cfg : RingConfig}

namespace TrainsNode

/-- Settling, with every clock a `u64`. -/
structure Steady (node : TrainsNode cfg) : Prop where
  settling : node.Settling
  seen : ∀ q, node.seenClock q ≤ u64Max
  stamp : node.nextIssueClock ≤ u64Max

namespace Steady

theorem new (id : Nat) (id_lt : id < cfg.ringSize) (mode : DeliveryMode) :
    (TrainsNode.new cfg id id_lt mode).Steady := by
  refine ⟨.new id id_lt mode, fun q => ?_, ?_⟩
  · exact (Slots.get_zero q).trans_le (Nat.zero_le _)
  · show 1 ≤ u64Max
    decide

/-- Only the clocks, the delivery state, the parked trains and the freeze matter. -/
theorem congr {node after : TrainsNode cfg} (steady : node.Steady)
    (clocks : after.clockState = node.clockState) (delivery : after.delivery = node.delivery)
    (parked : after.parked = node.parked) (frozen : after.frozen = node.frozen)
    (stamp : after.nextIssueClock ≤ u64Max) : after.Steady := by
  have seen : ∀ q, after.seenClock q = node.seenClock q := fun q =>
    congrArg (fun state : ClockState cfg => state.lastSeen q) clocks
  exact ⟨steady.settling.congr clocks delivery parked frozen,
    fun q => (seen q).trans_le (steady.seen q), stamp⟩

theorem handleBroadcast {node : TrainsNode cfg} (steady : node.Steady) (data : List UInt8) :
    (node.handleBroadcast data).1.Steady := by
  obtain ⟨-, clocks, delivery, parked, -, frozen⟩ := node.handleBroadcast_keeps data
  refine steady.congr clocks delivery parked frozen ?_
  unfold TrainsNode.handleBroadcast
  split
  · exact steady.stamp
  · exact steady.stamp

theorem issueNewTrain {node : TrainsNode cfg} (steady : node.Steady) :
    node.issueNewTrain.1.Steady :=
  steady.congr rfl rfl rfl rfl (satSucc_le_max steady.stamp)

/-- Freezing a node and marking a crash. -/
theorem exclude {node : TrainsNode cfg} (steady : node.Steady) (victim : Nat) :
    ((node.setFrozen true).markCrashed victim).Steady :=
  ⟨⟨steady.settling.tidy.congr rfl rfl fun _ => le_rfl, fun unfrozen => absurd unfrozen (by
    simp [TrainsNode.markCrashed, TrainsNode.setFrozen]), steady.settling.seen⟩,
    steady.seen, steady.stamp⟩

/-- **A received train.** -/
theorem handleTrain {node : TrainsNode cfg} (steady : node.Steady) {train : Train}
    (inside : train.issuer < cfg.ringSize) (bounded : train.clock ≤ u64Max) :
    (node.handleTrain train).1.Steady := by
  obtain ⟨forwarded, handled, -⟩ := node.handleTrain_entries train
  obtain ⟨traffic, -, stores⟩ := handled.traffic inside
  refine ⟨steady.settling.handleTrain train, fun q => ?_, ?_⟩
  · rcases stores q with same | ⟨-, same⟩
    · exact same.trans_le (steady.seen q)
    · exact same.trans_le bounded
  · cases traffic with
    | absorbed _ same =>
      rw [same]
      exact steady.stamp
    | relayed _ _ _ _ clock _ _ => exact clock.trans_le steady.stamp
    | loaded _ _ _ _ clock _ => exact clock.trans_le steady.stamp
    | issued _ _ _ _ clock => exact clock.trans_le (satSucc_le_max steady.stamp)

/-! ### Plans -/

/-- A loop over keys with `u64` clocks. -/
theorem applyActions_bounded (entries : List (ClockKey × RecoveryAction)) :
    ∀ (state : TrainsNode cfg × List Output), (∀ q, state.1.seenClock q ≤ u64Max) →
      (∀ entry ∈ entries, entry.1.issuer < cfg.ringSize ∧ entry.1.clock ≤ u64Max) →
      ∀ q, (entries.foldl applyAction state).1.seenClock q ≤ u64Max := by
  induction entries with
  | nil => exact fun _ bounded _ => bounded
  | cons entry rest ih =>
    intro state bounded inRange
    obtain ⟨inside, typed⟩ := inRange entry List.mem_cons_self
    refine ih _ (fun q => ?_) fun other member => inRange other (List.mem_cons_of_mem entry member)
    rw [seenClock_applyAction, seenClock_observe state.1 inside]
    split_ifs
    · exact max_le (bounded _) typed
    · exact bounded q

/-- **A plan whose keys are inside the ring.** -/
theorem applyRecovery {node : TrainsNode cfg} (steady : node.Steady) {plan : RecoveryPlan cfg}
    (typed : plan.Typed) (inside : ∀ entry ∈ plan.actions.entries, entry.1.issuer < cfg.ringSize) :
    (node.applyRecovery plan).1.Steady := by
  have bounded := applyActions_bounded plan.actions.entries (node, []) steady.seen
    fun entry member => ⟨inside entry member, typed.2 entry member⟩
  have applied := node.applyRecovery_applied plan
  have frame := (TrainsNode.drainParked_entries (TrainsNode.installView
    (plan.actions.entries.foldl applyAction (node, [])).1 plan)).1.frame
  refine ⟨steady.settling.applyRecovery inside, fun q => ?_, ?_⟩
  · show (TrainsNode.installView _ plan).drainParked.1.seenClock q ≤ u64Max
    rw [frame.seenClock]
    exact bounded q
  · rw [applied.nextIssueClock]
    refine max_le steady.stamp (satSucc_le_max ?_)
    unfold Slots.get
    split_ifs with slot
    · exact typed.1 _
    · exact Nat.zero_le _

end Steady

end TrainsNode

end TrainsRing
