/-
**Applying a plan** (`apply_recovery`).

* `Applied` — what applying a plan leaves alone and what it sets: the floor and the issue clock are
  raised to the plan, the freeze is lifted, the crash mask stays.
* `applyRecovery_applied` — `apply_recovery` does just that.
-/

import TrainsRing.Core.Steps

namespace TrainsRing

variable {cfg : RingConfig}

namespace TrainsNode

/-- What the loop over a plan's actions leaves alone. -/
structure LoopFrame (node after : TrainsNode cfg) : Prop where
  id : after.id = node.id
  mode : after.delivery.mode = node.delivery.mode
  crashedBits : after.delivery.crashedBits = node.delivery.crashedBits
  nextIssueClock : after.nextIssueClock = node.nextIssueClock
  nextSeq : after.nextSeq = node.nextSeq
  pending : after.pending = node.pending
  viewFloor : after.viewFloor = node.viewFloor

theorem LoopFrame.refl (node : TrainsNode cfg) : LoopFrame node node :=
  ⟨rfl, rfl, rfl, rfl, rfl, rfl, rfl⟩

theorem LoopFrame.trans {node middle after : TrainsNode cfg} (first : LoopFrame node middle)
    (second : LoopFrame middle after) : LoopFrame node after :=
  ⟨second.id.trans first.id, second.mode.trans first.mode,
    second.crashedBits.trans first.crashedBits, second.nextIssueClock.trans first.nextIssueClock,
    second.nextSeq.trans first.nextSeq, second.pending.trans first.pending,
    second.viewFloor.trans first.viewFloor⟩

theorem Frame.loopFrame {node after : TrainsNode cfg} (frame : Frame node after) :
    LoopFrame node after :=
  ⟨frame.id, frame.mode, frame.crashedBits, frame.nextIssueClock, frame.nextSeq, frame.pending,
    frame.viewFloor⟩

theorem applyAction_frame (state : TrainsNode cfg × List Output) (entry : ClockKey × RecoveryAction) :
    LoopFrame state.1 (applyAction state entry).1 := by
  unfold applyAction
  dsimp only
  split_ifs with done
  · exact ⟨rfl, rfl, rfl, rfl, rfl, rfl, rfl⟩
  · cases entry.2 with
    | skip => exact ⟨rfl, rfl, rfl, rfl, rfl, rfl, rfl⟩
    | deliver payloads =>
      have cleared : ∀ (parked : OrdMap ClockKey Train) (clocks : ClockState cfg),
          LoopFrame state.1 (({ state.1 with parked := parked, clockState := clocks }).noteSeen
            payloads) := fun _ _ => ⟨rfl, rfl, rfl, rfl, rfl, rfl, rfl⟩
      exact (cleared _ _).trans (deliverNow_frame _ entry.1 payloads).loopFrame

theorem applyActions_frame (entries : List (ClockKey × RecoveryAction)) :
    ∀ state : TrainsNode cfg × List Output, LoopFrame state.1 (entries.foldl applyAction state).1 := by
  induction entries with
  | nil => exact fun state => LoopFrame.refl state.1
  | cons entry rest ih => exact fun state => (applyAction_frame state entry).trans (ih _)

/-- **What applying a plan leaves alone and what it sets.** -/
structure Applied (plan : RecoveryPlan cfg) (node after : TrainsNode cfg) : Prop where
  id : after.id = node.id
  mode : after.delivery.mode = node.delivery.mode
  crashedBits : after.delivery.crashedBits = node.delivery.crashedBits
  nextIssueClock : after.nextIssueClock = max node.nextIssueClock (plan.reissueClock node.id)
  nextSeq : after.nextSeq = node.nextSeq
  pending : after.pending = node.pending
  viewFloor : after.viewFloor =
    Slots.ofFn cfg fun q => max (node.viewFloor.get q) (plan.boundary.get q)
  frozen : after.frozen = false

theorem applyRecovery_applied (node : TrainsNode cfg) (plan : RecoveryPlan cfg) :
    Applied plan node (node.applyRecovery plan).1 := by
  have loop := applyActions_frame plan.actions.entries (node, [])
  obtain ⟨delivered, run, -, -⟩ :=
    drainParked_spec ((plan.actions.entries.foldl applyAction (node, [])).1.installView plan)
  have frame := run.frame
  refine ⟨frame.id.trans loop.id, frame.mode.trans loop.mode,
    frame.crashedBits.trans loop.crashedBits, ?_, frame.nextSeq.trans loop.nextSeq,
    frame.pending.trans loop.pending, ?_, frame.frozen⟩
  · refine frame.nextIssueClock.trans ?_
    show max _ (plan.reissueClock _) = max node.nextIssueClock (plan.reissueClock node.id)
    rw [loop.nextIssueClock, loop.id]
  · refine frame.viewFloor.trans ?_
    show (Slots.ofFn cfg fun q => max (TrainsNode.viewFloor _ |>.get q) (plan.boundary.get q)) = _
    rw [loop.viewFloor]

end TrainsNode

end TrainsRing
