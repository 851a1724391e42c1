/-
**The acknowledgements of a delivered train.**

The delivery condition is checked when a train arrives. A train that waits is parked with the
acknowledgements it came with and drained later without another look at them. `confirm_crash` makes
the live set smaller, so what was enough stays enough; `readmit_node` makes it larger, and the trains
parked by then may lack the acknowledgement that is now required.

* `NodeCall.dispatches` — the trains a call delivers, with their keys.
* `Covered` — a train carries the acknowledgement of every live process.
* `unacknowledged` — a run in which a train is delivered without that of a readmitted process.
* `ack_gate` — **in a run whose readmissions find every parked train acknowledged by the process
  they readmit, every train delivered carries every live process's acknowledgement.**
-/

import TrainsRing.Interface.Settled

namespace TrainsRing

variable {cfg : RingConfig}

namespace TrainsNode

/-! ### The trains delivered -/

/-- A train with the key it is delivered under. -/
abbrev Dispatch := ClockKey × Train

/-- The record of a delivered train. -/
def entryOf (dispatch : Dispatch) : Entry := (dispatch.1, dispatch.2.payloads)

/-- The trains the loop of `drain_parked` delivers. -/
def drainLoopTrains : Nat → TrainsNode cfg → List Dispatch
  | 0, _ => []
  | fuel + 1, node =>
    match node.parked.min? with
    | none => []
    | some (key, train) =>
      if node.isDeliverable key then
        (key, train) :: drainLoopTrains fuel ((node.unpark key).deliverNow key train.payloads).1
      else []

/-- The trains `drain_parked` delivers. -/
def drainTrains (node : TrainsNode cfg) : List Dispatch :=
  if node.frozen then [] else drainLoopTrains node.parked.size node

/-- The train `try_deliver` delivers. -/
def tryTrains (node : TrainsNode cfg) (train : Train) : List Dispatch :=
  if node.frozen then []
  else if !node.delivery.readyToDeliver train.ackBits node.delivery.mode then []
  else if node.delivery.alreadyDelivered train.key then []
  else if !node.isDeliverable train.key then []
  else [(train.key, train)]

/-- The trains delivered by an attempt and the drain after it. -/
def attemptTrains (node : TrainsNode cfg) (train : Train) : List Dispatch :=
  node.tryTrains train ++ (node.tryDeliver train).1.drainTrains

/-- The trains `handle_train` delivers. -/
def handleTrains (node : TrainsNode cfg) (train : Train) : List Dispatch :=
  if node.Stale train then []
  else if train.issuer = node.id then
    if train.key ∈ node.delivery.doneKeys then []
    else (node.observe node.id train.clock).attemptTrains train
  else if node.Replay train then (node.noteSeen train.payloads).attemptTrains train
  else (node.visit train).drainTrains

theorem map_drainLoopTrains (fuel : Nat) : ∀ node : TrainsNode cfg,
    (drainLoopTrains fuel node).map entryOf = drainLoopEntries fuel node := by
  induction fuel with
  | zero => exact fun _ => rfl
  | succ fuel ih =>
    intro node
    unfold drainLoopTrains drainLoopEntries
    cases node.parked.min? with
    | none => rfl
    | some head =>
      dsimp only
      split_ifs
      · rw [List.map_cons, ih]
        rfl
      · rfl

@[simp] theorem map_drainTrains (node : TrainsNode cfg) :
    node.drainTrains.map entryOf = node.drainEntries := by
  unfold drainTrains drainEntries
  split_ifs
  · rfl
  · exact map_drainLoopTrains _ node

@[simp] theorem map_tryTrains (node : TrainsNode cfg) (train : Train) :
    (node.tryTrains train).map entryOf = node.tryEntries train := by
  unfold tryTrains tryEntries
  split_ifs <;> rfl

/-- **The records of a received train are those of the trains it delivers.** -/
theorem map_handleTrains (node : TrainsNode cfg) (train : Train) :
    (node.handleTrains train).map entryOf = node.handleEntries train := by
  unfold handleTrains handleEntries attemptTrains attemptEntries
  split_ifs <;> simp

/-! ### The live set -/

/-- `FULL_ACK & !crashed_bits`. -/
def liveMask (node : TrainsNode cfg) : AckBits := fullAck cfg &&& ~~~node.delivery.crashedBits

/-- The train carries the acknowledgement of every live process. -/
def Covered (node : TrainsNode cfg) (train : Train) : Prop :=
  train.ackBits &&& node.liveMask = node.liveMask

instance (node : TrainsNode cfg) (train : Train) : Decidable (node.Covered train) := by
  unfold Covered
  infer_instance

theorem covered_iff (node : TrainsNode cfg) (train : Train) : node.Covered train ↔
    ∀ p, p < cfg.ringSize → node.delivery.isCrashed p = false → train.isAckedBy p = true := by
  refine Iff.trans ?_ (node.delivery.readyToDeliver_totalOrder train.ackBits)
  simp [DeliveryState.readyToDeliver, Covered, liveMask]

/-- A train that meets the delivery condition of its mode is covered. -/
theorem covered_of_ready {node : TrainsNode cfg} {train : Train}
    (ready : node.delivery.readyToDeliver train.ackBits node.delivery.mode = true) :
    node.Covered train :=
  (node.covered_iff train).mpr fun _ inside alive =>
    DeliveryState.acked_of_readyToDeliver ready inside alive

theorem covered_congr {node after : TrainsNode cfg}
    (crashed : after.delivery.crashedBits = node.delivery.crashedBits) (train : Train) :
    after.Covered train ↔ node.Covered train := by
  rw [Covered, liveMask, crashed, Covered, liveMask]

/-- With one process less alive, a covered train stays covered. -/
theorem Covered.markCrashed {node : TrainsNode cfg} {train : Train} (covered : node.Covered train)
    (p : Nat) : (node.markCrashed p).Covered train := by
  rw [covered_iff] at covered ⊢
  intro q inside alive
  have small : q < 32 := lt_of_lt_of_le inside (cfg.le_thirty.trans (by decide))
  refine covered q inside ?_
  have both := (node.delivery.isCrashed_markCrashed p small).symm.trans alive
  exact (Bool.or_eq_false_iff.mp both).1

/-- With one process more alive, a covered train needs its acknowledgement. -/
theorem Covered.readmitNode {node : TrainsNode cfg} {train : Train} (covered : node.Covered train)
    {p : Nat} (acked : train.isAckedBy p = true) : (node.readmitNode p).Covered train := by
  rw [covered_iff] at covered ⊢
  intro q inside alive
  have small : q < 32 := lt_of_lt_of_le inside (cfg.le_thirty.trans (by decide))
  by_cases same : q = p
  · exact same ▸ acked
  refine covered q inside ?_
  have other : (~~~(1#32 <<< p)).getLsbD q = true := by
    have single := hasBit_single p small
    rw [hasBit_eq _ small] at single
    rw [BitVec.getLsbD_not, single]
    simp [small, same]
  simp only [TrainsNode.readmitNode, DeliveryState.isCrashed, DeliveryState.unmarkCrashed,
    hasBit_eq _ small, BitVec.getLsbD_and, other] at alive ⊢
  simpa using alive

/-! ### What is parked is covered -/

/-- Every parked train carries the acknowledgement of every live process. -/
def Backed (node : TrainsNode cfg) : Prop :=
  ∀ key train, node.parked.get? key = some train → node.Covered train

theorem Backed.congr {node after : TrainsNode cfg} (backed : node.Backed)
    (crashed : after.delivery.crashedBits = node.delivery.crashedBits)
    (parked : ∀ key train, after.parked.get? key = some train → node.parked.get? key = some train) :
    after.Backed := fun key train found =>
  (covered_congr crashed train).mpr (backed key train (parked key train found))

/-- One round of the drain takes a train out. -/
theorem Backed.deliverNow {node : TrainsNode cfg} (backed : node.Backed) (key : ClockKey)
    (payloads : List Payload) : ((node.unpark key).deliverNow key payloads).1.Backed := by
  refine backed.congr ((node.unpark key).deliverNow_frame key payloads).crashedBits ?_
  intro other train found
  rw [deliverNow_parked, unpark, OrdMap.get?_erase] at found
  split_ifs at found
  exact found

theorem Backed.drainLoop (fuel : Nat) : ∀ {node : TrainsNode cfg}, node.Backed →
    (TrainsNode.drainLoop fuel node).1.Backed ∧
      ∀ dispatch ∈ drainLoopTrains fuel node, node.Covered dispatch.2 := by
  induction fuel with
  | zero => exact fun backed => ⟨backed, fun _ member => absurd member List.not_mem_nil⟩
  | succ fuel ih =>
    intro node backed
    unfold TrainsNode.drainLoop drainLoopTrains
    cases smallest : node.parked.min? with
    | none => exact ⟨backed, fun _ member => absurd member List.not_mem_nil⟩
    | some head =>
      obtain ⟨key, train⟩ := head
      dsimp only
      split_ifs with deliverable
      · obtain ⟨kept, covered⟩ := ih (backed.deliverNow key train.payloads)
        refine ⟨kept, fun dispatch member => ?_⟩
        rcases List.mem_cons.mp member with rfl | later
        · exact backed key train (OrdMap.min?_eq_some smallest).1
        · have crashed := ((node.unpark key).deliverNow_frame key train.payloads).crashedBits
          exact (covered_congr crashed _).mp (covered dispatch later)
      · exact ⟨backed, fun _ member => absurd member List.not_mem_nil⟩

theorem Backed.drainParked {node : TrainsNode cfg} (backed : node.Backed) :
    node.drainParked.1.Backed ∧ ∀ dispatch ∈ node.drainTrains, node.Covered dispatch.2 := by
  unfold TrainsNode.drainParked drainTrains
  split_ifs
  · exact ⟨backed, fun _ member => absurd member List.not_mem_nil⟩
  · exact Backed.drainLoop _ backed

/-- **An attempt** delivers or parks a train that meets the delivery condition. -/
theorem Backed.tryDeliver {node : TrainsNode cfg} (backed : node.Backed) (train : Train) :
    (node.tryDeliver train).1.Backed ∧
      ∀ dispatch ∈ node.tryTrains train, node.Covered dispatch.2 := by
  unfold TrainsNode.tryDeliver tryTrains
  split_ifs with frozen unready done blocked
  · exact ⟨backed, fun _ member => absurd member List.not_mem_nil⟩
  · exact ⟨backed, fun _ member => absurd member List.not_mem_nil⟩
  · exact ⟨backed, fun _ member => absurd member List.not_mem_nil⟩
  · refine ⟨fun key held found => ?_, fun _ member => absurd member List.not_mem_nil⟩
    have covered : node.Covered train := covered_of_ready (by simpa using unready)
    rw [OrdMap.get?_insertNew] at found
    split_ifs at found with same
    · cases waiting : node.parked.get? train.key with
      | none =>
        rw [waiting] at found
        exact Option.some.inj found ▸ covered
      | some old =>
        rw [waiting] at found
        exact Option.some.inj found ▸ backed train.key old waiting
    · exact backed key held found
  · have covered : node.Covered train := covered_of_ready (by simpa using unready)
    refine ⟨backed.congr (node.deliverNow_frame train.key train.payloads).crashedBits ?_, ?_⟩
    · exact fun key held found => by rwa [deliverNow_parked] at found
    · exact fun dispatch member => List.mem_singleton.mp member ▸ covered

theorem Backed.attempt {node : TrainsNode cfg} (backed : node.Backed) (train : Train) :
    (node.tryDeliver train).1.drainParked.1.Backed ∧
      ∀ dispatch ∈ node.attemptTrains train, node.Covered dispatch.2 := by
  obtain ⟨kept, now⟩ := backed.tryDeliver train
  obtain ⟨after, later⟩ := kept.drainParked
  have crashed := (node.tryDeliver_entries train).1.frame.crashedBits
  refine ⟨after, fun dispatch member => ?_⟩
  rcases List.mem_append.mp member with early | late
  · exact now dispatch early
  · exact (covered_congr crashed _).mp (later dispatch late)

/-- **A received train** parks and delivers covered trains only. -/
theorem Backed.handleTrain {node : TrainsNode cfg} (backed : node.Backed) (train : Train) :
    (node.handleTrain train).1.Backed ∧
      ∀ dispatch ∈ node.handleTrains train, node.Covered dispatch.2 := by
  unfold handleTrains
  split_ifs with stale own done old
  · rw [handleTrain_stale stale]
    exact ⟨backed, fun _ member => absurd member List.not_mem_nil⟩
  · refine ⟨?_, fun _ member => absurd member List.not_mem_nil⟩
    have recycled : (node.handleTrain train).1 =
        (node.observe node.id train.clock).issueNewTrain.1 := by
      rw [handleTrain_fresh stale, if_pos own]
      simp [handleReturningTrain, DeliveryState.alreadyDelivered, done, observe]
    rw [recycled]
    exact backed.congr rfl fun _ _ found => found
  · have observed : (node.observe node.id train.clock).Backed :=
      backed.congr rfl fun _ _ found => found
    rw [handleTrain_returned stale own done]
    exact observed.attempt train
  · have noted : (node.noteSeen train.payloads).Backed := backed.congr rfl fun _ _ found => found
    rw [handleTrain_foreign stale own, handleForeignTrain_replay old]
    exact noted.attempt train
  · have visited : (node.visit train).Backed := backed.congr rfl fun _ _ found => found
    rw [handleTrain_foreign stale own, handleForeignTrain_visit old]
    exact visited.drainParked

end TrainsNode

/-! ### Runs -/

open TrainsNode

namespace NodeCall

/-- Inputs, crash confirmations and readmissions, with identifiers inside the ring. -/
def Membership : NodeCall cfg → Prop
  | step (.trainReceived train) => train.issuer < cfg.ringSize
  | step _ => True
  | confirmCrash p => p < cfg.ringSize
  | readmitNode p => p < cfg.ringSize
  | _ => False

instance : (call : NodeCall cfg) → Decidable call.Membership
  | step (.trainReceived train) => inferInstanceAs (Decidable (train.issuer < cfg.ringSize))
  | confirmCrash p | readmitNode p => inferInstanceAs (Decidable (p < cfg.ringSize))
  | step (.localBroadcast _) | step .tick => instDecidableTrue
  | issueInitialTrain | reissueTrain | markCrashed _ | setFrozen _ | recoveryReport
  | applyRecovery _ => instDecidableFalse

/-- The trains a call delivers, in order. -/
def dispatches (node : TrainsNode cfg) : NodeCall cfg → List Dispatch
  | step (.trainReceived train) => node.handleTrains train
  | confirmCrash p => (node.markCrashed p).drainTrains
  | _ => []

/-- A readmission finds every parked train acknowledged by the process it readmits. -/
def Acknowledged (node : TrainsNode cfg) : NodeCall cfg → Prop
  | readmitNode p => ∀ entry ∈ node.parked.entries, entry.2.isAckedBy p = true
  | _ => True

instance (node : TrainsNode cfg) : (call : NodeCall cfg) → Decidable (call.Acknowledged node)
  | readmitNode p =>
    inferInstanceAs (Decidable (∀ entry ∈ node.parked.entries, entry.2.isAckedBy p = true))
  | step _ | issueInitialTrain | reissueTrain | confirmCrash _ | markCrashed _ | setFrozen _
  | recoveryReport | applyRecovery _ => instDecidableTrue

/-- **Such a call** keeps what is parked covered, and delivers covered trains only. -/
theorem backed {node : TrainsNode cfg} (backed : node.Backed) {call : NodeCall cfg}
    (membership : call.Membership) (acknowledged : call.Acknowledged node) :
    (call.run node).1.Backed ∧
      ∀ dispatch ∈ call.dispatches node, (call.run node).1.Covered dispatch.2 := by
  cases call with
  | step input =>
    cases input with
    | trainReceived train =>
      obtain ⟨kept, covered⟩ := backed.handleTrain train
      have crashed := (node.handleTrain_advances train).crashedBits
      exact ⟨kept, fun dispatch member => (covered_congr crashed _).mpr (covered dispatch member)⟩
    | localBroadcast data =>
      obtain ⟨-, -, delivery, parked, -, -⟩ := node.handleBroadcast_keeps data
      refine ⟨backed.congr (congrArg DeliveryState.crashedBits delivery) fun key train found => ?_,
        fun _ member => absurd member List.not_mem_nil⟩
      rwa [← parked]
    | tick => exact ⟨backed, fun _ member => absurd member List.not_mem_nil⟩
  | confirmCrash p =>
    have marked : (node.markCrashed p).Backed := fun key train found =>
      (backed key train found).markCrashed p
    obtain ⟨kept, covered⟩ := marked.drainParked
    have crashed := (node.markCrashed p).drainParked_entries.1.frame.crashedBits
    exact ⟨kept, fun dispatch member => (covered_congr crashed _).mpr (covered dispatch member)⟩
  | readmitNode p =>
    refine ⟨fun key train found => ?_, fun _ member => absurd member List.not_mem_nil⟩
    exact (backed key train found).readmitNode
      (acknowledged (key, train) (node.parked.mem_entries_iff.mpr found))
  | issueInitialTrain => exact absurd membership not_false
  | reissueTrain => exact absurd membership not_false
  | markCrashed p => exact absurd membership not_false
  | setFrozen frozen => exact absurd membership not_false
  | recoveryReport => exact absurd membership not_false
  | applyRecovery plan => exact absurd membership not_false

/-- The records of a call are those of the trains it delivers. -/
theorem map_dispatches {node : TrainsNode cfg} {call : NodeCall cfg}
    (membership : call.Membership) : (call.dispatches node).map entryOf = call.records node := by
  cases call with
  | step input =>
    cases input with
    | trainReceived train => exact node.map_handleTrains train
    | localBroadcast data => rfl
    | tick => rfl
  | confirmCrash p => exact map_drainTrains _
  | readmitNode p => rfl
  | issueInitialTrain => exact absurd membership not_false
  | reissueTrain => exact absurd membership not_false
  | markCrashed p => exact absurd membership not_false
  | setFrozen frozen => exact absurd membership not_false
  | recoveryReport => exact absurd membership not_false
  | applyRecovery plan => exact absurd membership not_false

end NodeCall

/-- Process 3 is excluded, a train it has not acknowledged is parked, process 3 is readmitted, and
the train that was waited for comes. -/
def readmittedCalls : List (NodeCall .quad) :=
  [.step (.trainReceived ⟨1, 1, [⟨1, 0, [5]⟩], 2#32⟩), .confirmCrash 3,
    .step (.trainReceived ⟨1, 1, [⟨1, 0, [5]⟩], 7#32⟩), .readmitNode 3,
    .step (.trainReceived ⟨0, 1, [], 1#32⟩)]

def readmitted : TrainsNode .quad :=
  (nodeRuns NodeCall.Membership).run (TrainsNode.new .quad 2 (by decide) .totalOrder)
    readmittedCalls

/-- The parked train is delivered without the acknowledgement of the readmitted process. -/
theorem unacknowledged : ¬ ∀ (cfg : RingConfig) (node : TrainsNode cfg) (call : NodeCall cfg),
    (nodeRuns NodeCall.Membership).Reachable node → node.delivery.mode = .totalOrder →
      call.Membership → ∀ dispatch ∈ call.dispatches node, (call.run node).1.Covered dispatch.2 := by
  intro holds
  have reachable : (nodeRuns NodeCall.Membership).Reachable readmitted :=
    Machine.reachable_run ⟨2, by decide, .totalOrder, rfl⟩ (by decide)
  have covered := holds .quad readmitted (.step (.trainReceived ⟨0, 1, [], 15#32⟩)) reachable rfl
    (by decide)
  exact absurd covered (by decide +kernel)

/-- The runs whose readmissions find every parked train acknowledged. -/
def acknowledgedRuns (cfg : RingConfig) : Machine (TrainsNode cfg) (NodeCall cfg) :=
  (nodeRuns NodeCall.Membership).restrict fun node call => call.Acknowledged node

instance (node : TrainsNode cfg) (call : NodeCall cfg) :
    Decidable ((acknowledgedRuns cfg).legal node call) :=
  inferInstanceAs (Decidable (call.Membership ∧ call.Acknowledged node))

/-- **The acknowledgement gate at delivery time.** Where every readmission so far found all parked
trains acknowledged by the readmitted process, a call delivers trains that carry the acknowledgement
of every process alive then, whatever the mode. -/
theorem ack_gate {node : TrainsNode cfg} (reachable : (acknowledgedRuns cfg).Reachable node)
    {call : NodeCall cfg} (membership : call.Membership) :
    delivers (call.run node).2 = announcements ((call.dispatches node).map entryOf) ∧
      ∀ dispatch ∈ call.dispatches node, (call.run node).1.Covered dispatch.2 := by
  have backed : node.Backed := by
    refine Machine.invariant ?_ (fun _ call backed allowed => ?_) reachable
    · rintro _ ⟨id, id_lt, mode, rfl⟩
      exact fun key train found => absurd found (by simp [TrainsNode.new])
    · exact (NodeCall.backed backed allowed.1 allowed.2).1
  refine ⟨?_, fun dispatch member => ?_⟩
  · rw [NodeCall.map_dispatches membership]
    exact (node.logged_run call).announced
  · cases call with
    | readmitNode p => exact absurd member List.not_mem_nil
    | _ => exact (NodeCall.backed backed membership trivial).2 dispatch member

/-- A node whose parked train the readmitted process has acknowledged. -/
def readmittedWell : TrainsNode .quad :=
  (acknowledgedRuns .quad).run (TrainsNode.new .quad 2 (by decide) .totalOrder)
    [.confirmCrash 3, .step (.trainReceived ⟨1, 1, [⟨1, 0, [5]⟩], 2#32⟩),
      .step (.trainReceived ⟨1, 1, [⟨1, 0, [5]⟩], 15#32⟩), .readmitNode 3,
      .step (.trainReceived ⟨0, 1, [], 1#32⟩)]

/-- The train that was waited for. -/
def awaited : NodeCall .quad := .step (.trainReceived ⟨0, 1, [], 15#32⟩)

theorem ack_gate_quad :
    delivers (awaited.run readmittedWell).2 =
        announcements ((awaited.dispatches readmittedWell).map entryOf) ∧
      ∀ dispatch ∈ awaited.dispatches readmittedWell,
        (awaited.run readmittedWell).1.Covered dispatch.2 := by
  have reachable : (acknowledgedRuns .quad).Reachable readmittedWell :=
    Machine.reachable_run ⟨2, by decide, .totalOrder, rfl⟩ (by decide)
  exact ack_gate reachable (by decide)

end TrainsRing
