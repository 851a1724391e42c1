/-
**The clocks of a node, whatever it delivers.**

What a node has seen, settled and passed through the delivery gate, with no regard to payloads, logs
or the other nodes. This much holds in every view, also where a view change lost a load.

* `Gated view node` — a key done above the floor has passed the gate of every issuer of the view.
* `Handled.passed` — a key is new among the done ones only when the gate is open for it.
* `Gated.handled` — **one `handle_train` keeps it**.
* `Catching` — the loop invariant of `apply_recovery`, for the clocks alone.
* `applyRecovery_catches` — **a node that applies a plan has seen its whole boundary**, and nothing
  beyond it.
-/

import TrainsRing.Agreement.World
import TrainsRing.Reconfig.Adopt

namespace TrainsRing

variable {cfg : RingConfig} {view : View cfg} {node after : TrainsNode cfg} {train : Train}
  {key : ClockKey}

open TrainsNode

/-! ### The gate -/

namespace TrainsNode

/-- The gate depends on the clocks and the crash mask only. -/
theorem Frame.gate (frame : Frame node after) (key : ClockKey) :
    after.seenClocksAdvancedEnough key = node.seenClocksAdvancedEnough key := by
  unfold seenClocksAdvancedEnough DeliveryState.isCrashed
  rw [frame.clockState, frame.crashedBits]

theorem gate_of_deliverable (deliverable : node.isDeliverable key = true) :
    node.seenClocksAdvancedEnough key = true := by
  unfold isDeliverable at deliverable
  exact (Bool.and_eq_true_iff.mp deliverable).2

/-- An open gate, issuer by issuer. -/
theorem gate_iff (node : TrainsNode cfg) (key : ClockKey) :
    node.seenClocksAdvancedEnough key = true ↔ ∀ q, q < cfg.numTrains →
      node.delivery.isCrashed q = true ∨ key.clock ≤ node.seenClock q := by
  simp only [seenClocksAdvancedEnough, seenClock, List.all_eq_true, List.mem_range,
    Bool.or_eq_true, decide_eq_true_eq]

/-- A run of deliveries lets a key through only when the gate is open for it. -/
theorem Delivers.passed {delivered : List Entry} (run : Delivers node delivered after)
    (done : key ∈ after.delivery.doneKeys) :
    key ∈ node.delivery.doneKeys ∨ node.seenClocksAdvancedEnough key = true := by
  induction run with
  | nil node => exact Or.inl done
  | @cons node after first train entries _ deliverable _ ih =>
    have unparked : Frame node (node.unpark first) :=
      ⟨rfl, rfl, rfl, rfl, rfl, rfl, rfl, rfl, rfl, rfl⟩
    have frame := unparked.trans (deliverNow_frame (node.unpark first) first train.payloads)
    rcases ih done with before | gate
    · rw [deliverNow_doneKeys, Finset.mem_insert] at before
      rcases before with rfl | old
      · exact Or.inr (gate_of_deliverable deliverable)
      · exact Or.inl old
    · exact Or.inr ((frame.gate key).symm.trans gate)

theorem Tried.passed {delivered : List Entry} (tried : Tried node train delivered after)
    (done : key ∈ after.delivery.doneKeys) :
    key ∈ node.delivery.doneKeys ∨ node.seenClocksAdvancedEnough key = true := by
  cases tried with
  | skipped _ => exact Or.inl done
  | parked _ _ _ => exact Or.inl done
  | delivered _ _ deliverable =>
    rw [deliverNow_doneKeys, Finset.mem_insert] at done
    rcases done with rfl | old
    · exact Or.inr (gate_of_deliverable deliverable)
    · exact Or.inl old

/-- **What handling a train gets done has passed the gate.** -/
theorem Handled.passed {delivered : List Entry} {forwarded : List Train}
    (handled : Handled node train delivered forwarded after)
    (done : key ∈ after.delivery.doneKeys) :
    key ∈ node.delivery.doneKeys ∨ after.seenClocksAdvancedEnough key = true := by
  have both : ∀ {start middle : TrainsNode cfg} {now drained : List Entry},
      Tried start train now middle → Delivers middle drained after →
      key ∈ start.delivery.doneKeys ∨ after.seenClocksAdvancedEnough key = true := by
    intro start middle now drained tried run
    rcases run.passed done with before | gate
    · refine (tried.passed before).imp_right fun gate => ?_
      rw [(tried.frame.trans run.frame).gate]
      exact gate
    · exact Or.inr ((run.frame.gate key).trans gate)
  cases handled with
  | absorbed _ => exact Or.inl done
  | visited _ _ _ run _ =>
    exact (run.passed done).imp_right fun gate => (run.frame.gate key).trans gate
  | replayed _ _ _ tried run _ =>
    have passed := both tried run
    exact passed
  | recycled _ _ _ => exact Or.inl done
  | returned _ _ _ tried run _ =>
    have passed := both tried run
    exact passed

/-- Handling a train leaves the crash mask and the floor alone. -/
theorem Handled.membership {delivered : List Entry} {forwarded : List Train}
    (handled : Handled node train delivered forwarded after) :
    after.delivery.crashedBits = node.delivery.crashedBits ∧ after.viewFloor = node.viewFloor := by
  cases handled with
  | absorbed _ => exact ⟨rfl, rfl⟩
  | visited _ _ _ run _ => exact ⟨run.frame.crashedBits, run.frame.viewFloor⟩
  | replayed _ _ _ tried run _ =>
    have frame := tried.frame.trans run.frame
    exact ⟨frame.crashedBits, frame.viewFloor⟩
  | recycled _ _ _ => exact ⟨rfl, rfl⟩
  | returned _ _ _ tried run _ =>
    have frame := tried.frame.trans run.frame
    exact ⟨frame.crashedBits, frame.viewFloor⟩

end TrainsNode

/-- The node has seen what it has settled, and what it has done above the floor has passed the gate
of every issuer. -/
structure Gated (view : View cfg) (node : TrainsNode cfg) : Prop where
  crashed : node.delivery.crashedBits = view.crashed
  floor : node.viewFloor = view.floor
  above : ∀ q, view.floor.get q ≤ node.seenClock q
  known : ∀ key, node.Settled key → key.clock ≤ node.seenClock key.issuer
  gate : ∀ key ∈ node.delivery.doneKeys, view.floor.get key.issuer < key.clock →
    ∀ q, view.Issuer q → key.clock ≤ node.seenClock q

namespace Gated

/-- A node as constructed. -/
theorem initial (cfg : RingConfig) (id : Nat) (id_lt : id < cfg.ringSize) (mode : DeliveryMode) :
    Gated (View.initial cfg mode) (TrainsNode.new cfg id id_lt mode) where
  crashed := rfl
  floor := rfl
  above := fun _ => le_rfl
  known := fun key settled => by
    rcases settled with done | ⟨train, found⟩
    · exact absurd done (Finset.notMem_empty _)
    · cases found
  gate := fun key done => absurd done (Finset.notMem_empty _)

/-- Only the clocks, the delivery state, the parked trains and the floor matter. -/
theorem congr (gated : Gated view node) (clocks : after.clockState = node.clockState)
    (delivery : after.delivery = node.delivery) (waiting : after.parked = node.parked)
    (floor : after.viewFloor = node.viewFloor) : Gated view after := by
  have seen : after.seenClock = node.seenClock := by
    funext q
    rw [seenClock, clocks, seenClock]
  refine ⟨?_, ?_, ?_, fun key settled => ?_, ?_⟩
  · rw [delivery]
    exact gated.crashed
  · rw [floor]
    exact gated.floor
  · rw [seen]
    exact gated.above
  · rw [seen]
    unfold Settled at settled
    rw [delivery, waiting] at settled
    exact gated.known key settled
  · rw [seen, delivery]
    exact gated.gate

/-- **One `handle_train`.** -/
theorem handled (gated : Gated view node) {delivered : List Entry} {forwarded : List Train}
    (handled : Handled node train delivered forwarded after) (inside : train.issuer < cfg.ringSize) :
    Gated view after := by
  obtain ⟨traffic, evolves, -⟩ := handled.traffic inside
  obtain ⟨crashed, floor⟩ := handled.membership
  refine ⟨crashed.trans gated.crashed, floor.trans gated.floor,
    fun q => (gated.above q).trans (evolves.seen q), fun key settled => ?_,
    fun key done above q issuer => ?_⟩
  · rcases handled.settled_back settled with before | ⟨rfl, -⟩
    · exact (gated.known key before).trans (evolves.seen _)
    · cases traffic with
      | absorbed _ same => exact same ▸ gated.known _ (same ▸ settled)
      | relayed _ _ _ _ _ seen _ => exact seen
      | loaded _ _ _ _ _ seen => exact seen
      | issued _ _ done _ _ => exact (gated.known _ (Or.inl done)).trans (evolves.seen _)
  · rcases handled.passed done with before | gate
    · exact (gated.gate key before above q issuer).trans (evolves.seen q)
    · refine ((gate_iff after key).mp gate q issuer.1).resolve_left fun isCrashed => ?_
      rw [DeliveryState.isCrashed, crashed, gated.crashed,
        show hasBit view.crashed q = false from issuer.2] at isCrashed
      cases isCrashed

/-- A node that has seen its floor, and has settled nothing beyond it, is gated. -/
theorem of_floor (crashed : node.delivery.crashedBits = view.crashed)
    (floor : node.viewFloor = view.floor) (seen : ∀ q, node.seenClock q = view.floor.get q)
    (settled : ∀ key, node.Settled key → key.clock ≤ view.floor.get key.issuer) :
    Gated view node where
  crashed := crashed
  floor := floor
  above := fun q => (seen q).ge
  known := fun key isSettled => (settled key isSettled).trans (seen _).ge
  gate := fun key done high => absurd (settled key (Or.inl done)) (not_le.mpr high)

end Gated

/-! ### Applying a plan -/

/-- The loop invariant of `apply_recovery`, for the clocks: `rest` are the actions to come. -/
structure Catching (boundary : Slots cfg) (rest : List (ClockKey × RecoveryAction))
    (node : TrainsNode cfg) : Prop where
  bounded : ∀ q, node.seenClock q ≤ boundary.get q
  reached : ∀ q, node.seenClock q = boundary.get q ∨ ∃ action, (⟨boundary.get q, q⟩, action) ∈ rest
  settled : ∀ key, node.Settled key → key.clock ≤ boundary.get key.issuer

namespace Catching

variable {boundary : Slots cfg} {rest : List (ClockKey × RecoveryAction)} {action : RecoveryAction}

/-- **One round of the loop.** -/
theorem step (catching : Catching boundary ((key, action) :: rest) node) (outputs : List Output)
    (inside : key.issuer < cfg.ringSize) (within : key.clock ≤ boundary.get key.issuer) :
    Catching boundary rest (applyAction (node, outputs) (key, action)).1 := by
  -- what the round does to the clocks and to the settled keys
  have seen : ∀ q, (applyAction (node, outputs) (key, action)).1.seenClock q =
      if q = key.issuer then max (node.seenClock key.issuer) key.clock else node.seenClock q := by
    intro q
    rw [← seenClock_observe node inside, applyAction_eq]
    dsimp only
    split_ifs with done
    · rfl
    · exact congrArg (fun state : ClockState cfg => state.lastSeen q)
        (deliverNow_frame _ _ _).clockState
  have settles : ∀ other, (applyAction (node, outputs) (key, action)).1.Settled other →
      node.Settled other ∨ other = key := by
    intro other
    rw [applyAction_eq]
    dsimp only
    split_ifs with done
    · rintro (isDone | ⟨train, found⟩)
      · exact Or.inl (Or.inl isDone)
      · refine Or.inl (Or.inr ⟨train, ?_⟩)
        rw [unpark, OrdMap.get?_erase] at found
        split_ifs at found
        exact found
    · rintro (isDone | ⟨train, found⟩)
      · rw [deliverNow_doneKeys, Finset.mem_insert] at isDone
        exact isDone.symm.imp_left Or.inl
      · refine Or.inl (Or.inr ⟨train, ?_⟩)
        rw [deliverNow_parked] at found
        replace found : (node.parked.erase key).get? other = some train := found
        rw [OrdMap.get?_erase] at found
        split_ifs at found
        exact found
  refine ⟨fun q => ?_, fun q => ?_, fun other isSettled => ?_⟩
  · rw [seen]
    split_ifs with same
    · rw [same]
      exact max_le (catching.bounded _) within
    · exact catching.bounded q
  · rw [seen]
    by_cases last : (⟨boundary.get q, q⟩ : ClockKey) = key
    · left
      have issuer : q = key.issuer := congrArg ClockKey.issuer last
      have clock : boundary.get q = key.clock := congrArg ClockKey.clock last
      rw [if_pos issuer, ← clock, ← issuer]
      exact max_eq_right (catching.bounded q)
    · rcases catching.reached q with reached | ⟨later, member⟩
      · left
        split_ifs with same
        · rw [← same, reached, max_eq_left]
          exact same ▸ within
        · exact reached
      · refine Or.inr ⟨later, (List.mem_cons.mp member).resolve_left fun here => ?_⟩
        exact last (congrArg Prod.fst here)
  · rcases settles other isSettled with before | rfl
    · exact catching.settled other before
    · exact within

/-- **The loop**: all actions applied. -/
theorem loop (rest : List (ClockKey × RecoveryAction)) :
    ∀ (state : TrainsNode cfg × List Output), Catching boundary rest state.1 →
      (∀ entry ∈ rest, entry.1.issuer < cfg.ringSize ∧
        entry.1.clock ≤ boundary.get entry.1.issuer) →
      Catching boundary [] (rest.foldl applyAction state).1 := by
  induction rest with
  | nil => exact fun _ catching _ => catching
  | cons entry rest ih =>
    intro state catching planned
    obtain ⟨inside, within⟩ := planned entry List.mem_cons_self
    exact ih _ (catching.step state.2 inside within) fun later member =>
      planned later (List.mem_cons_of_mem _ member)

end Catching

/-- The keys a plan has actions for are inside the ring and up to its boundary. -/
theorem planned_within {reports : List (RecoveryReport cfg)} {entry : ClockKey × RecoveryAction}
    (planned : entry ∈ (computeRecoveryPlan reports).actions.entries) :
    entry.1.issuer < cfg.ringSize ∧ entry.1.clock ≤ (boundaryOf reports).get entry.1.issuer := by
  obtain ⟨key, action⟩ := entry
  have found := (OrdMap.mem_entries_iff _).mp planned
  rw [get?_actions] at found
  split_ifs at found with range
  exact ⟨range.1, range.2.2⟩

section Reports

variable {ι : Type} {members : List ι} {nodes : ι → TrainsNode cfg} {p : ι}

/-- A reporting node has all actions to apply. -/
theorem Catching.start (member : p ∈ members)
    (known : ∀ key, (nodes p).Settled key → key.clock ≤ (nodes p).seenClock key.issuer) :
    Catching (boundaryOf (reportsOf members nodes))
      (computeRecoveryPlan (reportsOf members nodes)).actions.entries (nodes p) := by
  have bounded : ∀ q, (nodes p).seenClock q ≤ (boundaryOf (reportsOf members nodes)).get q :=
    Gathering.seen_le nodes member
  refine ⟨bounded, fun q => or_iff_not_imp_left.mpr fun behind => ?_,
    fun key settled => (known key settled).trans (bounded _)⟩
  have below := lt_of_le_of_ne (bounded q) behind
  have inside : q < cfg.ringSize := by
    by_contra outside
    rw [Slots.get_outside _ (not_lt.mp outside)] at below
    exact absurd below (Nat.not_lt_zero _)
  -- the last key of the slot is missing here, so the plan has an action for it
  cases found : actionFor (reportsOf members nodes)
      ⟨(boundaryOf (reportsOf members nodes)).get q, q⟩ with
  | none =>
    have done := (actionFor_eq_none _ _).mp found _ (Gathering.mem_reports nodes member)
    exact absurd (known _ (Or.inl done)) (not_le.mpr below)
  | some action =>
    refine ⟨action, (OrdMap.mem_entries_iff _).mpr ?_⟩
    rw [get?_actions, if_pos ⟨inside, Nat.one_le_of_lt below, le_rfl⟩, found]

/-- **A reporting node that applies the plan has seen its boundary, slot by slot**, and nothing it has
settled is beyond it. -/
theorem applyRecovery_catches (member : p ∈ members)
    (known : ∀ key, (nodes p).Settled key → key.clock ≤ (nodes p).seenClock key.issuer) :
    let plan := computeRecoveryPlan (reportsOf members nodes)
    (∀ q, ((nodes p).applyRecovery plan).1.seenClock q = plan.boundary.get q) ∧
      ∀ key, ((nodes p).applyRecovery plan).1.Settled key →
        key.clock ≤ plan.boundary.get key.issuer := by
  intro plan
  have caught : Catching plan.boundary [] (plan.actions.entries.foldl applyAction (nodes p, [])).1 :=
    Catching.loop _ _ (Catching.start member known) fun entry inside => planned_within inside
  obtain ⟨delivered, run, -, -⟩ :=
    drainParked_spec ((plan.actions.entries.foldl applyAction (nodes p, [])).1.installView plan)
  refine ⟨fun q => ?_, fun key settled => caught.settled key (run.settled_back settled)⟩
  have reached := (caught.reached q).resolve_right (by simp)
  refine Eq.trans ?_ reached
  exact congrArg (fun state : ClockState cfg => state.lastSeen q) run.frame.clockState

end Reports

end TrainsRing
