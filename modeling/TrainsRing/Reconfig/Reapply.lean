/-
**Applying a plan again.**

A plan that comes back finds every one of its keys done, its floor installed and the issue clock
above its boundary. What is left of `apply_recovery` then touches clocks, parked trains and the
drain, and all three are idle: a done key has been seen and is not parked, and a settled node that
is not frozen has nothing left to drain.

* `Enacted` — what `apply_recovery` leaves behind of its plan.
* `Enacted.reapply` — an enacted plan is applied for nothing.
* `Enacted.steps` — received trains, broadcasts and ticks leave it enacted.
* `reapply_idempotent` — **a second `apply_recovery`, any number of steps later, does nothing.**
-/

import TrainsRing.Interface.Settled
import TrainsRing.Interface.Restored

namespace TrainsRing

variable {cfg : RingConfig}

namespace TrainsNode

/-! ### What the loop records -/

theorem doneKeys_applyAction (state : TrainsNode cfg × List Output)
    (entry : ClockKey × RecoveryAction) : (applyAction state entry).1.delivery.doneKeys =
      insert entry.1 state.1.delivery.doneKeys := by
  rw [applyAction_eq]
  dsimp only
  split_ifs with done
  · exact (Finset.insert_eq_of_mem done).symm
  · exact deliverNow_doneKeys _ entry.1 entry.2.payloads

/-- **The loop of `apply_recovery` records the keys of the plan**, whatever their actions. -/
theorem doneKeys_applyActions (entries : List (ClockKey × RecoveryAction)) :
    ∀ state : TrainsNode cfg × List Output, (entries.foldl applyAction state).1.delivery.doneKeys =
      state.1.delivery.doneKeys ∪ (entries.map Prod.fst).toFinset := by
  induction entries with
  | nil => simp
  | cons entry rest ih =>
    intro state
    rw [List.foldl_cons, ih, doneKeys_applyAction]
    ext key
    simp only [Finset.mem_union, Finset.mem_insert, List.map_cons, List.toFinset_cons]
    tauto

/-! ### An enacted plan -/

/-- The plan has been applied: its keys are done, its floor and its clock stand, and the node has
drained since. -/
structure Enacted (plan : RecoveryPlan cfg) (node : TrainsNode cfg) : Prop where
  settling : node.Settling
  unfrozen : node.frozen = false
  done : ∀ key ∈ plan.actions.keys, key ∈ node.delivery.doneKeys
  floor : ∀ q, q < cfg.ringSize → plan.boundary.get q ≤ node.viewFloor.get q
  stamp : plan.reissueClock node.id ≤ node.nextIssueClock

variable {node : TrainsNode cfg} {plan : RecoveryPlan cfg}

/-- **`apply_recovery` enacts its plan.** -/
theorem Settling.enacted (settling : node.Settling)
    (inside : ∀ key ∈ plan.actions.keys, key.issuer < cfg.ringSize) :
    Enacted plan (node.applyRecovery plan).1 := by
  have applied := node.applyRecovery_applied plan
  have after : (node.applyRecovery plan).1.Settling := settling.applyRecovery fun entry member =>
    inside entry.1 (List.mem_map_of_mem member)
  refine ⟨after, applied.frozen, fun key member => ?_, fun q ringed => ?_, ?_⟩
  · have loop := doneKeys_applyActions plan.actions.entries (node, [])
    have drained := (logged_drainParked
      ((plan.actions.entries.foldl applyAction (node, [])).1.installView plan)).done
    refine drained.symm ▸ Finset.mem_union_left _ ?_
    show key ∈ (plan.actions.entries.foldl applyAction (node, [])).1.delivery.doneKeys
    rw [loop]
    exact Finset.mem_union_right _ (List.mem_toFinset.mpr member)
  · rw [applied.viewFloor, Slots.get_ofFn _ ringed]
    exact le_max_right _ _
  · rw [applied.nextIssueClock, applied.id]
    exact le_max_right _ _

namespace Enacted

/-- A done key has been seen and is not parked, so its action does nothing. -/
theorem applyAction (enacted : Enacted plan node) {entry : ClockKey × RecoveryAction}
    (member : entry ∈ plan.actions.entries) (outputs : List Output) :
    TrainsNode.applyAction (node, outputs) entry = (node, outputs) := by
  have done := enacted.done entry.1 (List.mem_map_of_mem member)
  have observed : node.observe entry.1.issuer entry.1.clock = node :=
    Replica.observe_of_seen (enacted.settling.seen entry.1 done)
  have absent : node.parked.get? entry.1 = none := by
    by_contra isParked
    obtain ⟨held, found⟩ := Option.ne_none_iff_exists'.mp isParked
    exact enacted.settling.tidy.apart entry.1 held found done
  rw [applyAction_eq]
  simp only [observed, unpark, OrdMap.erase_absent absent, if_pos done]

theorem applyActions (enacted : Enacted plan node) (outputs : List Output) :
    plan.actions.entries.foldl TrainsNode.applyAction (node, outputs) = (node, outputs) := by
  have general : ∀ entries : List (ClockKey × RecoveryAction),
      (∀ entry ∈ entries, entry ∈ plan.actions.entries) →
      entries.foldl TrainsNode.applyAction (node, outputs) = (node, outputs) := by
    intro entries
    induction entries with
    | nil => exact fun _ => rfl
    | cons entry rest ih =>
      intro members
      rw [List.foldl_cons, enacted.applyAction (members entry List.mem_cons_self)]
      exact ih fun other later => members other (List.mem_cons_of_mem entry later)
  exact general _ fun _ member => member

theorem installView (enacted : Enacted plan node) : node.installView plan = node := by
  have floor : (Slots.ofFn cfg fun q => max (node.viewFloor.get q) (plan.boundary.get q)) =
      node.viewFloor := by
    ext q ringed
    rw [Slots.get_ofFn _ ringed, max_eq_left (enacted.floor q ringed)]
  have stamp := max_eq_left enacted.stamp
  have unfrozen := enacted.unfrozen
  obtain ⟨⟩ := node
  simp_all [TrainsNode.installView]

/-- **An enacted plan is applied for nothing.** -/
theorem reapply (enacted : Enacted plan node) : node.applyRecovery plan = (node, []) := by
  have drained := enacted.settling.drainParked_eq
  unfold applyRecovery
  rw [enacted.applyActions]
  simp only [enacted.installView, drained, List.append_nil]

/-- A step leaves a plan enacted. -/
theorem step (enacted : Enacted plan node) (input : Input) :
    Enacted plan (node.step input).1 := by
  have advances := node.step_advances input
  refine ⟨enacted.settling.step input, advances.frozen.trans enacted.unfrozen,
    fun key member => advances.done (enacted.done key member), fun q ringed => ?_, ?_⟩
  · rw [advances.viewFloor]
    exact enacted.floor q ringed
  · rw [advances.id]
    exact enacted.stamp.trans advances.stamp

theorem steps (inputs : List Input) : ∀ {node : TrainsNode cfg}, Enacted plan node →
    Enacted plan (node.steps inputs) := by
  induction inputs with
  | nil => exact fun enacted => enacted
  | cons input rest ih => exact fun enacted => ih (enacted.step input)

end Enacted

end TrainsNode

/-- **`apply_recovery` is idempotent**, also when the plan comes back after further steps. The node
may have been reached by every call that drains what it makes deliverable: steps, crash
confirmations, freezes and earlier plans among them. -/
theorem reapply_idempotent {node : TrainsNode cfg}
    (reachable : (nodeRuns NodeCall.Settles).Reachable node) {plan : RecoveryPlan cfg}
    (inside : ∀ key ∈ plan.actions.keys, key.issuer < cfg.ringSize) (inputs : List Input) :
    (((node.applyRecovery plan).1.steps inputs).applyRecovery plan) =
      ((node.applyRecovery plan).1.steps inputs, []) := by
  have settling := settling_reachable (fun _ settles => settles) reachable
  exact ((settling.enacted inside).steps inputs).reapply

/-- A survivor that is behind the boundary: it has parked a train and freezes. -/
def laggingCalls : List (NodeCall .triple) :=
  [.step (.trainReceived ⟨0, 1, [⟨0, 0, [5]⟩], 1#32⟩),
    .step (.trainReceived ⟨0, 1, [⟨0, 0, [5]⟩], 7#32⟩), .confirmCrash 1, .setFrozen true]

def lagging : TrainsNode .triple :=
  (nodeRuns NodeCall.Settles).run (TrainsNode.new .triple 2 RingConfig.two_lt_triple .totalOrder) laggingCalls

/-- A plan with a key past its boundary and an empty delivery. -/
def agreedPlan : RecoveryPlan .triple where
  actions := (OrdMap.empty.insert ⟨2, 0⟩ (.deliver [⟨1, 0, [7]⟩])).insert ⟨3, 1⟩ (.deliver [])
  boundary := (Slots.zero .triple).set 0 2

theorem reapply_idempotent_triple :
    ((lagging.applyRecovery agreedPlan).1.steps [.trainReceived ⟨0, 3, [], 1#32⟩]).applyRecovery
        agreedPlan =
      ((lagging.applyRecovery agreedPlan).1.steps [.trainReceived ⟨0, 3, [], 1#32⟩], []) := by
  have reachable : (nodeRuns NodeCall.Settles).Reachable lagging :=
    Machine.reachable_run ⟨2, by decide, .totalOrder, rfl⟩ (by decide)
  exact reapply_idempotent reachable (by decide) _

end TrainsRing
