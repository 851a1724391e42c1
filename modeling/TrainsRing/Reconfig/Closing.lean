/-
**The merged plan closes every gap.**

The survivors report, one of them merges the reports, and everyone applies the plan. Every key up to
the boundary that somebody is missing has an action in the plan; every key that a survivor has done
or parked has been seen by it, so it lies below the boundary. After the loop of `apply_recovery`
nothing is parked any more, and the drain at its end finds nothing.

* `PlanSpec`, `planSpec` — what a merged plan says of each key, for any reports.
* `Within` — the keys at or below a plan's boundary.
* `outputs_applyActions` — what the loop of `apply_recovery` puts out.
* `Charted` — a node reached by steps and crash confirmations: every key it knows is in the ring and
  has been seen.
* `plan_closes_gaps` — **after the plan all survivors have done the same keys, everything up to the
  boundary, and each has put out the deliveries it lacked.**
-/

import TrainsRing.Reconfig.Reapply

namespace TrainsRing

variable {cfg : RingConfig}

/-! ### The plan of some reports -/

/-- The key is at or below the plan's boundary. -/
def Within (plan : RecoveryPlan cfg) (key : ClockKey) : Prop :=
  key.issuer < cfg.ringSize ∧ 1 ≤ key.clock ∧ key.clock ≤ plan.boundary.get key.issuer

instance (plan : RecoveryPlan cfg) (key : ClockKey) : Decidable (Within plan key) := by
  unfold Within
  infer_instance

/-- **What a merged plan says of each key**: nothing when it is past the boundary or everywhere done,
a skip when no report has payloads for it, and else the payloads of the reports, each identifier
once. -/
structure PlanSpec (reports : List (RecoveryReport cfg)) (plan : RecoveryPlan cfg) : Prop where
  boundary : ∀ q, q < cfg.ringSize → ∀ bound, plan.boundary.get q ≤ bound ↔
    ∀ report ∈ reports, report.seen.get q ≤ bound ∧ report.issued.get q ≤ bound
  none_iff : ∀ key, plan.actions.get? key = none ↔
    ¬ Within plan key ∨ ∀ report ∈ reports, key ∈ report.done
  skip_iff : ∀ key action, plan.actions.get? key = some action → (action = .skip ↔
    ∀ report ∈ reports, ∀ held, report.haves.get? key = some held → held = [])
  deliver : ∀ key payloads, plan.actions.get? key = some (.deliver payloads) →
    (payloads.map Payload.msgId).Nodup ∧
      (∀ id, Mentions payloads id ↔ ∃ report ∈ reports, ∃ held,
        report.haves.get? key = some held ∧ Mentions held id) ∧
      ∀ payload ∈ payloads, ∃ report ∈ reports, ∃ held,
        report.haves.get? key = some held ∧ payload ∈ held

/-- The identifier set of a union is that of its payloads, and no identifier is in it twice. -/
structure Noted (acc : List Payload × Finset (Nat × Nat)) : Prop where
  ids : ∀ id, id ∈ acc.2 ↔ Mentions acc.1 id
  nodup : (acc.1.map Payload.msgId).Nodup

theorem Noted.unionStep {acc : List Payload × Finset (Nat × Nat)} (noted : Noted acc)
    (payload : Payload) : Noted (unionStep acc payload) := by
  unfold TrainsRing.unionStep
  split_ifs with known
  · exact noted
  refine ⟨fun id => ?_, ?_⟩
  · rw [Finset.mem_insert, noted.ids, mentions_append, mentions_cons]
    simp [Mentions, or_comm]
  · rw [List.map_append]
    refine noted.nodup.append (List.nodup_singleton _) fun id old new => known ?_
    obtain ⟨held, member, same⟩ := List.mem_map.mp old
    rw [noted.ids, ← show id = payload.msgId by simpa using new]
    exact ⟨held, member, same⟩

/-- The union holds no identifier twice. -/
theorem nodup_unionPayloads (reports : List (RecoveryReport cfg)) (key : ClockKey) :
    ((unionPayloads reports key).map Payload.msgId).Nodup := by
  have start : Noted ([], ∅) := ⟨by simp [Mentions], List.nodup_nil⟩
  refine Noted.nodup (List.foldlRecOn reports _ start fun acc noted report _ => ?_)
  cases report.haves.get? key with
  | none => exact noted
  | some payloads =>
    exact List.foldlRecOn payloads _ noted fun acc noted payload _ => noted.unionStep payload

/-- The union is empty when no report has payloads. -/
theorem unionPayloads_eq_nil (reports : List (RecoveryReport cfg)) (key : ClockKey) :
    unionPayloads reports key = [] ↔
      ∀ report ∈ reports, ∀ held, report.haves.get? key = some held → held = [] := by
  obtain ⟨origin, covers⟩ := mem_unionPayloads reports key
  refine ⟨fun empty report member held found => ?_, fun nothing => ?_⟩
  · refine List.eq_nil_iff_forall_not_mem.mpr fun payload inside => ?_
    obtain ⟨other, inUnion, -⟩ := covers report member held found payload inside
    rw [empty] at inUnion
    cases inUnion
  · refine List.eq_nil_iff_forall_not_mem.mpr fun payload inside => ?_
    obtain ⟨report, member, held, found, inHeld⟩ := origin payload inside
    rw [nothing report member held found] at inHeld
    cases inHeld

theorem actionFor_eq_some {reports : List (RecoveryReport cfg)} {key : ClockKey}
    {action : RecoveryAction} (found : actionFor reports key = some action) :
    (action = .skip ↔ unionPayloads reports key = []) ∧
      ∀ payloads, action = .deliver payloads → payloads = unionPayloads reports key := by
  unfold actionFor at found
  split_ifs at found
  cases union : unionPayloads reports key with
  | nil =>
    rw [union] at found
    obtain rfl := Option.some.inj found
    simp
  | cons head rest =>
    rw [union] at found
    obtain rfl := Option.some.inj found
    simp [eq_comm]

/-- **The merge meets its specification**, whatever the reports. -/
theorem planSpec (reports : List (RecoveryReport cfg)) :
    PlanSpec reports (computeRecoveryPlan reports) := by
  have action : ∀ {key action}, (computeRecoveryPlan reports).actions.get? key = some action →
      actionFor reports key = some action := fun found => by
    rw [get?_actions] at found
    split_ifs at found
    exact found
  refine ⟨fun q inside => boundaryOf_le_iff reports inside, fun key => ?_,
    fun key act found => ?_, fun key payloads found => ?_⟩
  · rw [get?_actions]
    show ite (Within (computeRecoveryPlan reports) key) _ _ = _ ↔ _
    split_ifs with within
    · rw [actionFor_eq_none, or_iff_right (not_not.mpr within)]
    · simp [within]
  · rw [(actionFor_eq_some (action found)).1, unionPayloads_eq_nil]
  · obtain rfl := (actionFor_eq_some (action found)).2 payloads rfl
    obtain ⟨origin, covers⟩ := mem_unionPayloads reports key
    refine ⟨nodup_unionPayloads reports key, fun id => ⟨?_, ?_⟩, origin⟩
    · rintro ⟨payload, inside, rfl⟩
      obtain ⟨report, member, held, has, inHeld⟩ := origin payload inside
      exact ⟨report, member, held, has, payload, inHeld, rfl⟩
    · rintro ⟨report, member, held, has, payload, inHeld, rfl⟩
      exact covers report member held has payload inHeld

/-- A key within the boundary that a report has not done gets an action. -/
theorem PlanSpec.acts {reports : List (RecoveryReport cfg)} {plan : RecoveryPlan cfg}
    (spec : PlanSpec reports plan) {report : RecoveryReport cfg} (reported : report ∈ reports)
    {key : ClockKey} (within : Within plan key) (fresh : key ∉ report.done) :
    key ∈ plan.actions.entries.map Prod.fst := by
  refine plan.actions.mem_keys_iff.mpr (Option.ne_none_iff_exists'.mp fun none => ?_)
  rcases (spec.none_iff key).mp none with outside | everywhere
  · exact outside within
  · exact fresh (everywhere report reported)

/-- No action is an empty delivery: a key without payloads is skipped. -/
theorem PlanSpec.loaded {reports : List (RecoveryReport cfg)} {plan : RecoveryPlan cfg}
    (spec : PlanSpec reports plan) : ∀ entry ∈ plan.actions.entries, entry.2 ≠ .deliver [] := by
  rintro ⟨key, action⟩ inPlan rfl
  have found := plan.actions.mem_entries_iff.mp inPlan
  have skip := (spec.skip_iff key _ found).mpr fun report inReports held has => ?_
  · cases skip
  · refine List.eq_nil_iff_forall_not_mem.mpr fun payload inHeld => ?_
    have mentioned := ((spec.deliver key [] found).2.1 payload.msgId).mpr
      ⟨report, inReports, held, has, payload, inHeld, rfl⟩
    exact absurd mentioned (by simp [Mentions])

/-! ### The loop of `apply_recovery` -/

/-- What an action puts out at a node that has not done its key. -/
def RecoveryAction.outputs : RecoveryAction → List Output
  | .deliver payloads => [.deliver (sortPayloads payloads)]
  | .skip => []

namespace TrainsNode

theorem parked_applyAction (state : TrainsNode cfg × List Output)
    (entry : ClockKey × RecoveryAction) (key : ClockKey) :
    (applyAction state entry).1.parked.get? key =
      if key = entry.1 then none else state.1.parked.get? key := by
  rw [applyAction_eq]
  dsimp only
  split_ifs with done same same
  · rw [unpark, OrdMap.get?_erase, if_pos same]
  · rw [unpark, OrdMap.get?_erase, if_neg same]
    rfl
  · rw [deliverNow_parked, noteSeen, unpark, OrdMap.get?_erase, if_pos same]
  · rw [deliverNow_parked, noteSeen, unpark, OrdMap.get?_erase, if_neg same]
    rfl

/-- **The loop unparks the keys of the plan.** -/
theorem parked_applyActions (entries : List (ClockKey × RecoveryAction)) :
    ∀ (state : TrainsNode cfg × List Output) (key : ClockKey),
      (entries.foldl applyAction state).1.parked.get? key =
        if key ∈ entries.map Prod.fst then none else state.1.parked.get? key := by
  induction entries with
  | nil => simp
  | cons entry rest ih =>
    intro state key
    rw [List.foldl_cons, ih, parked_applyAction]
    simp only [List.map_cons, List.mem_cons]
    split_ifs <;> simp_all

/-- What one round puts out. -/
theorem outputs_applyAction (state : TrainsNode cfg × List Output)
    {entry : ClockKey × RecoveryAction} (loaded : entry.2 ≠ .deliver []) :
    (applyAction state entry).2 = state.2 ++
      if entry.1 ∈ state.1.delivery.doneKeys then [] else entry.2.outputs := by
  obtain ⟨key, action⟩ := entry
  rw [applyAction_eq]
  dsimp only
  split_ifs with done
  · simp
  · cases action with
    | skip => rfl
    | deliver payloads =>
      have filled : payloads ≠ [] := fun none => loaded (by rw [none])
      simp [deliverNow, RecoveryAction.payloads, RecoveryAction.outputs, filled]

/-- **What the loop puts out**: the deliveries of the keys that were not done, in order. -/
theorem outputs_applyActions (entries : List (ClockKey × RecoveryAction)) :
    ∀ state : TrainsNode cfg × List Output, (entries.map Prod.fst).Nodup →
      (∀ entry ∈ entries, entry.2 ≠ .deliver []) →
      (entries.foldl applyAction state).2 = state.2 ++
        (entries.filter fun entry => entry.1 ∉ state.1.delivery.doneKeys).flatMap
          fun entry => entry.2.outputs := by
  induction entries with
  | nil => simp
  | cons entry rest ih =>
    intro state distinct loaded
    obtain ⟨fresh, tail⟩ := List.nodup_cons.mp distinct
    -- recording the key changes nothing for the other keys
    have later : (rest.filter fun other => other.1 ∉ (applyAction state entry).1.delivery.doneKeys) =
        rest.filter fun other => other.1 ∉ state.1.delivery.doneKeys := by
      refine List.filter_congr fun other member => ?_
      have distinct : other.1 ≠ entry.1 := fun same => fresh (same ▸ List.mem_map_of_mem member)
      simp [doneKeys_applyAction, distinct]
    rw [List.foldl_cons, ih _ tail fun other member => loaded other (List.mem_cons_of_mem _ member),
      outputs_applyAction state (loaded entry List.mem_cons_self), later, List.append_assoc]
    by_cases done : entry.1 ∈ state.1.delivery.doneKeys <;> simp [done]

/-- A node with nothing parked has nothing to drain. -/
theorem drainParked_idle {node : TrainsNode cfg} (idle : ∀ key, node.parked.get? key = none) :
    node.drainParked = (node, []) := by
  have smallest := OrdMap.min?_eq_none.mpr idle
  unfold drainParked
  split_ifs
  · rfl
  · cases node.parked.size with
    | zero => rfl
    | succ fuel => simp only [drainLoop, smallest]

/-! ### Survivors -/

/-- A settled node all of whose known keys are keys of the ring. -/
structure Charted (node : TrainsNode cfg) : Prop where
  settling : node.Settling
  ringed : ∀ key, node.Settled key → key.issuer < cfg.ringSize ∧ 1 ≤ key.clock

theorem Charted.seen {node : TrainsNode cfg} (charted : node.Charted) {key : ClockKey}
    (settled : node.Settled key) : key.clock ≤ node.seenClock key.issuer := by
  rcases settled with done | ⟨train, found⟩
  · exact charted.settling.seen key done
  · exact (charted.settling.tidy.seen key train found).2

theorem Charted.handleTrain {node : TrainsNode cfg} (charted : node.Charted) (train : Train) :
    (node.handleTrain train).1.Charted := by
  refine ⟨charted.settling.handleTrain train, fun key settled => ?_⟩
  by_cases stale : node.Stale train
  · rw [handleTrain_stale stale] at settled
    exact charted.ringed key settled
  obtain ⟨_, _, handled, -⟩ := node.handleTrain_spec train
  rcases handled.settled_back settled with old | ⟨rfl, replay⟩
  · exact charted.ringed key old
  have inside : train.issuer < cfg.ringSize := by
    by_cases own : train.issuer = node.id
    · exact own ▸ node.id_lt
    · exact (replay own).inside
  refine ⟨inside, Nat.pos_of_ne_zero fun zero => stale ⟨inside, ?_⟩⟩
  exact (show train.clock = 0 from zero) ▸ Nat.zero_le _

end TrainsNode

/-- Steps and crash confirmations. -/
def NodeCall.Surviving : NodeCall cfg → Prop
  | step _ => True
  | confirmCrash _ => True
  | _ => False

instance : (call : NodeCall cfg) → Decidable call.Surviving
  | .step _ => instDecidableTrue
  | .confirmCrash _ => instDecidableTrue
  | .issueInitialTrain | .reissueTrain | .markCrashed _ | .readmitNode _ | .setFrozen _
  | .recoveryReport | .applyRecovery _ => instDecidableFalse

open TrainsNode

theorem charted_reachable {node : TrainsNode cfg}
    (reachable : (nodeRuns NodeCall.Surviving).Reachable node) : node.Charted := by
  refine Machine.invariant ?_ (fun node call charted surviving => ?_) reachable
  · rintro _ ⟨id, id_lt, mode, rfl⟩
    refine ⟨.new id id_lt mode, fun key settled => ?_⟩
    rcases settled with done | ⟨train, found⟩
    · exact absurd done (Finset.notMem_empty key)
    · exact absurd found (by simp [TrainsNode.new])
  · cases call with
    | step input =>
      cases input with
      | trainReceived train => exact charted.handleTrain train
      | localBroadcast data =>
        obtain ⟨-, -, delivery, parked, -, -⟩ := node.handleBroadcast_keeps data
        refine ⟨charted.settling.handleBroadcast data, fun key settled => charted.ringed key ?_⟩
        rcases settled with done | ⟨train, found⟩
        · exact Or.inl (congrArg DeliveryState.doneKeys delivery ▸ done)
        · exact Or.inr ⟨train, parked ▸ found⟩
      | tick => exact charted
    | confirmCrash p =>
      refine ⟨charted.settling.confirmCrash p, fun key settled => charted.ringed key ?_⟩
      exact (node.markCrashed p).drainParked_entries.1.settled_back settled
    | issueInitialTrain => exact absurd surviving not_false
    | reissueTrain => exact absurd surviving not_false
    | markCrashed p => exact absurd surviving not_false
    | readmitNode p => exact absurd surviving not_false
    | setFrozen frozen => exact absurd surviving not_false
    | recoveryReport => exact absurd surviving not_false
    | applyRecovery plan => exact absurd surviving not_false

/-- **A survivor that has applied the plan**: everything up to the boundary is done, nothing is parked
any more, and it has put out the deliveries of the keys it had not done, in key order. -/
structure Closed (plan : RecoveryPlan cfg) (node : TrainsNode cfg)
    (result : TrainsNode cfg × List Output) : Prop where
  done : ∀ key, key ∈ result.1.delivery.doneKeys ↔ key ∈ node.delivery.doneKeys ∨ Within plan key
  unparked : ∀ key, result.1.parked.get? key = none
  outputs : result.2 =
    (plan.actions.entries.filter fun entry => entry.1 ∉ node.delivery.doneKeys).flatMap
      fun entry => entry.2.outputs

section Survivors

variable {nodes : List (TrainsNode cfg)} {node : TrainsNode cfg}

/-- What a survivor knows lies below the boundary of the merged reports. -/
theorem TrainsNode.Charted.within (charted : node.Charted) (member : node ∈ nodes) {key : ClockKey}
    (settled : node.Settled key) :
    Within (computeRecoveryPlan (nodes.map recoveryReport)) key := by
  obtain ⟨inside, positive⟩ := charted.ringed key settled
  refine ⟨inside, positive, (charted.seen settled).trans ?_⟩
  have reported : node.recoveryReport ∈ nodes.map recoveryReport := List.mem_map_of_mem member
  refine le_trans (le_of_eq ?_) (seen_le_boundaryOf reported inside)
  exact (Slots.get_ofFn node.seenClock inside).symm

/-- **One survivor applies the merged plan.** -/
theorem TrainsNode.Charted.closed (charted : node.Charted) (member : node ∈ nodes) :
    let plan := computeRecoveryPlan (nodes.map recoveryReport)
    Closed plan node (node.applyRecovery plan) := by
  intro plan
  have spec := planSpec (nodes.map recoveryReport)
  have reported : node.recoveryReport ∈ nodes.map recoveryReport := List.mem_map_of_mem member
  have planned : ∀ key, Within plan key → key ∉ node.delivery.doneKeys →
      key ∈ plan.actions.entries.map Prod.fst := fun key => spec.acts reported
  let applied := plan.actions.entries.foldl applyAction (node, [])
  have idle : ∀ key, (applied.1.installView plan).parked.get? key = none := by
    intro key
    show applied.1.parked.get? key = none
    rw [parked_applyActions]
    split_ifs with acted
    · rfl
    · by_contra isParked
      obtain ⟨train, found⟩ := Option.ne_none_iff_exists'.mp isParked
      have fresh := charted.settling.tidy.apart key train found
      exact acted (planned key (charted.within member (Or.inr ⟨train, found⟩)) fresh)
  have shape : node.applyRecovery plan = (applied.1.installView plan, applied.2) := by
    show ((applied.1.installView plan).drainParked.1, applied.2 ++ _) = _
    rw [drainParked_idle idle, List.append_nil]
  rw [shape]
  refine ⟨fun key => ?_, idle, ?_⟩
  · show key ∈ applied.1.delivery.doneKeys ↔ _
    rw [doneKeys_applyActions, Finset.mem_union, List.mem_toFinset]
    refine ⟨Or.imp_right fun acted => ?_, fun either => ?_⟩
    · obtain ⟨action, found⟩ := plan.actions.mem_keys_iff.mp acted
      by_contra outside
      rw [(spec.none_iff key).mpr (Or.inl outside)] at found
      cases found
    · by_cases done : key ∈ node.delivery.doneKeys
      · exact Or.inl done
      · exact Or.inr (planned key (either.resolve_left done) done)
  · exact (outputs_applyActions plan.actions.entries (node, []) plan.actions.nodup_keys
      spec.loaded).trans (List.nil_append _)

/-- **The merged plan closes every gap**: it says what it must of every key, and after every
reporting node has applied it all of them have done the same keys, their own and everything up to
the boundary, hold nothing parked, and have delivered what they lacked. -/
theorem plan_closes_gaps
    (reachable : ∀ node ∈ nodes, (nodeRuns NodeCall.Surviving).Reachable node) :
    let plan := computeRecoveryPlan (nodes.map recoveryReport)
    PlanSpec (nodes.map recoveryReport) plan ∧
      (∀ node ∈ nodes, Closed plan node (node.applyRecovery plan)) ∧
      ∀ first ∈ nodes, ∀ second ∈ nodes,
        (first.applyRecovery plan).1.delivery.doneKeys =
          (second.applyRecovery plan).1.delivery.doneKeys := by
  intro plan
  have closed : ∀ node ∈ nodes, Closed plan node (node.applyRecovery plan) := fun node member =>
    (charted_reachable (reachable node member)).closed member
  have all : ∀ node ∈ nodes, ∀ key, key ∈ (node.applyRecovery plan).1.delivery.doneKeys ↔
      Within plan key := fun node member key => by
    rw [(closed node member).done]
    exact or_iff_right_of_imp fun done =>
      (charted_reachable (reachable node member)).within member (Or.inl done)
  refine ⟨planSpec _, closed, fun first member second member' => ?_⟩
  ext key
  rw [all first member, all second member']

end Survivors

/-- One survivor has delivered a train, another has it parked, the third has seen nothing. -/
def survivors : List (TrainsNode .triple) :=
  let closed : Train := ⟨1, 1, [⟨0, 0, [5]⟩], 7#32⟩
  [(nodeRuns NodeCall.Surviving).run (TrainsNode.new .triple 0 RingConfig.triple.ringSize_pos .totalOrder)
      [.step (.trainReceived closed), .confirmCrash 0, .step (.trainReceived closed)],
    (nodeRuns NodeCall.Surviving).run (TrainsNode.new .triple 2 RingConfig.two_lt_triple .totalOrder)
      [.step (.trainReceived closed), .step (.trainReceived closed)],
    TrainsNode.new .triple 1 RingConfig.triple.two_le .totalOrder]

/-- The plan they merge. -/
def survivorPlan : RecoveryPlan .triple := computeRecoveryPlan (survivors.map recoveryReport)

theorem plan_closes_gaps_triple : PlanSpec (survivors.map recoveryReport) survivorPlan ∧
    (∀ node ∈ survivors, Closed survivorPlan node (node.applyRecovery survivorPlan)) ∧
    ∀ first ∈ survivors, ∀ second ∈ survivors,
      (first.applyRecovery survivorPlan).1.delivery.doneKeys =
        (second.applyRecovery survivorPlan).1.delivery.doneKeys := by
  have reachable : ∀ node ∈ survivors, (nodeRuns NodeCall.Surviving).Reachable node := by
    intro node member
    rcases List.mem_cons.mp member with rfl | member
    · exact Machine.reachable_run ⟨0, by decide, .totalOrder, rfl⟩ (by decide)
    rcases List.mem_cons.mp member with rfl | member
    · exact Machine.reachable_run ⟨2, by decide, .totalOrder, rfl⟩ (by decide)
    obtain rfl := List.mem_singleton.mp member
    exact Machine.Reachable.start ⟨1, by decide, .totalOrder, rfl⟩
  exact plan_closes_gaps reachable

end TrainsRing
