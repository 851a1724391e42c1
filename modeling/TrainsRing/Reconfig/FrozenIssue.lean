/-
**What a frozen node still issues.**

A survivor reports its highest issued clock and goes on taking inputs, frozen, until it applies the
plan. The freeze stops deliveries. It does not stop the recycle branch: a train of the node's own that
comes back with its key done is replaced by a train with the next clock, which the report does not
know (`unreported_issue`).

* `step_frozen` — a frozen step: nothing delivered, and the issue clock moves exactly when the step
  recycles.
* `plan_covers_issued` — **when the plan covers every train issued**: no step recycles, or some report
  of the list has already seen or issued the last clock issued while frozen.
-/

import TrainsRing.Library.Machine
import TrainsRing.Reconfig.Apply

namespace TrainsRing

variable {cfg : RingConfig}

namespace TrainsNode

/-! ### Steps of a frozen node -/

/-- The step takes a live train of the node's own whose key is done, and recycles it. -/
def Recycles (node : TrainsNode cfg) : Input → Prop
  | .trainReceived train =>
    ¬ node.Stale train ∧ train.issuer = node.id ∧ train.key ∈ node.delivery.doneKeys
  | _ => False

instance (node : TrainsNode cfg) : DecidablePred node.Recycles
  | .trainReceived train => inferInstanceAs (Decidable (¬ node.Stale train ∧
      train.issuer = node.id ∧ train.key ∈ node.delivery.doneKeys))
  | .localBroadcast _ => inferInstanceAs (Decidable False)
  | .tick => inferInstanceAs (Decidable False)

/-- The trains `issue_new_train` builds in a step: one, when the step recycles. -/
def issuedBy (node : TrainsNode cfg) (input : Input) : List Train :=
  match input with
  | .trainReceived train =>
    if node.Recycles input then [(node.observe node.id train.clock).issueNewTrain.2] else []
  | _ => []

/-- The train issued in a step has the next issue clock. -/
theorem clock_issuedBy (node : TrainsNode cfg) (input : Input) :
    (node.issuedBy input).map Train.clock =
      if node.Recycles input then [node.nextIssueClock] else [] := by
  cases input with
  | trainReceived train =>
    unfold issuedBy
    dsimp only
    split_ifs <;> rfl
  | localBroadcast data => exact (if_neg not_false).symm
  | tick => exact (if_neg not_false).symm

theorem drainParked_frozen (node : TrainsNode cfg) (frozen : node.frozen = true) :
    node.drainParked = (node, []) := if_pos frozen

theorem tryDeliver_frozen (node : TrainsNode cfg) (train : Train) (frozen : node.frozen = true) :
    node.tryDeliver train = (node, []) := if_pos frozen

/-- A frozen node neither delivers nor parks. -/
theorem tried_frozen (node : TrainsNode cfg) (train : Train) (frozen : node.frozen = true) :
    (node.tryDeliver train).1.drainParked.1 = node := by
  rw [tryDeliver_frozen node train frozen, drainParked_frozen node frozen]

/-- What every step of a frozen node leaves alone. -/
structure FrozenStep (node after : TrainsNode cfg) : Prop where
  id : after.id = node.id
  frozen : after.frozen = true
  delivery : after.delivery = node.delivery
  viewFloor : after.viewFloor = node.viewFloor

/-- **The issue clock moves exactly when the step recycles**, frozen or not. -/
theorem nextIssueClock_step (node : TrainsNode cfg) (input : Input) :
    (node.step input).1.nextIssueClock =
      if node.Recycles input then satSucc node.nextIssueClock else node.nextIssueClock := by
  cases input with
  | tick => exact (if_neg not_false).symm
  | localBroadcast data =>
    rw [if_neg (show ¬ node.Recycles (.localBroadcast data) from not_false)]
    show (node.handleBroadcast data).1.nextIssueClock = _
    unfold handleBroadcast
    split_ifs <;> rfl
  | trainReceived train =>
    obtain ⟨delivered, forwarded, handled, -⟩ := node.handleTrain_spec train
    show (node.handleTrain train).1.nextIssueClock = _
    generalize node.handleTrain train = result at handled
    obtain ⟨after, outputs⟩ := result
    cases handled with
    | absorbed stale => exact (if_neg fun recycles => recycles.1 stale).symm
    | visited _ foreign _ run _ =>
      rw [if_neg fun recycles => foreign recycles.2.1]
      exact run.frame.nextIssueClock
    | replayed _ foreign _ tried run _ =>
      rw [if_neg fun recycles => foreign recycles.2.1]
      exact run.frame.nextIssueClock.trans tried.frame.nextIssueClock
    | recycled fresh own done =>
      rw [if_pos ⟨fresh, own, done⟩]
      rfl
    | returned _ _ undone tried run _ =>
      rw [if_neg fun recycles => undone recycles.2.2]
      exact run.frame.nextIssueClock.trans tried.frame.nextIssueClock

/-- **A frozen step** delivers nothing and parks nothing. -/
theorem step_frozen (node : TrainsNode cfg) (input : Input) (frozen : node.frozen = true) :
    FrozenStep node (node.step input).1 := by
  cases input with
  | tick => exact ⟨rfl, frozen, rfl, rfl⟩
  | localBroadcast data =>
    show FrozenStep node (node.handleBroadcast data).1
    unfold handleBroadcast
    split_ifs <;> exact ⟨rfl, frozen, rfl, rfl⟩
  | trainReceived train =>
    show FrozenStep node (node.handleTrain train).1
    by_cases stale : node.Stale train
    · rw [show node.handleTrain train = (node, []) from if_pos stale]
      exact ⟨rfl, frozen, rfl, rfl⟩
    have branch : node.handleTrain train = if train.issuer = node.id then
        node.handleReturningTrain train else node.handleForeignTrain train := if_neg stale
    rw [branch]
    by_cases own : train.issuer = node.id
    · rw [if_pos own]
      have after : ((node.observe node.id train.clock).tryDeliver train).1.drainParked.1 =
          node.observe node.id train.clock := tried_frozen (node.observe _ _) train frozen
      by_cases done : train.key ∈ node.delivery.doneKeys
      · have result : (node.handleReturningTrain train).1 =
            (node.observe node.id train.clock).issueNewTrain.1 :=
          congrArg Prod.fst (if_pos (decide_eq_true done))
        rw [result]
        exact ⟨rfl, frozen, rfl, rfl⟩
      · have result : (node.handleReturningTrain train).1 = node.observe node.id train.clock :=
          (congrArg Prod.fst (if_neg (by
            simpa [DeliveryState.alreadyDelivered] using done))).trans after
        rw [result]
        exact ⟨rfl, frozen, rfl, rfl⟩
    · rw [if_neg own]
      by_cases old : node.Replay train
      · have result : (node.handleForeignTrain train).1 = node.noteSeen train.payloads :=
          (congrArg Prod.fst (if_pos old)).trans
            (tried_frozen (node.noteSeen train.payloads) train frozen)
        rw [result]
        exact ⟨rfl, frozen, rfl, rfl⟩
      · have result : (node.handleForeignTrain train).1 = node.visit train :=
          (congrArg Prod.fst (if_neg old)).trans
            (congrArg Prod.fst (drainParked_frozen (node.visit train) frozen))
        rw [result]
        exact ⟨rfl, frozen, rfl, rfl⟩

/-- A frozen step changes nothing that decides whether an input is recycled. -/
theorem FrozenStep.recycles {node after : TrainsNode cfg} (step : FrozenStep node after)
    (input : Input) : after.Recycles input ↔ node.Recycles input := by
  cases input with
  | trainReceived train => rw [Recycles, Recycles, Stale, Stale, step.viewFloor, step.id, step.delivery]
  | localBroadcast data => exact Iff.rfl
  | tick => exact Iff.rfl

end TrainsNode

/-! ### A node and the trains it has issued -/

/-- A node with every train it has issued so far. -/
structure Issuing (cfg : RingConfig) where
  node : TrainsNode cfg
  issued : List Train

/-- What is done to a node outside a freeze. -/
inductive NodeAction (cfg : RingConfig) where
  | step (input : Input)
  | issueInitialTrain
  | confirmCrash (p : Nat)
  | applyRecovery (plan : RecoveryPlan cfg)

namespace Issuing

/-- One step, with the trains it issues. -/
def step (st : Issuing cfg) (input : Input) : Issuing cfg :=
  ⟨(st.node.step input).1, st.issued ++ st.node.issuedBy input⟩

/-- Any number of steps. -/
def steps (st : Issuing cfg) (inputs : List Input) : Issuing cfg := inputs.foldl step st

/-- The state after an action. -/
def act (st : Issuing cfg) : NodeAction cfg → Issuing cfg
  | .step input => st.step input
  | .issueInitialTrain =>
    ⟨st.node.issueInitialTrain.1, st.issued ++ [st.node.issueInitialTrain.2]⟩
  | .confirmCrash p => { st with node := (st.node.confirmCrash p).1 }
  | .applyRecovery plan => { st with node := (st.node.applyRecovery plan).1 }

/-- The node freezes. -/
def freeze (st : Issuing cfg) : Issuing cfg := { st with node := st.node.setFrozen true }

end Issuing

/-- The life of a node. -/
def nodeLife (cfg : RingConfig) : Machine (Issuing cfg) (NodeAction cfg) where
  start := fun st => ∃ id id_lt mode, st = ⟨TrainsNode.new cfg id id_lt mode, []⟩
  legal := fun _ _ => True
  next := Issuing.act

/-- After applying the plan, every train issued is at or below the node's floor for its own slot, and
no node that has applied the plan acts on it. -/
def CoversIssued (st : Issuing cfg) (plan : RecoveryPlan cfg) : Prop :=
  ∀ train ∈ st.issued,
    train.clock ≤ (st.node.applyRecovery plan).1.viewFloor.get st.node.id ∧
    ∀ (other : TrainsNode cfg) (copy : Train), copy.key = ⟨train.clock, st.node.id⟩ →
      (other.applyRecovery plan).1.handleTrain copy = ((other.applyRecovery plan).1, [])

/-! ### The clocks issued -/

namespace Issuing

/-- Every train issued has a clock below the next one, or the issue clock is saturated. -/
structure Stamped (st : Issuing cfg) : Prop where
  positive : 1 ≤ st.node.nextIssueClock
  below : ∀ train ∈ st.issued, train.clock ≤ st.node.nextIssueClock
  saturated : ∀ train ∈ st.issued, train.clock = st.node.nextIssueClock →
    u64Max ≤ st.node.nextIssueClock

theorem Stamped.raise {st : Issuing cfg} (stamped : st.Stamped) {node : TrainsNode cfg}
    (raised : st.node.nextIssueClock ≤ node.nextIssueClock) : Stamped { st with node := node } where
  positive := stamped.positive.trans raised
  below := fun train member => (stamped.below train member).trans raised
  saturated := fun train member same => by
    have below := stamped.below train member
    have equal : train.clock = st.node.nextIssueClock := le_antisymm below (same ▸ raised)
    exact (stamped.saturated train member equal).trans raised

/-- A train with the next clock is issued. -/
theorem Stamped.issue {st : Issuing cfg} (stamped : st.Stamped) {node : TrainsNode cfg}
    {train : Train} (stamp : train.clock = st.node.nextIssueClock)
    (next : node.nextIssueClock = satSucc st.node.nextIssueClock) :
    Stamped ⟨node, st.issued ++ [train]⟩ := by
  have grows := le_satSucc st.node.nextIssueClock
  have bound : ∀ issued ∈ st.issued ++ [train], issued.clock ≤ st.node.nextIssueClock := by
    intro issued member
    rcases List.mem_append.mp member with old | new
    · exact stamped.below issued old
    · rw [List.mem_singleton.mp new, stamp]
  refine ⟨?_, fun issued member => ?_, fun issued member same => ?_⟩
  · rw [show (Issuing.mk node _).node.nextIssueClock = _ from next]
    exact stamped.positive.trans grows
  · exact (bound issued member).trans (grows.trans (le_of_eq next.symm))
  · have low := bound issued member
    rw [same, show (Issuing.mk node _).node.nextIssueClock = _ from next] at low
    show u64Max ≤ node.nextIssueClock
    by_contra room
    rw [satSucc_of_lt (by omega)] at low
    omega

theorem Stamped.step {st : Issuing cfg} (stamped : st.Stamped) (input : Input) :
    (st.step input).Stamped := by
  have moves := st.node.nextIssueClock_step input
  have clocks := st.node.clock_issuedBy input
  unfold Issuing.step
  by_cases recycles : st.node.Recycles input
  · rw [if_pos recycles] at moves clocks
    obtain ⟨train, single, stamp⟩ := List.map_eq_singleton_iff.mp clocks
    rw [single]
    exact stamped.issue stamp moves
  · rw [if_neg recycles] at moves clocks
    rw [List.map_eq_nil_iff.mp clocks, List.append_nil]
    exact stamped.raise moves.ge

theorem stamped {st : Issuing cfg} (reachable : (nodeLife cfg).Reachable st) : st.Stamped := by
  refine Machine.invariant (fun first initial => ?_) (fun st action before _ => ?_) reachable
  · obtain ⟨id, id_lt, mode, rfl⟩ := initial
    exact ⟨le_rfl, fun train member => absurd member List.not_mem_nil,
      fun train member => absurd member List.not_mem_nil⟩
  · cases action with
    | step input => exact before.step input
    | issueInitialTrain => exact before.issue rfl rfl
    | confirmCrash p =>
      obtain ⟨delivered, run, -, -⟩ := (st.node.markCrashed p).drainParked_spec
      exact before.raise run.frame.nextIssueClock.ge
    | applyRecovery plan =>
      exact before.raise ((le_max_left _ _).trans
        (st.node.applyRecovery_applied plan).nextIssueClock.ge)

/-! ### The steps between the report and the plan -/

/-- The inputs that a frozen node recycles. -/
def recycled (st : Issuing cfg) (inputs : List Input) : Nat :=
  (inputs.filter fun input => st.node.Recycles input).length

/-- The last clock issued by `count` recycles; for none, the next clock to issue. -/
def lastIssued (st : Issuing cfg) (count : Nat) : Nat := satSucc^[count - 1] st.node.nextIssueClock

theorem le_iterate_satSucc (count value : Nat) : value ≤ satSucc^[count] value := by
  induction count with
  | zero => exact le_rfl
  | succ count ih =>
    rw [Function.iterate_succ_apply']
    exact ih.trans (le_satSucc _)

/-- **The steps of a frozen node**: one train issued for every recycled input, with consecutive
clocks. -/
theorem steps_frozen (inputs : List Input) : ∀ st : Issuing cfg, st.node.frozen = true →
    (st.steps inputs).node.id = st.node.id ∧
    (st.steps inputs).node.viewFloor = st.node.viewFloor ∧
    (st.steps inputs).node.nextIssueClock =
      satSucc^[st.recycled inputs] st.node.nextIssueClock ∧
    (st.steps inputs).issued.map Train.clock = st.issued.map Train.clock ++
      (List.range (st.recycled inputs)).map fun k => satSucc^[k] st.node.nextIssueClock := by
  induction inputs with
  | nil => exact fun st _ => ⟨rfl, rfl, rfl, (List.append_nil _).symm⟩
  | cons input rest ih =>
    intro st frozen
    have step := st.node.step_frozen input frozen
    obtain ⟨id, floor, clock, clocks⟩ := ih (st.step input) step.frozen
    have moves := st.node.nextIssueClock_step input
    have stamps := st.node.clock_issuedBy input
    have same : (st.step input).recycled rest = st.recycled rest := by
      unfold recycled
      exact congrArg List.length (List.filter_congr fun later _ =>
        decide_eq_decide.mpr (step.recycles later))
    have issued : (st.step input).issued.map Train.clock =
        st.issued.map Train.clock ++ (st.node.issuedBy input).map Train.clock := List.map_append
    have clockThen : (st.step input).node.nextIssueClock = (st.node.step input).1.nextIssueClock := rfl
    refine ⟨id.trans step.id, floor.trans step.viewFloor, ?_, ?_⟩
    · show (Issuing.steps (st.step input) rest).node.nextIssueClock = _
      rw [clock, same, clockThen, moves]
      unfold recycled
      by_cases recycles : st.node.Recycles input
      · simp [recycles]
      · simp [recycles]
    · show (Issuing.steps (st.step input) rest).issued.map Train.clock = _
      rw [clocks, same, issued, clockThen, moves, stamps]
      unfold recycled
      by_cases recycles : st.node.Recycles input
      · simp [recycles, List.range_succ_eq_map, Function.comp_def]
      · simp [recycles]

end Issuing

/-! ### When the plan covers what was issued -/

/-- No input recycles while the node is frozen, and its issue clock is not saturated; or some report
of the list has seen or issued, in the node's slot, the last clock it issues while frozen. -/
def KnownToReports (st : Issuing cfg) (inputs : List Input) (reports : List (RecoveryReport cfg)) :
    Prop :=
  (st.recycled inputs = 0 ∧ ∀ train ∈ st.issued, train.clock ≠ st.node.nextIssueClock) ∨
    ∃ report ∈ reports, st.lastIssued (st.recycled inputs) ≤
      max (report.seen.get st.node.id) (report.issued.get st.node.id)

/-- A node that has applied a plan acts on every train above the plan's boundary, unless its own
floor was higher: a node new to the ring shows that the boundary is what counts. -/
theorem coversIssued_iff (st : Issuing cfg) (plan : RecoveryPlan cfg) :
    CoversIssued st plan ↔
      ∀ train ∈ st.issued, train.clock ≤ plan.boundary.get st.node.id := by
  have inside := st.node.id_lt
  have floorOf : ∀ other : TrainsNode cfg, (other.applyRecovery plan).1.viewFloor.get st.node.id =
      max (other.viewFloor.get st.node.id) (plan.boundary.get st.node.id) := by
    intro other
    rw [(other.applyRecovery_applied plan).viewFloor]
    exact Slots.get_ofFn _ inside
  refine forall₂_congr fun train member => ⟨fun ⟨_, absorbed⟩ => ?_, fun low => ⟨?_, ?_⟩⟩
  · by_contra high
    let fresh := TrainsNode.new cfg st.node.id inside .totalOrder
    let copy : Train := ⟨st.node.id, train.clock, [], 0#32⟩
    have nothing := absorbed fresh copy rfl
    obtain ⟨delivered, forwarded, handled, emits⟩ :=
      (fresh.applyRecovery plan).1.handleTrain_spec copy
    have silent : forwarded = [] := by
      rw [← emits.2, nothing]
      rfl
    generalize ((fresh.applyRecovery plan).1.handleTrain copy).1 = after at handled
    cases handled with
    | absorbed stale =>
      have low : train.clock ≤ (fresh.applyRecovery plan).1.viewFloor.get st.node.id := stale.2
      rw [floorOf, show fresh.viewFloor.get st.node.id = 0 from Slots.get_zero _,
        max_eq_right (Nat.zero_le _)] at low
      exact high low
    | visited _ _ _ _ _ => cases silent
    | replayed _ _ _ _ _ _ => cases silent
    | recycled _ _ _ => cases silent
    | returned _ _ _ _ _ _ => cases silent
  · rw [floorOf]
    exact low.trans (le_max_right _ _)
  · intro other copy same
    have issuer : copy.issuer = st.node.id := congrArg ClockKey.issuer same
    have clock : copy.clock = train.clock := congrArg ClockKey.clock same
    refine if_pos ⟨issuer ▸ inside, ?_⟩
    rw [issuer, clock, floorOf]
    exact low.trans (le_max_right _ _)

/-- **When the plan covers what a frozen node has issued**: exactly when the node recycled nothing
after its report, or another report of the list knows the last clock it issued. -/
theorem plan_covers_issued {st : Issuing cfg} (reachable : (nodeLife cfg).Reachable st)
    (inputs : List Input) {reports : List (RecoveryReport cfg)}
    (member : st.freeze.node.recoveryReport ∈ reports) :
    CoversIssued (st.freeze.steps inputs) (computeRecoveryPlan reports) ↔
      KnownToReports st.freeze inputs reports := by
  have stamped : st.freeze.Stamped := (Issuing.stamped reachable).raise le_rfl
  have inside := st.freeze.node.id_lt
  obtain ⟨id, -, -, clocks⟩ := Issuing.steps_frozen inputs st.freeze rfl
  have reported : st.freeze.node.nextIssueClock - 1 ≤
      (boundaryOf reports).get st.freeze.node.id := by
    have known := issued_le_boundaryOf member inside
    have own : st.freeze.node.recoveryReport.issued.get st.freeze.node.id =
        st.freeze.node.nextIssueClock - 1 := by
      show (Slots.set _ st.freeze.node.id _).get st.freeze.node.id = _
      rw [Slots.get_set, if_pos ⟨rfl, inside⟩]
    rwa [own] at known
  -- the clocks issued: those before the freeze, then the consecutive ones
  have all : (∀ train ∈ (st.freeze.steps inputs).issued,
      train.clock ≤ (boundaryOf reports).get st.freeze.node.id) ↔
      (∀ train ∈ st.freeze.issued, train.clock ≤ (boundaryOf reports).get st.freeze.node.id) ∧
      ∀ k < st.freeze.recycled inputs, satSucc^[k] st.freeze.node.nextIssueClock ≤
        (boundaryOf reports).get st.freeze.node.id := by
    rw [← List.forall_mem_map (f := Train.clock)
      (P := fun clock => clock ≤ (boundaryOf reports).get st.freeze.node.id), clocks,
      List.forall_mem_append, List.forall_mem_map, List.forall_mem_map]
    simp only [List.mem_range]
  have rises : ∀ {k last : Nat}, k ≤ last → satSucc^[k] st.freeze.node.nextIssueClock ≤
      satSucc^[last] st.freeze.node.nextIssueClock := by
    intro k last le
    obtain ⟨more, rfl⟩ := Nat.exists_eq_add_of_le' le
    rw [Function.iterate_add_apply]
    exact Issuing.le_iterate_satSucc more _
  rw [coversIssued_iff, id]
  refine all.trans ⟨fun ⟨old, new⟩ => ?_, ?_⟩
  · by_cases quiet : st.freeze.recycled inputs = 0 ∧
        ∀ train ∈ st.freeze.issued, train.clock ≠ st.freeze.node.nextIssueClock
    · exact Or.inl quiet
    · right
      have last : st.freeze.lastIssued (st.freeze.recycled inputs) ≤
          (boundaryOf reports).get st.freeze.node.id := by
        unfold Issuing.lastIssued
        rcases Nat.eq_zero_or_pos (st.freeze.recycled inputs) with none | some
        · obtain ⟨train, issued, same⟩ : ∃ train ∈ st.freeze.issued,
              train.clock = st.freeze.node.nextIssueClock := by
            by_contra absent
            exact quiet ⟨none, fun train issued same => absent ⟨train, issued, same⟩⟩
          rw [none]
          exact same ▸ old train issued
        · exact new _ (by omega)
      have positive : 1 ≤ st.freeze.lastIssued (st.freeze.recycled inputs) :=
        stamped.positive.trans (Issuing.le_iterate_satSucc _ _)
      by_contra unknown
      have short := (boundaryOf_le_iff reports inside
        (st.freeze.lastIssued (st.freeze.recycled inputs) - 1)).mpr fun report listed => by
          have below : ¬ st.freeze.lastIssued (st.freeze.recycled inputs) ≤
              max (report.seen.get st.freeze.node.id) (report.issued.get st.freeze.node.id) :=
            fun high => unknown ⟨report, listed, high⟩
          rw [le_max_iff] at below
          omega
      omega
  · rintro (⟨none, unsaturated⟩ | ⟨report, listed, high⟩)
    · refine ⟨fun train issued => ?_, fun k below => absurd below (by omega)⟩
      have below := stamped.below train issued
      have other := unsaturated train issued
      omega
    · have bound : max (report.seen.get st.freeze.node.id)
          (report.issued.get st.freeze.node.id) ≤ (boundaryOf reports).get st.freeze.node.id :=
        max_le (seen_le_boundaryOf listed inside) (issued_le_boundaryOf listed inside)
      have top := high.trans bound
      refine ⟨fun train issued => ?_, fun k below => (rises (by omega)).trans top⟩
      exact (stamped.below train issued).trans ((Issuing.le_iterate_satSucc _ _).trans top)

/-- Node 0 of a ring of two has delivered its first train on its return; the train goes around once
more while node 0 is frozen. -/
def closedTrain : Issuing .pair :=
  (nodeLife .pair).run ⟨TrainsNode.new .pair 0 (by decide) .totalOrder, []⟩
    [.issueInitialTrain, .step (.trainReceived ⟨0, 1, [], 3#32⟩)]

/-- The recycled train has clock 2, and the plan made of the reports has boundary 1. -/
theorem unreported_issue : ¬ ∀ (cfg : RingConfig) (st : Issuing cfg), (nodeLife cfg).Reachable st →
    ∀ (inputs : List Input) (reports : List (RecoveryReport cfg)),
      st.freeze.node.recoveryReport ∈ reports →
      CoversIssued (st.freeze.steps inputs) (computeRecoveryPlan reports) := by
  intro covers
  have reachable : (nodeLife .pair).Reachable closedTrain :=
    Machine.reachable_run ⟨0, by decide, .totalOrder, rfl⟩ ⟨trivial, trivial, trivial⟩
  have covered := (coversIssued_iff _ _).mp (covers .pair closedTrain reachable
    [.trainReceived ⟨0, 1, [], 3#32⟩] [closedTrain.freeze.node.recoveryReport]
    (List.mem_singleton_self _))
  exact absurd covered (by decide +kernel)

/-- The same node takes a payload and a train of node 1 instead: nothing is recycled. -/
theorem plan_covers_issued_pair :
    CoversIssued (closedTrain.freeze.steps [.localBroadcast [7], .trainReceived ⟨1, 1, [], 2#32⟩])
      (computeRecoveryPlan [closedTrain.freeze.node.recoveryReport]) := by
  have reachable : (nodeLife .pair).Reachable closedTrain :=
    Machine.reachable_run ⟨0, by decide, .totalOrder, rfl⟩ ⟨trivial, trivial, trivial⟩
  refine (plan_covers_issued reachable _ (List.mem_singleton_self _)).mpr (Or.inl ?_)
  exact ⟨by decide +kernel, by decide +kernel⟩

end TrainsRing
