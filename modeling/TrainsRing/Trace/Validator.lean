/-
**The trace validator** (`trains-cli/src/bin/trace_validate.rs`, `trains-core/src/trace.rs`).

The validator goes over the records of a trace and keeps the trains seen, the log of each node and its
clocks at its last record. Where it reads `seen_clk` past the end, a panic in the source, the model
reads `0`: a record that passes `type_ok` is long enough. A `HashMap` gives its keys in any order.
`latest`, of which only the nodes are printed, is left out.

* `step` — one record; `validate` — the main loop, which stops at five violations.
* `RecordOk` — what the invariants say of a record, given those before it.
* `step_clean_iff` — **one record**: a violation is found iff the record is not in order.
* `validator_exact` — **the validator finds a violation iff the trace has one**.
-/

import TrainsRing.Core.Types
import TrainsRing.Library.Monitor
import TrainsRing.Library.OrdMap

namespace TrainsRing

namespace Trace

variable {cfg : RingConfig}

/-! ### Records -/

/-- The sender and the sequence number of a payload, on a train. -/
abbrev Key := Nat × Nat

/-- A train without the data of its payloads. -/
structure TrainSummary where
  issuer : Nat
  clock : Nat
  ackBits : AckBits
  payloadKeys : List Key
  deriving DecidableEq

/-- A payload that was delivered. -/
structure PayloadKey where
  sender : Nat
  seq : Nat
  deriving DecidableEq

inductive TraceAction where
  | broadcast (dataLen : Nat)
  | trainArrived (train : TrainSummary)
  | tick
  | initial (train : TrainSummary)
  deriving DecidableEq

inductive TraceOutput where
  | forward (train : TrainSummary)
  | deliver (payloads : List PayloadKey)
  | declareCrash (victim : Nat)
  deriving DecidableEq

/-- What is recorded of a node after its step. -/
structure NodeState where
  id : Nat
  seenClk : List Nat
  issClk : Nat
  pendingCount : Nat
  doneKeysCount : Nat
  deliveredLen : Nat
  deriving DecidableEq

structure TraceRecord where
  seq : Nat
  node : Nat
  action : TraceAction
  outputs : List TraceOutput
  state : NodeState
  deriving DecidableEq

/-- `type_ok`. -/
def typeOk (cfg : RingConfig) (rec : TraceRecord) : Bool :=
  if cfg.ringSize ≤ rec.node then false
  else if cfg.ringSize ≤ rec.state.id then false
  else if rec.state.seenClk.length ≠ cfg.ringSize then false
  else true

/-- `is_mutual_prefix`. -/
def isMutualPrefix (a b : List PayloadKey) : Bool :=
  let preAb := a.length ≤ b.length && (a.zip b).all fun pair => pair.1 = pair.2
  let preBa := b.length ≤ a.length && (b.zip a).all fun pair => pair.1 = pair.2
  preAb || preBa

/-! ### The loop -/

/-- The messages of the validator, with what is printed in them. -/
inductive Violation where
  | typeOk (seq node : Nat) (state : NodeState)
  | clockMonotonicity (seq node q prev now : Nat)
  | noSpuriousDelivery (seq node sender payloadSeq : Nat)
  | deliveredLen (seq node traced computed : Nat)
  | trainIntegrity (seq node sender : Nat)
  | consistentDelivery (seq : Nat) (first second : Nat) (firstLog secondLog : List PayloadKey)
  deriving DecidableEq

/-- The variables of the loop. -/
structure Validator (cfg : RingConfig) where
  broadcast : Finset Key
  deliveredPerNode : OrdMap Nat (List PayloadKey)
  prevSeenPerNode : OrdMap Nat (Slots cfg)
  violations : List Violation
  stepCount : Nat

/-- Before the first record. -/
def Validator.new (cfg : RingConfig) : Validator cfg := ⟨∅, OrdMap.empty, OrdMap.empty, [], 0⟩

/-- The log of a node, empty if there is none yet. -/
def Validator.log (v : Validator cfg) (node : Nat) : List PayloadKey :=
  (v.deliveredPerNode.get? node).getD []

/-- The order in which a `HashMap` gives its keys, which may differ from step to step. -/
structure HashOrder where
  keys : Nat → List Nat → List Nat
  perm : ∀ step ids, (keys step ids).Perm ids

/-- The keys of the train that comes in with an action. -/
def TraceAction.payloadKeys : TraceAction → List Key
  | .broadcast _ => []
  | .initial train => train.payloadKeys
  | .trainArrived train => train.payloadKeys
  | .tick => []

/-- What the outputs of a record change. -/
structure Outputs where
  broadcast : Finset Key
  log : List PayloadKey
  violations : List Violation

/-- One payload of `TraceOutput::Deliver`. -/
def deliverOne (rec : TraceRecord) (s : Outputs) (p : PayloadKey) : Outputs where
  violations :=
    if (p.sender, p.seq) ∈ s.broadcast then s.violations
    else s.violations ++ [.noSpuriousDelivery rec.seq rec.node p.sender p.seq]
  broadcast := insert (p.sender, p.seq) s.broadcast
  log := s.log ++ [p]

/-- One output. -/
def observe (rec : TraceRecord) (s : Outputs) : TraceOutput → Outputs
  | .forward train =>
    { s with broadcast := train.payloadKeys.foldl (fun b key => insert key b) s.broadcast }
  | .deliver payloads => payloads.foldl (deliverOne rec) s
  | .declareCrash _ => s

/-- The check of the clocks. -/
def clockViolations (cfg : RingConfig) (rec : TraceRecord) (prev : Slots cfg) : List Violation :=
  (List.range cfg.ringSize).filterMap fun q =>
    if rec.state.seenClk.getD q 0 < prev.get q then
      some (.clockMonotonicity rec.seq rec.node q (prev.get q) (rec.state.seenClk.getD q 0))
    else none

/-- The check of the senders on a forwarded train. -/
def integrityViolations (cfg : RingConfig) (rec : TraceRecord) : TraceOutput → List Violation
  | .forward train => train.payloadKeys.filterMap fun key =>
    if cfg.ringSize ≤ key.1 then some (.trainIntegrity rec.seq rec.node key.1) else none
  | _ => []

/-- `matches!(o, TraceOutput::Deliver { .. })`. -/
def TraceOutput.delivers : TraceOutput → Bool
  | .deliver _ => true
  | _ => false

/-- The comparison of the logs, pair by pair. -/
def consistencyViolations (rec : TraceRecord) (log : Nat → List PayloadKey) :
    (ids : List Nat) → List Violation
  | [] => []
  | i :: rest => (rest.filterMap fun j =>
      if isMutualPrefix (log i) (log j) then none
      else some (.consistentDelivery rec.seq i j (log i) (log j))) ++
        consistencyViolations rec log rest

/-- The checks of a record before its outputs: its types and its clocks. -/
def stateViolations (v : Validator cfg) (rec : TraceRecord) : List Violation :=
  (if !typeOk cfg rec then [.typeOk rec.seq rec.node rec.state] else []) ++
    match v.prevSeenPerNode.get? rec.node with
    | some prev => clockViolations cfg rec prev
    | none => []

/-- The outputs of a record, after its action. -/
def Validator.outputs (v : Validator cfg) (rec : TraceRecord) : Outputs :=
  let broadcast := rec.action.payloadKeys.foldl (fun b key => insert key b) v.broadcast
  rec.outputs.foldl (observe rec) ⟨broadcast, v.log rec.node, v.violations ++ stateViolations v rec⟩

/-- The checks of a record after its outputs: the length of its log, the senders on its trains and,
where it has delivered, the logs of the nodes `ids`. -/
def logViolations (cfg : RingConfig) (rec : TraceRecord) (logs : OrdMap Nat (List PayloadKey))
    (log : List PayloadKey) (ids : List Nat) : List Violation :=
  (if log.length ≠ rec.state.deliveredLen then
    [.deliveredLen rec.seq rec.node rec.state.deliveredLen log.length]
  else []) ++ rec.outputs.flatMap (integrityViolations cfg rec) ++
    let deliveredThisStep := rec.outputs.any TraceOutput.delivers
    if deliveredThisStep then consistencyViolations rec (fun id => (logs.get? id).getD []) ids else []

/-- One round of the loop. -/
def step (cfg : RingConfig) (order : HashOrder) (v : Validator cfg) (rec : TraceRecord) :
    Validator cfg :=
  let stepCount := v.stepCount + 1
  let snap := Slots.ofFn cfg fun i => rec.state.seenClk.getD i 0
  let s := v.outputs rec
  let deliveredPerNode := v.deliveredPerNode.insert rec.node s.log
  let ids := order.keys stepCount deliveredPerNode.keys
  { broadcast := s.broadcast
    deliveredPerNode
    prevSeenPerNode := v.prevSeenPerNode.insert rec.node snap
    violations := s.violations ++ logViolations cfg rec deliveredPerNode s.log ids
    stepCount }

/-! ### What the trace says -/

def PayloadKey.key (p : PayloadKey) : Key := (p.sender, p.seq)

/-- The keys of the train that goes out with an output. -/
def TraceOutput.payloadKeys : TraceOutput → List Key
  | .forward train => train.payloadKeys
  | _ => []

/-- The payloads that an output delivers. -/
def TraceOutput.delivered : TraceOutput → List PayloadKey
  | .deliver payloads => payloads
  | _ => []

/-- The keys on the trains of a record. -/
def TraceRecord.trainKeys (rec : TraceRecord) : List Key :=
  rec.action.payloadKeys ++ rec.outputs.flatMap TraceOutput.payloadKeys

/-- The records of a node. -/
def ofNode (node : Nat) (records : List TraceRecord) : List TraceRecord :=
  records.filter fun rec => rec.node = node

/-- What a node has delivered in some records, in order. -/
def logOf (node : Nat) (records : List TraceRecord) : List PayloadKey :=
  (ofNode node records).flatMap fun rec => rec.outputs.flatMap TraceOutput.delivered

/-- One of two logs continues the other. -/
def MutualPrefix (a b : List PayloadKey) : Prop := a <+: b ∨ b <+: a

/-- **The invariants at a record**, given the records before it. -/
structure RecordOk (cfg : RingConfig) (seen : List TraceRecord) (rec : TraceRecord) : Prop where
  clock_monotonicity : ∀ prev, (ofNode rec.node seen).getLast? = some prev →
    ∀ q < cfg.ringSize, prev.state.seenClk.getD q 0 ≤ rec.state.seenClk.getD q 0
  no_spurious_delivery : ∀ before output after, rec.outputs = before ++ output :: after →
    ∀ p ∈ output.delivered, (∃ earlier ∈ seen, p.key ∈ earlier.trainKeys) ∨
      p.key ∈ rec.action.payloadKeys ∨ ∃ earlier ∈ before, p.key ∈ earlier.payloadKeys
  delivered_len : rec.state.deliveredLen = (logOf rec.node (seen ++ [rec])).length
  train_integrity : ∀ train, TraceOutput.forward train ∈ rec.outputs →
    ∀ key ∈ train.payloadKeys, key.1 < cfg.ringSize
  consistent_delivery : ∀ p q, MutualPrefix (logOf p (seen ++ [rec])) (logOf q (seen ++ [rec]))

/-! ### The checks -/

theorem isMutualPrefix_iff {a b : List PayloadKey} :
    isMutualPrefix a b = true ↔ MutualPrefix a b := by
  have one : ∀ {a b : List PayloadKey},
      (a.length ≤ b.length && (a.zip b).all fun pair => pair.1 = pair.2) = true ↔ a <+: b := by
    intro a b
    induction a generalizing b with
    | nil => simp
    | cons x a ih =>
      cases b with
      | nil => simp
      | cons y b =>
        rw [List.cons_prefix_cons, ← ih]
        simp only [List.length_cons, List.zip_cons_cons, List.all_cons, Bool.and_eq_true,
          decide_eq_true_eq, Nat.add_le_add_iff_right]
        tauto
  unfold isMutualPrefix MutualPrefix
  dsimp only
  rw [Bool.or_eq_true, one, one]

theorem mem_insertAll {keys : List Key} {broadcast : Finset Key} {key : Key} :
    key ∈ keys.foldl (fun b key => insert key b) broadcast ↔ key ∈ broadcast ∨ key ∈ keys := by
  induction keys generalizing broadcast with
  | nil => simp
  | cons first rest ih =>
    rw [List.foldl_cons, ih, Finset.mem_insert, List.mem_cons]
    tauto

theorem clockViolations_eq_nil {rec : TraceRecord} {prev : Slots cfg} :
    clockViolations cfg rec prev = [] ↔
      ∀ q < cfg.ringSize, prev.get q ≤ rec.state.seenClk.getD q 0 := by
  simp [clockViolations, List.filterMap_eq_nil_iff]

theorem integrityViolations_eq_nil {rec : TraceRecord} {outputs : List TraceOutput} :
    outputs.flatMap (integrityViolations cfg rec) = [] ↔ ∀ train,
      TraceOutput.forward train ∈ outputs → ∀ key ∈ train.payloadKeys, key.1 < cfg.ringSize := by
  rw [List.flatMap_eq_nil_iff]
  constructor
  · intro clean train member key carried
    have none := clean _ member
    simp only [integrityViolations, List.filterMap_eq_nil_iff] at none
    simpa using none key carried
  · intro known output member
    cases output with
    | forward train =>
      simp only [integrityViolations, List.filterMap_eq_nil_iff]
      exact fun key carried => if_neg (not_le.mpr (known train member key carried))
    | deliver payloads => rfl
    | declareCrash victim => rfl

/-- **The pairs of the loop are all pairs.** -/
theorem consistencyViolations_eq_nil {rec : TraceRecord} {log : Nat → List PayloadKey}
    {ids : List Nat} : consistencyViolations rec log ids = [] ↔
      ∀ i ∈ ids, ∀ j ∈ ids, MutualPrefix (log i) (log j) := by
  have pairs : consistencyViolations rec log ids = [] ↔
      ids.Pairwise fun i j => MutualPrefix (log i) (log j) := by
    induction ids with
    | nil => simp [consistencyViolations]
    | cons i rest ih =>
      simp [consistencyViolations, List.filterMap_eq_nil_iff, ih, isMutualPrefix_iff]
  rw [pairs]
  constructor
  · intro pairwise i first j second
    have symmetric : Std.Symm fun i j => MutualPrefix (log i) (log j) := ⟨fun _ _ => Or.symm⟩
    exact pairwise.forall_of_forall (fun i _ => .inl List.prefix_rfl) first second
  · exact fun all => List.pairwise_of_forall_mem_list fun i first j second => all i first j second

/-! ### The outputs of a record -/

/-- The payloads of an output, one by one. -/
def payloadMonitor (rec : TraceRecord) : Monitor PayloadKey Outputs Violation where
  step := deliverOne rec
  findings := Outputs.violations
  grows := fun s p => by
    unfold deliverOne
    dsimp only
    split_ifs
    · exact List.prefix_rfl
    · exact List.prefix_append ..

/-- **A `Deliver` is clean iff each of its payloads is known before it**: those delivered with it do
not help. -/
theorem deliver_clean_iff (rec : TraceRecord) {s : Outputs} (clean : s.violations = [])
    (payloads : List PayloadKey) :
    ((payloads.foldl (deliverOne rec) s).violations = [] ↔
      ∀ p ∈ payloads, p.key ∈ s.broadcast) ∧
    ((payloads.foldl (deliverOne rec) s).violations = [] →
      (payloads.foldl (deliverOne rec) s).broadcast = s.broadcast ∧
        (payloads.foldl (deliverOne rec) s).log = s.log ++ payloads) := by
  have round : ∀ (done : List PayloadKey) (t : Outputs) (p : PayloadKey),
      (t.broadcast = s.broadcast ∧ t.log = s.log ++ done) → t.violations = [] → True →
        ((deliverOne rec t p).violations = [] ↔ p.key ∈ s.broadcast) ∧
          (p.key ∈ s.broadcast → (deliverOne rec t p).broadcast = s.broadcast ∧
            (deliverOne rec t p).log = s.log ++ (done ++ [p])) := by
    rintro done t p ⟨same, log⟩ none -
    have known : (p.sender, p.seq) ∈ t.broadcast ↔ p.key ∈ s.broadcast := by rw [same]; rfl
    refine ⟨?_, fun inside => ⟨?_, ?_⟩⟩
    · simp [deliverOne, known, none]
    · exact (Finset.insert_eq_of_mem (known.mpr inside)).trans same
    · simp [deliverOne, log]
  obtain ⟨same, ends⟩ := (payloadMonitor rec).run_clean_iff (fun _ => True)
    (fun done t => t.broadcast = s.broadcast ∧ t.log = s.log ++ done)
    (fun _ p => p.key ∈ s.broadcast) round (fun p (_ : p ∈ payloads) => trivial)
    ⟨rfl, (List.append_nil _).symm⟩ clean
  refine ⟨same.trans ⟨fun all p member => ?_, fun all front p back split => ?_⟩, ends⟩
  · obtain ⟨front, back, split⟩ := List.append_of_mem member
    exact all front p back split
  · exact all p (split ▸ List.mem_append_right _ List.mem_cons_self)

/-- The outputs of a record, one by one. -/
def outputMonitor (rec : TraceRecord) : Monitor TraceOutput Outputs Violation where
  step := observe rec
  findings := Outputs.violations
  grows := fun s output => by
    cases output with
    | forward train => exact List.prefix_rfl
    | deliver payloads => exact (payloadMonitor rec).run_grows payloads s
    | declareCrash victim => exact List.prefix_rfl

/-- **The outputs are clean iff each payload delivered is known, or on a train that went out before
it**. -/
theorem outputs_clean_iff (rec : TraceRecord) {s : Outputs} (clean : s.violations = [])
    (outputs : List TraceOutput) :
    ((outputs.foldl (observe rec) s).violations = [] ↔
      ∀ before output after, outputs = before ++ output :: after → ∀ p ∈ output.delivered,
        p.key ∈ s.broadcast ∨ ∃ earlier ∈ before, p.key ∈ earlier.payloadKeys) ∧
    ((outputs.foldl (observe rec) s).violations = [] →
      (∀ key, key ∈ (outputs.foldl (observe rec) s).broadcast ↔
        key ∈ s.broadcast ∨ ∃ output ∈ outputs, key ∈ output.payloadKeys) ∧
      (outputs.foldl (observe rec) s).log =
        s.log ++ outputs.flatMap TraceOutput.delivered) := by
  let Known (done : List TraceOutput) (key : Key) : Prop :=
    key ∈ s.broadcast ∨ ∃ output ∈ done, key ∈ output.payloadKeys
  have known_append : ∀ {done : List TraceOutput} {output : TraceOutput} {key : Key},
      Known (done ++ [output]) key ↔ Known done key ∨ key ∈ output.payloadKeys := by
    simp [Known, or_assoc]
  have round : ∀ (done : List TraceOutput) (t : Outputs) (output : TraceOutput),
      ((∀ key, key ∈ t.broadcast ↔ Known done key) ∧
        t.log = s.log ++ done.flatMap TraceOutput.delivered) → t.violations = [] → True →
      ((observe rec t output).violations = [] ↔ ∀ p ∈ output.delivered, Known done p.key) ∧
        ((∀ p ∈ output.delivered, Known done p.key) →
          (∀ key, key ∈ (observe rec t output).broadcast ↔ Known (done ++ [output]) key) ∧
            (observe rec t output).log =
              s.log ++ (done ++ [output]).flatMap TraceOutput.delivered) := by
    rintro done t output ⟨known, log⟩ none -
    cases output with
    | forward train =>
      refine ⟨iff_of_true none fun p member => absurd member List.not_mem_nil,
        fun _ => ⟨fun key => ?_, ?_⟩⟩
      · show key ∈ train.payloadKeys.foldl _ _ ↔ _
        rw [mem_insertAll, known, known_append]
        rfl
      · simp [observe, log, TraceOutput.delivered]
    | deliver payloads =>
      obtain ⟨same, ends⟩ := deliver_clean_iff rec none payloads
      simp only [known] at same
      refine ⟨same, fun all => ?_⟩
      obtain ⟨broadcast, log'⟩ := ends (same.mpr all)
      refine ⟨fun key => ?_, ?_⟩
      · show key ∈ (payloads.foldl (deliverOne rec) t).broadcast ↔ _
        rw [broadcast, known, known_append]
        simp [TraceOutput.payloadKeys]
      · show (payloads.foldl (deliverOne rec) t).log = _
        rw [log', log]
        simp [TraceOutput.delivered]
    | declareCrash victim =>
      refine ⟨iff_of_true none fun p member => absurd member List.not_mem_nil,
        fun _ => ⟨fun key => ?_, ?_⟩⟩
      · show key ∈ t.broadcast ↔ _
        rw [known, known_append]
        simp [TraceOutput.payloadKeys]
      · simp [observe, log, TraceOutput.delivered]
  exact (outputMonitor rec).run_clean_iff (fun _ => True)
    (fun done t => (∀ key, key ∈ t.broadcast ↔ Known done key) ∧
      t.log = s.log ++ done.flatMap TraceOutput.delivered)
    (fun done output => ∀ p ∈ output.delivered, Known done p.key) round
    (fun output (_ : output ∈ outputs) => trivial)
    ⟨fun key => by simp [Known], (List.append_nil _).symm⟩ clean

/-! ### One record -/

/-- The validator, record by record. -/
def traceMonitor (cfg : RingConfig) (order : HashOrder) :
    Monitor TraceRecord (Validator cfg) Violation where
  step := step cfg order
  findings := Validator.violations
  grows := fun v rec => by
    have outputs : v.violations ++ stateViolations v rec <+: (v.outputs rec).violations :=
      (outputMonitor rec).run_grows rec.outputs ⟨_, _, _⟩
    exact (List.prefix_append ..).trans (outputs.trans (List.prefix_append ..))

/-- What the validator knows after some records without a violation. -/
structure Fits (seen : List TraceRecord) (v : Validator cfg) : Prop where
  broadcast : ∀ key, key ∈ v.broadcast ↔ ∃ earlier ∈ seen, key ∈ earlier.trainKeys
  log : ∀ node, v.log node = logOf node seen
  prevSeen : ∀ node, v.prevSeenPerNode.get? node = (ofNode node seen).getLast?.map
    fun rec => Slots.ofFn cfg fun i => rec.state.seenClk.getD i 0
  consistent : ∀ p q, MutualPrefix (logOf p seen) (logOf q seen)

theorem ofNode_snoc (node : Nat) (seen : List TraceRecord) (rec : TraceRecord) :
    ofNode node (seen ++ [rec]) = ofNode node seen ++ if rec.node = node then [rec] else [] := by
  simp [ofNode, List.filter_cons]

theorem logOf_snoc (node : Nat) (seen : List TraceRecord) (rec : TraceRecord) :
    logOf node (seen ++ [rec]) = logOf node seen ++
      if rec.node = node then rec.outputs.flatMap TraceOutput.delivered else [] := by
  unfold logOf
  rw [ofNode_snoc, List.flatMap_append]
  split_ifs <;> simp

/-- The checks before the outputs. -/
theorem stateViolations_eq_nil {seen : List TraceRecord} {v : Validator cfg} {rec : TraceRecord}
    (fits : Fits seen v) (typed : typeOk cfg rec = true) :
    stateViolations v rec = [] ↔ ∀ prev, (ofNode rec.node seen).getLast? = some prev →
      ∀ q < cfg.ringSize, prev.state.seenClk.getD q 0 ≤ rec.state.seenClk.getD q 0 := by
  unfold stateViolations
  rw [typed, fits.prevSeen]
  cases last : (ofNode rec.node seen).getLast? with
  | none => simp
  | some prev =>
    have snap : ∀ q < cfg.ringSize,
        (Slots.ofFn cfg fun i => prev.state.seenClk.getD i 0).get q = prev.state.seenClk.getD q 0 :=
      fun q inside => Slots.get_ofFn _ inside
    simp only [Bool.not_true, Bool.false_eq_true, if_false, List.nil_append, Option.map_some,
      clockViolations_eq_nil, Option.some.injEq, forall_eq']
    exact forall₂_congr fun q inside => by rw [snap q inside]

/-- The outputs, where the checks before them are clean. -/
theorem outputs_clean {seen : List TraceRecord} {v : Validator cfg} {rec : TraceRecord}
    (fits : Fits seen v) (clean : v.violations = []) (before : stateViolations v rec = []) :
    ((v.outputs rec).violations = [] ↔
      ∀ before output after, rec.outputs = before ++ output :: after →
        ∀ p ∈ output.delivered, (∃ earlier ∈ seen, p.key ∈ earlier.trainKeys) ∨
          p.key ∈ rec.action.payloadKeys ∨ ∃ earlier ∈ before, p.key ∈ earlier.payloadKeys) ∧
    ((v.outputs rec).violations = [] →
      (∀ key, key ∈ (v.outputs rec).broadcast ↔
        ∃ earlier ∈ seen ++ [rec], key ∈ earlier.trainKeys) ∧
      (v.outputs rec).log = logOf rec.node (seen ++ [rec])) := by
  obtain ⟨same, ends⟩ := outputs_clean_iff rec (s := ⟨rec.action.payloadKeys.foldl
    (fun b key => insert key b) v.broadcast, v.log rec.node, v.violations ++ stateViolations v rec⟩)
    (by rw [clean, before]; rfl) rec.outputs
  simp only [mem_insertAll, fits.broadcast, or_assoc] at same ends
  refine ⟨same, fun none => ?_⟩
  obtain ⟨broadcast, log⟩ := ends none
  refine ⟨fun key => (broadcast key).trans ?_, log.trans ?_⟩
  · simp [TraceRecord.trainKeys, or_and_right, exists_or]
  · rw [fits.log, logOf_snoc, if_pos rfl]

/-- The checks after the outputs. -/
theorem logViolations_eq_nil {seen : List TraceRecord} {rec : TraceRecord}
    {logs : OrdMap Nat (List PayloadKey)} {log : List PayloadKey} {ids : List Nat}
    (whole : log = logOf rec.node (seen ++ [rec]))
    (known : ∀ node, (logs.get? node).getD [] = logOf node (seen ++ [rec]))
    (listed : ∀ node, node ∈ ids ↔ node ∈ logs.keys)
    (consistent : ∀ p q, MutualPrefix (logOf p seen) (logOf q seen)) :
    logViolations cfg rec logs log ids = [] ↔
      rec.state.deliveredLen = (logOf rec.node (seen ++ [rec])).length ∧
      (∀ train, TraceOutput.forward train ∈ rec.outputs →
        ∀ key ∈ train.payloadKeys, key.1 < cfg.ringSize) ∧
      ∀ p q, MutualPrefix (logOf p (seen ++ [rec])) (logOf q (seen ++ [rec])) := by
  unfold logViolations
  rw [whole, List.append_eq_nil_iff, List.append_eq_nil_iff, integrityViolations_eq_nil, and_assoc]
  refine and_congr ?_ (and_congr_right fun _ => ?_)
  · by_cases same : (logOf rec.node (seen ++ [rec])).length = rec.state.deliveredLen
    · simp [same]
    · simp [same, Ne.symm same]
  · dsimp only
    split_ifs with delivers
    · rw [consistencyViolations_eq_nil]
      simp only [known]
      have absent : ∀ node, node ∉ ids → logOf node (seen ++ [rec]) = [] := by
        intro node outside
        have none : logs.get? node = none := by
          cases found : logs.get? node with
          | none => rfl
          | some log => exact absurd ((listed node).mpr (logs.mem_keys_iff.mpr ⟨log, found⟩)) outside
        rw [← known, none, Option.getD_none]
      refine ⟨fun all p q => ?_, fun all p _ q _ => all p q⟩
      by_cases both : p ∈ ids ∧ q ∈ ids
      · exact all p both.1 q both.2
      · rcases not_and_or.mp both with outside | outside
        · rw [absent p outside]
          exact .inl List.nil_prefix
        · rw [absent q outside]
          exact .inr List.nil_prefix
    · -- nothing was delivered: the logs are as before
      have nothing : rec.outputs.flatMap TraceOutput.delivered = [] := by
        rw [List.flatMap_eq_nil_iff]
        intro output member
        cases output with
        | deliver payloads => exact absurd (List.any_eq_true.mpr ⟨_, member, rfl⟩) delivers
        | forward train => rfl
        | declareCrash victim => rfl
      have same : ∀ node, logOf node (seen ++ [rec]) = logOf node seen := by
        intro node
        rw [logOf_snoc, nothing, ite_self, List.append_nil]
      refine iff_of_true rfl fun p q => ?_
      rw [same, same]
      exact consistent p q

/-- **One record**: a violation is found iff an invariant fails there. -/
theorem step_clean_iff {order : HashOrder} {seen : List TraceRecord} {v : Validator cfg}
    {rec : TraceRecord} (fits : Fits seen v) (clean : v.violations = [])
    (typed : typeOk cfg rec = true) :
    ((step cfg order v rec).violations = [] ↔ RecordOk cfg seen rec) ∧
      (RecordOk cfg seen rec → Fits (seen ++ [rec]) (step cfg order v rec)) := by
  have violations : (step cfg order v rec).violations = (v.outputs rec).violations ++ _ := rfl
  have grown : v.violations ++ stateViolations v rec <+: (v.outputs rec).violations :=
    (outputMonitor rec).run_grows rec.outputs ⟨_, _, _⟩
  rw [violations, List.append_eq_nil_iff]
  by_cases before : stateViolations v rec = []
  swap
  · -- a check before the outputs fails
    have dirty : (v.outputs rec).violations ≠ [] := fun none => by
      rw [none, List.prefix_nil, List.append_eq_nil_iff] at grown
      exact before grown.2
    have broken : ¬ RecordOk cfg seen rec := fun ok =>
      before ((stateViolations_eq_nil fits typed).mpr ok.clock_monotonicity)
    exact ⟨iff_of_false (fun both => dirty both.1) broken, fun ok => absurd ok broken⟩
  obtain ⟨same, ends⟩ := outputs_clean fits clean before
  by_cases none : (v.outputs rec).violations = []
  swap
  · -- an output delivers what is not known
    have broken : ¬ RecordOk cfg seen rec := fun ok => none (same.mpr ok.no_spurious_delivery)
    exact ⟨iff_of_false (fun both => none both.1) broken, fun ok => absurd ok broken⟩
  obtain ⟨broadcast, log⟩ := ends none
  have known : ∀ node, ((v.deliveredPerNode.insert rec.node (v.outputs rec).log).get? node).getD [] =
      logOf node (seen ++ [rec]) := by
    intro node
    rw [OrdMap.get?_insert]
    split_ifs with self
    · rw [Option.getD_some, log, self]
    · rw [logOf_snoc, if_neg (Ne.symm self), List.append_nil]
      exact fits.log node
  have listed := fun node => (order.perm (v.stepCount + 1)
    (v.deliveredPerNode.insert rec.node (v.outputs rec).log).keys).mem_iff (a := node)
  rw [logViolations_eq_nil log known listed fits.consistent]
  refine ⟨⟨?_, fun ok => ?_⟩, fun ok => ?_⟩
  · rintro ⟨-, len, integrity, consistent⟩
    exact ⟨(stateViolations_eq_nil fits typed).mp before, same.mp none, len, integrity, consistent⟩
  · exact ⟨none, ok.delivered_len, ok.train_integrity, ok.consistent_delivery⟩
  · refine ⟨broadcast, known, fun node => ?_, ok.consistent_delivery⟩
    show (v.prevSeenPerNode.insert rec.node _).get? node = _
    rw [OrdMap.get?_insert, ofNode_snoc]
    split_ifs with self other other
    · simp
    · exact absurd self.symm other
    · exact absurd other.symm self
    · rw [List.append_nil]
      exact fits.prevSeen node

/-- `main`: the loop, which stops at five violations. -/
def validate (cfg : RingConfig) (order : HashOrder) (records : List TraceRecord) : Validator cfg :=
  (traceMonitor cfg order).scan 5 records (.new cfg)

/-- **The validator is exact.** A trace whose records pass `type_ok` ends without a violation iff the
invariants hold at each of its records. -/
theorem validator_exact (order : HashOrder) {records : List TraceRecord}
    (typed : ∀ rec ∈ records, typeOk cfg rec = true) :
    (validate cfg order records).violations = [] ↔
      ∀ front rec back, records = front ++ rec :: back → RecordOk cfg front rec := by
  have fits : Fits [] (Validator.new cfg) :=
    ⟨fun key => by simp [Validator.new], fun node => rfl, fun node => rfl,
      fun p q => .inl List.prefix_rfl⟩
  refine ((traceMonitor cfg order).scan_clean_iff (by decide) records (.new cfg)).trans ?_
  exact ((traceMonitor cfg order).run_clean_iff (fun rec => typeOk cfg rec = true) Fits (RecordOk cfg)
    (fun seen v rec => step_clean_iff) typed fits rfl).1

/-- A train of process 0 with its first payload. -/
def loadedTrain : TrainSummary := ⟨0, 1, 1#32, [(0, 0)]⟩

/-- Process 0 sends the train, process 1 delivers its payload. -/
def soundTrace : List TraceRecord :=
  [⟨0, 0, .broadcast 5, [], ⟨0, [0, 0], 1, 1, 0, 0⟩⟩,
    ⟨1, 0, .tick, [.forward loadedTrain], ⟨0, [1, 0], 2, 0, 0, 0⟩⟩,
    ⟨2, 1, .trainArrived loadedTrain, [.deliver [⟨0, 0⟩]], ⟨1, [1, 0], 1, 0, 1, 1⟩⟩]

/-- A map that gives its keys in order. -/
def HashOrder.sorted : HashOrder := ⟨fun _ ids => ids, fun _ _ => .refl _⟩

theorem validator_exact_pair :
    RecordOk .pair (soundTrace.take 2)
      ⟨2, 1, .trainArrived loadedTrain, [.deliver [⟨0, 0⟩]], ⟨1, [1, 0], 1, 0, 1, 1⟩⟩ := by
  have clean : (validate .pair .sorted soundTrace).violations = [] := by decide
  exact (validator_exact .sorted (by decide)).mp clean _ _ [] rfl

end Trace

end TrainsRing
