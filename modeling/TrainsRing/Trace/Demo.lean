/-
**The ring that records its trace** (`trains-cli/src/ring.rs`, the conversions of
`trains-core/src/trace.rs`).

`trains ring` runs every node as a task of one process. A task gives the node an input, dispatches the
outputs and sends one record to the task that writes the trace; it lets the other tasks run wherever it
waits. What has been sent to a link may arrive anywhere, once, often or never, and the run may be cut
off at any point.

* `Task` — the points at which a task waits; `Demo` — the nodes, their tasks and what they share.
* `Demo.work` — a task goes on to the next point; `Demo.take` — it takes an input at `select!`.
* `Demo.consistent` — the report at the end.
* `demo` — **the tasks in any interleaving**.
-/

import TrainsRing.Agreement.Async
import TrainsRing.Trace.Validator

namespace TrainsRing

namespace Trace

variable {cfg : RingConfig}

/-! ### Conversions -/

/-- `TrainSummary::from`. -/
def TrainSummary.ofTrain (train : Train) : TrainSummary where
  issuer := train.issuer
  clock := train.clock
  ackBits := train.ackBits
  payloadKeys := train.payloads.map Payload.msgId

/-- `PayloadKey::from`. -/
def PayloadKey.ofPayload (payload : Payload) : PayloadKey := ⟨payload.sender, payload.seq⟩

/-- `TraceOutput::from`. -/
def TraceOutput.ofOutput : Output → TraceOutput
  | .forwardTrain train => .forward (.ofTrain train)
  | .deliver payloads => .deliver (payloads.map PayloadKey.ofPayload)
  | .declareCrash victim => .declareCrash victim

/-- The `NodeState` of `emit_trace`, where `delivered` is the length of the log. -/
def NodeState.ofNode (id : Nat) (core : TrainsNode cfg) (delivered : Nat) : NodeState where
  id := id
  seenClk := (List.range cfg.ringSize).map core.seenClocks.get
  issClk := core.nextIssueClock
  pendingCount := core.pending.length
  doneKeysCount := core.delivery.doneKeys.card
  deliveredLen := delivered

/-- `outs_contain_delivery_or_crash`. -/
def outsContainDeliveryOrCrash (outs : List Output) : Bool :=
  outs.any fun
    | .deliver _ => true
    | .declareCrash _ => true
    | .forwardTrain _ => false

/-! ### Tasks -/

/-- Where the task of a node waits. -/
inductive Task where
  /-- Before `issue_initial_train`. -/
  | starting
  /-- At `select!`. -/
  | waiting
  /-- In `dispatch`, with the outputs that are left, before `emit_trace`. -/
  | dispatching (outs : List Output) (action : TraceAction) (outputs : List TraceOutput)
      (interesting : Bool)
  /-- In `emit_trace`, at the channel of the trace. The initial train is sent after its record. -/
  | emitting (rec : TraceRecord) (next : Option Train)
  /-- At the link, with the initial train. -/
  | sending (train : Train)
  deriving DecidableEq

/-- The tasks and what they share. -/
structure Demo (cfg : RingConfig) where
  core : Fin cfg.ringSize → TrainsNode cfg
  task : Fin cfg.ringSize → Task
  deliveredLogs : Fin cfg.ringSize → List Payload
  /-- The trains given to the links. -/
  sent : List Train
  traceSeq : Nat
  /-- The records given to the writer of the trace. -/
  trace : List TraceRecord

namespace Demo

/-- Every node as constructed; the processes below `--num-trains` start with a train. -/
def initial (cfg : RingConfig) (mode : DeliveryMode) (issuers : Nat) : Demo cfg where
  core := (World.initial cfg mode).node
  task := fun p => if p.val < issuers then .starting else .waiting
  deliveredLogs := fun _ => []
  sent := []
  traceSeq := 0
  trace := []

variable (st : Demo cfg) (p : Fin cfg.ringSize)

def become (task : Task) : Demo cfg := { st with task := Function.update st.task p task }

/-- `emit_trace` up to the channel: the record gets its number, and the state of the node. -/
def emitTrace (action : TraceAction) (outputs : List TraceOutput) (next : Option Train) : Demo cfg :=
  let state := NodeState.ofNode p (st.core p) (st.deliveredLogs p).length
  { st.become p (.emitting ⟨st.traceSeq, p, action, outputs, state⟩ next) with
    traceSeq := (st.traceSeq + 1) % 2 ^ 64 }

/-- One output of `dispatch`. -/
def dispatch : Output → Demo cfg
  | .forwardTrain train => { st with sent := st.sent ++ [train] }
  | .deliver payloads =>
    { st with deliveredLogs :=
        Function.update st.deliveredLogs p (st.deliveredLogs p ++ payloads) }
  | .declareCrash _ => st

/-- The task of `p` goes on to the next point at which it waits. -/
def work : Demo cfg :=
  match st.task p with
  | .starting =>
    let issued := (st.core p).issueInitialTrain
    { st with core := Function.update st.core p issued.1 }.emitTrace p
      (.initial (.ofTrain issued.2)) [] (some issued.2)
  | .waiting => st
  | .dispatching (out :: outs) action outputs interesting =>
    (st.dispatch p out).become p (.dispatching outs action outputs interesting)
  | .dispatching [] action outputs interesting =>
    if interesting then st.emitTrace p action outputs none else st.become p .waiting
  | .emitting rec next =>
    { st.become p (next.elim .waiting .sending) with trace := st.trace ++ [rec] }
  | .sending train => { st.become p .waiting with sent := st.sent ++ [train] }

/-- The task of `p` gives its node an input. -/
def take (input : Input) (action : TraceAction) (interesting : List Output → Bool) : Demo cfg :=
  let stepped := (st.core p).step input
  { st.become p (.dispatching stepped.2 action (stepped.2.map .ofOutput) (interesting stepped.2)) with
    core := Function.update st.core p stepped.1 }

/-- `Input::LocalBroadcast`, from the channel of the broadcasts. -/
def broadcast (data : List UInt8) : Demo cfg :=
  st.take p (.localBroadcast data) (.broadcast data.length) fun _ => true

/-- `Input::TrainReceived`, from the inbox. -/
def arrive (train : Train) : Demo cfg :=
  st.take p (.trainReceived train) (.trainArrived (.ofTrain train)) fun outs =>
    !train.payloads.isEmpty || outsContainDeliveryOrCrash outs

/-- `Input::Tick`. -/
def tick : Demo cfg := st.take p .tick .tick outsContainDeliveryOrCrash

/-- The report of `run` on the logs: `a` is a prefix of `b`, or `b` of `a`. -/
def consistent : Bool :=
  (List.finRange cfg.ringSize).all fun i => (List.finRange cfg.ringSize).all fun j =>
    let a := st.deliveredLogs i
    let b := st.deliveredLogs j
    let pre := a.length ≤ b.length && (a.zip b).all fun pair => pair.1 = pair.2
    let other := b.length ≤ a.length && (b.zip a).all fun pair => pair.1 = pair.2
    pre || other

end Demo

/-! ### The machine -/

/-- A task goes on, or takes an input. -/
inductive DemoAction (cfg : RingConfig) where
  | work (p : Fin cfg.ringSize)
  | broadcast (p : Fin cfg.ringSize) (data : List UInt8)
  | arrive (p : Fin cfg.ringSize) (train : Train)
  | tick (p : Fin cfg.ringSize)

namespace DemoAction

/-- Inputs are taken at `select!`; what arrives was sent. -/
def Legal (st : Demo cfg) : DemoAction cfg → Prop
  | work p => st.task p ≠ .waiting
  | broadcast p _ => st.task p = .waiting
  | arrive p train => st.task p = .waiting ∧ train ∈ st.sent
  | tick p => st.task p = .waiting

instance (st : Demo cfg) (action : DemoAction cfg) : Decidable (action.Legal st) :=
  match action with
  | work p => inferInstanceAs (Decidable (st.task p ≠ .waiting))
  | broadcast p _ => inferInstanceAs (Decidable (st.task p = .waiting))
  | arrive p train => inferInstanceAs (Decidable (st.task p = .waiting ∧ train ∈ st.sent))
  | tick p => inferInstanceAs (Decidable (st.task p = .waiting))

/-- The tasks after a step of one of them. -/
def apply (st : Demo cfg) : DemoAction cfg → Demo cfg
  | work p => st.work p
  | broadcast p data => st.broadcast p data
  | arrive p train => st.arrive p train
  | tick p => st.tick p

end DemoAction

/-- The tasks of `trains ring --num-trains issuers`, interleaved. -/
def demo (cfg : RingConfig) (mode : DeliveryMode) (issuers : Nat) :
    Machine (Demo cfg) (DemoAction cfg) where
  start := fun st => st = Demo.initial cfg mode issuers
  legal := fun st action => action.Legal st
  next := DemoAction.apply

instance (cfg : RingConfig) (mode : DeliveryMode) (issuers : Nat) (st : Demo cfg)
    (action : DemoAction cfg) : Decidable ((demo cfg mode issuers).legal st action) :=
  inferInstanceAs (Decidable (action.Legal st))

end Trace

end TrainsRing
