/-
**The reference node** (`verification/reference/src/lib.rs`).

The second implementation of a ring participant, written after the protocol's specification: parked
trains stand in a list, the seen clocks in an array, and there is neither a view floor nor a freeze
nor a payload cache. `ReferenceNode.step` is its `step`.

`try_deliver` and `drain_parked` record a delivery with the same lines, which are `deliverNow` here.
-/

import TrainsRing.Core.Node

namespace TrainsRing

variable {cfg : RingConfig}

/-- Reference state for one ring participant. The bound on `id` is the assertion of the
constructor. -/
structure ReferenceNode (cfg : RingConfig) where
  id : Nat
  id_lt : id < cfg.ringSize
  /-- Last clock seen from each issuer. -/
  seenClk : Slots cfg
  /-- Next clock to stamp on a self-issued train. -/
  issClk : Nat
  nextSeq : Nat
  pending : List Payload
  doneKeys : Finset ClockKey
  /-- The application's delivery log. -/
  delivered : List Payload
  parked : List Train
  broadcastSeen : Finset (Nat × Nat)
  mode : DeliveryMode

namespace ReferenceNode

/-- `ReferenceNode::new`. -/
def new (cfg : RingConfig) (id : Nat) (id_lt : id < cfg.ringSize) (mode : DeliveryMode) :
    ReferenceNode cfg where
  id := id
  id_lt := id_lt
  seenClk := Slots.zero cfg
  issClk := 1
  nextSeq := 0
  pending := []
  doneKeys := ∅
  delivered := []
  parked := []
  broadcastSeen := ∅
  mode := mode

/-- Insert the identifiers of some payloads into `broadcast_seen`. -/
def noteSeen (node : ReferenceNode cfg) (payloads : List Payload) : ReferenceNode cfg :=
  { node with broadcastSeen :=
      payloads.foldl (fun seen payload => insert payload.msgId seen) node.broadcastSeen }

/-- `ready_to_deliver`: whatever the mode, a full mask. -/
def readyToDeliver (cfg : RingConfig) (ackBits : AckBits) : DeliveryMode → Bool
  | .uniformTotalOrder => ackBits == (1#32 <<< cfg.ringSize) - 1#32
  | .totalOrder => ackBits == (1#32 <<< cfg.ringSize) - 1#32
  | .causalOrder => ackBits == (1#32 <<< cfg.ringSize) - 1#32

/-- `is_deliverable`: no smaller parked key, every smaller key seen is done, and every issuer's
clock has caught up. -/
def isDeliverable (node : ReferenceNode cfg) (key : ClockKey) : Bool :=
  (node.parked.all fun train => !decide (train.key < key)) &&
  ((List.range cfg.ringSize).all fun q =>
    node.seenClk.get q == 0 ||
    (List.range' 1 (node.seenClk.get q)).all fun clock =>
      !decide (ClockKey.mk clock q < key) || decide (ClockKey.mk clock q ∈ node.doneKeys)) &&
  (List.range cfg.numTrains).all fun q => !decide (node.seenClk.get q < key.clock)

/-- Record a delivered key; with payloads, also log and deliver them sorted. -/
def deliverNow (node : ReferenceNode cfg) (key : ClockKey) (payloads : List Payload) :
    ReferenceNode cfg × List Output :=
  let recorded := { node with doneKeys := insert key node.doneKeys }
  if payloads.isEmpty then (recorded, [])
  else ({ recorded with delivered := recorded.delivered ++ sortPayloads payloads },
    [.deliver (sortPayloads payloads)])

/-- `try_deliver`. -/
def tryDeliver (node : ReferenceNode cfg) (train : Train) : ReferenceNode cfg × List Output :=
  if !readyToDeliver cfg train.ackBits node.mode then (node, [])
  else if train.key ∈ node.doneKeys then (node, [])
  else if !node.isDeliverable train.key then
    if node.parked.any fun held => held.key = train.key then (node, [])
    else ({ node with parked := node.parked ++ [train] }, [])
  else node.deliverNow train.key train.payloads

/-- The loop of `drain_parked`, `fuel` rounds at most. The lookup of the smallest key just found
among the parked trains cannot fail (`expect` in the source). -/
def drainLoop : Nat → ReferenceNode cfg → ReferenceNode cfg × List Output
  | 0, node => (node, [])
  | fuel + 1, node =>
    match (node.parked.map Train.key).min? with
    | none => (node, [])
    | some key =>
      if node.isDeliverable key then
        match node.parked.find? fun train => train.key = key with
        | none => (node, [])
        | some train =>
          let delivered := { node with
            parked := node.parked.eraseP fun train => train.key = key }.deliverNow key train.payloads
          let rest := drainLoop fuel delivered.1
          (rest.1, delivered.2 ++ rest.2)
      else (node, [])

/-- `drain_parked`. Each round removes one parked train. -/
def drainParked (node : ReferenceNode cfg) : ReferenceNode cfg × List Output :=
  drainLoop node.parked.length node

/-- `app_broadcast`. The sequence number is a `u64` and wraps in a release build; a debug build stops
there. -/
def appBroadcast (node : ReferenceNode cfg) (data : List UInt8) :
    ReferenceNode cfg × List Output :=
  if (node.id, node.nextSeq) ∈ node.broadcastSeen then (node, [])
  else
    ({ node with
        broadcastSeen := insert (node.id, node.nextSeq) node.broadcastSeen
        pending := node.pending ++ [⟨node.id, node.nextSeq, data⟩]
        nextSeq := (node.nextSeq + 1) % 2 ^ 64 }, [])

/-- `issue_new_train`: everything pending goes aboard, sorted. -/
def issueNewTrain (node : ReferenceNode cfg) : ReferenceNode cfg × Train :=
  let taken := sortPayloads node.pending
  ({ node.noteSeen taken with
      issClk := satSucc node.issClk
      pending := [] },
    Train.addAck { issuer := node.id, clock := node.issClk, payloads := taken, ackBits := 0#32 }
      node.id)

/-- `issue_initial_train`. -/
def issueInitialTrain (node : ReferenceNode cfg) : ReferenceNode cfg × Train := node.issueNewTrain

/-- `handle_foreign`. -/
def handleForeign (node : ReferenceNode cfg) (train : Train) : ReferenceNode cfg × List Output :=
  let prev := node.seenClk.get train.issuer
  if train.clock ≤ prev ∧ 0 < prev then
    -- lap 2
    let tried := (node.noteSeen train.payloads).tryDeliver train
    let drained := tried.1.drainParked
    (drained.1, tried.2 ++ .forwardTrain train :: drained.2)
  else
    -- lap 1
    let alarm := if satSucc prev < train.clock then [.declareCrash train.issuer] else []
    let taken := sortPayloads node.pending
    let payloads := train.payloads ++ taken
    let visited :=
      { (node.noteSeen taken).noteSeen payloads with
        seenClk := node.seenClk.set train.issuer train.clock
        pending := [] }
    let drained := visited.drainParked
    (drained.1, alarm ++
      .forwardTrain (Train.addAck { train with payloads := payloads } node.id) :: drained.2)

/-- `handle_returning`. -/
def handleReturning (node : ReferenceNode cfg) (train : Train) : ReferenceNode cfg × List Output :=
  let seen :=
    if node.seenClk.get node.id < train.clock then
      { node with seenClk := node.seenClk.set node.id train.clock }
    else node
  if train.key ∈ seen.doneKeys then
    let issued := seen.issueNewTrain
    (issued.1, [.forwardTrain issued.2])
  else
    let tried := seen.tryDeliver train
    let drained := tried.1.drainParked
    (drained.1, tried.2 ++ drained.2 ++ [.forwardTrain train])

/-- `handle_train`. -/
def handleTrain (node : ReferenceNode cfg) (train : Train) : ReferenceNode cfg × List Output :=
  if train.issuer = node.id then node.handleReturning train else node.handleForeign train

/-- `step`. -/
def step (node : ReferenceNode cfg) : Input → ReferenceNode cfg × List Output
  | .localBroadcast data => node.appBroadcast data
  | .trainReceived train => node.handleTrain train
  | .tick => (node, [])

end ReferenceNode

end TrainsRing
