/-
**The node state machine** (`trains-core/src/node.rs`).

`TrainsNode.step` is the source's `step`: it takes an input, changes the node and returns the
outputs in order. Every method that mutates the node and pushes outputs is a function from the node
to the new node and the outputs it pushed.

The three places that record a delivery (`tryDeliver`, `drainParked`, `applyRecovery`) share
`deliverNow`: record the key and, for a train with payloads, cache them and push one `Deliver`.
-/

import TrainsRing.Core.Recovery

namespace TrainsRing

variable {cfg : RingConfig}

/-- `DELIVERED_CACHE_CAP`. -/
def deliveredCacheCap : Nat := 1024

/-- The state machine for a single ring participant. The bound on `id` is the assertion of the
constructor. -/
structure TrainsNode (cfg : RingConfig) where
  id : Nat
  id_lt : id < cfg.ringSize
  clockState : ClockState cfg
  delivery : DeliveryState cfg
  nextIssueClock : Nat
  nextSeq : Nat
  pending : List Payload
  parked : OrdMap ClockKey Train
  broadcastSeen : Finset (Nat × Nat)
  deliveredCache : OrdMap ClockKey (List Payload)
  viewFloor : Slots cfg
  frozen : Bool

/-- The order in which the payloads of one train are delivered. -/
def Payload.precedes (first second : Payload) : Prop :=
  first.sender < second.sender ∨ first.sender = second.sender ∧ first.seq ≤ second.seq

instance : DecidableRel Payload.precedes := fun first second => by
  unfold Payload.precedes
  infer_instance

/-- Stable sort by `(sender, seq)`. -/
def sortPayloads (payloads : List Payload) : List Payload :=
  payloads.insertionSort Payload.precedes

namespace TrainsNode

/-- `TrainsNode::new`. -/
def new (cfg : RingConfig) (id : Nat) (id_lt : id < cfg.ringSize) (mode : DeliveryMode) :
    TrainsNode cfg where
  id := id
  id_lt := id_lt
  clockState := ClockState.new cfg
  delivery := DeliveryState.new cfg mode
  nextIssueClock := 1
  nextSeq := 0
  pending := []
  parked := OrdMap.empty
  broadcastSeen := ∅
  deliveredCache := OrdMap.empty
  viewFloor := Slots.zero cfg
  frozen := false

/-- Last clock seen from `issuer`. -/
def seenClock (node : TrainsNode cfg) (issuer : Nat) : Nat := node.clockState.lastSeen issuer

/-- Snapshot of every seen clock. -/
def seenClocks (node : TrainsNode cfg) : Slots cfg := Slots.ofFn cfg node.seenClock

/-- Insert the identifiers of some payloads into `broadcast_seen`. -/
def noteSeen (node : TrainsNode cfg) (payloads : List Payload) : TrainsNode cfg :=
  { node with broadcastSeen :=
      payloads.foldl (fun seen payload => insert payload.msgId seen) node.broadcastSeen }

/-! ### Delivery -/

/-- Has every issuer's clock caught up to `key.clock`? A confirmed-crashed issuer is skipped. -/
def seenClocksAdvancedEnough (node : TrainsNode cfg) (key : ClockKey) : Bool :=
  (List.range cfg.numTrains).all fun q =>
    node.delivery.isCrashed q || decide (key.clock ≤ node.clockState.lastSeen q)

/-- `key` is deliverable iff (1) no parked train has a strictly smaller key, (2) every smaller key
seen so far is done and (3) the seen-clock gate holds. -/
def isDeliverable (node : TrainsNode cfg) (key : ClockKey) : Bool :=
  (node.parked.keys.all fun parked => !decide (parked < key)) &&
  ((List.range cfg.ringSize).all fun q =>
    (List.range' 1 (node.clockState.lastSeen q)).all fun clock =>
      !decide (ClockKey.mk clock q < key) || node.delivery.alreadyDelivered ⟨clock, q⟩) &&
  node.seenClocksAdvancedEnough key

/-- `while cache.len() > DELIVERED_CACHE_CAP { remove the smallest key }`, `fuel` rounds at most. -/
def evict : Nat → OrdMap ClockKey (List Payload) → OrdMap ClockKey (List Payload)
  | 0, cache => cache
  | fuel + 1, cache =>
    if deliveredCacheCap < cache.size then
      match cache.min? with
      | some smallest => evict fuel (cache.erase smallest.1)
      | none => cache
    else cache

/-- Remember a delivered key's payloads for a later view change. The loop of the source removes one
entry per round, so the size of the map bounds its rounds. -/
def cacheDelivered (node : TrainsNode cfg) (key : ClockKey) (payloads : List Payload) :
    TrainsNode cfg :=
  if payloads.isEmpty then node
  else
    let cache := node.deliveredCache.insert key payloads
    { node with deliveredCache := evict cache.size cache }

/-- Record a delivered key; with payloads, also cache them and deliver them sorted. -/
def deliverNow (node : TrainsNode cfg) (key : ClockKey) (payloads : List Payload) :
    TrainsNode cfg × List Output :=
  let recorded := { node with delivery := node.delivery.recordDelivered key }
  if payloads.isEmpty then (recorded, [])
  else (recorded.cacheDelivered key payloads, [.deliver (sortPayloads payloads)])

/-- Common delivery logic for a received train. -/
def tryDeliver (node : TrainsNode cfg) (train : Train) : TrainsNode cfg × List Output :=
  if node.frozen then (node, [])
  else if !node.delivery.readyToDeliver train.ackBits node.delivery.mode then (node, [])
  else if node.delivery.alreadyDelivered train.key then (node, [])
  else if !node.isDeliverable train.key then
    ({ node with parked := node.parked.insertNew train.key train }, [])
  else node.deliverNow train.key train.payloads

/-- The loop of `drain_parked`, `fuel` rounds at most: deliver the smallest parked train while it is
deliverable. -/
def drainLoop : Nat → TrainsNode cfg → TrainsNode cfg × List Output
  | 0, node => (node, [])
  | fuel + 1, node =>
    match node.parked.min? with
    | none => (node, [])
    | some (key, train) =>
      if node.isDeliverable key then
        let delivered :=
          { node with parked := node.parked.erase key }.deliverNow key train.payloads
        let rest := drainLoop fuel delivered.1
        (rest.1, delivered.2 ++ rest.2)
      else (node, [])

/-- Drain the parked trains that have become deliverable. Each round removes one parked train, so
their number bounds the rounds (`drainParked_drained` shows that the loop has then ended). -/
def drainParked (node : TrainsNode cfg) : TrainsNode cfg × List Output :=
  if node.frozen then (node, []) else drainLoop node.parked.size node

/-! ### The step function -/

/-- `handle_broadcast`. -/
def handleBroadcast (node : TrainsNode cfg) (data : List UInt8) : TrainsNode cfg × List Output :=
  if (node.id, node.nextSeq) ∈ node.broadcastSeen then (node, [])
  else
    ({ node with
        broadcastSeen := insert (node.id, node.nextSeq) node.broadcastSeen
        pending := node.pending ++ [⟨node.id, node.nextSeq, data⟩]
        nextSeq := satSucc node.nextSeq }, [])

/-- Build a new train stamped with our next clock and loaded with everything pending. -/
def issueNewTrain (node : TrainsNode cfg) : TrainsNode cfg × Train :=
  ({ node.noteSeen node.pending with
      nextIssueClock := satSucc node.nextIssueClock
      pending := [] },
    Train.addAck
      { issuer := node.id, clock := node.nextIssueClock, payloads := node.pending, ackBits := 0#32 }
      node.id)

/-- The train a lap-1 visit forwards: loaded with everything pending and acked. -/
def loadTrain (node : TrainsNode cfg) (train : Train) : Train :=
  { train with payloads := train.payloads ++ node.pending }.addAck node.id

/-- The output a clock check gives rise to: a gap makes the issuer a suspect. -/
def gapAlarm (issuer : Nat) : ClockCheck → List Output
  | .gap _ _ => [.declareCrash issuer]
  | _ => []

/-- `handle_foreign_train`: a train of another issuer. -/
def handleForeignTrain (node : TrainsNode cfg) (train : Train) : TrainsNode cfg × List Output :=
  let prevSeen := node.clockState.lastSeen train.issuer
  if train.clock ≤ prevSeen ∧ 0 < prevSeen then
    -- replay of a clock already seen: the closed train, or a stale copy
    let tried := (node.noteSeen train.payloads).tryDeliver train
    let drained := tried.1.drainParked
    (drained.1, tried.2 ++ .forwardTrain train :: drained.2)
  else
    -- first sight: collect the ack and the pending payloads
    let check := node.clockState.checkAndUpdate train.issuer train.clock
    let loaded := node.loadTrain train
    let visited :=
      { (node.noteSeen node.pending).noteSeen loaded.payloads with
        clockState := check.1
        pending := [] }
    let drained := visited.drainParked
    (drained.1, gapAlarm train.issuer check.2 ++ .forwardTrain loaded :: drained.2)

/-- `handle_returning_train`: one of our own trains. -/
def handleReturningTrain (node : TrainsNode cfg) (train : Train) : TrainsNode cfg × List Output :=
  let seen :=
    { node with clockState := (node.clockState.checkAndUpdate node.id train.clock).1 }
  if seen.delivery.alreadyDelivered train.key then
    let issued := seen.issueNewTrain
    (issued.1, [.forwardTrain issued.2])
  else
    let tried := seen.tryDeliver train
    let drained := tried.1.drainParked
    (drained.1, tried.2 ++ drained.2 ++ [.forwardTrain train])

/-- `handle_train`: the view-floor fence, then the issuer and the non-issuer branch. -/
def handleTrain (node : TrainsNode cfg) (train : Train) : TrainsNode cfg × List Output :=
  if train.issuer < cfg.ringSize ∧ train.clock ≤ node.viewFloor.get train.issuer then (node, [])
  else if train.issuer = node.id then node.handleReturningTrain train
  else node.handleForeignTrain train

/-- `step`. -/
def step (node : TrainsNode cfg) : Input → TrainsNode cfg × List Output
  | .localBroadcast data => node.handleBroadcast data
  | .trainReceived train => node.handleTrain train
  | .tick => (node, [])

/-- `issue_initial_train`. -/
def issueInitialTrain (node : TrainsNode cfg) : TrainsNode cfg × Train := node.issueNewTrain

/-- `reissue_train`. -/
def reissueTrain (node : TrainsNode cfg) : TrainsNode cfg × Train := node.issueNewTrain

/-! ### Membership -/

/-- `mark_crashed`. -/
def markCrashed (node : TrainsNode cfg) (p : Nat) : TrainsNode cfg :=
  { node with delivery := node.delivery.markCrashed p }

/-- `confirm_crash`. -/
def confirmCrash (node : TrainsNode cfg) (p : Nat) : TrainsNode cfg × List Output :=
  (node.markCrashed p).drainParked

/-- `readmit_node`. -/
def readmitNode (node : TrainsNode cfg) (p : Nat) : TrainsNode cfg :=
  { node with delivery := node.delivery.unmarkCrashed p }

/-- `set_frozen`. -/
def setFrozen (node : TrainsNode cfg) (frozen : Bool) : TrainsNode cfg := { node with frozen }

/-- `export_state`. -/
def exportState (node : TrainsNode cfg) : StateSnapshot cfg where
  seen := node.seenClocks
  doneKeys := node.delivery.doneKeys
  crashedBits := node.delivery.crashedBits
  viewFloor := node.viewFloor
  broadcastSeen := node.broadcastSeen

/-- `import_state`. -/
def importState (node : TrainsNode cfg) (snap : StateSnapshot cfg) : TrainsNode cfg :=
  { node with
    clockState := node.clockState.restore snap.seen
    delivery := node.delivery.restore snap.doneKeys snap.crashedBits
    viewFloor := snap.viewFloor
    broadcastSeen := snap.broadcastSeen
    nextIssueClock := satSucc (max (snap.seen.get node.id) (snap.viewFloor.get node.id))
    frozen := false
    pending := []
    parked := OrdMap.empty
    deliveredCache := OrdMap.empty }

/-! ### View-change recovery -/

/-- The report's `issued`: the highest clock issued, at our own slot. -/
def issuedClocks (node : TrainsNode cfg) : Slots cfg :=
  (Slots.zero cfg).set node.id (node.nextIssueClock - 1)

/-- The report's `have`: the payloads of cached keys, then those of parked trains. -/
def retransmittable (node : TrainsNode cfg) : OrdMap ClockKey (List Payload) :=
  let cached := node.deliveredCache.entries.foldl (fun acc entry =>
    if entry.2.isEmpty then acc else acc.insert entry.1 entry.2) OrdMap.empty
  node.parked.entries.foldl (fun acc entry =>
    if entry.2.payloads.isEmpty then acc else acc.insertNew entry.1 entry.2.payloads) cached

/-- `recovery_report`. -/
def recoveryReport (node : TrainsNode cfg) : RecoveryReport cfg where
  seen := node.seenClocks
  issued := node.issuedClocks
  done := node.delivery.doneKeys
  haves := node.retransmittable

/-- One round of the loop of `apply_recovery` over the plan's actions. -/
def applyAction (state : TrainsNode cfg × List Output) (entry : ClockKey × RecoveryAction) :
    TrainsNode cfg × List Output :=
  let node := state.1
  let cleared :=
    { node with
      clockState := (node.clockState.checkAndUpdate entry.1.issuer entry.1.clock).1
      parked := node.parked.erase entry.1 }
  if cleared.delivery.alreadyDelivered entry.1 then (cleared, state.2)
  else match entry.2 with
    | .deliver payloads =>
      let delivered := (cleared.noteSeen payloads).deliverNow entry.1 payloads
      (delivered.1, state.2 ++ delivered.2)
    | .skip =>
      ({ cleared with delivery := cleared.delivery.recordDelivered entry.1 }, state.2)

/-- The end of `apply_recovery`: raise the floor and the issue clock, lift the freeze. -/
def installView (node : TrainsNode cfg) (plan : RecoveryPlan cfg) : TrainsNode cfg :=
  { node with
    viewFloor := Slots.ofFn cfg fun q => max (node.viewFloor.get q) (plan.boundary.get q)
    nextIssueClock := max node.nextIssueClock (plan.reissueClock node.id)
    frozen := false }

/-- `apply_recovery`. -/
def applyRecovery (node : TrainsNode cfg) (plan : RecoveryPlan cfg) :
    TrainsNode cfg × List Output :=
  let applied := plan.actions.entries.foldl applyAction (node, [])
  let drained := (applied.1.installView plan).drainParked
  (drained.1, applied.2 ++ drained.2)

end TrainsNode

/-! ### What a list of outputs says -/

/-- The payloads delivered by some outputs, in order. -/
def deliveries (outputs : List Output) : List Payload :=
  outputs.flatMap fun
    | .deliver payloads => payloads
    | _ => []

/-- The trains forwarded by some outputs, in order. -/
def forwards (outputs : List Output) : List Train :=
  outputs.filterMap fun
    | .forwardTrain train => some train
    | _ => none

@[simp] theorem deliveries_append (first second : List Output) :
    deliveries (first ++ second) = deliveries first ++ deliveries second :=
  List.flatMap_append

@[simp] theorem forwards_append (first second : List Output) :
    forwards (first ++ second) = forwards first ++ forwards second :=
  List.filterMap_append

end TrainsRing
