/-
**Nodes and the trains between them.**

A `World` is one state machine per ring position together with what it has produced: the delivery
logs, every train ever emitted and the payloads the application layer got accepted. The three
operations are the ones every network of the development uses: `broadcast`, `issueInitial` and
`receive`. Which trains may be received where is the business of the network (`Async`, `Ring`).

* `Evolves` — what a step leaves alone or lets grow.
* `Traffic` — **what one `handle_train` does with the pending payloads**: it relays the train, loads
  them on it, or issues a new train with them.
-/

import TrainsRing.Core.Steps

namespace TrainsRing

variable {cfg : RingConfig}

namespace TrainsNode

/-- The payload a broadcast call gets accepted, if any: `handle_broadcast` refuses one whose
identifier it has seen. -/
def acceptedBy (node : TrainsNode cfg) (data : List UInt8) : List Payload :=
  if (node.id, node.nextSeq) ∈ node.broadcastSeen then [] else [⟨node.id, node.nextSeq, data⟩]

end TrainsNode

/-- The nodes, their delivery logs, the trains emitted and the payloads accepted so far. -/
structure World (cfg : RingConfig) where
  node : Fin cfg.ringSize → TrainsNode cfg
  log : Fin cfg.ringSize → List Payload
  emitted : List Train
  accepted : Fin cfg.ringSize → List Payload

namespace World

/-- Every node as constructed. -/
def initial (cfg : RingConfig) (mode : DeliveryMode) : World cfg where
  node := fun p => TrainsNode.new cfg p.val p.isLt mode
  log := fun _ => []
  emitted := []
  accepted := fun _ => []

/-- Node `p` has made a step: its new state, and its outputs appended to its log and to the trains
emitted. -/
def act (w : World cfg) (p : Fin cfg.ringSize) (result : TrainsNode cfg × List Output) :
    World cfg where
  node := Function.update w.node p result.1
  log := Function.update w.log p (w.log p ++ deliveries result.2)
  emitted := w.emitted ++ forwards result.2
  accepted := w.accepted

/-- Node `p` takes `Input::LocalBroadcast`. -/
def broadcast (w : World cfg) (p : Fin cfg.ringSize) (data : List UInt8) : World cfg :=
  { w.act p ((w.node p).step (.localBroadcast data)) with
    accepted := Function.update w.accepted p (w.accepted p ++ (w.node p).acceptedBy data) }

/-- Node `p` calls `issue_initial_train` and the train is sent. -/
def issueInitial (w : World cfg) (p : Fin cfg.ringSize) : World cfg :=
  w.act p ((w.node p).issueInitialTrain.1, [.forwardTrain (w.node p).issueInitialTrain.2])

/-- Node `p` takes `Input::TrainReceived`. -/
def receive (w : World cfg) (p : Fin cfg.ringSize) (train : Train) : World cfg :=
  w.act p ((w.node p).step (.trainReceived train))

/-- Every node has the identifier of its position. -/
def Named (w : World cfg) : Prop := ∀ p, (w.node p).id = p.val

variable (w : World cfg) (p : Fin cfg.ringSize)

@[simp] theorem act_node_self (result : TrainsNode cfg × List Output) :
    (w.act p result).node p = result.1 := Function.update_self ..

theorem act_node_of_ne (result : TrainsNode cfg × List Output) {q : Fin cfg.ringSize}
    (other : q ≠ p) : (w.act p result).node q = w.node q := Function.update_of_ne other ..

@[simp] theorem act_log_self (result : TrainsNode cfg × List Output) :
    (w.act p result).log p = w.log p ++ deliveries result.2 := Function.update_self ..

theorem act_log_of_ne (result : TrainsNode cfg × List Output) {q : Fin cfg.ringSize}
    (other : q ≠ p) : (w.act p result).log q = w.log q := Function.update_of_ne other ..

end World

namespace TrainsNode

/-! ### What a step does with the pending payloads -/

/-- What every input leaves alone or lets grow. -/
structure Evolves (node after : TrainsNode cfg) : Prop where
  id : after.id = node.id
  nextSeq : after.nextSeq = node.nextSeq
  noted : ∀ id ∈ node.broadcastSeen, id ∈ after.broadcastSeen
  seen : ∀ q, node.seenClock q ≤ after.seenClock q
  settled : ∀ key, node.Settled key → after.Settled key

theorem Evolves.trans {node middle after : TrainsNode cfg} (first : Evolves node middle)
    (second : Evolves middle after) : Evolves node after :=
  ⟨second.id.trans first.id, second.nextSeq.trans first.nextSeq,
    fun id member => second.noted id (first.noted id member),
    fun q => (first.seen q).trans (second.seen q),
    fun key settled => second.settled key (first.settled key settled)⟩

theorem Evolves.refl (node : TrainsNode cfg) : Evolves node node :=
  ⟨rfl, rfl, fun _ member => member, fun _ => le_rfl, fun _ settled => settled⟩

theorem Frame.evolves {node after : TrainsNode cfg} (frame : Frame node after)
    (settled : ∀ key, node.Settled key → after.Settled key) : Evolves node after := by
  refine ⟨frame.id, frame.nextSeq, fun id member => frame.broadcastSeen ▸ member, fun q => ?_,
    settled⟩
  rw [seenClock, seenClock, frame.clockState]

theorem noteSeen_evolves (node : TrainsNode cfg) (payloads : List Payload) :
    Evolves node (node.noteSeen payloads) :=
  ⟨rfl, rfl, fun _ member => node.mem_noteSeen payloads member, fun _ => le_rfl,
    fun _ settled => settled⟩

theorem observe_evolves (node : TrainsNode cfg) (issuer clock : Nat) :
    Evolves node (node.observe issuer clock) :=
  ⟨rfl, rfl, fun _ member => member, node.seenClock_le_observe issuer clock,
    fun _ settled => settled⟩

theorem issueNewTrain_evolves (node : TrainsNode cfg) : Evolves node node.issueNewTrain.1 :=
  ⟨rfl, rfl, fun _ member => node.mem_noteSeen node.pending member, fun _ => le_rfl,
    fun _ settled => settled⟩

/-- A broadcast emits nothing and touches only the pending payloads and what guards them. -/
theorem handleBroadcast_keeps (node : TrainsNode cfg) (data : List UInt8) :
    (forwards (node.handleBroadcast data).2 = [] ∧ deliveries (node.handleBroadcast data).2 = []) ∧
      (node.handleBroadcast data).1.clockState = node.clockState ∧
      (node.handleBroadcast data).1.delivery = node.delivery ∧
      (node.handleBroadcast data).1.parked = node.parked ∧
      (node.handleBroadcast data).1.viewFloor = node.viewFloor ∧
      (node.handleBroadcast data).1.frozen = node.frozen := by
  unfold handleBroadcast
  split
  · exact ⟨⟨rfl, rfl⟩, rfl, rfl, rfl, rfl, rfl⟩
  · exact ⟨⟨rfl, rfl⟩, rfl, rfl, rfl, rfl, rfl⟩

/-- A broadcast queues what it accepts. -/
theorem handleBroadcast_pending (node : TrainsNode cfg) (data : List UInt8) :
    (node.handleBroadcast data).1.pending = node.pending ++ node.acceptedBy data ∧
      node.nextSeq ≤ (node.handleBroadcast data).1.nextSeq := by
  unfold handleBroadcast acceptedBy
  split
  · exact ⟨(List.append_nil _).symm, le_rfl⟩
  · exact ⟨rfl, le_satSucc _⟩

/-- **The traffic of one `handle_train`**: the train is absorbed, relayed as it is, loaded with the
pending payloads, or replaced by a new train carrying them. A relayed train that is ready is
settled. -/
inductive Traffic (node : TrainsNode cfg) (train : Train) :
    List Train → TrainsNode cfg → Prop
  | absorbed {after : TrainsNode cfg} (stale : node.Stale train) (same : after = node) :
      Traffic node train [] after
  | relayed {after : TrainsNode cfg} (fresh : ¬ node.Stale train)
      (known : train.issuer ≠ node.id → node.Replay train)
      (undone : train.issuer = node.id → train.key ∉ node.delivery.doneKeys)
      (queue : after.pending = node.pending) (clock : after.nextIssueClock = node.nextIssueClock)
      (seen : train.clock ≤ after.seenClock train.issuer)
      (settles : node.frozen = false →
        node.delivery.readyToDeliver train.ackBits node.delivery.mode = true →
        after.Settled train.key) : Traffic node train [train] after
  | loaded {after : TrainsNode cfg} (fresh : ¬ node.Stale train) (foreign : train.issuer ≠ node.id)
      (new : ¬ node.Replay train) (queue : after.pending = [])
      (clock : after.nextIssueClock = node.nextIssueClock)
      (seen : train.clock ≤ after.seenClock train.issuer) :
      Traffic node train [node.loadTrain train] after
  | issued {after : TrainsNode cfg} (fresh : ¬ node.Stale train) (own : train.issuer = node.id)
      (done : train.key ∈ node.delivery.doneKeys) (queue : after.pending = [])
      (clock : after.nextIssueClock = satSucc node.nextIssueClock) :
      Traffic node train [node.issueNewTrain.2] after

/-- At most one train is forwarded. -/
theorem Traffic.single {node after : TrainsNode cfg} {train : Train} {forwarded : List Train}
    (traffic : Traffic node train forwarded after) : forwarded = [] ∨ ∃ out, forwarded = [out] := by
  cases traffic with
  | absorbed _ _ => exact Or.inl rfl
  | relayed _ _ _ _ _ _ _ => exact Or.inr ⟨_, rfl⟩
  | loaded _ _ _ _ _ _ => exact Or.inr ⟨_, rfl⟩
  | issued _ _ _ _ _ => exact Or.inr ⟨_, rfl⟩

/-- Handling a train stores no clock but its own. -/
def Stores (node after : TrainsNode cfg) (train : Train) : Prop :=
  ∀ q, after.seenClock q = node.seenClock q ∨
    q = train.issuer ∧ after.seenClock q = train.clock

theorem stores_observe (node : TrainsNode cfg) (train : Train)
    (inside : train.issuer < cfg.ringSize) :
    Stores node (node.observe train.issuer train.clock) train := by
  intro q
  rw [seenClock_observe node inside]
  split_ifs with same
  · rw [same]
    exact (max_choice _ _).imp_right fun new => ⟨rfl, new⟩
  · exact Or.inl rfl

theorem Frame.stores {node middle after : TrainsNode cfg} {train : Train}
    (frame : Frame middle after) (stores : Stores node middle train) :
    Stores node after train := by
  intro q
  rw [seenClock, frame.clockState]
  exact stores q

theorem stores_refl (node : TrainsNode cfg) (train : Train) : Stores node node train :=
  fun _ => Or.inl rfl

/-- **One `handle_train`** of a train whose issuer is inside the ring. -/
theorem Handled.traffic {node after : TrainsNode cfg} {train : Train} {delivered : List Entry}
    {forwarded : List Train} (handled : Handled node train delivered forwarded after)
    (inside : train.issuer < cfg.ringSize) :
    Traffic node train forwarded after ∧ Evolves node after ∧ Stores node after train := by
  cases handled with
  | absorbed stale => exact ⟨.absorbed stale rfl, Evolves.refl node, stores_refl node train⟩
  | visited fresh foreign new run _ =>
    have frame := run.frame
    have noted := ((node.noteSeen_evolves node.pending).trans
      ((node.noteSeen node.pending).noteSeen_evolves (node.loadTrain train).payloads)).noted
    have visited : Evolves node (node.visit train) :=
      ⟨rfl, rfl, noted, (node.observe_evolves train.issuer train.clock).seen, fun _ settled => settled⟩
    have seen : train.clock ≤ (node.visit train).seenClock train.issuer := by
      show _ ≤ (node.observe train.issuer train.clock).seenClock train.issuer
      rw [seenClock_observe node inside, if_pos rfl]
      exact le_max_right _ _
    have evolves := frame.evolves fun _ settled => run.settled settled
    exact ⟨.loaded fresh foreign new frame.pending frame.nextIssueClock
        (seen.trans (evolves.seen _)), visited.trans evolves,
      frame.stores (stores_observe node train inside)⟩
  | replayed fresh foreign old tried run _ =>
    have frame := tried.frame.trans run.frame
    have evolves := (node.noteSeen_evolves train.payloads).trans
      (frame.evolves fun _ settled => run.settled (tried.settled settled))
    exact ⟨.relayed fresh (fun _ => old) (fun own => absurd own foreign) frame.pending
        frame.nextIssueClock (old.1.trans (evolves.seen _))
        fun unfrozen ready => run.settled (tried.settles unfrozen ready),
      evolves, frame.stores (stores_refl node train)⟩
  | recycled fresh own done =>
    exact ⟨.issued fresh own done rfl rfl, (node.observe_evolves node.id train.clock).trans
        (issueNewTrain_evolves _), own ▸ stores_observe node train inside⟩
  | returned fresh own undone tried run _ =>
    have frame := tried.frame.trans run.frame
    have evolves := frame.evolves fun _ settled => run.settled (tried.settled settled)
    have seen : train.clock ≤ (node.observe node.id train.clock).seenClock train.issuer := by
      rw [own, seenClock_observe node node.id_lt, if_pos rfl]
      exact le_max_right _ _
    exact ⟨.relayed fresh (fun foreign => absurd own foreign) (fun _ => undone) frame.pending
        frame.nextIssueClock (seen.trans (evolves.seen _))
        fun unfrozen ready => run.settled (tried.settles unfrozen ready),
      (node.observe_evolves node.id train.clock).trans evolves,
      frame.stores (own ▸ stores_observe node train inside)⟩

end TrainsNode

namespace World

variable (w : World cfg) (p : Fin cfg.ringSize)

/-- What receiving a train does to the receiver and to the trains emitted. -/
theorem receive_spec {train : Train} (inside : train.issuer < cfg.ringSize) :
    ∃ forwarded, forwards ((w.node p).step (.trainReceived train)).2 = forwarded ∧
      (w.receive p train).emitted = w.emitted ++ forwarded ∧
      (w.node p).Traffic train forwarded ((w.receive p train).node p) ∧
      (w.node p).Evolves ((w.receive p train).node p) ∧
      (w.node p).Stores ((w.receive p train).node p) train := by
  obtain ⟨delivered, forwarded, handled, emits⟩ := (w.node p).handleTrain_spec train
  have same : (w.receive p train).node p = ((w.node p).handleTrain train).1 :=
    w.act_node_self p _
  rw [same]
  exact ⟨forwarded, emits.2, congrArg (w.emitted ++ ·) emits.2, handled.traffic inside⟩

/-- Receiving a train evolves every node. -/
theorem receive_evolves {train : Train} (inside : train.issuer < cfg.ringSize)
    (q : Fin cfg.ringSize) : (w.node q).Evolves ((w.receive p train).node q) := by
  by_cases same : q = p
  · obtain ⟨-, -, -, -, evolves, -⟩ := w.receive_spec p inside
    exact same ▸ evolves
  · rw [show (w.receive p train).node q = w.node q from w.act_node_of_ne p _ same]
    exact TrainsNode.Evolves.refl _

/-- What receiving a train settles: at most its key, at the receiver, and not on a first visit. -/
theorem receive_settled_back {train : Train} {q : Fin cfg.ringSize} {key : ClockKey}
    (settled : ((w.receive p train).node q).Settled key) : (w.node q).Settled key ∨
      q = p ∧ key = train.key ∧ (train.issuer ≠ (w.node p).id → (w.node p).Replay train) := by
  by_cases same : q = p
  · subst same
    obtain ⟨delivered, forwarded, handled, -⟩ := (w.node q).handleTrain_spec train
    rw [show (w.receive q train).node q = ((w.node q).handleTrain train).1 from
      w.act_node_self q _] at settled
    exact (handled.settled_back settled).imp_right fun new => ⟨rfl, new⟩
  · rw [show (w.receive p train).node q = w.node q from w.act_node_of_ne p _ same] at settled
    exact Or.inl settled

/-- Receiving a train stores no clock of another issuer. -/
theorem receive_seen_of_ne {train : Train} (inside : train.issuer < cfg.ringSize)
    (q : Fin cfg.ringSize) {issuer : Nat} (other : issuer ≠ train.issuer) :
    ((w.receive p train).node q).seenClock issuer = (w.node q).seenClock issuer := by
  by_cases same : q = p
  · obtain ⟨-, -, -, -, -, stores⟩ := w.receive_spec p inside
    rw [same]
    exact (stores issuer).resolve_right fun stored => other stored.1
  · rw [show (w.receive p train).node q = w.node q from w.act_node_of_ne p _ same]

theorem receive_node_of_ne {q : Fin cfg.ringSize} (other : q ≠ p) (train : Train) :
    (w.receive p train).node q = w.node q := w.act_node_of_ne p _ other

/-! ### Identifiers -/

theorem Named.act {w : World cfg} (named : w.Named) {p : Fin cfg.ringSize}
    {result : TrainsNode cfg × List Output} (id : result.1.id = (w.node p).id) :
    (w.act p result).Named := by
  intro q
  by_cases same : q = p
  · rw [same, act_node_self, id, named p]
  · rw [w.act_node_of_ne p result same, named q]

theorem Named.receive {w : World cfg} (named : w.Named) (p : Fin cfg.ringSize) {train : Train}
    (inside : train.issuer < cfg.ringSize) : (w.receive p train).Named :=
  fun q => (w.receive_evolves p inside q).id.trans (named q)

theorem Named.broadcast {w : World cfg} (named : w.Named) (p : Fin cfg.ringSize)
    (data : List UInt8) : (w.broadcast p data).Named := by
  have id : ((w.node p).handleBroadcast data).1.id = (w.node p).id := by
    unfold TrainsNode.handleBroadcast
    split <;> rfl
  exact named.act id

end World

end TrainsRing
