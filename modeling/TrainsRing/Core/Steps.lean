/-
**What one step of a node can do.**

The step function is cut into the moves that deliver (`Delivers`: a run of `drain_parked`; `Tried`:
one `try_deliver`) and the branch taken (`Handled`). Everything later reasons about these relations
and never unfolds the step function again.

* `drainParked_spec` — draining is a run of `Delivers` that ends `Drained`: the smallest parked key,
  if any, is not deliverable. In particular the bounded loop has reached its exit.
* `tryDeliver_spec` — the three outcomes of `try_deliver`, each with its reason.
* `handleTrain_spec` — **the branches of `handle_train`**: absorbed, first visit, replay, recycle,
  return.
* `Frame` — what delivering leaves alone.
-/

import TrainsRing.Core.Node

namespace TrainsRing

variable {cfg : RingConfig}

/-- A delivered key with the payloads it carried. -/
abbrev Entry := ClockKey × List Payload

/-- The payloads an entry contributes to the log. -/
def Entry.content (entry : Entry) : List Payload := sortPayloads entry.2

theorem sorted_sortPayloads (payloads : List Payload) :
    (sortPayloads payloads).Pairwise Payload.precedes := by
  have total : Std.Total Payload.precedes := ⟨fun a b => by
    unfold Payload.precedes
    omega⟩
  have trans : IsTrans Payload Payload.precedes := ⟨fun a b c => by
    unfold Payload.precedes
    omega⟩
  exact List.pairwise_insertionSort _ payloads

theorem Entry.perm_content (entry : Entry) : entry.content.Perm entry.2 :=
  List.perm_insertionSort Payload.precedes entry.2

namespace TrainsNode

/-! ### Delivering leaves the rest alone -/

/-- The two nodes differ in done keys, parked trains and delivered cache at most. -/
structure Frame (node after : TrainsNode cfg) : Prop where
  id : after.id = node.id
  clockState : after.clockState = node.clockState
  mode : after.delivery.mode = node.delivery.mode
  crashedBits : after.delivery.crashedBits = node.delivery.crashedBits
  nextIssueClock : after.nextIssueClock = node.nextIssueClock
  nextSeq : after.nextSeq = node.nextSeq
  pending : after.pending = node.pending
  broadcastSeen : after.broadcastSeen = node.broadcastSeen
  viewFloor : after.viewFloor = node.viewFloor
  frozen : after.frozen = node.frozen

theorem Frame.refl (node : TrainsNode cfg) : Frame node node :=
  ⟨rfl, rfl, rfl, rfl, rfl, rfl, rfl, rfl, rfl, rfl⟩

theorem Frame.trans {node middle after : TrainsNode cfg} (first : Frame node middle)
    (second : Frame middle after) : Frame node after :=
  ⟨second.id.trans first.id, second.clockState.trans first.clockState,
    second.mode.trans first.mode, second.crashedBits.trans first.crashedBits,
    second.nextIssueClock.trans first.nextIssueClock, second.nextSeq.trans first.nextSeq,
    second.pending.trans first.pending, second.broadcastSeen.trans first.broadcastSeen,
    second.viewFloor.trans first.viewFloor, second.frozen.trans first.frozen⟩

theorem deliverNow_frame (node : TrainsNode cfg) (key : ClockKey) (payloads : List Payload) :
    Frame node (node.deliverNow key payloads).1 := by
  unfold deliverNow cacheDelivered
  split
  · exact ⟨rfl, rfl, rfl, rfl, rfl, rfl, rfl, rfl, rfl, rfl⟩
  · exact ⟨rfl, rfl, rfl, rfl, rfl, rfl, rfl, rfl, rfl, rfl⟩

@[simp] theorem deliverNow_parked (node : TrainsNode cfg) (key : ClockKey)
    (payloads : List Payload) : (node.deliverNow key payloads).1.parked = node.parked := by
  unfold deliverNow cacheDelivered
  split <;> rfl

@[simp] theorem deliverNow_doneKeys (node : TrainsNode cfg) (key : ClockKey)
    (payloads : List Payload) : (node.deliverNow key payloads).1.delivery.doneKeys =
      insert key node.delivery.doneKeys := by
  unfold deliverNow cacheDelivered
  split <;> rfl

@[simp] theorem forwards_deliverNow (node : TrainsNode cfg) (key : ClockKey)
    (payloads : List Payload) : forwards (node.deliverNow key payloads).2 = [] := by
  unfold deliverNow
  split <;> rfl

@[simp] theorem deliveries_deliverNow (node : TrainsNode cfg) (key : ClockKey)
    (payloads : List Payload) :
    deliveries (node.deliverNow key payloads).2 = sortPayloads payloads := by
  unfold deliverNow
  split
  · rename_i empty
    rw [List.isEmpty_iff.mp empty]
    rfl
  · simp [deliveries]

/-! ### Draining -/

/-- The smallest parked key, if any, is not deliverable. -/
def Drained (node : TrainsNode cfg) : Prop :=
  ∀ key train, node.parked.min? = some (key, train) → node.isDeliverable key = false

/-- The node with a key taken out of the parked trains. -/
def unpark (node : TrainsNode cfg) (key : ClockKey) : TrainsNode cfg :=
  { node with parked := node.parked.erase key }

/-- A run of deliveries of parked trains, each deliverable when its turn comes. -/
inductive Delivers : TrainsNode cfg → List Entry → TrainsNode cfg → Prop
  | nil (node : TrainsNode cfg) : Delivers node [] node
  | cons {node after : TrainsNode cfg} {key : ClockKey} {train : Train} {entries : List Entry}
      (parked : node.parked.get? key = some train) (deliverable : node.isDeliverable key = true)
      (rest : Delivers ((node.unpark key).deliverNow key train.payloads).1 entries after) :
      Delivers node ((key, train.payloads) :: entries) after

/-- **The rule for a run of deliveries**: what one delivery of a parked train preserves, together
with the entries delivered so far, the run preserves. -/
theorem Delivers.preserves {P : TrainsNode cfg → List Entry → Prop}
    (step : ∀ node entries key train, P node entries → node.parked.get? key = some train →
      node.isDeliverable key = true →
      P ((node.unpark key).deliverNow key train.payloads).1 (entries ++ [(key, train.payloads)]))
    {node after : TrainsNode cfg} {delivered : List Entry} (run : Delivers node delivered after) :
    ∀ entries, P node entries → P after (entries ++ delivered) := by
  induction run with
  | nil node =>
    intro entries holds
    rw [List.append_nil]
    exact holds
  | cons parked deliverable _ ih =>
    intro entries holds
    rw [List.append_cons]
    exact ih _ (step _ _ _ _ holds parked deliverable)

theorem Delivers.frame {node after : TrainsNode cfg} {delivered : List Entry}
    (run : Delivers node delivered after) : Frame node after := by
  induction run with
  | nil node => exact Frame.refl node
  | cons _ _ _ ih =>
    have unparked : ∀ (node : TrainsNode cfg) key, Frame node (node.unpark key) :=
      fun _ _ => ⟨rfl, rfl, rfl, rfl, rfl, rfl, rfl, rfl, rfl, rfl⟩
    exact (unparked _ _).trans ((deliverNow_frame _ _ _).trans ih)

/-- What some outputs do: deliver the entries in order and forward the trains in order. -/
def Emits (outputs : List Output) (delivered : List Entry) (forwarded : List Train) : Prop :=
  deliveries outputs = delivered.flatMap Entry.content ∧ forwards outputs = forwarded

theorem Emits.append {first second : List Output} {entries entries' : List Entry}
    {trains trains' : List Train} (left : Emits first entries trains)
    (right : Emits second entries' trains') :
    Emits (first ++ second) (entries ++ entries') (trains ++ trains') := by
  refine ⟨?_, ?_⟩
  · rw [deliveries_append, left.1, right.1, List.flatMap_append]
  · rw [forwards_append, left.2, right.2]

theorem emits_nil : Emits [] [] [] := ⟨rfl, rfl⟩

theorem emits_forward (train : Train) : Emits [.forwardTrain train] [] [train] := ⟨rfl, rfl⟩

theorem emits_gapAlarm (issuer : Nat) (check : ClockCheck) :
    Emits (gapAlarm issuer check) [] [] := by
  cases check with
  | ok => exact emits_nil
  | gap expected received => exact ⟨rfl, rfl⟩
  | duplicate => exact emits_nil

theorem emits_deliverNow (node : TrainsNode cfg) (key : ClockKey) (payloads : List Payload) :
    Emits (node.deliverNow key payloads).2 [(key, payloads)] [] := by
  refine ⟨?_, forwards_deliverNow node key payloads⟩
  rw [deliveries_deliverNow]
  simp [Entry.content]

/-- What the loop of `drain_parked` delivers. -/
def drainLoopEntries : Nat → TrainsNode cfg → List Entry
  | 0, _ => []
  | fuel + 1, node =>
    match node.parked.min? with
    | none => []
    | some (key, train) =>
      if node.isDeliverable key then
        (key, train.payloads) ::
          drainLoopEntries fuel ((node.unpark key).deliverNow key train.payloads).1
      else []

/-- What `drain_parked` delivers. -/
def drainEntries (node : TrainsNode cfg) : List Entry :=
  if node.frozen then [] else drainLoopEntries node.parked.size node

theorem drainLoop_spec (fuel : Nat) : ∀ node : TrainsNode cfg,
    Delivers node (drainLoopEntries fuel node) (drainLoop fuel node).1 ∧
      Emits (drainLoop fuel node).2 (drainLoopEntries fuel node) [] ∧
      (node.parked.size ≤ fuel → Drained (drainLoop fuel node).1) := by
  induction fuel with
  | zero =>
    intro node
    refine ⟨.nil node, emits_nil, fun small key train smallest => ?_⟩
    obtain ⟨found, -⟩ := OrdMap.min?_eq_some (m := node.parked) smallest
    have shrinks := OrdMap.size_erase_lt found
    omega
  | succ fuel ih =>
    intro node
    unfold drainLoop drainLoopEntries
    cases smallest : node.parked.min? with
    | none =>
      refine ⟨.nil node, emits_nil, fun _ key train found => ?_⟩
      rw [smallest] at found
      cases found
    | some head =>
      obtain ⟨key, train⟩ := head
      obtain ⟨found, -⟩ := OrdMap.min?_eq_some smallest
      by_cases deliverable : node.isDeliverable key = true
      · obtain ⟨run, emits, drained⟩ := ih ((node.unpark key).deliverNow key train.payloads).1
        refine ⟨?_, ?_, ?_⟩
        · simp only [deliverable, if_true]
          exact .cons found deliverable run
        · simp only [deliverable, if_true]
          exact (emits_deliverNow _ key train.payloads).append emits
        · intro small
          simp only [deliverable, if_true]
          refine drained ?_
          have shrinks := OrdMap.size_erase_lt found
          rw [deliverNow_parked]
          show (node.parked.erase key).size ≤ fuel
          omega
      · have blocked : node.isDeliverable key = false := by simpa using deliverable
        simp only [blocked, Bool.false_eq_true, if_false]
        refine ⟨.nil node, emits_nil, fun _ other train' found' => ?_⟩
        rw [smallest] at found'
        cases found'
        exact blocked

/-- **Draining**: a run of deliveries, after which an unfrozen node is drained. -/
theorem drainParked_entries (node : TrainsNode cfg) :
    Delivers node node.drainEntries node.drainParked.1 ∧
      Emits node.drainParked.2 node.drainEntries [] ∧
      (node.frozen = false → Drained node.drainParked.1) := by
  unfold drainParked drainEntries
  by_cases frozen : node.frozen = true
  · rw [if_pos frozen, if_pos frozen]
    exact ⟨.nil node, emits_nil, fun unfrozen => absurd (frozen.symm.trans unfrozen) (by simp)⟩
  · rw [if_neg frozen, if_neg frozen]
    obtain ⟨run, emits, drained⟩ := drainLoop_spec node.parked.size node
    exact ⟨run, emits, fun _ => drained le_rfl⟩

theorem drainParked_spec (node : TrainsNode cfg) :
    ∃ delivered, Delivers node delivered node.drainParked.1 ∧
      Emits node.drainParked.2 delivered [] ∧
      (node.frozen = false → Drained node.drainParked.1) :=
  ⟨node.drainEntries, node.drainParked_entries⟩

/-! ### One attempt to deliver -/

/-- The outcomes of `try_deliver` on a train. -/
inductive Tried (node : TrainsNode cfg) (train : Train) : List Entry → TrainsNode cfg → Prop
  | skipped (reason : node.frozen = true ∨
      node.delivery.readyToDeliver train.ackBits node.delivery.mode = false ∨
      train.key ∈ node.delivery.doneKeys) : Tried node train [] node
  | parked (ready : node.delivery.readyToDeliver train.ackBits node.delivery.mode = true)
      (fresh : train.key ∉ node.delivery.doneKeys)
      (blocked : node.isDeliverable train.key = false) :
      Tried node train [] { node with parked := node.parked.insertNew train.key train }
  | delivered (ready : node.delivery.readyToDeliver train.ackBits node.delivery.mode = true)
      (fresh : train.key ∉ node.delivery.doneKeys)
      (deliverable : node.isDeliverable train.key = true) :
      Tried node train [(train.key, train.payloads)] (node.deliverNow train.key train.payloads).1

/-- What `try_deliver` delivers. -/
def tryEntries (node : TrainsNode cfg) (train : Train) : List Entry :=
  if node.frozen then []
  else if !node.delivery.readyToDeliver train.ackBits node.delivery.mode then []
  else if node.delivery.alreadyDelivered train.key then []
  else if !node.isDeliverable train.key then []
  else [(train.key, train.payloads)]

/-- **`try_deliver`** has one of the three outcomes. -/
theorem tryDeliver_entries (node : TrainsNode cfg) (train : Train) :
    Tried node train (node.tryEntries train) (node.tryDeliver train).1 ∧
      Emits (node.tryDeliver train).2 (node.tryEntries train) [] := by
  unfold tryDeliver tryEntries
  by_cases frozen : node.frozen = true
  · rw [if_pos frozen, if_pos frozen]
    exact ⟨.skipped (Or.inl frozen), emits_nil⟩
  rw [if_neg frozen, if_neg frozen]
  cases ready : node.delivery.readyToDeliver train.ackBits node.delivery.mode with
  | false => exact ⟨.skipped (Or.inr (Or.inl ready)), emits_nil⟩
  | true =>
    by_cases done : train.key ∈ node.delivery.doneKeys
    · simp only [DeliveryState.alreadyDelivered, done]
      exact ⟨.skipped (Or.inr (Or.inr done)), emits_nil⟩
    · cases deliverable : node.isDeliverable train.key with
      | false =>
        simp only [DeliveryState.alreadyDelivered, done]
        exact ⟨.parked ready done deliverable, emits_nil⟩
      | true =>
        simp only [DeliveryState.alreadyDelivered, done]
        exact ⟨.delivered ready done deliverable, emits_deliverNow _ _ _⟩

theorem Tried.frame {node after : TrainsNode cfg} {train : Train} {delivered : List Entry}
    (tried : Tried node train delivered after) : Frame node after := by
  cases tried with
  | skipped _ => exact Frame.refl node
  | parked _ _ _ => exact ⟨rfl, rfl, rfl, rfl, rfl, rfl, rfl, rfl, rfl, rfl⟩
  | delivered _ _ _ => exact deliverNow_frame _ _ _

/-! ### Settled keys -/

/-- The node has delivered the key or holds a train of it. -/
def Settled (node : TrainsNode cfg) (key : ClockKey) : Prop :=
  key ∈ node.delivery.doneKeys ∨ ∃ train, node.parked.get? key = some train

/-- A run of deliveries settles nothing new and unsettles nothing. -/
theorem Delivers.settled {node after : TrainsNode cfg} {delivered : List Entry}
    (run : Delivers node delivered after) {other : ClockKey} (settled : node.Settled other) :
    after.Settled other := by
  induction run with
  | nil node => exact settled
  | @cons node after key train entries _ _ _ ih =>
    refine ih ?_
    by_cases same : other = key
    · left
      rw [deliverNow_doneKeys, same]
      exact Finset.mem_insert_self _ _
    · refine settled.imp (fun done => ?_) fun ⟨held, found⟩ => ⟨held, ?_⟩
      · rw [deliverNow_doneKeys]
        exact Finset.mem_insert_of_mem done
      · rw [deliverNow_parked, unpark, OrdMap.get?_erase, if_neg same]
        exact found

/-- A run of deliveries settles only what was settled. -/
theorem Delivers.settled_back {node after : TrainsNode cfg} {delivered : List Entry}
    (run : Delivers node delivered after) {other : ClockKey} (settled : after.Settled other) :
    node.Settled other := by
  induction run with
  | nil node => exact settled
  | @cons node after key train entries parked _ _ ih =>
    rcases ih settled with done | ⟨held, found⟩
    · rw [deliverNow_doneKeys, Finset.mem_insert] at done
      rcases done with rfl | old
      · exact Or.inr ⟨train, parked⟩
      · exact Or.inl old
    · rw [deliverNow_parked, unpark, OrdMap.get?_erase] at found
      split_ifs at found
      exact Or.inr ⟨held, found⟩

theorem Tried.settled {node after : TrainsNode cfg} {train : Train} {delivered : List Entry}
    (tried : Tried node train delivered after) {other : ClockKey} (settled : node.Settled other) :
    after.Settled other := by
  cases tried with
  | skipped _ => exact settled
  | parked _ _ _ =>
    refine settled.imp_right fun ⟨held, found⟩ => ?_
    by_cases same : other = train.key
    · exact ⟨_, (OrdMap.get?_insertNew ..).trans (if_pos same)⟩
    · exact ⟨held, ((OrdMap.get?_insertNew ..).trans (if_neg same)).trans found⟩
  | delivered _ _ _ =>
    refine settled.imp (fun done => ?_) fun held => ?_
    · rw [deliverNow_doneKeys]
      exact Finset.mem_insert_of_mem done
    · rw [deliverNow_parked]
      exact held

/-- An attempt settles at most the key of the train. -/
theorem Tried.settled_back {node after : TrainsNode cfg} {train : Train} {delivered : List Entry}
    (tried : Tried node train delivered after) {other : ClockKey} (settled : after.Settled other) :
    node.Settled other ∨ other = train.key := by
  cases tried with
  | skipped _ => exact Or.inl settled
  | parked _ _ _ =>
    by_cases same : other = train.key
    · exact Or.inr same
    · refine Or.inl (settled.imp_right fun ⟨held, found⟩ => ⟨held, ?_⟩)
      rwa [OrdMap.get?_insertNew, if_neg same] at found
  | delivered _ _ _ =>
    rcases settled with done | ⟨held, found⟩
    · rw [deliverNow_doneKeys, Finset.mem_insert] at done
      exact done.symm.imp_left Or.inl
    · rw [deliverNow_parked] at found
      exact Or.inl (Or.inr ⟨held, found⟩)

/-- **Trying a ready train settles its key** at an unfrozen node. -/
theorem Tried.settles {node after : TrainsNode cfg} {train : Train} {delivered : List Entry}
    (tried : Tried node train delivered after) (unfrozen : node.frozen = false)
    (ready : node.delivery.readyToDeliver train.ackBits node.delivery.mode = true) :
    after.Settled train.key := by
  cases tried with
  | skipped reason =>
    rcases reason with frozen | unready | done
    · rw [unfrozen] at frozen
      cases frozen
    · rw [ready] at unready
      cases unready
    · exact Or.inl done
  | parked _ _ _ => exact Or.inr ⟨_, (OrdMap.get?_insertNew ..).trans (if_pos rfl)⟩
  | delivered _ _ _ =>
    left
    rw [deliverNow_doneKeys]
    exact Finset.mem_insert_self _ _

/-! ### The branches of `handle_train` -/

/-- Nothing recorded is forgotten. -/
theorem mem_noteSeen (node : TrainsNode cfg) (payloads : List Payload) {id : Nat × Nat}
    (seen : id ∈ node.broadcastSeen) : id ∈ (node.noteSeen payloads).broadcastSeen := by
  have general : ∀ (payloads : List Payload) (known : Finset (Nat × Nat)), id ∈ known →
      id ∈ payloads.foldl (fun known payload => insert payload.msgId known) known := by
    intro payloads
    induction payloads with
    | nil => exact fun _ member => member
    | cons head rest ih => exact fun known member => ih _ (Finset.mem_insert_of_mem member)
  exact general payloads node.broadcastSeen seen

/-- The node after storing a train's clock. -/
def observe (node : TrainsNode cfg) (issuer clock : Nat) : TrainsNode cfg :=
  { node with clockState := (node.clockState.checkAndUpdate issuer clock).1 }

theorem seenClock_observe (node : TrainsNode cfg) {issuer : Nat} (inside : issuer < cfg.ringSize)
    (clock q : Nat) : (node.observe issuer clock).seenClock q =
      if q = issuer then max (node.seenClock issuer) clock else node.seenClock q :=
  node.clockState.lastSeen_checkAndUpdate clock q inside

theorem seenClock_le_observe (node : TrainsNode cfg) (issuer clock q : Nat) :
    node.seenClock q ≤ (node.observe issuer clock).seenClock q := by
  unfold seenClock observe
  rw [ClockState.checkAndUpdate_fst]
  split_ifs with newer
  · show node.clockState.lastSeen q ≤ (node.clockState.seen.set issuer clock).get q
    rw [Slots.get_set]
    split_ifs with same
    · exact same.1 ▸ newer.le
    · exact le_rfl
  · exact le_rfl

/-- The node after a first visit of a train, before draining. -/
def visit (node : TrainsNode cfg) (train : Train) : TrainsNode cfg :=
  { (node.noteSeen node.pending).noteSeen (node.loadTrain train).payloads with
    clockState := (node.clockState.checkAndUpdate train.issuer train.clock).1
    pending := [] }

/-- A stale token: at or below the installed view floor. -/
def Stale (node : TrainsNode cfg) (train : Train) : Prop :=
  train.issuer < cfg.ringSize ∧ train.clock ≤ node.viewFloor.get train.issuer

/-- A clock of this issuer this high has been seen. -/
def Replay (node : TrainsNode cfg) (train : Train) : Prop :=
  train.clock ≤ node.seenClock train.issuer ∧ 0 < node.seenClock train.issuer

/-- A replay is of a slot inside the ring. -/
theorem Replay.inside {node : TrainsNode cfg} {train : Train} (old : node.Replay train) :
    train.issuer < cfg.ringSize := by
  by_contra outside
  have unseen : node.seenClock train.issuer = 0 := Slots.get_outside _ (not_lt.mp outside)
  exact absurd old.2 (by omega)

/-- **The branches of `handle_train`**, with the entries delivered, the trains forwarded and the
node after the step. -/
inductive Handled (node : TrainsNode cfg) (train : Train) :
    List Entry → List Train → TrainsNode cfg → Prop
  | absorbed (stale : node.Stale train) : Handled node train [] [] node
  | visited {after : TrainsNode cfg} {drained : List Entry} (fresh : ¬ node.Stale train)
      (foreign : train.issuer ≠ node.id) (new : ¬ node.Replay train)
      (run : Delivers (node.visit train) drained after)
      (settled : node.frozen = false → Drained after) :
      Handled node train drained [node.loadTrain train] after
  | replayed {middle after : TrainsNode cfg} {now drained : List Entry}
      (fresh : ¬ node.Stale train) (foreign : train.issuer ≠ node.id) (old : node.Replay train)
      (tried : Tried (node.noteSeen train.payloads) train now middle)
      (run : Delivers middle drained after) (settled : node.frozen = false → Drained after) :
      Handled node train (now ++ drained) [train] after
  | recycled (fresh : ¬ node.Stale train) (own : train.issuer = node.id)
      (done : train.key ∈ node.delivery.doneKeys) :
      Handled node train [] [(node.observe node.id train.clock).issueNewTrain.2]
        (node.observe node.id train.clock).issueNewTrain.1
  | returned {middle after : TrainsNode cfg} {now drained : List Entry}
      (fresh : ¬ node.Stale train) (own : train.issuer = node.id)
      (undone : train.key ∉ node.delivery.doneKeys)
      (tried : Tried (node.observe node.id train.clock) train now middle)
      (run : Delivers middle drained after) (settled : node.frozen = false → Drained after) :
      Handled node train (now ++ drained) [train] after

/-- **What handling a train settles**: at most its key, and not on a first visit. -/
theorem Handled.settled_back {node after : TrainsNode cfg} {train : Train} {delivered : List Entry}
    {forwarded : List Train} (handled : Handled node train delivered forwarded after)
    {other : ClockKey} (settled : after.Settled other) :
    node.Settled other ∨ other = train.key ∧ (train.issuer ≠ node.id → node.Replay train) := by
  cases handled with
  | absorbed _ => exact Or.inl settled
  | visited _ _ _ run _ => exact Or.inl (run.settled_back settled)
  | replayed _ _ old tried run _ =>
    exact (tried.settled_back (run.settled_back settled)).imp_right fun same => ⟨same, fun _ => old⟩
  | recycled _ _ _ => exact Or.inl settled
  | returned _ own _ tried run _ =>
    exact (tried.settled_back (run.settled_back settled)).imp_right
      fun same => ⟨same, fun foreign => absurd own foreign⟩

instance (node : TrainsNode cfg) (train : Train) : Decidable (node.Stale train) := by
  unfold Stale
  infer_instance

instance (node : TrainsNode cfg) (train : Train) : Decidable (node.Replay train) := by
  unfold Replay
  infer_instance

/-- What an attempt to deliver a train and the drain after it deliver. -/
def attemptEntries (node : TrainsNode cfg) (train : Train) : List Entry :=
  node.tryEntries train ++ (node.tryDeliver train).1.drainEntries

/-- What `handle_train` delivers. -/
def handleEntries (node : TrainsNode cfg) (train : Train) : List Entry :=
  if node.Stale train then []
  else if train.issuer = node.id then
    if train.key ∈ node.delivery.doneKeys then []
    else (node.observe node.id train.clock).attemptEntries train
  else if node.Replay train then (node.noteSeen train.payloads).attemptEntries train
  else (node.visit train).drainEntries

theorem handleForeignTrain_replay {node : TrainsNode cfg} {train : Train} (old : node.Replay train) :
    node.handleForeignTrain train =
      ((((node.noteSeen train.payloads).tryDeliver train).1).drainParked.1,
        ((node.noteSeen train.payloads).tryDeliver train).2 ++ .forwardTrain train ::
          (((node.noteSeen train.payloads).tryDeliver train).1).drainParked.2) := if_pos old

theorem handleForeignTrain_visit {node : TrainsNode cfg} {train : Train}
    (new : ¬ node.Replay train) : node.handleForeignTrain train =
      ((node.visit train).drainParked.1,
        gapAlarm train.issuer (node.clockState.checkAndUpdate train.issuer train.clock).2 ++
          .forwardTrain (node.loadTrain train) :: (node.visit train).drainParked.2) := if_neg new

theorem handleForeignTrain_spec (node : TrainsNode cfg) (train : Train)
    (fresh : ¬ node.Stale train) (foreign : train.issuer ≠ node.id) :
    ∃ forwarded,
      Handled node train (node.handleEntries train) forwarded (node.handleForeignTrain train).1 ∧
      Emits (node.handleForeignTrain train).2 (node.handleEntries train) forwarded := by
  unfold handleEntries
  rw [if_neg fresh, if_neg foreign]
  by_cases old : node.Replay train
  · obtain ⟨tried, emitsNow⟩ := tryDeliver_entries (node.noteSeen train.payloads) train
    obtain ⟨run, emits, settled⟩ :=
      drainParked_entries ((node.noteSeen train.payloads).tryDeliver train).1
    rw [handleForeignTrain_replay old, if_pos old]
    refine ⟨[train], ?_, emitsNow.append ((emits_forward train).append emits)⟩
    exact .replayed fresh foreign old tried run fun unfrozen =>
      settled (tried.frame.frozen.trans unfrozen)
  · obtain ⟨run, emits, settled⟩ := drainParked_entries (node.visit train)
    rw [handleForeignTrain_visit old, if_neg old]
    refine ⟨[node.loadTrain train], .visited fresh foreign old run settled, ?_⟩
    exact (emits_gapAlarm _ _).append ((emits_forward (node.loadTrain train)).append emits)

theorem handleReturningTrain_spec (node : TrainsNode cfg) (train : Train)
    (fresh : ¬ node.Stale train) (own : train.issuer = node.id) :
    ∃ forwarded,
      Handled node train (node.handleEntries train) forwarded (node.handleReturningTrain train).1 ∧
      Emits (node.handleReturningTrain train).2 (node.handleEntries train) forwarded := by
  unfold handleReturningTrain handleEntries
  rw [if_neg fresh, if_pos own]
  by_cases done : train.key ∈ node.delivery.doneKeys
  · simp only [DeliveryState.alreadyDelivered, done, decide_true, if_true]
    exact ⟨_, .recycled fresh own done, emits_forward _⟩
  · simp only [DeliveryState.alreadyDelivered, done, decide_false]
    obtain ⟨tried, emitsNow⟩ := tryDeliver_entries (node.observe node.id train.clock) train
    obtain ⟨run, emits, settled⟩ :=
      drainParked_entries ((node.observe node.id train.clock).tryDeliver train).1
    refine ⟨[train], ?_, ?_⟩
    · exact .returned fresh own done tried run fun unfrozen =>
        settled (tried.frame.frozen.trans unfrozen)
    · have all := (emitsNow.append emits).append (emits_forward train)
      rw [List.append_nil] at all
      exact all

/-- **Every received train is handled by one of the branches.** -/
theorem handleTrain_entries (node : TrainsNode cfg) (train : Train) :
    ∃ forwarded,
      Handled node train (node.handleEntries train) forwarded (node.handleTrain train).1 ∧
      Emits (node.handleTrain train).2 (node.handleEntries train) forwarded := by
  by_cases stale : node.Stale train
  · have branch : node.handleTrain train = (node, []) := if_pos stale
    have nothing : node.handleEntries train = [] := if_pos stale
    rw [branch, nothing]
    exact ⟨[], .absorbed stale, emits_nil⟩
  · have branch : node.handleTrain train = if train.issuer = node.id then
        node.handleReturningTrain train else node.handleForeignTrain train := if_neg stale
    rw [branch]
    by_cases own : train.issuer = node.id
    · rw [if_pos own]
      exact handleReturningTrain_spec node train stale own
    · rw [if_neg own]
      exact handleForeignTrain_spec node train stale own

theorem handleTrain_spec (node : TrainsNode cfg) (train : Train) :
    ∃ delivered forwarded, Handled node train delivered forwarded (node.handleTrain train).1 ∧
      Emits (node.handleTrain train).2 delivered forwarded :=
  ⟨node.handleEntries train, node.handleTrain_entries train⟩

end TrainsNode

end TrainsRing
