/-
**The public interface of a node** (`trains-core/src/node.rs`).

A caller may call the methods of a node in any order. `NodeCall.records` are the calls of
`record_delivered` that one call makes, each with the payloads the key is delivered with.

* `NodeCall`, `NodeCall.run` — a call and what it does.
* `Logged` — **what the records of a call say**: the keys that become done, and one `Deliver` output
  for every record with payloads.
* `Recording` — a node with all records and outputs of its life.
-/

import TrainsRing.Agreement.World
import TrainsRing.Agreement.Replica
import TrainsRing.Reconfig.Apply
import TrainsRing.Reconfig.Merge

namespace TrainsRing

variable {cfg : RingConfig}

/-- A call of the public interface. -/
inductive NodeCall (cfg : RingConfig) where
  | step (input : Input)
  | issueInitialTrain
  | reissueTrain
  | confirmCrash (p : Nat)
  | markCrashed (p : Nat)
  | readmitNode (p : Nat)
  | setFrozen (frozen : Bool)
  | recoveryReport
  | applyRecovery (plan : RecoveryPlan cfg)

namespace NodeCall

/-- The process identifiers handed over are inside the ring. -/
def InRange : NodeCall cfg → Prop
  | step (.trainReceived train) => train.issuer < cfg.ringSize
  | confirmCrash p => p < cfg.ringSize
  | markCrashed p => p < cfg.ringSize
  | readmitNode p => p < cfg.ringSize
  | applyRecovery plan => ∀ key ∈ plan.actions.keys, key.issuer < cfg.ringSize
  | _ => True

instance : (call : NodeCall cfg) → Decidable call.InRange
  | .step (.trainReceived train) => inferInstanceAs (Decidable (train.issuer < cfg.ringSize))
  | .confirmCrash p | .markCrashed p | .readmitNode p =>
    inferInstanceAs (Decidable (p < cfg.ringSize))
  | .applyRecovery plan =>
    inferInstanceAs (Decidable (∀ key ∈ plan.actions.keys, key.issuer < cfg.ringSize))
  | .step (.localBroadcast _) | .step .tick | .issueInitialTrain | .reissueTrain | .setFrozen _
  | .recoveryReport => instDecidableTrue

/-- The node after a call, and the outputs of the call. -/
def run (node : TrainsNode cfg) : NodeCall cfg → TrainsNode cfg × List Output
  | step input => node.step input
  | issueInitialTrain => (node.issueInitialTrain.1, [.forwardTrain node.issueInitialTrain.2])
  | reissueTrain => (node.reissueTrain.1, [.forwardTrain node.reissueTrain.2])
  | confirmCrash p => node.confirmCrash p
  | markCrashed p => (node.markCrashed p, [])
  | readmitNode p => (node.readmitNode p, [])
  | setFrozen frozen => (node.setFrozen frozen, [])
  | recoveryReport => (node, [])
  | applyRecovery plan => node.applyRecovery plan

end NodeCall

/-! ### The records of a call -/

namespace NodeCall

/-- The calls of `record_delivered` that a call makes, in order. -/
def records (node : TrainsNode cfg) : NodeCall cfg → List Entry
  | step (.trainReceived train) => node.handleEntries train
  | confirmCrash p => (node.markCrashed p).drainEntries
  | applyRecovery plan => node.applyEntries plan
  | _ => []

end NodeCall

/-- The `Deliver` outputs among some outputs, in order. -/
def delivers (outputs : List Output) : List (List Payload) :=
  outputs.filterMap fun
    | .deliver payloads => some payloads
    | _ => none

@[simp] theorem delivers_append (first second : List Output) :
    delivers (first ++ second) = delivers first ++ delivers second := List.filterMap_append

/-- The `Deliver` outputs that some records give rise to: one for each record with payloads. -/
def announcements (records : List Entry) : List (List Payload) :=
  (records.filter fun entry => !entry.2.isEmpty).map Entry.content

@[simp] theorem announcements_append (first second : List Entry) :
    announcements (first ++ second) = announcements first ++ announcements second := by
  unfold announcements
  rw [List.filter_append, List.map_append]

namespace TrainsNode

/-- Exactly the recorded keys become done, and the records with payloads are delivered. -/
structure Logged (node : TrainsNode cfg) (records : List Entry)
    (result : TrainsNode cfg × List Output) : Prop where
  done : result.1.delivery.doneKeys = node.delivery.doneKeys ∪ (records.map Prod.fst).toFinset
  announced : delivers result.2 = announcements records

/-- A call that touches no done key and delivers nothing. -/
theorem Logged.quiet {node : TrainsNode cfg} {result : TrainsNode cfg × List Output}
    (done : result.1.delivery.doneKeys = node.delivery.doneKeys) (silent : delivers result.2 = []) :
    Logged node [] result :=
  ⟨by rw [done, List.map_nil, List.toFinset_nil, Finset.union_empty], silent⟩

theorem Logged.append {node middle after : TrainsNode cfg} {first second : List Entry}
    {outputs outputs' : List Output} (left : Logged node first (middle, outputs))
    (right : Logged middle second (after, outputs')) :
    Logged node (first ++ second) (after, outputs ++ outputs') := by
  refine ⟨?_, ?_⟩
  · rw [right.done, left.done, List.map_append, List.toFinset_append, Finset.union_assoc]
  · rw [delivers_append, left.announced, right.announced, announcements_append]

/-- Only the done keys of the start matter. -/
theorem Logged.start {node other : TrainsNode cfg} {records : List Entry}
    {result : TrainsNode cfg × List Output} (logged : Logged other records result)
    (same : other.delivery.doneKeys = node.delivery.doneKeys) : Logged node records result :=
  ⟨same ▸ logged.done, logged.announced⟩

theorem logged_deliverNow (node : TrainsNode cfg) (key : ClockKey) (payloads : List Payload) :
    Logged node [(key, payloads)] (node.deliverNow key payloads) := by
  refine ⟨?_, ?_⟩
  · rw [deliverNow_doneKeys, List.map_singleton, List.toFinset_cons, List.toFinset_nil,
      Finset.union_comm]
    rfl
  · unfold deliverNow announcements
    by_cases empty : payloads.isEmpty = true
    · simp [empty, delivers]
    · simp [empty, delivers, Entry.content]

theorem logged_drainLoop (fuel : Nat) : ∀ node : TrainsNode cfg,
    Logged node (drainLoopEntries fuel node) (drainLoop fuel node) := by
  induction fuel with
  | zero => exact fun node => .quiet rfl rfl
  | succ fuel ih =>
    intro node
    unfold drainLoop drainLoopEntries
    cases node.parked.min? with
    | none => exact .quiet rfl rfl
    | some head =>
      by_cases deliverable : node.isDeliverable head.1 = true
      · simp only [deliverable, if_true]
        have now : Logged node _ ((node.unpark head.1).deliverNow head.1 head.2.payloads) :=
          (logged_deliverNow (node.unpark head.1) head.1 head.2.payloads).start rfl
        exact now.append (ih _)
      · have blocked : node.isDeliverable head.1 = false := by simpa using deliverable
        simp only [blocked]
        exact .quiet rfl rfl

theorem logged_drainParked (node : TrainsNode cfg) :
    Logged node node.drainEntries node.drainParked := by
  unfold drainEntries drainParked
  by_cases frozen : node.frozen = true
  · rw [if_pos frozen, if_pos frozen]
    exact .quiet rfl rfl
  · rw [if_neg frozen, if_neg frozen]
    exact logged_drainLoop _ node

theorem logged_tryDeliver (node : TrainsNode cfg) (train : Train) :
    Logged node (node.tryEntries train) (node.tryDeliver train) := by
  unfold tryEntries tryDeliver
  split_ifs with frozen unready done blocked
  · exact .quiet rfl rfl
  · exact .quiet rfl rfl
  · exact .quiet rfl rfl
  · exact .quiet rfl rfl
  · exact logged_deliverNow node train.key train.payloads

/-- An attempt to deliver and the drain after it. -/
theorem logged_attempt (node : TrainsNode cfg) (train : Train) :
    Logged node (node.attemptEntries train) ((node.tryDeliver train).1.drainParked.1,
      (node.tryDeliver train).2 ++ (node.tryDeliver train).1.drainParked.2) :=
  (node.logged_tryDeliver train).append (logged_drainParked _)

theorem delivers_gapAlarm (issuer : Nat) (check : ClockCheck) :
    delivers (gapAlarm issuer check) = [] := by
  cases check <;> rfl

theorem delivers_forward (train : Train) (outputs : List Output) :
    delivers (.forwardTrain train :: outputs) = delivers outputs := rfl

theorem logged_handleTrain (node : TrainsNode cfg) (train : Train) :
    Logged node (node.handleEntries train) (node.handleTrain train) := by
  unfold handleEntries
  by_cases stale : node.Stale train
  · rw [if_pos stale, show node.handleTrain train = (node, []) from if_pos stale]
    exact .quiet rfl rfl
  rw [if_neg stale, show node.handleTrain train = if train.issuer = node.id then
    node.handleReturningTrain train else node.handleForeignTrain train from if_neg stale]
  by_cases own : train.issuer = node.id
  · rw [if_pos own, if_pos own]
    unfold handleReturningTrain
    by_cases done : train.key ∈ node.delivery.doneKeys
    · simp only [DeliveryState.alreadyDelivered, done, decide_true, if_true]
      exact .quiet rfl rfl
    · simp only [DeliveryState.alreadyDelivered, done, decide_false]
      have attempt := logged_attempt (node.observe node.id train.clock) train
      refine ⟨attempt.done, ?_⟩
      show delivers (_ ++ [_]) = _
      rw [delivers_append]
      exact (List.append_nil _).trans attempt.announced
  · rw [if_neg own, if_neg own]
    by_cases old : node.Replay train
    · have attempt := logged_attempt (node.noteSeen train.payloads) train
      rw [handleForeignTrain_replay old, if_pos old]
      refine ⟨attempt.done, ?_⟩
      rw [delivers_append, delivers_forward, ← delivers_append]
      exact attempt.announced
    · have drained := logged_drainParked (node.visit train)
      rw [handleForeignTrain_visit old, if_neg old]
      refine ⟨drained.done, ?_⟩
      rw [delivers_append, delivers_gapAlarm, delivers_forward]
      exact drained.announced

/-! ### Applying a plan -/

/-- One round of `apply_recovery` pushes its outputs after those of the earlier rounds. -/
theorem applyAction_outputs (node : TrainsNode cfg) (outputs : List Output)
    (entry : ClockKey × RecoveryAction) :
    applyAction (node, outputs) entry =
      ((applyAction (node, []) entry).1, outputs ++ (applyAction (node, []) entry).2) := by
  rw [applyAction_eq, applyAction_eq]
  dsimp only
  split_ifs
  · rw [List.append_nil]
  · rw [List.nil_append]

theorem logged_applyAction (node : TrainsNode cfg) (entry : ClockKey × RecoveryAction) :
    Logged node (node.actionEntries entry) (applyAction (node, []) entry) := by
  rw [applyAction_eq, actionEntries]
  dsimp only
  split_ifs with done
  · exact .quiet rfl rfl
  · exact (logged_deliverNow _ entry.1 entry.2.payloads).start rfl

theorem logged_applyActions (entries : List (ClockKey × RecoveryAction)) :
    ∀ (node : TrainsNode cfg) (outputs : List Output), delivers outputs = [] →
      Logged node (loopEntries entries node) (entries.foldl applyAction (node, outputs)) := by
  suffices general : ∀ (node : TrainsNode cfg) (outputs : List Output), ∃ more,
      entries.foldl applyAction (node, outputs) =
        ((entries.foldl applyAction (node, [])).1, outputs ++ more) ∧
      Logged node (loopEntries entries node) ((entries.foldl applyAction (node, [])).1, more) by
    intro node outputs silent
    obtain ⟨more, shape, logged⟩ := general node outputs
    rw [shape]
    refine ⟨logged.done, ?_⟩
    rw [delivers_append, silent]
    exact logged.announced
  induction entries with
  | nil => exact fun node outputs => ⟨[], by simp, .quiet rfl rfl⟩
  | cons entry rest ih =>
    intro node outputs
    have first := applyAction_outputs node outputs entry
    obtain ⟨more, shape, logged⟩ := ih (applyAction (node, []) entry).1
      (outputs ++ (applyAction (node, []) entry).2)
    obtain ⟨_, shape', -⟩ := ih (applyAction (node, []) entry).1 (applyAction (node, []) entry).2
    have start : (rest.foldl applyAction (applyAction (node, []) entry)).1 =
        (rest.foldl applyAction ((applyAction (node, []) entry).1, [])).1 := by
      have same := congrArg Prod.fst shape'
      exact same
    refine ⟨(applyAction (node, []) entry).2 ++ more, ?_, ?_⟩
    · rw [List.foldl_cons, List.foldl_cons, first, shape, start, List.append_assoc]
    · rw [List.foldl_cons, start]
      exact (node.logged_applyAction entry).append logged

/-- **What the records of a call say.** -/
theorem logged_run (node : TrainsNode cfg) (call : NodeCall cfg) :
    Logged node (call.records node) (call.run node) := by
  cases call with
  | step input =>
    cases input with
    | trainReceived train => exact node.logged_handleTrain train
    | localBroadcast data =>
      have keeps := node.handleBroadcast_keeps data
      refine .quiet (congrArg DeliveryState.doneKeys keeps.2.2.1) ?_
      show delivers (node.handleBroadcast data).2 = []
      unfold handleBroadcast
      split <;> rfl
    | tick => exact .quiet rfl rfl
  | confirmCrash p => exact (logged_drainParked (node.markCrashed p)).start rfl
  | applyRecovery plan =>
    have loop := logged_applyActions plan.actions.entries node [] rfl
    exact loop.append ((logged_drainParked (TrainsNode.installView _ plan)).start rfl)
  | _ => exact .quiet rfl rfl

end TrainsNode

/-! ### Suspects -/

/-- The processes declared crashed by some outputs, in order. -/
def suspects (outputs : List Output) : List Nat :=
  outputs.filterMap fun
    | .declareCrash suspect => some suspect
    | _ => none

@[simp] theorem suspects_append (first second : List Output) :
    suspects (first ++ second) = suspects first ++ suspects second := List.filterMap_append

namespace TrainsNode

theorem suspects_deliverNow (node : TrainsNode cfg) (key : ClockKey) (payloads : List Payload) :
    suspects (node.deliverNow key payloads).2 = [] := by
  unfold deliverNow
  split <;> rfl

theorem suspects_drainLoop (fuel : Nat) : ∀ node : TrainsNode cfg,
    suspects (drainLoop fuel node).2 = [] := by
  induction fuel with
  | zero => exact fun _ => rfl
  | succ fuel ih =>
    intro node
    unfold drainLoop
    cases node.parked.min? with
    | none => rfl
    | some head =>
      dsimp only
      split_ifs
      · rw [suspects_append, suspects_deliverNow, ih]
        rfl
      · rfl

theorem suspects_drainParked (node : TrainsNode cfg) : suspects node.drainParked.2 = [] := by
  unfold drainParked
  split_ifs
  · rfl
  · exact suspects_drainLoop _ node

theorem suspects_tryDeliver (node : TrainsNode cfg) (train : Train) :
    suspects (node.tryDeliver train).2 = [] := by
  unfold tryDeliver
  split_ifs
  · rfl
  · rfl
  · rfl
  · rfl
  · exact suspects_deliverNow node train.key train.payloads

theorem suspects_forward (train : Train) (outputs : List Output) :
    suspects (.forwardTrain train :: outputs) = suspects outputs := rfl

/-- **A received train makes its issuer a suspect** when its first visit shows a gap, and nobody
otherwise. -/
theorem suspects_handleTrain (node : TrainsNode cfg) (train : Train) :
    suspects (node.handleTrain train).2 =
      if node.Stale train ∨ train.issuer = node.id ∨ node.Replay train then []
      else suspects
        (gapAlarm train.issuer (node.clockState.checkAndUpdate train.issuer train.clock).2) := by
  by_cases stale : node.Stale train
  · rw [if_pos (Or.inl stale), show node.handleTrain train = (node, []) from if_pos stale]
    rfl
  rw [show node.handleTrain train = if train.issuer = node.id then
    node.handleReturningTrain train else node.handleForeignTrain train from if_neg stale]
  by_cases own : train.issuer = node.id
  · rw [if_pos own, if_pos (Or.inr (Or.inl own))]
    unfold handleReturningTrain
    dsimp only
    split_ifs
    · rfl
    · rw [suspects_append, suspects_append, suspects_tryDeliver, suspects_drainParked]
      rfl
  · rw [if_neg own]
    by_cases old : node.Replay train
    · rw [handleForeignTrain_replay old, if_pos (Or.inr (Or.inr old)), suspects_append,
        suspects_tryDeliver, suspects_forward, suspects_drainParked]
      rfl
    · rw [handleForeignTrain_visit old, if_neg (by tauto), suspects_append, suspects_forward,
        suspects_drainParked, List.append_nil]

/-- The only suspect of a received train is its issuer. -/
theorem suspects_issuer (node : TrainsNode cfg) (train : Train) :
    suspects (node.handleTrain train).2 = [] ∨
      suspects (node.handleTrain train).2 = [train.issuer] := by
  rw [suspects_handleTrain]
  split_ifs
  · exact Or.inl rfl
  · cases (node.clockState.checkAndUpdate train.issuer train.clock).2 with
    | gap expected received => exact Or.inr rfl
    | ok => exact Or.inl rfl
    | duplicate => exact Or.inl rfl

end TrainsNode

/-! ### The life of a node -/

/-- A node with every call of `record_delivered` it has made and every output it has given. -/
structure Recording (cfg : RingConfig) where
  node : TrainsNode cfg
  recorded : List Entry
  outputs : List Output

namespace Recording

/-- A node as constructed. -/
def Constructed (st : Recording cfg) : Prop :=
  ∃ id id_lt mode, st = ⟨TrainsNode.new cfg id id_lt mode, [], []⟩

/-- The state after a call. -/
def call (st : Recording cfg) (call : NodeCall cfg) : Recording cfg :=
  ⟨(call.run st.node).1, st.recorded ++ call.records st.node,
    st.outputs ++ (call.run st.node).2⟩

/-- The state after some calls. -/
def calls (st : Recording cfg) (calls : List (NodeCall cfg)) : Recording cfg :=
  calls.foldl Recording.call st

/-- The done keys are the recorded ones, and the `Deliver` outputs are those of the records. -/
structure Accounted (st : Recording cfg) : Prop where
  done : st.node.delivery.doneKeys = (st.recorded.map Prod.fst).toFinset
  announced : delivers st.outputs = announcements st.recorded

theorem Accounted.call {st : Recording cfg} (accounted : st.Accounted) (call : NodeCall cfg) :
    (st.call call).Accounted := by
  have logged := st.node.logged_run call
  refine ⟨?_, ?_⟩
  · show (call.run st.node).1.delivery.doneKeys = _
    rw [logged.done, accounted.done]
    show _ = ((st.recorded ++ _).map Prod.fst).toFinset
    rw [List.map_append, List.toFinset_append]
  · show delivers (st.outputs ++ _) = announcements (st.recorded ++ _)
    rw [delivers_append, announcements_append, accounted.announced, logged.announced]

theorem Accounted.calls (calls : List (NodeCall cfg)) : ∀ {st : Recording cfg}, st.Accounted →
    (st.calls calls).Accounted := by
  induction calls with
  | nil => exact fun accounted => accounted
  | cons call rest ih => exact fun accounted => ih (accounted.call call)

theorem Constructed.accounted {first : Recording cfg} (constructed : first.Constructed) :
    first.Accounted := by
  obtain ⟨id, id_lt, mode, rfl⟩ := constructed
  exact ⟨rfl, rfl⟩

end Recording

end TrainsRing
