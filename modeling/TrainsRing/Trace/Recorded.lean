/-
**What the ring records passes the validator.**

The records of one node tell all that it received with payloads and all that it delivered, in its own
order, whatever the other tasks do meanwhile; a record may reach the trace after those of nodes that its
trains have passed since.

* `Stands` — the tasks stand for a world of the asynchronous network: what is yet to be dispatched has
  been emitted and delivered there. `demo_refines` — **every run is one of the network**.
* `Recorded` — what the records of a node say of it; `records_reachable` — in every state.
* `trace_clean` — **no false alarm**: wherever a run is cut off, the validator finds nothing in its
  trace, and the report at the end finds the logs consistent.
-/

import TrainsRing.Trace.Demo

namespace TrainsRing

variable {cfg : RingConfig} {mode : DeliveryMode} {issuers : Nat}

/-! ### The payloads a node holds -/

namespace TrainsNode

variable {node after : TrainsNode cfg} {train : Train} {delivered : List Entry}
  {Known : Payload → Prop}

/-- The payloads of the parked trains are known. -/
def ParkedIn (node : TrainsNode cfg) (Known : Payload → Prop) : Prop :=
  ∀ key train, node.parked.get? key = some train → ∀ m ∈ train.payloads, Known m

theorem Delivers.parkedIn (run : Delivers node delivered after) (known : node.ParkedIn Known) :
    after.ParkedIn Known ∧ ∀ entry ∈ delivered, ∀ m ∈ entry.2, Known m := by
  refine run.preserves (P := fun node entries =>
    node.ParkedIn Known ∧ ∀ entry ∈ entries, ∀ m ∈ entry.2, Known m) ?_ []
    ⟨known, fun entry member => absurd member List.not_mem_nil⟩
  rintro node entries key train ⟨known, before⟩ parked -
  refine ⟨fun other held found => ?_, fun entry member => ?_⟩
  · rw [deliverNow_parked, unpark, OrdMap.get?_erase] at found
    split_ifs at found
    exact known other held found
  · rcases List.mem_append.mp member with old | new
    · exact before entry old
    · rw [List.mem_singleton.mp new]
      exact known key train parked

theorem Tried.parkedIn (tried : Tried node train delivered after) (known : node.ParkedIn Known)
    (own : ∀ m ∈ train.payloads, Known m) :
    after.ParkedIn Known ∧ ∀ entry ∈ delivered, ∀ m ∈ entry.2, Known m := by
  cases tried with
  | skipped _ => exact ⟨known, fun entry member => absurd member List.not_mem_nil⟩
  | parked _ _ _ =>
    refine ⟨fun key held found => ?_, fun entry member => absurd member List.not_mem_nil⟩
    rw [OrdMap.get?_insertNew] at found
    split_ifs at found
    · obtain rfl := Option.some.inj found
      cases before : node.parked.get? train.key with
      | none => exact own
      | some old => exact known train.key old before
    · exact known key held found
  | delivered _ _ _ =>
    refine ⟨fun key held found => ?_, fun entry member => ?_⟩
    · rw [deliverNow_parked] at found
      exact known key held found
    · rw [List.mem_singleton.mp member]
      exact own

/-- **What handling a train delivers or keeps** was parked, or is on the train. -/
theorem Handled.parkedIn {forwarded : List Train}
    (handled : Handled node train delivered forwarded after) (known : node.ParkedIn Known)
    (own : ∀ m ∈ train.payloads, Known m) :
    after.ParkedIn Known ∧ ∀ entry ∈ delivered, ∀ m ∈ entry.2, Known m := by
  have both : ∀ {first second : List Entry}, (∀ entry ∈ first, ∀ m ∈ entry.2, Known m) →
      (∀ entry ∈ second, ∀ m ∈ entry.2, Known m) →
      ∀ entry ∈ first ++ second, ∀ m ∈ entry.2, Known m :=
    fun left right entry member => (List.mem_append.mp member).elim (left entry) (right entry)
  cases handled with
  | absorbed _ => exact ⟨known, fun entry member => absurd member List.not_mem_nil⟩
  | visited _ _ _ run _ => exact run.parkedIn known
  | replayed _ _ _ tried run _ =>
    obtain ⟨held, now⟩ := tried.parkedIn known own
    obtain ⟨still, drained⟩ := run.parkedIn held
    exact ⟨still, both now drained⟩
  | recycled _ _ _ => exact ⟨known, fun entry member => absurd member List.not_mem_nil⟩
  | returned _ _ _ tried run _ =>
    obtain ⟨held, now⟩ := tried.parkedIn known own
    obtain ⟨still, drained⟩ := run.parkedIn held
    exact ⟨still, both now drained⟩

end TrainsNode

namespace Trace

/-! ### What a task has left to do -/

namespace Task

/-- The outputs yet to be dispatched. -/
def outs : Task → List Output
  | .starting => []
  | .waiting => []
  | .dispatching outs _ _ _ => outs
  | .emitting _ next => next.toList.map .forwardTrain
  | .sending train => [.forwardTrain train]

/-- The record on its way to the trace. -/
def record : Task → List TraceRecord
  | .emitting rec _ => [rec]
  | _ => []

/-- The keys that the next record gets from its action. -/
def arriving : Task → List Key
  | .dispatching _ action _ _ => action.payloadKeys
  | _ => []

/-- The payloads that the next record tells as delivered. -/
def untold : Task → List PayloadKey
  | .dispatching _ _ outputs _ => outputs.flatMap TraceOutput.delivered
  | _ => []

end Task

theorem deliveries_next (rec : TraceRecord) (next : Option Train) :
    deliveries (Task.emitting rec next).outs = [] := by
  cases next <;> rfl

/-- The outputs of a record say what was delivered. -/
theorem delivered_ofOutput (outs : List Output) :
    (outs.map TraceOutput.ofOutput).flatMap TraceOutput.delivered =
      (deliveries outs).map PayloadKey.ofPayload := by
  induction outs with
  | nil => rfl
  | cons out outs ih =>
    have step : (TraceOutput.ofOutput out).delivered =
        (deliveries [out]).map PayloadKey.ofPayload := by
      cases out <;> simp [TraceOutput.ofOutput, TraceOutput.delivered, deliveries]
    rw [List.map_cons, List.flatMap_cons, ih, step, ← List.map_append, ← deliveries_append]
    rfl

/-- The outputs of a record say what was forwarded. -/
theorem mem_forward_ofOutput {outs : List Output} {summary : TrainSummary}
    (member : TraceOutput.forward summary ∈ outs.map TraceOutput.ofOutput) :
    ∃ train ∈ forwards outs, summary = .ofTrain train := by
  obtain ⟨out, inside, same⟩ := List.mem_map.mp member
  cases out with
  | forwardTrain train =>
    exact ⟨train, List.mem_filterMap.mpr ⟨_, inside, rfl⟩, (TraceOutput.forward.inj same).symm⟩
  | deliver payloads => cases same
  | declareCrash victim => cases same

theorem deliveries_uninteresting {outs : List Output}
    (dull : outsContainDeliveryOrCrash outs = false) : deliveries outs = [] := by
  refine List.flatMap_eq_nil_iff.mpr fun out member => ?_
  have none := List.any_eq_false.mp dull out member
  cases out with
  | forwardTrain train => rfl
  | deliver payloads => exact absurd rfl none
  | declareCrash victim => rfl

namespace Demo

variable (st : Demo cfg) (p : Fin cfg.ringSize)

/-- What the node of `p` has delivered, dispatched or not. -/
def log : List Payload := st.deliveredLogs p ++ deliveries (st.task p).outs

/-- What `p` has told: its records in the trace, and the one on its way. -/
def told : List TraceRecord := ofNode p st.trace ++ (st.task p).record

/-! The points from which a task goes on. -/

variable {st p}

theorem work_starting (task : st.task p = .starting) : st.work p =
    { st with core := Function.update st.core p (st.core p).issueInitialTrain.1 }.emitTrace p
      (.initial (.ofTrain (st.core p).issueInitialTrain.2)) []
      (some (st.core p).issueInitialTrain.2) := by
  unfold work
  rw [task]

theorem work_waiting (task : st.task p = .waiting) : st.work p = st := by
  unfold work
  rw [task]

theorem work_dispatching {out : Output} {outs : List Output} {action : TraceAction}
    {outputs : List TraceOutput} {interesting : Bool}
    (task : st.task p = .dispatching (out :: outs) action outputs interesting) :
    st.work p = (st.dispatch p out).become p (.dispatching outs action outputs interesting) := by
  unfold work
  rw [task]

theorem work_dispatched {action : TraceAction} {outputs : List TraceOutput} {interesting : Bool}
    (task : st.task p = .dispatching [] action outputs interesting) : st.work p =
      if interesting then st.emitTrace p action outputs none else st.become p .waiting := by
  unfold work
  rw [task]

theorem work_emitting {rec : TraceRecord} {next : Option Train}
    (task : st.task p = .emitting rec next) : st.work p =
      { st.become p (next.elim .waiting .sending) with trace := st.trace ++ [rec] } := by
  unfold work
  rw [task]

theorem work_sending {train : Train} (task : st.task p = .sending train) :
    st.work p = { st.become p .waiting with sent := st.sent ++ [train] } := by
  unfold work
  rw [task]

end Demo

/-! ### The network behind the tasks -/

/-- The tasks stand for a world: what they have yet to dispatch has been emitted and delivered. -/
structure Stands (issuers : Nat) (st : Demo cfg) (w : World cfg) : Prop where
  core : st.core = w.node
  logs : ∀ p, w.log p = st.log p
  sent : ∀ t ∈ st.sent, t ∈ w.emitted
  leaving : ∀ p, ∀ t ∈ forwards (st.task p).outs, t ∈ w.emitted
  starting : ∀ p, st.task p = .starting → p.val < issuers

theorem act_idle (w : World cfg) (p : Fin cfg.ringSize) : w.act p (w.node p, []) = w := by
  unfold World.act
  rw [Function.update_eq_self, show deliveries [] = [] from rfl, List.append_nil,
    Function.update_eq_self, show forwards [] = [] from rfl, List.append_nil]

section Stands

variable {st : Demo cfg} {w : World cfg} {p : Fin cfg.ringSize}

theorem Stands.initial : Stands issuers (Demo.initial cfg mode issuers) (World.initial cfg mode) where
  core := rfl
  logs := fun p => by
    show [] = [] ++ deliveries (if p.val < issuers then Task.starting else .waiting).outs
    split_ifs <;> rfl
  sent := fun t member => absurd member List.not_mem_nil
  leaving := fun p t member => by
    have nothing : forwards (if p.val < issuers then Task.starting else .waiting).outs = [] := by
      split_ifs <;> rfl
    exact absurd (nothing ▸ member : t ∈ []) List.not_mem_nil
  starting := fun p starts => by
    by_contra late
    cases (if_neg late).symm.trans starts

/-- **A task that goes on**, with its node and its log as they were in the world. -/
theorem Stands.go (stands : Stands issuers st w) {st' : Demo cfg} {task : Task}
    (core : st'.core = st.core) (tasks : st'.task = Function.update st.task p task)
    (others : ∀ q, q ≠ p → st'.deliveredLogs q = st.deliveredLogs q)
    (log : st'.deliveredLogs p ++ deliveries task.outs = st.log p)
    (sent : ∀ t ∈ st'.sent, t ∈ st.sent ∨ t ∈ forwards (st.task p).outs)
    (leaving : ∀ t ∈ forwards task.outs, t ∈ forwards (st.task p).outs)
    (starts : task ≠ .starting) : Stands issuers st' w where
  core := core.trans stands.core
  logs := fun q => by
    unfold Demo.log
    rw [stands.logs, tasks]
    by_cases same : q = p
    · rw [same, Function.update_self, log]
    · rw [Function.update_of_ne same, others q same, Demo.log]
  sent := fun t member => (sent t member).elim (stands.sent t) (stands.leaving p t)
  leaving := fun q t member => by
    rw [tasks] at member
    by_cases same : q = p
    · rw [same, Function.update_self] at member
      exact stands.leaving p t (leaving t member)
    · rw [Function.update_of_ne same] at member
      exact stands.leaving q t member
  starting := fun q begins => by
    rw [tasks] at begins
    by_cases same : q = p
    · rw [same, Function.update_self] at begins
      exact absurd begins starts
    · rw [Function.update_of_ne same] at begins
      exact stands.starting q begins

/-- **A node that steps**: the outputs that its task has to dispatch are those of the world's step. -/
theorem Stands.act (stands : Stands issuers st w) {st' : Demo cfg} (task : Task)
    {result : TrainsNode cfg × List Output} (core : st'.core = Function.update st.core p result.1)
    (tasks : st'.task = Function.update st.task p task) (logs : st'.deliveredLogs = st.deliveredLogs)
    (sent : st'.sent = st.sent) (idle : (st.task p).outs = []) (outs : task.outs = result.2)
    (starts : task ≠ .starting) : Stands issuers st' (w.act p result) where
  core := by rw [core, stands.core]; rfl
  logs := fun q => by
    by_cases same : q = p
    · rw [same, World.act_log_self, stands.logs, Demo.log, Demo.log, idle, tasks,
        Function.update_self, outs, logs, show deliveries [] = [] from rfl, List.append_nil]
    · rw [w.act_log_of_ne p _ same, stands.logs, Demo.log, Demo.log, tasks,
        Function.update_of_ne same, logs]
  sent := fun t member => List.mem_append_left _ (stands.sent t (sent ▸ member))
  leaving := fun q t member => by
    rw [tasks] at member
    by_cases same : q = p
    · rw [same, Function.update_self, outs] at member
      exact List.mem_append_right _ member
    · rw [Function.update_of_ne same] at member
      exact List.mem_append_left _ (stands.leaving q t member)
  starting := fun q begins => by
    rw [tasks] at begins
    by_cases same : q = p
    · rw [same, Function.update_self] at begins
      exact absurd begins starts
    · rw [Function.update_of_ne same] at begins
      exact stands.starting q begins

theorem Stands.take (stands : Stands issuers st w) (waits : st.task p = .waiting) (input : Input)
    (action : TraceAction) (interesting : List Output → Bool) :
    Stands issuers (st.take p input action interesting) (w.act p ((w.node p).step input)) := by
  refine stands.act (p := p) (.dispatching ((st.core p).step input).2 action
    (((st.core p).step input).2.map .ofOutput) (interesting ((st.core p).step input).2))
    ?_ rfl rfl rfl ?_ ?_ (fun same => nomatch same)
  · rw [← stands.core]
    rfl
  · rw [waits]
    rfl
  · rw [← stands.core]
    rfl

theorem dispatch_sent {out : Output} {t : Train} (member : t ∈ (st.dispatch p out).sent) :
    t ∈ st.sent ∨ t ∈ forwards [out] := by
  cases out with
  | forwardTrain train => exact List.mem_append.mp member
  | deliver payloads => exact .inl member
  | declareCrash victim => exact .inl member

theorem dispatch_log (out : Output) :
    (st.dispatch p out).deliveredLogs p = st.deliveredLogs p ++ deliveries [out] := by
  cases out with
  | forwardTrain train => exact (List.append_nil _).symm
  | deliver payloads => simp [Demo.dispatch, deliveries]
  | declareCrash victim => exact (List.append_nil _).symm

theorem dispatch_log_of_ne {q : Fin cfg.ringSize} (other : q ≠ p) (out : Output) :
    (st.dispatch p out).deliveredLogs q = st.deliveredLogs q := by
  cases out with
  | forwardTrain train => rfl
  | deliver payloads => exact Function.update_of_ne other ..
  | declareCrash victim => rfl

theorem dispatch_rest (st : Demo cfg) (p : Fin cfg.ringSize) (out : Output) :
    (st.dispatch p out).core = st.core ∧
    (st.dispatch p out).task = st.task ∧ (st.dispatch p out).trace = st.trace := by
  cases out <;> exact ⟨rfl, rfl, rfl⟩

theorem cons_outs (out : Output) (outs : List Output) :
    deliveries (out :: outs) = deliveries [out] ++ deliveries outs ∧
      forwards (out :: outs) = forwards [out] ++ forwards outs :=
  ⟨deliveries_append [out] outs, forwards_append [out] outs⟩

/-- **A task that goes on is at most a first train in the world.** -/
theorem Stands.work (stands : Stands issuers st w) (few : issuers ≤ cfg.numTrains) :
    ∃ w', (asyncNetwork cfg mode).Reaches w w' ∧ Stands issuers (st.work p) w' := by
  cases task : st.task p with
  | starting =>
    have legal : (asyncNetwork cfg mode).legal w (.issueInitial p) :=
      lt_of_lt_of_le (stands.starting p task) few
    refine ⟨w.issueInitial p, (Machine.Reaches.refl w).take legal, ?_⟩
    rw [Demo.work_starting task]
    refine stands.act (p := p) _ ?_ rfl rfl rfl ?_ ?_ fun absurd => nomatch absurd
    · rw [← stands.core]
      rfl
    · rw [task]
      rfl
    · rw [← stands.core]
      rfl
  | waiting =>
    refine ⟨w, .refl w, ?_⟩
    rw [Demo.work_waiting task]
    exact stands
  | dispatching outs action outputs interesting =>
    refine ⟨w, .refl w, ?_⟩
    cases outs with
    | cons out outs =>
      obtain ⟨core, tasks, -⟩ := dispatch_rest st p out
      obtain ⟨split, split'⟩ := cons_outs out outs
      rw [Demo.work_dispatching task]
      refine stands.go (p := p) core (congrArg (Function.update · p _) tasks)
        (fun q other => dispatch_log_of_ne other out) ?_ ?_ ?_ fun absurd => nomatch absurd
      · rw [Demo.log, task]
        show (st.dispatch p out).deliveredLogs p ++ deliveries outs =
          st.deliveredLogs p ++ deliveries (out :: outs)
        rw [dispatch_log, split, List.append_assoc]
      · intro t member
        rw [task]
        exact (dispatch_sent member).imp_right fun new =>
          (split' ▸ List.mem_append_left _ new : t ∈ forwards (out :: outs))
      · intro t member
        rw [task]
        exact (split' ▸ List.mem_append_right _ member : t ∈ forwards (out :: outs))
    | nil =>
      have logs : st.deliveredLogs p ++ deliveries [] = st.log p := by
        rw [Demo.log, task]
        rfl
      rw [Demo.work_dispatched task]
      split_ifs
      · exact stands.go (p := p) rfl rfl (fun q other => rfl) logs (fun t old => .inl old)
          (fun t member => absurd member List.not_mem_nil) fun absurd => nomatch absurd
      · exact stands.go (p := p) rfl rfl (fun q other => rfl) logs (fun t old => .inl old)
          (fun t member => absurd member List.not_mem_nil) fun absurd => nomatch absurd
  | emitting rec next =>
    refine ⟨w, .refl w, ?_⟩
    rw [Demo.work_emitting task]
    refine stands.go (p := p) rfl rfl (fun q other => rfl) ?_ (fun t old => .inl old) ?_ ?_
    · rw [Demo.log, task]
      cases next <;> rfl
    · rw [task]
      cases next <;> exact fun t member => member
    · cases next <;> exact fun absurd => nomatch absurd
  | sending train =>
    refine ⟨w, .refl w, ?_⟩
    rw [Demo.work_sending task]
    refine stands.go (p := p) rfl rfl (fun q other => rfl) ?_ ?_ ?_ fun absurd => nomatch absurd
    · rw [Demo.log, task]
      rfl
    · intro t member
      rw [task]
      exact (List.mem_append.mp member).imp_right id
    · exact fun t member => absurd member List.not_mem_nil

/-- **Every run of the tasks is one of the asynchronous network**, of as many issuers as the nodes were
built for. -/
theorem demo_refines (few : issuers ≤ cfg.numTrains) (reachable : (demo cfg mode issuers).Reachable st) :
    ∃ w, (asyncNetwork cfg mode).Reachable w ∧ Stands issuers st w := by
  refine Machine.simulate (R := Stands issuers) ?_ ?_ reachable
  · rintro _ rfl
    exact ⟨World.initial cfg mode, rfl, .initial⟩
  · intro st w action stands legal
    cases action with
    | work p => exact stands.work few
    | broadcast p data =>
      refine ⟨w.broadcast p data, ?_, ?_⟩
      · exact (Machine.Reaches.refl w).take (a := AsyncAction.broadcast p data) trivial
      · obtain ⟨core, logs, sent, leaving, starting⟩ := stands.take legal (.localBroadcast data)
          (.broadcast data.length) fun _ => true
        exact ⟨core, logs, sent, leaving, starting⟩
    | arrive p train =>
      refine ⟨w.receive p train, ?_, ?_⟩
      · exact (Machine.Reaches.refl w).take (a := AsyncAction.receive p train)
          (stands.sent train legal.2)
      · exact stands.take legal.1 (.trainReceived train) (.trainArrived (.ofTrain train)) fun outs =>
          !train.payloads.isEmpty || outsContainDeliveryOrCrash outs
    | tick p =>
      refine ⟨w, .refl w, ?_⟩
      have idle := stands.take legal .tick .tick outsContainDeliveryOrCrash
      rwa [show (w.node p).step .tick = (w.node p, []) from rfl, act_idle] at idle

end Stands

/-! ### The records of one node -/

/-- A record of `p`, in order after the earlier ones of `p`. -/
structure Sound (cfg : RingConfig) (p : Nat) (front : List TraceRecord) (rec : TraceRecord) : Prop where
  node : rec.node = p
  typed : typeOk cfg rec = true
  ok : RecordOk cfg front rec

/-- What the next record will tell is true of what `p` has told so far. -/
def Faithful (cfg : RingConfig) (told : List TraceRecord) : Task → Prop
  | .dispatching _ action outputs interesting =>
    (∀ m ∈ outputs.flatMap TraceOutput.delivered,
      m.key ∈ told.flatMap TraceRecord.trainKeys ++ action.payloadKeys) ∧
    (∀ train, TraceOutput.forward train ∈ outputs → ∀ key ∈ train.payloadKeys, key.1 < cfg.ringSize) ∧
    (interesting = false →
      action.payloadKeys = [] ∧ outputs.flatMap TraceOutput.delivered = [])
  | _ => True

/-- The payloads that some records tell as delivered. -/
def toldLog (told : List TraceRecord) : List PayloadKey :=
  told.flatMap fun rec => rec.outputs.flatMap TraceOutput.delivered

/-- **What the records of a node say of it**: each is in order, its clocks are no newer than the node's,
and they tell the payloads that the node holds and those that it has delivered. -/
structure Recorded (p : Nat) (node : TrainsNode cfg) (log : List Payload) (told : List TraceRecord)
    (task : Task) : Prop where
  sound : ∀ front rec back, told = front ++ rec :: back → Sound cfg p front rec
  clocks : ∀ rec ∈ told, ∀ q, rec.state.seenClk.getD q 0 ≤ node.seenClock q
  parked : node.ParkedIn fun m => m.msgId ∈ told.flatMap TraceRecord.trainKeys ++ task.arriving
  log : log.map PayloadKey.ofPayload = toldLog told ++ task.untold
  task : Faithful cfg told task

section Recorded

variable {p : Nat} {node node' : TrainsNode cfg} {log : List Payload} {told : List TraceRecord}
  {task task' : Task} {rec : TraceRecord}

/-- The records of one node alone have nothing to disagree with. -/
theorem mutualPrefix_alone (alone : ∀ rec ∈ told, rec.node = p) (a b : Nat) :
    MutualPrefix (logOf a told) (logOf b told) := by
  have empty : ∀ q, q ≠ p → logOf q told = [] := by
    intro q other
    have none : ofNode q told = [] := List.filter_eq_nil_iff.mpr fun rec member => by
      simpa [alone rec member] using Ne.symm other
    rw [logOf, none]
    rfl
  by_cases first : a = p
  · by_cases second : b = p
    · rw [first, second]
      exact .inl List.prefix_rfl
    · rw [empty b second]
      exact .inr List.nil_prefix
  · rw [empty a first]
    exact .inl List.nil_prefix

theorem ofNode_alone (alone : ∀ rec ∈ told, rec.node = p) : ofNode p told = told :=
  List.filter_eq_self.mpr fun rec member => decide_eq_true (alone rec member)

theorem Recorded.alone (recorded : Recorded p node log told task) : ∀ rec ∈ told, rec.node = p := by
  intro rec member
  obtain ⟨front, back, split⟩ := List.append_of_mem member
  exact (recorded.sound front rec back split).node

theorem seenClk_ofNode (id : Nat) (node : TrainsNode cfg) (delivered q : Nat) :
    (NodeState.ofNode id node delivered).seenClk.getD q 0 = node.seenClock q := by
  by_cases inside : q < cfg.ringSize
  · have read : ((List.range cfg.ringSize).map node.seenClocks.get).getD q 0 =
        node.seenClocks.get q := by
      simp [List.getD_eq_getElem?_getD, inside]
    exact read.trans (Slots.get_ofFn node.seenClock inside)
  · have unread : ((List.range cfg.ringSize).map node.seenClocks.get).getD q 0 = 0 := by
      simp [List.getD_eq_getElem?_getD, not_lt.mp inside]
    exact unread.trans (Slots.get_outside _ (not_lt.mp inside)).symm

/-- **The task of `p` writes its next record**, which tells what was to be told. -/
theorem Recorded.emit (recorded : Recorded p node log told task) (inside : p < cfg.ringSize)
    (named : rec.node = p) (state : rec.state = .ofNode p node' log.length)
    (seen : ∀ q, node.seenClock q ≤ node'.seenClock q) (parked : node'.parked = node.parked)
    (arriving : ∀ key ∈ task.arriving, key ∈ rec.action.payloadKeys)
    (untold : task.untold = rec.outputs.flatMap TraceOutput.delivered)
    (known : ∀ m ∈ rec.outputs.flatMap TraceOutput.delivered,
      m.key ∈ told.flatMap TraceRecord.trainKeys ++ rec.action.payloadKeys)
    (integrity : ∀ train, TraceOutput.forward train ∈ rec.outputs →
      ∀ key ∈ train.payloadKeys, key.1 < cfg.ringSize) (next : Option Train) :
    Recorded p node' log (told ++ [rec]) (.emitting rec next) := by
  have alone : ∀ r ∈ told ++ [rec], r.node = p := by
    intro r member
    rcases List.mem_append.mp member with old | new
    · exact recorded.alone r old
    · exact List.mem_singleton.mp new ▸ named
  have whole : log.map PayloadKey.ofPayload = toldLog (told ++ [rec]) := by
    rw [recorded.log, untold, toldLog, toldLog, List.flatMap_append]
    simp
  have ok : RecordOk cfg told rec := by
    refine ⟨fun prev last q _ => ?_, fun before output after split m member => ?_, ?_, integrity,
      mutualPrefix_alone alone⟩
    · rw [state, seenClk_ofNode]
      have earlier : prev ∈ told := (List.mem_filter.mp (List.mem_of_getLast? last)).1
      exact (recorded.clocks prev earlier q).trans (seen q)
    · have delivered : m ∈ rec.outputs.flatMap TraceOutput.delivered := by
        rw [split]
        exact List.mem_flatMap.mpr ⟨output, List.mem_append_right _ List.mem_cons_self, member⟩
      rcases List.mem_append.mp (known m delivered) with old | now
      · exact .inl (List.mem_flatMap.mp old)
      · exact .inr (.inl now)
    · rw [state, named, logOf, ofNode_alone alone]
      show log.length = (toldLog (told ++ [rec])).length
      rw [← whole, List.length_map]
  have typed : typeOk cfg rec = true := by
    have length : (NodeState.ofNode p node' log.length).seenClk.length = cfg.ringSize := by
      simp [NodeState.ofNode]
    unfold typeOk
    rw [named, state, if_neg (not_le.mpr inside), if_neg, if_neg (not_not.mpr length)]
    exact not_le.mpr inside
  refine ⟨fun front r back split => ?_, fun r member q => ?_, fun key train found m member => ?_, ?_,
    trivial⟩
  · rcases List.eq_nil_or_concat back with rfl | ⟨rest, last, rfl⟩
    · obtain ⟨rfl, rfl⟩ := List.append_inj' split rfl |>.imp id List.singleton_inj.mp
      exact ⟨named, typed, ok⟩
    · have shape : told ++ [rec] = (front ++ r :: rest) ++ [last] := by simpa using split
      exact recorded.sound front r rest (List.append_inj' shape rfl).1
  · rcases List.mem_append.mp member with old | new
    · exact (recorded.clocks r old q).trans (seen q)
    · rw [List.mem_singleton.mp new, state, seenClk_ofNode]
  · have held := recorded.parked key train (parked ▸ found) m member
    rw [List.flatMap_append]
    refine List.mem_append_left _ ((List.mem_append.mp held).elim
      (fun old => List.mem_append_left _ old) fun now => List.mem_append_right _ ?_)
    rw [List.flatMap_singleton, TraceRecord.trainKeys]
    exact List.mem_append_left _ (arriving _ now)
  · rw [whole]
    exact (List.append_nil _).symm

/-- **The node of `p` takes an input**: its task has something to tell. -/
theorem Recorded.take (recorded : Recorded p node log told .waiting) {outs : List Output}
    {action : TraceAction} {interesting : Bool} (seen : ∀ q, node.seenClock q ≤ node'.seenClock q)
    (parked : node'.ParkedIn fun m =>
      m.msgId ∈ told.flatMap TraceRecord.trainKeys ++ action.payloadKeys)
    (known : ∀ m ∈ deliveries outs,
      m.msgId ∈ told.flatMap TraceRecord.trainKeys ++ action.payloadKeys)
    (integrity : ∀ train ∈ forwards outs, ∀ m ∈ train.payloads, m.sender < cfg.ringSize)
    (dull : interesting = false → action.payloadKeys = [] ∧ deliveries outs = []) :
    Recorded p node' (log ++ deliveries outs) told
      (.dispatching outs action (outs.map .ofOutput) interesting) where
  sound := recorded.sound
  clocks := fun rec member q => (recorded.clocks rec member q).trans (seen q)
  parked := parked
  log := by
    show (log ++ deliveries outs).map PayloadKey.ofPayload =
      toldLog told ++ (outs.map TraceOutput.ofOutput).flatMap TraceOutput.delivered
    rw [List.map_append, recorded.log, delivered_ofOutput, show Task.waiting.untold = [] from rfl,
      List.append_nil]
  task := by
    refine ⟨fun m member => ?_, fun summary member key carried => ?_, fun quiet => ?_⟩
    · rw [delivered_ofOutput] at member
      obtain ⟨payload, delivered, rfl⟩ := List.mem_map.mp member
      exact known payload delivered
    · obtain ⟨train, forwarded, rfl⟩ := mem_forward_ofOutput member
      obtain ⟨payload, aboard, rfl⟩ := List.mem_map.mp carried
      exact integrity train forwarded payload aboard
    · rw [delivered_ofOutput, (dull quiet).2]
      exact ⟨(dull quiet).1, rfl⟩

/-- The task goes on with nothing new to tell. -/
theorem Recorded.go (recorded : Recorded p node log told task)
    (arriving : task.arriving = task'.arriving) (untold : task.untold = task'.untold)
    (faithful : Faithful cfg told task') : Recorded p node log told task' where
  sound := recorded.sound
  clocks := recorded.clocks
  parked := arriving ▸ recorded.parked
  log := untold ▸ recorded.log
  task := faithful

end Recorded

/-! ### Every state -/

/-- Every node is recorded, and the trace has records of nodes of the ring. -/
structure Records (st : Demo cfg) : Prop where
  inside : ∀ rec ∈ st.trace, rec.node < cfg.ringSize
  each : ∀ p : Fin cfg.ringSize, Recorded p.val (st.core p) (st.log p) (st.told p) (st.task p)

section Records

variable {st st' : Demo cfg} {p : Fin cfg.ringSize}

theorem Records.initial : Records (Demo.initial cfg mode issuers) where
  inside := fun rec member => absurd member List.not_mem_nil
  each := fun p => by
    have told : (Demo.initial cfg mode issuers).told p = [] := by
      show [] ++ (if p.val < issuers then Task.starting else .waiting).record = []
      split_ifs <;> rfl
    have log : (Demo.initial cfg mode issuers).log p = [] := by
      show [] ++ deliveries (if p.val < issuers then Task.starting else .waiting).outs = []
      split_ifs <;> rfl
    rw [told, log]
    refine ⟨fun front rec back split => ?_, fun rec member => absurd member List.not_mem_nil,
      fun key train found => ?_, ?_, ?_⟩
    · simp at split
    · exact absurd found (by simp [Demo.initial, World.initial, TrainsNode.new])
    · show [] = [] ++ (if p.val < issuers then Task.starting else .waiting).untold
      split_ifs <;> rfl
    · show Faithful cfg [] (if p.val < issuers then Task.starting else .waiting)
      split_ifs <;> exact trivial

/-- **A step of one task** that adds at most records of its own node to the trace. -/
theorem Records.step (records : Records st) (added : List TraceRecord)
    (core : ∀ q, q ≠ p → st'.core q = st.core q)
    (logs : ∀ q, q ≠ p → st'.deliveredLogs q = st.deliveredLogs q)
    (tasks : ∀ q, q ≠ p → st'.task q = st.task q) (trace : st'.trace = st.trace ++ added)
    (own : ∀ rec ∈ added, rec.node = p)
    (self : Recorded p.val (st'.core p) (st'.log p) (st'.told p) (st'.task p)) : Records st' where
  inside := fun rec member => by
    rw [trace] at member
    rcases List.mem_append.mp member with old | new
    · exact records.inside rec old
    · exact own rec new ▸ p.isLt
  each := fun q => by
    by_cases same : q = p
    · exact same ▸ self
    · have others : ofNode q.val added = [] := List.filter_eq_nil_iff.mpr fun rec member => by
        simpa [own rec member] using fun same' => same (Fin.ext same'.symm)
      have told : st'.told q = st.told q := by
        rw [Demo.told, Demo.told, trace, tasks q same, ofNode, List.filter_append]
        show _ ++ ofNode q.val added ++ _ = _
        rw [others, List.append_nil]
        rfl
      have log : st'.log q = st.log q := by rw [Demo.log, Demo.log, logs q same, tasks q same]
      rw [core q same, log, told, tasks q same]
      exact records.each q

/-- **A record is made** of what the task has to tell, where it has nothing left to deliver. -/
theorem Records.emitTrace (records : Records st) {node' : TrainsNode cfg} {action : TraceAction}
    {outputs : List TraceOutput} (idle : deliveries (st.task p).outs = [])
    (quiet : (st.task p).record = []) (seen : ∀ q, (st.core p).seenClock q ≤ node'.seenClock q)
    (parked : node'.parked = (st.core p).parked)
    (arriving : ∀ key ∈ (st.task p).arriving, key ∈ action.payloadKeys)
    (untold : (st.task p).untold = outputs.flatMap TraceOutput.delivered)
    (known : ∀ m ∈ outputs.flatMap TraceOutput.delivered,
      m.key ∈ (st.told p).flatMap TraceRecord.trainKeys ++ action.payloadKeys)
    (integrity : ∀ train, TraceOutput.forward train ∈ outputs →
      ∀ key ∈ train.payloadKeys, key.1 < cfg.ringSize) (next : Option Train) :
    Records ({ st with core := Function.update st.core p node' }.emitTrace p action outputs next) := by
  let st' := { st with core := Function.update st.core p node' }.emitTrace p action outputs next
  let entry : TraceRecord := ⟨st.traceSeq, p, action, outputs,
    .ofNode p node' (st.deliveredLogs p).length⟩
  have node : st'.core p = node' := Function.update_self ..
  have task : st'.task p = .emitting entry next := by
    show Function.update st.task p _ p = _
    rw [Function.update_self]
    show Task.emitting ⟨_, _, _, _, .ofNode p (Function.update st.core p node' p) _⟩ _ = _
    rw [Function.update_self]
  have before : st.log p = st.deliveredLogs p := by rw [Demo.log, idle, List.append_nil]
  have log : st'.log p = st.log p := by
    rw [before, Demo.log, task, deliveries_next, List.append_nil]
    rfl
  have told : st'.told p = st.told p ++ [entry] := by
    rw [Demo.told, Demo.told, task, quiet, List.append_nil]
    rfl
  refine records.step [] (fun q other => Function.update_of_ne other ..)
    (fun q other => rfl) (fun q other => Function.update_of_ne other ..) (List.append_nil _).symm
    (fun rec member => absurd member List.not_mem_nil) ?_
  show Recorded p.val (st'.core p) (st'.log p) (st'.told p) (st'.task p)
  rw [node, log, told, task]
  exact (records.each p).emit p.isLt rfl (by rw [before]) seen parked arriving untold known integrity
    next

/-- The task of `p` goes on with nothing new to tell; its record may reach the trace. -/
theorem Records.go (records : Records st) {task' : Task} (added : List TraceRecord)
    (core : st'.core = st.core) (tasks : st'.task = Function.update st.task p task')
    (trace : st'.trace = st.trace ++ added) (own : ∀ rec ∈ added, rec.node = p)
    (record : added ++ task'.record = (st.task p).record)
    (logs : ∀ q, q ≠ p → st'.deliveredLogs q = st.deliveredLogs q)
    (log : st'.deliveredLogs p ++ deliveries task'.outs = st.log p)
    (arriving : (st.task p).arriving = task'.arriving) (untold : (st.task p).untold = task'.untold)
    (faithful : Faithful cfg (st.told p) task') : Records st' := by
  have task : st'.task p = task' := by rw [tasks, Function.update_self]
  have told : st'.told p = st.told p := by
    have all : ofNode p.val added = added := ofNode_alone own
    rw [Demo.told, Demo.told, trace, task, ← record, ← List.append_assoc, ofNode, List.filter_append]
    show _ ++ ofNode p.val added ++ _ = _
    rw [all]
    rfl
  refine records.step added (fun q _ => congrFun core q) logs (fun q other => ?_) trace own ?_
  · rw [tasks, Function.update_of_ne other]
  · rw [core, told, Demo.log, task, log]
    exact (records.each p).go arriving untold faithful

/-- **A task that goes on keeps the records.** -/
theorem Records.work (records : Records st) (p : Fin cfg.ringSize) : Records (st.work p) := by
  have self := records.each p
  cases task : st.task p with
  | starting =>
    rw [Demo.work_starting task]
    refine records.emitTrace (by rw [task]; rfl) (by rw [task]; rfl)
      (st.core p).issueNewTrain_evolves.seen rfl (fun key member => ?_) (by rw [task]; rfl)
      (fun m member => absurd member List.not_mem_nil)
      (fun train member => absurd member List.not_mem_nil) _
    rw [task] at member
    exact absurd member List.not_mem_nil
  | waiting =>
    rw [Demo.work_waiting task]
    exact records
  | dispatching outs action outputs interesting =>
    rw [task] at self
    obtain ⟨known, integrity, dull⟩ := self.task
    cases outs with
    | cons out outs =>
      obtain ⟨core, tasks, trace⟩ := dispatch_rest st p out
      rw [Demo.work_dispatching task]
      refine records.go (p := p) [] core (congrArg (Function.update · p _) tasks)
        (trace.trans (List.append_nil _).symm) (fun rec member => absurd member List.not_mem_nil)
        (by rw [task]; rfl) (fun q other => dispatch_log_of_ne other out) ?_ (by rw [task]; rfl)
        (by rw [task]; rfl) self.task
      show (st.dispatch p out).deliveredLogs p ++ deliveries outs = st.log p
      rw [dispatch_log, Demo.log, task, List.append_assoc]
      exact congrArg _ (cons_outs out outs).1.symm
    | nil =>
      rw [Demo.work_dispatched task]
      split_ifs with told
      · have same : { st with core := Function.update st.core p (st.core p) } = st := by
          rw [Function.update_eq_self]
        rw [← same]
        refine records.emitTrace (by rw [task]; rfl) (by rw [task]; rfl) (fun q => le_rfl) rfl
          (fun key member => ?_) (by rw [task]; rfl) known integrity none
        rw [task] at member
        exact member
      · obtain ⟨nothing, silent⟩ := dull (by simpa using told)
        refine records.go (p := p) [] rfl rfl (List.append_nil _).symm
          (fun rec member => absurd member List.not_mem_nil) (by rw [task]; rfl) (fun q other => rfl)
          ?_ ?_ ?_ trivial
        · rw [Demo.log, task]
          rfl
        · rw [task]
          exact nothing
        · rw [task]
          exact silent
  | emitting rec next =>
    have named : rec.node = p :=
      self.alone rec (List.mem_append_right _ (by rw [task]; exact List.mem_singleton_self _))
    rw [Demo.work_emitting task]
    refine records.go (p := p) [rec] rfl rfl rfl
      (fun other member => List.mem_singleton.mp member ▸ named) ?_ (fun q other => rfl) ?_ ?_ ?_ ?_
    · rw [task]
      cases next <;> rfl
    · rw [Demo.log, task]
      cases next <;> rfl
    · rw [task]
      cases next <;> rfl
    · rw [task]
      cases next <;> rfl
    · cases next <;> exact trivial
  | sending train =>
    rw [Demo.work_sending task]
    refine records.go (p := p) [] rfl rfl (List.append_nil _).symm
      (fun rec member => absurd member List.not_mem_nil) (by rw [task]; rfl) (fun q other => rfl) ?_
      (by rw [task]; rfl) (by rw [task]; rfl) trivial
    rw [Demo.log, task]
    rfl

/-- **A task that takes an input keeps the records.** -/
theorem Records.take (records : Records st) (waits : st.task p = .waiting) {input : Input}
    {action : TraceAction} {interesting : List Output → Bool}
    (seen : ∀ q, (st.core p).seenClock q ≤ ((st.core p).step input).1.seenClock q)
    (parked : ((st.core p).step input).1.ParkedIn fun m =>
      m.msgId ∈ (st.told p).flatMap TraceRecord.trainKeys ++ action.payloadKeys)
    (known : ∀ m ∈ deliveries ((st.core p).step input).2,
      m.msgId ∈ (st.told p).flatMap TraceRecord.trainKeys ++ action.payloadKeys)
    (integrity : ∀ train ∈ forwards ((st.core p).step input).2, ∀ m ∈ train.payloads,
      m.sender < cfg.ringSize)
    (dull : interesting ((st.core p).step input).2 = false →
      action.payloadKeys = [] ∧ deliveries ((st.core p).step input).2 = []) :
    Records (st.take p input action interesting) := by
  let stepped := (st.core p).step input
  let st' := st.take p input action interesting
  have self := records.each p
  rw [waits] at self
  have node : st'.core p = stepped.1 := Function.update_self ..
  have task : st'.task p = .dispatching stepped.2 action (stepped.2.map .ofOutput)
      (interesting stepped.2) := Function.update_self ..
  have log : st'.log p = st.log p ++ deliveries stepped.2 := by
    rw [Demo.log, Demo.log, task, waits]
    show _ = (_ ++ []) ++ _
    rw [List.append_nil]
    rfl
  have told : st'.told p = st.told p := by
    rw [Demo.told, Demo.told, task, waits]
    rfl
  refine records.step (p := p) [] (fun q other => Function.update_of_ne other ..)
    (fun q other => rfl) (fun q other => Function.update_of_ne other ..) (List.append_nil _).symm
    (fun rec member => absurd member List.not_mem_nil) ?_
  show Recorded p.val (st'.core p) (st'.log p) (st'.told p) (st'.task p)
  rw [node, log, told, task]
  exact self.take seen parked known integrity dull

theorem Records.broadcast (records : Records st) (waits : st.task p = .waiting) (data : List UInt8) :
    Records (st.broadcast p data) := by
  obtain ⟨⟨silent, quiet⟩, clocks, -, parked, -⟩ := (st.core p).handleBroadcast_keeps data
  have self := records.each p
  rw [waits] at self
  refine records.take waits (fun q => ?_) (fun key train found => ?_) (fun m member => ?_)
    (fun train member => ?_) (fun loud => absurd loud (by simp))
  · exact (congrArg (ClockState.lastSeen · q) clocks).ge
  · exact self.parked key train (parked ▸ found)
  · exact absurd (quiet ▸ member : m ∈ []) List.not_mem_nil
  · exact absurd (silent ▸ member : train ∈ []) List.not_mem_nil

/-- **A train arrives**: what the node delivers or keeps of it has been told, or is told next. -/
theorem Records.arrive (records : Records st) (waits : st.task p = .waiting) {train : Train}
    (inside : train.issuer < cfg.ringSize)
    (integrity : ∀ out ∈ forwards ((st.core p).handleTrain train).2, ∀ m ∈ out.payloads,
      m.sender < cfg.ringSize) : Records (st.arrive p train) := by
  obtain ⟨delivered, forwarded, handled, emits⟩ := (st.core p).handleTrain_spec train
  have self := records.each p
  rw [waits] at self
  have before : (st.core p).ParkedIn fun m => m.msgId ∈
      (st.told p).flatMap TraceRecord.trainKeys ++ (TrainSummary.ofTrain train).payloadKeys := by
    intro key held found m aboard
    have old := self.parked key held found m aboard
    rw [show Task.waiting.arriving = [] from rfl, List.append_nil] at old
    exact List.mem_append_left _ old
  obtain ⟨parked, known⟩ := handled.parkedIn before fun m aboard =>
    List.mem_append_right _ (List.mem_map_of_mem aboard)
  refine records.take waits (handled.traffic inside).2.1.seen parked (fun m member => ?_) integrity
    fun dull => ?_
  · obtain ⟨entry, among, content⟩ := List.mem_flatMap.mp (emits.1 ▸ member)
    exact known entry among m (mem_sortPayloads.mp content)
  · obtain ⟨empty, quiet⟩ := Bool.or_eq_false_iff.mp dull
    have none : train.payloads = [] := by simpa using empty
    refine ⟨?_, deliveries_uninteresting quiet⟩
    show train.payloads.map Payload.msgId = []
    rw [none]
    rfl

theorem Records.tick (records : Records st) (waits : st.task p = .waiting) : Records (st.tick p) := by
  have self := records.each p
  rw [waits] at self
  exact records.take waits (fun q => le_rfl) self.parked (fun m member => absurd member List.not_mem_nil)
    (fun train member => absurd member List.not_mem_nil) fun _ => ⟨rfl, rfl⟩

/-- **In every state the nodes are recorded.** -/
theorem records_reachable (few : issuers ≤ cfg.numTrains)
    (reachable : (demo cfg mode issuers).Reachable st) : Records st := by
  refine (Machine.invariant (P := fun st => (demo cfg mode issuers).Reachable st ∧ Records st) ?_ ?_
    reachable).2
  · rintro _ rfl
    exact ⟨.start rfl, .initial⟩
  rintro st action ⟨reachable, records⟩ legal
  have after := reachable.take legal
  refine ⟨after, ?_⟩
  cases action with
  | work p => exact records.work p
  | broadcast p data => exact records.broadcast legal data
  | arrive p train =>
    obtain ⟨w, reached, stands⟩ := demo_refines few reachable
    obtain ⟨w', reached', stands'⟩ := demo_refines few after
    obtain ⟨entries, -, coherent⟩ := asyncInvariant_reachable reached
    obtain ⟨entries', custody, -⟩ := asyncInvariant_reachable reached'
    have issuer := coherent.ledger.issuers train (stands.sent train legal.2)
    refine records.arrive legal.1 (lt_of_lt_of_le issuer cfg.trains_le) fun out sent m aboard => ?_
    have task : ((st.arrive p train).task p).outs = ((st.core p).handleTrain train).2 := by
      show (Function.update st.task p _ p).outs = _
      rw [Function.update_self]
      rfl
    obtain ⟨q, taken⟩ := custody.carried out (stands'.leaving p out (task ▸ sent)) m aboard
    exact (custody.own q m taken).1 ▸ q.isLt
  | tick p => exact records.tick legal

end Records

/-! ### The trace -/

theorem ofNode_ofNode (node : Nat) (records : List TraceRecord) :
    ofNode node (ofNode node records) = ofNode node records :=
  ofNode_alone fun _ member => of_decide_eq_true (List.mem_filter.mp member).2

/-- **A record in order among those of its node is in order in the trace**, where the logs agree. -/
theorem RecordOk.widen {seen : List TraceRecord} {rec : TraceRecord}
    (ok : RecordOk cfg (ofNode rec.node seen) rec)
    (consistent : ∀ p q, MutualPrefix (logOf p (seen ++ [rec])) (logOf q (seen ++ [rec]))) :
    RecordOk cfg seen rec where
  clock_monotonicity := fun prev last => ok.clock_monotonicity prev (by rwa [ofNode_ofNode])
  no_spurious_delivery := fun before output after split m member =>
    (ok.no_spurious_delivery before output after split m member).imp_left
      fun ⟨earlier, inside, known⟩ => ⟨earlier, (List.mem_filter.mp inside).1, known⟩
  delivered_len := by
    rw [ok.delivered_len, logOf, logOf, ofNode_snoc, ofNode_snoc, ofNode_ofNode]
  train_integrity := ok.train_integrity
  consistent_delivery := consistent

section Trace

variable {st : Demo cfg}

/-- The trace tells of no node more than it has delivered. -/
theorem logOf_told (records : Records st) (p : Fin cfg.ringSize) {front back : List TraceRecord}
    (split : st.trace = front ++ back) :
    logOf p front <+: (st.log p).map PayloadKey.ofPayload := by
  refine List.IsPrefix.trans ?_ ((records.each p).log ▸ List.prefix_append _ _)
  unfold logOf toldLog Demo.told
  rw [split, ofNode, ofNode, List.filter_append, List.append_assoc, List.flatMap_append]
  exact List.prefix_append _ _

theorem logOf_outside (records : Records st) {q : Nat} (outside : cfg.ringSize ≤ q)
    {front back : List TraceRecord} (split : st.trace = front ++ back) : logOf q front = [] := by
  have none : ofNode q front = [] := List.filter_eq_nil_iff.mpr fun rec member => by
    have inside := records.inside rec (split ▸ List.mem_append_left _ member)
    simpa using by omega
  rw [logOf, none]
  rfl

/-- **Any part of the trace is consistent**: it tells of each node a prefix of what it has delivered. -/
theorem trace_consistent (few : issuers ≤ cfg.numTrains)
    (reachable : (demo cfg mode issuers).Reachable st) {front back : List TraceRecord}
    (split : st.trace = front ++ back) (p q : Nat) : MutualPrefix (logOf p front) (logOf q front) := by
  have records := records_reachable few reachable
  obtain ⟨w, reached, stands⟩ := demo_refines few reachable
  by_cases first : p < cfg.ringSize
  swap
  · rw [logOf_outside records (not_lt.mp first) split]
    exact .inl List.nil_prefix
  by_cases second : q < cfg.ringSize
  swap
  · rw [logOf_outside records (not_lt.mp second) split]
    exact .inr List.nil_prefix
  have left := logOf_told records ⟨p, first⟩ split
  have right := logOf_told records ⟨q, second⟩ split
  rcases consistent_delivery reached ⟨p, first⟩ ⟨q, second⟩ with below | above
  · rw [stands.logs, stands.logs] at below
    exact List.prefix_or_prefix_of_prefix (left.trans (below.map _)) right
  · rw [stands.logs, stands.logs] at above
    exact List.prefix_or_prefix_of_prefix left (right.trans (above.map _))

/-- One direction of the report's comparison. -/
theorem front_reported {a b : List Payload} (below : a <+: b) :
    (a.length ≤ b.length && (a.zip b).all fun pair => pair.1 = pair.2) = true := by
  obtain ⟨rest, rfl⟩ := below
  induction a with
  | nil => simp
  | cons m a ih => simpa using ih

/-- **The report finds the logs consistent**, those parts of them that have been dispatched. -/
theorem report_consistent (few : issuers ≤ cfg.numTrains)
    (reachable : (demo cfg mode issuers).Reachable st) : st.consistent = true := by
  obtain ⟨w, reached, stands⟩ := demo_refines few reachable
  refine List.all_eq_true.mpr fun p _ => List.all_eq_true.mpr fun q _ => ?_
  have left : st.deliveredLogs p <+: w.log p := stands.logs p ▸ List.prefix_append _ _
  have right : st.deliveredLogs q <+: w.log q := stands.logs q ▸ List.prefix_append _ _
  refine Bool.or_eq_true_iff.mpr (Or.imp front_reported front_reported ?_)
  rcases consistent_delivery reached p q with below | above
  · exact List.prefix_or_prefix_of_prefix (left.trans below) right
  · exact List.prefix_or_prefix_of_prefix left (right.trans above)

/-- **No false alarm.** Wherever a run of the tasks is cut off, the validator finds no violation in its
trace, and the report finds the logs consistent. -/
theorem trace_clean (few : issuers ≤ cfg.numTrains) (reachable : (demo cfg mode issuers).Reachable st)
    (order : HashOrder) :
    (validate cfg order st.trace).violations = [] ∧ st.consistent = true := by
  have records := records_reachable few reachable
  have sound : ∀ front rec back, st.trace = front ++ rec :: back →
      Sound cfg rec.node (ofNode rec.node front) rec := by
    intro front rec back split
    have inside := records.inside rec (split ▸ List.mem_append_right _ List.mem_cons_self)
    have told : st.told ⟨rec.node, inside⟩ = ofNode rec.node front ++ rec ::
        (ofNode rec.node back ++ (st.task ⟨rec.node, inside⟩).record) := by
      unfold Demo.told
      rw [split]
      simp [ofNode]
    exact (records.each ⟨rec.node, inside⟩).sound _ _ _ told
  refine ⟨(validator_exact order fun rec member => ?_).mpr fun front rec back split => ?_, ?_⟩
  · obtain ⟨front, back, split⟩ := List.append_of_mem member
    exact (sound front rec back split).typed
  · refine (sound front rec back split).ok.widen ?_
    have split' : st.trace = (front ++ [rec]) ++ back := by rw [split, List.append_assoc]; rfl
    exact trace_consistent few reachable split'
  · exact report_consistent few reachable

/-- Node `1` loads a payload on the first train, which delivers it at both nodes; the record of node `1`
is in the trace before that of node `0`, which has delivered first. -/
def overtakingRun : List (DemoAction .pair) :=
  [.work 0, .work 0, .work 0, .broadcast 1 [7], .work 1, .work 1,
    .arrive 1 ⟨0, 1, [], 1#32⟩, .work 1, .work 1,
    .arrive 0 ⟨0, 1, [⟨1, 0, [7]⟩], 3#32⟩, .work 0, .work 0,
    .arrive 1 ⟨0, 1, [⟨1, 0, [7]⟩], 3#32⟩, .work 1, .work 1, .work 1, .work 1]

/-- The tasks after that run. -/
def overtaken : Demo .pair :=
  (demo .pair .uniformTotalOrder 1).run (Demo.initial .pair .uniformTotalOrder 1) overtakingRun

theorem trace_clean_pair :
    (overtaken.trace.map TraceRecord.node = [0, 1, 1] ∧
      overtaken.deliveredLogs 0 = [⟨1, 0, [7]⟩] ∧ logOf 0 overtaken.trace = [] ∧
      logOf 1 overtaken.trace = [⟨1, 0⟩]) ∧
    (validate .pair .sorted overtaken.trace).violations = [] ∧ overtaken.consistent = true := by
  have reachable : (demo .pair .uniformTotalOrder 1).Reachable overtaken :=
    Machine.reachable_run rfl (by decide +kernel)
  exact ⟨by decide +kernel, trace_clean (by decide) reachable .sorted⟩

end Trace

end Trace

end TrainsRing
