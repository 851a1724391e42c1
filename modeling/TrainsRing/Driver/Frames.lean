/-
**What a node must send.**

A node loads everything pending on the next train, and a Gather token collects every survivor's report.
The frame limit is checked when the message is written.

* `Station` — a node and its view-change machine.
* `StationEvent.Roomy` — the step leaves room: the train it loads and the token it adds its report to
  keep the limit.
* `encodable_sends_iff` — **one step sends messages with frames iff it is roomy.**
* `oversized_train` — a broadcast that fits no frame.
* `sent_encodable_iff` — **a run sends messages with frames only, iff all its steps are roomy.**
-/

import TrainsRing.Driver.Codec

namespace TrainsRing

variable {cfg : RingConfig}

/-- A node and its view-change machine. -/
structure Station (cfg : RingConfig) where
  node : TrainsNode cfg
  vc : ViewChange

/-- What a station takes: a broadcast, a train, the crash of a peer or a Gather token. -/
inductive StationEvent (cfg : RingConfig) where
  | broadcast (data : List UInt8)
  | receive (train : Train)
  | confirm (victim : Nat)
  | gather (viewId coordinator victim : Nat) (reports : List (Nat × RecoveryReport cfg))

/-- The Gather tokens sent by some actions. -/
def gathers (actions : List (VcAction cfg)) : List (WireMsg cfg) :=
  actions.filterMap fun
    | .send (.gather viewId coordinator victim reports) =>
      some (.viewChange (.gather viewId coordinator victim reports))
    | _ => none

namespace StationEvent

/-- A train or token comes in a frame. -/
def Arrives (bincode : Bincode cfg) (limit : FrameLimit) : StationEvent cfg → Prop
  | .broadcast _ => True
  | .receive train => Encodable bincode limit (.train train : WireMsg cfg)
  | .confirm _ => True
  | .gather viewId coordinator victim reports =>
    Encodable bincode limit (.viewChange (.gather viewId coordinator victim reports))

instance (bincode : Bincode cfg) (limit : FrameLimit) (event : StationEvent cfg) :
    Decidable (event.Arrives bincode limit) := by
  unfold Arrives
  split <;> infer_instance

/-- The station after an event, with the trains and Gather tokens it sends. -/
def run (st : Station cfg) : StationEvent cfg → Station cfg × List (WireMsg cfg)
  | .broadcast data => ({ st with node := (st.node.step (.localBroadcast data)).1 }, [])
  | .receive train =>
    ({ st with node := (st.node.step (.trainReceived train)).1 },
      (forwards (st.node.step (.trainReceived train)).2).map .train)
  | .confirm victim =>
    ({ st with vc := (st.vc.onConfirm victim st.node.recoveryReport).1 },
      gathers (st.vc.onConfirm victim st.node.recoveryReport).2)
  | .gather viewId coordinator victim reports =>
    let result := st.vc.onGather (.gather viewId coordinator victim reports) st.node.recoveryReport
    ({ st with vc := result.1 }, gathers result.2)

/-- The node loads its pending payloads on a train: a new one of its own when this one is done, or a
train it sees for the first time. Header, payloads and pending payloads keep the limit. -/
def LoadFits (bincode : Bincode cfg) (limit : FrameLimit) (node : TrainsNode cfg) (train : Train) : Prop :=
  if node.Stale train then True
  else if train.issuer = node.id then
    train.key ∈ node.delivery.doneKeys →
      bincode.trainHead node.id node.nextIssueClock node.pending.length (0#32 ||| 1#32 <<< node.id) +
        bincode.payloadBytes node.pending ≤ limit.maxFrameLen
  else ¬ node.Replay train →
    bincode.trainHead train.issuer train.clock (train.payloads.length + node.pending.length)
        (train.ackBits ||| 1#32 <<< node.id) +
      (bincode.payloadBytes train.payloads + bincode.payloadBytes node.pending) ≤ limit.maxFrameLen

instance (bincode : Bincode cfg) (limit : FrameLimit) (node : TrainsNode cfg) (train : Train) :
    Decidable (LoadFits bincode limit node train) := by
  unfold LoadFits
  infer_instance

/-- The token still travels when the node has added its report. -/
def Travels (vc : ViewChange) (coordinator victim : Nat)
    (reports : List (Nat × RecoveryReport cfg)) : Prop :=
  vc.me = coordinator → ∃ p ∈ (vc.learn victim).alive, p ≠ vc.me ∧ ∀ entry ∈ reports, entry.1 ≠ p

/-- What the event makes the station send keeps the limit. -/
def Roomy (bincode : Bincode cfg) (limit : FrameLimit) (st : Station cfg) : StationEvent cfg → Prop
  | .broadcast _ => True
  | .receive train => LoadFits bincode limit st.node train
  | .confirm victim => victim ∉ st.vc.dead →
    bincode.gatherHead (st.vc.installedView + 1) (st.vc.learn victim).coordinator victim 1 +
      bincode.reportBytes [(st.vc.me, st.node.recoveryReport)] ≤ limit.maxFrameLen
  | .gather viewId coordinator victim reports =>
    st.vc.installedView < viewId → Travels st.vc coordinator victim reports →
      (∀ entry ∈ reports, entry.1 ≠ st.vc.me) →
      bincode.gatherHead viewId coordinator victim (reports.length + 1) +
        (bincode.reportBytes reports + bincode.reportBytes [(st.vc.me, st.node.recoveryReport)]) ≤
      limit.maxFrameLen

end StationEvent

/-! ### One step -/

namespace StationEvent

variable {bincode : Bincode cfg} {limit : FrameLimit}

/-- **The trains a step sends**: the one received, which came in a frame, or one that is loaded. -/
theorem encodable_forwards_iff (node : TrainsNode cfg) {train : Train}
    (arrives : Encodable bincode limit (.train train : WireMsg cfg)) :
    (∀ out ∈ forwards (node.handleTrain train).2, Encodable bincode limit (.train out : WireMsg cfg)) ↔
      LoadFits bincode limit node train := by
  obtain ⟨delivered, forwarded, handled, emits⟩ := node.handleTrain_spec train
  rw [emits.2]
  unfold LoadFits
  generalize (node.handleTrain train).1 = after at handled
  cases handled with
  | absorbed stale =>
    rw [if_pos stale]
    exact iff_of_true (fun out none => absurd none List.not_mem_nil) trivial
  | visited fresh foreign new run settled =>
    rw [if_neg fresh, if_neg foreign, List.forall_mem_singleton, encodable_iff, Bincode.body_train]
    show bincode.trainHead train.issuer train.clock (train.payloads ++ node.pending).length
      (train.ackBits ||| 1#32 <<< node.id) +
        bincode.payloadBytes (train.payloads ++ node.pending) ≤ _ ↔ _
    rw [Bincode.payloadBytes_append, List.length_append]
    exact ⟨fun fits _ => fits, fun fits => fits new⟩
  | replayed fresh foreign old tried run settled =>
    rw [if_neg fresh, if_neg foreign, List.forall_mem_singleton]
    exact iff_of_true arrives fun new => absurd old new
  | recycled fresh own done =>
    rw [if_neg fresh, if_pos own, List.forall_mem_singleton, encodable_iff, Bincode.body_train]
    exact ⟨fun fits _ => fits, fun fits => fits done⟩
  | returned fresh own undone tried run settled =>
    rw [if_neg fresh, if_pos own, List.forall_mem_singleton]
    exact iff_of_true arrives fun done => absurd done undone

/-- The token goes on iff it travels. -/
theorem travels_iff (vc : ViewChange) (coordinator victim : Nat)
    (reports : List (Nat × RecoveryReport cfg)) (report : RecoveryReport cfg) :
    Travels vc coordinator victim reports ↔ ¬ (vc.me = coordinator ∧
      ViewChange.reported (vc.learn victim).alive
        (ViewChange.addReport reports vc.me report) = true) := by
  rw [vc.reported_addReport]
  unfold Travels
  simp only [List.mem_map, not_and, not_forall, not_or, not_exists, exists_prop]
  grind

/-- A token goes on with this node's report, unless it is stale or complete at its coordinator. -/
theorem gathers_onGather (vc : ViewChange) (viewId coordinator victim : Nat)
    (reports : List (Nat × RecoveryReport cfg)) (report : RecoveryReport cfg) :
    gathers (vc.onGather (.gather viewId coordinator victim reports) report).2 =
      if viewId ≤ vc.installedView ∨ vc.me = coordinator ∧
        ViewChange.reported (vc.learn victim).alive (ViewChange.addReport reports vc.me report) = true
      then [] else
        [.viewChange (.gather viewId coordinator victim
          (ViewChange.addReport reports vc.me report))] := by
  simp only [ViewChange.onGather]
  by_cases stale : viewId ≤ vc.installedView
  · rw [if_pos stale, if_pos (Or.inl stale)]
    rfl
  by_cases complete : vc.me = coordinator ∧
      ViewChange.reported (vc.learn victim).alive (ViewChange.addReport reports vc.me report) = true
  · rw [if_neg stale, if_pos complete.1, if_pos complete.2, if_pos (Or.inr complete)]
    rfl
  · rw [if_neg stale, if_neg (not_or.mpr ⟨stale, complete⟩)]
    split_ifs with home done
    · exact absurd ⟨home, done⟩ complete
    · rfl
    · rfl

/-- **The tokens a step passes on**: with the reports received, in which the token came in a frame, or
with one more. -/
theorem encodable_gathers_iff (st : Station cfg) {viewId coordinator victim : Nat}
    {reports : List (Nat × RecoveryReport cfg)}
    (arrives : Encodable bincode limit (.viewChange (.gather viewId coordinator victim reports))) :
    (∀ out ∈ gathers (st.vc.onGather (.gather viewId coordinator victim reports)
        st.node.recoveryReport).2, Encodable bincode limit out) ↔
      Roomy bincode limit st (.gather viewId coordinator victim reports) := by
  rw [gathers_onGather]
  simp only [Roomy, travels_iff st.vc coordinator victim reports st.node.recoveryReport]
  split_ifs with ends
  · refine iff_of_true (fun out none => absurd none List.not_mem_nil) fun fresh travels => ?_
    exact absurd ends (not_or.mpr ⟨not_le.mpr fresh, travels⟩)
  · obtain ⟨fresh, travels⟩ := not_or.mp ends
    have onward : ∀ {fits : Prop}, (viewId ≤ st.vc.installedView → False) →
        ((st.vc.installedView < viewId → ¬ (st.vc.me = coordinator ∧ ViewChange.reported
          (st.vc.learn victim).alive (ViewChange.addReport reports st.vc.me st.node.recoveryReport) =
            true) → fits) ↔ fits) := fun _ =>
      ⟨fun all => all (not_le.mp fresh) travels, fun holds _ _ => holds⟩
    rw [onward fresh, List.forall_mem_singleton]
    unfold ViewChange.addReport
    by_cases present : (reports.any fun entry => entry.1 = st.vc.me) = true
    · rw [if_pos present]
      refine iff_of_true arrives fun absent => ?_
      obtain ⟨entry, member, same⟩ := List.any_eq_true.mp present
      exact absurd (of_decide_eq_true same) (absent entry member)
    · have absent : ∀ entry ∈ reports, entry.1 ≠ st.vc.me := fun entry member same =>
        present (List.any_eq_true.mpr ⟨entry, member, decide_eq_true same⟩)
      rw [if_neg present, encodable_iff, Bincode.body_gather, List.length_append,
        Bincode.reportBytes_append]
      exact ⟨fun fits _ => fits, fun fits => fits absent⟩

/-- **One step sends messages with frames iff it is roomy.** -/
theorem encodable_sends_iff (st : Station cfg) {event : StationEvent cfg}
    (arrives : event.Arrives bincode limit) :
    (∀ out ∈ (event.run st).2, Encodable bincode limit out) ↔ event.Roomy bincode limit st := by
  cases event with
  | broadcast data => exact iff_of_true (fun out none => absurd none List.not_mem_nil) trivial
  | receive train =>
    refine Iff.trans ?_ (encodable_forwards_iff st.node arrives)
    exact List.forall_mem_map
  | confirm victim =>
    show (∀ out ∈ gathers (st.vc.onConfirm victim st.node.recoveryReport).2, _) ↔ (_ → _)
    rcases st.vc.onConfirm_cases victim st.node.recoveryReport with ⟨known, same⟩ | ⟨fresh, same⟩
    · rw [same]
      exact iff_of_true (fun out none => absurd none List.not_mem_nil) fun new => absurd known new
    · rw [same]
      refine (List.forall_mem_singleton (p := fun out => Encodable bincode limit out)).trans ?_
      rw [encodable_iff, Bincode.body_gather]
      exact ⟨fun fits _ => fits, fun fits => fits fresh⟩
  | gather viewId coordinator victim reports => exact encodable_gathers_iff st arrives

end StationEvent

/-! ### Runs -/

namespace Station

/-- The trains and Gather tokens sent in a run. -/
def sent : Station cfg → List (StationEvent cfg) → List (WireMsg cfg)
  | _, [] => []
  | st, event :: rest => (event.run st).2 ++ sent (event.run st).1 rest

/-- Every step of a run is roomy when its turn comes. -/
def Roomy (bincode : Bincode cfg) (limit : FrameLimit) : Station cfg → List (StationEvent cfg) → Prop
  | _, [] => True
  | st, event :: rest => event.Roomy bincode limit st ∧ Roomy bincode limit (event.run st).1 rest

/-- The station of node `id` as constructed. -/
def new (cfg : RingConfig) (id : Nat) (id_lt : id < cfg.ringSize) (mode : DeliveryMode) :
    Station cfg := ⟨TrainsNode.new cfg id id_lt mode, ViewChange.new id cfg.ringSize⟩

end Station

/-- Node 2 takes a broadcast and then the first train of node 0. -/
def burst (data : List UInt8) : List (StationEvent .triple) :=
  [.broadcast data, .receive ⟨0, 1, [], 1#32⟩]

/-- The train leaves with the broadcast, whatever its size. -/
theorem sent_burst (data : List UInt8) :
    (Station.new .triple 2 (by decide) .uniformTotalOrder).sent (burst data) =
      [.train ⟨0, 1, [⟨2, 0, data⟩], 5#32⟩] := by with_unfolding_all rfl

/-- A broadcast of more than the limit goes on a train that fits no frame. -/
theorem oversized_train : ¬ ∀ (cfg : RingConfig) (bincode : Bincode cfg) (limit : FrameLimit) (id : Nat)
    (id_lt : id < cfg.ringSize) (mode : DeliveryMode) (events : List (StationEvent cfg)),
    bincode.Whole → (∀ event ∈ events, event.Arrives bincode limit) →
      ∀ out ∈ (Station.new cfg id id_lt mode).sent events, Encodable bincode limit out := by
  intro holds
  let data : List UInt8 := List.replicate (16 * 1024 * 1024 + 1) 0
  have fits := holds .triple (.standard .triple) .default 2 (by decide) .uniformTotalOrder (burst data)
    (Bincode.whole_standard .triple) (List.forall_mem_cons.mpr ⟨trivial, by decide +kernel⟩) _
    (by rw [sent_burst]; exact List.mem_singleton_self _)
  rw [encodable_iff, Bincode.body_train] at fits
  have carried : data.length ≤ (Bincode.standard .triple).payloadBytes [⟨2, 0, data⟩] :=
    (Bincode.whole_standard .triple).data_le (List.mem_singleton_self (⟨2, 0, data⟩ : Payload))
  have size : data.length = 16 * 1024 * 1024 + 1 := List.length_replicate
  have limit : FrameLimit.default.maxFrameLen = 16 * 1024 * 1024 := rfl
  have small : (Bincode.standard .triple).payloadBytes [⟨2, 0, data⟩] ≤ FrameLimit.default.maxFrameLen :=
    (Nat.le_add_left _ _).trans fits
  omega

/-- **A run sends messages with frames only, iff all its steps are roomy.** -/
theorem sent_encodable_iff {bincode : Bincode cfg} {limit : FrameLimit}
    (events : List (StationEvent cfg)) : ∀ (st : Station cfg),
    (∀ event ∈ events, event.Arrives bincode limit) →
      ((∀ out ∈ st.sent events, Encodable bincode limit out) ↔ st.Roomy bincode limit events) := by
  induction events with
  | nil => exact fun st _ => iff_of_true (fun out none => absurd none List.not_mem_nil) trivial
  | cons event rest ih =>
    intro st arrives
    obtain ⟨now, later⟩ := List.forall_mem_cons.mp arrives
    show (∀ out ∈ (event.run st).2 ++ (event.run st).1.sent rest, _) ↔ _
    rw [List.forall_mem_append, StationEvent.encodable_sends_iff st now, ih (event.run st).1 later]
    rfl

/-- A small broadcast fits. -/
theorem sent_encodable_iff_triple :
    (Station.new .triple 2 (by decide) .uniformTotalOrder).sent (burst [1, 2]) =
        [.train ⟨0, 1, [⟨2, 0, [1, 2]⟩], 5#32⟩] ∧
      Encodable (.standard .triple) .default
        (.train ⟨0, 1, [⟨2, 0, [1, 2]⟩], 5#32⟩ : WireMsg .triple) := by
  have fits := (@sent_encodable_iff .triple (.standard .triple) .default (burst [1, 2])
    (.new .triple 2 (by decide) .uniformTotalOrder)
    (List.forall_mem_cons.mpr ⟨trivial, by decide +kernel⟩)).mpr
    ⟨trivial, by show StationEvent.LoadFits _ _ _ _; decide +kernel, trivial⟩
  refine ⟨sent_burst [1, 2], fits _ ?_⟩
  rw [sent_burst]
  exact List.mem_singleton_self _

end TrainsRing
