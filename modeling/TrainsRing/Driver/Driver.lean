/-
**The driver of a node** (`trains-cli/src/node.rs`, `trains-recovery/src/failure_detector.rs`).

The driver feeds its node with what comes in from the link, the application and the clock, sends what
the node gives out, and runs the view change. Panics are modelled as in `Checked`.

* `FailureDetector` — strikes against a process, cleared when one of its trains arrives.
* `Driver` — the node, its failure detector and view-change machine, the peers excluded and the
  successor on the ring.
* `Driver.handle` — **one turn of the event loop**.
* `driverLife` — the runs of a driver that has not panicked.
-/

import TrainsRing.Driver.Checked
import TrainsRing.Library.Cycle
import TrainsRing.Library.Machine
import TrainsRing.Membership.ViewChange

namespace TrainsRing

variable {cfg : RingConfig}

/-! ### The failure detector -/

/-- Accrual of crash suspicion per process. -/
structure FailureDetector where
  strikes : OrdMap Nat Nat
  threshold : Nat
  disconnectWeight : Nat
  confirmed : Finset Nat

namespace FailureDetector

/-- `FailureDetector::new`. -/
def new (threshold disconnectWeight : Nat) : FailureDetector :=
  ⟨OrdMap.empty, threshold, disconnectWeight, ∅⟩

/-- `add_strikes`; the count is a saturating `u32`. -/
def addStrikes (detector : FailureDetector) (victim n : Nat) : FailureDetector × Option Nat :=
  if victim ∈ detector.confirmed then (detector, none)
  else
    let count := min ((detector.strikes.get? victim).getD 0 + n) (2 ^ 32 - 1)
    if detector.threshold ≤ count then
      ({ detector with
          strikes := detector.strikes.erase victim
          confirmed := insert victim detector.confirmed }, some victim)
    else ({ detector with strikes := detector.strikes.insert victim count }, none)

/-- `record_gap_hint`. -/
def recordGapHint (detector : FailureDetector) (victim : Nat) : FailureDetector × Option Nat :=
  detector.addStrikes victim 1

/-- `record_disconnect`. -/
def recordDisconnect (detector : FailureDetector) (victim : Nat) : FailureDetector × Option Nat :=
  detector.addStrikes victim detector.disconnectWeight

/-- `note_alive`. -/
def noteAlive (detector : FailureDetector) (p : Nat) : FailureDetector :=
  if p ∈ detector.confirmed then detector
  else { detector with strikes := detector.strikes.erase p }

end FailureDetector

/-- `STRIKE_THRESHOLD`, which is also `DISCONNECT_WEIGHT`. -/
def strikeThreshold : Nat := 3

/-! ### The driver -/

/-- What travels on a link of the ring. -/
inductive WireMsg (cfg : RingConfig) where
  | train (train : Train)
  | viewChange (msg : ViewChangeMsg cfg)

/-- What a driver does to the outside. -/
inductive Effect (cfg : RingConfig) where
  | forward (train : Train)
  | token (msg : ViewChangeMsg cfg)
  | retarget (succ : Nat)
  | show (payloads : List Payload)

/-- The state of the event loop. -/
structure Driver (cfg : RingConfig) where
  core : TrainsNode cfg
  detector : FailureDetector
  vc : ViewChange
  /-- The peers this node has excluded. -/
  dead : Finset Nat
  /-- The peer this node sends to. -/
  succ : Nat
  /-- The addresses of all peers are known, so a view change can re-form the ring. -/
  reconfig : Bool

/-- What the event loop waits for. -/
inductive DriverEvent (cfg : RingConfig) where
  | line (data : List UInt8)
  | received (msg : WireMsg cfg)
  | unreachable (victim : Nat)
  | tick

/-- The increment of the view id in `on_confirm`. -/
def ViewChange.onConfirmChecked (vc : ViewChange) (victim : Nat) (report : RecoveryReport cfg) :
    Except Panic (ViewChange × List (VcAction cfg)) :=
  if victim ∈ vc.dead then return (vc, [])
  else do
    let _ ← increment vc.installedView
    return vc.onConfirm victim report

namespace Driver

/-- The state of the event loop before its first turn; an issuer may have sent its initial train. -/
def launch (id : Nat) (id_lt : id < cfg.ringSize) (mode : DeliveryMode) (reconfig issues : Bool) :
    Driver cfg where
  core := if issues then (TrainsNode.new cfg id id_lt mode).issueInitialTrain.1
    else TrainsNode.new cfg id id_lt mode
  detector := FailureDetector.new strikeThreshold strikeThreshold
  vc := ViewChange.new id cfg.ringSize
  dead := ∅
  succ := (id + 1) % cfg.ringSize
  reconfig := reconfig

/-- The outputs of a recovery drain that are shown to the application. -/
def showRecovery (outputs : List Output) : List (Effect cfg) :=
  outputs.filterMap fun
    | .deliver payloads => some (.show payloads)
    | _ => none

/-- `exclude`: freeze delivery, confirm the crash, retarget past the victim. The outputs of
`confirm_crash` are dropped. -/
def exclude (d : Driver cfg) (victim : Nat) : Except Panic (Driver cfg × List (Effect cfg)) :=
  if victim ∈ d.dead then return (d, [])
  else do
    let confirmed ← (d.core.setFrozen true).confirmCrashChecked victim
    let dead := insert victim d.dead
    let next := nextAlive cfg.ringSize dead d.core.id
    if next ≠ d.succ then
      -- `addrs[ns]`
      if next < cfg.ringSize then
        return ({ d with core := confirmed.1, dead := dead, succ := next }, [.retarget next])
      else throw .indexOutOfRange
    else return ({ d with core := confirmed.1, dead := dead }, [])

/-- `execute`, one action: send a token, or apply a plan and reissue. -/
def executeOne (state : Driver cfg × List (Effect cfg)) :
    VcAction cfg → Except Panic (Driver cfg × List (Effect cfg))
  | .send msg => return (state.1, state.2 ++ [.token msg])
  | .apply plan => do
    let applied ← state.1.core.applyRecoveryChecked plan
    if state.1.core.id < cfg.numTrains then
      let reissued ← applied.1.issueNewTrainChecked
      return ({ state.1 with core := reissued.1 },
        state.2 ++ showRecovery applied.2 ++ [.forward reissued.2])
    else return ({ state.1 with core := applied.1 }, state.2 ++ showRecovery applied.2)

/-- `execute`. -/
def execute (d : Driver cfg) (actions : List (VcAction cfg)) :
    Except Panic (Driver cfg × List (Effect cfg)) := actions.foldlM executeOne (d, [])

/-- `handle_vc`. -/
def handleVc (d : Driver cfg) (msg : ViewChangeMsg cfg) :
    Except Panic (Driver cfg × List (Effect cfg)) :=
  match msg.victim with
  | none => return (d, [])
  | some victim => do
    let excluded ← d.exclude victim
    let result := excluded.1.vc.handle msg excluded.1.core.recoveryReport
    let executed ← { excluded.1 with vc := result.1 }.execute result.2
    return (executed.1, excluded.2 ++ executed.2)

/-- A crash has been confirmed by the local detector: exclude the victim and start a Gather. -/
def confirm (d : Driver cfg) (victim : Nat) : Except Panic (Driver cfg × List (Effect cfg)) := do
  let excluded ← d.exclude victim
  let result ← excluded.1.vc.onConfirmChecked victim excluded.1.core.recoveryReport
  let executed ← { excluded.1 with vc := result.1 }.execute result.2
  return (executed.1, excluded.2 ++ executed.2)

/-- `process_outs`, one output. -/
def processOut (state : Driver cfg × List (Effect cfg)) :
    Output → Except Panic (Driver cfg × List (Effect cfg))
  | .forwardTrain train => return (state.1, state.2 ++ [.forward train])
  | .deliver payloads => return (state.1, state.2 ++ [.show payloads])
  | .declareCrash victim =>
    if victim ∈ state.1.detector.confirmed then return state
    else
      let hint := state.1.detector.recordGapHint victim
      let noted := { state.1 with detector := hint.1 }
      match hint.2 with
      | none => return (noted, state.2)
      | some confirmed => do
        if state.1.reconfig then
          let changed ← noted.confirm confirmed
          return (changed.1, state.2 ++ changed.2)
        else
          let recovered ← noted.core.confirmCrashChecked confirmed
          return ({ noted with core := recovered.1 }, state.2 ++ showRecovery recovered.2)

/-- `process_outs`. -/
def processOuts (d : Driver cfg) (outputs : List Output) :
    Except Panic (Driver cfg × List (Effect cfg)) := outputs.foldlM processOut (d, [])

/-- **One turn of the event loop.** -/
def handle (d : Driver cfg) : DriverEvent cfg → Except Panic (Driver cfg × List (Effect cfg))
  | .line data =>
    let result := d.core.handleBroadcast data
    { d with core := result.1 }.processOuts result.2
  | .received (.train train) => do
    let result ← d.core.handleTrainChecked train
    Driver.processOuts
      { d with core := result.1, detector := d.detector.noteAlive train.issuer } result.2
  | .received (.viewChange msg) => if d.reconfig then d.handleVc msg else return (d, [])
  | .unreachable victim =>
    if d.reconfig = true ∧ victim ∉ d.dead then
      let lost := d.detector.recordDisconnect victim
      match lost.2 with
      | none => return ({ d with detector := lost.1 }, [])
      | some confirmed => { d with detector := lost.1 }.confirm confirmed
    else return (d, [])
  | .tick => return (d, [])

end Driver

/-! ### Runs -/

/-- Every cell is a `u64`. -/
def Slots.Typed (slots : Slots cfg) : Prop := ∀ i, slots.cells i ≤ u64Max

instance (slots : Slots cfg) : Decidable slots.Typed :=
  inferInstanceAs (Decidable (∀ i, slots.cells i ≤ u64Max))

/-- The clocks of the report are within their type. -/
def RecoveryReport.Typed (report : RecoveryReport cfg) : Prop :=
  report.seen.Typed ∧ report.issued.Typed

instance (report : RecoveryReport cfg) : Decidable report.Typed :=
  inferInstanceAs (Decidable (report.seen.Typed ∧ report.issued.Typed))

/-- The clocks of the plan are within their type. -/
def RecoveryPlan.Typed (plan : RecoveryPlan cfg) : Prop :=
  plan.boundary.Typed ∧ ∀ entry ∈ plan.actions.entries, entry.1.clock ≤ u64Max

instance (plan : RecoveryPlan cfg) : Decidable plan.Typed :=
  inferInstanceAs (Decidable (plan.boundary.Typed ∧
    ∀ entry ∈ plan.actions.entries, entry.1.clock ≤ u64Max))

/-- The clocks of the message are within their type. -/
def WireMsg.Typed : WireMsg cfg → Prop
  | .train received => received.clock ≤ u64Max
  | .viewChange (.gather _ _ _ reports) => ∀ entry ∈ reports, entry.2.Typed
  | .viewChange (.install _ _ _ plan) => plan.Typed
  | _ => True

instance : (msg : WireMsg cfg) → Decidable msg.Typed
  | .train received => inferInstanceAs (Decidable (received.clock ≤ u64Max))
  | .viewChange (.gather _ _ _ reports) =>
    inferInstanceAs (Decidable (∀ entry ∈ reports, entry.2.Typed))
  | .viewChange (.install _ _ _ plan) => inferInstanceAs (Decidable plan.Typed)
  | .viewChange (.reAdmitGather _ _ _ _) => isTrue trivial
  | .viewChange (.reAdmitInstall _ _ _ _ _) => isTrue trivial

/-- Messages are typed, and an unreachable peer has an address. -/
def DriverEvent.Typed : DriverEvent cfg → Prop
  | .received msg => msg.Typed
  | .unreachable victim => victim < cfg.ringSize
  | _ => True

instance : (event : DriverEvent cfg) → Decidable event.Typed
  | .received msg => inferInstanceAs (Decidable msg.Typed)
  | .unreachable victim => inferInstanceAs (Decidable (victim < cfg.ringSize))
  | .line _ => isTrue trivial
  | .tick => isTrue trivial

/-- The driver after an event; a driver that panics is gone. -/
def Driver.after (d : Driver cfg) (event : DriverEvent cfg) : Driver cfg :=
  match d.handle event with
  | .ok result => result.1
  | .error _ => d

/-- The runs of a driver that has not panicked. -/
def driverLife (cfg : RingConfig) : Machine (Driver cfg) (DriverEvent cfg) where
  start := fun d => ∃ id id_lt mode reconfig issues,
    d = Driver.launch id id_lt mode reconfig issues
  legal := fun d event => event.Typed ∧ (d.handle event).isOk
  next := Driver.after

instance (cfg : RingConfig) (d : Driver cfg) (event : DriverEvent cfg) :
    Decidable ((driverLife cfg).legal d event) :=
  inferInstanceAs (Decidable (event.Typed ∧ (d.handle event).isOk = true))

end TrainsRing
