/-
**What a peer can put on the wire.**

`handle_train` tests the issuer of a train before it reads the view floor and nowhere else, and
neither `exclude` nor `apply_recovery` tests the identifiers it is handed. So a message panics the
node exactly when it names a process the arrays or the mask have no place for.

* `WireMsg.Harmless` — every identifier the node is going to use is in range.
* `Driver.Steady` — what keeps everything else from panicking; `steady` is the run lemma.
* `wire_panics` — a message that panics.
* `no_panic` — **a sequence of messages panics no node if and only if each is harmless when it comes.**
-/

import TrainsRing.Driver.Steady

namespace TrainsRing

variable {cfg : RingConfig}

/-- The victim is excluded already or has a bit in the mask, and the plan to be applied has only keys
of issuers inside the ring. -/
def ViewChangeMsg.Harmless (d : Driver cfg) : ViewChangeMsg cfg → Prop
  | .gather _ _ victim _ => victim ∈ d.dead ∨ victim < 32
  | .install viewId _ victim plan => (victim ∈ d.dead ∨ victim < 32) ∧
      (d.vc.installedView < viewId → ∀ entry ∈ plan.actions.entries, entry.1.issuer < cfg.ringSize)
  | _ => True

instance (d : Driver cfg) : (msg : ViewChangeMsg cfg) → Decidable (msg.Harmless d)
  | .gather _ _ victim _ => inferInstanceAs (Decidable (victim ∈ d.dead ∨ victim < 32))
  | .install viewId _ victim plan =>
    inferInstanceAs (Decidable ((victim ∈ d.dead ∨ victim < 32) ∧ (d.vc.installedView < viewId →
      ∀ entry ∈ plan.actions.entries, entry.1.issuer < cfg.ringSize)))
  | .reAdmitGather _ _ _ _ => isTrue trivial
  | .reAdmitInstall _ _ _ _ _ => isTrue trivial

/-- Every identifier the node is going to use is in range. -/
def WireMsg.Harmless (d : Driver cfg) : WireMsg cfg → Prop
  | .train received => received.issuer < cfg.ringSize
  | .viewChange msg => d.reconfig = true → msg.Harmless d

instance (d : Driver cfg) : (msg : WireMsg cfg) → Decidable (msg.Harmless d)
  | .train received => inferInstanceAs (Decidable (received.issuer < cfg.ringSize))
  | .viewChange msg => inferInstanceAs (Decidable (d.reconfig = true → msg.Harmless d))

namespace Driver

/-- The driver after some messages, if none of them panics. -/
def receiveAll (d : Driver cfg) (msgs : List (WireMsg cfg)) : Except Panic (Driver cfg) :=
  msgs.foldlM (fun d msg => do
    let result ← d.handle (.received msg)
    return result.1) d

/-- Each message is harmless when it comes. -/
def HarmlessRun : Driver cfg → List (WireMsg cfg) → Prop
  | _, [] => True
  | d, msg :: rest => msg.Harmless d ∧ HarmlessRun (d.after (.received msg)) rest

instance decidableHarmlessRun : ∀ (d : Driver cfg) (msgs : List (WireMsg cfg)),
    Decidable (d.HarmlessRun msgs)
  | _, [] => isTrue trivial
  | d, msg :: rest =>
    have := decidableHarmlessRun (d.after (.received msg)) rest
    inferInstanceAs (Decidable (msg.Harmless d ∧ HarmlessRun (d.after (.received msg)) rest))

/-- The node is steady, and one strike does not confirm a crash. -/
structure Steady (d : Driver cfg) : Prop where
  core : d.core.Steady
  threshold : d.detector.threshold = strikeThreshold

/-! ### The parts of a turn -/

/-- The three ways to exclude a peer. -/
theorem exclude_cases (d : Driver cfg) (victim : Nat) :
    (victim ∈ d.dead ∧ d.exclude victim = .ok (d, [])) ∨
      (victim ∉ d.dead ∧ ¬ victim < 32 ∧ d.exclude victim = .error .shiftOverflow) ∨
      victim ∉ d.dead ∧ victim < 32 ∧ ∃ succ effects, d.exclude victim = .ok
        ({ d with core := (d.core.setFrozen true).markCrashed victim, dead := insert victim d.dead,
                  succ := succ }, effects) := by
  unfold exclude
  by_cases known : victim ∈ d.dead
  · exact Or.inl ⟨known, if_pos known⟩
  rw [if_neg known]
  refine Or.inr ?_
  by_cases small : victim < 32
  · have confirmed := d.core.confirmCrashChecked_frozen small
    have inside : nextAlive cfg.ringSize (insert victim d.dead) d.core.id < cfg.ringSize :=
      nextAlive_lt d.core.id_lt
    refine Or.inr ⟨known, small, ?_⟩
    rw [confirmed]
    simp only [bind, Except.bind, if_pos inside]
    split_ifs
    · exact ⟨_, _, rfl⟩
    · exact ⟨d.succ, [], rfl⟩
  · refine Or.inl ⟨known, small, ?_⟩
    rw [TrainsNode.confirmCrashChecked_large _ small]
    rfl

/-- **Excluding a peer panics unless it is excluded already or has a bit in the mask.** -/
theorem exclude_ok {d : Driver cfg} (steady : d.Steady) (victim : Nat) :
    (victim ∈ d.dead ∨ victim < 32) ∧ (∃ result, d.exclude victim = .ok result ∧
        result.1.Steady ∧ result.1.vc = d.vc) ∨
      ¬ (victim ∈ d.dead ∨ victim < 32) ∧ d.exclude victim = .error .shiftOverflow := by
  rcases d.exclude_cases victim with ⟨known, same⟩ | ⟨new, large, panics⟩ |
    ⟨new, small, succ, effects, same⟩
  · exact Or.inl ⟨Or.inl known, _, same, steady, rfl⟩
  · exact Or.inr ⟨fun either => either.elim new large, panics⟩
  · exact Or.inl ⟨Or.inr small, _, same, ⟨steady.core.exclude victim, steady.threshold⟩, rfl⟩

/-- A confirmed crash that does not panic: the victim is excluded and a token may be sent. -/
theorem confirm_steady {d : Driver cfg} (steady : d.Steady) {victim : Nat}
    {result : Driver cfg × List (Effect cfg)} (ok : d.confirm victim = .ok result) :
    result.1.Steady := by
  unfold confirm at ok
  rcases exclude_ok steady victim with ⟨-, excluded, same, after, -⟩ | ⟨-, panics⟩
  · rw [same] at ok
    simp only [bind, Except.bind, ViewChange.onConfirmChecked, ViewChange.onConfirm] at ok
    split_ifs at ok with known
    · exact Except.ok.inj ok ▸ ⟨after.core, after.threshold⟩
    · cases room : increment excluded.1.vc.installedView with
      | error panic =>
        rw [room] at ok
        cases ok
      | ok next =>
        rw [room] at ok
        exact Except.ok.inj ok ▸ ⟨after.core, after.threshold⟩
  · rw [panics] at ok
    cases ok

/-- Applying a plan whose keys are inside the ring and sending a token. -/
theorem execute_plan {d : Driver cfg} (steady : d.Steady) {plan : RecoveryPlan cfg}
    (typed : plan.Typed) (inside : ∀ entry ∈ plan.actions.entries, entry.1.issuer < cfg.ringSize)
    (msg : ViewChangeMsg cfg) :
    ∃ result, d.execute [.apply plan, .send msg] = .ok result ∧ result.1.Steady := by
  have applied := TrainsNode.applyRecoveryChecked_eq steady.core.settling.tidy
    fun entry member => ⟨inside entry member, typed.2 entry member⟩
  have after := steady.core.applyRecovery typed inside
  simp only [execute, List.foldlM_cons, List.foldlM_nil, executeOne, applied,
    TrainsNode.issueNewTrainChecked_eq, bind, Except.bind, pure, Except.pure]
  split_ifs with issues
  · exact ⟨_, rfl, after.issueNewTrain, steady.threshold⟩
  · exact ⟨_, rfl, after, steady.threshold⟩

/-- Applying a plan with a key of an issuer outside the ring. -/
theorem execute_outside (d : Driver cfg) {plan : RecoveryPlan cfg} (typed : plan.Typed)
    (outside : ¬ ∀ entry ∈ plan.actions.entries, entry.1.issuer < cfg.ringSize)
    (msg : ViewChangeMsg cfg) :
    d.execute [.apply plan, .send msg] = .error .indexOutOfRange := by
  have far : ∃ entry ∈ plan.actions.entries, ¬ entry.1.issuer < cfg.ringSize := by
    simpa using outside
  have applied := d.core.applyRecoveryChecked_outside typed.2 far
  simp only [execute, List.foldlM_cons, executeOne, applied, bind, Except.bind]

/-- A node's own report is within its types. -/
theorem report_typed {node : TrainsNode cfg} (steady : node.Steady) :
    node.recoveryReport.Typed := by
  refine ⟨fun i => steady.seen i, fun i => ?_⟩
  show (if i.val = node.id then node.nextIssueClock - 1 else 0) ≤ u64Max
  have bound := steady.stamp
  split_ifs <;> omega

/-- The plan made of typed reports has only keys of issuers inside the ring. -/
theorem plan_typed {reports : List (RecoveryReport cfg)} (typed : ∀ report ∈ reports, report.Typed) :
    (computeRecoveryPlan reports).Typed ∧
      ∀ entry ∈ (computeRecoveryPlan reports).actions.entries, entry.1.issuer < cfg.ringSize := by
  have cell : ∀ (slots : Slots cfg), slots.Typed → ∀ q, slots.get q ≤ u64Max := by
    intro slots within q
    unfold Slots.get
    split_ifs
    · exact within _
    · exact Nat.zero_le _
  have boundary : ∀ q, q < cfg.ringSize → (boundaryOf reports).get q ≤ u64Max := fun q inside =>
    (boundaryOf_le_iff reports inside u64Max).mpr fun report member =>
      ⟨cell _ (typed report member).1 q, cell _ (typed report member).2 q⟩
  have keys : ∀ entry ∈ (computeRecoveryPlan reports).actions.entries,
      entry.1.issuer < cfg.ringSize ∧ entry.1.clock ≤ u64Max := by
    intro entry member
    have found := (OrdMap.mem_entries_iff _).mp member
    rw [get?_actions] at found
    split_ifs at found with range
    exact ⟨range.1, range.2.2.trans (boundary _ range.1)⟩
  refine ⟨⟨fun i => ?_, fun entry member => (keys entry member).2⟩,
    fun entry member => (keys entry member).1⟩
  have bound := boundary i i.isLt
  unfold Slots.get at bound
  rw [dif_pos i.isLt] at bound
  exact bound

/-- **A view-change token panics unless it is harmless**, and the node stays steady. -/
theorem handleVc_ok {d : Driver cfg} (steady : d.Steady) {msg : ViewChangeMsg cfg}
    (typed : (WireMsg.viewChange msg).Typed) :
    ((d.handleVc msg).isOk = true ↔ msg.Harmless d) ∧
      ∀ result, d.handleVc msg = .ok result → result.1.Steady := by
  unfold handleVc
  cases msg with
  | gather viewId coordinator victim reports =>
    simp only [ViewChangeMsg.victim]
    rcases exclude_ok steady victim with ⟨fits, result, same, after, machine⟩ | ⟨misfit, panics⟩
    · have ends : ∃ final, ((do
          let executed ← { result.1 with
              vc := (result.1.vc.handle (.gather viewId coordinator victim reports)
                result.1.core.recoveryReport).1 }.execute
            (result.1.vc.handle (.gather viewId coordinator victim reports)
              result.1.core.recoveryReport).2
          return (executed.1, result.2 ++ executed.2)) :
            Except Panic (Driver cfg × List (Effect cfg))) = .ok final ∧ final.1.Steady := by
        have kept : ∀ vc : ViewChange, Steady { result.1 with vc := vc } :=
          fun _ => ⟨after.core, after.threshold⟩
        simp only [ViewChange.handle, ViewChange.onGather]
        split_ifs with stale home complete
        · exact ⟨_, rfl, kept _⟩
        · have collected : ∀ report ∈ (ViewChange.addReport reports result.1.vc.me
              result.1.core.recoveryReport).map Prod.snd, report.Typed := by
            intro report member
            obtain ⟨entry, inside, rfl⟩ := List.mem_map.mp member
            unfold ViewChange.addReport at inside
            split_ifs at inside
            · exact typed entry inside
            · rcases List.mem_append.mp inside with old | new
              · exact typed entry old
              · rw [List.mem_singleton.mp new]
                exact report_typed after.core
          have plan := plan_typed collected
          obtain ⟨final, executed, ok⟩ := execute_plan (kept { result.1.vc.learn victim with
            installedView := viewId }) plan.1 plan.2 (.install viewId coordinator victim
              (computeRecoveryPlan ((ViewChange.addReport reports result.1.vc.me
                result.1.core.recoveryReport).map Prod.snd)))
          rw [executed]
          exact ⟨_, rfl, ok⟩
        · exact ⟨_, rfl, kept _⟩
        · exact ⟨_, rfl, kept _⟩
      obtain ⟨final, executed, ok⟩ := ends
      rw [same]
      simp only [bind, Except.bind] at executed ⊢
      rw [executed]
      exact ⟨⟨fun _ => fits, fun _ => rfl⟩, fun other equal => Except.ok.inj equal ▸ ok⟩
    · rw [panics]
      exact ⟨⟨fun ok => by simp [bind, Except.bind, Except.isOk, Except.toBool] at ok,
        fun fits => absurd fits misfit⟩, fun other equal => by simp [bind, Except.bind] at equal⟩
  | install viewId coordinator victim plan =>
    simp only [ViewChangeMsg.victim]
    rcases exclude_ok steady victim with ⟨fits, result, same, after, machine⟩ | ⟨misfit, panics⟩
    · have kept : ∀ vc : ViewChange, Steady { result.1 with vc := vc } :=
        fun _ => ⟨after.core, after.threshold⟩
      rw [same]
      simp only [bind, Except.bind, ViewChange.handle, ViewChange.onInstall]
      by_cases stale : viewId ≤ result.1.vc.installedView
      · rw [if_pos stale]
        refine ⟨⟨fun _ => ⟨fits, fun fresh => ?_⟩, fun _ => rfl⟩,
          fun other equal => Except.ok.inj equal ▸ kept _⟩
        rw [machine] at stale
        exact absurd fresh (not_lt.mpr stale)
      · rw [if_neg stale]
        by_cases inside : ∀ entry ∈ plan.actions.entries, entry.1.issuer < cfg.ringSize
        · obtain ⟨final, executed, ok⟩ := execute_plan (kept { result.1.vc.learn victim with
            installedView := viewId }) typed inside (.install viewId coordinator victim plan)
          dsimp only at executed ⊢
          rw [executed]
          exact ⟨⟨fun _ => ⟨fits, fun _ => inside⟩, fun _ => rfl⟩,
            fun other equal => Except.ok.inj equal ▸ ⟨ok.core, ok.threshold⟩⟩
        · have executed := execute_outside { result.1 with vc := { result.1.vc.learn victim with
            installedView := viewId } } typed inside (.install viewId coordinator victim plan)
          dsimp only at executed ⊢
          rw [executed]
          refine ⟨⟨fun ok => by simp [Except.isOk, Except.toBool] at ok, fun harmless => ?_⟩,
            fun other equal => by simp at equal⟩
          exact absurd (harmless.2 (machine ▸ not_le.mp stale)) inside
    · rw [panics]
      exact ⟨⟨fun ok => by simp [bind, Except.bind, Except.isOk, Except.toBool] at ok,
        fun harmless => absurd harmless.1 misfit⟩,
        fun other equal => by simp [bind, Except.bind] at equal⟩
  | reAdmitGather viewId coordinator rejoiner reports =>
    exact ⟨⟨fun _ => trivial, fun _ => rfl⟩, fun other equal => Except.ok.inj equal ▸ steady⟩
  | reAdmitInstall viewId coordinator rejoiner plan snapshotSrc =>
    exact ⟨⟨fun _ => trivial, fun _ => rfl⟩, fun other equal => Except.ok.inj equal ▸ steady⟩

/-- **The outputs of a received train** never confirm a crash: the train has just cleared the strikes
against the only process they can suspect. -/
theorem processOuts_cleared (outputs : List Output) : ∀ (d : Driver cfg) (effects : List (Effect cfg)),
    d.detector.threshold = strikeThreshold → (∀ p ∈ suspects outputs, (suspects outputs).length ≤ 1 ∧
      (p ∈ d.detector.confirmed ∨ d.detector.strikes.get? p = none)) →
    ∃ detector more, outputs.foldlM processOut (d, effects) =
      .ok ({ d with detector := detector }, more) ∧ detector.threshold = strikeThreshold := by
  induction outputs with
  | nil => exact fun d effects threshold _ => ⟨d.detector, effects, rfl, threshold⟩
  | cons output rest ih =>
    intro d effects threshold cleared
    rw [List.foldlM_cons]
    cases output with
    | forwardTrain train => exact ih d _ threshold cleared
    | deliver payloads => exact ih d _ threshold cleared
    | declareCrash victim =>
      obtain ⟨single, clear⟩ := cleared victim List.mem_cons_self
      have none : suspects rest = [] := by
        have length : (victim :: suspects rest).length ≤ 1 := single
        simpa using length
      have later : ∀ d : Driver cfg, ∀ p ∈ suspects rest, (suspects rest).length ≤ 1 ∧
          (p ∈ d.detector.confirmed ∨ d.detector.strikes.get? p = Option.none) := fun d p member => by
        rw [none] at member
        cases member
      unfold processOut
      by_cases known : victim ∈ d.detector.confirmed
      · simp only [if_pos known]
        exact ih d effects threshold (later d)
      · have hint : d.detector.recordGapHint victim =
            ({ d.detector with strikes := d.detector.strikes.insert victim 1 }, Option.none) := by
          unfold FailureDetector.recordGapHint FailureDetector.addStrikes
          rw [if_neg known, clear.resolve_left known]
          have few : ¬ d.detector.threshold ≤
              min ((Option.none : Option Nat).getD 0 + 1) (2 ^ 32 - 1) := by
            rw [threshold]
            decide
          exact if_neg few
        simp only [if_neg known, hint]
        exact ih { d with detector := { d.detector with
          strikes := d.detector.strikes.insert victim 1 } } effects threshold (later _)

/-- **A received train panics unless its issuer is inside the ring**, and the node stays steady. -/
theorem handle_train_ok {d : Driver cfg} (steady : d.Steady) {train : Train}
    (typed : train.clock ≤ u64Max) :
    ((d.handle (.received (.train train))).isOk = true ↔ train.issuer < cfg.ringSize) ∧
      ∀ result, d.handle (.received (.train train)) = .ok result → result.1.Steady := by
  unfold handle
  by_cases inside : train.issuer < cfg.ringSize
  · have threshold : (d.detector.noteAlive train.issuer).threshold = strikeThreshold := by
      unfold FailureDetector.noteAlive
      split_ifs <;> exact steady.threshold
    have clear : train.issuer ∈ (d.detector.noteAlive train.issuer).confirmed ∨
        (d.detector.noteAlive train.issuer).strikes.get? train.issuer = none := by
      unfold FailureDetector.noteAlive
      split_ifs with known
      · exact Or.inl known
      · exact Or.inr ((OrdMap.get?_erase ..).trans (if_pos rfl))
    obtain ⟨detector, more, processed, kept⟩ := processOuts_cleared (d.core.handleTrain train).2
      { d with core := (d.core.handleTrain train).1
               detector := d.detector.noteAlive train.issuer } [] threshold fun p member => by
        rcases d.core.suspects_issuer train with none | one
        · rw [none] at member
          cases member
        · rw [one] at member ⊢
          rw [List.mem_singleton.mp member]
          exact ⟨le_rfl, clear⟩
    simp only [TrainsNode.handleTrainChecked_eq steady.core.settling inside typed, bind, Except.bind,
      processOuts] at processed ⊢
    rw [processed]
    exact ⟨⟨fun _ => inside, fun _ => rfl⟩, fun other equal =>
      Except.ok.inj equal ▸ ⟨steady.core.handleTrain inside typed, kept⟩⟩
  · simp only [TrainsNode.handleTrainChecked_outside d.core inside, bind, Except.bind]
    exact ⟨⟨fun ok => by simp [Except.isOk, Except.toBool] at ok, fun bound => absurd bound inside⟩,
      fun other equal => by cases equal⟩

/-- **A message panics unless it is harmless**, and the node stays steady. -/
theorem receive_ok {d : Driver cfg} (steady : d.Steady) {msg : WireMsg cfg} (typed : msg.Typed) :
    ((d.handle (.received msg)).isOk = true ↔ msg.Harmless d) ∧
      ∀ result, d.handle (.received msg) = .ok result → result.1.Steady := by
  cases msg with
  | train received => exact handle_train_ok steady typed
  | viewChange msg =>
    have turn : d.handle (.received (.viewChange msg)) =
        if d.reconfig then d.handleVc msg else return (d, []) := rfl
    rw [turn]
    by_cases reconfig : d.reconfig = true
    · obtain ⟨ok, kept⟩ := handleVc_ok steady typed
      rw [if_pos reconfig]
      exact ⟨ok.trans ⟨fun harmless _ => harmless, fun harmless => harmless reconfig⟩, kept⟩
    · rw [if_neg reconfig]
      exact ⟨⟨fun _ here => absurd here reconfig, fun _ => rfl⟩,
        fun other equal => Except.ok.inj equal ▸ steady⟩

/-- **Every turn of the event loop keeps the node steady.** -/
theorem handle_steady {d : Driver cfg} (steady : d.Steady) {event : DriverEvent cfg}
    (typed : event.Typed) {result : Driver cfg × List (Effect cfg)}
    (ok : d.handle event = .ok result) : result.1.Steady := by
  cases event with
  | line data =>
    have silent : (d.core.handleBroadcast data).2 = [] := by
      unfold TrainsNode.handleBroadcast
      split <;> rfl
    simp only [handle, silent] at ok
    exact Except.ok.inj ok ▸ ⟨steady.core.handleBroadcast data, steady.threshold⟩
  | received msg => exact (receive_ok steady typed).2 result ok
  | unreachable victim =>
    dsimp only [handle] at ok
    by_cases lost : d.reconfig = true ∧ victim ∉ d.dead
    · rw [if_pos lost] at ok
      have counted : (d.detector.recordDisconnect victim).1.threshold = strikeThreshold ∧
          ∀ confirmed, (d.detector.recordDisconnect victim).2 = some confirmed →
            confirmed = victim := by
        unfold FailureDetector.recordDisconnect FailureDetector.addStrikes
        dsimp only
        split_ifs
        · exact ⟨steady.threshold, fun _ none => by cases none⟩
        · exact ⟨steady.threshold, fun _ same => (Option.some.inj same).symm⟩
        · exact ⟨steady.threshold, fun _ none => by cases none⟩
      cases confirmed : (d.detector.recordDisconnect victim).2 with
      | none =>
        simp only [confirmed] at ok
        exact Except.ok.inj ok ▸ ⟨steady.core, counted.1⟩
      | some peer =>
        obtain rfl := counted.2 peer confirmed
        simp only [confirmed] at ok
        have start : Steady { d with detector := (d.detector.recordDisconnect peer).1 } :=
          ⟨steady.core, counted.1⟩
        exact confirm_steady start ok
    · rw [if_neg lost] at ok
      exact Except.ok.inj ok ▸ steady
  | tick => exact Except.ok.inj ok ▸ steady

theorem launch_steady (id : Nat) (id_lt : id < cfg.ringSize) (mode : DeliveryMode)
    (reconfig issues : Bool) : (launch id id_lt mode reconfig issues).Steady := by
  refine ⟨?_, rfl⟩
  cases issues with
  | false => exact TrainsNode.Steady.new id id_lt mode
  | true => exact (TrainsNode.Steady.new id id_lt mode).issueNewTrain

theorem steady {d : Driver cfg} (reachable : (driverLife cfg).Reachable d) : d.Steady := by
  refine Machine.invariant (fun first initial => ?_) (fun d event before legal => ?_) reachable
  · obtain ⟨id, id_lt, mode, reconfig, issues, rfl⟩ := initial
    exact launch_steady id id_lt mode reconfig issues
  · show (d.after event).Steady
    unfold after
    cases handled : d.handle event with
    | ok result => exact handle_steady before legal.1 handled
    | error panic => exact before

/-- Messages one after the other. -/
theorem receiveAll_ok (msgs : List (WireMsg cfg)) : ∀ {d : Driver cfg}, d.Steady →
    (∀ msg ∈ msgs, msg.Typed) → ((d.receiveAll msgs).isOk = true ↔ d.HarmlessRun msgs) := by
  induction msgs with
  | nil => exact fun _ _ => ⟨fun _ => trivial, fun _ => rfl⟩
  | cons msg rest ih =>
    intro d steady typed
    obtain ⟨ok, kept⟩ := receive_ok steady (typed msg List.mem_cons_self)
    have later := fun other member => typed other (List.mem_cons_of_mem msg member)
    unfold receiveAll HarmlessRun after
    rw [List.foldlM_cons, ← ok]
    cases handled : d.handle (.received msg) with
    | ok result =>
      have tail := ih (kept result handled) later
      exact ⟨fun all => ⟨rfl, tail.mp all⟩, fun both => tail.mpr both.2⟩
    | error panic =>
      exact ⟨fun all => by simp [bind, Except.bind, Except.isOk, Except.toBool] at all,
        fun both => by simp [Except.isOk, Except.toBool] at both⟩

end Driver

/-! ### Messages from the wire -/

/-- A node of a ring of three. -/
def freshDriver : Driver .triple := Driver.launch 0 (by decide) .totalOrder true false

theorem freshDriver_reachable : (driverLife .triple).Reachable freshDriver :=
  Machine.Reachable.start ⟨0, by decide, .totalOrder, true, false, rfl⟩

/-- A train of process 3 reads past the end of the seen clocks. -/
theorem wire_panics : ¬ ∀ (cfg : RingConfig) (d : Driver cfg), (driverLife cfg).Reachable d →
    ∀ msgs : List (WireMsg cfg), (∀ msg ∈ msgs, msg.Typed) → (d.receiveAll msgs).isOk = true := by
  intro safe
  have ok := safe .triple freshDriver freshDriver_reachable [.train ⟨3, 1, [], 8#32⟩] (by decide)
  exact absurd ok (by decide +kernel)

/-- **No panic** for messages that are harmless when they come, and for no others. -/
theorem no_panic {d : Driver cfg} (reachable : (driverLife cfg).Reachable d)
    {msgs : List (WireMsg cfg)} (typed : ∀ msg ∈ msgs, msg.Typed) :
    (d.receiveAll msgs).isOk = true ↔ d.HarmlessRun msgs :=
  Driver.receiveAll_ok msgs (Driver.steady reachable) typed

/-- A train with a gap, a plan for a victim outside the ring and a Gather with nothing in it. -/
theorem no_panic_triple : (freshDriver.receiveAll [.train ⟨1, u64Max, [], 2#32⟩,
    .viewChange (.install 1 0 31 ⟨OrdMap.empty.insert ⟨3, 2⟩ .skip, Slots.zero _⟩),
    .viewChange (.gather 9 0 2 [])]).isOk = true :=
  (no_panic freshDriver_reachable (by decide)).mpr (by decide +kernel)

end TrainsRing
