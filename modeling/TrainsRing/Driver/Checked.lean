/-
**The node with its panics** (`trains-core/src/{clock,delivery,types,node}.rs`).

Everything in the core that can panic is computed here in `Except Panic`: an array access, a shift by
a process identifier, the increment of a clock and the assertion of `record_delivered`. Where no
panic occurs the functions agree with those of `Core.Node`.

* `isDeliverableChecked_eq`, `tryDeliverChecked_eq` — the delivery gate and one attempt never panic.
* `drainParkedChecked_eq` — a drain does not panic when no parked key is done.
* `handleTrainChecked_eq`, `handleTrainChecked_outside` — **a received train panics if and only if its
  issuer is outside the ring**, at a tidy node that has drained.
* `applyRecoveryChecked_eq`, `applyRecoveryChecked_outside` — **a plan panics if and only if it has a
  key of an issuer outside the ring.**
-/

import TrainsRing.Interface.Settled

namespace TrainsRing

variable {cfg : RingConfig}

/-- How the code can panic. -/
inductive Panic where
  | indexOutOfRange
  | shiftOverflow
  | addOverflow
  | assertion
  deriving DecidableEq, Repr

/-! ### Arrays, masks and clocks -/

/-- `slots[q as usize]`. -/
def Slots.read (slots : Slots cfg) (q : Nat) : Except Panic Nat :=
  if q < cfg.ringSize then .ok (slots.get q) else .error .indexOutOfRange

/-- `1 << p` on `u32`. -/
def bitOf (p : Nat) : Except Panic AckBits :=
  if p < 32 then .ok (1#32 <<< p) else .error .shiftOverflow

/-- `value + 1` on `u64`. -/
def increment (value : Nat) : Except Panic Nat :=
  if value < u64Max then .ok (value + 1) else .error .addOverflow

/-- `add_ack`. -/
def Train.addAckChecked (train : Train) (id : Nat) : Except Panic Train := do
  let bit ← bitOf id
  return { train with ackBits := train.ackBits ||| bit }

/-- `check_and_update`. -/
def ClockState.checkAndUpdateChecked (state : ClockState cfg) (issuer newClock : Nat) :
    Except Panic (ClockState cfg × ClockCheck) := do
  let prev ← state.seen.read issuer
  if newClock = prev then return (state, .duplicate)
  else if newClock = satSucc prev then return (⟨state.seen.set issuer newClock⟩, .ok)
  else if prev < newClock then
    let expected ← increment prev
    return (⟨state.seen.set issuer newClock⟩, .gap expected newClock)
  else return (state, .duplicate)

/-- `is_crashed`. -/
def DeliveryState.isCrashedChecked (state : DeliveryState cfg) (p : Nat) : Except Panic Bool := do
  let bit ← bitOf p
  return (state.crashedBits &&& bit) != 0#32

/-- `mark_crashed`. -/
def DeliveryState.markCrashedChecked (state : DeliveryState cfg) (p : Nat) :
    Except Panic (DeliveryState cfg) := do
  let bit ← bitOf p
  return { state with crashedBits := state.crashedBits ||| bit }

namespace TrainsNode

/-! ### The functions of the node -/

/-- `seen_clocks_advanced_enough`. -/
def seenClocksAdvancedEnoughChecked (node : TrainsNode cfg) (key : ClockKey) : Except Panic Bool :=
  (List.range cfg.numTrains).allM fun q => do
    if ← node.delivery.isCrashedChecked q then return true
    else
      let seen ← node.clockState.seen.read q
      return decide (key.clock ≤ seen)

/-- `is_deliverable`. -/
def isDeliverableChecked (node : TrainsNode cfg) (key : ClockKey) : Except Panic Bool := do
  if node.parked.keys.all fun parked => !decide (parked < key) then
    let known ← (List.range cfg.ringSize).allM fun q => do
      let seen ← node.clockState.seen.read q
      return (List.range' 1 seen).all fun clock =>
        !decide (ClockKey.mk clock q < key) || node.delivery.alreadyDelivered ⟨clock, q⟩
    if known then node.seenClocksAdvancedEnoughChecked key else return false
  else return false

/-- `record_delivered`, the cache and the `Deliver` output. -/
def deliverNowChecked (node : TrainsNode cfg) (key : ClockKey) (payloads : List Payload) :
    Except Panic (TrainsNode cfg × List Output) :=
  if node.delivery.alreadyDelivered key then .error .assertion
  else .ok (node.deliverNow key payloads)

/-- `try_deliver`. -/
def tryDeliverChecked (node : TrainsNode cfg) (train : Train) :
    Except Panic (TrainsNode cfg × List Output) := do
  if node.frozen then return (node, [])
  else if !node.delivery.readyToDeliver train.ackBits node.delivery.mode then return (node, [])
  else if node.delivery.alreadyDelivered train.key then return (node, [])
  else
    let deliverable ← node.isDeliverableChecked train.key
    if !deliverable then
      return ({ node with parked := node.parked.insertNew train.key train }, [])
    else node.deliverNowChecked train.key train.payloads

/-- The loop of `drain_parked`. -/
def drainLoopChecked : Nat → TrainsNode cfg → Except Panic (TrainsNode cfg × List Output)
  | 0, node => return (node, [])
  | fuel + 1, node =>
    match node.parked.min? with
    | none => return (node, [])
    | some (key, train) => do
      let deliverable ← node.isDeliverableChecked key
      if deliverable then
        let delivered ← (node.unpark key).deliverNowChecked key train.payloads
        let rest ← drainLoopChecked fuel delivered.1
        return (rest.1, delivered.2 ++ rest.2)
      else return (node, [])

/-- `drain_parked`. -/
def drainParkedChecked (node : TrainsNode cfg) : Except Panic (TrainsNode cfg × List Output) :=
  if node.frozen then return (node, []) else drainLoopChecked node.parked.size node

/-- `issue_new_train`. -/
def issueNewTrainChecked (node : TrainsNode cfg) : Except Panic (TrainsNode cfg × Train) := do
  let train ← Train.addAckChecked
    { issuer := node.id, clock := node.nextIssueClock, payloads := node.pending, ackBits := 0#32 }
    node.id
  return (node.issueNewTrain.1, train)

/-- `handle_foreign_train`. -/
def handleForeignTrainChecked (node : TrainsNode cfg) (train : Train) :
    Except Panic (TrainsNode cfg × List Output) := do
  let prevSeen ← node.clockState.seen.read train.issuer
  if train.clock ≤ prevSeen ∧ 0 < prevSeen then
    let tried ← (node.noteSeen train.payloads).tryDeliverChecked train
    let drained ← tried.1.drainParkedChecked
    return (drained.1, tried.2 ++ .forwardTrain train :: drained.2)
  else
    let check ← node.clockState.checkAndUpdateChecked train.issuer train.clock
    let loaded ← Train.addAckChecked
      { train with payloads := train.payloads ++ node.pending } node.id
    let drained ← TrainsNode.drainParkedChecked
      { (node.noteSeen node.pending).noteSeen loaded.payloads with
        clockState := check.1
        pending := [] }
    return (drained.1, gapAlarm train.issuer check.2 ++ .forwardTrain loaded :: drained.2)

/-- `handle_returning_train`. -/
def handleReturningTrainChecked (node : TrainsNode cfg) (train : Train) :
    Except Panic (TrainsNode cfg × List Output) := do
  let check ← node.clockState.checkAndUpdateChecked node.id train.clock
  let seen := { node with clockState := check.1 }
  if seen.delivery.alreadyDelivered train.key then
    let issued ← seen.issueNewTrainChecked
    return (issued.1, [.forwardTrain issued.2])
  else
    let tried ← seen.tryDeliverChecked train
    let drained ← tried.1.drainParkedChecked
    return (drained.1, tried.2 ++ drained.2 ++ [.forwardTrain train])

/-- `handle_train`. -/
def handleTrainChecked (node : TrainsNode cfg) (train : Train) :
    Except Panic (TrainsNode cfg × List Output) :=
  if train.issuer < cfg.ringSize ∧ train.clock ≤ node.viewFloor.get train.issuer then
    return (node, [])
  else if train.issuer = node.id then node.handleReturningTrainChecked train
  else node.handleForeignTrainChecked train

/-- `confirm_crash`. -/
def confirmCrashChecked (node : TrainsNode cfg) (p : Nat) :
    Except Panic (TrainsNode cfg × List Output) := do
  let delivery ← node.delivery.markCrashedChecked p
  TrainsNode.drainParkedChecked { node with delivery }

/-- One round of the loop of `apply_recovery`. -/
def applyActionChecked (state : TrainsNode cfg × List Output)
    (entry : ClockKey × RecoveryAction) : Except Panic (TrainsNode cfg × List Output) := do
  let check ← state.1.clockState.checkAndUpdateChecked entry.1.issuer entry.1.clock
  let cleared := { state.1 with clockState := check.1, parked := state.1.parked.erase entry.1 }
  if cleared.delivery.alreadyDelivered entry.1 then return (cleared, state.2)
  else match entry.2 with
    | .deliver payloads =>
      let delivered ← (cleared.noteSeen payloads).deliverNowChecked entry.1 payloads
      return (delivered.1, state.2 ++ delivered.2)
    | .skip =>
      return ({ cleared with delivery := cleared.delivery.recordDelivered entry.1 }, state.2)

/-- `apply_recovery`. -/
def applyRecoveryChecked (node : TrainsNode cfg) (plan : RecoveryPlan cfg) :
    Except Panic (TrainsNode cfg × List Output) := do
  let applied ← plan.actions.entries.foldlM applyActionChecked (node, [])
  let drained ← (applied.1.installView plan).drainParkedChecked
  return (drained.1, applied.2 ++ drained.2)

/-! ### What cannot panic -/

theorem bitOf_inside {p : Nat} (inside : p < cfg.ringSize) : bitOf p = .ok (1#32 <<< p) :=
  if_pos (by have := cfg.le_thirty; omega)

/-- A frozen node confirms a crash that has a bit in the mask, and delivers nothing. -/
theorem confirmCrashChecked_frozen (node : TrainsNode cfg) {p : Nat} (small : p < 32) :
    (node.setFrozen true).confirmCrashChecked p = .ok ((node.setFrozen true).markCrashed p, []) := by
  unfold confirmCrashChecked DeliveryState.markCrashedChecked
  rw [show bitOf p = .ok (1#32 <<< p) from if_pos small]
  rfl

theorem confirmCrashChecked_large (node : TrainsNode cfg) {p : Nat} (large : ¬ p < 32) :
    node.confirmCrashChecked p = .error .shiftOverflow := by
  unfold confirmCrashChecked DeliveryState.markCrashedChecked
  rw [show bitOf p = .error .shiftOverflow from if_neg large]
  rfl

theorem addAckChecked_eq (train : Train) {id : Nat} (inside : id < cfg.ringSize) :
    train.addAckChecked id = .ok (train.addAck id) := by
  unfold Train.addAckChecked
  rw [bitOf_inside inside]
  rfl

/-- A clock check inside the ring does not panic: a gap leaves room for the expected clock. -/
theorem checkAndUpdateChecked_eq (state : ClockState cfg) {issuer newClock : Nat}
    (inside : issuer < cfg.ringSize) (bounded : newClock ≤ u64Max) :
    state.checkAndUpdateChecked issuer newClock = .ok (state.checkAndUpdate issuer newClock) := by
  unfold ClockState.checkAndUpdateChecked ClockState.checkAndUpdate
  rw [show state.seen.read issuer = .ok (state.seen.get issuer) from if_pos inside]
  show (if newClock = state.seen.get issuer then _ else _) = _
  dsimp only
  by_cases duplicate : newClock = state.seen.get issuer
  · rw [if_pos duplicate, if_pos duplicate]
    rfl
  rw [if_neg duplicate, if_neg duplicate]
  by_cases next : newClock = satSucc (state.seen.get issuer)
  · rw [if_pos next, if_pos next]
    rfl
  rw [if_neg next, if_neg next]
  by_cases ahead : state.seen.get issuer < newClock
  · have room : increment (state.seen.get issuer) = .ok (state.seen.get issuer + 1) :=
      if_pos (lt_of_lt_of_le ahead bounded)
    rw [if_pos ahead, if_pos ahead, room]
    rfl
  · rw [if_neg ahead, if_neg ahead]
    rfl

theorem checkAndUpdateChecked_outside (state : ClockState cfg) {issuer : Nat} (newClock : Nat)
    (outside : ¬ issuer < cfg.ringSize) :
    state.checkAndUpdateChecked issuer newClock = .error .indexOutOfRange := by
  unfold ClockState.checkAndUpdateChecked Slots.read
  rw [if_neg outside]
  rfl

/-- A loop over checks that do not panic. -/
theorem allM_ok {α : Type} {check : α → Except Panic Bool} {plain : α → Bool} {items : List α}
    (same : ∀ item ∈ items, check item = .ok (plain item)) :
    items.allM check = .ok (items.all plain) := by
  induction items with
  | nil => rfl
  | cons item rest ih =>
    have later := ih fun other member => same other (List.mem_cons_of_mem item member)
    rw [List.allM_cons, same item List.mem_cons_self, List.all_cons]
    cases plain item with
    | false => rfl
    | true => exact later

theorem isDeliverableChecked_eq (node : TrainsNode cfg) (key : ClockKey) :
    node.isDeliverableChecked key = .ok (node.isDeliverable key) := by
  have gate : node.seenClocksAdvancedEnoughChecked key = .ok (node.seenClocksAdvancedEnough key) := by
    refine allM_ok fun q member => ?_
    have inside : q < cfg.ringSize := lt_of_lt_of_le (List.mem_range.mp member) cfg.trains_le
    have crashed : node.delivery.isCrashedChecked q = .ok (node.delivery.isCrashed q) := by
      unfold DeliveryState.isCrashedChecked
      rw [bitOf_inside inside]
      rfl
    have seen : node.clockState.seen.read q = .ok (node.clockState.lastSeen q) := if_pos inside
    rw [crashed, seen]
    cases node.delivery.isCrashed q <;> rfl
  have known : (List.range cfg.ringSize).allM (fun q => do
      let seen ← node.clockState.seen.read q
      return (List.range' 1 seen).all fun clock =>
        !decide (ClockKey.mk clock q < key) || node.delivery.alreadyDelivered ⟨clock, q⟩) =
      .ok ((List.range cfg.ringSize).all fun q =>
        (List.range' 1 (node.clockState.lastSeen q)).all fun clock =>
          !decide (ClockKey.mk clock q < key) || node.delivery.alreadyDelivered ⟨clock, q⟩) :=
    allM_ok fun q member => by
      rw [show node.clockState.seen.read q = .ok (node.clockState.lastSeen q) from
        if_pos (List.mem_range.mp member)]
      rfl
  unfold isDeliverableChecked isDeliverable
  rw [gate, known]
  cases node.parked.keys.all fun parked => !decide (parked < key) with
  | false => rfl
  | true =>
    cases (List.range cfg.ringSize).all fun q =>
        (List.range' 1 (node.clockState.lastSeen q)).all fun clock =>
          !decide (ClockKey.mk clock q < key) || node.delivery.alreadyDelivered ⟨clock, q⟩ with
    | false => rfl
    | true => rfl

/-- An attempt to deliver asks first whether the key is done. -/
theorem tryDeliverChecked_eq (node : TrainsNode cfg) (train : Train) :
    node.tryDeliverChecked train = .ok (node.tryDeliver train) := by
  unfold tryDeliverChecked tryDeliver
  rw [isDeliverableChecked_eq]
  split_ifs with frozen unready done blocked
  · rfl
  · rfl
  · rfl
  · simp only [bind, Except.bind, if_pos blocked]
    rfl
  · simp only [bind, Except.bind, if_neg blocked]
    exact if_neg done

theorem drainLoopChecked_eq (fuel : Nat) : ∀ {node : TrainsNode cfg}, node.Tidy →
    drainLoopChecked fuel node = .ok (drainLoop fuel node) := by
  induction fuel with
  | zero => exact fun _ => rfl
  | succ fuel ih =>
    intro node tidy
    unfold drainLoopChecked drainLoop
    cases smallest : node.parked.min? with
    | none => rfl
    | some head =>
      obtain ⟨key, train⟩ := head
      have found := (OrdMap.min?_eq_some smallest).1
      have fresh := tidy.apart key train found
      have now := (tidy.unpark key).deliverNow train.payloads fresh
        ((OrdMap.get?_erase ..).trans (if_pos rfl))
      have unrecorded : (node.unpark key).deliverNowChecked key train.payloads =
          .ok ((node.unpark key).deliverNow key train.payloads) :=
        if_neg fun done => fresh (of_decide_eq_true done)
      dsimp only
      rw [isDeliverableChecked_eq]
      cases deliverable : node.isDeliverable key with
      | false => simp [bind, Except.bind, pure, Except.pure]
      | true =>
        simp only [bind, Except.bind, if_true, unrecorded, ih now.tidy]
        rfl

/-- **A drain does not panic** when no parked key is done. -/
theorem drainParkedChecked_eq {node : TrainsNode cfg} (tidy : node.Tidy) :
    node.drainParkedChecked = .ok node.drainParked := by
  unfold drainParkedChecked drainParked
  rw [drainLoopChecked_eq _ tidy]
  split_ifs <;> rfl

theorem issueNewTrainChecked_eq (node : TrainsNode cfg) :
    node.issueNewTrainChecked = .ok node.issueNewTrain := by
  unfold issueNewTrainChecked
  rw [addAckChecked_eq _ node.id_lt]
  rfl

/-! ### Received trains -/

/-- An attempt to deliver a train and the drain after it do not panic. -/
theorem attemptChecked_eq {node : TrainsNode cfg} {train : Train}
    (tried : (node.tryDeliver train).1.Tidy) :
    (node.tryDeliverChecked train = .ok (node.tryDeliver train)) ∧
      (node.tryDeliver train).1.drainParkedChecked =
        .ok (node.tryDeliver train).1.drainParked :=
  ⟨node.tryDeliverChecked_eq train, drainParkedChecked_eq tried⟩

/-- **A train of an issuer inside the ring does not panic.** -/
theorem handleTrainChecked_eq {node : TrainsNode cfg} (settling : node.Settling) {train : Train}
    (inside : train.issuer < cfg.ringSize) (bounded : train.clock ≤ u64Max) :
    node.handleTrainChecked train = .ok (node.handleTrain train) := by
  have tidy := settling.tidy
  unfold handleTrainChecked handleTrain
  split_ifs with stale own
  · rfl
  · have observed : (node.observe node.id train.clock).Tidy :=
      tidy.congr rfl rfl (node.seenClock_le_observe node.id train.clock)
    unfold handleReturningTrainChecked handleReturningTrain
    rw [checkAndUpdateChecked_eq node.clockState node.id_lt bounded]
    by_cases done : node.delivery.alreadyDelivered train.key = true
    · simp only [bind, Except.bind, done, if_true]
      rw [issueNewTrainChecked_eq]
      rfl
    · have seen : train.clock ≤ (node.observe node.id train.clock).seenClock train.issuer := by
        rw [own, seenClock_observe node node.id_lt, if_pos rfl]
        exact le_max_right _ _
      have tried := observed.tryDeliver inside seen fun unfrozen _ deliverable =>
        settling.unparked_return own unfrozen deliverable
      obtain ⟨first, second⟩ := attemptChecked_eq tried.tidy
      have first : TrainsNode.tryDeliverChecked
          { node with clockState := (node.clockState.checkAndUpdate node.id train.clock).1 } train =
          .ok ((node.observe node.id train.clock).tryDeliver train) := first
      simp only [bind, Except.bind, done, first, second]
      rfl
  · unfold handleForeignTrainChecked
    rw [show node.clockState.seen.read train.issuer = .ok (node.seenClock train.issuer) from
      if_pos inside]
    by_cases old : node.Replay train
    · have noted : (node.noteSeen train.payloads).Tidy := tidy.congr rfl rfl fun _ => le_rfl
      have tried := noted.tryDeliver inside old.1 fun unfrozen _ deliverable =>
        Replica.not_parked (settling.drained unfrozen) deliverable
      obtain ⟨first, second⟩ := attemptChecked_eq tried.tidy
      have taken : train.clock ≤ node.seenClock train.issuer ∧ 0 < node.seenClock train.issuer := old
      rw [handleForeignTrain_replay old]
      simp only [bind, Except.bind, if_pos taken, first, second]
      rfl
    · have visited : (node.visit train).Tidy :=
        tidy.congr rfl rfl (node.seenClock_le_observe train.issuer train.clock)
      have taken : ¬ (train.clock ≤ node.seenClock train.issuer ∧
          0 < node.seenClock train.issuer) := old
      have drained : TrainsNode.drainParkedChecked
          { (node.noteSeen node.pending).noteSeen
              (Train.addAck { train with payloads := train.payloads ++ node.pending } node.id).payloads
            with
            clockState := (node.clockState.checkAndUpdate train.issuer train.clock).1
            pending := [] } = .ok (node.visit train).drainParked := drainParkedChecked_eq visited
      rw [handleForeignTrain_visit old]
      simp only [bind, Except.bind, if_neg taken, checkAndUpdateChecked_eq _ inside bounded,
        addAckChecked_eq _ node.id_lt, drained]
      rfl

/-- **A train of an issuer outside the ring panics.** -/
theorem handleTrainChecked_outside (node : TrainsNode cfg) {train : Train}
    (outside : ¬ train.issuer < cfg.ringSize) :
    node.handleTrainChecked train = .error .indexOutOfRange := by
  unfold handleTrainChecked
  rw [if_neg fun fence => outside fence.1, if_neg fun own => outside (lt_of_eq_of_lt own node.id_lt)]
  unfold handleForeignTrainChecked Slots.read
  rw [if_neg outside]
  rfl

/-! ### Plans -/

theorem applyActionChecked_eq {node : TrainsNode cfg} (outputs : List Output)
    {entry : ClockKey × RecoveryAction} (inside : entry.1.issuer < cfg.ringSize)
    (bounded : entry.1.clock ≤ u64Max) :
    applyActionChecked (node, outputs) entry = .ok (applyAction (node, outputs) entry) := by
  obtain ⟨key, action⟩ := entry
  unfold applyActionChecked applyAction
  rw [checkAndUpdateChecked_eq _ inside bounded]
  by_cases done : node.delivery.alreadyDelivered key = true
  · simp only [bind, Except.bind, done, if_true]
    rfl
  · cases action with
    | deliver payloads =>
      have recorded : ∀ cleared : TrainsNode cfg, cleared.delivery = node.delivery →
          (cleared.noteSeen payloads).deliverNowChecked key payloads =
            .ok ((cleared.noteSeen payloads).deliverNow key payloads) := fun cleared same =>
        if_neg (show ¬ cleared.delivery.alreadyDelivered key = true from same ▸ done)
      simp only [bind, Except.bind, done, recorded]
      rfl
    | skip =>
      simp only [bind, Except.bind, done]
      rfl

theorem applyActionsChecked_eq (entries : List (ClockKey × RecoveryAction)) :
    ∀ (state : TrainsNode cfg × List Output),
      (∀ entry ∈ entries, entry.1.issuer < cfg.ringSize ∧ entry.1.clock ≤ u64Max) →
      entries.foldlM applyActionChecked state = .ok (entries.foldl applyAction state) := by
  induction entries with
  | nil => exact fun _ _ => rfl
  | cons entry rest ih =>
    intro state inRange
    obtain ⟨inside, bounded⟩ := inRange entry List.mem_cons_self
    rw [List.foldlM_cons, applyActionChecked_eq state.2 inside bounded]
    exact ih _ fun other member => inRange other (List.mem_cons_of_mem entry member)

/-- **A plan whose keys are inside the ring does not panic.** -/
theorem applyRecoveryChecked_eq {node : TrainsNode cfg} (tidy : node.Tidy)
    {plan : RecoveryPlan cfg} (inRange : ∀ entry ∈ plan.actions.entries,
      entry.1.issuer < cfg.ringSize ∧ entry.1.clock ≤ u64Max) :
    node.applyRecoveryChecked plan = .ok (node.applyRecovery plan) := by
  have loop := Tidy.applyActions plan.actions.entries tidy
    (fun entry member => (inRange entry member).1) []
  have installed : (TrainsNode.installView
      (plan.actions.entries.foldl applyAction (node, [])).1 plan).Tidy :=
    loop.tidy.congr rfl rfl fun _ => le_rfl
  unfold applyRecoveryChecked
  rw [applyActionsChecked_eq _ _ inRange]
  show (TrainsNode.drainParkedChecked _ >>= _) = _
  rw [drainParkedChecked_eq installed]
  rfl

/-- **A plan with a key of an issuer outside the ring panics.** -/
theorem applyRecoveryChecked_outside (node : TrainsNode cfg) {plan : RecoveryPlan cfg}
    (bounded : ∀ entry ∈ plan.actions.entries, entry.1.clock ≤ u64Max)
    (outside : ∃ entry ∈ plan.actions.entries, ¬ entry.1.issuer < cfg.ringSize) :
    node.applyRecoveryChecked plan = .error .indexOutOfRange := by
  have loop : ∀ (entries : List (ClockKey × RecoveryAction)) (state : TrainsNode cfg × List Output),
      (∀ entry ∈ entries, entry.1.clock ≤ u64Max) →
      (∃ entry ∈ entries, ¬ entry.1.issuer < cfg.ringSize) →
      entries.foldlM applyActionChecked state = .error .indexOutOfRange := by
    intro entries
    induction entries with
    | nil => exact fun _ _ ⟨_, member, _⟩ => absurd member List.not_mem_nil
    | cons entry rest ih =>
      intro state bounded ⟨other, member, far⟩
      rw [List.foldlM_cons]
      by_cases inside : entry.1.issuer < cfg.ringSize
      · rw [applyActionChecked_eq state.2 inside (bounded entry List.mem_cons_self)]
        refine ih _ (fun other member => bounded other (List.mem_cons_of_mem entry member))
          ⟨other, (List.mem_cons.mp member).resolve_left fun same => far (same ▸ inside), far⟩
      · unfold applyActionChecked
        rw [checkAndUpdateChecked_outside _ _ inside]
        rfl
  unfold applyRecoveryChecked
  rw [loop _ _ bounded outside]
  rfl

end TrainsNode

end TrainsRing
