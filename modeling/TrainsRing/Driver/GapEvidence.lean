/-
**Clock gaps as evidence of a crash.**

A gap is noticed when a later train of the same issuer comes, and the event loop takes that train for
a sign of life first. So every hint against a process finds its count at zero and leaves it at one,
and however many gaps follow each other, they never add up to `STRIKE_THRESHOLD`. Only the report
that a process is unreachable confirms its crash.

* `Driver.turnEvents` — what one turn of the loop tells the failure detector.
* `Driver.handle_detector` — **a turn changes the detector by these calls only.**
* `Watch`, `watchedLife` — the runs of a driver, with the history of its detector and the number of
  gap trains of one issuer in a row.
* `Answered` — every hint in the history stands right after a sign of life.
* `gaps_confirm_nothing` — a run with three gap trains in a row.
* `gap_evidence` — **after gap trains in a row, the crash is confirmed if and only if the process
  had been reported unreachable.**
-/

import TrainsRing.Driver.Detector
import TrainsRing.Driver.NoPanic
import TrainsRing.Library.Fallible

namespace TrainsRing

variable {cfg : RingConfig}

namespace Driver

/-! ### What a turn tells the detector -/

/-- The calls of the failure detector in one turn of the event loop, in order. -/
def turnEvents (d : Driver cfg) : DriverEvent cfg → List DetectorEvent
  | .line _ => []
  | .received (.train train) =>
    .alive train.issuer :: (suspects (d.core.handleTrain train).2).map .gapHint
  | .received (.viewChange _) => []
  | .unreachable victim =>
    if d.reconfig = true ∧ victim ∉ d.dead then [.disconnect victim] else []
  | .tick => []

theorem exclude_detector {d : Driver cfg} {victim : Nat} {result : Driver cfg × List (Effect cfg)}
    (ok : d.exclude victim = .ok result) : result.1.detector = d.detector := by
  unfold exclude at ok
  split_ifs at ok
  · exact Except.ok.inj ok ▸ rfl
  · obtain ⟨confirmed, -, ok⟩ := bind_ok.mp ok
    dsimp only at ok
    split_ifs at ok
    · exact Except.ok.inj ok ▸ rfl
    · exact Except.ok.inj ok ▸ rfl

theorem execute_detector {d : Driver cfg} {actions : List (VcAction cfg)}
    {result : Driver cfg × List (Effect cfg)} (ok : d.execute actions = .ok result) :
    result.1.detector = d.detector := by
  refine foldlM_ok (P := fun state _ => state.1.detector = d.detector)
    (fun state action rest state' one kept => ?_) ok rfl
  cases action with
  | send msg => exact Except.ok.inj one ▸ kept
  | apply plan =>
    unfold executeOne at one
    obtain ⟨applied, -, one⟩ := bind_ok.mp one
    split_ifs at one
    · obtain ⟨reissued, -, one⟩ := bind_ok.mp one
      exact Except.ok.inj one ▸ kept
    · exact Except.ok.inj one ▸ kept

/-- A confirmed crash is acted on without telling the detector. -/
theorem confirm_detector {d : Driver cfg} {victim : Nat} {result : Driver cfg × List (Effect cfg)}
    (ok : d.confirm victim = .ok result) : result.1.detector = d.detector := by
  unfold confirm at ok
  obtain ⟨excluded, first, ok⟩ := bind_ok.mp ok
  obtain ⟨next, -, ok⟩ := bind_ok.mp ok
  obtain ⟨executed, last, ok⟩ := bind_ok.mp ok
  exact Except.ok.inj ok ▸ (execute_detector last).trans (exclude_detector first)

theorem handleVc_detector {d : Driver cfg} {msg : ViewChangeMsg cfg}
    {result : Driver cfg × List (Effect cfg)} (ok : d.handleVc msg = .ok result) :
    result.1.detector = d.detector := by
  unfold handleVc at ok
  cases named : msg.victim with
  | none =>
    rw [named] at ok
    exact Except.ok.inj ok ▸ rfl
  | some victim =>
    rw [named] at ok
    obtain ⟨excluded, first, ok⟩ := bind_ok.mp ok
    obtain ⟨executed, last, ok⟩ := bind_ok.mp ok
    exact Except.ok.inj ok ▸ (execute_detector last).trans (exclude_detector first)

/-- A suspect of the core is a hint to the detector; one that is confirmed already makes no
difference to it. -/
theorem processOut_suspect {state result : Driver cfg × List (Effect cfg)} {victim : Nat}
    (ok : processOut state (.declareCrash victim) = .ok result) :
    result.1.detector = (state.1.detector.event (.gapHint victim)).1 := by
  unfold processOut at ok
  dsimp only at ok
  by_cases known : victim ∈ state.1.detector.confirmed
  · have idle : state.1.detector.event (.gapHint victim) = (state.1.detector, none) :=
      FailureDetector.addStrikes_confirmed known
    rw [if_pos known] at ok
    rw [idle]
    exact Except.ok.inj ok ▸ rfl
  rw [if_neg known] at ok
  cases hint : (state.1.detector.recordGapHint victim).2 with
  | none =>
    rw [hint] at ok
    exact Except.ok.inj ok ▸ rfl
  | some confirmed =>
    rw [hint] at ok
    dsimp only at ok
    split_ifs at ok
    · obtain ⟨changed, acted, ok⟩ := bind_ok.mp ok
      have kept := confirm_detector acted
      exact Except.ok.inj ok ▸ kept
    · obtain ⟨recovered, -, ok⟩ := bind_ok.mp ok
      exact Except.ok.inj ok ▸ rfl

/-- **The outputs of the core reach the detector as hints.** -/
theorem processOuts_detector {d : Driver cfg} {outputs : List Output}
    {result : Driver cfg × List (Effect cfg)} (ok : d.processOuts outputs = .ok result) :
    result.1.detector = d.detector.after ((suspects outputs).map .gapHint) := by
  refine foldlM_ok (P := fun state rest => state.1.detector.after ((suspects rest).map .gapHint) =
    d.detector.after ((suspects outputs).map .gapHint)) (fun state output rest state' one kept => ?_)
    ok rfl
  cases output with
  | forwardTrain train => exact Except.ok.inj one ▸ kept
  | deliver payloads => exact Except.ok.inj one ▸ kept
  | declareCrash victim =>
    rw [processOut_suspect one]
    exact kept

/-- **A turn changes the detector by its calls only.** -/
theorem handle_detector {d : Driver cfg} (steady : d.Steady) {event : DriverEvent cfg}
    (typed : event.Typed) {result : Driver cfg × List (Effect cfg)}
    (ok : d.handle event = .ok result) :
    result.1.detector = d.detector.after (d.turnEvents event) := by
  cases event with
  | line data =>
    have silent : (d.core.handleBroadcast data).2 = [] := by
      unfold TrainsNode.handleBroadcast
      split <;> rfl
    have processed := processOuts_detector ok
    rw [silent] at processed
    exact processed
  | received msg =>
    cases msg with
    | train received =>
      unfold handle at ok
      obtain ⟨handled, first, ok⟩ := bind_ok.mp ok
      by_cases inside : received.issuer < cfg.ringSize
      · have same := TrainsNode.handleTrainChecked_eq steady.core.settling inside typed
        obtain rfl := Except.ok.inj (same.symm.trans first)
        exact processOuts_detector ok
      · rw [TrainsNode.handleTrainChecked_outside d.core inside] at first
        cases first
    | viewChange msg =>
      unfold handle at ok
      dsimp only at ok
      split_ifs at ok
      · exact handleVc_detector ok
      · exact Except.ok.inj ok ▸ rfl
  | unreachable victim =>
    unfold handle at ok
    dsimp only [turnEvents] at ok ⊢
    split_ifs at ok ⊢ with listed
    · cases lost : (d.detector.recordDisconnect victim).2 with
      | none =>
        rw [lost] at ok
        exact Except.ok.inj ok ▸ rfl
      | some confirmed =>
        rw [lost] at ok
        exact confirm_detector ok
    · exact Except.ok.inj ok ▸ rfl
  | tick => exact Except.ok.inj ok ▸ rfl

end Driver

/-! ### Histories of the detector -/

/-- The histories the event loop can make: every hint stands right after a sign of life of the same
process. -/
inductive Answered : List DetectorEvent → Prop
  | nil : Answered []
  | alive {history : List DetectorEvent} (p : Nat) (before : Answered history) :
      Answered (history ++ [.alive p])
  | hint {history : List DetectorEvent} (p : Nat) (before : Answered history) :
      Answered (history ++ [.alive p, .gapHint p])
  | lost {history : List DetectorEvent} (p : Nat) (before : Answered history) :
      Answered (history ++ [.disconnect p])

/-- One more event that leaves the evidence at one or below stays under the threshold. -/
theorem unreached_snoc {history : List DetectorEvent} {event : DetectorEvent} {q : Nat}
    (unreached : ¬ Reached strikeThreshold strikeThreshold q history)
    (small : evidence strikeThreshold q (history ++ [event]) ≤ 1) :
    ¬ Reached strikeThreshold strikeThreshold q (history ++ [event]) := by
  intro reached
  rcases (reached_snoc ..).mp reached with old | new
  · exact unreached old
  · exact absurd (new.trans small) (by decide)

/-- Without a disconnect, no more than one hint counts at any time. -/
theorem Answered.few {history : List DetectorEvent} (answered : Answered history) {q : Nat}
    (connected : .disconnect q ∉ history) :
    ¬ Reached strikeThreshold strikeThreshold q history ∧
      evidence strikeThreshold q history ≤ 1 := by
  induction answered with
  | nil =>
    refine ⟨fun ⟨front, isFront, enough⟩ => ?_, by simp [evidence, sinceAlive]⟩
    rw [List.prefix_nil.mp isFront] at enough
    simp [evidence, sinceAlive, strikeThreshold] at enough
  | @alive history p before ih =>
    obtain ⟨unreached, small⟩ := ih fun member => connected (List.mem_append_left _ member)
    have still : evidence strikeThreshold q (history ++ [.alive p]) ≤ 1 := by
      rw [evidence_snoc]
      split_ifs
      · exact Nat.zero_le _
      · exact small
    exact ⟨unreached_snoc unreached still, still⟩
  | @hint history p before ih =>
    obtain ⟨unreached, small⟩ := ih fun member => connected (List.mem_append_left _ member)
    rw [List.append_cons]
    by_cases about : p = q
    · subst about
      have cleared : evidence strikeThreshold p (history ++ [.alive p]) = 0 := by
        rw [evidence_snoc, if_pos rfl]
      have single : evidence strikeThreshold p (history ++ [.alive p] ++ [.gapHint p]) = 1 := by
        rw [evidence_snoc, if_neg (by simp), cleared]
        simp [DetectorEvent.strikes]
      have seen := unreached_snoc unreached (cleared.trans_le (Nat.zero_le 1))
      exact ⟨unreached_snoc seen single.le, single.le⟩
    · rw [reached_other (show (DetectorEvent.gapHint p).process ≠ q from about),
        reached_other (show (DetectorEvent.alive p).process ≠ q from about),
        evidence_other (show (DetectorEvent.gapHint p).process ≠ q from about),
        evidence_other (show (DetectorEvent.alive p).process ≠ q from about)]
      exact ⟨unreached, small⟩
  | @lost history p before ih =>
    obtain ⟨unreached, small⟩ := ih fun member => connected (List.mem_append_left _ member)
    have about : p ≠ q := fun same => connected (List.mem_append_right _ (by simp [same]))
    rw [reached_other (show (DetectorEvent.disconnect p).process ≠ q from about),
      evidence_other (show (DetectorEvent.disconnect p).process ≠ q from about)]
    exact ⟨unreached, small⟩

/-- **Only a disconnect makes the evidence reach the threshold.** -/
theorem Answered.reached_iff {history : List DetectorEvent} (answered : Answered history) (q : Nat) :
    Reached strikeThreshold strikeThreshold q history ↔ .disconnect q ∈ history := by
  refine ⟨fun reached => ?_, fun member => ?_⟩
  · by_contra connected
    exact (answered.few connected).1 reached
  · obtain ⟨front, back, rfl⟩ := List.append_of_mem member
    refine ⟨front ++ [.disconnect q], ⟨back, by simp⟩, ?_⟩
    rw [evidence_snoc, if_neg (by simp)]
    simp [DetectorEvent.strikes]

/-! ### Runs -/

/-- A driver with the history of its detector and the number of gap trains of one issuer since its
last train without a gap. -/
structure Watch (cfg : RingConfig) where
  driver : Driver cfg
  history : List DetectorEvent
  streak : Nat

/-- The gap trains of `q` in a row after an event: the core declares the issuer of such a train
crashed. -/
def Driver.gapStreak (d : Driver cfg) (q count : Nat) : DriverEvent cfg → Nat
  | .received (.train train) =>
    if train.issuer = q then
      if q ∈ suspects (d.core.handleTrain train).2 then count + 1 else 0
    else count
  | _ => count

/-- The runs of a driver, watched for gap trains of `q`. -/
def watchedLife (cfg : RingConfig) (q : Nat) : Machine (Watch cfg) (DriverEvent cfg) where
  start := fun w => (driverLife cfg).start w.driver ∧ w.history = [] ∧ w.streak = 0
  legal := fun w event => (driverLife cfg).legal w.driver event
  next := fun w event => ⟨w.driver.after event, w.history ++ w.driver.turnEvents event,
    w.driver.gapStreak q w.streak event⟩

instance (cfg : RingConfig) (q : Nat) (w : Watch cfg) (event : DriverEvent cfg) :
    Decidable ((watchedLife cfg q).legal w event) :=
  inferInstanceAs (Decidable ((driverLife cfg).legal w.driver event))

/-- What the loop tells the detector in a turn. -/
theorem Answered.turn {history : List DetectorEvent} (answered : Answered history) (d : Driver cfg)
    (event : DriverEvent cfg) : Answered (history ++ d.turnEvents event) := by
  have quiet : Answered (history ++ []) := by rwa [List.append_nil]
  cases event with
  | line data => exact quiet
  | received msg =>
    cases msg with
    | train received =>
      unfold Driver.turnEvents
      dsimp only
      rcases d.core.suspects_issuer received with none | one
      · rw [none]
        exact answered.alive received.issuer
      · rw [one]
        exact answered.hint received.issuer
    | viewChange msg => exact quiet
  | unreachable victim =>
    unfold Driver.turnEvents
    dsimp only
    split_ifs
    · exact answered.lost victim
    · exact quiet
  | tick => exact quiet

/-- **The detector of a driver is what its history says.** -/
theorem watched {q : Nat} {w : Watch cfg} (reachable : (watchedLife cfg q).Reachable w) :
    (driverLife cfg).Reachable w.driver ∧ Answered w.history ∧
      w.driver.detector = (FailureDetector.new strikeThreshold strikeThreshold).after w.history := by
  refine Machine.invariant (P := fun w => (driverLife cfg).Reachable w.driver ∧
    Answered w.history ∧ w.driver.detector =
      (FailureDetector.new strikeThreshold strikeThreshold).after w.history)
    (fun first initial => ?_) (fun w event before legal => ?_) reachable
  · obtain ⟨launched, history, -⟩ := initial
    rw [history]
    refine ⟨Machine.Reachable.start launched, .nil, ?_⟩
    obtain ⟨id, id_lt, mode, reconfig, issues, same⟩ := launched
    rw [same]
    rfl
  · obtain ⟨alive, answered, same⟩ := before
    refine ⟨alive.take legal, answered.turn w.driver event, ?_⟩
    show (w.driver.after event).detector = _
    unfold Driver.after
    have ok := legal.2
    cases handled : w.driver.handle event with
    | error panic =>
      rw [handled] at ok
      cases ok
    | ok result =>
      show result.1.detector = FailureDetector.after _ (_ ++ _)
      rw [Driver.handle_detector (Driver.steady alive) legal.1 handled, same]
      exact (List.foldl_append ..).symm

/-- A disconnect in the history comes from a report that the process is unreachable. -/
theorem unreachable_of_disconnect {q p : Nat} (events : List (DriverEvent cfg)) :
    ∀ w : Watch cfg, .disconnect p ∈ ((watchedLife cfg q).run w events).history →
      .disconnect p ∈ w.history ∨ .unreachable p ∈ events := by
  induction events with
  | nil => exact fun w member => Or.inl member
  | cons event rest ih =>
    intro w member
    rcases ih _ member with recorded | later
    · rcases List.mem_append.mp recorded with old | new
      · exact Or.inl old
      · refine Or.inr (List.mem_cons.mpr (Or.inl ?_))
        unfold Driver.turnEvents at new
        cases event with
        | line data => cases new
        | received msg =>
          cases msg with
          | train received => simp at new
          | viewChange msg => cases new
        | unreachable victim =>
          dsimp only at new
          split_ifs at new
          · obtain rfl : p = victim := by simpa using new
            rfl
          · cases new
        | tick => cases new
    · exact Or.inr (List.mem_cons_of_mem _ later)

/-- Gap trains of `q` in a row confirm its crash. -/
def GapsConfirm (q : Nat) (w : Watch cfg) : Prop :=
  strikeThreshold ≤ w.streak → w.driver.detector.isConfirmed q = true

instance (q : Nat) (w : Watch cfg) : Decidable (GapsConfirm q w) := by
  unfold GapsConfirm
  infer_instance

/-- Node 0 before its first turn. -/
def watchedDriver : Watch .triple :=
  ⟨Driver.launch 0 RingConfig.triple.ringSize_pos .totalOrder true false, [], 0⟩

/-- Every second train of issuer 1 is lost. -/
def lossyEvents : List (DriverEvent .triple) :=
  [.received (.train ⟨1, 2, [], 2#32⟩), .received (.train ⟨1, 4, [], 2#32⟩),
    .received (.train ⟨1, 6, [], 2#32⟩)]

/-- Three gap trains in a row leave one strike. -/
theorem gaps_confirm_nothing : ¬ ∀ (cfg : RingConfig) (q : Nat) (first : Watch cfg)
    (events : List (DriverEvent cfg)), (watchedLife cfg q).start first →
      (watchedLife cfg q).LegalRun first events → (∀ p, .unreachable p ∉ events) →
      GapsConfirm q ((watchedLife cfg q).run first events) := by
  intro holds
  have confirmed := holds .triple 1 watchedDriver lossyEvents
    ⟨⟨0, by decide, .totalOrder, true, false, rfl⟩, rfl, rfl⟩ (by decide +kernel)
    (fun p => by simp [lossyEvents])
  exact absurd confirmed (by decide +kernel)

/-- **Clock gaps never confirm a crash.** Gap trains in a row confirm the crash of their issuer if
and only if it had been reported unreachable, with view changes on and not excluded yet; in a run
without such a report they never do. -/
theorem gap_evidence {q : Nat} {first : Watch cfg} (launched : (watchedLife cfg q).start first)
    {events : List (DriverEvent cfg)} (legal : (watchedLife cfg q).LegalRun first events) :
    let last := (watchedLife cfg q).run first events
    (GapsConfirm q last ↔ (strikeThreshold ≤ last.streak → .disconnect q ∈ last.history)) ∧
      (.unreachable q ∉ events → (GapsConfirm q last ↔ last.streak < strikeThreshold)) := by
  intro last
  obtain ⟨-, answered, same⟩ := watched (Machine.reachable_run launched legal)
  have confirmed : last.driver.detector.isConfirmed q = true ↔ .disconnect q ∈ last.history := by
    rw [same, (detector_exact (by decide) (by decide) _ q).1, answered.reached_iff]
  refine ⟨forall_congr' fun _ => confirmed, fun silent => ?_⟩
  have connected : .disconnect q ∉ last.history := fun member => by
    rcases unreachable_of_disconnect events first member with old | reported
    · rw [launched.2.1] at old
      cases old
    · exact silent reported
  unfold GapsConfirm
  rw [confirmed]
  simp [connected]

theorem gap_evidence_triple :
    GapsConfirm 1 ((watchedLife .triple 1).run watchedDriver lossyEvents) ↔
      ((watchedLife .triple 1).run watchedDriver lossyEvents).streak < strikeThreshold := by
  have evidence := gap_evidence (q := 1)
    (show (watchedLife .triple 1).start watchedDriver from
      ⟨⟨0, by decide, .totalOrder, true, false, rfl⟩, rfl, rfl⟩)
    (show (watchedLife .triple 1).LegalRun watchedDriver lossyEvents by decide +kernel)
  exact evidence.2 (by simp [lossyEvents])

end TrainsRing
