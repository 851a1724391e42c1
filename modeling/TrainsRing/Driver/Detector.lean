/-
**The failure detector and its history** (`trains-recovery/src/failure_detector.rs`).

The detector keeps one counter per process and a set of confirmed processes. What it answers is a
function of the history of its events: of the evidence against a process since its last sign of
life, and of whether that has ever reached the threshold.

* `DetectorEvent`, `FailureDetector.event`, `FailureDetector.after` — the calls and their runs.
* `evidence` — hints, and weighted disconnects, since the last sign of life.
* `Reached` — the evidence has reached the threshold at some point of the history.
* `Tallied` — the detector's state is what the history says; `Tallied.event` is one event.
* `detector_exact` — **what the detector answers, and when.**
-/

import TrainsRing.Driver.Driver

namespace TrainsRing

/-- A call of the failure detector. -/
inductive DetectorEvent where
  | gapHint (p : Nat)
  | disconnect (p : Nat)
  | alive (p : Nat)
  deriving DecidableEq, Repr

/-- The process an event is about. -/
def DetectorEvent.process : DetectorEvent → Nat
  | gapHint p => p
  | disconnect p => p
  | alive p => p

namespace FailureDetector

/-- `is_confirmed`. -/
def isConfirmed (detector : FailureDetector) (p : Nat) : Bool := decide (p ∈ detector.confirmed)

/-- `suspicion`. -/
def suspicion (detector : FailureDetector) (p : Nat) : Nat := (detector.strikes.get? p).getD 0

/-- One call, with what it returns; `note_alive` returns nothing. -/
def event (detector : FailureDetector) : DetectorEvent → FailureDetector × Option Nat
  | .gapHint p => detector.recordGapHint p
  | .disconnect p => detector.recordDisconnect p
  | .alive p => (detector.noteAlive p, none)

/-- The detector after some calls. -/
def after (detector : FailureDetector) (events : List DetectorEvent) : FailureDetector :=
  events.foldl (fun detector event => (detector.event event).1) detector

end FailureDetector

/-! ### What the history says -/

/-- The events since the last sign of life of a process, latest first. -/
def sinceAlive (p : Nat) (events : List DetectorEvent) : List DetectorEvent :=
  events.reverse.takeWhile fun event => event ≠ .alive p

/-- The evidence against a process since its last sign of life. -/
def evidence (weight p : Nat) (events : List DetectorEvent) : Nat :=
  (sinceAlive p events).count (.gapHint p) + weight * (sinceAlive p events).count (.disconnect p)

/-- The evidence against a process has reached the threshold at some point of the history. -/
def Reached (threshold weight p : Nat) (events : List DetectorEvent) : Prop :=
  ∃ front, front <+: events ∧ threshold ≤ evidence weight p front

/-- What an event adds to the evidence against a process. -/
def DetectorEvent.strikes (weight p : Nat) : DetectorEvent → Nat
  | gapHint q => if q = p then 1 else 0
  | disconnect q => if q = p then weight else 0
  | alive _ => 0

/-- **The evidence after one more event.** -/
theorem evidence_snoc (weight p : Nat) (events : List DetectorEvent) (event : DetectorEvent) :
    evidence weight p (events ++ [event]) =
      if event = .alive p then 0 else evidence weight p events + event.strikes weight p := by
  unfold evidence sinceAlive
  rw [List.reverse_append, List.reverse_singleton, List.singleton_append, List.takeWhile_cons]
  by_cases sign : event = .alive p
  · simp [sign]
  rw [if_pos (by simpa using sign), if_neg sign, List.count_cons, List.count_cons]
  cases event with
  | gapHint q =>
    by_cases same : q = p
    · simp only [DetectorEvent.strikes, same, beq_self_eq_true, if_true, reduceCtorEq, beq_iff_eq,
        if_false, Nat.add_zero]
      omega
    · simp [DetectorEvent.strikes, same]
  | disconnect q =>
    by_cases same : q = p
    · simp only [DetectorEvent.strikes, same, beq_self_eq_true, if_true, reduceCtorEq, beq_iff_eq,
        if_false]
      ring
    · simp [DetectorEvent.strikes, same]
  | alive q => simp [DetectorEvent.strikes]

theorem reached_snoc (threshold weight p : Nat) (events : List DetectorEvent)
    (event : DetectorEvent) : Reached threshold weight p (events ++ [event]) ↔
      Reached threshold weight p events ∨ threshold ≤ evidence weight p (events ++ [event]) := by
  unfold Reached
  simp only [List.prefix_concat_iff, or_and_right, exists_or, exists_eq_left]
  exact or_comm

/-- An event about another process leaves the evidence alone. -/
theorem evidence_other {weight p : Nat} {events : List DetectorEvent} {event : DetectorEvent}
    (other : event.process ≠ p) :
    evidence weight p (events ++ [event]) = evidence weight p events := by
  rw [evidence_snoc]
  cases event with
  | gapHint q => simp [DetectorEvent.strikes, show q ≠ p from other]
  | disconnect q => simp [DetectorEvent.strikes, show q ≠ p from other]
  | alive q => simp [DetectorEvent.strikes, show q ≠ p from other]

theorem reached_other {threshold weight p : Nat} {events : List DetectorEvent}
    {event : DetectorEvent} (other : event.process ≠ p) :
    Reached threshold weight p (events ++ [event]) ↔ Reached threshold weight p events := by
  rw [reached_snoc, evidence_other other, or_iff_left_of_imp]
  exact fun enough => ⟨events, List.prefix_rfl, enough⟩

/-! ### One event -/

namespace FailureDetector

/-- An event about another process changes nothing about this one. -/
theorem event_other (detector : FailureDetector) {event : DetectorEvent} {p : Nat}
    (other : event.process ≠ p) :
    (p ∈ (detector.event event).1.confirmed ↔ p ∈ detector.confirmed) ∧
      (detector.event event).1.suspicion p = detector.suspicion p ∧
      (detector.event event).2 ≠ some p := by
  have strikes : ∀ q n, q ≠ p → (p ∈ (detector.addStrikes q n).1.confirmed ↔
      p ∈ detector.confirmed) ∧ (detector.addStrikes q n).1.suspicion p = detector.suspicion p ∧
      (detector.addStrikes q n).2 ≠ some p := by
    intro q n other
    unfold addStrikes
    dsimp only
    split_ifs
    · simp
    · simp [suspicion, OrdMap.get?_erase, Ne.symm other, other]
    · simp [suspicion, OrdMap.get?_insert, Ne.symm other]
  cases event with
  | gapHint q => exact strikes q 1 other
  | disconnect q => exact strikes q detector.disconnectWeight other
  | alive q =>
    have apart : p ≠ q := Ne.symm other
    unfold FailureDetector.event noteAlive
    dsimp only
    split_ifs <;> simp [suspicion, OrdMap.get?_erase, apart]

/-- The threshold and the weight stay. -/
theorem event_constants (detector : FailureDetector) (event : DetectorEvent) :
    (detector.event event).1.threshold = detector.threshold ∧
      (detector.event event).1.disconnectWeight = detector.disconnectWeight := by
  have strikes : ∀ q n, (detector.addStrikes q n).1.threshold = detector.threshold ∧
      (detector.addStrikes q n).1.disconnectWeight = detector.disconnectWeight := by
    intro q n
    unfold addStrikes
    dsimp only
    split_ifs <;> exact ⟨rfl, rfl⟩
  cases event with
  | gapHint q => exact strikes q 1
  | disconnect q => exact strikes q detector.disconnectWeight
  | alive q =>
    unfold FailureDetector.event noteAlive
    dsimp only
    split_ifs <;> exact ⟨rfl, rfl⟩

variable {detector : FailureDetector} {p n : Nat}

/-- A confirmed process collects no strikes. -/
theorem addStrikes_confirmed (confirmed : p ∈ detector.confirmed) :
    detector.addStrikes p n = (detector, none) := if_pos confirmed

/-- The strikes that reach the threshold; saturation is above it. -/
theorem addStrikes_reaching (fits : detector.threshold < 2 ^ 32) (fresh : p ∉ detector.confirmed)
    (enough : detector.threshold ≤ detector.suspicion p + n) :
    (detector.addStrikes p n).2 = some p ∧ p ∈ (detector.addStrikes p n).1.confirmed ∧
      (detector.addStrikes p n).1.suspicion p = 0 := by
  have saturated : detector.threshold ≤
      min ((detector.strikes.get? p).getD 0 + n) (2 ^ 32 - 1) := by
    unfold suspicion at enough
    omega
  unfold addStrikes
  rw [if_neg fresh]
  dsimp only
  rw [if_pos saturated]
  simp [suspicion, OrdMap.get?_erase]

/-- The strikes that do not reach it are counted. -/
theorem addStrikes_below (fits : detector.threshold < 2 ^ 32) (fresh : p ∉ detector.confirmed)
    (below : detector.suspicion p + n < detector.threshold) :
    (detector.addStrikes p n).2 = none ∧ p ∉ (detector.addStrikes p n).1.confirmed ∧
      (detector.addStrikes p n).1.suspicion p = detector.suspicion p + n := by
  have unsaturated : min ((detector.strikes.get? p).getD 0 + n) (2 ^ 32 - 1) =
      detector.suspicion p + n := by
    unfold suspicion at below ⊢
    omega
  unfold addStrikes
  rw [if_neg fresh]
  dsimp only
  rw [unsaturated, if_neg (not_le.mpr below)]
  refine ⟨rfl, fresh, ?_⟩
  simp [suspicion, OrdMap.get?_insert]

/-! ### What the detector keeps -/

/-- What the detector keeps of a process is what the history says. -/
structure Tallied (threshold weight : Nat) (events : List DetectorEvent)
    (detector : FailureDetector) (p : Nat) : Prop where
  confirmed : p ∈ detector.confirmed ↔ Reached threshold weight p events
  counting : ¬ Reached threshold weight p events →
    detector.suspicion p = evidence weight p events
  settled : Reached threshold weight p events → detector.suspicion p = 0

/-- The event returns the process when it makes the evidence reach the threshold for the first
time. -/
def Announces (threshold weight p : Nat) (events : List DetectorEvent) (event : DetectorEvent) :
    Prop :=
  ¬ Reached threshold weight p events ∧ threshold ≤ evidence weight p (events ++ [event])

section Tally

variable {threshold weight : Nat} {events : List DetectorEvent}

/-- **Strikes against a process.** -/
theorem Tallied.strikes (tallied : Tallied threshold weight events detector p)
    (limit : detector.threshold = threshold) (fits : threshold < 2 ^ 32) {event : DetectorEvent}
    (record : event ≠ .alive p) (adds : event.strikes weight p = n) :
    Tallied threshold weight (events ++ [event]) (detector.addStrikes p n).1 p ∧
      ((detector.addStrikes p n).2 = some p ↔ Announces threshold weight p events event) := by
  have grown : evidence weight p (events ++ [event]) = evidence weight p events + n := by
    rw [evidence_snoc, if_neg record, adds]
  unfold Announces
  by_cases reached : Reached threshold weight p events
  · have still : Reached threshold weight p (events ++ [event]) :=
      (reached_snoc ..).mpr (Or.inl reached)
    rw [addStrikes_confirmed (tallied.confirmed.mpr reached)]
    refine ⟨⟨?_, fun short => absurd still short, fun _ => tallied.settled reached⟩, ?_⟩
    · exact iff_of_true (tallied.confirmed.mpr reached) still
    · simp [reached]
  have fresh : p ∉ detector.confirmed := fun confirmed => reached (tallied.confirmed.mp confirmed)
  have count := tallied.counting reached
  subst limit
  by_cases enough : detector.threshold ≤ evidence weight p events + n
  · have now : Reached detector.threshold weight p (events ++ [event]) :=
      (reached_snoc ..).mpr (Or.inr (grown ▸ enough))
    obtain ⟨returned, confirmed, cleared⟩ := addStrikes_reaching fits fresh (count ▸ enough)
    refine ⟨⟨iff_of_true confirmed now, fun short => absurd now short, fun _ => cleared⟩, ?_⟩
    exact iff_of_true returned ⟨reached, grown ▸ enough⟩
  · have short : ¬ Reached detector.threshold weight p (events ++ [event]) := by
      rw [reached_snoc, grown]
      exact not_or.mpr ⟨reached, enough⟩
    obtain ⟨returned, fresh', counted⟩ := addStrikes_below fits fresh (count ▸ not_le.mp enough)
    refine ⟨⟨iff_of_false fresh' short, fun _ => ?_, fun now => absurd now short⟩, ?_⟩
    · rw [counted, count, grown]
    · refine iff_of_false (by simp [returned]) fun announced => enough ?_
      exact grown ▸ announced.2

/-- **A sign of life.** -/
theorem Tallied.alive (tallied : Tallied threshold weight events detector p)
    (positive : 1 ≤ threshold) :
    Tallied threshold weight (events ++ [.alive p]) (detector.noteAlive p) p ∧
      ¬ Announces threshold weight p events (.alive p) := by
  have cleared : evidence weight p (events ++ [.alive p]) = 0 := by
    rw [evidence_snoc, if_pos rfl]
  have same : Reached threshold weight p (events ++ [.alive p]) ↔
      Reached threshold weight p events := by
    rw [reached_snoc, cleared]
    exact or_iff_left (by omega)
  refine ⟨?_, fun announced => ?_⟩
  · unfold noteAlive
    split_ifs with known
    · have reached := tallied.confirmed.mp known
      exact ⟨iff_of_true known (same.mpr reached), fun short => absurd (same.mpr reached) short,
        fun _ => tallied.settled reached⟩
    · have short : ¬ Reached threshold weight p events := fun reached =>
        known (tallied.confirmed.mpr reached)
      refine ⟨iff_of_false known fun reached => short (same.mp reached), fun _ => ?_,
        fun reached => absurd (same.mp reached) short⟩
      rw [cleared]
      simp [suspicion, OrdMap.get?_erase]
  · have enough := announced.2
    omega

/-- **One event.** -/
theorem Tallied.event (tallied : Tallied threshold weight events detector p)
    (limit : detector.threshold = threshold) (load : detector.disconnectWeight = weight)
    (positive : 1 ≤ threshold) (fits : threshold < 2 ^ 32) (event : DetectorEvent) :
    Tallied threshold weight (events ++ [event]) (detector.event event).1 p ∧
      ((detector.event event).2 = some p ↔ Announces threshold weight p events event) := by
  by_cases about : event.process = p
  · cases event with
    | gapHint q =>
      obtain rfl : q = p := about
      exact tallied.strikes limit fits (by simp) (by simp [DetectorEvent.strikes])
    | disconnect q =>
      obtain rfl : q = p := about
      exact tallied.strikes limit fits (by simp) (by simp [DetectorEvent.strikes, load])
    | alive q =>
      obtain rfl : q = p := about
      obtain ⟨kept, silent⟩ := tallied.alive positive
      exact ⟨kept, iff_of_false (by simp [FailureDetector.event]) silent⟩
  · obtain ⟨confirmed, count, returned⟩ := detector.event_other about
    refine ⟨⟨?_, fun short => ?_, fun reached => ?_⟩, iff_of_false returned fun announced => ?_⟩
    · rw [confirmed, reached_other about]
      exact tallied.confirmed
    · rw [count, evidence_other about]
      exact tallied.counting fun reached => short ((reached_other about).mpr reached)
    · rw [count]
      exact tallied.settled ((reached_other about).mp reached)
    · have enough := announced.2
      rw [evidence_other about] at enough
      exact announced.1 ⟨events, List.prefix_rfl, enough⟩

/-- **Every history.** -/
theorem tallied_after (weight : Nat) (positive : 1 ≤ threshold) (fits : threshold < 2 ^ 32)
    (p : Nat) (events : List DetectorEvent) :
    Tallied threshold weight events ((new threshold weight).after events) p ∧
      ((new threshold weight).after events).threshold = threshold ∧
      ((new threshold weight).after events).disconnectWeight = weight := by
  induction events using List.reverseRecOn with
  | nil =>
    have none : ¬ Reached threshold weight p [] := by
      rintro ⟨front, isFront, enough⟩
      rw [List.prefix_nil.mp isFront] at enough
      simp [evidence, sinceAlive] at enough
      omega
    refine ⟨⟨iff_of_false (Finset.notMem_empty p) none, fun _ => ?_, fun reached =>
      absurd reached none⟩, rfl, rfl⟩
    simp [after, new, suspicion, evidence, sinceAlive]
  | append_singleton events event ih =>
    obtain ⟨tallied, limit, load⟩ := ih
    have last : (new threshold weight).after (events ++ [event]) =
        (((new threshold weight).after events).event event).1 := by
      simp [after]
    rw [last]
    obtain ⟨limit', load'⟩ := ((new threshold weight).after events).event_constants event
    exact ⟨(tallied.event limit load positive fits event).1, limit'.trans limit, load'.trans load⟩

end Tally

end FailureDetector

/-! ### Other processes -/

/-- **The history of the other processes does not matter.** -/
theorem evidence_filter (weight p : Nat) (events : List DetectorEvent) :
    evidence weight p (events.filter fun event => event.process = p) = evidence weight p events := by
  induction events using List.reverseRecOn with
  | nil => rfl
  | append_singleton events event ih =>
    rw [List.filter_append]
    by_cases about : event.process = p
    · rw [List.filter_cons_of_pos (by simpa using about), List.filter_nil, evidence_snoc,
        evidence_snoc, ih]
    · rw [List.filter_cons_of_neg (by simpa using about), List.filter_nil, List.append_nil, ih,
        evidence_other about]

theorem reached_filter (threshold weight p : Nat) (events : List DetectorEvent) :
    Reached threshold weight p (events.filter fun event => event.process = p) ↔
      Reached threshold weight p events := by
  induction events using List.reverseRecOn with
  | nil => rfl
  | append_singleton events event ih =>
    have whole := evidence_filter weight p (events ++ [event])
    rw [List.filter_append] at whole ⊢
    by_cases about : event.process = p
    · rw [List.filter_cons_of_pos (by simpa using about), List.filter_nil] at whole ⊢
      rw [reached_snoc, reached_snoc, ih, whole]
    · rw [List.filter_cons_of_neg (by simpa using about), List.filter_nil, List.append_nil, ih,
        reached_other about]

/-- **The failure detector decides by the history since the last sign of life.** After any calls, a
process is confirmed iff the evidence against it has reached the threshold at some point; until then
its suspicion is that evidence, afterwards it is zero; a call returns a process exactly when it makes
the evidence reach the threshold for the first time; and only the calls about a process matter to any
of this. -/
theorem detector_exact {threshold weight : Nat} (positive : 1 ≤ threshold)
    (fits : threshold < 2 ^ 32) (events : List DetectorEvent) (p : Nat) :
    let detector := (FailureDetector.new threshold weight).after events
    let alone := (FailureDetector.new threshold weight).after
      (events.filter fun event => event.process = p)
    (detector.isConfirmed p = true ↔ Reached threshold weight p events) ∧
      (¬ Reached threshold weight p events → detector.suspicion p = evidence weight p events) ∧
      (Reached threshold weight p events → detector.suspicion p = 0) ∧
      (∀ event, (detector.event event).2 = some p ↔
        ¬ Reached threshold weight p events ∧ threshold ≤ evidence weight p (events ++ [event])) ∧
      (∀ event, event.process ≠ p → (detector.event event).2 ≠ some p) ∧
      detector.isConfirmed p = alone.isConfirmed p ∧ detector.suspicion p = alone.suspicion p := by
  intro detector alone
  obtain ⟨tallied, limit, load⟩ := FailureDetector.tallied_after weight positive fits p events
  obtain ⟨only, -, -⟩ := FailureDetector.tallied_after weight positive fits p
    (events.filter fun event => event.process = p)
  have same := reached_filter threshold weight p events
  refine ⟨decide_eq_true_iff.trans tallied.confirmed, tallied.counting, tallied.settled,
    fun event => (tallied.event limit load positive fits event).2,
    fun event other => (detector.event_other other).2.2, ?_, ?_⟩
  · exact decide_eq_decide.mpr (tallied.confirmed.trans (same.symm.trans only.confirmed.symm))
  · by_cases reached : Reached threshold weight p events
    · exact (tallied.settled reached).trans (only.settled (same.mpr reached)).symm
    · have short := fun reached' => reached (same.mp reached')
      exact (tallied.counting reached).trans
        ((only.counting short).trans (evidence_filter weight p events)).symm

/-- A hint before the last sign of life does not count, a disconnect and a hint after it do. -/
theorem detector_exact_confirms : ((FailureDetector.new 3 2).after
    [.gapHint 1, .alive 1, .disconnect 1, .gapHint 2, .gapHint 1]).isConfirmed 1 = true :=
  (detector_exact (by decide) (by decide) _ 1).1.mpr ⟨_, List.prefix_rfl, by decide⟩

end TrainsRing
