/-
**When an issuer recycles its train.**

An issuer that receives its train with the key done sends its next one instead. With FIFO links this is
the case exactly when the train comes home for the second time. The comment at that branch says that
then every node has seen the train closed; but a node may still have the key parked, behind a train of a
smaller issuer that has not reached it.

* `RingState.Recycles` — the branch taken.
* `two_lap_rule` — **a train is recycled at its second return**; `saturated_clock` — a clock at
  `u64::MAX` is stamped again, and that train is recycled at its first return.
* `recycle_guard` — **a recycled key is done everywhere iff** no closed train of its clock and a smaller
  issuer is more than one hop from home; `recycled_while_parked` — a run in which one is.
-/

import TrainsRing.Ring.TwoLaps

namespace TrainsRing

variable {cfg : RingConfig} {mode : DeliveryMode} {st : RingState cfg}

/-- Process `r` recycles the train: it is its own and the key is done. -/
def RingState.Recycles (st : RingState cfg) (r : Fin cfg.ringSize) (t : Train) : Prop :=
  t.issuer = r.val ∧ t.key ∈ (st.world.node r).delivery.doneKeys

instance (st : RingState cfg) (r : Fin cfg.ringSize) (t : Train) : Decidable (st.Recycles r t) :=
  inferInstanceAs (Decidable (_ ∧ _))

/-- `AllDelivered` of the specification: every process has done the key. -/
def RingState.AllDelivered (st : RingState cfg) (key : ClockKey) : Prop :=
  ∀ x, key ∈ (st.world.node x).delivery.doneKeys

instance (st : RingState cfg) (key : ClockKey) : Decidable (st.AllDelivered key) :=
  inferInstanceAs (Decidable (∀ _, _))

/-! ### The second return -/

section Returns

variable {entries : Fin cfg.ringSize → List Entry} {count : LapCount} {hops : Nat → Nat}

/-- A train that comes home is recycled after two laps of its clock. -/
theorem TwoLaps.recycles_iff_far (laps : TwoLaps mode st entries count hops)
    (mode_ne : mode ≠ .causalOrder) {i : Nat} {s : Fin cfg.ringSize} {t : Train}
    (here : st.inflight[i]? = some (s, t)) (fifo : (RingAction.hop i).Fifo st)
    (home : (st.successor s).val = t.issuer) :
    st.Recycles (st.successor s) t ↔ 2 * t.clock * cfg.ringSize ≤ hops t.issuer + 1 := by
  obtain ⟨before, after, -, -, -, -, meeting⟩ := laps.meeting mode_ne here fifo
  have turn := meeting.home home
  refine ⟨fun recycles => ?_, fun far => ⟨home.symm, meeting.returning home far⟩⟩
  cases (laps.riding (s, t) (List.mem_of_getElem? here)).lap with
  | first m low clock issues none place acked unseen =>
    have seen := (meeting.coherent.replica _ (View.alive_initial mode _)).seen_of_done meeting.isKey
      recycles.2 meeting.isKey.1
    exact absurd seen (not_le.mpr (unseen _ fun _ => home))
  | second m low clock issues once place ready =>
    dsimp only at clock place
    rw [clock, show 2 * (m + 1) = 2 * m + 1 + 1 by omega, Nat.succ_mul]
    omega
  | again clock issues none far alone =>
    dsimp only at clock far
    rw [clock]
    omega

/-- This is its second return, or it bears a clock stamped again. -/
theorem TwoLaps.recycles_iff (laps : TwoLaps mode st entries count hops)
    (mode_ne : mode ≠ .causalOrder) {i : Nat} {s : Fin cfg.ringSize} {t : Train}
    (here : st.inflight[i]? = some (s, t)) (fifo : (RingAction.hop i).Fifo st)
    (home : (st.successor s).val = t.issuer) :
    st.Recycles (st.successor s) t ↔
      count.returns t.issuer = 1 ∨ u64Max < count.issues t.issuer := by
  rw [laps.recycles_iff_far mode_ne here fifo home]
  obtain ⟨before, after, -, -, -, -, meeting⟩ := laps.meeting mode_ne here fifo
  have turn := meeting.home home
  have two := cfg.two_le
  cases (laps.riding (s, t) (List.mem_of_getElem? here)).lap with
  | first m low clock issues none place acked unseen =>
    dsimp only at clock issues none place
    refine iff_of_false (fun far => ?_) (by omega)
    rw [clock, show 2 * (m + 1) = 2 * m + 1 + 1 by omega, Nat.succ_mul, Nat.succ_mul] at far
    omega
  | second m low clock issues once place ready =>
    dsimp only at clock once place
    refine iff_of_true ?_ (Or.inl once)
    rw [clock, show 2 * (m + 1) = 2 * m + 1 + 1 by omega, Nat.succ_mul]
    omega
  | again clock issues none far alone =>
    dsimp only at clock issues far
    refine iff_of_true ?_ (Or.inr issues)
    rw [clock]
    omega

end Returns

/-- **The two-lap rule.** No train makes a third lap, and a train that comes home is recycled exactly
when it has come home once before, or its issuer had stamped the last clock before. -/
theorem two_lap_rule (mode_ne : mode ≠ .causalOrder) {st : RingState cfg × LapCount}
    (reachable : (countedRing cfg mode).Reachable st) :
    (∀ e ∈ st.1.inflight, st.2.returns e.2.issuer ≤ 1) ∧
      ∀ i, (countedRing cfg mode).legal st (.hop i) → ∀ e ∈ st.1.inflight[i]?,
        (st.1.successor e.1).val = e.2.issuer →
          (st.1.Recycles (st.1.successor e.1) e.2 ↔
            st.2.returns e.2.issuer = 1 ∨ u64Max < st.2.issues e.2.issuer) := by
  obtain ⟨entries, hops, laps⟩ := twoLaps_reachable mode_ne reachable
  refine ⟨fun e member => ?_, fun i legal e here home =>
    laps.recycles_iff mode_ne here legal.2.1 home⟩
  cases (laps.riding e member).lap with
  | first m low clock issues none place acked unseen => exact none.trans_le (Nat.zero_le 1)
  | second m low clock issues once place ready => exact once.le
  | again clock issues none far alone => exact none.trans_le (Nat.zero_le 1)

/-- Both trains of the ring of three, closed: the one of issuer 1 is about to come home again. -/
def homecomingRun : List (RingAction .triple) :=
  [.start 0, .start 1, .hop 1, .hop 1, .hop 0, .hop 0, .hop 0, .hop 0, .hop 0, .hop 0, .hop 0]

theorem two_lap_rule_triple : ∃ st, (countedRing .triple .uniformTotalOrder).Reachable st ∧
    st.1.Recycles (st.1.successor 0) ⟨1, 1, [], 7#32⟩ := by
  obtain ⟨st, reachable, legal, here, home, once⟩ : ∃ st : RingState .triple × LapCount,
      (countedRing .triple .uniformTotalOrder).Reachable st ∧
        (countedRing .triple .uniformTotalOrder).legal st (.hop 0) ∧
          (0, ⟨1, 1, [], 7#32⟩) ∈ st.1.inflight[0]? ∧ (st.1.successor 0).val = 1 ∧
            st.2.returns 1 = 1 :=
    ⟨(countedRing .triple .uniformTotalOrder).run
      (.initial .triple .uniformTotalOrder, ⟨fun _ => 0, fun _ => 0⟩) homecomingRun,
      Machine.reachable_run rfl (by decide +kernel), by decide +kernel⟩
  exact ⟨st, reachable,
    ((two_lap_rule (by decide) reachable).2 0 legal _ here home).mpr (Or.inl once)⟩

/-! ### Clocks at the maximum -/

/-- The one train of a ring with one issuer. -/
theorem pair_single {st : RingState .pair × LapCount} (mode_ne : mode ≠ .causalOrder)
    (reachable : (countedRing .pair mode).Reachable st) (begun : 0 ∈ st.1.started) :
    ∃ e, st.1.inflight = [e] ∧ e.2.issuer = 0 := by
  obtain ⟨entries, hops, laps⟩ := twoLaps_reachable mode_ne reachable
  obtain ⟨e, member, issuer⟩ := (laps.begun 0 Nat.one_pos).mp begun
  have own : ∀ e ∈ st.1.inflight, e.2.issuer = 0 := fun e flying =>
    Nat.lt_one_iff.mp (laps.conveyor.inside e flying)
  obtain ⟨before, after, shape⟩ := List.append_of_mem member
  have single := laps.conveyor.single
  rw [shape, List.pairwise_middle fun different => different.symm] at single
  have apart := (List.pairwise_cons.mp single).1
  have none : before ++ after = [] := List.eq_nil_iff_forall_not_mem.mpr fun b inside => by
    exact apart b inside (issuer.trans (own b ((RingState.left_sublist shape).subset inside)).symm)
  obtain ⟨rfl, rfl⟩ := List.append_eq_nil_iff.mp none
  exact ⟨e, shape, issuer⟩

/-- **That train goes on.** -/
theorem pair_hop {st : RingState .pair × LapCount} (mode_ne : mode ≠ .causalOrder)
    (reachable : (countedRing .pair mode).Reachable st) (begun : 0 ∈ st.1.started)
    {s : Fin RingConfig.pair.ringSize} {t : Train} (only : st.1.inflight = [(s, t)]) :
    ∃ st' : RingState .pair × LapCount, (countedRing .pair mode).Reachable st' ∧ 0 ∈ st'.1.started ∧
      (∃ t', st'.1.inflight = [(st.1.successor s, t')]) ∧
      st'.2.issues 0 = issuesAfter st.1.world (st.1.successor s) t (st.2.issues 0) ∧
      st'.2.returns 0 = returnsAfter st.1.world (st.1.successor s) t (st.2.returns 0) := by
  have here : st.1.inflight[0]? = some (s, t) := by rw [only]; rfl
  obtain ⟨entries, hops, laps⟩ := twoLaps_reachable mode_ne reachable
  have issuer : t.issuer = 0 :=
    Nat.lt_one_iff.mp (laps.conveyor.inside (s, t) (List.mem_of_getElem? here))
  have legal : (countedRing .pair mode).legal st (.hop 0) := by
    refine ⟨⟨(s, t), here, (laps.ring.tokens.alive _).mp (View.alive_initial mode _)⟩,
      fun e _ j before => absurd before (Nat.not_lt_zero j), fun e _ trains => ?_⟩
    rw [Nat.lt_one_iff.mp trains]
    exact begun
  have next := reachable.take legal
  have started : 0 ∈ ((countedRing .pair mode).next st (.hop 0)).1.started := by
    show 0 ∈ (st.1.hop 0).started
    rw [RingState.hop, here]
    exact begun
  obtain ⟨e, one, -⟩ := pair_single mode_ne next started
  have senders : ∀ e ∈ ((countedRing .pair mode).next st (.hop 0)).1.inflight,
      e.1 = st.1.successor s := fun e flying => by
    have flying : e ∈ (st.1.hop 0).inflight := flying
    rw [RingState.hop, here] at flying
    have sent : e ∈ [(s, t)].eraseIdx 0 ++ st.1.sends (st.1.successor s) t := only ▸ flying
    obtain ⟨out, -, rfl⟩ := List.mem_map.mp sent
    rfl
  refine ⟨_, next, started, ⟨e.2, ?_⟩, ?_, ?_⟩
  · rw [one, ← senders e (by rw [one]; exact List.mem_singleton_self _)]
  · show (st.2.after st.1 (.hop 0)).issues 0 = _
    simp only [LapCount.after, here, issuer, Function.update_self]
  · show (st.2.after st.1 (.hop 0)).returns 0 = _
    simp only [LapCount.after, here, issuer, Function.update_self]

/-- The train of the ring of two comes home next. -/
structure Homing (mode : DeliveryMode) (st : RingState .pair × LapCount) (t : Train) : Prop where
  reachable : (countedRing .pair mode).Reachable st
  begun : 0 ∈ st.1.started
  only : st.1.inflight = [(1, t)]

theorem Homing.home {st : RingState .pair × LapCount} {t : Train} (mode_ne : mode ≠ .causalOrder)
    (homing : Homing mode st t) : st.1.successor 1 = 0 ∧ t.issuer = 0 := by
  obtain ⟨entries, hops, laps⟩ := twoLaps_reachable mode_ne homing.reachable
  have full : ∀ x, x < 2 → x ∉ st.1.dead := fun x inside =>
    (laps.ring.tokens.alive ⟨x, inside⟩).mp (View.alive_initial mode x)
  obtain ⟨e, one, issuer⟩ := pair_single mode_ne homing.reachable homing.begun
  rw [homing.only] at one
  obtain rfl := List.singleton_inj.mp one
  exact ⟨Fin.ext (nextAlive_full (by decide) full), issuer⟩

/-- **One lap more.** -/
theorem Homing.lap {st : RingState .pair × LapCount} {t : Train} (mode_ne : mode ≠ .causalOrder)
    (homing : Homing mode st t) : ∃ st' t', Homing mode st' t' ∧
      st'.2.issues 0 = issuesAfter st.1.world 0 t (st.2.issues 0) ∧
      st'.2.returns 0 = returnsAfter st.1.world 0 t (st.2.returns 0) := by
  obtain ⟨back, -⟩ := homing.home mode_ne
  obtain ⟨mid, reachable, begun, ⟨t', only⟩, issues, returns⟩ :=
    pair_hop mode_ne homing.reachable homing.begun homing.only
  rw [back] at only issues returns
  obtain ⟨st', reachable', begun', ⟨t'', only'⟩, issues', returns'⟩ :=
    pair_hop mode_ne reachable begun only
  obtain ⟨entries, hops, laps⟩ := twoLaps_reachable mode_ne reachable
  have full : ∀ x, x < 2 → x ∉ mid.1.dead := fun x inside =>
    (laps.ring.tokens.alive ⟨x, inside⟩).mp (View.alive_initial mode x)
  have away : mid.1.successor 0 = 1 := Fin.ext (nextAlive_full (by decide) full)
  have own : t'.issuer = 0 := by
    obtain ⟨e, one, issuer⟩ := pair_single mode_ne reachable begun
    rw [only] at one
    obtain rfl := List.singleton_inj.mp one
    exact issuer
  have foreign : t'.issuer ≠ (1 : Fin RingConfig.pair.ringSize).val := by
    rw [own]
    decide
  rw [away] at only' issues' returns'
  refine ⟨st', t'', ⟨reachable', begun', only'⟩, issues'.trans ?_, returns'.trans ?_⟩
  · rw [issuesAfter, if_neg fun both => foreign both.1, issues]
  · rw [returnsAfter, if_neg foreign, returns]

/-- The train of the ring of two comes home after any number of issues. -/
theorem homing_issues (mode_ne : mode ≠ .causalOrder) (k : Nat) :
    ∃ st t, Homing mode st t ∧ k ≤ st.2.issues 0 := by
  induction k with
  | zero =>
    have begins : (countedRing .pair mode).legal
        (RingState.initial .pair mode, ⟨fun _ => 0, fun _ => 0⟩) (.start 0) :=
      ⟨⟨by decide, Finset.notMem_empty _, Finset.notMem_empty _⟩, trivial, trivial⟩
    have started : (countedRing .pair mode).Reachable _ :=
      (Machine.Reachable.start (m := countedRing .pair mode) rfl).take begins
    obtain ⟨st, reachable, begun, ⟨t, only⟩, -⟩ :=
      pair_hop mode_ne started (Finset.mem_insert_self _ _) (s := 0) rfl
    exact ⟨st, t, ⟨reachable, begun, only⟩, Nat.zero_le _⟩
  | succ k ih =>
    obtain ⟨st, t, homing, reached⟩ := ih
    obtain ⟨st', t', homing', issues, returns⟩ := homing.lap mode_ne
    obtain ⟨st'', t'', homing'', issues', -⟩ := homing'.lap mode_ne
    have counted : ∀ {st : RingState .pair × LapCount} {t}, Homing mode st t →
        (t.key ∈ (st.1.world.node 0).delivery.doneKeys ↔
          st.2.returns 0 = 1 ∨ u64Max < st.2.issues 0) ∧ t.issuer = 0 := fun {st t} homing => by
      obtain ⟨back, issuer⟩ := homing.home mode_ne
      obtain ⟨entries, hops, laps⟩ := twoLaps_reachable mode_ne homing.reachable
      have here : st.1.inflight[0]? = some (1, t) := by rw [homing.only]; rfl
      have iff := laps.recycles_iff mode_ne here (fun _ _ j before => absurd before (Nat.not_lt_zero j))
        (by rw [back, issuer]; rfl)
      rw [back, issuer] at iff
      exact ⟨(and_iff_right (show t.issuer = _ from issuer)).symm.trans iff, issuer⟩
    obtain ⟨rule, issuer⟩ := counted homing
    obtain ⟨rule', issuer'⟩ := counted homing'
    by_cases done : t.key ∈ (st.1.world.node 0).delivery.doneKeys
    · refine ⟨st', t', homing', ?_⟩
      rw [issues, issuesAfter, if_pos ⟨issuer, done⟩]
      exact Nat.succ_le_succ reached
    · -- not done at its first return, so done at its second
      have low := (two_lap_rule mode_ne homing.reachable).1 (1, t) (by rw [homing.only]; simp)
      have never : st.2.returns 0 ≠ 1 := fun once => done (rule.mpr (Or.inl once))
      have once : st'.2.returns 0 = 1 := by
        rw [returns, returnsAfter,
          if_pos (show t.issuer = (0 : Fin RingConfig.pair.ringSize).val from issuer), if_neg done]
        rw [show (1, t).2.issuer = 0 from issuer] at low
        omega
      refine ⟨st'', t'', homing'', ?_⟩
      rw [issues', issuesAfter, if_pos ⟨issuer', rule'.mpr (Or.inl once)⟩, issues, issuesAfter,
        if_neg fun both => done both.2]
      exact Nat.succ_le_succ reached

/-- **A clock at the maximum is stamped again**, and the train that bears it again is recycled at its
first return. -/
theorem saturated_clock : ¬ ∀ (cfg : RingConfig) (st : RingState cfg × LapCount),
    (countedRing cfg .uniformTotalOrder).Reachable st →
      ∀ i, (countedRing cfg .uniformTotalOrder).legal st (.hop i) → ∀ e ∈ st.1.inflight[i]?,
        (st.1.successor e.1).val = e.2.issuer →
          (st.1.Recycles (st.1.successor e.1) e.2 ↔ st.2.returns e.2.issuer = 1) := by
  intro strict
  have mode_ne : DeliveryMode.uniformTotalOrder ≠ .causalOrder := by decide
  obtain ⟨st, t, homing, many⟩ := homing_issues mode_ne (u64Max + 1)
  obtain ⟨back, issuer⟩ := homing.home mode_ne
  obtain ⟨entries, hops, laps⟩ := twoLaps_reachable mode_ne homing.reachable
  have here : st.1.inflight[0]? = some (1, t) := by rw [homing.only]; rfl
  have home : (st.1.successor 1).val = t.issuer := by rw [back, issuer]; rfl
  have legal : (countedRing .pair .uniformTotalOrder).legal st (.hop 0) := by
    refine ⟨⟨(1, t), here, (laps.ring.tokens.alive _).mp (View.alive_initial _ _)⟩,
      fun _ _ j before => absurd before (Nat.not_lt_zero j), fun _ _ trains => ?_⟩
    rw [Nat.lt_one_iff.mp trains]
    exact homing.begun
  have recycles := ((two_lap_rule mode_ne homing.reachable).2 0 legal _ here home).mpr
    (Or.inr (issuer ▸ many))
  have once := (strict .pair st homing.reachable 0 legal _ here home).mp recycles
  cases (laps.riding (1, t) (List.mem_of_getElem? here)).lap with
  | first m low clock issues none place acked unseen =>
    dsimp only at issues once
    rw [issuer] at issues
    omega
  | second m low clock issues once place ready =>
    dsimp only at issues
    rw [issuer] at issues
    omega
  | again clock issues none far alone =>
    dsimp only at none once
    omega

/-! ### What the other processes have done -/

/-- Every fully acked train of the clock of `t` and a smaller issuer is one hop from home. -/
def RingState.Clear (st : RingState cfg) (t : Train) : Prop :=
  ∀ e ∈ st.inflight, e.2.clock = t.clock → e.2.issuer < t.issuer →
    (∀ x : Fin cfg.ringSize, e.2.isAckedBy x = true) → (st.successor e.1).val = e.2.issuer

instance (st : RingState cfg) (t : Train) : Decidable (st.Clear t) :=
  inferInstanceAs (Decidable (∀ e ∈ st.inflight, e.2.clock = t.clock → e.2.issuer < t.issuer →
    (∀ x : Fin cfg.ringSize, e.2.isAckedBy x = true) → (st.successor e.1).val = e.2.issuer))

section Guard

variable {entries : Fin cfg.ringSize → List Entry} {count : LapCount} {hops : Nat → Nat}

/-- A closed train more than one hop from home is unknown to the next process. -/
theorem TwoLaps.unsettled_ahead (laps : TwoLaps mode st entries count hops)
    {e : Fin cfg.ringSize × Train} (flying : e ∈ st.inflight)
    (acked : ∀ x : Fin cfg.ringSize, e.2.isAckedBy x = true)
    (away : (st.successor e.1).val ≠ e.2.issuer) :
    ¬ (st.world.node (st.successor e.1)).Settled e.2.key := by
  have inside := laps.conveyor.inside e flying
  have full : ∀ x, x < cfg.ringSize → x ∉ st.dead := fun x inRange =>
    (laps.ring.tokens.alive ⟨x, inRange⟩).mp (View.alive_initial mode x)
  have next : behind cfg.ringSize e.2.issuer (st.successor e.1) =
      behind cfg.ringSize e.2.issuer e.1 + 1 :=
    (behind_nextAlive (inside.trans_le cfg.trains_le) e.1.isLt full).2 away
  cases (laps.riding e flying).lap with
  | first m low clock issues none place arc unseen =>
    have near : behind cfg.ringSize e.2.issuer (st.successor e.1) ≤
        behind cfg.ringSize e.2.issuer e.1 := (arc (st.successor e.1)).mp (acked _)
    omega
  | second m low clock issues once place ready =>
    refine (laps.passed e.2.issuer inside).unsettled e.2.clock _ ?_
    rw [clock, place, next, show 2 * (m + 1) = 2 * m + 1 + 1 by omega, Nat.succ_mul (2 * m + 1)]
    omega
  | again clock issues none far alone =>
    have never := alone _ away
    rw [acked] at never
    cases never

/-- A train of a smaller issuer, at the clock of one that is recycled, has all but come home. -/
theorem TwoLaps.home_or_past (laps : TwoLaps mode st entries count hops)
    {t : Train} (bounded : t.clock ≤ u64Max) (clear : st.Clear t)
    {q : Nat} (issuer : q < cfg.numTrains) (smaller : q < t.issuer) (positive : 1 ≤ t.clock)
    (reached : 2 * t.clock * cfg.ringSize < hops q + cfg.ringSize) :
    2 * t.clock * cfg.ringSize ≤ hops q + 1 := by
  have two := cfg.two_le
  have more := Nat.mul_le_mul_right cfg.ringSize (show 2 ≤ 2 * t.clock by omega)
  have flying : ∃ e ∈ st.inflight, e.2.issuer = q := by
    by_contra never
    obtain ⟨none, -⟩ := laps.conveyor.waiting q issuer fun e flying same => never ⟨e, flying, same⟩
    omega
  obtain ⟨e, flying, rfl⟩ := flying
  have inside := behind_lt (issuer.trans_le cfg.trains_le) e.1.isLt
  cases (laps.riding e flying).lap with
  | first m low clock issues none place arc unseen =>
    have lap : 2 * t.clock ≤ 2 * m + 1 := by
      refine lap_le (b := 0) inside ?_
      rw [Nat.succ_mul (2 * m)]
      omega
    have past := Nat.mul_le_mul_right cfg.ringSize (show 2 * t.clock ≤ 2 * m by omega)
    omega
  | second m low clock issues once place ready =>
    have lap : 2 * t.clock ≤ 2 * m + 1 + 1 := by
      refine lap_le (b := 0) inside ?_
      rw [Nat.succ_mul (2 * m + 1)]
      omega
    rcases Nat.lt_or_ge t.clock (m + 1) with below | above
    · have past := Nat.mul_le_mul_right cfg.ringSize (show 2 * t.clock ≤ 2 * m + 1 by omega)
      omega
    · have same : e.2.clock = t.clock := by omega
      have full : ∀ x, x < cfg.ringSize → x ∉ st.dead := fun x inRange =>
        (laps.ring.tokens.alive ⟨x, inRange⟩).mp (View.alive_initial mode x)
      have home := (behind_nextAlive (issuer.trans_le cfg.trains_le) e.1.isLt full).1
        (clear e flying same smaller fun x => ready.acked x.isLt (View.alive_initial mode x))
      rw [← same, clock, show 2 * (m + 1) = 2 * m + 1 + 1 by omega, Nat.succ_mul (2 * m + 1)]
      omega
  | again clock issues none far alone =>
    have past := Nat.mul_le_mul_right cfg.ringSize (show 2 * t.clock ≤ 2 * u64Max by omega)
    omega

/-- A recycled key is done everywhere exactly when no closed train of its clock is behind. -/
theorem TwoLaps.done_iff_clear (laps : TwoLaps mode st entries count hops)
    (mode_ne : mode ≠ .causalOrder) {i : Nat} {s : Fin cfg.ringSize} {t : Train}
    (here : st.inflight[i]? = some (s, t)) (fifo : (RingAction.hop i).Fifo st)
    (recycles : st.Recycles (st.successor s) t) : st.AllDelivered t.key ↔ st.Clear t := by
  obtain ⟨before, after, shape, front, -, -, meeting⟩ := laps.meeting mode_ne here fifo
  have isKey := meeting.isKey
  have bounded := laps.ring.clocks.bounded t meeting.emitted isKey
  have positive : 1 ≤ t.clock := Nat.one_le_of_lt isKey.2
  have own : t.issuer < cfg.numTrains := isKey.1.1
  have two := cfg.two_le
  have far := (laps.recycles_iff_far mode_ne here fifo recycles.1.symm).mp recycles
  have size := cfg.trains_le
  -- no other train is a lap behind
  have ahead : ∀ q, q < cfg.numTrains → q ≠ t.issuer →
      2 * t.clock * cfg.ringSize < hops q + cfg.ringSize := fun q issuer other => by
    have lead := laps.conveyor.lead shape front issuer other
    dsimp only at lead
    omega
  have replica := fun x : Fin cfg.ringSize =>
    laps.ring.coherent.replica x (View.alive_initial mode x)
  refine ⟨fun done e flying same smaller acked => ?_, fun clear x => ?_⟩
  · by_contra away
    refine laps.unsettled_ahead flying acked away (Or.inl ?_)
    have below : e.2.key < t.key := ClockKey.lt_iff.mpr (Or.inr ⟨same, smaller⟩)
    have key : (View.initial cfg mode).Key e.2.key :=
      ⟨⟨laps.conveyor.inside e flying, View.alive_initial mode _⟩, by
        rw [show e.2.key.clock = t.clock from same]
        exact (Slots.get_zero _).trans_lt positive⟩
    obtain ⟨entry, delivered, isDone⟩ := (((replica _).done _).mp (done (st.successor e.1))).resolve_left
      (View.not_old_of_key isKey)
    obtain ⟨earlier, member, isEarlier⟩ := (replica _).segment.closed entry delivered e.2.key key
      (isDone ▸ below)
    exact ((replica _).done _).mpr (Or.inr ⟨earlier, member, isEarlier⟩)
  · refine (replica x).done_of_settled_upto (laps.ring.coherent.drained x (View.alive_initial mode x))
      isKey (fun q issuer => ?_) fun other otherKey below => ?_
    · refine (laps.passed q issuer.1).seen t.clock x bounded ?_
      by_cases same : q = t.issuer
      · rw [same]
        omega
      · exact (ahead q issuer.1 same).le
    · have issuer := otherKey.1.1
      have above : 1 ≤ other.clock := Nat.one_le_of_lt otherKey.2
      have clock : other.clock ≤ t.clock := ClockKey.clock_le_of_le below
      have inside := behind_lt (issuer.trans_le size) x.isLt
      refine (laps.passed other.issuer issuer).settled other.clock x above (clock.trans bounded) ?_
      rcases clock.lt_or_eq with less | same
      · have lap := Nat.mul_le_mul_right cfg.ringSize (show 2 * other.clock + 2 ≤ 2 * t.clock by omega)
        rw [Nat.add_mul] at lap
        by_cases mine : other.issuer = t.issuer
        · rw [mine] at inside ⊢
          omega
        · have reached := ahead other.issuer issuer mine
          omega
      · rw [same]
        by_cases mine : other.issuer = t.issuer
        · rw [mine] at inside ⊢
          omega
        · have smaller : other.issuer < t.issuer := by
            rcases below.lt_or_eq with less | equal
            · rcases ClockKey.lt_iff.mp less with early | ⟨-, lower⟩
              · exact absurd same early.ne
              · exact lower
            · exact absurd (congrArg ClockKey.issuer equal) mine
          have near := laps.home_or_past bounded clear issuer smaller positive
            (ahead other.issuer issuer mine)
          omega

end Guard

/-- **When a recycled key is done everywhere**: exactly when every closed train of its clock and a
smaller issuer has reached all processes but its own. -/
theorem recycle_guard (mode_ne : mode ≠ .causalOrder) {st : RingState cfg}
    (reachable : (eagerRing cfg mode).Reachable st) {i : Nat}
    (legal : (eagerRing cfg mode).legal st (.hop i)) {e : Fin cfg.ringSize × Train}
    (here : e ∈ st.inflight[i]?) (recycles : st.Recycles (st.successor e.1) e.2) :
    st.AllDelivered e.2.key ↔ st.Clear e.2 := by
  obtain ⟨count, counted⟩ := counted_reachable reachable
  obtain ⟨entries, hops, laps⟩ := twoLaps_reachable mode_ne counted
  exact laps.done_iff_clear mode_ne here legal.2.1 recycles

/-- The end of that run. -/
def homecomingState : RingState .triple :=
  (eagerRing .triple .uniformTotalOrder).run (.initial .triple .uniformTotalOrder) homecomingRun

theorem homecoming_reachable : (eagerRing .triple .uniformTotalOrder).Reachable homecomingState :=
  Machine.reachable_run rfl (by decide +kernel)

/-- The train of issuer 0 one hop closer to home. -/
def closingState : RingState .triple :=
  (eagerRing .triple .uniformTotalOrder).next homecomingState (.hop 1)

theorem recycle_guard_triple : ∃ e ∈ closingState.inflight[0]?, closingState.Clear e.2 := by
  have reachable : (eagerRing .triple .uniformTotalOrder).Reachable closingState :=
    homecoming_reachable.take (by decide +kernel)
  refine ⟨(0, ⟨1, 1, [], 7#32⟩), by decide +kernel, ?_⟩
  exact (recycle_guard (by decide) reachable (i := 0) (by decide +kernel)
    (e := (0, ⟨1, 1, [], 7#32⟩)) (by decide +kernel) (by decide +kernel)).mp (by decide +kernel)

/-- **A train is recycled while another process has it parked**, behind the train of issuer 0. -/
theorem recycled_while_parked : ¬ ∀ (cfg : RingConfig) (st : RingState cfg),
    (eagerRing cfg .uniformTotalOrder).Reachable st →
      ∀ i, (eagerRing cfg .uniformTotalOrder).legal st (.hop i) → ∀ e ∈ st.inflight[i]?,
        st.Recycles (st.successor e.1) e.2 → st.AllDelivered e.2.key := by
  intro guarded
  obtain ⟨st, reachable, legal, here, recycles, parked⟩ : ∃ st : RingState .triple,
      (eagerRing .triple .uniformTotalOrder).Reachable st ∧
        (eagerRing .triple .uniformTotalOrder).legal st (.hop 0) ∧
          (0, ⟨1, 1, [], 7#32⟩) ∈ st.inflight[0]? ∧
            st.Recycles (st.successor 0) ⟨1, 1, [], 7#32⟩ ∧ ¬ st.AllDelivered ⟨1, 1⟩ :=
    ⟨homecomingState, homecoming_reachable, by decide +kernel⟩
  exact parked (guarded .triple st reachable 0 legal _ here recycles)

end TrainsRing
