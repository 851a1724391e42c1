/-
**A train makes two laps.**

On FIFO links, with every issuer started before it receives anything, the trains never overtake one
another (`Conveyor`). When a train comes home from its second lap, every other train has passed its
issuer on a second lap of that clock, so its key is done there and the issuer moves on.

The laps are counted in hops: of the trains of issuer `q`, hop `2 c n` ends the second lap of clock
`c`. A clock saturated at `u64::MAX` is stamped again and again; its key is done from then on, and such a
train goes around once.

* `eagerRing` — the ring with FIFO links in which issuers start before they receive anything.
* `Passed` — what the processes have of an issuer after some hops of its trains.
* `Riding` — a train in flight and its lap.
* `TwoLaps` — the invariant; `TwoLaps.done_of_returning` — **the train that comes home is done**.
* `TwoLaps.step` — **every step keeps the invariant.**
-/

import TrainsRing.Library.Conveyor
import TrainsRing.Ring.SenderOrder

namespace TrainsRing

variable {cfg : RingConfig} {mode : DeliveryMode} {w w' : World cfg} {st : RingState cfg}

/-! ### Hops and laps -/

theorem lap_le {n a b c d : Nat} (right : d < n) (below : a * n + b ≤ c * n + d) : a ≤ c := by
  refine not_lt.mp fun above => ?_
  have more := Nat.mul_le_mul_right n (Nat.succ_le_of_lt above)
  rw [Nat.succ_mul] at more
  omega

theorem lap_unique {n a b c d : Nat} (left : b < n) (right : d < n)
    (same : a * n + b = c * n + d) : a = c ∧ b = d := by
  obtain rfl : a = c := le_antisymm (lap_le right same.le) (lap_le left same.ge)
  exact ⟨rfl, Nat.add_left_cancel same⟩

/-- What the processes have of issuer `q` after some hops of its trains: the second lap of clock `c`
reaches process `x` with hop `(2 c - 1) n + behind n q x`. -/
structure Passed (w : World cfg) (q hops : Nat) : Prop where
  seen : ∀ c x, c ≤ u64Max → 2 * c * cfg.ringSize ≤ hops + cfg.ringSize →
    c ≤ (w.node x).seenClock q
  settled : ∀ c x, 1 ≤ c → c ≤ u64Max →
    2 * c * cfg.ringSize + behind cfg.ringSize q x.val ≤ hops + cfg.ringSize →
      (w.node x).Settled ⟨c, q⟩
  unsettled : ∀ c x, hops + cfg.ringSize < 2 * c * cfg.ringSize + behind cfg.ringSize q x.val →
    ¬ (w.node x).Settled ⟨c, q⟩

namespace Passed

variable {q hops : Nat}

theorem keep (passed : Passed w q hops)
    (seen : ∀ x, (w'.node x).seenClock q = (w.node x).seenClock q)
    (settled : ∀ x c, (w'.node x).Settled ⟨c, q⟩ ↔ (w.node x).Settled ⟨c, q⟩) :
    Passed w' q hops := by
  refine ⟨fun c x small reached => ?_, fun c x positive small reached => ?_,
    fun c x far isSettled => ?_⟩
  · rw [seen]
    exact passed.seen c x small reached
  · exact (settled x c).mpr (passed.settled c x positive small reached)
  · exact passed.unsettled c x far ((settled x c).mp isSettled)

/-- **One more hop**, which ends `lap` laps and `d` hops of the next one. -/
theorem succ (passed : Passed w q hops) {lap d : Nat} (place : hops + 1 = lap * cfg.ringSize + d)
    (near : d < cfg.ringSize)
    (grows : ∀ x, (w.node x).seenClock q ≤ (w'.node x).seenClock q)
    (keeps : ∀ x c, (w.node x).Settled ⟨c, q⟩ → (w'.node x).Settled ⟨c, q⟩)
    (only : ∀ x c, (w'.node x).Settled ⟨c, q⟩ → (w.node x).Settled ⟨c, q⟩ ∨
      2 * c * cfg.ringSize + behind cfg.ringSize q x.val ≤ hops + 1 + cfg.ringSize)
    (closed : ∀ c x, 2 * c = lap + 1 → c ≤ u64Max → d = 0 → c ≤ (w'.node x).seenClock q)
    (visit : ∀ c x, 2 * c = lap + 1 → c ≤ u64Max → behind cfg.ringSize q x.val = d →
      (w'.node x).Settled ⟨c, q⟩) (inside : q < cfg.ringSize) : Passed w' q (hops + 1) := by
  have total : hops + 1 + cfg.ringSize = (lap + 1) * cfg.ringSize + d := by
    rw [Nat.succ_mul]
    omega
  refine ⟨fun c x small reached => ?_, fun c x positive small reached => ?_,
    fun c x far isSettled => ?_⟩
  · by_cases old : 2 * c * cfg.ringSize ≤ hops + cfg.ringSize
    · exact (passed.seen c x small old).trans (grows x)
    · have same : 2 * c * cfg.ringSize + 0 = (lap + 1) * cfg.ringSize + d := by omega
      obtain ⟨turn, home⟩ := lap_unique (Nat.zero_lt_of_lt near) near same
      exact closed c x turn small home.symm
  · by_cases old : 2 * c * cfg.ringSize + behind cfg.ringSize q x.val ≤ hops + cfg.ringSize
    · exact keeps x c (passed.settled c x positive small old)
    · have same : 2 * c * cfg.ringSize + behind cfg.ringSize q x.val =
          (lap + 1) * cfg.ringSize + d := by omega
      obtain ⟨turn, here⟩ := lap_unique (behind_lt inside x.isLt) near same
      exact visit c x turn small here
  · rcases only x c isSettled with old | reached
    · exact passed.unsettled c x (by omega) old
    · omega

end Passed

/-- The lap of a train in flight: its first, its second, or the single lap of a clock stamped again. -/
inductive Lap (mode : DeliveryMode) (w : World cfg) (s : Fin cfg.ringSize) (t : Train)
    (hops issues returns : Nat) : Prop
  | first (m : Nat) (small : m < u64Max) (clock : t.clock = m + 1) (count : issues = m + 1)
      (none : returns = 0)
      (place : hops = 2 * m * cfg.ringSize + behind cfg.ringSize t.issuer s.val)
      (acked : ∀ x : Fin cfg.ringSize,
        t.isAckedBy x = true ↔ Arc cfg.ringSize t.issuer s x)
      (unseen : ∀ x : Fin cfg.ringSize, (Arc cfg.ringSize t.issuer s x → x.val = t.issuer) →
        (w.node x).seenClock t.issuer < t.clock)
  | second (m : Nat) (small : m < u64Max) (clock : t.clock = m + 1) (count : issues = m + 1)
      (once : returns = 1)
      (place : hops = (2 * m + 1) * cfg.ringSize + behind cfg.ringSize t.issuer s.val)
      (ready : (View.initial cfg mode).Ready t.ackBits)
  | again (clock : t.clock = u64Max) (count : u64Max < issues) (none : returns = 0)
      (far : 2 * u64Max * cfg.ringSize ≤ hops) (alone : ∀ x : Fin cfg.ringSize,
        x.val ≠ t.issuer → t.isAckedBy x = false)

/-- A train in flight, the newest of its issuer. -/
structure Riding (mode : DeliveryMode) (w : World cfg) (s : Fin cfg.ringSize) (t : Train)
    (hops issues returns : Nat) : Prop where
  stamp : w.issueClock t.issuer = satSucc t.clock
  newest : ∀ x, (w.node x).seenClock t.issuer ≤ t.clock
  lap : Lap mode w s t hops issues returns

theorem Riding.keep {s : Fin cfg.ringSize} {t : Train} {hops issues returns : Nat}
    (riding : Riding mode w s t hops issues returns)
    (clock : w'.issueClock t.issuer = w.issueClock t.issuer)
    (seen : ∀ x, (w'.node x).seenClock t.issuer = (w.node x).seenClock t.issuer) :
    Riding mode w' s t hops issues returns := by
  refine ⟨clock.trans riding.stamp, fun x => (seen x).trans_le (riding.newest x), ?_⟩
  cases riding.lap with
  | first m small clock count none place acked unseen =>
    refine .first m small clock count none place acked fun x far => ?_
    rw [seen]
    exact unseen x far
  | second m small clock count once place ready => exact .second m small clock count once place ready
  | again clock count none far alone => exact .again clock count none far alone

section Receive

variable {entries : Fin cfg.ringSize → List Entry} {s r : Fin cfg.ringSize} {t : Train}
  {hops issues returns : Nat}

/-- The train `t` that `s` has sent is received by `r`. -/
structure Meeting (mode : DeliveryMode) (w : World cfg) (entries : Fin cfg.ringSize → List Entry)
    (s r : Fin cfg.ringSize) (t : Train) (hops : Nat) : Prop where
  coherent : Coherent (View.initial cfg mode) [] w entries
  named : w.Named
  complete : Complete (View.initial cfg mode) w
  emitted : t ∈ w.emitted
  isKey : (View.initial cfg mode).Key t.key
  home : r.val = t.issuer → behind cfg.ringSize t.issuer s.val + 1 = cfg.ringSize
  away : r.val ≠ t.issuer →
    behind cfg.ringSize t.issuer r.val = behind cfg.ringSize t.issuer s.val + 1
  passed : Passed w t.issuer hops
  returning : r.val = t.issuer → 2 * t.clock * cfg.ringSize ≤ hops + 1 →
    t.key ∈ (w.node r).delivery.doneKeys

variable (meeting : Meeting mode w entries s r t hops)

include meeting

theorem Meeting.inside : t.issuer < cfg.ringSize := meeting.isKey.1.inside

theorem Meeting.grows (x : Fin cfg.ringSize) :
    (w.node x).Evolves ((w.receive r t).node x) := w.receive_evolves r meeting.inside x

/-- Away from home the walk adds one process to the arc. -/
theorem Meeting.arc (away : r.val ≠ t.issuer) (x : Fin cfg.ringSize) :
    Arc cfg.ringSize t.issuer r x ↔ Arc cfg.ringSize t.issuer s x ∨ x = r := by
  have next := meeting.away away
  unfold Arc
  refine ⟨fun near => ?_, fun either => ?_⟩
  · by_cases old : behind cfg.ringSize t.issuer x.val ≤ behind cfg.ringSize t.issuer s.val
    · exact Or.inl old
    · exact Or.inr (Fin.ext (behind_injective meeting.inside x.isLt r.isLt (by omega)))
  · rcases either with old | rfl
    · omega
    · exact le_rfl

/-- At home it has seen every process. -/
theorem Meeting.around (home : r.val = t.issuer) (x : Fin cfg.ringSize) :
    Arc cfg.ringSize t.issuer s x := by
  have turn := meeting.home home
  have bound := behind_lt meeting.inside x.isLt
  unfold Arc
  omega

/-- A train past its first lap has been seen by all. -/
theorem Meeting.seen (lap : t.clock ≤ u64Max) (far : 2 * t.clock * cfg.ringSize ≤ hops + cfg.ringSize)
    (x : Fin cfg.ringSize) : t.clock ≤ (w.node x).seenClock t.issuer :=
  meeting.passed.seen t.clock x lap far

/-- **What the processes have of the issuer**, one hop later. -/
theorem Meeting.succ {lap d : Nat} (place : hops + 1 = lap * cfg.ringSize + d)
    (near : d < cfg.ringSize)
    (reached : ((w.receive r t).node r).Settled t.key → ¬ (w.node r).Settled t.key →
      2 * t.clock * cfg.ringSize + behind cfg.ringSize t.issuer r.val ≤ hops + 1 + cfg.ringSize)
    (closed : ∀ c x, 2 * c = lap + 1 → c ≤ u64Max → d = 0 →
      c ≤ ((w.receive r t).node x).seenClock t.issuer)
    (visit : ∀ c x, 2 * c = lap + 1 → c ≤ u64Max → behind cfg.ringSize t.issuer x.val = d →
      ((w.receive r t).node x).Settled ⟨c, t.issuer⟩) : Passed (w.receive r t) t.issuer (hops + 1) := by
  refine meeting.passed.succ place near (fun x => (meeting.grows x).seen _)
    (fun x c => (meeting.grows x).settled _) (fun x c settled => ?_) closed visit meeting.inside
  by_cases old : (w.node x).Settled ⟨c, t.issuer⟩
  · exact Or.inl old
  · rcases w.receive_settled_back r settled with known | ⟨rfl, key, -⟩
    · exact Or.inl known
    · obtain rfl : c = t.clock := congrArg ClockKey.clock key
      exact Or.inr (reached settled old)

/-- No process sees a later clock of the issuer. -/
theorem Meeting.newest (newest : ∀ x, (w.node x).seenClock t.issuer ≤ t.clock)
    (x : Fin cfg.ringSize) : ((w.receive r t).node x).seenClock t.issuer ≤ t.clock := by
  by_cases here : x = r
  · obtain ⟨-, -, -, -, -, stores⟩ := w.receive_spec r meeting.inside
    rw [here]
    rcases stores t.issuer with same | ⟨-, same⟩
    · exact same.trans_le (newest r)
    · exact same.le
  · rw [w.receive_node_of_ne r here]
    exact newest x

omit meeting in
/-- A process that issues nothing stamps the same clock next. -/
theorem receive_stamp
    (clock : ((w.receive r t).node r).nextIssueClock = (w.node r).nextIssueClock) (q : Nat) :
    (w.receive r t).issueClock q = w.issueClock q := by
  refine World.issueClock_congr (fun x => ?_) q
  by_cases here : x = r
  · rw [here, clock]
  · rw [w.receive_node_of_ne r here]

/-- **A train comes home from its first lap** and sets out for its second. -/
theorem Meeting.close (riding : Riding mode w s t hops issues returns) (home : r.val = t.issuer)
    (fresh : t.key ∉ (w.node r).delivery.doneKeys)
    (clock : ((w.receive r t).node r).nextIssueClock = (w.node r).nextIssueClock)
    (seen : t.clock ≤ ((w.receive r t).node r).seenClock t.issuer)
    (settles : (View.initial cfg mode).Ready t.ackBits →
      ((w.receive r t).node r).Settled t.key) :
    Passed (w.receive r t) t.issuer (hops + 1) ∧
      Riding mode (w.receive r t) r t (hops + 1) issues (returns + 1) := by
  have turn := meeting.home home
  have start : behind cfg.ringSize t.issuer r.val = 0 := by rw [home, behind_self]
  have small := cfg.two_le
  cases riding.lap with
  | first m low clock' count none place acked unseen =>
    have next : hops + 1 = (2 * m + 1) * cfg.ringSize + 0 := by
      rw [Nat.succ_mul]
      omega
    have ready : (View.initial cfg mode).Ready t.ackBits :=
      meeting.complete t meeting.emitted fun x _ => (acked x).mpr (meeting.around home x)
    have all : ∀ x, t.clock ≤ ((w.receive r t).node x).seenClock t.issuer := fun x => by
      by_cases here : x = r
      · rw [here]
        exact seen
      · have other : x.val ≠ t.issuer := fun same => here (Fin.ext (same.trans home.symm))
        exact (meeting.coherent.ledger.acks t meeting.emitted meeting.isKey x
          (View.alive_initial mode x) other ((acked x).mpr (meeting.around home x))).trans
            ((meeting.grows x).seen _)
    refine ⟨meeting.succ next (by omega) (fun _ _ => ?_) (fun c x turn' _ _ => ?_)
      fun c x turn' _ here => ?_, (receive_stamp clock _).trans riding.stamp,
      meeting.newest riding.newest, .second m low clock' count (by omega) (by omega) ready⟩
    · rw [start, next, clock', Nat.mul_succ, Nat.add_mul, Nat.add_mul]
      omega
    · rw [show c = t.clock by omega]
      exact all x
    · obtain rfl : x = r := Fin.ext (behind_injective meeting.inside x.isLt r.isLt
        (here.trans start.symm))
      rw [show (⟨c, t.issuer⟩ : ClockKey) = t.key from
        congrArg (ClockKey.mk · t.issuer) (show c = t.clock by omega)]
      exact settles ready
  | second m low clock' count once place ready =>
    refine absurd (meeting.returning home ?_) fresh
    rw [clock', show 2 * (m + 1) = 2 * m + 1 + 1 by omega, Nat.succ_mul]
    omega
  | again clock' count none far alone =>
    refine absurd (meeting.returning home ?_) fresh
    rw [clock']
    omega

/-- **A train is loaded on its first lap.** -/
theorem Meeting.load (riding : Riding mode w s t hops issues returns) (away : r.val ≠ t.issuer)
    (new : ¬ (w.node r).Replay t)
    (clock : ((w.receive r t).node r).nextIssueClock = (w.node r).nextIssueClock) :
    Passed (w.receive r t) t.issuer (hops + 1) ∧
      Riding mode (w.receive r t) r ((w.node r).loadTrain t) (hops + 1) issues returns := by
  have unseen' := seen_lt_of_not_replay meeting.isKey new
  have next := meeting.away away
  have inside := behind_lt meeting.inside r.isLt
  cases riding.lap with
  | first m low clock' count none place acked unseen =>
    have place' : hops + 1 = 2 * m * cfg.ringSize + behind cfg.ringSize t.issuer r.val := by omega
    refine ⟨meeting.succ place' inside
      (fun settled unsettled => ?_) (fun c x turn => by omega) (fun c x turn => by omega),
      (receive_stamp clock _).trans riding.stamp, meeting.newest riding.newest,
      .first m low clock' count none place' (fun x => ?_) fun x far => ?_⟩
    · rcases w.receive_settled_back r settled with known | ⟨-, -, replay⟩
      · exact absurd known unsettled
      · exact absurd (replay fun same => away ((meeting.named r).symm.trans same.symm)) new
    · rw [isAckedBy_loaded meeting.named, Bool.or_eq_true, acked x, decide_eq_true_eq]
      exact (meeting.arc away x).symm
    · have other : x ≠ r := fun here => away (by
        rw [← here]
        exact far ((meeting.arc away x).mpr (Or.inr here)))
      rw [w.receive_node_of_ne r other]
      exact unseen x fun near => far ((meeting.arc away x).mpr (Or.inl near))
  | second m low clock' count once place ready =>
    refine absurd (meeting.seen (by omega) ?_ r) (not_le.mpr unseen')
    rw [clock', show 2 * (m + 1) = 2 * m + 1 + 1 by omega, Nat.succ_mul]
    omega
  | again clock' count none far alone =>
    refine absurd (meeting.seen clock'.le ?_ r) (not_le.mpr unseen')
    rw [clock']
    omega

/-- **A train is relayed after its first lap**, and settled where it is ready. -/
theorem Meeting.relay (riding : Riding mode w s t hops issues returns) (away : r.val ≠ t.issuer)
    (replay : (w.node r).Replay t)
    (clock : ((w.receive r t).node r).nextIssueClock = (w.node r).nextIssueClock)
    (settles : (View.initial cfg mode).Ready t.ackBits →
      ((w.receive r t).node r).Settled t.key) :
    Passed (w.receive r t) t.issuer (hops + 1) ∧
      Riding mode (w.receive r t) r t (hops + 1) issues returns := by
  have next := meeting.away away
  have inside := behind_lt meeting.inside r.isLt
  have stamp := (receive_stamp clock t.issuer).trans riding.stamp
  cases riding.lap with
  | first m low clock' count none place acked unseen =>
    have ahead : ¬ Arc cfg.ringSize t.issuer s r := by
      unfold Arc
      omega
    exact absurd replay.1 (not_le.mpr (unseen r fun near => absurd near ahead))
  | second m low clock' count once place ready =>
    have place' : hops + 1 = (2 * m + 1) * cfg.ringSize + behind cfg.ringSize t.issuer r.val := by omega
    refine ⟨meeting.succ place' inside
      (fun _ _ => ?_) (fun c x turn => by omega) (fun c x turn _ here => ?_), stamp,
      meeting.newest riding.newest, .second m low clock' count once place' ready⟩
    · rw [clock', show 2 * (m + 1) = 2 * m + 1 + 1 by omega, Nat.succ_mul]
      omega
    · obtain rfl : x = r := Fin.ext (behind_injective meeting.inside x.isLt r.isLt here)
      rw [show (⟨c, t.issuer⟩ : ClockKey) = t.key from
        congrArg (ClockKey.mk · t.issuer) (show c = t.clock by omega)]
      exact settles ready
  | again clock' count none far alone =>
    have large : 2 * u64Max ≤ (hops + 1) / cfg.ringSize :=
      (Nat.le_div_iff_mul_le (by omega)).mpr (by omega)
    refine ⟨meeting.succ (Nat.div_add_mod' (hops + 1) cfg.ringSize).symm
      (Nat.mod_lt _ (by omega)) (fun _ _ => ?_) (fun c x turn small => ?_) (fun c x turn small => ?_), stamp,
      meeting.newest riding.newest, .again clock' count none (by omega) alone⟩
    · rw [clock']
      omega
    · omega
    · omega

/-- **A train that comes home done is replaced** by the issuer's next one. -/
theorem Meeting.issue (riding : Riding mode w s t hops issues returns) (home : r.val = t.issuer)
    (done : t.key ∈ (w.node r).delivery.doneKeys)
    (clock : ((w.receive r t).node r).nextIssueClock = satSucc (w.node r).nextIssueClock) :
    Passed (w.receive r t) t.issuer (hops + 1) ∧
      Riding mode (w.receive r t) r (w.node r).issueNewTrain.2 (hops + 1) (issues + 1) 0 := by
  have turn := meeting.home home
  have start : behind cfg.ringSize t.issuer r.val = 0 := by rw [home, behind_self]
  have small := cfg.two_le
  have seen := (meeting.coherent.replica r (View.alive_initial mode r)).seen_of_done meeting.isKey done
    meeting.isKey.1
  have issuer : (w.node r).issueNewTrain.2.issuer = t.issuer := (meeting.named r).trans home
  have next : (w.node r).issueNewTrain.2.clock = satSucc t.clock := by
    rw [← riding.stamp, ← home, w.issueClock_eq]
    rfl
  have stamp : (w.receive r t).issueClock (w.node r).issueNewTrain.2.issuer =
      satSucc (w.node r).issueNewTrain.2.clock := by
    rw [issuer, ← home, World.issueClock_eq, clock]
    rfl
  have newest := meeting.newest riding.newest
  have above : ∀ x, ((w.receive r t).node x).seenClock (w.node r).issueNewTrain.2.issuer ≤
      (w.node r).issueNewTrain.2.clock := fun x => by
    rw [issuer, next]
    exact (newest x).trans (le_satSucc _)
  have alone : ∀ x : Fin cfg.ringSize, (w.node r).issueNewTrain.2.isAckedBy x = true ↔ x = r :=
    fun x => by rw [isAckedBy_issued meeting.named, decide_eq_true_eq]
  cases riding.lap with
  | first m low clock' count none place acked unseen =>
    exact absurd seen (not_le.mpr (unseen r fun _ => home))
  | second m low clock' count once place ready =>
    have place' : hops + 1 = (2 * (m + 1)) * cfg.ringSize + 0 := by
      rw [show 2 * (m + 1) = 2 * m + 1 + 1 by omega, Nat.succ_mul]
      omega
    refine ⟨meeting.succ place' (by omega) (fun _ _ => ?_) (fun c x turn => by omega)
      (fun c x turn => by omega), stamp, above, ?_⟩
    · rw [clock', start]
      omega
    · rcases Nat.lt_or_ge (m + 1) u64Max with room | full
      · have clock'' : (w.node r).issueNewTrain.2.clock = m + 1 + 1 := by
          rw [next, clock', satSucc_of_lt room]
        refine .first (m + 1) room clock'' (by omega) rfl ?_ (fun x => ?_) fun x far => ?_
        · rw [issuer, start]
          exact place'
        · rw [alone, issuer, ← home, arc_self r.isLt]
          exact Fin.ext_iff
        · rw [issuer, clock'', Nat.lt_succ_iff, ← clock']
          exact newest x
      · refine .again ?_ (by omega) rfl ?_ fun x other => Bool.eq_false_iff.mpr fun acked => ?_
        · rw [next, clock', show m + 1 = u64Max by omega]
          decide
        · rw [place', show m + 1 = u64Max by omega]
          exact Nat.le_add_right _ _
        · exact other (((congrArg Fin.val ((alone x).mp acked)).trans home).trans issuer.symm)
  | again clock' count none far _ =>
    have large : 2 * u64Max ≤ (hops + 1) / cfg.ringSize :=
      (Nat.le_div_iff_mul_le (by omega)).mpr (by omega)
    refine ⟨meeting.succ (Nat.div_add_mod' (hops + 1) cfg.ringSize).symm
      (Nat.mod_lt _ (by omega)) (fun _ _ => ?_) (fun c x turn small => by omega)
      (fun c x turn small => by omega), stamp, above, .again ?_ (by omega) rfl (by omega)
      fun x other => Bool.eq_false_iff.mpr fun acked => ?_⟩
    · rw [clock', start]
      omega
    · rw [next, clock']
      decide
    · exact other (((congrArg Fin.val ((alone x).mp acked)).trans home).trans issuer.symm)

/-- How often the issuer has received its train, once `r` has received `t`. -/
def returnsAfter (w : World cfg) (r : Fin cfg.ringSize) (t : Train) (returns : Nat) : Nat :=
  if t.issuer = r.val then if t.key ∈ (w.node r).delivery.doneKeys then 0 else returns + 1 else returns

/-- How many trains the issuer has issued, once `r` has received `t`. -/
def issuesAfter (w : World cfg) (r : Fin cfg.ringSize) (t : Train) (issues : Nat) : Nat :=
  if t.issuer = r.val ∧ t.key ∈ (w.node r).delivery.doneKeys then issues + 1 else issues

/-- **A train is received by the next process**, which sends it on, or its successor. -/
theorem Meeting.receive (riding : Riding mode w s t hops issues returns) :
    ∃ out, forwards ((w.node r).step (.trainReceived t)).2 = [out] ∧ out.issuer = t.issuer ∧
      Passed (w.receive r t) t.issuer (hops + 1) ∧
        Riding mode (w.receive r t) r out (hops + 1) (issuesAfter w r t issues)
          (returnsAfter w r t returns) := by
  have replica := meeting.coherent.replica r (View.alive_initial mode r)
  have own := meeting.named r
  obtain ⟨forwarded, sends, -, traffic, -, -⟩ := w.receive_spec r meeting.inside
  have sure : ∀ ready : (View.initial cfg mode).Ready t.ackBits,
      (w.node r).delivery.readyToDeliver t.ackBits (w.node r).delivery.mode = true :=
    fun ready => replica.readyToDeliver ready
  unfold issuesAfter returnsAfter
  cases traffic with
  | absorbed stale _ => exact absurd stale (replica.not_stale meeting.isKey)
  | relayed _ known undone _ clock seen settles =>
    by_cases home : r.val = t.issuer
    · have fresh := undone (home.symm.trans own.symm)
      obtain ⟨passed, after⟩ := meeting.close riding home fresh clock seen fun ready =>
        settles replica.unfrozen (sure ready)
      rw [if_neg fun both => fresh both.2, if_pos home.symm, if_neg fresh]
      exact ⟨t, sends, rfl, passed, after⟩
    · obtain ⟨passed, after⟩ := meeting.relay riding home
        (known fun same => home (own.symm.trans same.symm)) clock fun ready =>
          settles replica.unfrozen (sure ready)
      rw [if_neg fun both => home both.1.symm, if_neg fun same => home same.symm]
      exact ⟨t, sends, rfl, passed, after⟩
  | loaded _ foreign new _ clock _ =>
    have away : r.val ≠ t.issuer := fun same => foreign (same.symm.trans own.symm)
    obtain ⟨passed, after⟩ := meeting.load riding away new clock
    rw [if_neg fun both => away both.1.symm, if_neg fun same => away same.symm]
    exact ⟨_, sends, rfl, passed, after⟩
  | issued _ isOwn done _ clock =>
    have home : r.val = t.issuer := own.symm.trans isOwn.symm
    obtain ⟨passed, after⟩ := meeting.issue riding home done clock
    rw [if_pos ⟨home.symm, done⟩, if_pos home.symm, if_pos done]
    exact ⟨_, sends, own.trans home, passed, after⟩

end Receive

/-! ### The ring -/

/-- An issuer has sent its initial train before it receives anything. -/
def RingAction.Eager (st : RingState cfg) : RingAction cfg → Prop
  | .hop i => ∀ e ∈ st.inflight[i]?, (st.successor e.1).val < cfg.numTrains →
      (st.successor e.1).val ∈ st.started
  | _ => True

instance (st : RingState cfg) : (action : RingAction cfg) → Decidable (action.Eager st)
  | .broadcast _ _ => isTrue trivial
  | .start _ => isTrue trivial
  | .hop i => inferInstanceAs (Decidable (∀ e ∈ st.inflight[i]?,
      (st.successor e.1).val < cfg.numTrains → (st.successor e.1).val ∈ st.started))

/-- The ring with FIFO links in which issuers start before they receive anything. -/
def eagerRing (cfg : RingConfig) (mode : DeliveryMode) :
    Machine (RingState cfg) (RingAction cfg) :=
  (ringNetwork cfg mode).restrict fun st action => action.Fifo st ∧ action.Eager st

instance (cfg : RingConfig) (mode : DeliveryMode) (st : RingState cfg) (action : RingAction cfg) :
    Decidable ((eagerRing cfg mode).legal st action) :=
  inferInstanceAs (Decidable (action.Legal st ∧ action.Fifo st ∧ action.Eager st))

/-- How many trains each issuer has issued, and how often it has received the last of them. -/
structure LapCount where
  issues : Nat → Nat
  returns : Nat → Nat

/-- The counts after a step of the ring. -/
def LapCount.after (count : LapCount) (st : RingState cfg) : RingAction cfg → LapCount
  | .broadcast _ _ => count
  | .start p => { count with issues := Function.update count.issues p (count.issues p + 1) }
  | .hop i => match st.inflight[i]? with
    | none => count
    | some (s, t) =>
      { issues := Function.update count.issues t.issuer
          (issuesAfter st.world (st.successor s) t (count.issues t.issuer))
        returns := Function.update count.returns t.issuer
          (returnsAfter st.world (st.successor s) t (count.returns t.issuer)) }

/-- The trains of a ring whose links are FIFO, on their laps. -/
structure TwoLaps (mode : DeliveryMode) (st : RingState cfg) (entries : Fin cfg.ringSize → List Entry)
    (count : LapCount) (hops : Nat → Nat) : Prop where
  ring : RingInvariant mode st entries
  conveyor : Conveyor cfg.ringSize cfg.numTrains (fun e : Fin cfg.ringSize × Train => e.1.val)
    (fun e => e.2.issuer) hops st.inflight
  begun : ∀ q, q < cfg.numTrains → (q ∈ st.started ↔ ∃ e ∈ st.inflight, e.2.issuer = q)
  fresh : ∀ q, q < cfg.numTrains → q ∉ st.started →
    count.issues q = 0 ∧ count.returns q = 0 ∧ ∀ x, (st.world.node x).seenClock q = 0
  riding : ∀ e ∈ st.inflight, Riding mode st.world e.1 e.2 (hops e.2.issuer)
    (count.issues e.2.issuer) (count.returns e.2.issuer)
  passed : ∀ q, q < cfg.numTrains → Passed st.world q (hops q)

namespace TwoLaps

variable {entries : Fin cfg.ringSize → List Entry} {count : LapCount} {hops : Nat → Nat}

theorem initial (mode : DeliveryMode) : TwoLaps mode (RingState.initial cfg mode) (fun _ => [])
    ⟨fun _ => 0, fun _ => 0⟩ fun _ => 0 where
  ring := RingInvariant.initial mode
  conveyor := Conveyor.empty cfg.trains_le _ _
  begun := fun q _ => ⟨fun member => absurd member (Finset.notMem_empty q),
    fun ⟨_, member, _⟩ => absurd member List.not_mem_nil⟩
  fresh := fun q _ _ => ⟨rfl, rfl, fun _ => Slots.get_zero q⟩
  riding := fun _ member => absurd member List.not_mem_nil
  passed := fun q _ => by
    have two := cfg.two_le
    refine ⟨fun c x _ reached => ?_, fun c x positive _ reached => ?_, fun c x _ settled => ?_⟩
    · have none : c = 0 := by
        by_contra some
        have more := Nat.mul_le_mul_right cfg.ringSize (show 2 ≤ 2 * c by omega)
        omega
      exact none ▸ Nat.zero_le _
    · have more := Nat.mul_le_mul_right cfg.ringSize (show 2 ≤ 2 * c by omega)
      omega
    · rcases settled with done | ⟨held, found⟩
      · exact absurd done (Finset.notMem_empty _)
      · cases found

/-- **The train that comes home is done**, after two laps: every other train has passed its issuer on a
second lap of the same clock. -/
theorem done_of_returning (laps : TwoLaps mode st entries count hops)
    {before after : List (Fin cfg.ringSize × Train)} {s r : Fin cfg.ringSize} {t : Train}
    (shape : st.inflight = before ++ (s, t) :: after) (fifo : ∀ e ∈ before, e.1.val ≠ s.val)
    (home : r.val = t.issuer) (isKey : (View.initial cfg mode).Key t.key) (small : t.clock ≤ u64Max)
    (far : 2 * t.clock * cfg.ringSize ≤ hops t.issuer + 1) :
    t.key ∈ (st.world.node r).delivery.doneKeys := by
  refine (laps.ring.coherent.replica r (View.alive_initial mode r)).done_of_settled
    (laps.ring.coherent.drained r (View.alive_initial mode r)) t.clock (fun key otherKey below => ?_)
    isKey le_rfl
  have issuer := otherKey.1.1
  have positive : 1 ≤ key.clock := by
    have above := otherKey.2
    omega
  have less := Nat.mul_le_mul_right cfg.ringSize (Nat.mul_le_mul_left 2 below)
  refine (laps.passed key.issuer issuer).settled key.clock r positive (below.trans small) ?_
  have bound := isKey.1.1
  have size := cfg.trains_le
  by_cases own : key.issuer = t.issuer
  · rw [own, home, behind_self]
    omega
  · have lead := laps.conveyor.lead shape fifo issuer own
    dsimp only at lead
    rw [home]
    unfold behind
    split_ifs <;> omega

theorem broadcast (laps : TwoLaps mode st entries count hops) (mode_ne : mode ≠ .causalOrder)
    {p : Fin cfg.ringSize} {data : List UInt8} (legal : (RingAction.broadcast p data).Legal st) :
    ∃ entries', TwoLaps mode (st.broadcast p data) entries' count hops := by
  obtain ⟨entries', ring⟩ := laps.ring.step mode_ne legal
  obtain ⟨-, clock, seen, -⟩ := broadcast_keeps st.world p data
  have settled : ∀ x key, ((st.world.broadcast p data).node x).Settled key ↔
      (st.world.node x).Settled key := fun x key => by
    by_cases here : x = p
    · obtain ⟨-, -, delivery, waiting, -, -⟩ := (st.world.node p).handleBroadcast_keeps data
      rw [here, show (st.world.broadcast p data).node p =
        ((st.world.node p).handleBroadcast data).1 from st.world.act_node_self p _]
      unfold TrainsNode.Settled
      rw [delivery, waiting]
    · rw [show (st.world.broadcast p data).node x = st.world.node x from
        st.world.act_node_of_ne p _ here]
  exact ⟨entries', ring, laps.conveyor, laps.begun,
    fun q issues waiting => (laps.fresh q issues waiting).imp_right fun ⟨never, unseen⟩ =>
      ⟨never, fun x => (seen x q).trans (unseen x)⟩,
    fun e member => (laps.riding e member).keep (clock _) fun x => seen x _,
    fun q issues => (laps.passed q issues).keep (fun x => seen x q) fun x c => settled x ⟨c, q⟩⟩

/-- **An issuer starts**: its train sets out for its first lap. -/
theorem start (laps : TwoLaps mode st entries count hops) (mode_ne : mode ≠ .causalOrder)
    {p : Fin cfg.ringSize} (legal : (RingAction.start p).Legal st) :
    ∃ entries', TwoLaps mode (st.start p) entries' (count.after st (.start p)) hops := by
  obtain ⟨entries', ring⟩ := laps.ring.step mode_ne legal
  obtain ⟨issues, -, waiting⟩ := legal
  obtain ⟨-, moved, others, seen, -⟩ := issueInitial_keeps st.world p
  have settled : ∀ x key, ((st.world.issueInitial p).node x).Settled key ↔
      (st.world.node x).Settled key := fun x key => by
    by_cases here : x = p
    · rw [here, show (st.world.issueInitial p).node p = (st.world.node p).issueNewTrain.1 from
        st.world.act_node_self p _]
      rfl
    · rw [show (st.world.issueInitial p).node x = st.world.node x from
        st.world.act_node_of_ne p _ here]
  have unflown : ∀ e ∈ st.inflight, e.2.issuer ≠ p.val := fun e member same =>
    waiting ((laps.begun p issues).mpr ⟨e, member, same⟩)
  have issuer : (st.world.node p).issueNewTrain.2.issuer = p.val := laps.ring.custody.ids p
  obtain ⟨none, never, unseen⟩ := laps.fresh p issues waiting
  obtain ⟨still, -⟩ := laps.conveyor.waiting p issues unflown
  have one : st.world.issueClock p = 1 :=
    (laps.ring.tokens.unstarted p ⟨issues, View.alive_initial mode p⟩ waiting).1
  have clock : (st.world.node p).issueNewTrain.2.clock = 0 + 1 :=
    (st.world.issueClock_eq p).symm.trans one
  refine ⟨entries', ring, ?_, fun q trains => ?_, fun q trains waits => ?_, fun e member => ?_,
    fun q trains => (laps.passed q trains).keep (fun x => seen x q) fun x c => settled x ⟨c, q⟩⟩
  · have entered : ∀ e ∈ st.inflight, e.2.issuer ≠ (st.world.node p).issueNewTrain.2.issuer :=
      fun e member => issuer.symm ▸ unflown e member
    exact laps.conveyor.enter (a := (p, (st.world.node p).issueNewTrain.2)) cfg.trains_le
      (issuer.trans_lt issues) entered issuer.symm
  · show q ∈ insert p.val st.started ↔ ∃ e ∈ st.inflight ++ [(p, (st.world.node p).issueNewTrain.2)], _
    rw [Finset.mem_insert, laps.begun q trains]
    refine ⟨?_, ?_⟩
    · rintro (rfl | ⟨e, member, same⟩)
      · exact ⟨_, List.mem_append_right _ (List.mem_singleton_self _), issuer⟩
      · exact ⟨e, List.mem_append_left _ member, same⟩
    · rintro ⟨e, member, same⟩
      rcases List.mem_append.mp member with old | new
      · exact Or.inr ⟨e, old, same⟩
      · rw [List.mem_singleton.mp new] at same
        exact Or.inl (same.symm.trans issuer)
  · have other : q ≠ p.val := fun same => waits (same ▸ Finset.mem_insert_self _ _)
    obtain ⟨none, never, unseen⟩ := laps.fresh q trains fun inside =>
      waits (Finset.mem_insert_of_mem inside)
    exact ⟨(Function.update_of_ne other ..).trans none, never, fun x => (seen x q).trans (unseen x)⟩
  · rcases List.mem_append.mp member with old | new
    · have other := unflown e old
      show Riding mode _ e.1 e.2 _ (Function.update count.issues p _ e.2.issuer) _
      rw [Function.update_of_ne other]
      exact (laps.riding e old).keep (others _ other) fun x => seen x _
    · obtain rfl := List.mem_singleton.mp new
      show Riding mode (st.world.issueInitial p) p (st.world.node p).issueNewTrain.2
        (hops (st.world.node p).issueNewTrain.2.issuer)
        (Function.update count.issues p (count.issues p + 1) (st.world.node p).issueNewTrain.2.issuer)
        (count.returns (st.world.node p).issueNewTrain.2.issuer)
      rw [issuer, Function.update_self, still, none, never]
      refine ⟨?_, fun x => ?_, .first 0 (by decide) clock rfl rfl ?_ (fun x => ?_) fun x _ => ?_⟩
      · rw [issuer, moved, one, clock]
      · rw [issuer, seen, unseen]
        exact Nat.zero_le _
      · rw [issuer, behind_self, Nat.mul_zero, Nat.zero_mul]
      · rw [isAckedBy_issued laps.ring.custody.ids, decide_eq_true_eq, issuer, arc_self p.isLt]
        exact Fin.ext_iff
      · rw [issuer, seen, unseen, clock]
        exact Nat.one_pos

/-- **The train about to be received** by the next process. -/
theorem meeting (laps : TwoLaps mode st entries count hops) (mode_ne : mode ≠ .causalOrder) {i : Nat}
    {s : Fin cfg.ringSize} {t : Train} (here : st.inflight[i]? = some (s, t))
    (fifo : (RingAction.hop i).Fifo st) :
    ∃ before after, st.inflight = before ++ (s, t) :: after ∧ (∀ e ∈ before, e.1.val ≠ s.val) ∧
      st.hop i = { st with
        world := st.world.receive (st.successor s) t
        inflight := before ++ after ++ st.sends (st.successor s) t } ∧
      (st.successor s).val = (s.val + 1) % cfg.ringSize ∧
      Meeting mode st.world entries s (st.successor s) t (hops t.issuer) := by
  obtain ⟨before, after, shape, length, hop⟩ := RingState.hop_eq here
  have emitted := laps.ring.tokens.flying _ (List.mem_of_getElem? here)
  have isKey := laps.ring.keyed t emitted
  have full : ∀ x, x < cfg.ringSize → x ∉ st.dead := fun x inRange =>
    (laps.ring.tokens.alive ⟨x, inRange⟩).mp (View.alive_initial mode x)
  have front : ∀ e ∈ before, e.1.val ≠ s.val := fun e inFront same => by
    obtain ⟨j, bound, rfl⟩ := List.getElem_of_mem inFront
    refine fifo _ here j (length ▸ bound) before[j] ?_ (Fin.ext same)
    rw [shape, List.getElem?_append_left bound, List.getElem?_eq_getElem bound]
    rfl
  have steps := behind_nextAlive (q := t.issuer) isKey.1.inside s.isLt full
  exact ⟨before, after, shape, front, hop, nextAlive_full s.isLt full, laps.ring.coherent,
    laps.ring.custody.ids, laps.ring.complete mode_ne, emitted, isKey, steps.1, steps.2,
    laps.passed t.issuer isKey.1.1, fun home far =>
      laps.done_of_returning shape front home isKey (laps.ring.clocks.bounded t emitted isKey) far⟩

/-- **One hop.** -/
theorem hop (laps : TwoLaps mode st entries count hops) (mode_ne : mode ≠ .causalOrder) {i : Nat}
    (legal : (RingAction.hop i).Legal st) (fifo : (RingAction.hop i).Fifo st)
    (eager : (RingAction.hop i).Eager st) :
    ∃ entries' hops', TwoLaps mode (st.hop i) entries' (count.after st (.hop i)) hops' := by
  obtain ⟨entries', ring⟩ := laps.ring.step mode_ne legal
  obtain ⟨⟨s, t⟩, here, -⟩ := legal
  obtain ⟨before, after, shape, front, hop, receiver, meeting⟩ := laps.meeting mode_ne here fifo
  have member : (s, t) ∈ st.inflight := List.mem_of_getElem? here
  have inside := meeting.inside
  have begins := eager _ here
  have counts : count.after st (.hop i) =
      { issues := Function.update count.issues t.issuer
          (issuesAfter st.world (st.successor s) t (count.issues t.issuer))
        returns := Function.update count.returns t.issuer
          (returnsAfter st.world (st.successor s) t (count.returns t.issuer)) } := by
    simp only [LapCount.after, Option.mem_def.mp here]
  rw [counts]
  have same : (st.hop i).world = st.world.receive (st.successor s) t := congrArg RingState.world hop
  have ring : RingInvariant mode (st.hop i) entries' := ring
  rw [hop] at ring ⊢
  dsimp only at begins
  generalize st.successor s = r at *
  obtain ⟨out, sends, issuer, passed, riding⟩ := meeting.receive (laps.riding _ member)
  have sent : st.sends r t = [(r, out)] := congrArg (List.map _) sends
  rw [sent] at ring ⊢
  have single := laps.conveyor.single
  rw [shape, List.pairwise_middle fun different => different.symm] at single
  have apart := (List.pairwise_cons.mp single).1
  have rest : ∀ e ∈ before ++ after, e ∈ st.inflight := fun e inRest =>
    (RingState.left_sublist shape).subset inRest
  have others : ∀ q, q < cfg.numTrains →
      ((∃ e ∈ before ++ after ++ [(r, out)], e.2.issuer = q) ↔ ∃ e ∈ st.inflight, e.2.issuer = q) := by
    intro q _
    refine ⟨?_, ?_⟩
    · rintro ⟨e, inRest, rfl⟩
      rcases List.mem_append.mp inRest with old | new
      · exact ⟨e, rest e old, rfl⟩
      · rw [List.mem_singleton.mp new]
        exact ⟨(s, t), member, issuer.symm⟩
    · rintro ⟨e, flying, rfl⟩
      rw [shape] at flying
      rcases List.mem_append.mp flying with inFront | inBack
      · exact ⟨e, List.mem_append_left _ (List.mem_append_left _ inFront), rfl⟩
      · rcases List.mem_cons.mp inBack with rfl | inBack
        · exact ⟨(r, out), List.mem_append_right _ (List.mem_singleton_self _), issuer⟩
        · exact ⟨e, List.mem_append_left _ (List.mem_append_right _ inBack), rfl⟩
  have seen : ∀ x q, q ≠ t.issuer → ((st.world.receive r t).node x).seenClock q =
      (st.world.node x).seenClock q := fun x q => st.world.receive_seen_of_ne r inside x
  have settled : ∀ q, q ≠ t.issuer → ∀ x c, ((st.world.receive r t).node x).Settled ⟨c, q⟩ ↔
      (st.world.node x).Settled ⟨c, q⟩ := fun q other x c => by
    refine ⟨fun after => ?_, (meeting.grows x).settled _⟩
    exact (st.world.receive_settled_back r after).resolve_right fun ⟨_, key, _⟩ =>
      other (congrArg ClockKey.issuer key)
  refine ⟨entries', Function.update hops t.issuer (hops t.issuer + 1), ring, ?_,
    fun q issues => (laps.begun q issues).trans (others q issues).symm, fun q issues waiting => ?_,
    fun e inRest => ?_, fun q issues => ?_⟩
  · refine laps.conveyor.move shape front issuer receiver (fun j issues arrives => ?_) cfg.trains_le
    have atHome : j = r.val := arrives.trans receiver.symm
    exact (laps.begun j issues).mp (atHome ▸ begins (atHome ▸ issues))
  · have other : q ≠ t.issuer := fun clash =>
      waiting ((laps.begun q issues).mpr ⟨_, member, clash.symm⟩)
    obtain ⟨none, never, unseen⟩ := laps.fresh q issues waiting
    refine ⟨(Function.update_of_ne other ..).trans none, (Function.update_of_ne other ..).trans never,
      fun x => (seen x q other).trans (unseen x)⟩
  · rcases List.mem_append.mp inRest with old | new
    · have other : e.2.issuer ≠ t.issuer := (apart e old).symm
      dsimp only
      rw [Function.update_of_ne other, Function.update_of_ne other, Function.update_of_ne other]
      exact (laps.riding e (rest e old)).keep
        (receive_issueClock laps.ring.custody.ids inside other) fun x => seen x _ other
    · rw [List.mem_singleton.mp new]
      dsimp only
      rw [issuer, Function.update_self, Function.update_self, Function.update_self]
      exact riding
  · by_cases own : q = t.issuer
    · rw [own, Function.update_self]
      exact passed
    · rw [Function.update_of_ne own]
      exact (laps.passed q issues).keep (fun x => seen x q own) (settled q own)

/-- **Every step keeps the invariant.** -/
theorem step (laps : TwoLaps mode st entries count hops) (mode_ne : mode ≠ .causalOrder)
    {action : RingAction cfg} (legal : (eagerRing cfg mode).legal st action) :
    ∃ entries' hops', TwoLaps mode (st.apply action) entries' (count.after st action) hops' := by
  obtain ⟨allowed, fifo, eager⟩ := legal
  cases action with
  | broadcast p data => exact (laps.broadcast mode_ne allowed).imp fun _ next => ⟨hops, next⟩
  | start p => exact (laps.start mode_ne allowed).imp fun _ next => ⟨hops, next⟩
  | hop i => exact laps.hop mode_ne allowed fifo eager

end TwoLaps

/-- The eager ring with its counts. -/
def countedRing (cfg : RingConfig) (mode : DeliveryMode) :
    Machine (RingState cfg × LapCount) (RingAction cfg) where
  start := fun st => st = (RingState.initial cfg mode, ⟨fun _ => 0, fun _ => 0⟩)
  legal := fun st action => (eagerRing cfg mode).legal st.1 action
  next := fun st action => (st.1.apply action, st.2.after st.1 action)

instance (cfg : RingConfig) (mode : DeliveryMode) (st : RingState cfg × LapCount)
    (action : RingAction cfg) : Decidable ((countedRing cfg mode).legal st action) :=
  inferInstanceAs (Decidable ((eagerRing cfg mode).legal st.1 action))

theorem twoLaps_reachable (mode_ne : mode ≠ .causalOrder) {st : RingState cfg × LapCount}
    (reachable : (countedRing cfg mode).Reachable st) :
    ∃ entries hops, TwoLaps mode st.1 entries st.2 hops := by
  refine Machine.invariant (P := fun st => ∃ entries hops, TwoLaps mode st.1 entries st.2 hops)
    ?_ ?_ reachable
  · rintro _ rfl
    exact ⟨_, _, TwoLaps.initial mode⟩
  · rintro st action ⟨entries, hops, laps⟩ legal
    exact laps.step mode_ne legal

/-- Every run of the eager ring has its counts. -/
theorem counted_reachable {st : RingState cfg} (reachable : (eagerRing cfg mode).Reachable st) :
    ∃ count, (countedRing cfg mode).Reachable (st, count) := by
  refine Machine.invariant (m := eagerRing cfg mode)
    (P := fun st => ∃ count, (countedRing cfg mode).Reachable (st, count)) ?_ ?_ reachable
  · rintro _ rfl
    exact ⟨_, Machine.Reachable.start rfl⟩
  · rintro st action ⟨count, before⟩ legal
    exact ⟨_, before.take (a := action) legal⟩

end TrainsRing
