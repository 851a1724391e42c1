/-
**The issuers keep pace within a view.**

The clocks of a ring with view changes, with no regard to payloads and logs: so they are known also
in views in which a slot out of use is far from the others.

* `Aloft` — a train in flight above the floor bears the clock its issuer has stamped last.
* `Pacing` — no issuer in use is more than one clock ahead of another one.
* `Pacing.ring` — **a step of the ring keeps it**: an issuer moves on when its key is done, so when
  every issuer has shown that clock.
* `Resting` — the issuers of an installed view before they reissue.
* `Resting.reissueAll` — **reissuing starts the next view in pace**, where the floors allow it.
-/

import TrainsRing.Reconfig.Gated
import TrainsRing.Reconfig.Renewal

namespace TrainsRing

variable {cfg : RingConfig} {view : View cfg} {st : RingState cfg}

open TrainsNode RingState

/-- A train in flight: its sender is in use, and above the floor it bears the clock its issuer has
stamped last, which the sender has stamped or seen. -/
structure Aloft (view : View cfg) (st : RingState cfg) (e : Fin cfg.ringSize × Train) : Prop where
  sender : e.1.val ∉ st.dead
  issues : e.2.issuer < cfg.numTrains
  alive : view.floor.get e.2.issuer < e.2.clock → view.Alive e.2.issuer
  last : view.floor.get e.2.issuer < e.2.clock →
    satSucc e.2.clock = st.world.issueClock e.2.issuer
  known : view.floor.get e.2.issuer < e.2.clock →
    e.2.issuer = e.1.val ∨ e.2.clock ≤ (st.world.node e.1).seenClock e.2.issuer

theorem Aloft.inside {e : Fin cfg.ringSize × Train} (aloft : Aloft view st e) :
    e.2.issuer < cfg.ringSize := lt_of_lt_of_le aloft.issues cfg.trains_le

/-- The clocks of the members of a view. -/
structure Pacing (view : View cfg) (st : RingState cfg) : Prop where
  named : st.world.Named
  alive : ∀ p : Fin cfg.ringSize, view.Alive p ↔ p.val ∉ st.dead
  bounded : ∀ q, q < cfg.numTrains → view.floor.get q ≤ u64Max
  gated : ∀ p : Fin cfg.ringSize, view.Alive p → Gated view (st.world.node p)
  seen : ∀ p : Fin cfg.ringSize, view.Alive p → ∀ q, view.Issuer q →
    (st.world.node p).seenClock q ≤ u64Max ∧
      ((st.world.node p).seenClock q < st.world.issueClock q ∨ st.world.issueClock q = u64Max)
  idle : ∀ p : Fin cfg.ringSize, view.Alive p → ∀ q, q < cfg.numTrains → ¬ view.Alive q →
    (st.world.node p).seenClock q ≤ view.floor.get q
  bounds : ∀ q, view.Issuer q → 1 ≤ st.world.issueClock q ∧ st.world.issueClock q ≤ u64Max
  even : ∀ q i, view.Issuer q → view.Issuer i → st.world.issueClock q ≤ st.world.issueClock i + 1
  aloft : ∀ e ∈ st.inflight, Aloft view st e
  single : st.inflight.Pairwise fun a b => view.Key a.2.key → view.Key b.2.key →
    a.2.issuer = b.2.issuer → st.world.issueClock a.2.issuer = u64Max
  unstarted : ∀ q : Fin cfg.ringSize, view.Issuer q → q.val ∉ st.started →
    st.world.issueClock q = 1 ∧ ∀ e ∈ st.inflight, e.2.issuer = q.val → ¬ view.Key e.2.key

namespace Pacing

theorem initial (cfg : RingConfig) :
    Pacing (View.initial cfg .totalOrder) (RingState.initial cfg .totalOrder) := by
  have one : ∀ q, (View.initial cfg .totalOrder).Issuer q →
      (World.initial cfg .totalOrder).issueClock q = 1 := fun q issuer => dif_pos issuer.inside
  have zero : ∀ (p : Fin cfg.ringSize) q,
      ((World.initial cfg .totalOrder).node p).seenClock q = 0 := fun _ q => Slots.get_zero q
  refine ⟨fun _ => rfl,
    fun p => ⟨fun _ => Finset.notMem_empty _, fun _ => View.alive_initial .totalOrder p⟩,
    fun q _ => (Slots.get_zero q).trans_le (Nat.zero_le _),
    fun p _ => Gated.initial cfg p p.isLt .totalOrder, fun p _ q issuer => ?_, fun p _ q _ _ => ?_,
    fun q issuer => ?_, fun q i left right => ?_, fun _ member => absurd member List.not_mem_nil,
    List.Pairwise.nil, fun q issuer _ => ⟨one q issuer, fun _ member => absurd member List.not_mem_nil⟩⟩
  · refine ⟨(zero p q).trans_le (Nat.zero_le _), Or.inl ?_⟩
    show ((World.initial cfg .totalOrder).node p).seenClock q <
      (World.initial cfg .totalOrder).issueClock q
    rw [zero, one q issuer]
    exact Nat.one_pos
  · exact (zero p q).trans_le (Nat.zero_le _)
  · show 1 ≤ (World.initial cfg .totalOrder).issueClock q ∧
      (World.initial cfg .totalOrder).issueClock q ≤ u64Max
    rw [one q issuer]
    exact ⟨le_rfl, by decide⟩
  · show (World.initial cfg .totalOrder).issueClock q ≤ _
    rw [one q left]
    exact Nat.le_add_left 1 _

variable (pacing : Pacing view st)

include pacing

/-- What all the clocks are about: the nodes, who is in use, and the trains in flight, of which some
may be gone. -/
theorem thin {st' : RingState cfg} (nodes : st'.world.node = st.world.node) (dead : st'.dead = st.dead)
    (started : st'.started = st.started) (fewer : st'.inflight.Sublist st.inflight) :
    Pacing view st' := by
  have clock : ∀ q, st'.world.issueClock q = st.world.issueClock q :=
    World.issueClock_congr fun q => by rw [nodes]
  refine ⟨fun p => ?_, fun p => ?_, pacing.bounded, fun p alive => ?_, fun p alive q issuer => ?_,
    fun p alive q => ?_, fun q issuer => ?_, fun q i => ?_, fun e member => ?_, ?_,
    fun q issuer waiting => ?_⟩
  · rw [nodes]
    exact pacing.named p
  · rw [dead]
    exact pacing.alive p
  · rw [nodes]
    exact pacing.gated p alive
  · rw [nodes, clock]
    exact pacing.seen p alive q issuer
  · rw [nodes]
    exact pacing.idle p alive q
  · rw [clock]
    exact pacing.bounds q issuer
  · rw [clock, clock]
    exact pacing.even q i
  · obtain ⟨sender, issues, alive, last, known⟩ := pacing.aloft e (fewer.subset member)
    exact ⟨dead ▸ sender, issues, alive, fun fresh => (last fresh).trans (clock _).symm,
      fun fresh => nodes ▸ known fresh⟩
  · refine (pacing.single.sublist fewer).imp fun {a b} both left right same => ?_
    exact (clock _).trans (both left right same)
  · obtain ⟨one, none⟩ := pacing.unstarted q issuer (started ▸ waiting)
    exact ⟨(clock q).trans one, fun e member => none e (fewer.subset member)⟩

theorem broadcast (p : Fin cfg.ringSize) (data : List UInt8) : Pacing view (st.broadcast p data) := by
  obtain ⟨-, clock, seen, -⟩ := broadcast_keeps st.world p data
  obtain ⟨-, clocks, delivery, waiting, floor, -⟩ := (st.world.node p).handleBroadcast_keeps data
  refine ⟨pacing.named.broadcast p data, pacing.alive, pacing.bounded, fun x alive => ?_,
    fun x alive q issuer => ?_, fun x alive q issues gone => ?_, fun q issuer => ?_,
    fun q i left right => ?_, fun e member => ?_, pacing.single.imp fun {a b} both left right same => ?_,
    fun q issuer idle => ?_⟩
  · show Gated view ((st.world.broadcast p data).node x)
    by_cases here : x = p
    · have self : (st.world.broadcast p data).node p = ((st.world.node p).handleBroadcast data).1 :=
        st.world.act_node_self p _
      rw [here, self]
      exact (pacing.gated p (here ▸ alive)).congr clocks delivery waiting floor
    · rw [show (st.world.broadcast p data).node x = st.world.node x from
        st.world.act_node_of_ne p _ here]
      exact pacing.gated x alive
  · obtain ⟨top, below⟩ := pacing.seen x alive q issuer
    refine ⟨(seen x q).trans_le top, below.imp (fun low => ?_) (clock q).trans⟩
    exact ((seen x q).trans_lt low).trans_eq (clock q).symm
  · exact (seen x q).trans_le (pacing.idle x alive q issues gone)
  · exact (clock q).symm ▸ pacing.bounds q issuer
  · exact ((clock q).trans_le (pacing.even q i left right)).trans_eq (congrArg (· + 1) (clock i).symm)
  · obtain ⟨sender, issues, alive, last, known⟩ := pacing.aloft e member
    exact ⟨sender, issues, alive, fun fresh => (last fresh).trans (clock _).symm,
      fun fresh => (known fresh).imp_right fun low => low.trans_eq (seen _ _).symm⟩
  · exact (clock _).trans (both left right same)
  · obtain ⟨one, none⟩ := pacing.unstarted q issuer idle
    exact ⟨(clock q).trans one, none⟩

/-! ### One hop -/

/-- **What the receiver of a train of the view does to the clocks**: it stamps a new one only when
every issuer has shown the train's, and what it sends bears the last clock stamped. -/
theorem receive {s r : Fin cfg.ringSize} {t : Train} (member : (s, t) ∈ st.inflight)
    (alive : r.val ∉ st.dead) (isKey : view.Key t.key) :
    ((st.world.receive r t).issueClock t.issuer = st.world.issueClock t.issuer ∨
      (st.world.receive r t).issueClock t.issuer = satSucc (st.world.issueClock t.issuer) ∧
        ∀ i, view.Issuer i → st.world.issueClock t.issuer ≤ st.world.issueClock i) ∧
    ∀ out ∈ forwards ((st.world.node r).step (.trainReceived t)).2, out.issuer = t.issuer ∧
      satSucc out.clock = (st.world.receive r t).issueClock t.issuer ∧
      (out.issuer = r.val ∨ out.clock ≤ ((st.world.receive r t).node r).seenClock out.issuer) := by
  have aloft := pacing.aloft (s, t) member
  have last : satSucc t.clock = st.world.issueClock t.issuer := aloft.last isKey.2
  have live : view.Alive r := (pacing.alive r).mpr alive
  have gated := pacing.gated r live
  obtain ⟨forwarded, sends, -, traffic, -, -⟩ := st.world.receive_spec r aloft.inside
  rw [sends]
  have still : ((st.world.receive r t).node r).nextIssueClock =
      (st.world.node r).nextIssueClock →
        (st.world.receive r t).issueClock t.issuer = st.world.issueClock t.issuer := by
    intro same
    refine World.issueClock_congr (fun x => ?_) _
    by_cases here : x = r
    · rw [here, same]
    · rw [st.world.receive_node_of_ne r here]
  cases traffic with
  | absorbed stale _ =>
    have low := stale.2
    rw [gated.floor] at low
    exact absurd low (not_le.mpr isKey.2)
  | relayed _ _ _ _ clock seen _ =>
    refine ⟨Or.inl (still clock), fun out isOut => ?_⟩
    rw [List.mem_singleton.mp isOut]
    exact ⟨rfl, last.trans (still clock).symm, Or.inr seen⟩
  | loaded _ _ _ _ clock seen =>
    refine ⟨Or.inl (still clock), fun out isOut => ?_⟩
    rw [List.mem_singleton.mp isOut]
    exact ⟨rfl, last.trans (still clock).symm, Or.inr seen⟩
  | issued _ own done _ clock =>
    have home : t.issuer = r.val := own.trans (pacing.named r)
    have moved : (st.world.receive r t).issueClock t.issuer =
        satSucc (st.world.issueClock t.issuer) := by
      rw [home, World.issueClock_eq, World.issueClock_eq, clock]
    refine ⟨Or.inr ⟨moved, fun i issuer => ?_⟩, fun out isOut => ?_⟩
    · -- the train is done here, so the gate was open for it
      have shown : t.clock ≤ (st.world.node r).seenClock i := gated.gate t.key done isKey.2 i issuer
      have step := satSucc_le t.clock
      have top := (pacing.bounds t.issuer isKey.1).2
      rcases (pacing.seen r live i issuer).2 with below | full
      · omega
      · omega
    · rw [List.mem_singleton.mp isOut]
      refine ⟨own.symm, ?_, Or.inl (pacing.named r)⟩
      rw [moved, home, World.issueClock_eq]
      rfl

/-- The clocks seen when a train of the view has been received: all stamped before. -/
theorem receive_seen {s r : Fin cfg.ringSize} {t : Train} (member : (s, t) ∈ st.inflight)
    (live : view.Alive r) (isKey : view.Key t.key) {x : Fin cfg.ringSize} (alive : view.Alive x)
    {q : Nat} (issuer : view.Issuer q) :
    ((st.world.receive r t).node x).seenClock q ≤ u64Max ∧
      (((st.world.receive r t).node x).seenClock q < st.world.issueClock q ∨
        st.world.issueClock q = u64Max) := by
  have aloft := pacing.aloft (s, t) member
  by_cases same : x = r
  · obtain ⟨-, -, -, -, -, stores⟩ := st.world.receive_spec r aloft.inside
    rw [same]
    rcases stores q with unchanged | ⟨own, stored⟩
    · rw [unchanged]
      exact pacing.seen r live q issuer
    · have last : satSucc t.clock = st.world.issueClock q := own ▸ aloft.last isKey.2
      have bound := (pacing.bounds q issuer).2
      have step := le_satSucc t.clock
      rw [stored]
      rcases lt_or_ge t.clock u64Max with room | full
      · rw [satSucc_of_lt room] at last
        exact ⟨room.le, Or.inl (show t.clock < _ by omega)⟩
      · exact ⟨show t.clock ≤ _ by omega, Or.inr (by omega)⟩
  · rw [st.world.receive_node_of_ne r same]
    exact pacing.seen x alive q issuer

/-- Another train of the same issuer is in flight above the floor only at the last clock. -/
theorem apart {before after : List (Fin cfg.ringSize × Train)} {s : Fin cfg.ringSize} {t : Train}
    (shape : st.inflight = before ++ (s, t) :: after) (isKey : view.Key t.key) :
    ∀ e ∈ before ++ after, view.Key e.2.key → e.2.issuer = t.issuer →
      st.world.issueClock t.issuer = u64Max := by
  intro e inside otherKey same
  have pairs := pacing.single
  rw [shape, List.pairwise_middle fun both left right equal =>
    equal ▸ both right left equal.symm] at pairs
  exact (List.pairwise_cons.mp pairs).1 e inside isKey otherKey same.symm

section Receive

variable {s r : Fin cfg.ringSize} {t : Train} (member : (s, t) ∈ st.inflight)
  (receiver : r.val ∉ st.dead) (isKey : view.Key t.key)

include member receiver isKey

/-- At most the train's issuer stamps a new clock, and it was no further than the others. -/
theorem receive_clock (q : Nat) : (st.world.receive r t).issueClock q = st.world.issueClock q ∨
    (st.world.receive r t).issueClock q = satSucc (st.world.issueClock q) ∧
      ∀ i, view.Issuer i → st.world.issueClock q ≤ st.world.issueClock i := by
  by_cases same : q = t.issuer
  · rw [same]
    exact (pacing.receive member receiver isKey).1
  · exact Or.inl (receive_issueClock pacing.named (pacing.aloft (s, t) member).inside same)

theorem receive_grows (q : Nat) : st.world.issueClock q ≤ (st.world.receive r t).issueClock q := by
  rcases pacing.receive_clock member receiver isKey q with still | ⟨next, -⟩
  · exact still.ge
  · rw [next]
    exact le_satSucc _

/-- The last clock stays. -/
theorem receive_top {q : Nat} (full : st.world.issueClock q = u64Max) :
    (st.world.receive r t).issueClock q = u64Max := by
  rcases pacing.receive_clock member receiver isKey q with still | ⟨next, -⟩
  · exact still.trans full
  · rw [next, full]
    exact if_neg (lt_irrefl _)

theorem receive_bounds {q : Nat} (issuer : view.Issuer q) :
    1 ≤ (st.world.receive r t).issueClock q ∧ (st.world.receive r t).issueClock q ≤ u64Max := by
  refine ⟨(pacing.bounds q issuer).1.trans (pacing.receive_grows member receiver isKey q), ?_⟩
  rcases pacing.receive_clock member receiver isKey q with still | ⟨next, -⟩
  · exact still.trans_le (pacing.bounds q issuer).2
  · exact next.trans_le (satSucc_le_max (pacing.bounds q issuer).2)

/-- **The issuers stay even.** -/
theorem receive_even {q i : Nat} (left : view.Issuer q) (right : view.Issuer i) :
    (st.world.receive r t).issueClock q ≤ (st.world.receive r t).issueClock i + 1 := by
  have further := pacing.receive_grows member receiver isKey i
  rcases pacing.receive_clock member receiver isKey q with still | ⟨next, caught⟩
  · have near := pacing.even q i left right
    omega
  · have step := satSucc_le (st.world.issueClock q)
    have behind := caught i right
    omega

/-- What the receiver sends on: one train of the same issuer at most, with the last clock stamped. -/
theorem receive_sends : (st.sends r t = [] ∨ ∃ only, st.sends r t = [only]) ∧
    ∀ e ∈ st.sends r t, e.2.issuer = t.issuer ∧ e.1 = r ∧
      satSucc e.2.clock = (st.world.receive r t).issueClock e.2.issuer ∧
      (e.2.issuer = r.val ∨ e.2.clock ≤ ((st.world.receive r t).node r).seenClock e.2.issuer) := by
  obtain ⟨forwarded, sends, -, traffic, -, -⟩ :=
    st.world.receive_spec r (pacing.aloft (s, t) member).inside
  refine ⟨?_, fun e isOut => ?_⟩
  · unfold RingState.sends
    rw [sends]
    rcases traffic.single with rfl | ⟨out, rfl⟩
    · exact Or.inl rfl
    · exact Or.inr ⟨(r, out), rfl⟩
  · obtain ⟨out, inside, rfl⟩ := List.mem_map.mp isOut
    obtain ⟨issuer, last, known⟩ := (pacing.receive member receiver isKey).2 out inside
    exact ⟨issuer, rfl, last.trans (congrArg _ issuer.symm), known⟩

/-- **The trains in flight after a hop**: those left behind bear the last clock of their issuers, and so
do those sent on. -/
theorem hop_aloft {before after : List (Fin cfg.ringSize × Train)}
    (shape : st.inflight = before ++ (s, t) :: after) {st' : RingState cfg}
    (world : st'.world = st.world.receive r t) (dead : st'.dead = st.dead) :
    ∀ e ∈ before ++ after ++ st.sends r t, Aloft view st' e := by
  have aloft := pacing.aloft (s, t) member
  intro e inside
  rcases List.mem_append.mp inside with old | new
  · have flying : e ∈ st.inflight := (RingState.left_sublist shape).subset old
    obtain ⟨sender, issues, alive, last, known⟩ := pacing.aloft e flying
    refine ⟨dead ▸ sender, issues, alive, fun fresh => ?_, fun fresh => ?_⟩
    · rw [world, last fresh]
      by_cases same : e.2.issuer = t.issuer
      · have full := pacing.apart shape isKey e old ⟨⟨issues, alive fresh⟩, fresh⟩ same
        rw [same, full, pacing.receive_top member receiver isKey full]
      · exact (receive_issueClock pacing.named aloft.inside same).symm
    · rw [world]
      exact (known fresh).imp_right fun low =>
        low.trans ((st.world.receive_evolves r aloft.inside e.1).seen _)
  · obtain ⟨issuer, sender, last, known⟩ := (pacing.receive_sends member receiver isKey).2 e new
    refine ⟨dead ▸ sender ▸ receiver, issuer ▸ aloft.issues, fun _ => issuer ▸ isKey.1.2, fun _ => ?_,
      fun _ => ?_⟩
    · rw [world]
      exact last
    · rw [world, sender]
      exact known

/-- Two trains of one issuer are in flight only at the last clock. -/
theorem hop_single {before after : List (Fin cfg.ringSize × Train)}
    (shape : st.inflight = before ++ (s, t) :: after) :
    (before ++ after ++ st.sends r t).Pairwise fun a b => view.Key a.2.key → view.Key b.2.key →
      a.2.issuer = b.2.issuer → (st.world.receive r t).issueClock a.2.issuer = u64Max := by
  have fewer : (before ++ after).Sublist st.inflight := by
    rw [shape]
    exact (List.Sublist.refl before).append (List.sublist_cons_self _ after)
  obtain ⟨few, sent⟩ := pacing.receive_sends member receiver isKey
  refine List.pairwise_append.mpr ⟨?_, ?_, fun a old b new leftKey _ same => ?_⟩
  · refine (pacing.single.sublist fewer).imp fun {a b} both left right same => ?_
    exact pacing.receive_top member receiver isKey (both left right same)
  · rcases few with none | ⟨only, one⟩
    · rw [none]
      exact List.Pairwise.nil
    · rw [one]
      exact List.pairwise_singleton _ _
  · have issuer := same.trans (sent b new).1
    rw [issuer]
    exact pacing.receive_top member receiver isKey (pacing.apart shape isKey a old leftKey issuer)

end Receive

/-- **A stale train is absorbed.** -/
theorem absorb {before after : List (Fin cfg.ringSize × Train)} {s r : Fin cfg.ringSize} {t : Train}
    (shape : st.inflight = before ++ (s, t) :: after) (live : view.Alive r)
    (low : t.clock ≤ view.floor.get t.issuer) {st' : RingState cfg}
    (world : st'.world = st.world.receive r t) (dead : st'.dead = st.dead)
    (started : st'.started = st.started) (flying : st'.inflight = before ++ after ++ st.sends r t) :
    Pacing view st' := by
  have member : (s, t) ∈ st.inflight := shape ▸ List.mem_append_right _ List.mem_cons_self
  have stale : (st.world.node r).Stale t := by
    refine ⟨(pacing.aloft (s, t) member).inside, ?_⟩
    rw [(pacing.gated r live).floor]
    exact low
  have branch : (st.world.node r).handleTrain t = (st.world.node r, []) := if_pos stale
  have quiet : st.sends r t = [] := by
    show (forwards ((st.world.node r).handleTrain t).2).map _ = []
    rw [branch]
    rfl
  refine pacing.thin (funext fun x => ?_) dead started ?_
  · rw [world]
    by_cases same : x = r
    · have self : (st.world.receive r t).node r = ((st.world.node r).handleTrain t).1 :=
        st.world.act_node_self r _
      rw [same, self, branch]
    · exact st.world.receive_node_of_ne r same t
  · rw [flying, quiet, List.append_nil, shape]
    exact (List.Sublist.refl before).append (List.sublist_cons_self _ after)

/-- **One hop.** -/
theorem hop {i : Nat} {s : Fin cfg.ringSize} {t : Train} (here : st.inflight[i]? = some (s, t))
    (receiver : (st.successor s).val ∉ st.dead) : Pacing view (st.hop i) := by
  obtain ⟨before, after, shape, -, hop⟩ := hop_eq here
  have member : (s, t) ∈ st.inflight := List.mem_of_getElem? here
  have aloft := pacing.aloft (s, t) member
  obtain ⟨r, rEq⟩ : ∃ r, r = st.successor s := ⟨_, rfl⟩
  rw [← rEq] at receiver hop
  have live : view.Alive r := (pacing.alive r).mpr receiver
  rw [hop]
  rcases le_or_gt t.clock (view.floor.get t.issuer) with low | above
  · exact pacing.absorb shape live low rfl rfl rfl rfl
  have isKey : view.Key t.key := ⟨⟨aloft.issues, aloft.alive above⟩, above⟩
  have others : ∀ q, q ≠ t.issuer → (st.world.receive r t).issueClock q = st.world.issueClock q :=
    fun q other => receive_issueClock pacing.named aloft.inside other
  refine ⟨pacing.named.receive r aloft.inside, pacing.alive, pacing.bounded, fun x alive => ?_,
    fun x alive q issuer => ?_, fun x alive q issues gone => ?_,
    fun q issuer => pacing.receive_bounds member receiver isKey issuer,
    fun q i left right => pacing.receive_even member receiver isKey left right,
    pacing.hop_aloft member receiver isKey shape rfl rfl, pacing.hop_single member receiver isKey shape,
    fun q issuer waiting => ?_⟩
  · obtain ⟨delivered, forwarded, handled, -⟩ := (st.world.node r).handleTrain_spec t
    by_cases same : x = r
    · have self : (st.world.receive r t).node r = ((st.world.node r).handleTrain t).1 :=
        st.world.act_node_self r _
      show Gated view ((st.world.receive r t).node x)
      rw [same, self]
      exact (pacing.gated r live).handled handled aloft.inside
    · exact (st.world.receive_node_of_ne r same t) ▸ pacing.gated x alive
  · obtain ⟨small, below⟩ := pacing.receive_seen member live isKey alive issuer
    exact ⟨small, below.imp
      (fun low => lt_of_lt_of_le low (pacing.receive_grows member receiver isKey q))
      (pacing.receive_top member receiver isKey)⟩
  · have other : q ≠ t.issuer := fun same => gone (same ▸ aloft.alive above)
    refine Eq.trans_le ?_ (pacing.idle x alive q issues gone)
    exact st.world.receive_seen_of_ne r aloft.inside x other
  · obtain ⟨one, none⟩ := pacing.unstarted q issuer waiting
    have other : q.val ≠ t.issuer := fun same => none (s, t) member same.symm isKey
    refine ⟨(others q other).trans one, fun e inside same => ?_⟩
    rcases List.mem_append.mp inside with old | new
    · exact none e ((RingState.left_sublist shape).subset old) same
    · have issuer := ((pacing.receive_sends member receiver isKey).2 e new).1
      exact absurd (same.symm.trans issuer) other

/-- **An issuer starts.** -/
theorem start {p : Fin cfg.ringSize} (issuer : view.Issuer p) (waiting : p.val ∉ st.started) :
    Pacing view (st.start p) := by
  obtain ⟨-, moved, others, seen, -⟩ := issueInitial_keeps st.world p
  obtain ⟨one, none⟩ := pacing.unstarted p issuer waiting
  have room : 1 < u64Max := by decide
  have two : (st.world.issueInitial p).issueClock p = 2 := by
    rw [moved, one, satSucc_of_lt room]
  have self : (st.world.issueInitial p).node p = (st.world.node p).issueNewTrain.1 :=
    st.world.act_node_self p _
  have id : (st.world.node p).issueNewTrain.2.issuer = p.val := pacing.named p
  have grows : ∀ q, st.world.issueClock q ≤ (st.world.issueInitial p).issueClock q := by
    intro q
    by_cases same : q = p.val
    · rw [same, two, one]
      exact Nat.le_succ 1
    · exact (others q same).ge
  have top : ∀ q, st.world.issueClock q = u64Max →
      (st.world.issueInitial p).issueClock q = u64Max := by
    intro q full
    refine (others q fun same => ?_).trans full
    rw [same, one] at full
    omega
  refine ⟨pacing.named.act rfl, pacing.alive, pacing.bounded, fun x alive => ?_,
    fun x alive q isIssuer => ?_, fun x alive q issues gone => ?_, fun q isIssuer => ?_,
    fun q i left right => ?_, fun e member => ?_, ?_, fun q isIssuer waits => ?_⟩
  · show Gated view ((st.world.issueInitial p).node x)
    by_cases here : x = p
    · rw [here, self]
      exact (pacing.gated p issuer.2).congr rfl rfl rfl rfl
    · rw [show (st.world.issueInitial p).node x = st.world.node x from
        st.world.act_node_of_ne p _ here]
      exact pacing.gated x alive
  · obtain ⟨small, below⟩ := pacing.seen x alive q isIssuer
    refine ⟨(seen x q).trans_le small, below.imp (fun low => ?_) (top q)⟩
    exact (seen x q).trans_lt (lt_of_lt_of_le low (grows q))
  · exact (seen x q).trans_le (pacing.idle x alive q issues gone)
  · refine ⟨(pacing.bounds q isIssuer).1.trans (grows q), ?_⟩
    show (st.world.issueInitial p).issueClock q ≤ u64Max
    by_cases same : q = p.val
    · rw [same, two]
      exact room
    · exact (others q same).trans_le (pacing.bounds q isIssuer).2
  · have further := grows i
    have first := (pacing.bounds i right).1
    have near := pacing.even q i left right
    show (st.world.issueInitial p).issueClock q ≤ (st.world.issueInitial p).issueClock i + 1
    by_cases same : q = p.val
    · rw [same, two]
      omega
    · rw [others q same]
      omega
  · rcases List.mem_append.mp member with old | new
    · obtain ⟨sender, issues, alive, last, known⟩ := pacing.aloft e old
      refine ⟨sender, issues, alive, fun fresh => ?_, fun fresh => ?_⟩
      · refine (last fresh).trans (others _ fun same => ?_).symm
        exact none e old same ⟨⟨issues, alive fresh⟩, fresh⟩
      · exact (known fresh).imp_right fun low => low.trans_eq (seen _ _).symm
    · rw [List.mem_singleton.mp new]
      refine ⟨(pacing.alive p).mp issuer.2, id ▸ issuer.1, fun _ => id ▸ issuer.2, fun _ => ?_,
        fun _ => Or.inl id⟩
      refine Eq.trans ?_ ((congrArg _ id).trans moved).symm
      exact congrArg satSucc (st.world.issueClock_eq p).symm
  · refine List.pairwise_append.mpr ⟨?_, List.pairwise_singleton _ _, fun a old b new aKey _ same => ?_⟩
    · exact pacing.single.imp fun {a b} both left right same => top _ (both left right same)
    · rw [List.mem_singleton.mp new] at same
      exact absurd aKey (none a old (same.trans id))
  · have other : q.val ≠ p.val := fun same => waits (by
      show q.val ∈ insert p.val st.started
      rw [same]
      exact Finset.mem_insert_self _ _)
    obtain ⟨first, nothing⟩ := pacing.unstarted q isIssuer fun inside =>
      waits (Finset.mem_insert_of_mem inside)
    refine ⟨(others q other).trans first, fun e member same => ?_⟩
    rcases List.mem_append.mp member with old | new
    · exact nothing e old same
    · rw [List.mem_singleton.mp new] at same
      exact absurd (same.symm.trans id) other

/-- **A step of the ring.** -/
theorem ring {action : RingAction cfg} (legal : action.Legal st) : Pacing view (st.apply action) := by
  cases action with
  | broadcast p data => exact pacing.broadcast p data
  | start p => exact pacing.start ⟨legal.1, (pacing.alive p).mpr legal.2.1⟩ legal.2.2
  | hop i =>
    obtain ⟨⟨s, t⟩, here, receiver⟩ := legal
    exact pacing.hop here receiver

end Pacing

/-! ### The first trains of a view -/

/-- The members of an installed view, whose issuers are about to reissue. -/
structure Resting (view : View cfg) (st : RingState cfg) : Prop where
  named : st.world.Named
  alive : ∀ p : Fin cfg.ringSize, view.Alive p ↔ p.val ∉ st.dead
  bounded : ∀ q, q < cfg.numTrains → view.floor.get q ≤ u64Max
  gated : ∀ p : Fin cfg.ringSize, view.Alive p → Gated view (st.world.node p)
  seen : ∀ p : Fin cfg.ringSize, view.Alive p → ∀ q,
    (st.world.node p).seenClock q = view.floor.get q
  clock : ∀ q, view.Issuer q → st.world.issueClock q = satSucc (view.floor.get q)
  aloft : ∀ e ∈ st.inflight, Aloft view st e

/-- The first clocks of the issuers of a view differ by at most one. -/
def View.Even (view : View cfg) : Prop :=
  ∀ q i, view.Issuer q → view.Issuer i →
    satSucc (view.floor.get q) ≤ satSucc (view.floor.get i) + 1

namespace Resting

/-- A train left over above the floor bears the last clock there is. -/
theorem left_over (resting : Resting view st) {e : Fin cfg.ringSize × Train}
    (member : e ∈ st.inflight) (fresh : view.floor.get e.2.issuer < e.2.clock) :
    e.2.clock = u64Max ∧ u64Max ≤ view.floor.get e.2.issuer + 1 := by
  obtain ⟨-, issues, alive, last, -⟩ := resting.aloft e member
  have next := (last fresh).trans (resting.clock _ ⟨issues, alive fresh⟩)
  have bound := satSucc_le_max (resting.bounded _ issues)
  have step := satSucc_le (view.floor.get e.2.issuer)
  have grows := le_satSucc e.2.clock
  rcases lt_or_ge e.2.clock u64Max with room | full
  · rw [satSucc_of_lt room] at next
    omega
  · omega

/-- **The issuers reissue**: the view begins in pace. -/
theorem reissueAll (resting : Resting view st) (even : view.Even) : Pacing view st.reissueAll := by
  have dead := st.dead_reissueAll
  have issuers : ∀ p : Fin cfg.ringSize, view.Issuer p ↔ p ∈ st.issuers := fun p => by
    rw [mem_issuers, ← resting.alive]
    exact And.comm
  have clock : ∀ q, view.Issuer q →
      st.reissueAll.world.issueClock q = satSucc (satSucc (view.floor.get q)) := by
    intro q issuer
    have member : (⟨q, issuer.inside⟩ : Fin cfg.ringSize) ∈ st.issuers := (issuers _).mp issuer
    have before := resting.clock q issuer
    rw [show st.world.issueClock q = _ from st.world.issueClock_eq ⟨q, issuer.inside⟩] at before
    rw [show st.reissueAll.world.issueClock q = _ from st.reissueAll_issueClock member, before]
  have high : ∀ q, view.Issuer q → view.floor.get q ≤ satSucc (view.floor.get q) ∧
      satSucc (view.floor.get q) ≤ u64Max := fun q issuer =>
    ⟨le_satSucc _, satSucc_le_max (resting.bounded q issuer.1)⟩
  -- a train left over leaves its issuer at the last clock
  have full : ∀ e ∈ st.inflight, view.Key e.2.key →
      st.reissueAll.world.issueClock e.2.issuer = u64Max := by
    intro e member isKey
    have issuer : view.Issuer e.2.issuer := isKey.1
    have near := (resting.left_over member isKey.2).2
    have bound := (high _ issuer).2
    rw [clock _ issuer]
    unfold satSucc at bound ⊢
    split_ifs at bound ⊢ <;> omega
  have cases : ∀ e ∈ st.reissueAll.inflight, e ∈ st.inflight ∨ ∃ p : Fin cfg.ringSize,
      view.Issuer p ∧ e = (p, (st.world.node p).issueNewTrain.2) := by
    intro e member
    rw [reissueAll_inflight] at member
    refine (List.mem_append.mp member).imp_right fun new => ?_
    obtain ⟨p, issuer, rfl⟩ := List.mem_map.mp new
    exact ⟨p, (issuers p).mpr issuer, rfl⟩
  refine ⟨fun p => ?_, fun p => ?_, resting.bounded, fun p alive => ?_, fun p alive q issuer => ?_,
    fun p alive q _ _ => ?_, fun q issuer => ?_, fun q i left right => ?_, fun e member => ?_, ?_,
    fun q issuer waiting => ?_⟩
  · by_cases issuer : p ∈ st.issuers
    · rw [(st.reissueAll_node p).1 issuer]
      exact resting.named p
    · rw [(st.reissueAll_node p).2 issuer]
      exact resting.named p
  · rw [dead]
    exact resting.alive p
  · by_cases issuer : p ∈ st.issuers
    · rw [(st.reissueAll_node p).1 issuer]
      exact (resting.gated p alive).congr rfl rfl rfl rfl
    · rw [(st.reissueAll_node p).2 issuer]
      exact resting.gated p alive
  · rw [reissueAll_seen, resting.seen p alive, clock q issuer]
    have bound := high q issuer
    refine ⟨resting.bounded q issuer.1, ?_⟩
    unfold satSucc at bound ⊢
    split_ifs at bound ⊢ <;> omega
  · rw [reissueAll_seen, resting.seen p alive]
  · rw [clock q issuer]
    have bound := (high q issuer).2
    have room : 1 ≤ u64Max := by decide
    refine ⟨?_, satSucc_le_max bound⟩
    unfold satSucc
    split_ifs <;> omega
  · rw [clock q left, clock i right]
    have near := even q i left right
    have leftBound := (high q left).2
    have rightBound := (high i right).2
    unfold satSucc at near leftBound rightBound ⊢
    split_ifs at near leftBound rightBound ⊢ <;> omega
  · rcases cases e member with old | ⟨p, issuer, rfl⟩
    · obtain ⟨sender, issues, alive, -, known⟩ := resting.aloft e old
      refine ⟨dead.symm ▸ sender, issues, alive, fun fresh => ?_, fun fresh => ?_⟩
      · rw [full e old ⟨⟨issues, alive fresh⟩, fresh⟩, (resting.left_over old fresh).1]
        exact if_neg (lt_irrefl _)
      · exact (known fresh).imp_right fun low => low.trans_eq (reissueAll_seen _ _ _).symm
    · have id : (st.world.node p).issueNewTrain.2.issuer = p.val := resting.named p
      refine ⟨dead.symm ▸ (resting.alive p).mp issuer.2, id ▸ issuer.1, fun _ => id ▸ issuer.2,
        fun _ => ?_, fun _ => Or.inl id⟩
      rw [show (st.world.node p).issueNewTrain.2.issuer = p.val from id,
        st.reissueAll_issueClock ((issuers p).mp issuer)]
      rfl
  · rw [reissueAll_inflight]
    refine List.pairwise_append.mpr ⟨?_, ?_, fun a old _ _ aKey _ _ => full a old aKey⟩
    · exact List.pairwise_of_forall_mem_list fun a old _ _ aKey _ _ => full a old aKey
    · refine List.pairwise_map.mpr (st.nodup_issuers.imp fun {p q} different _ _ same => ?_)
      exact absurd (Fin.ext ((resting.named p).symm.trans (same.trans (resting.named q)))) different
  · exact absurd (st.started_reissueAll ((issuers q).mp issuer)) waiting

end Resting

end TrainsRing
