/-
**The laps of a new view.**

When the issuers have reissued, exactly one train of each is in flight above the floor, and no clock
was seen or stamped beyond it. So the laps begin anew in every view.

* `RingState.reissueAll_world`, `RingState.reissueAll_inflight` — what reissuing does.
* `Rested` — the issuers of an installed view before they reissue.
* `Rested.clocks`, `Rested.tokens` — **reissuing starts the laps of the view**.
* `Suspended.rested` — the members of the next view are rested when they have applied the plan.
-/

import TrainsRing.Reconfig.Readmission

namespace TrainsRing

variable {cfg : RingConfig} {view : View cfg} {base : List Payload}

open TrainsNode

/-! ### Reissuing -/

namespace RingState

/-- The issuers in use. -/
def issuers (st : RingState cfg) : List (Fin cfg.ringSize) :=
  st.members.filter fun p => p.val < cfg.numTrains

theorem mem_issuers {st : RingState cfg} {p : Fin cfg.ringSize} :
    p ∈ st.issuers ↔ p.val ∉ st.dead ∧ p.val < cfg.numTrains := by
  rw [issuers, List.mem_filter, mem_members, decide_eq_true_eq]

theorem nodup_issuers (st : RingState cfg) : st.issuers.Nodup := (nodup_members st).filter _

/-- What an issuer does when it reissues. -/
def reissuing (node : TrainsNode cfg) : TrainsNode cfg × List Output :=
  (node.reissueTrain.1, [.forwardTrain node.reissueTrain.2])

variable (st : RingState cfg)

theorem reissueAll_world : st.reissueAll.world = st.world.each st.issuers reissuing := by
  have general : ∀ (issuers : List (Fin cfg.ringSize)) (st' : RingState cfg),
      (issuers.foldl reissue st').world = st'.world.each issuers reissuing := by
    intro issuers
    induction issuers with
    | nil => exact fun _ => rfl
    | cons p rest ih => exact fun st' => ih (reissue st' p)
  exact general _ st

theorem started_reissueAll {p : Fin cfg.ringSize} (issuer : p ∈ st.issuers) :
    p.val ∈ st.reissueAll.started := by
  have general : ∀ (issuers : List (Fin cfg.ringSize)) (st' : RingState cfg),
      p ∈ issuers ∨ p.val ∈ st'.started → p.val ∈ (issuers.foldl reissue st').started := by
    intro issuers
    induction issuers with
    | nil => exact fun _ => Or.rec (fun member => absurd member List.not_mem_nil) id
    | cons q rest ih =>
      intro st' known
      refine ih (reissue st' q) ?_
      rcases known with member | before
      · rcases List.mem_cons.mp member with rfl | later
        · exact Or.inr (Finset.mem_insert_self _ _)
        · exact Or.inl later
      · exact Or.inr (Finset.mem_insert_of_mem before)
  exact general _ st (Or.inl issuer)

theorem reissueAll_inflight : st.reissueAll.inflight =
    st.inflight ++ st.issuers.map fun p => (p, (st.world.node p).issueNewTrain.2) := by
  have general : ∀ (issuers : List (Fin cfg.ringSize)) (st' : RingState cfg), issuers.Nodup →
      (issuers.foldl reissue st').inflight = st'.inflight ++ issuers.map fun p =>
        (p, (st'.world.node p).issueNewTrain.2) := by
    intro issuers
    induction issuers with
    | nil => exact fun st' _ => (List.append_nil _).symm
    | cons p rest ih =>
      intro st' distinct
      obtain ⟨fresh, tail⟩ := List.nodup_cons.mp distinct
      have same : (rest.map fun q => (q, ((reissue st' p).world.node q).issueNewTrain.2)) =
          rest.map fun q => (q, (st'.world.node q).issueNewTrain.2) := by
        refine List.map_congr_left fun q later => ?_
        rw [show (reissue st' p).world.node q = st'.world.node q from
          st'.world.act_node_of_ne p _ fun here => fresh (here ▸ later)]
      rw [List.foldl_cons, ih _ tail, same]
      exact List.append_assoc ..
  exact general _ st st.nodup_issuers

/-- The nodes after reissuing. -/
theorem reissueAll_node (p : Fin cfg.ringSize) :
    (p ∈ st.issuers → st.reissueAll.world.node p = (st.world.node p).issueNewTrain.1) ∧
      (p ∉ st.issuers → st.reissueAll.world.node p = st.world.node p) := by
  rw [reissueAll_world]
  exact ⟨fun issuer => (World.each_of_mem _ _ st.nodup_issuers issuer).1,
    fun other => (World.each_node_of_not_mem _ _ other).1⟩

theorem reissueAll_seen (p : Fin cfg.ringSize) (q : Nat) :
    (st.reissueAll.world.node p).seenClock q = (st.world.node p).seenClock q := by
  by_cases issuer : p ∈ st.issuers
  · rw [(st.reissueAll_node p).1 issuer]
    rfl
  · rw [(st.reissueAll_node p).2 issuer]

theorem reissueAll_emitted : st.reissueAll.world.emitted =
    st.world.emitted ++ st.issuers.map fun p => (st.world.node p).issueNewTrain.2 := by
  rw [reissueAll_world, World.each_emitted _ _ st.nodup_issuers, List.map_eq_flatMap]
  rfl

theorem reissueAll_issueClock {p : Fin cfg.ringSize} (issuer : p ∈ st.issuers) :
    st.reissueAll.world.issueClock p = satSucc (st.world.node p).nextIssueClock := by
  rw [World.issueClock_eq, (st.reissueAll_node p).1 issuer]
  rfl

end RingState

open RingState

/-! ### The first trains of a view -/

/-- An installed view whose issuers are about to reissue. A train above the floor that was left over
bears the last clock there is. -/
structure Rested (view : View cfg) (base : List Payload) (st : RingState cfg) : Prop where
  aligned : Aligned view base st
  bounded : ∀ q, view.floor.get q ≤ u64Max
  clock : ∀ p : Fin cfg.ringSize, view.Issuer p →
    (st.world.node p).nextIssueClock = satSucc (view.floor.get p)
  left : ∀ t ∈ st.world.emitted, view.Key t.key →
    t.clock = u64Max ∧ u64Max ≤ view.floor.get t.issuer + 1

namespace Rested

variable {st : RingState cfg}

theorem issuer (rested : Rested view base st) {p : Fin cfg.ringSize} :
    view.Issuer p ↔ p ∈ st.issuers := by
  rw [mem_issuers, ← rested.aligned.alive]
  exact And.comm

/-- A train of the view is left over, or was just reissued. -/
theorem cases (rested : Rested view base st) {t : Train} (member : t ∈ st.reissueAll.world.emitted)
    (isKey : view.Key t.key) : (t.clock = u64Max ∧ u64Max ≤ view.floor.get t.issuer + 1) ∨
      ∃ p : Fin cfg.ringSize, view.Issuer p ∧ t.issuer = p.val ∧
        t.clock = satSucc (view.floor.get p) ∧ t = (st.world.node p).issueNewTrain.2 := by
  rw [reissueAll_emitted] at member
  rcases List.mem_append.mp member with old | new
  · exact Or.inl (rested.left t old isKey)
  · obtain ⟨p, issuer, rfl⟩ := List.mem_map.mp new
    have issuer := rested.issuer.mpr issuer
    exact Or.inr ⟨p, issuer, rested.aligned.named p, rested.clock p issuer, rfl⟩

theorem issueClock (rested : Rested view base st) {q : Nat} (issuer : view.Issuer q) :
    st.reissueAll.world.issueClock q = satSucc (satSucc (view.floor.get q)) := by
  have member : (⟨q, issuer.inside⟩ : Fin cfg.ringSize) ∈ st.issuers := rested.issuer.mp issuer
  have clock := rested.clock ⟨q, issuer.inside⟩ issuer
  rw [show st.reissueAll.world.issueClock q = _ from st.reissueAll_issueClock member, clock]

/-- The clock of a train of the view is the first above the floor. -/
theorem clock_eq (rested : Rested view base st) {t : Train}
    (member : t ∈ st.reissueAll.world.emitted) (isKey : view.Key t.key) :
    t.clock = view.floor.get t.issuer + 1 := by
  have low : view.floor.get t.issuer < t.clock := isKey.2
  rcases rested.cases member isKey with ⟨last, near⟩ | ⟨p, -, same, stamp, -⟩
  · omega
  · have step := satSucc_le (view.floor.get p)
    rw [same] at low ⊢
    omega

/-- **Reissuing starts the clocks of the view.** -/
theorem clocks (rested : Rested view base st) : Clocks view st.reissueAll.world := by
  have top : ∀ q, view.Issuer q → view.floor.get q ≤ u64Max := fun q _ => rested.bounded q
  have room : 1 ≤ u64Max := by decide
  have high : ∀ q, view.Issuer q → st.reissueAll.world.issueClock q ≤ u64Max ∧
      (view.floor.get q + 2 ≤ st.reissueAll.world.issueClock q ∨
        st.reissueAll.world.issueClock q = u64Max) ∧
      st.reissueAll.world.issueClock q ≤ view.floor.get q + 2 := by
    intro q issuer
    have bound := top q issuer
    rw [rested.issueClock issuer]
    unfold satSucc
    split_ifs <;> omega
  refine ⟨fun q issuer => ?_, fun q issuer => ?_, fun t member isKey => ?_, fun t member isKey => ?_,
    fun x alive q _ => ?_, fun fair t member isKey i issuer => ?_, fun fair q i left right => ?_⟩
  · obtain ⟨bound, low, -⟩ := high q issuer
    omega
  · obtain ⟨-, low, -⟩ := high q issuer
    omega
  · have clock := rested.clock_eq member isKey
    rcases rested.cases member isKey with ⟨last, -⟩ | ⟨p, issuer, -, stamp, -⟩
    · exact last.le
    · rw [stamp]
      exact satSucc_le_max (top p issuer)
  · have clock := rested.clock_eq member isKey
    obtain ⟨-, low, -⟩ := high t.issuer isKey.1
    omega
  · left
    rw [reissueAll_seen]
    exact (rested.aligned.installed x alive).seen q
  · have clock := rested.clock_eq member isKey
    obtain ⟨-, low, -⟩ := high i issuer
    have near := fair t.issuer i issuer
    rcases rested.cases member isKey with ⟨last, -⟩ | ⟨p, source, -, stamp, -⟩
    · rcases low with low | full
      · omega
      · omega
    · have bound : t.clock ≤ u64Max := stamp ▸ satSucc_le_max (top p source)
      omega
  · obtain ⟨bound, -, near⟩ := high q left
    obtain ⟨-, low, -⟩ := high i right
    have even := fair q i right
    omega

/-- **Reissuing starts the laps of the view.** -/
theorem tokens (rested : Rested view base st) : Tokens view st.reissueAll := by
  have aligned := rested.aligned
  have view' := aligned.viewInvariant.reissueAll
  have inflight := st.reissueAll_inflight
  have dead := st.dead_reissueAll
  -- a train left over is stale or bears the last clock
  have tracked : ∀ e ∈ st.reissueAll.inflight, Tracked view e.2 → ∃ p : Fin cfg.ringSize,
      view.Issuer p ∧ e = (p, (st.world.node p).issueNewTrain.2) := by
    intro e member isTracked
    rw [inflight] at member
    rcases List.mem_append.mp member with old | new
    · have last := (rested.left e.2 (aligned.flying e old) isTracked.1).1
      exact absurd isTracked.2 (not_lt.mpr last.ge)
    · obtain ⟨p, issuer, rfl⟩ := List.mem_map.mp new
      exact ⟨p, rested.issuer.mpr issuer, rfl⟩
  refine ⟨view'.alive, view'.flying, ?_, fun e member isTracked => ?_,
    fun t member isKey c low below => ?_, fun q issuer waiting => ?_⟩
  · rw [inflight]
    refine List.pairwise_append.mpr ⟨?_, ?_, fun a old b _ aTracked _ => ?_⟩
    · refine List.pairwise_of_forall_mem_list fun a old b _ aTracked _ => ?_
      have last := (rested.left a.2 (aligned.flying a old) aTracked.1).1
      exact absurd aTracked.2 (not_lt.mpr last.ge)
    · refine List.pairwise_map.mpr (st.nodup_issuers.imp fun {p q} different _ _ same => ?_)
      exact different (Fin.ext ((aligned.named p).symm.trans (same.trans (aligned.named q))))
    · have last := (rested.left a.2 (aligned.flying a old) aTracked.1).1
      exact absurd aTracked.2 (not_lt.mpr last.ge)
  · obtain ⟨p, issuer, rfl⟩ := tracked e member isTracked
    have clock := rested.clock p issuer
    have out : (st.world.node p).issueNewTrain.2 ∈ st.reissueAll.world.emitted := view'.flying _ member
    have stamp : (st.world.node p).issueNewTrain.2.clock = view.floor.get p + 1 := by
      have first := rested.clock_eq out isTracked.1
      rwa [show (st.world.node p).issueNewTrain.2.issuer = p.val from aligned.named p] at first
    have next : st.world.issueClock p = view.floor.get p + 1 := (st.world.issueClock_eq p).trans stamp
    refine Token.issued aligned.named ?_ ?_ (fun t' inside isKey same => ?_) fun x alive => ?_
    · rw [dead]
      exact (aligned.alive p).mp issuer.2
    · have room : view.floor.get p + 1 < u64Max := stamp ▸ isTracked.2
      have floor : satSucc (view.floor.get p) = view.floor.get p + 1 := satSucc_of_lt (by omega)
      rw [rested.issueClock issuer, floor, satSucc_of_lt room, next]
    · have clock' := rested.clock_eq inside isKey
      rw [same] at clock'
      rw [next]
      exact clock'.le
    · rw [reissueAll_seen, next, (aligned.installed x ((aligned.alive x).mpr (dead ▸ alive))).seen]
      exact Nat.lt_succ_self _
  · have clock := rested.clock_eq member isKey
    omega
  · exact absurd (st.started_reissueAll (rested.issuer.mp issuer)) waiting

end Rested

/-! ### From the reports to the first trains -/

/-- The boundary covers what a member has stamped. -/
theorem RingState.stamped_le {st : RingState cfg} (named : st.world.Named) {p : Fin cfg.ringSize}
    (member : p ∈ st.members) :
    (st.world.node p).nextIssueClock - 1 ≤ st.plan.boundary.get p := by
  have issued := Gathering.issued_le st.world.node member
  rwa [named p] at issued

/-- **The members of the next view are rested** when they have applied the plan, if no clock exceeded
`u64::MAX` and a train above the boundary bears that clock. -/
theorem Suspended.rested {st st' : RingState cfg} {entries : Fin cfg.ringSize → List Entry}
    (suspended : Suspended view base st entries) {next : View cfg} {log : List Payload}
    (aligned : Aligned next log st') (floor : next.floor = st.plan.boundary)
    (dead : st'.dead = st.dead) (emitted : st'.world.emitted = st.world.emitted)
    (clocks : ∀ p ∈ st.members, (st'.world.node p).nextIssueClock =
      (st.install.world.node p).nextIssueClock)
    (seen : ∀ p ∈ st.members, ∀ q, (st.world.node p).seenClock q ≤ u64Max)
    (stamps : ∀ p ∈ st.members, (st.world.node p).nextIssueClock ≤ u64Max + 1)
    (issues : ∀ p ∈ st.members, p.val < cfg.numTrains →
      (st.world.node p).nextIssueClock ≤ u64Max)
    (left : ∀ t ∈ st.world.emitted, t.issuer ∉ st.dead → st.plan.boundary.get t.issuer < t.clock →
      t.clock = u64Max ∧ u64Max ≤ st.plan.boundary.get t.issuer + 1) : Rested next log st' := by
  refine ⟨aligned, fun q => ?_, fun p issuer => ?_, fun t member isKey => ?_⟩
  · rw [floor]
    by_cases inside : q < cfg.ringSize
    · refine Gathering.boundary_le inside (fun p member => seen p member q) fun p member _ => ?_
      exact stamps p member
    · rw [Slots.get_outside _ (not_lt.mp inside)]
      exact Nat.zero_le _
  · have member : p ∈ st.members := mem_members.mpr (dead ▸ (aligned.alive p).mp issuer.2)
    have applied := st.install_applied member
    have known := stamped_le suspended.named member
    have bound := issues p member issuer.1
    rw [clocks p member, applied.nextIssueClock, RecoveryPlan.reissueClock, suspended.named p, floor]
    refine max_eq_right ?_
    unfold satSucc
    split_ifs <;> omega
  · obtain ⟨issuer, above⟩ := isKey
    rw [floor] at above ⊢
    exact left t (emitted ▸ member)
      (dead ▸ (aligned.alive ⟨t.issuer, issuer.inside⟩).mp issuer.2) above

end TrainsRing
