/-
**The clocks of re-admitted issuers.**

A plan has each issuer reissue one clock above the boundary of its own slot. While a process is
excluded its slot stays where it is and the others' move on, so a re-admitted issuer may come back
with a clock far behind, and everyone waits for it at the delivery gate.

* `RingState.KeepsPace` — the clocks reissued at a re-admission differ by at most one, so no train
  waits for another issuer to recycle more than once.
* `RingState.Abreast` — no issuer in use is more than one clock away from the rejoiner's slot.
* `rejoiner_lags` — a run in which a re-admitted issuer lags.
* `Pacing.halted`, `Pacing.joined` — the members are ready to install a view (`Reporting`).
* `readmitted_keep_pace` — **with every issuer re-admitted abreast, the clocks keep pace at the next
  re-admission exactly when it is abreast too**.
-/

import TrainsRing.Reconfig.Pacing

namespace TrainsRing

variable {cfg : RingConfig} {view : View cfg} {st : RingState cfg}

open TrainsNode RingState

/-! ### Re-admissions abreast -/

namespace RingState

variable (st : RingState cfg) (rejoiner donor : Fin cfg.ringSize)

/-- The ring when the members and the rejoiner have installed the view. -/
def reinstalled : RingState cfg := ((st.joined rejoiner donor).install).readmitNodes rejoiner

/-- The trains reissued at a re-admission: those that are in flight only afterwards. -/
def reissued : List Train :=
  ((st.readmission rejoiner donor).inflight.drop st.inflight.length).map Prod.snd

/-- The clocks reissued differ by at most one, and a reissued train passes the clocks' gate once each
other issuer has recycled its own. -/
structure KeepsPace : Prop where
  near : ∀ t ∈ st.reissued rejoiner donor, ∀ t' ∈ st.reissued rejoiner donor,
    t.clock ≤ t'.clock + 1
  opens : ∀ t ∈ st.reissued rejoiner donor, ∀ node : TrainsNode cfg,
    (∀ q, q < cfg.numTrains → node.delivery.isCrashed q = true ∨
      ∃ t' ∈ st.reissued rejoiner donor, t'.issuer = q ∧ satSucc t'.clock ≤ node.seenClock q) →
    node.seenClocksAdvancedEnough t.key = true

/-- The next clock of every issuer in use differs by at most one from the clock at which the
rejoiner's slot goes on. -/
def Abreast : Prop :=
  ∀ i : Fin cfg.ringSize, i.val < cfg.numTrains → i.val ∉ st.dead →
    (st.world.node i).nextIssueClock ≤
        satSucc ((st.world.node donor).viewFloor.get rejoiner) + 1 ∧
      satSucc ((st.world.node donor).viewFloor.get rejoiner) ≤
        (st.world.node i).nextIssueClock + 1

instance : Decidable (st.Abreast rejoiner donor) := by
  unfold Abreast
  infer_instance

end RingState

/-- A re-admission of an issuer is abreast. -/
def MemberAction.Paced (st : RingState cfg) : MemberAction cfg → Prop
  | readmission rejoiner donor => rejoiner.val < cfg.numTrains → st.Abreast rejoiner donor
  | _ => True

instance (st : RingState cfg) : (action : MemberAction cfg) → Decidable (action.Paced st)
  | .readmission rejoiner donor =>
    inferInstanceAs (Decidable (rejoiner.val < cfg.numTrains → st.Abreast rejoiner donor))
  | .ring _ => isTrue trivial
  | .exclude _ => isTrue trivial

/-- The ring with excludes and with re-admissions abreast. -/
def pacedNetwork (cfg : RingConfig) : Machine (RingState cfg) (MemberAction cfg) :=
  (memberNetwork cfg false).restrict fun st action => action.Paced st

instance (cfg : RingConfig) (st : RingState cfg) (action : MemberAction cfg) :
    Decidable ((pacedNetwork cfg).legal st action) :=
  inferInstanceAs (Decidable (action.Legal st ∧ action.Paced st))

/-- Process 1 is excluded before it has issued, and process 0's train goes around. -/
def lagRun : List (MemberAction .triple) :=
  [.exclude 1] ++ List.replicate 8 (.ring (.hop 0))

def lagState : RingState .triple :=
  (memberNetwork .triple false).run (.initial .triple .totalOrder) lagRun

/-- Process 0 goes on at clock 4 and process 1 comes back at clock 1. -/
theorem lag_reachable : ∃ st : RingState .triple, (memberNetwork .triple false).Reachable st ∧
    (MemberAction.readmission 1 0).Legal st ∧ (st.reissued 1 0).map Train.clock = [4, 1] := by
  refine ⟨lagState, Machine.reachable_run rfl ?_, ?_, ?_⟩
  · decide +kernel
  · decide +kernel
  · decide +kernel

/-- A re-admitted issuer may lag behind. -/
theorem rejoiner_lags : ¬ ∀ (cfg : RingConfig) (st : RingState cfg)
    (rejoiner donor : Fin cfg.ringSize), (memberNetwork cfg false).Reachable st →
      (MemberAction.readmission rejoiner donor).Legal st → rejoiner.val < cfg.numTrains →
        st.KeepsPace rejoiner donor := by
  intro holds
  obtain ⟨st, reachable, legal, clocks⟩ := lag_reachable
  have paced := holds .triple st 1 0 reachable legal (by decide)
  have two : ∀ clock ∈ [4, 1], ∃ t ∈ st.reissued 1 0, t.clock = clock := fun clock member =>
    List.mem_map.mp (clocks ▸ member)
  obtain ⟨ahead, inside, four⟩ := two 4 (by decide)
  obtain ⟨behind, inside', one⟩ := two 1 (by decide)
  have near := paced.near ahead inside behind inside'
  omega

/-! ### The members report -/

namespace RingState

/-- **An issuer reissues at the clock it would have stamped next**: no other process has seen it. -/
theorem satSucc_boundary (named : st.world.Named) {q : Fin cfg.ringSize} (member : q ∈ st.members)
    (first : 1 ≤ (st.world.node q).nextIssueClock)
    (bound : (st.world.node q).nextIssueClock ≤ u64Max)
    (seen : ∀ p ∈ st.members, (st.world.node p).seenClock q ≤ u64Max ∧
      ((st.world.node p).seenClock q < (st.world.node q).nextIssueClock ∨
        (st.world.node q).nextIssueClock = u64Max)) :
    satSucc (st.plan.boundary.get q) = (st.world.node q).nextIssueClock := by
  have stamped := stamped_le named member
  have own : ∀ p ∈ st.members, (st.world.node p).id = q.val → p = q := fun p _ same =>
    Fin.ext ((named p).symm.trans same)
  rcases bound.lt_or_eq with room | full
  · have high : st.plan.boundary.get q ≤ (st.world.node q).nextIssueClock - 1 := by
      refine Gathering.boundary_le q.isLt (fun p inside => ?_) fun p inside same => ?_
      · have low := (seen p inside).2.resolve_right room.ne
        omega
      · rw [own p inside same]
        omega
    rw [satSucc_of_lt (by omega)]
    omega
  · have high : st.plan.boundary.get q ≤ u64Max := by
      refine Gathering.boundary_le q.isLt (fun p inside => (seen p inside).1) fun p inside same => ?_
      rw [own p inside same]
      omega
    have top := satSucc_le_max high
    unfold satSucc at top ⊢
    split_ifs at top ⊢ <;> omega

end RingState

/-- The members of the next view are about to report. -/
structure Reporting (next : View cfg) (st : RingState cfg) : Prop where
  named : st.world.Named
  alive : ∀ p : Fin cfg.ringSize, next.Alive p ↔ p.val ∉ st.dead
  floor : next.floor = st.plan.boundary
  bounded : ∀ q, q < cfg.numTrains → next.floor.get q ≤ u64Max
  low : ∀ p ∈ st.members, ∀ q, (st.world.node p).viewFloor.get q ≤ (st.world.node p).seenClock q
  known : ∀ p ∈ st.members, ∀ key, (st.world.node p).Settled key →
    key.clock ≤ (st.world.node p).seenClock key.issuer
  clock : ∀ q, next.Issuer q → st.world.issueClock q = satSucc (next.floor.get q)
  aloft : ∀ e ∈ st.inflight, Aloft next st e

/-- **The members rest** when they have applied the plan and agree on who has crashed. -/
theorem Reporting.resting {next : View cfg} (reporting : Reporting next st) {st' : RingState cfg}
    (named : st'.world.Named) (dead : st'.dead = st.dead) (inflight : st'.inflight = st.inflight)
    (nodes : ∀ p ∈ st.members, st'.world.node p =
      { st.install.world.node p with
        delivery := { (st.install.world.node p).delivery with crashedBits := next.crashed } }) :
    Resting next st' := by
  have member : ∀ p : Fin cfg.ringSize, next.Alive p → p ∈ st.members := fun p live =>
    mem_members.mpr ((reporting.alive p).mp live)
  have caught : ∀ p ∈ st.members,
      (∀ q, (st'.world.node p).seenClock q = next.floor.get q) ∧
        ∀ key, (st'.world.node p).Settled key → key.clock ≤ next.floor.get key.issuer := by
    intro p inside
    rw [nodes p inside, st.install_node inside, reporting.floor]
    exact applyRecovery_catches inside (reporting.known p inside)
  have clock : ∀ q, next.Issuer q → st'.world.issueClock q = satSucc (next.floor.get q) := by
    intro q issuer
    have inside := member ⟨q, issuer.inside⟩ issuer.2
    have before := reporting.clock q issuer
    rw [show st.world.issueClock q = _ from st.world.issueClock_eq ⟨q, issuer.inside⟩] at before
    rw [show st'.world.issueClock q = _ from st'.world.issueClock_eq ⟨q, issuer.inside⟩,
      nodes _ inside]
    show (st.install.world.node _).nextIssueClock = _
    rw [(st.install_applied inside).nextIssueClock, before, RecoveryPlan.reissueClock, reporting.named,
      ← reporting.floor, max_self]
  refine ⟨named, fun p => dead.symm ▸ reporting.alive p, reporting.bounded, fun p live => ?_,
    fun p live => (caught p (member p live)).1, clock, fun e flying => ?_⟩
  · have inside := member p live
    obtain ⟨seen, settled⟩ := caught p inside
    refine Gated.of_floor ?_ ?_ seen settled
    · rw [nodes p inside]
    · rw [nodes p inside]
      show (st.install.world.node p).viewFloor = _
      rw [(st.install_applied inside).viewFloor, reporting.floor]
      refine Slots.ext_get fun q slot => ?_
      rw [Slots.get_ofFn _ slot]
      exact max_eq_right ((reporting.low p inside q).trans (Gathering.seen_le _ inside q))
  · obtain ⟨sender, issues, alive, last, known⟩ := reporting.aloft e (inflight ▸ flying)
    refine ⟨dead.symm ▸ sender, issues, alive, fun fresh => ?_, fun fresh => ?_⟩
    · have issuer : next.Issuer e.2.issuer := ⟨issues, alive fresh⟩
      exact (last fresh).trans ((reporting.clock _ issuer).trans (clock _ issuer).symm)
    · have inside : e.1 ∈ st.members := mem_members.mpr sender
      refine (known fresh).imp_right fun low => low.trans ?_
      rw [(caught e.1 inside).1, reporting.floor]
      exact Gathering.seen_le _ inside _

namespace Pacing

variable (pacing : Pacing view st)

include pacing

theorem seen_le_max {p : Fin cfg.ringSize} (alive : view.Alive p) {q : Nat}
    (issues : q < cfg.numTrains) : (st.world.node p).seenClock q ≤ u64Max := by
  by_cases live : view.Alive q
  · exact (pacing.seen p alive q ⟨issues, live⟩).1
  · exact (pacing.idle p alive q issues live).trans (pacing.bounded q issues)

/-- The slot of an issuer out of use has stayed at the floor. -/
theorem seen_idle {p : Fin cfg.ringSize} (alive : view.Alive p) {q : Nat}
    (issues : q < cfg.numTrains) (gone : ¬ view.Alive q) :
    (st.world.node p).seenClock q = view.floor.get q :=
  le_antisymm (pacing.idle p alive q issues gone) ((pacing.gated p alive).above q)

/-- **The survivors are ready to install the next view.** -/
theorem halted (victim : Fin cfg.ringSize) :
    Reporting (view.without victim (st.halted false victim).plan.boundary)
      (st.halted false victim) := by
  have live : ∀ p ∈ (st.halted false victim).members, view.Alive p := fun p member =>
    (pacing.alive p).mpr (mem_halted.mp member).1
  have frozen : ∀ p ∈ (st.halted false victim).members, (st.halted false victim).world.node p =
      ((st.world.node p).setFrozen true).markCrashed victim := fun p member => (halted_member member).1
  have named := halted_named pacing.named false victim
  have seen : ∀ p ∈ (st.halted false victim).members, ∀ q,
      (st.world.node p).seenClock q ≤ (st.halted false victim).plan.boundary.get q := by
    intro p member q
    have known := Gathering.seen_le (st.halted false victim).world.node member q
    rwa [frozen p member] at known
  have alive : ∀ p : Fin cfg.ringSize,
      (view.without victim (st.halted false victim).plan.boundary).Alive p ↔
        p ∈ (st.halted false victim).members := fun p => by
    rw [View.alive_without p.isLt, pacing.alive, mem_halted, Ne, Ne, Fin.ext_iff]
  have clock : ∀ p ∈ (st.halted false victim).members, (st.halted false victim).world.issueClock p =
      st.world.issueClock p := fun p member => by
    rw [World.issueClock_eq, frozen p member, World.issueClock_eq]
    rfl
  have next : ∀ p ∈ (st.halted false victim).members, p.val < cfg.numTrains →
      satSucc ((st.halted false victim).plan.boundary.get p) = st.world.issueClock p := by
    intro p member issues
    have issuer : view.Issuer p := ⟨issues, live p member⟩
    have bounds := pacing.bounds p issuer
    have same := clock p member
    rw [World.issueClock_eq] at same
    rw [← same] at bounds ⊢
    refine satSucc_boundary named member bounds.1 bounds.2 fun x inside => ?_
    rw [same, frozen x inside]
    exact pacing.seen x (live x inside) p issuer
  refine ⟨named, fun p => (alive p).trans mem_members, rfl, fun q issues => ?_, fun p member q => ?_,
    fun p member key settled => ?_, fun q issuer => ?_, fun e flying => ?_⟩
  · refine Gathering.boundary_le (lt_of_lt_of_le issues cfg.trains_le) (fun p member => ?_)
      fun p member own => ?_
    · rw [frozen p member]
      exact pacing.seen_le_max (live p member) issues
    · have same := clock p member
      rw [World.issueClock_eq] at same
      rw [same]
      have issuer : view.Issuer p := ⟨((named p).symm.trans own).trans_lt issues, live p member⟩
      exact (pacing.bounds p issuer).2.trans (Nat.le_succ _)
  · rw [frozen p member]
    have gated := pacing.gated p (live p member)
    exact (congrArg (·.get q) gated.floor).trans_le (gated.above q)
  · rw [frozen p member] at settled ⊢
    exact (pacing.gated p (live p member)).known key settled
  · have member := (alive ⟨q, issuer.inside⟩).mp issuer.2
    exact (clock _ member).trans (next _ member issuer.1).symm
  · have old := List.mem_filter.mp (show e ∈ st.inflight.filter fun entry => entry.1 ≠ victim from flying)
    have other : e.1 ≠ victim := by simpa using old.2
    obtain ⟨sender, issues, wasAlive, last, known⟩ := pacing.aloft e old.1
    have member : e.1 ∈ (st.halted false victim).members := mem_halted.mpr ⟨sender, other⟩
    have above : (st.halted false victim).plan.boundary.get e.2.issuer < e.2.clock →
        view.floor.get e.2.issuer < e.2.clock := fun fresh =>
      lt_of_le_of_lt (((pacing.gated e.1 (live _ member)).above _).trans (seen _ member _)) fresh
    have inside : e.2.issuer < cfg.ringSize := lt_of_lt_of_le issues cfg.trains_le
    -- a train of the victim was seen by its sender, so it is not above the boundary
    have survives : (st.halted false victim).plan.boundary.get e.2.issuer < e.2.clock →
        (⟨e.2.issuer, inside⟩ : Fin cfg.ringSize) ∈ (st.halted false victim).members := by
      intro fresh
      refine mem_halted.mpr ⟨(pacing.alive ⟨_, inside⟩).mp (wasAlive (above fresh)), fun same => ?_⟩
      have home : e.2.issuer = victim.val := congrArg Fin.val same
      rcases known (above fresh) with own | low
      · exact other (Fin.ext (own.symm.trans home))
      · exact absurd (low.trans (seen _ member _)) (not_le.mpr fresh)
    refine ⟨mem_members.mp member, issues, fun fresh => (alive ⟨_, inside⟩).mpr (survives fresh),
      fun fresh => ?_, fun fresh => ?_⟩
    · exact (last (above fresh)).trans (clock _ (survives fresh)).symm
    · rw [frozen e.1 member]
      exact known (above fresh)

/-- The clock of a rejoiner that issues: one above its slot. -/
theorem restarted_clock {rejoiner donor : Fin cfg.ringSize} (donorInUse : donor.val ∉ st.dead)
    (issues : rejoiner.val < cfg.numTrains) (gone : ¬ view.Alive rejoiner) :
    (st.restarted rejoiner donor).nextIssueClock = satSucc (view.floor.get rejoiner) := by
  have donorAlive : view.Alive donor := (pacing.alive donor).mpr donorInUse
  show satSucc (max ((Slots.ofFn cfg (st.world.node donor).seenClock).get rejoiner)
    ((st.world.node donor).viewFloor.get rejoiner)) = _
  rw [Slots.get_ofFn _ rejoiner.isLt, pacing.seen_idle donorAlive issues gone,
    (pacing.gated donor donorAlive).floor, max_self]

/-- **Members and rejoiner are ready to install the next view.** -/
theorem joined {rejoiner donor : Fin cfg.ringSize} (dead : rejoiner.val ∈ st.dead)
    (donorInUse : donor.val ∉ st.dead) :
    Reporting (view.including rejoiner (st.joined rejoiner donor).plan.boundary)
      (st.joined rejoiner donor) := by
  have gone : ¬ view.Alive rejoiner := fun live => (pacing.alive rejoiner).mp live dead
  have donorAlive : view.Alive donor := (pacing.alive donor).mpr donorInUse
  have named := joined_named pacing.named rejoiner donor
  have old : ∀ p : Fin cfg.ringSize, p.val ∉ st.dead →
      (st.joined rejoiner donor).world.node p = (st.world.node p).setFrozen true := fun p inUse =>
    (joined_member inUse dead).1
  have restart : (st.joined rejoiner donor).world.node rejoiner = st.restarted rejoiner donor :=
    (joined_rejoiner donorInUse).1
  -- every reporter has seen what some member of the view has seen
  have source : ∀ p ∈ (st.joined rejoiner donor).members, ∃ x : Fin cfg.ringSize, view.Alive x ∧
      ((st.joined rejoiner donor).world.node p).seenClock = (st.world.node x).seenClock := by
    intro p member
    rcases mem_joined.mp member with rfl | inUse
    · exact ⟨donor, donorAlive, by rw [restart, seenClock_restarted]⟩
    · exact ⟨p, (pacing.alive p).mpr inUse, by rw [old p inUse]; rfl⟩
  have alive : ∀ p : Fin cfg.ringSize,
      (view.including rejoiner (st.joined rejoiner donor).plan.boundary).Alive p ↔
        p ∈ (st.joined rejoiner donor).members := fun p => by
    rw [View.alive_including p.isLt, pacing.alive, mem_joined, Fin.ext_iff]
    exact or_comm
  have clock : ∀ p : Fin cfg.ringSize, p.val ∉ st.dead →
      (st.joined rejoiner donor).world.issueClock p = st.world.issueClock p := fun p inUse => by
    rw [World.issueClock_eq, old p inUse, World.issueClock_eq]
    rfl
  -- what bounds the clock of an issuer, and who has seen it
  have bounds : ∀ p ∈ (st.joined rejoiner donor).members, p.val < cfg.numTrains →
      1 ≤ ((st.joined rejoiner donor).world.node p).nextIssueClock ∧
        ((st.joined rejoiner donor).world.node p).nextIssueClock ≤ u64Max ∧
        ∀ x : Fin cfg.ringSize, view.Alive x → (st.world.node x).seenClock p ≤ u64Max ∧
          ((st.world.node x).seenClock p <
              ((st.joined rejoiner donor).world.node p).nextIssueClock ∨
            ((st.joined rejoiner donor).world.node p).nextIssueClock = u64Max) := by
    intro p member issues
    rcases mem_joined.mp member with rfl | inUse
    · have bound := pacing.bounded p issues
      have room : 1 ≤ u64Max := by decide
      rw [restart, pacing.restarted_clock donorInUse issues gone]
      refine ⟨?_, satSucc_le_max bound, fun x live => ?_⟩
      · unfold satSucc
        split_ifs <;> omega
      · rw [pacing.seen_idle live issues gone]
        refine ⟨bound, ?_⟩
        unfold satSucc
        split_ifs <;> omega
    · have issuer : view.Issuer p := ⟨issues, (pacing.alive p).mpr inUse⟩
      have same := clock p inUse
      rw [World.issueClock_eq] at same
      rw [same]
      obtain ⟨first, bound⟩ := pacing.bounds p issuer
      exact ⟨first, bound, fun x live => pacing.seen x live p issuer⟩
  refine ⟨named, fun p => (alive p).trans mem_members, rfl, fun q issues => ?_, fun p member q => ?_,
    fun p member key settled => ?_, fun q issuer => ?_, fun e flying => ?_⟩
  · refine Gathering.boundary_le (lt_of_lt_of_le issues cfg.trains_le) (fun p member => ?_)
      fun p member own => ?_
    · obtain ⟨x, live, seen⟩ := source p member
      rw [seen]
      exact pacing.seen_le_max live issues
    · have slot : p.val = q := (named p).symm.trans own
      exact (bounds p member (slot.trans_lt issues)).2.1.trans (Nat.le_succ _)
  · rcases mem_joined.mp member with rfl | inUse
    · have gated := pacing.gated donor donorAlive
      rw [restart, seenClock_restarted]
      exact (congrArg (·.get q) gated.floor).trans_le (gated.above q)
    · have gated := pacing.gated p ((pacing.alive p).mpr inUse)
      rw [old p inUse]
      exact (congrArg (·.get q) gated.floor).trans_le (gated.above q)
  · rcases mem_joined.mp member with rfl | inUse
    · rw [restart] at settled ⊢
      rw [seenClock_restarted]
      rcases settled with done | ⟨train, found⟩
      · exact (pacing.gated donor donorAlive).known key (Or.inl done)
      · cases found
    · rw [old p inUse] at settled ⊢
      exact (pacing.gated p ((pacing.alive p).mpr inUse)).known key settled
  · have member := (alive ⟨q, issuer.inside⟩).mp issuer.2
    obtain ⟨first, bound, seen⟩ := bounds _ member issuer.1
    rw [show (st.joined rejoiner donor).world.issueClock q = _ from
      (st.joined rejoiner donor).world.issueClock_eq ⟨q, issuer.inside⟩]
    refine (satSucc_boundary named member first bound fun p inside => ?_).symm
    obtain ⟨x, live, same⟩ := source p inside
    rw [same]
    exact seen x live
  · obtain ⟨sender, issues, wasAlive, last, known⟩ := pacing.aloft e flying
    have inside : e.2.issuer < cfg.ringSize := lt_of_lt_of_le issues cfg.trains_le
    have member : e.1 ∈ (st.joined rejoiner donor).members := mem_joined.mpr (Or.inr sender)
    have above : (st.joined rejoiner donor).plan.boundary.get e.2.issuer < e.2.clock →
        view.floor.get e.2.issuer < e.2.clock := by
      refine lt_of_le_of_lt ?_
      have seen := Gathering.seen_le (st.joined rejoiner donor).world.node member e.2.issuer
      rw [old e.1 sender] at seen
      exact ((pacing.gated e.1 ((pacing.alive e.1).mpr sender)).above _).trans seen
    have inUse : (st.joined rejoiner donor).plan.boundary.get e.2.issuer < e.2.clock →
        e.2.issuer ∉ st.dead := fun fresh =>
      (pacing.alive ⟨_, inside⟩).mp (wasAlive (above fresh))
    refine ⟨mem_members.mp member, issues, fun fresh => ?_, fun fresh => ?_, fun fresh => ?_⟩
    · exact (View.alive_including inside).mpr (Or.inl (wasAlive (above fresh)))
    · exact (last (above fresh)).trans (clock ⟨_, inside⟩ (inUse fresh)).symm
    · rw [old e.1 sender]
      exact known (above fresh)

/-! ### The next view -/

/-- **An exclude sequence starts the next view in pace.** -/
theorem exclude (victim : Fin cfg.ringSize) :
    Pacing (view.without victim (st.halted false victim).plan.boundary)
      (st.exclude false victim) := by
  have reporting := pacing.halted victim
  have live : ∀ p ∈ (st.halted false victim).members, view.Alive p := fun p member =>
    (pacing.alive p).mpr (mem_halted.mp member).1
  have bits : ∀ p ∈ (st.halted false victim).members,
      ((st.halted false victim).install.world.node p).delivery.crashedBits =
        (view.without victim (st.halted false victim).plan.boundary).crashed := fun p member => by
    rw [(install_applied _ member).crashedBits, (halted_member member).1]
    exact congrArg (· ||| (1#32 <<< victim.val)) (pacing.gated p (live p member)).crashed
  have resting := reporting.resting (install_named reporting.named) rfl rfl fun p member => by
    rw [← bits p member]
  refine resting.reissueAll fun q i left right => ?_
  have clock : ∀ q, (view.without victim (st.halted false victim).plan.boundary).Issuer q →
      view.Issuer q ∧ satSucc ((view.without victim (st.halted false victim).plan.boundary).floor.get q) =
        st.world.issueClock q := by
    intro q issuer
    have member : (⟨q, issuer.inside⟩ : Fin cfg.ringSize) ∈ (st.halted false victim).members :=
      mem_members.mpr ((reporting.alive ⟨q, issuer.inside⟩).mp issuer.2)
    refine ⟨⟨issuer.1, live _ member⟩, (reporting.clock q issuer).symm.trans ?_⟩
    rw [show (st.halted false victim).world.issueClock q = _ from
      (st.halted false victim).world.issueClock_eq ⟨q, issuer.inside⟩, (halted_member member).1]
    exact (st.world.issueClock_eq ⟨q, issuer.inside⟩).symm
  obtain ⟨wasLeft, left⟩ := clock q left
  obtain ⟨wasRight, right⟩ := clock i right
  rw [left, right]
  exact pacing.even q i wasLeft wasRight

section Readmission

variable {rejoiner donor : Fin cfg.ringSize}

/-- Members and rejoiner rest when they have installed the view. -/
theorem reinstalled (dead : rejoiner.val ∈ st.dead) (donorInUse : donor.val ∉ st.dead) :
    Resting (view.including rejoiner (st.joined rejoiner donor).plan.boundary)
      (st.reinstalled rejoiner donor) := by
  have reporting := pacing.joined dead donorInUse
  have bits : ∀ p ∈ (st.joined rejoiner donor).members,
      ((st.joined rejoiner donor).install.world.node p).delivery.crashedBits = view.crashed := by
    intro p member
    rw [(install_applied _ member).crashedBits]
    rcases mem_joined.mp member with rfl | inUse
    · rw [(joined_rejoiner donorInUse).1]
      exact (pacing.gated donor ((pacing.alive donor).mpr donorInUse)).crashed
    · rw [(joined_member inUse dead).1]
      exact (pacing.gated p ((pacing.alive p).mpr inUse)).crashed
  refine reporting.resting (readmitNodes_named (install_named reporting.named) rejoiner) rfl rfl
    fun p member => ?_
  rw [show (st.reinstalled rejoiner donor).world.node p =
      ((st.joined rejoiner donor).install.world.node p).readmitNode rejoiner from
    readmitNodes_node _ rejoiner (show p ∈ (st.joined rejoiner donor).install.members from member),
    readmitNode, DeliveryState.unmarkCrashed, bits p member]
  rfl

/-- The clock at which an issuer goes on after a re-admission. -/
theorem resumed (dead : rejoiner.val ∈ st.dead) (donorInUse : donor.val ∉ st.dead) {q : Nat}
    (issuer : (view.including rejoiner (st.joined rejoiner donor).plan.boundary).Issuer q) :
    q ≠ rejoiner.val ∧ view.Issuer q ∧
        satSucc ((st.joined rejoiner donor).plan.boundary.get q) = st.world.issueClock q ∨
      q = rejoiner.val ∧ satSucc ((st.joined rejoiner donor).plan.boundary.get q) =
        satSucc (view.floor.get rejoiner) := by
  have reporting := pacing.joined dead donorInUse
  have donorAlive : view.Alive donor := (pacing.alive donor).mpr donorInUse
  have gone : ¬ view.Alive rejoiner := fun live => (pacing.alive rejoiner).mp live dead
  have clock := (reporting.clock q issuer).symm
  rw [show (st.joined rejoiner donor).world.issueClock q = _ from
    (st.joined rejoiner donor).world.issueClock_eq ⟨q, issuer.inside⟩] at clock
  rcases (View.alive_including issuer.inside).mp issuer.2 with live | rfl
  · have inUse := (pacing.alive ⟨q, issuer.inside⟩).mp live
    refine Or.inl ⟨fun same => gone (same ▸ live), ⟨issuer.1, live⟩, clock.trans ?_⟩
    rw [(joined_member inUse dead).1]
    exact (st.world.issueClock_eq ⟨q, issuer.inside⟩).symm
  · refine Or.inr ⟨rfl, clock.trans ?_⟩
    rw [(joined_rejoiner donorInUse).1]
    exact pacing.restarted_clock donorInUse issuer.1 gone

/-- **The clocks of the next view are even exactly when the rejoiner, if it issues, is abreast.** -/
theorem even_iff (dead : rejoiner.val ∈ st.dead) (donorInUse : donor.val ∉ st.dead) :
    (view.including rejoiner (st.joined rejoiner donor).plan.boundary).Even ↔
      (rejoiner.val < cfg.numTrains → st.Abreast rejoiner donor) := by
  have donorAlive : view.Alive donor := (pacing.alive donor).mpr donorInUse
  have floor := (pacing.gated donor donorAlive).floor
  have resumed := fun {q : Nat} => pacing.resumed (q := q) dead donorInUse
  constructor
  · intro even issues i issuesToo inUse
    have back : (view.including rejoiner (st.joined rejoiner donor).plan.boundary).Issuer rejoiner :=
      ⟨issues, (View.alive_including rejoiner.isLt).mpr (Or.inr rfl)⟩
    have stays : (view.including rejoiner (st.joined rejoiner donor).plan.boundary).Issuer i :=
      ⟨issuesToo, (View.alive_including i.isLt).mpr (Or.inl ((pacing.alive i).mpr inUse))⟩
    have other : i.val ≠ rejoiner.val := fun same => inUse (same ▸ dead)
    have slot : satSucc ((st.joined rejoiner donor).plan.boundary.get rejoiner) =
        satSucc (view.floor.get rejoiner) :=
      ((resumed back).resolve_left fun elsewhere => elsewhere.1 rfl).2
    have next : satSucc ((st.joined rejoiner donor).plan.boundary.get i) = st.world.issueClock i :=
      ((resumed stays).resolve_right fun here => other here.1).2.2
    rw [floor, ← slot, ← st.world.issueClock_eq, ← next]
    exact ⟨even i rejoiner stays back, even rejoiner i back stays⟩
  · intro abreast q i left right
    show satSucc ((st.joined rejoiner donor).plan.boundary.get q) ≤
      satSucc ((st.joined rejoiner donor).plan.boundary.get i) + 1
    have near : ∀ x, view.Issuer x → rejoiner.val < cfg.numTrains →
        st.world.issueClock x ≤ satSucc (view.floor.get rejoiner) + 1 ∧
          satSucc (view.floor.get rejoiner) ≤ st.world.issueClock x + 1 := by
      intro x issuer issues
      have both := abreast issues ⟨x, issuer.inside⟩ issuer.1 ((pacing.alive _).mp issuer.2)
      rw [floor, ← st.world.issueClock_eq] at both
      exact both
    rcases resumed left with ⟨-, wasLeft, leftEq⟩ | ⟨here, leftEq⟩
    · rcases resumed right with ⟨-, wasRight, rightEq⟩ | ⟨here, rightEq⟩
      · rw [leftEq, rightEq]
        exact pacing.even q i wasLeft wasRight
      · rw [leftEq, rightEq]
        exact (near q wasLeft (here ▸ right.1)).1
    · rcases resumed right with ⟨-, wasRight, rightEq⟩ | ⟨here', rightEq⟩
      · rw [leftEq, rightEq]
        exact (near i wasRight (here ▸ left.1)).2
      · rw [leftEq, rightEq]
        exact Nat.le_succ _

/-- **A re-admission abreast starts the next view in pace.** -/
theorem readmission (dead : rejoiner.val ∈ st.dead) (donorInUse : donor.val ∉ st.dead)
    (abreast : rejoiner.val < cfg.numTrains → st.Abreast rejoiner donor) :
    Pacing (view.including rejoiner (st.joined rejoiner donor).plan.boundary)
      (st.readmission rejoiner donor) :=
  (pacing.reinstalled dead donorInUse).reissueAll ((pacing.even_iff dead donorInUse).mpr abreast)

/-- The trains reissued: one of each issuer, at the clock where it goes on. -/
theorem mem_reissued (dead : rejoiner.val ∈ st.dead) (donorInUse : donor.val ∉ st.dead) :
    (∀ t ∈ st.reissued rejoiner donor,
      (view.including rejoiner (st.joined rejoiner donor).plan.boundary).Issuer t.issuer ∧
        t.clock = satSucc ((st.joined rejoiner donor).plan.boundary.get t.issuer)) ∧
    ∀ q, (view.including rejoiner (st.joined rejoiner donor).plan.boundary).Issuer q →
      ∃ t ∈ st.reissued rejoiner donor, t.issuer = q := by
  have resting := pacing.reinstalled dead donorInUse
  have shape : st.reissued rejoiner donor = (st.reinstalled rejoiner donor).issuers.map fun p =>
      ((st.reinstalled rejoiner donor).world.node p).issueNewTrain.2 := by
    unfold reissued
    rw [show (st.readmission rejoiner donor).inflight = st.inflight ++ _ from
      reissueAll_inflight (st.reinstalled rejoiner donor), List.drop_left, List.map_map]
    rfl
  rw [shape]
  refine ⟨fun t member => ?_, fun q issuer => ?_⟩
  · obtain ⟨p, inside, rfl⟩ := List.mem_map.mp member
    obtain ⟨inUse, issues⟩ := mem_issuers.mp inside
    have issuer : (view.including rejoiner (st.joined rejoiner donor).plan.boundary).Issuer p :=
      ⟨issues, (resting.alive p).mpr inUse⟩
    have id : ((st.reinstalled rejoiner donor).world.node p).issueNewTrain.2.issuer = p.val :=
      resting.named p
    have clock := resting.clock p issuer
    rw [World.issueClock_eq] at clock
    rw [id]
    exact ⟨issuer, clock⟩
  · have inUse := (resting.alive ⟨q, issuer.inside⟩).mp issuer.2
    exact ⟨_, List.mem_map_of_mem (mem_issuers.mpr ⟨inUse, issuer.1⟩), resting.named ⟨q, issuer.inside⟩⟩

/-- **The clocks keep pace exactly when those of the next view are even.** -/
theorem keepsPace_iff (dead : rejoiner.val ∈ st.dead) (donorInUse : donor.val ∉ st.dead) :
    st.KeepsPace rejoiner donor ↔
      (view.including rejoiner (st.joined rejoiner donor).plan.boundary).Even := by
  obtain ⟨sound, complete⟩ := pacing.mem_reissued dead donorInUse
  have bounded := (pacing.reinstalled dead donorInUse).bounded
  constructor
  · intro paced q i left right
    obtain ⟨t, member, rfl⟩ := complete q left
    obtain ⟨t', member', rfl⟩ := complete i right
    have near := paced.near t member t' member'
    rw [(sound t member).2, (sound t' member').2] at near
    exact near
  · intro even
    have near : ∀ t ∈ st.reissued rejoiner donor, ∀ t' ∈ st.reissued rejoiner donor,
        t.clock ≤ t'.clock + 1 := by
      intro t member t' member'
      rw [(sound t member).2, (sound t' member').2]
      exact even _ _ (sound t member).1 (sound t' member').1
    refine ⟨near, fun t member node recycled => (gate_iff node t.key).mpr fun q issues => ?_⟩
    refine (recycled q issues).imp_right fun ⟨t', member', _, seen⟩ => ?_
    have top : t.clock ≤ u64Max := by
      rw [(sound t member).2]
      exact satSucc_le_max (bounded _ (sound t member).1.1)
    have close := near t member t' member'
    refine le_trans ?_ seen
    show t.clock ≤ satSucc t'.clock
    unfold satSucc
    split_ifs <;> omega

end Readmission

end Pacing

/-! ### Runs -/

/-- **Within a run whose re-admissions are abreast, issuers keep pace.** -/
theorem exists_pacing (reachable : (pacedNetwork cfg).Reachable st) : ∃ view, Pacing view st := by
  refine Machine.invariant (m := pacedNetwork cfg) (P := fun st => ∃ view, Pacing view st)
    (fun _ first => first ▸ ⟨_, Pacing.initial cfg⟩) (fun st action ⟨view, pacing⟩ allowed => ?_)
    reachable
  obtain ⟨legal, paced⟩ := allowed
  cases action with
  | ring action => exact ⟨view, pacing.ring legal⟩
  | exclude victim => exact ⟨_, pacing.exclude victim⟩
  | readmission rejoiner donor => exact ⟨_, pacing.readmission legal.1 legal.2 paced⟩

/-- **Re-admitted issuers keep pace**: in a run in which every issuer was re-admitted abreast, the
clocks reissued at the next re-admission of an issuer keep pace exactly when it is abreast too. -/
theorem readmitted_keep_pace (reachable : (pacedNetwork cfg).Reachable st)
    {rejoiner donor : Fin cfg.ringSize}
    (legal : (MemberAction.readmission rejoiner donor).Legal st)
    (issues : rejoiner.val < cfg.numTrains) :
    st.KeepsPace rejoiner donor ↔ st.Abreast rejoiner donor := by
  obtain ⟨view, pacing⟩ := exists_pacing reachable
  rw [pacing.keepsPace_iff legal.1 legal.2, pacing.even_iff legal.1 legal.2]
  exact ⟨fun abreast => abreast issues, fun abreast _ => abreast⟩

/-- Process 1 is excluded and comes back, then process 0 is excluded. -/
theorem readmitted_keep_pace_triple : ∃ st : RingState .triple,
    (pacedNetwork .triple).Reachable st ∧ st.KeepsPace 0 1 := by
  obtain ⟨st, reachable, legal, abreast⟩ : ∃ st : RingState .triple,
      (pacedNetwork .triple).Reachable st ∧ (MemberAction.readmission 0 1).Legal st ∧
        st.Abreast 0 1 :=
    ⟨(pacedNetwork .triple).run (.initial .triple .totalOrder)
        [.exclude 1, .readmission 1 0, .exclude 0],
      Machine.reachable_run rfl (by decide +kernel), by decide +kernel, by decide +kernel⟩
  exact ⟨st, reachable, (readmitted_keep_pace reachable legal (by decide)).mpr abreast⟩

end TrainsRing
