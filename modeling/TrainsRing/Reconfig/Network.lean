/-
**The ring with view changes** (`trains-core/tests/adversarial.rs`, `reconfigure`).

A view change is atomic: no train is received while it goes on.

* `RingState.exclude` — a member crashes; every survivor freezes delivery, confirms the crash and
  reports, applies the plan made of all the reports, and every surviving issuer reissues its train.
* `RingState.readmission` — an excluded process comes back as a new node with the exported state and the
  delivery log of a survivor; members and rejoiner report, apply one plan and count it as alive
  again. The rejoiner is a new incarnation, so `emitted` starts again with the trains in flight.
* `memberNetwork` — their runs; `excludeNetwork` — those without re-admissions.
* `World.each_of_mem`, `World.each_emitted` — what a round of actions does.
* `RingState.install_applied`, `RingState.readmitNodes_node` — the rounds of a view change at a member.
-/

import TrainsRing.Reconfig.Adopt
import TrainsRing.Ring.Network

namespace TrainsRing

variable {cfg : RingConfig}

/-! ### Some nodes act in turn -/

namespace World

/-- The nodes at some positions act, one after the other. -/
def each (w : World cfg) (members : List (Fin cfg.ringSize))
    (action : TrainsNode cfg → TrainsNode cfg × List Output) : World cfg :=
  members.foldl (fun w p => w.act p (action (w.node p))) w

variable {members : List (Fin cfg.ringSize)}
  (action : TrainsNode cfg → TrainsNode cfg × List Output)

/-- What every action of a round preserves, the round preserves. -/
theorem each_preserves {P : World cfg → Prop}
    (step : ∀ w p, p ∈ members → P w → P (w.act p (action (w.node p)))) {w : World cfg}
    (holds : P w) : P (w.each members action) := by
  induction members generalizing w with
  | nil => exact holds
  | cons p rest ih =>
    exact ih (fun w q later => step w q (List.mem_cons_of_mem _ later))
      (step w p List.mem_cons_self holds)

theorem each_node_of_not_mem (w : World cfg) {q : Fin cfg.ringSize} (outside : q ∉ members) :
    (w.each members action).node q = w.node q ∧ (w.each members action).log q = w.log q := by
  refine each_preserves action (P := fun w' => w'.node q = w.node q ∧ w'.log q = w.log q)
    (fun w' p member same => ?_) ⟨rfl, rfl⟩
  have other : q ≠ p := fun here => outside (here ▸ member)
  rw [w'.act_node_of_ne p _ other, w'.act_log_of_ne p _ other]
  exact same

/-- **A round at a member**: it acts once. -/
theorem each_of_mem (w : World cfg) (distinct : members.Nodup) {q : Fin cfg.ringSize}
    (member : q ∈ members) : (w.each members action).node q = (action (w.node q)).1 ∧
      (w.each members action).log q = w.log q ++ deliveries (action (w.node q)).2 := by
  induction members generalizing w with
  | nil => cases member
  | cons p rest ih =>
    obtain ⟨fresh, tail⟩ := List.nodup_cons.mp distinct
    rcases List.mem_cons.mp member with rfl | later
    · obtain ⟨node, log⟩ := each_node_of_not_mem action (w.act q (action (w.node q))) fresh
      rw [act_node_self] at node
      rw [act_log_self] at log
      exact ⟨node, log⟩
    · have other : q ≠ p := fun same => fresh (same ▸ later)
      have after := ih (w.act p (action (w.node p))) tail later
      rw [w.act_node_of_ne p _ other, w.act_log_of_ne p _ other] at after
      exact after

/-- The trains sent in a round. -/
theorem each_emitted (w : World cfg) (distinct : members.Nodup) :
    (w.each members action).emitted =
      w.emitted ++ members.flatMap fun p => forwards (action (w.node p)).2 := by
  induction members generalizing w with
  | nil => exact (List.append_nil _).symm
  | cons p rest ih =>
    obtain ⟨fresh, tail⟩ := List.nodup_cons.mp distinct
    have same : rest.flatMap (fun q => forwards (action ((w.act p (action (w.node p))).node q)).2) =
        rest.flatMap fun q => forwards (action (w.node q)).2 := by
      refine List.flatMap_congr fun q later => ?_
      rw [w.act_node_of_ne p _ fun here => fresh (here ▸ later)]
    have after := ih (w.act p (action (w.node p))) tail
    rw [same] at after
    exact after.trans (List.append_assoc ..)

/-- A round in which nobody sends anything. -/
theorem each_quiet (w : World cfg) (distinct : members.Nodup)
    (quiet : ∀ p ∈ members, forwards (action (w.node p)).2 = []) :
    (w.each members action).emitted = w.emitted := by
  have nothing : members.flatMap (fun p => forwards (action (w.node p)).2) = [] :=
    List.flatMap_eq_nil_iff.mpr quiet
  rw [each_emitted action w distinct, nothing, List.append_nil]

end World

/-! ### View changes -/

namespace RingState

/-- The processes in use. -/
def members (st : RingState cfg) : List (Fin cfg.ringSize) :=
  (List.finRange cfg.ringSize).filter fun p => p.val ∉ st.dead

/-- `set_frozen(true)` at every member. -/
def freeze (st : RingState cfg) : RingState cfg :=
  { st with world := st.world.each st.members fun node => (node.setFrozen true, []) }

/-- `confirm_crash(victim)` at every member. -/
def confirm (st : RingState cfg) (victim : Fin cfg.ringSize) : RingState cfg :=
  { st with world := st.world.each st.members fun node => node.confirmCrash victim.val }

/-- The plan made of the reports of all members. -/
def plan (st : RingState cfg) : RecoveryPlan cfg :=
  computeRecoveryPlan (reportsOf st.members st.world.node)

/-- `apply_recovery` at every member, all with one plan. -/
def install (st : RingState cfg) : RingState cfg :=
  { st with world := st.world.each st.members fun node => node.applyRecovery st.plan }

/-- Issuer `p` sends a new train at its clock. -/
def reissue (st : RingState cfg) (p : Fin cfg.ringSize) : RingState cfg :=
  { st with
    world := st.world.act p ((st.world.node p).reissueTrain.1,
      [.forwardTrain (st.world.node p).reissueTrain.2])
    started := insert p.val st.started
    inflight := st.inflight ++ [(p, (st.world.node p).reissueTrain.2)] }

/-- `reissue_train` at every member that is an issuer. -/
def reissueAll (st : RingState cfg) : RingState cfg :=
  (st.members.filter fun p => p.val < cfg.numTrains).foldl reissue st

/-- Process `victim` is out of use. The trains it has sent that nobody received are lost, unless they
are `late`. -/
def crash (st : RingState cfg) (late : Bool) (victim : Fin cfg.ringSize) : RingState cfg :=
  { st with
    dead := insert victim.val st.dead
    inflight := if late then st.inflight else st.inflight.filter fun entry => entry.1 ≠ victim }

/-- **The exclude sequence.** -/
def exclude (st : RingState cfg) (late : Bool) (victim : Fin cfg.ringSize) : RingState cfg :=
  (((st.crash late victim).freeze.confirm victim).install).reissueAll

/-- Process `rejoiner` starts as a new node and takes over the exported state and the delivery log of
`donor`. -/
def rejoin (st : RingState cfg) (rejoiner donor : Fin cfg.ringSize) : RingState cfg :=
  { st with
    world :=
      { st.world with
        node := Function.update st.world.node rejoiner
          (((World.initial cfg .totalOrder).node rejoiner).importState
            (st.world.node donor).exportState)
        log := Function.update st.world.log rejoiner (st.world.log donor)
        emitted := st.inflight.map Prod.snd }
    dead := st.dead.erase rejoiner.val }

/-- `readmit_node(rejoiner)` at every member. -/
def readmitNodes (st : RingState cfg) (rejoiner : Fin cfg.ringSize) : RingState cfg :=
  { st with world := st.world.each st.members fun node => (node.readmitNode rejoiner.val, []) }

/-- **The re-admission sequence.** -/
def readmission (st : RingState cfg) (rejoiner donor : Fin cfg.ringSize) : RingState cfg :=
  (((st.freeze.rejoin rejoiner donor).install).readmitNodes rejoiner).reissueAll

theorem mem_members {st : RingState cfg} {p : Fin cfg.ringSize} :
    p ∈ st.members ↔ p.val ∉ st.dead := by
  simp [members]

theorem nodup_members (st : RingState cfg) : st.members.Nodup :=
  (List.nodup_finRange _).filter _

/-- A member that has applied the plan. -/
theorem install_node (st : RingState cfg) {p : Fin cfg.ringSize} (member : p ∈ st.members) :
    st.install.world.node p = ((st.world.node p).applyRecovery st.plan).1 :=
  (st.world.each_of_mem (fun node => node.applyRecovery st.plan) st.nodup_members member).1

theorem install_applied (st : RingState cfg) {p : Fin cfg.ringSize} (member : p ∈ st.members) :
    (st.world.node p).Applied st.plan (st.install.world.node p) := by
  rw [st.install_node member]
  exact (st.world.node p).applyRecovery_applied st.plan

theorem install_named {st : RingState cfg} (named : st.world.Named) : st.install.world.Named :=
  World.each_preserves _ (fun w p _ named =>
    named.act ((w.node p).applyRecovery_applied st.plan).id) named

/-- A member that counts the rejoiner as alive again. -/
theorem readmitNodes_node (st : RingState cfg) (rejoiner : Fin cfg.ringSize)
    {p : Fin cfg.ringSize} (member : p ∈ st.members) :
    (st.readmitNodes rejoiner).world.node p = (st.world.node p).readmitNode rejoiner.val :=
  (World.each_of_mem _ _ st.nodup_members member).1

theorem readmitNodes_named {st : RingState cfg} (named : st.world.Named)
    (rejoiner : Fin cfg.ringSize) : (st.readmitNodes rejoiner).world.Named :=
  World.each_preserves _ (fun _ _ _ named => named.act rfl) named

end RingState

/-! ### Runs -/

/-- The steps of a ring whose membership changes. -/
inductive MemberAction (cfg : RingConfig) where
  | ring (action : RingAction cfg)
  | exclude (victim : Fin cfg.ringSize)
  | readmission (rejoiner donor : Fin cfg.ringSize)

namespace MemberAction

/-- A process in use may crash, and one out of use may rejoin with the state of one in use. -/
def Legal (st : RingState cfg) : MemberAction cfg → Prop
  | ring action => action.Legal st
  | exclude victim => victim.val ∉ st.dead
  | readmission rejoiner donor => rejoiner.val ∈ st.dead ∧ donor.val ∉ st.dead

instance (st : RingState cfg) (action : MemberAction cfg) : Decidable (action.Legal st) := by
  cases action <;> unfold Legal <;> infer_instance

/-- The state after a step. -/
def apply (late : Bool) (st : RingState cfg) : MemberAction cfg → RingState cfg
  | ring action => st.apply action
  | exclude victim => st.exclude late victim
  | readmission rejoiner donor => st.readmission rejoiner donor

/-- The step is no re-admission. -/
def Shrinks : MemberAction cfg → Prop
  | readmission _ _ => False
  | _ => True

instance : DecidablePred (@Shrinks cfg)
  | ring _ => isTrue trivial
  | exclude _ => isTrue trivial
  | readmission _ _ => isFalse not_false

end MemberAction

/-- The ring with excludes and re-admissions. With `late` trains, what a crashed process had sent may
still arrive. -/
def memberNetwork (cfg : RingConfig) (late : Bool) : Machine (RingState cfg) (MemberAction cfg) where
  start := fun st => st = RingState.initial cfg .totalOrder
  legal := fun st action => action.Legal st
  next := MemberAction.apply late

/-- The ring with excludes only. -/
def excludeNetwork (cfg : RingConfig) (late : Bool) : Machine (RingState cfg) (MemberAction cfg) :=
  (memberNetwork cfg late).restrict fun _ action => action.Shrinks

instance (cfg : RingConfig) (late : Bool) (st : RingState cfg) (action : MemberAction cfg) :
    Decidable ((memberNetwork cfg late).legal st action) :=
  inferInstanceAs (Decidable (action.Legal st))

instance (cfg : RingConfig) (late : Bool) (st : RingState cfg) (action : MemberAction cfg) :
    Decidable ((excludeNetwork cfg late).legal st action) :=
  inferInstanceAs (Decidable (action.Legal st ∧ action.Shrinks))

end TrainsRing
