/-
**Late trains of a victim.**

What a victim had sent before it crashed may arrive when the survivors have installed the next view.
The view floor fences the trains that some survivor had seen when it reported. A train above the
floor is let in, and nobody waits for it: the delivery gate skips its issuer.

* `lateNetwork` — crashes whose victims' trains may arrive late, on FIFO links.
* `late_train_splits` — a run in which two survivors deliver a late train and another one in different
  orders.
* `Fenced` — the step receives no train of a process out of use above the receiver's floor.
* `late_trains_fenced` — **a run of fenced steps keeps the survivors in agreement.**
-/

import TrainsRing.Reconfig.Laps
import TrainsRing.Ring.SenderOrder

namespace TrainsRing

variable {cfg : RingConfig}

open RingState

namespace MemberAction

/-- A link hands over its trains in the order they were sent in. -/
def Fifo (st : RingState cfg) : MemberAction cfg → Prop
  | ring action => action.Fifo st
  | _ => True

instance (st : RingState cfg) : (action : MemberAction cfg) → Decidable (action.Fifo st)
  | ring action => inferInstanceAs (Decidable (action.Fifo st))
  | exclude _ => isTrue trivial
  | readmission _ _ => isTrue trivial

/-- No train of a process out of use is received above the receiver's view floor. -/
def Fenced (st : RingState cfg) : MemberAction cfg → Prop
  | ring (.hop i) => ∀ e ∈ st.inflight[i]?, e.2.issuer ∈ st.dead →
      e.2.clock ≤ (st.world.node (st.successor e.1)).viewFloor.get e.2.issuer
  | _ => True

instance (st : RingState cfg) : (action : MemberAction cfg) → Decidable (action.Fenced st)
  | ring (.hop i) => inferInstanceAs (Decidable (∀ e ∈ st.inflight[i]?, e.2.issuer ∈ st.dead →
      e.2.clock ≤ (st.world.node (st.successor e.1)).viewFloor.get e.2.issuer))
  | ring (.broadcast _ _) => isTrue trivial
  | ring (.start _) => isTrue trivial
  | exclude _ => isTrue trivial
  | readmission _ _ => isTrue trivial

end MemberAction

/-- Crashes whose victims' trains may arrive late, on FIFO links. -/
def lateNetwork (cfg : RingConfig) : Machine (RingState cfg) (MemberAction cfg) :=
  (excludeNetwork cfg true).restrict fun st action => action.Fifo st

instance (cfg : RingConfig) (st : RingState cfg) (action : MemberAction cfg) :
    Decidable ((lateNetwork cfg).legal st action) :=
  inferInstanceAs (Decidable ((action.Legal st ∧ action.Shrinks) ∧ action.Fifo st))

/-- Two processes in use have logs of which one is a prefix of the other. -/
def SurvivorsComparable (st : RingState cfg) : Prop :=
  ∀ p q : Fin cfg.ringSize, p.val ∉ st.dead → q.val ∉ st.dead →
    st.world.log p <+: st.world.log q ∨ st.world.log q <+: st.world.log p

/-- Process 1 crashes with its first train on the way to process 2, where it arrives after process 0's
first train of the next view. -/
def lateRun : List (MemberAction .triple) :=
  [.ring (.start 0), .ring (.start 1), .exclude 1, .ring (.hop 0), .ring (.broadcast 2 [1]),
    .ring (.hop 1), .ring (.broadcast 2 [2])] ++ List.replicate 5 (.ring (.hop 0))

def lateState : RingState .triple :=
  (lateNetwork .triple).run (.initial .triple .totalOrder) lateRun

/-- Process 0 delivers the new train first, process 2 the late one. -/
theorem late_train_splits : ¬ ∀ (cfg : RingConfig) (st : RingState cfg),
    (lateNetwork cfg).Reachable st → SurvivorsComparable st := by
  intro holds
  have reachable : (lateNetwork .triple).Reachable lateState :=
    Machine.reachable_run rfl (by decide +kernel)
  have split := holds .triple lateState reachable 0 2 (by decide +kernel) (by decide +kernel)
  exact absurd split (by decide +kernel)

/-! ### Fenced runs -/

/-- A fenced step receives no train of a process out of use but a stale one. -/
theorem Lapping.fences {view : View cfg} {base : List Payload} {st : RingState cfg}
    {entries : Fin cfg.ringSize → List Entry} (lapping : Lapping view base st entries) :
    ∀ {action : RingAction cfg}, action.Legal st → (MemberAction.ring action).Fenced st →
      view.Fences st action
  | .broadcast _ _, _, _ => trivial
  | .start _, _, _ => trivial
  | .hop i, legal, fenced => by
    obtain ⟨entry, here, receiver⟩ := legal
    intro e here' above
    obtain rfl : entry = e := Option.some.inj (here.symm.trans here')
    have flying := lapping.holds.flying entry (List.mem_of_getElem? here)
    have inside : entry.2.issuer < cfg.ringSize :=
      lt_of_lt_of_le (lapping.holds.coherent.ledger.issuers _ flying) cfg.trains_le
    refine (lapping.holds.alive ⟨_, inside⟩).mpr fun dead => ?_
    have low := fenced entry here dead
    rw [(lapping.holds.coherent.replica _ ((lapping.holds.alive _).mpr receiver)).floor] at low
    exact absurd above (not_lt.mpr low)

/-- **The survivors agree** in every run whose steps are fenced. -/
theorem late_trains_fenced {cfg : RingConfig} {st : RingState cfg}
    (reachable : ((lateNetwork cfg).restrict fun st action => action.Fenced st).Reachable st) :
    SurvivorsComparable st := by
  have laps : ∃ (view : View cfg) (base : List Payload) (entries : Fin cfg.ringSize → List Entry),
      Lapping view base st entries ∧ view.Balanced := by
    refine Machine.invariant (P := fun st => ∃ view base entries,
      Lapping view base st entries ∧ view.Balanced) ?_ ?_ reachable
    · rintro _ rfl
      exact ⟨_, _, _, Lapping.initial cfg, View.balanced_initial .totalOrder⟩
    · rintro st action ⟨view, base, entries, lapping, fair⟩ ⟨⟨⟨legal, shrinks⟩, -⟩, fenced⟩
      cases action with
      | ring action => exact ⟨view, base, _, lapping.ring legal (lapping.fences legal fenced), fair⟩
      | exclude victim =>
        obtain ⟨log, next, -⟩ :=
          lapping.exclude true victim (lapping.halted_covered fair true victim)
        exact ⟨_, log, _, next, lapping.balanced_without fair true victim⟩
      | readmission _ _ => exact shrinks.elim
  obtain ⟨view, base, entries, lapping, -⟩ := laps
  exact fun p q left right => lapping.holds.comparable left right

/-- Process 1's train has been around once when it crashes, and arrives late. -/
def fencedRun : List (MemberAction .triple) :=
  [.ring (.broadcast 2 [1]), .ring (.start 1), .ring (.hop 0), .ring (.hop 0), .ring (.hop 0),
    .exclude 1] ++ List.replicate 3 (.ring (.hop 0))

def fencedState : RingState .triple :=
  ((lateNetwork .triple).restrict fun st action => action.Fenced st).run
    (.initial .triple .totalOrder) fencedRun

instance (cfg : RingConfig) (st : RingState cfg) (action : MemberAction cfg) :
    Decidable (((lateNetwork cfg).restrict fun st action => action.Fenced st).legal st action) :=
  inferInstanceAs (Decidable (((action.Legal st ∧ action.Shrinks) ∧ action.Fifo st) ∧ action.Fenced st))

/-- It is absorbed. -/
theorem late_trains_fenced_triple : SurvivorsComparable fencedState :=
  late_trains_fenced (Machine.reachable_run rfl (by decide +kernel))

end TrainsRing
