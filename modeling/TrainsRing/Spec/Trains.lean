/-
**The protocol specification** (`verification/tla/TRAINS.tla`).

The constants, the variables and the actions of the specification. Every action has its guard in
`Action.Enabled` and its primed variables in `Action.apply`.

* A `CHOOSE` of the most advanced process is an action's parameter: any process that the predicate
  of the `CHOOSE` admits may be taken.
* `MsgsToSeq`, a fold by `CHOOSE` over a set, is a constant: any fixed enumeration of the sets.
* `spec` — `Init` and `Next`, as a machine.
-/

import TrainsRing.Library.Cycle
import TrainsRing.Library.Machine

namespace TrainsRing

namespace Spec

/-! ### Constants -/

/-- `Mode`. -/
inductive Mode where
  | uto
  | to
  deriving DecidableEq

/-- The constants, with what is assumed of them. The processes are a type, and the ring order is one
to one, since it has their number and misses none. -/
structure Constants (Proc Message : Type) where
  size : Nat
  ring : Fin size ≃ Proc
  numTrains : Nat
  numTrains_pos : 1 ≤ numTrains
  /-- `ring[t]` is defined for every train. -/
  numTrains_le : numTrains ≤ size
  maxClock : Nat
  maxClock_pos : 1 ≤ maxClock
  maxPending : Nat
  maxPending_pos : 1 ≤ maxPending
  mode : Mode
  msgsToSeq : Finset Message → List Message
  msgsToSeq_perm : ∀ msgs, (msgsToSeq msgs).Perm msgs.toList

variable {Proc Message : Type}

namespace Constants

variable (c : Constants Proc Message)

/-- `RingPos`, counted from zero. -/
def place (p : Proc) : Nat := (c.ring.symm p).val

theorem place_lt (p : Proc) : c.place p < c.size := (c.ring.symm p).isLt

/-- `Succ`. -/
def succ (p : Proc) : Proc :=
  c.ring ⟨(c.place p + 1) % c.size, Nat.mod_lt _ (Nat.zero_lt_of_lt (c.place_lt p))⟩

/-- `TrainId`, counted from zero. -/
abbrev TrainId : Type := Fin c.numTrains

/-- `ring[t]`: the process that owns the slot of a train. -/
def owner (t : c.TrainId) : Proc := c.ring (t.castLE c.numTrains_le)

/-- `Issuers`. -/
def issuers [DecidableEq Proc] : Finset Proc := Finset.univ.image c.owner

theorem place_injective : Function.Injective c.place := fun _ _ same =>
  c.ring.symm.injective (Fin.ext same)

theorem owner_injective : Function.Injective c.owner := fun _ _ same =>
  Fin.castLE_injective c.numTrains_le (c.ring.injective same)

theorem owner_mem [DecidableEq Proc] (t : c.TrainId) : c.owner t ∈ c.issuers :=
  Finset.mem_image_of_mem _ (Finset.mem_univ t)

/-- A step along the ring, on places. -/
theorem place_succ (p : Proc) : c.place (c.succ p) = nextAlive c.size ∅ (c.place p) := by
  rw [nextAlive_full (c.place_lt p) fun x _ => Finset.notMem_empty x]
  unfold place succ
  rw [Equiv.symm_apply_apply]
  rfl

theorem msgsToSeq_mem {msgs : Finset Message} {m : Message} : m ∈ c.msgsToSeq msgs ↔ m ∈ msgs :=
  (c.msgsToSeq_perm msgs).mem_iff.trans Finset.mem_toList

theorem msgsToSeq_ne_nil {msgs : Finset Message} (loaded : msgs ≠ ∅) : c.msgsToSeq msgs ≠ [] := by
  obtain ⟨m, member⟩ := Finset.nonempty_iff_ne_empty.mpr loaded
  exact List.ne_nil_of_mem (c.msgsToSeq_mem.mpr member)

end Constants

/-- `CKLt`: strictly smaller `(clock, issuer)`. -/
def ckLt [LinearOrder Proc] (first second : Nat × Proc) : Prop :=
  first.1 < second.1 ∨ first.1 = second.1 ∧ first.2 < second.2

instance [LinearOrder Proc] (first second : Nat × Proc) : Decidable (ckLt first second) := by
  unfold ckLt
  infer_instance

theorem ckLt_trichotomy [LinearOrder Proc] (first second : Nat × Proc) :
    ckLt first second ∨ first = second ∨ ckLt second first := by
  unfold ckLt
  rcases lt_trichotomy first.1 second.1 with below | same | above
  · exact Or.inl (Or.inl below)
  · rcases lt_trichotomy first.2 second.2 with below | equal | above
    · exact Or.inl (Or.inr ⟨same, below⟩)
    · exact Or.inr (Or.inl (Prod.ext same equal))
    · exact Or.inr (Or.inr (Or.inr ⟨same.symm, above⟩))
  · exact Or.inr (Or.inr (Or.inl above))

theorem ckLt_clock_le [LinearOrder Proc] {first second : Nat × Proc} (below : ckLt first second) :
    first.1 ≤ second.1 := below.elim Nat.le_of_lt fun same => same.1.le

/-! ### Variables -/

/-- `TrainRec`: the state of a train slot. -/
structure TrainRec (Proc Message : Type) where
  issuer : Proc
  clock : Nat
  msgs : Finset Message
  acks : Finset Proc
  pos : Proc

/-- `ClockKey` of a train. -/
def TrainRec.key (train : TrainRec Proc Message) : Nat × Proc := (train.clock, train.issuer)

/-- `vars`. -/
structure Vars (c : Constants Proc Message) where
  tr : c.TrainId → TrainRec Proc Message
  pending : Proc → Finset Message
  delivered : Proc → List Message
  doneKeys : Proc → Finset (Nat × Proc)
  seenClk : Proc → Proc → Nat
  issClk : Proc → Nat
  crashed : Finset Proc
  broadcast : Finset Message
  issuedKeys : Finset (Nat × Proc)

variable [Fintype Proc] [LinearOrder Proc] [DecidableEq Message] {c : Constants Proc Message}

/-- `Init`. -/
def init (c : Constants Proc Message) : Vars c where
  tr := fun t => ⟨c.owner t, 1, ∅, ∅, c.owner t⟩
  pending := fun _ => ∅
  delivered := fun _ => []
  doneKeys := fun _ => ∅
  seenClk := fun _ _ => 0
  issClk := fun _ => 1
  crashed := ∅
  broadcast := ∅
  issuedKeys := Finset.univ.image fun t => (1, c.owner t)

namespace Vars

variable (s : Vars c)

/-- `LiveProcs`. -/
def live : Finset Proc := Finset.univ \ s.crashed

/-- `RequiredAcks`. -/
def requiredAcks : Finset Proc := if c.mode = .to then s.live else Finset.univ

/-- `AllPriorDelivered`. -/
def AllPriorDelivered (p : Proc) (ck : Nat × Proc) : Prop :=
  (∀ ck2 ∈ s.issuedKeys, ckLt ck2 ck → ck2 ∈ s.doneKeys p) ∧
    ∀ q ∈ c.issuers \ (if c.mode = .to then s.crashed else ∅), ck.1 ≤ s.issClk q

/-- `AllDelivered`. -/
def AllDelivered (t : c.TrainId) : Prop :=
  ∀ p ∈ Finset.univ \ s.crashed, (s.tr t).key ∈ s.doneKeys p

/-- The slots whose issuer is among some processes. -/
def slotsOf (members : Finset Proc) : Finset c.TrainId :=
  Finset.univ.filter fun t => (s.tr t).issuer ∈ members

/-- `p` is in a set and nobody in it has a longer log. -/
def MostAdvanced (members : Finset Proc) (p : Proc) : Prop :=
  p ∈ members ∧ ∀ q ∈ members, (s.delivered q).length ≤ (s.delivered p).length

instance (p : Proc) (ck : Nat × Proc) : Decidable (s.AllPriorDelivered p ck) := by
  unfold AllPriorDelivered
  infer_instance

instance (t : c.TrainId) : Decidable (s.AllDelivered t) := by
  unfold AllDelivered
  infer_instance

instance (members : Finset Proc) (p : Proc) : Decidable (s.MostAdvanced members p) := by
  unfold MostAdvanced
  infer_instance

/-- A slot after its recycling: the issuer's next clock, empty, back at the issuer. -/
def fresh (t : c.TrainId) : TrainRec Proc Message :=
  { s.tr t with
    clock := s.issClk (s.tr t).issuer + 1
    msgs := ∅
    acks := ∅
    pos := (s.tr t).issuer }

/-- What `Reconfigure` and `ReAdmit` have in common: the members of the new view adopt the log of
`canon`, mark every issued key done and reissue their slots. -/
def installView (members : Finset Proc) (canon : Proc) (crashed : Finset Proc) : Vars c :=
  { s with
    crashed
    delivered := fun p => if p ∈ members then s.delivered canon else s.delivered p
    doneKeys := fun p => if p ∈ members then s.doneKeys canon ∪ s.issuedKeys else s.doneKeys p
    tr := fun t => if t ∈ s.slotsOf members then s.fresh t else s.tr t
    issClk := fun q => if q ∈ members ∧ q ∈ c.issuers then s.issClk q + 1 else s.issClk q
    issuedKeys := s.issuedKeys ∪
      (s.slotsOf members).image fun t => (s.issClk (s.tr t).issuer + 1, (s.tr t).issuer) }

end Vars

/-! ### Actions -/

/-- The disjuncts of `Next`. -/
inductive Action (c : Constants Proc Message) where
  | appBroadcast (p : Proc) (m : Message)
  | processTrain (p : Proc) (t : c.TrainId)
  | deliverTrain (p : Proc) (t : c.TrainId)
  | recycleTrain (t : c.TrainId)
  | recycleEmptyTrain (t : c.TrainId)
  | crashProcess (p : Proc)
  | reconfigure (victim canon : Proc)
  | reAdmit (rejoiner canon : Proc)

namespace Action

/-- The guards. -/
def Enabled (s : Vars c) : Action c → Prop
  | appBroadcast p m => p ∉ s.crashed ∧ m ∉ s.broadcast ∧ (s.pending p).card < c.maxPending
  | processTrain p t => p ∉ s.crashed ∧ (s.tr t).pos = p ∧ (s.tr t).acks ≠ Finset.univ
  | deliverTrain p t => p ∉ s.crashed ∧ s.requiredAcks ⊆ (s.tr t).acks ∧ (s.tr t).msgs ≠ ∅ ∧
      (s.tr t).key ∉ s.doneKeys p ∧ s.AllPriorDelivered p (s.tr t).key
  | recycleTrain t => s.AllDelivered t ∧ (s.tr t).msgs ≠ ∅ ∧ s.issClk (s.tr t).issuer < c.maxClock
  | recycleEmptyTrain t => s.requiredAcks ⊆ (s.tr t).acks ∧ (s.tr t).msgs = ∅ ∧
      s.issClk (s.tr t).issuer < c.maxClock
  | crashProcess p => c.mode = .uto ∧ p ∉ s.crashed ∧ s.crashed.card < Fintype.card Proc - 1
  | reconfigure victim canon => c.mode = .to ∧ victim ∉ s.crashed ∧
      s.crashed.card < Fintype.card Proc - 1 ∧ s.MostAdvanced (Finset.univ \ s.crashed) canon ∧
      ∀ t ∈ s.slotsOf (Finset.univ \ insert victim s.crashed), s.issClk (s.tr t).issuer < c.maxClock
  | reAdmit rejoiner canon => c.mode = .to ∧ rejoiner ∈ s.crashed ∧
      s.MostAdvanced (Finset.univ \ s.crashed) canon ∧ Finset.univ \ s.crashed ≠ ∅ ∧
      ∀ t ∈ s.slotsOf (insert rejoiner (Finset.univ \ s.crashed)),
        s.issClk (s.tr t).issuer < c.maxClock

instance (s : Vars c) (action : Action c) : Decidable (action.Enabled s) := by
  cases action <;> unfold Enabled <;> infer_instance

/-- The state after an action. -/
def apply (s : Vars c) : Action c → Vars c
  | appBroadcast p m =>
    { s with
      pending := Function.update s.pending p (s.pending p ∪ {m})
      broadcast := s.broadcast ∪ {m} }
  | processTrain p t =>
    { s with
      tr := Function.update s.tr t { s.tr t with
        msgs := (s.tr t).msgs ∪ s.pending p
        acks := (s.tr t).acks ∪ {p}
        pos := c.succ p }
      pending := Function.update s.pending p ∅
      seenClk := Function.update s.seenClk p
        (Function.update (s.seenClk p) (s.tr t).issuer (s.tr t).clock) }
  | deliverTrain p t =>
    { s with
      delivered := Function.update s.delivered p (s.delivered p ++ c.msgsToSeq (s.tr t).msgs)
      doneKeys := Function.update s.doneKeys p (s.doneKeys p ∪ {(s.tr t).key}) }
  | recycleTrain t =>
    { s with
      tr := Function.update s.tr t (s.fresh t)
      issClk := Function.update s.issClk (s.tr t).issuer (s.issClk (s.tr t).issuer + 1)
      issuedKeys := s.issuedKeys ∪ {(s.fresh t).key} }
  | recycleEmptyTrain t =>
    { s with
      tr := Function.update s.tr t (s.fresh t)
      issClk := Function.update s.issClk (s.tr t).issuer (s.issClk (s.tr t).issuer + 1)
      issuedKeys := s.issuedKeys ∪ {(s.fresh t).key}
      doneKeys := fun p => if p ∈ s.crashed then s.doneKeys p else s.doneKeys p ∪ {(s.tr t).key} }
  | crashProcess p => { s with crashed := s.crashed ∪ {p} }
  | reconfigure victim canon =>
    s.installView (Finset.univ \ insert victim s.crashed) canon (insert victim s.crashed)
  | reAdmit rejoiner canon =>
    let installed := s.installView (insert rejoiner (Finset.univ \ s.crashed)) canon
      (s.crashed.erase rejoiner)
    { installed with
      seenClk := fun p => if p = rejoiner then s.seenClk canon else s.seenClk p }

end Action

/-- `Init` and `Next`. -/
def spec (c : Constants Proc Message) : Machine (Vars c) (Action c) where
  start := fun s => s = init c
  legal := fun s action => action.Enabled s
  next := Action.apply

instance (s : Vars c) (action : Action c) : Decidable ((spec c).legal s action) :=
  inferInstanceAs (Decidable (action.Enabled s))

/-- One more action. -/
theorem reaches_apply {s s' : Vars c} (run : (spec c).Reaches s s') {action : Action c}
    (enabled : action.Enabled s') : (spec c).Reaches s (action.apply s') :=
  run.take (a := action) enabled

end Spec

end TrainsRing
