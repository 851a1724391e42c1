/-
**The ring** (`trains-core/tests/adversarial.rs`, `trains-cli/src/node.rs`).

Every train a node sends is in flight until the next node in use receives it, once; any train in
flight may be the next to arrive, so trains are delayed and overtake each other. `dead` are the
processes out of use.

* `RingState` — the nodes, and the trains in flight with their senders, in sending order.
* `ringNetwork` — the ring without crashes. Issuers start when they like, once.
* `RingState.hop_eq` — what one hop does to the trains in flight.
-/

import TrainsRing.Agreement.World
import TrainsRing.Library.Cycle
import TrainsRing.Library.Machine

namespace TrainsRing

variable {cfg : RingConfig}

/-- The nodes of a ring and the trains between them. -/
structure RingState (cfg : RingConfig) where
  world : World cfg
  /-- The processes out of use. -/
  dead : Finset Nat
  /-- The issuers that have issued. -/
  started : Finset Nat
  /-- The trains in flight with their senders, in sending order. -/
  inflight : List (Fin cfg.ringSize × Train)

/-- The steps of a ring. -/
inductive RingAction (cfg : RingConfig) where
  | broadcast (p : Fin cfg.ringSize) (data : List UInt8)
  | start (p : Fin cfg.ringSize)
  | hop (i : Nat)

namespace RingState

/-- Every node as constructed, nothing in flight. -/
def initial (cfg : RingConfig) (mode : DeliveryMode) : RingState cfg where
  world := World.initial cfg mode
  dead := ∅
  started := ∅
  inflight := []

/-- The process that receives what `p` sends. -/
def successor (st : RingState cfg) (p : Fin cfg.ringSize) : Fin cfg.ringSize :=
  ⟨nextAlive cfg.ringSize st.dead p, nextAlive_lt p.isLt⟩

/-- A broadcast at node `p`, which sends nothing. -/
def broadcast (st : RingState cfg) (p : Fin cfg.ringSize) (data : List UInt8) : RingState cfg :=
  { st with world := st.world.broadcast p data }

/-- Issuer `p` sends its initial train. -/
def start (st : RingState cfg) (p : Fin cfg.ringSize) : RingState cfg :=
  { st with
    world := st.world.issueInitial p
    started := insert p.val st.started
    inflight := st.inflight ++ [(p, (st.world.node p).issueInitialTrain.2)] }

/-- The trains node `r` sends on receiving a train. -/
def sends (st : RingState cfg) (r : Fin cfg.ringSize) (train : Train) :
    List (Fin cfg.ringSize × Train) :=
  (forwards ((st.world.node r).step (.trainReceived train)).2).map fun out => (r, out)

/-- The `i`-th train in flight is received by the next process in use after its sender. -/
def hop (st : RingState cfg) (i : Nat) : RingState cfg :=
  match st.inflight[i]? with
  | none => st
  | some (sender, train) =>
    { st with
      world := st.world.receive (st.successor sender) train
      inflight := st.inflight.eraseIdx i ++ st.sends (st.successor sender) train }

/-- The state after a step. -/
def apply (st : RingState cfg) : RingAction cfg → RingState cfg
  | .broadcast p data => st.broadcast p data
  | .start p => st.start p
  | .hop i => st.hop i

/-- **One hop** takes a train out of flight and puts what its receiver sends at the end. -/
theorem hop_eq {st : RingState cfg} {i : Nat} {sender : Fin cfg.ringSize} {train : Train}
    (here : st.inflight[i]? = some (sender, train)) :
    ∃ before after, st.inflight = before ++ (sender, train) :: after ∧ before.length = i ∧
      st.hop i = { st with
        world := st.world.receive (st.successor sender) train
        inflight := before ++ after ++ st.sends (st.successor sender) train } := by
  obtain ⟨inside, entry⟩ := List.getElem?_eq_some_iff.mp here
  refine ⟨st.inflight.take i, st.inflight.drop (i + 1), ?_, List.length_take_of_le inside.le, ?_⟩
  · rw [← entry, List.cons_getElem_drop_succ, List.take_append_drop]
  · unfold hop
    rw [here, List.eraseIdx_eq_take_drop_succ]

/-- The trains a hop leaves where they are were in flight. -/
theorem left_sublist {st : RingState cfg} {before after : List (Fin cfg.ringSize × Train)}
    {e : Fin cfg.ringSize × Train} (shape : st.inflight = before ++ e :: after) :
    (before ++ after).Sublist st.inflight := by
  rw [shape]
  exact (List.Sublist.refl before).append (List.sublist_cons_self e after)

end RingState

namespace RingAction

/-- Only processes in use act, an issuer starts once, and a train needs a receiver in use. -/
def Legal (st : RingState cfg) : RingAction cfg → Prop
  | broadcast p _ => p.val ∉ st.dead
  | start p => p.val < cfg.numTrains ∧ p.val ∉ st.dead ∧ p.val ∉ st.started
  | hop i => ∃ entry ∈ st.inflight[i]?, (st.successor entry.1).val ∉ st.dead

instance (st : RingState cfg) (action : RingAction cfg) : Decidable (action.Legal st) := by
  cases action <;> unfold Legal <;> infer_instance

end RingAction

/-- The ring without crashes. -/
def ringNetwork (cfg : RingConfig) (mode : DeliveryMode) :
    Machine (RingState cfg) (RingAction cfg) where
  start := fun st => st = RingState.initial cfg mode
  legal := fun st action => action.Legal st
  next := RingState.apply

instance (cfg : RingConfig) (mode : DeliveryMode) (st : RingState cfg) (action : RingAction cfg) :
    Decidable ((ringNetwork cfg mode).legal st action) :=
  inferInstanceAs (Decidable (action.Legal st))

end TrainsRing
