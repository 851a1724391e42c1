/-
**The state of the specification behind a ring.**

A ring without crashes stands for a state of the specification: the slot of an issuer is where its
train is, until the train is full; a full train with payloads is closed at its issuer, whatever lap the
ring still sends it on; a full train without payloads has been recycled, and its issuer just has not
sent the next one.

* `RingState.slot` — the slot of a train in flight.
* `Ridden`, `Marked` — the state of the specification as far as trains and deliveries go.
* `Prompt`, `promptRing` — runs in which no issuer replaces a train with payloads before every process
  has delivered it, as the guard of `RecycleTrain` asks.
* `Vars.reaches_noted` — the deliveries of one call, one `DeliverTrain` after the other.
-/

import TrainsRing.Reconfig.MergeOrder
import TrainsRing.Ring.Recycling
import TrainsRing.Spec.Safety

namespace TrainsRing

set_option linter.unusedSectionVars false

namespace Spec

variable {cfg : RingConfig} {mode : DeliveryMode}

/-! ### Constants and keys -/

/-- `MaxClock` and `MaxPending`. -/
structure Bounds where
  clock : Nat
  pending : Nat
  clock_pos : 1 ≤ clock
  clock_lt : clock < u64Max
  pending_pos : 1 ≤ pending

variable {bounds : Bounds}

/-- The constants for a ring. -/
noncomputable def constants (cfg : RingConfig) (mode : DeliveryMode) (bounds : Bounds) :
    Constants (Fin cfg.ringSize) Payload where
  size := cfg.ringSize
  ring := Equiv.refl _
  numTrains := cfg.numTrains
  numTrains_pos := cfg.one_le
  numTrains_le := cfg.trains_le
  maxClock := bounds.clock
  maxClock_pos := bounds.clock_pos
  maxPending := bounds.pending
  maxPending_pos := bounds.pending_pos
  mode := if mode = .totalOrder then .to else .uto
  msgsToSeq := fun msgs => sortPayloads msgs.toList
  msgsToSeq_perm := fun msgs => List.perm_insertionSort _ msgs.toList

/-- The key of the code. -/
def codeKey (key : Nat × Fin cfg.ringSize) : ClockKey := ⟨key.1, key.2⟩

/-- The key of the specification. -/
def specKey (cfg : RingConfig) (key : ClockKey) : Nat × Fin cfg.ringSize :=
  (key.clock, Fin.ofNat cfg.ringSize key.issuer)

theorem codeKey_specKey {key : ClockKey} (inside : key.issuer < cfg.ringSize) :
    codeKey (specKey cfg key) = key := by
  obtain ⟨clock, issuer⟩ := key
  exact congrArg (ClockKey.mk clock) (Nat.mod_eq_of_lt inside)

theorem specKey_codeKey (key : Nat × Fin cfg.ringSize) : specKey cfg (codeKey key) = key :=
  Prod.ext rfl (Fin.ext (Nat.mod_eq_of_lt key.2.isLt))

theorem codeKey_lt {first second : Nat × Fin cfg.ringSize} :
    codeKey first < codeKey second ↔ ckLt first second :=
  ClockKey.lt_iff

/-! ### Slots -/

/-- Every process has acked the train. -/
def Full (cfg : RingConfig) (t : Train) : Prop := ∀ x : Fin cfg.ringSize, t.isAckedBy x = true

instance (t : Train) : Decidable (Full cfg t) := by
  unfold Full
  infer_instance

/-- The processes that have acked the train. -/
def acksOf (cfg : RingConfig) (t : Train) : Finset (Fin cfg.ringSize) :=
  Finset.univ.filter fun x => t.isAckedBy x = true

theorem mem_acksOf {t : Train} {x : Fin cfg.ringSize} : x ∈ acksOf cfg t ↔ t.isAckedBy x = true := by
  rw [acksOf, Finset.mem_filter]
  exact and_iff_right (Finset.mem_univ x)

theorem acksOf_ne {t : Train} (incomplete : ¬ Full cfg t) : acksOf cfg t ≠ Finset.univ := fun all =>
  incomplete fun x => mem_acksOf.mp (all ▸ Finset.mem_univ x)

theorem acksOf_eq {t : Train} (full : Full cfg t) : acksOf cfg t = Finset.univ :=
  Finset.eq_univ_of_forall fun x => mem_acksOf.mpr (full x)

/-- A slot that waits for its issuer. -/
def restingSlot (owner : Fin cfg.ringSize) (clock : Nat) : TrainRec (Fin cfg.ringSize) Payload :=
  ⟨owner, clock, ∅, ∅, owner⟩

end Spec

/-- The slot of a train in flight. -/
def RingState.slot {cfg : RingConfig} (st : RingState cfg) (e : Fin cfg.ringSize × Train)
    (owner : Fin cfg.ringSize) : Spec.TrainRec (Fin cfg.ringSize) Payload :=
  if Spec.Full cfg e.2 then
    if e.2.payloads = [] then Spec.restingSlot owner (e.2.clock + 1)
    else ⟨owner, e.2.clock, e.2.payloads.toFinset, Finset.univ, owner⟩
  else ⟨owner, e.2.clock, e.2.payloads.toFinset, Spec.acksOf cfg e.2, st.successor e.1⟩

namespace Spec

variable {cfg : RingConfig} {mode : DeliveryMode} {bounds : Bounds}

theorem slot_open {st : RingState cfg} {e : Fin cfg.ringSize × Train} (owner : Fin cfg.ringSize)
    (incomplete : ¬ Full cfg e.2) : st.slot e owner =
      ⟨owner, e.2.clock, e.2.payloads.toFinset, acksOf cfg e.2, st.successor e.1⟩ := if_neg incomplete

theorem slot_skipped {st : RingState cfg} {e : Fin cfg.ringSize × Train} (owner : Fin cfg.ringSize)
    (full : Full cfg e.2) (empty : e.2.payloads = []) :
    st.slot e owner = restingSlot owner (e.2.clock + 1) := (if_pos full).trans (if_pos empty)

theorem slot_closed {st : RingState cfg} {e : Fin cfg.ringSize × Train} (owner : Fin cfg.ringSize)
    (full : Full cfg e.2) (loaded : e.2.payloads ≠ []) : st.slot e owner =
      ⟨owner, e.2.clock, e.2.payloads.toFinset, Finset.univ, owner⟩ :=
  (if_pos full).trans (if_neg loaded)

/-! ### The abstraction -/

/-- The trains of a ring, in the specification. -/
structure Ridden (st : RingState cfg) (s : Vars (constants cfg mode bounds)) : Prop where
  crashed : s.crashed = ∅
  pending : ∀ p, s.pending p = (st.world.node p).pending.toFinset
  broadcast : ∀ m, m ∈ s.broadcast ↔ ∃ p, m ∈ st.world.accepted p
  waiting : ∀ t : (constants cfg mode bounds).TrainId, t.val ∉ st.started →
    s.tr t = restingSlot ((constants cfg mode bounds).owner t) 1
  riding : ∀ e ∈ st.inflight, ∀ t : (constants cfg mode bounds).TrainId, e.2.issuer = t.val →
    s.tr t = st.slot e ((constants cfg mode bounds).owner t)
  issued : ∀ key ∈ s.issuedKeys, key.2.val < cfg.numTrains ∧ 1 ≤ key.1
  /-- An empty train has been marked done when it was full. -/
  skipped : ∀ t ∈ st.world.emitted, Full cfg t → t.payloads = [] →
    ∀ p, specKey cfg t.key ∈ s.doneKeys p

/-- The deliveries of a ring, in the specification. An empty train may be done only there. -/
structure Marked (w : World cfg) (log : Fin cfg.ringSize → List Payload)
    (keys : Fin cfg.ringSize → Finset ClockKey) (s : Vars (constants cfg mode bounds)) : Prop where
  delivered : s.delivered = log
  done : ∀ p, ∀ key ∈ keys p, specKey cfg key ∈ s.doneKeys p
  back : ∀ p, ∀ key ∈ s.doneKeys p, codeKey key ∈ keys p ∨
    ∃ t ∈ w.emitted, t.key = codeKey key ∧ Full cfg t ∧ t.payloads = []

/-- The keys that the nodes have done. -/
def doneOf (w : World cfg) (p : Fin cfg.ringSize) : Finset ClockKey := (w.node p).delivery.doneKeys

/-- **The abstraction**: the state of the specification that a ring stands for. -/
structure Abstracts (st : RingState cfg) (s : Vars (constants cfg mode bounds)) : Prop where
  ridden : Ridden st s
  marked : Marked st.world st.world.log (doneOf st.world) s

/-! ### Several deliveries -/

section Deliveries

variable {Proc Message : Type} [Fintype Proc] [LinearOrder Proc] [DecidableEq Message]
  {c : Constants Proc Message} {s : Vars c} {p : Proc}

theorem ckLt_asymm {first second : Nat × Proc} (below : ckLt first second) : ¬ ckLt second first := by
  unfold ckLt at *
  rintro (above | ⟨same, above⟩)
  · rcases below with below | ⟨equal, -⟩ <;> omega
  · rcases below with below | ⟨-, below⟩
    · omega
    · exact lt_asymm below above

/-- Process `p` has delivered some loads. -/
def Vars.noted (s : Vars c) (p : Proc) (loads : List (Chunk Proc Message)) : Vars c :=
  { s with
    delivered := Function.update s.delivered p (s.delivered p ++ contents c loads)
    doneKeys := Function.update s.doneKeys p (s.doneKeys p ∪ (loads.map Prod.fst).toFinset) }

/-- A load that `p` may deliver as soon as it has delivered the smaller ones among `loads`. -/
structure Deliverable (s : Vars c) (p : Proc) (loads : List (Chunk Proc Message))
    (chunk : Chunk Proc Message) : Prop where
  loaded : chunk.2 ≠ ∅
  slot : ∃ t, (s.tr t).key = chunk.1 ∧ (s.tr t).msgs = chunk.2 ∧ s.requiredAcks ⊆ (s.tr t).acks
  new : chunk.1 ∉ s.doneKeys p
  prior : ∀ key ∈ s.issuedKeys, ckLt key chunk.1 →
    key ∈ s.doneKeys p ∨ ∃ earlier ∈ loads, earlier.1 = key
  caught : ∀ q ∈ c.issuers, chunk.1.1 ≤ s.issClk q

/-- **Loads in key order are delivered one after the other.** -/
theorem Vars.reaches_noted (live : p ∉ s.crashed) {loads : List (Chunk Proc Message)}
    (sorted : loads.Pairwise fun first second => ckLt first.1 second.1)
    (can : ∀ chunk ∈ loads, Deliverable s p loads chunk) :
    (spec c).Reaches s (s.noted p loads) := by
  induction loads using List.reverseRecOn with
  | nil =>
    have same : s.noted p [] = s := by
      unfold Vars.noted contents
      simp
    rw [same]
    exact Machine.Reaches.refl s
  | append_singleton front last ih =>
    obtain ⟨ordered, -, lower⟩ := List.pairwise_append.mp sorted
    have below : ∀ chunk ∈ front, ckLt chunk.1 last.1 := fun chunk member =>
      lower chunk member last (List.mem_singleton_self last)
    have before : (spec c).Reaches s (s.noted p front) := by
      refine ih ordered fun chunk member => ?_
      obtain ⟨loaded, slot, new, prior, caught⟩ := can chunk (List.mem_append_left _ member)
      refine ⟨loaded, slot, new, fun key issued less => ?_, caught⟩
      refine (prior key issued less).imp_right fun ⟨earlier, inside, same⟩ => ?_
      rcases List.mem_append.mp inside with old | isLast
      · exact ⟨earlier, old, same⟩
      · rw [← same, List.mem_singleton.mp isLast] at less
        exact absurd less (ckLt_asymm (below chunk member))
    obtain ⟨loaded, ⟨t, key, msgs, acks⟩, new, prior, caught⟩ :=
      can last (List.mem_append_right _ (List.mem_singleton_self last))
    have done : ∀ k, k ∈ (s.noted p front).doneKeys p ↔
        k ∈ s.doneKeys p ∨ ∃ earlier ∈ front, earlier.1 = k := fun k => by
      unfold Vars.noted
      simp
    have enabled : (Action.deliverTrain p t).Enabled (s.noted p front) := by
      refine ⟨live, acks, msgs.symm ▸ loaded, ?_, fun k issued less => ?_, fun q issuer => ?_⟩
      · show (s.tr t).key ∉ _
        rw [key, done]
        rintro (old | ⟨earlier, inside, same⟩)
        · exact new old
        · have less := below earlier inside
          rw [same] at less
          exact ckLt_asymm less less
      · rw [done]
        have less : ckLt k last.1 := key ▸ less
        refine (prior k issued less).imp_right fun ⟨earlier, inside, same⟩ => ?_
        rcases List.mem_append.mp inside with old | isLast
        · exact ⟨earlier, old, same⟩
        · rw [← same, List.mem_singleton.mp isLast] at less
          exact absurd less (ckLt_asymm less)
      · show (s.tr t).key.1 ≤ s.issClk q
        rw [key]
        exact caught q (Finset.mem_sdiff.mp issuer).1
    have after : (Action.deliverTrain p t).apply (s.noted p front) = s.noted p (front ++ [last]) := by
      have chunk : c.msgsToSeq (s.tr t).msgs = contents c [last] := by
        rw [msgs]
        simp [contents]
      unfold Action.apply Vars.noted
      simp only [Function.update_self, Function.update_idem, contents_append, List.append_assoc,
        chunk, key, List.map_append, List.map_cons, List.map_nil, List.toFinset_append,
        Finset.union_assoc, List.toFinset_cons, List.toFinset_nil, insert_empty_eq]
    exact after ▸ reaches_apply before enabled

end Deliveries

/-! ### Prompt runs -/

/-- Within the bounds; and a train with payloads that comes home to be replaced has been delivered by
every process. -/
def Prompt (bounds : Bounds) (st : RingState cfg) : RingAction cfg → Prop
  | .broadcast p _ => (st.world.node p).pending.length < bounds.pending
  | .start _ => True
  | .hop i => ∀ e ∈ st.inflight[i]?, e.2.clock < bounds.clock ∧
      (st.Recycles (st.successor e.1) e.2 → e.2.payloads ≠ [] → st.AllDelivered e.2.key)

instance (st : RingState cfg) : (action : RingAction cfg) → Decidable (Prompt bounds st action)
  | .broadcast p _ => inferInstanceAs (Decidable ((st.world.node p).pending.length < bounds.pending))
  | .start _ => inferInstanceAs (Decidable True)
  | .hop i => inferInstanceAs (Decidable (∀ e ∈ st.inflight[i]?, e.2.clock < bounds.clock ∧
      (st.Recycles (st.successor e.1) e.2 → e.2.payloads ≠ [] → st.AllDelivered e.2.key)))

/-- The ring without crashes, as long as it is prompt. -/
def promptRing (cfg : RingConfig) (mode : DeliveryMode) (bounds : Bounds) :
    Machine (RingState cfg) (RingAction cfg) :=
  (ringNetwork cfg mode).restrict (Prompt bounds)

instance (st : RingState cfg) (action : RingAction cfg) :
    Decidable ((promptRing cfg mode bounds).legal st action) :=
  inferInstanceAs (Decidable (action.Legal st ∧ Prompt bounds st action))

/-- What holds along prompt runs. -/
structure Pace (bounds : Bounds) (st : RingState cfg) : Prop where
  dead : st.dead = ∅
  begun : ∀ q, q ∈ st.started ↔ ∃ e ∈ st.inflight, e.2.issuer = q
  below : ∀ e ∈ st.inflight, e.2.clock ≤ bounds.clock
  /-- A full train with payloads stays in flight until everybody has delivered it. -/
  held : ∀ t ∈ st.world.emitted, Full cfg t → t.payloads ≠ [] →
    st.AllDelivered t.key ∨ ∃ e ∈ st.inflight, e.2.key = t.key

end Spec

end TrainsRing
