/-
**How far apart two nodes can be.**

A recovery merge can only hand over what some report has. Without crashes, what one node has delivered
and another has not is of one clock, so at most `NUM_TRAINS` keys, and the delivered cache still holds
all of it.

* `JournaledRing` — a ring with what every node has delivered, key by key.
* `RingInvariant.journaled` — **a step of the ring appends what it delivers**.
* `Level` — what a node is ahead of another is of one clock, cached and in its report.
* `bounded_skew` — **any two nodes of a ring without crashes are level.**
-/

import TrainsRing.Reconfig.Laps
import TrainsRing.Reconfig.Merge
import TrainsRing.Ring.Invariant

namespace TrainsRing

variable {cfg : RingConfig} {mode : DeliveryMode}

open TrainsNode

/-! ### Journals -/

/-- A ring with the keys and payloads every node has delivered, in order. -/
structure JournaledRing (cfg : RingConfig) where
  ring : RingState cfg
  journal : Fin cfg.ringSize → List Entry

/-- The ring without crashes, with journals. -/
def journaledNetwork (cfg : RingConfig) (mode : DeliveryMode) :
    Machine (JournaledRing cfg) (RingAction cfg) where
  start := fun st => st = ⟨RingState.initial cfg mode, fun _ => []⟩
  legal := fun st action => action.Legal st.ring
  next := fun st action => ⟨st.ring.apply action,
    fun p => st.journal p ++ st.ring.delivered action p⟩

instance (cfg : RingConfig) (mode : DeliveryMode) (st : JournaledRing cfg) (action : RingAction cfg) :
    Decidable ((journaledNetwork cfg mode).legal st action) :=
  inferInstanceAs (Decidable (action.Legal st.ring))

namespace RingInvariant

variable {st : RingState cfg} {entries : Fin cfg.ringSize → List Entry}

/-- **A step of the ring appends what it delivers** to the entries. -/
theorem journaled (holds : RingInvariant mode st entries) (mode_ne : mode ≠ .causalOrder)
    {action : RingAction cfg} (legal : action.Legal st) :
    RingInvariant mode (st.apply action) fun p => entries p ++ st.delivered action p := by
  obtain ⟨_, next⟩ := holds.step mode_ne legal
  have live : ∀ q, (View.initial cfg mode).Alive q := View.alive_initial mode
  refine { next with coherent := ?_ }
  cases action with
  | broadcast p data =>
    exact RingState.append_delivered_none entries p ▸ holds.coherent.broadcast (live p) data
  | start p =>
    exact RingState.append_delivered_none entries p ▸
      holds.coherent.issueInitial holds.custody.ids (live p) legal.1
  | hop i =>
    obtain ⟨⟨s, t⟩, here, -⟩ := legal
    have flying : t ∈ st.world.emitted := holds.tokens.flying (s, t) (List.mem_of_getElem? here)
    obtain ⟨forwarded, handled, emits⟩ := (st.world.node (st.successor s)).handleTrain_entries t
    have coherent := holds.coherent.handle holds.custody.ids (live (st.successor s)) flying
      (fun _ => live _) handled emits
    obtain ⟨before, after, -, -, hop⟩ := RingState.hop_eq here
    rw [st.append_delivered_hop entries here] at coherent
    show Coherent _ _ (st.hop i).world _
    rw [hop]
    exact coherent

end RingInvariant

/-- **The caches after a step of the ring.** -/
theorem Larder.ring {view : View cfg} {base : List Payload} {st : RingState cfg}
    {entries : Fin cfg.ringSize → List Entry} {action : RingAction cfg} (legal : action.Legal st)
    (coherent : Coherent view base (st.apply action).world
      fun p => entries p ++ st.delivered action p) {p : Fin cfg.ringSize} (alive : view.Alive p)
    (larder : Larder view (st.world.node p) (entries p)) :
    Larder view ((st.apply action).world.node p) (entries p ++ st.delivered action p) := by
  have sorted := (coherent.replica p alive).segment.sorted
  cases action with
  | broadcast q data =>
    rw [show st.delivered (.broadcast q data) p = [] from rfl, List.append_nil]
    exact larder.congr (st.world.broadcast_cache q data p)
  | start q =>
    rw [show st.delivered (.start q) p = [] from rfl, List.append_nil]
    exact larder.congr (st.world.issueInitial_cache q p)
  | hop i =>
    obtain ⟨⟨s, t⟩, here, -⟩ := legal
    obtain ⟨before, after, -, -, hop⟩ := RingState.hop_eq here
    show Larder view ((st.hop i).world.node p) _
    rw [hop]
    rw [st.delivered_hop here] at sorted ⊢
    by_cases same : p = st.successor s
    · obtain ⟨forwarded, handled, -⟩ := (st.world.node p).handleTrain_entries t
      have node : (st.world.receive p t).node p = ((st.world.node p).handleTrain t).1 :=
        st.world.act_node_self p _
      rw [if_pos same] at sorted ⊢
      rw [← same, node]
      exact larder.handled handled sorted
    · rw [if_neg same, List.append_nil, st.world.receive_node_of_ne _ same]
      exact larder

/-! ### Level nodes -/

namespace JournaledRing

/-- The keys done at `p` and not at `q`. -/
def lead (st : JournaledRing cfg) (p q : Fin cfg.ringSize) : Finset ClockKey :=
  (st.ring.world.node p).delivery.doneKeys \ (st.ring.world.node q).delivery.doneKeys

/-- What `p` is ahead of `q`: few keys of one clock, whose payloads `p` still caches and reports. -/
structure Level (st : JournaledRing cfg) (p q : Fin cfg.ringSize) : Prop where
  round : ∃ clock, ∀ key ∈ st.lead p q, key.clock = clock
  few : (st.lead p q).card ≤ cfg.numTrains
  delivered : ∀ key ∈ st.lead p q, ∃ payloads, (key, payloads) ∈ st.journal p
  kept : ∀ key ∈ st.lead p q, ∀ payloads, (key, payloads) ∈ st.journal p → payloads ≠ [] →
    (st.ring.world.node p).deliveredCache.get? key = some payloads ∧
      (st.ring.world.node p).recoveryReport.haves.get? key = some payloads

end JournaledRing

/-- The invariant of a ring with journals. -/
structure JournalInvariant (mode : DeliveryMode) (st : JournaledRing cfg) : Prop where
  ring : RingInvariant mode st.ring st.journal
  larder : ∀ p, Larder (View.initial cfg mode) (st.ring.world.node p) (st.journal p)

namespace JournalInvariant

theorem initial (mode : DeliveryMode) :
    JournalInvariant mode ⟨RingState.initial cfg mode, fun _ => []⟩ where
  ring := RingInvariant.initial mode
  larder := fun _ => {
    cached := fun _ _ found => by cases found
    retained := fun _ member => absurd member List.not_mem_nil }

/-- **Every step keeps the invariant.** -/
theorem step {st : JournaledRing cfg} (invariant : JournalInvariant mode st)
    (mode_ne : mode ≠ .causalOrder) {action : RingAction cfg} (legal : action.Legal st.ring) :
    JournalInvariant mode ((journaledNetwork cfg mode).next st action) := by
  have ring := invariant.ring.journaled mode_ne legal
  exact ⟨ring, fun p =>
    (invariant.larder p).ring legal ring.coherent (View.alive_initial mode p)⟩

/-- **Two nodes are level.** -/
theorem level {st : JournaledRing cfg} (invariant : JournalInvariant mode st)
    (p q : Fin cfg.ringSize) : st.Level p q := by
  have holds := invariant.ring
  have left : (View.initial cfg mode).Alive p := View.alive_initial mode p
  have right : (View.initial cfg mode).Alive q := View.alive_initial mode q
  have replica := holds.coherent.replica p left
  have recorded : ∀ key, key ∈ (st.ring.world.node p).delivery.doneKeys →
      ∃ entry ∈ st.journal p, entry.1 = key := fun key done =>
    ((replica.done key).mp done).resolve_left fun old => by
      have positive := old.2.1
      have bounded : key.clock ≤ (Slots.zero cfg).get key.issuer := old.2.2
      rw [Slots.get_zero] at bounded
      omega
  have isKey : ∀ key, key ∈ (st.ring.world.node p).delivery.doneKeys →
      (View.initial cfg mode).Key key := fun key done => by
    obtain ⟨entry, member, rfl⟩ := recorded key done
    exact replica.segment.keys entry member
  have last : ∀ key ∈ st.lead p q, ∀ other ∈ (st.ring.world.node p).delivery.doneKeys,
      other.clock ≤ key.clock := fun key member other done => by
    obtain ⟨here, missing⟩ := Finset.mem_sdiff.mp member
    refine not_lt.mp fun later => missing ?_
    exact holds.tokens.done_below holds.coherent holds.clocks left right (isKey other done) done
      (isKey key here) later
  have round : ∀ key ∈ st.lead p q, ∀ other ∈ st.lead p q, key.clock = other.clock :=
    fun key member other member' =>
      le_antisymm (last other member' key (Finset.mem_sdiff.mp member).1)
        (last key member other (Finset.mem_sdiff.mp member').1)
  refine ⟨?_, ?_, fun key member => ?_, fun key member payloads inside loaded => ?_⟩
  · rcases (st.lead p q).eq_empty_or_nonempty with none | ⟨first, member⟩
    · exact ⟨0, fun key inside => absurd (none ▸ inside) (Finset.notMem_empty key)⟩
    · exact ⟨first.clock, fun key inside => round key inside first member⟩
  · refine (Finset.card_le_card_of_injOn ClockKey.issuer (t := Finset.range cfg.numTrains)
      (fun key member => ?_) fun key member other member' same => ?_).trans_eq
      (Finset.card_range _)
    · exact Finset.mem_coe.mpr (Finset.mem_range.mpr
        (isKey key (Finset.mem_sdiff.mp (Finset.mem_coe.mp member)).1).1.1)
    · have clock := round key (Finset.mem_coe.mp member) other (Finset.mem_coe.mp member')
      cases key
      cases other
      simp_all
  · obtain ⟨⟨_, payloads⟩, inside, rfl⟩ := recorded key (Finset.mem_sdiff.mp member).1
    exact ⟨payloads, inside⟩
  · have cached := (invariant.larder p).held_of_last replica (View.balanced_initial mode)
      (isKey key (Finset.mem_sdiff.mp member).1) inside loaded fun other _ => last key member other
    exact ⟨cached, retransmittable_cached cached loaded⟩

end JournalInvariant

/-- **Any two nodes of a ring without crashes are level**, and what a node hands its application is
what its journal says. -/
theorem bounded_skew (mode_ne : mode ≠ .causalOrder) {st : JournaledRing cfg}
    (reachable : (journaledNetwork cfg mode).Reachable st) (p q : Fin cfg.ringSize) :
    st.Level p q ∧ st.ring.world.log p = (st.journal p).flatMap Entry.content := by
  have invariant : JournalInvariant mode st := by
    refine Machine.invariant (P := JournalInvariant mode) ?_ ?_ reachable
    · rintro _ rfl
      exact JournalInvariant.initial mode
    · exact fun st action before legal => before.step mode_ne legal
  exact ⟨invariant.level p q, invariant.ring.coherent.logs p (View.alive_initial mode p)⟩

/-- Node 0 delivers its first train before the others. -/
def leadingState : JournaledRing .triple :=
  (journaledNetwork .triple .uniformTotalOrder).run ⟨.initial .triple .uniformTotalOrder, fun _ => []⟩
    [.broadcast 0 [7], .start 0, .start 1, .hop 1, .hop 1, .hop 0, .hop 1, .hop 1]

theorem bounded_skew_triple : leadingState.lead 0 1 = {⟨1, 0⟩} ∧
    (leadingState.ring.world.node 0).recoveryReport.haves.get? ⟨1, 0⟩ = some [⟨0, 0, [7]⟩] := by
  have reachable : (journaledNetwork .triple .uniformTotalOrder).Reachable leadingState :=
    Machine.reachable_run rfl (by decide +kernel)
  obtain ⟨level, -⟩ := bounded_skew (by decide) reachable 0 1
  exact ⟨by decide +kernel, (level.kept ⟨1, 0⟩ (by decide +kernel) [⟨0, 0, [7]⟩] (by decide +kernel)
    (List.cons_ne_nil _ _)).2⟩

end TrainsRing
