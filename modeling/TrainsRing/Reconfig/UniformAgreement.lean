/-
**What a crashed process had delivered.**

A process crashes in the first view, perhaps while it acts on the outputs of a train it has just
received, and the survivors run the exclude sequence. The victim may be the only process that ever
saw a closed train: then no survivor can deliver what it carried.

* `RingState.LastLog` — what the victim may have delivered before it crashed.
* `Recovers` — all of it is in every survivor's log, in the victim's order.
* `Survives` — a survivor has delivered or parked each payload of it.
* `victim_alone` — a run in which the victim alone has delivered a payload.
* `uniform_agreement` — **the survivors recover the victim's log if and only if it survives.**
-/

import TrainsRing.Agreement.Async
import TrainsRing.Reconfig.Laps
import TrainsRing.Ring.Invariant

namespace TrainsRing

variable {cfg : RingConfig}

open RingState

/-- What the victim may have delivered when it crashes: it has acted on some of the outputs of its
last step, perhaps without sending the train of that step. -/
def RingState.LastLog (st : RingState cfg) (victim : Fin cfg.ringSize) (log : List Payload) : Prop :=
  log <+: st.world.log victim ∨ ∃ entry ∈ st.inflight, st.successor entry.1 = victim ∧
    log <+: st.world.log victim ++
      deliveries ((st.world.node victim).step (.trainReceived entry.2)).2

/-- When the survivors have applied the plan, each has all that the victim had delivered, in the
victim's order. -/
def Recovers (st : RingState cfg) (victim : Fin cfg.ringSize) (log : List Payload) : Prop :=
  ∀ p : Fin cfg.ringSize, p ≠ victim →
    (∀ m ∈ log, m ∈ (st.halted false victim).install.world.log p) ∧
      log <+: (st.halted false victim).install.world.log p

/-- Some survivor has delivered each payload, or has parked a train with it. -/
def Survives (st : RingState cfg) (victim : Fin cfg.ringSize) (log : List Payload) : Prop :=
  ∀ m ∈ log, ∃ p : Fin cfg.ringSize, p ≠ victim ∧ (m ∈ st.world.log p ∨
    ∃ key train, (st.world.node p).parked.get? key = some train ∧ m ∈ train.payloads)

instance (st : RingState cfg) (victim : Fin cfg.ringSize) (log : List Payload) :
    Decidable (st.LastLog victim log) := inferInstanceAs (Decidable (_ ∨ _))

/-- Process 0's train has collected a payload of process 2, and is about to come home. -/
def aloneRun : List (RingAction .triple) :=
  [.start 0, .start 1, .hop 0, .hop 0, .broadcast 2 [1], .hop 0, .hop 0]

def aloneState : RingState .triple :=
  (ringNetwork .triple .totalOrder).run (.initial .triple .totalOrder) aloneRun

/-- Process 0 receives it, delivers the payload, and crashes before it sends the train on. -/
theorem victim_alone : ¬ ∀ (cfg : RingConfig) (st : RingState cfg) (victim : Fin cfg.ringSize)
    (log : List Payload), (ringNetwork cfg .totalOrder).Reachable st → st.LastLog victim log →
      Recovers st victim log := by
  intro recovers
  have reachable : (ringNetwork .triple .totalOrder).Reachable aloneState :=
    Machine.reachable_run rfl (by decide +kernel)
  have all := recovers .triple aloneState 0 [⟨2, 0, [1]⟩] reachable (by decide +kernel) 1
    (by decide +kernel)
  exact absurd (all.1 ⟨2, 0, [1]⟩ (List.mem_singleton_self _)) (by decide +kernel)

/-! ### The first view -/

theorem ring_circulating {st : RingState cfg} (reachable : (ringNetwork cfg .totalOrder).Reachable st) :
    ∃ entries, Circulating (View.initial cfg .totalOrder) [] st entries := by
  refine Machine.invariant (m := ringNetwork cfg .totalOrder)
    (P := fun st => ∃ entries, Circulating (View.initial cfg .totalOrder) [] st entries) ?_ ?_ reachable
  · rintro _ rfl
    exact ⟨_, Circulating.initial cfg⟩
  · rintro st action ⟨entries, circulating⟩ legal
    exact ⟨_, circulating.ring legal⟩

/-- The victim's last step, had it been completed. -/
theorem RingState.LastLog.step {st : RingState cfg} {victim : Fin cfg.ringSize} {log : List Payload}
    (reachable : (ringNetwork cfg .totalOrder).Reachable st) (last : st.LastLog victim log)
    {entries : Fin cfg.ringSize → List Entry}
    (circulating : Circulating (View.initial cfg .totalOrder) [] st entries) :
    ∃ st', (ringNetwork cfg .totalOrder).Reachable st' ∧ ∃ entries',
      Circulating (View.initial cfg .totalOrder) [] st' entries' ∧
        log <+: (entries' victim).flatMap Entry.content ∧ ∀ p, p ≠ victim →
          st'.world.node p = st.world.node p ∧ entries' p = entries p := by
  have live : ∀ p : Fin cfg.ringSize, p.val ∉ st.dead := fun p =>
    (circulating.holds.alive p).mp (View.alive_initial _ p)
  rcases last with acted | ⟨entry, flying, receiver, acting⟩
  · refine ⟨st, reachable, entries, circulating, ?_, fun _ _ => ⟨rfl, rfl⟩⟩
    rwa [circulating.holds.coherent.logs victim (View.alive_initial _ victim), List.nil_append]
      at acted
  · obtain ⟨i, inside, here⟩ := List.getElem_of_mem flying
    have found : st.inflight[i]? = some entry := List.getElem?_eq_some_iff.mpr ⟨inside, here⟩
    have legal : RingAction.Legal st (.hop i) := ⟨entry, found, live _⟩
    have next := circulating.ring legal
    obtain ⟨_, _, -, -, hop⟩ := hop_eq found
    have world : (st.hop i).world = st.world.receive victim entry.2 := by
      rw [hop, receiver]
    refine ⟨st.hop i, reachable.take (a := .hop i) legal, _, next, ?_, fun p other => ⟨?_, ?_⟩⟩
    · have logs : (st.hop i).world.log victim = _ :=
        next.holds.coherent.logs victim (View.alive_initial _ victim)
      rw [world, List.nil_append] at logs
      rw [← logs]
      rwa [← st.world.act_log_self] at acting
    · rw [world]
      exact st.world.receive_node_of_ne victim other _
    · have elsewhere : st.delivered (.hop i) p = [] := by
        simp only [delivered, found]
        exact if_neg fun same => other (same.trans receiver)
      rw [elsewhere, List.append_nil]

/-! ### The survivors' logs -/

/-- What the survivors' logs hold in the end: some entries of the keys up to the boundary, with the
payloads that some survivor holds. -/
theorem Circulating.recovered {view : View cfg} {base : List Payload} {st : RingState cfg}
    {entries : Fin cfg.ringSize → List Entry} (circulating : Circulating view base st entries)
    (fair : view.Balanced) (victim : Fin cfg.ringSize) :
    ∃ (cargo : ClockKey → List Payload) (final : Fin cfg.ringSize → List Entry),
      (∀ p ∈ (st.halted false victim).members, ∀ key payloads,
        Carries (st.world.node p) (entries p) key payloads →
          view.Within (st.halted false victim).plan.boundary key ∧ payloads = cargo key) ∧
      (∀ key, cargo key ≠ [] → ∃ p ∈ (st.halted false victim).members,
        Carries (st.world.node p) (entries p) key (cargo key)) ∧
      ∀ p ∈ (st.halted false victim).members,
        Segment Prod.fst (view.Within (st.halted false victim).plan.boundary) (final p) ∧
        (∀ key, view.Within (st.halted false victim).plan.boundary key →
          (key, cargo key) ∈ final p) ∧
        (∀ entry ∈ final p, entry.2 = cargo entry.1) ∧
        (st.halted false victim).install.world.log p = base ++ (final p).flatMap Entry.content := by
  have covered := circulating.lapping.halted_covered fair false victim
  have suspended := circulating.holds.halt false victim covered
  obtain ⟨cargo, gathering, held⟩ := circulating.holds.gathering false victim covered
  refine ⟨cargo, fun p => entries p ++
      ((st.halted false victim).world.node p).applyEntries (st.halted false victim).plan,
    fun p member key payloads carries => ?_, held, fun p member => ?_⟩
  · have reporter := gathering.reporter p member
    have node : (st.halted false victim).world.node p =
      ((st.world.node p).setFrozen true).markCrashed victim := (halted_member member).1
    have seen : ∀ q, (st.world.node p).seenClock q ≤ (st.halted false victim).plan.boundary.get q := by
      intro q
      have known := Gathering.seen_le (st.halted false victim).world.node member q
      rwa [node] at known
    rcases carries with inside | ⟨train, found, rfl⟩
    · have isKey := reporter.segment.keys _ inside
      have reached := reporter.entry_seen inside
      rw [node] at reached
      exact ⟨⟨isKey, reached.trans (seen _)⟩, reporter.loads _ inside⟩
    · obtain ⟨isKey, -, reached, load⟩ := reporter.parked key train (by rw [node]; exact found)
      rw [node] at reached
      exact ⟨⟨isKey, reached.trans (seen _)⟩, load⟩
  · obtain ⟨segment, covers, loads, -, -⟩ := gathering.adopt member
    refine ⟨segment, fun key within => ?_, loads, suspended.log_install gathering member⟩
    obtain ⟨entry, inside, rfl⟩ := covers key within
    have same : entry = (entry.1, cargo entry.1) := Prod.ext rfl (loads entry inside)
    rwa [same] at inside

/-- **The victim's log survives exactly if each of its payloads does.** -/
theorem uniform_agreement {cfg : RingConfig} {st : RingState cfg} {victim : Fin cfg.ringSize}
    {log : List Payload} (reachable : (ringNetwork cfg .totalOrder).Reachable st)
    (last : st.LastLog victim log) : Recovers st victim log ↔ Survives st victim log := by
  obtain ⟨entries, circulating⟩ := ring_circulating reachable
  obtain ⟨st', reachable', entries', circulating', isPart, others⟩ := last.step reachable circulating
  have live : ∀ p : Fin cfg.ringSize, (View.initial cfg .totalOrder).Alive p :=
    fun p => View.alive_initial _ p
  have survivor : ∀ p, p ∈ (st.halted false victim).members ↔ p ≠ victim := fun p =>
    mem_halted.trans (and_iff_right ((circulating.holds.alive p).mp (live p)))
  obtain ⟨cargo, final, held, source, recovered⟩ :=
    circulating.recovered (View.balanced_initial .totalOrder) victim
  have logs : ∀ p, st.world.log p = (entries p).flatMap Entry.content := fun p =>
    (circulating.holds.coherent.logs p (live p)).trans (List.nil_append _)
  have full : ∀ entry : Entry, entry.content ≠ [] → entry.2 ≠ [] := by
    rintro ⟨key, payloads⟩ loaded rfl
    exact loaded (by simp [Entry.content, sortPayloads])
  constructor
  · intro recovers m inside
    obtain ⟨p, other⟩ : ∃ p : Fin cfg.ringSize, p ≠ victim := by
      have := Fin.nontrivial_iff_two_le.mpr cfg.two_le
      exact exists_ne victim
    obtain ⟨-, -, loads, ends⟩ := recovered p ((survivor p).mpr other)
    have found := (recovers p other).1 m inside
    rw [ends, List.nil_append] at found
    obtain ⟨entry, isFinal, inEntry⟩ := List.mem_flatMap.mp found
    have inCargo : m ∈ cargo entry.1 := loads entry isFinal ▸ mem_sortPayloads.mp inEntry
    obtain ⟨q, member, carries⟩ := source entry.1 (List.ne_nil_of_mem inCargo)
    refine ⟨q, (survivor q).mp member, carries.imp (fun delivered => ?_) ?_⟩
    · rw [logs]
      exact List.mem_flatMap.mpr ⟨_, delivered, mem_sortPayloads.mpr inCargo⟩
    · rintro ⟨train, parked, load⟩
      exact ⟨_, train, parked, load ▸ inCargo⟩
  · intro survives p other
    obtain ⟨ringEntries, invariant⟩ := ringInvariant_reachable (by decide) reachable'
    obtain ⟨segment, covers, loads, ends⟩ := recovered p ((survivor p).mpr other)
    have carried : ∀ q, q ≠ victim → ∀ key payloads,
        Carries (st.world.node q) (entries q) key payloads →
          Carries (st'.world.node q) (entries' q) key payloads := by
      intro q ne key payloads carries
      obtain ⟨node, same⟩ := others q ne
      rwa [node, same]
    -- an entry that shows in the log is held by a survivor
    have kept : ∀ entry ∈ entries' victim, (∃ m ∈ entry.content, m ∈ log) →
        ∃ q, q ≠ victim ∧ Carries (st.world.node q) (entries q) entry.1 entry.2 := by
      rintro ⟨key, payloads⟩ isEntry ⟨m, inEntry, inside⟩
      obtain ⟨q, ne, found⟩ := survives m inside
      obtain ⟨key', payloads', carries, inLoad⟩ : ∃ key' payloads',
          Carries (st.world.node q) (entries q) key' payloads' ∧ m ∈ payloads' := by
        rcases found with delivered | ⟨key', train, parked, aboard⟩
        · rw [logs] at delivered
          obtain ⟨entry', isEntry', inEntry'⟩ := List.mem_flatMap.mp delivered
          exact ⟨entry'.1, entry'.2, Or.inl isEntry', mem_sortPayloads.mp inEntry'⟩
        · exact ⟨key', train.payloads, Or.inr ⟨train, parked, rfl⟩, aboard⟩
      obtain ⟨-, t, emitted, -, rfl, rfl⟩ := circulating'.holds.source (live victim) (Or.inl isEntry)
      obtain ⟨-, t', emitted', -, rfl, rfl⟩ :=
        circulating'.holds.source (live q) (carried q ne _ _ carries)
      have same : t.key = t'.key := invariant.custody.oneKey t emitted t' emitted' m
        (mem_sortPayloads.mp inEntry) inLoad
      have load : t.payloads = t'.payloads := circulating'.holds.agree (live victim) (live q)
        (same ▸ Or.inl isEntry) (carried q ne _ _ carries)
      exact ⟨q, ne, same ▸ load ▸ carries⟩
    have part : log <+: (final p).flatMap Entry.content := by
      refine Segment.part_prefix Entry.content
        (circulating'.holds.coherent.replica victim (live victim)).segment.sorted segment.sorted
        isPart (fun entry isEntry shows => ?_) fun entry isEntry shows entry' isFinal loaded below => ?_
      · obtain ⟨q, ne, carries⟩ := kept entry isEntry shows
        obtain ⟨within, load⟩ := held q ((survivor q).mpr ne) _ _ carries
        exact ⟨_, covers entry.1 within, rfl, by rw [← load]⟩
      · have isKey := (segment.keys entry' isFinal).1
        obtain ⟨earlier, inside, same⟩ := (circulating'.holds.coherent.replica victim
          (live victim)).segment.closed entry isEntry entry'.1 isKey below
        have load := loads entry' isFinal
        obtain ⟨q, member, carries⟩ := source entry'.1 (load ▸ full entry' loaded)
        have mine : Carries (st'.world.node victim) (entries' victim) entry'.1 earlier.2 :=
          Or.inl (same ▸ inside)
        have equal := circulating'.holds.agree (live victim) (live q) mine
          (carried q ((survivor q).mp member) _ _ carries)
        refine ⟨earlier, inside, same, ?_⟩
        unfold Entry.content
        rw [equal, load]
    rw [ends, List.nil_append]
    exact ⟨fun m inside => part.subset inside, part⟩

/-- The train goes on to process 1 before process 0 crashes. -/
def passedState : RingState .triple :=
  (ringNetwork .triple .totalOrder).run (.initial .triple .totalOrder)
    (aloneRun ++ [.hop 0, .hop 0, .hop 0])

theorem uniform_agreement_triple : Recovers passedState 0 [⟨2, 0, [1]⟩] := by
  have reachable : (ringNetwork .triple .totalOrder).Reachable passedState :=
    Machine.reachable_run rfl (by decide +kernel)
  refine (uniform_agreement reachable (by decide +kernel)).mpr fun m inside => ?_
  rw [List.mem_singleton.mp inside]
  exact ⟨1, by decide +kernel, Or.inl (by decide +kernel)⟩

end TrainsRing
