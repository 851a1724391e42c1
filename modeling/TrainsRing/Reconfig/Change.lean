/-
**From one view to the next.**

When a view ends, its members are asked for their reports (`Suspended`); when they have applied the
plan they are all in one state (`Aligned`), which starts the next view.

* `ViewInvariant.agree` — members hold the same payloads for one key.
* `Covered` — a load that some member has delivered and another one misses is in some member's cache.
* `Suspended.install` — **all members end with one log**, each having extended its own.
* `Aligned.viewInvariant` — the next view starts with every key up to its floor settled.
* `Aligned.reissueAll` — the issuers reissue their trains.
-/

import TrainsRing.Reconfig.Views

namespace TrainsRing

variable {cfg : RingConfig} {view : View cfg} {base : List Payload}

open TrainsNode

/-! ### What the members of a view hold -/

/-- The node has delivered a key with some payloads, or has parked a train of it with them. -/
def Carries (node : TrainsNode cfg) (entries : List Entry) (key : ClockKey)
    (payloads : List Payload) : Prop :=
  (key, payloads) ∈ entries ∨ ∃ train, node.parked.get? key = some train ∧ train.payloads = payloads

/-- A load that one node has delivered and another one misses is in the cache of one of them. -/
def Covered {ι : Type} (view : View cfg) (members : List ι) (node : ι → TrainsNode cfg)
    (entries : ι → List Entry) : Prop :=
  ∀ key, view.Key key → ∀ p ∈ members, ∀ payloads, (key, payloads) ∈ entries p → payloads ≠ [] →
    (∃ q ∈ members, key ∉ (node q).delivery.doneKeys) →
      ∃ q ∈ members, ∃ held, (node q).deliveredCache.get? key = some held

namespace ViewInvariant

variable {st : RingState cfg} {entries : Fin cfg.ringSize → List Entry} {p q : Fin cfg.ringSize}
  {key : ClockKey} {payloads payloads' : List Payload}

/-- What a member holds came on a ready train. -/
theorem source (holds : ViewInvariant view base st entries) (alive : view.Alive p)
    (held : Carries (st.world.node p) (entries p) key payloads) : view.Key key ∧
      ∃ t ∈ st.world.emitted, view.Ready t.ackBits ∧ t.key = key ∧ t.payloads = payloads := by
  have replica := holds.coherent.replica p alive
  rcases held with member | ⟨train, found, rfl⟩
  · obtain ⟨t, emitted, ready, same⟩ := replica.cargo _ member
    exact ⟨replica.segment.keys _ member, t, emitted, ready, congrArg Prod.fst same,
      congrArg Prod.snd same⟩
  · obtain ⟨⟨same, emitted, ready⟩, isKey, -⟩ := replica.parked key train found
    exact ⟨isKey, train, emitted, ready, same, rfl⟩

/-- **Members hold the same payloads for one key.** -/
theorem agree (holds : ViewInvariant view base st entries) (left : view.Alive p)
    (right : view.Alive q) (held : Carries (st.world.node p) (entries p) key payloads)
    (held' : Carries (st.world.node q) (entries q) key payloads') : payloads = payloads' := by
  obtain ⟨isKey, t, emitted, ready, key_eq, rfl⟩ := holds.source left held
  obtain ⟨-, t', emitted', ready', key_eq', rfl⟩ := holds.source right held'
  by_cases same : p = q
  · subst same
    have replica := holds.coherent.replica p left
    -- one node has one entry or one parked train of a key
    rcases held with member | ⟨train, found, load⟩
    · rcases held' with member' | ⟨train', found', -⟩
      · have distinct : (entries p).Pairwise fun a b => a.1 ≠ b.1 :=
          replica.segment.sorted.imp ne_of_lt
        have entry := List.inj_on_of_nodup_map (List.pairwise_map.mpr distinct) member member' rfl
        exact congrArg Prod.snd entry
      · obtain ⟨-, -, fresh, -⟩ := replica.parked key train' found'
        exact absurd ((replica.done key).mpr (Or.inr ⟨_, member, rfl⟩)) fresh
    · rcases held' with member' | ⟨train', found', load'⟩
      · obtain ⟨-, -, fresh, -⟩ := replica.parked key train found
        exact absurd ((replica.done key).mpr (Or.inr ⟨_, member', rfl⟩)) fresh
      · rw [← load, ← load', Option.some.inj (found.symm.trans found')]
  · have other : ∃ r : Fin cfg.ringSize, view.Alive r ∧ r.val ≠ t.issuer := by
      by_cases issuer : p.val = t.issuer
      · exact ⟨q, right, fun clash => same (Fin.ext (issuer.trans clash.symm))⟩
      · exact ⟨p, left, issuer⟩
    exact holds.coherent.ledger.cargo_eq emitted emitted' (key_eq ▸ isKey)
      (key_eq.trans key_eq'.symm) ready ready' other

/-- What the members hold is a function of the key. -/
theorem exists_cargo (holds : ViewInvariant view base st entries)
    {members : List (Fin cfg.ringSize)} (alive : ∀ p ∈ members, view.Alive p) :
    ∃ cargo : ClockKey → List Payload,
      (∀ p ∈ members, ∀ key payloads, Carries (st.world.node p) (entries p) key payloads →
        payloads = cargo key) ∧
      (∀ key, cargo key ≠ [] → ∃ p ∈ members, Carries (st.world.node p) (entries p) key (cargo key)) ∧
      ∀ key, ((cargo key).map Payload.msgId).Nodup := by
  classical
  let held := fun key payloads => ∃ p ∈ members, Carries (st.world.node p) (entries p) key payloads
  let cargo := fun key => if carried : ∃ payloads, held key payloads then carried.choose else []
  have found : ∀ key, cargo key ≠ [] → held key (cargo key) := by
    intro key loaded
    by_cases carried : ∃ payloads, held key payloads
    · simp only [cargo, dif_pos carried]
      exact carried.choose_spec
    · exact absurd (dif_neg carried) loaded
  refine ⟨cargo, fun p member key payloads here => ?_, found, fun key => ?_⟩
  · have carried : ∃ payloads, held key payloads := ⟨payloads, p, member, here⟩
    obtain ⟨q, member', there⟩ : held key (cargo key) := by
      simp only [cargo, dif_pos carried]
      exact carried.choose_spec
    exact holds.agree (alive p member) (alive q member') here there
  · by_cases empty : cargo key = []
    · rw [empty]
      exact List.nodup_nil
    · obtain ⟨p, member, here⟩ := found key empty
      obtain ⟨isKey, t, emitted, -, same, load⟩ := holds.source (alive p member) here
      rw [← load]
      exact (holds.manifest.listed t emitted (same ▸ isKey)).1

/-- A member about to report. -/
theorem reporter (holds : ViewInvariant view base st entries) (alive : view.Alive p)
    {cargo : ClockKey → List Payload}
    (loads : ∀ key payloads, Carries (st.world.node p) (entries p) key payloads →
      payloads = cargo key) : Reporter view cargo (st.world.node p) (entries p) := by
  have replica := holds.coherent.replica p alive
  refine ⟨replica.floor, replica.segment, replica.done, fun entry member => ?_, replica.seenFloor,
    replica.seenIdle, replica.seenDone, fun key train found => ?_, (holds.larder p alive).cached, ?_⟩
  · exact loads entry.1 entry.2 (Or.inl member)
  · obtain ⟨-, isKey, fresh, seen⟩ := replica.parked key train found
    exact ⟨isKey, fresh, seen, loads key _ (Or.inr ⟨train, found, rfl⟩)⟩
  · rw [holds.named p]
    exact holds.idle p alive

end ViewInvariant

/-- Only these fields matter for a report. -/
theorem Reporter.congr {cargo : ClockKey → List Payload} {node after : TrainsNode cfg}
    {entries : List Entry} (reporter : Reporter view cargo node entries) (id : after.id = node.id)
    (clocks : after.clockState = node.clockState)
    (done : after.delivery.doneKeys = node.delivery.doneKeys) (parked : after.parked = node.parked)
    (cache : after.deliveredCache = node.deliveredCache)
    (clock : after.nextIssueClock = node.nextIssueClock)
    (floor : after.viewFloor = node.viewFloor) : Reporter view cargo after entries := by
  have seen : after.seenClock = node.seenClock := by
    funext q
    rw [seenClock, clocks, seenClock]
  exact {
    floor := floor ▸ reporter.floor
    segment := reporter.segment
    done := done ▸ reporter.done
    loads := reporter.loads
    seenFloor := seen ▸ reporter.seenFloor
    seenIdle := seen ▸ reporter.seenIdle
    seenDone := seen ▸ reporter.seenDone
    parked := by rw [parked, done, seen]; exact reporter.parked
    cached := cache ▸ reporter.cached
    issued := by rw [id, clock]; exact reporter.issued }

/-- **The reports of some nodes that hold one cargo**, which is covered. -/
theorem Gathering.of_covered {ι : Type} {cargo : ClockKey → List Payload} {members : List ι}
    {node : ι → TrainsNode cfg} {entries : ι → List Entry}
    (reporter : ∀ p ∈ members, Reporter view cargo (node p) (entries p))
    (distinct : ∀ key, ((cargo key).map Payload.msgId).Nodup)
    (held : ∀ key, cargo key ≠ [] → ∃ p ∈ members, Carries (node p) (entries p) key (cargo key))
    (covered : Covered view members node entries) : Gathering view cargo members node entries := by
  refine ⟨reporter, distinct, fun key isKey loaded missed => ?_⟩
  obtain ⟨p, member, delivered | ⟨train, found, load⟩⟩ := held key loaded
  · obtain ⟨q, member', payloads, cached⟩ :=
      covered key isKey p member _ delivered loaded missed
    have mine := ((reporter q member').cached key payloads cached).resolve_left
      (View.not_old_of_key isKey)
    have same : payloads = cargo key := (reporter q member').loads _ mine
    exact ⟨q, member', retransmittable_cached (same ▸ cached) loaded⟩
  · obtain ⟨payloads, has⟩ := retransmittable_parked found (load ▸ loaded)
    exact ⟨p, member, has.trans (congrArg some ((reporter p member).load_eq isKey has))⟩

/-! ### The start of a view -/

/-- All members have installed the same view and have the same log. -/
structure Aligned (view : View cfg) (base : List Payload) (st : RingState cfg) : Prop where
  mode : view.mode = .totalOrder
  alive : ∀ p : Fin cfg.ringSize, view.Alive p ↔ p.val ∉ st.dead
  named : st.world.Named
  modes : ∀ p : Fin cfg.ringSize, view.Alive p →
    (st.world.node p).delivery.mode = .totalOrder
  crashed : ∀ p : Fin cfg.ringSize, view.Alive p →
    (st.world.node p).delivery.crashedBits = view.crashed
  installed : ∀ p : Fin cfg.ringSize, view.Alive p → Installed view.floor (st.world.node p)
  logs : ∀ p : Fin cfg.ringSize, view.Alive p → st.world.log p = base
  queued : ∀ p : Fin cfg.ringSize, view.Alive p → ∀ m ∈ (st.world.node p).pending,
    m.sender = p.val ∧ m.msgId ∈ (st.world.node p).broadcastSeen
  distinct : ∀ p : Fin cfg.ringSize, view.Alive p →
    ((st.world.node p).pending.map Payload.msgId).Nodup
  issuers : ∀ t ∈ st.world.emitted, t.issuer < cfg.numTrains
  fresh : ∀ t ∈ st.world.emitted, view.Key t.key → Listed cfg t ∧
    ∀ q : Fin cfg.ringSize, view.Alive q → q.val ≠ t.issuer → t.isAckedBy q = false
  flying : ∀ e ∈ st.inflight, e.2 ∈ st.world.emitted
  sent : ∀ e ∈ st.inflight, e.1.val ∉ st.dead → view.floor.get e.2.issuer < e.2.clock →
    e.2.issuer = e.1.val ∧ ∀ q, q ≠ e.1 → e.2.isAckedBy q = false
  idle : ∀ p : Fin cfg.ringSize, view.Alive p → ¬ view.Issuer p →
    (st.world.node p).nextIssueClock ≤ view.floor.get p + 1

/-- A node that has installed a view has delivered nothing in it. -/
theorem Installed.replica {Source : Train → Prop} {node : TrainsNode cfg}
    (installed : Installed view.floor node) (mode : node.delivery.mode = view.mode)
    (crashed : node.delivery.crashedBits = view.crashed) : Replica view Source node [] where
  mode := mode
  crashed := crashed
  floor := installed.floor
  unfrozen := installed.unfrozen
  segment := Segment.nil
  done := fun key => by
    rw [installed.done]
    simp [View.Old]
  cargo := fun _ member => absurd member List.not_mem_nil
  seenFloor := fun q => (installed.seen q).ge
  seenIdle := fun q _ => installed.seen q
  seenDone := fun _ member => absurd member List.not_mem_nil
  parked := fun key train found => by
    rw [installed.parked] at found
    cases found

theorem Aligned.viewInvariant {st : RingState cfg} (aligned : Aligned view base st) :
    ViewInvariant view base st fun _ => [] where
  mode := aligned.mode
  alive := aligned.alive
  named := aligned.named
  coherent := {
    ledger := {
      issuers := aligned.issuers
      acks := fun t member isKey q alive foreign acked => by
        rw [(aligned.fresh t member isKey).2 q alive foreign] at acked
        cases acked
      cargo := fun t member _ _ isKey _ _ shared => by
        obtain ⟨q, alive, foreign, acked⟩ := shared
        rw [(aligned.fresh t member isKey).2 q alive foreign] at acked
        cases acked }
    replica := fun p alive => (aligned.installed p alive).replica
      ((aligned.modes p alive).trans aligned.mode.symm) (aligned.crashed p alive)
    drained := fun p alive key train smallest => by
      rw [OrdMap.min?_eq_none.mpr (aligned.installed p alive).parked] at smallest
      cases smallest
    logs := fun p alive => (aligned.logs p alive).trans (List.append_nil _).symm }
  larder := fun p alive => {
    cached := fun key payloads found => Or.inl ((aligned.installed p alive).cached key payloads found)
    retained := fun _ member => absurd member List.not_mem_nil }
  manifest := ⟨aligned.queued, aligned.distinct, fun t member isKey =>
    (aligned.fresh t member isKey).1⟩
  flying := aligned.flying
  known := fun e member live above => by
    rw [(aligned.sent e member live above).1]
    exact (aligned.alive e.1).mpr live
  sent := fun e member live => by
    rcases le_or_gt e.2.clock (view.floor.get e.2.issuer) with low | above
    · exact Or.inl (low.trans
        ((aligned.installed e.1 ((aligned.alive e.1).mpr live)).seen _).ge)
    · exact Or.inr (aligned.sent e member live above)
  idle := aligned.idle

/-- The members of a view have logs that are prefixes of one another. -/
theorem ViewInvariant.comparable {st : RingState cfg} {entries : Fin cfg.ringSize → List Entry}
    (holds : ViewInvariant view base st entries) {p q : Fin cfg.ringSize} (left : p.val ∉ st.dead)
    (right : q.val ∉ st.dead) :
    st.world.log p <+: st.world.log q ∨ st.world.log q <+: st.world.log p :=
  holds.coherent.comparable ((holds.alive p).mpr left) ((holds.alive q).mpr right)

/-- At the start of a view the members have one log. -/
theorem ViewInvariant.fresh_log {st : RingState cfg}
    (holds : ViewInvariant view base st fun _ => []) {p : Fin cfg.ringSize}
    (inUse : p.val ∉ st.dead) : st.world.log p = base :=
  (holds.coherent.logs p ((holds.alive p).mpr inUse)).trans (List.append_nil _)

/-- **The issuers reissue**: the view has begun. -/
theorem ViewInvariant.reissueAll {st : RingState cfg}
    (holds : ViewInvariant view base st fun _ => []) :
    ViewInvariant view base st.reissueAll fun _ => [] := by
  have general : ∀ (issuers : List (Fin cfg.ringSize)) (st' : RingState cfg),
      (∀ p ∈ issuers, p.val < cfg.numTrains ∧ p.val ∉ st'.dead) →
      ViewInvariant view base st' (fun _ => []) →
      ViewInvariant view base (issuers.foldl RingState.reissue st') fun _ => [] := by
    intro issuers
    induction issuers with
    | nil => exact fun _ _ holds => holds
    | cons p rest ih =>
      intro st' legal holds
      obtain ⟨issues, live⟩ := legal p List.mem_cons_self
      have same : Function.update (fun _ : Fin cfg.ringSize => ([] : List Entry)) p ([] ++ []) =
          fun _ => [] := by simp
      have started := holds.start issues live
      rw [same] at started
      exact ih (st'.start p) (fun q later => legal q (List.mem_cons_of_mem _ later)) started
  refine general _ st (fun p member => ?_) holds
  obtain ⟨inUse, issues⟩ := List.mem_filter.mp member
  exact ⟨by simpa using issues, RingState.mem_members.mp inUse⟩

/-! ### The end of a view -/

/-- The members of the next view are about to report. They hold what they have of the old view, and
a train above the boundary is one that no member has acked but its issuer. -/
structure Suspended (view : View cfg) (base : List Payload) (st : RingState cfg)
    (entries : Fin cfg.ringSize → List Entry) : Prop where
  gathering : ∃ cargo, Gathering view cargo st.members st.world.node entries
  named : st.world.Named
  modes : ∀ p ∈ st.members, (st.world.node p).delivery.mode = .totalOrder
  logs : ∀ p ∈ st.members, st.world.log p = base ++ (entries p).flatMap Entry.content
  queued : ∀ p ∈ st.members, ∀ m ∈ (st.world.node p).pending,
    m.sender = p.val ∧ m.msgId ∈ (st.world.node p).broadcastSeen
  distinct : ∀ p ∈ st.members, ((st.world.node p).pending.map Payload.msgId).Nodup
  issuers : ∀ t ∈ st.world.emitted, t.issuer < cfg.numTrains
  fresh : ∀ t ∈ st.world.emitted, t.issuer ∉ st.dead → st.plan.boundary.get t.issuer < t.clock →
    Listed cfg t ∧ ∀ q ∈ st.members, q.val ≠ t.issuer → t.isAckedBy q = false
  flying : ∀ e ∈ st.inflight, e.2 ∈ st.world.emitted
  sent : ∀ e ∈ st.inflight, e.1.val ∉ st.dead → st.plan.boundary.get e.2.issuer < e.2.clock →
    e.2.issuer = e.1.val ∧ ∀ q, q ≠ e.1 → e.2.isAckedBy q = false
  idle : ∀ p ∈ st.members, cfg.numTrains ≤ p.val →
    (st.world.node p).nextIssueClock ≤ st.plan.boundary.get p + 1

/-- Applying a plan forgets nothing recorded. -/
theorem applyRecovery_noted (node : TrainsNode cfg) (plan : RecoveryPlan cfg) {id : Nat × Nat}
    (seen : id ∈ node.broadcastSeen) : id ∈ (node.applyRecovery plan).1.broadcastSeen := by
  have loop : ∀ (rest : List (ClockKey × RecoveryAction)) (state : TrainsNode cfg × List Output),
      id ∈ state.1.broadcastSeen → id ∈ (rest.foldl applyAction state).1.broadcastSeen := by
    intro rest
    induction rest with
    | nil => exact fun _ member => member
    | cons entry rest ih =>
      intro state member
      refine ih _ ?_
      rw [applyAction_eq]
      dsimp only
      split_ifs with done
      · exact member
      · rw [(deliverNow_frame _ _ _).broadcastSeen]
        exact mem_noteSeen _ _ member
  obtain ⟨delivered, run, -, -⟩ :=
    drainParked_spec ((plan.actions.entries.foldl applyAction (node, [])).1.installView plan)
  show id ∈ ((plan.actions.entries.foldl applyAction (node, [])).1.installView
    plan).drainParked.1.broadcastSeen
  rw [run.frame.broadcastSeen]
  exact loop plan.actions.entries (node, []) seen

namespace Suspended

variable {st : RingState cfg} {entries : Fin cfg.ringSize → List Entry}

/-- What a member's log is when it has applied the plan. -/
theorem log_install (suspended : Suspended view base st entries) {cargo : ClockKey → List Payload}
    (gathering : Gathering view cargo st.members st.world.node entries) {p : Fin cfg.ringSize}
    (member : p ∈ st.members) : st.install.world.log p =
      base ++ (entries p ++ (st.world.node p).applyEntries st.plan).flatMap Entry.content := by
  obtain ⟨-, -, -, emits, -⟩ := gathering.adopt member
  have appended : st.install.world.log p =
      st.world.log p ++ deliveries ((st.world.node p).applyRecovery st.plan).2 :=
    (st.world.each_of_mem (fun node => node.applyRecovery st.plan) st.nodup_members member).2
  rw [appended, show deliveries ((st.world.node p).applyRecovery st.plan).2 = _ from emits.1,
    suspended.logs p member, List.append_assoc, List.flatMap_append]
  rfl

/-- **All members apply the plan**: they end with one log, each having extended its own, and nothing
of the old view is left in them. -/
theorem install (suspended : Suspended view base st entries) :
    ∃ log, ∀ p ∈ st.members, st.install.world.log p = log ∧ st.world.log p <+: log ∧
      Installed st.plan.boundary (st.install.world.node p) := by
  obtain ⟨cargo, gathering⟩ := suspended.gathering
  have result := fun p (member : p ∈ st.members) =>
    st.world.each_of_mem (fun node => node.applyRecovery st.plan) st.nodup_members member
  have adopted := fun p (member : p ∈ st.members) => gathering.adopt member
  have log := fun p (member : p ∈ st.members) => suspended.log_install gathering member
  have same : ∀ p ∈ st.members, ∀ q ∈ st.members,
      st.install.world.log p = st.install.world.log q := by
    intro p member q member'
    obtain ⟨segment, covers, loads, -, -⟩ := adopted p member
    obtain ⟨segment', covers', loads', -, -⟩ := adopted q member'
    rw [log p member, log q member']
    congr 1
    refine segment.contents_eq Entry.content segment' (fun a inside b inside' key => ?_)
      (fun a inside => covers' a.1 (segment.keys a inside))
      fun b inside => covers b.1 (segment'.keys b inside)
    unfold Entry.content
    rw [loads a inside, loads' b inside', key]
  have each : ∀ p ∈ st.members, st.world.log p <+: st.install.world.log p ∧
      Installed st.plan.boundary (st.install.world.node p) := by
    intro p member
    obtain ⟨-, -, -, -, installed⟩ := adopted p member
    obtain ⟨node, appended⟩ := result p member
    refine ⟨appended ▸ List.prefix_append _ _, ?_⟩
    show Installed _ ((st.world.each st.members fun node => node.applyRecovery st.plan).node p)
    rw [node]
    exact installed
  by_cases inhabited : ∃ p, p ∈ st.members
  · obtain ⟨p, member⟩ := inhabited
    refine ⟨st.install.world.log p, fun q member' => ?_⟩
    have equal := same q member' p member
    exact ⟨equal, equal ▸ (each q member').1, (each q member').2⟩
  · exact ⟨[], fun p member => absurd ⟨p, member⟩ inhabited⟩

/-- Nobody sends a train when the plan is applied. -/
theorem install_emitted (suspended : Suspended view base st entries) :
    st.install.world.emitted = st.world.emitted := by
  obtain ⟨cargo, gathering⟩ := suspended.gathering
  refine World.each_quiet _ _ st.nodup_members fun p member => ?_
  obtain ⟨-, -, -, emits, -⟩ := gathering.adopt member
  exact emits.2

/-- The plan's boundary is that of the reports. -/
theorem floor_le (suspended : Suspended view base st entries) {p : Fin cfg.ringSize}
    (member : p ∈ st.members) (q : Nat) : view.floor.get q ≤ st.plan.boundary.get q := by
  obtain ⟨cargo, gathering⟩ := suspended.gathering
  exact gathering.floor_le member q

/-- **The members are aligned** once they also agree on who has crashed. -/
theorem aligned (suspended : Suspended view base st entries) (next : View cfg) (st' : RingState cfg)
    (mode : next.mode = .totalOrder) (floor : next.floor = st.plan.boundary)
    (alive : ∀ p : Fin cfg.ringSize, next.Alive p ↔ p.val ∉ st.dead) (dead : st'.dead = st.dead)
    (inflight : st'.inflight = st.inflight) (named : st'.world.Named)
    (emitted : st'.world.emitted = st.world.emitted)
    (logs : ∀ p ∈ st.members, st'.world.log p = st.install.world.log p)
    (nodes : ∀ p ∈ st.members, st'.world.node p =
      { st.install.world.node p with
        delivery := { (st.install.world.node p).delivery with crashedBits := next.crashed } }) :
    ∃ log, Aligned next log st' ∧ ∀ p ∈ st.members, st.world.log p <+: log := by
  obtain ⟨log, installed⟩ := suspended.install
  have member : ∀ p : Fin cfg.ringSize, next.Alive p → p ∈ st.members := fun p live =>
    RingState.mem_members.mpr ((alive p).mp live)
  have applied : ∀ p ∈ st.members, Applied st.plan (st.world.node p) (st.install.world.node p) :=
    fun p inside => st.install_applied inside
  have noted : ∀ p ∈ st.members, ∀ id ∈ (st.world.node p).broadcastSeen,
      id ∈ (st.install.world.node p).broadcastSeen := by
    intro p inside id seen
    rw [st.install_node inside]
    exact applyRecovery_noted _ _ seen
  refine ⟨log, ⟨mode, fun p => dead ▸ alive p, named, fun p live => ?_, fun p live => ?_,
    fun p live => ?_, fun p live => ?_, fun p live m waiting => ?_, fun p live => ?_,
    fun t isOut => suspended.issuers t (emitted ▸ isOut), fun t isOut isKey => ?_, fun e flying => ?_,
    fun e flying live above => ?_, fun p live other => ?_⟩, fun p inside => (installed p inside).2.1⟩
  · rw [nodes p (member p live)]
    exact (applied p (member p live)).mode.trans (suspended.modes p (member p live))
  · rw [nodes p (member p live)]
  · obtain ⟨-, -, floors, unfrozen, done, seen, parked, cached⟩ := installed p (member p live)
    rw [nodes p (member p live), floor]
    exact ⟨floors, unfrozen, done, seen, parked, cached⟩
  · rw [logs p (member p live)]
    exact (installed p (member p live)).1
  · rw [nodes p (member p live)] at waiting ⊢
    have old : m ∈ (st.world.node p).pending := (applied p (member p live)).pending ▸ waiting
    exact (suspended.queued p (member p live) m old).imp_right (noted p (member p live) _)
  · rw [nodes p (member p live)]
    show ((st.install.world.node p).pending.map Payload.msgId).Nodup
    rw [(applied p (member p live)).pending]
    exact suspended.distinct p (member p live)
  · obtain ⟨issuer, above⟩ := isKey
    rw [floor] at above
    obtain ⟨listed, unacked⟩ := suspended.fresh t (emitted ▸ isOut)
      ((alive ⟨t.issuer, issuer.inside⟩).mp issuer.2) above
    exact ⟨listed, fun q live foreign => unacked q (member q live) foreign⟩
  · rw [emitted]
    exact suspended.flying e (inflight ▸ flying)
  · rw [floor] at above
    exact suspended.sent e (inflight ▸ flying) (dead ▸ live) above
  · have idle : cfg.numTrains ≤ p.val := not_lt.mp fun issues => other ⟨issues, live⟩
    have before := suspended.idle p (member p live) idle
    have step := satSucc_le (st.plan.boundary.get p)
    rw [nodes p (member p live), floor]
    show (st.install.world.node p).nextIssueClock ≤ _
    rw [(applied p (member p live)).nextIssueClock, RecoveryPlan.reissueClock, suspended.named p]
    exact max_le before step

end Suspended

end TrainsRing
