/-
**The laps go on from view to view.**

* `Lapping` — a ring in some view with its trains on their laps.
* `Lapping.ring`, `Lapping.exclude` — the steps keep it, where no late train of a victim gets in.
* `Tokens.done_below` — **members never drift apart by more than one clock**: a member that has a key
  done finds every key of a smaller clock done at all members.
* `Larder.held_of_last` — a delivered key of the last clock done is still cached.
* `Lapping.halted_covered` — so what a survivor misses, the caches still hold.
* `Circulating` — the same without senders out of use; `Circulating.ring`, `Circulating.exclude` keep it.
-/

import TrainsRing.Reconfig.Renewal

namespace TrainsRing

variable {cfg : RingConfig} {view : View cfg} {base : List Payload}

open TrainsNode RingState

/-- A ring in some view whose trains are on their laps. -/
structure Lapping (view : View cfg) (base : List Payload) (st : RingState cfg)
    (entries : Fin cfg.ringSize → List Entry) : Prop where
  holds : ViewInvariant view base st entries
  tokens : Tokens view st
  clocks : Clocks view st.world
  bounded : ∀ q, view.floor.get q ≤ u64Max

/-! ### Members never drift apart -/

/-- **A key done at one member leaves nothing of a smaller clock undone at another.** -/
theorem Tokens.done_below {st : RingState cfg} {entries : Fin cfg.ringSize → List Entry}
    (tokens : Tokens view st) (coherent : Coherent view base st.world entries)
    (clocks : Clocks view st.world) {p q : Fin cfg.ringSize} (left : view.Alive p)
    (right : view.Alive q) {later : ClockKey} (laterKey : view.Key later)
    (done : later ∈ (st.world.node p).delivery.doneKeys) {key : ClockKey} (isKey : view.Key key)
    (below : key.clock < later.clock) : key ∈ (st.world.node q).delivery.doneKeys := by
  have replica := coherent.replica p left
  refine (coherent.replica q right).done_of_settled (coherent.drained q right) (later.clock - 1)
    (fun other otherKey bounded => ?_) isKey (by omega)
  have low : view.floor.get other.issuer < other.clock := otherKey.2
  have seen : later.clock ≤ (st.world.node p).seenClock other.issuer :=
    replica.seen_of_done laterKey done otherKey.1
  rcases clocks.source p left other.issuer otherKey.1 with floor | stored
  · omega
  · obtain ⟨t, emitted, tKey, same, clock⟩ := stored
    rw [← same] at low
    have settled := tokens.passed t emitted tKey other.clock low (by omega) q
      ((tokens.alive q).mp right)
    rwa [same] at settled

/-- **What is delivered and of the last clock done is cached**: the keys above it fit into the
cache. -/
theorem Larder.held_of_last {Source : Train → Prop} {node : TrainsNode cfg} {entries : List Entry}
    (larder : Larder view node entries) (replica : Replica view Source node entries)
    (fair : view.Balanced) {key : ClockKey} {payloads : List Payload} (isKey : view.Key key)
    (inside : (key, payloads) ∈ entries) (loaded : payloads ≠ [])
    (last : ∀ other, view.Key other → other ∈ node.delivery.doneKeys → other.clock ≤ key.clock) :
    node.deliveredCache.get? key = some payloads := by
  refine (larder.retained _ inside loaded).held (level cfg key.clock) ?_
    fun other held found above => ?_
  · have small := cfg.le_thirty
    rw [length_level]
    unfold deliveredCacheCap
    omega
  · have atLeast : key.clock ≤ other.clock := ClockKey.clock_le_of_le above.le
    rcases larder.cached other held found with ⟨otherInside, -, old⟩ | entry
    · have near := fair other.issuer key.issuer isKey.1
      have low : view.floor.get key.issuer < key.clock := isKey.2
      exact mem_level otherInside (by omega)
    · have otherKey := replica.segment.keys _ entry
      have done : other ∈ node.delivery.doneKeys :=
        (replica.done other).mpr (Or.inr ⟨_, entry, rfl⟩)
      exact mem_level otherKey.1.inside (le_antisymm (last other otherKey done) atLeast)

namespace Lapping

variable {st : RingState cfg} {entries : Fin cfg.ringSize → List Entry}

theorem initial (cfg : RingConfig) : Lapping (View.initial cfg .totalOrder) []
    (RingState.initial cfg .totalOrder) fun _ => [] where
  holds := ViewInvariant.initial cfg
  tokens := Tokens.initial .totalOrder
  clocks := Clocks.initial .totalOrder
  bounded := fun q => (Slots.get_zero q).trans_le (Nat.zero_le _)

variable (lapping : Lapping view base st entries)

include lapping

/-- **A step of the ring in one view.** -/
theorem ring {action : RingAction cfg} (legal : action.Legal st) (fences : view.Fences st action) :
    Lapping view base (st.apply action) fun p => entries p ++ st.delivered action p := by
  have holds := lapping.holds.ring legal fences
  have named := lapping.holds.named
  cases action with
  | broadcast p data =>
    exact ⟨holds, lapping.tokens.broadcast p data, lapping.clocks.broadcast p data,
      lapping.bounded⟩
  | start p =>
    have issuer : view.Issuer p := ⟨legal.1, (lapping.holds.alive p).mpr legal.2.1⟩
    obtain ⟨tokens, clocks⟩ := lapping.tokens.start named lapping.clocks issuer legal.2.2
    exact ⟨holds, tokens, clocks, lapping.bounded⟩
  | hop i =>
    obtain ⟨⟨s, t⟩, here, receiver⟩ := legal
    obtain ⟨tokens, clocks⟩ := lapping.tokens.hop lapping.holds.coherent named
      lapping.clocks lapping.holds.complete here receiver (fences _ here)
    exact ⟨holds, tokens, clocks, lapping.bounded⟩

/-- A key done at one member leaves nothing of a smaller clock undone at another. -/
theorem done_below {p q : Fin cfg.ringSize} (left : view.Alive p) (right : view.Alive q)
    {later : ClockKey} (laterKey : view.Key later)
    (done : later ∈ (st.world.node p).delivery.doneKeys) {key : ClockKey} (isKey : view.Key key)
    (below : key.clock < later.clock) : key ∈ (st.world.node q).delivery.doneKeys :=
  lapping.tokens.done_below lapping.holds.coherent lapping.clocks left right laterKey done isKey
    below

theorem seen_le_max {p : Fin cfg.ringSize} (alive : view.Alive p) (q : Nat) :
    (st.world.node p).seenClock q ≤ u64Max := by
  by_cases issuer : view.Issuer q
  · rcases lapping.clocks.seen_le_max alive issuer with bound | floor
    · exact bound
    · exact floor.trans_le (lapping.bounded q)
  · rw [(lapping.holds.coherent.replica p alive).seenIdle q issuer]
    exact lapping.bounded q

theorem stamp_le_max {p : Fin cfg.ringSize} (alive : view.Alive p) :
    (st.world.node p).nextIssueClock ≤ u64Max + 1 := by
  by_cases issuer : view.Issuer p
  · have bound := (lapping.clocks.bounds p issuer).2
    rw [World.issueClock_eq] at bound
    omega
  · exact (lapping.holds.idle p alive issuer).trans
      (Nat.add_le_add_right (lapping.bounded p) 1)

/-- **What another member misses is cached**: the keys above it fit into the cache. -/
theorem cached_of_missed (fair : view.Balanced) {p q : Fin cfg.ringSize} (left : view.Alive p)
    (right : view.Alive q) {key : ClockKey} {payloads : List Payload} (isKey : view.Key key)
    (inside : (key, payloads) ∈ entries p) (loaded : payloads ≠ [])
    (missing : key ∉ (st.world.node q).delivery.doneKeys) :
    (st.world.node p).deliveredCache.get? key = some payloads := by
  have replica := lapping.holds.coherent.replica p left
  refine (lapping.holds.larder p left).held_of_last replica fair isKey inside loaded
    fun other otherKey done => not_lt.mp fun later => ?_
  exact missing (lapping.done_below left right otherKey done isKey later)

theorem halted_covered (fair : view.Balanced) (late : Bool) (victim : Fin cfg.ringSize) :
    Covered view (st.halted late victim).members st.world.node entries := by
  intro key isKey p member payloads inside loaded ⟨q, member', missing⟩
  have left : view.Alive p := (lapping.holds.alive p).mpr (mem_halted.mp member).1
  have right : view.Alive q := (lapping.holds.alive q).mpr (mem_halted.mp member').1
  exact ⟨p, member, payloads,
    lapping.cached_of_missed fair left right isKey inside loaded missing⟩

/-! ### View changes -/

/-- A train above the boundary bears the last clock, as its issuer reports all it has stamped. -/
theorem left_over {reporters : List (Fin cfg.ringSize)} {node : Fin cfg.ringSize → TrainsNode cfg}
    {t : Train} (emitted : t ∈ st.world.emitted) (isKey : view.Key t.key)
    (reports : ⟨t.issuer, isKey.1.inside⟩ ∈ reporters)
    (same : ((node ⟨t.issuer, isKey.1.inside⟩).id = t.issuer) ∧
      (node ⟨t.issuer, isKey.1.inside⟩).nextIssueClock = st.world.issueClock t.issuer)
    (above : (boundaryOf (reportsOf reporters node)).get t.issuer < t.clock) :
    t.clock = u64Max ∧ u64Max ≤ (boundaryOf (reportsOf reporters node)).get t.issuer + 1 := by
  have known := Gathering.issued_le node reports
  rw [same.1, same.2] at known
  have top := lapping.clocks.bounded t emitted isKey
  rcases lapping.clocks.issued t emitted isKey with low | full
  · omega
  · omega

/-- **The exclude sequence starts the next view**, with its trains on their laps. -/
theorem exclude (late : Bool) (victim : Fin cfg.ringSize)
    (covered : Covered view (st.halted late victim).members st.world.node entries) :
    ∃ log, Lapping (view.without victim (st.halted late victim).plan.boundary) log
        (st.exclude late victim) (fun _ => []) ∧
      ∀ p ∈ (st.halted late victim).members, st.world.log p <+: log := by
  have suspended := lapping.holds.halt late victim covered
  obtain ⟨log, aligned, grown⟩ := lapping.holds.installed late victim covered
  have alive : ∀ p ∈ (st.halted late victim).members, view.Alive p := fun p member =>
    (lapping.holds.alive p).mpr (mem_halted.mp member).1
  have node : ∀ p ∈ (st.halted late victim).members, (st.halted late victim).world.node p =
      ((st.world.node p).setFrozen true).markCrashed victim := fun p member => (halted_member member).1
  have rested := suspended.rested aligned rfl rfl suspended.install_emitted (fun _ _ => rfl)
    (fun p member => ?_) (fun p member => ?_) (fun p member issues => ?_) fun t isOut issuerAlive above => ?_
  · refine ⟨log, ⟨aligned.viewInvariant.reissueAll, rested.tokens,
      rested.clocks, rested.bounded⟩, grown⟩
  · rw [node p member]
    exact lapping.seen_le_max (alive p member)
  · rw [node p member]
    exact lapping.stamp_le_max (alive p member)
  · rw [node p member]
    exact (lapping.clocks.bounds p ⟨issues, alive p member⟩).2.trans_eq' (st.world.issueClock_eq p)
  · rw [halted_emitted] at isOut
    have trains := lapping.holds.coherent.ledger.issuers t isOut
    have inside : t.issuer < cfg.ringSize := lt_of_lt_of_le trains cfg.trains_le
    have member : ⟨t.issuer, inside⟩ ∈ (st.halted late victim).members := mem_members.mpr issuerAlive
    have isKey : view.Key t.key := ⟨⟨trains, alive _ member⟩,
      lt_of_le_of_lt (suspended.floor_le member t.issuer) above⟩
    refine lapping.left_over isOut isKey member ⟨?_, ?_⟩ above
    · exact suspended.named _
    · rw [node _ member]
      exact (st.world.issueClock_eq ⟨t.issuer, inside⟩).symm

/-! ### No issuer lags -/

/-- No member has seen a clock beyond that of an issuer. -/
theorem seen_near (fair : view.Balanced) {p : Fin cfg.ringSize} (alive : view.Alive p) {i : Nat}
    (issuer : view.Issuer i) (q : Nat) :
    (st.world.node p).seenClock q ≤ st.world.issueClock i := by
  have near := fair q i issuer
  have above := lapping.clocks.above i issuer
  have top := lapping.seen_le_max alive q
  by_cases known : view.Issuer q
  · rcases lapping.clocks.source p alive q known with floor | ⟨t, emitted, isKey, -, clock⟩
    · omega
    · have level := lapping.clocks.level fair t emitted isKey i issuer
      omega
  · have floor := (lapping.holds.coherent.replica p alive).seenIdle q known
    omega

/-- No member stamps a clock more than one beyond that of an issuer. -/
theorem stamp_near (fair : view.Balanced) {p : Fin cfg.ringSize} (alive : view.Alive p) {i : Nat}
    (issuer : view.Issuer i) :
    (st.world.node p).nextIssueClock ≤ st.world.issueClock i + 1 := by
  have near := fair p i issuer
  have above := lapping.clocks.above i issuer
  have top := lapping.stamp_le_max alive
  by_cases known : view.Issuer p
  · have even := lapping.clocks.even fair p i known issuer
    rwa [World.issueClock_eq] at even
  · have idle := lapping.holds.idle p alive known
    omega

/-- **The view after an exclude sequence is balanced.** -/
theorem balanced_without (fair : view.Balanced) (late : Bool) (victim : Fin cfg.ringSize) :
    (view.without victim (st.halted late victim).plan.boundary).Balanced := by
  intro q i issuer
  have inside := issuer.inside
  obtain ⟨live, other⟩ := (View.alive_without inside).mp issuer.2
  have old : view.Issuer i := ⟨issuer.1, live⟩
  have member : (⟨i, inside⟩ : Fin cfg.ringSize) ∈ (st.halted late victim).members :=
    mem_halted.mpr ⟨(lapping.holds.alive ⟨i, inside⟩).mp live, fun same =>
      other (congrArg Fin.val same)⟩
  have node : ∀ p ∈ (st.halted late victim).members, (st.halted late victim).world.node p =
      ((st.world.node p).setFrozen true).markCrashed victim := fun p member => (halted_member member).1
  have stamped : st.world.issueClock i - 1 ≤ (st.halted late victim).plan.boundary.get i := by
    have known := stamped_le (halted_named lapping.holds.named late victim) member
    rw [node _ member] at known
    exact (congrArg (· - 1) (st.world.issueClock_eq ⟨i, inside⟩)).trans_le known
  have first := (lapping.clocks.bounds i old).1
  show (st.halted late victim).plan.boundary.get q ≤
    (st.halted late victim).plan.boundary.get i + 1
  by_cases slot : q < cfg.ringSize
  · refine Gathering.boundary_le slot (fun p member' => ?_) fun p member' _ => ?_
    · have near := lapping.seen_near fair
        ((lapping.holds.alive p).mpr (mem_halted.mp member').1) old q
      rw [node p member']
      show (st.world.node p).seenClock q ≤ _
      omega
    · have near := lapping.stamp_near fair
        ((lapping.holds.alive p).mpr (mem_halted.mp member').1) old
      rw [node p member']
      show (st.world.node p).nextIssueClock ≤ _
      omega
  · rw [Slots.get_outside _ (not_lt.mp slot)]
    exact Nat.zero_le _

end Lapping

/-- A ring whose trains are on their laps, none of them sent by a process out of use. -/
structure Circulating (view : View cfg) (base : List Payload) (st : RingState cfg)
    (entries : Fin cfg.ringSize → List Entry) : Prop where
  holds : ViewInvariant view base st entries
  clean : st.Clean
  tokens : Tokens view st
  clocks : Clocks view st.world
  bounded : ∀ q, view.floor.get q ≤ u64Max

namespace Circulating

variable {st : RingState cfg} {entries : Fin cfg.ringSize → List Entry}

theorem of_lapping (lapping : Lapping view base st entries) (clean : st.Clean) :
    Circulating view base st entries :=
  ⟨lapping.holds, clean, lapping.tokens, lapping.clocks, lapping.bounded⟩

theorem initial (cfg : RingConfig) : Circulating (View.initial cfg .totalOrder) []
    (RingState.initial cfg .totalOrder) fun _ => [] :=
  of_lapping (Lapping.initial cfg) fun _ member => absurd member List.not_mem_nil

variable (circulating : Circulating view base st entries)

include circulating

theorem lapping : Lapping view base st entries :=
  ⟨circulating.holds, circulating.tokens, circulating.clocks, circulating.bounded⟩

/-- **A step of the ring in one view.** -/
theorem ring {action : RingAction cfg} (legal : action.Legal st) :
    Circulating view base (st.apply action) fun p => entries p ++ st.delivered action p :=
  of_lapping (circulating.lapping.ring legal (circulating.holds.fences circulating.clean action))
    (circulating.clean.ring legal)

/-- **The exclude sequence starts the next view**, with its trains on their laps. -/
theorem exclude (victim : Fin cfg.ringSize)
    (covered : Covered view (st.halted false victim).members st.world.node entries) :
    ∃ log, Circulating (view.without victim (st.halted false victim).plan.boundary) log
        (st.exclude false victim) (fun _ => []) ∧
      ∀ p ∈ (st.halted false victim).members, st.world.log p <+: log := by
  obtain ⟨log, next, grown⟩ := circulating.lapping.exclude false victim covered
  exact ⟨log, of_lapping next (circulating.clean.exclude victim), grown⟩

end Circulating

end TrainsRing
