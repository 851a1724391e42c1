/-
**Nodes that share a view agree.**

The nodes alive in a view receive each other's trains in any order, any number of times.

* `Ledger` — what the acks of a train say: a process that acked a key has seen it, and trains of one
  key with the same acks carry the same payloads. The second holds because a process acks a key
  once: its ack marks all the train's descendants.
* `Coherent` — the ledger, together with a `Replica` for every live node.
* `Coherent.handle`, `Coherent.issueInitial`, `Coherent.broadcast` — the operations keep it.
* `Coherent.comparable` — **agreement**: the logs of two live nodes are prefixes of one another.
-/

import TrainsRing.Agreement.Replica
import TrainsRing.Agreement.World

namespace TrainsRing

variable {cfg : RingConfig} {view : View cfg} {w w' : World cfg} {p : Fin cfg.ringSize}

/-! ### What the acks say -/

/-- What the acks of the trains emitted say. Acks of crashed processes do not count. -/
structure Ledger (view : View cfg) (w : World cfg) : Prop where
  issuers : ∀ t ∈ w.emitted, t.issuer < cfg.numTrains
  acks : ∀ t ∈ w.emitted, view.Key t.key → ∀ q : Fin cfg.ringSize, view.Alive q →
    q.val ≠ t.issuer → t.isAckedBy q = true → t.clock ≤ (w.node q).seenClock t.issuer
  cargo : ∀ t ∈ w.emitted, ∀ t' ∈ w.emitted, view.Key t.key → t.key = t'.key →
    (∀ q : Fin cfg.ringSize, view.Alive q → t.isAckedBy q = t'.isAckedBy q) →
    (∃ q : Fin cfg.ringSize, view.Alive q ∧ q.val ≠ t.issuer ∧ t.isAckedBy q = true) →
    t.payloads = t'.payloads

/-- A train that may be added to the ledger: nobody but its issuer has acked it, or one of its acks
is the first for its key. -/
structure Novel (view : View cfg) (w w' : World cfg) (t : Train) : Prop where
  issuer : t.issuer < cfg.numTrains
  acks : view.Key t.key → ∀ q : Fin cfg.ringSize, view.Alive q → q.val ≠ t.issuer →
    t.isAckedBy q = true → t.clock ≤ (w'.node q).seenClock t.issuer
  first : view.Key t.key →
    (∀ q : Fin cfg.ringSize, q.val ≠ t.issuer → t.isAckedBy q = false) ∨
      ∃ q : Fin cfg.ringSize, view.Alive q ∧ q.val ≠ t.issuer ∧ t.isAckedBy q = true ∧
        (w.node q).seenClock t.issuer < t.clock

theorem bit_lt (q : Fin cfg.ringSize) : q.val < 32 := by
  have inside := q.isLt
  have bound := cfg.le_thirty
  omega

namespace Ledger

theorem initial (mode : DeliveryMode) : Ledger view (World.initial cfg mode) :=
  ⟨fun _ member => absurd member List.not_mem_nil, fun _ member => absurd member List.not_mem_nil,
    fun _ member => absurd member List.not_mem_nil⟩

/-- A novel train shares its acks with no old train of its key, unless only its issuer acked it. -/
theorem novel_ne (ledger : Ledger view w) {new old : Train} (novel : Novel view w w' new)
    (member : old ∈ w.emitted) (isKey : view.Key new.key) (key : new.key = old.key)
    (acks : ∀ q : Fin cfg.ringSize, view.Alive q → new.isAckedBy q = old.isAckedBy q)
    (shared : ∃ q : Fin cfg.ringSize, view.Alive q ∧ q.val ≠ new.issuer ∧
      new.isAckedBy q = true) : False := by
  rcases novel.first isKey with alone | ⟨r, alive, foreign, acked, unseen⟩
  · obtain ⟨q, -, foreign, acked⟩ := shared
    rw [alone q foreign] at acked
    cases acked
  · have issuer : new.issuer = old.issuer := congrArg ClockKey.issuer key
    have clock : new.clock = old.clock := congrArg ClockKey.clock key
    rw [acks r alive] at acked
    have seen := ledger.acks old member (key ▸ isKey) r alive (issuer ▸ foreign) acked
    rw [← issuer, ← clock] at seen
    exact absurd seen (not_le.mpr unseen)

/-- **Adding one novel train**, while the clocks seen grow. -/
theorem grow (ledger : Ledger view w)
    (seen : ∀ q r, (w.node q).seenClock r ≤ (w'.node q).seenClock r)
    (out : (∀ t ∈ w'.emitted, t ∈ w.emitted) ∨
      ∃ new, Novel view w w' new ∧ ∀ t ∈ w'.emitted, t ∈ w.emitted ∨ t = new) :
    Ledger view w' := by
  obtain ⟨Fresh, novel, single, cases⟩ : ∃ Fresh : Train → Prop,
      (∀ t, Fresh t → Novel view w w' t) ∧ (∀ t t', Fresh t → Fresh t' → t = t') ∧
        ∀ t ∈ w'.emitted, t ∈ w.emitted ∨ Fresh t := by
    rcases out with nothing | ⟨new, novel, cases⟩
    · exact ⟨fun _ => False, fun _ absurd => absurd.elim, fun _ _ absurd => absurd.elim,
        fun t member => Or.inl (nothing t member)⟩
    · exact ⟨fun t => t = new, fun t same => same ▸ novel,
        fun t t' same same' => same.trans same'.symm, cases⟩
  refine ⟨fun t member => ?_, fun t member isKey q alive foreign acked => ?_,
    fun t member t' member' isKey key acks shared => ?_⟩
  · exact (cases t member).elim (ledger.issuers t) fun fresh => (novel t fresh).issuer
  · rcases cases t member with old | fresh
    · exact (ledger.acks t old isKey q alive foreign acked).trans (seen _ _)
    · exact (novel t fresh).acks isKey q alive foreign acked
  · have issuer : t.issuer = t'.issuer := congrArg ClockKey.issuer key
    rcases cases t member with old | fresh
    · rcases cases t' member' with old' | fresh'
      · exact ledger.cargo t old t' old' isKey key acks shared
      · obtain ⟨q, alive, foreign, acked⟩ := shared
        exact (ledger.novel_ne (novel t' fresh') old (key ▸ isKey) key.symm
          (fun r live => (acks r live).symm)
          ⟨q, alive, issuer ▸ foreign, (acks q alive).symm.trans acked⟩).elim
    · rcases cases t' member' with old' | fresh'
      · exact (ledger.novel_ne (novel t fresh) old' isKey key acks shared).elim
      · rw [single t t' fresh fresh']

/-- **Ready trains of one key carry the same payloads**, once somebody besides the issuer is
alive. -/
theorem cargo_eq (ledger : Ledger view w) {t t' : Train} (member : t ∈ w.emitted)
    (member' : t' ∈ w.emitted) (isKey : view.Key t.key) (key : t.key = t'.key)
    (ready : view.Ready t.ackBits) (ready' : view.Ready t'.ackBits)
    (other : ∃ q : Fin cfg.ringSize, view.Alive q ∧ q.val ≠ t.issuer) :
    t.payloads = t'.payloads := by
  have full : ∀ q : Fin cfg.ringSize, view.Alive q → t.isAckedBy q = t'.isAckedBy q :=
    fun q alive => (ready.acked q.isLt alive).trans (ready'.acked q.isLt alive).symm
  obtain ⟨q, alive, foreign⟩ := other
  exact ledger.cargo t member t' member' isKey key full
    ⟨q, alive, foreign, ready.acked q.isLt alive⟩

end Ledger

/-! ### Trains a step adds -/

theorem isAckedBy_new {p q : Nat} (small : q < 32) (clock : Nat) (payloads : List Payload) :
    (Train.addAck { issuer := p, clock, payloads, ackBits := 0#32 } p).isAckedBy q =
      decide (q = p) := by
  rw [Train.isAckedBy_addAck _ _ small, Train.isAckedBy, hasBit_zero, Bool.false_or]

theorem isAckedBy_issued (named : w.Named) (q : Fin cfg.ringSize) :
    (w.node p).issueNewTrain.2.isAckedBy q = decide (q = p) := by
  rw [TrainsNode.issueNewTrain, isAckedBy_new (bit_lt q), named p]
  exact decide_eq_decide.mpr Fin.ext_iff.symm

theorem isAckedBy_loaded (named : w.Named) (t : Train) (q : Fin cfg.ringSize) :
    ((w.node p).loadTrain t).isAckedBy q = (t.isAckedBy q || decide (q = p)) := by
  rw [TrainsNode.loadTrain, Train.isAckedBy_addAck _ _ (bit_lt q), named p]
  exact congrArg (t.isAckedBy q || ·) (decide_eq_decide.mpr Fin.ext_iff.symm)

/-- A train just issued. -/
theorem novel_issued (named : w.Named) (issues : p.val < cfg.numTrains) :
    Novel view w w' (w.node p).issueNewTrain.2 := by
  have issuer : (w.node p).issueNewTrain.2.issuer = p.val := named p
  have alone : ∀ q : Fin cfg.ringSize, q.val ≠ (w.node p).issueNewTrain.2.issuer →
      (w.node p).issueNewTrain.2.isAckedBy q = false := by
    intro q foreign
    rw [isAckedBy_issued named]
    exact decide_eq_false fun same => foreign (same ▸ issuer.symm)
  refine ⟨issuer ▸ issues, fun _ q _ foreign acked => ?_, fun _ => Or.inl alone⟩
  rw [alone q foreign] at acked
  cases acked

/-- A clock of the view that is no replay is larger than the one seen. -/
theorem seen_lt_of_not_replay {node : TrainsNode cfg} {t : Train} (isKey : view.Key t.key)
    (new : ¬ node.Replay t) : node.seenClock t.issuer < t.clock := by
  have positive : view.floor.get t.issuer < t.clock := isKey.2
  by_contra notLess
  have isSeen : t.clock ≤ node.seenClock t.issuer := not_lt.mp notLess
  exact new ⟨isSeen, by omega⟩

/-- A train just loaded on a first visit. -/
theorem novel_loaded (ledger : Ledger view w) (named : w.Named) (alive : view.Alive p)
    {t : Train} (member : t ∈ w.emitted) (foreign : t.issuer ≠ p.val)
    (new : ¬ (w.node p).Replay t)
    (seen : ∀ q r, (w.node q).seenClock r ≤ (w'.node q).seenClock r)
    (stored : t.clock ≤ (w'.node p).seenClock t.issuer) :
    Novel view w w' ((w.node p).loadTrain t) := by
  refine ⟨ledger.issuers t member, fun isKey q live other bit => ?_, fun isKey => Or.inr ?_⟩
  · rw [isAckedBy_loaded named] at bit
    rcases Bool.or_eq_true_iff.mp bit with old | mine
    · exact (ledger.acks t member isKey q live other old).trans (seen _ _)
    · obtain rfl := of_decide_eq_true mine
      exact stored
  · refine ⟨p, alive, fun same => foreign same.symm, ?_, seen_lt_of_not_replay isKey new⟩
    rw [isAckedBy_loaded named, decide_eq_true rfl, Bool.or_true]

/-! ### The nodes -/

/-- The ledger, and every live node a replica: its log is `base` followed by the payloads of its
entries. -/
structure Coherent (view : View cfg) (base : List Payload) (w : World cfg)
    (entries : Fin cfg.ringSize → List Entry) : Prop where
  ledger : Ledger view w
  replica : ∀ p : Fin cfg.ringSize, view.Alive p →
    Replica view (· ∈ w.emitted) (w.node p) (entries p)
  drained : ∀ p : Fin cfg.ringSize, view.Alive p → (w.node p).Drained
  logs : ∀ p : Fin cfg.ringSize, view.Alive p → w.log p = base ++ (entries p).flatMap Entry.content

namespace Coherent

variable {base : List Payload} {entries : Fin cfg.ringSize → List Entry}

theorem initial (mode : DeliveryMode) :
    Coherent (View.initial cfg mode) [] (World.initial cfg mode) fun _ => [] where
  ledger := Ledger.initial mode
  replica := fun p _ => .new p.val p.isLt mode
  drained := fun _ _ _ _ smallest => by cases smallest
  logs := fun _ _ => rfl

/-- **A step of a live node** that delivers some entries and keeps the ledger. -/
theorem act (coherent : Coherent view base w entries) {result : TrainsNode cfg × List Output}
    {delivered : List Entry} (ledger : Ledger view (w.act p result))
    (replica : Replica view (· ∈ w.emitted) result.1 (entries p ++ delivered))
    (drained : result.1.Drained) (out : deliveries result.2 = delivered.flatMap Entry.content) :
    Coherent view base (w.act p result) (Function.update entries p (entries p ++ delivered)) where
  ledger := ledger
  replica := fun q alive => by
    by_cases same : q = p
    · subst same
      rw [World.act_node_self, Function.update_self]
      exact replica.mono fun _ member => List.mem_append_left _ member
    · rw [w.act_node_of_ne p result same, Function.update_of_ne same]
      exact (coherent.replica q alive).mono fun _ member => List.mem_append_left _ member
  drained := fun q alive => by
    by_cases same : q = p
    · subst same
      rw [World.act_node_self]
      exact drained
    · rw [w.act_node_of_ne p result same]
      exact coherent.drained q alive
  logs := fun q alive => by
    by_cases same : q = p
    · subst same
      rw [World.act_log_self, Function.update_self, coherent.logs q alive, out,
        List.flatMap_append, List.append_assoc]
    · rw [w.act_log_of_ne p result same, Function.update_of_ne same]
      exact coherent.logs q alive

/-- The clocks seen only grow when one node makes a step that evolves it. -/
theorem seen_act {result : TrainsNode cfg × List Output} (evolves : (w.node p).Evolves result.1)
    (q : Fin cfg.ringSize) (r : Nat) :
    (w.node q).seenClock r ≤ ((w.act p result).node q).seenClock r := by
  by_cases same : q = p
  · subst same
    rw [World.act_node_self]
    exact evolves.seen r
  · rw [w.act_node_of_ne p result same]

/-- **A live node handles** a train that was emitted: a stale one, or one of a live issuer. -/
theorem handle (coherent : Coherent view base w entries) (named : w.Named)
    (alive : view.Alive p) {t : Train} (member : t ∈ w.emitted)
    (known : ¬ (w.node p).Stale t → view.Alive t.issuer) {delivered : List Entry}
    {forwarded : List Train}
    (handled : (w.node p).Handled t delivered forwarded ((w.node p).handleTrain t).1)
    (emits : TrainsNode.Emits ((w.node p).handleTrain t).2 delivered forwarded) :
    Coherent view base (w.receive p t) (Function.update entries p (entries p ++ delivered)) := by
  have issuer : t.issuer < cfg.numTrains := coherent.ledger.issuers t member
  obtain ⟨traffic, evolves, -⟩ := handled.traffic (lt_of_lt_of_le issuer cfg.trains_le)
  obtain ⟨replica, drained⟩ := (coherent.replica p alive).handled (coherent.drained p alive)
    (fun fresh => ⟨issuer, known fresh⟩) member handled
  have seen : ∀ q r, (w.node q).seenClock r ≤ ((w.receive p t).node q).seenClock r :=
    seen_act evolves
  have stored : ∀ {x}, x ∈ (w.receive p t).emitted → x ∈ w.emitted ∨ x ∈ forwarded := fun inside =>
    (List.mem_append.mp inside).imp_right fun new => emits.2 ▸ new
  refine coherent.act (coherent.ledger.grow seen ?_) replica drained emits.1
  cases traffic with
  | absorbed _ _ => exact Or.inl fun x inside => (stored inside).elim id fun new => by cases new
  | relayed _ _ _ _ _ _ _ =>
    exact Or.inl fun x inside => (stored inside).elim id fun new =>
      List.mem_singleton.mp new ▸ member
  | loaded _ foreign new _ _ after =>
    refine Or.inr ⟨(w.node p).loadTrain t, ?_, fun x inside =>
      (stored inside).imp_right List.mem_singleton.mp⟩
    refine novel_loaded coherent.ledger named alive member
      (fun same => foreign (same.trans (named p).symm)) new seen ?_
    show _ ≤ ((w.act p _).node p).seenClock t.issuer
    rw [World.act_node_self]
    exact after
  | issued _ own _ _ _ =>
    exact Or.inr ⟨_, novel_issued named ((named p).symm.trans own.symm ▸ issuer),
      fun x inside => (stored inside).imp_right List.mem_singleton.mp⟩

/-- A live node receives a train that was emitted. -/
theorem receive (coherent : Coherent view base w entries) (named : w.Named)
    (alive : view.Alive p) {t : Train} (member : t ∈ w.emitted)
    (known : ¬ (w.node p).Stale t → view.Alive t.issuer) :
    ∃ delivered, Coherent view base (w.receive p t)
      (Function.update entries p (entries p ++ delivered)) := by
  obtain ⟨delivered, forwarded, handled, emits⟩ := (w.node p).handleTrain_spec t
  exact ⟨delivered, coherent.handle named alive member known handled emits⟩

theorem issueInitial (coherent : Coherent view base w entries) (named : w.Named)
    (alive : view.Alive p) (issues : p.val < cfg.numTrains) :
    Coherent view base (w.issueInitial p) (Function.update entries p (entries p ++ [])) := by
  refine coherent.act ?_ ?_ ?_ rfl
  · refine coherent.ledger.grow (seen_act (w.node p).issueNewTrain_evolves)
      (Or.inr ⟨_, novel_issued named issues, fun x inside => ?_⟩)
    exact (List.mem_append.mp inside).imp_right List.mem_singleton.mp
  · rw [List.append_nil]
    exact (coherent.replica p alive).congr rfl rfl rfl rfl rfl
  · exact Replica.drained_congr (coherent.drained p alive) rfl rfl rfl

/-- A broadcast touches only the pending payloads and what guards them. -/
theorem broadcast (coherent : Coherent view base w entries) (alive : view.Alive p)
    (data : List UInt8) :
    Coherent view base (w.broadcast p data) (Function.update entries p (entries p ++ [])) := by
  obtain ⟨⟨forwardsNone, deliversNone⟩, clocks, delivery, waiting, floor, frozen⟩ :=
    (w.node p).handleBroadcast_keeps data
  have acted : Coherent view base (w.act p ((w.node p).step (.localBroadcast data)))
      (Function.update entries p (entries p ++ [])) := by
    refine coherent.act ?_ ?_ ?_ deliversNone
    · refine coherent.ledger.grow (fun q r => ?_) (Or.inl fun x inside => ?_)
      · by_cases same : q = p
        · subst same
          rw [World.act_node_self, TrainsNode.seenClock, TrainsNode.seenClock]
          exact (congrArg (fun state : ClockState cfg => state.lastSeen r) clocks).ge
        · rw [w.act_node_of_ne p _ same]
      · rcases List.mem_append.mp inside with old | new
        · exact old
        · have none : x ∈ ([] : List Train) := forwardsNone ▸ new
          cases none
    · rw [List.append_nil]
      exact (coherent.replica p alive).congr clocks delivery waiting floor frozen
    · exact Replica.drained_congr (coherent.drained p alive) clocks delivery waiting
  exact ⟨⟨acted.ledger.issuers, acted.ledger.acks, acted.ledger.cargo⟩, acted.replica,
    acted.drained, acted.logs⟩

/-- **Agreement**: the logs of two live nodes are prefixes of one another. -/
theorem comparable (coherent : Coherent view base w entries) {q : Fin cfg.ringSize}
    (left : view.Alive p) (right : view.Alive q) : w.log p <+: w.log q ∨ w.log q <+: w.log p := by
  by_cases same : p = q
  · exact Or.inl (same ▸ List.prefix_rfl)
  have agree : ∀ a ∈ entries p, ∀ b ∈ entries q, a.1 = b.1 → a.content = b.content := by
    intro a inLeft b inRight key
    obtain ⟨t, member, ready, rfl⟩ := (coherent.replica p left).cargo a inLeft
    obtain ⟨t', member', ready', rfl⟩ := (coherent.replica q right).cargo b inRight
    have isKey := (coherent.replica p left).segment.keys _ inLeft
    have other : ∃ r : Fin cfg.ringSize, view.Alive r ∧ r.val ≠ t.issuer := by
      by_cases issuer : p.val = t.issuer
      · exact ⟨q, right, fun clash => same (Fin.ext (issuer.trans clash.symm))⟩
      · exact ⟨p, left, issuer⟩
    have cargo := coherent.ledger.cargo_eq member member' isKey key ready ready' other
    unfold Entry.content
    rw [cargo]
  rw [coherent.logs p left, coherent.logs q right]
  have contents := (coherent.replica p left).segment.comparable Entry.content
    (coherent.replica q right).segment agree
  exact contents.imp (List.prefix_append_right_inj base).mpr
    (List.prefix_append_right_inj base).mpr

end Coherent

end TrainsRing
