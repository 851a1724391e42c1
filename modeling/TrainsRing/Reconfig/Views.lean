/-
**The ring in one view.**

Between two view changes all members share a `View`, and everything the next view change relies on is
an invariant of the steps in between.

* `Larder` — the delivered cache holds only keys settled before the view or delivered in it, and still
  holds what was delivered in it unless it is full of larger keys.
* `Manifest` — the payloads of a train of the view have distinct identifiers, and their senders have
  acked it.
* `ViewInvariant` — agreement, the two above, and where the trains in flight come from: a train that a
  member sent is one the member has seen, or one that only the member has acked.
* `ViewInvariant.broadcast`, `ViewInvariant.start`, `ViewInvariant.hop` — the steps keep it.
-/

import TrainsRing.Reconfig.Network
import TrainsRing.Ring.Tokens

namespace TrainsRing

variable {cfg : RingConfig} {view : View cfg} {w : World cfg} {p : Fin cfg.ringSize}

open TrainsNode

/-! ### The delivered cache -/

/-- What the delivered cache of a node holds. -/
structure Larder (view : View cfg) (node : TrainsNode cfg) (entries : List Entry) : Prop where
  cached : ∀ key payloads, node.deliveredCache.get? key = some payloads →
    view.Old key ∨ (key, payloads) ∈ entries
  retained : ∀ entry ∈ entries, entry.2 ≠ [] → Retains node.deliveredCache entry.1 entry.2

namespace Larder

variable {node middle after : TrainsNode cfg} {entries delivered : List Entry} {train : Train}

theorem congr (larder : Larder view node entries)
    (cache : after.deliveredCache = node.deliveredCache) : Larder view after entries :=
  ⟨cache ▸ larder.cached, cache ▸ larder.retained⟩

/-- Delivering a key above all entries. -/
theorem deliver (larder : Larder view node entries) {key : ClockKey} {payloads : List Payload}
    (above : ∀ entry ∈ entries, entry.1 < key) :
    Larder view (node.deliverNow key payloads).1 (entries ++ [(key, payloads)]) := by
  by_cases empty : payloads.isEmpty = true
  · have same : (node.deliverNow key payloads).1.deliveredCache = node.deliveredCache := by
      unfold deliverNow
      rw [if_pos empty]
    refine Larder.congr ⟨fun other held found => ?_, fun entry member loaded => ?_⟩ same
    · exact (larder.cached other held found).imp_right (List.mem_append_left _)
    · rcases List.mem_append.mp member with old | new
      · exact larder.retained entry old loaded
      · rw [List.mem_singleton.mp new] at loaded
        exact absurd (by simpa using empty) loaded
  · have same : (node.deliverNow key payloads).1 =
        ({ node with delivery := node.delivery.recordDelivered key }).cacheDelivered key
          payloads := by
      unfold deliverNow
      rw [if_neg empty]
    rw [same]
    refine ⟨fun other held found => ?_, fun entry member loaded => ?_⟩
    · rcases get?_cacheDelivered found with ⟨rfl, rfl⟩ | old
      · exact Or.inr (List.mem_append_right _ (List.mem_singleton_self _))
      · exact (larder.cached other held old).imp_right (List.mem_append_left _)
    · rcases List.mem_append.mp member with old | new
      · exact retains_cacheDelivered (larder.retained entry old loaded) (above entry old)
      · rw [List.mem_singleton.mp new] at loaded ⊢
        exact retains_cacheDelivered_self _ key loaded

theorem delivers (run : Delivers node delivered after) : ∀ {entries : List Entry},
    Larder view node entries →
    ((entries ++ delivered).Pairwise fun first second => first.1 < second.1) →
      Larder view after (entries ++ delivered) := by
  induction run with
  | nil =>
    intro entries larder _
    rwa [List.append_nil]
  | @cons node after key train rest _ _ _ ih =>
    intro entries larder sorted
    have above : ∀ entry ∈ entries, entry.1 < key := fun entry member =>
      (List.pairwise_append.mp sorted).2.2 entry member _ List.mem_cons_self
    rw [List.append_cons] at sorted ⊢
    have unparked : Larder view (node.unpark key) entries := larder.congr rfl
    exact ih (unparked.deliver above) sorted

theorem tried (larder : Larder view node entries) (attempt : Tried node train delivered after)
    (sorted : (entries ++ delivered).Pairwise fun first second => first.1 < second.1) :
    Larder view after (entries ++ delivered) := by
  cases attempt with
  | skipped _ => rwa [List.append_nil]
  | parked _ _ _ =>
    rw [List.append_nil]
    exact larder.congr rfl
  | delivered _ _ _ =>
    exact larder.deliver fun entry member =>
      (List.pairwise_append.mp sorted).2.2 entry member _ (List.mem_singleton_self _)

/-- **One `handle_train`** that delivers keys in order. -/
theorem handled (larder : Larder view node entries) {forwarded : List Train}
    (handled : Handled node train delivered forwarded after)
    (sorted : (entries ++ delivered).Pairwise fun first second => first.1 < second.1) :
    Larder view after (entries ++ delivered) := by
  cases handled with
  | absorbed _ => rwa [List.append_nil]
  | visited _ _ _ run _ => exact delivers run (larder.congr rfl) sorted
  | replayed _ _ _ attempt run _ =>
    rw [← List.append_assoc] at sorted ⊢
    have noted : Larder view (node.noteSeen train.payloads) entries := larder.congr rfl
    exact delivers run (noted.tried attempt (List.pairwise_append.mp sorted).1) sorted
  | recycled _ _ _ =>
    rw [List.append_nil]
    exact larder.congr rfl
  | returned _ _ _ attempt run _ =>
    rw [← List.append_assoc] at sorted ⊢
    have observed : Larder view (node.observe node.id train.clock) entries := larder.congr rfl
    exact delivers run (observed.tried attempt (List.pairwise_append.mp sorted).1) sorted

end Larder

/-- A broadcast caches nothing. -/
theorem World.broadcast_cache (w : World cfg) (p : Fin cfg.ringSize) (data : List UInt8)
    (q : Fin cfg.ringSize) :
    ((w.broadcast p data).node q).deliveredCache = (w.node q).deliveredCache := by
  by_cases here : q = p
  · rw [here, show (w.broadcast p data).node p = ((w.node p).handleBroadcast data).1 from
      w.act_node_self p _]
    unfold handleBroadcast
    split <;> rfl
  · rw [show (w.broadcast p data).node q = w.node q from w.act_node_of_ne p _ here]

/-- Issuing a train caches nothing. -/
theorem World.issueInitial_cache (w : World cfg) (p q : Fin cfg.ringSize) :
    ((w.issueInitial p).node q).deliveredCache = (w.node q).deliveredCache := by
  by_cases here : q = p
  · rw [here, show (w.issueInitial p).node p = (w.node p).issueNewTrain.1 from w.act_node_self p _]
    rfl
  · rw [show (w.issueInitial p).node q = w.node q from w.act_node_of_ne p _ here]

/-! ### The payloads on a train -/

/-- The payloads have distinct identifiers, and their senders have acked the train. -/
def Listed (cfg : RingConfig) (t : Train) : Prop :=
  (t.payloads.map Payload.msgId).Nodup ∧
    ∀ m ∈ t.payloads, ∃ q : Fin cfg.ringSize, m.sender = q.val ∧ t.isAckedBy q = true

/-- The payloads of the trains of a view, and those pending at its members. -/
structure Manifest (view : View cfg) (w : World cfg) : Prop where
  queued : ∀ p : Fin cfg.ringSize, view.Alive p → ∀ m ∈ (w.node p).pending,
    m.sender = p.val ∧ m.msgId ∈ (w.node p).broadcastSeen
  distinct : ∀ p : Fin cfg.ringSize, view.Alive p → ((w.node p).pending.map Payload.msgId).Nodup
  listed : ∀ t ∈ w.emitted, view.Key t.key → Listed cfg t

namespace Manifest

theorem initial (mode : DeliveryMode) : Manifest view (World.initial cfg mode) where
  queued := fun _ _ _ member => absurd member List.not_mem_nil
  distinct := fun _ _ => List.nodup_nil
  listed := fun _ member => absurd member List.not_mem_nil

/-- **A step of node `p`** that keeps or clears what is pending. -/
theorem act (manifest : Manifest view w) {result : TrainsNode cfg × List Output}
    (noted : ∀ id ∈ (w.node p).broadcastSeen, id ∈ result.1.broadcastSeen)
    (queue : result.1.pending = (w.node p).pending ∨ result.1.pending = [])
    (sent : ∀ t ∈ forwards result.2, view.Key t.key → Listed cfg t) :
    Manifest view (w.act p result) := by
  refine ⟨fun q alive m waiting => ?_, fun q alive => ?_, fun t member isKey => ?_⟩
  · by_cases same : q = p
    · subst same
      rw [World.act_node_self] at waiting ⊢
      rcases queue with same | empty
      · rw [same] at waiting
        exact (manifest.queued q alive m waiting).imp_right (noted _)
      · rw [empty] at waiting
        cases waiting
    · rw [w.act_node_of_ne p result same] at waiting ⊢
      exact manifest.queued q alive m waiting
  · by_cases same : q = p
    · subst same
      rw [World.act_node_self]
      rcases queue with same | empty
      · rw [same]
        exact manifest.distinct q alive
      · rw [empty]
        exact List.nodup_nil
    · rw [w.act_node_of_ne p result same]
      exact manifest.distinct q alive
  · rcases List.mem_append.mp member with old | new
    · exact manifest.listed t old isKey
    · exact sent t new isKey

/-- A train a member issues. -/
theorem issued (manifest : Manifest view w) (named : w.Named) (alive : view.Alive p) :
    Listed cfg (w.node p).issueNewTrain.2 := by
  refine ⟨manifest.distinct p alive, fun m aboard => ⟨p, (manifest.queued p alive m aboard).1, ?_⟩⟩
  rw [isAckedBy_issued named]
  exact decide_eq_true rfl

/-- A train a member loads that had not acked it. -/
theorem loaded (manifest : Manifest view w) (named : w.Named) (alive : view.Alive p) {t : Train}
    (listed : Listed cfg t) (unacked : t.isAckedBy p = false) :
    Listed cfg ((w.node p).loadTrain t) := by
  refine ⟨?_, fun m aboard => ?_⟩
  · show ((t.payloads ++ (w.node p).pending).map Payload.msgId).Nodup
    rw [List.map_append]
    refine List.nodup_append'.mpr ⟨listed.1, manifest.distinct p alive, fun id old new => ?_⟩
    obtain ⟨m, aboard, rfl⟩ := List.mem_map.mp old
    obtain ⟨m', waiting, same⟩ := List.mem_map.mp new
    obtain ⟨q, sender, acked⟩ := listed.2 m aboard
    have sameSender : m'.sender = m.sender := congrArg Prod.fst same
    have here : q = p := Fin.ext (by
      rw [← sender, ← sameSender]
      exact (manifest.queued p alive m' waiting).1)
    rw [here, unacked] at acked
    cases acked
  · rcases List.mem_append.mp aboard with old | new
    · obtain ⟨q, sender, acked⟩ := listed.2 m old
      exact ⟨q, sender, by rw [isAckedBy_loaded named, acked, Bool.true_or]⟩
    · exact ⟨p, (manifest.queued p alive m new).1, by
        rw [isAckedBy_loaded named, decide_eq_true rfl, Bool.or_true]⟩

theorem broadcast (manifest : Manifest view w) (named : w.Named) (p : Fin cfg.ringSize)
    (data : List UInt8) : Manifest view (w.broadcast p data) := by
  have emitted := (broadcast_keeps w p data).1
  have listed : ∀ t ∈ (w.broadcast p data).emitted, view.Key t.key → Listed cfg t :=
    fun t member => manifest.listed t (emitted ▸ member)
  have self : (w.broadcast p data).node p = ((w.node p).handleBroadcast data).1 :=
    w.act_node_self p _
  have others : ∀ q, q ≠ p → (w.broadcast p data).node q = w.node q :=
    fun q ne => w.act_node_of_ne p _ ne
  by_cases seen : ((w.node p).id, (w.node p).nextSeq) ∈ (w.node p).broadcastSeen
  · have same : ∀ q, (w.broadcast p data).node q = w.node q := fun q => by
      by_cases here : q = p
      · rw [here, self]
        exact congrArg Prod.fst (if_pos seen)
      · exact others q here
    refine ⟨fun q alive => ?_, fun q alive => ?_, listed⟩
    · rw [same]
      exact manifest.queued q alive
    · rw [same]
      exact manifest.distinct q alive
  · have new : (w.broadcast p data).node p =
        { w.node p with
          broadcastSeen := insert ((w.node p).id, (w.node p).nextSeq) (w.node p).broadcastSeen
          pending := (w.node p).pending ++ [⟨(w.node p).id, (w.node p).nextSeq, data⟩]
          nextSeq := satSucc (w.node p).nextSeq } :=
      self.trans (congrArg Prod.fst (if_neg seen))
    refine ⟨fun q alive m waiting => ?_, fun q alive => ?_, listed⟩
    · by_cases here : q = p
      · subst here
        rw [new] at waiting ⊢
        rcases List.mem_append.mp waiting with old | isNew
        · exact (manifest.queued q alive m old).imp_right Finset.mem_insert_of_mem
        · rw [List.mem_singleton.mp isNew]
          exact ⟨named q, Finset.mem_insert_self ..⟩
      · rw [others q here] at waiting ⊢
        exact manifest.queued q alive m waiting
    · by_cases here : q = p
      · subst here
        rw [new]
        show (List.map Payload.msgId (_ ++ [_])).Nodup
        rw [List.map_append]
        refine List.nodup_append'.mpr ⟨manifest.distinct q alive, List.nodup_singleton _,
          fun id old isNew => ?_⟩
        obtain ⟨m, waiting, rfl⟩ := List.mem_map.mp old
        have same : m.msgId = ((w.node q).id, (w.node q).nextSeq) := List.mem_singleton.mp isNew
        exact seen (same ▸ (manifest.queued q alive m waiting).2)
      · rw [others q here]
        exact manifest.distinct q alive

end Manifest

/-! ### The invariant -/

/-- What holds of a ring between two view changes. -/
structure ViewInvariant (view : View cfg) (base : List Payload) (st : RingState cfg)
    (entries : Fin cfg.ringSize → List Entry) : Prop where
  mode : view.mode = .totalOrder
  alive : ∀ p : Fin cfg.ringSize, view.Alive p ↔ p.val ∉ st.dead
  named : st.world.Named
  coherent : Coherent view base st.world entries
  larder : ∀ p : Fin cfg.ringSize, view.Alive p → Larder view (st.world.node p) (entries p)
  manifest : Manifest view st.world
  flying : ∀ e ∈ st.inflight, e.2 ∈ st.world.emitted
  known : ∀ e ∈ st.inflight, e.1.val ∉ st.dead →
    view.floor.get e.2.issuer < e.2.clock → view.Alive e.2.issuer
  sent : ∀ e ∈ st.inflight, e.1.val ∉ st.dead →
    e.2.clock ≤ (st.world.node e.1).seenClock e.2.issuer ∨
      e.2.issuer = e.1.val ∧ ∀ q, q ≠ e.1 → e.2.isAckedBy q = false
  idle : ∀ p : Fin cfg.ringSize, view.Alive p → ¬ view.Issuer p →
    (st.world.node p).nextIssueClock ≤ view.floor.get p + 1

namespace ViewInvariant

variable {base : List Payload} {st : RingState cfg} {entries : Fin cfg.ringSize → List Entry}

theorem initial (cfg : RingConfig) : ViewInvariant (View.initial cfg .totalOrder) []
    (RingState.initial cfg .totalOrder) fun _ => [] where
  mode := rfl
  alive := fun p => ⟨fun _ => Finset.notMem_empty _, fun _ => View.alive_initial _ p⟩
  named := fun _ => rfl
  coherent := Coherent.initial .totalOrder
  larder := fun _ _ => {
    cached := fun _ _ found => by cases found
    retained := fun _ member => absurd member List.not_mem_nil }
  manifest := Manifest.initial .totalOrder
  flying := fun _ member => absurd member List.not_mem_nil
  known := fun _ member => absurd member List.not_mem_nil
  sent := fun _ member => absurd member List.not_mem_nil
  idle := fun p _ _ => by
    show 1 ≤ (Slots.zero cfg).get p + 1
    exact Nat.le_add_left _ _

/-- With all live acks a train is ready. -/
theorem complete (holds : ViewInvariant view base st entries) : Complete view st.world := by
  intro t _ acked
  unfold View.Ready
  rw [holds.mode]
  exact (DeliveryState.readyToDeliver_totalOrder _ t.ackBits).mpr fun q inside alive =>
    acked ⟨q, inside⟩ alive

theorem broadcast (holds : ViewInvariant view base st entries) (legal : p.val ∉ st.dead)
    (data : List UInt8) : ViewInvariant view base (st.broadcast p data)
      (Function.update entries p (entries p ++ [])) := by
  obtain ⟨emitted, clock, seen, -⟩ := broadcast_keeps st.world p data
  have same : Function.update entries p (entries p ++ []) = entries := by simp
  refine ⟨holds.mode, holds.alive, holds.named.broadcast p data,
    holds.coherent.broadcast ((holds.alive p).mpr legal) data, fun q live => ?_,
    holds.manifest.broadcast holds.named p data, fun e member => ?_, holds.known,
    fun e member live => ?_, fun q live other => ?_⟩
  · rw [same]
    exact (holds.larder q live).congr (st.world.broadcast_cache p data q)
  · show e.2 ∈ (st.world.broadcast p data).emitted
    rw [emitted]
    exact holds.flying e member
  · show e.2.clock ≤ ((st.world.broadcast p data).node e.1).seenClock e.2.issuer ∨ _
    rw [seen]
    exact holds.sent e member live
  · show ((st.world.broadcast p data).node q).nextIssueClock ≤ _
    have still := clock q
    rw [World.issueClock_eq, World.issueClock_eq] at still
    rw [still]
    exact holds.idle q live other

/-- An issuer of the view sends a new train. -/
theorem start (holds : ViewInvariant view base st entries) (issues : p.val < cfg.numTrains)
    (legal : p.val ∉ st.dead) : ViewInvariant view base (st.start p)
      (Function.update entries p (entries p ++ [])) := by
  have alive := (holds.alive p).mpr legal
  obtain ⟨emitted, -, others, seen, -⟩ := issueInitial_keeps st.world p
  have own : (st.world.node p).issueNewTrain.2.issuer = p.val := holds.named p
  have same : Function.update entries p (entries p ++ []) = entries := by simp
  refine ⟨holds.mode, holds.alive, holds.named.act rfl,
    holds.coherent.issueInitial holds.named alive issues, fun q live => ?_,
    holds.manifest.act (fun id member => (st.world.node p).mem_noteSeen _ member) (Or.inr rfl)
      fun t new _ => ?_, fun e member => ?_, fun e member live above => ?_, fun e member live => ?_,
    fun q live other => ?_⟩
  · rw [same]
    exact (holds.larder q live).congr (st.world.issueInitial_cache p q)
  · rw [List.mem_singleton.mp (show t ∈ [(st.world.node p).issueNewTrain.2] from new)]
    exact holds.manifest.issued holds.named alive
  · show e.2 ∈ (st.world.issueInitial p).emitted
    rw [emitted]
    rcases List.mem_append.mp member with old | new
    · exact List.mem_append_left _ (holds.flying e old)
    · rw [List.mem_singleton.mp new]
      exact List.mem_append_right _ (List.mem_singleton_self _)
  · rcases List.mem_append.mp member with old | new
    · exact holds.known e old live above
    · rw [List.mem_singleton.mp new]
      show view.Alive (st.world.node p).issueNewTrain.2.issuer
      rwa [own]
  · show e.2.clock ≤ ((st.world.issueInitial p).node e.1).seenClock e.2.issuer ∨ _
    rw [seen]
    rcases List.mem_append.mp member with old | new
    · exact holds.sent e old live
    · rw [List.mem_singleton.mp new]
      refine Or.inr ⟨own, fun q ne => ?_⟩
      show (st.world.node p).issueNewTrain.2.isAckedBy q = false
      rw [isAckedBy_issued holds.named]
      exact decide_eq_false ne
  · have ne : q.val ≠ p.val := fun here => other (here ▸ ⟨issues, alive⟩)
    have still := others q ne
    rw [World.issueClock_eq, World.issueClock_eq] at still
    show ((st.world.issueInitial p).node q).nextIssueClock ≤ _
    rw [still]
    exact holds.idle q live other

/-- A train that a member has not seen is not acked by it. -/
theorem unacked (holds : ViewInvariant view base st entries) {r : Fin cfg.ringSize} {t : Train}
    (emitted : t ∈ st.world.emitted) (alive : view.Alive r) (isKey : view.Key t.key)
    (foreign : t.issuer ≠ r.val) (new : ¬ (st.world.node r).Replay t) : t.isAckedBy r = false := by
  by_contra acked
  have seen := holds.coherent.ledger.acks t emitted isKey r alive (Ne.symm foreign) (by simpa using acked)
  exact absurd seen (not_le.mpr (seen_lt_of_not_replay isKey new))

/-- **What a member sends on**: seen by it or just issued there, and its payloads are listed. -/
theorem sends (holds : ViewInvariant view base st entries) {r : Fin cfg.ringSize} {t : Train}
    (emitted : t ∈ st.world.emitted) (alive : view.Alive r)
    (live : ¬ (st.world.node r).Stale t → view.Alive t.issuer) {forwarded : List Train}
    {after : TrainsNode cfg} (traffic : (st.world.node r).Traffic t forwarded after) :
    ∀ out ∈ forwarded, view.Alive out.issuer ∧
      (out.clock ≤ after.seenClock out.issuer ∨
        out.issuer = r.val ∧ ∀ q, q ≠ r → out.isAckedBy q = false) ∧
      (view.Key out.key → Listed cfg out) := by
  have own : (st.world.node r).id = r.val := holds.named r
  intro out isOut
  cases traffic with
  | absorbed _ _ => cases isOut
  | relayed fresh _ _ _ _ seen _ =>
    rw [List.mem_singleton.mp isOut]
    exact ⟨live fresh, Or.inl seen, holds.manifest.listed t emitted⟩
  | loaded fresh foreign new _ _ seen =>
    rw [List.mem_singleton.mp isOut]
    have foreign : t.issuer ≠ r.val := fun same => foreign (same.trans own.symm)
    have isKey : view.Key t.key := (holds.coherent.replica r alive).key_of_fresh
      ⟨holds.coherent.ledger.issuers t emitted, live fresh⟩ fresh
    exact ⟨live fresh, Or.inl seen, fun key => holds.manifest.loaded holds.named alive
      (holds.manifest.listed t emitted key) (holds.unacked emitted alive isKey foreign new)⟩
  | issued fresh isOwn _ _ _ =>
    rw [List.mem_singleton.mp isOut]
    have member : view.Alive (st.world.node r).id := isOwn ▸ live fresh
    refine ⟨member, Or.inr ⟨own, fun q ne => ?_⟩, fun _ => holds.manifest.issued holds.named alive⟩
    rw [isAckedBy_issued holds.named]
    exact decide_eq_false ne

/-- **One hop** of a train whose issuer is a member, or that is stale. -/
theorem hop (holds : ViewInvariant view base st entries) {i : Nat} {s : Fin cfg.ringSize} {t : Train}
    (here : st.inflight[i]? = some (s, t)) (legal : (st.successor s).val ∉ st.dead)
    (member : view.floor.get t.issuer < t.clock → view.Alive t.issuer) :
    ViewInvariant view base (st.hop i) (Function.update entries (st.successor s)
      (entries (st.successor s) ++ (st.world.node (st.successor s)).handleEntries t)) := by
  obtain ⟨before, after, shape, -, hop⟩ := RingState.hop_eq here
  have rest : ∀ e ∈ before ++ after, e ∈ st.inflight := fun e inside =>
    (RingState.left_sublist shape).subset inside
  have flying : t ∈ st.world.emitted := holds.flying (s, t) (List.mem_of_getElem? here)
  rw [hop]
  generalize st.successor s = r at *
  have alive := (holds.alive r).mpr legal
  have trains : t.issuer < cfg.numTrains := holds.coherent.ledger.issuers t flying
  have issuer : t.issuer < cfg.ringSize := lt_of_lt_of_le trains cfg.trains_le
  have own : (st.world.node r).id = r.val := holds.named r
  have live : ¬ (st.world.node r).Stale t → view.Alive t.issuer := fun fresh => by
    refine member (not_le.mp fun low => fresh ⟨issuer, ?_⟩)
    rwa [(holds.coherent.replica r alive).floor]
  obtain ⟨forwarded, handled, emits⟩ := (st.world.node r).handleTrain_entries t
  obtain ⟨traffic, evolves, -⟩ := handled.traffic issuer
  have coherent := holds.coherent.handle holds.named alive flying live handled emits
  have outs := holds.sends flying alive live traffic
  have self : (st.world.receive r t).node r = ((st.world.node r).handleTrain t).1 :=
    st.world.act_node_self r _
  have emitted : (st.world.receive r t).emitted = st.world.emitted ++ forwarded :=
    congrArg (st.world.emitted ++ ·) emits.2
  have inSends : ∀ e ∈ st.sends r t, e.1 = r ∧ e.2 ∈ forwarded := fun e inside => by
    obtain ⟨out, isOut, rfl⟩ := List.mem_map.mp inside
    exact ⟨rfl, emits.2 ▸ isOut⟩
  refine ⟨holds.mode, holds.alive, holds.named.receive r issuer, coherent,
    fun q qAlive => ?_, holds.manifest.act evolves.noted ?_ fun out isOut => ?_, fun e inside => ?_,
    fun e inside eAlive above => ?_, fun e inside eAlive => ?_, fun q qAlive other => ?_⟩
  · by_cases same : q = r
    · subst same
      have sorted := (coherent.replica q qAlive).segment.sorted
      rw [Function.update_self] at sorted ⊢
      show Larder view ((st.world.receive q t).node q) _
      rw [self]
      exact (holds.larder q qAlive).handled handled sorted
    · rw [Function.update_of_ne same]
      show Larder view ((st.world.receive r t).node q) _
      rw [st.world.receive_node_of_ne r same]
      exact holds.larder q qAlive
  · cases traffic with
    | absorbed _ same => exact Or.inl (congrArg TrainsNode.pending same)
    | relayed _ _ _ queue _ _ _ => exact Or.inl queue
    | loaded _ _ _ queue _ _ => exact Or.inr queue
    | issued _ _ _ queue _ => exact Or.inr queue
  · rw [show forwards ((st.world.node r).step (.trainReceived t)).2 = forwarded from emits.2] at isOut
    exact (outs out isOut).2.2
  · show e.2 ∈ (st.world.receive r t).emitted
    rw [emitted]
    rcases List.mem_append.mp inside with old | new
    · exact List.mem_append_left _ (holds.flying e (rest e old))
    · exact List.mem_append_right _ (inSends e new).2
  · rcases List.mem_append.mp inside with old | new
    · exact holds.known e (rest e old) eAlive above
    · exact (outs e.2 (inSends e new).2).1
  · show e.2.clock ≤ ((st.world.receive r t).node e.1).seenClock e.2.issuer ∨ _
    rcases List.mem_append.mp inside with old | new
    · refine (holds.sent e (rest e old) eAlive).imp_left fun seen => seen.trans ?_
      exact (st.world.receive_evolves r issuer e.1).seen _
    · obtain ⟨sender, isOut⟩ := inSends e new
      rw [sender, self]
      exact (outs e.2 isOut).2.1
  · show ((st.world.receive r t).node q).nextIssueClock ≤ _
    have still : ((st.world.receive r t).node q).nextIssueClock =
        (st.world.node q).nextIssueClock := by
      by_cases same : q = r
      · subst same
        rw [self]
        cases traffic with
        | absorbed _ same => rw [same]
        | relayed _ _ _ _ clock _ _ => exact clock
        | loaded _ _ _ _ clock _ => exact clock
        | issued _ isOwn _ _ _ => exact absurd ⟨own.symm.trans isOwn.symm ▸ trains, qAlive⟩ other
      · rw [st.world.receive_node_of_ne r same]
    rw [still]
    exact holds.idle q qAlive other

end ViewInvariant

end TrainsRing
