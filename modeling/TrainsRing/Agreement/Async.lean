/-
**The asynchronous network.**

Any train emitted so far may be received by any node at any time, so trains are delayed, lost,
reordered and duplicated at will, and a crashed node is one that stops stepping. No membership change
happens: every node stays in the initial view.

* `consistent_delivery` — **total order**: the logs of two nodes are prefixes of one another.
* `no_spurious_no_duplicate` — every delivered payload was accepted from its sender, and no log holds
  two payloads with one identifier.
* `reply_after` — **replies come after what they reply to**: a payload accepted by a node after it
  delivered `m` is delivered by no node that has not delivered `m` before.
-/

import TrainsRing.Agreement.Coherent
import TrainsRing.Agreement.Custody
import TrainsRing.Library.Machine

namespace TrainsRing

variable {cfg : RingConfig} {mode : DeliveryMode}

/-- The steps of the asynchronous network. -/
inductive AsyncAction (cfg : RingConfig) where
  | broadcast (p : Fin cfg.ringSize) (data : List UInt8)
  | issueInitial (p : Fin cfg.ringSize)
  | receive (p : Fin cfg.ringSize) (train : Train)

namespace AsyncAction

/-- Issuers are the processes below `NUM_TRAINS`; any emitted train may be received. -/
def Legal (w : World cfg) : AsyncAction cfg → Prop
  | broadcast _ _ => True
  | issueInitial p => p.val < cfg.numTrains
  | receive _ train => train ∈ w.emitted

instance (w : World cfg) (action : AsyncAction cfg) : Decidable (action.Legal w) := by
  cases action <;> unfold Legal <;> infer_instance

/-- The world after a step. -/
def apply (w : World cfg) : AsyncAction cfg → World cfg
  | broadcast p data => w.broadcast p data
  | issueInitial p => w.issueInitial p
  | receive p train => w.receive p train

end AsyncAction

/-- The asynchronous network of nodes in one delivery mode. -/
def asyncNetwork (cfg : RingConfig) (mode : DeliveryMode) : Machine (World cfg) (AsyncAction cfg) where
  start := fun w => w = World.initial cfg mode
  legal := fun w action => action.Legal w
  next := AsyncAction.apply

/-- The invariant of the asynchronous network, with the entries every node has delivered. -/
structure AsyncInvariant (mode : DeliveryMode) (w : World cfg)
    (entries : Fin cfg.ringSize → List Entry) : Prop where
  custody : Custody w
  coherent : Coherent (View.initial cfg mode) [] w entries

/-- A step keeps the invariant, appends entries and adds trains. -/
theorem AsyncInvariant.step {w : World cfg} {entries : Fin cfg.ringSize → List Entry}
    (holds : AsyncInvariant mode w entries) {action : AsyncAction cfg} (legal : action.Legal w) :
    ∃ entries', AsyncInvariant mode (action.apply w) entries' ∧ (∀ q, entries q <+: entries' q) ∧
      ∀ t ∈ w.emitted, t ∈ (action.apply w).emitted := by
  obtain ⟨custody, coherent⟩ := holds
  have alive : ∀ q, (View.initial cfg mode).Alive q := View.alive_initial mode
  have extends' : ∀ p delivered q,
      entries q <+: Function.update entries p (entries p ++ delivered) q := by
    intro p delivered q
    by_cases same : q = p
    · subst same
      rw [Function.update_self]
      exact List.prefix_append _ _
    · rw [Function.update_of_ne same]
  cases action with
  | broadcast p data =>
    exact ⟨_, ⟨custody.broadcast p data, coherent.broadcast (alive p) data⟩, extends' p [],
      fun t member => List.mem_append_left _ member⟩
  | issueInitial p =>
    exact ⟨_, ⟨custody.issueInitial p, coherent.issueInitial custody.ids (alive p) legal⟩,
      extends' p [], fun t member => List.mem_append_left _ member⟩
  | receive p train =>
    obtain ⟨delivered, after⟩ := coherent.receive custody.ids (alive p) legal fun _ => alive _
    have inside := lt_of_lt_of_le (coherent.ledger.issuers train legal) cfg.trains_le
    exact ⟨_, ⟨custody.receive legal inside, after⟩, extends' p delivered,
      fun t member => List.mem_append_left _ member⟩

theorem asyncInvariant_reachable {w : World cfg} (reachable : (asyncNetwork cfg mode).Reachable w) :
    ∃ entries, AsyncInvariant mode w entries := by
  refine Machine.invariant (P := fun w => ∃ entries, AsyncInvariant mode w entries) ?_ ?_ reachable
  · rintro _ rfl
    exact ⟨_, Custody.initial mode, Coherent.initial mode⟩
  · rintro w action ⟨entries, holds⟩ legal
    obtain ⟨entries', after, -⟩ := holds.step legal
    exact ⟨entries', after⟩

/-- Along a run the entries of a node and the trains emitted only grow. -/
theorem AsyncInvariant.run {w w' : World cfg} {entries : Fin cfg.ringSize → List Entry}
    (holds : AsyncInvariant mode w entries) (run : (asyncNetwork cfg mode).Reaches w w') :
    ∃ entries', AsyncInvariant mode w' entries' ∧ (∀ q, entries q <+: entries' q) ∧
      ∀ t ∈ w.emitted, t ∈ w'.emitted := by
  refine run.preserves (P := fun w' => ∃ entries', AsyncInvariant mode w' entries' ∧
    (∀ q, entries q <+: entries' q) ∧ ∀ t ∈ w.emitted, t ∈ w'.emitted) ?_
    ⟨entries, holds, fun _ => List.prefix_rfl, fun _ member => member⟩
  rintro middle action ⟨entries', inv, grows, keeps⟩ legal
  obtain ⟨entries'', after, more, still⟩ := inv.step legal
  exact ⟨entries'', after, fun q => (grows q).trans (more q), fun t member => still t (keeps t member)⟩

/-- **ConsistentDelivery.** -/
theorem consistent_delivery {w : World cfg} (reachable : (asyncNetwork cfg mode).Reachable w)
    (p q : Fin cfg.ringSize) : w.log p <+: w.log q ∨ w.log q <+: w.log p := by
  obtain ⟨entries, -, coherent⟩ := asyncInvariant_reachable reachable
  exact coherent.comparable (View.alive_initial mode p) (View.alive_initial mode q)

/-- A run of two nodes: node `1` loads a payload on the train of node `0`, whose return delivers it
at node `0`. -/
def pairRun : List (AsyncAction .pair) :=
  [.broadcast 1 [7], .issueInitial 0,
    .receive 1 ⟨0, 1, [], 1#32⟩, .receive 0 ⟨0, 1, [⟨1, 0, [7]⟩], 3#32⟩]

/-- The world after that run. -/
def pairWorld : World .pair :=
  (asyncNetwork .pair .uniformTotalOrder).run (World.initial .pair .uniformTotalOrder) pairRun

instance (cfg : RingConfig) (mode : DeliveryMode) (w : World cfg) (action : AsyncAction cfg) :
    Decidable ((asyncNetwork cfg mode).legal w action) :=
  inferInstanceAs (Decidable (action.Legal w))

theorem pairWorld_reachable : (asyncNetwork .pair .uniformTotalOrder).Reachable pairWorld :=
  Machine.reachable_run rfl (by decide +kernel)

theorem consistent_delivery_pair :
    pairWorld.log 0 = [⟨1, 0, [7]⟩] ∧ pairWorld.log 1 = [] ∧
      (pairWorld.log 0 <+: pairWorld.log 1 ∨
        pairWorld.log 1 <+: pairWorld.log 0) :=
  ⟨by decide +kernel, by decide +kernel, consistent_delivery pairWorld_reachable _ _⟩

/-! ### What a log holds -/

theorem mem_sortPayloads {m : Payload} {payloads : List Payload} :
    m ∈ sortPayloads payloads ↔ m ∈ payloads :=
  (List.perm_insertionSort _ payloads).mem_iff

theorem nodup_sortPayloads {payloads : List Payload} :
    (sortPayloads payloads).Nodup ↔ payloads.Nodup :=
  (List.perm_insertionSort _ payloads).nodup_iff

namespace Replica

variable {view : View cfg} {w : World cfg} {node : TrainsNode cfg} {entries : List Entry}

/-- A delivered payload was accepted by somebody. -/
theorem accepted_of_content (replica : Replica view (· ∈ w.emitted) node entries)
    (custody : Custody w) {entry : Entry} (member : entry ∈ entries) {m : Payload}
    (inside : m ∈ entry.content) : ∃ s, m ∈ w.accepted s := by
  obtain ⟨train, emitted, -, rfl⟩ := replica.cargo entry member
  exact custody.carried train emitted m (mem_sortPayloads.mp inside)

/-- A payload is delivered once: a train carries it once, and the entries have distinct keys. -/
theorem nodup_contents (replica : Replica view (· ∈ w.emitted) node entries)
    (custody : Custody w) : (entries.flatMap Entry.content).Nodup := by
  refine List.nodup_flatMap.mpr ⟨fun entry member => ?_, ?_⟩
  · obtain ⟨train, emitted, -, rfl⟩ := replica.cargo entry member
    exact nodup_sortPayloads.mpr (custody.once train emitted)
  · refine replica.segment.sorted.imp_of_mem fun {first second} left right below => ?_
    intro m inFirst inSecond
    obtain ⟨t, emitted, -, rfl⟩ := replica.cargo first left
    obtain ⟨t', emitted', -, rfl⟩ := replica.cargo second right
    exact below.ne (custody.oneKey t emitted t' emitted' m (mem_sortPayloads.mp inFirst)
      (mem_sortPayloads.mp inSecond))

end Replica

/-- **NoSpuriousDelivery and no duplicates.** -/
theorem no_spurious_no_duplicate {w : World cfg} (reachable : (asyncNetwork cfg mode).Reachable w)
    (p : Fin cfg.ringSize) :
    (∀ m ∈ w.log p, ∃ s : Fin cfg.ringSize, m.sender = s.val ∧ m ∈ w.accepted s) ∧
      ((w.log p).map Payload.msgId).Nodup := by
  obtain ⟨entries, custody, coherent⟩ := asyncInvariant_reachable reachable
  have replica := coherent.replica p (View.alive_initial mode p)
  have shape : w.log p = (entries p).flatMap Entry.content := coherent.logs p (View.alive_initial mode p)
  have accepted : ∀ m ∈ w.log p, ∃ s, m ∈ w.accepted s := by
    intro m member
    rw [shape] at member
    obtain ⟨entry, inside, content⟩ := List.mem_flatMap.mp member
    exact replica.accepted_of_content custody inside content
  refine ⟨fun m member => ?_, ?_⟩
  · obtain ⟨s, taken⟩ := accepted m member
    exact ⟨s, (custody.own s m taken).1, taken⟩
  · refine (List.nodup_map_iff_inj_on ?_).mpr fun m left m' right same => ?_
    · rw [shape]
      exact replica.nodup_contents custody
    · obtain ⟨s, taken⟩ := accepted m left
      obtain ⟨s', taken'⟩ := accepted m' right
      exact custody.eq_of_msgId taken taken' same

theorem no_spurious_no_duplicate_pair :
    (∀ m ∈ pairWorld.log 0,
      ∃ s : Fin RingConfig.pair.ringSize, m.sender = s.val ∧ m ∈ pairWorld.accepted s) ∧
      ((pairWorld.log 0).map Payload.msgId).Nodup :=
  no_spurious_no_duplicate pairWorld_reachable _

/-! ### Replies -/

/-- Two nodes of the initial view have delivered the same payloads under one key. -/
theorem AsyncInvariant.content_eq {w : World cfg} {entries : Fin cfg.ringSize → List Entry}
    (holds : AsyncInvariant mode w entries) {p q : Fin cfg.ringSize} {a b : Entry}
    (left : a ∈ entries p) (right : b ∈ entries q) (key : a.1 = b.1) : a.2 = b.2 := by
  have alive : ∀ q, (View.initial cfg mode).Alive q := View.alive_initial mode
  obtain ⟨t, member, ready, rfl⟩ := (holds.coherent.replica p (alive p)).cargo a left
  obtain ⟨t', member', ready', rfl⟩ := (holds.coherent.replica q (alive q)).cargo b right
  have isKey := (holds.coherent.replica p (alive p)).segment.keys _ left
  have two := cfg.two_le
  have other : ∃ r : Fin cfg.ringSize, (View.initial cfg mode).Alive r ∧ r.val ≠ t.issuer := by
    by_cases first : t.issuer = 0
    · exact ⟨⟨1, by omega⟩, alive 1, fun same => absurd (same.trans first) (by simp)⟩
    · exact ⟨⟨0, by omega⟩, alive 0, Ne.symm first⟩
  exact holds.coherent.ledger.cargo_eq member member' isKey key ready ready' other

/-- **Replies come after what they reply to.** A key at or below one that `p` had delivered is full
and emitted, so a payload accepted later travels above it. -/
theorem reply_after {w w' : World cfg} {p : Fin cfg.ringSize} {data : List UInt8} {m m' : Payload}
    (reachable : (asyncNetwork cfg mode).Reachable w) (delivered : m ∈ w.log p)
    (accepted : (w.node p).acceptedBy data = [m'])
    (later : (asyncNetwork cfg mode).Reaches (w.broadcast p data) w') (r : Fin cfg.ringSize)
    (front back : List Payload) (split : w'.log r = front ++ m' :: back) : m ∈ front := by
  obtain ⟨entries, holds⟩ := asyncInvariant_reachable reachable
  have step : (asyncNetwork cfg mode).Reaches w (w.broadcast p data) :=
    (Machine.Reaches.refl w).take (a := AsyncAction.broadcast p data) trivial
  obtain ⟨entries', holds', grows, keeps⟩ := holds.run (step.trans later)
  have alive : ∀ q, (View.initial cfg mode).Alive q := View.alive_initial mode
  have replica := holds.coherent.replica p (alive p)
  have replica' := holds'.coherent.replica r (alive r)
  have shape : w'.log r = (entries' r).flatMap Entry.content := holds'.coherent.logs r (alive r)
  -- no train emitted before the call carries the new payload
  have new : ∀ t ∈ w.emitted, m' ∉ t.payloads := by
    intro t member inside
    unfold TrainsNode.acceptedBy at accepted
    split_ifs at accepted with seen
    obtain rfl := List.singleton_inj.mp accepted
    obtain ⟨q, taken⟩ := holds.custody.carried t member _ inside
    obtain ⟨sender, noted⟩ := holds.custody.own q _ taken
    obtain rfl : p = q := Fin.ext ((holds.custody.ids p).symm.trans sender)
    exact seen noted
  have before : w.log p = (entries p).flatMap Entry.content := holds.coherent.logs p (alive p)
  obtain ⟨early, inEntries, inEarly⟩ : ∃ entry ∈ entries p, m ∈ entry.content :=
    List.mem_flatMap.mp (before ▸ delivered)
  obtain ⟨late, inLater, inLate⟩ : ∃ entry ∈ entries' r, m' ∈ entry.content := by
    refine List.mem_flatMap.mp ?_
    rw [← shape, split]
    exact List.mem_append_right _ List.mem_cons_self
  have below : early.1 < late.1 := by
    by_contra notBelow
    obtain ⟨entry, member, same⟩ : ∃ entry ∈ entries p, entry.1 = late.1 := by
      rcases (not_lt.mp notBelow).lt_or_eq with less | same
      · exact replica.segment.closed early inEntries late.1 (replica'.segment.keys late inLater) less
      · exact ⟨early, inEntries, same.symm⟩
    have cargo := holds'.content_eq ((grows p).subset member) inLater same
    obtain ⟨t, emitted, -, origin⟩ := replica.cargo entry member
    refine new t emitted (?_ : m' ∈ t.payloads)
    rw [show t.payloads = late.2 from (congrArg Prod.snd origin).trans cargo]
    exact mem_sortPayloads.mp inLate
  obtain ⟨copy, inLater', same⟩ := replica'.segment.closed late inLater early.1
    (replica.segment.keys early inEntries) below
  have inCopy : m ∈ Entry.content copy := by
    unfold Entry.content
    rw [holds'.content_eq inLater' ((grows p).subset inEntries) same]
    exact inEarly
  exact replica'.segment.content_before Entry.content (replica'.nodup_contents holds'.custody)
    inLater' inLater (same ▸ below) inCopy inLate (shape ▸ split)

/-- Node `0` answers the payload it delivered; its next train carries the answer around, and node
`1` delivers both when the closed trains pass it. -/
def replyRun : List (AsyncAction .pair) :=
  [.receive 0 ⟨0, 1, [⟨1, 0, [7]⟩], 3#32⟩,
    .receive 1 ⟨0, 1, [⟨1, 0, [7]⟩], 3#32⟩,
    .receive 1 ⟨0, 2, [⟨0, 0, [8]⟩], 1#32⟩,
    .receive 1 ⟨0, 2, [⟨0, 0, [8]⟩], 3#32⟩]

/-- The world after the answer went around. -/
def replyWorld : World .pair :=
  (asyncNetwork .pair .uniformTotalOrder).run (pairWorld.broadcast 0 [8]) replyRun

theorem reply_after_pair :
    replyWorld.log 1 = [⟨1, 0, [7]⟩, ⟨0, 0, [8]⟩] ∧
      (⟨1, 0, [7]⟩ : Payload) ∈ (replyWorld.log 1).take 1 := by
  have delivered : (⟨1, 0, [7]⟩ : Payload) ∈ pairWorld.log 0 := by decide +kernel
  have accepted : (pairWorld.node 0).acceptedBy [8] = [⟨0, 0, [8]⟩] := by
    decide +kernel
  have later : (asyncNetwork .pair .uniformTotalOrder).Reaches
      (pairWorld.broadcast 0 [8]) replyWorld := Machine.reaches_run (by decide +kernel)
  exact ⟨by decide +kernel, reply_after pairWorld_reachable delivered accepted later
    1 _ [] (by decide +kernel)⟩

end TrainsRing
