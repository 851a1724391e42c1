/-
**The order of the reports does not matter.**

Two coordinators that gather the same reports in different orders merge them into different plans:
the union keeps the payloads of a key in the order in which they came. Delivery sorts them, and
nothing else looks at their order, so a node that applies either plan ends in the same state, except
for the order of payloads within a key of its delivered cache.

* `ActionMatch` — two actions that deliver the same payloads.
* `unionPayloads_perm`, `matching_actions` — the two plans match, action by action.
* `Alike` — two nodes that differ in the order of cached payloads at most; every step of
  `apply_recovery` keeps them alike and puts out the same.
* `merge_order_irrelevant` — **both plans have the same effect on every node.**
-/

import TrainsRing.Library.Matching
import TrainsRing.Reconfig.Closing

namespace TrainsRing

variable {cfg : RingConfig}

/-! ### The two plans -/

/-- Payloads with equal identifiers under one key carry equal data. -/
def Agreeing (reports : List (RecoveryReport cfg)) : Prop :=
  ∀ report ∈ reports, ∀ other ∈ reports, ∀ key held held', report.haves.get? key = some held →
    other.haves.get? key = some held' → ∀ payload ∈ held, ∀ payload' ∈ held',
      payload.msgId = payload'.msgId → payload.data = payload'.data

variable {reports reports' : List (RecoveryReport cfg)}

theorem Payload.ext_msgId {first second : Payload} (id : first.msgId = second.msgId)
    (data : first.data = second.data) : first = second := by
  obtain ⟨sender, seq, bytes⟩ := first
  obtain ⟨_, _, _⟩ := second
  simp_all [Payload.msgId]

/-- **The unions hold the same payloads.** -/
theorem unionPayloads_perm (agreeing : Agreeing reports) (perm : reports.Perm reports')
    (key : ClockKey) : (unionPayloads reports key).Perm (unionPayloads reports' key) := by
  have half : ∀ {reports reports' : List (RecoveryReport cfg)}, Agreeing reports →
      (∀ report, report ∈ reports ↔ report ∈ reports') →
      ∀ payload ∈ unionPayloads reports key, payload ∈ unionPayloads reports' key := by
    intro reports reports' agreeing members payload inside
    obtain ⟨origin, -⟩ := mem_unionPayloads reports key
    obtain ⟨origin', covers'⟩ := mem_unionPayloads reports' key
    obtain ⟨report, member, held, found, inHeld⟩ := origin payload inside
    obtain ⟨other, inUnion, id⟩ := covers' report ((members report).mp member) held found payload
      inHeld
    obtain ⟨report', member', held', found', inHeld'⟩ := origin' other inUnion
    have data := agreeing report' ((members report').mpr member') report member key held' held
      found' found other inHeld' payload inHeld id
    exact Payload.ext_msgId id data ▸ inUnion
  have agreeing' : Agreeing reports' := fun report member other member' =>
    agreeing report (perm.mem_iff.mpr member) other (perm.mem_iff.mpr member')
  refine (List.perm_ext_iff_of_nodup (nodup_unionPayloads reports key).of_map
    (nodup_unionPayloads reports' key).of_map).mpr fun payload => ⟨?_, ?_⟩
  · exact half agreeing (fun _ => perm.mem_iff) payload
  · exact half agreeing' (fun _ => perm.mem_iff.symm) payload

/-- Payloads with distinct identifiers are sorted in one way only. -/
theorem sortPayloads_perm {payloads payloads' : List Payload}
    (distinct : (payloads.map Payload.msgId).Nodup) (perm : payloads.Perm payloads') :
    sortPayloads payloads = sortPayloads payloads' := by
  have sorted := List.perm_insertionSort Payload.precedes payloads
  have sorted' := List.perm_insertionSort Payload.precedes payloads'
  refine List.Perm.eq_of_pairwise (fun first second inFirst inSecond before after => ?_)
    (sorted_sortPayloads payloads) (sorted_sortPayloads payloads')
    (sorted.trans (perm.trans sorted'.symm))
  have id : first.msgId = second.msgId := by
    unfold Payload.precedes at before after
    simp only [Payload.msgId, Prod.mk.injEq]
    omega
  exact List.inj_on_of_nodup_map distinct (sorted.mem_iff.mp inFirst)
    (perm.mem_iff.mpr (sorted'.mem_iff.mp inSecond)) id

/-- Two actions that deliver the same payloads, in the same order once sorted. -/
def ActionMatch (action action' : RecoveryAction) : Prop :=
  action.payloads.Perm action'.payloads ∧
    sortPayloads action.payloads = sortPayloads action'.payloads

theorem boundaryOf_perm (perm : reports.Perm reports') :
    boundaryOf reports = boundaryOf reports' := by
  ext q inside
  refine eq_of_forall_ge_iff fun bound => ?_
  rw [boundaryOf_le_iff reports inside, boundaryOf_le_iff reports' inside]
  simp only [perm.mem_iff]

theorem actionFor_match (agreeing : Agreeing reports) (perm : reports.Perm reports')
    (key : ClockKey) : Option.Rel ActionMatch (actionFor reports key) (actionFor reports' key) := by
  have unplanned : actionFor reports key = none ↔ actionFor reports' key = none := by
    rw [actionFor_eq_none, actionFor_eq_none]
    simp only [perm.mem_iff]
  have union := unionPayloads_perm agreeing perm key
  cases left : actionFor reports key with
  | none =>
    rw [unplanned.mp left]
    exact Option.Rel.none
  | some action =>
    obtain ⟨action', right⟩ := Option.ne_none_iff_exists'.mp fun none =>
      absurd (unplanned.mpr none) (by simp [left])
    rw [right]
    refine Option.Rel.some ⟨?_, ?_⟩
    · rw [payloads_of_actionFor left, payloads_of_actionFor right]
      exact union
    · rw [payloads_of_actionFor left, payloads_of_actionFor right]
      exact sortPayloads_perm (nodup_unionPayloads reports key) union

/-- **The two plans match, action by action.** -/
theorem matching_actions (agreeing : Agreeing reports) (perm : reports.Perm reports') :
    Matching ActionMatch (computeRecoveryPlan reports).actions
      (computeRecoveryPlan reports').actions := by
  unfold computeRecoveryPlan
  rw [boundaryOf_perm perm]
  exact Matching.collect _ (actionFor_match agreeing perm)

/-! ### Nodes that are alike -/

namespace TrainsNode

/-- The node with another delivered cache. -/
def withCache (node : TrainsNode cfg) (cache : OrdMap ClockKey (List Payload)) : TrainsNode cfg :=
  { node with deliveredCache := cache }

/-- The nodes differ in their delivered caches only, and these in the order of payloads within a
key. -/
structure Alike (node other : TrainsNode cfg) : Prop where
  rest : other = node.withCache other.deliveredCache
  caches : Matching List.Perm node.deliveredCache other.deliveredCache

theorem Alike.delivery {node other : TrainsNode cfg} (alike : Alike node other) :
    other.delivery = node.delivery := by
  rw [alike.rest]
  rfl

theorem Alike.parked {node other : TrainsNode cfg} (alike : Alike node other) :
    other.parked = node.parked := by
  rw [alike.rest]
  rfl

theorem Alike.frozen {node other : TrainsNode cfg} (alike : Alike node other) :
    other.frozen = node.frozen := by
  rw [alike.rest]
  rfl

theorem Alike.refl (node : TrainsNode cfg) : Alike node node :=
  ⟨rfl, Matching.refl List.Perm.refl node.deliveredCache⟩

/-- The bound of the cache drops the same keys from both. -/
theorem matching_evict (fuel : Nat) : ∀ {cache cache' : OrdMap ClockKey (List Payload)},
    Matching List.Perm cache cache' → Matching List.Perm (evict fuel cache) (evict fuel cache') := by
  induction fuel with
  | zero => exact fun matching => matching
  | succ fuel ih =>
    intro cache cache' matching
    unfold evict
    rw [matching.size]
    split_ifs with full
    · have smallest := matching.min?
      generalize cache.min? = least, cache'.min? = least' at smallest ⊢
      cases smallest with
      | none => exact matching
      | @some head head' first =>
        show Matching List.Perm (evict fuel (cache.erase head.1)) (evict fuel (cache'.erase head'.1))
        rw [← first.1]
        exact ih (matching.erase _)
    · exact matching

/-- The same changes to two alike nodes, apart from their caches. -/
theorem Alike.map {node other : TrainsNode cfg} (alike : Alike node other)
    (change : TrainsNode cfg → TrainsNode cfg)
    (blind : ∀ (node : TrainsNode cfg) cache,
      change (node.withCache cache) = (change node).withCache cache) :
    Alike (change node) (change other) := by
  have keeps : ∀ node : TrainsNode cfg, (change node).deliveredCache = node.deliveredCache :=
    fun node => by
      have same := congrArg TrainsNode.deliveredCache (blind node node.deliveredCache)
      exact same
  refine ⟨?_, ?_⟩
  · rw [keeps other]
    exact (congrArg change alike.rest).trans (blind node other.deliveredCache)
  · rw [keeps, keeps]
    exact alike.caches

/-- **Recording one key with the same payloads.** -/
theorem Alike.deliverNow {node other : TrainsNode cfg} (alike : Alike node other) (key : ClockKey)
    {payloads payloads' : List Payload} (perm : payloads.Perm payloads')
    (sorted : sortPayloads payloads = sortPayloads payloads') :
    Alike (node.deliverNow key payloads).1 (other.deliverNow key payloads').1 ∧
      (node.deliverNow key payloads).2 = (other.deliverNow key payloads').2 := by
  obtain ⟨rest, caches⟩ := alike
  generalize other.deliveredCache = cache at rest caches
  subst rest
  have empty : payloads.isEmpty = payloads'.isEmpty := by
    rw [Bool.eq_iff_iff, List.isEmpty_iff, List.isEmpty_iff]
    exact ⟨fun none => List.nil_perm.mp (none ▸ perm), fun none => List.perm_nil.mp (none ▸ perm)⟩
  unfold TrainsNode.deliverNow cacheDelivered
  rw [← empty, ← sorted]
  split_ifs with none
  · exact ⟨⟨rfl, caches⟩, rfl⟩
  · have grown := caches.insert key perm
    refine ⟨⟨rfl, ?_⟩, rfl⟩
    show Matching List.Perm (evict (node.deliveredCache.insert key payloads).size _)
      (evict (cache.insert key payloads').size _)
    rw [← grown.size]
    exact matching_evict _ grown

/-- The order of payloads does not matter to `broadcast_seen`. -/
theorem noteSeen_perm {payloads payloads' : List Payload} (perm : payloads.Perm payloads')
    (node : TrainsNode cfg) : node.noteSeen payloads = node.noteSeen payloads' := by
  have seen : (node.noteSeen payloads).broadcastSeen = (node.noteSeen payloads').broadcastSeen := by
    ext id
    rw [mem_broadcastSeen_noteSeen, mem_broadcastSeen_noteSeen]
    simp only [Mentions, perm.mem_iff]
  exact congrArg (fun known => { node with broadcastSeen := known }) seen

/-- One round of `apply_recovery` with two actions that match. -/
theorem Alike.applyAction {state state' : TrainsNode cfg × List Output}
    (alike : Alike state.1 state'.1) (outputs : state.2 = state'.2)
    {entry entry' : ClockKey × RecoveryAction} (same : EntryMatch ActionMatch entry entry') :
    Alike (TrainsNode.applyAction state entry).1 (TrainsNode.applyAction state' entry').1 ∧
      (TrainsNode.applyAction state entry).2 = (TrainsNode.applyAction state' entry').2 := by
  obtain ⟨key, perm, sorted⟩ := same
  rw [applyAction_eq, applyAction_eq]
  dsimp only
  rw [← key, alike.delivery, ← outputs]
  have cleared : Alike ((state.1.observe entry.1.issuer entry.1.clock).unpark entry.1)
      ((state'.1.observe entry.1.issuer entry.1.clock).unpark entry.1) :=
    alike.map (fun node => (node.observe entry.1.issuer entry.1.clock).unpark entry.1)
      fun _ _ => rfl
  split_ifs with known
  · exact ⟨cleared, rfl⟩
  · have noted := cleared.map (fun node => node.noteSeen entry.2.payloads) fun _ _ => rfl
    rw [noteSeen_perm perm ((state'.1.observe _ _).unpark _)] at noted
    obtain ⟨after, announced⟩ := noted.deliverNow entry.1 perm sorted
    exact ⟨after, congrArg (state.2 ++ ·) announced⟩

/-- Draining does not look at the cache. -/
theorem Alike.drainLoop (fuel : Nat) : ∀ {node other : TrainsNode cfg}, Alike node other →
    Alike (TrainsNode.drainLoop fuel node).1 (TrainsNode.drainLoop fuel other).1 ∧
      (TrainsNode.drainLoop fuel node).2 = (TrainsNode.drainLoop fuel other).2 := by
  induction fuel with
  | zero => exact fun alike => ⟨alike, rfl⟩
  | succ fuel ih =>
    intro node other alike
    have gate : ∀ key, node.isDeliverable key = other.isDeliverable key := fun key => by
      rw [alike.rest]
      rfl
    unfold TrainsNode.drainLoop
    rw [alike.parked]
    cases node.parked.min? with
    | none => exact ⟨alike, rfl⟩
    | some head =>
      dsimp only
      rw [← gate]
      split_ifs
      · have unparked : Alike (node.unpark head.1) (other.unpark head.1) :=
          alike.map (fun node => node.unpark head.1) fun _ _ => rfl
        have delivered := unparked.deliverNow head.1 (List.Perm.refl head.2.payloads) rfl
        unfold unpark at delivered
        rw [alike.parked] at delivered
        obtain ⟨after, announced⟩ := ih delivered.1
        exact ⟨after, by rw [delivered.2, announced]⟩
      · exact ⟨alike, rfl⟩

theorem Alike.drainParked {node other : TrainsNode cfg} (alike : Alike node other) :
    Alike node.drainParked.1 other.drainParked.1 ∧
      node.drainParked.2 = other.drainParked.2 := by
  unfold TrainsNode.drainParked
  rw [alike.frozen, alike.parked]
  split_ifs
  · exact ⟨alike, rfl⟩
  · exact alike.drainLoop _

/-- Only the boundary of a plan matters to the view it installs. -/
theorem Alike.installView {node other : TrainsNode cfg} (alike : Alike node other)
    {plan plan' : RecoveryPlan cfg} (boundary : plan'.boundary = plan.boundary) :
    Alike (node.installView plan) (other.installView plan') := by
  have view : other.installView plan' = other.installView plan := by
    unfold TrainsNode.installView RecoveryPlan.reissueClock
    rw [boundary]
  rw [view]
  exact alike.map (fun node => node.installView plan) fun _ _ => rfl

end TrainsNode

/-- **The order in which the reports were gathered does not matter**: a node that applies the plan
of the reports or that of a permutation of them puts out the same and ends in the same state, but
for the order of payloads within a key of its delivered cache. No node needs to be in a particular
state for it. -/
theorem merge_order_irrelevant (agreeing : Agreeing reports) (perm : reports.Perm reports')
    (node : TrainsNode cfg) :
    (node.applyRecovery (computeRecoveryPlan reports)).2 =
        (node.applyRecovery (computeRecoveryPlan reports')).2 ∧
      TrainsNode.Alike (node.applyRecovery (computeRecoveryPlan reports)).1
        (node.applyRecovery (computeRecoveryPlan reports')).1 := by
  let Same := fun state state' : TrainsNode cfg × List Output =>
    TrainsNode.Alike state.1 state'.1 ∧ state.2 = state'.2
  have start : Same (node, []) (node, []) := ⟨.refl node, rfl⟩
  have loop : Same
      ((computeRecoveryPlan reports).actions.entries.foldl TrainsNode.applyAction (node, []))
      ((computeRecoveryPlan reports').actions.entries.foldl TrainsNode.applyAction (node, [])) :=
    (matching_actions agreeing perm).foldl Same
      (fun _ _ _ _ same first => same.1.applyAction same.2 first) start
  have boundary : (computeRecoveryPlan reports').boundary = (computeRecoveryPlan reports).boundary :=
    (boundaryOf_perm perm).symm
  obtain ⟨after, drained⟩ := (loop.1.installView boundary).drainParked
  refine ⟨?_, after⟩
  show _ ++ _ = _ ++ _
  rw [loop.2]
  exact congrArg _ drained

/-- Two survivors hold the payloads of one key in different orders, one of them one more. -/
def gathered : List (RecoveryReport .triple) :=
  [⟨(Slots.zero .triple).set 0 1, Slots.zero .triple, ∅,
      OrdMap.empty.insert ⟨1, 0⟩ [⟨2, 0, [7]⟩, ⟨1, 0, [5]⟩]⟩,
    ⟨(Slots.zero .triple).set 0 1, Slots.zero .triple, ∅,
      OrdMap.empty.insert ⟨1, 0⟩ [⟨1, 0, [5]⟩, ⟨2, 0, [7]⟩, ⟨2, 1, [8]⟩]⟩]

theorem merge_order_irrelevant_triple :
    ((TrainsNode.new .triple 2 (by decide) .totalOrder).applyRecovery
        (computeRecoveryPlan gathered)).2 =
      ((TrainsNode.new .triple 2 (by decide) .totalOrder).applyRecovery
        (computeRecoveryPlan gathered.reverse)).2 := by
  have agreeing : Agreeing gathered := by
    have all : ∀ report ∈ gathered, ∀ other ∈ gathered, ∀ entry ∈ report.haves.entries,
        ∀ entry' ∈ other.haves.entries, ∀ payload ∈ entry.2, ∀ payload' ∈ entry'.2,
        payload.msgId = payload'.msgId → payload.data = payload'.data := by decide
    intro report member other member' key held held' found found'
    exact all report member other member' _ (OrdMap.mem_entries_iff _ |>.mpr found) _
      (OrdMap.mem_entries_iff _ |>.mpr found')
  exact (merge_order_irrelevant agreeing gathered.reverse_perm.symm _).1

end TrainsRing
