/-
**Adopting a plan.**

Nodes of one view report, and each of them applies the plan made of the reports. They may differ in
how far they have delivered. `cargo` is what they agree on: the payloads every key of the view was
delivered or parked with, empty where nobody has any.

* `Reporter view cargo node entries` — what the merge relies on at one reporting node, which has
  delivered `entries` in the view.
* `Gathering` — the reporting nodes together: a load that one of them misses is in some report.
* `Gathering.within_of_action`, `Gathering.planned` — **what the plan holds**: exactly the keys of the
  view up to the boundary that some node misses, each with its cargo.
* `Adopting` — the loop invariant of `apply_recovery`; `Adopting.step` is one round.
* `Gathering.adopt` — **every node ends with all keys up to the boundary**: it delivers the missing
  ones in order, and nothing of the old view is left in it (`Installed`).
-/

import TrainsRing.Agreement.Replica
import TrainsRing.Reconfig.Apply
import TrainsRing.Reconfig.Cache
import TrainsRing.Reconfig.Merge

namespace TrainsRing

variable {cfg : RingConfig} {view : View cfg} {cargo : ClockKey → List Payload}

open TrainsNode

/-- What the merge relies on at a reporting node. -/
structure Reporter (view : View cfg) (cargo : ClockKey → List Payload) (node : TrainsNode cfg)
    (entries : List Entry) : Prop where
  floor : node.viewFloor = view.floor
  segment : Segment Prod.fst view.Key entries
  done : ∀ key, key ∈ node.delivery.doneKeys ↔ view.Old key ∨ ∃ entry ∈ entries, entry.1 = key
  loads : ∀ entry ∈ entries, entry.2 = cargo entry.1
  seenFloor : ∀ q, view.floor.get q ≤ node.seenClock q
  seenIdle : ∀ q, ¬ view.Issuer q → node.seenClock q = view.floor.get q
  seenDone : ∀ entry ∈ entries, ∀ q, view.Issuer q → entry.1.clock ≤ node.seenClock q
  parked : ∀ key train, node.parked.get? key = some train → view.Key key ∧
    key ∉ node.delivery.doneKeys ∧ key.clock ≤ node.seenClock key.issuer ∧
      train.payloads = cargo key
  cached : ∀ key payloads, node.deliveredCache.get? key = some payloads →
    view.Old key ∨ (key, payloads) ∈ entries
  issued : ¬ view.Issuer node.id → node.nextIssueClock ≤ view.floor.get node.id + 1

/-- The keys of a view up to a boundary. -/
def View.Within (view : View cfg) (boundary : Slots cfg) (key : ClockKey) : Prop :=
  view.Key key ∧ key.clock ≤ boundary.get key.issuer

/-- Nothing of the old view is left in the node: it has settled all keys up to the new floor and no
others, and has seen that far. -/
structure Installed (boundary : Slots cfg) (node : TrainsNode cfg) : Prop where
  floor : node.viewFloor = boundary
  unfrozen : node.frozen = false
  done : ∀ key, key ∈ node.delivery.doneKeys ↔
    key.issuer < cfg.ringSize ∧ 1 ≤ key.clock ∧ key.clock ≤ boundary.get key.issuer
  seen : ∀ q, node.seenClock q = boundary.get q
  parked : ∀ key, node.parked.get? key = none
  cached : ∀ key payloads, node.deliveredCache.get? key = some payloads →
    key.issuer < cfg.ringSize ∧ 1 ≤ key.clock ∧ key.clock ≤ boundary.get key.issuer

/-! ### The reports -/

/-- The reporting nodes of one view. -/
structure Gathering {ι : Type} (view : View cfg) (cargo : ClockKey → List Payload)
    (members : List ι) (node : ι → TrainsNode cfg) (entries : ι → List Entry) : Prop where
  reporter : ∀ p ∈ members, Reporter view cargo (node p) (entries p)
  distinct : ∀ key, ((cargo key).map Payload.msgId).Nodup
  carried : ∀ key, view.Key key → cargo key ≠ [] →
    (∃ p ∈ members, key ∉ (node p).delivery.doneKeys) →
      ∃ p ∈ members, (node p).retransmittable.get? key = some (cargo key)

/-- The reports of some nodes. -/
def reportsOf {ι : Type} (members : List ι) (node : ι → TrainsNode cfg) :
    List (RecoveryReport cfg) := members.map fun p => (node p).recoveryReport

namespace Reporter

variable {node : TrainsNode cfg} {entries : List Entry}

/-- A key of the view is done exactly when it is an entry. -/
theorem done_iff (reporter : Reporter view cargo node entries) {key : ClockKey}
    (isKey : view.Key key) :
    key ∈ node.delivery.doneKeys ↔ ∃ entry ∈ entries, entry.1 = key :=
  (reporter.done key).trans (or_iff_right (View.not_old_of_key isKey))

/-- An entry has been seen. -/
theorem entry_seen (reporter : Reporter view cargo node entries) {entry : Entry}
    (member : entry ∈ entries) : entry.1.clock ≤ node.seenClock entry.1.issuer :=
  reporter.seenDone entry member _ (reporter.segment.keys entry member).1

/-- What the report has for a key of the view is its cargo. -/
theorem load_eq (reporter : Reporter view cargo node entries) {key : ClockKey}
    (isKey : view.Key key) {payloads : List Payload}
    (found : node.retransmittable.get? key = some payloads) : payloads = cargo key := by
  rcases (retransmittable_cases found).2 with cached | ⟨train, waiting, rfl⟩
  · rcases reporter.cached key payloads cached with old | member
    · exact absurd old (View.not_old_of_key isKey)
    · exact reporter.loads _ member
  · exact (reporter.parked key train waiting).2.2.2

end Reporter

namespace Gathering

variable {ι : Type} {members : List ι} {node : ι → TrainsNode cfg} {entries : ι → List Entry}

theorem mem_reports (node : ι → TrainsNode cfg) {p : ι} (member : p ∈ members) :
    (node p).recoveryReport ∈ reportsOf members node := List.mem_map_of_mem member

/-- The boundary covers what every node has seen. -/
theorem seen_le (node : ι → TrainsNode cfg) {p : ι} (member : p ∈ members) (q : Nat) :
    (node p).seenClock q ≤ (boundaryOf (reportsOf members node)).get q := by
  by_cases inside : q < cfg.ringSize
  · have known := seen_le_boundaryOf (mem_reports node member) inside
    rwa [show (node p).recoveryReport.seen.get q = (node p).seenClock q from
      Slots.get_ofFn _ inside] at known
  · have nothing : (node p).seenClock q = 0 := Slots.get_outside _ (not_lt.mp inside)
    rw [nothing]
    exact Nat.zero_le _

/-- The boundary covers what every node has issued. -/
theorem issued_le (node : ι → TrainsNode cfg) {p : ι} (member : p ∈ members) :
    (node p).nextIssueClock - 1 ≤ (boundaryOf (reportsOf members node)).get (node p).id := by
  have known := issued_le_boundaryOf (mem_reports node member) (node p).id_lt
  have own : (node p).recoveryReport.issued.get (node p).id = (node p).nextIssueClock - 1 := by
    show (Slots.set _ (node p).id _).get (node p).id = _
    rw [Slots.get_set, if_pos ⟨rfl, (node p).id_lt⟩]
  rwa [own] at known

/-- The boundary of a slot is bounded by what bounds every node's seen and issued clocks. -/
theorem boundary_le {q bound : Nat} (inside : q < cfg.ringSize)
    (seen : ∀ p ∈ members, (node p).seenClock q ≤ bound)
    (issued : ∀ p ∈ members, (node p).id = q → (node p).nextIssueClock ≤ bound + 1) :
    (boundaryOf (reportsOf members node)).get q ≤ bound := by
  refine (boundaryOf_le_iff _ inside bound).mpr fun report listed => ?_
  obtain ⟨p, member, rfl⟩ := List.mem_map.mp listed
  refine ⟨?_, ?_⟩
  · rw [show (node p).recoveryReport.seen.get q = (node p).seenClock q from
      Slots.get_ofFn _ inside]
    exact seen p member
  · show (Slots.set _ (node p).id _).get q ≤ bound
    rw [Slots.get_set]
    split_ifs with own
    · have step := issued p member own.1.symm
      omega
    · rw [Slots.get_zero]
      exact Nat.zero_le _

/-- An action is for a key that some node misses. -/
theorem missed_of_action {key : ClockKey} {action : RecoveryAction}
    (found : actionFor (reportsOf members node) key = some action) :
    ∃ p ∈ members, key ∉ (node p).delivery.doneKeys := by
  by_contra all
  push Not at all
  have nothing := (actionFor_eq_none (reportsOf members node) key).mpr fun report listed => by
    obtain ⟨p, member, rfl⟩ := List.mem_map.mp listed
    exact all p member
  rw [nothing] at found
  cases found

/-- **Every key of the view up to the boundary that some node misses has an action.** -/
theorem planned {key : ClockKey}
    (within : view.Within (boundaryOf (reportsOf members node)) key)
    (missed : ∃ p ∈ members, key ∉ (node p).delivery.doneKeys) :
    ∃ action, (key, action) ∈ (computeRecoveryPlan (reportsOf members node)).actions.entries := by
  obtain ⟨isKey, bounded⟩ := within
  have positive : 1 ≤ key.clock := by
    have := isKey.2
    omega
  cases found : actionFor (reportsOf members node) key with
  | none =>
    obtain ⟨p, member, fresh⟩ := missed
    exact absurd ((actionFor_eq_none _ key).mp found _ (mem_reports node member)) fresh
  | some action =>
    refine ⟨action, (OrdMap.mem_entries_iff _).mpr ?_⟩
    rw [get?_actions, if_pos ⟨isKey.1.inside, positive, bounded⟩, found]

variable (gathering : Gathering view cargo members node entries)

include gathering

/-- The boundary leaves the slots of other processes where they are. -/
theorem boundary_idle {q : Nat} (inside : q < cfg.ringSize) (idle : ¬ view.Issuer q) :
    (boundaryOf (reportsOf members node)).get q ≤ view.floor.get q :=
  boundary_le inside (fun p member => ((gathering.reporter p member).seenIdle q idle).le)
    fun p member own => own ▸ (gathering.reporter p member).issued (own ▸ idle)

theorem floor_le {p : ι} (member : p ∈ members) (q : Nat) :
    view.floor.get q ≤ (boundaryOf (reportsOf members node)).get q :=
  ((gathering.reporter p member).seenFloor q).trans (seen_le node member q)

/-- **The merge finds the cargo.** -/
theorem union_eq {key : ClockKey} (isKey : view.Key key)
    (missed : ∃ p ∈ members, key ∉ (node p).delivery.doneKeys) :
    unionPayloads (reportsOf members node) key = cargo key := by
  refine unionPayloads_eq (gathering.distinct key) (fun report listed payloads found => ?_)
    fun loaded => ?_
  · obtain ⟨p, member, rfl⟩ := List.mem_map.mp listed
    exact (gathering.reporter p member).load_eq isKey found
  · obtain ⟨p, member, found⟩ := gathering.carried key isKey loaded missed
    exact ⟨_, mem_reports node member, found⟩

/-- **Every action is for a key of the view up to the boundary, with its cargo.** -/
theorem within_of_action {key : ClockKey} {action : RecoveryAction}
    (planned : (key, action) ∈ (computeRecoveryPlan (reportsOf members node)).actions.entries) :
    view.Within (boundaryOf (reportsOf members node)) key ∧ action.payloads = cargo key := by
  have found := (OrdMap.mem_entries_iff _).mp planned
  rw [get?_actions] at found
  split_ifs at found with range
  obtain ⟨inside, positive, bounded⟩ := range
  have missed := missed_of_action found
  obtain ⟨p, member, fresh⟩ := missed
  have notOld : ¬ view.Old key := fun old =>
    fresh (((gathering.reporter p member).done key).mpr (Or.inl old))
  have above : view.floor.get key.issuer < key.clock := by
    by_contra low
    exact notOld ⟨inside, positive, not_lt.mp low⟩
  have issuer : view.Issuer key.issuer := by
    by_contra idle
    have low := gathering.boundary_idle inside idle
    omega
  refine ⟨⟨⟨issuer, above⟩, bounded⟩, ?_⟩
  rw [payloads_of_actionFor found, gathering.union_eq ⟨issuer, above⟩ ⟨p, member, fresh⟩]

end Gathering

/-! ### The loop -/

/-- The loop invariant of `apply_recovery`: `rest` are the actions to come, `entries` what the node
has delivered so far. -/
structure Adopting (view : View cfg) (cargo : ClockKey → List Payload) (boundary : Slots cfg)
    (rest : List (ClockKey × RecoveryAction)) (node : TrainsNode cfg) (entries : List Entry) :
    Prop where
  segment : Segment Prod.fst (view.Within boundary) entries
  done : ∀ key, key ∈ node.delivery.doneKeys ↔ view.Old key ∨ ∃ entry ∈ entries, entry.1 = key
  loads : ∀ entry ∈ entries, entry.2 = cargo entry.1
  waiting : ∀ key, view.Within boundary key →
    (∃ entry ∈ entries, entry.1 = key) ∨ ∃ action, (key, action) ∈ rest
  parked : ∀ key train, node.parked.get? key = some train → ∃ action, (key, action) ∈ rest
  bounded : ∀ q, node.seenClock q ≤ boundary.get q
  reached : ∀ q, node.seenClock q = boundary.get q ∨ ∃ action, (⟨boundary.get q, q⟩, action) ∈ rest
  cached : ∀ key payloads, node.deliveredCache.get? key = some payloads →
    view.Old key ∨ view.Within boundary key

namespace Adopting

variable {boundary : Slots cfg} {rest : List (ClockKey × RecoveryAction)} {node : TrainsNode cfg}
  {entries : List Entry} {key : ClockKey} {action : RecoveryAction}

/-- The clock is stored and the parked train dropped: the action's part that does not depend on
whether the key is done. -/
theorem clear (adopting : Adopting view cargo boundary ((key, action) :: rest) node entries)
    (within : view.Within boundary key) (settled : ∃ entry ∈ entries, entry.1 = key) :
    Adopting view cargo boundary rest ((node.observe key.issuer key.clock).unpark key) entries := by
  have inside := within.1.1.inside
  have later : ∀ {other : ClockKey}, other ≠ key →
      (∃ a, (other, a) ∈ (key, action) :: rest) → ∃ a, (other, a) ∈ rest := by
    rintro other different ⟨a, member⟩
    refine ⟨a, (List.mem_cons.mp member).resolve_left fun same => different ?_⟩
    exact congrArg Prod.fst same
  refine ⟨adopting.segment, adopting.done, adopting.loads, fun other isWithin => ?_,
    fun other train found => ?_, fun q => ?_, fun q => ?_, adopting.cached⟩
  · by_cases same : other = key
    · exact Or.inl (same ▸ settled)
    · exact (adopting.waiting other isWithin).imp_right (later same)
  · rw [TrainsNode.unpark, OrdMap.get?_erase] at found
    split_ifs at found with same
    exact later same (adopting.parked other train found)
  · show (node.observe key.issuer key.clock).seenClock q ≤ _
    rw [seenClock_observe node inside]
    split_ifs with same
    · rw [same]
      exact max_le (adopting.bounded _) within.2
    · exact adopting.bounded q
  · show (node.observe key.issuer key.clock).seenClock q = _ ∨ _
    rw [seenClock_observe node inside]
    by_cases last : (⟨boundary.get q, q⟩ : ClockKey) = key
    · left
      have issuer : q = key.issuer := congrArg ClockKey.issuer last
      have clock : boundary.get q = key.clock := congrArg ClockKey.clock last
      rw [if_pos issuer, ← clock, ← issuer]
      exact max_eq_right (adopting.bounded q)
    · refine (adopting.reached q).imp (fun seen => ?_) (later last)
      split_ifs with same
      · rw [← same, seen, max_eq_left]
        exact same ▸ within.2
      · exact seen

/-- **Delivering the action's key.** Every smaller key up to the boundary is done, because the actions
come in key order. -/
theorem deliver (adopting : Adopting view cargo boundary ((key, action) :: rest) node entries)
    (within : view.Within boundary key) (load : action.payloads = cargo key)
    (first : ∀ later ∈ rest, key < later.1) (fresh : key ∉ node.delivery.doneKeys) :
    Adopting view cargo boundary ((key, action) :: rest)
      (node.deliverNow key action.payloads).1 (entries ++ [(key, action.payloads)]) := by
  have unseen : ∀ entry ∈ entries, entry.1 ≠ key := fun entry member same =>
    fresh ((adopting.done key).mpr (Or.inr ⟨entry, member, same⟩))
  have seen : ∀ q, (node.deliverNow key action.payloads).1.seenClock q = node.seenClock q :=
    fun q => congrArg (fun state : ClockState cfg => state.lastSeen q)
      (deliverNow_frame node key action.payloads).clockState
  refine ⟨adopting.segment.snoc within unseen fun other isWithin below => ?_, fun other => ?_,
    fun entry member => ?_, fun other isWithin => ?_, fun other train found => ?_, fun q => ?_,
    fun q => ?_, fun other payloads found => ?_⟩
  · refine (adopting.waiting other isWithin).resolve_right fun ⟨a, member⟩ => ?_
    rcases List.mem_cons.mp member with here | later
    · exact absurd (congrArg Prod.fst here) below.ne
    · exact absurd (first _ later) (not_lt.mpr below.le)
  · rw [deliverNow_doneKeys, Finset.mem_insert, adopting.done]
    simp only [List.mem_append, List.mem_singleton]
    grind
  · rcases List.mem_append.mp member with old | new
    · exact adopting.loads entry old
    · rw [List.mem_singleton.mp new]
      exact load
  · refine (adopting.waiting other isWithin).imp_left fun ⟨entry, member, same⟩ => ?_
    exact ⟨entry, List.mem_append_left _ member, same⟩
  · rw [deliverNow_parked] at found
    exact adopting.parked other train found
  · rw [seen]
    exact adopting.bounded q
  · rw [seen]
    exact adopting.reached q
  · by_cases empty : action.payloads.isEmpty = true
    · have same : (node.deliverNow key action.payloads).1.deliveredCache = node.deliveredCache := by
        unfold deliverNow
        rw [if_pos empty]
      rw [same] at found
      exact adopting.cached other payloads found
    · have same : (node.deliverNow key action.payloads).1 =
          ({ node with delivery := node.delivery.recordDelivered key }).cacheDelivered key
            action.payloads := by
        unfold deliverNow
        rw [if_neg empty]
      rw [same] at found
      rcases get?_cacheDelivered found with ⟨rfl, -⟩ | old
      · exact Or.inr within
      · exact adopting.cached other payloads old

/-- Only the clocks, the delivery state, the parked trains and the cache matter. -/
theorem congr {after : TrainsNode cfg} (adopting : Adopting view cargo boundary rest node entries)
    (clocks : after.clockState = node.clockState) (delivery : after.delivery = node.delivery)
    (parked : after.parked = node.parked) (cache : after.deliveredCache = node.deliveredCache) :
    Adopting view cargo boundary rest after entries := by
  have seen : after.seenClock = node.seenClock := by
    funext q
    rw [seenClock, clocks, seenClock]
  exact {
    segment := adopting.segment
    done := delivery ▸ adopting.done
    loads := adopting.loads
    waiting := adopting.waiting
    parked := parked ▸ adopting.parked
    bounded := seen ▸ adopting.bounded
    reached := seen ▸ adopting.reached
    cached := cache ▸ adopting.cached }

/-- **One round of `apply_recovery`.** -/
theorem step (outputs : List Output)
    (adopting : Adopting view cargo boundary ((key, action) :: rest) node entries)
    (within : view.Within boundary key) (load : action.payloads = cargo key)
    (first : ∀ later ∈ rest, key < later.1) :
    Adopting view cargo boundary rest (applyAction (node, outputs) (key, action)).1
        (entries ++ node.actionEntries (key, action)) ∧
      deliveries (applyAction (node, outputs) (key, action)).2 =
        deliveries outputs ++ (node.actionEntries (key, action)).flatMap Entry.content ∧
      forwards (applyAction (node, outputs) (key, action)).2 = forwards outputs := by
  rw [applyAction_eq, actionEntries]
  dsimp only
  by_cases done : key ∈ node.delivery.doneKeys
  · rw [if_pos done, if_pos done]
    have settled := ((adopting.done key).mp done).resolve_left (View.not_old_of_key within.1)
    refine ⟨?_, by simp, rfl⟩
    rw [List.append_nil]
    exact adopting.clear within settled
  · rw [if_neg done, if_neg done]
    obtain ⟨emits, quiet⟩ := emits_deliverNow
      (((node.observe key.issuer key.clock).unpark key).noteSeen action.payloads) key action.payloads
    have delivered := (adopting.deliver within load first done).clear within
      ⟨_, List.mem_append_right _ (List.mem_singleton_self _), rfl⟩
    refine ⟨?_, ?_, ?_⟩
    · -- storing the clock and delivering commute
      refine delivered.congr ?_ ?_ ?_ ?_
      · exact (deliverNow_frame _ _ _).clockState.trans (congrArg
          (fun state : ClockState cfg => (state.checkAndUpdate key.issuer key.clock).1)
          (deliverNow_frame node key action.payloads).clockState).symm
      · unfold deliverNow cacheDelivered
        split_ifs <;> rfl
      · rw [deliverNow_parked]
        exact congrArg (fun trains => OrdMap.erase trains key)
          (deliverNow_parked node key action.payloads).symm
      · unfold deliverNow cacheDelivered
        split_ifs <;> rfl
    · rw [deliveries_append, emits]
    · rw [forwards_append, quiet, List.append_nil]

/-- **The loop**: all actions adopted. -/
theorem loop (rest : List (ClockKey × RecoveryAction)) :
    ∀ {node : TrainsNode cfg} {entries : List Entry} (outputs : List Output),
      Adopting view cargo boundary rest node entries →
      (∀ entry ∈ rest, view.Within boundary entry.1 ∧ entry.2.payloads = cargo entry.1) →
      (rest.Pairwise fun first second => first.1 < second.1) →
      Adopting view cargo boundary [] (rest.foldl applyAction (node, outputs)).1
          (entries ++ loopEntries rest node) ∧
        deliveries (rest.foldl applyAction (node, outputs)).2 =
          deliveries outputs ++ (loopEntries rest node).flatMap Entry.content ∧
        forwards (rest.foldl applyAction (node, outputs)).2 = forwards outputs := by
  induction rest with
  | nil =>
    intro node entries outputs adopting _ _
    exact ⟨by simpa [loopEntries] using adopting, by simp [loopEntries], rfl⟩
  | cons entry rest ih =>
    intro node entries outputs adopting planned ordered
    obtain ⟨first, tail⟩ := List.pairwise_cons.mp ordered
    obtain ⟨within, load⟩ := planned entry List.mem_cons_self
    obtain ⟨after, emits, quiet⟩ := adopting.step outputs within load first
    obtain ⟨last, rests, silent⟩ := ih (applyAction (node, outputs) entry).2 after
      (fun entry member => planned entry (List.mem_cons_of_mem _ member)) tail
    have next : loopEntries (entry :: rest) node = node.actionEntries entry ++
        loopEntries rest (applyAction (node, outputs) entry).1 := by
      rw [applyAction_node, loopEntries]
    rw [next]
    refine ⟨?_, ?_, silent.trans quiet⟩
    · rw [← List.append_assoc]
      exact last
    · rw [List.foldl_cons, List.flatMap_append, ← List.append_assoc, ← emits]
      exact rests

end Adopting

/-! ### The whole of `apply_recovery` -/

namespace Gathering

variable {ι : Type} {members : List ι} {node : ι → TrainsNode cfg} {entries : ι → List Entry}

theorem adopting (gathering : Gathering view cargo members node entries) {p : ι}
    (member : p ∈ members) :
    Adopting view cargo (boundaryOf (reportsOf members node))
      (computeRecoveryPlan (reportsOf members node)).actions.entries (node p) (entries p) := by
  have reporter := gathering.reporter p member
  have bounded : ∀ q, (node p).seenClock q ≤ _ := seen_le node member
  have missing : ∀ key, view.Within (boundaryOf (reportsOf members node)) key →
      (∃ entry ∈ entries p, entry.1 = key) ∨ ∃ action, (key, action) ∈
        (computeRecoveryPlan (reportsOf members node)).actions.entries := by
    intro key within
    refine or_iff_not_imp_left.mpr fun fresh => planned within ⟨p, member, ?_⟩
    rwa [reporter.done_iff within.1]
  have entryWithin : ∀ entry ∈ entries p,
      view.Within (boundaryOf (reportsOf members node)) entry.1 := fun entry inside =>
    ⟨reporter.segment.keys entry inside, (reporter.entry_seen inside).trans (bounded _)⟩
  refine ⟨⟨reporter.segment.sorted, entryWithin, fun entry inside key within below =>
      reporter.segment.closed entry inside key within.1 below⟩,
    reporter.done, reporter.loads, missing, fun key train found => ?_, bounded, fun q => ?_,
    fun key payloads found => ?_⟩
  · obtain ⟨isKey, fresh, seen, -⟩ := reporter.parked key train found
    refine (missing key ⟨isKey, seen.trans (bounded _)⟩).resolve_left fun delivered => ?_
    exact fresh ((reporter.done_iff isKey).mpr delivered)
  · refine or_iff_not_imp_left.mpr fun behind => ?_
    have below : (node p).seenClock q < (boundaryOf (reportsOf members node)).get q :=
      lt_of_le_of_ne (bounded q) behind
    have inside : q < cfg.ringSize := by
      by_contra outside
      rw [Slots.get_outside _ (not_lt.mp outside)] at below
      exact absurd below (Nat.not_lt_zero _)
    have floor := reporter.seenFloor q
    have issuer : view.Issuer q := by
      by_contra idle
      have low := gathering.boundary_idle inside idle
      omega
    have isKey : view.Key ⟨(boundaryOf (reportsOf members node)).get q, q⟩ :=
      ⟨issuer, lt_of_le_of_lt floor below⟩
    refine (missing _ ⟨isKey, le_rfl⟩).resolve_left fun ⟨entry, inside, same⟩ => ?_
    have seen := reporter.seenDone entry inside q issuer
    rw [same] at seen
    exact absurd seen (not_le.mpr below)
  · exact (reporter.cached key payloads found).imp_right fun inside => entryWithin _ inside

/-- **Every node ends with all keys of the view up to the boundary**: it delivers the missing ones,
in key order, and nothing of the old view is left in it. -/
theorem adopt (gathering : Gathering view cargo members node entries) {p : ι}
    (member : p ∈ members) :
    let plan := computeRecoveryPlan (reportsOf members node)
    let all := entries p ++ (node p).applyEntries plan
    Segment Prod.fst (view.Within plan.boundary) all ∧
      (∀ key, view.Within plan.boundary key → ∃ entry ∈ all, entry.1 = key) ∧
      (∀ entry ∈ all, entry.2 = cargo entry.1) ∧
      Emits ((node p).applyRecovery plan).2 ((node p).applyEntries plan) [] ∧
      Installed plan.boundary ((node p).applyRecovery plan).1 := by
  intro plan all
  set boundary := plan.boundary
  have reporter := gathering.reporter p member
  have applied := (node p).applyRecovery_applied plan
  obtain ⟨adopted, emits, quiet⟩ := Adopting.loop plan.actions.entries []
    (gathering.adopting member) (fun entry inside => gathering.within_of_action inside)
    plan.actions.sorted
  have loopFrame := applyActions_frame plan.actions.entries (node p, [])
  obtain ⟨loop, loopEq⟩ : ∃ loop, loop = plan.actions.entries.foldl applyAction (node p, []) :=
    ⟨_, rfl⟩
  rw [← loopEq] at adopted emits quiet loopFrame
  have unparked : ∀ key, loop.1.parked.get? key = none := fun key => by
    by_contra isParked
    obtain ⟨train, found⟩ := Option.ne_none_iff_exists'.mp isParked
    obtain ⟨_, inside⟩ := adopted.parked key train found
    exact absurd inside List.not_mem_nil
  -- nothing is parked any more, so the last drain does nothing
  have still : (loop.1.installView plan).drainParked = (loop.1.installView plan, []) ∧
      (loop.1.installView plan).drainEntries = [] := by
    have none : (loop.1.installView plan).parked.min? = none := OrdMap.min?_eq_none.mpr unparked
    have unfrozen : ¬ (loop.1.installView plan).frozen = true := Bool.false_ne_true
    unfold drainParked drainEntries
    rw [if_neg unfrozen, if_neg unfrozen]
    cases (loop.1.installView plan).parked.size with
    | zero => exact ⟨rfl, rfl⟩
    | succ fuel =>
      unfold drainLoop drainLoopEntries
      rw [none]
      exact ⟨rfl, rfl⟩
  have result : (node p).applyRecovery plan = (loop.1.installView plan, loop.2) := by
    unfold applyRecovery
    dsimp only
    rw [← loopEq, still.1, List.append_nil]
  have delivered : all = entries p ++ loopEntries plan.actions.entries (node p) := by
    show entries p ++ (loopEntries _ _ ++ _) = _
    rw [← loopEq, still.2, List.append_nil]
  have own : (node p).applyEntries plan = loopEntries plan.actions.entries (node p) :=
    List.append_cancel_left delivered
  rw [← delivered] at adopted
  rw [result] at applied ⊢
  have ended : ∀ key, ¬ ∃ action, (key, action) ∈ ([] : List (ClockKey × RecoveryAction)) :=
    fun key => by simp
  have covers : ∀ key, view.Within boundary key → ∃ entry ∈ all, entry.1 = key :=
    fun key within => (adopted.waiting key within).resolve_right (ended key)
  have reached : ∀ q, loop.1.seenClock q = boundary.get q := fun q =>
    (adopted.reached q).resolve_right (ended _)
  have low : ∀ q, view.floor.get q ≤ boundary.get q := gathering.floor_le member
  have past : ∀ key, view.Old key ∨ view.Within boundary key ↔
      key.issuer < cfg.ringSize ∧ 1 ≤ key.clock ∧ key.clock ≤ boundary.get key.issuer := by
    intro key
    constructor
    · rintro (⟨inside, positive, bounded⟩ | ⟨isKey, bounded⟩)
      · exact ⟨inside, positive, bounded.trans (low _)⟩
      · exact ⟨isKey.1.inside, Nat.one_le_of_lt isKey.2, bounded⟩
    · rintro ⟨inside, positive, bounded⟩
      rcases le_or_gt key.clock (view.floor.get key.issuer) with old | new
      · exact Or.inl ⟨inside, positive, old⟩
      · refine Or.inr ⟨⟨?_, new⟩, bounded⟩
        by_contra idle
        have stays : boundary.get key.issuer ≤ view.floor.get key.issuer :=
          gathering.boundary_idle inside idle
        omega
  refine ⟨adopted.segment, covers, adopted.loads,
    ⟨by simpa [deliveries, own] using emits, by simpa [forwards] using quiet⟩, ?_⟩
  refine ⟨?_, rfl, fun key => ?_, reached, unparked, fun key payloads found => ?_⟩
  · rw [applied.viewFloor, reporter.floor]
    refine Slots.ext_get fun q inside => ?_
    rw [Slots.get_ofFn _ inside]
    exact max_eq_right (low q)
  · rw [← past key]
    refine (adopted.done key).trans (or_congr_right ⟨?_, covers key⟩)
    rintro ⟨entry, inside, rfl⟩
    exact adopted.segment.keys entry inside
  · exact (past key).mp (adopted.cached key payloads found)

end Gathering

end TrainsRing
