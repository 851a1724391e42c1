/-
**What the merge finds in the reports.**

* `retransmittable_cases`, `retransmittable_cached`, `retransmittable_parked` — a report's `have` at a
  key: the cached payloads of the key, else those of its parked train.
* `unionPayloads_eq` — **the union of equal loads**: where every report that has a key has the same
  payloads for it, the union is those payloads.
* `payloads_of_actionFor` — deliver and skip are one action: the union, which may be empty.
-/

import TrainsRing.Core.Steps

namespace TrainsRing

variable {cfg : RingConfig}

/-! ### The payloads of a report -/

namespace TrainsNode

/-- The cached part of `have`. -/
theorem get?_cached (node : TrainsNode cfg) (key : ClockKey) :
    (node.deliveredCache.entries.foldl (fun acc entry =>
      if entry.2.isEmpty then acc else acc.insert entry.1 entry.2) OrdMap.empty).get? key =
      (node.deliveredCache.get? key).filter fun payloads => !payloads.isEmpty := by
  rw [OrdMap.get?_foldl (fun acc (entry : ClockKey × List Payload) =>
      if entry.2.isEmpty then acc else acc.insert entry.1 entry.2)
    (fun payloads old => if payloads.isEmpty then old else some payloads) (fun acc entry other => ?_)]
  · cases node.deliveredCache.get? key with
    | none => rfl
    | some payloads =>
      simp only [OrdMap.get?_empty, Option.filter_some]
      cases payloads.isEmpty <;> rfl
  · split_ifs with empty same same
    · rfl
    · rfl
    · rw [OrdMap.get?_insert, if_pos same]
    · rw [OrdMap.get?_insert, if_neg same]

/-- `have` at a key: the cached payloads, then those of the parked train. -/
theorem get?_retransmittable (node : TrainsNode cfg) (key : ClockKey) :
    node.retransmittable.get? key =
      ((node.deliveredCache.get? key).filter fun payloads => !payloads.isEmpty).or
        (((node.parked.get? key).map Train.payloads).filter fun payloads => !payloads.isEmpty) := by
  unfold retransmittable
  dsimp only
  rw [OrdMap.get?_foldl (fun acc (entry : ClockKey × Train) =>
      if entry.2.payloads.isEmpty then acc else acc.insertNew entry.1 entry.2.payloads)
    (fun train old => if train.payloads.isEmpty then old else some (old.getD train.payloads))
    (fun acc entry other => ?_), get?_cached]
  · cases node.parked.get? key with
    | none => simp
    | some train =>
      cases (node.deliveredCache.get? key).filter fun payloads => !payloads.isEmpty <;>
        cases empty : train.payloads.isEmpty <;> simp [empty, Option.filter_some]
  · split_ifs with empty same same
    · rfl
    · rfl
    · rw [OrdMap.get?_insertNew, if_pos same, same]
    · rw [OrdMap.get?_insertNew, if_neg same]

/-- What a report has for a key is cached or parked there, and not empty. -/
theorem retransmittable_cases {node : TrainsNode cfg} {key : ClockKey} {payloads : List Payload}
    (found : node.retransmittable.get? key = some payloads) : payloads ≠ [] ∧
      (node.deliveredCache.get? key = some payloads ∨
        ∃ train, node.parked.get? key = some train ∧ train.payloads = payloads) := by
  rw [get?_retransmittable, Option.or_eq_some_iff] at found
  rcases found with cached | ⟨-, parked⟩
  · obtain ⟨held, loaded⟩ := Option.filter_eq_some_iff.mp cached
    exact ⟨by simpa using loaded, Or.inl held⟩
  · obtain ⟨held, loaded⟩ := Option.filter_eq_some_iff.mp parked
    obtain ⟨train, waiting, same⟩ := Option.map_eq_some_iff.mp held
    exact ⟨by simpa using loaded, Or.inr ⟨train, waiting, same⟩⟩

theorem retransmittable_cached {node : TrainsNode cfg} {key : ClockKey} {payloads : List Payload}
    (cached : node.deliveredCache.get? key = some payloads) (loaded : payloads ≠ []) :
    node.retransmittable.get? key = some payloads := by
  rw [get?_retransmittable, cached, Option.filter_some, if_pos (by simpa using loaded)]
  rfl

theorem retransmittable_parked {node : TrainsNode cfg} {key : ClockKey} {train : Train}
    (waiting : node.parked.get? key = some train) (loaded : train.payloads ≠ []) :
    ∃ payloads, node.retransmittable.get? key = some payloads := by
  rw [get?_retransmittable, waiting, Option.map_some, Option.filter_some,
    if_pos (by simpa using loaded)]
  exact Option.isSome_iff_exists.mp (by simp)

end TrainsNode

/-! ### The union of equal loads -/

/-- Payloads that are all known add nothing. -/
theorem foldl_unionStep_known (payloads : List Payload) (acc : List Payload × Finset (Nat × Nat))
    (known : ∀ payload ∈ payloads, payload.msgId ∈ acc.2) : payloads.foldl unionStep acc = acc := by
  induction payloads with
  | nil => rfl
  | cons head rest ih =>
    have stays : unionStep acc head = acc := if_pos (known head List.mem_cons_self)
    rw [List.foldl_cons, stays]
    exact ih fun payload later => known payload (List.mem_cons_of_mem _ later)

/-- New payloads with distinct identifiers are all added. -/
theorem foldl_unionStep_new (payloads : List Payload) :
    ∀ acc : List Payload × Finset (Nat × Nat), (payloads.map Payload.msgId).Nodup →
      (∀ payload ∈ payloads, payload.msgId ∉ acc.2) →
      (payloads.foldl unionStep acc).1 = acc.1 ++ payloads := by
  induction payloads with
  | nil => exact fun acc _ _ => (List.append_nil _).symm
  | cons head rest ih =>
    intro acc distinct new
    obtain ⟨fresh, tail⟩ := List.nodup_cons.mp distinct
    rw [List.foldl_cons, unionStep, if_neg (new head List.mem_cons_self), ih _ tail, List.append_assoc]
    · rfl
    · intro payload later known
      rcases Finset.mem_insert.mp known with same | old
      · exact fresh (same ▸ List.mem_map_of_mem later)
      · exact new payload (List.mem_cons_of_mem _ later) old

/-- **The union of equal loads.** -/
theorem unionPayloads_eq {reports : List (RecoveryReport cfg)} {key : ClockKey}
    {payloads : List Payload} (distinct : (payloads.map Payload.msgId).Nodup)
    (only : ∀ report ∈ reports, ∀ held, report.haves.get? key = some held → held = payloads)
    (somewhere : payloads ≠ [] → ∃ report ∈ reports, report.haves.get? key = some payloads) :
    unionPayloads reports key = payloads := by
  let loaded := payloads.foldl unionStep ([], ∅)
  have loads : loaded.1 = payloads := by
    simpa [loaded] using foldl_unionStep_new payloads ([], ∅) distinct (by simp)
  have again : payloads.foldl unionStep loaded = loaded :=
    foldl_unionStep_known payloads loaded fun payload member =>
      ((foldl_unionStep_spec payloads ([], ∅) (by simp)).2.2 _).mpr (Or.inr ⟨payload, member, rfl⟩)
  -- all that matters of one round of the merge
  have whole : ∀ step : List Payload × Finset (Nat × Nat) → RecoveryReport cfg →
        List Payload × Finset (Nat × Nat),
      (∀ acc report, report.haves.get? key = none → step acc report = acc) →
      (∀ acc report held, report.haves.get? key = some held →
        step acc report = held.foldl unionStep acc) →
      (reports.foldl step ([], ∅)).1 = payloads := by
    intro step absent present
    have stays : ∀ rest : List (RecoveryReport cfg),
        (∀ report ∈ rest, ∀ held, report.haves.get? key = some held → held = payloads) →
        rest.foldl step loaded = loaded := by
      intro rest
      induction rest with
      | nil => exact fun _ => rfl
      | cons report rest ih =>
        intro same
        have here : step loaded report = loaded := by
          cases held : report.haves.get? key with
          | none => exact absent _ _ held
          | some load =>
            obtain rfl := same report List.mem_cons_self load held
            exact (present _ _ _ held).trans again
        rw [List.foldl_cons, here]
        exact ih fun other later => same other (List.mem_cons_of_mem _ later)
    have general : ∀ rest : List (RecoveryReport cfg),
        (∀ report ∈ rest, ∀ held, report.haves.get? key = some held → held = payloads) →
        rest.foldl step ([], ∅) = loaded ∨
          rest.foldl step ([], ∅) = ([], ∅) ∧ ∀ report ∈ rest, report.haves.get? key = none := by
      intro rest
      induction rest with
      | nil => exact fun _ => Or.inr ⟨rfl, by simp⟩
      | cons report rest ih =>
        intro same
        have later := fun other inside => same other (List.mem_cons_of_mem report inside)
        cases held : report.haves.get? key with
        | none =>
          rw [List.foldl_cons, absent _ _ held]
          refine (ih later).imp_right fun nothing => ⟨nothing.1, ?_⟩
          exact List.forall_mem_cons.mpr ⟨held, nothing.2⟩
        | some load =>
          obtain rfl := same report List.mem_cons_self load held
          rw [List.foldl_cons, present _ _ _ held]
          exact Or.inl (stays rest later)
    rcases general reports only with full | ⟨empty, nothing⟩
    · rw [full, loads]
    · rw [empty]
      by_contra different
      obtain ⟨report, member, found⟩ := somewhere (Ne.symm different)
      rw [nothing report member] at found
      cases found
  exact whole _ (fun acc report none => by simp only [none])
    fun acc report held found => by simp only [found]

/-! ### Actions as payloads -/

/-- The payloads an action delivers: none for a skip. -/
def RecoveryAction.payloads : RecoveryAction → List Payload
  | .deliver payloads => payloads
  | .skip => []

theorem payloads_of_actionFor {reports : List (RecoveryReport cfg)} {key : ClockKey}
    {action : RecoveryAction} (found : actionFor reports key = some action) :
    action.payloads = unionPayloads reports key := by
  unfold actionFor at found
  split_ifs at found
  cases union : unionPayloads reports key with
  | nil =>
    rw [union] at found
    obtain rfl := Option.some.inj found
    rfl
  | cons head rest =>
    rw [union] at found
    obtain rfl := Option.some.inj found
    rfl

/-- **One round of `apply_recovery`**: store the clock, drop the parked train, and deliver what the
action holds unless the key is done. -/
theorem applyAction_eq (state : TrainsNode cfg × List Output) (entry : ClockKey × RecoveryAction) :
    TrainsNode.applyAction state entry =
      let cleared := (state.1.observe entry.1.issuer entry.1.clock).unpark entry.1
      if entry.1 ∈ state.1.delivery.doneKeys then (cleared, state.2)
      else
        let delivered := (cleared.noteSeen entry.2.payloads).deliverNow entry.1 entry.2.payloads
        (delivered.1, state.2 ++ delivered.2) := by
  obtain ⟨key, action⟩ := entry
  unfold TrainsNode.applyAction
  by_cases done : key ∈ state.1.delivery.doneKeys
  · simp only [DeliveryState.alreadyDelivered, done]
    rfl
  · simp only [DeliveryState.alreadyDelivered, done]
    cases action with
    | deliver payloads => rfl
    | skip =>
      simp [RecoveryAction.payloads, TrainsNode.deliverNow, TrainsNode.observe, TrainsNode.unpark,
        TrainsNode.noteSeen]

namespace TrainsNode

/-- What one round of the loop of `apply_recovery` delivers. -/
def actionEntries (node : TrainsNode cfg) (entry : ClockKey × RecoveryAction) : List Entry :=
  if entry.1 ∈ node.delivery.doneKeys then [] else [(entry.1, entry.2.payloads)]

/-- What the loop of `apply_recovery` delivers. -/
def loopEntries : List (ClockKey × RecoveryAction) → TrainsNode cfg → List Entry
  | [], _ => []
  | entry :: rest, node =>
    node.actionEntries entry ++ loopEntries rest (applyAction (node, []) entry).1

/-- What `apply_recovery` delivers. -/
def applyEntries (node : TrainsNode cfg) (plan : RecoveryPlan cfg) : List Entry :=
  loopEntries plan.actions.entries node ++
    ((plan.actions.entries.foldl applyAction (node, [])).1.installView plan).drainEntries

/-- The outputs so far do not matter to the node. -/
theorem applyAction_node (node : TrainsNode cfg) (outputs : List Output)
    (entry : ClockKey × RecoveryAction) :
    (applyAction (node, outputs) entry).1 = (applyAction (node, []) entry).1 := by
  rw [applyAction_eq, applyAction_eq]
  dsimp only
  split_ifs <;> rfl

end TrainsNode

end TrainsRing
