/-
**The view-change merge** (`trains-core/src/recovery.rs`).

`computeRecoveryPlan` merges the survivors' reports into one plan: the boundary of every slot, and
for every key at or below it that some survivor has not processed, either the union of the payloads
the reports hold for it or a skip.

* `boundaryOf_le_iff` — the boundary is the least upper bound of the clocks seen and issued.
* `get?_actions` — the plan's action at a key, without the loops.
* `mem_unionPayloads` — the union holds only payloads of some report, and misses no identifier.
-/

import TrainsRing.Core.Delivery
import TrainsRing.Library.OrdMap

namespace TrainsRing

variable {cfg : RingConfig}

/-- A transferable snapshot of a node's protocol state. -/
structure StateSnapshot (cfg : RingConfig) where
  seen : Slots cfg
  doneKeys : Finset ClockKey
  crashedBits : AckBits
  viewFloor : Slots cfg
  broadcastSeen : Finset (Nat × Nat)

/-- One survivor's snapshot, gathered at the start of a view change. -/
structure RecoveryReport (cfg : RingConfig) where
  seen : Slots cfg
  issued : Slots cfg
  done : Finset ClockKey
  /-- The source's `have`: payloads available for a key. -/
  haves : OrdMap ClockKey (List Payload)

/-- What every survivor must do with one recovered key. -/
inductive RecoveryAction where
  /-- Deliver these payloads iff not already delivered. -/
  | deliver (payloads : List Payload)
  /-- Record an empty done key. -/
  | skip
  deriving DecidableEq, Repr

/-- The uniform plan produced by the coordinator and applied by every survivor. -/
structure RecoveryPlan (cfg : RingConfig) where
  actions : OrdMap ClockKey RecoveryAction
  boundary : Slots cfg

/-- Clock at which surviving issuer `q` should reissue its token. -/
def RecoveryPlan.reissueClock (plan : RecoveryPlan cfg) (q : Nat) : Nat :=
  satSucc (plan.boundary.get q)

/-! ### The merge -/

/-- The highest clock any report saw or issued for slot `q`. -/
def boundaryAt (reports : List (RecoveryReport cfg)) (q : Nat) : Nat :=
  reports.foldl (fun bound report => max bound (max (report.seen.get q) (report.issued.get q))) 0

/-- The agreed boundary per issuer. -/
def boundaryOf (reports : List (RecoveryReport cfg)) : Slots cfg :=
  Slots.ofFn cfg (boundaryAt reports)

/-- Add a payload to the union unless its identifier is already in it. -/
def unionStep (acc : List Payload × Finset (Nat × Nat)) (payload : Payload) :
    List Payload × Finset (Nat × Nat) :=
  if payload.msgId ∈ acc.2 then acc else (acc.1 ++ [payload], insert payload.msgId acc.2)

/-- Union of the payloads the reports hold for a key, deduplicated by `(sender, seq)`. -/
def unionPayloads (reports : List (RecoveryReport cfg)) (key : ClockKey) : List Payload :=
  (reports.foldl (fun acc report => match report.haves.get? key with
    | some payloads => payloads.foldl unionStep acc
    | none => acc) ([], ∅)).1

/-- The action for one key at or below the boundary; `none` when every report has it done. -/
def actionFor (reports : List (RecoveryReport cfg)) (key : ClockKey) : Option RecoveryAction :=
  if reports.all fun report => decide (key ∈ report.done) then none
  else match unionPayloads reports key with
    | [] => some .skip
    | payloads => some (.deliver payloads)

/-- The keys the merge visits: per issuer, the clocks `1..=boundary[q]`. -/
def recoveryKeys (boundary : Slots cfg) : List ClockKey :=
  (List.range cfg.ringSize).flatMap fun q =>
    (List.range' 1 (boundary.get q)).map fun clock => ⟨clock, q⟩

/-- Merge survivors' reports into a single recovery plan. -/
def computeRecoveryPlan (reports : List (RecoveryReport cfg)) : RecoveryPlan cfg :=
  let boundary := boundaryOf reports
  { actions := OrdMap.collect (recoveryKeys boundary) (actionFor reports), boundary }

/-! ### What the merge computes -/

theorem boundaryAt_le_iff (reports : List (RecoveryReport cfg)) (q bound : Nat) :
    boundaryAt reports q ≤ bound ↔
      ∀ report ∈ reports, report.seen.get q ≤ bound ∧ report.issued.get q ≤ bound := by
  have general : ∀ (reports : List (RecoveryReport cfg)) (start : Nat),
      reports.foldl (fun bound report =>
          max bound (max (report.seen.get q) (report.issued.get q))) start ≤ bound ↔
        start ≤ bound ∧
          ∀ report ∈ reports, report.seen.get q ≤ bound ∧ report.issued.get q ≤ bound := by
    intro reports
    induction reports with
    | nil => intro start; simp
    | cons head rest ih =>
      intro start
      rw [List.foldl_cons, ih, max_le_iff, max_le_iff, List.forall_mem_cons, and_assoc]
  unfold boundaryAt
  rw [general]
  simp

/-- **The boundary is the least upper bound** of what the reports saw and issued. -/
theorem boundaryOf_le_iff (reports : List (RecoveryReport cfg)) {q : Nat}
    (inside : q < cfg.ringSize) (bound : Nat) :
    (boundaryOf reports).get q ≤ bound ↔
      ∀ report ∈ reports, report.seen.get q ≤ bound ∧ report.issued.get q ≤ bound := by
  rw [boundaryOf, Slots.get_ofFn _ inside, boundaryAt_le_iff]

theorem seen_le_boundaryOf {reports : List (RecoveryReport cfg)} {report : RecoveryReport cfg}
    (member : report ∈ reports) {q : Nat} (inside : q < cfg.ringSize) :
    report.seen.get q ≤ (boundaryOf reports).get q :=
  ((boundaryOf_le_iff reports inside _).mp le_rfl report member).1

theorem issued_le_boundaryOf {reports : List (RecoveryReport cfg)} {report : RecoveryReport cfg}
    (member : report ∈ reports) {q : Nat} (inside : q < cfg.ringSize) :
    report.issued.get q ≤ (boundaryOf reports).get q :=
  ((boundaryOf_le_iff reports inside _).mp le_rfl report member).2

theorem mem_recoveryKeys (boundary : Slots cfg) (key : ClockKey) :
    key ∈ recoveryKeys boundary ↔
      key.issuer < cfg.ringSize ∧ 1 ≤ key.clock ∧ key.clock ≤ boundary.get key.issuer := by
  obtain ⟨clock, issuer⟩ := key
  simp only [recoveryKeys, List.mem_flatMap, List.mem_range, List.mem_map, List.mem_range'_1,
    ClockKey.mk.injEq]
  constructor
  · rintro ⟨q, inside, cl, bounds, rfl, rfl⟩
    exact ⟨inside, bounds.1, by omega⟩
  · rintro ⟨inside, positive, bounded⟩
    exact ⟨issuer, inside, clock, ⟨positive, by omega⟩, rfl, rfl⟩

/-- **The plan's action at a key**, with the loops gone. -/
theorem get?_actions (reports : List (RecoveryReport cfg)) (key : ClockKey) :
    (computeRecoveryPlan reports).actions.get? key =
      if key.issuer < cfg.ringSize ∧ 1 ≤ key.clock ∧
          key.clock ≤ (boundaryOf reports).get key.issuer
      then actionFor reports key else none := by
  unfold computeRecoveryPlan
  simp only [OrdMap.get?_collect, mem_recoveryKeys]

theorem actionFor_eq_none (reports : List (RecoveryReport cfg)) (key : ClockKey) :
    actionFor reports key = none ↔ ∀ report ∈ reports, key ∈ report.done := by
  unfold actionFor
  split_ifs with everywhere
  · simpa using everywhere
  · have somewhere : ¬ ∀ report ∈ reports, key ∈ report.done := by simpa using everywhere
    split <;> simp [somewhere]

/-! ### The payload union -/

/-- What the union holds after some payloads: only payloads it was given, every identifier it was
given, and the identifier set it keeps is that of its payloads. -/
theorem foldl_unionStep_spec (payloads : List Payload) :
    ∀ acc : List Payload × Finset (Nat × Nat),
      (∀ id, id ∈ acc.2 ↔ ∃ payload ∈ acc.1, payload.msgId = id) →
      (∀ id, id ∈ (payloads.foldl unionStep acc).2 ↔
        ∃ payload ∈ (payloads.foldl unionStep acc).1, payload.msgId = id) ∧
      (∀ payload ∈ (payloads.foldl unionStep acc).1, payload ∈ acc.1 ∨ payload ∈ payloads) ∧
      (∀ id, id ∈ (payloads.foldl unionStep acc).2 ↔
        id ∈ acc.2 ∨ ∃ payload ∈ payloads, payload.msgId = id) := by
  induction payloads with
  | nil => intro acc spec; exact ⟨spec, fun p member => Or.inl member, by simp⟩
  | cons head rest ih =>
    intro acc spec
    rw [List.foldl_cons]
    by_cases known : head.msgId ∈ acc.2
    · rw [unionStep, if_pos known]
      obtain ⟨ids, members, all⟩ := ih acc spec
      refine ⟨ids, fun p member => (members p member).imp_right (List.mem_cons_of_mem _), ?_⟩
      intro id
      rw [all]
      constructor
      · rintro (old | ⟨p, member, same⟩)
        · exact Or.inl old
        · exact Or.inr ⟨p, List.mem_cons_of_mem _ member, same⟩
      · rintro (old | ⟨p, member, same⟩)
        · exact Or.inl old
        · rcases List.mem_cons.mp member with rfl | later
          · exact Or.inl (same ▸ known)
          · exact Or.inr ⟨p, later, same⟩
    · rw [unionStep, if_neg known]
      obtain ⟨ids, members, all⟩ := ih (acc.1 ++ [head], insert head.msgId acc.2) (by
        intro id
        rw [Finset.mem_insert, spec]
        simp only [List.mem_append, List.mem_singleton]
        grind)
      refine ⟨ids, fun p member => ?_, fun id => ?_⟩
      · rcases members p member with old | later
        · rcases List.mem_append.mp old with old | new
          · exact Or.inl old
          · exact Or.inr (List.mem_singleton.mp new ▸ List.mem_cons_self)
        · exact Or.inr (List.mem_cons_of_mem _ later)
      · rw [all, Finset.mem_insert]
        grind

/-- **The union over the reports**: it holds only payloads some report has for the key, and every
identifier some report has for it. -/
theorem mem_unionPayloads (reports : List (RecoveryReport cfg)) (key : ClockKey) :
    (∀ payload ∈ unionPayloads reports key,
      ∃ report ∈ reports, ∃ payloads, report.haves.get? key = some payloads ∧ payload ∈ payloads) ∧
    (∀ report ∈ reports, ∀ payloads, report.haves.get? key = some payloads →
      ∀ payload ∈ payloads, ∃ held ∈ unionPayloads reports key, held.msgId = payload.msgId) := by
  let step := fun (acc : List Payload × Finset (Nat × Nat)) (report : RecoveryReport cfg) =>
    match report.haves.get? key with
    | some payloads => payloads.foldl unionStep acc
    | none => acc
  have general : ∀ (reports : List (RecoveryReport cfg)) (acc : List Payload × Finset (Nat × Nat)),
      (∀ id, id ∈ acc.2 ↔ ∃ payload ∈ acc.1, payload.msgId = id) →
      (∀ id, id ∈ (reports.foldl step acc).2 ↔
        ∃ payload ∈ (reports.foldl step acc).1, payload.msgId = id) ∧
      (∀ id ∈ acc.2, id ∈ (reports.foldl step acc).2) ∧
      (∀ payload ∈ (reports.foldl step acc).1, payload ∈ acc.1 ∨ ∃ report ∈ reports, ∃ payloads,
        report.haves.get? key = some payloads ∧ payload ∈ payloads) ∧
      (∀ report ∈ reports, ∀ payloads, report.haves.get? key = some payloads →
        ∀ payload ∈ payloads, payload.msgId ∈ (reports.foldl step acc).2) := by
    intro reports
    induction reports with
    | nil =>
      intro acc spec
      exact ⟨spec, fun id member => member, fun p member => Or.inl member, by simp⟩
    | cons head rest ih =>
      intro acc spec
      rw [List.foldl_cons]
      cases held : head.haves.get? key with
      | none =>
        have same : step acc head = acc := by simp only [step, held]
        rw [same]
        obtain ⟨ids, grows, members, all⟩ := ih acc spec
        refine ⟨ids, grows, fun p member => ?_, fun report member payloads found => ?_⟩
        · rcases members p member with old | ⟨report, later, rest⟩
          · exact Or.inl old
          · exact Or.inr ⟨report, List.mem_cons_of_mem _ later, rest⟩
        · rcases List.mem_cons.mp member with rfl | later
          · rw [held] at found
            cases found
          · exact all report later payloads found
      | some payloads =>
        have next : step acc head = payloads.foldl unionStep acc := by simp only [step, held]
        rw [next]
        obtain ⟨nextIds, nextMembers, nextAll⟩ := foldl_unionStep_spec payloads acc spec
        obtain ⟨ids, grows, members, all⟩ := ih _ nextIds
        refine ⟨ids, fun id member => grows id ((nextAll id).mpr (Or.inl member)),
          fun p member => ?_, fun report member found payloads' payload inside => ?_⟩
        · rcases members p member with old | ⟨report, later, rest⟩
          · rcases nextMembers p old with old | new
            · exact Or.inl old
            · exact Or.inr ⟨head, List.mem_cons_self, payloads, held, new⟩
          · exact Or.inr ⟨report, List.mem_cons_of_mem _ later, rest⟩
        · rcases List.mem_cons.mp member with rfl | later
          · rw [held] at payloads'
            cases payloads'
            exact grows _ ((nextAll _).mpr (Or.inr ⟨payload, inside, rfl⟩))
          · exact all report later found payloads' payload inside
  obtain ⟨ids, -, members, all⟩ := general reports ([], ∅) (by simp)
  refine ⟨fun payload member => ?_, fun report member payloads found payload inside => ?_⟩
  · rcases members payload member with old | found
    · cases old
    · exact found
  · exact (ids _).mp (all report member payloads found payload inside)

end TrainsRing
