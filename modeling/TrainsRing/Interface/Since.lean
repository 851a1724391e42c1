/-
**What a node has received since.**

A node that nobody marks crashed and no view change touches is compared with itself at an earlier
moment, the origin. From then on it has received trains of some issuers only: the other issuers are
gone, and their clocks and keys stay as they were.

* `TrainsNode.Plain` — no crash marked, no view installed, not frozen and nothing left to drain.
* `TrainsNode.Cleared` — the gates of a key, parked trains apart; `done_of_settled` says when they
  have let a key through.
* `settled_handleTrain_iff`, `recorded_source`, `recorded_cleared`, `recorded_sorted` — **what one
  train does.**
* `Ripe` — the issuers that are gone do not hold the key back.
* `Since` — **what received trains do**: nothing is recorded that was not ripe at the origin.
-/

import TrainsRing.Interface.Settled

namespace TrainsRing

variable {cfg : RingConfig}

namespace TrainsNode

/-! ### Nodes without crashes -/

/-- The train has the acknowledgements that its delivery asks for. -/
def Ready (node : TrainsNode cfg) (train : Train) : Prop :=
  node.delivery.readyToDeliver train.ackBits node.delivery.mode = true

/-- A key of a train that has been seen or skipped. -/
def Known (node : TrainsNode cfg) (key : ClockKey) : Prop :=
  1 ≤ key.clock ∧ key.clock ≤ node.seenClock key.issuer

/-- No crash marked, no view installed, not frozen, and nothing left to drain. -/
structure Plain (node : TrainsNode cfg) : Prop where
  settling : node.Settling
  unfrozen : node.frozen = false
  uncrashed : node.delivery.crashedBits = 0#32
  floor : ∀ q, node.viewFloor.get q = 0
  positive : ∀ key, node.Settled key → 1 ≤ key.clock
  able : ∀ key, node.Settled key → node.delivery.mode ≠ .causalOrder

/-- Every issuer has caught up with the key, and everything known below it is done. -/
structure Cleared (node : TrainsNode cfg) (key : ClockKey) : Prop where
  caughtUp : ∀ q, q < cfg.numTrains → key.clock ≤ node.seenClock q
  below : ∀ other, node.Known other → other < key → other ∈ node.delivery.doneKeys

theorem known_iff_range {node : TrainsNode cfg} {q clock : Nat} :
    node.Known ⟨clock, q⟩ ↔ 1 ≤ clock ∧ clock < 1 + node.clockState.lastSeen q := by
  unfold Known seenClock
  dsimp only
  omega

/-- An issuer outside the ring has no known key. -/
theorem Known.inside {node : TrainsNode cfg} {key : ClockKey} (known : node.Known key) :
    key.issuer < cfg.ringSize := by
  by_contra outside
  have unseen : node.seenClock key.issuer = 0 := Slots.get_outside _ (not_lt.mp outside)
  have positive := known.1
  have seen := known.2
  omega

/-- **The gates of a key** at a node without crashes. -/
theorem isDeliverable_iff {node : TrainsNode cfg} (uncrashed : node.delivery.crashedBits = 0#32)
    (key : ClockKey) : node.isDeliverable key = true ↔
      (∀ other train, node.parked.get? other = some train → key ≤ other) ∧ node.Cleared key := by
  have alive : ∀ q, node.delivery.isCrashed q = false := fun q => by
    rw [DeliveryState.isCrashed, uncrashed, hasBit_zero]
  simp only [isDeliverable, seenClocksAdvancedEnough, DeliveryState.alreadyDelivered, alive,
    Bool.and_eq_true, List.all_eq_true, List.mem_range, List.mem_range'_1, Bool.or_eq_true,
    Bool.not_eq_true', decide_eq_true_eq, decide_eq_false_iff_not, Bool.false_eq_true, false_or]
  constructor
  · rintro ⟨⟨first, below⟩, caughtUp⟩
    refine ⟨fun other train found => ?_, caughtUp, fun other known less => ?_⟩
    · exact not_lt.mp (first other ((OrdMap.mem_keys_iff _).mpr ⟨train, found⟩))
    · exact (below other.issuer known.inside other.clock (known_iff_range.mp known)).resolve_left
        (not_not.mpr less)
  · rintro ⟨first, cleared⟩
    refine ⟨⟨fun other parked => ?_, fun q inside clock bounds => ?_⟩, cleared.caughtUp⟩
    · obtain ⟨train, found⟩ := (OrdMap.mem_keys_iff _).mp parked
      exact not_lt.mpr (first other train found)
    · exact or_iff_not_imp_left.mpr fun less =>
        cleared.below ⟨clock, q⟩ (known_iff_range.mpr bounds) (not_not.mp less)

/-- **A settled key is done** at a node that has caught up with it and has settled everything known
below it. -/
theorem Plain.done_of_settled {node : TrainsNode cfg} (plain : node.Plain) {key : ClockKey}
    (caughtUp : ∀ q, q < cfg.numTrains → key.clock ≤ node.seenClock q)
    (settled : ∀ other, node.Known other → other < key → node.Settled other)
    (itself : node.Settled key) : key ∈ node.delivery.doneKeys := by
  by_contra fresh
  obtain ⟨held, found⟩ := itself.resolve_left fresh
  cases smallest : node.parked.min? with
  | none =>
    rw [OrdMap.min?_eq_none.mp smallest key] at found
    cases found
  | some head =>
    obtain ⟨first, train⟩ := head
    obtain ⟨waiting, least⟩ := OrdMap.min?_eq_some smallest
    have low : first ≤ key := least key held found
    have cleared : node.Cleared first := by
      refine ⟨fun q issues => (ClockKey.clock_le_of_le low).trans (caughtUp q issues),
        fun other known below => ?_⟩
      rcases settled other known (below.trans_le low) with done | ⟨train', found'⟩
      · exact done
      · exact absurd below (not_lt.mpr (least other train' found'))
    have deliverable := (isDeliverable_iff plain.uncrashed first).mpr ⟨least, cleared⟩
    rw [plain.settling.drained plain.unfrozen first train smallest] at deliverable
    cases deliverable

/-! ### One train -/

theorem Delivers.parked_back {node after : TrainsNode cfg} {records : List Entry}
    (run : Delivers node records after) {key : ClockKey} {train : Train}
    (found : after.parked.get? key = some train) : node.parked.get? key = some train := by
  induction run with
  | nil node => exact found
  | @cons node after recorded _ _ _ _ _ ih =>
    have earlier := ih found
    rw [deliverNow_parked, unpark, OrdMap.get?_erase] at earlier
    split_ifs at earlier
    exact earlier

theorem Tried.parked_back {node after : TrainsNode cfg} {train : Train} {records : List Entry}
    (tried : Tried node train records after) {key : ClockKey} {held : Train}
    (found : after.parked.get? key = some held) : node.parked.get? key = some held ∨
      node.parked.get? key = none ∧ node.Ready train ∧ key = train.key ∧ held = train := by
  cases tried with
  | skipped _ => exact Or.inl found
  | parked ready _ _ =>
    rw [OrdMap.get?_insertNew] at found
    split_ifs at found with same
    · subst same
      cases earlier : node.parked.get? train.key with
      | none =>
        rw [earlier] at found
        exact Or.inr ⟨rfl, ready, rfl, (Option.some.inj found).symm⟩
      | some old =>
        rw [earlier] at found
        exact Or.inl found
    · exact Or.inl found
  | delivered _ _ _ =>
    rw [deliverNow_parked] at found
    exact Or.inl found

/-- An attempt settles the key of a ready train only. -/
theorem Tried.settled_ready {node after : TrainsNode cfg} {train : Train} {records : List Entry}
    (tried : Tried node train records after) {key : ClockKey} (settled : after.Settled key) :
    node.Settled key ∨ node.Ready train ∧ key = train.key := by
  rcases tried.settled_back settled with old | same
  · exact Or.inl old
  · cases tried with
    | skipped _ => exact Or.inl settled
    | parked ready _ _ => exact Or.inr ⟨ready, same⟩
    | delivered ready _ _ => exact Or.inr ⟨ready, same⟩

theorem deliverNow_subset (node : TrainsNode cfg) (key : ClockKey) (payloads : List Payload) :
    node.delivery.doneKeys ⊆ (node.deliverNow key payloads).1.delivery.doneKeys := by
  rw [deliverNow_doneKeys]
  exact Finset.subset_insert _ _

theorem Delivers.done_subset {node after : TrainsNode cfg} {records : List Entry}
    (run : Delivers node records after) :
    node.delivery.doneKeys ⊆ after.delivery.doneKeys := by
  induction run with
  | nil node => exact Finset.Subset.refl _
  | @cons node after key train records _ _ _ ih =>
    exact (deliverNow_subset (node.unpark key) key train.payloads).trans ih

/-- Recording more keys closes no gate. -/
theorem Cleared.mono {node after : TrainsNode cfg} {key : ClockKey} (cleared : node.Cleared key)
    (seen : ∀ q, after.seenClock q = node.seenClock q)
    (done : node.delivery.doneKeys ⊆ after.delivery.doneKeys) : after.Cleared key := by
  refine ⟨fun q issues => (seen q).symm ▸ cleared.caughtUp q issues, fun other known below => ?_⟩
  exact done (cleared.below other ⟨known.1, seen other.issuer ▸ known.2⟩ below)

/-- What a run of deliveries records has passed the gates. -/
theorem Delivers.cleared {node after : TrainsNode cfg} {records : List Entry}
    (run : Delivers node records after) (uncrashed : node.delivery.crashedBits = 0#32) :
    ∀ entry ∈ records, after.Cleared entry.1 := by
  induction run with
  | nil node => exact fun _ member => absurd member List.not_mem_nil
  | @cons node after key train records _ deliverable rest ih =>
    intro entry member
    have frame := (node.unpark key).deliverNow_frame key train.payloads
    rcases List.mem_cons.mp member with rfl | later
    · have cleared := ((isDeliverable_iff uncrashed key).mp deliverable).2
      refine cleared.mono (fun q => ?_)
        ((deliverNow_subset (node.unpark key) key train.payloads).trans rest.done_subset)
      rw [rest.frame.seenClock, frame.seenClock]
      rfl
    · exact ih (frame.crashedBits.trans uncrashed) entry later

/-- A run of deliveries records in key order. -/
theorem Delivers.sorted {node after : TrainsNode cfg} {records : List Entry}
    (run : Delivers node records after) (uncrashed : node.delivery.crashedBits = 0#32) :
    records.Pairwise fun first second => first.1 < second.1 := by
  induction run with
  | nil node => exact List.Pairwise.nil
  | @cons node after key train records _ deliverable rest ih =>
    have frame := (node.unpark key).deliverNow_frame key train.payloads
    refine List.Pairwise.cons (fun entry later => ?_) (ih (frame.crashedBits.trans uncrashed))
    obtain ⟨held, found, -⟩ := rest.parked entry later
    rw [deliverNow_parked, unpark, OrdMap.get?_erase] at found
    split_ifs at found with same
    exact lt_of_le_of_ne (((isDeliverable_iff uncrashed key).mp deliverable).1 _ _ found)
      (Ne.symm same)

/-- What a train makes the node record is done. -/
theorem done_of_recorded (node : TrainsNode cfg) {train : Train} {entry : Entry}
    (member : entry ∈ node.handleEntries train) :
    entry.1 ∈ (node.handleTrain train).1.delivery.doneKeys := by
  rw [(node.logged_handleTrain train).done]
  exact Finset.mem_union_right _ (List.mem_toFinset.mpr (List.mem_map_of_mem member))

/-- The node takes the train for delivery. -/
def Takes (node : TrainsNode cfg) (train : Train) : Prop :=
  ¬ node.Stale train ∧ node.Replay train ∧ node.Ready train

/-- What a received train of another issuer does. -/
structure Receipt (node : TrainsNode cfg) (train : Train) (records : List Entry)
    (after : TrainsNode cfg) : Prop where
  clocks : ¬ node.Stale train →
    after.clockState = (node.clockState.checkAndUpdate train.issuer train.clock).1
  settled : ∀ key, after.Settled key ↔ node.Settled key ∨ node.Takes train ∧ key = train.key
  held : ∀ key held, after.parked.get? key = some held → node.parked.get? key = some held ∨
    node.parked.get? key = none ∧ node.Takes train ∧ key = train.key ∧ held = train
  sorted : records.Pairwise fun first second => first.1 < second.1
  cleared : ∀ entry ∈ records, after.Cleared entry.1
  source : ∀ entry ∈ records,
    (∃ held, node.parked.get? entry.1 = some held ∧ entry.2 = held.payloads) ∨
      node.parked.get? entry.1 = none ∧ node.Takes train ∧ entry = (train.key, train.payloads)

/-- **A train that is delivered at once** was not parked, and what is parked then is above it. -/
theorem Plain.delivered_now {node middle : TrainsNode cfg} (plain : node.Plain) {train : Train}
    {now : List Entry} (fresh : ¬ node.Stale train) (old : node.Replay train)
    (tried : Tried (node.noteSeen train.payloads) train now middle) : ∀ entry ∈ now,
      entry = (train.key, train.payloads) ∧ node.Takes train ∧ middle.Cleared train.key ∧
        node.parked.get? train.key = none ∧
        ∀ other held, middle.parked.get? other = some held → train.key < other := by
  intro entry member
  cases tried with
  | skipped _ => exact absurd member List.not_mem_nil
  | parked _ _ _ => exact absurd member List.not_mem_nil
  | delivered ready _ deliverable =>
    have free : node.parked.get? train.key = none :=
      Replica.not_parked (plain.settling.drained plain.unfrozen) deliverable
    have noted : (node.noteSeen train.payloads).delivery.crashedBits = 0#32 := plain.uncrashed
    have gates := (isDeliverable_iff noted train.key).mp deliverable
    have recorded := (node.noteSeen train.payloads).deliverNow_frame train.key train.payloads
    refine ⟨List.mem_singleton.mp member, ⟨fresh, old, ready⟩,
      gates.2.mono recorded.seenClock (deliverNow_subset _ _ _), free, fun other held found => ?_⟩
    rw [deliverNow_parked] at found
    refine lt_of_le_of_ne (gates.1 other held found) fun same => ?_
    rw [← same] at found
    exact absurd (free.symm.trans found) (by simp)

/-- A train that is taken is a replay of another issuer's; trying it and draining is all there is. -/
theorem Plain.attempt {node middle after : TrainsNode cfg} (plain : node.Plain) {train : Train}
    {now drained : List Entry} (fresh : ¬ node.Stale train) (old : node.Replay train)
    (tried : Tried (node.noteSeen train.payloads) train now middle)
    (run : Delivers middle drained after) : Receipt node train (now ++ drained) after := by
  have frame := tried.frame.trans run.frame
  have uncrashed : middle.delivery.crashedBits = 0#32 :=
    tried.frame.crashedBits.trans plain.uncrashed
  have held : ∀ key held, middle.parked.get? key = some held →
      node.parked.get? key = some held ∨
        node.parked.get? key = none ∧ node.Takes train ∧ key = train.key ∧ held = train :=
    fun key held found => (tried.parked_back found).imp_right
      fun ⟨unparked, ready, same⟩ => ⟨unparked, ⟨fresh, old, ready⟩, same⟩
  have atOnce := plain.delivered_now fresh old tried
  refine ⟨fun _ => ?_, fun key => ⟨fun settled => ?_, fun settled => ?_⟩, fun key waiting found => ?_,
    ?_, fun entry member => ?_, fun entry member => ?_⟩
  · rw [frame.clockState]
    exact (node.clockState.checkAndUpdate_of_le old.1).symm
  · exact (tried.settled_ready (run.settled_back settled)).imp_right
      fun ⟨ready, same⟩ => ⟨⟨fresh, old, ready⟩, same⟩
  · rcases settled with earlier | ⟨takes, rfl⟩
    · exact run.settled (tried.settled earlier)
    · exact run.settled (tried.settles plain.unfrozen takes.2.2)
  · exact held key waiting (run.parked_back found)
  · refine List.pairwise_append.mpr ⟨?_, run.sorted uncrashed, fun first early second late => ?_⟩
    · cases tried with
      | skipped _ => exact List.Pairwise.nil
      | parked _ _ _ => exact List.Pairwise.nil
      | delivered _ _ _ => exact List.pairwise_singleton _ _
    · obtain ⟨same, -, -, -, above⟩ := atOnce first early
      obtain ⟨waiting, found, -⟩ := run.parked second late
      rw [same]
      exact above second.1 waiting found
  · rcases List.mem_append.mp member with early | late
    · obtain ⟨same, -, cleared, -⟩ := atOnce entry early
      rw [same]
      exact cleared.mono run.frame.seenClock run.done_subset
    · exact run.cleared uncrashed entry late
  · rcases List.mem_append.mp member with early | late
    · obtain ⟨same, takes, -, free, -⟩ := atOnce entry early
      exact Or.inr ⟨same ▸ free, takes, same⟩
    · obtain ⟨waiting, found, cargo⟩ := run.parked entry late
      rcases held entry.1 waiting found with earlier | ⟨free, takes, same, isTrain⟩
      · exact Or.inl ⟨waiting, earlier, cargo⟩
      · exact Or.inr ⟨free, takes, Prod.ext same (cargo.trans (isTrain ▸ rfl))⟩

/-- **What one train does.** -/
theorem Plain.receive {node : TrainsNode cfg} (plain : node.Plain) {train : Train}
    (foreign : train.issuer ≠ node.id) :
    Receipt node train (node.handleEntries train) (node.handleTrain train).1 := by
  obtain ⟨forwarded, handled, -⟩ := node.handleTrain_entries train
  generalize (node.handleTrain train).1 = after at handled ⊢
  generalize node.handleEntries train = records at handled ⊢
  cases handled with
  | absorbed stale =>
    have refused : ¬ node.Takes train := fun takes => takes.1 stale
    refine ⟨fun fresh => absurd stale fresh, fun key => ?_, fun key held found => Or.inl found,
      List.Pairwise.nil, fun _ member => absurd member List.not_mem_nil,
      fun _ member => absurd member List.not_mem_nil⟩
    simp [refused]
  | visited fresh _ new run _ =>
    have refused : ¬ node.Takes train := fun takes => new takes.2.1
    have uncrashed : (node.visit train).delivery.crashedBits = 0#32 := plain.uncrashed
    refine ⟨fun _ => ?_, fun key => ⟨fun settled => Or.inl (run.settled_back settled),
      fun settled => run.settled (settled.resolve_right fun both => refused both.1)⟩,
      fun key held found => Or.inl (run.parked_back found), run.sorted uncrashed,
      run.cleared uncrashed, fun entry member => Or.inl (run.parked entry member)⟩
    rw [run.frame.clockState]
    rfl
  | replayed fresh _ old tried run _ => exact plain.attempt fresh old tried run
  | recycled _ own _ => exact absurd own foreign
  | returned _ own _ _ _ _ => exact absurd own foreign

/-! ### Plain nodes stay plain -/

/-- What any branch settles is the key of a ready train past the floor. -/
theorem settled_new {node : TrainsNode cfg} {train : Train} {key : ClockKey}
    (settled : (node.handleTrain train).1.Settled key) : node.Settled key ∨
      (¬ node.Stale train ∧ train.issuer < cfg.ringSize ∧ node.Ready train ∧ key = train.key) := by
  obtain ⟨records, forwarded, handled, -⟩ := node.handleTrain_spec train
  generalize (node.handleTrain train).1 = after at handled settled
  cases handled with
  | absorbed _ => exact Or.inl settled
  | visited _ _ _ run _ => exact Or.inl (run.settled_back settled)
  | replayed fresh _ old tried run _ =>
    exact (tried.settled_ready (run.settled_back settled)).imp_right
      fun ⟨ready, same⟩ => ⟨fresh, old.inside, ready, same⟩
  | recycled _ _ _ => exact Or.inl settled
  | returned fresh own _ tried run _ =>
    exact (tried.settled_ready (run.settled_back settled)).imp_right
      fun ⟨ready, same⟩ => ⟨fresh, own ▸ node.id_lt, ready, same⟩

/-- In causal order nothing is ever ready. -/
theorem Ready.able {node : TrainsNode cfg} {train : Train} (ready : node.Ready train) :
    node.delivery.mode ≠ .causalOrder := by
  intro causal
  rw [Ready, causal] at ready
  cases ready

/-- Only the clocks, the delivery state, the parked trains, the floor and the freeze matter. -/
theorem Plain.congr {node after : TrainsNode cfg} (plain : node.Plain)
    (clocks : after.clockState = node.clockState) (delivery : after.delivery = node.delivery)
    (parked : after.parked = node.parked) (floor : after.viewFloor = node.viewFloor)
    (frozen : after.frozen = node.frozen) : after.Plain := by
  have settled : ∀ key, after.Settled key → node.Settled key := fun key held => by
    rw [Settled, delivery, parked] at held
    exact held
  refine ⟨plain.settling.congr clocks delivery parked frozen, frozen.trans plain.unfrozen,
    delivery ▸ plain.uncrashed, fun q => floor ▸ plain.floor q, fun key held =>
    plain.positive key (settled key held), fun key held => ?_⟩
  rw [delivery]
  exact plain.able key (settled key held)

/-- **A received train leaves a node plain.** -/
theorem Plain.handleTrain {node : TrainsNode cfg} (plain : node.Plain) (train : Train) :
    (node.handleTrain train).1.Plain := by
  have advances := node.handleTrain_advances train
  refine ⟨plain.settling.handleTrain train, advances.frozen.trans plain.unfrozen,
    advances.crashedBits.trans plain.uncrashed, fun q => advances.viewFloor ▸ plain.floor q,
    fun key settled => ?_, fun key settled => ?_⟩
  · rcases settled_new settled with old | ⟨fresh, inside, -, rfl⟩
    · exact plain.positive key old
    · by_contra zero
      exact fresh ⟨inside, by rw [plain.floor]; exact Nat.le_of_lt_succ (not_le.mp zero)⟩
  · rw [advances.mode]
    rcases settled_new settled with old | ⟨-, -, ready, -⟩
    · exact plain.able key old
    · exact ready.able

theorem Plain.new (id : Nat) (id_lt : id < cfg.ringSize) (mode : DeliveryMode) :
    (TrainsNode.new cfg id id_lt mode).Plain := by
  have nothing : ∀ key, ¬ (TrainsNode.new cfg id id_lt mode).Settled key := fun key settled => by
    rcases settled with done | ⟨train, found⟩
    · exact absurd done (Finset.notMem_empty key)
    · exact absurd found (by simp [TrainsNode.new])
  exact ⟨.new id id_lt mode, rfl, rfl, Slots.get_zero, fun key settled =>
    absurd settled (nothing key), fun key settled => absurd settled (nothing key)⟩

end TrainsNode

/-- Inputs and initial trains. -/
def NodeCall.Ordinary : NodeCall cfg → Prop
  | step _ => True
  | issueInitialTrain => True
  | _ => False

instance : (call : NodeCall cfg) → Decidable call.Ordinary
  | .step _ => instDecidableTrue
  | .issueInitialTrain => instDecidableTrue
  | .reissueTrain | .confirmCrash _ | .markCrashed _ | .readmitNode _ | .setFrozen _
  | .recoveryReport | .applyRecovery _ => instDecidableFalse

/-- **A node reached by inputs and initial trains is plain.** -/
theorem plain_reachable {node : TrainsNode cfg}
    (reachable : (nodeRuns NodeCall.Ordinary).Reachable node) : node.Plain := by
  refine Machine.invariant ?_ (fun node call plain ordinary => ?_) reachable
  · rintro _ ⟨id, id_lt, mode, rfl⟩
    exact .new id id_lt mode
  cases call with
  | step input =>
    cases input with
    | trainReceived train => exact plain.handleTrain train
    | localBroadcast data =>
      obtain ⟨-, clocks, delivery, parked, floor, frozen⟩ := node.handleBroadcast_keeps data
      exact plain.congr clocks delivery parked floor frozen
    | tick => exact plain
  | issueInitialTrain => exact plain.congr rfl rfl rfl rfl rfl
  | reissueTrain => exact absurd ordinary not_false
  | confirmCrash p => exact absurd ordinary not_false
  | markCrashed p => exact absurd ordinary not_false
  | readmitNode p => exact absurd ordinary not_false
  | setFrozen frozen => exact absurd ordinary not_false
  | recoveryReport => exact absurd ordinary not_false
  | applyRecovery plan => exact absurd ordinary not_false

namespace TrainsNode

/-! ### Since the origin -/

variable {gone : Nat → Prop} {fed : Train → Prop}

/-- The issuers that are gone do not hold the key back: they have caught up with it, and what is known
of them below it is settled. -/
structure Ripe (gone : Nat → Prop) (origin : TrainsNode cfg) (key : ClockKey) : Prop where
  caughtUp : ∀ q, gone q → q < cfg.numTrains → key.clock ≤ origin.seenClock q
  below : ∀ other, gone other.issuer → origin.Known other → other < key → origin.Settled other

/-- What a key is recorded with: the train parked at the origin, or one that came in since. -/
def Cargo (fed : Train → Prop) (origin : TrainsNode cfg) (entry : Entry) : Prop :=
  (∃ held, origin.parked.get? entry.1 = some held ∧ entry.2 = held.payloads) ∨
    ¬ origin.Settled entry.1 ∧ ∃ train, fed train ∧ origin.Ready train ∧
      entry = (train.key, train.payloads)

/-- The node has received fed trains, none of an issuer that is gone, since it was as `origin`. -/
structure Since (gone : Nat → Prop) (fed : Train → Prop) (origin node : TrainsNode cfg) : Prop where
  plain : node.Plain
  advances : Advances origin node
  seen : ∀ q, gone q → node.seenClock q = origin.seenClock q
  kept : ∀ key, origin.Settled key → node.Settled key
  settled : ∀ key, node.Settled key → origin.Settled key ∨
    ∃ train, fed train ∧ origin.Ready train ∧ key = train.key
  held : ∀ key train, node.parked.get? key = some train → origin.parked.get? key = some train ∨
    ¬ origin.Settled key ∧ fed train ∧ origin.Ready train ∧ key = train.key
  recorded : ∀ key ∈ node.delivery.doneKeys, key ∈ origin.delivery.doneKeys ∨
    Ripe gone origin key ∧
      ∀ other, origin.Known other → other < key → other ∈ node.delivery.doneKeys

theorem Since.refl {origin : TrainsNode cfg} (plain : origin.Plain) : Since gone fed origin origin :=
  ⟨plain, .refl origin, fun _ _ => rfl, fun _ settled => settled, fun _ settled => Or.inl settled,
    fun _ _ found => Or.inl found, fun _ done => Or.inl done⟩

/-- Readiness depends on the mode and the crash mask. -/
theorem Advances.ready {origin node : TrainsNode cfg} (advances : Advances origin node)
    {train : Train} : node.Ready train ↔ origin.Ready train := by
  unfold Ready DeliveryState.readyToDeliver
  rw [advances.mode, advances.crashedBits]

theorem Advances.known {origin node : TrainsNode cfg} (advances : Advances origin node)
    {key : ClockKey} (known : origin.Known key) : node.Known key :=
  ⟨known.1, known.2.trans (advances.seen key.issuer)⟩

/-- A clock is stored at the slot of its issuer only. -/
theorem Receipt.seen_other {node after : TrainsNode cfg} {train : Train} {records : List Entry}
    (receipt : Receipt node train records after) (fresh : ¬ node.Stale train) {q : Nat}
    (other : q ≠ train.issuer) : after.seenClock q = node.seenClock q := by
  rw [seenClock, receipt.clocks fresh, ClockState.checkAndUpdate_fst, seenClock]
  split_ifs
  · exact (Slots.get_set ..).trans (if_neg fun both => other both.1)
  · rfl

/-- **What has passed the gates was ripe at the origin**: the issuers that are gone have moved neither
their clocks nor their keys. -/
theorem Cleared.ripe {origin node : TrainsNode cfg} {key : ClockKey} (cleared : node.Cleared key)
    (advances : Advances origin node) (seen : ∀ q, gone q → node.seenClock q = origin.seenClock q)
    (settled : ∀ key, node.Settled key → origin.Settled key ∨
      ∃ train, fed train ∧ origin.Ready train ∧ key = train.key)
    (apart : ∀ train, fed train → ¬ gone train.issuer) : Ripe gone origin key := by
  refine ⟨fun q isGone issues => seen q isGone ▸ cleared.caughtUp q issues,
    fun other isGone known below => ?_⟩
  have done := cleared.below other (advances.known known) below
  rcases settled other (Or.inl done) with old | ⟨train, isFed, -, rfl⟩
  · exact old
  · exact absurd isGone (apart train isFed)

/-- **One more train.** What it makes the node record is not done, was ripe at the origin and comes
from a train parked there or received since. -/
theorem Since.receive {origin node : TrainsNode cfg} (since : Since gone fed origin node)
    (own : gone origin.id) (apart : ∀ train, fed train → ¬ gone train.issuer) {train : Train}
    (isFed : fed train) : Since gone fed origin (node.handleTrain train).1 ∧
      ∀ entry ∈ node.handleEntries train, entry.1 ∉ node.delivery.doneKeys ∧
        Ripe gone origin entry.1 ∧ Cargo fed origin entry := by
  have plain := since.plain
  have foreign : train.issuer ≠ node.id := fun same =>
    apart train isFed (same ▸ since.advances.id ▸ own)
  have receipt := plain.receive foreign
  have distinct := plain.settling.tidy.handleTrain (plain.settling.safe train)
  have plain' := plain.handleTrain train
  have advances := since.advances.trans (node.handleTrain_advances train)
  have grown := (node.handleTrain_advances train).done
  have seen : ∀ q, gone q → (node.handleTrain train).1.seenClock q = origin.seenClock q := by
    intro q isGone
    by_cases stale : node.Stale train
    · rw [handleTrain_stale stale]
      exact since.seen q isGone
    · rw [receipt.seen_other stale fun same => apart train isFed (same ▸ isGone)]
      exact since.seen q isGone
  have taken : node.Takes train → ∃ other, fed other ∧ origin.Ready other ∧ train.key = other.key :=
    fun takes => ⟨train, isFed, since.advances.ready.mp takes.2.2, rfl⟩
  have settled : ∀ key, (node.handleTrain train).1.Settled key → origin.Settled key ∨
      ∃ train, fed train ∧ origin.Ready train ∧ key = train.key := by
    intro key settled
    rcases (receipt.settled key).mp settled with old | ⟨takes, rfl⟩
    · exact since.settled key old
    · exact Or.inr (taken takes)
  have ripe : ∀ key, (node.handleTrain train).1.Cleared key → Ripe gone origin key :=
    fun key cleared => cleared.ripe advances seen settled apart
  have unsettled : ∀ key, key ∉ node.delivery.doneKeys → node.parked.get? key = none →
      ¬ origin.Settled key := fun key fresh unparked old => by
    rcases since.kept key old with done | ⟨held, found⟩
    · exact fresh done
    · exact absurd (unparked.symm.trans found) (by simp)
  refine ⟨⟨plain', advances, seen, fun key old => (receipt.settled key).mpr
    (Or.inl (since.kept key old)), settled, fun key waiting found => ?_, fun key done => ?_⟩,
    fun entry member => ⟨distinct.fresh entry member, ripe _ (receipt.cleared entry member), ?_⟩⟩
  · rcases receipt.held key waiting found with old | ⟨free, takes, same, isTrain⟩
    · exact since.held key waiting old
    · have fresh : key ∉ node.delivery.doneKeys := fun done =>
        plain'.settling.tidy.apart key waiting found (grown done)
      exact Or.inr ⟨unsettled key fresh free, isTrain ▸ isFed,
        isTrain ▸ since.advances.ready.mp takes.2.2, isTrain ▸ same⟩
  · rw [distinct.done, Finset.mem_union, List.mem_toFinset] at done
    rcases done with old | new
    · refine (since.recorded key old).imp_right fun ⟨isRipe, below⟩ => ⟨isRipe, ?_⟩
      exact fun other known less => grown (below other known less)
    · obtain ⟨entry, member, rfl⟩ := List.mem_map.mp new
      have cleared := receipt.cleared entry member
      exact Or.inr ⟨ripe _ cleared, fun other known less =>
        cleared.below other (advances.known known) less⟩
  · rcases receipt.source entry member with ⟨waiting, found, cargo⟩ | ⟨free, takes, same⟩
    · rcases since.held entry.1 waiting found with old | ⟨undone, isFed, ready, same⟩
      · exact Or.inl ⟨waiting, old, cargo⟩
      · exact Or.inr ⟨undone, waiting, isFed, ready, Prod.ext same cargo⟩
    · exact Or.inr ⟨unsettled _ (distinct.fresh entry member) free, train, isFed,
        since.advances.ready.mp takes.2.2, same⟩

/-! ### Several trains -/

/-- The node after some trains. -/
def receiveAll (node : TrainsNode cfg) (trains : List Train) : TrainsNode cfg :=
  trains.foldl (fun node train => (node.handleTrain train).1) node

/-- What the node records for some trains. -/
def allEntries : TrainsNode cfg → List Train → List Entry
  | _, [] => []
  | node, train :: rest => node.handleEntries train ++ allEntries (node.handleTrain train).1 rest

/-- The `Deliver` outputs for some trains, train by train. -/
def deliverOutputs : TrainsNode cfg → List Train → List (List (List Payload))
  | _, [] => []
  | node, train :: rest => delivers (node.step (.trainReceived train)).2 ::
      deliverOutputs (node.step (.trainReceived train)).1 rest

/-- All deliveries together are those of the records. -/
theorem flatten_deliverOutputs (trains : List Train) : ∀ node : TrainsNode cfg,
    (node.deliverOutputs trains).flatten = announcements (node.allEntries trains) := by
  induction trains with
  | nil => exact fun _ => rfl
  | cons train rest ih =>
    intro node
    rw [deliverOutputs, allEntries, announcements_append, ← (node.logged_handleTrain train).announced,
      ← ih]
    rfl

theorem doneKeys_receiveAll (trains : List Train) : ∀ node : TrainsNode cfg,
    (node.receiveAll trains).delivery.doneKeys =
      node.delivery.doneKeys ∪ ((node.allEntries trains).map Prod.fst).toFinset := by
  induction trains with
  | nil => exact fun node => by simp [receiveAll, allEntries]
  | cons train rest ih =>
    intro node
    have first := (node.logged_handleTrain train).done
    rw [receiveAll, List.foldl_cons, ← receiveAll, ih, first, allEntries, List.map_append,
      List.toFinset_append, Finset.union_assoc]

/-- **Several trains.** -/
theorem Since.receiveAll {origin : TrainsNode cfg} (own : gone origin.id)
    (apart : ∀ train, fed train → ¬ gone train.issuer) (trains : List Train) :
    ∀ {node : TrainsNode cfg}, Since gone fed origin node → (∀ train ∈ trains, fed train) →
      Since gone fed origin (node.receiveAll trains) ∧
        ∀ entry ∈ node.allEntries trains, entry.1 ∉ origin.delivery.doneKeys ∧
          Ripe gone origin entry.1 ∧ Cargo fed origin entry := by
  induction trains with
  | nil => exact fun since _ => ⟨since, fun _ member => absurd member List.not_mem_nil⟩
  | cons train rest ih =>
    intro node since all
    obtain ⟨next, now⟩ := since.receive own apart (all train List.mem_cons_self)
    obtain ⟨last, later⟩ := ih next fun other member => all other (List.mem_cons_of_mem train member)
    refine ⟨last, fun entry member => ?_⟩
    rcases List.mem_append.mp member with first | second
    · obtain ⟨fresh, facts⟩ := now entry first
      exact ⟨fun done => fresh (since.advances.done done), facts⟩
    · exact later entry second

end TrainsNode

end TrainsRing
