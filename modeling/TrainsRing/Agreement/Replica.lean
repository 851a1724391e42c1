/-
**A node as a replica of one ordered log.**

Between two membership changes a node appends entries to an ordered log. The `View` fixes what all
nodes agree on meanwhile: the delivery mode, the floor below which every key is settled, and the
crashed processes. `View.Key` is the universe of keys the view can still deliver, and
`Replica view Source node entries` says that the node has delivered exactly `entries` in this view:
they are a `Segment` of that universe, and each is the cargo of a ready train that circulated
(`Source`).

* `Replica.predecessors`, `Replica.gate` — what `is_deliverable` guarantees.
* `Replica.deliver` — **delivering the next key** keeps the invariant.
* `Replica.done_of_settled_upto` — a drained node has done a key when it has settled all up to it.
* `Replica.handled` — **one `handle_train` keeps it**, and leaves the node drained.
-/

import TrainsRing.Core.Steps
import TrainsRing.Library.OrderedLog

namespace TrainsRing

variable {cfg : RingConfig}

/-- What all nodes agree on between two membership changes. -/
structure View (cfg : RingConfig) where
  mode : DeliveryMode
  floor : Slots cfg
  crashed : AckBits

namespace View

/-- The view every node starts in. -/
def initial (cfg : RingConfig) (mode : DeliveryMode) : View cfg := ⟨mode, Slots.zero cfg, 0#32⟩

variable (view : View cfg)

/-- A process the view does not count as crashed. -/
def Alive (p : Nat) : Prop := hasBit view.crashed p = false

/-- A process whose trains the delivery gate waits for. -/
def Issuer (q : Nat) : Prop := q < cfg.numTrains ∧ view.Alive q

/-- The keys the view can still deliver. -/
def Key (key : ClockKey) : Prop := view.Issuer key.issuer ∧ view.floor.get key.issuer < key.clock

/-- The keys settled before the view. -/
def Old (key : ClockKey) : Prop :=
  key.issuer < cfg.ringSize ∧ 1 ≤ key.clock ∧ key.clock ≤ view.floor.get key.issuer

/-- The delivery condition of the view's mode. -/
def Ready (ackBits : AckBits) : Prop :=
  (⟨view.mode, ∅, view.crashed⟩ : DeliveryState cfg).readyToDeliver ackBits view.mode = true

variable {view}

theorem Issuer.inside {q : Nat} (issuer : view.Issuer q) : q < cfg.ringSize :=
  lt_of_lt_of_le issuer.1 cfg.trains_le

theorem Ready.acked {ackBits : AckBits} (ready : view.Ready ackBits) {p : Nat}
    (inside : p < cfg.ringSize) (alive : view.Alive p) : hasBit ackBits p = true :=
  DeliveryState.acked_of_readyToDeliver ready inside alive

theorem alive_initial (mode : DeliveryMode) (p : Nat) : (initial cfg mode).Alive p :=
  hasBit_zero p

theorem not_old_of_key {key : ClockKey} (inside : view.Key key) : ¬ view.Old key := fun old =>
  absurd old.2.2 (not_le.mpr inside.2)

end View

/-- The node has delivered exactly `entries` in this view, each the cargo of a ready source
train. -/
structure Replica (view : View cfg) (Source : Train → Prop) (node : TrainsNode cfg)
    (entries : List Entry) : Prop where
  mode : node.delivery.mode = view.mode
  crashed : node.delivery.crashedBits = view.crashed
  floor : node.viewFloor = view.floor
  unfrozen : node.frozen = false
  segment : Segment Prod.fst view.Key entries
  done : ∀ key, key ∈ node.delivery.doneKeys ↔ view.Old key ∨ ∃ entry ∈ entries, entry.1 = key
  cargo : ∀ entry ∈ entries, ∃ train, Source train ∧ view.Ready train.ackBits ∧
    (train.key, train.payloads) = entry
  seenFloor : ∀ q, view.floor.get q ≤ node.seenClock q
  seenIdle : ∀ q, ¬ view.Issuer q → node.seenClock q = view.floor.get q
  seenDone : ∀ entry ∈ entries, ∀ q, view.Issuer q → entry.1.clock ≤ node.seenClock q
  parked : ∀ key train, node.parked.get? key = some train →
    (train.key = key ∧ Source train ∧ view.Ready train.ackBits) ∧
      view.Key key ∧ key ∉ node.delivery.doneKeys ∧ key.clock ≤ node.seenClock key.issuer

namespace Replica

open TrainsNode

variable {view : View cfg} {Source : Train → Prop} {node after : TrainsNode cfg}
  {entries delivered : List Entry} {train : Train} {key : ClockKey}

/-! ### What the delivery gate says -/

theorem isCrashed_eq (replica : Replica view Source node entries) (p : Nat) :
    node.delivery.isCrashed p = hasBit view.crashed p := by
  rw [DeliveryState.isCrashed, replica.crashed]

theorem ready (replica : Replica view Source node entries)
    (isReady : node.delivery.readyToDeliver train.ackBits node.delivery.mode = true) :
    view.Ready train.ackBits := by
  have sameBits : node.delivery.readyToDeliver train.ackBits view.mode =
      (⟨view.mode, ∅, view.crashed⟩ : DeliveryState cfg).readyToDeliver train.ackBits
        view.mode := by
    unfold DeliveryState.readyToDeliver
    rw [replica.crashed]
  rw [replica.mode, sameBits] at isReady
  exact isReady

/-- The seen-clock gate: every issuer's clock has caught up. -/
theorem gate (replica : Replica view Source node entries)
    (deliverable : node.isDeliverable key = true) {q : Nat} (issuer : view.Issuer q) :
    key.clock ≤ node.seenClock q := by
  simp only [isDeliverable, seenClocksAdvancedEnough, Bool.and_eq_true, List.all_eq_true,
    List.mem_range, Bool.or_eq_true, decide_eq_true_eq] at deliverable
  rcases deliverable.2 q issuer.1 with isCrashed | seen
  · rw [replica.isCrashed_eq, show hasBit view.crashed q = false from issuer.2] at isCrashed
    cases isCrashed
  · exact seen

/-- **Every smaller key of the view is done** when a key is deliverable: the gate makes it seen,
and everything seen below a deliverable key is done. -/
theorem predecessors (replica : Replica view Source node entries)
    (deliverable : node.isDeliverable key = true) {smaller : ClockKey} (inside : view.Key smaller)
    (below : smaller < key) : ∃ entry ∈ entries, entry.1 = smaller := by
  have seen : smaller.clock ≤ node.seenClock smaller.issuer :=
    (ClockKey.clock_le_of_le below.le).trans (replica.gate deliverable inside.1)
  have positive : 1 ≤ smaller.clock := by
    have := inside.2
    omega
  simp only [isDeliverable, DeliveryState.alreadyDelivered, Bool.and_eq_true, List.all_eq_true,
    List.mem_range, List.mem_range'_1, Bool.or_eq_true, Bool.not_eq_true', decide_eq_true_eq,
    decide_eq_false_iff_not] at deliverable
  have bounds : smaller.clock < 1 + node.clockState.lastSeen smaller.issuer := by
    unfold seenClock at seen
    omega
  rcases deliverable.1.2 smaller.issuer inside.1.inside smaller.clock ⟨positive, bounds⟩ with
    notBelow | isDone
  · exact absurd below notBelow
  · exact ((replica.done smaller).mp isDone).resolve_left (View.not_old_of_key inside)

/-- A deliverable key is not parked in a drained node: it would be the smallest parked key. -/
theorem not_parked (drained : node.Drained) (deliverable : node.isDeliverable key = true) :
    node.parked.get? key = none := by
  by_contra isParked
  obtain ⟨held, found⟩ := Option.ne_none_iff_exists'.mp isParked
  cases smallest : node.parked.min? with
  | none => exact isParked (OrdMap.min?_eq_none.mp smallest key)
  | some head =>
    obtain ⟨first, waiting⟩ := head
    obtain ⟨inParked, least⟩ := OrdMap.min?_eq_some smallest
    have blocked := drained first waiting smallest
    have notBelow : ¬ first < key := by
      simp only [isDeliverable, Bool.and_eq_true, List.all_eq_true, Bool.not_eq_true',
        decide_eq_false_iff_not] at deliverable
      exact deliverable.1.1 first (OrdMap.mem_keys_iff _ |>.mpr ⟨waiting, inParked⟩)
    have same : first = key := le_antisymm (least key held found) (not_lt.mp notBelow)
    rw [same, deliverable] at blocked
    cases blocked

/-- A node as constructed. -/
theorem new (id : Nat) (id_lt : id < cfg.ringSize) (mode : DeliveryMode) :
    Replica (View.initial cfg mode) Source (TrainsNode.new cfg id id_lt mode) [] where
  mode := rfl
  crashed := rfl
  floor := rfl
  unfrozen := rfl
  segment := Segment.nil
  done := fun key => by
    have none : ¬ (View.initial cfg mode).Old key := fun old => by
      have positive := old.2.1
      have bounded : key.clock ≤ (Slots.zero cfg).get key.issuer := old.2.2
      rw [Slots.get_zero] at bounded
      omega
    have nothing : key ∉ (TrainsNode.new cfg id id_lt mode).delivery.doneKeys :=
      Finset.notMem_empty key
    simp [none, nothing]
  cargo := fun _ member => absurd member List.not_mem_nil
  seenFloor := fun _ => le_rfl
  seenIdle := fun _ _ => rfl
  seenDone := fun _ member => absurd member List.not_mem_nil
  parked := fun _ _ found => by cases found

/-! ### What keeps the invariant -/

theorem mono {Source' : Train → Prop} (replica : Replica view Source node entries)
    (grows : ∀ train, Source train → Source' train) : Replica view Source' node entries := by
  refine { replica with cargo := fun entry member => ?_, parked := fun key train found => ?_ }
  · obtain ⟨train, source, rest⟩ := replica.cargo entry member
    exact ⟨train, grows train source, rest⟩
  · obtain ⟨⟨same, source, isReady⟩, rest⟩ := replica.parked key train found
    exact ⟨⟨same, grows train source, isReady⟩, rest⟩

/-- Only the clocks, the delivery state, the parked trains, the floor and the freeze matter. -/
theorem congr (replica : Replica view Source node entries)
    (clocks : after.clockState = node.clockState) (delivery : after.delivery = node.delivery)
    (waiting : after.parked = node.parked) (floor : after.viewFloor = node.viewFloor)
    (frozen : after.frozen = node.frozen) : Replica view Source after entries := by
  have seen : after.seenClock = node.seenClock := by
    funext q
    rw [seenClock, clocks, seenClock]
  exact {
    mode := delivery ▸ replica.mode
    crashed := delivery ▸ replica.crashed
    floor := floor ▸ replica.floor
    unfrozen := frozen ▸ replica.unfrozen
    segment := replica.segment
    done := delivery ▸ replica.done
    cargo := replica.cargo
    seenFloor := seen ▸ replica.seenFloor
    seenIdle := seen ▸ replica.seenIdle
    seenDone := seen ▸ replica.seenDone
    parked := by rw [waiting, delivery, seen]; exact replica.parked }

/-- Clocks may only grow, at the slot of an issuer of the view. -/
theorem observe (replica : Replica view Source node entries) {issuer : Nat}
    (known : view.Issuer issuer) (clock : Nat) :
    Replica view Source (node.observe issuer clock) entries := by
  have grows := node.seenClock_le_observe issuer clock
  refine { replica with
    seenFloor := fun q => (replica.seenFloor q).trans (grows q)
    seenIdle := fun q idle => ?_
    seenDone := fun entry member q isIssuer =>
      (replica.seenDone entry member q isIssuer).trans (grows q)
    parked := fun key train found => ?_ }
  · have other : q ≠ issuer := fun same => idle (same ▸ known)
    rw [seenClock_observe node known.inside, if_neg other]
    exact replica.seenIdle q idle
  · obtain ⟨source, inside, fresh, seen⟩ := replica.parked key train found
    exact ⟨source, inside, fresh, seen.trans (grows _)⟩

theorem unpark (replica : Replica view Source node entries) (key : ClockKey) :
    Replica view Source (node.unpark key) entries := by
  refine { replica with parked := fun other train found => ?_ }
  rw [TrainsNode.unpark, OrdMap.get?_erase] at found
  split_ifs at found
  exact replica.parked other train found

/-- **Delivering the next key**: a ready source train of a key that is neither done nor parked and
all of whose predecessors are done. -/
theorem deliver (replica : Replica view Source node entries) (source : Source train)
    (isReady : view.Ready train.ackBits) (inside : view.Key train.key)
    (fresh : train.key ∉ node.delivery.doneKeys) (notParked : node.parked.get? train.key = none)
    (seen : ∀ q, view.Issuer q → train.clock ≤ node.seenClock q)
    (smaller : ∀ k, view.Key k → k < train.key → ∃ entry ∈ entries, entry.1 = k) :
    Replica view Source (node.deliverNow train.key train.payloads).1
      (entries ++ [(train.key, train.payloads)]) := by
  have frame := deliverNow_frame node train.key train.payloads
  have clocks : (node.deliverNow train.key train.payloads).1.seenClock = node.seenClock := by
    funext q
    rw [seenClock, frame.clockState, seenClock]
  have unseen : ∀ entry ∈ entries, entry.1 ≠ train.key := fun entry member same =>
    fresh ((replica.done _).mpr (Or.inr ⟨entry, member, same⟩))
  exact {
    mode := frame.mode.trans replica.mode
    crashed := frame.crashedBits.trans replica.crashed
    floor := frame.viewFloor.trans replica.floor
    unfrozen := frame.frozen.trans replica.unfrozen
    segment := replica.segment.snoc inside unseen smaller
    done := fun key => by
      rw [deliverNow_doneKeys, Finset.mem_insert, replica.done]
      simp only [List.mem_append, List.mem_singleton]
      grind
    cargo := fun entry member => by
      rcases List.mem_append.mp member with old | new
      · exact replica.cargo entry old
      · rw [List.mem_singleton.mp new]
        exact ⟨train, source, isReady, rfl⟩
    seenFloor := clocks ▸ replica.seenFloor
    seenIdle := clocks ▸ replica.seenIdle
    seenDone := fun entry member => by
      rw [clocks]
      rcases List.mem_append.mp member with old | new
      · exact replica.seenDone entry old
      · rw [List.mem_singleton.mp new]
        exact seen
    parked := fun key waiting found => by
      rw [deliverNow_parked] at found
      obtain ⟨origin, isKey, notDone, clock⟩ := replica.parked key waiting found
      rw [deliverNow_doneKeys, clocks]
      refine ⟨origin, isKey, fun member => ?_, clock⟩
      rcases Finset.mem_insert.mp member with same | old
      · rw [same, notParked] at found
        cases found
      · exact notDone old }

/-- A run of deliveries of parked trains. -/
theorem delivers (replica : Replica view Source node entries)
    (run : Delivers node delivered after) : Replica view Source after (entries ++ delivered) := by
  refine run.preserves (P := fun node entries => Replica view Source node entries) ?_ entries replica
  intro node entries key train replica found deliverable
  obtain ⟨⟨rfl, source, isReady⟩, inside, fresh, -⟩ := replica.parked key train found
  have absent : (node.unpark train.key).parked.get? train.key = none := by
    rw [TrainsNode.unpark, OrdMap.get?_erase, if_pos rfl]
  exact (replica.unpark train.key).deliver source isReady inside fresh absent
    (fun q issuer => replica.gate deliverable issuer)
    fun k isKey below => replica.predecessors deliverable isKey below

/-- One attempt to deliver a source train. -/
theorem tried (replica : Replica view Source node entries) (source : Source train)
    (inside : view.Key train.key) (seen : train.clock ≤ node.seenClock train.issuer)
    (notParked : node.isDeliverable train.key = true → node.parked.get? train.key = none)
    (attempt : Tried node train delivered after) :
    Replica view Source after (entries ++ delivered) := by
  cases attempt with
  | skipped _ =>
    rw [List.append_nil]
    exact replica
  | parked isReady fresh _ =>
    rw [List.append_nil]
    refine { replica with parked := fun key waiting found => ?_ }
    rw [OrdMap.get?_insertNew] at found
    split_ifs at found with new
    · subst new
      cases held : node.parked.get? train.key with
      | some old =>
        rw [held] at found
        exact Option.some.inj found ▸ replica.parked train.key old held
      | none =>
        rw [held] at found
        obtain rfl : train = waiting := Option.some.inj found
        exact ⟨⟨rfl, source, replica.ready isReady⟩, inside, fresh, seen⟩
    · exact replica.parked key waiting found
  | delivered isReady fresh deliverable =>
    exact replica.deliver source (replica.ready isReady) inside fresh (notParked deliverable)
      (fun q issuer => replica.gate deliverable issuer)
      fun k isKey below => replica.predecessors deliverable isKey below

/-- **A settled key is done** at a drained node that has caught up with its clock and has settled
every smaller key. -/
theorem done_of_settled_upto (replica : Replica view Source node entries) (drained : node.Drained)
    (isKey : view.Key key) (seen : ∀ q, view.Issuer q → key.clock ≤ node.seenClock q)
    (settled : ∀ other, view.Key other → other ≤ key → node.Settled other) :
    key ∈ node.delivery.doneKeys := by
  by_contra fresh
  obtain ⟨held, found⟩ := (settled key isKey le_rfl).resolve_left fresh
  cases smallest : node.parked.min? with
  | none =>
    rw [OrdMap.min?_eq_none.mp smallest key] at found
    cases found
  | some head =>
    obtain ⟨first, train⟩ := head
    obtain ⟨waiting, least⟩ := OrdMap.min?_eq_some smallest
    have low : first ≤ key := least key held found
    -- every smaller key seen is done, and every issuer has caught up
    have deliverable : node.isDeliverable first = true := by
      simp only [isDeliverable, seenClocksAdvancedEnough, DeliveryState.alreadyDelivered,
        Bool.and_eq_true, List.all_eq_true, List.mem_range, List.mem_range'_1, Bool.or_eq_true,
        Bool.not_eq_true', decide_eq_true_eq, decide_eq_false_iff_not]
      refine ⟨⟨fun other parked => ?_, fun q inside clock' bounds => ?_⟩, fun q trains => ?_⟩
      · obtain ⟨train', found'⟩ := (OrdMap.mem_keys_iff _).mp parked
        exact not_lt.mpr (least other train' found')
      · refine or_iff_not_imp_left.mpr fun below => ?_
        have below : (⟨clock', q⟩ : ClockKey) < first := not_not.mp below
        rcases le_or_gt clock' (view.floor.get q) with old | above
        · exact (replica.done _).mpr (Or.inl ⟨inside, bounds.1, old⟩)
        · have issuer : view.Issuer q := by
            by_contra idle
            have floor : node.seenClock q = view.floor.get q := replica.seenIdle q idle
            have known : clock' < 1 + node.seenClock q := bounds.2
            omega
          rcases settled ⟨clock', q⟩ ⟨issuer, above⟩ (below.le.trans low) with done | ⟨train', found'⟩
          · exact done
          · exact absurd below (not_lt.mpr (least _ train' found'))
      · by_cases crashed : node.delivery.isCrashed q = true
        · exact Or.inl crashed
        · right
          rw [replica.isCrashed_eq] at crashed
          exact (ClockKey.clock_le_of_le low).trans (seen q ⟨trains, Bool.eq_false_iff.mpr crashed⟩)
    rw [drained first train smallest] at deliverable
    cases deliverable

/-! ### One `handle_train` -/

theorem isDeliverable_congr (clocks : after.clockState = node.clockState)
    (delivery : after.delivery = node.delivery) (waiting : after.parked = node.parked)
    (key : ClockKey) : after.isDeliverable key = node.isDeliverable key := by
  unfold isDeliverable seenClocksAdvancedEnough
  rw [clocks, delivery, waiting]

theorem drained_congr (drained : node.Drained) (clocks : after.clockState = node.clockState)
    (delivery : after.delivery = node.delivery) (waiting : after.parked = node.parked) :
    after.Drained := by
  intro key train smallest
  rw [isDeliverable_congr clocks delivery waiting]
  exact drained key train (waiting ▸ smallest)

/-- Storing a clock that has been seen changes nothing. -/
theorem observe_of_seen {issuer clock : Nat} (seen : clock ≤ node.seenClock issuer) :
    node.observe issuer clock = node := by
  unfold TrainsNode.observe
  rw [node.clockState.checkAndUpdate_of_le seen]

/-- A key past the floor is a key of the view. -/
theorem key_of_fresh (replica : Replica view Source node entries)
    (known : view.Issuer train.issuer) (fresh : ¬ node.Stale train) : view.Key train.key := by
  refine ⟨known, ?_⟩
  by_contra below
  exact fresh ⟨known.inside, by rw [replica.floor]; exact not_lt.mp below⟩

/-- **One `handle_train`** on a source train keeps the invariant and leaves the node drained. -/
theorem handled (replica : Replica view Source node entries) (drained : node.Drained)
    {forwarded : List Train} (known : ¬ node.Stale train → view.Issuer train.issuer)
    (source : Source train) (handled : Handled node train delivered forwarded after) :
    Replica view Source after (entries ++ delivered) ∧ after.Drained := by
  cases handled with
  | absorbed _ =>
    rw [List.append_nil]
    exact ⟨replica, drained⟩
  | visited fresh _ _ run settled =>
    have visited : Replica view Source (node.visit train) entries :=
      (replica.observe (known fresh) train.clock).congr rfl rfl rfl rfl rfl
    exact ⟨visited.delivers run, settled replica.unfrozen⟩
  | replayed fresh _ old attempt run settled =>
    have noted : Replica view Source (node.noteSeen train.payloads) entries :=
      replica.congr rfl rfl rfl rfl rfl
    have inside := replica.key_of_fresh (known fresh) fresh
    have attempted := noted.tried source inside old.1
      (not_parked (drained_congr drained rfl rfl rfl)) attempt
    rw [← List.append_assoc]
    exact ⟨attempted.delivers run, settled replica.unfrozen⟩
  | recycled fresh own isDone =>
    have inside := replica.key_of_fresh (known fresh) fresh
    obtain ⟨entry, member, same⟩ :=
      ((replica.done _).mp isDone).resolve_left (View.not_old_of_key inside)
    have seen : train.clock ≤ node.seenClock node.id := by
      have clock := replica.seenDone entry member train.issuer inside.1
      rw [same, own] at clock
      exact clock
    rw [List.append_nil, observe_of_seen seen]
    exact ⟨replica.congr rfl rfl rfl rfl rfl, drained_congr drained rfl rfl rfl⟩
  | returned fresh own notDone attempt run settled =>
    have inside := replica.key_of_fresh (known fresh) fresh
    have ownIssuer : view.Issuer node.id := by
      rw [← own]
      exact inside.1
    have observed := replica.observe ownIssuer train.clock
    have seen : train.clock ≤ (node.observe node.id train.clock).seenClock train.issuer := by
      rw [own, seenClock_observe node node.id_lt, if_pos rfl]
      exact le_max_right _ _
    -- a parked copy of the train has stored its clock, so the node is as drained as before
    have notParked : (node.observe node.id train.clock).isDeliverable train.key = true →
        (node.observe node.id train.clock).parked.get? train.key = none := by
      intro deliverable
      by_contra isParked
      obtain ⟨held, found⟩ := Option.ne_none_iff_exists'.mp isParked
      obtain ⟨-, -, -, stored⟩ := replica.parked train.key held found
      rw [observe_of_seen (own ▸ stored)] at deliverable isParked
      exact isParked (not_parked drained deliverable)
    have attempted := observed.tried source inside seen notParked attempt
    rw [← List.append_assoc]
    exact ⟨attempted.delivers run, settled replica.unfrozen⟩

end Replica

end TrainsRing
