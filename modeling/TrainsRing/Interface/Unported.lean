/-
**What the snapshot lacks can be told** (`export_state`, `import_state`).

Two more laps tell a source from its joiner: a visit of every issuer that is not gone, up to some
clock, and then the closed train of every key up to there. A node that gets them has settled every key
of these issuers, so it records every ripe one. A source that has parked what matters records another
payload there than its joiner, or records where the joiner stands still.

* `visits`, `closings`, `laps` — the trains, one key of which carries payloads.
* `done_of_laps` — **after them every ripe key that has been settled is done.**
* `silent_of_parked`, `gone_of_first`, `gone_of_unparked` — the three ways to tell them apart.
* `joiner_delivers` — **exactly when the joiner delivers what its source delivers.**
-/

import TrainsRing.Interface.Joiner

namespace TrainsRing

variable {cfg : RingConfig}

namespace TrainsNode

/-! ### Runs of trains -/

theorem receiveAll_append (node : TrainsNode cfg) (first second : List Train) :
    node.receiveAll (first ++ second) = (node.receiveAll first).receiveAll second :=
  List.foldl_append

theorem receiveAll_advances (trains : List Train) : ∀ node : TrainsNode cfg,
    Advances node (node.receiveAll trains) := by
  induction trains with
  | nil => exact fun node => .refl node
  | cons train rest ih => exact fun node => (node.handleTrain_advances train).trans (ih _)

/-- Nothing is announced iff every record is empty. -/
theorem announcements_eq_nil {records : List Entry} :
    announcements records = [] ↔ ∀ entry ∈ records, entry.2 = [] := by
  unfold announcements
  rw [List.map_eq_nil_iff, List.filter_eq_nil_iff]
  simp

section Runs

variable {gone : Nat → Prop} {node : TrainsNode cfg}

/-- A train of another issuer is seen when it has been received. -/
theorem Plain.seen_handleTrain (plain : node.Plain) {train : Train}
    (foreign : train.issuer ≠ node.id) (inside : train.issuer < cfg.ringSize) :
    train.clock ≤ (node.handleTrain train).1.seenClock train.issuer := by
  by_cases stale : node.Stale train
  · rw [(plain.stale_iff.mp stale).2]
    exact Nat.zero_le _
  · rw [seenClock, (plain.receive foreign).clocks stale,
      ClockState.lastSeen_checkAndUpdate _ _ _ inside, if_pos rfl]
    exact le_max_right _ _

/-- What has been received has been seen. -/
theorem Plain.seen_receiveAll (trains : List Train) : ∀ {node : TrainsNode cfg}, node.Plain →
    gone node.id → (∀ train ∈ trains, train.issuer < cfg.ringSize ∧ Coming gone train) →
      ∀ train ∈ trains, train.clock ≤ (node.receiveAll trains).seenClock train.issuer := by
  induction trains with
  | nil => exact fun _ _ _ _ member => absurd member List.not_mem_nil
  | cons first rest ih =>
    intro node plain own coming train member
    have advances := node.handleTrain_advances first
    rcases List.mem_cons.mp member with rfl | later
    · obtain ⟨inside, comes⟩ := coming train List.mem_cons_self
      have seen := plain.seen_handleTrain (fun same => comes (same ▸ own)) inside
      exact seen.trans ((receiveAll_advances rest _).seen _)
    · exact ih (plain.handleTrain first) (advances.id.symm ▸ own)
        (fun other member => coming other (List.mem_cons_of_mem first member)) train later

/-- What was settled stays settled. -/
theorem Plain.settled_receiveAll (plain : node.Plain) (own : gone node.id) {trains : List Train}
    (coming : ∀ train ∈ trains, Coming gone train) {key : ClockKey} (settled : node.Settled key) :
    (node.receiveAll trains).Settled key :=
  (Since.receiveAll own (fun _ comes => comes) trains (Since.refl plain) coming).1.kept key settled

/-- A ready train whose clock has been seen is settled when it has been received. -/
theorem Plain.settles_receiveAll (trains : List Train) : ∀ {node : TrainsNode cfg}, node.Plain →
    gone node.id → (∀ train ∈ trains, Coming gone train) → ∀ train ∈ trains, node.Ready train →
      1 ≤ train.clock → train.clock ≤ node.seenClock train.issuer →
        (node.receiveAll trains).Settled train.key := by
  induction trains with
  | nil => exact fun _ _ _ _ member => absurd member List.not_mem_nil
  | cons first rest ih =>
    intro node plain own coming train member ready positive seen
    have advances := node.handleTrain_advances first
    have own' : gone (node.handleTrain first).1.id := advances.id.symm ▸ own
    have coming' : ∀ other ∈ rest, Coming gone other := fun other later =>
      coming other (List.mem_cons_of_mem first later)
    rcases List.mem_cons.mp member with rfl | later
    · have receipt := plain.receive fun same => coming train List.mem_cons_self (same ▸ own)
      have takes : node.Takes train := by
        refine ⟨fun stale => ?_, ⟨seen, by omega⟩, ready⟩
        have zero := (plain.stale_iff.mp stale).2
        omega
      have settled := (receipt.settled train.key).mpr (Or.inr ⟨takes, rfl⟩)
      exact (plain.handleTrain train).settled_receiveAll own' coming' settled
    · exact ih (plain.handleTrain first) own' coming' train later (advances.ready.mpr ready) positive
        (seen.trans (advances.seen _))

/-- No train without acknowledgements is ready. -/
theorem Plain.open_unready (plain : node.Plain) {train : Train} (unacked : train.ackBits = 0#32) :
    ¬ node.Ready train := by
  intro ready
  have alive : node.delivery.isCrashed 0 = false := by
    rw [DeliveryState.isCrashed, plain.uncrashed, hasBit_zero]
  have acked := DeliveryState.acked_of_readyToDeliver ready
    (lt_of_lt_of_le Nat.two_pos cfg.two_le) alive
  rw [unacked, hasBit_zero] at acked
  cases acked

/-- Unless the mode is causal, a train with every acknowledgement is ready. -/
theorem closed_ready {train : Train} (able : node.delivery.mode ≠ .causalOrder)
    (acked : train.ackBits = fullAck cfg) : node.Ready train := by
  unfold Ready
  cases mode : node.delivery.mode with
  | uniformTotalOrder => simp [DeliveryState.readyToDeliver, acked]
  | totalOrder =>
    refine (DeliveryState.readyToDeliver_totalOrder _ _).mpr fun p inside _ => ?_
    rw [acked, hasBit_fullAck cfg (by have := cfg.le_thirty; omega)]
    exact decide_eq_true inside
  | causalOrder => exact absurd mode able

end Runs

/-! ### Two more laps -/

section Laps

variable (cfg) (gone : Nat → Prop) [DecidablePred gone]

/-- The issuers that still send trains. -/
def senders : List Nat := (List.range cfg.ringSize).filter fun q => !decide (gone q)

/-- An open train of every sender, with this clock. -/
def visits (clock : Nat) : List Train := (senders cfg gone).map fun q => ⟨q, clock, [], 0#32⟩

/-- A closed train of every sender for every clock up to that of the key, empty but for the key. -/
def closings (key : ClockKey) (payloads : List Payload) : List Train :=
  (senders cfg gone).flatMap fun q => (List.range' 1 key.clock).map fun clock =>
    ⟨q, clock, if ClockKey.mk clock q = key then payloads else [], fullAck cfg⟩

/-- First the visits, then the closed trains. -/
def laps (key : ClockKey) (payloads : List Payload) : List Train :=
  visits cfg gone key.clock ++ closings cfg gone key payloads

variable {cfg gone}

theorem mem_senders {q : Nat} : q ∈ senders cfg gone ↔ q < cfg.ringSize ∧ ¬ gone q := by
  simp [senders]

theorem mem_closings {key : ClockKey} {payloads : List Payload} {train : Train} :
    train ∈ closings cfg gone key payloads ↔ ∃ q clock, (q < cfg.ringSize ∧ ¬ gone q) ∧
      (1 ≤ clock ∧ clock ≤ key.clock) ∧ train = ⟨q, clock,
        if ClockKey.mk clock q = key then payloads else [], fullAck cfg⟩ := by
  unfold closings
  simp only [List.mem_flatMap, List.mem_map, mem_senders, List.mem_range'_1]
  refine ⟨fun ⟨q, sender, clock, bounds, same⟩ => ⟨q, clock, sender, by omega, same.symm⟩,
    fun ⟨q, clock, sender, bounds, same⟩ => ⟨q, sender, clock, by omega, same.symm⟩⟩

theorem coming_visits {clock : Nat} {train : Train} (member : train ∈ visits cfg gone clock) :
    train.issuer < cfg.ringSize ∧ Coming gone train := by
  obtain ⟨q, sender, rfl⟩ := List.mem_map.mp member
  exact mem_senders.mp sender

/-- Every train of the laps is a sender's. -/
theorem coming_laps {key : ClockKey} {payloads : List Payload} {train : Train}
    (member : train ∈ laps cfg gone key payloads) :
    train.issuer < cfg.ringSize ∧ Coming gone train := by
  rcases List.mem_append.mp member with visit | closing
  · exact coming_visits visit
  · obtain ⟨q, clock, sender, -, rfl⟩ := mem_closings.mp closing
    exact sender

/-- Of the ready trains of the laps only those of the key carry the payloads. -/
theorem payloads_laps {node : TrainsNode cfg} (plain : node.Plain) {key : ClockKey}
    {payloads : List Payload} {train : Train} (member : train ∈ laps cfg gone key payloads)
    (ready : node.Ready train) : train.payloads = if train.key = key then payloads else [] := by
  rcases List.mem_append.mp member with visit | closing
  · obtain ⟨q, -, rfl⟩ := List.mem_map.mp visit
    exact absurd ready (plain.open_unready rfl)
  · obtain ⟨q, clock, -, -, rfl⟩ := mem_closings.mp closing
    rfl

variable {origin : TrainsNode cfg} {key : ClockKey} {payloads : List Payload}

/-- **After the laps every ripe key that has been settled is done**: the gone issuers do not hold it
back, and the others have caught up and have every key settled. -/
theorem done_of_laps (payloads : List Payload) (plain : origin.Plain) (own : gone origin.id)
    (able : origin.delivery.mode ≠ .causalOrder) (ripe : Ripe gone origin key)
    (settled : origin.Settled key ∨ (key.issuer < cfg.ringSize ∧ ¬ gone key.issuer) ∧ 1 ≤ key.clock) :
    key ∈ (origin.receiveAll (laps cfg gone key payloads)).delivery.doneKeys := by
  have coming : ∀ train ∈ laps cfg gone key payloads, Coming gone train := fun train member =>
    (coming_laps member).2
  obtain ⟨since, -⟩ := Since.receiveAll own (fun _ comes => comes) _ (Since.refl plain) coming
  obtain ⟨half, -⟩ := Since.receiveAll own (fun _ comes => comes) _ (Since.refl plain)
    fun train member => (coming_visits member).2
  have seen : ∀ q, q < cfg.ringSize → ¬ gone q →
      key.clock ≤ (origin.receiveAll (visits cfg gone key.clock)).seenClock q := fun q inside stays =>
    plain.seen_receiveAll _ own (fun _ member => coming_visits member) ⟨q, key.clock, [], 0#32⟩
      (List.mem_map_of_mem (mem_senders.mpr ⟨inside, stays⟩))
  rw [laps, receiveAll_append] at since ⊢
  have grows := receiveAll_advances (closings cfg gone key payloads)
    (origin.receiveAll (visits cfg gone key.clock))
  -- the closed trains find their clocks seen
  have closed : ∀ q clock, q < cfg.ringSize → ¬ gone q → 1 ≤ clock → clock ≤ key.clock →
      ((origin.receiveAll (visits cfg gone key.clock)).receiveAll
        (closings cfg gone key payloads)).Settled ⟨clock, q⟩ := by
    intro q clock inside stays positive below
    have member : Train.mk q clock (if ClockKey.mk clock q = key then payloads else [])
        (fullAck cfg) ∈ closings cfg gone key payloads :=
      mem_closings.mpr ⟨q, clock, ⟨inside, stays⟩, ⟨positive, below⟩, rfl⟩
    refine half.plain.settles_receiveAll _ (half.advances.id.symm ▸ own)
      (fun train closing => coming train (List.mem_append_right _ closing)) _ member
      (half.advances.ready.mpr (closed_ready able rfl)) positive ?_
    exact below.trans (seen q inside stays)
  refine since.plain.done_of_settled (fun q issues => ?_) (fun other known less => ?_) ?_
  · by_cases isGone : gone q
    · exact since.seen q isGone ▸ ripe.caughtUp q isGone issues
    · exact (seen q (issues.trans_le cfg.trains_le) isGone).trans (grows.seen q)
  · by_cases isGone : gone other.issuer
    · have known' : origin.Known other := ⟨known.1, since.seen _ isGone ▸ known.2⟩
      exact since.kept other (ripe.below other isGone known' less)
    · exact closed other.issuer other.clock known.inside isGone known.1
        (ClockKey.clock_le_of_le less.le)
  · rcases settled with old | ⟨⟨inside, stays⟩, positive⟩
    · exact since.kept key old
    · exact closed key.issuer key.clock inside stays positive le_rfl

/-- What a node records for the laps: trains parked before and the payloads of the key. -/
theorem cargo_of_laps (plain : origin.Plain) (own : gone origin.id) :
    ∀ entry ∈ origin.allEntries (laps cfg gone key payloads),
      entry.1 ∉ origin.delivery.doneKeys ∧ Ripe gone origin entry.1 ∧
        ((∃ held, origin.parked.get? entry.1 = some held ∧ entry.2 = held.payloads) ∨
          ¬ origin.Settled entry.1 ∧ entry.2 = if entry.1 = key then payloads else []) := by
  intro entry member
  obtain ⟨-, records⟩ := Since.receiveAll own
    (fun train (fed : train ∈ laps cfg gone key payloads) => (coming_laps fed).2)
    (laps cfg gone key payloads) (Since.refl plain) fun train fed => fed
  obtain ⟨fresh, ripe, cargo⟩ := records entry member
  refine ⟨fresh, ripe, cargo.imp_right fun ⟨unsettled, train, fed, ready, same⟩ => ⟨unsettled, ?_⟩⟩
  rw [same]
  exact payloads_laps plain fed ready

/-- **A ripe key that has been settled is recorded for the laps.** -/
theorem recorded_of_laps (payloads : List Payload) (plain : origin.Plain) (own : gone origin.id)
    (able : origin.delivery.mode ≠ .causalOrder) (ripe : Ripe gone origin key)
    (settled : origin.Settled key ∨ (key.issuer < cfg.ringSize ∧ ¬ gone key.issuer) ∧ 1 ≤ key.clock)
    (fresh : key ∉ origin.delivery.doneKeys) :
    ∃ entry ∈ origin.allEntries (laps cfg gone key payloads), entry.1 = key := by
  have done := done_of_laps payloads plain own able ripe settled
  rw [doneKeys_receiveAll, Finset.mem_union, List.mem_toFinset] at done
  obtain ⟨entry, member, same⟩ := List.mem_map.mp (done.resolve_left fresh)
  exact ⟨entry, member, same⟩

end Laps

/-! ### Telling them apart -/

section Apart

variable {gone : Nat → Prop} [DecidablePred gone] {source : TrainsNode cfg} {id : Nat}
  {id_lt : id < cfg.ringSize}

/-- The joiner delivers what its source delivers, whatever the issuers that are not gone send. -/
def Follows (gone : Nat → Prop) (source joiner : TrainsNode cfg) : Prop :=
  ∀ trains, (∀ train ∈ trains, train.issuer < cfg.ringSize ∧ Coming gone train) →
    source.deliverOutputs trains = joiner.deliverOutputs trains

theorem Follows.laps {joiner : TrainsNode cfg} (follows : Follows gone source joiner)
    (key : ClockKey) (payloads : List Payload) :
    announcements (source.allEntries (laps cfg gone key payloads)) =
      announcements (joiner.allEntries (laps cfg gone key payloads)) := by
  rw [← flatten_deliverOutputs, ← flatten_deliverOutputs, follows _ fun train member => coming_laps member]

/-- **A parked train with payloads that becomes deliverable** is delivered by the source only. -/
theorem silent_of_parked (plain : source.Plain) (own : gone source.id) (newcomer : gone id)
    (follows : Follows gone source (source.joined id id_lt)) {key : ClockKey} {held : Train}
    (found : source.parked.get? key = some held) (ripe : Ripe gone source key) :
    held.payloads = [] := by
  have able := plain.able key (Or.inr ⟨held, found⟩)
  have fresh := plain.settling.tidy.apart key held found
  -- the joiner has nothing parked and receives empty trains
  have quiet : announcements ((source.joined id id_lt).allEntries (laps cfg gone key [])) = [] := by
    refine announcements_eq_nil.mpr fun entry member => ?_
    obtain ⟨-, -, ⟨waiting, parked, -⟩ | ⟨-, same⟩⟩ :=
      cargo_of_laps (plain.joined id_lt) newcomer entry member
    · exact absurd parked (source.joined_holds_nothing id_lt)
    · rw [same, ite_self]
  obtain ⟨entry, member, rfl⟩ :=
    recorded_of_laps [] plain own able ripe (Or.inl (Or.inr ⟨held, found⟩)) fresh
  have empty := announcements_eq_nil.mp ((follows.laps entry.1 []).trans quiet) entry member
  obtain ⟨-, -, ⟨waiting, parked, same⟩ | ⟨unsettled, -⟩⟩ := cargo_of_laps plain own entry member
  · rw [found] at parked
    rw [← Option.some.inj parked] at same
    exact same.symm.trans empty
  · exact absurd (Or.inr ⟨held, found⟩) unsettled

/-- **Where the issuer of the smallest parked key still sends**, its closed train can come again:
only the joiner takes it. -/
theorem gone_of_first (plain : source.Plain) (own : gone source.id) (newcomer : gone id)
    (follows : Follows gone source (source.joined id id_lt)) {first : ClockKey} {held : Train}
    (smallest : source.parked.min? = some (first, held)) (ripe : Ripe gone source first) :
    gone first.issuer := by
  by_contra stays
  obtain ⟨found, least⟩ := OrdMap.min?_eq_some smallest
  have settled : source.Settled first := Or.inr ⟨held, found⟩
  have fresh := plain.settling.tidy.apart first held found
  obtain ⟨inside, seen⟩ := plain.settling.tidy.seen first held found
  -- what the gone issuers have below the smallest parked key is done, so the snapshot has it
  have ripe' : Ripe gone (source.joined id id_lt) first := by
    refine ⟨fun q isGone issues => ?_, fun other isGone known less => ?_⟩
    · rw [joined_seenClock]
      exact ripe.caughtUp q isGone issues
    · rcases ripe.below other isGone ((source.joined_known id_lt).mp known) less with
        done | ⟨waiting, parked⟩
      · exact Or.inl done
      · exact absurd less (not_lt.mpr (least other waiting parked))
  obtain ⟨entry, member, rfl⟩ := recorded_of_laps [⟨0, 0, []⟩] (plain.joined id_lt) newcomer
    (plain.able first settled) ripe' (Or.inr ⟨⟨inside, stays⟩, plain.positive first settled⟩) fresh
  have quiet : announcements (source.allEntries (laps cfg gone entry.1 [⟨0, 0, []⟩])) = [] := by
    refine announcements_eq_nil.mpr fun other member => ?_
    obtain ⟨-, isRipe, ⟨waiting, parked, same⟩ | ⟨unsettled, same⟩⟩ :=
      cargo_of_laps plain own other member
    · exact same.trans (silent_of_parked plain own newcomer follows parked isRipe)
    · rw [same, if_neg]
      rintro isFirst
      exact unsettled (isFirst ▸ settled)
  have empty := announcements_eq_nil.mp ((follows.laps entry.1 _).symm.trans quiet) entry member
  obtain ⟨-, -, ⟨waiting, parked, -⟩ | ⟨-, same⟩⟩ :=
    cargo_of_laps (plain.joined id_lt) newcomer entry member
  · exact absurd parked (source.joined_holds_nothing id_lt)
  · rw [empty, if_pos rfl] at same
    cases same

/-- **A ripe open key from the smallest parked one on** is one that the source can still record; the
joiner stands still before it. -/
theorem gone_of_unparked (plain : source.Plain) (own : gone source.id) (newcomer : gone id)
    (follows : Follows gone source (source.joined id id_lt)) {first key : ClockKey} {held : Train}
    (smallest : source.parked.min? = some (first, held)) (isGone : gone first.issuer)
    (above : first ≤ key) (ripe : Ripe gone source key) (fresh : key ∉ source.delivery.doneKeys)
    (unparked : source.parked.get? key = none) : gone key.issuer ∨ cfg.ringSize ≤ key.issuer := by
  by_contra neither
  obtain ⟨stays, inside⟩ := not_or.mp neither
  obtain ⟨found, -⟩ := OrdMap.min?_eq_some smallest
  have settled : source.Settled first := Or.inr ⟨held, found⟩
  have positive : 1 ≤ key.clock :=
    (plain.positive first settled).trans (ClockKey.clock_le_of_le above)
  obtain ⟨entry, member, rfl⟩ := recorded_of_laps [⟨0, 0, []⟩] plain own (plain.able first settled)
    ripe (Or.inr ⟨⟨not_le.mp inside, stays⟩, positive⟩) fresh
  have quiet : announcements
      ((source.joined id id_lt).allEntries (laps cfg gone entry.1 [⟨0, 0, []⟩])) = [] := by
    refine announcements_eq_nil.mpr fun other member => ?_
    obtain ⟨-, -, ⟨waiting, parked, -⟩ | ⟨-, same⟩⟩ :=
      cargo_of_laps (plain.joined id_lt) newcomer other member
    · exact absurd parked (source.joined_holds_nothing id_lt)
    · rw [same, if_neg]
      intro isKey
      obtain ⟨since, -⟩ := Since.receiveAll newcomer (fun _ comes => comes) _
        (Since.refl (plain.joined id_lt)) fun train fed => (coming_laps fed).2
      refine open_from_first plain smallest isGone since fresh above ?_
      rw [doneKeys_receiveAll, ← isKey]
      exact Finset.mem_union_right _ (List.mem_toFinset.mpr (List.mem_map_of_mem member))
  have empty := announcements_eq_nil.mp ((follows.laps entry.1 _).trans quiet) entry member
  obtain ⟨-, -, ⟨waiting, parked, -⟩ | ⟨-, same⟩⟩ := cargo_of_laps plain own entry member
  · exact absurd (unparked.symm.trans parked) (by simp)
  · rw [empty, if_pos rfl] at same
    cases same

/-- **Only the joiner of a portable source follows it.** -/
theorem portable_of_follows (plain : source.Plain) (own : gone source.id) (newcomer : gone id)
    (follows : Follows gone source (source.joined id id_lt)) : Portable gone source := by
  intro first held smallest ripe
  have isGone := gone_of_first plain own newcomer follows smallest ripe
  refine ⟨isGone, fun key above isRipe fresh => ⟨fun waiting found => ?_, fun unparked => ?_⟩⟩
  · exact silent_of_parked plain own newcomer follows found isRipe
  · exact gone_of_unparked plain own newcomer follows smallest isGone above isRipe fresh unparked

end Apart

end TrainsNode

/-! ### The joiner -/

/-- **Exactly when the joiner delivers what its source delivers**, train by train: when the source is
portable, the issuers gone being the two nodes themselves. -/
theorem joiner_delivers {source : TrainsNode cfg}
    (reachable : (nodeRuns NodeCall.Ordinary).Reachable source) {id : Nat}
    (id_lt : id < cfg.ringSize) :
    (∀ trains : List Train, (∀ train ∈ trains,
      train.issuer < cfg.ringSize ∧ train.issuer ≠ source.id ∧ train.issuer ≠ id) →
        source.deliverOutputs trains = (source.joined id id_lt).deliverOutputs trains) ↔
      TrainsNode.Portable (fun q => q = source.id ∨ q = id) source := by
  have plain := plain_reachable reachable
  refine ⟨fun same => ?_, fun portable trains coming => ?_⟩
  · have follows : TrainsNode.Follows (fun q => q = source.id ∨ q = id) source
        (source.joined id id_lt) := fun trains coming => same trains fun train member =>
      ⟨(coming train member).1, not_or.mp (coming train member).2⟩
    exact TrainsNode.portable_of_follows plain (Or.inl rfl) (Or.inr rfl) follows
  · exact TrainsNode.deliverOutputs_of_portable plain portable (Or.inl rfl) (Or.inr rfl) trains
      fun train member => not_or.mpr (coming train member).2

/-- A node that has parked the closed train of issuer 0; issuer 1, which has not caught up, is gone. -/
def waitingForOne : TrainsNode .triple :=
  (nodeRuns NodeCall.Ordinary).run
    (TrainsNode.new .triple 2 RingConfig.two_lt_triple .uniformTotalOrder)
    [.step (.trainReceived ⟨0, 1, [], 1#32⟩),
      .step (.trainReceived ⟨0, 1, [⟨0, 0, [5]⟩], 7#32⟩)]

theorem joiner_delivers_triple : TrainsNode.Follows (fun q => q = 2 ∨ q = 1) waitingForOne
    (waitingForOne.joined 1 (by decide)) := by
  have reachable : (nodeRuns NodeCall.Ordinary).Reachable waitingForOne :=
    Machine.reachable_run ⟨2, by decide, .uniformTotalOrder, rfl⟩ (by decide)
  have head : waitingForOne.parked.min?.map Prod.fst = some ⟨1, 0⟩ := by decide +kernel
  have behind : waitingForOne.seenClock 1 = 0 := by decide +kernel
  have portable : TrainsNode.Portable (fun q => q = waitingForOne.id ∨ q = 1) waitingForOne := by
    intro first held smallest ripe
    rw [smallest] at head
    obtain rfl : first = ⟨1, 0⟩ := Option.some.inj head
    have caughtUp := ripe.caughtUp 1 (Or.inr rfl) (by decide)
    rw [behind] at caughtUp
    exact absurd caughtUp (by decide)
  exact fun trains coming => (joiner_delivers reachable _).mpr portable trains fun train member =>
    ⟨(coming train member).1, not_or.mp (coming train member).2⟩

/-- A node that has parked the closed train of issuer 1, whose clock issuer 0 has not reached. -/
def waitingForZero : TrainsNode .triple :=
  (nodeRuns NodeCall.Ordinary).run
    (TrainsNode.new .triple 2 RingConfig.two_lt_triple .uniformTotalOrder)
    [.step (.trainReceived ⟨1, 1, [], 2#32⟩),
      .step (.trainReceived ⟨1, 1, [⟨1, 0, [5]⟩], 7#32⟩)]

/-- Issuer 0's train goes round twice: the source delivers what it had parked, the joiner nothing. -/
theorem joiner_misses : ¬ ∀ (cfg : RingConfig) (source : TrainsNode cfg),
    (nodeRuns NodeCall.Ordinary).Reachable source → ∀ (id : Nat) (id_lt : id < cfg.ringSize)
      (trains : List Train), (∀ train ∈ trains,
        train.issuer < cfg.ringSize ∧ train.issuer ≠ source.id ∧ train.issuer ≠ id) →
          source.deliverOutputs trains = (source.joined id id_lt).deliverOutputs trains := by
  intro holds
  have reachable : (nodeRuns NodeCall.Ordinary).Reachable waitingForZero :=
    Machine.reachable_run ⟨2, by decide, .uniformTotalOrder, rfl⟩ (by decide)
  have same := holds .triple waitingForZero reachable 1 (by decide)
    [⟨0, 1, [], 1#32⟩, ⟨0, 1, [], 7#32⟩] (by decide)
  exact absurd same (by decide +kernel)

end TrainsRing
