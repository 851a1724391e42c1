/-
**Production and reference agree.**

`TrainsNode` and `ReferenceNode`, both new and in uniform total order, are fed the same events. At
every event they return equal outputs, and after it they have equal seen clocks, done keys, parked
keys and next issue clock (`production_agrees_with_reference`).

`Agrees` is the relation that carries the argument through every event. What it says beyond the
visible data is why the differences between the two do not show: the production node keeps its
floor at zero, nobody crashed and itself unfrozen, and the pending payloads are in the order in
which the reference sorts them.
-/

import TrainsRing.Core.Steps
import TrainsRing.Library.Lockstep
import TrainsRing.Reference.Node

namespace TrainsRing

variable {cfg : RingConfig}

/-! ### Events and what is seen of a run -/

/-- What a driver does to a node. -/
inductive NodeEvent where
  /-- `issue_initial_train`, whose train is sent. -/
  | issueInitialTrain
  /-- `step` on an input. -/
  | step (input : Input)
  deriving DecidableEq, Repr

/-- A received train names an issuer of the ring and has a clock from 1 on. -/
def NodeEvent.WellFormed (cfg : RingConfig) : NodeEvent → Prop
  | .step (.trainReceived train) => train.issuer < cfg.ringSize ∧ 1 ≤ train.clock
  | _ => True

/-- The data in which two nodes are compared. -/
structure NodeView (cfg : RingConfig) where
  seen : Slots cfg
  done : Finset ClockKey
  parked : Finset ClockKey
  nextIssueClock : Nat

namespace TrainsNode

/-- The production node takes an event. -/
def event (node : TrainsNode cfg) : NodeEvent → TrainsNode cfg × List Output
  | .issueInitialTrain => (node.issueInitialTrain.1, [.forwardTrain node.issueInitialTrain.2])
  | .step input => node.step input

/-- What is compared of the production node. -/
def view (node : TrainsNode cfg) : NodeView cfg where
  seen := node.seenClocks
  done := node.delivery.doneKeys
  parked := node.parked.keys.toFinset
  nextIssueClock := node.nextIssueClock

end TrainsNode

namespace ReferenceNode

/-- The reference node takes an event. -/
def event (node : ReferenceNode cfg) : NodeEvent → ReferenceNode cfg × List Output
  | .issueInitialTrain => (node.issueInitialTrain.1, [.forwardTrain node.issueInitialTrain.2])
  | .step input => node.step input

/-- What is compared of the reference node. -/
def view (node : ReferenceNode cfg) : NodeView cfg where
  seen := node.seenClk
  done := node.doneKeys
  parked := (node.parked.map Train.key).toFinset
  nextIssueClock := node.issClk

end ReferenceNode

/-- The two ways to raise the alarm at a new clock: past the next expected one. -/
theorem gapAlarm_checkAndUpdate (state : ClockState cfg) {issuer clock : Nat}
    (newer : state.lastSeen issuer < clock) :
    TrainsNode.gapAlarm issuer (state.checkAndUpdate issuer clock).2 =
      if satSucc (state.lastSeen issuer) < clock then [.declareCrash issuer] else [] := by
  unfold ClockState.lastSeen at *
  unfold ClockState.checkAndUpdate
  have step := le_satSucc (state.seen.get issuer)
  have bound := satSucc_le (state.seen.get issuer)
  by_cases next : clock = satSucc (state.seen.get issuer)
  · rw [if_neg (by omega), if_pos next, if_neg (by omega)]
    rfl
  · rw [if_neg (by omega), if_neg next, if_pos newer, if_pos (by omega)]
    rfl

/-! ### The relation -/

/-- The two nodes hold the same data, and the production node has never left its first view. -/
structure Agrees (node : TrainsNode cfg) (ref : ReferenceNode cfg) : Prop where
  id : ref.id = node.id
  seen : ref.seenClk = node.clockState.seen
  issue : ref.issClk = node.nextIssueClock
  /-- The sequence numbers are equal, or both nodes suppress every further broadcast. -/
  seq : ref.nextSeq = node.nextSeq ∨
    (node.id, node.nextSeq) ∈ node.broadcastSeen ∧ (node.id, ref.nextSeq) ∈ node.broadcastSeen
  pending : ref.pending = node.pending
  done : ref.doneKeys = node.delivery.doneKeys
  broadcast : ref.broadcastSeen = node.broadcastSeen
  /-- The list of parked trains is the map, in some order. -/
  parked : ∀ train, train ∈ ref.parked ↔ node.parked.get? train.key = some train
  keyed : ∀ key train, node.parked.get? key = some train → train.key = key
  distinct : (ref.parked.map Train.key).Nodup
  mode : node.delivery.mode = .uniformTotalOrder
  uncrashed : node.delivery.crashedBits = 0#32
  unfenced : node.viewFloor = Slots.zero cfg
  unfrozen : node.frozen = false
  small : node.nextSeq ≤ u64Max
  /-- Every sequence number used so far has been recorded. -/
  recorded : ∀ seq, seq < node.nextSeq → (node.id, seq) ∈ node.broadcastSeen
  own : ∀ payload ∈ node.pending, payload.sender = node.id ∧ payload.seq ≤ node.nextSeq
  ordered : node.pending.Pairwise Payload.precedes

namespace Agrees

variable {node : TrainsNode cfg} {ref : ReferenceNode cfg}

/-- Both nodes as constructed. -/
theorem new (id : Nat) (id_lt : id < cfg.ringSize) :
    Agrees (TrainsNode.new cfg id id_lt .uniformTotalOrder)
      (ReferenceNode.new cfg id id_lt .uniformTotalOrder) where
  id := rfl
  seen := rfl
  issue := rfl
  seq := Or.inl rfl
  pending := rfl
  done := rfl
  broadcast := rfl
  parked := fun train => by simp [ReferenceNode.new, TrainsNode.new]
  keyed := fun key train found => by simp [TrainsNode.new] at found
  distinct := List.nodup_nil
  mode := rfl
  uncrashed := rfl
  unfenced := rfl
  unfrozen := rfl
  small := Nat.zero_le _
  recorded := fun seq below => absurd below (Nat.not_lt_zero seq)
  own := fun payload member => by simp [TrainsNode.new] at member
  ordered := List.Pairwise.nil

variable (agrees : Agrees node ref)
include agrees

/-- The two nodes look alike. -/
theorem view : node.view = ref.view := by
  have seen : node.seenClocks = ref.seenClk := by
    rw [agrees.seen]
    refine Slots.ext_get fun q inside => ?_
    exact Slots.get_ofFn _ inside
  have parked : node.parked.keys.toFinset = (ref.parked.map Train.key).toFinset := by
    ext key
    simp only [List.mem_toFinset, OrdMap.mem_keys_iff, List.mem_map]
    constructor
    · rintro ⟨train, found⟩
      have named := agrees.keyed key train found
      exact ⟨train, (agrees.parked train).mpr (named ▸ found), named⟩
    · rintro ⟨train, member, rfl⟩
      exact ⟨train, (agrees.parked train).mp member⟩
  unfold TrainsNode.view ReferenceNode.view
  rw [seen, parked, agrees.done, agrees.issue]

/-- The reference's sort finds the pending payloads in order. -/
theorem sorted : sortPayloads ref.pending = node.pending := by
  rw [agrees.pending]
  exact agrees.ordered.insertionSort_eq

/-! ### Delivery -/

/-- As many trains are parked in the list as in the map. -/
theorem size : ref.parked.length = node.parked.size := by
  have same : (ref.parked.map Train.key).Perm node.parked.keys := by
    refine (List.perm_ext_iff_of_nodup agrees.distinct node.parked.nodup_keys).mpr fun key => ?_
    have views := congrArg NodeView.parked agrees.view
    have member := Finset.ext_iff.mp views key
    simpa [TrainsNode.view, ReferenceNode.view] using member.symm
  have lengths := same.length_eq
  rwa [List.length_map, OrdMap.keys, List.length_map] at lengths

theorem isDeliverable (key : ClockKey) : ref.isDeliverable key = node.isDeliverable key := by
  have parked : (ref.parked.all fun train => !decide (train.key < key)) =
      node.parked.keys.all fun parked => !decide (parked < key) := by
    have views := Finset.ext_iff.mp (congrArg NodeView.parked agrees.view)
    simp only [TrainsNode.view, ReferenceNode.view, List.mem_toFinset] at views
    rw [Bool.eq_iff_iff, List.all_eq_true, List.all_eq_true]
    constructor
    · intro all key' member
      obtain ⟨train, held, rfl⟩ := List.mem_map.mp ((views key').mp member)
      exact all train held
    · intro all train member
      exact all train.key ((views train.key).mpr (List.mem_map_of_mem member))
  have below : ∀ q, (ref.seenClk.get q == 0 ||
      (List.range' 1 (ref.seenClk.get q)).all fun clock =>
        !decide (ClockKey.mk clock q < key) || decide (ClockKey.mk clock q ∈ ref.doneKeys)) =
      (List.range' 1 (node.clockState.lastSeen q)).all fun clock =>
        !decide (ClockKey.mk clock q < key) || node.delivery.alreadyDelivered ⟨clock, q⟩ := by
    intro q
    rw [agrees.seen, agrees.done]
    unfold DeliveryState.alreadyDelivered ClockState.lastSeen
    by_cases none : node.clockState.seen.get q = 0
    · simp [none]
    · simp [none]
  have caught : ∀ q, (!decide (ref.seenClk.get q < key.clock)) =
      (node.delivery.isCrashed q || decide (key.clock ≤ node.clockState.lastSeen q)) := by
    intro q
    have alive : node.delivery.isCrashed q = false := by
      unfold DeliveryState.isCrashed
      rw [agrees.uncrashed, hasBit_zero]
    rw [alive, agrees.seen, Bool.false_or, ← decide_not]
    unfold ClockState.lastSeen
    simp only [not_lt]
  unfold ReferenceNode.isDeliverable TrainsNode.isDeliverable TrainsNode.seenClocksAdvancedEnough
  rw [parked]
  simp only [below, caught]

theorem readyToDeliver (train : Train) :
    ReferenceNode.readyToDeliver cfg train.ackBits ref.mode =
      node.delivery.readyToDeliver train.ackBits node.delivery.mode := by
  rw [agrees.mode]
  cases ref.mode <;> rfl

/-- Both record a delivered key. -/
theorem deliverNow (key : ClockKey) (payloads : List Payload) :
    Agrees (node.deliverNow key payloads).1 (ref.deliverNow key payloads).1 ∧
      (node.deliverNow key payloads).2 = (ref.deliverNow key payloads).2 := by
  have done : insert key ref.doneKeys = insert key node.delivery.doneKeys := by rw [agrees.done]
  unfold TrainsNode.deliverNow ReferenceNode.deliverNow
  by_cases empty : payloads.isEmpty = true
  · rw [if_pos empty, if_pos empty]
    exact ⟨{ agrees with done := done }, rfl⟩
  · rw [if_neg empty, if_neg empty]
    unfold TrainsNode.cacheDelivered
    rw [if_neg empty]
    exact ⟨{ agrees with done := done }, rfl⟩

/-- Both park a train whose key is not parked yet. -/
theorem park {train : Train} (free : node.parked.get? train.key = none) :
    Agrees { node with parked := node.parked.insertNew train.key train }
      { ref with parked := ref.parked ++ [train] } := by
  have absent : ∀ other ∈ ref.parked, other.key ≠ train.key := by
    intro other member same
    have found := (agrees.parked other).mp member
    rw [same, free] at found
    cases found
  have stored : ∀ {key : ClockKey} {other : Train},
      (node.parked.insertNew train.key train).get? key = some other ↔
        if key = train.key then other = train else node.parked.get? key = some other := by
    intro key other
    rw [OrdMap.get?_insertNew, free, Option.getD_none]
    by_cases same : key = train.key
    · simp [same, eq_comm]
    · simp [same]
  refine { agrees with parked := ?_, keyed := ?_, distinct := ?_ }
  · intro other
    rw [stored, List.mem_append, List.mem_singleton]
    by_cases same : other.key = train.key
    · rw [if_pos same, or_iff_right]
      exact fun old => absent other old same
    · rw [if_neg same, ← agrees.parked other, or_iff_left]
      exact fun equal => same (congrArg Train.key equal)
  · intro key other found
    rw [stored] at found
    split_ifs at found with here
    · rw [found, here]
    · exact agrees.keyed key other found
  · rw [List.map_append]
    refine List.Nodup.append agrees.distinct (List.nodup_singleton _) ?_
    intro key old new
    obtain ⟨other, member, rfl⟩ := List.mem_map.mp old
    exact absent other member (List.mem_singleton.mp new)

theorem tryDeliver (train : Train) :
    Agrees (node.tryDeliver train).1 (ref.tryDeliver train).1 ∧
      (node.tryDeliver train).2 = (ref.tryDeliver train).2 := by
  have running : ¬ node.frozen = true := by simp [agrees.unfrozen]
  have known : train.key ∈ ref.doneKeys ↔ node.delivery.alreadyDelivered train.key = true := by
    simp [agrees.done, DeliveryState.alreadyDelivered]
  unfold TrainsNode.tryDeliver ReferenceNode.tryDeliver
  rw [if_neg running, agrees.readyToDeliver, agrees.isDeliverable]
  by_cases unready : (!node.delivery.readyToDeliver train.ackBits node.delivery.mode) = true
  · rw [if_pos unready, if_pos unready]
    exact ⟨agrees, rfl⟩
  rw [if_neg unready, if_neg unready]
  by_cases delivered : train.key ∈ ref.doneKeys
  · rw [if_pos delivered, if_pos (known.mp delivered)]
    exact ⟨agrees, rfl⟩
  rw [if_neg delivered, if_neg (mt known.mpr delivered)]
  by_cases blocked : (!node.isDeliverable train.key) = true
  · rw [if_pos blocked, if_pos blocked]
    cases free : node.parked.get? train.key with
    | none =>
      have absent : ¬ (ref.parked.any fun held => held.key = train.key) = true := by
        intro held
        obtain ⟨other, member, same⟩ := List.any_eq_true.mp held
        have found := (agrees.parked other).mp member
        rw [of_decide_eq_true same, free] at found
        cases found
      rw [if_neg absent]
      exact ⟨agrees.park free, rfl⟩
    | some other =>
      -- the key is parked already: both leave the earlier train in place
      have named := agrees.keyed train.key other free
      have member : other ∈ ref.parked := (agrees.parked other).mpr (named ▸ free)
      have held : (ref.parked.any fun held => held.key = train.key) = true :=
        List.any_eq_true.mpr ⟨other, member, decide_eq_true named⟩
      have kept : node.parked.insertNew train.key train = node.parked := if_pos (by simp [free])
      rw [if_pos held, kept]
      exact ⟨agrees, rfl⟩
  · rw [if_neg blocked, if_neg blocked]
    exact agrees.deliverNow train.key train.payloads

/-- The smallest parked key of the list is that of the map. -/
theorem smallest : (ref.parked.map Train.key).min? = node.parked.min?.map Prod.fst := by
  have views := Finset.ext_iff.mp (congrArg NodeView.parked agrees.view)
  simp only [TrainsNode.view, ReferenceNode.view, List.mem_toFinset] at views
  cases least : node.parked.min? with
  | none =>
    have empty := OrdMap.min?_eq_none.mp least
    rw [Option.map_none, List.min?_eq_none_iff, List.eq_nil_iff_forall_not_mem]
    intro key member
    obtain ⟨train, found⟩ := (OrdMap.mem_keys_iff _).mp ((views key).mpr member)
    rw [empty key] at found
    cases found
  | some entry =>
    obtain ⟨key, train⟩ := entry
    obtain ⟨found, lowest⟩ := OrdMap.min?_eq_some least
    rw [Option.map_some, List.min?_eq_some_iff]
    refine ⟨(views key).mp ((OrdMap.mem_keys_iff _).mpr ⟨train, found⟩), fun other member => ?_⟩
    obtain ⟨held, here⟩ := (OrdMap.mem_keys_iff _).mp ((views other).mpr member)
    exact lowest other held here

/-- The list's train of a key is the map's. -/
theorem find {key : ClockKey} {train : Train} (found : node.parked.get? key = some train) :
    (ref.parked.find? fun held => held.key = key) = some train := by
  have named := agrees.keyed key train found
  have member : train ∈ ref.parked := (agrees.parked train).mpr (named ▸ found)
  cases search : ref.parked.find? fun held => held.key = key with
  | none => simpa [named] using List.find?_eq_none.mp search train member
  | some held =>
    have same : held.key = key := by simpa using List.find?_some search
    have other := (agrees.parked held).mp (List.mem_of_find?_eq_some search)
    rw [same, found] at other
    rw [other]

/-- Both take a parked train out. -/
theorem unpark {key : ClockKey} {train : Train} (found : node.parked.get? key = some train) :
    Agrees (node.unpark key) { ref with parked := ref.parked.eraseP fun held => held.key = key } := by
  have member : ∀ other, (other ∈ ref.parked.eraseP fun held => held.key = key) ↔
      other ∈ ref.parked ∧ other.key ≠ key := by
    intro other
    by_cases same : other.key = key
    · refine ⟨fun still => ?_, fun both => absurd same both.2⟩
      -- the erased list has no second train of this key
      obtain ⟨taken, front, back, _, here, split, erased⟩ :=
        List.exists_of_eraseP (p := fun held : Train => decide (held.key = key))
          ((agrees.parked train).mpr ((agrees.keyed key train found).symm ▸ found))
          (by simpa using agrees.keyed key train found)
      have distinct := agrees.distinct
      rw [split, List.map_append, List.map_cons] at distinct
      have once := (List.nodup_middle.mp distinct)
      have fresh := (List.nodup_cons.mp once).1
      rw [erased] at still
      refine absurd ?_ fresh
      rw [← List.map_append]
      have named : taken.key = other.key := by
        rw [same]
        simpa using here
      exact named ▸ List.mem_map_of_mem still
    · rw [List.mem_eraseP_of_neg (by simpa using same)]
      exact ⟨fun old => ⟨old, same⟩, And.left⟩
  refine { agrees with parked := ?_, keyed := ?_, distinct := ?_ }
  · intro other
    rw [member, agrees.parked other, TrainsNode.unpark, OrdMap.get?_erase]
    by_cases same : other.key = key
    · simp [same]
    · simp [same]
  · intro other held inside
    rw [TrainsNode.unpark, OrdMap.get?_erase] at inside
    split_ifs at inside with same
    exact agrees.keyed other held inside
  · exact agrees.distinct.sublist (List.eraseP_sublist.map Train.key)

omit agrees in
theorem drainLoop (fuel : Nat) : ∀ {node : TrainsNode cfg} {ref : ReferenceNode cfg},
    Agrees node ref → Agrees (node.drainLoop fuel).1 (ref.drainLoop fuel).1 ∧
      (node.drainLoop fuel).2 = (ref.drainLoop fuel).2 := by
  induction fuel with
  | zero => exact fun agrees => ⟨agrees, rfl⟩
  | succ fuel ih =>
    intro node ref agrees
    unfold TrainsNode.drainLoop ReferenceNode.drainLoop
    rw [agrees.smallest]
    cases least : node.parked.min? with
    | none => exact ⟨agrees, rfl⟩
    | some entry =>
      obtain ⟨key, train⟩ := entry
      obtain ⟨found, -⟩ := OrdMap.min?_eq_some least
      have searched := agrees.find found
      have sameGate := agrees.isDeliverable key
      simp only [Option.map_some, sameGate, searched]
      by_cases deliverable : node.isDeliverable key = true
      · rw [if_pos deliverable, if_pos deliverable]
        obtain ⟨delivered, outputs⟩ := (agrees.unpark found).deliverNow key train.payloads
        obtain ⟨drained, more⟩ := ih delivered
        exact ⟨drained, congrArg₂ (· ++ ·) outputs more⟩
      · rw [if_neg deliverable, if_neg deliverable]
        exact ⟨agrees, rfl⟩

theorem drainParked : Agrees node.drainParked.1 ref.drainParked.1 ∧
    node.drainParked.2 = ref.drainParked.2 := by
  have running : ¬ node.frozen = true := by
    rw [agrees.unfrozen]
    exact Bool.false_ne_true
  unfold TrainsNode.drainParked ReferenceNode.drainParked
  rw [if_neg running, agrees.size]
  exact drainLoop _ agrees

/-! ### Events -/

/-- Both record the identifiers of some payloads. -/
theorem noteSeen (payloads : List Payload) :
    Agrees (node.noteSeen payloads) (ref.noteSeen payloads) := by
  have grows : ∀ id ∈ node.broadcastSeen, id ∈ (node.noteSeen payloads).broadcastSeen :=
    fun _ member => node.mem_noteSeen payloads member
  refine { agrees with seq := ?_, broadcast := ?_, recorded := ?_ }
  · exact agrees.seq.imp_right fun both => ⟨grows _ both.1, grows _ both.2⟩
  · unfold ReferenceNode.noteSeen TrainsNode.noteSeen
    simp only [agrees.broadcast]
  · exact fun seq below => grows _ (agrees.recorded seq below)

/-- Both empty their queues. -/
theorem clearPending : Agrees { node with pending := [] } { ref with pending := [] } :=
  { agrees with
    pending := rfl
    own := fun _ member => absurd member List.not_mem_nil
    ordered := List.Pairwise.nil }

/-- Both store a newer clock. -/
theorem store (issuer clock : Nat) :
    Agrees { node with clockState := ⟨node.clockState.seen.set issuer clock⟩ }
      { ref with seenClk := ref.seenClk.set issuer clock } :=
  { agrees with seen := by rw [agrees.seen] }

theorem appBroadcast (data : List UInt8) :
    Agrees (node.handleBroadcast data).1 (ref.appBroadcast data).1 ∧
      (node.handleBroadcast data).2 = (ref.appBroadcast data).2 := by
  unfold TrainsNode.handleBroadcast ReferenceNode.appBroadcast
  by_cases stuck : (node.id, node.nextSeq) ∈ node.broadcastSeen
  · have suppressed : (ref.id, ref.nextSeq) ∈ ref.broadcastSeen := by
      rw [agrees.id, agrees.broadcast]
      rcases agrees.seq with same | both
      · rw [same]
        exact stuck
      · exact both.2
    rw [if_pos stuck, if_pos suppressed]
    exact ⟨agrees, rfl⟩
  · have same : ref.nextSeq = node.nextSeq := agrees.seq.resolve_right fun both => stuck both.1
    have unseen : (ref.id, ref.nextSeq) ∉ ref.broadcastSeen := by
      rw [agrees.id, agrees.broadcast, same]
      exact stuck
    rw [if_neg stuck, if_neg unseen]
    refine ⟨{ agrees with
      seq := ?_, pending := ?_, broadcast := ?_, small := ?_, recorded := ?_, own := ?_,
      ordered := ?_ }, rfl⟩
    · -- past `u64::MAX` one saturates and the other wraps, to a number it has used
      show (ref.nextSeq + 1) % 2 ^ 64 = satSucc node.nextSeq ∨
        (node.id, satSucc node.nextSeq) ∈ insert (node.id, node.nextSeq) node.broadcastSeen ∧
          (node.id, (ref.nextSeq + 1) % 2 ^ 64) ∈
            insert (node.id, node.nextSeq) node.broadcastSeen
      have bound := agrees.small
      rw [same]
      by_cases room : node.nextSeq < u64Max
      · left
        rw [satSucc_of_lt room]
        unfold u64Max at room
        exact Nat.mod_eq_of_lt (by omega)
      · right
        have top : node.nextSeq = u64Max := by omega
        have wrapped : (u64Max + 1) % 2 ^ 64 = 0 := by decide
        have full : satSucc u64Max = u64Max := if_neg (lt_irrefl _)
        rw [top, wrapped, full]
        refine ⟨Finset.mem_insert_self _ _, Finset.mem_insert_of_mem (agrees.recorded 0 ?_)⟩
        rw [top]
        decide
    · show ref.pending ++ [⟨ref.id, ref.nextSeq, data⟩] =
        node.pending ++ [⟨node.id, node.nextSeq, data⟩]
      rw [agrees.pending, agrees.id, same]
    · show insert (ref.id, ref.nextSeq) ref.broadcastSeen =
        insert (node.id, node.nextSeq) node.broadcastSeen
      rw [agrees.broadcast, agrees.id, same]
    · exact satSucc_le_max agrees.small
    · intro seq below
      have step := satSucc_le node.nextSeq
      by_cases last : seq = node.nextSeq
      · rw [last]
        exact Finset.mem_insert_self _ _
      · refine Finset.mem_insert_of_mem (agrees.recorded seq ?_)
        exact lt_of_le_of_ne (by exact Nat.lt_succ_iff.mp (below.trans_le step)) last
    · intro payload member
      have grows := le_satSucc node.nextSeq
      rcases List.mem_append.mp member with old | new
      · exact ⟨(agrees.own payload old).1, (agrees.own payload old).2.trans grows⟩
      · rw [List.mem_singleton.mp new]
        exact ⟨rfl, grows⟩
    · refine List.pairwise_append.mpr ⟨agrees.ordered, List.pairwise_singleton _ _, ?_⟩
      intro first old second new
      rw [List.mem_singleton.mp new]
      exact Or.inr (agrees.own first old)

theorem issueNewTrain : Agrees node.issueNewTrain.1 ref.issueNewTrain.1 ∧
    node.issueNewTrain.2 = ref.issueNewTrain.2 := by
  have cleared := (agrees.noteSeen node.pending).clearPending
  unfold TrainsNode.issueNewTrain ReferenceNode.issueNewTrain
  rw [agrees.sorted, agrees.issue, agrees.id]
  exact ⟨{ cleared with issue := rfl }, rfl⟩

/-- A foreign train: the two clock checks agree on what is new, what is stored and what is a gap. -/
theorem handleForeign {train : Train} (positive : 1 ≤ train.clock) :
    Agrees (node.handleForeignTrain train).1 (ref.handleForeign train).1 ∧
      (node.handleForeignTrain train).2 = (ref.handleForeign train).2 := by
  unfold TrainsNode.handleForeignTrain ReferenceNode.handleForeign
  have prev : ref.seenClk.get train.issuer = node.clockState.lastSeen train.issuer := by
    rw [agrees.seen]
    rfl
  rw [prev]
  by_cases replay : train.clock ≤ node.clockState.lastSeen train.issuer ∧
      0 < node.clockState.lastSeen train.issuer
  · rw [if_pos replay, if_pos replay]
    obtain ⟨tried, outputs⟩ := (agrees.noteSeen train.payloads).tryDeliver train
    obtain ⟨drained, more⟩ := tried.drainParked
    refine ⟨drained, ?_⟩
    simp only [outputs, more]
  · rw [if_neg replay, if_neg replay]
    have newer : node.clockState.lastSeen train.issuer < train.clock := by omega
    have stored : (node.clockState.checkAndUpdate train.issuer train.clock).1 =
        ⟨node.clockState.seen.set train.issuer train.clock⟩ := by
      rw [ClockState.checkAndUpdate_fst, if_pos newer]
    have alarm : TrainsNode.gapAlarm train.issuer
        (node.clockState.checkAndUpdate train.issuer train.clock).2 =
        if satSucc (node.clockState.lastSeen train.issuer) < train.clock
        then [.declareCrash train.issuer] else [] := gapAlarm_checkAndUpdate _ newer
    have visited := (((agrees.noteSeen node.pending).noteSeen
      (train.payloads ++ node.pending)).clearPending).store train.issuer train.clock
    obtain ⟨drained, outputs⟩ := visited.drainParked
    simp only [agrees.sorted, agrees.id]
    rw [stored, alarm]
    exact ⟨drained, congrArg (fun rest => _ ++ Output.forwardTrain _ :: rest) outputs⟩

/-- A train of the node's own. -/
theorem handleReturning (train : Train) :
    Agrees (node.handleReturningTrain train).1 (ref.handleReturning train).1 ∧
      (node.handleReturningTrain train).2 = (ref.handleReturning train).2 := by
  have observed : Agrees (node.observe node.id train.clock)
      (if ref.seenClk.get ref.id < train.clock then
        { ref with seenClk := ref.seenClk.set ref.id train.clock } else ref) := by
    unfold TrainsNode.observe
    have same : ref.seenClk.get ref.id = node.clockState.lastSeen node.id := by
      rw [agrees.seen, agrees.id]
      rfl
    have slot : ref.seenClk.set ref.id train.clock = ref.seenClk.set node.id train.clock := by
      rw [agrees.id]
    rw [ClockState.checkAndUpdate_fst, same, slot]
    by_cases newer : node.clockState.lastSeen node.id < train.clock
    · rw [if_pos newer, if_pos newer]
      exact agrees.store node.id train.clock
    · rw [if_neg newer, if_neg newer]
      exact agrees
  have branch : node.handleReturningTrain train =
      if (node.observe node.id train.clock).delivery.alreadyDelivered train.key then
        ((node.observe node.id train.clock).issueNewTrain.1,
          [.forwardTrain (node.observe node.id train.clock).issueNewTrain.2])
      else
        (((node.observe node.id train.clock).tryDeliver train).1.drainParked.1,
          ((node.observe node.id train.clock).tryDeliver train).2 ++
            ((node.observe node.id train.clock).tryDeliver train).1.drainParked.2 ++
            [.forwardTrain train]) := rfl
  rw [branch]
  unfold ReferenceNode.handleReturning
  generalize (if ref.seenClk.get ref.id < train.clock then
    { ref with seenClk := ref.seenClk.set ref.id train.clock } else ref) = seen at observed ⊢
  have known : train.key ∈ seen.doneKeys ↔
      (node.observe node.id train.clock).delivery.alreadyDelivered train.key = true := by
    simp [observed.done, DeliveryState.alreadyDelivered]
  by_cases done : train.key ∈ seen.doneKeys
  · obtain ⟨issued, same⟩ := observed.issueNewTrain
    rw [if_pos done, if_pos (known.mp done)]
    exact ⟨issued, congrArg (fun train => [Output.forwardTrain train]) same⟩
  · obtain ⟨tried, outputs⟩ := observed.tryDeliver train
    obtain ⟨drained, more⟩ := tried.drainParked
    rw [if_neg done, if_neg (mt known.mpr done)]
    refine ⟨drained, ?_⟩
    rw [outputs, more]

/-- **Every event keeps the two nodes in agreement** and draws equal outputs. -/
theorem event {event : NodeEvent} (wellFormed : event.WellFormed cfg) :
    Agrees (node.event event).1 (ref.event event).1 ∧
      (node.event event).2 = (ref.event event).2 := by
  cases event with
  | issueInitialTrain =>
    obtain ⟨issued, same⟩ := agrees.issueNewTrain
    exact ⟨issued, congrArg (fun train => [Output.forwardTrain train]) same⟩
  | step input =>
    cases input with
    | localBroadcast data => exact agrees.appBroadcast data
    | tick => exact ⟨agrees, rfl⟩
    | trainReceived train =>
      obtain ⟨-, positive⟩ := wellFormed
      have live : ¬ node.Stale train := by
        rintro ⟨-, low⟩
        rw [agrees.unfenced, Slots.get_zero] at low
        omega
      have branch : node.handleTrain train = if train.issuer = node.id then
          node.handleReturningTrain train else node.handleForeignTrain train := if_neg live
      show Agrees (node.handleTrain train).1 (ref.handleTrain train).1 ∧
        (node.handleTrain train).2 = (ref.handleTrain train).2
      rw [branch]
      unfold ReferenceNode.handleTrain
      rw [agrees.id]
      by_cases own : train.issuer = node.id
      · rw [if_pos own, if_pos own]
        exact agrees.handleReturning train
      · rw [if_neg own, if_neg own]
        exact agrees.handleForeign positive

end Agrees

/-- **Production and reference agree**: on every list of events both see the same outputs and the
same visible state after each event. -/
theorem production_agrees_with_reference (id : Nat) (id_lt : id < cfg.ringSize)
    (events : List NodeEvent) (wellFormed : ∀ event ∈ events, event.WellFormed cfg) :
    trace TrainsNode.event TrainsNode.view
        (TrainsNode.new cfg id id_lt .uniformTotalOrder) events =
      trace ReferenceNode.event ReferenceNode.view
        (ReferenceNode.new cfg id id_lt .uniformTotalOrder) events := by
  refine trace_eq_of_lockstep (R := Agrees) ?_ ?_
    (Agrees.new id id_lt) wellFormed
  · exact fun node ref event agrees good => agrees.event good
  · exact fun node ref agrees => agrees.view

/-- The events of a ring of two: node 0 issues, takes a payload, and its train comes back closed,
comes back again and is recycled; a train of node 1 leaves a gap. -/
theorem production_agrees_with_reference_pair :
    trace TrainsNode.event TrainsNode.view
        (TrainsNode.new RingConfig.pair 0 (by decide) .uniformTotalOrder)
        [.issueInitialTrain, .step (.localBroadcast [7]),
          .step (.trainReceived ⟨0, 1, [⟨1, 0, [5]⟩], 3⟩),
          .step (.trainReceived ⟨0, 1, [⟨1, 0, [5]⟩], 3⟩), .step (.trainReceived ⟨1, 2, [], 2⟩)] =
      trace ReferenceNode.event ReferenceNode.view
        (ReferenceNode.new RingConfig.pair 0 (by decide) .uniformTotalOrder)
        [.issueInitialTrain, .step (.localBroadcast [7]),
          .step (.trainReceived ⟨0, 1, [⟨1, 0, [5]⟩], 3⟩),
          .step (.trainReceived ⟨0, 1, [⟨1, 0, [5]⟩], 3⟩), .step (.trainReceived ⟨1, 2, [], 2⟩)] :=
  production_agrees_with_reference 0 (by decide) _ (by
    intro event member
    fin_cases member
    · trivial
    · trivial
    · exact ⟨by decide, by decide⟩
    · exact ⟨by decide, by decide⟩
    · exact ⟨by decide, by decide⟩)

end TrainsRing
