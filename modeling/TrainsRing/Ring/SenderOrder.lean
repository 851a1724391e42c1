/-
**The order of one sender's payloads.**

A node loads its pending payloads onto whichever train comes first, and they are delivered in the
order of the keys. On FIFO links a later load never goes onto a train of a smaller clock (`Convoy`),
but it can go onto a train of the same clock and a smaller issuer, and is then delivered first.

* `fifoRing` — the ring with FIFO links, launched with every issuer's initial train.
* `Sequenced` — the payloads of a sender are on trains in the order of their numbers.
* `sender_order_fails` — a run that delivers two payloads of one sender in the wrong order.
* `sender_order` — **no run does whose loads are in turn**: a node with pending payloads never meets
  a train of a clock and a smaller issuer after it has loaded one of that clock and a larger issuer.
-/

import TrainsRing.Agreement.Async
import TrainsRing.Ring.Convoy

namespace TrainsRing

variable {cfg : RingConfig} {w w' : World cfg} {st : RingState cfg} {p : Fin cfg.ringSize}

/-! ### The ring with FIFO links -/

/-- Every issuer has issued its initial train. -/
def RingState.launched (cfg : RingConfig) : RingState cfg :=
  ((List.finRange cfg.ringSize).filter fun p => p.val < cfg.numTrains).foldl RingState.start
    (RingState.initial cfg .uniformTotalOrder)

/-- A link hands over its trains in the order they were sent in. -/
def RingAction.Fifo (st : RingState cfg) : RingAction cfg → Prop
  | .hop i => ∀ e ∈ st.inflight[i]?, ∀ j < i, ∀ e' ∈ st.inflight[j]?, e'.1 ≠ e.1
  | _ => True

instance (st : RingState cfg) : (action : RingAction cfg) → Decidable (action.Fifo st)
  | .broadcast _ _ => isTrue trivial
  | .start _ => isTrue trivial
  | .hop i => inferInstanceAs (Decidable (∀ e ∈ st.inflight[i]?, ∀ j < i,
      ∀ e' ∈ st.inflight[j]?, e'.1 ≠ e.1))

/-- The ring with FIFO links, from the launch on. -/
def fifoRing (cfg : RingConfig) : Machine (RingState cfg) (RingAction cfg) where
  start := fun st => st = RingState.launched cfg
  legal := fun st action => action.Legal st ∧ action.Fifo st
  next := RingState.apply

instance (cfg : RingConfig) (st : RingState cfg) (action : RingAction cfg) :
    Decidable ((fifoRing cfg).legal st action) :=
  inferInstanceAs (Decidable (action.Legal st ∧ action.Fifo st))

/-! ### Payloads in sequence -/

/-- The trains carry the payloads of each sender in order. -/
structure Sequenced (w : World cfg) : Prop where
  sorted : ∀ p, (w.accepted p).Pairwise fun a b => a.seq < b.seq
  numbered : ∀ p, ∀ m ∈ w.accepted p, m.seq ≤ (w.node p).nextSeq
  waiting : ∀ p, ∀ m' ∈ (w.node p).pending, ∀ t ∈ w.emitted, ∀ m ∈ t.payloads,
    m.sender = p.val → m.seq < m'.seq
  visited : ∀ t ∈ w.emitted, ∀ p : Fin cfg.ringSize, (∃ m ∈ t.payloads, m.sender = p.val) →
    p.val ≠ t.issuer → t.clock ≤ (w.node p).seenClock t.issuer
  ordered : ∀ t ∈ w.emitted, ∀ t' ∈ w.emitted, ∀ m ∈ t.payloads, ∀ m' ∈ t'.payloads,
    m.sender = m'.sender → m.seq < m'.seq → t.key ≤ t'.key

/-- All payloads of a node that are on trains are on trains up to this key. -/
def Loadable (w : World cfg) (p : Fin cfg.ringSize) (key : ClockKey) : Prop :=
  ∀ t ∈ w.emitted, (∃ m ∈ t.payloads, m.sender = p.val) → t.key ≤ key

namespace Sequenced

theorem initial (mode : DeliveryMode) : Sequenced (World.initial cfg mode) where
  sorted := fun _ => List.Pairwise.nil
  numbered := fun _ _ member => absurd member List.not_mem_nil
  waiting := fun _ _ member => absurd member List.not_mem_nil
  visited := fun _ member => absurd member List.not_mem_nil
  ordered := fun _ member => absurd member List.not_mem_nil

/-- A payload on a train was accepted from its sender. -/
theorem accepted_of_carried (custody : Custody w) {t : Train} (member : t ∈ w.emitted) {m : Payload}
    (inside : m ∈ t.payloads) (sender : m.sender = p.val) : m ∈ w.accepted p := by
  obtain ⟨q, accepted⟩ := custody.carried t member m inside
  obtain rfl : q = p := Fin.ext ((custody.own q m accepted).1.symm.trans sender)
  exact accepted

/-- **A step of node `p`** that leaves its pending payloads where they are and emits nothing new, or
moves all of them onto one train, above everything of its own that is on trains. -/
theorem emit (sequenced : Sequenced w) (custody : Custody w)
    (others : ∀ q, q ≠ p → w'.node q = w.node q) (accepted : w'.accepted = w.accepted)
    (evolves : (w.node p).Evolves (w'.node p))
    (shape : ((w'.node p).pending = (w.node p).pending ∧ ∀ t ∈ w'.emitted, t ∈ w.emitted) ∨
      ((w'.node p).pending = [] ∧ ∃ train, w'.emitted = w.emitted ++ [train] ∧
        Shipped w.emitted (w.node p).pending train ∧
        ((w.node p).pending ≠ [] → Loadable w p train.key ∧
          (p.val ≠ train.issuer → train.clock ≤ (w'.node p).seenClock train.issuer)))) :
    Sequenced w' := by
  have grows : ∀ q, (w.node q).Evolves (w'.node q) := by
    intro q
    by_cases same : q = p
    · exact same ▸ evolves
    · rw [others q same]
      exact TrainsNode.Evolves.refl _
  have sorted : ∀ q, (w'.accepted q).Pairwise fun a b => a.seq < b.seq :=
    accepted ▸ sequenced.sorted
  have numbered : ∀ q, ∀ m ∈ w'.accepted q, m.seq ≤ (w'.node q).nextSeq := fun q m member => by
    rw [(grows q).nextSeq]
    exact sequenced.numbered q m (accepted ▸ member)
  rcases shape with ⟨queue, nothing⟩ | ⟨queue, train, out, ⟨cargo, load, origin⟩, turn⟩
  · refine ⟨sorted, numbered, fun q m' inQueue t member m inside sender => ?_,
      fun t member q own foreign => ?_, fun t member t' member' =>
        sequenced.ordered t (nothing t member) t' (nothing t' member')⟩
    · have same : (w'.node q).pending = (w.node q).pending := by
        by_cases here : q = p
        · rw [here, queue]
        · rw [others q here]
      exact sequenced.waiting q m' (same ▸ inQueue) t (nothing t member) m inside sender
    · exact (sequenced.visited t (nothing t member) q own foreign).trans ((grows q).seen _)
  · have cases : ∀ t, t ∈ w'.emitted → t ∈ w.emitted ∨ t = train := by
      intro t member
      rw [out] at member
      exact (List.mem_append.mp member).imp_right List.mem_singleton.mp
    have queued : ∀ m ∈ (w.node p).pending, m.sender = p.val :=
      fun m member => (custody.own p m (custody.queued p m member)).1
    -- a payload on a train now was on a train of that key, or was pending at `p`
    have loaded : ∀ t ∈ w'.emitted, ∀ m ∈ t.payloads,
        (∃ old ∈ w.emitted, old.key = t.key ∧ m ∈ old.payloads) ∨
          t = train ∧ m ∈ (w.node p).pending := by
      intro t member m inside
      rcases cases t member with old | rfl
      · exact Or.inl ⟨t, old, rfl, inside⟩
      · rw [load] at inside
        rcases List.mem_append.mp inside with onBoard | inQueue
        · rcases origin with rfl | ⟨old, isOld, same, rfl⟩
          · cases onBoard
          · exact Or.inl ⟨old, isOld, same, onBoard⟩
        · exact Or.inr ⟨rfl, inQueue⟩
    have pending : ∀ q, ∀ m ∈ (w'.node q).pending, q ≠ p ∧ m ∈ (w.node q).pending := by
      intro q m member
      by_cases same : q = p
      · rw [same, queue] at member
        cases member
      · rw [others q same] at member
        exact ⟨same, member⟩
    refine ⟨sorted, numbered, fun q m' inQueue t member m inside sender => ?_,
      fun t member q own foreign => ?_, fun t member t' member' m inside m' inside' same below => ?_⟩
    · obtain ⟨other, inQueue⟩ := pending q m' inQueue
      rcases loaded t member m inside with ⟨old, isOld, -, onBoard⟩ | ⟨-, mine⟩
      · exact sequenced.waiting q m' inQueue old isOld m onBoard sender
      · exact absurd (Fin.ext (sender.symm.trans (queued m mine))) other
    · obtain ⟨m, inside, sender⟩ := own
      rcases loaded t member m inside with ⟨old, isOld, key, onBoard⟩ | ⟨rfl, mine⟩
      · have issuer : old.issuer = t.issuer := congrArg ClockKey.issuer key
        have clock : old.clock = t.clock := congrArg ClockKey.clock key
        have seen := sequenced.visited old isOld q ⟨m, onBoard, sender⟩ (issuer ▸ foreign)
        rw [issuer, clock] at seen
        exact seen.trans ((grows q).seen _)
      · obtain rfl : q = p := Fin.ext (sender.symm.trans (queued m mine))
        exact (turn (List.ne_nil_of_mem mine)).2 foreign
    · rcases loaded t member m inside with ⟨old, isOld, key, onBoard⟩ | ⟨rfl, mine⟩
      · rw [← key]
        rcases loaded t' member' m' inside' with ⟨old', isOld', key', onBoard'⟩ | ⟨rfl, mine'⟩
        · rw [← key']
          exact sequenced.ordered old isOld old' isOld' m onBoard m' onBoard' same below
        · exact (turn (List.ne_nil_of_mem mine')).1 old isOld
            ⟨m, onBoard, same.trans (queued m' mine')⟩
      · rcases loaded t' member' m' inside' with ⟨old', isOld', key', onBoard'⟩ | ⟨rfl, mine'⟩
        · have behind := sequenced.waiting p m mine old' isOld' m' onBoard'
            (same.symm.trans (queued m mine))
          exact absurd below behind.asymm
        · exact le_rfl

/-- **A broadcast** gets a number above every earlier one. -/
theorem broadcast (sequenced : Sequenced w) (custody : Custody w) (p : Fin cfg.ringSize)
    (data : List UInt8) : Sequenced (w.broadcast p data) := by
  obtain ⟨emitted, -, seen, -⟩ := broadcast_keeps w p data
  obtain ⟨pending, grows⟩ := (w.node p).handleBroadcast_pending data
  have self : (w.broadcast p data).node p = ((w.node p).handleBroadcast data).1 :=
    w.act_node_self p _
  have other : ∀ q, q ≠ p → (w.broadcast p data).node q = w.node q ∧
      (w.broadcast p data).accepted q = w.accepted q := fun q ne =>
    ⟨w.act_node_of_ne p _ ne, Function.update_of_ne ne ..⟩
  have accepted : (w.broadcast p data).accepted p = w.accepted p ++ (w.node p).acceptedBy data :=
    Function.update_self ..
  -- a number already used by the sender is refused
  have above : ∀ m' ∈ (w.node p).acceptedBy data, m'.seq = (w.node p).nextSeq ∧
      ∀ m ∈ w.accepted p, m.seq < m'.seq := by
    intro m' isNew
    unfold TrainsNode.acceptedBy at isNew
    split_ifs at isNew with used
    · cases isNew
    · obtain rfl := List.mem_singleton.mp isNew
      refine ⟨rfl, fun m old => lt_of_le_of_ne (sequenced.numbered p m old) fun same => used ?_⟩
      obtain ⟨sender, noted⟩ := custody.own p m old
      rw [Payload.msgId, sender, show m.seq = (w.node p).nextSeq from same,
        ← custody.ids p] at noted
      exact noted
  have single : ((w.node p).acceptedBy data).Pairwise fun a b => a.seq < b.seq := by
    unfold TrainsNode.acceptedBy
    split_ifs
    · exact List.Pairwise.nil
    · exact List.pairwise_singleton _ _
  refine ⟨fun q => ?_, fun q m member => ?_, fun q m' inQueue t member m inside sender => ?_,
    fun t member q own foreign => ?_, fun t member t' member' => ?_⟩
  · by_cases here : q = p
    · rw [here, accepted]
      exact List.pairwise_append.mpr ⟨sequenced.sorted p, single,
        fun m old m' isNew => (above m' isNew).2 m old⟩
    · rw [(other q here).2]
      exact sequenced.sorted q
  · by_cases here : q = p
    · rw [here, accepted] at member
      rw [here, self]
      rcases List.mem_append.mp member with old | isNew
      · exact (sequenced.numbered p m old).trans grows
      · exact (above m isNew).1.le.trans grows
    · rw [(other q here).2] at member
      rw [(other q here).1]
      exact sequenced.numbered q m member
  · rw [emitted] at member
    by_cases here : q = p
    · rw [here, self, pending] at inQueue
      rcases List.mem_append.mp inQueue with old | isNew
      · exact sequenced.waiting p m' old t member m inside (here ▸ sender)
      · exact (above m' isNew).2 m (accepted_of_carried custody member inside (here ▸ sender))
    · rw [(other q here).1] at inQueue
      exact sequenced.waiting q m' inQueue t member m inside sender
  · rw [seen]
    exact sequenced.visited t (emitted ▸ member) q own foreign
  · exact sequenced.ordered t (emitted ▸ member) t' (emitted ▸ member')

end Sequenced

/-! ### Loads in turn -/

/-- The key a node loads its pending payloads onto when it receives a train: the train's key on a
first visit, its own next key when its train comes back done. -/
def TrainsNode.loadsOnto (node : TrainsNode cfg) (train : Train) : Option ClockKey :=
  if node.Stale train then none
  else if train.issuer = node.id then
    if train.key ∈ node.delivery.doneKeys then some ⟨node.nextIssueClock, node.id⟩ else none
  else if node.Replay train then none
  else some train.key

/-- A node with pending payloads does not load them onto a key when it has loaded a train of the
same clock and a larger issuer before. -/
def InTurn (st : RingState cfg) : RingAction cfg → Prop
  | .hop i => ∀ e ∈ st.inflight[i]?,
      ∀ key ∈ (st.world.node (st.successor e.1)).loadsOnto e.2,
        (st.world.node (st.successor e.1)).pending ≠ [] →
          ∀ t ∈ st.world.emitted, t.clock = key.clock → key.issuer < t.issuer →
            ∀ m ∈ t.payloads, m.sender ≠ (st.successor e.1).val
  | _ => True

instance (st : RingState cfg) : (action : RingAction cfg) → Decidable (InTurn st action)
  | .broadcast _ _ => isTrue trivial
  | .start _ => isTrue trivial
  | .hop i => inferInstanceAs (Decidable (∀ e ∈ st.inflight[i]?,
      ∀ key ∈ (st.world.node (st.successor e.1)).loadsOnto e.2,
        (st.world.node (st.successor e.1)).pending ≠ [] →
          ∀ t ∈ st.world.emitted, t.clock = key.clock → key.issuer < t.issuer →
            ∀ m ∈ t.payloads, m.sender ≠ (st.successor e.1).val))

instance (st : RingState cfg) (action : RingAction cfg) :
    Decidable (((fifoRing cfg).restrict InTurn).legal st action) :=
  inferInstanceAs (Decidable ((action.Legal st ∧ action.Fifo st) ∧ InTurn st action))

/-- The invariant of the runs whose loads are in turn. -/
structure Marching (st : RingState cfg) (entries : Fin cfg.ringSize → List Entry) : Prop where
  ring : RingInvariant .uniformTotalOrder st entries
  convoy : Convoy .uniformTotalOrder st
  sequenced : Sequenced st.world

namespace Marching

variable {entries : Fin cfg.ringSize → List Entry}

/-- An issuer starts before anything is broadcast. -/
theorem start (marching : Marching st entries) (issues : p.val < cfg.numTrains)
    (waiting : p.val ∉ st.started) (idle : (st.world.node p).pending = []) :
    ∃ entries', Marching (st.start p) entries' := by
  have alive : p.val ∉ st.dead := (marching.ring.tokens.alive p).mp (View.alive_initial _ p)
  have self : (st.world.issueInitial p).node p = (st.world.node p).issueNewTrain.1 :=
    st.world.act_node_self p _
  have legal : (RingAction.start p).Legal st := ⟨issues, alive, waiting⟩
  obtain ⟨entries', ring⟩ := marching.ring.step (by decide) legal
  refine ⟨entries', ring, marching.convoy.start marching.ring issues waiting, ?_⟩
  show Sequenced (st.world.issueInitial p)
  refine marching.sequenced.emit (p := p) marching.ring.custody
    (fun q ne => st.world.act_node_of_ne p _ ne) rfl ?_ (Or.inr ⟨?_, _, rfl, ⟨[], rfl, Or.inl rfl⟩,
      fun loaded => absurd idle loaded⟩)
  · rw [self]
    exact (st.world.node p).issueNewTrain_evolves
  · rw [self]
    rfl

/-- **A hop whose load is in turn.** -/
theorem hop (marching : Marching st entries) {i : Nat} (legal : (RingAction.hop i).Legal st)
    (fifo : (RingAction.hop i).Fifo st) (inTurn : InTurn st (.hop i)) :
    ∃ entries', Marching (st.hop i) entries' := by
  obtain ⟨entries', ring⟩ := marching.ring.step (by decide) legal
  obtain ⟨⟨s, t⟩, here, -⟩ := legal
  refine ⟨entries', ring, marching.convoy.hop marching.ring here (fifo _ here), ?_⟩
  obtain ⟨before, after, shape, -, hop⟩ := RingState.hop_eq here
  have member : (s, t) ∈ st.inflight := by
    rw [shape]
    exact List.mem_append_right _ List.mem_cons_self
  have emittedT := marching.ring.tokens.flying _ member
  have isKey := marching.ring.keyed t emittedT
  have turn := inTurn _ here
  have visit := fun foreign new q => marching.convoy.first_visit marching.ring member foreign new
    (q := q)
  rw [hop]
  show Sequenced (st.world.receive (st.successor s) t)
  dsimp only at turn visit
  generalize st.successor s = r at turn visit ⊢
  have own : (st.world.node r).id = r.val := marching.ring.custody.ids r
  have fresh := (marching.ring.coherent.replica r (View.alive_initial _ r)).not_stale isKey
  obtain ⟨forwarded, -, emitted, traffic, evolves, -⟩ := st.world.receive_spec r isKey.1.inside
  refine marching.sequenced.emit marching.ring.custody
    (fun q ne => st.world.receive_node_of_ne r ne t) rfl evolves ?_
  rw [emitted]
  cases traffic with
  | absorbed _ same => exact Or.inl ⟨congrArg TrainsNode.pending same, fun t' isOut => by
      rwa [List.append_nil] at isOut⟩
  | relayed _ _ _ queue _ _ _ =>
    refine Or.inl ⟨queue, fun t' isOut => ?_⟩
    exact (List.mem_append.mp isOut).elim id fun new => List.mem_singleton.mp new ▸ emittedT
  | loaded _ foreign new queue _ seen =>
    have foreign' : r.val ≠ t.issuer := fun same => foreign (same.symm.trans own.symm)
    have unseen := seen_lt_of_not_replay isKey new
    refine Or.inr ⟨queue, _, rfl, ⟨t.payloads, rfl, Or.inr ⟨t, emittedT, rfl, rfl⟩⟩,
      fun loaded => ⟨fun t' isOut mine => not_lt.mp fun above => ?_, fun _ => seen⟩⟩
    have onto : (st.world.node r).loadsOnto t = some t.key := by
      rw [TrainsNode.loadsOnto, if_neg fresh, if_neg foreign, if_neg new]
    rcases ClockKey.lt_iff.mp above with later | ⟨same, larger⟩
    · have later : t.clock < t'.clock := later
      have isIssuer := (marching.ring.keyed t' isOut).1
      by_cases home : r.val = t'.issuer
      · -- the node's own train follows the clocks it has seen
        have gate := marching.convoy.gate t' isOut r home t.issuer isKey.1
        omega
      · have bound : (st.world.node r).seenClock t'.issuer ≤ t.clock :=
          visit foreign' unseen _ isIssuer home
        have visited := marching.sequenced.visited t' isOut r mine home
        omega
    · obtain ⟨m, inside, sender⟩ := mine
      exact turn t.key onto loaded t' isOut same.symm larger m inside sender
  | issued _ isOwn done queue _ =>
    refine Or.inr ⟨queue, _, rfl, ⟨[], rfl, Or.inl rfl⟩,
      fun loaded => ⟨fun t' isOut mine => not_lt.mp fun above => ?_, fun foreign => ?_⟩⟩
    · have onto : (st.world.node r).loadsOnto t =
          some ⟨(st.world.node r).nextIssueClock, (st.world.node r).id⟩ := by
        rw [TrainsNode.loadsOnto, if_neg fresh, if_pos isOwn, if_pos done]
      rcases ClockKey.lt_iff.mp above with later | ⟨same, larger⟩
      · have later : (st.world.node r).nextIssueClock < t'.clock := later
        have isIssuer : (View.initial cfg .uniformTotalOrder).Issuer r := by
          rw [← own, ← isOwn]
          exact isKey.1
        have level := marching.ring.clocks.level (View.balanced_initial _) t' isOut
          (marching.ring.keyed t' isOut) r isIssuer
        rw [st.world.issueClock_eq] at level
        omega
      · obtain ⟨m, inside, sender⟩ := mine
        exact turn _ onto loaded t' isOut same.symm larger m inside sender
    · exact absurd own.symm foreign

/-- **Every step** of the launched ring whose load is in turn. -/
theorem step (marching : Marching st entries) {action : RingAction cfg}
    (started : ∀ q, q < cfg.numTrains → q ∈ st.started) (legal : action.Legal st)
    (fifo : action.Fifo st) (inTurn : InTurn st action) :
    ∃ entries', Marching (st.apply action) entries' := by
  cases action with
  | broadcast p data =>
    obtain ⟨entries', ring⟩ := marching.ring.step (by decide) legal
    exact ⟨entries', ring, marching.convoy.broadcast p data,
      marching.sequenced.broadcast marching.ring.custody p data⟩
  | start p => exact absurd (started p legal.1) legal.2.2
  | hop i => exact marching.hop legal fifo inTurn

/-- The issuers of a list start one after the other. -/
theorem launch (issuers : List (Fin cfg.ringSize)) : ∀ {st : RingState cfg}
    {entries : Fin cfg.ringSize → List Entry}, Marching st entries → issuers.Nodup →
    (∀ p ∈ issuers, p.val < cfg.numTrains ∧ p.val ∉ st.started) →
    (∀ p, (st.world.node p).pending = []) →
    (∃ entries', Marching (issuers.foldl RingState.start st) entries') ∧
      ∀ q, q ∈ st.started ∨ (∃ p ∈ issuers, p.val = q) →
        q ∈ (issuers.foldl RingState.start st).started := by
  induction issuers with
  | nil =>
    intro st entries marching _ _ _
    exact ⟨⟨entries, marching⟩, fun q started => started.resolve_right
      fun ⟨_, member, _⟩ => absurd member List.not_mem_nil⟩
  | cons p rest ih =>
    intro st entries marching distinct waiting idle
    obtain ⟨first, distinct⟩ := List.nodup_cons.mp distinct
    obtain ⟨issues, notYet⟩ := waiting p List.mem_cons_self
    obtain ⟨entries', marching'⟩ := marching.start issues notYet (idle p)
    have waiting' : ∀ q ∈ rest, q.val < cfg.numTrains ∧ q.val ∉ (st.start p).started := by
      intro q member
      obtain ⟨issues', notYet'⟩ := waiting q (List.mem_cons_of_mem _ member)
      refine ⟨issues', fun started => ?_⟩
      rcases Finset.mem_insert.mp started with same | old
      · exact first (Fin.ext same ▸ member)
      · exact notYet' old
    have idle' : ∀ q, ((st.start p).world.node q).pending = [] := by
      intro q
      by_cases same : q = p
      · rw [same]
        show ((st.world.act p _).node p).pending = []
        rw [World.act_node_self]
        rfl
      · show ((st.world.act p _).node q).pending = []
        rw [st.world.act_node_of_ne p _ same]
        exact idle q
    obtain ⟨holds, started⟩ := ih marching' distinct waiting' idle'
    refine ⟨holds, fun q isStarted => started q ?_⟩
    rcases isStarted with old | ⟨x, member, rfl⟩
    · exact Or.inl (Finset.mem_insert_of_mem old)
    · rcases List.mem_cons.mp member with rfl | member
      · exact Or.inl (Finset.mem_insert_self _ _)
      · exact Or.inr ⟨x, member, rfl⟩

theorem launched (cfg : RingConfig) : (∃ entries, Marching (RingState.launched cfg) entries) ∧
    ∀ q, q < cfg.numTrains → q ∈ (RingState.launched cfg).started := by
  have initial : Marching (RingState.initial cfg .uniformTotalOrder) fun _ => [] :=
    ⟨RingInvariant.initial _, Convoy.initial _, Sequenced.initial _⟩
  obtain ⟨holds, started⟩ := launch _ initial ((List.nodup_finRange cfg.ringSize).filter _)
    (fun p member => ⟨of_decide_eq_true (List.mem_filter.mp member).2, Finset.notMem_empty _⟩)
    fun p => rfl
  refine ⟨holds, fun q issues => started q (Or.inr ⟨⟨q, issues.trans_le cfg.trains_le⟩, ?_, rfl⟩)⟩
  exact List.mem_filter.mpr ⟨List.mem_finRange _, decide_eq_true issues⟩

end Marching

theorem marching_reachable (reachable : ((fifoRing cfg).restrict InTurn).Reachable st) :
    ∃ entries, Marching st entries := by
  have both := Machine.invariant (m := (fifoRing cfg).restrict InTurn)
    (P := fun st => (∃ entries, Marching st entries) ∧ ∀ q, q < cfg.numTrains → q ∈ st.started)
    ?_ ?_ reachable
  · exact both.1
  · rintro _ rfl
    exact Marching.launched cfg
  · rintro st action ⟨⟨entries, marching⟩, started⟩ ⟨⟨legal, fifo⟩, inTurn⟩
    refine ⟨marching.step started legal fifo inTurn, fun q issues => ?_⟩
    cases action with
    | broadcast p data => exact started q issues
    | start p => exact Finset.mem_insert_of_mem (started q issues)
    | hop i =>
      show q ∈ (st.hop i).started
      unfold RingState.hop
      split <;> exact started q issues

/-! ### The order of the logs -/

/-- No node delivers two payloads of one sender against the order in which it accepted them. -/
structure SenderOrder (w : World cfg) : Prop where
  numbers : ∀ p, (w.log p).Pairwise fun a b => a.sender = b.sender → a.seq < b.seq
  broadcasts : ∀ s p a b, [a, b].Sublist (w.accepted s) → ¬ [b, a].Sublist (w.log p)

/-- **Each node delivers the payloads of one sender in order.** Under one key they are sorted, and
under two keys the smaller key has the smaller numbers. -/
theorem sender_order (reachable : ((fifoRing cfg).restrict InTurn).Reachable st) :
    SenderOrder st.world := by
  obtain ⟨entries, marching⟩ := marching_reachable reachable
  have custody := marching.ring.custody
  have sequenced := marching.sequenced
  have numbers : ∀ p, (st.world.log p).Pairwise fun a b => a.sender = b.sender → a.seq < b.seq := by
    intro p
    have replica := marching.ring.coherent.replica p (View.alive_initial _ p)
    have shape : st.world.log p = (entries p).flatMap Entry.content :=
      marching.ring.coherent.logs p (View.alive_initial _ p)
    have apart : ∀ t ∈ st.world.emitted, ∀ t' ∈ st.world.emitted, ∀ m ∈ t.payloads,
        ∀ m' ∈ t'.payloads, m.sender = m'.sender → m.seq = m'.seq → m = m' := by
      intro t member t' member' m inside m' inside' sender same
      obtain ⟨q, accepted⟩ := custody.carried t member m inside
      obtain ⟨q', accepted'⟩ := custody.carried t' member' m' inside'
      exact custody.eq_of_msgId accepted accepted' (Prod.ext sender same)
    rw [shape, List.pairwise_flatMap]
    refine ⟨fun entry member => ?_, replica.segment.sorted.imp_of_mem fun {a b} left right below => ?_⟩
    · obtain ⟨t, emitted, -, rfl⟩ := replica.cargo entry member
      have distinct : (sortPayloads t.payloads).Nodup :=
        nodup_sortPayloads.mpr (custody.once t emitted)
      refine ((sorted_sortPayloads t.payloads).and distinct).imp_of_mem
        fun {m m'} inside inside' ordered sender => ?_
      have le : m.seq ≤ m'.seq := by
        rcases ordered.1 with less | same
        · exact absurd sender less.ne
        · exact same.2
      exact lt_of_le_of_ne le fun same => ordered.2 (apart t emitted t emitted m
        (mem_sortPayloads.mp inside) m' (mem_sortPayloads.mp inside') sender same)
    · intro m inside m' inside' sender
      obtain ⟨t, emitted, -, rfl⟩ := replica.cargo a left
      obtain ⟨t', emitted', -, rfl⟩ := replica.cargo b right
      have onT := mem_sortPayloads.mp inside
      have onT' := mem_sortPayloads.mp inside'
      rcases lt_trichotomy m.seq m'.seq with less | same | more
      · exact less
      · have equal := apart t emitted t' emitted' m onT m' onT' sender same
        exact absurd (custody.oneKey t emitted t' emitted' m onT (equal ▸ onT')) below.ne
      · exact absurd below (not_lt.mpr
          (sequenced.ordered t' emitted' t emitted m' onT' m onT sender.symm more))
  refine ⟨numbers, fun s p a b accepted delivered => ?_⟩
  have less : a.seq < b.seq := by
    simpa using (sequenced.sorted s).sublist accepted
  have sender : b.sender = a.sender := by
    have own := fun m member => (custody.own s m (accepted.subset member)).1
    rw [own a List.mem_cons_self, own b (List.mem_cons_of_mem _ List.mem_cons_self)]
  have reversed : b.sender = a.sender → b.seq < a.seq := by
    simpa using (numbers p).sublist delivered
  exact less.asymm (reversed sender)

/-- Process 2 loads one payload on the train of issuer 1, then another on the train of issuer 0. -/
def overtakenRun : List (RingAction .triple) :=
  [.broadcast 2 [1], .hop 1, .broadcast 2 [2], .hop 0, .hop 1, .hop 0,
    .hop 0, .hop 0, .hop 0]

def overtakenState : RingState .triple := (fifoRing .triple).run (.launched .triple) overtakenRun

/-- Process 1 has delivered the second payload first. -/
theorem sender_order_fails :
    ¬ ∀ (cfg : RingConfig) (st : RingState cfg), (fifoRing cfg).Reachable st →
      SenderOrder st.world := by
  intro holds
  have reachable : (fifoRing .triple).Reachable overtakenState :=
    Machine.reachable_run rfl (by decide +kernel)
  have log : overtakenState.world.log 1 = [⟨2, 1, [2]⟩, ⟨2, 0, [1]⟩] := by
    decide +kernel
  have numbers := (holds .triple overtakenState reachable).numbers 1
  rw [log] at numbers
  simp at numbers

/-- The trains hop in turn; process 2 loads one payload on each of two trains of issuer 1. -/
def inTurnRun : List (RingAction .triple) :=
  .broadcast 2 [1] :: List.replicate 10 (.hop 0) ++
    .broadcast 2 [2] :: List.replicate 10 (.hop 0)

def inTurnState : RingState .triple :=
  ((fifoRing .triple).restrict InTurn).run (.launched .triple) inTurnRun

theorem sender_order_triple :
    inTurnState.world.log 1 = [⟨2, 0, [1]⟩, ⟨2, 1, [2]⟩] ∧
      SenderOrder inTurnState.world := by
  have reachable : ((fifoRing .triple).restrict InTurn).Reachable inTurnState :=
    Machine.reachable_run rfl (by decide +kernel)
  exact ⟨by decide +kernel, sender_order reachable⟩

end TrainsRing
