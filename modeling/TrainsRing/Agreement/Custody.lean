/-
**Where a payload can be.**

`Custody w` follows the payloads: what is pending or on a train was accepted from its sender, a
pending payload is on no train, and a payload travels under one key. It mentions neither views nor
delivery, so every network and every membership change keeps it for the same reason: a step leaves
the pending payloads where they are or moves all of them onto one train.

* `Custody.emit` — **that reason**, for any step of one node.
* `Custody.receive`, `Custody.issueInitial`, `Custody.broadcast` — the three operations.
* `Custody.eq_of_msgId` — payloads on trains are told apart by their identifiers.
-/

import TrainsRing.Agreement.World

namespace TrainsRing

variable {cfg : RingConfig} {w w' : World cfg} {p : Fin cfg.ringSize}

/-- Where a payload can be. -/
structure Custody (w : World cfg) : Prop where
  ids : ∀ p, (w.node p).id = p.val
  own : ∀ p, ∀ m ∈ w.accepted p, m.sender = p.val ∧ m.msgId ∈ (w.node p).broadcastSeen
  distinct : ∀ p, ((w.accepted p).map Payload.msgId).Nodup
  queued : ∀ p, ∀ m ∈ (w.node p).pending, m ∈ w.accepted p
  queuedOnce : ∀ p, (w.node p).pending.Nodup
  carried : ∀ t ∈ w.emitted, ∀ m ∈ t.payloads, ∃ p, m ∈ w.accepted p
  apart : ∀ p, ∀ m ∈ (w.node p).pending, ∀ t ∈ w.emitted, m ∉ t.payloads
  once : ∀ t ∈ w.emitted, t.payloads.Nodup
  oneKey : ∀ t ∈ w.emitted, ∀ t' ∈ w.emitted, ∀ m ∈ t.payloads, m ∈ t'.payloads → t.key = t'.key

/-- The train a step emits: the cargo of a train of the same key, if any, and everything that was
pending. -/
def Shipped (emitted : List Train) (pending : List Payload) (train : Train) : Prop :=
  ∃ cargo, train.payloads = cargo ++ pending ∧
    (cargo = [] ∨ ∃ old ∈ emitted, old.key = train.key ∧ old.payloads = cargo)

namespace Custody

theorem initial (mode : DeliveryMode) : Custody (World.initial cfg mode) where
  ids := fun _ => rfl
  own := fun _ _ member => absurd member List.not_mem_nil
  distinct := fun _ => List.nodup_nil
  queued := fun _ _ member => absurd member List.not_mem_nil
  queuedOnce := fun _ => List.nodup_nil
  carried := fun _ member => absurd member List.not_mem_nil
  apart := fun _ _ member => absurd member List.not_mem_nil
  once := fun _ member => absurd member List.not_mem_nil
  oneKey := fun _ member => absurd member List.not_mem_nil

/-- Accepted payloads are told apart by their identifiers. -/
theorem eq_of_msgId (custody : Custody w) {q : Fin cfg.ringSize} {m m' : Payload}
    (left : m ∈ w.accepted p) (right : m' ∈ w.accepted q) (same : m.msgId = m'.msgId) : m = m' := by
  have sender : p.val = q.val := by
    rw [← (custody.own p m left).1, ← (custody.own q m' right).1]
    exact congrArg Prod.fst same
  obtain rfl : p = q := Fin.ext sender
  exact List.inj_on_of_nodup_map (custody.distinct p) left right same

theorem accepted_unique (custody : Custody w) {q : Fin cfg.ringSize} {m : Payload}
    (left : m ∈ w.accepted p) (right : m ∈ w.accepted q) : p = q :=
  Fin.ext ((custody.own p m left).1.symm.trans (custody.own q m right).1)

section Emit

variable (custody : Custody w) (others : ∀ q, q ≠ p → w'.node q = w.node q)
  (accepted : w'.accepted = w.accepted) (id : (w'.node p).id = (w.node p).id)
  (noted : ∀ id ∈ (w.node p).broadcastSeen, id ∈ (w'.node p).broadcastSeen)

include custody others accepted id noted

/-- What a step of node `p` keeps in any case: the identities, and what the accepted payloads are. -/
theorem owners : (∀ q, (w'.node q).id = q.val) ∧
    (∀ q, ∀ m ∈ w'.accepted q, m.sender = q.val ∧ m.msgId ∈ (w'.node q).broadcastSeen) ∧
    ∀ q, ((w'.accepted q).map Payload.msgId).Nodup := by
  have notes : ∀ q, ∀ id ∈ (w.node q).broadcastSeen, id ∈ (w'.node q).broadcastSeen := by
    intro q
    by_cases same : q = p
    · exact same ▸ noted
    · exact fun id member => (others q same) ▸ member
  refine ⟨fun q => ?_, fun q m member => ?_, accepted ▸ custody.distinct⟩
  · by_cases same : q = p
    · rw [same, id, custody.ids]
    · rw [others q same, custody.ids]
  · rw [accepted] at member
    exact ⟨(custody.own q m member).1, notes q _ (custody.own q m member).2⟩

/-- A step that leaves the pending payloads where they are, and emits nothing new. -/
theorem still (queue : (w'.node p).pending = (w.node p).pending)
    (nothing : ∀ t ∈ w'.emitted, t ∈ w.emitted) : Custody w' := by
  obtain ⟨ids, own, distinct⟩ := custody.owners others accepted id noted
  have pending : ∀ q, (w'.node q).pending = (w.node q).pending := by
    intro q
    by_cases same : q = p
    · rw [same, queue]
    · rw [others q same]
  exact {
    ids, own, distinct
    queued := fun q m member => by
      rw [pending] at member
      rw [accepted]
      exact custody.queued q m member
    queuedOnce := fun q => pending q ▸ custody.queuedOnce q
    carried := fun t member => accepted ▸ custody.carried t (nothing t member)
    apart := fun q m member t emitted => by
      rw [pending] at member
      exact custody.apart q m member t (nothing t emitted)
    once := fun t member => custody.once t (nothing t member)
    oneKey := fun t member t' member' =>
      custody.oneKey t (nothing t member) t' (nothing t' member') }

/-- A step that moves all pending payloads onto the one train it emits. -/
theorem ship (queue : (w'.node p).pending = []) {train : Train}
    (out : w'.emitted = w.emitted ++ [train])
    (shipped : Shipped w.emitted (w.node p).pending train) : Custody w' := by
  obtain ⟨ids, own, distinct⟩ := custody.owners others accepted id noted
  obtain ⟨cargo, load, origin⟩ := shipped
  have cases : ∀ t, t ∈ w'.emitted → t ∈ w.emitted ∨ t = train := by
    intro t member
    rw [out] at member
    exact (List.mem_append.mp member).imp_right List.mem_singleton.mp
  -- a payload on the new train was on an old train of its key, or pending at `p`
  have loaded : ∀ m ∈ train.payloads,
      (∃ old ∈ w.emitted, old.key = train.key ∧ m ∈ old.payloads) ∨
        m ∈ (w.node p).pending := by
    intro m member
    rw [load] at member
    rcases List.mem_append.mp member with onBoard | waiting
    · rcases origin with rfl | ⟨old, inside, same, rfl⟩
      · cases onBoard
      · exact Or.inl ⟨old, inside, same, onBoard⟩
    · exact Or.inr waiting
  have pending : ∀ q, ∀ m ∈ (w'.node q).pending, q ≠ p ∧ m ∈ (w.node q).pending := by
    intro q m member
    by_cases same : q = p
    · rw [same, queue] at member
      cases member
    · rw [others q same] at member
      exact ⟨same, member⟩
  have apart : ∀ m ∈ (w.node p).pending, ∀ t ∈ w.emitted, m ∉ t.payloads := custody.apart p
  exact {
    ids, own, distinct
    queued := fun q m member => accepted ▸ custody.queued q m (pending q m member).2
    queuedOnce := fun q => by
      by_cases same : q = p
      · rw [same, queue]
        exact List.nodup_nil
      · rw [others q same]
        exact custody.queuedOnce q
    carried := fun t member m inside => by
      rw [accepted]
      rcases cases t member with old | rfl
      · exact custody.carried t old m inside
      · rcases loaded m inside with ⟨old, isOld, -, onBoard⟩ | waiting
        · exact custody.carried old isOld m onBoard
        · exact ⟨p, custody.queued p m waiting⟩
    apart := fun q m member t emitted inside => by
      obtain ⟨other, waiting⟩ := pending q m member
      rcases cases t emitted with old | rfl
      · exact custody.apart q m waiting t old inside
      · rcases loaded m inside with ⟨old, isOld, -, onBoard⟩ | waiting'
        · exact custody.apart q m waiting old isOld onBoard
        · exact other (custody.accepted_unique (custody.queued q m waiting)
            (custody.queued p m waiting'))
    once := fun t member => by
      rcases cases t member with old | rfl
      · exact custody.once t old
      · rw [load]
        rcases origin with rfl | ⟨old, isOld, -, rfl⟩
        · exact custody.queuedOnce p
        · exact List.nodup_append'.mpr ⟨custody.once old isOld, custody.queuedOnce p,
            fun m onBoard waiting => apart m waiting old isOld onBoard⟩
    oneKey := fun t member t' member' m inside inside' => by
      rcases cases t member with old | rfl
      · rcases cases t' member' with old' | rfl
        · exact custody.oneKey t old t' old' m inside inside'
        · rcases loaded m inside' with ⟨origin', isOld, same, onBoard⟩ | waiting
          · exact (custody.oneKey t old origin' isOld m inside onBoard).trans same
          · exact absurd inside (apart m waiting t old)
      · rcases cases t' member' with old' | rfl
        · rcases loaded m inside with ⟨origin', isOld, same, onBoard⟩ | waiting
          · exact same.symm.trans (custody.oneKey origin' isOld t' old' m onBoard inside')
          · exact absurd inside' (apart m waiting t' old')
        · rfl }

/-- **A step of node `p`** that leaves its pending payloads where they are and emits nothing new, or
moves all of them onto the one train it emits. -/
theorem emit (shape : ((w'.node p).pending = (w.node p).pending ∧ ∀ t ∈ w'.emitted, t ∈ w.emitted) ∨
      ((w'.node p).pending = [] ∧ ∃ train, w'.emitted = w.emitted ++ [train] ∧
        Shipped w.emitted (w.node p).pending train)) : Custody w' := by
  rcases shape with ⟨queue, nothing⟩ | ⟨queue, train, out, shipped⟩
  · exact custody.still others accepted id noted queue nothing
  · exact custody.ship others accepted id noted queue out shipped

end Emit

/-! ### The operations -/

/-- A step of node `p` and what it hands over. -/
theorem act (custody : Custody w) {result : TrainsNode cfg × List Output}
    (id : result.1.id = (w.node p).id)
    (noted : ∀ id ∈ (w.node p).broadcastSeen, id ∈ result.1.broadcastSeen)
    (shape : (result.1.pending = (w.node p).pending ∧ ∀ t ∈ forwards result.2, t ∈ w.emitted) ∨
      (result.1.pending = [] ∧ ∃ train, forwards result.2 = [train] ∧
        Shipped w.emitted (w.node p).pending train)) : Custody (w.act p result) := by
  refine custody.emit (p := p) (fun q other => w.act_node_of_ne p result other) rfl ?_ ?_ ?_
  · rw [World.act_node_self, id]
  · rw [World.act_node_self]
    exact noted
  · rw [World.act_node_self]
    refine shape.imp (And.imp_right fun nothing t member => ?_) (And.imp_right ?_)
    · rcases List.mem_append.mp member with old | new
      · exact old
      · exact nothing t new
    · rintro ⟨train, out, shipped⟩
      exact ⟨train, congrArg (w.emitted ++ ·) out, shipped⟩

/-- Receiving a train that was emitted. -/
theorem receive (custody : Custody w) {train : Train} (member : train ∈ w.emitted)
    (inside : train.issuer < cfg.ringSize) : Custody (w.receive p train) := by
  obtain ⟨delivered, forwarded, handled, emits⟩ := (w.node p).handleTrain_spec train
  obtain ⟨traffic, evolves, -⟩ := handled.traffic inside
  refine custody.act evolves.id evolves.noted ?_
  show _ ∨ _ ∧ ∃ out, forwards ((w.node p).handleTrain train).2 = [out] ∧ _
  rw [show forwards ((w.node p).step (.trainReceived train)).2 = forwarded from emits.2, emits.2]
  cases traffic with
  | absorbed _ same =>
    exact Or.inl ⟨congrArg TrainsNode.pending same, fun t forward => absurd forward List.not_mem_nil⟩
  | relayed _ _ _ queue _ _ _ =>
    exact Or.inl ⟨queue, fun t forward => List.mem_singleton.mp forward ▸ member⟩
  | loaded _ _ _ queue _ _ =>
    exact Or.inr ⟨queue, _, rfl, train.payloads, rfl, Or.inr ⟨train, member, rfl, rfl⟩⟩
  | issued _ _ _ queue _ => exact Or.inr ⟨queue, _, rfl, [], rfl, Or.inl rfl⟩

theorem issueInitial (custody : Custody w) (p : Fin cfg.ringSize) : Custody (w.issueInitial p) :=
  custody.act rfl (fun _ member => (w.node p).mem_noteSeen _ member)
    (Or.inr ⟨rfl, _, rfl, [], rfl, Or.inl rfl⟩)

/-- **An accepted payload** is new: its identifier had not been seen. -/
theorem accept (custody : Custody w) (p : Fin cfg.ringSize) (data : List UInt8)
    (unseen : ((w.node p).id, (w.node p).nextSeq) ∉ (w.node p).broadcastSeen) :
    Custody (w.broadcast p data) := by
  let m : Payload := ⟨(w.node p).id, (w.node p).nextSeq, data⟩
  have nodes : ∀ q, q ≠ p → (w.broadcast p data).node q = w.node q :=
    fun q other => w.act_node_of_ne p _ other
  have shape : (w.broadcast p data).node p =
      { w.node p with
        broadcastSeen := insert m.msgId (w.node p).broadcastSeen
        pending := (w.node p).pending ++ [m]
        nextSeq := satSucc (w.node p).nextSeq } :=
    (w.act_node_self p _).trans (congrArg Prod.fst (if_neg unseen))
  have out : (w.broadcast p data).emitted = w.emitted := by
    have quiet : ((w.node p).step (.localBroadcast data)).2 = [] := congrArg Prod.snd (if_neg unseen)
    show w.emitted ++ forwards ((w.node p).step (.localBroadcast data)).2 = w.emitted
    rw [quiet]
    exact List.append_nil _
  have takes : (w.node p).acceptedBy data = [m] := if_neg unseen
  have acceptedSelf : (w.broadcast p data).accepted p = w.accepted p ++ [m] :=
    (Function.update_self ..).trans (congrArg (w.accepted p ++ ·) takes)
  have acceptedOther : ∀ q, q ≠ p → (w.broadcast p data).accepted q = w.accepted q :=
    fun q other => Function.update_of_ne other ..
  have acceptedGrows : ∀ q, ∀ x ∈ w.accepted q, x ∈ (w.broadcast p data).accepted q := by
    intro q x member
    by_cases same : q = p
    · subst same
      rw [acceptedSelf]
      exact List.mem_append_left _ member
    · rw [acceptedOther q same]
      exact member
  have sender : m.sender = p.val := custody.ids p
  have fresh : m.msgId ∉ (w.node p).broadcastSeen := unseen
  have new : ∀ q, m ∉ w.accepted q := fun q member => by
    obtain rfl : p = q := Fin.ext (sender.symm.trans (custody.own q m member).1)
    exact fresh (custody.own p m member).2
  have aboard : ∀ t ∈ w.emitted, m ∉ t.payloads := fun t member onBoard => by
    obtain ⟨q, accepted⟩ := custody.carried t member m onBoard
    exact new q accepted
  exact {
    ids := fun q => by
      by_cases same : q = p
      · subst same
        rw [shape]
        exact custody.ids q
      · rw [nodes q same, custody.ids]
    own := fun q x member => by
      by_cases same : q = p
      · subst same
        rw [acceptedSelf] at member
        rw [shape]
        rcases List.mem_append.mp member with old | isNew
        · exact ⟨(custody.own q x old).1, Finset.mem_insert_of_mem (custody.own q x old).2⟩
        · rw [List.mem_singleton.mp isNew]
          exact ⟨sender, Finset.mem_insert_self ..⟩
      · rw [acceptedOther q same] at member
        rw [nodes q same]
        exact custody.own q x member
    distinct := fun q => by
      by_cases same : q = p
      · subst same
        rw [acceptedSelf, List.map_append, List.map_singleton]
        refine List.nodup_append'.mpr ⟨custody.distinct q, List.nodup_singleton _, ?_⟩
        intro id old isNew
        obtain ⟨x, member, rfl⟩ := List.mem_map.mp old
        have same : x.msgId = m.msgId := List.mem_singleton.mp isNew
        exact fresh (same ▸ (custody.own q x member).2)
      · rw [acceptedOther q same]
        exact custody.distinct q
    queued := fun q x member => by
      by_cases same : q = p
      · subst same
        rw [shape] at member
        rw [acceptedSelf]
        exact (List.mem_append.mp member).elim
          (fun old => List.mem_append_left _ (custody.queued q x old))
          fun isNew => List.mem_append_right _ isNew
      · rw [nodes q same] at member
        exact acceptedGrows q x (custody.queued q x member)
    queuedOnce := fun q => by
      by_cases same : q = p
      · subst same
        rw [shape]
        refine List.nodup_append'.mpr ⟨custody.queuedOnce q, List.nodup_singleton _, ?_⟩
        intro x old isNew
        rw [List.mem_singleton.mp isNew] at old
        exact new q (custody.queued q m old)
      · rw [nodes q same]
        exact custody.queuedOnce q
    carried := fun t member x onBoard => by
      rw [out] at member
      obtain ⟨q, accepted⟩ := custody.carried t member x onBoard
      exact ⟨q, acceptedGrows q x accepted⟩
    apart := fun q x member t emitted => by
      rw [out] at emitted
      by_cases same : q = p
      · subst same
        rw [shape] at member
        rcases List.mem_append.mp member with old | isNew
        · exact custody.apart q x old t emitted
        · rw [List.mem_singleton.mp isNew]
          exact aboard t emitted
      · rw [nodes q same] at member
        exact custody.apart q x member t emitted
    once := out ▸ custody.once
    oneKey := out ▸ custody.oneKey }

/-- A payload with an identifier seen before is refused. -/
theorem broadcast (custody : Custody w) (p : Fin cfg.ringSize) (data : List UInt8) :
    Custody (w.broadcast p data) := by
  by_cases seen : ((w.node p).id, (w.node p).nextSeq) ∈ (w.node p).broadcastSeen
  · have refused : (w.node p).step (.localBroadcast data) = (w.node p, []) := if_pos seen
    have nothing : (w.node p).acceptedBy data = [] := if_pos seen
    have same : w.broadcast p data = w.act p (w.node p, []) := by
      unfold World.broadcast
      rw [refused, nothing, List.append_nil, Function.update_eq_self]
      rfl
    rw [same]
    exact custody.act rfl (fun _ member => member)
      (Or.inl ⟨rfl, fun t member => absurd member List.not_mem_nil⟩)
  · exact custody.accept p data seen

end Custody

end TrainsRing
