/-
**The broadcasts of a restored node.**

`import_state` takes over the donor's `broadcast_seen` but keeps the node's own `next_seq`. A broadcast
under an identifier the donor has seen is refused, and the refusal leaves `next_seq` where it was.

* `TrainsNode.Accepts` — the next broadcast gets in.
* `mem_broadcastSeen_handleTrain` — what a received train adds to `broadcast_seen`.
* `restored_swallows` — a run after which a restored node's broadcast is swallowed.
* `restored_accepts_iff` — **exactly when every broadcast of a restored node gets in.**
-/

import TrainsRing.Interface.Calls
import TrainsRing.Reconfig.Network

namespace TrainsRing

variable {cfg : RingConfig}

/-! ### What a node has seen -/

/-- The number of broadcasts among some inputs. -/
def broadcasts (inputs : List Input) : Nat :=
  inputs.countP fun
    | .localBroadcast _ => true
    | _ => false

/-- Some of the payloads have the identifier. -/
def Mentions (payloads : List Payload) (id : Nat × Nat) : Prop :=
  ∃ payload ∈ payloads, payload.msgId = id

theorem mentions_cons (head : Payload) (rest : List Payload) (id : Nat × Nat) :
    Mentions (head :: rest) id ↔ id = head.msgId ∨ Mentions rest id := by
  rw [Mentions, Mentions, List.exists_mem_cons_iff, eq_comm]

theorem mentions_append (first second : List Payload) (id : Nat × Nat) :
    Mentions (first ++ second) id ↔ Mentions first id ∨ Mentions second id := by
  simp only [Mentions, List.mem_append, or_and_right, exists_or]

namespace TrainsNode

theorem mem_broadcastSeen_noteSeen (node : TrainsNode cfg) (payloads : List Payload)
    (id : Nat × Nat) : id ∈ (node.noteSeen payloads).broadcastSeen ↔
      id ∈ node.broadcastSeen ∨ Mentions payloads id := by
  have general : ∀ (payloads : List Payload) (known : Finset (Nat × Nat)),
      id ∈ payloads.foldl (fun known payload => insert payload.msgId known) known ↔
        id ∈ known ∨ Mentions payloads id := by
    intro payloads
    induction payloads with
    | nil => exact fun known => by simp [Mentions]
    | cons head rest ih =>
      intro known
      rw [List.foldl_cons, ih, Finset.mem_insert, mentions_cons]
      tauto
  exact general payloads node.broadcastSeen

/-- The node takes in the payloads of the train: it is another issuer's, above the view floor. -/
def Reads (node : TrainsNode cfg) (train : Train) : Prop :=
  ¬ node.Stale train ∧ train.issuer ≠ node.id

instance (node : TrainsNode cfg) (train : Train) : Decidable (node.Reads train) := by
  unfold Reads
  infer_instance

/-- The pending payloads have been seen. -/
def Aware (node : TrainsNode cfg) : Prop :=
  ∀ id, Mentions node.pending id → id ∈ node.broadcastSeen

/-- **What a received train adds to `broadcast_seen`**: the payloads of one the node reads. -/
theorem Handled.mem_broadcastSeen {node after : TrainsNode cfg} {train : Train}
    {delivered : List Entry} {forwarded : List Train}
    (handled : Handled node train delivered forwarded after) (aware : node.Aware)
    (id : Nat × Nat) : id ∈ after.broadcastSeen ↔
      id ∈ node.broadcastSeen ∨ node.Reads train ∧ Mentions train.payloads id := by
  have pending := aware id
  cases handled with
  | absorbed stale => exact (or_iff_left fun reads => reads.1.1 stale).symm
  | visited fresh foreign new run settled =>
    have loaded : (node.loadTrain train).payloads = train.payloads ++ node.pending := rfl
    rw [run.frame.broadcastSeen, and_iff_right (show node.Reads train from ⟨fresh, foreign⟩)]
    show id ∈ ((node.noteSeen node.pending).noteSeen (node.loadTrain train).payloads).broadcastSeen
      ↔ _
    rw [mem_broadcastSeen_noteSeen, mem_broadcastSeen_noteSeen, loaded, mentions_append]
    tauto
  | replayed fresh foreign old tried run settled =>
    rw [run.frame.broadcastSeen, tried.frame.broadcastSeen, mem_broadcastSeen_noteSeen,
      and_iff_right (show node.Reads train from ⟨fresh, foreign⟩)]
  | recycled fresh own done =>
    show id ∈ ((node.observe node.id train.clock).noteSeen node.pending).broadcastSeen ↔ _
    rw [mem_broadcastSeen_noteSeen, or_iff_left fun reads : _ ∧ _ => reads.1.2 own]
    exact or_iff_left_of_imp pending
  | returned fresh own undone tried run settled =>
    rw [run.frame.broadcastSeen, tried.frame.broadcastSeen]
    exact (or_iff_left fun reads => reads.1.2 own).symm

/-- A received train leaves the identity and the floor alone, and the pending payloads or takes them. -/
theorem Handled.keeps {node after : TrainsNode cfg} {train : Train}
    {delivered : List Entry} {forwarded : List Train}
    (handled : Handled node train delivered forwarded after) :
    after.id = node.id ∧ after.nextSeq = node.nextSeq ∧ after.viewFloor = node.viewFloor ∧
      (after.pending = node.pending ∨ after.pending = []) := by
  cases handled with
  | absorbed stale => exact ⟨rfl, rfl, rfl, Or.inl rfl⟩
  | visited fresh foreign new run settled =>
    exact ⟨run.frame.id, run.frame.nextSeq, run.frame.viewFloor, Or.inr run.frame.pending⟩
  | replayed fresh foreign old tried run settled =>
    have frame := tried.frame.trans run.frame
    exact ⟨frame.id, frame.nextSeq, frame.viewFloor, Or.inl frame.pending⟩
  | recycled fresh own done => exact ⟨rfl, rfl, rfl, Or.inr rfl⟩
  | returned fresh own undone tried run settled =>
    have frame := tried.frame.trans run.frame
    exact ⟨frame.id, frame.nextSeq, frame.viewFloor, Or.inl frame.pending⟩

/-! ### Broadcasts after some inputs -/

/-- The node after some inputs. -/
def steps (node : TrainsNode cfg) (inputs : List Input) : TrainsNode cfg :=
  inputs.foldl (fun node input => (node.step input).1) node

/-- A broadcast appends one payload of this node with the data, under an identifier not seen. -/
def Accepts (node : TrainsNode cfg) (data : List UInt8) : Prop :=
  ∃ seq, (node.id, seq) ∉ node.broadcastSeen ∧
    (node.step (.localBroadcast data)).1.pending = node.pending ++ [⟨node.id, seq, data⟩]

theorem accepts_iff (node : TrainsNode cfg) (data : List UInt8) :
    node.Accepts data ↔ (node.id, node.nextSeq) ∉ node.broadcastSeen := by
  refine ⟨fun ⟨seq, unseen, appended⟩ seen => ?_, fun unseen => ⟨node.nextSeq, unseen, ?_⟩⟩
  · have refused : (node.step (.localBroadcast data)).1 = node :=
      congrArg Prod.fst (if_pos seen : node.handleBroadcast data = (node, []))
    rw [refused] at appended
    exact absurd (congrArg List.length appended) (by simp)
  · show (node.handleBroadcast data).1.pending = _
    rw [handleBroadcast, if_neg unseen]

/-- Every broadcast among the inputs gets in when its turn comes. -/
def AllAccepted (node : TrainsNode cfg) (inputs : List Input) : Prop :=
  ∀ front data back, inputs = front ++ .localBroadcast data :: back →
    (node.steps front).Accepts data

/-- The identifier that a broadcast after some inputs needs: a sequence number, neither seen at the
start nor brought in by a train that the node reads. -/
def Free (node : TrainsNode cfg) (front : List Input) : Prop :=
  (0 < broadcasts front → node.nextSeq + broadcasts front ≤ u64Max) ∧
  (node.id, node.nextSeq + broadcasts front) ∉ node.broadcastSeen ∧
  ∀ train, .trainReceived train ∈ front → node.Reads train →
    ¬ Mentions train.payloads (node.id, node.nextSeq + broadcasts front)

/-- What holds of all broadcasts among the inputs: the first input, then the rest. -/
theorem forall_broadcasts_cons {P : List Input → List UInt8 → Prop} {input : Input}
    {rest : List Input} :
    (∀ front data back, input :: rest = front ++ .localBroadcast data :: back → P front data) ↔
      (∀ data, input = .localBroadcast data → P [] data) ∧
      ∀ front data back, rest = front ++ .localBroadcast data :: back → P (input :: front) data := by
  refine ⟨fun all => ⟨fun data first => ?_, fun front data back split => ?_⟩, fun both => ?_⟩
  · exact all [] data rest (by rw [first]; rfl)
  · exact all (input :: front) data back (by rw [split]; rfl)
  · intro front data back split
    cases front with
    | nil => exact both.1 data (List.cons.inj split).1
    | cons head front =>
      obtain ⟨rfl, tail⟩ := List.cons.inj split
      exact both.2 front data back tail

theorem Aware.handleTrain {node : TrainsNode cfg} (aware : node.Aware) (train : Train) :
    (node.handleTrain train).1.Aware := by
  obtain ⟨delivered, forwarded, handled, -⟩ := node.handleTrain_spec train
  obtain ⟨-, -, -, same | none⟩ := handled.keeps
  · intro id pending
    rw [same] at pending
    exact (handled.mem_broadcastSeen aware id).mpr (Or.inl (aware id pending))
  · intro id pending
    rw [none] at pending
    exact absurd pending (by simp [Mentions])

/-- A train claims the identifiers it brings in. -/
theorem free_receive {node : TrainsNode cfg} (aware : node.Aware) (train : Train)
    (front : List Input) :
    node.Free (.trainReceived train :: front) ↔ (node.handleTrain train).1.Free front := by
  obtain ⟨delivered, forwarded, handled, -⟩ := node.handleTrain_spec train
  obtain ⟨id, nextSeq, viewFloor, -⟩ := handled.keeps
  have reads : ∀ other, (node.handleTrain train).1.Reads other ↔ node.Reads other := by
    intro other
    unfold Reads Stale
    rw [id, viewFloor]
  have count : broadcasts (.trainReceived train :: front) = broadcasts front := rfl
  simp only [Free, id, nextSeq, reads, handled.mem_broadcastSeen aware, count, not_or, not_and,
    List.mem_cons, Input.trainReceived.injEq]
  refine and_congr_right fun _ => ⟨fun ⟨unseen, unread⟩ => ?_, fun ⟨⟨unseen, now⟩, later⟩ => ?_⟩
  · exact ⟨⟨unseen, unread train (Or.inl rfl)⟩, fun other inside => unread other (Or.inr inside)⟩
  · refine ⟨unseen, fun other either => ?_⟩
    rcases either with rfl | inside
    · exact now
    · exact later other inside

/-- A broadcast that gets in moves on to the next sequence number. -/
theorem free_broadcast {node : TrainsNode cfg} (data : List UInt8)
    (unseen : (node.id, node.nextSeq) ∉ node.broadcastSeen) (front : List Input) :
    node.Free (.localBroadcast data :: front) ↔ (node.handleBroadcast data).1.Free front := by
  have count : broadcasts (.localBroadcast data :: front) = broadcasts front + 1 :=
    List.countP_cons_of_pos rfl
  have trains : ∀ train, Input.trainReceived train ∈ Input.localBroadcast data :: front ↔
      Input.trainReceived train ∈ front := fun train => by simp
  by_cases room : node.nextSeq < u64Max
  · have shift : node.nextSeq + 1 + broadcasts front = node.nextSeq + (broadcasts front + 1) := by
      omega
    have other : node.nextSeq + (broadcasts front + 1) ≠ node.nextSeq := by omega
    have after : (node.handleBroadcast data).1.Free front ↔
        (0 < broadcasts front → node.nextSeq + (broadcasts front + 1) ≤ u64Max) ∧
        (node.id, node.nextSeq + (broadcasts front + 1)) ∉
          insert (node.id, node.nextSeq) node.broadcastSeen ∧
        ∀ train, .trainReceived train ∈ front → node.Reads train →
          ¬ Mentions train.payloads (node.id, node.nextSeq + (broadcasts front + 1)) := by
      rw [handleBroadcast, if_neg unseen, ← shift, ← satSucc_of_lt room]
      rfl
    rw [after, Free, count, Finset.mem_insert, Prod.mk.injEq]
    simp only [trains, other, and_false, false_or]
    refine and_congr_left fun _ => ⟨fun fits _ => fits (Nat.succ_pos _), fun fits _ => ?_⟩
    rcases Nat.eq_zero_or_pos (broadcasts front) with none | some
    · omega
    · exact fits some
  · -- a saturated sequence number stays, and the broadcast has just used it
    have same : satSucc node.nextSeq = node.nextSeq := if_neg room
    refine ⟨fun free => ?_, fun free => ?_⟩
    · have fits := free.1 (by rw [count]; exact Nat.succ_pos _)
      rw [count] at fits
      omega
    · have next : (node.handleBroadcast data).1.nextSeq = node.nextSeq := by
        rw [handleBroadcast, if_neg unseen]
        exact same
      have used : (node.id, node.nextSeq) ∈ (node.handleBroadcast data).1.broadcastSeen := by
        rw [handleBroadcast, if_neg unseen]
        exact Finset.mem_insert_self _ _
      have identity : (node.handleBroadcast data).1.id = node.id := by
        rw [handleBroadcast, if_neg unseen]
      obtain ⟨fits, unused, -⟩ := free
      rw [next] at fits unused
      rw [identity] at unused
      rcases Nat.eq_zero_or_pos (broadcasts front) with none | some
      · rw [none] at unused
        exact absurd used unused
      · have fits := fits some
        omega

theorem Aware.step {node : TrainsNode cfg} (aware : node.Aware) (input : Input) :
    (node.step input).1.Aware := by
  cases input with
  | trainReceived train => exact aware.handleTrain train
  | tick => exact aware
  | localBroadcast data =>
    show (node.handleBroadcast data).1.Aware
    unfold handleBroadcast
    split_ifs with seen
    · exact aware
    · intro id pending
      rcases (mentions_append _ _ _).mp pending with old | new
      · exact Finset.mem_insert_of_mem (aware id old)
      · obtain ⟨payload, member, rfl⟩ := new
        rw [List.mem_singleton.mp member]
        exact Finset.mem_insert_self _ _

/-- **Every broadcast gets in iff the identifier of each is free.** -/
theorem allAccepted_iff (inputs : List Input) : ∀ {node : TrainsNode cfg}, node.Aware →
    (node.AllAccepted inputs ↔
      ∀ front data back, inputs = front ++ .localBroadcast data :: back → node.Free front) := by
  induction inputs with
  | nil =>
    intro node _
    have none : ∀ (front : List Input) data back, [] ≠ front ++ Input.localBroadcast data :: back :=
      fun front data back => by simp
    exact ⟨fun _ front data back split => absurd split (none front data back),
      fun _ front data back split => absurd split (none front data back)⟩
  | cons input rest ih =>
    intro node aware
    have later := ih (aware.step input)
    unfold AllAccepted at later ⊢
    rw [forall_broadcasts_cons, forall_broadcasts_cons]
    show (_ ∧ ∀ front data back, _ → ((node.step input).1.steps front).Accepts data) ↔ _
    rw [later]
    cases input with
    | trainReceived train =>
      have shift := free_receive aware train
      refine and_congr ⟨fun _ _ first => (by cases first), fun _ _ first => (by cases first)⟩ ?_
      exact forall₄_congr fun front data back split => (shift front).symm
    | tick =>
      refine and_congr ⟨fun _ _ first => (by cases first), fun _ _ first => (by cases first)⟩ ?_
      have skip : ∀ front, node.Free (.tick :: front) ↔ node.Free front := fun front => by
        simp [Free, broadcasts]
      exact forall₄_congr fun front data back split => (skip front).symm
    | localBroadcast data =>
      have start : node.Free [] ↔ (node.id, node.nextSeq) ∉ node.broadcastSeen := by
        simp [Free, broadcasts]
      refine ⟨fun ⟨first, others⟩ => ?_, fun ⟨first, others⟩ => ?_⟩
      · have unseen := (accepts_iff node data).mp (first data rfl)
        refine ⟨fun _ _ => start.mpr unseen, fun front other back split => ?_⟩
        exact (free_broadcast data unseen front).mpr (others front other back split)
      · have unseen := start.mp (first data rfl)
        refine ⟨fun other _ => (accepts_iff node other).mpr unseen, fun front other back split => ?_⟩
        exact (free_broadcast data unseen front).mp (others front other back split)

end TrainsNode

/-! ### Restored nodes -/

/-- Node 1's broadcast is on its way when node 2 exports its state. -/
def spreadRun : List (MemberAction .triple) :=
  [.ring (.broadcast 1 [7]), .ring (.start 0), .ring (.hop 0), .ring (.hop 0)]

def spreadState : RingState .triple :=
  (memberNetwork .triple false).run (.initial .triple .totalOrder) spreadRun

/-- Node 1 restarts with that state, and its first broadcast is swallowed. -/
theorem restored_swallows : ¬ ∀ (cfg : RingConfig) (st : RingState cfg) (p : Fin cfg.ringSize)
    (node : TrainsNode cfg) (inputs : List Input), (memberNetwork cfg false).Reachable st →
      (node.importState (st.world.node p).exportState).AllAccepted inputs := by
  intro holds
  have reachable : (memberNetwork .triple false).Reachable spreadState :=
    Machine.reachable_run rfl (by decide +kernel)
  have accepted := holds .triple spreadState 2
    (TrainsNode.new .triple 1 (by decide) .totalOrder) [.localBroadcast [8]] reachable
    [] [8] [] rfl
  exact absurd ((TrainsNode.accepts_iff _ _).mp accepted) (by decide +kernel)

/-- **A restored node's broadcasts get in exactly when their sequence numbers are free**: the `n`-th one
needs `next_seq + n`, which the donor must not have seen and no train read in between may bring in. -/
theorem restored_accepts_iff (source node : TrainsNode cfg) (inputs : List Input) :
    (node.importState source.exportState).AllAccepted inputs ↔
      ∀ front data back, inputs = front ++ .localBroadcast data :: back →
        (0 < broadcasts front → node.nextSeq + broadcasts front ≤ u64Max) ∧
        (node.id, node.nextSeq + broadcasts front) ∉ source.broadcastSeen ∧
        ∀ train, .trainReceived train ∈ front → ¬ source.Stale train → train.issuer ≠ node.id →
          ¬ Mentions train.payloads (node.id, node.nextSeq + broadcasts front) := by
  have fresh : (node.importState source.exportState).Aware := by
    rintro id ⟨payload, member, -⟩
    exact absurd member List.not_mem_nil
  refine (TrainsNode.allAccepted_iff inputs fresh).trans ?_
  refine forall₄_congr fun front data back split => and_congr_right fun _ => and_congr_right fun _ => ?_
  exact forall₂_congr fun train received => and_imp

end TrainsRing
