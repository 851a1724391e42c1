/-
**Trains that move.**

What one hop of a prompt ring does to its trains, and the steps of the specification that do the same to
their slots: the holder passes the slot on, and a slot that is then full and empty, or whose train is
replaced, is recycled.

* `Movement`, `hop_moves` — **the cases of a hop**: a train is passed on, relayed or replaced.
* `Pace.step` — prompt steps keep the pace.
* `placed_pass`, `placed_issue`, `hop_placed` — the slot of the train sent.
* `Ridden.sent`, `Marked.sent` — the abstraction after the train has been sent.
-/

import TrainsRing.Spec.Abstraction

namespace TrainsRing

namespace Spec

variable {cfg : RingConfig} {mode : DeliveryMode} {bounds : Bounds} {st : RingState cfg}
  {entries : Fin cfg.ringSize → List Entry}

/-! ### One hop -/

theorem full_of_ready {t : Train} (ready : (View.initial cfg mode).Ready t.ackBits) : Full cfg t :=
  fun x => ready.acked x.isLt (View.alive_initial mode x)

theorem ready_of_full (holds : RingInvariant mode st entries) (mode_ne : mode ≠ .causalOrder)
    {t : Train} (member : t ∈ st.world.emitted) (full : Full cfg t) :
    (View.initial cfg mode).Ready t.ackBits :=
  holds.complete mode_ne t member fun q _ => full q

/-- A train in flight can still be replaced. -/
theorem Pace.tracked (pace : Pace bounds st) (holds : RingInvariant mode st entries)
    {e : Fin cfg.ringSize × Train} (member : e ∈ st.inflight) :
    Tracked (View.initial cfg mode) e.2 :=
  ⟨holds.keyed e.2 (holds.tokens.flying e member), (pace.below e member).trans_lt bounds.clock_lt⟩

/-- What the receiver of a train sends, and what becomes of its queue. -/
inductive Movement (st : RingState cfg) (r : Fin cfg.ringSize) (t : Train) :
    Train → TrainsNode cfg → Prop
  | passed {after : TrainsNode cfg} (incomplete : ¬ Full cfg t) (foreign : t.issuer ≠ r.val)
      (home : Full cfg ((st.world.node r).loadTrain t) → (st.successor r).val = t.issuer)
      (queue : after.pending = []) : Movement st r t ((st.world.node r).loadTrain t) after
  | relayed {after : TrainsNode cfg} (full : Full cfg t)
      (queue : after.pending = (st.world.node r).pending) : Movement st r t t after
  | replaced {after : TrainsNode cfg} (full : Full cfg t) (recycles : st.Recycles r t)
      (stamp : (st.world.node r).nextIssueClock = t.clock + 1) (queue : after.pending = []) :
      Movement st r t (st.world.node r).issueNewTrain.2 after

/-- **One hop of a prompt ring.** -/
theorem hop_moves (holds : RingInvariant mode st entries) (pace : Pace bounds st)
    (mode_ne : mode ≠ .causalOrder) {i : Nat} {s : Fin cfg.ringSize} {t : Train}
    (legal : (RingAction.hop i).Legal st) (here : st.inflight[i]? = some (s, t)) :
    ∃ before after out delivered, st.inflight = before ++ (s, t) :: after ∧
      (st.hop i).world = st.world.receive (st.successor s) t ∧
      (st.hop i).inflight = before ++ after ++ [(st.successor s, out)] ∧
      (st.hop i).world.emitted = st.world.emitted ++ [out] ∧
      Movement st (st.successor s) t out ((st.hop i).world.node (st.successor s)) ∧
      RingInvariant mode (st.hop i) (Function.update entries (st.successor s)
        (entries (st.successor s) ++ delivered)) := by
  obtain ⟨before, after, shape, -, hop⟩ := RingState.hop_eq here
  have flying : (s, t) ∈ st.inflight := shape ▸ List.mem_append_right _ List.mem_cons_self
  have member := holds.tokens.flying _ flying
  have isKey := holds.keyed t member
  have issuer := isKey.1.inside
  have isTracked := pace.tracked holds flying
  have token := holds.tokens.tracked _ flying isTracked
  have live : ∀ q, (View.initial cfg mode).Alive q := View.alive_initial mode
  have alive : ∀ x : Fin cfg.ringSize, x.val ∉ st.dead := fun x =>
    (holds.tokens.alive x).mp (live x)
  have next : nextAlive cfg.ringSize st.dead s = (st.successor s).val := rfl
  obtain ⟨entries', after'⟩ := holds.step mode_ne legal
  have world : (st.hop i).world = st.world.receive (st.successor s) t :=
    congrArg RingState.world hop
  obtain ⟨delivered, forwarded, handled, emits⟩ :=
    (st.world.node (st.successor s)).handleTrain_spec t
  have coherent := holds.coherent.handle holds.custody.ids (live (st.successor s)) member
    (fun _ => live _) handled emits
  obtain ⟨traffic, evolves, -⟩ := handled.traffic issuer
  have node : (st.world.receive (st.successor s) t).node (st.successor s) =
      ((st.world.node (st.successor s)).handleTrain t).1 := st.world.act_node_self _ _
  have own := holds.custody.ids (st.successor s)
  have replica := holds.coherent.replica _ (live (st.successor s))
  have invariant : RingInvariant mode (st.hop i) (Function.update entries (st.successor s)
      (entries (st.successor s) ++ delivered)) :=
    ⟨after'.custody, world ▸ coherent, after'.clocks, after'.tokens, after'.inRing, after'.keyed⟩
  have inflight : (st.hop i).inflight = before ++ after ++ forwarded.map fun out =>
      (st.successor s, out) := by
    rw [hop, ← emits.2]
    rfl
  have emitted : (st.hop i).world.emitted = st.world.emitted ++ forwarded := by
    rw [world, ← emits.2]
    rfl
  rw [← node, ← world] at traffic
  refine ⟨before, after, ?_⟩
  cases traffic with
  | absorbed stale _ => exact absurd stale (replica.not_stale isKey)
  | relayed _ known undone queue _ _ _ =>
    refine ⟨t, delivered, shape, world, inflight, emitted, .relayed ?_ queue, invariant⟩
    by_cases foreign : (st.successor s).val = t.issuer
    · rcases token.lap with lap | lap
      · exact fun x => (lap.acked x (alive x)).mpr
          (arc_full issuer s.isLt x.isLt (alive x) (next.trans foreign))
      · exact full_of_ready lap.ready
    · have replay := known fun same => foreign (own.symm.trans same.symm)
      have lap := token.lap.resolve_left fun lap => by
        have unseen := lap.unseen (st.successor s) (alive _) fun near => absurd near
          (not_arc_nextAlive issuer (alive ⟨t.issuer, issuer⟩) s.isLt (next ▸ foreign))
        exact absurd replay.1 (not_le.mpr unseen)
      exact full_of_ready lap.ready
  | loaded _ foreign new queue _ _ =>
    have foreign : t.issuer ≠ (st.successor s).val := fun same => foreign (same.trans own.symm)
    have unseen := seen_lt_of_not_replay isKey new
    have lap := token.lap.resolve_right fun lap =>
      absurd (lap.seen (st.successor s) (alive _)) (not_le.mpr unseen)
    have onward : nextAlive cfg.ringSize st.dead s ≠ t.issuer := fun home =>
      foreign (home.symm.trans next)
    refine ⟨_, delivered, shape, world, inflight, emitted,
      .passed (fun full => ?_) foreign (fun full => ?_) queue, invariant⟩
    · have acked := (lap.acked (st.successor s) (alive _)).mp (full _)
      exact not_arc_nextAlive issuer (alive ⟨t.issuer, issuer⟩) s.isLt onward acked
    · -- otherwise the next process would have acked it before
      by_contra away
      have acked := full (st.successor (st.successor s))
      rw [isAckedBy_loaded holds.custody.ids, Bool.or_eq_true, decide_eq_true_eq,
        lap.acked _ (alive _)] at acked
      refine not_arc_nextAlive issuer (alive ⟨t.issuer, issuer⟩) (st.successor s).isLt away ?_
      rw [← next, arc_nextAlive issuer (alive ⟨t.issuer, issuer⟩) s.isLt
        (nextAlive_lt (nextAlive_lt s.isLt)) (alive (st.successor (st.successor s))) onward]
      exact acked.imp_right (congrArg Fin.val)
  | issued _ isOwn done queue _ =>
    have home : (st.successor s).val = t.issuer := own.symm.trans isOwn.symm
    have seen := replica.seen_of_done isKey done isKey.1
    have lap := token.lap.resolve_left fun lap =>
      absurd seen (not_le.mpr (lap.unseen _ (alive _) fun _ => home))
    have stamp : (st.world.node (st.successor s)).nextIssueClock = t.clock + 1 := token.stamp home
    exact ⟨_, delivered, shape, world, inflight, emitted,
      .replaced (full_of_ready lap.ready) ⟨home.symm, done⟩ stamp queue, invariant⟩

/-! ### Prompt runs -/

/-- The keys a node has done are those of its entries. -/
theorem mem_doneOf (holds : RingInvariant mode st entries) (p : Fin cfg.ringSize) (key : ClockKey) :
    key ∈ doneOf st.world p ↔ ∃ entry ∈ entries p, entry.1 = key := by
  refine ((holds.coherent.replica p (View.alive_initial mode p)).done key).trans
    (or_iff_right fun old => ?_)
  have bounded : key.clock ≤ (Slots.zero cfg).get key.issuer := old.2.2
  rw [Slots.get_zero] at bounded
  exact absurd old.2.1 (by omega)

/-- Full trains of one key carry the same payloads. -/
theorem payloads_eq (holds : RingInvariant mode st entries) (mode_ne : mode ≠ .causalOrder)
    {t t' : Train} (member : t ∈ st.world.emitted) (member' : t' ∈ st.world.emitted)
    (key : t.key = t'.key) (full : Full cfg t) (full' : Full cfg t') : t.payloads = t'.payloads := by
  have other : ∃ q : Fin cfg.ringSize, (View.initial cfg mode).Alive q ∧ q.val ≠ t.issuer := by
    have two := cfg.two_le
    by_cases first : t.issuer = 0
    · exact ⟨⟨1, two⟩, View.alive_initial mode _, fun same => absurd (same.trans first) Nat.one_ne_zero⟩
    · exact ⟨⟨0, Nat.zero_lt_of_lt two⟩, View.alive_initial mode _, Ne.symm first⟩
  exact holds.coherent.ledger.cargo_eq member member' (holds.keyed t member) key
    (ready_of_full holds mode_ne member full) (ready_of_full holds mode_ne member' full') other

theorem Movement.issuer {r : Fin cfg.ringSize} {t out : Train} {after : TrainsNode cfg}
    (moves : Movement st r t out after) (named : st.world.Named) : out.issuer = t.issuer := by
  cases moves with
  | passed _ _ _ _ => rfl
  | relayed _ _ => rfl
  | replaced _ recycles _ _ => exact (named r).trans recycles.1.symm

theorem Movement.clock_le {r : Fin cfg.ringSize} {t out : Train} {after : TrainsNode cfg}
    (moves : Movement st r t out after) : out.clock ≤ t.clock + 1 := by
  cases moves with
  | passed _ _ _ _ => exact Nat.le_succ t.clock
  | relayed _ _ => exact Nat.le_succ t.clock
  | replaced _ _ stamp _ => exact stamp.le

theorem Movement.key {r : Fin cfg.ringSize} {t out : Train} {after : TrainsNode cfg}
    (moves : Movement st r t out after) : out.key = t.key ∨ Full cfg t ∧ st.Recycles r t := by
  cases moves with
  | passed _ _ _ _ => exact Or.inl rfl
  | relayed _ _ => exact Or.inl rfl
  | replaced full recycles _ _ => exact Or.inr ⟨full, recycles⟩

theorem Pace.initial (mode : DeliveryMode) : Pace bounds (RingState.initial cfg mode) where
  dead := rfl
  begun := fun q => iff_of_false (Finset.notMem_empty q) fun ⟨_, member, _⟩ => by cases member
  below := fun _ member => absurd member List.not_mem_nil
  held := fun _ member => absurd member List.not_mem_nil

/-- **Every prompt step keeps the pace.** -/
theorem Pace.step (pace : Pace bounds st) (holds : RingInvariant mode st entries)
    (mode_ne : mode ≠ .causalOrder) {action : RingAction cfg} (legal : action.Legal st)
    (prompt : Prompt bounds st action) : Pace bounds (st.apply action) := by
  cases action with
  | broadcast p data =>
    obtain ⟨-, -, delivery, -⟩ := (st.world.node p).handleBroadcast_keeps data
    have done : ∀ x, ((st.world.broadcast p data).node x).delivery.doneKeys =
        (st.world.node x).delivery.doneKeys := by
      intro x
      by_cases same : x = p
      · rw [same, show (st.world.broadcast p data).node p = ((st.world.node p).handleBroadcast data).1
          from st.world.act_node_self p _, delivery]
      · rw [show (st.world.broadcast p data).node x = st.world.node x from
          st.world.act_node_of_ne p _ same]
    refine ⟨pace.dead, pace.begun, pace.below, fun t member full loaded => ?_⟩
    rw [show (st.apply (.broadcast p data)).world.emitted = st.world.emitted from
      (broadcast_keeps st.world p data).1] at member
    exact (pace.held t member full loaded).imp_left fun all x => (done x).symm ▸ all x
  | start p =>
    obtain ⟨issues, -, waiting⟩ := legal
    have id := holds.custody.ids p
    have done : ∀ x, ((st.world.issueInitial p).node x).delivery.doneKeys =
        (st.world.node x).delivery.doneKeys := by
      intro x
      by_cases same : x = p
      · rw [same, show (st.world.issueInitial p).node p = (st.world.node p).issueNewTrain.1 from
          st.world.act_node_self p _]
        rfl
      · rw [show (st.world.issueInitial p).node x = st.world.node x from
          st.world.act_node_of_ne p _ same]
    obtain ⟨one, -⟩ := holds.tokens.unstarted p ⟨issues, View.alive_initial mode p⟩ waiting
    refine ⟨pace.dead, fun q => ?_, fun e member => ?_, fun t member full loaded => ?_⟩
    · show q ∈ insert p.val st.started ↔ ∃ e ∈ st.inflight ++ [(p, _)], e.2.issuer = q
      simp only [Finset.mem_insert, pace.begun, List.mem_append, List.mem_singleton, or_and_right,
        exists_or, exists_eq_left]
      rw [or_comm, show (st.world.node p).issueInitialTrain.2.issuer = p.val from id]
      exact or_congr_right eq_comm
    · rcases List.mem_append.mp member with old | new
      · exact pace.below e old
      · rw [List.mem_singleton.mp new]
        exact ((st.world.issueClock_eq p).symm.trans one).trans_le bounds.clock_pos
    · rcases List.mem_append.mp member with old | new
      · refine (pace.held t old full loaded).imp (fun all x => (done x).symm ▸ all x) ?_
        exact fun ⟨e, flying, key⟩ => ⟨e, List.mem_append_left _ flying, key⟩
      · exact Or.inr ⟨_, List.mem_append_right _ (List.mem_singleton_self _),
          congrArg Train.key (List.mem_singleton.mp new).symm⟩
  | hop i =>
    obtain ⟨⟨s, t⟩, here, -⟩ := id legal
    obtain ⟨before, after, out, delivered, shape, world, inflight, emitted, moves, after'⟩ :=
      hop_moves holds pace mode_ne legal here
    have issuer := moves.issuer holds.custody.ids
    have flying : (s, t) ∈ st.inflight := shape ▸ List.mem_append_right _ List.mem_cons_self
    have member := holds.tokens.flying _ flying
    obtain ⟨room, delivers⟩ := prompt (s, t) here
    have stays : ∀ e, e ∈ st.inflight ↔ e ∈ before ++ after ∨ e = (s, t) := fun e => by
      rw [shape, List.mem_append, List.mem_append, List.mem_cons]
      tauto
    have moved : ∀ e, e ∈ (st.hop i).inflight ↔ e ∈ before ++ after ∨ e = (st.successor s, out) :=
      fun e => by rw [inflight, List.mem_append (s := before ++ after), List.mem_singleton]
    have grows : ∀ key, st.AllDelivered key → (st.hop i).AllDelivered key := by
      intro key all x
      refine (mem_doneOf after' x key).mpr ?_
      obtain ⟨entry, inside, same⟩ := (mem_doneOf holds x key).mp (all x)
      refine ⟨entry, ?_, same⟩
      by_cases here : x = st.successor s
      · rw [here, Function.update_self]
        exact List.mem_append_left _ (here ▸ inside)
      · rw [Function.update_of_ne here]
        exact inside
    refine ⟨?_, fun q => ?_, fun e inside => ?_, fun t' inside full loaded => ?_⟩
    · show (st.hop i).dead = ∅
      obtain ⟨_, _, _, _, hop⟩ := RingState.hop_eq here
      rw [hop]
      exact pace.dead
    · show q ∈ (st.hop i).started ↔ _
      obtain ⟨_, _, _, _, hop⟩ := RingState.hop_eq here
      rw [show (st.hop i).started = st.started by rw [hop], pace.begun]
      simp only [RingState.apply, moved, stays, or_and_right, exists_or, exists_eq_left, issuer]
    · rcases (moved e).mp inside with old | rfl
      · exact pace.below e ((stays e).mpr (Or.inl old))
      · exact moves.clock_le.trans room
    · rw [show (st.apply (.hop i)).world.emitted = st.world.emitted ++ [out] from emitted] at inside
      rcases List.mem_append.mp inside with old | new
      · rcases pace.held t' old full loaded with all | ⟨e, aboard, key⟩
        · exact Or.inl (grows _ all)
        · rcases (stays e).mp aboard with rest | rfl
          · exact Or.inr ⟨e, (moved e).mpr (Or.inl rest), key⟩
          · rcases moves.key with same | ⟨fullT, recycles⟩
            · exact Or.inr ⟨_, (moved _).mpr (Or.inr rfl), same.trans key⟩
            · have cargo := payloads_eq holds mode_ne member old key fullT full
              exact Or.inl (grows _ (key ▸ delivers recycles (cargo ▸ loaded)))
      · exact Or.inr ⟨_, (moved _).mpr (Or.inr rfl), congrArg Train.key (List.mem_singleton.mp new).symm⟩

/-! ### The trains -/

section Trains

variable {st' : RingState cfg} {s s' : Vars (constants cfg mode bounds)}
  {T : (constants cfg mode bounds).TrainId} {r : Fin cfg.ringSize} {out : Train}

theorem succ_eq (dead : st.dead = ∅) (r : Fin cfg.ringSize) :
    (constants cfg mode bounds).succ r = st.successor r := by
  refine Fin.ext (((constants cfg mode bounds).place_succ r).trans ?_)
  show nextAlive cfg.ringSize ∅ r.val = nextAlive cfg.ringSize st.dead r.val
  rw [dead]

theorem slot_congr (dead : st'.dead = st.dead) (e : Fin cfg.ringSize × Train)
    (owner : Fin cfg.ringSize) : st'.slot e owner = st.slot e owner := by
  have next : st'.successor e.1 = st.successor e.1 :=
    Fin.ext (congrArg (fun dead => nextAlive cfg.ringSize dead e.1) dead)
  unfold RingState.slot
  rw [next]

/-- **Passing a slot on**: it becomes the slot of a train with one more ack and the queue on board. -/
theorem pass_slot {owner : Fin cfg.ringSize} {msgs : Finset Payload} {acks : Finset (Fin cfg.ringSize)}
    (slot : s.tr T = ⟨owner, out.clock, msgs, acks, r⟩) (dead : st.dead = ∅)
    (load : msgs ∪ s.pending r = out.payloads.toFinset)
    (acked : ∀ x : Fin cfg.ringSize, out.isAckedBy x = true ↔ x ∈ acks ∨ x = r) :
    ((Action.processTrain r T).apply s).tr T =
      ⟨owner, out.clock, out.payloads.toFinset, acksOf cfg out, st.successor r⟩ := by
  have ack : acks ∪ {r} = acksOf cfg out := by
    ext x
    rw [mem_acksOf, acked, Finset.mem_union, Finset.mem_singleton]
  rw [s.pass_here, slot, succ_eq dead]
  simp only [load, ack]

/-- A step of the ring sends one train. -/
structure Sent (st st' : RingState cfg) (r : Fin cfg.ringSize) (out : Train) : Prop where
  dead : st'.dead = st.dead
  started : st'.started = insert out.issuer st.started
  inflight : ∃ rest, st'.inflight = rest ++ [(r, out)] ∧
    ∀ e ∈ rest, e ∈ st.inflight ∧ e.2.issuer ≠ out.issuer
  emitted : st'.world.emitted = st.world.emitted ++ [out]
  accepted : st'.world.accepted = st.world.accepted

/-- Steps of the specification give a train its slot. A train that is full and empty is done. -/
structure Placed (st : RingState cfg) (r : Fin cfg.ringSize) (out : Train)
    (s s' : Vars (constants cfg mode bounds)) : Prop where
  crashed : s'.crashed = s.crashed
  broadcast : s'.broadcast = s.broadcast
  delivered : s'.delivered = s.delivered
  slot : ∀ T, T.val = out.issuer → s'.tr T = st.slot (r, out) ((constants cfg mode bounds).owner T)
  others : ∀ T, T.val ≠ out.issuer → s'.tr T = s.tr T
  issued : ∀ key ∈ s'.issuedKeys, key ∈ s.issuedKeys ∨ key.2.val < cfg.numTrains ∧ 1 ≤ key.1
  grows : ∀ p, s.doneKeys p ⊆ s'.doneKeys p
  back : ∀ p, ∀ key ∈ s'.doneKeys p, key ∈ s.doneKeys p ∨
    codeKey key = out.key ∧ Full cfg out ∧ out.payloads = []
  skipped : Full cfg out → out.payloads = [] → ∀ p, specKey cfg out.key ∈ s'.doneKeys p

/-- The trains after such a step. -/
theorem Ridden.sent (ridden : Ridden st s) (sent : Sent st st' r out) (placed : Placed st' r out s s')
    (queues : ∀ p, s'.pending p = (st'.world.node p).pending.toFinset) : Ridden st' s' := by
  obtain ⟨rest, inflight, stay⟩ := sent.inflight
  refine ⟨placed.crashed.trans ridden.crashed, queues, fun m => ?_, fun T waits => ?_,
    fun e member T issuer => ?_, fun key member => ?_, fun t member full empty p => ?_⟩
  · rw [placed.broadcast, sent.accepted]
    exact ridden.broadcast m
  · rw [sent.started, Finset.mem_insert, not_or] at waits
    rw [placed.others T waits.1]
    exact ridden.waiting T waits.2
  · rw [inflight] at member
    rcases List.mem_append.mp member with old | new
    · obtain ⟨flying, other⟩ := stay e old
      rw [placed.others T fun same => other (issuer.trans same), ridden.riding e flying T issuer]
      exact (slot_congr sent.dead e _).symm
    · obtain rfl := List.mem_singleton.mp new
      exact placed.slot T issuer.symm
  · exact (placed.issued key member).elim (ridden.issued key) id
  · rw [sent.emitted] at member
    rcases List.mem_append.mp member with old | new
    · exact placed.grows p (ridden.skipped t old full empty p)
    · obtain rfl := List.mem_singleton.mp new
      exact placed.skipped full empty p

/-- The deliveries before such a step are those after it, as long as nothing is delivered. -/
theorem Marked.sent {log : Fin cfg.ringSize → List Payload} {keys : Fin cfg.ringSize → Finset ClockKey}
    (marked : Marked st.world log keys s) (sent : Sent st st' r out) (placed : Placed st' r out s s') :
    Marked st'.world log keys s' := by
  refine ⟨placed.delivered.trans marked.delivered,
    fun p key member => placed.grows p (marked.done p key member), fun p key member => ?_⟩
  rw [sent.emitted]
  rcases placed.back p key member with old | ⟨same, full, empty⟩
  · refine (marked.back p key old).imp_right fun ⟨t, inside, rest⟩ => ?_
    exact ⟨t, List.mem_append_left _ inside, rest⟩
  · exact Or.inr ⟨out, List.mem_append_right _ (List.mem_singleton_self out), same.symm, full, empty⟩

/-- **The holder of a slot passes it on**, and a slot that is then full and empty is recycled. -/
theorem placed_pass {msgs : Finset Payload} {acks : Finset (Fin cfg.ringSize)}
    (slot : s.tr T = ⟨(constants cfg mode bounds).owner T, out.clock, msgs, acks, r⟩)
    (issuer : T.val = out.issuer) (crashed : s.crashed = ∅) (dead : st.dead = ∅)
    (incomplete : acks ≠ Finset.univ) (load : msgs ∪ s.pending r = out.payloads.toFinset)
    (acked : ∀ x : Fin cfg.ringSize, out.isAckedBy x = true ↔ x ∈ acks ∨ x = r)
    (home : Full cfg out → (st.successor r).val = out.issuer ∧
      s.issClk ((constants cfg mode bounds).owner T) = out.clock ∧ out.clock < bounds.clock) :
    ∃ s', (spec (constants cfg mode bounds)).Reaches s s' ∧ Placed st r out s s' ∧
      s'.pending = Function.update s.pending r ∅ := by
  have enabled : (Action.processTrain r T).Enabled s := by
    refine ⟨crashed ▸ Finset.notMem_empty r, ?_, ?_⟩
    · rw [slot]
    · rw [slot]
      exact incomplete
  have pass : (spec (constants cfg mode bounds)).Reaches s ((Action.processTrain r T).apply s) :=
    reaches_apply (Machine.Reaches.refl s) enabled
  have here := pass_slot slot dead load acked
  have only : ∀ T' : (constants cfg mode bounds).TrainId, T'.val = out.issuer → T' = T :=
    fun T' same => Fin.ext (same.trans issuer.symm)
  have elsewhere : ∀ T' : (constants cfg mode bounds).TrainId, T'.val ≠ out.issuer →
      ((Action.processTrain r T).apply s).tr T' = s.tr T' := fun T' other =>
    Function.update_of_ne (fun same => other (by rw [same, issuer])) ..
  have owner : ((constants cfg mode bounds).owner T).val = out.issuer := issuer
  by_cases skip : Full cfg out ∧ out.payloads = []
  · obtain ⟨full, empty⟩ := skip
    obtain ⟨-, stamp, room⟩ := home full
    rw [empty, acksOf_eq full, List.toFinset_nil] at here
    have key : (((Action.processTrain r T).apply s).tr T).key =
        (out.clock, (constants cfg mode bounds).owner T) := by
      rw [here]
      rfl
    have code : codeKey (out.clock, (constants cfg mode bounds).owner T) = out.key :=
      congrArg (ClockKey.mk out.clock) owner
    have fresh : ((Action.processTrain r T).apply s).fresh T =
        restingSlot ((constants cfg mode bounds).owner T) (out.clock + 1) := by
      unfold Vars.fresh restingSlot
      rw [here]
      simp only [Action.apply, stamp]
    have ready : (Action.recycleEmptyTrain T).Enabled ((Action.processTrain r T).apply s) := by
      refine ⟨?_, ?_, ?_⟩
      · rw [here]
        exact Finset.subset_univ _
      · rw [here]
      · rw [here]
        exact stamp.trans_lt room
    have again : (spec (constants cfg mode bounds)).Reaches s
        ((Action.recycleEmptyTrain T).apply ((Action.processTrain r T).apply s)) :=
      reaches_apply pass ready
    have marks : ∀ p, ((Action.recycleEmptyTrain T).apply
        ((Action.processTrain r T).apply s)).doneKeys p = s.doneKeys p ∪
          {(out.clock, (constants cfg mode bounds).owner T)} := by
      intro p
      rw [← key]
      exact if_neg (crashed ▸ Finset.notMem_empty p)
    refine ⟨_, again, ⟨rfl, rfl, rfl, fun T' same => ?_, fun T' other => ?_, fun k member => ?_,
      fun p => ?_, fun p k member => ?_, fun _ _ p => ?_⟩, rfl⟩
    · rw [only T' same, slot_skipped _ full empty, ← fresh]
      exact Function.update_self ..
    · exact (Function.update_of_ne (fun same => other (by rw [same, issuer])) ..).trans
        (elsewhere T' other)
    · refine (Finset.mem_union.mp member).imp_right fun new => ?_
      rw [Finset.mem_singleton.mp new, fresh]
      exact ⟨T.isLt, Nat.succ_pos out.clock⟩
    · exact (marks p).symm ▸ Finset.subset_union_left
    · have member := marks p ▸ member
      refine (Finset.mem_union.mp member).imp_right fun new => ?_
      rw [Finset.mem_singleton.mp new]
      exact ⟨code, full, empty⟩
    · rw [marks, ← code, specKey_codeKey]
      exact Finset.mem_union_right _ (Finset.mem_singleton_self _)
  · refine ⟨_, pass, ⟨rfl, rfl, rfl, fun T' same => ?_, elsewhere, fun k member => Or.inl member,
      fun p => subset_rfl, fun p k member => Or.inl member, fun full empty => absurd ⟨full, empty⟩ skip⟩,
      rfl⟩
    rw [only T' same]
    refine here.trans ?_
    by_cases full : Full cfg out
    · have back : st.successor r = (constants cfg mode bounds).owner T :=
        Fin.ext ((home full).1.trans owner.symm)
      rw [slot_closed _ full fun empty => skip ⟨full, empty⟩, acksOf_eq full, back]
    · exact (slot_open (e := (r, out)) _ full).symm

/-- A train just issued has one ack. -/
theorem not_full_issued (named : st.world.Named) (r : Fin cfg.ringSize) :
    ¬ Full cfg (st.world.node r).issueNewTrain.2 := by
  intro full
  have two := cfg.two_le
  have only : ∀ x : Fin cfg.ringSize, x = r := fun x => by
    have acked := full x
    rwa [isAckedBy_issued named, decide_eq_true_eq] at acked
  have same := congrArg Fin.val ((only ⟨0, Nat.zero_lt_of_lt two⟩).trans (only ⟨1, two⟩).symm)
  exact absurd same Nat.zero_ne_one

/-- **An issuer sends its next train**: its slot waits for it. -/
theorem placed_issue (st' : RingState cfg) (named : st.world.Named) (dead : st'.dead = ∅)
    (slot : s.tr T = restingSlot ((constants cfg mode bounds).owner T)
      (st.world.node r).nextIssueClock) (home : T.val = r.val) (crashed : s.crashed = ∅)
    (queue : s.pending r = (st.world.node r).pending.toFinset) :
    ∃ s', (spec (constants cfg mode bounds)).Reaches s s' ∧
      Placed st' r (st.world.node r).issueNewTrain.2 s s' ∧
      s'.pending = Function.update s.pending r ∅ := by
  have owner : (constants cfg mode bounds).owner T = r := Fin.ext home
  have waits : s.tr T = ⟨(constants cfg mode bounds).owner T,
      (st.world.node r).issueNewTrain.2.clock, ∅, ∅, r⟩ := by
    rw [slot, restingSlot, owner]
    rfl
  refine placed_pass waits (home.trans (named r).symm) crashed dead ?_ ?_ (fun x => ?_)
    fun full => absurd full (not_full_issued named r)
  · exact fun all => absurd (all ▸ Finset.mem_univ r) (Finset.notMem_empty r)
  · rw [Finset.empty_union, queue]
    rfl
  · rw [isAckedBy_issued named, decide_eq_true_eq]
    exact (or_iff_right (Finset.notMem_empty x)).symm

/-- The train after the next tour of its slot. -/
theorem Placed.of_recycle (books : Books s) (placed : Placed st r out (s.recycle T) s')
    (issuer : T.val = out.issuer) : Placed st r out s s' := by
  refine ⟨placed.crashed, placed.broadcast, placed.delivered, placed.slot, fun T' other => ?_,
    fun key member => ?_, placed.grows, placed.back, placed.skipped⟩
  · exact (placed.others T' other).trans
      (Function.update_of_ne (fun same => other (by rw [same, issuer])) ..)
  · refine (placed.issued key member).elim (fun old => ?_) Or.inr
    refine (Finset.mem_union.mp old).imp_right fun new => ?_
    rw [Finset.mem_singleton.mp new, books.fresh_key]
    exact ⟨T.isLt, Nat.succ_pos _⟩

/-- **What the receiver of a train does with it**, in the specification. -/
theorem hop_placed (holds : RingInvariant mode st entries) (pace : Pace bounds st)
    (books : Books s) (ridden : Ridden st s) {log : Fin cfg.ringSize → List Payload}
    (marked : Marked st.world log (doneOf st.world) s) {sender : Fin cfg.ringSize} {t : Train}
    (flying : (sender, t) ∈ st.inflight) (room : t.clock < bounds.clock)
    (delivers : st.Recycles (st.successor sender) t → t.payloads ≠ [] → st.AllDelivered t.key)
    (dead : st'.dead = st.dead) {after : TrainsNode cfg}
    (moves : Movement st (st.successor sender) t out after) :
    ∃ s', (spec (constants cfg mode bounds)).Reaches s s' ∧
      Placed st' (st.successor sender) out s s' ∧ s'.pending =
        Function.update s.pending (st.successor sender) after.pending.toFinset := by
  have member := holds.tokens.flying _ flying
  have issues := (holds.keyed t member).1.1
  have named := holds.custody.ids
  let T : (constants cfg mode bounds).TrainId := ⟨t.issuer, issues⟩
  have slot := ridden.riding _ flying T rfl
  have none : st'.dead = ∅ := dead.trans pace.dead
  have key : t.key = codeKey (t.clock, (constants cfg mode bounds).owner T) := rfl
  cases moves with
  | passed incomplete foreign home queue =>
    have slotNow := slot.trans (slot_open (e := (sender, t)) _ incomplete)
    have stamp : s.issClk ((constants cfg mode bounds).owner T) = t.clock :=
      (books.clock T).symm.trans (congrArg TrainRec.clock slotNow)
    rw [queue, List.toFinset_nil]
    refine placed_pass slotNow rfl ridden.crashed none (acksOf_ne incomplete) ?_ (fun x => ?_)
      fun full => ⟨?_, stamp, room⟩
    · rw [ridden.pending]
      exact List.toFinset_append.symm
    · rw [isAckedBy_loaded named, Bool.or_eq_true, decide_eq_true_eq, mem_acksOf]
    · exact (congrArg (fun dead => nextAlive cfg.ringSize dead (st.successor sender)) dead).trans
        (home full)
  | relayed full queue =>
    refine ⟨s, Machine.Reaches.refl s, ⟨rfl, rfl, rfl, fun T' issuer => ?_, fun _ _ => rfl,
      fun _ old => Or.inl old, fun _ => subset_rfl, fun _ _ old => Or.inl old,
      ridden.skipped out member⟩, ?_⟩
    · rw [ridden.riding _ flying T' issuer.symm]
      by_cases empty : out.payloads = []
      · rw [slot_skipped (e := (sender, out)) _ full empty, slot_skipped _ full empty]
      · rw [slot_closed (e := (sender, out)) _ full empty, slot_closed _ full empty]
    · rw [queue, ← ridden.pending, Function.update_eq_self]
  | replaced full recycles stamp queue =>
    rw [queue, List.toFinset_nil]
    have home : T.val = (st.successor sender).val := recycles.1
    by_cases empty : t.payloads = []
    · have waits := slot.trans (slot_skipped (e := (sender, t)) _ full empty)
      exact placed_issue st' named none (stamp ▸ waits) home ridden.crashed (ridden.pending _)
    · have closed := slot.trans (slot_closed (e := (sender, t)) _ full empty)
      have clock : s.issClk ((constants cfg mode bounds).owner T) = t.clock :=
        (books.clock T).symm.trans (congrArg TrainRec.clock closed)
      have enabled : (Action.recycleTrain T).Enabled s := by
        refine ⟨fun p _ => ?_, ?_, ?_⟩
        · have done := marked.done p t.key (delivers recycles empty p)
          rw [key, specKey_codeKey] at done
          rw [closed]
          exact done
        · rw [closed]
          exact fun none => empty ((List.toFinset_eq_empty_iff _).mp none)
        · rw [closed]
          exact clock.trans_lt room
      have again : (spec (constants cfg mode bounds)).Reaches s (s.recycle T) :=
        reaches_apply (Machine.Reaches.refl s) enabled
      have waits : (s.recycle T).tr T =
          restingSlot ((constants cfg mode bounds).owner T) (t.clock + 1) := by
        refine (Function.update_self T (s.fresh T) s.tr).trans ?_
        unfold Vars.fresh restingSlot
        rw [closed]
        simp only [clock]
      obtain ⟨s', run, placed, queues⟩ := placed_issue (s := s.recycle T) st' named none (stamp ▸ waits)
        home ridden.crashed (ridden.pending _)
      exact ⟨s', again.trans run, placed.of_recycle books (home.trans (named _).symm), queues⟩

end Trains

end Spec

end TrainsRing
