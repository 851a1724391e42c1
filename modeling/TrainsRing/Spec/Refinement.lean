/-
**The ring refines the specification.**

A prompt run of the ring is a run of the specification: a broadcast is `AppBroadcast`, a hop is at most
one `ProcessTrain`, before or after it at most one recycling, and a `DeliverTrain` for every train with
payloads that the receiver delivers. Without promptness it is not: an issuer may replace its train
while another process has only parked it (`recycled_while_parked`), which `RecycleTrain` forbids.

* `deliverable` — **what a node delivers may be delivered** in the specification.
* `abstracts_noted` — the deliveries of one call.
* `broadcast_refines`, `start_refines`, `hop_refines` — the steps.
* `ring_refines` — **whole runs**.
-/

import TrainsRing.Spec.Movement

namespace TrainsRing

namespace Spec

variable {cfg : RingConfig} {mode : DeliveryMode} {bounds : Bounds} {st : RingState cfg}
  {entries : Fin cfg.ringSize → List Entry}

/-! ### The deliveries -/

/-- The loads of some entries. -/
def loadsOf (cfg : RingConfig) (delivered : List Entry) : List (Chunk (Fin cfg.ringSize) Payload) :=
  (delivered.filter fun entry => entry.2 ≠ []).map fun entry =>
    (specKey cfg entry.1, entry.2.toFinset)

theorem mem_loadsOf {delivered : List Entry} {chunk : Chunk (Fin cfg.ringSize) Payload} :
    chunk ∈ loadsOf cfg delivered ↔ ∃ entry ∈ delivered, entry.2 ≠ [] ∧
      (specKey cfg entry.1, entry.2.toFinset) = chunk := by
  simp [loadsOf, and_assoc]

section Deliveries

variable {st' : RingState cfg} {s : Vars (constants cfg mode bounds)} {r : Fin cfg.ringSize}
  {delivered : List Entry}

/-- What an entry of a node was delivered from. -/
theorem entry_source (holds : RingInvariant mode st entries) {p : Fin cfg.ringSize} {entry : Entry}
    (member : entry ∈ entries p) : codeKey (specKey cfg entry.1) = entry.1 ∧
      ∃ t ∈ st.world.emitted, Full cfg t ∧ t.key = entry.1 ∧ t.payloads = entry.2 := by
  have replica := holds.coherent.replica p (View.alive_initial mode p)
  obtain ⟨t, emitted, ready, rfl⟩ := replica.cargo entry member
  exact ⟨codeKey_specKey (replica.segment.keys _ member).1.inside,
    t, emitted, full_of_ready ready, rfl, rfl⟩

/-- The payloads of a train are enumerated as the code sorts them. -/
theorem msgsToSeq_eq (bounds : Bounds) (holds : RingInvariant mode st entries) {t : Train}
    (member : t ∈ st.world.emitted) :
    (constants cfg mode bounds).msgsToSeq t.payloads.toFinset = sortPayloads t.payloads := by
  have once := holds.custody.once t member
  have distinct : (t.payloads.map Payload.msgId).Nodup := by
    refine (List.nodup_map_iff_inj_on once).mpr fun m left m' right same => ?_
    obtain ⟨p, taken⟩ := holds.custody.carried t member m left
    obtain ⟨p', taken'⟩ := holds.custody.carried t member m' right
    exact holds.custody.eq_of_msgId taken taken' same
  exact (sortPayloads_perm distinct (List.toFinset_toList once).symm).symm

/-- The loads of a node's entries have the contents that it appends to its log. -/
theorem contents_loadsOf (holds : RingInvariant mode st entries) {p : Fin cfg.ringSize}
    (inside : ∀ entry ∈ delivered, entry ∈ entries p) :
    contents (constants cfg mode bounds) (loadsOf cfg delivered) =
      delivered.flatMap Entry.content := by
  induction delivered with
  | nil => rfl
  | cons entry rest ih =>
    have tail := ih fun other member => inside other (List.mem_cons_of_mem _ member)
    obtain ⟨-, t, member, -, -, load⟩ := entry_source holds (inside entry List.mem_cons_self)
    rw [List.flatMap_cons, ← tail]
    by_cases empty : entry.2 = []
    · have skip : loadsOf cfg (entry :: rest) = loadsOf cfg rest := by
        unfold loadsOf
        rw [List.filter_cons_of_neg (by simpa using empty)]
      rw [skip, Entry.content, empty]
      rfl
    · have take : loadsOf cfg (entry :: rest) =
          (specKey cfg entry.1, entry.2.toFinset) :: loadsOf cfg rest := by
        unfold loadsOf
        rw [List.filter_cons_of_pos (by simpa using empty), List.map_cons]
      have head := msgsToSeq_eq bounds holds member
      rw [load] at head
      rw [take]
      exact congrArg (· ++ contents (constants cfg mode bounds) (loadsOf cfg rest)) head

/-- The issuer's clock in the specification is at least any clock seen. -/
theorem seen_le_issClk (holds : RingInvariant mode st entries) (pace : Pace bounds st)
    (books : Books s) (ridden : Ridden st s) (p : Fin cfg.ringSize)
    (T : (constants cfg mode bounds).TrainId) : (st.world.node p).seenClock T.val ≤
      s.issClk ((constants cfg mode bounds).owner T) := by
  have alive : ∀ q, (View.initial cfg mode).Alive q := View.alive_initial mode
  rcases holds.clocks.source p (alive p) T.val ⟨T.isLt, alive _⟩ with
    floor | ⟨t, emitted, isKey, issuer, same⟩
  · rw [floor]
    exact (Slots.get_zero T.val).trans_le (Nat.zero_le _)
  · have begun : T.val ∈ st.started := by
      by_contra waits
      exact holds.tokens.unemitted holds.clocks
        (p := ⟨T.val, lt_of_lt_of_le T.isLt cfg.trains_le⟩) ⟨T.isLt, alive _⟩ waits t emitted isKey issuer
    obtain ⟨e, flying, own⟩ := (pace.begun T.val).mp begun
    have newest := (holds.tokens.tracked e flying (pace.tracked holds flying)).newest t emitted isKey
      (issuer.trans own.symm)
    rw [← same, ← books.clock T, ridden.riding e flying T own]
    refine newest.trans ?_
    unfold RingState.slot restingSlot
    split_ifs
    · exact Nat.le_succ _
    · exact le_rfl
    · exact le_rfl

/-- A train in flight is full once a full train of its key has been sent. -/
theorem full_of_key (holds : RingInvariant mode st entries) {e : Fin cfg.ringSize × Train}
    (isTracked : Tracked (View.initial cfg mode) e.2) (flying : e ∈ st.inflight) {t : Train}
    (member : t ∈ st.world.emitted) (full : Full cfg t) (key : e.2.key = t.key) : Full cfg e.2 := by
  have alive : ∀ q, (View.initial cfg mode).Alive q := View.alive_initial mode
  have live : ∀ x : Fin cfg.ringSize, x.val ∉ st.dead := fun x =>
    (holds.tokens.alive x).mp (alive x)
  have issuer : e.2.issuer = t.issuer := congrArg ClockKey.issuer key
  have clock : e.2.clock = t.clock := congrArg ClockKey.clock key
  rcases (holds.tokens.tracked e flying isTracked).lap with lap | lap
  · intro x
    rw [lap.acked x (live x)]
    by_contra ahead
    have unseen := lap.unseen x (live x) fun near => absurd near ahead
    have foreign : x.val ≠ t.issuer := fun home => by
      refine ahead ?_
      rw [home, ← issuer]
      exact (behind_self cfg.ringSize e.2.issuer).trans_le (Nat.zero_le _)
    have seen := holds.coherent.ledger.acks t member (holds.keyed t member) x (alive x) foreign (full x)
    rw [← issuer, ← clock] at seen
    exact absurd seen (not_le.mpr unseen)
  · exact full_of_ready lap.ready

/-- **What a node delivers is deliverable** in the specification. -/
theorem deliverable (before : RingInvariant mode st entries) (pace : Pace bounds st)
    (mode_ne : mode ≠ .causalOrder)
    (holds : RingInvariant mode st' (Function.update entries r (entries r ++ delivered)))
    (pace' : Pace bounds st') (books : Books s) (ridden : Ridden st' s)
    {log : Fin cfg.ringSize → List Payload} (marked : Marked st'.world log (doneOf st.world) s)
    (emitted : ∀ t ∈ st'.world.emitted, t ∈ st.world.emitted ∨ ∃ e ∈ st'.inflight, e.2 = t)
    (stay : ∀ e ∈ st.inflight, (∃ e' ∈ st'.inflight, e'.2.key = e.2.key) ∨
      e.2.key ∈ doneOf st.world r) {chunk : Chunk (Fin cfg.ringSize) Payload}
    (member : chunk ∈ loadsOf cfg delivered) : Deliverable s r (loadsOf cfg delivered) chunk := by
  obtain ⟨entry, inside, loaded, rfl⟩ := mem_loadsOf.mp member
  have self : Function.update entries r (entries r ++ delivered) r = entries r ++ delivered :=
    Function.update_self ..
  have aboard : entry ∈ Function.update entries r (entries r ++ delivered) r := by
    rw [self]
    exact List.mem_append_right _ inside
  have replica := holds.coherent.replica r (View.alive_initial mode r)
  have segment := replica.segment
  rw [self] at segment
  obtain ⟨key, t, isEmitted, full, stamp, load⟩ := entry_source holds aboard
  have new : entry.1 ∉ doneOf st.world r := fun old => by
    obtain ⟨earlier, isOld, same⟩ := (mem_doneOf before r entry.1).mp old
    have below := (List.pairwise_append.mp segment.sorted).2.2 earlier isOld entry inside
    exact below.ne same
  -- the train is still in flight, full
  obtain ⟨e, flying, sameKey⟩ : ∃ e ∈ st'.inflight, e.2.key = entry.1 := by
    rcases emitted t isEmitted with old | ⟨e, flying, rfl⟩
    · rcases pace.held t old full (load.symm ▸ loaded) with all | ⟨e, flying, same⟩
      · exact absurd (stamp ▸ all r) new
      · rcases stay e flying with ⟨e', still, same'⟩ | done
        · exact ⟨e', still, same'.trans (same.trans stamp)⟩
        · exact absurd ((same.trans stamp) ▸ done) new
    · exact ⟨e, flying, stamp⟩
  have fullE := full_of_key holds (pace'.tracked holds flying) flying isEmitted full
    (sameKey.trans stamp.symm)
  have cargo : e.2.payloads = entry.2 :=
    (payloads_eq holds mode_ne (holds.tokens.flying e flying) isEmitted (sameKey.trans stamp.symm) fullE
      full).trans load
  let T : (constants cfg mode bounds).TrainId :=
    ⟨e.2.issuer, (holds.keyed e.2 (holds.tokens.flying e flying)).1.1⟩
  have slot := (ridden.riding e flying T rfl).trans
    (slot_closed _ fullE fun empty => loaded (cargo.symm.trans empty))
  have slotKey : specKey cfg entry.1 = (e.2.clock, (constants cfg mode bounds).owner T) := by
    rw [← sameKey]
    exact specKey_codeKey (e.2.clock, (constants cfg mode bounds).owner T)
  refine ⟨fun none => loaded ((List.toFinset_eq_empty_iff _).mp none), ⟨T, ?_, ?_, ?_⟩, fun old => ?_,
    fun k issued less => ?_, fun q issuer => ?_⟩
  · rw [slot]
    exact slotKey.symm
  · rw [slot]
    exact congrArg List.toFinset cargo
  · rw [slot]
    exact Finset.subset_univ _
  · rcases marked.back r _ old with done | ⟨t', isEmitted', same, full', empty⟩
    · exact new (key ▸ done)
    · have equal := payloads_eq holds mode_ne isEmitted isEmitted'
        (stamp.trans (key.symm.trans same.symm)) full full'
      exact loaded (load.symm.trans (equal.trans empty))
  · obtain ⟨issuer, positive⟩ := ridden.issued k issued
    have isKey : (View.initial cfg mode).Key (codeKey k) :=
      ⟨⟨issuer, View.alive_initial mode _⟩, (Slots.get_zero k.2.val).trans_lt positive⟩
    have below : codeKey k < entry.1 := key ▸ codeKey_lt.mpr less
    obtain ⟨earlier, found, same⟩ := segment.closed entry (List.mem_append_right _ inside) _ isKey below
    have spec : specKey cfg earlier.1 = k := same ▸ specKey_codeKey k
    rcases List.mem_append.mp found with old | now
    · exact Or.inl (spec ▸ marked.done r _ ((mem_doneOf before r _).mpr ⟨earlier, old, rfl⟩))
    · by_cases empty : earlier.2 = []
      · have source : earlier ∈ Function.update entries r (entries r ++ delivered) r := by
          rw [self]
          exact found
        obtain ⟨-, t', isEmitted', full', stamp', load'⟩ := entry_source holds source
        have skipped := ridden.skipped t' isEmitted' full' (load'.trans empty) r
        exact Or.inl (spec ▸ stamp' ▸ skipped)
      · exact Or.inr ⟨_, mem_loadsOf.mpr ⟨earlier, now, empty, rfl⟩, spec⟩
  · obtain ⟨T', -, rfl⟩ := Finset.mem_image.mp issuer
    have seen := replica.seenDone entry aboard T'.val ⟨T'.isLt, View.alive_initial mode _⟩
    exact seen.trans (seen_le_issClk holds pace' books ridden r T')

/-- **The deliveries of one call** are deliveries of the specification. -/
theorem abstracts_noted (before : RingInvariant mode st entries) (pace : Pace bounds st)
    (mode_ne : mode ≠ .causalOrder)
    (holds : RingInvariant mode st' (Function.update entries r (entries r ++ delivered)))
    (pace' : Pace bounds st') (books : Books s) (ridden : Ridden st' s)
    (marked : Marked st'.world st.world.log (doneOf st.world) s)
    (emitted : ∀ t ∈ st'.world.emitted, t ∈ st.world.emitted ∨ ∃ e ∈ st'.inflight, e.2 = t)
    (stay : ∀ e ∈ st.inflight, (∃ e' ∈ st'.inflight, e'.2.key = e.2.key) ∨
      e.2.key ∈ doneOf st.world r) :
    ∃ s', (spec (constants cfg mode bounds)).Reaches s s' ∧ Abstracts st' s' := by
  have alive : ∀ q, (View.initial cfg mode).Alive q := View.alive_initial mode
  have self : Function.update entries r (entries r ++ delivered) r = entries r ++ delivered :=
    Function.update_self ..
  have other : ∀ p, p ≠ r → Function.update entries r (entries r ++ delivered) p = entries p :=
    fun p ne => Function.update_of_ne ne ..
  have inside : ∀ entry ∈ delivered,
      entry ∈ Function.update entries r (entries r ++ delivered) r := fun entry member => by
    rw [self]
    exact List.mem_append_right _ member
  have sorted := (holds.coherent.replica r (alive r)).segment.sorted
  rw [self] at sorted
  have ordered : (loadsOf cfg delivered).Pairwise fun first second => ckLt first.1 second.1 := by
    refine List.pairwise_map.mpr (((List.pairwise_append.mp sorted).2.1.filter _).imp_of_mem ?_)
    intro first second left right below
    rw [← codeKey_lt, (entry_source holds (inside first (List.mem_filter.mp left).1)).1,
      (entry_source holds (inside second (List.mem_filter.mp right).1)).1]
    exact below
  have run := Vars.reaches_noted (s := s) (p := r) (ridden.crashed ▸ Finset.notMem_empty r) ordered
    fun chunk member => deliverable before pace mode_ne holds pace' books ridden marked emitted stay
      member
  have grows : ∀ p, s.doneKeys p ⊆ (s.noted r (loadsOf cfg delivered)).doneKeys p := by
    intro p
    by_cases same : p = r
    · rw [same, show (s.noted r (loadsOf cfg delivered)).doneKeys r = _ from Function.update_self ..]
      exact Finset.subset_union_left
    · rw [show (s.noted r (loadsOf cfg delivered)).doneKeys p = _ from Function.update_of_ne same ..]
  have earlier : ∀ p, ∀ key ∈ doneOf st.world p, key ∈ doneOf st'.world p := by
    intro p key done
    obtain ⟨entry, member, same⟩ := (mem_doneOf before p key).mp done
    refine (mem_doneOf holds p key).mpr ⟨entry, ?_, same⟩
    by_cases here : p = r
    · rw [here, self]
      exact List.mem_append_left _ (here ▸ member)
    · rw [other p here]
      exact member
  refine ⟨_, run, ⟨ridden.crashed, ridden.pending, ridden.broadcast, ridden.waiting, ridden.riding,
    ridden.issued, fun t member full empty p => grows p (ridden.skipped t member full empty p)⟩,
    funext fun p => ?_, fun p key done => ?_, fun p key done => ?_⟩
  · have log := holds.coherent.logs p (alive p)
    have log' := before.coherent.logs p (alive p)
    rw [List.nil_append] at log log'
    by_cases same : p = r
    · subst same
      rw [show (s.noted p (loadsOf cfg delivered)).delivered p = _ from Function.update_self ..,
        marked.delivered, log, log', self, List.flatMap_append, contents_loadsOf holds inside]
    · rw [show (s.noted r (loadsOf cfg delivered)).delivered p = s.delivered p from
        Function.update_of_ne same .., marked.delivered, log, log', other p same]
  · obtain ⟨entry, member, rfl⟩ := (mem_doneOf holds p key).mp done
    by_cases same : p = r
    · subst same
      rw [self] at member
      rcases List.mem_append.mp member with old | new
      · exact grows p (marked.done p _ ((mem_doneOf before p _).mpr ⟨entry, old, rfl⟩))
      · by_cases empty : entry.2 = []
        · obtain ⟨-, t, isEmitted, full, stamp, load⟩ := entry_source holds (inside entry new)
          exact grows p (stamp ▸ ridden.skipped t isEmitted full (load.trans empty) p)
        · rw [show (s.noted p (loadsOf cfg delivered)).doneKeys p = _ from Function.update_self ..]
          have load : (specKey cfg entry.1, entry.2.toFinset) ∈ loadsOf cfg delivered :=
            mem_loadsOf.mpr ⟨entry, new, empty, rfl⟩
          exact Finset.mem_union_right _ (List.mem_toFinset.mpr (List.mem_map_of_mem load))
    · rw [other p same] at member
      exact grows p (marked.done p _ ((mem_doneOf before p _).mpr ⟨entry, member, rfl⟩))
  · have old : key ∈ s.doneKeys p → codeKey key ∈ doneOf st'.world p ∨
        ∃ t ∈ st'.world.emitted, t.key = codeKey key ∧ Full cfg t ∧ t.payloads = [] := fun old =>
      (marked.back p key old).imp_left (earlier p _)
    by_cases same : p = r
    · subst same
      rw [show (s.noted p (loadsOf cfg delivered)).doneKeys p = _ from Function.update_self ..] at done
      rcases Finset.mem_union.mp done with before' | now
      · exact old before'
      · obtain ⟨chunk, load, rfl⟩ := List.mem_map.mp (List.mem_toFinset.mp now)
        obtain ⟨entry, member, -, rfl⟩ := mem_loadsOf.mp load
        refine Or.inl ((mem_doneOf holds p _).mpr ⟨entry, inside entry member, ?_⟩)
        exact (entry_source holds (inside entry member)).1.symm
    · rw [show (s.noted r (loadsOf cfg delivered)).doneKeys p = s.doneKeys p from
        Function.update_of_ne same ..] at done
      exact old done

end Deliveries

/-! ### The refinement -/

section Steps

variable {s : Vars (constants cfg mode bounds)}

/-- A broadcast, and none when the payload is refused. -/
theorem broadcast_refines (holds : RingInvariant mode st entries) (abstracts : Abstracts st s)
    {p : Fin cfg.ringSize} {data : List UInt8}
    (room : (st.world.node p).pending.length < bounds.pending) :
    ∃ s', (spec (constants cfg mode bounds)).Reaches s s' ∧ Abstracts (st.broadcast p data) s' := by
  obtain ⟨ridden, marked⟩ := abstracts
  have emitted := (broadcast_keeps st.world p data).1
  obtain ⟨⟨-, quiet⟩, -, delivery, -⟩ := (st.world.node p).handleBroadcast_keeps data
  have queue := ((st.world.node p).handleBroadcast_pending data).1
  have node : (st.world.broadcast p data).node p = ((st.world.node p).handleBroadcast data).1 :=
    st.world.act_node_self p _
  have nodes : ∀ q, q ≠ p → (st.world.broadcast p data).node q = st.world.node q := fun q other =>
    st.world.act_node_of_ne p _ other
  have log : (st.world.broadcast p data).log = st.world.log := by
    refine Eq.trans ?_ (Function.update_eq_self p st.world.log)
    refine congrArg (Function.update st.world.log p) ?_
    exact (congrArg (st.world.log p ++ ·) quiet).trans (List.append_nil _)
  have done : doneOf (st.world.broadcast p data) = doneOf st.world := by
    funext q
    by_cases same : q = p
    · rw [same, doneOf, node, delivery]
      rfl
    · rw [doneOf, nodes q same]
      rfl
  have accepted : ∀ m, (∃ q, m ∈ (st.world.broadcast p data).accepted q) ↔
      (∃ q, m ∈ st.world.accepted q) ∨ m ∈ (st.world.node p).acceptedBy data := by
    intro m
    show (∃ q, m ∈ Function.update st.world.accepted p _ q) ↔ _
    constructor
    · rintro ⟨q, member⟩
      by_cases same : q = p
      · rw [same, Function.update_self] at member
        exact (List.mem_append.mp member).imp_left fun old => ⟨p, old⟩
      · rw [Function.update_of_ne same] at member
        exact Or.inl ⟨q, member⟩
    · rintro (⟨q, old⟩ | new)
      · by_cases same : q = p
        · refine ⟨p, ?_⟩
          rw [Function.update_self]
          exact List.mem_append_left _ (same ▸ old)
        · exact ⟨q, by rwa [Function.update_of_ne same]⟩
      · refine ⟨p, ?_⟩
        rw [Function.update_self]
        exact List.mem_append_right _ new
  -- the state with the accepted payloads queued
  have relate : ∀ s' : Vars (constants cfg mode bounds), s'.crashed = s.crashed → s'.tr = s.tr →
      s'.issuedKeys = s.issuedKeys → s'.doneKeys = s.doneKeys → s'.delivered = s.delivered →
      (∀ q, s'.pending q = ((st.world.broadcast p data).node q).pending.toFinset) →
      (∀ m, m ∈ s'.broadcast ↔ m ∈ s.broadcast ∨ m ∈ (st.world.node p).acceptedBy data) →
      Abstracts (st.broadcast p data) s' := by
    intro s' crashed tr issued keys delivered pending broadcast
    refine ⟨⟨crashed.trans ridden.crashed, pending, fun m => ?_, fun T waits => ?_,
      fun e flying T issuer => ?_, ?_, ?_⟩, ?_⟩
    · exact ((broadcast m).trans (or_congr_left (ridden.broadcast m))).trans (accepted m).symm
    · rw [tr]
      exact ridden.waiting T waits
    · rw [tr, ridden.riding e flying T issuer]
      rfl
    · rw [issued]
      exact ridden.issued
    · rw [keys]
      intro t member
      exact ridden.skipped t (emitted ▸ member)
    · show Marked (st.world.broadcast p data) (st.world.broadcast p data).log
        (doneOf (st.world.broadcast p data)) s'
      rw [log, done]
      refine ⟨delivered.trans marked.delivered, ?_, ?_⟩
      · rw [keys]
        exact marked.done
      · rw [keys, emitted]
        exact marked.back
  rcases hasBeen : (st.world.node p).acceptedBy data with _ | ⟨m, rest⟩
  · refine ⟨s, Machine.Reaches.refl s, relate s rfl rfl rfl rfl rfl (fun q => ?_) fun m => ?_⟩
    · by_cases same : q = p
      · rw [same, node, queue, hasBeen, List.append_nil]
        exact ridden.pending p
      · rw [nodes q same]
        exact ridden.pending q
    · rw [hasBeen]
      exact (or_iff_left List.not_mem_nil).symm
  · have one : rest = [] ∧ ((st.world.node p).id, (st.world.node p).nextSeq) ∉
        (st.world.node p).broadcastSeen ∧ m.msgId = ((st.world.node p).id, (st.world.node p).nextSeq) := by
      unfold TrainsNode.acceptedBy at hasBeen
      split_ifs at hasBeen with seen
      obtain ⟨rfl, rfl⟩ := List.cons.inj hasBeen
      exact ⟨rfl, seen, rfl⟩
    obtain ⟨rfl, unseen, id⟩ := one
    have enabled : (Action.appBroadcast p m).Enabled s := by
      refine ⟨ridden.crashed ▸ Finset.notMem_empty p, fun old => ?_, ?_⟩
      · obtain ⟨q, taken⟩ := (ridden.broadcast m).mp old
        obtain ⟨sender, noted⟩ := holds.custody.own q m taken
        have home : q = p := Fin.ext (sender.symm.trans
          ((congrArg Prod.fst id).trans (holds.custody.ids p)))
        exact unseen (id ▸ home ▸ noted)
      · rw [ridden.pending]
        exact (List.toFinset_card_le _).trans_lt room
    refine ⟨_, reaches_apply (Machine.Reaches.refl s) enabled,
      relate _ rfl rfl rfl rfl rfl (fun q => ?_) fun m' => ?_⟩
    · show Function.update s.pending p _ q = _
      by_cases same : q = p
      · rw [same, Function.update_self, node, queue, hasBeen, List.toFinset_append, ridden.pending]
        rfl
      · rw [Function.update_of_ne same, nodes q same]
        exact ridden.pending q
    · rw [hasBeen, List.mem_singleton]
      exact Finset.mem_union.trans (or_congr_right Finset.mem_singleton)

/-- An issuer starts. -/
theorem start_refines (holds : RingInvariant mode st entries) (pace : Pace bounds st)
    (abstracts : Abstracts st s) {p : Fin cfg.ringSize} (legal : (RingAction.start p).Legal st) :
    ∃ s', (spec (constants cfg mode bounds)).Reaches s s' ∧ Abstracts (st.start p) s' := by
  obtain ⟨issues, -, waiting⟩ := legal
  obtain ⟨ridden, marked⟩ := abstracts
  have named := holds.custody.ids
  obtain ⟨one, -⟩ := holds.tokens.unstarted p ⟨issues, View.alive_initial mode p⟩ waiting
  rw [st.world.issueClock_eq] at one
  let T : (constants cfg mode bounds).TrainId := ⟨p.val, issues⟩
  have node : (st.start p).world.node p = (st.world.node p).issueNewTrain.1 :=
    st.world.act_node_self p _
  have nodes : ∀ q, q ≠ p → (st.start p).world.node q = st.world.node q := fun q other =>
    st.world.act_node_of_ne p _ other
  have sent : Sent st (st.start p) p (st.world.node p).issueNewTrain.2 := by
    refine ⟨rfl, ?_, ⟨st.inflight, rfl, fun e flying => ⟨flying, fun same => waiting ?_⟩⟩, rfl, rfl⟩
    · rw [show (st.world.node p).issueNewTrain.2.issuer = p.val from named p]
      rfl
    · exact (pace.begun p.val).mpr ⟨e, flying, same.trans (named p)⟩
  obtain ⟨s', run, placed, queues⟩ := placed_issue (T := T) (st.start p) named pace.dead
    (one ▸ ridden.waiting T waiting) rfl ridden.crashed (ridden.pending p)
  have log : (st.start p).world.log = st.world.log :=
    (congrArg (Function.update st.world.log p) (List.append_nil _)).trans
      (Function.update_eq_self p st.world.log)
  have done : doneOf (st.start p).world = doneOf st.world := by
    funext q
    by_cases same : q = p
    · rw [same, doneOf, node]
      rfl
    · rw [doneOf, nodes q same]
      rfl
  refine ⟨s', run, ridden.sent sent placed fun q => ?_, ?_⟩
  · rw [queues]
    by_cases same : q = p
    · rw [same, Function.update_self, node]
      rfl
    · rw [Function.update_of_ne same, nodes q same]
      exact ridden.pending q
  · rw [log, done]
    exact marked.sent sent placed

/-- **A hop**: the train moves, then the receiver delivers. -/
theorem hop_refines (holds : RingInvariant mode st entries) (pace : Pace bounds st)
    (mode_ne : mode ≠ .causalOrder) (books : Books s) (abstracts : Abstracts st s) {i : Nat}
    (legal : (RingAction.hop i).Legal st) (prompt : Prompt bounds st (.hop i)) :
    ∃ s', (spec (constants cfg mode bounds)).Reaches s s' ∧ Abstracts (st.hop i) s' := by
  obtain ⟨⟨sender, t⟩, here, -⟩ := id legal
  obtain ⟨before, after, out, delivered, shape, world, inflight, emitted, moves, holds'⟩ :=
    hop_moves holds pace mode_ne legal here
  obtain ⟨room, delivers⟩ := prompt (sender, t) here
  have flying : (sender, t) ∈ st.inflight := shape ▸ List.mem_append_right _ List.mem_cons_self
  have pace' : Pace bounds (st.hop i) := pace.step holds mode_ne legal prompt
  have issuer := moves.issuer holds.custody.ids
  obtain ⟨_, _, _, _, hop⟩ := RingState.hop_eq here
  have dead : (st.hop i).dead = st.dead := by rw [hop]
  have started : (st.hop i).started = st.started := by rw [hop]
  have apart := holds.tokens.apart shape (holds.keyed t (holds.tokens.flying _ flying))
  have rest : ∀ e ∈ before ++ after, e ∈ st.inflight := fun e inside =>
    (RingState.left_sublist shape).subset inside
  have sent : Sent st (st.hop i) (st.successor sender) out := by
    refine ⟨dead, ?_, ⟨_, inflight, fun e inside => ⟨rest e inside, fun same => ?_⟩⟩, emitted, ?_⟩
    · rw [started, issuer, Finset.insert_eq_of_mem ((pace.begun _).mpr ⟨_, flying, rfl⟩)]
    · exact apart e inside (pace.tracked holds (rest e inside)) (same.trans issuer)
    · rw [world]
      rfl
  obtain ⟨middle, run, placed, queues⟩ := hop_placed holds pace books abstracts.ridden
    abstracts.marked flying room delivers dead moves
  have ridden : Ridden (st.hop i) middle := abstracts.ridden.sent sent placed fun p => by
    rw [queues]
    by_cases same : p = st.successor sender
    · rw [same, Function.update_self]
    · rw [Function.update_of_ne same, world, st.world.receive_node_of_ne _ same]
      exact abstracts.ridden.pending p
  have books' : Books middle := run.preserves (P := Books) (fun _ _ books enabled => books.step enabled)
    books
  have aboard : ∀ t' ∈ (st.hop i).world.emitted, t' ∈ st.world.emitted ∨
      ∃ e ∈ (st.hop i).inflight, e.2 = t' := fun t' member => by
    rw [emitted] at member
    refine (List.mem_append.mp member).imp_right fun new => ?_
    rw [List.mem_singleton.mp new, inflight]
    exact ⟨_, List.mem_append_right _ (List.mem_singleton_self _), rfl⟩
  have stay : ∀ e ∈ st.inflight, (∃ e' ∈ (st.hop i).inflight, e'.2.key = e.2.key) ∨
      e.2.key ∈ doneOf st.world (st.successor sender) := fun e member => by
    rw [inflight]
    have cases : e ∈ before ++ after ∨ e = (sender, t) := by
      rw [shape, List.mem_append, List.mem_cons] at member
      rw [List.mem_append]
      tauto
    rcases cases with old | rfl
    · exact Or.inl ⟨e, List.mem_append_left _ old, rfl⟩
    · refine moves.key.imp (fun same => ?_) fun recycled => recycled.2.2
      exact ⟨_, List.mem_append_right _ (List.mem_singleton_self _), same⟩
  obtain ⟨s', more, abstracts'⟩ := abstracts_noted holds pace mode_ne holds' pace' books' ridden
    (abstracts.marked.sent sent placed) aboard stay
  exact ⟨s', run.trans more, abstracts'⟩

end Steps

/-- **Every prompt step of the ring** is matched by steps of the specification. -/
theorem step_refines (holds : RingInvariant mode st entries) (pace : Pace bounds st)
    (mode_ne : mode ≠ .causalOrder) {s : Vars (constants cfg mode bounds)} (books : Books s)
    (abstracts : Abstracts st s) {action : RingAction cfg} (legal : action.Legal st)
    (prompt : Prompt bounds st action) :
    ∃ s', (spec (constants cfg mode bounds)).Reaches s s' ∧ Abstracts (st.apply action) s' := by
  cases action with
  | broadcast p data => exact broadcast_refines holds abstracts prompt
  | start p => exact start_refines holds pace abstracts legal
  | hop i => exact hop_refines holds pace mode_ne books abstracts legal prompt

theorem abstracts_initial (cfg : RingConfig) (mode : DeliveryMode) (bounds : Bounds) :
    Abstracts (RingState.initial cfg mode) (init (constants cfg mode bounds)) where
  ridden :=
    { crashed := rfl
      pending := fun _ => rfl
      broadcast := fun m => iff_of_false (Finset.notMem_empty m) fun ⟨_, member⟩ => by cases member
      waiting := fun _ _ => rfl
      riding := fun _ member => absurd member List.not_mem_nil
      issued := fun key member => by
        obtain ⟨T, -, rfl⟩ := Finset.mem_image.mp member
        exact ⟨T.isLt, le_rfl⟩
      skipped := fun _ member => absurd member List.not_mem_nil }
  marked :=
    { delivered := rfl
      done := fun _ key member => absurd member (Finset.notMem_empty key)
      back := fun _ key member => absurd member (Finset.notMem_empty key) }

/-- **The ring refines the specification**: the states of a prompt run of the ring are matched one by
one by states of a run of the specification, with the same queues, broadcasts and delivery logs. -/
theorem ring_refines (mode_ne : mode ≠ .causalOrder) {run : List (RingAction cfg)}
    (legal : (promptRing cfg mode bounds).LegalRun (.initial cfg mode) run) :
    ∃ trace : List (Vars (constants cfg mode bounds)),
      List.Forall₂ Abstracts ((promptRing cfg mode bounds).states (.initial cfg mode) run) trace ∧
        trace.head? = some (init (constants cfg mode bounds)) ∧
        trace.IsChain (spec (constants cfg mode bounds)).Reaches := by
  let R : RingState cfg → Vars (constants cfg mode bounds) → Prop := fun st s =>
    (∃ entries, RingInvariant mode st entries) ∧ Pace bounds st ∧ Books s ∧ Abstracts st s
  have step : ∀ st s a, R st s → (promptRing cfg mode bounds).legal st a →
      ∃ s', (spec (constants cfg mode bounds)).Reaches s s' ∧ R (st.apply a) s' := by
    rintro st s a ⟨⟨entries, holds⟩, pace, books, abstracts⟩ ⟨legal, prompt⟩
    obtain ⟨s', run, abstracts'⟩ := step_refines holds pace mode_ne books abstracts legal prompt
    have books' : Books s' := run.preserves (P := Books)
      (fun _ _ books enabled => books.step enabled) books
    exact ⟨s', run, holds.step mode_ne legal, pace.step holds mode_ne legal prompt, books', abstracts'⟩
  have first : R (.initial cfg mode) (init (constants cfg mode bounds)) :=
    ⟨⟨_, RingInvariant.initial mode⟩, Pace.initial mode, Books.init _, abstracts_initial cfg mode bounds⟩
  obtain ⟨trace, matched, chain⟩ := Machine.simulate_run step run first legal
  exact ⟨_, matched.imp fun _ _ related => related.2.2.2, rfl, chain⟩

/-- Matched states have the same delivery logs. -/
theorem logs_matched {states : List (RingState cfg)} {trace : List (Vars (constants cfg mode bounds))}
    (matched : List.Forall₂ Abstracts states trace) :
    trace.map (fun s => s.delivered) = states.map fun st => st.world.log := by
  induction matched with
  | nil => rfl
  | cons first _ ih => rw [List.map_cons, List.map_cons, ih, first.marked.delivered]

/-! ### A run -/

theorem four_lt_u64Max : 4 < u64Max := by decide

/-- Clocks and queues up to four. -/
def fourBounds : Bounds := ⟨4, 4, one_le_pairClock, four_lt_u64Max, one_le_pairClock⟩

/-- Node `1` puts a payload on the train of node `0`, which delivers it when the train is back. The
train goes around again, is delivered by node `1` and replaced by node `0`. -/
def tourRun : List (RingAction .pair) := [.broadcast 1 [7], .start 0, .hop 0, .hop 0, .hop 0, .hop 0]

theorem ring_refines_pair : ∃ trace : List (Vars (constants .pair .uniformTotalOrder fourBounds)),
    trace.head? = some (init (constants .pair .uniformTotalOrder fourBounds)) ∧
      trace.IsChain (spec (constants .pair .uniformTotalOrder fourBounds)).Reaches ∧
      trace.map (fun s => (s.delivered 0, s.delivered 1)) = [([], []), ([], []), ([], []), ([], []),
        ([⟨1, 0, [7]⟩], []), ([⟨1, 0, [7]⟩], [⟨1, 0, [7]⟩]), ([⟨1, 0, [7]⟩], [⟨1, 0, [7]⟩])] := by
  have legal : (promptRing .pair .uniformTotalOrder fourBounds).LegalRun
      (.initial .pair .uniformTotalOrder) tourRun := by decide +kernel
  obtain ⟨trace, matched, head, chain⟩ := ring_refines (by decide) legal
  have logs := congrArg (List.map fun log => (log 0, log 1)) (logs_matched matched)
  rw [List.map_map, List.map_map] at logs
  refine ⟨trace, head, chain, logs.trans ?_⟩
  decide +kernel

end Spec

end TrainsRing
