/-
**The re-admission sequence.**

An excluded process starts again as a new node with the exported state and the log of a donor; it and
the members report and install one plan, count it as alive again, and the issuers reissue.

* `RingState.joined` — the ring when the members and the rejoiner report.
* `View.including` — the next view: with the rejoiner, its floor the plan's boundary.
* `RingState.Clean` — no train in flight has a sender out of use.
* `ViewInvariant.join` — members and rejoiner are ready for the change (`Suspended`).
* `ViewInvariant.readmission` — **the re-admission sequence starts the next view**: rejoiner and
  members have one log, which extends what each member had.
-/

import TrainsRing.Reconfig.Exclude

namespace TrainsRing

variable {cfg : RingConfig} {view : View cfg} {base : List Payload}

open TrainsNode

/-- The view with a process that was out of use. -/
def View.including (view : View cfg) (rejoiner : Nat) (floor : Slots cfg) : View cfg :=
  ⟨view.mode, floor, view.crashed &&& ~~~(1#32 <<< rejoiner)⟩

/-- A train received is one of the view's members, or stale. -/
def View.Fences (view : View cfg) (st : RingState cfg) : RingAction cfg → Prop
  | .hop i => ∀ e ∈ st.inflight[i]?, view.floor.get e.2.issuer < e.2.clock → view.Alive e.2.issuer
  | _ => True

theorem hasBit_clear (bits : AckBits) (q : Nat) {p : Nat} (small : p < 32) :
    hasBit (bits &&& ~~~(1#32 <<< q)) p = (hasBit bits p && !decide (p = q)) := by
  rw [← hasBit_single q small, hasBit_eq _ small, hasBit_eq _ small, hasBit_eq _ small]
  simp [small]

theorem View.alive_including {rejoiner : Nat} {floor : Slots cfg} {p : Nat}
    (inside : p < cfg.ringSize) :
    (view.including rejoiner floor).Alive p ↔ view.Alive p ∨ p = rejoiner := by
  have small : p < 32 := by
    have := cfg.le_thirty
    omega
  unfold View.Alive View.including
  rw [hasBit_clear _ _ small]
  by_cases same : p = rejoiner <;> simp [same]

namespace RingState

/-- No train in flight has a sender out of use. -/
def Clean (st : RingState cfg) : Prop := ∀ e ∈ st.inflight, e.1.val ∉ st.dead

variable {st : RingState cfg} {victim rejoiner donor : Fin cfg.ringSize}

theorem Clean.hop (clean : st.Clean) {i : Nat} {s : Fin cfg.ringSize} {t : Train}
    (here : st.inflight[i]? = some (s, t)) (legal : (st.successor s).val ∉ st.dead) :
    (st.hop i).Clean := by
  obtain ⟨before, after, shape, -, hop⟩ := hop_eq here
  rw [hop]
  intro e inside
  rcases List.mem_append.mp inside with old | new
  · exact clean e ((left_sublist shape).subset old)
  · obtain ⟨out, -, rfl⟩ := List.mem_map.mp new
    exact legal

theorem Clean.start (clean : st.Clean) {p : Fin cfg.ringSize} (legal : p.val ∉ st.dead) :
    (st.start p).Clean := by
  intro e inside
  rcases List.mem_append.mp inside with old | new
  · exact clean e old
  · rw [List.mem_singleton.mp new]
    exact legal

theorem Clean.reissueAll (clean : st.Clean) : st.reissueAll.Clean := by
  have general : ∀ (issuers : List (Fin cfg.ringSize)) (st' : RingState cfg),
      (∀ p ∈ issuers, p.val ∉ st'.dead) → st'.Clean → (issuers.foldl reissue st').Clean := by
    intro issuers
    induction issuers with
    | nil => exact fun _ _ clean => clean
    | cons p rest ih =>
      intro st' legal clean
      exact ih (st'.start p) (fun q later => legal q (List.mem_cons_of_mem _ later))
        (clean.start (legal p List.mem_cons_self))
  exact general _ st (fun p member => mem_members.mp (List.mem_filter.mp member).1) clean

theorem Clean.ring (clean : st.Clean) {action : RingAction cfg} (legal : action.Legal st) :
    (st.apply action).Clean := by
  cases action with
  | broadcast p data => exact clean
  | start p => exact clean.start legal.2.1
  | hop i =>
    obtain ⟨⟨s, t⟩, here, receiver⟩ := legal
    exact clean.hop here receiver

/-- A victim's trains are lost with it. -/
theorem Clean.exclude (clean : st.Clean) (victim : Fin cfg.ringSize) :
    (st.exclude false victim).Clean := by
  refine Clean.reissueAll fun e inside => ?_
  have left : e ∈ st.inflight.filter fun entry => entry.1 ≠ victim := inside
  obtain ⟨old, other⟩ := List.mem_filter.mp left
  have other : e.1 ≠ victim := by simpa using other
  show e.1.val ∉ insert victim.val st.dead
  rw [Finset.mem_insert, not_or, ← Fin.ext_iff]
  exact ⟨other, clean e old⟩

theorem Clean.readmission (clean : st.Clean) (rejoiner donor : Fin cfg.ringSize) :
    (st.readmission rejoiner donor).Clean :=
  Clean.reissueAll fun e inside => fun dead => clean e inside (Finset.mem_of_mem_erase dead)

/-- What process `p` delivers in a step. -/
def delivered (st : RingState cfg) (action : RingAction cfg) (p : Fin cfg.ringSize) : List Entry :=
  match action with
  | .hop i => match st.inflight[i]? with
    | some (sender, train) =>
      if p = st.successor sender then (st.world.node p).handleEntries train else []
    | none => []
  | _ => []

/-- Only the receiver of a hop delivers. -/
theorem delivered_hop (st : RingState cfg) {i : Nat} {s : Fin cfg.ringSize} {t : Train}
    (here : st.inflight[i]? = some (s, t)) (p : Fin cfg.ringSize) :
    st.delivered (.hop i) p =
      if p = st.successor s then (st.world.node p).handleEntries t else [] := by
  simp only [delivered, here]

/-- What is delivered so far, after a hop. -/
theorem append_delivered_hop (st : RingState cfg) (entries : Fin cfg.ringSize → List Entry) {i : Nat}
    {s : Fin cfg.ringSize} {t : Train} (here : st.inflight[i]? = some (s, t)) :
    Function.update entries (st.successor s)
        (entries (st.successor s) ++ (st.world.node (st.successor s)).handleEntries t) =
      fun p => entries p ++ st.delivered (.hop i) p := by
  funext p
  rw [st.delivered_hop here]
  by_cases receiver : p = st.successor s
  · rw [receiver, Function.update_self, if_pos rfl]
  · rw [Function.update_of_ne receiver, if_neg receiver, List.append_nil]

/-- Nothing delivered. -/
theorem append_delivered_none (entries : Fin cfg.ringSize → List Entry) (p : Fin cfg.ringSize) :
    Function.update entries p (entries p ++ []) = fun q => entries q ++ [] := by
  funext q
  rw [List.append_nil, List.append_nil, Function.update_eq_self]

/-! ### The ring when all report -/

/-- The rejoiner has started and the members are frozen. -/
def joined (st : RingState cfg) (rejoiner donor : Fin cfg.ringSize) : RingState cfg :=
  st.freeze.rejoin rejoiner donor

/-- The rejoiner's node. -/
def restarted (st : RingState cfg) (rejoiner donor : Fin cfg.ringSize) : TrainsNode cfg :=
  ((World.initial cfg .totalOrder).node rejoiner).importState
    ((st.world.node donor).setFrozen true).exportState

theorem mem_joined {p : Fin cfg.ringSize} :
    p ∈ (st.joined rejoiner donor).members ↔ p = rejoiner ∨ p.val ∉ st.dead := by
  refine mem_members.trans ?_
  show p.val ∉ st.dead.erase rejoiner.val ↔ _
  rw [Finset.mem_erase, Fin.ext_iff]
  tauto

theorem frozen_member {p : Fin cfg.ringSize} (alive : p.val ∉ st.dead) :
    st.freeze.world.node p = (st.world.node p).setFrozen true ∧
      st.freeze.world.log p = st.world.log p :=
  (World.each_of_mem _ _ (nodup_members _) (mem_members.mpr alive)).imp_right fun log =>
    log.trans (List.append_nil _)

theorem joined_member {p : Fin cfg.ringSize} (alive : p.val ∉ st.dead)
    (dead : rejoiner.val ∈ st.dead) :
    (st.joined rejoiner donor).world.node p = (st.world.node p).setFrozen true ∧
      (st.joined rejoiner donor).world.log p = st.world.log p := by
  have other : p ≠ rejoiner := fun same => alive (same ▸ dead)
  obtain ⟨node, log⟩ := frozen_member alive
  exact ⟨(Function.update_of_ne other _ _).trans node, (Function.update_of_ne other _ _).trans log⟩

theorem joined_rejoiner (alive : donor.val ∉ st.dead) :
    (st.joined rejoiner donor).world.node rejoiner = st.restarted rejoiner donor ∧
      (st.joined rejoiner donor).world.log rejoiner = st.world.log donor := by
  obtain ⟨node, log⟩ := frozen_member alive
  refine ⟨(Function.update_self ..).trans ?_, (Function.update_self ..).trans log⟩
  rw [node]
  rfl

theorem joined_named (named : st.world.Named) (rejoiner donor : Fin cfg.ringSize) :
    (st.joined rejoiner donor).world.Named := by
  have first : st.freeze.world.Named :=
    World.each_preserves _ (fun _ _ _ named => named.act rfl) named
  intro p
  by_cases same : p = rejoiner
  · have node : (st.joined rejoiner donor).world.node rejoiner =
        ((World.initial cfg .totalOrder).node rejoiner).importState
          (st.freeze.world.node donor).exportState := Function.update_self ..
    rw [same, node]
    rfl
  · have node : (st.joined rejoiner donor).world.node p = st.freeze.world.node p :=
      Function.update_of_ne same _ _
    rw [node]
    exact first p

end RingState

open RingState

/-! ### The rejoiner's report -/

/-- What the rejoiner has seen. -/
theorem seenClock_restarted (st : RingState cfg) (rejoiner donor : Fin cfg.ringSize) :
    (st.restarted rejoiner donor).seenClock = (st.world.node donor).seenClock := by
  funext q
  show (Slots.ofFn cfg (st.world.node donor).seenClock).get q = _
  by_cases inside : q < cfg.ringSize
  · exact Slots.get_ofFn _ inside
  · exact (Slots.get_outside _ (not_lt.mp inside)).trans
      (Slots.get_outside _ (not_lt.mp inside)).symm

/-- **The rejoiner reports what its donor has delivered**, with nothing cached or parked. -/
theorem Reporter.restarted {cargo : ClockKey → List Payload} {st : RingState cfg}
    {rejoiner donor : Fin cfg.ringSize} {entries : List Entry}
    (reporter : Reporter view cargo (st.world.node donor) entries)
    (dead : ¬ view.Alive rejoiner) : Reporter view cargo (st.restarted rejoiner donor) entries := by
  have seen := seenClock_restarted st rejoiner donor
  have idle : ¬ view.Issuer rejoiner := fun issuer => dead issuer.2
  exact {
    floor := reporter.floor
    segment := reporter.segment
    done := reporter.done
    loads := reporter.loads
    seenFloor := seen ▸ reporter.seenFloor
    seenIdle := seen ▸ reporter.seenIdle
    seenDone := seen ▸ reporter.seenDone
    parked := fun key train found => by cases found
    cached := fun key payloads found => by cases found
    issued := fun _ => by
      show satSucc (max ((Slots.ofFn cfg (st.world.node donor).seenClock).get rejoiner)
        ((st.world.node donor).viewFloor.get rejoiner)) ≤ view.floor.get rejoiner + 1
      rw [Slots.get_ofFn _ rejoiner.isLt, reporter.seenIdle _ idle, reporter.floor, max_self]
      exact satSucc_le _ }

/-! ### The sequence -/

namespace ViewInvariant

variable {st : RingState cfg} {entries : Fin cfg.ringSize → List Entry}
  {rejoiner donor : Fin cfg.ringSize}

/-- Without senders out of use, a train received is a member's or stale. -/
theorem fences (holds : ViewInvariant view base st entries) (clean : st.Clean) :
    ∀ action, view.Fences st action
  | .broadcast _ _ => trivial
  | .start _ => trivial
  | .hop _ => fun e here => holds.known e (List.mem_of_getElem? here)
      (clean e (List.mem_of_getElem? here))

/-- **A step of the ring in one view.** -/
theorem ring (holds : ViewInvariant view base st entries) {action : RingAction cfg}
    (legal : action.Legal st) (fences : view.Fences st action) :
    ViewInvariant view base (st.apply action) fun p => entries p ++ st.delivered action p := by
  cases action with
  | broadcast p data => exact append_delivered_none entries p ▸ holds.broadcast legal data
  | start p => exact append_delivered_none entries p ▸ holds.start legal.1 legal.2.1
  | hop i =>
    obtain ⟨⟨s, t⟩, here, receiver⟩ := legal
    exact st.append_delivered_hop entries here ▸ holds.hop here receiver (fences _ here)

/-- **Members and rejoiner are ready for the view change.** -/
theorem join (holds : ViewInvariant view base st entries) (clean : st.Clean)
    (dead : rejoiner.val ∈ st.dead) (alive : donor.val ∉ st.dead)
    (covered : Covered view (st.joined rejoiner donor).members
      (st.joined rejoiner donor).world.node (Function.update entries rejoiner (entries donor))) :
    Suspended view base (st.joined rejoiner donor)
      (Function.update entries rejoiner (entries donor)) := by
  have out : ¬ view.Alive rejoiner := fun live => (holds.alive rejoiner).mp live dead
  have donorAlive : view.Alive donor := (holds.alive donor).mpr alive
  have live : ∀ p ∈ st.members, view.Alive p := fun p member =>
    (holds.alive p).mpr (mem_members.mp member)
  obtain ⟨cargo, loads, held, distinct⟩ := holds.exists_cargo live
  have own : ∀ p : Fin cfg.ringSize, p.val ∉ st.dead →
      Function.update entries rejoiner (entries donor) p = entries p := fun p inUse =>
    Function.update_of_ne (fun same : p = rejoiner => inUse (same ▸ dead)) _ _
  have self : Function.update entries rejoiner (entries donor) rejoiner = entries donor :=
    Function.update_self ..
  have gathering : Gathering view cargo (st.joined rejoiner donor).members
      (st.joined rejoiner donor).world.node (Function.update entries rejoiner (entries donor)) := by
    refine Gathering.of_covered (fun p member => ?_) distinct (fun key loaded => ?_) covered
    · rcases mem_joined.mp member with rfl | inUse
      · rw [(joined_rejoiner alive).1, self]
        exact (holds.reporter donorAlive (loads donor (mem_members.mpr alive))).restarted out
      · rw [(joined_member inUse dead).1, own p inUse]
        exact (holds.reporter ((holds.alive p).mpr inUse)
          (loads p (mem_members.mpr inUse))).congr rfl rfl rfl rfl rfl rfl rfl
    · obtain ⟨p, member, has⟩ := held key loaded
      have inUse := mem_members.mp member
      refine ⟨p, mem_joined.mpr (Or.inr inUse), ?_⟩
      rw [(joined_member inUse dead).1, own p inUse]
      exact has
  have seen : ∀ p : Fin cfg.ringSize, p.val ∉ st.dead → ∀ q,
      (st.world.node p).seenClock q ≤ (st.joined rejoiner donor).plan.boundary.get q := by
    intro p inUse q
    have member : p ∈ (st.joined rejoiner donor).members := mem_joined.mpr (Or.inr inUse)
    have known := Gathering.seen_le (st.joined rejoiner donor).world.node member q
    rwa [(joined_member inUse dead).1] at known
  have sent : ∀ e ∈ st.inflight,
      (st.joined rejoiner donor).plan.boundary.get e.2.issuer < e.2.clock →
        e.2.issuer = e.1.val ∧ ∀ q, q ≠ e.1 → e.2.isAckedBy q = false := by
    intro e flying above
    have inUse := clean e flying
    refine (holds.sent e flying inUse).resolve_left fun known => ?_
    exact absurd (known.trans (seen e.1 inUse _)) (not_le.mpr above)
  refine ⟨⟨cargo, gathering⟩, joined_named holds.named rejoiner donor, fun p member => ?_,
    fun p member => ?_, fun p member m waiting => ?_, fun p member => ?_, fun t isOut => ?_,
    fun t isOut issuerAlive above => ?_, fun e flying => List.mem_map_of_mem flying,
    fun e flying _ above => sent e flying above, fun p member idle => ?_⟩
  · rcases mem_joined.mp member with rfl | inUse
    · rw [(joined_rejoiner alive).1]
      rfl
    · rw [(joined_member inUse dead).1]
      exact (holds.coherent.replica p ((holds.alive p).mpr inUse)).mode.trans holds.mode
  · rcases mem_joined.mp member with rfl | inUse
    · rw [(joined_rejoiner alive).2, self]
      exact holds.coherent.logs donor donorAlive
    · rw [(joined_member inUse dead).2, own p inUse]
      exact holds.coherent.logs p ((holds.alive p).mpr inUse)
  · rcases mem_joined.mp member with rfl | inUse
    · rw [(joined_rejoiner alive).1] at waiting
      cases waiting
    · rw [(joined_member inUse dead).1] at waiting ⊢
      exact holds.manifest.queued p ((holds.alive p).mpr inUse) m waiting
  · rcases mem_joined.mp member with rfl | inUse
    · rw [(joined_rejoiner alive).1]
      exact List.nodup_nil
    · rw [(joined_member inUse dead).1]
      exact holds.manifest.distinct p ((holds.alive p).mpr inUse)
  · obtain ⟨e, flying, rfl⟩ := List.mem_map.mp isOut
    exact holds.coherent.ledger.issuers e.2 (holds.flying e flying)
  · obtain ⟨e, flying, rfl⟩ := List.mem_map.mp isOut
    obtain ⟨own, unacked⟩ := sent e flying above
    have sender := clean e flying
    have trains := holds.coherent.ledger.issuers e.2 (holds.flying e flying)
    have live : view.Alive e.2.issuer := by
      rw [own]
      exact (holds.alive e.1).mpr sender
    have isKey : view.Key e.2.key := ⟨⟨trains, live⟩, lt_of_le_of_lt
      (Gathering.floor_le gathering (mem_joined.mpr (Or.inr sender)) e.2.issuer) above⟩
    exact ⟨holds.manifest.listed e.2 (holds.flying e flying) isKey, fun q _ foreign =>
      unacked q fun same => foreign (same ▸ own.symm)⟩
  · rcases mem_joined.mp member with rfl | inUse
    · have reporter := gathering.reporter p member
      have bound := reporter.issued
      have id : ((st.joined p donor).world.node p).id = p.val := joined_named holds.named p donor p
      rw [id] at bound
      refine (bound fun issuer => absurd issuer.1 (not_lt.mpr idle)).trans ?_
      exact Nat.add_le_add_right (Gathering.floor_le gathering member p) 1
    · rw [(joined_member inUse dead).1]
      refine (holds.idle p ((holds.alive p).mpr inUse) fun issuer =>
        absurd issuer.1 (not_lt.mpr idle)).trans ?_
      exact Nat.add_le_add_right (Gathering.floor_le gathering member p) 1

/-- **Members and rejoiner have installed the next view.** -/
theorem rejoined (holds : ViewInvariant view base st entries) (clean : st.Clean)
    (dead : rejoiner.val ∈ st.dead) (alive : donor.val ∉ st.dead)
    (covered : Covered view (st.joined rejoiner donor).members
      (st.joined rejoiner donor).world.node (Function.update entries rejoiner (entries donor))) :
    ∃ log, Aligned (view.including rejoiner (st.joined rejoiner donor).plan.boundary) log
        ((st.joined rejoiner donor).install.readmitNodes rejoiner) ∧
      ∀ p ∈ st.members, st.world.log p <+: log := by
  have suspended := holds.join clean dead alive covered
  set before := st.joined rejoiner donor with beforeEq
  let next := view.including rejoiner before.plan.boundary
  have renamed := readmitNodes_named (install_named suspended.named) rejoiner
  have counted : ∀ p ∈ before.members, (before.install.readmitNodes rejoiner).world.node p =
      (before.install.world.node p).readmitNode rejoiner ∧
        (before.install.readmitNodes rejoiner).world.log p = before.install.world.log p :=
    fun p member => (World.each_of_mem _ _ (nodup_members _) (show p ∈ before.install.members from
      member)).imp_right fun log => log.trans (List.append_nil _)
  have emitted : (before.install.readmitNodes rejoiner).world.emitted = before.world.emitted :=
    (World.each_quiet _ _ (nodup_members _) fun _ _ => rfl).trans suspended.install_emitted
  have live : ∀ p : Fin cfg.ringSize, next.Alive p ↔ p.val ∉ before.dead := fun p => by
    rw [View.alive_including p.isLt, holds.alive,
      show p.val ∉ before.dead ↔ _ from mem_members.symm, beforeEq, mem_joined, or_comm,
      ← Fin.ext_iff]
  have bits : ∀ p ∈ before.members,
      (before.install.world.node p).delivery.crashedBits = view.crashed := fun p member => by
    rw [(install_applied _ member).crashedBits]
    rcases mem_joined.mp member with rfl | inUse
    · rw [beforeEq, (joined_rejoiner alive).1]
      exact (holds.coherent.replica donor ((holds.alive donor).mpr alive)).crashed
    · rw [beforeEq, (joined_member inUse dead).1]
      exact (holds.coherent.replica p ((holds.alive p).mpr inUse)).crashed
  obtain ⟨log, aligned, extends'⟩ := suspended.aligned next
    (before.install.readmitNodes rejoiner) holds.mode rfl live rfl rfl renamed emitted
    (fun p member => (counted p member).2) fun p member => by
      rw [(counted p member).1, readmitNode, DeliveryState.unmarkCrashed, bits p member]
      rfl
  refine ⟨log, aligned, fun p member => ?_⟩
  have inUse := mem_members.mp member
  have same : before.world.log p = st.world.log p := (joined_member inUse dead).2
  rw [← same]
  exact extends' p (mem_joined.mpr (Or.inr inUse))

/-- **The re-admission sequence starts the next view.** -/
theorem readmission (holds : ViewInvariant view base st entries) (clean : st.Clean)
    (dead : rejoiner.val ∈ st.dead) (alive : donor.val ∉ st.dead)
    (covered : Covered view (st.joined rejoiner donor).members
      (st.joined rejoiner donor).world.node (Function.update entries rejoiner (entries donor))) :
    ∃ log, ViewInvariant (view.including rejoiner (st.joined rejoiner donor).plan.boundary) log
        (st.readmission rejoiner donor) (fun _ => []) ∧
      ∀ p ∈ st.members, st.world.log p <+: log := by
  obtain ⟨log, aligned, extends'⟩ := holds.rejoined clean dead alive covered
  exact ⟨log, aligned.viewInvariant.reissueAll, extends'⟩

end ViewInvariant

end TrainsRing
