/-
**The exclude sequence.**

A member crashes; the survivors freeze, confirm the crash, report and install the plan, and the
issuers among them reissue.

* `RingState.halted` — the ring when the survivors report.
* `View.without` — the next view: without the victim, its floor the plan's boundary.
* `ViewInvariant.halt` — the survivors of a view are ready for the change (`Suspended`).
* `ViewInvariant.exclude` — **the exclude sequence starts the next view**: all survivors have one log,
  which extends what each of them had.
-/

import TrainsRing.Reconfig.Change

namespace TrainsRing

variable {cfg : RingConfig} {view : View cfg} {base : List Payload}

open TrainsNode

/-- The view without a process. -/
def View.without (view : View cfg) (victim : Nat) (floor : Slots cfg) : View cfg :=
  ⟨view.mode, floor, view.crashed ||| (1#32 <<< victim)⟩

theorem View.alive_without {victim : Nat} {floor : Slots cfg} {p : Nat}
    (inside : p < cfg.ringSize) : (view.without victim floor).Alive p ↔ view.Alive p ∧ p ≠ victim := by
  have small : p < 32 := by
    have := cfg.le_thirty
    omega
  unfold View.Alive View.without
  rw [hasBit_or _ _ small, hasBit_single _ small]
  simp

namespace RingState

/-- A member has crashed and the survivors are about to report. -/
def halted (st : RingState cfg) (late : Bool) (victim : Fin cfg.ringSize) : RingState cfg :=
  ((st.crash late victim).freeze).confirm victim

variable {st : RingState cfg} {late : Bool} {victim : Fin cfg.ringSize}

/-- A frozen node drains nothing when it confirms a crash. -/
theorem confirmCrash_frozen (node : TrainsNode cfg) (victim : Nat) (frozen : node.frozen = true) :
    node.confirmCrash victim = (node.markCrashed victim, []) := if_pos frozen

/-- What a survivor has done before it reports. -/
theorem halted_member {p : Fin cfg.ringSize} (member : p ∈ (st.halted late victim).members) :
    (st.halted late victim).world.node p =
        ((st.world.node p).setFrozen true).markCrashed victim.val ∧
      (st.halted late victim).world.log p = st.world.log p := by
  have inUse : p ∈ (st.crash late victim).members := member
  have node : (st.crash late victim).freeze.world.node p = (st.world.node p).setFrozen true :=
    (World.each_of_mem _ _ (nodup_members _) inUse).1
  have log : (st.crash late victim).freeze.world.log p = st.world.log p :=
    (World.each_of_mem _ _ (nodup_members _) inUse).2.trans (List.append_nil _)
  obtain ⟨after, appended⟩ := World.each_of_mem (fun node => node.confirmCrash victim.val)
    (st.crash late victim).freeze.world (nodup_members _) inUse
  rw [node, confirmCrash_frozen _ _ rfl] at after appended
  rw [log] at appended
  exact ⟨after, appended.trans (List.append_nil _)⟩

theorem halted_emitted (st : RingState cfg) (late : Bool) (victim : Fin cfg.ringSize) :
    (st.halted late victim).world.emitted = st.world.emitted := by
  have first : (st.crash late victim).freeze.world.emitted = st.world.emitted :=
    World.each_quiet _ _ (nodup_members _) fun _ _ => rfl
  refine (World.each_quiet _ _ (nodup_members _) fun p member => ?_).trans first
  have node : (st.crash late victim).freeze.world.node p = (st.world.node p).setFrozen true :=
    (World.each_of_mem _ _ (nodup_members _) member).1
  rw [node, confirmCrash_frozen _ _ rfl]
  rfl

theorem halted_named (named : st.world.Named) (late : Bool) (victim : Fin cfg.ringSize) :
    (st.halted late victim).world.Named := by
  have first : (st.crash late victim).freeze.world.Named :=
    World.each_preserves _ (fun _ _ _ named => named.act rfl) named
  refine World.each_preserves _ (fun w p _ named => named.act ?_) first
  exact ((w.node p).markCrashed victim).drainParked_entries.1.frame.id

theorem halted_inflight {e : Fin cfg.ringSize × Train}
    (flying : e ∈ (st.halted late victim).inflight) : e ∈ st.inflight := by
  have inside : e ∈ (if late then st.inflight
      else st.inflight.filter fun entry => entry.1 ≠ victim) := flying
  split_ifs at inside
  · exact inside
  · exact (List.mem_filter.mp inside).1

theorem dead_reissueAll (st : RingState cfg) : st.reissueAll.dead = st.dead := by
  have general : ∀ (issuers : List (Fin cfg.ringSize)) (st' : RingState cfg),
      (issuers.foldl reissue st').dead = st'.dead := by
    intro issuers
    induction issuers with
    | nil => exact fun _ => rfl
    | cons p rest ih => exact fun st' => ih (reissue st' p)
  exact general _ st

/-- The survivors are the members of the next view. -/
theorem mem_exclude {p : Fin cfg.ringSize} :
    p ∈ (st.halted late victim).members ↔ p.val ∉ (st.exclude late victim).dead := by
  rw [show (st.exclude late victim).dead = _ from dead_reissueAll _, mem_members]
  rfl

theorem mem_halted {p : Fin cfg.ringSize} :
    p ∈ (st.halted late victim).members ↔ p.val ∉ st.dead ∧ p ≠ victim := by
  refine mem_members.trans ?_
  show p.val ∉ insert victim.val st.dead ↔ _
  rw [Finset.mem_insert, not_or, ← Fin.ext_iff]
  exact And.comm

end RingState

open RingState

namespace ViewInvariant

variable {st : RingState cfg} {entries : Fin cfg.ringSize → List Entry}

/-- What the survivors report: their loads, each held by one of them. -/
theorem gathering (holds : ViewInvariant view base st entries) (late : Bool)
    (victim : Fin cfg.ringSize)
    (covered : Covered view (st.halted late victim).members st.world.node entries) :
    ∃ cargo, Gathering view cargo (st.halted late victim).members
        (st.halted late victim).world.node entries ∧
      ∀ key, cargo key ≠ [] → ∃ p ∈ (st.halted late victim).members,
        Carries (st.world.node p) (entries p) key (cargo key) := by
  have alive : ∀ p ∈ (st.halted late victim).members, view.Alive p := fun p member =>
    (holds.alive p).mpr (mem_halted.mp member).1
  obtain ⟨cargo, loads, held, distinct⟩ := holds.exists_cargo alive
  have frozen : ∀ p ∈ (st.halted late victim).members, (st.halted late victim).world.node p =
      ((st.world.node p).setFrozen true).markCrashed victim := fun p member => (halted_member member).1
  refine ⟨cargo, Gathering.of_covered (fun p member => ?_) distinct (fun key loaded => ?_)
    fun key isKey p member payloads inside loaded ⟨q, member', missing⟩ => ?_, held⟩
  · rw [frozen p member]
    exact (holds.reporter (alive p member) (loads p member)).congr rfl rfl rfl rfl rfl rfl rfl
  · obtain ⟨p, member, has⟩ := held key loaded
    refine ⟨p, member, ?_⟩
    rw [frozen p member]
    exact has
  · rw [frozen q member'] at missing
    obtain ⟨r, member'', found⟩ := covered key isKey p member payloads inside loaded
      ⟨q, member', missing⟩
    refine ⟨r, member'', ?_⟩
    rw [frozen r member'']
    exact found

/-- **The survivors are ready for the view change.** -/
theorem halt (holds : ViewInvariant view base st entries) (late : Bool) (victim : Fin cfg.ringSize)
    (covered : Covered view (st.halted late victim).members st.world.node entries) :
    Suspended view base (st.halted late victim) entries := by
  have alive : ∀ p ∈ (st.halted late victim).members, view.Alive p := fun p member =>
    (holds.alive p).mpr (mem_halted.mp member).1
  obtain ⟨cargo, gathering, -⟩ := holds.gathering late victim covered
  have frozen : ∀ p ∈ (st.halted late victim).members, (st.halted late victim).world.node p =
      ((st.world.node p).setFrozen true).markCrashed victim := fun p member => (halted_member member).1
  have seen : ∀ p ∈ (st.halted late victim).members, ∀ q,
      (st.world.node p).seenClock q ≤ (st.halted late victim).plan.boundary.get q := by
    intro p member q
    have known := Gathering.seen_le (st.halted late victim).world.node member q
    rwa [frozen p member] at known
  refine ⟨⟨cargo, gathering⟩, halted_named holds.named late victim, fun p member => ?_,
    fun p member => ?_, fun p member => ?_, fun p member => ?_, fun t isOut => ?_,
    fun t isOut issuerAlive above => ?_, fun e flying => ?_, fun e flying live above => ?_,
    fun p member idle => ?_⟩
  · rw [frozen p member]
    exact (holds.coherent.replica p (alive p member)).mode.trans holds.mode
  · rw [(halted_member member).2]
    exact holds.coherent.logs p (alive p member)
  · rw [frozen p member]
    exact holds.manifest.queued p (alive p member)
  · rw [frozen p member]
    exact holds.manifest.distinct p (alive p member)
  · rw [halted_emitted] at isOut
    exact holds.coherent.ledger.issuers t isOut
  · rw [halted_emitted] at isOut
    have trains := holds.coherent.ledger.issuers t isOut
    have inside : t.issuer < cfg.ringSize := lt_of_lt_of_le trains cfg.trains_le
    have member : ⟨t.issuer, inside⟩ ∈ (st.halted late victim).members := mem_members.mpr issuerAlive
    have floor := (Gathering.floor_le gathering member t.issuer)
    have isKey : view.Key t.key :=
      ⟨⟨trains, alive _ member⟩, lt_of_le_of_lt floor above⟩
    refine ⟨holds.manifest.listed t isOut isKey, fun q inQ foreign => ?_⟩
    -- a member that had acked it would have seen it
    by_contra acked
    have known := holds.coherent.ledger.acks t isOut isKey q (alive q inQ) foreign
      (by simpa using acked)
    exact absurd (known.trans (seen q inQ t.issuer)) (not_le.mpr above)
  · rw [halted_emitted]
    exact holds.flying e (halted_inflight flying)
  · have sender : e.1 ∈ (st.halted late victim).members := mem_members.mpr live
    refine (holds.sent e (halted_inflight flying) (mem_halted.mp sender).1).resolve_left fun known => ?_
    exact absurd (known.trans (seen e.1 sender _)) (not_le.mpr above)
  · rw [frozen p member]
    refine (holds.idle p (alive p member) fun issuer => absurd issuer.1 (not_lt.mpr idle)).trans ?_
    exact Nat.add_le_add_right (Gathering.floor_le gathering member p) 1

/-- **The survivors have installed the next view.** -/
theorem installed (holds : ViewInvariant view base st entries) (late : Bool)
    (victim : Fin cfg.ringSize)
    (covered : Covered view (st.halted late victim).members st.world.node entries) :
    ∃ log, Aligned (view.without victim (st.halted late victim).plan.boundary) log
        (st.halted late victim).install ∧
      ∀ p ∈ (st.halted late victim).members, st.world.log p <+: log := by
  have suspended := holds.halt late victim covered
  let next := view.without victim (st.halted late victim).plan.boundary
  have alive : ∀ p : Fin cfg.ringSize, next.Alive p ↔ p.val ∉ (st.halted late victim).dead :=
    fun p => by
      rw [View.alive_without p.isLt, holds.alive,
        show p.val ∉ (st.halted late victim).dead ↔ _ from mem_members.symm,
        mem_halted, Ne, Ne, Fin.ext_iff]
  have bits : ∀ p ∈ (st.halted late victim).members,
      ((st.halted late victim).install.world.node p).delivery.crashedBits = next.crashed :=
    fun p member => by
      have replica := holds.coherent.replica p ((holds.alive p).mpr (mem_halted.mp member).1)
      rw [(install_applied _ member).crashedBits, (halted_member member).1]
      exact congrArg (· ||| (1#32 <<< victim.val)) replica.crashed
  obtain ⟨log, aligned, extends'⟩ := suspended.aligned next (st.halted late victim).install
    holds.mode rfl alive rfl rfl (install_named suspended.named) suspended.install_emitted
    (fun _ _ => rfl) fun p member => by
      rw [← bits p member]
  refine ⟨log, aligned, fun p member => ?_⟩
  rw [← (halted_member member).2]
  exact extends' p member

/-- **The exclude sequence starts the next view.** -/
theorem exclude (holds : ViewInvariant view base st entries) (late : Bool)
    (victim : Fin cfg.ringSize)
    (covered : Covered view (st.halted late victim).members st.world.node entries) :
    ∃ log, ViewInvariant (view.without victim (st.halted late victim).plan.boundary) log
        (st.exclude late victim) (fun _ => []) ∧
      ∀ p ∈ (st.halted late victim).members, st.world.log p <+: log := by
  obtain ⟨log, aligned, extends'⟩ := holds.installed late victim covered
  exact ⟨log, aligned.viewInvariant.reissueAll, extends'⟩

end ViewInvariant

end TrainsRing
