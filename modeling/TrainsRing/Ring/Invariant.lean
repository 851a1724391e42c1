/-
**The invariant of the ring without crashes.**

All processes stay in use and in the initial view, so every train is of a live issuer and the laps
of `Tokens` apply to every hop.

* `RingInvariant` — custody, agreement, clocks and laps together.
* `RingInvariant.step` — **every step keeps it**; `ringInvariant_reachable` is the run lemma.
-/

import TrainsRing.Agreement.Custody
import TrainsRing.Ring.Tokens

namespace TrainsRing

variable {cfg : RingConfig} {mode : DeliveryMode}

/-- No process outside the ring has acked a train. -/
def InRing (w : World cfg) : Prop :=
  ∀ t ∈ w.emitted, ∀ q, cfg.ringSize ≤ q → q < 32 → t.isAckedBy q = false

theorem InRing.add {w : World cfg} (inRing : InRing w) (custody : Custody w) {p : Fin cfg.ringSize}
    {forwarded : List Train} {w' : World cfg} (emitted : w'.emitted = w.emitted ++ forwarded)
    (cases : ∀ out ∈ forwarded, out ∈ w.emitted ∨ out = (w.node p).issueNewTrain.2 ∨
      ∃ t ∈ w.emitted, out = (w.node p).loadTrain t) : InRing w' := by
  intro t member q outside small
  have other : q ≠ (w.node p).id := fun same => by
    have inside := p.isLt
    rw [custody.ids p] at same
    omega
  rw [emitted] at member
  rcases List.mem_append.mp member with old | new
  · exact inRing t old q outside small
  · rcases cases t new with old | rfl | ⟨t', old, rfl⟩
    · exact inRing t old q outside small
    · rw [TrainsNode.issueNewTrain, isAckedBy_new small]
      exact decide_eq_false other
    · rw [TrainsNode.loadTrain, Train.isAckedBy_addAck _ _ small, decide_eq_false other,
        Bool.or_false]
      exact inRing t' old q outside small

/-- In the initial view, the acks of the whole ring make a train ready. -/
theorem complete_initial {w : World cfg} (inRing : InRing w) (mode_ne : mode ≠ .causalOrder) :
    Complete (View.initial cfg mode) w := by
  intro t member acked
  cases mode with
  | uniformTotalOrder =>
    have full : t.ackBits = fullAck cfg := by
      refine BitVec.eq_of_getLsbD_eq fun q small => ?_
      rw [← hasBit_eq _ small, ← hasBit_eq _ small, hasBit_fullAck cfg small]
      by_cases inside : q < cfg.ringSize
      · rw [decide_eq_true inside]
        exact acked ⟨q, inside⟩ (View.alive_initial _ q)
      · rw [decide_eq_false inside]
        exact inRing t member q (not_lt.mp inside) small
    show (t.ackBits == fullAck cfg) = true
    rw [full]
    exact beq_self_eq_true _
  | totalOrder =>
    exact (DeliveryState.readyToDeliver_totalOrder _ t.ackBits).mpr fun p inside _ =>
      acked ⟨p, inside⟩ (View.alive_initial _ p)
  | causalOrder => exact absurd rfl mode_ne

/-- The invariant of the ring without crashes. -/
structure RingInvariant (mode : DeliveryMode) (st : RingState cfg)
    (entries : Fin cfg.ringSize → List Entry) : Prop where
  custody : Custody st.world
  coherent : Coherent (View.initial cfg mode) [] st.world entries
  clocks : Clocks (View.initial cfg mode) st.world
  tokens : Tokens (View.initial cfg mode) st
  inRing : InRing st.world
  keyed : ∀ t ∈ st.world.emitted, (View.initial cfg mode).Key t.key

namespace RingInvariant

variable {st : RingState cfg} {entries : Fin cfg.ringSize → List Entry}

theorem initial (mode : DeliveryMode) :
    RingInvariant mode (RingState.initial cfg mode) fun _ => [] :=
  ⟨Custody.initial mode, Coherent.initial mode, Clocks.initial mode, Tokens.initial mode,
    fun _ member => absurd member List.not_mem_nil, fun _ member => absurd member List.not_mem_nil⟩

theorem complete (holds : RingInvariant mode st entries) (mode_ne : mode ≠ .causalOrder) :
    Complete (View.initial cfg mode) st.world := complete_initial holds.inRing mode_ne

/-- A train an issuer stamps is a train of the view. -/
theorem key_issued (holds : RingInvariant mode st entries) {p : Fin cfg.ringSize}
    (issues : p.val < cfg.numTrains) :
    (View.initial cfg mode).Key (st.world.node p).issueNewTrain.2.key := by
  have issuer : (st.world.node p).issueNewTrain.2.key.issuer = p.val := holds.custody.ids p
  have isIssuer : (View.initial cfg mode).Issuer p := ⟨issues, View.alive_initial mode p⟩
  have stamp : (st.world.node p).issueNewTrain.2.key.clock = st.world.issueClock p :=
    (st.world.issueClock_eq p).symm
  refine ⟨issuer ▸ isIssuer, ?_⟩
  rw [stamp, issuer]
  exact lt_of_eq_of_lt (Slots.get_zero p) (holds.clocks.bounds p isIssuer).1

/-- **Every step keeps the invariant.** -/
theorem step (holds : RingInvariant mode st entries) (mode_ne : mode ≠ .causalOrder)
    {action : RingAction cfg} (legal : action.Legal st) :
    ∃ entries', RingInvariant mode (st.apply action) entries' := by
  have live : ∀ q, (View.initial cfg mode).Alive q := View.alive_initial mode
  cases action with
  | broadcast p data =>
    refine ⟨_, holds.custody.broadcast p data, holds.coherent.broadcast (live p) data,
      holds.clocks.broadcast p data, holds.tokens.broadcast p data, fun t member => ?_,
      fun t member => ?_⟩
    · exact holds.inRing t ((broadcast_keeps st.world p data).1 ▸ member)
    · exact holds.keyed t ((broadcast_keeps st.world p data).1 ▸ member)
  | start p =>
    obtain ⟨issues, -, waiting⟩ := legal
    obtain ⟨tokens, clocks⟩ := holds.tokens.start holds.custody.ids holds.clocks
      ⟨issues, live p⟩ waiting
    refine ⟨_, holds.custody.issueInitial p, holds.coherent.issueInitial holds.custody.ids (live p)
      issues, clocks, tokens, ?_, fun t member => ?_⟩
    · exact holds.inRing.add holds.custody (issueInitial_keeps st.world p).1 fun out new =>
        Or.inr (Or.inl (List.mem_singleton.mp new))
    · rcases List.mem_append.mp member with old | new
      · exact holds.keyed t old
      · rw [List.mem_singleton.mp new]
        exact holds.key_issued issues
  | hop i =>
    obtain ⟨⟨s, t⟩, here, alive⟩ := legal
    obtain ⟨before, after, shape, -, hop⟩ := RingState.hop_eq here
    have member : t ∈ st.world.emitted := holds.tokens.flying (s, t) (by
      rw [shape]
      exact List.mem_append_right _ List.mem_cons_self)
    have issuer := (holds.keyed t member).1.inside
    obtain ⟨tokens, clocks⟩ := holds.tokens.hop holds.coherent holds.custody.ids holds.clocks
      (holds.complete mode_ne) here alive fun _ => live _
    obtain ⟨delivered, coherent⟩ := holds.coherent.receive holds.custody.ids
      (live (st.successor s)) member fun _ => live _
    have same : (st.hop i).world = st.world.receive (st.successor s) t :=
      congrArg RingState.world hop
    have custody := holds.custody.receive (p := st.successor s) member issuer
    rw [← same] at coherent custody
    obtain ⟨forwarded, -, emitted, traffic, -, -⟩ :=
      st.world.receive_spec (st.successor s) issuer
    have cases : ∀ out ∈ forwarded, out ∈ st.world.emitted ∨
        (out = (st.world.node (st.successor s)).issueNewTrain.2 ∧
          (st.successor s).val < cfg.numTrains) ∨
        out = (st.world.node (st.successor s)).loadTrain t := by
      intro out new
      cases traffic with
      | absorbed _ _ => cases new
      | relayed _ _ _ _ _ _ _ => exact Or.inl (List.mem_singleton.mp new ▸ member)
      | loaded _ _ _ _ _ _ => exact Or.inr (Or.inr (List.mem_singleton.mp new))
      | issued _ own _ _ _ =>
        refine Or.inr (Or.inl ⟨List.mem_singleton.mp new, ?_⟩)
        rw [← holds.custody.ids (st.successor s), ← own]
        exact (holds.keyed t member).1.1
    refine ⟨_, custody, coherent, clocks, tokens, ?_, fun out inside => ?_⟩
    · show InRing (st.hop i).world
      rw [same]
      refine holds.inRing.add (p := st.successor s) holds.custody emitted fun out new => ?_
      exact (cases out new).imp_right (Or.imp And.left fun loaded => ⟨t, member, loaded⟩)
    · have inside : out ∈ st.world.emitted ++ forwarded := emitted ▸ same ▸ inside
      rcases List.mem_append.mp inside with old | new
      · exact holds.keyed out old
      · rcases cases out new with old | ⟨rfl, issues⟩ | rfl
        · exact holds.keyed out old
        · exact holds.key_issued issues
        · exact holds.keyed t member

end RingInvariant

theorem ringInvariant_reachable {st : RingState cfg} (mode_ne : mode ≠ .causalOrder)
    (reachable : (ringNetwork cfg mode).Reachable st) :
    ∃ entries, RingInvariant mode st entries := by
  refine Machine.invariant (P := fun st => ∃ entries, RingInvariant mode st entries) ?_ ?_ reachable
  · rintro _ rfl
    exact ⟨_, RingInvariant.initial mode⟩
  · rintro st action ⟨entries, holds⟩ legal
    exact holds.step mode_ne legal

end TrainsRing
