/-
**No accepted broadcast is lost.**

* `Kept` — an accepted payload is pending or on some train.
* `Gathered` — a train in flight carries everything any train of its key ever carried, and so does
  every ready train: payloads are only added, and only before the train is ready.
* `no_accepted_lost` — **an accepted payload is pending at its sender or travels under exactly one
  key**; the train of that key carries it while it is in flight, and once the issuer has moved on,
  every node has delivered it exactly once or holds it in its parked train of that key.
-/

import TrainsRing.Agreement.Async
import TrainsRing.Ring.Invariant

namespace TrainsRing

variable {cfg : RingConfig} {mode : DeliveryMode} {view : View cfg} {st : RingState cfg}

/-! ### Nothing accepted disappears -/

/-- An accepted payload is pending or on some train. -/
def Kept (w : World cfg) : Prop :=
  ∀ s, ∀ m ∈ w.accepted s, m ∈ (w.node s).pending ∨ ∃ t ∈ w.emitted, m ∈ t.payloads

theorem Kept.act {w : World cfg} (kept : Kept w) {p : Fin cfg.ringSize}
    {result : TrainsNode cfg × List Output}
    (moves : ∀ m ∈ (w.node p).pending, m ∈ result.1.pending ∨
      ∃ t ∈ forwards result.2, m ∈ t.payloads) : Kept (w.act p result) := by
  intro s m accepted
  rcases kept s m accepted with waiting | ⟨t, member, inside⟩
  · by_cases here : s = p
    · subst here
      rw [World.act_node_self]
      exact (moves m waiting).imp_right fun ⟨t, new, inside⟩ =>
        ⟨t, List.mem_append_right _ new, inside⟩
    · rw [w.act_node_of_ne p result here]
      exact Or.inl waiting
  · exact Or.inr ⟨t, List.mem_append_left _ member, inside⟩

theorem Kept.receive {w : World cfg} (kept : Kept w) (p : Fin cfg.ringSize) {t : Train}
    (issuer : t.issuer < cfg.ringSize) : Kept (w.receive p t) := by
  obtain ⟨forwarded, sends, -, traffic, -, -⟩ := w.receive_spec p issuer
  have self : (w.receive p t).node p = ((w.node p).step (.trainReceived t)).1 :=
    w.act_node_self p _
  refine kept.act fun m waiting => ?_
  rw [sends, ← self]
  cases traffic with
  | absorbed _ same =>
    rw [same]
    exact Or.inl waiting
  | relayed _ _ _ queue _ _ _ =>
    rw [queue]
    exact Or.inl waiting
  | loaded _ _ _ _ _ _ =>
    exact Or.inr ⟨_, List.mem_singleton_self _, List.mem_append_right _ waiting⟩
  | issued _ _ _ _ _ => exact Or.inr ⟨_, List.mem_singleton_self _, waiting⟩

theorem Kept.issueInitial {w : World cfg} (kept : Kept w) (p : Fin cfg.ringSize) :
    Kept (w.issueInitial p) :=
  kept.act fun _ waiting => Or.inr ⟨_, List.mem_singleton_self _, waiting⟩

theorem Kept.broadcast {w : World cfg} (kept : Kept w) (p : Fin cfg.ringSize) (data : List UInt8) :
    Kept (w.broadcast p data) := by
  have pending := ((w.node p).handleBroadcast_pending data).1
  have acted : Kept (w.act p ((w.node p).step (.localBroadcast data))) := by
    refine kept.act fun m waiting => Or.inl ?_
    show m ∈ ((w.node p).handleBroadcast data).1.pending
    rw [pending]
    exact List.mem_append_left _ waiting
  intro s m accepted
  have cases : m ∈ w.accepted s ∨ s = p ∧ m ∈ (w.node p).acceptedBy data := by
    by_cases here : s = p
    · subst here
      have taken : m ∈ w.accepted s ++ (w.node s).acceptedBy data := by
        have same : (w.broadcast s data).accepted s = w.accepted s ++ (w.node s).acceptedBy data :=
          Function.update_self ..
        exact same ▸ accepted
      exact (List.mem_append.mp taken).imp_right fun new => ⟨rfl, new⟩
    · have same : (w.broadcast p data).accepted s = w.accepted s := Function.update_of_ne here ..
      exact Or.inl (same ▸ accepted)
  rcases cases with old | ⟨rfl, new⟩
  · exact acted s m old
  · left
    have self : (w.broadcast s data).node s = ((w.node s).handleBroadcast data).1 :=
      w.act_node_self s _
    rw [self, pending]
    exact List.mem_append_right _ new

/-! ### Trains gather -/

/-- A tracked train in flight, and every ready train of a tracked key, carries all that trains of
its key ever carried. -/
structure Gathered (view : View cfg) (st : RingState cfg) : Prop where
  flying : ∀ e ∈ st.inflight, Tracked view e.2 → ∀ t ∈ st.world.emitted, t.key = e.2.key →
    ∀ m ∈ t.payloads, m ∈ e.2.payloads
  ready : ∀ t ∈ st.world.emitted, Tracked view t → view.Ready t.ackBits →
    ∀ t' ∈ st.world.emitted, t'.key = t.key → ∀ m ∈ t'.payloads, m ∈ t.payloads

/-- **A step that sends one train**: it carries all of its key, and if its key is not new, no ready
train of it misses anything. -/
theorem Gathered.send {st' : RingState cfg} {out : Train} (gathered : Gathered view st)
    (emitted : st'.world.emitted = st.world.emitted ++ [out])
    (flying : ∀ e ∈ st'.inflight, Tracked view e.2 → e.2 = out ∨
      e ∈ st.inflight ∧ e.2.issuer ≠ out.issuer)
    (all : Tracked view out → ∀ t ∈ st.world.emitted, t.key = out.key →
      ∀ m ∈ t.payloads, m ∈ out.payloads)
    (late : out ∈ st.world.emitted ∨ ∀ t ∈ st.world.emitted, Tracked view t →
      view.Ready t.ackBits → out.key ≠ t.key) : Gathered view st' := by
  have cases : ∀ t ∈ st'.world.emitted, t ∈ st.world.emitted ∨ t = out := fun t member => by
    rw [emitted] at member
    exact (List.mem_append.mp member).imp_right List.mem_singleton.mp
  have allOut : Tracked view out → ∀ t ∈ st'.world.emitted, t.key = out.key →
      ∀ m ∈ t.payloads, m ∈ out.payloads := by
    intro isTracked t member key m inside
    rcases cases t member with old | rfl
    · exact all isTracked t old key m inside
    · exact inside
  refine ⟨fun e member isTracked t isOut key m inside => ?_,
    fun t member isTracked isReady t' member' key m inside => ?_⟩
  · rcases flying e member isTracked with same | ⟨old, other⟩
    · rw [same] at isTracked key ⊢
      exact allOut isTracked t isOut key m inside
    · rcases cases t isOut with before | rfl
      · exact gathered.flying e old isTracked t before key m inside
      · exact absurd (congrArg ClockKey.issuer key).symm other
  · rcases cases t member with old | rfl
    · rcases cases t' member' with old' | rfl
      · exact gathered.ready t old isTracked isReady t' old' key m inside
      · rcases late with before | never
        · exact gathered.ready t old isTracked isReady t' before key m inside
        · exact absurd key (never t old isTracked isReady)
    · exact allOut isTracked t' member' key m inside

theorem Gathered.quiet {st' : RingState cfg} (gathered : Gathered view st)
    (emitted : st'.world.emitted = st.world.emitted)
    (flying : ∀ e ∈ st'.inflight, e ∈ st.inflight) : Gathered view st' := by
  refine ⟨fun e member => ?_, ?_⟩
  · rw [emitted]
    exact gathered.flying e (flying e member)
  · rw [emitted]
    exact gathered.ready

/-- One hop of a train of the initial view. -/
theorem Gathered.hop {entries : Fin cfg.ringSize → List Entry} (gathered : Gathered (View.initial cfg mode) st)
    (holds : RingInvariant mode st entries) (mode_ne : mode ≠ .causalOrder) {i : Nat}
    {s : Fin cfg.ringSize} {t : Train} (here : st.inflight[i]? = some (s, t))
    (alive : (st.successor s).val ∉ st.dead) : Gathered (View.initial cfg mode) (st.hop i) := by
  obtain ⟨before, after, shape, -, hop⟩ := RingState.hop_eq here
  have member : (s, t) ∈ st.inflight := by
    rw [shape]
    exact List.mem_append_right _ List.mem_cons_self
  have emittedT : t ∈ st.world.emitted := holds.tokens.flying _ member
  have isKey := holds.keyed t emittedT
  have issuer := isKey.1.inside
  have rest : ∀ e ∈ before ++ after, e ∈ st.inflight := fun e inside =>
    (RingState.left_sublist shape).subset inside
  rw [hop]
  have next : nextAlive cfg.ringSize st.dead s = (st.successor s).val := rfl
  generalize st.successor s = r at *
  have live : (View.initial cfg mode).Alive r := View.alive_initial mode r
  have replica := holds.coherent.replica r live
  obtain ⟨forwarded, sends, emitted, traffic, -, -⟩ := st.world.receive_spec r issuer
  have sent : st.sends r t = forwarded.map fun out => (r, out) := congrArg (List.map _) sends
  have fresh := replica.not_stale isKey
  have facts := holds.tokens.sends holds.coherent holds.custody.ids holds.clocks
    (holds.complete mode_ne) member next alive isKey
  rw [sends] at facts
  obtain ⟨out, rfl⟩ : ∃ out, forwarded = [out] := by
    cases traffic with
    | absorbed isStale _ => exact absurd isStale fresh
    | relayed _ _ _ _ _ _ _ => exact ⟨_, rfl⟩
    | loaded _ _ _ _ _ _ => exact ⟨_, rfl⟩
    | issued _ _ _ _ _ => exact ⟨_, rfl⟩
  obtain ⟨sameIssuer, token, -⟩ := facts out (List.mem_singleton_self _)
  refine gathered.send emitted (fun e inside isTracked => ?_) ?_ ?_
  · have inside : e ∈ before ++ after ++ st.sends r t := inside
    rcases List.mem_append.mp inside with old | new
    · refine Or.inr ⟨rest e old, ?_⟩
      rw [sameIssuer]
      exact holds.tokens.apart shape isKey e old isTracked
    · rw [sent] at new
      rw [List.mem_singleton.mp new]
      exact Or.inl rfl
  · intro outTracked t' old key m inside
    have isTracked := (token outTracked).1
    have both : Token _ _ _ s t := holds.tokens.tracked _ member isTracked
    generalize single : [out] = forwarded at traffic
    cases traffic with
    | absorbed isStale _ => exact absurd isStale fresh
    | relayed _ _ _ _ _ _ _ =>
      obtain rfl := List.singleton_inj.mp single
      exact gathered.flying _ member isTracked t' old key m inside
    | loaded _ _ _ _ _ _ =>
      obtain rfl := List.singleton_inj.mp single
      exact List.mem_append_left _ (gathered.flying _ member isTracked t' old key m inside)
    | issued _ own _ _ _ =>
      -- the key is new: no train of that clock was emitted
      obtain rfl := List.singleton_inj.mp single
      have home : r.val = t.issuer := (holds.custody.ids r).symm.trans own.symm
      have stamp := both.stamp home
      have clock : t'.clock = t.clock + 1 := (congrArg ClockKey.clock key).trans stamp
      have newest := both.newest t' old (key ▸ outTracked.1)
        ((congrArg ClockKey.issuer key).trans sameIssuer)
      omega
  · generalize single : [out] = forwarded at traffic
    cases traffic with
    | absorbed isStale _ => exact absurd isStale fresh
    | relayed _ _ _ _ _ _ _ => exact Or.inl (List.singleton_inj.mp single ▸ emittedT)
    | loaded _ foreign new _ _ _ =>
      obtain rfl := List.singleton_inj.mp single
      refine Or.inr fun t' old isTracked' isReady key => ?_
      have other : r.val ≠ t'.issuer := fun same => foreign
        ((congrArg ClockKey.issuer key).trans (same.symm.trans (holds.custody.ids r).symm))
      have seen := holds.coherent.ledger.acks t' old isTracked'.1 r live other
        (isReady.acked r.isLt live)
      have unseen := seen_lt_of_not_replay isKey new
      have sameKey : t.key = t'.key := key
      rw [← show t.issuer = t'.issuer from congrArg ClockKey.issuer sameKey,
        ← show t.clock = t'.clock from congrArg ClockKey.clock sameKey] at seen
      omega
    | issued _ own _ _ _ =>
      obtain rfl := List.singleton_inj.mp single
      refine Or.inr fun t' old isTracked' isReady key => ?_
      have outTracked : Tracked (View.initial cfg mode) (st.world.node r).issueNewTrain.2 :=
        ⟨key ▸ isTracked'.1, lt_of_eq_of_lt (congrArg ClockKey.clock key) isTracked'.2⟩
      have both : Token _ _ _ s t := holds.tokens.tracked _ member (token outTracked).1
      have home : r.val = t.issuer := (holds.custody.ids r).symm.trans own.symm
      have stamp := both.stamp home
      have clock : t.clock + 1 = t'.clock := stamp.symm.trans (congrArg ClockKey.clock key)
      have newest := both.newest t' old isTracked'.1
        ((congrArg ClockKey.issuer key).symm.trans sameIssuer)
      omega

/-- An issuer that starts sends the first train of its key. -/
theorem Gathered.start {entries : Fin cfg.ringSize → List Entry}
    (gathered : Gathered (View.initial cfg mode) st) (holds : RingInvariant mode st entries)
    {p : Fin cfg.ringSize} (issues : p.val < cfg.numTrains) (waiting : p.val ∉ st.started) :
    Gathered (View.initial cfg mode) (st.start p) := by
  have isIssuer : (View.initial cfg mode).Issuer p := ⟨issues, View.alive_initial mode p⟩
  have id : (st.world.node p).issueNewTrain.2.issuer = p.val := holds.custody.ids p
  have unemitted := holds.tokens.unemitted holds.clocks isIssuer waiting
  have new : ∀ t ∈ st.world.emitted, t.key ≠ (st.world.node p).issueNewTrain.2.key :=
    fun t member key => unemitted t member (holds.keyed t member)
      ((congrArg ClockKey.issuer key).trans id)
  refine gathered.send rfl (fun e inside isTracked => ?_)
    (fun _ t member key => absurd key (new t member))
    (Or.inr fun t member _ _ key => new t member key.symm)
  rcases List.mem_append.mp inside with old | isNew
  · refine Or.inr ⟨old, fun same => ?_⟩
    exact (holds.tokens.unstarted p isIssuer waiting).2 e old (same.trans id) isTracked
  · rw [List.mem_singleton.mp isNew]
    exact Or.inl rfl

/-! ### The run -/

/-- The ring invariant, and no payload lost. -/
def LossFree (mode : DeliveryMode) (st : RingState cfg) : Prop :=
  (∃ entries, RingInvariant mode st entries) ∧ Kept st.world ∧
    Gathered (View.initial cfg mode) st

theorem LossFree.step (mode_ne : mode ≠ .causalOrder) {action : RingAction cfg}
    (holds : LossFree mode st) (legal : action.Legal st) : LossFree mode (st.apply action) := by
  obtain ⟨⟨entries, inv⟩, kept, gathered⟩ := holds
  refine ⟨inv.step mode_ne legal, ?_⟩
  cases action with
  | broadcast p data =>
    exact ⟨kept.broadcast p data,
      gathered.quiet (broadcast_keeps st.world p data).1 fun _ member => member⟩
  | start p => exact ⟨kept.issueInitial p, gathered.start inv legal.1 legal.2.2⟩
  | hop i =>
    obtain ⟨⟨s, t⟩, here, alive⟩ := legal
    obtain ⟨before, after, shape, -, hop⟩ := RingState.hop_eq here
    have member : t ∈ st.world.emitted := inv.tokens.flying (s, t) (by
      rw [shape]
      exact List.mem_append_right _ List.mem_cons_self)
    refine ⟨?_, gathered.hop inv mode_ne here alive⟩
    show Kept (st.hop i).world
    rw [hop]
    exact kept.receive _ (inv.keyed t member).1.inside

theorem lossFree_reachable (mode_ne : mode ≠ .causalOrder)
    (reachable : (ringNetwork cfg mode).Reachable st) : LossFree mode st := by
  refine Machine.invariant (P := LossFree mode) ?_
    (fun _ _ holds legal => LossFree.step mode_ne holds legal) reachable
  rintro _ rfl
  refine ⟨⟨_, RingInvariant.initial mode⟩, fun _ _ member => absurd member List.not_mem_nil, ?_⟩
  exact ⟨fun _ member => absurd member List.not_mem_nil,
    fun _ member => absurd member List.not_mem_nil⟩

/-- The issuer of a key has moved on to a later clock. -/
def Recycled (st : RingState cfg) (key : ClockKey) : Prop :=
  ∃ t ∈ st.world.emitted, t.issuer = key.issuer ∧ key.clock < t.clock

/-- **No accepted broadcast is lost** in a ring without crashes, while clocks stay below
`u64::MAX`. -/
theorem no_accepted_lost (reachable : (ringNetwork cfg .uniformTotalOrder).Reachable st)
    (unsaturated : ∀ t ∈ st.world.emitted, t.clock < u64Max) (s : Fin cfg.ringSize) (m : Payload)
    (accepted : m ∈ st.world.accepted s) :
    (m ∈ (st.world.node s).pending ∧ ∀ t ∈ st.world.emitted, m ∉ t.payloads) ∨
      (m ∉ (st.world.node s).pending ∧ ∃ key,
        (∃ t ∈ st.world.emitted, t.key = key ∧ m ∈ t.payloads) ∧
        (∀ t ∈ st.world.emitted, m ∈ t.payloads → t.key = key) ∧
        (∀ e ∈ st.inflight, e.2.key = key → m ∈ e.2.payloads) ∧
        (Recycled st key → ∀ r, (st.world.log r).count m = 1 ∨
          ∃ t, (st.world.node r).parked.get? key = some t ∧ m ∈ t.payloads)) := by
  obtain ⟨⟨entries, inv⟩, kept, gathered⟩ := lossFree_reachable (by decide) reachable
  have tracked : ∀ t ∈ st.world.emitted, Tracked (View.initial cfg .uniformTotalOrder) t :=
    fun t member => ⟨inv.keyed t member, unsaturated t member⟩
  rcases kept s m accepted with waiting | ⟨t, member, inside⟩
  · exact Or.inl ⟨waiting, inv.custody.apart s m waiting⟩
  · refine Or.inr ⟨fun waiting => inv.custody.apart s m waiting t member inside, t.key,
      ⟨t, member, rfl, inside⟩, fun t' member' inside' =>
        inv.custody.oneKey t' member' t member m inside' inside, fun e flying key => ?_,
      fun recycled r => ?_⟩
    · exact gathered.flying e flying (tracked _ (inv.tokens.flying e flying)) t member key.symm m
        inside
    · obtain ⟨later, emitted, issuer, above⟩ := recycled
      have live : (View.initial cfg .uniformTotalOrder).Alive r := View.alive_initial _ r
      have replica := inv.coherent.replica r live
      have full : ∀ t' ∈ st.world.emitted, t'.key = t.key →
          (View.initial cfg .uniformTotalOrder).Ready t'.ackBits → m ∈ t'.payloads :=
        fun t' isOut key isReady =>
          gathered.ready t' isOut (tracked t' isOut) isReady t member key.symm m inside
      have settled : (st.world.node r).Settled t.key := by
        have passed := inv.tokens.passed later emitted (inv.keyed later emitted) t.clock
          (issuer ▸ (inv.keyed t member).2) above r ((inv.tokens.alive r).mp live)
        rw [issuer] at passed
        exact passed
      rcases settled with done | ⟨held, found⟩
      · left
        obtain ⟨entry, delivered, same⟩ :=
          ((replica.done _).mp done).resolve_left (View.not_old_of_key (inv.keyed t member))
        obtain ⟨cargo, isOut, isReady, rfl⟩ := replica.cargo entry delivered
        have shape : st.world.log r = (entries r).flatMap Entry.content := inv.coherent.logs r live
        rw [shape]
        refine List.count_eq_one_of_mem (replica.nodup_contents inv.custody)
          (List.mem_flatMap.mpr ⟨_, delivered, ?_⟩)
        exact mem_sortPayloads.mpr (full cargo isOut same isReady)
      · right
        obtain ⟨⟨key, isOut, isReady⟩, -⟩ := replica.parked t.key held found
        exact ⟨held, found, full held isOut key isReady⟩

/-- Node `1` loads a payload on the train of node `0`, which makes its two laps and is recycled. -/
def recycleRun : List (RingAction .pair) :=
  [.broadcast 1 [7], .start 0, .hop 0, .hop 0, .hop 0, .hop 0]

/-- The ring after those laps. -/
def recycleState : RingState .pair :=
  (ringNetwork .pair .uniformTotalOrder).run (RingState.initial .pair .uniformTotalOrder) recycleRun

theorem no_accepted_lost_pair :
    Recycled recycleState ⟨1, 0⟩ ∧
      ((⟨1, 0, [7]⟩ ∈ (recycleState.world.node 1).pending ∧
          ∀ t ∈ recycleState.world.emitted, ⟨1, 0, [7]⟩ ∉ t.payloads) ∨
        (⟨1, 0, [7]⟩ ∉ (recycleState.world.node 1).pending ∧ ∃ key,
          (∃ t ∈ recycleState.world.emitted, t.key = key ∧ ⟨1, 0, [7]⟩ ∈ t.payloads) ∧
          (∀ t ∈ recycleState.world.emitted, ⟨1, 0, [7]⟩ ∈ t.payloads → t.key = key) ∧
          (∀ e ∈ recycleState.inflight, e.2.key = key → ⟨1, 0, [7]⟩ ∈ e.2.payloads) ∧
          (Recycled recycleState key → ∀ r, (recycleState.world.log r).count ⟨1, 0, [7]⟩ = 1 ∨
            ∃ t, (recycleState.world.node r).parked.get? key = some t ∧
              ⟨1, 0, [7]⟩ ∈ t.payloads))) := by
  have reachable : (ringNetwork .pair .uniformTotalOrder).Reachable recycleState :=
    Machine.reachable_run rfl (by decide +kernel)
  refine ⟨⟨⟨0, 2, [], 1#32⟩, by decide +kernel, rfl, by decide⟩, ?_⟩
  exact no_accepted_lost reachable (by decide +kernel) 1 ⟨1, 0, [7]⟩
    (by decide +kernel)

end TrainsRing
