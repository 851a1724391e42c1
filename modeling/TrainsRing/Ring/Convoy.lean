/-
**No train overtakes another on its first lap.**

On FIFO links a train on its first lap stays ahead of every train of a later clock. `Unreturned` says
that a train is on its first lap: its issuer has not seen it come back. For two such trains of
different clocks, `Follows` says that the earlier one has passed the other's issuer and is not
behind the other.

The invariant does not bound the clocks: a train that an issuer stamps with a saturated clock again
has been seen everywhere and is not on a first lap.

* `Convoy` — the invariant; `Convoy.send` — what a step has to show about the train it sends.
* `Convoy.hop` — **a FIFO hop keeps it**.
* `Convoy.seen_le` — a process that an unreturned train has not visited has seen no later clock.
-/

import TrainsRing.Ring.Invariant

namespace TrainsRing

variable {cfg : RingConfig} {w w' : World cfg} {st : RingState cfg} {mode : DeliveryMode}

/-- The issuer has not seen this clock come back. -/
def Unreturned (w : World cfg) (t : Train) : Prop :=
  ∀ q : Fin cfg.ringSize, q.val = t.issuer → (w.node q).seenClock t.issuer < t.clock

/-- If `b` is the later train, `a` has passed its issuer and is at least `gap` ahead of it. -/
def Follows (a b : Fin cfg.ringSize × Train) (gap : Nat) : Prop :=
  a.2.clock < b.2.clock → Arc cfg.ringSize a.2.issuer a.1 b.2.issuer ∧
    behind cfg.ringSize b.2.issuer b.1 + gap ≤ behind cfg.ringSize b.2.issuer a.1

/-- Two trains in flight on their first laps, the first sent earlier. -/
def InOrder (w : World cfg) (a b : Fin cfg.ringSize × Train) : Prop :=
  Unreturned w a.2 → Unreturned w b.2 → Follows a b 0 ∧ Follows b a 1

/-- `InOrder`, whichever of the two was sent first. -/
def Abreast (w : World cfg) (a b : Fin cfg.ringSize × Train) : Prop :=
  Unreturned w a.2 → Unreturned w b.2 → Follows a b 0 ∧ Follows b a 0

instance (w : World cfg) : Std.Symm (Abreast w) :=
  ⟨fun _ _ abreast left right => (abreast right left).symm⟩

theorem InOrder.abreast {a b : Fin cfg.ringSize × Train} (ordered : InOrder w a b) :
    Abreast w a b := fun left right =>
  ⟨(ordered left right).1, fun clock =>
    ⟨((ordered left right).2 clock).1, (Nat.le_succ _).trans ((ordered left right).2 clock).2⟩⟩

/-- The trains of a FIFO ring without crashes. -/
structure Convoy (mode : DeliveryMode) (st : RingState cfg) : Prop where
  visited : ∀ e ∈ st.inflight, Unreturned st.world e.2 → ∀ x : Fin cfg.ringSize,
    x.val ≠ e.2.issuer → (Arc cfg.ringSize e.2.issuer e.1 x ↔
      e.2.clock ≤ (st.world.node x).seenClock e.2.issuer)
  single : st.inflight.Pairwise fun a b => a.2.issuer ≠ b.2.issuer
  flight : ∀ t ∈ st.world.emitted, Unreturned st.world t → ∃ e ∈ st.inflight, e.2.key = t.key
  order : ∀ e ∈ st.inflight, Unreturned st.world e.2 → ∀ t ∈ st.world.emitted,
    e.2.clock < t.clock → Unreturned st.world t
  follows : st.inflight.Pairwise (InOrder st.world)
  gate : ∀ t ∈ st.world.emitted, ∀ q : Fin cfg.ringSize, q.val = t.issuer →
    ∀ i, (View.initial cfg mode).Issuer i → t.clock ≤ (st.world.node q).seenClock i + 1
  returned : ∀ t ∈ st.world.emitted, ¬ Unreturned st.world t →
    ∀ x : Fin cfg.ringSize, t.clock ≤ (st.world.node x).seenClock t.issuer

/-- What stays in flight when nothing but trains of `q` is taken out. -/
structure Remains (st : RingState cfg) (q : Nat) (rest : List (Fin cfg.ringSize × Train)) :
    Prop where
  sub : rest.Sublist st.inflight
  left : ∀ e ∈ st.inflight, e ∈ rest ∨ e.2.issuer = q
  others : ∀ e ∈ rest, e.2.issuer ≠ q

theorem Unreturned.back {t : Train} (grows : ∀ x q, (w.node x).seenClock q ≤ (w'.node x).seenClock q)
    (unreturned : Unreturned w' t) : Unreturned w t :=
  fun q home => lt_of_le_of_lt (grows q _) (unreturned q home)

theorem Unreturned.keep {t : Train}
    (same : ∀ x, (w'.node x).seenClock t.issuer = (w.node x).seenClock t.issuer) :
    Unreturned w' t ↔ Unreturned w t := by
  unfold Unreturned
  exact forall_congr' fun q => by rw [same]

namespace Convoy

/-- **A step that sends one train** `out` and takes at most a train of the same issuer out of flight:
everything to show is about the issuer of `out`. -/
theorem send (convoy : Convoy mode st) {rest : List (Fin cfg.ringSize × Train)}
    {r : Fin cfg.ringSize} {out : Train} (started : Finset Nat)
    (remains : Remains st out.issuer rest)
    (emitted : w'.emitted = st.world.emitted ++ [out])
    (grows : ∀ x q, (st.world.node x).seenClock q ≤ (w'.node x).seenClock q)
    (same : ∀ x q, q ≠ out.issuer → (w'.node x).seenClock q = (st.world.node x).seenClock q)
    (visited : Unreturned w' out → ∀ x : Fin cfg.ringSize, x.val ≠ out.issuer →
      (Arc cfg.ringSize out.issuer r x ↔ out.clock ≤ (w'.node x).seenClock out.issuer))
    (flight : ∀ t ∈ st.world.emitted, t.issuer = out.issuer → Unreturned w' t → t.key = out.key)
    (later : ∀ e ∈ rest, Unreturned st.world e.2 → ∀ t ∈ st.world.emitted, t.issuer = out.issuer →
      e.2.clock < t.clock → Unreturned w' t)
    (laterOut : ∀ e ∈ rest, Unreturned st.world e.2 → e.2.clock < out.clock → Unreturned w' out)
    (newest : Unreturned w' out → ∀ t ∈ st.world.emitted, out.clock < t.clock → Unreturned w' t)
    (follows : ∀ e ∈ rest, Unreturned st.world e.2 → Unreturned w' out →
      Follows e (r, out) 0 ∧ Follows (r, out) e 1)
    (gate : ∀ q : Fin cfg.ringSize, q.val = out.issuer → ∀ i, (View.initial cfg mode).Issuer i →
      out.clock ≤ (w'.node q).seenClock i + 1)
    (returned : ∀ t ∈ st.world.emitted ++ [out], t.issuer = out.issuer → ¬ Unreturned w' t →
      ∀ x : Fin cfg.ringSize, t.clock ≤ (w'.node x).seenClock t.issuer) :
    Convoy mode { st with world := w', started, inflight := rest ++ [(r, out)] } := by
  have cases : ∀ t ∈ w'.emitted, t ∈ st.world.emitted ∨ t = out := fun t member => by
    rw [emitted] at member
    exact (List.mem_append.mp member).imp_right List.mem_singleton.mp
  have inflight : ∀ e ∈ rest ++ [(r, out)], e ∈ rest ∨ e = (r, out) := fun e member =>
    (List.mem_append.mp member).imp_right List.mem_singleton.mp
  have still : ∀ t : Train, t.issuer ≠ out.issuer → (Unreturned w' t ↔ Unreturned st.world t) :=
    fun t other => Unreturned.keep fun x => same x _ other
  have back : ∀ e ∈ rest, Unreturned w' e.2 → Unreturned st.world e.2 :=
    fun e _ unreturned => unreturned.back grows
  refine ⟨fun e member unreturned x foreign => ?_, ?_, fun t member unreturned => ?_,
    fun e member unreturned t isOut clock => ?_, ?_, fun t member q home i issuer => ?_,
    fun t member isBack x => ?_⟩
  · rcases inflight e member with old | rfl
    · rw [show (w'.node x).seenClock e.2.issuer = (st.world.node x).seenClock e.2.issuer from
        same x _ (remains.others e old)]
      exact convoy.visited e (remains.sub.subset old) (back e old unreturned) x foreign
    · exact visited unreturned x foreign
  · refine List.pairwise_append.mpr ⟨convoy.single.sublist remains.sub, List.pairwise_singleton _ _, ?_⟩
    intro a inRest b isNew
    rw [List.mem_singleton.mp isNew]
    exact remains.others a inRest
  · rcases cases t member with old | rfl
    · by_cases own : t.issuer = out.issuer
      · exact ⟨(r, out), List.mem_append_right _ (List.mem_singleton_self _),
          (flight t old own unreturned).symm⟩
      · obtain ⟨e, flying, key⟩ := convoy.flight t old ((still t own).mp unreturned)
        have issuer : e.2.issuer = t.issuer := congrArg ClockKey.issuer key
        exact ⟨e, List.mem_append_left _ ((remains.left e flying).resolve_right fun clash =>
          own (issuer.symm.trans clash)), key⟩
    · exact ⟨(r, t), List.mem_append_right _ (List.mem_singleton_self _), rfl⟩
  · rcases inflight e member with old | rfl
    · have before := back e old unreturned
      rcases cases t isOut with known | rfl
      · by_cases own : t.issuer = out.issuer
        · exact later e old before t known own clock
        · exact (still t own).mpr (convoy.order e (remains.sub.subset old) before t known clock)
      · exact laterOut e old before clock
    · rcases cases t isOut with known | rfl
      · exact newest unreturned t known clock
      · exact unreturned
  · refine List.pairwise_append.mpr ⟨(convoy.follows.sublist remains.sub).imp_of_mem
      fun {a b} inLeft inRight ordered left right =>
        ordered (back a inLeft left) (back b inRight right), List.pairwise_singleton _ _, ?_⟩
    intro a inRest b isNew
    rw [List.mem_singleton.mp isNew]
    exact fun unreturned isOut => follows a inRest (back a inRest unreturned) isOut
  · rcases cases t member with old | rfl
    · exact (convoy.gate t old q home i issuer).trans (Nat.succ_le_succ (grows q i))
    · exact gate q home i issuer
  · by_cases own : t.issuer = out.issuer
    · exact returned t (emitted ▸ member) own isBack x
    · have old : t ∈ st.world.emitted := (cases t member).resolve_right fun isNew =>
        own (congrArg Train.issuer isNew)
      rw [show (w'.node x).seenClock t.issuer = (st.world.node x).seenClock t.issuer from
        same x _ own]
      exact convoy.returned t old (fun unreturned => isBack ((still t own).mpr unreturned)) x

/-! ### Hops -/

variable {entries : Fin cfg.ringSize → List Entry}

/-- An unreturned train is in flight, so a train in flight is the unreturned one of its issuer. -/
theorem key_of_unreturned (convoy : Convoy mode st)
    {before after : List (Fin cfg.ringSize × Train)} {s : Fin cfg.ringSize} {t : Train}
    (shape : st.inflight = before ++ (s, t) :: after) {t' : Train} (member : t' ∈ st.world.emitted)
    (issuer : t'.issuer = t.issuer) (unreturned : Unreturned st.world t') : t'.key = t.key := by
  obtain ⟨e, flying, key⟩ := convoy.flight t' member unreturned
  have same : e.2.issuer = t.issuer := (congrArg ClockKey.issuer key).trans issuer
  have single := convoy.single
  rw [shape, List.pairwise_middle fun different clash => different clash.symm] at single
  rw [shape] at flying
  rcases List.mem_append.mp flying with front | back
  · exact absurd same.symm ((List.pairwise_cons.mp single).1 e (List.mem_append_left _ front))
  · rcases List.mem_cons.mp back with rfl | back
    · exact key.symm
    · exact absurd same.symm ((List.pairwise_cons.mp single).1 e (List.mem_append_right _ back))

/-- **What FIFO gives**: the train about to hop is strictly behind every earlier train on its first
lap, and not ahead of a later one. -/
theorem spacing (convoy : Convoy mode st) {before after : List (Fin cfg.ringSize × Train)}
    {s : Fin cfg.ringSize} {t : Train} (shape : st.inflight = before ++ (s, t) :: after)
    (issuer : t.issuer < cfg.ringSize) (fifo : ∀ e ∈ before, e.1 ≠ s)
    (unreturned : Unreturned st.world t) :
    ∀ e ∈ before ++ after, Unreturned st.world e.2 → Follows e (s, t) 1 ∧ Follows (s, t) e 0 := by
  have pairs := convoy.follows
  rw [shape] at pairs
  obtain ⟨-, tail, cross⟩ := List.pairwise_append.mp pairs
  intro e inside isOut
  rcases List.mem_append.mp inside with front | back
  · obtain ⟨ahead, behind'⟩ := cross e front (s, t) List.mem_cons_self isOut unreturned
    refine ⟨fun clock => ⟨(ahead clock).1, ?_⟩, fun clock => ⟨(behind' clock).1, ?_⟩⟩
    · have apart : behind cfg.ringSize t.issuer s ≠ behind cfg.ringSize t.issuer e.1 :=
        fun same => fifo e front (Fin.ext (behind_injective issuer s.isLt e.1.isLt same).symm)
      have near := (ahead clock).2
      show behind cfg.ringSize t.issuer s + 1 ≤ behind cfg.ringSize t.issuer e.1
      exact lt_of_le_of_ne near apart
    · have near := (behind' clock).2
      exact (Nat.le_succ _).trans near
  · obtain ⟨behind', ahead⟩ := (List.pairwise_cons.mp tail).1 e back unreturned isOut
    exact ⟨ahead, behind'⟩

/-- A clock seen of an issuer without unreturned trains is seen by the issuer itself. -/
theorem seen_back (holds : RingInvariant mode st entries) {q x : Fin cfg.ringSize}
    (issuer : (View.initial cfg mode).Issuer q) {c : Nat} (positive : 1 ≤ c)
    (seen : c ≤ (st.world.node x).seenClock q) :
    ∃ t ∈ st.world.emitted, t.issuer = q.val ∧ c ≤ t.clock := by
  rcases holds.clocks.source x (View.alive_initial mode x) q issuer with floor | stored
  · rw [floor] at seen
    exact absurd (positive.trans seen) (by rw [View.initial, Slots.get_zero]; decide)
  · obtain ⟨t, member, -, same, clock⟩ := stored
    exact ⟨t, member, same, clock ▸ seen⟩

/-- **An issuer sends a new train** when none of its trains is on its first lap and it has seen every
issuer's previous clock. -/
theorem issue (convoy : Convoy mode st) (holds : RingInvariant mode st entries)
    {rest : List (Fin cfg.ringSize × Train)} {q : Fin cfg.ringSize} {out : Train}
    (started : Finset Nat) (remains : Remains st out.issuer rest)
    (emitted : w'.emitted = st.world.emitted ++ [out])
    (issuer : (View.initial cfg mode).Issuer q)
    (stamp : out.issuer = q.val ∧ out.clock = st.world.issueClock q)
    (seen : ∀ x i, (w'.node x).seenClock i = (st.world.node x).seenClock i)
    (back : ∀ t ∈ st.world.emitted, t.issuer = q.val → ¬ Unreturned st.world t)
    (caught : ∀ i, (View.initial cfg mode).Issuer i →
      out.clock ≤ (st.world.node q).seenClock i + 1) :
    Convoy mode { st with world := w', started, inflight := rest ++ [(q, out)] } := by
  have still : ∀ t : Train, Unreturned w' t ↔ Unreturned st.world t :=
    fun t => Unreturned.keep fun x => seen x _
  have positive : 1 ≤ out.clock := by
    rw [stamp.2]
    exact (holds.clocks.bounds q issuer).1
  have flying : ∀ e ∈ rest, e.2 ∈ st.world.emitted :=
    fun e member => holds.tokens.flying e (remains.sub.subset member)
  have newest : ∀ t ∈ st.world.emitted, ¬ out.clock < t.clock := fun t member => by
    rw [stamp.2]
    exact not_lt.mpr (holds.clocks.level (View.balanced_initial mode) t member
      (holds.keyed t member) q issuer)
  -- a process that has seen the new clock has seen a returned train of it
  have seenOut : ∀ x : Fin cfg.ringSize, out.clock ≤ (st.world.node x).seenClock out.issuer →
      ∀ y : Fin cfg.ringSize, out.clock ≤ (st.world.node y).seenClock out.issuer := by
    intro x clock y
    rw [stamp.1] at clock ⊢
    obtain ⟨t, member, same, below⟩ := seen_back holds issuer positive clock
    have returned := convoy.returned t member (back t member same) y
    rw [same] at returned
    exact below.trans returned
  refine convoy.send started remains emitted (fun x i => (seen x i).ge) (fun x i _ => seen x i)
    (fun isOut x foreign => ?_) (fun t member same unreturned => ?_)
    (fun e inside unreturned t member same clock => ?_) (fun e inside unreturned clock => ?_)
    (fun _ t member clock => absurd clock (newest t member)) (fun e inside unreturned isOut => ?_)
    (fun x home i isIssuer => ?_) (fun t member same returned x => ?_)
  · rw [stamp.1, arc_self q.isLt, ← stamp.1, seen]
    refine ⟨fun home => absurd home foreign, fun clock => ?_⟩
    have unseen := isOut q stamp.1.symm
    rw [seen] at unseen
    exact absurd (seenOut x clock q) (not_le.mpr unseen)
  · exact absurd ((still t).mp unreturned) (back t member (same.trans stamp.1))
  · have ahead := convoy.order e (remains.sub.subset inside) unreturned t member clock
    exact absurd ahead (back t member (same.trans stamp.1))
  · intro x home
    rw [seen]
    refine not_le.mp fun seenX => ?_
    rw [stamp.1] at seenX
    obtain ⟨t, member, same, below⟩ := seen_back holds issuer positive seenX
    exact back t member same (convoy.order e (remains.sub.subset inside) unreturned t member
      (lt_of_lt_of_le clock below))
  · refine ⟨fun clock => ⟨?_, ?_⟩, fun clock => absurd clock (newest e.2 (flying e inside))⟩
    · have foreign : q.val ≠ e.2.issuer := fun same =>
        remains.others e inside (same.symm.trans stamp.1.symm)
      have seenQ := caught _ (holds.keyed e.2 (flying e inside)).1
      show Arc cfg.ringSize e.2.issuer e.1 out.issuer
      rw [stamp.1]
      refine (convoy.visited e (remains.sub.subset inside) unreturned q foreign).mpr ?_
      exact Nat.lt_succ_iff.mp (lt_of_lt_of_le clock seenQ)
    · show behind cfg.ringSize out.issuer q + 0 ≤ _
      rw [stamp.1, behind_self]
      exact Nat.zero_le _
  · rw [seen, Fin.ext (home.trans stamp.1)]
    exact caught i isIssuer
  · rw [seen]
    rcases List.mem_append.mp member with old | new
    · exact convoy.returned t old (fun unreturned => returned ((still t).mpr unreturned)) x
    · rw [List.mem_singleton.mp new] at returned ⊢
      obtain ⟨y, -, clock⟩ : ∃ y : Fin cfg.ringSize, y.val = out.issuer ∧
          ¬ (w'.node y).seenClock out.issuer < out.clock := by
        simpa [Unreturned] using returned
      rw [seen, not_lt] at clock
      exact seenOut y clock x

/-- The train `t` of `s` reaches the next process `r`, ahead of what `s` has sent later. -/
structure Arrival (mode : DeliveryMode) (st : RingState cfg) (s r : Fin cfg.ringSize) (t : Train)
    (rest : List (Fin cfg.ringSize × Train)) : Prop where
  member : (s, t) ∈ st.inflight
  emitted : t ∈ st.world.emitted
  remains : Remains st t.issuer rest
  flying : ∀ e ∈ rest, e.2 ∈ st.world.emitted
  only : ∀ t' ∈ st.world.emitted, t'.issuer = t.issuer → Unreturned st.world t' → t'.key = t.key
  spaced : Unreturned st.world t → ∀ e ∈ rest, Unreturned st.world e.2 →
    Follows e (s, t) 1 ∧ Follows (s, t) e 0
  issuers : ∀ t ∈ st.world.emitted, t.issuer < cfg.ringSize
  step : ∀ q, q < cfg.ringSize →
    (r.val = q → behind cfg.ringSize q s + 1 = cfg.ringSize) ∧
      (r.val ≠ q → behind cfg.ringSize q r = behind cfg.ringSize q s + 1)
  arcs : r.val ≠ t.issuer → ¬ Arc cfg.ringSize t.issuer s r ∧
    ∀ x : Fin cfg.ringSize, Arc cfg.ringSize t.issuer r x ↔ Arc cfg.ringSize t.issuer s x ∨ x = r
  full : r.val = t.issuer → ∀ x : Fin cfg.ringSize, Arc cfg.ringSize t.issuer s x

theorem arrival (convoy : Convoy mode st) (holds : RingInvariant mode st entries)
    {before after : List (Fin cfg.ringSize × Train)} {s : Fin cfg.ringSize} {t : Train}
    (shape : st.inflight = before ++ (s, t) :: after) (fifo : ∀ e ∈ before, e.1 ≠ s) :
    Arrival mode st s (st.successor s) t (before ++ after) := by
  have member : (s, t) ∈ st.inflight := by
    rw [shape]
    exact List.mem_append_right _ List.mem_cons_self
  have issuers : ∀ t ∈ st.world.emitted, t.issuer < cfg.ringSize :=
    fun t member => (holds.keyed t member).1.inside
  have issuer := issuers t (holds.tokens.flying _ member)
  have full : ∀ x, x < cfg.ringSize → x ∉ st.dead := fun x inside =>
    (holds.tokens.alive ⟨x, inside⟩).mp (View.alive_initial mode x)
  have single := convoy.single
  rw [shape, List.pairwise_middle fun different clash => different clash.symm] at single
  refine ⟨member, holds.tokens.flying _ member, ⟨?_, fun e flying => ?_, fun e inside clash => ?_⟩,
    fun e inside => ?_, fun t' isOut => convoy.key_of_unreturned shape isOut,
    fun unreturned => convoy.spacing shape issuer fifo unreturned, issuers,
    fun q inside => behind_nextAlive inside s.isLt full, fun foreign => ⟨?_, fun x => ?_⟩,
    fun home x => arc_full issuer s.isLt x.isLt (full _ x.isLt) home⟩
  · exact RingState.left_sublist shape
  · rw [shape] at flying
    rcases List.mem_append.mp flying with inFront | inBack
    · exact Or.inl (List.mem_append_left _ inFront)
    · rcases List.mem_cons.mp inBack with rfl | inBack
      · exact Or.inr rfl
      · exact Or.inl (List.mem_append_right _ inBack)
  · exact (List.pairwise_cons.mp single).1 e inside clash.symm
  · exact holds.tokens.flying e ((RingState.left_sublist shape).subset inside)
  · exact not_arc_nextAlive issuer (full _ issuer) s.isLt foreign
  · exact (arc_nextAlive issuer (full _ issuer) s.isLt x.isLt (full _ x.isLt) foreign).trans
      (or_congr_right ⟨fun same => Fin.ext same, congrArg Fin.val⟩)

section Arrive

variable {s r : Fin cfg.ringSize} {t : Train} {rest : List (Fin cfg.ringSize × Train)}

/-- An unreturned train reaches no process that has seen it, its issuer apart. -/
theorem unvisited (convoy : Convoy mode st) (arrival : Arrival mode st s r t rest)
    (unreturned : Unreturned st.world t) (foreign : r.val ≠ t.issuer) :
    (st.world.node r).seenClock t.issuer < t.clock := by
  refine not_le.mp fun seen => (arrival.arcs foreign).1 ?_
  exact (convoy.visited _ arrival.member unreturned r foreign).mpr seen

/-- **A train is loaded on its first lap**: it stays at its distance from the others. -/
theorem load (convoy : Convoy mode st) (arrival : Arrival mode st s r t rest)
    (unreturned : Unreturned st.world t) (foreign : r.val ≠ t.issuer) {out : Train}
    (key : out.key = t.key) (emitted : w'.emitted = st.world.emitted ++ [out])
    (grows : ∀ x q, (st.world.node x).seenClock q ≤ (w'.node x).seenClock q)
    (same : ∀ x q, x ≠ r ∨ q ≠ t.issuer →
      (w'.node x).seenClock q = (st.world.node x).seenClock q)
    (seen : t.clock ≤ (w'.node r).seenClock t.issuer) :
    Convoy mode { st with world := w', inflight := rest ++ [(r, out)] } := by
  have issuer : out.issuer = t.issuer := congrArg ClockKey.issuer key
  have clock : out.clock = t.clock := congrArg ClockKey.clock key
  obtain ⟨ahead, arcs⟩ := arrival.arcs foreign
  have still : ∀ t' : Train, t'.issuer = t.issuer → Unreturned st.world t' → Unreturned w' t' := by
    intro t' own isOut x home
    have other : x ≠ r := fun here => foreign (here ▸ home.trans own)
    rw [same x _ (Or.inl other)]
    exact isOut x home
  have isOut : Unreturned w' out := still out issuer fun x home => by
    rw [issuer, clock]
    exact unreturned x (home.trans issuer)
  refine convoy.send st.started (issuer ▸ arrival.remains) emitted grows
    (fun x q other => same x q (Or.inr (issuer ▸ other))) (fun _ x pending => ?_)
    (fun t' member own unret => key ▸ arrival.only t' member (own.trans issuer) (unret.back grows))
    (fun e inside unret t' member own later => ?_) (fun _ _ _ _ => isOut)
    (fun _ t' member later => ?_) (fun e inside unret _ => ⟨fun later => ?_, fun later => ?_⟩)
    (fun q home i isIssuer => ?_) (fun t' member own returned x => ?_)
  · rw [issuer, clock, arcs x]
    rw [issuer] at pending
    by_cases here : x = r
    · rw [here]
      exact ⟨fun _ => seen, fun _ => Or.inr rfl⟩
    · rw [same x _ (Or.inl here), ← convoy.visited _ arrival.member unreturned x pending]
      exact or_iff_left here
  · exact still t' (own.trans issuer)
      (convoy.order e (arrival.remains.sub.subset inside) unret t' member later)
  · rw [clock] at later
    have isUnret := convoy.order _ arrival.member unreturned t' member later
    by_cases own : t'.issuer = t.issuer
    · exact still t' own isUnret
    · exact (Unreturned.keep fun x => same x _ (Or.inr own)).mpr isUnret
  · rw [show (r, out).2.clock = t.clock from clock] at later
    obtain ⟨passed, gap⟩ := (arrival.spaced unreturned e inside unret).1 later
    refine ⟨issuer.symm ▸ passed, ?_⟩
    show behind cfg.ringSize out.issuer r + 0 ≤ behind cfg.ringSize out.issuer e.1
    rw [issuer, (arrival.step _ (arrival.issuers t arrival.emitted)).2 foreign]
    exact gap
  · rw [show (r, out).2.clock = t.clock from clock] at later
    obtain ⟨passed, gap⟩ := (arrival.spaced unreturned e inside unret).2 later
    have inRing := arrival.issuers e.2 (arrival.flying e inside)
    -- `t` has passed the issuer of `e`, and it had not passed `r`
    have other : r.val ≠ e.2.issuer := fun here => ahead (here ▸ passed)
    refine ⟨?_, ?_⟩
    · show Arc cfg.ringSize out.issuer r e.2.issuer
      rw [issuer]
      exact (arcs ⟨_, inRing⟩).mpr (Or.inl passed)
    · show _ ≤ behind cfg.ringSize e.2.issuer r
      rw [(arrival.step _ inRing).2 other]
      exact Nat.succ_le_succ gap
  · rw [clock]
    exact (convoy.gate t arrival.emitted q (home.trans issuer) i isIssuer).trans
      (Nat.succ_le_succ (grows q i))
  · rcases List.mem_append.mp member with old | new
    · exact (convoy.returned t' old (fun unret => returned (still t' (own.trans issuer) unret))
        x).trans (grows x _)
    · exact absurd (List.mem_singleton.mp new ▸ isOut) returned

/-- **A train comes home from its first lap**: nothing on its first lap is ahead of it. -/
theorem close (convoy : Convoy mode st) (arrival : Arrival mode st s r t rest)
    (unreturned : Unreturned st.world t) (home : r.val = t.issuer)
    (emitted : w'.emitted = st.world.emitted ++ [t])
    (grows : ∀ x q, (st.world.node x).seenClock q ≤ (w'.node x).seenClock q)
    (same : ∀ x q, q ≠ t.issuer → (w'.node x).seenClock q = (st.world.node x).seenClock q)
    (seen : t.clock ≤ (w'.node r).seenClock t.issuer) :
    Convoy mode { st with world := w', inflight := rest ++ [(r, t)] } := by
  have isBack : ¬ Unreturned w' t := fun isOut => absurd seen (not_le.mpr (isOut r home))
  have none : ∀ t' ∈ st.world.emitted, t'.issuer = t.issuer → ¬ Unreturned w' t' := by
    intro t' member own isOut
    have key := arrival.only t' member own (isOut.back grows)
    refine isBack fun q home => ?_
    rw [← show t'.clock = t.clock from congrArg ClockKey.clock key, ← own]
    exact isOut q (home.trans own.symm)
  -- `t` has one step to go, so nothing is further around
  have first : ∀ e ∈ rest, Unreturned st.world e.2 → ¬ e.2.clock < t.clock := by
    intro e inside unret later
    have gap := ((arrival.spaced unreturned e inside unret).1 later).2
    have turn := (arrival.step _ (arrival.issuers t arrival.emitted)).1 home
    have bound := behind_lt (arrival.issuers t arrival.emitted) e.1.isLt
    have gap : behind cfg.ringSize t.issuer s + 1 ≤ behind cfg.ringSize t.issuer e.1 := gap
    omega
  have all : ∀ x : Fin cfg.ringSize, t.clock ≤ (w'.node x).seenClock t.issuer := by
    intro x
    by_cases own : x.val = t.issuer
    · rw [show x = r from Fin.ext (own.trans home.symm)]
      exact seen
    · exact ((convoy.visited _ arrival.member unreturned x own).mp (arrival.full home x)).trans
        (grows x _)
  refine convoy.send st.started arrival.remains emitted grows same (fun isOut => absurd isOut isBack)
    (fun t' member own isOut => absurd isOut (none t' member own))
    (fun e inside unret t' member own later => ?_)
    (fun e inside unret later => absurd later (first e inside unret))
    (fun isOut => absurd isOut isBack) (fun e inside unret isOut => absurd isOut isBack)
    (fun q home i isIssuer => ?_) (fun t' member own _ x => ?_)
  · have isOut := convoy.order e (arrival.remains.sub.subset inside) unret t' member later
    have key : t'.clock = t.clock :=
      congrArg ClockKey.clock (arrival.only t' member own isOut)
    exact absurd (key ▸ later) (first e inside unret)
  · exact (convoy.gate t arrival.emitted q home i isIssuer).trans (Nat.succ_le_succ (grows q i))
  · rcases List.mem_append.mp member with old | new
    · by_cases unret : Unreturned st.world t'
      · rw [show t'.clock = t.clock from congrArg ClockKey.clock (arrival.only t' old own unret),
          own]
        exact all x
      · exact (convoy.returned t' old unret x).trans (grows x _)
    · rw [List.mem_singleton.mp new]
      exact all x

/-- **A train is relayed on a later lap**, which no process notices. -/
theorem relay (convoy : Convoy mode st) (arrival : Arrival mode st s r t rest)
    (returned : ¬ Unreturned st.world t) (emitted : w'.emitted = st.world.emitted ++ [t])
    (same : ∀ x q, (w'.node x).seenClock q = (st.world.node x).seenClock q) :
    Convoy mode { st with world := w', inflight := rest ++ [(r, t)] } := by
  have still : ∀ t' : Train, Unreturned w' t' ↔ Unreturned st.world t' :=
    fun t' => Unreturned.keep fun x => same x _
  have isBack : ¬ Unreturned w' t := fun isOut => returned ((still t).mp isOut)
  refine convoy.send st.started arrival.remains emitted (fun x q => (same x q).ge)
    (fun x q _ => same x q) (fun isOut => absurd isOut isBack)
    (fun t' member own isOut => arrival.only t' member own ((still t').mp isOut))
    (fun e inside unret t' member _ later => (still t').mpr
      (convoy.order e (arrival.remains.sub.subset inside) unret t' member later))
    (fun e inside unret later => (still t).mpr
      (convoy.order e (arrival.remains.sub.subset inside) unret t arrival.emitted later))
    (fun isOut => absurd isOut isBack) (fun e inside unret isOut => absurd isOut isBack)
    (fun q home i isIssuer => ?_) (fun t' member own isBack x => ?_)
  · rw [same]
    exact convoy.gate t arrival.emitted q home i isIssuer
  · rw [same]
    have old : t' ∈ st.world.emitted := (List.mem_append.mp member).elim id fun new =>
      List.mem_singleton.mp new ▸ arrival.emitted
    exact convoy.returned t' old (fun unret => isBack ((still t').mpr unret)) x

end Arrive

/-- **A FIFO hop** keeps the trains in order. -/
theorem hop (convoy : Convoy mode st) (holds : RingInvariant mode st entries) {i : Nat}
    {s : Fin cfg.ringSize} {t : Train} (here : st.inflight[i]? = some (s, t))
    (fifo : ∀ j, j < i → ∀ e ∈ st.inflight[j]?, e.1 ≠ s) : Convoy mode (st.hop i) := by
  obtain ⟨before, after, shape, length, hop⟩ := RingState.hop_eq here
  have front : ∀ e ∈ before, e.1 ≠ s := by
    intro e member
    obtain ⟨j, inside, rfl⟩ := List.getElem_of_mem member
    refine fifo j (length ▸ inside) _ ?_
    rw [shape, List.getElem?_append_left inside, List.getElem?_eq_getElem inside]
    rfl
  have arrival := convoy.arrival holds shape front
  have isKey := holds.keyed t arrival.emitted
  have issuer := isKey.1.inside
  rw [hop]
  generalize st.successor s = r at arrival ⊢
  have replica := holds.coherent.replica r (View.alive_initial mode r)
  have own : (st.world.node r).id = r.val := holds.custody.ids r
  obtain ⟨forwarded, sends, emitted, traffic, -, stores⟩ := st.world.receive_spec r issuer
  have grows : ∀ x q, (st.world.node x).seenClock q ≤
      ((st.world.receive r t).node x).seenClock q :=
    fun x => (st.world.receive_evolves r issuer x).seen
  have same : ∀ x q, q ≠ t.issuer → ((st.world.receive r t).node x).seenClock q =
      (st.world.node x).seenClock q := fun x q other => st.world.receive_seen_of_ne r issuer x other
  -- a clock seen everywhere is stored nowhere
  have unmoved : ¬ Unreturned st.world t → ∀ x q, ((st.world.receive r t).node x).seenClock q =
      (st.world.node x).seenClock q := by
    intro returned x q
    by_cases here : x = r
    · rw [here]
      refine (stores q).elim id fun stored => ?_
      refine le_antisymm ?_ (grows r q)
      rw [stored.2, stored.1]
      exact convoy.returned t arrival.emitted returned r
    · rw [st.world.receive_node_of_ne r here]
  show Convoy mode { st with
    world := st.world.receive r t
    inflight := before ++ after ++
      (forwards ((st.world.node r).step (.trainReceived t)).2).map fun out => (r, out) }
  rw [sends]
  cases traffic with
  | absorbed stale _ => exact absurd stale (replica.not_stale isKey)
  | relayed _ known _ _ _ seen _ =>
    by_cases unreturned : Unreturned st.world t
    · by_cases home : r.val = t.issuer
      · exact convoy.close arrival unreturned home emitted grows same seen
      · have replay := known fun clash => home (own.symm.trans clash.symm)
        exact absurd replay.1 (not_le.mpr (convoy.unvisited arrival unreturned home))
    · exact convoy.relay arrival unreturned emitted (unmoved unreturned)
  | loaded _ foreign new _ _ seen =>
    have foreign : r.val ≠ t.issuer := fun clash => foreign (clash.symm.trans own.symm)
    have unreturned : Unreturned st.world t := by_contra fun returned =>
      absurd (convoy.returned t arrival.emitted returned r)
        (not_le.mpr (seen_lt_of_not_replay isKey new))
    refine convoy.load arrival unreturned foreign rfl emitted grows (fun x q other => ?_) seen
    by_cases here : x = r
    · exact same x q (other.resolve_left fun ne => ne here)
    · rw [st.world.receive_node_of_ne r here]
  | issued _ isOwn done _ _ =>
    have home : r.val = t.issuer := own.symm.trans isOwn.symm
    have seen : ∀ i, (View.initial cfg mode).Issuer i →
        t.clock ≤ (st.world.node r).seenClock i := fun i => replica.seen_of_done isKey done
    have returned : ¬ Unreturned st.world t := fun unreturned =>
      absurd (seen _ isKey.1) (not_le.mpr (unreturned r home))
    have next : st.world.issueClock r ≤ t.clock + 1 := by
      rw [home]
      exact holds.tokens.issueClock_le holds.clocks arrival.member isKey
    have outIssuer : (st.world.node r).issueNewTrain.2.issuer = r.val := own
    have stamp : (st.world.node r).issueNewTrain.2.clock = st.world.issueClock r :=
      (st.world.issueClock_eq r).symm
    refine convoy.issue holds st.started ?_ emitted (home ▸ isKey.1) ⟨outIssuer, stamp⟩
      (unmoved returned) (fun t' member same isOut => ?_) fun i isIssuer => ?_
    · rw [outIssuer, home]
      exact arrival.remains
    · have key := arrival.only t' member (same.trans home) isOut
      refine returned fun q atHome => ?_
      rw [← show t'.clock = t.clock from congrArg ClockKey.clock key, ← home, ← same]
      exact isOut q (atHome.trans (home.symm.trans same.symm))
    · rw [stamp]
      exact next.trans (Nat.succ_le_succ (seen i isIssuer))

/-! ### The other steps -/

theorem initial (mode : DeliveryMode) : Convoy mode (RingState.initial cfg mode) where
  visited := fun _ member => absurd member List.not_mem_nil
  single := List.Pairwise.nil
  flight := fun _ member => absurd member List.not_mem_nil
  order := fun _ member => absurd member List.not_mem_nil
  follows := List.Pairwise.nil
  gate := fun _ member => absurd member List.not_mem_nil
  returned := fun _ member => absurd member List.not_mem_nil

theorem broadcast (convoy : Convoy mode st) (p : Fin cfg.ringSize) (data : List UInt8) :
    Convoy mode (st.broadcast p data) := by
  obtain ⟨emitted, -, seen, -⟩ := broadcast_keeps st.world p data
  have still : ∀ t : Train, Unreturned (st.world.broadcast p data) t ↔ Unreturned st.world t :=
    fun t => Unreturned.keep fun x => seen x _
  have old : ∀ t ∈ (st.world.broadcast p data).emitted, t ∈ st.world.emitted :=
    fun t member => emitted ▸ member
  refine ⟨fun e member unreturned x foreign => ?_, convoy.single, fun t member unreturned => ?_,
    fun e member unreturned t isOut clock => ?_, convoy.follows.imp fun ordered left right => ?_,
    fun t member q home i issuer => ?_, fun t member returned x => ?_⟩
  · show _ ↔ _ ≤ ((st.world.broadcast p data).node x).seenClock _
    rw [seen]
    exact convoy.visited e member ((still _).mp unreturned) x foreign
  · exact convoy.flight t (old t member) ((still _).mp unreturned)
  · exact (still t).mpr (convoy.order e member ((still _).mp unreturned) t (old t isOut) clock)
  · exact ordered ((still _).mp left) ((still _).mp right)
  · show _ ≤ ((st.world.broadcast p data).node q).seenClock i + 1
    rw [seen]
    exact convoy.gate t (old t member) q home i issuer
  · show _ ≤ ((st.world.broadcast p data).node x).seenClock _
    rw [seen]
    exact convoy.returned t (old t member) (fun isOut => returned ((still t).mpr isOut)) x

theorem start (convoy : Convoy mode st) (holds : RingInvariant mode st entries)
    {p : Fin cfg.ringSize} (issues : p.val < cfg.numTrains) (waiting : p.val ∉ st.started) :
    Convoy mode (st.start p) := by
  have isIssuer : (View.initial cfg mode).Issuer p := ⟨issues, View.alive_initial mode p⟩
  obtain ⟨emitted, -, -, seen, -⟩ := issueInitial_keeps st.world p
  have own : (st.world.node p).issueNewTrain.2.issuer = p.val := holds.custody.ids p
  have stamp : (st.world.node p).issueNewTrain.2.clock = st.world.issueClock p :=
    (st.world.issueClock_eq p).symm
  have unemitted := holds.tokens.unemitted holds.clocks isIssuer waiting
  have unflown : ∀ e ∈ st.inflight, e.2.issuer ≠ p.val := fun e member =>
    unemitted e.2 (holds.tokens.flying e member) (holds.keyed _ (holds.tokens.flying e member))
  refine convoy.issue holds (insert p.val st.started) ⟨List.Sublist.refl _,
    fun e member => Or.inl member, fun e member => own ▸ unflown e member⟩ emitted isIssuer
    ⟨own, stamp⟩ seen (fun t member same => absurd same (unemitted t member (holds.keyed t member)))
    fun i _ => ?_
  show (st.world.node p).issueNewTrain.2.clock ≤ _
  rw [stamp, (holds.tokens.unstarted p isIssuer waiting).1]
  exact Nat.le_add_left 1 _

/-- **A process that an unreturned train has not visited has seen no later clock**: a later train on
its first lap is behind it, and one that has come home would have passed it. -/
theorem seen_le (convoy : Convoy mode st) (holds : RingInvariant mode st entries)
    {s : Fin cfg.ringSize} {t : Train} (member : (s, t) ∈ st.inflight)
    (unreturned : Unreturned st.world t) {r : Fin cfg.ringSize}
    (far : ¬ Arc cfg.ringSize t.issuer s r) {q : Nat} (issuer : (View.initial cfg mode).Issuer q)
    (foreign : r.val ≠ q) : (st.world.node r).seenClock q ≤ t.clock := by
  refine not_lt.mp fun later => ?_
  rcases holds.clocks.source r (View.alive_initial mode r) q issuer with floor | stored
  · rw [floor, View.initial, Slots.get_zero] at later
    exact absurd later (Nat.not_lt_zero _)
  obtain ⟨t', isOut, -, own, clock⟩ := stored
  have isUnret := convoy.order _ member unreturned t' isOut (clock ▸ later)
  obtain ⟨e, flying, key⟩ := convoy.flight t' isOut isUnret
  have issuer' : e.2.issuer = q := (congrArg ClockKey.issuer key).trans own
  have clock' : e.2.clock = (st.world.node r).seenClock q := (congrArg ClockKey.clock key).trans clock
  have unret : Unreturned st.world e.2 := fun x home => by
    rw [issuer', clock', ← clock, ← own]
    exact isUnret x (home.trans (issuer'.trans own.symm))
  have other : (s, t) ≠ e := fun same =>
    absurd (clock' ▸ congrArg (fun a => a.2.clock) same : t.clock = _) later.ne
  obtain ⟨passed, gap⟩ := ((convoy.follows.imp InOrder.abreast).forall member flying other
    unreturned unret).1 (clock'.symm ▸ later)
  have reached := (convoy.visited e flying unret r (issuer'.symm ▸ foreign)).mpr
    (by rw [issuer', clock'])
  have inside := fun t member => (holds.keyed t member).1.inside
  exact far (arc_of_arc (inside t (holds.tokens.flying _ member))
    (inside _ (holds.tokens.flying _ flying)) s.isLt r.isLt passed (reached.trans gap))

/-- A process that sees a train for the first time has seen no later clock but its own. -/
theorem first_visit (convoy : Convoy mode st) (holds : RingInvariant mode st entries)
    {s : Fin cfg.ringSize} {t : Train} (member : (s, t) ∈ st.inflight)
    (foreign : (st.successor s).val ≠ t.issuer)
    (new : (st.world.node (st.successor s)).seenClock t.issuer < t.clock) {q : Nat}
    (issuer : (View.initial cfg mode).Issuer q) (other : (st.successor s).val ≠ q) :
    (st.world.node (st.successor s)).seenClock q ≤ t.clock := by
  have emitted := holds.tokens.flying _ member
  have unreturned : Unreturned st.world t := by_contra fun returned =>
    absurd (convoy.returned t emitted returned (st.successor s)) (not_le.mpr new)
  have inside := (holds.keyed t emitted).1.inside
  refine convoy.seen_le holds member unreturned ?_ issuer other
  exact not_arc_nextAlive inside ((holds.tokens.alive ⟨_, inside⟩).mp
    (View.alive_initial mode _)) s.isLt foreign

end Convoy

end TrainsRing
