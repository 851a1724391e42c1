/-
**The trains of a ring make their laps.**

A train goes around twice. On the way out (`Outward`) the processes it has passed are exactly those
that have acked it, and the others have not seen its clock. Back at its issuer it is ready, and on
the second lap (`Homeward`) every process it passes delivers or parks it. Only then does the issuer
move on, so a process that sees the issuer's next clock has settled all earlier ones.

Clocks at `u64::MAX` do not move on, so the laps are tracked below it (`Tracked`).

* `Token` — one train in flight and where it is on its laps.
* `Tokens` — all of them: one per issuer, and everything below an emitted clock is settled.
* `Tokens.hop`, `Tokens.start`, `Tokens.broadcast` — the steps keep it.
-/

import TrainsRing.Ring.Clocks
import TrainsRing.Ring.Network

namespace TrainsRing

variable {cfg : RingConfig} {view : View cfg} {w w' : World cfg} {dead : Finset Nat}

/-- A train of the view whose issuer can still move on from it. -/
def Tracked (view : View cfg) (t : Train) : Prop := view.Key t.key ∧ t.clock < u64Max

/-- The first lap, after `s` has sent the train. -/
structure Outward (w : World cfg) (dead : Finset Nat) (s : Fin cfg.ringSize) (t : Train) : Prop where
  acked : ∀ x : Fin cfg.ringSize, x.val ∉ dead →
    (t.isAckedBy x = true ↔ Arc cfg.ringSize t.issuer s x)
  unseen : ∀ x : Fin cfg.ringSize, x.val ∉ dead →
    (Arc cfg.ringSize t.issuer s x → x.val = t.issuer) → (w.node x).seenClock t.issuer < t.clock

/-- A later lap, after `s` has sent the train. -/
structure Homeward (view : View cfg) (w : World cfg) (dead : Finset Nat) (s : Fin cfg.ringSize)
    (t : Train) : Prop where
  ready : view.Ready t.ackBits
  seen : ∀ x : Fin cfg.ringSize, x.val ∉ dead → t.clock ≤ (w.node x).seenClock t.issuer
  settled : ∀ x : Fin cfg.ringSize, x.val ∉ dead → Arc cfg.ringSize t.issuer s x →
    (w.node x).Settled t.key

/-- A tracked train in flight: the newest of its issuer, on one of its laps. -/
structure Token (view : View cfg) (w : World cfg) (dead : Finset Nat) (s : Fin cfg.ringSize)
    (t : Train) : Prop where
  sender : s.val ∉ dead
  next : w.issueClock t.issuer = t.clock + 1
  newest : ∀ t' ∈ w.emitted, view.Key t'.key → t'.issuer = t.issuer → t'.clock ≤ t.clock
  lap : Outward w dead s t ∨ Homeward view w dead s t

/-- A step that does not concern the train's issuer leaves it on its lap. -/
theorem Token.keep {s : Fin cfg.ringSize} {t : Train} (token : Token view w dead s t)
    (clock : w'.issueClock t.issuer = w.issueClock t.issuer)
    (out : ∀ t' ∈ w'.emitted, view.Key t'.key → t'.issuer = t.issuer → t' ∈ w.emitted)
    (seen : ∀ x, (w'.node x).seenClock t.issuer = (w.node x).seenClock t.issuer)
    (settled : ∀ x key, (w.node x).Settled key → (w'.node x).Settled key) :
    Token view w' dead s t := by
  refine ⟨token.sender, clock.trans token.next,
    fun t' member isKey same => token.newest t' (out t' member isKey same) isKey same, ?_⟩
  refine token.lap.imp (fun lap => ⟨lap.acked, fun x alive far => ?_⟩) fun lap => ?_
  · rw [seen]
    exact lap.unseen x alive far
  · exact ⟨lap.ready, fun x alive => (lap.seen x alive).trans (seen x).ge,
      fun x alive near => settled x _ (lap.settled x alive near)⟩

/-- The clock the issuer of a tracked train stamps next. -/
theorem Token.stamp {r s : Fin cfg.ringSize} {t : Train} (token : Token view w dead s t)
    (home : r.val = t.issuer) : (w.node r).issueNewTrain.2.clock = t.clock + 1 := by
  rw [← token.next, ← home, w.issueClock_eq]
  rfl

/-- The trains in flight on their laps. -/
structure Tokens (view : View cfg) (st : RingState cfg) : Prop where
  alive : ∀ p : Fin cfg.ringSize, view.Alive p ↔ p.val ∉ st.dead
  flying : ∀ e ∈ st.inflight, e.2 ∈ st.world.emitted
  single : st.inflight.Pairwise fun a b =>
    Tracked view a.2 → Tracked view b.2 → a.2.issuer ≠ b.2.issuer
  tracked : ∀ e ∈ st.inflight, Tracked view e.2 → Token view st.world st.dead e.1 e.2
  passed : ∀ t ∈ st.world.emitted, view.Key t.key → ∀ c, view.floor.get t.issuer < c →
    c < t.clock → ∀ x : Fin cfg.ringSize, x.val ∉ st.dead →
      (st.world.node x).Settled ⟨c, t.issuer⟩
  unstarted : ∀ q : Fin cfg.ringSize, view.Issuer q → q.val ∉ st.started →
    st.world.issueClock q = 1 ∧ ∀ e ∈ st.inflight, e.2.issuer = q.val → ¬ Tracked view e.2

/-! ### One hop -/

/-- A train with all live acks is ready. -/
def Complete (view : View cfg) (w : World cfg) : Prop :=
  ∀ t ∈ w.emitted, (∀ q : Fin cfg.ringSize, view.Alive q → t.isAckedBy q = true) →
    view.Ready t.ackBits

/-- A train of the view is not stale. -/
theorem Replica.not_stale {Source : Train → Prop} {node : TrainsNode cfg} {es : List Entry}
    (replica : Replica view Source node es) {t : Train} (isKey : view.Key t.key) :
    ¬ node.Stale t := by
  intro stale
  have bounded := stale.2
  rw [replica.floor] at bounded
  exact absurd bounded (not_le.mpr isKey.2)

/-- A key that is done is seen from every issuer. -/
theorem Replica.seen_of_done {Source : Train → Prop} {node : TrainsNode cfg} {es : List Entry}
    (replica : Replica view Source node es) {key : ClockKey} (isKey : view.Key key)
    (done : key ∈ node.delivery.doneKeys) {q : Nat} (issuer : view.Issuer q) :
    key.clock ≤ node.seenClock q := by
  obtain ⟨entry, member, rfl⟩ :=
    ((replica.done _).mp done).resolve_left (View.not_old_of_key isKey)
  exact replica.seenDone entry member q issuer

/-- A drained node that has settled every key up to a clock has all of them done. -/
theorem Replica.done_of_settled {Source : Train → Prop} {node : TrainsNode cfg}
    {entries : List Entry} (replica : Replica view Source node entries) (drained : node.Drained)
    (clock : Nat) (settled : ∀ key, view.Key key → key.clock ≤ clock → node.Settled key)
    {key : ClockKey} (isKey : view.Key key) (bounded : key.clock ≤ clock) :
    key ∈ node.delivery.doneKeys := by
  refine replica.done_of_settled_upto drained isKey (fun q issuer => ?_)
    fun other otherKey below => settled other otherKey ((ClockKey.clock_le_of_le below).trans bounded)
  rcases le_or_gt key.clock (view.floor.get q) with old | above
  · exact old.trans (replica.seenFloor q)
  · rcases settled ⟨key.clock, q⟩ ⟨issuer, above⟩ bounded with done | ⟨train, found⟩
    · exact replica.seen_of_done ⟨issuer, above⟩ done issuer
    · exact (replica.parked _ train found).2.2.2

/-- The delivery condition of the view, read at one of its replicas. -/
theorem Replica.readyToDeliver {Source : Train → Prop} {node : TrainsNode cfg} {es : List Entry}
    (replica : Replica view Source node es) {ackBits : AckBits} (ready : view.Ready ackBits) :
    node.delivery.readyToDeliver ackBits node.delivery.mode = true := by
  have same : node.delivery.readyToDeliver ackBits view.mode =
      (⟨view.mode, ∅, view.crashed⟩ : DeliveryState cfg).readyToDeliver ackBits view.mode := by
    unfold DeliveryState.readyToDeliver
    rw [replica.crashed]
  rw [replica.mode, same]
  exact ready

section Receive

variable {base : List Payload} {entries : Fin cfg.ringSize → List Entry} {r s : Fin cfg.ringSize}
  {t : Train}

/-- **A train just issued** is on its first lap, when it is the first of its clock. -/
theorem Token.issued (named : w.Named) (alive : r.val ∉ dead)
    (next : w'.issueClock r = w.issueClock r + 1)
    (newest : ∀ t' ∈ w'.emitted, view.Key t'.key → t'.issuer = r.val →
      t'.clock ≤ w.issueClock r)
    (unseen : ∀ x : Fin cfg.ringSize, x.val ∉ dead →
      (w'.node x).seenClock r < w.issueClock r) :
    Token view w' dead r (w.node r).issueNewTrain.2 := by
  have id : (w.node r).issueNewTrain.2.issuer = r.val := named r
  have stamp : (w.node r).issueNewTrain.2.clock = w.issueClock r := (w.issueClock_eq r).symm
  refine ⟨alive, ?_, fun t' inside isKey same => ?_,
    Or.inl ⟨fun x _ => ?_, fun x xAlive _ => ?_⟩⟩
  · rw [id, stamp]
    exact next
  · rw [stamp]
    exact newest t' inside isKey (same.trans id)
  · rw [isAckedBy_issued named, id, decide_eq_true_eq, arc_self r.isLt]
    exact Fin.ext_iff
  · rw [id, stamp]
    exact unseen x xAlive

/-- A tracked train that the next process in use receives. -/
structure Arriving (view : View cfg) (base : List Payload) (entries : Fin cfg.ringSize → List Entry)
    (w : World cfg) (dead : Finset Nat) (s r : Fin cfg.ringSize) (t : Train) : Prop where
  coherent : Coherent view base w entries
  named : w.Named
  clocks : Clocks view w
  complete : Complete view w
  live : ∀ p : Fin cfg.ringSize, view.Alive p ↔ p.val ∉ dead
  next : nextAlive cfg.ringSize dead s = r.val
  alive : r.val ∉ dead
  member : t ∈ w.emitted
  tracked : Tracked view t
  token : Token view w dead s t

namespace Arriving

variable (arriving : Arriving view base entries w dead s r t)

include arriving

theorem isKey : view.Key t.key := arriving.tracked.1

theorem inside : t.issuer < cfg.ringSize := arriving.isKey.1.inside

theorem issuerAlive : t.issuer ∉ dead :=
  (arriving.live ⟨t.issuer, arriving.inside⟩).mp arriving.isKey.1.2

theorem replica : Replica view (· ∈ w.emitted) (w.node r) (entries r) :=
  arriving.coherent.replica r ((arriving.live r).mpr arriving.alive)

theorem settles (x : Fin cfg.ringSize) (key : ClockKey) (settled : (w.node x).Settled key) :
    ((w.receive r t).node x).Settled key :=
  (w.receive_evolves r arriving.inside x).settled key settled

/-- Away from home the receiver is the one process that the train has passed anew. -/
theorem arcs (foreign : r.val ≠ t.issuer) {x : Fin cfg.ringSize} (alive : x.val ∉ dead) :
    Arc cfg.ringSize t.issuer r x ↔ Arc cfg.ringSize t.issuer s x ∨ x = r := by
  have hop := arc_nextAlive arriving.inside arriving.issuerAlive s.isLt x.isLt alive
    (arriving.next ▸ foreign)
  rw [arriving.next] at hop
  exact hop.trans (or_congr_right Fin.ext_iff.symm)

theorem ahead (foreign : r.val ≠ t.issuer) : ¬ Arc cfg.ringSize t.issuer s r :=
  arriving.next ▸
    not_arc_nextAlive arriving.inside arriving.issuerAlive s.isLt (arriving.next ▸ foreign)

/-- A train that comes home has passed all processes in use. -/
theorem full (home : r.val = t.issuer) {x : Fin cfg.ringSize} (alive : x.val ∉ dead) :
    Arc cfg.ringSize t.issuer s x :=
  arc_full arriving.inside s.isLt x.isLt alive (arriving.next.trans home)

/-- A receiver that has seen the train's clock is on a later lap of it. -/
theorem homeward (known : t.clock ≤ (w.node r).seenClock t.issuer)
    (first : Arc cfg.ringSize t.issuer s r → r.val = t.issuer) : Homeward view w dead s t :=
  arriving.token.lap.resolve_left fun lap =>
    absurd known (not_le.mpr (lap.unseen r arriving.alive first))

/-- **A train that comes home unfinished starts a lap.** -/
theorem turned (home : r.val = t.issuer) (seen : t.clock ≤ ((w.receive r t).node r).seenClock t.issuer)
    (ready : (w.node r).frozen = false →
      (w.node r).delivery.readyToDeliver t.ackBits (w.node r).delivery.mode = true →
      ((w.receive r t).node r).Settled t.key) : Homeward view (w.receive r t) dead r t := by
  have evolves := w.receive_evolves r arriving.inside
  have isReady : view.Ready t.ackBits := by
    rcases arriving.token.lap with lap | lap
    · refine arriving.complete t arriving.member fun q alive => ?_
      have inUse := (arriving.live q).mp alive
      exact (lap.acked q inUse).mpr (arriving.full home inUse)
    · exact lap.ready
  refine ⟨isReady, fun x alive => ?_, fun x alive near => ?_⟩
  · rcases arriving.token.lap with lap | lap
    · by_cases here : x = r
      · rw [here]
        exact seen
      · have acked := (lap.acked x alive).mpr (arriving.full home alive)
        have other : x.val ≠ t.issuer := fun same => here (Fin.ext (same.trans home.symm))
        exact (arriving.coherent.ledger.acks t arriving.member arriving.isKey x
          ((arriving.live x).mpr alive) other acked).trans ((evolves x).seen _)
    · exact (lap.seen x alive).trans ((evolves x).seen _)
  · rw [home] at near
    rw [Fin.ext (((arc_self arriving.inside).mp near).trans home.symm)]
    exact ready arriving.replica.unfrozen (arriving.replica.readyToDeliver isReady)

/-- **A later visit** settles the train. -/
theorem revisited (foreign : r.val ≠ t.issuer) (known : t.clock ≤ (w.node r).seenClock t.issuer)
    (ready : (w.node r).frozen = false →
      (w.node r).delivery.readyToDeliver t.ackBits (w.node r).delivery.mode = true →
      ((w.receive r t).node r).Settled t.key) : Homeward view (w.receive r t) dead r t := by
  have lap := arriving.homeward known fun near => absurd near (arriving.ahead foreign)
  refine ⟨lap.ready, fun x alive =>
    (lap.seen x alive).trans ((w.receive_evolves r arriving.inside x).seen _), fun x alive near => ?_⟩
  rcases (arriving.arcs foreign alive).mp near with before | here
  · exact arriving.settles x _ (lap.settled x alive before)
  · rw [here]
    exact ready arriving.replica.unfrozen (arriving.replica.readyToDeliver lap.ready)

/-- **A first visit** adds the receiver to the acks. -/
theorem visited (foreign : r.val ≠ t.issuer) (new : ¬ (w.node r).Replay t) :
    Outward (w.receive r t) dead r ((w.node r).loadTrain t) := by
  have unseen := seen_lt_of_not_replay arriving.isKey new
  have lap : Outward w dead s t := arriving.token.lap.resolve_right fun lap =>
    absurd (lap.seen r arriving.alive) (not_le.mpr unseen)
  refine ⟨fun x alive => ?_, fun x alive far => ?_⟩
  · rw [isAckedBy_loaded arriving.named, Bool.or_eq_true, lap.acked x alive, decide_eq_true_eq]
    exact (arriving.arcs foreign alive).symm
  · have other : x ≠ r := fun here => foreign (by
      rw [← here]
      exact far ((arriving.arcs foreign alive).mpr (Or.inr here)))
    rw [w.receive_node_of_ne r other]
    exact lap.unseen x alive fun near => far ((arriving.arcs foreign alive).mpr (Or.inl near))

/-- Nobody has seen a clock that the issuer has not stamped. -/
theorem seen_le (x : Fin cfg.ringSize) (alive : x.val ∉ dead) :
    ((w.receive r t).node x).seenClock t.issuer ≤ t.clock := by
  have before : (w.node x).seenClock t.issuer ≤ t.clock := by
    rcases arriving.clocks.source x ((arriving.live x).mpr alive) t.issuer arriving.isKey.1 with
      floor | ⟨t', inside, isKey, same, stored⟩
    · rw [floor]
      exact arriving.isKey.2.le
    · rw [← stored]
      exact arriving.token.newest t' inside isKey same
  by_cases here : x = r
  · obtain ⟨-, -, -, -, -, stores⟩ := w.receive_spec r arriving.inside
    rw [here]
    rcases stores t.issuer with same | ⟨-, same⟩
    · rw [same, ← here]
      exact before
    · exact same.le
  · rw [w.receive_node_of_ne r here]
    exact before

/-- The clocks of the issuer, once the receiver has sent one train. -/
theorem newest {out : Train} {clock : Nat} (emitted : (w.receive r t).emitted = w.emitted ++ [out])
    (old : t.clock ≤ clock) (new : out.clock ≤ clock) : ∀ t' ∈ (w.receive r t).emitted,
      view.Key t'.key → t'.issuer = t.issuer → t'.clock ≤ clock := by
  intro t' inside isKey same
  rw [emitted] at inside
  rcases List.mem_append.mp inside with before | isNew
  · exact (arriving.token.newest t' before isKey same).trans old
  · rw [List.mem_singleton.mp isNew]
    exact new

/-- **The issuer's next train** is on its first lap. -/
theorem reissued (home : r.val = t.issuer)
    (clock : ((w.receive r t).node r).nextIssueClock = satSucc (w.node r).nextIssueClock)
    (emitted : (w.receive r t).emitted = w.emitted ++ [(w.node r).issueNewTrain.2])
    (tracked : Tracked view (w.node r).issueNewTrain.2) :
    Token view (w.receive r t) dead r (w.node r).issueNewTrain.2 := by
  have stamp := arriving.token.stamp home
  have ahead : w.issueClock r = t.clock + 1 := by
    rw [home]
    exact arriving.token.next
  have room : t.clock + 1 < u64Max := stamp ▸ tracked.2
  refine Token.issued arriving.named arriving.alive ?_ (fun t' inside isKey same => ?_)
    fun x alive => ?_
  · rw [World.issueClock_eq, clock, ← w.issueClock_eq, ahead, satSucc_of_lt room]
  · rw [ahead]
    exact arriving.newest emitted (Nat.le_succ _) stamp.le t' inside isKey (same.trans home)
  · rw [ahead, home]
    exact Nat.lt_succ_of_le (arriving.seen_le x alive)

end Arriving

/-- **A tracked train is received by the next process in use**, and what that process sends is on
its lap again; everything below a clock it issues is settled. -/
theorem Token.receive (coherent : Coherent view base w entries) (named : w.Named)
    (clocks : Clocks view w) (complete : Complete view w)
    (live : ∀ p : Fin cfg.ringSize, view.Alive p ↔ p.val ∉ dead)
    (next : nextAlive cfg.ringSize dead s = r.val) (alive : r.val ∉ dead)
    (member : t ∈ w.emitted) (isTracked : Tracked view t) (token : Token view w dead s t)
    (passed : ∀ c, view.floor.get t.issuer < c → c < t.clock → ∀ x : Fin cfg.ringSize,
      x.val ∉ dead → (w.node x).Settled ⟨c, t.issuer⟩) :
    ∀ out ∈ forwards ((w.node r).step (.trainReceived t)).2, out.issuer = t.issuer ∧
      (Tracked view out → Token view (w.receive r t) dead r out) ∧
      (∀ c, view.floor.get t.issuer < c → c < out.clock → ∀ x : Fin cfg.ringSize,
        x.val ∉ dead → ((w.receive r t).node x).Settled ⟨c, t.issuer⟩) := by
  have arriving : Arriving view base entries w dead s r t :=
    ⟨coherent, named, clocks, complete, live, next, alive, member, isTracked, token⟩
  have own : (w.node r).id = r.val := named r
  have below : ∀ c, view.floor.get t.issuer < c → c < t.clock → ∀ x : Fin cfg.ringSize,
      x.val ∉ dead → ((w.receive r t).node x).Settled ⟨c, t.issuer⟩ :=
    fun c low high x inUse => arriving.settles x _ (passed c low high x inUse)
  have still : ((w.receive r t).node r).nextIssueClock = (w.node r).nextIssueClock →
      (w.receive r t).issueClock t.issuer = t.clock + 1 := by
    intro same
    refine (World.issueClock_congr (fun x => ?_) _).trans token.next
    by_cases here : x = r
    · rw [here, same]
    · rw [w.receive_node_of_ne r here]
  obtain ⟨forwarded, sends, emitted, traffic, -, -⟩ := w.receive_spec r arriving.inside
  intro out isOut
  rw [sends] at isOut
  cases traffic with
  | absorbed stale _ => exact absurd stale (arriving.replica.not_stale arriving.isKey)
  | relayed _ known _ _ clock seen ready =>
    obtain rfl := List.mem_singleton.mp isOut
    refine ⟨rfl, fun _ => ⟨alive, still clock, arriving.newest emitted le_rfl le_rfl, Or.inr ?_⟩, below⟩
    -- a relayed train is on its second lap, or starts it here
    by_cases home : r.val = out.issuer
    · exact arriving.turned home seen ready
    · exact arriving.revisited home (known fun same => home (own.symm.trans same.symm)).1 ready
  | loaded _ foreign new _ clock _ =>
    obtain rfl := List.mem_singleton.mp isOut
    have foreign : r.val ≠ t.issuer := fun same => foreign (same.symm.trans own.symm)
    exact ⟨rfl, fun _ => ⟨alive, still clock, arriving.newest emitted le_rfl le_rfl,
      Or.inl (arriving.visited foreign new)⟩, below⟩
  | issued _ isOwn done _ clock =>
    obtain rfl := List.mem_singleton.mp isOut
    have home : r.val = t.issuer := own.symm.trans isOwn.symm
    refine ⟨isOwn.symm, arriving.reissued home clock emitted, fun c low high x inUse => ?_⟩
    rw [token.stamp home] at high
    rcases Nat.lt_succ_iff_lt_or_eq.mp high with before | same
    · exact below c low before x inUse
    · have seen := arriving.replica.seen_of_done arriving.isKey done arriving.isKey.1
      have lap := arriving.homeward seen fun _ => home
      rw [same]
      exact arriving.settles x _ (lap.settled x inUse (arriving.full home inUse))

/-- A train at the last clock is never replaced by one of a later clock. -/
theorem receive_untracked (coherent : Coherent view base w entries) (named : w.Named)
    (clocks : Clocks view w) (live : ∀ p : Fin cfg.ringSize, view.Alive p ↔ p.val ∉ dead)
    (alive : r.val ∉ dead) (member : t ∈ w.emitted) (isKey : view.Key t.key)
    (untracked : ¬ Tracked view t) :
    ∀ out ∈ forwards ((w.node r).step (.trainReceived t)).2,
      out.issuer = t.issuer ∧ out.clock = t.clock := by
  have issuer : t.issuer < cfg.ringSize := isKey.1.inside
  have replica := coherent.replica r ((live r).mpr alive)
  obtain ⟨forwarded, sends, emitted, traffic, -, -⟩ := w.receive_spec r issuer
  have last : t.clock = u64Max :=
    le_antisymm (clocks.bounded t member isKey) (not_lt.mp fun below => untracked ⟨isKey, below⟩)
  intro out isOut
  rw [sends] at isOut
  cases traffic with
  | absorbed stale _ => exact absurd stale (replica.not_stale isKey)
  | relayed _ _ _ _ _ _ _ =>
    obtain rfl := List.mem_singleton.mp isOut
    exact ⟨rfl, rfl⟩
  | loaded _ _ _ _ _ _ =>
    obtain rfl := List.mem_singleton.mp isOut
    exact ⟨rfl, rfl⟩
  | issued _ isOwn _ _ _ =>
    obtain rfl := List.mem_singleton.mp isOut
    have homeR : r.val = t.issuer := (named r).symm.trans isOwn.symm
    have saturated : w.issueClock t.issuer = u64Max := by
      rcases clocks.issued t member isKey with below | full
      · have bound := (clocks.bounds t.issuer isKey.1).2
        omega
      · exact full
    have stamp : (w.node r).issueNewTrain.2.clock = w.issueClock t.issuer := by
      rw [← homeR, w.issueClock_eq]
      rfl
    exact ⟨isOwn.symm, by rw [stamp, saturated, last]⟩

end Receive

/-! ### The steps -/

section Steps

variable {base : List Payload} {st : RingState cfg} {entries : Fin cfg.ringSize → List Entry}

theorem Tokens.initial (mode : DeliveryMode) :
    Tokens (View.initial cfg mode) (RingState.initial cfg mode) where
  alive := fun p => ⟨fun _ => Finset.notMem_empty _, fun _ => View.alive_initial mode p⟩
  flying := fun _ member => absurd member List.not_mem_nil
  single := List.Pairwise.nil
  tracked := fun _ member => absurd member List.not_mem_nil
  passed := fun _ member => absurd member List.not_mem_nil
  unstarted := fun q _ _ => ⟨dif_pos q.isLt, fun _ member => absurd member List.not_mem_nil⟩

/-- The nodes and the trains after a broadcast, as far as the laps are concerned. -/
theorem broadcast_keeps (w : World cfg) (p : Fin cfg.ringSize) (data : List UInt8) :
    (w.broadcast p data).emitted = w.emitted ∧
      (∀ q, (w.broadcast p data).issueClock q = w.issueClock q) ∧
      (∀ x q, ((w.broadcast p data).node x).seenClock q = (w.node x).seenClock q) ∧
      ∀ x key, (w.node x).Settled key → ((w.broadcast p data).node x).Settled key := by
  obtain ⟨⟨quiet, -⟩, clocks, delivery, waiting, -, -⟩ := (w.node p).handleBroadcast_keeps data
  have clock : ((w.node p).handleBroadcast data).1.nextIssueClock = (w.node p).nextIssueClock := by
    unfold TrainsNode.handleBroadcast
    split <;> rfl
  have self : (w.broadcast p data).node p = ((w.node p).handleBroadcast data).1 :=
    w.act_node_self p _
  have other : ∀ x, x ≠ p → (w.broadcast p data).node x = w.node x :=
    fun x ne => w.act_node_of_ne p _ ne
  refine ⟨?_, World.issueClock_congr fun x => ?_, fun x q => ?_, fun x key settled => ?_⟩
  · show w.emitted ++ forwards ((w.node p).handleBroadcast data).2 = w.emitted
    rw [quiet, List.append_nil]
  · by_cases here : x = p
    · rw [here, self, clock]
    · rw [other x here]
  · by_cases here : x = p
    · rw [here, self, TrainsNode.seenClock, clocks, TrainsNode.seenClock]
    · rw [other x here]
  · by_cases here : x = p
    · rw [here] at settled ⊢
      rw [self, TrainsNode.Settled, delivery, waiting]
      exact settled
    · rw [other x here]
      exact settled

theorem Tokens.broadcast (tokens : Tokens view st) (p : Fin cfg.ringSize) (data : List UInt8) :
    Tokens view (st.broadcast p data) := by
  obtain ⟨emitted, clock, seen, settled⟩ := broadcast_keeps st.world p data
  refine ⟨tokens.alive, fun e member => ?_, tokens.single, fun e member isTracked => ?_,
    fun t member isKey c low high x alive => ?_, fun q issuer waiting => ?_⟩
  · show e.2 ∈ (st.world.broadcast p data).emitted
    rw [emitted]
    exact tokens.flying e member
  · refine (tokens.tracked e member isTracked).keep (clock _) (fun t' inside _ _ => ?_)
      (fun x => seen x _) settled
    rw [← emitted]
    exact inside
  · have old : t ∈ st.world.emitted := emitted ▸ member
    exact settled x _ (tokens.passed t old isKey c low high x alive)
  · obtain ⟨one, none⟩ := tokens.unstarted q issuer waiting
    exact ⟨(clock q).trans one, none⟩

theorem Clocks.broadcast (clocks : Clocks view w) (p : Fin cfg.ringSize) (data : List UInt8) :
    Clocks view (w.broadcast p data) := by
  obtain ⟨emitted, clock, seen, -⟩ := broadcast_keeps w p data
  refine clocks.relay clock (fun t member => emitted ▸ member)
    (fun t member => ⟨t, emitted ▸ member, rfl⟩) fun x _ q _ => Or.inl (seen x q)

/-- The issue clocks a received train leaves alone. -/
theorem receive_issueClock {r : Fin cfg.ringSize} {t : Train} (named : w.Named)
    (issuer : t.issuer < cfg.ringSize) {q : Nat} (other : q ≠ t.issuer) :
    (w.receive r t).issueClock q = w.issueClock q := by
  obtain ⟨forwarded, -, -, traffic, -, -⟩ := w.receive_spec r issuer
  unfold World.issueClock
  split_ifs with inside
  · by_cases here : (⟨q, inside⟩ : Fin cfg.ringSize) = r
    · rw [here]
      cases traffic with
      | absorbed _ same => rw [same]
      | relayed _ _ _ _ clock _ _ => exact clock
      | loaded _ _ _ _ clock _ => exact clock
      | issued _ own _ _ _ =>
        exact absurd ((congrArg Fin.val here).trans ((named r).symm.trans own.symm)) other
    · rw [w.receive_node_of_ne r here]
  · rfl

/-- The other tracked trains in flight have other issuers than a train of the view. -/
theorem Tokens.apart (tokens : Tokens view st) {before after : List (Fin cfg.ringSize × Train)}
    {s : Fin cfg.ringSize} {t : Train} (shape : st.inflight = before ++ (s, t) :: after)
    (isKey : view.Key t.key) :
    ∀ e ∈ before ++ after, Tracked view e.2 → e.2.issuer ≠ t.issuer := by
  intro e inside isTracked same
  have pairs := tokens.single
  rw [shape, List.pairwise_middle fun different left right =>
    (different right left).symm] at pairs
  have member : e ∈ st.inflight := (RingState.left_sublist shape).subset inside
  have emitted : t ∈ st.world.emitted := tokens.flying (s, t) (by
    rw [shape]
    exact List.mem_append_right _ List.mem_cons_self)
  by_cases both : Tracked view t
  · exact (List.pairwise_cons.mp pairs).1 e inside both isTracked same.symm
  · have newest := (tokens.tracked e member isTracked).newest t emitted isKey same.symm
    exact both ⟨isKey, lt_of_le_of_lt newest isTracked.2⟩

/-- What the receiver of a train of the view sends. -/
theorem Tokens.sends (tokens : Tokens view st) (coherent : Coherent view base st.world entries)
    (named : st.world.Named) (clocks : Clocks view st.world)
    (complete : Complete view st.world) {s r : Fin cfg.ringSize} {t : Train}
    (member : (s, t) ∈ st.inflight) (next : nextAlive cfg.ringSize st.dead s = r.val)
    (alive : r.val ∉ st.dead) (isKey : view.Key t.key) :
    ∀ out ∈ forwards ((st.world.node r).step (.trainReceived t)).2, out.issuer = t.issuer ∧
      (Tracked view out → Tracked view t ∧ Token view (st.world.receive r t) st.dead r out) ∧
      (∀ c, view.floor.get t.issuer < c → c < out.clock → ∀ x : Fin cfg.ringSize,
        x.val ∉ st.dead → ((st.world.receive r t).node x).Settled ⟨c, t.issuer⟩) := by
  have emitted : t ∈ st.world.emitted := tokens.flying _ member
  have passed := tokens.passed t emitted isKey
  by_cases isTracked : Tracked view t
  · intro out isOut
    obtain ⟨issuer, token, settled⟩ := Token.receive coherent named clocks complete tokens.alive
      next alive emitted isTracked (tokens.tracked _ member isTracked) passed out isOut
    exact ⟨issuer, fun outTracked => ⟨isTracked, token outTracked⟩, settled⟩
  · intro out isOut
    obtain ⟨issuer, clock⟩ := receive_untracked coherent named clocks tokens.alive alive emitted
      isKey isTracked out isOut
    refine ⟨issuer, fun outTracked => absurd ⟨isKey, clock ▸ outTracked.2⟩ isTracked,
      fun c low high x xAlive => ?_⟩
    exact (st.world.receive_evolves r isKey.1.inside x).settled _
      (passed c low (clock ▸ high) x xAlive)

/-- The issuer of a train in flight is at most one ahead of it. -/
theorem Tokens.issueClock_le (tokens : Tokens view st) (clocks : Clocks view st.world)
    {s : Fin cfg.ringSize} {t : Train} (member : (s, t) ∈ st.inflight) (isKey : view.Key t.key) :
    st.world.issueClock t.issuer ≤ t.clock + 1 := by
  by_cases isTracked : Tracked view t
  · exact (tokens.tracked _ member isTracked).next.le
  · have last : ¬ t.clock < u64Max := fun below => isTracked ⟨isKey, below⟩
    have bound := (clocks.bounds t.issuer isKey.1).2
    omega

/-- The clocks after a train of the view has been received. -/
theorem Clocks.receive (tokens : Tokens view st) (coherent : Coherent view base st.world entries)
    (named : st.world.Named) (clocks : Clocks view st.world) {s r : Fin cfg.ringSize} {t : Train}
    (member : (s, t) ∈ st.inflight) (alive : r.val ∉ st.dead) (isKey : view.Key t.key) :
    Clocks view (st.world.receive r t) := by
  have emittedT : t ∈ st.world.emitted := tokens.flying _ member
  have issuer : t.issuer < cfg.ringSize := isKey.1.inside
  have live : view.Alive r := (tokens.alive r).mpr alive
  have replica := coherent.replica r live
  obtain ⟨forwarded, -, emitted, traffic, evolves, stores⟩ := st.world.receive_spec r issuer
  have grows : ∀ x ∈ st.world.emitted, x ∈ (st.world.receive r t).emitted := fun x inside => by
    rw [emitted]
    exact List.mem_append_left _ inside
  have stored : ∀ x : Fin cfg.ringSize, view.Alive x → ∀ q, view.Issuer q →
      ((st.world.receive r t).node x).seenClock q = (st.world.node x).seenClock q ∨
        ∃ t' ∈ (st.world.receive r t).emitted, view.Key t'.key ∧ t'.issuer = q ∧
          t'.clock = ((st.world.receive r t).node x).seenClock q := by
    intro x _ q _
    by_cases here : x = r
    · rw [here]
      exact (stores q).imp_right fun ⟨same, clock⟩ =>
        ⟨t, grows t emittedT, isKey, same.symm, clock.symm⟩
    · rw [st.world.receive_node_of_ne r here]
      exact Or.inl rfl
  have relay : (∀ q, (st.world.receive r t).issueClock q = st.world.issueClock q) →
      (∀ out ∈ forwarded, out.key = t.key) → Clocks view (st.world.receive r t) := by
    intro same keys
    refine clocks.relay same grows (fun out isOut => ?_) stored
    rw [emitted] at isOut
    rcases List.mem_append.mp isOut with old | new
    · exact ⟨out, old, rfl⟩
    · exact ⟨t, emittedT, (keys out new).symm⟩
  have still : ((st.world.receive r t).node r).nextIssueClock =
      (st.world.node r).nextIssueClock → ∀ q, (st.world.receive r t).issueClock q =
        st.world.issueClock q := by
    intro same
    refine World.issueClock_congr fun x => ?_
    by_cases here : x = r
    · rw [here, same]
    · rw [st.world.receive_node_of_ne r here]
  cases traffic with
  | absorbed stale _ => exact absurd stale (replica.not_stale isKey)
  | relayed _ _ _ _ clock _ _ =>
    exact relay (still clock) fun out isOut => congrArg Train.key (List.mem_singleton.mp isOut)
  | loaded _ _ _ _ clock _ =>
    refine relay (still clock) fun out isOut => ?_
    rw [List.mem_singleton.mp isOut]
    rfl
  | issued _ own done _ clock =>
    have home : t.issuer = r.val := own.trans (named r)
    have isIssuer : view.Issuer r := home ▸ isKey.1
    have ahead : st.world.issueClock r ≤ t.clock + 1 := by
      rw [← home]
      exact tokens.issueClock_le clocks member isKey
    have caught : ∀ i, view.Issuer i → st.world.issueClock r ≤ st.world.issueClock i := by
      intro i other
      have seen : t.clock ≤ (st.world.node r).seenClock i := replica.seen_of_done isKey done other
      have bound := (clocks.bounds r isIssuer).2
      rcases clocks.seen_lt live other with below | full
      · omega
      · omega
    have stamp : (st.world.node r).issueNewTrain.2.issuer = r.val ∧
        (st.world.node r).issueNewTrain.2.clock = st.world.issueClock r :=
      ⟨named r, (st.world.issueClock_eq r).symm⟩
    refine clocks.issue isIssuer caught stamp ?_ ?_ emitted ?_
    · rw [World.issueClock_eq, clock, st.world.issueClock_eq]
    · exact fun q other => receive_issueClock named issuer (home ▸ other)
    · intro x q
      by_cases here : x = r
      · rw [here]
        rcases stores q with same | ⟨same, stamped⟩
        · exact same
        · have seen : t.clock ≤ (st.world.node r).seenClock q :=
            replica.seen_of_done isKey done (same ▸ isKey.1)
          exact le_antisymm (stamped.le.trans seen) (evolves.seen q)
      · rw [st.world.receive_node_of_ne r here]

section Hop

variable {before after : List (Fin cfg.ringSize × Train)} {s r : Fin cfg.ringSize} {t : Train}

/-- **A train of the view** goes on. -/
theorem Tokens.carry (tokens : Tokens view st) (coherent : Coherent view base st.world entries)
    (named : st.world.Named) (clocks : Clocks view st.world) (complete : Complete view st.world)
    (shape : st.inflight = before ++ (s, t) :: after) (next : nextAlive cfg.ringSize st.dead s = r.val)
    (alive : r.val ∉ st.dead) (isKey : view.Key t.key) :
    Tokens view { st with
      world := st.world.receive r t, inflight := before ++ after ++ st.sends r t } := by
  have member : (s, t) ∈ st.inflight := shape ▸ List.mem_append_right _ List.mem_cons_self
  have rest : ∀ e ∈ before ++ after, e ∈ st.inflight := fun e inside =>
    (RingState.left_sublist shape).subset inside
  have foreign := tokens.apart shape isKey
  have issuer : t.issuer < cfg.ringSize := isKey.1.inside
  obtain ⟨forwarded, sends, emitted, traffic, -, -⟩ := st.world.receive_spec r issuer
  have facts := tokens.sends coherent named clocks complete member next alive isKey
  rw [sends] at facts
  have sent : st.sends r t = forwarded.map fun out => (r, out) := congrArg (List.map _) sends
  have inSends : ∀ e ∈ st.sends r t, e.1 = r ∧ e.2 ∈ forwarded := fun e inside => by
    rw [sent] at inside
    obtain ⟨out, isOut, rfl⟩ := List.mem_map.mp inside
    exact ⟨rfl, isOut⟩
  have settled : ∀ x key, (st.world.node x).Settled key →
      ((st.world.receive r t).node x).Settled key :=
    fun x key => (st.world.receive_evolves r issuer x).settled key
  refine ⟨tokens.alive, fun e inside => ?_, ?_, fun e inside isTracked => ?_,
    fun t' inside isKey' c low high x xAlive => ?_, fun q isIssuer waiting => ?_⟩
  · show e.2 ∈ (st.world.receive r t).emitted
    rw [emitted]
    rcases List.mem_append.mp inside with old | new
    · exact List.mem_append_left _ (tokens.flying e (rest e old))
    · exact List.mem_append_right _ (inSends e new).2
  · refine List.pairwise_append.mpr ⟨tokens.single.sublist (RingState.left_sublist shape), ?_, fun a old b new aTracked _ => ?_⟩
    · rw [sent]
      rcases traffic.single with none | ⟨out, one⟩
      · rw [none]
        exact List.Pairwise.nil
      · rw [one]
        exact List.pairwise_singleton _ _
    · rw [(facts b.2 (inSends b new).2).1]
      exact foreign a old aTracked
  · rcases List.mem_append.mp inside with old | new
    · have other := foreign e old isTracked
      refine (tokens.tracked e (rest e old) isTracked).keep
        (receive_issueClock named issuer other) (fun t' isOut _ same => ?_)
        (fun x => st.world.receive_seen_of_ne r issuer x other) settled
      have isOut : t' ∈ st.world.emitted ++ forwarded := emitted ▸ isOut
      exact (List.mem_append.mp isOut).elim id fun isNew =>
        absurd (same.symm.trans (facts t' isNew).1) other
    · obtain ⟨sender, isOut⟩ := inSends e new
      rw [sender]
      exact ((facts e.2 isOut).2.1 isTracked).2
  · have isOut : t' ∈ st.world.emitted ++ forwarded := emitted ▸ inside
    rcases List.mem_append.mp isOut with old | new
    · exact settled x _ (tokens.passed t' old isKey' c low high x xAlive)
    · obtain ⟨same, -, passed⟩ := facts t' new
      rw [same] at low ⊢
      exact passed c low high x xAlive
  · obtain ⟨one, none⟩ := tokens.unstarted q isIssuer waiting
    have other : t.issuer ≠ q.val := fun same => by
      have issued := clocks.issued t (tokens.flying _ member) isKey
      have low : view.floor.get t.issuer < t.clock := isKey.2
      have big : 1 < u64Max := by decide
      rw [same, one] at issued
      omega
    refine ⟨(receive_issueClock named issuer other.symm).trans one, fun e inside same => ?_⟩
    rcases List.mem_append.mp inside with old | new
    · exact none e (rest e old) same
    · exact absurd ((facts e.2 (inSends e new).2).1.symm.trans same) other

/-- **A stale train** changes nothing. -/
theorem Tokens.absorb (tokens : Tokens view st) (clocks : Clocks view st.world)
    (shape : st.inflight = before ++ (s, t) :: after) (stale : (st.world.node r).Stale t) :
    Tokens view { st with
        world := st.world.receive r t, inflight := before ++ after ++ st.sends r t } ∧
      Clocks view (st.world.receive r t) := by
  have rest : ∀ e ∈ before ++ after, e ∈ st.inflight := fun e inside =>
    (RingState.left_sublist shape).subset inside
  obtain ⟨forwarded, sends, emitted, traffic, -, -⟩ := st.world.receive_spec r stale.1
  have quiet : forwarded = [] ∧ (st.world.receive r t).node r = st.world.node r := by
    cases traffic with
    | absorbed _ same => exact ⟨rfl, same⟩
    | relayed fresh _ _ _ _ _ _ => exact absurd stale fresh
    | loaded fresh _ _ _ _ _ => exact absurd stale fresh
    | issued fresh _ _ _ _ => exact absurd stale fresh
  have nodes : ∀ x, (st.world.receive r t).node x = st.world.node x := fun x => by
    by_cases here : x = r
    · rw [here, quiet.2]
    · exact st.world.receive_node_of_ne r here t
  have same : ∀ q, (st.world.receive r t).issueClock q = st.world.issueClock q :=
    World.issueClock_congr fun x => by rw [nodes]
  have settled : ∀ x key, (st.world.node x).Settled key →
      ((st.world.receive r t).node x).Settled key := fun x key isSettled => by
    rw [nodes]
    exact isSettled
  have nothing : st.sends r t = [] := by
    show List.map _ _ = []
    rw [sends, quiet.1, List.map_nil]
  rw [quiet.1, List.append_nil] at emitted
  rw [nothing, List.append_nil]
  refine ⟨⟨tokens.alive, fun e inside => ?_, tokens.single.sublist (RingState.left_sublist shape), fun e inside isTracked => ?_,
    fun t' inside isKey' c low high x xAlive => ?_, fun q isIssuer waiting => ?_⟩, ?_⟩
  · show e.2 ∈ (st.world.receive r t).emitted
    rw [emitted]
    exact tokens.flying e (rest e inside)
  · refine (tokens.tracked e (rest e inside) isTracked).keep (same _) (fun t' isOut _ _ => ?_)
      (fun x => by rw [nodes]) settled
    rw [← emitted]
    exact isOut
  · have old : t' ∈ st.world.emitted := emitted ▸ inside
    exact settled x _ (tokens.passed t' old isKey' c low high x xAlive)
  · obtain ⟨one, none⟩ := tokens.unstarted q isIssuer waiting
    exact ⟨(same q).trans one, fun e inside => none e (rest e inside)⟩
  · refine clocks.relay same (fun x inside => emitted.symm ▸ inside)
      (fun x inside => ⟨x, emitted ▸ inside, rfl⟩) fun x _ q _ => Or.inl ?_
    rw [nodes]

/-- **One hop** of a train whose issuer is in use, or that is stale. -/
theorem Tokens.hop (tokens : Tokens view st) (coherent : Coherent view base st.world entries)
    (named : st.world.Named) (clocks : Clocks view st.world)
    (complete : Complete view st.world) {i : Nat} (here : st.inflight[i]? = some (s, t))
    (alive : (st.successor s).val ∉ st.dead)
    (known : view.floor.get t.issuer < t.clock → view.Alive t.issuer) :
    Tokens view (st.hop i) ∧ Clocks view (st.hop i).world := by
  obtain ⟨before, after, shape, -, hop⟩ := RingState.hop_eq here
  have member : (s, t) ∈ st.inflight := List.mem_of_getElem? here
  have trains : t.issuer < cfg.numTrains := coherent.ledger.issuers t (tokens.flying _ member)
  have next : nextAlive cfg.ringSize st.dead s = (st.successor s).val := rfl
  rw [hop]
  by_cases isKey : view.Key t.key
  · exact ⟨tokens.carry coherent named clocks complete shape next alive isKey,
      clocks.receive tokens coherent named member alive isKey⟩
  · have low : t.clock ≤ view.floor.get t.issuer := by
      by_contra above
      exact isKey ⟨⟨trains, known (not_le.mp above)⟩, not_le.mp above⟩
    have replica := coherent.replica (st.successor s) ((tokens.alive _).mpr alive)
    exact tokens.absorb clocks shape ⟨lt_of_lt_of_le trains cfg.trains_le, replica.floor ▸ low⟩

end Hop

/-- The nodes and the trains after an issuer has issued. -/
theorem issueInitial_keeps (w : World cfg) (p : Fin cfg.ringSize) :
    (w.issueInitial p).emitted = w.emitted ++ [(w.node p).issueNewTrain.2] ∧
      (w.issueInitial p).issueClock p = satSucc (w.issueClock p) ∧
      (∀ q, q ≠ p.val → (w.issueInitial p).issueClock q = w.issueClock q) ∧
      (∀ x q, ((w.issueInitial p).node x).seenClock q = (w.node x).seenClock q) ∧
      ∀ x key, (w.node x).Settled key → ((w.issueInitial p).node x).Settled key := by
  have self : (w.issueInitial p).node p = (w.node p).issueNewTrain.1 := w.act_node_self p _
  have other : ∀ x, x ≠ p → (w.issueInitial p).node x = w.node x :=
    fun x ne => w.act_node_of_ne p _ ne
  refine ⟨rfl, ?_, fun q ne => ?_, fun x q => ?_, fun x key settled => ?_⟩
  · rw [World.issueClock_eq, self, w.issueClock_eq]
    rfl
  · unfold World.issueClock
    split_ifs with inside
    · rw [other ⟨q, inside⟩ fun same => ne (congrArg Fin.val same)]
    · rfl
  · by_cases here : x = p
    · rw [here, self]
      rfl
    · rw [other x here]
  · by_cases here : x = p
    · rw [here] at settled ⊢
      rw [self]
      exact settled
    · rw [other x here]
      exact settled

/-- An issuer that has not started has emitted no train of the view. -/
theorem Tokens.unemitted (tokens : Tokens view st) (clocks : Clocks view st.world)
    {p : Fin cfg.ringSize} (issuer : view.Issuer p) (waiting : p.val ∉ st.started) :
    ∀ t ∈ st.world.emitted, view.Key t.key → t.issuer ≠ p.val := by
  intro t member isKey same
  have low : view.floor.get t.issuer < t.clock := isKey.2
  have issued := clocks.issued t member isKey
  have room : 1 < u64Max := by decide
  rw [same, (tokens.unstarted p issuer waiting).1] at issued
  omega

/-- **An issuer starts**: its train leaves on its first lap. -/
theorem Tokens.start (tokens : Tokens view st) (named : st.world.Named)
    (clocks : Clocks view st.world) {p : Fin cfg.ringSize} (issuer : view.Issuer p)
    (waiting : p.val ∉ st.started) :
    Tokens view (st.start p) ∧ Clocks view (st.start p).world := by
  obtain ⟨emitted, moved, others, seen, settled⟩ := issueInitial_keeps st.world p
  obtain ⟨one, none⟩ := tokens.unstarted p issuer waiting
  have alive : p.val ∉ st.dead := (tokens.alive p).mp issuer.2
  have id : (st.world.node p).issueNewTrain.2.issuer = p.val := named p
  have stamp : (st.world.node p).issueNewTrain.2.clock = st.world.issueClock p :=
    (st.world.issueClock_eq p).symm
  have room : 1 < u64Max := by decide
  have floor : view.floor.get p < 1 := by
    have above := clocks.above p issuer
    omega
  have unemitted := tokens.unemitted clocks issuer waiting
  have cases : ∀ t ∈ (st.world.issueInitial p).emitted,
      t ∈ st.world.emitted ∨ t = (st.world.node p).issueNewTrain.2 := fun t member => by
    rw [emitted] at member
    exact (List.mem_append.mp member).imp_right List.mem_singleton.mp
  refine ⟨⟨tokens.alive, fun e member => ?_, ?_, fun e member isTracked => ?_,
    fun t member isKey c low high x xAlive => ?_, fun q isIssuer waits => ?_⟩, ?_⟩
  · show e.2 ∈ (st.world.issueInitial p).emitted
    rw [emitted]
    rcases List.mem_append.mp member with old | new
    · exact List.mem_append_left _ (tokens.flying e old)
    · rw [List.mem_singleton.mp new]
      exact List.mem_append_right _ (List.mem_singleton_self _)
  · refine List.pairwise_append.mpr ⟨tokens.single, List.pairwise_singleton _ _,
      fun a old b new aTracked _ => ?_⟩
    rw [List.mem_singleton.mp new]
    exact fun same => none a old (same.trans id) aTracked
  · rcases List.mem_append.mp member with old | new
    · have other : e.2.issuer ≠ p.val := fun same => none e old same isTracked
      refine (tokens.tracked e old isTracked).keep (others _ other) (fun t' inside _ same => ?_)
        (fun x => seen x _) settled
      exact (cases t' inside).resolve_right fun isNew =>
        other (same.symm.trans ((congrArg Train.issuer isNew).trans id))
    · obtain rfl := List.mem_singleton.mp new
      refine Token.issued named alive ?_ (fun t' inside isKey' same => ?_)
        fun x xAlive => ?_
      · show (st.world.issueInitial p).issueClock p = _
        rw [moved, one]
        exact satSucc_of_lt room
      · rcases cases t' inside with old | isNew
        · exact absurd same (unemitted t' old isKey')
        · rw [isNew, stamp]
      · show ((st.world.issueInitial p).node x).seenClock p < _
        rw [seen, one]
        rcases clocks.source x ((tokens.alive x).mpr xAlive) p issuer with low | stored
        · rw [low]
          exact floor
        · obtain ⟨t', inside, isKey', same, -⟩ := stored
          exact absurd same (unemitted t' inside isKey')
  · rcases cases t member with old | rfl
    · exact settled x _ (tokens.passed t old isKey c low high x xAlive)
    · rw [stamp, one] at high
      omega
  · have other : q.val ≠ p.val := fun same => waits (by
      show q.val ∈ insert p.val st.started
      rw [same]
      exact Finset.mem_insert_self _ _)
    obtain ⟨first, nothing⟩ := tokens.unstarted q isIssuer fun inside =>
      waits (Finset.mem_insert_of_mem inside)
    refine ⟨(others q other).trans first, fun e member same => ?_⟩
    rcases List.mem_append.mp member with old | new
    · exact nothing e old same
    · rw [List.mem_singleton.mp new] at same
      exact absurd (same.symm.trans id) other
  · refine clocks.issue issuer (fun i isIssuer => ?_) ⟨id, stamp⟩ moved others emitted seen
    rw [one]
    exact (clocks.bounds i isIssuer).1

end Steps

end TrainsRing
