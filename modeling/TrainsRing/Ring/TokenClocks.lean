/-
**One train per issuer, and everybody's clock beside it.**

In every delivery mode the train of an issuer is the only one of that issuer in flight. Every process
has seen its clock or the one before, and those that have acked it have seen its clock. An issuer moves
on when its key is done. A key gets done by the acks of all processes, so everybody has seen its clock by
then, and the next clock raises no alarm.

* `Paced` — a train and the clocks of its issuer.
* `Paced.receive` — **one receipt keeps pace**, and makes nobody a suspect.
* `Observed` — a ring with the keys issued and the processes declared crashed.
* `tokens_paced` — **all reachable states** below the last clock.
-/

import TrainsRing.Interface.Calls
import TrainsRing.Reconfig.FrozenIssue
import TrainsRing.Ring.Tokens

namespace TrainsRing

variable {cfg : RingConfig} {mode : DeliveryMode} {w : World cfg}

/-- The train of an issuer with the issuer's next clock, the clocks seen and the acks. -/
structure Paced (w : World cfg) (t : Train) : Prop where
  next : w.issueClock t.issuer = t.clock + 1
  seen : ∀ p : Fin cfg.ringSize, (w.node p).seenClock t.issuer = t.clock ∨
    (w.node p).seenClock t.issuer + 1 = t.clock
  acked : ∀ p : Fin cfg.ringSize, t.isAckedBy p = true →
    p.val = t.issuer ∨ (w.node p).seenClock t.issuer = t.clock

/-- **A key done somewhere has been seen everywhere.** -/
theorem Coherent.seen_of_done {view : View cfg} {base : List Payload}
    {entries : Fin cfg.ringSize → List Entry} (coherent : Coherent view base w entries)
    {p : Fin cfg.ringSize} (alive : view.Alive p) {key : ClockKey} (isKey : view.Key key)
    (done : key ∈ (w.node p).delivery.doneKeys) (home : p.val = key.issuer) {x : Fin cfg.ringSize}
    (live : view.Alive x) : key.clock ≤ (w.node x).seenClock key.issuer := by
  have replica := coherent.replica p alive
  by_cases here : x = p
  · rw [here]
    exact replica.seen_of_done isKey done isKey.1
  · obtain ⟨entry, member, rfl⟩ := ((replica.done key).mp done).resolve_left
      (View.not_old_of_key isKey)
    obtain ⟨t, emitted, ready, same⟩ := replica.cargo entry member
    obtain rfl := same
    refine coherent.ledger.acks t emitted isKey x live (fun own => here ?_)
      (ready.acked x.isLt live)
    exact Fin.ext (own.trans home.symm)

/-- A train of a positive clock is a train of the initial view. -/
theorem key_initial {t : Train} (issuer : t.issuer < cfg.numTrains) (positive : 0 < t.clock) :
    (View.initial cfg mode).Key t.key :=
  ⟨⟨issuer, View.alive_initial mode _⟩, (Slots.get_zero t.issuer).trans_lt positive⟩

section Receive

variable {entries : Fin cfg.ringSize → List Entry} {r : Fin cfg.ringSize} {t : Train}

namespace Paced

variable (paced : Paced w t)

include paced

/-- **Nobody becomes a suspect.** -/
theorem unsuspected (isKey : (View.initial cfg mode).Key t.key) (below : t.clock < u64Max)
    (r : Fin cfg.ringSize) : suspects ((w.node r).step (.trainReceived t)).2 = [] := by
  show suspects ((w.node r).handleTrain t).2 = []
  rw [TrainsNode.suspects_handleTrain]
  split_ifs with quiet
  · rfl
  · obtain ⟨-, -, new⟩ := not_or.mp quiet |>.imp_right not_or.mp
    have expected : t.clock ≤ satSucc ((w.node r).seenClock t.issuer) := by
      have behind := seen_lt_of_not_replay isKey new
      rcases paced.seen r with same | before
      · omega
      · rw [satSucc_of_lt (by omega)]
        exact before.ge
    have noGap := (w.node r).clockState.checkAndUpdate_no_gap expected
    cases check : ((w.node r).clockState.checkAndUpdate t.issuer t.clock).2 with
    | ok => rfl
    | gap expected received => exact absurd check (noGap expected received)
    | duplicate => rfl

/-- The clocks seen keep pace, wherever the train goes. -/
theorem seen_receive (inside : t.issuer < cfg.ringSize) (p : Fin cfg.ringSize) :
    ((w.receive r t).node p).seenClock t.issuer = t.clock ∨
      ((w.receive r t).node p).seenClock t.issuer + 1 = t.clock := by
  by_cases here : p = r
  · obtain ⟨-, -, -, -, -, stores⟩ := w.receive_spec r inside
    rw [here]
    rcases stores t.issuer with same | ⟨-, same⟩
    · rw [same]
      exact paced.seen r
    · exact Or.inl same
  · rw [w.receive_node_of_ne r here]
    exact paced.seen p

theorem seen_of_le (inside : t.issuer < cfg.ringSize) {p : Fin cfg.ringSize}
    (known : t.clock ≤ ((w.receive r t).node p).seenClock t.issuer) :
    ((w.receive r t).node p).seenClock t.issuer = t.clock := by
  rcases paced.seen_receive inside p with same | behind
  · exact same
  · omega

/-- Who has acked the train has seen it, also afterwards. -/
theorem acked_receive (inside : t.issuer < cfg.ringSize) (p : Fin cfg.ringSize)
    (bit : t.isAckedBy p = true) :
    p.val = t.issuer ∨ ((w.receive r t).node p).seenClock t.issuer = t.clock := by
  refine (paced.acked p bit).imp_right fun known => paced.seen_of_le inside ?_
  exact known.ge.trans ((w.receive_evolves r inside p).seen _)

theorem still (same : ((w.receive r t).node r).nextIssueClock = (w.node r).nextIssueClock) :
    (w.receive r t).issueClock t.issuer = t.clock + 1 := by
  refine (World.issueClock_congr (fun x => ?_) _).trans paced.next
  by_cases here : x = r
  · rw [here, same]
  · rw [w.receive_node_of_ne r here]

/-- **A train relayed as it is** keeps pace. -/
theorem relayed (inside : t.issuer < cfg.ringSize)
    (clock : ((w.receive r t).node r).nextIssueClock = (w.node r).nextIssueClock) :
    Paced (w.receive r t) t :=
  ⟨paced.still clock, paced.seen_receive inside, paced.acked_receive inside⟩

/-- **A train that the receiver has loaded** keeps pace. -/
theorem visited (named : w.Named) (inside : t.issuer < cfg.ringSize)
    (clock : ((w.receive r t).node r).nextIssueClock = (w.node r).nextIssueClock)
    (stored : t.clock ≤ ((w.receive r t).node r).seenClock t.issuer) :
    Paced (w.receive r t) ((w.node r).loadTrain t) := by
  refine ⟨paced.still clock, paced.seen_receive inside, fun p bit => ?_⟩
  rw [isAckedBy_loaded named, Bool.or_eq_true] at bit
  rcases bit with old | mine
  · exact paced.acked_receive inside p old
  · obtain rfl := of_decide_eq_true mine
    exact Or.inr (paced.seen_of_le inside stored)

theorem stamp (home : r.val = t.issuer) : (w.node r).issueNewTrain.2.clock = t.clock + 1 := by
  rw [← paced.next, ← home, w.issueClock_eq]
  rfl

/-- **The train that replaces it** keeps pace: a key that is done has been seen by everybody. -/
theorem reissued (coherent : Coherent (View.initial cfg mode) [] w entries) (named : w.Named)
    (isKey : (View.initial cfg mode).Key t.key) (home : r.val = t.issuer)
    (done : t.key ∈ (w.node r).delivery.doneKeys)
    (clock : ((w.receive r t).node r).nextIssueClock = satSucc (w.node r).nextIssueClock)
    (room : (w.node r).issueNewTrain.2.clock < u64Max) :
    Paced (w.receive r t) (w.node r).issueNewTrain.2 := by
  have inside : t.issuer < cfg.ringSize := home ▸ r.isLt
  have stamp := paced.stamp home
  have issuer : (w.node r).issueNewTrain.2.issuer = t.issuer := (named r).trans home
  refine ⟨?_, fun p => ?_, fun p bit => ?_⟩
  · have before := paced.next
    rw [issuer, ← home, World.issueClock_eq, clock, stamp]
    rw [← home, World.issueClock_eq] at before
    rw [before, satSucc_of_lt (stamp ▸ room)]
  · have caught : t.clock ≤ (w.node p).seenClock t.issuer :=
      coherent.seen_of_done (View.alive_initial mode r) isKey done home (View.alive_initial mode p)
    have same := paced.seen_of_le inside
      (caught.trans ((w.receive_evolves r inside p).seen t.issuer))
    rw [issuer, stamp]
    exact Or.inr (by rw [same])
  · rw [isAckedBy_issued named] at bit
    rw [issuer]
    exact Or.inl ((congrArg Fin.val (of_decide_eq_true bit)).trans home)

/-- **One receipt**: one train is sent, of the same issuer and keeping pace again, and nobody becomes a
suspect. It has the same key, or it is the train the receiver issues. -/
theorem receive (coherent : Coherent (View.initial cfg mode) [] w entries) (named : w.Named)
    (member : t ∈ w.emitted) (positive : 0 < t.clock) (below : t.clock < u64Max) (r : Fin cfg.ringSize) :
    suspects ((w.node r).step (.trainReceived t)).2 = [] ∧
      ∃ out, forwards ((w.node r).step (.trainReceived t)).2 = [out] ∧ out.issuer = t.issuer ∧
        (out.clock < u64Max → Paced (w.receive r t) out) ∧
        (out.clock = t.clock ∧ (w.node r).issuedBy (.trainReceived t) = [] ∨
          out.clock = t.clock + 1 ∧
            ((w.node r).issuedBy (.trainReceived t)).map Train.key = [out.key]) := by
  have issuer := coherent.ledger.issuers t member
  have inside : t.issuer < cfg.ringSize := lt_of_lt_of_le issuer cfg.trains_le
  have isKey : (View.initial cfg mode).Key t.key := key_initial issuer positive
  have fresh := (coherent.replica r (View.alive_initial mode r)).not_stale isKey
  obtain ⟨forwarded, sends, -, traffic, -, -⟩ := w.receive_spec r inside
  refine ⟨paced.unsuspected isKey below r, ?_⟩
  cases traffic with
  | absorbed stale _ => exact absurd stale fresh
  | relayed _ _ undone _ clock _ _ =>
    exact ⟨t, sends, rfl, fun _ => paced.relayed inside clock,
      Or.inl ⟨rfl, if_neg fun recycles => undone recycles.2.1 recycles.2.2⟩⟩
  | loaded _ foreign _ _ clock stored =>
    exact ⟨_, sends, rfl, fun _ => paced.visited named inside clock stored,
      Or.inl ⟨rfl, if_neg fun recycles => foreign recycles.2.1⟩⟩
  | issued _ isOwn done _ clock =>
    have home : r.val = t.issuer := (named r).symm.trans isOwn.symm
    have recycles : (w.node r).Recycles (.trainReceived t) := ⟨fresh, isOwn, done⟩
    exact ⟨_, sends, isOwn.symm, paced.reissued coherent named isKey home done clock,
      Or.inr ⟨paced.stamp home, congrArg (List.map Train.key) (if_pos recycles)⟩⟩

end Paced

end Receive

/-! ### The ring -/

/-- The trains of an issuer among some trains in flight. -/
def trainsOf (q : Nat) (inflight : List (Fin cfg.ringSize × Train)) :
    List (Fin cfg.ringSize × Train) := inflight.filter fun e => e.2.issuer = q

theorem trainsOf_append (q : Nat) (first second : List (Fin cfg.ringSize × Train)) :
    trainsOf q (first ++ second) = trainsOf q first ++ trainsOf q second := List.filter_append ..

theorem trainsOf_self {q : Nat} {e : Fin cfg.ringSize × Train} (same : e.2.issuer = q) :
    trainsOf q [e] = [e] := List.filter_cons_of_pos (decide_eq_true same)

theorem trainsOf_ne {q : Nat} {e : Fin cfg.ringSize × Train} (other : e.2.issuer ≠ q) :
    trainsOf q [e] = [] := List.filter_cons_of_neg (by simpa using other)

namespace RingState

/-- The trains of an issuer in flight. -/
def flights (st : RingState cfg) (q : Nat) : List (Fin cfg.ringSize × Train) :=
  trainsOf q st.inflight

/-- The keys that a step issues. -/
def keysIssued (st : RingState cfg) : RingAction cfg → List ClockKey
  | .broadcast _ _ => []
  | .start p => [(st.world.node p).issueInitialTrain.2.key]
  | .hop i => match st.inflight[i]? with
    | none => []
    | some (sender, train) =>
      ((st.world.node (st.successor sender)).issuedBy (.trainReceived train)).map Train.key

/-- The processes that a step declares crashed. -/
def suspected (st : RingState cfg) : RingAction cfg → List Nat
  | .broadcast p data => suspects ((st.world.node p).step (.localBroadcast data)).2
  | .start _ => []
  | .hop i => match st.inflight[i]? with
    | none => []
    | some (sender, train) =>
      suspects ((st.world.node (st.successor sender)).step (.trainReceived train)).2

/-- No train has the last clock. -/
def Unsaturated (st : RingState cfg) : Prop := ∀ t ∈ st.world.emitted, t.clock < u64Max

end RingState

/-- The trains of a ring, in step with the clocks, one for every issuer that has started. -/
structure InStep (mode : DeliveryMode) (st : RingState cfg) : Prop where
  coherent : ∃ entries, Coherent (View.initial cfg mode) [] st.world entries
  named : st.world.Named
  live : st.dead = ∅
  flying : ∀ e ∈ st.inflight, e.2 ∈ st.world.emitted
  positive : ∀ t ∈ st.world.emitted, 0 < t.clock
  waiting : ∀ q : Fin cfg.ringSize, q.val ∉ st.started → st.flights q = [] ∧
    st.world.issueClock q = 1 ∧ ∀ p, (st.world.node p).seenClock q = 0
  single : ∀ q : Fin cfg.ringSize, q.val ∈ st.started →
    ∃ s t, st.flights q = [(s, t)] ∧ Paced st.world t

namespace InStep

variable {st : RingState cfg}

theorem initial (mode : DeliveryMode) : InStep mode (RingState.initial cfg mode) where
  coherent := ⟨_, Coherent.initial mode⟩
  named := fun _ => rfl
  live := rfl
  flying := fun _ member => absurd member List.not_mem_nil
  positive := fun _ member => absurd member List.not_mem_nil
  waiting := fun q _ => ⟨rfl, dif_pos q.isLt, fun _ => Slots.get_zero q⟩
  single := fun _ member => absurd member (Finset.notMem_empty _)

end InStep

/-- A train keeps pace when its issuer's clocks stay. -/
theorem Paced.keep {w' : World cfg} {t : Train} (paced : Paced w t)
    (clock : w'.issueClock t.issuer = w.issueClock t.issuer)
    (seen : ∀ p, (w'.node p).seenClock t.issuer = (w.node p).seenClock t.issuer) : Paced w' t := by
  refine ⟨clock.trans paced.next, fun p => ?_, fun p bit => ?_⟩
  · rw [seen]
    exact paced.seen p
  · rw [seen]
    exact paced.acked p bit

/-- **The keys a receipt issues**: the next one of the train's issuer when its clock goes on, else none. -/
theorem Paced.issues {w' : World cfg} {t out : Train} {keys : List ClockKey} (paced : Paced w t)
    (later : Paced w' out) (issuer : out.issuer = t.issuer)
    (others : ∀ q, q ≠ t.issuer → w'.issueClock q = w.issueClock q)
    (issued : out.clock = t.clock ∧ keys = [] ∨ out.clock = t.clock + 1 ∧ keys = [out.key]) (q : Nat) :
    w'.issueClock q = w.issueClock q ∧ (∀ key ∈ keys, key.issuer ≠ q) ∨
      w'.issueClock q = w.issueClock q + 1 ∧ keys = [⟨w.issueClock q, q⟩] := by
  have before := paced.next
  have next := later.next
  rw [issuer] at next
  rcases issued with ⟨clock, rfl⟩ | ⟨clock, rfl⟩
  · refine Or.inl ⟨?_, fun key listed => absurd listed List.not_mem_nil⟩
    by_cases own : q = t.issuer
    · rw [own, next, before, clock]
    · exact others q own
  · by_cases own : q = t.issuer
    · refine Or.inr ⟨by rw [own, next, before, clock], ?_⟩
      rw [own, Train.key, issuer, clock, before]
    · refine Or.inl ⟨others q own, fun key listed => ?_⟩
      rw [List.mem_singleton.mp listed]
      exact fun same => own (same.symm.trans issuer)

namespace InStep

variable {st : RingState cfg}

theorem broadcast (holds : InStep mode st) (p : Fin cfg.ringSize) (data : List UInt8) :
    InStep mode (st.broadcast p data) := by
  obtain ⟨entries, coherent⟩ := holds.coherent
  obtain ⟨emitted, clock, seen, -⟩ := broadcast_keeps st.world p data
  refine ⟨⟨_, coherent.broadcast (View.alive_initial mode p) data⟩, holds.named.broadcast p data,
    holds.live, fun e member => ?_, fun t member => ?_, fun q waits => ?_, fun q begun => ?_⟩
  · exact emitted ▸ holds.flying e member
  · exact holds.positive t (emitted ▸ member)
  · obtain ⟨none, one, unseen⟩ := holds.waiting q waits
    exact ⟨none, (clock q).trans one, fun x => (seen x q).trans (unseen x)⟩
  · obtain ⟨s, t, one, paced⟩ := holds.single q begun
    exact ⟨s, t, one, paced.keep (clock _) fun x => seen x _⟩

/-- **An issuer starts.** -/
theorem start (holds : InStep mode st) {p : Fin cfg.ringSize} (issues : p.val < cfg.numTrains)
    (waits : p.val ∉ st.started) : InStep mode (st.start p) := by
  obtain ⟨entries, coherent⟩ := holds.coherent
  obtain ⟨emitted, moved, others, seen, -⟩ := issueInitial_keeps st.world p
  obtain ⟨none, one, unseen⟩ := holds.waiting p waits
  have id : (st.world.node p).issueNewTrain.2.issuer = p.val := holds.named p
  have stamp : (st.world.node p).issueNewTrain.2.clock = 1 :=
    (st.world.issueClock_eq p).symm.trans one
  have cases : ∀ t ∈ (st.world.issueInitial p).emitted,
      t ∈ st.world.emitted ∨ t = (st.world.node p).issueNewTrain.2 := fun t member => by
    rw [emitted] at member
    exact (List.mem_append.mp member).imp_right List.mem_singleton.mp
  have flights : ∀ q : Nat, (st.start p).flights q =
      st.flights q ++ trainsOf q [(p, (st.world.node p).issueNewTrain.2)] :=
    fun q => trainsOf_append ..
  refine ⟨⟨_, coherent.issueInitial holds.named (View.alive_initial mode p) issues⟩,
    holds.named.act rfl, holds.live, fun e member => ?_, fun t member => ?_, fun q later => ?_,
    fun q begun => ?_⟩
  · show e.2 ∈ (st.world.issueInitial p).emitted
    rw [emitted]
    rcases List.mem_append.mp member with old | new
    · exact List.mem_append_left _ (holds.flying e old)
    · rw [List.mem_singleton.mp new]
      exact List.mem_append_right _ (List.mem_singleton_self _)
  · rcases cases t member with old | rfl
    · exact holds.positive t old
    · rw [stamp]
      exact Nat.one_pos
  · have other : q.val ≠ p.val := fun same => later (same ▸ Finset.mem_insert_self _ _)
    obtain ⟨noneQ, oneQ, unseenQ⟩ := holds.waiting q fun old => later (Finset.mem_insert_of_mem old)
    refine ⟨?_, (others q other).trans oneQ, fun x => (seen x q).trans (unseenQ x)⟩
    rw [flights, trainsOf_ne (id.trans_ne other.symm), List.append_nil, noneQ]
  · by_cases same : q.val = p.val
    · refine ⟨p, (st.world.node p).issueNewTrain.2, ?_, ?_, fun x => ?_, fun x bit => ?_⟩
      · rw [flights, trainsOf_self (id.trans same.symm), same, none, List.nil_append]
      · rw [id, stamp]
        show (st.world.issueInitial p).issueClock p = 2
        rw [moved, one]
        rfl
      · rw [id, stamp]
        exact Or.inr (congrArg (· + 1) ((seen x p).trans (unseen x)))
      · rw [isAckedBy_issued holds.named] at bit
        exact Or.inl ((congrArg Fin.val (of_decide_eq_true bit)).trans id.symm)
    · have old := (Finset.mem_insert.mp begun).resolve_left same
      obtain ⟨s, t, oneQ, paced⟩ := holds.single q old
      have issuer : t.issuer = q.val := by
        have member : (s, t) ∈ st.flights q := oneQ ▸ List.mem_singleton_self _
        exact of_decide_eq_true (List.mem_filter.mp member).2
      refine ⟨s, t, ?_, paced.keep (others _ (issuer ▸ same)) fun x => seen x _⟩
      rw [flights, trainsOf_ne (id.trans_ne (Ne.symm same)), List.append_nil, oneQ]

/-- The issuer of a train in flight has started. -/
theorem begun (holds : InStep mode st) {e : Fin cfg.ringSize × Train} (member : e ∈ st.inflight)
    {q : Fin cfg.ringSize} (issuer : e.2.issuer = q.val) : q.val ∈ st.started := by
  by_contra waits
  have listed : e ∈ st.flights q := List.mem_filter.mpr ⟨member, decide_eq_true issuer⟩
  rw [(holds.waiting q waits).1] at listed
  exact List.not_mem_nil listed

theorem issuer_of_flights {q : Nat} {e : Fin cfg.ringSize × Train} (one : st.flights q = [e]) :
    e.2.issuer = q := by
  have member : e ∈ st.flights q := one ▸ List.mem_singleton_self _
  exact of_decide_eq_true (List.mem_filter.mp member).2

/-- A train in flight is the one of its issuer. -/
theorem alone (holds : InStep mode st) {e : Fin cfg.ringSize × Train} (member : e ∈ st.inflight)
    (inside : e.2.issuer < cfg.ringSize) : st.flights e.2.issuer = [e] ∧ Paced st.world e.2 := by
  obtain ⟨s, t, one, paced⟩ := holds.single ⟨e.2.issuer, inside⟩
    (holds.begun member (q := ⟨e.2.issuer, inside⟩) rfl)
  have listed : e ∈ st.flights e.2.issuer := List.mem_filter.mpr ⟨member, decide_eq_true rfl⟩
  have one : st.flights e.2.issuer = [(s, t)] := one
  rw [one] at listed
  obtain rfl := List.mem_singleton.mp listed
  exact ⟨one, paced⟩

/-- The only train of its issuer leaves, and one of the same issuer takes its place. -/
theorem trainsOf_replace {before rest : List (Fin cfg.ringSize × Train)}
    {e out : Fin cfg.ringSize × Train} (same : out.2.issuer = e.2.issuer) :
    (trainsOf e.2.issuer (before ++ e :: rest) = [e] →
      trainsOf e.2.issuer (before ++ rest ++ [out]) = [out]) ∧
    ∀ q, q ≠ e.2.issuer →
      trainsOf q (before ++ rest ++ [out]) = trainsOf q (before ++ e :: rest) := by
  have middle : ∀ q, trainsOf q (before ++ e :: rest) =
      trainsOf q before ++ trainsOf q [e] ++ trainsOf q rest := fun q => by
    rw [← List.singleton_append, ← List.append_assoc, trainsOf_append, trainsOf_append]
  refine ⟨fun one => ?_, fun q other => ?_⟩
  · rw [middle, trainsOf_self rfl] at one
    have count := congrArg List.length one
    simp only [List.length_append, List.length_singleton] at count
    have front : trainsOf e.2.issuer before = [] := List.eq_nil_of_length_eq_zero (by omega)
    have back : trainsOf e.2.issuer rest = [] := List.eq_nil_of_length_eq_zero (by omega)
    rw [trainsOf_append, trainsOf_append, front, back, trainsOf_self same]
    rfl
  · rw [middle, trainsOf_append, trainsOf_append, trainsOf_ne (same ▸ other.symm),
      trainsOf_ne other.symm, List.append_nil, List.append_nil]

/-- **A train is received.** Nobody becomes a suspect, and a key issued has the issuer's next clock. -/
theorem hop (holds : InStep mode st) (unsaturated : st.Unsaturated) {i : Nat}
    (legal : (RingAction.hop i).Legal st) (after : (st.hop i).Unsaturated) :
    InStep mode (st.hop i) ∧ st.suspected (.hop i) = [] ∧
      ∀ q : Nat, (st.hop i).world.issueClock q = st.world.issueClock q ∧
          (∀ key ∈ st.keysIssued (.hop i), key.issuer ≠ q) ∨
        (st.hop i).world.issueClock q = st.world.issueClock q + 1 ∧
          st.keysIssued (.hop i) = [⟨st.world.issueClock q, q⟩] := by
  obtain ⟨entries, coherent⟩ := holds.coherent
  obtain ⟨⟨s, t⟩, here, -⟩ := legal
  obtain ⟨before, rest, shape, -, hop⟩ := RingState.hop_eq here
  have member : (s, t) ∈ st.inflight := List.mem_of_getElem? here
  have emittedT := holds.flying _ member
  have issuer := coherent.ledger.issuers t emittedT
  have inside : t.issuer < cfg.ringSize := lt_of_lt_of_le issuer cfg.trains_le
  obtain ⟨one, pacedT⟩ := holds.alone member inside
  obtain ⟨calm, out, sends, outIssuer, stays, issues⟩ := pacedT.receive coherent holds.named emittedT
    (holds.positive t emittedT) (unsaturated t emittedT) (st.successor s)
  have sent : st.sends (st.successor s) t = [(st.successor s, out)] :=
    congrArg (List.map fun out => (st.successor s, out)) sends
  have world : (st.hop i).world = st.world.receive (st.successor s) t :=
    congrArg RingState.world hop
  have inflight : (st.hop i).inflight = before ++ rest ++ [(st.successor s, out)] := by
    rw [hop, ← sent]
  have emitted : (st.hop i).world.emitted = st.world.emitted ++ [out] := by
    rw [world, ← sends]
    rfl
  have outBelow : out.clock < u64Max := after out (by
    rw [emitted]
    exact List.mem_append_right _ (List.mem_singleton_self _))
  have paced := world ▸ stays outBelow
  have others : ∀ q, q ≠ t.issuer →
      (st.hop i).world.issueClock q = st.world.issueClock q ∧
      ∀ x, ((st.hop i).world.node x).seenClock q = (st.world.node x).seenClock q := by
    intro q other
    rw [world]
    exact ⟨receive_issueClock holds.named inside other,
      fun x => st.world.receive_seen_of_ne _ inside x other⟩
  have keys : st.keysIssued (.hop i) =
      ((st.world.node (st.successor s)).issuedBy (.trainReceived t)).map Train.key := by
    simp only [RingState.keysIssued, show st.inflight[i]? = some (s, t) from here]
  refine ⟨⟨?_, ?_, ?_, fun e listed => ?_, fun x listed => ?_, fun q waits => ?_,
    fun q started => ?_⟩, ?_, fun q => ?_⟩
  · rw [world]
    obtain ⟨delivered, next⟩ := coherent.receive holds.named (View.alive_initial mode _) emittedT
      fun _ => View.alive_initial mode _
    exact ⟨_, next⟩
  · rw [world]
    exact holds.named.receive _ inside
  · rw [hop]
    exact holds.live
  · rw [inflight] at listed
    rw [emitted]
    rcases List.mem_append.mp listed with old | new
    · exact List.mem_append_left _ (holds.flying e ((RingState.left_sublist shape).subset old))
    · rw [List.mem_singleton.mp new]
      exact List.mem_append_right _ (List.mem_singleton_self _)
  · rw [emitted] at listed
    rcases List.mem_append.mp listed with old | new
    · exact holds.positive x old
    · rw [List.mem_singleton.mp new]
      have known := holds.positive t emittedT
      rcases issues with ⟨clock, -⟩ | ⟨clock, -⟩
      · exact clock ▸ known
      · rw [clock]
        exact Nat.succ_pos _
  · have unstarted : q.val ∉ st.started := by
      rw [hop] at waits
      exact waits
    obtain ⟨none, first, unseen⟩ := holds.waiting q unstarted
    have other : q.val ≠ t.issuer := fun same => unstarted (holds.begun member same.symm)
    refine ⟨?_, (others q other).1.trans first, fun x => ((others q other).2 x).trans (unseen x)⟩
    show trainsOf q (st.hop i).inflight = []
    rw [inflight, (trainsOf_replace (e := (s, t)) outIssuer).2 q other, ← shape]
    exact none
  · have known : q.val ∈ st.started := by
      rw [hop] at started
      exact started
    by_cases own : q.val = t.issuer
    · refine ⟨st.successor s, out, ?_, paced⟩
      show trainsOf q (st.hop i).inflight = _
      rw [inflight, own]
      exact (trainsOf_replace (e := (s, t)) outIssuer).1 (shape ▸ one)
    · obtain ⟨sQ, tQ, oneQ, pacedQ⟩ := holds.single q known
      have issuerQ : tQ.issuer = q.val := issuer_of_flights oneQ
      refine ⟨sQ, tQ, ?_, pacedQ.keep ?_ fun x => ?_⟩
      · show trainsOf q (st.hop i).inflight = _
        rw [inflight, (trainsOf_replace (e := (s, t)) outIssuer).2 q own, ← shape]
        exact oneQ
      · rw [issuerQ]
        exact (others q own).1
      · rw [issuerQ]
        exact (others q own).2 x
  · simp only [RingState.suspected, show st.inflight[i]? = some (s, t) from here]
    exact calm
  · rw [keys]
    refine pacedT.issues paced outIssuer (fun q other => (others q other).1) (issues.imp_left ?_) q
    rintro ⟨clock, none⟩
    exact ⟨clock, congrArg (List.map Train.key) none⟩

end InStep

/-! ### Whole runs -/

/-- A ring with the keys issued and the processes declared crashed so far, in order. -/
structure Observed (cfg : RingConfig) where
  ring : RingState cfg
  issued : List ClockKey
  declared : List Nat

/-- The ring without crashes, observed. -/
def observedNetwork (cfg : RingConfig) (mode : DeliveryMode) :
    Machine (Observed cfg) (RingAction cfg) where
  start := fun st => st = ⟨RingState.initial cfg mode, [], []⟩
  legal := fun st action => action.Legal st.ring
  next := fun st action => ⟨st.ring.apply action, st.issued ++ st.ring.keysIssued action,
    st.declared ++ st.ring.suspected action⟩

instance (cfg : RingConfig) (mode : DeliveryMode) (st : Observed cfg) (action : RingAction cfg) :
    Decidable ((observedNetwork cfg mode).legal st action) :=
  inferInstanceAs (Decidable (action.Legal st.ring))

/-- Every step of a ring emits after what was emitted before. -/
theorem RingState.emitted_grows (st : RingState cfg) (action : RingAction cfg) :
    st.world.emitted <+: (st.apply action).world.emitted := by
  cases action with
  | broadcast p data => exact List.prefix_append _ _
  | start p => exact List.prefix_append _ _
  | hop i =>
    show _ <+: (st.hop i).world.emitted
    unfold RingState.hop
    split
    · exact List.prefix_rfl
    · exact List.prefix_append _ _

/-- The observations: no key twice, each below its issuer's next clock, and nobody declared. -/
structure Observing (mode : DeliveryMode) (st : Observed cfg) : Prop where
  inStep : InStep mode st.ring
  distinct : st.issued.Nodup
  past : ∀ key ∈ st.issued, key.clock < st.ring.world.issueClock key.issuer
  calm : st.declared = []

namespace Observing

/-- A step that issues the next key of one process, or none. -/
theorem issue {st : Observed cfg} (holds : Observing mode st) {action : RingAction cfg}
    (inStep : InStep mode (st.ring.apply action)) (quiet : st.ring.suspected action = [])
    (clocks : ∀ q : Nat, (st.ring.apply action).world.issueClock q = st.ring.world.issueClock q ∧
          (∀ key ∈ st.ring.keysIssued action, key.issuer ≠ q) ∨
        (st.ring.apply action).world.issueClock q = st.ring.world.issueClock q + 1 ∧
          st.ring.keysIssued action = [⟨st.ring.world.issueClock q, q⟩]) :
    Observing mode ((observedNetwork cfg mode).next st action) := by
  have fresh : ∀ key ∈ st.ring.keysIssued action, key.clock = st.ring.world.issueClock key.issuer ∧
      (st.ring.apply action).world.issueClock key.issuer = key.clock + 1 ∧
      st.ring.keysIssued action = [key] := by
    intro key member
    rcases clocks key.issuer with ⟨-, other⟩ | ⟨moved, one⟩
    · exact absurd rfl (other key member)
    · have same : key = ⟨st.ring.world.issueClock key.issuer, key.issuer⟩ :=
        List.mem_singleton.mp (one ▸ member)
      have clock := congrArg ClockKey.clock same
      exact ⟨clock, by rw [moved, clock], one.trans (congrArg (fun key => [key]) same.symm)⟩
  refine ⟨inStep, ?_, fun key member => ?_, ?_⟩
  · show (st.issued ++ st.ring.keysIssued action).Nodup
    refine holds.distinct.append ?_ fun key old new => ?_
    · rcases List.eq_nil_or_concat' (st.ring.keysIssued action) with none | ⟨front, key, shape⟩
      · rw [none]
        exact List.nodup_nil
      · rw [(fresh key (by rw [shape]; simp)).2.2]
        exact List.nodup_singleton key
    · exact absurd (fresh key new).1 (holds.past key old).ne
  · show key.clock < (st.ring.apply action).world.issueClock key.issuer
    rcases List.mem_append.mp member with old | new
    · have below := holds.past key old
      rcases clocks key.issuer with ⟨same, -⟩ | ⟨moved, -⟩
      · omega
      · omega
    · rw [(fresh key new).2.1]
      exact Nat.lt_succ_self _
  · show st.declared ++ st.ring.suspected action = []
    rw [holds.calm, quiet]
    rfl

/-- **Every step keeps the observations**, as long as no train has the last clock. -/
theorem step {st : Observed cfg} (holds : Observing mode st) {action : RingAction cfg}
    (legal : action.Legal st.ring) (after : (st.ring.apply action).Unsaturated) :
    Observing mode ((observedNetwork cfg mode).next st action) := by
  have unsaturated : st.ring.Unsaturated := fun t member =>
    after t ((st.ring.emitted_grows action).subset member)
  have inStep := holds.inStep
  cases action with
  | broadcast p data =>
    refine holds.issue (inStep.broadcast p data) ?_ fun q => Or.inl ⟨?_, ?_⟩
    · show suspects ((st.ring.world.node p).handleBroadcast data).2 = []
      unfold TrainsNode.handleBroadcast
      split_ifs <;> rfl
    · exact (broadcast_keeps st.ring.world p data).2.1 q
    · exact fun key none => absurd none List.not_mem_nil
  | start p =>
    obtain ⟨issues, -, waits⟩ := legal
    obtain ⟨-, moved, others, -, -⟩ := issueInitial_keeps st.ring.world p
    obtain ⟨-, one, -⟩ := inStep.waiting p waits
    have key : (st.ring.world.node p).issueInitialTrain.2.key =
        ⟨st.ring.world.issueClock p, p.val⟩ := by
      rw [World.issueClock_eq]
      exact congrArg (ClockKey.mk _) (inStep.named p)
    refine holds.issue (inStep.start issues waits) rfl fun q => ?_
    by_cases own : q = p.val
    · rw [own]
      refine Or.inr ⟨?_, congrArg (fun key => [key]) key⟩
      show (st.ring.world.issueInitial p).issueClock p = _
      rw [moved, one]
      rfl
    · refine Or.inl ⟨others q own, fun other member => ?_⟩
      rw [List.mem_singleton.mp member, key]
      exact fun same => own same.symm
  | hop i =>
    obtain ⟨next, calm, clocks⟩ := inStep.hop unsaturated legal after
    exact holds.issue next calm clocks

end Observing

theorem observing_reachable {st : Observed cfg} (reachable : (observedNetwork cfg mode).Reachable st)
    (unsaturated : st.ring.Unsaturated) : Observing mode st := by
  refine Machine.invariant (P := fun st => st.ring.Unsaturated → Observing mode st) ?_ ?_ reachable
    unsaturated
  · rintro _ rfl _
    exact ⟨.initial mode, List.nodup_nil, fun key none => absurd none List.not_mem_nil, rfl⟩
  · intro st action holds legal after
    have before : st.ring.Unsaturated := fun t member =>
      after t ((st.ring.emitted_grows action).subset member)
    exact (holds before).step legal after

/-- **In every mode and every reachable state below the last clock**: the issuers that have started have
one train in flight each, whose clock is one below the issuer's next one; every process has seen that
clock or the one before, and those besides the issuer that have acked the train have seen it. No key has
been issued twice and nobody has been declared crashed. -/
theorem tokens_paced {cfg : RingConfig} {mode : DeliveryMode} {st : Observed cfg}
    (reachable : (observedNetwork cfg mode).Reachable st)
    (unsaturated : ∀ t ∈ st.ring.world.emitted, t.clock < u64Max) :
    (∀ q : Fin cfg.ringSize, q.val ∉ st.ring.started → st.ring.flights q = []) ∧
    (∀ q : Fin cfg.ringSize, q.val ∈ st.ring.started → ∃ s t, st.ring.flights q = [(s, t)] ∧
      (st.ring.world.node q).nextIssueClock = t.clock + 1 ∧
      ∀ p : Fin cfg.ringSize,
        ((st.ring.world.node p).seenClock q = t.clock ∨
          (st.ring.world.node p).seenClock q + 1 = t.clock) ∧
        (t.isAckedBy p = true → p = q ∨ (st.ring.world.node p).seenClock q = t.clock)) ∧
    st.issued.Nodup ∧ st.declared = [] := by
  have holds := observing_reachable reachable unsaturated
  refine ⟨fun q waits => (holds.inStep.waiting q waits).1, fun q begun => ?_, holds.distinct,
    holds.calm⟩
  obtain ⟨s, t, one, paced⟩ := holds.inStep.single q begun
  have issuer : t.issuer = q.val := InStep.issuer_of_flights one
  refine ⟨s, t, one, ?_, fun p => ⟨?_, fun bit => ?_⟩⟩
  · have next := paced.next
    rw [issuer, World.issueClock_eq] at next
    exact next
  · exact issuer ▸ paced.seen p
  · have seen := paced.acked p bit
    rw [issuer] at seen
    exact seen.imp_left Fin.ext

/-- Two issuers' trains on their first laps, one of them back home. -/
def observedRun : List (RingAction .triple) :=
  [.start 0, .start 1, .hop 0, .broadcast 2 [4], .hop 0, .hop 0, .hop 1]

def observedState : Observed .triple :=
  (observedNetwork .triple .uniformTotalOrder).run ⟨.initial .triple .uniformTotalOrder, [], []⟩
    observedRun

theorem tokens_paced_triple : observedState.issued.Nodup ∧ observedState.declared = [] :=
  (tokens_paced (Machine.reachable_run rfl (by decide +kernel)) (by decide +kernel)).2.2

end TrainsRing
