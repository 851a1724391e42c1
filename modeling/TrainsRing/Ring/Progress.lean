/-
**The ring makes progress.**

`Machine.Rounds` measures a run by how often every train has been received. In a lap every train is
received as often as there are processes, with any delays and in any relative order. Three laps bring
every issuer to its next clock: in the first its train comes home and is ready, in the second everybody
settles its key, in the third it is replaced.

* `Moves`, `Laps` — the steps that receive a train of an issuer; runs cut into laps.
* `RingInvariant.hops` — one hop.
* `Going` — a ring all of whose issuers have started, with the invariants of `NoLoss` and
  `TokenClocks`; `Going.carried` — a train is a token that goes around.
* `Going.lap` — **three laps**; `Going.advance` — any number of them.
* `Going.boards` — a payload that waits boards a train while the clocks move on.
* `delivered_within_nine_laps` — **every accepted broadcast is delivered everywhere after nine laps**,
  and laps can always be run.
-/

import TrainsRing.Library.Sweep
import TrainsRing.Ring.NoLoss
import TrainsRing.Ring.TokenClocks

namespace TrainsRing

variable {cfg : RingConfig} {mode : DeliveryMode} {st : RingState cfg}

/-! ### Laps -/

/-- A step receives a train of issuer `q`. -/
def Moves (q : Nat) (st : RingState cfg) : RingAction cfg → Prop
  | .broadcast _ _ => False
  | .start _ => False
  | .hop i => ∃ e ∈ st.inflight[i]?, e.2.issuer = q

instance (q : Nat) (st : RingState cfg) : (action : RingAction cfg) → Decidable (Moves q st action)
  | .broadcast _ _ => instDecidableFalse
  | .start _ => instDecidableFalse
  | .hop i => inferInstanceAs (Decidable (∃ e ∈ st.inflight[i]?, e.2.issuer = q))

/-- Legal runs one after the other, in each of which every train is received as often as there are
processes. -/
def Laps (mode : DeliveryMode) (st : RingState cfg) (laps : List (List (RingAction cfg))) : Prop :=
  (ringNetwork cfg mode).Rounds Moves (List.range cfg.numTrains) cfg.ringSize st laps

instance (mode : DeliveryMode) (st : RingState cfg) (laps : List (List (RingAction cfg))) :
    Decidable (Laps mode st laps) :=
  inferInstanceAs (Decidable ((ringNetwork cfg mode).Rounds _ _ _ st laps))

/-- The next process around the ring. -/
def nextAround (x : Fin cfg.ringSize) : Fin cfg.ringSize :=
  ⟨nextAlive cfg.ringSize ∅ x, nextAlive_lt x.isLt⟩

theorem around (x y : Fin cfg.ringSize) :
    ∃ j, 1 ≤ j ∧ j ≤ cfg.ringSize ∧ nextAround^[j] x = y := by
  have values : ∀ j, (nextAround^[j] x).val = (nextAlive cfg.ringSize ∅)^[j] x.val := by
    intro j
    induction j with
    | zero => rfl
    | succ j ih =>
      rw [Function.iterate_succ_apply', Function.iterate_succ_apply', ← ih]
      rfl
  have everyone : inUse cfg.ringSize ∅ = Finset.range cfg.ringSize :=
    Finset.filter_true_of_mem fun _ _ => Finset.notMem_empty _
  have here : x.val ∈ inUse cfg.ringSize ∅ := everyone ▸ Finset.mem_range.mpr x.isLt
  have there : y.val ∈ inUse cfg.ringSize ∅ := everyone ▸ Finset.mem_range.mpr y.isLt
  obtain ⟨back, all⟩ := nextAlive_cycle here
  rw [everyone, Finset.card_range] at back all
  obtain ⟨j, ⟨short, reached⟩, -⟩ := all y.val (everyone ▸ there)
  rcases Nat.eq_zero_or_pos j with rfl | positive
  · refine ⟨cfg.ringSize, Nat.zero_lt_of_lt x.isLt, le_rfl, Fin.ext ?_⟩
    rw [values, back, ← reached]
    rfl
  · exact ⟨j, positive, short.le, Fin.ext ((values j).trans reached)⟩

/-- The `i`-th train in flight is received from `s`, and one of its issuer takes its place. -/
structure Hops (st : RingState cfg) (i : Nat) (s : Fin cfg.ringSize) (t out : Train) : Prop where
  here : st.inflight[i]? = some (s, t)
  inflight : ∃ before rest, st.inflight = before ++ (s, t) :: rest ∧
    (st.hop i).inflight = before ++ rest ++ [(nextAround s, out)]
  world : (st.hop i).world = st.world.receive (nextAround s) t
  emitted : (st.hop i).world.emitted = st.world.emitted ++ [out]
  issuer : out.issuer = t.issuer
  traffic : (st.world.node (nextAround s)).Traffic t [out] ((st.hop i).world.node (nextAround s))

theorem Hops.member {i : Nat} {s : Fin cfg.ringSize} {t out : Train} (hops : Hops st i s t out) :
    (s, t) ∈ st.inflight := List.mem_of_getElem? hops.here

theorem Hops.sent {i : Nat} {s : Fin cfg.ringSize} {t out : Train} (hops : Hops st i s t out) :
    (nextAround s, out) ∈ (st.hop i).inflight := by
  obtain ⟨before, rest, -, inflight⟩ := hops.inflight
  rw [inflight]
  exact List.mem_append_right _ (List.mem_singleton_self _)

theorem Hops.others {i : Nat} {s : Fin cfg.ringSize} {t out : Train} (hops : Hops st i s t out)
    {e : Fin cfg.ringSize × Train} (member : e ∈ st.inflight) (other : e ≠ (s, t)) :
    e ∈ (st.hop i).inflight := by
  obtain ⟨before, rest, shape, inflight⟩ := hops.inflight
  rw [shape] at member
  rw [inflight]
  rcases List.mem_append.mp member with front | back
  · exact List.mem_append_left _ (List.mem_append_left _ front)
  · exact List.mem_append_left _ (List.mem_append_right _ ((List.mem_cons.mp back).resolve_left other))

/-- **A hop** of the ring without crashes. -/
theorem RingInvariant.hops {entries : Fin cfg.ringSize → List Entry}
    (inv : RingInvariant mode st entries) (total : mode ≠ .causalOrder) (live : st.dead = ∅) {i : Nat}
    (legal : (RingAction.hop i).Legal st) : ∃ s t out, Hops st i s t out := by
  obtain ⟨⟨s, t⟩, here, alive⟩ := legal
  obtain ⟨before, rest, shape, -, hop⟩ := RingState.hop_eq here
  have member : (s, t) ∈ st.inflight := List.mem_of_getElem? here
  have isKey := inv.keyed t (inv.tokens.flying _ member)
  have follows : st.successor s = nextAround s := by
    refine Fin.ext ?_
    show nextAlive cfg.ringSize st.dead s = nextAlive cfg.ringSize ∅ s
    rw [live]
  rw [follows] at alive hop
  obtain ⟨forwarded, sends, emitted, traffic, -, -⟩ :=
    st.world.receive_spec (nextAround s) isKey.1.inside
  have world : (st.hop i).world = st.world.receive (nextAround s) t := congrArg RingState.world hop
  obtain ⟨out, rfl⟩ : ∃ out, forwarded = [out] := by
    rcases traffic.single with rfl | one
    · cases traffic with
      | absorbed stale _ =>
        exact absurd stale ((inv.coherent.replica _ (View.alive_initial mode _)).not_stale isKey)
    · exact one
  refine ⟨s, t, out, here, ⟨before, rest, shape, ?_⟩, world, world ▸ emitted, ?_, world ▸ traffic⟩
  · have sent : st.sends (nextAround s) t = [(nextAround s, out)] :=
      congrArg (List.map fun out => (nextAround s, out)) sends
    rw [hop, ← sent]
  · exact (inv.tokens.sends inv.coherent inv.custody.ids inv.clocks
      (inv.complete total) member (congrArg Fin.val follows) alive isKey out
      (sends ▸ List.mem_singleton_self out)).1

/-! ### A ring that has started -/

/-- All issuers have started, and no train has the last clock. -/
structure Going (mode : DeliveryMode) (st : RingState cfg) : Prop where
  total : mode ≠ .causalOrder
  lossFree : LossFree mode st
  inStep : InStep mode st
  unsaturated : st.Unsaturated
  begun : ∀ q : Nat, q < cfg.numTrains → q ∈ st.started

namespace Going

/-- The train of an issuer. -/
theorem flight (going : Going mode st) {q : Nat} (issues : q < cfg.numTrains) :
    ∃ s t, (s, t) ∈ st.inflight ∧ t.issuer = q ∧ Paced st.world t ∧
      Token (View.initial cfg mode) st.world st.dead s t := by
  have inside : q < cfg.ringSize := lt_of_lt_of_le issues cfg.trains_le
  obtain ⟨s, t, one, paced⟩ := going.inStep.single ⟨q, inside⟩ (going.begun q issues)
  have member : (s, t) ∈ st.flights q := one ▸ List.mem_singleton_self _
  obtain ⟨entries, inv⟩ := going.lossFree.1
  have flying := (List.mem_filter.mp member).1
  have emitted := inv.tokens.flying _ flying
  exact ⟨s, t, flying, InStep.issuer_of_flights one, paced,
    inv.tokens.tracked _ flying ⟨inv.keyed t emitted, going.unsaturated t emitted⟩⟩

/-- An issuer has one train. -/
theorem single (going : Going mode st) {e e' : Fin cfg.ringSize × Train} (member : e ∈ st.inflight)
    (member' : e' ∈ st.inflight) (same : e.2.issuer = e'.2.issuer) : e = e' := by
  obtain ⟨entries, inv⟩ := going.lossFree.1
  have issues := (inv.keyed e.2 (inv.tokens.flying e member)).1.1
  have inside : e.2.issuer < cfg.ringSize := lt_of_lt_of_le issues cfg.trains_le
  obtain ⟨s, t, one, -⟩ := going.inStep.single ⟨e.2.issuer, inside⟩ (going.begun _ issues)
  have first : e ∈ st.flights e.2.issuer := List.mem_filter.mpr ⟨member, decide_eq_true rfl⟩
  have second : e' ∈ st.flights e.2.issuer :=
    List.mem_filter.mpr ⟨member', decide_eq_true same.symm⟩
  exact (List.mem_singleton.mp (one ▸ first)).trans (List.mem_singleton.mp (one ▸ second)).symm

/-- An issuer's next clock is one above that of its train. -/
theorem issueClock_eq (going : Going mode st) {s : Fin cfg.ringSize} {t : Train}
    (member : (s, t) ∈ st.inflight) : st.world.issueClock t.issuer = t.clock + 1 := by
  obtain ⟨entries, inv⟩ := going.lossFree.1
  have emitted := inv.tokens.flying _ member
  exact (inv.tokens.tracked _ member ⟨inv.keyed t emitted, going.unsaturated t emitted⟩).next

theorem hops (going : Going mode st) {i : Nat} (legal : (RingAction.hop i).Legal st) :
    ∃ s t out, Hops st i s t out := by
  obtain ⟨entries, inv⟩ := going.lossFree.1
  exact inv.hops going.total going.inStep.live legal

/-- **Every step keeps a ring going** below the last clock. -/
theorem step (going : Going mode st) {action : RingAction cfg} (legal : action.Legal st)
    (after : (st.apply action).Unsaturated) : Going mode (st.apply action) := by
  have lossFree := going.lossFree.step going.total legal
  cases action with
  | broadcast p data => exact ⟨going.total, lossFree, going.inStep.broadcast p data, after, going.begun⟩
  | start p => exact absurd (going.begun p legal.1) legal.2.2
  | hop i =>
    have started : (st.hop i).started = st.started := by
      unfold RingState.hop
      split <;> rfl
    refine ⟨going.total, lossFree, (going.inStep.hop going.unsaturated legal after).1, after,
      fun q issues => ?_⟩
    exact started ▸ going.begun q issues

theorem unsaturated_back {last : RingState cfg} (run : (ringNetwork cfg mode).Reaches st last)
    (below : last.Unsaturated) : st.Unsaturated := by
  refine run.preserves (P := fun last => last.Unsaturated → st.Unsaturated) ?_ id below
  exact fun middle action holds _ below =>
    holds fun t member => below t ((middle.emitted_grows action).subset member)

/-- The states of a run that ends below the last clock. -/
theorem throughout (run : List (RingAction cfg)) : ∀ {st : RingState cfg}, Going mode st →
    (ringNetwork cfg mode).LegalRun st run → ((ringNetwork cfg mode).run st run).Unsaturated →
      (ringNetwork cfg mode).Throughout (Going mode) st run := by
  induction run with
  | nil => exact fun going _ _ => going
  | cons action rest ih =>
    intro st going legal after
    have next : (st.apply action).Unsaturated :=
      unsaturated_back (Machine.reaches_run legal.2) after
    exact ⟨going, ih (going.step legal.1 next) legal.2 after⟩

/-- **A train is received from the station it stands at.** -/
theorem received (going : Going mode st) {q i : Nat} (legal : (RingAction.hop i).Legal st)
    (moves : Moves q st (.hop i)) {s : Fin cfg.ringSize}
    (stands : ∃ t, (s, t) ∈ st.inflight ∧ t.issuer = q) :
    ∃ t out, t.issuer = q ∧ Hops st i s t out := by
  obtain ⟨sender, t, out, hops⟩ := going.hops legal
  obtain ⟨e, found, own⟩ := moves
  obtain rfl : (sender, t) = e := Option.some.inj (hops.here.symm.trans found)
  obtain ⟨t', member, same⟩ := stands
  obtain ⟨rfl, rfl⟩ := Prod.mk.inj (going.single member hops.member (same.trans own.symm))
  exact ⟨t', out, same, hops⟩

/-- **The train of an issuer goes around.** -/
theorem carried (q : Nat) : (ringNetwork cfg mode).Carried (Going mode) (Moves q) nextAround
    fun s st => ∃ t, (s, t) ∈ st.inflight ∧ t.issuer = q where
  still := by
    rintro st action s going - legal calm ⟨t, member, same⟩
    cases action with
    | broadcast p data => exact ⟨t, member, same⟩
    | start p => exact ⟨t, List.mem_append_left _ member, same⟩
    | hop i =>
      obtain ⟨sender, train, out, hops⟩ := going.hops legal
      refine ⟨t, hops.others member fun moved => calm ?_, same⟩
      exact ⟨(s, t), moved ▸ hops.here, same⟩
  moved := by
    intro st action s going _ legal moves stands
    cases action with
    | broadcast p data => exact absurd moves not_false
    | start p => exact absurd moves not_false
    | hop i =>
      obtain ⟨t, out, same, hops⟩ := going.received legal moves stands
      exact ⟨out, hops.sent, hops.issuer.trans same⟩

/-- **A step** adds at most one to the largest clock. -/
theorem bounded_step (going : Going mode st) {bound : Nat}
    (low : ∀ t ∈ st.world.emitted, t.clock ≤ bound)
    {action : RingAction cfg} (legal : action.Legal st) :
    ∀ t ∈ (st.apply action).world.emitted, t.clock ≤ bound + 1 := by
  intro t member
  cases action with
  | broadcast p data =>
    exact (low t ((broadcast_keeps st.world p data).1 ▸ member)).trans (Nat.le_succ _)
  | start p => exact absurd (going.begun p legal.1) legal.2.2
  | hop i =>
    obtain ⟨s, received, out, hops⟩ := going.hops legal
    obtain ⟨entries, inv⟩ := going.lossFree.1
    have known := low received (inv.tokens.flying _ hops.member)
    have member : t ∈ (st.hop i).world.emitted := member
    rw [hops.emitted] at member
    rcases List.mem_append.mp member with old | new
    · exact (low t old).trans (Nat.le_succ _)
    · obtain rfl := List.mem_singleton.mp new
      cases hops.traffic with
      | relayed _ _ _ _ _ _ _ => exact known.trans (Nat.le_succ _)
      | loaded _ _ _ _ _ _ => exact known.trans (Nat.le_succ _)
      | issued _ own _ _ _ =>
        have next := going.issueClock_eq hops.member
        rw [own, going.inStep.named, World.issueClock_eq] at next
        exact next.trans_le (Nat.succ_le_succ known)

/-- Clocks grow no faster than steps are taken. -/
theorem bounded_run (run : List (RingAction cfg)) : ∀ {st : RingState cfg} {bound : Nat},
    Going mode st → (∀ t ∈ st.world.emitted, t.clock ≤ bound) → bound + run.length < u64Max →
      (ringNetwork cfg mode).LegalRun st run →
        Going mode ((ringNetwork cfg mode).run st run) ∧
          ∀ t ∈ ((ringNetwork cfg mode).run st run).world.emitted, t.clock ≤ bound + run.length := by
  induction run with
  | nil => exact fun going low _ _ => ⟨going, low⟩
  | cons action rest ih =>
    intro st bound going low room legal
    rw [List.length_cons] at room
    have next := going.bounded_step low legal.1
    obtain ⟨goes, far⟩ := ih (going.step legal.1 fun t member =>
      (next t member).trans_lt (by omega)) next (by omega) legal.2
    refine ⟨goes, fun t member => ?_⟩
    rw [List.length_cons]
    exact (far t member).trans (by omega)

theorem bounded_laps {size : Nat} (laps : List (List (RingAction cfg))) :
    ∀ {st : RingState cfg} {bound : Nat}, Going mode st →
      (∀ t ∈ st.world.emitted, t.clock ≤ bound) → (∀ lap ∈ laps, lap.length = size) →
      bound + laps.length * size < u64Max → Laps mode st laps →
        ((ringNetwork cfg mode).runAll st laps).Unsaturated := by
  induction laps with
  | nil => exact fun going _ _ _ _ => going.unsaturated
  | cons lap rest ih =>
    intro st bound going low sizes room rounds
    obtain ⟨⟨legal, -⟩, later⟩ := rounds
    have size_eq := sizes lap List.mem_cons_self
    rw [List.length_cons, Nat.succ_mul] at room
    obtain ⟨goes, far⟩ := going.bounded_run lap low (by omega) legal
    exact ih goes far (fun other member => sizes other (List.mem_cons_of_mem _ member)) (by omega) later

/-! ### What only grows -/

/-- **No step takes back** what has been seen and settled, and no clock runs backwards. -/
theorem grows (going : Going mode st) {action : RingAction cfg} (legal : action.Legal st)
    (after : (st.apply action).Unsaturated) :
    (∀ x q, (st.world.node x).seenClock q ≤ ((st.apply action).world.node x).seenClock q) ∧
      (∀ x key, (st.world.node x).Settled key → ((st.apply action).world.node x).Settled key) ∧
      ∀ q, st.world.issueClock q ≤ (st.apply action).world.issueClock q ∧
        (st.apply action).world.issueClock q ≤ st.world.issueClock q + 1 := by
  cases action with
  | broadcast p data =>
    obtain ⟨-, clock, seen, settled⟩ := broadcast_keeps st.world p data
    exact ⟨fun x q => (seen x q).ge, settled, fun q => ⟨(clock q).ge, (clock q).trans_le (Nat.le_succ _)⟩⟩
  | start p => exact absurd (going.begun p legal.1) legal.2.2
  | hop i =>
    obtain ⟨sender, train, out, hops⟩ := going.hops legal
    obtain ⟨entries, inv⟩ := going.lossFree.1
    have inside := (inv.keyed train (inv.tokens.flying _ hops.member)).1.inside
    have evolves := st.world.receive_evolves (nextAround sender) inside
    rw [← hops.world] at evolves
    refine ⟨fun x => (evolves x).seen, fun x => (evolves x).settled, fun q => ?_⟩
    rcases (going.inStep.hop going.unsaturated legal after).2.2 q with ⟨same, -⟩ | ⟨moved, -⟩
    · exact ⟨same.ge, same.trans_le (Nat.le_succ _)⟩
    · exact ⟨moved.ge.trans' (Nat.le_succ _), moved.le⟩

/-- Every issuer has issued its train of clock `c` or a later one. -/
def Issued (c : Nat) (st : RingState cfg) : Prop :=
  ∀ q : Nat, q < cfg.numTrains → c < st.world.issueClock q

/-- Every process has seen clock `c` of every issuer. -/
def Seen (c : Nat) (st : RingState cfg) : Prop :=
  ∀ q : Nat, q < cfg.numTrains → ∀ x, c ≤ (st.world.node x).seenClock q

/-- Every process has delivered or parked every key of clock `c`. -/
def Closed (c : Nat) (st : RingState cfg) : Prop :=
  ∀ q : Nat, q < cfg.numTrains → ∀ x, (st.world.node x).Settled ⟨c, q⟩

theorem issued_step {c : Nat} {action : RingAction cfg} (going : Going mode st)
    (next : Going mode (st.apply action)) (legal : action.Legal st) (issued : Issued c st) :
    Issued c (st.apply action) :=
  fun q issues => (issued q issues).trans_le ((going.grows legal next.unsaturated).2.2 q).1

theorem seen_step {c : Nat} {action : RingAction cfg} (going : Going mode st)
    (next : Going mode (st.apply action)) (legal : action.Legal st) (seen : Seen c st) :
    Seen c (st.apply action) :=
  fun q issues x => (seen q issues x).trans ((going.grows legal next.unsaturated).1 x q)

theorem closed_step {c : Nat} {action : RingAction cfg} (going : Going mode st)
    (next : Going mode (st.apply action)) (legal : action.Legal st) (closed : Closed c st) :
    Closed c (st.apply action) :=
  fun q issues x => (going.grows legal next.unsaturated).2.1 x _ (closed q issues x)

/-- Keys below a clock that all issuers have issued are settled. -/
theorem settled_of_issued {c : Nat} (going : Going mode st) (issued : Issued c st) {key : ClockKey}
    (isKey : (View.initial cfg mode).Key key) (below : key.clock < c) (x : Fin cfg.ringSize) :
    (st.world.node x).Settled key := by
  obtain ⟨entries, inv⟩ := going.lossFree.1
  obtain ⟨s, t, member, same, paced, -⟩ := going.flight isKey.1.1
  have emitted := inv.tokens.flying _ member
  have next := paced.next
  have ahead := issued key.issuer isKey.1.1
  rw [same] at next
  have settled := inv.tokens.passed t emitted (inv.keyed t emitted) key.clock (same ▸ isKey.2)
    (by omega) x ((inv.tokens.alive x).mp (View.alive_initial mode x))
  rwa [same] at settled

/-- **Keys below a clock that all issuers have issued are done** everywhere. -/
theorem done_of_issued {c : Nat} (going : Going mode st) (issued : Issued (c + 1) st) {key : ClockKey}
    (isKey : (View.initial cfg mode).Key key) (bounded : key.clock ≤ c) (x : Fin cfg.ringSize) :
    key ∈ (st.world.node x).delivery.doneKeys := by
  obtain ⟨entries, inv⟩ := going.lossFree.1
  have live : (View.initial cfg mode).Alive x := View.alive_initial mode x
  exact (inv.coherent.replica x live).done_of_settled (inv.coherent.drained x live) c
    (fun other known low => going.settled_of_issued issued known (Nat.lt_succ_of_le low) x) isKey bounded

/-! ### Three laps -/

section Laps

variable {c q : Nat} {run : List (RingAction cfg)}

/-- **The first lap**: everybody sees the clock of the train. -/
theorem lap_seen (issues : q < cfg.numTrains)
    (along : (ringNetwork cfg mode).Throughout (Going mode) st run)
    (legal : (ringNetwork cfg mode).LegalRun st run)
    (full : cfg.ringSize ≤ (ringNetwork cfg mode).count (Moves q) st run) (issued : Issued c st) :
    ∀ x, c ≤ (((ringNetwork cfg mode).run st run).world.node x).seenClock q := by
  obtain ⟨s, t, member, same, -⟩ := along.first.flight issues
  have both := along.and run legal (Q := Issued c)
    (fun st action going next legal issued => issued_step going next legal issued) issued
  refine ((carried q).mono fun st holds => holds.1).sweep
    (P := fun x st => c ≤ (st.world.node x).seenClock q) (fun st action x holds next legal seen => ?_)
    (fun st action s holds next legal moves stands => ?_) around both legal ⟨t, member, same⟩ full
  · exact seen.trans ((holds.1.grows legal next.1.unsaturated).1 x q)
  · obtain ⟨going, issued⟩ := holds
    cases action with
    | broadcast p data => exact absurd moves not_false
    | start p => exact absurd moves not_false
    | hop i =>
      obtain ⟨t, out, rfl, hops⟩ := going.received legal moves stands
      have low : c ≤ t.clock := by
        have next := going.issueClock_eq hops.member
        have ahead := issued t.issuer issues
        omega
      refine low.trans ?_
      cases hops.traffic with
      | relayed _ _ _ _ _ seen _ => exact seen
      | loaded _ _ _ _ _ seen => exact seen
      | issued _ _ done _ _ =>
        obtain ⟨entries, inv⟩ := going.lossFree.1
        have isKey := inv.keyed t (inv.tokens.flying _ hops.member)
        have known := (inv.coherent.replica (nextAround s) (View.alive_initial mode _)).seen_of_done
          isKey done isKey.1
        have legal : (RingAction.hop i).Legal st := legal
        exact known.trans ((going.grows legal next.1.unsaturated).1 _ _)

/-- **The second lap**: everybody settles the key of the train. -/
theorem lap_closed (issues : q < cfg.numTrains) (positive : 0 < c)
    (along : (ringNetwork cfg mode).Throughout (Going mode) st run)
    (legal : (ringNetwork cfg mode).LegalRun st run)
    (full : cfg.ringSize ≤ (ringNetwork cfg mode).count (Moves q) st run) (issued : Issued c st)
    (seen : Seen c st) :
    ∀ x, (((ringNetwork cfg mode).run st run).world.node x).Settled ⟨c, q⟩ := by
  obtain ⟨s, t, member, same, -⟩ := along.first.flight issues
  have both := along.and run legal (Q := fun st => Issued c st ∧ Seen c st)
    (fun st action going next legal holds =>
      ⟨issued_step going next legal holds.1, seen_step going next legal holds.2⟩) ⟨issued, seen⟩
  refine ((carried q).mono fun st holds => holds.1).sweep
    (P := fun x st => (st.world.node x).Settled ⟨c, q⟩) (fun st action x holds next legal settled => ?_)
    (fun st action s holds next legal moves stands => ?_) around both legal ⟨t, member, same⟩ full
  · exact (holds.1.grows legal next.1.unsaturated).2.1 x _ settled
  · -- the train has come home, so it is on its second lap
    obtain ⟨going, issued, seen⟩ := next
    obtain ⟨out, member, rfl⟩ := (carried q).moved st action s holds.1 going legal moves stands
    obtain ⟨entries, inv⟩ := going.lossFree.1
    have emitted := inv.tokens.flying _ member
    have isKey := inv.keyed out emitted
    have ahead := issued out.issuer issues
    rw [going.issueClock_eq member] at ahead
    rcases (Nat.lt_succ_iff.mp ahead).eq_or_lt with now | later
    · have token := inv.tokens.tracked _ member ⟨isKey, going.unsaturated out emitted⟩
      have home : out.issuer < cfg.ringSize := isKey.1.inside
      have lap := token.lap.resolve_left fun lap => by
        have unseen := lap.unseen ⟨out.issuer, home⟩ ((inv.tokens.alive _).mp isKey.1.2) fun _ => rfl
        exact absurd (now ▸ seen out.issuer issues ⟨out.issuer, home⟩) (not_le.mpr unseen)
      have settled := lap.settled (nextAround s) token.sender le_rfl
      rw [now]
      exact settled
    · exact inv.tokens.passed out emitted isKey c ((Slots.get_zero _).trans_lt positive) later
        (nextAround s) ((inv.tokens.alive _).mp (View.alive_initial mode _))

/-- **The third lap**: the issuer moves on. -/
theorem lap_issued (issues : q < cfg.numTrains)
    (along : (ringNetwork cfg mode).Throughout (Going mode) st run)
    (legal : (ringNetwork cfg mode).LegalRun st run)
    (full : cfg.ringSize ≤ (ringNetwork cfg mode).count (Moves q) st run) (issued : Issued c st)
    (closed : Closed c st) : c + 1 < ((ringNetwork cfg mode).run st run).world.issueClock q := by
  obtain ⟨s, t, member, same, -⟩ := along.first.flight issues
  have both := along.and run legal (Q := fun st => Issued c st ∧ Closed c st)
    (fun st action going next legal holds =>
      ⟨issued_step going next legal holds.1, closed_step going next legal holds.2⟩) ⟨issued, closed⟩
  have inside : q < cfg.ringSize := lt_of_lt_of_le issues cfg.trains_le
  refine ((carried q).mono fun st holds => holds.1).sweep
    (P := fun x st => x.val = q → c + 1 < st.world.issueClock q)
    (fun st action x holds next legal ahead home => ?_)
    (fun st action s holds next legal moves stands home => ?_) around both legal ⟨t, member, same⟩
    full ⟨q, inside⟩ rfl
  · exact (ahead home).trans_le ((holds.1.grows legal next.1.unsaturated).2.2 q).1
  · obtain ⟨going, issued, closed⟩ := holds
    cases action with
    | broadcast p data => exact absurd moves not_false
    | start p => exact absurd moves not_false
    | hop i =>
      have legal : (RingAction.hop i).Legal st := legal
      obtain ⟨t, out, rfl, hops⟩ := going.received legal moves stands
      obtain ⟨entries, inv⟩ := going.lossFree.1
      have isKey := inv.keyed t (inv.tokens.flying _ hops.member)
      have issuer := hops.issuer
      have next' : (st.hop i).world.issueClock out.issuer = out.clock + 1 :=
        next.1.issueClock_eq hops.sent
      have before := going.issueClock_eq hops.member
      have ahead := issued t.issuer issues
      show c + 1 < (st.hop i).world.issueClock t.issuer
      rcases (Nat.lt_succ_iff.mp (before ▸ ahead)).eq_or_lt with now | later
      · -- every key up to this clock is settled, so this one is done
        have live : (View.initial cfg mode).Alive (nextAround s) := View.alive_initial mode _
        have done : t.key ∈ (st.world.node (nextAround s)).delivery.doneKeys := by
          refine (inv.coherent.replica _ live).done_of_settled (inv.coherent.drained _ live) c
            (fun other known low => ?_) isKey now.ge
          rcases Nat.lt_or_eq_of_le low with below | top
          · exact going.settled_of_issued issued known below _
          · have settled := closed other.issuer known.1.1 (nextAround s)
            rwa [← top] at settled
        have own : t.issuer = (st.world.node (nextAround s)).id :=
          home.symm.trans (going.inStep.named _).symm
        cases hops.traffic with
        | relayed _ _ undone _ _ _ _ => exact absurd done (undone own)
        | loaded _ foreign _ _ _ _ => exact absurd own foreign
        | issued _ _ _ _ _ =>
          have stamp : (st.world.node (nextAround s)).issueNewTrain.2.clock = t.clock + 1 := by
            rw [← before, ← home, st.world.issueClock_eq]
            rfl
          rw [← issuer, next', stamp]
          omega
      · have kept := ((going.grows legal next.1.unsaturated).2.2 t.issuer).1
        have kept : st.world.issueClock t.issuer ≤ (st.hop i).world.issueClock t.issuer := kept
        omega

end Laps

/-- **A lap of all trains**: the ring goes on, what is issued, seen and closed stays so, and every train
takes the next of its three laps. -/
theorem lap {c : Nat} {run : List (RingAction cfg)} (going : Going mode st) (positive : 0 < c)
    (legal : (ringNetwork cfg mode).LegalRun st run)
    (full : ∀ q ∈ List.range cfg.numTrains,
      cfg.ringSize ≤ (ringNetwork cfg mode).count (Moves q) st run)
    (below : ((ringNetwork cfg mode).run st run).Unsaturated) (issued : Issued c st) :
    Going mode ((ringNetwork cfg mode).run st run) ∧ Issued c ((ringNetwork cfg mode).run st run) ∧
      Seen c ((ringNetwork cfg mode).run st run) ∧
      (Seen c st → Closed c ((ringNetwork cfg mode).run st run)) ∧
      (Closed c st → Issued (c + 1) ((ringNetwork cfg mode).run st run)) := by
  have along := going.throughout run legal below
  have kept := (along.and run legal (Q := Issued c)
    (fun st action going next legal issued => issued_step going next legal issued) issued).last
  refine ⟨kept.1, kept.2, fun q issues => ?_, fun seen q issues => ?_, fun closed q issues => ?_⟩
  · exact lap_seen issues along legal (full q (List.mem_range.mpr issues)) issued
  · exact lap_closed issues positive along legal (full q (List.mem_range.mpr issues)) issued seen
  · exact lap_issued issues along legal (full q (List.mem_range.mpr issues)) issued closed

theorem keep {c : Nat} {last : RingState cfg} (going : Going mode st) (issued : Issued c st)
    (run : (ringNetwork cfg mode).Reaches st last) (below : last.Unsaturated) :
    Going mode last ∧ Issued c last := by
  refine run.preserves (P := fun last => last.Unsaturated → Going mode last ∧ Issued c last) ?_
    (fun _ => ⟨going, issued⟩) below
  intro middle action holds legal below
  have before : middle.Unsaturated := fun t member =>
    below t ((middle.emitted_grows action).subset member)
  obtain ⟨going, issued⟩ := holds before
  have next := going.step legal below
  exact ⟨next, issued_step going next legal issued⟩

/-- **Three laps bring every issuer to its next clock.** -/
theorem advance (times : Nat) : ∀ {laps : List (List (RingAction cfg))} {st : RingState cfg} {c : Nat},
    3 * times ≤ laps.length → Going mode st → 0 < c → Issued c st → Laps mode st laps →
      ((ringNetwork cfg mode).runAll st laps).Unsaturated →
      Going mode ((ringNetwork cfg mode).runAll st laps) ∧
        Issued (c + times) ((ringNetwork cfg mode).runAll st laps) := by
  induction times with
  | zero => exact fun _ going _ issued rounds below =>
      going.keep issued (Machine.Rounds.reaches rounds) below
  | succ times ih =>
    intro laps st c many going positive issued rounds below
    obtain ⟨first, second, third, rest, rfl⟩ : ∃ first second third rest,
        laps = first :: second :: third :: rest := by
      match laps, many with
      | first :: second :: third :: rest, _ => exact ⟨first, second, third, rest, rfl⟩
    obtain ⟨⟨legal₁, full₁⟩, ⟨legal₂, full₂⟩, ⟨legal₃, full₃⟩, later⟩ := rounds
    have below₃ := unsaturated_back (Machine.Rounds.reaches later) below
    have below₂ := unsaturated_back (Machine.reaches_run legal₃) below₃
    have below₁ := unsaturated_back (Machine.reaches_run legal₂) below₂
    obtain ⟨going, issued, seen, -⟩ := going.lap positive legal₁ full₁ below₁ issued
    obtain ⟨going, issued, -, closed, -⟩ := going.lap positive legal₂ full₂ below₂ issued
    obtain ⟨going, issued, -, -, next⟩ := going.lap positive legal₃ full₃ below₃ issued
    have left : 3 * times ≤ rest.length := by
      simp only [List.length_cons] at many
      omega
    have whole := ih left going (Nat.succ_pos c) (next (closed seen)) later below
    rw [← Nat.add_assoc, Nat.add_right_comm]
    exact whole

/-! ### A payload -/

/-- **What waits at a process**, which has not seen a new clock or issued since a first state. -/
structure Waits (s : Fin cfg.ringSize) (m : Payload) (first st : RingState cfg) : Prop where
  pending : m ∈ (st.world.node s).pending
  seen : ∀ q, q ≠ s.val → (st.world.node s).seenClock q = (first.world.node s).seenClock q
  clock : st.world.issueClock s = first.world.issueClock s

/-- A payload is on a train of a clock up to a bound. -/
def Boarded (m : Payload) (bound : Nat) (st : RingState cfg) : Prop :=
  ∃ t ∈ st.world.emitted, m ∈ t.payloads ∧ t.clock ≤ bound

/-- **A payload leaves the queue** for a train when its process sees a new clock or issues. -/
theorem waits_step (going : Going mode st) {action : RingAction cfg} (legal : action.Legal st)
    (next : Going mode (st.apply action)) {s : Fin cfg.ringSize} {m : Payload} {first : RingState cfg}
    (waits : Waits s m first st) :
    Waits s m first (st.apply action) ∨ ∃ t ∈ (st.apply action).world.emitted, m ∈ t.payloads ∧
      ∀ i : Nat, i ≠ s.val → (st.apply action).world.issueClock i = st.world.issueClock i := by
  cases action with
  | broadcast p data =>
    left
    obtain ⟨-, clock, seen, -⟩ := broadcast_keeps st.world p data
    refine ⟨?_, fun q other => (seen s q).trans (waits.seen q other), (clock s).trans waits.clock⟩
    show m ∈ ((st.world.broadcast p data).node s).pending
    by_cases here : s = p
    · subst here
      have self : (st.world.broadcast s data).node s = ((st.world.node s).handleBroadcast data).1 :=
        st.world.act_node_self s _
      rw [self, ((st.world.node s).handleBroadcast_pending data).1]
      exact List.mem_append_left _ waits.pending
    · rw [show (st.world.broadcast p data).node s = st.world.node s from st.world.act_node_of_ne p _ here]
      exact waits.pending
  | start p => exact absurd (going.begun p legal.1) legal.2.2
  | hop i =>
    obtain ⟨sender, t, out, hops⟩ := going.hops legal
    obtain ⟨entries, inv⟩ := going.lossFree.1
    have isKey := inv.keyed t (inv.tokens.flying _ hops.member)
    have world := hops.world
    have others : ∀ x : Fin cfg.ringSize, x ≠ nextAround sender →
        (st.hop i).world.node x = st.world.node x := fun x other =>
      (congrArg (fun w => World.node w x) world).trans (st.world.receive_node_of_ne _ other t)
    by_cases receives : s = nextAround sender
    · subst receives
      have boards : m ∈ out.payloads → Waits (nextAround sender) m first (st.hop i) ∨
          ∃ t ∈ (st.hop i).world.emitted, m ∈ t.payloads ∧ ∀ i' : Nat, i' ≠ (nextAround sender).val →
            (st.hop i).world.issueClock i' = st.world.issueClock i' := by
        intro inside
        obtain ⟨_, inv'⟩ := next.lossFree.1
        refine Or.inr ⟨out, inv'.tokens.flying _ hops.sent, inside, fun i' other => ?_⟩
        unfold World.issueClock
        split_ifs with bound
        · rw [others ⟨i', bound⟩ fun same => other (congrArg Fin.val same)]
        · rfl
      obtain ⟨-, -, -, -, evolves, stores⟩ := st.world.receive_spec (nextAround sender) isKey.1.inside
      rw [← world] at evolves stores
      cases hops.traffic with
      | relayed _ known _ queue clock _ _ =>
        refine Or.inl ⟨?_, fun q other => ?_, ?_⟩
        · show m ∈ ((st.hop i).world.node (nextAround sender)).pending
          rw [queue]
          exact waits.pending
        · -- a train seen before brings no news
          refine Eq.trans ?_ (waits.seen q other)
          rcases stores q with same | ⟨rfl, stored⟩
          · exact same
          · have old := (known fun own => other (own.trans (going.inStep.named _))).1
            exact le_antisymm (stored.trans_le old) (evolves.seen _)
        · refine Eq.trans ?_ waits.clock
          show (st.hop i).world.issueClock (nextAround sender) = _
          rw [World.issueClock_eq, World.issueClock_eq, clock]
      | loaded _ _ _ _ _ _ => exact boards (List.mem_append_right _ waits.pending)
      | issued _ _ _ _ _ => exact boards waits.pending
    · left
      have same : (st.hop i).world.node s = st.world.node s := others s receives
      refine ⟨?_, fun q other => ?_, ?_⟩
      · show m ∈ ((st.hop i).world.node s).pending
        rw [same]
        exact waits.pending
      · show ((st.hop i).world.node s).seenClock q = _
        rw [same]
        exact waits.seen q other
      · show (st.hop i).world.issueClock s = _
        rw [World.issueClock_eq, same, ← World.issueClock_eq]
        exact waits.clock

/-- **A payload that waits** has boarded a train when the train of the slowest issuer has moved on. -/
theorem boards {c : Nat} {last : RingState cfg} (going : Going mode st) {s : Fin cfg.ringSize}
    {m : Payload} (pending : m ∈ (st.world.node s).pending) {i : Nat} (issues : i < cfg.numTrains)
    (slowest : st.world.issueClock i = c + 1) (run : (ringNetwork cfg mode).Reaches st last)
    (below : last.Unsaturated) (issued : Issued (c + 3) last) : Boarded m (c + 2) last := by
  have inside : i < cfg.ringSize := lt_of_lt_of_le issues cfg.trains_le
  -- as long as the payload waits, the issuer is at most one clock further
  have near : ∀ {middle : RingState cfg}, Going mode middle → Waits s m st middle →
      middle.world.issueClock i ≤ c + 2 ∧ (s.val = i → middle.world.issueClock i = c + 1) := by
    intro middle going' waits
    by_cases own : s.val = i
    · have same := waits.clock
      rw [own, slowest] at same
      exact ⟨same.trans_le (Nat.le_succ _), fun _ => same⟩
    · obtain ⟨_, t, -, issuer, paced, -⟩ := going.flight issues
      obtain ⟨_, t', -, issuer', paced', -⟩ := going'.flight issues
      have now := paced.next
      have later := paced'.next
      have first := paced.seen s
      have second := paced'.seen s
      have same := waits.seen i (Ne.symm own)
      rw [issuer] at now first
      rw [issuer'] at later second
      refine ⟨by omega, fun home => absurd home own⟩
  have whole : Going mode last ∧ (Waits s m st last ∨ Boarded m (c + 2) last) := by
    refine run.preserves (P := fun last => last.Unsaturated → Going mode last ∧
      (Waits s m st last ∨ Boarded m (c + 2) last)) ?_
      (fun _ => ⟨going, Or.inl ⟨pending, fun _ _ => rfl, rfl⟩⟩) below
    intro middle action holds legal below
    obtain ⟨going', state⟩ := holds fun t member =>
      below t ((middle.emitted_grows action).subset member)
    have next := going'.step legal below
    refine ⟨next, ?_⟩
    rcases state with waits | ⟨t, member, inside, low⟩
    · refine (going'.waits_step legal next waits).imp_right fun ⟨t, member, carries, others⟩ => ?_
      obtain ⟨entries, inv⟩ := next.lossFree.1
      have level := inv.clocks.level (View.balanced_initial mode) t member (inv.keyed t member) i
        ⟨issues, View.alive_initial mode i⟩
      refine ⟨t, member, carries, level.trans ?_⟩
      obtain ⟨low, home⟩ := near going' waits
      by_cases own : i = s.val
      · exact ((going'.grows legal below).2.2 i).2.trans (Nat.succ_le_succ (home own.symm).le)
      · rw [others i own]
        exact low
    · exact Or.inr ⟨t, (middle.emitted_grows action).subset member, inside, low⟩
  rcases whole.2 with waits | boarded
  · have far := issued i issues
    have close := (near whole.1 waits).1
    omega
  · exact boarded

/-- A payload on a train of a clock that all issuers have left behind has been delivered once. -/
theorem delivered {c : Nat} (going : Going mode st) (issued : Issued (c + 1) st) {m : Payload}
    (boarded : Boarded m c st) (x : Fin cfg.ringSize) : (st.world.log x).count m = 1 := by
  obtain ⟨⟨entries, inv⟩, -, gathered⟩ := going.lossFree
  obtain ⟨t, member, inside, low⟩ := boarded
  have live : (View.initial cfg mode).Alive x := View.alive_initial mode x
  have replica := inv.coherent.replica x live
  have isKey := inv.keyed t member
  obtain ⟨entry, recorded, same⟩ :=
    ((replica.done _).mp (going.done_of_issued issued isKey low x)).resolve_left
      (View.not_old_of_key isKey)
  obtain ⟨cargo, isOut, isReady, rfl⟩ := replica.cargo entry recorded
  have carries : m ∈ cargo.payloads := gathered.ready cargo isOut
    ⟨inv.keyed cargo isOut, going.unsaturated cargo isOut⟩ isReady t member same.symm m inside
  have shape : st.world.log x = (entries x).flatMap Entry.content := inv.coherent.logs x live
  rw [shape]
  exact List.count_eq_one_of_mem (replica.nodup_contents inv.custody)
    (List.mem_flatMap.mpr ⟨_, recorded, mem_sortPayloads.mpr carries⟩)

end Going

/-! ### The ring -/

/-- Every issuer that has started has a train in flight. -/
structure Manned (mode : DeliveryMode) (st : RingState cfg) : Prop where
  ring : ∃ entries, RingInvariant mode st entries
  live : st.dead = ∅
  trains : ∀ q ∈ st.started, ∃ e ∈ st.inflight, e.2.issuer = q

theorem Manned.step (total : mode ≠ .causalOrder) (manned : Manned mode st) {action : RingAction cfg}
    (legal : action.Legal st) : Manned mode (st.apply action) := by
  obtain ⟨entries, inv⟩ := manned.ring
  refine ⟨inv.step total legal, ?_, ?_⟩
  · cases action with
    | broadcast p data => exact manned.live
    | start p => exact manned.live
    | hop i =>
      show (st.hop i).dead = ∅
      unfold RingState.hop
      split
      · exact manned.live
      · exact manned.live
  · intro q started
    cases action with
    | broadcast p data => exact manned.trains q started
    | start p =>
      rcases Finset.mem_insert.mp started with rfl | old
      · exact ⟨(p, (st.world.node p).issueInitialTrain.2),
          List.mem_append_right _ (List.mem_singleton_self _), inv.custody.ids p⟩
      · obtain ⟨e, member, same⟩ := manned.trains q old
        exact ⟨e, List.mem_append_left _ member, same⟩
    | hop i =>
      obtain ⟨s, t, out, hops⟩ := inv.hops total manned.live legal
      have old : q ∈ st.started := by
        have started : q ∈ (st.hop i).started := started
        unfold RingState.hop at started
        split at started
        · exact started
        · exact started
      obtain ⟨e, member, same⟩ := manned.trains q old
      by_cases moved : e = (s, t)
      · rw [moved] at same
        exact ⟨_, hops.sent, hops.issuer.trans same⟩
      · exact ⟨e, hops.others member moved, same⟩

theorem manned_reachable (total : mode ≠ .causalOrder)
    (reachable : (ringNetwork cfg mode).Reachable st) : Manned mode st := by
  refine Machine.invariant (P := Manned mode) ?_ (fun _ _ manned legal => manned.step total legal)
    reachable
  rintro _ rfl
  exact ⟨⟨_, RingInvariant.initial mode⟩, rfl, fun q started => absurd started (Finset.notMem_empty q)⟩

theorem inStep_reachable (reachable : (ringNetwork cfg mode).Reachable st)
    (unsaturated : st.Unsaturated) : InStep mode st := by
  refine Machine.invariant (P := fun st => st.Unsaturated → InStep mode st) ?_ ?_ reachable unsaturated
  · rintro _ rfl _
    exact InStep.initial mode
  · intro st action holds legal after
    have before : st.Unsaturated := fun t member => after t ((st.emitted_grows action).subset member)
    cases action with
    | broadcast p data => exact (holds before).broadcast p data
    | start p => exact (holds before).start legal.1 legal.2.2
    | hop i => exact ((holds before).hop before legal after).1

/-- **Laps can always be run** once all issuers have started; one hop of every train past every process
is enough for each. -/
theorem laps_exist (total : mode ≠ .causalOrder) (reachable : (ringNetwork cfg mode).Reachable st)
    (begun : ∀ q : Nat, q < cfg.numTrains → q ∈ st.started) (times : Nat) :
    ∃ laps, laps.length = times ∧ (∀ lap ∈ laps, lap.length = cfg.numTrains * cfg.ringSize) ∧
      Laps mode st laps := by
  have grown : ∀ (st : RingState cfg) action, st.started ⊆ (st.apply action).started := by
    intro st action
    cases action with
    | broadcast p data => exact Finset.Subset.refl _
    | start p => exact Finset.subset_insert _ _
    | hop i =>
      show st.started ⊆ (st.hop i).started
      unfold RingState.hop
      split <;> exact Finset.Subset.refl _
  have keeps : ∀ (st : RingState cfg) action,
      (Manned mode st ∧ ∀ q : Nat, q < cfg.numTrains → q ∈ st.started) →
      (ringNetwork cfg mode).legal st action → Manned mode ((ringNetwork cfg mode).next st action) ∧
        ∀ q : Nat, q < cfg.numTrains → q ∈ ((ringNetwork cfg mode).next st action).started :=
    fun st action holds legal =>
      ⟨holds.1.step total legal, fun q issues => grown st action (holds.2 q issues)⟩
  have can : ∀ st : RingState cfg,
      (Manned mode st ∧ ∀ q : Nat, q < cfg.numTrains → q ∈ st.started) →
      ∀ q ∈ List.range cfg.numTrains,
        ∃ action, (ringNetwork cfg mode).legal st action ∧ Moves q st action := by
    intro st holds q member
    obtain ⟨e, flying, same⟩ := holds.1.trains q (holds.2 q (List.mem_range.mp member))
    obtain ⟨i, here⟩ := List.mem_iff_getElem?.mp flying
    refine ⟨.hop i, ⟨e, here, ?_⟩, ⟨e, here, same⟩⟩
    rw [holds.1.live]
    exact Finset.notMem_empty _
  have exist := Machine.rounds_exist keeps can cfg.ringSize times
    ⟨manned_reachable total reachable, begun⟩
  rw [List.length_range] at exist
  exact exist

theorem going_reachable (total : mode ≠ .causalOrder) (reachable : (ringNetwork cfg mode).Reachable st)
    (unsaturated : st.Unsaturated) (begun : ∀ q : Nat, q < cfg.numTrains → q ∈ st.started) :
    Going mode st :=
  ⟨total, lossFree_reachable total reachable, inStep_reachable reachable unsaturated, unsaturated, begun⟩

/-- **Every accepted broadcast is delivered.** In a ring without crashes whose issuers have all started,
laps can be run as often as one likes, and whatever a process had accepted before is delivered at every
process, exactly once, after nine of them: in whatever order and with whatever delays the trains are
received, and whatever else is broadcast meanwhile, as long as clocks stay below `u64::MAX`. -/
theorem delivered_within_nine_laps (total : mode ≠ .causalOrder)
    (reachable : (ringNetwork cfg mode).Reachable st)
    (begun : ∀ q : Nat, q < cfg.numTrains → q ∈ st.started) :
    (∀ times, ∃ laps, laps.length = times ∧
        (∀ lap ∈ laps, lap.length = cfg.numTrains * cfg.ringSize) ∧ Laps mode st laps) ∧
      ∀ laps, Laps mode st laps → 9 ≤ laps.length →
        ∀ last, last = (ringNetwork cfg mode).runAll st laps →
          (∀ t ∈ last.world.emitted, t.clock < u64Max) →
            ∀ s, ∀ m ∈ st.world.accepted s, ∀ p, (last.world.log p).count m = 1 := by
  refine ⟨laps_exist total reachable begun, ?_⟩
  rintro laps rounds many last rfl below s m accepted p
  have run := Machine.Rounds.reaches rounds
  have going : Going mode st :=
    going_reachable total reachable (Going.unsaturated_back run below) begun
  -- the issuer that is furthest behind
  obtain ⟨i, issues, least⟩ : ∃ i ∈ Finset.range cfg.numTrains, ∀ q ∈ Finset.range cfg.numTrains,
      st.world.issueClock i ≤ st.world.issueClock q :=
    Finset.exists_min_image _ _ ⟨0, Finset.mem_range.mpr (Nat.zero_lt_one.trans_le cfg.one_le)⟩
  obtain ⟨_, t, flying, issuer, paced, -⟩ := going.flight (Finset.mem_range.mp issues)
  have next := paced.next
  rw [issuer] at next
  obtain ⟨⟨entries, inv⟩, kept, -⟩ := going.lossFree
  have positive : 0 < t.clock := going.inStep.positive t (inv.tokens.flying _ flying)
  have issued : Going.Issued t.clock st := fun q known => by
    have behind := least q (Finset.mem_range.mpr known)
    omega
  obtain ⟨goes, far⟩ := Going.advance 3 many going positive issued rounds below
  refine goes.delivered far ?_ p
  rcases kept s m accepted with waiting | ⟨train, member, inside⟩
  · exact going.boards waiting (Finset.mem_range.mp issues) next run below far
  · have level := inv.clocks.level (View.balanced_initial mode) train member (inv.keyed train member) i
      ⟨Finset.mem_range.mp issues, View.alive_initial mode i⟩
    refine ⟨train, ?_, inside, level.trans (next.trans_le (Nat.le_succ _))⟩
    exact run.preserves (P := fun last => train ∈ last.world.emitted)
      (fun middle action old _ => (middle.emitted_grows action).subset old) member

/-- Node 1 has a payload, and the train of node 0 has been sent. -/
def waitingState : RingState .pair :=
  (ringNetwork .pair .totalOrder).run (RingState.initial .pair .totalOrder) [.broadcast 1 [7], .start 0]

/-- The payload arrives although nobody broadcasts anything else. -/
theorem delivered_within_nine_laps_pair : ∃ laps, Laps .totalOrder waitingState laps ∧
    (((ringNetwork .pair .totalOrder).runAll waitingState laps).world.log 0).count ⟨1, 0, [7]⟩ = 1 := by
  have reachable : (ringNetwork .pair .totalOrder).Reachable waitingState :=
    Machine.reachable_run rfl (by decide +kernel)
  have begun : ∀ q : Nat, q < RingConfig.pair.numTrains → q ∈ waitingState.started := by
    decide +kernel
  obtain ⟨exist, delivered⟩ := delivered_within_nine_laps (by decide) reachable begun
  obtain ⟨laps, nine, sizes, rounds⟩ := exist 9
  have going : Going .totalOrder waitingState :=
    going_reachable (by decide) reachable (by unfold RingState.Unsaturated; decide +kernel) begun
  have low : ∀ t ∈ waitingState.world.emitted, t.clock ≤ 1 := by decide +kernel
  have below := going.bounded_laps laps low sizes (by rw [nine]; decide) rounds
  exact ⟨laps, rounds, delivered laps rounds nine.ge _ rfl below 1 ⟨1, 0, [7]⟩ (by decide +kernel) 0⟩

end TrainsRing
