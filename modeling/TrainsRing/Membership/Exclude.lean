/-
**Exclude rounds converge.**

One victim, and any survivors confirm its crash, at any times and any number of times. Tokens are
received once each, in any order. Then all plans applied are one plan, with one report of every
survivor; the number of hops is bounded; and with no token in flight every survivor has installed
view 1, holds exactly the victim for dead, and has applied once (`exclude_rounds_converge`).

The machines run the abstract round (`exclusion_encodes`): a machine that knows no victim or this
one, and has installed nothing, waits; one with view 1 has joined.
-/

import TrainsRing.Membership.Rounds

namespace TrainsRing

variable {cfg : RingConfig} {n : Nat}

/-! ### The lowest survivor -/

/-- The lowest position that is not a hole. -/
def firstAlive (n : Nat) (holes : Finset Nat) : Nat :=
  ((List.range n).filter fun p => p ∉ holes).head?.getD 0

theorem firstAlive_spec {holes : Finset Nat} {x : Nat} (inside : x < n) (use : x ∉ holes) :
    firstAlive n holes < n ∧ firstAlive n holes ∉ holes := by
  have member : x ∈ (List.range n).filter fun p => p ∉ holes :=
    List.mem_filter.mpr ⟨List.mem_range.mpr inside, by simpa using use⟩
  unfold firstAlive
  cases shape : (List.range n).filter fun p => p ∉ holes with
  | nil =>
    rw [shape] at member
    cases member
  | cons head rest =>
    have first : head ∈ (List.range n).filter fun p => p ∉ holes := shape ▸ List.mem_cons_self
    obtain ⟨bound, alive⟩ := List.mem_filter.mp first
    exact ⟨List.mem_range.mp bound, by simpa using alive⟩

namespace ViewChange

/-- The live members of a machine, when the ring size fits a byte. -/
theorem alive_eq {vc : ViewChange} (size : vc.n = n) (small : n ≤ 30) :
    vc.alive = (List.range n).filter fun p => p ∉ vc.dead := by
  unfold alive
  rw [size, Nat.mod_eq_of_lt (by omega)]

theorem coordinator_eq {vc : ViewChange} (size : vc.n = n) (small : n ≤ 30) {x : Nat}
    (inside : x < n) (use : x ∉ vc.dead) : vc.coordinator = firstAlive n vc.dead := by
  have member : x ∈ vc.alive := by
    rw [alive_eq size small]
    exact List.mem_filter.mpr ⟨List.mem_range.mpr inside, by simpa using use⟩
  unfold coordinator firstAlive
  rw [← alive_eq size small]
  cases shape : vc.alive with
  | nil =>
    rw [shape] at member
    cases member
  | cons head rest => rfl

/-- What a coordinator waits for is what the round waits for. -/
theorem reported_eq {holes : Finset Nat} {home : Nat} (inside : home < n) (use : home ∉ holes)
    {members : List Nat} (same : ∀ x, x ∈ members ↔ x < n ∧ x ∉ holes)
    (reports : List (Nat × RecoveryReport cfg)) :
    reported members reports = (ringRound cfg n holes home inside use).complete reports := by
  rw [Bool.eq_iff_iff, RoundSetup.complete_iff]
  unfold reported
  simp only [List.all_eq_true, RoundSetup.any_iff, same, and_imp]

end ViewChange

/-! ### The round of one victim -/

/-- The steps of an exclusion round. -/
inductive ExcludeAction (cfg : RingConfig) (n : Nat) where
  /-- A survivor calls `on_confirm` for the victim. -/
  | confirm (p : Fin n) (report : RecoveryReport cfg)
  /-- The `i`-th token in flight is received by the next survivor. -/
  | hop (i : Nat) (report : RecoveryReport cfg)

/-- An exclusion round: nothing has happened; survivors confirm whenever they like, tokens are
received in any order. -/
def excludeRound (cfg : RingConfig) (n victim : Nat) :
    Machine (RoundNet cfg n) (ExcludeAction cfg n) where
  start := fun net => net = ⟨Members.initial cfg n, [], 0, 0⟩
  legal := fun net action => match action with
    | .confirm p _ => p.val ≠ victim
    | .hop i _ => i < net.members.inflight.length
  next := fun net action => match action with
    | .confirm p report => net.call p report ((net.members.vc p).onConfirm victim report)
    | .hop i report => net.hop {victim} i report

instance (victim : Nat) (net : RoundNet cfg n) (action : ExcludeAction cfg n) :
    Decidable ((excludeRound cfg n victim).legal net action) :=
  match action with
  | .confirm p _ => inferInstanceAs (Decidable (p.val ≠ victim))
  | .hop i _ => inferInstanceAs (Decidable (i < net.members.inflight.length))

/-- The tokens of the round. -/
def excludeToken (cfg : RingConfig) (home victim : Nat) :
    RoundToken (RecoveryReport cfg) (RecoveryPlan cfg) → ViewChangeMsg cfg
  | .gather reports => .gather 1 home victim reports
  | .install plan => .install 1 home victim plan

/-- A machine that has installed nothing and knows of no other crash. -/
structure ExcludeWaiting (n victim p : Nat) (vc : ViewChange) : Prop where
  me : vc.me = p
  size : vc.n = n
  view : vc.installedView = 0
  dead : vc.dead = ∅ ∨ vc.dead = {victim}

/-- A machine that has installed the view without the victim. -/
structure ExcludeJoined (n victim p : Nat) (vc : ViewChange) : Prop where
  me : vc.me = p
  size : vc.n = n
  view : vc.installedView = 1
  dead : vc.dead = {victim}

theorem ExcludeWaiting.learn {victim p : Nat} {vc : ViewChange}
    (waits : ExcludeWaiting n victim p vc) :
    ExcludeWaiting n victim p (vc.learn victim) ∧ (vc.learn victim).dead = {victim} := by
  have known : (vc.learn victim).dead = {victim} := by
    rcases waits.dead with none | same
    · simp [ViewChange.learn, none]
    · simp [ViewChange.learn, same]
  exact ⟨⟨waits.me, waits.size, waits.view, Or.inr known⟩, known⟩

section Round

variable {victim home : Nat} {inside : home < n} {use : home ∉ ({victim} : Finset Nat)}

/-- **The machines run the round.** -/
theorem exclude_encodes (small : n ≤ 30) :
    Encodes (ringRound cfg n {victim} home inside use) 1 (excludeToken cfg home victim)
      (ExcludeWaiting n victim) (ExcludeJoined n victim) where
  collects := fun _ => rfl
  delivers := fun _ => rfl
  fenced := fun p vc token report joined => by
    have stale : 1 ≤ vc.installedView := joined.view.ge
    cases token with
    | gather reports => exact if_pos stale
    | install plan => exact if_pos stale
  installs := fun _ _ joined => joined.view
  merged := fun p vc reports report waits here complete => by
    obtain ⟨still, known⟩ := waits.learn
    have fresh : ¬ 1 ≤ vc.installedView := by
      rw [waits.view]
      exact Nat.not_succ_le_zero 0
    have members : ∀ x, x ∈ (vc.learn victim).alive ↔ x < n ∧ x ∉ ({victim} : Finset Nat) := by
      intro x
      rw [ViewChange.alive_eq still.size small, known]
      simp
    have ready : ViewChange.reported (vc.learn victim).alive
        (ViewChange.addReport reports vc.me report) = true := by
      rw [ViewChange.reported_eq inside use members, waits.me]
      exact complete
    have homeward : vc.me = home := waits.me.trans here
    refine ⟨{ vc.learn victim with installedView := 1 }, ⟨waits.me, waits.size, rfl, known⟩, ?_⟩
    simp only [excludeToken, ViewChange.receive, ViewChange.onGather]
    rw [if_neg fresh, if_pos homeward, if_pos ready, waits.me]
    rfl
  forwarded := fun p vc reports report waits unfinished => by
    obtain ⟨still, known⟩ := waits.learn
    have fresh : ¬ 1 ≤ vc.installedView := by
      rw [waits.view]
      exact Nat.not_succ_le_zero 0
    have members : ∀ x, x ∈ (vc.learn victim).alive ↔ x < n ∧ x ∉ ({victim} : Finset Nat) := by
      intro x
      rw [ViewChange.alive_eq still.size small, known]
      simp
    refine ⟨vc.learn victim, still, ?_⟩
    simp only [excludeToken, ViewChange.receive, ViewChange.onGather]
    rw [if_neg fresh]
    by_cases homeward : vc.me = home
    · have unready : ¬ ViewChange.reported (vc.learn victim).alive
          (ViewChange.addReport reports vc.me report) = true := by
        rw [ViewChange.reported_eq inside use members, waits.me]
        exact fun complete => unfinished ⟨waits.me.symm.trans homeward, complete⟩
      rw [if_pos homeward, if_neg unready, waits.me]
      rfl
    · rw [if_neg homeward, waits.me]
      rfl
  spread := fun p vc plan report waits => by
    have fresh : ¬ 1 ≤ vc.installedView := by
      rw [waits.view]
      exact Nat.not_succ_le_zero 0
    refine ⟨{ vc.learn victim with installedView := 1 },
      ⟨waits.me, waits.size, rfl, waits.learn.2⟩, ?_⟩
    exact if_neg fresh

/-- The tokens of the round only add to what a machine holds for dead. -/
theorem dead_subset_receive (vc : ViewChange) (report : RecoveryReport cfg)
    (token : RoundToken (RecoveryReport cfg) (RecoveryPlan cfg)) :
    vc.dead ⊆ (vc.receive (excludeToken cfg home victim token) report).1.dead := by
  cases token with
  | gather reports =>
    simp only [excludeToken, ViewChange.receive, ViewChange.onGather]
    split_ifs
    · exact Finset.Subset.refl _
    · exact Finset.subset_insert victim vc.dead
    · exact Finset.subset_insert victim vc.dead
    · exact Finset.subset_insert victim vc.dead
  | install plan =>
    simp only [excludeToken, ViewChange.receive, ViewChange.onInstall]
    split_ifs
    · exact Finset.Subset.refl _
    · exact Finset.subset_insert victim vc.dead

/-- The nodes that know of the crash. -/
def knowing (net : RoundNet cfg n) (victim : Nat) : Finset (Fin n) :=
  Finset.univ.filter fun p => victim ∈ (net.members.vc p).dead

/-- The state mirrors a reachable state of the round, which was started by some of the nodes that
know of the crash. -/
def Excluding (setup : RoundSetup (RecoveryReport cfg) (RecoveryPlan cfg)) (victim : Nat)
    (net : RoundNet cfg setup.n) : Prop :=
  ∃ round, setup.machine.Reachable round ∧
    Mirrors 1 (excludeToken cfg setup.home victim) (ExcludeWaiting setup.n victim)
      (ExcludeJoined setup.n victim) net round ∧
    round.started ≤ (knowing net victim).card ∧
    (0 < net.calls ∨ (knowing net victim).Nonempty → 0 < round.started)

/-- Who knows of the crash still does after a hop. -/
theorem knows_hop {setup : RoundSetup (RecoveryReport cfg) (RecoveryPlan cfg)}
    {net : RoundNet cfg setup.n} {round : Round (RecoveryReport cfg) (RecoveryPlan cfg)} {viewId : Nat}
    {Waiting Joined : Nat → ViewChange → Prop}
    (mirrors : Mirrors viewId (excludeToken cfg home victim) Waiting Joined net round)
    (i : Nat) (report : RecoveryReport cfg) {q : Fin setup.n}
    (knows : victim ∈ (net.members.vc q).dead) :
    victim ∈ ((net.hop setup.dead i report).members.vc q).dead := by
  unfold RoundNet.hop
  cases here : net.members.inflight[i]? with
  | none => exact knows
  | some e =>
    obtain ⟨s, msg⟩ := e
    obtain ⟨token, rfl⟩ : ∃ token, msg = excludeToken cfg home victim token :=
      mirrors.encoded (List.mem_of_getElem? here)
    let r : Fin setup.n := ⟨nextAlive setup.n setup.dead s, nextAlive_lt s.isLt⟩
    show victim ∈ (Function.update net.members.vc r
      ((net.members.vc r).receive (excludeToken cfg home victim token) report).1 q).dead
    by_cases same : q = r
    · rw [same, Function.update_self]
      exact dead_subset_receive _ report token (same ▸ knows)
    · rw [Function.update_of_ne same]
      exact knows

/-- **Every reachable state mirrors the round.** -/
theorem excluding {setup : RoundSetup (RecoveryReport cfg) (RecoveryPlan cfg)}
    (small : setup.n ≤ 30) (holes : setup.dead = {victim})
    (lowest : setup.home = firstAlive setup.n {victim})
    (encodes : Encodes setup 1 (excludeToken cfg setup.home victim) (ExcludeWaiting setup.n victim)
      (ExcludeJoined setup.n victim)) {net : RoundNet cfg setup.n}
    (reachable : (excludeRound cfg setup.n victim).Reachable net) : Excluding setup victim net := by
  refine Machine.invariant (fun first initial => ?_) (fun net action before legal => ?_) reachable
  · obtain rfl : first = ⟨Members.initial cfg setup.n, [], 0, 0⟩ := initial
    have nobody : knowing (⟨Members.initial cfg setup.n, [], 0, 0⟩ : RoundNet cfg setup.n) victim = ∅ :=
      Finset.filter_eq_empty_iff.mpr fun p _ => Finset.notMem_empty victim
    refine ⟨Round.initial, Machine.Reachable.start rfl, ?_, Nat.zero_le _, fun knows => ?_⟩
    · exact {
        tokens := rfl
        waiting := fun p _ => ⟨⟨rfl, rfl, rfl, Or.inl rfl⟩, rfl⟩
        joined := fun p plan held => by cases held
        given := fun entry member => absurd member List.not_mem_nil
        hops := rfl }
    · rw [nobody] at knows
      exact absurd knows (by simp)
  obtain ⟨round, reached, mirrors, few, started⟩ := before
  cases action with
  | confirm p report =>
    have survivor : p.val ≠ victim := legal
    show Excluding setup victim (net.call p report ((net.members.vc p).onConfirm victim report))
    rcases (net.members.vc p).onConfirm_cases victim report with ⟨known, acts⟩ | ⟨unknown, acts⟩
    · have same : knowing (net.call p report (net.members.vc p, [])) victim = knowing net victim := by
        unfold knowing
        rw [RoundNet.call, Members.act_quiet _ _ _ rfl]
      have somebody : (knowing net victim).Nonempty :=
        ⟨p, Finset.mem_filter.mpr ⟨Finset.mem_univ p, known⟩⟩
      rw [acts]
      refine ⟨round, reached, mirrors.ignored p report, ?_, fun _ => started (Or.inr somebody)⟩
      rw [same]
      exact few
    · have vacant : round.installed p = none := by
        cases state : round.installed p with
        | none => rfl
        | some plan =>
          have joined := (mirrors.joined p plan state).1
          rw [joined.dead] at unknown
          exact absurd (Finset.mem_singleton_self victim) unknown
      have waits := (mirrors.waiting p vacant).1
      obtain ⟨still, known⟩ := waits.learn
      have alone : p.val ∉ setup.dead := by simpa [holes] using survivor
      have first : ((net.members.vc p).learn victim).coordinator = setup.home := by
        rw [ViewChange.coordinator_eq still.size small p.isLt (by rwa [known, ← holes]), known, lowest]
      rw [acts, first, waits.view, waits.me]
      refine ⟨_, reached.take (a := .start p report) ⟨p.isLt, alone, vacant⟩,
        mirrors.start p report still vacant, ?_, fun _ => Nat.succ_pos _⟩
      have learned : insert p (knowing net victim) ⊆
          knowing (net.call p report ((net.members.vc p).learn victim,
            [.send (excludeToken cfg setup.home victim (.gather [(p.val, report)]))])) victim := by
        intro q member
        refine Finset.mem_filter.mpr ⟨Finset.mem_univ q, ?_⟩
        by_cases same : q = p
        · rw [same, RoundNet.call, Members.act_vc_self]
          exact Finset.mem_insert_self _ _
        · rw [RoundNet.call, Members.act_vc_of_ne _ _ _ same]
          exact (Finset.mem_filter.mp ((Finset.mem_insert.mp member).resolve_left same)).2
      have grown := Finset.card_le_card learned
      have outside : p ∉ knowing net victim := fun member => unknown (Finset.mem_filter.mp member).2
      rw [Finset.card_insert_of_notMem outside] at grown
      exact (Nat.succ_le_succ few).trans grown
  | hop i report =>
    show Excluding setup victim (net.hop {victim} i report)
    rw [← holes]
    obtain ⟨room, next⟩ := mirrors.hop encodes legal report
    have positive := Round.started_pos reached room
    have kept : (setup.machine.next round (.hop i report)).started = round.started :=
      RoundSetup.step_hop_started i report
    refine ⟨_, reached.take (a := .hop i report) room, next, ?_, fun _ => ?_⟩
    · rw [kept]
      refine few.trans (Finset.card_le_card fun q member => ?_)
      refine Finset.mem_filter.mpr ⟨Finset.mem_univ q, ?_⟩
      exact knows_hop mirrors i report (Finset.mem_filter.mp member).2
    · rw [kept]
      exact positive

end Round

/-- **Exclude rounds converge.** Whatever the survivors confirm and in whatever order the tokens are
received: one plan, from exactly one report of every survivor; nobody applies twice; at most
`n * (n * (n + 2))` hops are made, and one can be made while a token is in flight; and once somebody
has confirmed and nothing is in flight, every survivor has installed view 1 without the victim and
has applied once. -/
theorem exclude_rounds_converge {victim : Nat} (two : 2 ≤ n) (small : n ≤ 30) (member : victim < n)
    {net : RoundNet cfg n} (reachable : (excludeRound cfg n victim).Reachable net) :
    net.OnePlan {victim} ∧ (∀ p, (net.members.installs p).length ≤ 1) ∧
    net.hops ≤ n * (n * (n + 2)) ∧
    (net.members.inflight ≠ [] → ∀ report, (excludeRound cfg n victim).legal net (.hop 0 report)) ∧
    (net.members.inflight = [] → 0 < net.calls → ∀ p : Fin n, p.val ≠ victim →
      (net.members.vc p).installedView = 1 ∧ (net.members.vc p).dead = {victim} ∧
        (net.members.installs p).length = 1) := by
  obtain ⟨survivor, bound, alive⟩ : ∃ x, x < n ∧ x ∉ ({victim} : Finset Nat) := by
    by_cases zero : victim = 0
    · exact ⟨1, by omega, by simp [zero]⟩
    · exact ⟨0, by omega, by simpa using Ne.symm zero⟩
  obtain ⟨inside, use⟩ := firstAlive_spec bound alive
  obtain ⟨setup, rfl, holes, lowest, merges, encodes⟩ :
      ∃ setup : RoundSetup (RecoveryReport cfg) (RecoveryPlan cfg), setup.n = n ∧
        setup.dead = {victim} ∧ setup.home = firstAlive setup.n {victim} ∧
        setup.merge = (fun reports => computeRecoveryPlan (reports.map Prod.snd)) ∧
        Encodes setup 1 (excludeToken cfg setup.home victim) (ExcludeWaiting setup.n victim)
          (ExcludeJoined setup.n victim) :=
    ⟨ringRound cfg n {victim} (firstAlive n {victim}) inside use, rfl, rfl, rfl, rfl,
      exclude_encodes small⟩
  obtain ⟨round, reached, mirrors, few, started⟩ := excluding small holes lowest encodes reachable
  have onePlan := mirrors.onePlan reached merges
  rw [holes] at onePlan
  refine ⟨onePlan, mirrors.installs_le, ?_, fun busy report => ?_, fun quiet called p other => ?_⟩
  · have hops := Round.hops_le reached
    rw [← mirrors.hops] at hops
    refine hops.trans (Nat.mul_le_mul_right _ (few.trans ?_))
    exact (Finset.card_le_univ _).trans (le_of_eq (Fintype.card_fin _))
  · exact List.length_pos_of_ne_nil busy
  · obtain ⟨joined, once⟩ := mirrors.everyone reached quiet (started (Or.inl called))
      (p := p) (by simpa [holes] using other)
    exact ⟨joined.view, joined.dead, once⟩

/-- Three nodes, node 1 crashed: both survivors confirm, node 2's token is complete at node 0 first,
node 0's own token is dropped, and the plan goes around. -/
def excludeRun : List (ExcludeAction .triple RingConfig.triple.ringSize) :=
  [.confirm 0 (.blank _), .confirm 2 (.blank _), .confirm 2 (.blank _), .hop 1 (.blank _),
    .hop 0 (.blank _), .hop 1 (.blank _), .hop 0 (.blank _), .hop 0 (.blank _)]

def excludeState : RoundNet .triple RingConfig.triple.ringSize :=
  (excludeRound .triple RingConfig.triple.ringSize 1).run ⟨Members.initial _ _, [], 0, 0⟩ excludeRun

theorem exclude_rounds_converge_triple : excludeState.OnePlan {1} ∧
    ∀ p : Fin RingConfig.triple.ringSize, p.val ≠ 1 →
      (excludeState.members.vc p).installedView = 1 ∧ (excludeState.members.vc p).dead = {1} ∧
        (excludeState.members.installs p).length = 1 := by
  have reachable : (excludeRound .triple RingConfig.triple.ringSize 1).Reachable excludeState :=
    Machine.reachable_run rfl (by decide +kernel)
  obtain ⟨onePlan, -, -, -, all⟩ :=
    exclude_rounds_converge (by decide) (by decide) (by decide) reachable
  exact ⟨onePlan, all (by decide +kernel) (by decide +kernel)⟩

end TrainsRing
