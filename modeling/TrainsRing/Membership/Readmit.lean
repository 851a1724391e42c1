/-
**Re-admit rounds converge.**

Every machine has adopted one view with one dead set, and one node of that set asks to come back,
once or several times while the view lasts. It is on the ring already, and still in everybody's dead
set. Tokens are received once each, in any order. Then all plans applied are one plan, with one
report of every live node and of the rejoiner; the requests bound the number of hops; and with no
token in flight every node of the ring has installed the next view, holds the rejoiner for alive, and
has applied once (`readmit_rounds_converge`).

The machines run the abstract round (`readmit_encodes`) as those of an exclusion do.
-/

import TrainsRing.Membership.Exclude

namespace TrainsRing

variable {cfg : RingConfig} {n : Nat}

/-- The steps of a re-admission round. -/
inductive ReadmitAction (cfg : RingConfig) where
  /-- The rejoiner calls `on_request_readmit`. -/
  | request (report : RecoveryReport cfg)
  /-- The `i`-th token in flight is received by the next node of the ring. -/
  | hop (i : Nat) (report : RecoveryReport cfg)

/-- All machines have adopted a view. -/
def adopted (cfg : RingConfig) (n view : Nat) (dead : Finset Nat) : RoundNet cfg n where
  members := { Members.initial cfg n with vc := fun p => (ViewChange.new p n).adoptView view dead }
  offered := []
  calls := 0
  hops := 0

/-- A re-admission round: the rejoiner requests while the view lasts, tokens are received in any
order. -/
def readmitRound (cfg : RingConfig) (n view : Nat) (dead : Finset Nat) (rejoiner : Fin n) :
    Machine (RoundNet cfg n) (ReadmitAction cfg) where
  start := fun net => net = adopted cfg n view dead
  legal := fun net action => match action with
    | .request _ => (net.members.vc rejoiner).installedView = view
    | .hop i _ => i < net.members.inflight.length
  next := fun net action => match action with
    | .request report => net.call rejoiner report
        (net.members.vc rejoiner, ViewChange.onRequestReadmit (net.members.vc rejoiner) report)
    | .hop i report => net.hop (dead.erase rejoiner) i report

instance (view : Nat) (dead : Finset Nat) (rejoiner : Fin n) (net : RoundNet cfg n)
    (action : ReadmitAction cfg) :
    Decidable ((readmitRound cfg n view dead rejoiner).legal net action) :=
  match action with
  | .request _ => inferInstanceAs (Decidable ((net.members.vc rejoiner).installedView = view))
  | .hop i _ => inferInstanceAs (Decidable (i < net.members.inflight.length))

/-- The tokens of the round. -/
def readmitToken (cfg : RingConfig) (view home rejoiner : Nat) :
    RoundToken (RecoveryReport cfg) (RecoveryPlan cfg) → ViewChangeMsg cfg
  | .gather reports => .reAdmitGather (view + 1) home rejoiner reports
  | .install plan => .reAdmitInstall (view + 1) home rejoiner plan home

/-- A machine with this view and dead set. -/
structure InView (n view : Nat) (dead : Finset Nat) (p : Nat) (vc : ViewChange) : Prop where
  me : vc.me = p
  size : vc.n = n
  view : vc.installedView = view
  dead : vc.dead = dead

section Round

variable {view home rejoiner : Nat} {dead : Finset Nat} {inside : home < n}
  {use : home ∉ dead.erase rejoiner}

/-- Whom the coordinator waits for: the live nodes and the rejoiner. -/
theorem mem_target {vc : ViewChange} (size : vc.n = n) (known : vc.dead = dead) (small : n ≤ 30)
    (returns : rejoiner < n) (x : Nat) :
    x ∈ rejoiner :: vc.alive ↔ x < n ∧ x ∉ dead.erase rejoiner := by
  rw [List.mem_cons, ViewChange.alive_eq size small, List.mem_filter, List.mem_range, known,
    decide_eq_true_eq, Finset.mem_erase]
  by_cases same : x = rejoiner
  · simp [same, returns]
  · simp [same]

/-- **The machines run the round.** -/
theorem readmit_encodes (small : n ≤ 30) (returns : rejoiner < n) :
    Encodes (ringRound cfg n (dead.erase rejoiner) home inside use) (view + 1)
      (readmitToken cfg view home rejoiner) (InView n view dead)
      (InView n (view + 1) (dead.erase rejoiner)) where
  collects := fun _ => rfl
  delivers := fun _ => rfl
  fenced := fun p vc token report joined => by
    have stale : view + 1 ≤ vc.installedView := joined.view.ge
    cases token with
    | gather reports => exact if_pos stale
    | install plan => exact if_pos stale
  installs := fun _ _ joined => joined.view
  merged := fun p vc reports report waits here complete => by
    have fresh : ¬ view + 1 ≤ vc.installedView := by
      rw [waits.view]
      exact Nat.not_succ_le_self view
    have ready : ViewChange.reported (rejoiner :: vc.alive)
        (ViewChange.addReport reports vc.me report) = true := by
      rw [ViewChange.reported_eq inside use
        (mem_target waits.size waits.dead small returns), waits.me]
      exact complete
    have homeward : vc.me = home := waits.me.trans here
    refine ⟨{ vc with installedView := view + 1, dead := vc.dead.erase rejoiner },
      ⟨waits.me, waits.size, rfl, congrArg (·.erase rejoiner) waits.dead⟩, ?_⟩
    simp only [readmitToken, ViewChange.receive, ViewChange.onReadmitGather]
    rw [if_neg fresh, if_pos homeward, if_pos ready, waits.me]
    rfl
  forwarded := fun p vc reports report waits unfinished => by
    have fresh : ¬ view + 1 ≤ vc.installedView := by
      rw [waits.view]
      exact Nat.not_succ_le_self view
    refine ⟨vc, waits, ?_⟩
    simp only [readmitToken, ViewChange.receive, ViewChange.onReadmitGather]
    rw [if_neg fresh]
    by_cases homeward : vc.me = home
    · have unready : ¬ ViewChange.reported (rejoiner :: vc.alive)
          (ViewChange.addReport reports vc.me report) = true := by
        rw [ViewChange.reported_eq inside use
          (mem_target waits.size waits.dead small returns), waits.me]
        exact fun complete => unfinished ⟨waits.me.symm.trans homeward, complete⟩
      rw [if_pos homeward, if_neg unready, waits.me]
      rfl
    · rw [if_neg homeward, waits.me]
      rfl
  spread := fun p vc plan report waits => by
    have fresh : ¬ view + 1 ≤ vc.installedView := by
      rw [waits.view]
      exact Nat.not_succ_le_self view
    refine ⟨{ vc with installedView := view + 1, dead := vc.dead.erase rejoiner },
      ⟨waits.me, waits.size, rfl, congrArg (·.erase rejoiner) waits.dead⟩, ?_⟩
    exact if_neg fresh

end Round

/-- **Every reachable state mirrors the round**, which was started by the requests. -/
theorem readmitting {setup : RoundSetup (RecoveryReport cfg) (RecoveryPlan cfg)} {view : Nat}
    {dead : Finset Nat} {rejoiner : Fin setup.n} (small : setup.n ≤ 30)
    (holes : setup.dead = dead.erase rejoiner) (lowest : setup.home = firstAlive setup.n dead)
    (alive : setup.home ∉ dead)
    (encodes : Encodes setup (view + 1) (readmitToken cfg view setup.home rejoiner)
      (InView setup.n view dead) (InView setup.n (view + 1) (dead.erase rejoiner)))
    {net : RoundNet cfg setup.n}
    (reachable : (readmitRound cfg setup.n view dead rejoiner).Reachable net) :
    ∃ round, setup.machine.Reachable round ∧
      Mirrors (view + 1) (readmitToken cfg view setup.home rejoiner) (InView setup.n view dead)
        (InView setup.n (view + 1) (dead.erase rejoiner)) net round ∧ round.started = net.calls := by
  refine Machine.invariant (P := fun net => ∃ round, setup.machine.Reachable round ∧
    Mirrors (view + 1) (readmitToken cfg view setup.home rejoiner) (InView setup.n view dead)
      (InView setup.n (view + 1) (dead.erase rejoiner)) net round ∧ round.started = net.calls)
    (fun first initial => ?_) (fun net action before legal => ?_) reachable
  · obtain rfl : first = adopted cfg setup.n view dead := initial
    refine ⟨Round.initial, Machine.Reachable.start rfl, ?_, rfl⟩
    exact {
      tokens := rfl
      waiting := fun p _ => ⟨⟨rfl, rfl, rfl, rfl⟩, rfl⟩
      joined := fun p plan held => by cases held
      given := fun entry member => absurd member List.not_mem_nil
      hops := rfl }
  obtain ⟨round, reached, mirrors, started⟩ := before
  cases action with
  | request report =>
    have current : (net.members.vc rejoiner).installedView = view := legal
    have vacant : round.installed rejoiner = none := by
      cases state : round.installed rejoiner with
      | none => rfl
      | some plan =>
        have joined := (mirrors.joined rejoiner plan state).1
        rw [joined.view] at current
        omega
    have waits := (mirrors.waiting rejoiner vacant).1
    have onRing : rejoiner.val ∉ setup.dead := by simp [holes]
    have coordinator : (net.members.vc rejoiner).coordinator = setup.home := by
      rw [ViewChange.coordinator_eq waits.size small setup.inside (waits.dead ▸ alive), waits.dead,
        lowest]
    have acts : ViewChange.onRequestReadmit (net.members.vc rejoiner) report =
        [.send (readmitToken cfg view setup.home rejoiner (.gather [(rejoiner.val, report)]))] := by
      unfold ViewChange.onRequestReadmit
      rw [coordinator, current, waits.me]
      rfl
    refine ⟨_, reached.take (a := .start rejoiner report) ⟨rejoiner.isLt, onRing, vacant⟩, ?_,
      congrArg (· + 1) started⟩
    have next := mirrors.start rejoiner report waits vacant
    rw [← acts] at next
    exact next
  | hop i report =>
    obtain ⟨room, next⟩ := mirrors.hop encodes legal report
    rw [holes] at next
    refine ⟨_, reached.take (a := .hop i report) room, next, ?_⟩
    refine (RoundSetup.step_hop_started i report).trans (started.trans ?_)
    exact (RoundNet.calls_hop net _ i report).symm

/-- **Re-admit rounds converge.** Whatever the rejoiner requests and in whatever order the tokens are
received: one plan, from exactly one report of every node of the ring; nobody applies twice; every
request leads to at most `n * (n + 2)` hops, and one can be made while a token is in flight; and once
something was requested and nothing is in flight, every node of the ring has installed the next view
with the rejoiner alive and has applied once. -/
theorem readmit_rounds_converge {view : Nat} {dead : Finset Nat} {rejoiner : Fin n} (small : n ≤ 30)
    (excluded : rejoiner.val ∈ dead) (somebody : ∃ x, x < n ∧ x ∉ dead) {net : RoundNet cfg n}
    (reachable : (readmitRound cfg n view dead rejoiner).Reachable net) :
    net.OnePlan (dead.erase rejoiner) ∧ (∀ p, (net.members.installs p).length ≤ 1) ∧
    net.hops ≤ net.calls * (n * (n + 2)) ∧
    (net.members.inflight ≠ [] → ∀ report,
      (readmitRound cfg n view dead rejoiner).legal net (.hop 0 report)) ∧
    (net.members.inflight = [] → 0 < net.calls → ∀ p : Fin n, p.val ∉ dead.erase rejoiner →
      (net.members.vc p).installedView = view + 1 ∧
        (net.members.vc p).dead = dead.erase rejoiner ∧ (net.members.installs p).length = 1) := by
  obtain ⟨x, bound, alive⟩ := somebody
  obtain ⟨inside, low⟩ := firstAlive_spec bound alive
  have use : firstAlive n dead ∉ dead.erase rejoiner := fun member =>
    low (Finset.mem_of_mem_erase member)
  obtain ⟨setup, rfl, holes, lowest, merges, encodes⟩ :
      ∃ setup : RoundSetup (RecoveryReport cfg) (RecoveryPlan cfg), setup.n = n ∧
        setup.dead = dead.erase rejoiner ∧ setup.home = firstAlive n dead ∧
        setup.merge = (fun reports => computeRecoveryPlan (reports.map Prod.snd)) ∧
        Encodes setup (view + 1) (readmitToken cfg view setup.home rejoiner)
          (InView setup.n view dead) (InView setup.n (view + 1) (dead.erase rejoiner)) :=
    ⟨ringRound cfg n (dead.erase rejoiner) (firstAlive n dead) inside use, rfl, rfl, rfl, rfl,
      readmit_encodes small rejoiner.isLt⟩
  obtain ⟨round, reached, mirrors, started⟩ :=
    readmitting small holes lowest (lowest ▸ low) encodes reachable
  have onePlan := mirrors.onePlan reached merges
  rw [holes] at onePlan
  refine ⟨onePlan, mirrors.installs_le, ?_, fun busy report => ?_, fun quiet called p onRing => ?_⟩
  · have hops := Round.hops_le reached
    rw [← mirrors.hops, started] at hops
    exact hops
  · exact List.length_pos_of_ne_nil busy
  · obtain ⟨joined, once⟩ := mirrors.everyone reached quiet (started ▸ called)
      (p := p) (by rwa [holes])
    exact ⟨joined.view, joined.dead, once⟩

/-- Three nodes, node 1 out since view 4: it asks twice, its first token collects everybody's report
at node 0, the plan goes around and the second token is dropped. -/
def readmitRun : List (ReadmitAction .triple) :=
  [.request (.blank _), .request (.blank _), .hop 0 (.blank _), .hop 1 (.blank _), .hop 0 (.blank _),
    .hop 1 (.blank _), .hop 0 (.blank _), .hop 0 (.blank _), .hop 0 (.blank _)]

def readmitState : RoundNet .triple RingConfig.triple.ringSize :=
  (readmitRound .triple RingConfig.triple.ringSize 4 {1} 1).run (adopted _ _ 4 {1}) readmitRun

theorem readmit_rounds_converge_triple :
    readmitState.OnePlan (({1} : Finset Nat).erase (1 : Fin RingConfig.triple.ringSize).val) ∧
    ∀ p : Fin RingConfig.triple.ringSize,
      p.val ∉ ({1} : Finset Nat).erase (1 : Fin RingConfig.triple.ringSize).val →
      (readmitState.members.vc p).installedView = 5 ∧
        (readmitState.members.vc p).dead =
          ({1} : Finset Nat).erase (1 : Fin RingConfig.triple.ringSize).val ∧
        (readmitState.members.installs p).length = 1 := by
  have reachable :
      (readmitRound .triple RingConfig.triple.ringSize 4 {1} 1).Reachable readmitState :=
    Machine.reachable_run rfl (by decide +kernel)
  obtain ⟨onePlan, -, -, -, all⟩ :=
    readmit_rounds_converge (by decide) (by decide) ⟨0, by decide, by decide⟩ reachable
  exact ⟨onePlan, all (by decide +kernel) (by decide +kernel)⟩

end TrainsRing
