/-
**View-change rounds on a ring without further crashes.**

`RoundNet` is a set of view-change machines whose tokens are each received once, by the next node on
the ring, in any order. `Encodes` says what a handler must do with the two tokens of a round for the
machines to run the round of `Library/Round`, and `Mirrors` is the simulation: what each node has
installed, the tokens in flight and the reports handed in are those of the abstract round.

The exclusion round and the re-admission round are the two instances.
-/

import TrainsRing.Library.Round
import TrainsRing.Membership.ViewChange

namespace TrainsRing

variable {cfg : RingConfig}

/-! ### Receiving a token -/

namespace ViewChangeMsg

/-- Does this token collect reports? -/
def gathers : ViewChangeMsg cfg → Bool
  | gather .. => true
  | reAdmitGather .. => true
  | _ => false

end ViewChangeMsg

namespace ViewChange

/-- A token goes to its own handler. -/
def receive (vc : ViewChange) (msg : ViewChangeMsg cfg) (myReport : RecoveryReport cfg) :
    ViewChange × List (VcAction cfg) :=
  match msg with
  | .gather .. => vc.onGather msg myReport
  | .install .. => vc.onInstall msg
  | .reAdmitGather .. => vc.onReadmitGather msg myReport
  | .reAdmitInstall .. => vc.onReadmitInstall msg

end ViewChange

/-! ### The network -/

/-- The machines, with every report handed to a handler and the number of calls and hops so far. -/
structure RoundNet (cfg : RingConfig) (n : Nat) where
  members : Members cfg n
  /-- Each node's reports, as passed to its handlers. -/
  offered : List (Nat × RecoveryReport cfg)
  /-- Calls that ask for a round. -/
  calls : Nat
  hops : Nat

namespace RoundNet

variable {n : Nat}

/-- Node `p` is asked for a round with its report. -/
def call (net : RoundNet cfg n) (p : Fin n) (report : RecoveryReport cfg)
    (result : ViewChange × List (VcAction cfg)) : RoundNet cfg n where
  members := net.members.act p result
  offered := net.offered ++ [(p.val, report)]
  calls := net.calls + 1
  hops := net.hops

/-- The `i`-th token in flight is received by the next node after its sender; `holes` are not on the
ring. A report is handed in when the token collects them. -/
def hop (net : RoundNet cfg n) (holes : Finset Nat) (i : Nat) (report : RecoveryReport cfg) :
    RoundNet cfg n :=
  match net.members.inflight[i]? with
  | none => net
  | some (s, msg) =>
    let r : Fin n := ⟨nextAlive n holes s, nextAlive_lt s.isLt⟩
    { net with
      members := Members.act { net.members with inflight := net.members.inflight.eraseIdx i } r
        ((net.members.vc r).receive msg report)
      offered := if msg.gathers then net.offered ++ [(r.val, report)] else net.offered
      hops := net.hops + 1 }

theorem calls_hop (net : RoundNet cfg n) (holes : Finset Nat) (i : Nat)
    (report : RecoveryReport cfg) : (net.hop holes i report).calls = net.calls := by
  unfold hop
  cases net.members.inflight[i]? <;> rfl

/-- Every plan applied is the same, computed from exactly one report of every member. -/
def OnePlan (net : RoundNet cfg n) (holes : Finset Nat) : Prop :=
  ∃ reports : List (Nat × RecoveryReport cfg), ∀ p, ∀ view ∈ net.members.installs p,
    view.plan = computeRecoveryPlan (reports.map Prod.snd) ∧
      (∀ entry ∈ reports, entry ∈ net.offered) ∧
      (reports.map Prod.fst).Perm ((List.range n).filter fun x => x ∉ holes)

end RoundNet

/-! ### Handlers that run a round -/

/-- The round whose tokens and handlers these are: a ring of `n` nodes without the `holes`, whose
plans are the merges of the reports. -/
abbrev ringRound (cfg : RingConfig) (n : Nat) (holes : Finset Nat) (home : Nat) (inside : home < n)
    (use : home ∉ holes) : RoundSetup (RecoveryReport cfg) (RecoveryPlan cfg) where
  n := n
  dead := holes
  home := home
  merge := fun reports => computeRecoveryPlan (reports.map Prod.snd)
  inside := inside
  use := use

/-- **What the handlers do with the tokens of a round**, before (`Waiting`) and after (`Joined`) a
node has installed its view. -/
structure Encodes (setup : RoundSetup (RecoveryReport cfg) (RecoveryPlan cfg)) (viewId : Nat)
    (encode : RoundToken (RecoveryReport cfg) (RecoveryPlan cfg) → ViewChangeMsg cfg)
    (Waiting Joined : Nat → ViewChange → Prop) : Prop where
  collects : ∀ reports, (encode (.gather reports)).gathers = true
  delivers : ∀ plan, (encode (.install plan)).gathers = false
  fenced : ∀ p vc token report, Joined p vc → vc.receive (encode token) report = (vc, [])
  installs : ∀ p vc, Joined p vc → vc.installedView = viewId
  merged : ∀ p vc reports report, Waiting p vc → p = setup.home →
    setup.complete (Round.collect reports p report) = true → ∃ vc', Joined p vc' ∧
      vc.receive (encode (.gather reports)) report =
        (vc', [.apply (setup.merge (Round.collect reports p report)),
          .send (encode (.install (setup.merge (Round.collect reports p report))))])
  forwarded : ∀ p vc reports report, Waiting p vc →
    ¬ (p = setup.home ∧ setup.complete (Round.collect reports p report) = true) →
    ∃ vc', Waiting p vc' ∧ vc.receive (encode (.gather reports)) report =
      (vc', [.send (encode (.gather (Round.collect reports p report)))])
  spread : ∀ p vc plan report, Waiting p vc → ∃ vc', Joined p vc' ∧
    vc.receive (encode (.install plan)) report =
      (vc', [.apply plan, .send (encode (.install plan))])

/-- **The simulation.** -/
structure Mirrors (viewId : Nat)
    (encode : RoundToken (RecoveryReport cfg) (RecoveryPlan cfg) → ViewChangeMsg cfg)
    (Waiting Joined : Nat → ViewChange → Prop) {n : Nat} (net : RoundNet cfg n)
    (round : Round (RecoveryReport cfg) (RecoveryPlan cfg)) : Prop where
  tokens : net.members.inflight.map (fun e => (e.1.val, e.2)) =
    round.tokens.map fun e => (e.1, encode e.2)
  waiting : ∀ p : Fin n, round.installed p = none →
    Waiting p (net.members.vc p) ∧ net.members.installs p = []
  joined : ∀ (p : Fin n) plan, round.installed p = some plan →
    Joined p (net.members.vc p) ∧ ∃ dead, net.members.installs p = [⟨viewId, plan, dead⟩]
  given : ∀ entry ∈ round.given, entry ∈ net.offered
  hops : net.hops = round.hops

namespace Mirrors

variable {setup : RoundSetup (RecoveryReport cfg) (RecoveryPlan cfg)} {viewId : Nat}
  {encode : RoundToken (RecoveryReport cfg) (RecoveryPlan cfg) → ViewChangeMsg cfg}
  {Waiting Joined : Nat → ViewChange → Prop} {net : RoundNet cfg setup.n}
  {round : Round (RecoveryReport cfg) (RecoveryPlan cfg)}

/-- A token leaves the flight on both sides. -/
theorem taken (mirrors : Mirrors viewId encode Waiting Joined net round) (i : Nat) :
    Mirrors viewId encode Waiting Joined
      { net with
        members := { net.members with inflight := net.members.inflight.eraseIdx i }
        hops := net.hops + 1 }
      { round with tokens := round.tokens.eraseIdx i, hops := round.hops + 1 } where
  tokens := by
    show (net.members.inflight.eraseIdx i).map _ = (round.tokens.eraseIdx i).map _
    rw [← List.eraseIdx_map, ← List.eraseIdx_map, mirrors.tokens]
  waiting := mirrors.waiting
  joined := mirrors.joined
  given := mirrors.given
  hops := congrArg (· + 1) mirrors.hops

/-- More reports are handed in, and some of them are given to the round. -/
theorem offer (mirrors : Mirrors viewId encode Waiting Joined net round)
    (more : List (Nat × RecoveryReport cfg)) (calls started : Nat) :
    Mirrors viewId encode Waiting Joined
      { net with offered := net.offered ++ more, calls := calls }
      { round with given := round.given ++ more, started := started } where
  tokens := mirrors.tokens
  waiting := mirrors.waiting
  joined := mirrors.joined
  given := fun entry member => by
    rcases List.mem_append.mp member with old | new
    · exact List.mem_append_left _ (mirrors.given entry old)
    · exact List.mem_append_right _ new
  hops := mirrors.hops

/-- A call that starts nothing. -/
theorem ignored (mirrors : Mirrors viewId encode Waiting Joined net round) (p : Fin setup.n)
    (report : RecoveryReport cfg) :
    Mirrors viewId encode Waiting Joined (net.call p report (net.members.vc p, [])) round where
  tokens := by
    rw [RoundNet.call, Members.act_quiet _ _ _ rfl]
    exact mirrors.tokens
  waiting := by
    rw [RoundNet.call, Members.act_quiet _ _ _ rfl]
    exact mirrors.waiting
  joined := by
    rw [RoundNet.call, Members.act_quiet _ _ _ rfl]
    exact mirrors.joined
  given := fun entry member => List.mem_append_left _ (mirrors.given entry member)
  hops := mirrors.hops

/-- A node that has not installed sends a token on. -/
theorem sent (mirrors : Mirrors viewId encode Waiting Joined net round) (p : Fin setup.n)
    (token : RoundToken (RecoveryReport cfg) (RecoveryPlan cfg)) {vc : ViewChange}
    (waits : Waiting p vc) (uninstalled : round.installed p = none) :
    Mirrors viewId encode Waiting Joined
      { net with members := net.members.act p (vc, [.send (encode token)]) }
      (round.send p token) where
  tokens := by
    show (net.members.inflight ++ [(p, encode token)]).map _ = (round.tokens ++ [(p.val, token)]).map _
    rw [List.map_append, List.map_append, mirrors.tokens]
    rfl
  waiting := fun q none => by
    by_cases same : q = p
    · subst same
      refine ⟨by rwa [Members.act_vc_self], ?_⟩
      show Function.update net.members.installs q (net.members.installs q ++ []) q = []
      rw [Function.update_self, (mirrors.waiting q uninstalled).2]
      rfl
    · refine ⟨by rw [Members.act_vc_of_ne _ _ _ same]; exact (mirrors.waiting q none).1, ?_⟩
      show Function.update net.members.installs p _ q = []
      rw [Function.update_of_ne same]
      exact (mirrors.waiting q none).2
  joined := fun q plan found => by
    have same : q ≠ p := fun equal => by
      have installed : round.installed q = some plan := found
      rw [equal, uninstalled] at installed
      cases installed
    refine ⟨by rw [Members.act_vc_of_ne _ _ _ same]; exact (mirrors.joined q plan found).1, ?_⟩
    show ∃ dead, Function.update net.members.installs p _ q = _
    rw [Function.update_of_ne same]
    exact (mirrors.joined q plan found).2
  given := mirrors.given
  hops := mirrors.hops

/-- A node applies a plan and sends it on. -/
theorem installed (mirrors : Mirrors viewId encode Waiting Joined net round) (p : Fin setup.n)
    (plan : RecoveryPlan cfg) {vc : ViewChange} (joins : Joined p vc)
    (view : vc.installedView = viewId) (uninstalled : round.installed p = none) :
    Mirrors viewId encode Waiting Joined
      { net with members := net.members.act p (vc, [.apply plan, .send (encode (.install plan))]) }
      (round.install p plan) where
  tokens := by
    show (net.members.inflight ++ [(p, encode (.install plan))]).map _ =
      (round.tokens ++ [(p.val, RoundToken.install plan)]).map _
    rw [List.map_append, List.map_append, mirrors.tokens]
    rfl
  waiting := fun q vacant => by
    have still : Function.update round.installed p (some plan) q = none := vacant
    have other : (q : Nat) ≠ p := fun equal => by
      rw [equal, Function.update_self] at still
      cases still
    have same : q ≠ p := fun equal => other (congrArg Fin.val equal)
    rw [Function.update_of_ne other] at still
    refine ⟨by rw [Members.act_vc_of_ne _ _ _ same]; exact (mirrors.waiting q still).1, ?_⟩
    show Function.update net.members.installs p _ q = []
    rw [Function.update_of_ne same]
    exact (mirrors.waiting q still).2
  joined := fun q plan' found => by
    have held : Function.update round.installed p (some plan) q = some plan' := found
    by_cases same : q = p
    · subst same
      rw [Function.update_self] at held
      obtain rfl := Option.some_injective _ held
      refine ⟨by rwa [Members.act_vc_self], vc.dead, ?_⟩
      show Function.update net.members.installs q (net.members.installs q ++
        [⟨vc.installedView, plan, vc.dead⟩]) q = _
      rw [Function.update_self, (mirrors.waiting q uninstalled).2, view]
      rfl
    · have other : (q : Nat) ≠ p := fun equal => same (Fin.ext equal)
      rw [Function.update_of_ne other] at held
      refine ⟨by rw [Members.act_vc_of_ne _ _ _ same]; exact (mirrors.joined q plan' held).1, ?_⟩
      show ∃ dead, Function.update net.members.installs p _ q = _
      rw [Function.update_of_ne same]
      exact (mirrors.joined q plan' held).2
  given := mirrors.given
  hops := mirrors.hops

/-- The token received in a hop is one of the round's. -/
theorem encoded (mirrors : Mirrors viewId encode Waiting Joined net round)
    {e : Fin setup.n × ViewChangeMsg cfg} (member : e ∈ net.members.inflight) :
    ∃ token, e.2 = encode token := by
  have mapped : (e.1.val, e.2) ∈ round.tokens.map fun e => (e.1, encode e.2) := by
    rw [← mirrors.tokens]
    exact List.mem_map_of_mem member
  obtain ⟨⟨s, token⟩, -, same⟩ := List.mem_map.mp mapped
  exact ⟨token, (Prod.mk.inj same).2.symm⟩

/-- **A hop of the machines is a hop of the round.** -/
theorem hop (encodes : Encodes setup viewId encode Waiting Joined)
    (mirrors : Mirrors viewId encode Waiting Joined net round) {i : Nat}
    (inflight : i < net.members.inflight.length) (report : RecoveryReport cfg) :
    i < round.tokens.length ∧ Mirrors viewId encode Waiting Joined
      (net.hop setup.dead i report) (setup.step round (.hop i report)) := by
  have lengths := congrArg List.length mirrors.tokens
  rw [List.length_map, List.length_map] at lengths
  have room : i < round.tokens.length := lengths ▸ inflight
  refine ⟨room, ?_⟩
  have entry := congrArg (·[i]?) mirrors.tokens
  simp only [List.getElem?_map] at entry
  obtain ⟨s, msg, here⟩ : ∃ s msg, net.members.inflight[i]? = some (s, msg) :=
    ⟨_, _, List.getElem?_eq_getElem inflight⟩
  obtain ⟨s', token, there⟩ : ∃ s token, round.tokens[i]? = some (s, token) :=
    ⟨_, _, List.getElem?_eq_getElem room⟩
  rw [here, there] at entry
  obtain ⟨rfl, rfl⟩ : s.val = s' ∧ msg = encode token := by simpa using entry
  unfold RoundNet.hop
  simp only [RoundSetup.step, here, there]
  have base := mirrors.taken i
  generalize receiver : (⟨nextAlive setup.n setup.dead s, nextAlive_lt s.isLt⟩ : Fin setup.n) = r
  have place : setup.successor s = r := congrArg Fin.val receiver
  have position : nextAlive setup.n setup.dead s = r := place
  rw [place, position]
  cases state : round.installed r with
  | some made =>
    have joins := (mirrors.joined r made state).1
    have has : (round.installed r).isSome = true := by rw [state]; rfl
    rw [encodes.fenced r _ token report joins]
    rw [Members.act_quiet { net.members with inflight := _ } r _ rfl]
    cases token with
    | gather reports =>
      simp only [RoundSetup.receive, encodes.collects reports, if_true, state, Option.isSome_some]
      exact base.offer [(r.val, report)] net.calls round.started
    | install plan =>
      simp only [RoundSetup.receive, encodes.delivers plan, state, Option.isSome_some, if_true,
        Bool.false_eq_true, if_false]
      exact base
  | none =>
    have waits := (mirrors.waiting r state).1
    cases token with
    | gather reports =>
      have heard := base.offer [(r.val, report)] net.calls round.started
      simp only [RoundSetup.receive, encodes.collects reports, if_true, state, Option.isSome_none,
        Bool.false_eq_true, if_false]
      by_cases ready : r.val = setup.home ∧
          setup.complete (Round.collect reports r.val report) = true
      · obtain ⟨vc, joins, acts⟩ := encodes.merged r _ reports report waits ready.1 ready.2
        rw [if_pos ready, acts]
        exact heard.installed r _ joins (encodes.installs r vc joins) state
      · obtain ⟨vc, still, acts⟩ := encodes.forwarded r _ reports report waits ready
        rw [if_neg ready, acts]
        exact heard.sent r _ still state
    | install plan =>
      simp only [RoundSetup.receive, encodes.delivers plan, state, Option.isSome_none,
        Bool.false_eq_true, if_false]
      obtain ⟨vc, joins, acts⟩ := encodes.spread r _ plan report waits
      rw [acts]
      exact base.installed r plan joins (encodes.installs r vc joins) state

/-- **A call that starts a gather** starts one in the round. -/
theorem start (mirrors : Mirrors viewId encode Waiting Joined net round) (p : Fin setup.n)
    (report : RecoveryReport cfg) {vc : ViewChange} (waits : Waiting p vc)
    (uninstalled : round.installed p = none) :
    Mirrors viewId encode Waiting Joined
      (net.call p report (vc, [.send (encode (.gather [(p.val, report)]))]))
      (setup.step round (.start p report)) := by
  have heard := mirrors.offer [(p.val, report)] (net.calls + 1) (round.started + 1)
  exact heard.sent p (.gather [(p.val, report)]) waits uninstalled

/-! ### What the round gives the machines -/

theorem onePlan (mirrors : Mirrors viewId encode Waiting Joined net round)
    (reachable : setup.machine.Reachable round)
    (merges : setup.merge = fun reports => computeRecoveryPlan (reports.map Prod.snd)) :
    net.OnePlan setup.dead := by
  obtain ⟨reports, one⟩ := Round.one_plan reachable
  refine ⟨reports, fun p view member => ?_⟩
  cases state : round.installed p with
  | none =>
    rw [(mirrors.waiting p state).2] at member
    cases member
  | some plan =>
    obtain ⟨-, dead, only⟩ := mirrors.joined p plan state
    obtain ⟨rfl, given, perm⟩ := one p plan state
    rw [only, List.mem_singleton] at member
    rw [member, merges]
    exact ⟨rfl, fun entry inside => mirrors.given entry (given entry inside), perm⟩

/-- Nobody applies a plan twice. -/
theorem installs_le (mirrors : Mirrors viewId encode Waiting Joined net round) (p : Fin setup.n) :
    (net.members.installs p).length ≤ 1 := by
  cases state : round.installed p with
  | none =>
    rw [(mirrors.waiting p state).2]
    exact Nat.zero_le 1
  | some plan =>
    obtain ⟨-, dead, only⟩ := mirrors.joined p plan state
    rw [only]
    exact le_rfl

/-- With no token in flight, every member has joined and applied one plan. -/
theorem everyone (mirrors : Mirrors viewId encode Waiting Joined net round)
    (reachable : setup.machine.Reachable round) (quiet : net.members.inflight = [])
    (started : 0 < round.started) {p : Fin setup.n} (use : p.val ∉ setup.dead) :
    Joined p (net.members.vc p) ∧ (net.members.installs p).length = 1 := by
  have empty : round.tokens = [] := by
    have mapped := mirrors.tokens
    rw [quiet] at mapped
    exact List.map_eq_nil_iff.mp mapped.symm
  have has := Round.everyone reachable empty started p.isLt use
  obtain ⟨plan, state⟩ := Option.isSome_iff_exists.mp has
  obtain ⟨joins, dead, only⟩ := mirrors.joined p plan state
  rw [only]
  exact ⟨joins, rfl⟩

end Mirrors

end TrainsRing
