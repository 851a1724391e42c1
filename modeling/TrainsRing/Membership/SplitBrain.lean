/-
**Membership changes under partitions.**

A node may confirm any peer it cannot reach, dead or not, and tokens travel in any order between
nodes that can reach each other. Nothing counts the survivors, so the two sides of a partition
exclude each other. Nothing keeps a node from reporting to two coordinators for one view id. And an
Install names one victim, so a node that has learned of another one installs another dead set.

* `partitioned` — the machines, with a relation of who can reach whom that may change at any time.
* `Undivided` — a view id has one plan and one dead set, and no two installed views are disjoint.
* `split_brain` — a partition of four nodes that installs the two halves.
* `Quorate`, `Informed` — the missing checks: when a plan is computed, and when it is installed.
* `Elected` — the invariant of quorate runs: **a view id has one coordinator and one plan**.
* `no_split_brain` — **quorate and informed runs are undivided**, whatever is confirmed and whoever is
  reachable; and a quorate step that is not informed divides the nodes.
-/

import Mathlib.Combinatorics.SetFamily.Intersecting
import TrainsRing.Library.Machine
import TrainsRing.Membership.ViewChange

namespace TrainsRing

variable {cfg : RingConfig} {n : Nat}

/-! ### The network -/

/-- The machines, and who can reach whom. -/
structure Partitioned (cfg : RingConfig) (n : Nat) where
  members : Members cfg n
  reach : Fin n → Fin n → Bool

/-- Every machine as constructed; everybody reaches everybody. -/
def Partitioned.initial (cfg : RingConfig) (n : Nat) : Partitioned cfg n :=
  ⟨Members.initial cfg n, fun _ _ => true⟩

/-- The steps of a partitioned network. -/
inductive PartitionAction (cfg : RingConfig) (n : Nat) where
  | cut (reach : Fin n → Fin n → Bool)
  | confirm (p victim : Fin n) (report : RecoveryReport cfg)
  | deliver (i : Nat) (r : Fin n) (report : RecoveryReport cfg)

namespace PartitionAction

/-- A node confirms a peer it cannot reach, and a token is taken by a node its sender can reach. -/
def Legal (st : Partitioned cfg n) : PartitionAction cfg n → Prop
  | cut _ => True
  | confirm p victim _ => p ≠ victim ∧ st.reach p victim = false
  | deliver i r _ => ∃ e ∈ st.members.inflight[i]?, st.reach e.1 r = true

instance (st : Partitioned cfg n) (action : PartitionAction cfg n) : Decidable (action.Legal st) := by
  cases action <;> unfold Legal <;> infer_instance

/-- The state after a step. -/
def apply (st : Partitioned cfg n) : PartitionAction cfg n → Partitioned cfg n
  | cut reach => { st with reach }
  | confirm p victim report => { st with members := st.members.confirm p victim report }
  | deliver i r report => { st with members := st.members.take i r report }

end PartitionAction

/-- Machines under partitions. -/
def partitioned (cfg : RingConfig) (n : Nat) :
    Machine (Partitioned cfg n) (PartitionAction cfg n) where
  start := fun st => st = Partitioned.initial cfg n
  legal := fun st action => action.Legal st
  next := PartitionAction.apply

instance (st : Partitioned cfg n) (action : PartitionAction cfg n) :
    Decidable ((partitioned cfg n).legal st action) :=
  inferInstanceAs (Decidable (action.Legal st))

/-- Installs of one view id agree, and any two installed views share a member. -/
def Undivided (m : Members cfg n) : Prop :=
  ∀ p q, ∀ a ∈ m.installs p, ∀ b ∈ m.installs q,
    (a.viewId = b.viewId → a.plan = b.plan ∧ a.dead = b.dead) ∧
      ∃ x, x < n ∧ x ∉ a.dead ∧ x ∉ b.dead

/-! ### A partition -/

/-- Nodes 0 and 1 lose nodes 2 and 3. Node 1 confirms both, its tokens go around by node 0, which
installs a view of 0 and 1; nodes 3 and 2 do the same for theirs. -/
def halvesRun : List (PartitionAction .quad RingConfig.quad.ringSize) :=
  [.cut fun p q => decide (p < 2) == decide (q < 2),
    .confirm 1 2 (.blank _), .confirm 1 3 (.blank _),
    .deliver 0 0 (.blank _), .deliver 0 0 (.blank _), .deliver 1 1 (.blank _),
    .confirm 3 0 (.blank _), .confirm 3 1 (.blank _),
    .deliver 2 2 (.blank _), .deliver 2 2 (.blank _), .deliver 3 3 (.blank _)]

def halvesState : Partitioned .quad RingConfig.quad.ringSize :=
  (partitioned .quad RingConfig.quad.ringSize).run (.initial _ _) halvesRun

/-- Nodes 0 and 2 have installed views without a common member. -/
theorem split_brain : ¬ ∀ (cfg : RingConfig) (n : Nat) (st : Partitioned cfg n),
    (partitioned cfg n).Reachable st → Undivided st.members := by
  intro holds
  have reachable : (partitioned .quad _).Reachable halvesState :=
    Machine.reachable_run rfl (by decide +kernel)
  have undivided := holds .quad _ halvesState reachable
  have left : ∃ a ∈ halvesState.members.installs 0, a.dead = {2, 3} := by decide +kernel
  have right : ∃ b ∈ halvesState.members.installs 2, b.dead = {0, 1} := by decide +kernel
  obtain ⟨a, installedA, deadA⟩ := left
  obtain ⟨b, installedB, deadB⟩ := right
  obtain ⟨x, small, aliveA, aliveB⟩ := (undivided 0 2 a installedA b installedB).2
  rw [deadA] at aliveA
  rw [deadB] at aliveB
  simp only [Finset.mem_insert, Finset.mem_singleton] at aliveA aliveB
  have inside : x < 4 := small
  omega

/-! ### The missing checks -/

/-- The nodes whose reports a Gather carries. -/
def ViewChangeMsg.reporters : ViewChangeMsg cfg → List Nat
  | .gather _ _ _ reports => reports.map Prod.fst
  | _ => []

/-- This token makes the machine compute a plan. -/
def ViewChange.Completes (vc : ViewChange) : ViewChangeMsg cfg → Prop
  | .gather viewId coordinator victim reports => vc.installedView < viewId ∧ vc.me = coordinator ∧
      ∀ x ∈ (vc.learn victim).alive, x ∈ reports.map Prod.fst ∨ x = vc.me
  | _ => False

instance (vc : ViewChange) : (msg : ViewChangeMsg cfg) → Decidable (vc.Completes msg)
  | .gather viewId coordinator victim reports =>
    inferInstanceAs (Decidable (vc.installedView < viewId ∧ vc.me = coordinator ∧
      ∀ x ∈ (vc.learn victim).alive, x ∈ reports.map Prod.fst ∨ x = vc.me))
  | .install .. => isFalse not_false
  | .reAdmitGather .. => isFalse not_false
  | .reAdmitInstall .. => isFalse not_false

namespace Members

variable {m : Members cfg n}

/-- In every token of this view id that carries its report, `x` reports to the same coordinator. -/
def Devoted (m : Members cfg n) (view coordinator x : Nat) : Prop :=
  ∀ msg ∈ m.sent, msg.viewId = view → x ∈ msg.reporters → msg.coordinator = coordinator

instance (m : Members cfg n) (view coordinator : Nat) : DecidablePred (m.Devoted view coordinator) :=
  fun x => inferInstanceAs (Decidable (∀ msg ∈ m.sent, msg.viewId = view → x ∈ msg.reporters →
    msg.coordinator = coordinator))

/-- The survivors at node `r` that have reported to no other coordinator for the view of a Gather. -/
def votes (m : Members cfg n) (r : Fin n) : ViewChangeMsg cfg → Finset Nat
  | .gather viewId coordinator victim _ =>
    ((m.vc r).learn victim).alive.toFinset.filter (m.Devoted viewId coordinator)
  | _ => ∅

/-- With the victim of the Install, node `r` holds those for dead that the coordinator held for dead
when it computed the plan. -/
def Matches (m : Members cfg n) (r : Fin n) : ViewChangeMsg cfg → Prop
  | .install viewId coordinator victim _ => (m.vc r).installedView < viewId →
      ∀ q : Fin n, q.val = coordinator → ∀ a ∈ m.installs q, a.viewId = viewId →
        ((m.vc r).learn victim).dead = a.dead
  | _ => True

instance (m : Members cfg n) (r : Fin n) : (msg : ViewChangeMsg cfg) → Decidable (m.Matches r msg)
  | .install viewId coordinator victim _ =>
    inferInstanceAs (Decidable ((m.vc r).installedView < viewId →
      ∀ q : Fin n, q.val = coordinator → ∀ a ∈ m.installs q, a.viewId = viewId →
        ((m.vc r).learn victim).dead = a.dead))
  | .gather .. => isTrue trivial
  | .reAdmitGather .. => isTrue trivial
  | .reAdmitInstall .. => isTrue trivial

end Members

/-- A plan is computed only with a quorum of votes. -/
def Quorate (quorums : Set (Finset Nat)) (st : Partitioned cfg n) : PartitionAction cfg n → Prop
  | .deliver i r _ => ∀ e ∈ st.members.inflight[i]?,
      (st.members.vc r).Completes e.2 → st.members.votes r e.2 ∈ quorums
  | _ => True

/-- An Install is taken only by a node with the coordinator's dead set. -/
def Informed (st : Partitioned cfg n) : PartitionAction cfg n → Prop
  | .deliver i r _ => ∀ e ∈ st.members.inflight[i]?, st.members.Matches r e.2
  | _ => True

instance (quorums : Set (Finset Nat)) [DecidablePred (· ∈ quorums)] (st : Partitioned cfg n)
    (action : PartitionAction cfg n) : Decidable (Quorate quorums st action) := by
  cases action <;> unfold Quorate <;> infer_instance

instance (st : Partitioned cfg n) (action : PartitionAction cfg n) :
    Decidable (Informed st action) := by
  cases action <;> unfold Informed <;> infer_instance

/-- Runs with the checks. -/
def checkedNetwork (cfg : RingConfig) (n : Nat) (quorums : Set (Finset Nat)) :
    Machine (Partitioned cfg n) (PartitionAction cfg n) :=
  (partitioned cfg n).restrict fun st action => Quorate quorums st action ∧ Informed st action

instance (quorums : Set (Finset Nat)) [DecidablePred (· ∈ quorums)] (st : Partitioned cfg n)
    (action : PartitionAction cfg n) : Decidable ((checkedNetwork cfg n quorums).legal st action) :=
  inferInstanceAs (Decidable (action.Legal st ∧ Quorate quorums st action ∧ Informed st action))

/-- More than half of `n` nodes. -/
def majorities (n : Nat) : Set (Finset Nat) := fun votes => votes ⊆ Finset.range n ∧ n < 2 * votes.card

instance (n : Nat) : DecidablePred (· ∈ majorities n) := fun votes =>
  inferInstanceAs (Decidable (votes ⊆ Finset.range n ∧ n < 2 * votes.card))

/-- Two majorities have a member in common. -/
theorem majorities_intersecting (n : Nat) : (majorities n).Intersecting := by
  rintro a ⟨insideA, moreA⟩ b ⟨insideB, moreB⟩ apart
  have union := Finset.card_union_of_disjoint apart
  have bound := Finset.card_le_card (Finset.union_subset insideA insideB)
  rw [Finset.card_range] at bound
  omega

/-! ### One coordinator for a view -/

namespace Members

variable {m : Members cfg n} {quorums : Set (Finset Nat)} {p : Fin n}

/-- Node `x` has voted for a coordinator: it is in one of its Gathers, or it is the coordinator and in
no other one's. -/
def Supports (m : Members cfg n) (view coordinator x : Nat) : Prop :=
  (∃ msg ∈ m.sent, msg.viewId = view ∧ msg.coordinator = coordinator ∧ x ∈ msg.reporters) ∨
    x = coordinator ∧ m.Devoted view coordinator x

/-- A quorum has voted for a coordinator, and is spared by the view it has installed. -/
def Backed (quorums : Set (Finset Nat)) (m : Members cfg n) (coordinator : Nat)
    (a : InstalledView cfg) : Prop :=
  ∃ votes ∈ quorums, ∀ x ∈ votes, (x < n ∧ x ∉ a.dead) ∧ m.Supports a.viewId coordinator x

end Members

open Members

/-- **What quorate runs keep.** Every plan that travels was computed by its coordinator, with the votes
of a quorum; so no two coordinators have one view id. -/
structure Elected (quorums : Set (Finset Nat)) (m : Members cfg n) : Prop where
  me : ∀ p, (m.vc p).me = p.val
  size : ∀ p, (m.vc p).n = n
  flying : ∀ e ∈ m.inflight, e.2 ∈ m.sent
  computed : ∀ k c v plan, .install k c v plan ∈ m.sent → ∃ p : Fin n, p.val = c ∧
    k ≤ (m.vc p).installedView ∧ ∃ a ∈ m.installs p, a.viewId = k ∧ a.plan = plan ∧ m.Backed quorums c a
  single : ∀ k c v plan c' v' plan', .install k c v plan ∈ m.sent →
    .install k c' v' plan' ∈ m.sent → c = c' ∧ plan = plan'
  installed : ∀ p, ∀ a ∈ m.installs p, ∃ c v, .install a.viewId c v a.plan ∈ m.sent

namespace Members

variable {m : Members cfg n} {quorums : Set (Finset Nat)} {p q : Fin n} {vc : ViewChange}
  {actions : List (VcAction cfg)}

/-- The views installed after a step of node `p`. -/
theorem mem_installs_act {a : InstalledView cfg} : a ∈ (m.act p (vc, actions)).installs q ↔
    a ∈ m.installs q ∨ q = p ∧ ∃ plan ∈ plans actions, a = ⟨vc.installedView, plan, vc.dead⟩ := by
  by_cases here : q = p
  · subst here
    have grown : (m.act q (vc, actions)).installs q = m.installs q ++ (plans actions).map
        fun plan => ⟨vc.installedView, plan, vc.dead⟩ := Function.update_self ..
    rw [grown, List.mem_append, List.mem_map]
    simp only [true_and, eq_comm]
  · have kept : (m.act p (vc, actions)).installs q = m.installs q := Function.update_of_ne here ..
    rw [kept]
    exact ⟨Or.inl, fun either => either.resolve_right fun new => here new.1⟩

theorem installedView_act (grows : (m.vc p).installedView ≤ vc.installedView) (q : Fin n) :
    (m.vc q).installedView ≤ ((m.act p (vc, actions)).vc q).installedView := by
  by_cases here : q = p
  · rw [here, act_vc_self]
    exact grows
  · rw [m.act_vc_of_ne p _ here]

/-- A step of node `p` adds no reports but its own, and that only for views it has not installed. -/
def AddsOwn (m : Members cfg n) (p : Fin n) (actions : List (VcAction cfg)) : Prop :=
  ∀ msg ∈ tokens actions, ∀ x ∈ msg.reporters,
    (∃ old ∈ m.sent, old.viewId = msg.viewId ∧ old.coordinator = msg.coordinator ∧ x ∈ old.reporters) ∨
      x = p.val ∧ (m.vc p).installedView < msg.viewId

/-- **A vote for a coordinator that has installed the view stays.** -/
theorem Supports.act {view c x : Nat} (supports : m.Supports view c x) (home : q.val = c)
    (done : view ≤ (m.vc q).installedView) (adds : m.AddsOwn p actions) :
    (m.act p (vc, actions)).Supports view c x := by
  refine supports.imp (fun ⟨msg, member, facts⟩ => ⟨msg, List.mem_append_left _ member, facts⟩)
    fun ⟨own, devoted⟩ => ⟨own, fun msg member same reports => ?_⟩
  rcases List.mem_append.mp member with old | new
  · exact devoted msg old same reports
  · rcases adds msg new x reports with ⟨before, sent, sameView, sameHome, known⟩ | ⟨self, waits⟩
    · exact sameHome.symm.trans (devoted before sent (sameView.trans same) known)
    · obtain rfl : q = p := Fin.ext (home.trans (own.symm.trans self))
      omega

end Members

namespace Elected

variable {m : Members cfg n} {quorums : Set (Finset Nat)} {p : Fin n}

theorem initial (cfg : RingConfig) (n : Nat) (quorums : Set (Finset Nat)) :
    Elected quorums (Members.initial cfg n) where
  me := fun _ => rfl
  size := fun _ => rfl
  flying := fun _ member => absurd member List.not_mem_nil
  computed := fun _ _ _ _ member => absurd member List.not_mem_nil
  single := fun _ _ _ _ _ _ _ member => absurd member List.not_mem_nil
  installed := fun _ _ member => absurd member List.not_mem_nil

/-- **A step of one node.** -/
theorem act (elected : Elected quorums m) {vc : ViewChange} {actions : List (VcAction cfg)}
    (me : vc.me = (m.vc p).me) (size : vc.n = (m.vc p).n)
    (grows : (m.vc p).installedView ≤ vc.installedView) (adds : m.AddsOwn p actions)
    (computed : ∀ k c v plan, .install k c v plan ∈ tokens actions → .install k c v plan ∈ m.sent ∨
      p.val = c ∧ k = vc.installedView ∧ plan ∈ plans actions ∧
        (m.act p (vc, actions)).Backed quorums c ⟨vc.installedView, plan, vc.dead⟩)
    (single : ∀ k c v plan, .install k c v plan ∈ tokens actions →
      ∀ c' v' plan', .install k c' v' plan' ∈ m.sent ++ tokens actions → c = c' ∧ plan = plan')
    (installed : ∀ plan ∈ plans actions,
      ∃ c v, .install vc.installedView c v plan ∈ m.sent ++ tokens actions) :
    Elected quorums (m.act p (vc, actions)) := by
  refine ⟨fun q => ?_, fun q => ?_, fun e member => ?_, fun k c v plan member => ?_,
    fun k c v plan c' v' plan' left right => ?_, fun q a member => ?_⟩
  · by_cases here : q = p
    · rw [here, act_vc_self, me]
      exact elected.me p
    · rw [m.act_vc_of_ne p _ here]
      exact elected.me q
  · by_cases here : q = p
    · rw [here, act_vc_self, size]
      exact elected.size p
    · rw [m.act_vc_of_ne p _ here]
      exact elected.size q
  · refine (List.mem_append.mp member).elim (fun old => List.mem_append_left _ (elected.flying e old))
      fun new => List.mem_append_right _ ?_
    obtain ⟨msg, isNew, rfl⟩ := List.mem_map.mp new
    exact isNew
  · have before : .install k c v plan ∈ m.sent ∨ p.val = c ∧ k = vc.installedView ∧
        plan ∈ plans actions ∧
          (m.act p (vc, actions)).Backed quorums c ⟨vc.installedView, plan, vc.dead⟩ :=
      (List.mem_append.mp member).elim Or.inl (computed k c v plan)
    rcases before with old | ⟨home, rfl, isPlan, backed⟩
    · obtain ⟨q, home, done, a, isInstalled, view, same, votes, quorum, each⟩ :=
        elected.computed k c v plan old
      refine ⟨q, home, done.trans (installedView_act grows q), a, mem_installs_act.mpr (Or.inl isInstalled),
        view, same, votes, quorum, fun x member => ⟨(each x member).1, ?_⟩⟩
      exact (each x member).2.act home (view.trans_le done) adds
    · refine ⟨p, home, ?_, _, mem_installs_act.mpr (Or.inr ⟨rfl, plan, isPlan, rfl⟩), rfl, rfl, backed⟩
      rw [act_vc_self]
  · rcases List.mem_append.mp left with old | new
    · rcases List.mem_append.mp right with old' | new'
      · exact elected.single k c v plan c' v' plan' old old'
      · obtain ⟨home, same⟩ := single k c' v' plan' new' c v plan left
        exact ⟨home.symm, same.symm⟩
    · exact single k c v plan new c' v' plan' right
  · rcases mem_installs_act.mp member with old | ⟨rfl, plan, isPlan, rfl⟩
    · obtain ⟨c, v, isSent⟩ := elected.installed q a old
      exact ⟨c, v, List.mem_append_left _ isSent⟩
    · exact installed plan isPlan

/-- **A confirmation** opens a round with one report. -/
theorem confirm (elected : Elected quorums m) (p : Fin n) (victim : Nat)
    (report : RecoveryReport cfg) : Elected quorums (m.confirm p victim report) := by
  unfold Members.confirm
  rcases (m.vc p).onConfirm_cases victim report with ⟨-, same⟩ | ⟨-, same⟩
  · rw [same, m.act_quiet p _ rfl]
    exact elected
  rw [same]
  refine elected.act rfl rfl le_rfl (fun msg member x reports => Or.inr ?_)
    (fun k c v plan member => ?_) (fun k c v plan member => ?_) fun plan member => ?_
  · obtain rfl := List.mem_singleton.mp member
    exact ⟨(List.mem_singleton.mp reports).trans (elected.me p), Nat.lt_succ_self _⟩
  · cases List.mem_singleton.mp member
  · cases List.mem_singleton.mp member
  · cases member

/-- A token leaves the network. -/
theorem erase (elected : Elected quorums m) (i : Nat) :
    Elected quorums { m with inflight := m.inflight.eraseIdx i } where
  me := elected.me
  size := elected.size
  flying := fun e member => elected.flying e (List.mem_of_mem_eraseIdx member)
  computed := elected.computed
  single := elected.single
  installed := elected.installed

/-- **A quorum votes once**: nobody has computed a plan for the view yet. -/
theorem first (elected : Elected quorums m) (meet : quorums.Intersecting) {r : Fin n}
    {viewId coordinator victim : Nat} {reports : List (Nat × RecoveryReport cfg)}
    (isSent : .gather viewId coordinator victim reports ∈ m.sent)
    (fresh : (m.vc r).installedView < viewId) (home : (m.vc r).me = coordinator)
    (complete : ∀ x ∈ ((m.vc r).learn victim).alive, x ∈ reports.map Prod.fst ∨ x = (m.vc r).me)
    (quorum : m.votes r (.gather viewId coordinator victim reports) ∈ quorums) (c v : Nat)
    (plan : RecoveryPlan cfg) : .install viewId c v plan ∉ m.sent := by
  intro member
  obtain ⟨q, own, done, a, -, view, -, votes, quorum', each⟩ := elected.computed viewId c v plan member
  obtain ⟨x, inside, inside'⟩ := Finset.not_disjoint_iff.mp (meet quorum quorum')
  obtain ⟨isAlive, devoted⟩ := Finset.mem_filter.mp inside
  have same : c = coordinator := by
    rcases (each x inside').2 with ⟨msg, sent, sameView, named, reported⟩ | ⟨isHome, devoted'⟩
    · exact named.symm.trans (devoted msg sent (sameView.trans view) reported)
    · rcases complete x (List.mem_toFinset.mp isAlive) with reported | self
      · exact (devoted' _ isSent view.symm reported).symm
      · exact isHome.symm.trans (self.trans home)
  obtain rfl : q = r := Fin.ext (own.trans (same.trans (home.symm.trans (elected.me r))))
  omega

/-- **A Gather goes on**, with the report of the node that takes it at most. -/
theorem forward (elected : Elected quorums m) {r : Fin n} {viewId coordinator victim : Nat}
    {reports more : List (Nat × RecoveryReport cfg)}
    (isSent : .gather viewId coordinator victim reports ∈ m.sent)
    (fresh : (m.vc r).installedView < viewId)
    (adds : ∀ x ∈ more.map Prod.fst, x ∈ reports.map Prod.fst ∨ x = (m.vc r).me) :
    Elected quorums (m.act r ((m.vc r).learn victim,
      [.send (.gather viewId coordinator victim more)])) := by
  refine elected.act rfl rfl le_rfl (fun msg member x reported => ?_)
    (fun k c v plan member => ?_) (fun k c v plan member => ?_) fun plan member => ?_
  · obtain rfl := List.mem_singleton.mp member
    exact (adds x reported).imp (fun old => ⟨_, isSent, rfl, rfl, old⟩)
      fun own => ⟨own.trans (elected.me r), fresh⟩
  · cases List.mem_singleton.mp member
  · cases List.mem_singleton.mp member
  · cases member

/-- **A plan is applied and its Install goes on**: it travels already, or the node is its coordinator and
a quorum has voted for it; no other one has this view id. -/
theorem adopt (elected : Elected quorums m) {r : Fin n} {viewId coordinator victim : Nat}
    {plan : RecoveryPlan cfg} {vc : ViewChange} (me : vc.me = (m.vc r).me) (size : vc.n = (m.vc r).n)
    (view : vc.installedView = viewId) (fresh : (m.vc r).installedView < viewId)
    (known : .install viewId coordinator victim plan ∈ m.sent ∨ r.val = coordinator ∧
      (m.act r (vc, [.apply plan, .send (.install viewId coordinator victim plan)])).Backed quorums
        coordinator ⟨vc.installedView, plan, vc.dead⟩)
    (single : ∀ c v plan', .install viewId c v plan' ∈ m.sent → coordinator = c ∧ plan = plan') :
    Elected quorums
      (m.act r (vc, [.apply plan, .send (.install viewId coordinator victim plan)])) := by
  subst view
  refine elected.act me size fresh.le (fun msg member x reports => ?_)
    (fun k c v plan' member => ?_) (fun k c v plan' member c' v' other right => ?_)
    fun plan' member => ⟨coordinator, victim, ?_⟩
  · obtain rfl := List.mem_singleton.mp member
    exact absurd reports List.not_mem_nil
  · cases List.mem_singleton.mp member
    exact known.imp_right fun ⟨home, backed⟩ => ⟨home, rfl, List.mem_singleton_self _, backed⟩
  · cases List.mem_singleton.mp member
    rcases List.mem_append.mp right with old | new
    · exact single c' v' other old
    · cases List.mem_singleton.mp new
      exact ⟨rfl, rfl⟩
  · obtain rfl := List.mem_singleton.mp member
    exact List.mem_append_right _ (List.mem_singleton_self _)

/-- **The quorum that a plan was computed with** has voted for its coordinator. -/
theorem backed (elected : Elected quorums m) {r : Fin n} {viewId coordinator victim : Nat}
    {reports : List (Nat × RecoveryReport cfg)} {plan : RecoveryPlan cfg}
    (isSent : .gather viewId coordinator victim reports ∈ m.sent)
    (home : (m.vc r).me = coordinator)
    (complete : ∀ x ∈ ((m.vc r).learn victim).alive, x ∈ reports.map Prod.fst ∨ x = (m.vc r).me)
    (quorum : m.votes r (.gather viewId coordinator victim reports) ∈ quorums) {vc : ViewChange} :
    (m.act r (vc, [.apply plan, .send (.install viewId coordinator victim plan)])).Backed quorums
      coordinator ⟨viewId, plan, ((m.vc r).learn victim).dead⟩ := by
  refine ⟨_, quorum, fun x member => ?_⟩
  obtain ⟨isAlive, devoted⟩ := Finset.mem_filter.mp member
  have isAlive := List.mem_toFinset.mp isAlive
  have listed := List.mem_filter.mp isAlive
  refine ⟨⟨?_, of_decide_eq_true listed.2⟩, ?_⟩
  · have small := List.mem_range.mp listed.1
    have size : ((m.vc r).learn victim).n = n := elected.size r
    rw [size] at small
    exact small.trans_le (Nat.mod_le _ _)
  · refine (complete x isAlive).imp (fun reported => ⟨_, List.mem_append_left _ isSent, rfl, rfl,
      reported⟩) fun self => ⟨self.trans home, fun msg member same reports => ?_⟩
    rcases List.mem_append.mp member with old | new
    · exact devoted msg old same reports
    · obtain rfl := List.mem_singleton.mp new
      exact absurd reports List.not_mem_nil

/-- **A token is taken.** -/
theorem take (elected : Elected quorums m) (meet : quorums.Intersecting) {i : Nat} {r : Fin n}
    (quorate : ∀ e ∈ m.inflight[i]?, (m.vc r).Completes e.2 → m.votes r e.2 ∈ quorums)
    (report : RecoveryReport cfg) : Elected quorums (m.take i r report) := by
  unfold Members.take
  cases here : m.inflight[i]? with
  | none => exact elected
  | some e =>
    obtain ⟨s, msg⟩ := e
    have isSent : msg ∈ m.sent := elected.flying (s, msg) (List.mem_of_getElem? here)
    have quorum : (m.vc r).Completes msg → m.votes r msg ∈ quorums := quorate (s, msg) here
    have handled := (m.vc r).handle_spec msg report
    have erased := elected.erase i
    show Elected quorums
      ({ m with inflight := m.inflight.eraseIdx i }.act r ((m.vc r).handle msg report))
    generalize (m.vc r).handle msg report = result at handled ⊢
    obtain ⟨vc, actions⟩ := result
    dsimp only at handled
    cases handled with
    | ignored _ =>
      rw [Members.act_quiet { m with inflight := m.inflight.eraseIdx i } r _ rfl]
      exact erased
    | fenced _ =>
      rw [Members.act_quiet { m with inflight := m.inflight.eraseIdx i } r _ rfl]
      exact erased
    | forwarded fresh adds => exact erased.forward isSent fresh adds
    | completed fresh home complete =>
      have counted := quorum ⟨fresh, home, complete⟩
      have first := elected.first meet isSent fresh home complete counted
      exact erased.adopt rfl rfl rfl fresh
        (Or.inr ⟨(elected.me r).symm.trans home, erased.backed isSent home complete counted⟩)
        fun c v plan' other => absurd other (first c v plan')
    | installed fresh =>
      exact erased.adopt rfl rfl rfl fresh (Or.inl isSent)
        fun c v plan' other => elected.single _ _ _ _ _ _ _ isSent other

end Elected

/-! ### One dead set for a view -/

/-- Installs of one view id have one dead set. -/
def Alike (m : Members cfg n) : Prop :=
  ∀ p q, ∀ a ∈ m.installs p, ∀ b ∈ m.installs q, a.viewId = b.viewId → a.dead = b.dead

section Alike

variable {m : Members cfg n} {quorums : Set (Finset Nat)}

/-- A step that installs nothing, or a view with the dead set that everybody has installed it with. -/
theorem Alike.act (alike : Alike m) {p : Fin n} {vc : ViewChange} {actions : List (VcAction cfg)}
    (same : ∀ plan ∈ plans actions, ∀ q, ∀ a ∈ m.installs q, a.viewId = vc.installedView →
      vc.dead = a.dead) : Alike (m.act p (vc, actions)) := by
  intro q q' a left b right view
  rcases mem_installs_act.mp left with old | ⟨-, plan, isPlan, rfl⟩
  · rcases mem_installs_act.mp right with old' | ⟨-, plan, isPlan, rfl⟩
    · exact alike q q' a old b old' view
    · exact (same plan isPlan q a old view).symm
  · rcases mem_installs_act.mp right with old' | ⟨-, plan', -, rfl⟩
    · exact same plan isPlan q' b old' view.symm
    · rfl

theorem Alike.confirm (alike : Alike m) (p : Fin n) (victim : Nat) (report : RecoveryReport cfg) :
    Alike (m.confirm p victim report) := by
  unfold Members.confirm
  rcases (m.vc p).onConfirm_cases victim report with ⟨-, same⟩ | ⟨-, same⟩
  · rw [same, m.act_quiet p _ rfl]
    exact alike
  · rw [same]
    exact alike.act fun plan member => absurd member List.not_mem_nil

/-- **A token is taken**: a plan computed is the first of its view, and an Install is taken with the
coordinator's dead set. -/
theorem Alike.take (alike : Alike m) (elected : Elected quorums m) (meet : quorums.Intersecting)
    {i : Nat} {r : Fin n}
    (quorate : ∀ e ∈ m.inflight[i]?, (m.vc r).Completes e.2 → m.votes r e.2 ∈ quorums)
    (informed : ∀ e ∈ m.inflight[i]?, m.Matches r e.2) (report : RecoveryReport cfg) :
    Alike (m.take i r report) := by
  unfold Members.take
  cases here : m.inflight[i]? with
  | none => exact alike
  | some e =>
    obtain ⟨s, msg⟩ := e
    have isSent : msg ∈ m.sent := elected.flying (s, msg) (List.mem_of_getElem? here)
    have quorum : (m.vc r).Completes msg → m.votes r msg ∈ quorums := quorate (s, msg) here
    have isMatch : m.Matches r msg := informed (s, msg) here
    have handled := (m.vc r).handle_spec msg report
    have erased : Alike { m with inflight := m.inflight.eraseIdx i } := alike
    show Alike ({ m with inflight := m.inflight.eraseIdx i }.act r ((m.vc r).handle msg report))
    generalize (m.vc r).handle msg report = result at handled ⊢
    obtain ⟨vc, actions⟩ := result
    dsimp only at handled
    cases handled with
    | ignored _ => exact erased.act fun plan member => absurd member List.not_mem_nil
    | fenced _ => exact erased.act fun plan member => absurd member List.not_mem_nil
    | forwarded _ _ => exact erased.act fun plan member => absurd member List.not_mem_nil
    | completed fresh home complete =>
      refine erased.act fun plan _ q a member view => ?_
      obtain ⟨c, v, before⟩ := elected.installed q a member
      rw [show a.viewId = _ from view] at before
      exact absurd before (elected.first meet isSent fresh home complete
        (quorum ⟨fresh, home, complete⟩) c v a.plan)
    | installed fresh =>
      refine erased.act fun plan _ q a member view => ?_
      obtain ⟨p, home, -, b, isInstalled, sameView, -⟩ := elected.computed _ _ _ _ isSent
      exact (isMatch fresh p home b isInstalled sameView).trans
        (alike p q b isInstalled a member (sameView.trans view.symm))

/-- **Nodes that agree on dead sets are undivided** in quorate runs. -/
theorem Elected.undivided (elected : Elected quorums m) (meet : quorums.Intersecting)
    (alike : Alike m) : Undivided m := by
  intro p q a left b right
  obtain ⟨c, v, sentA⟩ := elected.installed p a left
  obtain ⟨c', v', sentB⟩ := elected.installed q b right
  refine ⟨fun same => ⟨?_, alike p q a left b right same⟩, ?_⟩
  · rw [same] at sentA
    exact (elected.single _ _ _ _ _ _ _ sentA sentB).2
  · obtain ⟨p', -, -, a', isA, viewA, -, votes, quorum, spared⟩ := elected.computed _ _ _ _ sentA
    obtain ⟨q', -, -, b', isB, viewB, -, votes', quorum', spared'⟩ := elected.computed _ _ _ _ sentB
    obtain ⟨x, inside, inside'⟩ := Finset.not_disjoint_iff.mp (meet quorum quorum')
    have aliveA := (spared x inside).1
    have aliveB := (spared' x inside').1
    rw [alike p' p a' isA a left viewA] at aliveA
    rw [alike q' q b' isB b right viewB] at aliveB
    exact ⟨x, aliveA.1, aliveA.2, aliveB.2⟩

/-- **An Install taken with another dead set** than the coordinator's divides the two. -/
theorem Members.take_matches {i : Nat} {r : Fin n} {e : Fin n × ViewChangeMsg cfg}
    (here : m.inflight[i]? = some e) (report : RecoveryReport cfg)
    (undivided : Undivided (m.take i r report)) : m.Matches r e.2 := by
  obtain ⟨s, msg⟩ := e
  cases msg with
  | install viewId coordinator victim plan =>
    intro fresh q home a member view
    have taken : m.take i r report = { m with inflight := m.inflight.eraseIdx i }.act r
        ({ (m.vc r).learn victim with installedView := viewId },
          [.apply plan, .send (.install viewId coordinator victim plan)]) := by
      unfold Members.take
      rw [here]
      simp only [ViewChange.handle, ViewChange.onInstall, if_neg (not_le.mpr fresh)]
    rw [taken] at undivided
    exact ((undivided r q ⟨viewId, plan, ((m.vc r).learn victim).dead⟩
      (mem_installs_act.mpr (Or.inr ⟨rfl, plan, List.mem_singleton_self _, rfl⟩)) a
      (mem_installs_act.mpr (Or.inl member))).1 view.symm).2
  | gather _ _ _ _ => trivial
  | reAdmitGather _ _ _ _ => trivial
  | reAdmitInstall _ _ _ _ _ => trivial

end Alike

/-! ### Runs with the checks -/

/-- **A checked step** keeps both invariants. -/
theorem checked_step {quorums : Set (Finset Nat)} (meet : quorums.Intersecting) {st : Partitioned cfg n}
    (elected : Elected quorums st.members) (alike : Alike st.members) {action : PartitionAction cfg n}
    (quorate : Quorate quorums st action) (informed : Informed st action) :
    Elected quorums (action.apply st).members ∧ Alike (action.apply st).members := by
  cases action with
  | cut reach => exact ⟨elected, alike⟩
  | confirm p victim report => exact ⟨elected.confirm p victim report, alike.confirm p victim report⟩
  | deliver i r report =>
    exact ⟨elected.take meet quorate report, alike.take elected meet quorate informed report⟩

theorem checked_reachable {quorums : Set (Finset Nat)} (meet : quorums.Intersecting)
    {st : Partitioned cfg n} (reachable : (checkedNetwork cfg n quorums).Reachable st) :
    Elected quorums st.members ∧ Alike st.members := by
  refine Machine.invariant (m := checkedNetwork cfg n quorums)
    (P := fun st => Elected quorums st.members ∧ Alike st.members) ?_ ?_ reachable
  · rintro _ rfl
    exact ⟨Elected.initial cfg n quorums, fun _ _ _ member => absurd member List.not_mem_nil⟩
  · rintro st action ⟨elected, alike⟩ ⟨-, quorate, informed⟩
    exact checked_step meet elected alike quorate informed

/-- **No split brain in checked runs**, whatever is cut off and whoever confirms whom: when every plan
is computed with the votes of a quorum, any two of which have a member in common, and every Install is
taken with the coordinator's dead set. The second check is exact: a quorate step keeps the nodes
undivided if and only if it is informed. -/
theorem no_split_brain {quorums : Set (Finset Nat)} (meet : quorums.Intersecting)
    {st : Partitioned cfg n} (reachable : (checkedNetwork cfg n quorums).Reachable st) :
    Undivided st.members ∧ ∀ action, (partitioned cfg n).legal st action → Quorate quorums st action →
      (Undivided ((partitioned cfg n).next st action).members ↔ Informed st action) := by
  obtain ⟨elected, alike⟩ := checked_reachable meet reachable
  refine ⟨elected.undivided meet alike, fun action legal quorate => ⟨fun undivided => ?_, fun informed => ?_⟩⟩
  · cases action with
    | cut reach => trivial
    | confirm p victim report => trivial
    | deliver i r report => exact fun e here => Members.take_matches here report undivided
  · obtain ⟨elected, alike⟩ := checked_step meet elected alike quorate informed
    exact elected.undivided meet alike

/-- Nodes 0, 1 and 2 lose nodes 3 and 4, which lose them. Node 2 confirms both of the others; its
tokens overtake one another and node 0 computes a plan of three reports. On the other side everybody is
confirmed, and no plan is computed. -/
def minorityRun : List (PartitionAction .quad 5) :=
  [.cut fun p q => decide (p < 3) == decide (q < 3),
    .confirm 2 3 (.blank _), .confirm 2 4 (.blank _),
    .deliver 0 0 (.blank _), .deliver 1 1 (.blank _), .deliver 0 0 (.blank _),
    .deliver 1 1 (.blank _), .deliver 1 0 (.blank _), .deliver 1 1 (.blank _), .deliver 1 2 (.blank _),
    .confirm 4 0 (.blank _), .deliver 2 3 (.blank _), .confirm 3 1 (.blank _), .confirm 4 1 (.blank _),
    .confirm 3 2 (.blank _)]

def minorityState : Partitioned .quad 5 :=
  (checkedNetwork .quad 5 (majorities 5)).run (.initial _ _) minorityRun

theorem no_split_brain_minority :
    ((∀ p : Fin 5, p.val < 3 → ∃ a ∈ minorityState.members.installs p, a.viewId = 1 ∧ a.dead = {3, 4}) ∧
      (minorityState.members.vc 3).dead = {0, 1, 2}) ∧ Undivided minorityState.members := by
  have reachable : (checkedNetwork .quad 5 (majorities 5)).Reachable minorityState :=
    Machine.reachable_run rfl (by decide +kernel)
  exact ⟨by decide +kernel, (no_split_brain (majorities_intersecting 5) reachable).1⟩

end TrainsRing
