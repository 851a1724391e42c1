/-
**The view-change machine** (`trains-recovery/src/view_change.rs`).

One node's part in a membership change. Gather tokens collect a report from every survivor and
Install tokens carry the coordinator's plan around; the re-admission tokens mirror them. A token at
or below the installed view is dropped.

* `onConfirm`, `onGather`, `onInstall` — a peer is excluded.
* `adoptView`, `onRequestReadmit`, `onReadmitGather`, `onReadmitInstall` — a peer comes back.
* `Handled` — **what a token of an exclusion does** to the machine that takes it.
-/

import TrainsRing.Core.Recovery
import TrainsRing.Library.Round

namespace TrainsRing

variable {cfg : RingConfig}

/-- A view-change token. -/
inductive ViewChangeMsg (cfg : RingConfig) where
  | gather (viewId coordinator victim : Nat) (reports : List (Nat × RecoveryReport cfg))
  | install (viewId coordinator victim : Nat) (plan : RecoveryPlan cfg)
  | reAdmitGather (viewId coordinator rejoiner : Nat) (reports : List (Nat × RecoveryReport cfg))
  | reAdmitInstall (viewId coordinator rejoiner : Nat) (plan : RecoveryPlan cfg)
      (snapshotSrc : Nat)

namespace ViewChangeMsg

/-- The view this token belongs to. -/
def viewId : ViewChangeMsg cfg → Nat
  | gather viewId .. => viewId
  | install viewId .. => viewId
  | reAdmitGather viewId .. => viewId
  | reAdmitInstall viewId .. => viewId

/-- The node that computes the plan. -/
def coordinator : ViewChangeMsg cfg → Nat
  | gather _ coordinator .. => coordinator
  | install _ coordinator .. => coordinator
  | reAdmitGather _ coordinator .. => coordinator
  | reAdmitInstall _ coordinator .. => coordinator

/-- The crashed member an exclusion removes. -/
def victim : ViewChangeMsg cfg → Option Nat
  | gather _ _ victim _ => some victim
  | install _ _ victim _ => some victim
  | reAdmitGather .. => none
  | reAdmitInstall .. => none

end ViewChangeMsg

/-- What the driver must do in response to a view-change event. -/
inductive VcAction (cfg : RingConfig) where
  | send (msg : ViewChangeMsg cfg)
  | apply (plan : RecoveryPlan cfg)

/-- Per-node view-change state. -/
structure ViewChange where
  me : Nat
  n : Nat
  installedView : Nat
  dead : Finset Nat

namespace ViewChange

/-- `ViewChange::new`. -/
def new (me n : Nat) : ViewChange := ⟨me, n, 0, ∅⟩

/-- Live members, in increasing order. The ring size is cast to `u8`. -/
def alive (vc : ViewChange) : List Nat :=
  (List.range (vc.n % 256)).filter fun p => p ∉ vc.dead

/-- The coordinator = lowest-id survivor. -/
def coordinator (vc : ViewChange) : Nat := vc.alive.head?.getD vc.me

/-- Learn that a peer has crashed. -/
def learn (vc : ViewChange) (victim : Nat) : ViewChange :=
  { vc with dead := insert victim vc.dead }

/-- Append a report unless one of the same node is there. -/
def addReport (reports : List (Nat × RecoveryReport cfg)) (me : Nat)
    (report : RecoveryReport cfg) : List (Nat × RecoveryReport cfg) :=
  if reports.any fun entry => entry.1 = me then reports else reports ++ [(me, report)]

/-- Have all these nodes reported? -/
def reported (members : List Nat) (reports : List (Nat × RecoveryReport cfg)) : Bool :=
  members.all fun p => reports.any fun entry => entry.1 = p

/-! ### Exclusion -/

/-- `on_confirm`. -/
def onConfirm (vc : ViewChange) (victim : Nat) (myReport : RecoveryReport cfg) :
    ViewChange × List (VcAction cfg) :=
  if victim ∈ vc.dead then (vc, [])
  else
    let learned := vc.learn victim
    (learned, [.send (.gather (vc.installedView + 1) learned.coordinator victim
      [(vc.me, myReport)])])

/-- `on_gather`. -/
def onGather (vc : ViewChange) (msg : ViewChangeMsg cfg) (myReport : RecoveryReport cfg) :
    ViewChange × List (VcAction cfg) :=
  match msg with
  | .gather viewId coordinator victim reports =>
    if viewId ≤ vc.installedView then (vc, [])
    else
      let learned := vc.learn victim
      let reports := addReport reports vc.me myReport
      if vc.me = coordinator then
        if reported learned.alive reports then
          let plan := computeRecoveryPlan (reports.map Prod.snd)
          ({ learned with installedView := viewId },
            [.apply plan, .send (.install viewId coordinator victim plan)])
        else (learned, [.send (.gather viewId coordinator victim reports)])
      else (learned, [.send (.gather viewId coordinator victim reports)])
  | _ => (vc, [])

/-- `on_install`. -/
def onInstall (vc : ViewChange) (msg : ViewChangeMsg cfg) : ViewChange × List (VcAction cfg) :=
  match msg with
  | .install viewId _ victim plan =>
    if viewId ≤ vc.installedView then (vc, [])
    else ({ vc.learn victim with installedView := viewId }, [.apply plan, .send msg])
  | _ => (vc, [])

/-! ### Re-admission -/

/-- `adopt_view`. -/
def adoptView (vc : ViewChange) (installedView : Nat) (dead : Finset Nat) : ViewChange :=
  { vc with installedView, dead }

/-- `on_request_readmit`. -/
def onRequestReadmit (vc : ViewChange) (myReport : RecoveryReport cfg) : List (VcAction cfg) :=
  [.send (.reAdmitGather (vc.installedView + 1) vc.coordinator vc.me [(vc.me, myReport)])]

/-- `on_readmit_gather`. -/
def onReadmitGather (vc : ViewChange) (msg : ViewChangeMsg cfg) (myReport : RecoveryReport cfg) :
    ViewChange × List (VcAction cfg) :=
  match msg with
  | .reAdmitGather viewId coordinator rejoiner reports =>
    if viewId ≤ vc.installedView then (vc, [])
    else
      let reports := addReport reports vc.me myReport
      if vc.me = coordinator then
        if reported (rejoiner :: vc.alive) reports then
          let plan := computeRecoveryPlan (reports.map Prod.snd)
          ({ vc with installedView := viewId, dead := vc.dead.erase rejoiner },
            [.apply plan,
              .send (.reAdmitInstall viewId coordinator rejoiner plan coordinator)])
        else (vc, [.send (.reAdmitGather viewId coordinator rejoiner reports)])
      else (vc, [.send (.reAdmitGather viewId coordinator rejoiner reports)])
  | _ => (vc, [])

/-- `on_readmit_install`. -/
def onReadmitInstall (vc : ViewChange) (msg : ViewChangeMsg cfg) :
    ViewChange × List (VcAction cfg) :=
  match msg with
  | .reAdmitInstall viewId _ rejoiner plan _ =>
    if viewId ≤ vc.installedView then (vc, [])
    else ({ vc with installedView := viewId, dead := vc.dead.erase rejoiner },
      [.apply plan, .send msg])
  | _ => (vc, [])

/-! ### What a token does -/

/-- The driver's dispatch (`handle_vc`): the node binary ignores the re-admission tokens. -/
def handle (vc : ViewChange) (msg : ViewChangeMsg cfg) (myReport : RecoveryReport cfg) :
    ViewChange × List (VcAction cfg) :=
  match msg with
  | .gather .. => vc.onGather msg myReport
  | .install .. => vc.onInstall msg
  | .reAdmitGather .. => (vc, [])
  | .reAdmitInstall .. => (vc, [])

theorem mem_addReport (reports : List (Nat × RecoveryReport cfg)) (me : Nat)
    (report : RecoveryReport cfg) (x : Nat) :
    x ∈ (addReport reports me report).map Prod.fst ↔ x ∈ reports.map Prod.fst ∨ x = me :=
  RoundSetup.mem_collect reports me report x

theorem reported_iff (members : List Nat) (reports : List (Nat × RecoveryReport cfg)) :
    reported members reports = true ↔ ∀ x ∈ members, x ∈ reports.map Prod.fst := by
  simp only [reported, List.all_eq_true, RoundSetup.any_iff]

/-- With this node's own report, everybody it holds for alive has reported. -/
theorem reported_addReport (vc : ViewChange) (victim : Nat) (reports : List (Nat × RecoveryReport cfg))
    (report : RecoveryReport cfg) :
    reported (vc.learn victim).alive (addReport reports vc.me report) = true ↔
      ∀ x ∈ (vc.learn victim).alive, x ∈ reports.map Prod.fst ∨ x = vc.me := by
  simp only [reported_iff, mem_addReport]

/-- A new peer is confirmed dead, or nothing happens. -/
theorem onConfirm_cases (vc : ViewChange) (victim : Nat) (myReport : RecoveryReport cfg) :
    (victim ∈ vc.dead ∧ vc.onConfirm victim myReport = (vc, [])) ∨
      (victim ∉ vc.dead ∧ vc.onConfirm victim myReport = (vc.learn victim,
        [.send (.gather (vc.installedView + 1) (vc.learn victim).coordinator victim
          [(vc.me, myReport)])])) := by
  by_cases known : victim ∈ vc.dead
  · exact Or.inl ⟨known, if_pos known⟩
  · exact Or.inr ⟨known, if_neg known⟩

/-- **The ways to take a token.** -/
inductive Handled (vc : ViewChange) :
    ViewChangeMsg cfg → ViewChange → List (VcAction cfg) → Prop
  | ignored {msg : ViewChangeMsg cfg} (other : msg.victim = none) : Handled vc msg vc []
  | fenced {msg : ViewChangeMsg cfg} (stale : msg.viewId ≤ vc.installedView) :
      Handled vc msg vc []
  | forwarded {viewId coordinator victim : Nat} {reports more : List (Nat × RecoveryReport cfg)}
      (fresh : vc.installedView < viewId)
      (adds : ∀ x ∈ more.map Prod.fst, x ∈ reports.map Prod.fst ∨ x = vc.me) :
      Handled vc (.gather viewId coordinator victim reports) (vc.learn victim)
        [.send (.gather viewId coordinator victim more)]
  | completed {viewId coordinator victim : Nat} {reports : List (Nat × RecoveryReport cfg)}
      {plan : RecoveryPlan cfg} (fresh : vc.installedView < viewId) (home : vc.me = coordinator)
      (complete : ∀ x ∈ (vc.learn victim).alive, x ∈ reports.map Prod.fst ∨ x = vc.me) :
      Handled vc (.gather viewId coordinator victim reports)
        { vc.learn victim with installedView := viewId }
        [.apply plan, .send (.install viewId coordinator victim plan)]
  | installed {viewId coordinator victim : Nat} {plan : RecoveryPlan cfg}
      (fresh : vc.installedView < viewId) :
      Handled vc (.install viewId coordinator victim plan)
        { vc.learn victim with installedView := viewId }
        [.apply plan, .send (.install viewId coordinator victim plan)]

theorem handle_spec (vc : ViewChange) (msg : ViewChangeMsg cfg) (myReport : RecoveryReport cfg) :
    Handled vc msg (vc.handle msg myReport).1 (vc.handle msg myReport).2 := by
  cases msg with
  | gather viewId coordinator victim reports =>
    simp only [handle, onGather]
    split_ifs with stale home complete
    · exact .fenced stale
    · exact .completed (not_le.mp stale) home ((vc.reported_addReport ..).mp complete)
    · exact .forwarded (not_le.mp stale) fun x => (mem_addReport ..).mp
    · exact .forwarded (not_le.mp stale) fun x => (mem_addReport ..).mp
  | install viewId coordinator victim plan =>
    simp only [handle, onInstall]
    split_ifs with stale
    · exact .fenced stale
    · exact .installed (not_le.mp stale)
  | reAdmitGather viewId coordinator rejoiner reports => exact .ignored rfl
  | reAdmitInstall viewId coordinator rejoiner plan snapshotSrc => exact .ignored rfl

end ViewChange

/-! ### Machines and tokens -/

/-- The tokens sent by some actions, in order. -/
def tokens (actions : List (VcAction cfg)) : List (ViewChangeMsg cfg) :=
  actions.filterMap fun
    | .send msg => some msg
    | .apply _ => none

/-- The plans applied by some actions, in order. -/
def plans (actions : List (VcAction cfg)) : List (RecoveryPlan cfg) :=
  actions.filterMap fun
    | .send _ => none
    | .apply plan => some plan

/-- The report of a node that has seen nothing. -/
def RecoveryReport.blank (cfg : RingConfig) : RecoveryReport cfg :=
  ⟨Slots.zero cfg, Slots.zero cfg, ∅, OrdMap.empty⟩

/-- A view a node has installed: the plan it applied, and the peers it then held for dead. -/
structure InstalledView (cfg : RingConfig) where
  viewId : Nat
  plan : RecoveryPlan cfg
  dead : Finset Nat

/-- The machines of `n` nodes and their tokens. -/
structure Members (cfg : RingConfig) (n : Nat) where
  vc : Fin n → ViewChange
  /-- Every token sent so far. -/
  sent : List (ViewChangeMsg cfg)
  /-- The tokens in flight with their senders, in sending order. -/
  inflight : List (Fin n × ViewChangeMsg cfg)
  /-- The views each node has installed. -/
  installs : Fin n → List (InstalledView cfg)
  /-- The peers each node has added to its dead set since it last installed a view. -/
  awaiting : Fin n → Finset Nat

namespace Members

variable {n : Nat}

/-- Every machine as constructed. -/
def initial (cfg : RingConfig) (n : Nat) : Members cfg n where
  vc := fun p => ViewChange.new p n
  sent := []
  inflight := []
  installs := fun _ => []
  awaiting := fun _ => ∅

/-- Node `p` has made a step and its actions are executed. -/
def act (m : Members cfg n) (p : Fin n) (result : ViewChange × List (VcAction cfg)) :
    Members cfg n where
  vc := Function.update m.vc p result.1
  sent := m.sent ++ tokens result.2
  inflight := m.inflight ++ (tokens result.2).map fun msg => (p, msg)
  installs := Function.update m.installs p (m.installs p ++ (plans result.2).map fun plan =>
    ⟨result.1.installedView, plan, result.1.dead⟩)
  awaiting := Function.update m.awaiting p
    (if (plans result.2).isEmpty then m.awaiting p ∪ (result.1.dead \ (m.vc p).dead) else ∅)

/-- Node `p` confirms the crash of `victim`. -/
def confirm (m : Members cfg n) (p : Fin n) (victim : Nat) (report : RecoveryReport cfg) :
    Members cfg n := m.act p ((m.vc p).onConfirm victim report)

/-- Node `r` takes the `i`-th token in flight. -/
def take (m : Members cfg n) (i : Nat) (r : Fin n) (report : RecoveryReport cfg) : Members cfg n :=
  match m.inflight[i]? with
  | none => m
  | some (_, msg) =>
    { m with inflight := m.inflight.eraseIdx i }.act r ((m.vc r).handle msg report)

variable (m : Members cfg n) (p : Fin n) (result : ViewChange × List (VcAction cfg))

@[simp] theorem act_vc_self : (m.act p result).vc p = result.1 := Function.update_self ..

theorem act_vc_of_ne {q : Fin n} (other : q ≠ p) : (m.act p result).vc q = m.vc q :=
  Function.update_of_ne other ..

theorem act_awaiting_of_ne {q : Fin n} (other : q ≠ p) :
    (m.act p result).awaiting q = m.awaiting q := Function.update_of_ne other ..

/-- A step without a token and without a plan. -/
theorem act_quiet (vc : ViewChange) (same : m.vc p = vc) : m.act p (vc, []) = m := by
  obtain ⟨machines, sent, inflight, installs, awaiting⟩ := m
  subst same
  simp [act, tokens, plans]

end Members

end TrainsRing
