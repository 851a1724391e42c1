/-
**Membership changes under crashes.**

Nodes crash and stay silent, confirmations are true, and every token reaches the next live node on
FIFO links. An installed view always gets around. The news of a victim can be lost: two rounds of
crashes close together carry the same view id, and a node that has installed one of them drops the
token of the other.

* `crashRing` — the machines on a ring of live nodes.
* `NothingLost` — with nothing in flight, all live nodes hold the same peers for dead and have
  installed a view since.
* `change_lost` — a run of four nodes that ends with two views of who is dead.
* `nothing_lost` — **a run in which no dropped token carries news loses nothing**.
-/

import TrainsRing.Library.Gossip
import TrainsRing.Library.Machine
import TrainsRing.Membership.ViewChange

namespace TrainsRing

variable {cfg : RingConfig} {n : Nat}

/-! ### The network -/

/-- The machines, and the nodes that have crashed. -/
structure CrashRing (cfg : RingConfig) (n : Nat) where
  members : Members cfg n
  crashed : Finset Nat

/-- Every machine as constructed, nobody crashed. -/
def CrashRing.initial (cfg : RingConfig) (n : Nat) : CrashRing cfg n := ⟨Members.initial cfg n, ∅⟩

/-- The steps of a ring with crashes. -/
inductive CrashAction (cfg : RingConfig) (n : Nat) where
  | crash (p : Fin n)
  | confirm (p victim : Fin n) (report : RecoveryReport cfg)
  | hop (i : Nat) (report : RecoveryReport cfg)

namespace CrashRing

/-- The node that receives what `p` has sent. -/
def successor (st : CrashRing cfg n) (p : Fin n) : Fin n :=
  ⟨nextAlive n st.crashed p, nextAlive_lt p.isLt⟩

/-- The `i`-th token in flight is received by the next live node after its sender. -/
def hop (st : CrashRing cfg n) (i : Nat) (report : RecoveryReport cfg) : CrashRing cfg n :=
  match st.members.inflight[i]? with
  | none => st
  | some (sender, _) => { st with members := st.members.take i (st.successor sender) report }

/-- **One hop** takes a token out of flight and lets its receiver handle it. -/
theorem hop_eq {st : CrashRing cfg n} {i : Nat} {s : Fin n} {msg : ViewChangeMsg cfg}
    (here : st.members.inflight[i]? = some (s, msg)) (report : RecoveryReport cfg) :
    ∃ rest, (∀ e ∈ rest, e ∈ st.members.inflight) ∧
      (∀ e ∈ st.members.inflight, e = (s, msg) ∨ e ∈ rest) ∧
      st.hop i report = { st with
        members := Members.act { st.members with inflight := rest } (st.successor s)
          ((st.members.vc (st.successor s)).handle msg report) } := by
  refine ⟨st.members.inflight.eraseIdx i, fun e member => List.mem_of_mem_eraseIdx member,
    fun e member => ?_, ?_⟩
  · obtain ⟨inside, entry⟩ := List.getElem?_eq_some_iff.mp here
    obtain ⟨j, jInside, rfl⟩ := List.getElem_of_mem member
    by_cases same : j = i
    · subst same
      exact Or.inl entry
    · exact Or.inr (List.mem_eraseIdx_iff_getElem.mpr ⟨j, jInside, same, rfl⟩)
  · unfold hop Members.take
    rw [here]

end CrashRing

namespace CrashAction

/-- Live nodes act, a confirmed peer has crashed, and a link hands its tokens over in order. -/
def Legal (st : CrashRing cfg n) : CrashAction cfg n → Prop
  | crash p => p.val ∉ st.crashed
  | confirm p victim _ => p.val ∉ st.crashed ∧ victim.val ∈ st.crashed
  | hop i _ => ∃ e ∈ st.members.inflight[i]?, (st.successor e.1).val ∉ st.crashed ∧
      ∀ j < i, ∀ e' ∈ st.members.inflight[j]?, e'.1 ≠ e.1

instance (st : CrashRing cfg n) (action : CrashAction cfg n) : Decidable (action.Legal st) := by
  cases action <;> unfold Legal <;> infer_instance

/-- The state after a step. -/
def apply (st : CrashRing cfg n) : CrashAction cfg n → CrashRing cfg n
  | crash p => { st with crashed := insert p.val st.crashed }
  | confirm p victim report => { st with members := st.members.confirm p victim report }
  | hop i report => st.hop i report

end CrashAction

/-- Machines that crash. -/
def crashRing (cfg : RingConfig) (n : Nat) : Machine (CrashRing cfg n) (CrashAction cfg n) where
  start := fun st => st = CrashRing.initial cfg n
  legal := fun st action => action.Legal st
  next := CrashAction.apply

instance (st : CrashRing cfg n) (action : CrashAction cfg n) :
    Decidable ((crashRing cfg n).legal st action) :=
  inferInstanceAs (Decidable (action.Legal st))

/-- With nothing in flight, what one live node holds for dead all of them do, and each has installed
a view since it learned it. -/
def NothingLost (st : CrashRing cfg n) : Prop :=
  st.members.inflight = [] → ∀ p : Fin n, p.val ∉ st.crashed → ∀ v ∈ (st.members.vc p).dead,
    ∀ q : Fin n, q.val ∉ st.crashed →
      v ∈ (st.members.vc q).dead ∧ v ∉ st.members.awaiting q

/-- Node 0 installs a view without node 3; node 2 crashes, and node 1, which has not got the view,
confirms it under the same view id. -/
def lostRun : List (CrashAction .quad RingConfig.quad.ringSize) :=
  [.crash 3, .confirm 0 3 (.blank _), .hop 0 (.blank _), .hop 0 (.blank _), .hop 0 (.blank _),
    .crash 2, .confirm 1 2 (.blank _), .hop 1 (.blank _), .hop 0 (.blank _), .hop 0 (.blank _)]

def lostState : CrashRing .quad RingConfig.quad.ringSize :=
  (crashRing .quad RingConfig.quad.ringSize).run (.initial _ _) lostRun

/-- Node 1 holds node 2 for dead, and node 0 never will. -/
theorem change_lost : ¬ ∀ (cfg : RingConfig) (n : Nat) (st : CrashRing cfg n),
    (crashRing cfg n).Reachable st → NothingLost st := by
  intro holds
  have reachable : (crashRing .quad _).Reachable lostState :=
    Machine.reachable_run rfl (by decide +kernel)
  have quiet : lostState.members.inflight = [] :=
    List.isEmpty_iff.mp (by decide +kernel)
  have known := (holds .quad _ lostState reachable quiet 1 (by decide +kernel) 2
    (by decide +kernel) 0 (by decide +kernel)).1
  exact absurd known (by decide +kernel)

/-! ### What spreads -/

variable {K : ViewChange → Prop} {P : ViewChangeMsg cfg → Prop}

/-- The nodes whose machines have a property. -/
def Holds (m : Members cfg n) (K : ViewChange → Prop) (x : Nat) : Prop :=
  ∃ p : Fin n, p.val = x ∧ K (m.vc p)

/-- The nodes with a token of some kind in flight. -/
def OnWay (m : Members cfg n) (P : ViewChangeMsg cfg → Prop) (s : Nat) : Prop :=
  ∃ e ∈ m.inflight, e.1.val = s ∧ P e.2

/-- **A step of one node** spreads what it learns, when it sends a token that says so. -/
theorem spreading_act {m : Members cfg n} {crashed : Finset Nat}
    (spreading : Spreading n crashed (Holds m K) (OnWay m P)) {p : Fin n} {vc : ViewChange}
    {actions : List (VcAction cfg)} (grows : K (m.vc p) → K vc)
    (learned : K vc → K (m.vc p) ∨ ∃ msg ∈ tokens actions, P msg) :
    Spreading n crashed (Holds (m.act p (vc, actions)) K) (OnWay (m.act p (vc, actions)) P) := by
  refine spreading.step (fun x ⟨q, same, holds⟩ => ⟨q, same, ?_⟩)
    (fun x _ ⟨q, same, holds⟩ => ?_) fun s _ ⟨e, member, rest⟩ =>
      Or.inl ⟨e, List.mem_append_left _ member, rest⟩
  · by_cases here : q = p
    · rw [here] at holds ⊢
      rw [Members.act_vc_self]
      exact grows holds
    · rw [m.act_vc_of_ne p _ here]
      exact holds
  · by_cases here : q = p
    · subst here
      rw [Members.act_vc_self] at holds
      refine (learned holds).imp (fun old => ⟨q, same, old⟩) fun ⟨msg, member, kind⟩ => ?_
      exact ⟨(q, msg), List.mem_append_right _ (List.mem_map_of_mem member), same, kind⟩
    · rw [m.act_vc_of_ne p _ here] at holds
      exact Or.inl ⟨q, same, holds⟩

/-- **A hop** spreads what its token says, when the receiver then knows it. -/
theorem spreading_hop {st : CrashRing cfg n} {i : Nat} {s : Fin n} {msg : ViewChangeMsg cfg}
    (here : st.members.inflight[i]? = some (s, msg))
    (spreading : Spreading n st.crashed (Holds st.members K) (OnWay st.members P))
    (report : RecoveryReport cfg)
    (grows : K (st.members.vc (st.successor s)) →
      K ((st.members.vc (st.successor s)).handle msg report).1)
    (learned : K ((st.members.vc (st.successor s)).handle msg report).1 →
      K (st.members.vc (st.successor s)) ∨
        ∃ out ∈ tokens ((st.members.vc (st.successor s)).handle msg report).2, P out)
    (kept : P msg → K ((st.members.vc (st.successor s)).handle msg report).1) :
    Spreading n st.crashed (Holds (st.hop i report).members K)
      (OnWay (st.hop i report).members P) := by
  obtain ⟨rest, -, others, hop⟩ := CrashRing.hop_eq here report
  rw [hop]
  have next : (st.successor s).val = nextAlive n st.crashed s := rfl
  generalize st.successor s = r at *
  generalize (st.members.vc r).handle msg report = result at *
  obtain ⟨vc, actions⟩ := result
  have self : Holds ({ st.members with inflight := rest }.act r (vc, actions)) K r ↔ K vc := by
    refine ⟨fun ⟨q, same, holds⟩ => ?_, fun holds => ⟨r, rfl, ?_⟩⟩
    · obtain rfl := Fin.ext same
      rwa [Members.act_vc_self] at holds
    · rwa [Members.act_vc_self]
  have other : ∀ q : Fin n, q ≠ r →
      ({ st.members with inflight := rest }.act r (vc, actions)).vc q = st.members.vc q :=
    fun q ne => Members.act_vc_of_ne _ r _ ne
  refine spreading.step (fun x ⟨q, same, holds⟩ => ?_) (fun x _ ⟨q, same, holds⟩ => ?_)
    fun x _ ⟨e, member, same, kind⟩ => ?_
  · by_cases here : q = r
    · subst here
      rw [← same]
      exact self.mpr (grows holds)
    · exact ⟨q, same, (other q here).symm ▸ holds⟩
  · by_cases here : q = r
    · subst here
      rw [Members.act_vc_self] at holds
      refine (learned holds).imp (fun old => ⟨q, same, old⟩) fun ⟨out, member, kind⟩ => ?_
      exact ⟨(q, out), List.mem_append_right _ (List.mem_map_of_mem member), same, kind⟩
    · rw [other q here] at holds
      exact Or.inl ⟨q, same, holds⟩
  · rcases others e member with rfl | still
    · refine Or.inr ?_
      rw [← same, ← next]
      exact self.mpr (kept kind)
    · exact Or.inl ⟨e, List.mem_append_left _ still, same, kind⟩

/-! ### Installed views -/

/-- An Install token of this view or a later one. -/
def InstallsFrom (view : Nat) : ViewChangeMsg cfg → Prop
  | .install viewId _ _ _ => view ≤ viewId
  | _ => False

/-- A token of an exclusion to this view or a later one. -/
def ExcludesFrom (view : Nat) (msg : ViewChangeMsg cfg) : Prop :=
  msg.victim ≠ none ∧ view ≤ msg.viewId

/-- This view or a later one is installed at some live node, or on its way to be. -/
def Served (st : CrashRing cfg n) (view : Nat) : Prop :=
  (∃ p : Fin n, p.val ∉ st.crashed ∧ view ≤ (st.members.vc p).installedView) ∨
    ∃ e ∈ st.members.inflight, ExcludesFrom view e.2

/-- Installed views get around, and whoever waits for a view will get one. -/
structure Serving (st : CrashRing cfg n) : Prop where
  spreading : ∀ view, Spreading n st.crashed
    (Holds st.members fun vc => view ≤ vc.installedView) (OnWay st.members (InstallsFrom view))
  served : ∀ p : Fin n, p.val ∉ st.crashed → (st.members.awaiting p).Nonempty →
    Served st ((st.members.vc p).installedView + 1)

namespace Serving

variable {st : CrashRing cfg n}

theorem initial (cfg : RingConfig) (n : Nat) :
    Serving (CrashRing.initial cfg n) := by
  refine ⟨fun view x _ _ ⟨p, same, holds⟩ => Or.inl ?_, fun p _ waiting => ?_⟩
  · exact ⟨⟨nextAlive n ∅ x, nextAlive_lt (same ▸ p.isLt)⟩, rfl, holds⟩
  · exact absurd waiting Finset.not_nonempty_empty

/-- **A node crashes**: what it alone had installed is on its way. -/
theorem crash (serving : Serving st) {p : Fin n} (live : p.val ∉ st.crashed) :
    Serving ({ st with crashed := insert p.val st.crashed } : CrashRing cfg n) := by
  refine ⟨fun view => (serving.spreading view).crash p.isLt live, fun q alive waiting => ?_⟩
  have qLive : q.val ∉ st.crashed := fun member => alive (Finset.mem_insert_of_mem member)
  have other : q.val ≠ p.val := fun same => alive (same ▸ Finset.mem_insert_self _ _)
  rcases serving.served q qLive waiting with ⟨y, yLive, installed⟩ | onWay
  · by_cases here : y = p
    · subst here
      rcases serving.spreading _ y y.isLt yLive ⟨y, rfl, installed⟩ with
        ⟨z, next, told⟩ | ⟨s, -, ⟨e, member, -, kind⟩, -⟩
      · refine Or.inl ⟨z, fun member => ?_, told⟩
        rcases Finset.mem_insert.mp member with same | dead
        · exact nextAlive_ne y.isLt q.isLt qLive other (next.symm.trans same)
        · exact nextAlive_not_mem y.isLt q.isLt qLive (next ▸ dead)
      · refine Or.inr ⟨e, member, ?_⟩
        obtain ⟨sender, msg⟩ := e
        cases msg with
        | install viewId coordinator victim plan => exact ⟨Option.some_ne_none _, kind⟩
        | _ => exact kind.elim
    · refine Or.inl ⟨y, fun member => ?_, installed⟩
      exact (Finset.mem_insert.mp member).elim (fun same => here (Fin.ext same)) yLive
  · exact Or.inr onWay

/-- **A step of one node** that may take one token out of flight: it has installed that token's view
or asks for it, and it asks for a view when it learns something new. -/
theorem act (serving : Serving st) {r : Fin n} (live : r.val ∉ st.crashed)
    (rest : List (Fin n × ViewChangeMsg cfg)) {vc : ViewChange} {actions : List (VcAction cfg)}
    (grows : (st.members.vc r).installedView ≤ vc.installedView)
    (passed : ∀ e ∈ st.members.inflight, e ∈ rest ∨ ∀ view, ExcludesFrom view e.2 →
      view ≤ vc.installedView ∨ ∃ out ∈ tokens actions, ExcludesFrom view out)
    (asks : plans actions = [] → vc.installedView = (st.members.vc r).installedView ∧
      (vc.dead = (st.members.vc r).dead ∨
        ∃ out ∈ tokens actions, ExcludesFrom (vc.installedView + 1) out))
    (spreading : ∀ view, Spreading n st.crashed
      (Holds (Members.act { st.members with inflight := rest } r (vc, actions))
        fun vc => view ≤ vc.installedView)
      (OnWay (Members.act { st.members with inflight := rest } r (vc, actions))
        (InstallsFrom view))) :
    Serving { st with
      members := Members.act { st.members with inflight := rest } r (vc, actions) } := by
  have other : ∀ q : Fin n, q ≠ r →
      (Members.act { st.members with inflight := rest } r (vc, actions)).vc q =
        st.members.vc q := fun q ne => Members.act_vc_of_ne _ r _ ne
  have sends : ∀ view, (∃ out ∈ tokens actions, ExcludesFrom view out) →
      Served { st with
        members := Members.act { st.members with inflight := rest } r (vc, actions) } view :=
    fun view ⟨out, isNew, kind⟩ =>
      Or.inr ⟨(r, out), List.mem_append_right _ (List.mem_map_of_mem isNew), kind⟩
  have here : ∀ view, view ≤ vc.installedView → Served { st with
      members := Members.act { st.members with inflight := rest } r (vc, actions) } view :=
    fun view le => Or.inl ⟨r, live, by rwa [Members.act_vc_self]⟩
  have keeps : ∀ view, Served st view → Served { st with
      members := Members.act { st.members with inflight := rest } r (vc, actions) } view := by
    rintro view (⟨y, yLive, installed⟩ | ⟨e, member, kind⟩)
    · by_cases same : y = r
      · exact here view ((same ▸ installed).trans grows)
      · exact Or.inl ⟨y, yLive, by rwa [other y same]⟩
    · rcases passed e member with still | moved
      · exact Or.inr ⟨e, List.mem_append_left _ still, kind⟩
      · exact (moved view kind).elim (here view) (sends view)
  refine ⟨spreading, fun q qLive waiting => ?_⟩
  by_cases same : q = r
  · subst same
    have updated : (Members.act { st.members with inflight := rest } q (vc, actions)).awaiting q =
        if (plans actions).isEmpty then
          st.members.awaiting q ∪ (vc.dead \ (st.members.vc q).dead) else ∅ :=
      Function.update_self ..
    rw [updated] at waiting
    rw [Members.act_vc_self]
    show Served _ (vc.installedView + 1)
    split_ifs at waiting with none
    · obtain ⟨unmoved, learned⟩ := asks (List.isEmpty_iff.mp none)
      rcases learned with nothing | asked
      · rw [nothing, Finset.sdiff_self, Finset.union_empty] at waiting
        rw [unmoved]
        exact keeps _ (serving.served q qLive waiting)
      · exact sends _ asked
    · exact absurd waiting Finset.not_nonempty_empty
  · rw [other q same]
    rw [Members.act_awaiting_of_ne _ r _ same] at waiting
    exact keeps _ (serving.served q qLive waiting)

/-- **A confirmation** asks for the next view. -/
theorem confirm (serving : Serving st) {p : Fin n} (live : p.val ∉ st.crashed) (victim : Nat)
    (report : RecoveryReport cfg) :
    Serving { st with members := st.members.confirm p victim report } := by
  unfold Members.confirm
  rcases (st.members.vc p).onConfirm_cases victim report with ⟨-, same⟩ | ⟨-, same⟩
  · rw [same, st.members.act_quiet p _ rfl]
    exact serving
  rw [same]
  refine serving.act live st.members.inflight le_rfl (fun e member => Or.inl member)
    (fun _ => ⟨rfl, Or.inr ⟨_, List.mem_singleton_self _, Option.some_ne_none _, le_rfl⟩⟩)
    fun view => spreading_act (serving.spreading view) id fun holds => Or.inl holds

/-- **A hop** moves a view on, installs it, or meets a node that has it. -/
theorem hop (serving : Serving st) {i : Nat} {s : Fin n} {msg : ViewChangeMsg cfg}
    (here : st.members.inflight[i]? = some (s, msg))
    (live : (st.successor s).val ∉ st.crashed) (report : RecoveryReport cfg) :
    Serving (st.hop i report) := by
  have handled := (st.members.vc (st.successor s)).handle_spec msg report
  have spread := fun view => spreading_hop here (serving.spreading view) report
  obtain ⟨rest, -, others, hop⟩ := CrashRing.hop_eq here report
  rw [hop] at spread ⊢
  generalize st.successor s = r at *
  generalize (st.members.vc r).handle msg report = result at *
  obtain ⟨vc, actions⟩ := result
  have grows : (st.members.vc r).installedView ≤ vc.installedView := by
    cases handled with
    | ignored _ => exact le_rfl
    | fenced _ => exact le_rfl
    | forwarded _ => exact le_rfl
    | completed fresh _ => exact fresh.le
    | installed fresh => exact fresh.le
  refine serving.act live rest grows (fun e member => ?_) (fun none => ?_) fun view =>
    spread view (fun le => le.trans grows) (fun le => ?_) fun kind => ?_
  · refine (others e member).symm.imp_right fun same view kind => ?_
    subst same
    cases handled with
    | ignored other => exact absurd other kind.1
    | fenced stale => exact Or.inl (kind.2.trans stale)
    | forwarded _ => exact Or.inr ⟨_, List.mem_singleton_self _, kind⟩
    | completed _ _ => exact Or.inl kind.2
    | installed _ => exact Or.inl kind.2
  · cases handled with
    | ignored _ => exact ⟨rfl, Or.inl rfl⟩
    | fenced _ => exact ⟨rfl, Or.inl rfl⟩
    | forwarded fresh =>
      exact ⟨rfl, Or.inr ⟨_, List.mem_singleton_self _, Option.some_ne_none _, fresh⟩⟩
    | completed _ _ => cases none
    | installed _ => cases none
  · cases handled with
    | ignored _ => exact Or.inl le
    | fenced _ => exact Or.inl le
    | forwarded _ => exact Or.inl le
    | completed _ _ => exact Or.inr ⟨_, List.mem_singleton_self _, le⟩
    | installed _ => exact Or.inr ⟨_, List.mem_singleton_self _, le⟩
  · cases handled with
    | ignored other =>
      cases msg with
      | install _ _ _ _ => cases other
      | _ => exact kind.elim
    | fenced stale =>
      cases msg with
      | install _ _ _ _ => exact le_trans kind stale
      | _ => exact kind.elim
    | forwarded _ => exact kind.elim
    | completed _ _ => exact kind.elim
    | installed _ => exact kind

end Serving

/-! ### Runs without lost news -/

/-- A token that is dropped tells its receiver nothing new. -/
def NoNewsDropped (st : CrashRing cfg n) : CrashAction cfg n → Prop
  | .hop i _ => ∀ e ∈ st.members.inflight[i]?,
      e.2.viewId ≤ (st.members.vc (st.successor e.1)).installedView →
        ∀ v ∈ e.2.victim, v ∈ (st.members.vc (st.successor e.1)).dead
  | _ => True

instance (st : CrashRing cfg n) (action : CrashAction cfg n) :
    Decidable (NoNewsDropped st action) := by
  cases action <;> unfold NoNewsDropped <;> infer_instance

instance (st : CrashRing cfg n) (action : CrashAction cfg n) :
    Decidable (((crashRing cfg n).restrict NoNewsDropped).legal st action) :=
  inferInstanceAs (Decidable (action.Legal st ∧ NoNewsDropped st action))

/-- The news of each victim gets around. -/
def Informing (st : CrashRing cfg n) : Prop :=
  ∀ v, Spreading n st.crashed (Holds st.members fun vc => v ∈ vc.dead)
    (OnWay st.members fun msg => msg.victim = some v)

namespace Informing

variable {st : CrashRing cfg n}

theorem confirm (informing : Informing st) (p : Fin n) (victim : Nat)
    (report : RecoveryReport cfg) :
    Informing { st with members := st.members.confirm p victim report } := by
  intro v
  unfold Members.confirm
  rcases (st.members.vc p).onConfirm_cases victim report with ⟨-, same⟩ | ⟨-, same⟩
  · rw [same, st.members.act_quiet p _ rfl]
    exact informing v
  rw [same]
  refine spreading_act (informing v) Finset.mem_insert_of_mem fun member => ?_
  refine (Finset.mem_insert.mp member).symm.imp_right fun news => ?_
  exact ⟨_, List.mem_singleton_self _, congrArg some news.symm⟩

theorem hop (informing : Informing st) {i : Nat} {s : Fin n} {msg : ViewChangeMsg cfg}
    (here : st.members.inflight[i]? = some (s, msg)) (report : RecoveryReport cfg)
    (known : msg.viewId ≤ (st.members.vc (st.successor s)).installedView →
      ∀ v ∈ msg.victim, v ∈ (st.members.vc (st.successor s)).dead) :
    Informing (st.hop i report) := by
  intro v
  have handled := (st.members.vc (st.successor s)).handle_spec msg report
  have spread := spreading_hop here (informing v) report
  have crashed : (st.hop i report).crashed = st.crashed := by
    obtain ⟨rest, -, -, hop⟩ := CrashRing.hop_eq here report
    rw [hop]
  rw [crashed]
  generalize st.successor s = r at *
  generalize (st.members.vc r).handle msg report = result at *
  obtain ⟨vc, actions⟩ := result
  refine spread (fun member => ?_) (fun member => ?_) fun news => ?_
  · cases handled with
    | ignored _ => exact member
    | fenced _ => exact member
    | forwarded _ => exact Finset.mem_insert_of_mem member
    | completed _ _ => exact Finset.mem_insert_of_mem member
    | installed _ => exact Finset.mem_insert_of_mem member
  · -- what the receiver learns is the victim of the token it sends on
    cases handled with
    | ignored _ => exact Or.inl member
    | fenced _ => exact Or.inl member
    | forwarded _ =>
      exact (Finset.mem_insert.mp member).symm.imp_right fun news =>
        ⟨_, List.mem_singleton_self _, congrArg some news.symm⟩
    | completed _ _ =>
      exact (Finset.mem_insert.mp member).symm.imp_right fun news =>
        ⟨_, List.mem_singleton_self _, congrArg some news.symm⟩
    | installed _ =>
      exact (Finset.mem_insert.mp member).symm.imp_right fun news =>
        ⟨_, List.mem_singleton_self _, congrArg some news.symm⟩
  · cases handled with
    | ignored other =>
      rw [other] at news
      cases news
    | fenced stale => exact known stale v news
    | forwarded _ =>
      obtain rfl := Option.some.inj news
      exact Finset.mem_insert_self _ _
    | completed _ _ =>
      obtain rfl := Option.some.inj news
      exact Finset.mem_insert_self _ _
    | installed _ =>
      obtain rfl := Option.some.inj news
      exact Finset.mem_insert_self _ _

end Informing

/-- Views get around in every run. -/
theorem Serving.step {st : CrashRing cfg n} (serving : Serving st) {action : CrashAction cfg n}
    (legal : action.Legal st) : Serving (action.apply st) := by
  cases action with
  | crash p => exact serving.crash legal
  | confirm p victim report => exact serving.confirm legal.1 victim report
  | hop i report =>
    obtain ⟨⟨s, msg⟩, here, live, -⟩ := legal
    exact serving.hop here live report

theorem informing_reachable {st : CrashRing cfg n}
    (reachable : ((crashRing cfg n).restrict NoNewsDropped).Reachable st) :
    Serving st ∧ Informing st := by
  refine Machine.invariant (m := (crashRing cfg n).restrict NoNewsDropped)
    (P := fun st => Serving st ∧ Informing st) ?_ ?_ reachable
  · rintro _ rfl
    exact ⟨Serving.initial cfg n, fun v x _ _ ⟨p, _, member⟩ => absurd member (Finset.notMem_empty v)⟩
  · rintro st action ⟨serving, informing⟩ ⟨legal, known⟩
    refine ⟨serving.step legal, ?_⟩
    cases action with
    | crash p => exact fun v => (informing v).crash p.isLt legal
    | confirm p victim report => exact informing.confirm p victim report
    | hop i report =>
      obtain ⟨⟨s, msg⟩, here, -⟩ := legal
      exact informing.hop here report (known _ here)

/-- **No membership change is lost** unless a dropped token carries news. That every live node has
installed a view since needs no condition. -/
theorem nothing_lost {st : CrashRing cfg n}
    (reachable : ((crashRing cfg n).restrict NoNewsDropped).Reachable st) : NothingLost st := by
  obtain ⟨serving, informing⟩ := informing_reachable reachable
  intro quiet p pLive v known q qLive
  have none : ∀ P s, ¬ OnWay st.members P s := by
    rintro P s ⟨e, member, -⟩
    rw [quiet] at member
    cases member
  refine ⟨?_, fun waiting => ?_⟩
  · obtain ⟨x, same, holds⟩ := (informing v).everyone (fun s _ => none _ s) q.isLt qLive p.isLt pLive
      ⟨p, rfl, known⟩
    exact Fin.ext same ▸ holds
  · rcases serving.served q qLive ⟨v, waiting⟩ with ⟨y, yLive, installed⟩ | ⟨e, member, -⟩
    · obtain ⟨x, same, holds⟩ := (serving.spreading _).everyone (fun s _ => none _ s) q.isLt qLive
        y.isLt yLive ⟨y, rfl, installed⟩
      obtain rfl := Fin.ext same
      exact absurd holds (Nat.not_succ_le_self _)
    · rw [quiet] at member
      cases member

/-- Node 3 crashes and nodes 0 and 2 both confirm it; the ring falls silent. -/
def silentRun : List (CrashAction .quad RingConfig.quad.ringSize) :=
  .crash 3 :: .confirm 0 3 (.blank _) :: .confirm 2 3 (.blank _) ::
    List.replicate 10 (.hop 0 (.blank _))

def silentState : CrashRing .quad RingConfig.quad.ringSize :=
  ((crashRing .quad RingConfig.quad.ringSize).restrict NoNewsDropped).run (.initial _ _) silentRun

theorem nothing_lost_silent :
    silentState.members.inflight.isEmpty = true ∧ 3 ∈ (silentState.members.vc 1).dead ∧
      NothingLost silentState := by
  have reachable : ((crashRing .quad _).restrict NoNewsDropped).Reachable silentState :=
    Machine.reachable_run rfl (by decide +kernel)
  exact ⟨by decide +kernel, by decide +kernel, nothing_lost reachable⟩

end TrainsRing
