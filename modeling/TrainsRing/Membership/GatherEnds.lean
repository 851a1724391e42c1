/-
**Every Gather ends that its coordinator can finish.**

A Gather goes around until its coordinator has a report of everyone it holds for alive, or until it
meets a node that has installed its view. The node that sends it first names the coordinator, and it
may not know of every crash: the coordinator may have crashed, or hold a crashed node for alive. Then
nothing stops the Gather.

* `CrashRing.Covers` — whom the coordinator waits for is live or has reported, or a live node has
  installed the view.
* `Followed` — one token followed through hops; `GathersEnd` — it is received `2 n` times at most.
* `covers_ends` — **a covered Gather ends**; `lone_gather_ends` — one that is alone ends only if covered.
* `every_gather_ends` — **runs that leave every Gather covered**; `gather_circles` — a run that does not.
-/

import TrainsRing.Library.Round
import TrainsRing.Membership.LostChange

namespace TrainsRing

variable {cfg : RingConfig} {n : Nat}

/-! ### One machine and one Gather -/

namespace ViewChange

/-- A machine later in its life: it forgets no crash and no view. -/
structure Later (vc vc' : ViewChange) : Prop where
  me : vc'.me = vc.me
  size : vc'.n = vc.n
  dead : vc.dead ⊆ vc'.dead
  installed : vc.installedView ≤ vc'.installedView

variable {vc vc' : ViewChange}

theorem Later.refl (vc : ViewChange) : vc.Later vc := ⟨rfl, rfl, Finset.Subset.refl _, le_rfl⟩

theorem later_learn (vc : ViewChange) (victim : Nat) : vc.Later (vc.learn victim) :=
  ⟨rfl, rfl, Finset.subset_insert _ _, le_rfl⟩

theorem Later.learn (later : vc.Later vc') (victim : Nat) :
    (vc.learn victim).Later (vc'.learn victim) :=
  ⟨later.me, later.size, Finset.insert_subset_insert _ later.dead, later.installed⟩

/-- Nobody comes back to life. -/
theorem Later.alive (later : vc.Later vc') {x : Nat} (member : x ∈ vc'.alive) : x ∈ vc.alive := by
  unfold ViewChange.alive at member ⊢
  rw [later.size, List.mem_filter, decide_eq_true_eq] at member
  exact List.mem_filter.mpr ⟨member.1, decide_eq_true fun dead => member.2 (later.dead dead)⟩

theorem Handled.later {msg : ViewChangeMsg cfg} {actions : List (VcAction cfg)}
    (handled : vc.Handled msg vc' actions) : vc.Later vc' := by
  cases handled with
  | ignored _ => exact .refl vc
  | fenced _ => exact .refl vc
  | forwarded _ => exact later_learn vc _
  | completed fresh _ => exact ⟨rfl, rfl, Finset.subset_insert _ _, fresh.le⟩
  | installed fresh => exact ⟨rfl, rfl, Finset.subset_insert _ _, fresh.le⟩

/-- Is a Gather among the tokens sent? -/
def sendsGather (actions : List (VcAction cfg)) : Bool :=
  (tokens actions).any fun
    | .gather .. => true
    | _ => false

/-- Nothing stops the Gather at this machine: it has not installed the view, and it is not the
coordinator with everyone's report. -/
structure Passes (vc : ViewChange) (viewId coordinator victim : Nat)
    (reports : List (Nat × RecoveryReport cfg)) : Prop where
  fresh : vc.installedView < viewId
  waits : vc.me = coordinator →
    ∃ x ∈ (vc.learn victim).alive, x ∉ reports.map Prod.fst ∧ x ≠ vc.me

/-- **A machine passes a Gather on** with its report, or sends no Gather. -/
theorem handle_gather (vc : ViewChange) (viewId coordinator victim : Nat)
    (reports : List (Nat × RecoveryReport cfg)) (report : RecoveryReport cfg) :
    (vc.Passes viewId coordinator victim reports ∧
      vc.handle (.gather viewId coordinator victim reports) report = (vc.learn victim,
        [.send (.gather viewId coordinator victim (addReport reports vc.me report))])) ∨
    (¬ vc.Passes viewId coordinator victim reports ∧
      sendsGather (vc.handle (.gather viewId coordinator victim reports) report).2 = false) := by
  have full := vc.reported_addReport victim reports report
  simp only [handle, onGather]
  split_ifs with stale home complete
  · exact Or.inr ⟨fun passes => absurd passes.fresh (not_lt.mpr stale), rfl⟩
  · refine Or.inr ⟨fun passes => ?_, rfl⟩
    obtain ⟨x, member, unreported, other⟩ := passes.waits home
    exact (full.mp complete x member).elim unreported other
  · refine Or.inl ⟨⟨not_le.mp stale, fun _ => ?_⟩, rfl⟩
    by_contra none
    push Not at none
    exact complete (full.mpr fun x member => or_iff_not_imp_left.mpr (none x member))
  · exact Or.inl ⟨⟨not_le.mp stale, fun same => absurd same home⟩, rfl⟩

end ViewChange

/-! ### The ring -/

namespace CrashRing

/-- Each machine is its node's own, of a ring of `n`. -/
structure Seated (st : CrashRing cfg n) : Prop where
  me : ∀ p, (st.members.vc p).me = p.val
  size : ∀ p, (st.members.vc p).n = n

/-- A state reached without a crash. -/
structure Later (st st' : CrashRing cfg n) : Prop where
  crashed : st'.crashed = st.crashed
  machines : ∀ p, (st.members.vc p).Later (st'.members.vc p)

variable {st st' : CrashRing cfg n}

theorem Seated.later (seated : st.Seated) (later : st.Later st') : st'.Seated :=
  ⟨fun p => (later.machines p).me.trans (seated.me p),
    fun p => (later.machines p).size.trans (seated.size p)⟩

/-- Whoever a node holds for alive has a place on the ring. -/
theorem Seated.inside (seated : st.Seated) {p : Fin n} {victim x : Nat}
    (member : x ∈ ((st.members.vc p).learn victim).alive) : x < n := by
  have bound := List.mem_range.mp (List.mem_filter.mp member).1
  rw [show ((st.members.vc p).learn victim).n = n from seated.size p] at bound
  exact bound.trans_le (Nat.mod_le n 256)

/-- **One node acts.** -/
theorem later_act (rest : List (Fin n × ViewChangeMsg cfg)) {r : Fin n}
    {result : ViewChange × List (VcAction cfg)} (later : (st.members.vc r).Later result.1) :
    st.Later { st with members := Members.act { st.members with inflight := rest } r result } := by
  refine ⟨rfl, fun p => ?_⟩
  by_cases here : p = r
  · rw [here, Members.act_vc_self]
    exact later
  · rw [Members.act_vc_of_ne _ r _ here]
    exact .refl _

theorem later_confirm (st : CrashRing cfg n) (p : Fin n) (victim : Nat) (report : RecoveryReport cfg) :
    st.Later { st with members := st.members.confirm p victim report } := by
  refine later_act st.members.inflight ?_
  rcases (st.members.vc p).onConfirm_cases victim report with ⟨-, same⟩ | ⟨-, same⟩
  · rw [same]
    exact .refl _
  · rw [same]
    exact ViewChange.later_learn _ _

/-- **One hop**, by the place of its token. -/
theorem hop_act {i : Nat} {s : Fin n} {msg : ViewChangeMsg cfg}
    (here : st.members.inflight[i]? = some (s, msg)) (report : RecoveryReport cfg) :
    st.hop i report = { st with
      members := Members.act { st.members with inflight := st.members.inflight.eraseIdx i }
        (st.successor s) ((st.members.vc (st.successor s)).handle msg report) } := by
  unfold hop Members.take
  rw [here]

theorem later_hop (i : Nat) (report : RecoveryReport cfg) : st.Later (st.hop i report) := by
  cases here : st.members.inflight[i]? with
  | none =>
    unfold hop
    rw [here]
    exact ⟨rfl, fun p => .refl _⟩
  | some e =>
    rw [hop_act here report]
    exact later_act _ ((st.members.vc _).handle_spec e.2 report).later

/-- Whom its coordinator waits for is live or has reported, or a live node has installed its view. -/
def Covers (st : CrashRing cfg n) : ViewChangeMsg cfg → Prop
  | .gather viewId coordinator victim reports =>
    (∃ x : Fin n, x.val ∉ st.crashed ∧ viewId ≤ (st.members.vc x).installedView) ∨
      ∃ c : Fin n, c.val = coordinator ∧ c.val ∉ st.crashed ∧
        ∀ x ∈ ((st.members.vc c).learn victim).alive, x ∉ st.crashed ∨ x ∈ reports.map Prod.fst
  | _ => True

instance (st : CrashRing cfg n) (msg : ViewChangeMsg cfg) : Decidable (st.Covers msg) := by
  cases msg <;> unfold Covers <;> infer_instance

/-- A Gather stays covered, with more reports. -/
theorem Covers.later (later : st.Later st') {viewId coordinator victim : Nat}
    {reports more : List (Nat × RecoveryReport cfg)}
    (covers : st.Covers (.gather viewId coordinator victim reports))
    (grows : ∀ x ∈ reports.map Prod.fst, x ∈ more.map Prod.fst) :
    st'.Covers (.gather viewId coordinator victim more) := by
  unfold Covers at covers ⊢
  rw [later.crashed]
  refine covers.imp (fun ⟨x, live, installed⟩ =>
    ⟨x, live, installed.trans (later.machines x).installed⟩) fun ⟨c, home, live, known⟩ =>
      ⟨c, home, live, fun x member => ?_⟩
  exact (known x (((later.machines c).learn victim).alive member)).imp_right (grows x)

end CrashRing

/-! ### Following a token -/

/-- A token followed through hops. -/
structure Followed (cfg : RingConfig) (n : Nat) where
  ring : CrashRing cfg n
  /-- Its place in flight, until it is dropped or turned into an Install. -/
  place : Option Nat
  receipts : Nat

/-- Does the receiver of the `i`-th token send a Gather on? -/
def CrashRing.sendsOn (st : CrashRing cfg n) (i : Nat) (report : RecoveryReport cfg) : Bool :=
  match st.members.inflight[i]? with
  | none => false
  | some (s, msg) =>
    ViewChange.sendsGather ((st.members.vc (st.successor s)).handle msg report).2

/-- The `i`-th token is received. What its receiver sends is the last token in flight. -/
def Followed.hop (f : Followed cfg n) (i : Nat) (report : RecoveryReport cfg) : Followed cfg n where
  ring := f.ring.hop i report
  place := f.place.bind fun k =>
    if i < k then some (k - 1)
    else if k < i then some k
    else if f.ring.sendsOn i report then some (f.ring.members.inflight.length - 1) else none
  receipts := if f.place = some i then f.receipts + 1 else f.receipts

/-- The hops from a state on, with its `i`-th token followed. -/
def follows (st : CrashRing cfg n) (i : Nat) : Machine (Followed cfg n) (Nat × RecoveryReport cfg) where
  start := fun f => f = ⟨st, some i, 0⟩
  legal := fun f hop => (CrashAction.hop hop.1 hop.2).Legal f.ring
  next := fun f hop => f.hop hop.1 hop.2

/-- The `i`-th token is dropped or turned into an Install after `m` receipts at most. -/
def CrashRing.EndsWithin (st : CrashRing cfg n) (i m : Nat) : Prop :=
  ∀ f, (follows st i).Reachable f → ∀ k ∈ f.place, f.receipts < m

/-- Every Gather in flight is received `2 n` times at most. -/
def GathersEnd (st : CrashRing cfg n) : Prop :=
  ∀ i s viewId coordinator victim reports,
    st.members.inflight[i]? = some (s, .gather viewId coordinator victim reports) →
      st.EndsWithin i (2 * n)

/-! ### A covered Gather -/

/-- The token sent by `s`, `d` steps from its origin, has met all live nodes on its way and is stopped
by the node at step `a`: one that has installed its view, or, after a full turn, its coordinator. -/
structure Walks (st : CrashRing cfg n) (origin : Nat) (s : Fin n) (viewId coordinator victim : Nat)
    (reports : List (Nat × RecoveryReport cfg)) (d a : Nat) : Prop where
  inside : origin < n
  place : s.val = (origin + d) % n
  near : d < a
  met : ∀ m, 1 ≤ m → m ≤ d → (origin + m) % n ∉ st.crashed →
    (origin + m) % n ∈ reports.map Prod.fst
  halts : ∃ x : Fin n, x.val = (origin + a) % n ∧ x.val ∉ st.crashed ∧
    (viewId ≤ (st.members.vc x).installedView ∨ n < a ∧ x.val = coordinator ∧
      ∀ y ∈ ((st.members.vc x).learn victim).alive, y ∉ st.crashed ∨ y ∈ reports.map Prod.fst)

namespace Walks

variable {st st' : CrashRing cfg n} {origin viewId coordinator victim d a : Nat} {s : Fin n}
  {reports more : List (Nat × RecoveryReport cfg)}

/-- A covered Gather sets out. -/
theorem start (covers : st.Covers (.gather viewId coordinator victim reports)) :
    ∃ a, a ≤ 2 * n ∧ Walks st s s viewId coordinator victim reports 0 a := by
  have none : ∀ m, 1 ≤ m → m ≤ 0 → (s.val + m) % n ∉ st.crashed →
      (s.val + m) % n ∈ reports.map Prod.fst := fun m positive zero => by omega
  rcases covers with ⟨x, live, installed⟩ | ⟨c, home, live, known⟩
  · obtain ⟨positive, turn, -⟩ := ahead_le s.isLt x.isLt
    refine ⟨ahead n s x, by omega, s.isLt, (Nat.mod_eq_of_lt s.isLt).symm, by omega, none,
      x, (add_ahead_mod s.isLt x.isLt).symm, live, Or.inl installed⟩
  · obtain ⟨positive, turn, -⟩ := ahead_le s.isLt c.isLt
    refine ⟨ahead n s c + n, by omega, s.isLt, (Nat.mod_eq_of_lt s.isLt).symm, by omega, none,
      c, ?_, live, Or.inr ⟨by omega, home, known⟩⟩
    rw [← Nat.add_assoc, Nat.add_mod_right, add_ahead_mod s.isLt c.isLt]

theorem later (walks : Walks st origin s viewId coordinator victim reports d a)
    (later : st.Later st') : Walks st' origin s viewId coordinator victim reports d a := by
  obtain ⟨x, place, live, stops⟩ := walks.halts
  refine ⟨walks.inside, walks.place, walks.near, ?_, x, place, ?_, ?_⟩
  · rw [later.crashed]
    exact walks.met
  · rw [later.crashed]
    exact live
  · rw [later.crashed]
    refine stops.imp (fun installed => installed.trans (later.machines x).installed)
      fun ⟨turn, home, known⟩ => ⟨turn, home, fun y member => ?_⟩
    exact known y (((later.machines x).learn victim).alive member)

/-- **One hop further**: the node it is stopped by lets no Gather pass. -/
theorem hop (walks : Walks st origin s viewId coordinator victim reports d a) (seated : st.Seated)
    (passes : (st.members.vc (st.successor s)).Passes viewId coordinator victim reports)
    (report : RecoveryReport cfg) : ∃ e, d < e ∧ Walks st origin (st.successor s) viewId coordinator
      victim (ViewChange.addReport reports (st.members.vc (st.successor s)).me report) e a := by
  obtain ⟨e, further, next, only⟩ := nextAlive_walk st.crashed d walks.inside
  rw [← walks.place] at next
  have me := seated.me (st.successor s)
  have receiver : (st.successor s).val = (origin + e) % n := next
  obtain ⟨x, place, live, stops⟩ := walks.halts
  have near : e < a := by
    by_contra reached
    have same : x = st.successor s := Fin.ext (by
      rw [place, receiver]
      exact only a walks.near (not_lt.mp reached) (place ▸ live))
    subst same
    rcases stops with installed | ⟨turn, home, known⟩
    · exact absurd passes.fresh (not_lt.mpr installed)
    · -- everyone it waits for was met before, or is the receiver
      obtain ⟨y, member, unreported, other⟩ := passes.waits (me.trans home)
      have inside := seated.inside member
      have live := (known y member).resolve_right unreported
      obtain ⟨positive, short, -⟩ := ahead_le walks.inside inside
      have back := add_ahead_mod walks.inside inside
      by_cases met : ahead n origin y ≤ d
      · refine unreported ?_
        rw [← back]
        exact walks.met _ positive met (by rwa [back])
      · refine other ?_
        rw [me, receiver, ← only _ (not_le.mp met) (by omega) (by rwa [back]), back]
  refine ⟨e, further, walks.inside, receiver, near, fun m positive reached use => ?_,
    x, place, live, stops.imp_right fun ⟨turn, home, known⟩ => ⟨turn, home, fun y member => ?_⟩⟩
  · rw [ViewChange.mem_addReport, me]
    by_cases met : m ≤ d
    · exact Or.inl (walks.met m positive met use)
    · exact Or.inr ((only m (not_le.mp met) reached use).trans receiver.symm)
  · exact (known y member).imp_right fun old => (ViewChange.mem_addReport ..).mpr (Or.inl old)

end Walks

/-- The tokens in flight after a hop. -/
theorem CrashRing.hop_inflight {st : CrashRing cfg n} {i : Nat} {s : Fin n} {msg : ViewChangeMsg cfg}
    (here : st.members.inflight[i]? = some (s, msg)) (report : RecoveryReport cfg) :
    (st.hop i report).members.inflight = st.members.inflight.eraseIdx i ++
      (tokens ((st.members.vc (st.successor s)).handle msg report).2).map fun out =>
        (st.successor s, out) := by
  rw [hop_act here]
  rfl

/-- Another token keeps its place, or moves up one. -/
theorem CrashRing.hop_other {st : CrashRing cfg n} {i k : Nat} {e : Fin n × ViewChangeMsg cfg}
    (there : st.members.inflight[k]? = some e) (other : i ≠ k) (report : RecoveryReport cfg) :
    (st.hop i report).members.inflight[if i < k then k - 1 else k]? = some e := by
  cases here : st.members.inflight[i]? with
  | none =>
    -- nothing is received, and the token followed is before the end
    have past : st.members.inflight.length ≤ i := List.getElem?_eq_none_iff.mp here
    obtain ⟨before, -⟩ := List.getElem?_eq_some_iff.mp there
    unfold hop
    rw [here, if_neg (by omega)]
    exact there
  | some first =>
    have kept : (st.members.inflight.eraseIdx i)[if i < k then k - 1 else k]? = some e := by
      rw [List.getElem?_eraseIdx]
      split_ifs with up low low
      · omega
      · rw [Nat.sub_add_cancel (by omega)]
        exact there
      · exact there
      · omega
    obtain ⟨inside, -⟩ := List.getElem?_eq_some_iff.mp kept
    rw [hop_inflight here, List.getElem?_append_left inside]
    exact kept

/-- The token followed is on its walk. -/
structure Carried (origin viewId coordinator victim a : Nat) (f : Followed cfg n) : Prop where
  seated : f.ring.Seated
  flying : ∀ k ∈ f.place, ∃ s reports d,
    f.ring.members.inflight[k]? = some (s, .gather viewId coordinator victim reports) ∧
      f.receipts ≤ d ∧ Walks f.ring origin s viewId coordinator victim reports d a

/-- **Every hop carries it on**, or it is gone. -/
theorem Carried.hop {origin viewId coordinator victim a : Nat} {f : Followed cfg n}
    (carried : Carried origin viewId coordinator victim a f) (i : Nat) (report : RecoveryReport cfg) :
    Carried origin viewId coordinator victim a (f.hop i report) := by
  have later : f.ring.Later (f.ring.hop i report) := CrashRing.later_hop i report
  refine ⟨carried.seated.later later, fun k' member => ?_⟩
  obtain ⟨k, found, next⟩ := Option.bind_eq_some_iff.mp member
  obtain ⟨s, reports, d, here, few, walks⟩ := carried.flying k found
  by_cases self : i = k
  · subst self
    have counted : (f.hop i report).receipts = f.receipts + 1 := if_pos found
    simp only [lt_irrefl, if_false, CrashRing.sendsOn, here] at next
    rcases (f.ring.members.vc (f.ring.successor s)).handle_gather viewId coordinator victim reports
      report with ⟨passes, sends⟩ | ⟨-, stopped⟩
    · obtain ⟨e, further, walks⟩ := walks.hop carried.seated passes report
      refine ⟨_, _, e, ?_, by omega, walks.later later⟩
      obtain ⟨inside, -⟩ := List.getElem?_eq_some_iff.mp here
      rw [sends] at next
      obtain rfl : f.ring.members.inflight.length - 1 = k' := Option.some.inj next
      show (f.ring.hop i report).members.inflight[_]? = _
      rw [CrashRing.hop_inflight here, sends, List.getElem?_append_right (by
        rw [List.length_eraseIdx_of_lt inside]), List.length_eraseIdx_of_lt inside, Nat.sub_self]
      rfl
    · rw [stopped] at next
      cases next
  · have counted : (f.hop i report).receipts = f.receipts :=
      if_neg fun same => self (Option.some.inj (same.symm.trans found))
    refine ⟨s, reports, d, ?_, counted.trans_le few, walks.later later⟩
    have moved : (if i < k then k - 1 else k) = k' := by
      split_ifs at next ⊢ with up low
      · exact Option.some.inj next
      · exact Option.some.inj next
      · omega
    exact moved ▸ CrashRing.hop_other here self report

/-- **A covered Gather ends.** -/
theorem covers_ends {st : CrashRing cfg n} (seated : st.Seated) {i : Nat} {s : Fin n}
    {viewId coordinator victim : Nat} {reports : List (Nat × RecoveryReport cfg)}
    (here : st.members.inflight[i]? = some (s, .gather viewId coordinator victim reports))
    (covers : st.Covers (.gather viewId coordinator victim reports)) : st.EndsWithin i (2 * n) := by
  obtain ⟨a, bound, walks⟩ := Walks.start (s := s) covers
  intro f reachable k found
  have carried : Carried s viewId coordinator victim a f := by
    refine Machine.invariant (m := follows st i) (P := Carried s viewId coordinator victim a) ?_ ?_
      reachable
    · rintro _ rfl
      exact ⟨seated, fun k same => ⟨s, reports, 0, Option.some.inj same ▸ here, le_rfl, walks⟩⟩
    · exact fun f hop before _ => before.hop hop.1 hop.2
  obtain ⟨_, _, d, -, few, further⟩ := carried.flying k found
  exact (few.trans_lt further.near).trans_le bound

/-! ### A Gather that is not covered -/

/-- The only token in flight is a Gather that nothing will stop. -/
structure Circling (viewId coordinator victim : Nat) (f : Followed cfg n) : Prop where
  seated : f.ring.Seated
  somebody : ∃ p : Fin n, p.val ∉ f.ring.crashed
  followed : f.place = some 0
  uncovered : ∃ s reports, f.ring.members.inflight = [(s, .gather viewId coordinator victim reports)] ∧
    ¬ f.ring.Covers (.gather viewId coordinator victim reports)

/-- **It goes on** for ever. -/
theorem Circling.hop {viewId coordinator victim : Nat} {f : Followed cfg n}
    (circling : Circling viewId coordinator victim f) (report : RecoveryReport cfg) :
    (CrashAction.hop 0 report).Legal f.ring ∧ Circling viewId coordinator victim (f.hop 0 report) ∧
      (f.hop 0 report).receipts = f.receipts + 1 := by
  obtain ⟨s, reports, lone, uncovered⟩ := circling.uncovered
  obtain ⟨p, live⟩ := circling.somebody
  have here : f.ring.members.inflight[0]? = some (s, .gather viewId coordinator victim reports) := by
    rw [lone]
    rfl
  have receiver : (f.ring.successor s).val ∉ f.ring.crashed := nextAlive_not_mem s.isLt p.isLt live
  have later : f.ring.Later (f.ring.hop 0 report) := CrashRing.later_hop 0 report
  have me := circling.seated.me (f.ring.successor s)
  have passes : (f.ring.members.vc (f.ring.successor s)).Passes viewId coordinator victim reports := by
    refine ⟨not_le.mp fun installed => uncovered (Or.inl ⟨_, receiver, installed⟩), fun home => ?_⟩
    by_contra none
    push Not at none
    refine uncovered (Or.inr ⟨_, me.symm.trans home, receiver, fun x member => ?_⟩)
    rcases or_iff_not_imp_left.mpr (none x member) with known | own
    · exact Or.inr known
    · exact Or.inl (own.trans me ▸ receiver)
  obtain ⟨-, sends⟩ := ((f.ring.members.vc (f.ring.successor s)).handle_gather viewId coordinator victim
    reports report).resolve_right fun stopped => stopped.1 passes
  have machines : ∀ x, ((f.hop 0 report).ring.members.vc x).learn victim =
      (f.ring.members.vc x).learn victim ∧ ((f.hop 0 report).ring.members.vc x).installedView =
        (f.ring.members.vc x).installedView := fun x => by
    show ((f.ring.hop 0 report).members.vc x).learn victim = _ ∧
      ((f.ring.hop 0 report).members.vc x).installedView = _
    rw [CrashRing.hop_act here, sends]
    by_cases own : x = f.ring.successor s
    · rw [own, Members.act_vc_self]
      exact ⟨congrArg (ViewChange.mk _ _ _) (Finset.insert_idem ..), rfl⟩
    · rw [Members.act_vc_of_ne _ _ _ own]
      exact ⟨rfl, rfl⟩
  refine ⟨⟨_, here, receiver, fun j low => absurd low (Nat.not_lt_zero j)⟩,
    ⟨circling.seated.later later, ⟨p, later.crashed.symm ▸ live⟩, ?_, f.ring.successor s,
      ViewChange.addReport reports (f.ring.members.vc (f.ring.successor s)).me report, ?_,
      fun covers => uncovered ?_⟩, if_pos circling.followed⟩
  · show f.place.bind _ = some 0
    rw [circling.followed]
    simp [CrashRing.sendsOn, sends, lone, ViewChange.sendsGather, tokens]
  · show (f.ring.hop 0 report).members.inflight = _
    rw [CrashRing.hop_inflight here, sends, lone]
    rfl
  · have crashed : (f.hop 0 report).ring.crashed = f.ring.crashed := later.crashed
    unfold CrashRing.Covers at covers ⊢
    rw [crashed] at covers
    rcases covers with ⟨x, live, installed⟩ | ⟨c, home, live, known⟩
    · exact Or.inl ⟨x, live, installed.trans (machines x).2.le⟩
    · refine Or.inr ⟨c, home, live, fun x member => ?_⟩
      rcases known x ((machines c).1.symm ▸ member) with alive | reported
      · exact Or.inl alive
      · rcases (ViewChange.mem_addReport ..).mp reported with old | own
        · exact Or.inr old
        · exact Or.inl (own.trans me ▸ receiver)

/-- **A Gather alone in flight ends exactly when it is covered.** -/
theorem lone_gather_ends {st : CrashRing cfg n} (seated : st.Seated)
    (somebody : ∃ p : Fin n, p.val ∉ st.crashed) (lone : st.members.inflight.length ≤ 1) :
    GathersEnd st ↔ ∀ e ∈ st.members.inflight, st.Covers e.2 := by
  refine ⟨fun ends e member => ?_, fun covers i s viewId coordinator victim reports here =>
    covers_ends seated here (covers _ (List.mem_of_getElem? here))⟩
  have shape : st.members.inflight = [e] := by
    obtain ⟨first, rest⟩ := List.length_eq_one_iff.mp
      (le_antisymm lone (List.length_pos_of_mem member))
    rw [rest] at member ⊢
    rw [List.mem_singleton.mp member]
  obtain ⟨s, msg⟩ := e
  cases msg with
  | gather viewId coordinator victim reports =>
    by_contra uncovered
    have circles : ∀ k, ∃ f, (follows st 0).Reachable f ∧ Circling viewId coordinator victim f ∧
        f.receipts = k := fun k => by
      induction k with
      | zero => exact ⟨_, Machine.Reachable.start rfl, ⟨seated, somebody, rfl, s, reports, shape,
          uncovered⟩, rfl⟩
      | succ k ih =>
        obtain ⟨f, reachable, circling, count⟩ := ih
        obtain ⟨legal, onward, more⟩ := circling.hop (.blank cfg)
        exact ⟨_, reachable.take (a := (0, .blank cfg)) legal, onward, more.trans (congrArg _ count)⟩
    obtain ⟨f, reachable, circling, count⟩ := circles (2 * n)
    have few := ends 0 s viewId coordinator victim reports (by rw [shape]; rfl) f reachable 0
      circling.followed
    exact absurd count few.ne
  | _ => exact trivial

/-! ### Runs that leave every Gather covered -/

/-- A confirmation sends a covered Gather, and a crash leaves those in flight covered. -/
def LeavesCovered (st : CrashRing cfg n) : CrashAction cfg n → Prop
  | .crash p => ∀ e ∈ st.members.inflight,
      CrashRing.Covers { st with crashed := insert p.val st.crashed } e.2
  | .confirm p victim report => victim.val ∈ (st.members.vc p).dead ∨
      st.Covers (.gather ((st.members.vc p).installedView + 1)
        ((st.members.vc p).learn victim).coordinator victim [((st.members.vc p).me, report)])
  | .hop _ _ => True

instance (st : CrashRing cfg n) : (action : CrashAction cfg n) → Decidable (LeavesCovered st action)
  | .crash p => inferInstanceAs (Decidable (∀ e ∈ st.members.inflight,
      CrashRing.Covers { st with crashed := insert p.val st.crashed } e.2))
  | .confirm p victim report => inferInstanceAs (Decidable (victim.val ∈ (st.members.vc p).dead ∨
      st.Covers (.gather ((st.members.vc p).installedView + 1)
        ((st.members.vc p).learn victim).coordinator victim [((st.members.vc p).me, report)])))
  | .hop _ _ => instDecidableTrue

instance (st : CrashRing cfg n) (action : CrashAction cfg n) :
    Decidable (((crashRing cfg n).restrict LeavesCovered).legal st action) :=
  inferInstanceAs (Decidable (action.Legal st ∧ LeavesCovered st action))

namespace CrashRing

variable {st st' : CrashRing cfg n}

theorem seated_reachable (reachable : (crashRing cfg n).Reachable st) : st.Seated := by
  refine Machine.invariant (m := crashRing cfg n) (P := Seated) ?_ ?_ reachable
  · rintro _ rfl
    exact ⟨fun p => rfl, fun p => rfl⟩
  · intro st action seated _
    cases action with
    | crash p => exact ⟨seated.me, seated.size⟩
    | confirm p victim report => exact seated.later (later_confirm _ p victim report)
    | hop i report => exact seated.later (later_hop i report)

theorem Covers.keep {msg : ViewChangeMsg cfg} (later : st.Later st') (covers : st.Covers msg) :
    st'.Covers msg := by
  cases msg with
  | gather viewId coordinator victim reports => exact covers.later later fun _ member => member
  | _ => trivial

/-- What a node sends on a covered token is covered. -/
theorem Covers.sent {msg out : ViewChangeMsg cfg} {r : Fin n} {report : RecoveryReport cfg}
    (later : st.Later st') (covers : st.Covers msg)
    (member : out ∈ tokens ((st.members.vc r).handle msg report).2) : st'.Covers out := by
  have handled := (st.members.vc r).handle_spec msg report
  cases msg with
  | gather viewId coordinator victim reports =>
    rcases (st.members.vc r).handle_gather viewId coordinator victim reports report with
      ⟨-, sends⟩ | ⟨-, stopped⟩
    · rw [sends] at member
      rw [List.mem_singleton.mp member]
      exact covers.later later fun x old => (ViewChange.mem_addReport ..).mpr (Or.inl old)
    · cases out with
      | gather _ _ _ _ =>
        have sends : ViewChange.sendsGather ((st.members.vc r).handle
            (.gather viewId coordinator victim reports) report).2 = true :=
          List.any_eq_true.mpr ⟨_, member, rfl⟩
        rw [stopped] at sends
        cases sends
      | _ => trivial
  | install viewId coordinator victim plan =>
    generalize (st.members.vc r).handle _ report = result at handled member
    obtain ⟨vc, actions⟩ := result
    cases handled with
    | ignored _ => cases member
    | fenced _ => cases member
    | installed _ =>
      rw [List.mem_singleton.mp member]
      trivial
  | reAdmitGather _ _ _ _ => cases member
  | reAdmitInstall _ _ _ _ _ => cases member

/-- **Every step leaves every Gather covered.** -/
theorem covered_step {action : CrashAction cfg n} (covered : ∀ e ∈ st.members.inflight, st.Covers e.2)
    (leaves : LeavesCovered st action) :
    ∀ e ∈ (action.apply st).members.inflight, (action.apply st).Covers e.2 := by
  cases action with
  | crash p => exact leaves
  | confirm p victim report =>
    intro e member
    have later := later_confirm st p victim report
    have sent : e ∈ st.members.inflight ++
        (tokens ((st.members.vc p).onConfirm victim report).2).map fun msg => (p, msg) := member
    rcases List.mem_append.mp sent with old | new
    · exact (covered e old).keep later
    · obtain ⟨out, isSent, rfl⟩ := List.mem_map.mp new
      rcases (st.members.vc p).onConfirm_cases victim report with ⟨-, same⟩ | ⟨unknown, same⟩
      · rw [same] at isSent
        cases isSent
      · rw [same] at isSent
        rw [List.mem_singleton.mp isSent]
        exact (leaves.resolve_left unknown).keep later
  | hop i report =>
    intro e member
    have later : st.Later (st.hop i report) := later_hop i report
    have flying : e ∈ (st.hop i report).members.inflight := member
    cases here : st.members.inflight[i]? with
    | none =>
      unfold hop at flying
      rw [here] at flying
      exact (covered e flying).keep later
    | some first =>
      rw [hop_inflight here] at flying
      rcases List.mem_append.mp flying with old | new
      · exact (covered e (List.mem_of_mem_eraseIdx old)).keep later
      · obtain ⟨out, isSent, rfl⟩ := List.mem_map.mp new
        exact (covered _ (List.mem_of_getElem? here)).sent later isSent

theorem covered_reachable (reachable : ((crashRing cfg n).restrict LeavesCovered).Reachable st) :
    ∀ e ∈ st.members.inflight, st.Covers e.2 := by
  refine Machine.invariant (m := (crashRing cfg n).restrict LeavesCovered)
    (P := fun st => ∀ e ∈ st.members.inflight, st.Covers e.2) ?_ ?_ reachable
  · rintro _ rfl
    exact fun e member => absurd member List.not_mem_nil
  · exact fun st action covered legal => covered_step covered legal.2

end CrashRing

/-- **Every Gather ends** in a run that leaves every Gather covered; and one alone in flight ends only
if it is covered. -/
theorem every_gather_ends (cfg : RingConfig) (n : Nat) :
    (∀ st, ((crashRing cfg n).restrict LeavesCovered).Reachable st → GathersEnd st) ∧
      ∀ st, (crashRing cfg n).Reachable st → (∃ p : Fin n, p.val ∉ st.crashed) →
        st.members.inflight.length ≤ 1 →
          (GathersEnd st ↔ ∀ e ∈ st.members.inflight, st.Covers e.2) :=
  ⟨fun _ reachable _ _ _ _ _ _ here =>
    covers_ends (CrashRing.seated_reachable reachable.of_restrict) here
      (CrashRing.covered_reachable reachable _ (List.mem_of_getElem? here)),
    fun _ reachable somebody lone =>
      lone_gather_ends (CrashRing.seated_reachable reachable) somebody lone⟩

/-- Node 3 crashes, node 0 confirms it, and its Gather is with node 1. -/
def gatheringState : CrashRing .quad RingConfig.quad.ringSize :=
  ((crashRing .quad RingConfig.quad.ringSize).restrict LeavesCovered).run (.initial _ _)
    [.crash 3, .confirm 0 3 (.blank _), .hop 0 (.blank _)]

theorem every_gather_ends_quad :
    gatheringState.members.inflight.length = 1 ∧ GathersEnd gatheringState :=
  ⟨by decide +kernel, (every_gather_ends .quad _).1 _ (Machine.reachable_run rfl (by decide +kernel))⟩

/-- Nodes 0 and 2 crash, and node 3, which knows of node 2 only, makes node 0 the coordinator. -/
def circlingState : CrashRing .quad RingConfig.quad.ringSize :=
  (crashRing .quad RingConfig.quad.ringSize).run (.initial _ _)
    [.crash 0, .crash 2, .confirm 3 2 (.blank _)]

/-- **A Gather that goes around for ever.** -/
theorem gather_circles : ¬ ∀ (cfg : RingConfig) (n : Nat) (st : CrashRing cfg n),
    (crashRing cfg n).Reachable st → (∃ p : Fin n, p.val ∉ st.crashed) → GathersEnd st := by
  intro holds
  have reachable : (crashRing .quad _).Reachable circlingState :=
    Machine.reachable_run rfl (by decide +kernel)
  have live : ∃ p : Fin RingConfig.quad.ringSize, p.val ∉ circlingState.crashed :=
    ⟨1, by decide +kernel⟩
  have covered := (lone_gather_ends (CrashRing.seated_reachable reachable) live
    (by decide +kernel)).mp (holds .quad _ circlingState reachable live)
  exact absurd covered (by decide +kernel)

end TrainsRing
