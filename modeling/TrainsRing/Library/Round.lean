/-
**Rounds on a cycle: gather, merge at home, install.**

Members stand on a cycle with holes. A gather token walks around and collects one report of every
member it meets; at home, and only there, a complete collection is merged into a plan. The plan then
walks around once, and every member installs it. A member that has installed drops every further
token. Any member may start a gather at any time until it has installed, so several gathers with
different collections race with each other and with the plan.

* `Round.Sound` — the invariant: what a gather has collected is the arc from where it started to
  where it is, and the members that have installed are the arc from home to the plan.
* `Round.one_plan` — **all members install the same plan**, made of exactly one report of each.
* `Round.hops_le` — **the round ends**: every start pays for a bounded number of hops.
* `Round.everyone` — **with no token left everybody has installed.**
-/

import TrainsRing.Library.Cycle
import TrainsRing.Library.Machine

namespace TrainsRing

variable {ρ π : Type}

/-! ### The round -/

/-- The cycle, its holes, where plans are made, and how. -/
structure RoundSetup (ρ π : Type) where
  n : Nat
  dead : Finset Nat
  home : Nat
  merge : List (Nat × ρ) → π
  inside : home < n
  use : home ∉ dead

/-- What travels. -/
inductive RoundToken (ρ π : Type) where
  | gather (reports : List (Nat × ρ))
  | install (plan : π)

/-- The members' plans and the tokens in flight, with what has been given and done so far. -/
structure Round (ρ π : Type) where
  installed : Nat → Option π
  /-- The tokens in flight, each with the member that sent it. -/
  tokens : List (Nat × RoundToken ρ π)
  /-- Every report a member has handed out. -/
  given : List (Nat × ρ)
  started : Nat
  hops : Nat

/-- The steps of a round. -/
inductive RoundAction (ρ : Type) where
  /-- A member starts a gather with its own report. -/
  | start (p : Nat) (report : ρ)
  /-- The `i`-th token is received by the next member, which has this report at hand. -/
  | hop (i : Nat) (report : ρ)

namespace Round

/-- Nothing has happened. -/
def initial : Round ρ π := ⟨fun _ => none, [], [], 0, 0⟩

/-- Add a member's report unless it is there already. -/
def collect (reports : List (Nat × ρ)) (me : Nat) (report : ρ) : List (Nat × ρ) :=
  if reports.any fun entry => entry.1 = me then reports else reports ++ [(me, report)]

/-- Member `p` sends a token. -/
def send (round : Round ρ π) (p : Nat) (token : RoundToken ρ π) : Round ρ π :=
  { round with tokens := round.tokens ++ [(p, token)] }

/-- Member `p` installs a plan and sends it on. -/
def install (round : Round ρ π) (p : Nat) (plan : π) : Round ρ π :=
  { round.send p (.install plan) with
    installed := Function.update round.installed p (some plan) }

end Round

namespace RoundSetup

variable (setup : RoundSetup ρ π)

/-- The next member. -/
def successor (p : Nat) : Nat := nextAlive setup.n setup.dead p

/-- Has every member reported? -/
def complete (reports : List (Nat × ρ)) : Bool :=
  (List.range setup.n).all fun p =>
    decide (p ∈ setup.dead) || reports.any fun entry => entry.1 = p

/-- Member `r` takes a token, which is no longer in flight. -/
def receive (round : Round ρ π) (r : Nat) (report : ρ) : RoundToken ρ π → Round ρ π
  | .gather reports =>
    let heard := { round with given := round.given ++ [(r, report)] }
    if (round.installed r).isSome then heard
    else if r = setup.home ∧ setup.complete (Round.collect reports r report) = true then
      heard.install r (setup.merge (Round.collect reports r report))
    else heard.send r (.gather (Round.collect reports r report))
  | .install plan => if (round.installed r).isSome then round else round.install r plan

/-- The state after a step. -/
def step (round : Round ρ π) : RoundAction ρ → Round ρ π
  | .start p report =>
    { round with given := round.given ++ [(p, report)], started := round.started + 1 }.send p
      (.gather [(p, report)])
  | .hop i report =>
    match round.tokens[i]? with
    | none => round
    | some (s, token) =>
      setup.receive { round with tokens := round.tokens.eraseIdx i, hops := round.hops + 1 }
        (setup.successor s) report token

/-- The machine of a round. -/
def machine : Machine (Round ρ π) (RoundAction ρ) where
  start := fun round => round = Round.initial
  legal := fun round action => match action with
    | .start p _ => p < setup.n ∧ p ∉ setup.dead ∧ round.installed p = none
    | .hop i _ => i < round.tokens.length
  next := setup.step

end RoundSetup

/-- A hop starts nothing. -/
theorem RoundSetup.step_hop_started {setup : RoundSetup ρ π} {round : Round ρ π} (i : Nat)
    (report : ρ) : (setup.step round (.hop i report)).started = round.started := by
  simp only [RoundSetup.step]
  cases round.tokens[i]? with
  | none => rfl
  | some e =>
    obtain ⟨s, token⟩ := e
    cases token <;> simp only [RoundSetup.receive] <;> split_ifs <;> rfl

/-! ### Collections -/

/-- The reports come from members, one from each at most, and have all been given. -/
structure RoundSetup.Collected (setup : RoundSetup ρ π) (given reports : List (Nat × ρ)) : Prop where
  distinct : (reports.map Prod.fst).Nodup
  members : ∀ p ∈ reports.map Prod.fst, p < setup.n ∧ p ∉ setup.dead
  given : ∀ entry ∈ reports, entry ∈ given

namespace RoundSetup

variable {setup : RoundSetup ρ π}

/-- A member is among those that have reported. -/
theorem any_iff (reports : List (Nat × ρ)) (p : Nat) :
    (reports.any fun entry => entry.1 = p) = true ↔ p ∈ reports.map Prod.fst := by
  simp

theorem complete_iff (reports : List (Nat × ρ)) : setup.complete reports = true ↔
    ∀ x, x < setup.n → x ∉ setup.dead → x ∈ reports.map Prod.fst := by
  unfold complete
  simp only [List.all_eq_true, List.mem_range, Bool.or_eq_true, decide_eq_true_eq, any_iff]
  exact forall₂_congr fun x inside => or_iff_not_imp_left

theorem mem_collect (reports : List (Nat × ρ)) (r : Nat) (report : ρ) (x : Nat) :
    x ∈ (Round.collect reports r report).map Prod.fst ↔ x ∈ reports.map Prod.fst ∨ x = r := by
  unfold Round.collect
  split_ifs with known
  · rw [any_iff] at known
    constructor
    · exact Or.inl
    · rintro (old | rfl)
      · exact old
      · exact known
  · simp

theorem length_collect {reports : List (Nat × ρ)} {r : Nat} (fresh : r ∉ reports.map Prod.fst)
    (report : ρ) : (Round.collect reports r report).length = reports.length + 1 := by
  unfold Round.collect
  rw [if_neg (by rwa [any_iff])]
  simp

theorem length_le_collect (reports : List (Nat × ρ)) (r : Nat) (report : ρ) :
    reports.length ≤ (Round.collect reports r report).length := by
  unfold Round.collect
  split_ifs <;> simp

theorem Collected.collect {given reports : List (Nat × ρ)} (collected : setup.Collected given reports)
    {r : Nat} (inside : r < setup.n) (use : r ∉ setup.dead) (report : ρ) :
    setup.Collected (given ++ [(r, report)]) (Round.collect reports r report) := by
  unfold Round.collect
  split_ifs with known
  · exact ⟨collected.distinct, collected.members, fun entry member =>
      List.mem_append_left _ (collected.given entry member)⟩
  · rw [any_iff] at known
    refine ⟨?_, ?_, ?_⟩
    · rw [List.map_append]
      refine List.Nodup.append collected.distinct (List.nodup_singleton _) fun x old new => ?_
      rw [List.map_singleton, List.mem_singleton] at new
      obtain rfl : x = r := new
      exact known old
    · intro p member
      rw [List.map_append, List.mem_append, List.map_singleton, List.mem_singleton] at member
      rcases member with old | rfl
      · exact collected.members p old
      · exact ⟨inside, use⟩
    · intro entry member
      rcases List.mem_append.mp member with old | new
      · exact List.mem_append_left _ (collected.given entry old)
      · exact List.mem_append_right _ new

theorem Collected.mono {given more reports : List (Nat × ρ)}
    (collected : setup.Collected given reports) (grows : ∀ entry ∈ given, entry ∈ more) :
    setup.Collected more reports :=
  ⟨collected.distinct, collected.members, fun entry member =>
    grows entry (collected.given entry member)⟩

/-- A collection is no larger than the cycle. -/
theorem Collected.length_le {given reports : List (Nat × ρ)}
    (collected : setup.Collected given reports) : reports.length ≤ setup.n := by
  have inside : (reports.map Prod.fst).toFinset ⊆ Finset.range setup.n := by
    intro p member
    exact Finset.mem_range.mpr (collected.members p (List.mem_toFinset.mp member)).1
  have bound := Finset.card_le_card inside
  rwa [List.toFinset_card_of_nodup collected.distinct, Finset.card_range, List.length_map] at bound

/-- **A complete collection has exactly one report of every member.** -/
theorem Collected.perm {given reports : List (Nat × ρ)} (collected : setup.Collected given reports)
    (complete : setup.complete reports = true) :
    (reports.map Prod.fst).Perm ((List.range setup.n).filter fun p => p ∉ setup.dead) := by
  refine (List.perm_ext_iff_of_nodup collected.distinct (List.nodup_range.filter _)).mpr fun p => ?_
  rw [List.mem_filter, List.mem_range, decide_eq_true_eq]
  exact ⟨collected.members p, fun member => (complete_iff reports).mp complete p member.1 member.2⟩

/-! ### How far a gather has come -/

/-- The token sent by `s` has met everybody, or exactly the members from some start up to `s`. -/
def Reached (setup : RoundSetup ρ π) (s : Nat) (reports : List (Nat × ρ)) : Prop :=
  setup.complete reports = true ∨ ∃ q, q < setup.n ∧ q ∉ setup.dead ∧
    ∀ x, x < setup.n → x ∉ setup.dead → (x ∈ reports.map Prod.fst ↔ Arc setup.n q s x)

theorem successor_spec (setup : RoundSetup ρ π) {s : Nat} (inside : s < setup.n) :
    setup.successor s < setup.n ∧ setup.successor s ∉ setup.dead :=
  ⟨nextAlive_lt inside, nextAlive_not_mem inside setup.inside setup.use⟩

/-- **One hop of a gather**: it meets a member it has not met, or it has met everybody. -/
theorem Reached.hop {s : Nat} {reports : List (Nat × ρ)} (reached : setup.Reached s reports)
    (inside : s < setup.n) (report : ρ) :
    setup.Reached (setup.successor s) (Round.collect reports (setup.successor s) report) ∧
      (setup.complete reports = true ∨ setup.successor s ∉ reports.map Prod.fst) := by
  have whole : setup.complete reports = true →
      setup.complete (Round.collect reports (setup.successor s) report) = true := by
    intro complete
    rw [complete_iff] at complete ⊢
    exact fun x xInside use => (mem_collect ..).mpr (Or.inl (complete x xInside use))
  rcases reached with complete | ⟨q, qInside, qUse, arc⟩
  · exact ⟨Or.inl (whole complete), Or.inl complete⟩
  by_cases back : setup.successor s = q
  · have complete : setup.complete reports = true := by
      rw [complete_iff]
      exact fun x xInside use => (arc x xInside use).mpr (arc_full qInside inside xInside use back)
    exact ⟨Or.inl (whole complete), Or.inl complete⟩
  · have next := setup.successor_spec inside
    refine ⟨Or.inr ⟨q, qInside, qUse, fun x xInside use => ?_⟩, Or.inr fun met => ?_⟩
    · rw [mem_collect, arc x xInside use]
      exact (arc_nextAlive qInside qUse inside xInside use back).symm
    · exact not_arc_nextAlive qInside qUse inside back ((arc _ next.1 next.2).mp met)

/-! ### What a token still costs -/

/-- A bound on the hops a token has left, the plan it may turn into included. -/
def weight (setup : RoundSetup ρ π) : Nat × RoundToken ρ π → Nat
  | (s, .gather reports) =>
    (setup.n - reports.length) * (setup.n + 1) + ahead setup.n s setup.home + (setup.n + 1)
  | (s, .install _) => ahead setup.n s setup.home

/-- A bound on the hops a start leads to. -/
def cost (setup : RoundSetup ρ π) : Nat := setup.n * (setup.n + 2)

theorem weight_pos (setup : RoundSetup ρ π) {s : Nat} (inside : s < setup.n) (token : RoundToken ρ π) :
    1 ≤ setup.weight (s, token) := by
  have positive := (ahead_le inside setup.inside).1
  cases token <;> simp only [weight] <;> omega

theorem weight_start (setup : RoundSetup ρ π) {p : Nat} (inside : p < setup.n) (report : ρ) :
    setup.weight (p, .gather [(p, report)]) ≤ setup.cost := by
  obtain ⟨-, short, -⟩ := ahead_le inside setup.inside
  simp only [weight, cost]
  have split : setup.n * (setup.n + 2) = (setup.n - 1) * (setup.n + 1) + (2 * setup.n + 1) := by
    obtain ⟨m, size⟩ : ∃ m, setup.n = m + 1 := ⟨setup.n - 1, by omega⟩
    rw [size, Nat.add_sub_cancel]
    ring
  rw [split, List.length_singleton]
  omega

/-- Towards home a hop comes nearer. -/
theorem ahead_successor {s : Nat} (inside : s < setup.n) (away : setup.successor s ≠ setup.home) :
    ahead setup.n (setup.successor s) setup.home < ahead setup.n s setup.home := by
  obtain ⟨bound, -, least⟩ := nextAlive_spec setup.dead inside
  have toHome := least setup.home setup.inside (Or.inl setup.use)
  have homeInside := setup.inside
  unfold successor at *
  generalize nextAlive setup.n setup.dead s = r at *
  unfold ahead at *
  split_ifs at * <;> omega

/-- **A gather that is sent on has less left**: it is nearer home, or it has left home with a report
it did not have. -/
theorem weight_gather {given : List (Nat × ρ)} {s : Nat} {reports : List (Nat × ρ)}
    (inside : s < setup.n) (reached : setup.Reached s reports)
    (collected : setup.Collected given reports) (report : ρ)
    (unfinished : ¬ (setup.successor s = setup.home ∧
      setup.complete (Round.collect reports (setup.successor s) report) = true)) :
    setup.weight (setup.successor s,
        .gather (Round.collect reports (setup.successor s) report)) <
      setup.weight (s, .gather reports) := by
  have longer := length_le_collect reports (setup.successor s) report
  have next := setup.successor_spec inside
  simp only [weight]
  by_cases home : setup.successor s = setup.home
  · obtain ⟨further, fresh⟩ := reached.hop inside report
    have unmet : setup.successor s ∉ reports.map Prod.fst := by
      refine fresh.resolve_left fun complete => unfinished ⟨home, ?_⟩
      rw [complete_iff] at complete ⊢
      exact fun x xInside use => (mem_collect ..).mpr (Or.inl (complete x xInside use))
    have grown := length_collect unmet report
    have room := (collected.collect next.1 next.2 report).length_le
    obtain ⟨positive, -, -⟩ := ahead_le inside setup.inside
    obtain ⟨-, turn, -⟩ := ahead_le next.1 setup.inside
    have split : (setup.n - reports.length) * (setup.n + 1) =
        (setup.n - (reports.length + 1)) * (setup.n + 1) + (setup.n + 1) := by
      rw [show setup.n - reports.length = setup.n - (reports.length + 1) + 1 by omega, Nat.succ_mul]
    rw [grown, split]
    omega
  · have nearer := ahead_successor inside home
    have fewer := Nat.mul_le_mul_right (setup.n + 1) (Nat.sub_le_sub_left longer setup.n)
    omega

end RoundSetup

/-! ### The invariant -/

namespace Round

/-- The senders of the plans in flight. -/
def couriers (tokens : List (Nat × RoundToken ρ π)) : List Nat :=
  tokens.filterMap fun
    | (s, .install _) => some s
    | (_, .gather _) => none

/-- **The invariant of a round.** -/
structure Sound (setup : RoundSetup ρ π) (round : Round ρ π) : Prop where
  placed : ∀ e ∈ round.tokens, e.1 < setup.n ∧ e.1 ∉ setup.dead
  gathered : ∀ s reports, (s, RoundToken.gather reports) ∈ round.tokens →
    setup.Collected round.given reports ∧ setup.Reached s reports
  /-- Until home installs nobody has, and a gather that was started is on its way. -/
  idle : round.installed setup.home = none → (∀ p, round.installed p = none) ∧
    couriers round.tokens = [] ∧ (0 < round.started → round.tokens ≠ [])
  /-- Home's plan is everybody's; the members that have it are the arc from home to the one token
  that carries it, or all members when there is none. -/
  served : ∀ made, round.installed setup.home = some made →
    (∃ reports, setup.Collected round.given reports ∧ setup.complete reports = true ∧
      made = setup.merge reports) ∧
    (∀ p plan, round.installed p = some plan → plan = made) ∧
    (∀ s plan, (s, RoundToken.install plan) ∈ round.tokens → plan = made) ∧
    ((couriers round.tokens = [] ∧
        ∀ x, x < setup.n → x ∉ setup.dead → (round.installed x).isSome) ∨
      ∃ s, couriers round.tokens = [s] ∧ ∀ x, x < setup.n → x ∉ setup.dead →
        ((round.installed x).isSome ↔ Arc setup.n setup.home s x))
  /-- Hops made and hops to come are paid by the starts. -/
  paid : round.hops + (round.tokens.map setup.weight).sum ≤ round.started * setup.cost

variable {setup : RoundSetup ρ π} {round : Round ρ π}

theorem sound_initial : (initial : Round ρ π).Sound setup where
  placed := fun e member => absurd member List.not_mem_nil
  gathered := fun s reports member => absurd member List.not_mem_nil
  idle := fun _ => ⟨fun _ => rfl, rfl, fun started => absurd started (lt_irrefl 0)⟩
  served := fun made installed => by cases installed
  paid := le_of_eq (by simp [initial])

theorem couriers_append (first second : List (Nat × RoundToken ρ π)) :
    couriers (first ++ second) = couriers first ++ couriers second := List.filterMap_append

theorem Sound.start (sound : round.Sound setup) {p : Nat} (inside : p < setup.n)
    (use : p ∉ setup.dead) (report : ρ) :
    (setup.step round (.start p report)).Sound setup := by
  have grows : ∀ entry ∈ round.given, entry ∈ round.given ++ [(p, report)] :=
    fun entry member => List.mem_append_left _ member
  have quiet : couriers (round.tokens ++ [(p, RoundToken.gather (π := π) [(p, report)])]) =
      couriers round.tokens := by
    rw [couriers_append]
    exact List.append_nil _
  refine ⟨fun e member => ?_, fun s reports member => ?_, fun vacant => ?_, fun made found => ?_, ?_⟩
  · rcases List.mem_append.mp member with old | new
    · exact sound.placed e old
    · rw [List.mem_singleton.mp new]
      exact ⟨inside, use⟩
  · rcases List.mem_append.mp member with old | new
    · obtain ⟨collected, reached⟩ := sound.gathered s reports old
      exact ⟨collected.mono grows, reached⟩
    · obtain ⟨rfl, same⟩ := Prod.mk.inj (List.mem_singleton.mp new)
      obtain rfl := RoundToken.gather.inj same
      refine ⟨⟨List.nodup_singleton _, fun q member => ?_, fun entry member => ?_⟩, Or.inr ?_⟩
      · rw [List.mem_singleton.mp member]
        exact ⟨inside, use⟩
      · exact List.mem_append_right _ member
      · refine ⟨s, inside, use, fun x xInside _ => ?_⟩
        rw [arc_self inside, List.map_singleton, List.mem_singleton]
  · obtain ⟨nobody, empty, -⟩ := sound.idle vacant
    exact ⟨nobody, quiet.trans empty, fun _ => List.append_ne_nil_of_right_ne_nil _ (by simp)⟩
  · obtain ⟨⟨reports, collected, whole⟩, same, carried, place⟩ := sound.served made found
    refine ⟨⟨reports, collected.mono grows, whole⟩, same, fun s plan member => ?_, ?_⟩
    · rcases List.mem_append.mp member with old | new
      · exact carried s plan old
      · cases List.mem_singleton.mp new
    · show (couriers (round.tokens ++ _) = [] ∧ _) ∨ ∃ s, couriers (round.tokens ++ _) = [s] ∧ _
      rw [quiet]
      exact place
  · show round.hops + ((round.tokens ++ [_]).map setup.weight).sum ≤ (round.started + 1) * setup.cost
    have fresh := setup.weight_start inside report
    have paid := sound.paid
    rw [List.map_append, List.sum_append, List.map_singleton, List.sum_singleton, Nat.succ_mul]
    omega

/-! ### One hop -/

section Hop

variable {s : Nat} {token : RoundToken ρ π} {rest : List (Nat × RoundToken ρ π)}

/-- The senders of plans, one token apart. -/
theorem couriers_perm (split : round.tokens.Perm ((s, token) :: rest)) :
    (couriers round.tokens).Perm (couriers [(s, token)] ++ couriers rest) := by
  have filtered := split.filterMap fun
    | (s, RoundToken.install _) => some s
    | (_, RoundToken.gather _) => none
  have same : couriers ((s, token) :: rest) = couriers [(s, token)] ++ couriers rest :=
    couriers_append [(s, token)] rest
  rw [← same]
  exact filtered

/-- The senders of plans when a gather is taken. -/
theorem couriers_gather {reports : List (Nat × ρ)}
    (split : round.tokens.Perm ((s, .gather reports) :: rest)) {couriersNow : List Nat}
    (short : couriersNow = [] ∨ ∃ x, couriersNow = [x])
    (now : couriers round.tokens = couriersNow) : couriers rest = couriersNow := by
  have perm := couriers_perm split
  rw [now] at perm
  rcases short with rfl | ⟨x, rfl⟩
  · exact perm.symm.eq_nil
  · exact List.perm_singleton.mp perm.symm

theorem Sound.taken_paid (sound : round.Sound setup)
    (split : round.tokens.Perm ((s, token) :: rest)) :
    round.hops + setup.weight (s, token) + (rest.map setup.weight).sum ≤
      round.started * setup.cost := by
  have sums := (split.map setup.weight).sum_eq
  have paid := sound.paid
  rw [List.map_cons, List.sum_cons] at sums
  omega

theorem mem_of_mem_rest (split : round.tokens.Perm ((s, token) :: rest)) :
    ∀ e ∈ rest, e ∈ round.tokens := fun _ member => split.mem_iff.mpr (List.mem_cons_of_mem _ member)

/-- **A member that has installed drops the token.** -/
theorem Sound.dropped (sound : round.Sound setup) (split : round.tokens.Perm ((s, token) :: rest))
    (more : List (Nat × ρ)) (has : (round.installed (setup.successor s)).isSome) :
    Sound setup { round with
      tokens := rest, hops := round.hops + 1, given := round.given ++ more } := by
  have here : s < setup.n ∧ s ∉ setup.dead :=
    sound.placed _ (split.mem_iff.mpr List.mem_cons_self)
  have others := mem_of_mem_rest split
  have grows : ∀ entry ∈ round.given, entry ∈ round.given ++ more :=
    fun entry member => List.mem_append_left _ member
  refine ⟨fun e member => sound.placed e (others e member), fun s' reports member => ?_,
    fun vacant => ?_, fun made found => ?_, ?_⟩
  · obtain ⟨collected, reached⟩ := sound.gathered s' reports (others _ member)
    exact ⟨collected.mono grows, reached⟩
  · rw [(sound.idle vacant).1 _] at has
    cases has
  · obtain ⟨⟨reports, collected, whole⟩, same, carried, place⟩ := sound.served made found
    refine ⟨⟨reports, collected.mono grows, whole⟩, same,
      fun s' plan member => carried s' plan (others _ member), ?_⟩
    cases token with
    | gather reports =>
      rcases place with ⟨none, all⟩ | ⟨x, one, arc⟩
      · exact Or.inl ⟨couriers_gather split (Or.inl rfl) none, all⟩
      · exact Or.inr ⟨x, couriers_gather split (Or.inr ⟨x, rfl⟩) one, arc⟩
    | install plan =>
      have perm := couriers_perm split
      rcases place with ⟨none, -⟩ | ⟨x, one, arc⟩
      · rw [none] at perm
        cases perm.symm.eq_nil
      · rw [one] at perm
        have shape : [x] = s :: couriers rest := (List.perm_singleton.mp perm.symm).symm
        obtain ⟨rfl, empty⟩ := List.cons.inj shape
        -- the plan is back home, after the full turn
        have next := setup.successor_spec here.1
        have back : setup.successor x = setup.home := by
          by_contra onward
          exact not_arc_nextAlive setup.inside setup.use here.1 onward
            ((arc _ next.1 next.2).mp has)
        exact Or.inl ⟨empty.symm, fun y yInside use =>
          (arc y yInside use).mpr (arc_full setup.inside here.1 yInside use back)⟩
  · have paid := sound.taken_paid split
    have positive := setup.weight_pos here.1 token
    show round.hops + 1 + (rest.map setup.weight).sum ≤ round.started * setup.cost
    omega

end Hop

/-- **A gather is sent on.** -/
theorem Sound.forwarded {s : Nat} {reports : List (Nat × ρ)} {rest : List (Nat × RoundToken ρ π)}
    (sound : round.Sound setup) (split : round.tokens.Perm ((s, .gather reports) :: rest))
    (report : ρ) (unfinished : ¬ (setup.successor s = setup.home ∧
      setup.complete (collect reports (setup.successor s) report) = true)) :
    Sound setup (send { round with
      tokens := rest, hops := round.hops + 1,
      given := round.given ++ [(setup.successor s, report)] } (setup.successor s)
        (.gather (collect reports (setup.successor s) report))) := by
  have member := split.mem_iff.mpr List.mem_cons_self
  have here : s < setup.n ∧ s ∉ setup.dead := sound.placed _ member
  have others := mem_of_mem_rest split
  have next := setup.successor_spec here.1
  obtain ⟨collected, reached⟩ := sound.gathered s reports member
  have grows : ∀ entry ∈ round.given, entry ∈ round.given ++ [(setup.successor s, report)] :=
    fun entry member => List.mem_append_left _ member
  have quiet : couriers (rest ++ [(setup.successor s,
      RoundToken.gather (π := π) (collect reports (setup.successor s) report))]) =
      couriers rest := by
    rw [couriers_append]
    exact List.append_nil _
  refine ⟨fun e member => ?_, fun s' reports' member => ?_, fun vacant => ?_, fun made found => ?_, ?_⟩
  · rcases List.mem_append.mp member with old | new
    · exact sound.placed e (others e old)
    · rw [List.mem_singleton.mp new]
      exact next
  · rcases List.mem_append.mp member with old | new
    · obtain ⟨collected', reached'⟩ := sound.gathered s' reports' (others _ old)
      exact ⟨collected'.mono grows, reached'⟩
    · obtain ⟨rfl, same⟩ := Prod.mk.inj (List.mem_singleton.mp new)
      obtain rfl := RoundToken.gather.inj same
      exact ⟨collected.collect next.1 next.2 report, (reached.hop here.1 report).1⟩
  · obtain ⟨nobody, empty, -⟩ := sound.idle vacant
    refine ⟨nobody, ?_, fun _ => List.append_ne_nil_of_right_ne_nil _ (by simp)⟩
    exact quiet.trans (couriers_gather split (Or.inl rfl) empty)
  · obtain ⟨⟨whole, collected', made'⟩, same, carried, place⟩ := sound.served made found
    refine ⟨⟨whole, collected'.mono grows, made'⟩, same, fun s' plan member => ?_, ?_⟩
    · rcases List.mem_append.mp member with old | new
      · exact carried s' plan (others _ old)
      · cases List.mem_singleton.mp new
    · rcases place with ⟨none, all⟩ | ⟨x, one, arc⟩
      · exact Or.inl ⟨quiet.trans (couriers_gather split (Or.inl rfl) none), all⟩
      · exact Or.inr ⟨x, quiet.trans (couriers_gather split (Or.inr ⟨x, rfl⟩) one), arc⟩
  · have paid := sound.taken_paid split
    have less := RoundSetup.weight_gather here.1 reached collected report unfinished
    show round.hops + 1 + ((rest ++ [_]).map setup.weight).sum ≤ round.started * setup.cost
    rw [List.map_append, List.sum_append, List.map_singleton, List.sum_singleton]
    omega

/-- **Home has a complete collection**: it makes the plan and installs it first. -/
theorem Sound.merged {s : Nat} {reports : List (Nat × ρ)} {rest : List (Nat × RoundToken ρ π)}
    (sound : round.Sound setup) (split : round.tokens.Perm ((s, .gather reports) :: rest))
    (report : ρ) (vacant : round.installed (setup.successor s) = none)
    (home : setup.successor s = setup.home)
    (complete : setup.complete (collect reports (setup.successor s) report) = true) :
    Sound setup (install { round with
      tokens := rest, hops := round.hops + 1,
      given := round.given ++ [(setup.successor s, report)] } (setup.successor s)
        (setup.merge (collect reports (setup.successor s) report))) := by
  have member := split.mem_iff.mpr List.mem_cons_self
  have here : s < setup.n ∧ s ∉ setup.dead := sound.placed _ member
  have others := mem_of_mem_rest split
  have next := setup.successor_spec here.1
  obtain ⟨collected, -⟩ := sound.gathered s reports member
  have grows : ∀ entry ∈ round.given, entry ∈ round.given ++ [(setup.successor s, report)] :=
    fun entry member => List.mem_append_left _ member
  obtain ⟨nobody, empty, -⟩ := sound.idle (home ▸ vacant)
  have quiet := couriers_gather split (Or.inl rfl) empty
  have full := collected.collect next.1 next.2 report
  have paid := sound.taken_paid split
  have weightThen : setup.weight (s, .gather reports) = (setup.n - reports.length) * (setup.n + 1) +
      ahead setup.n s setup.home + (setup.n + 1) := rfl
  obtain ⟨-, turn, -⟩ := ahead_le next.1 setup.inside
  rw [home] at *
  refine ⟨fun e member => ?_, fun s' reports' member => ?_, fun vacant => ?_, fun made found => ?_, ?_⟩
  · rcases List.mem_append.mp member with old | new
    · exact sound.placed e (others e old)
    · rw [List.mem_singleton.mp new]
      exact next
  · rcases List.mem_append.mp member with old | new
    · obtain ⟨collected', reached'⟩ := sound.gathered s' reports' (others _ old)
      exact ⟨collected'.mono grows, reached'⟩
    · cases List.mem_singleton.mp new
  · have has : Function.update round.installed setup.home _ setup.home = none := vacant
    rw [Function.update_self] at has
    cases has
  · have has : Function.update round.installed setup.home _ setup.home = some made := found
    rw [Function.update_self] at has
    obtain rfl := Option.some_injective _ has
    refine ⟨⟨_, full, complete, rfl⟩, fun p plan held => ?_, fun s' plan member => ?_, Or.inr ?_⟩
    · have updated : Function.update round.installed setup.home _ p = some plan := held
      by_cases same : p = setup.home
      · rw [same, Function.update_self] at updated
        exact (Option.some_injective _ updated).symm
      · rw [Function.update_of_ne same, nobody] at updated
        cases updated
    · rcases List.mem_append.mp member with old | new
      · have courier : s' ∈ couriers rest := List.mem_filterMap.mpr ⟨_, old, rfl⟩
        rw [quiet] at courier
        cases courier
      · exact RoundToken.install.inj (Prod.mk.inj (List.mem_singleton.mp new)).2
    · refine ⟨setup.home, ?_, fun x xInside use => ?_⟩
      · show couriers (rest ++ [_]) = [setup.home]
        rw [couriers_append, quiet]
        rfl
      · rw [arc_self setup.inside]
        show (Function.update round.installed setup.home _ x).isSome ↔ x = setup.home
        by_cases same : x = setup.home
        · rw [same, Function.update_self]
          exact ⟨fun _ => rfl, fun _ => rfl⟩
        · rw [Function.update_of_ne same, nobody]
          exact ⟨fun has => absurd has (by simp), fun equal => absurd equal same⟩
  · show round.hops + 1 + ((rest ++ [(setup.home, RoundToken.install _)]).map setup.weight).sum ≤
      round.started * setup.cost
    rw [List.map_append, List.sum_append, List.map_singleton, List.sum_singleton]
    show round.hops + 1 + ((rest.map setup.weight).sum + ahead setup.n setup.home setup.home) ≤ _
    omega

/-- **A member installs the plan** and sends it on. -/
theorem Sound.spread {s : Nat} {plan : π} {rest : List (Nat × RoundToken ρ π)}
    (sound : round.Sound setup) (split : round.tokens.Perm ((s, .install plan) :: rest))
    (vacant : round.installed (setup.successor s) = none) :
    Sound setup (install { round with tokens := rest, hops := round.hops + 1 }
      (setup.successor s) plan) := by
  have member := split.mem_iff.mpr List.mem_cons_self
  have here : s < setup.n ∧ s ∉ setup.dead := sound.placed _ member
  have others := mem_of_mem_rest split
  have next := setup.successor_spec here.1
  have perm := couriers_perm split
  obtain ⟨made, found⟩ : ∃ made, round.installed setup.home = some made := by
    cases installed : round.installed setup.home with
    | some made => exact ⟨made, rfl⟩
    | none =>
      rw [(sound.idle installed).2.1] at perm
      cases perm.symm.eq_nil
  obtain ⟨whole, same, carried, place⟩ := sound.served made found
  obtain rfl := carried s plan member
  have away : setup.successor s ≠ setup.home := fun home => by
    rw [home, found] at vacant
    cases vacant
  have keeps : Function.update round.installed (setup.successor s) (some plan) setup.home =
      some plan := by
    rw [Function.update_of_ne away.symm, found]
  refine ⟨fun e member => ?_, fun s' reports' member => ?_, fun vacant => ?_, fun made' found' => ?_, ?_⟩
  · rcases List.mem_append.mp member with old | new
    · exact sound.placed e (others e old)
    · rw [List.mem_singleton.mp new]
      exact next
  · rcases List.mem_append.mp member with old | new
    · exact sound.gathered s' reports' (others _ old)
    · cases List.mem_singleton.mp new
  · cases keeps.symm.trans vacant
  · obtain rfl := Option.some_injective _ (keeps.symm.trans found')
    refine ⟨whole, fun p other held => ?_, fun s' other member => ?_, Or.inr ?_⟩
    · have updated : Function.update round.installed (setup.successor s) (some plan) p =
        some other := held
      by_cases here' : p = setup.successor s
      · rw [here', Function.update_self] at updated
        exact (Option.some_injective _ updated).symm
      · rw [Function.update_of_ne here'] at updated
        exact same p other updated
    · rcases List.mem_append.mp member with old | new
      · exact carried s' other (others _ old)
      · exact RoundToken.install.inj (Prod.mk.inj (List.mem_singleton.mp new)).2
    · rcases place with ⟨none, -⟩ | ⟨x, one, arc⟩
      · rw [none] at perm
        cases perm.symm.eq_nil
      · rw [one] at perm
        have shape : [x] = s :: couriers rest := (List.perm_singleton.mp perm.symm).symm
        obtain ⟨rfl, empty⟩ := List.cons.inj shape
        refine ⟨setup.successor x, ?_, fun y yInside use => ?_⟩
        · show couriers (rest ++ [_]) = [setup.successor x]
          rw [couriers_append, ← empty]
          rfl
        · have grown := arc_nextAlive (x := y) setup.inside setup.use here.1 yInside use away
          show (Function.update round.installed (setup.successor x) (some plan) y).isSome ↔
            Arc setup.n setup.home (nextAlive setup.n setup.dead x) y
          rw [grown, ← arc y yInside use]
          by_cases here' : y = setup.successor x
          · rw [here', Function.update_self]
            exact ⟨fun _ => Or.inr rfl, fun _ => rfl⟩
          · rw [Function.update_of_ne here']
            exact ⟨Or.inl, fun either => either.resolve_right here'⟩
  · have paid := sound.taken_paid split
    have nearer := RoundSetup.ahead_successor here.1 away
    show round.hops + 1 + ((rest ++ [_]).map setup.weight).sum ≤ round.started * setup.cost
    rw [List.map_append, List.sum_append, List.map_singleton, List.sum_singleton]
    show round.hops + 1 + ((rest.map setup.weight).sum +
      ahead setup.n (setup.successor s) setup.home) ≤ _
    have weightThen : setup.weight (s, .install plan) = ahead setup.n s setup.home := rfl
    omega

/-- **Every step keeps the invariant.** -/
theorem Sound.step (sound : round.Sound setup) {action : RoundAction ρ}
    (legal : setup.machine.legal round action) : (setup.step round action).Sound setup := by
  cases action with
  | start p report => exact sound.start legal.1 legal.2.1 report
  | hop i report =>
    have inside : i < round.tokens.length := legal
    obtain ⟨s, token, entry⟩ : ∃ s token, round.tokens[i] = (s, token) := ⟨_, _, rfl⟩
    have split : round.tokens.Perm ((s, token) :: round.tokens.eraseIdx i) := by
      rw [← entry]
      exact (List.getElem_cons_eraseIdx_perm inside).symm
    have found : round.tokens[i]? = some (s, token) := by
      rw [List.getElem?_eq_getElem inside, entry]
    simp only [RoundSetup.step, found]
    cases token with
    | gather reports =>
      simp only [RoundSetup.receive]
      split_ifs with has home
      · exact sound.dropped split _ has
      · exact sound.merged split report (Option.not_isSome_iff_eq_none.mp has) home.1 home.2
      · exact sound.forwarded split report home
    | install plan =>
      simp only [RoundSetup.receive]
      split_ifs with has
      · have dropped := sound.dropped split [] has
        rw [List.append_nil] at dropped
        exact dropped
      · exact sound.spread split (Option.not_isSome_iff_eq_none.mp has)

/-! ### Results -/

theorem sound (reachable : setup.machine.Reachable round) : round.Sound setup := by
  refine Machine.invariant (fun first initial => ?_) (fun first action before legal => ?_) reachable
  · rw [show first = Round.initial from initial]
    exact sound_initial
  · exact before.step legal

/-- **One plan**: whoever has installed has the plan made of one complete collection, with exactly
one report of every member. -/
theorem one_plan (reachable : setup.machine.Reachable round) :
    ∃ reports : List (Nat × ρ), ∀ p plan, round.installed p = some plan →
      plan = setup.merge reports ∧ (∀ entry ∈ reports, entry ∈ round.given) ∧
        (reports.map Prod.fst).Perm ((List.range setup.n).filter fun x => x ∉ setup.dead) := by
  have sound := sound reachable
  cases found : round.installed setup.home with
  | none =>
    refine ⟨[], fun p plan held => ?_⟩
    rw [(sound.idle found).1 p] at held
    cases held
  | some made =>
    obtain ⟨⟨reports, collected, complete, rfl⟩, same, -, -⟩ := sound.served made found
    exact ⟨reports, fun p plan held =>
      ⟨same p plan held, collected.given, collected.perm complete⟩⟩

/-- A token in flight was started. -/
theorem started_pos (reachable : setup.machine.Reachable round) {i : Nat}
    (inflight : i < round.tokens.length) : 0 < round.started := by
  have sound := sound reachable
  have member := List.getElem_mem inflight
  have positive : 1 ≤ setup.weight round.tokens[i] :=
    setup.weight_pos (sound.placed _ member).1 (round.tokens[i]).2
  have single := List.single_le_sum (fun _ _ => Nat.zero_le _) _
    (List.mem_map_of_mem (f := setup.weight) member)
  have paid := sound.paid
  rcases Nat.eq_zero_or_pos round.started with none | some
  · rw [none, Nat.zero_mul] at paid
    omega
  · exact some

/-- **The round ends**: the starts bound the hops. -/
theorem hops_le (reachable : setup.machine.Reachable round) :
    round.hops ≤ round.started * setup.cost := le_trans (Nat.le_add_right _ _) (sound reachable).paid

/-- **With no token left everybody has installed**, once a gather was started. -/
theorem everyone (reachable : setup.machine.Reachable round) (quiet : round.tokens = [])
    (started : 0 < round.started) {x : Nat} (inside : x < setup.n) (use : x ∉ setup.dead) :
    (round.installed x).isSome := by
  have sound := sound reachable
  cases found : round.installed setup.home with
  | none => exact absurd quiet ((sound.idle found).2.2 started)
  | some made =>
    obtain ⟨-, -, -, ⟨-, all⟩ | ⟨s, one, -⟩⟩ := sound.served made found
    · exact all x inside use
    · rw [quiet] at one
      cases one

end Round

end TrainsRing
