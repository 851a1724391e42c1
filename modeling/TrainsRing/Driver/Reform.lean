/-
**The re-formed ring** (`trains-cli/src/node.rs`).

A process that learns of a crash excludes the victim and sends to the next peer that it has not
excluded. The ring has any number of peers here; what `exclude` does to the core is a parameter.

* `RingView` — what a process knows of the ring; `RingView.exclude` — one call.
* `RingView.Aligned` — the successor is the next peer alive, and the link points at it.
* `Driver.exclude_ringView`, `Driver.excludes_ringView` — the driver's calls are those of its view.
* `reformed_ring` — **the survivors form one cycle**, whatever the order of their exclusions.
* `Driver.succ_excludes` — so a driver that has excluded some peers sends to the next survivor.
-/

import TrainsRing.Driver.NoPanic

namespace TrainsRing

variable {cfg : RingConfig} {σ : Type}

/-- The variables of the event loop that `exclude` works on. `σ` is the core. -/
structure RingView (σ : Type) where
  id : Nat
  n : Nat
  core : σ
  dead : Finset Nat
  succ : Nat
  /-- The peers at which the link has been pointed since the start. -/
  retargets : List Nat

namespace RingView

/-- Before the event loop. -/
def launch (id n : Nat) (core : σ) : RingView σ := ⟨id, n, core, ∅, (id + 1) % n, []⟩

variable (freeze : σ → Nat → σ)

/-- `exclude`; `freeze` is what it does to the core. -/
def exclude (v : RingView σ) (victim : Nat) : RingView σ :=
  if victim ∈ v.dead then v
  else
    let dead := insert victim v.dead
    let core := freeze v.core victim
    let ns := nextAlive v.n dead v.id
    if ns ≠ v.succ then { v with dead, core, succ := ns, retargets := v.retargets ++ [ns] }
    else { v with dead, core }

/-- The successor is the next peer that is not excluded, and the link points at it. -/
structure Aligned (v : RingView σ) : Prop where
  succ : v.succ = nextAlive v.n v.dead v.id
  link : v.retargets.getLast?.getD ((v.id + 1) % v.n) = v.succ

theorem aligned_launch {id n : Nat} (id_lt : id < n) (core : σ) : (launch id n core).Aligned where
  succ := (nextAlive_full id_lt fun x _ => Finset.notMem_empty x).symm
  link := rfl

/-- **One call**: it excludes the victim and keeps the view aligned. -/
theorem exclude_spec {v : RingView σ} (aligned : v.Aligned) (victim : Nat) :
    (v.exclude freeze victim).Aligned ∧ (v.exclude freeze victim).id = v.id ∧
      (v.exclude freeze victim).n = v.n ∧ (v.exclude freeze victim).dead = insert victim v.dead := by
  unfold exclude
  by_cases known : victim ∈ v.dead
  · rw [if_pos known]
    exact ⟨aligned, rfl, rfl, (Finset.insert_eq_of_mem known).symm⟩
  rw [if_neg known]
  dsimp only
  by_cases moved : nextAlive v.n (insert victim v.dead) v.id ≠ v.succ
  · rw [if_pos moved]
    refine ⟨⟨rfl, ?_⟩, rfl, rfl, rfl⟩
    simp
  · rw [if_neg moved]
    exact ⟨⟨(not_not.mp moved).symm, aligned.link⟩, rfl, rfl, rfl⟩

/-- **Any calls**: what has been excluded does not depend on their order. -/
theorem excludes_spec (calls : List Nat) : ∀ {v : RingView σ}, v.Aligned →
    (calls.foldl (exclude freeze) v).Aligned ∧ (calls.foldl (exclude freeze) v).id = v.id ∧
      (calls.foldl (exclude freeze) v).n = v.n ∧
      (calls.foldl (exclude freeze) v).dead = v.dead ∪ calls.toFinset := by
  induction calls with
  | nil => exact fun aligned => ⟨aligned, rfl, rfl, (Finset.union_empty _).symm⟩
  | cons victim rest ih =>
    intro v aligned
    obtain ⟨aligned', id, n, dead⟩ := exclude_spec freeze aligned victim
    obtain ⟨ends, ends_id, ends_n, ends_dead⟩ := ih aligned'
    refine ⟨ends, ends_id.trans id, ends_n.trans n, ends_dead.trans ?_⟩
    rw [dead, List.toFinset_cons, Finset.insert_union, Finset.union_insert]

end RingView

/-- The view of a driver. -/
def Driver.ringView (d : Driver cfg) (retargets : List Nat) : RingView (TrainsNode cfg) :=
  ⟨d.core.id, cfg.ringSize, d.core, d.dead, d.succ, retargets⟩

/-- The peer at which an effect points the link. -/
def Effect.retargeted : Effect cfg → Option Nat
  | .retarget next => some next
  | _ => none

/-- What `exclude` does to the core of a driver. -/
def freezeCore (core : TrainsNode cfg) (victim : Nat) : TrainsNode cfg :=
  (core.setFrozen true).markCrashed victim

/-- **The driver's `exclude` is that of its view**, where it does not panic. -/
theorem Driver.exclude_ringView {d d' : Driver cfg} {victim : Nat} {effects : List (Effect cfg)}
    (returned : d.exclude victim = .ok (d', effects)) (retargets : List Nat) :
    d'.ringView (retargets ++ effects.filterMap Effect.retargeted) =
      (d.ringView retargets).exclude freezeCore victim := by
  unfold Driver.exclude at returned
  unfold RingView.exclude
  by_cases known : victim ∈ d.dead
  · rw [if_pos known] at returned
    obtain ⟨rfl, rfl⟩ := Prod.mk.inj (Except.ok.inj returned)
    rw [if_pos (show victim ∈ (d.ringView retargets).dead from known)]
    simp
  rw [if_neg known] at returned
  rw [if_neg (show victim ∉ (d.ringView retargets).dead from known)]
  by_cases small : victim < 32
  · rw [d.core.confirmCrashChecked_frozen small] at returned
    have inside : nextAlive cfg.ringSize (insert victim d.dead) d.core.id < cfg.ringSize :=
      nextAlive_lt d.core.id_lt
    simp only [bind, Except.bind, if_pos inside] at returned
    by_cases moved : nextAlive cfg.ringSize (insert victim d.dead) d.core.id ≠ d.succ
    · rw [if_pos moved] at returned
      obtain ⟨rfl, rfl⟩ := Prod.mk.inj (Except.ok.inj returned)
      exact (if_pos moved).symm
    · rw [if_neg moved] at returned
      obtain ⟨rfl, rfl⟩ := Prod.mk.inj (Except.ok.inj returned)
      rw [List.filterMap_nil, List.append_nil]
      exact (if_neg moved).symm
  · rw [TrainsNode.confirmCrashChecked_large _ small] at returned
    cases returned

/-- Some calls of `exclude`, one after the other. -/
def Driver.excludes (d : Driver cfg) : List Nat → Except Panic (Driver cfg × List (Effect cfg))
  | [] => .ok (d, [])
  | victim :: rest => do
    let first ← d.exclude victim
    let others ← first.1.excludes rest
    return (others.1, first.2 ++ others.2)

/-- **Any calls** are those of the view. -/
theorem Driver.excludes_ringView (calls : List Nat) : ∀ {d d' : Driver cfg} {effects : List (Effect cfg)},
    d.excludes calls = .ok (d', effects) → ∀ retargets : List Nat,
      d'.ringView (retargets ++ effects.filterMap Effect.retargeted) =
        calls.foldl (RingView.exclude freezeCore) (d.ringView retargets) := by
  induction calls with
  | nil =>
    intro d d' effects returned retargets
    obtain ⟨rfl, rfl⟩ := Prod.mk.inj (Except.ok.inj returned)
    rw [List.filterMap_nil, List.append_nil, List.foldl_nil]
  | cons victim rest ih =>
    intro d d' effects returned retargets
    unfold Driver.excludes at returned
    cases one : d.exclude victim with
    | error panic =>
      rw [one] at returned
      cases returned
    | ok first =>
      rw [one] at returned
      cases others : first.1.excludes rest with
      | error panic =>
        simp only [bind, Except.bind, others] at returned
        cases returned
      | ok last =>
        simp only [bind, Except.bind, others] at returned
        obtain ⟨rfl, rfl⟩ := Prod.mk.inj (Except.ok.inj returned)
        rw [List.filterMap_append, ← List.append_assoc, List.foldl_cons, ih others,
          Driver.exclude_ringView one]

/-- No call panics on a peer that has a bit in the mask. -/
theorem Driver.excludes_ok (calls : List Nat) : ∀ d : Driver cfg, (∀ v ∈ calls, v < 32) →
    ∃ d' effects, d.excludes calls = .ok (d', effects) := by
  induction calls with
  | nil => exact fun d _ => ⟨d, [], rfl⟩
  | cons victim rest ih =>
    intro d small
    obtain ⟨first, one⟩ : ∃ first, d.exclude victim = .ok first := by
      rcases d.exclude_cases victim with ⟨-, same⟩ | ⟨-, large, -⟩ | ⟨-, -, succ, effects, same⟩
      · exact ⟨_, same⟩
      · exact absurd (small victim List.mem_cons_self) large
      · exact ⟨_, same⟩
    obtain ⟨d', effects, others⟩ := ih first.1 fun v member => small v (List.mem_cons_of_mem _ member)
    refine ⟨d', first.2 ++ effects, ?_⟩
    unfold Driver.excludes
    simp only [bind, Except.bind, one, others]
    rfl

/-! ### All survivors -/

/-- A process after its calls of `exclude`. -/
def reformed (freeze : σ → Nat → σ) (n : Nat) (cores : Nat → σ) (calls : Nat → List Nat) (id : Nat) :
    RingView σ := (calls id).foldl (RingView.exclude freeze) (.launch id n (cores id))

/-- **Its successor** is the next survivor, whatever the order of its calls. -/
theorem succ_reformed (freeze : σ → Nat → σ) {n : Nat} {victims : Finset Nat} (cores : Nat → σ)
    {calls : Nat → List Nat} {id : Nat} (id_lt : id < n)
    (covers : ∀ v, v ∈ calls id ↔ v ∈ victims) :
    (reformed freeze n cores calls id).succ = nextAlive n victims id := by
  obtain ⟨aligned, same_id, same_n, dead⟩ := RingView.excludes_spec freeze (calls id)
    (RingView.aligned_launch id_lt (cores id))
  have all : (calls id).toFinset = victims := by
    ext v
    rw [List.mem_toFinset, covers]
  have excluded : (reformed freeze n cores calls id).dead = victims := by
    refine dead.trans ?_
    rw [all]
    exact Finset.empty_union victims
  refine aligned.succ.trans ?_
  rw [same_n, same_id]
  exact congrArg (fun dead => nextAlive n dead id) excluded

/-- **A driver that has excluded some peers sends to the next survivor**, and none of the calls panics. -/
theorem Driver.succ_excludes {id : Nat} (id_lt : id < cfg.ringSize) (mode : DeliveryMode)
    (reconfig issues : Bool) {calls : List Nat} (peers : ∀ v ∈ calls, v < cfg.ringSize) :
    ∃ d effects, (launch id id_lt mode reconfig issues).excludes calls = .ok (d, effects) ∧
      d.succ = nextAlive cfg.ringSize calls.toFinset id := by
  obtain ⟨d, effects, returned⟩ := excludes_ok calls (launch id id_lt mode reconfig issues)
    fun v member => ((peers v member).trans_le cfg.le_thirty).trans (by decide)
  let core := (launch id id_lt mode reconfig issues).core
  have launched : (launch id id_lt mode reconfig issues).ringView [] =
      RingView.launch id cfg.ringSize core := by
    cases issues <;> rfl
  have view := excludes_ringView calls returned []
  rw [launched] at view
  have next : (reformed freezeCore cfg.ringSize (fun _ => core) (fun _ => calls) id).succ =
      nextAlive cfg.ringSize calls.toFinset id :=
    succ_reformed freezeCore _ id_lt fun v => List.mem_toFinset.symm
  exact ⟨d, effects, returned, (congrArg RingView.succ view).trans next⟩

/-- **The re-formed ring is one cycle over the survivors.** Each survivor excludes the victims in its
own order, as often as it likes. The loop of `next_alive` ends; the successor of a survivor is the next
survivor; and from any survivor on, the successors lead to each survivor exactly once and then back. -/
theorem reformed_ring (freeze : σ → Nat → σ) {n : Nat} {victims : Finset Nat} (cores : Nat → σ)
    {calls : Nat → List Nat}
    (covers : ∀ id ∈ inUse n victims, ∀ v, v ∈ calls id ↔ v ∈ victims) :
    (∀ me < n, ∀ dead : Finset Nat, ∃ rounds ≤ n,
      (∀ k < rounds, (fun j => (j + 1) % n)^[k] ((me + 1) % n) ∈ dead ∧
        (fun j => (j + 1) % n)^[k] ((me + 1) % n) ≠ me) ∧
      ¬ ((fun j => (j + 1) % n)^[rounds] ((me + 1) % n) ∈ dead ∧
        (fun j => (j + 1) % n)^[rounds] ((me + 1) % n) ≠ me) ∧
      nextAlive n dead me = (fun j => (j + 1) % n)^[rounds] ((me + 1) % n)) ∧
    (∀ id ∈ inUse n victims, (reformed freeze n cores calls id).succ ∈ inUse n victims ∧
      (reformed freeze n cores calls id).succ = nextAlive n victims id) ∧
    ∀ q ∈ inUse n victims,
      (fun id => (reformed freeze n cores calls id).succ)^[(inUse n victims).card] q = q ∧
        ∀ x ∈ inUse n victims, ∃! k, k < (inUse n victims).card ∧
          (fun id => (reformed freeze n cores calls id).succ)^[k] q = x := by
  have next : ∀ id ∈ inUse n victims, (reformed freeze n cores calls id).succ = nextAlive n victims id :=
    fun id member => succ_reformed freeze cores (mem_inUse.mp member).1 (covers id member)
  have walk : ∀ q ∈ inUse n victims, ∀ k,
      (fun id => (reformed freeze n cores calls id).succ)^[k] q = (nextAlive n victims)^[k] q := by
    intro q start k
    induction k with
    | zero => rfl
    | succ k ih =>
      rw [Function.iterate_succ_apply', Function.iterate_succ_apply', ih]
      exact next _ (iterate_nextAlive_mem start k)
  refine ⟨fun me inside dead => nextAlive_terminates dead inside, fun id member => ⟨?_, next id member⟩,
    fun q start => ?_⟩
  · rw [next id member]
    exact iterate_nextAlive_mem member 1
  · simp only [walk q start]
    exact nextAlive_cycle start

/-- Three survivors of five, the victims side by side across zero. -/
def unevenCalls : Nat → List Nat
  | 1 => [0, 4]
  | 2 => [4, 0, 4]
  | _ => [4, 4, 0]

theorem reformed_ring_five :
    (fun id => (reformed (fun core _ => core) 5 (fun _ => ()) unevenCalls id).succ)^[3] 3 = 3 ∧
      ∀ x ∈ inUse 5 {0, 4}, ∃! k, k < 3 ∧
        (fun id => (reformed (fun core _ => core) 5 (fun _ => ()) unevenCalls id).succ)^[k] 3 = x := by
  have covers : ∀ id ∈ inUse 5 {0, 4}, ∀ v, v ∈ unevenCalls id ↔ v ∈ ({0, 4} : Finset Nat) := by
    have three : ∀ id ∈ inUse 5 {0, 4}, ∀ v ∈ unevenCalls id, v ∈ ({0, 4} : Finset Nat) := by decide
    have back : ∀ id ∈ inUse 5 {0, 4}, ∀ v ∈ ({0, 4} : Finset Nat), v ∈ unevenCalls id := by decide
    exact fun id member v => ⟨three id member v, back id member v⟩
  exact (reformed_ring (fun core _ => core) (fun _ => ()) covers).2.2 3 (by decide)

end TrainsRing
