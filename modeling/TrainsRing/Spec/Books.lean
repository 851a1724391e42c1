/-
**Slots, clocks and keys of the specification.**

What holds of the train slots and the key sets in every reachable state, in both modes. The acks of a
slot are an arc of the ring that starts at its issuer, so a slot that all required processes have
acked takes no more messages.

* `Books` — the invariant.
* `Books.recycle`, `Books.install` — a slot starts its next tour; a new view is installed.
* `Books.step` — **every action keeps it**.
* `Books.closed` — **a slot that is ready for delivery is closed**.
-/

import TrainsRing.Spec.Trains

namespace TrainsRing

set_option linter.unusedSectionVars false

namespace Spec

variable {Proc Message : Type} [Fintype Proc] [LinearOrder Proc] [DecidableEq Message]
  {c : Constants Proc Message} {s : Vars c}

namespace Vars

variable (s : Vars c)

/-- Every process in use has marked a key done. -/
def Settled (key : Nat × Proc) : Prop := ∀ p, p ∉ s.crashed → key ∈ s.doneKeys p

/-- A slot that may still be delivered: in mode TO, one whose issuer is in use. -/
def InPlay (t : c.TrainId) : Prop := c.mode = .to → c.owner t ∉ s.crashed

/-- The acks of a slot are those of the processes it has passed since it left its issuer. -/
def Route (t : c.TrainId) : Prop :=
  (s.tr t).acks = ∅ ∧ (s.tr t).pos = c.owner t ∨
    ∃ last, (∀ x, x ∈ (s.tr t).acks ↔ Arc c.size (c.place (c.owner t)) (c.place last) (c.place x)) ∧
      (s.tr t).pos = c.succ last

/-- The next tour of a slot. -/
def recycle (t : c.TrainId) : Vars c :=
  { s with
    tr := Function.update s.tr t (s.fresh t)
    issClk := Function.update s.issClk (s.tr t).issuer (s.issClk (s.tr t).issuer + 1)
    issuedKeys := s.issuedKeys ∪ {(s.fresh t).key} }

theorem Settled.of_le {s s' : Vars c} {key : Nat × Proc} (settled : s.Settled key)
    (crashed : s.crashed ⊆ s'.crashed) (done : ∀ p, p ∉ s'.crashed → s.doneKeys p ⊆ s'.doneKeys p) :
    s'.Settled key :=
  fun p live => done p live (settled p fun gone => live (crashed gone))

/-- **A slot that has come back where it was is full.** -/
theorem Route.full {s : Vars c} {t : c.TrainId} (route : s.Route t)
    (back : (s.tr t).pos ∈ (s.tr t).acks) : (s.tr t).acks = Finset.univ := by
  rcases route with ⟨empty, -⟩ | ⟨last, acks, pos⟩
  · rw [empty] at back
    exact absurd back (Finset.notMem_empty _)
  · have home : nextAlive c.size ∅ (c.place last) = c.place (c.owner t) := by
      by_contra onward
      rw [acks, pos, c.place_succ] at back
      exact not_arc_nextAlive (c.place_lt _) (Finset.notMem_empty _) (c.place_lt _) onward back
    refine Finset.eq_univ_of_forall fun x => (acks x).mpr ?_
    exact arc_full (c.place_lt _) (c.place_lt _) (c.place_lt _) (Finset.notMem_empty _) home

/-- **One hop** of a slot that is not full. -/
theorem Route.hop {s s' : Vars c} {t : c.TrainId} (route : s.Route t)
    (incomplete : (s.tr t).acks ≠ Finset.univ) (acks : (s'.tr t).acks = (s.tr t).acks ∪ {(s.tr t).pos})
    (pos : (s'.tr t).pos = c.succ (s.tr t).pos) : s'.Route t := by
  refine Or.inr ⟨(s.tr t).pos, fun x => ?_, pos⟩
  rw [acks, Finset.mem_union, Finset.mem_singleton]
  have away : (s.tr t).pos ∉ (s.tr t).acks := fun back => incomplete (route.full back)
  rcases route with ⟨empty, here⟩ | ⟨last, arc, here⟩
  · rw [empty, here, arc_self (c.place_lt _)]
    exact ⟨fun reached => congrArg c.place (reached.resolve_left (Finset.notMem_empty _)),
      fun same => Or.inr (c.place_injective same)⟩
  · have onward : nextAlive c.size ∅ (c.place last) ≠ c.place (c.owner t) := by
      intro home
      refine away ((arc _).mpr ?_)
      exact arc_full (c.place_lt _) (c.place_lt _) (c.place_lt _) (Finset.notMem_empty _) home
    rw [arc x, here, c.place_succ, arc_nextAlive (c.place_lt _) (Finset.notMem_empty _)
      (c.place_lt _) (c.place_lt _) (Finset.notMem_empty _) onward, ← c.place_succ]
    exact or_congr_right ⟨congrArg c.place, fun same => c.place_injective same⟩

/-- What passing a slot on does to it. -/
theorem pass_here (p : Proc) (t : c.TrainId) : ((Action.processTrain p t).apply s).tr t =
    { s.tr t with
      msgs := (s.tr t).msgs ∪ s.pending p
      acks := (s.tr t).acks ∪ {p}
      pos := c.succ p } := Function.update_self ..

/-- Passing a slot on changes no key and no issuer. -/
theorem pass_key (p : Proc) (t x : c.TrainId) :
    (((Action.processTrain p t).apply s).tr x).key = (s.tr x).key ∧
      (((Action.processTrain p t).apply s).tr x).issuer = (s.tr x).issuer := by
  by_cases same : x = t
  · rw [same, pass_here]
    exact ⟨rfl, rfl⟩
  · rw [show ((Action.processTrain p t).apply s).tr x = s.tr x from Function.update_of_ne same ..]
    exact ⟨rfl, rfl⟩

end Vars

/-- **The invariant of slots, clocks and keys.** -/
structure Books (s : Vars c) : Prop where
  issuer : ∀ t, (s.tr t).issuer = c.owner t
  clock : ∀ t, (s.tr t).clock = s.issClk (c.owner t)
  issued : ∀ t, (s.tr t).key ∈ s.issuedKeys
  bound : ∀ key ∈ s.issuedKeys, key.1 ≤ s.issClk key.2
  done : ∀ p, s.doneKeys p ⊆ s.issuedKeys
  route : ∀ t, s.InPlay t → s.Route t
  /-- The slot of an excluded issuer has been resolved, or was recycled where nobody takes it. -/
  dead : ∀ t, c.mode = .to → c.owner t ∈ s.crashed →
    s.Settled (s.tr t).key ∨ (s.tr t).acks = ∅ ∧ (s.tr t).pos = c.owner t
  alive : s.crashed.card < Fintype.card Proc

namespace Books

theorem init (c : Constants Proc Message) : Books (init c) where
  issuer := fun _ => rfl
  clock := fun _ => rfl
  issued := fun t => Finset.mem_image_of_mem _ (Finset.mem_univ t)
  bound := fun key member => by
    obtain ⟨t, -, rfl⟩ := Finset.mem_image.mp member
    exact le_rfl
  done := fun _ => Finset.empty_subset _
  route := fun _ _ => Or.inl ⟨rfl, rfl⟩
  dead := fun _ _ gone => absurd gone (Finset.notMem_empty _)
  alive := by
    have process := c.owner ⟨0, c.numTrains_pos⟩
    exact Finset.card_empty.trans_lt (Fintype.card_pos_iff.mpr ⟨process⟩)

variable (books : Books s)

include books

theorem exists_live : ∃ p, p ∉ s.crashed := by
  by_contra none
  have all : s.crashed = Finset.univ :=
    Finset.eq_univ_of_forall fun p => by_contra fun live => none ⟨p, live⟩
  exact books.alive.ne ((congrArg Finset.card all).trans Finset.card_univ)

theorem key_eq (t : c.TrainId) : (s.tr t).key = (s.issClk (c.owner t), c.owner t) :=
  Prod.ext (books.clock t) (books.issuer t)

/-- Slots have different keys. -/
theorem key_injective {t t' : c.TrainId} (same : (s.tr t).key = (s.tr t').key) : t = t' := by
  rw [books.key_eq, books.key_eq] at same
  exact c.owner_injective (congrArg Prod.snd same)

theorem fresh_key (t : c.TrainId) :
    (s.fresh t).key = (s.issClk (c.owner t) + 1, c.owner t) := by
  refine Prod.ext ?_ (books.issuer t)
  show s.issClk (s.tr t).issuer + 1 = _
  rw [books.issuer]

/-- A key above the clock of its issuer is new. -/
theorem fresh_not_issued (q : Proc) : (s.issClk q + 1, q) ∉ s.issuedKeys := fun member =>
  absurd (books.bound _ member) (Nat.not_succ_le_self _)

/-- **A slot that is ready for delivery is closed**: no process in use holds it. -/
theorem closed {t : c.TrainId} {p : Proc} (inPlay : s.InPlay t)
    (ready : s.requiredAcks ⊆ (s.tr t).acks) (live : p ∉ s.crashed) (holds : (s.tr t).pos = p) :
    (s.tr t).acks = Finset.univ := by
  refine (books.route t inPlay).full (ready ?_)
  rw [holds, Vars.requiredAcks, Vars.live]
  split_ifs
  · exact Finset.mem_sdiff.mpr ⟨Finset.mem_univ p, live⟩
  · exact Finset.mem_univ p

/-- A slot with the acks required has been settled, or it is still in play. -/
theorem settled_or_inPlay {t : c.TrainId} (ready : s.requiredAcks ⊆ (s.tr t).acks) :
    s.Settled (s.tr t).key ∨ s.InPlay t := by
  by_cases gone : c.mode = .to ∧ c.owner t ∈ s.crashed
  · refine (books.dead t gone.1 gone.2).imp_right fun ⟨empty, _⟩ => ?_
    obtain ⟨p, live⟩ := books.exists_live
    rw [Vars.requiredAcks, if_pos gone.1, empty] at ready
    exact absurd (ready (Finset.mem_sdiff.mpr ⟨Finset.mem_univ p, live⟩)) (Finset.notMem_empty p)
  · exact Or.inr fun mode crashed => gone ⟨mode, crashed⟩

/-! ### Steps -/

/-- Marking issued keys done, whatever is delivered. -/
theorem mark {done : Proc → Finset (Nat × Proc)} (grows : ∀ p, s.doneKeys p ⊆ done p)
    (issued : ∀ p, done p ⊆ s.issuedKeys) (delivered : Proc → List Message) :
    Books { s with doneKeys := done, delivered } where
  issuer := books.issuer
  clock := books.clock
  issued := books.issued
  bound := books.bound
  done := issued
  route := books.route
  dead := fun t mode gone => (books.dead t mode gone).imp_left fun settled =>
    settled.of_le subset_rfl fun p _ => grows p
  alive := books.alive

/-- **The next tour of a slot.** -/
theorem recycle (t : c.TrainId) : Books (s.recycle t) := by
  have stamp : ∀ q, s.issClk q ≤ (s.recycle t).issClk q := by
    intro q
    show _ ≤ Function.update s.issClk _ _ q
    by_cases same : q = (s.tr t).issuer
    · rw [same, Function.update_self]
      exact Nat.le_succ _
    · rw [Function.update_of_ne same]
  have here : (s.recycle t).tr t = s.fresh t := Function.update_self ..
  have elsewhere : ∀ x, x ≠ t → (s.recycle t).tr x = s.tr x := fun x other =>
    Function.update_of_ne other ..
  refine ⟨fun x => ?_, fun x => ?_, fun x => ?_, fun key member => ?_, fun p => ?_, fun x inPlay => ?_,
    fun x mode gone => ?_, books.alive⟩
  · by_cases same : x = t
    · rw [same, here]
      exact books.issuer t
    · rw [elsewhere x same]
      exact books.issuer x
  · show _ = Function.update s.issClk _ _ _
    rw [books.issuer]
    by_cases same : x = t
    · rw [same, here, Function.update_self]
      exact congrArg Prod.fst (books.fresh_key t)
    · rw [elsewhere x same, Function.update_of_ne fun equal => same (c.owner_injective equal)]
      exact books.clock x
  · by_cases same : x = t
    · rw [same, here]
      exact Finset.mem_union_right _ (Finset.mem_singleton_self _)
    · rw [elsewhere x same]
      exact Finset.mem_union_left _ (books.issued x)
  · rcases Finset.mem_union.mp member with old | new
    · exact (books.bound key old).trans (stamp _)
    · rw [Finset.mem_singleton.mp new]
      exact (Function.update_self (s.tr t).issuer _ s.issClk).ge
  · exact (books.done p).trans Finset.subset_union_left
  · by_cases same : x = t
    · rw [same]
      exact Or.inl ⟨congrArg TrainRec.acks here,
        (congrArg TrainRec.pos here).trans (books.issuer t)⟩
    · have route := books.route x inPlay
      unfold Vars.Route at route ⊢
      rwa [elsewhere x same]
  · by_cases same : x = t
    · rw [same]
      exact Or.inr ⟨congrArg TrainRec.acks here,
        (congrArg TrainRec.pos here).trans (books.issuer t)⟩
    · rw [elsewhere x same]
      exact books.dead x mode gone

/-- **A process in use passes a slot on.** -/
theorem pass {p : Proc} {t : c.TrainId} (live : p ∉ s.crashed) (holds : (s.tr t).pos = p)
    (incomplete : (s.tr t).acks ≠ Finset.univ) : Books ((Action.processTrain p t).apply s) := by
  have here := Vars.pass_here s p t
  have elsewhere : ∀ x, x ≠ t → ((Action.processTrain p t).apply s).tr x = s.tr x := fun x other =>
    Function.update_of_ne other ..
  have key := Vars.pass_key s p t
  refine ⟨fun x => (key x).2.trans (books.issuer x), fun x => ?_, fun x => ?_, books.bound, books.done,
    fun x inPlay => ?_, fun x mode gone => ?_, books.alive⟩
  · exact (congrArg Prod.fst (key x).1).trans (books.clock x)
  · rw [(key x).1]
    exact books.issued x
  · by_cases same : x = t
    · subst same
      exact (books.route x inPlay).hop incomplete (by rw [here, holds]) (by rw [here, holds])
    · have route := books.route x inPlay
      unfold Vars.Route at route ⊢
      rwa [elsewhere x same]
  · rw [(key x).1]
    refine (books.dead x mode gone).imp_right fun ⟨empty, home⟩ => ?_
    have other : x ≠ t := by
      rintro rfl
      exact live (holds ▸ home ▸ gone)
    rw [elsewhere x other]
    exact ⟨empty, home⟩

/-- **A new view**, whose members mark all issued keys done. -/
theorem install {members crashed : Finset Proc} (canon : Proc) (nonempty : members.Nonempty)
    (outside : ∀ p, p ∈ crashed ↔ p ∉ members) : Books (s.installView members canon crashed) := by
  have inside : ∀ t, t ∈ s.slotsOf members ↔ c.owner t ∈ members := fun t => by
    rw [Vars.slotsOf, Finset.mem_filter, books.issuer]
    exact and_iff_right (Finset.mem_univ t)
  have kept : ∀ t, c.owner t ∉ members → (s.installView members canon crashed).tr t = s.tr t :=
    fun t out => if_neg fun member => out ((inside t).mp member)
  have renewed : ∀ t, c.owner t ∈ members →
      (s.installView members canon crashed).tr t = s.fresh t :=
    fun t member => if_pos ((inside t).mpr member)
  have stamp : ∀ q, s.issClk q ≤ (s.installView members canon crashed).issClk q := by
    intro q
    show _ ≤ ite _ _ _
    split_ifs
    · exact Nat.le_succ _
    · exact le_rfl
  have ticked : ∀ t, c.owner t ∈ members → (s.installView members canon crashed).issClk (c.owner t) =
      s.issClk (c.owner t) + 1 := fun t member => if_pos ⟨member, c.owner_mem t⟩
  have settled : ∀ key ∈ s.issuedKeys, (s.installView members canon crashed).Settled key := by
    intro key member p live
    have inView : p ∈ members := by_contra fun out => live ((outside p).mpr out)
    show key ∈ ite _ _ _
    rw [if_pos inView]
    exact Finset.mem_union_right _ member
  refine ⟨fun t => ?_, fun t => ?_, fun t => ?_, fun key member => ?_, fun p => ?_, fun t inPlay => ?_,
    fun t mode gone => Or.inl ?_, ?_⟩
  · by_cases member : c.owner t ∈ members
    · rw [renewed t member]
      exact books.issuer t
    · rw [kept t member]
      exact books.issuer t
  · by_cases member : c.owner t ∈ members
    · rw [renewed t member, ticked t member]
      exact congrArg Prod.fst (books.fresh_key t)
    · rw [kept t member]
      exact (books.clock t).trans (if_neg fun both => member both.1).symm
  · by_cases member : c.owner t ∈ members
    · rw [renewed t member]
      refine Finset.mem_union_right _ (Finset.mem_image.mpr ⟨t, (inside t).mpr member, rfl⟩)
    · rw [kept t member]
      exact Finset.mem_union_left _ (books.issued t)
  · rcases Finset.mem_union.mp member with old | new
    · exact (books.bound key old).trans (stamp _)
    · obtain ⟨t, slot, rfl⟩ := Finset.mem_image.mp new
      rw [books.issuer]
      exact (ticked t ((inside t).mp slot)).ge
  · show (if p ∈ members then s.doneKeys canon ∪ s.issuedKeys else s.doneKeys p) ⊆ _
    split_ifs
    · exact Finset.union_subset ((books.done _).trans Finset.subset_union_left)
        Finset.subset_union_left
    · exact (books.done p).trans Finset.subset_union_left
  · by_cases member : c.owner t ∈ members
    · have slot := renewed t member
      exact Or.inl ⟨congrArg TrainRec.acks slot, (congrArg TrainRec.pos slot).trans (books.issuer t)⟩
    · have route := books.route t fun mode => absurd ((outside _).mpr member) (inPlay mode)
      unfold Vars.Route at route ⊢
      rwa [kept t member]
  · rw [kept t ((outside _).mp gone)]
    exact settled _ (books.issued t)
  · obtain ⟨p, member⟩ := nonempty
    refine Finset.card_lt_univ_of_notMem (x := p) fun gone => (outside p).mp gone member

omit books in
theorem members_exclude {crashed : Finset Proc} (victim : Proc)
    (few : crashed.card < Fintype.card Proc - 1) :
    (Finset.univ \ insert victim crashed).Nonempty ∧
      ∀ p, p ∈ insert victim crashed ↔ p ∉ Finset.univ \ insert victim crashed := by
  refine ⟨?_, fun p => by simp [or_iff_not_imp_left]⟩
  rw [← Finset.card_pos, Finset.card_sdiff_of_subset (Finset.subset_univ _), Finset.card_univ]
  have more := Finset.card_insert_le victim crashed
  omega

omit books in
theorem members_rejoin (crashed : Finset Proc) (rejoiner : Proc) :
    (insert rejoiner (Finset.univ \ crashed)).Nonempty ∧
      ∀ p, p ∈ crashed.erase rejoiner ↔ p ∉ insert rejoiner (Finset.univ \ crashed) :=
  ⟨Finset.insert_nonempty .., fun p => by simp [not_or]⟩

/-- **Every action keeps the books.** -/
theorem step {action : Action c} (enabled : action.Enabled s) : Books (action.apply s) := by
  cases action with
  | appBroadcast p m =>
    exact ⟨books.issuer, books.clock, books.issued, books.bound, books.done, books.route, books.dead,
      books.alive⟩
  | processTrain p t => exact books.pass enabled.1 enabled.2.1 enabled.2.2
  | deliverTrain p t =>
    refine books.mark (fun q => ?_) (fun q => ?_) _
    · by_cases same : q = p
      · rw [same, Function.update_self]
        exact Finset.subset_union_left
      · rw [Function.update_of_ne same]
    · by_cases same : q = p
      · rw [same, Function.update_self]
        exact Finset.union_subset (books.done p) (Finset.singleton_subset_iff.mpr (books.issued t))
      · rw [Function.update_of_ne same]
        exact books.done q
  | recycleTrain t => exact books.recycle t
  | recycleEmptyTrain t =>
    refine (books.recycle t).mark (fun p => ?_) (fun p => ?_) s.delivered
    · show s.doneKeys p ⊆ _
      split_ifs
      · exact subset_rfl
      · exact Finset.subset_union_left
    · have old := (books.recycle t).done p
      split_ifs
      · exact old
      · exact Finset.union_subset old
          (Finset.singleton_subset_iff.mpr (Finset.mem_union_left _ (books.issued t)))
  | crashProcess p =>
    obtain ⟨mode, live, few⟩ := enabled
    have grown : s.crashed ⊆ s.crashed ∪ {p} := Finset.subset_union_left
    have uto : c.mode ≠ .to := fun same => by rw [mode] at same; cases same
    refine ⟨books.issuer, books.clock, books.issued, books.bound, books.done,
      fun t _ => books.route t fun same => absurd same uto, fun t same => absurd same uto, ?_⟩
    show (s.crashed ∪ {p}).card < _
    have more := Finset.card_union_le s.crashed {p}
    rw [Finset.card_singleton] at more
    omega
  | reconfigure victim canon =>
    obtain ⟨-, -, few, -, -⟩ := enabled
    exact books.install canon (members_exclude victim few).1 (members_exclude victim few).2
  | reAdmit rejoiner canon =>
    have installed := books.install canon (members_rejoin s.crashed rejoiner).1
      (members_rejoin s.crashed rejoiner).2
    exact ⟨installed.issuer, installed.clock, installed.issued, installed.bound, installed.done,
      installed.route, installed.dead, installed.alive⟩

end Books

end Spec

end TrainsRing
