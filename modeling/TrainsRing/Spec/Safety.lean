/-
**The safety properties of the specification**, for every ring, any number of trains, every bound and
both modes.

The loads delivered so far form one history, and every process has delivered a front part of it. A
process can deliver only the load that comes next in the history or, when it has delivered all of it,
one that may be appended: a key below it has been delivered before, is settled, or belongs to an
excluded issuer and is never delivered.

* `History` — the invariant. It does not order the history by keys: a rejoiner may come back with
  smaller ones.
* `History.deliver`, `History.recycle`, `History.mark`, `History.install` — what the actions do to it.
* `mutual_prefixes` — **`ConsistentDelivery`**.
* `safety_invariants` — **the other invariants of the specification**.
-/

import TrainsRing.Spec.Books

namespace TrainsRing

set_option linter.unusedSectionVars false

namespace Spec

variable {Proc Message : Type} [Fintype Proc] [LinearOrder Proc] [DecidableEq Message]
  {c : Constants Proc Message} {s : Vars c}

/-- All processes in use mark a key done. -/
def Vars.markAll (s : Vars c) (key : Nat × Proc) : Vars c :=
  { s with doneKeys := fun p => if p ∈ s.crashed then s.doneKeys p else s.doneKeys p ∪ {key} }

/-- A key and the messages delivered under it. -/
abbrev Chunk (Proc Message : Type) := (Nat × Proc) × Finset Message

/-- What is appended to a log by some deliveries. -/
def contents (c : Constants Proc Message) (history : List (Chunk Proc Message)) : List Message :=
  history.flatMap fun chunk => c.msgsToSeq chunk.2

theorem contents_append (c : Constants Proc Message) (front back : List (Chunk Proc Message)) :
    contents c (front ++ back) = contents c front ++ contents c back := List.flatMap_append

/-- Front parts of one history have logs of which one is a prefix of the other. -/
theorem contents_take_le (c : Constants Proc Message) (history : List (Chunk Proc Message))
    {i j : Nat} (before : i ≤ j) : contents c (history.take i) <+: contents c (history.take j) := by
  obtain ⟨rest, split⟩ := List.take_prefix_take_left (l := history) before
  rw [← split, contents_append]
  exact List.prefix_append _ _

/-- A longer front part has a longer log, since no load is empty. -/
theorem contents_take_lt (c : Constants Proc Message) {history : List (Chunk Proc Message)}
    (loaded : ∀ chunk ∈ history, chunk.2 ≠ ∅) {i : Nat} (before : i < history.length) :
    (contents c (history.take i)).length < (contents c history).length := by
  have split : history = history.take i ++ history[i] :: history.drop (i + 1) := by
    rw [List.cons_getElem_drop_succ, List.take_append_drop]
  have filled := c.msgsToSeq_ne_nil (loaded _ (List.getElem_mem before))
  have positive := List.length_pos_iff.mpr filled
  have lengths := congrArg (fun list => (contents c list).length) split
  simp only [contents, List.flatMap_append, List.flatMap_cons, List.length_append] at lengths ⊢
  omega

/-! ### What a delivery changes -/

namespace Vars

variable {p : Proc} {t : c.TrainId}

theorem mem_doneKeys_deliver (s : Vars c) {q : Proc} {key : Nat × Proc} :
    key ∈ ((Action.deliverTrain p t).apply s).doneKeys q ↔
      key ∈ s.doneKeys q ∨ q = p ∧ key = (s.tr t).key := by
  show key ∈ Function.update s.doneKeys p _ q ↔ _
  by_cases same : q = p
  · rw [same, Function.update_self, Finset.mem_union, Finset.mem_singleton, and_iff_right rfl]
  · rw [Function.update_of_ne same]
    exact (or_iff_left fun both => same both.1).symm

theorem Settled.deliver {key : Nat × Proc} (settled : s.Settled key) (p : Proc) (t : c.TrainId) :
    ((Action.deliverTrain p t).apply s).Settled key :=
  fun q live => s.mem_doneKeys_deliver.mpr (Or.inl (settled q live))

theorem delivered_deliver_self (s : Vars c) : ((Action.deliverTrain p t).apply s).delivered p =
    s.delivered p ++ c.msgsToSeq (s.tr t).msgs := Function.update_self ..

theorem delivered_deliver_of_ne (s : Vars c) (t : c.TrainId) {q : Proc} (other : q ≠ p) :
    ((Action.deliverTrain p t).apply s).delivered q = s.delivered q := Function.update_of_ne other ..

end Vars

/-! ### The history -/

/-- **The invariant of deliveries.** `count p` of the history has been delivered by `p`. -/
structure History (s : Vars c) (history : List (Chunk Proc Message)) (count : Proc → Nat) : Prop where
  logs : ∀ p, s.delivered p = contents c (history.take (count p))
  count_le : ∀ p, count p ≤ history.length
  loaded : ∀ chunk ∈ history, chunk.2 ≠ ∅
  keys : ∀ chunk ∈ history, chunk.1 ∈ s.issuedKeys
  distinct : (history.map Prod.fst).Nodup
  done_iff : ∀ p, p ∉ s.crashed → ∀ i chunk, history[i]? = some chunk →
    (chunk.1 ∈ s.doneKeys p ↔ i < count p)
  done_cases : ∀ p, p ∉ s.crashed → ∀ key ∈ s.doneKeys p,
    (∃ chunk ∈ history, chunk.1 = key) ∨ s.Settled key
  /-- What is below a load that somebody still has to deliver. -/
  below : ∀ front chunk back, history = front ++ chunk :: back → ¬ s.Settled chunk.1 →
    ∀ key ∈ s.issuedKeys, ckLt key chunk.1 →
      (∃ earlier ∈ front, earlier.1 = key) ∨ s.Settled key ∨ c.mode = .to ∧ key.2 ∈ s.crashed
  /-- The issuers in use are past it. -/
  ahead : ∀ chunk ∈ history, ¬ s.Settled chunk.1 →
    ∀ q ∈ c.issuers, (c.mode = .to → q ∉ s.crashed) → chunk.1.1 ≤ s.issClk q
  /-- A slot that has been delivered is closed and carries what was delivered. -/
  cargo : ∀ chunk ∈ history, ∀ t, s.InPlay t → (s.tr t).key = chunk.1 →
    s.requiredAcks ⊆ (s.tr t).acks ∧ (s.tr t).msgs = chunk.2
  /-- In mode TO some process in use has delivered everything. -/
  full : c.mode = .to → ∃ p, p ∉ s.crashed ∧ count p = history.length

namespace History

theorem init (c : Constants Proc Message) : History (init c) [] fun _ => 0 where
  logs := fun _ => rfl
  count_le := fun _ => le_rfl
  loaded := fun _ member => absurd member List.not_mem_nil
  keys := fun _ member => absurd member List.not_mem_nil
  distinct := List.nodup_nil
  done_iff := fun _ _ _ _ none => absurd none (by simp)
  done_cases := fun _ _ _ member => absurd member (Finset.notMem_empty _)
  below := fun front _ _ split => absurd split (by simp)
  ahead := fun _ member => absurd member List.not_mem_nil
  cargo := fun _ member => absurd member List.not_mem_nil
  full := fun _ => ⟨c.owner ⟨0, c.numTrains_pos⟩, Finset.notMem_empty _, rfl⟩

variable {history : List (Chunk Proc Message)} {count : Proc → Nat} (holds : History s history count)

include holds

/-- The logs are prefixes of one another. -/
theorem comparable (p q : Proc) :
    s.delivered p <+: s.delivered q ∨ s.delivered q <+: s.delivered p := by
  rw [holds.logs, holds.logs]
  exact (le_total (count p) (count q)).imp (contents_take_le c history)
    (contents_take_le c history)

/-- A process in use has marked a delivered key done once it has delivered it. -/
theorem mem_done {p : Proc} (live : p ∉ s.crashed) {i : Nat} (inside : i < history.length) :
    history[i].1 ∈ s.doneKeys p ↔ i < count p :=
  holds.done_iff p live i history[i] (List.getElem?_eq_getElem inside)

/-- A process that has marked a load of the history done has it in its front part. -/
theorem mem_take {p : Proc} (live : p ∉ s.crashed) {chunk : Chunk Proc Message}
    (member : chunk ∈ history) : chunk.1 ∈ s.doneKeys p ↔ chunk ∈ history.take (count p) := by
  obtain ⟨i, inside, rfl⟩ := List.mem_iff_getElem.mp member
  rw [holds.mem_done live inside, List.mem_take_iff_getElem]
  constructor
  · exact fun before => ⟨i, lt_min before inside, rfl⟩
  · rintro ⟨j, bound, same⟩
    have keys := congrArg Prod.fst same
    rw [← List.getElem_map Prod.fst (h := by rw [List.length_map]; omega),
      ← List.getElem_map Prod.fst (h := by rwa [List.length_map])] at keys
    rw [← (holds.distinct.getElem_inj_iff ..).mp keys]
    exact (lt_min_iff.mp bound).1

/-- The log of a most advanced process is the whole history, in mode TO. -/
theorem count_canon (mode : c.mode = .to) {canon : Proc}
    (most : s.MostAdvanced (Finset.univ \ s.crashed) canon) : count canon = history.length := by
  obtain ⟨p, live, all⟩ := holds.full mode
  have longest := most.2 p (Finset.mem_sdiff.mpr ⟨Finset.mem_univ p, live⟩)
  rw [holds.logs, holds.logs, all, List.take_length] at longest
  by_contra fewer
  have shorter := contents_take_lt c holds.loaded (lt_of_le_of_ne (holds.count_le canon) fewer)
  omega

/-! ### Steps -/

/-- A step after which the keys, the crashes and the logs are as before. -/
theorem keep {s' : Vars c} (delivered : s'.delivered = s.delivered)
    (doneKeys : s'.doneKeys = s.doneKeys) (crashed : s'.crashed = s.crashed)
    (issuedKeys : s'.issuedKeys = s.issuedKeys) (issClk : s'.issClk = s.issClk)
    (cargo : ∀ chunk ∈ history, ∀ t, s'.InPlay t → (s'.tr t).key = chunk.1 →
      s'.requiredAcks ⊆ (s'.tr t).acks ∧ (s'.tr t).msgs = chunk.2) : History s' history count := by
  have settled : ∀ key, s'.Settled key ↔ s.Settled key := fun key => by
    unfold Vars.Settled
    rw [crashed, doneKeys]
  refine ⟨fun p => ?_, holds.count_le, holds.loaded, ?_, holds.distinct, ?_, ?_, ?_, ?_, cargo, ?_⟩
  · rw [delivered]
    exact holds.logs p
  · rw [issuedKeys]
    exact holds.keys
  · rw [crashed, doneKeys]
    exact holds.done_iff
  · rw [crashed, doneKeys]
    simp only [settled]
    exact holds.done_cases
  · rw [crashed, issuedKeys]
    simp only [settled]
    exact holds.below
  · rw [crashed, issClk]
    simp only [settled]
    exact holds.ahead
  · rw [crashed]
    exact holds.full

/-- **A process in use passes a slot on**: a slot that has been delivered is closed. -/
theorem pass (books : Books s) {p : Proc} {t : c.TrainId} (live : p ∉ s.crashed)
    (standing : (s.tr t).pos = p) (incomplete : (s.tr t).acks ≠ Finset.univ) :
    History ((Action.processTrain p t).apply s) history count := by
  refine holds.keep rfl rfl rfl rfl rfl fun chunk member x inPlay key => ?_
  by_cases same : x = t
  · subst same
    have closed := holds.cargo chunk member x inPlay ((s.pass_key p x x).1.symm.trans key)
    exact absurd (books.closed inPlay closed.1 live standing) incomplete
  · have slot : ((Action.processTrain p t).apply s).tr x = s.tr x := Function.update_of_ne same ..
    rw [slot] at key ⊢
    exact holds.cargo chunk member x inPlay key

/-- **The next tour of a slot**: its new key is above all that somebody still has to deliver. -/
theorem recycle (books : Books s) (t : c.TrainId) : History (s.recycle t) history count := by
  have stamp := books.fresh_key t
  refine ⟨holds.logs, holds.count_le, holds.loaded, fun chunk member => ?_, holds.distinct,
    holds.done_iff, holds.done_cases, fun front chunk back split behind key issued less => ?_,
    fun chunk member behind q issuer inUse => ?_, fun chunk member x inPlay key => ?_, holds.full⟩
  · exact Finset.mem_union_left _ (holds.keys chunk member)
  · rcases Finset.mem_union.mp issued with old | new
    · exact holds.below front chunk back split behind key old less
    · -- the issuer of the new key is excluded, or its clock is past the load
      rw [Finset.mem_singleton.mp new, stamp] at less ⊢
      by_cases gone : c.mode = .to ∧ c.owner t ∈ s.crashed
      · exact Or.inr (Or.inr gone)
      · have past := holds.ahead chunk (split ▸ List.mem_append_right _ List.mem_cons_self) behind
          (c.owner t) (c.owner_mem t) fun mode crashed => gone ⟨mode, crashed⟩
        exact absurd (ckLt_clock_le less) (by simpa using past)
  · refine (holds.ahead chunk member behind q issuer inUse).trans ?_
    show _ ≤ Function.update s.issClk _ _ q
    by_cases same : q = (s.tr t).issuer
    · rw [same, Function.update_self]
      exact Nat.le_succ _
    · rw [Function.update_of_ne same]
  · by_cases same : x = t
    · subst same
      rw [show (s.recycle x).tr x = s.fresh x from Function.update_self .., stamp] at key
      exact absurd (key ▸ holds.keys chunk member) (books.fresh_not_issued _)
    · have slot : (s.recycle t).tr x = s.tr x := Function.update_of_ne same ..
      rw [slot] at key ⊢
      exact holds.cargo chunk member x inPlay key

/-- **An empty tour is marked done** by all processes in use: its key is not in the history, or they
have marked it before. -/
theorem mark {key : Nat × Proc}
    (apart : s.Settled key ∨ ∀ chunk ∈ history, chunk.1 ≠ key) :
    History (s.markAll key) history count := by
  have marked : ∀ p, p ∉ s.crashed → ∀ k,
      (k ∈ (s.markAll key).doneKeys p ↔ k ∈ s.doneKeys p ∨ k = key) := fun p live k => by
    rw [show (s.markAll key).doneKeys p = s.doneKeys p ∪ {key} from if_neg live, Finset.mem_union,
      Finset.mem_singleton]
  have settles : ∀ k, s.Settled k → (s.markAll key).Settled k := fun k settled p live =>
    (marked p live k).mpr (Or.inl (settled p live))
  refine ⟨holds.logs, holds.count_le, holds.loaded, holds.keys, holds.distinct,
    fun p live i chunk here => ?_, fun p live k member => ?_,
    fun front chunk back split behind k issued less => ?_,
    fun chunk member behind => holds.ahead chunk member fun settled => behind (settles _ settled),
    holds.cargo, holds.full⟩
  · refine (marked p live chunk.1).trans (Iff.trans ?_ (holds.done_iff p live i chunk here))
    refine or_iff_left_of_imp fun same => ?_
    rcases apart with settled | other
    · exact same ▸ settled p live
    · exact absurd same (other chunk (List.mem_of_getElem? here))
  · rcases (marked p live k).mp member with old | rfl
    · exact (holds.done_cases p live k old).imp_right (settles k)
    · exact Or.inr fun q liveToo => (marked q liveToo k).mpr (Or.inr rfl)
  · exact (holds.below front chunk back split (fun settled => behind (settles _ settled)) k issued
      less).imp_right (Or.imp_left (settles k))

/-- **A new view**, whose members adopt the whole history. -/
theorem install (books : Books s) {members crashed : Finset Proc} {canon : Proc}
    (nonempty : members.Nonempty) (outside : ∀ p, p ∈ crashed ↔ p ∉ members) (mode : c.mode = .to)
    (all : count canon = history.length) : History (s.installView members canon crashed) history
      fun p => if p ∈ members then history.length else count p := by
  have inside : ∀ p, p ∉ crashed → p ∈ members := fun p live =>
    by_contra fun out => live ((outside p).mpr out)
  have settled : ∀ key ∈ s.issuedKeys, (s.installView members canon crashed).Settled key := by
    intro key member p live
    show key ∈ ite _ _ _
    rw [if_pos (inside p live)]
    exact Finset.mem_union_right _ member
  refine ⟨fun p => ?_, fun p => ?_, holds.loaded, fun chunk member => ?_, holds.distinct,
    fun p live i chunk here => ?_, fun p live key member => Or.inr ?_,
    fun front chunk back split behind => ?_, fun chunk member behind => ?_,
    fun chunk member t inPlay key => ?_, fun _ => ?_⟩
  · show (if p ∈ members then s.delivered canon else s.delivered p) = _
    split_ifs
    · rw [holds.logs, all]
    · exact holds.logs p
  · split_ifs
    · exact le_rfl
    · exact holds.count_le p
  · exact Finset.mem_union_left _ (holds.keys chunk member)
  · obtain ⟨bound, rfl⟩ := List.getElem?_eq_some_iff.mp here
    rw [if_pos (inside p live)]
    exact iff_of_true (settled _ (holds.keys _ (List.getElem_mem bound)) p live) bound
  · rw [show (s.installView members canon crashed).doneKeys p = s.doneKeys canon ∪ s.issuedKeys from
      if_pos (inside p live)] at member
    exact settled key (Finset.union_subset (books.done canon) subset_rfl member)
  · refine absurd (settled _ (holds.keys chunk ?_)) behind
    rw [split]
    exact List.mem_append_right _ List.mem_cons_self
  · exact absurd (settled _ (holds.keys chunk member)) behind
  · -- a slot in play has a new key
    have slot : (s.installView members canon crashed).tr t = s.fresh t := by
      refine if_pos ?_
      rw [Vars.slotsOf, Finset.mem_filter, books.issuer]
      exact ⟨Finset.mem_univ t, inside _ (inPlay mode)⟩
    rw [slot, books.fresh_key] at key
    exact absurd (key ▸ holds.keys chunk member) (books.fresh_not_issued _)
  · obtain ⟨p, member⟩ := nonempty
    exact ⟨p, fun gone => (outside p).mp gone member, if_pos member⟩

/-- **The next load of a process** that has not delivered all of the history is the one it is about to
deliver. -/
theorem next_eq {p : Proc} {t : c.TrainId} (live : p ∉ s.crashed) (inPlay : s.InPlay t)
    (issuer : (s.tr t).issuer = c.owner t) (issued : (s.tr t).key ∈ s.issuedKeys)
    (new : (s.tr t).key ∉ s.doneKeys p) (prior : s.AllPriorDelivered p (s.tr t).key)
    (more : count p < history.length) : history[count p].1 = (s.tr t).key := by
  have behind : history[count p].1 ∉ s.doneKeys p := fun done =>
    lt_irrefl _ ((holds.mem_done live more).mp done)
  rcases ckLt_trichotomy history[count p].1 (s.tr t).key with less | same | greater
  · exact absurd (prior.1 _ (holds.keys _ (List.getElem_mem more)) less) behind
  · exact same
  · have split : history = history.take (count p) ++ history[count p] :: history.drop (count p + 1) := by
      rw [List.cons_getElem_drop_succ, List.take_append_drop]
    rcases holds.below _ _ _ split (fun settled => behind (settled p live)) _ issued greater with
      ⟨earlier, member, same⟩ | settled | ⟨mode, gone⟩
    · exact absurd (same ▸ (holds.mem_take live (List.mem_of_mem_take member)).mpr member) new
    · exact absurd (settled p live) new
    · exact absurd (issuer ▸ gone) (inPlay mode)

/-- **A process delivers the load that comes next in the history.** -/
theorem deliver_next {p : Proc} {t : c.TrainId} (more : count p < history.length)
    (next : history[count p] = ((s.tr t).key, (s.tr t).msgs)) :
    History ((Action.deliverTrain p t).apply s) history (Function.update count p (count p + 1)) := by
  have key : history[count p].1 = (s.tr t).key := congrArg Prod.fst next
  refine ⟨fun q => ?_, fun q => ?_, holds.loaded, holds.keys, holds.distinct,
    fun q live i chunk here => ?_, fun q live key member => ?_,
    fun front chunk back split behind key old less => ?_,
    fun chunk member behind => holds.ahead chunk member fun settled => behind (settled.deliver p t),
    holds.cargo, fun mode => ?_⟩
  · by_cases same : q = p
    · rw [same, s.delivered_deliver_self, Function.update_self, holds.logs,
        ← List.take_concat_get' history (count p) more, contents_append, next]
      simp [contents]
    · rw [s.delivered_deliver_of_ne t same, Function.update_of_ne same]
      exact holds.logs q
  · by_cases same : q = p
    · rw [same, Function.update_self]
      exact more
    · rw [Function.update_of_ne same]
      exact holds.count_le q
  · rw [s.mem_doneKeys_deliver, holds.done_iff q live i chunk here]
    by_cases same : q = p
    · rw [same, Function.update_self, Nat.lt_succ_iff_lt_or_eq, ← key]
      refine or_congr_right ⟨fun ⟨_, key⟩ => ?_, fun equal => ⟨rfl, ?_⟩⟩
      · obtain ⟨bound, rfl⟩ := List.getElem?_eq_some_iff.mp here
        rw [← List.getElem_map Prod.fst (h := by rwa [List.length_map]),
          ← List.getElem_map Prod.fst (h := by rwa [List.length_map])] at key
        exact (holds.distinct.getElem_inj_iff ..).mp key
      · subst equal
        exact congrArg Prod.fst
          (Option.some.inj (here.symm.trans (List.getElem?_eq_getElem more)))
    · rw [Function.update_of_ne same]
      exact or_iff_left fun both => same both.1
  · rcases s.mem_doneKeys_deliver.mp member with old | ⟨-, rfl⟩
    · exact (holds.done_cases q live key old).imp_right fun settled => settled.deliver p t
    · exact Or.inl ⟨_, List.getElem_mem more, key⟩
  · exact (holds.below front chunk back split (fun settled => behind (settled.deliver p t)) key old
      less).imp_right (Or.imp_left fun settled => settled.deliver p t)
  · obtain ⟨q, live, whole⟩ := holds.full mode
    refine ⟨q, live, ?_⟩
    rw [Function.update_of_ne fun same => by rw [same] at whole; omega]
    exact whole

/-- A key that a process with the whole history has not done is that of no load of the history. -/
theorem unheard {p : Proc} (live : p ∉ s.crashed) (all : count p = history.length)
    {key : Nat × Proc} (new : key ∉ s.doneKeys p) : ∀ chunk ∈ history, chunk.1 ≠ key := by
  rintro chunk member same
  refine new (same ▸ (holds.mem_take live member).mpr ?_)
  rwa [all, List.take_length]

/-- So nobody in use has done it. -/
theorem unmarked {p : Proc} (live : p ∉ s.crashed) (all : count p = history.length)
    {key : Nat × Proc} (new : key ∉ s.doneKeys p) (q : Proc) (liveToo : q ∉ s.crashed) :
    key ∉ s.doneKeys q := by
  intro member
  rcases holds.done_cases q liveToo _ member with ⟨chunk, inside, same⟩ | settled
  · exact holds.unheard live all new chunk inside same
  · exact new (settled p live)

/-- Who has done a load when `p`, with the whole history, has appended its own. -/
theorem done_append {p : Proc} {t : c.TrainId} (live : p ∉ s.crashed) (all : count p = history.length)
    (new : (s.tr t).key ∉ s.doneKeys p) (q : Proc) (liveToo : q ∉ s.crashed) (i : Nat)
    (chunk : Chunk Proc Message)
    (here : (history ++ [((s.tr t).key, (s.tr t).msgs)])[i]? = some chunk) :
    chunk.1 ∈ ((Action.deliverTrain p t).apply s).doneKeys q ↔
      i < Function.update count p (history.length + 1) q := by
  rw [s.mem_doneKeys_deliver]
  rcases Nat.lt_or_ge i history.length with inside | beyond
  · rw [List.getElem?_append_left inside] at here
    have other := holds.unheard live all new chunk (List.mem_of_getElem? here)
    rw [holds.done_iff q liveToo i chunk here, or_iff_left fun both => other both.2]
    by_cases same : q = p
    · rw [same, Function.update_self, all]
      omega
    · rw [Function.update_of_ne same]
  · obtain ⟨rfl, rfl⟩ : i = history.length ∧ ((s.tr t).key, (s.tr t).msgs) = chunk := by
      rw [List.getElem?_append_right beyond, List.getElem?_singleton] at here
      split_ifs at here with first
      exact ⟨by omega, Option.some.inj here⟩
    by_cases same : q = p
    · rw [same, Function.update_self]
      exact iff_of_true (Or.inr ⟨rfl, rfl⟩) (Nat.lt_succ_self _)
    · rw [Function.update_of_ne same]
      refine iff_of_false (fun either => ?_) (not_lt.mpr (holds.count_le q))
      exact either.elim (holds.unmarked live all new q liveToo) fun both => same both.1

/-- **A process that has delivered the whole history appends a load to it.** -/
theorem deliver_new (books : Books s) {p : Proc} {t : c.TrainId}
    (enabled : (Action.deliverTrain p t).Enabled s) (all : count p = history.length) :
    History ((Action.deliverTrain p t).apply s) (history ++ [((s.tr t).key, (s.tr t).msgs)])
      (Function.update count p (history.length + 1)) := by
  obtain ⟨live, ready, load, new, prior⟩ := enabled
  refine ⟨fun q => ?_, fun q => ?_, fun chunk member => ?_, fun chunk member => ?_, ?_,
    holds.done_append live all new, fun q liveToo key member => ?_,
    fun front chunk back split behind key old less => ?_, fun chunk member behind q issuer inUse => ?_,
    fun chunk member x inPlay key => ?_, fun mode => ?_⟩
  · by_cases same : q = p
    · rw [same, s.delivered_deliver_self, Function.update_self, holds.logs, all, List.take_length,
        List.take_of_length_le (by simp), contents_append]
      simp [contents]
    · rw [s.delivered_deliver_of_ne t same, Function.update_of_ne same,
        List.take_append_of_le_length (holds.count_le q)]
      exact holds.logs q
  · rw [List.length_append, List.length_singleton]
    by_cases same : q = p
    · rw [same, Function.update_self]
    · rw [Function.update_of_ne same]
      exact (holds.count_le q).trans (Nat.le_succ _)
  · rcases List.mem_append.mp member with old | last
    · exact holds.loaded chunk old
    · rw [List.mem_singleton.mp last]
      exact load
  · rcases List.mem_append.mp member with old | last
    · exact holds.keys chunk old
    · rw [List.mem_singleton.mp last]
      exact books.issued t
  · rw [List.map_append, List.nodup_append_comm]
    refine List.nodup_cons.mpr ⟨fun member => ?_, holds.distinct⟩
    obtain ⟨chunk, inside, same⟩ := List.mem_map.mp member
    exact holds.unheard live all new chunk inside same
  · rcases s.mem_doneKeys_deliver.mp member with old | ⟨-, rfl⟩
    · refine (holds.done_cases q liveToo key old).imp (fun ⟨chunk, inside, same⟩ => ?_)
        fun settled => settled.deliver p t
      exact ⟨chunk, List.mem_append_left _ inside, same⟩
    · exact Or.inl ⟨_, List.mem_append_right _ List.mem_cons_self, rfl⟩
  · rcases List.eq_nil_or_concat back with rfl | ⟨back, last, rfl⟩
    · -- the new load: everything below it is done at `p`
      obtain ⟨rfl, tail⟩ := List.append_inj' split rfl
      obtain rfl := (List.cons.inj tail).1
      exact (holds.done_cases p live key (prior.1 key old less)).imp_right fun settled =>
        Or.inl (settled.deliver p t)
    · have shape : history = front ++ chunk :: back := by
        have shift : history ++ [((s.tr t).key, (s.tr t).msgs)] = (front ++ chunk :: back) ++ [last] := by
          rw [split]
          simp
        exact (List.append_inj' shift rfl).1
      exact (holds.below front chunk back shape (fun settled => behind (settled.deliver p t)) key old
        less).imp_right (Or.imp_left fun settled => settled.deliver p t)
  · rcases List.mem_append.mp member with old | last
    · exact holds.ahead chunk old (fun settled => behind (settled.deliver p t)) q issuer inUse
    · rw [List.mem_singleton.mp last]
      refine prior.2 q (Finset.mem_sdiff.mpr ⟨issuer, fun gone => ?_⟩)
      split_ifs at gone with mode
      · exact inUse mode gone
      · exact Finset.notMem_empty q gone
  · rcases List.mem_append.mp member with old | last
    · exact holds.cargo chunk old x inPlay key
    · obtain rfl := List.mem_singleton.mp last
      have equal : (s.tr x).key = (s.tr t).key := key
      obtain rfl := books.key_injective equal
      exact ⟨ready, rfl⟩
  · refine ⟨p, live, ?_⟩
    rw [Function.update_self, List.length_append, List.length_singleton]

/-- **A delivery.** -/
theorem deliver (books : Books s) {p : Proc} {t : c.TrainId}
    (enabled : (Action.deliverTrain p t).Enabled s) :
    ∃ history' count', History ((Action.deliverTrain p t).apply s) history' count' := by
  rcases (holds.count_le p).lt_or_eq with more | all
  · obtain ⟨live, ready, -, new, prior⟩ := enabled
    have inPlay : s.InPlay t := (books.settled_or_inPlay ready).resolve_left fun settled =>
      new (settled p live)
    have key := holds.next_eq live inPlay (books.issuer t) (books.issued t) new prior more
    have msgs := (holds.cargo _ (List.getElem_mem more) t inPlay key.symm).2
    exact ⟨_, _, holds.deliver_next more (Prod.ext key msgs.symm)⟩
  · exact ⟨_, _, holds.deliver_new books enabled all⟩

end History

/-- **Every action keeps the books and a history.** -/
theorem History.step (books : Books s) {history : List (Chunk Proc Message)} {count : Proc → Nat}
    (holds : History s history count) {action : Action c} (enabled : action.Enabled s) :
    ∃ history' count', History (action.apply s) history' count' := by
  cases action with
  | appBroadcast p m => exact ⟨_, _, holds.keep rfl rfl rfl rfl rfl holds.cargo⟩
  | processTrain p t => exact ⟨_, _, holds.pass books enabled.1 enabled.2.1 enabled.2.2⟩
  | deliverTrain p t => exact holds.deliver books enabled
  | recycleTrain t => exact ⟨_, _, holds.recycle books t⟩
  | recycleEmptyTrain t =>
    obtain ⟨ready, empty, -⟩ := enabled
    refine ⟨_, _, (holds.recycle books t).mark ?_⟩
    refine (books.settled_or_inPlay ready).imp_right fun inPlay chunk member same => ?_
    exact holds.loaded chunk member ((holds.cargo chunk member t inPlay same.symm).2 ▸ empty)
  | crashProcess p =>
    have uto : c.mode ≠ .to := fun same => by
      rw [enabled.1] at same
      cases same
    have settles : ∀ key, s.Settled key → ((Action.crashProcess p).apply s).Settled key :=
      fun key settled => settled.of_le Finset.subset_union_left fun _ _ => subset_rfl
    have live : ∀ q, q ∉ s.crashed ∪ {p} → q ∉ s.crashed := fun q out gone =>
      out (Finset.mem_union_left _ gone)
    refine ⟨history, count, holds.logs, holds.count_le, holds.loaded, holds.keys, holds.distinct,
      fun q out => holds.done_iff q (live q out), fun q out key member => ?_,
      fun front chunk back split behind key issued less => ?_,
      fun chunk member behind q issuer _ => ?_, fun chunk member t _ key => ?_,
      fun mode => absurd mode uto⟩
    · exact (holds.done_cases q (live q out) key member).imp_right (settles key)
    · refine (holds.below front chunk back split (fun settled => behind (settles _ settled)) key issued
        less).imp_right (Or.imp (settles key) fun both => absurd both.1 uto)
    · exact holds.ahead chunk member (fun settled => behind (settles _ settled)) q issuer
        fun mode => absurd mode uto
    · have cargo := holds.cargo chunk member t (fun mode => absurd mode uto) key
      unfold Vars.requiredAcks at cargo ⊢
      rw [if_neg uto] at cargo ⊢
      exact cargo
  | reconfigure victim canon =>
    obtain ⟨mode, -, few, most, -⟩ := enabled
    obtain ⟨nonempty, outside⟩ := Books.members_exclude victim few
    exact ⟨_, _, holds.install books nonempty outside mode (holds.count_canon mode most)⟩
  | reAdmit rejoiner canon =>
    obtain ⟨mode, -, most, -, -⟩ := enabled
    obtain ⟨nonempty, outside⟩ := Books.members_rejoin s.crashed rejoiner
    have installed := holds.install books nonempty outside mode (holds.count_canon mode most)
    exact ⟨_, _, installed.keep rfl rfl rfl rfl rfl installed.cargo⟩

theorem history_reachable (reachable : (spec c).Reachable s) :
    ∃ history count, History s history count := by
  refine (Machine.invariant (m := spec c)
    (P := fun s => Books s ∧ ∃ history count, History s history count) (fun s first => ?_)
    (fun s action ⟨books, _, _, holds⟩ enabled => ⟨books.step enabled, holds.step books enabled⟩)
    reachable).2
  exact first ▸ ⟨Books.init c, _, _, History.init c⟩

/-- **`ConsistentDelivery`**: at any time the delivery logs of two processes, crashed ones included,
are prefixes of one another. -/
theorem mutual_prefixes (reachable : (spec c).Reachable s) (p q : Proc) :
    s.delivered p <+: s.delivered q ∨ s.delivered q <+: s.delivered p := by
  obtain ⟨_, _, holds⟩ := history_reachable reachable
  exact holds.comparable p q

/-! ### The other invariants -/

namespace Vars

variable (s : Vars c)

/-- `TypeOK`: the bounds. The other memberships are the types of the variables. -/
def TypeOK : Prop :=
  (∀ t, (s.tr t).clock ≤ c.maxClock) ∧ (∀ p, ∀ key ∈ s.doneKeys p, key.1 ≤ c.maxClock) ∧
    (∀ p q, s.seenClk p q ≤ c.maxClock) ∧ (∀ q, s.issClk q ≤ c.maxClock) ∧
    ∀ key ∈ s.issuedKeys, key.1 ≤ c.maxClock

/-- `ClockMonotonicity`. -/
def ClockMonotonicity : Prop := ∀ p q, s.seenClk p q ≤ s.issClk q

/-- `NoSpuriousDelivery`. -/
def NoSpuriousDelivery : Prop := ∀ p, ∀ m ∈ s.delivered p, m ∈ s.broadcast

/-- `TrainIntegrity`. -/
def TrainIntegrity : Prop := ∀ t, (s.tr t).msgs ⊆ s.broadcast

/-- `IssuerUniqueness`. -/
def IssuerUniqueness : Prop :=
  ∀ t1 t2, t1 ≠ t2 → (s.tr t1).issuer ≠ (s.tr t2).issuer ∨ (s.tr t1).clock ≠ (s.tr t2).clock

end Vars

/-- Messages come from broadcasts, and clocks from the issuers, which stay within the bound. -/
structure Flow (s : Vars c) : Prop where
  pending : ∀ p, s.pending p ⊆ s.broadcast
  msgs : s.TrainIntegrity
  delivered : s.NoSpuriousDelivery
  seen : s.ClockMonotonicity
  stamp : ∀ q, s.issClk q ≤ c.maxClock

namespace Flow

theorem init (c : Constants Proc Message) : Flow (init c) where
  pending := fun _ => Finset.empty_subset _
  msgs := fun _ => Finset.empty_subset _
  delivered := fun _ _ member => absurd member List.not_mem_nil
  seen := fun _ _ => Nat.zero_le _
  stamp := fun _ => c.maxClock_pos

variable (flow : Flow s)

include flow

theorem recycle {t : c.TrainId} (room : s.issClk (s.tr t).issuer < c.maxClock) :
    Flow (s.recycle t) := by
  refine ⟨flow.pending, fun x => ?_, flow.delivered, fun p q => (flow.seen p q).trans ?_, fun q => ?_⟩
  · show (Function.update s.tr t (s.fresh t) x).msgs ⊆ _
    by_cases same : x = t
    · rw [same, Function.update_self]
      exact Finset.empty_subset _
    · rw [Function.update_of_ne same]
      exact flow.msgs x
  · show _ ≤ Function.update s.issClk _ _ q
    by_cases same : q = (s.tr t).issuer
    · rw [same, Function.update_self]
      exact Nat.le_succ _
    · rw [Function.update_of_ne same]
  · show Function.update s.issClk _ _ q ≤ _
    by_cases same : q = (s.tr t).issuer
    · rw [same, Function.update_self]
      exact room
    · rw [Function.update_of_ne same]
      exact flow.stamp q

theorem install (books : Books s) {members : Finset Proc} (canon : Proc) (crashed : Finset Proc)
    (room : ∀ t ∈ s.slotsOf members, s.issClk (s.tr t).issuer < c.maxClock) :
    Flow (s.installView members canon crashed) := by
  refine ⟨flow.pending, fun t => ?_, fun p m member => ?_, fun p q => (flow.seen p q).trans ?_,
    fun q => ?_⟩
  · show (if t ∈ s.slotsOf members then s.fresh t else s.tr t).msgs ⊆ _
    split_ifs
    · exact Finset.empty_subset _
    · exact flow.msgs t
  · have source : m ∈ s.delivered canon ∨ m ∈ s.delivered p := by
      rw [show (s.installView members canon crashed).delivered p =
        if p ∈ members then s.delivered canon else s.delivered p from rfl] at member
      split_ifs at member
      · exact Or.inl member
      · exact Or.inr member
    exact source.elim (flow.delivered canon m) (flow.delivered p m)
  · show _ ≤ if q ∈ members ∧ q ∈ c.issuers then s.issClk q + 1 else s.issClk q
    split_ifs
    · exact Nat.le_succ _
    · exact le_rfl
  · show (if q ∈ members ∧ q ∈ c.issuers then s.issClk q + 1 else s.issClk q) ≤ _
    split_ifs with renewed
    · obtain ⟨t, -, rfl⟩ := Finset.mem_image.mp renewed.2
      have slot : t ∈ s.slotsOf members := by
        rw [Vars.slotsOf, Finset.mem_filter, books.issuer]
        exact ⟨Finset.mem_univ t, renewed.1⟩
      have below := room t slot
      rwa [books.issuer] at below
    · exact flow.stamp q

/-- **Every action keeps the flow.** -/
theorem step (books : Books s) {action : Action c} (enabled : action.Enabled s) :
    Flow (action.apply s) := by
  cases action with
  | appBroadcast p m =>
    refine ⟨fun q => ?_, fun t => (flow.msgs t).trans Finset.subset_union_left,
      fun q x member => Finset.mem_union_left _ (flow.delivered q x member), flow.seen, flow.stamp⟩
    show Function.update s.pending p _ q ⊆ _
    by_cases same : q = p
    · rw [same, Function.update_self]
      exact Finset.union_subset_union_left (flow.pending p)
    · rw [Function.update_of_ne same]
      exact (flow.pending q).trans Finset.subset_union_left
  | processTrain p t =>
    refine ⟨fun q => ?_, fun x => ?_, flow.delivered, fun q issuer => ?_, flow.stamp⟩
    · show Function.update s.pending p ∅ q ⊆ _
      by_cases same : q = p
      · rw [same, Function.update_self]
        exact Finset.empty_subset _
      · rw [Function.update_of_ne same]
        exact flow.pending q
    · by_cases same : x = t
      · rw [same, s.pass_here]
        exact Finset.union_subset (flow.msgs t) (flow.pending p)
      · rw [show ((Action.processTrain p t).apply s).tr x = s.tr x from Function.update_of_ne same ..]
        exact flow.msgs x
    · show Function.update s.seenClk p _ q issuer ≤ s.issClk issuer
      by_cases same : q = p
      · rw [same, Function.update_self]
        by_cases own : issuer = (s.tr t).issuer
        · rw [own, Function.update_self, books.issuer]
          exact (books.clock t).le
        · rw [Function.update_of_ne own]
          exact flow.seen p issuer
      · rw [Function.update_of_ne same]
        exact flow.seen q issuer
  | deliverTrain p t =>
    refine ⟨flow.pending, flow.msgs, fun q m member => ?_, flow.seen, flow.stamp⟩
    have source : m ∈ s.delivered q ∨ m ∈ (s.tr t).msgs := by
      by_cases same : q = p
      · rw [same, s.delivered_deliver_self] at member
        rw [same]
        exact (List.mem_append.mp member).imp_right c.msgsToSeq_mem.mp
      · rw [s.delivered_deliver_of_ne t same] at member
        exact Or.inl member
    exact source.elim (flow.delivered q m) fun load => flow.msgs t load
  | recycleTrain t => exact flow.recycle enabled.2.2
  | recycleEmptyTrain t =>
    have recycled := flow.recycle enabled.2.2
    exact ⟨recycled.pending, recycled.msgs, recycled.delivered, recycled.seen, recycled.stamp⟩
  | crashProcess p => exact ⟨flow.pending, flow.msgs, flow.delivered, flow.seen, flow.stamp⟩
  | reconfigure victim canon => exact flow.install books canon _ enabled.2.2.2.2
  | reAdmit rejoiner canon =>
    have installed := flow.install books canon (s.crashed.erase rejoiner) enabled.2.2.2.2
    refine ⟨installed.pending, installed.msgs, installed.delivered, fun p q => ?_, installed.stamp⟩
    show (if p = rejoiner then s.seenClk canon else s.seenClk p) q ≤ _
    split_ifs
    · exact installed.seen canon q
    · exact installed.seen p q

end Flow

/-- **The invariants of the specification other than `ConsistentDelivery`.** -/
theorem safety_invariants (reachable : (spec c).Reachable s) :
    s.TypeOK ∧ s.ClockMonotonicity ∧ s.NoSpuriousDelivery ∧ s.TrainIntegrity ∧ s.IssuerUniqueness := by
  obtain ⟨books, flow⟩ := Machine.invariant (m := spec c) (P := fun s => Books s ∧ Flow s)
    (fun s first => first ▸ ⟨Books.init c, Flow.init c⟩)
    (fun s action both enabled => ⟨both.1.step enabled, both.2.step both.1 enabled⟩) reachable
  have within : ∀ key ∈ s.issuedKeys, key.1 ≤ c.maxClock := fun key issued =>
    (books.bound key issued).trans (flow.stamp _)
  refine ⟨⟨fun t => within _ (books.issued t), fun p key done => within key (books.done p done),
    fun p q => (flow.seen p q).trans (flow.stamp q), flow.stamp, within⟩, flow.seen, flow.delivered,
    flow.msgs, fun t1 t2 other => Or.inl fun same => other ?_⟩
  rw [books.issuer, books.issuer] at same
  exact c.owner_injective same

/-! ### A run -/

theorem one_le_pair : 1 ≤ 2 := by decide

theorem two_le_pair : 2 ≤ 2 := le_rfl

theorem one_le_pairClock : 1 ≤ 4 := by decide

/-- The elements in order. -/
def pairSeq (msgs : Finset (Fin 2)) : List (Fin 2) := (List.finRange 2).filter (· ∈ msgs)

theorem pairSeq_perm (msgs : Finset (Fin 2)) : (pairSeq msgs).Perm msgs.toList := by
  refine (List.perm_ext_iff_of_nodup ?_ msgs.nodup_toList).mpr fun m => by simp [pairSeq]
  exact (List.nodup_finRange 2).filter _

/-- Two processes, both issuers, in mode TO. -/
def pairConstants : Constants (Fin 2) (Fin 2) where
  size := 2
  ring := Equiv.refl _
  numTrains := 2
  numTrains_pos := one_le_pair
  numTrains_le := two_le_pair
  maxClock := 4
  maxClock_pos := one_le_pairClock
  maxPending := 2
  maxPending_pos := one_le_pair
  mode := .to
  msgsToSeq := pairSeq
  msgsToSeq_perm := pairSeq_perm

/-- The train of process 0. -/
def pairTrain : pairConstants.TrainId := ⟨0, Nat.zero_lt_two⟩

/-- A train is delivered at process 0 only, and process 1 is excluded and comes back. -/
def pairActions : List (Action pairConstants) :=
  [.appBroadcast 1 0, .processTrain 0 pairTrain, .processTrain 1 pairTrain, .deliverTrain 0 pairTrain,
    .reconfigure 1 0, .reAdmit 1 0]

def pairState : Vars pairConstants := (spec pairConstants).run (init pairConstants) pairActions

theorem pairState_reachable : (spec pairConstants).Reachable pairState :=
  Machine.reachable_run rfl (by decide +kernel)

theorem mutual_prefixes_pair : pairState.delivered 1 = [0] ∧
    (pairState.delivered 0 <+: pairState.delivered 1 ∨
      pairState.delivered 1 <+: pairState.delivered 0) :=
  ⟨by decide +kernel, mutual_prefixes pairState_reachable 0 1⟩

theorem safety_invariants_pair : pairState.issClk 1 = 2 ∧ pairState.TypeOK ∧
    pairState.ClockMonotonicity ∧ pairState.NoSpuriousDelivery ∧ pairState.TrainIntegrity ∧
    pairState.IssuerUniqueness :=
  ⟨by decide +kernel, safety_invariants pairState_reachable⟩

end Spec

end TrainsRing
