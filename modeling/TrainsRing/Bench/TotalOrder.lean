/-
**The total-order verdict of the chaos checker** (`bench/coordinator/invariants.py`).

The checker has, for each node, the records of what it delivered. It looks for a repeat within a node
and then compares the nodes two by two on what they have in common.

* `checkTotalOrder` — the verdict, with the text that explains it.
* `passed_iff` — **the verdict is that precedence has no cycle of length one or two**.
* `total_order_exact` — **it is the verdict about one global order exactly where every longer cycle comes
  with a short one**; three nodes are enough for the difference (`threeNodes`).
* `exact_of_complete_node` — a node that has delivered every seq makes it exact.
-/

import TrainsRing.Library.CommonOrder
import TrainsRing.Library.OrdMap

namespace TrainsRing

namespace Bench

open Relation (TransGen)

/-! ### The checker -/

/-- A delivery; only its `seq` is looked at. -/
structure DeliveryRecord where
  seq : Int
  deriving DecidableEq

/-- One invariant's verdict; `none` stands for what cannot be measured. -/
structure InvariantResult where
  name : String
  passed : Option Bool
  detail : String
  deriving DecidableEq

/-- `_seq_lists`. -/
def seqLists (perNodeDeliveries : OrdMap Int (List DeliveryRecord)) : OrdMap Int (List Int) :=
  perNodeDeliveries.mapValues fun dels => dels.map DeliveryRecord.seq

/-- The nodes that deliver a seq twice, sorted. -/
def dupNodes (seqs : OrdMap Int (List Int)) : List Int :=
  (seqs.entries.filter fun entry => entry.2.length ≠ entry.2.toFinset.card).map Prod.fst

/-- `seqs[node]`. -/
def seqsOf (seqs : OrdMap Int (List Int)) (node : Int) : List Int := (seqs.get? node).getD []

/-- Two lists, restricted to what they have in common, differ. -/
def mismatch (a b : List Int) : Bool :=
  let common := a.toFinset ∩ b.toFinset
  let aProj := a.filter (· ∈ common)
  let bProj := b.filter (· ∈ common)
  aProj ≠ bProj

/-- The first pair of nodes that differ, in the order of the two loops. -/
def firstMismatch (seqs : OrdMap Int (List Int)) : (nodes : List Int) → Option (Int × Int)
  | [] => none
  | i :: rest => match rest.find? fun j => mismatch (seqsOf seqs i) (seqsOf seqs j) with
    | some j => some (i, j)
    | none => firstMismatch seqs rest

/-- `check_total_order`. -/
def checkTotalOrder (perNodeDeliveries : OrdMap Int (List DeliveryRecord)) : InvariantResult :=
  let seqs := seqLists perNodeDeliveries
  let dups := dupNodes seqs
  if dups ≠ [] then
    ⟨"total_order", some false, "duplicate deliveries on node(s): " ++ toString dups⟩
  else
    let nodes := seqs.keys
    match firstMismatch seqs nodes with
    | some (i, j) => ⟨"total_order", some false,
        "order mismatch between node " ++ toString i ++ " and node " ++ toString j⟩
    | none => ⟨"total_order", some true,
        "delivery order consistent across " ++ toString nodes.length ++ " node(s)"⟩

/-! ### What it looks at -/

/-- The seqs that a node has delivered, in order. -/
def deliveredSeqs (perNodeDeliveries : OrdMap Int (List DeliveryRecord)) (node : Int) : List Int :=
  seqsOf (seqLists perNodeDeliveries) node

/-- The seqs of a node that is not there. -/
theorem seqsOf_absent {seqs : OrdMap Int (List Int)} {node : Int} (absent : node ∉ seqs.keys) :
    seqsOf seqs node = [] := by
  unfold seqsOf
  cases found : seqs.get? node with
  | none => rfl
  | some l => exact absurd (seqs.mem_keys_iff.mpr ⟨l, found⟩) absent

theorem dupNodes_eq_nil {seqs : OrdMap Int (List Int)} :
    dupNodes seqs = [] ↔ ∀ node, (seqsOf seqs node).Nodup := by
  have counted : ∀ l : List Int, l.length = l.toFinset.card ↔ l.Nodup := fun l =>
    eq_comm.trans (Multiset.toFinset_card_eq_card_iff_nodup (m := (l : Multiset Int)))
  have entries : dupNodes seqs = [] ↔ ∀ entry ∈ seqs.entries, entry.2.Nodup := by
    simp [dupNodes, List.filter_eq_nil_iff, counted]
  rw [entries]
  constructor
  · intro nodup node
    unfold seqsOf
    cases found : seqs.get? node with
    | none => exact List.nodup_nil
    | some l => exact nodup (node, l) (seqs.mem_entries_iff.mpr found)
  · rintro nodup ⟨node, l⟩ member
    have distinct := nodup node
    rwa [seqsOf, seqs.mem_entries_iff.mp member] at distinct

theorem mismatch_eq_false {a b : List Int} :
    mismatch a b = false ↔ a.filter (· ∈ b) = b.filter (· ∈ a) := by
  have left : a.filter (· ∈ a.toFinset ∩ b.toFinset) = a.filter (· ∈ b) :=
    List.filter_congr fun x member => by simp [member]
  have right : b.filter (· ∈ a.toFinset ∩ b.toFinset) = b.filter (· ∈ a) :=
    List.filter_congr fun x member => by simp [member]
  unfold mismatch
  dsimp only
  rw [left, right]
  simp

theorem firstMismatch_eq_none {seqs : OrdMap Int (List Int)} {nodes : List Int} :
    firstMismatch seqs nodes = none ↔
      nodes.Pairwise fun i j => mismatch (seqsOf seqs i) (seqsOf seqs j) = false := by
  induction nodes with
  | nil => simp [firstMismatch]
  | cons i rest ih =>
    rw [List.pairwise_cons, ← ih, firstMismatch]
    cases found : rest.find? fun j => mismatch (seqsOf seqs i) (seqsOf seqs j) with
    | none =>
      have none_differs := List.find?_eq_none.mp found
      simp only [Bool.not_eq_true] at none_differs
      exact (and_iff_right none_differs).symm
    | some j =>
      have differ := List.find?_some found
      refine iff_of_false (fun none => by cases none) fun both => ?_
      exact absurd differ (by simp [both.1 j (List.mem_of_find?_eq_some found)])

/-- **The two loops compare all pairs of nodes.** -/
theorem firstMismatch_keys {seqs : OrdMap Int (List Int)} :
    firstMismatch seqs seqs.keys = none ↔ ∀ i j,
      (seqsOf seqs i).filter (· ∈ seqsOf seqs j) = (seqsOf seqs j).filter (· ∈ seqsOf seqs i) := by
  rw [firstMismatch_eq_none]
  constructor
  · intro pairwise i j
    have symmetric : Std.Symm fun i j => mismatch (seqsOf seqs i) (seqsOf seqs j) = false :=
      ⟨fun i j same => mismatch_eq_false.mpr (mismatch_eq_false.mp same).symm⟩
    by_cases both : i ∈ seqs.keys ∧ j ∈ seqs.keys
    · refine mismatch_eq_false.mp (pairwise.forall_of_forall ?_ both.1 both.2)
      exact fun k _ => mismatch_eq_false.mpr rfl
    · rcases not_and_or.mp both with absent | absent
      · simp [seqsOf_absent absent]
      · simp [seqsOf_absent absent]
  · exact fun all => List.pairwise_of_forall fun i j => mismatch_eq_false.mpr (all i j)

/-- **The verdict**: precedence has no cycle of length one or two. -/
theorem passed_iff (perNodeDeliveries : OrdMap Int (List DeliveryRecord)) :
    (checkTotalOrder perNodeDeliveries).passed = some true ↔
      ∀ x y, Precedes (deliveredSeqs perNodeDeliveries) x y →
        ¬ Precedes (deliveredSeqs perNodeDeliveries) y x := by
  rw [← agree_in_pairs_iff]
  refine Iff.trans ?_ (and_congr dupNodes_eq_nil firstMismatch_keys)
  unfold checkTotalOrder
  dsimp only
  split_ifs with dups
  · simp [dups]
  · cases found : firstMismatch (seqLists perNodeDeliveries) (seqLists perNodeDeliveries).keys with
    | none => simpa using dups
    | some pair => simp

/-! ### One order of all -/

/-- What the verdict is for: no node repeats a seq, and all the lists follow one strict total order on
the seqs delivered. -/
def OneTotalOrder (perNodeDeliveries : OrdMap Int (List DeliveryRecord)) : Prop :=
  (∀ node, (deliveredSeqs perNodeDeliveries node).Nodup) ∧
    ∃ before, StrictTotalOn (elements (deliveredSeqs perNodeDeliveries)) before ∧
      ∀ node, (deliveredSeqs perNodeDeliveries node).Pairwise before

/-- There is one order iff precedence has no cycle at all. -/
theorem oneTotalOrder_iff (perNodeDeliveries : OrdMap Int (List DeliveryRecord)) :
    OneTotalOrder perNodeDeliveries ↔
      ∀ x, ¬ TransGen (Precedes (deliveredSeqs perNodeDeliveries)) x x := by
  unfold OneTotalOrder
  rw [common_order_iff]
  refine and_iff_right_of_imp fun acyclic node => ?_
  exact List.nodup_iff_sublist.mpr fun x pair => acyclic x (.single ⟨node, pair⟩)

/-- **With a node that has delivered every seq, the verdict is exact.** -/
theorem exact_of_complete_node {perNodeDeliveries : OrdMap Int (List DeliveryRecord)} {node : Int}
    (complete : ∀ x ∈ elements (deliveredSeqs perNodeDeliveries),
      x ∈ deliveredSeqs perNodeDeliveries node) :
    (checkTotalOrder perNodeDeliveries).passed = some true ↔ OneTotalOrder perNodeDeliveries := by
  rw [passed_iff]
  constructor
  · intro asymmetric
    exact ⟨(agree_in_pairs_iff.mpr asymmetric).1, common_order_of_complete complete asymmetric⟩
  · intro order x y pair back
    exact (oneTotalOrder_iff perNodeDeliveries).mp order x ((TransGen.single pair).tail back)

/-- **The verdict is exact up to long cycles.** It is the one about a global order iff any cycle of
precedences comes with one of length one or two: a seq that a node repeats, or two seqs in opposite
orders at two nodes. -/
theorem total_order_exact (perNodeDeliveries : OrdMap Int (List DeliveryRecord)) :
    ((checkTotalOrder perNodeDeliveries).passed = some true ↔ OneTotalOrder perNodeDeliveries) ↔
      ((∃ x, TransGen (Precedes (deliveredSeqs perNodeDeliveries)) x x) →
        ∃ x y, Precedes (deliveredSeqs perNodeDeliveries) x y ∧
          Precedes (deliveredSeqs perNodeDeliveries) y x) := by
  rw [passed_iff, oneTotalOrder_iff]
  constructor
  · rintro same ⟨x, cycle⟩
    by_contra none
    have asymmetric : ∀ x y, Precedes (deliveredSeqs perNodeDeliveries) x y →
        ¬ Precedes (deliveredSeqs perNodeDeliveries) y x :=
      fun x y pair back => none ⟨x, y, pair, back⟩
    exact same.mp asymmetric x cycle
  · intro short
    refine ⟨fun asymmetric x cycle => ?_, fun acyclic x y pair back => ?_⟩
    · obtain ⟨x, y, pair, back⟩ := short ⟨x, cycle⟩
      exact asymmetric x y pair back
    · exact acyclic x ((TransGen.single pair).tail back)

/-- Three nodes, each of which has lost one delivery. -/
def threeNodes : OrdMap Int (List DeliveryRecord) :=
  ((OrdMap.empty.insert 0 [⟨1⟩, ⟨2⟩]).insert 1 [⟨2⟩, ⟨3⟩]).insert 2 [⟨3⟩, ⟨1⟩]

/-- Any two of them agree, the three do not. -/
theorem total_order_missed :
    ¬ ((checkTotalOrder threeNodes).passed = some true ↔ OneTotalOrder threeNodes) := by
  have passed : (checkTotalOrder threeNodes).passed = some true := by decide
  have first : Precedes (deliveredSeqs threeNodes) 1 2 := ⟨0, by decide⟩
  have second : Precedes (deliveredSeqs threeNodes) 2 3 := ⟨1, by decide⟩
  have third : Precedes (deliveredSeqs threeNodes) 3 1 := ⟨2, by decide⟩
  have cycle := ((TransGen.single first).tail second).tail third
  exact fun same => (oneTotalOrder_iff threeNodes).mp (same.mp passed) 1 cycle

end Bench

end TrainsRing
