/-
**Lists in one common order.**

Some lists, each an order of its own elements: is there one total order that all of them follow, and
what does a comparison of the lists two by two say about it?

* `Precedes` — one element before another in some list.
* `common_order_iff` — **there is a common order iff precedence has no cycle**.
* `same_projection_iff` — two lists give their common elements in one order iff no two elements stand
  the one way here and the other way there.
* `agree_in_pairs_iff` — **a comparison two by two excludes cycles of length one and two**, and no
  others; `common_order_of_complete` — that is enough where one list has every element.
-/

import Mathlib.Data.List.Nodup
import Mathlib.Data.List.Perm.Basic
import Mathlib.Logic.Relation
import Mathlib.Order.Extension.Linear
import Mathlib.Tactic

namespace TrainsRing

open Relation (TransGen ReflTransGen)
open scoped List

variable {α ι : Type}

/-- A strict total order on a set. -/
structure StrictTotalOn (s : Set α) (before : α → α → Prop) : Prop where
  irrefl : ∀ x ∈ s, ¬ before x x
  trans : ∀ x ∈ s, ∀ y ∈ s, ∀ z ∈ s, before x y → before y z → before x z
  total : ∀ x ∈ s, ∀ y ∈ s, x ≠ y → before x y ∨ before y x

/-- The elements of some lists. -/
def elements (lists : ι → List α) : Set α := {x | ∃ i, x ∈ lists i}

/-- In some list the one stands before the other. -/
def Precedes (lists : ι → List α) (x y : α) : Prop := ∃ i, [x, y] <+ lists i

variable {lists : ι → List α}

theorem Precedes.left {x y : α} (precedes : Precedes lists x y) : x ∈ elements lists :=
  precedes.imp fun _ pair => pair.subset List.mem_cons_self

theorem Precedes.right {x y : α} (precedes : Precedes lists x y) : y ∈ elements lists :=
  precedes.imp fun _ pair => pair.subset (List.mem_cons_of_mem _ List.mem_cons_self)

/-! ### All lists at once -/

/-- What all the lists follow contains every chain of precedences. -/
theorem before_of_transGen {before : α → α → Prop} (order : StrictTotalOn (elements lists) before)
    (follow : ∀ i, (lists i).Pairwise before) {x y : α} (chain : TransGen (Precedes lists) x y) :
    x ∈ elements lists ∧ y ∈ elements lists ∧ before x y := by
  have one : ∀ {x y}, Precedes lists x y → before x y := by
    rintro x y ⟨i, pair⟩
    exact List.pairwise_iff_forall_sublist.mp (follow i) pair
  induction chain with
  | single first => exact ⟨first.left, first.right, one first⟩
  | tail _ last ih =>
    obtain ⟨left, middle, so_far⟩ := ih
    exact ⟨left, last.right, order.trans _ left _ middle _ last.right so_far (one last)⟩

/-- **A common order is one without cycles.** -/
theorem common_order_iff : (∃ before, StrictTotalOn (elements lists) before ∧
      ∀ i, (lists i).Pairwise before) ↔ ∀ x, ¬ TransGen (Precedes lists) x x := by
  constructor
  · rintro ⟨before, order, follow⟩ x cycle
    obtain ⟨inside, -, loop⟩ := before_of_transGen order follow cycle
    exact order.irrefl x inside loop
  · intro acyclic
    have partialOrder : IsPartialOrder α (ReflTransGen (Precedes lists)) :=
      { refl := fun x => .refl
        trans := fun x y z first second => first.trans second
        antisymm := fun x y first second => by
          by_contra differ
          rcases Relation.reflTransGen_iff_eq_or_transGen.mp first with same | chain
          · exact differ same.symm
          · exact acyclic x (chain.trans_left second) }
    -- a linear order that contains the precedences
    obtain ⟨le, linear, extends_le⟩ := extend_partialOrder (ReflTransGen (Precedes lists))
    refine ⟨fun x y => le x y ∧ x ≠ y, ⟨fun x _ loop => loop.2 rfl, ?_, ?_⟩, fun i => ?_⟩
    · rintro x - y - z - ⟨first, differ⟩ ⟨second, -⟩
      refine ⟨linear.trans x y z first second, ?_⟩
      rintro rfl
      exact differ (linear.antisymm x y first second)
    · intro x _ y _ differ
      exact (linear.total x y).imp (fun le_xy => ⟨le_xy, differ⟩) fun le_yx => ⟨le_yx, differ.symm⟩
    · refine List.pairwise_iff_forall_sublist.mpr fun {x y} pair => ?_
      refine ⟨extends_le x y (.single ⟨i, pair⟩), ?_⟩
      rintro rfl
      exact acyclic x (.single ⟨i, pair⟩)

/-! ### Two lists -/

theorem pair_sublist_cons {x y head : α} {rest : List α} :
    [x, y] <+ head :: rest ↔ [x, y] <+ rest ∨ x = head ∧ y ∈ rest := by
  rw [List.sublist_cons_iff]
  refine or_congr_right ⟨?_, ?_⟩
  · rintro ⟨tail, split, within⟩
    obtain ⟨rfl, rfl⟩ := List.cons.inj split
    exact ⟨rfl, List.singleton_sublist.mp within⟩
  · rintro ⟨rfl, inside⟩
    exact ⟨[y], rfl, List.singleton_sublist.mpr inside⟩

/-- Two elements of a list stand one way. -/
theorem pair_sublist_or {l : List α} {x y : α} (first : x ∈ l) (second : y ∈ l) (differ : x ≠ y) :
    [x, y] <+ l ∨ [y, x] <+ l := by
  induction l with
  | nil => cases first
  | cons head rest ih =>
    rw [pair_sublist_cons, pair_sublist_cons]
    rcases List.mem_cons.mp first with rfl | first_later
    · have later := (List.mem_cons.mp second).resolve_left differ.symm
      exact .inl (.inr ⟨rfl, later⟩)
    · rcases List.mem_cons.mp second with rfl | second_later
      · exact .inr (.inr ⟨rfl, first_later⟩)
      · exact (ih first_later second_later).imp .inl .inl

/-- In a list without repeats they stand one way only. -/
theorem not_pair_sublist {l : List α} (nodup : l.Nodup) {x y : α} (pair : [x, y] <+ l) :
    ¬ [y, x] <+ l := by
  induction l with
  | nil => cases pair
  | cons head rest ih =>
    obtain ⟨outside, nodup_rest⟩ := List.nodup_cons.mp nodup
    rw [pair_sublist_cons] at pair ⊢
    rintro (back | ⟨rfl, back⟩)
    · rcases pair with pair | ⟨rfl, -⟩
      · exact ih nodup_rest pair back
      · exact outside (back.subset (List.mem_cons_of_mem _ List.mem_cons_self))
    · rcases pair with pair | ⟨rfl, pair⟩
      · exact outside (pair.subset (List.mem_cons_of_mem _ List.mem_cons_self))
      · exact outside pair

theorem pair_sublist_trans {l : List α} (nodup : l.Nodup) {x y z : α} (first : [x, y] <+ l)
    (second : [y, z] <+ l) : [x, z] <+ l := by
  induction l with
  | nil => cases first
  | cons head rest ih =>
    obtain ⟨outside, nodup_rest⟩ := List.nodup_cons.mp nodup
    rw [pair_sublist_cons] at first second ⊢
    have later : z ∈ rest := second.elim (fun pair => pair.subset (by simp)) And.right
    rcases first with first | ⟨rfl, -⟩
    · rcases second with second | ⟨rfl, -⟩
      · exact .inl (ih nodup_rest first second)
      · exact absurd (first.subset (by simp)) outside
    · exact .inr ⟨rfl, later⟩

variable [DecidableEq α]

/-- A pair of elements, both of them kept. -/
theorem pair_sublist_filter {l other : List α} {x y : α} :
    [x, y] <+ l.filter (· ∈ other) ↔ [x, y] <+ l ∧ x ∈ other ∧ y ∈ other := by
  constructor
  · intro pair
    have kept : ∀ z ∈ [x, y], z ∈ other := fun z member => by
      simpa using (List.mem_filter.mp (pair.subset member)).2
    exact ⟨pair.trans List.filter_sublist, kept x (by simp), kept y (by simp)⟩
  · rintro ⟨pair, kept_x, kept_y⟩
    have filtered := pair.filter (· ∈ other)
    simpa [kept_x, kept_y] using filtered

/-- **Two lists agree on the order of their common elements** iff no two stand the one way in one list
and the other way in the other. -/
theorem same_projection_iff {a b : List α} (nodup_a : a.Nodup) (nodup_b : b.Nodup) :
    a.filter (· ∈ b) = b.filter (· ∈ a) ↔ ∀ x y, [x, y] <+ a → ¬ [y, x] <+ b := by
  constructor
  · intro same x y pair back
    have in_b : x ∈ b ∧ y ∈ b := ⟨back.subset (by simp), back.subset (by simp)⟩
    have projected : [x, y] <+ b.filter (· ∈ a) :=
      same ▸ pair_sublist_filter.mpr ⟨pair, in_b⟩
    exact not_pair_sublist nodup_b (pair_sublist_filter.mp projected).1 back
  · intro agree
    -- both projections follow the order of the first list
    have perm : a.filter (· ∈ b) ~ b.filter (· ∈ a) := by
      refine (List.perm_ext_iff_of_nodup (nodup_a.filter _) (nodup_b.filter _)).mpr fun x => ?_
      simp [and_comm]
    have one_way : ∀ x y, x ∈ a.filter (· ∈ b) → y ∈ b.filter (· ∈ a) → [x, y] <+ a → [y, x] <+ a →
        x = y := fun x y _ _ pair back => absurd back (not_pair_sublist nodup_a pair)
    refine perm.eq_of_pairwise one_way ?_ ?_
    · exact List.pairwise_iff_forall_sublist.mpr fun {x y} pair => (pair_sublist_filter.mp pair).1
    · refine List.pairwise_iff_forall_sublist.mpr fun {x y} pair => ?_
      obtain ⟨in_b, in_a⟩ := pair_sublist_filter.mp pair
      have differ : x ≠ y := by
        rintro rfl
        exact not_pair_sublist nodup_b in_b in_b
      exact (pair_sublist_or in_a.1 in_a.2 differ).resolve_right fun back => agree y x back in_b

/-- **A comparison of the lists two by two** excludes the cycles of length one, which are the repeats in
a list, and of length two. -/
theorem agree_in_pairs_iff : ((∀ i, (lists i).Nodup) ∧
      ∀ i j, (lists i).filter (· ∈ lists j) = (lists j).filter (· ∈ lists i)) ↔
    ∀ x y, Precedes lists x y → ¬ Precedes lists y x := by
  constructor
  · rintro ⟨nodup, agree⟩ x y ⟨i, pair⟩ ⟨j, back⟩
    exact (same_projection_iff (nodup i) (nodup j)).mp (agree i j) x y pair back
  · intro asymmetric
    have nodup : ∀ i, (lists i).Nodup := fun i =>
      List.nodup_iff_sublist.mpr fun x pair => asymmetric x x ⟨i, pair⟩ ⟨i, pair⟩
    exact ⟨nodup, fun i j => (same_projection_iff (nodup i) (nodup j)).mpr
      fun x y pair back => asymmetric x y ⟨i, pair⟩ ⟨j, back⟩⟩

omit [DecidableEq α] in
/-- **Where one list has every element**, there are no longer cycles without one of these: its own order
is the common one. -/
theorem common_order_of_complete {i : ι} (complete : ∀ x ∈ elements lists, x ∈ lists i)
    (asymmetric : ∀ x y, Precedes lists x y → ¬ Precedes lists y x) :
    ∃ before, StrictTotalOn (elements lists) before ∧ ∀ j, (lists j).Pairwise before := by
  have nodup : (lists i).Nodup :=
    List.nodup_iff_sublist.mpr fun x pair => asymmetric x x ⟨i, pair⟩ ⟨i, pair⟩
  refine ⟨fun x y => [x, y] <+ lists i, ⟨?_, ?_, ?_⟩, fun j => ?_⟩
  · exact fun x _ pair => asymmetric x x ⟨i, pair⟩ ⟨i, pair⟩
  · exact fun x _ y _ z _ first second => pair_sublist_trans nodup first second
  · exact fun x inside y inside' differ =>
      pair_sublist_or (complete x inside) (complete y inside') differ
  · refine List.pairwise_iff_forall_sublist.mpr fun {x y} pair => ?_
    have precedes : Precedes lists x y := ⟨j, pair⟩
    have differ : x ≠ y := by
      rintro rfl
      exact asymmetric x x precedes precedes
    exact (pair_sublist_or (complete x precedes.left) (complete y precedes.right) differ).resolve_right
      fun back => asymmetric x y precedes ⟨i, back⟩

end TrainsRing
