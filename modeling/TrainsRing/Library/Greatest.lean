/-
**Keeping the greatest elements.**

A store of bounded size that drops its smallest element when it overflows holds, at any time, the
greatest elements of everything ever put into it, although it has forgotten the others.

* `rank` — how many elements of a set are above one; `greatest cap s` — those with fewer than `cap`
  above them.
* `card_greatest` — there are `cap` of them, or all.
* `greatest_insert` — **what was dropped makes no difference**: inserting into the greatest elements
  and into the whole set gives the same greatest elements.
* `greatest_erase` — dropping the smallest element of a set that is too large.
-/

import Mathlib.Data.Finset.Card
import Mathlib.Data.Finset.Lattice.Fold
import Mathlib.Order.Interval.Finset.Nat
import Mathlib.Tactic

namespace TrainsRing

variable {κ : Type} [LinearOrder κ]

/-- How many elements of a set are above one. -/
def rank (s : Finset κ) (key : κ) : Nat := (s.filter fun other => key < other).card

/-- The elements with fewer than `cap` above them. -/
def greatest (cap : Nat) (s : Finset κ) : Finset κ := s.filter fun key => rank s key < cap

theorem mem_greatest {cap : Nat} {s : Finset κ} {key : κ} :
    key ∈ greatest cap s ↔ key ∈ s ∧ rank s key < cap := Finset.mem_filter

theorem greatest_subset (cap : Nat) (s : Finset κ) : greatest cap s ⊆ s := Finset.filter_subset _ _

theorem rank_mono {s t : Finset κ} (inside : s ⊆ t) (key : κ) : rank s key ≤ rank t key :=
  Finset.card_le_card (Finset.filter_subset_filter _ inside)

/-- The higher of two elements has fewer above it. -/
theorem rank_lt {s : Finset κ} {low high : κ} (inside : high ∈ s) (below : low < high) :
    rank s high < rank s low := by
  refine Finset.card_lt_card ⟨fun other member => ?_, fun back => ?_⟩
  · obtain ⟨within, above⟩ := Finset.mem_filter.mp member
    exact Finset.mem_filter.mpr ⟨within, below.trans above⟩
  · have itself : high ∈ s.filter fun other => high < other :=
      back (Finset.mem_filter.mpr ⟨inside, below⟩)
    exact lt_irrefl high (Finset.mem_filter.mp itself).2

theorem rank_injOn (s : Finset κ) : Set.InjOn (rank s) s := by
  intro first inside second inside' same
  rcases lt_trichotomy first second with below | equal | above
  · exact absurd same (rank_lt inside' below).ne'
  · exact equal
  · exact absurd same (rank_lt inside above).ne

theorem rank_lt_card {s : Finset κ} {key : κ} (inside : key ∈ s) : rank s key < s.card := by
  refine Finset.card_lt_card (Finset.filter_ssubset.mpr ⟨key, inside, lt_irrefl key⟩)

/-- **The ranks of a set** are the numbers below its size. -/
theorem image_rank (s : Finset κ) : s.image (rank s) = Finset.range s.card := by
  refine Finset.eq_of_subset_of_card_le (fun r member => ?_) ?_
  · obtain ⟨key, inside, rfl⟩ := Finset.mem_image.mp member
    exact Finset.mem_range.mpr (rank_lt_card inside)
  · rw [Finset.card_range, Finset.card_image_of_injOn (rank_injOn s)]

/-- **There are `cap` greatest elements**, or all are. -/
theorem card_greatest (cap : Nat) (s : Finset κ) : (greatest cap s).card = min cap s.card := by
  have image : (greatest cap s).image (rank s) = Finset.range (min cap s.card) := by
    ext r
    rw [Finset.mem_image, Finset.mem_range, lt_min_iff, ← Finset.mem_range, ← Finset.mem_range,
      ← image_rank, Finset.mem_image, Finset.mem_range]
    constructor
    · rintro ⟨key, member, rfl⟩
      obtain ⟨inside, small⟩ := mem_greatest.mp member
      exact ⟨small, key, inside, rfl⟩
    · rintro ⟨small, key, inside, rfl⟩
      exact ⟨key, mem_greatest.mpr ⟨inside, small⟩, rfl⟩
  rw [← Finset.card_range (min cap s.card), ← image, Finset.card_image_of_injOn]
  exact (rank_injOn s).mono (Finset.coe_subset.mpr (greatest_subset cap s))

theorem greatest_of_card_le {cap : Nat} {s : Finset κ} (room : s.card ≤ cap) :
    greatest cap s = s :=
  Finset.filter_true_of_mem fun _ inside => lt_of_lt_of_le (rank_lt_card inside) room

/-- Above an element that is not among the greatest there are `cap` of these. -/
theorem cap_le_rank_greatest {cap : Nat} {s : Finset κ} {key : κ} (low : cap ≤ rank s key) :
    cap ≤ rank (greatest cap s) key := by
  -- among the elements above the key, ranks are as in the whole set
  have same : greatest cap (s.filter fun other => key < other) ⊆
      (greatest cap s).filter fun other => key < other := by
    intro other member
    obtain ⟨within, small⟩ := mem_greatest.mp member
    obtain ⟨inside, above⟩ := Finset.mem_filter.mp within
    have rank_eq : rank (s.filter fun other => key < other) other = rank s other := by
      unfold rank
      rw [Finset.filter_filter]
      congr 1
      exact Finset.filter_congr fun next _ => and_iff_right_of_imp above.trans
    exact Finset.mem_filter.mpr ⟨mem_greatest.mpr ⟨inside, rank_eq ▸ small⟩, above⟩
  calc cap = min cap (rank s key) := (min_eq_left low).symm
    _ = (greatest cap (s.filter fun other => key < other)).card := (card_greatest cap _).symm
    _ ≤ rank (greatest cap s) key := Finset.card_le_card same

/-- **What was dropped makes no difference.** -/
theorem greatest_insert (cap : Nat) (s : Finset κ) (new : κ) :
    greatest cap (insert new (greatest cap s)) = greatest cap (insert new s) := by
  have within : insert new (greatest cap s) ⊆ insert new s :=
    Finset.insert_subset_insert new (greatest_subset cap s)
  ext key
  rw [mem_greatest, mem_greatest]
  constructor
  · rintro ⟨member, small⟩
    refine ⟨within member, ?_⟩
    by_contra large
    -- one of the elements above the key was dropped, and those above that one were kept
    obtain ⟨dropped, above, missing⟩ : ∃ dropped, dropped ∈ (insert new s).filter (key < ·) ∧
        dropped ∉ insert new (greatest cap s) := by
      by_contra all
      have kept : (insert new s).filter (key < ·) ⊆ (insert new (greatest cap s)).filter (key < ·) :=
        fun other above => by
          refine Finset.mem_filter.mpr ⟨?_, (Finset.mem_filter.mp above).2⟩
          by_contra missing
          exact all ⟨other, above, missing⟩
      exact absurd (Finset.card_le_card kept) (not_le.mpr (lt_of_lt_of_le small (not_lt.mp large)))
    obtain ⟨inside, higher⟩ := Finset.mem_filter.mp above
    have old : dropped ∈ s := by
      rcases Finset.mem_insert.mp inside with rfl | old
      · exact absurd (Finset.mem_insert_self _ _) missing
      · exact old
    have low : cap ≤ rank s dropped := by
      by_contra high
      exact missing (Finset.mem_insert_of_mem (mem_greatest.mpr ⟨old, not_le.mp high⟩))
    have many : cap ≤ rank (insert new (greatest cap s)) key := by
      calc cap ≤ rank (greatest cap s) dropped := cap_le_rank_greatest low
        _ ≤ rank (insert new (greatest cap s)) dropped := rank_mono (Finset.subset_insert new _) _
        _ ≤ rank (insert new (greatest cap s)) key := Finset.card_le_card fun other member => by
            obtain ⟨kept, beyond⟩ := Finset.mem_filter.mp member
            exact Finset.mem_filter.mpr ⟨kept, higher.trans beyond⟩
    omega
  · rintro ⟨member, small⟩
    refine ⟨?_, lt_of_le_of_lt (rank_mono within key) small⟩
    rcases Finset.mem_insert.mp member with rfl | old
    · exact Finset.mem_insert_self _ _
    · refine Finset.mem_insert_of_mem (mem_greatest.mpr ⟨old, ?_⟩)
      exact lt_of_le_of_lt (rank_mono (Finset.subset_insert new s) key) small

/-- **Dropping the smallest element** of a set that is too large. -/
theorem greatest_erase {cap : Nat} {s : Finset κ} {least : κ} (large : cap < s.card)
    (inside : least ∈ s) (low : ∀ key ∈ s, least ≤ key) :
    greatest cap (s.erase least) = greatest cap s := by
  -- everything else is above it
  have all : rank s least = s.card - 1 := by
    rw [← Finset.card_erase_of_mem inside, rank]
    congr 1
    ext key
    rw [Finset.mem_filter, Finset.mem_erase]
    exact ⟨fun ⟨member, above⟩ => ⟨above.ne', member⟩,
      fun ⟨other, member⟩ => ⟨member, lt_of_le_of_ne (low key member) other.symm⟩⟩
  have same : ∀ key ∈ s, rank (s.erase least) key = rank s key := by
    intro key member
    unfold rank
    congr 1
    ext other
    rw [Finset.mem_filter, Finset.mem_filter, Finset.mem_erase]
    exact ⟨fun ⟨⟨_, within⟩, above⟩ => ⟨within, above⟩, fun ⟨within, above⟩ =>
      ⟨⟨fun equal => absurd (low key member) (not_le.mpr (equal ▸ above)), within⟩, above⟩⟩
  ext key
  rw [mem_greatest, mem_greatest, Finset.mem_erase]
  constructor
  · rintro ⟨⟨_, member⟩, small⟩
    exact ⟨member, same key member ▸ small⟩
  · rintro ⟨member, small⟩
    refine ⟨⟨?_, member⟩, (same key member).symm ▸ small⟩
    rintro rfl
    omega

end TrainsRing
