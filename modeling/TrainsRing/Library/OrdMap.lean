/-
**Ordered finite maps.**

`OrdMap κ β` is a finite map held as its list of entries in strictly increasing key order: what an
ordered tree map is to its callers. The order is a field of the structure, so an unsorted value
cannot be built, and iteration (`entries`), the smallest entry (`min?`) and lookup (`get?`) are all
read off the one list.

* `mem_entries_iff` — lookup is membership; everything below is stated through lookup.
* `ext_get?` — a map is determined by its lookups.
* `get?_insert`, `get?_erase`, `get?_insertNew` — the three updates.
* `get?_foldl`, `get?_collect` — loops that fill a map.
* `min?_eq_some`, `min?_eq_none` — the smallest entry.
* `size_erase_min`, `size_le_length` — counting entries.
-/

import Mathlib.Data.List.Pairwise
import Mathlib.Data.List.Nodup
import Mathlib.Order.Basic
import Mathlib.Tactic

namespace TrainsRing

/-- A finite map with its entries in strictly increasing key order. -/
structure OrdMap (κ : Type) (β : Type) [LinearOrder κ] where
  /-- The entries, in iteration order. -/
  entries : List (κ × β)
  /-- The keys strictly increase along the list. -/
  sorted : entries.Pairwise fun first second => first.1 < second.1

namespace OrdMap

variable {κ β : Type} [LinearOrder κ]

/-! ### Operations -/

/-- The map without entries. -/
def empty : OrdMap κ β := ⟨[], List.Pairwise.nil⟩

/-- The value stored at a key. -/
def get? (m : OrdMap κ β) (key : κ) : Option β :=
  (m.entries.find? fun entry => entry.1 = key).map Prod.snd

/-- The keys, in increasing order. -/
def keys (m : OrdMap κ β) : List κ := m.entries.map Prod.fst

/-- The number of entries. -/
def size (m : OrdMap κ β) : Nat := m.entries.length

/-- The entry with the smallest key. -/
def min? (m : OrdMap κ β) : Option (κ × β) := m.entries.head?

/-- One pass of sorted insertion, replacing the value of an equal key. -/
def insertEntry (key : κ) (value : β) : List (κ × β) → List (κ × β)
  | [] => [(key, value)]
  | entry :: rest =>
    if key < entry.1 then (key, value) :: entry :: rest
    else if key = entry.1 then (key, value) :: rest
    else entry :: insertEntry key value rest

theorem fst_mem_insertEntry {key : κ} {value : β} {entry : κ × β} :
    ∀ {entries : List (κ × β)}, entry ∈ insertEntry key value entries →
      entry = (key, value) ∨ entry ∈ entries
  | [], member => Or.inl (List.mem_singleton.mp member)
  | head :: rest, member => by
    unfold insertEntry at member
    split_ifs at member with below same
    · exact List.mem_cons.mp member
    · rcases List.mem_cons.mp member with new | old
      · exact Or.inl new
      · exact Or.inr (List.mem_cons_of_mem _ old)
    · rcases List.mem_cons.mp member with here | later
      · exact Or.inr (here ▸ List.mem_cons_self)
      · rcases fst_mem_insertEntry later with new | old
        · exact Or.inl new
        · exact Or.inr (List.mem_cons_of_mem _ old)

theorem sorted_insertEntry (key : κ) (value : β) : ∀ {entries : List (κ × β)},
    (entries.Pairwise fun first second => first.1 < second.1) →
      (insertEntry key value entries).Pairwise fun first second => first.1 < second.1
  | [], _ => List.pairwise_singleton _ _
  | head :: rest, ordered => by
    obtain ⟨above, tail⟩ := List.pairwise_cons.mp ordered
    unfold insertEntry
    split_ifs with below same
    · refine List.pairwise_cons.mpr ⟨fun entry member => ?_, ordered⟩
      rcases List.mem_cons.mp member with rfl | later
      · exact below
      · exact below.trans (above entry later)
    · subst same
      exact List.pairwise_cons.mpr ⟨above, tail⟩
    · refine List.pairwise_cons.mpr ⟨fun entry member => ?_, sorted_insertEntry key value tail⟩
      rcases fst_mem_insertEntry member with rfl | old
      · exact lt_of_le_of_ne (not_lt.mp below) (Ne.symm same)
      · exact above entry old

/-- Store a value at a key, replacing what was there. -/
def insert (m : OrdMap κ β) (key : κ) (value : β) : OrdMap κ β :=
  ⟨insertEntry key value m.entries, sorted_insertEntry key value m.sorted⟩

/-- Drop a key. -/
def erase (m : OrdMap κ β) (key : κ) : OrdMap κ β :=
  ⟨m.entries.filter fun entry => entry.1 ≠ key, m.sorted.filter _⟩

/-- Store a value at a key that has none. -/
def insertNew (m : OrdMap κ β) (key : κ) (value : β) : OrdMap κ β :=
  if (m.get? key).isSome then m else m.insert key value

/-- The map with a function applied to every value. -/
def mapValues {γ : Type} (f : β → γ) (m : OrdMap κ β) : OrdMap κ γ :=
  ⟨m.entries.map fun entry => (entry.1, f entry.2), List.pairwise_map.mpr m.sorted⟩

/-- The map of the keys of a list at which a function is defined. -/
def collect (keys : List κ) (f : κ → Option β) : OrdMap κ β :=
  keys.foldl (fun m key => match f key with
    | some value => m.insert key value
    | none => m) empty

/-! ### Lookup -/

theorem nodup_keys (m : OrdMap κ β) : m.keys.Nodup :=
  List.pairwise_map.mpr (m.sorted.imp ne_of_lt)

/-- Two entries of one key are the same entry. -/
theorem eq_of_mem_of_fst_eq (m : OrdMap κ β) {first second : κ × β} (left : first ∈ m.entries)
    (right : second ∈ m.entries) (same : first.1 = second.1) : first = second :=
  List.inj_on_of_nodup_map m.nodup_keys left right same

/-- **Lookup is membership.** -/
theorem mem_entries_iff (m : OrdMap κ β) {key : κ} {value : β} :
    (key, value) ∈ m.entries ↔ m.get? key = some value := by
  unfold get?
  constructor
  · intro member
    cases found : m.entries.find? fun entry => entry.1 = key with
    | none => simpa using List.find?_eq_none.mp found _ member
    | some entry =>
      have here : entry.1 = key := by simpa using List.find?_some found
      have same := m.eq_of_mem_of_fst_eq (List.mem_of_find?_eq_some found) member here
      rw [same]
      rfl
  · intro found
    obtain ⟨entry, here, rfl⟩ := Option.map_eq_some_iff.mp found
    have same : entry.1 = key := by simpa using List.find?_some here
    rw [← same]
    exact List.mem_of_find?_eq_some here

/-- **A map is what lookup says of it.** -/
@[ext] theorem ext_get? {m m' : OrdMap κ β} (same : ∀ key, m.get? key = m'.get? key) : m = m' := by
  have members : ∀ entry, entry ∈ m.entries ↔ entry ∈ m'.entries := fun entry => by
    rw [mem_entries_iff, mem_entries_iff, same]
  have distinct : ∀ map : OrdMap κ β, map.entries.Nodup := fun map =>
    map.sorted.imp fun below same => absurd (congrArg Prod.fst same) (ne_of_lt below)
  have perm := (List.perm_ext_iff_of_nodup (distinct m) (distinct m')).mpr members
  have entries := List.Perm.eq_of_pairwise
    (fun first second _ _ below above => absurd below above.asymm) m.sorted m'.sorted perm
  obtain ⟨entries', sorted⟩ := m
  obtain ⟨_, _⟩ := m'
  obtain rfl := entries
  rfl

theorem get?_eq_none_iff (m : OrdMap κ β) {key : κ} :
    m.get? key = none ↔ ∀ value, (key, value) ∉ m.entries := by
  rw [Option.eq_none_iff_forall_ne_some]
  exact forall_congr' fun value => not_congr m.mem_entries_iff.symm

@[simp] theorem get?_empty (key : κ) : (empty : OrdMap κ β).get? key = none := rfl

theorem mem_keys_iff (m : OrdMap κ β) {key : κ} :
    key ∈ m.keys ↔ ∃ value, m.get? key = some value := by
  unfold keys
  simp only [List.mem_map, Prod.exists, exists_and_right, exists_eq_right, mem_entries_iff]

theorem mem_insertEntry_iff {key other : κ} {value v : β} : ∀ {entries : List (κ × β)},
    (entries.Pairwise fun first second => first.1 < second.1) →
      ((other, v) ∈ insertEntry key value entries ↔
        (other = key ∧ v = value) ∨ (other ≠ key ∧ (other, v) ∈ entries))
  | [], _ => by simp [insertEntry]
  | head :: rest, ordered => by
    obtain ⟨above, tail⟩ := List.pairwise_cons.mp ordered
    have ih : (other, v) ∈ insertEntry key value rest ↔
        (other = key ∧ v = value) ∨ (other ≠ key ∧ (other, v) ∈ rest) := mem_insertEntry_iff tail
    unfold insertEntry
    split_ifs with below same
    · have outside : ∀ w, (key, w) ∉ head :: rest := by
        intro w member
        rcases List.mem_cons.mp member with here | later
        · exact absurd (congrArg Prod.fst here) (ne_of_lt below)
        · exact absurd (above _ later) (not_lt.mpr below.le)
      grind
    · subst same
      have outside : ∀ w, (head.1, w) ∉ rest := fun w member =>
        absurd (above _ member) (lt_irrefl head.1)
      grind
    · grind

theorem get?_insert (m : OrdMap κ β) (key other : κ) (value : β) :
    (m.insert key value).get? other = if other = key then some value else m.get? other := by
  ext v
  rw [← mem_entries_iff, insert, mem_insertEntry_iff m.sorted, mem_entries_iff]
  split_ifs with same
  · simp [same, eq_comm]
  · simp [same]

theorem get?_erase (m : OrdMap κ β) (key other : κ) :
    (m.erase key).get? other = if other = key then none else m.get? other := by
  ext v
  rw [← mem_entries_iff, erase, List.mem_filter, mem_entries_iff]
  split_ifs with same
  · simp [same]
  · simp [same]

/-- Dropping a key that is not stored. -/
theorem erase_absent {m : OrdMap κ β} {key : κ} (absent : m.get? key = none) :
    m.erase key = m := by
  have kept : m.entries.filter (fun entry => entry.1 ≠ key) = m.entries := by
    refine List.filter_eq_self.mpr fun entry member => ?_
    have other : entry.1 ≠ key := fun same =>
      m.get?_eq_none_iff.mp absent entry.2 (same ▸ member)
    simpa using other
  obtain ⟨entries, sorted⟩ := m
  simp only [erase, kept]

theorem get?_insertNew (m : OrdMap κ β) (key other : κ) (value : β) :
    (m.insertNew key value).get? other =
      if other = key then some ((m.get? key).getD value) else m.get? other := by
  unfold insertNew
  split_ifs with present same same
  · obtain ⟨old, found⟩ := Option.isSome_iff_exists.mp present
    rw [same, found, Option.getD_some]
  · rfl
  · rw [get?_insert, if_pos same, Option.not_isSome_iff_eq_none.mp present, Option.getD_none]
  · rw [get?_insert, if_neg same]

theorem get?_insert_self (m : OrdMap κ β) (key : κ) (value : β) :
    (m.insert key value).get? key = some value := by
  rw [get?_insert, if_pos rfl]

/-! ### Loops that fill a map -/

/-- **A loop over a map that updates another one, key by key.** `update` changes the lookup at its
own key only, by `effect`. -/
theorem get?_foldl {γ : Type} (update : OrdMap κ β → κ × γ → OrdMap κ β)
    (effect : γ → Option β → Option β)
    (spec : ∀ m entry key, (update m entry).get? key =
      if key = entry.1 then effect entry.2 (m.get? key) else m.get? key)
    (source : OrdMap κ γ) (m : OrdMap κ β) (key : κ) :
    (source.entries.foldl update m).get? key =
      match source.get? key with
      | some value => effect value (m.get? key)
      | none => m.get? key := by
  have general : ∀ (entries : List (κ × γ)) (m : OrdMap κ β), (entries.map Prod.fst).Nodup →
      (entries.foldl update m).get? key =
        match (entries.find? fun entry => entry.1 = key).map Prod.snd with
        | some value => effect value (m.get? key)
        | none => m.get? key := by
    intro entries
    induction entries with
    | nil => intro m _; rfl
    | cons head rest ih =>
      intro m distinct
      rw [List.map_cons] at distinct
      obtain ⟨fresh, tail⟩ := List.nodup_cons.mp distinct
      rw [List.foldl_cons, ih _ tail, List.find?_cons, spec]
      by_cases same : head.1 = key
      · have absent : rest.find? (fun entry => entry.1 = key) = none := by
          refine List.find?_eq_none.mpr fun entry member here => fresh ?_
          rw [same, ← (of_decide_eq_true here : entry.1 = key)]
          exact List.mem_map_of_mem member
        rw [absent]
        simp [same]
      · simp [same, Ne.symm same]
  exact general source.entries m source.nodup_keys

theorem get?_collect (f : κ → Option β) (key : κ) (keys : List κ) :
    (collect keys f).get? key = if key ∈ keys then f key else none := by
  have general : ∀ (keys : List κ) (m : OrdMap κ β),
      (keys.foldl (fun m key => match f key with
        | some value => m.insert key value
        | none => m) m).get? key = if key ∈ keys then (f key).or (m.get? key) else m.get? key := by
    intro keys
    induction keys with
    | nil => intro m; rfl
    | cons head rest ih =>
      intro m
      rw [List.foldl_cons, ih]
      by_cases same : key = head
      · subst same
        cases value : f key <;> simp [get?_insert]
      · cases value : f head <;> simp [same, get?_insert]
  rw [collect, general]
  simp

/-! ### The smallest entry -/

theorem min?_eq_none {m : OrdMap κ β} : m.min? = none ↔ ∀ key, m.get? key = none := by
  unfold min?
  rw [List.head?_eq_none_iff]
  constructor
  · intro none key
    rw [get?_eq_none_iff, none]
    simp
  · intro absent
    rw [List.eq_nil_iff_forall_not_mem]
    rintro ⟨key, value⟩ member
    rw [mem_entries_iff, absent key] at member
    cases member

/-- **The smallest entry**: it is stored, and every stored key is at or above it. -/
theorem min?_eq_some {m : OrdMap κ β} {key : κ} {value : β} (smallest : m.min? = some (key, value)) :
    m.get? key = some value ∧ ∀ other v, m.get? other = some v → key ≤ other := by
  obtain ⟨rest, shape⟩ := List.head?_eq_some_iff.mp smallest
  refine ⟨m.mem_entries_iff.mp (shape ▸ List.mem_cons_self), fun other v found => ?_⟩
  have member := m.mem_entries_iff.mpr found
  have ordered := m.sorted
  rw [shape] at member ordered
  rcases List.mem_cons.mp member with here | later
  · exact (congrArg Prod.fst here).ge
  · exact ((List.pairwise_cons.mp ordered).1 _ later).le

theorem size_erase_lt {m : OrdMap κ β} {key : κ} {value : β} (found : m.get? key = some value) :
    (m.erase key).size < m.size := by
  refine List.length_filter_lt_length_iff_exists.mpr ⟨(key, value), m.mem_entries_iff.mpr found, ?_⟩
  simp

/-- Dropping the smallest entry leaves one entry less. -/
theorem size_erase_min {m : OrdMap κ β} {key : κ} {value : β} (smallest : m.min? = some (key, value)) :
    (m.erase key).size + 1 = m.size := by
  obtain ⟨rest, shape⟩ := List.head?_eq_some_iff.mp smallest
  have ordered := m.sorted
  rw [shape] at ordered
  have above := (List.pairwise_cons.mp ordered).1
  have kept : rest.filter (fun entry => entry.1 ≠ key) = rest :=
    List.filter_eq_self.mpr fun entry later => by simpa using (above entry later).ne'
  simp only [size, erase, shape, List.filter_cons, ne_eq, not_true, decide_false, kept]
  simp

theorem size_le_size_insert (m : OrdMap κ β) (key : κ) (value : β) :
    m.size ≤ (m.insert key value).size := by
  have general : ∀ entries : List (κ × β), entries.length ≤ (insertEntry key value entries).length := by
    intro entries
    induction entries with
    | nil => exact Nat.zero_le _
    | cons head rest ih =>
      unfold insertEntry
      split_ifs with below same
      · simp
      · simp
      · simpa using ih
  exact general m.entries

theorem size_insert_le (m : OrdMap κ β) (key : κ) (value : β) :
    (m.insert key value).size ≤ m.size + 1 := by
  have general : ∀ entries : List (κ × β),
      (insertEntry key value entries).length ≤ entries.length + 1 := by
    intro entries
    induction entries with
    | nil => exact le_rfl
    | cons head rest ih =>
      unfold insertEntry
      split_ifs with below same
      · simp
      · simp
      · simpa using ih
  exact general m.entries

/-- A map has no more entries than a list that holds all its keys. -/
theorem size_le_length {m : OrdMap κ β} {keys : List κ}
    (inside : ∀ key value, m.get? key = some value → key ∈ keys) : m.size ≤ keys.length := by
  have subset : m.keys ⊆ keys := fun key member => by
    obtain ⟨value, found⟩ := m.mem_keys_iff.mp member
    exact inside key value found
  have bound := (List.subperm_of_subset m.nodup_keys subset).length_le
  rwa [OrdMap.keys, List.length_map] at bound

end OrdMap

end TrainsRing
