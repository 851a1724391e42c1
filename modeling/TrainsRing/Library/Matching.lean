/-
**Ordered maps that differ in their values only.**

`Matching R m m'` says that two ordered maps have the same keys and related values. What a program
does to a map by looking at keys alone (insert, erase, take the smallest entry, count) keeps two
maps matching, and so does filling them from two related functions.

* `Matching.insert`, `Matching.erase`, `Matching.min?`, `Matching.size` — the operations.
* `Matching.collect` — maps filled over one list of keys.
* `Matching.foldl` — **loops over matching maps**: related bodies keep related states.
-/

import Mathlib.Data.List.Forall2
import TrainsRing.Library.OrdMap

namespace TrainsRing

variable {κ : Type} [LinearOrder κ] {β γ : Type} {R : β → γ → Prop}

/-- The same key and related values. -/
def EntryMatch (R : β → γ → Prop) (entry : κ × β) (other : κ × γ) : Prop :=
  entry.1 = other.1 ∧ R entry.2 other.2

/-- The same keys and related values. -/
def Matching (R : β → γ → Prop) (m : OrdMap κ β) (m' : OrdMap κ γ) : Prop :=
  List.Forall₂ (EntryMatch R) m.entries m'.entries

namespace Matching

variable {m : OrdMap κ β} {m' : OrdMap κ γ}

theorem empty : Matching R (OrdMap.empty : OrdMap κ β) OrdMap.empty := List.Forall₂.nil

theorem refl {S : β → β → Prop} (reflexive : ∀ value, S value value) (m : OrdMap κ β) :
    Matching S m m :=
  List.forall₂_same.mpr fun entry _ => ⟨rfl, reflexive entry.2⟩

theorem size (matching : Matching R m m') : m.size = m'.size := matching.length_eq

/-- The smallest entries match. -/
theorem min? (matching : Matching R m m') : Option.Rel (EntryMatch R) m.min? m'.min? := by
  have heads : ∀ {entries : List (κ × β)} {entries' : List (κ × γ)},
      List.Forall₂ (EntryMatch R) entries entries' →
      Option.Rel (EntryMatch R) entries.head? entries'.head? := by
    intro entries entries' together
    cases together with
    | nil => exact Option.Rel.none
    | cons first _ => exact Option.Rel.some first
  exact heads matching

theorem insertEntry (key : κ) {value : β} {value' : γ} (related : R value value')
    {entries : List (κ × β)} {entries' : List (κ × γ)}
    (matching : List.Forall₂ (EntryMatch R) entries entries') :
    List.Forall₂ (EntryMatch R) (OrdMap.insertEntry key value entries)
      (OrdMap.insertEntry key value' entries') := by
  have new : EntryMatch R (key, value) (key, value') := ⟨rfl, related⟩
  induction matching with
  | nil => exact .cons new .nil
  | @cons entry entry' rest rest' first later ih =>
    unfold OrdMap.insertEntry
    rw [← first.1]
    split_ifs with below same
    · exact .cons new (.cons first later)
    · exact .cons new later
    · exact .cons first ih

theorem insert (matching : Matching R m m') (key : κ) {value : β} {value' : γ}
    (related : R value value') : Matching R (m.insert key value) (m'.insert key value') :=
  insertEntry key related matching

theorem erase (matching : Matching R m m') (key : κ) :
    Matching R (m.erase key) (m'.erase key) := by
  refine List.rel_filter (fun entry entry' first => ?_) matching
  simp [first.1]

/-- **Maps filled over one list of keys** from functions with related values. -/
theorem collect (keys : List κ) {f : κ → Option β} {g : κ → Option γ}
    (related : ∀ key, Option.Rel R (f key) (g key)) :
    Matching R (OrdMap.collect keys f) (OrdMap.collect keys g) := by
  refine List.rel_foldl (P := Matching R) (R := Eq) ?_ empty (List.forall₂_same.mpr fun _ _ => rfl)
  rintro before before' matching key _ rfl
  dsimp only
  have same := related key
  generalize f key = value, g key = value' at same ⊢
  cases same with
  | none => exact matching
  | some held => exact matching.insert key held

/-- **A loop over two matching maps** whose bodies keep related states related. -/
theorem foldl {σ τ : Type} (P : σ → τ → Prop) {step : σ → κ × β → σ} {step' : τ → κ × γ → τ}
    (body : ∀ s t entry entry', P s t → EntryMatch R entry entry' → P (step s entry) (step' t entry'))
    (matching : Matching R m m') {s : σ} {t : τ} (related : P s t) :
    P (m.entries.foldl step s) (m'.entries.foldl step' t) :=
  List.rel_foldl (fun s t held entry entry' first => body s t entry entry' held first) related
    matching

end Matching

end TrainsRing
