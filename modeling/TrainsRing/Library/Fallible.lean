/-
**Computations that may fail.**

Reading a result of `Except` backwards: what a bind or a loop has returned, it has returned step by
step.

* `bind_ok`, `map_ok` — a bind returns when both of its parts do.
* `mapM_ok`, `optionMapM_eq_some` — what a list has been taken to, each of its elements has.
* `foldlM_ok` — **the rule for loops**: a loop that has returned kept whatever each round keeps.
-/

import Mathlib.Tactic

namespace TrainsRing

variable {ε α β σ : Type}

/-- **A bind returns when both of its parts do.** -/
theorem bind_ok {x : Except ε α} {f : α → Except ε β} {b : β} :
    x >>= f = .ok b ↔ ∃ a, x = .ok a ∧ f a = .ok b := by
  cases x with
  | error e => simp [bind, Except.bind]
  | ok a => simp [bind, Except.bind]

/-- **A list is taken to the results of its elements.** -/
theorem mapM_ok {f : α → Except ε β} {items : List α} :
    ∀ {results : List β}, items.mapM f = .ok results ↔
      List.Forall₂ (fun item result => f item = .ok result) items results := by
  induction items with
  | nil =>
    intro results
    rw [List.mapM_nil, List.forall₂_nil_left_iff]
    exact ⟨fun same => (Except.ok.inj same).symm, fun same => congrArg Except.ok same.symm⟩
  | cons item rest ih =>
    intro results
    rw [List.mapM_cons, bind_ok, List.forall₂_cons_left_iff]
    constructor
    · rintro ⟨result, first, others⟩
      obtain ⟨later, rest_ok, same⟩ := bind_ok.mp others
      exact ⟨result, later, first, ih.mp rest_ok, (Except.ok.inj same).symm⟩
    · rintro ⟨result, later, first, rest_ok, rfl⟩
      exact ⟨result, first, bind_ok.mpr ⟨later, ih.mpr rest_ok, rfl⟩⟩

theorem optionMapM_eq_some {f : α → Option β} {items : List α} :
    ∀ {results : List β}, items.mapM f = some results ↔
      List.Forall₂ (fun item result => f item = some result) items results := by
  induction items with
  | nil =>
    intro results
    rw [List.mapM_nil, List.forall₂_nil_left_iff]
    exact ⟨fun same => (Option.some.inj same).symm, fun same => congrArg some same.symm⟩
  | cons item rest ih =>
    intro results
    rw [List.mapM_cons, List.forall₂_cons_left_iff, Option.bind_eq_bind, Option.bind_eq_some_iff]
    constructor
    · rintro ⟨result, first, others⟩
      obtain ⟨later, rest_some, same⟩ := Option.bind_eq_some_iff.mp others
      exact ⟨result, later, first, ih.mp rest_some, (Option.some.inj same).symm⟩
    · rintro ⟨result, later, first, rest_some, rfl⟩
      exact ⟨result, first, Option.bind_eq_some_iff.mpr ⟨later, ih.mpr rest_some, rfl⟩⟩

/-- **The rule for loops.** `P` relates the state to the rounds left: where each round that returns
keeps it, a loop that returns ends with no round left. -/
theorem foldlM_ok {round : σ → α → Except ε σ} {P : σ → List α → Prop}
    (keeps : ∀ s a rest s', round s a = .ok s' → P s (a :: rest) → P s' rest) :
    ∀ {items : List α} {s s' : σ}, items.foldlM round s = .ok s' → P s items → P s' [] := by
  intro items
  induction items with
  | nil =>
    intro s s' returned holds
    exact Except.ok.inj returned ▸ holds
  | cons a rest ih =>
    intro s s' returned holds
    obtain ⟨middle, first, later⟩ := bind_ok.mp (List.foldlM_cons.symm.trans returned)
    exact ih later (keeps s a rest middle first holds)

end TrainsRing
