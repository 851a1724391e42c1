/-
**A token that goes around.**

A token stands at one of some stations. Some steps of a machine move it to the next station, the
others leave it where it is. Then what a move establishes at the station it reaches, and what no step
undoes, holds at every station after enough moves.

* `Machine.count` — how many steps of a run are of a kind.
* `Machine.Throughout` — a run all of whose states have some property.
* `Machine.Carried` — a token, and the steps that move it.
* `Carried.visited` — the stations visited; `Carried.sweep` — **all of them, after one round**.
* `Machine.Rounds` — runs one after the other, each with many steps of every kind; `rounds_exist`.
-/

import TrainsRing.Library.Machine

namespace TrainsRing

namespace Machine

variable {σ α ι : Type} (m : Machine σ α)

/-- How many steps of a run are of a kind. -/
def count (kind : σ → α → Prop) [∀ s a, Decidable (kind s a)] : σ → List α → Nat
  | _, [] => 0
  | s, a :: rest => (if kind s a then 1 else 0) + count kind (m.next s a) rest

/-- Every state of a run, the first and the last included. -/
def Throughout (Holds : σ → Prop) : σ → List α → Prop
  | s, [] => Holds s
  | s, a :: rest => Holds s ∧ Throughout Holds (m.next s a) rest

/-- A token at a station, which some steps move to the next one. -/
structure Carried (Holds : σ → Prop) (moves : σ → α → Prop) (next : ι → ι) (stands : ι → σ → Prop) :
    Prop where
  still : ∀ s a x, Holds s → Holds (m.next s a) → m.legal s a → ¬ moves s a → stands x s →
    stands x (m.next s a)
  moved : ∀ s a x, Holds s → Holds (m.next s a) → m.legal s a → moves s a → stands x s →
    stands (next x) (m.next s a)

variable {m}

section Throughout

variable {Holds Q : σ → Prop}

theorem Throughout.first {s : σ} {run : List α} (along : m.Throughout Holds s run) : Holds s := by
  cases run with
  | nil => exact along
  | cons a rest => exact along.1

theorem Throughout.last (run : List α) : ∀ {s : σ}, m.Throughout Holds s run → Holds (m.run s run) := by
  induction run with
  | nil => exact fun along => along
  | cons a rest ih => exact fun along => ih along.2

/-- What no step of a run undoes holds throughout. -/
theorem Throughout.and (run : List α) : ∀ {s : σ}, m.Throughout Holds s run → m.LegalRun s run →
    (∀ s a, Holds s → Holds (m.next s a) → m.legal s a → Q s → Q (m.next s a)) → Q s →
      m.Throughout (fun s => Holds s ∧ Q s) s run := by
  induction run with
  | nil => exact fun along _ _ now => ⟨along, now⟩
  | cons a rest ih =>
    intro s along legal keeps now
    exact ⟨⟨along.1, now⟩,
      ih along.2 legal.2 keeps (keeps s a along.1 along.2.first legal.1 now)⟩

end Throughout

section Sweep

variable {Holds : σ → Prop} {moves : σ → α → Prop} {next : ι → ι} {stands P : ι → σ → Prop}

theorem Carried.mono {Holds' : σ → Prop} (carried : m.Carried Holds moves next stands)
    (inside : ∀ s, Holds' s → Holds s) : m.Carried Holds' moves next stands :=
  ⟨fun s a x now soon => carried.still s a x (inside s now) (inside _ soon),
    fun s a x now soon => carried.moved s a x (inside s now) (inside _ soon)⟩

variable [∀ s a, Decidable (moves s a)]

/-- **The stations visited.** -/
theorem Carried.visited (carried : m.Carried Holds moves next stands)
    (stable : ∀ s a x, Holds s → Holds (m.next s a) → m.legal s a → P x s → P x (m.next s a))
    (visit : ∀ s a x, Holds s → Holds (m.next s a) → m.legal s a → moves s a → stands x s →
      P (next x) (m.next s a))
    (run : List α) : ∀ {s : σ} {x : ι}, m.Throughout Holds s run → m.LegalRun s run → stands x s →
      ∀ j, 1 ≤ j → j ≤ m.count moves s run → P (next^[j] x) (m.run s run) := by
  induction run with
  | nil =>
    intro s x _ _ _ j first last
    have none : j ≤ 0 := last
    omega
  | cons a rest ih =>
    intro s x along legal here j first last
    have last : j ≤ (if moves s a then 1 else 0) + m.count moves (m.next s a) rest := last
    obtain ⟨now, after⟩ := along
    have soon := after.first
    by_cases moving : moves s a
    · rw [if_pos moving] at last
      obtain ⟨before, rfl⟩ := Nat.exists_eq_add_of_le' first
      rcases Nat.eq_zero_or_pos before with rfl | more
      · -- reached by this step, and kept by the rest of the run
        exact (after.and rest legal.2 (fun s a holds soon legal => stable s a (next x) holds soon legal)
          (visit s a x now soon legal.1 moving here)).last.2
      · rw [Function.iterate_succ_apply]
        exact ih after legal.2 (carried.moved s a x now soon legal.1 moving here) before more
          (by omega)
    · rw [if_neg moving, Nat.zero_add] at last
      exact ih after legal.2 (carried.still s a x now soon legal.1 moving here) j first last

/-- **One round**: every station, once the token has been moved as often as there are stations. -/
theorem Carried.sweep (carried : m.Carried Holds moves next stands)
    (stable : ∀ s a x, Holds s → Holds (m.next s a) → m.legal s a → P x s → P x (m.next s a))
    (visit : ∀ s a x, Holds s → Holds (m.next s a) → m.legal s a → moves s a → stands x s →
      P (next x) (m.next s a))
    {n : Nat} (around : ∀ x y, ∃ j, 1 ≤ j ∧ j ≤ n ∧ next^[j] x = y) {run : List α} {s : σ} {x : ι}
    (along : m.Throughout Holds s run) (legal : m.LegalRun s run) (here : stands x s)
    (full : n ≤ m.count moves s run) (y : ι) : P y (m.run s run) := by
  obtain ⟨j, first, last, rfl⟩ := around x y
  exact carried.visited stable visit run along legal here j first (last.trans full)

end Sweep

/-! ### Rounds -/

variable (m)

/-- Legal runs one after the other, with at least `n` steps of every kind in each. -/
def Rounds {κ : Type} (kind : κ → σ → α → Prop) [∀ k s a, Decidable (kind k s a)] (kinds : List κ)
    (n : Nat) : σ → List (List α) → Prop
  | _, [] => True
  | s, run :: rest => (m.LegalRun s run ∧ ∀ k ∈ kinds, n ≤ m.count (kind k) s run) ∧
      Rounds kind kinds n (m.run s run) rest

/-- The state after some runs. -/
def runAll : σ → List (List α) → σ
  | s, [] => s
  | s, run :: rest => runAll (m.run s run) rest

variable {m}

section Rounds

variable {κ : Type} {kind : κ → σ → α → Prop} [∀ k s a, Decidable (kind k s a)] {kinds : List κ}
  {n : Nat}

instance decidableRounds [∀ s a, Decidable (m.legal s a)] :
    ∀ (s : σ) (runs : List (List α)), Decidable (m.Rounds kind kinds n s runs)
  | _, [] => isTrue trivial
  | s, run :: rest =>
    have := decidableRounds (m.run s run) rest
    inferInstanceAs (Decidable ((m.LegalRun s run ∧ ∀ k ∈ kinds, n ≤ m.count (kind k) s run) ∧
      m.Rounds kind kinds n (m.run s run) rest))

theorem Rounds.reaches : ∀ {runs : List (List α)} {s : σ}, m.Rounds kind kinds n s runs →
    m.Reaches s (m.runAll s runs)
  | [], s, _ => Reaches.refl s
  | _ :: _, _, rounds => (reaches_run rounds.1.1).trans (Rounds.reaches rounds.2)

section Exist

variable {Holds : σ → Prop} [DecidableEq κ]

/-- Steps of the kinds in a list, one after the other. -/
theorem wanted_run (keeps : ∀ s a, Holds s → m.legal s a → Holds (m.next s a))
    (can : ∀ s, Holds s → ∀ k ∈ kinds, ∃ a, m.legal s a ∧ kind k s a) (wanted : List κ) :
    (∀ k ∈ wanted, k ∈ kinds) → ∀ {s : σ}, Holds s → ∃ run, run.length = wanted.length ∧
      m.LegalRun s run ∧ Holds (m.run s run) ∧ ∀ k, wanted.count k ≤ m.count (kind k) s run := by
  induction wanted with
  | nil => exact fun _ s holds => ⟨[], rfl, trivial, holds, fun k => le_rfl⟩
  | cons k rest ih =>
    intro known s holds
    obtain ⟨a, legal, isKind⟩ := can s holds k (known k List.mem_cons_self)
    obtain ⟨run, length, legals, last, many⟩ := ih (fun other member =>
      known other (List.mem_cons_of_mem k member)) (keeps s a holds legal)
    refine ⟨a :: run, congrArg Nat.succ length, ⟨legal, legals⟩, last, fun other => ?_⟩
    show _ ≤ (if kind other s a then 1 else 0) + m.count (kind other) (m.next s a) run
    have later := many other
    rw [List.count_cons]
    by_cases same : k = other
    · subst same
      rw [if_pos (beq_self_eq_true k), if_pos isKind]
      omega
    · rw [if_neg (by simpa using same)]
      omega

/-- **There are as many rounds as one likes**, when a step of every kind can always be taken; `n` steps
of every kind are enough for each. -/
theorem rounds_exist (keeps : ∀ s a, Holds s → m.legal s a → Holds (m.next s a))
    (can : ∀ s, Holds s → ∀ k ∈ kinds, ∃ a, m.legal s a ∧ kind k s a) (n times : Nat) :
    ∀ {s : σ}, Holds s → ∃ runs, runs.length = times ∧ (∀ run ∈ runs, run.length = kinds.length * n) ∧
      m.Rounds kind kinds n s runs := by
  induction times with
  | zero => exact fun _ => ⟨[], rfl, fun _ none => absurd none List.not_mem_nil, trivial⟩
  | succ times ih =>
    intro s holds
    obtain ⟨run, short, legal, last, many⟩ := wanted_run keeps can
      (kinds.flatMap fun k => List.replicate n k) (fun k member => by
        obtain ⟨other, inside, copy⟩ := List.mem_flatMap.mp member
        exact List.eq_of_mem_replicate copy ▸ inside) holds
    have size : (kinds.flatMap fun k => List.replicate n k).length = kinds.length * n := by
      rw [List.length_flatMap, List.map_congr_left fun k _ => List.length_replicate, List.map_const',
        List.sum_replicate, smul_eq_mul]
    obtain ⟨runs, length, sizes, rounds⟩ := ih last
    refine ⟨run :: runs, congrArg Nat.succ length, fun other member => ?_,
      ⟨legal, fun k member => ?_⟩, rounds⟩
    · rcases List.mem_cons.mp member with rfl | later
      · exact short.trans size
      · exact sizes other later
    have copies : (List.replicate n k).count k ≤
        (kinds.flatMap fun k => List.replicate n k).count k :=
      (List.sublist_flatten_of_mem (List.mem_map_of_mem member)).count_le k
    rw [List.count_replicate_self] at copies
    exact copies.trans (many k)

end Exist

end Rounds

end Machine

end TrainsRing
