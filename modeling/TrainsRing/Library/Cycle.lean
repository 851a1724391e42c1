/-
**Cycles with holes.**

`n` positions stand in a circle and some are out of use. `nextAlive n dead me` walks on from `me` to
the first position in use; it is written with a loop, and everything about it is read off one
characterisation through the distance `ahead`, the number of steps forward (a full turn for `me`
itself).

* `nextAlive_spec` — **the next position in use** is the one fewest steps ahead.
* `Arc` — the positions from `q` up to `s`. `arc_nextAlive` and `arc_full` are what moving to the next
  position does to it: it adds exactly that position, or the walk is back at `q` and the arc is full.
* `nextAlive_walk` — one hop of a walk, counted in steps from its start.
* `nextAlive_terminates` — the loop ends by itself, within a turn.
* `nextAlive_cycle` — **the positions in use form one cycle**.
-/

import Mathlib.Data.Finset.Basic
import Mathlib.Tactic

namespace TrainsRing

/-- The steps forward from `me` to `x`, a full turn when they are equal. -/
def ahead (n me x : Nat) : Nat := if me < x then x - me else x + n - me

/-- The steps forward from `q` to `x`, none when they are equal. -/
def behind (n q x : Nat) : Nat := if q ≤ x then x - q else x + n - q

/-- The loop of `next_alive`: move on from `j` while it is out of use and not `me`. -/
def seekAlive (n : Nat) (dead : Finset Nat) (me : Nat) : Nat → Nat → Nat
  | 0, j => j
  | fuel + 1, j => if j ∈ dead ∧ j ≠ me then seekAlive n dead me fuel ((j + 1) % n) else j

/-- `next_alive`: the next position in use after `me` (wraps). A turn is `n` steps, which bounds the
rounds of the loop. -/
def nextAlive (n : Nat) (dead : Finset Nat) (me : Nat) : Nat :=
  seekAlive n dead me n ((me + 1) % n)

variable {n : Nat} {dead : Finset Nat} {me : Nat}

theorem succ_mod {j : Nat} (inside : j < n) : (j + 1) % n = if j + 1 = n then 0 else j + 1 := by
  split_ifs with wraps
  · rw [wraps, Nat.mod_self]
  · exact Nat.mod_eq_of_lt (by omega)

/-- One step forward. -/
theorem ahead_succ {j : Nat} (inside : me < n) (position : j < n) (before : j ≠ me) :
    (j + 1) % n < n ∧ ahead n me ((j + 1) % n) = ahead n me j + 1 := by
  rw [succ_mod position]
  unfold ahead
  split_ifs <;> omega

theorem ahead_injective {x y : Nat} (inside : me < n) (left : x < n) (right : y < n)
    (same : ahead n me x = ahead n me y) : x = y := by
  unfold ahead at same
  split_ifs at same <;> omega

theorem ahead_le {x : Nat} (inside : me < n) (position : x < n) :
    1 ≤ ahead n me x ∧ ahead n me x ≤ n ∧ (ahead n me x = n ↔ x = me) := by
  unfold ahead
  split_ifs <;> omega

/-- The loop stops at the first position that is in use or `me`. -/
theorem seekAlive_spec (dead : Finset Nat) (inside : me < n) (fuel : Nat) :
    ∀ j, j < n → n ≤ ahead n me j + fuel → seekAlive n dead me fuel j < n ∧
      (seekAlive n dead me fuel j ∉ dead ∨ seekAlive n dead me fuel j = me) ∧
      ∀ x, x < n → x ∉ dead ∨ x = me → ahead n me j ≤ ahead n me x →
        ahead n me (seekAlive n dead me fuel j) ≤ ahead n me x := by
  induction fuel with
  | zero =>
    intro j position turn
    have full := ahead_le inside position
    have same : j = me := full.2.2.mp (by omega)
    exact ⟨position, Or.inr same, fun x _ _ below => below⟩
  | succ fuel ih =>
    intro j position turn
    unfold seekAlive
    by_cases skip : j ∈ dead ∧ j ≠ me
    · rw [if_pos skip]
      obtain ⟨moved, further⟩ := ahead_succ inside position skip.2
      obtain ⟨bound, stops, least⟩ := ih _ moved (by omega)
      refine ⟨bound, stops, fun x xInside use below => least x xInside use ?_⟩
      -- `x` is not the position just skipped
      have other : ahead n me j ≠ ahead n me x := fun same => by
        obtain rfl := ahead_injective inside position xInside same
        exact use.elim (fun alive => alive skip.1) skip.2
      omega
    · rw [if_neg skip]
      refine ⟨position, ?_, fun x _ _ below => below⟩
      by_cases use : j ∈ dead
      · exact Or.inr (by_contra fun other => skip ⟨use, other⟩)
      · exact Or.inl use

/-- **The next position in use** is the one fewest steps ahead. -/
theorem nextAlive_spec (dead : Finset Nat) (inside : me < n) :
    nextAlive n dead me < n ∧ (nextAlive n dead me ∉ dead ∨ nextAlive n dead me = me) ∧
      ∀ x, x < n → x ∉ dead ∨ x = me → ahead n me (nextAlive n dead me) ≤ ahead n me x := by
  have first : (me + 1) % n < n ∧ ahead n me ((me + 1) % n) = 1 := by
    rw [succ_mod inside]
    unfold ahead
    split_ifs <;> omega
  obtain ⟨bound, stops, least⟩ := seekAlive_spec dead inside n _ first.1 (by omega)
  exact ⟨bound, stops, fun x xInside use => least x xInside use (by
    have positive := (ahead_le inside xInside).1
    omega)⟩

theorem nextAlive_lt (inside : me < n) : nextAlive n dead me < n := (nextAlive_spec dead inside).1

/-- Once somebody is in use, so is the next position. -/
theorem nextAlive_not_mem (inside : me < n) {x : Nat} (position : x < n) (use : x ∉ dead) :
    nextAlive n dead me ∉ dead := by
  obtain ⟨bound, stops, least⟩ := nextAlive_spec dead inside
  rcases stops with alive | same
  · exact alive
  · -- the walk went a full turn, so `me` is the only candidate
    have turn := least x position (Or.inl use)
    rw [same, (ahead_le inside inside).2.2.mpr rfl] at turn
    have full := ahead_le inside position
    rw [same, ← full.2.2.mp (by omega)]
    exact use

/-! ### Arcs -/

/-- `x` lies on the way from `q` to `s`, both included. -/
def Arc (n q s x : Nat) : Prop := behind n q x ≤ behind n q s

theorem arc_self {q x : Nat} (inside : q < n) : Arc n q q x ↔ x = q := by
  unfold Arc behind
  split_ifs <;> omega

/-- **One hop**: unless it comes back to `q`, it adds to the arc exactly the position it reaches. -/
theorem arc_nextAlive {q s x : Nat} (qInside : q < n) (use : q ∉ dead) (sInside : s < n)
    (xInside : x < n) (alive : x ∉ dead) (onward : nextAlive n dead s ≠ q) :
    Arc n q (nextAlive n dead s) x ↔ Arc n q s x ∨ x = nextAlive n dead s := by
  obtain ⟨bound, -, least⟩ := nextAlive_spec dead sInside
  have toStart := least q qInside (Or.inl use)
  have toX := least x xInside (Or.inl alive)
  generalize nextAlive n dead s = r at bound toStart toX onward ⊢
  unfold Arc behind
  unfold ahead at toStart toX
  split_ifs at toStart toX ⊢ <;> omega

theorem not_arc_nextAlive {q s : Nat} (qInside : q < n) (use : q ∉ dead) (sInside : s < n)
    (onward : nextAlive n dead s ≠ q) : ¬ Arc n q s (nextAlive n dead s) := by
  obtain ⟨bound, -, least⟩ := nextAlive_spec dead sInside
  have toStart := least q qInside (Or.inl use)
  generalize nextAlive n dead s = r at bound toStart onward ⊢
  unfold Arc behind
  unfold ahead at toStart
  split_ifs at toStart ⊢ <;> omega

/-- A hop back to `q` closes the arc. -/
theorem arc_full {q s x : Nat} (qInside : q < n) (sInside : s < n) (xInside : x < n)
    (alive : x ∉ dead) (back : nextAlive n dead s = q) : Arc n q s x := by
  obtain ⟨-, -, least⟩ := nextAlive_spec dead sInside
  have toX := least x xInside (Or.inl alive)
  rw [back] at toX
  unfold Arc behind
  unfold ahead at toX
  split_ifs at toX ⊢ <;> omega

/-- What lies between a position of the arc and its end lies on the arc. -/
theorem arc_of_arc {q s q' x : Nat} (qInside : q < n) (innerInside : q' < n) (sInside : s < n)
    (xInside : x < n) (first : Arc n q s q') (second : behind n q' x ≤ behind n q' s) : Arc n q s x := by
  unfold Arc behind at *
  split_ifs at * <;> omega

theorem behind_injective {q x y : Nat} (inside : q < n) (left : x < n) (right : y < n)
    (same : behind n q x = behind n q y) : x = y := by
  unfold behind at same
  split_ifs at same <;> omega

theorem behind_lt {q x : Nat} (qInside : q < n) (inside : x < n) : behind n q x < n := by
  unfold behind
  split_ifs <;> omega

theorem behind_self (n q : Nat) : behind n q q = 0 := by
  unfold behind
  split_ifs <;> omega

/-- On a cycle without holes the next position is the next place. -/
theorem nextAlive_full {s : Nat} (sInside : s < n) (full : ∀ x, x < n → x ∉ dead) :
    nextAlive n dead s = (s + 1) % n := by
  obtain ⟨fuel, rfl⟩ := Nat.exists_eq_succ_of_ne_zero (Nat.ne_zero_of_lt sInside)
  exact if_neg fun skip => full _ (Nat.mod_lt _ (Nat.succ_pos fuel)) skip.1

/-- On a cycle without holes a hop is one step. -/
theorem behind_nextAlive {q s : Nat} (qInside : q < n) (sInside : s < n)
    (full : ∀ x, x < n → x ∉ dead) :
    (nextAlive n dead s = q → behind n q s + 1 = n) ∧
      (nextAlive n dead s ≠ q → behind n q (nextAlive n dead s) = behind n q s + 1) := by
  obtain ⟨bound, -, least⟩ := nextAlive_spec dead sInside
  have one : ahead n s (nextAlive n dead s) ≤ 1 := by
    have step := least ((s + 1) % n) (Nat.mod_lt _ (by omega)) (Or.inl (full _ (Nat.mod_lt _ (by omega))))
    rw [succ_mod sInside] at step
    unfold ahead at step ⊢
    split_ifs at step ⊢ <;> omega
  generalize nextAlive n dead s = r at bound one
  unfold ahead at one
  unfold behind
  refine ⟨fun home => ?_, fun onward => ?_⟩
  · split_ifs at one ⊢ <;> omega
  · split_ifs at one ⊢ <;> omega

/-! ### Walks -/

/-- So many steps forward end there. -/
theorem add_ahead_mod {x : Nat} (inside : me < n) (position : x < n) : (me + ahead n me x) % n = x := by
  unfold ahead
  split_ifs with before
  · rw [Nat.add_sub_of_le before.le, Nat.mod_eq_of_lt position]
  · rw [Nat.add_sub_of_le (by omega), Nat.add_mod_right, Nat.mod_eq_of_lt position]

theorem ahead_add_mod {d : Nat} (inside : me < n) (positive : 1 ≤ d) (short : d ≤ n) :
    ahead n me ((me + d) % n) = d := by
  rcases Nat.lt_or_ge (me + d) n with before | wraps
  · rw [Nat.mod_eq_of_lt before, ahead, if_pos (by omega), Nat.add_sub_cancel_left]
  · rw [Nat.mod_eq_sub_mod wraps, Nat.mod_eq_of_lt (by omega), ahead, if_neg (by omega)]
    omega

/-- **One hop of a walk** that is `d` steps from its start: it ends at the first position in use. -/
theorem nextAlive_walk (dead : Finset Nat) {s : Nat} (d : Nat) (inside : s < n) :
    ∃ e, d < e ∧ nextAlive n dead ((s + d) % n) = (s + e) % n ∧
      ∀ m, d < m → m ≤ e → (s + m) % n ∉ dead → (s + m) % n = (s + e) % n := by
  have here : (s + d) % n < n := Nat.mod_lt _ (by omega)
  obtain ⟨bound, -, least⟩ := nextAlive_spec dead here
  obtain ⟨positive, turn, -⟩ := ahead_le here bound
  have ends : nextAlive n dead ((s + d) % n) =
      (s + (d + ahead n ((s + d) % n) (nextAlive n dead ((s + d) % n)))) % n := by
    rw [← Nat.add_assoc]
    exact (add_ahead_mod here bound).symm.trans (Nat.mod_add_mod ..)
  refine ⟨_, Nat.lt_add_of_pos_right positive, ends, fun m past reached use => ?_⟩
  obtain ⟨k, rfl⟩ := Nat.exists_eq_add_of_le past.le
  have place : (s + (d + k)) % n = ((s + d) % n + k) % n := by
    rw [Nat.mod_add_mod, Nat.add_assoc]
  rw [place] at use ⊢
  have steps := ahead_add_mod (d := k) here (by omega) (by omega)
  have first := least _ (Nat.mod_lt _ (by omega)) (Or.inl use)
  rw [← ends]
  exact ahead_injective here (Nat.mod_lt _ (by omega)) bound (by omega)

/-! ### The loop -/

/-- The loop with so many rounds left goes on while its guard holds. -/
theorem seekAlive_rounds (dead : Finset Nat) (me fuel : Nat) : ∀ j, ∃ rounds ≤ fuel,
    (∀ k < rounds, (fun j => (j + 1) % n)^[k] j ∈ dead ∧ (fun j => (j + 1) % n)^[k] j ≠ me) ∧
      seekAlive n dead me fuel j = (fun j => (j + 1) % n)^[rounds] j := by
  induction fuel with
  | zero => exact fun j => ⟨0, le_rfl, fun k few => absurd few (Nat.not_lt_zero k), rfl⟩
  | succ fuel ih =>
    intro j
    unfold seekAlive
    by_cases skip : j ∈ dead ∧ j ≠ me
    · rw [if_pos skip]
      obtain ⟨rounds, few, guarded, ends⟩ := ih ((j + 1) % n)
      refine ⟨rounds + 1, Nat.succ_le_succ few, fun k before => ?_, ends⟩
      cases k with
      | zero => exact skip
      | succ k => exact guarded k (Nat.lt_of_succ_lt_succ before)
    · rw [if_neg skip]
      exact ⟨0, Nat.zero_le _, fun k few => absurd few (Nat.not_lt_zero k), rfl⟩

/-- **The loop of `next_alive` ends** within a turn, and `nextAlive` is where it ends. -/
theorem nextAlive_terminates (dead : Finset Nat) (inside : me < n) : ∃ rounds ≤ n,
    (∀ k < rounds, (fun j => (j + 1) % n)^[k] ((me + 1) % n) ∈ dead ∧
      (fun j => (j + 1) % n)^[k] ((me + 1) % n) ≠ me) ∧
    ¬ ((fun j => (j + 1) % n)^[rounds] ((me + 1) % n) ∈ dead ∧
      (fun j => (j + 1) % n)^[rounds] ((me + 1) % n) ≠ me) ∧
    nextAlive n dead me = (fun j => (j + 1) % n)^[rounds] ((me + 1) % n) := by
  obtain ⟨rounds, few, guarded, ends⟩ := seekAlive_rounds (n := n) dead me n ((me + 1) % n)
  have stops := (nextAlive_spec dead inside).2.1
  refine ⟨rounds, few, guarded, ?_, ends⟩
  rw [← ends]
  exact fun skip => stops.elim (fun alive => alive skip.1) skip.2

/-! ### The whole cycle -/

/-- The positions in use. -/
def inUse (n : Nat) (dead : Finset Nat) : Finset Nat := (Finset.range n).filter (· ∉ dead)

theorem mem_inUse {x : Nat} : x ∈ inUse n dead ↔ x < n ∧ x ∉ dead := by
  rw [inUse, Finset.mem_filter, Finset.mem_range]

theorem iterate_nextAlive_mem {q : Nat} (start : q ∈ inUse n dead) (k : Nat) :
    (nextAlive n dead)^[k] q ∈ inUse n dead := by
  obtain ⟨qInside, use⟩ := mem_inUse.mp start
  induction k with
  | zero => exact start
  | succ k ih =>
    have here := (mem_inUse.mp ih).1
    rw [Function.iterate_succ_apply']
    exact mem_inUse.mpr ⟨nextAlive_lt here, nextAlive_not_mem here qInside use⟩

/-- **A walk that has not come back** has been to exactly the positions on its arc, once each. -/
theorem arc_iterate {q : Nat} (start : q ∈ inUse n dead) (k : Nat) :
    (∀ j, 1 ≤ j → j ≤ k → (nextAlive n dead)^[j] q ≠ q) →
      (∀ x ∈ inUse n dead, Arc n q ((nextAlive n dead)^[k] q) x ↔
        ∃ j ≤ k, (nextAlive n dead)^[j] q = x) ∧
      ∀ i j, i < j → j ≤ k → (nextAlive n dead)^[i] q ≠ (nextAlive n dead)^[j] q := by
  obtain ⟨qInside, use⟩ := mem_inUse.mp start
  induction k with
  | zero =>
    refine fun _ => ⟨fun x _ => ?_, fun i j before last => absurd before (by omega)⟩
    rw [Function.iterate_zero_apply, arc_self qInside]
    exact ⟨fun same => ⟨0, le_rfl, same.symm⟩, fun ⟨j, last, same⟩ => by
      obtain rfl := Nat.le_zero.mp last
      exact same.symm⟩
  | succ k ih =>
    intro away
    obtain ⟨visited, distinct⟩ := ih fun j first last => away j first (last.trans (Nat.le_succ k))
    have here := (mem_inUse.mp (iterate_nextAlive_mem start k)).1
    have onward : nextAlive n dead ((nextAlive n dead)^[k] q) ≠ q := by
      rw [← Function.iterate_succ_apply' (nextAlive n dead)]
      exact away (k + 1) (Nat.le_add_left 1 k) le_rfl
    refine ⟨fun x member => ?_, fun i j before last same => ?_⟩
    · obtain ⟨xInside, alive⟩ := mem_inUse.mp member
      rw [Function.iterate_succ_apply', arc_nextAlive qInside use here xInside alive onward,
        visited x member]
      constructor
      · rintro (⟨j, last, reached⟩ | rfl)
        · exact ⟨j, last.trans (Nat.le_succ k), reached⟩
        · exact ⟨k + 1, le_rfl, Function.iterate_succ_apply' ..⟩
      · rintro ⟨j, last, rfl⟩
        rcases Nat.lt_or_eq_of_le last with earlier | rfl
        · exact .inl ⟨j, Nat.le_of_lt_succ earlier, rfl⟩
        · exact .inr (Function.iterate_succ_apply' ..)
    · rcases Nat.lt_or_eq_of_le last with earlier | rfl
      · exact distinct i j before (Nat.le_of_lt_succ earlier) same
      · -- the new position is not on the arc so far
        have fresh := not_arc_nextAlive qInside use here onward
        rw [← Function.iterate_succ_apply' (nextAlive n dead)] at fresh
        exact fresh ((visited _ (iterate_nextAlive_mem start (k + 1))).mpr
          ⟨i, Nat.le_of_lt_succ before, same⟩)

theorem injOn_range {α : Type} {f : Nat → α} {k : Nat}
    (distinct : ∀ i j, i < j → j ≤ k → f i ≠ f j) : Set.InjOn f (Finset.range (k + 1)) := by
  intro i left j right same
  have last := Nat.le_of_lt_succ (Finset.mem_range.mp left)
  have last' := Nat.le_of_lt_succ (Finset.mem_range.mp right)
  rcases lt_trichotomy i j with before | equal | after
  · exact absurd same (distinct i j before last')
  · exact equal
  · exact absurd same.symm (distinct j i after last)

/-- **The positions in use form one cycle**: the walk from any of them is at each of them exactly once
and then back. -/
theorem nextAlive_cycle {q : Nat} (start : q ∈ inUse n dead) :
    (nextAlive n dead)^[(inUse n dead).card] q = q ∧
      ∀ x ∈ inUse n dead, ∃! k, k < (inUse n dead).card ∧ (nextAlive n dead)^[k] q = x := by
  obtain ⟨qInside, use⟩ := mem_inUse.mp start
  -- a walk that does not come back would be at too many positions
  have returns : ∃ r, 1 ≤ r ∧ (nextAlive n dead)^[r] q = q := by
    by_contra never
    have injective := injOn_range (arc_iterate start (inUse n dead).card fun j first _ same =>
      never ⟨j, first, same⟩).2
    have many := Finset.card_le_card_of_injOn (fun k => (nextAlive n dead)^[k] q)
      (fun k _ => iterate_nextAlive_mem start k) injective
    rw [Finset.card_range] at many
    omega
  -- its first return, after `k` hops and one more
  obtain ⟨first, back⟩ := Nat.find_spec returns
  obtain ⟨k, turn⟩ := Nat.exists_eq_add_of_le' first
  have away : ∀ j, 1 ≤ j → j ≤ k → (nextAlive n dead)^[j] q ≠ q := fun j positive early same =>
    Nat.find_min returns (show j < Nat.find returns by omega) ⟨positive, same⟩
  rw [turn] at back
  obtain ⟨visited, distinct⟩ := arc_iterate start k away
  have here := (mem_inUse.mp (iterate_nextAlive_mem start k)).1
  have home : nextAlive n dead ((nextAlive n dead)^[k] q) = q :=
    (Function.iterate_succ_apply' (nextAlive n dead) k q).symm.trans back
  have reached : ∀ x ∈ inUse n dead, ∃ j ≤ k, (nextAlive n dead)^[j] q = x := fun x member =>
    (visited x member).mp (arc_full qInside here (mem_inUse.mp member).1 (mem_inUse.mp member).2 home)
  have injective := injOn_range distinct
  have all : (Finset.range (k + 1)).image (fun j => (nextAlive n dead)^[j] q) = inUse n dead := by
    ext x
    rw [Finset.mem_image]
    constructor
    · rintro ⟨j, -, rfl⟩
      exact iterate_nextAlive_mem start j
    · intro member
      obtain ⟨j, last, same⟩ := reached x member
      exact ⟨j, Finset.mem_range.mpr (Nat.lt_succ_of_le last), same⟩
  have count : (inUse n dead).card = k + 1 := by
    rw [← all, Finset.card_image_of_injOn injective, Finset.card_range]
  rw [count]
  refine ⟨back, fun x member => ?_⟩
  obtain ⟨j, last, same⟩ := reached x member
  refine ⟨j, ⟨Nat.lt_succ_of_le last, same⟩, ?_⟩
  rintro i ⟨few, same'⟩
  exact injective (Finset.mem_coe.mpr (Finset.mem_range.mpr few))
    (Finset.mem_coe.mpr (Finset.mem_range.mpr (Nat.lt_succ_of_le last))) (same'.trans same.symm)

end TrainsRing
