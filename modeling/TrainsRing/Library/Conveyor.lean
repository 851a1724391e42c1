/-
**Tokens on a FIFO cycle.**

`n` places stand in a circle. Token `i` enters at place `i` and moves from place to place; a link hands
over its tokens in the order in which they were sent, and a token waiting to enter lets nothing pass.
Then no token overtakes another: after `hops` moves each, they are still in the order of their places,
within one turn.

* `Conveyor` — the tokens on the links, in sending order, and their moves so far.
* `Conveyor.lead` — **the token about to move** is strictly behind the next one, and less than a turn
  ahead of the last one.
* `Conveyor.enter`, `Conveyor.move` — a token enters, a token moves.
-/

import TrainsRing.Library.Cycle

namespace TrainsRing

variable {α : Type}

/-- The tokens `id a` at places `place a`, in sending order; `k` tokens in all. -/
structure Conveyor (n k : Nat) (place id : α → Nat) (hops : Nat → Nat) (queue : List α) : Prop where
  inside : ∀ a ∈ queue, id a < k
  placed : ∀ a ∈ queue, place a = (id a + hops (id a)) % n
  spread : ∀ i j, i < j → j < k → i + hops i ≤ j + hops j ∧ j + hops j ≤ i + hops i + n
  queued : queue.Pairwise fun a b =>
    (id a < id b → id a + hops (id a) < id b + hops (id b)) ∧
      (id b < id a → id a + hops (id a) < id b + hops (id b) + n)
  single : queue.Pairwise fun a b => id a ≠ id b
  waiting : ∀ i, i < k → (∀ a ∈ queue, id a ≠ i) → hops i = 0 ∧
    ∀ j, j < k → (j < i → j + hops j < i) ∧ (i < j → j + hops j < i + n)

namespace Conveyor

variable {n k : Nat} {place id : α → Nat} {hops : Nat → Nat} {queue before after : List α} {a : α}

theorem empty (small : k ≤ n) (place id : α → Nat) : Conveyor n k place id (fun _ => 0) [] where
  inside := fun _ member => absurd member List.not_mem_nil
  placed := fun _ member => absurd member List.not_mem_nil
  spread := fun _ _ _ _ => by omega
  queued := List.Pairwise.nil
  single := List.Pairwise.nil
  waiting := fun _ _ _ => ⟨rfl, fun _ _ => by omega⟩

/-- **A token enters** at its place. -/
theorem enter (conveyor : Conveyor n k place id hops queue) (small : k ≤ n) (inside : id a < k)
    (waits : ∀ b ∈ queue, id b ≠ id a) (home : place a = id a) :
    Conveyor n k place id hops (queue ++ [a]) := by
  obtain ⟨still, others⟩ := conveyor.waiting (id a) inside waits
  have cases : ∀ b ∈ queue ++ [a], b ∈ queue ∨ b = a := fun b member =>
    (List.mem_append.mp member).imp_right List.mem_singleton.mp
  refine ⟨fun b member => ?_, fun b member => ?_, conveyor.spread, ?_, ?_, fun i bound free => ?_⟩
  · rcases cases b member with old | rfl
    · exact conveyor.inside b old
    · exact inside
  · rcases cases b member with old | rfl
    · exact conveyor.placed b old
    · rw [home, still, Nat.add_zero, Nat.mod_eq_of_lt (by omega)]
  · refine List.pairwise_append.mpr ⟨conveyor.queued, List.pairwise_singleton _ _,
      fun b old new isNew => ?_⟩
    rw [List.mem_singleton.mp isNew, still, Nat.add_zero]
    exact others (id b) (conveyor.inside b old)
  · refine List.pairwise_append.mpr ⟨conveyor.single, List.pairwise_singleton _ _,
      fun b old new isNew => ?_⟩
    rw [List.mem_singleton.mp isNew]
    exact waits b old
  · exact conveyor.waiting i bound fun b old => free b (List.mem_append_left _ old)

/-- **The token about to move** is strictly behind the next one, and less than a turn ahead of the
last one. -/
theorem lead (conveyor : Conveyor n k place id hops queue) (shape : queue = before ++ a :: after)
    (fifo : ∀ b ∈ before, place b ≠ place a) {j : Nat} (bound : j < k) (other : j ≠ id a) :
    (id a < j → id a + hops (id a) < j + hops j) ∧
      (j < id a → id a + hops (id a) < j + hops j + n) := by
  have member : a ∈ queue := by
    rw [shape]
    exact List.mem_append_right _ List.mem_cons_self
  by_cases waits : ∀ b ∈ queue, id b ≠ j
  · obtain ⟨still, others⟩ := conveyor.waiting j bound waits
    rw [still, Nat.add_zero]
    exact others (id a) (conveyor.inside a member)
  obtain ⟨b, flying, rfl⟩ : ∃ b ∈ queue, id b = j := by simpa using waits
  have pairs := conveyor.queued
  rw [shape] at pairs flying
  obtain ⟨-, tail, -⟩ := List.pairwise_append.mp pairs
  rcases List.mem_append.mp flying with front | back
  · -- on another link: the places differ
    have apart := fifo b front
    have inQueue : b ∈ queue := by
      rw [shape]
      exact List.mem_append_left _ front
    rw [conveyor.placed b inQueue, conveyor.placed a member] at apart
    refine ⟨fun below => lt_of_le_of_ne ?_ fun same => apart (same ▸ rfl),
      fun below => lt_of_le_of_ne ?_ fun same => apart ?_⟩
    · exact (conveyor.spread (id a) (id b) below bound).1
    · exact (conveyor.spread (id b) (id a) below (conveyor.inside a member)).2
    · rw [same, Nat.add_mod_right]
  · rcases List.mem_cons.mp back with rfl | back
    · exact absurd rfl other
    · exact (List.pairwise_cons.mp tail).1 b back

/-- **A token moves** to the next place, where no other token waits to enter. -/
theorem move (conveyor : Conveyor n k place id hops queue) (shape : queue = before ++ a :: after)
    (fifo : ∀ b ∈ before, place b ≠ place a) {out : α} (same : id out = id a)
    (next : place out = (place a + 1) % n)
    (clear : ∀ i, i < k → i = (place a + 1) % n → ∃ b ∈ queue, id b = i) (small : k ≤ n) :
    Conveyor n k place id (Function.update hops (id a) (hops (id a) + 1))
      (before ++ after ++ [out]) := by
  have member : a ∈ queue := by
    rw [shape]
    exact List.mem_append_right _ List.mem_cons_self
  have bound := conveyor.inside a member
  have rest : ∀ b ∈ before ++ after, b ∈ queue := fun b inside => by
    rw [shape]
    rcases List.mem_append.mp inside with front | back
    · exact List.mem_append_left _ front
    · exact List.mem_append_right _ (List.mem_cons_of_mem _ back)
  have single := conveyor.single
  rw [shape, List.pairwise_middle fun different => different.symm] at single
  obtain ⟨apart, singles⟩ := List.pairwise_cons.mp single
  have queued : (before ++ after).Pairwise fun a b =>
      (id a < id b → id a + hops (id a) < id b + hops (id b)) ∧
        (id b < id a → id a + hops (id a) < id b + hops (id b) + n) := by
    refine conveyor.queued.sublist ?_
    rw [shape]
    exact (List.Sublist.refl before).append (List.sublist_cons_self _ _)
  have moved : Function.update hops (id a) (hops (id a) + 1) (id a) = hops (id a) + 1 :=
    Function.update_self ..
  have still : ∀ j, j ≠ id a → Function.update hops (id a) (hops (id a) + 1) j = hops j :=
    fun j other => Function.update_of_ne other ..
  have cases : ∀ b ∈ before ++ after ++ [out], b ∈ before ++ after ∨ b = out := fun b inside =>
    (List.mem_append.mp inside).imp_right List.mem_singleton.mp
  have lead := fun j (within : j < k) => conveyor.lead shape fifo (j := j) within
  have here := conveyor.placed a member
  refine ⟨fun b inside => ?_, fun b inside => ?_, fun i j below within => ?_, ?_, ?_,
    fun i within free => ?_⟩
  · rcases cases b inside with old | rfl
    · exact conveyor.inside b (rest b old)
    · exact same ▸ bound
  · rcases cases b inside with old | rfl
    · rw [still _ (apart b old).symm]
      exact conveyor.placed b (rest b old)
    · rw [next, same, moved, here, Nat.mod_add_mod, Nat.add_assoc]
  · have before' := conveyor.spread i j below within
    by_cases left : i = id a
    · subst left
      have strict := (lead j within below.ne').1 below
      rw [moved, still j below.ne']
      omega
    · by_cases right : j = id a
      · subst right
        have strict := (lead i (below.trans within) below.ne).2 below
        rw [moved, still i below.ne]
        omega
      · rw [still i left, still j right]
        exact before'
  · refine List.pairwise_append.mpr ⟨?_, List.pairwise_singleton _ _, fun b old new isNew => ?_⟩
    · refine queued.imp_of_mem fun {b c} left right ordered => ?_
      rw [still _ (apart b left).symm, still _ (apart c right).symm]
      exact ordered
    · rw [List.mem_singleton.mp isNew, same, moved, still _ (apart b old).symm]
      have inside := conveyor.inside b (rest b old)
      have first := conveyor.spread (id b) (id a)
      have second := conveyor.spread (id a) (id b)
      omega
  · refine List.pairwise_append.mpr ⟨singles, List.pairwise_singleton _ _, fun b old new isNew => ?_⟩
    rw [List.mem_singleton.mp isNew, same]
    exact (apart b old).symm
  · have other : i ≠ id a := fun clash =>
      free out (List.mem_append_right _ (List.mem_singleton_self _)) (same.trans clash.symm)
    have waits : ∀ b ∈ queue, id b ≠ i := fun b inside => by
      rw [shape] at inside
      rcases List.mem_append.mp inside with front | back
      · exact free b (List.mem_append_left _ (List.mem_append_left _ front))
      · rcases List.mem_cons.mp back with rfl | back
        · exact other.symm
        · exact free b (List.mem_append_left _ (List.mem_append_right _ back))
    obtain ⟨none, others⟩ := conveyor.waiting i within waits
    have blocked : i ≠ (place a + 1) % n := fun arrives => by
      obtain ⟨b, inside, clash⟩ := clear i within arrives
      exact waits b inside clash
    rw [here, Nat.mod_add_mod] at blocked
    rw [still i other]
    refine ⟨none, fun j inRange => ?_⟩
    by_cases isMoved : j = id a
    · rw [isMoved, moved]
      have ahead := others (id a) bound
      refine ⟨fun below => ?_, fun below => ?_⟩
      · -- otherwise the token would reach the place of the one waiting
        refine lt_of_le_of_ne (ahead.1 below) fun reached => blocked ?_
        rw [show id a + hops (id a) + 1 = i from reached, Nat.mod_eq_of_lt (by omega)]
      · refine lt_of_le_of_ne (ahead.2 below) fun reached => blocked ?_
        rw [show id a + hops (id a) + 1 = i + n from reached, Nat.add_mod_right,
          Nat.mod_eq_of_lt (by omega)]
    · rw [still j isMoved]
      exact others j inRange

end Conveyor

end TrainsRing
