/-
**News on a cycle with holes.**

Positions in use pass news on to the next position in use. `know` are the positions that have the
news and `src` the positions from which it is on its way; positions go out of use while it is.

* `Spreading` — whoever knows has told the next position, or the news is on its way there.
* `Spreading.step` — **the rule for a step** that learns, sends and receives news.
* `Spreading.crash` — a position goes out of use.
* `Spreading.everyone` — **once nothing is on its way, everybody knows or nobody does**.
-/

import TrainsRing.Library.Cycle

namespace TrainsRing

variable {n : Nat} {dead : Finset Nat} {know know' src src' : Nat → Prop}

/-- Whoever in use knows has told the next position in use, or the news is on its way there. -/
def Spreading (n : Nat) (dead : Finset Nat) (know src : Nat → Prop) : Prop :=
  ∀ x, x < n → x ∉ dead → know x → know (nextAlive n dead x) ∨
    ∃ s, s < n ∧ src s ∧ nextAlive n dead s = nextAlive n dead x

/-- **A step.** Whoever learns the news sends it on, and news on its way stays on its way or is
received. -/
theorem Spreading.step (spreading : Spreading n dead know src) (grows : ∀ x, know x → know' x)
    (learned : ∀ x, x < n → know' x → know x ∨ src' x)
    (kept : ∀ s, s < n → src s → src' s ∨ know' (nextAlive n dead s)) :
    Spreading n dead know' src' := by
  intro x inside use known
  rcases learned x inside known with old | sends
  · rcases spreading x inside use old with told | ⟨s, sInside, onWay, same⟩
    · exact Or.inl (grows _ told)
    · rcases kept s sInside onWay with still | received
      · exact Or.inr ⟨s, sInside, still, same⟩
      · exact Or.inl (same ▸ received)
  · exact Or.inr ⟨x, inside, sends, rfl⟩

/-- The characterisation of the next position in use determines it. -/
theorem nextAlive_eq {me r : Nat} (inside : me < n) (bound : r < n) (use : r ∉ dead ∨ r = me)
    (least : ∀ x, x < n → x ∉ dead ∨ x = me → ahead n me r ≤ ahead n me x) :
    nextAlive n dead me = r := by
  obtain ⟨bound', use', least'⟩ := nextAlive_spec dead inside
  exact ahead_injective inside bound' bound
    (le_antisymm (least' r bound use) (least _ bound' use'))

/-- Somebody else in use comes before a full turn. -/
theorem nextAlive_ne {c x : Nat} (inside : c < n) (xInside : x < n) (use : x ∉ dead)
    (other : x ≠ c) : nextAlive n dead c ≠ c := by
  intro same
  have toX := (nextAlive_spec dead inside).2.2 x xInside (Or.inl use)
  rw [same, (ahead_le inside inside).2.2.mpr rfl] at toX
  have bounds := ahead_le inside xInside
  exact other (bounds.2.2.mp (le_antisymm bounds.2.1 toX))

/-- When `c` goes out of use, what went to `c` goes to the position after `c`. -/
theorem nextAlive_insert {c s x : Nat} (sInside : s < n) (cInside : c < n) (xInside : x < n)
    (use : x ∉ dead) (other : x ≠ c) : nextAlive n (insert c dead) s =
      if nextAlive n dead s = c then nextAlive n dead c else nextAlive n dead s := by
  obtain ⟨bound, stops, least⟩ := nextAlive_spec dead sInside
  split_ifs with same
  · rw [same] at bound stops least
    obtain ⟨tBound, tStops, tLeast⟩ := nextAlive_spec dead cInside
    have tUse := nextAlive_not_mem cInside xInside use
    have apart := nextAlive_ne cInside xInside use other
    generalize nextAlive n dead c = t at tBound tStops tLeast tUse apart ⊢
    refine nextAlive_eq sInside tBound (Or.inl fun member =>
      (Finset.mem_insert.mp member).elim apart tUse) fun y yInside yUse => ?_
    rcases yUse with alive | rfl
    · have aliveY : y ∉ dead := fun member => alive (Finset.mem_insert_of_mem member)
      have otherY : y ≠ c := fun same => alive (same ▸ Finset.mem_insert_self _ _)
      have toC := least y yInside (Or.inl aliveY)
      have toT := tLeast y yInside (Or.inl aliveY)
      unfold ahead at toC toT ⊢
      split_ifs at toC toT ⊢ <;> omega
    · rw [(ahead_le sInside sInside).2.2.mpr rfl]
      exact (ahead_le sInside tBound).2.1
  · refine nextAlive_eq sInside bound (stops.imp_left fun alive member =>
      (Finset.mem_insert.mp member).elim same alive) fun y yInside yUse => ?_
    exact least y yInside (yUse.imp_left fun alive member => alive (Finset.mem_insert_of_mem member))

/-- **A position goes out of use.** -/
theorem Spreading.crash (spreading : Spreading n dead know src) {c : Nat} (inside : c < n)
    (use : c ∉ dead) : Spreading n (insert c dead) know src := by
  intro x xInside alive known
  have xUse : x ∉ dead := fun member => alive (Finset.mem_insert_of_mem member)
  have other : x ≠ c := fun same => alive (same ▸ Finset.mem_insert_self _ _)
  have next := fun s (sInside : s < n) => nextAlive_insert sInside inside xInside xUse other
  rw [next x xInside]
  have past := nextAlive_ne inside xInside xUse other
  have told := spreading x xInside xUse known
  split_ifs with same
  · rw [same] at told
    rcases told with knows | ⟨s, sInside, onWay, toC⟩
    · rcases spreading c inside use knows with knows' | ⟨s, sInside, onWay, toNext⟩
      · exact Or.inl knows'
      · refine Or.inr ⟨s, sInside, onWay, ?_⟩
        rw [next s sInside, toNext, if_neg past]
    · refine Or.inr ⟨s, sInside, onWay, ?_⟩
      rw [next s sInside, if_pos toC]
  · refine told.imp_right fun ⟨s, sInside, onWay, toNext⟩ => ⟨s, sInside, onWay, ?_⟩
    rw [next s sInside, toNext, if_neg same]

/-- **Once nothing is on its way**, what one position in use knows all of them know. -/
theorem Spreading.everyone (spreading : Spreading n dead know src) (quiet : ∀ s, s < n → ¬ src s)
    {y : Nat} (yInside : y < n) (yUse : y ∉ dead) {x : Nat} (inside : x < n) (use : x ∉ dead)
    (known : know x) : know y := by
  -- along the cycle from `x` to `y`
  generalize distance : ahead n x y = d
  induction d using Nat.strong_induction_on generalizing x with
  | _ d ih =>
    have told : know (nextAlive n dead x) :=
      (spreading x inside use known).resolve_right fun ⟨s, sInside, onWay, _⟩ =>
        quiet s sInside onWay
    obtain ⟨bound, -, least⟩ := nextAlive_spec dead inside
    have nextUse := nextAlive_not_mem inside inside use
    have near := least y yInside (Or.inl yUse)
    by_cases here : nextAlive n dead x = y
    · exact here ▸ told
    · refine ih (ahead n (nextAlive n dead x) y) ?_ bound nextUse told rfl
      generalize nextAlive n dead x = r at bound near here
      unfold ahead at near distance ⊢
      split_ifs at near distance ⊢ <;> omega

end TrainsRing
