/-
**A relay that holds one message.**

A relay takes messages from its source and passes them on, one at a time: it takes the next one only
when it holds none. Passing on may be tried any number of times before it succeeds.

* `Relay` — what was taken, passed on and is held; every message taken is in one of the two places.
* `relay` — the machine that takes and passes on.
* `Relay.passed_prefix`, `Relay.all_passed` — **what was passed on is the front of what was taken**,
  and all of it once nothing is held.
-/

import TrainsRing.Library.Machine

namespace TrainsRing

variable {μ : Type}

/-- A relay: every message taken was passed on or is held, in this order. -/
structure Relay (μ : Type) where
  taken : List μ
  passed : List μ
  held : Option μ
  accounted : taken = passed ++ held.toList

namespace Relay

def empty : Relay μ := ⟨[], [], none, rfl⟩

/-- Take a message, with the hands free. -/
def take (r : Relay μ) (msg : μ) (free : r.held = none) : Relay μ :=
  ⟨r.taken ++ [msg], r.passed, some msg, by simp [r.accounted, free]⟩

/-- Pass on the message that is held. -/
def pass (r : Relay μ) : Relay μ := ⟨r.taken, r.taken, none, by simp⟩

inductive Action (μ : Type) where
  | take (msg : μ)
  | pass

/-- One action; a relay that holds a message takes no other one. -/
def next (r : Relay μ) : Action μ → Relay μ
  | .take msg => if free : r.held = none then r.take msg free else r
  | .pass => r.pass

/-- **What was passed on is the front of what was taken.** -/
theorem passed_prefix (r : Relay μ) : r.passed <+: r.taken := ⟨r.held.toList, r.accounted.symm⟩

/-- **With nothing held, everything taken was passed on.** -/
theorem all_passed {r : Relay μ} (free : r.held = none) : r.passed = r.taken := by
  rw [r.accounted, free]
  exact (List.append_nil _).symm

theorem next_take {r : Relay μ} (free : r.held = none) (msg : μ) :
    r.next (.take msg) = r.take msg free := dif_pos free

/-- Passing on appends the message held. -/
theorem pass_passed {r : Relay μ} {msg : μ} (held : r.held = some msg) :
    r.pass.passed = r.passed ++ [msg] := by
  show r.taken = _
  rw [r.accounted, held]
  rfl

end Relay

/-- The machine of a relay. -/
def relay (μ : Type) : Machine (Relay μ) (Relay.Action μ) where
  start := fun r => r = .empty
  legal := fun r action => match action with
    | .take _ => r.held = none
    | .pass => r.held ≠ none
  next := Relay.next

end TrainsRing
