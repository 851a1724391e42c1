/-
**Labelled machines and their runs.**

A `Machine` has initial states, actions, a condition under which an action may be taken, and a
function that takes it. `Reaches` is any number of steps and `Reachable` is any number of steps from
an initial state.

* `Machine.invariant` — **the induction rule**: what holds initially and is kept by every step holds
  in every reachable state. `Machine.Reaches.preserves` is the same rule between two states.
* `Machine.simulate` — **the simulation rule**: where every step is matched by steps of another
  machine, every reachable state is matched by one of its reachable states; `Machine.simulate_run` is
  the same rule for the states of a run, one after the other.
* `Machine.restrict` — the machine whose steps also meet a side condition; its runs are runs.
* `Machine.reaches_run` — a checked list of actions is a run.
-/

import Mathlib.Logic.Relation
import Mathlib.Tactic

namespace TrainsRing

/-- Initial states, and actions that may be taken in some states. -/
structure Machine (σ α : Type) where
  start : σ → Prop
  legal : σ → α → Prop
  next : σ → α → σ

namespace Machine

variable {σ α : Type} (m : Machine σ α)

/-- One legal action. -/
def Step (s s' : σ) : Prop := ∃ a, m.legal s a ∧ m.next s a = s'

/-- Any number of legal actions. -/
def Reaches : σ → σ → Prop := Relation.ReflTransGen m.Step

/-- Any number of legal actions from an initial state. -/
def Reachable (s : σ) : Prop := ∃ first, m.start first ∧ m.Reaches first s

variable {m}

theorem Reaches.refl (s : σ) : m.Reaches s s := Relation.ReflTransGen.refl

theorem Reaches.trans {s t u : σ} (front : m.Reaches s t) (back : m.Reaches t u) :
    m.Reaches s u := Relation.ReflTransGen.trans front back

theorem Reaches.take {s t : σ} (run : m.Reaches s t) {a : α} (legal : m.legal t a) :
    m.Reaches s (m.next t a) := Relation.ReflTransGen.tail run ⟨a, legal, rfl⟩

/-- **Induction along a run.** -/
theorem Reaches.preserves {P : σ → Prop} {s t : σ} (run : m.Reaches s t)
    (step : ∀ s a, P s → m.legal s a → P (m.next s a)) (holds : P s) : P t := by
  induction run with
  | refl => exact holds
  | tail _ last ih =>
    obtain ⟨a, legal, rfl⟩ := last
    exact step _ a ih legal

theorem Reachable.start {s : σ} (initial : m.start s) : m.Reachable s := ⟨s, initial, .refl s⟩

theorem Reachable.extend {s t : σ} (reachable : m.Reachable s) (run : m.Reaches s t) :
    m.Reachable t := by
  obtain ⟨first, initial, front⟩ := reachable
  exact ⟨first, initial, front.trans run⟩

theorem Reachable.take {s : σ} (reachable : m.Reachable s) {a : α} (legal : m.legal s a) :
    m.Reachable (m.next s a) := reachable.extend ((Reaches.refl s).take legal)

/-- **The invariant rule.** -/
theorem invariant {P : σ → Prop} (initially : ∀ s, m.start s → P s)
    (step : ∀ s a, P s → m.legal s a → P (m.next s a)) {s : σ} (reachable : m.Reachable s) :
    P s := by
  obtain ⟨first, initial, run⟩ := reachable
  exact run.preserves step (initially first initial)

/-- **The simulation rule.** -/
theorem simulate {τ β : Type} {n : Machine τ β} {R : σ → τ → Prop}
    (initially : ∀ s, m.start s → ∃ t, n.start t ∧ R s t)
    (step : ∀ s t a, R s t → m.legal s a → ∃ t', n.Reaches t t' ∧ R (m.next s a) t') {s : σ}
    (reachable : m.Reachable s) : ∃ t, n.Reachable t ∧ R s t := by
  refine invariant (P := fun s => ∃ t, n.Reachable t ∧ R s t) (fun s initial => ?_)
    (fun s a before legal => ?_) reachable
  · obtain ⟨t, start, related⟩ := initially s initial
    exact ⟨t, Reachable.start start, related⟩
  · obtain ⟨t, reached, related⟩ := before
    obtain ⟨t', run, matched⟩ := step s t a related legal
    exact ⟨t', reached.extend run, matched⟩

/-! ### Side conditions on steps -/

variable (m)

/-- The machine whose steps also meet a side condition. -/
def restrict (good : σ → α → Prop) : Machine σ α where
  start := m.start
  legal := fun s a => m.legal s a ∧ good s a
  next := m.next

variable {m}

/-- A run whose steps meet the side condition is a run. -/
theorem Reachable.of_restrict {good : σ → α → Prop} {s : σ}
    (reachable : (m.restrict good).Reachable s) : m.Reachable s := by
  refine invariant (m := m.restrict good) (P := m.Reachable) ?_ ?_ reachable
  · exact fun s initial => Reachable.start initial
  · exact fun s a before allowed => before.take allowed.1

/-! ### Running a list of actions -/

variable (m)

/-- Take some actions in order. -/
def run : σ → List α → σ
  | s, [] => s
  | s, a :: rest => run (m.next s a) rest

/-- Every action is legal when its turn comes. -/
def LegalRun : σ → List α → Prop
  | _, [] => True
  | s, a :: rest => m.legal s a ∧ LegalRun (m.next s a) rest

/-- The states of a run, the first one included. -/
def states : σ → List α → List σ
  | s, [] => [s]
  | s, a :: rest => s :: states (m.next s a) rest

instance decidableLegalRun [∀ s a, Decidable (m.legal s a)] :
    ∀ (s : σ) (actions : List α), Decidable (m.LegalRun s actions)
  | _, [] => isTrue trivial
  | s, a :: rest =>
    have := decidableLegalRun (m.next s a) rest
    inferInstanceAs (Decidable (m.legal s a ∧ m.LegalRun (m.next s a) rest))

variable {m}

theorem reaches_run : ∀ {s : σ} {actions : List α}, m.LegalRun s actions →
    m.Reaches s (m.run s actions)
  | s, [], _ => Reaches.refl s
  | s, a :: _, legal => ((Reaches.refl s).take (a := a) legal.1).trans (reaches_run legal.2)

/-- A checked list of actions from an initial state. -/
theorem reachable_run {s : σ} {actions : List α} (initial : m.start s)
    (legal : m.LegalRun s actions) : m.Reachable (m.run s actions) :=
  ⟨s, initial, reaches_run legal⟩

/-- **The simulation rule for a whole run.** -/
theorem simulate_run {τ β : Type} {n : Machine τ β} {R : σ → τ → Prop}
    (step : ∀ s t a, R s t → m.legal s a → ∃ t', n.Reaches t t' ∧ R (m.next s a) t')
    (actions : List α) : ∀ {s : σ} {t : τ}, R s t → m.LegalRun s actions →
      ∃ trace, List.Forall₂ R (m.states s actions) (t :: trace) ∧ (t :: trace).IsChain n.Reaches := by
  induction actions with
  | nil => exact fun related _ => ⟨[], .cons related .nil, .singleton _⟩
  | cons a rest ih =>
    intro s t related legal
    obtain ⟨t', run, related'⟩ := step s t a related legal.1
    obtain ⟨trace, matched, chain⟩ := ih related' legal.2
    exact ⟨t' :: trace, .cons related matched, .cons_cons run chain⟩

end Machine

end TrainsRing
