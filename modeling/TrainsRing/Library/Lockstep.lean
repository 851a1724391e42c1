/-
**Two implementations in lockstep.**

A step function takes a state and an input to a state and an output. `trace` is what an observer sees
of a run: at every input the output, and a view of the state after it.

* `trace_eq_of_lockstep` — **the simulation rule**: a relation between the states of two step
  functions that every input keeps, giving equal outputs, and under which the views agree, makes the
  two traces equal.
-/

import Mathlib.Tactic

namespace TrainsRing

variable {σ τ ι ο ν : Type}

/-- The outputs and the views of the states along a list of inputs. -/
def trace (step : σ → ι → σ × ο) (view : σ → ν) : σ → List ι → List (ο × ν)
  | _, [] => []
  | s, input :: rest => ((step s input).2, view (step s input).1) ::
      trace step view (step s input).1 rest

/-- **The simulation rule.** -/
theorem trace_eq_of_lockstep {step : σ → ι → σ × ο} {step' : τ → ι → τ × ο} {view : σ → ν}
    {view' : τ → ν} {R : σ → τ → Prop} {good : ι → Prop}
    (kept : ∀ s t input, R s t → good input →
      R (step s input).1 (step' t input).1 ∧ (step s input).2 = (step' t input).2)
    (alike : ∀ s t, R s t → view s = view' t) {s : σ} {t : τ} (related : R s t)
    {inputs : List ι} (all : ∀ input ∈ inputs, good input) :
    trace step view s inputs = trace step' view' t inputs := by
  induction inputs generalizing s t with
  | nil => rfl
  | cons input rest ih =>
    obtain ⟨next, outputs⟩ := kept s t input related (all input List.mem_cons_self)
    have later := ih next fun other member => all other (List.mem_cons_of_mem input member)
    unfold trace
    rw [outputs, alike _ _ next, later]

end TrainsRing
