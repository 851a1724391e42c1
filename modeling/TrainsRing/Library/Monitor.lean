/-
**Monitors.**

A monitor goes over records one by one and collects findings. What it should find is a rule about a
record and all those before it.

* `Monitor.scan` — a run that stops once there are enough findings; `scan_clean_iff` — it finds
  something iff the whole run does.
* `Monitor.run_clean_iff` — **the rule for monitors**: where each round finds something iff the rule is
  broken there, the run finds nothing iff the rule holds at every record.
-/

import Mathlib.Tactic

namespace TrainsRing

/-- A pass over records of type `ρ` whose findings, of type `ν`, only grow. -/
structure Monitor (ρ σ ν : Type) where
  step : σ → ρ → σ
  findings : σ → List ν
  grows : ∀ s record, findings s <+: findings (step s record)

namespace Monitor

variable {ρ σ ν : Type} (m : Monitor ρ σ ν)

/-- The whole pass. -/
def run (records : List ρ) (s : σ) : σ := records.foldl m.step s

/-- The pass, until there are enough findings. -/
def scan (enough : Nat) : List ρ → σ → σ
  | [], s => s
  | record :: rest, s =>
    let s := m.step s record
    if enough ≤ (m.findings s).length then s else scan enough rest s

theorem run_grows (records : List ρ) (s : σ) : m.findings s <+: m.findings (m.run records s) := by
  induction records generalizing s with
  | nil => exact List.prefix_rfl
  | cons record rest ih => exact (m.grows s record).trans (ih (m.step s record))

/-- **Stopping early hides nothing.** -/
theorem scan_clean_iff {enough : Nat} (positive : 0 < enough) (records : List ρ) (s : σ) :
    m.findings (m.scan enough records s) = [] ↔ m.findings (m.run records s) = [] := by
  induction records generalizing s with
  | nil => exact Iff.rfl
  | cons record rest ih =>
    unfold scan
    dsimp only
    split_ifs with many
    · have found : m.findings (m.step s record) ≠ [] := by
        intro none
        rw [none] at many
        exact absurd many (not_le.mpr positive)
      refine iff_of_false found fun clean => found ?_
      have later : m.findings (m.step s record) <+: m.findings (m.run (record :: rest) s) :=
        m.run_grows rest (m.step s record)
      exact List.prefix_nil.mp (clean ▸ later)
    · exact ih (m.step s record)

/-- A rule about each element of a list and those before it, read off the front. -/
theorem forall_split_cons {P : List ρ → ρ → Prop} {record : ρ} {rest : List ρ} :
    (∀ front r back, record :: rest = front ++ r :: back → P front r) ↔
      P [] record ∧ ∀ front r back, rest = front ++ r :: back → P (record :: front) r := by
  constructor
  · intro all
    exact ⟨all [] record rest rfl, fun front r back split =>
      all (record :: front) r back (congrArg _ split)⟩
  · rintro ⟨first, later⟩ (_ | ⟨head, front⟩) r back split
    · obtain ⟨rfl, -⟩ := List.cons.inj split
      exact first
    · obtain ⟨rfl, tail⟩ := List.cons.inj split
      exact later front r back tail

variable {m}

/-- The rule for monitors, in the middle of a run. -/
theorem run_clean_iff_from {Legal : ρ → Prop} {Fits : List ρ → σ → Prop} {Ok : List ρ → ρ → Prop}
    (round : ∀ seen s record, Fits seen s → m.findings s = [] → Legal record →
      (m.findings (m.step s record) = [] ↔ Ok seen record) ∧
        (Ok seen record → Fits (seen ++ [record]) (m.step s record))) {records : List ρ} :
    ∀ {seen : List ρ} {s : σ}, Fits seen s → m.findings s = [] → (∀ record ∈ records, Legal record) →
      (m.findings (m.run records s) = [] ↔
        ∀ front record back, records = front ++ record :: back → Ok (seen ++ front) record) ∧
      (m.findings (m.run records s) = [] → Fits (seen ++ records) (m.run records s)) := by
  induction records with
  | nil =>
    intro seen s fits clean _
    refine ⟨iff_of_true clean fun front record back split => ?_, fun _ => ?_⟩
    · cases front <;> cases split
    · rw [List.append_nil]
      exact fits
  | cons record rest ih =>
    intro seen s fits clean legal
    obtain ⟨sound, keeps⟩ := round seen s record fits clean (legal record List.mem_cons_self)
    rw [forall_split_cons (P := fun front record => Ok (seen ++ front) record), List.append_nil]
    by_cases ok : Ok seen record
    · obtain ⟨same, ends⟩ := ih (keeps ok) (sound.mpr ok)
        fun record member => legal record (List.mem_cons_of_mem _ member)
      rw [List.append_assoc] at ends
      refine ⟨?_, ends⟩
      refine same.trans ?_
      simp only [List.append_assoc, List.singleton_append, ok, true_and]
    · have dirty : m.findings (m.run (record :: rest) s) ≠ [] := fun none =>
        ok (sound.mp (List.prefix_nil.mp (none ▸ m.run_grows rest (m.step s record))))
      exact ⟨iff_of_false dirty fun both => ok both.1, fun none => absurd none dirty⟩

variable (m)

/-- **The rule for monitors.** `Fits` says what the state knows of the records seen, `Ok` is the rule.
A clean round keeps the one and establishes the other. -/
theorem run_clean_iff (Legal : ρ → Prop) (Fits : List ρ → σ → Prop) (Ok : List ρ → ρ → Prop)
    (round : ∀ seen s record, Fits seen s → m.findings s = [] → Legal record →
      (m.findings (m.step s record) = [] ↔ Ok seen record) ∧
        (Ok seen record → Fits (seen ++ [record]) (m.step s record))) {records : List ρ}
    (legal : ∀ record ∈ records, Legal record) {s : σ} (start : Fits [] s)
    (clean : m.findings s = []) :
    (m.findings (m.run records s) = [] ↔
      ∀ front record back, records = front ++ record :: back → Ok front record) ∧
      (m.findings (m.run records s) = [] → Fits records (m.run records s)) :=
  run_clean_iff_from round start clean legal

end Monitor

end TrainsRing
