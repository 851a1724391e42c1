/-
**Stale view-change tokens at the driver.**

The fence on view ids is in the view-change machine. `handle_vc` excludes the token's victim before it
asks the machine, so a fenced token still freezes the node and marks the victim crashed, and only a
later plan lifts the freeze.

* `Driver.Ignores` — the token changes nothing and nothing is sent.
* `stale_token_freezes` — a run in which a fenced token freezes a node.
* `stale_token_ignored` — **a fenced token is ignored if and only if its victim is excluded already.**
-/

import TrainsRing.Driver.NoPanic

namespace TrainsRing

variable {cfg : RingConfig}

/-- The token changes nothing and nothing is sent. -/
def Driver.Ignores (d : Driver cfg) (msg : ViewChangeMsg cfg) : Prop := d.handleVc msg = .ok (d, [])

/-- The token excludes a peer from a view that is installed already. -/
def Driver.Fences (d : Driver cfg) (msg : ViewChangeMsg cfg) : Prop :=
  msg.victim.isSome ∧ msg.viewId ≤ d.vc.installedView

instance (d : Driver cfg) (msg : ViewChangeMsg cfg) : Decidable (d.Fences msg) := by
  unfold Driver.Fences
  infer_instance

/-- The machine drops a fenced token. -/
theorem ViewChange.handle_fenced {vc : ViewChange} {msg : ViewChangeMsg cfg}
    (stale : msg.viewId ≤ vc.installedView) (report : RecoveryReport cfg) :
    vc.handle msg report = (vc, []) := by
  cases msg with
  | gather viewId coordinator victim reports => exact if_pos stale
  | install viewId coordinator victim plan => exact if_pos stale
  | reAdmitGather viewId coordinator rejoiner reports => rfl
  | reAdmitInstall viewId coordinator rejoiner plan snapshotSrc => rfl

/-- Node 0 of a ring of four installs view 1, which excludes process 3, when every survivor has
reported; meanwhile process 1 has confirmed process 2 and sent a Gather for view 1 as well. -/
def installedDriver : Driver .quad :=
  (driverLife .quad).run (Driver.launch 0 (by decide) .totalOrder true true)
    [.received (.viewChange (.gather 1 0 3
      [(1, RecoveryReport.blank _), (2, RecoveryReport.blank _)]))]

theorem installedDriver_reachable : (driverLife .quad).Reachable installedDriver :=
  Machine.reachable_run ⟨0, by decide, .totalOrder, true, true, rfl⟩ (by decide +kernel)

/-- The second Gather is fenced and freezes node 0. -/
theorem stale_token_freezes : ¬ ∀ (cfg : RingConfig) (d : Driver cfg),
    (driverLife cfg).Reachable d → ∀ msg, d.Fences msg → d.Ignores msg := by
  intro ignored
  have same := ignored .quad installedDriver installedDriver_reachable
    (.gather 1 0 2 [(1, RecoveryReport.blank _)]) (by decide +kernel)
  have frozen := congrArg (fun result : Except Panic (Driver .quad × List (Effect .quad)) =>
    match result with
    | .ok after => after.1.core.frozen
    | .error _ => false) same
  exact absurd frozen (by decide +kernel)

/-- **A fenced token is ignored** if its victim is in the driver's dead set, and in no other case. -/
theorem stale_token_ignored {d : Driver cfg} {msg : ViewChangeMsg cfg} (stale : d.Fences msg) :
    d.Ignores msg ↔ ∀ victim ∈ msg.victim, victim ∈ d.dead := by
  obtain ⟨excludes, stale⟩ := stale
  obtain ⟨victim, names⟩ := Option.isSome_iff_exists.mp excludes
  have turn : d.handleVc msg = (do
      let excluded ← d.exclude victim
      let result := excluded.1.vc.handle msg excluded.1.core.recoveryReport
      let executed ← { excluded.1 with vc := result.1 }.execute result.2
      return (executed.1, excluded.2 ++ executed.2)) := by
    unfold Driver.handleVc
    rw [names]
  unfold Driver.Ignores
  rw [turn]
  constructor
  · intro same other isVictim
    rw [names] at isVictim
    obtain rfl : victim = other := Option.some.inj isVictim
    rcases d.exclude_cases victim with ⟨known, -⟩ | ⟨-, -, panics⟩ | ⟨-, -, succ, effects, excluded⟩
    · exact known
    · rw [panics] at same
      cases same
    · -- the victim is in the dead set now, so it was before
      rw [excluded] at same
      simp only [bind, Except.bind, ViewChange.handle_fenced stale] at same
      have dead := congrArg (fun result : Driver cfg × List (Effect cfg) => result.1.dead)
        (Except.ok.inj same)
      exact dead ▸ Finset.mem_insert_self victim d.dead
  · intro known
    have excluded : d.exclude victim = .ok (d, []) := if_pos (known victim names)
    rw [excluded]
    simp only [bind, Except.bind, ViewChange.handle_fenced stale]
    rfl

/-- A second copy of the first Gather is ignored. -/
theorem stale_token_ignored_quad : installedDriver.Ignores
    (.gather 1 0 3 [(1, RecoveryReport.blank _), (2, RecoveryReport.blank _)]) :=
  (stale_token_ignored (by decide +kernel)).mpr (by decide +kernel)

end TrainsRing
