/-
**View changes keep the survivors in agreement.**

Any number of processes crash one after another, each crash resolved by the exclude sequence; the
trains a victim had sent that nobody received are lost with it. Caches may evict: what a survivor
misses is still cached, because no survivor is more than one clock ahead of another.

* `excludeNetwork_circulating` — in every reachable state the trains are on their laps.
* `survivors_agree` — **after each view change all survivors have one log**, which extends what each
  had, and at any time two survivors' logs are prefixes of one another.
-/

import TrainsRing.Reconfig.Laps

namespace TrainsRing

variable {cfg : RingConfig}

open RingState

/-- In a ring whose membership only shrinks the trains are on their laps and no issuer lags. -/
theorem excludeNetwork_circulating {st : RingState cfg}
    (reachable : (excludeNetwork cfg false).Reachable st) :
    ∃ (view : View cfg) (base : List Payload) (entries : Fin cfg.ringSize → List Entry),
      Circulating view base st entries ∧ view.Balanced := by
  refine Machine.invariant (m := excludeNetwork cfg false)
    (P := fun st => ∃ view base entries, Circulating view base st entries ∧ view.Balanced)
    ?_ ?_ reachable
  · rintro _ rfl
    exact ⟨_, _, _, Circulating.initial cfg, View.balanced_initial .totalOrder⟩
  · rintro st action ⟨view, base, entries, circulating, fair⟩ ⟨legal, shrinks⟩
    cases action with
    | ring action => exact ⟨view, base, _, circulating.ring legal, fair⟩
    | exclude victim =>
      obtain ⟨log, next, -⟩ := circulating.exclude victim
        (circulating.lapping.halted_covered fair false victim)
      exact ⟨_, log, _, next, circulating.lapping.balanced_without fair false victim⟩
    | readmission _ _ => exact shrinks.elim

/-- **The survivors agree.** After each view change all survivors have one log, which extends the log
each had before; at any time two survivors' logs are prefixes of one another. -/
theorem survivors_agree {cfg : RingConfig} {st : RingState cfg}
    (reachable : (excludeNetwork cfg false).Reachable st) :
    (∀ p q : Fin cfg.ringSize, p.val ∉ st.dead → q.val ∉ st.dead →
      st.world.log p <+: st.world.log q ∨ st.world.log q <+: st.world.log p) ∧
    ∀ victim : Fin cfg.ringSize, victim.val ∉ st.dead → ∃ log, ∀ p : Fin cfg.ringSize,
      p.val ∉ (st.exclude false victim).dead →
        (st.exclude false victim).world.log p = log ∧ st.world.log p <+: log := by
  obtain ⟨view, base, entries, circulating, fair⟩ := excludeNetwork_circulating reachable
  refine ⟨fun p q left right => circulating.holds.comparable left right, fun victim _ => ?_⟩
  obtain ⟨log, next, grown⟩ := circulating.exclude victim
    (circulating.lapping.halted_covered fair false victim)
  exact ⟨log, fun p inUse => ⟨next.holds.fresh_log inUse, grown p (mem_exclude.mpr inUse)⟩⟩

/-- Process 1 crashes when process 2 is the only other one to have delivered its train; the survivors
go on. -/
def crashRun : List (MemberAction .quad) :=
  [.ring (.broadcast 2 [1]), .ring (.start 0), .ring (.start 1)] ++
    List.replicate 11 (.ring (.hop 0)) ++ [.exclude 1, .ring (.broadcast 3 [2])] ++
      List.replicate 6 (.ring (.hop 0))

def crashState : RingState .quad :=
  (excludeNetwork .quad false).run (.initial .quad .totalOrder) crashRun

/-- Then process 3 crashes. -/
theorem survivors_agree_quad : ∃ log, ∀ p : Fin 4,
    p.val ∉ (crashState.exclude false 3).dead →
      (crashState.exclude false 3).world.log p = log ∧ crashState.world.log p <+: log := by
  have reachable : (excludeNetwork .quad false).Reachable crashState :=
    Machine.reachable_run rfl (by decide +kernel)
  exact (survivors_agree reachable).2 3 (by decide +kernel)

end TrainsRing
