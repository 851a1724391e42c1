/-
**Members agree, whoever leaves and comes back.**

The run is any mix of broadcasts, hops, exclusions and re-admissions in which no node has more than
`DELIVERED_CACHE_CAP` keys with payloads to cache, so that no cache evicts anything.

* `Stocked` — every load a node has delivered in the view is in its cache.
* `roomyNetwork` — the runs in which the cache has room for what each hop delivers.
* `members_agree` — **all members have one log after each view change**, which extends what each
  survivor had, and at any time any two logs are prefixes of one another.
-/

import TrainsRing.Reconfig.Readmission

namespace TrainsRing

variable {cfg : RingConfig} {view : View cfg} {base : List Payload}

open TrainsNode RingState

/-! ### Nothing is evicted -/

/-- Every load delivered is cached. -/
def Stocked (node : TrainsNode cfg) (entries : List Entry) : Prop :=
  ∀ entry ∈ entries, entry.2 ≠ [] → node.deliveredCache.get? entry.1 = some entry.2

namespace Stocked

variable {node after : TrainsNode cfg} {entries delivered : List Entry} {train : Train}

theorem congr (stocked : Stocked node entries) (cache : after.deliveredCache = node.deliveredCache) :
    Stocked after entries := by
  intro entry member loaded
  rw [cache]
  exact stocked entry member loaded

theorem deliver (stocked : Stocked node entries) {key : ClockKey} {payloads : List Payload}
    (above : ∀ entry ∈ entries, entry.1 < key) (room : node.Roomy [(key, payloads)]) :
    Stocked (node.deliverNow key payloads).1 (entries ++ [(key, payloads)]) := by
  obtain ⟨self, others, -⟩ := cache_deliverNow room
  intro entry member loaded
  rcases List.mem_append.mp member with old | new
  · rw [others _ (above entry old).ne]
    exact stocked entry old loaded
  · rw [List.mem_singleton.mp new] at loaded ⊢
    exact self loaded

/-- A run of deliveries for which there is room. -/
theorem delivers (run : Delivers node delivered after) : ∀ {entries : List Entry},
    Stocked node entries → node.Roomy delivered →
      ((entries ++ delivered).Pairwise fun first second => first.1 < second.1) →
        Stocked after (entries ++ delivered) := by
  induction run with
  | nil =>
    intro entries stocked _ _
    rwa [List.append_nil]
  | @cons node after key train rest _ _ _ ih =>
    intro entries stocked room sorted
    have above : ∀ entry ∈ entries, entry.1 < key := fun entry member =>
      (List.pairwise_append.mp sorted).2.2 entry member _ List.mem_cons_self
    have total := loads_append [(key, train.payloads)] rest
    unfold Roomy at room
    rw [List.singleton_append] at total
    have fits : (node.unpark key).Roomy [(key, train.payloads)] := by
      show node.deliveredCache.size + _ ≤ _
      omega
    have grown : _ ≤ node.deliveredCache.size + _ := (cache_deliverNow fits).2.2
    rw [List.append_cons] at sorted ⊢
    have unparked : Stocked (node.unpark key) entries := stocked.congr rfl
    refine ih (unparked.deliver above fits) ?_ sorted
    unfold Roomy
    omega

/-- An attempt to deliver and the drain after it. -/
theorem attempt {middle : TrainsNode cfg} {now drained : List Entry} (stocked : Stocked node entries)
    (tried : Tried node train now middle) (run : Delivers middle drained after)
    (room : node.Roomy (now ++ drained))
    (sorted : (entries ++ (now ++ drained)).Pairwise fun first second => first.1 < second.1) :
    Stocked after (entries ++ (now ++ drained)) := by
  cases tried with
  | skipped _ => exact delivers run stocked room sorted
  | parked _ _ _ => exact delivers run (stocked.congr rfl) room sorted
  | delivered _ _ _ =>
    have above : ∀ entry ∈ entries, entry.1 < train.key := fun entry member =>
      (List.pairwise_append.mp sorted).2.2 entry member _ List.mem_cons_self
    have total := loads_append [(train.key, train.payloads)] drained
    unfold Roomy at room
    have fits : node.Roomy [(train.key, train.payloads)] := by
      unfold Roomy
      omega
    have grown := (cache_deliverNow fits).2.2
    rw [← List.append_assoc] at sorted ⊢
    refine delivers run (stocked.deliver above fits) ?_ sorted
    unfold Roomy
    omega

/-- **One `handle_train`** for which the cache has room. -/
theorem handled (stocked : Stocked node entries) {forwarded : List Train}
    (handled : Handled node train delivered forwarded after) (room : node.Roomy delivered)
    (sorted : (entries ++ delivered).Pairwise fun first second => first.1 < second.1) :
    Stocked after (entries ++ delivered) := by
  cases handled with
  | absorbed _ => rwa [List.append_nil]
  | visited _ _ _ run _ => exact delivers run (stocked.congr rfl) room sorted
  | replayed _ _ _ tried run _ =>
    have noted : Stocked (node.noteSeen train.payloads) entries := stocked.congr rfl
    exact noted.attempt tried run room sorted
  | recycled _ _ _ =>
    rw [List.append_nil]
    exact stocked.congr rfl
  | returned _ _ _ tried run _ =>
    have observed : Stocked (node.observe node.id train.clock) entries := stocked.congr rfl
    exact observed.attempt tried run room sorted

end Stocked

/-! ### The run -/

/-- The cache of the receiver has room for what a hop delivers. A node that never has more than
`DELIVERED_CACHE_CAP` keys with payloads to cache takes no other hop. -/
def MemberAction.Roomy (st : RingState cfg) : MemberAction cfg → Prop
  | ring action => ∀ p, (st.world.node p).Roomy (st.delivered action p)
  | _ => True

instance (st : RingState cfg) (action : MemberAction cfg) : Decidable (action.Roomy st) :=
  match action with
  | .ring action =>
    inferInstanceAs (Decidable (∀ p, (st.world.node p).Roomy (st.delivered action p)))
  | .exclude _ => isTrue trivial
  | .readmission _ _ => isTrue trivial

/-- The runs in which no cache evicts anything. -/
def roomyNetwork (cfg : RingConfig) : Machine (RingState cfg) (MemberAction cfg) :=
  (memberNetwork cfg false).restrict fun st action => action.Roomy st

instance (cfg : RingConfig) (st : RingState cfg) (action : MemberAction cfg) :
    Decidable ((roomyNetwork cfg).legal st action) :=
  inferInstanceAs (Decidable (action.Legal st ∧ action.Roomy st))

/-- The ring in some view, with nothing evicted in it. -/
structure RoomyInvariant (view : View cfg) (base : List Payload) (st : RingState cfg)
    (entries : Fin cfg.ringSize → List Entry) : Prop where
  holds : ViewInvariant view base st entries
  clean : st.Clean
  stocked : ∀ p : Fin cfg.ringSize, view.Alive p → Stocked (st.world.node p) (entries p)

namespace RoomyInvariant

variable {st : RingState cfg} {entries : Fin cfg.ringSize → List Entry}

theorem ring (invariant : RoomyInvariant view base st entries) {action : RingAction cfg}
    (legal : action.Legal st) (room : ∀ p, (st.world.node p).Roomy (st.delivered action p)) :
    RoomyInvariant view base (st.apply action) fun p => entries p ++ st.delivered action p := by
  have holds := invariant.holds.ring legal (invariant.holds.fences invariant.clean action)
  have clean := invariant.clean.ring legal
  refine ⟨holds, clean, fun p alive => ?_⟩
  have sorted := (holds.coherent.replica p alive).segment.sorted
  have still := invariant.stocked p alive
  cases action with
  | broadcast q data =>
    simp only [delivered, List.append_nil]
    exact still.congr (st.world.broadcast_cache q data p)
  | start q =>
    simp only [delivered, List.append_nil]
    exact still.congr (st.world.issueInitial_cache q p)
  | hop i =>
    obtain ⟨⟨s, t⟩, here, receiver⟩ := legal
    obtain ⟨before, after, -, -, hop⟩ := hop_eq here
    have delivered := st.delivered_hop here
    show Stocked ((st.hop i).world.node p) _
    rw [hop]
    by_cases same : p = st.successor s
    · obtain ⟨forwarded, handled, -⟩ := (st.world.node p).handleTrain_entries t
      have node : (st.world.receive p t).node p = ((st.world.node p).handleTrain t).1 :=
        st.world.act_node_self p _
      have fits := room p
      rw [delivered, if_pos same] at sorted fits ⊢
      rw [← same, node]
      exact still.handled handled fits sorted
    · rw [delivered, if_neg same, List.append_nil, st.world.receive_node_of_ne _ same]
      exact still

/-- What a member has delivered is in its cache, so the next view change is covered. -/
theorem halted_covered (invariant : RoomyInvariant view base st entries)
    (victim : Fin cfg.ringSize) :
    Covered view (st.halted false victim).members st.world.node entries :=
  fun _ _ p member payloads inside loaded _ => ⟨p, member, payloads,
    invariant.stocked p ((invariant.holds.alive p).mpr (mem_halted.mp member).1) _ inside loaded⟩

theorem joined_covered (invariant : RoomyInvariant view base st entries)
    {rejoiner donor : Fin cfg.ringSize} (dead : rejoiner.val ∈ st.dead)
    (alive : donor.val ∉ st.dead) : Covered view (st.joined rejoiner donor).members
      (st.joined rejoiner donor).world.node (Function.update entries rejoiner (entries donor)) := by
  have cached : ∀ p : Fin cfg.ringSize, p.val ∉ st.dead → ∀ key payloads,
      (key, payloads) ∈ entries p → payloads ≠ [] →
        ∃ q ∈ (st.joined rejoiner donor).members, ∃ held,
          ((st.joined rejoiner donor).world.node q).deliveredCache.get? key = some held := by
    intro p inUse key payloads inside loaded
    refine ⟨p, mem_joined.mpr (Or.inr inUse), payloads, ?_⟩
    rw [(joined_member inUse dead).1]
    exact invariant.stocked p ((invariant.holds.alive p).mpr inUse) _ inside loaded
  intro key _ p member payloads inside loaded _
  by_cases same : p = rejoiner
  · rw [same, Function.update_self] at inside
    exact cached donor alive key payloads inside loaded
  · rw [Function.update_of_ne same] at inside
    exact cached p ((mem_joined.mp member).resolve_left same) key payloads inside loaded

theorem reachable (reachable : (roomyNetwork cfg).Reachable st) :
    ∃ (view : View cfg) (base : List Payload) (entries : Fin cfg.ringSize → List Entry),
      RoomyInvariant view base st entries := by
  refine Machine.invariant (m := roomyNetwork cfg)
    (P := fun st => ∃ view base entries, RoomyInvariant view base st entries) ?_ ?_ reachable
  · rintro _ rfl
    exact ⟨_, _, _, ViewInvariant.initial cfg, fun _ member => absurd member List.not_mem_nil,
      fun _ _ _ member => absurd member List.not_mem_nil⟩
  · rintro st action ⟨view, base, entries, invariant⟩ ⟨legal, room⟩
    have anew : ∀ (p : Fin cfg.ringSize) (w : World cfg), Stocked (w.node p) [] :=
      fun _ _ _ member => absurd member List.not_mem_nil
    cases action with
    | ring action => exact ⟨view, base, _, invariant.ring legal room⟩
    | exclude victim =>
      obtain ⟨log, next, -⟩ := invariant.holds.exclude false victim
        (invariant.halted_covered victim)
      exact ⟨_, log, _, next, invariant.clean.exclude victim, fun p _ => anew p _⟩
    | readmission rejoiner donor =>
      obtain ⟨log, next, -⟩ := invariant.holds.readmission invariant.clean legal.1 legal.2
        (invariant.joined_covered legal.1 legal.2)
      exact ⟨_, log, _, next, invariant.clean.readmission rejoiner donor, fun p _ => anew p _⟩

end RoomyInvariant

/-! ### Agreement -/

/-- **Members agree.** After each view change, exclusion or re-admission, all members have one log,
which extends that of every survivor; at any time two members' logs are prefixes of one another. -/
theorem members_agree {cfg : RingConfig} {st : RingState cfg}
    (reachable : (roomyNetwork cfg).Reachable st) :
    (∀ p q : Fin cfg.ringSize, p.val ∉ st.dead → q.val ∉ st.dead →
      st.world.log p <+: st.world.log q ∨ st.world.log q <+: st.world.log p) ∧
    (∀ victim : Fin cfg.ringSize, victim.val ∉ st.dead → ∃ log, ∀ p : Fin cfg.ringSize,
      p.val ∉ (st.exclude false victim).dead →
        (st.exclude false victim).world.log p = log ∧ st.world.log p <+: log) ∧
    ∀ rejoiner donor : Fin cfg.ringSize, rejoiner.val ∈ st.dead → donor.val ∉ st.dead →
      ∃ log, ∀ p : Fin cfg.ringSize, p.val ∉ (st.readmission rejoiner donor).dead →
        (st.readmission rejoiner donor).world.log p = log ∧
          (p.val ∉ st.dead → st.world.log p <+: log) := by
  obtain ⟨view, base, entries, invariant⟩ := RoomyInvariant.reachable reachable
  refine ⟨fun p q left right => invariant.holds.comparable left right, fun victim _ => ?_,
    fun rejoiner donor dead alive => ?_⟩
  · obtain ⟨log, next, grown⟩ := invariant.holds.exclude false victim
      (invariant.halted_covered victim)
    exact ⟨log, fun p inUse => ⟨next.fresh_log inUse, grown p (mem_exclude.mpr inUse)⟩⟩
  · obtain ⟨log, next, grown⟩ := invariant.holds.readmission invariant.clean dead alive
      (invariant.joined_covered dead alive)
    exact ⟨log, fun p inUse => ⟨next.fresh_log inUse, fun member => grown p (mem_members.mpr member)⟩⟩

/-- Process 1 crashes when a train of issuer 0 has come around, and the others deliver the next. -/
def leavingRun : List (MemberAction .triple) :=
  [.ring (.broadcast 2 [1]), .ring (.start 0), .ring (.hop 0), .ring (.hop 0), .ring (.hop 0),
    .exclude 1, .ring (.broadcast 2 [2])] ++ List.replicate 4 (.ring (.hop 0))

def leavingState : RingState .triple :=
  (roomyNetwork .triple).run (.initial .triple .totalOrder) leavingRun

/-- It comes back with the state of process 2. -/
theorem members_agree_triple :
    leavingState.world.log 2 = [⟨2, 0, [1]⟩, ⟨2, 1, [2]⟩] ∧
      ∃ log, ∀ p : Fin 3, p.val ∉ (leavingState.readmission 1 2).dead →
        (leavingState.readmission 1 2).world.log p = log ∧
          (p.val ∉ leavingState.dead → leavingState.world.log p <+: log) := by
  have reachable : (roomyNetwork .triple).Reachable leavingState :=
    Machine.reachable_run rfl (by decide +kernel)
  exact ⟨by decide +kernel, (members_agree reachable).2.2 1 2 (by decide +kernel) (by decide +kernel)⟩

end TrainsRing
