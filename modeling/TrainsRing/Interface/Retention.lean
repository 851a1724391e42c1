/-
**What a node can still retransmit.**

`delivered_cache` inserts what is delivered and drops its smallest key while it holds more than
`DELIVERED_CACHE_CAP`. Over a whole life of the node, plans applied and keys delivered out of order
included, that leaves exactly the greatest keys among all that were ever delivered with payloads.

* `loadedKeys`, `lastLoad` — the keys delivered with payloads, and the payloads of each.
* `get?_evict_eq` — the eviction loop leaves the greatest keys.
* `Keeps` — a cache holds the greatest loaded keys; `Remembers` — so does the node's;
  `Remembers.deliverNow`, `Remembers.run`: **every call keeps it so.**
* `retention` — **what is cached and what a recovery report offers**, after any calls on a node whose
  cache was empty.
-/

import TrainsRing.Interface.KeyOrder
import TrainsRing.Library.Greatest

namespace TrainsRing

variable {cfg : RingConfig}

namespace OrdMap

variable {κ β : Type} [LinearOrder κ]

/-- The keys as a set. -/
def keySet (m : OrdMap κ β) : Finset κ := m.keys.toFinset

theorem mem_keySet {m : OrdMap κ β} {key : κ} : key ∈ m.keySet ↔ ∃ value, m.get? key = some value := by
  rw [keySet, List.mem_toFinset, mem_keys_iff]

theorem card_keySet (m : OrdMap κ β) : m.keySet.card = m.size := by
  rw [keySet, List.toFinset_card_of_nodup m.nodup_keys, keys, List.length_map, size]

theorem keySet_insert (m : OrdMap κ β) (key : κ) (value : β) :
    (m.insert key value).keySet = Insert.insert key m.keySet := by
  ext other
  rw [mem_keySet, get?_insert, Finset.mem_insert, mem_keySet]
  split_ifs with same
  · simp [same]
  · simp [same]

theorem keySet_erase (m : OrdMap κ β) (key : κ) : (m.erase key).keySet = m.keySet.erase key := by
  ext other
  rw [mem_keySet, get?_erase, Finset.mem_erase, mem_keySet]
  split_ifs with same
  · simp [same]
  · simp [same]

end OrdMap

/-! ### What has been delivered -/

section Loads

variable {κ β : Type} [LinearOrder κ]

/-- The keys delivered with payloads. -/
def loadedKeys (entries : List (κ × List β)) : Finset κ :=
  ((entries.filter fun entry => !entry.2.isEmpty).map Prod.fst).toFinset

/-- The payloads last delivered under a key. -/
def lastLoad (entries : List (κ × List β)) (key : κ) : Option (List β) :=
  (entries.reverse.find? fun entry => decide (entry.1 = key) && !entry.2.isEmpty).map Prod.snd

theorem mem_loadedKeys {entries : List (κ × List β)} {key : κ} :
    key ∈ loadedKeys entries ↔ ∃ payloads, lastLoad entries key = some payloads := by
  unfold loadedKeys lastLoad
  rw [← Option.isSome_iff_exists, Option.isSome_map, List.find?_isSome]
  simp only [List.mem_toFinset, List.mem_map, List.mem_filter, List.mem_reverse, Bool.and_eq_true,
    decide_eq_true_eq]
  exact ⟨fun ⟨entry, ⟨inside, loaded⟩, same⟩ => ⟨entry, inside, same, loaded⟩,
    fun ⟨entry, inside, same, loaded⟩ => ⟨entry, ⟨inside, loaded⟩, same⟩⟩

/-- A delivery without payloads leaves no trace. -/
theorem loads_empty (entries : List (κ × List β)) (key : κ) :
    loadedKeys (entries ++ [(key, [])]) = loadedKeys entries ∧
      lastLoad (entries ++ [(key, [])]) = lastLoad entries := by
  refine ⟨by simp [loadedKeys], funext fun other => ?_⟩
  rw [lastLoad, List.reverse_append, List.reverse_singleton, List.singleton_append, List.find?_cons,
    lastLoad]
  simp

theorem loadedKeys_snoc (entries : List (κ × List β)) (key : κ) {payloads : List β}
    (loaded : payloads ≠ []) :
    loadedKeys (entries ++ [(key, payloads)]) = insert key (loadedKeys entries) := by
  have full : (!payloads.isEmpty) = true := by simpa using loaded
  ext other
  rw [loadedKeys, loadedKeys, List.filter_append, List.filter_singleton, full, cond_true,
    List.map_append, List.map_singleton, List.toFinset_append, Finset.mem_union, Finset.mem_insert,
    or_comm]
  simp only [List.toFinset_cons, List.toFinset_nil, insert_empty_eq, Finset.mem_singleton]

theorem lastLoad_snoc (entries : List (κ × List β)) (key other : κ) {payloads : List β}
    (loaded : payloads ≠ []) : lastLoad (entries ++ [(key, payloads)]) other =
      if other = key then some payloads else lastLoad entries other := by
  rw [lastLoad, List.reverse_append, List.reverse_singleton, List.singleton_append, List.find?_cons,
    lastLoad]
  have full : (!payloads.isEmpty) = true := by simpa using loaded
  by_cases same : other = key
  · subst same
    simp [full]
  · simp [same, Ne.symm same]

/-- The cache holds the greatest loaded keys, each with the payloads last delivered under it. -/
def Keeps (cap : Nat) (cache : OrdMap κ (List β)) (entries : List (κ × List β)) : Prop :=
  ∀ key payloads, cache.get? key = some payloads ↔
    key ∈ greatest cap (loadedKeys entries) ∧ lastLoad entries key = some payloads

theorem Keeps.empty (cap : Nat) : Keeps cap (OrdMap.empty : OrdMap κ (List β)) [] := by
  intro key payloads
  rw [OrdMap.get?_empty]
  exact iff_of_false (Option.some_ne_none payloads).symm fun ⟨kept, _⟩ =>
    absurd (greatest_subset cap _ kept) (Finset.notMem_empty key)

theorem Keeps.keySet {cap : Nat} {cache : OrdMap κ (List β)} {entries : List (κ × List β)}
    (keeps : Keeps cap cache entries) : cache.keySet = greatest cap (loadedKeys entries) := by
  ext key
  rw [OrdMap.mem_keySet]
  constructor
  · rintro ⟨payloads, stored⟩
    exact ((keeps key payloads).mp stored).1
  · intro kept
    obtain ⟨payloads, last⟩ := mem_loadedKeys.mp (greatest_subset cap _ kept)
    exact ⟨payloads, (keeps key payloads).mpr ⟨kept, last⟩⟩

/-- **A delivery with payloads**, inserted and trimmed to the greatest keys. -/
theorem Keeps.snoc {cap : Nat} {cache after : OrdMap κ (List β)} {entries : List (κ × List β)}
    {key : κ} {payloads : List β} (keeps : Keeps cap cache entries) (loaded : payloads ≠ [])
    (trimmed : ∀ other load, after.get? other = some load ↔
      other ∈ greatest cap (cache.insert key payloads).keySet ∧
        (cache.insert key payloads).get? other = some load) :
    Keeps cap after (entries ++ [(key, payloads)]) := by
  intro other load
  rw [trimmed, OrdMap.keySet_insert, keeps.keySet, greatest_insert, loadedKeys_snoc _ _ loaded,
    lastLoad_snoc _ _ _ loaded, OrdMap.get?_insert]
  refine and_congr_right fun top => ?_
  by_cases same : other = key
  · rw [if_pos same, if_pos same]
  · -- among the greatest now, so among the greatest before
    obtain ⟨inside, few⟩ := mem_greatest.mp top
    have old : other ∈ greatest cap (loadedKeys entries) :=
      mem_greatest.mpr ⟨(Finset.mem_insert.mp inside).resolve_left same,
        lt_of_le_of_lt (rank_mono (Finset.subset_insert _ _) other) few⟩
    rw [if_neg same, if_neg same, keeps other load]
    exact and_iff_right old

end Loads

namespace TrainsNode

/-! ### Eviction -/

/-- **The eviction loop leaves the greatest keys.** -/
theorem get?_evict_eq (fuel : Nat) : ∀ {cache : OrdMap ClockKey (List Payload)}, cache.size ≤ fuel →
    ∀ key payloads, (evict fuel cache).get? key = some payloads ↔
      key ∈ greatest deliveredCacheCap cache.keySet ∧ cache.get? key = some payloads := by
  have fits : ∀ cache : OrdMap ClockKey (List Payload), cache.size ≤ deliveredCacheCap →
      ∀ key payloads, cache.get? key = some payloads ↔
        key ∈ greatest deliveredCacheCap cache.keySet ∧ cache.get? key = some payloads := by
    intro cache room key payloads
    rw [greatest_of_card_le (cache.card_keySet ▸ room)]
    exact (and_iff_right_of_imp fun stored => OrdMap.mem_keySet.mpr ⟨payloads, stored⟩).symm
  induction fuel with
  | zero => exact fun small => fits _ (small.trans (Nat.zero_le _))
  | succ fuel ih =>
    intro cache small key payloads
    by_cases large : deliveredCacheCap < cache.size
    · rw [evict, if_pos large]
      cases smallest : cache.min? with
      | none =>
        have empty : cache.size = 0 := by
          rw [OrdMap.min?, List.head?_eq_none_iff] at smallest
          rw [OrdMap.size, smallest, List.length_nil]
        omega
      | some entry =>
        obtain ⟨least, held⟩ := entry
        obtain ⟨found, low⟩ := OrdMap.min?_eq_some smallest
        have shrunk := OrdMap.size_erase_min smallest
        have dropped : greatest deliveredCacheCap (cache.erase least).keySet =
            greatest deliveredCacheCap cache.keySet := by
          rw [OrdMap.keySet_erase]
          refine greatest_erase (cache.card_keySet ▸ large) (OrdMap.mem_keySet.mpr ⟨held, found⟩)
            fun other inside => ?_
          obtain ⟨value, stored⟩ := OrdMap.mem_keySet.mp inside
          exact low other value stored
        dsimp only
        rw [ih (by omega)]
        constructor
        · rintro ⟨kept, stored⟩
          rw [OrdMap.get?_erase] at stored
          exact ⟨dropped ▸ kept, (Option.ite_none_left_eq_some.mp stored).2⟩
        · rintro ⟨kept, stored⟩
          have still : key ∈ greatest deliveredCacheCap (cache.erase least).keySet := dropped ▸ kept
          obtain ⟨value, here⟩ := OrdMap.mem_keySet.mp (greatest_subset _ _ still)
          rw [OrdMap.get?_erase] at here
          refine ⟨still, ?_⟩
          rw [OrdMap.get?_erase, if_neg (Option.ite_none_left_eq_some.mp here).1, stored]
    · rw [evict, if_neg large]
      exact fits cache (not_lt.mp large) key payloads

/-! ### The cache over a node's life -/

/-- The cache beside what was delivered. -/
def Remembers (node : TrainsNode cfg) (entries : List Entry) : Prop :=
  Keeps deliveredCacheCap node.deliveredCache entries

/-- **A delivery.** -/
theorem Remembers.deliverNow {node : TrainsNode cfg} {entries : List Entry}
    (keeps : Remembers node entries) (key : ClockKey) (payloads : List Payload) :
    Remembers (node.deliverNow key payloads).1 (entries ++ [(key, payloads)]) := by
  by_cases empty : payloads = []
  · subst empty
    intro other
    rw [(loads_empty entries key).1, (loads_empty entries key).2]
    exact keeps other
  · have cached : (node.deliverNow key payloads).1.deliveredCache =
        evict (node.deliveredCache.insert key payloads).size
          (node.deliveredCache.insert key payloads) := by
      unfold TrainsNode.deliverNow cacheDelivered
      rw [if_neg (by simpa using empty), if_neg (by simpa using empty)]
    refine Keeps.snoc keeps empty ?_
    rw [cached]
    exact get?_evict_eq _ le_rfl

theorem Remembers.delivers {node after : TrainsNode cfg} {entries delivered : List Entry}
    (run : Delivers node delivered after) (keeps : Remembers node entries) :
    Remembers after (entries ++ delivered) := by
  refine run.preserves (P := Remembers) (fun node entries key train keeps _ _ => ?_) entries keeps
  have unparked : Remembers (node.unpark key) entries := keeps
  exact unparked.deliverNow key train.payloads

theorem Remembers.tried {node after : TrainsNode cfg} {train : Train} {entries delivered : List Entry}
    (tried : Tried node train delivered after) (keeps : Remembers node entries) :
    Remembers after (entries ++ delivered) := by
  cases tried with
  | skipped _ => rwa [List.append_nil]
  | parked _ _ _ => rwa [List.append_nil]
  | delivered _ _ _ => exact keeps.deliverNow train.key train.payloads

theorem Remembers.handled {node after : TrainsNode cfg} {train : Train} {entries delivered : List Entry}
    {forwarded : List Train} (handled : Handled node train delivered forwarded after)
    (keeps : Remembers node entries) :
    Remembers after (entries ++ delivered) := by
  cases handled with
  | absorbed _ => rwa [List.append_nil]
  | visited _ _ _ run _ => exact Remembers.delivers run keeps
  | replayed _ _ _ tried run _ =>
    rw [← List.append_assoc]
    exact Remembers.delivers run (Remembers.tried tried keeps)
  | recycled _ _ _ => rwa [List.append_nil]
  | returned _ _ _ tried run _ =>
    rw [← List.append_assoc]
    exact Remembers.delivers run (Remembers.tried tried keeps)

/-- The actions of a plan. -/
theorem Remembers.actions (rest : List (ClockKey × RecoveryAction)) :
    ∀ {node : TrainsNode cfg} {entries : List Entry} (outputs : List Output),
      Remembers node entries →
      Remembers (rest.foldl applyAction (node, outputs)).1
        (entries ++ loopEntries rest node) := by
  induction rest with
  | nil =>
    intro node entries outputs keeps
    rwa [loopEntries, List.append_nil]
  | cons action rest ih =>
    intro node entries outputs keeps
    have next : Remembers (applyAction (node, []) action).1
        (entries ++ node.actionEntries action) := by
      rw [applyAction_eq, actionEntries]
      dsimp only
      split_ifs with done
      · rwa [List.append_nil]
      · have before : Remembers (((node.observe action.1.issuer action.1.clock).unpark
            action.1).noteSeen action.2.payloads) entries := keeps
        exact before.deliverNow action.1 action.2.payloads
    rw [List.foldl_cons, applyAction_outputs, loopEntries, ← List.append_assoc]
    exact ih _ next

/-- **A call.** -/
theorem Remembers.run {node : TrainsNode cfg} {entries : List Entry}
    (keeps : Remembers node entries) (call : NodeCall cfg) :
    Remembers (call.run node).1 (entries ++ call.records node) := by
  cases call with
  | step input =>
    cases input with
    | trainReceived train =>
      obtain ⟨forwarded, handled, -⟩ := node.handleTrain_entries train
      exact Remembers.handled handled keeps
    | localBroadcast data =>
      have same : (node.handleBroadcast data).1.deliveredCache = node.deliveredCache := by
        unfold handleBroadcast
        split <;> rfl
      show Keeps deliveredCacheCap (node.handleBroadcast data).1.deliveredCache (entries ++ [])
      rwa [same, List.append_nil]
    | tick => exact (List.append_nil entries).symm ▸ keeps
  | confirmCrash p =>
    exact Remembers.delivers (drainParked_entries _).1 keeps
  | applyRecovery plan =>
    have applied := Remembers.actions plan.actions.entries [] keeps
    show Remembers _ (entries ++ (_ ++ _))
    rw [← List.append_assoc]
    exact Remembers.delivers (drainParked_entries _).1 applied
  | _ => exact (List.append_nil entries).symm ▸ keeps

end TrainsNode

/-! ### Whole runs -/

open TrainsNode

/-- What some calls leave: the cache beside the records, and the outputs beside the records. -/
theorem Recording.remembers (calls : List (NodeCall cfg)) : ∀ {st : Recording cfg},
    Remembers st.node st.recorded → delivers st.outputs = announcements st.recorded →
      Remembers (st.calls calls).node (st.calls calls).recorded ∧
        delivers (st.calls calls).outputs = announcements (st.calls calls).recorded := by
  induction calls with
  | nil => exact fun keeps announced => ⟨keeps, announced⟩
  | cons call rest ih =>
    intro st keeps announced
    have logged := st.node.logged_run call
    have next : Remembers (st.call call).node (st.call call).recorded := keeps.run call
    refine ih next ?_
    show delivers (st.outputs ++ _) = announcements (st.recorded ++ _)
    rw [delivers_append, announcements_append, announced, logged.announced]

/-- **Retention.** After any calls on a node whose cache was empty, new or just restored, the cache
holds the `DELIVERED_CACHE_CAP` greatest keys among all delivered with payloads since, or all of them
if there are fewer, each with the payloads last delivered under it; a recovery report offers these,
and for the other keys what is parked. -/
theorem retention {start : TrainsNode cfg} (empty : start.deliveredCache = OrdMap.empty)
    (calls : List (NodeCall cfg)) (st : Recording cfg)
    (reached : st = Recording.calls ⟨start, [], []⟩ calls) :
    delivers st.outputs = announcements st.recorded ∧
      st.node.deliveredCache.size = min deliveredCacheCap (loadedKeys st.recorded).card ∧
      ∀ key payloads,
        (st.node.deliveredCache.get? key = some payloads ↔
          key ∈ greatest deliveredCacheCap (loadedKeys st.recorded) ∧
            lastLoad st.recorded key = some payloads) ∧
        (st.node.recoveryReport.haves.get? key = some payloads ↔
          if key ∈ greatest deliveredCacheCap (loadedKeys st.recorded)
            then lastLoad st.recorded key = some payloads
            else payloads ≠ [] ∧
              ∃ train, st.node.parked.get? key = some train ∧ train.payloads = payloads) := by
  have first : Remembers start [] := by
    show Keeps deliveredCacheCap start.deliveredCache []
    exact empty ▸ Keeps.empty _
  have whole : Remembers (Recording.calls ⟨start, [], []⟩ calls).node
        (Recording.calls ⟨start, [], []⟩ calls).recorded ∧
      delivers (Recording.calls ⟨start, [], []⟩ calls).outputs =
        announcements (Recording.calls ⟨start, [], []⟩ calls).recorded :=
    Recording.remembers calls first rfl
  rw [← reached] at whole
  obtain ⟨keeps, announced⟩ := whole
  refine ⟨announced, ?_, fun key payloads => ⟨keeps key payloads, ?_⟩⟩
  · rw [← OrdMap.card_keySet, keeps.keySet, card_greatest]
  · show st.node.retransmittable.get? key = some payloads ↔ _
    rw [get?_retransmittable]
    split_ifs with kept
    · obtain ⟨load, found⟩ := mem_loadedKeys.mp (greatest_subset _ _ kept)
      have loaded : load ≠ [] := by
        obtain ⟨entry, here, rfl⟩ := Option.map_eq_some_iff.mp found
        have both := List.find?_some here
        simp only [Bool.and_eq_true] at both
        simpa using both.2
      rw [(keeps key load).mpr ⟨kept, found⟩, found, Option.filter_some, if_pos (by simpa using loaded),
        Option.some_or]
    · have uncached : st.node.deliveredCache.get? key = none :=
        Option.eq_none_iff_forall_ne_some.mpr fun load stored =>
          kept ((keeps key load).mp stored).1
      rw [uncached, Option.filter_none, Option.none_or, Option.filter_eq_some_iff,
        Option.map_eq_some_iff, and_comm, Bool.not_eq_true', List.isEmpty_eq_false_iff]

/-- A node that has the trains of one issuer in the wrong order. -/
def overtakenNode : Recording .triple :=
  Recording.calls ⟨TrainsNode.new .triple 1 (by decide) .uniformTotalOrder, [], []⟩ hostileCalls

/-- The later train is offered with the two cached ones, although it was never delivered. -/
theorem retention_triple :
    overtakenNode.node.deliveredCache.size = 2 ∧
      overtakenNode.node.recoveryReport.haves.get? ⟨2, 0⟩ = some [⟨2, 1, [8]⟩] := by
  obtain ⟨-, size, offers⟩ := retention rfl hostileCalls overtakenNode rfl
  refine ⟨size.trans (by decide), (offers ⟨2, 0⟩ [⟨2, 1, [8]⟩]).2.mpr ?_⟩
  rw [if_neg (by decide)]
  exact ⟨by decide, ⟨0, 2, [⟨2, 1, [8]⟩], 7#32⟩, by decide, rfl⟩

end TrainsRing
