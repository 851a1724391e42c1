/-
**What the delivered cache still holds.**

`cache_delivered` inserts a key and evicts the smallest keys until `DELIVERED_CACHE_CAP` are left.

* `Retains cache key payloads` — the payloads are cached, or the cache is full of larger keys.
* `retains_cacheDelivered`, `retains_cacheDelivered_self` — **caching a key** above it, or the key
  itself, keeps it so.
* `cache_deliverNow` — with room, nothing is evicted.
* `Retains.held` — with fewer than `DELIVERED_CACHE_CAP` larger keys in the cache, it is cached.
-/

import TrainsRing.Core.Steps

namespace TrainsRing

variable {cfg : RingConfig}

namespace TrainsNode

/-- The payloads of a key are cached, or the cache is full of larger keys. -/
def Retains (cache : OrdMap ClockKey (List Payload)) (key : ClockKey) (payloads : List Payload) :
    Prop :=
  cache.get? key = some payloads ∨
    deliveredCacheCap ≤ cache.size ∧ ∀ other held, cache.get? other = some held → key < other

/-! ### Eviction -/

theorem get?_evict (fuel : Nat) : ∀ {cache : OrdMap ClockKey (List Payload)} {key : ClockKey}
    {payloads : List Payload}, (evict fuel cache).get? key = some payloads →
      cache.get? key = some payloads := by
  induction fuel with
  | zero => exact fun found => found
  | succ fuel ih =>
    intro cache key payloads found
    unfold evict at found
    split_ifs at found with full
    · cases smallest : cache.min? with
      | none =>
        rw [smallest] at found
        exact found
      | some entry =>
        rw [smallest] at found
        have kept := ih found
        rw [OrdMap.get?_erase] at kept
        split_ifs at kept
        exact kept
    · exact found

/-- Evicting the smallest key of a map that is too large. -/
theorem Retains.erase_min {cache : OrdMap ClockKey (List Payload)} {key : ClockKey}
    {payloads : List Payload} (retains : Retains cache key payloads)
    (large : deliveredCacheCap < cache.size) {smallest : ClockKey × List Payload}
    (min : cache.min? = some smallest) : Retains (cache.erase smallest.1) key payloads := by
  have size := OrdMap.size_erase_min min
  have full : deliveredCacheCap ≤ (cache.erase smallest.1).size := by omega
  have least := (OrdMap.min?_eq_some min).2
  have kept : ∀ {other held}, (cache.erase smallest.1).get? other = some held →
      other ≠ smallest.1 ∧ cache.get? other = some held := by
    intro other held found
    rw [OrdMap.get?_erase] at found
    split_ifs at found with same
    exact ⟨same, found⟩
  rcases retains with cached | ⟨-, above⟩
  · by_cases same : key = smallest.1
    · refine Or.inr ⟨full, fun other held found => ?_⟩
      obtain ⟨different, old⟩ := kept found
      exact same ▸ lt_of_le_of_ne (least other held old) (Ne.symm different)
    · exact Or.inl ((OrdMap.get?_erase ..).trans ((if_neg same).trans cached))
  · exact Or.inr ⟨full, fun other held found => above other held (kept found).2⟩

theorem Retains.evict (fuel : Nat) : ∀ {cache : OrdMap ClockKey (List Payload)} {key : ClockKey}
    {payloads : List Payload}, Retains cache key payloads →
      Retains (TrainsNode.evict fuel cache) key payloads := by
  induction fuel with
  | zero => exact fun retains => retains
  | succ fuel ih =>
    intro cache key payloads retains
    unfold TrainsNode.evict
    split_ifs with large
    · cases smallest : cache.min? with
      | none => exact retains
      | some entry => exact ih (retains.erase_min large smallest)
    · exact retains

/-! ### Caching one key -/

/-- What is cached after a delivery was cached before, or is the delivered key. -/
theorem get?_cacheDelivered {node : TrainsNode cfg} {key other : ClockKey}
    {payloads held : List Payload}
    (found : (node.cacheDelivered key payloads).deliveredCache.get? other = some held) :
    other = key ∧ held = payloads ∨ node.deliveredCache.get? other = some held := by
  unfold cacheDelivered at found
  split_ifs at found with empty
  · exact Or.inr found
  · have kept := get?_evict _ found
    rw [OrdMap.get?_insert] at kept
    split_ifs at kept with same
    · exact Or.inl ⟨same, (Option.some.inj kept).symm⟩
    · exact Or.inr kept

theorem retains_cacheDelivered {node : TrainsNode cfg} {key older : ClockKey}
    {payloads held : List Payload} (retains : Retains node.deliveredCache older held)
    (below : older < key) :
    Retains (node.cacheDelivered key payloads).deliveredCache older held := by
  unfold cacheDelivered
  split_ifs with empty
  · exact retains
  · refine Retains.evict _ (retains.imp (fun cached => ?_) fun larger => ⟨?_, ?_⟩)
    · rw [OrdMap.get?_insert, if_neg below.ne, cached]
    · exact larger.1.trans (OrdMap.size_le_size_insert ..)
    · intro other value found
      rw [OrdMap.get?_insert] at found
      split_ifs at found with same
      · exact same ▸ below
      · exact larger.2 other value found

theorem retains_cacheDelivered_self (node : TrainsNode cfg) (key : ClockKey)
    {payloads : List Payload} (loaded : payloads ≠ []) :
    Retains (node.cacheDelivered key payloads).deliveredCache key payloads := by
  unfold cacheDelivered
  rw [if_neg (by simpa using loaded)]
  exact Retains.evict _ (Or.inl (OrdMap.get?_insert_self ..))

/-! ### Room for more -/

/-- A cache that is not too large keeps everything. -/
theorem evict_of_le {cache : OrdMap ClockKey (List Payload)} (room : cache.size ≤ deliveredCacheCap)
    (fuel : Nat) : evict fuel cache = cache := by
  cases fuel with
  | zero => rfl
  | succ fuel => exact if_neg (not_lt.mpr room)

/-- How many of some entries carry payloads. -/
def loads (entries : List Entry) : Nat := entries.countP fun entry => !entry.2.isEmpty

/-- The cache has room for the loads of some entries. -/
def Roomy (node : TrainsNode cfg) (entries : List Entry) : Prop :=
  node.deliveredCache.size + loads entries ≤ deliveredCacheCap

instance (node : TrainsNode cfg) (entries : List Entry) : Decidable (node.Roomy entries) :=
  inferInstanceAs (Decidable (_ ≤ _))

theorem loads_append (first second : List Entry) :
    loads (first ++ second) = loads first + loads second := List.countP_append

/-- **Delivering with room**: the load is cached, and everything cached before still is. -/
theorem cache_deliverNow {node : TrainsNode cfg} {key : ClockKey} {payloads : List Payload}
    (room : node.Roomy [(key, payloads)]) :
    (payloads ≠ [] → (node.deliverNow key payloads).1.deliveredCache.get? key = some payloads) ∧
      (∀ other, other ≠ key → (node.deliverNow key payloads).1.deliveredCache.get? other =
        node.deliveredCache.get? other) ∧
      (node.deliverNow key payloads).1.deliveredCache.size ≤
        node.deliveredCache.size + loads [(key, payloads)] := by
  by_cases empty : payloads.isEmpty = true
  · have same : (node.deliverNow key payloads).1.deliveredCache = node.deliveredCache := by
      unfold deliverNow
      rw [if_pos empty]
    rw [same]
    exact ⟨fun loaded => absurd (List.isEmpty_iff.mp empty) loaded, fun _ _ => rfl,
      Nat.le_add_right _ _⟩
  · have one : loads [(key, payloads)] = 1 := by simp [loads, empty]
    have grown := OrdMap.size_insert_le node.deliveredCache key payloads
    have same : (node.deliverNow key payloads).1.deliveredCache =
        node.deliveredCache.insert key payloads := by
      have fits : (node.deliveredCache.insert key payloads).size ≤ deliveredCacheCap := by
        unfold Roomy at room
        omega
      unfold deliverNow cacheDelivered
      rw [if_neg empty, if_neg empty]
      exact evict_of_le fits _
    rw [same, one]
    refine ⟨fun _ => OrdMap.get?_insert_self .., fun other different => ?_, grown⟩
    rw [OrdMap.get?_insert, if_neg different]

/-! ### Few larger keys -/

/-- **What is not evicted**: a key below fewer than `DELIVERED_CACHE_CAP` cached ones. -/
theorem Retains.held {cache : OrdMap ClockKey (List Payload)} {key : ClockKey}
    {payloads : List Payload} (retains : Retains cache key payloads) (larger : List ClockKey)
    (few : larger.length < deliveredCacheCap)
    (above : ∀ other held, cache.get? other = some held → key < other → other ∈ larger) :
    cache.get? key = some payloads := by
  refine retains.resolve_right fun ⟨full, all⟩ => ?_
  have bound := OrdMap.size_le_length fun other held found =>
    above other held found (all other held found)
  omega

/-- The keys of one clock. -/
def level (cfg : RingConfig) (clock : Nat) : List ClockKey :=
  (List.range cfg.ringSize).map fun q => ⟨clock, q⟩

theorem mem_level {clock : Nat} {key : ClockKey} (inside : key.issuer < cfg.ringSize)
    (same : key.clock = clock) : key ∈ level cfg clock :=
  List.mem_map.mpr ⟨key.issuer, List.mem_range.mpr inside, by rw [← same]⟩

theorem length_level (cfg : RingConfig) (clock : Nat) : (level cfg clock).length = cfg.ringSize := by
  rw [level, List.length_map, List.length_range]

end TrainsNode

end TrainsRing
