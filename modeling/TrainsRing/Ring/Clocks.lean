/-
**The clocks of the issuers.**

`Clocks view w` relates the clock each issuer stamps next to the trains emitted and the clocks seen.
In a view in which no issuer starts behind (`View.Balanced`), no issuer runs ahead of another by more than
one train (`level`, `even`): an issuer moves on to its next clock when its last key is done, and the
delivery gate lets a key through only when every issuer's clock has caught up.

* `Clocks.relay` — a step that emits no train of a new key keeps it.
* `Clocks.issue` — a process that no issuer lags behind may issue.
-/

import TrainsRing.Agreement.Coherent

namespace TrainsRing

variable {cfg : RingConfig} {view : View cfg} {w w' : World cfg} {p : Fin cfg.ringSize}

/-- The clock process `q` stamps on its next train. -/
def World.issueClock (w : World cfg) (q : Nat) : Nat :=
  if inside : q < cfg.ringSize then (w.node ⟨q, inside⟩).nextIssueClock else 0

theorem World.issueClock_eq (w : World cfg) (q : Fin cfg.ringSize) :
    w.issueClock q = (w.node q).nextIssueClock := dif_pos q.isLt

theorem World.issueClock_congr (same : ∀ q, (w'.node q).nextIssueClock = (w.node q).nextIssueClock)
    (q : Nat) : w'.issueClock q = w.issueClock q := by
  unfold World.issueClock
  split_ifs
  · exact same _
  · rfl

/-- No issuer starts more than one train behind any slot. -/
def View.Balanced (view : View cfg) : Prop :=
  ∀ q i, view.Issuer i → view.floor.get q ≤ view.floor.get i + 1

theorem View.balanced_initial (mode : DeliveryMode) : (View.initial cfg mode).Balanced :=
  fun q _ _ => (Slots.get_zero q).trans_le (Nat.zero_le _)

/-- The issue clocks, the trains emitted and the clocks seen. -/
structure Clocks (view : View cfg) (w : World cfg) : Prop where
  bounds : ∀ q, view.Issuer q → 1 ≤ w.issueClock q ∧ w.issueClock q ≤ u64Max
  above : ∀ q, view.Issuer q → view.floor.get q < w.issueClock q ∨ w.issueClock q = u64Max
  bounded : ∀ t ∈ w.emitted, view.Key t.key → t.clock ≤ u64Max
  issued : ∀ t ∈ w.emitted, view.Key t.key →
    t.clock < w.issueClock t.issuer ∨ w.issueClock t.issuer = u64Max
  source : ∀ x : Fin cfg.ringSize, view.Alive x → ∀ q, view.Issuer q →
    (w.node x).seenClock q = view.floor.get q ∨
      ∃ t ∈ w.emitted, view.Key t.key ∧ t.issuer = q ∧ t.clock = (w.node x).seenClock q
  level : view.Balanced → ∀ t ∈ w.emitted, view.Key t.key → ∀ i, view.Issuer i →
    t.clock ≤ w.issueClock i
  even : view.Balanced → ∀ q i, view.Issuer q → view.Issuer i →
    w.issueClock q ≤ w.issueClock i + 1

namespace Clocks

theorem initial (mode : DeliveryMode) :
    Clocks (View.initial cfg mode) (World.initial cfg mode) := by
  have one : ∀ q, (View.initial cfg mode).Issuer q → (World.initial cfg mode).issueClock q = 1 :=
    fun q issuer => dif_pos issuer.inside
  have max : 1 ≤ u64Max := by decide
  refine ⟨fun q issuer => ?_, fun q issuer => ?_, fun t member => absurd member List.not_mem_nil,
    fun t member => absurd member List.not_mem_nil, fun x _ q _ => Or.inl rfl,
    fun _ t member => absurd member List.not_mem_nil, fun _ q i issuer issuer' => ?_⟩
  · rw [one q issuer]
    exact ⟨le_rfl, max⟩
  · rw [one q issuer]
    exact Or.inl (lt_of_eq_of_lt (Slots.get_zero q) Nat.one_pos)
  · rw [one q issuer, one i issuer']
    exact Nat.le_succ 1

/-- A clock seen is below the issuer's next one, unless that one is saturated. -/
theorem seen_lt (clocks : Clocks view w) {x : Fin cfg.ringSize} (alive : view.Alive x) {q : Nat}
    (issuer : view.Issuer q) :
    (w.node x).seenClock q < w.issueClock q ∨ w.issueClock q = u64Max := by
  rcases clocks.source x alive q issuer with floor | ⟨t, member, isKey, rfl, same⟩
  · rw [floor]
    exact clocks.above q issuer
  · rw [← same]
    exact clocks.issued t member isKey

theorem seen_le_max (clocks : Clocks view w) {x : Fin cfg.ringSize} (alive : view.Alive x) {q : Nat}
    (issuer : view.Issuer q) : (w.node x).seenClock q ≤ u64Max ∨
      (w.node x).seenClock q = view.floor.get q := by
  rcases clocks.source x alive q issuer with floor | ⟨t, member, isKey, rfl, same⟩
  · exact Or.inr floor
  · rw [← same]
    exact Or.inl (clocks.bounded t member isKey)

/-- **A step that emits no train of a new key** and stores no clock that was not emitted. -/
theorem relay (clocks : Clocks view w) (same : ∀ q, w'.issueClock q = w.issueClock q)
    (grows : ∀ t ∈ w.emitted, t ∈ w'.emitted)
    (keys : ∀ t ∈ w'.emitted, ∃ old ∈ w.emitted, old.key = t.key)
    (stores : ∀ x : Fin cfg.ringSize, view.Alive x → ∀ q, view.Issuer q →
      (w'.node x).seenClock q = (w.node x).seenClock q ∨
        ∃ t ∈ w'.emitted, view.Key t.key ∧ t.issuer = q ∧ t.clock = (w'.node x).seenClock q) :
    Clocks view w' := by
  have back : ∀ t ∈ w'.emitted, ∃ old ∈ w.emitted, old.key = t.key ∧ old.clock = t.clock ∧
      old.issuer = t.issuer := fun t member => by
    obtain ⟨old, inside, key⟩ := keys t member
    exact ⟨old, inside, key, congrArg ClockKey.clock key, congrArg ClockKey.issuer key⟩
  refine ⟨fun q issuer => ?_, fun q issuer => ?_, fun t member isKey => ?_,
    fun t member isKey => ?_, fun x alive q issuer => ?_, fun fair t member isKey i issuer => ?_,
    fun fair q i issuer issuer' => ?_⟩
  · rw [same]
    exact clocks.bounds q issuer
  · rw [same]
    exact clocks.above q issuer
  · obtain ⟨old, inside, key, clock, -⟩ := back t member
    exact clock ▸ clocks.bounded old inside (key ▸ isKey)
  · obtain ⟨old, inside, key, clock, issuer⟩ := back t member
    rw [same, ← clock, ← issuer]
    exact clocks.issued old inside (key ▸ isKey)
  · rcases stores x alive q issuer with unchanged | stored
    · rw [unchanged]
      exact (clocks.source x alive q issuer).imp_right fun ⟨t, member, rest⟩ =>
        ⟨t, grows t member, rest⟩
    · exact Or.inr stored
  · obtain ⟨old, inside, key, clock, -⟩ := back t member
    rw [same, ← clock]
    exact clocks.level fair old inside (key ▸ isKey) i issuer
  · rw [same, same]
    exact clocks.even fair q i issuer issuer'

/-- **A process that no issuer lags behind issues** one train at its clock and moves on. -/
theorem issue (clocks : Clocks view w) (issuer : view.Issuer p)
    (caught : ∀ i, view.Issuer i → w.issueClock p ≤ w.issueClock i) {train : Train}
    (stamp : train.issuer = p.val ∧ train.clock = w.issueClock p)
    (moved : w'.issueClock p = satSucc (w.issueClock p))
    (others : ∀ q, q ≠ p.val → w'.issueClock q = w.issueClock q)
    (out : w'.emitted = w.emitted ++ [train])
    (seen : ∀ x q, (w'.node x).seenClock q = (w.node x).seenClock q) : Clocks view w' := by
  have bounds := clocks.bounds p issuer
  have grows : ∀ q, w.issueClock q ≤ w'.issueClock q := by
    intro q
    by_cases same : q = p.val
    · rw [same, moved]
      exact le_satSucc _
    · rw [others q same]
  have cases : ∀ t, t ∈ w'.emitted → t ∈ w.emitted ∨ t = train := fun t member => by
    rw [out] at member
    exact (List.mem_append.mp member).imp_right List.mem_singleton.mp
  have kept : ∀ t ∈ w.emitted, t ∈ w'.emitted := fun t member => by
    rw [out]
    exact List.mem_append_left _ member
  have top : ∀ q, view.Issuer q → w.issueClock q = u64Max → w'.issueClock q = u64Max := by
    intro q isIssuer full
    by_cases same : q = p.val
    · rw [same, moved, ← same, full]
      exact if_neg (lt_irrefl _)
    · rw [others q same, full]
  refine ⟨fun q isIssuer => ?_, fun q isIssuer => ?_, fun t member isKey => ?_,
    fun t member isKey => ?_, fun x alive q isIssuer => ?_, fun fair t member isKey i isIssuer => ?_,
    fun fair q i left right => ?_⟩
  · refine ⟨(clocks.bounds q isIssuer).1.trans (grows q), ?_⟩
    by_cases same : q = p.val
    · rw [same, moved]
      exact satSucc_le_max bounds.2
    · rw [others q same]
      exact (clocks.bounds q isIssuer).2
  · exact (clocks.above q isIssuer).imp (fun below => lt_of_lt_of_le below (grows q))
      (top q isIssuer)
  · rcases cases t member with old | rfl
    · exact clocks.bounded t old isKey
    · exact stamp.2 ▸ bounds.2
  · rcases cases t member with old | rfl
    · exact (clocks.issued t old isKey).imp (fun below => lt_of_lt_of_le below (grows _))
        (top _ isKey.1)
    · rw [stamp.1, stamp.2, moved]
      unfold satSucc
      split_ifs with room
      · exact Or.inl (Nat.lt_succ_self _)
      · exact Or.inr (le_antisymm bounds.2 (not_lt.mp room))
  · rw [seen]
    exact (clocks.source x alive q isIssuer).imp_right fun ⟨t, member, rest⟩ =>
      ⟨t, kept t member, rest⟩
  · rcases cases t member with old | rfl
    · exact (clocks.level fair t old isKey i isIssuer).trans (grows i)
    · rw [stamp.2]
      exact (caught i isIssuer).trans (grows i)
  · by_cases same : q = p.val
    · have step := satSucc_le (w.issueClock p)
      have lag := caught i right
      have further := grows i
      rw [same, moved]
      omega
    · rw [others q same]
      have before := clocks.even fair q i left right
      have further := grows i
      omega

end Clocks

end TrainsRing
