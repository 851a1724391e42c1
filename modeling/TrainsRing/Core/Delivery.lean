/-
**Logical clocks and the delivery condition** (`trains-core/src/clock.rs`, `delivery.rs`).

* `ClockState.checkAndUpdate` — the last clock seen per issuer, with gap detection;
  `lastSeen_checkAndUpdate` says what it stores: the larger of the two clocks.
* `DeliveryState` — the mode, the done keys and the crash mask; `readyToDeliver` is the
  acknowledgement condition, read bit by bit in `acked_of_readyToDeliver` and
  `readyToDeliver_totalOrder`.
-/

import TrainsRing.Core.Types

namespace TrainsRing

variable {cfg : RingConfig}

/-! ### Clocks -/

/-- Result of checking a new train clock against the last seen value. -/
inductive ClockCheck where
  /-- Expected next clock. -/
  | ok
  /-- One or more trains from this issuer were lost. -/
  | gap (expected received : Nat)
  /-- Already processed this clock. -/
  | duplicate
  deriving DecidableEq, Repr

/-- `seen[q]` is the last clock seen from issuer `q`. -/
structure ClockState (cfg : RingConfig) where
  /-- The seen vector. -/
  seen : Slots cfg

namespace ClockState

/-- Nothing seen yet. -/
def new (cfg : RingConfig) : ClockState cfg := ⟨Slots.zero cfg⟩

/-- The last clock seen from `issuer`. -/
def lastSeen (state : ClockState cfg) (issuer : Nat) : Nat := state.seen.get issuer

/-- Overwrite the whole seen vector. -/
def restore (_ : ClockState cfg) (seen : Slots cfg) : ClockState cfg := ⟨seen⟩

/-- Check `newClock` against the last seen value for `issuer` and store it if it is newer. -/
def checkAndUpdate (state : ClockState cfg) (issuer newClock : Nat) :
    ClockState cfg × ClockCheck :=
  let prev := state.seen.get issuer
  if newClock = prev then (state, .duplicate)
  else if newClock = satSucc prev then (⟨state.seen.set issuer newClock⟩, .ok)
  else if prev < newClock then
    (⟨state.seen.set issuer newClock⟩, .gap (prev + 1) newClock)
  else (state, .duplicate)

/-- A clock check stores a newer clock and nothing else. -/
theorem checkAndUpdate_fst (state : ClockState cfg) (issuer newClock : Nat) :
    (state.checkAndUpdate issuer newClock).1 =
      if state.lastSeen issuer < newClock then ⟨state.seen.set issuer newClock⟩ else state := by
  have grows := le_satSucc (state.seen.get issuer)
  unfold checkAndUpdate lastSeen
  by_cases duplicate : newClock = state.seen.get issuer
  · rw [if_pos duplicate, if_neg (by omega)]
  · rw [if_neg duplicate]
    by_cases next : newClock = satSucc (state.seen.get issuer)
    · rw [if_pos next, if_pos (by omega)]
    · rw [if_neg next]
      by_cases ahead : state.seen.get issuer < newClock
      · rw [if_pos ahead, if_pos ahead]
      · rw [if_neg ahead, if_neg ahead]

/-- **What a clock check stores**: the larger clock, at the issuer's slot only. -/
theorem lastSeen_checkAndUpdate (state : ClockState cfg) {issuer : Nat} (newClock q : Nat)
    (inside : issuer < cfg.ringSize) :
    (state.checkAndUpdate issuer newClock).1.lastSeen q =
      if q = issuer then max (state.lastSeen issuer) newClock else state.lastSeen q := by
  rw [checkAndUpdate_fst]
  by_cases newer : state.lastSeen issuer < newClock
  · rw [if_pos newer, max_eq_right newer.le, lastSeen, Slots.get_set]
    by_cases same : q = issuer
    · rw [if_pos ⟨same, same ▸ inside⟩, if_pos same]
    · rw [if_neg fun both => same both.1, if_neg same]
      rfl
  · rw [if_neg newer, max_eq_left (not_lt.mp newer)]
    split_ifs with same
    · rw [same]
    · rfl

theorem checkAndUpdate_of_le (state : ClockState cfg) {issuer newClock : Nat}
    (seen : newClock ≤ state.lastSeen issuer) :
    (state.checkAndUpdate issuer newClock).1 = state := by
  rw [checkAndUpdate_fst, if_neg (not_lt.mpr seen)]

/-- A clock one past the last seen one raises no alarm. -/
theorem checkAndUpdate_no_gap (state : ClockState cfg) {issuer newClock : Nat}
    (next : newClock ≤ satSucc (state.lastSeen issuer)) (expected received : Nat) :
    (state.checkAndUpdate issuer newClock).2 ≠ .gap expected received := by
  unfold lastSeen at next
  have step := satSucc_le (state.seen.get issuer)
  dsimp only [checkAndUpdate]
  split_ifs with duplicate expectedNext ahead
  · simp
  · simp
  · omega
  · simp

end ClockState

/-! ### Delivery -/

/-- Delivery semantics. -/
inductive DeliveryMode where
  /-- An ack from every node is required. -/
  | uniformTotalOrder
  /-- An ack from all currently non-crashed nodes suffices. -/
  | totalOrder
  /-- Causal delivery only (not implemented in the source: nothing is ever ready). -/
  | causalOrder
  deriving DecidableEq, Repr

/-- Per-process delivery state. -/
structure DeliveryState (cfg : RingConfig) where
  mode : DeliveryMode
  /-- All `(clock, issuer)` keys that have been delivered. -/
  doneKeys : Finset ClockKey
  /-- Bit `i` is set iff process `i` is known to have crashed. -/
  crashedBits : AckBits

namespace DeliveryState

/-- Nothing delivered, nobody crashed. -/
def new (cfg : RingConfig) (mode : DeliveryMode) : DeliveryState cfg := ⟨mode, ∅, 0#32⟩

/-- Mark process `p` as crashed. -/
def markCrashed (state : DeliveryState cfg) (p : Nat) : DeliveryState cfg :=
  { state with crashedBits := state.crashedBits ||| (1#32 <<< p) }

/-- Clear process `p`'s crashed bit. -/
def unmarkCrashed (state : DeliveryState cfg) (p : Nat) : DeliveryState cfg :=
  { state with crashedBits := state.crashedBits &&& ~~~(1#32 <<< p) }

/-- Has process `p` been confirmed crashed? -/
def isCrashed (state : DeliveryState cfg) (p : Nat) : Bool := hasBit state.crashedBits p

/-- Overwrite the done keys and the crash mask. -/
def restore (state : DeliveryState cfg) (doneKeys : Finset ClockKey) (crashedBits : AckBits) :
    DeliveryState cfg :=
  { state with doneKeys, crashedBits }

/-- Does `ackBits` satisfy the delivery condition of the mode? -/
def readyToDeliver (state : DeliveryState cfg) (ackBits : AckBits) (mode : DeliveryMode) : Bool :=
  match mode with
  | .uniformTotalOrder => ackBits == fullAck cfg
  | .totalOrder =>
    let liveMask := fullAck cfg &&& ~~~state.crashedBits
    ackBits &&& liveMask == liveMask
  | .causalOrder => false

/-- Has this key been delivered already? -/
def alreadyDelivered (state : DeliveryState cfg) (key : ClockKey) : Bool :=
  decide (key ∈ state.doneKeys)

/-- Record that a train with the given key has been delivered. -/
def recordDelivered (state : DeliveryState cfg) (key : ClockKey) : DeliveryState cfg :=
  { state with doneKeys := insert key state.doneKeys }

/-- **The total-order condition, bit by bit**: every process not marked crashed has acked. -/
theorem readyToDeliver_totalOrder (state : DeliveryState cfg) (ackBits : AckBits) :
    state.readyToDeliver ackBits .totalOrder = true ↔
      ∀ p, p < cfg.ringSize → state.isCrashed p = false → hasBit ackBits p = true := by
  have narrow : ∀ p, p < cfg.ringSize → p < 32 := fun p inside => by
    have := cfg.le_thirty
    omega
  unfold readyToDeliver isCrashed
  simp only [beq_iff_eq]
  constructor
  · intro masked p inside alive
    have small := narrow p inside
    have full := hasBit_fullAck cfg small
    have bit := congrArg (fun bits : AckBits => bits.getLsbD p) masked
    rw [hasBit_eq _ small] at alive full ⊢
    simp only [BitVec.getLsbD_and, BitVec.getLsbD_not, full, alive, inside, small] at bit
    simpa using bit
  · intro acked
    apply BitVec.eq_of_getLsbD_eq
    intro p small
    have full := hasBit_fullAck cfg small
    rw [hasBit_eq _ small] at full
    simp only [BitVec.getLsbD_and, BitVec.getLsbD_not, full, small]
    by_cases inside : p < cfg.ringSize
    · have bit := acked p inside
      rw [hasBit_eq _ small, hasBit_eq _ small] at bit
      cases crashed : state.crashedBits.getLsbD p <;> simp_all
    · simp [inside]

/-- Whatever the mode, a ready train has the ack of every process not marked crashed. -/
theorem acked_of_readyToDeliver {state : DeliveryState cfg} {ackBits : AckBits} {mode : DeliveryMode}
    (ready : state.readyToDeliver ackBits mode = true) {p : Nat} (inside : p < cfg.ringSize)
    (alive : state.isCrashed p = false) : hasBit ackBits p = true := by
  cases mode with
  | uniformTotalOrder =>
    have full : ackBits = fullAck cfg := by simpa [readyToDeliver] using ready
    rw [full, hasBit_fullAck cfg (by have := cfg.le_thirty; omega)]
    simpa using inside
  | totalOrder => exact (readyToDeliver_totalOrder state ackBits).mp ready p inside alive
  | causalOrder => simp [readyToDeliver] at ready

theorem isCrashed_markCrashed (state : DeliveryState cfg) (victim : Nat) {p : Nat}
    (small : p < 32) :
    (state.markCrashed victim).isCrashed p = (state.isCrashed p || decide (p = victim)) := by
  unfold isCrashed markCrashed
  rw [hasBit_or _ _ small, hasBit_single _ small]

end DeliveryState

end TrainsRing
