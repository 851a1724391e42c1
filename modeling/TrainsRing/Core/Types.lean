/-
**The wire-level data of the ring** (`trains-core/src/types.rs`, `build.rs`).

* `RingConfig` — the two constants the build script writes, with the bounds it asserts on them.
* `Slots` — a `[Tick; RING_SIZE]` array, read and written at a process identifier.
* `AckBits` — the `u32` mask; `hasBit` reads one process's bit and `fullAck` is the complete mask.
* `Payload`, `Train` — what circulates.

Clocks (`Tick = u64`), sequence numbers (`u64`) and process identifiers (`ProcId = u8`) are natural
numbers; where the source saturates at `u64::MAX` the model saturates at `u64Max`. An array access
at or past `RING_SIZE`, a panic in the source, reads `0` and writes nothing here, so results that
reach such an access carry the bound.
-/

import Mathlib.Data.Finset.Basic
import Mathlib.Data.List.Sort
import Mathlib.Order.Basic
import Mathlib.Tactic

namespace TrainsRing

/-! ### Build constants -/

/-- The generated constants `RING_SIZE` and `NUM_TRAINS`, with the assertions of the build script. -/
structure RingConfig where
  /-- `RING_SIZE`. -/
  ringSize : Nat
  /-- `NUM_TRAINS`. -/
  numTrains : Nat
  two_le : 2 ≤ ringSize
  le_thirty : ringSize ≤ 30
  one_le : 1 ≤ numTrains
  trains_le : numTrains ≤ ringSize

theorem RingConfig.ringSize_pos (cfg : RingConfig) : 0 < cfg.ringSize := zero_lt_two.trans_le cfg.two_le

instance (cfg : RingConfig) : NeZero cfg.ringSize := ⟨cfg.ringSize_pos.ne'⟩

/-- A ring of two processes, one of which issues trains. -/
def RingConfig.pair : RingConfig := ⟨2, 1, by decide, by decide, by decide, by decide⟩

/-- A ring of three processes, two of which issue trains. -/
def RingConfig.triple : RingConfig := ⟨3, 2, by decide, by decide, by decide, by decide⟩

theorem RingConfig.two_lt_triple : 2 < RingConfig.triple.ringSize := by decide

/-- A ring of four processes, two of which issue trains. -/
def RingConfig.quad : RingConfig := ⟨4, 2, by decide, by decide, by decide, by decide⟩

/-- `u64::MAX`. -/
def u64Max : Nat := 2 ^ 64 - 1

/-- `saturating_add(1)` on `u64`. -/
def satSucc (value : Nat) : Nat := if value < u64Max then value + 1 else value

theorem satSucc_of_lt {value : Nat} (below : value < u64Max) : satSucc value = value + 1 :=
  if_pos below

theorem le_satSucc (value : Nat) : value ≤ satSucc value := by
  unfold satSucc
  split <;> omega

theorem satSucc_le (value : Nat) : satSucc value ≤ value + 1 := by
  unfold satSucc
  split <;> omega

theorem satSucc_le_max {value : Nat} (bounded : value ≤ u64Max) : satSucc value ≤ u64Max := by
  unfold satSucc
  split <;> omega

/-! ### Arrays of ticks -/

variable {cfg : RingConfig}

/-- A `[Tick; RING_SIZE]` array. -/
structure Slots (cfg : RingConfig) where
  /-- The array's cells. -/
  cells : Fin cfg.ringSize → Nat

namespace Slots

/-- `slots[q as usize]`. -/
def get (slots : Slots cfg) (q : Nat) : Nat :=
  if inside : q < cfg.ringSize then slots.cells ⟨q, inside⟩ else 0

/-- `slots[q as usize] = value`. -/
def set (slots : Slots cfg) (q : Nat) (value : Nat) : Slots cfg :=
  ⟨fun i => if i.val = q then value else slots.cells i⟩

/-- The array with `f q` in cell `q`. -/
def ofFn (cfg : RingConfig) (f : Nat → Nat) : Slots cfg := ⟨fun i => f i.val⟩

/-- `[0; RING_SIZE]`. -/
def zero (cfg : RingConfig) : Slots cfg := ofFn cfg fun _ => 0

theorem get_set (slots : Slots cfg) (q p : Nat) (value : Nat) :
    (slots.set q value).get p = if p = q ∧ p < cfg.ringSize then value else slots.get p := by
  unfold get set
  by_cases inside : p < cfg.ringSize
  · by_cases same : p = q
    · rw [dif_pos inside, if_pos ⟨same, inside⟩]
      exact if_pos same
    · rw [dif_pos inside, dif_pos inside, if_neg fun both => same both.1]
      exact if_neg same
  · rw [dif_neg inside, dif_neg inside, if_neg fun both => inside both.2]

theorem get_ofFn (f : Nat → Nat) {q : Nat} (inside : q < cfg.ringSize) :
    (ofFn cfg f).get q = f q := by
  simp [get, ofFn, inside]

theorem get_outside (slots : Slots cfg) {q : Nat} (outside : cfg.ringSize ≤ q) :
    slots.get q = 0 := dif_neg (not_lt.mpr outside)

@[simp] theorem get_zero (q : Nat) : (zero cfg).get q = 0 := by
  simp [get, zero, ofFn]

@[ext] theorem ext_get {slots other : Slots cfg} (same : ∀ q, q < cfg.ringSize → slots.get q = other.get q) :
    slots = other := by
  obtain ⟨cells⟩ := slots
  obtain ⟨otherCells⟩ := other
  congr 1
  funext i
  simpa [get] using same i.val i.isLt

end Slots

/-! ### Acknowledgement masks -/

/-- A bit per process (`u32`). -/
abbrev AckBits := BitVec 32

/-- `bits & (1 << p) != 0`. -/
def hasBit (bits : AckBits) (p : Nat) : Bool := (bits &&& (1#32 <<< p)) != 0#32

/-- `FULL_ACK`. -/
def fullAck (cfg : RingConfig) : AckBits := (1#32 <<< cfg.ringSize) - 1#32

theorem hasBit_eq (bits : AckBits) {p : Nat} (small : p < 32) :
    hasBit bits p = bits.getLsbD p := by
  have single : (1#32 <<< p) = BitVec.twoPow 32 p := by simp [BitVec.twoPow]
  unfold hasBit
  rw [single, BitVec.and_twoPow]
  split_ifs with set
  · have nonzero : BitVec.twoPow 32 p ≠ 0#32 := by
      intro zero
      have bit := congrArg (fun b : AckBits => b.getLsbD p) zero
      simp [small] at bit
    simp [set, nonzero]
  · simp [set]

theorem hasBit_or (bits other : AckBits) {p : Nat} (small : p < 32) :
    hasBit (bits ||| other) p = (hasBit bits p || hasBit other p) := by
  simp [hasBit_eq, small]

theorem hasBit_single (q : Nat) {p : Nat} (small : p < 32) :
    hasBit (1#32 <<< q) p = decide (p = q) := by
  have single : (1#32 <<< q) = BitVec.twoPow 32 q := by simp [BitVec.twoPow]
  rw [hasBit_eq _ small, single, BitVec.getLsbD_twoPow]
  by_cases same : p = q
  · subst same
    simp [small]
  · simp [same, Ne.symm same]

theorem hasBit_zero (p : Nat) : hasBit 0#32 p = false := by
  simp [hasBit]

theorem fullAck_toNat (cfg : RingConfig) : (fullAck cfg).toNat = 2 ^ cfg.ringSize - 1 := by
  have room : 2 ^ cfg.ringSize < 2 ^ 32 :=
    Nat.pow_lt_pow_right (by norm_num) (by have := cfg.le_thirty; omega)
  have shifted : (1#32 <<< cfg.ringSize).toNat = 2 ^ cfg.ringSize := by
    rw [BitVec.toNat_shiftLeft, Nat.shiftLeft_eq, BitVec.toNat_ofNat]
    simpa using Nat.mod_eq_of_lt room
  have positive : 1 ≤ 2 ^ cfg.ringSize := Nat.one_le_two_pow
  unfold fullAck
  rw [BitVec.toNat_sub_of_le (by rw [BitVec.le_def, shifted]; exact positive), shifted]
  rfl

theorem hasBit_fullAck (cfg : RingConfig) {p : Nat} (small : p < 32) :
    hasBit (fullAck cfg) p = decide (p < cfg.ringSize) := by
  rw [hasBit_eq _ small, BitVec.getLsbD, fullAck_toNat, Nat.testBit_two_pow_sub_one]

/-! ### Payloads and trains -/

/-- A single application-level payload. -/
structure Payload where
  /-- Process that broadcast this payload. -/
  sender : Nat
  /-- Per-sender sequence number. -/
  seq : Nat
  /-- Raw application bytes. -/
  data : List UInt8
  deriving DecidableEq, Repr

/-- `(sender, seq)`. -/
def Payload.msgId (payload : Payload) : Nat × Nat := (payload.sender, payload.seq)

/-- The `(clock, issuer)` ordering key. -/
structure ClockKey where
  /-- The train's clock. -/
  clock : Nat
  /-- The train's issuer. -/
  issuer : Nat
  deriving DecidableEq, Repr

namespace ClockKey

/-- The derived lexicographic order: clock first, then issuer. -/
instance : LinearOrder ClockKey :=
  LinearOrder.lift' (fun key : ClockKey => toLex (key.clock, key.issuer)) fun first second same => by
    have pair : (first.clock, first.issuer) = (second.clock, second.issuer) := toLex.injective same
    cases first
    cases second
    simpa using pair

instance : WellFoundedLT ClockKey :=
  ⟨InvImage.wf (fun key : ClockKey => toLex (key.clock, key.issuer)) wellFounded_lt⟩

theorem lt_iff {first second : ClockKey} : first < second ↔
    first.clock < second.clock ∨ first.clock = second.clock ∧ first.issuer < second.issuer :=
  Prod.Lex.toLex_lt_toLex

theorem clock_le_of_le {first second : ClockKey} (below : first ≤ second) :
    first.clock ≤ second.clock := by
  rcases below.lt_or_eq with less | same
  · rcases lt_iff.mp less with clock | ⟨clock, _⟩ <;> omega
  · rw [same]

end ClockKey

/-- A train: the unit of circulation in the ring. -/
structure Train where
  /-- Process that created this train slot. -/
  issuer : Nat
  /-- Logical clock. -/
  clock : Nat
  /-- Payloads accumulated during this ring tour. -/
  payloads : List Payload
  /-- Bit mask of the processes that have processed this train. -/
  ackBits : AckBits
  deriving DecidableEq, Repr

namespace Train

/-- `ClockKey::new(train.clock, train.issuer)`. -/
def key (train : Train) : ClockKey := ⟨train.clock, train.issuer⟩

/-- Returns true if process `id` has already acked this train. -/
def isAckedBy (train : Train) (id : Nat) : Bool := hasBit train.ackBits id

/-- Records an ack from process `id`. -/
def addAck (train : Train) (id : Nat) : Train :=
  { train with ackBits := train.ackBits ||| (1#32 <<< id) }

@[simp] theorem addAck_key (train : Train) (id : Nat) : (train.addAck id).key = train.key := rfl

@[simp] theorem addAck_payloads (train : Train) (id : Nat) :
    (train.addAck id).payloads = train.payloads := rfl

theorem isAckedBy_addAck (train : Train) (id : Nat) {p : Nat} (small : p < 32) :
    (train.addAck id).isAckedBy p = (train.isAckedBy p || decide (p = id)) := by
  unfold isAckedBy addAck
  rw [hasBit_or _ _ small, hasBit_single _ small]

end Train

/-! ### Inputs and outputs of the step function -/

/-- Input events delivered to `step`. -/
inductive Input where
  /-- A train has arrived from the predecessor on the ring. -/
  | trainReceived (train : Train)
  /-- The application layer wants to broadcast a payload. -/
  | localBroadcast (data : List UInt8)
  /-- Watchdog tick. -/
  | tick
  deriving DecidableEq, Repr

/-- Output commands returned by `step`. -/
inductive Output where
  /-- Forward this train to the successor on the ring. -/
  | forwardTrain (train : Train)
  /-- Deliver these payloads to the application, in the given order. -/
  | deliver (payloads : List Payload)
  /-- Clock gap detected: suspect this node has crashed. -/
  | declareCrash (suspect : Nat)
  deriving DecidableEq, Repr

end TrainsRing
