/-
**The frames of a ring link** (`trains-net/src/codec.rs`, `wire.rs`, `transport.rs`, `build.rs`).

The body of a message is what bincode makes of it. Bincode is a parameter (`Bincode`): the bodies, and
what the length of a train's and of a Gather token's is made of. `encodeMsg` refuses a body above the
limit.

* `Bincode.body_train`, `Bincode.body_gather` — **the lengths of the bodies**, part by part.
* `BincodeConfig.bincode` — bincode with some encoding of primitive values; `Bincode.standard` is the
  one of the standard configuration.
* `encodeMsg` — a frame, or the reason why there is none.
-/

import TrainsRing.Driver.Driver

namespace TrainsRing

variable {cfg : RingConfig}

/-! ### The encoding -/

/-- What bincode makes of messages. A sequence takes a prefix for its length, and its elements; so a
train takes a head and its payloads, and a Gather token a head and its reports. -/
structure Bincode (cfg : RingConfig) where
  wireMsg : WireMsg cfg → List UInt8
  payloadSize : Payload → Nat
  /-- A report with the process that made it. -/
  reportSize : Nat × RecoveryReport cfg → Nat
  trainHead (issuer clock count : Nat) (ackBits : AckBits) : Nat
  gatherHead (viewId coordinator victim count : Nat) : Nat
  length_train : ∀ train : Train, (wireMsg (.train train)).length =
    trainHead train.issuer train.clock train.payloads.length train.ackBits +
      (train.payloads.map payloadSize).sum
  length_gather : ∀ viewId coordinator victim (reports : List (Nat × RecoveryReport cfg)),
    (wireMsg (.viewChange (.gather viewId coordinator victim reports))).length =
      gatherHead viewId coordinator victim reports.length + (reports.map reportSize).sum

namespace Bincode

variable (bincode : Bincode cfg)

/-- A payload takes as many bytes as its data at least. -/
def Whole : Prop := ∀ payload : Payload, payload.data.length ≤ bincode.payloadSize payload

/-- The bytes that some payloads take. -/
def payloadBytes (payloads : List Payload) : Nat := (payloads.map bincode.payloadSize).sum

/-- The bytes that some signed reports take. -/
def reportBytes (reports : List (Nat × RecoveryReport cfg)) : Nat :=
  (reports.map bincode.reportSize).sum

/-- **The body of a train.** -/
theorem body_train (train : Train) : (bincode.wireMsg (.train train)).length =
    bincode.trainHead train.issuer train.clock train.payloads.length train.ackBits +
      bincode.payloadBytes train.payloads := bincode.length_train train

/-- **The body of a Gather token.** -/
theorem body_gather (viewId coordinator victim : Nat) (reports : List (Nat × RecoveryReport cfg)) :
    (bincode.wireMsg (.viewChange (.gather viewId coordinator victim reports))).length =
      bincode.gatherHead viewId coordinator victim reports.length + bincode.reportBytes reports :=
  bincode.length_gather viewId coordinator victim reports

theorem payloadBytes_append (first second : List Payload) :
    bincode.payloadBytes (first ++ second) =
      bincode.payloadBytes first + bincode.payloadBytes second := by
  rw [payloadBytes, List.map_append, List.sum_append]
  rfl

theorem reportBytes_append (first second : List (Nat × RecoveryReport cfg)) :
    bincode.reportBytes (first ++ second) =
      bincode.reportBytes first + bincode.reportBytes second := by
  rw [reportBytes, List.map_append, List.sum_append]
  rfl

/-- A body is as long as the data of a payload in it. -/
theorem Whole.data_le {bincode : Bincode cfg} (whole : bincode.Whole) {payloads : List Payload}
    {payload : Payload} (member : payload ∈ payloads) :
    payload.data.length ≤ bincode.payloadBytes payloads :=
  (whole payload).trans (List.le_sum_of_mem (List.mem_map_of_mem member))

end Bincode

/-! ### The derived encoders -/

/-- The lowest bytes of a number, lowest first. -/
def littleEndian : Nat → Nat → List UInt8
  | 0, _ => []
  | count + 1, value => UInt8.ofNat value :: littleEndian count (value / 256)

/-- How bincode writes primitive values. -/
structure BincodeConfig where
  /-- A `u8`. -/
  byte : Nat → List UInt8
  /-- A `u32`, a `u64`, the tag of a variant or a length. -/
  varint : Nat → List UInt8

namespace BincodeConfig

/-- `bincode::config::standard`. -/
def standard : BincodeConfig where
  byte := fun value => [UInt8.ofNat value]
  varint := fun value =>
    if value < 251 then [UInt8.ofNat value]
    else if value < 2 ^ 16 then 251 :: littleEndian 2 value
    else if value < 2 ^ 32 then 252 :: littleEndian 4 value
    else 253 :: littleEndian 8 value

variable (config : BincodeConfig)

/-- A sequence: its length, then its elements. -/
def seq {α : Type} (element : α → List UInt8) (values : List α) : List UInt8 :=
  config.varint values.length ++ values.flatMap element

def data (bytes : List UInt8) : List UInt8 := config.seq (fun b => config.byte b.toNat) bytes

def payload (payload : Payload) : List UInt8 :=
  config.byte payload.sender ++ config.varint payload.seq ++ config.data payload.data

def train (train : Train) : List UInt8 :=
  config.byte train.issuer ++ config.varint train.clock ++
    config.seq config.payload train.payloads ++ config.varint train.ackBits.toNat

def clockKey (key : ClockKey) : List UInt8 := config.varint key.clock ++ config.byte key.issuer

/-- An array: its elements. -/
def slots (slots : Slots cfg) : List UInt8 := (List.ofFn slots.cells).flatMap config.varint

def recoveryReport (report : RecoveryReport cfg) : List UInt8 :=
  config.slots report.seen ++ config.slots report.issued ++
    config.seq config.clockKey (report.done.sort (· ≤ ·)) ++
    config.seq (fun entry => config.clockKey entry.1 ++ config.seq config.payload entry.2)
      report.haves.entries

def recoveryAction : RecoveryAction → List UInt8
  | .deliver payloads => config.varint 0 ++ config.seq config.payload payloads
  | .skip => config.varint 1

def recoveryPlan (plan : RecoveryPlan cfg) : List UInt8 :=
  config.seq (fun entry => config.clockKey entry.1 ++ config.recoveryAction entry.2)
    plan.actions.entries ++ config.slots plan.boundary

/-- A report with the process that made it. -/
def signed (entry : Nat × RecoveryReport cfg) : List UInt8 :=
  config.byte entry.1 ++ config.recoveryReport entry.2

def viewChangeMsg : ViewChangeMsg cfg → List UInt8
  | .gather viewId coordinator victim reports =>
    config.varint 0 ++ config.varint viewId ++ config.byte coordinator ++ config.byte victim ++
      config.seq config.signed reports
  | .install viewId coordinator victim plan =>
    config.varint 1 ++ config.varint viewId ++ config.byte coordinator ++ config.byte victim ++
      config.recoveryPlan plan
  | .reAdmitGather viewId coordinator rejoiner reports =>
    config.varint 2 ++ config.varint viewId ++ config.byte coordinator ++ config.byte rejoiner ++
      config.seq config.signed reports
  | .reAdmitInstall viewId coordinator rejoiner plan snapshotSrc =>
    config.varint 3 ++ config.varint viewId ++ config.byte coordinator ++ config.byte rejoiner ++
      config.recoveryPlan plan ++ config.byte snapshotSrc

def wireMsg : WireMsg cfg → List UInt8
  | .train train => config.varint 0 ++ config.train train
  | .viewChange msg => config.varint 1 ++ config.viewChangeMsg msg

theorem length_seq {α : Type} (element : α → List UInt8) (values : List α) :
    (config.seq element values).length = (config.varint values.length).length +
      (values.map fun value => (element value).length).sum := by
  rw [seq, List.length_append, List.length_flatMap]

/-- Where every `u8` takes a byte at least, a payload takes as many as its data. -/
theorem data_le_payload (bytes : ∀ value, 1 ≤ (config.byte value).length) (payload : Payload) :
    payload.data.length ≤ (config.payload payload).length := by
  have each : ∀ data : List UInt8,
      data.length ≤ (data.map fun b => (config.byte b.toNat).length).sum := by
    intro data
    induction data with
    | nil => exact le_rfl
    | cons head rest ih =>
      have one := bytes head.toNat
      rw [List.length_cons, List.map_cons, List.sum_cons]
      omega
  calc payload.data.length
      ≤ (payload.data.map fun b => (config.byte b.toNat).length).sum := each payload.data
    _ ≤ (config.data payload.data).length := by
        rw [data, length_seq]
        exact Nat.le_add_left _ _
    _ ≤ (config.payload payload).length := by
        rw [BincodeConfig.payload, List.length_append]
        exact Nat.le_add_left _ _

/-- **Bincode with some encoding of primitive values**: the fields of a value one after the other. -/
def bincode (cfg : RingConfig) : Bincode cfg where
  wireMsg := config.wireMsg
  payloadSize := fun payload => (config.payload payload).length
  reportSize := fun entry => (config.signed entry).length
  trainHead := fun issuer clock count ackBits =>
    (config.varint 0).length + (config.byte issuer).length + (config.varint clock).length +
      (config.varint count).length + (config.varint ackBits.toNat).length
  gatherHead := fun viewId coordinator victim count =>
    (config.varint 1).length + (config.varint 0).length + (config.varint viewId).length +
      (config.byte coordinator).length + (config.byte victim).length + (config.varint count).length
  length_train := fun train => by
    simp only [wireMsg, BincodeConfig.train, List.length_append, length_seq]
    omega
  length_gather := fun viewId coordinator victim reports => by
    simp only [wireMsg, viewChangeMsg, List.length_append, length_seq]
    omega

end BincodeConfig

namespace Bincode

/-- Bincode in its standard configuration. -/
def standard (cfg : RingConfig) : Bincode cfg := BincodeConfig.standard.bincode cfg

theorem whole_standard (cfg : RingConfig) : (standard cfg).Whole :=
  BincodeConfig.standard.data_le_payload fun _ => le_rfl

end Bincode

/-! ### Frames -/

/-- `u32::MAX`. -/
def u32Max : Nat := 2 ^ 32 - 1

/-- The frame limit in MiB, with the assertions of the build script. -/
structure FrameLimit where
  mb : Nat
  one_le : 1 ≤ mb
  mb_le : mb ≤ 4096
  fits : mb * 1024 * 1024 ≤ u32Max

/-- The limit of a build without `TRAINS_MAX_FRAME_LEN_MB`. -/
def FrameLimit.default : FrameLimit := ⟨16, by decide, by decide, by decide⟩

/-- `MAX_FRAME_LEN`. -/
def FrameLimit.maxFrameLen (limit : FrameLimit) : Nat := limit.mb * 1024 * 1024

/-- Why a message has no frame. -/
inductive CodecError where
  | frameTooLarge (len : Nat)
  deriving DecidableEq, Repr

/-- `encode_msg`: the length of the body, highest byte first, and the body. -/
def encodeMsg (bincode : Bincode cfg) (limit : FrameLimit) (msg : WireMsg cfg) :
    Except CodecError (List UInt8) :=
  let body := bincode.wireMsg msg
  if u32Max < body.length then .error (.frameTooLarge u32Max)
  else if limit.maxFrameLen < body.length then .error (.frameTooLarge body.length)
  else .ok ((littleEndian 4 body.length).reverse ++ body)

/-- The message has a frame. -/
def Encodable (bincode : Bincode cfg) (limit : FrameLimit) (msg : WireMsg cfg) : Prop :=
  (encodeMsg bincode limit msg).isOk

instance (bincode : Bincode cfg) (limit : FrameLimit) (msg : WireMsg cfg) :
    Decidable (Encodable bincode limit msg) := by
  unfold Encodable
  infer_instance

/-- **A message has a frame iff its body keeps the limit.** -/
theorem encodable_iff (bincode : Bincode cfg) (limit : FrameLimit) (msg : WireMsg cfg) :
    Encodable bincode limit msg ↔ (bincode.wireMsg msg).length ≤ limit.maxFrameLen := by
  have fits : limit.maxFrameLen ≤ u32Max := limit.fits
  unfold Encodable encodeMsg
  dsimp only
  split_ifs with huge large
  · refine iff_of_false Bool.false_ne_true ?_
    omega
  · exact iff_of_false Bool.false_ne_true (not_le.mpr large)
  · exact iff_of_true rfl (not_lt.mp large)

end TrainsRing
