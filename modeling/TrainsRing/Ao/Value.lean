/-
**JSON values** (`serde_json::Value`, and what is derived for `trains-core/src/types.rs`).

* `Value` — a document. A number is an integer of 64 bits or a float.
* `Value.get`, `Value.asArray`, `Value.asU64` — the untyped accessors.
* `Value.ofTrain`, `Value.train` — trains as the derived code writes and reads them.
-/

import TrainsRing.Core.Types
import TrainsRing.Library.Fallible

namespace TrainsRing

namespace Ao

/-- `serde_json::Number`; a float by its bits. -/
inductive Number where
  | posInt (n : UInt64)
  | negInt (n : {n : Int // -2 ^ 63 ≤ n ∧ n < 0})
  | float (bits : UInt64)
  deriving DecidableEq

/-- `serde_json::Value`. -/
inductive Value where
  | null
  | bool (b : Bool)
  | number (n : Number)
  | string (s : String)
  | array (items : List Value)
  | object (entries : List (String × Value))

namespace Value

/-! ### Accessors -/

/-- `get`, at a key. -/
def get (key : String) : Value → Option Value
  | .object entries => (entries.find? fun entry => entry.1 = key).map Prod.snd
  | _ => none

/-- `as_array`. -/
def asArray : Value → Option (List Value)
  | .array items => some items
  | _ => none

/-- `as_u64`. -/
def asU64 : Value → Option UInt64
  | .number (.posInt n) => some n
  | _ => none

theorem asArray_eq_some {v : Value} {items : List Value} :
    v.asArray = some items ↔ v = .array items := by
  cases v <;> simp [asArray]

theorem asU64_eq_some {v : Value} {n : UInt64} : v.asU64 = some n ↔ v = .number (.posInt n) := by
  cases v with
  | number number => cases number <;> simp [asU64]
  | null => simp [asU64]
  | bool b => simp [asU64]
  | string s => simp [asU64]
  | array items => simp [asU64]
  | object entries => simp [asU64]

/-! ### What is derived for trains -/

/-- An unsigned integer, as a number. -/
def ofNat (n : Nat) : Value := .number (.posInt (UInt64.ofNat n))

/-- A `Vec<u8>`: a number for each byte. -/
def ofBytes (data : List UInt8) : Value := .array (data.map fun b => ofNat b.toNat)

def ofPayload (payload : Payload) : Value :=
  .object [("data", ofBytes payload.data), ("seq", ofNat payload.seq), ("sender", ofNat payload.sender)]

def ofTrain (train : Train) : Value :=
  .object [("ack_bits", ofNat train.ackBits.toNat), ("clock", ofNat train.clock),
    ("issuer", ofNat train.issuer), ("payloads", .array (train.payloads.map ofPayload))]

/-- An unsigned integer of a type with so many values. -/
def unsigned (values : Nat) (v : Value) : Option Nat := do
  let n ← v.asU64
  if n.toNat < values then some n.toNat else none

/-- A `Vec<u8>`. -/
def bytes (v : Value) : Option (List UInt8) := do
  let items ← v.asArray
  items.mapM fun item => (item.unsigned 256).map UInt8.ofNat

/-- The fields of a struct: by name, or all of them in order. -/
def fields (names : List String) : Value → Option (List Value)
  | .object entries => names.mapM fun name => (Value.object entries).get name
  | .array items => if items.length = names.length then some items else none
  | _ => none

def payload (v : Value) : Option Payload := do
  match ← v.fields ["sender", "seq", "data"] with
  | [sender, seq, data] => pure ⟨← sender.unsigned 256, ← seq.unsigned (2 ^ 64), ← data.bytes⟩
  | _ => none

def train (v : Value) : Option Train := do
  match ← v.fields ["issuer", "clock", "payloads", "ack_bits"] with
  | [issuer, clock, payloads, ackBits] =>
    pure ⟨← issuer.unsigned 256, ← clock.unsigned (2 ^ 64), ← (← payloads.asArray).mapM payload,
      BitVec.ofNat 32 (← ackBits.unsigned (2 ^ 32))⟩
  | _ => none

end Value

end Ao

end TrainsRing
