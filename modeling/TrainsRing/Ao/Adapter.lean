/-
**The AO adapter** (`trains-ao/src/envelope.rs`, `adapter.rs`).

An AO host speaks to a node in envelopes with a kind and a JSON body. As in `Core`, a step that would
panic on a train is not told apart here. The text of an envelope is a parameter (`SerdeJson`).

* `Envelope.asAppBroadcastBytes` — the bytes of a broadcast; an integer above 255 loses its high bits.
* `AoTrainsNode.feed` — one envelope of the inbox.
* `asAppBroadcastBytes_eq_some_iff` — **what is read as bytes**: any array of unsigned integers.
* `inbox_exact_iff` — **exactly when the inbox decodes a broadcast as it should**.
-/

import TrainsRing.Ao.Value
import TrainsRing.Core.Node

namespace TrainsRing

namespace Ao

variable {cfg : RingConfig}

/-! ### Envelopes -/

inductive EnvelopeKind where
  | appBroadcast
  | trainArrived
  | tick
  | forwardTrain
  | deliver
  | declareCrash
  deriving DecidableEq

structure Envelope where
  kind : EnvelopeKind
  /-- The field `from`. -/
  fromProc : Option Nat
  data : Value

/-- `serde_json`: the text of an envelope, and the envelope of a text. -/
structure SerdeJson (ε : Type) where
  toString : Envelope → Except ε String
  fromStr : String → Except ε Envelope

namespace Envelope

variable {ε : Type}

/-- `from_json`. -/
def fromJson (json : SerdeJson ε) (s : String) : Except ε Envelope := json.fromStr s

/-- `to_json`. -/
def toJson (json : SerdeJson ε) (env : Envelope) : Except ε String := json.toString env

/-- `app_broadcast`. -/
def appBroadcast (data : List UInt8) : Envelope where
  kind := .appBroadcast
  fromProc := none
  data := .object [("bytes", .ofBytes data)]

/-- `train_arrived`. -/
def trainArrived (t : Train) : Envelope := ⟨.trainArrived, some t.issuer, .ofTrain t⟩

/-- `forward_train`. -/
def forwardTrain (t : Train) : Envelope := ⟨.forwardTrain, some t.issuer, .ofTrain t⟩

/-- `deliver`. -/
def deliver (payloads : List Payload) : Envelope :=
  ⟨.deliver, none, .array (payloads.map .ofPayload)⟩

/-- `declare_crash`. -/
def declareCrash (victim : Nat) : Envelope := ⟨.declareCrash, some victim, .null⟩

/-- `tick`. -/
def tick : Envelope := ⟨.tick, none, .null⟩

/-- `v.as_u64()? as u8`. -/
def asByte (v : Value) : Option UInt8 := v.asU64.map UInt64.toUInt8

/-- `as_app_broadcast_bytes`. -/
def asAppBroadcastBytes (env : Envelope) : Option (List UInt8) :=
  if env.kind ≠ .appBroadcast then none
  else do
    let arr ← (← env.data.get "bytes").asArray
    arr.mapM asByte

/-- `as_train`. -/
def asTrain (env : Envelope) : Option Train :=
  if env.kind ≠ .trainArrived then none else env.data.train

end Envelope

/-! ### The adapter -/

inductive AdapterError where
  | notAnInputKind (kind : EnvelopeKind)
  | badPayload (kind : EnvelopeKind)
  deriving DecidableEq

structure AoTrainsNode (cfg : RingConfig) where
  inner : TrainsNode cfg
  id : Nat

namespace AoTrainsNode

/-- `AoTrainsNode::new`. -/
def new (cfg : RingConfig) (id : Nat) (id_lt : id < cfg.ringSize) (mode : DeliveryMode) :
    AoTrainsNode cfg := ⟨.new cfg id id_lt mode, id⟩

/-- `issue_initial`. -/
def issueInitial (node : AoTrainsNode cfg) : AoTrainsNode cfg × Envelope :=
  let (inner, t) := node.inner.issueInitialTrain
  ({ node with inner }, .forwardTrain t)

/-- The input that an envelope stands for. -/
def input (env : Envelope) : Except AdapterError Input :=
  match env.kind with
  | .appBroadcast => match env.asAppBroadcastBytes with
    | some bytes => .ok (.localBroadcast bytes)
    | none => .error (.badPayload env.kind)
  | .trainArrived => match env.asTrain with
    | some train => .ok (.trainReceived train)
    | none => .error (.badPayload env.kind)
  | .tick => .ok .tick
  | other => .error (.notAnInputKind other)

/-- The envelope of an output. -/
def output : Output → Envelope
  | .forwardTrain t => .forwardTrain t
  | .deliver ps => .deliver ps
  | .declareCrash v => .declareCrash v

/-- `feed`. -/
def feed (node : AoTrainsNode cfg) (env : Envelope) :
    AoTrainsNode cfg × Except AdapterError (List Envelope) :=
  match input env with
  | .error e => (node, .error e)
  | .ok input =>
    let (inner, outs) := node.inner.step input
    ({ node with inner }, .ok (outs.map output))

end AoTrainsNode

/-! ### Bytes -/

/-- The body of a broadcast of these bytes: `bytes` is an array of exactly these integers. -/
def IsBytes (data : Value) (b : List UInt8) : Prop :=
  data.get "bytes" = some (.array (b.map fun x => .number (.posInt x.toUInt64)))

/-- `bytes` is an array of these unsigned integers. -/
def IsUnsigned (data : Value) (ns : List UInt64) : Prop :=
  data.get "bytes" = some (.array (ns.map fun n => .number (.posInt n)))

theorem isBytes_iff {data : Value} {b : List UInt8} :
    IsBytes data b ↔ IsUnsigned data (b.map UInt8.toUInt64) := by
  unfold IsBytes IsUnsigned
  rw [List.map_map]
  rfl

theorem IsUnsigned.unique {data : Value} {ns ms : List UInt64} (left : IsUnsigned data ns)
    (right : IsUnsigned data ms) : ns = ms := by
  have same := Value.array.inj (Option.some.inj (left.symm.trans right))
  exact List.map_injective_iff.mpr (fun n m equal => by simpa using equal) same

/-- What the adapter writes. -/
theorem isBytes_appBroadcast (b : List UInt8) : IsBytes (Envelope.appBroadcast b).data b := by
  have written : Value.ofBytes b = .array (b.map fun x => .number (.posInt x.toUInt64)) := by
    refine congrArg Value.array (List.map_congr_left fun x _ => ?_)
    have same : UInt64.ofNat x.toNat = x.toUInt64 := UInt64.toNat_inj.mp (by simp)
    rw [Value.ofNat, same]
  exact congrArg some written

/-- Integers that are bytes lose nothing. -/
theorem map_toUInt8 {ns : List UInt64} (bytes : ∀ n ∈ ns, n.toNat < 256) :
    (ns.map UInt64.toUInt8).map UInt8.toUInt64 = ns := by
  rw [List.map_map]
  calc ns.map (UInt8.toUInt64 ∘ UInt64.toUInt8) = ns.map id := List.map_congr_left fun n member => by
        have small := bytes n member
        apply UInt64.toNat_inj.mp
        simp only [Function.comp_apply, UInt64.toUInt64_toUInt8, id_eq, UInt64.toNat_mod]
        exact Nat.mod_eq_of_lt small
    _ = ns := List.map_id ns

/-- **What is read as bytes**: any array of unsigned integers, each without its high bits. -/
theorem asAppBroadcastBytes_eq_some_iff {env : Envelope} (kind : env.kind = .appBroadcast)
    {b : List UInt8} : env.asAppBroadcastBytes = some b ↔
      ∃ ns, IsUnsigned env.data ns ∧ ns.map UInt64.toUInt8 = b := by
  have one : ∀ (v : Value) (x : UInt8), Envelope.asByte v = some x ↔
      ∃ n, v = .number (.posInt n) ∧ n.toUInt8 = x := fun v x => by
    simp [Envelope.asByte, Value.asU64_eq_some]
  have all : ∀ (arr : List Value) (b : List UInt8),
      List.Forall₂ (fun v x => ∃ n, v = .number (.posInt n) ∧ n.toUInt8 = x) arr b ↔
        ∃ ns : List UInt64, arr = ns.map (fun n => .number (.posInt n)) ∧
          ns.map UInt64.toUInt8 = b := by
    intro arr b
    constructor
    · intro each
      induction each with
      | nil => exact ⟨[], rfl, rfl⟩
      | cons first _ ih =>
        obtain ⟨n, rfl, rfl⟩ := first
        obtain ⟨ns, rfl, rfl⟩ := ih
        exact ⟨n :: ns, rfl, rfl⟩
    · rintro ⟨ns, rfl, rfl⟩
      rw [List.forall₂_map_left_iff, List.forall₂_map_right_iff]
      exact List.forall₂_same.mpr fun n _ => ⟨n, rfl, rfl⟩
  unfold Envelope.asAppBroadcastBytes IsUnsigned
  rw [if_neg (not_not.mpr kind)]
  simp only [Option.bind_eq_bind, Option.bind_eq_some_iff, Value.asArray_eq_some,
    optionMapM_eq_some, one, all]
  constructor
  · rintro ⟨_, found, _, rfl, ns, rfl, same⟩
    exact ⟨ns, found, same⟩
  · rintro ⟨ns, found, same⟩
    exact ⟨_, found, _, rfl, ns, rfl, same⟩

namespace AoTrainsNode

/-- The next broadcast of the node has an identifier that it has not seen. -/
def Fresh (node : AoTrainsNode cfg) : Prop :=
  (node.inner.id, node.inner.nextSeq) ∉ node.inner.broadcastSeen

/-- The envelope is taken in and queues exactly one payload, with these bytes. -/
def Queues (node : AoTrainsNode cfg) (env : Envelope) (b : List UInt8) : Prop :=
  ∃ outs payload, (node.feed env).2 = .ok outs ∧ payload.data = b ∧
    (node.feed env).1.inner.pending = node.inner.pending ++ [payload]

theorem feed_appBroadcast (node : AoTrainsNode cfg) {env : Envelope}
    (kind : env.kind = .appBroadcast) : node.feed env = match env.asAppBroadcastBytes with
      | none => (node, .error (.badPayload .appBroadcast))
      | some bytes => ({ node with inner := (node.inner.handleBroadcast bytes).1 }, .ok []) := by
  have silent : ∀ bytes, (node.inner.handleBroadcast bytes).2 = [] := fun bytes => by
    unfold TrainsNode.handleBroadcast
    split_ifs <;> rfl
  unfold feed input
  rw [kind]
  cases env.asAppBroadcastBytes with
  | none => rfl
  | some bytes =>
    show ({ node with inner := (node.inner.handleBroadcast bytes).1 },
      Except.ok ((node.inner.handleBroadcast bytes).2.map output)) = _
    rw [silent]
    rfl

/-- **A broadcast is queued as the bytes read, where its identifier has not been seen.** -/
theorem queues_iff (node : AoTrainsNode cfg) {env : Envelope} (kind : env.kind = .appBroadcast)
    {b : List UInt8} : node.Queues env b ↔ env.asAppBroadcastBytes = some b ∧ node.Fresh := by
  unfold Queues Fresh
  rw [feed_appBroadcast node kind]
  cases env.asAppBroadcastBytes with
  | none => simp
  | some bytes =>
    by_cases seen : (node.inner.id, node.inner.nextSeq) ∈ node.inner.broadcastSeen
    · simp [TrainsNode.handleBroadcast, seen]
    · simp [TrainsNode.handleBroadcast, seen]

/-- What the inbox owes a broadcast: to queue the bytes in its body, and to refuse any other body and
leave the node as it is. -/
def Decodes (node : AoTrainsNode cfg) (env : Envelope) : Prop :=
  (∀ b, node.Queues env b ↔ IsBytes env.data b) ∧
    ((∀ b, ¬ IsBytes env.data b) → node.feed env = (node, .error (.badPayload .appBroadcast)))

/-- **Exactly when the inbox decodes a broadcast as it should**: its body is no array of unsigned
integers, or all of them are bytes and the node has not seen its next identifier. What the adapter
writes itself is queued under the second condition alone. -/
theorem inbox_exact_iff {ε : Type} (json : SerdeJson ε) (node : AoTrainsNode cfg) :
    (∀ env, env.kind = .appBroadcast → (node.Decodes env ↔
      ∀ ns, IsUnsigned env.data ns → (∀ n ∈ ns, n.toNat < 256) ∧ node.Fresh)) ∧
    ∀ b text, Envelope.toJson json (.appBroadcast b) = .ok text →
      json.fromStr text = .ok (.appBroadcast b) →
      ((∃ env, Envelope.fromJson json text = .ok env ∧ node.Queues env b) ↔ node.Fresh) := by
  refine ⟨fun env kind => ?_, fun b text _ parsed => ?_⟩
  · cases read : env.asAppBroadcastBytes with
    | none =>
      -- the body is refused
      have none_unsigned : ∀ ns, ¬ IsUnsigned env.data ns := fun ns unsigned => by
        have some_read := (asAppBroadcastBytes_eq_some_iff kind).mpr ⟨ns, unsigned, rfl⟩
        rw [read] at some_read
        cases some_read
      refine iff_of_true ⟨fun b => ?_, fun _ => ?_⟩ fun ns unsigned => absurd unsigned (none_unsigned ns)
      · rw [queues_iff node kind, read, isBytes_iff]
        exact iff_of_false (fun both => by cases both.1) (none_unsigned _)
      · rw [feed_appBroadcast node kind, read]
    | some bytes =>
      obtain ⟨ns, unsigned, rfl⟩ := (asAppBroadcastBytes_eq_some_iff kind).mp read
      have queues : ∀ b, node.Queues env b ↔ ns.map UInt64.toUInt8 = b ∧ node.Fresh := fun b => by
        rw [queues_iff node kind, read, Option.some.injEq]
      constructor
      · rintro ⟨decodes, refuses⟩ ms unsigned'
        obtain rfl := unsigned.unique unsigned'
        have is_bytes : IsBytes env.data (ns.map UInt64.toUInt8) := by
          by_contra altered
          -- else the body would have to be refused
          have none_bytes : ∀ b, ¬ IsBytes env.data b := fun b same => by
            have narrow := (isBytes_iff.mp same).unique unsigned
            rw [← narrow, List.map_map] at altered
            exact altered (by simpa [Function.comp_def] using same)
          have refused := refuses none_bytes
          rw [feed_appBroadcast node kind, read] at refused
          cases congrArg Prod.snd refused
        have whole := (isBytes_iff.mp is_bytes).unique unsigned
        refine ⟨fun n member => ?_, ((queues _).mp ((decodes _).mpr is_bytes)).2⟩
        rw [← whole] at member
        obtain ⟨x, -, rfl⟩ := List.mem_map.mp member
        exact x.toNat_lt
      · intro good
        obtain ⟨small, fresh⟩ := good ns unsigned
        have is_bytes : IsBytes env.data (ns.map UInt64.toUInt8) := by
          rw [isBytes_iff, map_toUInt8 small]
          exact unsigned
        refine ⟨fun b => ?_, fun none_bytes => absurd is_bytes (none_bytes _)⟩
        rw [queues, and_iff_left fresh]
        refine ⟨fun same => same ▸ is_bytes, fun other => ?_⟩
        have narrow := unsigned.unique (isBytes_iff.mp other)
        rw [narrow, List.map_map]
        simp [Function.comp_def]
  · have read : (Envelope.appBroadcast b).asAppBroadcastBytes = some b := by
      refine (asAppBroadcastBytes_eq_some_iff rfl).mpr ⟨b.map UInt8.toUInt64, ?_, ?_⟩
      · exact isBytes_iff.mp (isBytes_appBroadcast b)
      · simp [Function.comp_def]
    have queues : node.Queues (.appBroadcast b) b ↔ _ := queues_iff node rfl
    rw [read, and_iff_right rfl] at queues
    rw [← queues]
    constructor
    · rintro ⟨env, same, queued⟩
      obtain rfl := Except.ok.inj (parsed.symm.trans same)
      exact queued
    · exact fun queued => ⟨_, parsed, queued⟩

/-- A node of three that has done nothing yet. -/
def newTriple : AoTrainsNode .triple := .new .triple 0 RingConfig.triple.ringSize_pos .uniformTotalOrder

/-- A broadcast whose only integer is 256. -/
def wideEnvelope : Envelope :=
  ⟨.appBroadcast, none, .object [("bytes", .array [.number (.posInt 256)])]⟩

/-- It is queued as a zero. -/
theorem inbox_truncates : newTriple.Queues wideEnvelope [0] ∧ ¬ newTriple.Decodes wideEnvelope := by
  have unsigned : IsUnsigned wideEnvelope.data [256] := rfl
  have read : wideEnvelope.asAppBroadcastBytes = some [0] :=
    (asAppBroadcastBytes_eq_some_iff rfl).mpr ⟨[256], unsigned, rfl⟩
  have fresh : newTriple.Fresh := Finset.notMem_empty _
  have queued := (queues_iff newTriple rfl).mpr ⟨read, fresh⟩
  refine ⟨queued, fun decodes => ?_⟩
  have zero := (isBytes_iff.mp ((decodes.1 [0]).mp queued)).unique unsigned
  exact absurd zero (by decide)

/-- The text of a broadcast of `hi`. -/
def hiText : String :=
  "\x7b\"kind\":\"app_broadcast\",\"from\":null,\"data\":\x7b\"bytes\":[104,105]\x7d\x7d"

/-- What `serde_json` does with this text and this envelope. -/
def hiJson : SerdeJson Unit where
  toString := fun env =>
    if env.asAppBroadcastBytes = some [104, 105] then .ok hiText else .error ()
  fromStr := fun s => if s = hiText then .ok (.appBroadcast [104, 105]) else .error ()

theorem inbox_exact_iff_triple : newTriple.Decodes (.appBroadcast [104, 105]) ∧
    ∃ env, Envelope.fromJson hiJson hiText = .ok env ∧ newTriple.Queues env [104, 105] := by
  have fresh : newTriple.Fresh := Finset.notMem_empty _
  have exact_iff := inbox_exact_iff hiJson newTriple
  refine ⟨(exact_iff.1 (.appBroadcast [104, 105]) rfl).mpr fun ns unsigned => ⟨?_, fresh⟩, ?_⟩
  · have known : IsUnsigned (Envelope.appBroadcast [104, 105]).data [104, 105] := rfl
    rw [← known.unique unsigned]
    simp
  · have read : (Envelope.appBroadcast [104, 105]).asAppBroadcastBytes = some [104, 105] := rfl
    have printed : Envelope.toJson hiJson (.appBroadcast [104, 105]) = .ok hiText := by
      simp [Envelope.toJson, hiJson, read]
    have parsed : hiJson.fromStr hiText = .ok (.appBroadcast [104, 105]) := by
      simp [hiJson]
    exact (exact_iff.2 [104, 105] hiText printed parsed).mpr fresh

end AoTrainsNode

end Ao

end TrainsRing
