/-
**A ring link** (`trains-net/src/transport.rs`, `spawn` and `listener_loop`; `codec.rs`).

What a node sends goes through two outboxes, the mux, the connector and its connections; at the other
end each connection has a reader, which puts what it reads into the two inboxes. Readers of one node
run at the same time, and a connection may end anywhere: what it was given last may never arrive.

* `Connection` — a connection, with what the connector has written to it.
* `Link` — both ends; `Link.apply` — one step of a mux, connector or reader.
* `Connection.attempted` — the messages that the connector tried to write.
* `link_segments` — **every connection carries a stretch of what was sent**: its messages arrive in
  order and once, up to some point; the next one starts where it stopped, with the message whose write
  failed, if any.
* `link_blocked` — a message without a frame, once taken, stays in flight for ever.
-/

import TrainsRing.Transport.Connector
import TrainsRing.Transport.Framing

namespace TrainsRing

namespace Transport

variable {cfg : RingConfig} {α δ : Type}

/-! ### The parts of a link -/

/-- What both ends of a link agree on. -/
structure LinkCodec (cfg : RingConfig) (δ : Type) where
  bincode : Bincode cfg
  limit : FrameLimit
  decode : Decoder cfg δ

/-- The bytes of a message, if it has a frame. -/
def LinkCodec.frame (codec : LinkCodec cfg δ) (msg : WireMsg cfg) : List UInt8 :=
  match encodeMsg codec.bincode codec.limit msg with
  | .ok frame => frame
  | .error _ => []

/-- A connection, after its handshake. -/
structure Connection (cfg : RingConfig) (α : Type) where
  peer : α
  /-- The messages whose `write_msg` has returned `Ok`. -/
  wrote : List (WireMsg cfg)
  /-- The message whose `write_msg` has failed, which ends the connection. -/
  failed : Option (WireMsg cfg)
  /-- The bytes given to the socket. -/
  bytes : List UInt8
  /-- The bytes that the reader has taken as whole frames. -/
  consumed : Nat

namespace Connection

def new (peer : α) : Connection cfg α := ⟨peer, [], none, [], 0⟩

/-- `write_msg`, which fails after `cut` bytes. -/
def write (c : Connection cfg α) (codec : LinkCodec cfg δ) (msg : WireMsg cfg) (cut : Nat) :
    (ok : Bool) → Connection cfg α
  | true => { c with wrote := c.wrote ++ [msg], bytes := c.bytes ++ codec.frame msg }
  | false => { c with failed := some msg, bytes := c.bytes ++ (codec.frame msg).take cut }

/-- The messages that the connector tried to write. -/
def attempted (c : Connection cfg α) : List (WireMsg cfg) := c.wrote ++ c.failed.toList

end Connection

def trainsOf (msgs : List (WireMsg cfg)) : List Train :=
  msgs.filterMap fun
    | .train train => some train
    | .viewChange _ => none

def viewChangesOf (msgs : List (WireMsg cfg)) : List (ViewChangeMsg cfg) :=
  msgs.filterMap fun
    | .train _ => none
    | .viewChange msg => some msg

@[simp] theorem trainsOf_append (first second : List (WireMsg cfg)) :
    trainsOf (first ++ second) = trainsOf first ++ trainsOf second := List.filterMap_append

@[simp] theorem viewChangesOf_append (first second : List (WireMsg cfg)) :
    viewChangesOf (first ++ second) = viewChangesOf first ++ viewChangesOf second :=
  List.filterMap_append

@[simp] theorem trainsOf_trains (trains : List Train) :
    trainsOf (trains.map (.train : Train → WireMsg cfg)) = trains := by
  simp [trainsOf, List.filterMap_map]

@[simp] theorem trainsOf_viewChanges (msgs : List (ViewChangeMsg cfg)) :
    trainsOf (msgs.map .viewChange) = [] := by
  simp [trainsOf, List.filterMap_map]

@[simp] theorem viewChangesOf_trains (trains : List Train) :
    viewChangesOf (trains.map (.train : Train → WireMsg cfg)) = [] := by
  simp [viewChangesOf, List.filterMap_map]

@[simp] theorem viewChangesOf_viewChanges (msgs : List (ViewChangeMsg cfg)) :
    viewChangesOf (msgs.map .viewChange) = msgs := by
  simp [viewChangesOf, List.filterMap_map]

/-- A link, with everything that was put into its outboxes. -/
structure Link (cfg : RingConfig) (α : Type) where
  outbox : List Train
  vcOutbox : List (ViewChangeMsg cfg)
  /-- What the mux has put into `wire_tx`. -/
  muxed : List (WireMsg cfg)
  loop : LoopState (WireMsg cfg) α
  /-- The number of connections so far. -/
  opened : Nat
  connection : Nat → Connection cfg α
  /-- What the readers have put into inboxes, with the connections it came from. -/
  arrivals : List (Nat × WireMsg cfg)

namespace Link

def new (initialAddr : α) : Link cfg α where
  outbox := []
  vcOutbox := []
  muxed := []
  loop := .new initialAddr
  opened := 0
  connection := fun _ => .new initialAddr
  arrivals := []

/-- What the connector does to its connections. -/
def carry (st : Link cfg α) (codec : LinkCodec cfg δ) (cut : Nat) :
    Outcome (WireMsg cfg) α → Link cfg α
  | .handshaken true =>
    { st with
      opened := st.opened + 1
      connection := Function.update st.connection st.opened (.new st.loop.addr) }
  | .wrote ok =>
    match st.loop.phase.inHand with
    | some msg =>
      let last := st.opened - 1
      { st with connection :=
          Function.update st.connection last ((st.connection last).write codec msg cut ok) }
    | none => st
  | _ => st

/-- One round of the reader of a connection: `read_msg`, and the message into its inbox. -/
def read (st : Link cfg α) (codec : LinkCodec cfg δ) (k : Nat) : Link cfg α :=
  let c := st.connection k
  match readMsg codec.limit codec.decode (c.bytes.drop c.consumed) with
  | .ok (msg, rest) =>
    { st with
      connection := Function.update st.connection k { c with consumed := c.bytes.length - rest.length }
      arrivals := st.arrivals ++ [(k, msg)] }
  | .error _ => st

/-- What has arrived over a connection. -/
def arrivedOn (st : Link cfg α) (k : Nat) : List (WireMsg cfg) :=
  (st.arrivals.filter fun arrival => arrival.1 = k).map Prod.snd

/-- The messages written to the connections before the `k`-th. -/
def writtenBefore (st : Link cfg α) (k : Nat) : List (WireMsg cfg) :=
  (List.range k).flatMap fun i => (st.connection i).wrote

variable [DecidableEq α]

/-- What has arrived at an address. -/
def receivedAt (st : Link cfg α) (addr : α) : List (WireMsg cfg) :=
  (st.arrivals.filter fun arrival => (st.connection arrival.1).peer = addr).map Prod.snd

/-- `inbox` of the node at an address. -/
def inbox (st : Link cfg α) (addr : α) : List Train := trainsOf (st.receivedAt addr)

/-- `vc_inbox`. -/
def vcInbox (st : Link cfg α) (addr : α) : List (ViewChangeMsg cfg) :=
  viewChangesOf (st.receivedAt addr)

end Link

/-! ### The machine -/

inductive LinkAction (cfg : RingConfig) (α : Type) where
  | send (train : Train)
  | sendViewChange (msg : ViewChangeMsg cfg)
  /-- The mux takes the next train. -/
  | muxTrain
  | muxViewChange
  /-- The connector ends a wait; `cut` is where a write fails. -/
  | loop (outcome : Outcome (WireMsg cfg) α) (cut : Nat)
  | read (k : Nat)

section Machine

variable [DecidableEq α]

namespace LinkAction

/-- `Sendable` says which messages are sent. The connector takes them as the mux gives them, and writes
those that have a frame. -/
def Legal (codec : LinkCodec cfg δ) (Sendable : WireMsg cfg → Prop) (st : Link cfg α) :
    LinkAction cfg α → Prop
  | send train => Sendable (.train train)
  | sendViewChange msg => Sendable (.viewChange msg)
  | muxTrain => True
  | muxViewChange => True
  | loop outcome _ => (connectorLoop (WireMsg cfg) α).legal st.loop outcome ∧
      match outcome with
      | .received msg => st.muxed[st.loop.taken.length]? = some msg
      | .wrote true => ∀ msg ∈ st.loop.phase.inHand,
          ∃ frame, encodeMsg codec.bincode codec.limit msg = .ok frame
      | _ => True
  | read _ => True

def apply (codec : LinkCodec cfg δ) (st : Link cfg α) : LinkAction cfg α → Link cfg α
  | send train => { st with outbox := st.outbox ++ [train] }
  | sendViewChange msg => { st with vcOutbox := st.vcOutbox ++ [msg] }
  | muxTrain =>
    { st with muxed := st.muxed ++ (st.outbox[(trainsOf st.muxed).length]?).toList.map .train }
  | muxViewChange =>
    { st with muxed := st.muxed ++
        (st.vcOutbox[(viewChangesOf st.muxed).length]?).toList.map .viewChange }
  | loop outcome cut =>
    { st.carry codec cut outcome with loop := (connectorLoop (WireMsg cfg) α).next st.loop outcome }
  | read k => st.read codec k

end LinkAction

/-- The machine of a link. -/
def link (codec : LinkCodec cfg δ) (Sendable : WireMsg cfg → Prop) (α : Type) [DecidableEq α] :
    Machine (Link cfg α) (LinkAction cfg α) where
  start := fun st => ∃ initialAddr, st = .new initialAddr
  legal := fun st action => action.Legal codec Sendable st
  next := LinkAction.apply codec

end Machine

/-! ### The connector and its connections -/

section Connector

variable {μ : Type}

/-- A connection is open, with a write under way or none. -/
def Phase.Open : Phase μ → Prop
  | .firstWrite _ => True
  | .stream => True
  | .streamWrite _ => True
  | _ => False

/-- Neither a new connection, nor a message taken or written. -/
def Outcome.Quiet : Outcome μ α → Prop
  | .handshaken ok => ok = false
  | .wrote _ => False
  | .received _ => False
  | _ => True

namespace LoopState

variable {s s' : LoopState μ α} {outcome : Outcome μ α}

/-- What a step of the loop does to its connections and messages. -/
inductive Moves (s s' : LoopState μ α) : Outcome μ α → Prop
  | opened (taken : s'.taken = s.taken) (written : s'.written = s.written) :
      Moves s s' (.handshaken true)
  | wrote (ok : Bool) (msg : μ) (current : s.phase.Open) (inHand : s.phase.inHand = some msg)
      (taken : s'.taken = s.taken) (written : s'.written = s.written ++ if ok then [msg] else [])
      (closes : s'.phase.Open → ok = true) : Moves s s' (.wrote ok)
  | took (msg : μ) (taken : s'.taken = s.taken ++ [msg]) (written : s'.written = s.written)
      (stays : s'.phase.Open → s.phase.Open) : Moves s s' (.received msg)
  | waited {outcome : Outcome μ α} (quiet : outcome.Quiet) (taken : s'.taken = s.taken)
      (written : s'.written = s.written) (stays : s'.phase.Open → s.phase.Open) :
      Moves s s' outcome

/-- The head of the loop has no connection. -/
theorem acquire_messages (s : LoopState μ α) : s.acquire.taken = s.taken ∧
    s.acquire.written = s.written ∧ ¬ s.acquire.phase.Open := by
  unfold acquire
  split_ifs
  · exact ⟨rfl, rfl, id⟩
  · cases s.pending with
    | none => exact ⟨rfl, rfl, id⟩
    | some msg => exact ⟨rfl, rfl, id⟩

/-- Back to the head of the loop. -/
theorem moves_acquire {t : LoopState μ α} (quiet : outcome.Quiet) (taken : t.taken = s.taken)
    (written : t.written = s.written) : Moves s t.acquire outcome :=
  .waited quiet (t.acquire_messages.1.trans taken) (t.acquire_messages.2.1.trans written)
    fun current => absurd current t.acquire_messages.2.2

/-- A failed write ends the connection. -/
theorem moves_unwritten {msg : μ} (current : s.phase.Open) (inHand : s.phase.inHand = some msg) :
    Moves s (s.retain (some msg)).acquire (.wrote false) := by
  obtain ⟨taken, written, closed⟩ := (s.retain (some msg)).acquire_messages
  exact .wrote false msg current inHand taken (written.trans (List.append_nil _).symm)
    fun current => absurd current closed

/-- **One step of the loop.** -/
theorem step_moves [DecidableEq α] (stepped : s.step outcome = some s') : Moves s s' outcome := by
  have current : ∀ {phase : Phase μ}, s.phase = phase → phase.Open → s.phase.Open :=
    fun same is => same ▸ is
  have inHand : ∀ {phase : Phase μ} {hand : Option μ}, s.phase = phase → phase.inHand = hand →
      s.phase.inHand = hand := fun same held => same ▸ held
  unfold step at stepped
  split at stepped
  -- at the head of the loop
  · next msg phase =>
    obtain rfl := Option.some.inj stepped
    exact .took msg rfl rfl False.elim
  · next phase =>
    obtain rfl := Option.some.inj stepped
    exact .waited trivial rfl rfl False.elim
  · next newAddr phase =>
    obtain rfl := Option.some.inj stepped
    exact moves_acquire trivial (s.same_retarget newAddr).taken (s.same_retarget newAddr).written
  -- the connection
  · next msgOpt phase =>
    obtain rfl := Option.some.inj stepped
    exact .waited trivial rfl rfl False.elim
  · next msgOpt phase =>
    obtain rfl := Option.some.inj stepped
    obtain ⟨-, -, waits, taken, written⟩ := s.connectFailed_messages msgOpt
    exact .waited trivial taken written fun is => absurd (waits ▸ is : Phase.backoff.Open) id
  · next phase =>
    obtain rfl := Option.some.inj stepped
    exact moves_acquire trivial rfl rfl
  · next newAddr phase =>
    obtain rfl := Option.some.inj stepped
    exact moves_acquire trivial (s.same_retarget newAddr).taken (s.same_retarget newAddr).written
  -- the handshake
  · next msg phase =>
    obtain rfl := Option.some.inj stepped
    exact .opened rfl rfl
  · next phase =>
    obtain rfl := Option.some.inj stepped
    exact .opened rfl rfl
  · next msgOpt phase =>
    obtain rfl := Option.some.inj stepped
    obtain ⟨-, taken, written⟩ := s.retain_messages msgOpt
    exact .waited rfl taken written False.elim
  · next phase =>
    obtain rfl := Option.some.inj stepped
    exact moves_acquire trivial rfl rfl
  -- the first write
  · next msg phase =>
    obtain rfl := Option.some.inj stepped
    exact .wrote true msg (current phase trivial) (inHand phase rfl) rfl rfl fun _ => rfl
  · next msg phase =>
    obtain rfl := Option.some.inj stepped
    exact moves_unwritten (current phase trivial) (inHand phase rfl)
  -- the messages that follow
  · next msg phase =>
    obtain rfl := Option.some.inj stepped
    exact .took msg rfl rfl fun _ => current phase trivial
  · next phase =>
    obtain rfl := Option.some.inj stepped
    exact .waited trivial rfl rfl False.elim
  · next newAddr phase =>
    split_ifs at stepped
    · obtain rfl := Option.some.inj stepped
      exact .waited trivial rfl rfl id
    · obtain rfl := Option.some.inj stepped
      exact moves_acquire trivial (s.same_retarget newAddr).taken (s.same_retarget newAddr).written
  · next phase =>
    obtain rfl := Option.some.inj stepped
    exact moves_acquire trivial rfl rfl
  · next msg phase =>
    obtain rfl := Option.some.inj stepped
    exact .wrote true msg (current phase trivial) (inHand phase rfl) rfl rfl fun _ => rfl
  · next msg phase =>
    obtain rfl := Option.some.inj stepped
    exact moves_unwritten (current phase trivial) (inHand phase rfl)
  · cases stepped

/-- What is written next is the message in hand. -/
theorem taken_of_inHand [DecidableEq α] (reachable : (connectorLoop μ α).Reachable s) {msg : μ}
    (inHand : s.phase.inHand = some msg) : s.taken = s.written ++ [msg] := by
  obtain ⟨r, -, relays⟩ := connector_relays reachable
  have held : r.held = some msg := by
    rw [← relays.held, inFlight, inHand]
    rfl
  rw [relays.taken, relays.written, r.accounted, held]
  rfl

theorem written_front [DecidableEq α] (reachable : (connectorLoop μ α).Reachable s) :
    s.written <+: s.taken := by
  obtain ⟨r, -, relays⟩ := connector_relays reachable
  rw [relays.written, relays.taken]
  exact r.passed_prefix

/-- What was taken is written or in flight. -/
theorem taken_eq [DecidableEq α] (reachable : (connectorLoop μ α).Reachable s) :
    s.taken = s.written ++ s.inFlight.toList := by
  obtain ⟨r, -, relays⟩ := connector_relays reachable
  rw [relays.taken, relays.written, relays.held]
  exact r.accounted

/-- **A message in flight stays there** until it is written; the loop takes no other one. -/
theorem step_held [DecidableEq α] (reachable : (connectorLoop μ α).Reachable s)
    (stepped : s.step outcome = some s') {msg : μ} (held : s.inFlight = some msg)
    (unwritten : outcome = .wrote true → s.phase.inHand ≠ some msg) :
    s'.inFlight = some msg ∧ s'.taken = s.taken ∧ s'.written = s.written := by
  have before := taken_eq reachable
  have legal : (connectorLoop μ α).legal s outcome := Option.isSome_iff_exists.mpr ⟨s', stepped⟩
  have next : (connectorLoop μ α).next s outcome = s' := by
    show (s.step outcome).getD s = s'
    rw [stepped]
    rfl
  have after := taken_eq (next ▸ reachable.take legal)
  have stays : s'.taken = s.taken → s'.written = s.written → s'.inFlight = some msg ∧
      s'.taken = s.taken ∧ s'.written = s.written := by
    intro taken written
    rw [taken, written, before] at after
    have same := List.append_cancel_left after
    rw [held] at same
    have kept : msg ∈ s'.inFlight := Option.mem_toList.mp (same ▸ List.mem_singleton_self msg)
    exact ⟨kept, taken, written⟩
  cases step_moves stepped with
  | opened taken written => exact stays taken written
  | waited _ taken written _ => exact stays taken written
  | wrote ok other _ inHand taken written _ =>
    cases ok with
    | false => exact stays taken (written.trans (List.append_nil _))
    | true =>
      have same : other = msg := by
        rw [inFlight, inHand] at held
        exact Option.some.inj held
      exact absurd (same ▸ inHand) (unwritten rfl)
  | took other taken written _ =>
    -- the loop would hold two messages
    rw [taken, written, before, held, List.append_assoc] at after
    have two := congrArg List.length (List.append_cancel_left after)
    have few : s'.inFlight.toList.length ≤ 1 := by cases s'.inFlight <;> simp
    rw [← two] at few
    exact absurd few (by simp)

end LoopState

end Connector

/-! ### One connection -/

/-- **What a connection carries**: the messages `whole`, whose frames `parts` its bytes are part of.
What has arrived is the front of these messages, and the reader stands after their frames. -/
structure Carries (codec : LinkCodec cfg δ) (c : Connection cfg α) (arrived : List (WireMsg cfg))
    (parts : List (List UInt8)) (whole : List (WireMsg cfg)) : Prop where
  parses : List.Forall₂ (Reader.Parses streamEnd (readMsg codec.limit codec.decode)) parts whole
  bytes : c.bytes <+: parts.flatten
  tried : whole <+: c.attempted
  unbroken : c.failed = none → whole = c.wrote ∧ c.bytes = parts.flatten
  front : arrived <+: whole
  consumed : c.consumed = (parts.take arrived.length).flatten.length
  within : c.consumed ≤ c.bytes.length

section Connection

variable {codec : LinkCodec cfg δ} {c : Connection cfg α} {arrived : List (WireMsg cfg)}
  {parts : List (List UInt8)} {whole : List (WireMsg cfg)} {msg : WireMsg cfg}

theorem carries_new (codec : LinkCodec cfg δ) (peer : α) :
    Carries codec (Connection.new peer : Connection cfg α) [] [] [] where
  parses := .nil
  bytes := List.prefix_rfl
  tried := List.nil_prefix
  unbroken := fun _ => ⟨rfl, rfl⟩
  front := List.prefix_rfl
  consumed := rfl
  within := le_rfl

theorem Carries.length (carries : Carries codec c arrived parts whole) :
    arrived.length ≤ parts.length := carries.parses.length_eq ▸ carries.front.length_le

theorem frame_eq {frame : List UInt8} (encoded : encodeMsg codec.bincode codec.limit msg = .ok frame) :
    codec.frame msg = frame := by
  unfold LinkCodec.frame
  rw [encoded]

/-- **A write** puts the frame of the message behind the others, or a part of it. -/
theorem Carries.write (carries : Carries codec c arrived parts whole) (unbroken : c.failed = none)
    (ok : Bool) (cut : Nat)
    (framed : ok = true → ∃ frame, encodeMsg codec.bincode codec.limit msg = .ok frame)
    (decodes : ∃ taken, codec.decode (codec.bincode.wireMsg msg) = .ok (msg, taken)) :
    ∃ parts' whole', Carries codec (c.write codec msg cut ok) arrived parts' whole' := by
  obtain ⟨taken, decodes⟩ := decodes
  obtain ⟨same, bytes⟩ := carries.unbroken unbroken
  have few := carries.length
  have attempted : (c.write codec msg cut ok).attempted = whole ++ [msg] := by
    rw [same]
    cases ok
    · rfl
    · show (c.wrote ++ [msg]) ++ c.failed.toList = _
      rw [unbroken]
      exact List.append_nil _
  cases encoded : encodeMsg codec.bincode codec.limit msg with
  | error refusal =>
    -- the message has no frame: nothing is written
    have nothing : codec.frame msg = [] := by
      unfold LinkCodec.frame
      rw [encoded]
    cases ok with
    | true =>
      obtain ⟨frame, absurd⟩ := framed rfl
      rw [encoded] at absurd
      cases absurd
    | false =>
      have unchanged : (c.write codec msg cut false).bytes = c.bytes := by
        show c.bytes ++ (codec.frame msg).take cut = _
        rw [nothing, List.take_nil, List.append_nil]
      exact ⟨parts, whole, carries.parses, unchanged ▸ carries.bytes, attempted ▸ List.prefix_append ..,
        (fun absurd => nomatch absurd), carries.front, carries.consumed, unchanged ▸ carries.within⟩
  | ok frame =>
    have parses := readMsg_parses encoded decodes
    have consumed : c.consumed = ((parts ++ [frame]).take arrived.length).flatten.length := by
      rw [List.take_append_of_le_length few]
      exact carries.consumed
    refine ⟨parts ++ [frame], whole ++ [msg], List.rel_append carries.parses (.cons parses .nil), ?_,
      attempted ▸ List.prefix_rfl, ?_, carries.front.trans (List.prefix_append ..), ?_, ?_⟩
    · rw [List.flatten_append, List.flatten_singleton, ← bytes]
      cases ok with
      | true =>
        show c.bytes ++ codec.frame msg <+: _
        rw [frame_eq encoded]
      | false =>
        show c.bytes ++ (codec.frame msg).take cut <+: _
        rw [frame_eq encoded, List.prefix_append_right_inj]
        exact List.take_prefix ..
    · intro still
      cases ok with
      | true =>
        refine ⟨same ▸ rfl, ?_⟩
        show c.bytes ++ codec.frame msg = _
        rw [frame_eq encoded, List.flatten_append, List.flatten_singleton, bytes]
      | false => cases still
    · cases ok <;> exact consumed
    · have longer : c.bytes.length ≤ (c.write codec msg cut ok).bytes.length := by
        cases ok <;> exact (List.prefix_append ..).length_le
      cases ok <;> exact carries.within.trans longer

/-- **A read** gives the next message. -/
theorem Carries.read (carries : Carries codec c arrived parts whole) {rest : List UInt8}
    (reads : readMsg codec.limit codec.decode (c.bytes.drop c.consumed) = .ok (msg, rest)) :
    Carries codec { c with consumed := c.bytes.length - rest.length } (arrived ++ [msg]) parts whole := by
  have starved : readMsg codec.limit codec.decode [] = .error streamEnd := rfl
  have within := carries.within
  rw [carries.consumed] at reads within
  obtain ⟨next, total⟩ := Reader.next_of_prefix starved carries.parses carries.bytes within reads
  have arrived : arrived ++ [msg] <+: whole := by
    obtain ⟨later, rfl⟩ := carries.front
    rw [List.getElem?_append_right le_rfl, Nat.sub_self] at next
    cases later with
    | nil => cases next
    | cons first later =>
      obtain rfl := Option.some.inj next
      exact (List.prefix_append_right_inj _).mpr ⟨later, rfl⟩
  refine ⟨carries.parses, carries.bytes, carries.tried, carries.unbroken, arrived, ?_, ?_⟩
  · show c.bytes.length - rest.length = _
    rw [List.length_append, List.length_singleton]
    omega
  · show c.bytes.length - rest.length ≤ c.bytes.length
    omega

end Connection

/-! ### Both ends -/

theorem Link.writtenBefore_succ (st : Link cfg α) (k : Nat) :
    st.writtenBefore (k + 1) = st.writtenBefore k ++ (st.connection k).wrote := by
  unfold Link.writtenBefore
  rw [List.range_succ, List.flatMap_append, List.flatMap_singleton]

theorem Link.writtenBefore_mono (st : Link cfg α) {k n : Nat} (upto : k ≤ n) :
    st.writtenBefore k <+: st.writtenBefore n := by
  induction n, upto using Nat.le_induction with
  | base => exact List.prefix_rfl
  | succ n _ ih => exact ih.trans (Link.writtenBefore_succ st n ▸ List.prefix_append ..)

/-- Only the connections before it matter. -/
theorem Link.writtenBefore_congr {st st' : Link cfg α} {k : Nat}
    (same : ∀ i < k, (st'.connection i).wrote = (st.connection i).wrote) :
    st'.writtenBefore k = st.writtenBefore k := by
  unfold Link.writtenBefore
  exact List.flatMap_congr fun i member => same i (List.mem_range.mp member)

theorem Link.carry_wrote {codec : LinkCodec cfg δ} {st : Link cfg α} {msg : WireMsg cfg}
    (inHand : st.loop.phase.inHand = some msg) (ok : Bool)
    (cut : Nat) : st.carry codec cut (.wrote ok) = { st with
      connection := Function.update st.connection (st.opened - 1)
        ((st.connection (st.opened - 1)).write codec msg cut ok) } := by
  unfold Link.carry
  dsimp only
  rw [inHand]

section Link

variable [DecidableEq α] {codec : LinkCodec cfg δ} {Sendable : WireMsg cfg → Prop}
  {st : Link cfg α}

/-- What holds of a link in every state. -/
structure Holds (codec : LinkCodec cfg δ) (Sendable : WireMsg cfg → Prop) (st : Link cfg α) :
    Prop where
  loop : (connectorLoop (WireMsg cfg) α).Reachable st.loop
  sent : (∀ t ∈ st.outbox, Sendable (.train t)) ∧ ∀ msg ∈ st.vcOutbox, Sendable (.viewChange msg)
  trains : trainsOf st.muxed <+: st.outbox
  viewChanges : viewChangesOf st.muxed <+: st.vcOutbox
  taken : st.loop.taken <+: st.muxed
  written : st.loop.written = st.writtenBefore st.opened
  current : st.loop.phase.Open → 0 < st.opened ∧ (st.connection (st.opened - 1)).failed = none
  failed : ∀ k < st.opened, ∀ msg, (st.connection k).failed = some msg →
    st.writtenBefore (k + 1) ++ [msg] <+: st.loop.taken
  unopened : ∀ k, st.opened ≤ k → (st.connection k).attempted = []
  carried : ∀ k, ∃ parts whole, Carries codec (st.connection k) (st.arrivedOn k) parts whole

theorem sendable_of_muxed (holds : Holds codec Sendable st) {msg : WireMsg cfg}
    (member : msg ∈ st.muxed) : Sendable msg := by
  cases msg with
  | train train =>
    exact holds.sent.1 train (holds.trains.subset (List.mem_filterMap.mpr ⟨_, member, rfl⟩))
  | viewChange msg =>
    exact holds.sent.2 msg (holds.viewChanges.subset (List.mem_filterMap.mpr ⟨_, member, rfl⟩))

/-- One more element of a list behind a part of it. -/
theorem snoc_front {β : Type} {front whole : List β} (isFront : front <+: whole) :
    front ++ (whole[front.length]?).toList <+: whole := by
  obtain ⟨back, rfl⟩ := isFront
  rw [List.getElem?_append_right le_rfl, Nat.sub_self, List.prefix_append_right_inj]
  cases back with
  | nil => exact List.prefix_rfl
  | cons first back => exact ⟨back, rfl⟩

theorem Holds.new (initialAddr : α) : Holds codec Sendable (Link.new initialAddr : Link cfg α) where
  loop := .start ⟨initialAddr, rfl⟩
  sent := ⟨fun _ absurd => (nomatch absurd), fun _ absurd => (nomatch absurd)⟩
  trains := List.prefix_rfl
  viewChanges := List.prefix_rfl
  taken := List.prefix_rfl
  written := rfl
  current := False.elim
  failed := fun _ absurd => (Nat.not_lt_zero _ absurd).elim
  unopened := fun _ _ => rfl
  carried := fun _ => ⟨[], [], carries_new codec initialAddr⟩

/-- The mux moves a message on. -/
theorem Holds.mux (holds : Holds codec Sendable st) {added : List (WireMsg cfg)}
    (trains : trainsOf (st.muxed ++ added) <+: st.outbox)
    (viewChanges : viewChangesOf (st.muxed ++ added) <+: st.vcOutbox) :
    Holds codec Sendable { st with muxed := st.muxed ++ added } where
  loop := holds.loop
  sent := holds.sent
  trains := trains
  viewChanges := viewChanges
  taken := holds.taken.trans (List.prefix_append ..)
  written := holds.written
  current := holds.current
  failed := holds.failed
  unopened := holds.unopened
  carried := holds.carried

theorem Holds.muxTrain (holds : Holds codec Sendable st) :
    Holds codec Sendable (LinkAction.apply codec st .muxTrain) := by
  refine holds.mux ?_ ?_
  · rw [trainsOf_append, trainsOf_trains]
    exact snoc_front holds.trains
  · rw [viewChangesOf_append, viewChangesOf_trains, List.append_nil]
    exact holds.viewChanges

theorem Holds.muxViewChange (holds : Holds codec Sendable st) :
    Holds codec Sendable (LinkAction.apply codec st .muxViewChange) := by
  refine holds.mux ?_ ?_
  · rw [trainsOf_append, trainsOf_viewChanges, List.append_nil]
    exact holds.trains
  · rw [viewChangesOf_append, viewChangesOf_viewChanges]
    exact snoc_front holds.viewChanges

/-- The loop goes on with its connections as they are. -/
theorem Holds.advance (holds : Holds codec Sendable st) {s' : LoopState (WireMsg cfg) α}
    (loop : (connectorLoop (WireMsg cfg) α).Reachable s') (grows : st.loop.taken <+: s'.taken)
    (taken : s'.taken <+: st.muxed) (written : s'.written = st.loop.written)
    (stays : s'.phase.Open → st.loop.phase.Open) : Holds codec Sendable { st with loop := s' } where
  loop := loop
  sent := holds.sent
  trains := holds.trains
  viewChanges := holds.viewChanges
  taken := taken
  written := written.trans holds.written
  current := fun current => holds.current (stays current)
  failed := fun k inside msg lost => (holds.failed k inside msg lost).trans grows
  unopened := holds.unopened
  carried := holds.carried

/-- A new connection. -/
theorem Holds.opened (holds : Holds codec Sendable st) {s' : LoopState (WireMsg cfg) α}
    (loop : (connectorLoop (WireMsg cfg) α).Reachable s') (taken : s'.taken = st.loop.taken)
    (written : s'.written = st.loop.written) (cut : Nat) :
    Holds codec Sendable { st.carry codec cut (.handshaken true) with loop := s' } := by
  let st' : Link cfg α := { st.carry codec cut (.handshaken true) with loop := s' }
  have fresh : st'.connection st.opened = .new st.loop.addr := Function.update_self ..
  have old : ∀ k, k ≠ st.opened → st'.connection k = st.connection k :=
    fun k other => Function.update_of_ne other ..
  have before : ∀ k ≤ st.opened, st'.writtenBefore k = st.writtenBefore k := fun k upto =>
    Link.writtenBefore_congr fun i less => by rw [old i (by omega)]
  refine ⟨loop, holds.sent, holds.trains, holds.viewChanges, taken ▸ holds.taken, ?_, fun _ => ?_,
    fun k inside msg lost => ?_, fun k beyond => ?_, fun k => ?_⟩
  · show s'.written = st'.writtenBefore (st.opened + 1)
    rw [Link.writtenBefore_succ, before _ le_rfl, fresh, written, holds.written]
    exact (List.append_nil _).symm
  · exact ⟨Nat.succ_pos _, congrArg Connection.failed fresh⟩
  · change (st'.connection k).failed = some msg at lost
    show st'.writtenBefore (k + 1) ++ [msg] <+: s'.taken
    by_cases last : k = st.opened
    · rw [last, fresh] at lost
      cases lost
    · have less : k < st.opened := lt_of_le_of_ne (Nat.lt_succ_iff.mp inside) last
      rw [old k last] at lost
      rw [before (k + 1) less, taken]
      exact holds.failed k less msg lost
  · show (st'.connection k).attempted = []
    have past : st.opened + 1 ≤ k := beyond
    rw [old k (by omega)]
    exact holds.unopened k (by omega)
  · show ∃ parts whole, Carries codec (st'.connection k) (st.arrivedOn k) parts whole
    by_cases last : k = st.opened
    · obtain ⟨parts, whole, carries⟩ := holds.carried k
      have none : st.arrivedOn k = [] := List.prefix_nil.mp
        (holds.unopened k last.ge ▸ carries.front.trans carries.tried)
      rw [none, last, fresh]
      exact ⟨[], [], carries_new codec _⟩
    · rw [old k last]
      exact holds.carried k

/-- A write, which may fail. -/
theorem Holds.wrote (holds : Holds codec Sendable st) {s' : LoopState (WireMsg cfg) α} {ok : Bool}
    {msg : WireMsg cfg} (loop : (connectorLoop (WireMsg cfg) α).Reachable s')
    (current : st.loop.phase.Open) (inHand : st.loop.phase.inHand = some msg)
    (taken : s'.taken = st.loop.taken)
    (written : s'.written = st.loop.written ++ if ok then [msg] else [])
    (closes : s'.phase.Open → ok = true)
    (framed : ok = true → ∃ frame, encodeMsg codec.bincode codec.limit msg = .ok frame)
    (decodes : ∃ taken, codec.decode (codec.bincode.wireMsg msg) = .ok (msg, taken)) (cut : Nat) :
    Holds codec Sendable { st.carry codec cut (.wrote ok) with loop := s' } := by
  obtain ⟨opens, unbroken⟩ := holds.current current
  obtain ⟨last, count⟩ : ∃ last, st.opened = last + 1 := ⟨st.opened - 1, by omega⟩
  rw [count, Nat.add_sub_cancel] at unbroken
  let st' : Link cfg α := { st with
    connection := Function.update st.connection last ((st.connection last).write codec msg cut ok)
    loop := s' }
  have carried : { st.carry codec cut (.wrote ok) with loop := s' } = st' := by
    rw [Link.carry_wrote inHand, show st.opened - 1 = last by omega]
  rw [carried]
  have now : st'.connection last = (st.connection last).write codec msg cut ok :=
    Function.update_self ..
  have old : ∀ k, k ≠ last → st'.connection k = st.connection k :=
    fun k other => Function.update_of_ne other ..
  have before : ∀ k ≤ last, st'.writtenBefore k = st.writtenBefore k := fun k upto =>
    Link.writtenBefore_congr fun i less => by rw [old i (by omega)]
  have wrote : st.loop.written = st.writtenBefore last ++ (st.connection last).wrote := by
    rw [holds.written, count, Link.writtenBefore_succ]
  refine ⟨loop, holds.sent, holds.trains, holds.viewChanges, taken ▸ holds.taken, ?_, fun still => ?_,
    fun k inside m lost => ?_, fun k beyond => ?_, fun k => ?_⟩
  · show s'.written = st'.writtenBefore st.opened
    rw [count, Link.writtenBefore_succ, before last le_rfl, now, written, wrote, List.append_assoc]
    cases ok
    · exact congrArg _ (List.append_nil _)
    · rfl
  · obtain rfl := closes still
    refine ⟨opens, ?_⟩
    show (st'.connection (st.opened - 1)).failed = none
    rw [count, Nat.add_sub_cancel, now]
    exact unbroken
  · change (st'.connection k).failed = some m at lost
    change k < st.opened at inside
    show st'.writtenBefore (k + 1) ++ [m] <+: s'.taken
    rw [taken]
    by_cases here : k = last
    · rw [here, now] at lost
      rw [here, Link.writtenBefore_succ, before last le_rfl, now]
      cases ok with
      | true => exact absurd (unbroken.symm.trans lost) (by simp)
      | false =>
        obtain rfl : msg = m := Option.some.inj lost
        show st.writtenBefore last ++ (st.connection last).wrote ++ [msg] <+: _
        rw [← wrote, st.loop.taken_of_inHand holds.loop inHand]
    · rw [old k here] at lost
      rw [before (k + 1) (by omega)]
      exact holds.failed k inside m lost
  · change st.opened ≤ k at beyond
    show (st'.connection k).attempted = []
    rw [old k (by omega)]
    exact holds.unopened k beyond
  · show ∃ parts whole, Carries codec (st'.connection k) (st.arrivedOn k) parts whole
    obtain ⟨parts, whole, carries⟩ := holds.carried k
    by_cases here : k = last
    · rw [here] at carries ⊢
      rw [now]
      exact carries.write unbroken ok cut framed decodes
    · rw [old k here]
      exact ⟨parts, whole, carries⟩

/-- A round of a reader. -/
theorem Holds.read (holds : Holds codec Sendable st) (k : Nat) :
    Holds codec Sendable (st.read codec k) := by
  unfold Link.read
  dsimp only
  split
  · next msg rest reads =>
    let st' : Link cfg α := { st with
      connection := Function.update st.connection k
        { st.connection k with
          consumed := (st.connection k).bytes.length - rest.length }
      arrivals := st.arrivals ++ [(k, msg)] }
    have now : st'.connection k = { st.connection k with
        consumed := (st.connection k).bytes.length - rest.length } := Function.update_self ..
    have old : ∀ i, i ≠ k → st'.connection i = st.connection i :=
      fun i other => Function.update_of_ne other ..
    have writes : ∀ i, (st'.connection i).wrote = (st.connection i).wrote ∧
        (st'.connection i).failed = (st.connection i).failed := by
      intro i
      by_cases here : i = k
      · rw [here, now]
        exact ⟨rfl, rfl⟩
      · rw [old i here]
        exact ⟨rfl, rfl⟩
    have before : ∀ i, st'.writtenBefore i = st.writtenBefore i :=
      fun i => Link.writtenBefore_congr fun j _ => (writes j).1
    refine ⟨holds.loop, holds.sent, holds.trains, holds.viewChanges, holds.taken, ?_, fun current => ?_,
      fun i inside m lost => ?_, fun i beyond => ?_, fun i => ?_⟩
    · exact holds.written.trans (before st.opened).symm
    · obtain ⟨opens, unbroken⟩ := holds.current current
      exact ⟨opens, (writes _).2.trans unbroken⟩
    · rw [before]
      exact holds.failed i inside m ((writes i).2.symm.trans lost)
    · show (st'.connection i).wrote ++ (st'.connection i).failed.toList = []
      rw [(writes i).1, (writes i).2]
      exact holds.unopened i beyond
    · show ∃ parts whole, Carries codec (st'.connection i) (st'.arrivedOn i) parts whole
      obtain ⟨parts, whole, carries⟩ := holds.carried i
      have arrived : st'.arrivedOn i = st.arrivedOn i ++ if i = k then [msg] else [] := by
        unfold Link.arrivedOn
        rw [List.filter_append, List.map_append]
        by_cases here : i = k
        · simp [here]
        · simp [here, Ne.symm here]
      rw [arrived]
      by_cases here : i = k
      · rw [here] at carries ⊢
        rw [now, if_pos rfl]
        exact ⟨parts, whole, carries.read reads⟩
      · rw [old i here, if_neg here, List.append_nil]
        exact ⟨parts, whole, carries⟩
  · exact holds

/-- **One step of the connector.** -/
theorem Holds.loopStep (holds : Holds codec Sendable st) {outcome : Outcome (WireMsg cfg) α}
    {cut : Nat} (legal : LinkAction.Legal codec Sendable st (.loop outcome cut))
    (decodes : ∀ msg, Sendable msg →
      ∃ taken, codec.decode (codec.bincode.wireMsg msg) = .ok (msg, taken)) :
    Holds codec Sendable (LinkAction.apply codec st (.loop outcome cut)) := by
  obtain ⟨allowed, more⟩ := legal
  obtain ⟨s', stepped⟩ := Option.isSome_iff_exists.mp allowed
  have loop := holds.loop.take allowed
  have next : (connectorLoop (WireMsg cfg) α).next st.loop outcome = s' := by
    show (st.loop.step outcome).getD st.loop = s'
    rw [stepped]
    rfl
  rw [next] at loop
  show Holds codec Sendable { st.carry codec cut outcome with
    loop := (connectorLoop (WireMsg cfg) α).next st.loop outcome }
  rw [next]
  cases st.loop.step_moves stepped with
  | opened taken written => exact holds.opened loop taken written cut
  | wrote ok msg current inHand taken written closes =>
    have inside : msg ∈ st.muxed := by
      refine holds.taken.subset ?_
      rw [st.loop.taken_of_inHand holds.loop inHand]
      exact List.mem_append_right _ (List.mem_singleton_self msg)
    refine holds.wrote loop current inHand taken written closes (fun yes => ?_)
      (decodes msg (sendable_of_muxed holds inside)) cut
    subst yes
    exact more msg inHand
  | took msg taken written stays =>
    refine holds.advance loop (taken ▸ List.prefix_append ..) ?_ written stays
    have next : st.muxed[st.loop.taken.length]? = some msg := more
    have further := snoc_front holds.taken
    rw [next] at further
    exact taken ▸ further
  | waited quiet taken written stays =>
    have still : st.carry codec cut outcome = st := by
      cases outcome with
      | handshaken ok =>
        obtain rfl : ok = false := quiet
        rfl
      | wrote ok => exact absurd quiet id
      | received msg => rfl
      | closed => rfl
      | retarget newAddr => rfl
      | connected ok => rfl
      | elapsed => rfl
      | peerClosed => rfl
    rw [still]
    exact holds.advance loop (taken ▸ List.prefix_rfl) (taken ▸ holds.taken) written stays

/-- **In every state of a link.** -/
theorem holds_reachable (decodes : ∀ msg, Sendable msg →
      ∃ taken, codec.decode (codec.bincode.wireMsg msg) = .ok (msg, taken))
    (reachable : (link codec Sendable α).Reachable st) : Holds codec Sendable st := by
  refine Machine.invariant (P := Holds codec Sendable) ?_ ?_ reachable
  · rintro _ ⟨initialAddr, rfl⟩
    exact .new initialAddr
  · intro st action holds legal
    cases action with
    | send train =>
      refine { holds with
        sent := ⟨fun t member => ?_, holds.sent.2⟩
        trains := holds.trains.trans (List.prefix_append ..) }
      rcases List.mem_append.mp member with old | new
      · exact holds.sent.1 t old
      · exact List.mem_singleton.mp new ▸ legal
    | sendViewChange msg =>
      refine { holds with
        sent := ⟨holds.sent.1, fun m member => ?_⟩
        viewChanges := holds.viewChanges.trans (List.prefix_append ..) }
      rcases List.mem_append.mp member with old | new
      · exact holds.sent.2 m old
      · exact List.mem_singleton.mp new ▸ legal
    | muxTrain => exact holds.muxTrain
    | muxViewChange => exact holds.muxViewChange
    | loop outcome cut => exact holds.loopStep legal decodes
    | read k => exact holds.read k

/-- Only the connector's own steps move its loop. -/
theorem apply_loop (codec : LinkCodec cfg δ) (st : Link cfg α) (action : LinkAction cfg α) :
    (action.apply codec st).loop = st.loop ∨ ∃ outcome cut, action = .loop outcome cut ∧
      (action.apply codec st).loop = (connectorLoop (WireMsg cfg) α).next st.loop outcome := by
  cases action with
  | loop outcome cut => exact Or.inr ⟨outcome, cut, rfl, rfl⟩
  | read k =>
    refine Or.inl ?_
    show (st.read codec k).loop = st.loop
    unfold Link.read
    dsimp only
    split <;> rfl
  | _ => exact Or.inl rfl

theorem loop_reachable (reachable : (link codec Sendable α).Reachable st) :
    (connectorLoop (WireMsg cfg) α).Reachable st.loop := by
  refine Machine.invariant (P := fun st => (connectorLoop (WireMsg cfg) α).Reachable st.loop)
    ?_ ?_ reachable
  · rintro _ ⟨initialAddr, rfl⟩
    exact .start ⟨initialAddr, rfl⟩
  · intro st action running legal
    show (connectorLoop (WireMsg cfg) α).Reachable (action.apply codec st).loop
    rcases apply_loop codec st action with same | ⟨outcome, cut, rfl, moved⟩
    · rw [same]
      exact running
    · rw [moved]
      exact running.take legal.1

/-- **A message without a frame blocks its link**: once the connector has taken it, it keeps it for ever,
and neither takes nor writes anything else. -/
theorem link_blocked {st' : Link cfg α} (reachable : (link codec Sendable α).Reachable st)
    {msg : WireMsg cfg} (held : st.loop.inFlight = some msg)
    (refused : ¬ Encodable codec.bincode codec.limit msg)
    (later : (link codec Sendable α).Reaches st st') : st'.loop.inFlight = some msg ∧
      st'.loop.taken = st.loop.taken ∧ st'.loop.written = st.loop.written := by
  refine (later.preserves (P := fun st' => (link codec Sendable α).Reachable st' ∧
    st'.loop.inFlight = some msg ∧ st'.loop.taken = st.loop.taken ∧
      st'.loop.written = st.loop.written) ?_ ⟨reachable, held, rfl, rfl⟩).2
  rintro middle action ⟨reached, kept, taken, written⟩ legal
  refine ⟨reached.take legal, ?_⟩
  show (action.apply codec middle).loop.inFlight = some msg ∧
    (action.apply codec middle).loop.taken = _ ∧ (action.apply codec middle).loop.written = _
  rcases apply_loop codec middle action with same | ⟨outcome, cut, rfl, moved⟩
  · rw [same]
    exact ⟨kept, taken, written⟩
  · obtain ⟨allowed, framed⟩ := legal
    obtain ⟨s', stepped⟩ := Option.isSome_iff_exists.mp allowed
    have next : (connectorLoop (WireMsg cfg) α).next middle.loop outcome = s' := by
      show (middle.loop.step outcome).getD middle.loop = s'
      rw [stepped]
      rfl
    rw [moved, next]
    obtain ⟨kept', taken', written'⟩ :=
      LoopState.step_held (loop_reachable reached) stepped kept fun wrote inHand => by
        subst wrote
        obtain ⟨frame, encoded⟩ := framed msg inHand
        exact refused (by rw [Encodable, encoded]; rfl)
    exact ⟨kept', taken'.trans taken, written'.trans written⟩

/-- The messages of a connection follow those of the connections before it. -/
theorem attempted_follows (holds : Holds codec Sendable st) (k : Nat) (inside : k < st.opened) :
    st.writtenBefore k ++ (st.connection k).attempted <+: st.muxed := by
  refine List.IsPrefix.trans ?_ holds.taken
  rw [Connection.attempted, ← List.append_assoc, ← Link.writtenBefore_succ]
  cases lost : (st.connection k).failed with
  | some msg => exact holds.failed k inside msg lost
  | none =>
    rw [Option.toList_none, List.append_nil]
    refine (st.writtenBefore_mono inside).trans ?_
    rw [← holds.written]
    exact st.loop.written_front holds.loop

/-- **Every connection carries a stretch of what was sent.** The mux keeps the order of the trains and
of the view-change messages. The messages tried on a connection are those that follow the ones written
to the connections before it, so that at most the one whose write failed is tried on two; what arrives
over a connection is the front of them. Over a single connection each inbox gets the front of its
outbox. -/
theorem link_segments (decodes : ∀ msg, Sendable msg →
      ∃ taken, codec.decode (codec.bincode.wireMsg msg) = .ok (msg, taken))
    (reachable : (link codec Sendable α).Reachable st) :
    (trainsOf st.muxed <+: st.outbox ∧ viewChangesOf st.muxed <+: st.vcOutbox) ∧
      (∀ k, (st.connection k).attempted = (st.muxed.drop (st.writtenBefore k).length).take
          (st.connection k).attempted.length ∧
        st.arrivedOn k <+: (st.connection k).attempted) ∧
      (st.opened ≤ 1 → ∀ addr,
        st.inbox addr <+: st.outbox ∧ st.vcInbox addr <+: st.vcOutbox) := by
  have holds := holds_reachable decodes reachable
  have arrived : ∀ k, st.arrivedOn k <+: (st.connection k).attempted := by
    intro k
    obtain ⟨parts, whole, carries⟩ := holds.carried k
    exact carries.front.trans carries.tried
  refine ⟨⟨holds.trains, holds.viewChanges⟩, fun k => ⟨?_, arrived k⟩, fun single addr => ?_⟩
  · by_cases inside : k < st.opened
    · obtain ⟨rest, whole⟩ := attempted_follows holds k inside
      rw [← whole, List.append_assoc, List.drop_left, List.take_left]
    · rw [holds.unopened k (not_lt.mp inside)]
      rfl
  · -- everything has come over the first connection
    have first : ∀ arrival ∈ st.arrivals, arrival.1 = 0 := by
      rintro ⟨k, msg⟩ member
      by_contra later
      have here : msg ∈ st.arrivedOn k := List.mem_map.mpr ⟨(k, msg), by simp [member], rfl⟩
      have none := holds.unopened k (by simp only at later; omega)
      exact absurd (none ▸ (arrived k).subset here) List.not_mem_nil
    have front : st.receivedAt addr <+: st.muxed := by
      have all : st.arrivals.filter (fun arrival => arrival.1 = 0) = st.arrivals :=
        List.filter_eq_self.mpr fun arrival member => decide_eq_true (first arrival member)
      have whole : st.arrivals.map Prod.snd <+: st.muxed := by
        have read := arrived 0
        unfold Link.arrivedOn at read
        rw [all] at read
        by_cases none : st.opened = 0
        · rw [holds.unopened 0 none.le] at read
          exact (List.prefix_nil.mp read) ▸ List.nil_prefix
        · exact read.trans (attempted_follows holds 0 (Nat.pos_of_ne_zero none))
      unfold Link.receivedAt
      by_cases here : (st.connection 0).peer = addr
      · rw [List.filter_eq_self.mpr fun arrival member => by
          simpa [first arrival member] using here]
        exact whole
      · rw [List.filter_eq_nil_iff.mpr fun arrival member => by
          simpa [first arrival member] using here]
        exact List.nil_prefix
    exact ⟨(front.filterMap _).trans holds.trains, (front.filterMap _).trans holds.viewChanges⟩

end Link

/-- Both trains are sent; the connection breaks in the frame of the second, which the next connection
carries as a whole. -/
def brokenRun : List (LinkAction .triple Nat) :=
  [.send ⟨0, 1, [⟨2, 0, [1, 2]⟩], 5#32⟩, .send ⟨1, 300, [], 0#32⟩, .muxTrain, .muxTrain,
    .loop (.received (.train ⟨0, 1, [⟨2, 0, [1, 2]⟩], 5#32⟩)) 0, .loop (.connected true) 0,
    .loop (.handshaken true) 0, .loop (.wrote true) 0,
    .loop (.received (.train ⟨1, 300, [], 0#32⟩)) 0, .loop (.wrote false) 5,
    .loop (.connected true) 0, .loop (.handshaken true) 0, .loop (.wrote true) 0,
    .read 1, .read 0, .read 0]

/-- What both ends of this link agree on. -/
def tripleCodec : LinkCodec .triple Unit := ⟨.standard .triple, .default, decodeTwoTrains⟩

/-- The link after that run. -/
def brokenLink : Link .triple Nat :=
  (link tripleCodec (· ∈ twoTrains) Nat).run (.new 7) brokenRun

set_option maxRecDepth 4000 in
theorem link_segments_triple :
    (brokenLink.opened = 2 ∧ trainsOf (brokenLink.arrivedOn 0) = [⟨0, 1, [⟨2, 0, [1, 2]⟩], 5#32⟩] ∧
      trainsOf (brokenLink.arrivedOn 1) = [⟨1, 300, [], 0#32⟩] ∧
      trainsOf (brokenLink.connection 0).attempted = brokenLink.outbox) ∧
    brokenLink.arrivedOn 0 <+: (brokenLink.connection 0).attempted := by
  have decodes : ∀ msg, msg ∈ twoTrains → ∃ taken,
      tripleCodec.decode (tripleCodec.bincode.wireMsg msg) = .ok (msg, taken) := by
    rintro msg (_ | ⟨_, _ | ⟨_, member⟩⟩)
    · exact ⟨_, rfl⟩
    · exact ⟨_, rfl⟩
    · cases member
  have framed : ∀ msg : WireMsg .triple, msg ∈ twoTrains →
      ∃ frame, encodeMsg (Bincode.standard .triple) .default msg = .ok frame := by
    rintro msg (_ | ⟨_, _ | ⟨_, member⟩⟩)
    · exact ⟨_, rfl⟩
    · exact ⟨_, rfl⟩
    · cases member
  have first : (.train ⟨0, 1, [⟨2, 0, [1, 2]⟩], 5#32⟩ : WireMsg .triple) ∈ twoTrains :=
    List.mem_cons_self
  have second : (.train ⟨1, 300, [], 0#32⟩ : WireMsg .triple) ∈ twoTrains :=
    List.mem_cons_of_mem _ List.mem_cons_self
  have reachable : (link tripleCodec (· ∈ twoTrains) Nat).Reachable brokenLink := by
    refine Machine.reachable_run ⟨7, rfl⟩ ⟨first, second, trivial, trivial, ⟨rfl, rfl⟩, ⟨rfl, trivial⟩,
      ⟨rfl, trivial⟩, ⟨rfl, fun msg held => ?_⟩, ⟨rfl, rfl⟩, ⟨rfl, trivial⟩, ⟨rfl, trivial⟩,
      ⟨rfl, trivial⟩, ⟨rfl, fun msg held => ?_⟩, trivial, trivial, trivial, trivial⟩
    · obtain rfl := Option.some.inj held
      exact framed _ first
    · obtain rfl := Option.some.inj held
      exact framed _ second
  exact ⟨by decide +kernel, ((link_segments decodes reachable).2.1 0).2⟩

end Transport

end TrainsRing
