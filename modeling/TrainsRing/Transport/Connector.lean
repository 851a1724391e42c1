/-
**The outbound connector** (`trains-net/src/transport.rs`, `connector_loop`).

The loop takes a message of the node, connects to the successor and writes it, and then writes the
messages that follow on the same connection. What cannot be written yet is kept in `pending`; a
closed connection is probed without a message (`forceReconnect`).

* `Phase`, `Outcome` — the points at which the loop waits and what it may wait for.
* `LoopState.step` — the loop, from one such point to the next.
* `LoopState.Relays` — **the loop is a relay**: the message in hand or in `pending` is the one held.
* `neither_lost_nor_repeated` — **what is written is the front of what was taken**, all but one
  message at most, and everything when the loop returns.
-/

import TrainsRing.Library.Relay

namespace TrainsRing

namespace Transport

variable {μ α : Type}

/-! ### The loop -/

/-- `RECONNECT_BACKOFF`, in milliseconds. -/
def reconnectBackoff : Nat := 500

/-- `RECONNECT_MAX_BACKOFF`, in milliseconds. -/
def reconnectMaxBackoff : Nat := 5000

/-- `UNREACHABLE_FAILURES`. -/
def unreachableFailures : Nat := 5

/-- What the loop waits for. -/
inductive Phase (μ : Type) where
  /-- A message or a retarget, with nothing to send. -/
  | idle
  | connect (msgOpt : Option μ)
  /-- The backoff after a failed connect, or a retarget. -/
  | backoff
  | handshake (msgOpt : Option μ)
  /-- The sleep after a failed handshake. -/
  | sleep
  /-- The first write on a new connection. -/
  | firstWrite (msg : μ)
  /-- A message, a retarget or the end of the connection. -/
  | stream
  | streamWrite (msg : μ)
  | returned

namespace Phase

/-- The message that the loop has in hand. -/
def inHand : Phase μ → Option μ
  | .connect msgOpt => msgOpt
  | .handshake msgOpt => msgOpt
  | .firstWrite msg => some msg
  | .streamWrite msg => some msg
  | _ => none

/-- Between two attempts the message waits in `pending`. -/
def Retrying : Phase μ → Prop
  | .backoff => True
  | .sleep => True
  | _ => False

end Phase

/-- How a wait may end. -/
inductive Outcome (μ α : Type) where
  /-- `wire_rx.recv()` gives a message. -/
  | received (msg : μ)
  /-- `wire_rx.recv()` gives `None`: the outbox is closed. -/
  | closed
  | retarget (newAddr : α)
  | connected (ok : Bool)
  | handshaken (ok : Bool)
  | elapsed
  /-- `write_msg` returns. -/
  | wrote (ok : Bool)
  | peerClosed

/-- The variables of the loop, with the messages taken from `wire_rx`, those written and the
addresses reported as unreachable so far. -/
structure LoopState (μ α : Type) where
  addr : α
  backoff : Nat
  failStreak : Nat
  notified : Bool
  pending : Option μ
  forceReconnect : Bool
  phase : Phase μ
  taken : List μ
  written : List μ
  reported : List α

namespace LoopState

/-- The loop before its first message. -/
def new (initialAddr : α) : LoopState μ α where
  addr := initialAddr
  backoff := reconnectBackoff
  failStreak := 0
  notified := false
  pending := none
  forceReconnect := false
  phase := .idle
  taken := []
  written := []
  reported := []

/-- The head of the outer loop: the message to retry, or a new one; a probe skips the wait. -/
def acquire (s : LoopState μ α) : LoopState μ α :=
  if s.forceReconnect then { s with forceReconnect := false, phase := .connect none }
  else match s.pending with
    | some msg => { s with pending := none, phase := .connect (some msg) }
    | none => { s with phase := .idle }

/-- A failed attempt puts the message in hand, if there is one, into `pending`. -/
def retain (s : LoopState μ α) : Option μ → LoopState μ α
  | some msg => { s with pending := some msg }
  | none => s

def backOff (s : LoopState μ α) : LoopState μ α :=
  { s with backoff := min (s.backoff * 2) reconnectMaxBackoff }

def retarget [DecidableEq α] (s : LoopState μ α) (newAddr : α) : LoopState μ α :=
  if newAddr = s.addr then s
  else { s with addr := newAddr, backoff := reconnectBackoff, failStreak := 0, notified := false }

/-- A failed connect counts (a `u32`); the streak is reported once. -/
def connectFailed (s : LoopState μ α) (msgOpt : Option μ) : LoopState μ α :=
  let s := s.retain msgOpt
  let s := if msgOpt.isNone then { s with forceReconnect := true } else s
  let s := { s with failStreak := (s.failStreak + 1) % 2 ^ 32 }
  let s := if unreachableFailures ≤ s.failStreak ∧ s.notified = false then
      { s with reported := s.reported ++ [s.addr], notified := true }
    else s
  { s with phase := .backoff }

/-- `connector_loop`, from one wait to the next. -/
def step [DecidableEq α] (s : LoopState μ α) (outcome : Outcome μ α) : Option (LoopState μ α) :=
  match s.phase, outcome with
  | .idle, .received msg =>
    some { s with taken := s.taken ++ [msg], phase := .connect (some msg) }
  | .idle, .closed => some { s with phase := .returned }
  | .idle, .retarget newAddr => some (s.retarget newAddr).acquire
  | .connect msgOpt, .connected true =>
    some { s with failStreak := 0, notified := false, phase := .handshake msgOpt }
  | .connect msgOpt, .connected false => some (s.connectFailed msgOpt)
  | .backoff, .elapsed => some s.backOff.acquire
  | .backoff, .retarget newAddr => some (s.retarget newAddr).acquire
  | .handshake (some msg), .handshaken true =>
    some { s with backoff := reconnectBackoff, phase := .firstWrite msg }
  | .handshake none, .handshaken true =>
    some { s with backoff := reconnectBackoff, phase := .stream }
  | .handshake msgOpt, .handshaken false => some { s.retain msgOpt with phase := .sleep }
  | .sleep, .elapsed => some s.backOff.acquire
  | .firstWrite msg, .wrote true => some { s with written := s.written ++ [msg], phase := .stream }
  | .firstWrite msg, .wrote false => some (s.retain (some msg)).acquire
  | .stream, .received msg =>
    some { s with taken := s.taken ++ [msg], phase := .streamWrite msg }
  | .stream, .closed => some { s with phase := .returned }
  | .stream, .retarget newAddr =>
    -- a retarget to the same address keeps the connection
    if newAddr = s.addr then some s else some (s.retarget newAddr).acquire
  | .stream, .peerClosed => some { s with forceReconnect := true }.acquire
  | .streamWrite msg, .wrote true => some { s with written := s.written ++ [msg], phase := .stream }
  | .streamWrite msg, .wrote false => some (s.retain (some msg)).acquire
  | _, _ => none

/-- The message that was taken and not written yet. -/
def inFlight (s : LoopState μ α) : Option μ := s.phase.inHand.or s.pending

/-! ### Parts that keep the messages -/

/-- The messages of two states are at the same places. -/
structure SameMessages (s s' : LoopState μ α) : Prop where
  pending : s'.pending = s.pending
  forceReconnect : s'.forceReconnect = s.forceReconnect
  phase : s'.phase = s.phase
  taken : s'.taken = s.taken
  written : s'.written = s.written

theorem same_retarget [DecidableEq α] (s : LoopState μ α) (newAddr : α) :
    s.SameMessages (s.retarget newAddr) := by
  unfold retarget
  split_ifs
  · exact ⟨rfl, rfl, rfl, rfl, rfl⟩
  · exact ⟨rfl, rfl, rfl, rfl, rfl⟩

theorem same_backOff (s : LoopState μ α) : s.SameMessages s.backOff := ⟨rfl, rfl, rfl, rfl, rfl⟩

/-! ### The loop as a relay -/

/-- The loop holds at most one message: in hand, or in `pending` between two attempts. A probe is
only waiting for its next attempt, and has no message. -/
structure Orderly (s : LoopState μ α) : Prop where
  pending : ¬ s.phase.Retrying → s.pending = none
  probe : s.forceReconnect = true → s.phase.Retrying ∧ s.pending = none

/-- The relay that the loop is: the message held is the one in hand or in `pending`. -/
structure Relays (s : LoopState μ α) (r : Relay μ) : Prop where
  orderly : s.Orderly
  taken : s.taken = r.taken
  written : s.written = r.passed
  held : s.inFlight = r.held

theorem inHand_retrying {phase : Phase μ} (retrying : phase.Retrying) : phase.inHand = none := by
  cases phase <;> first | rfl | cases retrying

theorem Orderly.alone {s : LoopState μ α} (orderly : s.Orderly) :
    s.phase.inHand = none ∨ s.pending = none := by
  by_cases retrying : s.phase.Retrying
  · exact Or.inl (inHand_retrying retrying)
  · exact Or.inr (orderly.pending retrying)

/-- The head of the loop takes the message out of `pending` again. -/
theorem acquire_relays {s : LoopState μ α} {r : Relay μ} (taken : s.taken = r.taken)
    (written : s.written = r.passed) (held : s.pending = r.held)
    (probe : s.forceReconnect = true → s.pending = none) : s.acquire.Relays r := by
  unfold acquire
  by_cases forced : s.forceReconnect = true
  · have empty := probe forced
    rw [if_pos forced]
    refine ⟨⟨fun _ => empty, fun absurd => by cases absurd⟩, taken, written, ?_⟩
    rw [← held]
    rfl
  · rw [if_neg forced]
    cases waiting : s.pending with
    | none =>
      refine ⟨⟨fun _ => rfl, fun yes => absurd yes forced⟩, taken, written, ?_⟩
      rw [← held, waiting]
      rfl
    | some msg =>
      refine ⟨⟨fun _ => rfl, fun yes => absurd yes forced⟩, taken, written, ?_⟩
      rw [← held, waiting]
      rfl

/-- The next attempt after a wait. -/
theorem Relays.retry {s s' : LoopState μ α} {r : Relay μ} (relays : s.Relays r)
    (retrying : s.phase.Retrying) (same : s.SameMessages s') : s'.acquire.Relays r := by
  refine acquire_relays (same.taken.trans relays.taken) (same.written.trans relays.written) ?_
    fun forced => ?_
  · rw [same.pending, ← relays.held, inFlight, inHand_retrying retrying, Option.none_or]
  · rw [same.pending]
    exact (relays.orderly.probe (same.forceReconnect ▸ forced)).2

/-- A failed write puts the message in hand back and starts over. -/
theorem Relays.unwritten {s : LoopState μ α} {r : Relay μ} (relays : s.Relays r) {msg : μ}
    (inHand : s.phase.inHand = some msg) : (s.retain (some msg)).acquire.Relays r := by
  have working : ¬ s.phase.Retrying := fun retrying => by
    rw [inHand_retrying retrying] at inHand
    cases inHand
  refine acquire_relays relays.taken relays.written ?_ fun forced => ?_
  · rw [← relays.held, inFlight, inHand]
    rfl
  · exact absurd (relays.orderly.probe forced).1 working

/-- With nothing in hand the loop may start over at any time. -/
theorem Relays.restart {s s' : LoopState μ α} {r : Relay μ} (relays : s.Relays r)
    (working : ¬ s.phase.Retrying) (free : s.phase.inHand = none)
    (pending : s'.pending = s.pending) (taken : s'.taken = s.taken)
    (written : s'.written = s.written) : s'.acquire.Relays r := by
  refine acquire_relays (taken.trans relays.taken) (written.trans relays.written) ?_
    fun _ => pending.trans (relays.orderly.pending working)
  rw [pending, ← relays.held, inFlight, free, Option.none_or]

/-- While the loop works, `pending` is free and no probe is asked for. -/
theorem Orderly.settled {s : LoopState μ α} (orderly : s.Orderly) (working : ¬ s.phase.Retrying) :
    s.pending = none ∧ s.forceReconnect = false := by
  refine ⟨orderly.pending working, ?_⟩
  by_contra forced
  exact working (orderly.probe (by simpa using forced)).1

/-- The loop goes on with the same message in hand. -/
theorem Relays.proceed {s s' : LoopState μ α} {r : Relay μ} (relays : s.Relays r)
    (working : ¬ s.phase.Retrying) (pending : s'.pending = s.pending)
    (forced : s'.forceReconnect = s.forceReconnect) (taken : s'.taken = s.taken)
    (written : s'.written = s.written) (inHand : s'.phase.inHand = s.phase.inHand) :
    s'.Relays r := by
  obtain ⟨free, unforced⟩ := relays.orderly.settled working
  refine ⟨⟨fun _ => pending.trans free, fun yes => ?_⟩, taken.trans relays.taken,
    written.trans relays.written, ?_⟩
  · rw [forced, unforced] at yes
    cases yes
  · rw [← relays.held, inFlight, inFlight, inHand, pending]

/-- A failed attempt leaves the message in `pending`, or a probe without one. -/
theorem Relays.failed {s s' : LoopState μ α} {r : Relay μ} (relays : s.Relays r)
    (working : ¬ s.phase.Retrying) (retrying : s'.phase.Retrying)
    (pending : s'.pending = s.phase.inHand)
    (probe : s'.forceReconnect = true → s.phase.inHand = none)
    (taken : s'.taken = s.taken) (written : s'.written = s.written) : s'.Relays r := by
  refine ⟨⟨fun still => absurd retrying still, fun yes => ⟨retrying, pending.trans (probe yes)⟩⟩,
    taken.trans relays.taken, written.trans relays.written, ?_⟩
  rw [← relays.held, inFlight, inFlight, inHand_retrying retrying, pending,
    relays.orderly.pending working, Option.none_or, Option.or_none]

/-- A message is taken with the hands free. -/
theorem Relays.take {s s' : LoopState μ α} {r : Relay μ} (relays : s.Relays r)
    (working : ¬ s.phase.Retrying) (free : s.phase.inHand = none) {msg : μ}
    (pending : s'.pending = s.pending) (forced : s'.forceReconnect = s.forceReconnect)
    (taken : s'.taken = s.taken ++ [msg]) (written : s'.written = s.written)
    (inHand : s'.phase.inHand = some msg) :
    r.held = none ∧ s'.Relays (r.next (.take msg)) := by
  obtain ⟨empty, unforced⟩ := relays.orderly.settled working
  have none_held : r.held = none := by
    rw [← relays.held, inFlight, free, empty]
    rfl
  refine ⟨none_held, ?_⟩
  rw [Relay.next_take none_held]
  refine ⟨⟨fun _ => pending.trans empty, fun yes => ?_⟩, ?_, written.trans relays.written, ?_⟩
  · rw [forced, unforced] at yes
    cases yes
  · rw [taken, relays.taken]
    rfl
  · rw [inFlight, inHand]
    rfl

/-- The message in hand is written. -/
theorem Relays.write {s s' : LoopState μ α} {r : Relay μ} (relays : s.Relays r) {msg : μ}
    (working : ¬ s.phase.Retrying) (inHand : s.phase.inHand = some msg)
    (pending : s'.pending = s.pending) (forced : s'.forceReconnect = s.forceReconnect)
    (taken : s'.taken = s.taken) (written : s'.written = s.written ++ [msg])
    (done : s'.phase.inHand = none) : r.held = some msg ∧ s'.Relays (r.next .pass) := by
  obtain ⟨empty, unforced⟩ := relays.orderly.settled working
  have held : r.held = some msg := by
    rw [← relays.held, inFlight, inHand]
    rfl
  refine ⟨held, ⟨fun _ => pending.trans empty, fun yes => ?_⟩, taken.trans relays.taken, ?_, ?_⟩
  · rw [forced, unforced] at yes
    cases yes
  · rw [written, relays.written]
    exact (Relay.pass_passed held).symm
  · rw [inFlight, done, pending, empty]
    rfl

/-- A failed connect keeps the message in `pending`; without one it asks for another probe. -/
theorem connectFailed_messages (s : LoopState μ α) (msgOpt : Option μ) :
    (s.connectFailed msgOpt).pending = msgOpt.or s.pending ∧
      (s.connectFailed msgOpt).forceReconnect = (msgOpt.isNone || s.forceReconnect) ∧
      (s.connectFailed msgOpt).phase = .backoff ∧ (s.connectFailed msgOpt).taken = s.taken ∧
      (s.connectFailed msgOpt).written = s.written := by
  unfold connectFailed
  cases msgOpt with
  | none =>
    simp only [retain, Option.isNone_none, if_true]
    split_ifs <;> simp
  | some msg =>
    simp only [retain, Option.isNone_some, Bool.false_eq_true, if_false]
    split_ifs <;> simp

theorem retain_pending (s : LoopState μ α) (msgOpt : Option μ) :
    (s.retain msgOpt).pending = msgOpt.or s.pending := by
  cases msgOpt <;> rfl

theorem retain_messages (s : LoopState μ α) (msgOpt : Option μ) :
    (s.retain msgOpt).forceReconnect = s.forceReconnect ∧ (s.retain msgOpt).taken = s.taken ∧
      (s.retain msgOpt).written = s.written := by
  cases msgOpt <;> exact ⟨rfl, rfl, rfl⟩

/-- **One step of the loop.** It keeps the messages where they are, takes one with the hands free, or
writes the one that it has in hand. -/
theorem step_relays [DecidableEq α] {s s' : LoopState μ α} {r : Relay μ} (relays : s.Relays r)
    {outcome : Outcome μ α} (stepped : s.step outcome = some s') :
    s'.Relays r ∨
      (∃ msg, outcome = .received msg ∧ r.held = none ∧ s'.Relays (r.next (.take msg))) ∨
      ∃ msg, r.held = some msg ∧ s'.Relays (r.next .pass) := by
  have working : ∀ {phase : Phase μ}, s.phase = phase → ¬ phase.Retrying → ¬ s.phase.Retrying :=
    fun same works => same ▸ works
  have retrying : ∀ {phase : Phase μ}, s.phase = phase → phase.Retrying → s.phase.Retrying :=
    fun same waits => same ▸ waits
  have inHand : ∀ {phase : Phase μ} {hand : Option μ}, s.phase = phase → phase.inHand = hand →
      s.phase.inHand = hand := fun same held => same ▸ held
  unfold step at stepped
  split at stepped
  -- at the head of the loop
  · next msg phase =>
    obtain rfl := Option.some.inj stepped
    exact Or.inr (Or.inl ⟨msg, rfl, relays.take (working phase id) (inHand phase rfl)
      rfl rfl rfl rfl rfl⟩)
  · next phase =>
    obtain rfl := Option.some.inj stepped
    exact Or.inl (relays.proceed (working phase id) rfl rfl rfl rfl (inHand phase rfl).symm)
  · next newAddr phase =>
    obtain rfl := Option.some.inj stepped
    have same := s.same_retarget newAddr
    exact Or.inl (relays.restart (working phase id) (inHand phase rfl) same.pending same.taken
      same.written)
  -- the connection
  · next msgOpt phase =>
    obtain rfl := Option.some.inj stepped
    exact Or.inl (relays.proceed (working phase id) rfl rfl rfl rfl (inHand phase rfl).symm)
  · next msgOpt phase =>
    obtain rfl := Option.some.inj stepped
    obtain ⟨pending, forced, waits, taken, written⟩ := s.connectFailed_messages msgOpt
    obtain ⟨empty, unforced⟩ := relays.orderly.settled (working phase id)
    refine Or.inl (relays.failed (working phase id) (waits ▸ trivial) ?_ (fun yes => ?_) taken
      written)
    · rw [pending, empty, Option.or_none, inHand phase rfl]
      rfl
    · rw [forced, unforced, Bool.or_false, Option.isNone_iff_eq_none] at yes
      exact (inHand phase rfl).trans yes
  · next phase =>
    obtain rfl := Option.some.inj stepped
    exact Or.inl (relays.retry (retrying phase trivial) s.same_backOff)
  · next newAddr phase =>
    obtain rfl := Option.some.inj stepped
    exact Or.inl (relays.retry (retrying phase trivial) (s.same_retarget newAddr))
  -- the handshake
  · next msg phase =>
    obtain rfl := Option.some.inj stepped
    exact Or.inl (relays.proceed (working phase id) rfl rfl rfl rfl (inHand phase rfl).symm)
  · next phase =>
    obtain rfl := Option.some.inj stepped
    exact Or.inl (relays.proceed (working phase id) rfl rfl rfl rfl (inHand phase rfl).symm)
  · next msgOpt phase =>
    obtain rfl := Option.some.inj stepped
    obtain ⟨empty, unforced⟩ := relays.orderly.settled (working phase id)
    obtain ⟨forced, taken, written⟩ := s.retain_messages msgOpt
    refine Or.inl (relays.failed (working phase id) trivial ?_ (fun yes => ?_) taken written)
    · show (s.retain msgOpt).pending = _
      rw [retain_pending, empty, Option.or_none, inHand phase rfl]
      rfl
    · exact absurd ((forced.trans unforced).symm.trans yes) Bool.false_ne_true
  · next phase =>
    obtain rfl := Option.some.inj stepped
    exact Or.inl (relays.retry (retrying phase trivial) s.same_backOff)
  -- the first write
  · next msg phase =>
    obtain rfl := Option.some.inj stepped
    exact Or.inr (Or.inr ⟨msg, relays.write (working phase id) (inHand phase rfl)
      rfl rfl rfl rfl rfl⟩)
  · next msg phase =>
    obtain rfl := Option.some.inj stepped
    exact Or.inl (relays.unwritten (inHand phase rfl))
  -- the messages that follow
  · next msg phase =>
    obtain rfl := Option.some.inj stepped
    exact Or.inr (Or.inl ⟨msg, rfl, relays.take (working phase id) (inHand phase rfl)
      rfl rfl rfl rfl rfl⟩)
  · next phase =>
    obtain rfl := Option.some.inj stepped
    exact Or.inl (relays.proceed (working phase id) rfl rfl rfl rfl (inHand phase rfl).symm)
  · next newAddr phase =>
    split_ifs at stepped
    · obtain rfl := Option.some.inj stepped
      exact Or.inl relays
    · obtain rfl := Option.some.inj stepped
      have same := s.same_retarget newAddr
      exact Or.inl (relays.restart (working phase id) (inHand phase rfl) same.pending same.taken
        same.written)
  · next phase =>
    obtain rfl := Option.some.inj stepped
    exact Or.inl (relays.restart (working phase id) (inHand phase rfl) rfl rfl rfl)
  · next msg phase =>
    obtain rfl := Option.some.inj stepped
    exact Or.inr (Or.inr ⟨msg, relays.write (working phase id) (inHand phase rfl)
      rfl rfl rfl rfl rfl⟩)
  · next msg phase =>
    obtain rfl := Option.some.inj stepped
    exact Or.inl (relays.unwritten (inHand phase rfl))
  · cases stepped

end LoopState

/-! ### Runs -/

/-- The connector, started towards any address; each wait may end in any way that it can. -/
def connectorLoop (μ α : Type) [DecidableEq α] : Machine (LoopState μ α) (Outcome μ α) where
  start := fun s => ∃ initialAddr, s = .new initialAddr
  legal := fun s outcome => (s.step outcome).isSome = true
  next := fun s outcome => (s.step outcome).getD s

instance [DecidableEq α] (s : LoopState μ α) (outcome : Outcome μ α) :
    Decidable ((connectorLoop μ α).legal s outcome) :=
  inferInstanceAs (Decidable ((s.step outcome).isSome = true))

/-- **The loop is a relay in every state it reaches.** -/
theorem connector_relays [DecidableEq α] {s : LoopState μ α}
    (reachable : (connectorLoop μ α).Reachable s) : ∃ r, (relay μ).Reachable r ∧ s.Relays r := by
  refine Machine.simulate (fun s initial => ?_) (fun s r outcome relays legal => ?_) reachable
  · obtain ⟨initialAddr, rfl⟩ := initial
    exact ⟨.empty, rfl, ⟨fun _ => rfl, fun absurd => by cases absurd⟩, rfl, rfl, rfl⟩
  · obtain ⟨s', stepped⟩ := Option.isSome_iff_exists.mp legal
    have next : (connectorLoop μ α).next s outcome = s' := by
      show (s.step outcome).getD s = s'
      rw [stepped]
      rfl
    rw [next]
    rcases s.step_relays relays stepped with same | ⟨msg, -, free, took⟩ | ⟨msg, held, passed⟩
    · exact ⟨r, .refl r, same⟩
    · have allowed : (relay μ).legal r (.take msg) := free
      exact ⟨_, (Machine.Reaches.refl r).take allowed, took⟩
    · have allowed : (relay μ).legal r .pass := by simp [relay, held]
      exact ⟨_, (Machine.Reaches.refl r).take allowed, passed⟩

/-- **The connector neither loses, reorders nor repeats messages.** What is written is the front of
what was taken; a further message, one at most, is in hand or in `pending` and is written next; and
when the loop returns, everything it took is written. -/
theorem neither_lost_nor_repeated [DecidableEq α] {s : LoopState μ α}
    (reachable : (connectorLoop μ α).Reachable s) :
    s.written <+: s.taken ∧ s.taken = s.written ++ s.inFlight.toList ∧
      (s.phase.inHand = none ∨ s.pending = none) ∧
      (∀ outcome s', s.step outcome = some s' →
        (s'.written = s.written ∨
          ∃ msg, s.inFlight = some msg ∧ s'.written = s.written ++ [msg]) ∧
        (s'.taken = s.taken ∨
          ∃ msg, outcome = .received msg ∧ s.inFlight = none ∧ s'.taken = s.taken ++ [msg])) ∧
      (s.phase = .returned → s.written = s.taken) := by
  obtain ⟨r, -, relays⟩ := connector_relays reachable
  refine ⟨?_, ?_, relays.orderly.alone, fun outcome s' stepped => ?_, fun returned => ?_⟩
  · rw [relays.written, relays.taken]
    exact r.passed_prefix
  · rw [relays.taken, relays.written, relays.held]
    exact r.accounted
  · rcases s.step_relays relays stepped with same | ⟨msg, rfl, free, took⟩ | ⟨msg, held, passed⟩
    · exact ⟨Or.inl (same.written.trans relays.written.symm),
        Or.inl (same.taken.trans relays.taken.symm)⟩
    · rw [Relay.next_take free] at took
      refine ⟨Or.inl (took.written.trans relays.written.symm),
        Or.inr ⟨msg, rfl, relays.held.trans free, ?_⟩⟩
      rw [took.taken, relays.taken]
      rfl
    · refine ⟨Or.inr ⟨msg, relays.held.trans held, ?_⟩,
        Or.inl (passed.taken.trans relays.taken.symm)⟩
      rw [passed.written, relays.written]
      exact Relay.pass_passed held
  · have free : s.inFlight = none := by
      rw [LoopState.inFlight, relays.orderly.pending (returned ▸ id), returned]
      rfl
    rw [relays.written, relays.taken]
    exact Relay.all_passed (relays.held.symm.trans free)

/-- The successor is not up yet, its connection breaks in the middle of the second message, it is
replaced, and the outbox is closed. -/
def interrupted : List (Outcome Nat Nat) :=
  [.received 7, .connected false, .elapsed, .connected true, .handshaken true, .wrote true,
    .received 8, .wrote false, .connected true, .handshaken false, .elapsed, .connected false,
    .retarget 2, .connected true, .handshaken true, .wrote true, .peerClosed, .connected false,
    .elapsed, .connected true, .handshaken true, .received 9, .wrote true, .closed]

theorem neither_lost_nor_repeated_interrupted :
    ((connectorLoop Nat Nat).run (.new 1) interrupted).written = [7, 8, 9] ∧
      ((connectorLoop Nat Nat).run (.new 1) interrupted).written =
        ((connectorLoop Nat Nat).run (.new 1) interrupted).taken := by
  have delivered := neither_lost_nor_repeated (Machine.reachable_run
    (show (connectorLoop Nat Nat).start (.new 1) from ⟨1, rfl⟩)
    (show (connectorLoop Nat Nat).LegalRun (.new 1) interrupted by decide))
  exact ⟨by decide, delivered.2.2.2.2 rfl⟩

end Transport

end TrainsRing
