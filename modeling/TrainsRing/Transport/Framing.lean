/-
**The byte stream of a ring link** (`trains-net/src/codec.rs`).

A frame is the length of a body, as four bytes, and the body. What bincode makes of a body when it
reads it is a parameter.

* `readMsg` — one frame read and decoded; `readFrame` — its bytes.
* `readMsg_parses` — **the frame of a message is read back**, whatever follows it.
* `header_accepted_iff` — the reader and the writer have the same limit.
* `stream_read_back` — **the stream is read back as the messages written**, also when it ends early.
-/

import TrainsRing.Driver.Codec
import TrainsRing.Transport.StateTransfer

namespace TrainsRing

namespace Transport

open Reader

variable {cfg : RingConfig} {δ : Type}

/-! ### The reader -/

/-- The errors of `read_msg`; `δ` are those of bincode. -/
inductive ReadError (δ : Type) where
  | io (kind : ErrorKind)
  | decode (error : δ)
  | frameTooLarge (len : Nat)
  deriving DecidableEq

/-- The end of the stream, in `read_exact`. -/
def streamEnd : ReadError δ := .io .unexpectedEof

/-- `decode_from_slice`: a message and the number of bytes it took. -/
abbrev Decoder (cfg : RingConfig) (δ : Type) := List UInt8 → Except δ (WireMsg cfg × Nat)

/-- `read_msg`, from the length to the body of the frame. -/
def readBody (limit : FrameLimit) (len : Nat) : Reader (ReadError δ) (List UInt8) :=
  if limit.maxFrameLen < len then throw (.frameTooLarge len)
  else do
    let body ← Reader.take streamEnd len
    pure body.toList

/-- `read_msg`, from the body on: the number of bytes that bincode took does not matter. -/
def decodeBody (decode : Decoder cfg δ) (body : List UInt8) : Reader (ReadError δ) (WireMsg cfg) :=
  match decode body with
  | .ok (msg, _) => pure msg
  | .error error => throw (.decode error)

/-- `read_msg`. -/
def readMsg (limit : FrameLimit) (decode : Decoder cfg δ) : Reader (ReadError δ) (WireMsg cfg) := do
  let lenBuf ← Reader.take streamEnd 4
  let body ← readBody limit (ofBigEndian lenBuf.toList)
  decodeBody decode body

/-! ### One frame -/

/-- `encode_msg`, its checks: the length of a body that has a frame. -/
def checkedLen (limit : FrameLimit) (body : List UInt8) : Except CodecError Nat :=
  if u32Max < body.length then .error (.frameTooLarge u32Max)
  else if limit.maxFrameLen < body.length then .error (.frameTooLarge body.length)
  else .ok body.length

theorem checkedLen_ok {limit : FrameLimit} {body : List UInt8} {len : Nat} :
    checkedLen limit body = .ok len ↔ body.length = len ∧ len ≤ limit.maxFrameLen := by
  have fits : limit.maxFrameLen ≤ u32Max := limit.fits
  unfold checkedLen
  split_ifs with huge large
  · refine iff_of_false (fun refused => by cases refused) ?_
    omega
  · refine iff_of_false (fun refused => by cases refused) ?_
    omega
  · rw [Except.ok.injEq]
    omega

theorem reverse_littleEndian (count value : Nat) :
    (littleEndian count value).reverse = bigEndian count value := by
  induction count generalizing value with
  | zero => rfl
  | succ count ih => rw [littleEndian, List.reverse_cons, ih, bigEndian]

/-- A frame: the length that the checks let through, and the body. -/
theorem encodeMsg_eq (bincode : Bincode cfg) (limit : FrameLimit) (msg : WireMsg cfg) :
    encodeMsg bincode limit msg = (checkedLen limit (bincode.wireMsg msg)).map
      fun len => bigEndian 4 len ++ bincode.wireMsg msg := by
  unfold encodeMsg checkedLen
  dsimp only
  rw [reverse_littleEndian]
  split_ifs <;> rfl

theorem encodeMsg_ok {bincode : Bincode cfg} {limit : FrameLimit} {msg : WireMsg cfg}
    {frame : List UInt8} (encoded : encodeMsg bincode limit msg = .ok frame) :
    (bincode.wireMsg msg).length ≤ limit.maxFrameLen ∧
      bigEndian 4 (bincode.wireMsg msg).length ++ bincode.wireMsg msg = frame := by
  rw [encodeMsg_eq] at encoded
  cases checked : checkedLen limit (bincode.wireMsg msg) with
  | error refusal =>
    rw [checked] at encoded
    cases encoded
  | ok len =>
    rw [checked] at encoded
    obtain ⟨rfl, within⟩ := checkedLen_ok.mp checked
    exact ⟨within, Except.ok.inj encoded⟩

/-- A body that keeps the limit. -/
theorem readBody_parses {limit : FrameLimit} {body : List UInt8}
    (within : body.length ≤ limit.maxFrameLen) :
    Parses streamEnd (readBody limit body.length : Reader (ReadError δ) _) body body := by
  have taken : Parses streamEnd (Reader.take (streamEnd : ReadError δ) body.length) body
      ⟨body, rfl⟩ := (reads_take streamEnd body.length).parses (a := ⟨body, rfl⟩) trivial rfl
  have whole : Parses streamEnd (Reader.take (streamEnd : ReadError δ) body.length >>= fun body =>
      pure body.toList) (body ++ []) body := taken.bind (parses_pure streamEnd body)
  rw [List.append_nil] at whole
  unfold readBody
  rwa [if_neg (not_lt.mpr within)]

/-- **The frame of a message is read back.** -/
theorem readMsg_parses {bincode : Bincode cfg} {limit : FrameLimit} {decode : Decoder cfg δ}
    {msg : WireMsg cfg} {frame : List UInt8} (encoded : encodeMsg bincode limit msg = .ok frame)
    {taken : Nat} (decodes : decode (bincode.wireMsg msg) = .ok (msg, taken)) :
    Parses streamEnd (readMsg limit decode) frame msg := by
  obtain ⟨within, rfl⟩ := encodeMsg_ok encoded
  have fits : limit.maxFrameLen ≤ u32Max := limit.fits
  have length : ofBigEndian (bigEndian 4 (bincode.wireMsg msg).length) =
      (bincode.wireMsg msg).length :=
    ofBigEndian_bigEndian (within.trans_lt (fits.trans_lt (by decide)))
  have header : Parses streamEnd (Reader.take (streamEnd : ReadError δ) 4)
      (bigEndian 4 (bincode.wireMsg msg).length) ⟨_, length_bigEndian 4 _⟩ :=
    (reads_take streamEnd 4).parses (a := ⟨_, length_bigEndian 4 _⟩) trivial rfl
  have decoded : Parses streamEnd (decodeBody decode (bincode.wireMsg msg)) [] msg := by
    unfold decodeBody
    rw [decodes]
    exact parses_pure streamEnd msg
  have body := (readBody_parses within).bind decoded
  rw [List.append_nil, ← length] at body
  unfold readMsg
  exact header.bind body

/-- After the header. -/
theorem readMsg_header {limit : FrameLimit} {decode : Decoder cfg δ} {header : List UInt8}
    (four : header.length = 4) (rest : List UInt8) : readMsg limit decode (header ++ rest) =
      (readBody limit (ofBigEndian header) >>= decodeBody decode) rest := by
  have taken : Reader.take (streamEnd : ReadError δ) 4 (header ++ rest) =
      .ok (⟨header, four⟩, rest) :=
    (reads_take streamEnd 4).accepts (a := ⟨header, four⟩) trivial rfl rest
  unfold readMsg
  rw [bind_run, taken]
  rfl

/-- **Only the length in the header is too large**, whatever follows it. -/
theorem readMsg_frameTooLarge_iff {limit : FrameLimit} {decode : Decoder cfg δ}
    {header : List UInt8} (four : header.length = 4) (rest : List UInt8) (len : Nat) :
    readMsg limit decode (header ++ rest) = .error (.frameTooLarge len) ↔
      limit.maxFrameLen < ofBigEndian header ∧ ofBigEndian header = len := by
  rw [readMsg_header four, bind_run]
  unfold readBody
  by_cases excess : limit.maxFrameLen < ofBigEndian header
  · rw [if_pos excess]
    show (.error (.frameTooLarge _) : Except (ReadError δ) (WireMsg cfg × _)) = _ ↔ _
    simp [excess]
  · refine iff_of_false (fun refused => ?_) fun large => excess large.1
    rw [if_neg excess, bind_run] at refused
    unfold Reader.take at refused
    split_ifs at refused with enough
    · -- the body is there: only bincode may refuse it
      change decodeBody decode (rest.take (ofBigEndian header)) _ = _ at refused
      unfold decodeBody at refused
      cases decoded : decode (rest.take (ofBigEndian header)) with
      | ok result =>
        rw [decoded] at refused
        cases refused
      | error error =>
        rw [decoded] at refused
        cases refused
    · cases refused

/-- **The limit of the reader is the limit of the writer.** -/
theorem header_accepted_iff (limit : FrameLimit) (decode : Decoder cfg δ) {header : List UInt8}
    (four : header.length = 4) :
    (∀ rest len, readMsg limit decode (header ++ rest) ≠ .error (.frameTooLarge len)) ↔
      ∃ body : List UInt8, body.length = ofBigEndian header ∧
        checkedLen limit body = .ok body.length := by
  simp only [ne_eq, readMsg_frameTooLarge_iff four, checkedLen_ok]
  constructor
  · intro accepted
    have within := not_lt.mp fun excess => accepted [] _ ⟨excess, rfl⟩
    refine ⟨List.replicate (ofBigEndian header) 0, List.length_replicate, ?_⟩
    simpa using within
  · rintro ⟨body, length, within⟩ rest len ⟨excess, -⟩
    omega

/-! ### The stream -/

/-- **The stream is read back as the messages written.** For messages that are encoded and that
bincode decodes again: `read_msg`, called until it fails, gives all of them and then the end of the
stream; of a stream cut anywhere it gives those whose frames end before the cut, and then the end of
the stream. Its length check accepts a header iff a body of that length passes the one of
`encode_msg`. -/
theorem stream_read_back {bincode : Bincode cfg} {limit : FrameLimit} {decode : Decoder cfg δ}
    {msgs : List (WireMsg cfg)} {frames : List (List UInt8)}
    (encoded : msgs.mapM (encodeMsg bincode limit) = .ok frames)
    (decodes : ∀ msg ∈ msgs, decode (bincode.wireMsg msg) =
      .ok (msg, (bincode.wireMsg msg).length)) :
    (∀ calls, msgs.length < calls → (readMsg limit decode).drain calls frames.flatten =
      (msgs, some (.io .unexpectedEof))) ∧
    (∀ front, front <+: frames.flatten →
      ∃ count, (∀ i < msgs.length,
          i < count ↔ (frames.take (i + 1)).flatten.length ≤ front.length) ∧
        ∀ calls, msgs.length < calls → (readMsg limit decode).drain calls front =
          (msgs.take count, some (.io .unexpectedEof))) ∧
    ∀ header : List UInt8, header.length = 4 →
      ((∀ rest len, readMsg limit decode (header ++ rest) ≠ .error (.frameTooLarge len)) ↔
        ∃ body : List UInt8, body.length = ofBigEndian header ∧
          checkedLen limit body = .ok body.length) := by
  have parses : List.Forall₂ (Parses streamEnd (readMsg limit decode)) frames msgs := by
    have both := (List.forall₂_and_left (p := fun msg => decode (bincode.wireMsg msg) =
      .ok (msg, (bincode.wireMsg msg).length)) msgs frames).mpr ⟨decodes, mapM_ok.mp encoded⟩
    exact (both.imp fun msg frame each => readMsg_parses each.2 each.1).flip
  have starved : readMsg limit decode [] = .error streamEnd := rfl
  refine ⟨fun calls enough => ?_, fun front isFront => drain_prefix starved parses isFront,
    fun header four => header_accepted_iff limit decode four⟩
  obtain ⟨count, upto, read⟩ := drain_prefix starved parses (List.prefix_refl frames.flatten)
  have all : msgs.length ≤ count := by
    by_contra few
    have within := ((List.take_prefix (count + 1) frames).flatten).length_le
    exact lt_irrefl count ((upto count (not_le.mp few)).mpr within)
  rw [read calls enough, List.take_of_length_le all]
  rfl

/-- Two trains of three processes, the first with a payload. -/
def twoTrains : List (WireMsg .triple) :=
  [.train ⟨0, 1, [⟨2, 0, [1, 2]⟩], 5#32⟩, .train ⟨1, 300, [], 0#32⟩]

/-- What bincode makes of the bodies of these two. -/
def decodeTwoTrains : Decoder .triple Unit := fun bytes =>
  match twoTrains.find? fun msg => (Bincode.standard .triple).wireMsg msg = bytes with
  | some msg => .ok (msg, bytes.length)
  | none => .error ()

theorem stream_read_back_triple :
    (readMsg .default decodeTwoTrains).drain 3
      ([0, 0, 0, 10, 0, 0, 1, 1, 2, 0, 2, 1, 2, 5] ++ [0, 0, 0, 7, 0, 1, 251, 44, 1, 0, 0]) =
        (twoTrains, some (.io .unexpectedEof)) := by
  have decodes : ∀ msg ∈ twoTrains, decodeTwoTrains ((Bincode.standard .triple).wireMsg msg) =
      .ok (msg, ((Bincode.standard .triple).wireMsg msg).length) := by
    rintro msg (_ | ⟨_, _ | ⟨_, member⟩⟩)
    · rfl
    · rfl
    · cases member
  have read := (@stream_read_back .triple Unit (.standard .triple) .default decodeTwoTrains twoTrains
    [[0, 0, 0, 10, 0, 0, 1, 1, 2, 0, 2, 1, 2, 5], [0, 0, 0, 7, 0, 1, 251, 44, 1, 0, 0]]
    (by decide) decodes).1
  exact read 3 (by decide)

end Transport

end TrainsRing
