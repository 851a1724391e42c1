/-
**State transfer on the wire** (`trains-net/src/snapshot.rs`).

The server writes a snapshot and a tail of frames, each behind its length and the tail behind its
count. The client refuses a length or a count above its limits before it reads what follows.

* `handleOne` — the bytes of a response; `fetchState` — how the client reads them.
* `StateTransfer.violation` — the first limit that a transfer violates, in the order of the stream.
* `reads_fetchState` — **the response is a format**, put together from its parts.
* `state_transfer_exact` — **the round trip is exact**, at the limits and under truncation.
-/

import TrainsRing.Library.Reader

namespace TrainsRing

namespace Transport

open Reader

/-! ### Data -/

/-- A `Vec`, of no more than `isize::MAX` bytes. -/
abbrev Vec (α : Type) := {items : List α // items.length < 2 ^ 63}

/-- `len() as u64`. -/
def Vec.len {α : Type} (v : Vec α) : UInt64 := UInt64.ofNat v.val.length

@[simp]
theorem Vec.toNat_len {α : Type} (v : Vec α) : (Vec.len v).toNat = v.val.length := by
  have small := v.property
  rw [Vec.len, UInt64.toNat_ofNat']
  omega

/-- The kinds of `io::Error` that a stream that has ended gives. -/
inductive ErrorKind where
  | unexpectedEof
  deriving DecidableEq

inductive SnapshotError where
  | io (kind : ErrorKind)
  | tooLarge (len : UInt64)
  | frameTooLarge (len : UInt64)
  | tooManyFrames (count : UInt64)
  deriving DecidableEq

/-- `MAX_SNAPSHOT_LEN`. -/
def maxSnapshotLen : UInt64 := (1 : UInt64) <<< 30

/-- `MAX_TAIL_FRAME_LEN`. -/
def maxTailFrameLen : UInt64 := (1 : UInt64) <<< 26

/-- `MAX_TAIL_FRAMES`. -/
def maxTailFrames : UInt64 := (1 : UInt64) <<< 24

@[ext]
structure StateTransfer where
  snapshot : Vec UInt8
  tail : Vec (Vec UInt8)
  deriving DecidableEq

/-! ### The server -/

/-- `to_be_bytes`. -/
def toBeBytes (value : UInt64) : List UInt8 := bigEndian 8 value.toNat

/-- `handle_one`, from the transfer on: the response. -/
def handleOne (st : StateTransfer) : List UInt8 :=
  let written := toBeBytes (Vec.len st.snapshot)
  let written := written ++ st.snapshot.val
  let framed := toBeBytes (Vec.len st.tail)
  let framed := st.tail.val.foldl
    (fun framed frame => framed ++ toBeBytes (Vec.len frame) ++ frame.val) framed
  written ++ framed

/-! ### The client -/

/-- The end of the stream, in `read_exact`. -/
def eof : SnapshotError := .io .unexpectedEof

/-- `from_be_bytes`. -/
def fromBeBytes (bytes : List.Vector UInt8 8) : UInt64 := UInt64.ofNat (ofBigEndian bytes.toList)

/-- `read_u64`. -/
def readU64 : Reader SnapshotError UInt64 := do
  let bytes ← Reader.take eof 8
  pure (fromBeBytes bytes)

/-- `read_lp_blob`, for a limit that can be allocated. -/
def readLpBlob (max : UInt64) (allocatable : max.toNat < 2 ^ 63)
    (tooLarge : UInt64 → SnapshotError) : Reader SnapshotError (Vec UInt8) := do
  let len ← readU64
  if excess : max < len then throw (tooLarge len)
  else
    let buf ← Reader.take eof len.toNat
    pure ⟨buf.toList, by
      rw [buf.toList_length]
      exact (UInt64.le_iff_toNat_le.mp (UInt64.not_lt.mp excess)).trans_lt allocatable⟩

/-- `fetch_state`: the frames of the tail, after their count. -/
def readTail (nTail : UInt64) : Reader SnapshotError (Vec (Vec UInt8)) :=
  if excess : maxTailFrames < nTail then throw (.tooManyFrames nTail)
  else do
    let tail ← (readLpBlob maxTailFrameLen (by decide) .frameTooLarge).times nTail.toNat
    pure ⟨tail.toList, by
      rw [tail.toList_length]
      exact (UInt64.le_iff_toNat_le.mp (UInt64.not_lt.mp excess)).trans_lt (by decide)⟩

/-- `fetch_state`, from its request on: the response. -/
def fetchState : Reader SnapshotError StateTransfer := do
  let snapshot ← readLpBlob maxSnapshotLen (by decide) .tooLarge
  let nTail ← readU64
  let tail ← readTail nTail
  pure ⟨snapshot, tail⟩

/-! ### The parts of a response -/

/-- A blob behind its length. -/
def lpBlob (blob : Vec UInt8) : List UInt8 := toBeBytes (Vec.len blob) ++ blob.val

theorem handleOne_eq (st : StateTransfer) : handleOne st =
    lpBlob st.snapshot ++ (toBeBytes (Vec.len st.tail) ++ st.tail.val.flatMap lpBlob) := by
  have framed : ∀ (frames : List (Vec UInt8)) (front : List UInt8),
      frames.foldl (fun framed frame => framed ++ toBeBytes (Vec.len frame) ++ frame.val) front =
        front ++ frames.flatMap lpBlob := by
    intro frames
    induction frames with
    | nil => exact fun front => (List.append_nil front).symm
    | cons frame rest ih =>
      intro front
      rw [List.foldl_cons, ih]
      simp [lpBlob]
  unfold handleOne
  dsimp only
  rw [framed]
  rfl

theorem reads_u64 : Reads eof readU64 toBeBytes (fun _ => True) (fun _ => none) := by
  have back : ∀ bytes : List.Vector UInt8 8, toBeBytes (fromBeBytes bytes) = bytes.toList := by
    intro bytes
    have length : bytes.toList.length = 8 := bytes.toList_length
    have fits := ofBigEndian_lt bytes.toList
    rw [length] at fits
    have value : (fromBeBytes bytes).toNat = ofBigEndian bytes.toList :=
      UInt64.toNat_ofNat_of_lt' fits
    have written := bigEndian_ofBigEndian bytes.toList
    rw [length] at written
    rw [toBeBytes, value, written]
  have front : ∀ value : UInt64, ∃ bytes : List.Vector UInt8 8, True ∧ fromBeBytes bytes = value := by
    intro value
    refine ⟨⟨toBeBytes value, length_bigEndian 8 _⟩, trivial, ?_⟩
    have read : ofBigEndian (toBeBytes value) = value.toNat :=
      ofBigEndian_bigEndian (value.toNat_lt.trans_eq (by decide))
    show UInt64.ofNat (ofBigEndian (toBeBytes value)) = value
    rw [read, UInt64.ofNat_toNat]
  unfold readU64
  rw [bind_pure_comp]
  exact (reads_take eof 8).map fromBeBytes (fun bytes _ => ⟨trivial, back bytes, rfl⟩)
    fun value _ => front value

/-- The length limit of a blob. -/
def blobViolation (max : UInt64) (tooLarge : UInt64 → SnapshotError) (blob : Vec UInt8) :
    Option SnapshotError :=
  if max < Vec.len blob then some (tooLarge (Vec.len blob)) else none

theorem reads_lpBlob (max : UInt64) (allocatable : max.toNat < 2 ^ 63)
    (tooLarge : UInt64 → SnapshotError) :
    Reads eof (readLpBlob max allocatable tooLarge) lpBlob (fun _ => True)
      (blobViolation max tooLarge) := by
  -- what follows a length within the limit
  have body : ∀ len : UInt64, Reads eof
      (if excess : max < len then throw (tooLarge len)
        else do
          let buf ← Reader.take eof len.toNat
          pure (⟨buf.toList, by
            rw [buf.toList_length]
            exact (UInt64.le_iff_toNat_le.mp (UInt64.not_lt.mp excess)).trans_lt allocatable⟩ :
            Vec UInt8))
      (fun blob => blob.val) (fun blob => True ∧ Vec.len blob = len)
      (fun blob => if max < len then some (tooLarge len) else none) := by
    intro len
    refine Reads.guarded fun within => ?_
    rw [bind_pure_comp]
    refine (reads_take eof len.toNat).map _ (fun buf _ => ⟨⟨trivial, ?_⟩, rfl, rfl⟩) ?_
    · rw [← UInt64.toNat_inj, Vec.toNat_len]
      exact buf.toList_length
    · rintro blob ⟨-, rfl⟩
      exact ⟨⟨blob.val, (Vec.toNat_len blob).symm⟩, trivial, rfl⟩
  refine (reads_u64.bind Vec.len fun len _ => (body len).congr (fun _ => Iff.rfl)
    (fun _ _ => rfl) fun blob inside => ?_).congr (fun _ => and_self_iff) (fun _ _ => rfl)
    fun _ _ => rfl
  rw [← inside.2]

/-- The limits of a tail: the number of frames, then the length of each. -/
def tailViolation (tail : Vec (Vec UInt8)) : Option SnapshotError :=
  if maxTailFrames < Vec.len tail then some (.tooManyFrames (Vec.len tail))
  else tail.val.findSome? (blobViolation maxTailFrameLen .frameTooLarge)

theorem reads_tail (nTail : UInt64) :
    Reads eof (readTail nTail) (fun tail => tail.val.flatMap lpBlob)
      (fun tail => True ∧ Vec.len tail = nTail) tailViolation := by
  have frames := (reads_lpBlob maxTailFrameLen (by decide) .frameTooLarge).times nTail.toNat
  unfold readTail
  refine (Reads.guarded fun within => ?_).congr (fun _ => Iff.rfl) (fun _ _ => rfl)
    fun tail inside => (?_ : (if maxTailFrames < nTail then some (.tooManyFrames nTail)
      else tail.val.findSome? (blobViolation maxTailFrameLen .frameTooLarge)) = _)
  · rw [bind_pure_comp]
    refine frames.map _ (fun tail _ => ⟨⟨trivial, ?_⟩, rfl, rfl⟩) ?_
    · rw [← UInt64.toNat_inj, Vec.toNat_len]
      exact tail.toList_length
    · rintro tail ⟨-, rfl⟩
      exact ⟨⟨tail.val, (Vec.toNat_len tail).symm⟩, trivial, rfl⟩
  · rw [← inside.2]
    rfl

/-- The first limit that a transfer violates. -/
def StateTransfer.violation (st : StateTransfer) : Option SnapshotError :=
  (blobViolation maxSnapshotLen .tooLarge st.snapshot).or (tailViolation st.tail)

/-- **The response is a format.** -/
theorem reads_fetchState :
    Reads eof fetchState handleOne (fun _ => True) StateTransfer.violation := by
  -- what follows the snapshot, and what follows the count
  have rest : ∀ (snapshot : Vec UInt8) (nTail : UInt64), Reads eof
      (do
        let tail ← readTail nTail
        pure (⟨snapshot, tail⟩ : StateTransfer))
      (fun st => st.tail.val.flatMap lpBlob)
      (fun st => st.snapshot = snapshot ∧ Vec.len st.tail = nTail)
      (fun st => tailViolation st.tail) := by
    intro snapshot nTail
    rw [bind_pure_comp]
    refine (reads_tail nTail).map _ (fun tail inside => ⟨⟨rfl, inside.2⟩, rfl, rfl⟩) ?_
    rintro ⟨snapshot, tail⟩ ⟨rfl, rfl⟩
    exact ⟨tail, ⟨trivial, rfl⟩, rfl⟩
  have counted : ∀ snapshot : Vec UInt8, Reads eof
      (do
        let nTail ← readU64
        let tail ← readTail nTail
        pure (⟨snapshot, tail⟩ : StateTransfer))
      (fun st => toBeBytes (Vec.len st.tail) ++ st.tail.val.flatMap lpBlob)
      (fun st => True ∧ st.snapshot = snapshot) (fun st => tailViolation st.tail) :=
    fun snapshot => reads_u64.bind (fun st : StateTransfer => Vec.len st.tail) fun nTail _ =>
      rest snapshot nTail
  exact ((reads_lpBlob maxSnapshotLen (by decide) .tooLarge).bind
    (fun st : StateTransfer => st.snapshot) fun snapshot _ => counted snapshot).congr
    (fun _ => and_self_iff) (fun st _ => (handleOne_eq st).symm) fun _ _ => rfl

/-- The first frame above the limit is the one that is refused. -/
theorem findSome_blobViolation (frames : List (Vec UInt8)) :
    frames.findSome? (blobViolation maxTailFrameLen .frameTooLarge) =
      (frames.find? fun frame => maxTailFrameLen < Vec.len frame).map
        fun frame => .frameTooLarge (Vec.len frame) := by
  induction frames with
  | nil => rfl
  | cons frame rest ih =>
    rw [List.findSome?_cons, List.find?_cons, ih]
    by_cases excess : maxTailFrameLen < Vec.len frame
    · simp [blobViolation, excess]
    · simp [blobViolation, excess]

/-- **State transfer is an exact round trip.** The client reads back what the server writes, whatever
follows it, or fails with the first limit violated in the order of the stream; what it accepts is what
the server writes; and a stream that ends early is an `Io` error. -/
theorem state_transfer_exact :
    (∀ (st : StateTransfer) (rest : List UInt8), fetchState (handleOne st ++ rest) =
      if maxSnapshotLen < Vec.len st.snapshot then .error (.tooLarge (Vec.len st.snapshot))
      else if maxTailFrames < Vec.len st.tail then .error (.tooManyFrames (Vec.len st.tail))
      else match st.tail.val.find? fun frame => maxTailFrameLen < Vec.len frame with
        | some frame => .error (.frameTooLarge (Vec.len frame))
        | none => .ok (st, rest)) ∧
    ∀ (bytes : List UInt8) (st : StateTransfer) (rest : List UInt8),
      fetchState bytes = .ok (st, rest) → bytes = handleOne st ++ rest ∧
        ∀ front, front <+: handleOne st → front ≠ handleOne st →
          fetchState front = .error (.io .unexpectedEof) := by
  refine ⟨fun st rest => ?_, fun bytes st rest ok => ?_⟩
  · rw [reads_fetchState.written st rest trivial, StateTransfer.violation, blobViolation,
      tailViolation, findSome_blobViolation]
    by_cases large : maxSnapshotLen < Vec.len st.snapshot
    · rw [if_pos large, if_pos large]
      rfl
    by_cases many : maxTailFrames < Vec.len st.tail
    · rw [if_neg large, if_neg large, if_pos many, if_pos many]
      rfl
    rw [if_neg large, if_neg large, if_neg many, if_neg many]
    cases st.tail.val.find? (fun frame => decide (maxTailFrameLen < Vec.len frame)) with
    | none => rfl
    | some frame => rfl
  · obtain ⟨-, passes, split⟩ := reads_fetchState.only ok
    exact ⟨split, fun front isFront short => reads_fetchState.cut trivial passes isFront short⟩

/-- A snapshot and two frames, one of them empty. -/
def smallTransfer : StateTransfer :=
  ⟨⟨[1, 2, 3], by decide⟩, ⟨[⟨[], by decide⟩, ⟨[7], by decide⟩], by decide⟩⟩

theorem state_transfer_exact_small :
    fetchState (handleOne smallTransfer ++ [9]) = .ok (smallTransfer, [9]) ∧
      fetchState ((handleOne smallTransfer).take 30) = .error (.io .unexpectedEof) := by
  have read : fetchState (handleOne smallTransfer ++ [9]) = .ok (smallTransfer, [9]) := by
    rw [state_transfer_exact.1]
    decide
  exact ⟨read, (state_transfer_exact.2 _ _ _ read).2 _ (List.take_prefix ..) (by decide)⟩

end Transport

end TrainsRing
