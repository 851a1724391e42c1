/-
**A joiner that installs a snapshot** (`export_state`, `import_state`).

The snapshot holds the clocks, the done keys, the crash mask and the floor, and not the parked trains.
Below the smallest parked key the joiner does what its source does. At that key it stands still for
ever, unless the key's train comes again.

* `TrainsNode.joined` — a fresh node that has imported what the source exports.
* `Portable` — the snapshot lacks nothing: the parked trains stay parked, or nobody hears of them.
* `Coupled` — source and joiner agree below the smallest parked key; `Coupled.receive` is the step.
* `deliverOutputs_of_portable` — **the joiner of a portable source delivers what its source delivers.**
-/

import TrainsRing.Interface.Since

namespace TrainsRing

variable {cfg : RingConfig}

namespace TrainsNode

/-- A fresh node that has imported the state of the source. -/
def joined (source : TrainsNode cfg) (id : Nat) (id_lt : id < cfg.ringSize) : TrainsNode cfg :=
  (TrainsNode.new cfg id id_lt source.delivery.mode).importState source.exportState

/-- A key below every parked one. -/
def Low (source : TrainsNode cfg) (key : ClockKey) : Prop :=
  ∀ other held, source.parked.get? other = some held → key < other

/-- The snapshot lacks nothing that can matter. Where the smallest parked train can become deliverable,
its issuer is gone, so the joiner stays before it; and from its key on nothing that can become
deliverable carries a payload: neither a parked train nor one that may still come in. -/
def Portable (gone : Nat → Prop) (source : TrainsNode cfg) : Prop :=
  ∀ first held, source.parked.min? = some (first, held) → Ripe gone source first →
    gone first.issuer ∧ ∀ key, first ≤ key → Ripe gone source key →
      key ∉ source.delivery.doneKeys →
        (∀ waiting, source.parked.get? key = some waiting → waiting.payloads = []) ∧
        (source.parked.get? key = none → gone key.issuer ∨ cfg.ringSize ≤ key.issuer)

section Joined

variable (source : TrainsNode cfg) {id : Nat} (id_lt : id < cfg.ringSize)

theorem joined_clockState : (source.joined id id_lt).clockState = source.clockState := by
  exact congrArg ClockState.mk (Slots.ext_get fun q inside => Slots.get_ofFn _ inside)

theorem joined_seenClock (q : Nat) : (source.joined id id_lt).seenClock q = source.seenClock q :=
  congrArg (fun state : ClockState cfg => state.lastSeen q) (source.joined_clockState id_lt)

theorem joined_unparked (key : ClockKey) : (source.joined id id_lt).parked.get? key = none := by
  simp [joined, importState]

theorem joined_holds_nothing {key : ClockKey} {held : Train} :
    (source.joined id id_lt).parked.get? key ≠ some held := by
  rw [joined_unparked]
  exact Option.some_ne_none held ∘ Eq.symm

theorem joined_settled {key : ClockKey} (settled : (source.joined id id_lt).Settled key) :
    key ∈ source.delivery.doneKeys := by
  rcases settled with done | ⟨held, found⟩
  · exact done
  · exact absurd found (source.joined_holds_nothing id_lt)

theorem joined_known {key : ClockKey} : (source.joined id id_lt).Known key ↔ source.Known key := by
  unfold Known
  rw [joined_seenClock]

/-- **A joiner of a plain node is plain.** -/
theorem Plain.joined {source : TrainsNode cfg} (plain : source.Plain) {id : Nat}
    (id_lt : id < cfg.ringSize) : (source.joined id id_lt).Plain := by
  refine ⟨⟨⟨fun key held found => ?_, fun key held found => ?_⟩, fun _ key held smallest => ?_,
    fun key done => ?_⟩, rfl, plain.uncrashed, plain.floor,
    fun key settled => plain.positive key (Or.inl (source.joined_settled id_lt settled)),
    fun key settled => plain.able key (Or.inl (source.joined_settled id_lt settled))⟩
  · exact absurd found (source.joined_holds_nothing id_lt)
  · exact absurd found (source.joined_holds_nothing id_lt)
  · have found := (OrdMap.min?_eq_some smallest).1
    exact absurd found (source.joined_holds_nothing id_lt)
  · rw [joined_seenClock]
    exact plain.settling.seen key done

/-- What is ripe at the joiner is ripe at the source. -/
theorem Ripe.of_joined {source : TrainsNode cfg} {id : Nat} {id_lt : id < cfg.ringSize}
    {gone : Nat → Prop} {key : ClockKey} (ripe : Ripe gone (source.joined id id_lt) key) :
    Ripe gone source key := by
  refine ⟨fun q isGone issues => ?_, fun other isGone known below => ?_⟩
  · rw [← source.joined_seenClock id_lt]
    exact ripe.caughtUp q isGone issues
  · exact Or.inl (source.joined_settled id_lt
      (ripe.below other isGone ((source.joined_known id_lt).mpr known) below))

end Joined

/-- What holds a key back holds back every larger one. -/
theorem Ripe.mono {gone : Nat → Prop} {origin : TrainsNode cfg} {key smaller : ClockKey}
    (ripe : Ripe gone origin key) (below : smaller ≤ key) : Ripe gone origin smaller :=
  ⟨fun q isGone issues => (ClockKey.clock_le_of_le below).trans (ripe.caughtUp q isGone issues),
    fun other isGone known less => ripe.below other isGone known (less.trans_le below)⟩

/-- A key that is not low has the smallest parked one at or below it. -/
theorem min_of_not_low {source : TrainsNode cfg} {key : ClockKey} (high : ¬ source.Low key) :
    ∃ first held, source.parked.min? = some (first, held) ∧ first ≤ key := by
  simp only [Low, not_forall, not_lt] at high
  obtain ⟨other, waiting, found, below⟩ := high
  cases smallest : source.parked.min? with
  | none =>
    rw [OrdMap.min?_eq_none.mp smallest other] at found
    cases found
  | some head =>
    exact ⟨head.1, head.2, rfl, ((OrdMap.min?_eq_some smallest).2 other waiting found).trans below⟩

/-! ### The joiner stands still -/

section Coupling

variable {gone : Nat → Prop} {source : TrainsNode cfg} {id : Nat} {id_lt : id < cfg.ringSize}

/-- The trains of issuers that are not gone. -/
abbrev Coming (gone : Nat → Prop) (train : Train) : Prop := ¬ gone train.issuer

/-- **Where the issuer of the smallest parked key is gone, the joiner never gets past that key.** -/
theorem open_from_first (plain : source.Plain) {first : ClockKey} {held : Train}
    (smallest : source.parked.min? = some (first, held)) (isGone : gone first.issuer)
    {b : TrainsNode cfg} (since : Since gone (Coming gone) (source.joined id id_lt) b)
    {key : ClockKey} (fresh : key ∉ source.delivery.doneKeys) (above : first ≤ key) :
    key ∉ b.delivery.doneKeys := by
  intro done
  obtain ⟨waiting, -⟩ := OrdMap.min?_eq_some smallest
  have undone := plain.settling.tidy.apart first held waiting
  obtain ⟨-, earlier⟩ := (since.recorded key done).resolve_left fresh
  have first_done : first ∈ b.delivery.doneKeys := by
    rcases above.lt_or_eq with less | rfl
    · refine earlier first ((source.joined_known id_lt).mpr ⟨?_, ?_⟩) less
      · exact plain.positive first (Or.inr ⟨held, waiting⟩)
      · exact (plain.settling.tidy.seen first held waiting).2
    · exact done
  rcases since.settled first (Or.inl first_done) with old | ⟨train, coming, -, rfl⟩
  · exact undone (source.joined_settled id_lt old)
  · exact coming isGone

/-- **The joiner of a portable source records low keys only.** -/
theorem low_of_done (plain : source.Plain) (portable : Portable gone source) {b : TrainsNode cfg}
    (since : Since gone (Coming gone) (source.joined id id_lt) b) {key : ClockKey}
    (done : key ∈ b.delivery.doneKeys) : key ∈ source.delivery.doneKeys ∨ source.Low key := by
  by_contra neither
  obtain ⟨fresh, high⟩ := not_or.mp neither
  obtain ⟨first, held, smallest, above⟩ := min_of_not_low high
  obtain ⟨ripe, -⟩ := (since.recorded key done).resolve_left fresh
  have isGone := (portable first held smallest (ripe.of_joined.mono above)).1
  exact open_from_first plain smallest isGone since fresh above done

/-- **What the source records from the smallest parked key on is silent.** -/
theorem silent_of_high (portable : Portable gone source)
    {a : TrainsNode cfg} (since : Since gone (Coming gone) source a) (own : gone source.id)
    {train : Train} (coming : Coming gone train) {entry : Entry}
    (member : entry ∈ a.handleEntries train) (high : ¬ source.Low entry.1) : entry.2 = [] := by
  obtain ⟨next, records⟩ := since.receive own (fun _ coming => coming) coming
  obtain ⟨fresh, ripe, cargo⟩ := records entry member
  obtain ⟨first, held, smallest, below⟩ := min_of_not_low high
  obtain ⟨-, later⟩ := portable first held smallest (ripe.mono below)
  obtain ⟨silent, absent⟩ := later entry.1 below ripe fun done => fresh (since.advances.done done)
  rcases cargo with ⟨waiting, found, same⟩ | ⟨unsettled, other, comes, -, same⟩
  · rw [same]
    exact silent waiting found
  · have free : source.parked.get? entry.1 = none := by
      by_contra isParked
      exact unsettled (Or.inr (Option.ne_none_iff_exists'.mp isParked))
    rcases absent free with isGone | outside
    · rw [same] at isGone
      exact absurd isGone comes
    · -- nothing of an issuer outside the ring is ever recorded
      have done := a.done_of_recorded member
      have seen := next.plain.settling.seen entry.1 done
      have positive := next.plain.positive entry.1 (Or.inl done)
      have unseen : (a.handleTrain train).1.seenClock entry.1.issuer = 0 :=
        Slots.get_outside _ outside
      omega

/-! ### Below the smallest parked key -/

/-- Source and joiner have received the same trains and agree below the smallest key that was parked
at the source. -/
structure Coupled (gone : Nat → Prop) (source joiner a b : TrainsNode cfg) : Prop where
  left : Since gone (Coming gone) source a
  right : Since gone (Coming gone) joiner b
  clocks : a.clockState = b.clockState
  done : ∀ key, source.Low key → (key ∈ a.delivery.doneKeys ↔ key ∈ b.delivery.doneKeys)
  parked : ∀ key, source.Low key → a.parked.get? key = b.parked.get? key

theorem coupled_joined (plain : source.Plain) :
    Coupled gone source (source.joined id id_lt) source (source.joined id id_lt) where
  left := .refl plain
  right := .refl (plain.joined id_lt)
  clocks := (source.joined_clockState id_lt).symm
  done := fun _ _ => Iff.rfl
  parked := fun key low => by
    rw [joined_unparked]
    by_contra isParked
    obtain ⟨held, found⟩ := Option.ne_none_iff_exists'.mp isParked
    exact absurd (low key held found) (lt_irrefl key)

/-- Without a view change only a train without a clock is stale. -/
theorem Plain.stale_iff {node : TrainsNode cfg} (plain : node.Plain) {train : Train} :
    node.Stale train ↔ train.issuer < cfg.ringSize ∧ train.clock = 0 := by
  unfold Stale
  rw [plain.floor, Nat.le_zero]

/-- A key done at `x'` is done at `y'` too, if it was done before or `y'` has settled it and has done
what `x'` had done below it. -/
theorem done_transfer {x x' y' : TrainsNode cfg} {key : ClockKey} (plain : y'.Plain)
    (seen : ∀ q, y'.seenClock q = x'.seenClock q)
    (recorded : key ∈ x'.delivery.doneKeys → key ∈ x.delivery.doneKeys ∨ x'.Cleared key)
    (old : key ∈ x.delivery.doneKeys → key ∈ y'.delivery.doneKeys)
    (settled : x'.Settled key → y'.Settled key)
    (below : ∀ other, other < key → other ∈ x'.delivery.doneKeys → other ∈ y'.delivery.doneKeys)
    (done : key ∈ x'.delivery.doneKeys) : key ∈ y'.delivery.doneKeys := by
  rcases recorded done with before | cleared
  · exact old before
  · refine plain.done_of_settled (fun q issues => seen q ▸ cleared.caughtUp q issues)
      (fun other known less => Or.inl (below other less ?_)) (settled (Or.inl done))
    exact cleared.below other ⟨known.1, seen other.issuer ▸ known.2⟩ less

/-- What one node records for a train the other records too, where the same trains are parked. -/
theorem entry_transfer {x x' y y' : TrainsNode cfg} {train : Train} {records records' : List Entry}
    (receipt : Receipt x train records x') (receipt' : Receipt y train records' y') {entry : Entry}
    (member : entry ∈ records) (parked : x.parked.get? entry.1 = y.parked.get? entry.1)
    (logged : y'.delivery.doneKeys = y.delivery.doneKeys ∪ (records'.map Prod.fst).toFinset)
    (fresh : entry.1 ∉ y.delivery.doneKeys) (done : entry.1 ∈ y'.delivery.doneKeys) :
    entry ∈ records' := by
  rw [logged, Finset.mem_union, List.mem_toFinset] at done
  obtain ⟨other, member', same⟩ := List.mem_map.mp (done.resolve_left fresh)
  suffices payloads : other.2 = entry.2 from Prod.ext same payloads ▸ member'
  rcases receipt.source entry member with ⟨held, found, cargo⟩ | ⟨free, -, isTrain⟩
  · rcases receipt'.source other member' with ⟨held', found', cargo'⟩ | ⟨free', -⟩
    · rw [same, ← parked, found] at found'
      rw [cargo, cargo', Option.some.inj found']
    · rw [same, ← parked, found] at free'
      cases free'
  · rcases receipt'.source other member' with ⟨held', found', -⟩ | ⟨-, -, isTrain'⟩
    · rw [same, ← parked, free] at found'
      cases found'
    · rw [isTrain, isTrain']

/-! ### One train at both -/

/-- What stays parked at one node stays parked at the other. -/
theorem parked_transfer {x x' y y' : TrainsNode cfg} {train held : Train}
    {records records' : List Entry} {key : ClockKey} (receipt : Receipt x train records x')
    (receipt' : Receipt y train records' y') (tidy : x'.Tidy)
    (takes : x.Takes train → y.Takes train) (parked : x.parked.get? key = y.parked.get? key)
    (done : key ∈ y'.delivery.doneKeys → key ∈ x'.delivery.doneKeys)
    (found : x'.parked.get? key = some held) : y'.parked.get? key = some held := by
  have source := receipt.held key held found
  have settled : y'.Settled key := by
    rcases source with old | ⟨-, taken, same, -⟩
    · exact (receipt'.settled key).mpr (Or.inl (Or.inr ⟨held, parked ▸ old⟩))
    · exact (receipt'.settled key).mpr (Or.inr ⟨takes taken, same⟩)
  obtain ⟨held', found'⟩ := settled.resolve_left fun isDone =>
    tidy.apart key held found (done isDone)
  suffices same : held' = held from same ▸ found'
  rcases source with old | ⟨free, -, -, isTrain⟩
  · rcases receipt'.held key held' found' with old' | ⟨free', -⟩
    · exact Option.some.inj (old'.symm.trans (parked ▸ old))
    · exact absurd (free'.symm.trans (parked ▸ old)) (by simp)
  · rcases receipt'.held key held' found' with old' | ⟨-, -, -, isTrain'⟩
    · exact absurd (old'.symm.trans (parked ▸ free)) (by simp)
    · exact isTrain'.trans isTrain.symm

namespace Coupled

variable {a b : TrainsNode cfg} {train : Train}

theorem takes_iff (coupled : Coupled gone source (source.joined id id_lt) a b) :
    a.Takes train ↔ b.Takes train := by
  have ready : a.Ready train ↔ b.Ready train :=
    coupled.left.advances.ready.trans coupled.right.advances.ready.symm
  have replay : a.Replay train ↔ b.Replay train := by
    unfold Replay seenClock
    rw [coupled.clocks]
  unfold Takes
  rw [coupled.left.plain.stale_iff, coupled.right.plain.stale_iff, ready, replay]

/-- The nodes settle the same low keys. -/
theorem settled_iff (coupled : Coupled gone source (source.joined id id_lt) a b) {key : ClockKey}
    (low : source.Low key) : a.Settled key ↔ b.Settled key := by
  unfold Settled
  rw [coupled.done key low, coupled.parked key low]

theorem clocks_receive (coupled : Coupled gone source (source.joined id id_lt) a b)
    {records records' : List Entry} {a' b' : TrainsNode cfg}
    (left : Receipt a train records a') (right : Receipt b train records' b')
    (fresh : ¬ a.Stale train) : a'.clockState = b'.clockState := by
  have fresh' : ¬ b.Stale train := fun stale => fresh
    (coupled.left.plain.stale_iff.mpr (coupled.right.plain.stale_iff.mp stale))
  rw [left.clocks fresh, right.clocks fresh', coupled.clocks]

end Coupled

/-- Silent records may be left out. -/
theorem announcements_filter {records : List Entry} {p : Entry → Bool}
    (silent : ∀ entry ∈ records, p entry = false → entry.2 = []) :
    announcements (records.filter p) = announcements records := by
  unfold announcements
  rw [List.filter_filter]
  refine congrArg (List.map Entry.content) (List.filter_congr fun entry member => ?_)
  cases kept : p entry with
  | true => simp
  | false => simp [silent entry member kept]

/-- Two lists of records in key order with the same members. -/
theorem records_ext {records records' : List Entry}
    (sorted : records.Pairwise fun first second => first.1 < second.1)
    (sorted' : records'.Pairwise fun first second => first.1 < second.1)
    (same : ∀ entry, entry ∈ records ↔ entry ∈ records') : records = records' := by
  have nodup : ∀ {list : List Entry}, (list.Pairwise fun first second => first.1 < second.1) →
      list.Nodup := fun sorted => sorted.imp fun {first second} less same => by
    rw [same] at less
    exact lt_irrefl _ less
  exact ((List.perm_ext_iff_of_nodup (nodup sorted) (nodup sorted')).mpr same).eq_of_pairwise
    (fun _ _ _ _ less more => absurd (less.trans more) (lt_irrefl _)) sorted sorted'

namespace Coupled

variable {a b : TrainsNode cfg} {train : Train}

/-- **The nodes record the same low keys**, by induction on the key: what one of them has done below
the key, the other has done. -/
theorem done_receive (coupled : Coupled gone source (source.joined id id_lt) a b)
    {records records' : List Entry} {a' b' : TrainsNode cfg}
    (left : Receipt a train records a') (right : Receipt b train records' b')
    (logged : a'.delivery.doneKeys = a.delivery.doneKeys ∪ (records.map Prod.fst).toFinset)
    (logged' : b'.delivery.doneKeys = b.delivery.doneKeys ∪ (records'.map Prod.fst).toFinset)
    (plain : a'.Plain) (plain' : b'.Plain) (seen : ∀ q, a'.seenClock q = b'.seenClock q)
    (key : ClockKey) (low : source.Low key) :
    key ∈ a'.delivery.doneKeys ↔ key ∈ b'.delivery.doneKeys := by
  have recorded : ∀ {x x' : TrainsNode cfg} {records : List Entry} {key : ClockKey},
      Receipt x train records x' →
      x'.delivery.doneKeys = x.delivery.doneKeys ∪ (records.map Prod.fst).toFinset →
      key ∈ x'.delivery.doneKeys → key ∈ x.delivery.doneKeys ∨ x'.Cleared key := by
    intro x x' records key receipt logged done
    rw [logged, Finset.mem_union, List.mem_toFinset] at done
    refine done.imp_right fun new => ?_
    obtain ⟨entry, member, rfl⟩ := List.mem_map.mp new
    exact receipt.cleared entry member
  have grows : a.delivery.doneKeys ⊆ a'.delivery.doneKeys := logged ▸ Finset.subset_union_left
  have grows' : b.delivery.doneKeys ⊆ b'.delivery.doneKeys := logged' ▸ Finset.subset_union_left
  induction key using WellFoundedLT.induction with
  | ind key ih =>
    have smaller : ∀ other, other < key →
        (other ∈ a'.delivery.doneKeys ↔ other ∈ b'.delivery.doneKeys) := fun other less =>
      ih other less fun parkedKey held found => less.trans (low parkedKey held found)
    have settled : a'.Settled key ↔ b'.Settled key := by
      rw [left.settled, right.settled, coupled.settled_iff low, coupled.takes_iff]
    refine ⟨fun done => ?_, fun done => ?_⟩
    · exact done_transfer plain' (fun q => (seen q).symm) (recorded left logged)
        (fun old => grows' ((coupled.done key low).mp old)) settled.mp
        (fun other less => (smaller other less).mp) done
    · exact done_transfer plain seen (recorded right logged')
        (fun old => grows ((coupled.done key low).mpr old)) settled.mpr
        (fun other less => (smaller other less).mpr) done

/-- **What the nodes record**: the joiner records the low entries of its source. -/
theorem mem_handleEntries (coupled : Coupled gone source (source.joined id id_lt) a b)
    (plain : source.Plain) (portable : Portable gone source) (newcomer : gone id)
    (coming : Coming gone train)
    (left : Receipt a train (a.handleEntries train) (a.handleTrain train).1)
    (right : Receipt b train (b.handleEntries train) (b.handleTrain train).1)
    (done : ∀ key, source.Low key → (key ∈ (a.handleTrain train).1.delivery.doneKeys ↔
      key ∈ (b.handleTrain train).1.delivery.doneKeys)) (entry : Entry) :
    entry ∈ b.handleEntries train ↔ entry ∈ a.handleEntries train ∧ source.Low entry.1 := by
  have logged := (a.logged_handleTrain train).done
  have logged' := (b.logged_handleTrain train).done
  have fresh : ∀ {node : TrainsNode cfg}, node.Plain → entry ∈ node.handleEntries train →
      entry.1 ∉ node.delivery.doneKeys := fun isPlain =>
    (isPlain.settling.tidy.handleTrain (isPlain.settling.safe train)).fresh entry
  refine ⟨fun member => ?_, fun ⟨member, low⟩ => ?_⟩
  · obtain ⟨since, -⟩ := coupled.right.receive newcomer (fun _ coming => coming) coming
    have undone := fresh coupled.right.plain member
    have low : source.Low entry.1 :=
      (low_of_done plain portable since (b.done_of_recorded member)).resolve_left
        fun old => undone (coupled.right.advances.done old)
    refine ⟨entry_transfer right left member (coupled.parked _ low).symm logged ?_ ?_, low⟩
    · exact fun isDone => undone ((coupled.done _ low).mp isDone)
    · exact (done _ low).mpr (b.done_of_recorded member)
  · refine entry_transfer left right member (coupled.parked _ low) logged' ?_ ?_
    · exact fun isDone => fresh coupled.left.plain member ((coupled.done _ low).mpr isDone)
    · exact (done _ low).mp (a.done_of_recorded member)

/-- **One train at both.** -/
theorem receive (coupled : Coupled gone source (source.joined id id_lt) a b) (plain : source.Plain)
    (portable : Portable gone source) (own : gone source.id) (newcomer : gone id)
    (coming : Coming gone train) :
    Coupled gone source (source.joined id id_lt) (a.handleTrain train).1 (b.handleTrain train).1 ∧
      announcements (a.handleEntries train) = announcements (b.handleEntries train) := by
  classical
  have apart : ∀ train, Coming gone train → ¬ gone train.issuer := fun _ coming => coming
  obtain ⟨next, -⟩ := coupled.left.receive own apart coming
  obtain ⟨next', -⟩ := coupled.right.receive newcomer apart coming
  have foreign : train.issuer ≠ a.id := fun same =>
    coming (same ▸ coupled.left.advances.id ▸ own)
  have foreign' : train.issuer ≠ b.id := fun same =>
    coming (same ▸ coupled.right.advances.id ▸ newcomer)
  have left := coupled.left.plain.receive foreign
  have right := coupled.right.plain.receive foreign'
  have clocks : (a.handleTrain train).1.clockState = (b.handleTrain train).1.clockState := by
    by_cases stale : a.Stale train
    · rw [handleTrain_stale stale, handleTrain_stale (coupled.right.plain.stale_iff.mpr
        (coupled.left.plain.stale_iff.mp stale))]
      exact coupled.clocks
    · exact coupled.clocks_receive left right stale
  have seen : ∀ q, (a.handleTrain train).1.seenClock q = (b.handleTrain train).1.seenClock q :=
    fun q => congrArg (fun state : ClockState cfg => state.lastSeen q) clocks
  have done := coupled.done_receive left right (a.logged_handleTrain train).done
    (b.logged_handleTrain train).done next.plain next'.plain seen
  refine ⟨⟨next, next', clocks, done, fun key low => ?_⟩, ?_⟩
  · have onward : ∀ held, (a.handleTrain train).1.parked.get? key = some held →
        (b.handleTrain train).1.parked.get? key = some held := fun held =>
      parked_transfer left right next.plain.settling.tidy coupled.takes_iff.mp
        (coupled.parked key low) (done key low).mpr
    have back : ∀ held, (b.handleTrain train).1.parked.get? key = some held →
        (a.handleTrain train).1.parked.get? key = some held := fun held =>
      parked_transfer right left next'.plain.settling.tidy coupled.takes_iff.mpr
        (coupled.parked key low).symm (done key low).mp
    ext held
    exact ⟨onward held, back held⟩
  · have entries := coupled.mem_handleEntries plain portable newcomer coming left right done
    rw [← announcements_filter (p := fun entry => decide (source.Low entry.1)) fun entry member high =>
      silent_of_high portable coupled.left own coming member (of_decide_eq_false high)]
    refine congrArg announcements (records_ext (left.sorted.filter _) right.sorted fun entry => ?_)
    rw [List.mem_filter, decide_eq_true_eq, entries]

end Coupled

/-- **The joiner of a portable source delivers what its source delivers**, train by train. -/
theorem deliverOutputs_of_coupled (plain : source.Plain) (portable : Portable gone source)
    (own : gone source.id) (newcomer : gone id) (trains : List Train) : ∀ {a b : TrainsNode cfg},
      Coupled gone source (source.joined id id_lt) a b → (∀ train ∈ trains, Coming gone train) →
        a.deliverOutputs trains = b.deliverOutputs trains := by
  induction trains with
  | nil => exact fun _ _ => rfl
  | cons train rest ih =>
    intro a b coupled coming
    obtain ⟨next, same⟩ := coupled.receive plain portable own newcomer
      (coming train List.mem_cons_self)
    have first : delivers (a.handleTrain train).2 = delivers (b.handleTrain train).2 := by
      rw [(a.logged_handleTrain train).announced, (b.logged_handleTrain train).announced, same]
    have later := ih next fun other member => coming other (List.mem_cons_of_mem train member)
    exact congrArg₂ List.cons first later

theorem deliverOutputs_of_portable (plain : source.Plain) (portable : Portable gone source)
    (own : gone source.id) (newcomer : gone id) (trains : List Train)
    (coming : ∀ train ∈ trains, Coming gone train) :
    source.deliverOutputs trains = (source.joined id id_lt).deliverOutputs trains :=
  deliverOutputs_of_coupled plain portable own newcomer trains (coupled_joined plain) coming

end Coupling

end TrainsNode

end TrainsRing
