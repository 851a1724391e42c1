/-
**Ordered logs.**

A replica of a totally ordered log appends entries whose keys come from a common universe, and
appends an entry only after every smaller key of the universe. `Segment key U log` is what such a
replica holds: entries in strictly increasing key order whose keys are an initial segment of `U`.

* `Segment.snoc` — appending the next entry.
* `Segment.comparable` — **agreement**: two segments of one universe whose entries agree on content
  have contents one of which is a prefix of the other.
* `Segment.exists_front` — the entries behind a prefix of a log's contents.
* `Segment.contents_eq` — two segments with the same keys have the same contents.
* `Segment.part_prefix` — a part of one log's contents that begins another's.
* `Segment.mem_before`, `Segment.content_before` — an entry and its content stand before every entry
  with a larger key.
-/

import Mathlib.Data.List.Infix
import Mathlib.Order.Basic
import Mathlib.Tactic

namespace TrainsRing

variable {κ : Type} [LinearOrder κ] {α β : Type}

/-- A log whose keys increase and form an initial segment of the universe `U`. -/
structure Segment (key : α → κ) (U : κ → Prop) (log : List α) : Prop where
  sorted : log.Pairwise fun first second => key first < key second
  keys : ∀ entry ∈ log, U (key entry)
  closed : ∀ entry ∈ log, ∀ k, U k → k < key entry → ∃ earlier ∈ log, key earlier = k

namespace Segment

variable {key : α → κ} {U : κ → Prop} {log other : List α}

theorem nil : Segment key U [] :=
  ⟨List.Pairwise.nil, fun _ member => absurd member List.not_mem_nil,
    fun _ member => absurd member List.not_mem_nil⟩

/-- A key of the universe outside a segment is above all of it. -/
theorem lt_of_not_mem (segment : Segment key U log) {k : κ} (inside : U k)
    (fresh : ∀ entry ∈ log, key entry ≠ k) : ∀ entry ∈ log, key entry < k := by
  intro entry member
  by_contra notBelow
  rcases (not_lt.mp notBelow).lt_or_eq with above | same
  · obtain ⟨earlier, inLog, equal⟩ := segment.closed entry member k inside above
    exact fresh earlier inLog equal
  · exact fresh entry member same.symm

/-- **The next entry**: a key all of whose predecessors are in the log and that is not. -/
theorem snoc (segment : Segment key U log) {entry : α} (inside : U (key entry))
    (fresh : ∀ old ∈ log, key old ≠ key entry)
    (predecessors : ∀ k, U k → k < key entry → ∃ earlier ∈ log, key earlier = k) :
    Segment key U (log ++ [entry]) := by
  refine ⟨?_, ?_, ?_⟩
  · refine List.pairwise_append.mpr ⟨segment.sorted, List.pairwise_singleton _ _, ?_⟩
    intro old member new isNew
    rw [List.mem_singleton.mp isNew]
    exact segment.lt_of_not_mem inside fresh old member
  · intro old member
    rcases List.mem_append.mp member with member | isNew
    · exact segment.keys old member
    · rw [List.mem_singleton.mp isNew]
      exact inside
  · intro old member k isKey below
    have found : ∃ earlier ∈ log, key earlier = k := by
      rcases List.mem_append.mp member with member | isNew
      · exact segment.closed old member k isKey below
      · rw [List.mem_singleton.mp isNew] at below
        exact predecessors k isKey below
    obtain ⟨earlier, inLog, same⟩ := found
    exact ⟨earlier, List.mem_append_left _ inLog, same⟩

/-- The rest of a segment is a segment of the keys above its first one. -/
theorem tail {entry : α} (segment : Segment key U (entry :: log)) :
    Segment key (fun k => U k ∧ key entry < k) log := by
  obtain ⟨above, ordered⟩ := List.pairwise_cons.mp segment.sorted
  refine ⟨ordered, fun old member =>
    ⟨segment.keys old (List.mem_cons_of_mem _ member), above old member⟩, ?_⟩
  intro old member k isKey below
  obtain ⟨earlier, inLog, same⟩ :=
    segment.closed old (List.mem_cons_of_mem _ member) k isKey.1 below
  rcases List.mem_cons.mp inLog with rfl | later
  · exact absurd same (ne_of_lt isKey.2)
  · exact ⟨earlier, later, same⟩

/-- The first keys of two nonempty segments of one universe are equal. -/
theorem head_le {entry first : α} (segment : Segment key U (entry :: log))
    (against : Segment key U (first :: other)) : key first ≤ key entry := by
  by_contra notLe
  obtain ⟨earlier, inLog, same⟩ := against.closed first List.mem_cons_self (key entry)
    (segment.keys entry List.mem_cons_self) (not_le.mp notLe)
  rcases List.mem_cons.mp inLog with rfl | later
  · exact notLe same.le
  · have above := (List.pairwise_cons.mp against.sorted).1 earlier later
    exact notLe (same ▸ above.le)

/-- A segment whose keys are all in another one has a prefix of its contents. -/
theorem prefix_of_keys (content : α → List β) (segment : Segment key U log)
    (against : Segment key U other)
    (agree : ∀ a ∈ log, ∀ b ∈ other, key a = key b → content a = content b)
    (keys : ∀ a ∈ log, ∃ b ∈ other, key b = key a) :
    log.flatMap content <+: other.flatMap content := by
  induction log generalizing other U with
  | nil => exact List.nil_prefix
  | cons a log ih =>
    cases other with
    | nil =>
      obtain ⟨b, inside, -⟩ := keys a List.mem_cons_self
      cases inside
    | cons b other =>
      have same : key a = key b := le_antisymm (against.head_le segment) (segment.head_le against)
      have head := agree a List.mem_cons_self b List.mem_cons_self same
      have rest := ih segment.tail (same ▸ against.tail)
        (fun x inLog y inOther =>
          agree x (List.mem_cons_of_mem _ inLog) y (List.mem_cons_of_mem _ inOther))
        (fun x inLog => by
          obtain ⟨y, inOther, equal⟩ := keys x (List.mem_cons_of_mem _ inLog)
          rcases List.mem_cons.mp inOther with rfl | later
          · have above := (List.pairwise_cons.mp segment.sorted).1 x inLog
            exact absurd (same.trans equal) (ne_of_lt above)
          · exact ⟨y, later, equal⟩)
      rw [List.flatMap_cons, List.flatMap_cons, head]
      exact (List.prefix_append_right_inj _).mpr rest

/-- What a prefix of a log's contents begins with: a front of the log, each of whose entries shows in
the prefix unless it has no content. -/
theorem exists_front (content : α → List β) {log : List α} {part : List β}
    (isPart : part <+: log.flatMap content) : ∃ front back, log = front ++ back ∧
      part <+: front.flatMap content ∧
        ∀ entry ∈ front, content entry ≠ [] → ∃ x ∈ content entry, x ∈ part := by
  induction log generalizing part with
  | nil => exact ⟨[], [], rfl, isPart, fun _ member => absurd member List.not_mem_nil⟩
  | cons entry log ih =>
    by_cases nothing : part = []
    · subst nothing
      exact ⟨[], entry :: log, rfl, List.nil_prefix, fun _ member => absurd member List.not_mem_nil⟩
    rw [List.flatMap_cons] at isPart
    rcases List.prefix_or_prefix_of_prefix isPart (List.prefix_append _ _) with inside | ⟨rest, rfl⟩
    · refine ⟨[entry], log, rfl, by simpa using inside, fun other member _ => ?_⟩
      obtain ⟨x, isIn⟩ := List.exists_mem_of_ne_nil part nothing
      rw [List.mem_singleton.mp member]
      exact ⟨x, inside.subset isIn, isIn⟩
    · have isRest := (List.prefix_append_right_inj _).mp isPart
      obtain ⟨front, back, shape, isFront, shows⟩ := ih isRest
      refine ⟨entry :: front, back, congrArg (entry :: ·) shape, ?_, fun other member loaded => ?_⟩
      · rw [List.flatMap_cons]
        exact (List.prefix_append_right_inj _).mpr isFront
      · rcases List.mem_cons.mp member with rfl | later
        · obtain ⟨x, isIn⟩ := List.exists_mem_of_ne_nil _ loaded
          exact ⟨x, isIn, List.mem_append_left _ isIn⟩
        · obtain ⟨x, isIn, shown⟩ := shows other later loaded
          exact ⟨x, isIn, List.mem_append_right _ shown⟩

/-- **Agreement.** Two segments of one universe whose equal keys carry equal contents have
contents of which one is a prefix of the other. -/
theorem comparable (content : α → List β) (segment : Segment key U log)
    (against : Segment key U other)
    (agree : ∀ a ∈ log, ∀ b ∈ other, key a = key b → content a = content b) :
    log.flatMap content <+: other.flatMap content ∨
      other.flatMap content <+: log.flatMap content := by
  by_cases keys : ∀ a ∈ log, ∃ b ∈ other, key b = key a
  · exact Or.inl (segment.prefix_of_keys content against agree keys)
  · push Not at keys
    obtain ⟨a, inLog, missing⟩ := keys
    have above := against.lt_of_not_mem (segment.keys a inLog) missing
    refine Or.inr (against.prefix_of_keys content segment
      (fun b inOther a inLog same => (agree a inLog b inOther same.symm).symm) fun b inOther => ?_)
    exact segment.closed a inLog (key b) (against.keys b inOther) (above b inOther)

/-- **Same keys, same contents.** -/
theorem contents_eq (content : α → List β) (segment : Segment key U log)
    (against : Segment key U other)
    (agree : ∀ a ∈ log, ∀ b ∈ other, key a = key b → content a = content b)
    (keys : ∀ a ∈ log, ∃ b ∈ other, key b = key a) (back : ∀ b ∈ other, ∃ a ∈ log, key a = key b) :
    log.flatMap content = other.flatMap content := by
  have forth := segment.prefix_of_keys content against agree keys
  have reverse := against.prefix_of_keys content segment
    (fun b inOther a inLog same => (agree a inLog b inOther same.symm).symm) back
  exact forth.eq_of_length_le reverse.length_le

/-- The entries of a log that have content. -/
def loaded (content : α → List β) (log : List α) : List α :=
  log.filter fun entry => !(content entry).isEmpty

theorem mem_loaded {content : α → List β} {entry : α} :
    entry ∈ loaded content log ↔ entry ∈ log ∧ content entry ≠ [] := by
  simp [loaded]

theorem contents_loaded (content : α → List β) (log : List α) :
    (loaded content log).flatMap content = log.flatMap content := by
  induction log with
  | nil => rfl
  | cons entry log ih =>
    by_cases empty : content entry = []
    · simpa [loaded, empty] using ih
    · simpa [loaded, empty] using ih

/-- **A part of one log's contents begins another's** when the other log has every entry that shows
in the part, and has no content in between that the first log lacks. -/
theorem part_prefix (content : α → List β) (sorted : log.Pairwise fun a b => key a < key b)
    (against : other.Pairwise fun a b => key a < key b) {part : List β}
    (isPart : part <+: log.flatMap content)
    (kept : ∀ a ∈ log, (∃ x ∈ content a, x ∈ part) → ∃ b ∈ other, key b = key a ∧ content b = content a)
    (between : ∀ a ∈ log, (∃ x ∈ content a, x ∈ part) → ∀ b ∈ other, content b ≠ [] →
      key b < key a → ∃ c ∈ log, key c = key b ∧ content c = content b) :
    part <+: other.flatMap content := by
  obtain ⟨front, back, rfl, isFront, shows⟩ := exists_front content isPart
  have inFront : ∀ a ∈ front, a ∈ front ++ back := fun a member => List.mem_append_left _ member
  let U := fun k => ∃ b ∈ other, content b ≠ [] ∧ key b = k
  have left : Segment key U (loaded content front) := by
    refine ⟨(List.pairwise_append.mp sorted).1.filter _, fun a member => ?_,
      fun a member k ⟨b, inOther, full, same⟩ below => ?_⟩
    · obtain ⟨inside, full⟩ := mem_loaded.mp member
      obtain ⟨b, inOther, same, equal⟩ := kept a (inFront a inside) (shows a inside full)
      exact ⟨b, inOther, equal ▸ full, same⟩
    · obtain ⟨inside, full'⟩ := mem_loaded.mp member
      obtain ⟨c, inLog, here, equal⟩ := between a (inFront a inside) (shows a inside full') b
        inOther full (same ▸ below)
      refine ⟨c, mem_loaded.mpr ⟨(List.mem_append.mp inLog).resolve_right fun late => ?_,
        equal ▸ full⟩, here.trans same⟩
      have above := (List.pairwise_append.mp sorted).2.2 a inside c late
      rw [here, same] at above
      exact absurd below above.asymm
  have right : Segment key U (loaded content other) := by
    refine ⟨against.filter _, fun b member => ?_, fun b member k ⟨c, inOther, full, same⟩ _ => ?_⟩
    · obtain ⟨inside, full⟩ := mem_loaded.mp member
      exact ⟨b, inside, full, rfl⟩
    · exact ⟨c, mem_loaded.mpr ⟨inOther, full⟩, same⟩
  have found : ∀ a ∈ loaded content front, ∃ b ∈ other, key b = key a ∧ content b = content a := by
    intro a member
    obtain ⟨inside, full⟩ := mem_loaded.mp member
    exact kept a (inFront a inside) (shows a inside full)
  have whole := left.prefix_of_keys content right (fun a member b member' same => ?_)
    fun a member => ?_
  · rw [contents_loaded, contents_loaded] at whole
    exact isFront.trans whole
  · obtain ⟨c, inOther, here, equal⟩ := found a member
    have distinct : other.Pairwise fun a b => key a ≠ key b := against.imp ne_of_lt
    have once := List.inj_on_of_nodup_map (List.pairwise_map.mpr distinct) inOther
      (mem_loaded.mp member').1 (here.trans same)
    rw [← equal, once]
  · obtain ⟨c, inOther, here, equal⟩ := found a member
    exact ⟨c, mem_loaded.mpr ⟨inOther, equal ▸ (mem_loaded.mp member).2⟩, here⟩

/-- **Order of entries**: an entry stands before every entry with a larger key. -/
theorem mem_before (segment : Segment key U log) {first second : α} (inLog : first ∈ log)
    (alsoIn : second ∈ log) (below : key first < key second) :
    ∃ before after, log = before ++ second :: after ∧ first ∈ before := by
  obtain ⟨before, after, shape⟩ := List.append_of_mem alsoIn
  refine ⟨before, after, shape, ?_⟩
  rw [shape] at inLog
  rcases List.mem_append.mp inLog with early | late
  · exact early
  · have ordered := segment.sorted
    rw [shape] at ordered
    have above := (List.pairwise_cons.mp (List.pairwise_append.mp ordered).2.1).1
    rcases List.mem_cons.mp late with rfl | later
    · exact absurd below (lt_irrefl _)
    · exact absurd below (above first later).asymm

/-- Where the contents have no duplicates, the content of an entry stands before that of every entry
with a larger key. -/
theorem content_before (content : α → List β) (segment : Segment key U log)
    (nodup : (log.flatMap content).Nodup) {first second : α} (inLog : first ∈ log)
    (alsoIn : second ∈ log) (below : key first < key second) {x y : β} (early : x ∈ content first)
    (late : y ∈ content second) {front back : List β}
    (split : log.flatMap content = front ++ y :: back) : x ∈ front := by
  obtain ⟨before, after, shape, member⟩ := segment.mem_before inLog alsoIn below
  obtain ⟨left, right, content_eq⟩ := List.append_of_mem late
  have whole : log.flatMap content =
      (before.flatMap content ++ left) ++ y :: (right ++ after.flatMap content) := by
    rw [shape, List.flatMap_append, List.flatMap_cons, content_eq]
    simp only [List.append_assoc, List.cons_append]
  have once : y ∉ before.flatMap content ++ left ∧ y ∉ right ++ after.flatMap content := by
    rw [whole] at nodup
    have apart := List.nodup_middle.mp nodup
    exact ⟨fun inside => (List.nodup_cons.mp apart).1 (List.mem_append_left _ inside),
      fun inside => (List.nodup_cons.mp apart).1 (List.mem_append_right _ inside)⟩
  rw [whole] at split
  obtain ⟨same, -⟩ := (List.append_cons_inj_of_notMem once.1 once.2).mp split
  rw [← same]
  exact List.mem_append_left _ (List.mem_flatMap.mpr ⟨first, member, early⟩)

end Segment

end TrainsRing
