/-
**Readers of byte streams.**

A reader takes a value off the front of a stream or fails. A format is a reader with what a writer
writes for each value, and a check that says for which values the reader refuses what was written.

* `Reader` — computations on the bytes that are left; `Reader.take` reads a number of bytes.
* `Reader.Reads` — **the law of a format**: what was written is read back or refused, nothing else is
  accepted, and a stream that ends early is noticed.
* `Reads.bind`, `Reads.guarded`, `Reads.repeat`, `Reads.map` — formats are built from formats: one
  after the other, behind a check, a number of times, under another name.
* `Parses`, `drain_prefix` — one value and the bytes it takes; **a stream of values that ends early**
  gives those that are in it as a whole; `next_of_prefix` — one more of them.
* `bigEndian`, `ofBigEndian` — numbers of a fixed width, highest byte first.
-/

import TrainsRing.Library.Fallible
import Mathlib.Data.Vector.Basic

namespace TrainsRing

/-! ### Numbers of a fixed width -/

/-- The lowest bytes of a number, highest first. -/
def bigEndian : Nat → Nat → List UInt8
  | 0, _ => []
  | count + 1, value => bigEndian count (value / 256) ++ [UInt8.ofNat value]

def ofBigEndian (bytes : List UInt8) : Nat := bytes.foldl (fun high byte => high * 256 + byte.toNat) 0

@[simp]
theorem length_bigEndian (count value : Nat) : (bigEndian count value).length = count := by
  induction count generalizing value with
  | zero => rfl
  | succ count ih => simp [bigEndian, ih]

theorem ofBigEndian_snoc (bytes : List UInt8) (byte : UInt8) :
    ofBigEndian (bytes ++ [byte]) = ofBigEndian bytes * 256 + byte.toNat := by
  simp [ofBigEndian]

/-- **A number that fits is read back.** -/
theorem ofBigEndian_bigEndian {count value : Nat} (fits : value < 256 ^ count) :
    ofBigEndian (bigEndian count value) = value := by
  induction count generalizing value with
  | zero =>
    obtain rfl : value = 0 := by simpa using fits
    rfl
  | succ count ih =>
    have high : value / 256 < 256 ^ count := by
      rw [Nat.div_lt_iff_lt_mul (by decide)]
      simpa [Nat.pow_succ] using fits
    rw [bigEndian, ofBigEndian_snoc, ih high, UInt8.toNat_ofNat']
    omega

theorem ofBigEndian_lt (bytes : List UInt8) : ofBigEndian bytes < 256 ^ bytes.length := by
  induction bytes using List.reverseRecOn with
  | nil => decide
  | append_singleton bytes byte ih =>
    have digit := byte.toNat_lt
    rw [ofBigEndian_snoc, List.length_append, List.length_singleton, Nat.pow_succ]
    omega

/-- **The bytes of a number are written back.** -/
theorem bigEndian_ofBigEndian (bytes : List UInt8) :
    bigEndian bytes.length (ofBigEndian bytes) = bytes := by
  induction bytes using List.reverseRecOn with
  | nil => rfl
  | append_singleton bytes byte ih =>
    have digit := byte.toNat_lt
    have high : (ofBigEndian bytes * 256 + byte.toNat) / 256 = ofBigEndian bytes := by omega
    have low : UInt8.ofNat (ofBigEndian bytes * 256 + byte.toNat) = byte := by
      apply UInt8.toNat_inj.mp
      rw [UInt8.toNat_ofNat']
      omega
    rw [List.length_append, List.length_singleton, bigEndian, ofBigEndian_snoc, high, low, ih]

/-! ### Readers -/

/-- A value read off the front of a stream, with the bytes that are left, or an error. -/
abbrev Reader (ε α : Type) := StateT (List UInt8) (Except ε) α

variable {ε α β : Type}

namespace Reader

/-- A number of bytes, from a stream that has as many. -/
def take (eof : ε) (count : Nat) : Reader ε (List.Vector UInt8 count) := fun bytes =>
  if enough : count ≤ bytes.length then
    .ok (⟨bytes.take count, by simp [enough]⟩, bytes.drop count)
  else .error eof

/-- A reader, a number of times. -/
def times (r : Reader ε α) : (count : Nat) → Reader ε (List.Vector α count)
  | 0 => pure .nil
  | count + 1 => do
    let first ← r
    let rest ← r.times count
    pure (.cons first rest)

theorem times_succ (r : Reader ε α) (count : Nat) :
    r.times (count + 1) = r >>= fun first => List.Vector.cons first <$> r.times count := by
  simp [times]

theorem bind_run (r : Reader ε α) (s : α → Reader ε β) (bytes : List UInt8) :
    (r >>= s) bytes = r bytes >>= fun result => s result.1 result.2 := rfl

theorem map_run (f : α → β) (r : Reader ε α) (bytes : List UInt8) :
    (f <$> r) bytes = (fun result => (f result.1, result.2)) <$> r bytes := rfl

/-- The law of a format. `w` writes the values in `dom`, and `check` names the error with which the
reader refuses a value; at the end of the stream it fails with `eof`. -/
structure Reads (eof : ε) (r : Reader ε α) (w : α → List UInt8) (dom : α → Prop)
    (check : α → Option ε) : Prop where
  written : ∀ a rest, dom a →
    r (w a ++ rest) = match check a with
      | none => .ok (a, rest)
      | some refusal => .error refusal
  only : ∀ {bytes a rest}, r bytes = .ok (a, rest) → dom a ∧ check a = none ∧ bytes = w a ++ rest
  cut : ∀ {a front}, dom a → check a = none → front <+: w a → front ≠ w a → r front = .error eof

variable {eof : ε}

theorem Reads.accepts {r : Reader ε α} {w : α → List UInt8} {dom : α → Prop}
    {check : α → Option ε} (reads : Reads eof r w dom check) {a : α} (inside : dom a)
    (passes : check a = none) (rest : List UInt8) : r (w a ++ rest) = .ok (a, rest) := by
  rw [reads.written a rest inside, passes]

theorem Reads.refuses {r : Reader ε α} {w : α → List UInt8} {dom : α → Prop}
    {check : α → Option ε} (reads : Reads eof r w dom check) {a : α} (inside : dom a) {refusal : ε}
    (fails : check a = some refusal) (rest : List UInt8) : r (w a ++ rest) = .error refusal := by
  rw [reads.written a rest inside, fails]

/-- **A number of bytes.** -/
theorem reads_take (eof : ε) (count : Nat) :
    Reads eof (take eof count) (fun v => v.toList) (fun _ => True) (fun _ => none) where
  written := fun v rest _ => by
    have length : v.toList.length = count := v.toList_length
    have enough : count ≤ (v.toList ++ rest).length := by simp [length]
    unfold take
    rw [dif_pos enough]
    refine congrArg Except.ok (Prod.ext (List.Vector.eq _ _ ?_) ?_)
    · exact List.take_left' length
    · exact List.drop_left' length
  only := fun {bytes v rest} ok => by
    unfold take at ok
    split_ifs at ok with enough
    obtain ⟨rfl, rfl⟩ := Prod.mk.inj (Except.ok.inj ok)
    exact ⟨trivial, rfl, (List.take_append_drop count bytes).symm⟩
  cut := fun {v front} _ _ isFront short => by
    have length : v.toList.length = count := v.toList_length
    have shorter : ¬ count ≤ front.length := fun enough =>
      short (isFront.eq_of_length_le (length.trans_le enough))
    exact dif_neg shorter

/-- A stream that starts with some bytes, or ends within them. -/
theorem prefix_append_cases {front bytes more : List UInt8} (isFront : front <+: bytes ++ more) :
    front <+: bytes ∧ front ≠ bytes ∨ ∃ later, front = bytes ++ later ∧ later <+: more := by
  by_cases early : front <+: bytes ∧ front ≠ bytes
  · exact .inl early
  · right
    obtain ⟨later, rfl⟩ : bytes <+: front := by
      rcases List.prefix_or_prefix_of_prefix isFront (List.prefix_append ..) with within | beyond
      · have same := not_not.mp fun differ => early ⟨within, differ⟩
        exact same ▸ List.prefix_rfl
      · exact beyond
    exact ⟨later, rfl, (List.prefix_append_right_inj _).mp isFront⟩

/-- **One format after the other.** The value read first is a part, `key`, of the whole. -/
theorem Reads.bind {r : Reader ε α} {w : α → List UInt8} {dom : α → Prop} {check : α → Option ε}
    (first : Reads eof r w dom check) {s : α → Reader ε β} {w' : β → List UInt8} {dom' : β → Prop}
    {check' : β → Option ε} (key : β → α)
    (second : ∀ a, check a = none → Reads eof (s a) w' (fun b => dom' b ∧ key b = a) check') :
    Reads eof (r >>= s) (fun b => w (key b) ++ w' b) (fun b => dom (key b) ∧ dom' b)
      (fun b => (check (key b)).or (check' b)) where
  written := fun b rest inside => by
    rw [bind_run, List.append_assoc]
    cases fails : check (key b) with
    | some refusal =>
      rw [first.refuses inside.1 fails]
      rfl
    | none =>
      rw [first.accepts inside.1 fails]
      exact (second (key b) fails).written b rest ⟨inside.2, rfl⟩
  only := fun {bytes b rest} ok => by
    rw [bind_run] at ok
    obtain ⟨⟨a, middle⟩, ok₁, ok₂⟩ := bind_ok.mp ok
    obtain ⟨inside, passes, rfl⟩ := first.only ok₁
    obtain ⟨⟨inside', rfl⟩, passes', rfl⟩ := (second a passes).only ok₂
    exact ⟨⟨inside, inside'⟩, by rw [passes, passes']; rfl, (List.append_assoc ..).symm⟩
  cut := fun {b front} inside passes isFront short => by
    obtain ⟨passes₁, passes₂⟩ := Option.or_eq_none_iff.mp passes
    rw [bind_run]
    rcases prefix_append_cases isFront with ⟨within, early⟩ | ⟨more, rfl, isMore⟩
    · rw [first.cut inside.1 passes₁ within early]
      rfl
    · -- the stream ends in the second part
      rw [first.accepts inside.1 passes₁]
      exact (second (key b) passes₁).cut ⟨inside.2, rfl⟩ passes₂ isMore fun whole =>
        short (congrArg _ whole)

/-- **A format behind a check.** -/
theorem Reads.guarded {limit : Prop} [Decidable limit] {refusal : ε} {r : ¬ limit → Reader ε α}
    {w : α → List UInt8} {dom : α → Prop} {check : α → Option ε}
    (reads : ∀ within, Reads eof (r within) w dom check) :
    Reads eof (if excess : limit then throw refusal else r excess) w dom
      (fun a => if limit then some refusal else check a) := by
  by_cases excess : limit
  · simp only [dif_pos excess, if_pos excess]
    exact ⟨fun _ _ _ => rfl, fun ok => (by cases ok), fun _ passes _ _ => (by cases passes)⟩
  · simp only [dif_neg excess, if_neg excess]
    exact reads excess

/-- **A format under another name**, where the new values are those in the range of `f`. -/
theorem Reads.map {r : Reader ε α} {w : α → List UInt8} {dom : α → Prop} {check : α → Option ε}
    (reads : Reads eof r w dom check) (f : α → β) {w' : β → List UInt8} {dom' : β → Prop}
    {check' : β → Option ε}
    (same : ∀ a, dom a → dom' (f a) ∧ w' (f a) = w a ∧ check' (f a) = check a)
    (onto : ∀ b, dom' b → ∃ a, dom a ∧ f a = b) : Reads eof (f <$> r) w' dom' check' where
  written := fun b rest inside => by
    obtain ⟨a, source, rfl⟩ := onto b inside
    obtain ⟨-, same_w, same_check⟩ := same a source
    rw [map_run, same_w, reads.written a rest source, same_check]
    cases check a <;> rfl
  only := fun {bytes b rest} ok => by
    rw [map_run] at ok
    cases read : r bytes with
    | error refusal =>
      rw [read] at ok
      cases ok
    | ok result =>
      rw [read] at ok
      obtain ⟨rfl, rfl⟩ := Prod.mk.inj (Except.ok.inj ok)
      obtain ⟨inside, passes, split⟩ := reads.only read
      obtain ⟨inside', same_w, same_check⟩ := same _ inside
      exact ⟨inside', same_check.trans passes, same_w.symm ▸ split⟩
  cut := fun {b front} inside passes isFront short => by
    obtain ⟨a, source, rfl⟩ := onto b inside
    obtain ⟨-, same_w, same_check⟩ := same a source
    rw [same_w] at isFront short
    rw [map_run, reads.cut source (same_check.symm.trans passes) isFront short]
    rfl

/-- Only the values in the domain matter. -/
theorem Reads.congr {r : Reader ε α} {w w' : α → List UInt8} {dom dom' : α → Prop}
    {check check' : α → Option ε} (reads : Reads eof r w dom check)
    (same_dom : ∀ a, dom a ↔ dom' a) (same_w : ∀ a, dom a → w a = w' a)
    (same_check : ∀ a, dom a → check a = check' a) : Reads eof r w' dom' check' := by
  rw [← id_map r]
  exact reads.map id (fun a inside => ⟨(same_dom a).mp inside, (same_w a inside).symm,
    (same_check a inside).symm⟩) fun a inside => ⟨a, (same_dom a).mpr inside, rfl⟩

theorem reads_nil (eof : ε) :
    Reads eof (pure .nil : Reader ε (List.Vector α 0)) (fun _ => []) (fun _ => True)
      (fun _ => none) where
  written := fun v rest _ => by
    rw [v.eq_nil]
    rfl
  only := fun {bytes v rest} ok => by
    obtain ⟨rfl, rfl⟩ := Prod.mk.inj (Except.ok.inj ok)
    exact ⟨trivial, rfl, rfl⟩
  cut := fun {v front} _ _ isFront short => absurd (List.prefix_nil.mp isFront) short

/-- **A format, a number of times**: it fails with the error of the first value refused. -/
theorem Reads.times {r : Reader ε α} {w : α → List UInt8} {check : α → Option ε}
    (reads : Reads eof r w (fun _ => True) check) (count : Nat) :
    Reads eof (r.times count) (fun v => v.toList.flatMap w) (fun _ => True)
      (fun v => v.toList.findSome? check) := by
  induction count with
  | zero =>
    refine (reads_nil eof).congr (fun _ => Iff.rfl) (fun v _ => ?_) fun v _ => ?_
    · rw [v.eq_nil]
      rfl
    · rw [v.eq_nil]
      rfl
  | succ count ih =>
    have later : ∀ a, check a = none → Reads eof (List.Vector.cons a <$> r.times count)
        (fun v : List.Vector α (count + 1) => v.tail.toList.flatMap w)
        (fun v => True ∧ v.head = a) (fun v => v.tail.toList.findSome? check) := by
      intro a _
      refine ih.map (List.Vector.cons a) (fun v _ => ⟨⟨trivial, v.head_cons a⟩, ?_, ?_⟩) ?_
      · rw [List.Vector.tail_cons]
      · rw [List.Vector.tail_cons]
      · rintro v ⟨-, rfl⟩
        exact ⟨v.tail, trivial, v.cons_head_tail⟩
    rw [times_succ]
    refine (reads.bind List.Vector.head later).congr (fun v => ?_) (fun v _ => ?_) fun v _ => ?_
    · simp
    · obtain ⟨a, rest, rfl⟩ := v.exists_eq_cons
      simp
    · obtain ⟨a, rest, rfl⟩ := v.exists_eq_cons
      rw [List.Vector.head_cons, List.Vector.tail_cons, List.Vector.toList_cons,
        List.findSome?_cons]
      cases check a <;> rfl

/-! ### Streams of values -/

/-- A reader takes a value off exactly these bytes: whatever follows them, and none of them less. -/
structure Parses (eof : ε) (r : Reader ε α) (bytes : List UInt8) (a : α) : Prop where
  whole : ∀ rest, r (bytes ++ rest) = .ok (a, rest)
  cut : ∀ {front}, front <+: bytes → front ≠ bytes → r front = .error eof

theorem Reads.parses {r : Reader ε α} {w : α → List UInt8} {dom : α → Prop} {check : α → Option ε}
    (reads : Reads eof r w dom check) {a : α} (inside : dom a) (passes : check a = none) :
    Parses eof r (w a) a where
  whole := reads.accepts inside passes
  cut := reads.cut inside passes

theorem parses_pure (eof : ε) (a : α) : Parses eof (pure a) [] a where
  whole := fun _ => rfl
  cut := fun isFront short => absurd (List.prefix_nil.mp isFront) short

theorem Parses.bind {r : Reader ε α} {s : α → Reader ε β} {bytes more : List UInt8} {a : α} {b : β}
    (first : Parses eof r bytes a) (second : Parses eof (s a) more b) :
    Parses eof (r >>= s) (bytes ++ more) b where
  whole := fun rest => by
    rw [bind_run, List.append_assoc, first.whole]
    exact second.whole rest
  cut := fun {front} isFront short => by
    rw [bind_run]
    rcases prefix_append_cases isFront with ⟨within, early⟩ | ⟨later, rfl, isLater⟩
    · rw [first.cut within early]
      rfl
    · rw [first.whole]
      exact second.cut isLater fun all => short (congrArg _ all)

/-- A reader, so many times or until it fails: the values read, and the error. -/
def drain (r : Reader ε α) : (calls : Nat) → List UInt8 → List α × Option ε
  | 0, _ => ([], none)
  | calls + 1, bytes =>
    match r bytes with
    | .error refusal => ([], some refusal)
    | .ok (a, rest) => (a :: (r.drain calls rest).1, (r.drain calls rest).2)

/-- **A stream that ends early gives the values that are in it as a whole**, and then the end of the
stream. -/
theorem drain_prefix {r : Reader ε α} (starved : r [] = .error eof) {parts : List (List UInt8)}
    {values : List α} (parses : List.Forall₂ (Parses eof r) parts values) :
    ∀ {front : List UInt8}, front <+: parts.flatten →
      ∃ count, (∀ i < values.length,
          i < count ↔ (parts.take (i + 1)).flatten.length ≤ front.length) ∧
        ∀ calls, values.length < calls → r.drain calls front = (values.take count, some eof) := by
  induction parses with
  | nil =>
    intro front isFront
    obtain rfl : front = [] := List.prefix_nil.mp isFront
    refine ⟨0, fun i few => absurd few (Nat.not_lt_zero i), fun calls enough => ?_⟩
    obtain ⟨calls, rfl⟩ := Nat.exists_eq_add_one_of_ne_zero (Nat.ne_of_gt enough)
    simp [drain, starved]
  | @cons part value parts values first _ ih =>
    intro front isFront
    rcases prefix_append_cases isFront with ⟨within, early⟩ | ⟨later, rfl, isLater⟩
    · -- the stream ends in the first value
      have short : front.length < part.length :=
        lt_of_not_ge fun long => early (within.eq_of_length_le long)
      refine ⟨0, fun i _ => iff_of_false (Nat.not_lt_zero i) ?_, fun calls enough => ?_⟩
      · rw [List.take_succ_cons, List.flatten_cons, List.length_append]
        omega
      · obtain ⟨calls, rfl⟩ := Nat.exists_eq_add_one_of_ne_zero (Nat.ne_zero_of_lt enough)
        simp [drain, first.cut within early]
    · obtain ⟨count, upto, read⟩ := ih isLater
      refine ⟨count + 1, fun i few => ?_, fun calls enough => ?_⟩
      · rw [List.take_succ_cons, List.flatten_cons, List.length_append, List.length_append]
        cases i with
        | zero => simp
        | succ i =>
          have same := upto i (Nat.lt_of_succ_lt_succ few)
          omega
      · obtain ⟨calls, rfl⟩ := Nat.exists_eq_add_one_of_ne_zero (Nat.ne_zero_of_lt enough)
        have rest := read calls (Nat.lt_of_succ_lt_succ enough)
        simp [drain, first.whole, rest]

/-- **One more value of a stream that ends early**: after the first ones, the reader accepts only the
next, and takes the bytes that it takes. -/
theorem next_of_prefix {r : Reader ε α} (starved : r [] = .error eof) {parts : List (List UInt8)}
    {values : List α} (parses : List.Forall₂ (Parses eof r) parts values) :
    ∀ {front : List UInt8} {count : Nat} {a : α} {rest : List UInt8}, front <+: parts.flatten →
      (parts.take count).flatten.length ≤ front.length →
      r (front.drop (parts.take count).flatten.length) = .ok (a, rest) →
      values[count]? = some a ∧
        (parts.take (count + 1)).flatten.length + rest.length = front.length := by
  induction parses with
  | nil =>
    intro front count a rest isFront _ read
    obtain rfl : front = [] := List.prefix_nil.mp isFront
    rw [List.drop_nil, starved] at read
    cases read
  | @cons part value parts values first _ ih =>
    intro front count a rest isFront long read
    cases count with
    | zero =>
      rw [List.take_zero, List.flatten_nil, List.length_nil, List.drop_zero] at read
      rcases prefix_append_cases isFront with ⟨within, early⟩ | ⟨later, rfl, -⟩
      · rw [first.cut within early] at read
        cases read
      · rw [first.whole] at read
        obtain ⟨rfl, rfl⟩ := Prod.mk.inj (Except.ok.inj read)
        simp
    | succ count =>
      rw [List.take_succ_cons, List.flatten_cons, List.length_append] at long read
      rcases prefix_append_cases isFront with ⟨within, early⟩ | ⟨later, rfl, isLater⟩
      · have short : front.length < part.length :=
          lt_of_not_ge fun enough => early (within.eq_of_length_le enough)
        omega
      · rw [List.length_append] at long
        rw [List.drop_append, List.drop_of_length_le (by omega), List.nil_append,
          Nat.add_sub_cancel_left] at read
        obtain ⟨next, taken⟩ := ih isLater (by omega) read
        refine ⟨next, ?_⟩
        rw [List.take_succ_cons, List.flatten_cons, List.length_append, List.length_append]
        omega

end Reader

end TrainsRing
