import Dalvik.Proofs.Faults

/-!
# Any operations on a cursor

An `Operation` is one call on a cursor, with any arguments of 64 bits; `after c ops` is the cursor
that some operations leave.

* `Operation.run_eq_ok`: a call succeeds exactly as `Operation.Done` says, from the bytes at the
  position;
* `Operation.run_stop`: a call that fails leaves the cursor as it is, except for an expectation that
  is not met;
* `Operation.run_fault`: a call faults only for a count so large that the end position wraps round;
* `reset_after`: a reset restores the position of its own mark, whatever was marked and reset in
  between;
* `operations_keep_bounds`: all of this after any operations.
-/

namespace Dalvik.Cursor

open Dalvik.Action (except_bind_eq_ok)

/-- A call on a cursor. -/
inductive Operation where
  | setPosition (target : Int64)
  | offset (delta : Int64)
  | seek (distance whence : Int64)
  | mark
  | reset
  | peek (n : Int64)
  | bytes (n : Int64)
  | read (room : Nat)
  | u8
  | u16
  | u32
  | u64
  | expect (what want : Bytes) (short : want.length < 2 ^ 63)
  | uleb
  | sleb

/-- What a call answers. -/
inductive Answer where
  | done
  | position (p : Int)
  | bytes (b : Bytes)
  | number (v : Nat)
  | unsigned (v : UInt32) (length : Nat)
  | signed (v : Int32) (length : Nat)
  deriving DecidableEq

variable {c c' : Cursor} {a : Answer} {b : Bytes} {op : Operation} {r : Except Stop (Answer × Cursor)} {n : Int}

/-- The answer of a reader and the cursor it gives; if it fails the cursor stays. -/
def settle (c : Cursor) : Except Stop (Answer × Cursor) → Except Stop Answer × Cursor
  | .ok (a, c') => (.ok a, c')
  | .error e => (.error e, c)

namespace Operation

/-- The answer of a call, and the cursor it leaves. -/
def run (c : Cursor) : Operation → Except Stop Answer × Cursor
  | .setPosition target => settle c ((c.setPosition target.toInt).map fun c' => (.done, c'))
  | .offset delta => settle c ((c.offset delta.toInt).map fun c' => (.done, c'))
  | .seek distance whence =>
    settle c ((c.seek distance.toInt whence.toInt).map fun c' => (.position c'.pos, c'))
  | .mark => (.ok .done, c.mark)
  | .reset => settle c (c.reset.map fun c' => (.done, c'))
  | .peek n => settle c ((c.peek n.toInt).map fun b => (.bytes b, c))
  | .bytes n => settle c ((c.bytes n.toInt).map fun (b, c') => (.bytes b, c'))
  | .read room => settle c ((c.read room).map fun (b, c') => (.bytes b, c'))
  | .u8 => settle c (c.u8.map fun (v, c') => (.number v.toNat, c'))
  | .u16 => settle c (c.u16.map fun (v, c') => (.number v.toNat, c'))
  | .u32 => settle c (c.u32.map fun (v, c') => (.number v.toNat, c'))
  | .u64 => settle c (c.u64.map fun (v, c') => (.number v.toNat, c'))
  | .expect what want _ => ((c.expect what want).1.map fun _ => .done, (c.expect what want).2)
  | .uleb => settle c (c.uleb.map fun (v, n, c') => (.unsigned v n, c'))
  | .sleb => settle c (c.sleb.map fun (v, n, c') => (.signed v n, c'))

/-- The number of bytes that a call asks for. -/
def asks : Operation → Option Int
  | .peek n => some n.toInt
  | .bytes n => some n.toInt
  | .expect _ want _ => some want.length
  | _ => none

end Operation

/-- The cursor after some calls. -/
def after (c : Cursor) (ops : List Operation) : Cursor := ops.foldl (fun c op => (op.run c).2) c

/-! ## What calls are to do -/

/-- `c'` is `c` at position `target`, which lies in the data. -/
structure Moved (c : Cursor) (target : Int) (c' : Cursor) : Prop where
  low : 0 ≤ target
  high : target ≤ c.data.size
  next : c' = { c with pos := target.toNat }

/-- The next `width` bytes are read as a little-endian number. -/
def Numbered (c : Cursor) (width : Nat) (a : Answer) (c' : Cursor) : Prop :=
  ∃ b : Bytes, b.length = width ∧ a = .number (littleEndian b) ∧ c.Spans b c'

/-- The position that `seek` counts from. -/
def origin? (c : Cursor) (whence : Int) : Option Int :=
  if whence = 0 then some 0
  else if whence = 1 then some c.pos
  else if whence = 2 then some c.data.size
  else none

namespace Operation

/-- `op.Done c a c'`: the answer of a successful call and the cursor it leaves. -/
def Done (c : Cursor) : Operation → Answer → Cursor → Prop
  | .setPosition target, a, c' => a = .done ∧ c.Moved target.toInt c'
  | .offset delta, a, c' => a = .done ∧ c.Moved (c.pos + delta.toInt) c'
  | .seek distance whence, a, c' =>
    ∃ start, c.origin? whence.toInt = some start ∧ a = .position (start + distance.toInt) ∧
      c.Moved (start + distance.toInt) c'
  | .mark, a, c' => a = .done ∧ c' = { c with marks := c.pos :: c.marks }
  | .reset, a, c' => a = .done ∧ ∃ p marks, c.marks = p :: marks ∧ c' = { c with pos := p, marks }
  | .peek n, a, c' => c' = c ∧ ∃ b, (b.length : Int) = n.toInt ∧ a = .bytes b ∧ ∃ next, c.Spans b next
  | .bytes n, a, c' => ∃ b, (b.length : Int) = n.toInt ∧ a = .bytes b ∧ c.Spans b c'
  | .read room, a, c' =>
    c.pos < c.data.size ∧ ∃ b, b.length = min room (c.data.size - c.pos) ∧ a = .bytes b ∧ c.Spans b c'
  | .u8, a, c' => c.Numbered 1 a c'
  | .u16, a, c' => c.Numbered 2 a c'
  | .u32, a, c' => c.Numbered 4 a c'
  | .u64, a, c' => c.Numbered 8 a c'
  | .expect _ want _, a, c' => a = .done ∧ c.Spans want c'
  | .uleb, a, c' =>
    ∃ b v, Leb128.decodeU b = some (v, b.length) ∧ a = .unsigned v b.length ∧ c.Spans b c'
  | .sleb, a, c' =>
    ∃ b v, Leb128.decodeS b = some (v, b.length) ∧ a = .signed v b.length ∧ c.Spans b c'

/-- The cursor that a failed call leaves: the bytes that were read are passed over if they are not the expected ones,
and otherwise the cursor stays. -/
def Stopped (c : Cursor) : Operation → Stop → Cursor → Prop
  | .expect what want _, stop, c' =>
    (c' = c ∧ c.data.size < c.pos + want.length) ∨
      ∃ got, got.length = want.length ∧ got ≠ want ∧ stop = .failure (.mismatch what got want) ∧ c.Spans got c'
  | _, _, c' => c' = c

/-- The marks that a call leaves. -/
def marksLeft (c : Cursor) : Operation → List Nat
  | .mark => c.pos :: c.marks
  | .reset => c.marks.tail
  | _ => c.marks

end Operation

/-- The position and the marks lie in the data, and eight bytes behind the data is still a 64-bit position. -/
structure Sound (c : Cursor) : Prop where
  room : c.data.size + 8 < 2 ^ 63
  pos : c.pos ≤ c.data.size
  marks : ∀ p ∈ c.marks, p ≤ c.data.size

/-! ## Outcomes -/

theorem map_eq_ok {α β : Type} {f : α → β} {e : Except Stop α} {y : β} : e.map f = .ok y ↔ ∃ x, e = .ok x ∧ f x = y := by
  cases e <;> simp [Except.map]

theorem map_eq_error {α β : Type} {f : α → β} {e : Except Stop α} {s : Stop} : e.map f = .error s ↔ e = .error s := by
  cases e <;> simp [Except.map]

theorem settle_eq_ok : settle c r = (.ok a, c') ↔ r = .ok (a, c') := by
  cases r <;> simp [settle, Prod.ext_iff]

theorem settle_eq_error {s : Stop} : settle c r = (.error s, c') ↔ r = .error s ∧ c' = c := by
  cases r with
  | error e => simp [settle, eq_comm]
  | ok p => simp [settle]

/-- A call that asks for no bytes does not fault. -/
theorem not_faulty (asks : op.asks = none) (run : op.run c = settle c r) (h : Faultless r) :
    (∃ m c', op.run c = (.error (.fault m), c')) ↔ ∃ n, op.asks = some n ∧ 2 ^ 63 ≤ c.pos + n := by
  rw [run, asks]
  constructor
  · rintro ⟨m, c', e⟩
    exact absurd (settle_eq_error.1 e).1 (h m)
  · rintro ⟨n, absent, -⟩
    cases absent

/-- `op` faults exactly where the end position wraps round, if its reader does. -/
theorem faulty_iff {α : Type} {e : Except Stop α} {f : α → Answer × Cursor} (asks : op.asks = some n)
    (run : op.run c = settle c (e.map f))
    (outcome : (2 ^ 63 ≤ c.pos + n ∧ e = fault none) ∨ (c.pos + n < 2 ^ 63 ∧ Faultless e)) :
    (∃ m c', op.run c = (.error (.fault m), c')) ↔ ∃ n, op.asks = some n ∧ 2 ^ 63 ≤ c.pos + n := by
  simp only [run, asks, settle_eq_error, map_eq_error, Option.some.injEq, exists_eq_left']
  obtain ⟨beyond, h⟩ | ⟨inside, h⟩ := outcome
  · simp only [beyond, iff_true]
    exact ⟨none, c, h, rfl⟩
  · constructor
    · rintro ⟨m, -, e, -⟩
      exact absurd e (h m)
    · intro beyond
      omega

/-! ## Positions -/

/-- A position plus a 64-bit number either does not wrap round or gives a negative number. -/
theorem wrap64_cases (low : -2 ^ 63 ≤ n) (high : n < 2 ^ 64) :
    (wrap64 n = n ∧ n < 2 ^ 63) ∨ (wrap64 n < 0 ∧ 2 ^ 63 ≤ n) := by
  have power : ((twoPow 64 : Nat) : Int) = 18446744073709551616 := by rfl
  unfold wrap64 Int.bmod
  rw [power]
  dsimp only
  split <;> omega

theorem setPosition_eq_ok : c.setPosition n = .ok c' ↔ c.Moved n c' := by
  unfold setPosition
  constructor
  · intro h
    split at h
    · cases h
    · cases h
      exact ⟨by omega, by omega, rfl⟩
  · rintro ⟨low, high, rfl⟩
    rw [if_neg (by omega)]

theorem faultless_setPosition : Faultless (c.setPosition n) := by
  unfold setPosition
  split
  · exact .fail _
  · exact .ok _

/-- A target that wraps round is refused like the one it stands for. -/
theorem moved_wrap64 (hc : c.Sound) (low : -2 ^ 63 ≤ n) (high : n < 2 ^ 64) : c.Moved (wrap64 n) c' ↔ c.Moved n c' := by
  have room := hc.room
  obtain ⟨same, -⟩ | ⟨negative, large⟩ := wrap64_cases low high
  · rw [same]
  · constructor
    · intro h
      have := h.low
      omega
    · intro h
      have := h.high
      omega

/-- `seek` sets the position to the sum, which may wrap round, of its origin and the distance. -/
theorem seek_eq (c : Cursor) (distance whence : Int64) :
    c.seek distance.toInt whence.toInt =
      match c.origin? whence.toInt with
      | some start => c.setPosition (wrap64 (start + distance.toInt))
      | none => fail (.badWhence whence.toInt) := by
  have low := distance.le_toInt
  have high := distance.toInt_lt
  have direct : wrap64 (0 + distance.toInt) = distance.toInt := by
    rw [Int.zero_add]
    obtain ⟨same, -⟩ | ⟨-, large⟩ := wrap64_cases (n := distance.toInt) (by omega) (by omega)
    · exact same
    · omega
  unfold seek origin?
  split
  · exact congrArg c.setPosition direct.symm
  · split
    · rfl
    · split <;> rfl

theorem origin?_bounds (hc : c.Sound) {start : Int} {whence : Int} (h : c.origin? whence = some start) :
    0 ≤ start ∧ start < 2 ^ 63 := by
  have room := hc.room
  have pos := hc.pos
  unfold origin? at h
  split at h
  · cases h
    omega
  · split at h
    · cases h
      omega
    · split at h
      · cases h
        omega
      · cases h

/-! ## Bytes -/

theorem peek_gives (pos : c.pos ≤ c.data.size) : c.peek n = .ok b ↔ (b.length : Int) = n ∧ ∃ next, c.Spans b next := by
  constructor
  · intro h
    unfold peek at h
    obtain ⟨⟨⟩, enough, h⟩ := except_bind_eq_ok.1 h
    unfold need at enough
    split at enough
    · cases enough
    · next counted =>
      split at h
      · cases h
      · next fits =>
        cases h
        obtain ⟨m, rfl⟩ := Int.eq_ofNat_of_zero_le (a := n) (by omega)
        have spans := spans_slice (c := c) (n := m) (by omega)
        refine ⟨?_, _, spans⟩
        rw [Int.toNat_natCast, slice_eq, List.length_take, List.length_drop, Array.length_toList]
        omega
  · rintro ⟨rfl, next, spans⟩
    obtain ⟨peeked, h, e⟩ := except_bind_eq_ok.1 (spans.bytes_ok pos)
    cases e
    exact h

theorem bytes_gives (pos : c.pos ≤ c.data.size) : c.bytes n = .ok (b, c') ↔ (b.length : Int) = n ∧ c.Spans b c' := by
  constructor
  · intro h
    obtain ⟨got, peeked, e⟩ := except_bind_eq_ok.1 h
    cases e
    obtain ⟨rfl, next, spans⟩ := (peek_gives pos).1 peeked
    exact ⟨rfl, spans.here, by simp⟩
  · rintro ⟨rfl, spans⟩
    exact spans.bytes_ok pos

/-- `peek` faults for a count so large that the end position wraps round, and for no other. -/
theorem peek_cases (hc : c.Sound) (low : -2 ^ 63 ≤ n) (high : n < 2 ^ 63) :
    (2 ^ 63 ≤ c.pos + n ∧ c.peek n = fault none) ∨ (c.pos + n < 2 ^ 63 ∧ Faultless (c.peek n)) := by
  have room := hc.room
  have pos := hc.pos
  have wrapped := wrap64_cases (n := c.pos + n) (by omega) (by omega)
  by_cases refused : n < 0 ∨ (c.data.size : Int) < wrap64 (c.pos + n)
  · have counted : c.need n = fail (.shortRead n c.pos c.available) := by rw [need, if_pos refused]
    right
    refine ⟨by omega, ?_⟩
    unfold peek
    rw [counted]
    exact .fail _
  · have counted : c.need n = .ok ⟨⟩ := by rw [need, if_neg refused]
    unfold peek
    rw [counted]
    by_cases beyond : 2 ^ 63 ≤ c.pos + n
    · left
      refine ⟨beyond, ?_⟩
      show (if (c.data.size : Int) < c.pos + n then _ else _) = _
      rw [if_pos (by omega)]
      rfl
    · right
      refine ⟨by omega, ?_⟩
      show Faultless (if (c.data.size : Int) < c.pos + n then _ else _)
      rw [if_neg (by omega)]
      exact .ok _

theorem bytes_cases (hc : c.Sound) (low : -2 ^ 63 ≤ n) (high : n < 2 ^ 63) :
    (2 ^ 63 ≤ c.pos + n ∧ c.bytes n = fault none) ∨ (c.pos + n < 2 ^ 63 ∧ Faultless (c.bytes n)) := by
  obtain ⟨beyond, h⟩ | ⟨inside, h⟩ := peek_cases hc low high
  · left
    refine ⟨beyond, ?_⟩
    unfold bytes
    rw [h]
    rfl
  · exact .inr ⟨inside, h.bind fun _ _ => .ok _⟩

theorem read_eq_ok (pos : c.pos ≤ c.data.size) {room : Nat} :
    c.read room = .ok (b, c') ↔ c.pos < c.data.size ∧ b.length = min room (c.data.size - c.pos) ∧ c.Spans b c' := by
  have count : (c.slice c.pos (min room c.available)).length = min room (c.data.size - c.pos) := by
    simp only [slice_eq, available, List.length_take, List.length_drop, Array.length_toList]
    omega
  have spans := spans_slice (c := c) (n := min room c.available) (by unfold available; omega)
  unfold read finished
  constructor
  · intro h
    split at h
    · cases h
    · next more =>
      cases h
      refine ⟨by simpa using more, count, spans.here, rfl⟩
  · rintro ⟨more, length, found⟩
    have same : b = c.slice c.pos (min room c.available) := by
      rw [← found.slice, length]
      rfl
    rw [if_neg (by simpa using more), found.next, same]

theorem faultless_read {room : Nat} : Faultless (c.read room) := by
  unfold read
  split
  · exact .fail _
  · exact .ok _

theorem faultless_u64 : Faultless c.u64 := (faultless_number 8).bind fun _ _ => .ok _

/-- `number` reads up to eight bytes, exactly where they are there. -/
theorem number_gives (hc : c.Sound) {width v : Nat} (hw : width ≤ 8) :
    c.number width = .ok (v, c') ↔ ∃ b : Bytes, b.length = width ∧ v = littleEndian b ∧ c.Spans b c' := by
  have room := hc.room
  have pos := hc.pos
  unfold number
  rw [except_bind_eq_ok]
  constructor
  · rintro ⟨⟨⟩, enough, e⟩
    cases e
    unfold need at enough
    split at enough
    · cases enough
    · next counted =>
      have wrapped := wrap64_cases (n := c.pos + width) (by omega) (by omega)
      have spans := spans_slice (c := c) (n := width) (by omega)
      refine ⟨c.slice c.pos width, ?_, rfl, spans⟩
      simp only [slice_eq, List.length_take, List.length_drop, Array.length_toList]
      omega
  · rintro ⟨b, rfl, rfl, spans⟩
    refine ⟨⟨⟩, need_of_le (spans.le_data pos), ?_⟩
    rw [spans.slice, spans.next]
    rfl

/-- A number of a fixed-width type is read exactly where its bytes are there. -/
theorem fixed_eq_ok {α : Type} (hc : c.Sound) {width : Nat} (hw : width ≤ 8) {conv : Nat → α} {back : α → Nat}
    (inverse : ∀ v < 256 ^ width, back (conv v) = v) :
    (do let (v, c') ← c.number width; return (conv v, c') : Except Stop (α × Cursor)).map
      (fun (v, c') => (Answer.number (back v), c')) = .ok (a, c') ↔ c.Numbered width a c' := by
  rw [map_eq_ok]
  constructor
  · rintro ⟨_, read, e⟩
    obtain ⟨⟨v, next⟩, h, given⟩ := except_bind_eq_ok.1 read
    cases given
    cases e
    obtain ⟨b, rfl, rfl, spans⟩ := (number_gives hc hw).1 h
    exact ⟨b, rfl, by rw [inverse _ (littleEndian_lt b)], spans⟩
  · rintro ⟨b, rfl, rfl, spans⟩
    have h := (number_gives hc hw).2 ⟨b, rfl, rfl, spans⟩
    refine ⟨_, except_bind_eq_ok.2 ⟨_, h, rfl⟩, ?_⟩
    show (Answer.number (back (conv (littleEndian b))), c') = _
    rw [inverse _ (littleEndian_lt b)]

/-- `expect` finds too few bytes, other bytes, or the expected ones. -/
theorem expect_cases (pos : c.pos ≤ c.data.size) (what want : Bytes) :
    (∃ e, c.bytes want.length = .error e ∧ c.expect what want = (.error e, c)) ∨
    (∃ got c', got.length = want.length ∧ got ≠ want ∧ c.Spans got c' ∧
      c.expect what want = (fail (.mismatch what got want), c')) ∨
    ∃ c', c.Spans want c' ∧ c.expect what want = (.ok ⟨⟩, c') := by
  cases read : c.bytes want.length with
  | error e => exact .inl ⟨e, rfl, by rw [expect, read]; rfl⟩
  | ok p =>
    obtain ⟨got, c'⟩ := p
    obtain ⟨length, spans⟩ := (bytes_gives pos).1 read
    by_cases same : got = want
    · subst same
      exact .inr (.inr ⟨c', spans, by rw [expect, read, compareRead, if_pos rfl]⟩)
    · exact .inr (.inl ⟨got, c', Int.natCast_inj.1 length, same, spans, by rw [expect, read, compareRead, if_neg same]⟩)

/-! ## One call -/

namespace Operation

/-- A call succeeds exactly as `Done` says. -/
theorem run_eq_ok (hc : c.Sound) : op.run c = (.ok a, c') ↔ op.Done c a c' := by
  have room := hc.room
  have pos := hc.pos
  cases op with
  | setPosition target =>
    simp only [run, Done, settle_eq_ok, map_eq_ok, setPosition_eq_ok, Prod.mk.injEq]
    constructor
    · rintro ⟨_, moved, rfl, rfl⟩
      exact ⟨rfl, moved⟩
    · rintro ⟨rfl, moved⟩
      exact ⟨_, moved, rfl, rfl⟩
  | offset delta =>
    have low := delta.le_toInt
    have high := delta.toInt_lt
    simp only [run, Done, settle_eq_ok, map_eq_ok, Cursor.offset, setPosition_eq_ok, Prod.mk.injEq,
      moved_wrap64 hc (n := c.pos + delta.toInt) (by omega) (by omega)]
    constructor
    · rintro ⟨_, moved, rfl, rfl⟩
      exact ⟨rfl, moved⟩
    · rintro ⟨rfl, moved⟩
      exact ⟨_, moved, rfl, rfl⟩
  | seek distance whence =>
    have low := distance.le_toInt
    have high := distance.toInt_lt
    simp only [run, Done, settle_eq_ok, map_eq_ok, seek_eq, Prod.mk.injEq]
    cases origin : c.origin? whence.toInt with
    | none => simp [fail]
    | some start =>
      have bounds := origin?_bounds hc origin
      simp only [setPosition_eq_ok, Option.some.injEq,
        moved_wrap64 hc (n := start + distance.toInt) (by omega) (by omega)]
      constructor
      · rintro ⟨_, moved, rfl, rfl⟩
        refine ⟨start, rfl, ?_, moved⟩
        rw [moved.next]
        simp [moved.low]
      · rintro ⟨_, rfl, rfl, moved⟩
        refine ⟨_, moved, ?_, rfl⟩
        rw [moved.next]
        simp [moved.low]
  | mark => simp [run, Done, Cursor.mark, eq_comm]
  | reset =>
    simp only [run, Done, settle_eq_ok, map_eq_ok, Cursor.reset, Prod.mk.injEq]
    cases marks : c.marks with
    | nil => simp [fail]
    | cons p rest => simp [eq_comm, and_comm]
  | peek n =>
    simp only [run, Done, settle_eq_ok, map_eq_ok, peek_gives pos, Prod.mk.injEq]
    constructor
    · rintro ⟨b, ⟨length, spans⟩, rfl, rfl⟩
      exact ⟨rfl, b, length, rfl, spans⟩
    · rintro ⟨rfl, b, length, rfl, spans⟩
      exact ⟨b, ⟨length, spans⟩, rfl, rfl⟩
  | bytes n =>
    simp only [run, Done, settle_eq_ok, map_eq_ok, Prod.exists, bytes_gives pos, Prod.mk.injEq]
    constructor
    · rintro ⟨b, _, ⟨length, spans⟩, rfl, rfl⟩
      exact ⟨b, length, rfl, spans⟩
    · rintro ⟨b, length, rfl, spans⟩
      exact ⟨b, _, ⟨length, spans⟩, rfl, rfl⟩
  | read room =>
    simp only [run, Done, settle_eq_ok, map_eq_ok, Prod.exists, read_eq_ok pos, Prod.mk.injEq]
    constructor
    · rintro ⟨b, _, ⟨more, length, spans⟩, rfl, rfl⟩
      exact ⟨more, b, length, rfl, spans⟩
    · rintro ⟨more, b, length, rfl, spans⟩
      exact ⟨b, _, ⟨more, length, spans⟩, rfl, rfl⟩
  | u8 =>
    rw [run, settle_eq_ok]
    exact fixed_eq_ok hc (by decide) fun v small => UInt8.toNat_ofNat_of_lt' small
  | u16 =>
    rw [run, settle_eq_ok]
    exact fixed_eq_ok hc (by decide) fun v small => UInt16.toNat_ofNat_of_lt' small
  | u32 =>
    rw [run, settle_eq_ok]
    exact fixed_eq_ok hc (by decide) fun v small => UInt32.toNat_ofNat_of_lt' small
  | u64 =>
    have holds : ∀ v < 256 ^ 8, (UInt64.ofNat v).toNat = v := by
      intro v small
      norm_num at small
      exact UInt64.toNat_ofNat_of_lt' small
    rw [run, settle_eq_ok]
    exact fixed_eq_ok hc (by decide) holds
  | expect what want short =>
    rw [run, Done]
    obtain ⟨e, read, h⟩ | ⟨got, next, length, other, spans, h⟩ | ⟨next, spans, h⟩ := expect_cases pos what want
    · rw [h]
      constructor
      · intro given
        cases given
      · rintro ⟨-, found⟩
        rw [found.bytes_ok pos] at read
        cases read
    · rw [h]
      constructor
      · intro given
        cases given
      · rintro ⟨-, found⟩
        exact absurd (by rw [← found.slice, ← spans.slice, length]) other
    · rw [h]
      constructor
      · rintro ⟨⟩
        exact ⟨rfl, spans⟩
      · rintro ⟨rfl, found⟩
        rw [spans.next, found.next]
        rfl
  | uleb =>
    simp only [run, Done, settle_eq_ok, map_eq_ok, Prod.exists, uleb_eq_ok, Prod.mk.injEq]
    constructor
    · rintro ⟨v, _, _, ⟨b, rfl, spans, read⟩, rfl, rfl⟩
      exact ⟨b, v, read, rfl, spans⟩
    · rintro ⟨b, v, read, rfl, spans⟩
      exact ⟨v, _, _, ⟨b, rfl, spans, read⟩, rfl, rfl⟩
  | sleb =>
    simp only [run, Done, settle_eq_ok, map_eq_ok, Prod.exists, sleb_eq_ok, Prod.mk.injEq]
    constructor
    · rintro ⟨v, _, _, ⟨b, rfl, spans, read⟩, rfl, rfl⟩
      exact ⟨b, v, read, rfl, spans⟩
    · rintro ⟨b, v, read, rfl, spans⟩
      exact ⟨v, _, _, ⟨b, rfl, spans, read⟩, rfl, rfl⟩

/-- A call that fails leaves the cursor as `Stopped` says. -/
theorem run_stop (hc : c.Sound) {stop : Stop} (h : op.run c = (.error stop, c')) : op.Stopped c stop c' := by
  cases op with
  | mark => cases h
  | expect what want short =>
    have pos := hc.pos
    rw [run] at h
    obtain ⟨e, read, given⟩ | ⟨got, next, length, other, spans, given⟩ | ⟨next, spans, given⟩ := expect_cases pos what want
    · rw [given] at h
      cases h
      refine .inl ⟨rfl, ?_⟩
      by_contra fits
      -- bytes that are there are read
      have spans := spans_slice (c := c) (n := want.length) (by omega)
      have count : (c.slice c.pos want.length).length = want.length := by
        simp only [slice_eq, List.length_take, List.length_drop, Array.length_toList]
        omega
      rw [(bytes_gives pos).2 ⟨by rw [count], spans⟩] at read
      cases read
    · rw [given] at h
      cases h
      exact .inr ⟨got, length, other, rfl, spans⟩
    · rw [given] at h
      cases h
  | setPosition _ | offset _ | seek _ _ | reset | peek _ | bytes _ | read _ | u8 | u16 | u32 | u64 | uleb | sleb =>
    simp only [run, settle_eq_error] at h
    exact h.2

/-- A call faults exactly if it asks for so many bytes that the end position wraps round. -/
theorem run_fault (hc : c.Sound) :
    (∃ m c', op.run c = (.error (.fault m), c')) ↔ ∃ n, op.asks = some n ∧ 2 ^ 63 ≤ c.pos + n := by
  cases op with
  | setPosition target => exact not_faulty rfl (by rw [run]) faultless_setPosition.map
  | offset delta => exact not_faulty rfl (by rw [run, Cursor.offset]) faultless_setPosition.map
  | seek distance whence =>
    refine not_faulty rfl (by rw [run]) (Faultless.map ?_)
    rw [seek_eq]
    split
    · exact faultless_setPosition
    · exact .fail _
  | mark => simp [run, asks]
  | reset =>
    refine not_faulty rfl (by rw [run]) (Faultless.map ?_)
    unfold Cursor.reset
    split
    · exact .fail _
    · exact .ok _
  | peek n => exact faulty_iff rfl (by rw [run]) (peek_cases hc n.le_toInt n.toInt_lt)
  | bytes n => exact faulty_iff rfl (by rw [run]) (bytes_cases hc n.le_toInt n.toInt_lt)
  | read room => exact not_faulty rfl (by rw [run]) faultless_read.map
  | u8 => exact not_faulty rfl (by rw [run]) faultless_u8.map
  | u16 => exact not_faulty rfl (by rw [run]) faultless_u16.map
  | u32 => exact not_faulty rfl (by rw [run]) faultless_u32.map
  | u64 => exact not_faulty rfl (by rw [run]) faultless_u64.map
  | expect what want short =>
    have large : ((want.length : Nat) : Int) < 2 ^ 63 := by exact_mod_cast short
    simp only [run, asks, Option.some.injEq, exists_eq_left']
    obtain ⟨beyond, h⟩ | ⟨inside, h⟩ := bytes_cases hc (n := (want.length : Nat)) (by omega) large
    · simp only [beyond, iff_true]
      refine ⟨none, c, ?_⟩
      rw [Cursor.expect, h]
      rfl
    · constructor
      · rintro ⟨m, c', e⟩
        obtain ⟨stop, read, given⟩ | ⟨got, next, -, -, -, given⟩ | ⟨next, -, given⟩ := expect_cases hc.pos what want
        · rw [given] at e
          cases e
          exact absurd read (h m)
        · rw [given] at e
          cases e
        · rw [given] at e
          cases e
      · intro beyond
        omega
  | uleb => exact not_faulty rfl (by rw [run]) faultless_uleb.map
  | sleb => exact not_faulty rfl (by rw [run]) faultless_sleb.map

/-- A call keeps the data, leaves a position inside it, and pushes or pops at most one mark. -/
theorem run_keeps (hc : c.Sound) :
    (op.run c).2.data = c.data ∧ (op.run c).2.pos ≤ c.data.size ∧ (op.run c).2.marks = op.marksLeft c := by
  have pos := hc.pos
  have spanned : ∀ {b next}, c.Spans b next → next.data = c.data ∧ next.pos ≤ c.data.size ∧ next.marks = c.marks := by
    intro b next spans
    have fits := spans.le_data pos
    rw [spans.next]
    exact ⟨rfl, fits, rfl⟩
  have moved : ∀ {target next}, c.Moved target next → next.data = c.data ∧ next.pos ≤ c.data.size ∧ next.marks = c.marks := by
    intro target next h
    have high := h.high
    rw [h.next]
    refine ⟨rfl, ?_, rfl⟩
    show target.toNat ≤ c.data.size
    omega
  rcases outcome : op.run c with ⟨r, c'⟩
  cases r with
  | ok a =>
    have done := (run_eq_ok hc).1 outcome
    cases op with
    | setPosition _ | offset _ => exact moved done.2
    | seek distance whence =>
      obtain ⟨start, -, -, h⟩ := done
      exact moved h
    | mark =>
      obtain ⟨-, rfl⟩ := done
      exact ⟨rfl, pos, rfl⟩
    | reset =>
      obtain ⟨-, p, marks, top, rfl⟩ := done
      refine ⟨rfl, hc.marks p (by simp [top]), ?_⟩
      rw [marksLeft, top]
      rfl
    | peek n =>
      obtain ⟨rfl, -⟩ := done
      exact ⟨rfl, pos, rfl⟩
    | bytes n =>
      obtain ⟨b, -, -, spans⟩ := done
      exact spanned spans
    | read room =>
      obtain ⟨-, b, -, -, spans⟩ := done
      exact spanned spans
    | u8 | u16 | u32 | u64 =>
      obtain ⟨b, -, -, spans⟩ := done
      exact spanned spans
    | expect what want short => exact spanned done.2
    | uleb | sleb =>
      obtain ⟨b, v, -, -, spans⟩ := done
      exact spanned spans
  | error stop =>
    have stopped := run_stop hc outcome
    have stays : c' = c → c'.data = c.data ∧ c'.pos ≤ c.data.size ∧ c'.marks = c.marks := by
      rintro rfl
      exact ⟨rfl, pos, rfl⟩
    cases op with
    | mark => cases outcome
    | reset =>
      have absent : c.marks = [] := by
        cases top : c.marks with
        | nil => rfl
        | cons p marks =>
          rw [run, Cursor.reset, top] at outcome
          cases outcome
      obtain ⟨data, inside, marks⟩ := stays stopped
      exact ⟨data, inside, by rw [marksLeft, absent]; exact marks.trans absent⟩
    | expect what want short =>
      obtain ⟨same, -⟩ | ⟨got, -, -, -, spans⟩ := stopped
      · exact stays same
      · exact spanned spans
    | setPosition _ | offset _ | seek _ _ | peek _ | bytes _ | read _ | u8 | u16 | u32 | u64 | uleb | sleb =>
      exact stays stopped

end Operation

/-! ## Any calls -/

theorem Sound.run (hc : c.Sound) (op : Operation) : (op.run c).2.Sound := by
  obtain ⟨data, pos, marks⟩ := op.run_keeps hc
  refine ⟨by rw [data]; exact hc.room, by rw [data]; exact pos, ?_⟩
  rw [data, marks]
  cases op with
  | mark =>
    intro p mem
    obtain rfl | mem := List.mem_cons.1 mem
    · exact hc.pos
    · exact hc.marks p mem
  | reset => exact fun p mem => hc.marks p (List.mem_of_mem_tail mem)
  | setPosition _ | offset _ | seek _ _ | peek _ | bytes _ | read _ | u8 | u16 | u32 | u64 | expect _ _ _ | uleb | sleb =>
    exact hc.marks

theorem after_cons (op : Operation) (ops : List Operation) : c.after (op :: ops) = (op.run c).2.after ops := rfl

theorem after_keeps (hc : c.Sound) (ops : List Operation) : (c.after ops).Sound ∧ (c.after ops).data = c.data := by
  induction ops generalizing c with
  | nil => exact ⟨hc, rfl⟩
  | cons op ops ih =>
    obtain ⟨sound, data⟩ := ih (hc.run op)
    rw [after_cons]
    exact ⟨sound, data.trans (op.run_keeps hc).1⟩

theorem suffix_marksLeft {base : List Nat} (kept : base <:+ c.marks) (deep : base.length ≤ (op.marksLeft c).length) :
    base <:+ op.marksLeft c := by
  cases op with
  | mark => exact kept.trans (List.suffix_cons _ _)
  | reset => exact List.suffix_of_suffix_length_le kept (List.tail_suffix _) deep
  | setPosition _ | offset _ | seek _ _ | peek _ | bytes _ | read _ | u8 | u16 | u32 | u64 | expect _ _ _ | uleb | sleb =>
    exact kept

/-- Marks that are never popped are still there after any operations. -/
theorem suffix_after (hc : c.Sound) {base : List Nat} (kept : base <:+ c.marks) {ops : List Operation}
    (deep : ∀ k, base.length ≤ (c.after (ops.take k)).marks.length) : base <:+ (c.after ops).marks := by
  induction ops generalizing c with
  | nil => exact kept
  | cons op ops ih =>
    have left := (op.run_keeps hc).2.2
    have next : base <:+ (op.run c).2.marks := by
      have deep := deep 1
      rw [List.take_succ_cons, after_cons, List.take_zero] at deep
      rw [left]
      exact suffix_marksLeft kept (left ▸ deep)
    exact ih (hc.run op) next fun k => deep (k + 1)

/-- `reset` restores the cursor at its mark, if that mark has not been popped and is the last one again. -/
theorem reset_after (hc : c.Sound) {inner : List Operation}
    (held : ∀ k, c.marks.length < (c.mark.after (inner.take k)).marks.length)
    (last : (c.mark.after inner).marks.length = c.marks.length + 1) :
    Operation.reset.run (c.mark.after inner) = (.ok .done, c) := by
  have marked : c.mark.Sound := hc.run .mark
  obtain ⟨sound, data⟩ := after_keeps marked inner
  have kept : c.pos :: c.marks <:+ (c.mark.after inner).marks := suffix_after marked List.suffix_rfl held
  have marks : c.pos :: c.marks = (c.mark.after inner).marks := kept.eq_of_length last.symm
  refine (Operation.run_eq_ok sound).2 ⟨rfl, c.pos, c.marks, marks.symm, ?_⟩
  rw [data]
  rfl

theorem sound_ofBytes {data : Bytes} (room : data.length + 8 < 2 ^ 63) : (ofBytes data).Sound where
  room := by simpa [ofBytes] using room
  pos := Nat.zero_le _
  marks := nofun

/-- After any operations, including those that faulted, the position and the marks lie in the data. The next call
succeeds exactly as `Done` says, from the bytes at the position; if it fails it leaves the cursor as `Stopped` says;
and it faults exactly if the position plus the count it asks for is no 64-bit number. A reset restores the position of
its own mark. -/
theorem operations_keep_bounds (data : Bytes) (room : data.length + 8 < 2 ^ 63) (ops : List Operation) :
    let c := (ofBytes data).after ops
    c.data = data.toArray ∧ c.pos ≤ data.length ∧ (∀ p ∈ c.marks, p ≤ data.length) ∧
      (∀ op a c', Operation.run c op = (.ok a, c') ↔ op.Done c a c') ∧
      (∀ op stop c', Operation.run c op = (.error stop, c') → op.Stopped c stop c') ∧
      (∀ op, (∃ m c', Operation.run c op = (.error (.fault m), c')) ↔ ∃ n, op.asks = some n ∧ 2 ^ 63 ≤ c.pos + n) ∧
      (∀ inner, (∀ k, c.marks.length < (c.mark.after (inner.take k)).marks.length) →
        (c.mark.after inner).marks.length = c.marks.length + 1 →
          Operation.reset.run (c.mark.after inner) = (.ok .done, c)) := by
  intro c
  obtain ⟨sound, same⟩ : c.Sound ∧ c.data = data.toArray := after_keeps (sound_ofBytes room) ops
  have size : c.data.size = data.length := by simp [same]
  have bounds : c.pos ≤ data.length ∧ ∀ p ∈ c.marks, p ≤ data.length := size ▸ ⟨sound.pos, sound.marks⟩
  exact ⟨same, bounds.1, bounds.2, fun _ _ _ => Operation.run_eq_ok sound, fun _ _ _ => Operation.run_stop sound,
    fun _ => Operation.run_fault sound, fun _ => reset_after sound⟩

/-- After one byte was read, `peek` of the largest count faults. -/
theorem operations_keep_bounds_wrapped :
    [0, 0].length + 8 < 2 ^ 63 ∧
      ∃ m c', Operation.run ((ofBytes [0, 0]).after [.u8]) (.peek (Int64.ofNat (2 ^ 63 - 1))) = (.error (.fault m), c') := by
  have small : [0, 0].length + 8 < 2 ^ 63 := by decide
  obtain ⟨-, -, -, -, -, faults, -⟩ := operations_keep_bounds [0, 0] small [.u8]
  exact ⟨small, (faults _).2 ⟨2 ^ 63 - 1, rfl, by decide⟩⟩

end Dalvik.Cursor
