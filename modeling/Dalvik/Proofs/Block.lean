import Dalvik.Code.CodeItem
import Dalvik.Image.Header
import Dalvik.Image.Members
import Dalvik.Image.StringItem
import Dalvik.Proofs.Handler
import Dalvik.Proofs.Image.Value
import Dalvik.Sink

/-!
# Counting and writing

Every stored thing counts its bytes in one pass (`byteCount`) and writes them in another (`pieces`,
`writeTo`). The two agree (`Block.length_bytes`) in every state, also after a failed reading: what
is written only under a condition is counted under the same one, and a LEB128 number that keeps the
bytes it was read from counts those.

* `Sink.writeAll_endless`, `Sink.writeAll_bounded`: what a row of pieces leaves in a sink;
* `ArrayPayload.Made.even`: the padding of an array payload makes its size even, also after a failed
  reading;
* `Block.written_as_counted`: a block writes as many bytes as it counts, and as many of them as the
  sink has room for.
-/

namespace Dalvik

/-! ## Writing into a sink -/

namespace Sink

/-- A sink without a bound takes every piece, and `writeAll` returns their total length. -/
theorem writeAll_endless (ps : List Bytes) {s : Sink} (room : s.room = none) :
    s.writeAll ps = (ps.flatten.length, none, { s with held := s.held ++ ps.flatten.toArray }) := by
  induction ps generalizing s with
  | nil => simp [writeAll]
  | cons p ps ih =>
    have first : s.write p = (p.length, none, { s with held := s.held ++ p.toArray }) := by rw [write, room]
    have rest := @ih { s with held := s.held ++ p.toArray } room
    simp only [writeAll, first, rest, List.flatten_cons, List.length_append, List.append_toArray, Array.append_assoc]

/-- A sink with room for `k` more bytes takes the first `k` bytes of the pieces, and `writeAll` fails if there are
more. -/
theorem writeAll_bounded (ps : List Bytes) {s : Sink} {k : Nat} (room : s.room = some (s.held.size + k))
    (loud : s.short = false) :
    ∃ e, s.writeAll ps = (min k ps.flatten.length, e, { s with held := s.held ++ (ps.flatten.take k).toArray }) ∧
      (e.isSome ↔ k < ps.flatten.length) := by
  induction ps generalizing s k with
  | nil => exact ⟨none, by simp [writeAll], by simp⟩
  | cons p ps ih =>
    by_cases fits : p.length ≤ k
    · have first : s.write p = (p.length, none, { s with held := s.held ++ p.toArray }) := by
        rw [write, room]
        exact if_pos (Nat.add_le_add_left fits _)
      -- The room that `p` leaves is for the pieces after it.
      have left : some (s.held.size + k) = some ((s.held ++ p.toArray).size + (k - p.length)) := by
        simp only [Array.size_append, List.size_toArray, Nat.add_assoc, Nat.add_sub_cancel' fits]
      obtain ⟨e, rest, failed⟩ := @ih { s with held := s.held ++ p.toArray } (k - p.length) (room.trans left) loud
      refine ⟨e, ?_, ?_⟩
      · simp only [writeAll, first, rest, List.flatten_cons, List.length_append, List.take_append,
          List.take_of_length_le fits, List.append_toArray, Array.append_assoc]
        congr 1
        omega
      · rw [failed, List.flatten_cons, List.length_append]
        omega
    · have full : s.write p =
          (k, some (.external (ascii "sink full")), { s with held := s.held ++ (p.take k).toArray }) := by
        rw [write, room]
        dsimp only
        rw [if_neg (by omega), Nat.add_sub_cancel_left, List.length_take, Nat.min_eq_left (by omega), loud]
        rfl
      refine ⟨some (.external (ascii "sink full")), ?_, ?_⟩
      · simp only [writeAll, full]
        rw [List.flatten_cons, List.length_append, Nat.min_eq_left (by omega), List.take_append_of_le_length (by omega)]
      · rw [List.flatten_cons, List.length_append]
        exact iff_of_true rfl (by omega)

/-- `writeAll (ps ++ qs)` writes `ps` and then, if nothing failed, `qs`. -/
theorem writeAll_append (ps qs : List Bytes) (s : Sink) :
    s.writeAll (ps ++ qs) =
      match s.writeAll ps with
      | (n, none, s) =>
        let (m, e, s) := s.writeAll qs
        (n + m, e, s)
      | stopped => stopped := by
  induction ps generalizing s with
  | nil => simp [writeAll]
  | cons p ps ih =>
    rw [List.cons_append, writeAll, writeAll]
    rcases s.write p with ⟨n, failed | failed, s₁⟩
    · simp only [ih]
      rcases s₁.writeAll ps with ⟨m, failed | failed, s₂⟩
      · simp only [Nat.add_assoc]
      · rfl
    · rfl

end Sink

/-! ## Counting -/

theorem total_append (xs ys : List Nat) : total (xs ++ ys) = total xs + total ys := by
  induction xs with
  | nil => rw [List.nil_append, total, Nat.zero_add]
  | cons x xs ih => rw [List.cons_append, total, total, ih, Nat.add_assoc]

section

variable {α : Type}

/-- The pieces of the elements of `xs` are as long as the elements count in all. -/
theorem length_flatten_flatMap {pieces : α → List Bytes} {count : α → Nat}
    (each : ∀ x, (pieces x).flatten.length = count x) (xs : List α) :
    (xs.flatMap pieces).flatten.length = total (xs.map count) := by
  induction xs with
  | nil => rfl
  | cons x xs ih => rw [List.flatMap_cons, List.flatten_append, List.length_append, each, ih, List.map_cons, total]

/-- Elements that are encoded in `n` bytes each take `n * xs.length` bytes. -/
theorem length_flatten_map {enc : α → Bytes} {n : Nat} (each : ∀ x, (enc x).length = n) (xs : List α) :
    (xs.map enc).flatten.length = n * xs.length := by
  induction xs with
  | nil => rfl
  | cons x xs ih =>
    rw [List.map_cons, List.flatten_cons, List.length_append, each, ih, List.length_cons, Nat.mul_succ, Nat.add_comm]

end

theorem Cell.length_bytes (c : Cell) : c.bytes.length = c.size := by
  cases c with
  | byte v => rfl
  | short v => exact length_bytesU16 v
  | int v => exact length_bytesU32 v
  | uleb v => exact v.size_eq.symm
  | sleb v => exact v.size_eq.symm

/-- An optional count cell has the bytes that it counts, and none if it is absent. -/
theorem Cell.length_bytes? (c : Option Cell) : ((c.map bytes).getD []).length = (c.map size).getD 0 := by
  cases c with
  | none => rfl
  | some c => exact c.length_bytes

theorem Case.length_bytes (x : Case) : x.bytes.length = 4 := length_bytesU32 x.offset

theorem PackedTable.length_pieces (p : PackedTable) : p.pieces.flatten.length = p.byteCount := by
  have offsets := length_flatten_map Case.length_bytes p.cases
  simp only [pieces, byteCount, List.flatten_cons, List.length_append, length_bytesU16, length_bytesU32,
    offsets]
  omega

theorem SparseTable.length_pieces (t : SparseTable) : t.pieces.flatten.length = t.byteCount := by
  have keys := length_flatten_map length_bytesU32 t.keys
  have offsets := length_flatten_map Case.length_bytes t.cases
  simp only [pieces, byteCount, List.flatten_cons, List.flatten_append, List.length_append, length_bytesU16,
    keys, offsets]
  omega

theorem ArrayPayload.length_pieces (a : ArrayPayload) : a.pieces.flatten.length = a.byteCount := by
  simp only [pieces, byteCount, List.flatten_cons, List.flatten_nil, List.length_append, List.length_nil,
    length_bytesU16, length_bytesU32]
  omega

theorem Item.length_pieces (x : Item) : x.pieces.flatten.length = x.byteCount := by
  cases x with
  | plain x => simp [pieces, byteCount, Instruction.bytes, List.length_flatMap, Nat.mul_comm]
  | packed p => exact p.length_pieces
  | sparse t => exact t.length_pieces
  | array a => exact a.length_pieces

theorem Sequence.length_pieces (s : Sequence) : s.pieces.flatten.length = s.byteCount :=
  length_flatten_flatMap (fun x => x.item.length_pieces) s.contents

theorem TryItem.length_pieces (t : TryItem) : t.pieces.flatten.length = t.byteCount := by
  simp [pieces, byteCount]

/-- The `pieces` of a code item are `byteCount` bytes long. The handler list, and the padding in front of the ranges,
are written under the same condition as they are counted. -/
theorem CodeItem.length_pieces (c : CodeItem) : c.pieces.flatten.length = c.byteCount := by
  have size := Cell.length_bytes? c.code.size
  have count : (c.handlers.count.map Cell.bytes).toList.flatten.length = (c.handlers.count.map Cell.size).getD 0 := by
    cases c.handlers.count with
    | none => rfl
    | some count => simp [count.length_bytes]
  have tries := length_flatten_flatMap TryItem.length_pieces c.tries
  have handlers := length_flatten_flatMap (fun h => (CatchHandler.byteCount_eq h).symm) c.handlers.values
  have guarded : ∀ n : Nat,
      (if n % 2 = 1 then [bytesU16 c.padding] else []).flatten.length = if n % 2 = 1 then 2 else 0 := by
    intro n
    split
    · simp
    · rfl
  unfold pieces byteCount
  cases c.tries.isEmpty with
  | true =>
    simp only [List.flatten_append, List.flatten_cons, List.flatten_nil, List.length_append, List.length_nil,
      length_bytesU16, length_bytesU32, size, c.code.length_pieces, if_true]
    omega
  | false =>
    simp only [List.flatten_append, List.flatten_cons, List.flatten_nil, List.length_append, List.length_nil,
      length_bytesU16, length_bytesU32, size, c.code.length_pieces, handlerPieces, handlersByteCount, guarded, count,
      tries, handlers, Bool.false_eq_true, if_false]
    omega

/-! ### Class contents -/

theorem Member.length_pieces_field (m : FieldMember) : m.pieces.flatten.length = m.byteCount := by
  simp [pieces, byteCount, MemberTail.pieces, MemberTail.byteCount, Uleb.size_eq]

theorem Member.length_pieces_method (m : MethodMember) : m.pieces.flatten.length = m.byteCount := by
  simp [pieces, byteCount, MemberTail.pieces, MemberTail.byteCount, Uleb.size_eq, Nat.add_assoc]

theorem Members.length_pieces (m : Members) : m.pieces.flatten.length = m.byteCount := by
  have staticLength := length_flatten_flatMap Member.length_pieces_field m.staticFields.members
  have instanceLength := length_flatten_flatMap Member.length_pieces_field m.instanceFields.members
  have direct := length_flatten_flatMap Member.length_pieces_method m.directMethods.members
  have virtual := length_flatten_flatMap Member.length_pieces_method m.virtualMethods.members
  simp only [pieces, byteCount, MemberTable.pieces, MemberTable.byteCount, MemberTable.countBytes,
    MemberTable.countSize, Cell.length_bytes?, List.flatten_append, List.flatten_cons, List.flatten_nil,
    List.length_append, List.length_nil, staticLength, instanceLength, direct, virtual]
  omega

theorem NoteEntry.length_bytes (e : NoteEntry) : e.bytes.length = e.byteCount := by
  simp [bytes, byteCount]

theorem NoteDirectory.length_pieces (d : NoteDirectory) : d.pieces.flatten.length = d.byteCount := by
  have entries (t : NoteTable) := total_map_eq_length (fun e => (NoteEntry.length_bytes e).symm) (Table.values t)
  simp only [pieces, byteCount, NoteTable.byteCount, NoteTable.countBytes, NoteTable.countSize, Cell.length_bytes?,
    List.flatten_append, List.flatten_cons, List.flatten_nil, List.length_append, List.length_nil, List.map_append,
    ← List.flatMap_def, ← entries, length_bytesU32]
  omega

/-! ### The rest of an image -/

theorem Header.length_pieces (h : Header) : h.pieces.flatten.length = h.byteCount := by
  simp only [pieces, byteCount, sections, Section.bytes, Section.byteCount, List.map_cons, List.map_nil,
    List.flatten_append, List.flatten_cons, List.flatten_nil, List.length_append, List.length_nil, length_bytesU32,
    total]
  omega

theorem StringItem.length_pieces (s : StringItem) : s.pieces.flatten.length = s.byteCount := by
  simp [pieces, byteCount, Uleb.size_eq, Nat.add_assoc]

/-! ## Payloads are whole code units -/

namespace ArrayPayload

/-- The array payloads that come about: the empty one, and what `decode`, `setValues` and `refresh` leave of one,
whether they succeed or not. -/
inductive Made : ArrayPayload → Prop
  | fresh : Made {}
  | decode {a : ArrayPayload} (c : Cursor) : Made a → Made ((decode c).apply a).2
  | setValues {a b : ArrayPayload} {width : Int} {values : List Int} :
    Made a → a.setValues width values = .ok b → Made b

/-- The padding is one byte if the number of data bytes is odd, and empty otherwise. -/
def Even (a : ArrayPayload) : Prop := a.pad.length = a.data.length % 2

theorem Even.data {a : ArrayPayload} (h : a.Even) {data : Bytes} (same : data.length = a.data.length) :
    Even { a with data } := by
  rw [Even, same]
  exact h

theorem Even.pad {a : ArrayPayload} (h : a.Even) {pad : Bytes} (same : pad.length = a.pad.length) :
    Even { a with pad } := same.trans h

/-- `decodeRun` leaves a run of the same length, also when it fails. -/
theorem length_decodeRun (c : Cursor) (s : Bytes) : ((decodeRun c).apply s).2.length = s.length := by
  rw [decodeRun, Action.apply_of]
  split
  · next read => exact Cursor.length_of_bytes read
  · rfl

/-- `decode` sets the length of the padding before the first step that can fail. -/
theorem upholds_decode (c : Cursor) : Action.Upholds Even (decode c) := by
  refine .bind (Action.upholds_on fun _ _ h => h) fun c => .bind (Action.upholds_on fun _ _ h => h) fun c => ?_
  refine .bind (Action.upholds_on fun _ _ h => h) fun c => Action.upholds_get fun a ha => ?_
  refine Action.Upholds.bind (Action.upholds_lift _) (fun _ => ?_) a ha
  dsimp only
  split
  · exact Action.upholds_refuse _
  split
  · exact Action.upholds_refuse _
  · have sized : Even { a with
        data := resizeList (a.width.toNat * a.count.toNat) 0 a.data
        pad := resizeList (a.width.toNat * a.count.toNat % 2) 0 a.pad } := by
      rw [Even, length_resizeList, length_resizeList]
    refine .bind (Action.upholds_set sized) fun _ => .bind ?_ fun c => ?_
    · exact Action.upholds_on_left fun b hb => hb.data (length_decodeRun _ b.data)
    · exact Action.upholds_on_left fun b hb => hb.pad (length_decodeRun c b.pad)

theorem Made.even {a : ArrayPayload} (h : a.Made) : a.Even := by
  induction h with
  | fresh => rfl
  | decode c _ ih => exact upholds_decode c _ ih
  | setValues _ filled _ =>
    unfold ArrayPayload.setValues at filled
    split at filled
    · cases filled
      exact length_resizeList
    · cases filled

end ArrayPayload

/-! ## Blocks -/

/-- A thing that counts and writes itself: the cells, runs and items of the format, and rows of such things. -/
inductive Block where
  | cell (value : Cell)
  | run (value : Bytes)
  | signature (value : Signature)
  /-- The parts of a composite, or the elements of an array. -/
  | row (parts : List Block)
  | item (value : Item)
  | sequence (value : Sequence)
  | catchPair (value : CatchPair)
  | catchHandler (value : CatchHandler)
  | tryItem (value : TryItem)
  | codeItem (value : CodeItem)
  | field (value : FieldMember)
  | method (value : MethodMember)
  | members (value : Members)
  | noteEntry (value : NoteEntry)
  | noteDirectory (value : NoteDirectory)
  | place (value : Section)
  | header (value : Header)
  | value (value : Value)
  | valueArray (value : ValueArray)
  | string (value : StringItem)

namespace Block

mutual

def byteCount : Block → Nat
  | cell c => c.size
  | run s => s.length
  | signature s => s.bytes.length
  | row parts => rowByteCount parts
  | item x => x.byteCount
  | sequence s => s.byteCount
  | catchPair p => p.byteCount
  | catchHandler h => h.byteCount
  | tryItem t => t.byteCount
  | codeItem c => c.byteCount
  | field m => m.byteCount
  | method m => m.byteCount
  | members m => m.byteCount
  | noteEntry e => e.byteCount
  | noteDirectory d => d.byteCount
  | place s => s.byteCount
  | header h => h.byteCount
  | value v => v.byteCount
  | valueArray a => a.byteCount
  | string s => s.byteCount

def rowByteCount : List Block → Nat
  | [] => 0
  | b :: rest => b.byteCount + rowByteCount rest

end

mutual

/-- The byte strings that a block writes one after the other. -/
def pieces : Block → List Bytes
  | cell c => [c.bytes]
  | run s => [s]
  | signature s => [s.bytes]
  | row parts => rowPieces parts
  | item x => x.pieces
  | sequence s => s.pieces
  | catchPair p => p.pieces
  | catchHandler h => h.pieces
  | tryItem t => t.pieces
  | codeItem c => c.pieces
  | field m => m.pieces
  | method m => m.pieces
  | members m => m.pieces
  | noteEntry e => [e.bytes]
  | noteDirectory d => d.pieces
  | place s => [s.bytes]
  | header h => h.pieces
  | value v => v.pieces
  | valueArray a => a.pieces
  | string s => s.pieces

def rowPieces : List Block → List Bytes
  | [] => []
  | b :: rest => b.pieces ++ rowPieces rest

end

def bytes (b : Block) : Bytes := b.pieces.flatten

mutual

/-- `WriteTo`: the number of bytes that the sink took, the failure if it did not take all, and the sink afterwards. -/
def writeTo : Block → Sink → Nat × Option Failure × Sink
  | row parts, s => writeRow parts s
  | b, s => s.writeAll b.pieces

/-- `writeTo` for one part after another, up to the first failure. -/
def writeRow : List Block → Sink → Nat × Option Failure × Sink
  | [], s => (0, none, s)
  | b :: rest, s =>
    match b.writeTo s with
    | (n, none, s) =>
      let (m, e, s) := writeRow rest s
      (n + m, e, s)
    | stopped => stopped

end

mutual

/-- Writing a block part by part is writing its `pieces` with `writeAll`. -/
theorem writeTo_eq (b : Block) (s : Sink) : b.writeTo s = s.writeAll b.pieces := by
  cases b with
  | row parts => exact writeRow_eq parts s
  | _ => rfl

theorem writeRow_eq (bs : List Block) (s : Sink) : writeRow bs s = s.writeAll (rowPieces bs) := by
  match bs with
  | [] => rfl
  | b :: bs =>
    rw [writeRow, rowPieces, Sink.writeAll_append, writeTo_eq b]
    rcases s.writeAll b.pieces with ⟨n, failed | failed, t⟩
    · simp only [writeRow_eq bs]
    · rfl

end

mutual

/-- The bytes of a block are as many as its `byteCount`. -/
theorem length_bytes (b : Block) : b.bytes.length = b.byteCount := by
  unfold bytes
  match b with
  | cell c => simp [pieces, byteCount, c.length_bytes]
  | run _ | signature _ => simp [pieces, byteCount]
  | row parts => exact length_rowPieces parts
  | item x => exact x.length_pieces
  | sequence s => exact s.length_pieces
  | catchPair p => exact p.byteCount_eq.symm
  | catchHandler h => exact h.byteCount_eq.symm
  | tryItem t => exact t.length_pieces
  | codeItem c => exact c.length_pieces
  | field m => exact Member.length_pieces_field m
  | method m => exact Member.length_pieces_method m
  | members m => exact m.length_pieces
  | noteEntry e => simp [pieces, byteCount, e.length_bytes]
  | noteDirectory d => exact d.length_pieces
  | place s => simp [pieces, byteCount, Section.bytes, Section.byteCount]
  | header h => exact h.length_pieces
  | value v => exact v.length_bytes
  | valueArray a => exact a.length_bytes
  | string s => exact s.length_pieces

theorem length_rowPieces (bs : List Block) : (rowPieces bs).flatten.length = rowByteCount bs := by
  match bs with
  | [] => rfl
  | b :: bs =>
    rw [rowPieces, rowByteCount, List.flatten_append, List.length_append, length_rowPieces bs, ← length_bytes b,
      bytes]

end

/-- A payload counts an even number of bytes, so it is a whole number of code units. -/
theorem even_byteCount {x : Item} (payload : x.isPayload = true) (made : ∀ a, x = .array a → a.Made) :
    x.byteCount % 2 = 0 := by
  cases x with
  | plain x => cases payload
  | packed p =>
    simp only [Item.byteCount, PackedTable.byteCount]
    omega
  | sparse t =>
    simp only [Item.byteCount, SparseTable.byteCount]
    omega
  | array a =>
    have even : a.pad.length = a.data.length % 2 := (made a rfl).even
    simp only [Item.byteCount, ArrayPayload.byteCount]
    omega

/-- A sink without a bound takes exactly `byteCount` bytes of a block. A sink with room for `k` bytes takes the first
`k` of them and fails if and only if there are more. A payload that came about in any way (`Made`) counts an even
number. -/
theorem written_as_counted (b : Block) :
    (∀ s : Sink, s.room = none →
      b.writeTo s = (b.byteCount, none, { s with held := s.held ++ b.bytes.toArray }) ∧
        b.bytes.length = b.byteCount) ∧
    (∀ (s : Sink) (k : Nat), s.room = some (s.held.size + k) → s.short = false →
      ∃ e, b.writeTo s = (min k b.byteCount, e, { s with held := s.held ++ (b.bytes.take k).toArray }) ∧
        (e.isSome ↔ k < b.byteCount)) ∧
    ∀ x, b = item x → x.isPayload = true → (∀ a, x = .array a → a.Made) → b.byteCount % 2 = 0 := by
  refine ⟨fun s room => ⟨?_, b.length_bytes⟩, fun s k room loud => ?_, ?_⟩
  · rw [writeTo_eq, Sink.writeAll_endless _ room, ← b.length_bytes]
    rfl
  · rw [writeTo_eq, ← b.length_bytes]
    exact Sink.writeAll_bounded b.pieces room loud
  · rintro x rfl payload made
    exact even_byteCount payload made

/-- An array payload of three bytes is read from data that ends before its padding byte. It counts and writes twelve
bytes all the same. -/
theorem written_as_counted_unpadded :
    let a := ((ArrayPayload.decode (.ofBytes [0, 3, 1, 0, 3, 0, 0, 0, 7, 8, 9])).apply {}).2
    let b := item (.array a)
    b.writeTo {} = (12, none, { held := #[0, 3, 1, 0, 3, 0, 0, 0, 7, 8, 9, 0] }) ∧
      (∃ e, b.writeTo { room := some 9 } = (9, some e, { room := some 9, held := #[0, 3, 1, 0, 3, 0, 0, 0, 7] })) ∧
      b.byteCount % 2 = 0 := by
  intro a b
  have a_eq : a = { width := 1, count := 3, data := [7, 8, 9], pad := [0] } := by decide +kernel
  have count : b.byteCount = 12 := congrArg ArrayPayload.byteCount a_eq
  have bytes_eq : b.bytes = [0, 3, 1, 0, 3, 0, 0, 0, 7, 8, 9, 0] := by
    change a.pieces.flatten = _
    rw [a_eq]
    decide +kernel
  obtain ⟨endless, bounded, even⟩ := written_as_counted b
  obtain ⟨e, written, failed⟩ := bounded { room := some 9 } 9 rfl rfl
  have unfinished : e.isSome := failed.2 (by rw [count]; decide)
  obtain ⟨cause, rfl⟩ := Option.isSome_iff_exists.1 unfinished
  refine ⟨?_, ⟨cause, ?_⟩, even _ rfl rfl ?_⟩
  · rw [(endless {} rfl).1, count, bytes_eq]
    rfl
  · rw [written, count, bytes_eq]
    rfl
  · rintro _ ⟨⟩
    exact .decode _ .fresh

end Block

end Dalvik
