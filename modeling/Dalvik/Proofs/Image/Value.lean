import Dalvik.Image.Value
import Dalvik.Proofs.Cell
import Dalvik.Proofs.Reading

/-!
# Reading encoded values

A value that was decoded is encoded as the bytes it was read from, at any depth of nesting
(`Value.spans_decode`, `ValueArray.spans_decode`). The fuel of the decoder is the number of bytes
that are left, which bounds the depth, since each level takes at least one byte. A size that was
decoded is the number of elements, so `refresh` changes nothing.
-/

namespace Dalvik

variable {c c' : Cursor}

theorem Cursor.Spans.available {b : Bytes} (h : c.Spans b c') (hc : c.Sane) :
    c'.available + b.length = c.available := by
  have fits := h.le_size hc
  rw [h.next]
  simp only [Cursor.available]
  omega

namespace Value

/-! ## Writing -/

/-- The first byte of a value, with the argument above the tag. -/
def head (arg tag : Nat) : UInt8 := UInt8.ofNat (arg * 32 + tag)

def elementBytes (e : Uleb × Value) : Bytes := e.1.bytes ++ e.2.bytes

theorem flatten_itemPieces (vs : List Value) : (itemPieces vs).flatten = vs.flatMap bytes := by
  induction vs with
  | nil => rfl
  | cons v vs ih => rw [itemPieces, List.flatten_append, ih, List.flatMap_cons, bytes]

theorem flatten_elementPieces (es : List (Uleb × Value)) :
    (elementPieces es).flatten = es.flatMap elementBytes := by
  induction es with
  | nil => rfl
  | cons e es ih =>
    rw [elementPieces, List.cons_append, List.flatten_cons, List.flatten_append, ih, List.flatMap_cons, elementBytes, bytes,
      List.append_assoc]

theorem bytes_plain (tag arg : Nat) (data : Bytes) : (plain tag arg data).bytes = head arg tag :: data := by
  rw [bytes, pieces, List.flatten_cons, List.flatten_singleton]
  rfl

theorem bytes_array (arg : Nat) (size : Uleb) (items : List Value) :
    (array arg size items).bytes = head arg ValueKind.array.tag :: (size.bytes ++ items.flatMap bytes) := by
  rw [bytes, pieces, List.flatten_cons, List.flatten_cons, flatten_itemPieces]
  rfl

theorem bytes_note (arg : Nat) (type size : Uleb) (elements : List (Uleb × Value)) :
    (note arg type size elements).bytes =
      head arg ValueKind.note.tag :: (type.bytes ++ (size.bytes ++ elements.flatMap elementBytes)) := by
  rw [bytes, pieces, List.flatten_cons, List.flatten_cons, List.flatten_cons, flatten_elementPieces]
  rfl

mutual

/-- `byteCount` is the length of the encoding. -/
theorem length_bytes (v : Value) : v.bytes.length = v.byteCount := by
  match v with
  | .plain tag arg data => rw [bytes_plain, byteCount, List.length_cons, Nat.add_comm]
  | .array arg size items =>
    have rest := length_items items
    rw [bytes_array, byteCount, List.length_cons, List.length_append, Uleb.size_eq, rest]
    omega
  | .note arg type size elements =>
    have rest := length_elements elements
    rw [bytes_note, byteCount, List.length_cons, List.length_append, List.length_append, Uleb.size_eq, Uleb.size_eq,
      rest]
    omega

theorem length_items (vs : List Value) : (vs.flatMap bytes).length = itemsByteCount vs := by
  match vs with
  | [] => rfl
  | v :: vs =>
    rw [List.flatMap_cons, List.length_append, length_bytes v, length_items vs, itemsByteCount]

theorem length_elements (es : List (Uleb × Value)) : (es.flatMap elementBytes).length = elementsByteCount es := by
  match es with
  | [] => rfl
  | (name, v) :: es =>
    rw [List.flatMap_cons, elementBytes, List.length_append, List.length_append, length_bytes v, length_elements es,
      elementsByteCount, Uleb.size_eq]

end

/-! ## Refreshing -/

theorem refreshItems_self {vs : List Value} (h : ∀ v ∈ vs, v.refresh = v) : refreshItems vs = vs := by
  induction vs with
  | nil => rfl
  | cons v vs ih =>
    rw [refreshItems, h v List.mem_cons_self, ih fun w hw => h w (List.mem_cons_of_mem v hw)]

theorem refreshElements_self {es : List (Uleb × Value)} (h : ∀ e ∈ es, e.2.refresh = e.2) : refreshElements es = es := by
  induction es with
  | nil => rfl
  | cons e es ih =>
    rw [refreshElements, h e List.mem_cons_self, ih fun f hf => h f (List.mem_cons_of_mem e hf)]

theorem set_length {α : Type} {size : Uleb} {xs : List α} (h : xs.length = size.value.toNat) :
    size.set xs.length = size := by
  have same : (xs.length : Int) = size.get := by rw [h, Uleb.get]
  rw [same, Uleb.set_get]

/-! ## Reading -/

section Elements

variable {α : Type} {element : Cursor → Action α Cursor} {enc : α → Bytes} {P : α → Prop} {n : Nat}

/-- With at most `n` bytes left, `element` gives values with `P` that are encoded as the bytes they were read from. -/
def Reads (element : Cursor → Action α Cursor) (enc : α → Bytes) (P : α → Prop) (n : Nat) : Prop :=
  ∀ c c' x y, c.Sane → c.available ≤ n → (element c).Gives x c' y → c.Spans (enc y) c' ∧ P y

theorem Reads.decodeEach (h : Reads element enc P n) (hc : c.Sane) (hn : c.available ≤ n) {i : Nat} {xs ys : List α}
    (run : decodeEach element i xs c = (.ok c', ys)) : c.Spans (ys.flatMap enc) c' ∧ ∀ y ∈ ys, P y := by
  induction xs generalizing c i ys with
  | nil =>
    cases run
    exact ⟨Cursor.spans_nil.2 rfl, by simp⟩
  | cons x xs ih =>
    simp only [Dalvik.decodeEach] at run
    split at run
    · cases run
    · next c₁ y hy =>
      obtain ⟨spans, hP⟩ := h c c₁ x y hc hn hy
      have fewer := spans.available hc
      rcases tail : Dalvik.decodeEach element (i + 1) xs c₁ with ⟨r, ys'⟩
      rw [tail] at run
      cases run
      obtain ⟨rest, hPs⟩ := ih (spans.sane hc) (by omega) tail
      refine ⟨?_, List.forall_mem_cons.2 ⟨hP, hPs⟩⟩
      rw [List.flatMap_cons]
      exact Cursor.spans_append.2 ⟨c₁, spans, rest⟩

theorem Reads.decodeSized (h : Reads element enc P n) (hc : c.Sane) (hn : c.available ≤ n) {fresh : α} {start : Uleb}
    {size : Uleb} {ys : List α} (run : (decodeSized fresh element c).Gives (start, []) c' (size, ys)) :
    c.Spans (size.bytes ++ ys.flatMap enc) c' ∧ ys.length = size.value.toNat ∧ ∀ y ∈ ys, P y := by
  simp only [Value.decodeSized, onFirst, onSecond, Action.gives_bind, Action.gives_on, Action.gives_modify,
    Action.gives_of, Prod.mk.injEq] at run
  obtain ⟨c₁, _, ⟨_, read, rfl⟩, _, _, rfl, _, each, rfl, rfl⟩ := run
  obtain ⟨-, spans⟩ := gives_uleb.1 read
  have fewer := spans.available hc
  obtain ⟨rest, hPs⟩ := h.decodeEach (spans.sane hc) (by omega) each
  have length := (forall₂_decodeEach (R := fun _ _ => True) (fun _ _ _ _ _ => trivial) each).length_eq
  rw [length_resizeList] at length
  exact ⟨Cursor.spans_append.2 ⟨c₁, spans, rest⟩, length.symm, hPs⟩

/-- The elements of a note are names and values. -/
theorem Reads.named {value : Cursor → Action Value Cursor} {P : Value → Prop} (h : Reads value bytes P n) :
    Reads (fun c => do
      let c ← onFirst (Uleb.decode c)
      onSecond (value c)) elementBytes (fun e => P e.2) n := by
  intro c c' x y hc hn run
  simp only [onFirst, onSecond, Action.gives_bind, Action.gives_on] at run
  obtain ⟨c₁, _, ⟨name, read, rfl⟩, v, run, rfl⟩ := run
  obtain ⟨-, spans⟩ := gives_uleb.1 read
  have fewer := spans.available hc
  obtain ⟨rest, hP⟩ := h c₁ c' _ v (spans.sane hc) (by omega) run
  exact ⟨Cursor.spans_append.2 ⟨c₁, spans, rest⟩, hP⟩

end Elements

theorem tag_of_ofTag? {t : Nat} {k : ValueKind} (h : ValueKind.ofTag? t = some k) : k.tag = t := by
  simpa using List.find?_some h

theorem head_split (b : UInt8) : head (b.toNat / 32) (b.toNat % 32) = b := by
  rw [head, Nat.div_add_mod', UInt8.ofNat_toNat]

/-- Fuel above the number of bytes that are left is enough: a nested value starts at least one byte later. -/
theorem reads_decodeFuel {fuel n : Nat} (enough : n < fuel) :
    Reads (decodeFuel fuel) bytes (fun v => v.refresh = v) n := by
  induction fuel generalizing n with
  | zero => omega
  | succ fuel ih =>
    intro c c' v₀ v hc hn run
    simp only [decodeFuel, Action.gives_bind, Action.gives_lift, Action.gives_set] at run
    obtain ⟨⟨b, c₁⟩, _, ⟨read, rfl⟩, _, _, rfl, run⟩ := run
    have first := (Cursor.u8_eq_ok hc).1 read
    have hc₁ := first.sane hc
    have fewer : c₁.available + 1 = c.available := first.available hc
    have deeper := ih (n := c₁.available) (by omega)
    have after : ∀ {rest : Bytes}, c₁.Spans rest c' →
        c.Spans (head (b.toNat / 32) (b.toNat % 32) :: rest) c' := by
      intro rest spans
      rw [head_split]
      exact Cursor.spans_append.2 ⟨c₁, first, spans⟩
    have leaf : ∀ {data : Bytes}, c₁.Spans data c' →
        c.Spans (plain (b.toNat % 32) (b.toNat / 32) data).bytes c' ∧
          (plain (b.toNat % 32) (b.toNat / 32) data).refresh = plain (b.toNat % 32) (b.toNat / 32) data := by
      intro data spans
      rw [bytes_plain]
      exact ⟨after spans, rfl⟩
    dsimp only at run
    split at run
    · simp at run
    · next isArray =>
      rcases sized : (decodeSized null (decodeFuel fuel) c₁).apply ({}, []) with ⟨r, size, items⟩
      rw [sized] at run
      simp only [Action.gives_bind, Action.gives_set, Action.gives_lift] at run
      obtain ⟨_, _, rfl, rfl, rfl⟩ := run
      obtain ⟨spans, length, settled⟩ := deeper.decodeSized hc₁ le_rfl sized
      refine ⟨?_, ?_⟩
      · rw [bytes_array, tag_of_ofTag? isArray]
        exact after spans
      · simp only [refresh, set_length length, refreshItems_self settled]
    · next isNote =>
      rcases typed : (Uleb.decode c₁).apply {} with ⟨r, type⟩
      rw [typed] at run
      simp only [Action.gives_bind, Action.gives_set, Action.gives_lift] at run
      obtain ⟨_, _, rfl, c₂, _, ⟨rfl, rfl⟩, run⟩ := run
      obtain ⟨-, typeSpans⟩ := gives_uleb.1 typed
      have fewer₂ := typeSpans.available hc₁
      rcases sized : (decodeSized ({}, null) (fun c => do
        let c ← onFirst (Uleb.decode c)
        onSecond (decodeFuel fuel c)) c₂).apply ({}, []) with ⟨r, size, elements⟩
      rw [sized] at run
      obtain ⟨_, _, rfl, rfl, rfl⟩ := run
      obtain ⟨spans, length, settled⟩ := deeper.named.decodeSized (typeSpans.sane hc₁) (by omega) sized
      refine ⟨?_, ?_⟩
      · rw [bytes_note, tag_of_ofTag? isNote]
        exact after (Cursor.spans_append.2 ⟨c₂, typeSpans, spans⟩)
      · simp only [refresh, set_length length, refreshElements_self settled]
    · simp only [Action.gives_pure] at run
      obtain ⟨rfl, rfl⟩ := run
      exact leaf (Cursor.spans_nil.2 rfl)
    · split at run
      · simp at run
      · simp only [Action.gives_pure] at run
        obtain ⟨rfl, rfl⟩ := run
        exact leaf (Cursor.spans_nil.2 rfl)
    · split at run
      · simp at run
      · simp only [Action.gives_bind, Action.gives_lift, Action.gives_set, Action.gives_pure] at run
        obtain ⟨⟨data, c₂⟩, _, ⟨read, rfl⟩, _, _, rfl, rfl, rfl⟩ := run
        obtain ⟨-, spans⟩ := (Cursor.bytes_eq_ok hc₁).1 read
        exact leaf spans

theorem reads_decode (n : Nat) : Reads Value.decode bytes (fun v => v.refresh = v) n := by
  intro c c' x y hc _ run
  exact reads_decodeFuel (Nat.lt_succ_self _) c c' x y hc le_rfl run

end Value

namespace ValueArray

theorem length_bytes (a : ValueArray) : a.bytes.length = a.byteCount := by
  rw [bytes, pieces, List.flatten_cons, Value.flatten_itemPieces, List.length_append, Value.length_items, byteCount,
    Uleb.size_eq]

theorem reads_decode (hc : c.Sane) {a₀ a : ValueArray} (run : (decode c).Gives a₀ c' a) :
    c.Spans a.bytes c' ∧ a.refresh = a := by
  simp only [decode, Action.gives_bind, Action.gives_on, Action.gives_modify, Action.gives_of] at run
  obtain ⟨c₁, _, ⟨size, read, rfl⟩, _, _, rfl, items, each, rfl⟩ := run
  obtain ⟨-, spans⟩ := gives_uleb.1 read
  obtain ⟨rest, settled⟩ := (Value.reads_decode c₁.available).decodeEach (spans.sane hc) le_rfl each
  have length := (forall₂_decodeEach (R := fun _ _ => True) (fun _ _ _ _ _ => trivial) each).length_eq
  rw [length_resizeList] at length
  refine ⟨?_, ?_⟩
  · rw [bytes, pieces, List.flatten_cons, Value.flatten_itemPieces]
    exact Cursor.spans_append.2 ⟨c₁, spans, rest⟩
  · simp only [refresh, updateSize, Value.refreshItems_self settled, Value.set_length length.symm]

end ValueArray

/-- A `Value` or `ValueArray` that was decoded is encoded as exactly the bytes it was read from, before and after
`refresh`, and `byteCount` is the number of these bytes. -/
theorem spans_decoded_values :
    (∀ c c' v₀ v, c.Sane → (Value.decode c).Gives v₀ c' v →
      c.Spans v.bytes c' ∧ v.byteCount = v.bytes.length ∧
        c.Spans v.refresh.bytes c' ∧ v.refresh.byteCount = v.refresh.bytes.length) ∧
    (∀ c c' a₀ a, c.Sane → (ValueArray.decode c).Gives a₀ c' a →
      c.Spans a.bytes c' ∧ a.byteCount = a.bytes.length ∧
        c.Spans a.refresh.bytes c' ∧ a.refresh.byteCount = a.refresh.bytes.length) := by
  constructor
  · intro c c' v₀ v hc run
    obtain ⟨spans, settled⟩ := Value.reads_decode c.available c c' v₀ v hc le_rfl run
    rw [settled]
    exact ⟨spans, v.length_bytes.symm, spans, v.length_bytes.symm⟩
  · intro c c' a₀ a hc run
    obtain ⟨spans, settled⟩ := ValueArray.reads_decode hc run
    rw [settled]
    exact ⟨spans, a.length_bytes.symm, spans, a.length_bytes.symm⟩

/-- A note in an array, with sizes encoded in more bytes than they need, and ignored argument bits. -/
theorem spans_decoded_values_nested :
    let nested : Bytes := [0x5c, 0x82, 0, 0x3d, 0x81, 0, 1, 5, 0x3f, 0, 7]
    let cur := Cursor.ofBytes (nested ++ [0xff])
    let list := Cursor.ofBytes (0x81 :: 0 :: nested ++ [0xff])
    (∃ v, (Value.decode cur).Gives .null { cur with pos := 11 } v ∧
      cur.Spans v.bytes { cur with pos := 11 } ∧ v.byteCount = v.bytes.length ∧
        cur.Spans v.refresh.bytes { cur with pos := 11 } ∧ v.refresh.byteCount = v.refresh.bytes.length) ∧
    (∃ a, (ValueArray.decode list).Gives {} { list with pos := 13 } a ∧
      list.Spans a.bytes { list with pos := 13 } ∧ a.byteCount = a.bytes.length ∧
        list.Spans a.refresh.bytes { list with pos := 13 } ∧ a.refresh.byteCount = a.refresh.bytes.length) := by
  intro nested cur list
  have held : ∀ n : Nat, n ≤ 14 → (n : Int) ≤ maxRun := by
    intro n hn
    have : maxRun = 281474976710656 := by rfl
    omega
  have readValue : (Value.decode cur).Gives .null { cur with pos := 11 } ((Value.decode cur).apply .null).2 :=
    Action.gives_of_toOption (by decide +kernel)
  have readArray : (ValueArray.decode list).Gives {} { list with pos := 13 } ((ValueArray.decode list).apply {}).2 :=
    Action.gives_of_toOption (by decide +kernel)
  exact ⟨⟨_, readValue, spans_decoded_values.1 cur _ _ _ ⟨held _ (by decide), by decide⟩ readValue⟩,
    ⟨_, readArray, spans_decoded_values.2 list _ _ _ ⟨held _ (by decide), by decide⟩ readArray⟩⟩

end Dalvik
