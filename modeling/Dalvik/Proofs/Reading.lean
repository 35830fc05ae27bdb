import Dalvik.Code.Sequence
import Dalvik.Proofs.Cursor
import Dalvik.Proofs.Instruction
import Dalvik.Proofs.Sequence.Nodes

/-!
# What is read into fields, payloads and instructions

For each kind of field and item: `decode` gives `x` exactly if `x` is `Raw`, that is, one of the
values that reading can leave, and the bytes at the cursor are the bytes of `x`. `spans_item` says
so for the items of a sequence.
-/

namespace Dalvik

open Dalvik.Action (except_bind_eq_ok)

variable {c c' : Cursor}

/-! ## Fields -/

theorem gives_decodeU16 (hc : c.Sane) {u v : UInt16} : (decodeU16 c).Gives u c' v ↔ c.Spans (bytesU16 v) c' := by
  rw [← Cursor.u16_eq_ok hc]
  simp only [decodeU16, decodeFixed, Action.gives_of]
  split
  · next w c₁ hw => simp [hw, and_comm]
  · next e he => simp [he]

theorem gives_decodeU32 (hc : c.Sane) {u v : UInt32} : (decodeU32 c).Gives u c' v ↔ c.Spans (bytesU32 v) c' := by
  rw [← Cursor.u32_eq_ok hc]
  simp only [decodeU32, decodeFixed, Action.gives_of]
  split
  · next w c₁ hw => simp [hw, and_comm]
  · next e he => simp [he]

theorem gives_decodeRun (hc : c.Sane) {s b : Bytes} :
    (decodeRun c).Gives s c' b ↔ b.length = s.length ∧ c.Spans b c' := by
  rw [← Cursor.bytes_eq_ok hc]
  simp only [decodeRun, Action.gives_of]
  split
  · next b₁ c₁ hb => simp [hb, and_comm]
  · next e he => simp [he]

/-! Bytes that stand at the position are read whatever the size of the data. -/

theorem Cursor.Spans.gives_u16 {u v : UInt16} (h : c.Spans (bytesU16 v) c') (pos : c.pos ≤ c.data.size) :
    (decodeU16 c).Gives u c' v := by
  simp only [decodeU16, decodeFixed, Action.gives_of, h.u16_ok pos]

theorem Cursor.Spans.gives_u32 {u v : UInt32} (h : c.Spans (bytesU32 v) c') (pos : c.pos ≤ c.data.size) :
    (decodeU32 c).Gives u c' v := by
  simp only [decodeU32, decodeFixed, Action.gives_of, h.u32_ok pos]

theorem Cursor.Spans.gives_run {s b : Bytes} (h : c.Spans b c') (pos : c.pos ≤ c.data.size) (length : s.length = b.length) :
    (decodeRun c).Gives s c' b := by
  simp only [decodeRun, Action.gives_of, length, h.bytes_ok pos]

theorem length_of_decodeRun {s b : Bytes} (h : (decodeRun c).Gives s c' b) : b.length = s.length := by
  simp only [decodeRun, Action.gives_of] at h
  split at h
  · next b₁ c₁ hb =>
    cases h
    exact Cursor.length_of_bytes hb
  · cases h

/-- The field keeps the bytes it was read from, and they spell its value. -/
def Uleb.Read (u : Uleb) : Prop := ∃ raw, u.raw = some raw ∧ Leb128.decodeU raw = some (u.value, raw.length)

def Sleb.Read (s : Sleb) : Prop := ∃ raw, s.raw = some raw ∧ Leb128.decodeS raw = some (s.value, raw.length)

theorem gives_uleb {u v : Uleb} : (Uleb.decode c).Gives u c' v ↔ v.Read ∧ c.Spans v.bytes c' := by
  simp only [Uleb.decode, Action.gives_of]
  constructor
  · intro h
    split at h
    · next w n c₁ hw =>
      cases h
      obtain ⟨raw, rfl, spans, hd⟩ := Cursor.uleb_eq_ok.1 hw
      have e := spans.slice
      exact ⟨⟨raw, by rw [e], hd⟩, by simpa [Uleb.bytes, e] using spans⟩
    · cases h
  · rintro ⟨⟨raw, hr, hd⟩, spans⟩
    have e : v.bytes = raw := by rw [Uleb.bytes, hr, Option.getD_some]
    rw [e] at spans
    rw [Cursor.uleb_eq_ok.2 ⟨raw, rfl, spans, hd⟩]
    simp only [spans.slice, ← hr]

theorem gives_sleb {s t : Sleb} : (Sleb.decode c).Gives s c' t ↔ t.Read ∧ c.Spans t.bytes c' := by
  simp only [Sleb.decode, Action.gives_of]
  constructor
  · intro h
    split at h
    · next w n c₁ hw =>
      cases h
      obtain ⟨raw, rfl, spans, hd⟩ := Cursor.sleb_eq_ok.1 hw
      have e := spans.slice
      exact ⟨⟨raw, by rw [e], hd⟩, by simpa [Sleb.bytes, e] using spans⟩
    · cases h
  · rintro ⟨⟨raw, hr, hd⟩, spans⟩
    have e : t.bytes = raw := by rw [Sleb.bytes, hr, Option.getD_some]
    rw [e] at spans
    rw [Cursor.sleb_eq_ok.2 ⟨raw, rfl, spans, hd⟩]
    simp only [spans.slice, ← hr]

theorem gives_wrapping {α : Type} {make : α → Cell} {act : Action α Cursor} {v : α} {x : Cell} :
    Cell.wrapping make v act = (.ok c', x) ↔ ∃ u, x = make u ∧ act.Gives v c' u := by
  unfold Cell.wrapping Action.Gives
  rcases act.apply v with ⟨r, w⟩
  simp only [Prod.mk.injEq]
  constructor
  · rintro ⟨rfl, rfl⟩
    exact ⟨w, rfl, rfl, rfl⟩
  · rintro ⟨u, rfl, rfl, rfl⟩
    exact ⟨rfl, rfl⟩

theorem gives_decodeInt {v : UInt32} {x : Cell} (hc : c.Sane) :
    (Cell.decode c).Gives (.int v) c' x ↔ ∃ u, x = .int u ∧ c.Spans (bytesU32 u) c' := by
  simp only [Cell.decode, Action.gives_of, gives_wrapping, gives_decodeU32 hc]

theorem gives_decodeUlebCell {v : Uleb} {x : Cell} :
    (Cell.decode c).Gives (.uleb v) c' x ↔ ∃ u, x = .uleb u ∧ u.Read ∧ c.Spans u.bytes c' := by
  simp only [Cell.decode, Action.gives_of, gives_wrapping, gives_uleb]

/-! ### Reading a field again -/

/-- The bytes of the field are read as its value. -/
def Uleb.Fair (u : Uleb) : Prop := Leb128.decodeU u.bytes = some (u.value, u.bytes.length)

/-- The field with its bytes kept, as reading them leaves it. -/
def Uleb.asRead (u : Uleb) : Uleb := { u with raw := some u.bytes }

namespace Uleb

variable {u : Uleb}

theorem Read.fair (h : u.Read) : u.Fair := by
  obtain ⟨raw, e, decoded⟩ := h
  rw [Fair, bytes, e, Option.getD_some, decoded]

theorem fair_mk (v : UInt32) : Fair ⟨v, none⟩ := Leb128.decodeU_encodeU v

theorem Fair.set (h : u.Fair) (v : Int) : (u.set v).Fair := by
  unfold Uleb.set setValue
  split
  · exact h
  · exact fair_mk _

theorem Fair.read (h : u.Fair) : u.asRead.Read := ⟨u.bytes, rfl, h⟩

theorem Fair.bytes_ne_nil (h : u.Fair) : u.bytes ≠ [] := by
  intro empty
  rw [Fair, empty] at h
  cases h

@[simp] theorem bytes_asRead (u : Uleb) : u.asRead.bytes = u.bytes := rfl

@[simp] theorem get_asRead (u : Uleb) : u.asRead.get = u.get := rfl

theorem size_eq (u : Uleb) : u.size = u.bytes.length := by
  rw [size, bytes]
  cases u.raw with
  | none => exact Leb128.sizeU_eq_length _
  | some raw => rfl

end Uleb

def Sleb.Fair (s : Sleb) : Prop := Leb128.decodeS s.bytes = some (s.value, s.bytes.length)

def Sleb.asRead (s : Sleb) : Sleb := { s with raw := some s.bytes }

namespace Sleb

variable {s : Sleb}

theorem Read.fair (h : s.Read) : s.Fair := by
  obtain ⟨raw, e, decoded⟩ := h
  rw [Fair, bytes, e, Option.getD_some, decoded]

theorem fair_mk (v : Int32) : Fair ⟨v, none⟩ := Leb128.decodeS_encodeS v

theorem Fair.set (h : s.Fair) (v : Int) : (s.set v).Fair := by
  unfold Sleb.set
  split
  · exact h
  · exact fair_mk _

theorem Fair.read (h : s.Fair) : s.asRead.Read := ⟨s.bytes, rfl, h⟩

@[simp] theorem bytes_asRead (s : Sleb) : s.asRead.bytes = s.bytes := rfl

theorem size_eq (s : Sleb) : s.size = s.bytes.length := by
  rw [size, bytes]
  cases s.raw with
  | none => rfl
  | some raw => rfl

theorem Fair.bytes_ne_nil (h : s.Fair) : s.bytes ≠ [] := by
  intro empty
  rw [Fair, empty] at h
  cases h

end Sleb

/-! ## Lists of elements -/

section Elements

variable {α : Type} {element : Cursor → Action α Cursor} {R : α → α → Prop} {enc : α → Bytes}

/-- Reading over `x` leaves `y` exactly if `R x y` and the bytes of `y` are at the cursor. -/
def ReadsAs (element : Cursor → Action α Cursor) (R : α → α → Prop) (enc : α → Bytes) : Prop :=
  ∀ c c' x y, c.Sane → ((element c).Gives x c' y ↔ R x y ∧ c.Spans (enc y) c')

theorem ReadsAs.decodeEach_eq_ok (h : ReadsAs element R enc) (hc : c.Sane) {i : Nat} {xs ys : List α} :
    decodeEach element i xs c = (.ok c', ys) ↔ List.Forall₂ R xs ys ∧ c.Spans (ys.flatMap enc) c' := by
  induction xs generalizing c i ys with
  | nil =>
    simp only [Dalvik.decodeEach, Prod.mk.injEq, Except.ok.injEq, List.forall₂_nil_left_iff]
    constructor
    · rintro ⟨rfl, rfl⟩
      exact ⟨rfl, Cursor.spans_nil.2 rfl⟩
    · rintro ⟨rfl, spans⟩
      exact ⟨(Cursor.spans_nil.1 spans).symm, rfl⟩
  | cons x xs ih =>
    simp only [Dalvik.decodeEach]
    constructor
    · intro e
      split at e
      · cases e
      · next c₁ y hy =>
        obtain ⟨hR, spans⟩ := (h c c₁ x y hc).1 hy
        cases e' : Dalvik.decodeEach element (i + 1) xs c₁ with
        | mk r ys' =>
          rw [e'] at e
          cases e
          obtain ⟨hRs, rest⟩ := (ih (spans.sane hc)).1 e'
          exact ⟨.cons hR hRs, by rw [List.flatMap_cons]; exact Cursor.spans_append.2 ⟨c₁, spans, rest⟩⟩
    · rintro ⟨hRs, spans⟩
      obtain ⟨y, ys', hR, tail, rfl⟩ := List.forall₂_cons_left_iff.1 hRs
      rw [List.flatMap_cons] at spans
      obtain ⟨c₁, spans, rest⟩ := Cursor.spans_append.1 spans
      have hy : (element c).apply x = (.ok c₁, y) := (h c c₁ x y hc).2 ⟨hR, spans⟩
      simp only [hy, (ih (spans.sane hc)).2 ⟨tail, rest⟩]

/-- If `R` holds between each element and what is read over it, it holds so in a list that was read. -/
theorem forall₂_decodeEach (h : ∀ c c' x y, (element c).Gives x c' y → R x y) {i : Nat} {xs ys : List α}
    (e : decodeEach element i xs c = (.ok c', ys)) : List.Forall₂ R xs ys := by
  induction xs generalizing c i ys with
  | nil =>
    cases e
    exact .nil
  | cons x xs ih =>
    simp only [Dalvik.decodeEach] at e
    split at e
    · cases e
    · next c₁ y hy =>
      rcases tail : Dalvik.decodeEach element (i + 1) xs c₁ with ⟨r, ys'⟩
      rw [tail] at e
      cases e
      exact .cons (h c c₁ x y hy) (ih tail)

theorem forall₂_replicate {n : Nat} {x : α} {ys : List α} :
    List.Forall₂ R (List.replicate n x) ys ↔ ys.length = n ∧ ∀ y ∈ ys, R x y := by
  induction n generalizing ys with
  | zero => cases ys <;> simp
  | succ n ih => cases ys <;> simp [List.replicate_succ, ih, and_left_comm]

theorem total_eq_sum (ns : List Nat) : total ns = ns.sum := by
  induction ns with
  | nil => rfl
  | cons n ns ih => rw [total, ih, List.sum_cons]

theorem total_map_eq_length {count : α → Nat} (each : ∀ x, count x = (enc x).length) (xs : List α) :
    total (xs.map count) = (xs.flatMap enc).length := by
  rw [total_eq_sum, List.length_flatMap, funext each]

theorem resizeList_nil {n : Nat} {x : α} : resizeList n x [] = List.replicate n x := by simp [resizeList]

theorem length_resizeList {n : Nat} {x : α} {xs : List α} : (resizeList n x xs).length = n := by
  simp only [resizeList, List.length_append, List.length_take, List.length_replicate]
  omega

theorem readsAs_u32 : ReadsAs decodeU32 (fun _ _ => True) bytesU32 := by
  intro c c' x y hc
  simpa using gives_decodeU32 hc

theorem readsAs_case : ReadsAs Case.decode (fun x y => y.handle = x.handle) Case.bytes := by
  intro c c' x y hc
  simp only [Case.decode, Action.gives_on, gives_decodeU32 hc]
  constructor
  · rintro ⟨v, spans, rfl⟩
    exact ⟨rfl, spans⟩
  · rintro ⟨e, spans⟩
    refine ⟨y.offset, spans, ?_⟩
    rw [← e]

theorem handle_of_decode {c c' : Cursor} {x y : Case} (h : (Case.decode c).Gives x c' y) : y.handle = x.handle := by
  simp only [Case.decode, Action.gives_on] at h
  obtain ⟨v, -, rfl⟩ := h
  rfl

end Elements

/-! ## Switch tables -/

theorem checkIdentifier_eq_ok {what : String} {start : Nat} {got : UInt16} {op : Opcode} {v : PUnit} :
    checkIdentifier what start got op = .ok v ↔ got.toNat = op.value := by
  unfold checkIdentifier
  split
  · next e => simp [e]
  · next e => simp [e, fail]

theorem eq_ofNat_iff {u : UInt16} {n : Nat} (hn : n < 65536) : u = UInt16.ofNat n ↔ u.toNat = n := by
  rw [← UInt16.toNat_inj, UInt16.toNat_ofNat_of_lt' hn]

/-- The packed tables that reading can leave. -/
structure PackedTable.Raw (p : PackedTable) : Prop where
  identifier : p.identifier = UInt16.ofNat Opcode.packedSwitchPayload.value
  size : p.size.toNat = p.cases.length
  handles : ∀ x ∈ p.cases, x.handle = .none
  owner : p.owner = .none

/-- A packed table that was read: its identifier, size and first value, and then its cases. -/
theorem PackedTable.of_decode {p : PackedTable} (h : (PackedTable.decode c).Gives {} c' p) :
    p.Raw ∧ ∃ c₁ c₂ c₃, (decodeU16 c).Gives (UInt16.ofNat Opcode.packedSwitchPayload.value) c₁ p.identifier ∧
      (decodeU16 c₁).Gives 0 c₂ p.size ∧ (decodeU32 c₂).Gives 0 c₃ p.first ∧
      decodeEach Case.decode 0 (List.replicate p.size.toNat {}) c₃ = (.ok c', p.cases) := by
  simp only [PackedTable.decode, Action.gives_bind, Action.gives_on, Action.gives_modify, Action.gives_of,
    Action.gives_get, Action.gives_lift, Action.gives_pure, checkIdentifier_eq_ok] at h
  obtain ⟨c₁, _, ⟨identifier, h₁, rfl⟩, c₂, _, ⟨size, h₂, rfl⟩, c₃, _, ⟨first, h₃, rfl⟩, _, _, rfl,
    c₄, _, ⟨cases, h₄, rfl⟩, _, _, ⟨rfl, rfl⟩, _, _, ⟨check, rfl⟩, rfl, rfl⟩ := h
  simp only [resizeList_nil] at h₄
  obtain ⟨length, handles⟩ := forall₂_replicate.1 (forall₂_decodeEach (fun _ _ _ _ => handle_of_decode) h₄)
  exact ⟨⟨(eq_ofNat_iff (by decide)).2 check, length.symm, handles, rfl⟩, c₁, c₂, c₃, h₁, h₂, h₃, h₄⟩

theorem PackedTable.gives_decode (hc : c.Sane) {p : PackedTable} :
    (PackedTable.decode c).Gives {} c' p ↔ p.Raw ∧ c.Spans p.pieces.flatten c' := by
  have bytes : p.pieces.flatten =
      bytesU16 p.identifier ++ (bytesU16 p.size ++ (bytesU32 p.first ++ p.cases.flatMap Case.bytes)) := by
    simp [PackedTable.pieces, List.flatMap]
  rw [bytes]
  constructor
  · intro h
    obtain ⟨raw, c₁, c₂, c₃, h₁, h₂, h₃, h₄⟩ := of_decode h
    have s₁ := (gives_decodeU16 hc).1 h₁
    have hc₁ := s₁.sane hc
    have s₂ := (gives_decodeU16 hc₁).1 h₂
    have hc₂ := s₂.sane hc₁
    have s₃ := (gives_decodeU32 hc₂).1 h₃
    have s₄ := ((readsAs_case.decodeEach_eq_ok (s₃.sane hc₂)).1 h₄).2
    exact ⟨raw, Cursor.spans_append.2 ⟨c₁, s₁, Cursor.spans_append.2 ⟨c₂, s₂, Cursor.spans_append.2 ⟨c₃, s₃, s₄⟩⟩⟩⟩
  · rintro ⟨raw, spans⟩
    simp only [PackedTable.decode, Action.gives_bind, Action.gives_on, Action.gives_modify, Action.gives_of,
      Action.gives_get, Action.gives_lift, Action.gives_pure, checkIdentifier_eq_ok]
    obtain ⟨c₁, s₁, spans⟩ := Cursor.spans_append.1 spans
    obtain ⟨c₂, s₂, spans⟩ := Cursor.spans_append.1 spans
    obtain ⟨c₃, s₃, s₄⟩ := Cursor.spans_append.1 spans
    have hc₁ := s₁.sane hc
    have hc₂ := s₂.sane hc₁
    have hc₃ := s₃.sane hc₂
    refine ⟨c₁, _, ⟨p.identifier, (gives_decodeU16 hc).2 s₁, rfl⟩, c₂, _, ⟨p.size, (gives_decodeU16 hc₁).2 s₂, rfl⟩,
      c₃, _, ⟨p.first, (gives_decodeU32 hc₂).2 s₃, rfl⟩, ⟨⟩, _, rfl, c', _, ⟨p.cases, ?_, rfl⟩, _, _, ⟨rfl, rfl⟩,
      ⟨⟩, _, ⟨(eq_ofNat_iff (by decide)).1 raw.identifier, rfl⟩, rfl, ?_⟩
    · simp only [resizeList_nil]
      exact (readsAs_case.decodeEach_eq_ok hc₃).2 ⟨forall₂_replicate.2 ⟨raw.size.symm, raw.handles⟩, s₄⟩
    · rw [← raw.owner]

/-- The sparse tables that reading can leave. -/
structure SparseTable.Raw (t : SparseTable) : Prop where
  identifier : t.identifier = UInt16.ofNat Opcode.sparseSwitchPayload.value
  size : t.size.toNat = t.cases.length
  keys : t.keys.length = t.cases.length
  handles : ∀ x ∈ t.cases, x.handle = .none
  owner : t.owner = .none
  sorted : t.unsorted = false

/-- A sparse table that was read: its identifier and size, the values, and then the cases. -/
theorem SparseTable.of_decode {t : SparseTable} (h : (SparseTable.decode c).Gives {} c' t) :
    t.Raw ∧ ∃ c₁ c₂ c₃, (decodeU16 c).Gives (UInt16.ofNat Opcode.sparseSwitchPayload.value) c₁ t.identifier ∧
      (decodeU16 c₁).Gives 0 c₂ t.size ∧ decodeEach decodeU32 0 (List.replicate t.size.toNat 0) c₂ = (.ok c₃, t.keys) ∧
      decodeEach Case.decode 0 (List.replicate t.size.toNat {}) c₃ = (.ok c', t.cases) := by
  simp only [SparseTable.decode, Action.gives_bind, Action.gives_on, Action.gives_modify, Action.gives_of,
    Action.gives_get, Action.gives_lift, Action.gives_pure, checkIdentifier_eq_ok] at h
  obtain ⟨c₁, _, ⟨identifier, h₁, rfl⟩, c₂, _, ⟨size, h₂, rfl⟩, _, _, rfl, c₃, _, ⟨keys, h₃, rfl⟩, _, _, rfl,
    c₄, _, ⟨cases, h₄, rfl⟩, _, _, ⟨rfl, rfl⟩, _, _, ⟨check, rfl⟩, rfl, rfl⟩ := h
  simp only [resizeList_nil] at h₃ h₄
  obtain ⟨length, handles⟩ := forall₂_replicate.1 (forall₂_decodeEach (fun _ _ _ _ => handle_of_decode) h₄)
  have counted := (forall₂_replicate.1 (forall₂_decodeEach (fun _ _ _ _ _ => trivial) h₃)).1
  exact ⟨⟨(eq_ofNat_iff (by decide)).2 check, length.symm, counted.trans length.symm, handles, rfl, rfl⟩,
    c₁, c₂, c₃, h₁, h₂, h₃, h₄⟩

theorem SparseTable.gives_decode (hc : c.Sane) {t : SparseTable} :
    (SparseTable.decode c).Gives {} c' t ↔ t.Raw ∧ c.Spans t.pieces.flatten c' := by
  have bytes : t.pieces.flatten =
      bytesU16 t.identifier ++ (bytesU16 t.size ++ (t.keys.flatMap bytesU32 ++ t.cases.flatMap Case.bytes)) := by
    simp [SparseTable.pieces, List.flatMap]
  rw [bytes]
  constructor
  · intro h
    obtain ⟨raw, c₁, c₂, c₃, h₁, h₂, h₃, h₄⟩ := of_decode h
    have s₁ := (gives_decodeU16 hc).1 h₁
    have hc₁ := s₁.sane hc
    have s₂ := (gives_decodeU16 hc₁).1 h₂
    have hc₂ := s₂.sane hc₁
    have s₃ := ((readsAs_u32.decodeEach_eq_ok hc₂).1 h₃).2
    have s₄ := ((readsAs_case.decodeEach_eq_ok (s₃.sane hc₂)).1 h₄).2
    exact ⟨raw, Cursor.spans_append.2 ⟨c₁, s₁, Cursor.spans_append.2 ⟨c₂, s₂, Cursor.spans_append.2 ⟨c₃, s₃, s₄⟩⟩⟩⟩
  · rintro ⟨raw, spans⟩
    simp only [SparseTable.decode, Action.gives_bind, Action.gives_on, Action.gives_modify, Action.gives_of,
      Action.gives_get, Action.gives_lift, Action.gives_pure, checkIdentifier_eq_ok]
    obtain ⟨c₁, s₁, spans⟩ := Cursor.spans_append.1 spans
    obtain ⟨c₂, s₂, spans⟩ := Cursor.spans_append.1 spans
    obtain ⟨c₃, s₃, s₄⟩ := Cursor.spans_append.1 spans
    have hc₁ := s₁.sane hc
    have hc₂ := s₂.sane hc₁
    have hc₃ := s₃.sane hc₂
    refine ⟨c₁, _, ⟨t.identifier, (gives_decodeU16 hc).2 s₁, rfl⟩, c₂, _, ⟨t.size, (gives_decodeU16 hc₁).2 s₂, rfl⟩,
      ⟨⟩, _, rfl, c₃, _, ⟨t.keys, ?_, rfl⟩, ⟨⟩, _, rfl, c', _, ⟨t.cases, ?_, rfl⟩, _, _, ⟨rfl, rfl⟩,
      ⟨⟩, _, ⟨(eq_ofNat_iff (by decide)).1 raw.identifier, rfl⟩, rfl, ?_⟩
    · simp only [resizeList_nil]
      exact (readsAs_u32.decodeEach_eq_ok hc₂).2 ⟨forall₂_replicate.2 ⟨raw.keys.trans raw.size.symm, fun _ _ => trivial⟩, s₃⟩
    · simp only [resizeList_nil]
      exact (readsAs_case.decodeEach_eq_ok hc₃).2 ⟨forall₂_replicate.2 ⟨raw.size.symm, raw.handles⟩, s₄⟩
    · rw [← raw.owner, ← raw.sorted]

/-! ## Array contents -/

/-- The array payloads that reading can leave. -/
structure ArrayPayload.Raw (a : ArrayPayload) : Prop where
  identifier : a.identifier = UInt16.ofNat Opcode.arrayPayload.value
  width : ArrayPayload.isWidth a.width.toNat = true
  data : a.data.length = a.width.toNat * a.count.toNat
  pad : a.pad.length = a.data.length % 2

/-- An array payload that was read: its identifier, width and count, and then the data and the padding. -/
theorem ArrayPayload.of_decode {a : ArrayPayload} (h : (ArrayPayload.decode c).Gives {} c' a) :
    a.Raw ∧ ∃ c₁ c₂ c₃ c₄, (decodeU16 c).Gives (UInt16.ofNat Opcode.arrayPayload.value) c₁ a.identifier ∧
      (decodeU16 c₁).Gives 1 c₂ a.width ∧ (decodeU32 c₂).Gives 0 c₃ a.count ∧
      (decodeRun c₃).Gives (List.replicate a.data.length 0) c₄ a.data ∧
      (decodeRun c₄).Gives (List.replicate a.pad.length 0) c' a.pad := by
  simp only [ArrayPayload.decode, Action.gives_bind, Action.gives_on, Action.gives_get, Action.gives_lift,
    checkIdentifier_eq_ok] at h
  obtain ⟨c₁, _, ⟨identifier, h₁, rfl⟩, c₂, _, ⟨width, h₂, rfl⟩, c₃, _, ⟨count, h₃, rfl⟩, _, _, ⟨rfl, rfl⟩,
    _, _, ⟨check, rfl⟩, h⟩ := h
  split at h
  · simp at h
  · next isWidth =>
    split at h
    · simp at h
    · simp only [Action.gives_bind, Action.gives_on, Action.gives_set, resizeList_nil] at h
      obtain ⟨_, _, rfl, c₄, _, ⟨data, h₄, rfl⟩, ⟨pad, h₅, rfl⟩⟩ := h
      have dataLength := length_of_decodeRun h₄
      have padLength := length_of_decodeRun h₅
      simp only [List.length_replicate] at dataLength padLength
      refine ⟨⟨(eq_ofNat_iff (by decide)).2 check, by simpa using isWidth, dataLength, by rw [padLength, dataLength]⟩,
        c₁, c₂, c₃, c₄, h₁, h₂, h₃, ?_, ?_⟩
      · simp only [dataLength]
        exact h₄
      · simp only [padLength]
        exact h₅

theorem ArrayPayload.flatten_pieces (a : ArrayPayload) : a.pieces.flatten =
    bytesU16 a.identifier ++ (bytesU16 a.width ++ (bytesU32 a.count ++ (a.data ++ a.pad))) := by
  simp [ArrayPayload.pieces]

/-- Reading the bytes of a raw array payload gives the payload, whatever was there before. -/
theorem ArrayPayload.Raw.gives_decode {a : ArrayPayload} (raw : a.Raw) (spans : c.Spans a.pieces.flatten c')
    (pos : c.pos ≤ c.data.size) (old : ArrayPayload) : (ArrayPayload.decode c).Gives old c' a := by
  rw [flatten_pieces] at spans
  obtain ⟨c₁, s₁, spans⟩ := Cursor.spans_append.1 spans
  obtain ⟨c₂, s₂, spans⟩ := Cursor.spans_append.1 spans
  obtain ⟨c₃, s₃, spans⟩ := Cursor.spans_append.1 spans
  obtain ⟨c₄, s₄, s₅⟩ := Cursor.spans_append.1 spans
  have pos₁ := s₁.inside pos
  have pos₂ := s₂.inside pos₁
  have pos₃ := s₃.inside pos₂
  simp only [ArrayPayload.decode, Action.gives_bind, Action.gives_on, Action.gives_get, Action.gives_lift,
    checkIdentifier_eq_ok]
  refine ⟨c₁, _, ⟨a.identifier, s₁.gives_u16 pos, rfl⟩, c₂, _, ⟨a.width, s₂.gives_u16 pos₁, rfl⟩,
    c₃, _, ⟨a.count, s₃.gives_u32 pos₂, rfl⟩, _, _, ⟨rfl, rfl⟩,
    ⟨⟩, _, ⟨(eq_ofNat_iff (by decide)).1 raw.identifier, rfl⟩, ?_⟩
  have enough : ¬ c₃.available < a.width.toNat * a.count.toNat := by
    have le := s₄.le_data pos₃
    rw [raw.data] at le
    unfold Cursor.available
    omega
  rw [if_neg (by simp [raw.width]), if_neg enough]
  simp only [Action.gives_bind, Action.gives_on, Action.gives_set]
  refine ⟨⟨⟩, _, rfl, c₄, _, ⟨a.data, s₄.gives_run pos₃ ?_, rfl⟩, ⟨a.pad, s₅.gives_run (s₄.inside pos₃) ?_, rfl⟩⟩
  · rw [length_resizeList, raw.data]
  · rw [length_resizeList, raw.pad, raw.data]

theorem ArrayPayload.gives_decode (hc : c.Sane) {a : ArrayPayload} :
    (ArrayPayload.decode c).Gives {} c' a ↔ a.Raw ∧ c.Spans a.pieces.flatten c' := by
  constructor
  · intro h
    obtain ⟨raw, c₁, c₂, c₃, c₄, h₁, h₂, h₃, h₄, h₅⟩ := of_decode h
    have s₁ := (gives_decodeU16 hc).1 h₁
    have hc₁ := s₁.sane hc
    have s₂ := (gives_decodeU16 hc₁).1 h₂
    have hc₂ := s₂.sane hc₁
    have s₃ := (gives_decodeU32 hc₂).1 h₃
    have hc₃ := s₃.sane hc₂
    have s₄ := ((gives_decodeRun hc₃).1 h₄).2
    have s₅ := ((gives_decodeRun (s₄.sane hc₃)).1 h₅).2
    rw [flatten_pieces]
    exact ⟨raw, Cursor.spans_append.2 ⟨c₁, s₁, Cursor.spans_append.2 ⟨c₂, s₂, Cursor.spans_append.2 ⟨c₃, s₃,
      Cursor.spans_append.2 ⟨c₄, s₄, s₅⟩⟩⟩⟩⟩
  · exact fun ⟨raw, spans⟩ => raw.gives_decode spans hc.pos {}

/-! ## Instructions -/

namespace Instruction

/-- The instructions that reading can leave. -/
structure Raw (x : Instruction) : Prop where
  shaped : x.Shaped
  readable : x.Readable
  target : x.target = .none
  isPadding : x.isPadding = false

theorem gives_decodeUnits (hc : c.Sane) {n : Nat} {x y : Instruction} :
    (decodeUnits n c).Gives x c' y ↔
      ∃ us, us.length = n ∧ y = { x with units := x.units ++ us } ∧ c.Spans (us.flatMap bytesU16) c' := by
  induction n generalizing c x with
  | zero =>
    simp only [decodeUnits, Action.gives_pure]
    constructor
    · rintro ⟨rfl, rfl⟩
      exact ⟨[], rfl, by simp, Cursor.spans_nil.2 rfl⟩
    · rintro ⟨us, length, rfl, spans⟩
      obtain rfl := List.length_eq_zero_iff.1 length
      exact ⟨(Cursor.spans_nil.1 spans).symm, by simp⟩
  | succ n ih =>
    simp only [decodeUnits, Action.gives_bind, Action.gives_lift, Action.gives_modify]
    constructor
    · rintro ⟨⟨u, c₁⟩, _, ⟨h₁, rfl⟩, _, _, rfl, h⟩
      have s₁ := (Cursor.u16_eq_ok hc).1 h₁
      obtain ⟨us, rfl, rfl, spans⟩ := (ih (s₁.sane hc)).1 h
      refine ⟨u :: us, rfl, by simp, ?_⟩
      rw [List.flatMap_cons]
      exact Cursor.spans_append.2 ⟨c₁, s₁, spans⟩
    · rintro ⟨us, length, rfl, spans⟩
      obtain ⟨u, us, rfl⟩ := List.exists_cons_of_length_eq_add_one length
      rw [List.flatMap_cons] at spans
      obtain ⟨c₁, s₁, spans⟩ := Cursor.spans_append.1 spans
      refine ⟨(u, c₁), _, ⟨(Cursor.u16_eq_ok hc).2 s₁, rfl⟩, ⟨⟩, _, rfl, ?_⟩
      exact (ih (s₁.sane hc)).2 ⟨us, by simpa using length, by simp, spans⟩

theorem units_of_decodeUnits {n : Nat} {x y : Instruction} (h : (decodeUnits n c).Gives x c' y) :
    ∃ us, us.length = n ∧ y = { x with units := x.units ++ us } := by
  induction n generalizing c x with
  | zero =>
    simp only [decodeUnits, Action.gives_pure] at h
    exact ⟨[], rfl, by simp [h.2]⟩
  | succ n ih =>
    simp only [decodeUnits, Action.gives_bind, Action.gives_lift, Action.gives_modify] at h
    obtain ⟨⟨u, c₁⟩, _, ⟨-, rfl⟩, _, _, rfl, h⟩ := h
    obtain ⟨us, rfl, rfl⟩ := ih h
    exact ⟨u :: us, rfl, by simp⟩

/-- An instruction that was read: its opcode is found by the first unit, and its format says how many units follow. -/
theorem of_decode {x : Instruction} (h : (decode c).Gives default c' x) :
    x.Raw ∧ ∃ u c₁, c.u16 = .ok (u, c₁) ∧
      (decodeUnits (x.opcode.format.units - 1) c₁).Gives { opcode := x.opcode, units := [u] } c' x := by
  simp only [decode, Action.gives_bind, Action.gives_lift] at h
  obtain ⟨⟨u, c₁⟩, _, ⟨h₁, rfl⟩, h⟩ := h
  split at h
  · next op hop =>
    split at h
    · simp at h
    · next payload =>
      simp only [Action.gives_bind, Action.gives_modify] at h
      obtain ⟨_, _, rfl, h⟩ := h
      obtain ⟨us, length, rfl⟩ := units_of_decodeUnits h
      have mem := Opcode.mem_instructions (Opcode.mem_all_of_ofUnit? hop) (by simpa using payload)
      have pos := Opcode.units_pos_of_mem op mem
      refine ⟨⟨⟨mem, ?_, ?_⟩, ⟨u, rfl, hop⟩, rfl, rfl⟩, u, c₁, h₁, h⟩
      · simp only [List.length_append, List.length_singleton, length]
        omega
      · simpa [BitField.lowByte] using (Opcode.value_of_ofUnit? hop mem).symm
  · simp at h

theorem gives_decode (hc : c.Sane) {x : Instruction} :
    (decode c).Gives default c' x ↔ x.Raw ∧ c.Spans x.bytes c' := by
  constructor
  · intro h
    obtain ⟨raw, u, c₁, h₁, h⟩ := of_decode h
    have s₁ := (Cursor.u16_eq_ok hc).1 h₁
    obtain ⟨us, -, e, spans⟩ := (gives_decodeUnits (s₁.sane hc)).1 h
    refine ⟨raw, ?_⟩
    rw [e]
    simp only [bytes, List.singleton_append, List.flatMap_cons]
    exact Cursor.spans_append.2 ⟨c₁, s₁, spans⟩
  · rintro ⟨raw, spans⟩
    simp only [decode, Action.gives_bind, Action.gives_lift]
    obtain ⟨u, hu, hop⟩ := raw.readable
    obtain ⟨us, units⟩ := List.head?_eq_some_iff.1 hu
    rw [bytes, units, List.flatMap_cons] at spans
    obtain ⟨c₁, s₁, spans⟩ := Cursor.spans_append.1 spans
    refine ⟨(u, c₁), _, ⟨(Cursor.u16_eq_ok hc).2 s₁, rfl⟩, ?_⟩
    simp only [hop]
    rw [if_neg (by simp [Opcode.isPayload_of_mem _ raw.shaped.mem])]
    simp only [Action.gives_bind, Action.gives_modify]
    refine ⟨⟨⟩, _, rfl, (gives_decodeUnits (s₁.sane hc)).2 ⟨us, ?_, ?_, spans⟩⟩
    · have length := raw.shaped.length
      rw [units, List.length_cons] at length
      omega
    · rw [List.singleton_append, ← units]
      obtain ⟨op, units, target, isPadding⟩ := x
      obtain rfl := raw.target
      obtain rfl := raw.isPadding
      rfl

end Instruction

/-! ## Items -/

namespace Item

/-- The items that reading can leave. -/
def Raw : Item → Prop
  | .plain x => x.Raw
  | .packed p => p.Raw
  | .sparse t => t.Raw
  | .array a => a.Raw

def bytes (x : Item) : Bytes := x.pieces.flatten

theorem readInto_eq_ok {α : Type} {make : α → Item} {act : Action α Cursor} {fresh : α} {x : Item} :
    readInto make act fresh = .ok (x, c') ↔ ∃ y, act.Gives fresh c' y ∧ make y = x := by
  unfold readInto Action.Gives
  rcases act.apply fresh with ⟨r, y⟩
  cases r with
  | error e => simp [Except.map]
  | ok c₁ => simp [Except.map, and_comm]

theorem raw_of_decode {u : Nat} {x : Item} (h : Item.decode u c = .ok (x, c')) : x.Raw := by
  unfold Item.decode at h
  split at h
  · obtain ⟨p, hp, rfl⟩ := readInto_eq_ok.1 h
    exact (PackedTable.of_decode hp).1
  · split at h
    · obtain ⟨t, ht, rfl⟩ := readInto_eq_ok.1 h
      exact (SparseTable.of_decode ht).1
    · split at h
      · obtain ⟨a, ha, rfl⟩ := readInto_eq_ok.1 h
        exact (ArrayPayload.of_decode ha).1
      · obtain ⟨y, hy, rfl⟩ := readInto_eq_ok.1 h
        exact (Instruction.of_decode hy).1

/-- The first unit of a raw item tells what it is: an opcode, or the mark of a payload. -/
theorem unit_of_raw {x : Item} (h : x.Raw) :
    ∃ u rest, x.bytes = bytesU16 u ++ rest ∧
      match x with
      | .plain i => Opcode.ofUnit? u.toNat = some i.opcode ∧ i.opcode ∈ Opcode.instructions
      | .packed _ => u.toNat = Opcode.packedSwitchPayload.value
      | .sparse _ => u.toNat = Opcode.sparseSwitchPayload.value
      | .array _ => u.toNat = Opcode.arrayPayload.value := by
  cases x with
  | plain i =>
    obtain ⟨u, hu, hop⟩ := h.readable
    obtain ⟨us, units⟩ := List.head?_eq_some_iff.1 hu
    exact ⟨u, us.flatMap bytesU16, by simp [bytes, pieces, Instruction.bytes, units], hop, h.shaped.mem⟩
  | packed p =>
    exact ⟨p.identifier, _, by simp [bytes, pieces, PackedTable.pieces]; rfl,
      (eq_ofNat_iff (by decide)).1 h.identifier⟩
  | sparse t =>
    exact ⟨t.identifier, _, by simp [bytes, pieces, SparseTable.pieces]; rfl,
      (eq_ofNat_iff (by decide)).1 h.identifier⟩
  | array a =>
    exact ⟨a.identifier, _, by simp [bytes, pieces, ArrayPayload.pieces]; rfl,
      (eq_ofNat_iff (by decide)).1 h.identifier⟩

/-- The first unit of an instruction is not the mark of a payload. -/
theorem ne_payload {u : Nat} {op : Opcode} (h : Opcode.ofUnit? u = some op) (mem : op ∈ Opcode.instructions) :
    u ≠ Opcode.packedSwitchPayload.value ∧ u ≠ Opcode.sparseSwitchPayload.value ∧ u ≠ Opcode.arrayPayload.value := by
  have instruction := Opcode.isPayload_of_mem op mem
  refine ⟨?_, ?_, ?_⟩
  all_goals
    rintro rfl
    rw [Opcode.ofUnit?, show (Opcode.payloads.find? fun o => o.value == _) = some _ from rfl, Option.some_or] at h
    cases h
    cases instruction

/-- `Item.decode` gives `x` exactly if `x` is `Raw` and the bytes of `x` are at the cursor. -/
theorem spans_item (hc : c.Sane) {x : Item} :
    (∃ first, c.peek 2 = .ok first ∧ Item.decode (littleEndian first) c = .ok (x, c')) ↔
      x.Raw ∧ c.Spans x.bytes c' := by
  constructor
  · rintro ⟨first, -, h⟩
    refine ⟨raw_of_decode h, ?_⟩
    unfold Item.decode at h
    split at h
    · obtain ⟨p, hp, rfl⟩ := readInto_eq_ok.1 h
      exact ((PackedTable.gives_decode hc).1 hp).2
    · split at h
      · obtain ⟨t, ht, rfl⟩ := readInto_eq_ok.1 h
        exact ((SparseTable.gives_decode hc).1 ht).2
      · split at h
        · obtain ⟨a, ha, rfl⟩ := readInto_eq_ok.1 h
          exact ((ArrayPayload.gives_decode hc).1 ha).2
        · obtain ⟨y, hy, rfl⟩ := readInto_eq_ok.1 h
          simpa [bytes, pieces] using ((Instruction.gives_decode hc).1 hy).2
  · rintro ⟨raw, spans⟩
    obtain ⟨u, rest, e, unit⟩ := unit_of_raw raw
    have start : ∃ c₁, c.Spans (bytesU16 u) c₁ := by
      rw [e] at spans
      obtain ⟨c₁, s₁, -⟩ := Cursor.spans_append.1 spans
      exact ⟨c₁, s₁⟩
    refine ⟨bytesU16 u, (Cursor.peek_eq_ok hc).2 ⟨length_bytesU16 u, start⟩, ?_⟩
    rw [Item.decode, littleEndian_bytesU16]
    cases x with
    | plain i =>
      obtain ⟨h₁, h₂, h₃⟩ := ne_payload unit.1 unit.2
      rw [if_neg h₁, if_neg h₂, if_neg h₃]
      refine readInto_eq_ok.2 ⟨i, (Instruction.gives_decode hc).2 ⟨raw, ?_⟩, rfl⟩
      simpa [bytes, pieces] using spans
    | packed p =>
      rw [if_pos unit]
      exact readInto_eq_ok.2 ⟨p, (PackedTable.gives_decode hc).2 ⟨raw, spans⟩, rfl⟩
    | sparse t =>
      rw [if_neg (by rw [unit]; decide), if_pos unit]
      exact readInto_eq_ok.2 ⟨t, (SparseTable.gives_decode hc).2 ⟨raw, spans⟩, rfl⟩
    | array a =>
      rw [if_neg (by rw [unit]; decide), if_neg (by rw [unit]; decide), if_pos unit]
      exact readInto_eq_ok.2 ⟨a, (ArrayPayload.gives_decode hc).2 ⟨raw, spans⟩, rfl⟩

end Item

end Dalvik
