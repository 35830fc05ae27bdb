import Dalvik.Cell
import Dalvik.Proofs.Action
import Dalvik.Proofs.Leb128
import Mathlib.Data.List.TakeDrop

/-!
# What a cursor reads

`c.Spans b c'` says that the data of `c` has the bytes `b` at its position, and that `c'` is the
cursor behind them. Each reader has a lemma that says it succeeds exactly on the encoding of the
value it gives (`u16_eq_ok`, `uleb_eq_ok` and so on), which serves reading and writing alike.
-/

namespace Dalvik

/-! ## Little-endian numbers -/

theorem length_toLittleEndian (width n : Nat) : (toLittleEndian width n).length = width := by
  induction width generalizing n with
  | zero => rfl
  | succ width ih => simp [toLittleEndian, ih]

theorem littleEndian_toLittleEndian (width n : Nat) : littleEndian (toLittleEndian width n) = n % 256 ^ width := by
  induction width generalizing n with
  | zero => simp [toLittleEndian, littleEndian, Nat.mod_one]
  | succ width ih =>
    have back : (UInt8.ofNat (n % 256)).toNat = n % 256 := by simp
    rw [toLittleEndian, littleEndian, ih, back, Nat.pow_succ, Nat.mul_comm (256 ^ width), Nat.mod_mul]

theorem toLittleEndian_littleEndian (b : Bytes) : toLittleEndian b.length (littleEndian b) = b := by
  induction b with
  | nil => rfl
  | cons x b ih =>
    have small := x.toNat_lt
    have low : (x.toNat + 256 * littleEndian b) % 256 = x.toNat := by omega
    have high : (x.toNat + 256 * littleEndian b) / 256 = littleEndian b := by omega
    rw [List.length_cons, littleEndian, toLittleEndian, low, high, ih, UInt8.ofNat_toNat]

theorem littleEndian_lt (b : Bytes) : littleEndian b < 256 ^ b.length := by
  induction b with
  | nil => simp [littleEndian]
  | cons x b ih =>
    have small := x.toNat_lt
    rw [littleEndian, List.length_cons, Nat.pow_succ]
    omega

@[simp] theorem length_bytesU16 (v : UInt16) : (bytesU16 v).length = 2 := length_toLittleEndian _ _

@[simp] theorem length_bytesU32 (v : UInt32) : (bytesU32 v).length = 4 := length_toLittleEndian _ _

theorem littleEndian_bytesU16 (v : UInt16) : littleEndian (bytesU16 v) = v.toNat := by
  rw [bytesU16, littleEndian_toLittleEndian]
  exact Nat.mod_eq_of_lt v.toNat_lt

namespace Cursor

open Dalvik.Action (except_bind_eq_ok)

variable {c c' c'' : Cursor} {a b : Bytes} {n : Nat}

instance : DecidableEq Cursor := fun c d =>
  decidable_of_iff (c.data = d.data ∧ c.pos = d.pos ∧ c.marks = d.marks) (by cases c; cases d; simp)

/-- The data has fewer than `2 ^ 63` bytes, and the position is inside it. -/
structure Sane (c : Cursor) : Prop where
  size : (c.data.size : Int) ≤ maxRun
  pos : c.pos ≤ c.data.size

/-- The data has the bytes `b` at the position of `c`, and `c'` is the cursor behind them. -/
structure Spans (c : Cursor) (b : Bytes) (c' : Cursor) : Prop where
  here : b <+: c.data.toList.drop c.pos
  next : c' = { c with pos := c.pos + b.length }

theorem slice_eq (c : Cursor) (start n : Nat) : c.slice start n = (c.data.toList.drop start).take n := by
  simp [slice, Array.toList_extract]

/-! ## Spans -/

theorem spans_nil : c.Spans [] c' ↔ c' = c := by
  constructor
  · exact fun h => h.next
  · rintro rfl
    exact ⟨List.nil_prefix, rfl⟩

theorem spans_append : c.Spans (a ++ b) c'' ↔ ∃ c', c.Spans a c' ∧ c'.Spans b c'' := by
  constructor
  · rintro ⟨⟨r, hr⟩, rfl⟩
    refine ⟨{ c with pos := c.pos + a.length }, ⟨⟨b ++ r, by rw [← hr, List.append_assoc]⟩, rfl⟩, ⟨r, ?_⟩, ?_⟩
    · rw [← List.drop_drop, ← hr, List.append_assoc, List.drop_left]
    · simp [Nat.add_assoc]
  · rintro ⟨_, ⟨⟨r, hr⟩, rfl⟩, ⟨r', hr'⟩, rfl⟩
    refine ⟨⟨r', ?_⟩, by simp [Nat.add_assoc]⟩
    rw [← List.drop_drop, ← hr, List.drop_left] at hr'
    rw [List.append_assoc, hr', hr]

/-- A cursor between `before` and `b ++ rest` spans `b`. -/
theorem spans_here (before b rest : Bytes) (marks : List Nat) :
    Spans ⟨(before ++ b ++ rest).toArray, before.length, marks⟩ b ⟨(before ++ b ++ rest).toArray, before.length + b.length, marks⟩ where
  here := by
    rw [List.append_assoc, List.drop_left]
    exact List.prefix_append b rest
  next := rfl

theorem Spans.sane (h : c.Spans b c') (hc : c.Sane) : c'.Sane := by
  obtain ⟨here, rfl⟩ := h
  have := here.length_le
  simp only [List.length_drop, Array.length_toList] at this
  exact ⟨hc.size, by have := hc.pos; simp only; omega⟩

/-- The slice of the length of a spanned string is that string. -/
theorem Spans.slice (h : c.Spans b c') : c.slice c.pos b.length = b := by
  rw [slice_eq]
  exact (List.prefix_iff_eq_take.1 h.here).symm

/-- A cursor spans the slice of `n` bytes if `n` bytes are left. -/
theorem spans_slice (h : c.pos + n ≤ c.data.size) : c.Spans (c.slice c.pos n) { c with pos := c.pos + n } := by
  have length : (c.slice c.pos n).length = n := by
    rw [slice_eq, List.length_take, List.length_drop, Array.length_toList]
    omega
  refine ⟨?_, by rw [length]⟩
  rw [slice_eq]
  exact List.take_prefix n _

theorem Spans.le_data (h : c.Spans b c') (pos : c.pos ≤ c.data.size) : c.pos + b.length ≤ c.data.size := by
  have := h.here.length_le
  simp only [List.length_drop, Array.length_toList] at this
  omega

theorem Spans.inside (h : c.Spans b c') (pos : c.pos ≤ c.data.size) : c'.pos ≤ c'.data.size := by
  have le := h.le_data pos
  obtain ⟨-, rfl⟩ := h
  exact le

theorem Spans.le_size (h : c.Spans b c') (hc : c.Sane) : c.pos + b.length ≤ c.data.size := h.le_data hc.pos

/-! ## Reading what is there

Bytes that stand at the position are read whatever the size of the data. -/

theorem wrap64_le {i : Int} (low : 0 ≤ i) : wrap64 i ≤ i := by
  have power : ((twoPow 64 : Nat) : Int) = 18446744073709551616 := by rfl
  unfold wrap64 Int.bmod
  rw [power]
  dsimp only
  split <;> omega

theorem need_of_le (h : c.pos + n ≤ c.data.size) : c.need n = .ok ⟨⟩ := by
  have := wrap64_le (i := (c.pos : Int) + n) (by omega)
  rw [need, if_neg (by omega)]

theorem Spans.bytes_ok (h : c.Spans b c') (pos : c.pos ≤ c.data.size) : c.bytes b.length = .ok (b, c') := by
  have le := h.le_data pos
  have peeked : c.peek b.length = .ok b :=
    except_bind_eq_ok.2 ⟨⟨⟩, need_of_le le, by rw [if_neg (by omega), Int.toNat_natCast, h.slice]; rfl⟩
  exact except_bind_eq_ok.2 ⟨b, peeked, by rw [h.next]; rfl⟩

theorem Spans.number_ok {width v : Nat} (h : c.Spans (toLittleEndian width v) c') (small : v < 256 ^ width)
    (pos : c.pos ≤ c.data.size) : c.number width = .ok (v, c') := by
  have le := h.le_data pos
  have here := h.slice
  have next := h.next
  rw [length_toLittleEndian] at le here next
  exact except_bind_eq_ok.2 ⟨⟨⟩, need_of_le le, by rw [here, littleEndian_toLittleEndian, Nat.mod_eq_of_lt small, next]; rfl⟩

theorem Spans.u8_ok {v : UInt8} (h : c.Spans [v] c') (pos : c.pos ≤ c.data.size) : c.u8 = .ok (v, c') := by
  have byte : toLittleEndian 1 v.toNat = [v] := toLittleEndian_littleEndian [v]
  rw [← byte] at h
  exact except_bind_eq_ok.2 ⟨_, h.number_ok v.toNat_lt pos, by simp only [UInt8.ofNat_toNat]; rfl⟩

theorem Spans.u16_ok {v : UInt16} (h : c.Spans (bytesU16 v) c') (pos : c.pos ≤ c.data.size) : c.u16 = .ok (v, c') :=
  except_bind_eq_ok.2 ⟨_, h.number_ok v.toNat_lt pos, by simp only [UInt16.ofNat_toNat]; rfl⟩

theorem Spans.u32_ok {v : UInt32} (h : c.Spans (bytesU32 v) c') (pos : c.pos ≤ c.data.size) : c.u32 = .ok (v, c') :=
  except_bind_eq_ok.2 ⟨_, h.number_ok v.toNat_lt pos, by simp only [UInt32.ofNat_toNat]; rfl⟩

/-! ## Readers -/

theorem wrap64_of_le {i : Int} (low : 0 ≤ i) (high : i ≤ 2 * maxRun) : wrap64 i = i := by
  have bound : 2 * maxRun = 562949953421312 := by rfl
  have power : ((twoPow 64 : Nat) : Int) = 18446744073709551616 := by rfl
  exact Int.bmod_eq_of_le (by omega) (by omega)

theorem need_eq_ok (hc : c.Sane) (hn : (n : Int) ≤ maxRun) : c.need n = .ok ⟨⟩ ↔ c.pos + n ≤ c.data.size := by
  have wrap : wrap64 ((c.pos : Int) + n) = c.pos + n := by
    refine wrap64_of_le (by omega) ?_
    have := hc.size
    have := hc.pos
    omega
  unfold need
  rw [wrap]
  split
  · next h =>
    constructor
    · intro e
      cases e
    · intro le
      omega
  · next h =>
    constructor
    · intro _
      omega
    · intro _
      rfl

theorem peek_eq_ok (hc : c.Sane) : c.peek n = .ok b ↔ b.length = n ∧ ∃ c', c.Spans b c' := by
  have enough : c.peek n = .ok b ↔ c.pos + n ≤ c.data.size ∧ c.slice c.pos n = b := by
    unfold peek
    constructor
    · intro h
      obtain ⟨-, -, h⟩ := except_bind_eq_ok.1 h
      split at h
      · cases h
      · next fits =>
        cases h
        exact ⟨by omega, rfl⟩
    · rintro ⟨le, rfl⟩
      have small : (n : Int) ≤ maxRun := by
        have := hc.size
        omega
      refine except_bind_eq_ok.2 ⟨⟨⟩, (need_eq_ok hc small).2 le, ?_⟩
      rw [if_neg (by omega)]
      rfl
  rw [enough]
  constructor
  · rintro ⟨le, rfl⟩
    have spans := spans_slice le
    refine ⟨?_, _, spans⟩
    rw [slice_eq, List.length_take, List.length_drop, Array.length_toList]
    omega
  · rintro ⟨rfl, c', spans⟩
    exact ⟨spans.le_size hc, spans.slice⟩

theorem length_of_bytes (h : c.bytes n = .ok (b, c')) : b.length = n := by
  unfold bytes at h
  obtain ⟨b', hb', e⟩ := except_bind_eq_ok.1 h
  cases e
  unfold peek at hb'
  obtain ⟨-, -, hb'⟩ := except_bind_eq_ok.1 hb'
  split at hb'
  · cases hb'
  · next fits =>
    cases hb'
    rw [slice_eq, List.length_take, List.length_drop, Array.length_toList]
    omega

theorem bytes_eq_ok (hc : c.Sane) : c.bytes n = .ok (b, c') ↔ b.length = n ∧ c.Spans b c' := by
  unfold bytes
  rw [except_bind_eq_ok]
  constructor
  · rintro ⟨b', hb', e⟩
    cases e
    obtain ⟨rfl, c'', spans⟩ := (peek_eq_ok hc).1 hb'
    exact ⟨rfl, by rw [show c'' = _ from spans.next] at spans; simpa using spans⟩
  · rintro ⟨rfl, spans⟩
    exact except_bind_eq_ok.1 (spans.bytes_ok hc.pos)

theorem number_eq_ok (hc : c.Sane) {width v : Nat} (hw : width ≤ 8) :
    c.number width = .ok (v, c') ↔ v < 256 ^ width ∧ c.Spans (toLittleEndian width v) c' := by
  have small : (width : Int) ≤ maxRun := by
    have : maxRun = 281474976710656 := by rfl
    omega
  unfold number
  rw [except_bind_eq_ok]
  constructor
  · rintro ⟨⟨⟩, enough, e⟩
    have spans := spans_slice ((need_eq_ok hc small).1 enough)
    have length : (c.slice c.pos width).length = width := by
      rw [slice_eq, List.length_take, List.length_drop, Array.length_toList]
      have := (need_eq_ok hc small).1 enough
      omega
    cases e
    have back := toLittleEndian_littleEndian (c.slice c.pos width)
    have lt := littleEndian_lt (c.slice c.pos width)
    rw [length] at back lt
    exact ⟨lt, by rw [back]; exact spans⟩
  · rintro ⟨lt, spans⟩
    exact except_bind_eq_ok.1 (spans.number_ok lt hc.pos)

theorem u8_eq_ok (hc : c.Sane) {v : UInt8} : c.u8 = .ok (v, c') ↔ c.Spans [v] c' := by
  have byte : ∀ n, n < 256 → toLittleEndian 1 n = [UInt8.ofNat n] := by
    intro n small
    simp [toLittleEndian, Nat.mod_eq_of_lt small]
  unfold u8
  rw [except_bind_eq_ok]
  constructor
  · rintro ⟨⟨m, c₁⟩, hm, e⟩
    cases e
    obtain ⟨lt, spans⟩ := (number_eq_ok hc (by decide)).1 hm
    rwa [byte m lt] at spans
  · intro spans
    exact except_bind_eq_ok.1 (spans.u8_ok hc.pos)

theorem u16_eq_ok (hc : c.Sane) {v : UInt16} : c.u16 = .ok (v, c') ↔ c.Spans (bytesU16 v) c' := by
  unfold u16
  rw [except_bind_eq_ok]
  constructor
  · rintro ⟨⟨m, c₁⟩, hm, e⟩
    cases e
    obtain ⟨lt, spans⟩ := (number_eq_ok hc (by decide)).1 hm
    rwa [bytesU16, UInt16.toNat_ofNat_of_lt' lt]
  · intro spans
    exact except_bind_eq_ok.1 (spans.u16_ok hc.pos)

theorem u32_eq_ok (hc : c.Sane) {v : UInt32} : c.u32 = .ok (v, c') ↔ c.Spans (bytesU32 v) c' := by
  unfold u32
  rw [except_bind_eq_ok]
  constructor
  · rintro ⟨⟨m, c₁⟩, hm, e⟩
    cases e
    obtain ⟨lt, spans⟩ := (number_eq_ok hc (by decide)).1 hm
    rwa [bytesU32, UInt32.toNat_ofNat_of_lt' lt]
  · intro spans
    exact except_bind_eq_ok.1 (spans.u32_ok hc.pos)

/-- The first `n` bytes of a longer slice are spanned. This is how a LEB128 reader, which looks at a slice of fixed
length, tells what it has read. -/
theorem take_slice {raw : Bytes} {limit : Nat} (hn : n ≤ limit) (hl : n ≤ (c.slice c.pos limit).length)
    (e : (c.slice c.pos limit).take n = raw) : raw.length = n ∧ c.Spans raw { c with pos := c.pos + n } := by
  have enough : c.pos + n ≤ c.data.size ∨ n = 0 := by
    rw [slice_eq, List.length_take, List.length_drop, Array.length_toList] at hl
    omega
  have same : raw = c.slice c.pos n := by
    rw [← e, slice_eq, slice_eq, List.take_take, Nat.min_eq_left hn]
  have length : raw.length = n := by rw [← e, List.length_take, Nat.min_eq_left hl]
  refine ⟨length, ?_, by rw [length]⟩
  rw [same, slice_eq]
  exact List.take_prefix n _

theorem slice_of_spans {raw : Bytes} {limit : Nat} (spans : c.Spans raw c') (hl : raw.length ≤ limit) :
    ∃ r, c.slice c.pos limit = raw ++ r := by
  obtain ⟨r, hr⟩ := spans.here
  refine ⟨r.take (limit - raw.length), ?_⟩
  rw [slice_eq, ← hr, List.take_append, List.take_of_length_le hl]

theorem uleb_eq_ok {v : UInt32} :
    c.uleb = .ok (v, n, c') ↔
      ∃ raw, raw.length = n ∧ c.Spans raw c' ∧ Leb128.decodeU raw = some (v, raw.length) := by
  unfold uleb
  constructor
  · intro h
    split at h
    · next w m hw =>
      cases h
      obtain ⟨hl, hn, taken⟩ := Leb128.decodeU_take hw
      obtain ⟨length, spans⟩ := take_slice hn hl rfl
      exact ⟨_, length, spans, by rwa [length]⟩
    · cases h
  · rintro ⟨raw, rfl, spans, hd⟩
    obtain ⟨r, hr⟩ := slice_of_spans spans (Leb128.decodeU_take hd).2.1
    rw [hr, Leb128.decodeU_append r hd, spans.next]

theorem sleb_eq_ok {v : Int32} :
    c.sleb = .ok (v, n, c') ↔
      ∃ raw, raw.length = n ∧ c.Spans raw c' ∧ Leb128.decodeS raw = some (v, raw.length) := by
  unfold sleb
  constructor
  · intro h
    split at h
    · next w m hw =>
      cases h
      obtain ⟨hl, hn, taken⟩ := Leb128.decodeS_take hw
      obtain ⟨length, spans⟩ := take_slice hn hl rfl
      exact ⟨_, length, spans, by rwa [length]⟩
    · cases h
  · rintro ⟨raw, rfl, spans, hd⟩
    obtain ⟨r, hr⟩ := slice_of_spans spans (Leb128.decodeS_take hd).2.1
    rw [hr, Leb128.decodeS_append r hd, spans.next]

end Cursor

end Dalvik
