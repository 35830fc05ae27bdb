import Dalvik.Text.Utf8

/-!
# UTF-8

`first?` reads a code point from its encoding, whatever follows it (`first?_encodePoint`), and reads
nothing else as a code point (`eq_append_of_first?`). So the valid strings are the encodings of code
points (`isValid_iff`), and `points` gives the code points back (`points_encode`).
-/

namespace Dalvik.Utf8

variable {v w n value least size : Nat} {s : Bytes} {vs ws : List Nat}

/-! ## One code point -/

theorem isValidChar_iff : v.isValidChar ↔ v ≤ 0x10ffff ∧ ¬ (0xd800 ≤ v ∧ v ≤ 0xdfff) := by
  unfold Nat.isValidChar
  omega

theorem isValidChar_replacement : replacement.isValidChar := by decide

theorem accept_eq_some : accept value least size = some (v, n) ↔ (least ≤ value ∧ value.isValidChar) ∧ v = value ∧ n = size := by
  rw [isValidChar_iff, accept]
  split
  · next h => simp [h, eq_comm]
  · next h =>
    constructor
    · intro e
      cases e
    · rintro ⟨⟨low, high⟩, -⟩
      exact absurd ⟨low, high⟩ h

theorem encodePoint_of_valid (h : v.isValidChar) : encodePoint v =
    if v < 0x80 then [UInt8.ofNat v]
    else if v < 0x800 then [UInt8.ofNat (0xc0 + v / 64), UInt8.ofNat (0x80 + v % 64)]
    else if v < 0x10000 then
      [UInt8.ofNat (0xe0 + v / 4096), UInt8.ofNat (0x80 + v / 64 % 64), UInt8.ofNat (0x80 + v % 64)]
    else
      [UInt8.ofNat (0xf0 + v / 262144), UInt8.ofNat (0x80 + v / 4096 % 64), UInt8.ofNat (0x80 + v / 64 % 64),
        UInt8.ofNat (0x80 + v % 64)] := by
  rw [isValidChar_iff] at h
  have kept : ¬ (0x10ffff < v ∨ (0xd800 ≤ v ∧ v ≤ 0xdfff)) := by omega
  rw [encodePoint, if_neg kept]

theorem toNat_ofNat (h : n < 256) : (UInt8.ofNat n).toNat = n := UInt8.toNat_ofNat_of_lt' h

theorem isContinuation_ofNat (h : n < 64) : isContinuation (UInt8.ofNat (0x80 + n)) = true := by
  rw [isContinuation, toNat_ofNat (by omega), decide_eq_true_eq]
  omega

theorem first?_encodePoint (h : v.isValidChar) (rest : Bytes) :
    first? (encodePoint v ++ rest) = some (v, (encodePoint v).length) := by
  have bound := (isValidChar_iff.1 h).1
  rw [encodePoint_of_valid h]
  split
  · next one =>
    have lead : UInt8.ofNat v < 0x80 := by
      rw [UInt8.lt_iff_toNat_lt, toNat_ofNat (by omega)]
      exact one
    simp [first?, lead, toNat_ofNat (show v < 256 by omega)]
  split
  · next two =>
    have value : (0xc0 + v / 64) % 32 * 64 + (0x80 + v % 64) % 64 = v := by omega
    have lead : ¬ UInt8.ofNat (0xc0 + v / 64) < 0x80 ∧ ¬ UInt8.ofNat (0xc0 + v / 64) < 0xc2 ∧
        UInt8.ofNat (0xc0 + v / 64) < 0xe0 := by
      simp only [UInt8.lt_iff_toNat_lt, toNat_ofNat (show 0xc0 + v / 64 < 256 by omega), UInt8.reduceToNat]
      omega
    simp only [List.cons_append, List.nil_append, first?, lead, if_false, if_true, isContinuation_ofNat (show v % 64 < 64 by omega),
      toNat_ofNat (show 0xc0 + v / 64 < 256 by omega), toNat_ofNat (show 0x80 + v % 64 < 256 by omega), value]
    exact accept_eq_some.2 ⟨⟨by omega, h⟩, rfl, rfl⟩
  split
  · next three =>
    have value : ((0xe0 + v / 4096) % 16 * 64 + (0x80 + v / 64 % 64) % 64) * 64 + (0x80 + v % 64) % 64 = v := by omega
    have lead : ¬ UInt8.ofNat (0xe0 + v / 4096) < 0x80 ∧ ¬ UInt8.ofNat (0xe0 + v / 4096) < 0xc2 ∧
        ¬ UInt8.ofNat (0xe0 + v / 4096) < 0xe0 ∧ UInt8.ofNat (0xe0 + v / 4096) < 0xf0 := by
      simp only [UInt8.lt_iff_toNat_lt, toNat_ofNat (show 0xe0 + v / 4096 < 256 by omega), UInt8.reduceToNat]
      omega
    simp only [List.cons_append, List.nil_append, first?, lead, if_false, if_true, isContinuation_ofNat (show v % 64 < 64 by omega),
      isContinuation_ofNat (show v / 64 % 64 < 64 by omega), Bool.and_self, toNat_ofNat (show 0xe0 + v / 4096 < 256 by omega),
      toNat_ofNat (show 0x80 + v / 64 % 64 < 256 by omega), toNat_ofNat (show 0x80 + v % 64 < 256 by omega), value]
    exact accept_eq_some.2 ⟨⟨by omega, h⟩, rfl, rfl⟩
  · next four =>
    have value : (((0xf0 + v / 262144) % 8 * 64 + (0x80 + v / 4096 % 64) % 64) * 64 + (0x80 + v / 64 % 64) % 64) * 64 +
        (0x80 + v % 64) % 64 = v := by omega
    have lead : ¬ UInt8.ofNat (0xf0 + v / 262144) < 0x80 ∧ ¬ UInt8.ofNat (0xf0 + v / 262144) < 0xc2 ∧
        ¬ UInt8.ofNat (0xf0 + v / 262144) < 0xe0 ∧ ¬ UInt8.ofNat (0xf0 + v / 262144) < 0xf0 ∧
        UInt8.ofNat (0xf0 + v / 262144) < 0xf5 := by
      simp only [UInt8.lt_iff_toNat_lt, toNat_ofNat (show 0xf0 + v / 262144 < 256 by omega), UInt8.reduceToNat]
      omega
    simp only [List.cons_append, List.nil_append, first?, lead, if_false, if_true, isContinuation_ofNat (show v % 64 < 64 by omega),
      isContinuation_ofNat (show v / 64 % 64 < 64 by omega), isContinuation_ofNat (show v / 4096 % 64 < 64 by omega), Bool.and_self,
      toNat_ofNat (show 0xf0 + v / 262144 < 256 by omega), toNat_ofNat (show 0x80 + v / 4096 % 64 < 256 by omega),
      toNat_ofNat (show 0x80 + v / 64 % 64 < 256 by omega), toNat_ofNat (show 0x80 + v % 64 < 256 by omega), value]
    exact accept_eq_some.2 ⟨⟨by omega, h⟩, rfl, rfl⟩

theorem ofNat_eq {b : UInt8} (h : n = b.toNat) : UInt8.ofNat n = b := by rw [h, UInt8.ofNat_toNat]

section Bytes

variable {a b c d : UInt8}

theorem encodePoint_one (ha : a.toNat < 0x80) : a.toNat.isValidChar ∧ encodePoint a.toNat = [a] := by
  have valid : a.toNat.isValidChar := isValidChar_iff.2 (by omega)
  exact ⟨valid, by rw [encodePoint_of_valid valid, if_pos ha, UInt8.ofNat_toNat]⟩

theorem encodePoint_two (h : v.isValidChar) (value : v = a.toNat % 32 * 64 + b.toNat % 64) (least : 0x80 ≤ v)
    (low : 0xc2 ≤ a.toNat) (high : a.toNat < 0xe0) (hb : isContinuation b = true) : encodePoint v = [a, b] := by
  rw [isContinuation, decide_eq_true_eq] at hb
  rw [encodePoint_of_valid h, if_neg (by omega), if_pos (by omega), ofNat_eq (b := a) (by omega), ofNat_eq (b := b) (by omega)]

theorem encodePoint_three (h : v.isValidChar) (value : v = (a.toNat % 16 * 64 + b.toNat % 64) * 64 + c.toNat % 64)
    (least : 0x800 ≤ v) (low : 0xe0 ≤ a.toNat) (high : a.toNat < 0xf0) (hb : isContinuation b = true)
    (hc : isContinuation c = true) : encodePoint v = [a, b, c] := by
  rw [isContinuation, decide_eq_true_eq] at hb hc
  rw [encodePoint_of_valid h, if_neg (by omega), if_neg (by omega), if_pos (by omega), ofNat_eq (b := a) (by omega),
    ofNat_eq (b := b) (by omega), ofNat_eq (b := c) (by omega)]

theorem encodePoint_four (h : v.isValidChar)
    (value : v = ((a.toNat % 8 * 64 + b.toNat % 64) * 64 + c.toNat % 64) * 64 + d.toNat % 64) (least : 0x10000 ≤ v)
    (low : 0xf0 ≤ a.toNat) (high : a.toNat < 0xf5) (hb : isContinuation b = true) (hc : isContinuation c = true)
    (hd : isContinuation d = true) : encodePoint v = [a, b, c, d] := by
  rw [isContinuation, decide_eq_true_eq] at hb hc hd
  rw [encodePoint_of_valid h, if_neg (by omega), if_neg (by omega), if_neg (by omega), ofNat_eq (b := a) (by omega),
    ofNat_eq (b := b) (by omega), ofNat_eq (b := c) (by omega), ofNat_eq (b := d) (by omega)]

end Bytes

/-- What `first?` reads is the encoding of the code point that it gives. -/
theorem eq_append_of_first? (h : first? s = some (v, n)) :
    v.isValidChar ∧ n = (encodePoint v).length ∧ ∃ r, s = encodePoint v ++ r := by
  have whole : ∀ {p r : Bytes}, v.isValidChar → encodePoint v = p → n = p.length → s = p ++ r →
      v.isValidChar ∧ n = (encodePoint v).length ∧ ∃ r, s = encodePoint v ++ r := by
    rintro _ r valid rfl length cut
    exact ⟨valid, length, r, cut⟩
  unfold first? at h
  split at h
  · cases h
  next a r =>
  split at h
  · next one =>
    cases h
    obtain ⟨valid, bytes⟩ := encodePoint_one (UInt8.lt_iff_toNat_lt.1 one)
    exact whole (p := [a]) valid bytes rfl rfl
  split at h
  · cases h
  next low =>
  have low : 0xc2 ≤ a.toNat := Nat.le_of_not_lt fun lt => low (UInt8.lt_iff_toNat_lt.2 lt)
  split at h
  · next two =>
    have high : a.toNat < 0xe0 := UInt8.lt_iff_toNat_lt.1 two
    split at h
    · next b r =>
      split at h
      · next hb =>
        obtain ⟨⟨least, valid⟩, value, length⟩ := accept_eq_some.1 h
        rw [← value] at least valid
        exact whole (p := [a, b]) valid (encodePoint_two valid value least low high hb) length rfl
      · cases h
    · cases h
  next low =>
  have low : 0xe0 ≤ a.toNat := Nat.le_of_not_lt fun lt => low (UInt8.lt_iff_toNat_lt.2 lt)
  split at h
  · next three =>
    have high : a.toNat < 0xf0 := UInt8.lt_iff_toNat_lt.1 three
    split at h
    · next b c r =>
      split at h
      · next continued =>
        obtain ⟨hb, hc⟩ := Bool.and_eq_true_iff.1 continued
        obtain ⟨⟨least, valid⟩, value, length⟩ := accept_eq_some.1 h
        rw [← value] at least valid
        exact whole (p := [a, b, c]) valid (encodePoint_three valid value least low high hb hc) length rfl
      · cases h
    · cases h
  next low =>
  have low : 0xf0 ≤ a.toNat := Nat.le_of_not_lt fun lt => low (UInt8.lt_iff_toNat_lt.2 lt)
  split at h
  · next four =>
    have high : a.toNat < 0xf5 := UInt8.lt_iff_toNat_lt.1 four
    split at h
    · next b c d r =>
      split at h
      · next continued =>
        obtain ⟨front, hd⟩ := Bool.and_eq_true_iff.1 continued
        obtain ⟨hb, hc⟩ := Bool.and_eq_true_iff.1 front
        obtain ⟨⟨least, valid⟩, value, length⟩ := accept_eq_some.1 h
        rw [← value] at least valid
        exact whole (p := [a, b, c, d]) valid (encodePoint_four valid value least low high hb hc hd) length rfl
      · cases h
    · cases h
  · cases h

/-! ## Strings -/

theorem piecesFuel_eq {m : Nat} (hn : s.length ≤ n) (hm : s.length ≤ m) : piecesFuel n s = piecesFuel m s := by
  induction n generalizing m s with
  | zero =>
    obtain rfl := List.length_eq_zero_iff.1 (Nat.le_zero.1 hn)
    cases m <;> rfl
  | succ n ih =>
    cases s with
    | nil => cases m <;> rfl
    | cons b r =>
      obtain ⟨m, rfl⟩ : ∃ k, m = k + 1 := ⟨m - 1, by simp at hm; omega⟩
      have shorter : ∀ k, (r.drop k).length ≤ n ∧ (r.drop k).length ≤ m := by
        intro k
        simp at hn hm ⊢
        omega
      rw [piecesFuel, piecesFuel]
      split
      · rw [ih (shorter _).1 (shorter _).2]
      · exact congrArg _ (ih (shorter 0).1 (shorter 0).2)

theorem pieces_of_some {b : UInt8} {r : Bytes} (h : first? (b :: r) = some (v, n)) :
    pieces (b :: r) = .point v :: pieces (r.drop (n - 1)) := by
  rw [pieces, List.length_cons, piecesFuel, h]
  exact congrArg _ (piecesFuel_eq (by simp) (Nat.le_refl _))

theorem pieces_of_none {b : UInt8} {r : Bytes} (h : first? (b :: r) = none) : pieces (b :: r) = .stray b :: pieces r := by
  rw [pieces, List.length_cons, piecesFuel, h]
  rfl

theorem encodePoint_ne_nil (v : Nat) : encodePoint v ≠ [] := by
  unfold encodePoint
  dsimp only
  repeat' split
  all_goals exact List.cons_ne_nil _ _

theorem pieces_append (h : v.isValidChar) (rest : Bytes) : pieces (encodePoint v ++ rest) = .point v :: pieces rest := by
  obtain ⟨b, r, cut⟩ := List.exists_cons_of_ne_nil (encodePoint_ne_nil v)
  have read := first?_encodePoint h rest
  rw [cut, List.cons_append] at read ⊢
  rw [pieces_of_some read, List.length_cons, Nat.add_sub_cancel, List.drop_left]

theorem pieces_encode (h : ∀ v ∈ vs, v.isValidChar) : pieces (encode vs) = vs.map .point := by
  induction vs with
  | nil => rfl
  | cons v vs ih =>
    obtain ⟨here, others⟩ := List.forall_mem_cons.1 h
    rw [encode, List.flatMap_cons, pieces_append here, List.map_cons]
    exact congrArg _ (ih others)

/-- `points` of the encoding of code points gives the code points. -/
theorem points_encode (h : ∀ v ∈ vs, v.isValidChar) : points (encode vs) = vs := by
  rw [points, pieces_encode h, List.map_map]
  exact List.map_id vs

theorem encode_injective (hv : ∀ v ∈ vs, v.isValidChar) (hw : ∀ w ∈ ws, w.isValidChar) (same : encode vs = encode ws) : vs = ws := by
  rw [← points_encode hv, same, points_encode hw]

/-- The valid strings are the encodings of code points. -/
theorem isValid_iff : isValid s = true ↔ ∃ vs, (∀ v ∈ vs, v.isValidChar) ∧ s = encode vs := by
  constructor
  · intro valid
    induction length : s.length using Nat.strongRecOn generalizing s with
    | ind n ih =>
      cases s with
      | nil => exact ⟨[], nofun, rfl⟩
      | cons b r =>
        cases read : first? (b :: r) with
        | none =>
          rw [isValid, pieces_of_none read] at valid
          cases valid
        | some front =>
          obtain ⟨v, n⟩ := front
          obtain ⟨here, size, rest, cut⟩ := eq_append_of_first? read
          rw [cut, isValid, pieces_append here] at valid
          have shorter : rest.length < (b :: r).length := by
            have := List.length_pos_iff.2 (encodePoint_ne_nil v)
            rw [cut, List.length_append]
            omega
          obtain ⟨vs, others, rfl⟩ := ih rest.length (by omega) valid rfl
          exact ⟨v :: vs, List.forall_mem_cons.2 ⟨here, others⟩, cut⟩
  · rintro ⟨vs, valid, rfl⟩
    rw [isValid, pieces_encode valid, List.all_map, List.all_eq_true]
    exact fun _ _ => rfl

/-- Encoding the code points of a valid string gives the string. -/
theorem encode_points (h : isValid s = true) : (∀ v ∈ points s, v.isValidChar) ∧ encode (points s) = s := by
  obtain ⟨vs, valid, rfl⟩ := isValid_iff.1 h
  rw [points_encode valid]
  exact ⟨valid, rfl⟩

end Dalvik.Utf8
