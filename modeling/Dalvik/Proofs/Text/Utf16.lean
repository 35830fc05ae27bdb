import Dalvik.Proofs.Bytes
import Dalvik.Proofs.Text.Utf8
import Dalvik.Text.Mutf8
import Dalvik.Text.Utf16

/-!
# UTF-16 and modified UTF-8

Code points are read back from their units (`Utf16.decode_encode`). Any units can be read, and what is read has these
units again, with the replacement character for each unpaired surrogate (`Utf16.encode_decode`): so two lists of units
read alike exactly if they are the same once repaired (`Utf16.decode_eq_iff`).

In modified UTF-8 each unit is read back from its bytes, whatever follows them (`Mutf8.decodeUnits_append`), and none of
them is zero (`Mutf8.zero_notMem_encodeUnit`). So any list of units can be read (`Mutf8.decode_units`), and
a well-formed string is read back from its encoding (`Mutf8.decode_encode`).
-/

namespace Dalvik.Utf16

variable {v : Nat} {vs : List Nat} {a b : UInt16} {us ws r : List UInt16}

/-! ## Kinds of units -/

theorem isSurrogate_iff {u : Nat} : isSurrogate u = true ↔ 0xd800 ≤ u ∧ u ≤ 0xdfff := by simp [isSurrogate]

theorem isHigh_iff {u : Nat} : isHigh u = true ↔ 0xd800 ≤ u ∧ u ≤ 0xdbff := by simp [isHigh]

theorem isLow_iff {u : Nat} : isLow u = true ↔ 0xdc00 ≤ u ∧ u ≤ 0xdfff := by simp [isLow]

theorem isValidChar_unit (h : isSurrogate a.toNat = false) : a.toNat.isValidChar := by
  have bound := a.toNat_lt
  rw [← Bool.not_eq_true, isSurrogate_iff] at h
  exact Utf8.isValidChar_iff.2 (by omega)

theorem isValidChar_combine {x y : Nat} (hx : isHigh x = true) (hy : isLow y = true) : (combine x y).isValidChar := by
  rw [isHigh_iff] at hx
  rw [isLow_iff] at hy
  rw [Utf8.isValidChar_iff]
  unfold combine
  omega

/-! ## Code points as units -/

theorem encodePoint_small (h : v.isValidChar) (small : v ≤ 0xffff) : encodePoint v = [UInt16.ofNat v] := by
  rw [Utf8.isValidChar_iff] at h
  rw [encodePoint, if_neg (by omega), if_pos ⟨small, by rw [isSurrogate_iff]; omega⟩]

theorem encodePoint_large (h : v.isValidChar) (large : 0xffff < v) :
    encodePoint v = [UInt16.ofNat (0xd800 + (v - 0x10000) / 1024), UInt16.ofNat (0xdc00 + (v - 0x10000) % 1024)] := by
  rw [Utf8.isValidChar_iff] at h
  rw [encodePoint, if_pos (by omega)]

theorem encodePoint_unit (h : isSurrogate a.toNat = false) : encodePoint a.toNat = [a] := by
  have bound := a.toNat_lt
  rw [encodePoint_small (isValidChar_unit h) (by omega), UInt16.ofNat_toNat]

theorem encodePoint_combine (ha : isHigh a.toNat = true) (hb : isLow b.toNat = true) : encodePoint (combine a.toNat b.toNat) = [a, b] := by
  have valid := isValidChar_combine ha hb
  rw [isHigh_iff] at ha
  rw [isLow_iff] at hb
  have high : 0xd800 + (combine a.toNat b.toNat - 0x10000) / 1024 = a.toNat := by
    unfold combine
    omega
  have low : 0xdc00 + (combine a.toNat b.toNat - 0x10000) % 1024 = b.toNat := by
    unfold combine
    omega
  have large : 0xffff < combine a.toNat b.toNat := by
    unfold combine
    omega
  rw [encodePoint_large valid large, high, low, UInt16.ofNat_toNat, UInt16.ofNat_toNat]

/-! ## Units as code points -/

theorem decode_unit (h : isSurrogate a.toNat = false) (r : List UInt16) : decode (a :: r) = a.toNat :: decode r := by
  have plain : isHigh a.toNat = false := by
    rw [← Bool.not_eq_true, isSurrogate_iff] at h
    rw [← Bool.not_eq_true, isHigh_iff]
    omega
  cases r with
  | nil => simp [decode, h]
  | cons b r => simp [decode, h, plain]

theorem decode_pair (ha : isHigh a.toNat = true) (hb : isLow b.toNat = true) (r : List UInt16) :
    decode (a :: b :: r) = combine a.toNat b.toNat :: decode r := by
  simp [decode, ha, hb]

theorem decode_append (h : v.isValidChar) (r : List UInt16) : decode (encodePoint v ++ r) = v :: decode r := by
  have bounds := Utf8.isValidChar_iff.1 h
  by_cases small : v ≤ 0xffff
  · have back : (UInt16.ofNat v).toNat = v := UInt16.toNat_ofNat_of_lt' (by show v < 65536; omega)
    have plain : isSurrogate (UInt16.ofNat v).toNat = false := by
      rw [back, ← Bool.not_eq_true, isSurrogate_iff]
      omega
    rw [encodePoint_small h small, List.singleton_append, decode_unit plain, back]
  · have high : (UInt16.ofNat (0xd800 + (v - 0x10000) / 1024)).toNat = 0xd800 + (v - 0x10000) / 1024 :=
      UInt16.toNat_ofNat_of_lt' (by show _ < 65536; omega)
    have low : (UInt16.ofNat (0xdc00 + (v - 0x10000) % 1024)).toNat = 0xdc00 + (v - 0x10000) % 1024 :=
      UInt16.toNat_ofNat_of_lt' (by show _ < 65536; omega)
    have whole : combine (0xd800 + (v - 0x10000) / 1024) (0xdc00 + (v - 0x10000) % 1024) = v := by
      unfold combine
      omega
    rw [encodePoint_large h (by omega), List.cons_append, List.singleton_append,
      decode_pair (by rw [high, isHigh_iff]; omega) (by rw [low, isLow_iff]; omega), high, low, whole]

theorem decode_encode (h : ∀ v ∈ vs, v.isValidChar) : decode (encode vs) = vs := by
  induction vs with
  | nil => rfl
  | cons v vs ih =>
    obtain ⟨here, others⟩ := List.forall_mem_cons.1 h
    rw [encode, List.flatMap_cons, decode_append here]
    exact congrArg _ (ih others)

/-! ## Unpaired surrogates -/

/-- The units, with the replacement character for each surrogate that is not half of a pair. -/
def repaired : List UInt16 → List UInt16
  | [] => []
  | [a] => [if isSurrogate a.toNat then 0xfffd else a]
  | a :: b :: r =>
    if isHigh a.toNat && isLow b.toNat then a :: b :: repaired r
    else (if isSurrogate a.toNat then 0xfffd else a) :: repaired (b :: r)

@[simp] theorem length_repaired (us : List UInt16) : (repaired us).length = us.length := by
  fun_induction repaired us with
  | case1 => rfl
  | case2 a => rfl
  | case3 a b r _ ih => rw [List.length_cons, List.length_cons, ih, List.length_cons, List.length_cons]
  | case4 a b r _ ih => rw [List.length_cons, ih, List.length_cons, List.length_cons, List.length_cons]

theorem encodePoint_alone (a : UInt16) :
    encodePoint (if isSurrogate a.toNat then Utf8.replacement else a.toNat) = [if isSurrogate a.toNat then 0xfffd else a] := by
  cases plain : isSurrogate a.toNat with
  | true => rfl
  | false => exact encodePoint_unit plain

theorem encode_decode (us : List UInt16) : encode (decode us) = repaired us := by
  fun_induction decode us with
  | case1 => rfl
  | case2 a =>
    rw [encode, List.flatMap_singleton, repaired]
    exact encodePoint_alone a
  | case3 a b r paired ih =>
    obtain ⟨ha, hb⟩ := Bool.and_eq_true_iff.1 paired
    rw [encode, List.flatMap_cons, encodePoint_combine ha hb, repaired, if_pos paired]
    exact congrArg (a :: b :: ·) ih
  | case4 a b r alone ih =>
    rw [encode, List.flatMap_cons, encodePoint_alone a, repaired, if_neg alone]
    exact congrArg _ ih

theorem isValidChar_alone (a : UInt16) : (if isSurrogate a.toNat then Utf8.replacement else a.toNat).isValidChar := by
  cases plain : isSurrogate a.toNat with
  | true => exact Utf8.isValidChar_replacement
  | false => exact isValidChar_unit plain

theorem isValidChar_of_mem_decode (us : List UInt16) : ∀ v ∈ decode us, v.isValidChar := by
  fun_induction decode us with
  | case1 => nofun
  | case2 a => exact List.forall_mem_singleton.2 (isValidChar_alone a)
  | case3 a b r paired ih =>
    obtain ⟨ha, hb⟩ := Bool.and_eq_true_iff.1 paired
    exact List.forall_mem_cons.2 ⟨isValidChar_combine ha hb, ih⟩
  | case4 a b r alone ih => exact List.forall_mem_cons.2 ⟨isValidChar_alone a, ih⟩

theorem decode_eq_iff : decode us = decode ws ↔ repaired us = repaired ws := by
  constructor
  · intro same
    rw [← encode_decode, same, encode_decode]
  · intro same
    rw [← decode_encode (isValidChar_of_mem_decode us), encode_decode, same, ← encode_decode,
      decode_encode (isValidChar_of_mem_decode ws)]

/-! ## Strings -/

/-- The string that units are decoded to. -/
def text (us : List UInt16) : Bytes := Utf8.encode (decode us)

theorem text_eq_iff : text us = text ws ↔ repaired us = repaired ws := by
  rw [← decode_eq_iff]
  constructor
  · exact Utf8.encode_injective (isValidChar_of_mem_decode us) (isValidChar_of_mem_decode ws)
  · exact congrArg Utf8.encode

theorem ofBytes_encode (h : ∀ v ∈ vs, v.isValidChar) : ofBytes (Utf8.encode vs) = encode vs := by
  rw [ofBytes, Utf8.points_encode h]

/-- Decoding the UTF-16 units of a valid string gives the string. -/
theorem text_ofBytes {s : Bytes} (h : Utf8.isValid s = true) : text (ofBytes s) = s := by
  obtain ⟨valid, whole⟩ := Utf8.encode_points h
  rw [text, ofBytes, decode_encode valid, whole]

/-! ## Order -/

theorem order_eq_compare (us ws : List UInt16) : order us ws = compare us ws := by
  induction us generalizing ws with
  | nil => cases ws <;> rfl
  | cons a us ih =>
    cases ws with
    | nil => rfl
    | cons b ws => rw [order, ih, compare_cons_eq_ite]

end Dalvik.Utf16

namespace Dalvik.Mutf8

variable {a b c : UInt8} {rest : Bytes}

/-! ## One unit -/

theorem map_decodeUnits {u : UInt16} (i : Nat) (s : Bytes) :
    (do return u :: (← decodeUnits i s) : Except Stop (List UInt16)) = (decodeUnits i s).map (u :: ·) := by
  cases decodeUnits i s <;> rfl

theorem tailBits_of_tail (i : Nat) (h : b.toNat / 64 = 2) : tailBits i (some b) = .ok (b.toNat % 64) := by
  rw [tailBits, if_pos h]

theorem decodeUnits_one (i : Nat) (low : a.toNat ≠ 0) (high : a.toNat < 0x80) :
    decodeUnits i (a :: rest) = (decodeUnits (i + 1) rest).map (UInt16.ofNat a.toNat :: ·) := by
  rw [← map_decodeUnits, decodeUnits.eq_def]
  dsimp only
  rw [if_neg low, if_pos high]

theorem decodeUnits_two (i : Nat) (ha : a.toNat / 32 = 6) (hb : b.toNat / 64 = 2) :
    decodeUnits i (a :: b :: rest) =
      (decodeUnits (i + 2) rest).map (UInt16.ofNat (a.toNat % 32 * 64 + b.toNat % 64) :: ·) := by
  rw [← map_decodeUnits, decodeUnits.eq_def]
  dsimp only
  rw [if_neg (by omega), if_neg (by omega), if_pos ha, tailBits_of_tail _ hb]
  rfl

theorem decodeUnits_three (i : Nat) (ha : a.toNat / 16 = 14) (hb : b.toNat / 64 = 2) (hc : c.toNat / 64 = 2) :
    decodeUnits i (a :: b :: c :: rest) =
      (decodeUnits (i + 3) rest).map (UInt16.ofNat (a.toNat % 16 * 4096 + b.toNat % 64 * 64 + c.toNat % 64) :: ·) := by
  rw [← map_decodeUnits, decodeUnits.eq_def]
  dsimp only
  rw [if_neg (by omega), if_neg (by omega), if_neg (by omega), if_pos ha, tailBits_of_tail _ hb, tailBits_of_tail _ hc]
  rfl

/-- `decodeUnits` reads a unit from its bytes, whatever follows them. -/
theorem decodeUnits_append (i : Nat) (u : UInt16) (rest : Bytes) :
    decodeUnits i (encodeUnit u ++ rest) = (decodeUnits (i + (encodeUnit u).length) rest).map (u :: ·) := by
  have bound := u.toNat_lt
  have tail : ∀ k, (UInt8.ofNat (0x80 + k % 64)).toNat = 0x80 + k % 64 := fun k => Utf8.toNat_ofNat (by omega)
  unfold encodeUnit
  dsimp only
  split
  · next one =>
    have lead : (UInt8.ofNat u.toNat).toNat = u.toNat := Utf8.toNat_ofNat (by omega)
    rw [List.singleton_append, decodeUnits_one i (by omega) (by omega), lead, UInt16.ofNat_toNat]
    rfl
  split
  · next two =>
    have lead : (UInt8.ofNat (0xc0 + u.toNat / 64)).toNat = 0xc0 + u.toNat / 64 := Utf8.toNat_ofNat (by omega)
    have value : (0xc0 + u.toNat / 64) % 32 * 64 + (0x80 + u.toNat % 64) % 64 = u.toNat := by omega
    rw [List.cons_append, List.singleton_append, decodeUnits_two i (by omega) (by rw [tail]; omega), lead, tail, value, UInt16.ofNat_toNat]
    rfl
  · next three =>
    have lead : (UInt8.ofNat (0xe0 + u.toNat / 4096)).toNat = 0xe0 + u.toNat / 4096 := Utf8.toNat_ofNat (by omega)
    have value : (0xe0 + u.toNat / 4096) % 16 * 4096 + (0x80 + u.toNat / 64 % 64) % 64 * 64 + (0x80 + u.toNat % 64) % 64 =
        u.toNat := by omega
    rw [List.cons_append, List.cons_append, List.singleton_append,
      decodeUnits_three i (by omega) (by rw [tail]; omega) (by rw [tail]; omega), lead, tail, tail, value, UInt16.ofNat_toNat]
    rfl

theorem zero_notMem_encodeUnit (u : UInt16) : 0 ∉ encodeUnit u := by
  have bound := u.toNat_lt
  have nonzero : ∀ n, 0 < n → n < 256 → (0 : UInt8) ≠ UInt8.ofNat n := by
    intro n pos small e
    have back := congrArg UInt8.toNat e
    rw [Utf8.toNat_ofNat small] at back
    exact absurd back (Nat.ne_of_lt pos)
  unfold encodeUnit
  dsimp only
  split
  · next one => simpa using nonzero u.toNat (by omega) (by omega)
  split
  · next two =>
    simp only [List.mem_cons, List.not_mem_nil, or_false, not_or]
    exact ⟨nonzero _ (by omega) (by omega), nonzero _ (by omega) (by omega)⟩
  · next three =>
    simp only [List.mem_cons, List.not_mem_nil, or_false, not_or]
    exact ⟨nonzero _ (by omega) (by omega), nonzero _ (by omega) (by omega), nonzero _ (by omega) (by omega)⟩

/-! ## Strings -/

theorem zero_notMem_units (us : List UInt16) : 0 ∉ us.flatMap encodeUnit := by
  intro h
  obtain ⟨u, -, hu⟩ := List.mem_flatMap.1 h
  exact zero_notMem_encodeUnit u hu

theorem decodeUnits_units (i : Nat) (us : List UInt16) : decodeUnits i (us.flatMap encodeUnit) = .ok us := by
  induction us generalizing i with
  | nil => rfl
  | cons u us ih => rw [List.flatMap_cons, decodeUnits_append, ih, Except.map]

/-- `decode` of the bytes of any units gives the text of the units. -/
theorem decode_units (us : List UInt16) : decode (us.flatMap encodeUnit) = .ok (Utf16.text us) := by
  rw [decode, decodeUnits_units]
  rfl

/-- `decode` of the encoding of a valid string gives the string. -/
theorem decode_encode {v : Bytes} (valid : Utf8.isValid v = true) : decode (encode v) = .ok v := by
  rw [encode, decode_units, Utf16.text_ofBytes valid]

/-- The text of units has as many units as they are. -/
theorem unitCount_units (us : List UInt16) : unitCount (Utf16.text us) = us.length := by
  rw [unitCount, Utf16.text, Utf16.ofBytes_encode (Utf16.isValidChar_of_mem_decode us), Utf16.encode_decode, Utf16.length_repaired]

end Dalvik.Mutf8
