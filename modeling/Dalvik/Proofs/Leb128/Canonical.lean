import Dalvik.Proofs.Leb128
import Mathlib.Data.Nat.Digits.Lemmas

/-!
# What a LEB128 number spells

`value b` is the number that the low seven bits of the bytes spell, and `Closes b i` says that the
byte at `i` is the first one with a clear top bit. Readers and writers are characterised by these
two.

* `decodeU_of_closes`, `decodeS_of_closes`: what is read where a number closes within five bytes;
* `decodeS_eq_none`: `decodeS` fails where none does;
* `length_encodeU_le`, `length_encodeS_le`: an encoding is no longer than any bytes that are read as
  its value;
* `coding_exact`: readers, writers and sizes together.
-/

namespace Dalvik.Leb128

variable {limit i k n v : Nat} {x last : UInt8} {b : Bytes}

/-- The number that groups of seven bits spell, the least significant first. -/
def value (b : Bytes) : Nat := Nat.ofDigits 128 (b.map fun x => x.toNat % 128)

/-- The byte at `i` is the first one with a clear top bit. -/
structure Closes (b : Bytes) (i : Nat) : Prop where
  before : ∀ x ∈ b.take i, 0x80 ≤ x
  here : ∃ x, b[i]? = some x ∧ x < 0x80

/-- The integer whose two's complement in `bits` bits is `v`. -/
def signExtended (bits v : Nat) : Int := Int.bmod v (2 ^ bits)

/-! ## Values -/

@[simp] theorem value_nil : value [] = 0 := rfl

@[simp] theorem value_cons (x : UInt8) (b : Bytes) : value (x :: b) = x.toNat % 128 + 128 * value b := by
  simp [value, Nat.ofDigits_cons]

theorem value_append (a b : Bytes) : value (a ++ b) = value a + 128 ^ a.length * value b := by
  simp [value, Nat.ofDigits_append]

theorem value_lt (b : Bytes) : value b < 128 ^ b.length := by
  have digits : ∀ d ∈ b.map fun x => x.toNat % 128, d < 128 := by
    intro d hd
    obtain ⟨x, -, rfl⟩ := List.mem_map.1 hd
    exact Nat.mod_lt _ (by decide)
  simpa [value] using Nat.ofDigits_lt_base_pow_length (by decide) digits

/-! ## Where a number closes -/

theorem not_closes_nil : ¬ Closes [] i := by
  rintro ⟨-, x, h, -⟩
  simp at h

@[simp] theorem closes_zero : Closes (x :: b) 0 ↔ x < 0x80 := by
  constructor
  · rintro ⟨-, y, h, small⟩
    obtain rfl : x = y := by simpa using h
    exact small
  · intro small
    exact ⟨by simp, x, by simp, small⟩

@[simp] theorem closes_succ : Closes (x :: b) (i + 1) ↔ 0x80 ≤ x ∧ Closes b i := by
  constructor
  · rintro ⟨before, y, h, small⟩
    have all : 0x80 ≤ x ∧ ∀ y ∈ b.take i, 0x80 ≤ y := by simpa using before
    exact ⟨all.1, all.2, y, by simpa using h, small⟩
  · rintro ⟨large, before, y, h, small⟩
    exact ⟨by simpa using ⟨large, before⟩, y, by simpa using h, small⟩

theorem Closes.unique {j : Nat} (hi : Closes b i) (hj : Closes b j) : i = j := by
  induction b generalizing i j with
  | nil => exact absurd hi not_closes_nil
  | cons x b ih =>
    cases i with
    | zero =>
      cases j with
      | zero => rfl
      | succ j => exact absurd (closes_zero.1 hi) (UInt8.not_lt.2 (closes_succ.1 hj).1)
    | succ i =>
      cases j with
      | zero => exact absurd (closes_zero.1 hj) (UInt8.not_lt.2 (closes_succ.1 hi).1)
      | succ j => exact congrArg (· + 1) (ih (closes_succ.1 hi).2 (closes_succ.1 hj).2)

/-- A number closes within `limit` bytes exactly if one of them has a clear top bit. -/
theorem exists_closes : (∃ i < limit, Closes b i) ↔ ∃ x ∈ b.take limit, x < 0x80 := by
  induction b generalizing limit with
  | nil => simp [not_closes_nil]
  | cons x b ih =>
    cases limit with
    | zero => simp
    | succ limit =>
      by_cases small : x < 0x80
      · constructor
        · intro _
          exact ⟨x, by simp, small⟩
        · intro _
          exact ⟨0, Nat.succ_pos limit, closes_zero.2 small⟩
      · have large : 0x80 ≤ x := UInt8.not_lt.1 small
        have later : (∃ i < limit + 1, Closes (x :: b) i) ↔ ∃ i < limit, Closes b i := by
          constructor
          · rintro ⟨i, lt, h⟩
            cases i with
            | zero => exact absurd (closes_zero.1 h) small
            | succ i => exact ⟨i, Nat.lt_of_succ_lt_succ lt, (closes_succ.1 h).2⟩
          · rintro ⟨i, lt, h⟩
            exact ⟨i + 1, Nat.succ_lt_succ lt, closes_succ.2 ⟨large, h⟩⟩
        rw [later, ih]
        simp [small]

theorem groups_of_closes (h : Closes b i) (lt : i < limit) :
    ∃ last, b[i]? = some last ∧ groups limit b = some (value (b.take (i + 1)), i + 1, last) := by
  induction i generalizing b limit with
  | zero =>
    obtain ⟨limit, rfl⟩ := Nat.exists_eq_succ_of_ne_zero (Nat.ne_of_gt lt)
    cases b with
    | nil => exact absurd h not_closes_nil
    | cons x b =>
      have small : x < 0x80 := closes_zero.1 h
      have low : x.toNat % 128 = x.toNat := Nat.mod_eq_of_lt (UInt8.lt_iff_toNat_lt.1 small)
      exact ⟨x, by simp, by simp [groups, small, low]⟩
  | succ i ih =>
    obtain ⟨limit, rfl⟩ := Nat.exists_eq_succ_of_ne_zero (Nat.ne_of_gt (Nat.zero_lt_of_lt lt))
    cases b with
    | nil => exact absurd h not_closes_nil
    | cons x b =>
      obtain ⟨large, rest⟩ := closes_succ.1 h
      obtain ⟨last, hl, hg⟩ := ih rest (Nat.lt_of_succ_lt_succ lt)
      refine ⟨last, by simpa using hl, ?_⟩
      rw [groups, if_neg (UInt8.not_lt.2 large), hg]
      simp

theorem groups_eq_none (h : ¬ ∃ x ∈ b.take limit, x < 0x80) : groups limit b = none := by
  induction limit generalizing b with
  | zero => rfl
  | succ limit ih =>
    cases b with
    | nil => rfl
    | cons x b =>
      have both : ¬ x < 0x80 ∧ ¬ ∃ y ∈ b.take limit, y < 0x80 := by simpa using h
      rw [groups, if_neg both.1, ih both.2, Option.map_none]

theorem closes_of_groups (h : groups limit b = some (v, n, last)) :
    ∃ i < limit, Closes b i ∧ n = i + 1 ∧ v = value (b.take (i + 1)) := by
  by_cases present : ∃ i < limit, Closes b i
  · obtain ⟨i, lt, closes⟩ := present
    obtain ⟨_, -, hg⟩ := groups_of_closes closes lt
    rw [hg] at h
    cases h
    exact ⟨i, lt, closes, rfl, rfl⟩
  · rw [exists_closes] at present
    rw [groups_eq_none present] at h
    cases h

theorem length_take_of_closes (h : Closes b i) : (b.take (i + 1)).length = i + 1 := by
  obtain ⟨-, x, hx, -⟩ := h
  obtain ⟨lt, -⟩ := List.getElem?_eq_some_iff.1 hx
  simp
  omega

/-! ## What is read -/

theorem decodeU_of_closes (h : Closes b i) (lt : i < maxBytes) :
    decodeU b = if value (b.take (i + 1)) < 2 ^ 32 then some (UInt32.ofNat (value (b.take (i + 1))), i + 1) else none := by
  obtain ⟨last, -, hg⟩ := groups_of_closes h lt
  rw [decodeU, hg]
  rfl

/-- Bit 6 of the last byte is the top bit of the whole number. -/
theorem signExtended_eq (hl : b[i]? = some last) :
    (if last.toNat / 64 % 2 = 1 then (value (b.take (i + 1)) : Int) - twoPow (7 * (i + 1)) else value (b.take (i + 1))) =
      signExtended (7 * (i + 1)) (value (b.take (i + 1))) := by
  have parted : value (b.take (i + 1)) = value (b.take i) + 128 ^ i * (last.toNat % 128) := by
    have taken : (b.take i).length = i := by
      obtain ⟨lt, -⟩ := List.getElem?_eq_some_iff.1 hl
      simp
      omega
    rw [List.take_add_one, hl, value_append, taken]
    simp
  have low : value (b.take i) < 128 ^ i := by
    refine Nat.lt_of_lt_of_le (value_lt _) (Nat.pow_le_pow_right (by decide) ?_)
    simp
  have power : twoPow (7 * (i + 1)) = 128 * 128 ^ i := by
    simp only [twoPow, Nat.pow_eq, pow_mul]
    rw [pow_succ, Nat.mul_comm]
    norm_num
  rw [signExtended, show (2 : Nat) ^ (7 * (i + 1)) = 128 * 128 ^ i from power, power, parted]
  generalize (128 : Nat) ^ i = p at low ⊢
  generalize value (b.take i) = w at low ⊢
  have bits := last.toNat_lt
  -- whether the last group is below 64 decides on which half of the range the number lies
  by_cases negative : last.toNat / 64 % 2 = 1
  · have high : p * 64 ≤ p * (last.toNat % 128) := Nat.mul_le_mul_left p (by omega)
    have most : p * (last.toNat % 128) ≤ p * 127 := Nat.mul_le_mul_left p (by omega)
    rw [if_pos negative, Int.bmod_def, Int.emod_eq_of_lt (by omega) (by omega), if_neg (by omega)]
  · have most : p * (last.toNat % 128) ≤ p * 63 := Nat.mul_le_mul_left p (by omega)
    rw [if_neg negative, Int.bmod_def, Int.emod_eq_of_lt (by omega) (by omega), if_pos (by omega)]

theorem decodeS_of_closes (h : Closes b i) (lt : i < maxBytes) :
    decodeS b = some (Int32.ofInt (signExtended (7 * (i + 1)) (value (b.take (i + 1)))), i + 1) := by
  obtain ⟨last, hl, hg⟩ := groups_of_closes h lt
  rw [decodeS, hg, ← signExtended_eq hl]

theorem decodeS_eq_none (h : ¬ ∃ x ∈ b.take maxBytes, x < 0x80) : decodeS b = none := by
  rw [decodeS, groups_eq_none h]

/-! ## No encoding is shorter -/

theorem length_natGroups_le (h : v < 128 ^ (k + 1)) : (natGroups limit v).length ≤ k + 1 := by
  induction k generalizing v limit with
  | zero =>
    cases limit with
    | zero => simp [natGroups]
    | succ limit =>
      have small : v < 128 := by simpa using h
      simp [natGroups, small]
  | succ k ih =>
    cases limit with
    | zero => simp [natGroups]
    | succ limit =>
      rw [natGroups]
      split
      · simp
      · have rest : v / 128 < 128 ^ (k + 1) := by
          rw [pow_succ] at h
          omega
        simpa using ih rest

theorem length_encodeU_le {u : UInt32} (h : decodeU b = some (u, n)) : (encodeU u).length ≤ n := by
  obtain ⟨last, hg⟩ := decodeU_eq_some.1 h
  obtain ⟨i, -, closes, rfl, hv⟩ := closes_of_groups hg
  have bound := value_lt (b.take (i + 1))
  rw [length_take_of_closes closes, ← hv] at bound
  exact length_natGroups_le bound

theorem length_intGroups_le {z : Int} (low : -64 * 128 ^ k ≤ z) (high : z < 64 * 128 ^ k) : (intGroups limit z).length ≤ k + 1 := by
  induction k generalizing z limit with
  | zero =>
    cases limit with
    | zero => simp [intGroups]
    | succ limit =>
      have fits : (z / 128 = 0 ∧ (z % 128).toNat < 64) ∨ (z / 128 = -1 ∧ 64 ≤ (z % 128).toNat) := by omega
      simp only [intGroups, fits, if_true, List.length_singleton]
      exact Nat.le_refl _
  | succ k ih =>
    cases limit with
    | zero => simp [intGroups]
    | succ limit =>
      rw [intGroups]
      split
      · simp
      · have bounds : -64 * 128 ^ k ≤ z / 128 ∧ z / 128 < 64 * 128 ^ k := by
          rw [pow_succ] at low high
          generalize (128 : Int) ^ k = p at low high ⊢
          omega
        simpa using ih bounds.1 bounds.2

theorem signExtended_bounds (k v : Nat) :
    -64 * 128 ^ k ≤ signExtended (7 * (k + 1)) v ∧ signExtended (7 * (k + 1)) v < 64 * 128 ^ k := by
  have power : (2 : Nat) ^ (7 * (k + 1)) = 128 * 128 ^ k := by
    rw [pow_mul, pow_succ, Nat.mul_comm]
    norm_num
  have positive : 0 < 128 * 128 ^ k := by positivity
  have low := Int.le_bmod (x := v) positive
  have high := Int.bmod_lt (x := v) positive
  rw [signExtended, power]
  push_cast at low high ⊢
  generalize (128 : Int) ^ k = p at low high ⊢
  omega

theorem length_encodeS_le {s : Int32} (h : decodeS b = some (s, n)) : (encodeS s).length ≤ n := by
  by_cases present : ∃ i < maxBytes, Closes b i
  · obtain ⟨i, lt, closes⟩ := present
    rw [decodeS_of_closes closes lt] at h
    cases h
    obtain ⟨low, high⟩ := signExtended_bounds i (value (b.take (i + 1)))
    generalize signExtended (7 * (i + 1)) (value (b.take (i + 1))) = z at low high ⊢
    by_cases five : i = 4
    · subst five
      have least := (Int32.ofInt z).le_toInt
      have most := (Int32.ofInt z).toInt_lt
      exact length_intGroups_le (by norm_num at least ⊢; omega) (by norm_num at most ⊢; omega)
    · -- below five bytes the number has at most 28 bits, so nothing of it is cut off
      have few : i ≤ 3 := by
        have : maxBytes = 5 := rfl
        omega
      have scale : (128 : Int) ^ i ≤ 128 ^ 3 := pow_le_pow_right₀ (by norm_num) few
      have same : (Int32.ofInt z).toInt = z := by
        rw [Int32.toInt_ofInt]
        exact Int.bmod_eq_of_le (by norm_num at scale ⊢; omega) (by norm_num at scale ⊢; omega)
      rw [encodeS, same]
      exact length_intGroups_le low high
  · rw [exists_closes] at present
    rw [decodeS_eq_none present] at h
    cases h

/-! ## Readers and writers together -/

/-- For all 32-bit numbers, `decodeU (encodeU u ++ rest)` gives `u` and the length of its encoding, no bytes that are
read as `u` are fewer, and `sizeU u` is that length; likewise for signed numbers. For all bytes, `decodeU` succeeds
exactly if one of the first five has a clear top bit and the groups up to it spell less than `2 ^ 32`, and gives what
they spell; `decodeS` succeeds exactly if one of the first five has a clear top bit, and gives what the groups spell,
extended from the top bit of the last group and reduced to 32 bits. -/
theorem coding_exact :
    (∀ (u : UInt32) (rest : Bytes),
      decodeU (encodeU u ++ rest) = some (u, (encodeU u).length) ∧
      (∀ b n, decodeU b = some (u, n) → (encodeU u).length ≤ n) ∧
      sizeU u = (encodeU u).length) ∧
    (∀ (s : Int32) (rest : Bytes),
      decodeS (encodeS s ++ rest) = some (s, (encodeS s).length) ∧
      (∀ b n, decodeS b = some (s, n) → (encodeS s).length ≤ n) ∧
      sizeS s = (encodeS s).length) ∧
    ∀ b : Bytes,
      ((decodeU b).isSome ↔ ∃ i < 5, Closes b i ∧ value (b.take (i + 1)) < 2 ^ 32) ∧
      ((decodeS b).isSome ↔ ∃ x ∈ b.take 5, x < 0x80) ∧
      ∀ i < 5, Closes b i →
        (value (b.take (i + 1)) < 2 ^ 32 → decodeU b = some (UInt32.ofNat (value (b.take (i + 1))), i + 1)) ∧
        decodeS b = some (Int32.ofInt (signExtended (7 * (i + 1)) (value (b.take (i + 1)))), i + 1) := by
  refine ⟨fun u rest => ?_, fun s rest => ?_, fun b => ⟨?_, ?_, ?_⟩⟩
  · exact ⟨decodeU_append rest (decodeU_encodeU u), fun b n => length_encodeU_le, sizeU_eq_length u⟩
  · exact ⟨decodeS_append rest (decodeS_encodeS s), fun b n => length_encodeS_le, rfl⟩
  · constructor
    · intro read
      obtain ⟨⟨u, n⟩, hu⟩ := Option.isSome_iff_exists.1 read
      obtain ⟨last, hg⟩ := decodeU_eq_some.1 hu
      obtain ⟨i, lt, closes, -, hv⟩ := closes_of_groups hg
      exact ⟨i, lt, closes, hv ▸ u.toNat_lt⟩
    · rintro ⟨i, lt, closes, small⟩
      rw [decodeU_of_closes closes lt, if_pos small]
      rfl
  · constructor
    · intro read
      by_contra absent
      rw [decodeS_eq_none absent] at read
      cases read
    · intro clear
      obtain ⟨i, lt, closes⟩ := exists_closes.2 clear
      rw [decodeS_of_closes closes lt]
      rfl
  · intro i lt closes
    exact ⟨fun small => by rw [decodeU_of_closes closes lt, if_pos small], decodeS_of_closes closes lt⟩

/-- Five bytes of which the last has bits above the thirty-second: `decodeU` refuses them, and `decodeS` gives -1,
whose encoding is a single byte. -/
theorem coding_exact_cut :
    Closes [0xff, 0xff, 0xff, 0xff, 0x1f, 0x80] 4 ∧
    decodeU [0xff, 0xff, 0xff, 0xff, 0x1f, 0x80] = none ∧
    decodeS [0xff, 0xff, 0xff, 0xff, 0x1f, 0x80] = some (-1, 5) ∧
    (encodeS (-1)).length ≤ 5 := by
  obtain ⟨-, signed, read⟩ := coding_exact
  obtain ⟨unsigned, -, spelled⟩ := read [0xff, 0xff, 0xff, 0xff, 0x1f, 0x80]
  have closes : Closes [0xff, 0xff, 0xff, 0xff, 0x1f, 0x80] 4 := by simp
  have minus : decodeS [0xff, 0xff, 0xff, 0xff, 0x1f, 0x80] = some (-1, 5) := by
    rw [(spelled 4 (by decide) closes).2]
    decide +kernel
  refine ⟨closes, ?_, minus, (signed (-1) []).2.1 _ 5 minus⟩
  rw [← Option.not_isSome_iff_eq_none, unsigned]
  rintro ⟨i, -, h, small⟩
  obtain rfl := h.unique closes
  exact absurd small (by decide +kernel)

end Dalvik.Leb128
