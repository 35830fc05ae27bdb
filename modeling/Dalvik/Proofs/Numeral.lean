import Dalvik.Constant.Literal
import Dalvik.Proofs.Operand

/-!
# Numbers as text

`digits base n` are the digits of a number, the most significant first, and `digitsValue` reads them
back (`digitsValue_digits`). `parseNumber_numeral` gives the result of `parseNumber` on a sign,
digits and a suffix: the number, if it fits into the kind that the suffix names. The text of a
whole-number literal has that form and is read back as the literal (`parse_text`).
-/

namespace Dalvik

/-! ## Digits -/

/-- The character of a digit below 16. -/
def digitByte (d : Nat) : UInt8 := UInt8.ofNat d.digitChar.toNat

section Digits

variable {base n : Nat}

theorem digits_of_lt (h : n < base) : digits base n = [digitByte n] := by
  rw [digits, Nat.toDigits_of_lt_base h]
  rfl

theorem digits_of_le (two : 1 < base) (h : base ≤ n) : digits base n = digits base (n / base) ++ [digitByte (n % base)] := by
  rw [digits, Nat.toDigits_of_base_le two h, List.map_append]
  rfl

theorem digits_ne_nil (base n : Nat) : digits base n ≠ [] := by
  rw [digits, Ne, List.map_eq_nil_iff]
  exact Nat.toDigits_ne_nil

theorem mem_digits {b : UInt8} (two : 1 < base) (h : b ∈ digits base n) : ∃ d < base, b = digitByte d := by
  induction n using Nat.strongRecOn with
  | ind n ih =>
    by_cases small : n < base
    · rw [digits_of_lt small] at h
      exact ⟨n, small, List.mem_singleton.1 h⟩
    · rw [digits_of_le two (by omega), List.mem_append] at h
      rcases h with h | h
      · exact ih (n / base) (Nat.div_lt_self (by omega) two) h
      · exact ⟨n % base, Nat.mod_lt n (by omega), List.mem_singleton.1 h⟩

end Digits

namespace Literal

variable {base : Nat}

theorem hexDigit?_digitByte {d : Nat} (h : d < 16) : Escaped.hexDigit? (digitByte d) = some d := by
  have all : ∀ d < 16, Escaped.hexDigit? (digitByte d) = some d := by decide
  exact all d h

theorem digitsValue_append (acc : Nat) (s t : Bytes) :
    digitsValue base acc (s ++ t) = (digitsValue base acc s).bind fun n => digitsValue base n t := by
  induction s generalizing acc with
  | nil => rfl
  | cons b s ih =>
    rw [List.cons_append, digitsValue, digitsValue]
    split
    · split
      · exact ih _
      · rfl
    · rfl

theorem digitsValue_digits (two : 1 < base) (sixteen : base ≤ 16) (n : Nat) : digitsValue base 0 (digits base n) = some n := by
  induction n using Nat.strongRecOn with
  | ind n ih =>
    by_cases small : n < base
    · rw [digits_of_lt small, digitsValue, hexDigit?_digitByte (by omega)]
      simp [small, digitsValue]
    · have last : n % base < base := Nat.mod_lt n (by omega)
      have higher := ih (n / base) (Nat.div_lt_self (by omega) two)
      have whole : n / base * base + n % base = n := Nat.div_add_mod' n base
      rw [digits_of_le two (by omega), digitsValue_append, higher, Option.bind_some, digitsValue,
        hexDigit?_digitByte (by omega)]
      simp [last, digitsValue, whole]

theorem unsigned?_digits {width n : Nat} (two : 1 < base) (sixteen : base ≤ 16) (h : n < twoPow width) :
    unsigned? base width (digits base n) = some n := by
  have present : (digits base n).isEmpty = false := by simpa using digits_ne_nil base n
  rw [unsigned?, present, digitsValue_digits two sixteen]
  simp [h]

end Literal

theorem digits_inj {n m : Nat} (h : digits 16 n = digits 16 m) : n = m := by
  have left := Literal.digitsValue_digits (by decide : 1 < 16) le_rfl n
  have right := Literal.digitsValue_digits (by decide : 1 < 16) le_rfl m
  rw [h, right] at left
  exact (Option.some.inj left).symm

theorem mem_hex {n : Int} {b : UInt8} (h : b ∈ hex n) : b = byte '-' ∨ ∃ d < 16, b = digitByte d := by
  unfold hex signed at h
  split at h
  · rcases List.mem_cons.1 h with rfl | h
    · exact .inl rfl
    · exact .inr (mem_digits (by decide) h)
  · exact .inr (mem_digits (by decide) h)

theorem hex_inj {a b : Int} (h : hex a = hex b) : a = b := by
  -- The sign is no digit.
  have sign : ∀ {n m : Nat}, byte '-' :: digits 16 n ≠ digits 16 m := by
    intro n m e
    obtain ⟨d, hd, minus⟩ := mem_digits (by decide) (e ▸ List.mem_cons_self : byte '-' ∈ digits 16 m)
    have absent : ∀ d < 16, byte '-' ≠ digitByte d := by decide
    exact absent d hd minus
  unfold hex signed at h
  split at h <;> split at h
  · have := digits_inj (List.tail_eq_of_cons_eq h)
    omega
  · exact absurd h sign
  · exact absurd h.symm sign
  · have := digits_inj h
    omega

/-! ## Signs and suffixes -/

namespace Literal

/-- The text of an optional sign, where `some true` is a minus. -/
def signText : Option Bool → Bytes
  | none => []
  | some negative => [Dalvik.byte (if negative then '-' else '+')]

/-- `0x` for a hexadecimal number, and nothing for a decimal one. -/
def markText (isHex : Bool) : Bytes := if isHex then ascii "0x" else []

/-- The kind that a suffix names; without a suffix it is `int`. -/
def suffixKind (suffix : Option UInt8) : LiteralKind :=
  match suffix.map Floating.Read.lower with
  | none => .int
  | some c => if c = Dalvik.byte 't' then .byte else if c = Dalvik.byte 's' then .short else .long

/-- `ds` is a non-empty string of digits of the base. -/
def Digits (isHex : Bool) (ds : Bytes) : Prop :=
  ds ≠ [] ∧ ∀ b ∈ ds, ∃ d < (if isHex then 16 else 10), Escaped.hexDigit? b = some d

/-- The suffix is one of the letters that name a kind of whole numbers, or missing. -/
def Suffix (suffix : Option UInt8) : Prop := ∀ c ∈ suffix, (ascii "tsl").contains (Floating.Read.lower c) = true

instance (suffix : Option UInt8) : Decidable (Suffix suffix) := Option.decidableForallMem suffix

section

open Floating.Read (lower takeSign hasHexMark)

variable {isHex : Bool} {ds rest : Bytes} {suffix : Option UInt8} {b : UInt8} {d : Nat}

/-- A property that holds of all values below 256 holds of all bytes. -/
theorem forall_byte {P : UInt8 → Prop} (h : ∀ n < 256, P (UInt8.ofNat n)) (b : UInt8) : P b := by
  have := h b.toNat b.toNat_lt
  rwa [UInt8.ofNat_toNat] at this

/-- A hexadecimal digit is neither a sign nor one of the suffixes `t`, `s` and `l`. -/
theorem hexDigit_letters (h : Escaped.hexDigit? b = some d) :
    b ≠ Dalvik.byte '-' ∧ b ≠ Dalvik.byte '+' ∧ (ascii "tsl").contains (lower b) = false := by
  have all : ∀ b : UInt8, (Escaped.hexDigit? b).isSome →
      b ≠ Dalvik.byte '-' ∧ b ≠ Dalvik.byte '+' ∧ (ascii "tsl").contains (lower b) = false :=
    forall_byte (by decide +kernel)
  exact all b (by simp [h])

/-- A decimal digit is no letter that can stand in a number. -/
theorem decimalDigit_letters (h : Escaped.hexDigit? b = some d) (ten : d < 10) :
    (ascii "fd").contains (lower b) = false ∧ (ascii ".eE").contains b = false ∧ lower b ≠ Dalvik.byte 'x' ∧
      b ≠ Dalvik.byte 'I' ∧ b ≠ Dalvik.byte 'N' := by
  have all : ∀ b : UInt8, (Escaped.hexDigit? b).any (· < 10) →
      (ascii "fd").contains (lower b) = false ∧ (ascii ".eE").contains b = false ∧ lower b ≠ Dalvik.byte 'x' ∧
        b ≠ Dalvik.byte 'I' ∧ b ≠ Dalvik.byte 'N' :=
    forall_byte (by decide +kernel)
  exact all b (by simp [h, ten])

theorem suffix_ne_mark (h : (ascii "tsl").contains (lower b) = true) : lower b ≠ Dalvik.byte 'x' := by
  intro x
  rw [x] at h
  exact absurd h (by decide)

theorem takeSign_signText (sign : Option Bool) (h : ∀ b ∈ rest.head?, b ≠ Dalvik.byte '-' ∧ b ≠ Dalvik.byte '+') :
    takeSign (signText sign ++ rest) = (sign == some true, rest) := by
  cases sign with
  | none =>
    cases rest with
    | nil => rfl
    | cons b r =>
      obtain ⟨minus, plus⟩ := h b rfl
      show (if b = Dalvik.byte '-' then _ else if b = Dalvik.byte '+' then _ else _) = _
      rw [if_neg minus, if_neg plus]
      rfl
  | some negative => cases negative <;> rfl

theorem Digits.head (h : Digits isHex ds) : ∃ b d r, ds = b :: r ∧ Escaped.hexDigit? b = some d ∧ d < (if isHex then 16 else 10) := by
  obtain ⟨nonempty, all⟩ := h
  obtain ⟨b, r, rfl⟩ := List.exists_cons_of_ne_nil nonempty
  obtain ⟨d, small, digit⟩ := all b List.mem_cons_self
  exact ⟨b, d, r, rfl, digit, small⟩

theorem Digits.last (h : Digits isHex ds) : ∃ b d, ds.getLast? = some b ∧ Escaped.hexDigit? b = some d ∧ d < (if isHex then 16 else 10) := by
  obtain ⟨present, all⟩ := h
  obtain ⟨d, small, digit⟩ := all _ (List.getLast_mem present)
  exact ⟨_, d, List.getLast?_eq_some_getLast present, digit, small⟩

/-- `hasHexMark` finds the mark in front of the digits exactly if the number is hexadecimal. -/
theorem hasHexMark_numeral (hd : Digits isHex ds) (hs : Suffix suffix) :
    (decide (2 < (markText isHex ++ (ds ++ suffix.toList)).length) && hasHexMark (markText isHex ++ (ds ++ suffix.toList))) = isHex := by
  obtain ⟨b, d, r, rfl, digit, small⟩ := hd.head
  cases isHex with
  | true => simp [markText, ascii, hasHexMark, lower, Dalvik.byte]
  | false =>
    -- What follows the first digit is a digit, a suffix or nothing.
    have second : ∀ c ∈ (r ++ suffix.toList).head?, lower c ≠ Dalvik.byte 'x' := by
      intro c hc
      cases r with
      | nil =>
        have mem : c ∈ suffix := by simpa using hc
        exact suffix_ne_mark (hs c mem)
      | cons c' r =>
        obtain rfl : c' = c := by simpa using hc
        obtain ⟨d', small', digit'⟩ := hd.2 c' (by simp)
        exact (decimalDigit_letters digit' small').2.2.1
    show (_ && hasHexMark (b :: (r ++ suffix.toList))) = false
    cases tail : r ++ suffix.toList with
    | nil => simp [hasHexMark]
    | cons c t => simp [hasHexMark, second c (by simp [tail])]

theorem suffixOf_numeral (hd : Digits isHex ds) (hs : Suffix suffix) :
    suffixOf isHex (markText isHex ++ (ds ++ suffix.toList)) = suffix.map lower := by
  cases suffix with
  | some c =>
    have found := hs c rfl
    rw [suffixOf, Option.toList_some, ← List.append_assoc, List.getLast?_concat]
    dsimp only
    rw [found, Bool.true_or, if_pos rfl, Option.map_some]
  | none =>
    obtain ⟨b, d, last, digit, small⟩ := hd.last
    have letters := (hexDigit_letters digit).2.2
    have last' : (markText isHex ++ (ds ++ [])).getLast? = some b := by
      rw [List.append_nil, List.getLast?_append, last]
      rfl
    rw [suffixOf, Option.toList_none, last']
    dsimp only
    rw [letters, Bool.false_or]
    cases isHex with
    | true => rfl
    | false => rw [(decimalDigit_letters digit small).1]; rfl

/-- A string of decimal digits does not pass for a floating-point number. -/
theorem isFloatBody_digits (hd : Digits false ds) : isFloatBody ds = false := by
  obtain ⟨b, d, r, rfl, digit, small⟩ := hd.head
  obtain ⟨-, -, -, capitalI, capitalN⟩ := decimalDigit_letters digit small
  have marks : Bytes.containsAny (ascii ".eE") (b :: r) = false := by
    rw [Bytes.containsAny, List.any_eq_false]
    intro c hc
    obtain ⟨d', small', digit'⟩ := hd.2 c hc
    rw [(decimalDigit_letters digit' small').2.1]
    exact Bool.false_ne_true
  have infinity : (b :: r == ascii "Infinity") = false := by
    refine beq_false_of_ne fun e => capitalI ?_
    exact (List.cons.inj e).1
  have nan : (b :: r == ascii "NaN") = false := by
    refine beq_false_of_ne fun e => capitalN ?_
    exact (List.cons.inj e).1
  rw [isFloatBody, marks, infinity, nan]
  rfl

theorem takeSign_numeral (sign : Option Bool) (hd : Digits isHex ds) :
    takeSign (signText sign ++ (markText isHex ++ (ds ++ rest))) = (sign == some true, markText isHex ++ (ds ++ rest)) := by
  refine takeSign_signText sign fun b hb => ?_
  cases isHex with
  | true =>
    obtain rfl := Option.some.inj (show some (Dalvik.byte '0') = some b from hb)
    decide
  | false =>
    obtain ⟨b', d, r, rfl, digit, -⟩ := hd.head
    obtain rfl := Option.some.inj (show some b' = some b from hb)
    exact ⟨(hexDigit_letters digit).1, (hexDigit_letters digit).2.1⟩

theorem suffix_ne_float (hs : Suffix suffix) :
    suffix.map lower ≠ some (Dalvik.byte 'f') ∧ suffix.map lower ≠ some (Dalvik.byte 'd') := by
  constructor <;>
  · intro e
    obtain ⟨c, mem, letter⟩ := Option.map_eq_some_iff.1 e
    have found := hs c mem
    rw [letter] at found
    exact absurd found (by decide)

/-- `dropLast` takes the suffix away, if there is one. -/
theorem dropLast_numeral (suffix : Option UInt8) (body : Bytes) :
    (if (suffix.map lower).isSome then (body ++ suffix.toList).dropLast else body ++ suffix.toList) = body := by
  cases suffix with
  | none => simp
  | some c => simp

theorem suffixKind_eq (hs : Suffix suffix) :
    (if suffix.map lower = some (Dalvik.byte 't') then LiteralKind.byte
      else if suffix.map lower = some (Dalvik.byte 's') then .short
      else if suffix.map lower = some (Dalvik.byte 'l') then .long
      else .int) = suffixKind suffix := by
  cases suffix with
  | none => rfl
  | some c =>
    have letters : ∀ b : UInt8, (ascii "tsl").contains b = true →
        (if some b = some (Dalvik.byte 't') then LiteralKind.byte
          else if some b = some (Dalvik.byte 's') then .short
          else if some b = some (Dalvik.byte 'l') then .long
          else .int) =
        if b = Dalvik.byte 't' then .byte else if b = Dalvik.byte 's' then .short else .long :=
      forall_byte (by decide +kernel)
    exact letters _ (hs c rfl)

/-- `parseNumber` of a sign, digits and a suffix is the literal if the number fits into its kind, and fails otherwise.
-/
theorem parseNumber_numeral (sign : Option Bool) (hd : Digits isHex ds) (hs : Suffix suffix) {text : Bytes}
    (htext : text = signText sign ++ (markText isHex ++ (ds ++ suffix.toList))) :
    parseNumber text =
      match (unsigned? (if isHex then 16 else 10) 64 ds).bind
        (fit? (suffixKind suffix).width isHex (sign == some true)) with
      | some n => .ok (ofSigned (suffixKind suffix) n)
      | none => badNumber text := by
  have signed : takeSign text = (sign == some true, markText isHex ++ (ds ++ suffix.toList)) := by
    rw [htext, takeSign_numeral sign hd]
  have body := dropLast_numeral suffix (markText isHex ++ ds)
  have present : (markText isHex ++ ds).isEmpty = false := by simp [hd.1]
  have whole : ¬ (suffix.map lower = some (Dalvik.byte 'f') ∨ suffix.map lower = some (Dalvik.byte 'd') ∨
      (¬ isHex = true ∧ suffix.map lower = none ∧ isFloatBody (markText isHex ++ ds) = true)) := by
    rintro (f | d | ⟨dec, -, float⟩)
    · exact (suffix_ne_float hs).1 f
    · exact (suffix_ne_float hs).2 d
    · obtain rfl := Bool.eq_false_of_not_eq_true dec
      rw [markText, if_neg Bool.false_ne_true, List.nil_append, isFloatBody_digits hd] at float
      exact Bool.false_ne_true float
  have number : (if isHex = true then unsigned? 16 64 ((markText isHex ++ ds).drop 2) else unsigned? 10 64 (markText isHex ++ ds)) =
      unsigned? (if isHex then 16 else 10) 64 ds := by
    cases isHex <;> rfl
  rw [List.append_assoc] at body
  unfold parseNumber
  simp only [signed, hasHexMark_numeral hd hs, suffixOf_numeral hd hs, body, present, whole, number, suffixKind_eq hs,
    Bool.false_eq_true, if_false]
  cases unsigned? (if isHex = true then 16 else 10) 64 ds with
  | none => rfl
  | some m => rfl

end

/-! ## Literals -/

theorem digits_ofDigits (isHex : Bool) (n : Nat) : Digits isHex (digits (if isHex then 16 else 10) n) := by
  refine ⟨digits_ne_nil _ n, fun b hb => ?_⟩
  obtain ⟨d, small, rfl⟩ := mem_digits (by cases isHex <;> decide) hb
  exact ⟨d, small, hexDigit?_digitByte (by cases isHex <;> simp at small <;> omega)⟩

/-- The decimal text of a number below `2 ^ 31` is parsed as an `int`. -/
theorem parseNumber_decimal {n : Nat} (h : n < twoPow 31) : parseNumber (decimal n) = .ok (int n) := by
  have text : decimal (n : Int) = signText none ++ (markText false ++ (digits 10 n ++ (none : Option UInt8).toList)) := by
    simp [decimal, signed, signText, markText]
  have small : n < twoPow 64 := h.trans (by decide)
  have value := unsigned?_digits (by decide : 1 < 10) (by decide) small
  rw [parseNumber_numeral none (digits_ofDigits false n) (by simp [Suffix]) text]
  have fits : fit? 32 false false n = some (n : Int) := by
    simp [fit?, h]
  show (match (unsigned? 10 64 (digits 10 n)).bind (fit? 32 false false) with
      | some n => Except.ok (ofSigned .int n)
      | none => badNumber (decimal n)) = _
  rw [value, Option.bind_some, fits]
  rfl

theorem toLong_of_bounds (kind : LiteralKind) {n : Int} (low : -2 ^ 63 ≤ n) (high : n < 2 ^ 63) :
    (⟨kind, UInt64.ofInt n⟩ : Literal).toLong = n := by
  have same : (UInt64.ofInt n).toInt64 = Int64.ofInt n := by
    rw [← Int64.toBitVec_inj]
    refine BitVec.eq_of_toNat_eq ?_
    simp only [UInt64.ofInt, UInt64.toBitVec_toInt64, UInt64.toBitVec_ofNat', Int64.toBitVec_ofInt, BitVec.toNat_ofNat,
      BitVec.toNat_ofInt]
    omega
  rw [toLong, same, Int64.toInt_ofInt_of_le (by omega) (by omega)]

theorem signExtend_bounds {width : Nat} (pos : 0 < width) (n : Int) :
    -(twoPow (width - 1) : Int) ≤ signExtend width n ∧ signExtend width n < twoPow (width - 1) := by
  have double : twoPow width = twoPow (width - 1) * 2 := by
    rw [twoPow_eq, twoPow_eq, ← Nat.pow_succ, Nat.succ_eq_add_one, Nat.sub_add_cancel pos]
  have low := Int.le_bmod (x := n) (twoPow_pos width)
  have high := Int.bmod_lt (x := n) (twoPow_pos width)
  rw [signExtend]
  omega

theorem signExtend_of_bounds {width : Nat} (pos : 0 < width) {n : Int} (low : -(twoPow (width - 1) : Int) ≤ n)
    (high : n < twoPow (width - 1)) : signExtend width n = n := by
  have double : twoPow width = twoPow (width - 1) * 2 := by
    rw [twoPow_eq, twoPow_eq, ← Nat.pow_succ, Nat.succ_eq_add_one, Nat.sub_add_cancel pos]
  exact Int.bmod_eq_of_le (by omega) (by omega)

/-- A sign-extended number passes `fit?` with the sign and magnitude that it is printed with. -/
theorem fit?_of_bounds {width : Nat} (pos : 0 < width) {n : Int} (low : -(twoPow (width - 1) : Int) ≤ n)
    (high : n < twoPow (width - 1)) : fit? width true (decide (n < 0)) n.natAbs = some n := by
  have double : twoPow width = twoPow (width - 1) * 2 := by
    rw [twoPow_eq, twoPow_eq, ← Nat.pow_succ, Nat.succ_eq_add_one, Nat.sub_add_cancel pos]
  by_cases negative : n < 0
  · have small : n.natAbs ≤ twoPow (width - 1) := by omega
    have value : -(n.natAbs : Int) = n := by omega
    simp only [fit?, negative, small, value, decide_true, not_true, true_and, false_and, if_true, if_false]
  · have small : n.natAbs < twoPow width := by omega
    have value : (n.natAbs : Int) = n := by omega
    simp only [fit?, negative, small, value, decide_false, Bool.false_eq_true, not_false_eq_true, and_self, if_true]
    rw [signExtend_of_bounds pos low high]

/-- The suffix that the literals of a kind are printed with. -/
def letter : LiteralKind → Option UInt8
  | .long => some (Dalvik.byte 'L')
  | .byte => some (Dalvik.byte 't')
  | .short => some (Dalvik.byte 's')
  | _ => none

/-- The kinds of whole numbers: `int`, `long`, `byte` and `short`. -/
def IsWhole (kind : LiteralKind) : Prop := kind = .int ∨ kind = .long ∨ kind = .byte ∨ kind = .short

section Whole

variable {kind : LiteralKind} (whole : IsWhole kind) (n : Int)
include whole

theorem toLong_ofSigned : (ofSigned kind n).toLong = signExtend kind.width n := by
  have pos : 0 < kind.width := by rcases whole with rfl | rfl | rfl | rfl <;> decide
  have wide : (twoPow (kind.width - 1) : Int) ≤ 2 ^ 63 := by rcases whole with rfl | rfl | rfl | rfl <;> decide
  obtain ⟨low, high⟩ := signExtend_bounds pos n
  exact toLong_of_bounds kind (by omega) (by omega)

/-- The text of a whole-number literal is its sign, its magnitude in hexadecimal and the suffix of its kind. -/
theorem text_ofSigned : (ofSigned kind n).text = signText (if signExtend kind.width n < 0 then some true else none) ++
    (markText true ++ (digits 16 (signExtend kind.width n).natAbs ++ (letter kind).toList)) := by
  have hexed : (ofSigned kind n).text = hexText (ofSigned kind n).toLong ++ (letter kind).toList := by
    rcases whole with rfl | rfl | rfl | rfl
    · exact (List.append_nil _).symm
    · rfl
    · rfl
    · rfl
  rw [hexed, toLong_ofSigned whole, hexText]
  split
  · rfl
  · rfl

theorem parseNumber_text : parseNumber (ofSigned kind n).text = .ok (ofSigned kind n) := by
  have pos : 0 < kind.width := by rcases whole with rfl | rfl | rfl | rfl <;> decide
  have narrow : twoPow (kind.width - 1) < twoPow 64 := by rcases whole with rfl | rfl | rfl | rfl <;> decide
  have suffix : Suffix (letter kind) := by rcases whole with rfl | rfl | rfl | rfl <;> decide
  have named : suffixKind (letter kind) = kind := by rcases whole with rfl | rfl | rfl | rfl <;> rfl
  obtain ⟨low, high⟩ := signExtend_bounds pos n
  have small : (signExtend kind.width n).natAbs < twoPow 64 := by omega
  have value := unsigned?_digits (by decide : 1 < 16) le_rfl small
  have fits := fit?_of_bounds pos low high
  have negative : ((if signExtend kind.width n < 0 then some true else none) == some true) = decide (signExtend kind.width n < 0) := by
    split <;> simp_all
  rw [parseNumber_numeral _ (digits_ofDigits true _) suffix (text_ofSigned whole n)]
  simp only [if_true, value, Option.bind_some, named, negative, fits]
  rw [ofSigned, ofSigned, signExtend_of_bounds pos low high]

theorem text_begins : ∃ b r, (ofSigned kind n).text = b :: r ∧ (b = Dalvik.byte '-' ∨ b = Dalvik.byte '0') := by
  rw [text_ofSigned whole]
  split
  · exact ⟨_, _, rfl, .inl rfl⟩
  · exact ⟨_, _, rfl, .inr rfl⟩

/-- The text of a whole-number literal is parsed as the literal. -/
theorem parse_text : parse (ofSigned kind n).text = .ok (ofSigned kind n) := by
  obtain ⟨b, r, begins, front⟩ := text_begins whole n
  -- Neither a sign nor a zero begins a word or a quote.
  have apart : b ≠ Dalvik.byte 't' ∧ b ≠ Dalvik.byte 'f' ∧ b ≠ Escaped.singleQuote := by
    rcases front with rfl | rfl <;> decide
  have yes : (ofSigned kind n).text ≠ ascii "true" := by
    rw [begins]
    exact fun e => apart.1 (List.cons.inj e).1
  have no : (ofSigned kind n).text ≠ ascii "false" := by
    rw [begins]
    exact fun e => apart.2.1 (List.cons.inj e).1
  have quoted : (ofSigned kind n).text.head? ≠ some Escaped.singleQuote := by
    rw [begins]
    exact fun e => apart.2.2 (Option.some.inj e)
  rw [parse, if_neg yes, if_neg no, if_neg quoted, parseNumber_text whole]

end Whole

end Literal

end Dalvik
