import Dalvik.Proofs.Numeral
import Dalvik.Proofs.Text.Escaped
import Mathlib.Data.Nat.Digits.Defs

/-!
# Literals

`digitsValue` of digits is the number they stand for (`digitsValue_eq`). A number is accepted
exactly if it fits into the kind that its suffix names, where a hexadecimal number without a minus
may have all bits of the kind. The text of a literal other than a floating-point number is read back
as the literal (`parse_literals`).
-/

namespace Dalvik.Literal

variable {isHex negative : Bool} {ds : Bytes} {suffix : Option UInt8} {width m : Nat}

/-! ## Magnitudes -/

/-- The base of a number: 16 with the hexadecimal mark, 10 without. -/
def base (isHex : Bool) : Nat := if isHex then 16 else 10

/-- The number that the digits of a base stand for, the most significant digit first. -/
def magnitude (base : Nat) (ds : Bytes) : Nat := Nat.ofDigits base (ds.filterMap Escaped.hexDigit?).reverse

theorem length_filterMap_hexDigit? (hd : ∀ b ∈ ds, ∃ d < base isHex, Escaped.hexDigit? b = some d) :
    (ds.filterMap Escaped.hexDigit?).length = ds.length := by
  induction ds with
  | nil => rfl
  | cons b ds ih =>
    obtain ⟨⟨d, -, digit⟩, others⟩ := List.forall_mem_cons.1 hd
    rw [List.filterMap_cons_some digit, List.length_cons, List.length_cons, ih others]

theorem digitsValue_eq (hd : ∀ b ∈ ds, ∃ d < base isHex, Escaped.hexDigit? b = some d) (acc : Nat) :
    digitsValue (base isHex) acc ds = some (acc * base isHex ^ ds.length + magnitude (base isHex) ds) := by
  induction ds generalizing acc with
  | nil => simp [digitsValue, magnitude]
  | cons b ds ih =>
    obtain ⟨⟨d, small, digit⟩, others⟩ := List.forall_mem_cons.1 hd
    have length := length_filterMap_hexDigit? others
    have first : magnitude (base isHex) (b :: ds) = magnitude (base isHex) ds + base isHex ^ ds.length * d := by
      rw [magnitude, List.filterMap_cons_some digit, List.reverse_cons, Nat.ofDigits_append, List.length_reverse, length,
        Nat.ofDigits_singleton, magnitude]
    rw [digitsValue, digit]
    dsimp only
    rw [if_pos small, ih others, first, List.length_cons, Nat.pow_succ]
    congr 1
    ring

theorem unsigned?_eq (hd : Digits isHex ds) :
    unsigned? (base isHex) 64 ds =
      if magnitude (base isHex) ds < twoPow 64 then some (magnitude (base isHex) ds) else none := by
  have nonempty : ds.isEmpty = false := by simpa using hd.1
  rw [unsigned?, nonempty, digitsValue_eq hd.2, Nat.zero_mul, Nat.zero_add]
  rfl

/-! ## What fits -/

/-- Whether a number with this sign and magnitude fits into `width` bits. -/
def Fits (width : Nat) (isHex negative : Bool) (m : Nat) : Prop :=
  if negative then m ≤ 2 ^ (width - 1) else if isHex then m < 2 ^ width else m < 2 ^ (width - 1)

instance : Decidable (Fits width isHex negative m) :=
  inferInstanceAs (Decidable (if negative = true then _ else if isHex = true then _ else _))

/-- The value of the literal: a hexadecimal number without a minus gives the bits of the width, any other one its
value. -/
def meant (width : Nat) (isHex negative : Bool) (m : Nat) : Int :=
  if negative then -(m : Int) else if isHex ∧ 2 ^ (width - 1) ≤ m then (m : Int) - (2 ^ width : Nat) else m

theorem two_pow_pred (pos : 0 < width) : 2 ^ width = 2 ^ (width - 1) + 2 ^ (width - 1) := by
  rw [← Nat.two_pow_succ, Nat.sub_add_cancel pos]

theorem meant_bounds (pos : 0 < width) (fits : Fits width isHex negative m) :
    -(twoPow (width - 1) : Int) ≤ meant width isHex negative m ∧ meant width isHex negative m < twoPow (width - 1) := by
  have present := Nat.two_pow_pos (width - 1)
  rw [twoPow_eq]
  unfold Fits at fits
  unfold meant
  rw [two_pow_pred pos] at fits ⊢
  generalize 2 ^ (width - 1) = half at *
  cases negative <;> cases isHex <;> grind

/-- Sign extension of the magnitude of a hexadecimal number without a minus gives its value. -/
theorem signExtend_meant (pos : 0 < width) (fits : Fits width true false m) : signExtend width m = meant width true false m := by
  obtain ⟨low, high⟩ := meant_bounds pos fits
  rw [← signExtend_of_bounds pos low high, meant, if_neg Bool.false_ne_true]
  split
  · rw [signExtend, signExtend, twoPow_eq, Int.sub_bmod_right]
  · rfl

theorem fit?_eq (pos : 0 < width) (m : Nat) :
    fit? width isHex negative m = if Fits width isHex negative m then some (meant width isHex negative m) else none := by
  cases negative with
  | true => simp [fit?, Fits, meant, twoPow_eq]
  | false =>
    cases isHex with
    | true =>
      -- A number with more bits than the width is not accepted as a positive one either.
      by_cases fits : m < 2 ^ width
      · have whole : Fits width true false m := by simpa [Fits] using fits
        rw [if_pos whole, ← signExtend_meant pos whole]
        simp [fit?, twoPow_eq, fits]
      · have double := two_pow_pred pos
        have large : ¬ m < 2 ^ (width - 1) := by omega
        simp [fit?, Fits, twoPow_eq, fits, large]
    | false => simp [fit?, Fits, meant, twoPow_eq]

theorem Fits.lt (fits : Fits width isHex negative m) (pos : 0 < width) (wide : width ≤ 64) : m < twoPow 64 := by
  have most : 2 ^ width ≤ 2 ^ 64 := Nat.pow_le_pow_right (by decide) wide
  have present := Nat.two_pow_pos (width - 1)
  have double := two_pow_pred pos
  rw [twoPow_eq]
  unfold Fits at fits
  split at fits
  · omega
  split at fits
  · omega
  · omega

/-! ## Numbers -/

theorem width_of_whole {kind : LiteralKind} (whole : IsWhole kind) : 0 < kind.width ∧ kind.width ≤ 64 := by
  rcases whole with rfl | rfl | rfl | rfl <;> decide

theorem isWhole_suffixKind (suffix : Option UInt8) : IsWhole (suffixKind suffix) := by
  unfold suffixKind
  split
  · exact .inl rfl
  split
  · exact .inr (.inr (.inl rfl))
  split
  · exact .inr (.inr (.inr rfl))
  · exact .inr (.inl rfl)

/-- `parseNumber` of a sign, digits and a suffix succeeds exactly if the number `Fits` the kind that the suffix names,
and gives the literal of that kind with the value `meant`. -/
theorem parseNumber_eq (sign : Option Bool) (hd : Digits isHex ds) (hs : Suffix suffix) {text : Bytes}
    (htext : text = signText sign ++ (markText isHex ++ (ds ++ suffix.toList))) :
    parseNumber text =
      if Fits (suffixKind suffix).width isHex (sign == some true) (magnitude (base isHex) ds) then
        .ok (ofSigned (suffixKind suffix) (meant (suffixKind suffix).width isHex (sign == some true) (magnitude (base isHex) ds)))
      else badNumber text := by
  obtain ⟨pos, wide⟩ := width_of_whole (isWhole_suffixKind suffix)
  have value : unsigned? (if isHex then 16 else 10) 64 ds = _ := unsigned?_eq hd
  rw [parseNumber_numeral sign hd hs htext, value]
  by_cases small : magnitude (base isHex) ds < twoPow 64
  · rw [if_pos small, Option.bind_some, fit?_eq pos]
    by_cases fits : Fits (suffixKind suffix).width isHex (sign == some true) (magnitude (base isHex) ds)
    · rw [if_pos fits, if_pos fits]
    · rw [if_neg fits, if_neg fits]
  · rw [if_neg small, if_neg fun fits => small (fits.lt pos wide)]
    rfl

theorem toLong_of_fits {kind : LiteralKind} (whole : IsWhole kind) (fits : Fits kind.width isHex negative m) :
    (ofSigned kind (meant kind.width isHex negative m)).toLong = meant kind.width isHex negative m := by
  have pos := (width_of_whole whole).1
  obtain ⟨low, high⟩ := meant_bounds pos fits
  rw [toLong_ofSigned whole, signExtend_of_bounds pos low high]

/-! ## Literals -/

/-- The literals that are no floating-point numbers. -/
inductive Discrete : Literal → Prop
  | whole {kind : LiteralKind} (whole : IsWhole kind) (n : Int) : Discrete (ofSigned kind n)
  | char (u : UInt16) : Discrete (char u)
  | boolean (b : Bool) : Discrete (boolean b)

theorem parse_char (u : UInt16) : parse (char u).text = .ok (char u) := by
  have text : (char u).text = Escaped.quoteChar u := by
    rw [Literal.text, char, UInt16.toUInt16_toUInt64]
  have back := Escaped.unquoteChar_quoteChar u
  have quote : ∀ w r, w = Escaped.singleQuote :: r → w ≠ ascii "true" ∧ w ≠ ascii "false" ∧ w.head? = some Escaped.singleQuote := by
    rintro _ r rfl
    exact ⟨fun e => absurd (List.cons.inj e).1 (by decide), fun e => absurd (List.cons.inj e).1 (by decide), rfl⟩
  obtain ⟨yes, no, quoted⟩ := quote (Escaped.quoteChar u) _ rfl
  rw [text, parse, if_neg yes, if_neg no, if_pos quoted, back]

theorem parse_boolean (b : Bool) : parse (boolean b).text = .ok (boolean b) := by
  cases b <;> rfl

/-- For every sign, base, digit string and suffix: `parseNumber` succeeds exactly if the number `Fits` the kind that
the suffix names, and gives the literal of that kind with the value `meant`. And the text of every `Discrete` literal
is parsed as the literal. -/
theorem parse_literals :
    (∀ (sign : Option Bool) (isHex : Bool) (ds : Bytes) (suffix : Option UInt8), Digits isHex ds → Suffix suffix →
      let text := signText sign ++ markText isHex ++ ds ++ suffix.toList
      let kind := suffixKind suffix
      let negative := sign == some true
      let m := magnitude (base isHex) ds
      (Fits kind.width isHex negative m → ∃ p, parseNumber text = .ok p ∧ p = ofSigned kind (meant kind.width isHex negative m) ∧
        p.toLong = meant kind.width isHex negative m) ∧
      (¬ Fits kind.width isHex negative m → parseNumber text = badNumber text)) ∧
    ∀ p, Discrete p → parse p.text = .ok p := by
  refine ⟨fun sign isHex ds suffix hd hs => ?_, fun p hp => ?_⟩
  · intro text kind negative m
    have parts : text = signText sign ++ (markText isHex ++ (ds ++ suffix.toList)) := by simp [text]
    have read := parseNumber_eq sign hd hs parts
    exact ⟨fun fits => ⟨_, read.trans (if_pos fits), rfl, toLong_of_fits (isWhole_suffixKind suffix) fits⟩,
      fun large => read.trans (if_neg large)⟩
  · cases hp with
    | whole whole n => exact parse_text whole n
    | char u => exact parse_char u
    | boolean b => exact parse_boolean b

/-- The smallest byte, a byte that is too large without its minus, and a lone surrogate as a character. -/
theorem parse_literals_edges :
    Digits true (ascii "80") ∧ Digits false (ascii "128") ∧ Suffix (some (Dalvik.byte 't')) ∧ Suffix (some (Dalvik.byte 'T')) ∧
      (∃ p, parseNumber (ascii "-0x80t") = .ok p ∧ p = byte (-128) ∧ p.toLong = -128) ∧
      parseNumber (ascii "128T") = badNumber (ascii "128T") ∧ parse (ascii "'\\ud800'") = .ok (char 0xd800) := by
  have hex : Digits true (ascii "80") := ⟨by decide, by decide +kernel⟩
  have dec : Digits false (ascii "128") := ⟨by decide, by decide +kernel⟩
  have lower : Suffix (some (Dalvik.byte 't')) := by decide
  have upper : Suffix (some (Dalvik.byte 'T')) := by decide
  have least : Fits 8 true true (magnitude 16 (ascii "80")) := by decide
  have large : ¬ Fits 8 false false (magnitude 10 (ascii "128")) := by decide
  obtain ⟨numbers, printed⟩ := parse_literals
  exact ⟨hex, dec, lower, upper, (numbers (some true) true _ _ hex lower).1 least,
    (numbers none false _ _ dec upper).2 large, printed _ (.char 0xd800)⟩

end Dalvik.Literal
