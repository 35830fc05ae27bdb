import Dalvik.Proofs.Numeral
import Dalvik.Proofs.Text.Utf16
import Dalvik.Text.Escaped

/-!
# Escaped literals

`Spelled text units` says that a text is put together from escapes and plain bytes that are read as
`units`, whatever follows each piece. A quoted string is spelled as the units of the string, so it
is read back (`unquote_quote`, `unquoteChar_quoteChar`), and it consists of printable characters
(`printable_quote`).
-/

namespace Dalvik.Escaped

variable {v : Nat} {q e : UInt8} {s r : Bytes} {us ws : List UInt16}

/-! ## Four hexadecimal digits -/

theorem padLeft_digits {width : Nat} (pos : 0 < width) (n : Nat) :
    padLeft (width + 1) (byte '0') (digits 16 n) = padLeft width (byte '0') (digits 16 (n / 16)) ++ [digitByte (n % 16)] := by
  by_cases small : n < 16
  -- One digit fewer is one more zero in front, and the zero that is left of a single digit is such a zero.
  · obtain ⟨k, rfl⟩ : ∃ k, width = k + 1 := ⟨width - 1, by omega⟩
    rw [digits_of_lt small, Nat.div_eq_of_lt small, digits_of_lt (by decide), Nat.mod_eq_of_lt small, padLeft, padLeft]
    show List.replicate (k + 1) (byte '0') ++ _ = List.replicate k (byte '0') ++ [byte '0'] ++ _
    rw [List.replicate_succ']
  · rw [digits_of_le (by decide) (by omega), padLeft, padLeft, List.length_append, List.length_singleton, Nat.add_sub_add_right,
      List.append_assoc]

theorem unitEscape_eq (u : UInt16) :
    unitEscape u = [byte '\\', byte 'u', digitByte (u.toNat / 16 / 16 / 16), digitByte (u.toNat / 16 / 16 % 16),
      digitByte (u.toNat / 16 % 16), digitByte (u.toNat % 16)] := by
  have bound := u.toNat_lt
  have top : u.toNat / 16 / 16 / 16 < 16 := by omega
  rw [unitEscape, hexWide, if_neg (by omega), Int.natAbs_natCast, padLeft_digits (by decide), padLeft_digits (by decide),
    padLeft_digits (by decide), digits_of_lt top]
  rfl

/-! ## One piece -/

/-- The text is put together from pieces, each of which is read as its units whatever follows it. -/
inductive Spelled : Bytes → List UInt16 → Prop
  | nil : Spelled [] []
  | cons {p r : Bytes} {us ws : List UInt16} (whole : p ≠ []) (first : ∀ rest, nextUnits (p ++ rest) = some (us, rest))
      (hr : Spelled r ws) : Spelled (p ++ r) (us ++ ws)

theorem Spelled.single (whole : s ≠ []) (first : ∀ rest, nextUnits (s ++ rest) = some (us, rest)) : Spelled s us := by
  simpa using Spelled.cons whole first .nil

theorem Spelled.append (hs : Spelled s us) (hr : Spelled r ws) : Spelled (s ++ r) (us ++ ws) := by
  induction hs with
  | nil => exact hr
  | cons whole first _ ih =>
    rw [List.append_assoc, List.append_assoc]
    exact .cons whole first ih

theorem Spelled.flatMap {α : Type} {f : α → Bytes} {g : α → List UInt16} {xs : List α} (h : ∀ x ∈ xs, Spelled (f x) (g x)) :
    Spelled (xs.flatMap f) (xs.flatMap g) := by
  induction xs with
  | nil => exact .nil
  | cons x xs ih =>
    obtain ⟨here, others⟩ := List.forall_mem_cons.1 h
    exact here.append (ih others)

theorem spelled_unitEscape (u : UInt16) : Spelled (unitEscape u) [u] := by
  have bound := u.toNat_lt
  have digit : ∀ {d : Nat}, d < 16 → hexDigit? (digitByte d) = some d := Literal.hexDigit?_digitByte
  have value : ((u.toNat / 16 / 16 / 16 * 16 + u.toNat / 16 / 16 % 16) * 16 + u.toNat / 16 % 16) * 16 + u.toNat % 16 = u.toNat := by
    omega
  rw [unitEscape_eq]
  refine .single (List.cons_ne_nil _ _) fun rest => ?_
  simp only [List.cons_append, List.nil_append, nextUnits, if_true]
  rw [digit (by omega), digit (by omega), digit (by omega), digit (by omega)]
  simp only [Option.bind_eq_bind, Option.bind_some, value, UInt16.ofNat_toNat]
  rfl

theorem spelled_short {u : UInt16} (short : shortEscape? e = some u) (letter : e ≠ byte 'u') : Spelled [byte '\\', e] [u] := by
  refine .single (List.cons_ne_nil _ _) fun rest => ?_
  simp only [List.cons_append, List.nil_append, nextUnits, if_true, if_neg letter, short, Option.map_some]

/-- A printable character other than the backslash is spelled as itself. -/
theorem spelled_plain (low : 0x20 ≤ v) (high : v < 0x7f) (escape : v ≠ 0x5c) : Spelled [UInt8.ofNat v] [UInt16.ofNat v] := by
  have value : (UInt8.ofNat v).toNat = v := Utf8.toNat_ofNat (by omega)
  have other : UInt8.ofNat v ≠ byte '\\' := by
    intro same
    rw [same] at value
    exact escape value.symm
  have valid : v.isValidChar := Utf8.isValidChar_iff.2 (by omega)
  refine .single (List.cons_ne_nil _ _) fun rest => ?_
  have point : Utf8.first? (UInt8.ofNat v :: rest) = some (v, 1) := by
    have bytes : Utf8.encodePoint v = [UInt8.ofNat v] := by rw [Utf8.encodePoint_of_valid valid, if_pos (by omega)]
    have first := Utf8.first?_encodePoint valid rest
    rwa [bytes] at first
  have unit : Utf16.encodePoint v = [UInt16.ofNat v] :=
    Utf16.encodePoint_small valid (by omega)
  rw [List.singleton_append, nextUnits.eq_def]
  dsimp only
  rw [if_neg other, point, Option.map_some, unit]
  rfl

/-- `escapePoint` gives a letter behind a backslash, the character itself, or its units in hexadecimal. -/
theorem escapePoint_cases {P : Bytes → Prop} (kind : q = doubleQuote ∨ q = singleQuote)
    (short : ∀ e u, shortEscape? e = some u → e ≠ byte 'u' → u.toNat = v → P [byte '\\', e])
    (plain : 0x20 ≤ v → v < 0x7f → v ≠ 0x5c → v ≠ q.toNat → P [UInt8.ofNat v])
    (units : P ((Utf16.encodePoint v).flatMap unitEscape)) : P (escapePoint q v) := by
  unfold escapePoint
  split
  · next same => exact short (byte 'n') _ rfl (by decide) same.symm
  split
  · next same => exact short (byte 't') _ rfl (by decide) same.symm
  split
  · next same => exact short (byte 'r') _ rfl (by decide) same.symm
  split
  · next same => exact short (byte 'b') _ rfl (by decide) same.symm
  split
  · next same => exact short (byte 'f') _ rfl (by decide) same.symm
  split
  · next same => exact short (byte '\\') _ rfl (by decide) same.symm
  split
  · next same =>
    rcases kind with rfl | rfl
    · exact short doubleQuote _ rfl (by decide) same.symm
    · exact short singleQuote _ rfl (by decide) same.symm
  split
  · next escape stop printable => exact plain printable.1 printable.2 escape stop
  · exact units

/-- `escapePoint` of a code point is spelled as the UTF-16 units of the code point. -/
theorem spelled_escapePoint (kind : q = doubleQuote ∨ q = singleQuote) (h : v.isValidChar) :
    Spelled (escapePoint q v) (Utf16.encodePoint v) := by
  refine escapePoint_cases (P := (Spelled · _)) kind (fun e u letter other same => ?_) (fun low high escape _ => ?_) ?_
  · rw [Utf16.encodePoint_small h (by have := u.toNat_lt; omega), ← same, UInt16.ofNat_toNat]
    exact spelled_short letter other
  · rw [Utf16.encodePoint_small h (by omega)]
    exact spelled_plain low high escape
  · have units := Spelled.flatMap (g := fun u => [u]) fun u (_ : u ∈ Utf16.encodePoint v) => spelled_unitEscape u
    rwa [List.flatMap_singleton'] at units

/-! ## Literals -/

theorem unescape_spelled (h : Spelled s us) : unescape s = some us := by
  -- Every piece takes at least one byte, so the length of the text is fuel enough.
  have enough : ∀ fuel, s.length ≤ fuel → unescapeFuel fuel s = some us := by
    induction h with
    | nil => exact fun fuel _ => by rw [unescapeFuel]
    | @cons p r us ws whole first _ ih =>
      intro fuel fits
      have pos := List.length_pos_iff.2 whole
      rw [List.length_append] at fits
      obtain ⟨k, rfl⟩ : ∃ k, fuel = k + 1 := ⟨fuel - 1, by omega⟩
      have nonempty : p ++ r ≠ [] := by simp [whole]
      rw [unescapeFuel.eq_3 _ _ nonempty, first, Option.bind_eq_bind, Option.bind_some]
      dsimp only
      rw [ih k (by omega)]
      rfl
  exact enough _ le_rfl

theorem inside_quotes {accept : UInt8 → Bool} (h : accept q = true) (body : Bytes) :
    inside accept (q :: body ++ [q]) = some body := by
  have ends : 2 ≤ (q :: (body ++ [q])).length ∧ accept q = true ∧ (body ++ [q]).getLast? = some q :=
    ⟨by simp, h, List.getLast?_concat⟩
  rw [List.cons_append, inside, if_pos ends, List.dropLast_concat]

/-- `unquote` of the literal of a valid string gives the string. -/
theorem unquote_quote (valid : Utf8.isValid s = true) : unquote (quote s) = some s := by
  obtain ⟨points, -⟩ := Utf8.encode_points valid
  have spelled : Spelled ((Utf8.points s).flatMap (escapePoint doubleQuote)) (Utf16.ofBytes s) :=
    .flatMap fun v hv => spelled_escapePoint (.inl rfl) (points v hv)
  rw [unquote, quote, inside_quotes (by decide), Option.bind_eq_bind, Option.bind_some, unescape_spelled spelled]
  exact congrArg some (Utf16.text_ofBytes valid)

theorem unquoteChar_quoteChar (u : UInt16) : unquoteChar (quoteChar u) = some u := by
  have spelled : Spelled (if Utf16.isSurrogate u.toNat then unitEscape u else escapePoint singleQuote u.toNat) [u] := by
    split
    · exact spelled_unitEscape u
    · next plain =>
      have plain : Utf16.isSurrogate u.toNat = false := by simpa using plain
      have point := spelled_escapePoint (.inr rfl) (Utf16.isValidChar_unit plain)
      rwa [Utf16.encodePoint_unit plain] at point
  rw [unquoteChar, quoteChar, inside_quotes (by decide), Option.bind_eq_bind, Option.bind_some, unescape_spelled spelled]
  rfl

/-! ## Printing -/

/-- A byte of printable ASCII. -/
def Printable (b : UInt8) : Prop := 0x20 ≤ b.toNat ∧ b.toNat ≤ 0x7e

instance : DecidablePred Printable := fun _ => inferInstanceAs (Decidable (_ ∧ _))

theorem printable_unitEscape (u : UInt16) : ∀ b ∈ unitEscape u, Printable b := by
  have digit : ∀ d < 16, Printable (digitByte d) := by decide
  have bound := u.toNat_lt
  rw [unitEscape_eq]
  simp only [List.forall_mem_cons]
  exact ⟨by decide, by decide, digit _ (by omega), digit _ (by omega), digit _ (by omega), digit _ (by omega), nofun⟩

theorem printable_short {u : UInt16} (short : shortEscape? e = some u) : Printable e := by
  have all : ∀ e : UInt8, (shortEscape? e).isSome → Printable e := Literal.forall_byte (by decide +kernel)
  exact all e (by rw [short]; rfl)

theorem printable_escapePoint (kind : q = doubleQuote ∨ q = singleQuote) (v : Nat) : ∀ b ∈ escapePoint q v, Printable b := by
  refine escapePoint_cases (P := fun s => ∀ b ∈ s, Printable b) kind (fun e u letter _ _ => ?_) (fun low high _ _ => ?_) ?_
  · exact List.forall_mem_cons.2 ⟨by decide, List.forall_mem_singleton.2 (printable_short letter)⟩
  · have value : (UInt8.ofNat v).toNat = v := Utf8.toNat_ofNat (by omega)
    exact List.forall_mem_singleton.2 (by rw [Printable, value]; omega)
  · intro b hb
    obtain ⟨u, -, hu⟩ := List.mem_flatMap.1 hb
    exact printable_unitEscape u b hu

theorem printable_quote (s : Bytes) : ∀ b ∈ quote s, Printable b := by
  have mark : Printable doubleQuote := by decide
  intro b hb
  rcases List.mem_append.1 hb with hb | hb
  · rcases List.mem_cons.1 hb with rfl | hb
    · exact mark
    · obtain ⟨v, -, hv⟩ := List.mem_flatMap.1 hb
      exact printable_escapePoint (.inl rfl) v b hv
  · exact List.mem_singleton.1 hb ▸ mark

end Dalvik.Escaped
