import Dalvik.Proofs.Assembly.Operands
import Dalvik.Proofs.Text.Escaped

/-!
# Quoted literals and references

`Escaped.quote` puts a backslash before each quote and backslash of a string, and prints the rest in
printable characters, so nothing inside ends the literal (`inside_quote`). The scanner takes exactly
the literal (`takes_quoted`). `readRef` reads the text of a constant back if the text is such a
literal or one token that is parsed as the constant (`takes_readRef`).
-/

namespace Dalvik.Assembly

open Reading Scanner

/-- The inside of a literal: no bare quote and no newline, and behind every backslash one more byte. -/
inductive Inside (quote : UInt8) : Bytes → Prop
  | nil : Inside quote []
  | plain {b : UInt8} {r : Bytes} (escape : b ≠ byte '\\') (line : b ≠ newline) (stop : b ≠ quote) (hr : Inside quote r) :
      Inside quote (b :: r)
  | escaped (b : UInt8) {r : Bytes} (hr : Inside quote r) : Inside quote (byte '\\' :: b :: r)

variable {quote : UInt8} {text rest inner : Bytes}

namespace Inside

theorem append {a b : Bytes} (ha : Inside quote a) (hb : Inside quote b) : Inside quote (a ++ b) := by
  induction ha with
  | nil => exact hb
  | plain escape line stop _ ih => exact .plain escape line stop ih
  | escaped c _ ih => exact .escaped c ih

theorem of_plain {s : Bytes} (h : ∀ b ∈ s, b ≠ byte '\\' ∧ b ≠ newline ∧ b ≠ quote) : Inside quote s := by
  induction s with
  | nil => exact .nil
  | cons b s ih =>
    obtain ⟨⟨escape, line, stop⟩, others⟩ := List.forall_mem_cons.1 h
    exact .plain escape line stop (ih others)

theorem flatMap {α : Type} {f : α → Bytes} {xs : List α} (h : ∀ x ∈ xs, Inside quote (f x)) : Inside quote (xs.flatMap f) := by
  induction xs with
  | nil => exact .nil
  | cons x xs ih =>
    obtain ⟨first, others⟩ := List.forall_mem_cons.1 h
    exact first.append (ih others)

/-- `quotedEnd` finds the closing quote. -/
theorem quotedEnd_eq {data : Array UInt8} {i n : Nat} (h : Inside quote inner) (ends : quote ≠ byte '\\' ∧ quote ≠ newline)
    (located : data.toList.drop i = inner ++ quote :: rest) (enough : inner.length < n) :
    Scanner.quotedEnd quote data n i = .ok (i + inner.length + 1) := by
  have next : ∀ {i : Nat} {b : UInt8} {r : Bytes}, data.toList.drop i = b :: r → data[i]? = some b ∧ data.toList.drop (i + 1) = r := by
    intro i b r e
    rw [← Array.getElem?_toList, ← List.head?_drop, ← List.drop_drop, e]
    exact ⟨rfl, rfl⟩
  induction h generalizing i n with
  | nil =>
    obtain ⟨n, rfl⟩ : ∃ m, n = m + 1 := ⟨n - 1, by omega⟩
    obtain ⟨here, -⟩ := next located
    simp [Scanner.quotedEnd, here, ends.1, ends.2]
  | @plain b r escape line stop hr ih =>
    obtain ⟨n, rfl⟩ : ∃ m, n = m + 1 := ⟨n - 1, by omega⟩
    have here : data[i]? = some b := (next located).1
    have later : data.toList.drop (i + 1) = r ++ quote :: rest := (next located).2
    have fewer : r.length < n := by
      simp at enough
      omega
    have found := ih later fewer
    simp [Scanner.quotedEnd, here, escape, line, stop, found]
    omega
  | @escaped b r hr ih =>
    obtain ⟨n, rfl⟩ : ∃ m, n = m + 1 := ⟨n - 1, by omega⟩
    have here : data[i]? = some (byte '\\') := (next located).1
    have later : data.toList.drop (i + 2) = r ++ quote :: rest := (next (next located).2).2
    have fewer : r.length < n := by
      simp at enough
      omega
    have found := ih later fewer
    simp [Scanner.quotedEnd, here, found]
    omega

end Inside

/-- `quoted` takes a literal up to the quote that closes it, whatever follows. -/
theorem gives_quoted {s : Scanner} (h : Inside quote inner) (kind : quote = 0x22 ∨ quote = 0x27)
    (located : s.data.toList.drop s.pos = quote :: inner ++ [quote] ++ rest) :
    quoted.Gives s (quote :: inner ++ [quote]) { s with pos := s.pos + (quote :: inner ++ [quote]).length } := by
  have ends : quote ≠ byte '\\' ∧ quote ≠ newline := by rcases kind with rfl | rfl <;> decide
  have opens : (quote != 0x22 && quote != 0x27) = false := by rcases kind with rfl | rfl <;> decide
  have peek : s.peek = quote := by
    rw [Scanner.peek, Array.getD_eq_getD_getElem?, ← Array.getElem?_toList, ← List.head?_drop, located]
    rfl
  have length : s.data.size - s.pos = (quote :: inner ++ [quote] ++ rest).length := by
    rw [← located, List.length_drop, Array.length_toList]
  have later : s.data.toList.drop (s.pos + 1) = inner ++ quote :: rest := by
    rw [← List.drop_drop, located]
    simp
  have enough : inner.length < s.data.size - s.pos := by
    rw [length]
    simp only [List.length_append, List.length_cons]
    omega
  have found := h.quotedEnd_eq ends later enough
  have stop : s.pos + 1 + inner.length + 1 = s.pos + (quote :: inner ++ [quote]).length := by simp; omega
  have slice : s.slice s.pos (s.pos + (quote :: inner ++ [quote]).length) = quote :: inner ++ [quote] := by
    rw [Scanner.slice, Array.toList_extract, List.extract_eq_take_drop, located, Nat.add_sub_cancel_left, List.take_left]
  unfold quoted
  refine Action.gives_bind.2 ⟨s, s, Action.gives_get.2 ⟨rfl, rfl⟩, ?_⟩
  simp only [peek, opens, found, stop, Bool.false_eq_true, if_false]
  exact Action.gives_bind.2 ⟨⟨⟩, _, Action.gives_set.2 rfl, Action.gives_pure.2 ⟨slice, rfl⟩⟩

theorem takes_quoted (h : Inside quote inner) (kind : quote = 0x22 ∨ quote = 0x27) :
    Takes quoted (quote :: inner ++ [quote] ++ rest) rest (· = quote :: inner ++ [quote]) :=
  fun _ hs => ⟨_, _, gives_quoted h kind hs.rest, rfl, hs.move rfl rfl⟩

/-! ## What is quoted -/

theorem inside_unitEscape (plain : ∀ d < 16, digitByte d ≠ quote) (u : UInt16) : Inside quote (Escaped.unitEscape u) := by
  have digit : ∀ d < 16, digitByte d ≠ byte '\\' ∧ digitByte d ≠ newline ∧ digitByte d ≠ quote := by
    have text : ∀ d < 16, digitByte d ≠ byte '\\' ∧ digitByte d ≠ newline := by decide
    exact fun d small => ⟨(text d small).1, (text d small).2, plain d small⟩
  have bound := u.toNat_lt
  rw [Escaped.unitEscape_eq]
  refine .escaped _ (.of_plain ?_)
  simp only [List.forall_mem_cons]
  exact ⟨digit _ (by omega), digit _ (by omega), digit _ (by omega), digit _ (by omega), nofun⟩

theorem inside_escapePoint (kind : quote = 0x22 ∨ quote = 0x27) (v : Nat) : Inside quote (Escaped.escapePoint quote v) := by
  have digits : ∀ d < 16, digitByte d ≠ quote := by rcases kind with rfl | rfl <;> decide
  refine Escaped.escapePoint_cases kind (fun e _ _ _ _ => .escaped e .nil) (fun low high escape stop => ?_) ?_
  · have value : (UInt8.ofNat v).toNat = v := Utf8.toNat_ofNat (by omega)
    refine .plain ?_ ?_ ?_ .nil
    · intro e
      rw [e] at value
      exact escape value.symm
    · intro e
      rw [e] at value
      have : newline.toNat = 10 := rfl
      omega
    · intro e
      rw [e] at value
      exact stop value.symm
  · exact .flatMap fun u _ => inside_unitEscape digits u

/-- Nothing inside `quote s` ends the literal. -/
theorem inside_quote (s : Bytes) : Inside 0x22 ((Utf8.points s).flatMap (Escaped.escapePoint Escaped.doubleQuote)) :=
  .flatMap fun v _ => inside_escapePoint (.inl rfl) v

/-- For a string of valid UTF-8, `quote v` is printable, the scanner takes exactly the literal in front of any text,
and unquoting the literal gives the string. -/
theorem quoted_quote {v : Bytes} (valid : Utf8.isValid v = true) :
    (∀ b ∈ Escaped.quote v, Escaped.Printable b) ∧
      (∀ (s : Scanner) (rest : Bytes), s.data.toList.drop s.pos = Escaped.quote v ++ rest →
        quoted.Gives s (Escaped.quote v) { s with pos := s.pos + (Escaped.quote v).length }) ∧
      Escaped.unquote (Escaped.quote v) = some v :=
  ⟨Escaped.printable_quote v, fun _ _ located => gives_quoted (inside_quote v) (.inl rfl) located, Escaped.unquote_quote valid⟩

/-- A string with a quote, backslashes and a character outside the basic plane, with another literal behind it. -/
theorem quoted_quote_backslashes :
    let v : Bytes := [0x22, 0x5c, 0x5c, 0xf0, 0x9f, 0x98, 0x80]
    let literal := ascii "\"\\\"\\\\\\\\\\ud83d\\ude00\""
    let text := ascii ".source " ++ literal ++ ascii "\"x\""
    Utf8.isValid v = true ∧ Escaped.quote v = literal ∧ (∀ b ∈ literal, Escaped.Printable b) ∧
      quoted.Gives { data := text.toArray, pos := 8 } literal { data := text.toArray, pos := 28 } ∧
      Escaped.unquote literal = some v := by
  intro v literal text
  have valid : Utf8.isValid v = true := by decide
  have same : Escaped.quote v = literal := by decide
  obtain ⟨printable, takes, back⟩ := quoted_quote valid
  rw [same] at printable takes back
  exact ⟨valid, same, printable, takes { data := text.toArray, pos := 8 } (ascii "\"x\"") (by decide), back⟩

/-! ## References -/

/-- The text of the constant is a token or a quoted string, and `parseRef` of it with this kind gives the constant. -/
structure Recovers (kind : Kind) (k : Constant) : Prop where
  back : Constant.parseRef kind k.text = .ok k
  whole : (∀ s, k ≠ .string s) → Word k.text

theorem kind_of_parse {kind : Kind} {k : Constant} (h : Constant.parse kind text = .ok k) : k.kind = kind ∧ ∀ l i, k ≠ .raw l i := by
  cases kind <;> simp only [Constant.parse, Action.except_bind_eq_ok] at h
  case string =>
    split at h
    · cases h
      exact ⟨rfl, fun _ _ e => by cases e⟩
    · cases h
  case null =>
    split at h
    · cases h
      exact ⟨rfl, fun _ _ e => by cases e⟩
    · cases h
  all_goals first
    | obtain ⟨_, _, ⟨⟩⟩ := h
      exact ⟨rfl, fun _ _ e => by cases e⟩
    | cases h

/-- A string is only parsed where the kind is `string`. -/
theorem kind_of_parseRef {kind : Kind} {s : Bytes} (h : Constant.parseRef kind text = .ok (.string s)) : kind = .string := by
  unfold Constant.parseRef at h
  split at h
  · split at h
    · exact (kind_of_parse h).1.symm
    · obtain ⟨⟨kind', i⟩, -, h⟩ := Action.except_bind_eq_ok.1 h
      dsimp only at h
      split at h <;> cases h
  · exact (kind_of_parse h).1.symm

/-- Where the kind is `string`, a text that begins with a quote is parsed as a string. -/
theorem string_of_parseRef {r : Bytes} {k : Constant} (h : Constant.parseRef .string (0x22 :: r) = .ok k) :
    ∃ s, k = .string s := by
  have parsed : Constant.parse .string (0x22 :: r) = .ok k := by
    unfold Constant.parseRef at h
    split at h
    · next before after cut =>
      -- What stands before an `@` begins with the quote.
      rw [Bytes.cut, if_neg (by decide)] at cut
      obtain ⟨⟨before, after⟩, -, e⟩ := Option.map_eq_some_iff.1 cut
      cases e
      exact h
    · exact h
  obtain ⟨kind, not_raw⟩ := kind_of_parse parsed
  cases k with
  | string s => exact ⟨s, rfl⟩
  | raw l i => exact absurd rfl (not_raw l i)
  | _ => cases kind

theorem not_parseRef_nil {kind : Kind} {k : Constant} : Constant.parseRef kind [] ≠ .ok k := by
  intro h
  have empty : Constant.parse kind [] = .ok k := h
  cases kind <;> cases empty

theorem Recovers.begins {kind : Kind} {k : Constant} (h : Recovers kind k) : ∃ b r, k.text = b :: r ∧ isSpace b = false := by
  obtain ⟨b, r, front⟩ : ∃ b r, k.text = b :: r :=
    List.exists_cons_of_ne_nil fun absent => not_parseRef_nil (absent ▸ h.back)
  refine ⟨b, r, front, ?_⟩
  by_cases string : ∃ s, k = .string s
  · obtain ⟨v, rfl⟩ := string
    obtain rfl : 0x22 = b := (List.cons.inj front).1
    decide
  · exact isSpace_of_word (h.whole (fun v e => string ⟨v, e⟩) b (by simp [front]))

theorem Recovers.front {kind : Kind} {k : Constant} (h : Recovers kind k) : ∀ b ∈ (k.text ++ rest).head?, isSpace b = false := by
  obtain ⟨b, r, front, black⟩ := h.begins
  intro c hc
  rw [front] at hc
  obtain rfl := Option.some.inj (show some b = some c from hc)
  exact black

theorem takes_readRef {kind : Kind} {k : Constant} (h : Recovers kind k) (hr : Closed rest) :
    Takes (readRef kind) (k.text ++ rest) rest (· = k) := by
  have understood : ∀ pos, Takes (orComplain pos (.invalid kind.name k.text) (Constant.parseRef kind k.text)) rest rest (· = k) := by
    intro pos
    rw [h.back]
    exact .pure rfl
  unfold readRef
  refine .bind (takes_noBlanks h.front) fun _ _ => .bind takes_position fun pos _ => .get_bind fun s hs => ?_
  obtain ⟨b, r, front, -⟩ := h.begins
  have peek : s.peek = b := by rw [hs.peek, front]; rfl
  by_cases string : ∃ s, k = .string s
  · obtain ⟨v, rfl⟩ := string
    rw [if_pos ⟨kind_of_parseRef h.back, peek.trans (List.cons.inj front).1.symm⟩]
    refine .bind (takes_quoted (inside_quote v) (.inl rfl)) ?_
    rintro _ rfl
    exact understood pos
  · have bare : ¬ (kind = .string ∧ s.peek = 0x22) := by
      rintro ⟨rfl, quote⟩
      have back := h.back
      rw [front, show b = 0x22 from peek.symm.trans quote] at back
      exact string (string_of_parseRef back)
    rw [if_neg bare]
    refine .bind (takes_token (h.whole fun v e => string ⟨v, e⟩) hr) ?_
    rintro _ rfl
    exact understood pos

end Dalvik.Assembly
