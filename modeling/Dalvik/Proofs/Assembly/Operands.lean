import Dalvik.Assembly.Parser
import Dalvik.Proofs.Assembly.Scanner
import Dalvik.Proofs.Numeral

/-!
# Operands

The text of a label, a register, a literal, a constant or a register list is read back. A range is
printed as its first and its last register, so it is read back if its registers are consecutive and
of one kind (`takes_readRegisters`); a range from a local to a parameter register is refused.
-/

namespace Dalvik.Assembly

open Reading Scanner

variable {text rest word : Bytes}

/-! ## Tokens -/

theorem word_append {a b : Bytes} (ha : Word a) (hb : Word b) : Word (a ++ b) := by
  intro c hc
  rcases List.mem_append.1 hc with hc | hc
  · exact ha c hc
  · exact hb c hc

/-- `sp` consists of blanks of a line. -/
def Blank (sp : Bytes) : Prop := ∀ b ∈ sp, isSpace b = true

instance : DecidablePred Blank := fun sp => List.decidableBAll _ sp

theorem blank_nil : Blank [] := fun _ hb => absurd hb List.not_mem_nil

theorem takes_skipBlanks {sp : Bytes} (hsp : Blank sp) (h : ∀ b ∈ text.head?, isSpace b = false) :
    Takes skipSpaces (sp ++ text) text fun _ => True := by
  have left : (sp ++ text).dropWhile isSpace = text := by
    rw [List.dropWhile_append_of_pos hsp]
    cases text with
    | nil => rfl
    | cons b r => exact List.dropWhile_cons_of_neg (by simp [h b rfl])
  have skipped : Takes skipSpaces (sp ++ text) ((sp ++ text).dropWhile isSpace) fun _ => True := takes_skipSpaces
  rwa [left] at skipped

theorem takes_toMark {sp : Bytes} {b : UInt8} (hsp : Blank sp) (first : text.head? = some b) (black : isSpace b = false) :
    Takes skipSpaces (sp ++ text) text fun _ => True := by
  refine takes_skipBlanks hsp fun c hc => ?_
  obtain rfl := Option.some.inj (first.symm.trans hc)
  exact black

theorem takes_noBlanks (h : ∀ b ∈ text.head?, isSpace b = false) : Takes skipSpaces text text fun _ => True :=
  takes_skipBlanks blank_nil h

theorem isSpace_of_word {b : UInt8} (h : isDelimiter b = false) : isSpace b = false := by
  rw [← Bool.not_eq_true]
  intro space
  rw [isDelimiter_of_isSpace space] at h
  cases h

theorem front_cons {b : UInt8} (black : isSpace b = false) : ∀ c ∈ (b :: rest).head?, isSpace c = false := by
  intro c hc
  obtain rfl := Option.some.inj hc
  exact black

theorem head_word (hw : Word word) (nonempty : word ≠ []) : ∀ b ∈ (word ++ rest).head?, isSpace b = false := by
  obtain ⟨b, r, rfl⟩ := List.exists_cons_of_ne_nil nonempty
  exact front_cons (isSpace_of_word (hw b List.mem_cons_self))

theorem takes_tokenAt {sp : Bytes} (hsp : Blank sp) (hw : Word word) (nonempty : word ≠ []) (hr : Closed rest) :
    Takes tokenAt (sp ++ (word ++ rest)) rest (·.2 = word) := by
  unfold tokenAt
  refine .bind (takes_skipBlanks hsp (head_word hw nonempty)) fun _ _ => .bind takes_position fun pos _ => ?_
  refine .bind (takes_token hw hr) ?_
  rintro _ rfl
  exact .pure rfl

theorem word_digits {base n : Nat} (two : 1 < base) (sixteen : base ≤ 16) : Word (digits base n) := by
  have all : ∀ d < 16, isDelimiter (digitByte d) = false := by decide
  intro b hb
  obtain ⟨d, small, rfl⟩ := mem_digits two hb
  exact all d (by omega)

/-! ## Labels -/

/-- `name` is a non-empty token, so a label can have it. -/
structure NamesLabel (name : Bytes) : Prop where
  word : Word name
  ne_nil : name ≠ []

theorem takes_readLabel {sp name : Bytes} (hsp : Blank sp) (h : NamesLabel name) (hr : Closed rest) :
    Takes readLabel (sp ++ (byte ':' :: name ++ rest)) rest (· = name) := by
  have long : ¬ ((byte ':' :: name).length < 2 ∨ (byte ':' :: name).head? ≠ some (byte ':')) := by
    have := List.length_pos_iff.2 h.ne_nil
    simp only [List.length_cons, List.head?_cons, ne_eq, not_true_eq_false, or_false]
    omega
  have word : Word (byte ':' :: name) := by
    intro b hb
    rcases List.mem_cons.1 hb with rfl | hb
    · decide
    · exact h.word b hb
  unfold readLabel
  refine .bind (takes_tokenAt hsp word (List.cons_ne_nil _ _) hr) ?_
  rintro ⟨pos, _⟩ rfl
  simp only [long, if_false]
  exact .pure rfl

/-! ## Numbers -/

theorem word_literal {kind : LiteralKind} (whole : Literal.IsWhole kind) (n : Int) : Word (Literal.ofSigned kind n).text := by
  rw [Literal.text_ofSigned whole]
  refine word_append ?_ (word_append (by decide) (word_append (word_digits (by decide) le_rfl) ?_))
  · split <;> decide
  · rcases whole with rfl | rfl | rfl | rfl <;> decide

theorem decimal_eq (n : Nat) : decimal n = digits 10 n := by simp [decimal, signed]

theorem word_decimal (n : Nat) : Word (decimal n) := decimal_eq n ▸ word_digits (by decide) (by decide)

theorem decimal_ne_nil (n : Nat) : decimal n ≠ [] := decimal_eq n ▸ digits_ne_nil 10 n

theorem takes_readInt {sp : Bytes} {n : Nat} (hsp : Blank sp) (small : n < twoPow 31) (hr : Closed rest) :
    Takes readInt (sp ++ (decimal n ++ rest)) rest (· = n) := by
  have value : (Literal.int n).toInt = n := by
    have low : -(twoPow 31 : Int) ≤ n := by omega
    have high : (n : Int) < twoPow 31 := by omega
    rw [Literal.toInt, Literal.int, Literal.toLong_ofSigned (.inl rfl),
      Literal.signExtend_of_bounds (by decide : 0 < LiteralKind.int.width) low high]
    exact Literal.signExtend_of_bounds (by decide : 0 < 32) low high
  unfold readInt
  refine .bind (takes_tokenAt hsp (word_decimal n) (decimal_ne_nil n) hr) ?_
  rintro ⟨pos, _⟩ rfl
  simp only [orComplain, Literal.parseNumber_decimal small]
  exact .bind (.pure (P := (· = Literal.int n)) rfl) fun _ e => e ▸ .pure value

/-- `literal` takes a token that does not begin with a quote. -/
theorem takes_literal {b : UInt8} {r : Bytes} (hw : Word (b :: r)) (bare : b ≠ 0x22 ∧ b ≠ 0x27) (hr : Closed rest) :
    Takes literal (b :: r ++ rest) rest (· = b :: r) := by
  unfold literal
  refine .get_bind fun s hs => ?_
  have peek : s.peek = b := hs.peek
  have quoteless : (b == 0x22 || b == 0x27) = false := by simp [bare.1, bare.2]
  simp only [peek, quoteless, Bool.false_eq_true, if_false]
  refine .bind (takes_token hw hr) ?_
  rintro _ rfl
  exact .pure rfl

/-- `readLiteral` of the text of a whole number gives the literal. -/
theorem takes_readLiteral {sp : Bytes} {kind : LiteralKind} (whole : Literal.IsWhole kind) (n : Int) (hsp : Blank sp)
    (hr : Closed rest) :
    Takes readLiteral (sp ++ ((Literal.ofSigned kind n).text ++ rest)) rest (· = Literal.ofSigned kind n) := by
  have word := word_literal whole n
  have parsed := Literal.parse_text whole n
  obtain ⟨b, r, begins, front⟩ := Literal.text_begins whole n
  rw [begins] at word parsed ⊢
  have bare : b ≠ 0x22 ∧ b ≠ 0x27 := by rcases front with rfl | rfl <;> decide
  unfold readLiteral
  refine .bind (takes_skipBlanks hsp (head_word word (List.cons_ne_nil b r))) fun _ _ => ?_
  refine .bind takes_position fun pos _ => .bind (takes_literal word bare hr) ?_
  rintro _ rfl
  simp only [orComplain, parsed]
  exact .pure rfl

/-! ## Registers -/

namespace Register

/-- The number of the register is a 16-bit number. -/
structure Readable (r : Register) : Prop where
  low : 0 ≤ r.number
  high : r.number < twoPow 16

namespace Readable

variable {r : Register} (h : r.Readable)
include h

theorem text_eq : r.text = byte (if r.isParam then 'p' else 'v') :: digits 10 r.number.toNat := by
  have sign : ¬ r.number < 0 := by have := h.low; omega
  have same : r.number.natAbs = r.number.toNat := by have := h.low; omega
  rw [text, decimal, signed, if_neg sign, same]
  split <;> rfl

theorem word_text : Word r.text := by
  rw [h.text_eq]
  refine word_append (a := [_]) ?_ (word_digits (by decide) (by decide))
  split <;> decide

theorem text_ne_nil : r.text ≠ [] := by simp [h.text_eq]

theorem takes_registerOf (pos : Nat) : Takes (registerOf pos r.text) text text (· = r) := by
  have letter : ¬ (byte (if r.isParam then 'p' else 'v') ≠ byte 'v' ∧ byte (if r.isParam then 'p' else 'v') ≠ byte 'p') := by
    split <;> decide
  have small : r.number.toNat < twoPow 16 := by have := h.low; have := h.high; omega
  have value := Literal.unsigned?_digits (by decide : 1 < 10) (by decide) small
  have number : (r.number.toNat : Int) = r.number := Int.toNat_of_nonneg h.low
  have kind : (byte (if r.isParam then 'p' else 'v') == byte 'p') = r.isParam := by cases r.isParam <;> rfl
  simp only [h.text_eq, registerOf, letter, if_false, value, number, kind]
  exact .pure rfl

theorem takes_readRegister {sp : Bytes} (hsp : Blank sp) (hr : Closed rest) :
    Takes readRegister (sp ++ (r.text ++ rest)) rest (· = r) := by
  unfold readRegister
  refine .bind (takes_tokenAt hsp h.word_text h.text_ne_nil hr) ?_
  rintro ⟨pos, _⟩ rfl
  exact h.takes_registerOf pos

end Readable

end Register

/-! ## Lists -/

/-- The operands in a row, with a comma before each but the first; `more` says that there are some before. -/
def listed (more : Bool) : List Bytes → Bytes
  | [] => []
  | x :: xs => (if more then ascii ", " else []) ++ (x ++ listed true xs)

theorem listed_append (more : Bool) (xs ys : List Bytes) :
    listed more (xs ++ ys) = listed more xs ++ listed (more || !xs.isEmpty) ys := by
  induction xs generalizing more with
  | nil => simp [listed]
  | cons x xs ih => simp [listed, ih]

theorem join_eq_listed (xs : List Bytes) : Bytes.join (ascii ", ") xs = listed false xs := by
  have more : ∀ (x : Bytes) (xs : List Bytes), (ascii ", ").intercalate (x :: xs) = x ++ listed true xs := by
    intro x xs
    induction xs generalizing x with
    | nil => simp [listed]
    | cons y ys ih => simp [List.intercalate_cons_cons, ih, listed]
  cases xs with
  | nil => rfl
  | cons x xs => simp [Bytes.join, more, listed]

theorem length_le_listed (xs : List Bytes) : xs.length ≤ (listed true xs).length := by
  induction xs with
  | nil => rfl
  | cons x xs ih =>
    simp [listed, ascii]
    omega

theorem closed_listed {xs : List Bytes} (hr : Closed rest) : Closed (listed true xs ++ rest) := by
  cases xs with
  | nil => exact hr
  | cons x xs => exact closed_cons (by decide)

theorem takes_toComma : Takes skipSpaces (ascii ", " ++ text) (ascii "," ++ (ascii " " ++ text)) fun _ => True :=
  takes_toMark blank_nil rfl (by decide)

theorem takes_expectComma (h : ∀ b ∈ text.head?, isSpace b = false) :
    Takes expectComma (ascii ", " ++ text) text fun _ => True := by
  unfold expectComma
  refine .bind takes_toComma fun _ _ => .bind takes_accept ?_
  rintro _ rfl
  exact takes_skipBlanks (by decide) h

theorem takes_fixedRegisters {rs before : List Register} (hrs : ∀ r ∈ rs, r.Readable) (hr : Closed rest) :
    Takes (fixedRegisters rs.length before) (listed (!before.isEmpty) (rs.map Register.text) ++ rest) rest
      (· = before.reverse ++ rs) := by
  induction rs generalizing before with
  | nil => exact .pure (by simp)
  | cons r rs ih =>
    obtain ⟨readable, others⟩ := List.forall_mem_cons.1 hrs
    have readOthers : Takes (fixedRegisters rs.length (r :: before)) (listed true (rs.map Register.text) ++ rest) rest
        (· = before.reverse ++ r :: rs) := by
      simpa using @ih (r :: before) others
    have next : Closed (listed true (rs.map Register.text) ++ rest) := closed_listed hr
    have one : Takes readRegister (r.text ++ (listed true (rs.map Register.text) ++ rest))
        (listed true (rs.map Register.text) ++ rest) (· = r) :=
      readable.takes_readRegister blank_nil next
    rw [List.map_cons, listed, List.append_assoc, List.append_assoc, List.length_cons, fixedRegisters]
    cases before with
    | nil =>
      refine .bind one ?_
      rintro _ rfl
      exact readOthers
    | cons b bs =>
      refine .bind (takes_expectComma (head_word readable.word_text readable.text_ne_nil)) fun _ _ => .bind one ?_
      rintro _ rfl
      exact readOthers

/-! ## Registers between braces -/

theorem takes_rounds : Takes rounds text text (text.length < ·) := by
  unfold rounds
  refine .get_bind fun s hs => .pure ?_
  have length := hs.length
  omega

theorem takes_toBrace : Takes skipSpaces (0x7d :: rest) (closeBrace ++ rest) fun _ => True :=
  takes_toMark blank_nil rfl (by decide)

theorem takes_registersFuel {n : Nat} {r : Register} {rs before : List Register} (hrs : ∀ x ∈ r :: rs, x.Readable)
    (enough : rs.length < n) :
    Takes (registersFuel n before) (r.text ++ (listed true (rs.map Register.text) ++ 0x7d :: rest)) rest
      (· = before.reverse ++ r :: rs) := by
  induction rs generalizing n r before with
  | nil =>
    obtain ⟨n, rfl⟩ : ∃ m, n = m + 1 := ⟨n - 1, by omega⟩
    have readable := hrs r List.mem_cons_self
    rw [registersFuel]
    refine .bind (readable.takes_readRegister blank_nil (closed_cons (by decide))) ?_
    rintro _ rfl
    refine .bind takes_toBrace fun _ _ => .bind takes_accept ?_
    rintro _ rfl
    exact .pure (by simp)
  | cons r' rs ih =>
    obtain ⟨n, rfl⟩ : ∃ m, n = m + 1 := ⟨n - 1, by simp at enough; omega⟩
    obtain ⟨readable, others⟩ := List.forall_mem_cons.1 hrs
    have readable' := others r' List.mem_cons_self
    have fewer : rs.length < n := by
      simp at enough
      omega
    have readOthers : Takes (registersFuel n (r :: before)) (r'.text ++ (listed true (rs.map Register.text) ++ 0x7d :: rest)) rest
        (· = (r :: before).reverse ++ r' :: rs) := ih others fewer
    have next : Closed (listed true ((r' :: rs).map Register.text) ++ 0x7d :: rest) := closed_listed (closed_cons (by decide))
    rw [registersFuel]
    refine .bind (readable.takes_readRegister blank_nil next) ?_
    rintro _ rfl
    rw [List.map_cons, listed, List.append_assoc, List.append_assoc]
    refine .bind takes_toComma fun _ _ => .bind (takes_accept_of_not rfl) ?_
    rintro _ rfl
    refine .bind takes_accept ?_
    rintro _ rfl
    refine .bind (takes_skipBlanks (by decide) (head_word readable'.word_text readable'.text_ne_nil)) fun _ _ => ?_
    simpa using readOthers

/-- The registers are of one kind and have consecutive numbers. -/
def IsRun (rs : List Register) : Prop :=
  ∃ (first : Int) (isParam : Bool) (n : Nat), rs = (List.range n).map fun (i : Nat) => ⟨first + i, isParam⟩

theorem cutAt_eq_none {b : UInt8} {sep s : Bytes} (h : b ∉ s) : Bytes.cutAt (b :: sep) s = none := by
  induction s with
  | nil => rfl
  | cons c s ih =>
    obtain ⟨ne, mem⟩ := not_or.1 (mt List.mem_cons.2 h)
    have apart : (b :: sep).isPrefixOf (c :: s) = false := by
      simp [List.isPrefixOf_cons_cons, ne]
    rw [Bytes.cutAt, apart, ih mem]
    rfl

theorem takes_registerRange {first last : Register} (hf : first.Readable) (hl : last.Readable) (kind : first.isParam = last.isParam)
    (le : first.number ≤ last.number) :
    Takes registerRange (first.text ++ (ascii " .. " ++ (last.text ++ 0x7d :: rest))) rest
      (· = (List.range (last.number - first.number + 1).toNat).map fun (i : Nat) => ⟨first.number + i, first.isParam⟩) := by
  have dot : byte '.' ∉ first.text := by
    have absent : ∀ d < 16, digitByte d ≠ byte '.' := by decide
    intro mem
    rw [hf.text_eq] at mem
    rcases List.mem_cons.1 mem with e | mem
    · split at e <;> exact absurd e (by decide)
    · obtain ⟨d, small, e⟩ := mem_digits (by decide) mem
      exact absent d (by omega) e.symm
  have ends : ¬ (first.isParam ≠ last.isParam ∨ last.number < first.number) := by
    rw [kind]
    simp
    omega
  unfold registerRange
  refine .bind takes_position fun pos _ => .bind (takes_token hf.word_text (closed_cons (by decide))) ?_
  rintro _ rfl
  simp only [show Bytes.cutAt (ascii "..") first.text = none from cutAt_eq_none dot]
  have dots : Takes skipSpaces (ascii " .. " ++ (last.text ++ 0x7d :: rest)) (ascii ".." ++ (ascii " " ++ (last.text ++ 0x7d :: rest)))
      fun _ => True :=
    takes_toMark (by decide : Blank (ascii " ")) rfl (by decide)
  refine .bind dots fun _ _ => .bind (takes_expect rfl (by decide)) fun _ _ => ?_
  refine .bind (takes_skipBlanks (by decide) (head_word hl.word_text hl.text_ne_nil)) fun _ _ => ?_
  refine .bind (takes_token hl.word_text (closed_cons (by decide))) ?_
  rintro _ rfl
  refine .bind (.pure rfl) ?_
  rintro _ rfl
  refine .bind (hf.takes_registerOf pos) ?_
  rintro _ rfl
  refine .bind (hl.takes_registerOf pos) ?_
  rintro _ rfl
  simp only [ends, if_false]
  refine .bind takes_toBrace fun _ _ => .bind takes_accept ?_
  rintro _ rfl
  exact .pure rfl

theorem IsRun.ends {rs : List Register} {first last : Register} (run : IsRun rs) (hf : rs.head? = some first)
    (hl : rs.getLast? = some last) : first.isParam = last.isParam ∧ first.number ≤ last.number ∧
      (List.range (last.number - first.number + 1).toNat).map (fun (i : Nat) => (⟨first.number + i, first.isParam⟩ : Register)) = rs := by
  obtain ⟨a, kind, n, rfl⟩ := run
  obtain ⟨n, rfl⟩ : ∃ m, n = m + 1 := by
    cases n with
    | zero => cases hf
    | succ n => exact ⟨n, rfl⟩
  have front : first = ⟨a, kind⟩ := by
    rw [List.range_succ_eq_map, List.map_cons, List.head?_cons] at hf
    simpa using (Option.some.inj hf).symm
  have back : last = ⟨a + n, kind⟩ := by
    rw [List.range_succ, List.map_append, List.map_singleton, List.getLast?_concat] at hl
    exact (Option.some.inj hl).symm
  have count : (a + (n : Int) - a + 1).toNat = n + 1 := by omega
  rw [front, back]
  exact ⟨rfl, by simp, by rw [count]⟩

theorem registerList_nil {i : Instruction} (absent : i.registers = []) : i.registerList = openBrace ++ closeBrace := by
  rw [Instruction.registerList, absent]
  rfl

theorem registerList_range {i : Instruction} {first last : Register} (hf : i.registers.head? = some first)
    (hl : i.registers.getLast? = some last) (range : i.opcode.format.isRange = true) :
    i.registerList = openBrace ++ (first.text ++ (ascii " .. " ++ (last.text ++ closeBrace))) := by
  rw [Instruction.registerList, hf, hl]
  simp [range, braces, openBrace, closeBrace]

theorem registerList_cons {i : Instruction} {r : Register} {rs : List Register} (present : i.registers = r :: rs)
    (range : i.opcode.format.isRange = false) :
    i.registerList = openBrace ++ (r.text ++ (listed true (rs.map Register.text) ++ closeBrace)) := by
  have last : (r :: rs).getLast? = some ((r :: rs).getLast (List.cons_ne_nil r rs)) := List.getLast?_eq_some_getLast _
  rw [Instruction.registerList, present, last, List.head?_cons]
  simp [range, braces, openBrace, closeBrace, join_eq_listed, listed]

/-- `readRegisters` of a list that begins with a register reads a range or a list of registers. -/
theorem takes_readRegisters_of {range : Bool} {r : Register} {inner : Bytes} {P : List Register → Prop} (hr : r.Readable)
    (h : Takes (if range then registerRange else do registersFuel (← rounds) []) (r.text ++ inner) rest P) :
    Takes (readRegisters range) (openBrace ++ (r.text ++ inner)) rest P := by
  have other : closeBrace.isPrefixOf (r.text ++ inner) = false := by
    rw [hr.text_eq]
    split <;> rfl
  unfold readRegisters
  refine .bind takes_accept ?_
  rintro _ rfl
  refine .bind (takes_noBlanks (head_word hr.word_text hr.text_ne_nil)) fun _ _ => ?_
  refine .bind (takes_accept_of_not other) ?_
  rintro _ rfl
  exact h

/-- `readRegisters` reads the register list of an instruction; in a range format the registers must be a run. -/
theorem takes_readRegisters {i : Instruction} (hrs : ∀ r ∈ i.registers, r.Readable)
    (run : i.opcode.format.isRange = true → IsRun i.registers) :
    Takes (readRegisters i.opcode.format.isRange) (i.registerList ++ rest) rest (· = i.registers) := by
  cases registers : i.registers with
  | nil =>
    rw [registerList_nil registers, List.append_assoc]
    unfold readRegisters
    refine .bind takes_accept ?_
    rintro _ rfl
    refine .bind takes_toBrace fun _ _ => .bind takes_accept ?_
    rintro _ rfl
    exact .pure rfl
  | cons r rs =>
    rw [registers] at hrs
    have readable := hrs r List.mem_cons_self
    cases range : i.opcode.format.isRange with
    | true =>
      have last : (r :: rs).getLast? = some ((r :: rs).getLast (List.cons_ne_nil r rs)) := List.getLast?_eq_some_getLast _
      have readable' := hrs _ (List.getLast_mem (List.cons_ne_nil r rs))
      obtain ⟨kind, le, whole⟩ := (registers ▸ run range).ends (List.head?_cons) last
      have taken := @takes_registerRange rest _ _ readable readable' kind le
      rw [whole] at taken
      rw [registerList_range (by rw [registers]; rfl) (by rw [registers]; exact last) range]
      simp only [List.append_assoc]
      exact takes_readRegisters_of readable taken
    | false =>
      rw [registerList_cons registers range]
      simp only [List.append_assoc]
      refine takes_readRegisters_of readable (.bind takes_rounds fun n enough => ?_)
      refine takes_registersFuel hrs ?_
      have commas := length_le_listed (rs.map Register.text)
      simp at enough commas
      omega

end Dalvik.Assembly
