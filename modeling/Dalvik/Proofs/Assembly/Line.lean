import Dalvik.Proofs.Assembly.Quoted
import Dalvik.Proofs.Instruction
import Dalvik.Proofs.Opcode

/-!
# Lines

`readInstruction` reads the line of a `Readable` instruction back as the instruction, up to its
position and comment (`takes_readInstruction`); the same holds for labels and for the lines of
exception ranges.

`Lines ls text` says that `text` holds the lines `ls`, each with blanks before it and perhaps a
comment behind, empty lines in between, and nothing else. What a writer prints has this form
(`Writer.wrote_lines`).
-/

namespace Dalvik.Assembly

open Reading Scanner

variable {text rest left : Bytes}

namespace Instruction

/-- The instruction without its position and comment. -/
def bare (i : Instruction) : Instruction := { i with origin := {}, comment := [] }

/-- The line of the instruction without its comment. -/
def line (i : Instruction) : Bytes :=
  i.opcode.name ++ if i.operands.isEmpty then [] else ascii " " ++ Bytes.join (ascii ", ") i.operands

/-- The instruction has exactly the operands of its format, and each of them can be read back. -/
structure Readable (i : Instruction) : Prop where
  mem : i.opcode ∈ Opcode.instructions
  registers : ∀ r ∈ i.registers, r.Readable
  count : i.opcode.format.isVariadic = false → i.registers.length = i.opcode.format.registerBits.length
  run : i.opcode.format.isRange = true → IsRun i.registers
  label : extraOf i.opcode.format = .label → NamesLabel i.label
  unlabelled : extraOf i.opcode.format ≠ .label → i.label = []
  literal : extraOf i.opcode.format = .literal → ∃ kind n, Literal.IsWhole kind ∧ i.literal = .ofSigned kind n
  unvalued : extraOf i.opcode.format ≠ .literal → i.literal = .int 0
  ref : ∀ kind ∈ i.opcode.ref, ∃ k, i.ref = some k ∧ Recovers kind k
  no_ref : i.opcode.ref = none → i.ref = none
  ref2 : ∀ kind ∈ i.opcode.ref2, ∃ k, i.ref2 = some k ∧ Recovers kind k
  no_ref2 : i.opcode.ref2 = none → i.ref2 = none

namespace Readable

variable {i : Instruction} (h : i.Readable)
include h

theorem word_name : Word i.opcode.name := by
  intro b hb
  have bounds := List.all_eq_true.1 (Opcode.name_bytes _ h.mem).2 b hb
  have marks : ∀ b : UInt8, (Nat.ble 45 b.toNat && Nat.ble b.toNat 122) = true → isDelimiter b = false :=
    Literal.forall_byte (by decide +kernel)
  exact marks b bounds

theorem ofName?_name : Opcode.ofName? i.opcode.name = some i.opcode :=
  Opcode.ofName?_name (List.mem_append_left _ h.mem)

theorem ref_eq (variadic : i.opcode.format.isVariadic = true ∨ extraOf i.opcode.format = .ref) :
    ∃ kind k, i.opcode.ref = some kind ∧ i.ref = some k ∧ Recovers kind k := by
  have entries := (Opcode.reference_entries _ h.mem).1
  have present : i.opcode.ref.isSome := by
    rw [entries, Bool.or_eq_true, decide_eq_true_eq]
    exact variadic
  obtain ⟨kind, hkind⟩ := Option.isSome_iff_exists.1 present
  obtain ⟨k, ref, recovers⟩ := h.ref kind hkind
  exact ⟨kind, k, hkind, ref, recovers⟩

/-- `variadicOperands` reads a register list, the constant and the second constant, if there is one. -/
theorem takes_variadicOperands (variadic : i.opcode.format.isVariadic = true) (hr : Closed rest) (origin : Origin) :
    Takes (variadicOperands { origin, opcode := i.opcode }) (listed false i.operands ++ rest) rest (fun j => j.bare = i.bare) := by
  obtain ⟨kind, k, hkind, ref, recovers⟩ := h.ref_eq (.inl variadic)
  have second := (Opcode.reference_entries _ h.mem).2.1
  have extra : extraOf i.opcode.format = .none := by
    revert variadic
    cases i.opcode.format <;> simp [Format.isVariadic, extraOf]
  have unlabelled := h.unlabelled (by simp [extra])
  have unvalued := h.unvalued (by simp [extra])
  unfold variadicOperands
  cases ref2 : i.opcode.ref2 with
  | none =>
    have single : ¬ (i.opcode.format = .f45cc ∨ i.opcode.format = .f4rcc) := by
      rw [ref2] at second
      simpa using second
    have operands : i.operands = [i.registerList, k.text] := by
      simp [Instruction.operands, variadic, single, ref, refText]
    simp only [operands, listed, List.append_assoc, List.nil_append, Bool.false_eq_true, if_false, if_true]
    refine .bind (takes_readRegisters h.registers h.run) ?_
    rintro _ rfl
    refine .bind (takes_expectComma recovers.front) fun _ _ => ?_
    rw [hkind, Option.getD_some]
    refine .bind (takes_readRef recovers hr) ?_
    rintro _ rfl
    refine .pure ?_
    simp [bare, unlabelled, unvalued, ref, h.no_ref2 ref2]
  | some kind2 =>
    have double : i.opcode.format = .f45cc ∨ i.opcode.format = .f4rcc := by
      rw [ref2] at second
      simpa using second.symm
    obtain ⟨k2, reference, recovers2⟩ := h.ref2 kind2 ref2
    have operands : i.operands = [i.registerList, k.text, k2.text] := by
      simp [Instruction.operands, variadic, double, ref, reference, refText]
    simp only [operands, listed, List.append_assoc, List.nil_append, Bool.false_eq_true, if_false, if_true]
    refine .bind (takes_readRegisters h.registers h.run) ?_
    rintro _ rfl
    refine .bind (takes_expectComma recovers.front) fun _ _ => ?_
    rw [hkind, Option.getD_some]
    refine .bind (takes_readRef recovers (closed_cons (by decide))) ?_
    rintro _ rfl
    refine .bind (takes_expectComma recovers2.front) fun _ _ => .bind (takes_readRef recovers2 hr) ?_
    rintro _ rfl
    refine .pure ?_
    simp [bare, unlabelled, unvalued, ref, reference]

theorem takes_registers (fixed : i.opcode.format.isVariadic = false) (hr : Closed rest) :
    Takes (fixedRegisters i.opcode.format.registerBits.length []) (listed false (i.registers.map Register.text) ++ rest) rest
      (· = i.registers) := by
  rw [← h.count fixed]
  exact takes_fixedRegisters h.registers hr

/-- Formats that have a literal or a constant and are not variadic have registers too. -/
theorem isEmpty_registers (fixed : i.opcode.format.isVariadic = false)
    (extra : extraOf i.opcode.format = .literal ∨ extraOf i.opcode.format = .ref) : i.registers.isEmpty = false := by
  have bits := (Opcode.reference_entries _ h.mem).2.2 extra
  have count := h.count fixed
  rw [List.isEmpty_eq_false_iff, ← List.length_pos_iff, count]
  exact List.length_pos_iff.2 bits

omit h in
theorem operands_eq (fixed : i.opcode.format.isVariadic = false) :
    i.operands = i.registers.map Register.text ++ match extraOf i.opcode.format with
      | .none => []
      | .label => [byte ':' :: i.label]
      | .literal => [i.literal.text]
      | .ref => [refText i.ref] := by
  rw [Instruction.operands]
  exact if_neg (by simp [fixed])

/-- `fixedOperands` reads the registers, and the label, literal or constant of the format. -/
theorem takes_fixedOperands (fixed : i.opcode.format.isVariadic = false) (hr : Closed rest) (origin : Origin) :
    Takes (fixedOperands { origin, opcode := i.opcode }) (listed false i.operands ++ rest) rest (fun j => j.bare = i.bare) := by
  have entries := Opcode.reference_entries _ h.mem
  have no_ref2 : i.ref2 = none := by
    refine h.no_ref2 (Option.not_isSome_iff_eq_none.1 ?_)
    rw [entries.2.1, decide_eq_true_eq]
    rintro (e | e) <;> rw [e] at fixed <;> cases fixed
  have no_ref (other : extraOf i.opcode.format ≠ .ref) : i.ref = none := by
    refine h.no_ref (Option.not_isSome_iff_eq_none.1 ?_)
    rw [entries.1, fixed, Bool.false_or, decide_eq_true_eq]
    exact other
  have nonempty := h.isEmpty_registers fixed
  unfold fixedOperands
  rw [operands_eq fixed, listed_append]
  cases extra : extraOf i.opcode.format with
  | none =>
    simp only [listed, List.append_nil]
    refine .bind (h.takes_registers fixed hr) ?_
    rintro _ rfl
    simp only [extra]
    refine .pure ?_
    simp [bare, h.unlabelled (by simp [extra]), h.unvalued (by simp [extra]), no_ref (by simp [extra]), no_ref2]
  | label =>
    have name := h.label extra
    have same : bare { origin, opcode := i.opcode, registers := i.registers, label := i.label } = i.bare := by
      simp [bare, h.unvalued (by simp [extra]), no_ref (by simp [extra]), no_ref2]
    by_cases absent : i.registers = []
    · have bits : i.opcode.format.registerBits.length = 0 := by rw [← h.count fixed, absent]; rfl
      rw [absent] at same
      simp only [bits, absent, List.map_nil, listed, List.isEmpty_nil, Bool.not_true, Bool.or_false, Bool.false_eq_true, if_false,
        List.nil_append, List.append_nil]
      refine .bind (.pure rfl) ?_
      rintro _ rfl
      simp only [extra, List.reverse_nil, List.isEmpty_nil, Bool.not_true, Bool.false_eq_true, if_false]
      refine .bind (takes_readLabel blank_nil name hr) ?_
      rintro _ rfl
      exact .pure same
    · have more : i.registers.isEmpty = false := List.isEmpty_eq_false_iff.2 absent
      simp only [List.isEmpty_map, more, Bool.not_false, Bool.or_true, listed, if_true, List.append_nil, List.append_assoc]
      refine .bind (h.takes_registers fixed (closed_cons (by decide))) ?_
      rintro _ rfl
      simp only [extra, more, Bool.not_false, if_true]
      refine .bind (takes_expectComma (front_cons (by decide))) fun _ _ => .bind (takes_readLabel blank_nil name hr) ?_
      rintro _ rfl
      exact .pure same
  | literal =>
    obtain ⟨kind, n, whole, literal⟩ := h.literal extra
    have same : bare { origin, opcode := i.opcode, registers := i.registers, literal := i.literal } = i.bare := by
      simp [bare, h.unlabelled (by simp [extra]), no_ref (by simp [extra]), no_ref2]
    rw [literal] at same
    simp only [List.isEmpty_map, nonempty (.inl extra), Bool.not_false, Bool.or_true, listed, if_true, List.append_nil, List.append_assoc,
      literal]
    refine .bind (h.takes_registers fixed (closed_cons (by decide))) ?_
    rintro _ rfl
    simp only [extra]
    refine .bind (takes_expectComma ?_) fun _ _ => .bind (takes_readLiteral whole n blank_nil hr) ?_
    · exact head_word (word_literal whole n) (by obtain ⟨b, r, e, -⟩ := Literal.text_begins whole n; simp [e])
    rintro _ rfl
    exact .pure same
  | ref =>
    obtain ⟨kind, k, hkind, ref, recovers⟩ := h.ref_eq (.inr extra)
    have same : bare { origin, opcode := i.opcode, registers := i.registers, ref := some k } = i.bare := by
      simp [bare, h.unlabelled (by simp [extra]), h.unvalued (by simp [extra]), ref, no_ref2]
    simp only [List.isEmpty_map, nonempty (.inr extra), Bool.not_false, Bool.or_true, listed, if_true, List.append_nil, List.append_assoc,
      ref, refText, Option.map_some, Option.getD_some]
    refine .bind (h.takes_registers fixed (closed_cons (by decide))) ?_
    rintro _ rfl
    simp only [extra, hkind, Option.getD_some]
    refine .bind (takes_expectComma recovers.front) fun _ _ => .bind (takes_readRef recovers hr) ?_
    rintro _ rfl
    exact .pure same

theorem front (nonempty : i.operands ≠ []) : ∀ b ∈ (listed false i.operands ++ rest).head?, isSpace b = false := by
  have begins : ∀ {x : Bytes} {xs : List Bytes}, i.operands = x :: xs → (∃ b r, x = b :: r ∧ isSpace b = false) →
      ∀ b ∈ (listed false i.operands ++ rest).head?, isSpace b = false := by
    rintro x xs operands ⟨b, r, rfl, black⟩
    rw [operands, listed, if_neg Bool.false_ne_true]
    exact front_cons black
  cases variadic : i.opcode.format.isVariadic with
  | true =>
    have opened : ∃ r, i.registerList = 0x7b :: r := by
      rw [Instruction.registerList]
      split
      · split <;> exact ⟨_, rfl⟩
      · exact ⟨_, rfl⟩
    obtain ⟨r, opened⟩ := opened
    exact begins (by rw [Instruction.operands, if_pos variadic]; rfl) ⟨_, r, opened, by decide⟩
  | false =>
    have operands := operands_eq variadic
    cases registers : i.registers with
    | cons r rs =>
      rw [registers] at operands
      have text := (h.registers r (by simp [registers])).text_eq
      exact begins operands ⟨_, _, text, by split <;> decide⟩
    | nil =>
      rw [registers] at operands
      cases extra : extraOf i.opcode.format with
      | none =>
        rw [extra] at operands
        exact absurd operands nonempty
      | label =>
        rw [extra] at operands
        exact begins operands ⟨_, _, rfl, by decide⟩
      | literal =>
        exact absurd (h.isEmpty_registers variadic (.inl extra)) (by simp [registers])
      | ref =>
        exact absurd (h.isEmpty_registers variadic (.inr extra)) (by simp [registers])

/-- `readInstruction` reads the line of a `Readable` instruction and gives the instruction, up to its position and
comment. -/
theorem takes_readInstruction (hr : Ended rest) : ∃ left, left.dropWhile isSpace = rest.dropWhile isSpace ∧
    Takes readInstruction (i.line ++ rest) left (fun j => j.bare = i.bare) := by
  have operands : ∀ origin, ∀ {rest : Bytes}, Closed rest → Takes
      (if i.opcode.format.isVariadic = true then variadicOperands { origin, opcode := i.opcode }
        else fixedOperands { origin, opcode := i.opcode })
      (listed false i.operands ++ rest) rest (fun j => j.bare = i.bare) := by
    intro origin rest hr
    cases variadic : i.opcode.format.isVariadic with
    | true => exact h.takes_variadicOperands variadic hr origin
    | false => exact h.takes_fixedOperands variadic hr origin
  have named : ∀ {text left : Bytes}, Closed text →
      (∀ origin, Takes (do
        skipSpaces
        if i.opcode.format.isVariadic = true then variadicOperands { origin, opcode := i.opcode }
        else fixedOperands { origin, opcode := i.opcode }) text left (fun j => j.bare = i.bare)) →
      Takes readInstruction (i.opcode.name ++ text) left (fun j => j.bare = i.bare) := by
    intro text left hr operands
    unfold readInstruction
    refine .bind takes_origin fun origin _ => .bind takes_position fun pos _ => .bind (takes_token h.word_name hr) ?_
    rintro _ rfl
    simp only [h.ofName?_name, Opcode.isPayload_of_mem _ h.mem, Bool.false_eq_true, if_false]
    refine .bind (.pure rfl) ?_
    rintro _ rfl
    exact operands origin
  rw [line]
  by_cases absent : i.operands = []
  · refine ⟨rest.dropWhile isSpace, List.dropWhile_idempotent _ _, ?_⟩
    rw [absent, List.isEmpty_nil, if_pos rfl, List.append_nil]
    refine named hr.closed fun origin => .bind takes_skipSpaces fun _ _ => ?_
    have bare := operands origin hr.dropWhile.closed
    rwa [absent] at bare
  · refine ⟨rest, rfl, ?_⟩
    rw [List.isEmpty_eq_false_iff.2 absent, if_neg Bool.false_ne_true, join_eq_listed]
    simp only [List.append_assoc]
    refine named (closed_cons (by decide)) fun origin => ?_
    exact .bind (takes_skipBlanks (by decide) (h.front absent)) fun _ _ => operands origin hr.closed

end Readable

end Instruction

/-! ## Labels -/

namespace Label

/-- The label without its position and comment. -/
def bare (l : Label) : Label := { l with origin := {}, comment := [] }

def line (l : Label) : Bytes := byte ':' :: l.name

theorem takes_readLabelLine {l : Label} (h : NamesLabel l.name) (hr : Closed rest) :
    Takes readLabelLine (l.line ++ rest) rest (fun k => k.bare = l.bare) := by
  unfold readLabelLine
  refine .bind takes_origin fun o _ => .bind (takes_readLabel blank_nil h hr) ?_
  rintro _ rfl
  exact .pure rfl

end Label

/-! ## Exception ranges -/

namespace CatchRange

/-- The exception range without its position. -/
def bare (c : CatchRange) : CatchRange := { c with origin := {} }

/-- The keyword and, unless it is a catch-all, the type. -/
def head (c : CatchRange) : Bytes :=
  if c.isCatchAll then Directive.catchAll.word else Directive.catchOne.word ++ (ascii " " ++ c.type.name)

/-- The two ends of the range between braces, and the handler. -/
def tail (c : CatchRange) : Bytes :=
  ascii " " ++ (openBrace ++ (byte ':' :: c.start ++ (ascii " .. " ++ (byte ':' :: c.stop ++ (closeBrace ++
    (ascii " " ++ (byte ':' :: c.handler)))))))

def line (c : CatchRange) : Bytes := c.head ++ c.tail

/-- The three labels have names that can be read, and the type is a valid descriptor. -/
structure Readable (c : CatchRange) : Prop where
  start : NamesLabel c.start
  stop : NamesLabel c.stop
  handler : NamesLabel c.handler
  type : c.isCatchAll = false → Descriptor.parse c.type.name = .ok c.type ∧ Word c.type.name

theorem takes_readType {d : Descriptor} (back : Descriptor.parse d.name = .ok d) (word : Word d.name) (nonempty : d.name ≠ [])
    (hr : Closed rest) : Takes readType (ascii " " ++ (d.name ++ rest)) rest (· = d) := by
  unfold readType
  refine .bind (takes_tokenAt (by decide) word nonempty hr) ?_
  rintro ⟨pos, _⟩ rfl
  simp only [back, orComplain]
  exact .pure rfl

theorem takes_readCatchType {c : CatchRange} (h : c.Readable) (hr : Closed rest) :
    Takes readCatchType (c.head ++ rest) rest (· = c.type) := by
  unfold readCatchType head
  refine .bind (Directive.takes_isNext _) ?_
  rintro _ rfl
  cases every : c.isCatchAll with
  | true =>
    have absent : c.type.name = [] := by simpa [isCatchAll, Descriptor.isZero] using every
    rw [if_pos rfl, Directive.begins_append hr, if_pos rfl]
    exact .bind takes_skip fun _ _ => .pure (congrArg Descriptor.mk absent.symm)
  | false =>
    have nonempty : c.type.name ≠ [] := by simpa [isCatchAll, Descriptor.isZero] using every
    obtain ⟨back, word⟩ := h.type every
    have other : begins Directive.catchAll.word (Directive.catchOne.word ++ (ascii " " ++ (c.type.name ++ rest))) = false := rfl
    simp only [Bool.false_eq_true, if_false, List.append_assoc, other]
    exact .bind (Directive.takes_expect (closed_cons (by decide))) fun _ _ => takes_readType back word nonempty hr

theorem takes_readCatchRange {c : CatchRange} (h : c.Readable) (hr : Closed rest) :
    Takes readCatchRange (c.line ++ rest) rest (fun d => d.bare = c.bare) := by
  unfold readCatchRange line tail
  simp only [List.append_assoc]
  refine .bind takes_origin fun o _ => .bind (takes_readCatchType h (closed_cons (by decide))) ?_
  rintro _ rfl
  refine .bind (takes_toMark (by decide) rfl (by decide)) fun _ _ => .bind takes_accept ?_
  rintro _ rfl
  refine .bind (takes_readLabel blank_nil h.start (closed_cons (by decide))) ?_
  rintro _ rfl
  have dots : ∀ {text : Bytes}, Takes skipSpaces (ascii " .. " ++ text) (ascii ".." ++ (ascii " " ++ text)) fun _ => True :=
    takes_toMark (by decide : Blank (ascii " ")) rfl (by decide)
  refine .bind dots fun _ _ => .bind (takes_expect rfl (by decide)) fun _ _ => ?_
  refine .bind (takes_readLabel (by decide) h.stop (closed_cons (by decide))) ?_
  rintro _ rfl
  refine .bind takes_toBrace fun _ _ => .bind takes_accept ?_
  rintro _ rfl
  refine .bind (takes_readLabel (by decide) h.handler hr) ?_
  rintro _ rfl
  exact .pure rfl

end CatchRange

end Dalvik.Assembly

/-! ## Layout -/

namespace Dalvik.Assembly

open Scanner

variable {l rest x y t : Bytes} {ls ms : List Bytes}

theorem isWhite_newline : ∀ b ∈ [newline], isWhite b = true := by
  intro b hb
  rw [List.mem_singleton.1 hb]
  rfl

/-- The end of a line: empty, or blanks and a comment. -/
inductive Trail : Bytes → Prop
  | nil : Trail []
  | comment (sp c : Bytes) (hsp : Blank sp) (hc : ∀ b ∈ c, b ≠ newline) : Trail (sp ++ byte '#' :: c)

theorem isWhite_of_blank {sp : Bytes} (h : Blank sp) : ∀ b ∈ sp, isWhite b = true := by
  intro b hb
  simp [isWhite, h b hb]

namespace Trail

theorem gap (h : Trail t) : Gap (t ++ [newline]) := by
  cases h with
  | nil => exact .blank [newline] isWhite_newline
  | comment sp c hsp hc =>
    have := Gap.comment sp c [] (isWhite_of_blank hsp) hc (.blank [] (by simp))
    simpa using this

theorem dropWhile (h : Trail t) : ∃ t', Trail t' ∧ (t ++ newline :: x).dropWhile isSpace = t' ++ newline :: x := by
  cases h with
  | nil => exact ⟨[], .nil, rfl⟩
  | comment sp c hsp hc =>
    refine ⟨byte '#' :: c, .comment [] c blank_nil hc, ?_⟩
    rw [List.append_assoc, List.dropWhile_append_of_pos hsp]
    rfl

theorem ended (h : Trail t) : Ended (t ++ newline :: x) := by
  cases h with
  | nil =>
    intro b hb
    exact .inl (Option.some.inj hb).symm
  | comment sp c hsp hc =>
    intro b hb
    rw [List.append_assoc, List.dropWhile_append_of_pos hsp] at hb
    exact .inr (Option.some.inj hb).symm

end Trail

/-- `Lines ls text`: `text` consists of the lines `ls`, each with blanks before it and a trail behind it. -/
inductive Lines : List Bytes → Bytes → Prop
  | nil : Lines [] []
  | empty {ls : List Bytes} {x : Bytes} (h : Lines ls x) : Lines ls (newline :: x)
  | line {ls : List Bytes} {x : Bytes} (sp l t : Bytes) (hsp : Blank sp) (ht : Trail t) (h : Lines ls x) :
      Lines (l :: ls) (sp ++ (l ++ (t ++ newline :: x)))

namespace Lines

theorem append (hx : Lines ls x) (hy : Lines ms y) : Lines (ls ++ ms) (x ++ y) := by
  induction hx with
  | nil => exact hy
  | empty _ ih => exact .empty ih
  | line sp l t hsp ht _ ih =>
    have := Lines.line sp l t hsp ht ih
    simpa using this

theorem length_le (h : Lines ls x) : ls.length ≤ x.length := by
  induction h with
  | nil => exact le_rfl
  | empty _ ih =>
    simp
    omega
  | line sp l t _ _ _ ih =>
    simp
    omega

theorem split (h : Lines (ls ++ ms) x) : ∃ y z, Lines ls y ∧ Lines ms z ∧ x = y ++ z := by
  generalize whole : ls ++ ms = all at h
  induction h generalizing ls with
  | nil =>
    obtain ⟨rfl, rfl⟩ := List.append_eq_nil_iff.1 whole
    exact ⟨[], [], .nil, .nil, rfl⟩
  | empty _ ih =>
    obtain ⟨y, z, hy, hz, rfl⟩ := ih whole
    exact ⟨newline :: y, z, .empty hy, hz, rfl⟩
  | @line ls' x' sp l t hsp ht h ih =>
    cases ls with
    | nil =>
      rw [List.nil_append] at whole
      exact ⟨[], _, .nil, whole ▸ .line sp l t hsp ht h, rfl⟩
    | cons l' ls =>
      obtain ⟨rfl, rfl⟩ := List.cons.inj whole
      obtain ⟨y, z, hy, hz, rfl⟩ := ih rfl
      exact ⟨_, z, .line sp l' t hsp ht hy, hz, by simp⟩

theorem gap (h : Lines [] x) : Gap x := by
  generalize absent : ([] : List Bytes) = ls at h
  induction h with
  | nil => exact .blank [] (by simp)
  | empty _ ih => exact .white_append isWhite_newline (ih absent)
  | line => cases absent

/-- The first of the lines stands behind a gap and in front of a trail. -/
theorem uncons (h : Lines (l :: ls) x) : ∃ gap t y, Gap gap ∧ Trail t ∧ Lines ls y ∧ x = gap ++ (l ++ (t ++ newline :: y)) := by
  generalize lines : l :: ls = ms at h
  induction h with
  | nil => cases lines
  | empty _ ih =>
    obtain ⟨gap, t, y, hg, ht, hy, rfl⟩ := ih lines
    exact ⟨newline :: gap, t, y, .white_append isWhite_newline hg, ht, hy, rfl⟩
  | @line ls' x' sp l' t hsp ht h _ =>
    cases lines
    exact ⟨sp, t, x', .blank sp (isWhite_of_blank hsp), ht, h, rfl⟩

end Lines

end Dalvik.Assembly
