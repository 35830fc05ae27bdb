import Dalvik.Proofs.Assembly.Method
import Dalvik.Proofs.CodeItem.Attempts
import Dalvik.Proofs.CodeItem.Telling
import Dalvik.Proofs.Operands
import Dalvik.Proofs.Sequence.Labelling

/-!
# Code that is printed

`toBody` gives a body that can be printed and read again: labels are words, registers are in range,
and constants are those of the pool or raw indices (`readable_of_toBody`). A range is printed as its
first and last register, so it is read back unless it has both local and parameter registers
(`Item.Within`). Under this condition the printed method is read back as the same method
(`toBody_reads_back`).
-/

namespace Dalvik

open Dalvik.Action (except_bind_eq_ok)
open Assembly (Body Element Recovers NamesLabel Word extraOf isDelimiter word_append)

/-! ## Names and constants -/

namespace Assembly

theorem word_hex (n : Int) : Word (hex n) := by
  have all : isDelimiter (byte '-') = false ∧ ∀ d < 16, isDelimiter (digitByte d) = false := by decide
  intro b hb
  rcases mem_hex hb with rfl | ⟨d, small, rfl⟩
  · exact all.1
  · exact all.2 d small

theorem kind_entries : ∀ kind ∈ Kind.all, Word kind.name ∧ kind.name ≠ [] ∧ Kind.ofName? kind.name = some kind ∧
    Bytes.containsAny (ascii "@\";") kind.name = false := by
  decide

theorem parseRaw_rawText {kind : Kind} (known : kind ∈ Kind.all) {i : Nat} (small : i < twoPow 32) :
    Bytes.cut (byte '@') (Constant.rawText kind i) = some (kind.name, ascii "0x" ++ hex i) ∧
      Constant.parseRaw (Constant.rawText kind i) = .ok (kind, (i : Int)) := by
  obtain ⟨-, -, name, plain⟩ := kind_entries kind known
  have cut : Bytes.cut (byte '@') (Constant.rawText kind i) = some (kind.name, ascii "0x" ++ hex i) := by
    refine Bytes.cut_eq_some.2 ⟨by simp [Constant.rawText, ascii, byte], fun mem => ?_⟩
    rw [Bytes.containsAny, List.any_eq_false] at plain
    exact plain _ mem (by decide)
  refine ⟨cut, ?_⟩
  have hexDigits : hex i = digits 16 i := by simp [hex, signed]
  have value := Literal.unsigned?_digits (by decide : 1 < 16) (by decide) small
  rw [Constant.parseRaw, cut]
  simp only [hexDigits, name]
  have marked : (ascii "0x").isPrefixOf (ascii "0x" ++ digits 16 i) = true := by simp
  have behind : (ascii "0x" ++ digits 16 i).drop 2 = digits 16 i := rfl
  rw [marked, behind, value]
  rfl

/-- The text of a raw reference is its kind and its index. -/
theorem recovers_raw {kind : Kind} (known : kind ∈ Kind.all) {i : Nat} (small : i < twoPow 32) : Recovers kind (.raw kind i) where
  back := by
    obtain ⟨-, present, -, plain⟩ := kind_entries kind known
    obtain ⟨cut, raw⟩ := parseRaw_rawText known small
    have bare : (kind.name.isEmpty || Bytes.containsAny (ascii "\";") kind.name) = false := by
      rw [Bool.or_eq_false_iff, List.isEmpty_eq_false_iff]
      refine ⟨present, ?_⟩
      rw [Bytes.containsAny, List.any_eq_false] at plain ⊢
      intro b hb mark
      exact plain b hb (by revert mark; simp [ascii]; tauto)
    rw [Constant.text, Constant.parseRef, cut]
    simp only [bare, raw]
    exact if_pos rfl
  whole _ := word_append (word_append (kind_entries kind known).1 (by decide)) (word_hex i)

theorem Recovers.parse {d : Descriptor} (h : Recovers .type (.type d)) : Descriptor.parse d.name = .ok d := by
  have back : Constant.parseRef .type d.name = .ok (.type d) := h.back
  have parsed : Constant.parse .type d.name = .ok (.type d) := by
    unfold Constant.parseRef at back
    split at back
    · split at back
      · exact back
      · obtain ⟨⟨kind, i⟩, -, made⟩ := except_bind_eq_ok.1 back
        dsimp only at made
        split at made <;> cases made
    · exact back
  obtain ⟨d', known, made⟩ := except_bind_eq_ok.1 parsed
  cases made
  exact known

end Assembly

theorem LabelKind.namesLabel (k : LabelKind) (a : Int) : NamesLabel (k.name a) where
  word := by
    have stem : Word k.stem := by cases k <;> decide
    exact word_append (word_append stem (by decide)) (Assembly.word_hex a)
  ne_nil := k.name_ne_nil a

/-- The text of each constant of the pool is parsed as the constant. -/
def Pool.Recovers (p : Pool) : Prop := ∀ k ∈ p, Assembly.Recovers k.kind k

/-- It is enough to look at each section. -/
theorem Pool.recovers_of_entries {p : Pool} (h : ∀ kind ∈ Kind.all, ∀ k ∈ p.entries kind,
    (Constant.parseRef kind k.text).toOption = some k ∧ (kind = .string ∨ Word k.text)) : p.Recovers := by
  intro k mem
  have listed : k.kind ∈ Kind.all := by
    cases k with
    | raw kind i => exact (hasSection_of_mem mem).elim
    | _ => simp [Constant.kind, Kind.all]
  obtain ⟨back, whole⟩ := h k.kind listed k mem
  refine ⟨Action.eq_ok_of_toOption back, fun other => whole.resolve_left fun string => ?_⟩
  cases k with
  | string s => exact other s rfl
  | raw kind i => exact (hasSection_of_mem mem).elim
  | _ => cases string

/-- `resolve` gives a constant of the pool or a raw reference, whose text is parsed as the constant. -/
theorem recovers_resolve {pool : Option Pool} (recovers : ∀ p ∈ pool, p.Recovers) {kind : Kind} (known : kind ∈ Kind.all) {i : Nat}
    (small : i < twoPow 32) : Recovers kind (Instruction.resolve pool kind i) := by
  rcases Instruction.resolve_cases pool kind i with raw | ⟨p, k, rfl, found, same⟩
  · rw [raw]
    exact Assembly.recovers_raw known small
  · obtain ⟨n, -, located⟩ := Pool.lookup_eq_ok.1 found
    have mem := List.mem_of_getElem? located
    rw [same, ← Pool.kind_of_mem_entries mem]
    exact recovers p rfl k (Pool.mem_of_mem_entries mem)

/-! ## Registers -/

namespace Instruction

variable {i : Instruction}

/-- The registers of the instruction. -/
def used (i : Instruction) : List Int := i.registers.toOption.getD []

/-- The registers are below the count, and those of a range are all parameters or all locals. -/
def Within (i : Instruction) (count params : Int) : Prop :=
  (∀ r ∈ i.used, r < count) ∧
    (i.opcode.format.isRange = true → (∀ r ∈ i.used, r < count - params) ∨ ∀ r ∈ i.used, count - params ≤ r)

instance (i : Instruction) (count params : Int) : Decidable (i.Within count params) := inferInstanceAs (Decidable (_ ∧ _))

theorem nonneg_of_registers (hi : i.Shaped) {rs : List Int} (h : i.registers = .ok rs) : ∀ r ∈ rs, 0 ≤ r := by
  obtain ⟨n, count, read⟩ := except_bind_eq_ok.1 h
  intro r hr
  obtain ⟨k, hk, reg⟩ := Sequence.exists_left (Action.except_mapM_eq_ok.1 read) hr
  obtain ⟨v, reg', nonneg, -⟩ := hi.fits.exists_register count (List.mem_range.1 hk)
  rw [reg] at reg'
  cases reg'
  exact nonneg

theorem length_registers (hi : i.Shaped) (fixed : i.opcode.format.isVariadic = false) {rs : List Int} (h : i.registers = .ok rs) :
    rs.length = i.opcode.format.registerBits.length := by
  obtain ⟨n, count, read⟩ := except_bind_eq_ok.1 h
  obtain ⟨m, count', -, all⟩ := hi.fits.exists_registersCount
  rw [count] at count'
  cases count'
  rw [← (Action.except_mapM_eq_ok.1 read).length_eq, List.length_range]
  exact all fixed

/-- The registers of a range are consecutive. -/
theorem registers_of_range (hi : i.Shaped) (range : i.opcode.format.isRange = true) {rs : List Int} (h : i.registers = .ok rs) :
    ∃ first n : Nat, rs = (List.range n).map fun (k : Nat) => (first + k : Int) := by
  obtain ⟨n, count, read⟩ := except_bind_eq_ok.1 h
  obtain ⟨m, count', small, -⟩ := hi.fits.exists_registersCount
  rw [count] at count'
  cases count'
  obtain ⟨first, start⟩ := BitField.exists_read (f := Format.wholeUnit 2) (hi.fits.unit_lt (Format.units_of_isRange range))
  refine ⟨first, n, ?_⟩
  have each : ∀ k ∈ List.range n, i.register (k : Nat) = .ok (first + k : Int) := fun k hk =>
    register_of_range range start k (by have := List.mem_range.1 hk; omega)
  have all : (List.range n).mapM (fun (k : Nat) => i.register k) = .ok ((List.range n).map fun (k : Nat) => (first + k : Int)) := by
    rw [Action.except_mapM_eq_ok, List.forall₂_map_right_iff, List.forall₂_same]
    exact each
  exact Except.ok.inj (read.symm.trans all)

end Instruction

/-- The registers of an instruction are `Within`; other items have none. -/
def Item.Within : Item → Int → Int → Prop
  | .plain i, count, params => i.Within count params
  | _, _, _ => True

instance : ∀ (x : Item) (count params : Int), Decidable (x.Within count params)
  | .plain i, count, params => inferInstanceAs (Decidable (i.Within count params))
  | .packed _, _, _ | .sparse _, _, _ | .array _, _, _ => .isTrue trivial

theorem Assembly.Body.readable_registerFor {b : Body} {v : Int} (low : 0 ≤ v) (high : v < twoPow 16) (locals : 0 ≤ b.locals) :
    (b.registerFor v).Readable := by
  unfold registerFor
  split
  · next h => exact ⟨show 0 ≤ v - b.locals by omega, show v - b.locals < twoPow 16 by omega⟩
  · exact ⟨low, high⟩

/-- Consecutive numbers that are all locals or all parameters give consecutive registers of one kind. -/
theorem Assembly.Body.isRun_registerFor {b : Body} {first n : Nat}
    (aside : (∀ r ∈ (List.range n).map fun (k : Nat) => (first + k : Int), r < b.locals) ∨
      ∀ r ∈ (List.range n).map fun (k : Nat) => (first + k : Int), b.locals ≤ r) :
    IsRun (((List.range n).map fun (k : Nat) => (first + k : Int)).map b.registerFor) := by
  rw [List.map_map]
  simp only [List.forall_mem_map] at aside
  rcases aside with below | above
  · refine ⟨first, false, n, List.map_congr_left fun k hk => ?_⟩
    exact if_neg fun h => Int.not_lt.2 h.2 (below k hk)
  · by_cases params : 0 < b.paramRegisters
    · refine ⟨first - b.locals, true, n, List.map_congr_left fun k hk => ?_⟩
      rw [Function.comp_apply, registerFor, if_pos ⟨params, above k hk⟩]
      exact congrArg (Assembly.Register.mk · true) (by omega)
    · refine ⟨first, false, n, List.map_congr_left fun k hk => ?_⟩
      exact if_neg fun h => params h.1

/-! ## Elements -/

/-- The operand behind the registers depends on the format, and the references of an opcode are of known kinds. -/
theorem Opcode.extra_entries : ∀ o ∈ instructions,
    decide (extraOf o.format = .label) = (o.is .branch || o.is .payloadRef) ∧
    decide (extraOf o.format = .literal) = (!(o.is .branch || o.is .payloadRef) && !o.format.literalFields.isEmpty) ∧
    (∀ kind ∈ o.ref, kind ∈ Kind.all) ∧ ∀ kind ∈ o.ref2, kind ∈ Kind.all := by
  decide +kernel

theorem Format.totalWidth_indexFields_le (format : Format) : BitField.totalWidth format.indexFields ≤ 32 := by
  cases format <;> decide

namespace Sequence

variable {s : Sequence} {x : Node} {i : Instruction} {body : Body} {e : Assembly.Instruction} {f : Element}

/-- `instructionElement` gives the label, the literal and the constants that the format has, and no comment. -/
theorem told_of_instructionElement (told : s.instructionElement x i body = .ok e) :
    e.opcode = i.opcode ∧ e.comment = [] ∧ (∃ rs, i.registers = .ok rs ∧ e.registers = rs.map body.registerFor) ∧
      (if (!i.hasTarget && i.hasData) = true then ∃ v, e.literal = Literal.ofOperand v (i.opcode.isWideRegister 0) else e.literal = .int 0) ∧
      i.constant s.pool = .ok e.ref ∧ i.constant2 s.pool = .ok e.ref2 := by
  simp only [instructionElement, Action.except_ite_bind_eq_ok, except_bind_eq_ok] at told
  obtain ⟨rs, registers, label, -, literal, run, ref, hasRef, ref2, hasRef2, made⟩ := told
  rw [← Except.ok.inj made]
  refine ⟨rfl, rfl, ⟨rs, registers, rfl⟩, ?_, hasRef, hasRef2⟩
  split at run
  · next has =>
    rw [if_pos has]
    cases data : i.data with
    | error e =>
      rw [data] at run
      cases run
    | ok v => exact ⟨v, (Except.ok.inj (data ▸ run)).symm⟩
  · next has =>
    rw [if_neg has]
    exact (Except.ok.inj run).symm

/-- `instructionElement` gives an instruction that can be read again. -/
theorem readable_of_instructionElement (hi : i.Shaped) (recovers : ∀ p ∈ s.pool, p.Recovers)
    (within : i.Within body.registers body.paramRegisters) (few : body.registers < twoPow 16) (locals : 0 ≤ body.locals)
    (told : s.instructionElement x i body = .ok e) : e.Readable := by
  obtain ⟨opcode, -, ⟨rs, registers, named⟩, literal, ref, ref2⟩ := told_of_instructionElement told
  have label := label_of_instructionElement told
  obtain ⟨isLabel, isLiteral, kinds, kinds2⟩ := Opcode.extra_entries i.opcode hi.mem
  have used : i.used = rs := by
    rw [Instruction.used, registers]
    rfl
  rw [Instruction.Within, used] at within
  rw [← opcode] at isLabel isLiteral
  have labelled : extraOf e.opcode.format = .label ↔ i.hasTarget = true := by
    rw [← decide_eq_true_iff (p := extraOf e.opcode.format = .label), isLabel, opcode]
    rfl
  have valued : extraOf e.opcode.format = .literal ↔ (!i.hasTarget && i.hasData) = true := by
    rw [← decide_eq_true_iff (p := extraOf e.opcode.format = .literal), isLiteral, opcode]
    rfl
  have constant : ∀ kind ∈ e.opcode.ref, ∃ k, e.ref = some k ∧ Recovers kind k := by
    intro kind has
    rw [opcode] at has
    obtain ⟨n, index, small⟩ := hi.fits.exists_index (Option.isSome_iff_exists.2 ⟨kind, has⟩)
    rw [Instruction.constant, has, index] at ref
    have below : n < twoPow 32 := small.trans_le (Nat.pow_le_pow_right (by decide) (Format.totalWidth_indexFields_le _))
    exact ⟨_, (Except.ok.inj ref).symm, recovers_resolve recovers (kinds kind has) below⟩
  have constant2 : ∀ kind ∈ e.opcode.ref2, ∃ k, e.ref2 = some k ∧ Recovers kind k := by
    intro kind has
    rw [opcode] at has
    obtain ⟨n, index, small⟩ := hi.fits.exists_index2 (Option.isSome_iff_exists.2 ⟨kind, has⟩)
    rw [Instruction.constant2, has, index] at ref2
    have below : n < twoPow 32 := small.trans_le (by decide)
    exact ⟨_, (Except.ok.inj ref2).symm, recovers_resolve recovers (kinds2 kind has) below⟩
  exact {
    mem := opcode ▸ hi.mem
    registers := by
      rw [named]
      intro r hr
      obtain ⟨v, hv, rfl⟩ := List.mem_map.1 hr
      have high := within.1 v hv
      exact Body.readable_registerFor (Instruction.nonneg_of_registers hi registers v hv) (by omega) locals
    count := fun fixed => by
      rw [named, List.length_map, opcode]
      exact Instruction.length_registers hi (opcode ▸ fixed) registers
    run := fun range => by
      rw [opcode] at range
      obtain ⟨first, n, rfl⟩ := Instruction.registers_of_range hi range registers
      rw [named]
      exact Body.isRun_registerFor (within.2 range)
    label := fun extra => by
      rw [if_pos (labelled.1 extra)] at label
      obtain ⟨-, a, -, name⟩ := targetLabel_eq_ok.1 label
      exact name ▸ LabelKind.namesLabel _ a
    unlabelled := fun extra => by
      rwa [if_neg (mt labelled.2 extra)] at label
    literal := fun extra => by
      rw [if_pos (valued.1 extra)] at literal
      obtain ⟨v, literal⟩ := literal
      rw [literal, Literal.ofOperand]
      split
      · exact ⟨.long, v, .inr (.inl rfl), rfl⟩
      · exact ⟨.int, v, .inl rfl, rfl⟩
    unvalued := fun extra => by
      rwa [if_neg (mt valued.2 extra)] at literal
    ref := constant
    no_ref := fun absent => by
      rw [opcode] at absent
      rw [Instruction.constant, absent] at ref
      exact (Except.ok.inj ref).symm
    ref2 := constant2
    no_ref2 := fun absent => by
      rw [opcode] at absent
      rw [Instruction.constant2, absent] at ref2
      exact (Except.ok.inj ref2).symm }

/-- A label that `targetLabel` gives is a word. -/
theorem namesLabel_of_targetLabel {kind : LabelKind} {h : Handle} {name : Bytes} (label : s.targetLabel kind h = .ok name) :
    NamesLabel name := by
  obtain ⟨-, a, -, rfl⟩ := targetLabel_eq_ok.1 label
  exact kind.namesLabel a

theorem namesLabel_of_caseLabels {item : Item} {noun : String} {names : List Bytes} (told : s.caseLabels item noun = .ok names) :
    ∀ name ∈ names, NamesLabel name := by
  intro name mem
  obtain ⟨k, -, label⟩ := mem_caseLabels told mem
  exact namesLabel_of_targetLabel label

end Sequence

/-- The values of an array are sign-extended from its width. -/
theorem ArrayPayload.Shaped.readable {a : ArrayPayload} (ha : a.Shaped) :
    ({ width := a.width.toNat, values := a.values } : Assembly.ArrayData).Readable := by
  have width : (a.width.toNat : Int) = 1 ∨ (a.width.toNat : Int) = 2 ∨ (a.width.toNat : Int) = 4 ∨ (a.width.toNat : Int) = 8 := by
    simpa [isWidth, or_assoc] using ha.width
  refine ⟨width, fun v hv => ?_⟩
  have bits : ({ width := a.width.toNat, values := a.values } : Assembly.ArrayData).kind.width = 8 * a.width.toNat := by
    have bits := Assembly.ArrayData.width_kind (a := { width := a.width.toNat, values := a.values }) width
    dsimp only at bits
    omega
  obtain ⟨b, -, rfl⟩ := List.mem_map.1 hv
  have pos : 0 < 8 * a.width.toNat := by omega
  obtain ⟨low, high⟩ := Literal.signExtend_bounds pos (littleEndian b)
  rw [bits, Literal.signExtend_of_bounds pos low high]

theorem small_signed32 (v : UInt32) : Assembly.Small (signed32 v) := ⟨Int32.le_toInt _, Int32.toInt_lt _⟩

/-- The element can be read again, and its comment has no newline. -/
structure Assembly.Element.Printable (e : Element) : Prop where
  readable : e.Readable
  comment : ∀ b ∈ e.comment, b ≠ Assembly.newline

namespace Sequence

variable {s : Sequence} {x : Node} {body : Body} {f : Element} {labels : List Assembly.Label} {name : Bytes}
  {extra : List (Int × Bytes)} {es : List Element}

/-- `element` gives an element that can be printed and read again. -/
theorem printable_of_element (hx : x.item.Shaped) (recovers : ∀ p ∈ s.pool, p.Recovers)
    (within : x.item.Within body.registers body.paramRegisters) (few : body.registers < twoPow 16) (locals : 0 ≤ body.locals)
    (told : s.element x body = .ok f) : f.Printable := by
  have claimed : ¬ x.item.owner?.any (· < 0) = true := by
    intro free
    rw [element, if_pos free] at told
    cases told
  rw [element, if_neg claimed] at told
  cases item : x.item with
  | plain i =>
    rw [item] at told hx within
    obtain ⟨e, run, made⟩ := except_bind_eq_ok.1 told
    obtain rfl := Except.ok.inj made
    refine ⟨readable_of_instructionElement hx recovers within few locals run, fun b hb => ?_⟩
    rw [Element.comment, (told_of_instructionElement run).2.1] at hb
    cases hb
  | packed p =>
    rw [item] at told
    obtain ⟨names, run, made⟩ := except_bind_eq_ok.1 told
    obtain rfl := Except.ok.inj made
    exact ⟨⟨small_signed32 _, namesLabel_of_caseLabels run⟩, fun _ hb => by cases hb⟩
  | sparse t =>
    rw [item] at told
    obtain ⟨names, run, made⟩ := except_bind_eq_ok.1 told
    obtain rfl := Except.ok.inj made
    refine ⟨fun c hc => ?_, fun _ hb => by cases hb⟩
    obtain ⟨value, name⟩ := List.of_mem_zip hc
    obtain ⟨k, -, same⟩ := List.mem_map.1 value
    exact ⟨same ▸ small_signed32 _, namesLabel_of_caseLabels run _ name⟩
  | array a =>
    rw [item] at told hx
    obtain rfl := Except.ok.inj told
    exact ⟨hx.readable, fun _ hb => by cases hb⟩

/-! ## Labels -/

theorem printable_addLabel (h : ∀ l ∈ labels, (Element.label l).Printable) (hn : NamesLabel name) (case : Option Int) :
    ∀ l ∈ addLabel labels name case, (Element.label l).Printable := by
  have added : ∀ l ∈ if labels.any (·.name = name) then labels else labels ++ [({ name } : Assembly.Label)],
      (Element.label l).Printable := by
    intro l hl
    split at hl
    · exact h l hl
    · rcases List.mem_append.1 hl with hl | hl
      · exact h l hl
      · obtain rfl := List.mem_singleton.1 hl
        exact ⟨hn, fun _ hb => by cases hb⟩
  cases case with
  | none => exact added
  | some key =>
    have word : ∀ b ∈ (Literal.int key).text, b ≠ Assembly.newline := by
      rintro _ mem rfl
      exact absurd (Assembly.word_literal (.inl rfl) key _ mem) (by decide)
    intro _ hl
    obtain ⟨m, hm, rfl⟩ := List.mem_map.1 hl
    have before := added m hm
    split
    · exact before
    · refine ⟨before.readable, fun b hb => ?_⟩
      have marks : (∀ b ∈ ascii "case ", b ≠ Assembly.newline) ∧ ∀ b ∈ ascii ", ", b ≠ Assembly.newline := by decide +kernel
      dsimp only [Element.comment] at hb
      split at hb
      · exact (List.mem_append.1 hb).elim (marks.1 b) (word b)
      · rcases List.mem_append.1 hb with hb | hb
        · exact (List.mem_append.1 hb).elim (before.comment b) (marks.2 b)
        · exact word b hb

theorem printable_labelsAt (named : Named extra) (a : Int) (refs : List Reference) :
    ∀ l ∈ labelsAt a refs extra, (Element.label l).Printable := by
  let Good (ls : List Assembly.Label) : Prop := ∀ l ∈ ls, (Element.label l).Printable
  have asked : Good (extra.foldl (fun ls e => if e.1 = a then addLabel ls e.2 none else ls) []) := by
    refine List.foldlRecOn (motive := Good) _ _ (fun _ hl => by cases hl) fun ls h e he => ?_
    obtain ⟨k, name⟩ := named e he
    split
    · exact printable_addLabel h (name ▸ k.namesLabel _) none
    · exact h
  exact List.foldlRecOn (motive := Good) _ _ asked fun ls h r _ => printable_addLabel h (r.kind.namesLabel a) _

/-- `toElements` gives elements that can be printed and read again. -/
theorem printable_of_toElements (sound : Sound Item.Shaped s) (recovers : ∀ p ∈ s.pool, p.Recovers)
    (within : ∀ x ∈ s.contents, x.item.Within body.registers body.paramRegisters) (few : body.registers < twoPow 16)
    (locals : 0 ≤ body.locals) (named : Named extra) (told : s.toElements body extra = .ok es) : ∀ e ∈ es, e.Printable := by
  have labelled : ∀ {a refs}, ∀ e ∈ (labelsAt a refs extra).map Element.label, e.Printable := by
    intro a refs e he
    obtain ⟨l, hl, rfl⟩ := List.mem_map.1 he
    exact printable_labelsAt named a refs l hl
  rw [toElements_eq] at told
  obtain ⟨parts, run, made⟩ := except_bind_eq_ok.1 told
  rw [← Except.ok.inj made]
  intro e he
  rcases List.mem_append.1 he with he | he
  · obtain ⟨ds, hds, he⟩ := List.mem_flatten.1 he
    obtain ⟨x, hx, part⟩ := exists_left (Action.except_mapM_eq_ok.1 run) hds
    have part := part_eq_ok.1 part
    split at part
    · exact labelled e (part ▸ he)
    · obtain ⟨d, element, rfl⟩ := part
      rcases List.mem_append.1 he with he | he
      · exact labelled e he
      · obtain rfl := List.mem_singleton.1 he
        obtain ⟨n, hn, node⟩ := List.mem_filterMap.1 hx
        exact printable_of_element (sound.holds n _ (item?_of_node? node)) recovers (within x hx) few locals element
  · exact labelled e he

end Sequence

/-! ## Bodies -/

namespace CodeItem

variable {c : CodeItem} {n m : Notes} {name : Bytes}

/-- The labels that were noted are named for their addresses, and the lines of ranges can be read again. -/
structure Notes.Printable (n : Notes) : Prop where
  labels : Sequence.Named n.labels
  catches : ∀ e ∈ n.catches, e.Printable

theorem Notes.Printable.addLabel (h : n.Printable) {kind : LabelKind} {k : Handle} (run : (c.addLabel kind k).Gives n name m) :
    NamesLabel name ∧ m.Printable := by
  cases there : c.code.addressOf? k with
  | none =>
    unfold CodeItem.addLabel at run
    rw [there] at run
    exact absurd run Action.not_gives_refuse
  | some a =>
    obtain ⟨rfl, rfl⟩ := run.unique (gives_addLabel there)
    refine ⟨kind.namesLabel a, fun e he => ?_, h.catches⟩
    rcases mem_addMarks.1 (show e ∈ [mark kind a].foldl addMark n.labels from he) with he | he
    · exact h.labels e he
    · exact ⟨kind, by rw [List.mem_singleton.1 he, mark]⟩

theorem Notes.Printable.addLine (h : n.Printable) {e : Assembly.CatchRange} (line : e.Readable) : (addLine e n).Printable := by
  refine ⟨h.labels, fun f hf => ?_⟩
  rcases List.mem_append.1 hf with hf | hf
  · exact h.catches f hf
  · obtain rfl := List.mem_singleton.1 hf
    exact ⟨line, fun _ hb => by cases hb⟩

/-- The type of a clause is parsed from its text. -/
theorem type_of_catchType (recovers : ∀ p ∈ c.code.pool, p.Recovers) {i : Int} {d : Descriptor} (type : c.catchType i = .ok d) :
    Descriptor.parse d.name = .ok d ∧ Word d.name := by
  unfold catchType at type
  cases pool : c.code.pool with
  | none =>
    rw [pool] at type
    cases type
  | some p =>
    rw [pool] at type
    have lookup : p.lookup .type i = .ok (.type d) := except_bind_eq_ok.2 ⟨d, type, rfl⟩
    obtain ⟨k, -, listed⟩ := Pool.lookup_eq_ok.1 lookup
    have known := recovers p pool _ (Pool.mem_of_mem_entries (List.mem_of_getElem? listed))
    exact ⟨known.parse, known.whole fun _ e => by cases e⟩

theorem Notes.Printable.notePair (h : n.Printable) (recovers : ∀ p ∈ c.code.pool, p.Recovers) {start stop : Bytes}
    (first : NamesLabel start) (past : NamesLabel stop) {p : CatchPair} (run : (c.notePair start stop p).Gives n ⟨⟩ m) :
    m.Printable := by
  obtain ⟨handler, u, label, run⟩ := Action.gives_bind.1 run
  obtain ⟨d, v, lifted, added⟩ := Action.gives_bind.1 run
  obtain ⟨type, rfl⟩ := Action.gives_lift.1 lifted
  obtain rfl := Action.gives_modify.1 added
  obtain ⟨name, h⟩ := h.addLabel label
  exact h.addLine ⟨first, past, name, fun _ => type_of_catchType recovers type⟩

theorem Notes.Printable.noteTry (h : n.Printable) (recovers : ∀ p ∈ c.code.pool, p.Recovers) {t : TryItem}
    (run : (c.noteTry t).Gives n ⟨⟩ m) : m.Printable := by
  rw [noteTry_eq] at run
  obtain ⟨start, n₁, label, run⟩ := Action.gives_bind.1 run
  obtain ⟨stop, n₂, label', run⟩ := Action.gives_bind.1 run
  obtain ⟨first, h₁⟩ := h.addLabel label
  obtain ⟨past, h₂⟩ := h₁.addLabel label'
  split at run
  · exact absurd run Action.not_gives_throw
  · next handler _ =>
    obtain ⟨_, n₃, pairs, run⟩ := Action.gives_bind.1 run
    have h₃ : n₃.Printable := (Action.gives_forIn.1 pairs).keeps (fun p _ _ _ pair h => h.notePair recovers first past pair) h₂
    split at run
    · obtain ⟨all, n₄, label, added⟩ := Action.gives_bind.1 run
      obtain rfl := Action.gives_modify.1 added
      obtain ⟨name, h₄⟩ := h₃.addLabel label
      exact h₄.addLine ⟨first, past, name, fun typed => by cases typed⟩
    · obtain ⟨-, rfl⟩ := Action.gives_pure.1 run
      exact h₃

theorem Notes.Printable.noteTries (h : n.Printable) (recovers : ∀ p ∈ c.code.pool, p.Recovers) {ts : List TryItem}
    (run : (ts.forM c.noteTry).Gives n ⟨⟩ m) : m.Printable := by
  induction ts generalizing n with
  | nil =>
    obtain ⟨-, rfl⟩ := Action.gives_pure.1 run
    exact h
  | cons t ts ih =>
    obtain ⟨_, u, first, others⟩ := Action.gives_bind.1 run
    exact ih (h.noteTry recovers first) others

variable {b : Body} {params : Int} {useLocals : Bool}

/-- `toBody` gives the elements of the instructions, followed by the lines of the ranges. -/
theorem toBody_eq_ok : c.toBody params useLocals = .ok b ↔ ∃ notes es, (c.tries.forM c.noteTry).Gives {} ⟨⟩ notes ∧
    c.code.toElements { registers := c.registers.toNat, paramRegisters := params, useLocals } notes.labels = .ok es ∧
    b = { registers := c.registers.toNat, paramRegisters := params, useLocals, elements := es ++ notes.catches } := by
  unfold toBody Action.Gives
  rcases run : (c.tries.forM c.noteTry).apply {} with ⟨r, notes⟩
  simp only [except_bind_eq_ok]
  constructor
  · rintro ⟨_, rfl, es, told, made⟩
    exact ⟨notes, es, rfl, told, (Except.ok.inj made).symm⟩
  · rintro ⟨_, es, same, told, rfl⟩
    obtain ⟨rfl, rfl⟩ := Prod.mk.inj same
    exact ⟨_, rfl, es, told, rfl⟩

/-- `toBody` gives elements that can be printed and read again. -/
theorem printable_of_toBody (sound : Sequence.Sound Item.Shaped c.code) (recovers : ∀ p ∈ c.code.pool, p.Recovers)
    (within : ∀ x ∈ c.code.contents, x.item.Within c.registers.toNat params) (few : params ≤ c.registers.toNat)
    (told : c.toBody params useLocals = .ok b) : ∀ e ∈ b.elements, e.Printable := by
  obtain ⟨notes, es, noted, listed, rfl⟩ := toBody_eq_ok.1 told
  have fresh : Notes.Printable {} := ⟨fun _ he => (nomatch he), fun _ he => (nomatch he)⟩
  have noted := fresh.noteTries recovers noted
  intro e he
  rcases List.mem_append.1 he with he | he
  · have small : (c.registers.toNat : Int) < twoPow 16 := Int.ofNat_lt.2 c.registers.toNat_lt
    let body : Body := { registers := c.registers.toNat, paramRegisters := params, useLocals }
    exact @Sequence.printable_of_toElements c.code body _ _ sound recovers within small (Int.sub_nonneg.2 few) noted.labels listed e he
  · exact noted.catches e he

/-- If `toBody` gives the body `b` for an `Attempted` code item, then `readMethod` on the printed method with this
body gives a method that is the same up to positions and comments. The registers of each instruction must be `Within`,
and the constants of the pool must have texts that can be parsed. -/
theorem toBody_reads_back (head : Assembly.Method) {n : Nat} (attempted : Attempted (fun _ => True) c)
    (named : ({ head with body := none } : Assembly.Method).Readable)
    (params : Assembly.paramRegistersOf head.access head.ref.proto = .ok n) (few : n ≤ c.registers.toNat)
    (within : ∀ x ∈ c.code.contents, x.item.Within c.registers.toNat n) (recovers : ∀ p ∈ c.code.pool, p.Recovers)
    (told : c.toBody n useLocals = .ok b) (step : Int) (comments : Bool) {s : Assembly.Scanner}
    (here : s.Left (Assembly.render { head with body := some b }.write { step, comments })) :
    ∃ m t, (Assembly.readMethod head.ref.owner).Gives s m t ∧ m.bare = { head with body := some b }.bare := by
  have sound := attempted.settling.code.sound Item.lasting_shaped
  have printable := printable_of_toBody sound recovers within (Int.ofNat_le.2 few) told
  obtain ⟨notes, es, -, -, made⟩ := toBody_eq_ok.1 told
  have locals : b.locals = (c.registers.toNat - n : Nat) := by
    rw [made, Body.locals]
    dsimp only
    omega
  have most : c.registers.toNat < twoPow 31 := c.registers.toNat_lt.trans (by decide)
  have body : b.Readable := {
    elements := fun e he => (printable e he).readable
    locals := fun _ => by
      rw [locals]
      omega
    registers := fun _ => by
      rw [made]
      exact ⟨Int.natCast_nonneg _, Int.ofNat_lt.2 most⟩ }
  have readable : ({ head with body := some b } : Assembly.Method).Readable := {
    access := named.access
    name := named.name
    proto := named.proto
    body := fun _ same => Option.some.inj same ▸ body
    params := fun _ same k known => by
      obtain rfl := Option.some.inj (show some b = some _ from same)
      obtain rfl := Except.ok.inj (params.symm.trans known)
      rw [made] }
  have commented : ∀ d ∈ ({ head with body := some b } : Assembly.Method).body, ∀ e ∈ d.elements, ∀ x ∈ e.comment,
      x ≠ Assembly.newline := by
    rintro d same
    obtain rfl := Option.some.inj (show some b = some d from same)
    exact fun e he => (printable e he).comment
  have whole := here
  rw [← List.append_nil (Assembly.render _ _)] at whole
  obtain ⟨m, t, -, gives, same, -⟩ := readable.readMethod_render commented step comments whole
  exact ⟨m, t, gives, same⟩

/-- A pool with a method that takes two integers. -/
def calleePool : Pool :=
  ((({} : Pool).internMethod ⟨⟨ascii "LB;"⟩, ascii "g", ⟨⟨ascii "V"⟩, ascii "II"⟩⟩).toOption.map Prod.snd).getD {}

/-- A range call in a guarded range. -/
def guardedCall : CodeItem := ((decode (.ofBytes [3, 0, 1, 0, 2, 0, 1, 0, 0, 0, 0, 0, 4, 0, 0, 0,
  0x77, 2, 0, 0, 0, 0, 0x0e, 0, 0, 0, 0, 0, 3, 0, 1, 0, 1, 0, 3])).apply (.new (some calleePool))).2

/-- The method with this body. -/
def caller : Assembly.Method :=
  { access := ⟨8⟩, ref := ⟨⟨ascii "LA;"⟩, ascii "f", ⟨⟨ascii "V"⟩, ascii "I"⟩⟩, body := (guardedCall.toBody 1 false).toOption }

/-- The text of the method. -/
def callerText : Bytes := Assembly.render caller.write {}

/-- The body of `guardedCall` is read back from `callerText`. -/
theorem toBody_reads_back_guardedCall : ∃ b, guardedCall.toBody 1 false = .ok b ∧ b.elements.length = 6 ∧
    ∃ m t, (Assembly.readMethod caller.ref.owner).Gives { data := callerText.toArray } m t ∧
      m.bare = { caller with body := some b }.bare := by
  obtain ⟨b, body, count⟩ : ∃ b, (guardedCall.toBody 1 false).toOption = some b ∧ b.elements.length = 6 := by
    have counted : (guardedCall.toBody 1 false).toOption.map (·.elements.length) = some 6 := by decide +kernel
    exact Option.map_eq_some_iff.1 counted
  have told := Action.eq_ok_of_toOption body
  have small : callerText.toArray.size ≤ maxRun := by decide +kernel
  have whole : caller = { caller with body := some b } := by
    rw [← body]
    rfl
  have printed : callerText = Assembly.render { caller with body := some b }.write {} := by rw [← whole, callerText]
  have here : ({ data := callerText.toArray } : Assembly.Scanner).Left (Assembly.render { caller with body := some b }.write {}) :=
    ⟨Nat.zero_le _, by simp [printed], small⟩
  have within : ∀ x ∈ guardedCall.code.contents, x.item.Within guardedCall.registers.toNat (1 : Nat) := by decide +kernel
  have recovers : calleePool.Recovers := Pool.recovers_of_entries (by decide +kernel)
  have pool : guardedCall.code.pool = some calleePool := by decide +kernel
  have named : ({ caller with body := none } : Assembly.Method).Readable := {
    access := by decide
    name := by decide
    proto := ⟨Action.eq_ok_of_toOption (by decide +kernel), by decide⟩
    body := fun _ same => by cases same
    params := fun _ same => by cases same }
  have params : Assembly.paramRegistersOf caller.access caller.ref.proto = .ok 1 := Action.eq_ok_of_toOption (by decide +kernel)
  have few : 1 ≤ guardedCall.registers.toNat := by decide +kernel
  have known : ∀ p ∈ guardedCall.code.pool, p.Recovers := by
    intro p hp
    rw [pool] at hp
    exact Option.some.inj hp ▸ recovers
  have attempted : Attempted (fun _ => True) guardedCall := .decode (.new _) _
  exact ⟨b, told, count, toBody_reads_back caller attempted named params few within known told _ _ here⟩

end CodeItem

end Dalvik
