import Dalvik.Proofs.Assembly.Telling
import Dalvik.Proofs.Constant.Refusal
import Dalvik.Proofs.Instruction
import Dalvik.Proofs.Opcode

/-!
# Complaints about a text

`parseClass` gives a class for a text, or refuses it with a `.parse` complaint about one of its
places (`parseClass_reads_or_tells`). For each reader it is shown that it `Tells`: it succeeds
further on in the text, or complains. A loop takes at least one byte in every round (`Consumes`), so
it is done before its fuel is.
-/

namespace Dalvik.Assembly

open Reading

variable {α : Type} {name text w : Bytes} {s : Scanner} {n : Nat} {what : Complaint}

/-! ## Tokens -/

theorem tells_tokenAt (hs : Reads name text s) :
    Tells name text tokenAt (fun p t => s.pos ≤ p.1 ∧ t.pos = p.1 + p.2.length) s :=
  (consumes_skipSpaces.tells hs).bind fun _ t ht le => (tells_position ht).bind fun pos u hu here => by
    obtain ⟨rfl, rfl⟩ := here
    exact (tells_token hu).bind fun w v hv taken => .pure hv ⟨le, taken⟩

theorem consumes_tokenAt : Consumes name text n 0 tokenAt :=
  fun _ hs _ => (tells_tokenAt hs).mono fun _ _ _ h => by omega

/-- `orComplain` on a token that is read without faults gives the value or complains. -/
theorem tells_orComplain {pos : Nat} {parsed : Except Stop α} (faultless : Faultless parsed) (hs : Reads name text s) :
    Tells name text (orComplain pos what parsed) (fun a t => parsed = .ok a ∧ t = s) s := by
  cases parsed with
  | ok a => exact .pure hs ⟨rfl, rfl⟩
  | error stop =>
    cases stop with
    | failure cause => exact refuses_complainAt.tells hs
    | fault message => exact absurd rfl (faultless message)

theorem consumes_orComplain {pos : Nat} {parsed : Except Stop α} (faultless : Faultless parsed) :
    Consumes name text n 0 (orComplain pos what parsed) :=
  fun _ hs _ => (tells_orComplain faultless hs).mono fun _ _ _ h => by rw [h.2]; exact Nat.le_refl _

theorem consumes_readType : Consumes name text n 0 readType :=
  .bind consumes_tokenAt fun _ => consumes_orComplain Descriptor.faultless_parse

theorem consumes_readInt : Consumes name text n 0 readInt :=
  .bind consumes_tokenAt fun _ => .bind (consumes_orComplain Literal.faultless_parseNumber) fun _ =>
    .ite (.pure _) refuses_complainAt.consumes

/-- `readLabel` takes at least the colon. -/
theorem consumes_readLabel : Consumes name text n 1 readLabel := by
  refine fun s hs _ => (tells_tokenAt hs).bind fun p t ht here => ?_
  obtain ⟨pos, label⟩ := p
  dsimp only at here ⊢
  split
  · exact refuses_complainAt.bind.tells ht
  · exact .pure ht (by omega)

theorem consumes_expectComma : Consumes name text n 0 expectComma :=
  .bind consumes_skipSpaces fun _ => .bind consumes_accept fun _ => .check refuses_expecting consumes_skipSpaces

theorem AccessWord.word_ne_nil : ∀ w ∈ AccessWord.all, w.word ≠ [] := by decide

theorem Access.ne_nil_of_ofWord? {t : Target} {bit : UInt32} (h : Access.ofWord? w t = some bit) : w ≠ [] := by
  obtain ⟨entry, found, -⟩ := Option.map_eq_some_iff.1 h
  have same := List.find?_some found
  rw [Bool.and_eq_true, beq_iff_eq] at same
  rw [← same.1]
  exact AccessWord.word_ne_nil entry (List.mem_of_find?_eq_some found)

theorem consumes_accessWords {t : Target} {a : Access} : Consumes name text n 0 (accessWords t n a) := by
  induction n generalizing a with
  | zero => exact .runaway
  | succ n ih =>
    intro s hs enough
    rw [accessWords]
    refine (tells_tokenAt hs).bind fun p u hu here => ?_
    obtain ⟨pos, word⟩ := p
    dsimp only at here ⊢
    split
    · next bit found =>
      have present := List.length_pos_iff.2 (Access.ne_nil_of_ofWord? found)
      exact (ih u hu (by omega)).mono fun _ _ _ le => by omega
    · -- The token is left for others.
      have inside := hu.inside
      exact (tells_setPosition hu (by omega)).bind fun _ v hv back => .pure hv (by omega)

theorem consumes_readAccess {t : Target} : Consumes name text n 0 (readAccess t) :=
  .rounds_bind fun _ => consumes_accessWords

/-! ## Annotations -/

/-- `skipNotesFuel` complains about the place where the block began, which may be any place of the text. -/
theorem consumes_skipNotesFuel {p : Nat} (hp : p ≤ text.length) :
    Consumes name text n 1 (skipNotesFuel (placeOf name text p) n) := by
  induction n with
  | zero => exact .runaway
  | succ n ih =>
    refine fun s hs enough => .get_bind ?_
    dsimp only
    split
    · exact .refuses hp (Action.apply_bind_of_error (Action.apply_refuse _ s))
    · next more =>
      refine (tells_skipLine hs (by simpa using more)).bind fun _ t ht lt => ?_
      refine (consumes_skipBlank.tells ht).bind fun _ u hu le => ?_
      refine (Directive.tells_isEnd hu).bind fun b v hv here => ?_
      obtain ⟨rfl, rfl⟩ := here
      split
      · next ends => exact (tells_skip hu (Directive.startsWith_of_isAt ends)).mono fun _ _ _ pos => by omega
      · exact (ih v hv (by omega)).mono fun _ _ _ le => by omega

theorem consumes_skipNotes : Consumes name text n 1 skipNotes := by
  refine fun s hs _ => (tells_origin hs).bind fun o t ht here => ?_
  obtain ⟨rfl, pos⟩ := here
  have block : Consumes name text (text.length + 1) 1 (do skipNotesFuel (placeOf name text s.pos) (← rounds)) :=
    .rounds_bind fun _ => consumes_skipNotesFuel hs.inside
  exact (block.tells ht).mono fun _ _ _ le => by omega

theorem consumes_noteBlocks {any : Bool} : Consumes name text n 0 (noteBlocks n any) := by
  induction n generalizing any with
  | zero => exact .runaway
  | succ n ih =>
    rw [noteBlocks]
    exact .after Directive.consumes_isNext fun _ =>
      .ite (.turn consumes_skipNotes fun _ => .after consumes_skipBlank fun _ => ih) (.pure _)

/-! ## Instructions -/

theorem consumes_registerOf {pos : Nat} {t : Bytes} : Consumes name text n 0 (registerOf pos t) := by
  cases t with
  | nil => exact refuses_complainAt.consumes
  | cons a r =>
    refine .ite refuses_complainAt.consumes ?_
    split
    · exact .pure _
    · exact refuses_complainAt.consumes

/-- `readRegister` takes at least the letter. -/
theorem consumes_readRegister : Consumes name text n 1 readRegister := by
  refine fun s hs _ => (tells_tokenAt hs).bind fun p t ht here => ?_
  obtain ⟨pos, token⟩ := p
  dsimp only at here ⊢
  cases token with
  | nil => exact refuses_complainAt.tells ht
  | cons a r =>
    rw [List.length_cons] at here
    exact (consumes_registerOf.tells ht).mono fun _ _ _ le => by omega

theorem consumes_registerRange : Consumes name text n 0 registerRange := by
  have ends : ∀ {pos : Nat} {p : Bytes × Bytes}, Consumes name text n 0 (do
      let first ← registerOf pos p.1
      let last ← registerOf pos p.2
      if first.isParam ≠ last.isParam ∨ last.number < first.number then complainAt pos .registerRange
      skipSpaces
      if !(← accept closeBrace) then expecting closeBrace
      let n := (last.number - first.number + 1).toNat
      return (List.range n).map fun (i : Nat) => (⟨first.number + i, first.isParam⟩ : Register)) := fun {_ _} =>
    .bind consumes_registerOf fun _ => .bind consumes_registerOf fun _ => .check refuses_complainAt <|
      .bind consumes_skipSpaces fun _ => .bind consumes_accept fun _ => .check refuses_expecting (.pure _)
  refine .bind consumes_position fun pos => .bind consumes_token fun t => ?_
  dsimp only
  split
  · exact .bind (.pure _) fun _ => ends
  · exact .bind consumes_skipSpaces fun _ => .bind (consumes_expect (by decide)).weaken fun _ =>
      .bind consumes_skipSpaces fun _ => .bind consumes_token fun _ => .bind (.pure _) fun _ => ends

theorem consumes_registersFuel {regs : List Register} : Consumes name text n 0 (registersFuel n regs) := by
  induction n generalizing regs with
  | zero => exact .runaway
  | succ n ih =>
    rw [registersFuel]
    exact .turn consumes_readRegister fun _ => .bind consumes_skipSpaces fun _ => .bind consumes_accept fun _ =>
      .ite (.pure _) <| .bind consumes_accept fun _ =>
        .ite (.get_bind fun _ hs _ => refuses_complain.bind.tells hs) <| .bind consumes_skipSpaces fun _ => ih

theorem consumes_readRegisters {isRange : Bool} : Consumes name text n 0 (readRegisters isRange) :=
  .bind consumes_accept fun _ => .check refuses_expecting <| .bind consumes_skipSpaces fun _ =>
    .bind consumes_accept fun _ => .ite (.pure _) <|
      .ite consumes_registerRange (.rounds_bind fun _ => consumes_registersFuel)

theorem consumes_quoted : Consumes name text n 0 quoted :=
  fun _ hs _ => (tells_quoted hs).mono fun _ _ _ h => by omega

theorem consumes_readRef {kind : Kind} : Consumes name text n 0 (readRef kind) := by
  refine .bind consumes_skipSpaces fun _ => .bind consumes_position fun _ => .get_bind fun s hs enough => ?_
  have parsed : ∀ {pos : Nat} {t : Bytes},
      Consumes name text n 0 (orComplain pos (.invalid kind.name t) (Constant.parseRef kind t)) :=
    consumes_orComplain (Constant.faultless_parseRef kind)
  split
  · exact Consumes.bind consumes_quoted (fun _ => parsed) s hs enough
  · exact Consumes.bind consumes_token (fun _ => parsed) s hs enough

theorem consumes_readLiteral : Consumes name text n 1 readLiteral :=
  .after consumes_skipSpaces fun _ => .after consumes_position fun _ => .bind consumes_literal fun _ =>
    consumes_orComplain Literal.faultless_parse

theorem consumes_fixedRegisters {k : Nat} {regs : List Register} : Consumes name text n 0 (fixedRegisters k regs) := by
  induction k generalizing regs with
  | zero => exact .pure _
  | succ k ih =>
    rw [fixedRegisters]
    have next : Consumes name text n 0 (do fixedRegisters k ((← readRegister) :: regs)) :=
      .bind consumes_readRegister.weaken fun _ => ih
    exact .ite (.bind consumes_expectComma fun _ => next) next

theorem consumes_variadicOperands {i : Instruction} : Consumes name text n 0 (variadicOperands i) := by
  refine .bind consumes_readRegisters fun _ => .bind consumes_expectComma fun _ => .bind consumes_readRef fun _ => ?_
  split
  · exact .bind consumes_expectComma fun _ => .bind consumes_readRef fun _ => .pure _
  · exact .pure _

theorem consumes_fixedOperands {i : Instruction} : Consumes name text n 0 (fixedOperands i) := by
  refine .bind consumes_fixedRegisters fun _ => ?_
  have label : ∀ {f : Bytes → Instruction}, Consumes name text n 0 (do return f (← readLabel)) := fun {_} =>
    .bind consumes_readLabel.weaken fun _ => .pure _
  dsimp only
  split
  · exact .pure _
  · exact .ite (.bind consumes_expectComma fun _ => label) label
  · exact .bind consumes_expectComma fun _ => .bind consumes_readLiteral.weaken fun _ => .pure _
  · exact .bind consumes_expectComma fun _ => .bind consumes_readRef fun _ => .pure _

theorem Opcode.ne_nil_of_ofName? {o : Opcode} (h : Opcode.ofName? w = some o) (hp : o.isPayload = false) : w ≠ [] := by
  have begins := (Opcode.name_bytes o (Opcode.mem_instructions (Opcode.mem_all_of_ofName? h) hp)).1
  rw [Opcode.name_of_ofName? h] at begins
  rintro rfl
  cases begins

/-- `readInstruction` takes at least the name of the instruction. -/
theorem consumes_readInstruction : Consumes name text n 1 readInstruction := by
  refine .after consumes_origin fun origin => .after consumes_position fun _ s hs _ => ?_
  refine (tells_token hs).bind fun w t ht pos => ?_
  dsimp only
  split
  · next o found =>
    split
    · exact refuses_complainAt.bind.tells ht
    · next code =>
      have present := List.length_pos_iff.2 (Opcode.ne_nil_of_ofName? found (by simpa using code))
      have operands : Consumes name text (text.length + 1) 0 (do
          skipSpaces
          if o.format.isVariadic then variadicOperands { origin, opcode := o } else fixedOperands { origin, opcode := o }) :=
        .bind consumes_skipSpaces fun _ => .ite consumes_variadicOperands consumes_fixedOperands
      exact (operands.tells ht).mono fun _ _ _ le => by omega
  · exact refuses_complainAt.bind.tells ht

theorem consumes_readLabelLine : Consumes name text n 1 readLabelLine :=
  .after consumes_origin fun _ => .bind consumes_readLabel fun _ => .pure _

/-! ## Tables -/

theorem consumes_packedTargets {ts : List Bytes} : Consumes name text n 0 (packedTargets n ts) := by
  induction n generalizing ts with
  | zero => exact .runaway
  | succ n ih =>
    rw [packedTargets]
    exact .bind consumes_skipBlank fun _ => .bind Directive.consumes_isEnd fun _ => .get_bind fun s hs enough =>
      Consumes.ite (.pure _) (.turn consumes_readLabel fun _ => ih) s hs enough

theorem consumes_readPackedSwitch : Consumes name text n 1 readPackedSwitch :=
  .after consumes_origin fun _ => .bind (Directive.consumes_expect (by decide)) fun _ =>
    .bind consumes_readLiteral.weaken fun _ => .rounds_bind fun _ => .bind consumes_packedTargets fun _ =>
      .bind Directive.consumes_expectEnd fun _ => .pure _

theorem consumes_sparseCases {cs : List (Int × Bytes)} : Consumes name text n 0 (sparseCases n cs) := by
  induction n generalizing cs with
  | zero => exact .runaway
  | succ n ih =>
    rw [sparseCases]
    have row : ∀ {key : Int}, Consumes name text n 0 (do
        skipSpaces
        expect (ascii "->")
        sparseCases n ((key, ← readLabel) :: cs)) := fun {_} =>
      .bind consumes_skipSpaces fun _ => .bind (consumes_expect (by decide)).weaken fun _ =>
        .bind consumes_readLabel.weaken fun _ => ih
    exact .bind consumes_skipBlank fun _ => .bind Directive.consumes_isEnd fun _ => .get_bind fun s hs enough =>
      Consumes.ite (.pure _) (.turn consumes_readLiteral fun _ => row) s hs enough

theorem consumes_readSparseSwitch : Consumes name text n 1 readSparseSwitch :=
  .after consumes_origin fun _ => .bind (Directive.consumes_expect (by decide)) fun _ =>
    .rounds_bind fun _ => .bind consumes_sparseCases fun _ => .bind Directive.consumes_expectEnd fun _ => .pure _

theorem consumes_arrayValues {vs : List Int} : Consumes name text n 0 (arrayValues n vs) := by
  induction n generalizing vs with
  | zero => exact .runaway
  | succ n ih =>
    rw [arrayValues]
    exact .bind consumes_skipBlank fun _ => .bind Directive.consumes_isEnd fun _ => .get_bind fun s hs enough =>
      Consumes.ite (.pure _) (.turn consumes_readLiteral fun _ => ih) s hs enough

theorem consumes_readArrayData : Consumes name text n 1 readArrayData :=
  .after consumes_origin fun _ => .bind (Directive.consumes_expect (by decide)) fun _ =>
    .bind consumes_skipSpaces fun _ => .bind consumes_position fun _ => .bind consumes_readInt fun _ =>
      .check refuses_complainAt <| .rounds_bind fun _ => .bind consumes_arrayValues fun _ =>
        .bind Directive.consumes_expectEnd fun _ => .pure _

/-! ## Bodies -/

/-- An action that skips a word and goes on with one that `Consumes` takes at least the word. -/
theorem tells_word {k : PUnit → Reading α} (hs : Reads name text s) (next : s.isAt w = true) (hw : w ≠ [])
    (enough : text.length < s.pos + (n + 1)) (hk : ∀ u, Consumes name text n 0 (k u)) :
    Tells name text (move (·.skip w.length) >>= k) (fun _ t => s.pos < t.pos) s := by
  have length := List.length_pos_iff.2 hw
  refine (tells_skip hs (Directive.startsWith_of_isAt next)).bind fun u t ht pos => ?_
  exact (hk u t ht (by omega)).mono fun _ _ _ le => by omega

theorem consumes_readCatchType : Consumes name text n 1 readCatchType := by
  refine fun s hs _ => (Directive.tells_isNext hs).bind fun b t ht here => ?_
  obtain ⟨rfl, rfl⟩ := here
  split
  · next next => exact tells_word (n := text.length) hs next (by decide) (by omega) fun _ => .pure _
  · exact (Consumes.bind (Directive.consumes_expect (by decide)) fun _ => consumes_readType).tells hs

theorem consumes_readCatchRange : Consumes name text n 1 readCatchRange :=
  .after consumes_origin fun _ => .bind consumes_readCatchType fun _ => .bind consumes_skipSpaces fun _ =>
    .bind consumes_accept fun _ => .check refuses_expecting <| .bind consumes_readLabel.weaken fun _ =>
      .bind consumes_skipSpaces fun _ => .bind (consumes_expect (by decide)).weaken fun _ =>
        .bind consumes_readLabel.weaken fun _ => .bind consumes_skipSpaces fun _ =>
          .bind consumes_accept fun _ => .check refuses_expecting <|
            .bind consumes_readLabel.weaken fun _ => .pure _

/-- `nextInBody` takes at least one byte, unless it answers that the body is finished. -/
theorem tells_nextInBody (hs : Reads name text s) (more : s.finished = false) :
    Tells name text nextInBody (fun v t => v = .finish ∧ t = s ∨ s.pos < t.pos) s := by
  refine .get_bind (.ite (fun _ => .pure hs (.inl ⟨rfl, rfl⟩)) fun _ => ?_)
  refine Tells.mono (J := fun _ t => s.pos < t.pos) ?_ fun _ _ _ lt => .inr lt
  have number : ∀ {make : Int → Next}, Consumes name text text.length 0 (do return make (← readInt)) := fun {_} =>
    .bind consumes_readInt fun _ => .pure _
  refine .ite (fun next => tells_word hs next (by decide) (by omega) fun _ => number) fun _ => ?_
  refine .ite (fun next => tells_word hs next (by decide) (by omega) fun _ => number) fun _ => ?_
  refine .ite (fun _ => (Consumes.bind consumes_readCatchRange fun _ => .pure _).tells hs) fun _ => ?_
  refine .ite (fun _ => (Consumes.bind consumes_readPackedSwitch fun _ => .pure _).tells hs) fun _ => ?_
  refine .ite (fun _ => (Consumes.bind consumes_readSparseSwitch fun _ => .pure _).tells hs) fun _ => ?_
  refine .ite (fun _ => (Consumes.bind consumes_readArrayData fun _ => .pure _).tells hs) fun _ => ?_
  refine .ite (fun _ => (Consumes.bind consumes_skipNotes fun _ => .pure _).tells hs) fun _ => ?_
  refine .ite (fun _ => (tells_skipLine hs more).bind fun _ _ ht lt => .pure ht lt) fun _ => ?_
  refine .ite (fun _ => (Consumes.bind consumes_readLabelLine fun _ => .pure _).tells hs) fun _ => ?_
  refine .ite (fun _ => refuses_complain.tells hs) fun _ => ?_
  exact (Consumes.bind consumes_readInstruction fun _ => .pure _).tells hs

theorem consumes_bodyFuel {seen : Bool} {b : Body} : Consumes name text n 0 (bodyFuel n seen b) := by
  induction n generalizing seen b with
  | zero => exact .runaway
  | succ n ih =>
    rw [bodyFuel]
    refine .bind consumes_skipBlank fun _ => .get_bind fun s hs enough => ?_
    dsimp only
    split
    · exact refuses_complain.bind.tells hs
    next more =>
    refine (tells_nextInBody hs (by simpa using more)).bind fun v t ht here => ?_
    have next : ∀ {seen b}, Consumes name text n 0 (do expectLineEnd; bodyFuel n seen b) := fun {_ _} =>
      .bind consumes_expectLineEnd fun _ => ih
    rcases here with ⟨rfl, rfl⟩ | lt
    · exact .pure ht (Nat.le_refl _)
    have onwards : ∀ {x : Reading (Bool × Body)}, Consumes name text n 0 x →
        Tells name text x (fun _ u => s.pos + 0 ≤ u.pos) t := fun hx =>
      (hx t ht (by omega)).mono fun _ _ _ le => by omega
    cases v with
    | finish => exact .pure ht (Nat.le_of_lt lt)
    | skipped => exact onwards ih
    | registers count => exact onwards next
    | locals count => exact onwards next
    | element value => exact onwards next
    | nothing => exact onwards next

theorem consumes_readBody {paramRegisters : Int} : Consumes name text n 0 (readBody paramRegisters) :=
  .rounds_bind fun _ => .bind consumes_bodyFuel fun _ => .pure _

/-! ## Members -/

theorem consumes_readValue {t : Descriptor} : Consumes name text n 0 (readValue t) := by
  refine .bind consumes_position fun pos => .bind consumes_accept fun _ => .ite ?_ ?_
  · exact .bind consumes_skipSpaces fun _ => .bind consumes_token fun _ =>
      .bind (consumes_orComplain FieldRef.faultless_parse) fun _ => .pure _
  refine fun s hs _ => (tells_literal hs).bind fun w u hu here => ?_
  obtain ⟨first, r, rfl⟩ := List.exists_cons_of_ne_nil here.1
  refine (Consumes.tells (m := 0) ?_ hu).mono fun _ _ _ le => by omega
  have parsed : ∀ {β : Type} {make : β → Constant} {e : Except Stop β}, Faultless e →
      Consumes name text (text.length + 1) 0 (orComplain pos (.invalidFor (first :: r) t.sourceName) (e.map make)) :=
    fun h => consumes_orComplain h.map
  refine .bind (.pure first) fun _ => ?_
  refine .ite (.check refuses_complainAt (.pure _)) <| .ite (parsed (Constant.faultless_parse _)) <|
    .ite (parsed MethodRef.faultless_parse) <| .ite (parsed FieldRef.faultless_parse) <|
    .ite (parsed (Literal.faultless_parse.bind fun p _ => faultless_coerce p t)) <|
    .ite (parsed Descriptor.faultless_parse) <| .ite refuses_complainAt.consumes (parsed Literal.faultless_parse)

/-- The end of a field, with or without annotations: `.end field` is read if it is there, and otherwise the scanner is
set back to where it was. -/
theorem consumes_fieldEnd {f : Field} : Consumes name text n 0 (do
    let pos ← position
    skipBlank
    let noted ← noteBlocks (← rounds) false
    if ← Directive.field.isEnd then
      move (·.skip Directive.field.endWord.length)
      return f
    if noted then expecting Directive.field.endWord
    move (·.setPosition pos)
    return f) := by
  refine fun s hs _ => (tells_position hs).bind fun pos t ht here => ?_
  obtain ⟨rfl, rfl⟩ := here
  refine (consumes_skipBlank.tells ht).bind fun _ u hu le => (tells_rounds hu).bind fun k v hv here => ?_
  obtain ⟨rfl, rfl⟩ := here
  refine (consumes_noteBlocks v hv (by omega)).bind fun noted w hw le' => ?_
  refine (Directive.tells_isEnd hw).bind fun b x hx here => ?_
  obtain ⟨rfl, rfl⟩ := here
  refine .ite (fun next => ?_) fun _ => .ite (fun _ => refuses_expecting.bind.tells hx) fun _ => ?_
  · exact (tells_skip hx (Directive.startsWith_of_isAt next)).bind fun _ y hy pos => .pure hy (by omega)
  · exact (tells_setPosition hx ht.inside).bind fun _ y hy back => .pure hy (by omega)

theorem consumes_readField {owner : Descriptor} : Consumes name text n 1 (readField owner) := by
  refine .after consumes_skipBlank fun _ => .after consumes_origin fun _ =>
    .bind (Directive.consumes_expect (by decide)) fun _ => .bind consumes_readAccess fun _ =>
      .bind consumes_tokenAt fun p => ?_
  obtain ⟨pos, t⟩ := p
  dsimp only
  split
  · refine .ite refuses_complainAt.bind.consumes <| .bind (.pure _) fun _ =>
      .bind (consumes_orComplain Descriptor.faultless_parse) fun _ => .bind consumes_skipSpaces fun _ =>
      .bind consumes_accept fun _ => .ite ?_ ?_
    · exact .bind consumes_skipSpaces fun _ => .bind consumes_readValue fun _ => .bind (.pure _) fun _ =>
        .bind consumes_expectLineEnd fun _ => consumes_fieldEnd
    · exact .bind (.pure _) fun _ => .bind consumes_expectLineEnd fun _ => consumes_fieldEnd
  · exact refuses_complainAt.bind.consumes

theorem consumes_readMethod {owner : Descriptor} : Consumes name text n 1 (readMethod owner) := by
  refine .after consumes_skipBlank fun _ => .after consumes_origin fun _ =>
    .bind (Directive.consumes_expect (by decide)) fun _ => .bind consumes_readAccess fun access =>
      .bind consumes_tokenAt fun p => ?_
  obtain ⟨pos, t⟩ := p
  dsimp only
  split
  · refine .bind (.pure _) fun paren s hs enough => ?_
    refine (tells_orComplain Prototype.faultless_parse hs).bind fun proto u hu here => ?_
    obtain ⟨read, rfl⟩ := here
    obtain ⟨registers, counted⟩ := exists_paramRegistersOf read access
    rw [counted]
    refine Consumes.bind consumes_expectLineEnd (fun _ => ?_) u hu enough
    exact .bind (.pure registers) fun _ => .bind consumes_readBody fun _ =>
      .bind Directive.consumes_expectEnd fun _ => .pure _
  · exact refuses_complainAt.bind.consumes

/-! ## Classes -/

theorem consumes_classFuel {c : Class} : Consumes name text n 0 (classFuel n c) := by
  induction n generalizing c with
  | zero => exact .runaway
  | succ n ih =>
    rw [classFuel]
    refine .bind consumes_skipBlank fun _ => .get_bind fun s hs enough => ?_
    have next : ∀ {c}, Consumes name text n 0 (do expectLineEnd; classFuel n c) := fun {_} =>
      .bind consumes_expectLineEnd fun _ => ih
    have word : ∀ {w : Bytes} {k : PUnit → Reading Class}, s.isAt w = true → w ≠ [] →
        (∀ u, Consumes name text n 0 (k u)) →
        Tells name text (move (·.skip w.length) >>= k) (fun _ t => s.pos + 0 ≤ t.pos) s := fun located hw hk =>
      (tells_word hs located hw enough hk).mono fun _ _ _ lt => Nat.le_of_lt lt
    have type : ∀ {f : Descriptor → Class}, Consumes name text n 0 (do
        let c ← pure (f (← readType))
        expectLineEnd
        classFuel n c) := fun {_} => .bind consumes_readType fun _ => .bind (.pure _) fun _ => next
    refine .ite (fun _ => .pure hs (Nat.le_refl _)) fun _ => ?_
    refine .ite (fun located => word located (by decide) fun _ => type) fun _ => ?_
    refine .ite (fun located => ?_) fun _ => ?_
    · refine word located (by decide) fun _ => .bind consumes_skipSpaces fun _ => .bind consumes_position fun _ =>
        .bind consumes_quoted fun _ => ?_
      split
      · exact .bind (.pure _) fun _ => next
      · exact refuses_complainAt.bind.consumes
    refine .ite (fun located => word located (by decide) fun _ => type) fun _ => ?_
    refine .ite (fun _ => Consumes.turn consumes_readField (fun _ => .bind (.pure _) fun _ => next) s hs enough) fun _ => ?_
    refine .ite (fun _ => Consumes.turn consumes_readMethod (fun _ => .bind (.pure _) fun _ => next) s hs enough) fun _ => ?_
    refine .ite (fun _ => Consumes.turn consumes_skipNotes (fun _ => .bind (.pure _) fun _ => next) s hs enough) fun _ => ?_
    exact refuses_complain.bind.tells hs

theorem consumes_readClass : Consumes name text n 0 readClass :=
  .bind consumes_skipBlank fun _ => .bind consumes_origin fun _ =>
    .bind (Directive.consumes_expect (by decide)).weaken fun _ => .bind consumes_readAccess fun _ =>
      .bind consumes_readType fun _ => .rounds_bind fun _ => .bind consumes_classFuel fun _ => .pure _

/-- For every text of fewer than 2^63 bytes, `parseClass` gives a class or fails with a `.parse` complaint, and the
line and the column of the complaint are those of a position of the text (`placeOf`). -/
theorem parseClass_reads_or_tells (name text : Bytes) (fits : text.length < twoPow 63) :
    (∃ c, parseClass name text = .ok c) ∨
      ∃ p ≤ text.length, ∃ what, parseClass name text = .error (.failure (.parse (placeOf name text p) what)) := by
  cases consumes_readClass.tells (.ofBytes fits) with
  | gives run => exact .inl ⟨_, congrArg Prod.fst run⟩
  | refuses inside run => exact .inr ⟨_, inside, _, congrArg Prod.fst run⟩

/-- A text whose first word is not `.class` is refused at line 2, column 2, where the word stands. -/
theorem parseClass_tells_word : (ascii "\n x").length < twoPow 63 ∧
    parseClass (ascii "a") (ascii "\n x") =
      .error (.failure (.parse ⟨ascii "a", 2, 2⟩ (.expecting (ascii "'.class'") (ascii "x")))) ∧
    ∃ p ≤ (ascii "\n x").length, placeOf (ascii "a") (ascii "\n x") p = ⟨ascii "a", 2, 2⟩ := by
  have refused : parseClass (ascii "a") (ascii "\n x") =
      .error (.failure (.parse ⟨ascii "a", 2, 2⟩ (.expecting (ascii "'.class'") (ascii "x")))) := rfl
  refine ⟨by decide, refused, ?_⟩
  obtain ⟨c, read⟩ | ⟨p, inside, what, told⟩ := parseClass_reads_or_tells (ascii "a") (ascii "\n x") (by decide)
  · rw [refused] at read
    cases read
  · rw [refused] at told
    simp only [Except.error.injEq, Stop.failure.injEq, Failure.parse.injEq] at told
    exact ⟨p, inside, told.1.symm⟩

end Dalvik.Assembly
