import Dalvik.Assembly.Parser
import Dalvik.Proofs.Assembly.Place

/-!
# Origins

A scanner remembers the last place it told (`line`, `lineStart` and `counted`). `origin` counts on
from there, or from the beginning of the text if the position is in front of it. `Tally name text s`
says that what the scanner `s` remembers is right. Every move and every reader upholds it
(`Action.Upholds (Tally name text)`), whether it succeeds or fails half way, so after any calls
`origin` is the place of the position (`origin_of_calls`).
-/

namespace Dalvik.Assembly

open Reading

variable {α β : Type} {name text w : Bytes} {s : Scanner} {n : Nat} {what : Complaint}

/-! ## Complaints -/

/-- `act` upholds `Tally name text`, and if it fails with a `.parse` complaint, the complaint is about the place of
the position it leaves. -/
structure Placed (name text : Bytes) (act : Reading α) : Prop where
  upholds : Action.Upholds (Tally name text) act
  place {s : Scanner} : Tally name text s → ∀ o what t, act.apply s = (.error (.failure (.parse o what)), t) →
    o = placeOf name text t.pos

namespace Placed

variable {x : Reading α} {f : α → Reading β}

theorem pure (a : α) : Placed name text (Pure.pure a) :=
  ⟨Action.upholds_pure a, fun _ _ _ _ e => by cases e⟩

theorem fault (m : Option Bytes) : Placed name text (throw (.fault m) : Reading α) :=
  ⟨Action.upholds_throw _, fun _ _ _ _ e => by cases e⟩

theorem bind (hx : Placed name text x) (hf : ∀ a, Placed name text (f a)) : Placed name text (x >>= f) := by
  refine ⟨hx.upholds.bind fun a => (hf a).upholds, fun hs o what t e => ?_⟩
  rcases first : x.apply _ with ⟨r, u⟩
  cases r with
  | ok a =>
    rw [Action.apply_bind_of_ok first] at e
    exact (hf a).place (hx.upholds.gives hs first) o what t e
  | error stop =>
    rw [Action.apply_bind_of_error first] at e
    cases e
    exact hx.place hs o what t first

theorem get_bind {f : Scanner → Reading β} (h : ∀ s, Tally name text s → Placed name text (f s)) :
    Placed name text (get >>= f) :=
  ⟨Action.upholds_get fun s hs => (h s hs).upholds s hs, fun {s} hs o what t e =>
    (h s hs).place hs o what t ((Action.apply_bind_of_ok (Action.apply_get s)).symm.trans e)⟩

theorem ite {p : Prop} [Decidable p] {x y : Reading α} (hx : Placed name text x) (hy : Placed name text y) :
    Placed name text (if p then x else y) := by
  split
  · exact hx
  · exact hy

theorem set {t : Scanner} (ht : Tally name text t) : Placed name text (MonadStateOf.set t) :=
  ⟨Action.upholds_set ht, fun _ _ _ _ e => by cases e⟩

theorem move {g : Scanner → Scanner} (h : ∀ s, Tally name text s → Tally name text (g s)) :
    Placed name text (Reading.move g) :=
  ⟨Action.upholds_modify h, fun _ _ _ _ e => by cases e⟩

theorem step {g : Scanner → α × Scanner} (h : ∀ s, Tally name text s → Tally name text (g s).2) :
    Placed name text (Reading.step g) :=
  .get_bind fun s hs => .bind (.set (h s hs)) fun _ => .pure _

end Placed

/-- `act` never gives a value, and is `Placed`. -/
def Complains (name text : Bytes) (act : Reading α) : Prop :=
  ∀ s, Tally name text s → ∃ what t, Tally name text t ∧
    act.apply s = (.error (.failure (.parse (placeOf name text t.pos) what)), t)

namespace Complains

variable {x : Reading α} {f : α → Reading β}

theorem placed (h : Complains name text x) : Placed name text x := by
  constructor
  · intro s hs
    obtain ⟨what, t, ht, run⟩ := h s hs
    rwa [run]
  · intro s hs o what' u e
    obtain ⟨what, t, ht, run⟩ := h s hs
    rw [run] at e
    cases e
    rfl

theorem upholds (h : Complains name text x) : Action.Upholds (Tally name text) x := h.placed.upholds

theorem bind (h : Complains name text x) : Complains name text (x >>= f) := fun s hs => by
  obtain ⟨what, t, ht, run⟩ := h s hs
  exact ⟨what, t, ht, Action.apply_bind_of_error run⟩

theorem check {p : Prop} [Decidable p] {y : Reading β} (h : Complains name text x) (hy : Action.Upholds (Tally name text) y) :
    Action.Upholds (Tally name text) (if p then x >>= f else y) :=
  .ite h.bind.upholds hy

end Complains

namespace Reading

theorem placed_origin : Placed name text origin := .step fun _ hs => hs.origin.2.1

theorem complains_complain : Complains name text (complain what : Reading α) := by
  intro s hs
  obtain ⟨place, tally, pos⟩ := hs.origin
  refine ⟨what, s.origin.2, tally, ?_⟩
  rw [pos, ← place]
  rfl

/-- `complainAt pos` sets the scanner to `pos` and complains about the place there. -/
theorem complains_complainAt {pos : Nat} : Complains name text (complainAt pos what : Reading α) :=
  fun s hs => complains_complain (s.setPosition pos) (hs.setPosition pos)

theorem complains_expecting : Complains name text (expecting w : Reading α) :=
  fun s hs => complains_complain s hs

/-! ## Moves -/

theorem placed_skipSpaces : Placed name text skipSpaces := .move fun _ hs => (hs.skipWhile _).1

theorem placed_skipBlank : Placed name text skipBlank := .move fun _ hs => (hs.skipBlankFuel _).1

theorem placed_skipLine : Placed name text (move Scanner.skipLine) := .move fun _ hs => hs.skipLine.1

theorem placed_setPosition {p : Int} : Placed name text (move (·.setPosition p)) := .move fun _ hs => hs.setPosition p

theorem placed_skip {k : Int} : Placed name text (move (·.skip k)) := .move fun _ hs => hs.setPosition _

theorem placed_atLineEnd : Placed name text (step Scanner.atLineEnd) := .step fun _ hs => (hs.skipWhile _).1

theorem placed_token : Placed name text token := .step fun _ hs => (hs.skipWhile _).1

theorem placed_accept : Placed name text (accept w) := .step fun _ hs => (hs.accept w).1

/-- `quoted` complains about the place where the literal breaks off. -/
theorem placed_quoted : Placed name text quoted := by
  refine .get_bind fun s hs => ?_
  have size := hs.size
  obtain ⟨closed, unclosed⟩ := @quotedEnd_le s.peek s.data (s.data.size - s.pos) (s.pos + 1)
  dsimp only
  split
  · exact complains_complain.bind.placed
  split
  · next stop e =>
    have le := (closed stop e).2
    exact .bind (.set (hs.moved (by omega))) fun _ => .pure _
  · next stop e =>
    have le := unclosed stop e
    exact .bind (.set (hs.moved (by omega))) fun _ => complains_complain.placed

theorem placed_literal : Placed name text literal := by
  refine .get_bind fun s _ => .ite placed_quoted <| .bind placed_token fun t => ?_
  exact .ite complains_complain.bind.placed (.pure _)

theorem placed_expect : Placed name text (expect w) := by
  refine .get_bind fun s hs => ?_
  dsimp only
  split
  · exact complains_expecting.bind.placed
  next next =>
  have room := hs.room (w := w) (by simpa using next)
  split
  · exact .fault none
  · split
    · exact complains_expecting.bind.placed
    · exact .set (hs.moved room)

theorem placed_expectLineEnd : Placed name text expectLineEnd :=
  .bind placed_atLineEnd fun _ => .ite (.get_bind fun _ _ => complains_complain.placed) (.pure _)

end Reading

/-! ## Readers

All that a reader does to a scanner is to move it and to tell places, also where it goes back to look for something
else, so each is taken apart into that. Loops are gone through by the rounds they have left, enough or not.
-/

variable {d : Directive}

theorem upholds_rounds {f : Nat → Reading α} (h : ∀ k, Action.Upholds (Tally name text) (f k)) :
    Action.Upholds (Tally name text) (rounds >>= f) :=
  .bind (Action.upholds_get fun _ hs => hs) h

theorem upholds_runaway : Action.Upholds (Tally name text) (runaway : Reading α) := Action.upholds_throw _

theorem upholds_position : Action.Upholds (Tally name text) position := Action.upholds_get fun _ hs => hs

namespace Directive

theorem upholds_isNext : Action.Upholds (Tally name text) d.isNext := Action.upholds_get fun _ hs => hs

theorem upholds_isEnd : Action.Upholds (Tally name text) d.isEnd := Action.upholds_get fun _ hs => hs

theorem upholds_expect : Action.Upholds (Tally name text) d.expect :=
  .bind upholds_isNext fun _ => complains_expecting.check placed_skip.upholds

theorem upholds_expectEnd : Action.Upholds (Tally name text) d.expectEnd :=
  .bind placed_skipBlank.upholds fun _ => .bind upholds_isEnd fun _ => complains_expecting.check placed_skip.upholds

end Directive

theorem upholds_tokenAt : Action.Upholds (Tally name text) tokenAt :=
  .bind placed_skipSpaces.upholds fun _ => .bind upholds_position fun _ => .bind placed_token.upholds fun _ =>
    Action.upholds_pure _

theorem upholds_orComplain {pos : Nat} {parsed : Except Stop α} :
    Action.Upholds (Tally name text) (orComplain pos what parsed) := by
  unfold orComplain
  split
  · exact Action.upholds_pure _
  · exact complains_complainAt.upholds
  · exact Action.upholds_throw _

theorem upholds_readType : Action.Upholds (Tally name text) readType :=
  .bind upholds_tokenAt fun _ => upholds_orComplain

theorem upholds_readInt : Action.Upholds (Tally name text) readInt :=
  .bind upholds_tokenAt fun _ => .bind upholds_orComplain fun _ =>
    .ite (Action.upholds_pure _) complains_complainAt.upholds

theorem upholds_readLabel : Action.Upholds (Tally name text) readLabel :=
  .bind upholds_tokenAt fun _ => complains_complainAt.check (Action.upholds_pure _)

theorem upholds_expectComma : Action.Upholds (Tally name text) expectComma :=
  .bind placed_skipSpaces.upholds fun _ => .bind placed_accept.upholds fun _ =>
    complains_expecting.check placed_skipSpaces.upholds

theorem upholds_accessWords {t : Target} {a : Access} : Action.Upholds (Tally name text) (accessWords t n a) := by
  induction n generalizing a with
  | zero => exact upholds_runaway
  | succ n ih =>
    rw [accessWords]
    refine .bind upholds_tokenAt fun p => ?_
    dsimp only
    split
    · exact ih
    · -- The token is left for others.
      exact .bind placed_setPosition.upholds fun _ => Action.upholds_pure _

theorem upholds_readAccess {t : Target} : Action.Upholds (Tally name text) (readAccess t) :=
  upholds_rounds fun _ => upholds_accessWords

/-! ### Annotations -/

theorem upholds_skipNotesFuel {start : Origin} : Action.Upholds (Tally name text) (skipNotesFuel start n) := by
  induction n with
  | zero => exact upholds_runaway
  | succ n ih =>
    rw [skipNotesFuel]
    have block : Action.Upholds (Tally name text) (do
        move Scanner.skipLine
        skipBlank
        if ← Directive.notes.isEnd then move (·.skip Directive.notes.endWord.length)
        else skipNotesFuel start n) :=
      .bind placed_skipLine.upholds fun _ => .bind placed_skipBlank.upholds fun _ =>
        .bind Directive.upholds_isEnd fun _ => .ite placed_skip.upholds ih
    exact .get_bind fun _ _ => .ite (.bind (Action.upholds_refuse _) fun _ => block) block

theorem upholds_skipNotes : Action.Upholds (Tally name text) skipNotes :=
  .bind placed_origin.upholds fun _ => upholds_rounds fun _ => upholds_skipNotesFuel

theorem upholds_noteBlocks {any : Bool} : Action.Upholds (Tally name text) (noteBlocks n any) := by
  induction n generalizing any with
  | zero => exact upholds_runaway
  | succ n ih =>
    rw [noteBlocks]
    exact .bind Directive.upholds_isNext fun _ =>
      .ite (.bind upholds_skipNotes fun _ => .bind placed_skipBlank.upholds fun _ => ih) (Action.upholds_pure _)

/-! ### Instructions -/

theorem upholds_registerOf {pos : Nat} {t : Bytes} : Action.Upholds (Tally name text) (registerOf pos t) := by
  cases t with
  | nil => exact complains_complainAt.upholds
  | cons a r =>
    refine .ite complains_complainAt.upholds ?_
    split
    · exact Action.upholds_pure _
    · exact complains_complainAt.upholds

theorem upholds_readRegister : Action.Upholds (Tally name text) readRegister :=
  .bind upholds_tokenAt fun _ => upholds_registerOf

theorem upholds_registerRange : Action.Upholds (Tally name text) registerRange := by
  have ends : ∀ {pos : Nat} {p : Bytes × Bytes}, Action.Upholds (Tally name text) (do
      let first ← registerOf pos p.1
      let last ← registerOf pos p.2
      if first.isParam ≠ last.isParam ∨ last.number < first.number then complainAt pos .registerRange
      skipSpaces
      if !(← accept closeBrace) then expecting closeBrace
      let n := (last.number - first.number + 1).toNat
      return (List.range n).map fun (i : Nat) => (⟨first.number + i, first.isParam⟩ : Register)) := fun {_ _} =>
    .bind upholds_registerOf fun _ => .bind upholds_registerOf fun _ => complains_complainAt.check <|
      .bind placed_skipSpaces.upholds fun _ => .bind placed_accept.upholds fun _ =>
        complains_expecting.check (Action.upholds_pure _)
  refine .bind upholds_position fun pos => .bind placed_token.upholds fun t => ?_
  dsimp only
  split
  · exact .bind (Action.upholds_pure _) fun _ => ends
  · exact .bind placed_skipSpaces.upholds fun _ => .bind placed_expect.upholds fun _ =>
      .bind placed_skipSpaces.upholds fun _ => .bind placed_token.upholds fun _ => .bind (Action.upholds_pure _) fun _ => ends

theorem upholds_registersFuel {regs : List Register} : Action.Upholds (Tally name text) (registersFuel n regs) := by
  induction n generalizing regs with
  | zero => exact upholds_runaway
  | succ n ih =>
    rw [registersFuel]
    exact .bind upholds_readRegister fun _ => .bind placed_skipSpaces.upholds fun _ => .bind placed_accept.upholds fun _ =>
      .ite (Action.upholds_pure _) <| .bind placed_accept.upholds fun _ =>
        .ite (.get_bind fun _ _ => complains_complain.bind.upholds) <|
          .bind placed_skipSpaces.upholds fun _ => ih

theorem upholds_readRegisters {isRange : Bool} : Action.Upholds (Tally name text) (readRegisters isRange) :=
  .bind placed_accept.upholds fun _ => complains_expecting.check <| .bind placed_skipSpaces.upholds fun _ =>
    .bind placed_accept.upholds fun _ => .ite (Action.upholds_pure _) <|
      .ite upholds_registerRange (upholds_rounds fun _ => upholds_registersFuel)

theorem upholds_readRef {kind : Kind} : Action.Upholds (Tally name text) (readRef kind) :=
  .bind placed_skipSpaces.upholds fun _ => .bind upholds_position fun _ => .get_bind fun _ _ =>
    .ite (.bind placed_quoted.upholds fun _ => upholds_orComplain) (.bind placed_token.upholds fun _ => upholds_orComplain)

theorem upholds_readLiteral : Action.Upholds (Tally name text) readLiteral :=
  .bind placed_skipSpaces.upholds fun _ => .bind upholds_position fun _ => .bind placed_literal.upholds fun _ =>
    upholds_orComplain

theorem upholds_fixedRegisters {k : Nat} {regs : List Register} :
    Action.Upholds (Tally name text) (fixedRegisters k regs) := by
  induction k generalizing regs with
  | zero => exact Action.upholds_pure _
  | succ k ih =>
    rw [fixedRegisters]
    have next : Action.Upholds (Tally name text) (do fixedRegisters k ((← readRegister) :: regs)) :=
      .bind upholds_readRegister fun _ => ih
    exact .ite (.bind upholds_expectComma fun _ => next) next

theorem upholds_variadicOperands {i : Instruction} : Action.Upholds (Tally name text) (variadicOperands i) := by
  refine .bind upholds_readRegisters fun _ => .bind upholds_expectComma fun _ => .bind upholds_readRef fun _ => ?_
  split
  · exact .bind upholds_expectComma fun _ => .bind upholds_readRef fun _ => Action.upholds_pure _
  · exact Action.upholds_pure _

theorem upholds_fixedOperands {i : Instruction} : Action.Upholds (Tally name text) (fixedOperands i) := by
  refine .bind upholds_fixedRegisters fun _ => ?_
  have label : ∀ {f : Bytes → Instruction}, Action.Upholds (Tally name text) (do return f (← readLabel)) := fun {_} =>
    .bind upholds_readLabel fun _ => Action.upholds_pure _
  dsimp only
  split
  · exact Action.upholds_pure _
  · exact .ite (.bind upholds_expectComma fun _ => label) label
  · exact .bind upholds_expectComma fun _ => .bind upholds_readLiteral fun _ => Action.upholds_pure _
  · exact .bind upholds_expectComma fun _ => .bind upholds_readRef fun _ => Action.upholds_pure _

theorem upholds_readInstruction : Action.Upholds (Tally name text) readInstruction := by
  refine .bind placed_origin.upholds fun _ => .bind upholds_position fun _ => .bind placed_token.upholds fun _ => ?_
  dsimp only
  split
  · split
    · exact complains_complainAt.bind.upholds
    · exact .bind (Action.upholds_pure _) fun _ => .bind placed_skipSpaces.upholds fun _ =>
        .ite upholds_variadicOperands upholds_fixedOperands
  · exact complains_complainAt.bind.upholds

theorem upholds_readLabelLine : Action.Upholds (Tally name text) readLabelLine :=
  .bind placed_origin.upholds fun _ => .bind upholds_readLabel fun _ => Action.upholds_pure _

/-! ### Tables -/

theorem upholds_packedTargets {ts : List Bytes} : Action.Upholds (Tally name text) (packedTargets n ts) := by
  induction n generalizing ts with
  | zero => exact upholds_runaway
  | succ n ih =>
    rw [packedTargets]
    exact .bind placed_skipBlank.upholds fun _ => .bind Directive.upholds_isEnd fun _ => .get_bind fun _ _ =>
      .ite (Action.upholds_pure _) <| .bind upholds_readLabel fun _ => ih

theorem upholds_readPackedSwitch : Action.Upholds (Tally name text) readPackedSwitch :=
  .bind placed_origin.upholds fun _ => .bind Directive.upholds_expect fun _ => .bind upholds_readLiteral fun _ =>
    upholds_rounds fun _ => .bind upholds_packedTargets fun _ => .bind Directive.upholds_expectEnd fun _ =>
      Action.upholds_pure _

theorem upholds_sparseCases {cs : List (Int × Bytes)} : Action.Upholds (Tally name text) (sparseCases n cs) := by
  induction n generalizing cs with
  | zero => exact upholds_runaway
  | succ n ih =>
    rw [sparseCases]
    exact .bind placed_skipBlank.upholds fun _ => .bind Directive.upholds_isEnd fun _ => .get_bind fun _ _ =>
      .ite (Action.upholds_pure _) <| .bind upholds_readLiteral fun _ => .bind placed_skipSpaces.upholds fun _ =>
        .bind placed_expect.upholds fun _ => .bind upholds_readLabel fun _ => ih

theorem upholds_readSparseSwitch : Action.Upholds (Tally name text) readSparseSwitch :=
  .bind placed_origin.upholds fun _ => .bind Directive.upholds_expect fun _ =>
    upholds_rounds fun _ => .bind upholds_sparseCases fun _ => .bind Directive.upholds_expectEnd fun _ =>
      Action.upholds_pure _

theorem upholds_arrayValues {vs : List Int} : Action.Upholds (Tally name text) (arrayValues n vs) := by
  induction n generalizing vs with
  | zero => exact upholds_runaway
  | succ n ih =>
    rw [arrayValues]
    exact .bind placed_skipBlank.upholds fun _ => .bind Directive.upholds_isEnd fun _ => .get_bind fun _ _ =>
      .ite (Action.upholds_pure _) <| .bind upholds_readLiteral fun _ => ih

theorem upholds_readArrayData : Action.Upholds (Tally name text) readArrayData :=
  .bind placed_origin.upholds fun _ => .bind Directive.upholds_expect fun _ => .bind placed_skipSpaces.upholds fun _ =>
    .bind upholds_position fun _ => .bind upholds_readInt fun _ => complains_complainAt.check <|
      upholds_rounds fun _ => .bind upholds_arrayValues fun _ => .bind Directive.upholds_expectEnd fun _ =>
        Action.upholds_pure _

/-! ### Bodies -/

theorem upholds_readCatchType : Action.Upholds (Tally name text) readCatchType :=
  .bind Directive.upholds_isNext fun _ => .ite (.bind placed_skip.upholds fun _ => Action.upholds_pure _) <|
    .bind Directive.upholds_expect fun _ => upholds_readType

theorem upholds_readCatchRange : Action.Upholds (Tally name text) readCatchRange :=
  .bind placed_origin.upholds fun _ => .bind upholds_readCatchType fun _ => .bind placed_skipSpaces.upholds fun _ =>
    .bind placed_accept.upholds fun _ => complains_expecting.check <| .bind upholds_readLabel fun _ =>
      .bind placed_skipSpaces.upholds fun _ => .bind placed_expect.upholds fun _ => .bind upholds_readLabel fun _ =>
        .bind placed_skipSpaces.upholds fun _ => .bind placed_accept.upholds fun _ =>
          complains_expecting.check <| .bind upholds_readLabel fun _ => Action.upholds_pure _

theorem upholds_nextInBody : Action.Upholds (Tally name text) nextInBody := by
  refine .get_bind fun s _ => .ite (Action.upholds_pure _) ?_
  have number : ∀ {k : Int} {make : Int → Next}, Action.Upholds (Tally name text) (do
      move (·.skip k)
      return make (← readInt)) := fun {_ _} =>
    .bind placed_skip.upholds fun _ => .bind upholds_readInt fun _ => Action.upholds_pure _
  refine .ite number <| .ite number ?_
  refine .ite (.bind upholds_readCatchRange fun _ => Action.upholds_pure _) ?_
  refine .ite (.bind upholds_readPackedSwitch fun _ => Action.upholds_pure _) ?_
  refine .ite (.bind upholds_readSparseSwitch fun _ => Action.upholds_pure _) ?_
  refine .ite (.bind upholds_readArrayData fun _ => Action.upholds_pure _) ?_
  refine .ite (.bind upholds_skipNotes fun _ => Action.upholds_pure _) ?_
  refine .ite (.bind placed_skipLine.upholds fun _ => Action.upholds_pure _) ?_
  refine .ite (.bind upholds_readLabelLine fun _ => Action.upholds_pure _) ?_
  exact .ite complains_complain.upholds <| .bind upholds_readInstruction fun _ => Action.upholds_pure _

theorem upholds_bodyFuel {seen : Bool} {b : Body} : Action.Upholds (Tally name text) (bodyFuel n seen b) := by
  induction n generalizing seen b with
  | zero => exact upholds_runaway
  | succ n ih =>
    rw [bodyFuel]
    have next : ∀ {seen b}, Action.Upholds (Tally name text) (do expectLineEnd; bodyFuel n seen b) := fun {_ _} =>
      .bind placed_expectLineEnd.upholds fun _ => ih
    refine .bind placed_skipBlank.upholds fun _ => .get_bind fun _ _ => complains_complain.check <|
      .bind upholds_nextInBody fun v => ?_
    cases v with
    | finish => exact Action.upholds_pure _
    | skipped => exact ih
    | registers count => exact next
    | locals count => exact next
    | element value => exact next
    | nothing => exact next

theorem upholds_readBody {paramRegisters : Int} : Action.Upholds (Tally name text) (readBody paramRegisters) :=
  upholds_rounds fun _ => .bind upholds_bodyFuel fun _ => Action.upholds_pure _

/-! ### Members -/

theorem upholds_readValue {t : Descriptor} : Action.Upholds (Tally name text) (readValue t) := by
  refine .bind upholds_position fun pos => .bind placed_accept.upholds fun _ => .ite ?_ ?_
  · exact .bind placed_skipSpaces.upholds fun _ => .bind placed_token.upholds fun _ => .bind upholds_orComplain fun _ =>
      Action.upholds_pure _
  refine .bind placed_literal.upholds fun w => ?_
  cases w with
  | nil => exact fun _ hs => hs -- a fault, and the scanner stays
  | cons first r =>
    refine .bind (Action.upholds_pure first) fun _ => ?_
    exact .ite (complains_complainAt.check (Action.upholds_pure _)) <| .ite upholds_orComplain <|
      .ite upholds_orComplain <| .ite upholds_orComplain <| .ite upholds_orComplain <| .ite upholds_orComplain <|
      .ite complains_complainAt.upholds upholds_orComplain

/-- The end of a field upholds `Tally`, with or without annotations. -/
theorem upholds_fieldEnd {f : Field} : Action.Upholds (Tally name text) (do
    let pos ← position
    skipBlank
    let noted ← noteBlocks (← rounds) false
    if ← Directive.field.isEnd then
      move (·.skip Directive.field.endWord.length)
      return f
    if noted then expecting Directive.field.endWord
    move (·.setPosition pos)
    return f) :=
  .bind upholds_position fun _ => .bind placed_skipBlank.upholds fun _ => upholds_rounds fun _ =>
    .bind upholds_noteBlocks fun _ => .bind Directive.upholds_isEnd fun _ =>
      .ite (.bind placed_skip.upholds fun _ => Action.upholds_pure _) <|
        complains_expecting.check <| .bind placed_setPosition.upholds fun _ => Action.upholds_pure _

theorem upholds_readField {owner : Descriptor} : Action.Upholds (Tally name text) (readField owner) := by
  refine .bind placed_skipBlank.upholds fun _ => .bind placed_origin.upholds fun _ => .bind Directive.upholds_expect fun _ =>
    .bind upholds_readAccess fun _ => .bind upholds_tokenAt fun p => ?_
  obtain ⟨pos, t⟩ := p
  dsimp only
  split
  · refine complains_complainAt.check <| .bind (Action.upholds_pure _) fun _ => .bind upholds_orComplain fun _ =>
      .bind placed_skipSpaces.upholds fun _ => .bind placed_accept.upholds fun _ => .ite ?_ ?_
    · exact .bind placed_skipSpaces.upholds fun _ => .bind upholds_readValue fun _ => .bind (Action.upholds_pure _) fun _ =>
        .bind placed_expectLineEnd.upholds fun _ => upholds_fieldEnd
    · exact .bind (Action.upholds_pure _) fun _ => .bind placed_expectLineEnd.upholds fun _ => upholds_fieldEnd
  · exact complains_complainAt.bind.upholds

theorem upholds_readMethod {owner : Descriptor} : Action.Upholds (Tally name text) (readMethod owner) := by
  refine .bind placed_skipBlank.upholds fun _ => .bind placed_origin.upholds fun _ => .bind Directive.upholds_expect fun _ =>
    .bind upholds_readAccess fun _ => .bind upholds_tokenAt fun p => ?_
  obtain ⟨pos, t⟩ := p
  dsimp only
  split
  · exact .bind (Action.upholds_pure _) fun _ => .bind upholds_orComplain fun _ => .bind placed_expectLineEnd.upholds fun _ =>
      .bind (Action.upholds_lift _) fun _ => .bind upholds_readBody fun _ => .bind Directive.upholds_expectEnd fun _ =>
        Action.upholds_pure _
  · exact complains_complainAt.bind.upholds

/-! ### Classes -/

theorem upholds_classFuel {c : Class} : Action.Upholds (Tally name text) (classFuel n c) := by
  induction n generalizing c with
  | zero => exact upholds_runaway
  | succ n ih =>
    rw [classFuel]
    have next : ∀ {c}, Action.Upholds (Tally name text) (do expectLineEnd; classFuel n c) := fun {_} =>
      .bind placed_expectLineEnd.upholds fun _ => ih
    have type : ∀ {k : Int} {f : Descriptor → Class}, Action.Upholds (Tally name text) (do
        move (·.skip k)
        let c ← pure (f (← readType))
        expectLineEnd
        classFuel n c) := fun {_ _} =>
      .bind placed_skip.upholds fun _ => .bind upholds_readType fun _ => .bind (Action.upholds_pure _) fun _ => next
    refine .bind placed_skipBlank.upholds fun _ => .get_bind fun s _ => .ite (Action.upholds_pure _) <| .ite type ?_
    refine .ite ?_ <| .ite type ?_
    · refine .bind placed_skip.upholds fun _ => .bind placed_skipSpaces.upholds fun _ => .bind upholds_position fun _ =>
        .bind placed_quoted.upholds fun _ => ?_
      split
      · exact .bind (Action.upholds_pure _) fun _ => next
      · exact complains_complainAt.bind.upholds
    refine .ite (.bind upholds_readField fun _ => .bind (Action.upholds_pure _) fun _ => next) ?_
    refine .ite (.bind upholds_readMethod fun _ => .bind (Action.upholds_pure _) fun _ => next) ?_
    exact .ite (.bind upholds_skipNotes fun _ => .bind (Action.upholds_pure _) fun _ => next) complains_complain.bind.upholds

theorem upholds_readClass : Action.Upholds (Tally name text) readClass :=
  .bind placed_skipBlank.upholds fun _ => .bind placed_origin.upholds fun _ => .bind Directive.upholds_expect fun _ =>
    .bind upholds_readAccess fun _ => .bind upholds_readType fun _ => upholds_rounds fun _ =>
      .bind upholds_classFuel fun _ => Action.upholds_pure _

/-! ## Any calls -/

/-- A call of a method of the scanner that may move it or fail; methods that only look at the text leave it as it is. -/
inductive Move where
  | setPosition (p : Int)
  | skip (n : Int)
  | skipSpaces
  | skipBlank
  | skipLine
  | atLineEnd
  | token
  | accept (t : Bytes)
  | quoted
  | literal
  | expect (t : Bytes)
  | expectLineEnd
  | origin
  | complainAt (pos : Nat) (what : Complaint)

def Move.run : Move → Reading PUnit
  | setPosition p => move (·.setPosition p)
  | skip n => move (·.skip n)
  | skipSpaces => Reading.skipSpaces
  | skipBlank => Reading.skipBlank
  | skipLine => move Scanner.skipLine
  | atLineEnd => do let _ ← step Scanner.atLineEnd; return
  | token => do let _ ← Reading.token; return
  | accept t => do let _ ← Reading.accept t; return
  | quoted => do let _ ← Reading.quoted; return
  | literal => do let _ ← Reading.literal; return
  | expect t => Reading.expect t
  | expectLineEnd => Reading.expectLineEnd
  | origin => do let _ ← Reading.origin; return
  | complainAt pos what => Reading.complainAt pos what

/-- A reader of the parser. -/
inductive Part where
  | classText
  | field (owner : Descriptor)
  | method (owner : Descriptor)
  | body (paramRegisters : Int)
  | label
  | instruction
  | packedSwitch
  | sparseSwitch
  | arrayData
  | catchRange

def Part.run : Part → Reading PUnit
  | classText => do let _ ← readClass; return
  | field owner => do let _ ← readField owner; return
  | method owner => do let _ ← readMethod owner; return
  | body paramRegisters => do let _ ← readBody paramRegisters; return
  | label => do let _ ← readLabelLine; return
  | instruction => do let _ ← readInstruction; return
  | packedSwitch => do let _ ← readPackedSwitch; return
  | sparseSwitch => do let _ ← readSparseSwitch; return
  | arrayData => do let _ ← readArrayData; return
  | catchRange => do let _ ← readCatchRange; return

inductive Call where
  | move (m : Move)
  | read (p : Part)

def Call.run : Call → Reading PUnit
  | move m => m.run
  | read p => p.run

/-- The scanner after some calls, each of which may have failed. -/
def Scanner.after (s : Scanner) (calls : List Call) : Scanner := calls.foldl (fun s call => (call.run.apply s).2) s

theorem Move.placed (m : Move) : Placed name text m.run := by
  cases m with
  | setPosition p => exact placed_setPosition
  | skip n => exact placed_skip
  | skipSpaces => exact placed_skipSpaces
  | skipBlank => exact placed_skipBlank
  | skipLine => exact placed_skipLine
  | atLineEnd => exact placed_atLineEnd.bind fun _ => .pure _
  | token => exact placed_token.bind fun _ => .pure _
  | accept t => exact placed_accept.bind fun _ => .pure _
  | quoted => exact placed_quoted.bind fun _ => .pure _
  | literal => exact placed_literal.bind fun _ => .pure _
  | expect t => exact placed_expect
  | expectLineEnd => exact placed_expectLineEnd
  | origin => exact placed_origin.bind fun _ => .pure _
  | complainAt pos what => exact complains_complainAt.placed

theorem Part.upholds (p : Part) : Action.Upholds (Tally name text) p.run := by
  cases p with
  | classText => exact upholds_readClass.bind fun _ => Action.upholds_pure _
  | field owner => exact upholds_readField.bind fun _ => Action.upholds_pure _
  | method owner => exact upholds_readMethod.bind fun _ => Action.upholds_pure _
  | body paramRegisters => exact upholds_readBody.bind fun _ => Action.upholds_pure _
  | label => exact upholds_readLabelLine.bind fun _ => Action.upholds_pure _
  | instruction => exact upholds_readInstruction.bind fun _ => Action.upholds_pure _
  | packedSwitch => exact upholds_readPackedSwitch.bind fun _ => Action.upholds_pure _
  | sparseSwitch => exact upholds_readSparseSwitch.bind fun _ => Action.upholds_pure _
  | arrayData => exact upholds_readArrayData.bind fun _ => Action.upholds_pure _
  | catchRange => exact upholds_readCatchRange.bind fun _ => Action.upholds_pure _

theorem Call.upholds (call : Call) : Action.Upholds (Tally name text) call.run := by
  cases call with
  | move m => exact m.placed.upholds
  | read p => exact p.upholds

theorem Tally.after (h : Tally name text s) (calls : List Call) : Tally name text (s.after calls) := by
  induction calls generalizing s with
  | nil => exact h
  | cons call calls ih => exact ih (call.upholds s h)

/-- After any moves and reads on a new scanner, its position is inside the text, `origin` is the line and the column
of this position, counted from the beginning of the text, and if the next move fails with a `.parse` complaint, that
is about the place of the position it leaves. -/
theorem origin_of_calls (name text : Bytes) (calls : List Call) :
    let s := (Scanner.ofBytes text name).after calls
    s.pos ≤ text.length ∧ s.origin.1 = placeOf name text s.pos ∧
      ∀ (m : Move) (o : Origin) (what : Complaint) (t : Scanner),
        m.run.apply s = (.error (.failure (.parse o what)), t) → o = placeOf name text t.pos := by
  intro s
  have tally : Tally name text s := Tally.ofBytes.after calls
  exact ⟨tally.inside, tally.origin.1, fun m => m.placed.place tally⟩

/-- A scanner that has told a place in line 3 is set back to line 2, to a literal that is not closed: the complaint is
about line 2, where the literal breaks off. -/
theorem origin_of_calls_back :
    let text := ascii "\n 'a\nb"
    let s := (Scanner.ofBytes text (ascii "f")).after
      [.read .classText, .move .quoted, .move .skipLine, .move .origin, .move (.setPosition 2)]
    (s.pos = 2 ∧ s.origin.1 = placeOf (ascii "f") text 2) ∧
      ∃ o t, Move.quoted.run.apply s = (.error (.failure (.parse o .unterminated)), t) ∧
        t.pos = 4 ∧ o = placeOf (ascii "f") text 4 := by
  obtain ⟨-, place, complaints⟩ := origin_of_calls (ascii "f") (ascii "\n 'a\nb")
    [.read .classText, .move .quoted, .move .skipLine, .move .origin, .move (.setPosition 2)]
  -- evaluated as a closed term
  have here : ((Scanner.ofBytes (ascii "\n 'a\nb") (ascii "f")).after
      [.read .classText, .move .quoted, .move .skipLine, .move .origin, .move (.setPosition 2)]).pos = 2 := by rfl
  rw [here] at place
  exact ⟨⟨here, place⟩, _, _, rfl, rfl, complaints .quoted _ .unterminated _ rfl⟩

end Dalvik.Assembly
