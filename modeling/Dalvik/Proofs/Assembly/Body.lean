import Dalvik.Proofs.Assembly.Line

/-!
# Bodies

The lines of an element are read back as the element (`takes_nextInBody`), and the lines of a body
as the body (`takes_readBody`). What is read back agrees with what was printed up to positions and
comments, which `bare` takes away; `Readable` collects what must hold for that.
-/

namespace Dalvik.Assembly

open Reading Scanner

variable {rest x y t gap : Bytes} {ls : List Bytes}

/-! ## Rows of a table -/

/-- The line begins with something that is neither a blank, a comment nor a directive. -/
def Row (l : Bytes) : Prop := ∃ b r, l = b :: r ∧ isWhite b = false ∧ b ≠ byte '#' ∧ b ≠ byte '.'

namespace Row

variable {l : Bytes}

theorem solid (h : Row l) : Solid (l ++ rest) := by
  obtain ⟨b, r, rfl, white, hash, -⟩ := h
  exact ⟨b, rfl, white, hash⟩

/-- A row does not begin with a keyword, which starts with a dot. -/
theorem begins_eq (h : Row l) {w : Bytes} (dot : w.head? = some (byte '.')) : begins w (l ++ rest) = false := by
  obtain ⟨b, r, rfl, -, -, other⟩ := h
  obtain ⟨w, rfl⟩ := List.head?_eq_some_iff.1 dot
  rw [begins, List.cons_append, List.isPrefixOf_cons_cons, beq_false_of_ne (Ne.symm other)]
  rfl

end Row

/-- A loop that reads `item`s reads all rows of a table and stops at the closing keyword, which is left. -/
theorem takes_rows {α : Type} {d : Directive} (loop : Nat → List α → Reading (List α)) (item : Reading α) (stop : Scanner → Bool)
    {row : α → Bytes} {as : List α}
    (next : ∀ n before, loop (n + 1) before = do
      skipBlank
      if (← d.isEnd) || stop (← get) then return before.reverse
      else loop n ((← item) :: before))
    (rows : ∀ a ∈ as, Row (row a)) (goes : ∀ a ∈ as, ∀ rest s, Left s (row a ++ rest) → stop s = false)
    (each : ∀ a ∈ as, ∀ rest, Closed rest → Takes item (row a ++ rest) rest (· = a))
    (hg : Gap gap) (lines : Lines (as.map row ++ d.endWord :: ls) x) :
    ∃ t y, Trail t ∧ Lines ls y ∧ ∀ n before, as.length < n →
      Takes (loop n before) (gap ++ (x ++ rest)) (d.endWord ++ (t ++ newline :: (y ++ rest))) (· = before.reverse ++ as) := by
  induction as generalizing gap x with
  | nil =>
    obtain ⟨gap', t, y, hg', ht, hy, rfl⟩ := lines.uncons
    refine ⟨t, y, ht, hy, fun n before enough => ?_⟩
    obtain ⟨n, rfl⟩ : ∃ m, n = m + 1 := ⟨n - 1, by omega⟩
    have text : gap ++ ((gap' ++ (d.endWord ++ (t ++ newline :: y))) ++ rest) =
        (gap ++ gap') ++ (d.endWord ++ (t ++ newline :: (y ++ rest))) := by simp
    rw [next, text]
    refine .bind ((hg.append hg').takes_skipBlank ⟨byte '.', rfl, by decide, by decide⟩) fun _ _ => ?_
    refine .bind (Directive.takes_isEnd d) ?_
    rintro _ rfl
    refine .get_bind fun s hs => ?_
    rw [Directive.begins_append ht.ended.closed, Bool.true_or, if_pos rfl]
    exact .pure (by simp)
  | cons a as ih =>
    obtain ⟨gap', t, y, hg', ht, hy, rfl⟩ := lines.uncons
    obtain ⟨first, rows⟩ := List.forall_mem_cons.1 rows
    obtain ⟨go, goes⟩ := List.forall_mem_cons.1 goes
    obtain ⟨one, each⟩ := List.forall_mem_cons.1 each
    obtain ⟨t', y', ht', hy', others⟩ := ih rows goes each ht.gap hy
    refine ⟨t', y', ht', hy', fun n before enough => ?_⟩
    obtain ⟨n, rfl⟩ : ∃ m, n = m + 1 := ⟨n - 1, by simp at enough; omega⟩
    have fewer : as.length < n := by
      simp at enough
      omega
    have text : gap ++ ((gap' ++ (row a ++ (t ++ newline :: y))) ++ rest) =
        (gap ++ gap') ++ (row a ++ (t ++ newline :: (y ++ rest))) := by simp
    rw [next, text]
    refine .bind ((hg.append hg').takes_skipBlank first.solid) fun _ _ => ?_
    refine .bind (Directive.takes_isEnd d) ?_
    rintro _ rfl
    refine .get_bind fun s hs => ?_
    rw [first.begins_eq rfl, go _ s hs, Bool.or_false, if_neg Bool.false_ne_true]
    refine .bind (one _ ht.ended.closed) fun b hb => ?_
    rw [hb]
    simpa using others n (a :: before) fewer

/-- A table is read up to the trail of its closing keyword. -/
theorem takes_table {α β : Type} {d : Directive} (loop : Nat → List α → Reading (List α)) (item : Reading α) (stop : Scanner → Bool)
    {row : α → Bytes} {as : List α}
    (next : ∀ n before, loop (n + 1) before = do
      skipBlank
      if (← d.isEnd) || stop (← get) then return before.reverse
      else loop n ((← item) :: before))
    (rows : ∀ a ∈ as, Row (row a)) (goes : ∀ a ∈ as, ∀ rest s, Left s (row a ++ rest) → stop s = false)
    (each : ∀ a ∈ as, ∀ rest, Closed rest → Takes item (row a ++ rest) rest (· = a))
    (ht : Trail t) (lines : Lines (as.map row ++ d.endWord :: ls) x) :
    ∃ t' y, Trail t' ∧ Lines ls y ∧ ∀ f : List α → β,
      Takes (do
        let found ← loop (← rounds) []
        d.expectEnd
        return f found) (t ++ newline :: (x ++ rest)) (t' ++ newline :: (y ++ rest)) (· = f as) := by
  obtain ⟨t', y, ht', hy, taken⟩ := takes_rows loop item stop next rows goes each ht.gap lines
  refine ⟨t', y, ht', hy, fun f => .bind takes_rounds fun n enough => ?_⟩
  have many := lines.length_le
  have fewer : as.length < n := by
    simp at enough many
    omega
  have found := taken n [] fewer
  rw [List.append_assoc] at found
  refine .bind found fun found same => ?_
  have closing : Takes d.expectEnd ([] ++ (d.endWord ++ (t' ++ newline :: (y ++ rest)))) (t' ++ newline :: (y ++ rest)) fun _ => True :=
    Directive.takes_expectEnd (.blank [] (by simp)) ⟨byte '.', rfl, by decide, by decide⟩ ht'.ended.closed
  exact .bind closing fun _ _ => .pure (congrArg f same)

/-! ## Tables -/

/-- `n` is a signed 32-bit number. -/
def Small (n : Int) : Prop := -(twoPow 31 : Int) ≤ n ∧ n < twoPow 31

theorem toInt_int {n : Int} (h : Small n) : (Literal.int n).toInt = n := by
  have same : Literal.signExtend 32 n = n := Literal.signExtend_of_bounds (by decide) h.1 h.2
  rw [Literal.toInt, Literal.int, Literal.toLong_ofSigned (.inl rfl)]
  show wrap32 (Literal.signExtend 32 n) = n
  rw [same]
  exact same

theorem row_label (name : Bytes) : Row (byte ':' :: name) := ⟨_, _, rfl, by decide, by decide, by decide⟩

theorem row_literal {kind : LiteralKind} (whole : Literal.IsWhole kind) (n : Int) (r : Bytes) :
    Row ((Literal.ofSigned kind n).text ++ r) := by
  obtain ⟨b, r', begins, front⟩ := Literal.text_begins whole n
  rw [begins]
  refine ⟨b, r' ++ r, rfl, ?_⟩
  rcases front with rfl | rfl <;> decide

theorem finished_of_row {l : Bytes} {s : Scanner} (row : Row l) (hs : s.Left (l ++ rest)) : s.finished = false := by
  obtain ⟨b, r, rfl, -⟩ := row
  exact hs.finished

/-- The line of an instruction is a row and does not begin with a colon. -/
theorem Instruction.Readable.row {i : Instruction} (h : i.Readable) : ∃ b r, i.line = b :: r ∧ Row (b :: r) ∧ b ≠ byte ':' := by
  have letter := (Opcode.name_bytes _ h.mem).1
  rw [Option.any_eq_true] at letter
  obtain ⟨b, hb, large⟩ := letter
  obtain ⟨r, name⟩ := List.head?_eq_some_iff.1 hb
  have marks : ∀ b : UInt8, Nat.ble 97 b.toNat = true → isWhite b = false ∧ b ≠ byte '#' ∧ b ≠ byte '.' ∧ b ≠ byte ':' :=
    Literal.forall_byte (by decide +kernel)
  obtain ⟨white, hash, dot, colon⟩ := marks b large
  rw [Instruction.line, name]
  exact ⟨b, _, rfl, ⟨b, _, rfl, white, hash, dot⟩, colon⟩

namespace PackedSwitch

def bare (p : PackedSwitch) : PackedSwitch := { p with origin := {} }

def head (p : PackedSwitch) : Bytes := Directive.packedSwitch.word ++ (ascii " " ++ (Literal.int p.firstKey).text)

def rows (p : PackedSwitch) : List Bytes := p.targets.map (byte ':' :: ·)

structure Readable (p : PackedSwitch) : Prop where
  firstKey : Small p.firstKey
  targets : ∀ name ∈ p.targets, NamesLabel name

theorem takes_readPackedSwitch (rest : Bytes) {p : PackedSwitch} (h : p.Readable) (ht : Trail t)
    (lines : Lines (p.rows ++ Directive.packedSwitch.endWord :: ls) x) : ∃ t' y, Trail t' ∧ Lines ls y ∧
      Takes readPackedSwitch (p.head ++ (t ++ newline :: (x ++ rest))) (t' ++ newline :: (y ++ rest)) (fun q => q.bare = p.bare) := by
  have goes : ∀ name ∈ p.targets, ∀ rest s, Left s (byte ':' :: name ++ rest) → (s.peek != byte ':') = false := by
    intro name _ rest s hs
    rw [hs.peek]
    rfl
  have each : ∀ name ∈ p.targets, ∀ rest, Closed rest → Takes readLabel (byte ':' :: name ++ rest) rest (· = name) := by
    intro name hname rest hr
    exact takes_readLabel blank_nil (h.targets name hname) hr
  obtain ⟨t', y, ht', hy, table⟩ := takes_table packedTargets readLabel (fun s => s.peek != byte ':') (fun n before => rfl)
    (fun name _ => row_label name) goes each ht lines
  refine ⟨t', y, ht', hy, ?_⟩
  unfold readPackedSwitch head
  simp only [List.append_assoc]
  refine .bind takes_origin fun origin _ => .bind (Directive.takes_expect (closed_cons (by decide))) fun _ _ => ?_
  refine .bind (takes_readLiteral (.inl rfl) p.firstKey (by decide) ht.ended.closed) ?_
  rintro _ rfl
  refine (table fun targets => ({ origin, firstKey := (Literal.int p.firstKey).toInt, targets } : PackedSwitch)).mono ?_
  rintro _ rfl
  simp [bare, toInt_int h.firstKey]

end PackedSwitch

namespace SparseSwitch

def bare (s : SparseSwitch) : SparseSwitch := { s with origin := {} }

def head (_ : SparseSwitch) : Bytes := Directive.sparseSwitch.word

/-- The line of one case of a sparse-switch: the key, an arrow and the label. -/
def row (c : Int × Bytes) : Bytes := (Literal.int c.1).text ++ (ascii " -> " ++ (byte ':' :: c.2))

def rows (s : SparseSwitch) : List Bytes := s.cases.map row

def Readable (s : SparseSwitch) : Prop := ∀ c ∈ s.cases, Small c.1 ∧ NamesLabel c.2

/-- Reads the line of one case. -/
def readRow : Reading (Int × Bytes) := do
  let key ← readLiteral
  skipSpaces
  expect (ascii "->")
  return (key.toInt, ← readLabel)

theorem takes_readRow {c : Int × Bytes} (small : Small c.1) (name : NamesLabel c.2) (hr : Closed rest) :
    Takes readRow (row c ++ rest) rest (· = c) := by
  have arrow : ∀ {text : Bytes}, Takes skipSpaces (ascii " -> " ++ text) (ascii "->" ++ (ascii " " ++ text)) fun _ => True :=
    takes_toMark (by decide : Blank (ascii " ")) rfl (by decide)
  unfold readRow row
  simp only [List.append_assoc]
  refine .bind (takes_readLiteral (.inl rfl) c.1 blank_nil (closed_cons (by decide))) ?_
  rintro _ rfl
  refine .bind arrow fun _ _ => .bind (takes_expect rfl (by decide)) fun _ _ => ?_
  refine .bind (takes_readLabel (by decide) name hr) ?_
  rintro _ rfl
  exact .pure (by rw [← Literal.int, toInt_int small])

theorem takes_readSparseSwitch (rest : Bytes) {s : SparseSwitch} (h : s.Readable) (ht : Trail t)
    (lines : Lines (s.rows ++ Directive.sparseSwitch.endWord :: ls) x) : ∃ t' y, Trail t' ∧ Lines ls y ∧
      Takes readSparseSwitch (s.head ++ (t ++ newline :: (x ++ rest))) (t' ++ newline :: (y ++ rest)) (fun q => q.bare = s.bare) := by
  have rows : ∀ c ∈ s.cases, Row (row c) := fun c _ => row_literal (.inl rfl) c.1 _
  have next : ∀ n before, sparseCases (n + 1) before = (do
      skipBlank
      if (← Directive.sparseSwitch.isEnd) || (← get).finished then return before.reverse
      else sparseCases n ((← readRow) :: before)) := by
    intro n before
    rw [sparseCases]
    simp only [readRow, bind_assoc, pure_bind]
  obtain ⟨t', y, ht', hy, table⟩ := takes_table sparseCases readRow Scanner.finished next rows
    (fun c hc rest s hs => finished_of_row (rows c hc) hs) (fun c hc rest hr => takes_readRow (h c hc).1 (h c hc).2 hr) ht lines
  refine ⟨t', y, ht', hy, ?_⟩
  unfold readSparseSwitch head
  refine .bind takes_origin fun origin _ => .bind (Directive.takes_expect ht.ended.closed) fun _ _ => ?_
  refine (table fun cases => ({ origin, cases } : SparseSwitch)).mono ?_
  rintro _ rfl
  rfl

end SparseSwitch

namespace ArrayData

def bare (a : ArrayData) : ArrayData := { a with origin := {} }

def head (a : ArrayData) : Bytes := Directive.arrayData.word ++ (ascii " " ++ decimal a.width)

def rows (a : ArrayData) : List Bytes := a.values.map fun v => (a.element v).text

/-- The kind of literal that the elements are printed as. -/
def kind (a : ArrayData) : LiteralKind := if a.width = 1 then .byte else if a.width = 2 then .short else if a.width = 8 then .long else .int

/-- The width is 1, 2, 4 or 8, and each value is sign-extended from that width. -/
structure Readable (a : ArrayData) : Prop where
  width : a.width = 1 ∨ a.width = 2 ∨ a.width = 4 ∨ a.width = 8
  values : ∀ v ∈ a.values, Literal.signExtend a.kind.width v = v

theorem element_eq (a : ArrayData) (v : Int) : a.element v = .ofSigned a.kind v := by
  unfold element kind
  split_ifs <;> rfl

theorem whole_kind (a : ArrayData) : Literal.IsWhole a.kind := by
  unfold kind Literal.IsWhole
  split_ifs <;> simp

theorem width_kind {a : ArrayData} (h : a.width = 1 ∨ a.width = 2 ∨ a.width = 4 ∨ a.width = 8) :
    (a.kind.width : Int) = 8 * a.width := by
  rcases h with e | e | e | e <;> simp [kind, e, LiteralKind.width]

/-- Reads one value. -/
def readElement : Reading Int := return (← readLiteral).toLong

theorem takes_readArrayData (rest : Bytes) {a : ArrayData} (h : a.Readable) (ht : Trail t)
    (lines : Lines (a.rows ++ Directive.arrayData.endWord :: ls) x) : ∃ t' y, Trail t' ∧ Lines ls y ∧
      Takes readArrayData (a.head ++ (t ++ newline :: (x ++ rest))) (t' ++ newline :: (y ++ rest)) (fun q => q.bare = a.bare) := by
  have rows : ∀ v ∈ a.values, Row (a.element v).text := by
    intro v _
    rw [element_eq, ← List.append_nil (Literal.text _)]
    exact row_literal a.whole_kind v []
  have next : ∀ n before, arrayValues (n + 1) before = (do
      skipBlank
      if (← Directive.arrayData.isEnd) || (← get).finished then return before.reverse
      else arrayValues n ((← readElement) :: before)) := by
    intro n before
    rw [arrayValues]
    simp only [readElement, bind_assoc, pure_bind]
  have each : ∀ v ∈ a.values, ∀ rest, Closed rest → Takes readElement ((a.element v).text ++ rest) rest (· = v) := by
    intro v hv rest hr
    rw [element_eq]
    unfold readElement
    refine .bind (takes_readLiteral a.whole_kind v blank_nil hr) ?_
    rintro _ rfl
    exact .pure (by rw [Literal.toLong_ofSigned a.whole_kind, h.values v hv])
  obtain ⟨t', y, ht', hy, table⟩ := takes_table arrayValues readElement Scanner.finished next rows
    (fun v hv rest s hs => finished_of_row (rows v hv) hs) each ht lines
  refine ⟨t', y, ht', hy, ?_⟩
  obtain ⟨w, width, small⟩ : ∃ w : Nat, a.width = w ∧ w < twoPow 31 := by
    rcases h.width with e | e | e | e <;> rw [e]
    · exact ⟨1, rfl, by decide⟩
    · exact ⟨2, rfl, by decide⟩
    · exact ⟨4, rfl, by decide⟩
    · exact ⟨8, rfl, by decide⟩
  have known : ¬ ((w : Int) ≠ 1 ∧ (w : Int) ≠ 2 ∧ (w : Int) ≠ 4 ∧ (w : Int) ≠ 8) := by
    have := h.width
    omega
  unfold readArrayData head
  simp only [List.append_assoc, width]
  refine .bind takes_origin fun origin _ => .bind (Directive.takes_expect (closed_cons (by decide))) fun _ _ => ?_
  refine .bind (takes_skipBlanks (by decide) (head_word (word_decimal w) (decimal_ne_nil w))) fun _ _ => .bind takes_position fun pos _ => ?_
  refine .bind (takes_readInt blank_nil small ht.ended.closed) ?_
  rintro _ rfl
  rw [if_neg known]
  refine (table fun values => ({ origin, width := w, values } : ArrayData)).mono ?_
  rintro _ rfl
  simp [bare, width]

end ArrayData

/-! ## Elements -/

namespace Element

/-- The element without its positions and comments. -/
def bare : Element → Element
  | .label l => .label l.bare
  | .instruction i => .instruction i.bare
  | .packedSwitch p => .packedSwitch p.bare
  | .sparseSwitch s => .sparseSwitch s.bare
  | .arrayData a => .arrayData a.bare
  | .catchRange c => .catchRange c.bare

/-- The first line of the element. -/
def head : Element → Bytes
  | .label l => l.line
  | .instruction i => i.line
  | .packedSwitch p => p.head
  | .sparseSwitch s => s.head
  | .arrayData a => a.head
  | .catchRange c => c.line

/-- The lines of a table behind its first one, with the closing keyword last. -/
def rows : Element → List Bytes
  | .packedSwitch p => p.rows ++ [Directive.packedSwitch.endWord]
  | .sparseSwitch s => s.rows ++ [Directive.sparseSwitch.endWord]
  | .arrayData a => a.rows ++ [Directive.arrayData.endWord]
  | _ => []

def lines (e : Element) : List Bytes := e.head :: e.rows

def Readable : Element → Prop
  | .label l => NamesLabel l.name
  | .instruction i => i.Readable
  | .packedSwitch p => p.Readable
  | .sparseSwitch s => s.Readable
  | .arrayData a => a.Readable
  | .catchRange c => c.Readable

/-- The text of an element begins with something that `skipBlank` does not skip. -/
theorem Readable.solid {e : Element} (h : e.Readable) : Solid (e.head ++ rest) := by
  cases e with
  | label l => exact (row_label l.name).solid
  | instruction i =>
    obtain ⟨b, r, line, row, -⟩ := Instruction.Readable.row h
    rw [head, line]
    exact row.solid
  | packedSwitch p => exact ⟨byte '.', rfl, by decide, by decide⟩
  | sparseSwitch s => exact ⟨byte '.', rfl, by decide, by decide⟩
  | arrayData a => exact ⟨byte '.', rfl, by decide, by decide⟩
  | catchRange c =>
    refine ⟨byte '.', ?_, by decide, by decide⟩
    rw [head, CatchRange.line, CatchRange.head]
    split <;> rfl

/-- What `nextInBody` returned is the element, up to positions and comments. -/
def Found (e : Element) (n : Next) : Prop := ∃ f, n = .element f ∧ f.bare = e.bare

/-- `nextInBody` at the beginning of a row reads a label or an instruction. -/
theorem takes_nextInBody_row {b : UInt8} {r left : Bytes} {P : Next → Prop} (row : Row (b :: r))
    (h : Takes (if b = byte ':' then do return .element (.label (← readLabelLine))
      else do return .element (.instruction (← readInstruction))) (b :: r ++ rest) left P) :
    Takes nextInBody (b :: r ++ rest) left P := by
  refine .get_bind fun s hs => ?_
  have words : ∀ w : Bytes, w.head? = some (byte '.') → s.isAt w = false := fun w dot => by rw [hs.isAt, row.begins_eq dot]
  have ignored : Directive.ignored.any s.isAt = false := by
    have dots : ∀ w ∈ Directive.ignored, w.head? = some (byte '.') := by decide
    rw [List.any_eq_false]
    intro w hw
    rw [words w (dots w hw)]
    exact Bool.false_ne_true
  have dot : b ≠ byte '.' := by
    obtain ⟨_, _, e, -, -, dot⟩ := row
    rwa [(List.cons.inj e).1]
  have peek : s.peek = b := hs.peek
  simp only [words Directive.method.endWord rfl, words Directive.registers.word rfl, words Directive.locals.word rfl,
    words Directive.catchOne.word rfl, words Directive.catchAll.word rfl, words Directive.packedSwitch.word rfl,
    words Directive.sparseSwitch.word rfl, words Directive.arrayData.word rfl, words Directive.notes.word rfl, ignored, peek, dot,
    Bool.or_self, Bool.false_eq_true, if_false]
  exact h

theorem takes_nextInBody (rest : Bytes) {e : Element} (h : e.Readable) (ht : Trail t) (hx : Lines (e.rows ++ ls) x) :
    ∃ left t' y, Trail t' ∧ Lines ls y ∧ Ended left ∧ left.dropWhile isSpace = t' ++ newline :: (y ++ rest) ∧
      Takes nextInBody (e.head ++ (t ++ newline :: (x ++ rest))) left (Found e) := by
  -- A line of its own leaves what is behind it, but perhaps not the blanks.
  have single : ∀ {left : Bytes}, left.dropWhile isSpace = (t ++ newline :: (x ++ rest)).dropWhile isSpace →
      Lines ls x → Takes nextInBody (e.head ++ (t ++ newline :: (x ++ rest))) left (Found e) →
      ∃ left t' y, Trail t' ∧ Lines ls y ∧ Ended left ∧ left.dropWhile isSpace = t' ++ newline :: (y ++ rest) ∧
        Takes nextInBody (e.head ++ (t ++ newline :: (x ++ rest))) left (Found e) := by
    intro left same hx taken
    obtain ⟨t', ht', trailing⟩ := ht.dropWhile (x := x ++ rest)
    have ended : Ended left := by
      rw [Ended, same]
      exact ht.ended
    exact ⟨left, t', x, ht', hx, ended, same.trans trailing, taken⟩
  -- A table leaves the trail of its closing keyword.
  have table : ∀ {t' y : Bytes}, Trail t' → Lines ls y →
      Takes nextInBody (e.head ++ (t ++ newline :: (x ++ rest))) (t' ++ newline :: (y ++ rest)) (Found e) →
      ∃ left t' y, Trail t' ∧ Lines ls y ∧ Ended left ∧ left.dropWhile isSpace = t' ++ newline :: (y ++ rest) ∧
        Takes nextInBody (e.head ++ (t ++ newline :: (x ++ rest))) left (Found e) := by
    intro t' y ht' hy taken
    obtain ⟨t'', ht'', trailing⟩ := ht'.dropWhile (x := y ++ rest)
    exact ⟨_, t'', y, ht'', hy, ht'.ended, trailing, taken⟩
  cases e with
  | label l =>
    refine single rfl hx (takes_nextInBody_row (row_label l.name) ?_)
    rw [if_pos rfl]
    exact .bind (Label.takes_readLabelLine h ht.ended.closed) fun k hk => .pure ⟨_, rfl, congrArg Element.label hk⟩
  | instruction i =>
    obtain ⟨left, same, taken⟩ := h.takes_readInstruction (ht.ended (x := x ++ rest))
    refine single same hx ?_
    obtain ⟨b, r, line, row, colon⟩ := h.row
    rw [head, line]
    rw [line] at taken
    refine takes_nextInBody_row row ?_
    rw [if_neg colon]
    exact .bind taken fun k hk => .pure ⟨_, rfl, congrArg Element.instruction hk⟩
  | packedSwitch p =>
    rw [rows, List.append_assoc] at hx
    obtain ⟨t', y, ht', hy, taken⟩ := PackedSwitch.takes_readPackedSwitch rest h ht hx
    have found : Takes (do return Next.element (.packedSwitch (← readPackedSwitch))) (p.head ++ (t ++ newline :: (x ++ rest)))
        (t' ++ newline :: (y ++ rest)) (packedSwitch p).Found :=
      .bind taken fun q hq => .pure ⟨_, rfl, congrArg Element.packedSwitch hq⟩
    refine table ht' hy (.get_bind fun s hs => ?_)
    simp only [hs.isAt]
    exact found
  | sparseSwitch q =>
    rw [rows, List.append_assoc] at hx
    obtain ⟨t', y, ht', hy, taken⟩ := SparseSwitch.takes_readSparseSwitch rest h ht hx
    have found : Takes (do return Next.element (.sparseSwitch (← readSparseSwitch))) (q.head ++ (t ++ newline :: (x ++ rest)))
        (t' ++ newline :: (y ++ rest)) (sparseSwitch q).Found :=
      .bind taken fun q hq => .pure ⟨_, rfl, congrArg Element.sparseSwitch hq⟩
    refine table ht' hy (.get_bind fun s hs => ?_)
    have here : begins Directive.sparseSwitch.word ((sparseSwitch q).head ++ (t ++ newline :: (x ++ rest))) = true :=
      Directive.begins_append ht.ended.closed
    simp only [hs.isAt, here]
    exact found
  | arrayData a =>
    rw [rows, List.append_assoc] at hx
    obtain ⟨t', y, ht', hy, taken⟩ := ArrayData.takes_readArrayData rest h ht hx
    have found : Takes (do return Next.element (.arrayData (← readArrayData))) (a.head ++ (t ++ newline :: (x ++ rest)))
        (t' ++ newline :: (y ++ rest)) (arrayData a).Found :=
      .bind taken fun q hq => .pure ⟨_, rfl, congrArg Element.arrayData hq⟩
    refine table ht' hy (.get_bind fun s hs => ?_)
    simp only [hs.isAt]
    exact found
  | catchRange c =>
    have taken := CatchRange.takes_readCatchRange h (ht.ended (x := x ++ rest)).closed
    have found : Takes (do return Next.element (.catchRange (← readCatchRange))) (c.line ++ (t ++ newline :: (x ++ rest)))
        (t ++ newline :: (x ++ rest)) (catchRange c).Found :=
      .bind taken fun q hq => .pure ⟨_, rfl, congrArg Element.catchRange hq⟩
    refine single rfl hx (.get_bind fun s hs => ?_)
    simp only [hs.isAt, head, CatchRange.line, CatchRange.head]
    rw [CatchRange.line, CatchRange.head] at found
    cases every : c.isCatchAll <;>
    · rw [every] at found
      exact found

end Element

/-! ## Bodies -/

namespace Body

/-- The `.registers` or `.locals` line. -/
def head (b : Body) : Bytes :=
  if b.useLocals then Directive.locals.word ++ (ascii " " ++ decimal b.locals)
  else Directive.registers.word ++ (ascii " " ++ decimal b.registers)

def lines (b : Body) : List Bytes := b.head :: b.elements.flatMap Element.lines

/-- Each element is `Readable`, and the number of registers is a non-negative 32-bit number. -/
structure Readable (b : Body) : Prop where
  elements : ∀ e ∈ b.elements, e.Readable
  locals : b.useLocals = true → 0 ≤ b.locals ∧ b.locals < twoPow 31
  registers : b.useLocals = false → 0 ≤ b.registers ∧ b.registers < twoPow 31

/-- The body without positions and comments. -/
def bare (b : Body) : Body := { b with elements := b.elements.map Element.bare }

theorem length_le_flatMap_lines (es : List Element) : es.length ≤ (es.flatMap Element.lines).length := by
  induction es with
  | nil => rfl
  | cons e es ih =>
    rw [List.flatMap_cons, List.length_append, Element.lines, List.length_cons, List.length_cons]
    omega

theorem takes_finish (hr : Closed rest) :
    Takes nextInBody (Directive.method.endWord ++ rest) (Directive.method.endWord ++ rest) (· = .finish) := by
  refine .get_bind fun s hs => ?_
  rw [hs.isAt, Directive.begins_append hr, if_pos rfl]
  exact .pure rfl

/-- `bodyFuel` appends the elements of the lines to those of the body it starts with, provided the fuel exceeds their
number. -/
theorem takes_bodyFuel {es : List Element} {sp : Bytes} {b : Body} {n : Nat} (h : ∀ e ∈ es, e.Readable) (hg : Gap gap)
    (hx : Lines (es.flatMap Element.lines) x) (hsp : Gap sp) (hr : Closed rest) (enough : es.length < n) :
    Takes (bodyFuel n true b) (gap ++ (x ++ (sp ++ (Directive.method.endWord ++ rest)))) (Directive.method.endWord ++ rest) fun r =>
      r.1 = true ∧ { r.2 with elements := r.2.elements.reverse.map Element.bare } =
        { b with elements := (b.elements.reverse ++ es).map Element.bare } := by
  have solid : Solid (Directive.method.endWord ++ rest) := ⟨byte '.', rfl, by decide, by decide⟩
  induction es generalizing gap x b n with
  | nil =>
    obtain ⟨n, rfl⟩ : ∃ m, n = m + 1 := ⟨n - 1, by omega⟩
    have whole : Gap (gap ++ (x ++ sp)) := hg.append (hx.gap.append hsp)
    have text : gap ++ (x ++ (sp ++ (Directive.method.endWord ++ rest))) = (gap ++ (x ++ sp)) ++ (Directive.method.endWord ++ rest) := by
      simp
    rw [bodyFuel, text]
    refine .bind (whole.takes_skipBlank solid) fun _ _ => .get_bind fun s hs => ?_
    simp only [solid.finished hs, Bool.false_eq_true, if_false]
    refine .bind (takes_finish hr) ?_
    rintro _ rfl
    exact .pure ⟨rfl, by simp⟩
  | cons e es ih =>
    obtain ⟨n, rfl⟩ : ∃ m, n = m + 1 := ⟨n - 1, by simp at enough; omega⟩
    obtain ⟨first, others⟩ := List.forall_mem_cons.1 h
    obtain ⟨gap', t, y, hg', ht, hy, rfl⟩ := hx.uncons
    have fewer : es.length < n := by
      simp at enough
      omega
    obtain ⟨left, t', y', ht', hy', ended, behind, taken⟩ := Element.takes_nextInBody (sp ++ (Directive.method.endWord ++ rest)) first ht hy
    have text : gap ++ ((gap' ++ (e.head ++ (t ++ newline :: y))) ++ (sp ++ (Directive.method.endWord ++ rest))) =
        (gap ++ gap') ++ (e.head ++ (t ++ newline :: (y ++ (sp ++ (Directive.method.endWord ++ rest))))) := by simp
    have solid' : Solid (e.head ++ (t ++ newline :: (y ++ (sp ++ (Directive.method.endWord ++ rest))))) := Element.Readable.solid first
    rw [bodyFuel, text]
    refine .bind ((hg.append hg').takes_skipBlank solid') fun _ _ => .get_bind fun s hs => ?_
    simp only [solid'.finished hs, Bool.false_eq_true, if_false]
    refine .bind taken ?_
    rintro _ ⟨f, rfl, same⟩
    refine .bind (takes_expectLineEnd ended) fun _ _ => ?_
    rw [behind]
    have remaining := ih (b := { b with elements := f :: b.elements }) others ht'.gap hy' fewer
    rw [List.append_assoc] at remaining
    refine remaining.mono ?_
    rintro ⟨seen, c⟩ ⟨hseen, hc⟩
    refine ⟨hseen, hc.trans ?_⟩
    simp [same]

theorem takes_locals {n : Nat} (small : n < twoPow 31) (hr : Closed rest) :
    Takes nextInBody (Directive.locals.word ++ (ascii " " ++ (decimal n ++ rest))) rest (· = .locals n) := by
  have found : Takes (do
      move (·.skip Directive.locals.word.length)
      return Next.locals (← readInt)) (Directive.locals.word ++ (ascii " " ++ (decimal n ++ rest))) rest (· = .locals n) := by
    refine .bind takes_skip fun _ _ => .bind (takes_readInt (by decide) small hr) ?_
    rintro _ rfl
    exact .pure rfl
  refine .get_bind fun s hs => ?_
  simp only [hs.isAt]
  exact found

theorem takes_registers {n : Nat} (small : n < twoPow 31) (hr : Closed rest) :
    Takes nextInBody (Directive.registers.word ++ (ascii " " ++ (decimal n ++ rest))) rest (· = .registers n) := by
  have found : Takes (do
      move (·.skip Directive.registers.word.length)
      return Next.registers (← readInt)) (Directive.registers.word ++ (ascii " " ++ (decimal n ++ rest))) rest (· = .registers n) := by
    refine .bind takes_skip fun _ _ => .bind (takes_readInt (by decide) small hr) ?_
    rintro _ rfl
    exact .pure rfl
  refine .get_bind fun s hs => ?_
  simp only [hs.isAt]
  exact found

/-- `nextInBody` reads the `.registers` or `.locals` line. -/
theorem takes_head {b : Body} (h : b.Readable) (hr : Closed rest) : Takes nextInBody (b.head ++ rest) rest
    (· = if b.useLocals then .locals b.locals else .registers b.registers) := by
  unfold head
  cases locals : b.useLocals with
  | true =>
    obtain ⟨low, high⟩ := h.locals locals
    obtain ⟨n, hn⟩ := Int.eq_ofNat_of_zero_le low
    rw [hn] at high ⊢
    simp only [if_true, List.append_assoc]
    exact takes_locals (by omega) hr
  | false =>
    obtain ⟨low, high⟩ := h.registers locals
    obtain ⟨n, hn⟩ := Int.eq_ofNat_of_zero_le low
    rw [hn] at high ⊢
    simp only [Bool.false_eq_true, if_false, List.append_assoc]
    exact takes_registers (by omega) hr

/-- `readBody` reads the lines of a `Readable` body and gives the body, up to positions and comments. -/
theorem takes_readBody {b : Body} {sp : Bytes} (h : b.Readable) (hg : Gap gap) (hx : Lines b.lines x) (hsp : Gap sp) (hr : Closed rest) :
    Takes (readBody b.paramRegisters) (gap ++ (x ++ (sp ++ (Directive.method.endWord ++ rest)))) (Directive.method.endWord ++ rest)
      fun r => r.1 = true ∧ r.2.bare = b.bare := by
  have many := hx.length_le
  obtain ⟨gap', t, y, hg', ht, hy, rfl⟩ := hx.uncons
  obtain ⟨t', ht', behind⟩ := ht.dropWhile (x := y ++ (sp ++ (Directive.method.endWord ++ rest)))
  have solid : Solid (b.head ++ (t ++ newline :: (y ++ (sp ++ (Directive.method.endWord ++ rest))))) := by
    refine ⟨byte '.', ?_, by decide, by decide⟩
    rw [head]
    split <;> rfl
  have text : gap ++ ((gap' ++ (b.head ++ (t ++ newline :: y))) ++ (sp ++ (Directive.method.endWord ++ rest))) =
      (gap ++ gap') ++ (b.head ++ (t ++ newline :: (y ++ (sp ++ (Directive.method.endWord ++ rest))))) := by simp
  have rows : b.elements.length ≤ (b.elements.flatMap Element.lines).length := length_le_flatMap_lines b.elements
  -- Both ways of counting leave the same body to fill.
  have remaining : ∀ n, b.elements.length < n → Takes
      (bodyFuel n true { registers := b.registers, paramRegisters := b.paramRegisters, useLocals := b.useLocals })
      (t' ++ newline :: (y ++ (sp ++ (Directive.method.endWord ++ rest)))) (Directive.method.endWord ++ rest) fun r =>
        r.1 = true ∧ { r.2 with elements := r.2.elements.reverse.map Element.bare } = b.bare := by
    intro n enough
    have taken := takes_bodyFuel (b := { registers := b.registers, paramRegisters := b.paramRegisters, useLocals := b.useLocals })
      h.elements ht'.gap hy hsp hr enough
    rw [List.append_assoc] at taken
    exact taken
  unfold readBody
  refine .bind takes_rounds fun n enough => ?_
  obtain ⟨n, rfl⟩ : ∃ m, n = m + 1 := ⟨n - 1, by omega⟩
  have fewer : b.elements.length < n := by
    simp only [lines, List.length_cons] at many
    simp only [List.length_append, List.length_cons] at enough many
    omega
  rw [bodyFuel, text]
  refine .bind (m := Directive.method.endWord ++ rest)
    (P := fun r => r.1 = true ∧ { r.2 with elements := r.2.elements.reverse.map Element.bare } = b.bare) ?_ ?_
  · refine .bind ((hg.append hg').takes_skipBlank solid) fun _ _ => .get_bind fun s hs => ?_
    simp only [solid.finished hs, Bool.false_eq_true, if_false]
    refine .bind (takes_head h ht.ended.closed) ?_
    rintro _ rfl
    have filled := remaining n fewer
    cases locals : b.useLocals with
    | true =>
      have whole : b.locals + b.paramRegisters = b.registers := by
        rw [Body.locals]
        omega
      rw [locals] at filled
      simp only [if_true]
      refine .bind (takes_expectLineEnd ht.ended) fun _ _ => ?_
      rw [behind, whole]
      exact filled
    | false =>
      rw [locals] at filled
      simp only [Bool.false_eq_true, if_false]
      refine .bind (takes_expectLineEnd ht.ended) fun _ _ => ?_
      rw [behind]
      exact filled
  · rintro ⟨seen, c⟩ ⟨hseen, hc⟩
    exact .pure ⟨hseen, hc⟩

end Body

end Dalvik.Assembly
