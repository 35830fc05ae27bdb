import Dalvik.Assembly.Printer
import Dalvik.Proofs.Assembly.Body

/-!
# What is printed

`w.Wrote s isOpen v` says that the writer `v` has written the text `s` after what `w` had written. A
block of lines is printed so that its lines can be read (`wrote_block`), and so is the table of an
array (`ArrayData.render_write`), which is read back (`ArrayData.readArrayData_render`).
-/

namespace Dalvik.Assembly

/-! ## The buffer -/

namespace Buffered

variable {b c d : Buffered} {s t : Bytes}

/-- The buffer has not failed, and its sink takes all bytes it is given. -/
structure Free (b : Buffered) : Prop where
  failure : b.failure = none
  room : b.sink.room = none

/-- The bytes in the sink and in the buffer. -/
def content (b : Buffered) : Bytes := b.sink.held.toList ++ b.buffer.toList

/-- `c` holds `s` behind what `b` held, and has not failed. -/
structure Added (b : Buffered) (s : Bytes) (c : Buffered) : Prop where
  free : c.Free
  content : c.content = b.content ++ s

theorem Added.trans (h : Added b s c) (h' : Added c t d) : Added b (s ++ t) d where
  free := h'.free
  content := by rw [h'.content, h.content, List.append_assoc]

theorem flush_eq (h : b.Free) :
    b.flush = { b with sink := { b.sink with held := b.sink.held ++ b.buffer.toList.toArray }, buffer := #[] } := by
  unfold flush
  by_cases empty : b.buffer = #[]
  · obtain ⟨sink, buffer, failure⟩ := b
    obtain rfl : buffer = #[] := empty
    simp
  · simp [empty, Sink.write, h.room, h.failure]

theorem added_flush (h : b.Free) : Added b [] b.flush := by
  rw [flush_eq h]
  exact ⟨⟨h.failure, h.room⟩, by simp [content]⟩

theorem Free.keep (h : b.Free) (s : Bytes) : Added b s { b with buffer := b.buffer ++ s.toArray } :=
  ⟨⟨h.failure, h.room⟩, by simp [content]⟩

/-- The fuel of `putFuel` is enough, since each flush empties the buffer. -/
theorem added_putFuel (h : b.Free) {n : Nat} (enough : s.length + min b.buffer.size 1 < n) : Added b s (putFuel n s b) := by
  induction n generalizing b s with
  | zero => omega
  | succ n ih =>
    rw [putFuel, if_neg (by simp [h.failure])]
    dsimp only
    split
    · exact h.keep s
    · next long =>
      have kept := h.keep (s.take (capacity - b.buffer.size))
      have passed := added_flush kept.free
      have positive : 0 < capacity := by decide
      have rest := ih (s := s.drop (capacity - b.buffer.size)) passed.free (by
        rw [flush_eq kept.free, List.length_drop]
        simp only [List.size_toArray, List.length_nil]
        omega)
      have all := (kept.trans passed).trans rest
      rwa [List.append_nil, List.take_append_drop] at all

theorem added_put (h : b.Free) (s : Bytes) : Added b s (b.put s) := added_putFuel h (by omega)

theorem added_putByte (h : b.Free) (x : UInt8) : Added b [x] (b.putByte x) := by
  have push : ∀ {c : Buffered}, c.Free → Added c [x] { c with buffer := c.buffer.push x } :=
    fun hc => ⟨⟨hc.failure, hc.room⟩, by simp [content]⟩
  have passed := added_flush h
  unfold putByte
  by_cases full : (b.failure.isNone && decide (capacity ≤ b.buffer.size)) = true
  · rw [if_pos full]
    dsimp only
    rw [if_neg (by simp [passed.free.failure])]
    exact passed.trans (push passed.free)
  · rw [if_neg full]
    dsimp only
    rw [if_neg (by simp [h.failure])]
    exact push h

end Buffered

/-! ## Lines -/

namespace Writer

variable {w v u : Writer} {s t x : Bytes} {p q : Bool}

/-- The blanks before a line. -/
def margin (w : Writer) : Bytes := List.replicate (w.depth * w.step).toNat (byte ' ')

/-- The text `s` was written, the line is open as `isOpen` says, and the indentation is the same. -/
structure Wrote (w : Writer) (s : Bytes) (isOpen : Bool) (v : Writer) : Prop where
  added : w.out.Added s v.out
  lineOpen : v.lineOpen = isOpen
  depth : v.depth = w.depth
  step : v.step = w.step

theorem Wrote.trans (h : Wrote w s p v) (h' : Wrote v t q u) : Wrote w (s ++ t) q u where
  added := h.added.trans h'.added
  lineOpen := h'.lineOpen
  depth := h'.depth.trans h.depth
  step := h'.step.trans h.step

theorem Wrote.margin (h : Wrote w s p v) : v.margin = w.margin := by
  rw [Writer.margin, Writer.margin, h.depth, h.step]

theorem Wrote.outdent (h : w.indent.Wrote s p v) : w.Wrote s p v.outdent where
  added := h.added
  lineOpen := h.lineOpen
  depth := by rw [Writer.outdent, h.depth, indent, Nat.add_sub_cancel]
  step := h.step

theorem wrote_append (free : w.out.Free) (hs : s ≠ []) :
    Wrote w ((if w.lineOpen then [] else w.margin) ++ s) true (w.append s) := by
  have going : ¬ (w.failure.isSome || s.isEmpty) = true := by simp [failure, free.failure, hs]
  rw [append, if_neg going]
  refine ⟨?_, rfl, rfl, rfl⟩
  dsimp only
  cases opened : w.lineOpen with
  | true => exact Buffered.added_put free s
  | false =>
    simp only [Bool.false_eq_true, if_false, margin]
    split
    · next none =>
      rw [none]
      exact Buffered.added_put free s
    · have blanks := Buffered.added_put free (List.replicate (w.depth * w.step).toNat (byte ' '))
      exact blanks.trans (Buffered.added_put blanks.free s)

theorem wrote_newline (free : w.out.Free) : Wrote w [Assembly.newline] false w.newline := by
  rw [newline, if_neg (by simp [failure, free.failure])]
  exact ⟨Buffered.added_putByte free _, rfl, rfl, rfl⟩

theorem wrote_line (free : w.out.Free) (closed : w.lineOpen = false) (hs : s ≠ []) :
    Wrote w (w.margin ++ (s ++ [Assembly.newline])) false (w.line s) := by
  have text := wrote_append free hs
  have all := text.trans (wrote_newline text.added.free)
  rw [closed, if_neg Bool.false_ne_true, List.append_assoc] at all
  exact all

theorem blank_margin (w : Writer) : Blank w.margin := fun b hb => by
  rw [List.eq_of_mem_replicate hb]
  rfl

/-- Writing lines one after the other gives a text that consists of these lines. -/
theorem wrote_lines (free : w.out.Free) (closed : w.lineOpen = false) {ls : List Bytes} (solid : ∀ l ∈ ls, l ≠ []) :
    ∃ x, Lines ls x ∧ Wrote w x false (ls.foldl Writer.line w) := by
  induction ls generalizing w with
  | nil => exact ⟨[], .nil, ⟨free, by simp⟩, closed, rfl, rfl⟩
  | cons l ls ih =>
    obtain ⟨first, solid⟩ := List.forall_mem_cons.1 solid
    have line := wrote_line free closed first
    obtain ⟨x, lines, rest⟩ := ih line.added.free line.lineOpen solid
    refine ⟨_, .line w.margin l [] w.blank_margin .nil lines, ?_⟩
    have all := line.trans rest
    simpa using all

theorem Wrote.refl (free : w.out.Free) : Wrote w [] w.lineOpen w := ⟨⟨free, by simp⟩, rfl, rfl, rfl⟩

/-- Text appended to an open line stands right behind what is there. -/
theorem wrote_more (free : w.out.Free) (opened : w.lineOpen = true) (s : Bytes) : Wrote w s true (w.append s) := by
  by_cases absent : s = []
  · rw [absent, append, if_pos (by simp), ← opened]
    exact .refl free
  · have text := wrote_append free absent
    rwa [opened, if_pos rfl, List.nil_append] at text

theorem wrote_spaced (free : w.out.Free) (opened : w.lineOpen = true) (s : Bytes) : Wrote w (ascii " " ++ s) true (w.spaced s) :=
  have gap := wrote_more free opened (ascii " ")
  gap.trans (wrote_more gap.added.free gap.lineOpen s)

/-- The operands of a keyword, empty ones left out, with a blank before each. -/
def operands (ss : List Bytes) : Bytes := ss.flatMap fun s => if s.isEmpty then [] else ascii " " ++ s

theorem wrote_operands (free : w.out.Free) (opened : w.lineOpen = true) (ss : List Bytes) :
    Wrote w (operands ss) true (ss.foldl (fun w s => if s.isEmpty then w else w.spaced s) w) := by
  induction ss generalizing w with
  | nil =>
    have same := Wrote.refl free
    rwa [opened] at same
  | cons s ss ih =>
    rw [List.foldl_cons, operands, List.flatMap_cons]
    cases absent : s.isEmpty with
    | true => exact ih free opened
    | false =>
      have first := wrote_spaced free opened s
      exact first.trans (ih first.added.free first.lineOpen)

/-- `directive` writes the keyword and its operands on a new line. -/
theorem wrote_directive (free : w.out.Free) (closed : w.lineOpen = false) {d : Directive} (hd : d.word ≠ []) (ss : List Bytes) :
    Wrote w (w.margin ++ (d.word ++ operands ss)) true (w.directive d ss) := by
  have word := wrote_append free hd
  have all := word.trans (wrote_operands word.added.free word.lineOpen ss)
  rwa [closed, if_neg Bool.false_ne_true, List.append_assoc] at all

/-- `comment` writes a trail, or nothing. -/
theorem wrote_comment (free : w.out.Free) (opened : w.lineOpen = true) (hs : ∀ b ∈ s, b ≠ Assembly.newline) :
    ∃ t, Trail t ∧ Wrote w t true (w.comment s) := by
  unfold comment
  by_cases absent : (!w.comments || s.isEmpty) = true
  · rw [if_pos absent]
    exact ⟨[], .nil, opened ▸ .refl free⟩
  · rw [if_neg absent, opened, if_pos rfl]
    have gap := wrote_more free opened (ascii "    ")
    have text := gap.trans (wrote_more gap.added.free gap.lineOpen (ascii "# " ++ s))
    refine ⟨_, .comment (ascii "    ") (byte ' ' :: s) (by decide) ?_, text⟩
    intro b hb
    rcases List.mem_cons.1 hb with rfl | hb
    · decide
    · exact hs b hb

theorem Wrote.newline (h : Wrote w s true v) : Wrote w (s ++ [Assembly.newline]) false v.newline :=
  h.trans (wrote_newline h.added.free)

/-- A line with a comment behind it consists of this one line. -/
theorem Wrote.lines_comment {l : Bytes} (h : Wrote w (w.margin ++ l) true v) (hs : ∀ b ∈ s, b ≠ Assembly.newline) :
    ∃ x, Lines [l] x ∧ Wrote w x false (v.comment s).newline := by
  obtain ⟨t, trail, comment⟩ := wrote_comment h.added.free h.lineOpen hs
  refine ⟨_, .line w.margin l t w.blank_margin trail .nil, ?_⟩
  simpa using (h.trans comment).newline

theorem Wrote.lines {l : Bytes} (h : Wrote w (w.margin ++ l) true v) : ∃ x, Lines [l] x ∧ Wrote w x false v.newline := by
  refine ⟨_, .line w.margin l [] w.blank_margin .nil .nil, ?_⟩
  simpa using h.newline

end Writer

/-- `close` writes the closing keyword on a line of its own. -/
theorem Writer.wrote_close {w : Writer} (free : w.out.Free) (closed : w.lineOpen = false) (d : Directive) :
    ∃ x, Lines [d.endWord] x ∧ w.Wrote x false (w.close d) := by
  have nonempty : d.endWord ≠ [] := by simp [Directive.endWord, ascii]
  refine ⟨_, .line w.margin d.endWord [] w.blank_margin .nil .nil, ?_⟩
  simpa [Writer.close] using Writer.wrote_line free closed nonempty

/-- `block` writes its lines and the closing keyword. -/
theorem wrote_block {w : Writer} (free : w.out.Free) (d : Directive) {ls : List Bytes} (solid : ∀ l ∈ ls, l ≠ []) :
    ∃ x, Lines (ls ++ [d.endWord]) x ∧ w.Wrote (newline :: x) false (block d ls w) := by
  have start := Writer.wrote_newline free
  obtain ⟨x, lines, rows⟩ := Writer.wrote_lines (w := w.newline.indent) start.added.free start.lineOpen solid
  have inner := start.trans rows.outdent
  obtain ⟨y, last, close⟩ := Writer.wrote_close inner.added.free inner.lineOpen d
  exact ⟨x ++ y, lines.append last, inner.trans close⟩

/-! ## Elements and bodies -/

theorem Writer.operands_singleton {s : Bytes} (hs : s ≠ []) : operands [s] = ascii " " ++ s := by simp [operands, hs]

/-- A first line and a `block` behind it consist of all their lines. -/
theorem wrote_table {w v : Writer} {h : Bytes} (head : w.Wrote (w.margin ++ h) true v) (d : Directive) {ls : List Bytes}
    (solid : ∀ l ∈ ls, l ≠ []) : ∃ x, Lines (h :: (ls ++ [d.endWord])) x ∧ w.Wrote x false (block d ls v) := by
  obtain ⟨x, lines, rows⟩ := wrote_block head.added.free d solid
  refine ⟨_, .line w.margin h [] w.blank_margin .nil lines, ?_⟩
  simpa using head.trans rows

namespace Element

/-- The comment of an element. -/
def comment : Element → Bytes
  | .label l => l.comment
  | .instruction i => i.comment
  | _ => []

/-- What `Element.write` prints consists of the lines of the element. -/
theorem Readable.wrote_write {e : Element} (h : e.Readable) (note : ∀ b ∈ e.comment, b ≠ newline) {w : Writer} (free : w.out.Free)
    (closed : w.lineOpen = false) : ∃ x, Lines e.lines x ∧ w.Wrote x false (e.write w) := by
  have opening : ∀ {s : Bytes}, s ≠ [] → w.Wrote (w.margin ++ s) true (w.append s) := by
    intro s hs
    have text := Writer.wrote_append free hs
    rwa [closed, if_neg Bool.false_ne_true] at text
  cases e with
  | label l => exact (opening (List.cons_ne_nil _ _)).lines_comment note
  | instruction i =>
    have word : i.opcode.name ≠ [] := by
      have letter := (Opcode.name_bytes _ h.mem).1
      rintro absent
      rw [absent] at letter
      cases letter
    have line : w.Wrote (w.margin ++ i.line) true
        (if i.operands.isEmpty then w.append i.opcode.name
          else (w.append i.opcode.name).spaced (Bytes.join (ascii ", ") i.operands)) := by
      have name := opening word
      rw [Instruction.line]
      cases i.operands.isEmpty with
      | true => simpa using name
      | false => simpa using name.trans (Writer.wrote_spaced name.added.free name.lineOpen (Bytes.join (ascii ", ") i.operands))
    exact line.lines_comment note
  | packedSwitch p =>
    have head := Writer.wrote_directive free closed (d := Directive.packedSwitch) (by decide) [(Literal.int p.firstKey).text]
    obtain ⟨b, r, text, -⟩ := Literal.text_begins (.inl rfl) p.firstKey
    rw [Writer.operands_singleton (text ▸ List.cons_ne_nil b r)] at head
    refine wrote_table head .packedSwitch fun l hl => ?_
    obtain ⟨name, -, rfl⟩ := List.mem_map.1 hl
    exact List.cons_ne_nil _ _
  | sparseSwitch q =>
    have rows : q.write w = block .sparseSwitch q.rows (w.append Directive.sparseSwitch.word) := by
      refine congrArg (block _ · _) (List.map_congr_left fun c _ => ?_)
      simp [SparseSwitch.row, ascii, byte]
    have table := wrote_table (opening (by decide : Directive.sparseSwitch.word ≠ [])) .sparseSwitch fun l (hl : l ∈ q.rows) => by
      obtain ⟨c, -, rfl⟩ := List.mem_map.1 hl
      obtain ⟨b, r, text, -⟩ := Literal.text_begins (.inl rfl) c.1
      rw [SparseSwitch.row, Literal.int, text]
      exact List.cons_ne_nil _ _
    rw [write, rows]
    exact table
  | arrayData a =>
    have width : decimal a.width ≠ [] := by
      rcases h.width with e | e | e | e <;> rw [e] <;> exact decimal_ne_nil _
    have head := Writer.wrote_directive free closed (d := Directive.arrayData) (by decide) [decimal a.width]
    rw [Writer.operands_singleton width] at head
    refine wrote_table head .arrayData fun l hl => ?_
    obtain ⟨v, -, rfl⟩ := List.mem_map.1 hl
    obtain ⟨b, r, text, -⟩ := Literal.text_begins a.whole_kind v
    rw [ArrayData.element_eq, text]
    exact List.cons_ne_nil b r
  | catchRange c =>
    have line : w.Wrote (w.margin ++ c.line) true (if c.isCatchAll
        then w.directive .catchAll [braces (byte ':' :: c.start ++ ascii " .. :" ++ c.stop), byte ':' :: c.handler]
        else w.directive .catchOne [c.type.name, braces (byte ':' :: c.start ++ ascii " .. :" ++ c.stop), byte ':' :: c.handler]) := by
      cases every : c.isCatchAll with
      | true =>
        have whole := Writer.wrote_directive free closed (d := Directive.catchAll) (by decide)
          [braces (byte ':' :: c.start ++ ascii " .. :" ++ c.stop), byte ':' :: c.handler]
        simpa [CatchRange.line, CatchRange.head, CatchRange.tail, every, Writer.operands, braces, openBrace, closeBrace, ascii, byte] using whole
      | false =>
        have nonempty : c.type.name ≠ [] := by simpa [CatchRange.isCatchAll, Descriptor.isZero] using every
        have whole := Writer.wrote_directive free closed (d := Directive.catchOne) (by decide)
          [c.type.name, braces (byte ':' :: c.start ++ ascii " .. :" ++ c.stop), byte ':' :: c.handler]
        simpa [CatchRange.line, CatchRange.head, CatchRange.tail, every, nonempty, Writer.operands, braces, openBrace, closeBrace, ascii, byte]
          using whole
    exact line.lines

/-- Writing elements one after the other gives the lines of all of them. -/
theorem wrote_elements {es : List Element} (h : ∀ e ∈ es, e.Readable) (notes : ∀ e ∈ es, ∀ b ∈ e.comment, b ≠ newline) {w : Writer}
    (free : w.out.Free) (closed : w.lineOpen = false) : ∃ x, Lines (es.flatMap lines) x ∧
      w.Wrote x false (es.foldl (fun w e => e.write (if e.isLabel then w.newline else w)) w) := by
  induction es generalizing w with
  | nil => exact ⟨[], .nil, closed ▸ .refl free⟩
  | cons e es ih =>
    obtain ⟨first, h⟩ := List.forall_mem_cons.1 h
    obtain ⟨note, notes⟩ := List.forall_mem_cons.1 notes
    have one : ∃ x, Lines e.lines x ∧ w.Wrote x false (e.write (if e.isLabel then w.newline else w)) := by
      cases e.isLabel with
      | false => exact first.wrote_write note free closed
      | true =>
        have empty := Writer.wrote_newline free
        obtain ⟨x, lines, wrote⟩ := first.wrote_write note empty.added.free empty.lineOpen
        exact ⟨newline :: x, .empty lines, empty.trans wrote⟩
    obtain ⟨x, lines, wrote⟩ := one
    obtain ⟨y, others, rest⟩ := ih h notes wrote.added.free wrote.lineOpen
    exact ⟨x ++ y, by rw [List.flatMap_cons]; exact lines.append others, wrote.trans rest⟩

end Element

/-- What `Body.write` prints consists of the lines of the body. -/
theorem Body.Readable.wrote_write {b : Body} (h : b.Readable) (notes : ∀ e ∈ b.elements, ∀ x ∈ e.comment, x ≠ newline) {w : Writer}
    (free : w.out.Free) (closed : w.lineOpen = false) : ∃ x, Lines b.lines x ∧ w.Wrote x false (b.write w) := by
  have number : ∀ {n : Int}, 0 ≤ n → decimal n ≠ [] := by
    intro n nonneg
    obtain ⟨n, rfl⟩ := Int.eq_ofNat_of_zero_le nonneg
    exact decimal_ne_nil n
  have head : w.Wrote (w.margin ++ b.head) true (if b.useLocals then w.directive .locals [decimal b.locals]
      else w.directive .registers [decimal b.registers]) := by
    cases locals : b.useLocals with
    | true =>
      have line := Writer.wrote_directive free closed (d := Directive.locals) (by decide) [decimal b.locals]
      rw [Writer.operands_singleton (number (h.locals locals).1)] at line
      simpa [Body.head, locals] using line
    | false =>
      have line := Writer.wrote_directive free closed (d := Directive.registers) (by decide) [decimal b.registers]
      rw [Writer.operands_singleton (number (h.registers locals).1)] at line
      simpa [Body.head, locals] using line
  obtain ⟨x, first, line⟩ := head.lines
  obtain ⟨y, others, elements⟩ := Element.wrote_elements h.elements notes line.added.free line.lineOpen
  exact ⟨x ++ y, first.append others, line.trans elements⟩

/-- `render` returns the text that was written. -/
theorem render_eq {write : Writer → Writer} {w : Writer} {s : Bytes} {isOpen : Bool} (wrote : w.Wrote s isOpen (write w))
    (new : w.out.content = []) : render write w = s := by
  have passed := Buffered.flush_eq wrote.added.free
  have content := wrote.added.content
  rw [new, List.nil_append] at content
  rw [render, Writer.text, Writer.flush, passed]
  simpa [Buffered.content] using content

/-- `render` of an array prints the first line, the values and the closing keyword, for any indentation. -/
theorem ArrayData.render_write (a : ArrayData) (step : Int) (comments : Bool) {width : Nat} (hw : a.width = width) :
    ∃ x, Lines (a.rows ++ [Directive.arrayData.endWord]) x ∧ render a.write { step, comments } = a.head ++ newline :: x := by
  let w : Writer := { step, comments }
  have free : w.out.Free := ⟨rfl, rfl⟩
  have number : decimal a.width ≠ [] := by
    rw [hw]
    exact decimal_ne_nil width
  have head := Writer.wrote_directive free rfl (d := Directive.arrayData) (by decide) [decimal a.width]
  rw [Writer.operands_singleton number] at head
  have solid : ∀ l ∈ a.rows, l ≠ [] := by
    intro l hl
    obtain ⟨v, -, rfl⟩ := List.mem_map.1 hl
    obtain ⟨b, r, e, -⟩ := row_literal a.whole_kind v []
    rw [element_eq, ← List.append_nil (Literal.text _), e]
    exact List.cons_ne_nil b r
  obtain ⟨x, lines, rows⟩ := wrote_block head.added.free .arrayData solid
  refine ⟨x, lines, render_eq (head.trans rows) rfl |>.trans ?_⟩
  have flat : w.margin = [] := by simp [Writer.margin, w]
  rw [flat, List.nil_append]
  rfl

/-- `readArrayData` gives an array that was rendered, up to positions and comments, and leaves only the end of the
last line. -/
theorem ArrayData.readArrayData_render {a : ArrayData} (h : a.Readable) (step : Int) (comments : Bool) {rest : Bytes} {s : Scanner}
    (hs : s.Left (render a.write { step, comments } ++ rest)) :
    ∃ q t gap, readArrayData.Gives s q t ∧ q.bare = a.bare ∧ Gap gap ∧ t.Left (gap ++ rest) := by
  obtain ⟨width, hw⟩ : ∃ width : Nat, a.width = width := ⟨a.width.toNat, by have := h.width; omega⟩
  obtain ⟨x, lines, text⟩ := a.render_write step comments hw
  obtain ⟨t', y, ht', hy, taken⟩ := takes_readArrayData rest h .nil lines
  rw [text, List.append_assoc, List.cons_append] at hs
  obtain ⟨q, t, gives, same, left⟩ := taken s hs
  refine ⟨q, t, (t' ++ [newline]) ++ y, gives, same, ht'.gap.append hy.gap, ?_⟩
  simpa using left

end Dalvik.Assembly
