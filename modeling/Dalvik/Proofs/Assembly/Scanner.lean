import Dalvik.Assembly.Scanner
import Dalvik.Proofs.Action
import Dalvik.Proofs.Cursor
import Mathlib.Data.List.DropRight
import Mathlib.Data.List.TakeWhile

/-!
# What is left of a text

`s.Left text` says that `text` is what the scanner `s` has left to read. `Takes act text rest P`
says that, wherever `text` is left, `act` succeeds with a value that has `P` and leaves `rest`. Such
facts are composed with `Takes.bind`, and do not depend on where in a file the text stands.
-/

namespace Dalvik.Assembly

variable {text rest tok : Bytes} {s t : Scanner}

/-! ## Positions -/

namespace Scanner

/-- Whether the text begins with a word, followed by a delimiter or by nothing. -/
def begins (w text : Bytes) : Bool := w.isPrefixOf text && (text[w.length]?).all isDelimiter

/-- The text from the position on is `text`, and the whole text fits into memory. -/
structure Left (s : Scanner) (text : Bytes) : Prop where
  inside : s.pos ≤ s.data.size
  rest : s.data.toList.drop s.pos = text
  small : s.data.size ≤ maxRun

theorem matchesAt_eq (data : Array UInt8) (i : Nat) (t : Bytes) :
    matchesAt data i t = t.isPrefixOf (data.toList.drop i) := by
  induction t generalizing i with
  | nil => rfl
  | cons b t ih =>
    rw [matchesAt, ih, ← Array.getElem?_toList]
    cases tail : data.toList.drop i with
    | nil =>
      have absent : data.toList[i]? = none := by rw [← List.head?_drop, tail, List.head?_nil]
      rw [absent]
      rfl
    | cons c r =>
      have present : data.toList[i]? = some c := by rw [← List.head?_drop, tail, List.head?_cons]
      have next : data.toList.drop (i + 1) = r := by rw [← List.drop_drop, tail, List.drop_one, List.tail_cons]
      have same : (some c == some b) = (b == c) := by
        rw [Bool.eq_iff_iff, beq_iff_eq, beq_iff_eq, Option.some.injEq, eq_comm]
      rw [present, next, List.isPrefixOf_cons_cons, same]

theorem runEnd_eq (p : UInt8 → Bool) (data : Array UInt8) (n i : Nat) (enough : data.size ≤ i + n) :
    runEnd p data n i = i + ((data.toList.drop i).takeWhile p).length := by
  induction n generalizing i with
  | zero =>
    rw [List.drop_eq_nil_of_le (by simpa using enough)]
    rfl
  | succ n ih =>
    rw [runEnd, ← Array.getElem?_toList]
    cases tail : data.toList.drop i with
    | nil =>
      have absent : data.toList[i]? = none := by rw [← List.head?_drop, tail, List.head?_nil]
      rw [absent]
      rfl
    | cons c r =>
      have present : data.toList[i]? = some c := by rw [← List.head?_drop, tail, List.head?_cons]
      have next : data.toList.drop (i + 1) = r := by rw [← List.drop_drop, tail, List.drop_one, List.tail_cons]
      rw [present, List.takeWhile_cons]
      dsimp only
      split
      · rw [ih (i + 1) (by omega), next, List.length_cons]
        omega
      · rfl

namespace Left

theorem length (h : s.Left text) : text.length = s.data.size - s.pos := by
  rw [← h.rest, List.length_drop, Array.length_toList]

theorem getElem? (h : s.Left text) (n : Nat) : s.data[s.pos + n]? = text[n]? := by
  rw [← h.rest, List.getElem?_drop, Array.getElem?_toList]

theorem move {a b : Bytes} (h : s.Left (a ++ b)) (data : t.data = s.data) (pos : t.pos = s.pos + a.length) : t.Left b := by
  have length := h.length
  have inside := h.inside
  rw [List.length_append] at length
  refine ⟨by rw [data, pos]; omega, ?_, by rw [data]; exact h.small⟩
  rw [data, pos, ← List.drop_drop, h.rest, List.drop_left]

theorem stay (h : s.Left text) (data : t.data = s.data) (pos : t.pos = s.pos) : t.Left text :=
  h.move (a := []) data pos

theorem finished (h : s.Left text) : s.finished = text.isEmpty := by
  have length := h.length
  have inside := h.inside
  rw [Scanner.finished, Bool.eq_iff_iff, decide_eq_true_eq, List.isEmpty_iff_length_eq_zero]
  omega

theorem peek (h : s.Left text) : s.peek = text.headD 0 := by
  rw [Scanner.peek, Array.getD_eq_getD_getElem?, ← Nat.add_zero s.pos, h.getElem?, List.headD_eq_head?_getD,
    List.head?_eq_getElem?]

theorem startsWith (h : s.Left text) (t : Bytes) : s.startsWith t = t.isPrefixOf text := by
  rw [Scanner.startsWith, matchesAt_eq, h.rest]

theorem delimitedAfter (h : s.Left text) (n : Nat) : s.delimitedAfter n = (text[n]?).all isDelimiter := by
  rw [Scanner.delimitedAfter, h.getElem?]
  cases text[n]? <;> rfl

theorem pos_skipWhile (h : s.Left text) (p : UInt8 → Bool) : (s.skipWhile p).pos = s.pos + (text.takeWhile p).length := by
  rw [Scanner.skipWhile, runEnd_eq p s.data _ _ (by omega), h.rest]

theorem skipWhile (h : s.Left text) (p : UInt8 → Bool) : (s.skipWhile p).Left (text.dropWhile p) :=
  move (s := s) (a := text.takeWhile p) (by rwa [List.takeWhile_append_dropWhile]) rfl (h.pos_skipWhile p)

theorem slice (h : s.Left (tok ++ rest)) : s.slice s.pos (s.pos + tok.length) = tok := by
  rw [Scanner.slice, Array.toList_extract, List.extract_eq_take_drop, h.rest, Nat.add_sub_cancel_left, List.take_left]

theorem skip {a b : Bytes} (h : s.Left (a ++ b)) : (s.skip a.length).Left b := by
  have length := h.length
  have inside := h.inside
  have small := h.small
  rw [List.length_append] at length
  have fits : wrap64 ((s.pos : Int) + (a.length : Int)) = s.pos + a.length :=
    Cursor.wrap64_of_le (by omega) (by omega)
  rw [Scanner.skip, fits]
  refine h.move rfl ?_
  rw [Scanner.setPosition]
  dsimp only
  omega

theorem origin (h : s.Left text) : s.origin.2.Left text := by
  unfold Scanner.origin
  split <;> exact h.stay rfl rfl

theorem isAt (h : s.Left text) (w : Bytes) : s.isAt w = begins w text := by
  rw [Scanner.isAt, h.startsWith, h.delimitedAfter, begins]

theorem skipLine {line rest : Bytes} (h : s.Left (line ++ newline :: rest)) (hline : ∀ b ∈ line, b ≠ newline) :
    s.skipLine.Left rest := by
  have pos : ∀ b ∈ line, (b != newline) = true := by simpa using hline
  have moved := h.skipWhile (· != newline)
  rw [List.dropWhile_append_of_pos pos, List.dropWhile_cons_of_neg (by simp)] at moved
  rw [Scanner.skipLine]
  simp only [moved.finished, List.isEmpty_cons]
  exact moved.move (a := [newline]) rfl rfl

end Left

end Scanner

/-! ## What is taken -/

/-- The next byte, if there is one, ends a token. -/
def Closed (text : Bytes) : Prop := ∀ b ∈ text.head?, isDelimiter b = true

/-- The rest of the line holds blanks and perhaps a comment. -/
def Ended (text : Bytes) : Prop := ∀ b ∈ (text.dropWhile isSpace).head?, b = newline ∨ b = byte '#'

/-- `tok` has no byte that ends a token. -/
def Word (tok : Bytes) : Prop := ∀ b ∈ tok, isDelimiter b = false

instance : DecidablePred Word := fun tok => List.decidableBAll _ tok

/-- Wherever `text` is left, the action succeeds with a value that has `P` and leaves `rest`. -/
def Takes {α : Type} (act : Reading α) (text rest : Bytes) (P : α → Prop) : Prop :=
  ∀ s : Scanner, s.Left text → ∃ a t, act.Gives s a t ∧ P a ∧ t.Left rest

namespace Takes

variable {α β : Type} {x : Reading α} {f : α → Reading β} {P : α → Prop} {Q : β → Prop} {m : Bytes}

theorem bind (hx : Takes x text m P) (hf : ∀ a, P a → Takes (f a) m rest Q) : Takes (x >>= f) text rest Q := by
  intro s hs
  obtain ⟨a, t, gives, ha, ht⟩ := hx s hs
  obtain ⟨b, u, gives', hb, hu⟩ := hf a ha t ht
  exact ⟨b, u, Action.gives_bind.2 ⟨a, t, gives, gives'⟩, hb, hu⟩

theorem pure {a : α} (h : P a) : Takes (Pure.pure a) text text P := by
  intro s hs
  exact ⟨a, s, Action.gives_pure.2 ⟨rfl, rfl⟩, h, hs⟩

theorem get_bind {f : Scanner → Reading β} (h : ∀ s : Scanner, s.Left text → Takes (f s) text rest Q) :
    Takes (get >>= f) text rest Q := by
  intro s hs
  obtain ⟨b, t, gives, hb, ht⟩ := h s hs s hs
  exact ⟨b, t, Action.gives_bind.2 ⟨s, s, Action.gives_get.2 ⟨rfl, rfl⟩, gives⟩, hb, ht⟩

theorem mono {P' : α → Prop} (h : Takes x text rest P) (sub : ∀ a, P a → P' a) : Takes x text rest P' := by
  intro s hs
  obtain ⟨a, t, gives, ha, ht⟩ := h s hs
  exact ⟨a, t, gives, sub a ha, ht⟩

theorem move {f : Scanner → Scanner} (h : ∀ s : Scanner, s.Left text → (f s).Left rest) :
    Takes (Reading.move f) text rest fun _ => True := by
  intro s hs
  exact ⟨⟨⟩, f s, Action.gives_modify.2 rfl, trivial, h s hs⟩

theorem step {f : Scanner → α × Scanner} (h : ∀ s : Scanner, s.Left text → P (f s).1 ∧ (f s).2.Left rest) :
    Takes (Reading.step f) text rest P := by
  intro s hs
  obtain ⟨found, left⟩ := h s hs
  refine ⟨(f s).1, (f s).2, ?_, found, left⟩
  unfold Reading.step
  simp only [Action.gives_bind, Action.gives_get, Action.gives_set, Action.gives_pure]
  exact ⟨s, s, ⟨rfl, rfl⟩, ⟨⟩, _, rfl, rfl, rfl⟩

theorem set {t : Scanner} (h : t.Left rest) : Takes (MonadStateOf.set t) text rest fun _ => True := by
  intro s _
  exact ⟨⟨⟩, t, Action.gives_set.2 rfl, trivial, h⟩

end Takes

/-! ## Steps -/

namespace Reading

variable {word : Bytes}

theorem takes_position : Takes position text text fun _ => True := by
  unfold position
  exact .get_bind fun s _ => .pure trivial

theorem takes_origin : Takes origin text text fun _ => True := by
  unfold origin
  exact .step fun s hs => ⟨trivial, hs.origin⟩

theorem takes_skip {a : Bytes} : Takes (move (·.skip a.length)) (a ++ rest) rest fun _ => True :=
  .move fun _ hs => hs.skip

theorem takes_skipSpaces : Takes skipSpaces text (text.dropWhile isSpace) fun _ => True := by
  unfold skipSpaces
  exact .move fun s hs => hs.skipWhile _

theorem isDelimiter_of_isSpace {b : UInt8} (h : isSpace b = true) : isDelimiter b = true := by
  simp [isDelimiter, isWhite, h]

theorem takes_token (hw : Word word) (hr : Closed rest) : Takes token (word ++ rest) rest (· = word) := by
  unfold token
  refine .step fun s hs => ?_
  have inner : ∀ b ∈ word, (!isDelimiter b) = true := by simpa [Word] using hw
  have outer : rest.takeWhile (fun b => !isDelimiter b) = [] := by
    cases rest with
    | nil => rfl
    | cons b r => exact List.takeWhile_cons_of_neg (by simpa using hr b rfl)
  have pos := hs.pos_skipWhile fun b => !isDelimiter b
  rw [List.takeWhile_append_of_pos inner, outer, List.append_nil] at pos
  refine ⟨?_, hs.move (a := word) rfl pos⟩
  show s.slice s.pos _ = word
  rw [pos, hs.slice]

theorem takes_accept {a : Bytes} : Takes (accept a) (a ++ rest) rest (· = true) := by
  unfold accept
  refine .step fun s hs => ?_
  have starts : s.startsWith a = true := by
    rw [hs.startsWith]
    simp
  rw [Scanner.accept, if_pos starts]
  exact ⟨rfl, hs.move rfl rfl⟩

theorem takes_accept_of_not {a : Bytes} (h : a.isPrefixOf text = false) : Takes (accept a) text text (· = false) := by
  unfold accept
  refine .step fun s hs => ?_
  have starts : ¬ s.startsWith a = true := by
    rw [hs.startsWith, h]
    exact Bool.false_ne_true
  rw [Scanner.accept, if_neg starts]
  exact ⟨rfl, hs⟩

/-- `expect` of punctuation succeeds whatever follows. -/
theorem takes_expect {a : Bytes} {last : UInt8} (hlast : a.getLast? = some last)
    (h : (ascii ",\x7b\x7d:>.").contains last = true) : Takes (expect a) (a ++ rest) rest fun _ => True := by
  unfold expect
  refine .get_bind fun s hs => ?_
  have starts : s.startsWith a = true := by
    rw [hs.startsWith]
    simp
  simp only [starts, hlast, h, Bool.not_true, Bool.false_and, Bool.false_eq_true, if_false]
  exact .set (hs.move rfl rfl)

theorem takes_expectLineEnd (h : Ended text) :
    Takes expectLineEnd text (text.dropWhile isSpace) fun _ => True := by
  unfold expectLineEnd
  refine .bind (P := (· = true)) (m := text.dropWhile isSpace) (.step fun s hs => ?_) ?_
  · have moved : s.skipSpaces.Left (text.dropWhile isSpace) := hs.skipWhile _
    refine ⟨?_, moved⟩
    show (s.skipSpaces.finished || s.skipSpaces.peek == newline || s.skipSpaces.peek == byte '#') = true
    rw [moved.finished, moved.peek]
    cases left : text.dropWhile isSpace with
    | nil => rfl
    | cons b r =>
      rw [Ended, left] at h
      simpa using h b rfl
  · rintro _ rfl
    exact .pure trivial

end Reading

theorem closed_cons {b : UInt8} (h : isDelimiter b = true) : Closed (b :: rest) := by
  intro c hc
  obtain rfl := Option.some.inj hc
  exact h

theorem Ended.closed (h : Ended text) : Closed text := by
  cases text with
  | nil => exact fun _ hb => by cases hb
  | cons b r =>
    refine closed_cons ?_
    by_cases space : isSpace b = true
    · exact Reading.isDelimiter_of_isSpace space
    · rw [Ended, List.dropWhile_cons_of_neg space] at h
      rcases h b rfl with rfl | rfl <;> decide

theorem Ended.dropWhile (h : Ended text) : Ended (text.dropWhile isSpace) := by
  rw [Ended, List.dropWhile_idempotent]
  exact h

/-! ## Gaps -/

/-- What may stand between two lines: blanks, newlines, and comments up to the end of their line. -/
inductive Gap : Bytes → Prop
  | blank (white : Bytes) (h : ∀ b ∈ white, isWhite b = true) : Gap white
  | comment (white line rest : Bytes) (h : ∀ b ∈ white, isWhite b = true) (hl : ∀ b ∈ line, b ≠ newline) (hr : Gap rest) :
      Gap (white ++ byte '#' :: line ++ newline :: rest)

/-- The text begins with something that `skipBlank` does not skip. -/
def Solid (text : Bytes) : Prop := ∃ b ∈ text.head?, isWhite b = false ∧ b ≠ byte '#'

theorem Solid.finished (h : Solid text) (hs : s.Left text) : s.finished = false := by
  obtain ⟨b, hb, -⟩ := h
  obtain ⟨r, rfl⟩ := List.head?_eq_some_iff.1 hb
  exact hs.finished

namespace Gap

variable {gap gap' : Bytes}

theorem white_append {white : Bytes} (h : ∀ b ∈ white, isWhite b = true) (hg : Gap gap) : Gap (white ++ gap) := by
  have both : ∀ {w : Bytes}, (∀ b ∈ w, isWhite b = true) → ∀ b ∈ white ++ w, isWhite b = true := by
    intro w hw b hb
    rcases List.mem_append.1 hb with hb | hb
    · exact h b hb
    · exact hw b hb
  cases hg with
  | blank _ hw => exact .blank _ (both hw)
  | comment w line rest hw hl hr =>
    have := Gap.comment (white ++ w) line rest (both hw) hl hr
    simpa using this

theorem append (h : Gap gap) (h' : Gap gap') : Gap (gap ++ gap') := by
  induction h with
  | blank white hw => exact white_append hw h'
  | comment white line rest hw hl hr ih =>
    have := Gap.comment white line _ hw hl ih
    simpa using this

theorem left_skipBlankFuel {n : Nat} (h : Gap gap) (hs : s.Left (gap ++ rest)) (solid : Solid rest) (enough : gap.length < n) :
    (Scanner.skipBlankFuel n s).Left rest := by
  obtain ⟨b, hb, hblack, hhash⟩ := solid
  obtain ⟨r, rfl⟩ := List.head?_eq_some_iff.1 hb
  induction h generalizing s n with
  | blank white hw =>
    obtain ⟨n, rfl⟩ : ∃ m, n = m + 1 := ⟨n - 1, by omega⟩
    have moved := hs.skipWhile isWhite
    rw [List.dropWhile_append_of_pos hw, List.dropWhile_cons_of_neg (by simp [hblack])] at moved
    rw [Scanner.skipBlankFuel, if_neg (by rw [moved.peek]; exact hhash)]
    exact moved
  | comment white line rest hw hl hr ih =>
    obtain ⟨n, rfl⟩ : ∃ m, n = m + 1 := ⟨n - 1, by omega⟩
    have moved := hs.skipWhile isWhite
    rw [List.append_assoc, List.append_assoc, List.dropWhile_append_of_pos hw, List.cons_append,
      List.dropWhile_cons_of_neg (by decide)] at moved
    rw [Scanner.skipBlankFuel, if_pos (by rw [moved.peek]; rfl)]
    have shorter : rest.length < n := by
      simp at enough
      omega
    refine ih shorter ?_
    have commented : (s.skipWhile isWhite).Left ((byte '#' :: line) ++ newline :: (rest ++ b :: r)) := moved
    refine commented.skipLine fun c hc => ?_
    rcases List.mem_cons.1 hc with rfl | hc
    · decide
    · exact hl c hc

theorem takes_skipBlank (h : Gap gap) (solid : Solid rest) : Takes Reading.skipBlank (gap ++ rest) rest fun _ => True := by
  unfold Reading.skipBlank
  refine .move fun s hs => h.left_skipBlankFuel hs solid ?_
  have length := hs.length
  rw [List.length_append] at length
  omega

end Gap

/-! ## Directives -/

namespace Directive

variable {d : Directive}

theorem takes_isNext (d : Directive) : Takes d.isNext text text (· = Scanner.begins d.word text) := by
  unfold isNext
  exact .get_bind fun s hs => .pure (hs.isAt d.word)

theorem takes_isEnd (d : Directive) : Takes d.isEnd text text (· = Scanner.begins d.endWord text) := by
  unfold isEnd
  exact .get_bind fun s hs => .pure (hs.isAt d.endWord)

theorem begins_append {w : Bytes} (h : Closed rest) : Scanner.begins w (w ++ rest) = true := by
  rw [Scanner.begins, Bool.and_eq_true]
  refine ⟨by simp, ?_⟩
  rw [List.getElem?_append_right le_rfl, Nat.sub_self]
  cases rest with
  | nil => rfl
  | cons b r => exact h b rfl

theorem takes_expect (h : Closed rest) : Takes d.expect (d.word ++ rest) rest fun _ => True := by
  unfold expect
  refine .bind d.takes_isNext ?_
  rintro _ rfl
  simp only [begins_append h, Bool.not_true, Bool.false_eq_true, if_false]
  exact Reading.takes_skip

theorem takes_expectEnd {gap : Bytes} (hg : Gap gap) (solid : Solid d.endWord) (h : Closed rest) :
    Takes d.expectEnd (gap ++ (d.endWord ++ rest)) rest fun _ => True := by
  unfold expectEnd
  have black : Solid (d.endWord ++ rest) := by
    obtain ⟨b, hb, black⟩ := solid
    exact ⟨b, by rw [List.head?_append_of_ne_nil _ (by rintro e; simp [e] at hb)]; exact hb, black⟩
  refine .bind (hg.takes_skipBlank black) fun _ _ => .bind d.takes_isEnd ?_
  rintro _ rfl
  simp only [begins_append h, Bool.not_true, Bool.false_eq_true, if_false]
  exact Reading.takes_skip

end Directive

end Dalvik.Assembly
