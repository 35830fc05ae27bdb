import Dalvik.Proofs.Assembly.Writer
import Dalvik.Proofs.Constant.Refusal

/-!
# Methods

`readMethod` reads what `Method.write` prints of a `Readable` method, and gives the method up to
positions and comments (`Method.takes_readMethod`, `Method.readMethod_render`).
-/

namespace Dalvik.Assembly

open Reading Scanner

variable {rest text gap x word sp : Bytes} {ls : List Bytes} {t : Target}

/-! ## Flags -/

namespace AccessWord

theorem entries : ∀ w ∈ all, Word w.word ∧ w.word ≠ [] ∧ ∃ k < 32, w.bit.toNat = 2 ^ k := by decide

theorem ofWord?_word : ∀ w ∈ all, w.targets.contains t = true → Access.ofWord? w.word t = some w.bit := by
  cases t <;> decide

theorem lower_word : ∀ w ∈ all, ∀ b ∈ w.word, byte 'a' ≤ b ∨ b = byte '-' := by decide +kernel

end AccessWord

namespace Access

/-- The words of the access flags that the target can have, in the order they are printed. -/
def words (a : Access) (t : Target) : List AccessWord :=
  AccessWord.all.filter fun w => a.meets w.bit && w.targets.contains t

/-- Each flag of the access flags has a word for the target. -/
def Worded (a : Access) (t : Target) : Prop := ((a.words t).foldl (fun bits w => bits ||| w.bit) 0) = a.bits

instance (a : Access) (t : Target) : Decidable (a.Worded t) := inferInstanceAs (Decidable (_ = _))

/-- A text with a byte below `'a'` other than a hyphen is no word of a flag. -/
theorem ofWord?_eq_none {b : UInt8} (mem : b ∈ word) (low : b < byte 'a') (other : b ≠ byte '-') : ofWord? word t = none := by
  rw [ofWord?, Option.map_eq_none_iff, List.find?_eq_none]
  intro w hw same
  rw [Bool.and_eq_true, beq_iff_eq] at same
  rcases AccessWord.lower_word w hw b (same.1 ▸ mem) with le | e
  · exact absurd low (UInt8.not_lt.2 le)
  · exact other e

/-- The operands of a keyword with the text of the flags in front: each flag is one word. -/
theorem operands_text (a : Access) (ss : List Bytes) :
    Writer.operands (a.text t :: ss) = (a.words t).flatMap (fun w => ascii " " ++ w.word) ++ Writer.operands ss := by
  have joined : ∀ w ws, ascii " " ++ (ascii " ").intercalate (w :: ws) = (w :: ws).flatMap (ascii " " ++ ·) := by
    intro w ws
    induction ws generalizing w with
    | nil => simp
    | cons v vs ih => rw [List.intercalate_cons_cons, List.flatMap_cons, ← ih, List.append_assoc, List.append_assoc]
  rw [Writer.operands, List.flatMap_cons, ← Writer.operands, text, Bytes.join, ← words]
  congr 1
  cases nonempty : a.words t with
  | nil => rfl
  | cons w ws =>
    have first : w.word ≠ [] := (AccessWord.entries w (List.mem_of_mem_filter (nonempty ▸ List.mem_cons_self))).2.1
    have filled : ((ascii " ").intercalate ((w :: ws).map AccessWord.word)).isEmpty = false := by
      obtain ⟨b, r, e⟩ := List.exists_cons_of_ne_nil first
      cases ws <;> simp [List.intercalate_cons_cons, e]
    rw [filled, if_neg Bool.false_ne_true, List.map_cons, joined, ← List.map_cons, List.flatMap_map]

theorem length_le_flatMap (ws : List AccessWord) : ws.length ≤ (ws.flatMap fun w => ascii " " ++ w.word).length := by
  induction ws with
  | nil => rfl
  | cons w ws ih =>
    rw [List.flatMap_cons, List.length_append, List.length_append, List.length_cons, show (ascii " ").length = 1 from rfl]
    omega

end Access

/-- `tokenAt` returns a token and its position, and setting the position brings the scanner back to it. -/
theorem gives_tokenAt (hsp : Blank sp) (hw : Word word) (nonempty : word ≠ []) (hr : Closed rest) {s : Scanner}
    (hs : s.Left (sp ++ (word ++ rest))) :
    ∃ pos : Nat, ∃ u, tokenAt.Gives s (pos, word) u ∧ u.Left rest ∧ (u.setPosition pos).Left (word ++ rest) := by
  obtain ⟨_, v, skips, -, here⟩ := takes_skipBlanks hsp (head_word hw nonempty) s hs
  obtain ⟨_, u, token, rfl, left⟩ := takes_token hw hr v here
  have data : u.data = v.data := by
    unfold Reading.token Reading.step at token
    simp only [Action.gives_bind, Action.gives_get, Action.gives_set, Action.gives_pure] at token
    obtain ⟨_, _, ⟨rfl, rfl⟩, _, _, rfl, -, rfl⟩ := token
    rfl
  refine ⟨v.pos, u, ?_, left, here.stay data ?_⟩
  · unfold tokenAt position
    simp only [Action.gives_bind, Action.gives_get, Action.gives_pure]
    exact ⟨_, v, skips, _, v, ⟨_, v, ⟨rfl, rfl⟩, rfl, rfl⟩, _, u, token, rfl, rfl⟩
  · have inside := here.inside
    rw [Scanner.setPosition, data]
    dsimp only
    omega

/-- `accessWords` takes words of flags up to the first token that is none, and leaves that. -/
theorem takes_accessWords {ws : List AccessWord} (h : ∀ w ∈ ws, w ∈ AccessWord.all ∧ w.targets.contains t = true) (hw : Word word)
    (nonempty : word ≠ []) (other : Access.ofWord? word t = none) (hr : Closed rest) {n : Nat} (enough : ws.length < n) (a : Access) :
    Takes (accessWords t n a) (ws.flatMap (fun w => ascii " " ++ w.word) ++ (ascii " " ++ (word ++ rest))) (word ++ rest)
      (· = ⟨ws.foldl (fun bits w => bits ||| w.bit) a.bits⟩) := by
  induction ws generalizing n a with
  | nil =>
    obtain ⟨n, rfl⟩ : ∃ m, n = m + 1 := ⟨n - 1, by omega⟩
    intro s hs
    obtain ⟨pos, u, token, -, back⟩ := gives_tokenAt (by decide : Blank (ascii " ")) hw nonempty hr hs
    refine ⟨a, u.setPosition pos, ?_, rfl, back⟩
    rw [accessWords]
    refine Action.gives_bind.2 ⟨_, u, token, ?_⟩
    simp only [other]
    exact Action.gives_bind.2 ⟨⟨⟩, _, Action.gives_modify.2 rfl, Action.gives_pure.2 ⟨rfl, rfl⟩⟩
  | cons w ws ih =>
    obtain ⟨n, rfl⟩ : ∃ m, n = m + 1 := ⟨n - 1, by simp at enough; omega⟩
    obtain ⟨⟨mem, target⟩, others⟩ := List.forall_mem_cons.1 h
    have entry := AccessWord.entries w mem
    have fewer : ws.length < n := by
      simp at enough
      omega
    have next : Closed (ws.flatMap (fun w => ascii " " ++ w.word) ++ (ascii " " ++ (word ++ rest))) := by
      cases ws <;> exact closed_cons (by decide)
    rw [List.flatMap_cons, List.append_assoc, List.append_assoc, accessWords]
    refine .bind (takes_tokenAt (by decide) entry.1 entry.2.1 next) ?_
    rintro ⟨pos, _⟩ rfl
    simp only [AccessWord.ofWord?_word w mem target]
    exact ih others fewer ⟨a.bits ||| w.bit⟩

/-- `readAccess` gives the flags whose words are printed, and leaves the token behind them. -/
theorem takes_readAccess {a : Access} (h : a.Worded t) (hw : Word word) (nonempty : word ≠ []) (other : Access.ofWord? word t = none)
    (hr : Closed rest) : Takes (readAccess t) ((a.words t).flatMap (fun w => ascii " " ++ w.word) ++ (ascii " " ++ (word ++ rest)))
      (word ++ rest) (· = a) := by
  unfold readAccess
  refine .bind takes_rounds fun n enough => ?_
  have words : ∀ w ∈ a.words t, w ∈ AccessWord.all ∧ w.targets.contains t = true := by
    intro w hw
    obtain ⟨mem, kept⟩ := List.mem_filter.1 hw
    exact ⟨mem, (Bool.and_eq_true_iff.1 kept).2⟩
  have count : (a.words t).length < n := by
    have length := Access.length_le_flatMap (a.words t)
    rw [List.length_append] at enough
    omega
  refine (takes_accessWords words hw nonempty other hr count {}).mono ?_
  rintro _ rfl
  exact congrArg Access.mk h

/-! ## Methods -/

theorem Takes.lift {α : Type} {r : Except Stop α} {a : α} (h : r = .ok a) : Takes (liftM r : Reading α) text text (· = a) :=
  fun s hs => ⟨a, s, Action.gives_lift.2 ⟨h, rfl⟩, rfl, hs⟩

/-- `readBody` of a method without a body reads only `.end method`. -/
theorem takes_readBody_none {n : Int} (hg : Gap gap) (hr : Closed rest) :
    Takes (readBody n) (gap ++ (Directive.method.endWord ++ rest)) (Directive.method.endWord ++ rest) (·.1 = false) := by
  have solid : Solid (Directive.method.endWord ++ rest) := ⟨byte '.', rfl, by decide, by decide⟩
  unfold readBody
  refine .bind takes_rounds fun n enough => ?_
  obtain ⟨n, rfl⟩ : ∃ m, n = m + 1 := ⟨n - 1, by omega⟩
  rw [bodyFuel]
  refine .bind (m := Directive.method.endWord ++ rest) (P := (·.1 = false)) ?_ ?_
  · refine .bind (hg.takes_skipBlank solid) fun _ _ => .get_bind fun s hs => ?_
    simp only [solid.finished hs, Bool.false_eq_true, if_false]
    refine .bind (Body.takes_finish hr) ?_
    rintro _ rfl
    exact .pure rfl
  · rintro ⟨seen, b⟩ rfl
    exact .pure rfl

namespace Method

/-- The method without positions and comments. -/
def bare (m : Method) : Method := { m with origin := {}, body := m.body.map Body.bare }

/-- The line with the flags, the name and the prototype. -/
def head (m : Method) : Bytes :=
  Directive.method.word ++ ((m.access.words .method).flatMap (fun w => ascii " " ++ w.word) ++ (ascii " " ++ (m.ref.name ++ m.ref.proto.text)))

/-- The lines of the body and the closing keyword. -/
def rows (m : Method) : List Bytes := m.body.elim [] Body.lines ++ [Directive.method.endWord]

/-- Each flag has a word, the name is a token without a parenthesis, the prototype can be parsed, and the body is
`Readable` and has the parameter registers of the prototype. -/
structure Readable (m : Method) : Prop where
  access : m.access.Worded .method
  name : Word m.ref.name ∧ m.ref.name ≠ [] ∧ byte '(' ∉ m.ref.name
  proto : Prototype.parse m.ref.proto.text = .ok m.ref.proto ∧ Word m.ref.proto.text
  body : ∀ b ∈ m.body, b.Readable
  params : ∀ b ∈ m.body, ∀ n, paramRegistersOf m.access m.ref.proto = .ok n → b.paramRegisters = n

variable {m : Method}

theorem text_begins (p : Prototype) : ∃ r, p.text = byte '(' :: r := ⟨_, rfl⟩

/-- The first parenthesis of the token that holds name and prototype is behind the name. -/
theorem Readable.indexOf?_paren (h : m.Readable) : ∃ n, m.ref.name.length = n + 1 ∧
    Bytes.indexOf? (byte '(') (m.ref.name ++ m.ref.proto.text) = some (n + 1) := by
  obtain ⟨r, text⟩ := text_begins m.ref.proto
  have long : m.ref.name.length = m.ref.name.length - 1 + 1 := by
    have := List.length_pos_iff.2 h.name.2.1
    omega
  refine ⟨m.ref.name.length - 1, long, ?_⟩
  rw [← long]
  exact Bytes.indexOf?_eq_some.2 ⟨m.ref.name, r, by rw [text], h.name.2.2, rfl⟩

/-- `readBody` reads the body, if there is one, up to `.end method`. -/
theorem Readable.takes_readBody (h : m.Readable) {n : Nat} (params : paramRegistersOf m.access m.ref.proto = .ok n) (hg : Gap gap)
    (lines : Lines (m.body.elim [] Body.lines) x) {gap' : Bytes} (hg' : Gap gap') (hr : Closed rest) :
    Takes (readBody n) (gap ++ (x ++ (gap' ++ (Directive.method.endWord ++ rest)))) (Directive.method.endWord ++ rest)
      fun r => (if r.1 then some r.2.bare else none) = m.body.map Body.bare := by
  cases body : m.body with
  | none =>
    rw [body] at lines
    have text : gap ++ (x ++ (gap' ++ (Directive.method.endWord ++ rest))) = (gap ++ (x ++ gap')) ++ (Directive.method.endWord ++ rest) := by
      simp
    rw [text]
    refine (takes_readBody_none (hg.append (lines.gap.append hg')) hr).mono fun r unseen => ?_
    rw [unseen]
    rfl
  | some b =>
    rw [body] at lines
    have count := h.params b body n params
    have taken := Body.takes_readBody (h.body b body) hg lines hg' hr
    rw [count] at taken
    refine taken.mono fun r seen => ?_
    rw [seen.1, seen.2]
    rfl

/-- `readMethod` reads a `Readable` method up to the trail of its `.end method`. -/
theorem takes_readMethod (rest : Bytes) (h : m.Readable) (hg : Gap gap) {trail : Bytes} (ht : Trail trail)
    (lines : Lines (m.rows ++ ls) x) : ∃ t y, Trail t ∧ Lines ls y ∧
      Takes (readMethod m.ref.owner) (gap ++ (m.head ++ (trail ++ newline :: (x ++ rest)))) (t ++ newline :: (y ++ rest))
        (fun n => n.bare = m.bare) := by
  rw [rows, List.append_assoc] at lines
  obtain ⟨y, z, hy, hz, rfl⟩ := lines.split
  obtain ⟨gap', t, w, hg', ht', hw, rfl⟩ := hz.uncons
  refine ⟨t, w, ht', hw, ?_⟩
  obtain ⟨r, text⟩ := text_begins m.ref.proto
  obtain ⟨n, params⟩ := exists_paramRegistersOf h.proto.1 m.access
  obtain ⟨k, long, paren⟩ := h.indexOf?_paren
  let left := Directive.method.endWord ++ (t ++ newline :: (w ++ rest))
  obtain ⟨trail', ht'', behind⟩ := ht.dropWhile (x := y ++ (gap' ++ left))
  have whole : gap ++ (m.head ++ (trail ++ newline :: ((y ++ (gap' ++ (Directive.method.endWord ++ (t ++ newline :: w)))) ++ rest))) =
      gap ++ (Directive.method.word ++ ((m.access.words .method).flatMap (fun w => ascii " " ++ w.word) ++
        (ascii " " ++ ((m.ref.name ++ m.ref.proto.text) ++ (trail ++ newline :: (y ++ (gap' ++ left))))))) := by
    simp [head, left]
  have solid : Solid (Directive.method.word ++ ((m.access.words .method).flatMap (fun w => ascii " " ++ w.word) ++
      (ascii " " ++ ((m.ref.name ++ m.ref.proto.text) ++ (trail ++ newline :: (y ++ (gap' ++ left))))))) :=
    ⟨byte '.', rfl, by decide, by decide⟩
  have closed : Closed ((m.access.words .method).flatMap (fun w => ascii " " ++ w.word) ++
      (ascii " " ++ ((m.ref.name ++ m.ref.proto.text) ++ (trail ++ newline :: (y ++ (gap' ++ left)))))) := by
    cases m.access.words .method <;> exact closed_cons (by decide)
  have word : Word (m.ref.name ++ m.ref.proto.text) := word_append h.name.1 h.proto.2
  have nonempty : m.ref.name ++ m.ref.proto.text ≠ [] := by simp [text]
  have other : Access.ofWord? (m.ref.name ++ m.ref.proto.text) .method = none :=
    Access.ofWord?_eq_none (b := byte '(') (by simp [text]) (by decide) (by decide)
  rw [whole, readMethod]
  refine .bind (hg.takes_skipBlank solid) fun _ _ => .bind takes_origin fun o _ => .bind (Directive.takes_expect closed) fun _ _ => ?_
  refine .bind (takes_readAccess h.access word nonempty other ht.ended.closed) ?_
  rintro _ rfl
  have token : Takes tokenAt ([] ++ ((m.ref.name ++ m.ref.proto.text) ++ (trail ++ newline :: (y ++ (gap' ++ left)))))
      (trail ++ newline :: (y ++ (gap' ++ left))) (·.2 = m.ref.name ++ m.ref.proto.text) :=
    takes_tokenAt blank_nil word nonempty ht.ended.closed
  refine .bind token ?_
  rintro ⟨pos, _⟩ rfl
  simp only [paren]
  refine .bind (.pure rfl) ?_
  rintro _ rfl
  simp only [← long, List.drop_left, List.take_left, h.proto.1, orComplain]
  refine .bind (.pure rfl) ?_
  rintro _ rfl
  refine .bind (takes_expectLineEnd ht.ended) fun _ _ => .bind (.lift params) ?_
  rintro _ rfl
  rw [behind]
  have body := h.takes_readBody params ht''.gap hy hg' (ht'.ended (x := w ++ rest)).closed
  rw [List.append_assoc] at body
  refine .bind body ?_
  rintro ⟨seen, b⟩ same
  have closing : Takes Directive.method.expectEnd ([] ++ left) (t ++ newline :: (w ++ rest)) fun _ => True :=
    Directive.takes_expectEnd (.blank [] (by simp)) ⟨byte '.', rfl, by decide, by decide⟩ ht'.ended.closed
  refine .bind closing fun _ _ => .pure ?_
  rw [bare, bare, ← same]
  cases seen <;> rfl

/-- What `Method.write` prints consists of the lines of the method. -/
theorem Readable.wrote_write (h : m.Readable) (notes : ∀ b ∈ m.body, ∀ e ∈ b.elements, ∀ x ∈ e.comment, x ≠ newline) {w : Writer}
    (free : w.out.Free) (closed : w.lineOpen = false) : ∃ x, Lines (m.head :: m.rows) x ∧ w.Wrote x false (m.write w) := by
  have named : m.ref.name ++ m.ref.proto.text ≠ [] := by simp [h.name.2.1]
  have line := Writer.wrote_directive free closed (d := Directive.method) (by decide)
    [m.access.text .method, m.ref.name ++ m.ref.proto.text]
  rw [Access.operands_text, Writer.operands_singleton named] at line
  obtain ⟨x, first, head⟩ := line.lines
  have body : ∃ y, Lines (m.body.elim [] Body.lines) y ∧
      w.Wrote (x ++ y) false (m.body.elim (w.directive .method [m.access.text .method, m.ref.name ++ m.ref.proto.text]).newline
        fun b => (b.write (w.directive .method [m.access.text .method, m.ref.name ++ m.ref.proto.text]).newline.indent).outdent) := by
    cases nonempty : m.body with
    | none => exact ⟨[], .nil, by simpa using head⟩
    | some b =>
      obtain ⟨y, lines, inner⟩ := (h.body b nonempty).wrote_write (notes b nonempty)
        (w := (w.directive .method [m.access.text .method, m.ref.name ++ m.ref.proto.text]).newline.indent) head.added.free head.lineOpen
      exact ⟨y, lines, head.trans inner.outdent⟩
  obtain ⟨y, lines, inner⟩ := body
  obtain ⟨z, last, close⟩ := Writer.wrote_close inner.added.free inner.lineOpen .method
  refine ⟨(x ++ y) ++ z, ?_, ?_⟩
  · rw [List.append_assoc]
    exact first.append (lines.append last)
  · rw [write]
    convert inner.trans close using 2
    cases m.body <;> rfl

/-- `readMethod` gives a method that was rendered, up to positions and comments, and leaves a gap of what was printed.
-/
theorem Readable.readMethod_render (h : m.Readable) (notes : ∀ b ∈ m.body, ∀ e ∈ b.elements, ∀ x ∈ e.comment, x ≠ newline) (step : Int)
    (comments : Bool) {rest : Bytes} {s : Scanner} (hs : s.Left (render m.write { step, comments } ++ rest)) :
    ∃ n t gap, (readMethod m.ref.owner).Gives s n t ∧ n.bare = m.bare ∧ Gap gap ∧ t.Left (gap ++ rest) := by
  obtain ⟨x, lines, wrote⟩ := h.wrote_write notes (w := { step, comments }) ⟨rfl, rfl⟩ rfl
  obtain ⟨gap, t, y, hg, ht, hy, rfl⟩ := lines.uncons
  obtain ⟨t', z, ht', hz, taken⟩ := takes_readMethod rest h hg ht (show Lines (m.rows ++ []) y by simpa using hy)
  rw [render_eq wrote rfl] at hs
  obtain ⟨n, u, gives, same, left⟩ := taken s (by simpa using hs)
  refine ⟨n, u, (t' ++ [newline]) ++ z, gives, same, ht'.gap.append hz.gap, by simpa using left⟩

end Method

end Dalvik.Assembly
