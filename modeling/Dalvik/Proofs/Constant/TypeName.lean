import Dalvik.Proofs.Literal
import Dalvik.Proofs.Prototype

/-!
# Type names

`parse` takes the name of a type as a descriptor, in which dots may stand for slashes, or as source
text spells it (`parse_cases`). A descriptor is parsed as itself exactly if it is valid and has
neither a dot nor, behind its first byte, one of the marks `>`, `(` and `@` (`parse_self_iff`). The
descriptor that a source name is turned into is not checked, so it may be invalid, or valid and
refused when it is parsed again. Which names these are is said by how they begin and by the word
`void` (`canonical_of_parse`).
-/

namespace Dalvik.Descriptor

variable {name base d : Bytes} {k : Descriptor} {dims n : Nat} {letter x : UInt8}

/-! ## Valid descriptors -/

/-- The descriptor of an array of a primitive type is valid unless the type is `void`. -/
theorem isValid_primitive (word : (sourceWord? letter).isSome) :
    isValid (List.replicate dims bracket ++ [letter]) = true ↔ dims = 0 ∨ letter ≠ byte 'V' := by
  simp only [isValid, dropWhile_brackets dims (ne_bracket_of_word word), word]
  simp

theorem isValid_class {body : Bytes} :
    isValid (List.replicate dims bracket ++ (letterL :: body ++ [semicolon])) = true ↔ body ≠ [] ∧ semicolon ∉ body := by
  rw [isValid, List.cons_append, dropWhile_brackets dims letterL_ne_bracket]
  cases body with
  | nil => simp
  | cons b body =>
    obtain ⟨c, rest, e⟩ : ∃ c rest, body ++ [semicolon] = c :: rest := List.exists_cons_of_ne_nil (by simp)
    have last : (letterL :: b :: (body ++ [semicolon])).getLast? = some semicolon := by
      rw [← List.cons_append, ← List.cons_append, List.getLast?_concat]
    have inner : ((letterL :: b :: (body ++ [semicolon])).drop 1).dropLast = b :: body := by
      rw [List.drop_one, List.tail_cons, ← List.cons_append, List.dropLast_concat]
    rw [e] at last inner
    rw [List.cons_append, e]
    dsimp only
    rw [last, inner]
    simp

/-- The bytes that a valid descriptor can begin with: a bracket, `L` or the letter of a primitive type. -/
def Opening (x : UInt8) : Prop := x = bracket ∨ x = letterL ∨ (sourceWord? x).isSome

instance : DecidablePred Opening := fun _ => inferInstanceAs (Decidable (_ ∨ _))

theorem exists_opening (h : isValid d = true) : ∃ x r, d = x :: r ∧ Opening x := by
  cases form_of_isValid h with
  | @primitive dims letter word =>
    cases dims with
    | zero => exact ⟨letter, [], rfl, .inr (.inr word)⟩
    | succ dims => exact ⟨bracket, _, rfl, .inl rfl⟩
  | @reference dims body plain =>
    cases dims with
    | zero => exact ⟨letterL, _, rfl, .inr (.inl rfl)⟩
    | succ dims => exact ⟨bracket, _, rfl, .inl rfl⟩

theorem Opening.upper (h : Opening x) : x < byte 'a' := by
  have all : ∀ x, Opening x → x < byte 'a' := Literal.forall_byte (by decide +kernel)
  exact all x h

theorem Opening.plain (h : Opening x) : x ∉ ascii ".;>(@" := by
  have all : ∀ x, Opening x → x ∉ ascii ".;>(@" := Literal.forall_byte (by decide +kernel)
  exact all x h

/-! ## Dimensions -/

theorem withDimensions_natCast (k : Descriptor) (n : Nat) : k.withDimensions n = .ok ⟨List.replicate n bracket ++ k.element⟩ := by
  unfold withDimensions
  split
  · next same => rw [Int.ofNat_inj.1 same, ← name_eq]
  · rw [if_neg (by omega)]
    rfl

/-! ## Source names -/

/-- `n` pairs of brackets. -/
def pairs (n : Nat) : Bytes := (List.replicate n (ascii "[]")).flatten

/-- The descriptor that a source name without brackets is turned into. -/
def ofSource (base : Bytes) : Descriptor :=
  (ofSourceWord? base).getD ⟨letterL :: Bytes.replace (byte '.') slash base ++ [semicolon]⟩

theorem ofSourceWord?_eq_some (h : ofSourceWord? base = some k) : ∃ letter, k = ⟨[letter]⟩ ∧ (letter, base) ∈ primitives := by
  obtain ⟨⟨letter, word⟩, found, rfl⟩ := Option.map_eq_some_iff.1 h
  obtain rfl : word = base := by simpa using List.find?_some found
  exact ⟨letter, rfl, List.mem_of_find?_eq_some found⟩

theorem isSome_of_mem_primitives (h : (letter, base) ∈ primitives) : (sourceWord? letter).isSome := by
  have all : ∀ p ∈ primitives, (sourceWord? p.1).isSome := by decide
  exact all _ h

/-- `ofSource` of the word of a primitive type is its letter, and of any other name a class. -/
theorem ofSource_cases (base : Bytes) :
    (∃ letter, (letter, base) ∈ primitives ∧ ofSource base = ⟨[letter]⟩) ∨
      ((∀ letter, (letter, base) ∉ primitives) ∧
        ofSource base = ⟨letterL :: Bytes.replace (byte '.') slash base ++ [semicolon]⟩) := by
  unfold ofSource
  cases word : ofSourceWord? base with
  | none =>
    refine .inr ⟨fun letter mem => ?_, rfl⟩
    have := List.find?_eq_none.1 (Option.map_eq_none_iff.1 word) _ mem
    simp at this
  | some k =>
    obtain ⟨letter, rfl, mem⟩ := ofSourceWord?_eq_some word
    exact .inl ⟨letter, mem, rfl⟩

theorem element_ofSource (base : Bytes) : (ofSource base).element = (ofSource base).name := by
  rcases ofSource_cases base with ⟨letter, mem, e⟩ | ⟨-, e⟩ <;> rw [e]
  · exact dropWhile_brackets 0 (ne_bracket_of_word (isSome_of_mem_primitives mem)) []
  · exact dropWhile_brackets 0 letterL_ne_bracket _

theorem stripDimensions_eq (fuel : Nat) (s : Bytes) : s = (stripDimensions fuel s).2 ++ pairs (stripDimensions fuel s).1 := by
  induction fuel generalizing s with
  | zero => simp [stripDimensions, pairs]
  | succ fuel ih =>
    rw [stripDimensions]
    split
    · next ends =>
      obtain ⟨front, rfl⟩ := List.isSuffixOf_iff_suffix.1 ends
      have cut : (front ++ ascii "[]").take ((front ++ ascii "[]").length - 2) = front := by
        rw [List.length_append]
        exact List.take_left' (Nat.add_sub_cancel front.length 2).symm
      rw [cut]
      dsimp only
      rw [pairs, List.replicate_succ', List.flatten_concat, ← List.append_assoc]
      exact congrArg (· ++ _) (ih front)
    · simp [pairs]

theorem parseSource_eq_ok (h : parseSource name = .ok k) :
    ∃ base n, name = base ++ pairs n ∧ base ≠ [] ∧ Bytes.containsAny (ascii "[]") base = false ∧
      k = ⟨List.replicate n bracket ++ (ofSource base).name⟩ := by
  have parts := stripDimensions_eq name.length name
  rw [parseSource] at h
  generalize stripDimensions name.length name = out at parts h
  obtain ⟨n, base⟩ := out
  dsimp only at parts h
  split at h
  · cases h
  · next plain =>
    rw [Bool.or_eq_true, not_or, Bool.not_eq_true, Bool.not_eq_true] at plain
    refine ⟨base, n, parts, by simpa using plain.1, plain.2, ?_⟩
    rw [← element_ofSource]
    exact (Except.ok.inj ((withDimensions_natCast _ n).symm.trans h)).symm

/-! ## Reading -/

/-- The bytes that `parse` refuses behind the first one, since they occur in members and raw references. -/
def marks : Bytes := ascii ">(@"

/-- None of the marks stands behind the first byte. -/
def Clean (name : Bytes) : Prop := ∀ b ∈ marks, b ∉ name.tail

theorem clean_cons {a : UInt8} {r : Bytes} : Clean (a :: r) ↔ Bytes.containsAny (ascii ">(@") r = false := by
  rw [Clean, marks, Bytes.containsAny, List.any_eq_false]
  exact ⟨fun h b mem => by simpa using fun mark => h b mark mem, fun h b mark mem => h b mem (by simpa using mark)⟩

theorem ne_of_mem_marks {b : UInt8} (mark : b ∈ marks) :
    b ≠ semicolon ∧ b ≠ slash ∧ b ≠ byte '.' ∧ ¬ Opening b ∧ ∀ p ∈ primitives, b ∉ p.2 := by
  have all : ∀ b ∈ marks, b ≠ semicolon ∧ b ≠ slash ∧ b ≠ byte '.' ∧ ¬ Opening b ∧ ∀ p ∈ primitives, b ∉ p.2 := by
    decide +kernel
  exact all b mark

theorem mem_replace {b : UInt8} {s : Bytes} :
    b ∈ Bytes.replace (byte '.') slash s ↔ b ≠ byte '.' ∧ (b ∈ s ∨ b = slash ∧ byte '.' ∈ s) := by
  have dot : slash ≠ byte '.' := by decide
  simp only [Bytes.replace, List.mem_map]
  constructor
  · rintro ⟨c, mem, rfl⟩
    split
    · next same => exact ⟨dot, .inr ⟨rfl, same ▸ mem⟩⟩
    · next other => exact ⟨other, .inl mem⟩
  · rintro ⟨other, mem | ⟨rfl, mem⟩⟩
    · exact ⟨b, mem, if_neg other⟩
    · exact ⟨_, mem, if_pos rfl⟩

theorem replace_of_not_mem {s : Bytes} (h : byte '.' ∉ s) : Bytes.replace (byte '.') slash s = s := by
  refine (List.map_congr_left fun b mem => if_neg ?_).trans (List.map_id s)
  rintro rfl
  exact h mem

/-- What `parse` gives for a name: the descriptor it spells, which is valid, or the array of what a source name is
turned into. -/
theorem parse_cases (h : parse name = .ok k) : Clean name ∧
    ((k.name = Bytes.replace (byte '.') slash name ∧ isValid k.name = true) ∨
      ∃ base n, name = base ++ pairs n ∧ base ≠ [] ∧ Bytes.containsAny (ascii "[]") base = false ∧
        (semicolon ∈ base → base.head? = some semicolon) ∧ k = ⟨List.replicate n bracket ++ (ofSource base).name⟩) := by
  unfold parse at h
  cases name with
  | nil => cases h
  | cons a r =>
    dsimp only at h
    split at h
    · cases h
    next clean =>
    refine ⟨clean_cons.2 (by simpa using clean), ?_⟩
    split at h
    · next primitive =>
      cases h
      split at primitive
      · next empty =>
        obtain rfl : r = [] := by simpa using empty
        obtain ⟨_, word, rfl⟩ := Option.map_eq_some_iff.1 primitive
        have word : (sourceWord? a).isSome := by rw [word]; rfl
        have valid : isValid (List.replicate 0 bracket ++ [a]) = true := (isValid_primitive word).2 (.inl rfl)
        refine .inl ⟨(replace_of_not_mem fun dot => ?_).symm, valid⟩
        exact Opening.plain (.inr (.inr word)) (List.mem_singleton.1 dot ▸ by decide)
      · cases primitive
    split at h
    · split at h
      · next valid =>
        cases h
        exact .inl ⟨rfl, valid⟩
      · cases h
    · next source =>
      obtain ⟨base, n, parts, nonempty, plain, rfl⟩ := parseSource_eq_ok h
      refine .inr ⟨base, n, parts, nonempty, plain, fun mem => ?_, rfl⟩
      obtain ⟨b, t, rfl⟩ := List.exists_cons_of_ne_nil nonempty
      obtain ⟨rfl, rfl⟩ := List.cons.inj parts
      by_contra other
      have other : a ≠ semicolon := fun e => other (congrArg some e)
      have behind : semicolon ∈ t := (List.mem_cons.1 mem).resolve_left (Ne.symm other)
      simp [behind, other] at source

theorem ne_of_source (nonempty : base ≠ []) (plain : Bytes.containsAny (ascii "[]") base = false) :
    base ++ pairs n ≠ List.replicate n bracket ++ (ofSource base).name := by
  intro same
  cases n with
  | zero =>
    replace same : base = (ofSource base).name := by simpa [pairs] using same
    rcases ofSource_cases base with ⟨letter, mem, e⟩ | ⟨-, e⟩ <;> rw [e] at same
    · have long : ∀ p ∈ primitives, p.2 ≠ [p.1] := by decide
      exact long _ mem same
    · have length := congrArg List.length same
      simp [Bytes.replace] at length
      omega
  | succ n =>
    obtain ⟨b, t, rfl⟩ := List.exists_cons_of_ne_nil nonempty
    obtain ⟨rfl, -⟩ := List.cons.inj same
    simp [Bytes.containsAny] at plain
    exact plain.1 (by decide)

theorem parse_letter (h : isValid [x] = true) : parse [x] = .ok ⟨[x]⟩ := by
  have all : ∀ x, isValid [x] = true → primitive? x = some ⟨[x]⟩ := Literal.forall_byte (by decide +kernel)
  simp [parse, Bytes.containsAny, all x h]

theorem binary_of_isValid {y : UInt8} {r : Bytes} (h : isValid (x :: y :: r) = true) :
    x = bracket ∨ x ≠ semicolon ∧ semicolon ∈ y :: r := by
  generalize e : x :: y :: r = d at h
  cases form_of_isValid h with
  | @primitive dims letter word =>
    cases dims with
    | zero => cases (List.cons.inj e).2
    | succ dims => exact .inl (List.cons.inj e).1
  | @reference dims body plain =>
    cases dims with
    | zero =>
      obtain ⟨rfl, rest⟩ := List.cons.inj e
      exact .inr ⟨letterL_ne_semicolon, rest ▸ by simp⟩
    | succ dims => exact .inl (List.cons.inj e).1

/-- `parse` of a name that begins with a bracket, or has a semicolon behind its first byte, takes it as a descriptor. -/
theorem parse_binary {r : Bytes} (clean : Clean (x :: r)) (long : r ≠ []) (binary : x = bracket ∨ x ≠ semicolon ∧ semicolon ∈ r)
    (valid : isValid (Bytes.replace (byte '.') slash (x :: r)) = true) :
    parse (x :: r) = .ok ⟨Bytes.replace (byte '.') slash (x :: r)⟩ := by
  have shape : (r.contains slash && x != slash || r.contains semicolon && x != semicolon || x == bracket) = true := by
    rcases binary with rfl | ⟨other, mem⟩
    · simp
    · simp [other, mem]
  have more : r.isEmpty = false := by simpa using long
  simp only [parse, clean_cons.1 clean, more, shape, valid, Bool.false_eq_true, if_false, if_true]

/-- A descriptor is parsed as itself exactly if it is valid and has neither dots nor marks. -/
theorem parse_self_iff : parse d = .ok ⟨d⟩ ↔ isValid d = true ∧ byte '.' ∉ d ∧ Clean d := by
  constructor
  · intro h
    obtain ⟨clean, ⟨same, valid⟩ | ⟨base, n, parts, present, plain, -, e⟩⟩ := parse_cases h
    · refine ⟨valid, fun dot => ?_, clean⟩
      change d = _ at same
      rw [same] at dot
      exact (mem_replace.1 dot).1 rfl
    · exact (ne_of_source present plain (parts.symm.trans (congrArg name e))).elim
  · rintro ⟨valid, dot, clean⟩
    have self := replace_of_not_mem dot
    obtain ⟨x, r, rfl, opening⟩ := exists_opening valid
    cases r with
    | nil => exact parse_letter valid
    | cons y r =>
      rw [parse_binary clean (List.cons_ne_nil y r) (binary_of_isValid valid) (self.symm ▸ valid), self]

/-- The name is `void` with at least one pair of brackets. -/
def VoidArray (name : Bytes) : Prop := ∃ n, name = ascii "void" ++ pairs (n + 1)

theorem mem_pairs {b : UInt8} (h : b ∈ pairs n) : b ∈ ascii "[]" := by
  obtain ⟨pair, mem, hb⟩ := List.mem_flatten.1 h
  exact List.eq_of_mem_replicate mem ▸ hb

theorem filter_append_pairs (plain : Bytes.containsAny (ascii "[]") base = false) (n : Nat) :
    (base ++ pairs n).filter (fun b => !(ascii "[]").contains b) = base := by
  have kept : base.filter (fun b => !(ascii "[]").contains b) = base := by
    rw [List.filter_eq_self]
    intro b mem
    simpa using List.any_eq_false.1 plain b mem
  have dropped : (pairs n).filter (fun b => !(ascii "[]").contains b) = [] := by
    rw [List.filter_eq_nil_iff]
    intro b mem
    simpa using mem_pairs mem
  rw [List.filter_append, kept, dropped, List.append_nil]

theorem voidArray_iff (plain : Bytes.containsAny (ascii "[]") base = false) :
    VoidArray (base ++ pairs n) ↔ base = ascii "void" ∧ n ≠ 0 := by
  constructor
  · rintro ⟨m, same⟩
    have word := congrArg (List.filter fun b => !(ascii "[]").contains b) same
    rw [filter_append_pairs plain, filter_append_pairs (by decide)] at word
    refine ⟨word, ?_⟩
    rintro rfl
    rw [word] at same
    have length := congrArg List.length same
    simp [pairs, ascii] at length
  · rintro ⟨rfl, pos⟩
    obtain ⟨m, rfl⟩ := Nat.exists_eq_succ_of_ne_zero pos
    exact ⟨m, rfl⟩

/-- The descriptor of a source name is valid exactly if the name does not begin with a semicolon and is no array of
`void`. -/
theorem isValid_source (nonempty : base ≠ []) (plain : Bytes.containsAny (ascii "[]") base = false)
    (bare : semicolon ∈ base → base.head? = some semicolon) :
    isValid (List.replicate n bracket ++ (ofSource base).name) = true ↔
      base.head? ≠ some semicolon ∧ ¬ VoidArray (base ++ pairs n) := by
  rw [voidArray_iff plain]
  rcases ofSource_cases base with ⟨letter, mem, e⟩ | ⟨other, e⟩ <;> rw [e]
  · have words : ∀ p ∈ primitives, (p.1 = byte 'V' ↔ p.2 = ascii "void") ∧ p.2.head? ≠ some semicolon := by decide
    obtain ⟨void, head⟩ := words _ mem
    rw [isValid_primitive (isSome_of_mem_primitives mem), ← void]
    tauto
  · have word : base ≠ ascii "void" := by
      rintro rfl
      exact other (byte 'V') (by decide)
    have body : Bytes.replace (byte '.') slash base ≠ [] := by simpa [Bytes.replace] using nonempty
    have inside : semicolon ∈ Bytes.replace (byte '.') slash base ↔ base.head? = some semicolon := by
      rw [mem_replace]
      constructor
      · rintro ⟨-, mem | ⟨slash, -⟩⟩
        · exact bare mem
        · exact absurd slash (by decide)
      · exact fun head => ⟨by decide, .inl (List.mem_of_mem_head? head)⟩
    rw [isValid_class, inside]
    tauto

theorem mem_tail_source {b : UInt8} (mark : b ∈ marks) : b ∈ (List.replicate n bracket ++ (ofSource base).name).tail ↔ b ∈ base := by
  obtain ⟨notSemicolon, notSlash, notDot, notOpening, notWord⟩ := ne_of_mem_marks mark
  have notBracket : b ≠ bracket := fun e => notOpening (.inl e)
  have notL : b ≠ letterL := fun e => notOpening (.inr (.inl e))
  rcases ofSource_cases base with ⟨letter, mem, e⟩ | ⟨-, e⟩ <;> rw [e]
  · have notLetter : b ≠ letter := fun e => notOpening (.inr (.inr (e ▸ isSome_of_mem_primitives mem)))
    refine iff_of_false ?_ (notWord _ mem)
    cases n with
    | zero => exact List.not_mem_nil
    | succ n => simp [List.replicate_succ, notBracket, notLetter]
  · have body : b ∈ Bytes.replace (byte '.') slash base ↔ b ∈ base := by simp [mem_replace, notDot, notSlash]
    rw [← body]
    cases n with
    | zero => simp [notSemicolon]
    | succ n => simp [List.replicate_succ, notBracket, notL, notSemicolon]

theorem clean_source (nonempty : base ≠ []) (clean : Clean (base ++ pairs n)) :
    Clean (List.replicate n bracket ++ (ofSource base).name) ↔ ∀ b ∈ marks, base.head? ≠ some b := by
  obtain ⟨a, t, rfl⟩ := List.exists_cons_of_ne_nil nonempty
  refine forall₂_congr fun b mark => ?_
  have rest : b ∉ t := fun mem => clean b mark (List.mem_append_left _ mem)
  rw [mem_tail_source mark, List.mem_cons, or_iff_left rest, List.head?_cons, ne_eq, Option.some_inj, eq_comm]

theorem dot_not_mem_source : byte '.' ∉ List.replicate n bracket ++ (ofSource base).name := by
  intro mem
  rcases List.mem_append.1 mem with mem | mem
  · exact absurd (List.eq_of_mem_replicate mem) (by decide)
  rcases ofSource_cases base with ⟨letter, word, e⟩ | ⟨-, e⟩ <;> rw [e] at mem
  · exact Opening.plain (.inr (.inr (isSome_of_mem_primitives word))) (List.mem_singleton.1 mem ▸ by decide)
  · rcases List.mem_append.1 mem with mem | mem
    · rcases List.mem_cons.1 mem with mem | mem
      · exact absurd mem (by decide)
      · exact (mem_replace.1 mem).1 rfl
    · exact absurd (List.mem_singleton.1 mem) (by decide)

/-- A name that spells a valid descriptor begins like one. -/
theorem head_of_spelled (spelled : d = Bytes.replace (byte '.') slash name) (valid : isValid d = true) :
    ∃ x, name.head? = some x ∧ Opening x := by
  obtain ⟨x, r, rfl, opening⟩ := exists_opening valid
  cases name with
  | nil => cases spelled
  | cons a t =>
    have first : x = if a = byte '.' then slash else a := (List.cons.inj spelled).1
    split at first
    · exact absurd (first ▸ opening) (by decide)
    · exact ⟨a, rfl, first ▸ opening⟩

/-- Let `parse name` give `k`. Then `k` is valid exactly if `name` does not begin with a semicolon and is no array of
`void`, and `k` is parsed as itself exactly if it is valid and `name` does not begin with a mark. -/
theorem canonical_of_parse (h : parse name = .ok k) :
    (isValid k.name = true ↔ name.head? ≠ some semicolon ∧ ¬ VoidArray name) ∧
      (parse k.name = .ok k ↔ isValid k.name = true ∧ ∀ b ∈ marks, name.head? ≠ some b) := by
  have self : parse k.name = .ok k ↔ _ := parse_self_iff
  rw [self]
  obtain ⟨clean, ⟨spelled, valid⟩ | ⟨base, n, rfl, nonempty, plain, bare, rfl⟩⟩ := parse_cases h
  · obtain ⟨x, head, opening⟩ := head_of_spelled spelled valid
    have noArray : ¬ VoidArray name := by
      rintro ⟨m, rfl⟩
      obtain rfl : byte 'v' = x := Option.some.inj head
      exact absurd opening (by decide +kernel)
    have dot : byte '.' ∉ k.name := fun mem => (mem_replace.1 (spelled ▸ mem)).1 rfl
    have clean' : Clean k.name := by
      intro b mark mem
      rw [spelled, Bytes.replace, ← List.map_tail] at mem
      rcases (mem_replace.1 mem).2 with mem | ⟨slash, -⟩
      · exact clean b mark mem
      · exact (ne_of_mem_marks mark).2.1 slash
    refine ⟨iff_of_true valid ⟨?_, noArray⟩, iff_of_true ⟨valid, dot, clean'⟩ ⟨valid, fun b mark => ?_⟩⟩
    · rw [head]
      rintro ⟨⟩
      exact opening.plain (by decide)
    · rw [head]
      rintro ⟨⟩
      exact (ne_of_mem_marks mark).2.2.2.1 opening
  · have head : (base ++ pairs n).head? = base.head? := List.head?_append_of_ne_nil base nonempty
    rw [head]
    exact ⟨isValid_source nonempty plain bare, and_congr_right' ((and_iff_right dot_not_mem_source).trans (clean_source nonempty clean))⟩

/-- A string type is parsed as itself. The array `void[]` is accepted, but its descriptor is invalid; and the
descriptor of `>a` is valid but refused. -/
theorem canonical_of_parse_string :
    (parse (ascii "java.lang.String[]") = .ok ⟨ascii "[Ljava/lang/String;"⟩ ∧
        isValid (ascii "[Ljava/lang/String;") = true ∧
        parse (ascii "[Ljava/lang/String;") = .ok ⟨ascii "[Ljava/lang/String;"⟩) ∧
      (parse (ascii "void[]") = .ok ⟨ascii "[V"⟩ ∧ ¬ isValid (ascii "[V") = true) ∧
      (parse (ascii ">a") = .ok ⟨ascii "L>a;"⟩ ∧ isValid (ascii "L>a;") = true ∧
        parse (ascii "L>a;") ≠ .ok ⟨ascii "L>a;"⟩) := by
  have string : parse (ascii "java.lang.String[]") = .ok ⟨ascii "[Ljava/lang/String;"⟩ := by rfl
  have void : parse (ascii "void[]") = .ok ⟨ascii "[V"⟩ := by rfl
  have marked : parse (ascii ">a") = .ok ⟨ascii "L>a;"⟩ := by rfl
  obtain ⟨valid, again⟩ := canonical_of_parse string
  have notVoid : ¬ VoidArray (ascii "java.lang.String[]") := by
    rintro ⟨n, same⟩
    cases (List.cons.inj same).1
  have isString : isValid (ascii "[Ljava/lang/String;") = true := valid.2 ⟨by decide +kernel, notVoid⟩
  refine ⟨⟨string, isString, again.2 ⟨isString, by decide +kernel⟩⟩, ⟨void, fun valid => ?_⟩, marked, ?_, fun again => ?_⟩
  · exact ((canonical_of_parse void).1.1 valid).2 ⟨0, rfl⟩
  · refine (canonical_of_parse marked).1.2 ⟨by decide +kernel, ?_⟩
    rintro ⟨n, same⟩
    cases (List.cons.inj same).1
  · exact ((canonical_of_parse marked).2.1 again).2 (byte '>') (by decide +kernel) (by decide +kernel)

end Dalvik.Descriptor
