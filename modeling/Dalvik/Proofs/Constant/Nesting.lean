import Dalvik.Proofs.Constant.ClassName
import Dalvik.Proofs.Constant.TypeName

/-!
# Classes nested in classes

`c.isOuterOf d true` holds exactly if the name of `d` goes on behind that of `c` with dollar signs
and one segment (`isOuterOf_descriptor`), and `c` is the enclosing class of `d` exactly if this is a
single dollar sign and `c` has a simple name (`eq_enclosing_iff`). So an enclosing class is always
an immediate outer class, and the converse holds if the last dollar sign of the simple name stands
alone (`eq_enclosing_iff_isOuterOf`).
-/

namespace Dalvik.Descriptor

variable {c d : ClassParts} {k t : Descriptor} {b : UInt8} {p r s x : Bytes} {n : Nat}

/-! ## Ends of names -/

theorem split_at_end (plain : b ∉ x) (h : x ++ [b] = p ++ b :: s) : p = x ∧ s = [] := by
  obtain rfl | ⟨front, last, rfl⟩ := s.eq_nil_or_concat
  · exact ⟨(List.append_inj' h rfl).1.symm, rfl⟩
  · have inside : x = p ++ b :: front := (List.append_inj' (h.trans (by simp : _ = (p ++ b :: front) ++ [last])) rfl).1
    exact absurd (by simp [inside]) plain

theorem exists_before_end (other : b ≠ dollar) (h : x ++ [b] = p ++ dollar :: s) :
    ∃ front, s = front ++ [b] ∧ x = p ++ dollar :: front := by
  obtain rfl | ⟨front, last, rfl⟩ := s.eq_nil_or_concat
  · exact absurd (by simpa using (List.append_inj' h rfl).2) other
  · obtain ⟨whole, same⟩ := List.append_inj' (h.trans (by simp : _ = (p ++ dollar :: front) ++ [last])) rfl
    obtain rfl : b = last := by simpa using same
    exact ⟨front, List.concat_eq_append, whole⟩

/-! ## Segments -/

/-- A part of a nested name, without dollar signs and slashes. -/
def Segment (r : Bytes) : Prop := dollar ∉ r ∧ slash ∉ r

/-- A run of `n` dollar signs. -/
def signs (n : Nat) : Bytes := List.replicate n dollar

theorem signs_append_dropWhile (s : Bytes) : ∃ n, s = signs n ++ s.dropWhile (· == dollar) := by
  refine ⟨(s.takeWhile (· == dollar)).length, ?_⟩
  have run : s.takeWhile (· == dollar) = signs (s.takeWhile (· == dollar)).length :=
    List.eq_replicate_iff.2 ⟨rfl, fun y hy => by simpa using List.mem_takeWhile_imp hy⟩
  rw [← run, List.takeWhile_append_dropWhile]

theorem dropWhile_signs (plain : dollar ∉ r) : (signs n ++ r).dropWhile (· == dollar) = r := by
  have run : ∀ y ∈ signs n, (y == dollar) = true := fun y hy => by simpa using List.eq_of_mem_replicate hy
  rw [List.dropWhile_append_of_pos run]
  cases r with
  | nil => rfl
  | cons y r => exact List.dropWhile_cons_of_neg (by simpa using (List.ne_of_not_mem_cons plain).symm)

theorem dollar_signs (n : Nat) (s : Bytes) : dollar :: (signs n ++ s) = signs n ++ dollar :: s := by
  induction n with
  | zero => rfl
  | succ n ih => exact congrArg (dollar :: ·) ih

theorem slash_notMem_signs (n : Nat) : slash ∉ signs n := fun mem =>
  absurd (List.eq_of_mem_replicate mem) (by decide)

/-! ## Outer classes -/

theorem name_descriptor (c : ClassParts) : c.descriptor.name = letterL :: c.body ++ [semicolon] := rfl

theorem length_name_descriptor (c : ClassParts) : c.descriptor.name.length = c.body.length + 2 := by
  rw [name_descriptor]
  simp

theorem dropWhile_append_semicolon (s : Bytes) :
    (s ++ [semicolon]).dropWhile (· == dollar) = s.dropWhile (· == dollar) ++ [semicolon] := by
  have last : [semicolon].dropWhile (· == dollar) = [semicolon] := by decide
  rw [List.dropWhile_append, last]
  split
  · next absent => rw [List.isEmpty_iff.1 absent, List.nil_append]
  · rfl

/-- `isOuterOf` of a class whose name the other one continues with a dollar sign. -/
theorem isOuterOf_of_append (name : t.name = letterL :: c.body ++ dollar :: (s ++ [semicolon])) :
    c.descriptor.isOuterOf t true = true ↔ slash ∉ s ∧ dollar ∉ s.dropWhile (· == dollar) := by
  have marks : semicolon ≠ slash ∧ semicolon ≠ dollar := by decide
  have enter : (c.descriptor.isPrimitive || t.isZero || decide (t.name.length ≤ c.descriptor.name.length)) = false := by
    have letter : c.descriptor.isPrimitive = false := by
      obtain ⟨y, rest, e⟩ := List.exists_cons_of_ne_nil c.nonempty
      rw [isPrimitive, name_descriptor, ClassParts.body, e]
      rfl
    have zero : t.isZero = false := by rw [isZero, name]; rfl
    rw [letter, zero, length_name_descriptor, name]
    simp
  have start : Bytes.diffStart c.descriptor.name t.name = some (letterL :: c.body).length := by
    rw [name_descriptor, name, Bytes.diffStart_append (by simpa using marks.2)]
  have here : c.descriptor.name[(letterL :: c.body).length]? = some semicolon := by
    rw [name_descriptor, List.getElem?_append_right le_rfl, Nat.sub_self, List.getElem?_cons_zero]
  have there : t.name[(letterL :: c.body).length]? = some dollar := by
    rw [name, List.getElem?_append_right le_rfl, Nat.sub_self, List.getElem?_cons_zero]
  have behind : t.name.drop ((letterL :: c.body).length + 1) = s ++ [semicolon] := by
    rw [name, ← List.drop_drop, List.drop_left, List.drop_one, List.tail_cons]
  unfold isOuterOf
  rw [enter, start]
  dsimp only
  rw [here, there, behind, dropWhile_append_semicolon]
  simp [marks.1.symm, marks.2.symm]

/-- `isOuterOf` holds exactly if the other name goes on with dollar signs and one segment. -/
theorem isOuterOf_descriptor (plain : semicolon ∉ c.body) :
    c.descriptor.isOuterOf d.descriptor true = true ↔
      ∃ n r, Segment r ∧ d.body = c.body ++ dollar :: (signs n ++ r) := by
  constructor
  · intro outer
    have differ : c.descriptor.name ≠ d.descriptor.name := by
      intro same
      rw [isOuterOf, same, Bytes.diffStart_self] at outer
      simp at outer
    obtain ⟨p, s, u, hc, hd, fork⟩ := Bytes.exists_fork differ
    have start : Bytes.diffStart c.descriptor.name d.descriptor.name = some p.length := by
      rw [hc, hd, Bytes.diffStart_append fork]
    obtain ⟨here, there⟩ : s.head? = some semicolon ∧ u.head? = some dollar := by
      unfold isOuterOf at outer
      rw [start] at outer
      dsimp only at outer
      split at outer
      · cases outer
      split at outer
      · cases outer
      · next marks =>
        rw [hc, hd, List.getElem?_append_right le_rfl, List.getElem?_append_right le_rfl, Nat.sub_self] at marks
        simpa [List.head?_eq_getElem?] using marks
    obtain ⟨s, rfl⟩ := List.head?_eq_some_iff.1 here
    obtain ⟨u, rfl⟩ := List.head?_eq_some_iff.1 there
    have front : semicolon ∉ letterL :: c.body := by simpa [plain] using (by decide : semicolon ≠ letterL)
    obtain ⟨rfl, rfl⟩ := split_at_end front hc
    obtain ⟨rest, rfl, body⟩ := exists_before_end (by decide) hd
    obtain ⟨noSlash, noSign⟩ := (isOuterOf_of_append hd).1 outer
    obtain ⟨n, run⟩ := signs_append_dropWhile rest
    refine ⟨n, rest.dropWhile (· == dollar), ⟨noSign, fun mem => noSlash ?_⟩, ?_⟩
    · exact (List.dropWhile_suffix _).subset mem
    · rw [← run]
      exact (List.cons.inj body).2
  · rintro ⟨n, r, segment, body⟩
    refine (isOuterOf_of_append (s := signs n ++ r) (by rw [name_descriptor, body]; simp)).2 ⟨?_, ?_⟩
    · simpa [slash_notMem_signs] using segment.2
    · rw [dropWhile_signs segment.1]
      exact segment.1

/-! ## Enclosing classes -/

theorem body_injective (h : c.body = d.body) : c = d := by
  have same : c.descriptor = d.descriptor := by rw [ClassParts.descriptor, ClassParts.descriptor, h]
  have path : letterL :: c.path = letterL :: d.path := by
    rw [← ClassParts.package_descriptor, same, ClassParts.package_descriptor]
  have simple : c.simple = d.simple := by
    rw [← ClassParts.simpleName_descriptor, same, ClassParts.simpleName_descriptor]
  cases c
  cases d
  cases path
  cases simple
  rfl

theorem body_nested (plain : slash ∉ r) : (c.nested plain).body = c.body ++ dollar :: r := by
  simp [ClassParts.body, ClassParts.nested]

/-- `enclosing` takes the last segment off the simple name. -/
theorem enclosing_nested (plain : slash ∉ r) (last : dollar ∉ r) (nonempty : c.simple ≠ []) :
    (c.nested plain).descriptor.enclosing = c.descriptor := by
  have found : Bytes.lastIndexOf? dollar (c.nested plain).simple = some c.simple.length :=
    Bytes.lastIndexOf?_eq_some.2 ⟨c.simple, r, rfl, last, rfl⟩
  have front : (c.nested plain).simple.take c.simple.length = c.simple := List.take_left
  rw [enclosing, ClassParts.isDefinition_descriptor, ClassParts.simpleName_descriptor, found,
    ClassParts.package_descriptor]
  dsimp only
  rw [front, if_pos (List.length_pos_iff.2 nonempty)]
  simp [ClassParts.descriptor, ClassParts.body, ClassParts.nested]

/-- A class is its own enclosing class, or it is nested in a class with a simple name. -/
theorem enclosing_cases (d : ClassParts) :
    d.descriptor.enclosing = d.descriptor ∨
      ∃ (c : ClassParts) (r : Bytes) (plain : slash ∉ r), dollar ∉ r ∧ c.simple ≠ [] ∧ d = c.nested plain := by
  cases found : Bytes.lastIndexOf? dollar d.simple with
  | none =>
    refine .inl ?_
    rw [enclosing, ClassParts.isDefinition_descriptor, ClassParts.simpleName_descriptor, found]
    rfl
  | some i =>
    have enclosing_eq : d.descriptor.enclosing =
        if 0 < i then ⟨d.descriptor.package ++ d.simple.take i ++ [semicolon]⟩ else d.descriptor := by
      rw [enclosing, ClassParts.isDefinition_descriptor, ClassParts.simpleName_descriptor, found]
      rfl
    obtain ⟨before, after, simple, last, rfl⟩ := Bytes.lastIndexOf?_eq_some.1 found
    by_cases nonempty : before = []
    · exact .inl (enclosing_eq.trans (if_neg (by simp [nonempty])))
    · have plain := d.plain
      rw [simple] at plain
      let c : ClassParts := ⟨d.path, before, d.ends, fun mem => plain (by simp [mem]), by simp [nonempty]⟩
      have rest : slash ∉ after := fun mem => plain (by simp [mem])
      refine .inr ⟨c, after, rest, last, nonempty, body_injective ?_⟩
      rw [body_nested, ClassParts.body, ClassParts.body, simple, List.append_assoc]

/-- A class is the enclosing class of another one exactly if the name of the other goes on with a dollar sign and one
segment, and it has a simple name itself. -/
theorem descriptor_eq_enclosing_iff (differ : c.descriptor ≠ d.descriptor) :
    c.descriptor = d.descriptor.enclosing ↔ c.simple ≠ [] ∧ ∃ r, Segment r ∧ d.body = c.body ++ dollar :: r := by
  constructor
  · intro e
    rcases enclosing_cases d with itself | ⟨c', r, plain, last, nonempty, rfl⟩
    · exact absurd (e.trans itself) differ
    · rw [enclosing_nested plain last nonempty] at e
      have same : c.simple = c'.simple := by
        rw [← ClassParts.simpleName_descriptor, e, ClassParts.simpleName_descriptor]
      have body : c.body = c'.body := by
        simpa [ClassParts.descriptor] using e
      exact ⟨same ▸ nonempty, r, ⟨last, plain⟩, by rw [body_nested, body]⟩
  · rintro ⟨nonempty, r, ⟨last, plain⟩, body⟩
    rw [body_injective (body.trans (body_nested plain).symm), enclosing_nested plain last nonempty]

/-! ## The two together -/

/-- The byte behind the name and one dollar sign is not a dollar sign exactly if no further ones follow. -/
theorem getElem?_behind (segment : Segment r) (body : d.body = c.body ++ dollar :: (signs n ++ r)) :
    d.descriptor.name[c.descriptor.name.length]? ≠ some dollar ↔ n = 0 := by
  have name : d.descriptor.name = (letterL :: c.body ++ [dollar]) ++ (signs n ++ r ++ [semicolon]) := by
    rw [name_descriptor, body]
    simp
  have length : c.descriptor.name.length = (letterL :: c.body ++ [dollar]).length := by
    rw [length_name_descriptor]
    simp
  rw [name, length, List.getElem?_append_right le_rfl, Nat.sub_self]
  cases n with
  | zero =>
    refine iff_of_true ?_ rfl
    cases r with
    | nil => decide
    | cons y r => simpa [signs] using (List.ne_of_not_mem_cons segment.1).symm
  | succ n => simp [signs, List.replicate_succ]

/-- The last dollar sign of the simple name, if there is one, stands alone and not at the beginning. -/
def Parted (t : Descriptor) : Prop :=
  ∀ before after, t.simpleName = before ++ dollar :: after → dollar ∉ after → ∃ b ∈ before.getLast?, b ≠ dollar

/-- For two different classes, `k = t.enclosing` exactly if `k.isOuterOf t true`, `k` has a simple name, and only one
dollar sign stands behind the name of `k` in that of `t`. If the last dollar sign of the simple name of `t` stands
alone and not at the beginning, then `k = t.enclosing` exactly if `k.isOuterOf t true`. -/
theorem eq_enclosing_iff_isOuterOf (valid : isValid k.name = true) (hk : k.isDefinition = true)
    (ht : t.isDefinition = true) (differ : k ≠ t) :
    (k = t.enclosing ↔
      k.isOuterOf t true = true ∧ k.simpleName ≠ [] ∧ t.name[k.name.length]? ≠ some dollar) ∧
    (Parted t → (k = t.enclosing ↔ k.isOuterOf t true = true)) := by
  obtain ⟨c, rfl⟩ := exists_parts hk
  obtain ⟨d, rfl⟩ := exists_parts ht
  have plain : semicolon ∉ c.body := ((@isValid_class 0 c.body).1 valid).2
  have criterion : c.descriptor = d.descriptor.enclosing ↔ c.descriptor.isOuterOf d.descriptor true = true ∧
      c.descriptor.simpleName ≠ [] ∧ d.descriptor.name[c.descriptor.name.length]? ≠ some dollar := by
    rw [descriptor_eq_enclosing_iff differ, isOuterOf_descriptor plain, ClassParts.simpleName_descriptor]
    constructor
    · rintro ⟨nonempty, r, segment, body⟩
      exact ⟨⟨0, r, segment, body⟩, nonempty, (getElem?_behind segment body (n := 0)).2 rfl⟩
    · rintro ⟨⟨n, r, segment, body⟩, nonempty, other⟩
      obtain rfl := (getElem?_behind segment body).1 other
      exact ⟨nonempty, r, segment, body⟩
  refine ⟨criterion, fun parted => criterion.trans ⟨fun h => h.1, fun outer => ⟨outer, ?_⟩⟩⟩
  obtain ⟨n, r, segment, body⟩ := (isOuterOf_descriptor plain).1 outer
  have rest : slash ∉ signs n ++ r := by simpa [slash_notMem_signs] using segment.2
  have simple : d.descriptor.simpleName = (c.simple ++ signs n) ++ dollar :: r := by
    rw [body_injective (body.trans (body_nested rest).symm), ClassParts.simpleName_descriptor, ClassParts.nested]
    dsimp only
    rw [dollar_signs, List.append_assoc]
  obtain ⟨b, last, other⟩ := parted _ _ simple segment.1
  rw [ClassParts.simpleName_descriptor, getElem?_behind segment body]
  cases n with
  | zero =>
    refine ⟨?_, rfl⟩
    rintro empty
    simp [empty, signs] at last
  | succ n => exact absurd (by simpa [signs, List.replicate_succ'] using last) other.symm

/-- `A$$B` has the enclosing class `A$`, but `A` is an immediate outer class of it as well. For `a/A$B` both are
`a/A`. -/
theorem eq_enclosing_iff_isOuterOf_doubled :
    (⟨ascii "LA$;"⟩ = enclosing ⟨ascii "LA$$B;"⟩ ∧ isOuterOf ⟨ascii "LA$;"⟩ ⟨ascii "LA$$B;"⟩ true = true) ∧
      (⟨ascii "LA;"⟩ ≠ enclosing ⟨ascii "LA$$B;"⟩ ∧ isOuterOf ⟨ascii "LA;"⟩ ⟨ascii "LA$$B;"⟩ true = true) ∧
      ⟨ascii "La/A;"⟩ = enclosing ⟨ascii "La/A$B;"⟩ := by
  obtain ⟨near, -⟩ := eq_enclosing_iff_isOuterOf (k := ⟨ascii "LA$;"⟩) (t := ⟨ascii "LA$$B;"⟩) (by decide)
    (by decide) (by decide) (by decide)
  obtain ⟨far, -⟩ := eq_enclosing_iff_isOuterOf (k := ⟨ascii "LA;"⟩) (t := ⟨ascii "LA$$B;"⟩) (by decide)
    (by decide) (by decide) (by decide)
  obtain ⟨-, parted⟩ := eq_enclosing_iff_isOuterOf (k := ⟨ascii "La/A;"⟩) (t := ⟨ascii "La/A$B;"⟩) (by decide)
    (by decide) (by decide) (by decide)
  have outer : isOuterOf ⟨ascii "LA$;"⟩ ⟨ascii "LA$$B;"⟩ true = true := by decide
  refine ⟨⟨near.2 ⟨outer, by decide, by decide +kernel⟩, outer⟩, ⟨fun e => ?_, by decide +kernel⟩, ?_⟩
  · exact absurd (far.1 e).2.2 (by decide)
  · refine (parted fun before after simple last => ?_).2 (by decide)
    have found : Bytes.lastIndexOf? dollar (simpleName ⟨ascii "La/A$B;"⟩) = some before.length :=
      Bytes.lastIndexOf?_eq_some.2 ⟨before, after, simple, last, rfl⟩
    have one : before.length = 1 := Option.some.inj (found.symm.trans (by decide))
    have front : before = (simpleName ⟨ascii "La/A$B;"⟩).take 1 := by rw [simple, ← one, List.take_left]
    rw [front]
    exact ⟨byte 'A', by decide, by decide⟩

end Dalvik.Descriptor
