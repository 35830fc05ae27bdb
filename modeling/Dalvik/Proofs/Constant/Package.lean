import Dalvik.Proofs.Constant.ClassName
import Dalvik.Proofs.Constant.Reference
import Dalvik.Proofs.Constant.TypeName

/-!
# Packages

The path of a package ends in a slash or is empty, and the simple name behind it has no slash. So
two classes have the same package exactly if no slash follows the first difference of their names,
which is what `equalsPackage` tests (`equalsPackage_iff_package_eq`). A package is a prefix of the
name of exactly the classes in it and below it (`prefix_element_iff`). So `renamePackage` replaces a
prefix of the element name (`renamePackage_eq_replacePrefix`), the converse renaming undoes it
(`replacePrefix_back`), and the result is valid again, as are the parameters of a renamed prototype
(`renamePackage_replaces_prefix`).
-/

namespace Dalvik

namespace Descriptor

variable {k : Descriptor} {source target pkg rest x y : Bytes} {n : Nat}

/-! ## Packages -/

/-- The name of a package other than the root: `L` and segments that end in slashes. -/
structure IsPackage (pkg : Bytes) : Prop where
  begins : pkg.head? = some letterL
  ends : pkg.getLast? = some slash
  plain : semicolon ∉ pkg

theorem normalizePackage_eq_self (begins : pkg.head? = some letterL) (ends : pkg.getLast? = some slash) :
    normalizePackage pkg = pkg := by
  obtain ⟨r, rfl⟩ := List.head?_eq_some_iff.1 begins
  have root : letterL :: r ≠ [letterL] := by
    intro e
    rw [e] at ends
    exact absurd ends (by decide)
  rw [normalizePackage, if_neg root, if_pos rfl]
  exact if_pos ends

theorem getLast?_append_rest (ht : IsPackage target) (h : (source ++ rest).getLast? = some slash) :
    (target ++ rest).getLast? = some slash := by
  rw [List.getLast?_append] at h ⊢
  cases last : rest.getLast? with
  | none => simp [ht.ends]
  | some b => simpa [last] using h

theorem head?_append_rest (ht : IsPackage target) : (target ++ rest).head? = some letterL := by
  rw [List.head?_append, ht.begins, Option.some_or]

/-- A prefix that ends in a slash ends before a text without one. -/
theorem prefix_append_iff (ends : source.getLast? = some slash) (plain : slash ∉ y) : source <+: x ++ y ↔ source <+: x := by
  refine ⟨?_, fun h => h.trans (List.prefix_append x y)⟩
  rintro ⟨t, e⟩
  rcases List.append_eq_append_iff.1 e with ⟨more, rfl, -⟩ | ⟨more, rfl, rfl⟩
  · exact List.prefix_append source more
  · rcases more.eq_nil_or_concat with rfl | ⟨front, last, rfl⟩
    · rw [List.append_nil]
    · obtain rfl : last = slash := by simpa using ends
      exact absurd (by simp) plain

/-! ## Arrays -/

theorem element_brackets (h : x.head? = some letterL) (n : Nat) : element ⟨brackets n ++ x⟩ = x := by
  obtain ⟨r, rfl⟩ := List.head?_eq_some_iff.1 h
  exact dropWhile_brackets n letterL_ne_bracket r

theorem dimensions_brackets (h : x.head? = some letterL) (n : Nat) : dimensions ⟨brackets n ++ x⟩ = n := by
  obtain ⟨r, rfl⟩ := List.head?_eq_some_iff.1 h
  rw [dimensions, brackets, takeWhile_brackets n letterL_ne_bracket r, List.length_replicate]

/-- The array type over the class. -/
def ClassParts.array (c : ClassParts) (n : Nat) : Descriptor := ⟨brackets n ++ c.descriptor.name⟩

namespace ClassParts

variable (c : ClassParts) (n : Nat)

theorem name_array : (c.array n).name = brackets n ++ (letterL :: c.path ++ (c.simple ++ [semicolon])) := by
  simp [array, descriptor, body]

@[simp] theorem element_array : (c.array n).element = letterL :: c.path ++ (c.simple ++ [semicolon]) := by
  rw [array, element_brackets rfl]
  simp [descriptor, body]

@[simp] theorem dimensions_array : (c.array n).dimensions = n := dimensions_brackets rfl n

@[simp] theorem elementType_array : (c.array n).elementType = c.descriptor := by
  rw [elementType, array, element_brackets rfl]

theorem element_array_eq : (c.array n).element = c.descriptor.element := by
  rw [element_array, element_descriptor]
  simp [body]

@[simp] theorem package_array : (c.array n).package = letterL :: c.path := by
  rw [package, classBody?, element_array_eq, ← package_descriptor]
  rfl

@[simp] theorem simpleName_array : (c.array n).simpleName = c.simple := by
  rw [simpleName, classBody?, element_array_eq, ← simpleName_descriptor]
  rfl

/-- `withPackage` of an array of a class replaces the package and keeps the simple name. -/
theorem withPackage_array (begins : pkg.head? = some letterL) (ends : pkg.getLast? = some slash) :
    (c.array n).withPackage pkg = ⟨brackets n ++ pkg ++ (c.simple ++ [semicolon])⟩ := by
  rw [withPackage, normalizePackage_eq_self begins ends]
  simp only [elementType_array, isDefinition_descriptor, package_array, dimensions_array, simpleName_array, Bool.not_true,
    Bool.false_or, beq_iff_eq]
  split
  · next own =>
    rw [own, List.append_assoc, ← name_array]
  · rw [List.append_assoc]

end ClassParts

/-- A valid descriptor is an array, of any number of dimensions, of a primitive type or a class. -/
theorem exists_element (h : isValid k.name = true) :
    (∃ n letter, (sourceWord? letter).isSome ∧ k = ⟨brackets n ++ [letter]⟩) ∨
      ∃ n c, semicolon ∉ ClassParts.body c ∧ k = c.array n := by
  obtain ⟨name⟩ := k
  cases form_of_isValid h with
  | primitive dims word => exact .inl ⟨dims, _, word, rfl⟩
  | @reference dims body plain =>
    have nonempty : body ≠ [] := (isValid_class.1 h).1
    have long : isDefinition ⟨letterL :: body ++ [semicolon]⟩ = true := by
      have last : (letterL :: body ++ [semicolon]).getLast? = some semicolon := List.getLast?_concat
      simp only [isDefinition, Bool.and_eq_true, decide_eq_true_eq, beq_iff_eq]
      exact ⟨⟨by simpa using List.length_pos_iff.2 nonempty, rfl⟩, last⟩
    obtain ⟨c, e⟩ := exists_parts long
    have sameBody : body = c.body := by simpa [ClassParts.descriptor] using e
    exact .inr ⟨dims, c, sameBody ▸ plain, by rw [ClassParts.array, ← e]; rfl⟩

/-! ## Classes of one package -/

section

variable {a b : Descriptor} {c d : ClassParts} {p s t : Bytes} {m : Nat}

theorem equalsPackage_of_element_eq (same : a.element = b.element) (isClass : a.element.head? = some letterL) :
    a.equalsPackage b = true := by
  unfold equalsPackage
  split
  · rfl
  · simp only [← same, isClass, bne_self_eq_false, Bool.or_self, Bool.false_eq_true, if_false, Bytes.diffStart_self]

/-- `equalsPackage` at the first difference of two names: no slash follows in either of them. -/
theorem equalsPackage_of_fork (ha : a.element = letterL :: (p ++ s)) (hb : b.element = letterL :: (p ++ t))
    (fork : s.head? ≠ t.head?) : a.equalsPackage b = true ↔ slash ∉ s ∧ slash ∉ t := by
  have differ : a ≠ b := by
    rintro rfl
    have same : p ++ s = p ++ t := (List.cons.inj (ha.symm.trans hb)).2
    exact fork (congrArg List.head? (List.append_cancel_left same))
  have start : Bytes.diffStart (letterL :: (p ++ s)) (letterL :: (p ++ t)) = some (p.length + 1) :=
    Bytes.diffStart_append fork (letterL :: p)
  rw [equalsPackage, if_neg differ, ha, hb]
  simp only [List.head?_cons, bne_self_eq_false, Bool.or_self, Bool.false_eq_true, if_false, start, List.drop_succ_cons,
    List.drop_left, Bool.and_eq_true, Bool.not_eq_true', List.contains_eq_mem, decide_eq_false_iff_not]

namespace ClassParts

/-- The simple name and the semicolon. -/
def tail (c : ClassParts) : Bytes := c.simple ++ [semicolon]

theorem slash_notMem_tail (c : ClassParts) : slash ∉ c.tail := by
  simpa [tail, c.plain] using (by decide : slash ≠ semicolon)

theorem element_array_cons (c : ClassParts) (n : Nat) : (c.array n).element = letterL :: (c.path ++ c.tail) := c.element_array n

/-- A path is a prefix of a text exactly if it is one without an end that has no slash. -/
theorem path_prefix_iff (c : ClassParts) (plain : slash ∉ y) : c.path <+: x ++ y ↔ c.path <+: x := by
  rcases c.ends with path | ⟨front, path⟩
  · simp [path]
  · exact prefix_append_iff (by rw [path, List.getLast?_concat]) plain

/-- Two paths in names that have a common beginning and no slash behind it are equal. -/
theorem path_eq_of_plain (hc : c.path ++ c.tail = p ++ s) (hd : d.path ++ d.tail = p ++ t) (hs : slash ∉ s) (ht : slash ∉ t) :
    c.path = d.path := by
  have left : c.path <+: p := (c.path_prefix_iff hs).1 ⟨c.tail, hc⟩
  have right : d.path <+: p := (d.path_prefix_iff ht).1 ⟨d.tail, hd⟩
  have forth : c.path <+: d.path := (c.path_prefix_iff d.slash_notMem_tail).1 (left.trans ⟨t, hd.symm⟩)
  have back : d.path <+: c.path := (d.path_prefix_iff c.slash_notMem_tail).1 (right.trans ⟨s, hc.symm⟩)
  exact forth.eq_of_length_le back.length_le

/-- If the paths are equal, `equalsPackage` holds. -/
theorem equalsPackage_of_path_eq (same : c.path = d.path) : (c.array n).equalsPackage (d.array m) = true := by
  by_cases tails : c.tail = d.tail
  · refine equalsPackage_of_element_eq ?_ ?_
    · rw [element_array_cons, element_array_cons, same, tails]
    · rw [element_array_cons, List.head?_cons]
  · obtain ⟨p, s, t, hc, hd, fork⟩ := Bytes.exists_fork tails
    have left : (c.array n).element = letterL :: (c.path ++ p ++ s) := by rw [element_array_cons, hc, List.append_assoc]
    have right : (d.array m).element = letterL :: (c.path ++ p ++ t) := by
      rw [element_array_cons, hd, ← same, List.append_assoc]
    refine (equalsPackage_of_fork left right fork).2 ⟨fun mem => c.slash_notMem_tail ?_, fun mem => d.slash_notMem_tail ?_⟩
    · rw [hc]
      exact List.mem_append_right p mem
    · rw [hd]
      exact List.mem_append_right p mem

/-- `equalsPackage` of two arrays of classes holds exactly if the paths of the classes are equal. -/
theorem equalsPackage_array : (c.array n).equalsPackage (d.array m) = true ↔ c.path = d.path := by
  refine ⟨fun shared => ?_, equalsPackage_of_path_eq⟩
  by_cases same : c.path ++ c.tail = d.path ++ d.tail
  · exact path_eq_of_plain (p := c.path) rfl same.symm c.slash_notMem_tail c.slash_notMem_tail
  · obtain ⟨p, s, t, hc, hd, fork⟩ := Bytes.exists_fork same
    have left : (c.array n).element = letterL :: (p ++ s) := by rw [element_array_cons, hc]
    have right : (d.array m).element = letterL :: (p ++ t) := by rw [element_array_cons, hd]
    obtain ⟨hs, ht⟩ := (equalsPackage_of_fork left right fork).1 shared
    exact path_eq_of_plain hc hd hs ht

end ClassParts

/-- The type is a class or an array of classes. -/
structure OfClass (k : Descriptor) : Prop where
  valid : isValid k.name = true
  isClass : k.element.head? = some letterL

theorem OfClass.exists_array (h : k.OfClass) : ∃ c n, k = ClassParts.array c n := by
  obtain ⟨n, letter, word, rfl⟩ | ⟨n, c, -, rfl⟩ := exists_element h.valid
  · have isClass := h.isClass
    rw [element, brackets, dropWhile_brackets n (ne_bracket_of_word word)] at isClass
    obtain rfl : letter = letterL := Option.some.inj isClass
    rw [sourceWord?_letterL] at word
    cases word
  · exact ⟨c, n, rfl⟩

/-- For two types that are classes or arrays of classes, `equalsPackage` holds exactly if their `package`s are equal. -/
theorem equalsPackage_iff_package_eq (ha : a.OfClass) (hb : b.OfClass) : a.equalsPackage b = true ↔ a.package = b.package := by
  obtain ⟨c, n, rfl⟩ := ha.exists_array
  obtain ⟨d, m, rfl⟩ := hb.exists_array
  rw [ClassParts.equalsPackage_array, ClassParts.package_array, ClassParts.package_array, List.cons.injEq, and_iff_right rfl]

/-- Two classes whose packages differ although the name of the first begins with the package of the second. -/
theorem equalsPackage_iff_package_eq_segment :
    let a : Descriptor := ⟨ascii "[[La/b;"⟩
    let b : Descriptor := ⟨ascii "La/b/C;"⟩
    (a.OfClass ∧ b.OfClass) ∧ (a.equalsPackage b = true ↔ a.package = b.package) ∧ a.equalsPackage b = false := by
  intro a b
  have ha : a.OfClass := ⟨by decide, by decide⟩
  have hb : b.OfClass := ⟨by decide, by decide⟩
  exact ⟨⟨ha, hb⟩, equalsPackage_iff_package_eq ha hb, by decide⟩

end

/-! ## Prefixes -/

/-- The type with a prefix of its element name replaced. -/
def replacePrefix (k : Descriptor) (source target : Bytes) : Descriptor :=
  if source.isPrefixOf k.element then ⟨brackets k.dimensions ++ target ++ k.element.drop source.length⟩ else k

theorem replacePrefix_of_not (h : ¬ source <+: k.element) : k.replacePrefix source target = k :=
  if_neg (by rwa [List.isPrefixOf_iff_prefix])

theorem replacePrefix_append (h : k.element = source ++ rest) :
    k.replacePrefix source target = ⟨brackets k.dimensions ++ (target ++ rest)⟩ := by
  rw [replacePrefix, h, if_pos (List.isPrefixOf_iff_prefix.2 (List.prefix_append source rest)), List.drop_left, List.append_assoc]

/-- The name of a package is a prefix of an element name exactly if it is one of the path of the class. -/
theorem prefix_element_iff (hs : IsPackage source) (c : ClassParts) (n : Nat) :
    source <+: (c.array n).element ↔ source <+: letterL :: c.path := by
  rw [c.element_array]
  exact prefix_append_iff hs.ends (by simpa [c.plain] using (by decide : slash ≠ semicolon))

theorem not_prefix_primitive (hs : IsPackage source) {letter : UInt8} (word : (sourceWord? letter).isSome) :
    ¬ source <+: element ⟨brackets n ++ [letter]⟩ := by
  obtain ⟨r, rfl⟩ := List.head?_eq_some_iff.1 hs.begins
  rw [element, brackets, dropWhile_brackets n (ne_bracket_of_word word)]
  intro h
  obtain rfl : letterL = letter := (List.cons_prefix_cons.1 h).1
  rw [sourceWord?_letterL] at word
  cases word

theorem path_ends (c : ClassParts) (h : source <+: letterL :: c.path) (hs : IsPackage source) :
    (letterL :: c.path).getLast? = some slash := by
  rcases c.ends with path | ⟨front, path⟩
  · rw [path] at h
    obtain ⟨r, rfl⟩ := List.head?_eq_some_iff.1 hs.begins
    obtain rfl : r = [] := List.prefix_nil.1 (List.cons_prefix_cons.1 h).2
    exact absurd hs.ends (by decide)
  · rw [path, ← List.cons_append, List.getLast?_concat]

/-- `renamePackage` is `replacePrefix`. -/
theorem renamePackage_eq_replacePrefix (hs : IsPackage source) (ht : IsPackage target) (valid : isValid k.name = true) :
    k.renamePackage source target = k.replacePrefix source target := by
  have root : source ≠ [letterL] := by
    rintro rfl
    exact absurd hs.ends (by decide)
  unfold renamePackage
  rw [normalizePackage_eq_self hs.begins hs.ends, normalizePackage_eq_self ht.begins ht.ends]
  obtain ⟨n, letter, word, rfl⟩ | ⟨n, c, -, rfl⟩ := exists_element valid
  · have absent : package ⟨brackets n ++ [letter]⟩ = [] := by
      rw [package, classBody?, element, brackets, dropWhile_brackets n (ne_bracket_of_word word)]
    rw [replacePrefix_of_not (not_prefix_primitive hs word), absent]
    rfl
  · rw [c.package_array]
    dsimp only
    by_cases below : source <+: letterL :: c.path
    · obtain ⟨rest, e⟩ := below
      have last : (letterL :: c.path).getLast? = some slash := path_ends c ⟨rest, e⟩ hs
      have element : (c.array n).element = source ++ (rest ++ (c.simple ++ [semicolon])) := by
        rw [c.element_array, ← e, List.append_assoc]
      have moved := c.withPackage_array n (head?_append_rest ht) (getLast?_append_rest ht (e ▸ last))
      rw [replacePrefix_append element, c.dimensions_array, if_neg (by simp), ← e, List.drop_left]
      have same : (⟨brackets n ++ (target ++ (rest ++ (c.simple ++ [semicolon])))⟩ : Descriptor) =
          (c.array n).withPackage (target ++ rest) := by
        rw [moved]
        simp
      rw [same]
      split
      · next itself =>
        obtain rfl : rest = [] := List.append_right_eq_self.1 itself
        rw [List.append_nil]
      · exact if_neg (by simp [root])
    · have other : letterL :: c.path ≠ source := fun same => below (same ▸ List.prefix_rfl)
      rw [replacePrefix_of_not (mt (prefix_element_iff hs c n).1 below), if_neg (by simp), if_neg other]
      exact if_pos (.inr (by rwa [List.isPrefixOf_iff_prefix]))

/-- Replacing a prefix and replacing it back gives the type. -/
theorem replacePrefix_back (ht : IsPackage target) (h : source <+: k.element) :
    (k.replacePrefix source target).replacePrefix target source = k := by
  obtain ⟨rest, e⟩ := h
  have begins : (target ++ rest).head? = some letterL := head?_append_rest ht
  rw [replacePrefix_append e.symm, replacePrefix_append (element_brackets begins _), dimensions_brackets begins, e]
  exact congrArg mk (name_eq k).symm

theorem isValid_replacePrefix (hs : IsPackage source) (ht : IsPackage target) (valid : isValid k.name = true) :
    isValid (k.replacePrefix source target).name = true := by
  by_cases below : source <+: k.element
  · obtain ⟨n, letter, word, rfl⟩ | ⟨n, c, plain, rfl⟩ := exists_element valid
    · exact absurd below (not_prefix_primitive hs word)
    · obtain ⟨rest, e⟩ := (prefix_element_iff hs c n).1 below
      obtain ⟨r, rfl⟩ := List.head?_eq_some_iff.1 ht.begins
      have nonempty : r ≠ [] := by
        rintro rfl
        exact absurd ht.ends (by decide)
      have body : semicolon ∉ c.path ∧ semicolon ∉ c.simple := by simpa [ClassParts.body] using plain
      have path : semicolon ∉ source ++ rest := by
        rw [e]
        simpa [body.1] using letterL_ne_semicolon.symm
      have element : (c.array n).element = source ++ (rest ++ (c.simple ++ [semicolon])) := by
        rw [c.element_array, ← e, List.append_assoc]
      have shape : brackets n ++ (letterL :: r ++ (rest ++ (c.simple ++ [semicolon]))) =
          List.replicate n bracket ++ (letterL :: (r ++ (rest ++ c.simple)) ++ [semicolon]) := by simp [brackets]
      rw [replacePrefix_append element, c.dimensions_array, shape, isValid_class]
      refine ⟨by simp [nonempty], ?_⟩
      have new : semicolon ∉ r := fun mem => ht.plain (List.mem_cons_of_mem _ mem)
      have old : semicolon ∉ rest := fun mem => path (List.mem_append_right _ mem)
      simp [new, old, body.2]
  · rwa [replacePrefix_of_not below]

end Descriptor

/-! ## References -/

open Descriptor (IsPackage isValid)

variable {source target : Bytes}

/-- For packages `source` and `target` other than the root: if `source` is a prefix of the element name of a valid
type, `renamePackage` replaces it by `target` and changes nothing else, and renaming back gives the type; other types
stay as they are. `renamePackage` of a field renames its owner and type in this way, and that of a method its owner,
return type and parameters. -/
theorem renamePackage_replaces_prefix (hs : IsPackage source) (ht : IsPackage target) :
    (∀ k : Descriptor, isValid k.name = true → k.renamePackage source target = k.replacePrefix source target ∧
        (source <+: k.element → (k.renamePackage source target).renamePackage target source = k)) ∧
      (∀ f : FieldRef, isValid f.owner.name = true → isValid f.type.name = true →
        f.renamePackage source target = ⟨f.owner.replacePrefix source target, f.name, f.type.replacePrefix source target⟩) ∧
      ∀ (m : MethodRef) (ts : List Descriptor), isValid m.owner.name = true → isValid m.proto.result.name = true →
        m.proto.parameters = .ok ts → ∃ m', m.renamePackage source target = .ok m' ∧
          m'.owner = m.owner.replacePrefix source target ∧ m'.name = m.name ∧
          m'.proto.result = m.proto.result.replacePrefix source target ∧
          m'.proto.parameters = .ok (ts.map fun t => t.replacePrefix source target) := by
  refine ⟨fun k valid => ⟨Descriptor.renamePackage_eq_replacePrefix hs ht valid, fun below => ?_⟩, fun f owner type => ?_,
    fun m ts owner result params => ?_⟩
  · have valid' := Descriptor.isValid_replacePrefix hs ht valid
    rw [Descriptor.renamePackage_eq_replacePrefix hs ht valid, Descriptor.renamePackage_eq_replacePrefix ht hs valid',
      Descriptor.replacePrefix_back ht below]
  · rw [FieldRef.renamePackage, Descriptor.renamePackage_eq_replacePrefix hs ht owner,
      Descriptor.renamePackage_eq_replacePrefix hs ht type]
  · have each : ∀ t ∈ ts, isValid t.name = true := by
      unfold Prototype.parameters at params
      split at params
      · cases params
      · exact (Prototype.split_eq_ok.1 params).1
    have moved : (ts.map fun t => t.renamePackage source target) = ts.map fun t => t.replacePrefix source target :=
      List.map_congr_left fun t mem => Descriptor.renamePackage_eq_replacePrefix hs ht (each t mem)
    have each' : ∀ t ∈ ts.map fun t => t.replacePrefix source target, isValid t.name = true := by
      refine List.forall_mem_map.2 fun t mem => ?_
      exact Descriptor.isValid_replacePrefix hs ht (each t mem)
    have run : m.renamePackage source target = .ok ⟨m.owner.replacePrefix source target, m.name,
        Prototype.of (m.proto.result.replacePrefix source target) (ts.map fun t => t.replacePrefix source target)⟩ := by
      rw [MethodRef.renamePackage, params, ← moved, ← Descriptor.renamePackage_eq_replacePrefix hs ht owner,
        ← Descriptor.renamePackage_eq_replacePrefix hs ht result]
      rfl
    refine ⟨_, run, rfl, rfl, rfl, ?_⟩
    rw [Prototype.parameters, Prototype.of, Prototype.split_flatMap each']

/-- Arrays and classes below a package are renamed and renamed back; a package whose name only begins like it stays. -/
theorem renamePackage_replaces_prefix_siblings :
    let source := ascii "Lcom/foo/"
    let target := ascii "Lorg/x/"
    let k : Descriptor := ⟨ascii "[[Lcom/foo/sub/B;"⟩
    let k' : Descriptor := ⟨ascii "[[Lorg/x/sub/B;"⟩
    let f : FieldRef := ⟨⟨ascii "Lcom/foobar/C;"⟩, ascii "f", k⟩
    let m : MethodRef := ⟨k, ascii "m", ⟨⟨ascii "V"⟩, ascii "I[[Lcom/foo/sub/B;Lcom/foobar/C;"⟩⟩
    let ts : List Descriptor := [⟨ascii "I"⟩, k, ⟨ascii "Lcom/foobar/C;"⟩]
    (IsPackage source ∧ IsPackage target) ∧
      (k.renamePackage source target = k' ∧ k'.renamePackage target source = k) ∧
      f.renamePackage source target = ⟨⟨ascii "Lcom/foobar/C;"⟩, ascii "f", k'⟩ ∧
      m.proto.parameters = .ok ts ∧ ∃ m', m.renamePackage source target = .ok m' ∧ m'.owner = k' ∧
        m'.proto.parameters = .ok [⟨ascii "I"⟩, k', ⟨ascii "Lcom/foobar/C;"⟩] := by
  intro source target k k' f m ts
  have hs : IsPackage source := ⟨by decide, by decide, by decide⟩
  have ht : IsPackage target := ⟨by decide, by decide, by decide⟩
  have valid : isValid k.name = true ∧ isValid f.owner.name = true ∧ isValid m.proto.result.name = true := by decide
  have params : m.proto.parameters = .ok ts := by rfl
  obtain ⟨types, fields, methods⟩ := renamePackage_replaces_prefix hs ht
  obtain ⟨moved, back⟩ := types k valid.1
  have new : k.replacePrefix source target = k' := by decide
  obtain ⟨m', run, owner, -, -, params'⟩ := methods m ts valid.1 valid.2.2 params
  refine ⟨⟨hs, ht⟩, ⟨moved.trans new, ?_⟩, (fields f valid.2.1 valid.1).trans (by decide), params, m', run, owner.trans new,
    params'.trans ?_⟩
  · rw [moved, new] at back
    exact back (by decide)
  · refine congrArg Except.ok ?_
    decide

end Dalvik
