import Dalvik.Proofs.Bytes
import Dalvik.Proofs.Prototype

/-!
# Parts of a class name

The descriptor of a class is put together from the path of its package and its simple name in
exactly one way (`exists_parts`), and `package` and `simpleName` give these two back
(`package_descriptor`, `simpleName_descriptor`).
-/

namespace Dalvik

namespace Descriptor

/-- The path of a package, and the simple name of a class in it. -/
structure ClassParts where
  path : Bytes
  simple : Bytes
  ends : path = [] ∨ ∃ front, path = front ++ [slash]
  plain : slash ∉ simple
  nonempty : path ++ simple ≠ []

namespace ClassParts

variable (c : ClassParts)

def body : Bytes := c.path ++ c.simple

def descriptor : Descriptor := ⟨letterL :: c.body ++ [semicolon]⟩

@[simp] theorem isDefinition_descriptor : c.descriptor.isDefinition = true := by
  have long : 0 < c.body.length := List.length_pos_iff.2 c.nonempty
  have last : (letterL :: c.body ++ [semicolon]).getLast? = some semicolon := List.getLast?_concat
  simp only [isDefinition, Bool.and_eq_true, decide_eq_true_eq, beq_iff_eq]
  refine ⟨⟨?_, rfl⟩, last⟩
  simpa [descriptor] using long

theorem element_descriptor : c.descriptor.element = letterL :: c.body ++ [semicolon] :=
  List.dropWhile_cons_of_neg (by simpa using letterL_ne_bracket)

theorem classBody?_descriptor : c.descriptor.classBody? = some (c.body ++ [semicolon]) := by
  obtain ⟨b, r, e⟩ := List.exists_cons_of_ne_nil c.nonempty
  rw [classBody?, element_descriptor, body, e]
  exact if_pos rfl

theorem dropSuffix_body : Bytes.dropSuffix [semicolon] (c.body ++ [semicolon]) = c.body := by
  rw [Bytes.dropSuffix, if_pos (List.isSuffixOf_iff_suffix.2 ⟨c.body, rfl⟩), List.length_append, Nat.add_sub_cancel,
    List.take_left]

@[simp] theorem simpleName_descriptor : c.descriptor.simpleName = c.simple := by
  rw [simpleName, classBody?_descriptor]
  dsimp only
  rw [dropSuffix_body, body]
  rcases c.ends with path | ⟨front, path⟩
  · have absent : Bytes.lastIndexOf? slash c.simple = none := Bytes.lastIndexOf?_eq_none.2 c.plain
    rw [path, List.nil_append, absent]
  · have found : Bytes.lastIndexOf? slash (c.path ++ c.simple) = some front.length :=
      Bytes.lastIndexOf?_eq_some.2 ⟨front, c.simple, by simp [path], c.plain, rfl⟩
    rw [found, path]
    exact List.drop_left' (by simp)

@[simp] theorem package_descriptor : c.descriptor.package = letterL :: c.path := by
  have marks : slash ≠ letterL ∧ slash ≠ semicolon := by decide
  rw [package, classBody?_descriptor, element_descriptor, body]
  dsimp only
  rcases c.ends with path | ⟨front, path⟩
  · have absent : Bytes.lastIndexOf? slash (letterL :: (c.path ++ c.simple) ++ [semicolon]) = none := by
      rw [Bytes.lastIndexOf?_eq_none, path]
      simp [c.plain, marks]
    rw [absent, path]
  · have found : Bytes.lastIndexOf? slash (letterL :: (c.path ++ c.simple) ++ [semicolon]) = some (front.length + 1) :=
      Bytes.lastIndexOf?_eq_some.2 ⟨letterL :: front, c.simple ++ [semicolon], by simp [path], by simp [c.plain, marks], rfl⟩
    rw [found, path]
    dsimp only
    have split : letterL :: (front ++ [slash] ++ c.simple) ++ [semicolon] =
        (letterL :: (front ++ [slash])) ++ (c.simple ++ [semicolon]) := by simp
    rw [if_pos (Nat.succ_pos _), split, List.take_left' (by simp)]

/-- The parts of the name of a class nested in this one. -/
def nested {simple : Bytes} (plain : slash ∉ simple) : ClassParts where
  path := c.path
  simple := c.simple ++ dollar :: simple
  ends := c.ends
  plain := by simpa [plain, c.plain] using (by decide : slash ≠ dollar)
  nonempty := by simp

theorem inner_descriptor {simple : Bytes} (nonempty : simple ≠ []) (plain : slash ∉ simple) :
    c.descriptor.inner simple = (c.nested plain).descriptor := by
  have enter : (!c.descriptor.isDefinition || simple.isEmpty) = false := by
    rw [isDefinition_descriptor]
    simpa using nonempty
  have front : c.descriptor.name.dropLast = letterL :: c.body := List.dropLast_concat
  rw [inner, enter, front]
  simp [descriptor, body, nested]

end ClassParts

theorem exists_parts {k : Descriptor} (h : k.isDefinition = true) : ∃ c : ClassParts, k = c.descriptor := by
  obtain ⟨name⟩ := k
  simp only [isDefinition, Bool.and_eq_true, decide_eq_true_eq, beq_iff_eq] at h
  obtain ⟨⟨long, head⟩, last⟩ := h
  obtain ⟨r, rfl⟩ := List.head?_eq_some_iff.1 head
  have last : r.getLast? = some semicolon := by
    cases r with
    | nil => simp at long
    | cons b r => rwa [List.getLast?_cons_cons] at last
  obtain ⟨body, rfl⟩ := List.getLast?_eq_some_iff.1 last
  have nonempty : body ≠ [] := by
    rintro rfl
    simp at long
  cases found : Bytes.lastIndexOf? slash body with
  | none => exact ⟨⟨[], body, .inl rfl, Bytes.lastIndexOf?_eq_none.1 found, nonempty⟩, rfl⟩
  | some i =>
    obtain ⟨front, simple, rfl, plain, -⟩ := Bytes.lastIndexOf?_eq_some.1 found
    exact ⟨⟨front ++ [slash], simple, .inr ⟨front, rfl⟩, plain, by simp⟩, by simp [ClassParts.descriptor, ClassParts.body]⟩

end Descriptor

end Dalvik
