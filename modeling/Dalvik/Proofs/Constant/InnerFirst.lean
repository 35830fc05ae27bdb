import Dalvik.Proofs.Constant.ClassName

/-!
# Inner classes first

`orderInnerFirst` departs from `order` where the simple name of the first class goes on with a
dollar sign at the first difference and that of the second does not. Only the first class is looked
at, so `orderInnerFirst a b` and `orderInnerFirst b a` are opposite exactly if both are as in
`order` (`opposite_iff`). For classes of one package this is so unless one simple name goes on with
a dollar sign where the other goes on with something else (`orderInnerFirst_eq_order_iff`). A class
and one nested in it are always opposite (`orderInnerFirst_inner`).
-/

namespace Dalvik.Descriptor

variable {a b c k : Descriptor} {s t simple : Bytes}

/-! ## The order by name -/

theorem order_swap (a b : Descriptor) : order b a = (order a b).swap := Bytes.order_swap a.name b.name

theorem order_self (a : Descriptor) : order a a = .eq := Bytes.order_eq_eq.2 rfl

theorem order_lt_trans (hab : order a b = .lt) (hbc : order b c = .lt) : order a c = .lt := by
  rw [order, Bytes.order_eq_compare] at *
  exact Std.TransCmp.lt_trans hab hbc

/-! ## Where the orders depart -/

/-- Behind a common beginning, the first name goes on with a dollar sign and the second does not. -/
def Turns (s t : Bytes) : Prop := ∃ p r u, p ≠ [] ∧ s = p ++ dollar :: r ∧ t = p ++ u ∧ u.head? ≠ some dollar

theorem Turns.asymm (h : Turns s t) : ¬ Turns t s := by
  obtain ⟨p, r, u, -, rfl, rfl, other⟩ := h
  rintro ⟨q, r', u', -, ht, hs, other'⟩
  rcases List.append_eq_append_iff.1 hs with ⟨e, rfl, rest⟩ | ⟨e, rfl, rest⟩
  · cases e with
    | nil => exact other' (congrArg List.head? rest).symm
    | cons x e =>
      obtain ⟨rfl, -⟩ := List.cons.inj rest
      rw [List.append_assoc] at ht
      exact other (List.append_cancel_left ht ▸ rfl)
  · cases e with
    | nil => exact other' (rest ▸ rfl)
    | cons x e =>
      rw [List.append_assoc] at ht
      obtain ⟨rfl, -⟩ := List.cons.inj (List.append_cancel_left ht)
      exact other' (rest ▸ rfl)

theorem orderInnerFirst_of_turns (h : Turns a.simpleName b.simpleName) :
    orderInnerFirst a b = Bytes.order b.simpleName a.simpleName := by
  have differ : a ≠ b := by
    rintro rfl
    exact h.asymm h
  obtain ⟨p, r, u, nonempty, ha, hb, other⟩ := h
  have start : Bytes.diffStart a.simpleName b.simpleName = some p.length := by
    rw [ha, hb]
    exact Bytes.diffStart_append (fun e => other e.symm) p
  have sign : 0 < p.length ∧ a.simpleName[p.length]? = some dollar :=
    ⟨List.length_pos_iff.2 nonempty, by rw [ha]; simp⟩
  rw [orderInnerFirst, if_neg differ, start]
  exact if_pos sign

theorem orderInnerFirst_of_not_turns (h : ¬ Turns a.simpleName b.simpleName) : orderInnerFirst a b = order a b := by
  unfold orderInnerFirst
  split
  · next same => rw [same, order_self]
  by_cases same : a.simpleName = b.simpleName
  · rw [same, Bytes.diffStart_self]
  · obtain ⟨p, s, t, ha, hb, fork⟩ := Bytes.exists_fork same
    have start : Bytes.diffStart a.simpleName b.simpleName = some p.length := by
      rw [ha, hb, Bytes.diffStart_append fork]
    rw [start]
    refine if_neg fun ⟨pos, sign⟩ => h ?_
    have head : s.head? = some dollar := by
      rwa [ha, List.getElem?_append_right le_rfl, Nat.sub_self, ← List.head?_eq_getElem?] at sign
    obtain ⟨r, rfl⟩ := List.head?_eq_some_iff.1 head
    exact ⟨p, r, t, List.length_pos_iff.1 pos, ha, hb, fun e => fork (head.trans e.symm)⟩

/-- Exchanging the two types reverses the answer of `orderInnerFirst`. -/
def Opposite (a b : Descriptor) : Prop := orderInnerFirst b a = (orderInnerFirst a b).swap

instance : DecidableRel Opposite := fun _ _ => inferInstanceAs (Decidable (_ = _))

/-- Two types are `Opposite` exactly if `orderInnerFirst` agrees with `order` on them both ways. -/
theorem opposite_iff : Opposite a b ↔ orderInnerFirst a b = order a b ∧ orderInnerFirst b a = order b a := by
  rw [Opposite]
  constructor
  · intro opposite
    by_cases turns : Turns a.simpleName b.simpleName
    · have back := orderInnerFirst_of_not_turns turns.asymm
      refine ⟨?_, back⟩
      rw [order_swap b a, ← back, opposite, Ordering.swap_swap]
    · have forth := orderInnerFirst_of_not_turns turns
      refine ⟨forth, ?_⟩
      rw [order_swap a b, ← forth, opposite]
  · rintro ⟨forth, back⟩
    rw [forth, back, order_swap]

/-! ## Classes of one package -/

/-- Behind a common beginning, the first name goes on with a dollar sign and the second with another byte. -/
def Forks (s t : Bytes) : Prop := ∃ p r x u, p ≠ [] ∧ x ≠ dollar ∧ s = p ++ dollar :: r ∧ t = p ++ x :: u

theorem not_forks_append (s t : Bytes) : ¬ Forks (s ++ t) s ∧ ¬ Forks s (s ++ t) := by
  constructor <;> rintro ⟨p, r, x, u, -, other, long, short⟩
  · rw [short, List.append_assoc] at long
    exact other (List.cons.inj (List.append_cancel_left long)).1
  · rw [long, List.append_assoc] at short
    exact other (List.cons.inj (List.append_cancel_left short)).1.symm

theorem order_of_package {c d : ClassParts} (same : c.path = d.path) :
    order c.descriptor d.descriptor = Bytes.order (c.simple ++ [semicolon]) (d.simple ++ [semicolon]) := by
  have name (e : ClassParts) : e.descriptor.name = (letterL :: e.path) ++ (e.simple ++ [semicolon]) := by
    simp [ClassParts.descriptor, ClassParts.body]
  rw [order, name, name, same, Bytes.order_append]

theorem orderInnerFirst_eq_order_iff (ha : a.isDefinition = true) (hb : b.isDefinition = true)
    (same : a.package = b.package) : orderInnerFirst a b = order a b ↔ ¬ Forks a.simpleName b.simpleName := by
  obtain ⟨c, rfl⟩ := exists_parts ha
  obtain ⟨d, rfl⟩ := exists_parts hb
  rw [ClassParts.package_descriptor, ClassParts.package_descriptor] at same
  rw [order_of_package (List.cons.inj same).2]
  have turned := orderInnerFirst_of_turns (a := c.descriptor) (b := d.descriptor)
  have unturned := orderInnerFirst_of_not_turns (a := c.descriptor) (b := d.descriptor)
  rw [order_of_package (List.cons.inj same).2] at unturned
  rw [ClassParts.simpleName_descriptor, ClassParts.simpleName_descriptor] at *
  constructor
  · rintro agree ⟨p, r, x, u, present, other, hc, hd⟩
    rw [turned ⟨p, r, x :: u, present, hc, hd, by simpa using other⟩, hc, hd, List.append_assoc, List.append_assoc,
      Bytes.order_append, Bytes.order_append] at agree
    -- The first bytes decide either way, the other way round.
    have away : Bytes.order (x :: u) (dollar :: r) = (Bytes.order (x :: u) (dollar :: r)).swap := by
      rw [← Bytes.order_swap]
      exact agree.trans (Bytes.order_cons_of_ne other.symm)
    have absent : Bytes.order (x :: u) (dollar :: r) = .eq := by
      generalize Bytes.order (x :: u) (dollar :: r) = o at away
      cases o <;> first | rfl | cases away
    exact other (List.cons.inj (Bytes.order_eq_eq.1 absent)).1
  · intro straight
    by_cases turns : Turns c.simple d.simple
    · rw [turned turns]
      obtain ⟨p, r, u, present, hc, hd, other⟩ := turns
      cases u with
      | nil =>
        rw [hc, hd, List.append_nil, ← List.append_nil p, List.append_assoc, List.append_assoc, List.append_assoc,
          List.append_assoc, Bytes.order_append, Bytes.order_append]
        exact (Bytes.order_of_head_lt (by decide) _ _).symm
      | cons x u => exact absurd ⟨p, r, x, u, present, by simpa using other, hc, hd⟩ straight
    · exact unturned turns

/-- A nested class comes before the class it is nested in. -/
theorem orderInnerFirst_inner (hk : k.isDefinition = true) (nonempty : simple ≠ []) (plain : slash ∉ simple) :
    orderInnerFirst (k.inner simple) k = .lt ∧ orderInnerFirst k (k.inner simple) = .gt := by
  obtain ⟨c, rfl⟩ := exists_parts hk
  rw [c.inner_descriptor nonempty plain]
  have package : (c.nested plain).descriptor.package = c.descriptor.package := by
    rw [ClassParts.package_descriptor, ClassParts.package_descriptor, ClassParts.nested]
  have forks := not_forks_append c.simple (dollar :: simple)
  have less : order (c.nested plain).descriptor c.descriptor = .lt := by
    have path : (c.nested plain).path = c.path := rfl
    rw [order_of_package path, ClassParts.nested, List.append_assoc, Bytes.order_append]
    exact Bytes.order_of_head_lt (by decide) _ _
  rw [(orderInnerFirst_eq_order_iff (c.nested plain).isDefinition_descriptor hk package).2,
    (orderInnerFirst_eq_order_iff hk (c.nested plain).isDefinition_descriptor package.symm).2,
    order_swap (c.nested plain).descriptor, less]
  · exact ⟨rfl, rfl⟩
  · rw [ClassParts.simpleName_descriptor, ClassParts.simpleName_descriptor]
    exact forks.2
  · rw [ClassParts.simpleName_descriptor, ClassParts.simpleName_descriptor]
    exact forks.1

/-! ## Consistency -/

theorem opposite_iff_not_forks (ha : a.isDefinition = true) (hb : b.isDefinition = true) (same : a.package = b.package) :
    Opposite a b ↔ ¬ Forks a.simpleName b.simpleName ∧ ¬ Forks b.simpleName a.simpleName := by
  rw [opposite_iff, orderInnerFirst_eq_order_iff ha hb same, orderInnerFirst_eq_order_iff hb ha same.symm]

theorem Opposite.trans (hab : Opposite a b) (hbc : Opposite b c) (hac : Opposite a c)
    (less : orderInnerFirst a b = .lt) (less' : orderInnerFirst b c = .lt) : orderInnerFirst a c = .lt := by
  rw [(opposite_iff.1 hab).1] at less
  rw [(opposite_iff.1 hbc).1] at less'
  rw [(opposite_iff.1 hac).1]
  exact order_lt_trans less less'

/-- Two types are `Opposite` exactly if `orderInnerFirst` agrees with `order` on them both ways; for classes of one
package, exactly if neither simple name goes on with a dollar sign where the other goes on with another byte. Among
types that are opposite in pairs `orderInnerFirst` is transitive. A class and one nested in it are opposite, and the
nested one comes first. -/
theorem orderInnerFirst_consistent (a b c : Descriptor) :
    (Opposite a b ↔ orderInnerFirst a b = order a b ∧ orderInnerFirst b a = order b a) ∧
      (a.isDefinition = true → b.isDefinition = true → a.package = b.package →
        (Opposite a b ↔ ¬ Forks a.simpleName b.simpleName ∧ ¬ Forks b.simpleName a.simpleName)) ∧
      (Opposite a b → Opposite b c → Opposite a c →
        orderInnerFirst a b = .lt → orderInnerFirst b c = .lt → orderInnerFirst a c = .lt) ∧
      ∀ simple : Bytes, a.isDefinition = true → simple ≠ [] → slash ∉ simple →
        orderInnerFirst (a.inner simple) a = .lt ∧ orderInnerFirst a (a.inner simple) = .gt :=
  ⟨opposite_iff, opposite_iff_not_forks, Opposite.trans, fun _ => orderInnerFirst_inner⟩

/-- `A$1` comes before `A` and before `B`, but `orderInnerFirst` puts both `A$1` behind `AB` and `AB` behind `A$1`. -/
theorem orderInnerFirst_consistent_nested :
    (orderInnerFirst ⟨ascii "LA$1;"⟩ ⟨ascii "LA;"⟩ = .lt ∧ orderInnerFirst ⟨ascii "LA$1;"⟩ ⟨ascii "LB;"⟩ = .lt) ∧
      ¬ Opposite ⟨ascii "LA$1;"⟩ ⟨ascii "LAB;"⟩ ∧ orderInnerFirst ⟨ascii "LA$1;"⟩ ⟨ascii "LAB;"⟩ = .gt ∧
        orderInnerFirst ⟨ascii "LAB;"⟩ ⟨ascii "LA$1;"⟩ = .gt := by
  obtain ⟨-, -, trans, -⟩ := orderInnerFirst_consistent ⟨ascii "LA$1;"⟩ ⟨ascii "LA;"⟩ ⟨ascii "LB;"⟩
  obtain ⟨-, -, -, inner⟩ := orderInnerFirst_consistent ⟨ascii "LA;"⟩ ⟨ascii "LA;"⟩ ⟨ascii "LA;"⟩
  obtain ⟨-, packaged, -, -⟩ := orderInnerFirst_consistent ⟨ascii "LA$1;"⟩ ⟨ascii "LAB;"⟩ ⟨ascii "LA;"⟩
  have first : orderInnerFirst ⟨ascii "LA$1;"⟩ ⟨ascii "LA;"⟩ = .lt :=
    (inner (ascii "1") (by decide) (by decide) (by decide)).1
  have second : orderInnerFirst ⟨ascii "LA$1;"⟩ ⟨ascii "LB;"⟩ = .lt := by
    refine trans ?_ ?_ ?_ first ?_ <;> decide +kernel
  have fork : Forks (simpleName ⟨ascii "LA$1;"⟩) (simpleName ⟨ascii "LAB;"⟩) :=
    ⟨ascii "A", ascii "1", byte 'B', [], by decide, by decide, by decide +kernel, by decide +kernel⟩
  refine ⟨⟨first, second⟩, fun opposite => ?_, by decide +kernel, by decide +kernel⟩
  exact ((packaged (by decide) (by decide) (by decide +kernel)).1 opposite).1 fork

end Dalvik.Descriptor
