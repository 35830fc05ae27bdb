import Dalvik.Proofs.Constant.TypeName
import Dalvik.Proofs.Pool
import Dalvik.Proofs.Text.Utf16

/-!
# The order of constants

`sortKey` gives the numbers by which a constant is compared, field by field: its kind, whether it is
a raw index, and then its text or value. On `Comparable` constants, `order` is the lexicographic
order of these keys (`order_eq_compare`), and different constants have different keys
(`sortKey_injective`), so `order` is total (`order_total`). A raw index is compared with a constant
of its kind by their texts; the text of a raw index begins with a lower-case letter, and no text of
a constant of its kind does (`order_text_raw`).
-/

namespace Dalvik.Constant

open Std (compare_self)

variable {a b c : Constant} {k : Kind} {i : Int}

/-- Well-formed strings, valid descriptors and what is made of them, literals other than floating-point numbers, null,
and raw indices of the other kinds. -/
def Comparable : Constant → Prop
  | .string s => Utf8.isValid s
  | .type t => Descriptor.isValid t.name
  | .proto p => p.WellFormed
  | .field f => Descriptor.isValid f.owner.name ∧ Descriptor.isValid f.type.name
  | .method m => Descriptor.isValid m.owner.name ∧ m.proto.WellFormed
  | .literal p => p.kind ≠ .float ∧ p.kind ≠ .double
  | .null => True
  | .raw k _ => k ∈ Kind.all ∧ k ≠ .primitive ∧ k ≠ .null

/-! ## Sort keys -/

section Numbers

variable {α : Type} [Ord α] [LE α] [LT α] [Std.LawfulOrderOrd α] [Std.LawfulOrderLT α] [Std.LawfulEqOrd α] {f : α → Int}

theorem compare_number (mono : ∀ {x y}, x < y → f x < f y) (x y : α) : compare (f x) (f y) = compare x y := by
  cases e : compare x y with
  | lt => exact Std.compare_eq_lt.2 (mono (Std.compare_eq_lt.1 e))
  | gt => exact Std.compare_eq_gt.2 (mono (Std.compare_eq_gt.1 e))
  | eq => rw [Std.compare_eq_iff_eq.1 e, compare_self]

theorem compare_numbers (mono : ∀ {x y}, x < y → f x < f y) (xs ys : List α) : compare (xs.map f) (ys.map f) = compare xs ys := by
  induction xs generalizing ys with
  | nil => cases ys <;> rfl
  | cons x xs ih =>
    cases ys with
    | nil => rfl
    | cons y ys => rw [List.map_cons, List.map_cons, List.compare_cons_cons, List.compare_cons_cons, compare_number mono, ih]

end Numbers

def byteValues (s : Bytes) : List Int := s.map fun x => (x.toNat : Int)

def unitValues (us : List UInt16) : List Int := us.map fun u => (u.toNat : Int)

theorem compare_byteValues (s t : Bytes) : compare (byteValues s) (byteValues t) = Bytes.order s t := by
  rw [Bytes.order_eq_compare]
  exact compare_numbers (fun less => Int.ofNat_lt.2 (UInt8.lt_iff_toNat_lt.1 less)) s t

theorem compare_unitValues (us ws : List UInt16) : compare (unitValues us) (unitValues ws) = Utf16.order us ws := by
  rw [Utf16.order_eq_compare]
  exact compare_numbers (fun less => Int.ofNat_lt.2 (UInt16.lt_iff_toNat_lt.1 less)) us ws

theorem byteValues_inj {s t : Bytes} : byteValues s = byteValues t ↔ s = t :=
  (List.map_injective_iff.2 fun _ _ e => UInt8.toNat_inj.1 (Int.ofNat_inj.1 e)).eq_iff

theorem unitValues_inj {us ws : List UInt16} : unitValues us = unitValues ws ↔ us = ws :=
  (List.map_injective_iff.2 fun _ _ e => UInt16.toNat_inj.1 (Int.ofNat_inj.1 e)).eq_iff

/-- What a constant is compared by within its kind. -/
def fields : Constant → List (List Int)
  | .string s => [unitValues (Utf16.ofBytes s)]
  | .type t => [byteValues t.name]
  | .proto p => [byteValues p.result.name, byteValues p.params]
  | .field f => [byteValues f.owner.name, byteValues f.name, byteValues f.type.name]
  | .method m => [byteValues m.owner.name, byteValues m.name, byteValues m.proto.result.name, byteValues m.proto.params]
  | .literal p => [[p.kind.number, p.toLong]]
  | .null => []
  | .raw _ i => [[i]]

def isRaw : Constant → Bool
  | .raw _ _ => true
  | _ => false

/-- The numbers by which a constant is compared: its kind, resolved before raw, and its `fields`. -/
def sortKey (a : Constant) : List (List Int) := [a.kind.number, if a.isRaw then 1 else 0] :: a.fields

/-! ## Constants of one shape -/

/-- Both constants are resolved and of one kind, or both are raw indices of one kind. -/
inductive Alike : Constant → Constant → Prop
  | string (s t : Bytes) : Alike (.string s) (.string t)
  | type (t u : Descriptor) : Alike (.type t) (.type u)
  | proto (p q : Prototype) : Alike (.proto p) (.proto q)
  | field (f g : FieldRef) : Alike (.field f) (.field g)
  | method (m n : MethodRef) : Alike (.method m) (.method n)
  | literal (p q : Literal) : Alike (.literal p) (.literal q)
  | null : Alike .null .null
  | raw (k : Kind) (i j : Int) : Alike (.raw k i) (.raw k j)

theorem alike_of_kind (same : a.kind = b.kind) (raw : a.isRaw = b.isRaw) : Alike a b := by
  cases a <;> cases b <;> cases same <;> cases raw <;> constructor

theorem order_literal {p : Literal} (hp : p.kind ≠ .float ∧ p.kind ≠ .double) (q : Literal) :
    p.order q = (compare (p.kind.number : Int) q.kind.number).then (compare p.toLong q.toLong) := by
  have number : compare (p.kind.number : Int) q.kind.number = compare p.kind.number q.kind.number :=
    compare_number (f := fun n : Nat => (n : Int)) Int.ofNat_lt.2 _ _
  rw [Literal.order, number]
  split
  · next float => exact absurd float hp.1
  · next double => exact absurd double hp.2
  · rfl

/-- `orderAgainst` of two constants of one shape compares their `fields`. -/
theorem orderAgainst_alike (ha : a.Comparable) (h : Alike a b) : a.orderAgainst b = compare a.fields b.fields := by
  cases h with
  | string s t =>
    simp only [fields, List.compare_cons_cons, compare_unitValues, compare_self, Ordering.then_eq, orderAgainst]
  | type t u =>
    simp only [fields, List.compare_cons_cons, compare_byteValues, compare_self, Ordering.then_eq, orderAgainst, Descriptor.order]
  | proto p q =>
    simp only [fields, List.compare_cons_cons, compare_byteValues, compare_self, Ordering.then_eq, orderAgainst, Prototype.order,
      Descriptor.order]
  | field f g =>
    simp only [fields, List.compare_cons_cons, compare_byteValues, compare_self, Ordering.then_eq, orderAgainst, FieldRef.order,
      Descriptor.order, Ordering.then_assoc]
  | method m n =>
    simp only [fields, List.compare_cons_cons, compare_byteValues, compare_self, Ordering.then_eq, orderAgainst, MethodRef.order,
      Prototype.order, Descriptor.order, Ordering.then_assoc]
  | literal p q =>
    simp only [fields, List.compare_cons_cons, compare_self, Ordering.then_eq, orderAgainst, order_literal ha]
  | null => rfl
  | raw k i j => simp only [fields, List.compare_cons_cons, compare_self, Ordering.then_eq, orderAgainst, if_true]

theorem eq_of_literal {p q : Literal} (kind : p.kind.number = q.kind.number) (value : p.toLong = q.toLong) : p = q := by
  have bits : p.bits = q.bits := by
    rw [← UInt64.toUInt64_toInt64 p.bits, Int64.toInt_inj.1 value, UInt64.toUInt64_toInt64]
  have numbers : ∀ k l : LiteralKind, k.number = l.number → k = l := by
    intro k l h
    cases k <;> cases l <;> first | rfl | cases h
  obtain ⟨k, u⟩ := p
  obtain ⟨l, v⟩ := q
  exact Literal.mk.injEq .. ▸ ⟨numbers k l kind, bits⟩

theorem eq_of_fields (ha : a.Comparable) (hb : b.Comparable) (h : Alike a b) (same : a.fields = b.fields) : a = b := by
  cases h with
  | string s t =>
    have units : Utf16.ofBytes s = Utf16.ofBytes t := unitValues_inj.1 (List.singleton_inj.1 same)
    rw [← Utf16.text_ofBytes ha, units, Utf16.text_ofBytes hb]
  | type t u =>
    obtain ⟨t⟩ := t
    obtain ⟨u⟩ := u
    simpa [fields, byteValues_inj] using same
  | proto p q =>
    obtain ⟨⟨_⟩, _⟩ := p
    obtain ⟨⟨_⟩, _⟩ := q
    simpa [fields, byteValues_inj] using same
  | field f g =>
    obtain ⟨⟨_⟩, _, ⟨_⟩⟩ := f
    obtain ⟨⟨_⟩, _, ⟨_⟩⟩ := g
    simpa [fields, byteValues_inj] using same
  | method m n =>
    obtain ⟨⟨_⟩, _, ⟨_⟩, _⟩ := m
    obtain ⟨⟨_⟩, _, ⟨_⟩, _⟩ := n
    simpa [fields, byteValues_inj] using same
  | literal p q =>
    obtain ⟨kind, value⟩ : p.kind.number = q.kind.number ∧ p.toLong = q.toLong := by simpa [fields] using same
    exact congrArg literal (eq_of_literal kind value)
  | null => rfl
  | raw k i j => simpa [fields] using same

/-! ## Raw indices -/

/-- The text of a resolved constant, other than a literal and null, begins with a byte below `'a'`. -/
theorem exists_head_text (ha : a.Comparable) (resolved : a.isRaw = false) (kind : a.kind ≠ .primitive ∧ a.kind ≠ .null) :
    ∃ x r, a.text = x :: r ∧ x < byte 'a' := by
  have owner : ∀ {d : Bytes} (rest : Bytes), Descriptor.isValid d = true → ∃ x r, d ++ rest = x :: r ∧ x < byte 'a' := by
    intro d rest valid
    obtain ⟨x, r, rfl, opening⟩ := Descriptor.exists_opening valid
    exact ⟨x, r ++ rest, rfl, opening.upper⟩
  cases a with
  | string s => exact ⟨_, _, rfl, by decide⟩
  | type t =>
    obtain ⟨x, r, e, opening⟩ := Descriptor.exists_opening ha
    exact ⟨x, r, e, opening.upper⟩
  | proto p => exact ⟨_, _, rfl, by decide⟩
  | field f =>
    rw [text, FieldRef.text, List.append_assoc, List.append_assoc]
    exact owner _ ha.1
  | method m =>
    rw [text, MethodRef.text, List.append_assoc, List.append_assoc]
    exact owner _ ha.1
  | literal p => exact absurd rfl kind.1
  | null => exact absurd rfl kind.2
  | raw k i => cases resolved

theorem exists_head_rawText (hk : k ∈ Kind.all) (i : Int) : ∃ x r, rawText k i = x :: r ∧ byte 'a' ≤ x := by
  have letter : ∀ k ∈ Kind.all, ∃ x ∈ k.name.head?, byte 'a' ≤ x := by decide
  obtain ⟨x, head, small⟩ := letter k hk
  obtain ⟨r, name⟩ := List.head?_eq_some_iff.1 head
  exact ⟨x, r ++ ascii "@0x" ++ hex i, by rw [rawText, name]; rfl, small⟩

/-- The text of a resolved constant comes before the text of any raw index of its kind. -/
theorem order_text_raw (ha : a.Comparable) (resolved : a.isRaw = false) (hb : b.Comparable) (raw : b.isRaw = true)
    (same : a.kind = b.kind) : Bytes.order a.text b.text = .lt := by
  cases b with
  | raw k i =>
    obtain rfl : a.kind = k := same
    obtain ⟨x, s, head, upper⟩ := exists_head_text ha resolved hb.2
    obtain ⟨y, t, head', lower⟩ := exists_head_rawText hb.1 i
    rw [head, text, head', Bytes.order_of_head_lt (UInt8.lt_of_lt_of_le upper lower)]
  | _ => cases raw

theorem orderAgainst_eq_foreignOrder (differ : a.isRaw ≠ b.isRaw) : a.orderAgainst b = foreignOrder a b := by
  cases a <;> cases b <;> first | rfl | exact absurd rfl differ

/-! ## The order -/

theorem Comparable.kind_mem (ha : a.Comparable) : a.kind ∈ Kind.all := by
  cases a with
  | raw k i => exact ha.1
  | _ => simp [kind, Kind.all]

theorem number_inj {l : Kind} (hk : k ∈ Kind.all) (hl : l ∈ Kind.all) : k.number = l.number ↔ k = l := by
  have all : ∀ k ∈ Kind.all, ∀ l ∈ Kind.all, k.number = l.number → k = l := by decide
  exact ⟨all k hk l hl, congrArg Kind.number⟩

theorem order_eq_compare (ha : a.Comparable) (hb : b.Comparable) : a.order b = compare a.sortKey b.sortKey := by
  rw [order, sortKey, sortKey, List.compare_cons_cons, List.compare_cons_cons, List.compare_cons_cons]
  split
  · next same =>
    rw [same, compare_self, Ordering.eq_then]
    cases hra : a.isRaw <;> cases hrb : b.isRaw
    · exact orderAgainst_alike ha (alike_of_kind same (hra.trans hrb.symm))
    · rw [orderAgainst_eq_foreignOrder (by simp [hra, hrb]), foreignOrder, same, compare_self, order_text_raw ha hra hb hrb same]
      rfl
    · rw [orderAgainst_eq_foreignOrder (by simp [hra, hrb]), foreignOrder, same, compare_self, Bytes.order_swap,
        order_text_raw hb hrb ha hra same.symm]
      rfl
    · exact orderAgainst_alike ha (alike_of_kind same (hra.trans hrb.symm))
  · next other =>
    have differ : a.kind.number ≠ b.kind.number := fun e => other ((number_inj ha.kind_mem hb.kind_mem).1 e)
    cases e : compare a.kind.number b.kind.number with
    | lt => rfl
    | gt => rfl
    | eq => exact absurd (Std.compare_eq_iff_eq.1 e) differ

theorem sortKey_injective (ha : a.Comparable) (hb : b.Comparable) (same : a.sortKey = b.sortKey) : a = b := by
  obtain ⟨start, fields⟩ := List.cons.inj same
  obtain ⟨number, flag⟩ := List.cons.inj start
  have raw : a.isRaw = b.isRaw := by
    cases hra : a.isRaw <;> cases hrb : b.isRaw <;> simp [hra, hrb] at flag ⊢
  exact eq_of_fields ha hb (alike_of_kind ((number_inj ha.kind_mem hb.kind_mem).1 number) raw) fields

/-- For `Comparable` constants, exchanging the arguments of `order` reverses its answer, `order` is transitive, and it
answers `eq` exactly for equal constants. -/
theorem order_total (ha : a.Comparable) (hb : b.Comparable) (hc : c.Comparable) :
    order b a = (order a b).swap ∧ ((order a b).isLE → (order b c).isLE → (order a c).isLE) ∧ (order a b = .eq ↔ a = b) := by
  rw [order_eq_compare hb ha, order_eq_compare ha hb, order_eq_compare hb hc, order_eq_compare ha hc]
  refine ⟨Std.OrientedCmp.eq_swap, Std.TransCmp.isLE_trans, ?_⟩
  rw [Std.compare_eq_iff_eq]
  exact ⟨sortKey_injective ha hb, congrArg sortKey⟩

/-- Two strings whose UTF-16 order is not that of their bytes, and a raw index. -/
theorem order_total_strings :
    let a := string [0xf0, 0x90, 0x80, 0x80]
    let b := string [0xef, 0xbf, 0xbf]
    let c := raw .string 0
    (a.Comparable ∧ b.Comparable ∧ c.Comparable) ∧ (order a b).isLE ∧ (order b c).isLE ∧
      order b a = (order a b).swap ∧ (order a c).isLE ∧ ¬ order a b = .eq := by
  intro a b c
  have ha : a.Comparable := show Utf8.isValid _ = true by decide +kernel
  have hb : b.Comparable := show Utf8.isValid _ = true by decide +kernel
  have hc : c.Comparable := ⟨by decide, by decide, by decide⟩
  have hab : (order a b).isLE := by decide +kernel
  have hbc : (order b c).isLE := by decide +kernel
  obtain ⟨swap, trans, eq⟩ := order_total ha hb hc
  exact ⟨⟨ha, hb, hc⟩, hab, hbc, swap, trans hab hbc, fun same => absurd (eq.1 same) (by decide)⟩

end Dalvik.Constant
