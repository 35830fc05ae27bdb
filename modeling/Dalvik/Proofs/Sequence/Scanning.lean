import Dalvik.Proofs.Sequence.Invariant
import Dalvik.Proofs.Sequence.Refreshing

/-!
# Reading items one after the other

`Scan c xs c'` says that the items `xs` are decoded one after the other between two cursors.
`decode` enrols them one by one (`enrolAll`), so that they are in a row: `Rows` gives the item and
the address of every node.
-/

namespace Dalvik.Sequence

open Dalvik.Action (except_bind_eq_ok labelled_eq_ok)

variable {P : Item → Prop} {s t : Sequence} {n m : Nat} {xs : List Item} {ns : List Nat} {a b : Nat}
  {c c' : Cursor}

/-! ## What is read -/

inductive Scan : Cursor → List Item → Cursor → Prop where
  | nil (c : Cursor) : Scan c [] c
  | cons {c c₁ c₂ : Cursor} {x : Item} {xs : List Item} (first : Bytes) (peek : c.peek 2 = .ok first)
      (read : Item.decode (littleEndian first) c = .ok (x, c₁)) (rest : Scan c₁ xs c₂) : Scan c (x :: xs) c₂

theorem Scan.raw (h : Scan c xs c') : ∀ x ∈ xs, x.Raw := by
  induction h with
  | nil => simp
  | cons first peek read rest ih =>
    intro y hy
    rcases List.mem_cons.1 hy with rfl | hy
    · exact Item.raw_of_decode read
    · exact ih y hy

/-- Items are scanned exactly on the bytes they are encoded as. -/
theorem scan_iff (hc : c.Sane) : Scan c xs c' ↔ (∀ x ∈ xs, x.Raw) ∧ c.Spans (xs.flatMap Item.bytes) c' := by
  constructor
  · intro h
    refine ⟨h.raw, ?_⟩
    induction h with
    | nil c => exact Cursor.spans_nil.2 rfl
    | cons first peek read rest ih =>
      obtain ⟨-, spans⟩ := (Item.spans_item hc).1 ⟨first, peek, read⟩
      rw [List.flatMap_cons]
      exact Cursor.spans_append.2 ⟨_, spans, ih (spans.sane hc)⟩
  · induction xs generalizing c with
    | nil =>
      rintro ⟨-, spans⟩
      obtain rfl := Cursor.spans_nil.1 spans
      exact .nil _
    | cons x xs ih =>
      rintro ⟨raw, spans⟩
      rw [List.flatMap_cons] at spans
      obtain ⟨c₁, first, rest⟩ := Cursor.spans_append.1 spans
      obtain ⟨unit, peek, read⟩ := (Item.spans_item hc).2 ⟨raw x List.mem_cons_self, first⟩
      exact .cons unit peek read (ih (first.sane hc) ⟨fun y hy => raw y (List.mem_cons_of_mem _ hy), rest⟩)

/-- The code units of several items. -/
def span (xs : List Item) : Nat := total (xs.map Item.codeUnits)

@[simp] theorem span_nil : span [] = 0 := rfl
@[simp] theorem span_cons (x : Item) (xs : List Item) : span (x :: xs) = x.codeUnits + span xs := rfl

/-! ## Putting items in -/

/-- Appends a new item at an address. -/
def enrol (s : Sequence) (item : Item) (address : Nat) : Sequence :=
  let made := ((s.create item).2.register s.nodes.size).setAddress s.nodes.size address
  { made with items := made.items.push s.nodes.size }

/-- Appends items one after the other, from an address on. -/
def enrolAll (s : Sequence) (address : Nat) : List Item → Sequence
  | [] => s
  | x :: xs => enrolAll (s.enrol x address) (address + x.codeUnits) xs

/-- Every item takes up some room. -/
theorem Scan.of_span_eq_zero (h : Scan c xs c') (empty : span xs = 0) : xs = [] ∧ c = c' := by
  cases h with
  | nil => exact ⟨rfl, rfl⟩
  | cons first peek read rest =>
    have pos := (Item.shaped_of_raw (Item.raw_of_decode read)).codeUnits_pos
    rw [span_cons] at empty
    omega

theorem gives_decodeItems {size fuel used : Nat} (below : used ≤ size) (enough : size ≤ used + fuel) :
    (decodeItems size fuel used c).Gives s c' t ↔
      ∃ xs, Scan c xs c' ∧ used + span xs = size ∧ t = s.enrolAll used xs := by
  induction fuel generalizing c s used with
  | zero =>
    obtain rfl : used = size := by omega
    simp only [decodeItems, Action.gives_pure]
    constructor
    · rintro ⟨rfl, rfl⟩
      exact ⟨[], .nil c, rfl, rfl⟩
    · rintro ⟨xs, scan, fits, rfl⟩
      obtain ⟨rfl, rfl⟩ := scan.of_span_eq_zero (by omega)
      exact ⟨rfl, rfl⟩
  | succ fuel ih =>
    simp only [decodeItems]
    split
    · next more =>
      simp only [Action.gives_bind, Action.gives_lift, Action.gives_modify, labelled_eq_ok]
      constructor
      · rintro ⟨first, _, ⟨peek, rfl⟩, ⟨x, c₁⟩, _, ⟨read, rfl⟩, _, _, rfl, h⟩
        have pos := (Item.shaped_of_raw (Item.raw_of_decode read)).codeUnits_pos
        dsimp only at h
        split at h
        · simp at h
        · obtain ⟨xs, scan, fits, rfl⟩ := (ih (by omega) (by omega)).1 h
          exact ⟨x :: xs, .cons first peek read scan, by rw [span_cons]; omega, rfl⟩
      · rintro ⟨xs, scan, fits, rfl⟩
        cases scan with
        | nil =>
          rw [span_nil] at fits
          omega
        | @cons _ c₁ _ x xs first peek read rest =>
          have pos := (Item.shaped_of_raw (Item.raw_of_decode read)).codeUnits_pos
          rw [span_cons] at fits
          refine ⟨first, s, ⟨peek, rfl⟩, (x, c₁), s, ⟨read, rfl⟩, ⟨⟩, _, rfl, ?_⟩
          dsimp only
          rw [if_neg (by omega)]
          exact (ih (by omega) (by omega)).2 ⟨xs, rest, by omega, rfl⟩
    · next done =>
      obtain rfl : used = size := by omega
      simp only [Action.gives_pure]
      constructor
      · rintro ⟨rfl, rfl⟩
        exact ⟨[], .nil c, rfl, rfl⟩
      · rintro ⟨xs, scan, fits, rfl⟩
        obtain ⟨rfl, rfl⟩ := scan.of_span_eq_zero (by omega)
        exact ⟨rfl, rfl⟩

/-! ## What stands in the sequence afterwards -/

/-- The nodes hold the given items, each where the one before it ends. -/
inductive Rows (s : Sequence) : Nat → List Nat → List Item → Nat → Prop where
  | nil (a : Nat) : Rows s a [] [] a
  | cons {a b n : Nat} {x : Item} {ns : List Nat} {xs : List Item} (item : s.item? n = some x)
      (address : s.address? n = some (a : Int)) (rest : Rows s (a + x.codeUnits) ns xs b) : Rows s a (n :: ns) (x :: xs) b

theorem Rows.congr (h : Rows s a ns xs b) (items : ∀ n ∈ ns, t.item? n = s.item? n)
    (addresses : ∀ n ∈ ns, t.address? n = s.address? n) : Rows t a ns xs b := by
  induction h with
  | nil a => exact .nil a
  | @cons a b n x ns xs item address rest ih =>
    refine .cons ?_ ?_ (ih (fun m hm => items m (List.mem_cons_of_mem _ hm)) fun m hm => addresses m (List.mem_cons_of_mem _ hm))
    · rw [items n List.mem_cons_self, item]
    · rw [addresses n List.mem_cons_self, address]

theorem Rows.snoc {x : Item} (h : Rows s a ns xs b) (item : s.item? n = some x) (address : s.address? n = some (b : Int)) :
    Rows s a (ns ++ [n]) (xs ++ [x]) (b + x.codeUnits) := by
  induction h with
  | nil a => exact .cons item address (.nil _)
  | cons item' address' rest ih => exact .cons item' address' (ih address)

section Enrol

variable (s : Sequence) (x : Item) (a : Nat)

theorem item?_enrol : (s.enrol x a).item? m = if m = s.nodes.size then some x else s.item? m := by
  change (((s.create x).2.register s.nodes.size).setAddress s.nodes.size a).item? m = _
  rw [item?_setAddress, item?_register, item?_create]

theorem address?_enrol : (s.enrol x a).address? m = if m = s.nodes.size then some (a : Int) else s.address? m := by
  change (((s.create x).2.register s.nodes.size).setAddress s.nodes.size a).address? m = _
  rw [address?_eq_shape?, shape?_setAddress, shape?_register, shape?_create, address?_eq_shape?]
  by_cases e : m = s.nodes.size
  · simp [e]
  · simp [e, Ne.symm e]

theorem items_enrol : (s.enrol x a).items.toList = s.items.toList ++ [s.nodes.size] := by
  change (((s.create x).2.register s.nodes.size).items.push s.nodes.size).toList = _
  rw [items_register, items_create, Array.toList_push]

theorem linked_enrol (h : Linked s s.items.toList) : Linked (s.enrol x a) (s.enrol x a).items.toList := by
  rw [items_enrol]
  exact (((h.create_register x).setAddress s.nodes.size a).perm (List.perm_append_singleton _ _).symm).congr (fun _ => rfl) rfl

end Enrol

theorem holds_enrol {x : Item} (hx : P x) (h : Holds P s) : Holds P (s.enrol x a) := by
  intro m y hy
  rw [item?_enrol] at hy
  split at hy
  · cases hy
    exact hx
  · exact h m y hy

theorem sound_enrolAll (items : ∀ x ∈ xs, P x) (h : Sound P s) : Sound P (s.enrolAll a xs) := by
  induction xs generalizing s a with
  | nil => exact h
  | cons x xs ih =>
    refine ih (fun y hy => items y (List.mem_cons_of_mem _ hy)) ⟨linked_enrol s x a h.linked, ?_⟩
    exact holds_enrol (items x List.mem_cons_self) h.holds

theorem rows_enrolAll (xs : List Item) {ys : List Item} (linked : Linked s s.items.toList) (h : Rows s 0 s.items.toList ys a) :
    Rows (s.enrolAll a xs) 0 (s.enrolAll a xs).items.toList (ys ++ xs) (a + span xs) := by
  induction xs generalizing s a ys with
  | nil => simpa [enrolAll] using h
  | cons x xs ih =>
    have old : ∀ m ∈ s.items.toList, m ≠ s.nodes.size := by
      rintro m hm rfl
      obtain ⟨y, hy⟩ := linked.node?_of_mem hm
      rw [node?_size] at hy
      cases hy
    have next : Rows (s.enrol x a) 0 (s.enrol x a).items.toList (ys ++ [x]) (a + x.codeUnits) := by
      rw [items_enrol]
      refine (h.congr (fun m hm => ?_) fun m hm => ?_).snoc ?_ ?_
      · rw [item?_enrol, if_neg (old m hm)]
      · rw [address?_enrol, if_neg (old m hm)]
      · rw [item?_enrol, if_pos rfl]
      · rw [address?_enrol, if_pos rfl]
    have all := ih (linked_enrol s x a linked) next
    rw [List.append_assoc, List.singleton_append, Nat.add_assoc] at all
    exact all

/-! ## Starting from nothing -/

theorem sound_clear (h : Holds P s) : Sound P s.clear := by
  have gone : ∀ n, s.clear.handle? n = none := by
    intro n
    simp only [handle?, node?, clear, Array.getElem?_map]
    cases s.nodes[n]? <;> rfl
  refine ⟨⟨List.nodup_nil, fun n => ?_, fun n k => ?_⟩, h.congr fun n => ?_⟩
  · rw [gone]
    simp [clear]
  · rw [gone]
    simp [clear]
  · simp only [item?, node?, clear, Array.getElem?_map]
    cases s.nodes[n]? <;> rfl

/-- The sequence with these items and nothing else, before any offset is looked at. -/
def scanned (s : Sequence) (xs : List Item) : Sequence := { s.clear.enrolAll 0 xs with units := span xs }

theorem sound_scanned (items : ∀ x ∈ xs, P x) (h : Holds P s) : Sound P (s.scanned xs) :=
  (sound_enrolAll items (sound_clear h)).congr rfl rfl rfl

theorem fields_enrolAll (s : Sequence) (a : Nat) (xs : List Item) :
    (s.enrolAll a xs).depth = s.depth ∧ (s.enrolAll a xs).size = s.size ∧ (s.enrolAll a xs).pool = s.pool ∧
      (s.enrolAll a xs).moves = s.moves := by
  induction xs generalizing s a with
  | nil => exact ⟨rfl, rfl, rfl, rfl⟩
  | cons x xs ih =>
    obtain ⟨depth, size, pool, moves⟩ := ih (s.enrol x a) (a + x.codeUnits)
    simp only [enrolAll, depth, size, pool, moves]
    simp [enrol]

theorem fields_scanned (s : Sequence) (xs : List Item) :
    (s.scanned xs).depth = s.depth ∧ (s.scanned xs).size = s.size ∧ (s.scanned xs).pool = s.pool ∧
      (s.scanned xs).moves = s.moves := fields_enrolAll s.clear 0 xs

theorem rows_scanned (s : Sequence) (xs : List Item) : Rows (s.scanned xs) 0 (s.scanned xs).items.toList xs (span xs) := by
  have linked : Linked s.clear s.clear.items.toList := (sound_clear (P := fun _ => True) (s := s) fun _ _ _ => trivial).linked
  have rows := rows_enrolAll xs linked (.nil 0)
  rw [List.nil_append, Nat.zero_add] at rows
  exact rows.congr (fun _ _ => rfl) fun _ _ => rfl

end Dalvik.Sequence
