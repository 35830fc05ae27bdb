import Dalvik.Code.Payload
import Dalvik.Proofs.Table.Sorting
import Mathlib.Data.List.InsertIdx

/-!
# Tables as plain lists

Every call on a table is described by what it does to a plain list (`Plain`), whose elements carry
the number they were made under. After any calls the table holds the elements of that list, its
count is their number, and each element has the parent it should have (`items_of_calls`).
-/

namespace Dalvik.Table

variable {α β : Type}

/-! ## Plain lists -/

/-- A list of elements, each with the number it was made under. -/
structure Plain (α : Type) where
  items : List (Nat × α) := []
  /-- The number of elements made so far. -/
  made : Nat := 0
  /-- Whether an owner was set. -/
  owned : Bool := false

namespace Plain

def contents (p : Plain α) : List α := p.items.map Prod.snd

/-- Makes elements and inserts them at position `n`. -/
def insert (p : Plain α) (n : Nat) (vs : List α) : Plain α :=
  { p with
    items := p.items.take n ++ (List.range' p.made vs.length).zip vs ++ p.items.drop n
    made := p.made + vs.length }

def append (p : Plain α) (v : α) : Plain α := p.insert p.items.length [v]

def resize (p : Plain α) (n : Nat) (fresh : α) : Plain α :=
  insert { p with items := p.items.take n } n (List.replicate (n - p.items.length) fresh)

def sort (p : Plain α) (cmp : α → α → Ordering) : Plain α :=
  { p with items := p.items.mergeSort fun x y => cmp x.2 y.2 != .gt }

end Plain

/-! ## Calls -/

/-- The calls on a table. An element is removed by its number; a table is sorted by a total preorder, since sorting is
not specified otherwise, along with a parallel table of any size; and the count may have any value when a table is
decoded, since it is decoded before. -/
inductive Call (α β : Type) where
  | createNext
  | add (v : α)
  | insert (i : Int) (v : α)
  | remove (s : Nat)
  | removeAt (i : Int)
  | removeIf (p : α → Bool)
  | setSize (n : Int)
  | clear
  | sort (cmp : α → α → Ordering) (preorder : Std.TransCmp cmp)
  | sortWith (cmp : α → α → Ordering) (preorder : Std.TransCmp cmp) (u : Table β)
  | setOwner
  | decode (count : Cell) (c : Cursor)

namespace Call

section

variable (fresh : α) (element : Cursor → Action α Cursor)

/-- What a call does to a table; a decoding leaves what it has read, also if it fails. -/
def onTable (t : Table α) : Call α β → Except Stop (Table α)
  | createNext => .ok (t.push fresh)
  | add v => .ok ((t.create v).2.attach (t.create v).1)
  | insert i v => t.insert i v
  | remove s => .ok (t.remove s).2
  | removeAt i => (t.removeAt i).map Prod.snd
  | removeIf p => .ok (t.removeIf p).2
  | setSize n => .ok (t.resize n fresh)
  | clear => .ok t.clear
  | sort cmp _ => (t.sort cmp).map Prod.snd
  | sortWith cmp _ u => (t.sortWith cmp u).map fun r => r.2.1
  | setOwner => .ok t.setOwner
  | decode count c => .ok ((Table.decode fresh element c).apply { t with count := some count }).2

/-- What a call does to a plain list, or `none` if it cannot be done. -/
def onList (p : Plain α) : Call α β → Option (Plain α)
  | createNext => some (p.append fresh)
  | add v => some (p.append v)
  | insert i v => if 0 ≤ i ∧ i ≤ p.items.length then some (p.insert i.toNat [v]) else none
  | remove s => some { p with items := p.items.eraseP fun x => x.1 == s }
  | removeAt i => if 0 ≤ i ∧ i < p.items.length then some { p with items := p.items.eraseIdx i.toNat } else none
  | removeIf q => some { p with items := p.items.filter fun x => !q x.2 }
  | setSize n => some (p.resize n.toNat fresh)
  | clear => some { p with items := [] }
  | sort cmp _ => some (p.sort cmp)
  | sortWith cmp _ u =>
    if p.contents.Pairwise (fun x y => cmp x y ≠ .gt) ∨ u.size = p.items.length then some (p.sort cmp) else none
  | setOwner => some { p with owned := true }
  | decode count c =>
    let q := p.resize count.get.toNat fresh
    some { q with items := (q.items.map Prod.fst).zip (decodeEach element 0 q.contents c).2 }

end

end Call

/-! ## Tables and lists -/

/-- The table has the elements of the list, and the parent of each element, listed or removed, is as it should be. -/
structure Holds (t : Table α) (p : Plain α) : Prop where
  nodup : t.order.Nodup
  order : t.order = p.items.map Prod.fst
  value : ∀ x ∈ p.items, t.value? x.1 = some x.2
  made : t.slots.size = p.made
  owned : t.owned = p.owned
  parent : ∀ s, t.parent s = if s ∈ t.order then t.home else .none

namespace Holds

variable {t : Table α} {p : Plain α} {front back kept : List (Nat × α)}

theorem items (h : Holds t p) : t.items = p.items := items_of_order h.order h.value

theorem size (h : Holds t p) : t.size = p.items.length := by
  rw [Table.size, h.order, List.length_map]

theorem whole (h : Holds t p) : Whole t where
  nodup := h.nodup
  filled s hs := by
    rw [h.order] at hs
    obtain ⟨x, hx, rfl⟩ := List.mem_map.1 hs
    rw [h.value x hx, Option.isSome_some]

theorem values (h : Holds t p) : t.values = p.contents := by
  rw [← map_snd_items, h.items, Plain.contents]

theorem withCount (h : Holds t p) (count : Option Cell) : Holds { t with count } p := ⟨h.1, h.2, h.3, h.4, h.5, h.6⟩

/-- Removing elements from the order clears their parents. -/
theorem thin (h : Holds t p) (sub : kept.Sublist p.items) (gone : List Nat)
    (all : ∀ s, s ∈ gone ↔ s ∈ t.order ∧ s ∉ kept.map Prod.fst) :
    Holds { t with order := kept.map Prod.fst, slots := gone.foldl (place .none) t.slots } { p with items := kept } where
  nodup := by
    have nodup := h.nodup
    rw [h.order] at nodup
    exact nodup.sublist (sub.map _)
  order := rfl
  value x hx := (getElem?_placeAll _ _ _ _).trans (h.value x (sub.subset hx))
  made := (size_placeAll _ _ _).trans h.made
  owned := h.owned
  parent s := by
    have before := h.parent s
    have listed : s ∈ kept.map Prod.fst → s ∈ t.order := fun hs => h.order ▸ (sub.map Prod.fst).subset hs
    simp only [Table.parent] at before ⊢
    rw [getElem?_placeAll_parent]
    by_cases hs : s ∈ gone
    · rw [if_pos hs, if_neg ((all s).1 hs).2]
      cases t.slots[s]? <;> rfl
    · rw [if_neg hs, before]
      by_cases hk : s ∈ kept.map Prod.fst
      · rw [if_pos (listed hk), if_pos hk]
        rfl
      · rw [if_neg fun ho => hs ((all s).2 ⟨ho, hk⟩), if_neg hk]

/-- New elements stand where they are inserted, and have the parent that the others have. -/
theorem insert (h : Holds t p) (n : Nat) (vs : List α) :
    Holds { t with
      slots := t.slots ++ (vs.map (Slot.mk t.home)).toArray
      order := t.order.take n ++ List.range' t.slots.size vs.length ++ t.order.drop n } (p.insert n vs) where
  nodup := by
    have apart : ∀ a ∈ t.order, ∀ b ∈ List.range' t.slots.size vs.length, a ≠ b := by
      rintro a ha b hb rfl
      have := h.whole.lt_size ha
      have := (List.mem_range'_1.1 hb).1
      omega
    have moved : (t.order.take n ++ List.range' t.slots.size vs.length ++ t.order.drop n).Perm
        (t.order ++ List.range' t.slots.size vs.length) := by
      have behind : (List.range' t.slots.size vs.length ++ t.order.drop n).Perm
          (t.order.drop n ++ List.range' t.slots.size vs.length) := List.perm_append_comm
      have swap := behind.append_left (t.order.take n)
      rwa [← List.append_assoc, ← List.append_assoc, List.take_append_drop] at swap
    exact moved.nodup_iff.2 (List.nodup_append.2 ⟨h.nodup, List.nodup_range', apart⟩)
  order := by
    have length : (List.range' p.made vs.length).length ≤ vs.length := Nat.le_of_eq List.length_range'
    simp only [Plain.insert, List.map_append, List.map_take, List.map_drop, List.map_fst_zip length, h.order, h.made]
  value x hx := by
    have old : x ∈ p.items → (t.slots ++ (vs.map (Slot.mk t.home)).toArray)[x.1]?.map Slot.value = some x.2 := by
      intro hx
      have inside : x.1 < t.slots.size := h.whole.lt_size (h.order ▸ List.mem_map_of_mem hx)
      rw [Array.getElem?_append_left inside]
      exact h.value x hx
    simp only [Plain.insert, List.mem_append] at hx
    rcases hx with (hx | hx) | hx
    · exact old (List.mem_of_mem_take hx)
    · obtain ⟨j, hj⟩ := List.mem_iff_getElem?.1 hx
      obtain ⟨number, new⟩ := List.getElem?_zip_eq_some.1 hj
      obtain ⟨inside, number⟩ := List.getElem?_eq_some_iff.1 number
      rw [List.getElem_range', ← h.made] at number
      change (t.slots ++ (vs.map (Slot.mk t.home)).toArray)[x.1]?.map Slot.value = some x.2
      rw [← number, Array.getElem?_append_right (by omega)]
      simp [new]
    · exact old (List.mem_of_mem_drop hx)
  made := by
    simp [Plain.insert, h.made]
  owned := h.owned
  parent s := by
    have before := h.parent s
    have listed : s ∈ t.order.take n ++ List.range' t.slots.size vs.length ++ t.order.drop n ↔
        s ∈ t.order ∨ t.slots.size ≤ s ∧ s < t.slots.size + vs.length := by
      nth_rewrite 3 [← List.take_append_drop n t.order]
      simp only [List.mem_append, List.mem_range'_1]
      tauto
    simp only [Table.parent, listed] at before ⊢
    by_cases inside : s < t.slots.size
    · rw [Array.getElem?_append_left inside, before]
      have : ¬ (t.slots.size ≤ s ∧ s < t.slots.size + vs.length) := by omega
      simp only [this, or_false]
      rfl
    · have fresh : s ∉ t.order := fun hs => inside (h.whole.lt_size hs)
      rw [Array.getElem?_append_right (by omega)]
      by_cases new : s < t.slots.size + vs.length
      · rw [if_pos (.inr ⟨by omega, new⟩)]
        simp [show s - t.slots.size < vs.length by omega]
        rfl
      · rw [if_neg (by simp only [fresh, new, and_false, or_self, not_false_iff])]
        simp [show ¬ s - t.slots.size < vs.length by omega]

/-- Reordering changes no parent. -/
theorem rearrange (h : Holds t p) {items : List (Nat × α)} (perm : items.Perm p.items) :
    Holds { t with order := items.map Prod.fst } { p with items } where
  nodup := by
    have nodup := h.nodup
    rw [h.order] at nodup
    exact (perm.map _).nodup_iff.2 nodup
  order := rfl
  value x hx := h.value x (perm.mem_iff.1 hx)
  made := h.made
  owned := h.owned
  parent s := by
    have same : s ∈ t.order ↔ s ∈ items.map Prod.fst := by
      rw [h.order]
      exact (perm.map Prod.fst).mem_iff.symm
    have before := h.parent s
    simp only [same] at before
    exact before

/-- Changing the value of an element keeps its place. -/
theorem store (h : Holds t p) {s : Nat} {x : α} (split : p.items = front ++ (s, x) :: back) (y : α) :
    Holds (t.modifySlot s fun _ => y) { p with items := front ++ (s, y) :: back } where
  nodup := h.nodup
  order := by
    rw [order_modifySlot, h.order, split, List.map_append, List.map_append, List.map_cons, List.map_cons]
  value z hz := by
    have nodup := h.nodup
    rw [h.order, split, List.map_append, List.map_cons] at nodup
    have apart := List.nodup_middle.1 nodup
    have absent : s ∉ (front ++ back).map Prod.fst := by
      rw [List.map_append]
      exact (List.nodup_cons.1 apart).1
    have there : t.value? s = some x := h.value (s, x) (by rw [split]; exact List.mem_append_right _ List.mem_cons_self)
    rw [value?_modifySlot]
    have mem : z = (s, y) ∨ z ∈ front ++ back := by
      simp only [List.mem_append, List.mem_cons] at hz ⊢
      tauto
    rcases mem with rfl | hz
    · rw [if_pos rfl, there]
      rfl
    · rw [if_neg fun e : s = z.1 => absent (e ▸ List.mem_map_of_mem hz)]
      refine h.value z ?_
      rw [split]
      simp only [List.mem_append, List.mem_cons] at hz ⊢
      tauto
  made := by
    rw [← h.made]
    exact Array.size_modify
  owned := h.owned
  parent k := by
    change _ = if k ∈ t.order then t.home else .none
    rw [← h.parent k, Table.parent, Table.parent, modifySlot, Array.getElem?_modify]
    split
    · cases t.slots[k]? <;> rfl
    · rfl

/-! ## Single calls -/

theorem append (h : Holds t p) (v : α) :
    Holds { t with slots := t.slots.push ⟨t.home, v⟩, order := t.order ++ [t.slots.size] } (p.append v) := by
  have added := h.insert p.items.length [v]
  rw [← h.size, Table.size, List.take_length, List.drop_length] at added
  rw [Plain.append, ← h.size, Table.size]
  simpa using added

theorem resize (h : Holds t p) (n : Nat) (fresh : α) :
    Holds { t with
      slots := (t.order.drop n).foldl (place .none) t.slots ++ Array.replicate (n - t.order.length) ⟨t.home, fresh⟩
      order := t.order.take n ++ List.range' t.slots.size (n - t.order.length) } (p.resize n fresh) := by
  have cut : Holds { t with order := t.order.take n, slots := (t.order.drop n).foldl (place .none) t.slots }
      { p with items := p.items.take n } := by
    have kept : (p.items.take n).map Prod.fst = t.order.take n := by rw [List.map_take, h.order]
    rw [← kept]
    refine h.thin (List.take_sublist n _) _ fun s => ?_
    have apart := h.nodup
    rw [← List.take_append_drop n t.order] at apart
    have whole : s ∈ t.order ↔ s ∈ t.order.take n ∨ s ∈ t.order.drop n := by
      rw [← List.mem_append, List.take_append_drop]
    rw [kept, whole]
    constructor
    · exact fun hs => ⟨.inr hs, fun hk => List.disjoint_of_nodup_append apart hk hs⟩
    · rintro ⟨hk | hs, no⟩
      · exact absurd hk no
      · exact hs
  have filled := cut.insert n (List.replicate (n - p.items.length) fresh)
  rw [← h.size] at filled
  simp only [List.length_replicate, size_placeAll, List.take_take, Nat.min_self, List.drop_take_self, List.append_nil,
    List.map_replicate, List.toArray_replicate] at filled
  rw [Plain.resize, ← h.size]
  exact filled

theorem permuted (h : Holds t p) (cmp : α → α → Ordering) :
    ∃ u, t.permuteOrFault (sorting cmp t.values) = .ok u ∧ Holds u (p.sort cmp) ∧ u.count = t.count ∧ u.size = t.size := by
  have length : (rankedRows cmp Prod.snd p.items).length = t.order.length := by
    rw [length_rankedRows, ← h.size, Table.size]
  have found : ∀ r ∈ rankedRows cmp Prod.snd p.items, t.order[r.2]? = some r.1.1 := by
    intro r hr
    rw [h.order, List.getElem?_map, getElem?_of_mem_rankedRows hr, Option.map_some]
  have sorted := map_fst_rankedRows cmp Prod.snd p.items
  refine ⟨{ t with order := (p.sort cmp).items.map Prod.fst }, ?_, h.rearrange (List.mergeSort_perm _ _), rfl, ?_⟩
  · rw [h.values, Plain.contents, sorting_map, permuteOrFault_of length found]
    rw [Plain.sort, ← sorted, List.map_map]
    rfl
  · rw [Table.size, List.length_map, Plain.sort, List.length_mergeSort, h.size]

theorem setOwner (h : Holds t p) : Holds t.setOwner { p with owned := true } where
  nodup := h.nodup
  order := h.order
  value x hx := (getElem?_placeAll _ _ _ _).trans (h.value x hx)
  made := (size_placeAll _ _ _).trans h.made
  owned := rfl
  parent s := by
    have before := h.parent s
    simp only [Table.parent] at before ⊢
    rw [Table.setOwner, getElem?_placeAll_parent]
    by_cases hs : s ∈ t.order
    · rw [if_pos hs, if_pos hs, Array.getElem?_eq_getElem (h.whole.lt_size hs)]
      rfl
    · rw [if_neg hs, if_neg hs, before, if_neg hs]

/-- `decodeSlots` decodes the elements in place, up to the first that fails. -/
theorem decodeSlots {element : Cursor → Action α Cursor} (front : List (Nat × α)) {xs : List (Nat × α)} (h : Holds t { p with items := front ++ xs })
    (i : Nat) (c : Cursor) :
    Holds ((Table.decodeSlots element i (xs.map Prod.fst) c).apply t).2
      { p with items := front ++ (xs.map Prod.fst).zip (decodeEach element i (xs.map Prod.snd) c).2 } := by
  induction xs generalizing front t i c with
  | nil => exact h
  | cons x xs ih =>
    obtain ⟨s, x⟩ := x
    obtain ⟨slot, here, value⟩ : ∃ slot, t.slots[s]? = some slot ∧ slot.value = x :=
      Option.map_eq_some_iff.1 (h.value (s, x) (List.mem_append_right _ List.mem_cons_self))
    have stored : ∀ y, t.slots.setIfInBounds s { slot with value := y } = (t.modifySlot s fun _ => y).slots := by
      intro y
      refine Array.ext_getElem? fun k => ?_
      rw [Array.getElem?_setIfInBounds, modifySlot, Array.getElem?_modify]
      split
      · next e =>
        subst e
        rw [here, if_pos (Array.getElem?_eq_some_iff.1 here).1]
        rfl
      · rfl
    simp only [List.map_cons, Table.decodeSlots, decodeEach, Action.apply_bind, Action.apply_of, here, value, stored]
    rcases (element c).apply x with ⟨_ | c', y⟩
    · have zipped : (xs.map Prod.fst).zip (xs.map Prod.snd) = xs := by
        rw [List.zip_map']
        exact List.map_id _
      change Holds (t.modifySlot s fun _ => y) { p with items := front ++ (s, y) :: (xs.map Prod.fst).zip (xs.map Prod.snd) }
      rw [zipped]
      exact h.store rfl y
    · have changed := h.store rfl y
      rw [← List.singleton_append, ← List.append_assoc] at changed
      have rest := ih (front ++ [(s, y)]) changed (i + 1) c'
      rw [List.append_assoc, List.singleton_append] at rest
      exact rest

end Holds

/-! ## Calls and counts -/

/-- The count is the number of elements, if its cell can hold that. -/
def Counted (t : Table α) : Prop := ∃ cell, t.count = some (Cell.set t.size cell)

/-- `t` holds the plain list `p`, and its count is right. -/
structure Stands (t : Table α) (p : Plain α) : Prop where
  holds : Holds t p
  counted : Counted t

theorem Holds.counted {t : Table α} {p : Plain α} (h : Holds t p) (count : t.count.isSome) : Stands t.updateCount p := by
  obtain ⟨cell, count⟩ := Option.isSome_iff_exists.1 count
  exact ⟨h.withCount _, cell, by rw [updateCount, count]; rfl⟩

namespace Stands

variable {t u : Table α} {p q : Plain α}

theorem isSome (h : Stands t p) : t.count.isSome := by
  obtain ⟨cell, count⟩ := h.counted
  rw [count, Option.isSome_some]

/-- A change of the elements followed by `updateCount` keeps `Stands`. -/
theorem change (h : Stands t p) (changed : Holds u q) (count : u.count = t.count) : Stands u.updateCount q :=
  changed.counted (count ▸ h.isSome)

/-- A change that keeps the number of elements keeps `Stands` without `updateCount`. -/
theorem keep (h : Stands t p) (changed : Holds u q) (count : u.count = t.count) (size : u.size = t.size) : Stands u q := by
  obtain ⟨cell, before⟩ := h.counted
  exact ⟨changed, cell, by rw [count, size, before]⟩

end Stands

namespace Call

open Dalvik.Action (Follows follows_foldlM)

variable {fresh : α} {element : Cursor → Action α Cursor} {t : Table α} {p : Plain α} {cmp : α → α → Ordering}

/-- Creating an element and attaching it is `push`. -/
theorem attach_create (h : Whole t) (v : α) : (t.create v).2.attach (t.create v).1 = t.push v := by
  have absent : ¬ t.order.contains t.slots.size = true := by
    rw [List.contains_iff_mem]
    exact fun mem => Nat.lt_irrefl _ (h.lt_size mem)
  have placed : place t.home (t.slots.push ⟨.none, v⟩) t.slots.size = t.slots.push ⟨t.home, v⟩ := by
    refine Array.ext_getElem? fun k => ?_
    rw [place, Array.getElem?_modify, Array.getElem?_push, Array.getElem?_push]
    split
    · next e =>
      rw [if_pos e.symm, if_pos e.symm]
      rfl
    · next e => rw [if_neg (Ne.symm e), if_neg (Ne.symm e)]
  unfold attach create
  dsimp only
  rw [if_neg absent]
  exact congrArg (fun slots => updateCount { t with slots, order := t.order ++ [t.slots.size] }) placed

theorem agree_push (h : Stands t p) (v : α) : Stands (t.push v) (p.append v) := h.change (h.holds.append v) rfl

theorem agree_insert (h : Stands t p) (i : Int) (v : α) :
    Follows Stands (t.insert i v) (if 0 ≤ i ∧ i ≤ p.items.length then some (p.insert i.toNat [v]) else none) := by
  have length : t.order.length = p.items.length := h.holds.size
  unfold Table.insert
  by_cases inside : 0 ≤ i ∧ i ≤ p.items.length
  · rw [if_neg (by omega), if_pos inside]
    refine h.change ?_ rfl
    have added := h.holds.insert i.toNat [v]
    simpa using added
  · rw [if_pos (by omega), if_neg inside]
    trivial

theorem agree_erase (h : Stands t p) {n s : Nat} (found : t.order[n]? = some s) :
    Stands (updateCount { t with order := t.order.eraseIdx n, slots := place .none t.slots s })
      { p with items := p.items.eraseIdx n } := by
  obtain ⟨inside, here⟩ := List.getElem?_eq_some_iff.1 found
  have kept : (p.items.eraseIdx n).map Prod.fst = t.order.eraseIdx n := by rw [h.holds.order, List.eraseIdx_map]
  rw [← kept]
  refine h.change (h.holds.thin (List.eraseIdx_sublist _ n) [s] fun k => ?_) rfl
  rw [kept, ← h.holds.nodup.erase_getElem n inside, here, h.holds.nodup.mem_erase_iff, List.mem_singleton]
  constructor
  · rintro rfl
    exact ⟨List.mem_of_getElem? found, fun no => no.1 rfl⟩
  · rintro ⟨mem, no⟩
    by_contra ne
    exact no ⟨ne, mem⟩

theorem agree_remove (h : Stands t p) (s : Nat) :
    Stands (t.remove s).2 { p with items := p.items.eraseP fun x => x.1 == s } := by
  have index : t.indexOf? s = p.items.findIdx? fun x => x.1 == s := by
    rw [indexOf?, h.holds.order, List.findIdx?_map]
    rfl
  rw [List.eraseP_eq_eraseIdx, ← index]
  unfold Table.remove
  cases found : t.indexOf? s with
  | none => exact h
  | some n => exact agree_erase h (h.holds.whole.indexOf?_eq_some.1 found)

theorem agree_removeAt (h : Stands t p) (i : Int) :
    Follows Stands ((t.removeAt i).map Prod.snd)
      (if 0 ≤ i ∧ i < p.items.length then some { p with items := p.items.eraseIdx i.toNat } else none) := by
  have length : t.order.length = p.items.length := h.holds.size
  by_cases inside : 0 ≤ i ∧ i < p.items.length
  · obtain ⟨s, located⟩ : ∃ s, t.order[i.toNat]? = some s := ⟨_, List.getElem?_eq_getElem (by omega)⟩
    have found : t.slotAt? i = some s := Whole.slotAt?_eq_some.2 ⟨i.toNat, by omega, located⟩
    obtain ⟨x, u, run, rfl⟩ := h.holds.whole.removeAt_eq_ok found
    rw [if_pos inside, run]
    exact agree_erase h located
  · have none : t.slotAt? i = none := by
      cases found : t.slotAt? i with
      | none => rfl
      | some s =>
        obtain ⟨n, rfl, located⟩ := Whole.slotAt?_eq_some.1 found
        have := (List.getElem?_eq_some_iff.1 located).1
        omega
    rw [if_neg inside, Table.removeAt, none]
    trivial

theorem agree_removeIf (h : Stands t p) (q : α → Bool) :
    Stands (t.removeIf q).2 { p with items := p.items.filter fun x => !q x.2 } := by
  have each : ∀ r : Bool → Bool, (p.items.filter fun x => r (q x.2)).map Prod.fst = t.order.filter fun s => r ((t.value? s).any q) := by
    intro r
    rw [h.holds.order, List.filter_map]
    refine congrArg _ (List.filter_congr fun x hx => ?_)
    rw [Function.comp_apply, h.holds.value x hx, Option.any_some]
  have kept := each (!·)
  have gone := each id
  unfold Table.removeIf
  rw [List.partition_eq_filter_filter]
  refine h.change ?_ rfl
  have sub : (p.items.filter fun x => !q x.2).Sublist p.items := List.filter_sublist
  have thinned := h.holds.thin sub (t.order.filter fun s => (t.value? s).any q) fun s => ?_
  · rwa [kept] at thinned
  · rw [kept, List.mem_filter, List.mem_filter]
    cases (t.value? s).any q <;> simp

theorem agree_clear (h : Stands t p) : Stands t.clear { p with items := [] } :=
  h.change (h.holds.thin (List.nil_sublist _) t.order (by simp)) rfl

theorem sort_eq_self_of_sorted {p : Plain α} (sorted : p.contents.Pairwise fun x y => cmp x y ≠ .gt) : p.sort cmp = p := by
  rw [Plain.contents, List.pairwise_map] at sorted
  rw [Plain.sort, List.mergeSort_of_pairwise (sorted.imp bne_iff_ne.2)]

theorem agree_sort [Std.TransCmp cmp] (h : Stands t p) : Follows Stands ((t.sort cmp).map Prod.snd) (some (p.sort cmp)) := by
  unfold Table.sort
  cases needs : needsSort cmp t.values with
  | false =>
    rw [needsSort_eq_false_iff_pairwise, h.holds.values] at needs
    rw [sort_eq_self_of_sorted needs]
    exact h
  | true =>
    obtain ⟨u, permuted, holds, count, size⟩ := h.holds.permuted cmp
    rw [if_pos rfl, permuted]
    exact h.keep holds count size

/-- A parallel table of the same length can be permuted along. -/
theorem exists_permuteOrFault (cmp : α → α → Ordering) (u : Table β) {vs : List α} (h : u.size = vs.length) :
    ∃ v, u.permuteOrFault (sorting cmp vs) = .ok v := by
  have ranked := sorting_map cmp id vs
  rw [List.map_id] at ranked
  have found : ∀ r ∈ rankedRows cmp id vs, u.order[r.2]? = some (u.order.getD r.2 0) := by
    intro r hr
    have inside : r.2 < u.order.length := by
      have inside := (List.getElem?_eq_some_iff.1 (getElem?_of_mem_rankedRows hr)).1
      rwa [← h] at inside
    rw [List.getD_eq_getElem?_getD, List.getElem?_eq_getElem inside, Option.getD_some]
  rw [ranked]
  exact ⟨_, permuteOrFault_of (length_rankedRows.trans h.symm) found⟩

theorem permuteOrFault_of_ne {u : Table β} {perm : List Nat} (h : perm.length ≠ u.order.length) :
    ∃ stop, u.permuteOrFault perm = .error stop := by
  unfold permuteOrFault permute
  rw [if_pos (by rwa [List.length_map])]
  exact ⟨_, rfl⟩

theorem agree_sortWith [Std.TransCmp cmp] (h : Stands t p) (u : Table β) :
    Follows Stands ((t.sortWith cmp u).map fun r => r.2.1)
      (if p.contents.Pairwise (fun x y => cmp x y ≠ .gt) ∨ u.size = p.items.length then some (p.sort cmp) else none) := by
  have length : t.values.length = p.items.length := by rw [h.holds.values, Plain.contents, List.length_map]
  unfold Table.sortWith
  cases needs : needsSort cmp t.values with
  | false =>
    rw [needsSort_eq_false_iff_pairwise, h.holds.values] at needs
    simp only [Bool.false_eq_true, if_false, if_pos (Or.inl needs), sort_eq_self_of_sorted needs]
    exact h
  | true =>
    have unsorted : ¬ p.contents.Pairwise fun x y => cmp x y ≠ .gt := by
      rw [← h.holds.values, ← needsSort_eq_false_iff_pairwise, needs]
      exact Bool.noConfusion
    by_cases same : u.size = p.items.length
    · obtain ⟨v, along⟩ := exists_permuteOrFault cmp u (same.trans length.symm)
      obtain ⟨w, permuted, holds, count, size⟩ := h.holds.permuted cmp
      simp only [if_true, along, permuted, if_pos (Or.inr same)]
      exact h.keep holds count size
    · have longer : (sorting cmp t.values).length ≠ u.order.length := by
        rw [sorting, List.length_map, List.length_mergeSort, List.length_zipIdx, length]
        exact Ne.symm same
      obtain ⟨stop, refused⟩ := permuteOrFault_of_ne longer
      simp only [if_true, refused, if_neg (not_or.2 ⟨unsorted, same⟩)]
      trivial

theorem agree_resize (h : Holds t p) (count : t.count.isSome) (n : Int) : Stands (t.resize n fresh) (p.resize n.toNat fresh) :=
  (h.resize n.toNat fresh).counted count

theorem agree_decode (h : Stands t p) (count : Cell) (c : Cursor) :
    Stands ((Table.decode fresh element c).apply { t with count := some count }).2
      (let q := p.resize count.get.toNat fresh
       { q with items := (q.items.map Prod.fst).zip (decodeEach element 0 q.contents c).2 }) := by
  let u := Table.resize { t with count := some count } count.get fresh
  have stands : Stands u (p.resize count.get.toNat fresh) := agree_resize (h.holds.withCount _) rfl _
  have run : (Table.decode fresh element c).apply { t with count := some count } = (Table.decodeSlots element 0 u.order c).apply u := by
    simp only [Table.decode, Action.apply_bind, Action.apply_modify, Action.apply_get, u]
  obtain ⟨-, order, same⟩ := upholds_decodeSlots element u.order u.count 0 u.order c u ⟨stands.holds.whole, rfl, rfl⟩
  rw [run]
  refine stands.keep ?_ same (congrArg List.length order)
  rw [stands.holds.order]
  exact stands.holds.decodeSlots [] 0 c

/-- One call keeps the table and the plain list together: both can be done, or neither. -/
theorem agree_step (h : Stands t p) (call : Call α β) : Follows Stands (call.onTable fresh element t) (call.onList fresh element p) := by
  cases call with
  | createNext => exact agree_push h fresh
  | add v =>
    rw [onTable, attach_create h.holds.whole]
    exact agree_push h v
  | insert i v => exact agree_insert h i v
  | remove s => exact agree_remove h s
  | removeAt i => exact agree_removeAt h i
  | removeIf q => exact agree_removeIf h q
  | setSize n => exact agree_resize h.holds h.isSome n
  | clear => exact agree_clear h
  | sort cmp preorder => exact agree_sort h
  | sortWith cmp preorder u => exact agree_sortWith h u
  | setOwner => exact h.keep h.holds.setOwner rfl rfl
  | decode count c => exact agree_decode h count c

/-! ## Sequences of calls -/

section

variable (fresh element)

/-- The table after some calls, or the first fault. -/
def runTable (t : Table α) (calls : List (Call α β)) : Except Stop (Table α) := calls.foldlM (onTable fresh element) t

def runList (p : Plain α) (calls : List (Call α β)) : Option (Plain α) := calls.foldlM (onList fresh element) p

end

theorem stands_new {cell : Cell} (empty : cell.get = 0) : Stands ({ count := some cell } : Table α) {} where
  holds :=
    { nodup := .nil
      order := rfl
      value := nofun
      made := rfl
      owned := rfl
      parent := fun _ => rfl }
  counted := ⟨cell, congrArg some (empty ▸ cell.set_get).symm⟩

end Call

/-- For any calls on a new table: one of them faults exactly if one of them cannot be done to the plain list. If none
does, the table has the elements of the plain list; its count, read as a signed or an unsigned number, is their number
if that fits its cell; the parent of each listed element is the owner, or the table if none was set, and a removed
element has no parent. -/
theorem items_of_calls (fresh : α) (element : Cursor → Action α Cursor) {cell : Cell} (empty : cell.get = 0)
    (calls : List (Call α β)) :
    ((∃ stop, Call.runTable fresh element { count := some cell } calls = .error stop) ↔ Call.runList fresh element {} calls = none) ∧
    ∀ t, Call.runTable fresh element { count := some cell } calls = .ok t → ∃ p, Call.runList fresh element {} calls = some p ∧
      t.items = p.items ∧
      (∃ cell, t.count = some cell ∧ (t.size ≤ cell.capacity → cell.get = t.size) ∧
        (t.size < 2 ^ 32 → ∀ n, cell.unsigned? = some n → n = t.size)) ∧
      (∀ s ∈ t.order, t.parent s = if p.owned then .owner else .table) ∧
      ∀ s < t.slots.size, s ∉ t.order → t.parent s = .none := by
  have follows : Action.Follows Stands (Call.runTable fresh element { count := some cell } calls) (Call.runList fresh element {} calls) :=
    Action.follows_foldlM (fun _ _ call stands => Call.agree_step stands call) (Call.stands_new empty) calls
  refine ⟨follows.fails_iff, fun t run => ?_⟩
  obtain ⟨p, plain, holds, cell, count⟩ := follows.exists_of_ok run
  refine ⟨p, plain, holds.items, ⟨_, count, fun fits => ?_, fun small n unsigned => ?_⟩, fun s hs => ?_, fun s _ hs => ?_⟩
  · exact Cell.get_set (by rwa [Cell.capacity_set] at fits)
  · exact Cell.unsigned?_set small unsigned
  · rw [holds.parent, if_pos hs, home, holds.owned]
  · rw [holds.parent, if_neg hs]

/-- A decoding of two elements whose bytes end within the second. -/
theorem items_of_cut_decoding :
    ∃ t : Table UInt32, Call.runTable 0 decodeU32 { count := some (.byte 0) }
        ([.add 7, .setOwner, .decode (.byte 2) (.ofBytes [1, 0, 0, 0, 9])] : List (Call UInt32 UInt32)) = .ok t ∧
      t.items = [(0, 1), (1, 0)] ∧ (∃ cell, t.count = some cell ∧ (t.size ≤ cell.capacity → cell.get = t.size)) ∧
      ∀ s ∈ t.order, t.parent s = .owner := by
  let calls : List (Call UInt32 UInt32) := [.add 7, .setOwner, .decode (.byte 2) (.ofBytes [1, 0, 0, 0, 9])]
  obtain ⟨t, run⟩ : ∃ t, Call.runTable 0 decodeU32 { count := some (.byte 0) } calls = .ok t := ⟨_, rfl⟩
  have empty : (Cell.byte 0).get = 0 := rfl
  have all := items_of_calls 0 decodeU32 empty calls
  obtain ⟨p, plain, items, ⟨cell, count, fits, -⟩, parents, -⟩ := all.2 t run
  obtain rfl : p = { items := [(0, 1), (1, 0)], made := 2, owned := true } := Option.some.inj (plain.symm.trans rfl)
  exact ⟨t, run, items, ⟨cell, count, fits⟩, parents⟩

end Dalvik.Table
