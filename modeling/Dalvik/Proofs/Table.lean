import Dalvik.Proofs.Cell
import Dalvik.Proofs.Reading
import Mathlib.Data.List.Chain
import Mathlib.Data.List.Nodup

/-!
# Tables

`t.values` are the elements of a table in order. In a `Whole` table no slot is empty or listed
twice, so each operation is one on this list, and sorting succeeds (`Whole.sort`). A table that is
read behind its count holds the elements that were read (`gives_decode_counted`).
-/

namespace Dalvik.Table

variable {α : Type} {t : Table α} {slots : List Nat} {s : Nat} {c c' : Cursor}

/-! ## Single slots -/

theorem values_eq (t : Table α) : t.values = t.order.filterMap t.value? := rfl

@[simp] theorem value?_modifySlot (s k : Nat) (f : α → α) :
    (t.modifySlot s f).value? k = if s = k then (t.value? k).map f else t.value? k := by
  unfold value? modifySlot
  rw [Array.getElem?_modify]
  split
  · cases t.slots[k]? <;> rfl
  · rfl

/-- `modifySlot` with a function that keeps the element changes nothing. -/
theorem modifySlot_eq_self {f : α → α} (h : ∀ x, t.value? s = some x → f x = x) : t.modifySlot s f = t := by
  unfold modifySlot
  have same : t.slots.modify s (fun x => { x with value := f x.value }) = t.slots := by
    refine Array.ext_getElem? fun i => ?_
    rw [Array.getElem?_modify]
    split
    · next e =>
      subst e
      cases hx : t.slots[s]? with
      | none => rfl
      | some x =>
        have value : f x.value = x.value := h x.value (by rw [value?, hx, Option.map_some])
        rw [Option.map_some, value]
    · rfl
  rw [same]

theorem updateCount_eq_self (h : ∀ cell, t.count = some cell → cell.get = t.order.length) : t.updateCount = t := by
  unfold updateCount
  have same : t.count.map (·.set t.order.length) = t.count := by
    cases count : t.count with
    | none => rfl
    | some cell => rw [Option.map_some, ← h cell count, Cell.set_get]
  rw [same]

theorem updateCount_updateCount (t : Table α) : t.updateCount.updateCount = t.updateCount := by
  unfold updateCount
  have same : (t.count.map (·.set t.order.length)).map (·.set t.order.length) = t.count.map (·.set t.order.length) := by
    rw [Option.map_map]
    exact congrArg (Option.map · t.count) (funext fun cell => cell.set_set _)
  rw [same]

@[simp] theorem order_modifySlot (f : α → α) : (t.modifySlot s f).order = t.order := rfl

@[simp] theorem count_modifySlot (f : α → α) : (t.modifySlot s f).count = t.count := rfl

theorem modifySlot_modifySlot (f g : α → α) : (t.modifySlot s f).modifySlot s g = t.modifySlot s (g ∘ f) := by
  unfold modifySlot
  simp only [mk.injEq, true_and, and_true]
  refine Array.ext_getElem? fun i => ?_
  simp only [Array.getElem?_modify]
  split
  · cases t.slots[i]? <;> rfl
  · rfl

/-- `modifySlot` of a slot that is not listed keeps the values of the listed ones. -/
theorem value?_modifySlot_of_notMem {f : α → α} (absent : s ∉ slots) :
    slots.filterMap (t.modifySlot s f).value? = slots.filterMap t.value? := by
  refine List.filterMap_congr fun k hk => ?_
  rw [value?_modifySlot, if_neg]
  rintro rfl
  exact absent hk

/-- `place` sets the parents of elements and keeps their values. -/
theorem getElem?_place (parent : Parent) (slots : Array (Slot α)) (s k : Nat) :
    ((place parent slots s)[k]?).map Slot.value = (slots[k]?).map Slot.value := by
  unfold place
  rw [Array.getElem?_modify]
  split
  · cases slots[k]? <;> rfl
  · rfl

theorem value?_attach (s k : Nat) : (t.attach s).value? k = t.value? k := by
  unfold attach
  split
  · rfl
  · exact getElem?_place t.home t.slots s k

theorem mem_order_attach {s k : Nat} : k ∈ (t.attach s).order ↔ k ∈ t.order ∨ k = s := by
  unfold attach
  split
  · next mem =>
    rw [List.contains_iff_mem] at mem
    exact ⟨.inl, fun h => h.elim id fun e => e ▸ mem⟩
  · exact List.mem_append.trans (or_congr_right List.mem_singleton)

theorem getElem?_placeAll (parent : Parent) (slots : Array (Slot α)) (ss : List Nat) (k : Nat) :
    ((ss.foldl (place parent) slots)[k]?).map Slot.value = (slots[k]?).map Slot.value := by
  induction ss generalizing slots with
  | nil => rfl
  | cons s ss ih => rw [List.foldl_cons, ih, getElem?_place]

theorem getElem?_placeAll_parent (parent : Parent) (slots : Array (Slot α)) (ss : List Nat) (k : Nat) :
    ((ss.foldl (place parent) slots)[k]?).map Slot.parent =
      if k ∈ ss then (slots[k]?).map fun _ => parent else (slots[k]?).map Slot.parent := by
  induction ss generalizing slots with
  | nil => rfl
  | cons s ss ih =>
    rw [List.foldl_cons, ih, place, Array.getElem?_modify]
    by_cases here : s = k
    · subst here
      cases slots[s]? <;> simp
    · simp [here, Ne.symm here]

theorem size_placeAll (parent : Parent) (slots : Array (Slot α)) (ss : List Nat) :
    (ss.foldl (place parent) slots).size = slots.size := by
  induction ss generalizing slots with
  | nil => rfl
  | cons s ss ih => exact (ih _).trans (Array.size_modify ..)

theorem value?_clear (k : Nat) : t.clear.value? k = t.value? k := getElem?_placeAll _ _ _ _

theorem value?_create (v : α) (k : Nat) :
    (t.create v).2.value? k = if k = t.slots.size then some v else t.value? k := by
  change ((t.slots.push ⟨.none, v⟩)[k]?).map Slot.value = _
  rw [Array.getElem?_push]
  split <;> rfl

/-! ## Filled tables -/

/-- The table with exactly the elements `xs`. -/
def filled (count : Option Cell) (xs : List α) : Table α :=
  { count, slots := (xs.map (Slot.mk .table)).toArray, order := List.range xs.length }

theorem value?_filled (count : Option Cell) (xs : List α) (k : Nat) : (filled count xs).value? k = xs[k]? := by
  simp [filled, value?, Function.comp_def]

theorem values_filled (count : Option Cell) (xs : List α) : (filled count xs).values = xs := by
  have slots : ∀ k, ((filled count xs).slots[k]?.map Slot.value) = xs[k]? := value?_filled count xs
  have each : ∀ ys : List α, (List.range ys.length).filterMap (ys[·]?) = ys := by
    intro ys
    induction ys with
    | nil => rfl
    | cons y ys ih =>
      rw [List.length_cons, List.range_succ_eq_map, List.filterMap_cons, List.filterMap_map]
      simpa [Function.comp_def] using ih
  unfold values
  simp only [slots]
  exact each xs

theorem modifySlot_filled (count : Option Cell) (done : List α) (x : α) (rest : List α) (f : α → α) :
    (filled count (done ++ x :: rest)).modifySlot done.length f = filled count (done ++ f x :: rest) := by
  unfold modifySlot filled
  simp only [Table.mk.injEq, true_and]
  refine ⟨?_, by simp⟩
  refine Array.ext_getElem? fun i => ?_
  rw [Array.getElem?_modify]
  simp only [List.getElem?_toArray, List.map_append, List.map_cons]
  split
  · next e =>
    subst e
    simp
  · next ne =>
    rcases Nat.lt_trichotomy i done.length with lt | e | gt
    · rw [List.getElem?_append_left (by simpa using lt), List.getElem?_append_left (by simpa using lt)]
    · exact absurd e.symm ne
    · rw [List.getElem?_append_right (by simpa using gt.le), List.getElem?_append_right (by simpa using gt.le)]
      obtain ⟨k, hk⟩ : ∃ k, i - (done.map (Slot.mk Parent.table)).length = k + 1 := by
        refine ⟨i - done.length - 1, ?_⟩
        rw [List.length_map]
        omega
      rw [hk]
      rfl

/-! ## Whole tables -/

/-- Every listed slot has an element, and none is listed twice. -/
structure Whole (t : Table α) : Prop where
  nodup : t.order.Nodup
  filled : ∀ s ∈ t.order, (t.value? s).isSome

theorem whole_filled (count : Option Cell) (xs : List α) : Whole (filled count xs) where
  nodup := List.nodup_range
  filled s hs := by
    rw [value?_filled, List.getElem?_eq_getElem (List.mem_range.1 hs), Option.isSome_some]

namespace Whole

variable {i : Int} {n : Nat} {v : α}

theorem length_values (h : Whole t) : t.values.length = t.order.length := by
  have each : ∀ slots : List Nat, (∀ s ∈ slots, (t.value? s).isSome) → (slots.filterMap t.value?).length = slots.length := by
    intro slots
    induction slots with
    | nil => intro _; rfl
    | cons s slots ih =>
      intro filled
      obtain ⟨v, hv⟩ := Option.isSome_iff_exists.1 (filled s List.mem_cons_self)
      rw [List.filterMap_cons_some hv, List.length_cons, ih fun k hk => filled k (List.mem_cons_of_mem s hk),
        List.length_cons]
  exact each t.order h.filled

theorem getElem?_values (h : Whole t) (n : Nat) : t.values[n]? = t.order[n]?.bind t.value? := by
  have each : ∀ slots : List Nat, (∀ s ∈ slots, (t.value? s).isSome) → ∀ n : Nat,
      (slots.filterMap t.value?)[n]? = slots[n]?.bind t.value? := by
    intro slots
    induction slots with
    | nil => intro _ n; rfl
    | cons s slots ih =>
      intro filled n
      obtain ⟨v, hv⟩ := Option.isSome_iff_exists.1 (filled s List.mem_cons_self)
      rw [List.filterMap_cons_some hv]
      cases n with
      | zero => exact hv.symm
      | succ n => exact ih (fun k hk => filled k (List.mem_cons_of_mem s hk)) n
  exact each t.order h.filled n

theorem slotAt?_eq_some : t.slotAt? i = some s ↔ ∃ n : Nat, i = n ∧ t.order[n]? = some s := by
  unfold slotAt?
  constructor
  · intro found
    split at found
    · cases found
    · exact ⟨i.toNat, by omega, found⟩
  · rintro ⟨n, rfl, found⟩
    rw [if_neg (by omega)]
    exact found

theorem lt_size (h : Whole t) (hs : s ∈ t.order) : s < t.slots.size := by
  by_contra past
  have filled := h.filled s hs
  rw [value?, Array.getElem?_eq_none (by omega)] at filled
  cases filled

theorem updateCount (h : Whole t) : Whole t.updateCount := ⟨h.nodup, h.filled⟩

/-! ### Changing elements -/

theorem modifySlot (h : Whole t) (s : Nat) (f : α → α) : Whole (t.modifySlot s f) where
  nodup := h.nodup
  filled k hk := by
    rw [value?_modifySlot]
    split <;> simpa using h.filled k hk

theorem values_modifySlot (h : Whole t) {f : α → α} (found : t.order[n]? = some s) :
    (t.modifySlot s f).values = t.values.modify n f := by
  refine List.ext_getElem? fun k => ?_
  rw [(h.modifySlot s f).getElem?_values, List.getElem?_modify, h.getElem?_values, order_modifySlot]
  cases located : t.order[k]? with
  | none => simp
  | some r =>
    have same : s = r ↔ n = k := by
      constructor
      · rintro rfl
        exact (List.getElem?_inj (List.getElem?_eq_some_iff.1 found).1 h.nodup).1 (found.trans located.symm)
      · rintro rfl
        exact Option.some.inj (found.symm.trans located)
    rw [Option.bind_some, Option.bind_some, value?_modifySlot]
    simp only [same]
    split <;> simp

theorem update (h : Whole t) (i : Int) (f : α → α) : Whole (t.update i f) := by
  unfold Table.update
  split
  · exact h.modifySlot _ f
  · exact h

theorem count_update (i : Int) (f : α → α) : (t.update i f).count = t.count := by
  unfold Table.update
  split <;> rfl

/-- `update` at an index changes the value at that position, or nothing if there is no such position. -/
theorem values_update (h : Whole t) (i : Int) (f : α → α) :
    (t.update i f).values = t.values ∨ ∃ n : Nat, i = n ∧ (t.update i f).values = t.values.modify n f := by
  unfold Table.update
  cases found : t.slotAt? i with
  | none => exact .inl rfl
  | some s =>
    obtain ⟨n, rfl, located⟩ := slotAt?_eq_some.1 found
    exact .inr ⟨n, rfl, h.values_modifySlot located⟩

end Whole

/-! ### Replacing all elements -/

/-- The elements of the slots replaced by `vs`, one after the other. -/
def refill (t : Table α) (slots : List Nat) (vs : List α) : Table α :=
  (slots.zip vs).foldl (fun t (s, v) => t.modifySlot s fun _ => v) t

theorem refill_cons (s : Nat) (slots : List Nat) (v : α) (vs : List α) :
    refill t (s :: slots) (v :: vs) = refill (t.modifySlot s fun _ => v) slots vs := rfl

theorem order_refill (slots : List Nat) (vs : List α) :
    (refill t slots vs).order = t.order ∧ (refill t slots vs).count = t.count := by
  induction slots generalizing t vs with
  | nil => exact ⟨rfl, rfl⟩
  | cons s slots ih =>
    cases vs with
    | nil => exact ⟨rfl, rfl⟩
    | cons v vs => exact ih vs

/-- Refilling a filled table from some position on replaces its values from there. -/
theorem refill_filled (count : Option Cell) (done : List α) {xs ys : List α} (length : ys.length = xs.length) :
    refill (filled count (done ++ xs)) (List.range' done.length xs.length) ys = filled count (done ++ ys) := by
  induction xs generalizing done ys with
  | nil =>
    obtain rfl := List.length_eq_zero_iff.1 length
    rfl
  | cons x xs ih =>
    obtain ⟨y, ys, rfl⟩ := List.exists_cons_of_length_eq_add_one length
    have shorter : ys.length = xs.length := by simpa using length
    have rest := ih (done ++ [y]) shorter
    rw [List.length_cons, List.range'_succ, refill_cons, modifySlot_filled]
    simpa using rest

theorem value?_refill_of_notMem {slots : List Nat} (absent : s ∉ slots) (vs : List α) :
    (refill t slots vs).value? s = t.value? s := by
  induction slots generalizing t vs with
  | nil => rfl
  | cons k slots ih =>
    obtain ⟨ne, absent⟩ := List.ne_and_not_mem_of_not_mem_cons absent
    cases vs with
    | nil => rfl
    | cons v vs => rw [refill_cons, ih absent, value?_modifySlot, if_neg (Ne.symm ne)]

theorem map_value?_refill {slots : List Nat} {vs : List α} (nodup : slots.Nodup)
    (filled : ∀ s ∈ slots, (t.value? s).isSome) (length : vs.length = slots.length) :
    slots.map (refill t slots vs).value? = vs.map some := by
  induction slots generalizing t vs with
  | nil => rw [List.length_eq_zero_iff.1 length, List.map_nil, List.map_nil]
  | cons s slots ih =>
    obtain ⟨absent, nodup⟩ := List.nodup_cons.1 nodup
    obtain ⟨v, vs, rfl⟩ := List.exists_cons_of_length_eq_add_one length
    obtain ⟨old, there⟩ := Option.isSome_iff_exists.1 (filled s List.mem_cons_self)
    have shorter : vs.length = slots.length := by simpa using length
    have rest := ih (t := t.modifySlot s fun _ => v) nodup (fun k hk => ?_) shorter
    · rw [List.map_cons, refill_cons, rest, value?_refill_of_notMem absent, value?_modifySlot, if_pos rfl, there]
      rfl
    · rw [value?_modifySlot, if_neg (by rintro rfl; exact absent hk)]
      exact filled k (List.mem_cons_of_mem s hk)

namespace Whole

theorem value?_refill {vs : List α} (h : Whole t) (length : vs.length = t.order.length) :
    t.order.map (Table.refill t t.order vs).value? = vs.map some := map_value?_refill h.nodup h.filled length

theorem refill (h : Whole t) {vs : List α} (length : vs.length = t.order.length) : Whole (Table.refill t t.order vs) where
  nodup := by
    rw [(order_refill _ _).1]
    exact h.nodup
  filled s hs := by
    rw [(order_refill _ _).1] at hs
    have there := List.mem_map_of_mem (f := (Table.refill t t.order vs).value?) hs
    rw [h.value?_refill length, List.mem_map] at there
    obtain ⟨v, -, e⟩ := there
    rw [← e, Option.isSome_some]

theorem values_refill (h : Whole t) {vs : List α} (length : vs.length = t.order.length) :
    (Table.refill t t.order vs).values = vs := by
  have all := congrArg (List.filterMap id) (h.value?_refill length)
  rw [List.filterMap_map, List.filterMap_map] at all
  rw [values_eq, (order_refill _ _).1]
  simpa using all

end Whole

/-! ### Adding and taking out -/

theorem value?_push (v : α) (k : Nat) : (t.push v).value? k = if k = t.slots.size then some v else t.value? k := by
  change ((t.slots.push ⟨t.home, v⟩)[k]?).map Slot.value = _
  rw [Array.getElem?_push]
  split <;> rfl

namespace Whole

variable {i : Int} {v : α}

theorem push (h : Whole t) (v : α) : Whole (t.push v) where
  nodup := by
    refine List.nodup_append.2 ⟨h.nodup, List.nodup_singleton _, fun k hk j hj e => ?_⟩
    have := h.lt_size hk
    rw [List.mem_singleton.1 hj] at e
    omega
  filled s hs := by
    rw [value?_push]
    split
    · rfl
    · next ne => exact h.filled s ((List.mem_append.1 hs).resolve_right fun last => ne (List.mem_singleton.1 last))

theorem values_push (h : Whole t) (v : α) : (t.push v).values = t.values ++ [v] := by
  have old : t.order.filterMap (t.push v).value? = t.order.filterMap t.value? := by
    refine List.filterMap_congr fun k hk => ?_
    have := h.lt_size hk
    rw [value?_push, if_neg (by omega)]
  have last : (t.push v).value? t.slots.size = some v := by rw [value?_push, if_pos rfl]
  change (t.order ++ [t.slots.size]).filterMap (t.push v).value? = _
  rw [List.filterMap_append, old, List.filterMap_cons_some last, List.filterMap_nil, values_eq]

/-- Removing slots from the list keeps the other values in order, and the table whole. -/
theorem thin (h : Whole t) {kept : List Nat} (sub : kept.Sublist t.order) (gone : List Nat) :
    let u := Table.updateCount { t with order := kept, slots := gone.foldl (place .none) t.slots }
    Whole u ∧ u.count = t.count.map (·.set u.order.length) ∧ u.values = kept.filterMap t.value? := by
  have value : ∀ k, (((gone.foldl (place .none) t.slots)[k]?).map Slot.value) = t.value? k := getElem?_placeAll _ _ _
  refine ⟨⟨h.nodup.sublist sub, fun s hs => ?_⟩, rfl, ?_⟩
  · change (((gone.foldl (place .none) t.slots)[s]?).map Slot.value).isSome
    rw [value]
    exact h.filled s (sub.subset hs)
  · exact List.filterMap_congr fun k _ => value k

theorem filterMap_eraseIdx (h : Whole t) (n : Nat) : (t.order.eraseIdx n).filterMap t.value? = t.values.eraseIdx n := by
  obtain ⟨whole, -, values⟩ := h.thin (List.eraseIdx_sublist t.order n) []
  rw [← values]
  refine List.ext_getElem? fun k => ?_
  rw [whole.getElem?_values, List.getElem?_eraseIdx, h.getElem?_values, h.getElem?_values]
  change ((t.order.eraseIdx n)[k]?).bind t.value? = _
  rw [List.getElem?_eraseIdx]
  split <;> rfl

/-- `removeAt` at a position succeeds and returns the element there. -/
theorem removeAt_eq_ok (h : Whole t) (found : t.slotAt? i = some s) :
    ∃ x u, t.removeAt i = .ok (x, u) ∧ u = (Table.updateCount
      { t with order := t.order.eraseIdx i.toNat, slots := [s].foldl (place .none) t.slots }) := by
  obtain ⟨n, rfl, located⟩ := slotAt?_eq_some.1 found
  have there := h.lt_size (List.mem_of_getElem? located)
  unfold Table.removeAt
  rw [found]
  have placed : ((place .none t.slots s)[s]?).isSome := by simp [place, there]
  obtain ⟨x, hx⟩ := Option.isSome_iff_exists.1 placed
  refine ⟨x, _, ?_, rfl⟩
  dsimp only [Table.updateCount]
  rw [hx]
  rfl

/-- `removeAt` keeps the table whole, takes one value out of the list, and sets the count. -/
theorem removeAt (h : Whole t) {x : Slot α} {u : Table α} (run : t.removeAt i = .ok (x, u)) :
    Whole u ∧ u.count = t.count.map (·.set u.order.length) ∧ ∃ n : Nat, i = n ∧ u.values = t.values.eraseIdx n := by
  cases found : t.slotAt? i with
  | none =>
    rw [Table.removeAt, found] at run
    cases run
  | some s =>
    obtain ⟨n, rfl, -⟩ := slotAt?_eq_some.1 found
    obtain ⟨x', u', run', rfl⟩ := h.removeAt_eq_ok found
    cases run'.symm.trans run
    obtain ⟨whole, count, values⟩ := h.thin (List.eraseIdx_sublist t.order n) [s]
    exact ⟨whole, count, n, rfl, values.trans (h.filterMap_eraseIdx n)⟩

theorem remove (h : Whole t) {n : Nat} (found : t.indexOf? s = some n) :
    let u := (t.remove s).2
    Whole u ∧ u.count = t.count.map (·.set u.order.length) ∧ u.values = t.values.eraseIdx n := by
  have e : (t.remove s).2 = Table.updateCount
      { t with order := t.order.eraseIdx n, slots := [s].foldl (place .none) t.slots } := by
    rw [Table.remove, found]
    rfl
  obtain ⟨whole, count, values⟩ := h.thin (List.eraseIdx_sublist t.order n) [s]
  rw [e]
  exact ⟨whole, count, values.trans (h.filterMap_eraseIdx n)⟩

/-- `indexOf?` gives the position at which a slot is listed. -/
theorem indexOf?_eq_some (h : Whole t) {n : Nat} : t.indexOf? s = some n ↔ t.order[n]? = some s := by
  rw [Table.indexOf?, List.findIdx?_eq_some_iff_getElem]
  constructor
  · rintro ⟨inside, here, -⟩
    rw [List.getElem?_eq_getElem inside, eq_of_beq here]
  · intro located
    obtain ⟨inside, here⟩ := List.getElem?_eq_some_iff.1 located
    refine ⟨inside, beq_iff_eq.2 here, fun j before => ?_⟩
    have differ := List.pairwise_iff_getElem.1 h.nodup j n (by omega) inside before
    rw [here] at differ
    simpa using differ

theorem removeIf (h : Whole t) (p : α → Bool) :
    let u := (t.removeIf p).2
    Whole u ∧ u.count = t.count.map (·.set u.order.length) ∧ u.values = t.values.filter fun x => !p x := by
  have e : (t.removeIf p).2 = Table.updateCount
      { t with
        order := t.order.filter fun s => !(t.value? s).any p
        slots := (t.order.filter fun s => (t.value? s).any p).foldl (place .none) t.slots } := by
    rw [Table.removeIf, List.partition_eq_filter_filter]
    rfl
  obtain ⟨whole, count, values⟩ := h.thin (t.order.filter_sublist (p := fun s => !(t.value? s).any p))
    (t.order.filter fun s => (t.value? s).any p)
  rw [e]
  refine ⟨whole, count, values.trans ?_⟩
  rw [values_eq, List.filterMap_filter, List.filter_filterMap]
  refine List.filterMap_congr fun s _ => ?_
  cases value : t.value? s with
  | none => rfl
  | some x => cases hp : p x <;> simp [hp, Option.filter]

/-- The elements that `resize` adds get new slots. -/
theorem resize (h : Whole t) (n : Int) (fresh : α) : Whole (t.resize n fresh) := by
  let slots := (t.order.drop n.toNat).foldl (place .none) t.slots
  have size : slots.size = t.slots.size := size_placeAll _ _ _
  have value : ∀ k < t.slots.size, ((slots ++ Array.replicate (n.toNat - t.order.length) ⟨t.home, fresh⟩)[k]?).map
      Slot.value = t.value? k := by
    intro k hk
    rw [Array.getElem?_append_left (size ▸ hk)]
    exact getElem?_placeAll _ _ _ _
  constructor
  · refine List.nodup_append.2 ⟨h.nodup.sublist (List.take_sublist _ _), List.nodup_range', fun k hk j hj e => ?_⟩
    have := h.lt_size (List.mem_of_mem_take hk)
    have := (List.mem_range'_1.1 hj).1
    omega
  · intro s hs
    change (((slots ++ Array.replicate (n.toNat - t.order.length) ⟨t.home, fresh⟩)[s]?).map Slot.value).isSome
    rcases List.mem_append.1 hs with old | new
    · have inside := List.mem_of_mem_take old
      rw [value s (h.lt_size inside)]
      exact h.filled s inside
    · have := List.mem_range'_1.1 new
      rw [Array.getElem?_append_right (by omega), Array.getElem?_replicate, if_pos (by omega)]
      rfl

end Whole

/-! ### Sorting -/

section Sorting

variable {cmp : α → α → Ordering} {key : α → Int}

/-- `cmp` orders by an integer key. -/
def Orders (cmp : α → α → Ordering) (key : α → Int) : Prop := ∀ x y, (cmp x y != .gt) = true ↔ key x ≤ key y

/-- `needsSort` is false exactly if no element is greater than the next one. -/
theorem needsSort_eq_false_iff_isChain {xs : List α} : needsSort cmp xs = false ↔ xs.IsChain fun x y => cmp x y ≠ .gt := by
  fun_induction needsSort cmp xs with
  | case1 a b rest ih =>
    rw [Bool.or_eq_false_iff, ih, List.isChain_cons_cons]
    simp
  | case2 xs short =>
    match xs, short with
    | [], _ => simp
    | [a], _ => simp
    | a :: b :: rest, short => exact absurd rfl (short a b rest)

/-- `needsSort` is false exactly if the keys do not decrease. -/
theorem needsSort_eq_false (orders : Orders cmp key) {xs : List α} :
    needsSort cmp xs = false ↔ xs.Pairwise fun x y => key x ≤ key y := by
  have : IsTrans α fun x y => key x ≤ key y := ⟨fun _ _ _ => Int.le_trans⟩
  have keyed : (fun x y => cmp x y ≠ .gt) = fun x y => key x ≤ key y :=
    funext fun x => funext fun y => propext (bne_iff_ne.symm.trans (orders x y))
  rw [needsSort_eq_false_iff_isChain, keyed]
  exact List.isChain_iff_pairwise

/-- The elements in order, each with the position it had. -/
def ranked (cmp : α → α → Ordering) (xs : List α) : List (α × Nat) :=
  xs.zipIdx.mergeSort fun x y => cmp x.1 y.1 != .gt

theorem perm_ranked (cmp : α → α → Ordering) (xs : List α) : (ranked cmp xs).Perm xs.zipIdx := List.mergeSort_perm _ _

theorem pairwise_ranked (orders : Orders cmp key) (xs : List α) :
    (ranked cmp xs).Pairwise fun x y => key x.1 ≤ key y.1 := by
  refine (List.pairwise_mergeSort (fun a b c hab hbc => ?_) (fun a b => ?_) _).imp fun h => (orders _ _).1 h
  · exact (orders _ _).2 (Int.le_trans ((orders _ _).1 hab) ((orders _ _).1 hbc))
  · rcases Int.le_total (key a.1) (key b.1) with le | le
    · rw [(orders _ _).2 le, Bool.true_or]
    · rw [(orders _ _).2 le, Bool.or_true]

/-- `permuteOrFault` with the positions of slots puts these slots in the given order. -/
theorem permuteOrFault_of {γ : Type} {rs : List γ} {place slot : γ → Nat} (length : rs.length = t.order.length)
    (found : ∀ r ∈ rs, t.order[place r]? = some (slot r)) :
    t.permuteOrFault (rs.map place) = .ok { t with order := rs.map slot } := by
  have permuted : t.permute ((rs.map place).map Int.ofNat) = .ok { t with order := rs.map slot } := by
    unfold permute
    rw [if_neg (by simpa using length)]
    refine Action.except_bind_eq_ok.2 ⟨rs.map slot, ?_, rfl⟩
    rw [Action.except_mapM_eq_ok]
    simp only [List.forall₂_map_left_iff, List.forall₂_map_right_iff, List.forall₂_same]
    intro r hr
    have here : t.slotAt? (Int.ofNat (place r)) = some (slot r) := Whole.slotAt?_eq_some.2 ⟨place r, rfl, found r hr⟩
    rw [here]
  unfold permuteOrFault
  rw [permuted]

theorem permute_ranked (h : Whole t) :
    t.permuteOrFault (sorting cmp t.values) =
      .ok { t with order := (ranked cmp t.values).map fun z => t.order.getD z.2 0 } := by
  refine permuteOrFault_of ?_ fun z hz => ?_
  · rw [← ranked, (perm_ranked cmp t.values).length_eq, List.length_zipIdx, h.length_values]
  · have found := List.mem_zipIdx_iff_getElem?.1 ((perm_ranked cmp t.values).mem_iff.1 hz)
    have inside := (List.getElem?_eq_some_iff.1 found).1
    rw [h.length_values] at inside
    rw [List.getD_eq_getElem?_getD, List.getElem?_eq_getElem inside, Option.getD_some]

theorem sort_eq_self (orders : Orders cmp key) (sorted : t.values.Pairwise fun x y => key x ≤ key y) :
    t.sort cmp = .ok (false, t) := by
  unfold Table.sort
  rw [(needsSort_eq_false orders).2 sorted]
  rfl

/-- `sort` of a whole table succeeds, keeps it whole, and puts its values in the order of their keys. -/
theorem Whole.sort (h : Whole t) (orders : Orders cmp key) :
    ∃ moved u, t.sort cmp = .ok (moved, u) ∧ Whole u ∧ u.count = t.count ∧ u.values.Perm t.values ∧
      u.values.Pairwise (fun x y => key x ≤ key y) ∧ (moved = false → u = t) := by
  unfold Table.sort
  cases needs : needsSort cmp t.values with
  | false => exact ⟨false, t, rfl, h, rfl, .refl _, (needsSort_eq_false orders).1 needs, fun _ => rfl⟩
  | true =>
    let u : Table α := { t with order := (ranked cmp t.values).map fun z => t.order.getD z.2 0 }
    have value : ∀ z ∈ ranked cmp t.values, t.value? (t.order.getD z.2 0) = some z.1 := by
      intro z hz
      have found := List.mem_zipIdx_iff_getElem?.1 ((perm_ranked cmp t.values).mem_iff.1 hz)
      rw [h.getElem?_values, Option.bind_eq_some_iff] at found
      obtain ⟨s, hs, hv⟩ := found
      rw [List.getD_eq_getElem?_getD, hs, Option.getD_some, hv]
    have values : u.values = (ranked cmp t.values).map Prod.fst := by
      rw [values_eq, List.filterMap_map, ← List.filterMap_eq_map]
      exact List.filterMap_congr value
    have perm : u.values.Perm t.values := by
      have moved := (perm_ranked cmp t.values).map Prod.fst
      rwa [← values, List.zipIdx_map_fst] at moved
    have order : u.order.Perm t.order := by
      have back : (t.values.zipIdx.map fun z => t.order.getD z.2 0) = t.order := by
        refine List.ext_getElem (by simp [h.length_values]) fun i h₁ h₂ => ?_
        simp [h₂]
      rw [← back]
      exact (perm_ranked cmp t.values).map _
    have whole : Whole u := ⟨order.nodup_iff.2 h.nodup, fun s hs => h.filled s (order.mem_iff.1 hs)⟩
    refine ⟨true, u, ?_, whole, rfl, perm, ?_, fun no => by cases no⟩
    · rw [if_pos rfl, permute_ranked h]
      rfl
    · rw [values, List.pairwise_map]
      exact pairwise_ranked orders _

end Sorting

/-! ## Reading -/

section Slots

variable {element : Cursor → Action α Cursor} {fresh : α} {R : α → Prop} {enc : α → Bytes} {I : Cursor → Prop}

/-- Reading fresh elements into a row of slots: exactly if the bytes of the elements are at the cursor. `I` is a
property of cursors that the readers keep. -/
theorem gives_decodeSlots (keeps : ∀ {c c' b}, Cursor.Spans c b c' → I c → I c')
    (h : ∀ c c' y, I c → ((element c).Gives fresh c' y ↔ R y ∧ c.Spans (enc y) c')) (hc : I c) (n i : Nat) (done : List (Slot α)) (t : Table α)
    (slots : t.slots = (done ++ List.replicate n (Slot.mk .table fresh)).toArray) {u : Table α} :
    (decodeSlots element i (List.range' done.length n) c).Gives t c' u ↔
      ∃ ys : List α, ys.length = n ∧ (∀ y ∈ ys, R y) ∧ u = { t with slots := (done ++ ys.map (Slot.mk .table)).toArray } ∧
        c.Spans (ys.flatMap enc) c' := by
  induction n generalizing c i done t with
  | zero =>
    simp only [List.range'_zero, decodeSlots, Action.gives_pure, List.length_eq_zero_iff]
    rw [List.replicate_zero, List.append_nil] at slots
    constructor
    · rintro ⟨rfl, rfl⟩
      exact ⟨[], rfl, by simp, by rw [List.map_nil, List.append_nil, ← slots], Cursor.spans_nil.2 rfl⟩
    · rintro ⟨_, rfl, -, rfl, spans⟩
      obtain rfl := Cursor.spans_nil.1 spans
      rw [List.map_nil, List.append_nil, ← slots]
      exact ⟨rfl, rfl⟩
  | succ n ih =>
    have here : t.slots[done.length]? = some ⟨.table, fresh⟩ := by
      rw [slots]
      simp [List.replicate_succ]
    have next : ∀ y, t.slots.setIfInBounds done.length (Slot.mk .table y) =
        ((done ++ [Slot.mk .table y]) ++ List.replicate n (Slot.mk .table fresh)).toArray := by
      intro y
      rw [slots]
      simp [List.replicate_succ]
    simp only [List.range'_succ, decodeSlots, Action.gives_bind, Action.gives_of, here]
    constructor
    · rintro ⟨c₁, _, run, rest⟩
      rcases e : (element c).apply fresh with ⟨r, y⟩
      rw [e] at run
      cases r with
      | error e => cases run
      | ok c₂ =>
        cases run
        obtain ⟨hR, s₁⟩ := (h c c₁ y hc).1 e
        rw [next] at rest
        let read : Table α :=
          { t with slots := ((done ++ [Slot.mk .table y]) ++ List.replicate n (Slot.mk .table fresh)).toArray }
        have rest := (ih (keeps s₁ hc) (i + 1) (done ++ [Slot.mk .table y]) read rfl).1 (by simpa [read] using rest)
        obtain ⟨ys, length, hRs, rfl, s₂⟩ := rest
        refine ⟨y :: ys, by rw [List.length_cons, length], ?_, by simp [read], ?_⟩
        · intro z hz
          rcases List.mem_cons.1 hz with rfl | hz
          · exact hR
          · exact hRs z hz
        · rw [List.flatMap_cons]
          exact Cursor.spans_append.2 ⟨c₁, s₁, s₂⟩
    · rintro ⟨ys, length, hRs, rfl, spans⟩
      cases ys with
      | nil => cases length
      | cons y ys =>
        rw [List.flatMap_cons] at spans
        obtain ⟨c₁, s₁, s₂⟩ := Cursor.spans_append.1 spans
        have run : (element c).apply fresh = (.ok c₁, y) := (h c c₁ y hc).2 ⟨hRs y List.mem_cons_self, s₁⟩
        refine ⟨c₁, _, by rw [run]; rfl, ?_⟩
        rw [next]
        have rest := (ih (keeps s₁ hc) (i + 1) (done ++ [Slot.mk .table y])
          { t with slots := ((done ++ [Slot.mk .table y]) ++ List.replicate n (Slot.mk .table fresh)).toArray } rfl).2
          ⟨ys, by simpa using length, fun z hz => hRs z (List.mem_cons_of_mem _ hz), by simp, s₂⟩
        simpa using rest

theorem gives_decodeCount {u : Table α} :
    (Table.decodeCount c).Gives { count := some (.uleb {}) } c' u ↔
      ∃ n : Uleb, n.Read ∧ c.Spans n.bytes c' ∧ u = { count := some (.uleb n) } := by
  simp only [Table.decodeCount, Action.gives_of, Prod.mk.injEq]
  constructor
  · rintro ⟨ok, rfl⟩
    obtain ⟨n, e, read, spans⟩ := gives_decodeUlebCell.1 (Prod.ext ok rfl : (Cell.decode c).Gives (.uleb {}) c' _)
    exact ⟨n, read, spans, congrArg (fun x => ({ count := some x } : Table α)) e⟩
  · rintro ⟨n, read, spans, rfl⟩
    have run : (Cell.decode c).apply (.uleb {}) = (.ok c', .uleb n) := gives_decodeUlebCell.2 ⟨n, rfl, read, spans⟩
    rw [run]
    exact ⟨rfl, rfl⟩

/-- An empty table with a count `n`, resized: `n` fresh elements. -/
theorem resize_counted (n : Uleb) (fresh : α) :
    resize { count := some (.uleb n) } (Cell.uleb n).get fresh =
      { count := some (.uleb n)
        slots := ([] ++ List.replicate n.value.toNat (Slot.mk .table fresh)).toArray
        order := List.range' 0 n.value.toNat } := by
  unfold resize
  simp only [List.drop_nil, List.foldl_nil, List.take_nil, List.length_nil, Nat.sub_zero, Array.size_empty]
  rw [updateCount_eq_self]
  · simp [Cell.get, Uleb.get, home]
  · rintro _ ⟨⟩
    simp [Cell.get, Uleb.get]

/-- Reading the elements of an empty table whose count is known: exactly if the bytes of as many elements are at the
cursor. -/
theorem gives_decode_counted (keeps : ∀ {c c' b}, Cursor.Spans c b c' → I c → I c')
    (h : ∀ c c' y, I c → ((element c).Gives fresh c' y ↔ R y ∧ c.Spans (enc y) c')) (hc : I c) {n : Uleb}
    {u : Table α} :
    (Table.decode fresh element c).Gives { count := some (.uleb n) } c' u ↔
      ∃ xs : List α, xs.length = n.value.toNat ∧ (∀ x ∈ xs, R x) ∧ u = filled (some (.uleb n)) xs ∧
        c.Spans (xs.flatMap enc) c' := by
  simp only [Table.decode, Action.gives_bind, Action.gives_modify, Action.gives_get]
  constructor
  · rintro ⟨_, _, rfl, _, _, ⟨rfl, rfl⟩, run⟩
    simp only [resize_counted] at run
    obtain ⟨xs, length, hR, rfl, spans⟩ := (gives_decodeSlots keeps h hc _ 0 [] _ rfl).1 run
    refine ⟨xs, length, hR, ?_, spans⟩
    simp [filled, List.range_eq_range', length]
  · rintro ⟨xs, length, hR, rfl, spans⟩
    refine ⟨⟨⟩, _, rfl, _, _, ⟨rfl, rfl⟩, ?_⟩
    simp only [resize_counted]
    refine (gives_decodeSlots keeps h hc _ 0 [] _ rfl).2 ⟨xs, length, hR, ?_, spans⟩
    simp [filled, List.range_eq_range', length]

/-- `decodeSlots` keeps the table whole and its slots where they are, also when it fails. -/
theorem upholds_decodeSlots (element : Cursor → Action α Cursor) (order : List Nat) (count : Option Cell) (i : Nat)
    (slots : List Nat) (c : Cursor) :
    Action.Upholds (fun t => Whole t ∧ t.order = order ∧ t.count = count) (decodeSlots element i slots c) := by
  induction slots generalizing i c with
  | nil => exact Action.upholds_pure c
  | cons s slots ih =>
    refine Action.Upholds.bind (fun t h => ?_) fun _ => ih _ _
    obtain ⟨whole, rest⟩ := h
    rw [Action.apply_of]
    dsimp only
    split
    · exact ⟨whole, rest⟩
    · refine ⟨⟨whole.nodup, fun k hk => ?_⟩, rest⟩
      have filled := whole.filled k hk
      rw [value?] at filled ⊢
      dsimp only
      rw [Array.getElem?_setIfInBounds]
      split
      · next x _ here =>
        subst here
        rw [if_pos (whole.lt_size hk)]
        rfl
      · exact filled

theorem upholds_decodeCount (c : Cursor) : Action.Upholds Whole (decodeCount c : Action (Table α) Cursor) := by
  intro t h
  rw [decodeCount, Action.apply_of]
  dsimp only
  split
  · exact h
  · exact ⟨h.nodup, h.filled⟩

/-- `decodeCount` reads the count cell. -/
theorem exists_decodeCount {u : Table α} {cell : Cell} (stored : t.count = some cell)
    (run : (decodeCount c : Action (Table α) Cursor).Gives t c' u) :
    ∃ cell', (Cell.decode c).Gives cell c' cell' ∧ u = { t with count := some cell' } := by
  rw [decodeCount, Action.gives_of, stored] at run
  dsimp only at run
  rcases e : (Cell.decode c).apply cell with ⟨r, cell'⟩
  rw [e] at run
  cases run
  exact ⟨cell', e, rfl⟩

/-- Reading a table leaves it whole, with a slot for each element that the count announces, also when it fails. -/
theorem whole_decode (fresh : α) (element : Cursor → Action α Cursor) (c : Cursor) (h : Whole t) :
    let u := ((Table.decode fresh element c).apply t).2
    Whole u ∧ u.count = t.count.map (·.set u.order.length) := by
  simp only [Table.decode, Action.apply_bind, Action.apply_modify, Action.apply_get]
  cases count : t.count with
  | none =>
    obtain ⟨whole, order, same⟩ := upholds_decodeSlots element t.order t.count 0 t.order c t ⟨h, rfl, rfl⟩
    exact ⟨whole, same.trans count⟩
  | some cell =>
    obtain ⟨whole, order, same⟩ := upholds_decodeSlots element (t.resize cell.get fresh).order
      (t.resize cell.get fresh).count 0 (t.resize cell.get fresh).order c _ ⟨h.resize _ _, rfl, rfl⟩
    refine ⟨whole, same.trans ?_⟩
    rw [order]
    change t.count.map _ = _
    rw [count]
    rfl

end Slots

end Dalvik.Table
