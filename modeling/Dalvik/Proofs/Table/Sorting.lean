import Dalvik.Proofs.Table

/-!
# Sorting with a parallel table

`t.items` are the elements of a table with the slots they are in. Sorting applies the same
permutation to the items of a table and of a parallel one (`permute_items`), so the rows of the two
are sorted together (`sortWith_rows`), and the sorting is stable (`StableSort`).
-/

namespace Dalvik

/-! ## Stable sorting -/

/-- `after` is a permutation of `before` in ascending order, in which equal elements have kept their order. -/
structure StableSort {α : Type} (cmp : α → α → Ordering) (before after : List α) : Prop where
  perm : after.Perm before
  sorted : after.Pairwise fun x y => cmp x y ≠ .gt
  stable : ∀ x, (after.filter fun y => cmp x y == .eq) = before.filter fun y => cmp x y == .eq

section

variable {α : Type} {cmp : α → α → Ordering} [Std.TransCmp cmp]

theorem ne_gt_trans {x y z : α} (hxy : cmp x y ≠ .gt) (hyz : cmp y z ≠ .gt) : cmp x z ≠ .gt :=
  Ordering.isLE_iff_ne_gt.1 (Std.TransCmp.isLE_trans (Ordering.isLE_iff_ne_gt.2 hxy) (Ordering.isLE_iff_ne_gt.2 hyz))

theorem stableSort_mergeSort (xs : List α) : StableSort cmp xs (xs.mergeSort fun x y => cmp x y != .gt) := by
  have trans : ∀ x y z, (cmp x y != .gt) = true → (cmp y z != .gt) = true → (cmp x z != .gt) = true := by
    simp only [bne_iff_ne]
    exact fun x y z => ne_gt_trans
  have total : ∀ x y, (cmp x y != .gt || cmp y x != .gt) = true := by
    intro x y
    have swap : cmp y x = (cmp x y).swap := Std.OrientedCmp.eq_swap
    rw [swap]
    cases cmp x y <;> rfl
  refine ⟨List.mergeSort_perm _ _, (List.pairwise_mergeSort trans total xs).imp bne_iff_ne.1, fun x => ?_⟩
  -- What is equal to `x` is in order as it is, so it is still a part of the sorted list, and there is no more of it there.
  have tied : (xs.filter fun y => cmp x y == .eq).Pairwise fun y z => (cmp y z != .gt) = true := by
    refine List.pairwise_of_forall_mem_list fun y hy z hz => ?_
    have hy := beq_iff_eq.1 (List.mem_filter.1 hy).2
    have hz := beq_iff_eq.1 (List.mem_filter.1 hz).2
    rw [Std.TransCmp.eq_trans (Std.OrientedCmp.eq_symm hy) hz]
    rfl
  have part := (List.sublist_mergeSort trans total tied List.filter_sublist).filter fun y => cmp x y == .eq
  rw [List.filter_filter] at part
  simp only [Bool.and_self] at part
  exact (part.eq_of_length (((List.mergeSort_perm xs _).filter _).length_eq).symm).symm

theorem ne_gt_of_mem {x : α} {xs : List α} (sorted : (x :: xs).Pairwise fun x y => cmp x y ≠ .gt) :
    ∀ y ∈ x :: xs, cmp x y ≠ .gt := by
  have self : cmp x x = .eq := Std.ReflCmp.compare_self
  exact List.forall_mem_cons.2 ⟨by rw [self]; exact Ordering.noConfusion, fun _ => List.rel_of_pairwise_cons sorted⟩

/-- The stable sort of a list is unique. -/
theorem StableSort.unique {before xs ys : List α} (hx : StableSort cmp before xs) (hy : StableSort cmp before ys) : xs = ys := by
  have perm : xs.Perm ys := hx.perm.trans hy.perm.symm
  have stable : ∀ z, (xs.filter fun y => cmp z y == .eq) = ys.filter fun y => cmp z y == .eq :=
    fun z => (hx.stable z).trans (hy.stable z).symm
  have sortedx := hx.sorted
  have sortedy := hy.sorted
  clear hx hy
  induction xs generalizing ys with
  | nil => exact perm.nil_eq
  | cons x xs ih =>
    match ys with
    | [] => exact perm.eq_nil
    | y :: ys =>
      -- Both heads are least, so they are equal to each other, and each is the first of those.
      have equal : cmp x y = .eq := by
        have hxy := ne_gt_of_mem sortedx y (perm.mem_iff.2 List.mem_cons_self)
        have hyx := ne_gt_of_mem sortedy x (perm.mem_iff.1 List.mem_cons_self)
        have swap : cmp y x = (cmp x y).swap := Std.OrientedCmp.eq_swap
        rw [swap] at hyx
        cases h : cmp x y with
        | eq => rfl
        | gt => exact absurd h hxy
        | lt => exact absurd (by rw [h]; rfl) hyx
      have self : cmp x x = .eq := Std.ReflCmp.compare_self
      have first := stable x
      rw [List.filter_cons_of_pos (by rw [self]; rfl), List.filter_cons_of_pos (by rw [equal]; rfl)] at first
      obtain ⟨rfl, -⟩ := List.cons.inj first
      rw [ih perm.cons_inv (fun z => ?_) sortedx.of_cons sortedy.of_cons]
      have rest := stable z
      rw [List.filter_cons, List.filter_cons] at rest
      split at rest
      · exact (List.cons.inj rest).2
      · exact rest

end

namespace Table

variable {α β γ : Type} {cmp : α → α → Ordering} {t : Table α}

/-! ## Items -/

/-- The elements from first to last, each with its slot. -/
def items (t : Table α) : List (Nat × α) := t.order.filterMap fun s => (t.value? s).map fun v => (s, v)

/-- Every slot in the order of the table holds an element. -/
def Occupied (t : Table α) : Prop := ∀ s ∈ t.order, (t.value? s).isSome

theorem items_of_order {xs : List (Nat × α)} (order : t.order = xs.map Prod.fst) (value : ∀ x ∈ xs, t.value? x.1 = some x.2) :
    t.items = xs := by
  rw [items, order, List.filterMap_map]
  have each : xs.filterMap ((fun s => (t.value? s).map fun v => (s, v)) ∘ Prod.fst) = xs.filterMap some :=
    List.filterMap_congr fun x hx => by rw [Function.comp_apply, value x hx, Option.map_some]
  rw [each, List.filterMap_some]

theorem value?_of_mem_items {x : Nat × α} (h : x ∈ t.items) : t.value? x.1 = some x.2 := by
  obtain ⟨s, -, e⟩ := List.mem_filterMap.1 h
  obtain ⟨v, hv, rfl⟩ := Option.map_eq_some_iff.1 e
  exact hv

theorem map_snd_items (t : Table α) : t.items.map Prod.snd = t.values := by
  rw [items, List.map_filterMap, values_eq]
  refine List.filterMap_congr fun s _ => ?_
  cases t.value? s <;> rfl

theorem Occupied.map_fst_items (h : Occupied t) : t.items.map Prod.fst = t.order := by
  rw [items, List.map_filterMap]
  have each : ∀ s ∈ t.order, ((t.value? s).map fun v => (s, v)).map Prod.fst = some s := by
    intro s hs
    obtain ⟨v, hv⟩ := Option.isSome_iff_exists.1 (h s hs)
    rw [hv]
    rfl
  rw [List.filterMap_congr each, List.filterMap_some]

theorem Occupied.length_items (h : Occupied t) : t.items.length = t.size := by
  rw [size, ← h.map_fst_items, List.length_map]

/-! ## Permuted items -/

/-- `permuteOrFault` applies a permutation to the items and changes nothing else. -/
theorem permute_items (h : Occupied t) {rs : List (γ × Nat)} {item : γ → Nat × α} (length : rs.length = t.size)
    (found : ∀ r ∈ rs, t.items[r.2]? = some (item r.1)) :
    ∃ u, t.permuteOrFault (rs.map Prod.snd) = .ok u ∧ u = { t with order := u.order } ∧ u.size = t.size ∧
      u.items = rs.map fun r => item r.1 := by
  have slots : ∀ r ∈ rs, t.order[r.2]? = some (item r.1).1 := by
    intro r hr
    rw [← h.map_fst_items, List.getElem?_map, found r hr, Option.map_some]
  refine ⟨_, permuteOrFault_of length slots, rfl, by rw [size, List.length_map, length], ?_⟩
  refine items_of_order (by rw [List.map_map]; rfl) fun x hx => ?_
  obtain ⟨r, hr, rfl⟩ := List.mem_map.1 hx
  have mem : item r.1 ∈ t.items := List.mem_of_getElem? (found r hr)
  exact value?_of_mem_items (t := t) mem

/-- The rows with their places, sorted by a key. -/
def rankedRows (cmp : α → α → Ordering) (key : γ → α) (rows : List γ) : List (γ × Nat) :=
  rows.zipIdx.mergeSort fun x y => cmp (key x.1) (key y.1) != .gt

section

variable {key : γ → α} {rows : List γ}

theorem sorting_map (cmp : α → α → Ordering) (key : γ → α) (rows : List γ) :
    sorting cmp (rows.map key) = (rankedRows cmp key rows).map Prod.snd := by
  have same : (rankedRows cmp key rows).map (Prod.map key id) =
      (rows.map key).zipIdx.mergeSort fun x y => cmp x.1 y.1 != .gt := by
    rw [List.zipIdx_map]
    exact List.map_mergeSort fun _ _ _ _ => rfl
  rw [sorting, ← same, List.map_map]
  rfl

theorem map_fst_rankedRows (cmp : α → α → Ordering) (key : γ → α) (rows : List γ) :
    (rankedRows cmp key rows).map Prod.fst = rows.mergeSort fun x y => cmp (key x) (key y) != .gt := by
  have forget := List.map_mergeSort (r := fun x y : γ × Nat => cmp (key x.1) (key y.1) != .gt)
    (s := fun x y => cmp (key x) (key y) != .gt) (f := Prod.fst) (l := rows.zipIdx) fun _ _ _ _ => rfl
  rw [rankedRows, forget, List.zipIdx_map_fst]

theorem getElem?_of_mem_rankedRows {r : γ × Nat} (h : r ∈ rankedRows cmp key rows) : rows[r.2]? = some r.1 :=
  List.mem_zipIdx_iff_getElem?.1 ((List.mergeSort_perm _ _).mem_iff.1 h)

theorem length_rankedRows : (rankedRows cmp key rows).length = rows.length := by
  rw [rankedRows, List.length_mergeSort, List.length_zipIdx]

end

/-! ## Sorting -/

/-- `needsSort` is false exactly if no element is greater than a later one. -/
theorem needsSort_eq_false_iff_pairwise [Std.TransCmp cmp] {xs : List α} :
    needsSort cmp xs = false ↔ xs.Pairwise fun x y => cmp x y ≠ .gt := by
  have : IsTrans α fun x y => cmp x y ≠ .gt := ⟨fun _ _ _ => ne_gt_trans⟩
  rw [needsSort_eq_false_iff_isChain]
  exact List.isChain_iff_pairwise

/-- The elements of two tables side by side. -/
def rows (t : Table α) (u : Table β) : List ((Nat × α) × (Nat × β)) := t.items.zip u.items

/-- For two tables of the same length: if the first is in ascending order, `sortWith` returns `false` and changes
neither. Otherwise it returns `true` and permutes both, such that the rows are afterwards the stable sort of what they
were, by the elements of the first table; nothing but the order of the two tables changes. -/
theorem sortWith_rows [Std.TransCmp cmp] {u : Table β} (ht : Occupied t) (hu : Occupied u) (length : u.size = t.size) :
    (t.values.Pairwise (fun x y => cmp x y ≠ .gt) → t.sortWith cmp u = .ok (false, t, u)) ∧
    (¬ t.values.Pairwise (fun x y => cmp x y ≠ .gt) → ∃ t' u', t.sortWith cmp u = .ok (true, t', u') ∧
      StableSort (fun x y => cmp x.1.2 y.1.2) (rows t u) (rows t' u') ∧ t'.size = t.size ∧ u'.size = u.size ∧
      t' = { t with order := t'.order } ∧ u' = { u with order := u'.order }) := by
  rw [← needsSort_eq_false_iff_pairwise, Bool.not_eq_false]
  refine ⟨fun sorted => by rw [sortWith, sorted]; rfl, fun needs => ?_⟩
  let key : (Nat × α) × (Nat × β) → α := fun x => x.1.2
  have sizes : (rows t u).length = t.size := by
    rw [rows, List.length_zip, ht.length_items, hu.length_items, length, Nat.min_self]
  have values : t.values = (rows t u).map key := by
    have firsts : (rows t u).map Prod.fst = t.items :=
      List.map_fst_zip (by rw [ht.length_items, hu.length_items, length])
    rw [← map_snd_items, ← firsts, List.map_map]
    rfl
  have side : ∀ r ∈ rankedRows cmp key (rows t u), t.items[r.2]? = some r.1.1 ∧ u.items[r.2]? = some r.1.2 :=
    fun r hr => List.getElem?_zip_eq_some.1 (getElem?_of_mem_rankedRows hr)
  obtain ⟨t', permuted, same, size, items⟩ := permute_items ht (length_rankedRows.trans sizes) fun r hr => (side r hr).1
  obtain ⟨u', permuted', same', size', items'⟩ :=
    permute_items hu (length_rankedRows.trans (sizes.trans length.symm)) fun r hr => (side r hr).2
  refine ⟨t', u', ?_, ?_, size, size', same, same'⟩
  · rw [sortWith, needs, values, sorting_map]
    exact Action.except_bind_eq_ok.2 ⟨u', permuted', Action.except_bind_eq_ok.2 ⟨t', permuted, rfl⟩⟩
  · have sorted : rows t' u' = (rows t u).mergeSort fun x y => cmp x.1.2 y.1.2 != .gt := by
      rw [← map_fst_rankedRows cmp key, rows, items, items', List.zip_map']
    have : Std.TransCmp fun x y : (Nat × α) × (Nat × β) => cmp x.1.2 y.1.2 :=
      { eq_swap := Std.OrientedCmp.eq_swap, isLE_trans := Std.TransCmp.isLE_trans }
    rw [sorted]
    exact stableSort_mergeSort _

/-- Equal elements keep their order, and the elements of the parallel table stay beside them. -/
theorem sortWith_rows_labelled :
    let t : Table Int := filled none [5, 1, 3, 1]
    let u : Table String := filled none ["50", "10", "30", "11"]
    ∃ t' u', t.sortWith compare u = .ok (true, t', u') ∧
      StableSort (fun x y => compare x.1.2 y.1.2) (rows t u) (rows t' u') ∧ t'.size = t.size ∧ u'.size = u.size ∧
      t' = { t with order := t'.order } ∧ u' = { u with order := u'.order } := by
  intro t u
  have ht : Occupied t := (whole_filled none _).filled
  have hu : Occupied u := (whole_filled none _).filled
  have unsorted : ¬ t.values.Pairwise fun x y => compare x y ≠ .gt := by decide
  exact (sortWith_rows ht hu rfl).2 unsorted

end Table

end Dalvik
