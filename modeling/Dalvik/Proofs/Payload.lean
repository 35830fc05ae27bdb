import Dalvik.Code.Payload
import Dalvik.Proofs.Table
import Mathlib.Data.List.Perm.Basic

/-!
# Switch tables

Sorting a sparse table moves each case together with its value (`Rearranged`) and leaves the values
in order; refreshing it leaves them strictly increasing (`gives_refresh`), and a table that already
is so as it was (`refresh_of_increasing`).
-/

namespace Dalvik.SparseTable

variable {t u : SparseTable}

/-- The cases of a sparse table, each with its stored value. -/
def pairs (t : SparseTable) : List (UInt32 × Case) := t.keys.zip t.cases

/-- `u` has the cases of `t` in another order, each with its value. -/
structure Rearranged (t u : SparseTable) : Prop where
  identifier : u.identifier = t.identifier
  owner : u.owner = t.owner
  keys : u.keys.length = t.keys.length
  cases : u.cases.length = t.cases.length
  pairs : u.pairs.Perm t.pairs

theorem Rearranged.refl (t : SparseTable) : Rearranged t t := ⟨rfl, rfl, rfl, rfl, .refl _⟩

/-! ## Order -/

theorem orders_keyOrder : Table.Orders keyOrder signed32 := by
  intro x y
  unfold keyOrder
  simp [Int.compare_eq_gt]

/-- The values in order, each with the position it had in `ks`. -/
def ranked (ks : List UInt32) : List (UInt32 × Nat) :=
  ks.zipIdx.mergeSort fun x y => keyOrder x.1 y.1 != .gt

theorem sorting_eq (ks : List UInt32) : Table.sorting keyOrder ks = (ranked ks).map Prod.snd := rfl

theorem perm_ranked (ks : List UInt32) : (ranked ks).Perm ks.zipIdx := Table.perm_ranked keyOrder ks

theorem length_ranked (ks : List UInt32) : (ranked ks).length = ks.length := by
  rw [(perm_ranked ks).length_eq, List.length_zipIdx]

theorem getElem?_of_mem_ranked {ks : List UInt32} {z : UInt32 × Nat} (h : z ∈ ranked ks) : ks[z.2]? = some z.1 :=
  List.mem_zipIdx_iff_getElem?.1 ((perm_ranked ks).mem_iff.1 h)

theorem arrange_keys (ks : List UInt32) : arrange ((ranked ks).map Prod.snd) ks = (ranked ks).map Prod.fst := by
  have each : ∀ zs : List (UInt32 × Nat), (∀ z ∈ zs, ks[z.2]? = some z.1) →
      arrange (zs.map Prod.snd) ks = zs.map Prod.fst := by
    intro zs
    induction zs with
    | nil => intro _; rfl
    | cons z zs ih =>
      intro h
      have tail := ih fun y hy => h y (List.mem_cons_of_mem _ hy)
      unfold arrange at tail ⊢
      rw [List.map_cons, List.filterMap_cons, h z List.mem_cons_self, tail, List.map_cons]
  exact each _ fun z hz => getElem?_of_mem_ranked hz

theorem arrange_cases {ks : List UInt32} {cs : List Case} (length : ks.length = cs.length) :
    arrange ((ranked ks).map Prod.snd) cs = (ranked ks).map fun z => cs.getD z.2 {} := by
  have each : ∀ zs : List (UInt32 × Nat), (∀ z ∈ zs, z.2 < cs.length) →
      arrange (zs.map Prod.snd) cs = zs.map fun z => cs.getD z.2 {} := by
    intro zs
    induction zs with
    | nil => intro _; rfl
    | cons z zs ih =>
      intro h
      have tail := ih fun y hy => h y (List.mem_cons_of_mem _ hy)
      have here := List.getElem?_eq_getElem (h z List.mem_cons_self)
      unfold arrange at tail ⊢
      rw [List.map_cons, List.filterMap_cons, here, tail, List.map_cons, List.getD_eq_getElem?_getD, here,
        Option.getD_some]
  refine each _ fun z hz => ?_
  have := (List.getElem?_eq_some_iff.1 (getElem?_of_mem_ranked hz)).1
  omega

theorem zip_eq_map_zipIdx {ks : List UInt32} {cs : List Case} (length : ks.length = cs.length) :
    (ks.zipIdx.map fun z => (z.1, cs.getD z.2 {})) = ks.zip cs := by
  refine List.ext_getElem (by simp [length]) fun i h₁ h₂ => ?_
  have hi : i < cs.length := by
    simp only [List.length_map, List.length_zipIdx] at h₁
    omega
  simp [hi]

theorem sort_eq_ok {moved : Bool} (h : t.sort = .ok (moved, u)) :
    Rearranged t u ∧ u.unsorted = false ∧ u.size = t.size ∧ u.keys.Pairwise fun x y => signed32 x ≤ signed32 y := by
  unfold sort at h
  simp only at h
  split at h
  · split at h
    · next length =>
      cases h
      rw [sorting_eq] at length ⊢
      rw [List.length_map, length_ranked] at length
      rw [arrange_keys, arrange_cases length]
      refine ⟨⟨rfl, rfl, by simp [length_ranked], by simp [length_ranked, length], ?_⟩, rfl, rfl, ?_⟩
      · unfold pairs
        rw [List.zip_map', ← zip_eq_map_zipIdx length]
        exact (perm_ranked t.keys).map _
      · rw [List.pairwise_map]
        exact Table.pairwise_ranked orders_keyOrder t.keys
    · cases h
  · next sorted =>
    cases h
    exact ⟨⟨rfl, rfl, rfl, rfl, .refl _⟩, rfl, rfl, (Table.needsSort_eq_false orders_keyOrder).1 (by simpa using sorted)⟩

/-! ## Refreshing -/

theorem repeated?_eq_none {ks : List UInt32} (sorted : ks.Pairwise fun x y => signed32 x ≤ signed32 y)
    (h : repeated? (ks.map signed32) = none) : ks.Pairwise fun x y => signed32 x < signed32 y := by
  have chain : ks.IsChain fun x y => signed32 x < signed32 y := by
    induction ks with
    | nil => simp
    | cons a ks ih =>
      cases ks with
      | nil => simp
      | cons b ks =>
        simp only [List.map_cons, repeated?] at h
        split at h
        · cases h
        · next ne =>
          have le := List.rel_of_pairwise_cons sorted List.mem_cons_self
          rw [List.isChain_cons_cons]
          exact ⟨by omega, ih sorted.of_cons h⟩
  have trans : Trans (fun x y : UInt32 => signed32 x < signed32 y) (fun x y => signed32 x < signed32 y)
      (fun x y => signed32 x < signed32 y) := ⟨fun hab hbc => Int.lt_trans hab hbc⟩
  exact List.isChain_iff_pairwise.1 chain

theorem repeated?_of_increasing {vs : List Int} (h : vs.Pairwise (· < ·)) : repeated? vs = none := by
  fun_induction repeated? vs with
  | case1 b rest =>
    have := List.rel_of_pairwise_cons h List.mem_cons_self
    omega
  | case2 a b rest ne ih => exact ih h.of_cons
  | case3 => rfl

/-- A successful `refresh` keeps each case with its value, makes the values strictly increasing, and stores the number
of cases. -/
theorem gives_refresh (h : refresh.Gives t ⟨⟩ u) :
    Rearranged t u ∧ u.unsorted = false ∧ u.size = UInt16.ofNat u.cases.length ∧
      u.keys.Pairwise fun x y => signed32 x < signed32 y := by
  -- Either way there is a sorted table whose size is then brought up to date.
  have checked : ∃ v, Rearranged t v ∧ v.unsorted = false ∧ (v.keys.Pairwise fun x y => signed32 x ≤ signed32 y) ∧
      repeated? v.values = none ∧ u = v.updateSize := by
    unfold refresh at h
    simp only [Action.gives_bind, Action.gives_get] at h
    obtain ⟨_, _, ⟨rfl, rfl⟩, h⟩ := h
    split at h
    · simp only [Action.gives_bind, Action.gives_lift, Action.gives_set, Action.gives_get] at h
      obtain ⟨⟨moved, v⟩, _, ⟨hv, rfl⟩, _, _, rfl, _, _, ⟨rfl, rfl⟩, h⟩ := h
      obtain ⟨rearranged, unsorted, -, sorted⟩ := sort_eq_ok hv
      split at h
      · simp at h
      · next distinct =>
        simp only [Action.gives_modify] at h
        exact ⟨v, rearranged, unsorted, sorted, distinct, h.symm⟩
    · next sorted =>
      simp only [Action.gives_bind, Action.gives_get] at h
      obtain ⟨_, _, ⟨rfl, rfl⟩, h⟩ := h
      split at h
      · simp at h
      · next distinct =>
        simp only [Action.gives_modify] at h
        simp only [Bool.or_eq_true, not_or, Bool.not_eq_true] at sorted
        exact ⟨t, .refl t, sorted.1, (Table.needsSort_eq_false orders_keyOrder).1 sorted.2, distinct, h.symm⟩
  obtain ⟨v, rearranged, unsorted, sorted, distinct, rfl⟩ := checked
  exact ⟨⟨rearranged.identifier, rearranged.owner, rearranged.keys, rearranged.cases, rearranged.pairs⟩, unsorted, rfl,
    repeated?_eq_none sorted distinct⟩

/-- `refresh` of a table with strictly increasing values keeps the cases in place. -/
theorem gives_refresh_of_increasing (increasing : t.keys.Pairwise fun x y => signed32 x < signed32 y) :
    refresh.Gives t ⟨⟩ { t with unsorted := false }.updateSize := by
  have sorted : Table.needsSort keyOrder t.keys = false :=
    (Table.needsSort_eq_false orders_keyOrder).2 (increasing.imp fun h => Int.le_of_lt h)
  have distinct : repeated? t.values = none := by
    refine repeated?_of_increasing ?_
    unfold values
    rwa [List.pairwise_map]
  unfold refresh
  simp only [Action.gives_bind, Action.gives_get]
  refine ⟨t, t, ⟨rfl, rfl⟩, ?_⟩
  cases unsorted : t.unsorted with
  | true =>
    have kept : t.sort = .ok (false, { t with unsorted := false }) := by
      simp only [sort, sorted, Bool.false_eq_true, if_false]
    simp only [Bool.true_or, if_true, Action.gives_bind, Action.gives_lift, Action.gives_set, Action.gives_get]
    refine ⟨_, t, ⟨kept, rfl⟩, ⟨⟩, _, rfl, _, _, ⟨rfl, rfl⟩, ?_⟩
    rw [show ({ t with unsorted := false } : SparseTable).values = t.values from rfl, distinct, Action.gives_modify]
  | false =>
    rw [if_neg (by simp [sorted])]
    simp only [Action.gives_bind, Action.gives_get]
    refine ⟨t, t, ⟨rfl, rfl⟩, ?_⟩
    simp only [distinct, Action.gives_modify, updateSize, ← unsorted]

/-- `refresh` changes nothing in a table with strictly increasing values whose size is stored. -/
theorem refresh_of_increasing (unsorted : t.unsorted = false) (size : t.size = UInt16.ofNat t.cases.length)
    (increasing : t.keys.Pairwise fun x y => signed32 x < signed32 y) : refresh.Gives t ⟨⟩ t := by
  have same : ({ t with unsorted := false } : SparseTable).updateSize = t := by
    simp only [updateSize, ← unsorted, ← size]
  have run := gives_refresh_of_increasing increasing
  rwa [same] at run

/-! ## Packed tables -/

/-- The packed table that `toPacked` returns has the cases of the sorted sparse table and its owner. -/
theorem gives_toPacked {p : PackedTable} (h : toPacked.Gives t p u) :
    p.identifier = UInt16.ofNat Opcode.packedSwitchPayload.value ∧ p.owner = t.owner ∧ Rearranged t u := by
  unfold toPacked at h
  simp only [Action.gives_bind, Action.gives_get, Action.gives_lift, Action.gives_set] at h
  obtain ⟨_, _, ⟨rfl, rfl⟩, ⟨moved, v⟩, _, ⟨hv, rfl⟩, _, _, rfl, h⟩ := h
  obtain ⟨rearranged, -⟩ := sort_eq_ok hv
  split at h
  · simp at h
  · simp only [Action.gives_pure] at h
    obtain ⟨rfl, rfl⟩ := h
    exact ⟨rfl, rearranged.owner, rearranged⟩

/-! ## Whatever comes of it -/

section

open Dalvik.Action (Upholds)

variable {I : SparseTable → Prop} (sort : ∀ t u moved, t.sort = .ok (moved, u) → I t → I u)
include sort

/-- `toPacked` upholds what sorting keeps. It leaves the table sorted, also when it fails. -/
theorem upholds_toPacked : Upholds I toPacked := by
  unfold toPacked
  refine Action.upholds_get fun t ht => Action.after_bind ht fun p _ e => ?_
  obtain ⟨sorted, rfl⟩ := Action.gives_lift.1 e
  obtain ⟨moved, u⟩ := p
  have hu : I u := sort t u moved sorted ht
  refine Action.after_bind hu fun _ _ e => ?_
  obtain rfl := Action.gives_set.1 e
  dsimp only
  split
  · exact hu
  · exact hu

omit sort in
/-- `refresh` checks for a repeated value before it stores the size. -/
theorem upholds_updateSize (resize : ∀ t, I t → I t.updateSize) : Upholds I (do
    match repeated? (← get).values with
    | some k => Action.refuse (.repeatedKey k)
    | none => modify updateSize) := by
  refine Action.upholds_get fun t ht => ?_
  split
  · exact ht
  · exact resize t ht

/-- `refresh` upholds what sorting and storing the size keep. It may leave the table sorted when it fails. -/
theorem upholds_refresh (resize : ∀ t, I t → I t.updateSize) : Upholds I refresh := by
  unfold refresh
  refine Action.upholds_get fun t ht => ?_
  split
  · refine Action.after_bind ht fun p _ e => ?_
    obtain ⟨sorted, rfl⟩ := Action.gives_lift.1 e
    have hu : I p.2 := sort t p.2 p.1 sorted ht
    refine Action.after_bind hu fun _ u e => ?_
    obtain rfl := Action.gives_set.1 e
    exact upholds_updateSize resize _ hu
  · exact upholds_updateSize resize t ht

end

end Dalvik.SparseTable
