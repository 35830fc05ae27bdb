import Dalvik.Proofs.Item
import Dalvik.Proofs.Payload.Editing

/-!
# Converting switch tables

`toSparse` and `toPacked` keep the cases and their values, up to order. A sparse table can be packed
exactly if its sorted values are consecutive (`exists_toPacked_iff`). So a value reaches the same
case before and after a conversion (`caseFor?_toSparse`, `caseFor?_toPacked`), and a packed table
whose values do not wrap around is packed again from its sparse form (`toPacked_toSparse`).
-/

namespace Dalvik

/-! ## Values in a row -/

/-- Each value is one more than the one before it. -/
def InRow (vs : List Int) : Prop := vs.IsChain fun a b => b = a + 1

theorem inRow_iff_find? {vs : List Int} :
    InRow vs ↔ (vs.zip (vs.drop 1)).find? (fun (a, b) => b ≠ a + 1) = none := by
  unfold InRow
  induction vs with
  | nil => simp
  | cons a vs ih =>
    cases vs with
    | nil => simp
    | cons b vs =>
      rw [List.isChain_cons_cons, ih]
      simp

theorem InRow.getElem {vs : List Int} (h : InRow vs) {i : Nat} (hi : i < vs.length) : vs[i] = vs.headD 0 + i := by
  induction i with
  | zero =>
    cases vs with
    | nil => cases hi
    | cons a vs => simp
  | succ i ih =>
    have step := List.isChain_iff_getElem.1 h i hi
    rw [step, ih (by omega)]
    push_cast
    omega

theorem InRow.increasing {vs : List Int} (h : InRow vs) : vs.Pairwise (· < ·) := by
  refine List.pairwise_iff_getElem.2 fun i j hi hj lt => ?_
  rw [h.getElem hi, h.getElem hj]
  omega

/-! ## Cases by value -/

namespace Item

/-- The case that a value reaches. -/
def caseFor? (x : Item) (v : Int) : Option Case := x.pairs.lookup v

end Item

theorem lookup_eq_some_iff_mem {β : Type} {l : List (Int × β)} (nodup : (l.map Prod.fst).Nodup) {v : Int} {b : β} :
    l.lookup v = some b ↔ (v, b) ∈ l := by
  induction l with
  | nil => simp
  | cons x l ih =>
    obtain ⟨k, a⟩ := x
    rw [List.map_cons, List.nodup_cons] at nodup
    rw [List.lookup_cons]
    cases e : v == k with
    | true =>
      obtain rfl : v = k := eq_of_beq e
      have absent : (v, b) ∉ l := fun mem => nodup.1 (List.mem_map.2 ⟨(v, b), mem, rfl⟩)
      simp [absent, eq_comm]
    | false =>
      have ne : v ≠ k := ne_of_beq_false e
      simp [ne, ih nodup.2]

/-- If no value occurs twice, the order of the cases does not matter. -/
theorem lookup_eq_of_perm {β : Type} {l l' : List (Int × β)} (perm : l'.Perm l) (nodup : (l.map Prod.fst).Nodup) (v : Int) :
    l'.lookup v = l.lookup v := by
  refine Option.ext fun b => ?_
  have nodup' : (l'.map Prod.fst).Nodup := (perm.map Prod.fst).nodup_iff.2 nodup
  rw [lookup_eq_some_iff_mem nodup, lookup_eq_some_iff_mem nodup', perm.mem_iff]

/-! ## To a sparse table -/

theorem signed32_ofInt_wrap32 (v : Int) : signed32 (UInt32.ofInt (wrap32 v)) = wrap32 v := by
  rw [signed32_ofInt_eq_wrap32]
  exact Int.bmod_bmod

theorem wrap32_signed32 (v : UInt32) : wrap32 (signed32 v) = signed32 v := by
  rw [← signed32_ofInt_eq_wrap32, ofInt_signed32]

namespace PackedTable

variable {p : PackedTable} {n : Nat}

theorem values_toSparse (p : PackedTable) : p.toSparse.values = p.keys := by
  simp only [toSparse, SparseTable.updateSize, SparseTable.values, keys, List.map_map]
  exact List.map_congr_left fun i _ => signed32_ofInt_wrap32 _

theorem paired_toSparse (p : PackedTable) : p.toSparse.Paired := by
  simp [SparseTable.Paired, toSparse, SparseTable.updateSize, keys]

/-- `toSparse` keeps the cases and their values. -/
theorem pairs_toSparse (p : PackedTable) : (Item.sparse p.toSparse).pairs = (Item.packed p).pairs :=
  congrArg (List.zip · p.cases) p.values_toSparse

theorem keys_of_bound (bound : signed32 p.first + p.cases.length - 1 ≤ 2 ^ 31 - 1) :
    p.keys = (List.range p.cases.length).map fun i : Nat => signed32 p.first + i := by
  refine List.map_congr_left fun i hi => ?_
  have low : -2 ^ 31 ≤ signed32 p.first := Int32.le_toInt _
  have := List.mem_range.1 hi
  rw [key, ← signed32_ofInt_eq_wrap32, signed32_ofInt (by omega) (by omega)]

theorem inRow_keys (bound : signed32 p.first + p.cases.length - 1 ≤ 2 ^ 31 - 1) : InRow p.keys := by
  rw [keys_of_bound bound]
  refine List.isChain_iff_getElem.2 fun i hi => ?_
  simp only [List.getElem_map, List.getElem_range]
  omega

end PackedTable

/-! ## To a packed table -/

namespace SparseTable

variable {t u : SparseTable} {p : PackedTable}

theorem Paired.map_snd_entries (h : t.Paired) : t.entries.map Prod.snd = t.cases := by
  refine List.map_snd_zip ?_
  rw [values, List.length_map]
  exact Nat.le_of_eq h.symm

theorem map_fst_sortEntries (l : List (Int × Case)) :
    (sortEntries l).map Prod.fst = (l.map Prod.fst).mergeSort fun a b => decide (a ≤ b) :=
  List.map_mergeSort fun _ _ _ _ => rfl

/-- `toPacked` sorts the table, and then succeeds with the same cases if the values are consecutive, and fails
otherwise. -/
theorem apply_toPacked (h : t.Paired) : ∃ u, Rearranged t u ∧ u.entries = sortEntries t.entries ∧
    ((InRow u.values ∧ toPacked.Gives t
        (PackedTable.updateSize { owner := u.owner, first := u.keys.headD 0, cases := u.cases }) u) ∨
      ¬ InRow u.values ∧ ∃ a b, toPacked.apply t = (.error (.failure (.notSequential b a)), u)) := by
  obtain ⟨moved, u, run, rearranged, sorted⟩ := exists_sort h
  refine ⟨u, rearranged, sorted, ?_⟩
  obtain ⟨act, applied, refused, packed⟩ : ∃ act : Action SparseTable PackedTable, toPacked.apply t = act.apply u ∧
      (∀ ab, ((u.values.zip (u.values.drop 1)).find? fun (a, b) => b ≠ a + 1) = some ab →
        act = Action.refuse (.notSequential ab.2 ab.1)) ∧
      (((u.values.zip (u.values.drop 1)).find? fun (a, b) => b ≠ a + 1) = none →
        act = pure (PackedTable.updateSize { owner := u.owner, first := u.keys.headD 0, cases := u.cases })) := by
    unfold toPacked
    rw [Action.apply_bind_of_ok (Action.apply_get t), Action.apply_bind_of_ok (a := (moved, u)) (t := t)
      (by rw [Action.apply_lift, run])]
    exact ⟨_, Action.apply_bind_of_ok (Action.apply_set t u), fun ab found => by simp only [found],
      fun found => by simp only [found]⟩
  cases found : (u.values.zip (u.values.drop 1)).find? fun (a, b) => b ≠ a + 1 with
  | none =>
    refine .inl ⟨inRow_iff_find?.2 found, ?_⟩
    rw [Action.Gives, applied, packed found]
    rfl
  | some ab =>
    refine .inr ⟨fun row => ?_, ab.1, ab.2, ?_⟩
    · rw [inRow_iff_find?.1 row] at found
      cases found
    · rw [applied, refused ab found]
      rfl

/-- `toPacked` succeeds exactly if the sorted values are consecutive, with a packed table of the sorted cases. -/
theorem gives_toPacked_iff (h : t.Paired) : toPacked.Gives t p u ↔ InRow u.values ∧ Rearranged t u ∧
    u.entries = sortEntries t.entries ∧ toPacked.Gives t p u ∧
      p = PackedTable.updateSize { owner := t.owner, first := u.keys.headD 0, cases := u.cases } := by
  refine ⟨fun run => ?_, fun all => all.2.2.2.1⟩
  obtain ⟨v, rearranged, sorted, ⟨row, gives⟩ | ⟨-, a, b, refused⟩⟩ := apply_toPacked h
  · obtain ⟨rfl, rfl⟩ := run.unique gives
    exact ⟨row, rearranged, sorted, run, by rw [rearranged.owner]⟩
  · rw [Action.Gives, refused] at run
    cases run

/-- A table can be packed exactly if its sorted values are consecutive. -/
theorem exists_toPacked_iff (h : t.Paired) :
    (∃ p u, toPacked.Gives t p u) ↔ InRow (t.values.mergeSort fun a b => decide (a ≤ b)) := by
  obtain ⟨u, rearranged, sorted, outcome⟩ := apply_toPacked h
  have values : u.values = t.values.mergeSort fun a b => decide (a ≤ b) := by
    rw [← (rearranged.paired h).map_fst_entries, sorted, map_fst_sortEntries, h.map_fst_entries]
  rw [← values]
  rcases outcome with ⟨row, gives⟩ | ⟨broken, a, b, refused⟩
  · exact ⟨fun _ => row, fun _ => ⟨_, _, gives⟩⟩
  · refine ⟨?_, fun row => absurd row broken⟩
    rintro ⟨p, v, gives⟩
    rw [Action.Gives, refused] at gives
    cases gives

/-- The values of a packed table made from consecutive values are these values. -/
theorem keys_of_inRow (h : u.Paired) (row : InRow u.values) :
    (PackedTable.updateSize { owner := t.owner, first := u.keys.headD 0, cases := u.cases }).keys = u.values := by
  have length : u.keys.length = u.cases.length := h
  refine List.ext_getElem (by simp [PackedTable.keys, PackedTable.updateSize, values, length]) fun i h₁ h₂ => ?_
  have head : signed32 (u.keys.headD 0) = u.values.headD 0 := by
    cases keys : u.keys <;> simp [values, keys]; rfl
  have value : u.values[i] = wrap32 u.values[i] := by
    simp only [values, List.getElem_map, wrap32_signed32]
  simp only [PackedTable.keys, PackedTable.updateSize, PackedTable.key, List.getElem_map, List.getElem_range]
  rw [head, ← row.getElem h₂, ← value]

/-- `toPacked` keeps the cases and their values, in sorted order. -/
theorem pairs_toPacked (h : t.Paired) (run : toPacked.Gives t p u) :
    (Item.packed p).pairs = sortEntries t.entries ∧ InRow ((Item.packed p).pairs.map Prod.fst) := by
  obtain ⟨row, rearranged, sorted, -, rfl⟩ := (gives_toPacked_iff h).1 run
  have paired := rearranged.paired h
  have pairs : (Item.packed (PackedTable.updateSize { owner := t.owner, first := u.keys.headD 0, cases := u.cases })).pairs =
      u.entries := congrArg (List.zip · u.cases) (keys_of_inRow paired row)
  rw [pairs, paired.map_fst_entries]
  exact ⟨sorted, row⟩

/-- A packed table whose values do not wrap around is packed again from its sparse form. -/
theorem toPacked_toSparse (nonempty : p.cases ≠ []) (bound : signed32 p.first + p.cases.length - 1 ≤ 2 ^ 31 - 1) :
    ∃ q u, toPacked.Gives p.toSparse q u ∧ q.first = p.first ∧ q.cases = p.cases ∧ q.owner = p.owner := by
  have paired := p.paired_toSparse
  have row := PackedTable.inRow_keys bound
  have increasing : p.toSparse.values.Pairwise (· < ·) := by
    rw [p.values_toSparse]
    exact row.increasing
  have sorted : sortEntries p.toSparse.entries = p.toSparse.entries := by
    refine sortEntries_eq_self ?_
    rw [← List.pairwise_map (f := Prod.fst) (R := (· ≤ ·)), paired.map_fst_entries]
    exact increasing.imp fun lt => Int.le_of_lt lt
  obtain ⟨u, rearranged, same, ⟨-, gives⟩ | ⟨broken, -⟩⟩ := apply_toPacked paired
  · rw [sorted] at same
    have after := rearranged.paired paired
    have cases : u.cases = p.cases := by
      rw [← after.map_snd_entries, same, paired.map_snd_entries]
      rfl
    have values : u.values = p.keys := by
      rw [← after.map_fst_entries, same, paired.map_fst_entries, p.values_toSparse]
    refine ⟨_, u, gives, ?_, cases, rearranged.owner⟩
    -- The first value is the stored one.
    obtain ⟨c, cs, e⟩ := List.exists_cons_of_ne_nil nonempty
    have head : u.values.head? = some (signed32 p.first) := by
      rw [values, PackedTable.keys_of_bound bound, e]
      simp [List.range_succ_eq_map]
    cases keys : u.keys with
    | nil =>
      rw [SparseTable.values, keys] at head
      cases head
    | cons k ks =>
      rw [SparseTable.values, keys] at head
      have same : signed32 k = signed32 p.first := Option.some.inj head
      calc k = UInt32.ofInt (signed32 k) := (ofInt_signed32 k).symm
        _ = p.first := by rw [same, ofInt_signed32]
  · refine absurd ?_ broken
    rw [sorted] at same
    rw [← (rearranged.paired paired).map_fst_entries, same, paired.map_fst_entries, p.values_toSparse]
    exact row

end SparseTable

/-! ## The case that a value reaches -/

theorem caseFor?_toSparse (p : PackedTable) (v : Int) :
    (Item.sparse p.toSparse).caseFor? v = (Item.packed p).caseFor? v := by
  rw [Item.caseFor?, Item.caseFor?, p.pairs_toSparse]

theorem caseFor?_toPacked {t u : SparseTable} {p : PackedTable} (h : t.Paired) (run : SparseTable.toPacked.Gives t p u)
    (v : Int) : (Item.packed p).caseFor? v = (Item.sparse t).caseFor? v := by
  obtain ⟨sorted, row⟩ := SparseTable.pairs_toPacked h run
  have perm : (Item.packed p).pairs.Perm t.entries := by
    rw [sorted]
    exact List.mergeSort_perm _ _
  have nodup : (t.entries.map Prod.fst).Nodup :=
    (perm.map Prod.fst).nodup_iff.1 (row.increasing.imp fun lt => Int.ne_of_lt lt)
  exact lookup_eq_of_perm perm nodup v

end Dalvik
