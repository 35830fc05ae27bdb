import Dalvik.Proofs.Payload
import Dalvik.Proofs.Reading

/-!
# Editing a sparse table

A sparse table keeps its values and its cases in two lists. After any edits these have the same
length, and their pairs are the elements of a plain list on which the same edits are made
(`entries_of_edits`). `refresh` fails exactly if two cases share a value, and otherwise leaves the
values strictly increasing.
-/

namespace Dalvik

theorem signed32_ofInt_eq_wrap32 (k : Int) : signed32 (UInt32.ofInt k) = wrap32 k := by
  rw [signed32, toInt32_ofInt, Int32.toInt_ofInt]
  rfl

namespace SparseTable

variable {t u : SparseTable} {e : Except Stop SparseTable}

/-- The cases with their values. -/
def entries (t : SparseTable) : List (Int × Case) := t.values.zip t.cases

/-- There are as many values as cases. -/
def Paired (t : SparseTable) : Prop := t.keys.length = t.cases.length

theorem Paired.length_entries (h : t.Paired) : t.entries.length = t.keys.length := by
  have : t.keys.length = t.cases.length := h
  simp [entries, values, this]

theorem Paired.map_fst_entries (h : t.Paired) : t.entries.map Prod.fst = t.values := by
  refine List.map_fst_zip ?_
  rw [values, List.length_map]
  exact Nat.le_of_eq h

theorem entries_eq_pairs (t : SparseTable) : t.entries = t.pairs.map (Prod.map signed32 id) := by
  simp only [entries, values, pairs, List.zip_map_left]

theorem Rearranged.entries (h : Rearranged t u) : u.entries.Perm t.entries := by
  rw [entries_eq_pairs, entries_eq_pairs]
  exact h.pairs.map _

theorem Rearranged.paired (h : Rearranged t u) (paired : t.Paired) : u.Paired := by
  rw [Paired, h.keys, h.cases]
  exact paired

/-! ## Sorting -/

/-- The pairs sorted by value; pairs that share a value keep their order. -/
def sortEntries (l : List (Int × Case)) : List (Int × Case) := l.mergeSort fun x y => decide (x.1 ≤ y.1)

theorem sortEntries_eq_self {l : List (Int × Case)} (sorted : l.Pairwise fun x y => x.1 ≤ y.1) : sortEntries l = l :=
  List.mergeSort_of_pairwise (sorted.imp fun le => decide_eq_true le)

/-- The positions of the sorted values, looked up in both lists, give the sorted pairs. -/
theorem entries_ranked (h : t.Paired) :
    (ranked t.keys).map (fun z => (signed32 z.1, t.cases.getD z.2 {})) = sortEntries t.entries := by
  have numbered : (t.keys.zipIdx.map fun z => (signed32 z.1, t.cases.getD z.2 {})) = t.entries := by
    rw [entries_eq_pairs, pairs, ← zip_eq_map_zipIdx h, List.map_map]
    rfl
  rw [← numbered, sortEntries, ranked]
  refine List.map_mergeSort fun x _ y _ => ?_
  rw [Bool.eq_iff_iff, orders_keyOrder, decide_eq_true_eq]

/-- `sort` succeeds on a table with as many values as cases, and sorts its pairs. -/
theorem exists_sort (h : t.Paired) :
    ∃ moved u, t.sort = .ok (moved, u) ∧ Rearranged t u ∧ u.entries = sortEntries t.entries := by
  have known : ∀ moved u, t.sort = .ok (moved, u) → u.entries = sortEntries t.entries →
      ∃ moved u, t.sort = .ok (moved, u) ∧ Rearranged t u ∧ u.entries = sortEntries t.entries :=
    fun moved u run entries => ⟨moved, u, run, (sort_eq_ok run).1, entries⟩
  cases needs : Table.needsSort keyOrder t.keys with
  | true =>
    have length : (Table.sorting keyOrder t.keys).length = t.cases.length := by
      rw [sorting_eq, List.length_map, length_ranked]
      exact h
    refine known _ _ (by simp only [sort, needs, if_true]; rw [if_pos length]) ?_
    rw [← entries_ranked h]
    simp only [entries, values]
    rw [sorting_eq, arrange_keys, arrange_cases h, List.map_map, List.zip_map']
    rfl
  | false =>
    refine known false { t with unsorted := false } (by simp only [sort, needs, Bool.false_eq_true, if_false]) ?_
    have sorted : t.entries.Pairwise fun x y => x.1 ≤ y.1 := by
      rw [← List.pairwise_map (f := Prod.fst) (R := (· ≤ ·)), h.map_fst_entries, values, List.pairwise_map]
      exact (Table.needsSort_eq_false orders_keyOrder).1 needs
    exact (sortEntries_eq_self sorted).symm

/-! ## Refreshing -/

theorem repeated?_eq_some {vs : List Int} {k : Int} (h : repeated? vs = some k) : 2 ≤ vs.count k := by
  fun_induction repeated? vs with
  | case1 b rest =>
    cases h
    simp
  | case2 a b rest ne ih => exact (ih h).trans ((List.sublist_cons_self a _).count_le k)
  | case3 => cases h

theorem not_nodup_of_count {vs : List Int} {k : Int} (h : 2 ≤ vs.count k) : ¬ vs.Nodup := fun nodup => by
  have := List.nodup_iff_count_le_one.1 nodup k
  omega

/-- The outcome of `refresh`: it succeeds exactly if no two cases share a value, the values are then strictly
increasing, and in either case each case is still with its value. -/
structure RefreshedAs (t : SparseTable) (r : Except Stop PUnit) (u : SparseTable) : Prop where
  paired : u.Paired
  entries : u.entries.Perm t.entries
  ok_iff : r = .ok ⟨⟩ ↔ t.values.Nodup
  increasing : r = .ok ⟨⟩ → u.values.Pairwise (· < ·)
  refused : ∀ stop, r = .error stop → ∃ k, 2 ≤ t.values.count k ∧ stop = .failure (.repeatedKey k)

theorem refreshedAs_of_sorted (h : t.Paired) (rearranged : Rearranged t u)
    (sorted : u.keys.Pairwise fun x y => signed32 x ≤ signed32 y) {act : Action SparseTable PUnit}
    (refused : ∀ k, repeated? u.values = some k → act.apply u = (.error (.failure (.repeatedKey k)), u))
    (kept : repeated? u.values = none → act.apply u = (.ok ⟨⟩, u.updateSize)) :
    RefreshedAs t (act.apply u).1 (act.apply u).2 := by
  have paired := rearranged.paired h
  have values : u.values.Perm t.values := by
    rw [← paired.map_fst_entries, ← h.map_fst_entries]
    exact rearranged.entries.map _
  cases found : repeated? u.values with
  | some k =>
    have twice : 2 ≤ t.values.count k := by
      rw [← values.count_eq]
      exact repeated?_eq_some found
    rw [refused k found]
    exact {
      paired
      entries := rearranged.entries
      ok_iff := ⟨fun e => (by cases e), fun nodup => absurd nodup (not_nodup_of_count twice)⟩
      increasing := fun e => by cases e
      refused := fun stop e => ⟨k, twice, by cases e; rfl⟩ }
  | none =>
    have increasing : u.values.Pairwise (· < ·) := by
      rw [SparseTable.values, List.pairwise_map]
      exact repeated?_eq_none sorted found
    have nodup : u.values.Nodup := increasing.imp fun lt => Int.ne_of_lt lt
    rw [kept found]
    exact {
      paired
      entries := rearranged.entries
      ok_iff := ⟨fun _ => values.nodup_iff.1 nodup, fun _ => rfl⟩
      increasing := fun _ => increasing
      refused := fun stop e => by cases e }

theorem refresh_refreshedAs (h : t.Paired) : RefreshedAs t (refresh.apply t).1 (refresh.apply t).2 := by
  unfold refresh
  rw [Action.apply_bind_of_ok (Action.apply_get t)]
  split
  · obtain ⟨moved, u, run, rearranged, -⟩ := exists_sort h
    rw [Action.apply_bind_of_ok (a := (moved, u)) (t := t) (by rw [Action.apply_lift, run]),
      Action.apply_bind_of_ok (Action.apply_set t u), Action.apply_bind_of_ok (Action.apply_get u)]
    exact refreshedAs_of_sorted h rearranged (sort_eq_ok run).2.2.2 (fun k found => by rw [found]; rfl)
      fun found => by rw [found]; rfl
  · next sorted =>
    simp only [Bool.or_eq_true, not_or, Bool.not_eq_true] at sorted
    rw [Action.apply_bind_of_ok (Action.apply_get t)]
    exact refreshedAs_of_sorted h (.refl t) ((Table.needsSort_eq_false orders_keyOrder).1 sorted.2)
      (fun k found => by rw [found]; rfl) fun found => by rw [found]; rfl

/-! ## Reading -/

theorem length_of_decodeEach {α : Type} {element : Cursor → Action α Cursor} {i : Nat} {xs : List α} {c : Cursor} :
    (decodeEach element i xs c).2.length = xs.length := by
  induction xs generalizing i c with
  | nil => rfl
  | cons x xs ih =>
    rw [decodeEach]
    split
    · rfl
    · exact congrArg (· + 1) ih

/-- A table that was decoded has as many values as cases. -/
theorem paired_of_decode {c c' : Cursor} (h : (decode c).Gives t c' u) : u.Paired := by
  simp only [decode, Action.gives_bind, Action.gives_on, Action.gives_modify, Action.gives_of, Action.gives_get,
    Action.gives_lift, Action.gives_pure] at h
  obtain ⟨_, _, ⟨_, _, rfl⟩, _, _, ⟨_, _, rfl⟩, _, _, rfl, _, _, ⟨keys, read, rfl⟩, _, _, rfl, _, _, ⟨cases, follow, rfl⟩,
    _, _, ⟨rfl, rfl⟩, _, _, ⟨-, rfl⟩, -, rfl⟩ := h
  have left := length_of_decodeEach.symm.trans (congrArg (fun r => r.2.length) read)
  have right := length_of_decodeEach.symm.trans (congrArg (fun r => r.2.length) follow)
  simp only [length_resizeList] at left right
  exact left.symm.trans right

end SparseTable

/-! ## Changes -/

/-- An edit of the cases of a sparse table. -/
inductive CaseEdit where
  | add (key : Int) (case : Case)
  | rekey (i key : Int)
  | drop (i : Int)
  | sort

namespace CaseEdit

open SparseTable (Paired entries)

variable {t u : SparseTable}

/-- What the edit does to a table. -/
def onTable (t : SparseTable) : CaseEdit → Except Stop SparseTable
  | add key case => .ok (t.push key case)
  | rekey i key => t.setKey i key
  | drop i => t.removeAt i
  | sort => t.sort.map Prod.snd

/-- What the edit does to a plain list of cases with their values, or `none` if it cannot be done. -/
def onList (l : List (Int × Case)) : CaseEdit → Option (List (Int × Case))
  | add key case => some (l ++ [(wrap32 key, case)])
  | rekey i key => if 0 ≤ i ∧ i < l.length then some (l.modify i.toNat fun x => (wrap32 key, x.2)) else none
  | drop i => if 0 ≤ i ∧ i < l.length then some (l.eraseIdx i.toNat) else none
  | sort => some (SparseTable.sortEntries l)

/-- The table after some edits, or the first fault. -/
def runTable (t : SparseTable) (es : List CaseEdit) : Except Stop SparseTable := es.foldlM onTable t

def runList (l : List (Int × Case)) (es : List CaseEdit) : Option (List (Int × Case)) := es.foldlM onList l

/-- The table and the plain list fail together, or have the same pairs. -/
def Agree : Except Stop SparseTable → Option (List (Int × Case)) → Prop
  | .ok t, some l => t.Paired ∧ t.entries = l
  | .error _, none => True
  | _, _ => False

theorem entries_push (paired : t.Paired) (key : Int) (case : Case) :
    (t.push key case).entries = t.entries ++ [(wrap32 key, case)] := by
  have length : (t.keys.map signed32).length = t.cases.length := (List.length_map _).trans paired
  simp only [SparseTable.push, SparseTable.updateSize, entries, SparseTable.values, List.map_append, List.map_cons,
    List.map_nil, List.zip_append length, signed32_ofInt_eq_wrap32]
  rfl

theorem zip_set_left {α β : Type} (xs : List α) (ys : List β) (i : Nat) (a : α) :
    (xs.set i a).zip ys = (xs.zip ys).modify i fun x => (a, x.2) := by
  induction xs generalizing ys i with
  | nil => simp
  | cons x xs ih =>
    cases ys with
    | nil => simp
    | cons y ys =>
      cases i with
      | zero => simp
      | succ i => simp [ih]

theorem zip_eraseIdx {α β : Type} (xs : List α) (ys : List β) (i : Nat) :
    (xs.eraseIdx i).zip (ys.eraseIdx i) = (xs.zip ys).eraseIdx i := by
  induction xs generalizing ys i with
  | nil => simp
  | cons x xs ih =>
    cases ys with
    | nil => simp
    | cons y ys =>
      cases i with
      | zero => simp
      | succ i => simp [ih]

/-- One edit keeps the table and the plain list together. -/
theorem agree_step (paired : t.Paired) (e : CaseEdit) : Agree (e.onTable t) (e.onList t.entries) := by
  cases e with
  | add key case =>
    refine ⟨?_, entries_push paired key case⟩
    have : t.keys.length = t.cases.length := paired
    simp [Paired, SparseTable.push, SparseTable.updateSize, this]
  | rekey i key =>
    simp only [onTable, onList, SparseTable.setKey, paired.length_entries]
    split
    · refine ⟨?_, ?_⟩
      · have : t.keys.length = t.cases.length := paired
        simp [Paired, this]
      · simp only [entries, SparseTable.values, List.map_set, signed32_ofInt_eq_wrap32, zip_set_left]
    · trivial
  | drop i =>
    have length : t.keys.length = t.cases.length := paired
    simp only [onTable, onList, SparseTable.removeAt, paired.length_entries, ← length, and_self]
    split
    · refine ⟨?_, ?_⟩
      · simp only [Paired, SparseTable.updateSize, List.length_eraseIdx, length]
      · simp only [entries, SparseTable.values, SparseTable.updateSize, ← List.eraseIdx_map, zip_eraseIdx]
    · trivial
  | sort =>
    obtain ⟨moved, u, run, rearranged, sorted⟩ := SparseTable.exists_sort paired
    simp only [onTable, onList, run, Except.map]
    exact ⟨rearranged.paired paired, sorted⟩

theorem agree_iff_follows {e : Except Stop SparseTable} {o : Option (List (Int × Case))} :
    Agree e o ↔ Action.Follows (fun t l => t.Paired ∧ t.entries = l) e o := by
  cases e <;> cases o <;> rfl

/-- So do any edits, by induction. -/
theorem agree_run (paired : t.Paired) (es : List CaseEdit) : Agree (runTable t es) (runList t.entries es) := by
  refine agree_iff_follows.2 (Action.follows_foldlM ?_ ⟨paired, rfl⟩ es)
  rintro t _ e ⟨paired, rfl⟩
  exact agree_iff_follows.1 (agree_step paired e)

/-- A new table without cases, or a table that was decoded, with the cases it has. -/
inductive Starts : SparseTable → List (Int × Case) → Prop
  | new : Starts {} []
  | read {c c' : Cursor} {old read : SparseTable} (h : (SparseTable.decode c).Gives old c' read) : Starts read read.entries

theorem Starts.paired {l : List (Int × Case)} (h : Starts t l) : t.Paired ∧ t.entries = l := by
  cases h with
  | new => exact ⟨rfl, rfl⟩
  | read h => exact ⟨SparseTable.paired_of_decode h, rfl⟩

/-- For any edits of a new or decoded sparse table: they fail exactly if they cannot be done to the plain list. If
they succeed, there are as many values as cases, their pairs are the elements of the plain list, and `refresh` of the
table has the outcome `RefreshedAs`: it fails exactly if two cases share a value, and otherwise leaves the values
strictly increasing and each case with its value. -/
theorem entries_of_edits {l : List (Int × Case)} (start : Starts t l) (es : List CaseEdit) :
    ((∃ stop, runTable t es = .error stop) ↔ runList l es = none) ∧
      ∀ u, runTable t es = .ok u → u.keys.length = u.cases.length ∧ runList l es = some u.entries ∧
        SparseTable.RefreshedAs u (SparseTable.refresh.apply u).1 (SparseTable.refresh.apply u).2 := by
  obtain ⟨paired, rfl⟩ := start.paired
  have follows := agree_iff_follows.1 (agree_run paired es)
  refine ⟨follows.fails_iff, fun u run => ?_⟩
  obtain ⟨l, plain, paired, rfl⟩ := follows.exists_of_ok run
  exact ⟨paired, plain, SparseTable.refresh_refreshedAs paired⟩

/-- Two cases as they are stored in a file, the greater value first. -/
def stored : Cursor :=
  .ofBytes [0, 2, 2, 0, 5, 0, 0, 0, 255, 255, 255, 255, 4, 0, 0, 0, 6, 0, 0, 0]

/-- A third case is added, and the second one is given its value. -/
theorem entries_of_stored :
    ∃ t u, Starts t [(5, { offset := 4 }), (-1, { offset := 6 })] ∧
      runTable t [.add 3 { handle := 0 }, .rekey 1 3] = .ok u ∧
      u.entries = [(5, { offset := 4 }), (3, { offset := 6 }), (3, { handle := 0 })] ∧
      (SparseTable.refresh.apply u).1 ≠ .ok ⟨⟩ := by
  let t := ((SparseTable.decode stored).apply {}).2
  have read : (SparseTable.decode stored).Gives {} { stored with pos := 20 } t :=
    Action.gives_of_toOption (by decide +kernel)
  have start : Starts t [(5, { offset := 4 }), (-1, { offset := 6 })] := Starts.read read
  obtain ⟨u, run⟩ : ∃ u, runTable t [.add 3 { handle := 0 }, .rekey 1 3] = .ok u := ⟨_, rfl⟩
  obtain ⟨length, plain, refreshed⟩ := (entries_of_edits start _).2 u run
  have entries : u.entries = [(5, { offset := 4 }), (3, { offset := 6 }), (3, { handle := 0 })] :=
    Option.some.inj (plain.symm.trans rfl)
  have paired : u.Paired := length
  refine ⟨t, u, start, run, entries, fun ok => ?_⟩
  have nodup := refreshed.ok_iff.1 ok
  rw [← paired.map_fst_entries, entries] at nodup
  revert nodup
  decide

end CaseEdit

end Dalvik
