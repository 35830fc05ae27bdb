import Dalvik.Image.Members
import Dalvik.Proofs.Table
import Mathlib.Data.List.Duplicate

/-!
# Reading and refreshing the members of a class

`Stored n ms` says that a count `n` and members `ms` fit together: the differences sum up to the
indices (`Chained`), the indices are strictly increasing (`Ascending`), and `n` is the number of
members. `decode` leaves exactly such tables (`gives_decode`), and `refresh` does not change them.
On other tables `refresh` sorts the members, and fails if an index occurs twice (`refresh_outcome`).
-/

namespace Dalvik

variable {c c' : Cursor}

/-! ## Single members -/

/-- What the proofs need of the part of a member behind its index and flags: what `decode` gives, and what encoding
and decoding it does. -/
class LawfulTail (τ : Type) [MemberTail τ] where
  /-- The offset of the code, for a kind that has code. -/
  offset? : τ → Option UInt32
  /-- The value is one that `decode` can give. -/
  Read : τ → Prop
  /-- Decoding the encoding gives the value, up to `asRead`. -/
  Fair : τ → Prop
  /-- The value after it was encoded and decoded. -/
  asRead : τ → τ
  gives_decode {c c' : Cursor} {x y : τ} :
    (MemberTail.decode c).Gives x c' y ↔ Read y ∧ c.Spans (MemberTail.pieces y).flatten c'
  fair_fresh : Fair MemberTail.fresh
  fair_setOffset {x : τ} (n : Int) : Fair x → Fair (MemberTail.setOffset n x)
  fair_of_read {x : τ} : Read x → Fair x
  read_asRead {x : τ} : Fair x → Read (asRead x)
  pieces_asRead (x : τ) : MemberTail.pieces (asRead x) = MemberTail.pieces x
  offset_asRead (x : τ) : offset? (asRead x) = offset? x

instance : LawfulTail FieldTail where
  offset? _ := none
  Read _ := True
  Fair _ := True
  asRead x := x
  gives_decode := by
    intro c c' x y
    exact Action.gives_pure.trans ⟨fun h => ⟨trivial, Cursor.spans_nil.2 h.1.symm⟩,
      fun h => ⟨(Cursor.spans_nil.1 h.2).symm, rfl⟩⟩
  fair_fresh := trivial
  fair_setOffset _ := id
  fair_of_read := id
  read_asRead := id
  pieces_asRead _ := rfl
  offset_asRead _ := rfl

instance : LawfulTail MethodTail where
  offset? x := some x.codeOffset.value
  Read x := x.codeOffset.Read
  Fair x := x.codeOffset.Fair
  asRead x := { x with codeOffset := x.codeOffset.asRead }
  gives_decode := by
    intro c c' x y
    have bytes : (MemberTail.pieces y).flatten = y.codeOffset.bytes := List.flatten_singleton
    rw [bytes]
    refine Action.gives_on.trans ⟨?_, fun h => ⟨y.codeOffset, gives_uleb.2 h, rfl⟩⟩
    rintro ⟨v, run, rfl⟩
    exact gives_uleb.1 run
  fair_fresh := Uleb.fair_mk 0
  fair_setOffset n h := h.set n
  fair_of_read h := h.fair
  read_asRead h := h.read
  pieces_asRead _ := rfl
  offset_asRead _ := rfl

/-- What is kept of a member by encoding and decoding: its index, its access flags and the offset of its code. -/
structure MemberEntry where
  index : Int
  access : UInt32
  offset? : Option UInt32
  deriving DecidableEq, Repr

variable {τ : Type} [MemberTail τ] [LawfulTail τ]

namespace Member

def bytes (m : Member τ) : Bytes := m.pieces.flatten

def entry (m : Member τ) : MemberEntry := ⟨m.index, m.access.value, LawfulTail.offset? m.tail⟩

structure Read (m : Member τ) : Prop where
  diff : m.diff.Read
  access : m.access.Read
  tail : LawfulTail.Read m.tail

structure Fair (m : Member τ) : Prop where
  diff : m.diff.Fair
  access : m.access.Fair
  tail : LawfulTail.Fair m.tail

def asRead (m : Member τ) : Member τ :=
  { m with diff := m.diff.asRead, access := m.access.asRead, tail := LawfulTail.asRead m.tail }

variable {m : Member τ}

omit [LawfulTail τ] in
theorem bytes_eq (m : Member τ) :
    m.bytes = m.diff.bytes ++ (m.access.bytes ++ (MemberTail.pieces m.tail).flatten) := by
  rw [bytes, pieces, List.flatten_cons, List.flatten_cons]

theorem Read.fair (h : m.Read) : m.Fair := ⟨h.diff.fair, h.access.fair, LawfulTail.fair_of_read h.tail⟩

theorem Fair.read (h : m.Fair) : m.asRead.Read := ⟨h.diff.read, h.access.read, LawfulTail.read_asRead h.tail⟩

theorem fair_fresh (index : Int) : Fair { (fresh : Member τ) with index } :=
  ⟨Uleb.fair_mk 0, Uleb.fair_mk 0, LawfulTail.fair_fresh⟩

@[simp] theorem bytes_asRead (m : Member τ) : m.asRead.bytes = m.bytes := by
  rw [bytes_eq, bytes_eq]
  change m.diff.bytes ++ (m.access.bytes ++ (MemberTail.pieces (LawfulTail.asRead m.tail)).flatten) = _
  rw [LawfulTail.pieces_asRead]

@[simp] theorem entry_asRead (m : Member τ) : m.asRead.entry = m.entry := by
  unfold entry asRead
  rw [LawfulTail.offset_asRead]
  rfl

/-- Decoding a member succeeds exactly on the bytes of what it gives, and does not set the index. -/
theorem gives_decode {x y : Member τ} :
    (Member.decode c).Gives x c' y ↔ (y.Read ∧ y.index = x.index) ∧ c.Spans y.bytes c' := by
  rw [bytes_eq]
  simp only [Member.decode, Action.gives_bind, Action.gives_on, gives_uleb, LawfulTail.gives_decode]
  constructor
  · rintro ⟨c₁, _, ⟨diff, ⟨hdiff, s₁⟩, rfl⟩, c₂, _, ⟨access, ⟨haccess, s₂⟩, rfl⟩, tail, ⟨htail, s₃⟩, rfl⟩
    exact ⟨⟨⟨hdiff, haccess, htail⟩, rfl⟩, Cursor.spans_append.2 ⟨c₁, s₁, Cursor.spans_append.2 ⟨c₂, s₂, s₃⟩⟩⟩
  · rintro ⟨⟨read, index⟩, spans⟩
    obtain ⟨c₁, s₁, spans⟩ := Cursor.spans_append.1 spans
    obtain ⟨c₂, s₂, s₃⟩ := Cursor.spans_append.1 spans
    refine ⟨c₁, _, ⟨y.diff, ⟨read.diff, s₁⟩, rfl⟩, c₂, _, ⟨y.access, ⟨read.access, s₂⟩, rfl⟩, y.tail,
      ⟨read.tail, s₃⟩, ?_⟩
    cases y
    cases index
    rfl

end Member

/-! ## Differences and indices -/

namespace MemberTable

variable {ms ns : List (Member τ)} {t u : MemberTable τ} {n : Uleb} {previous : Int}

/-- The index of each member is the previous index plus the difference. -/
def Chained (previous : Int) : List (Member τ) → Prop
  | [] => True
  | m :: rest => m.index = previous + m.diff.get ∧ Chained m.index rest

/-- The indices are strictly increasing. -/
def Ascending (ms : List (Member τ)) : Prop := ms.Pairwise fun x y => x.index < y.index

/-- The two members differ at most in their indices. -/
def Reindexed (m n : Member τ) : Prop := n = { m with index := n.index }

section Indices

omit [MemberTail τ] [LawfulTail τ]

/-- An index is the sum of the differences up to it. -/
theorem Chained.index_eq_sum (h : Chained previous ms) {k : Nat} {m : Member τ} (hk : ms[k]? = some m) :
    m.index = previous + ((ms.take (k + 1)).map fun m => m.diff.get).sum := by
  induction ms generalizing previous k with
  | nil => cases hk
  | cons x ms ih =>
    obtain ⟨index, rest⟩ := h
    cases k with
    | zero =>
      cases hk
      rw [List.take_succ_cons, List.take_zero, List.map_singleton, List.sum_singleton, index]
    | succ k =>
      rw [ih rest hk, index, List.take_succ_cons, List.map_cons, List.sum_cons, Int.add_assoc]

theorem withDiffs_of_chained (h : Chained previous ms) : withDiffs previous ms = ms := by
  induction ms generalizing previous with
  | nil => rfl
  | cons m ms ih =>
    obtain ⟨index, rest⟩ := h
    have step : m.index - previous = m.diff.get := by omega
    rw [withDiffs, ih rest, step, Uleb.set_get]

/-- `linkIndices` on the members behind the first one. -/
theorem linkIndices_rest {start i : Nat} {v : PUnit} :
    linkIndices start (i + 1) previous ms = (.ok v, ns) ↔
      List.Forall₂ Reindexed ms ns ∧ Chained previous ns ∧ (previous :: ns.map (·.index)).IsChain (· < ·) := by
  induction ms generalizing previous i ns with
  | nil =>
    simp only [linkIndices, Prod.mk.injEq, true_and, List.forall₂_nil_left_iff]
    constructor
    · rintro rfl
      exact ⟨rfl, trivial, by simp⟩
    · exact fun h => h.1.symm
  | cons m ms ih =>
    have nonneg : 0 ≤ m.diff.get := by simp [Uleb.get]
    rw [linkIndices, List.forall₂_cons_left_iff]
    by_cases same : m.diff.get = 0
    · rw [if_pos ⟨by omega, same⟩]
      simp only [fail, Prod.mk.injEq, reduceCtorEq, false_and, false_iff]
      rintro ⟨⟨n, ns, reindexed, -, rfl⟩, ⟨index, -⟩, increasing⟩
      have more : previous < n.index := (List.isChain_cons_cons.1 increasing).1
      rw [index, show n.diff = m.diff by rw [reindexed]] at more
      omega
    · rw [if_neg fun h => same h.2]
      rcases tail : linkIndices start (i + 1 + 1) (previous + m.diff.get) ms with ⟨r, rest⟩
      constructor
      · intro h
        dsimp only at h
        rw [tail] at h
        obtain ⟨rfl, rfl⟩ := Prod.mk.inj h
        obtain ⟨reindexed, chained, increasing⟩ := ih.1 tail
        refine ⟨⟨{ m with index := previous + m.diff.get }, rest, rfl, reindexed, rfl⟩, ⟨rfl, chained⟩, ?_⟩
        exact List.isChain_cons_cons.2 ⟨by dsimp only; omega, increasing⟩
      · rintro ⟨⟨n, ns, reindexed, more, rfl⟩, ⟨index, chained⟩, increasing⟩
        have index : n.index = previous + m.diff.get := by
          rw [index, show n.diff = m.diff by rw [reindexed]]
        have later : (n.index :: ns.map (·.index)).IsChain (· < ·) := (List.isChain_cons_cons.1 increasing).2
        rw [index] at chained later
        have again := ih (i := i + 1).2 ⟨more, chained, later⟩
        rw [tail] at again
        obtain ⟨rfl, rfl⟩ := Prod.mk.inj again
        dsimp only
        rw [tail, ← index, ← reindexed]

/-- `linkIndices` succeeds exactly if the differences sum up to strictly increasing indices. -/
theorem linkIndices_eq_ok {start : Nat} {v : PUnit} :
    linkIndices start 0 0 ms = (.ok v, ns) ↔ List.Forall₂ Reindexed ms ns ∧ Chained 0 ns ∧ Ascending ns := by
  have : IsTrans Int (· < ·) := ⟨fun _ _ _ => Int.lt_trans⟩
  have ascending : ∀ ns : List (Member τ), (ns.map (·.index)).IsChain (· < ·) ↔ Ascending ns := by
    intro ns
    rw [List.isChain_iff_pairwise, List.pairwise_map]
    rfl
  rw [← ascending]
  cases ms with
  | nil =>
    simp only [linkIndices, Prod.mk.injEq, true_and, List.forall₂_nil_left_iff]
    constructor
    · rintro rfl
      exact ⟨rfl, trivial, by simp⟩
    · exact fun h => h.1.symm
  | cons m ms =>
    rw [linkIndices, List.forall₂_cons_left_iff, if_neg fun h => absurd h.1 (by omega)]
    rcases tail : linkIndices start (0 + 1) (0 + m.diff.get) ms with ⟨r, rest⟩
    constructor
    · intro h
      dsimp only at h
      rw [tail] at h
      obtain ⟨rfl, rfl⟩ := Prod.mk.inj h
      obtain ⟨reindexed, chained, increasing⟩ := linkIndices_rest.1 tail
      exact ⟨⟨{ m with index := 0 + m.diff.get }, rest, rfl, reindexed, rfl⟩, ⟨rfl, chained⟩, increasing⟩
    · rintro ⟨⟨n, ns, reindexed, more, rfl⟩, ⟨index, chained⟩, increasing⟩
      have index : n.index = 0 + m.diff.get := by
        rw [index, show n.diff = m.diff by rw [reindexed]]
      have later : (n.index :: ns.map (·.index)).IsChain (· < ·) := increasing
      rw [index] at chained later
      have again : linkIndices start (0 + 1) (0 + m.diff.get) ms = (.ok v, ns) :=
        linkIndices_rest.2 ⟨more, chained, later⟩
      rw [tail] at again
      obtain ⟨rfl, rfl⟩ := Prod.mk.inj again
      dsimp only
      rw [tail, ← index, ← reindexed]

end Indices

/-! ## Tables as they are read -/

/-- A count and members that `decode` can leave in a table. -/
structure Stored (n : Uleb) (ms : List (Member τ)) : Prop where
  count : n.Read
  length : ms.length = n.value.toNat
  members : ∀ m ∈ ms, m.Read
  chained : Chained 0 ms
  ascending : Ascending ms

section Counted

omit [MemberTail τ] [LawfulTail τ]

/-- The table with these members and this count. -/
def counted (n : Uleb) (ms : List (Member τ)) : MemberTable τ := Table.filled (some (.uleb n)) ms

@[simp] theorem members_counted (n : Uleb) (ms : List (Member τ)) : members (counted n ms) = ms := Table.values_filled _ _

theorem setMembers_counted (length : ns.length = ms.length) : setMembers (counted n ms) ns = counted n ns := by
  have all := Table.refill_filled (some (.uleb n)) [] length
  rwa [List.length_nil, ← List.range_eq_range'] at all

end Counted

omit [LawfulTail τ] in
theorem flatten_pieces (t : MemberTable τ) : (pieces t).flatten = (members t).flatMap Member.bytes := by
  rw [pieces]
  induction members t with
  | nil => rfl
  | cons m ms ih => rw [List.flatMap_cons, List.flatten_append, ih, List.flatMap_cons, Member.bytes]

omit [LawfulTail τ] in
/-- The index of a member is not encoded. -/
theorem bytes_of_reindexed (h : List.Forall₂ Reindexed ms ns) : ms.flatMap Member.bytes = ns.flatMap Member.bytes := by
  induction h with
  | nil => rfl
  | cons head _ ih =>
    rw [List.flatMap_cons, List.flatMap_cons, ih, head]
    rfl

theorem read_of_reindexed (h : List.Forall₂ Reindexed ms ns) (read : ∀ m ∈ ms, m.Read) : ∀ m ∈ ns, m.Read := by
  induction h with
  | nil => exact read
  | cons head _ ih =>
    obtain ⟨here, rest⟩ := List.forall_mem_cons.1 read
    refine List.forall_mem_cons.2 ⟨?_, ih rest⟩
    rw [head]
    exact ⟨here.diff, here.access, here.tail⟩

/-- Decoding the members of an empty table with a known count succeeds exactly on the bytes of what it gives. -/
theorem gives_decode {n : Uleb} (count : n.Read) :
    (MemberTable.decode c).Gives { count := some (.uleb n) } c' t ↔
      (∃ ms, Stored n ms ∧ t = counted n ms) ∧ c.Spans (pieces t).flatten c' := by
  have elements : ∀ {c' : Cursor} {u : Table (Member τ)}, (Table.decode Member.fresh Member.decode c).Gives
      { count := some (.uleb n) } c' u ↔ ∃ ms : List (Member τ), ms.length = n.value.toNat ∧
        (∀ m ∈ ms, m.Read ∧ m.index = 0) ∧ u = counted n ms ∧ c.Spans (ms.flatMap Member.bytes) c' :=
    Table.gives_decode_counted (I := fun _ => True) (fun _ _ => trivial) (fun _ _ _ _ => Member.gives_decode) trivial
  simp only [MemberTable.decode, Action.gives_bind, Action.gives_get, Action.gives_set, Action.gives_lift,
    Action.gives_pure, elements, flatten_pieces]
  constructor
  · rintro ⟨c₁, _, ⟨ms, length, fresh, rfl, spans⟩, _, _, ⟨rfl, rfl⟩, run⟩
    rcases linked : linkIndices c.pos 0 0 (members (counted n ms)) with ⟨r, ns⟩
    rw [linked] at run
    obtain ⟨_, _, rfl, _, _, ⟨rfl, rfl⟩, rfl, rfl⟩ := run
    rw [members_counted] at linked
    obtain ⟨reindexed, chained, ascending⟩ := linkIndices_eq_ok.1 linked
    have more := reindexed.length_eq.symm
    have read := read_of_reindexed reindexed fun m hm => (fresh m hm).1
    refine ⟨⟨ns, ⟨count, more.trans length, read, chained, ascending⟩, setMembers_counted more⟩, ?_⟩
    rw [setMembers_counted more, members_counted]
    rwa [← bytes_of_reindexed reindexed]
  · rintro ⟨⟨ns, stored, rfl⟩, spans⟩
    rw [members_counted] at spans
    have reindexed : List.Forall₂ Reindexed (ns.map fun m => { m with index := 0 }) ns :=
      List.forall₂_map_left_iff.2 (List.forall₂_same.2 fun m _ => rfl)
    refine ⟨c', _, ⟨ns.map fun m => { m with index := 0 }, by rw [List.length_map, stored.length], ?_, rfl, ?_⟩,
      _, _, ⟨rfl, rfl⟩, ?_⟩
    · intro m hm
      obtain ⟨k, hk, rfl⟩ := List.mem_map.1 hm
      have here := stored.members k hk
      exact ⟨⟨here.diff, here.access, here.tail⟩, rfl⟩
    · rwa [bytes_of_reindexed reindexed]
    · rw [members_counted, linkIndices_eq_ok.2 ⟨reindexed, stored.chained, stored.ascending⟩]
      refine ⟨⟨⟩, _, rfl, ⟨⟩, _, ⟨rfl, rfl⟩, rfl, ?_⟩
      exact setMembers_counted (by rw [List.length_map])

/-! ## Refreshing -/

section Order

omit [MemberTail τ] [LawfulTail τ]

theorem orders_byIndex : Table.Orders (byIndex (τ := τ)) (·.index) := by
  intro x y
  unfold byIndex
  simp [Int.compare_eq_gt]

theorem ascending_of_repeated? (sorted : ms.Pairwise fun x y => x.index ≤ y.index) (h : repeated? ms = none) :
    Ascending ms := by
  have : IsTrans (Member τ) fun x y => x.index < y.index := ⟨fun _ _ _ => Int.lt_trans⟩
  refine List.isChain_iff_pairwise.1 ?_
  induction ms with
  | nil => exact .nil
  | cons x ms ih =>
    cases ms with
    | nil => exact .singleton x
    | cons y ms =>
      rw [repeated?] at h
      split at h
      · cases h
      · next ne =>
        obtain ⟨le, sorted⟩ := List.pairwise_cons.1 sorted
        have here := le y List.mem_cons_self
        exact List.isChain_cons_cons.2 ⟨by omega, ih sorted h⟩

theorem duplicate_of_repeated? {i : Int} (h : repeated? ms = some i) : List.Duplicate i (ms.map (·.index)) := by
  induction ms with
  | nil => cases h
  | cons x ms ih =>
    cases ms with
    | nil => cases h
    | cons y ms =>
      rw [repeated?] at h
      split at h
      · next same =>
        cases h
        rw [List.map_cons, List.map_cons, same]
        exact List.Mem.duplicate_cons_self List.mem_cons_self
      · exact (ih h).duplicate_cons _

theorem Ascending.nodup (h : Ascending ms) : (ms.map (·.index)).Nodup :=
  List.pairwise_map.2 (h.imp fun lt => Int.ne_of_lt lt)

theorem repeated?_of_ascending (h : Ascending ms) : repeated? ms = none := by
  cases found : repeated? ms with
  | none => rfl
  | some i => exact absurd h.nodup (List.exists_duplicate_iff_not_nodup.1 ⟨i, duplicate_of_repeated? found⟩)

end Order

omit [MemberTail τ] in
/-- `refresh` does not change a table that was decoded. -/
theorem refresh_counted (length : ms.length = n.value.toNat) (chained : Chained 0 ms) (ascending : Ascending ms)
    (notes : Option NoteDirectory) :
    refresh.Gives (counted n ms, notes) ⟨⟩ (counted n ms, notes) := by
  have sorted : sort (counted n ms) notes = .ok (false, counted n ms, notes) := by
    unfold sort
    rw [Table.sort_eq_self orders_byIndex]
    · rfl
    · change (members (counted n ms)).Pairwise _
      rw [members_counted]
      exact ascending.imp fun lt => Int.le_of_lt lt
  have reset : resetDiffs (counted n ms) = counted n ms := by
    rw [resetDiffs, members_counted, withDiffs_of_chained chained, setMembers_counted rfl]
  have count : Table.updateCount (counted n ms) = counted n ms := by
    refine Table.updateCount_eq_self ?_
    rintro _ ⟨⟩
    simp [Cell.get, Uleb.get, counted, Table.filled, length]
  simp only [refresh, Action.gives_bind, Action.gives_get, Action.gives_lift, Action.gives_set]
  refine ⟨_, _, ⟨rfl, rfl⟩, _, _, ⟨sorted, rfl⟩, ⟨⟩, _, rfl, ?_⟩
  rw [reset, members_counted, repeated?_of_ascending ascending]
  simp only [Action.gives_set, count]

/-! ## Tables in use -/

/-- The table is well formed, and its members can be encoded and decoded. -/
structure Good (t : MemberTable τ) : Prop where
  whole : Table.Whole t
  count : ∃ n : Uleb, n.Fair ∧ t.count = some (.uleb n)
  fair : ∀ m ∈ members t, m.Fair

theorem good_counted (fair : n.Fair) (members : ∀ m ∈ ms, m.Fair) : Good (counted n ms) where
  whole := Table.whole_filled _ _
  count := ⟨n, fair, rfl⟩
  fair := by rwa [members_counted]

section WithDiffs

omit [MemberTail τ] [LawfulTail τ]

theorem length_withDiffs (previous : Int) (ms : List (Member τ)) : (withDiffs previous ms).length = ms.length := by
  induction ms generalizing previous with
  | nil => rfl
  | cons m ms ih => rw [withDiffs, List.length_cons, ih, List.length_cons]

/-- A function that does not look at the differences is the same before and after `withDiffs`. -/
theorem map_withDiffs {β : Type} {f : Member τ → β} (blind : ∀ m diff, f { m with diff } = f m) (previous : Int)
    (ms : List (Member τ)) : (withDiffs previous ms).map f = ms.map f := by
  induction ms generalizing previous with
  | nil => rfl
  | cons m ms ih => rw [withDiffs, List.map_cons, ih, List.map_cons, blind]

theorem pairwise_withDiffs {R : Int → Int → Prop} (previous : Int) (ms : List (Member τ)) :
    (withDiffs previous ms).Pairwise (fun x y => R x.index y.index) ↔ ms.Pairwise fun x y => R x.index y.index := by
  have indices : (withDiffs previous ms).map (·.index) = ms.map (·.index) := map_withDiffs (fun _ _ => rfl) _ _
  rw [← List.pairwise_map (f := fun m : Member τ => m.index), indices, List.pairwise_map]

theorem withDiffs_withDiffs (previous : Int) (ms : List (Member τ)) :
    withDiffs previous (withDiffs previous ms) = withDiffs previous ms := by
  induction ms generalizing previous with
  | nil => rfl
  | cons m ms ih =>
    rw [withDiffs, withDiffs, ih, Uleb.set_set]

/-- The differences of strictly increasing 32-bit indices sum up to the indices. -/
theorem chained_of_withDiffs {bound : Int} (small : bound ≤ 2 ^ 32) (nonneg : 0 ≤ previous)
    (taken : withDiffs previous ms = ms) (inside : ∀ m ∈ ms, previous ≤ m.index ∧ m.index < bound)
    (ascending : Ascending ms) : Chained previous ms := by
  induction ms generalizing previous with
  | nil => trivial
  | cons m ms ih =>
    obtain ⟨here, rest⟩ := List.cons.inj taken
    obtain ⟨less, ascending⟩ := List.pairwise_cons.1 ascending
    obtain ⟨low, high⟩ := inside m List.mem_cons_self
    have diff : m.diff.set (m.index - previous) = m.diff := congrArg Member.diff here
    have get := Uleb.get_set (u := m.diff) (n := (m.index - previous).toNat) (by omega)
    rw [Int.toNat_of_nonneg (by omega), diff] at get
    refine ⟨by omega, ih (by omega) rest (fun k hk => ⟨Int.le_of_lt (less k hk), ?_⟩) ascending⟩
    exact (inside k (List.mem_cons_of_mem m hk)).2

/-- There are no more strictly increasing indices than fit below the bound. -/
theorem length_le_of_ascending {bound : Int} (fits : previous ≤ bound)
    (inside : ∀ m ∈ ms, previous ≤ m.index ∧ m.index < bound) (ascending : Ascending ms) :
    (ms.length : Int) ≤ bound - previous := by
  induction ms generalizing previous with
  | nil => simpa using fits
  | cons m ms ih =>
    obtain ⟨less, ascending⟩ := List.pairwise_cons.1 ascending
    obtain ⟨low, high⟩ := inside m List.mem_cons_self
    have above : ∀ k ∈ ms, m.index + 1 ≤ k.index ∧ k.index < bound :=
      fun k hk => ⟨less k hk, (inside k (List.mem_cons_of_mem m hk)).2⟩
    have rest := ih (by omega) above ascending
    rw [List.length_cons]
    push_cast
    omega

end WithDiffs

theorem fair_withDiffs (fair : ∀ m ∈ ms, m.Fair) (previous : Int) : ∀ m ∈ withDiffs previous ms, m.Fair := by
  induction ms generalizing previous with
  | nil => exact fair
  | cons m ms ih =>
    obtain ⟨here, rest⟩ := List.forall_mem_cons.1 fair
    exact List.forall_mem_cons.2 ⟨⟨here.diff.set _, here.access, here.tail⟩, ih rest _⟩

namespace Good

variable (good : Good t)
include good

theorem setMembers (length : ms.length = (members t).length) (fair : ∀ m ∈ ms, m.Fair) :
    Good (setMembers t ms) ∧ members (MemberTable.setMembers t ms) = ms := by
  have length := length.trans good.whole.length_values
  have values : members (MemberTable.setMembers t ms) = ms := good.whole.values_refill length
  have count : (MemberTable.setMembers t ms).count = t.count := (Table.order_refill _ _).2
  exact ⟨⟨good.whole.refill length, by rw [count]; exact good.count, by rwa [values]⟩, values⟩

theorem resetDiffs : Good (resetDiffs t) ∧ members (MemberTable.resetDiffs t) = withDiffs 0 (members t) :=
  good.setMembers (length_withDiffs _ _) (fair_withDiffs good.fair 0)

theorem push (index : Int) : Good (push t index) where
  whole := good.whole.push _
  count := by
    obtain ⟨n, fair, count⟩ := good.count
    exact ⟨n.set _, fair.set _, by rw [MemberTable.push, Table.push, Table.updateCount, count]; rfl⟩
  fair m hm := by
    have values : members (MemberTable.push t index) = members t ++ [{ Member.fresh with index }] :=
      good.whole.values_push _
    rw [values] at hm
    rcases List.mem_append.1 hm with hm | hm
    · exact good.fair m hm
    · rw [List.mem_singleton.1 hm]
      exact Member.fair_fresh index

theorem ensure (index : Int) : Good (ensure t index) := by
  unfold MemberTable.ensure
  split
  · exact good
  · exact (good.push index).resetDiffs.1

theorem update {f : Member τ → Member τ} (fair : ∀ m, m.Fair → (f m).Fair) (i : Int) : Good (Table.update t i f) where
  whole := good.whole.update i f
  count := by
    obtain ⟨n, fair, count⟩ := good.count
    exact ⟨n, fair, by rw [Table.Whole.count_update, count]⟩
  fair m hm := by
    have each : ∀ m ∈ (members t).modify i.toNat f, m.Fair := by
      intro m hm
      obtain ⟨k, hk⟩ := List.mem_iff_getElem?.1 hm
      rw [List.getElem?_modify] at hk
      obtain ⟨x, hx, rfl⟩ := Option.map_eq_some_iff.1 hk
      have old := good.fair x (List.mem_of_getElem? hx)
      split
      · exact fair x old
      · exact old
    rcases good.whole.values_update i f with same | ⟨n, rfl, changed⟩
    · rw [members, same] at hm
      exact good.fair m hm
    · rw [members, changed] at hm
      exact each m hm

theorem removeAt {i : Int} {m : Member τ} {notes : Option NoteDirectory}
    (run : removeAt t i none = .ok (m, u, notes)) : Good u := by
  obtain ⟨m, -, run⟩ := Action.except_bind_eq_ok.1 run
  obtain ⟨⟨x, v⟩, taken, run⟩ := Action.except_bind_eq_ok.1 run
  obtain ⟨notes, -, run⟩ := Action.except_bind_eq_ok.1 run
  cases run
  obtain ⟨whole, count, k, -, values⟩ := good.whole.removeAt taken
  have kept : ∀ m ∈ members v, m.Fair := by
    intro m hm
    rw [members, values] at hm
    exact good.fair m (List.mem_of_mem_eraseIdx hm)
  refine (Good.resetDiffs ⟨whole, ?_, kept⟩).1
  obtain ⟨n, fair, old⟩ := good.count
  exact ⟨n.set _, fair.set _, by rw [count, old]; rfl⟩

/-- `sort` succeeds with the members sorted by index, and with their differences. -/
theorem sort : ∃ moved u, MemberTable.sort t none = .ok (moved, u, none) ∧ Good u ∧
    ((members u).map Member.entry).Perm ((members t).map Member.entry) ∧
    (members u).Pairwise fun x y => x.index ≤ y.index := by
  obtain ⟨moved, v, run, whole, count, perm, sorted, still⟩ := good.whole.sort orders_byIndex
  have goodv : Good v := ⟨whole, by rw [count]; exact good.count, fun m hm => good.fair m (perm.mem_iff.1 hm)⟩
  cases moved with
  | false =>
    refine ⟨false, v, ?_, goodv, perm.map _, sorted⟩
    unfold MemberTable.sort
    rw [run]
    rfl
  | true =>
    obtain ⟨reset, members⟩ := goodv.resetDiffs
    refine ⟨true, MemberTable.resetDiffs v, ?_, reset, ?_, ?_⟩
    · unfold MemberTable.sort
      rw [run]
      rfl
    · rw [members, map_withDiffs fun _ _ => rfl]
      exact perm.map _
    · rw [members]
      exact (pairwise_withDiffs (R := (· ≤ ·)) _ _).2 sorted

end Good

theorem perm_indices {xs ys : List (Member τ)} (entries : (xs.map Member.entry).Perm (ys.map Member.entry)) :
    (xs.map (·.index)).Perm (ys.map (·.index)) := by
  have perm := entries.map MemberEntry.index
  rwa [List.map_map, List.map_map] at perm

/-- `u` is the table `t` after a successful refresh: the same members, strictly increasing, with their differences. -/
structure Refreshed (t u : MemberTable τ) : Prop where
  good : Good u
  entries : ((members u).map Member.entry).Perm ((members t).map Member.entry)
  ascending : Ascending (members u)
  diffs : withDiffs 0 (members u) = members u
  count : ∃ n : Uleb, n.Fair ∧ u.count = some (.uleb (n.set (members u).length))

/-- `refresh` succeeds with `Refreshed`, or fails with an index that occurs twice. -/
theorem refresh_outcome (good : Good t) :
    (∃ u, (refresh.Gives (t, none) ⟨⟩ (u, none)) ∧ Refreshed t u) ∨
    ∃ i u, List.Duplicate i ((members t).map (·.index)) ∧ Good u ∧
      refresh.apply (t, none) = (.error (.failure (.definedTwice i)), (u, none)) := by
  obtain ⟨moved, v, sorts, goodv, entries, sorted⟩ := good.sort
  obtain ⟨reset, members_eq⟩ := goodv.resetDiffs
  have run : refresh.apply (t, none) =
      (repeated? (members (resetDiffs v))).elim (.ok ⟨⟩, (Table.updateCount (resetDiffs v), none))
        fun index => (.error (.failure (.definedTwice index)), (resetDiffs v, none)) := by
    simp only [MemberTable.refresh, Action.apply_bind, Action.apply_get, Action.apply_lift, Action.apply_set, sorts]
    cases repeated? (members (resetDiffs v)) <;> rfl
  cases found : repeated? (members (resetDiffs v)) with
  | some i =>
    refine .inr ⟨i, resetDiffs v, ?_, reset, by rw [run, found]; rfl⟩
    have twice := duplicate_of_repeated? found
    have perm := perm_indices entries
    rw [members_eq, map_withDiffs fun _ _ => rfl] at twice
    exact List.duplicate_iff_two_le_count.2 ((perm.count_eq i).symm ▸ List.duplicate_iff_two_le_count.1 twice)
  | none =>
    refine .inl ⟨Table.updateCount (resetDiffs v), by rw [Action.Gives, run, found]; rfl, ?_⟩
    obtain ⟨n, fair, count⟩ := reset.count
    have length : (resetDiffs v).order.length = (members (resetDiffs v)).length := reset.whole.length_values.symm
    have stored : (Table.updateCount (resetDiffs v)).count = some (.uleb (n.set (members (resetDiffs v)).length)) := by
      rw [Table.updateCount, count, length]
      rfl
    have left : members (Table.updateCount (resetDiffs v)) = withDiffs 0 (members v) := members_eq
    refine ⟨⟨reset.whole.updateCount, ⟨_, fair.set _, stored⟩, reset.fair⟩, ?_, ?_, ?_, n, fair, stored⟩
    · rw [left, map_withDiffs fun _ _ => rfl]
      exact entries
    · refine ascending_of_repeated? ?_ found
      rw [left]
      exact (pairwise_withDiffs (R := (· ≤ ·)) _ _).2 sorted
    · rw [left, withDiffs_withDiffs]

/-! ## Reading back -/

/-- The encoding of a refreshed table is that of a table that `decode` can leave. -/
theorem Refreshed.stored (refreshed : Refreshed t u) (inside : ∀ m ∈ members u, 0 ≤ m.index ∧ m.index < 2 ^ 32)
    (countable : (members u).length ≠ 2 ^ 32) :
    ∃ n, Stored n ((members u).map Member.asRead) ∧ n.bytes = countBytes u := by
  obtain ⟨n, fair, count⟩ := refreshed.count
  have few := length_le_of_ascending (by decide) inside refreshed.ascending
  have chained := chained_of_withDiffs (by decide) le_rfl refreshed.diffs inside refreshed.ascending
  have asRead : ∀ {previous : Int} {ms : List (Member τ)}, Chained previous ms → Chained previous (ms.map Member.asRead) := by
    intro previous ms
    induction ms generalizing previous with
    | nil => exact id
    | cons m ms ih => exact fun h => ⟨h.1, ih h.2⟩
  refine ⟨(n.set (members u).length).asRead, ⟨(fair.set _).read, ?_, ?_, asRead chained, ?_⟩, ?_⟩
  · have get := Uleb.get_set (u := n) (n := (members u).length) (by omega)
    rw [Uleb.get] at get
    rw [List.length_map]
    change _ = (n.set (members u).length).value.toNat
    omega
  · intro m hm
    obtain ⟨k, hk, rfl⟩ := List.mem_map.1 hm
    exact (refreshed.good.fair k hk).read
  · exact List.pairwise_map.2 refreshed.ascending
  · rw [countBytes, count]
    rfl

/-- If `refresh` succeeds, no index occurs twice. -/
theorem Refreshed.nodup_indices (refreshed : Refreshed t u) : ((members t).map (·.index)).Nodup :=
  (perm_indices refreshed.entries).nodup_iff.1 refreshed.ascending.nodup

/-- The encoding of a refreshed table is that of a table that `decode` can leave, with the same entries. -/
theorem Refreshed.exists_stored (refreshed : Refreshed t u)
    (inside : ∀ i ∈ (members t).map (·.index), 0 ≤ i ∧ i < 2 ^ 32) (countable : ((members t).map (·.index)).length ≠ 2 ^ 32) :
    ∃ (n : Uleb) (ms : List (Member τ)), Stored n ms ∧ countBytes (counted n ms) = countBytes u ∧
      (pieces (counted n ms)).flatten = (pieces u).flatten ∧ ms.map Member.entry = (members u).map Member.entry := by
  have perm := perm_indices refreshed.entries
  obtain ⟨n, stored, bytes⟩ := refreshed.stored
    (fun m hm => inside _ (perm.mem_iff.1 (List.mem_map_of_mem hm)))
    (by rwa [← perm.length_eq, List.length_map] at countable)
  refine ⟨n, _, stored, bytes, ?_, ?_⟩
  · rw [flatten_pieces, flatten_pieces, members_counted, List.flatMap_map]
    simp only [Member.bytes_asRead]
  · rw [List.map_map]
    exact List.map_congr_left fun m _ => Member.entry_asRead m

end MemberTable

end Dalvik
