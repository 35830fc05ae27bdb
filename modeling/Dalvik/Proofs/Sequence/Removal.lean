import Dalvik.Proofs.Sequence.Forwarding

/-!
# Removing an item

`removeAt` keeps the other items in order, except for padding and tables that have lost their
switch, which are dropped. References to what is gone become references to the next item that is
left, or to the end. So a range between two handles covers the same of the items that are left
(`Removed.covers`).
-/

namespace Dalvik.Sequence

variable {s t : Sequence} {n m q : Nat} {as bs : List Nat}

/-! ## One item less -/

/-- The sequence without the item `n` between `as` and `bs`, before it is laid out again. -/
def cut (s : Sequence) (as : List Nat) (n : Nat) (bs : List Nat) : Sequence :=
  { s with items := (as ++ bs).toArray }.forget n ((bs.head?.map s.handleOf).getD .finish)

theorem removeAt_eq_ok {i : Int} (run : s.removeAt i = .ok (n, t)) :
    ∃ as bs, s.items.toList = as ++ n :: bs ∧ t = (s.cut as n bs).changed := by
  unfold removeAt at run
  obtain ⟨k, hk, run⟩ := Action.except_bind_eq_ok.1 run
  cases run
  obtain ⟨lt, located⟩ := nodeAt_eq_ok hk
  have nonneg : ¬ i < 0 := by
    intro negative
    have absent : s.nodeAt? i = none := if_pos negative
    unfold nodeAt at hk
    rw [absent] at hk
    cases hk
  obtain ⟨-, rfl⟩ := List.getElem?_eq_some_iff.1 located
  have erased : s.items.eraseIdxIfInBounds i.toNat =
      (s.items.toList.take i.toNat ++ s.items.toList.drop (i.toNat + 1)).toArray := by
    rw [← List.eraseIdx_eq_take_drop_succ, ← Array.toList_eraseIdxIfInBounds]
  refine ⟨s.items.toList.take i.toNat, s.items.toList.drop (i.toNat + 1), ?_, ?_⟩
  · rw [List.getElem_cons_drop, List.take_append_drop]
  · have next : ({ s with items := s.items.eraseIdxIfInBounds i.toNat } : Sequence).nodeAt? i =
        (s.items.toList.drop (i.toNat + 1)).head? := by
      rw [nodeAt?, if_neg nonneg, List.head?_drop]
      change (s.items.eraseIdxIfInBounds i.toNat)[i.toNat]? = _
      rw [← Array.getElem?_toList, Array.toList_eraseIdxIfInBounds, List.getElem?_eraseIdx_of_ge (Nat.le_refl _)]
    rw [next, erased]
    rfl

section Cut

variable (linked : Linked s s.items.toList) (split : s.items.toList = as ++ n :: bs)

include linked split

theorem Linked.apart : Linked { s with items := (as ++ bs).toArray } (n :: (as ++ bs)) := by
  refine Linked.perm ?_ List.perm_middle
  rw [← split]
  exact linked.congr (fun _ => rfl) rfl

theorem Linked.cut : Linked (s.cut as n bs) (as ++ bs) := (linked.apart split).forget _

theorem Linked.cut_evolves : Evolves s (s.cut as n bs) := by
  have same : Evolves s { s with items := (as ++ bs).toArray } := (Evolves.refl s).congr rfl rfl rfl rfl rfl rfl
  exact same.trans (evolves_forget (linked.apart split) _)

theorem Linked.cut_sheds : Sheds s (s.cut as n bs) (as ++ bs) := by
  have same : Sheds s { s with items := (as ++ bs).toArray } (as ++ n :: bs) := by
    rw [← split]
    exact (Sheds.refl linked).of_eq rfl rfl
  refine same.forget linked ((linked.apart split).perm List.perm_middle.symm) fun m hm => ?_
  rw [split]
  exact List.mem_append_right _ hm

end Cut

theorem exists_removeAt {i : Nat} (h : s.items[i]? = some n) : ∃ t, s.removeAt i = .ok (n, t) := by
  have found : s.nodeAt? i = some n := by
    rw [nodeAt?, if_neg (Int.not_lt.2 (Int.natCast_nonneg i)), Int.toNat_natCast, h]
  unfold removeAt nodeAt
  rw [found]
  exact ⟨_, rfl⟩

/-! ## What goes with it -/

/-- The node `m` is a table with an owner, and no switch other than `n` refers to it. -/
structure Orphan (s : Sequence) (n m : Nat) : Prop where
  owned : m ∈ s.owned
  unclaimed : ∀ k ∈ s.items.toList, k ≠ n → s.claims? k ≠ some m

theorem mem_owned : m ∈ s.owned ↔ m ∈ s.items.toList ∧
    (((s.node? m).bind fun x => x.item.owner?).any fun h => decide (0 ≤ h)) = true := List.mem_filter

/-- A table that is dropped has no switch. -/
theorem lastTo_of_dropped (hm : m ∈ s.items.toList) (gone : m ∉ s.claimTables.items.toList) :
    m ∈ s.owned ∧ ∀ k ∈ s.items.toList, s.claims? k ≠ some m := by
  rw [claimTables_eq] at gone
  change m ∉ (Sequence.dropUnclaimed s.owned #[] s.items.toList s.claimed).1.toList at gone
  rw [dropUnclaimed_items, List.nil_append, List.mem_filter, not_and] at gone
  have gone := gone hm
  simp only [Bool.not_eq_true', Bool.not_eq_false, Bool.and_eq_true, decide_eq_true_eq, List.contains_iff_mem] at gone
  obtain ⟨negative, owned⟩ := gone
  refine ⟨owned, lastTo_eq_none.1 ?_⟩
  cases last : lastTo s.claims? m s.items.toList with
  | none => rfl
  | some k =>
    obtain ⟨x, o, hx, ho, negative⟩ := unowned_of_getD negative
    rw [item?_claimed, last] at hx
    obtain ⟨y, -, rfl⟩ := Option.map_eq_some_iff.1 hx
    rcases owner?_adopt ho with ⟨unclaimed, -⟩ | ⟨k', -, rfl⟩
    · cases unclaimed
    · exact absurd negative (Int.not_lt.2 (Linked.handleOf_nonneg s k'))

theorem Linked.isPad_of_dropped (linked : Linked s s.items.toList) (hm : m ∈ s.items.toList)
    (gone : m ∉ s.layout.items.toList) : IsPad s m := by
  obtain ⟨x, hx⟩ := linked.node?_of_mem hm
  have item := item?_of_node? hx
  refine ⟨x.item, item, Bool.not_eq_false _ ▸ fun solid => gone ?_⟩
  have keep : m ∈ s.items.toList.filter s.solid := List.mem_filter.2 ⟨hm, by simp [Sequence.solid, item, solid]⟩
  rw [← linked.layout_order] at keep
  exact (List.mem_filter.1 keep).1

theorem Evolves.isPad (h : Evolves s t) (there : (s.item? m).isSome) (pad : IsPad t m) : IsPad s m := by
  obtain ⟨x, hx⟩ := Option.isSome_iff_exists.1 there
  obtain ⟨y, hy, e⟩ := h.kept m x hx
  obtain ⟨y', hy', padding⟩ := pad
  rw [hy] at hy'
  cases hy'
  exact ⟨x, hx, by rw [← Item.unlinked_isPadding, ← e, Item.unlinked_isPadding, padding]⟩

/-- A switch that is left refers to the table it referred to, unless that was removed. -/
theorem Linked.claims?_cut (linked : Linked s s.items.toList) (split : s.items.toList = as ++ n :: bs) {k : Nat}
    (hk : k ∈ as ++ bs) (ne : m ≠ n) (h : s.claims? k = some m) : (s.cut as n bs).claims? k = some m := by
  obtain ⟨x, hx, switch, target⟩ := claims?_eq_some.1 h
  have row := linked.cut split
  have hn : n ∈ s.items.toList := by rw [split]; simp
  have hm := linked.mem_of_named? target
  have left : m ∈ as ++ bs := by
    rw [split, mem_middle] at hm
    exact hm.resolve_left ne
  have handle : (s.cut as n bs).handleOf m = s.handleOf m := (linked.cut_sheds split).handleOf hm left
  have other : x.target ≠ s.handleOf n := by
    rw [linked.eq_handleOf_of_named? target]
    exact fun e => ne (linked.handleOf_inj hm hn e)
  refine claims?_eq_some.2 ⟨x, ?_, switch, ?_⟩
  · unfold Sequence.cut
    rw [(linked.apart split).item?_forget _ hk]
    change (s.item? k).map _ = _
    rw [hx, Option.map_some]
    change some (Item.plain (if x.target = s.handleOf n then _ else x)) = _
    rw [if_neg other]
  · rw [linked.eq_handleOf_of_named? target, ← handle]
    exact row.named?_handleOf left

theorem Linked.dropped_with (linked : Linked s s.items.toList) (split : s.items.toList = as ++ n :: bs)
    (hm : m ∈ s.items.toList) (ne : m ≠ n) (gone : m ∉ (s.cut as n bs).relink.items.toList) :
    IsPad s m ∨ Orphan s n m := by
  have row := linked.cut split
  have evolves := linked.cut_evolves split
  have there := (linked.cut_sheds split).there m hm
  have items : (s.cut as n bs).items.toList = as ++ bs := rfl
  have left : ∀ k ∈ s.items.toList, k ≠ n → k ∈ as ++ bs := by
    intro k hk ne
    rw [split, mem_middle] at hk
    exact hk.resolve_left ne
  have claims := fun k hk h => linked.claims?_cut split (m := m) (k := k) hk ne h
  have owner : (((s.cut as n bs).node? m).bind fun x => x.item.owner?) = (s.node? m).bind fun x => x.item.owner? :=
    ownerOf_forget _
  generalize s.cut as n bs = u at *
  rw [← items] at row left
  by_cases claimed : m ∈ u.claimTables.items.toList
  · refine .inl ((evolves.trans row.claimTables_evolves).isPad ?_ (row.claimTables.isPad_of_dropped claimed gone))
    obtain ⟨x, hx⟩ := linked.node?_of_mem hm
    rw [item?_of_node? hx, Option.isSome_some]
  · obtain ⟨owned, unclaimed⟩ := lastTo_of_dropped (left m hm ne) claimed
    refine .inr ⟨mem_owned.2 ⟨hm, ?_⟩, fun k hk kne h => unclaimed k (left k hk kne) ?_⟩
    · rw [← owner]
      exact (mem_owned.1 owned).2
    · exact claims k (items ▸ left k hk kne) h

/-! ## The whole -/

/-- `t` is the sequence `s` after item `n` was removed. -/
structure Removed (s : Sequence) (n : Nat) (t : Sequence) : Prop where
  mem : n ∈ s.items.toList
  gone : n ∉ t.items.toList
  linked : Linked t t.items.toList
  sheds : Sheds s t t.items.toList
  evolves : Evolves s t
  /-- Besides `n`, only padding and tables without a switch are dropped. -/
  dropped : ∀ m ∈ s.items.toList, m ∉ t.items.toList → m = n ∨ IsPad s m ∨ Orphan s n m

theorem removed_of_removeAt (linked : Linked s s.items.toList) {i : Int} (run : s.removeAt i = .ok (n, t)) :
    Removed s n t := by
  obtain ⟨as, bs, split, rfl⟩ := removeAt_eq_ok run
  have row := linked.cut split
  have evolves := linked.cut_evolves split
  have sheds := linked.cut_sheds split
  have dropped := fun m hm ne gone => linked.dropped_with split (m := m) hm ne gone
  have items : (s.cut as n bs).items.toList = as ++ bs := rfl
  have mem : n ∈ s.items.toList := by rw [split]; simp
  have absent : (s.cut as n bs).handle? n = none := by
    unfold cut
    rw [handle?_forget, if_pos rfl]
  have old : ∀ m, m ∈ s.items.toList ↔ m = n ∨ m ∈ as ++ bs := fun m => by rw [split, mem_middle]
  generalize s.cut as n bs = u at *
  rw [← items] at row sheds old
  have there : (u.item? n).isSome := sheds.there n mem
  unfold changed
  split
  · refine {
      mem
      gone := fun hm => ?_
      linked := row.relink.1
      sheds := sheds.relink linked row fun m hm => (old m).2 (.inr hm)
      evolves := evolves.trans row.relink_evolves
      dropped := fun m hm gone => or_iff_not_imp_left.2 fun ne => dropped m hm ne gone }
    obtain ⟨k, hk⟩ := row.relink.1.handle?_of_mem hm
    rw [row.relink_evolves.handles n k there hk] at absent
    cases absent
  · refine {
      mem
      gone := fun hm => ?_
      linked := row
      sheds
      evolves
      dropped := fun m hm gone => .inl (((old m).1 hm).resolve_right gone) }
    obtain ⟨k, hk⟩ := row.handle?_of_mem hm
    rw [absent] at hk
    cases hk

namespace Removed

variable (removed : Removed s n t)

include removed

/-- Only padding is added. -/
theorem added (linked : Linked s s.items.toList) (hm : m ∈ t.items.toList) (new : m ∉ s.items.toList) : IsPad t m := by
  obtain ⟨y, hy⟩ := removed.linked.node?_of_mem hm
  obtain ⟨k, hk⟩ := removed.linked.handle?_of_mem hm
  have absent : s.item? m = none := by
    rw [← Option.not_isSome_iff_eq_none]
    intro there
    have := removed.evolves.handles m k there hk
    rw [linked.handle?_eq_none new] at this
    cases this
  have e := removed.evolves.fresh m y.item (item?_of_node? hy) absent
  exact ⟨y.item, item?_of_node? hy, by rw [← Item.unlinked_isPadding, e]; rfl⟩

/-- An item that is left is as before, up to references, which were moved by `forward`. -/
theorem references {x : Item} (hx : s.item? m = some x) (left : m ∈ t.items.toList) :
    ∃ y, t.item? m = some y ∧ y.unlinked = x.unlinked ∧
      y.references = x.references.map (s.forward t.items.toList) := by
  obtain ⟨y, hy, unlinked⟩ := removed.evolves.kept m x hx
  obtain ⟨new, moves, follow⟩ := removed.evolves.follows
  obtain ⟨new', moves', forward⟩ := removed.sheds.moves
  have same : new = new' := Array.append_right_inj s.moves |>.1 (moves.symm.trans moves')
  obtain ⟨k, hk⟩ := removed.linked.handle?_of_mem left
  refine ⟨y, hy, unlinked, ?_⟩
  rw [(follow m x y hx hy (by rw [hk, Option.isSome_some])).1, same]
  exact List.map_congr_left fun h _ => forward h

end Removed

/-! ## What referred to items -/

/-- The handle is that of an item or of the end, or it is none. -/
def Stands (s : Sequence) (h : Handle) : Prop := h = .finish ∨ h = .none ∨ ∃ m ∈ s.items.toList, s.named? h = some m

instance (s : Sequence) (h : Handle) : Decidable (s.Stands h) := inferInstanceAs (Decidable (_ ∨ _ ∨ _))

/-- The position of the item with the handle; the end is behind all items. -/
def place? (s : Sequence) (h : Handle) : Option Nat :=
  if h = .finish then some s.items.size else (s.named? h).bind s.indexOf?

/-- The node is an item at or behind the first handle, and before the second one. -/
def Covers (s : Sequence) (first past : Handle) (n : Nat) : Prop :=
  ∃ i j k, s.place? first = some i ∧ s.place? past = some j ∧ s.indexOf? n = some k ∧ i ≤ k ∧ k < j

theorem indexOf?_eq_idxOf (hn : n ∈ s.items.toList) : s.indexOf? n = some (s.items.toList.idxOf n) := by
  have list := List.findIdx?_toArray (· == n) s.items.toList
  rw [Array.toArray_toList] at list
  rw [indexOf?, list]
  exact List.findIdx?_eq_some_of_exists ⟨n, hn, by simp⟩

theorem forward_finish (s : Sequence) (ys : List Nat) : s.forward ys .finish = .finish := forward_of_none rfl

theorem forward_nothing (s : Sequence) (ys : List Nat) : s.forward ys .none = .none := forward_of_none rfl

/-- References to an item that is left do not change. -/
theorem Linked.forward_eq (linked : Linked s s.items.toList) {ys : List Nat} {h : Handle} (hm : s.named? h = some m)
    (left : m ∈ ys) : s.forward ys h = h := by
  rw [forward_of_named? hm, heir_of_mem (linked.mem_of_named? hm) left, Option.elim_some]
  exact (linked.eq_handleOf_of_named? hm).symm

namespace Removed

/-- The items that are left keep their order. -/
theorem idxOf_le (removed : Removed s n t) (hm : m ∈ s.items.toList) (hq : q ∈ s.items.toList)
    (leftm : m ∈ t.items.toList) (leftq : q ∈ t.items.toList) :
    s.items.toList.idxOf m ≤ s.items.toList.idxOf q ↔ t.items.toList.idxOf m ≤ t.items.toList.idxOf q := by
  rw [← idxOf_filter_le t.items.toList.contains (by simpa using leftm) (by simpa using leftq), ← removed.sheds.order,
    idxOf_filter_le _ (by simpa using hm) (by simpa using hq)]

variable (linked : Linked s s.items.toList) (removed : Removed s n t)

include linked removed

/-- An item that is left keeps its handle. -/
theorem named? {h : Handle} (hm : s.named? h = some m) (left : m ∈ t.items.toList) : t.named? h = some m := by
  obtain ⟨j, rfl, hj⟩ := linked.named?_iff.1 hm
  exact removed.linked.named?_iff.2 ⟨j, rfl, (removed.sheds.handle? m (linked.mem_of_named? hm) left).trans hj⟩

theorem named?_handleOf (hm : m ∈ s.items.toList) (left : m ∈ t.items.toList) : t.named? (s.handleOf m) = some m :=
  removed.named? linked (linked.named?_handleOf hm) left

theorem stands {h : Handle} (stands : s.Stands h) : t.Stands (s.forward t.items.toList h) := by
  rcases stands with rfl | rfl | ⟨m, mem, hm⟩
  · rw [forward_finish]
    exact .inl rfl
  · rw [forward_nothing]
    exact .inr (.inl rfl)
  · rw [forward_of_named? hm]
    cases found : heir s.items.toList t.items.toList m with
    | none => exact .inl rfl
    | some k =>
      obtain ⟨hk, left⟩ := mem_of_heir mem found
      exact .inr (.inr ⟨k, left, removed.named?_handleOf linked hk left⟩)

/-- An item that is left is behind a moved handle exactly if it was behind the handle. -/
theorem place? {h : Handle} (stands : s.Stands h) (hq : q ∈ s.items.toList) (left : q ∈ t.items.toList) :
    (s.place? h = none ∧ t.place? (s.forward t.items.toList h) = none) ∨
      ∃ i j, s.place? h = some i ∧ t.place? (s.forward t.items.toList h) = some j ∧
        (i ≤ s.items.toList.idxOf q ↔ j ≤ t.items.toList.idxOf q) := by
  have finish : ∀ u : Sequence, u.place? .finish = some u.items.size := fun _ => if_pos rfl
  have last : ¬ t.items.size ≤ t.items.toList.idxOf q := by
    have := List.idxOf_lt_length_of_mem left
    rw [Array.length_toList] at this
    omega
  have named : ∀ {u : Sequence} {k m}, u.named? k = some m → m ∈ u.items.toList →
      u.place? k = some (u.items.toList.idxOf m) := by
    intro u k m hk hm
    have ne : k ≠ .finish := by
      rintro rfl
      cases hk
    rw [Sequence.place?, if_neg ne, hk, Option.bind_some, indexOf?_eq_idxOf hm]
  rcases stands with rfl | rfl | ⟨m, mem, hm⟩
  · have : ¬ s.items.size ≤ s.items.toList.idxOf q := by
      have := List.idxOf_lt_length_of_mem hq
      rw [Array.length_toList] at this
      omega
    rw [forward_finish]
    exact .inr ⟨_, _, finish s, finish t, iff_of_false this last⟩
  · rw [forward_nothing]
    exact .inl ⟨rfl, rfl⟩
  · have behind := idxOf_heir_le linked.nodup mem hq left
    rw [forward_of_named? hm]
    cases found : heir s.items.toList t.items.toList m with
    | none =>
      refine .inr ⟨_, _, named hm mem, finish t, iff_of_false ?_ last⟩
      simpa [found] using behind
    | some k =>
      obtain ⟨hk, leftk⟩ := mem_of_heir mem found
      refine .inr ⟨_, _, named hm mem, named (removed.named?_handleOf linked hk leftk) leftk, ?_⟩
      rw [← removed.idxOf_le hk hq leftk left, behind, found]
      simp

/-- A range between moved handles covers what the range covered, of the items that are left. -/
theorem covers {first past : Handle} (hfirst : s.Stands first) (hpast : s.Stands past) (hq : q ∈ s.items.toList)
    (left : q ∈ t.items.toList) :
    t.Covers (s.forward t.items.toList first) (s.forward t.items.toList past) q ↔ s.Covers first past q := by
  unfold Covers
  rw [indexOf?_eq_idxOf hq, indexOf?_eq_idxOf left]
  rcases removed.place? linked hfirst hq left with ⟨e, e'⟩ | ⟨i, i', e, e', first_iff⟩
  · simp [e, e']
  · rcases removed.place? linked hpast hq left with ⟨f, f'⟩ | ⟨j, j', f, f', past_iff⟩
    · simp [f, f']
    · simp only [e, e', f, f', Option.some.injEq, exists_and_left, exists_eq_left', ← Nat.not_le, first_iff, past_iff]

end Removed

end Dalvik.Sequence
