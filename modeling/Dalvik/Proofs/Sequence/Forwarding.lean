import Dalvik.Proofs.Sequence.Order

/-!
# Where references go when items do

A removal may take several items out: the item itself, tables that lose their switch, and padding
that is no longer needed. Each time, references to the node that goes become references to the one
behind it, which may be the next to go. In the end a reference leads to the first item from there on
that is left, its `heir`. `Sheds s t ys` says that this holds while the nodes `ys` are left.
Forgetting one more node keeps it, and so do `dropUnclaimed` and `layout`; `removed_of_removeAt` is
the result for `removeAt`.
-/

namespace Dalvik.Sequence

variable {s t u : Sequence} {n m p q : Nat} {xs ys zs as bs : List Nat}

theorem mem_middle : m ∈ as ++ p :: bs ↔ m = p ∨ m ∈ as ++ bs := List.perm_middle.mem_iff.trans List.mem_cons

theorem filter_ne_middle (gone : p ∉ as ++ bs) : (as ++ p :: bs).filter (· != p) = as ++ bs := by
  rw [List.filter_append, List.filter_cons_of_neg (by simp), ← List.filter_append]
  refine List.filter_eq_self.2 fun m hm => ?_
  simp only [bne_iff_ne, ne_eq]
  rintro rfl
  exact gone hm

/-! ## The next node that is left -/

/-- The first node from `n` on that is in `ys`. -/
def heir (xs ys : List Nat) (n : Nat) : Option Nat := (xs.dropWhile (· != n)).find? ys.contains

theorem heir_append (hn : n ∉ as) : heir (as ++ n :: bs) ys n = (n :: bs).find? ys.contains := by
  rw [heir, List.dropWhile_append_of_pos, List.dropWhile_cons_of_neg (by simp)]
  intro m hm
  simp only [bne_iff_ne, ne_eq]
  rintro rfl
  exact hn hm

theorem find?_congr (h : ∀ m ∈ xs, m ∈ ys ↔ m ∈ zs) : xs.find? ys.contains = xs.find? zs.contains := by
  induction xs with
  | nil => rfl
  | cons x xs ih =>
    have here : ys.contains x = zs.contains x := by
      rw [Bool.eq_iff_iff]
      simpa using h x List.mem_cons_self
    rw [List.find?_cons, List.find?_cons, here, ih fun m hm => h m (List.mem_cons_of_mem _ hm)]

theorem heir_congr (hn : n ∈ xs) (h : ∀ m ∈ xs, m ∈ ys ↔ m ∈ zs) : heir xs ys n = heir xs zs n := by
  obtain ⟨as, bs, rfl, fresh⟩ := List.eq_append_cons_of_mem hn
  rw [heir_append fresh, heir_append fresh]
  exact find?_congr fun m hm => h m (List.mem_append_right _ hm)

theorem heir_of_mem (hn : n ∈ xs) (hys : n ∈ ys) : heir xs ys n = some n := by
  obtain ⟨as, bs, rfl, fresh⟩ := List.eq_append_cons_of_mem hn
  rw [heir_append fresh, List.find?_cons_of_pos (by simpa using hys)]

theorem mem_of_heir (hn : n ∈ xs) (h : heir xs ys n = some m) : m ∈ xs ∧ m ∈ ys := by
  obtain ⟨as, bs, rfl, fresh⟩ := List.eq_append_cons_of_mem hn
  rw [heir_append fresh] at h
  exact ⟨List.mem_append_right _ (List.mem_of_find?_eq_some h), by simpa using List.find?_some h⟩

/-- The heir after one more node `p` is gone: where it was `p`, it is the next one. -/
theorem heir_without (nodup : (as ++ p :: bs).Nodup) (hp : p ∈ ys)
    (left : ∀ m ∈ as ++ p :: bs, m ∈ zs ↔ m ∈ ys ∧ m ≠ p) (hn : n ∈ as ++ p :: bs) :
    heir (as ++ p :: bs) zs n =
      if heir (as ++ p :: bs) ys n = some p then bs.find? ys.contains else heir (as ++ p :: bs) ys n := by
  -- Apart from `p` the two lists have the same nodes.
  have same : ∀ cs : List Nat, (∀ m ∈ cs, m ∈ as ++ p :: bs) → p ∉ cs →
      cs.find? zs.contains = cs.find? ys.contains := by
    intro cs sub absent
    refine find?_congr fun m hm => ?_
    rw [left m (sub m hm)]
    exact and_iff_left (by rintro rfl; exact absent hm)
  obtain ⟨before, after, split, fresh⟩ := List.eq_append_cons_of_mem hn
  have sub : ∀ m ∈ n :: after, m ∈ as ++ p :: bs := fun m hm => by
    rw [split]
    exact List.mem_append_right _ hm
  have heirs : ∀ ws, heir (as ++ p :: bs) ws n = (n :: after).find? ws.contains := fun ws => by
    rw [split, heir_append fresh]
  rw [heirs, heirs]
  by_cases mem : p ∈ n :: after
  · obtain ⟨cs, ds, e, absent⟩ := List.eq_append_cons_of_mem mem
    -- What comes after `p` is the same in both ways to split the list.
    have absent' : p ∉ as := fun h => List.disjoint_of_nodup_append nodup h List.mem_cons_self
    have last : p ∉ bs := (List.nodup_cons.1 (List.nodup_append.1 nodup).2.1).1
    have tail : bs = ds := by
      have := split
      rw [e, ← List.append_assoc] at this
      exact ((List.append_cons_inj_of_notMem absent' last).1 this).2.2
    subst tail
    rw [e, List.find?_append, List.find?_append, List.find?_cons_of_pos (p := ys.contains) (by simpa using hp),
      List.find?_cons_of_neg (p := zs.contains) (by simp [left p]),
      same cs (fun m hm => sub m (by rw [e]; simp [hm])) absent, same bs (fun m hm => by simp [hm]) last]
    cases found : cs.find? ys.contains with
    | none => simp
    | some m =>
      have ne : m ≠ p := by
        rintro rfl
        exact absent (List.mem_of_find?_eq_some found)
      simp [ne]
  · have ne : (n :: after).find? ys.contains ≠ some p := fun h => mem (List.mem_of_find?_eq_some h)
    rw [if_neg ne, same _ sub mem]

/-! ## Positions -/

theorem idxOf_filter_le (keep : Nat → Bool) (hn : keep n = true) (hm : keep m = true) :
    (xs.filter keep).idxOf n ≤ (xs.filter keep).idxOf m ↔ xs.idxOf n ≤ xs.idxOf m := by
  induction xs with
  | nil => simp
  | cons x xs ih =>
    cases kept : keep x with
    | true =>
      rw [List.filter_cons_of_pos kept, List.idxOf_cons, List.idxOf_cons, List.idxOf_cons, List.idxOf_cons]
      by_cases en : x = n
      · subst en
        simp
      · by_cases em : x = m
        · subst em
          simp [beq_eq_false_iff_ne.2 en]
        · simp [beq_eq_false_iff_ne.2 en, beq_eq_false_iff_ne.2 em, ih]
    | false =>
      have en : x ≠ n := by rintro rfl; rw [kept] at hn; cases hn
      have em : x ≠ m := by rintro rfl; rw [kept] at hm; cases hm
      rw [List.filter_cons_of_neg (by simp [kept]), ih, List.idxOf_cons_ne _ en, List.idxOf_cons_ne _ em]
      exact Nat.succ_le_succ_iff.symm

/-- A node that is left is behind `n` exactly if it is behind the heir of `n`. -/
theorem idxOf_heir_le (nodup : xs.Nodup) (hn : n ∈ xs) (hq : q ∈ xs) (hqs : q ∈ ys) :
    xs.idxOf n ≤ xs.idxOf q ↔ ∃ m, heir xs ys n = some m ∧ xs.idxOf m ≤ xs.idxOf q := by
  obtain ⟨as, bs, rfl, fresh⟩ := List.eq_append_cons_of_mem hn
  have behind : ∀ cs {k ds}, as ++ n :: bs = cs ++ k :: ds →
      ((as ++ n :: bs).idxOf k ≤ (as ++ n :: bs).idxOf q ↔ q ∉ cs) := by
    intro cs k ds e
    rw [e] at nodup ⊢
    have absent : k ∉ cs := fun h => List.disjoint_of_nodup_append nodup h List.mem_cons_self
    rw [List.idxOf_append, List.idxOf_append, if_neg absent, List.idxOf_cons_self]
    split
    · next h =>
      have := List.idxOf_lt_length_of_mem h
      simp [h]
      omega
    · next h => simp [h]
  rw [heir_append fresh, behind as rfl]
  constructor
  · intro absent
    have mem : q ∈ n :: bs := (List.mem_append.1 hq).resolve_left absent
    cases found : (n :: bs).find? ys.contains with
    | none =>
      have := List.find?_eq_none.1 found q mem
      simp [hqs] at this
    | some m =>
      obtain ⟨-, gone, ds, e, missing⟩ := List.find?_eq_some_iff_append.1 found
      refine ⟨m, rfl, (behind (as ++ gone) (by rw [e, List.append_assoc])).2 ?_⟩
      rintro h
      rcases List.mem_append.1 h with h | h
      · exact absent h
      · have := missing q h
        simp [hqs] at this
  · rintro ⟨m, found, le⟩
    obtain ⟨-, gone, ds, e, -⟩ := List.find?_eq_some_iff_append.1 found
    have := (behind (as ++ gone) (by rw [e, List.append_assoc])).1 le
    exact fun h => this (List.mem_append_left _ h)

/-! ## Moving on -/

/-- The handle that a reference becomes when of the items only `ys` are left: that of the heir, or the end. -/
def forward (s : Sequence) (ys : List Nat) (h : Handle) : Handle :=
  (s.named? h).elim h fun n => (heir s.items.toList ys n).elim .finish s.handleOf

/-- Of the items of `s` those in `ys` are left in `t`, in order, and all references are moved by `forward`. -/
structure Sheds (s t : Sequence) (ys : List Nat) : Prop where
  order : ys.filter s.items.toList.contains = s.items.toList.filter ys.contains
  handle? : ∀ n ∈ s.items.toList, n ∈ ys → t.handle? n = s.handle? n
  there : ∀ n ∈ s.items.toList, (t.item? n).isSome
  /-- New items refer to nothing. -/
  fresh : ∀ n ∈ ys, n ∉ s.items.toList → ∃ y, t.item? n = some y ∧ y.references = [.none]
  moves : ∃ new, t.moves = s.moves ++ new ∧ ∀ h, Handle.follow new.toList h = s.forward ys h

theorem forward_of_named? {h : Handle} (hn : s.named? h = some n) :
    s.forward ys h = (heir s.items.toList ys n).elim .finish s.handleOf := by
  rw [forward, hn, Option.elim_some]

theorem forward_of_none {h : Handle} (hn : s.named? h = none) : s.forward ys h = h := by
  rw [forward, hn, Option.elim_none]

theorem finish_ne_handleOf (s : Sequence) (n : Nat) : Handle.finish ≠ s.handleOf n := by
  intro e
  have := Linked.handleOf_nonneg s n
  rw [← e] at this
  cases this

theorem none_ne_handleOf (s : Sequence) (n : Nat) : Handle.none ≠ s.handleOf n := by
  intro e
  have := Linked.handleOf_nonneg s n
  rw [← e] at this
  cases this

theorem Linked.forward_congr (linked : Linked s s.items.toList) (h : ∀ m ∈ s.items.toList, m ∈ ys ↔ m ∈ zs) :
    s.forward ys = s.forward zs := by
  funext k
  cases hk : s.named? k with
  | none => rw [forward_of_none hk, forward_of_none hk]
  | some n => rw [forward_of_named? hk, forward_of_named? hk, heir_congr (linked.mem_of_named? hk) h]

/-- `forward` after one more node is gone. -/
theorem Linked.forward_without (linked : Linked s s.items.toList) (hp : p ∈ s.items.toList) {next : Option Nat}
    (without : ∀ n ∈ s.items.toList, heir s.items.toList zs n =
      if heir s.items.toList ys n = some p then next else heir s.items.toList ys n) (h : Handle) :
    s.forward zs h = if s.forward ys h = s.handleOf p then (next.map s.handleOf).getD .finish else s.forward ys h := by
  cases hn : s.named? h with
  | none =>
    have ne : h ≠ s.handleOf p := by
      rintro rfl
      rw [linked.named?_handleOf hp] at hn
      cases hn
    rw [forward_of_none hn, forward_of_none hn, if_neg ne]
  | some n =>
    have mem := linked.mem_of_named? hn
    rw [forward_of_named? hn, forward_of_named? hn, without n mem]
    cases found : heir s.items.toList ys n with
    | none => rw [Option.elim_none, if_neg (finish_ne_handleOf s p), if_neg (by simp), Option.elim_none]
    | some m =>
      rw [Option.elim_some]
      by_cases e : m = p
      · subst e
        rw [if_pos rfl, if_pos rfl]
        cases next <;> rfl
      · rw [if_neg fun same => e (linked.handleOf_inj (mem_of_heir mem found).1 hp same), if_neg (by simpa using e),
          Option.elim_some]

namespace Sheds

theorem refl (linked : Linked s s.items.toList) : Sheds s s s.items.toList where
  order := rfl
  handle? _ _ _ := rfl
  there n hn := by
    obtain ⟨x, hx⟩ := linked.node?_of_mem hn
    rw [item?_of_node? hx, Option.isSome_some]
  fresh n hn hn' := absurd hn hn'
  moves := by
    refine ⟨#[], by rw [Array.append_empty], fun h => ?_⟩
    cases hn : s.named? h with
    | none => exact (forward_of_none hn).symm
    | some n =>
      have mem := linked.mem_of_named? hn
      rw [forward_of_named? hn, heir_of_mem mem mem]
      exact linked.eq_handleOf_of_named? hn

theorem congr (h : Sheds s t ys) (handle? : ∀ n, u.handle? n = t.handle? n)
    (item? : ∀ n y, t.item? n = some y → ∃ z, u.item? n = some z ∧ z.references = y.references)
    (moves : u.moves = t.moves) : Sheds s u ys where
  order := h.order
  handle? n hn hys := (handle? n).trans (h.handle? n hn hys)
  there n hn := by
    obtain ⟨y, hy⟩ := Option.isSome_iff_exists.1 (h.there n hn)
    obtain ⟨z, hz, -⟩ := item? n y hy
    rw [hz, Option.isSome_some]
  fresh n hys hn := by
    obtain ⟨y, hy, absent⟩ := h.fresh n hys hn
    obtain ⟨z, hz, e⟩ := item? n y hy
    exact ⟨z, hz, e.trans absent⟩
  moves := by
    rw [moves]
    exact h.moves

theorem of_eq (h : Sheds s t ys) (nodes : u.nodes = t.nodes) (moves : u.moves = t.moves) : Sheds s u ys := by
  refine h.congr (fun n => ?_) (fun n y hy => ⟨y, ?_, rfl⟩) moves
  · simp only [Sequence.handle?, node?, nodes]
  · rw [← hy]
    simp only [Sequence.item?, node?, nodes]

theorem setAddress (h : Sheds s t ys) (n : Nat) (a : Int) : Sheds s (t.setAddress n a) ys :=
  h.congr (fun _ => handle?_setAddress a) (fun _ y hy => ⟨y, (item?_setAddress a).trans hy, rfl⟩) rfl

theorem handleOf (h : Sheds s t ys) (hn : n ∈ s.items.toList) (hys : n ∈ ys) : t.handleOf n = s.handleOf n := by
  rw [handleOf_eq, handleOf_eq, h.handle? n hn hys]

/-- The first node behind `p` that is left is the next one in the list. -/
theorem next (h : Sheds s t (as ++ p :: bs)) (gone : p ∉ as ++ bs) (old : ∀ m ∈ p :: bs, m ∈ s.items.toList)
    {before after : List Nat} (split : s.items.toList = before ++ p :: after) :
    after.find? (as ++ p :: bs).contains = bs.head? := by
  have order := h.order
  have rest : bs.filter s.items.toList.contains = bs :=
    List.filter_eq_self.2 fun m hm => by simpa using old m (List.mem_cons_of_mem _ hm)
  rw [List.filter_append, List.filter_cons_of_pos (by simpa using old p List.mem_cons_self), rest, split,
    List.filter_append, List.filter_cons_of_pos (by simp)] at order
  have absent : p ∉ as.filter (before ++ p :: after).contains := fun hm =>
    gone (List.mem_append_left _ (List.mem_filter.1 hm).1)
  have absent' : p ∉ bs := fun hm => gone (List.mem_append_right _ hm)
  have tail := ((List.append_cons_inj_of_notMem absent absent').1 order).2.2
  rw [← List.head?_filter]
  exact congrArg List.head? tail.symm

/-- `forget` of one more node, in favour of the next one, keeps `Sheds`. -/
theorem forget (linked : Linked s s.items.toList) (h : Sheds s t (as ++ p :: bs)) (row : Linked t (as ++ p :: bs))
    (old : ∀ m ∈ p :: bs, m ∈ s.items.toList) :
    Sheds s (t.forget p ((bs.head?.map t.handleOf).getD .finish)) (as ++ bs) := by
  have hp : p ∈ s.items.toList := old p List.mem_cons_self
  have gone : p ∉ as ++ bs := (List.nodup_cons.1 (List.nodup_middle.1 row.nodup)).1
  have left : ∀ m, m ∈ as ++ bs ↔ m ∈ as ++ p :: bs ∧ m ≠ p := by
    intro m
    rw [mem_middle]
    constructor
    · intro hm
      refine ⟨.inr hm, ?_⟩
      rintro rfl
      exact gone hm
    · rintro ⟨rfl | hm, ne⟩
      · exact absurd rfl ne
      · exact hm
  have apart := row.perm List.perm_middle
  refine {
    order := ?_
    handle? := fun n hn hys => ?_
    there := fun n hn => (evolves_forget apart _).persists n (h.there n hn)
    fresh := fun n hys hn => ?_
    moves := ?_ }
  · rw [← filter_ne_middle gone, List.filter_filter,
      List.filter_congr (q := fun m => (m != p) && s.items.toList.contains m) fun m _ => Bool.and_comm _ _,
      ← List.filter_filter, h.order, List.filter_filter, filter_ne_middle gone]
    refine List.filter_congr fun m _ => ?_
    rw [Bool.eq_iff_iff]
    simpa [and_comm] using (left m).symm
  · rw [handle?_forget, if_neg (Ne.symm ((left n).1 hys).2), h.handle? n hn ((left n).1 hys).1]
  · obtain ⟨y, hy, absent⟩ := h.fresh n ((left n).1 hys).1 hn
    rw [apart.item?_forget _ hys, hy]
    refine ⟨_, rfl, ?_⟩
    rw [Item.references_retarget, absent]
    simp [Handle.follow, none_ne_handleOf]
  · obtain ⟨new, moves, follow⟩ := h.moves
    refine ⟨new.push (t.handleOf p, (bs.head?.map t.handleOf).getD .finish), ?_, fun k => ?_⟩
    · rw [moves_forget, moves, Array.push_append]
    obtain ⟨before, after, split⟩ := List.append_of_mem hp
    have without : ∀ n ∈ s.items.toList, heir s.items.toList (as ++ bs) n =
        if heir s.items.toList (as ++ p :: bs) n = some p then bs.head? else heir s.items.toList (as ++ p :: bs) n := by
      intro n hn
      have nodup := linked.nodup
      rw [← h.next gone old split]
      rw [split] at nodup hn ⊢
      exact heir_without nodup (by simp) (fun m _ => left m) hn
    have handles : ∀ m ∈ p :: bs, t.handleOf m = s.handleOf m := fun m hm =>
      h.handleOf (old m hm) (List.mem_append_right _ hm)
    have head : (bs.head?.map t.handleOf).getD .finish = (bs.head?.map s.handleOf).getD .finish := by
      cases bs with
      | nil => rfl
      | cons b bs => exact handles b (by simp)
    rw [linked.forward_without hp without, Array.toList_push, Handle.follow_append, follow k, head,
      handles p List.mem_cons_self]
    rfl

/-- New padding keeps `Sheds`. -/
theorem pad (linked : Linked s s.items.toList) (h : Sheds s t (as ++ bs)) :
    Sheds s ((t.create (.plain .padding)).2.register t.nodes.size) (as ++ t.nodes.size :: bs) := by
  have absent : t.nodes.size ∉ s.items.toList := by
    intro mem
    have := h.there _ mem
    simp [Sequence.item?] at this
  have mem_iff : ∀ m, m ∈ s.items.toList → (m ∈ as ++ t.nodes.size :: bs ↔ m ∈ as ++ bs) := by
    intro m hm
    have ne : m ≠ t.nodes.size := by rintro rfl; exact absent hm
    simp [ne]
  have detached := handle?_create_self t (.plain .padding)
  have item : ∀ m, ((t.create (.plain .padding)).2.register t.nodes.size).item? m =
      if m = t.nodes.size then some (.plain .padding) else t.item? m := fun m => by rw [item?_register, item?_create]
  refine {
    order := ?_
    handle? := fun n hn hys => ?_
    there := fun n hn => ?_
    fresh := fun n hys hn => ?_
    moves := ?_ }
  · rw [List.filter_append, List.filter_cons_of_neg (by simpa using absent), ← List.filter_append, h.order]
    refine List.filter_congr fun m hm => ?_
    rw [Bool.eq_iff_iff]
    simpa using (mem_iff m hm).symm
  · have ne : n ≠ t.nodes.size := by rintro rfl; exact absent hn
    rw [handle?_register detached (node?_create_self t _), if_neg (Ne.symm ne), handle?_create]
    exact h.handle? n hn ((mem_iff n hn).1 hys)
  · rw [item]
    split
    · rfl
    · exact h.there n hn
  · rw [item]
    split
    · exact ⟨_, rfl, rfl⟩
    · next ne =>
      exact h.fresh n (by simpa [ne] using hys) hn
  · obtain ⟨new, moves, follow⟩ := h.moves
    refine ⟨new, by rw [moves_register, moves_create, moves], fun k => ?_⟩
    rw [follow, linked.forward_congr fun m hm => (mem_iff m hm).symm]

end Sheds

/-! ## Dropping tables -/

theorem Sheds.dropUnclaimed (linked : Linked s s.items.toList) (kept : Array Nat) (h : Sheds s t (kept.toList ++ bs))
    (row : Linked t (kept.toList ++ bs)) (old : ∀ m ∈ bs, m ∈ s.items.toList) (had : List Nat) :
    Sheds s (Sequence.dropUnclaimed had kept bs t).2 (Sequence.dropUnclaimed had kept bs t).1.toList := by
  induction bs generalizing kept t with
  | nil => simpa [Sequence.dropUnclaimed] using h
  | cons n bs ih =>
    simp only [Sequence.dropUnclaimed]
    split
    · exact ih _ (h.forget linked row old) ((row.perm List.perm_middle).forget _) fun m hm =>
        old m (List.mem_cons_of_mem _ hm)
    · exact ih _ (by simpa using h) (by simpa using row) fun m hm => old m (List.mem_cons_of_mem _ hm)

theorem Sheds.reowned (h : Sheds s t ys) (reowned : Reowned t u) : Sheds s u ys := by
  refine h.congr reowned.handle? (fun n y hy => ?_) reowned.moves
  rcases reowned.item? n with e | ⟨k, e⟩
  · exact ⟨y, by rw [e, hy], rfl⟩
  · exact ⟨y.setOwner k, by rw [e, hy, Option.map_some], y.references_setOwner k⟩

theorem Sheds.claimTables (linked : Linked s s.items.toList) (h : Sheds s t t.items.toList)
    (row : Linked t t.items.toList) (old : ∀ m ∈ t.items.toList, m ∈ s.items.toList) :
    Sheds s t.claimTables t.claimTables.items.toList := by
  have claimed := h.reowned (reowned_claimed t)
  rw [claimTables_eq]
  exact (Sheds.dropUnclaimed linked #[] (by simpa using claimed) row.claimed old t.owned).of_eq rfl rfl

/-! ## Laying out -/

namespace Layout

variable {l : Layout} {rest : List Nat}

/-- `Sheds` for a layout in progress: what is left are the nodes that are placed, pending and still to come. -/
structure Shed (s u : Sequence) (l : Layout) (rest : List Nat) : Prop where
  valid : Valid u l rest
  sheds : Sheds s l.sequence (l.placed.toList ++ (l.pad.toList ++ rest))
  old : ∀ m ∈ l.pad.toList ++ rest, m ∈ s.items.toList

theorem Shed.dropPad (linked : Linked s s.items.toList) (h : Shed s u l rest) :
    Shed s u (l.dropPad ((rest.head?.map l.sequence.handleOf).getD .finish)) rest := by
  have issued := h.valid.linked.next_lt rest.head? fun n hn => List.mem_append_right _ (List.mem_of_head? hn)
  have valid := h.valid.dropPad _ issued
  refine ⟨valid, ?_, ?_⟩
  · unfold Layout.dropPad
    split
    · next p hp =>
      have sheds := h.sheds
      have row := h.valid.linked
      have old := h.old
      rw [hp, Option.toList_some, List.singleton_append] at sheds old
      rw [hp, Option.toList_some, List.append_assoc, List.singleton_append] at row
      simpa using sheds.forget linked row old
    · exact h.sheds
  · rw [dropPad_pad]
    exact fun m hm => h.old m (List.mem_append_right _ (by simpa using hm))

theorem Shed.placePad (linked : Linked s s.items.toList) (h : Shed s u l rest) : Shed s u l.placePad rest := by
  refine ⟨h.valid.placePad, ?_, ?_⟩
  · have sheds := h.sheds
    cases hp : l.pad with
    | some p =>
      rw [hp] at sheds
      simp only [Layout.placePad, hp]
      simpa using sheds.setAddress p l.address
    | none =>
      rw [hp] at sheds
      simp only [Layout.placePad, hp]
      simpa using (Sheds.pad linked sheds).setAddress l.sequence.nodes.size l.address
  · rw [placePad_pad]
    exact fun m hm => h.old m (List.mem_append_right _ (by simpa using hm))

theorem Shed.step (linked : Linked s s.items.toList) (h : Shed s u l (n :: rest)) : Shed s u (l.step n) rest := by
  have valid := h.valid.step
  have old : ∀ m ∈ n :: rest, m ∈ s.items.toList := fun m hm => h.old m (List.mem_append_right _ hm)
  obtain ⟨x, hx⟩ := h.valid.linked.node?_of_mem (n := n) (by simp)
  unfold Layout.step at valid ⊢
  simp only [hx] at valid ⊢
  split
  · next padding =>
    rw [if_pos padding] at valid
    have dropped := h.dropPad linked
    refine ⟨valid, ?_, ?_⟩
    · simpa using dropped.sheds
    · simpa using old
  · next solid =>
    rw [if_neg solid] at valid
    have placed : Shed s u (if (x.item.isPayload && l.address % 2 == 1) = true then l.placePad else l) (n :: rest) := by
      split
      · exact h.placePad linked
      · exact h
    have dropped := placed.dropPad linked
    refine ⟨valid, ?_, ?_⟩
    · simpa using dropped.sheds.setAddress n _
    · simpa using fun m hm => old m (List.mem_cons_of_mem _ hm)

theorem Shed.foldl (linked : Linked s s.items.toList) (h : Shed s u l rest) : Shed s u (rest.foldl Layout.step l) [] := by
  induction rest generalizing l with
  | nil => exact h
  | cons n rest ih => exact ih (h.step linked)

end Layout

theorem Sheds.layout (linked : Linked s s.items.toList) (h : Sheds s t t.items.toList) (row : Linked t t.items.toList)
    (old : ∀ m ∈ t.items.toList, m ∈ s.items.toList) : Sheds s t.layout t.layout.items.toList := by
  have start : Layout.Shed s t { sequence := t } t.items.toList :=
    ⟨⟨by simpa using row, rfl, by simp, .refl⟩, by simpa using h, by simpa using old⟩
  have done := (start.foldl linked).dropPad linked
  have sheds := done.sheds
  rw [layout_eq]
  simp only [Layout.dropPad_pad, Option.toList_none, List.append_nil] at sheds
  exact sheds.of_eq rfl rfl

theorem mem_of_mem_claimTables (h : m ∈ t.claimTables.items.toList) : m ∈ t.items.toList := by
  rw [claimTables_eq] at h
  change m ∈ (Sequence.dropUnclaimed t.owned #[] t.items.toList t.claimed).1.toList at h
  rw [dropUnclaimed_items, List.nil_append] at h
  exact (List.mem_filter.1 h).1

theorem Sheds.relink (linked : Linked s s.items.toList) (h : Sheds s t t.items.toList) (row : Linked t t.items.toList)
    (old : ∀ m ∈ t.items.toList, m ∈ s.items.toList) : Sheds s t.relink t.relink.items.toList := by
  have claimed := h.claimTables linked row old
  have sheds := claimed.layout linked row.claimTables fun m hm => old m (mem_of_mem_claimTables hm)
  unfold Sequence.relink collectReferences
  generalize t.claimTables.layout = v at sheds ⊢
  exact sheds.of_eq rfl rfl

end Dalvik.Sequence
