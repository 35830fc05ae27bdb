import Dalvik.Proofs.Sequence.Consistent
import Dalvik.Proofs.Sequence.Removal

/-!
# Tables and their switches

`relink` makes the last switch that leads to a table its owner, and drops the tables that had an
owner and have none now. Padding is dropped only after that, and references are moved on; still
every owner is a switch that leads to its table (`Linked.led_relink`). So the rules of ownership
hold after every edit, whatever was done to the sequence before (`ownership_of_mutation`).
-/

namespace Dalvik

theorem Item.isSome_owner?_unlinked (x : Item) : x.unlinked.owner?.isSome = x.owner?.isSome := by
  cases x <;> rfl

namespace Sequence

open Relation (ReflTransGen)

variable {s t u : Sequence} {gone : Option Nat} {n m : Nat}

/-! ## Owners that lead to their tables -/

/-- The owner of a table is a switch that is not padding and whose target is the table. -/
def Led (s : Sequence) : Prop :=
  ∀ n x o, (s.handle? n).isSome → s.item? n = some x → x.owner? = some o → 0 ≤ o →
    ∃ m y, s.named? o = some m ∧ s.item? m = some (.plain y) ∧ y.isPadding = false ∧ y.opcode.is .switch = true ∧
      s.named? y.target = some n

theorem Linked.led_claimed (linked : Linked s s.items.toList) (solid : SolidSwitches s) : Led s.claimed := by
  intro k z o hk hz ho nonneg
  have reowned := reowned_claimed s
  have mem : k ∈ s.items.toList := (linked.mem_iff k).2 (by rw [← reowned.handle?]; exact hk)
  rw [item?_claimed] at hz
  obtain ⟨x, hx, rfl⟩ := Option.map_eq_some_iff.1 hz
  simp only [mem, if_true] at ho
  rcases owner?_adopt ho with ⟨-, ho⟩ | ⟨n, last, rfl⟩
  · rw [Item.owner?_setOwner] at ho
    obtain ⟨_, -, rfl⟩ := Option.map_eq_some_iff.1 ho
    cases nonneg
  · obtain ⟨memn, claims⟩ := mem_of_lastTo last
    obtain ⟨y, hy, switch, target⟩ := claims?_eq_some.1 claims
    exact ⟨n, y, by rw [reowned.named?, linked.named?_handleOf memn], reowned.item?_eq_plain_iff.2 hy, solid n y hy switch,
      switch, by rw [reowned.named?, target]⟩

theorem Adjust.led {gone : Sequence → Nat → Prop}
    (soft : ∀ s n x, gone s n → s.item? n = some (.plain x) → x.isPadding = true) (h : Adjust gone s t) (hs : Led s) :
    Led t := by
  intro k z o hk hz ho nonneg
  obtain ⟨x, live, hx, owner⟩ := h.owner? hk hz ho
  obtain ⟨m, y, hm, hy, solid, switch, target⟩ := hs k x o live hx owner nonneg
  obtain ⟨y', hm', hy', solid', op, follows⟩ := h.solid soft hm hy solid
  exact ⟨m, y', hm', hy', solid', by rw [op, switch], follows k target hk⟩

theorem led_of_adjusts {gone : Sequence → Nat → Prop}
    (soft : ∀ s n x, gone s n → s.item? n = some (.plain x) → x.isPadding = true) (h : ReflTransGen (Adjust gone) s t)
    (hs : Led s) : Led t := by
  induction h with
  | refl => exact hs
  | tail _ step ih => exact step.led soft ih

theorem owner?_of_adjusts {gone : Sequence → Nat → Prop} {z : Item} {o : Handle} (h : ReflTransGen (Adjust gone) s t)
    (hk : (t.handle? n).isSome) (hz : t.item? n = some z) (ho : z.owner? = some o) :
    ∃ x, (s.handle? n).isSome ∧ s.item? n = some x ∧ x.owner? = some o := by
  induction h generalizing z with
  | refl => exact ⟨z, hk, hz, ho⟩
  | tail _ step ih =>
    obtain ⟨x, live, hx, owner⟩ := step.owner? hk hz ho
    exact ih live hx owner

/-- Only nodes and the arena matter. -/
theorem Led.congr (h : Led s) (nodes : t.nodes = s.nodes) (arena : t.arena = s.arena) : Led t := by
  have item? : ∀ n, t.item? n = s.item? n := fun n => by simp only [Sequence.item?, node?, nodes]
  have handle? : ∀ n, t.handle? n = s.handle? n := fun n => by simp only [Sequence.handle?, node?, nodes]
  have named? : ∀ h, t.named? h = s.named? h := fun h => by simp only [Sequence.named?, arena]
  intro n x o hn hx ho nonneg
  simp only [item?, handle?, named?] at *
  exact h n x o hn hx ho nonneg

/-- `relink` is claiming followed by two runs of adjustments, which forget no switch. -/
theorem Linked.relink_adjusts (linked : Linked s s.items.toList) :
    ∃ u v, ReflTransGen (Adjust Unowned) s.claimed u ∧ s.claimTables = { u with items := s.claimTables.items } ∧
      ReflTransGen (Adjust IsPad) s.claimTables v ∧ s.relink.nodes = v.nodes ∧ s.relink.arena = v.arena := by
  obtain ⟨u, adjusts, e⟩ := claimTables_adjusts linked
  obtain ⟨v, adjusts', e'⟩ := layout_adjusts linked.claimTables
  have nodes : s.relink.nodes = v.nodes := by rw [Sequence.relink, collectReferences, e']
  have arena : s.relink.arena = v.arena := by rw [Sequence.relink, collectReferences, e']
  exact ⟨u, v, adjusts, e, adjusts', nodes, arena⟩

theorem Linked.led_relink (linked : Linked s s.items.toList) (solid : SolidSwitches s) : Led s.relink := by
  obtain ⟨u, v, adjusts, e, adjusts', nodes, arena⟩ := linked.relink_adjusts
  have claimed : Led s.claimTables := by
    rw [e]
    exact (led_of_adjusts soft_unowned adjusts (linked.led_claimed solid)).congr rfl rfl
  exact (led_of_adjusts soft_isPad adjusts' claimed).congr nodes arena

/-- A table keeps the owner that claiming gave it. -/
theorem Linked.owner?_relink (linked : Linked s s.items.toList) {z : Item} {o : Handle}
    (hn : n ∈ s.relink.items.toList) (hz : s.relink.item? n = some z) (ho : z.owner? = some o) :
    ∃ x, s.claimed.item? n = some x ∧ x.owner? = some o := by
  obtain ⟨u, v, adjusts, e, adjusts', nodes, -⟩ := linked.relink_adjusts
  have live := (linked.relink.1.mem_iff n).1 hn
  have item? : s.relink.item? n = v.item? n := by simp only [Sequence.item?, node?, nodes]
  have handle? : s.relink.handle? n = v.handle? n := by simp only [Sequence.handle?, node?, nodes]
  obtain ⟨y, live, hy, owner⟩ := owner?_of_adjusts adjusts' (handle? ▸ live) (item? ▸ hz) ho
  rw [e] at hy live
  obtain ⟨x, -, hx, owner⟩ := owner?_of_adjusts adjusts live hy owner
  exact ⟨x, hx, owner⟩

/-! ## What stays and what goes -/

theorem Linked.mem_of_mem_relink (linked : Linked s s.items.toList) (there : (s.item? n).isSome)
    (hn : n ∈ s.relink.items.toList) : n ∈ s.claimTables.items.toList := by
  have evolves := linked.claimTables.layout_evolves
  obtain ⟨k, hk⟩ := linked.relink.1.handle?_of_mem hn
  have nodes : s.relink.nodes = s.claimTables.layout.nodes := by rw [Sequence.relink, collectReferences]
  have live : s.claimTables.layout.handle? n = some k := by rw [← hk, Sequence.handle?, Sequence.handle?, node?, node?, nodes]
  have before := evolves.handles n k (linked.claimTables_evolves.persists n there) live
  rw [linked.claimTables.mem_iff, before, Option.isSome_some]

/-- A table that had an owner is kept only if a switch leads to it. -/
theorem Linked.claimed_of_mem_relink (linked : Linked s s.items.toList) (solid : SolidSwitches s) {x : Item} {o : Handle}
    (hx : s.item? n = some x) (ho : x.owner? = some o) (owned : 0 ≤ o) (hn : n ∈ s.relink.items.toList) :
    ∃ k ∈ s.relink.items.toList, Claims s.relink n k := by
  have stays := linked.mem_of_mem_relink (by rw [hx, Option.isSome_some]) hn
  have mem := mem_of_mem_claimTables stays
  -- It is a table still, so claiming has given it an owner, or it would have gone.
  obtain ⟨z, hz, same⟩ := linked.relink_evolves.kept n x hx
  have table : z.owner?.isSome = true := by
    rw [← Item.isSome_owner?_unlinked, same, Item.isSome_owner?_unlinked, ho, Option.isSome_some]
  obtain ⟨o', ho'⟩ := Option.isSome_iff_exists.1 table
  obtain ⟨y, hy, owner⟩ := linked.owner?_relink hn hz ho'
  have positive : 0 ≤ o' := by
    have had : n ∈ s.owned := by
      obtain ⟨w, hw, rfl⟩ := item?_eq_some.1 hx
      refine mem_owned.2 ⟨mem, ?_⟩
      rw [hw, Option.bind_some, ho, Option.any_some, decide_eq_true owned]
    rw [claimTables_eq] at stays
    change n ∈ (Sequence.dropUnclaimed s.owned #[] s.items.toList s.claimed).1.toList at stays
    rw [dropUnclaimed_items, List.nil_append] at stays
    have kept := (List.mem_filter.1 stays).2
    obtain ⟨w, hw, rfl⟩ := item?_eq_some.1 hy
    rw [hw, Option.bind_some, owner, Option.getD_some, List.contains_iff_mem.2 had, Bool.and_true, Bool.not_eq_true',
      decide_eq_false_iff_not] at kept
    exact Int.not_lt.1 kept
  obtain ⟨k, i, hk, hi, -, switch, target⟩ :=
    linked.led_relink solid n z o' ((linked.relink.1.mem_iff n).1 hn) hz ho' positive
  exact ⟨k, linked.relink.1.mem_of_named? hk, i, hi, switch, target⟩

/-- An item that is dropped, and is not padding, is a table that had an owner and to which no switch leads. -/
theorem Linked.owner?_of_dropped (linked : Linked s s.items.toList) {x : Item} (hx : s.item? n = some x)
    (solid : x.isPadding = false) (hn : n ∈ s.items.toList) (gone : n ∉ s.relink.items.toList) :
    ∃ o, x.owner? = some o ∧ 0 ≤ o ∧ ∀ k ∈ s.items.toList, s.claims? k ≠ some n := by
  by_cases claimed : n ∈ s.claimTables.items.toList
  · obtain ⟨y, hy, padding⟩ := linked.claimTables_evolves.isPad (by rw [hx]; rfl)
      (linked.claimTables.isPad_of_dropped claimed gone)
    rw [hx] at hy
    cases hy
    rw [solid] at padding
    cases padding
  · obtain ⟨owned, unclaimed⟩ := lastTo_of_dropped hn claimed
    obtain ⟨y, hy, rfl⟩ := item?_eq_some.1 hx
    have positive := (mem_owned.1 owned).2
    rw [hy, Option.bind_some, Option.any_eq_true] at positive
    obtain ⟨o, ho, positive⟩ := positive
    exact ⟨o, ho, of_decide_eq_true positive, unclaimed⟩

/-- An item that is neither padding nor a table with an owner is kept. -/
theorem Linked.mem_relink_of_unowned (linked : Linked s s.items.toList) {x : Item} (hx : s.item? n = some x)
    (solid : x.isPadding = false) (unowned : ∀ o, x.owner? = some o → o < 0) (hn : n ∈ s.items.toList) :
    n ∈ s.relink.items.toList := by
  by_contra gone
  obtain ⟨o, ho, nonneg, -⟩ := linked.owner?_of_dropped hx solid hn gone
  exact absurd (unowned o ho) (Int.not_lt.2 nonneg)

/-! ## Edits up to their relayout -/

/-- `u` is what an edit that removes at most `gone` has made of `s` before it is laid out: the other items are there,
and tables have the owners they had. -/
structure Poised (s : Sequence) (gone : Option Nat) (u : Sequence) : Prop where
  sound : Sound (fun x => x.Shaped ∧ x.Sealed) u
  owner? : ∀ n x o, s.item? n = some x → x.owner? = some o → ∃ y, u.item? n = some y ∧ y.owner? = some o
  stays : ∀ n ∈ s.items.toList, gone ≠ some n → n ∈ u.items.toList

/-- One successful mutation, and the item that it removes itself. A table that is converted is replaced; otherwise, a
node is replaced only by one that is not in the sequence (`detached`). -/
inductive Mutation : Sequence → Option Nat → Sequence → Prop where
  | insert {s t : Sequence} {n : Nat} {i : Int} {h : Handle} (known : (s.node? n).isSome)
      (run : s.insert i n = .ok (h, t)) : Mutation s none t
  | insertItem {s t : Sequence} {x : Item} {i : Int} {h : Handle} (made : x.Made)
      (run : (insertItem i x).Gives s h t) : Mutation s none t
  | push {s t : Sequence} {x : Item} {h : Handle} (made : x.Made) (run : (push x).Gives s h t) : Mutation s none t
  | removeAt {s t : Sequence} {n : Nat} {i : Int} (run : s.removeAt i = .ok (n, t)) : Mutation s (some n) t
  | remove {s t : Sequence} {n : Nat} (run : s.remove n = .ok (true, t)) : Mutation s (some n) t
  | replace {s t : Sequence} {old new : Nat} (known : (s.node? new).isSome) (detached : s.handle? new = none)
      (run : s.replace old new = .ok t) : Mutation s (some old) t
  | setTarget {s t : Sequence} {n : Nat} {h : Handle} (run : s.setTarget n h = .ok t) : Mutation s none t
  | toSparse {s t : Sequence} {n : Nat} (run : (toSparse n).Gives s ⟨⟩ t) : Mutation s (some n) t
  | toPacked {s t : Sequence} {n : Nat} (run : (toPacked n).Gives s ⟨⟩ t) : Mutation s (some n) t
  | closeBracket {s t : Sequence} (run : s.closeBracket = .ok t) : Mutation s none t

theorem changed_of_flat (flat : u.changed.depth = 0) : u.changed = u.relink := by
  unfold changed at flat ⊢
  split
  · rfl
  · next deep =>
    rw [if_neg deep] at flat
    exact absurd flat deep

namespace Poised

theorem refl (sound : Sound (fun x => x.Shaped ∧ x.Sealed) s) : Poised s none s :=
  ⟨sound, fun _ x _ hx ho => ⟨x, hx, ho⟩, fun _ hn _ => hn⟩

theorem trans {gone' : Option Nat} (hst : Poised s none t) (htu : Poised t gone' u) : Poised s gone' u where
  sound := htu.sound
  owner? n x o hx ho := by
    obtain ⟨y, hy, ho⟩ := hst.owner? n x o hx ho
    exact htu.owner? n y o hy ho
  stays n hn other := htu.stays n (hst.stays n hn nofun) other

theorem before (hst : Poised s gone t) (htu : Poised t none u) : Poised s gone u where
  sound := htu.sound
  owner? n x o hx ho := by
    obtain ⟨y, hy, ho⟩ := hst.owner? n x o hx ho
    exact htu.owner? n y o hy ho
  stays n hn other := htu.stays n (hst.stays n hn other) nofun

theorem congr (h : Poised s gone t) (nodes : u.nodes = t.nodes) (items : u.items = t.items) (arena : u.arena = t.arena) :
    Poised s gone u where
  sound := h.sound.congr nodes items arena
  owner? n x o hx ho := by
    obtain ⟨y, hy, ho⟩ := h.owner? n x o hx ho
    exact ⟨y, by simp only [item?, node?, nodes] at hy ⊢; exact hy, ho⟩
  stays := by
    rw [items]
    exact h.stays

theorem create (sound : Sound (fun x => x.Shaped ∧ x.Sealed) s) {x : Item} (hx : x.Shaped ∧ x.Sealed) :
    Poised s none (s.create x).2 where
  sound := sound.create hx
  owner? n y o hy ho := by
    refine ⟨y, ?_, ho⟩
    rw [item?_create, if_neg, hy]
    rintro rfl
    rw [item?, node?_size] at hy
    cases hy
  stays _ hn _ := hn

/-- An item that is not a table is changed, or a table keeps its owner. -/
theorem modifyItem (sound : Sound (fun x => x.Shaped ∧ x.Sealed) s) {x y : Item} (hx : s.item? n = some x)
    (hy : y.Shaped ∧ y.Sealed) (owner : y.owner? = x.owner?) : Poised s none (s.modifyItem n fun _ => y) where
  sound := sound.modifyItem fun _ _ => hy
  owner? m z o hz ho := by
    rw [item?_modifyItem]
    split
    · next e =>
      subst e
      rw [hx] at hz
      cases hz
      exact ⟨y, by rw [hx, Option.map_some], owner.trans ho⟩
    · exact ⟨z, hz, ho⟩
  stays _ hn _ := hn

theorem place (sound : Sound (fun x => x.Shaped ∧ x.Sealed) s) {x : Node} (hx : s.node? n = some x)
    (detached : s.handle? n = none) {i : Nat} (hi : i ≤ s.items.size) :
    Poised s none { s.register n with items := (s.register n).items.insertIdxIfInBounds i n } where
  sound := sound.placed hx detached hi
  owner? m y o hy ho := by
    refine ⟨y, ?_, ho⟩
    change (s.register n).item? m = _
    rw [item?_register, hy]
  stays m hm _ := by
    rw [items_register, Array.insertIdxIfInBounds, dif_pos hi, Array.toList_insertIdx]
    exact ((List.perm_insertIdx n s.items.toList (by simpa using hi)).mem_iff).2 (List.mem_cons_of_mem n hm)

theorem cut (sound : Sound (fun x => x.Shaped ∧ x.Sealed) s) {as bs : List Nat}
    (split : s.items.toList = as ++ n :: bs) : Poised s (some n) (s.cut as n bs) where
  sound :=
    have stable := Item.stable_sealed
    ⟨sound.linked.cut split, (sound.linked.cut_evolves split).holds stable.padding stable.relinked sound.holds⟩
  owner? m x o hx ho := by
    obtain ⟨w, hw, rfl⟩ := item?_eq_some.1 hx
    have owner : ((s.cut as n bs).node? m).bind (fun x => x.item.owner?) = (s.node? m).bind fun x => x.item.owner? :=
      ownerOf_forget _
    rw [hw, Option.bind_some, ho, Option.bind_eq_some_iff] at owner
    obtain ⟨z, hz, owner⟩ := owner
    exact ⟨z.item, item?_of_node? hz, owner⟩
  stays m hm other := by
    rw [split, mem_middle] at hm
    exact hm.resolve_left fun e => other (e ▸ rfl)

theorem replaced (sound : Sound (fun x => x.Shaped ∧ x.Sealed) s) {old new i h : Nat} {x : Node}
    (hx : s.node? new = some x) (detached : s.handle? new = none) (hh : s.handle? old = some h)
    (hi : s.items.toList[i]? = some old) : Poised s (some old) (s.replaced old new i h) where
  sound := sound.replaced hx detached hh hi
  owner? m y o hy ho := ⟨y, by rw [item?_replaced, hy], ho⟩
  stays m hm other := by
    change m ∈ (s.items.setIfInBounds i new).toList
    rw [Array.toList_setIfInBounds]
    obtain ⟨j, hj⟩ := List.mem_iff_getElem?.1 hm
    have ne : i ≠ j := by
      rintro rfl
      rw [hi] at hj
      exact other hj
    exact List.mem_iff_getElem?.2 ⟨j, by rw [List.getElem?_set_ne ne, hj]⟩

theorem setSwitch (sound : Sound (fun x => x.Shaped ∧ x.Sealed) t) {h : Handle} {op : Opcode}
    (e : (setSwitch h op).Gives s ⟨⟩ t) : Poised s none t := by
  rcases gives_setSwitch e with rfl | ⟨n, x, y, -, hx, -, rfl⟩
  · exact .refl sound
  · refine ⟨sound, fun m z o hz ho => ⟨z, ?_, ho⟩, fun _ hm _ => hm⟩
    rw [item?_modifyItem, if_neg, hz]
    rintro rfl
    rw [hx] at hz
    cases hz
    cases ho

end Poised

theorem flat_of_swapTable {old : Nat} {table : Item} {op : Opcode} (e : (swapTable old table op).Gives s ⟨⟩ t)
    (flat : t.depth = 0) : s.depth = 0 := by
  obtain ⟨i, h, u, -, -, hu, close⟩ := gives_swapTable e
  obtain ⟨-, rfl⟩ := closeBracket_eq_ok close
  have depth : u.depth = s.depth + 1 := by
    rcases gives_setSwitch hu with rfl | ⟨n, x, y, -, -, -, rfl⟩
    · rfl
    · rfl
  by_contra deep
  have inside : ¬ ({ u with depth := u.depth - 1 } : Sequence).depth = 0 := by
    change ¬ u.depth - 1 = 0
    omega
  rw [changed, if_neg inside] at flat
  exact inside flat

theorem Poised.swapTable (sound : Sound (fun x => x.Shaped ∧ x.Sealed) s) {old : Nat} {table : Item} {op : Opcode}
    (hp : table.Shaped ∧ table.Sealed) (payload : table.isPayload = true)
    (opens : Open (fun x => x.isPadding = false) s (table.owner?.getD .none)) (mem : op ∈ Opcode.all)
    (switch : op.is .switch = true) (e : (swapTable old table op).Gives s ⟨⟩ t) (flat : t.depth = 0) :
    ∃ u, Poised s (some old) u ∧ t = u.relink := by
  obtain ⟨i, h, u, hh, hi, hu, close⟩ := gives_swapTable e
  obtain ⟨-, rfl⟩ := closeBracket_eq_ok close
  obtain ⟨switched, -⟩ := sound.swapped Item.stable_sealed hp payload opens mem switch hh hi hu
  obtain ⟨hx, detached⟩ := node?_swapping s table
  have live : (s.create table).2.openBracket.handle? old = some h := by
    change (s.create table).2.handle? old = _
    rw [handle?_create, hh]
  have opened : Poised s none (s.create table).2.openBracket := (Poised.create sound hp).congr rfl rfl rfl
  have swapped : Poised s (some old) (s.swapped old i h table) :=
    opened.trans (.replaced opened.sound hx detached live hi)
  have poised : Poised s (some old) u := swapped.before (.setSwitch switched hu)
  exact ⟨{ u with depth := u.depth - 1 }, poised.congr rfl rfl rfl, changed_of_flat flat⟩

theorem node_of_removeAt {i k : Nat} (hi : s.indexOf? n = some i) (e : s.removeAt i = .ok (k, t)) : k = n := by
  unfold removeAt at e
  obtain ⟨j, hj, e⟩ := Action.except_bind_eq_ok.1 e
  cases e
  obtain ⟨-, found⟩ := nodeAt_eq_ok hj
  unfold indexOf? at hi
  obtain ⟨lt, same, -⟩ := Array.findIdx?_eq_some_iff_getElem.1 hi
  rw [Int.toNat_natCast, Array.getElem?_toList, Array.getElem?_eq_getElem lt, Option.some.injEq] at found
  rw [← found]
  exact eq_of_beq same

/-- A mutation that ends outside a bracket ends with `relink`. -/
theorem Mutation.poised (sound : Sound (fun x => x.Shaped ∧ x.Sealed) s) (owned : s.depth = 0 → Owned s)
    (mutation : Mutation s gone t) (flat : t.depth = 0) : ∃ u, Poised s gone u ∧ t = u.relink := by
  have stable := Item.stable_sealed
  have loose : Loose (fun x => x.isPadding = false) fun x => x.Shaped ∧ x.Sealed := .inr ⟨upright_sealed, fun _ solid => solid⟩
  cases mutation with
  | insert known run =>
    obtain ⟨x, hx⟩ := Option.isSome_iff_exists.1 known
    obtain ⟨detached, low, high, rfl⟩ := insert_eq_ok run
    exact ⟨_, .place sound hx detached (by omega), changed_of_flat flat⟩
  | @insertItem _ x _ _ made run =>
    obtain ⟨low, high, rfl⟩ := gives_insertItem run
    have created := Poised.create sound (stable.made made)
    refine ⟨_, created.trans (.place created.sound (node?_create_self s x) (handle?_create_self s x) ?_), changed_of_flat flat⟩
    rw [items_create]
    omega
  | @push _ x _ made run =>
    unfold Sequence.push append at run
    rw [Action.gives_modifyGet] at run
    cases run
    have created := Poised.create sound (stable.made made)
    exact ⟨_, created.trans (.place created.sound (node?_create_self s x) (handle?_create_self s x) le_rfl),
      changed_of_flat flat⟩
  | removeAt run =>
    obtain ⟨as, bs, split, rfl⟩ := removeAt_eq_ok run
    exact ⟨_, .cut sound split, changed_of_flat flat⟩
  | @remove _ n run =>
    unfold Sequence.remove at run
    split at run
    · next i hi =>
      obtain ⟨⟨k, u⟩, removed, run⟩ := Action.except_bind_eq_ok.1 run
      cases run
      obtain rfl : k = n := node_of_removeAt hi removed
      obtain ⟨as, bs, split, rfl⟩ := removeAt_eq_ok removed
      exact ⟨_, .cut sound split, changed_of_flat flat⟩
    · cases run
  | replace known detached run =>
    obtain ⟨x, hx⟩ := Option.isSome_iff_exists.1 known
    obtain ⟨i, h, hh, hi, rfl⟩ := replace_eq_ok run
    exact ⟨_, .replaced sound hx detached hh hi, changed_of_flat flat⟩
  | @setTarget _ n h run =>
    obtain ⟨x, hx, -, -, rfl⟩ := setTarget_eq_ok run
    have turned : (Item.plain { x with target := h }).Shaped ∧ (Item.plain { x with target := h }).Sealed :=
      stable.relinked (x := .plain x) rfl (sound.holds _ _ hx)
    exact ⟨s.modifyItem n fun _ => .plain { x with target := h }, .modifyItem sound hx turned rfl, changed_of_flat flat⟩
  | @toSparse _ n run =>
    have live := live_of_toSparse run
    obtain ⟨p, op, hp, hop, run⟩ := gives_toSparse run
    have outside := flat_of_swapTable run flat
    exact Poised.swapTable sound (stable.toSparse (sound.holds n _ hp)) rfl
      (loose.convertible (fun _ => owned outside) live _ _ hp rfl) (Opcode.mem_all_of_ofName? hop)
      (Opcode.is_switch_of_sparse op hop) run flat
  | @toPacked _ n run =>
    have live := live_of_toPacked run
    obtain ⟨table, p, sorted, op, ht, converted, hop, run⟩ := gives_toPacked run
    have outside := flat_of_swapTable run flat
    rw [depth_modifyItem] at outside
    obtain ⟨hp, hsorted⟩ := stable.toPacked converted (sound.holds n _ ht)
    obtain ⟨-, owner, rearranged⟩ := SparseTable.gives_toPacked converted
    have modified := Poised.modifyItem sound ht hsorted (congrArg some rearranged.owner)
    have opened : Open (fun x => x.isPadding = false) s p.owner := by
      rw [owner]
      exact loose.convertible (fun _ => owned outside) live _ _ ht rfl
    obtain ⟨u, poised, e⟩ := Poised.swapTable modified.sound hp rfl (opened.modifyItem n rfl) (Opcode.mem_all_of_ofName? hop)
      (Opcode.is_switch_of_packed op hop) run flat
    exact ⟨u, modified.trans poised, e⟩
  | closeBracket run =>
    obtain ⟨-, rfl⟩ := closeBracket_eq_ok run
    exact ⟨{ s with depth := s.depth - 1 }, (Poised.refl sound).congr rfl rfl rfl, changed_of_flat flat⟩

/-! ## Ownership -/

/-- The rules of ownership for `t`, which a mutation made of `s` by removing at most `gone`. -/
structure Ownership (s : Sequence) (gone : Option Nat) (t : Sequence) : Prop where
  /-- The owner of a table is a switch that leads to it. -/
  owned : ∀ n ∈ t.items.toList, ∀ x o, t.item? n = some x → x.owner? = some o → 0 ≤ o →
    ∃ k ∈ t.items.toList, t.named? o = some k ∧ Claims t n k
  /-- A table that had an owner and to which no switch leads any more is dropped. -/
  dropped : ∀ n x o, s.item? n = some x → x.owner? = some o → 0 ≤ o → (∀ k ∈ t.items.toList, ¬ Claims t n k) →
    n ∉ t.items.toList
  /-- A table that had no owner is dropped only if it is removed itself. -/
  stays : ∀ n ∈ s.items.toList, ∀ x o, s.item? n = some x → x.owner? = some o → o < 0 → gone ≠ some n →
    n ∈ t.items.toList

theorem Poised.ownership (poised : Poised s gone u) : Ownership s gone u.relink := by
  have linked := poised.sound.linked
  have solid := poised.sound.solidSwitches upright_sealed
  refine ⟨fun n hn x o hx ho nonneg => ?_, fun n x o hx ho nonneg unclaimed hn => ?_, fun n hn x o hx ho negative other => ?_⟩
  · obtain ⟨k, i, hk, hi, -, switch, target⟩ := linked.led_relink solid n x o ((linked.relink.1.mem_iff n).1 hn) hx ho nonneg
    exact ⟨k, linked.relink.1.mem_of_named? hk, hk, i, hi, switch, target⟩
  · obtain ⟨y, hy, owner⟩ := poised.owner? n x o hx ho
    obtain ⟨k, hk, claims⟩ := linked.claimed_of_mem_relink solid hy owner nonneg hn
    exact unclaimed k hk claims
  · obtain ⟨y, hy, owner⟩ := poised.owner? n x o hx ho
    refine linked.mem_relink_of_unowned hy ?_ (fun o' ho' => ?_) (poised.stays n hn other)
    · cases y with
      | plain i => cases owner
      | _ => rfl
    · rw [owner] at ho'
      cases ho'
      exact negative

/-- After a mutation of a `Worked` sequence that ends outside a bracket: the owner of every table is a switch that
leads to it, a table that has lost its switches is dropped, and a table that never had one is kept unless it was
removed itself. -/
theorem ownership_of_mutation (worked : Worked s) (mutation : Mutation s gone t) (flat : t.depth = 0) :
    Ownership s gone t := by
  obtain ⟨sound, owned⟩ := worked.keeps
  obtain ⟨u, poised, rfl⟩ := mutation.poised sound owned flat
  exact poised.ownership

/-- A switch, the instruction that its only case leads to, and its table. -/
def switchCode : Cursor := .ofBytes [0x2b, 0, 4, 0, 0, 0, 0x0e, 0, 0, 1, 1, 0, 0, 0, 0, 0, 3, 0, 0, 0]

def switched : Sequence := ((decode switchCode).apply { size := some (.int 10) }).2

theorem worked_switched : Worked switched :=
  .decode (.new _ _) (Action.gives_of_toOption (a := { switchCode with pos := 20 }) (by decide +kernel))

/-- The table is dropped when the switch is removed. -/
theorem ownership_of_removed_switch : ∃ t, Worked switched ∧ Mutation switched (some 0) t ∧ t.depth = 0 ∧
    Ownership switched (some 0) t ∧ 2 ∈ switched.items.toList ∧ 2 ∉ t.items.toList := by
  have removal : (switched.removeAt 0).toOption.map (fun r => (r.1, r.2.items.toList, r.2.depth, r.2.claims? 1)) =
      some (0, [1], 0, none) := by decide +kernel
  have table : (switched.item? 2).bind Item.owner? = some 0 := by decide +kernel
  obtain ⟨x, hx, owner⟩ := Option.bind_eq_some_iff.1 table
  cases run : switched.removeAt 0 with
  | error e =>
    rw [run] at removal
    cases removal
  | ok r =>
    obtain ⟨n, t⟩ := r
    rw [run] at removal
    simp only [Except.toOption, Option.map_some, Option.some.injEq, Prod.mk.injEq] at removal
    obtain ⟨rfl, items, flat, unclaimed⟩ := removal
    have mutation : Mutation switched (some 0) t := .removeAt run
    have ownership := ownership_of_mutation worked_switched mutation flat
    refine ⟨t, worked_switched, mutation, flat, ownership, by decide +kernel, ?_⟩
    refine ownership.dropped 2 x 0 hx owner (Int.le_refl 0) fun k hk claims => ?_
    rw [items, List.mem_singleton] at hk
    subst hk
    rw [← claims?_eq_some, unclaimed] at claims
    cases claims

end Sequence

end Dalvik
