import Dalvik.Proofs.Payload.Conversion
import Dalvik.Proofs.Sequence.Lasting
import Dalvik.Proofs.Sequence.Readdressing

/-!
# Converting a table in its sequence

`toSparse` and `toPacked` replace a switch table by a new node, which takes over its handle, and
give the switch that owns it the other opcode; nothing else changes (`Exchanged`). Outside a bracket
the sequence is then laid out again. Both kinds of tables take up an even number of code units, so
in a sequence that was laid out this only moves addresses (`Fits.relink`).
-/

namespace Dalvik

/-! ## Switches -/

theorem Opcode.switch_formats : ∀ o ∈ Opcode.all, o.is .switch = true → o.format = .f31t ∧ o.isPayload = false := by
  decide +kernel

theorem Opcode.exists_switches : (Opcode.ofName? (ascii "sparse-switch")).isSome = true ∧
    (Opcode.ofName? (ascii "packed-switch")).isSome = true := by
  decide +kernel

namespace Instruction

/-- The instruction with another opcode of its format, and otherwise the same units. -/
def retagged (x : Instruction) (op : Opcode) : Instruction :=
  { x with opcode := op, units := x.units.modifyHead fun u => u &&& 0xff00 ||| UInt16.ofNat op.value }

/-- `setOpcode` turns one switch instruction into the other, and keeps the rest of its units. -/
theorem setOpcode_switch {x : Instruction} {op : Opcode} (hx : x.Shaped) (switch : x.opcode.is .switch = true)
    (mem : op ∈ Opcode.all) (other : op.is .switch = true) : x.setOpcode op = .ok (x.retagged op) := by
  have before := (Opcode.switch_formats x.opcode (List.mem_append_left _ hx.mem) switch).1
  obtain ⟨after, payload⟩ := Opcode.switch_formats op mem other
  refine setOpcode_eq_ok_iff.2 (gives_changeOpcode.2 ⟨payload, .inl ⟨after.trans before.symm, ?_⟩⟩)
  have length := hx.length
  have pos := Opcode.units_pos_of_mem _ hx.mem
  cases units : x.units with
  | nil =>
    rw [units, List.length_nil] at length
    omega
  | cons u rest => exact ⟨u, rest, rfl, by rw [retagged, units, List.modifyHead_cons]⟩

theorem length_retagged (x : Instruction) (op : Opcode) : (x.retagged op).units.length = x.units.length :=
  List.length_modifyHead

end Instruction

/-- A switch table is a payload of an even number of code units. -/
theorem Item.extent_table {x : Item} (table : x.owner?.isSome = true) :
    x.isPayload = true ∧ x.isPadding = false ∧ x.extent % 2 = 0 := by
  cases x with
  | plain i => cases table
  | array a => cases table
  | packed p =>
    refine ⟨rfl, rfl, ?_⟩
    simp only [extent, isPadding, Bool.false_eq_true, if_false, codeUnits, byteCount, PackedTable.byteCount]
    omega
  | sparse t =>
    refine ⟨rfl, rfl, ?_⟩
    simp only [extent, isPadding, Bool.false_eq_true, if_false, codeUnits, byteCount, SparseTable.byteCount]
    omega

namespace Sequence

variable {free : Instruction → Prop} {s t u v : Sequence} {n m w k i : Nat} {x y : Item} {j : Instruction} {xs : List Nat}

/-! ## Exchanging a node -/

/-- `new` where `k` is `old`, and `k` otherwise. -/
def renumber (old new k : Nat) : Nat := if k = old then new else k

theorem renumber_self (old new : Nat) : renumber old new old = new := if_pos rfl

theorem renumber_of_ne {old new : Nat} (ne : k ≠ old) : renumber old new k = k := if_neg ne

theorem renumber_inj {old new a b : Nat} (ha : a < new) (hb : b < new) (e : renumber old new a = renumber old new b) : a = b := by
  unfold renumber at e
  split at e <;> split at e <;> omega

/-- Node `n` is replaced by a new node with the item `x`, under the same handle; instruction `w` is now `j`; all other
items, and what each handle names, are as before. -/
structure Exchanged (s : Sequence) (n : Nat) (x : Item) (w : Nat) (j : Instruction) (t : Sequence) : Prop where
  items : t.items.toList = s.items.toList.map (renumber n s.nodes.size)
  named? : ∀ h, t.named? h = (s.named? h).map (renumber n s.nodes.size)
  handle? : ∀ k < s.nodes.size, t.handle? (renumber n s.nodes.size k) = s.handle? k
  table : t.item? s.nodes.size = some x
  switch : t.item? w = some (.plain j)
  others : ∀ k < s.nodes.size, k ≠ n → k ≠ w → t.item? k = s.item? k
  moves : t.moves = s.moves
  size : t.size = s.size
  pool : t.pool = s.pool

namespace Exchanged

variable (h : Exchanged s n x w j t)
include h

theorem readdressed (same : Readdressed t u) : Exchanged s n x w j u where
  items := by rw [same.eq]; exact h.items
  named? k := by rw [same.eq]; exact h.named? k
  handle? k hk := by rw [same.handle?]; exact h.handle? k hk
  table := by rw [same.item?]; exact h.table
  switch := by rw [same.item?]; exact h.switch
  others k hk ne ne' := by rw [same.item?]; exact h.others k hk ne ne'
  moves := by rw [same.eq]; exact h.moves
  size := by rw [same.eq]; exact h.size
  pool := by rw [same.eq]; exact h.pool

theorem withDepth (d : Nat) : Exchanged s n x w j { t with depth := d } :=
  ⟨h.items, h.named?, h.handle?, h.table, h.switch, h.others, h.moves, h.size, h.pool⟩

theorem collectReferences : Exchanged s n x w j t.collectReferences :=
  ⟨h.items, h.named?, h.handle?, h.table, h.switch, h.others, h.moves, h.size, h.pool⟩

omit h in
theorem of_modifyItem {f : Item → Item} (h : Exchanged (s.modifyItem n f) n x w j t) : Exchanged s n x w j t := by
  have size : (s.modifyItem n f).nodes.size = s.nodes.size := Array.size_modify
  obtain ⟨items, named?, handle?, table, switch, others, moves, stored, pool⟩ := h
  rw [size] at items named? handle? table others
  refine ⟨items, named?, fun k hk => ?_, table, switch, fun k hk ne ne' => ?_, moves, stored, pool⟩
  · rw [handle? k hk, handle?_modifyItem]
  · rw [others k hk ne ne', item?_modifyItem, if_neg (Ne.symm ne)]

end Exchanged

/-! ## Owners after the exchange -/

theorem Linked.lt_size (linked : Linked s s.items.toList) (hk : k ∈ s.items.toList) : k < s.nodes.size := by
  obtain ⟨y, hy⟩ := linked.node?_of_mem hk
  exact lt_size_of_node? hy

theorem claims?_table (hx : s.item? n = some x) (table : x.owner?.isSome = true) : s.claims? n = none := by
  unfold claims?
  cases x with
  | plain i => cases table
  | packed p => rw [hx]
  | sparse t => rw [hx]
  | array a => cases table

section Owners

variable {i : Instruction} (h : Exchanged s n x w j t) (linked : Linked s s.items.toList)
  (old : s.item? n = some y) (wasTable : y.owner?.isSome = true) (owner : x.owner? = y.owner?)
  (before : s.item? w = some (.plain i)) (target : j.target = i.target)

include h linked old wasTable owner before target

/-- The switches claim the tables they claimed before. -/
theorem Exchanged.claims? (same : j.opcode.is .switch = i.opcode.is .switch) (hk : k ∈ s.items.toList) :
    t.claims? (renumber n s.nodes.size k) = (s.claims? k).map (renumber n s.nodes.size) := by
  by_cases table : k = n
  · subst table
    rw [renumber_self, claims?_table old wasTable, claims?_table h.table (by rw [owner, wasTable])]
    rfl
  · rw [renumber_of_ne table]
    by_cases switch : k = w
    · subst switch
      simp only [Sequence.claims?, h.switch, before, same, target, h.named?]
      split <;> rfl
    · simp only [Sequence.claims?, h.others k (linked.lt_size hk) table switch, h.named?]
      split
      · split <;> rfl
      · rfl

/-- If tables were owned by the switches that claim them, they are now. -/
theorem Exchanged.claimed (same : j.opcode.is .switch = i.opcode.is .switch) (claimed : Claimed s) : Claimed t := by
  intro m' hm' z o hz ho
  rw [h.items, List.mem_map] at hm'
  obtain ⟨m, hm, rfl⟩ := hm'
  have last : lastTo t.claims? (renumber n s.nodes.size m) t.items.toList =
      (lastTo s.claims? m s.items.toList).map (renumber n s.nodes.size) := by
    rw [h.items]
    refine lastTo_map fun k hk => ?_
    rw [h.claims? linked old wasTable owner before target same hk, Option.map_eq_some_iff]
    constructor
    · rintro ⟨a, ha, e⟩
      rwa [renumber_inj (linked.lt_size (linked.mem_of_claims? ha)) (linked.lt_size hm) e] at ha
    · exact fun e => ⟨m, e, rfl⟩
  have handle : ∀ k ∈ s.items.toList, t.handleOf (renumber n s.nodes.size k) = s.handleOf k := fun k hk => by
    rw [handleOf_eq, handleOf_eq, h.handle? k (linked.lt_size hk)]
  have recorded : ∃ z', s.item? m = some z' ∧ z'.owner? = some o := by
    by_cases table : m = n
    · subst table
      rw [renumber_self, h.table] at hz
      cases hz
      exact ⟨y, old, by rw [← owner, ho]⟩
    · rw [renumber_of_ne table] at hz
      by_cases switch : m = w
      · subst switch
        rw [h.switch] at hz
        cases hz
        cases ho
      · exact ⟨z, by rw [← h.others m (linked.lt_size hm) table switch, hz], ho⟩
  obtain ⟨z', hz', ho'⟩ := recorded
  rw [last, claimed m hm z' o hz' ho']
  cases found : lastTo s.claims? m s.items.toList with
  | none => rfl
  | some k => exact (handle k (mem_of_lastTo found).1).symm

omit target in
/-- If padding fitted before, it fits now, since the size has changed by an even number of code units. -/
theorem Exchanged.fits (padding : j.isPadding = i.isPadding) (length : j.units.length = i.units.length)
    (fits : Fits s 0 s.items.toList) : Fits t 0 t.items.toList := by
  rw [h.items]
  refine fits.map (fun k hk z hz => ?_) rfl
  by_cases table : k = n
  · subst table
    rw [old] at hz
    cases hz
    obtain ⟨payload, solid, even⟩ := Item.extent_table wasTable
    obtain ⟨payload', solid', even'⟩ := Item.extent_table (x := x) (by rw [owner, wasTable])
    exact ⟨x, by rw [renumber_self, h.table], by rw [payload, payload'], by rw [solid, solid'], by rw [even, even']⟩
  · rw [renumber_of_ne table]
    by_cases switch : k = w
    · subst switch
      rw [before] at hz
      cases hz
      have extent : (Item.plain j).extent = (Item.plain i).extent := by
        change (if j.isPadding then 1 else j.units.length) = if i.isPadding then 1 else i.units.length
        rw [padding, length]
      exact ⟨_, h.switch, rfl, padding, by rw [extent]⟩
    · exact ⟨z, by rw [h.others k (linked.lt_size hk) table switch, hz], rfl, rfl, rfl⟩

end Owners

/-- If padding fits and tables are owned by the switches that claim them, `relink` only moves addresses. -/
theorem Fits.relink (fits : Fits s 0 s.items.toList) (linked : Linked s s.items.toList) (claimed : Claimed s) :
    ∃ t, Readdressed s t ∧ s.relink = t.collectReferences :=
  ⟨s.layout, fits.layout, by rw [Sequence.relink, claimed.kept.claimTables, claimed.claimed linked]⟩

/-! ## Swapping a table -/

section Swapped

variable (linked : Linked s s.items.toList) (hk : s.handle? n = some k) (hi : s.items.toList[i]? = some n)
include linked hk

theorem Linked.swapped (hi : s.items.toList[i]? = some n) (x : Item) :
    Linked (s.swapped n i k x) (s.swapped n i k x).items.toList := by
  obtain ⟨hx, detached⟩ := node?_swapping s x
  have live : (s.create x).2.openBracket.handle? n = some k := by
    change (s.create x).2.handle? n = _
    rw [handle?_create, hk]
  have opened : Linked (s.create x).2.openBracket (s.create x).2.openBracket.items.toList :=
    (linked.create x).congr (fun _ => rfl) rfl
  exact opened.replaced hx detached live hi

omit hk in
theorem items_swapped (hi : s.items.toList[i]? = some n) (x : Item) :
    (s.swapped n i k x).items.toList = s.items.toList.map (renumber n s.nodes.size) := by
  have list : (s.swapped n i k x).items.toList = s.items.toList.set i s.nodes.size := Array.toList_setIfInBounds
  rw [list]
  refine List.ext_getElem? fun p => ?_
  rw [List.getElem?_set, List.getElem?_map]
  split
  · next e =>
    subst e
    rw [if_pos (List.getElem?_eq_some_iff.1 hi).1, hi, Option.map_some, renumber_self]
  · next ne =>
    cases hp : s.items.toList[p]? with
    | none => rfl
    | some m =>
      have other : m ≠ n := by
        rintro rfl
        exact ne ((List.getElem?_inj (List.getElem?_eq_some_iff.1 hi).1 linked.nodup).1 (hi.trans hp.symm))
      rw [Option.map_some, renumber_of_ne other]

theorem named?_swapped (x : Item) (h : Handle) :
    (s.swapped n i k x).named? h = (s.named? h).map (renumber n s.nodes.size) := by
  have arena : (s.swapped n i k x).arena = s.arena.setIfInBounds k (some s.nodes.size) := rfl
  have slot := (linked.arena_iff n k).1 hk
  unfold named?
  rw [arena]
  split
  · rfl
  · rw [Array.getElem?_setIfInBounds]
    split
    · next e =>
      subst e
      rw [if_pos (Array.getElem?_eq_some_iff.1 slot).1, slot]
      exact congrArg some (renumber_self n _).symm
    · next ne =>
      cases found : (s.arena[h.toNat]?).join with
      | none => rfl
      | some m =>
        have other : m ≠ n := by
          rintro rfl
          have := (linked.arena_iff m h.toNat).2 (Option.join_eq_some_iff.1 found)
          exact ne (Option.some.inj (hk.symm.trans this))
        rw [Option.map_some, renumber_of_ne other]

omit linked in
theorem handle?_swapped (x : Item) (hm : m < s.nodes.size) :
    (s.swapped n i k x).handle? (renumber n s.nodes.size m) = s.handle? m := by
  obtain ⟨y, hy⟩ := node?_isSome_of_handle? hk
  have ne : n ≠ s.nodes.size := Nat.ne_of_lt (lt_size_of_node? hy)
  rw [Sequence.swapped, handle?_replaced (node?_swapping s x).1 ne]
  change (if s.nodes.size = _ then some k else if n = _ then none else (s.create x).2.handle? _) = _
  rw [handle?_create]
  by_cases e : m = n
  · subst e
    rw [renumber_self, if_pos rfl, hk]
  · rw [renumber_of_ne e, if_neg (by omega), if_neg (Ne.symm e)]

omit linked hk in
theorem item?_swapped (x : Item) : (s.swapped n i k x).item? m = if m = s.nodes.size then some x else s.item? m := by
  rw [Sequence.swapped, item?_replaced]
  exact item?_create x

/-- A table replaced by another one and its switch changed: the sequence is `Exchanged`. -/
theorem exchanged_swapped (hi : s.items.toList[i]? = some n) (x : Item) (hw : s.item? w = some y) (j : Instruction) :
    Exchanged s n x w j ((s.swapped n i k x).modifyItem w fun _ => .plain j) := by
  have lt : w < s.nodes.size := by
    obtain ⟨z, hz, -⟩ := item?_eq_some.1 hw
    exact lt_size_of_node? hz
  exact {
    items := by rw [items_modifyItem, items_swapped linked hi x]
    named? := fun h => by rw [named?_modifyItem, named?_swapped linked hk x h]
    handle? := fun m hm => by rw [handle?_modifyItem, handle?_swapped hk x hm]
    table := by rw [item?_modifyItem, if_neg (by omega), item?_swapped, if_pos rfl]
    switch := by rw [item?_modifyItem, if_pos rfl, item?_swapped, if_neg (by omega), hw, Option.map_some]
    others := fun m hm _ ne => by rw [item?_modifyItem, if_neg (Ne.symm ne), item?_swapped, if_neg (by omega)]
    moves := by rw [moves_modifyItem]; rfl
    size := by rw [size_modifyItem]; rfl
    pool := by rw [pool_modifyItem]; rfl }

end Swapped

theorem replace_of_mem (new : Nat) (hk : s.handle? n = some k) (mem : n ∈ s.items.toList) :
    ∃ i, s.items.toList[i]? = some n ∧ s.replace n new = .ok (s.replaced n new i k).changed := by
  obtain ⟨y, hy⟩ := node?_isSome_of_handle? hk
  have handle : y.handle = some k := by
    rw [handle?, hy] at hk
    exact hk
  have found : (s.indexOf? n).isSome := by
    rw [indexOf?, Array.findIdx?_isSome, Array.any_eq_true']
    exact ⟨n, Array.mem_toList_iff.1 mem, beq_self_eq_true n⟩
  obtain ⟨i, hi⟩ := Option.isSome_iff_exists.1 found
  have run : s.replace n new = .ok (s.replaced n new i k).changed := by
    unfold replace
    simp only [hy, handle, hi]
    rfl
  obtain ⟨lt, e, -⟩ := Array.findIdx?_eq_some_iff_getElem.1 hi
  refine ⟨i, ?_, run⟩
  rw [Array.getElem?_toList, Array.getElem?_eq_getElem lt]
  simpa using e

/-- `swapTable` leaves what closing the bracket makes of the exchanged table and switch. -/
theorem swapTable_gives {op : Opcode} {i : Instruction} (linked : Linked s s.items.toList) (mem : n ∈ s.items.toList)
    (ne : w ≠ n) (hw : w ∈ s.items.toList) (before : s.item? w = some (.plain i)) (owner : x.owner? = some (s.handleOf w))
    (turned : i.setOpcode op = .ok j) : ∃ u, Exchanged s n x w j u ∧ Linked u u.items.toList ∧ u.depth = s.depth + 1 ∧
      (swapTable n x op).Gives s ⟨⟩ (changed { u with depth := s.depth }) := by
  obtain ⟨k, hk⟩ := linked.handle?_of_mem mem
  have created : ((s.create x).2.openBracket).handle? n = some k := (handle?_create x).trans hk
  obtain ⟨p, hp, run⟩ := replace_of_mem s.nodes.size created mem
  have still : ((s.create x).2.openBracket.replaced n s.nodes.size p k).changed = s.swapped n p k x :=
    if_neg (Nat.succ_ne_zero _)
  rw [still] at run
  have exchanged := exchanged_swapped linked hk hp x before j
  have depth : (s.swapped n p k x).depth = s.depth + 1 := rfl
  refine ⟨_, exchanged, (linked.swapped hk hp x).modifyItem w _, depth, ?_⟩
  have named : (s.swapped n p k x).named? (s.handleOf w) = some w := by
    rw [named?_swapped linked hk, linked.named?_handleOf hw, Option.map_some, renumber_of_ne ne]
  have item : (s.swapped n p k x).item? w = some (.plain i) := by
    rw [item?_swapped, if_neg (Nat.ne_of_lt (linked.lt_size hw)), before]
  have switched : (setSwitch (x.owner?.getD .none) op).Gives (s.swapped n p k x) ⟨⟩
      ((s.swapped n p k x).modifyItem w fun _ => .plain j) := by
    unfold setSwitch
    refine Action.gives_bind.2 ⟨_, _, Action.gives_get.2 ⟨rfl, rfl⟩, ?_⟩
    have here : ((s.swapped n p k x).namedNode? (s.handleOf w)).map Node.item = some (.plain i) := by
      rw [namedNode?, named, Option.bind_some]
      exact item
    simp only [owner, Option.getD_some, named, here]
    refine Action.gives_bind.2 ⟨j, _, Action.gives_lift.2 ⟨turned, rfl⟩, Action.gives_modify.2 rfl⟩
  have close : ((s.swapped n p k x).modifyItem w fun _ => .plain j).closeBracket =
      .ok (changed { (s.swapped n p k x).modifyItem w fun _ => .plain j with depth := s.depth }) := by
    unfold closeBracket
    rw [if_neg (by rw [depth_modifyItem, depth]; omega), depth_modifyItem, depth, Nat.add_sub_cancel]
  have inside : (do
      set (← (← get).replace n s.nodes.size)
      setSwitch (x.owner?.getD .none) op : Action Sequence PUnit).Gives (s.create x).2.openBracket ⟨⟩
        ((s.swapped n p k x).modifyItem w fun _ => .plain j) := by
    refine Action.gives_bind.2 ⟨_, _, Action.gives_get.2 ⟨rfl, rfl⟩, ?_⟩
    refine Action.gives_bind.2 ⟨_, _, Action.gives_lift.2 ⟨run, rfl⟩, ?_⟩
    exact Action.gives_bind.2 ⟨⟨⟩, _, Action.gives_set.2 rfl, switched⟩
  refine Action.gives_bind.2 ⟨s, s, Action.gives_get.2 ⟨rfl, rfl⟩, ?_⟩
  refine Action.gives_bind.2 ⟨⟨⟩, (s.create x).2, Action.gives_set.2 rfl, ?_⟩
  exact gives_bracketed.2 ⟨_, inside, close⟩

/-! ## Converting -/

/-- The switch `w`, with the instruction `i`, owns the table `x` at node `n`. Outside a bracket, padding fits and
every table is owned by the last switch that leads to it, as after every edit; inside a bracket that is postponed. -/
structure InUse (s : Sequence) (n : Nat) (x : Item) (w : Nat) (i : Instruction) : Prop where
  mem : n ∈ s.items.toList
  table : s.item? n = some x
  owner : x.owner? = some (s.handleOf w)
  mem_switch : w ∈ s.items.toList
  switch : s.item? w = some (.plain i)
  claims : Claims s n w
  fits : s.depth = 0 → Fits s 0 s.items.toList
  claimed : s.depth = 0 → Claimed s

instance : Decidable (Claimed s) :=
  decidable_of_iff (∀ n ∈ s.items.toList, (((s.item? n).bind Item.owner?).all fun o =>
      decide (o = (lastTo s.claims? n s.items.toList).elim .none s.handleOf)) = true) (by
    unfold Claimed
    refine forall₂_congr fun n _ => ?_
    rw [Option.all_eq_true]
    simp only [Option.bind_eq_some_iff, decide_eq_true_eq]
    exact ⟨fun h x o hx ho => h o ⟨x, hx, ho⟩, fun h o ⟨x, hx, ho⟩ => h x o hx ho⟩)

/-- A table may be changed as long as it keeps its owner. -/
theorem Claimed.modifyTable (claimed : Claimed s) (old : s.item? n = some y) (table : y.owner?.isSome = true)
    (owner : x.owner? = y.owner?) : Claimed (s.modifyItem n fun _ => x) := by
  have claims? : (s.modifyItem n fun _ => x).claims? = s.claims? := by
    funext k
    by_cases e : n = k
    · subst e
      rw [claims?_table old table, claims?_table (x := x) (by rw [item?_modifyItem, if_pos rfl, old, Option.map_some])
        (by rw [owner, table])]
    · unfold Sequence.claims?
      rw [item?_modifyItem, if_neg e]
      rfl
  have handleOf : (s.modifyItem n fun _ => x).handleOf = s.handleOf := by
    funext k
    rw [handleOf_eq, handleOf_eq, handle?_modifyItem]
  intro m hm z o hz ho
  rw [claims?, handleOf]
  rw [item?_modifyItem] at hz
  split at hz
  · next e =>
    subst e
    rw [old] at hz
    cases hz
    exact claimed n hm y o old (by rw [← owner, ho])
  · exact claimed m hm z o hz ho

namespace InUse

variable {i : Instruction} (use : InUse s n y w i)
include use

theorem isTable : y.owner?.isSome = true := by rw [use.owner]; rfl

theorem ne : w ≠ n := by
  rintro rfl
  have e := use.table.symm.trans use.switch
  cases e
  cases use.owner

theorem isSwitch : i.opcode.is .switch = true := by
  obtain ⟨z, hz, switch, -⟩ := use.claims
  rw [use.switch] at hz
  cases hz
  exact switch

/-- The cases of the table may be sorted before it is swapped. -/
theorem modifyTable (owner : x.owner? = y.owner?) : InUse (s.modifyItem n fun _ => x) n x w i where
  mem := use.mem
  table := by rw [item?_modifyItem, if_pos rfl, use.table, Option.map_some]
  owner := by rw [handleOf_eq, handle?_modifyItem, ← handleOf_eq, owner, use.owner]
  mem_switch := use.mem_switch
  switch := by rw [item?_modifyItem, if_neg (Ne.symm use.ne), use.switch]
  claims := by
    obtain ⟨z, hz, claims⟩ := use.claims
    exact ⟨z, by rw [item?_modifyItem, if_neg (Ne.symm use.ne), hz], claims⟩
  fits flat := by
    have same := (use.fits flat).map (t := s.modifyItem n fun _ => x) (f := id) (fun k hk z hz => ?_) rfl
    · simpa using same
    · by_cases e : n = k
      · subst e
        rw [use.table] at hz
        cases hz
        obtain ⟨payload, solid, even⟩ := Item.extent_table use.isTable
        obtain ⟨payload', solid', even'⟩ := Item.extent_table (x := x) (by rw [owner, use.isTable])
        refine ⟨x, ?_, by rw [payload, payload'], by rw [solid, solid'], by rw [even, even']⟩
        rw [id, item?_modifyItem, if_pos rfl, use.table, Option.map_some]
      · exact ⟨z, by rw [id, item?_modifyItem, if_neg e, hz], rfl, rfl, rfl⟩
  claimed flat := (use.claimed flat).modifyTable use.table use.isTable owner

/-- `swapTable` of a table in use succeeds, and the result is `Exchanged` up to addresses. -/
theorem exists_swap {op : Opcode} (linked : Linked s s.items.toList) (hi : i.Shaped) (owner : x.owner? = y.owner?)
    (mem : op ∈ Opcode.all) (switch : op.is .switch = true) :
    ∃ t, (swapTable n x op).Gives s ⟨⟩ t ∧ Exchanged s n x w (i.retagged op) t ∧ t.depth = s.depth := by
  have turned := Instruction.setOpcode_switch hi use.isSwitch mem switch
  obtain ⟨u, exchanged, linked', -, run⟩ := swapTable_gives linked use.mem use.ne use.mem_switch use.switch
    (by rw [owner, use.owner]) turned
  have closed := exchanged.withDepth s.depth
  refine ⟨_, run, ?_⟩
  unfold changed
  split
  · next flat =>
    have flat : s.depth = 0 := flat
    have claimed := closed.claimed linked use.table use.isTable owner use.switch rfl
      (by rw [use.isSwitch]; exact switch) (use.claimed flat)
    have fits := closed.fits linked use.table use.isTable owner use.switch rfl (Instruction.length_retagged i op)
      (use.fits flat)
    obtain ⟨v, same, e⟩ := fits.relink (linked'.congr (fun _ => rfl) rfl) claimed
    rw [e]
    refine ⟨(closed.readdressed same).collectReferences, ?_⟩
    change v.depth = s.depth
    rw [same.eq]
  · exact ⟨closed, rfl⟩

end InUse

/-- `toSparse` of a packed table in use succeeds. -/
theorem InUse.exists_toSparse {p : PackedTable} {i : Instruction} (use : InUse s n (.packed p) w i)
    (linked : Linked s s.items.toList) (hi : i.Shaped) : ∃ t op, (toSparse n).Gives s ⟨⟩ t ∧
      Opcode.ofName? (ascii "sparse-switch") = some op ∧ Exchanged s n (.sparse p.toSparse) w (i.retagged op) t ∧
      t.depth = s.depth := by
  obtain ⟨op, hop⟩ := Option.isSome_iff_exists.1 Opcode.exists_switches.1
  obtain ⟨t, run, exchanged, depth⟩ := use.exists_swap (x := .sparse p.toSparse) linked hi rfl
    (Opcode.mem_all_of_ofName? hop) (Opcode.is_switch_of_sparse op hop)
  refine ⟨t, op, ?_, hop, exchanged, depth⟩
  unfold toSparse
  refine Action.gives_bind.2 ⟨s, s, Action.gives_get.2 ⟨rfl, rfl⟩, ?_⟩
  have here : (s.node? n).map Node.item = some (.packed p) := use.table
  simp only [here, hop]
  exact run

/-- `toPacked` of a sparse table in use succeeds if its sorted values are consecutive. -/
theorem InUse.exists_toPacked {table sorted : SparseTable} {p : PackedTable} {i : Instruction}
    (use : InUse s n (.sparse table) w i) (linked : Linked s s.items.toList) (hi : i.Shaped)
    (converted : SparseTable.toPacked.Gives table p sorted) : ∃ t op, (toPacked n).Gives s ⟨⟩ t ∧
      Opcode.ofName? (ascii "packed-switch") = some op ∧ Exchanged s n (.packed p) w (i.retagged op) t ∧
      t.depth = s.depth := by
  obtain ⟨-, owner, rearranged⟩ := SparseTable.gives_toPacked converted
  obtain ⟨op, hop⟩ := Option.isSome_iff_exists.1 Opcode.exists_switches.2
  have use' := use.modifyTable (x := .sparse sorted) (congrArg some rearranged.owner)
  obtain ⟨t, run, exchanged, depth⟩ := use'.exists_swap (x := .packed p) (linked.modifyItem n _) hi
    (congrArg some (owner.trans rearranged.owner.symm)) (Opcode.mem_all_of_ofName? hop) (Opcode.is_switch_of_packed op hop)
  refine ⟨t, op, ?_, hop, exchanged.of_modifyItem, depth⟩
  unfold toPacked
  refine Action.gives_bind.2 ⟨s, s, Action.gives_get.2 ⟨rfl, rfl⟩, ?_⟩
  have here : (s.node? n).map Node.item = some (.sparse table) := use.table
  have result : SparseTable.toPacked.apply table = (.ok p, sorted) := converted
  simp only [here, hop, result]
  exact Action.gives_bind.2 ⟨⟨⟩, _, Action.gives_modify.2 rfl,
    Action.gives_bind.2 ⟨p, _, Action.gives_lift.2 ⟨rfl, rfl⟩, run⟩⟩

/-- A packed table whose values do not wrap around is packed again from its sparse form; a sparse table can be packed
exactly if its sorted values are consecutive; and a value reaches the same case before and after a conversion. In a
sequence, converting a table that is `InUse` succeeds: the new table takes over its handle, the switch that owns it
gets the other opcode, and all other items and what they refer to are as before. -/
theorem conversions_keep_cases (p : PackedTable) (table : SparseTable) (s : Sequence) (n w : Nat) (x : Item) (i : Instruction) :
    (p.cases ≠ [] → signed32 p.first + p.cases.length - 1 ≤ 2 ^ 31 - 1 →
      ∃ q u, SparseTable.toPacked.Gives p.toSparse q u ∧ q.first = p.first ∧ q.cases = p.cases) ∧
    (table.keys.length = table.cases.length →
      ((∃ q u, SparseTable.toPacked.Gives table q u) ↔ InRow (table.values.mergeSort fun a b => decide (a ≤ b))) ∧
      ∀ q u, SparseTable.toPacked.Gives table q u → ∀ v, (Item.packed q).caseFor? v = (Item.sparse table).caseFor? v) ∧
    (∀ v, (Item.sparse p.toSparse).caseFor? v = (Item.packed p).caseFor? v) ∧
    (Attempted (fun _ => True) s → InUse s n x w i →
      (x = .packed p → ∃ t op, (toSparse n).Gives s ⟨⟩ t ∧ Opcode.ofName? (ascii "sparse-switch") = some op ∧
        Exchanged s n (.sparse p.toSparse) w (i.retagged op) t) ∧
      (x = .sparse table →
        ((∃ t, (toPacked n).Gives s ⟨⟩ t) ↔ InRow (table.values.mergeSort fun a b => decide (a ≤ b))) ∧
        ∀ q u, SparseTable.toPacked.Gives table q u → ∃ t op, (toPacked n).Gives s ⟨⟩ t ∧
          Opcode.ofName? (ascii "packed-switch") = some op ∧ Exchanged s n (.packed q) w (i.retagged op) t)) := by
  refine ⟨fun nonempty bound => ?_, fun paired => ?_, caseFor?_toSparse p, fun attempted use => ?_⟩
  · obtain ⟨q, u, run, first, cases, -⟩ := SparseTable.toPacked_toSparse nonempty bound
    exact ⟨q, u, run, first, cases⟩
  · exact ⟨SparseTable.exists_toPacked_iff paired, fun q u run => caseFor?_toPacked paired run⟩
  · have sound := attempted.sound Item.lasting_shaped
    have shaped : i.Shaped := sound.holds w _ use.switch
    refine ⟨?_, ?_⟩
    · rintro rfl
      obtain ⟨t, op, run, hop, exchanged, -⟩ := use.exists_toSparse sound.linked shaped
      exact ⟨t, op, run, hop, exchanged⟩
    · rintro rfl
      have paired : table.Paired := (sound.holds n _ use.table).2
      have each : ∀ q u, SparseTable.toPacked.Gives table q u → ∃ t op, (toPacked n).Gives s ⟨⟩ t ∧
          Opcode.ofName? (ascii "packed-switch") = some op ∧ Exchanged s n (.packed q) w (i.retagged op) t := by
        intro q u converted
        obtain ⟨t, op, run, hop, exchanged, -⟩ := use.exists_toPacked sound.linked shaped converted
        exact ⟨t, op, run, hop, exchanged⟩
      refine ⟨⟨?_, fun row => ?_⟩, each⟩
      · rintro ⟨t, run⟩
        obtain ⟨table', q, u, op, item, converted, -⟩ := gives_toPacked run
        rw [use.table] at item
        cases item
        exact (SparseTable.exists_toPacked_iff paired).1 ⟨q, u, converted⟩
      · obtain ⟨q, u, converted⟩ := (SparseTable.exists_toPacked_iff paired).2 row
        obtain ⟨t, op, run, -⟩ := each q u converted
        exact ⟨t, run⟩

/-- A switch with one case, for the value 7, and padding in front of its table. -/
def paddedCode : Cursor :=
  .ofBytes [0, 0, 0x2b, 0, 5, 0, 0, 0, 0x0e, 0, 0, 0, 0, 1, 1, 0, 7, 0, 0, 0, 3, 0, 0, 0]

def padded : Sequence := ((decode paddedCode).apply { size := some (.int 12) }).2

/-- The table of the switch. -/
def paddedTable : PackedTable := { size := 1, first := 7, cases := [{ offset := 3, handle := 2 }], owner := 1 }

/-- The table has become a sparse one, and the padding is still in front of it. -/
theorem conversion_padded : (∃ q u, SparseTable.toPacked.Gives paddedTable.toSparse q u ∧ q.first = 7) ∧
    ∃ t, (toSparse 4).Gives padded ⟨⟩ t ∧ t.items.toList = [0, 1, 2, 3, 5] ∧ t.named? 4 = some 5 ∧
      t.item? 5 = some (.sparse paddedTable.toSparse) ∧ (t.item? 1).map Item.opcode = Opcode.ofName? (ascii "sparse-switch") := by
  obtain ⟨i, switch⟩ : ∃ i, padded.item? 1 = some (.plain i) := by
    have plain : ((padded.item? 1).any fun x => !x.isPayload) = true := by decide +kernel
    obtain ⟨x, hx, solid⟩ := (Option.any_eq_true _ _).1 plain
    cases x with
    | plain i => exact ⟨i, hx⟩
    | _ => cases solid
  have claims : padded.claims? 1 = some 4 := by decide +kernel
  have use : InUse padded 4 (.packed paddedTable) 1 i := {
    mem := by decide +kernel
    table := by decide +kernel
    owner := by decide +kernel
    mem_switch := by decide +kernel
    switch
    claims := claims?_eq_some.1 claims
    fits := fun _ => by decide +kernel
    claimed := fun _ => by decide +kernel }
  have attempted : Attempted (fun _ => True) padded := .step (.new (some (.int 12)) none) (.decode _ paddedCode)
  obtain ⟨backAndForth, -, -, inSequence⟩ := conversions_keep_cases paddedTable paddedTable.toSparse padded 4 1 _ i
  obtain ⟨q, u, back, first, -⟩ := backAndForth (by decide) (by decide +kernel)
  refine ⟨⟨q, u, back, first⟩, ?_⟩
  obtain ⟨t, op, run, hop, exchanged⟩ := (inSequence attempted use).1 rfl
  have size : padded.nodes.size = 5 := by decide +kernel
  have items : padded.items.toList = [0, 1, 2, 3, 4] := by decide +kernel
  have named : padded.named? 4 = some 4 := by decide +kernel
  have table := exchanged.table
  rw [size] at table
  refine ⟨t, run, ?_, ?_, table, ?_⟩
  · rw [exchanged.items, items, size]
    rfl
  · rw [exchanged.named?, named, size]
    rfl
  · rw [exchanged.switch, hop]
    rfl

end Sequence

end Dalvik
