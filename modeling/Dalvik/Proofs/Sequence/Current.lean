import Dalvik.Proofs.Cell
import Dalvik.Proofs.Sequence.Exact

/-!
# Refreshing what is up to date

A sequence is `Current` if it is laid out as `layout` would lay it out, if its offsets are the
distances to what its handles name, and if its payloads and its size cell are as `refresh` would
leave them. Then `refresh` changes nothing. A decoded sequence is current (`current_decode`), so it
is encoded as it was read. A sequence is `Resting` if the same holds except for the collected
references, which `refresh` then collects anew.
-/

namespace Dalvik.Sequence

variable {s t r : Sequence} {n m : Nat} {ns : List Nat} {xs : List Item}

structure Current (s : Sequence) : Prop where
  linked : Linked s s.items.toList
  depth : s.depth = 0
  snug : Snug s
  increasing : Increasing s
  claimed : Claimed s
  references : s.collectReferences = s
  shaped : ∀ n ∈ s.items.toList, ∀ x, s.item? n = some x → x.Shaped
  written : ∀ n ∈ s.items.toList, ∀ x, s.item? n = some x → Written s n x
  payloads : ∀ n ∈ s.items.toList, ∀ x, s.item? n = some x → Item.refresh.Gives x ⟨⟩ x
  size : s.size.map (·.set s.units) = s.size

/-- Everything but the collected references is as `refresh` would leave it. -/
structure Resting (s : Sequence) : Prop where
  linked : Linked s s.items.toList
  depth : s.depth = 0
  snug : Snug s
  claimed : Claimed s
  shaped : ∀ n ∈ s.items.toList, ∀ x, s.item? n = some x → x.Shaped
  written : ∀ n ∈ s.items.toList, ∀ x, s.item? n = some x → Written s n x
  payloads : ∀ n ∈ s.items.toList, ∀ x, s.item? n = some x → Item.refresh.Gives x ⟨⟩ x
  size : s.size.map (·.set s.units) = s.size

theorem Current.resting (h : Current s) : Resting s where
  linked := h.linked
  depth := h.depth
  snug := h.snug
  claimed := h.claimed
  shaped := h.shaped
  written := h.written
  payloads := h.payloads
  size := h.size

/-! ## One pass -/

/-- `encodeBranch` changes nothing if the offset is right. -/
theorem gives_encodeBranch_self (h : ∀ x, s.item? n = some x → x.Shaped ∧ Written s n x) :
    (encodeBranch n).Gives s false s := by
  unfold encodeBranch
  rw [Action.gives_bind]
  refine ⟨s, s, Action.gives_get.2 ⟨rfl, rfl⟩, ?_⟩
  split
  · next i a k hn =>
    have item : s.item? n = some (.plain i) := item?_of_node? hn
    obtain ⟨shaped, written⟩ := h _ item
    split
    · next has =>
      obtain ⟨m, p, b, named, hp, hb, data⟩ := written.target i rfl has
      rw [address?, hn, Option.map_some] at hp
      cases hp
      have ne : i.target ≠ .finish := fun e => by
        rw [e] at named
        cases named
      have dest : (if i.target = .finish then none else s.addressOf? i.target) = some b := by
        rw [if_neg ne, addressOf?_eq_some ne]
        exact ⟨m, named, hb⟩
      have kept : i.setData (b - a) = .ok i :=
        Instruction.setData_of_data (shaped.dataShift_eq_zero has) (shaped.hasData has) data
      simp only [dest, kept, Action.gives_bind, Action.gives_modify, Action.gives_pure]
      exact ⟨⟨⟩, s, modifyItem_self item, trivial, rfl⟩
    · exact Action.gives_pure.2 ⟨rfl, rfl⟩
  · exact Action.gives_pure.2 ⟨rfl, rfl⟩

theorem encodeCases_self {op : Opcode} {base : Int} {i : Nat} {cs : List Case}
    (h : ∀ c ∈ cs, ∃ m b, s.named? c.handle = some m ∧ s.address? m = some b ∧ c.offset = UInt32.ofInt (b - base)) :
    s.encodeCases op base i cs = (.ok ⟨⟩, cs) := by
  induction cs generalizing i with
  | nil => rfl
  | cons c cs ih =>
    obtain ⟨m, b, named, hb, offset⟩ := h c List.mem_cons_self
    have ne : c.handle ≠ .finish := fun e => by
      rw [e] at named
      cases named
    have dest : (if c.handle = .finish then none else s.addressOf? c.handle) = some b := by
      rw [if_neg ne, addressOf?_eq_some ne]
      exact ⟨m, named, hb⟩
    have kept : c.setOffset (b - base) = c := by
      unfold Case.setOffset
      rw [← offset]
    simp only [encodeCases, dest, ih fun d hd => h d (List.mem_cons_of_mem _ hd), kept]

/-- `encodeTable` changes nothing if the offsets are right. -/
theorem gives_encodeTable_self (h : ∀ x, s.item? n = some x → Written s n x) : (encodeTable n).Gives s ⟨⟩ s := by
  unfold encodeTable
  rw [Action.gives_bind]
  refine ⟨s, s, Action.gives_get.2 ⟨rfl, rfl⟩, ?_⟩
  split
  · next x hx =>
    split
    · next base hbase =>
      obtain ⟨o, owner, hbase⟩ := Option.bind_eq_some_iff.1 hbase
      have unchanged : s.encodeCases x.opcode base 0 x.cases = (.ok ⟨⟩, x.cases) :=
        encodeCases_self ((h x hx).cases o base owner hbase)
      simp only [unchanged, Action.gives_bind, Action.gives_modify, Action.gives_lift]
      have same : s.modifyItem n (Item.setCases x.cases) = s := by
        refine (modifyItem_congr fun y hy => ?_).trans (modifyItem_self hx)
        obtain rfl : y = x := Option.some.inj (hy.symm.trans hx)
        exact setCases_cases y
      exact ⟨⟨⟩, s, same, trivial, rfl⟩
    · exact Action.gives_pure.2 ⟨rfl, rfl⟩
  · exact Action.gives_pure.2 ⟨rfl, rfl⟩

theorem encodes_self (h : ∀ n ∈ ns, ∀ x, s.item? n = some x → x.Shaped ∧ Written s n x) : Encodes ns s false s := by
  induction ns with
  | nil => exact .nil s
  | cons n ns ih =>
    have here := h n List.mem_cons_self
    exact Encodes.cons (gives_encodeBranch_self here) (gives_encodeTable_self fun x hx => (here x hx).2)
      (ih fun m hm => h m (List.mem_cons_of_mem _ hm))

/-! ## The whole -/

theorem gives_refreshItem_self (h : ∀ x, s.item? n = some x → Item.refresh.Gives x ⟨⟩ x) : (refreshItem n).Gives s ⟨⟩ s := by
  unfold refreshItem
  rw [Action.gives_bind]
  refine ⟨s, s, Action.gives_get.2 ⟨rfl, rfl⟩, ?_⟩
  split
  · exact Action.gives_pure.2 ⟨rfl, rfl⟩
  · exact Action.gives_pure.2 ⟨rfl, rfl⟩
  · next x _ hx =>
    have run : Item.refresh.apply x = (.ok ⟨⟩, x) := h x hx
    simp only [run, Action.gives_bind, Action.gives_modify, Action.gives_lift]
    exact ⟨⟨⟩, s, modifyItem_self hx, trivial, rfl⟩

namespace Resting

variable (h : Resting s)
include h

/-- Neither the collected references nor the recorded moves matter. -/
theorem aside (references : List (Handle × Reference)) (moves : Array (Handle × Handle)) :
    Resting { s with references, moves } where
  linked := h.linked.congr (fun _ => rfl) rfl
  depth := h.depth
  snug := h.snug.congr rfl rfl fun _ => rfl
  claimed := h.claimed.congr rfl rfl rfl
  shaped := h.shaped
  written := fun n hn x hx => ⟨(h.written n hn x hx).target, (h.written n hn x hx).cases⟩
  payloads := h.payloads
  size := h.size

theorem collectReferences : Resting s.collectReferences := h.aside _ s.moves

/-- `refresh` collects the references, and changes nothing else. -/
theorem refresh : refresh.Gives s ⟨⟩ s.collectReferences := by
  have after := h.collectReferences
  refine gives_refresh.2 ⟨h.depth, s.collectReferences, s.collectReferences, ?_, ?_, ?_⟩
  · rw [h.snug.relink_of_claimed h.linked h.claimed, gives_settle_succ]
    exact .inl (encodes_self fun n hn x hx => ⟨after.shaped n hn x hx, after.written n hn x hx⟩)
  · exact .self fun n hn => gives_refreshItem_self (after.payloads n hn)
  · rw [after.size]

end Resting

/-- `refresh` changes nothing. -/
theorem Current.refresh (h : Current s) : refresh.Gives s ⟨⟩ s := by
  have run := h.resting.refresh
  rwa [h.references] at run

/-! ## Addresses and handles -/

theorem indexOf?_of_mem {p : Int} (mem : n ∈ s.items.toList) (address : s.address? n = some p) :
    ∃ i, s.indexOf? n = some i ∧ i < s.items.size ∧ s.addressAt i = p := by
  have has : (s.indexOf? n).isSome := by
    rw [indexOf?, Array.findIdx?_isSome, Array.any_eq_true']
    exact ⟨n, Array.mem_toList_iff.1 mem, beq_self_eq_true n⟩
  obtain ⟨i, hi⟩ := Option.isSome_iff_exists.1 has
  obtain ⟨lt, same, -⟩ := Array.findIdx?_eq_some_iff_getElem.1 hi
  have here : s.items[i]? = some n := by rw [Array.getElem?_eq_getElem lt, beq_iff_eq.1 same]
  exact ⟨i, hi, lt, addressAt_of_getElem? here address⟩

section Handles

variable {p : Int} {k : Handle} (linked : Linked s s.items.toList) (increasing : Increasing s)
include linked increasing

/-- The handle that `handleAt?` finds at an address has that address. -/
theorem addressOf?_of_handleAt? (found : s.handleAt? p = some k) : s.addressOf? k = some p := by
  rw [handleAt?_eq] at found
  split at found
  · next e =>
    cases found
    rw [e, addressOf?, if_pos rfl]
  · obtain ⟨n, there, rfl⟩ := Option.map_eq_some_iff.1 found
    obtain ⟨mem, address⟩ := (increasing.nodeByAddress?_iff fun n hn => linked.node?_of_mem hn).1 there
    have named := linked.named?_handleOf mem
    exact (addressOf?_eq_some (ne_finish_of_named? named)).2 ⟨n, named, address⟩

/-- The handle that `handleAt?` finds at an address is that of an item, unless it is the end. -/
theorem indexOf?_of_handleAt? (found : s.handleAt? p = some k) (ne : p ≠ s.units) :
    ∃ i, (s.named? k).bind s.indexOf? = some i ∧ i < s.items.size ∧ s.addressAt i = p := by
  rw [handleAt?_eq, if_neg ne] at found
  obtain ⟨n, there, rfl⟩ := Option.map_eq_some_iff.1 found
  obtain ⟨mem, address⟩ := (increasing.nodeByAddress?_iff fun n hn => linked.node?_of_mem hn).1 there
  rw [linked.named?_handleOf mem, Option.bind_some]
  exact indexOf?_of_mem mem address

end Handles

/-- An address that has a handle is not behind the end. -/
theorem Snug.le_units_of_handleAt? {p : Int} {k : Handle} (h : Snug s) (linked : Linked s s.items.toList) (increasing : Increasing s)
    (found : s.handleAt? p = some k) : p ≤ s.units := by
  rw [handleAt?_eq] at found
  split at found
  · next e => exact e.le
  · obtain ⟨n, there, rfl⟩ := Option.map_eq_some_iff.1 found
    obtain ⟨mem, address⟩ := (increasing.nodeByAddress?_iff fun n hn => linked.node?_of_mem hn).1 there
    obtain ⟨q, x, shape, -, below⟩ := h.laid.mem mem
    rw [address?_of_shape? shape] at address
    cases address
    omega

/-! ## What was read -/

/-- Only switches lead to switch tables. -/
def SwitchOnly (xs : List Item) : Prop := ∀ q ∈ spread 0 xs, q.2.owner?.isSome = true →
  ∀ p ∈ spread 0 xs, dest? p = some q.1 → p.2.opcode.is .switch = true

instance : Decidable (SwitchOnly xs) := inferInstanceAs (Decidable (∀ q ∈ spread 0 xs, _))

/-- The values of sparse tables are strictly increasing. -/
def Ascending (xs : List Item) : Prop :=
  ∀ x ∈ xs, ∀ t, x = .sparse t → t.keys.Pairwise fun k l => signed32 k < signed32 l

theorem SwitchOnly.switched (h : SwitchOnly xs) : Switched xs := by
  rintro q hq table ⟨p, hp, dest⟩
  exact ⟨p, hp, h q hq table p hp dest, dest⟩

/-- Refreshing a payload that was decoded changes nothing, whatever was linked in it. -/
theorem refresh_of_bare {x : Item} (raw : x.bare.Raw)
    (ascending : ∀ t, x.bare = .sparse t → t.keys.Pairwise fun k l => signed32 k < signed32 l) :
    Item.refresh.Gives x ⟨⟩ x := by
  have count : ∀ {size : UInt16} {f : Case → Case} {cases : List Case}, size.toNat = (cases.map f).length →
      size = UInt16.ofNat cases.length := by
    intro size f cases fits
    rw [List.length_map] at fits
    rw [← fits, UInt16.ofNat_toNat]
  refine Item.refresh_of_refreshed ?_ fun t e => ?_
  · cases x with
    | packed p => exact count (raw : PackedTable.Raw _).size
    | sparse t =>
      have increasing := ascending _ rfl
      exact ⟨count (raw : SparseTable.Raw _).size, increasing⟩
    | _ => trivial
  · subst e
    exact (raw : SparseTable.Raw _).sorted

namespace Gathered

variable (h : Gathered r t)
include h

/-- If only switches lead to tables, every table is owned by the switch that claims it. -/
theorem claimed (reads : Reads xs r) (only : SwitchOnly xs) : Claimed t := by
  intro n hn x o hx owner
  rw [h.items] at hn ⊢
  rw [h.owner n hn x o hx owner, show t.handleOf = r.handleOf from funext h.handleOf]
  congr 1
  refine lastTo_congr fun k hk => ⟨fun lead => ?_, fun claims => ?_⟩
  · obtain ⟨y, -, p, item, address, -⟩ := reads.rows.exists_item hk
    obtain ⟨z, -, q, item', address', -⟩ := reads.rows.exists_item hn
    have table : z.owner?.isSome = true := by
      obtain ⟨read, -⟩ := h.item?_bare reads hn hx
      rw [item'] at read
      rw [Option.some.inj read, Item.owner?_bare, owner]
      rfl
    have dest : dest? ((p : Int), y) = some (q : Int) := (reads.lead?_iff ⟨item, address⟩ hn address').1 lead
    have switch := only ((q : Int), z) (reads.rows.mem_spread.2 ⟨n, hn, item', address'⟩) table ((p : Int), y)
      (reads.rows.mem_spread.2 ⟨k, hk, item, address⟩) dest
    obtain ⟨i, d, e, -⟩ := dest?_eq_some.1 dest
    obtain ⟨w, hw, bare⟩ := h.exists_item? reads hk item
    obtain ⟨j, rfl, rfl⟩ := Item.eq_plain_of_bare (bare.trans e)
    rw [e] at switch
    rw [h.claims?_eq_lead? reads hk hw switch, lead]
  · obtain ⟨i, hi, switch, -⟩ := claims?_eq_some.1 claims
    rw [← h.claims?_eq_lead? reads hk hi switch, claims]

/-- The offsets are the distances to what the handles name. -/
theorem written (reads : Reads xs r) (hn : n ∈ t.items.toList) {x : Item} (hx : t.item? n = some x) : Written t n x where
  target := by
    rintro i rfl has
    rw [h.items] at hn
    obtain ⟨read, -⟩ := h.item?_bare reads hn hx
    obtain ⟨k, -, lead, -⟩ := h.leading n hn _ read has
    obtain ⟨j, a, d, hj, ha, -, data, there⟩ := lead?_eq_some.1 lead
    rw [read] at hj
    cases hj
    obtain ⟨mem, hk⟩ := (reads.increasing.nodeByAddress?_iff fun k hk => reads.linked.node?_of_mem hk).1 there
    refine ⟨k, a, a + d, ?_, by rw [h.address?, ha], by rw [h.address?, hk], ?_⟩
    · rw [h.target n hn i hx, lead, h.named?]
      exact reads.linked.named?_handleOf mem
    · rw [add_sub_cancel_left]
      exact data
  cases := by
    intro o base owner hbase c hc
    rw [h.items] at hn
    have ne : o ≠ .finish := by
      rw [h.owner n hn x o hx owner]
      exact elim_handleOf_ne_finish r _
    obtain ⟨w, named, hw⟩ := (addressOf?_eq_some ne).1 hbase
    rw [h.named?] at named
    rw [h.address?] at hw
    obtain ⟨k, there, handle⟩ := h.cases n hn x o base hx owner (by rw [named]; exact hw) c hc
    obtain ⟨mem, hk⟩ := (reads.increasing.nodeByAddress?_iff fun k hk => reads.linked.node?_of_mem hk).1 there
    refine ⟨k, _, ?_, by rw [h.address?, hk], ?_⟩
    · rw [handle, h.named?]
      exact reads.linked.named?_handleOf mem
    · rw [add_sub_cancel_left, ofInt_signed32]

end Gathered

/-- A decoded sequence is `Current` and has recorded no moves, if payloads are at even addresses, the values of sparse
tables are strictly increasing and only switches lead to switch tables. -/
theorem current_decode {c c' : Cursor} (hc : c.Sane) (run : (decode c).Gives s c' t) (scan : Scan c xs c')
    (aligned : Aligned xs) (only : SwitchOnly xs) (ascending : Ascending xs) (depth : s.depth = 0)
    (size : ∀ cell, s.size = some cell → 0 ≤ cell.get) : Current t ∧ t.size = s.size ∧ t.moves = s.moves := by
  obtain ⟨cell, u, hcell, fits, reads, gathered, rfl⟩ := gathered_of_decode hc run scan
  obtain ⟨depth_eq, size_eq, -, moves_eq⟩ := fields_scanned s xs
  have snug := gathered.snug reads aligned
  have claimed := gathered.claimed reads only
  have linked := gathered.linked reads
  have kept : u.size = s.size ∧ u.moves = s.moves := by
    rw [gathered.eq]
    exact ⟨size_eq, moves_eq⟩
  rw [snug.relink_of_claimed linked claimed]
  refine ⟨?_, kept⟩
  exact {
    linked := linked.congr (fun _ => rfl) rfl
    depth := by
      change u.depth = 0
      rw [gathered.eq]
      exact depth_eq.trans depth
    snug := snug.congr rfl rfl fun _ => rfl
    increasing := reads.increasing.congr gathered.items gathered.address?
    claimed := claimed.congr rfl rfl rfl
    references := rfl
    shaped := fun n hn x hx => (gathered.sealed n (by rw [← gathered.items]; exact hn) x hx).1
    written := fun n hn x hx => ⟨(gathered.written reads hn hx).target, (gathered.written reads hn hx).cases⟩
    payloads := by
      intro n hn x hx
      obtain ⟨read, mem⟩ := gathered.item?_bare reads (by rw [← gathered.items]; exact hn) hx
      exact refresh_of_bare (reads.raw _ mem) (ascending _ mem)
    size := by
      change u.size.map (·.set u.units) = u.size
      have units : (u.units : Int) = cell.get := by
        rw [gathered.units]
        change ((span xs : Nat) : Int) = _
        rw [fits, Int.toNat_of_nonneg (size cell hcell)]
      rw [kept.1, hcell, units, Option.map_some, Cell.set_get] }

end Dalvik.Sequence
