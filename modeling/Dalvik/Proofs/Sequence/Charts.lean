import Dalvik.Proofs.Sequence.Current
import Dalvik.Proofs.Sequence.Linkable
import Dalvik.Proofs.Sequence.Matched

/-!
# Reading back what was written

`Charts xs s` says that the sequence `s` holds the items `xs` in a row, that the stored offsets
agree with the handles, and that each table is owned by the last switch that leads to it. Then
`aims`, the addresses that branches and tables of `s` lead to, can be computed from the items alone
(`aims_eq`). So a sequence that is decoded from the bytes of such a sequence leads to the same
addresses (`Storable.exists_decode`).
-/

namespace Dalvik

theorem Item.cases_bare (x : Item) : x.bare.cases = x.cases.map Case.unlinked := by cases x <;> rfl

namespace Sequence

variable {s t : Sequence} {n m : Nat} {ns : List Nat} {xs : List Item} {p base : Int} {a b : Nat} {c c' : Cursor}

/-! ## Where items lead -/

/-- The addresses that a branch or an owned table leads to; for a table, preceded by the address its offsets count
from. -/
def aims (s : Sequence) : Item → List (Option Int)
  | .plain i => if i.hasTarget then [s.addressOf? i.target] else []
  | x => (x.owner?.bind s.addressOf?).elim [] fun base => some base :: x.cases.map fun c => s.addressOf? c.handle

/-- The same, computed from the addresses of the items and their offsets. -/
def aimsOf (qs : List (Int × Item)) (q : Int × Item) : List (Option Int) :=
  match q.2 with
  | .plain i => if i.hasTarget then [dest? q] else []
  | x => (x.owner?.bind fun _ => lastInto q.1 qs).elim [] fun base =>
      some base :: x.cases.map fun c => some (base + signed32 c.offset)

/-- The items of a sequence without links, with their addresses and the addresses they lead to. -/
def outline (s : Sequence) : List (Int × Item × List (Option Int)) :=
  s.contents.map fun x => (x.address, x.item.bare, s.aims x.item)

/-- The sequence holds the items in a row, and what is stored in them agrees with its handles. -/
structure Charts (xs : List Item) (s : Sequence) : Prop where
  linked : Linked s s.items.toList
  increasing : Increasing s
  form : s.items.toList.filterMap s.form? = spread 0 xs
  raw : ∀ x ∈ xs, x.Raw
  written : ∀ n ∈ s.items.toList, ∀ x, s.item? n = some x → Written s n x
  claimed : Claimed s
  only : SwitchOnly xs
  small : span xs ≤ 2 ^ 31

theorem mem_spread_bounds {q : Int × Item} (raw : ∀ x ∈ xs, x.Raw) (hq : q ∈ spread a xs) :
    q.2 ∈ xs ∧ (a : Int) ≤ q.1 ∧ q.1 < (a + span xs : Nat) := by
  induction xs generalizing a with
  | nil => cases hq
  | cons x xs ih =>
    have pos := (Item.shaped_of_raw (raw x List.mem_cons_self)).codeUnits_pos
    rcases List.mem_cons.1 hq with rfl | hq
    · refine ⟨List.mem_cons_self, le_refl _, ?_⟩
      rw [span_cons]
      omega
    · obtain ⟨mem, low, high⟩ := ih (fun y hy => raw y (List.mem_cons_of_mem _ hy)) hq
      refine ⟨List.mem_cons_of_mem _ mem, by omega, ?_⟩
      rw [span_cons]
      omega

namespace Charts

variable (h : Charts xs s)
include h

theorem mem_spread {q : Int × Item} : q ∈ spread 0 xs ↔ ∃ n ∈ s.items.toList, s.form? n = some q := by
  rw [← h.form, List.mem_filterMap]

theorem exists_place (hn : n ∈ s.items.toList) {x : Item} (hx : s.item? n = some x) :
    ∃ p, s.address? n = some p ∧ (p, x.bare) ∈ spread 0 xs := by
  obtain ⟨y, hy⟩ := h.linked.node?_of_mem hn
  have same : y.item = x := by
    rw [item?, hy] at hx
    exact Option.some.inj hx
  refine ⟨y.address, by rw [address?, hy]; rfl, h.mem_spread.2 ⟨n, hn, ?_⟩⟩
  rw [form?, hy, Option.map_some, same]

/-- Addresses of items are below 2^31, so that 32-bit offsets tell them apart. -/
theorem bounds (hn : n ∈ s.items.toList) (hp : s.address? n = some p) : 0 ≤ p ∧ p < 2 ^ 31 := by
  obtain ⟨x, hx⟩ := h.linked.item?_of_mem hn
  obtain ⟨q, hq, mem⟩ := h.exists_place hn hx
  rw [hp] at hq
  cases hq
  obtain ⟨-, low, high⟩ := mem_spread_bounds h.raw mem
  have small := h.small
  dsimp only at low high
  omega

/-- The target of a branch is an item, at the address that the offset says. -/
theorem target (hn : n ∈ s.items.toList) {i : Instruction} (hi : s.item? n = some (.plain i)) (hp : s.address? n = some p)
    (has : i.hasTarget = true) : ∃ m ∈ s.items.toList, ∃ b, s.named? i.target = some m ∧ s.address? m = some b ∧
      dest? (p, (Item.plain i).bare) = some b := by
  obtain ⟨m, a, b, named, ha, hb, data⟩ := (h.written n hn _ hi).target i rfl has
  rw [hp] at ha
  cases ha
  refine ⟨m, h.linked.mem_of_named? named, b, named, hb, dest?_eq_some.2 ⟨_, b - p, rfl, has, data, ?_⟩⟩
  dsimp only
  omega

/-- `claims?` of a switch is the item at the address that its offset says. -/
theorem claims?_iff (hn : n ∈ s.items.toList) {x y : Item} (hx : s.item? n = some x) (hp : s.address? n = some p)
    (hm : m ∈ s.items.toList) (hy : s.item? m = some y) (table : y.owner?.isSome = true) (hb : s.address? m = some base) :
    s.claims? n = some m ↔ dest? (p, x.bare) = some base := by
  obtain ⟨p', hp', place⟩ := h.exists_place hn hx
  rw [hp] at hp'
  cases hp'
  obtain ⟨base', hb', place'⟩ := h.exists_place hm hy
  rw [hb] at hb'
  cases hb'
  rw [claims?_eq_some]
  constructor
  · rintro ⟨i, hi, switch, named⟩
    rw [hx] at hi
    cases hi
    have raw : (Item.plain i).bare.Raw := h.raw _ (mem_spread_bounds h.raw place).1
    have shaped : Instruction.Shaped _ := Item.shaped_of_raw raw
    have has : i.hasTarget = true := by
      rw [Instruction.hasTarget, Opcode.payloadRef_of_switch _ shaped.mem switch, Bool.or_true]
    obtain ⟨k, -, b, named', address, dest⟩ := h.target hn hx hp has
    rw [named] at named'
    cases named'
    rw [hb] at address
    cases address
    exact dest
  · intro dest
    obtain ⟨j, _, e, has, -, -⟩ := dest?_eq_some.1 dest
    obtain ⟨i, rfl, rfl⟩ := Item.eq_plain_of_bare e
    obtain ⟨k, hk, b, named, address, dest'⟩ := h.target hn hx hp has
    rw [dest] at dest'
    cases dest'
    have switch := h.only _ place' (by rw [Item.owner?_bare, table]) _ place dest
    rw [h.increasing.address?_inj hk hm address hb] at named
    exact ⟨i, hx, switch, named⟩

/-- The owner of a table has the address of the last item that leads to the table. -/
theorem owner (hn : n ∈ s.items.toList) {x : Item} (hx : s.item? n = some x) (hp : s.address? n = some p) {o : Handle}
    (owner : x.owner? = some o) : s.addressOf? o = lastInto p (spread 0 xs) := by
  have last : (lastTo s.claims? n s.items.toList).bind s.address? = lastInto p (spread 0 xs) := by
    rw [← h.form]
    refine lastTo_eq_lastInto fun k hk => ?_
    obtain ⟨y, hy⟩ := h.linked.item?_of_mem hk
    obtain ⟨b, hb, -⟩ := h.exists_place hk hy
    exact ⟨(b, y.bare), form?_eq_some.2 ⟨y, hy, hb, rfl⟩, h.claims?_iff hk hy hb hn hx (by rw [owner]; rfl) hp⟩
  rw [← last, h.claimed n hn x o hx owner]
  cases who : lastTo s.claims? n s.items.toList with
  | none => rfl
  | some w =>
    have named := h.linked.named?_handleOf (mem_of_lastTo who).1
    obtain ⟨y, hy⟩ := h.linked.node?_of_mem (mem_of_lastTo who).1
    have address : s.address? w = some y.address := by rw [address?, hy]; rfl
    rw [Option.elim_some, Option.bind_some, address]
    exact (addressOf?_eq_some (ne_finish_of_named? named)).2 ⟨w, named, address⟩

/-- The cases of an owned table are handles of items, at the addresses that their offsets say. -/
theorem case (hn : n ∈ s.items.toList) {x : Item} (hx : s.item? n = some x) {o : Handle} (owner : x.owner? = some o)
    (hbase : s.addressOf? o = some base) {d : Case} (hd : d ∈ x.cases) : ∃ m ∈ s.items.toList, ∃ b,
      s.named? d.handle = some m ∧ s.address? m = some b ∧ b = base + signed32 d.offset := by
  obtain ⟨m, b, named, address, offset⟩ := (h.written n hn x hx).cases o base owner hbase d hd
  have hm := h.linked.mem_of_named? named
  refine ⟨m, hm, b, named, address, ?_⟩
  have ne : o ≠ .finish := by
    rw [h.claimed n hn x o hx owner]
    exact elim_handleOf_ne_finish s _
  obtain ⟨w, hw, located⟩ := (addressOf?_eq_some ne).1 hbase
  have bounds := h.bounds (h.linked.mem_of_named? hw) located
  obtain ⟨low, high⟩ := h.bounds hm address
  rw [offset, signed32_ofInt (by omega) (by omega)]
  omega

/-- `aims` of an item is `aimsOf` of its address and content. -/
theorem aims_eq (hn : n ∈ s.items.toList) {x : Item} (hx : s.item? n = some x) (hp : s.address? n = some p) :
    s.aims x = aimsOf (spread 0 xs) (p, x.bare) := by
  have table : ∀ o, x.owner? = some o → ((x.owner?.bind s.addressOf?).elim [] fun base =>
      some base :: x.cases.map fun c => s.addressOf? c.handle) = (lastInto p (spread 0 xs)).elim [] fun base =>
        some base :: x.cases.map fun c => some (base + signed32 c.offset) := by
    intro o owner
    rw [owner, Option.bind_some, h.owner hn hx hp owner]
    cases last : lastInto p (spread 0 xs) with
    | none => rfl
    | some base =>
      have points : x.cases.map (fun c => s.addressOf? c.handle) = x.cases.map fun c => some (base + signed32 c.offset) := by
        refine List.map_congr_left fun c hc => ?_
        obtain ⟨m, -, b, named, address, rfl⟩ := h.case hn hx owner ((h.owner hn hx hp owner).trans last) hc
        exact (addressOf?_eq_some (ne_finish_of_named? named)).2 ⟨m, named, address⟩
      rw [Option.elim_some, Option.elim_some, points]
  cases x with
  | plain i =>
    rw [aims]
    change _ = if i.hasTarget then [dest? (p, (Item.plain i).bare)] else []
    split
    · next has =>
      obtain ⟨m, -, b, named, address, dest⟩ := h.target hn hx hp has
      rw [dest, (addressOf?_eq_some (ne_finish_of_named? named)).2 ⟨m, named, address⟩]
    · rfl
  | packed q =>
    refine (table q.owner rfl).trans ?_
    simp [aimsOf, Item.bare, Item.unlinked, Item.owner?, Item.cases, Case.unlinked, Function.comp_def]
  | sparse q =>
    refine (table q.owner rfl).trans ?_
    simp [aimsOf, Item.bare, Item.unlinked, Item.owner?, Item.cases, Case.unlinked, Function.comp_def]
  | array q => rfl

/-- Sequences that chart the same items have the same outline. -/
theorem outline_eq : s.outline = (spread 0 xs).map fun q => (q.1, q.2, aimsOf (spread 0 xs) q) := by
  rw [outline, contents, ← h.form, List.map_filterMap, List.map_filterMap]
  refine List.filterMap_congr fun n hn => ?_
  obtain ⟨y, hy⟩ := h.linked.node?_of_mem hn
  have item : s.item? n = some y.item := by rw [item?, hy]; rfl
  have address : s.address? n = some y.address := by rw [address?, hy]; rfl
  rw [form?, hy, Option.map_some, Option.map_some, Option.map_some, h.aims_eq hn item address, h.form]

/-- If `s` charts `xs` and is `Matched`, then `xs` can be linked. -/
theorem linkable (matched : Matched s) : Linkable xs where
  branches := by
    intro q hq i e has
    obtain ⟨n, hn, form⟩ := h.mem_spread.1 hq
    obtain ⟨x, hx, hp, bare⟩ := form?_eq_some.1 form
    obtain ⟨j, rfl, rfl⟩ := Item.eq_plain_of_bare (bare.trans e)
    obtain ⟨m, hm, b, named, address, dest⟩ := h.target hn hx hp has
    obtain ⟨y, hy⟩ := h.linked.item?_of_mem hm
    obtain ⟨b', hb', place⟩ := h.exists_place hm hy
    rw [address] at hb'
    cases hb'
    rw [bare] at dest
    have kind : j.opcode.is .payloadRef = true → y.opcode = payloadFor j.opcode := by
      intro ref
      obtain ⟨k, z, named', hz, -, kind⟩ := matched n j ((h.linked.mem_iff n).1 hn) hx ref
      rw [named] at named'
      cases named'
      rw [hy] at hz
      cases hz
      exact kind
    exact ⟨_, place, dest, fun ref => Item.bare_opcode.trans (kind ref)⟩
  tables := by
    intro q hq table base last d hd
    obtain ⟨n, hn, form⟩ := h.mem_spread.1 hq
    obtain ⟨x, hx, hp, bare⟩ := form?_eq_some.1 form
    rw [← bare] at table hd
    rw [Item.owner?_bare] at table
    obtain ⟨o, owner⟩ := Option.isSome_iff_exists.1 table
    rw [Item.cases_bare] at hd
    obtain ⟨d', hd', rfl⟩ := List.mem_map.1 hd
    obtain ⟨m, hm, b, -, address, e⟩ := h.case hn hx owner ((h.owner hn hx hp owner).trans last) hd'
    obtain ⟨y, hy⟩ := h.linked.item?_of_mem hm
    obtain ⟨b', hb', place⟩ := h.exists_place hm hy
    rw [address] at hb'
    cases hb'
    exact ⟨_, place, e⟩

end Charts

/-! ## Reading back -/

/-- The two sequences have the same items at the same addresses, leading to the same addresses. -/
structure Alike (t u : Sequence) : Prop where
  outline : u.outline = t.outline
  units : u.units = t.units

/-- The address of a handle of the one sequence is that of a handle of the other. -/
theorem Alike.exists_handleAt? (h : Alike t s) (linked : Linked t t.items.toList) (linked' : Linked s s.items.toList)
    (increasing : Increasing s) {k : Handle} (there : t.addressOf? k = some p) : ∃ k', s.handleAt? p = some k' := by
  rw [handleAt?_eq]
  split
  · exact ⟨_, rfl⟩
  · next ne =>
    have inner : k ≠ .finish := by
      rintro rfl
      rw [addressOf?, if_pos rfl, ← h.units] at there
      exact ne (Option.some.inj there).symm
    obtain ⟨n, named, address⟩ := (addressOf?_eq_some inner).1 there
    have places : s.items.toList.filterMap s.form? = t.items.toList.filterMap t.form? := by
      have forms : ∀ u : Sequence, u.items.toList.filterMap u.form? = u.outline.map fun q => (q.1, q.2.1) := by
        intro u
        rw [← contents_form?, outline.eq_def u, List.map_map]
        rfl
      rw [forms, forms, h.outline]
    obtain ⟨x, hx⟩ := linked.item?_of_mem (linked.mem_of_named? named)
    have here : (p, x.bare) ∈ t.items.toList.filterMap t.form? :=
      List.mem_filterMap.2 ⟨n, linked.mem_of_named? named, form?_eq_some.2 ⟨x, hx, address, rfl⟩⟩
    rw [← places] at here
    obtain ⟨m, hm, form⟩ := List.mem_filterMap.1 here
    obtain ⟨-, -, address', -⟩ := form?_eq_some.1 form
    have found := (increasing.nodeByAddress?_iff fun _ hk => linked'.node?_of_mem hk).2 ⟨hm, address'⟩
    exact ⟨s.handleOf m, by rw [found]; rfl⟩

/-- A sequence that can be decoded from its bytes. -/
structure Storable (t : Sequence) : Prop where
  linked : Linked t t.items.toList
  laid : Laid t 0 t.items.toList t.units
  increasing : Increasing t
  full : ∀ n ∈ t.items.toList, ∀ x, t.item? n = some x → x.extent = x.codeUnits
  raw : ∀ n ∈ t.items.toList, ∀ x, t.item? n = some x → x.bare.Raw
  written : ∀ n ∈ t.items.toList, ∀ x, t.item? n = some x → Written t n x
  claimed : Claimed t
  ascending : ∀ n ∈ t.items.toList, ∀ q, t.item? n = some (.sparse q) → q.keys.Pairwise fun k l => signed32 k < signed32 l
  matched : Matched t
  /-- Only switches lead to switch tables. -/
  only : ∀ n ∈ t.items.toList, ∀ i m y, t.item? n = some (.plain i) → i.hasTarget = true → t.named? i.target = some m →
    t.item? m = some y → y.owner?.isSome = true → i.opcode.is .switch = true
  small : t.units ≤ 2 ^ 31

/-- The items of a sequence without links, as they will be decoded. -/
def bareItems (t : Sequence) : List Item := t.items.toList.filterMap fun n => (t.item? n).map Item.bare

/-- Items in a row have the addresses that `spread` computes. -/
theorem Laid.spread_eq (h : Laid t a ns b) (full : ∀ n ∈ ns, ∀ x, t.item? n = some x → x.extent = x.codeUnits) :
    ns.filterMap t.form? = spread a (ns.filterMap fun n => (t.item? n).map Item.bare) ∧
      b = a + span (ns.filterMap fun n => (t.item? n).map Item.bare) := by
  induction ns generalizing a with
  | nil => exact ⟨rfl, Eq.symm h⟩
  | cons n ns ih =>
    obtain ⟨y, hy, address, -, rest⟩ := h.head
    have item := item?_of_node? hy
    have form : t.form? n = some ((a : Int), y.item.bare) := form?_eq_some.2 ⟨y.item, item, by rw [address?, hy, ← address]; rfl, rfl⟩
    rw [full n List.mem_cons_self y.item item] at rest
    obtain ⟨spread_eq, end_eq⟩ := ih rest fun k hk => full k (List.mem_cons_of_mem _ hk)
    rw [List.filterMap_cons, form, List.filterMap_cons, item, Option.map_some, spread, Item.bare_codeUnits, spread_eq, span_cons,
      Item.bare_codeUnits, end_eq]
    exact ⟨rfl, by omega⟩

theorem mem_bareItems {x : Item} : x ∈ t.bareItems ↔ ∃ n ∈ t.items.toList, ∃ y, t.item? n = some y ∧ y.bare = x := by
  simp [bareItems, List.mem_filterMap]

namespace Storable

variable (h : Storable t)
include h

theorem raw_bareItems : ∀ x ∈ t.bareItems, x.Raw := by
  intro x hx
  obtain ⟨n, hn, y, hy, rfl⟩ := mem_bareItems.1 hx
  exact h.raw n hn y hy

theorem span_eq : span t.bareItems = t.units := by
  have := (h.laid.spread_eq h.full).2
  rw [this, Nat.zero_add]
  rfl

theorem exists_node {q : Int × Item} (hq : q ∈ spread 0 t.bareItems) :
    ∃ n ∈ t.items.toList, ∃ x, t.item? n = some x ∧ t.address? n = some q.1 ∧ x.bare = q.2 := by
  rw [bareItems, ← (h.laid.spread_eq h.full).1, List.mem_filterMap] at hq
  obtain ⟨n, hn, form⟩ := hq
  exact ⟨n, hn, form?_eq_some.1 form⟩

theorem aligned : Aligned t.bareItems := by
  intro q hq payload
  obtain ⟨n, hn, x, hx, address, bare⟩ := h.exists_node hq
  exact h.laid.aligned hn hx (by rw [← Item.bare_isPayload, bare, payload]) address

theorem switchOnly : SwitchOnly t.bareItems := by
  intro q hq table p hp dest
  obtain ⟨n, hn, y, hy, there, tableBare⟩ := h.exists_node hq
  obtain ⟨k, hk, x, hx, here, bare⟩ := h.exists_node hp
  obtain ⟨j, d, e, has, data, sum⟩ := dest?_eq_some.1 dest
  obtain ⟨i, rfl, rfl⟩ := Item.eq_plain_of_bare (bare.trans e)
  obtain ⟨m, a, b, named, located, address, offset⟩ := (h.written k hk _ hx).target i rfl has
  obtain rfl : m = n := by
    refine h.increasing.address?_inj (h.linked.mem_of_named? named) hn address ?_
    rw [there]
    rw [here] at located
    cases located
    rw [show Instruction.data { i with target := .none, isPadding := false } = i.data from rfl, offset] at data
    cases data
    exact congrArg some (by omega)
  rw [← bare]
  exact h.only k hk i m y hx has named hy (by rw [← Item.owner?_bare, tableBare, table])

theorem ascending_bareItems : Ascending t.bareItems := by
  intro x hx u e
  obtain ⟨n, hn, y, hy, rfl⟩ := mem_bareItems.1 hx
  cases y with
  | sparse q =>
    cases e
    exact h.ascending n hn q hy
  | _ => cases e

theorem charts : Charts t.bareItems t where
  linked := h.linked
  increasing := h.increasing
  form := (h.laid.spread_eq h.full).1
  raw := h.raw_bareItems
  written := h.written
  claimed := h.claimed
  only := h.switchOnly
  small := h.span_eq ▸ h.small

theorem bytes_eq : t.bytes = t.bareItems.flatMap Item.bytes :=
  (bytes_of_contents (a := 0) ((contents_form? t).trans (h.laid.spread_eq h.full).1)).1

/-- Decoding the bytes of a `Storable` sequence gives one that is `Alike`. -/
theorem exists_decode (hc : c.Sane) {cell : Cell} (size : s.size = some cell) (fits : cell.get = t.units) (depth : s.depth = 0)
    (spans : c.Spans t.bytes c') : ∃ u, (decode c).Gives s c' u ∧ Current u ∧ Alike t u ∧ u.moves = s.moves := by
  have scan : Scan c t.bareItems c' := (scan_iff hc).2 ⟨h.raw_bareItems, h.bytes_eq ▸ spans⟩
  have whole : span t.bareItems = cell.get.toNat := by rw [h.span_eq, fits, Int.toNat_natCast]
  obtain ⟨u, run⟩ := (exists_decode_iff size).2 ⟨_, scan, whole, h.charts.linkable h.matched⟩
  obtain ⟨current, -, moves⟩ := current_decode hc run scan h.aligned h.switchOnly h.ascending_bareItems depth (by
    intro cell' e
    rw [size] at e
    cases e
    omega)
  obtain ⟨contents, units⟩ := contents_decode hc run scan h.aligned h.switchOnly.switched
  have charts : Charts t.bareItems u := {
    linked := current.linked
    increasing := current.increasing
    form := (contents_form? u).symm.trans contents
    raw := h.raw_bareItems
    written := current.written
    claimed := current.claimed
    only := h.switchOnly
    small := h.span_eq ▸ h.small }
  exact ⟨u, run, current, ⟨charts.outline_eq.trans h.charts.outline_eq.symm, units.trans h.span_eq⟩, moves⟩

end Storable

end Sequence

end Dalvik
