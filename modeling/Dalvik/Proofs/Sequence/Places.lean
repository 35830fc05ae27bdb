import Dalvik.Proofs.Sequence.Filled
import Dalvik.Proofs.Sequence.Order
import Dalvik.Proofs.Sequence.Snug

/-!
# Where items stand

The addresses in a snug sequence can be computed from the sizes of the items that are not padding
and from which of them are payloads (`Snug.stops`), and its bytes from those of these items
(`Snug.spelled`). A row of items that are not padding and have no owner is laid out under the
handles it has (`lays_filled`).
-/

namespace Dalvik

/-- Whether the item is a payload, and its code units. -/
def Item.room (x : Item) : Bool × Nat := (x.isPayload, x.codeUnits)

theorem Item.Echo.setOwner {R : Handle → Handle → Prop} {x y : Item} (h : x.Echo R y) (o : Handle) : x.Echo R (y.setOwner o) := by
  have repeats : x.Repeats (y.setOwner o) := Item.repeats_setOwner.2 h.repeats
  cases y with
  | plain i => exact h
  | array a => exact h
  | _ => exact ⟨h.shaped, h.opcode, h.isPayload, h.isPadding, h.codeUnits, repeats, h.leads⟩

namespace Sequence

variable {s t base : Sequence} {xs : List Nat} {ys : List Item} {a b n : Nat}

/-! ## Addresses -/

/-- The addresses of items of the given sizes, payloads at even addresses, and the address of the end. -/
def stops : Nat → List (Bool × Nat) → List Nat
  | a, [] => [a]
  | a, (payload, units) :: rooms =>
    let a := if payload then a + a % 2 else a
    a :: stops (a + units) rooms

theorem stops_odd {units : Nat} {rooms : List (Bool × Nat)} (odd : a % 2 = 1) :
    stops (a + 1) ((true, units) :: rooms) = stops a ((true, units) :: rooms) := by
  have even : (a + 1) % 2 = 0 := by omega
  simp only [stops, if_true, even, odd, Nat.add_zero]

theorem stops_even {payload : Bool} {units : Nat} {rooms : List (Bool × Nat)} (even : payload = true → a % 2 = 0) :
    stops a ((payload, units) :: rooms) = a :: stops (a + units) rooms := by
  cases payload with
  | false => rfl
  | true => simp only [stops, if_true, even rfl, Nat.add_zero]

/-- The bytes of items at the given addresses, with zeros between them. -/
def spelled : Int → List (Int × Nat × Bytes) → Bytes
  | _, [] => []
  | a, (p, units, b) :: rest => List.replicate (2 * (p - a).toNat) 0 ++ b ++ spelled (p + units) rest

theorem spelled_here {a units : Nat} {b : Bytes} {rest : List (Int × Nat × Bytes)} :
    spelled a (((a : Int), units, b) :: rest) = b ++ spelled ((a + units : Nat) : Int) rest := by
  simp [spelled]

/-- A zero code unit fills a gap. -/
theorem spelled_gap {a units : Nat} {b : Bytes} {rest : List (Int × Nat × Bytes)} :
    [0, 0] ++ spelled ((a + 1 : Nat) : Int) ((((a + 1 : Nat) : Int), units, b) :: rest) =
      spelled a ((((a + 1 : Nat) : Int), units, b) :: rest) := by
  have gap : (((a + 1 : Nat) : Int) - a).toNat = 1 := by omega
  simp only [spelled, gap, Int.sub_self, Int.toNat_zero]
  rfl

/-- The bytes of the item at a node. -/
def bytesOf (s : Sequence) (n : Nat) : Bytes := ((s.item? n).map Item.bytes).getD []

theorem bytesOf_of_item? {x : Item} (hx : s.item? n = some x) : s.bytesOf n = x.bytes := by
  rw [bytesOf, hx, Option.map_some, Option.getD_some]

theorem bytes_eq (linked : Linked s s.items.toList) : s.bytes = s.items.toList.flatMap s.bytesOf := by
  have each : ∀ ns : List Nat, (∀ n ∈ ns, ∃ x, s.node? n = some x) →
      ((ns.filterMap s.node?).flatMap fun x => x.item.pieces).flatten = ns.flatMap s.bytesOf := by
    intro ns there
    induction ns with
    | nil => rfl
    | cons n ns ih =>
      obtain ⟨x, hx⟩ := there n List.mem_cons_self
      rw [List.filterMap_cons, hx, List.flatMap_cons, List.flatten_append, ih fun m hm => there m (List.mem_cons_of_mem _ hm),
        List.flatMap_cons, bytesOf_of_item? (item?_of_node? hx), Item.bytes]
  exact each _ fun n hn => linked.node?_of_mem hn

theorem solid_of_node? {y : Node} (hy : s.node? n = some y) : s.solid n = !y.item.isPadding := by
  rw [solid, item?_of_node? hy, Option.any_some]

section Row

variable (pads : ∀ i n : Nat, xs[i]? = some n → IsPad s n → ∃ p m x, s.address? n = some p ∧ p % 2 = 1 ∧ xs[i + 1]? = some m ∧
  s.item? m = some x ∧ x.isPayload = true)
include pads

/-- A payload follows padding. -/
theorem exists_next {ns : List Nat} (row : xs = n :: ns) (pad : IsPad s n) : ∃ m ms p x, ns = m :: ms ∧ s.solid m = true ∧
    s.address? n = some p ∧ p % 2 = 1 ∧ s.item? m = some x ∧ x.isPayload = true := by
  subst row
  obtain ⟨p, m, x, hp, odd, next, hx, payload⟩ := pads 0 n rfl pad
  obtain ⟨ms, rfl⟩ : ∃ ms, ns = m :: ms := by
    cases ns with
    | nil => cases next
    | cons k ms =>
      cases next
      exact ⟨ms, rfl⟩
  refine ⟨m, ms, p, x, rfl, ?_, hp, odd, hx, payload⟩
  rw [solid, hx, Option.any_some]
  cases x with
  | plain i => cases payload
  | _ => rfl

/-- The items that are not padding are at the addresses that `stops` computes. -/
theorem Laid.stops (laid : Laid s a xs b) : (xs.filter s.solid).map s.address? ++ [some (b : Int)] =
    (Sequence.stops a ((xs.filter s.solid).filterMap fun n => (s.item? n).map Item.room)).map fun p : Nat => some (p : Int) := by
  induction xs generalizing a with
  | nil =>
    obtain rfl : a = b := laid
    rfl
  | cons n xs ih =>
    obtain ⟨y, hy, address, even, rest⟩ := laid.head
    have item := item?_of_node? hy
    have here : s.address? n = some (a : Int) := by rw [address?, hy, Option.map_some, address]
    have later := ih (fun i => pads (i + 1)) rest
    cases padding : y.item.isPadding with
    | true =>
      -- The payload comes next, and stands where it would stand without the padding.
      obtain ⟨m, ms, p, x, rfl, hard, hp, odd, hx, payload⟩ := exists_next pads rfl ⟨_, item, padding⟩
      have soft : s.solid n = false := by rw [solid_of_node? hy, padding]; rfl
      have extent : y.item.extent = 1 := by rw [Item.extent, if_pos padding]
      obtain rfl := Option.some.inj (hp.symm.trans here)
      rw [List.filter_cons_of_neg (by rw [soft]; exact Bool.false_ne_true), later, extent, List.filter_cons_of_pos hard,
        List.filterMap_cons, hx, Option.map_some]
      simp only [Item.room, payload]
      rw [stops_odd (by omega)]
    | false =>
      have hard : s.solid n = true := by rw [solid_of_node? hy, padding]; rfl
      have extent : y.item.extent = y.item.codeUnits := by rw [Item.extent, padding]; rfl
      rw [List.filter_cons_of_pos hard, List.map_cons, List.cons_append, later, here, extent, List.filterMap_cons, item,
        Option.map_some]
      simp only [Item.room, stops_even even, List.map_cons]

/-- If padding is zero, the bytes of a row are those that `spelled` makes of the items that are not padding. -/
theorem Laid.spelled {f : Nat → Bytes} (laid : Laid s a xs b) (zero : ∀ n ∈ xs, IsPad s n → f n = [0, 0]) :
    xs.flatMap f = Sequence.spelled a ((xs.filter s.solid).map fun n => ((s.address? n).getD 0, s.unitsOf n, f n)) := by
  induction xs generalizing a with
  | nil => rfl
  | cons n xs ih =>
    obtain ⟨y, hy, address, -, rest⟩ := laid.head
    have item := item?_of_node? hy
    have here : s.address? n = some (a : Int) := by rw [address?, hy, Option.map_some, address]
    have later := ih (fun i => pads (i + 1)) rest fun m hm => zero m (List.mem_cons_of_mem _ hm)
    cases padding : y.item.isPadding with
    | true =>
      obtain ⟨m, ms, -, x, rfl, hard, -⟩ := exists_next pads rfl ⟨_, item, padding⟩
      have soft : s.solid n = false := by rw [solid_of_node? hy, padding]; rfl
      have extent : y.item.extent = 1 := by rw [Item.extent, if_pos padding]
      obtain ⟨z, hz, after, -⟩ := rest.head
      have there : s.address? m = some ((a + 1 : Nat) : Int) := by rw [address?, hz, Option.map_some, after, extent]
      have dropped : (n :: m :: ms).filter s.solid = m :: ms.filter s.solid := by
        rw [List.filter_cons_of_neg (by rw [soft]; exact Bool.false_ne_true), List.filter_cons_of_pos hard]
      rw [List.filter_cons_of_pos hard, List.map_cons, there, Option.getD_some, extent] at later
      rw [dropped, List.map_cons, there, Option.getD_some, List.flatMap_cons, later, zero n List.mem_cons_self ⟨_, item, padding⟩,
        spelled_gap]
    | false =>
      have hard : s.solid n = true := by rw [solid_of_node? hy, padding]; rfl
      have extent : y.item.extent = s.unitsOf n := by
        rw [Item.extent, padding, unitsOf_of_item? item]
        rfl
      rw [List.flatMap_cons, later, List.filter_cons_of_pos hard, List.map_cons, here, Option.getD_some, spelled_here, extent]

end Row

theorem Snug.stops (h : Snug s) : (s.items.toList.filter s.solid).map s.address? ++ [some (s.units : Int)] =
    (Sequence.stops 0 ((s.items.toList.filter s.solid).filterMap fun n => (s.item? n).map Item.room)).map fun p : Nat => some (p : Int) :=
  h.laid.stops h.pads

/-- If padding is zero, the bytes of a snug sequence are those that `spelled` makes of the items that are not padding.
-/
theorem Snug.spelled {f : Nat → Bytes} (h : Snug s) (zero : ∀ n ∈ s.items.toList, IsPad s n → f n = [0, 0]) : s.items.toList.flatMap f =
    Sequence.spelled 0 ((s.items.toList.filter s.solid).map fun n => ((s.address? n).getD 0, s.unitsOf n, f n)) :=
  h.laid.spelled h.pads zero

/-! ## Laying out what has no padding -/

namespace Layout

variable {l : Layout}

/-- If there is no padding, a step of the layout forgets nothing. -/
theorem step_solid (pad : l.pad = none) {x : Node} (hx : l.sequence.node? n = some x) (solid : x.item.isPadding = false) :
    (l.step n).pad = none ∧ (l.step n).sequence.moves = l.sequence.moves ∧
      ∀ m y, l.sequence.item? m = some y → (l.step n).sequence.item? m = some y := by
  have placed : l.placePad.pad = none ∧ l.placePad.sequence.moves = l.sequence.moves ∧
      ∀ m y, l.sequence.item? m = some y → l.placePad.sequence.item? m = some y := by
    refine ⟨rfl, ?_, fun m y hy => ?_⟩
    · simp only [placePad, pad]
      simp
    · have old : m ≠ l.sequence.nodes.size := by
        rintro rfl
        simp [item?] at hy
      simp only [placePad, pad]
      simp only [item?_setAddress, item?_register, item?_create, if_neg old, hy]
  have drop : ∀ l' : Layout, l'.pad = none → ∀ next, l'.dropPad next = l' := by
    intro l' absent next
    rw [dropPad, absent]
  unfold step
  simp only [hx, solid, Bool.false_eq_true, if_false]
  split
  · rw [drop _ placed.1]
    exact ⟨placed.1, placed.2.1, fun m y hy => (item?_setAddress _).trans (placed.2.2 m y hy)⟩
  · rw [drop _ pad]
    exact ⟨pad, rfl, fun m y hy => (item?_setAddress _).trans hy⟩

theorem Valid.foldl_solid (h : Valid s l xs) (pad : l.pad = none) (solid : ∀ n ∈ xs, s.solid n = true) :
    (xs.foldl Layout.step l).pad = none ∧ (xs.foldl Layout.step l).sequence.moves = l.sequence.moves ∧
      ∀ m y, l.sequence.item? m = some y → (xs.foldl Layout.step l).sequence.item? m = some y := by
  induction xs generalizing l with
  | nil => exact ⟨pad, rfl, fun _ _ hy => hy⟩
  | cons n xs ih =>
    obtain ⟨x, hx⟩ := h.linked.node?_of_mem (n := n) (by simp)
    have hard : x.item.isPadding = false := by
      by_contra padding
      have soft := solid_eq_false_of_isPad h.evolves ⟨_, item?_of_node? hx, by simpa using padding⟩
      rw [solid n List.mem_cons_self] at soft
      cases soft
    obtain ⟨pad', moves, items⟩ := step_solid pad hx hard
    obtain ⟨pad'', moves', items'⟩ := ih h.step pad' fun m hm => solid m (List.mem_cons_of_mem _ hm)
    exact ⟨pad'', moves'.trans moves, fun m y hy => items' m y (items m y hy)⟩

end Layout

/-- Laying out items none of which is padding moves no reference and changes no item. -/
theorem Linked.layout_solid (linked : Linked s s.items.toList) (solid : ∀ n ∈ s.items.toList, s.solid n = true) :
    s.layout.moves = s.moves ∧ ∀ m y, s.item? m = some y → s.layout.item? m = some y := by
  have start : Layout.Valid s { sequence := s } s.items.toList := ⟨by simpa using linked, rfl, by simp, .refl⟩
  obtain ⟨pad, moves, items⟩ := start.foldl_solid rfl solid
  rw [layout_eq]
  simp only [Layout.dropPad, pad, moves, true_and]
  exact items

theorem Reowned.solid (h : Reowned s t) (n : Nat) : t.solid n = s.solid n := by
  rcases h.item? n with e | ⟨k, e⟩
  · rw [Sequence.solid, e, Sequence.solid]
  · rw [Sequence.solid, e, Sequence.solid]
    cases s.item? n with
    | none => rfl
    | some x => cases x <;> rfl

/-- The items of `t` that are not padding are `ys`, each under the handle of its number and with its owner. -/
structure Lays (ys : List Item) (t : Sequence) : Prop where
  linked : Linked t t.items.toList
  snug : Snug t
  claimed : Claimed t
  order : t.items.toList.filter t.solid = List.range ys.length
  handle? : ∀ n < ys.length, t.handle? n = some n
  item? : ∀ n y, ys[n]? = some y → ∃ o, t.item? n = some (y.setOwner o)
  padding : ∀ n z, ys.length ≤ n → t.item? n = some z → z.unlinked = (Item.plain .padding).unlinked

theorem owned_filled (unowned : ∀ y ∈ ys, ∀ o, y.owner? = some o → o < 0) : (filled base ys).owned = [] := by
  rw [owned, List.filter_eq_nil_iff]
  intro n _
  rw [node?_filled]
  cases hy : ys[n]? with
  | none => simp
  | some y =>
    have here := unowned y (List.mem_of_getElem? hy)
    cases owner : y.owner? with
    | none => simp [owner]
    | some o => simpa [owner] using here o owner

section Filled

variable (solid : ∀ y ∈ ys, y.isPadding = false)
include solid

theorem solid_filled (n : Nat) : (filled base ys).solid n = decide (n < ys.length) := by
  rw [Sequence.solid, item?_filled]
  by_cases lt : n < ys.length
  · rw [List.getElem?_eq_getElem lt, Option.any_some, solid _ (List.getElem_mem lt), decide_eq_true lt]
    rfl
  · rw [List.getElem?_eq_none (Nat.le_of_not_lt lt), decide_eq_false lt]
    rfl

theorem lays_layout : Lays ys (filled base ys).claimed.layout ∧ (filled base ys).claimed.layout.moves = base.moves := by
  have linked := linked_filled base ys
  have reowned := reowned_claimed (filled base ys)
  have items : (filled base ys).claimed.items.toList = List.range ys.length := by
    rw [reowned.items]
    rfl
  have linked₁ : Linked (filled base ys).claimed (filled base ys).claimed.items.toList := by
    rw [reowned.items]
    exact reowned.linked linked
  have hard : ∀ n, (filled base ys).claimed.solid n = decide (n < ys.length) := fun n =>
    (reowned.solid n).trans (solid_filled solid n)
  obtain ⟨moves, stays⟩ := linked₁.layout_solid fun n hn => by
    rw [items, List.mem_range] at hn
    rw [hard, decide_eq_true hn]
  have order := linked₁.layout_order
  have evolves := linked₁.layout_evolves
  have snug := linked₁.layout_snug
  have linked₂ := linked₁.layout.1
  have handle₁ : ∀ n < ys.length, (filled base ys).claimed.handle? n = some n := fun n lt => by
    rw [reowned.handle?, handle?_filled, if_pos lt]
  have item₁ : ∀ n y, ys[n]? = some y → ∃ o, (filled base ys).claimed.item? n = some (y.setOwner o) := by
    intro n y hy
    have mem : n ∈ (filled base ys).items.toList := List.mem_range.2 (List.getElem?_eq_some_iff.1 hy).1
    exact ⟨_, by rw [item?_claimed_of_mem mem, item?_filled, hy, Option.map_some]⟩
  have claimed₁ := claimed_claimed (filled base ys)
  have absent : ∀ n, ys.length ≤ n → (filled base ys).claimed.item? n = none := by
    intro n le
    rw [linked.item?_claimed_of_not_mem (fun mem => Nat.not_lt.2 le (List.mem_range.1 mem)), item?_filled, List.getElem?_eq_none le]
  have moved : (filled base ys).claimed.layout.moves = base.moves := moves.trans reowned.moves
  generalize (filled base ys).claimed.layout = t at *
  generalize (filled base ys).claimed = s at *
  have there : ∀ n < ys.length, n ∈ t.items.toList := fun n lt => by
    have mem : n ∈ t.items.toList.filter s.solid := by
      rw [order, List.mem_filter, items]
      exact ⟨List.mem_range.2 lt, by rw [hard, decide_eq_true lt]⟩
    exact (List.mem_filter.1 mem).1
  have handle? : ∀ n < ys.length, t.handle? n = some n := fun n lt => by
    obtain ⟨k, hk⟩ := linked₂.handle?_of_mem (there n lt)
    obtain ⟨o, ho⟩ := item₁ n ys[n] (List.getElem?_eq_getElem lt)
    have before := evolves.handles n k (by rw [ho]; rfl) hk
    rw [handle₁ n lt] at before
    rw [hk, before]
  have padding : ∀ n z, ys.length ≤ n → t.item? n = some z → z.unlinked = (Item.plain .padding).unlinked :=
    fun n z le hz => evolves.fresh n z hz (absent n le)
  have same : ∀ n, t.solid n = s.solid n := by
    intro n
    rcases Nat.lt_or_ge n ys.length with lt | ge
    · obtain ⟨o, ho⟩ := item₁ n ys[n] (List.getElem?_eq_getElem lt)
      rw [Sequence.solid, Sequence.solid, stays n _ ho, ho]
    · rw [hard, decide_eq_false (Nat.not_lt.2 ge), Sequence.solid]
      cases hz : t.item? n with
      | none => rfl
      | some z =>
        rw [Option.any_some, ← Item.unlinked_isPadding, padding n z ge hz]
        rfl
  have order : t.items.toList.filter t.solid = List.range ys.length := by
    rw [show t.solid = s.solid from funext same, order, items, List.filter_eq_self]
    exact fun n hn => by rw [hard, decide_eq_true (List.mem_range.1 hn)]
  refine ⟨⟨linked₂, snug, ?_, order, handle?, fun n y hy => ?_, padding⟩, moved⟩
  · intro n hn x o hx owner
    -- A table is one of the items, and only items claim it.
    have lt : n < ys.length := by
      by_contra ge
      have pad := padding n x (Nat.le_of_not_lt ge) hx
      cases x with
      | plain i => cases owner
      | array r => cases owner
      | packed p => cases pad
      | sparse u => cases pad
    obtain ⟨o', ho'⟩ := item₁ n ys[n] (List.getElem?_eq_getElem lt)
    have before := stays n _ ho'
    rw [hx] at before
    cases before
    have claims : ∀ w ∈ List.range ys.length, (t.claims? w = some n ↔ s.claims? w = some n) := by
      intro w hw
      obtain ⟨q, hq⟩ := item₁ w _ (List.getElem?_eq_getElem (List.mem_range.1 hw))
      have named : ∀ k, t.named? k = some n ↔ s.named? k = some n := fun k => by
        rw [linked₂.named?_iff, linked₁.named?_iff, handle? n lt, handle₁ n lt]
      rw [claims?_eq_some, claims?_eq_some, Claims, Claims, stays w _ hq, hq]
      simp only [named]
    have switches : ∀ w ∈ t.items.toList, t.claims? w = some n → t.solid w = true := by
      intro w _ e
      obtain ⟨i, hi, switch, -⟩ := claims?_eq_some.1 e
      rw [Sequence.solid, hi, Option.any_some]
      rcases Nat.lt_or_ge w ys.length with lt' | ge
      · have := same w
        rw [hard, decide_eq_true lt', Sequence.solid, hi] at this
        exact this
      · have pad := congrArg Item.opcode (padding w _ ge hi)
        rw [Item.unlinked_opcode, Item.unlinked_opcode] at pad
        rw [show i.opcode = Instruction.padding.opcode from pad] at switch
        exact absurd switch (by decide)
    rw [← lastTo_filter switches, order, lastTo_congr claims, claimed₁ n (by rw [items]; exact List.mem_range.2 lt) _ o ho' owner, items]
    cases last : lastTo s.claims? n (List.range ys.length) with
    | none => rfl
    | some w =>
      have lt' := List.mem_range.1 (mem_of_lastTo last).1
      exact (handleOf_of_handle? (handle₁ w lt')).trans (handleOf_of_handle? (handle? w lt')).symm
  · obtain ⟨o, ho⟩ := item₁ n y hy
    exact ⟨o, stays n _ ho⟩

/-- Laying out a row keeps its items under their handles, and moves no reference. -/
theorem lays_filled (unowned : ∀ y ∈ ys, ∀ o, y.owner? = some o → o < 0) :
    Lays ys (filled base ys).relink ∧ (filled base ys).relink.moves = base.moves := by
  have kept : Kept (filled base ys) := by
    rw [Kept, owned_filled unowned]
    nofun
  obtain ⟨lays, moves⟩ : Lays ys (filled base ys).claimed.layout ∧ (filled base ys).claimed.layout.moves = base.moves := lays_layout solid
  rw [Sequence.relink, kept.claimTables]
  generalize (filled base ys).claimed.layout = t at lays moves ⊢
  refine ⟨⟨lays.linked.congr (fun _ => rfl) rfl, lays.snug.congr rfl rfl fun _ => rfl, lays.claimed.congr rfl rfl rfl,
    lays.order, lays.handle?, lays.item?, lays.padding⟩, moves⟩

end Filled

end Sequence

end Dalvik
