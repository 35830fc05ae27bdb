import Dalvik.Proofs.Sequence.Ownership
import Dalvik.Proofs.Sequence.Search

/-!
# Sequences that laying out leaves alone

In a `Snug` sequence the items are in a row, and padding is only where a payload needs it. `layout`
gives a snug sequence, and does not change one. `claimTables` drops nothing if every table that has
an owner is claimed again (`Kept`), and changes nothing if every table is owned by the switch that
claims it (`Claimed`).
-/

namespace Dalvik.Sequence

variable {s t : Sequence} {n m : Nat} {xs : List Nat} {a b : Nat} {o : Handle}

/-- A node is determined by its item, its handle and its address. -/
theorem node?_ext (item : t.item? m = s.item? n) (handle : t.handle? m = s.handle? n)
    (address : t.address? m = s.address? n) : t.node? m = s.node? n := by
  unfold item? handle? address? at *
  cases hx : t.node? m with
  | none =>
    rw [hx] at item
    cases hy : s.node? n with
    | none => rfl
    | some y => simp [hy] at item
  | some x =>
    cases hy : s.node? n with
    | none => simp [hx, hy] at item
    | some y =>
      cases x
      cases y
      simp_all

/-! ## Layout -/

theorem setAddress_self {p : Int} (h : s.address? n = some p) : s.setAddress n p = s := by
  obtain ⟨x, hx, rfl⟩ := Option.map_eq_some_iff.1 h
  unfold setAddress modifyNode
  have same : s.nodes.modify n (fun y => { y with address := x.address }) = s.nodes := by
    refine Array.ext_getElem? fun i => ?_
    rw [Array.getElem?_modify]
    split
    · next e =>
      subst e
      rw [show s.nodes[n]? = some x from hx, Option.map_some]
    · rfl
  rw [same]

structure Snug (s : Sequence) : Prop where
  laid : Laid s 0 s.items.toList s.units
  /-- Padding is at an odd address, and a payload follows it. -/
  pads : ∀ i n : Nat, s.items.toList[i]? = some n → IsPad s n → ∃ p m x, s.address? n = some p ∧ p % 2 = 1 ∧
    s.items.toList[i + 1]? = some m ∧ s.item? m = some x ∧ x.isPayload = true

theorem Snug.congr (h : Snug s) (items : t.items = s.items) (units : t.units = s.units)
    (shape? : ∀ n, t.shape? n = s.shape? n) : Snug t where
  laid := by
    rw [items, units]
    exact h.laid.congr fun n _ => shape? n
  pads i n hi hn := by
    rw [items] at hi ⊢
    rw [isPad_iff_shape?, shape?, ← isPad_iff_shape?] at hn
    obtain ⟨p, m, x, hp, odd, next, hx, payload⟩ := h.pads i n hi hn
    obtain ⟨y, hy, rfl⟩ := item?_eq_some.1 hx
    have shape := (shape? m).trans (shape?_of_node? hy)
    obtain ⟨z, hz, e⟩ := Option.map_eq_some_iff.1 shape
    refine ⟨p, m, z.item, ?_, odd, next, item?_of_node? hz, ?_⟩
    · rw [address?_eq_shape?, shape?, ← address?_eq_shape?, hp]
    · have := congrArg (fun q => q.2.isPayload) e
      simpa [Node.shape, payload] using this

/-- The first item of a row. -/
theorem Laid.head (h : Laid s a (n :: xs) b) : ∃ y, s.node? n = some y ∧ y.address = a ∧
    (y.item.isPayload = true → a % 2 = 0) ∧ Laid s (a + y.item.extent) xs b := by
  obtain ⟨x, hx, even, rest⟩ := h
  obtain ⟨y, hy, e⟩ := Option.map_eq_some_iff.1 hx
  obtain ⟨address, rfl⟩ := Prod.mk.inj e
  exact ⟨y, hy, address, by simpa using even, by simpa using rest⟩

theorem IsPad.item {y : Node} (h : IsPad s n) (hy : s.node? n = some y) :
    y.item.isPadding = true ∧ y.item.isPayload = false ∧ y.item.extent = 1 := by
  obtain ⟨x, hx, padding⟩ := h
  rw [item?_of_node? hy] at hx
  cases hx
  refine ⟨padding, ?_, by rw [Item.extent, if_pos padding]⟩
  cases e : y.item <;> simp_all [Item.isPadding, Item.isPayload]

/-! ### A layout that finds everything in place -/

section Steps

variable {ys : Array Nat} {y : Node}

theorem step_padding (hy : s.node? n = some y) (padding : y.item.isPadding = true) :
    Layout.step { sequence := s, placed := ys, address := a } n =
      { sequence := s, placed := ys, pad := some n, address := a } := by
  simp only [Layout.step, hy, if_pos padding, Layout.dropPad]

theorem step_item (hy : s.node? n = some y) (solid : ¬ y.item.isPadding = true) (address : y.address = a)
    (even : y.item.isPayload = true → a % 2 = 0) :
    Layout.step { sequence := s, placed := ys, address := a } n =
      { sequence := s, placed := ys.push n, address := a + y.item.codeUnits } := by
  have here : s.address? n = some (a : Int) := by rw [address?, hy, Option.map_some, address]
  have isEven : ¬ (y.item.isPayload && a % 2 == 1) = true := by
    simp only [Bool.and_eq_true, beq_iff_eq, not_and]
    intro payload
    have := even payload
    omega
  simp only [Layout.step, hy, if_neg solid, if_neg isEven, Layout.dropPad, setAddress_self here]

theorem step_payload {p : Nat} (hp : s.address? p = some (a : Int)) (odd : a % 2 = 1) (hy : s.node? n = some y)
    (payload : y.item.isPayload = true) (address : y.address = (a + 1 : Nat)) :
    Layout.step { sequence := s, placed := ys, pad := some p, address := a } n =
      { sequence := s, placed := (ys.push p).push n, address := a + 1 + y.item.codeUnits } := by
  have there : s.address? n = some ((a + 1 : Nat) : Int) := by rw [address?, hy, Option.map_some, address]
  have solid : ¬ y.item.isPadding = true := by cases e : y.item <;> simp_all [Item.isPadding, Item.isPayload]
  have isOdd : (y.item.isPayload && a % 2 == 1) = true := by simp [payload, odd]
  simp only [Layout.step, hy, if_neg solid, if_pos isOdd, Layout.placePad, Layout.dropPad, setAddress_self hp,
    setAddress_self there]

end Steps

namespace Snug

variable (h : Snug s)
include h

/-- A payload follows padding. -/
theorem next_of_pad {ys zs : List Nat} (hn : IsPad s n) (split : s.items.toList = ys ++ n :: zs) :
    ∃ p m x ms, s.address? n = some p ∧ p % 2 = 1 ∧ zs = m :: ms ∧ s.item? m = some x ∧ x.isPayload = true := by
  obtain ⟨p, m, x, hp, odd, next, hx, payload⟩ := h.pads ys.length n (by simp [split]) hn
  rw [split, List.getElem?_append_right (by omega), Nat.add_sub_cancel_left, List.getElem?_cons_succ] at next
  cases zs with
  | nil => cases next
  | cons z zs =>
    obtain rfl : z = m := by simpa using next
    exact ⟨p, z, x, zs, hp, odd, rfl, hx, payload⟩

/-- A layout in progress that has changed nothing so far, perhaps with pending padding. -/
theorem foldl_step (zs ys : List Nat) (pad : Option Nat) (a : Nat) (split : s.items.toList = ys ++ (pad.toList ++ zs))
    (laid : Laid s a (pad.toList ++ zs) s.units) (isPad : ∀ p ∈ pad, IsPad s p) :
    zs.foldl Layout.step { sequence := s, placed := ys.toArray, pad, address := a } =
      { sequence := s, placed := s.items, address := s.units } := by
  induction zs generalizing ys pad a with
  | nil =>
    cases pad with
    | some p =>
      have split : s.items.toList = ys ++ p :: [] := split
      obtain ⟨_, m, _, ms, _, _, next, _⟩ := h.next_of_pad (isPad p rfl) split
      exact absurd next (List.cons_ne_nil m ms).symm
    | none =>
      obtain rfl : a = s.units := laid
      simp only [List.foldl_nil, Layout.mk.injEq, true_and, and_true]
      simpa using congrArg List.toArray split.symm
  | cons z zs ih =>
    rw [List.foldl_cons]
    cases pad with
    | none =>
      obtain ⟨y, hy, address, even, rest⟩ := Laid.head laid
      by_cases padding : y.item.isPadding = true
      · rw [step_padding hy padding]
        refine ih ys (some z) a split laid fun p hp => ?_
        cases hp
        exact ⟨_, item?_of_node? hy, padding⟩
      · rw [step_item hy padding address even, List.push_toArray]
        rw [Item.extent, if_neg padding] at rest
        exact ih (ys ++ [z]) none (a + y.item.codeUnits) (by simpa using split) rest (by simp)
    | some p =>
      obtain ⟨q, m, x, ms, hq, odd, next, hx, payload⟩ := h.next_of_pad (isPad p rfl) split
      obtain ⟨rfl, rfl⟩ := List.cons.inj next
      obtain ⟨w, hw, address, -, laid⟩ := Laid.head laid
      rw [((isPad p rfl).item hw).2.2] at laid
      obtain ⟨y, hy, address', -, rest⟩ := Laid.head laid
      have here : s.address? p = some (a : Int) := by rw [address?, hw, Option.map_some, address]
      rw [item?_of_node? hy] at hx
      cases hx
      rw [here] at hq
      cases hq
      rw [step_payload here (by omega) hy payload address', List.push_toArray, List.push_toArray]
      have solid : ¬ y.item.isPadding = true := fun padding => by
        have := (IsPad.item ⟨_, item?_of_node? hy, padding⟩ hy).2.1
        simp [payload] at this
      rw [Item.extent, if_neg solid] at rest
      exact ih (ys ++ [p] ++ [z]) none (a + 1 + y.item.codeUnits) (by simpa using split) rest (by simp)

/-- `layout` changes nothing. -/
theorem layout : s.layout = s := by
  have fold := h.foldl_step s.items.toList [] none 0 rfl h.laid (by simp)
  rw [layout_eq]
  simp only [fold, Layout.dropPad]

end Snug

/-! ### A layout puts everything in place -/

/-- Among the nodes, padding is at an odd address, and a payload follows it. -/
def Fitted (s : Sequence) (xs : List Nat) : Prop := ∀ (i n : Nat) p x, xs[i]? = some n → s.shape? n = some (p, x) →
  x.isPadding = true → p % 2 = 1 ∧ ∃ m q y, xs[i + 1]? = some m ∧ s.shape? m = some (q, y) ∧ y.isPayload = true

namespace Fitted

variable {ys : List Nat} {p q : Int} {x y : Item}

theorem congr (h : Fitted s xs) (shapes : ∀ n ∈ xs, t.shape? n = s.shape? n) : Fitted t xs := by
  intro i n p x hn hx padding
  rw [shapes n (List.mem_of_getElem? hn)] at hx
  obtain ⟨odd, m, q, y, hm, hy, payload⟩ := h i n p x hn hx padding
  exact ⟨odd, m, q, y, hm, by rw [shapes m (List.mem_of_getElem? hm), hy], payload⟩

theorem append (h : Fitted s xs) (h' : Fitted s ys) : Fitted s (xs ++ ys) := by
  intro i n p x hn hx padding
  rcases Nat.lt_or_ge i xs.length with lt | ge
  · rw [List.getElem?_append_left lt] at hn
    obtain ⟨odd, m, q, y, hm, rest⟩ := h i n p x hn hx padding
    exact ⟨odd, m, q, y, by rw [List.getElem?_append_left (List.getElem?_eq_some_iff.1 hm).1, hm], rest⟩
  · rw [List.getElem?_append_right ge] at hn
    obtain ⟨odd, m, q, y, hm, rest⟩ := h' _ n p x hn hx padding
    exact ⟨odd, m, q, y, by rw [List.getElem?_append_right (by omega), Nat.sub_add_comm ge, hm], rest⟩

theorem solid (hx : s.shape? n = some (p, x)) (solid : x.isPadding = false) : Fitted s [n] := by
  intro i m q y hm hy padding
  obtain rfl := List.mem_singleton.1 (List.mem_of_getElem? hm)
  rw [hx] at hy
  cases hy
  rw [solid] at padding
  cases padding

/-- Padding in front of a payload. -/
theorem pad (hx : s.shape? m = some (p, x)) (odd : p % 2 = 1) (hy : s.shape? n = some (q, y)) (payload : y.isPayload = true) :
    Fitted s [m, n] := by
  intro i k r z hk hz padding
  match i, hk with
  | 0, hk =>
    cases hk
    rw [hx] at hz
    cases hz
    exact ⟨odd, n, q, y, rfl, hy, payload⟩
  | 1, hk =>
    cases hk
    rw [hy] at hz
    cases hz
    cases y <;> simp_all [Item.isPadding, Item.isPayload]

theorem setAddress (h : Fitted s xs) (hx : s.shape? n = some (p, x)) (solid : x.isPadding = false) (q : Int) :
    Fitted (s.setAddress n q) xs := by
  intro i m r z hm hz padding
  rw [shape?_setAddress] at hz
  split at hz
  · next e =>
    subst e
    rw [hx] at hz
    cases hz
    rw [solid] at padding
    cases padding
  · obtain ⟨odd, k, r, y, hk, hy, payload⟩ := h i m r z hm hz padding
    refine ⟨odd, k, if n = k then q else r, y, hk, ?_, payload⟩
    rw [shape?_setAddress, hy]
    split <;> rfl

/-- If padding in a row is `Fitted`, the row is snug. -/
theorem snug (h : Fitted s s.items.toList) (laid : Laid s 0 s.items.toList s.units) : Snug s where
  laid
  pads i n hn pad := by
    obtain ⟨p, x, hx, padding⟩ := isPad_iff_shape?.1 pad
    obtain ⟨odd, m, q, y, hm, hy, payload⟩ := h i n p x hn hx padding
    obtain ⟨z, hz, e⟩ := Option.map_eq_some_iff.1 hy
    obtain ⟨-, rfl⟩ := Prod.mk.inj e
    refine ⟨p, m, z.item, address?_of_shape? hx, odd, hm, item?_of_node? hz, ?_⟩
    rwa [← Item.unlinked_isPayload]

end Fitted

namespace Layout

variable {l : Layout} {rest : List Nat}

theorem dropPad_shape? (l : Layout) (next : Handle) (n : Nat) : (l.dropPad next).sequence.shape? n = l.sequence.shape? n := by
  unfold dropPad
  split
  · exact shape?_forget next
  · rfl

theorem fitted_dropPad (h : Fitted l.sequence xs) (next : Handle) : Fitted (l.dropPad next).sequence xs :=
  h.congr fun m _ => dropPad_shape? l next m

/-- `placePad` places padding at the address that the layout has reached, and changes no other shape. -/
theorem exists_placePad (pads : ∀ q ∈ l.pad, IsPad l.sequence q) : ∃ p y, l.placePad.placed = l.placed.push p ∧
    l.placePad.sequence.shape? p = some ((l.address : Int), y) ∧
    ∀ m, m ≠ p → l.placePad.sequence.shape? m = l.sequence.shape? m := by
  cases hp : l.pad with
  | some p =>
    simp only [placePad, hp]
    obtain ⟨q, y, hy, -⟩ := isPad_iff_shape?.1 (pads p hp)
    refine ⟨p, y, rfl, ?_, fun m ne => ?_⟩
    · rw [shape?_setAddress, if_pos rfl, hy, Option.map_some]
    · rw [shape?_setAddress, if_neg (Ne.symm ne)]
  | none =>
    simp only [placePad, hp, create_fst]
    refine ⟨l.sequence.nodes.size, (Item.plain Instruction.padding).unlinked, rfl, ?_, fun m ne => ?_⟩
    · rw [shape?_setAddress, if_pos rfl, shape?_register, shape?_create, if_pos rfl, Option.map_some]
    · rw [shape?_setAddress, if_neg (Ne.symm ne), shape?_register, shape?_create, if_neg ne]

/-- A step of the layout places padding only in front of a payload. -/
theorem Valid.step_fitted (h : Valid s l (n :: rest)) (fitted : Fitted l.sequence l.placed.toList) :
    Fitted (l.step n).sequence (l.step n).placed.toList := by
  obtain ⟨x, hx⟩ := h.linked.node?_of_mem (n := n) (by simp)
  have shape := shape?_of_node? hx
  unfold Layout.step
  simp only [hx]
  split
  · rw [dropPad_placed]
    exact fitted_dropPad fitted _
  · next solid =>
    have solid : x.item.unlinked.isPadding = false := by simpa using solid
    split
    · next isOdd =>
      obtain ⟨payload, odd⟩ : x.item.isPayload = true ∧ l.address % 2 = 1 := by simpa using isOdd
      obtain ⟨p, y, placed, here, others⟩ := exists_placePad h.pad
      have row := h.placePad.linked.nodup
      simp only [placed, placePad_pad, Array.toList_push, Option.toList_none, List.append_nil, List.append_assoc,
        List.singleton_append] at row
      have apart : ∀ m ∈ l.placed.toList, m ≠ p := fun m hm e =>
        List.disjoint_of_nodup_append row hm (by simp [e])
      have next : n ≠ p := by
        rintro rfl
        have := (List.nodup_append.1 row).2.1
        simp at this
      have after : l.placePad.sequence.shape? n = some (x.address, x.item.unlinked) := (others n next).trans shape
      have pair : Fitted l.placePad.sequence [p, n] := .pad here (by omega) after (by rwa [Item.unlinked_isPayload])
      have both := (fitted.congr fun m hm => others m (apart m hm)).append pair
      rw [dropPad_placed, placed, Array.toList_push, Array.toList_push, List.append_assoc, List.singleton_append]
      exact (fitted_dropPad both _).setAddress ((dropPad_shape? _ _ n).trans after) solid _
    · have both := fitted.append (.solid shape solid)
      rw [dropPad_placed, Array.toList_push]
      exact (fitted_dropPad both _).setAddress ((dropPad_shape? _ _ n).trans shape) solid _

theorem Valid.foldl_fitted (h : Valid s l xs) (fitted : Fitted l.sequence l.placed.toList) :
    Fitted (xs.foldl Layout.step l).sequence (xs.foldl Layout.step l).placed.toList := by
  induction xs generalizing l with
  | nil => exact fitted
  | cons n xs ih => exact ih h.step (h.step_fitted fitted)

end Layout

/-- `layout` gives a snug sequence. -/
theorem Linked.layout_snug (h : Linked s s.items.toList) : Snug s.layout := by
  have start : Layout.Valid s { sequence := s } s.items.toList := ⟨by simpa using h, rfl, by simp, .refl⟩
  have fitted := start.foldl_fitted (fun i n p x hn => by simp at hn)
  refine Fitted.snug ?_ h.layout.2
  rw [layout_eq]
  simp only [Layout.dropPad_placed]
  exact fitted.congr fun m _ => Layout.dropPad_shape? _ .finish m

theorem Linked.relink_snug (h : Linked s s.items.toList) : Snug s.relink := by
  have snug := h.claimTables.layout_snug
  unfold Sequence.relink collectReferences
  generalize s.claimTables.layout = t at snug ⊢
  exact snug.congr rfl rfl fun _ => rfl

/-! ## Claiming -/

/-- Every table that has an owner is claimed by a switch. -/
def Kept (s : Sequence) : Prop := ∀ n ∈ s.owned, ∃ m ∈ s.items.toList, s.claims? m = some n

theorem dropUnclaimed_eq_self {had : List Nat} {kept : Array Nat}
    (h : ∀ n ∈ xs, n ∈ had → 0 ≤ ((s.node? n).bind fun x => x.item.owner?).getD 0) :
    dropUnclaimed had kept xs s = (kept ++ xs.toArray, s) := by
  induction xs generalizing kept with
  | nil => simp [dropUnclaimed]
  | cons n xs ih =>
    have stays : ¬ (decide (((s.node? n).bind fun x => x.item.owner?).getD 0 < 0) && had.contains n) = true := by
      simp only [Bool.and_eq_true, decide_eq_true_eq, List.contains_eq_mem, not_and]
      intro negative mem
      exact absurd negative (Int.not_lt.2 (h n List.mem_cons_self mem))
    rw [dropUnclaimed, if_neg stays, ih fun m hm => h m (List.mem_cons_of_mem _ hm)]
    simp

/-- If every owned table is claimed, `claimTables` only changes owners. -/
theorem Kept.claimTables (h : Kept s) : s.claimTables = s.claimed := by
  have stays : ∀ n ∈ s.items.toList, n ∈ s.owned → 0 ≤ ((s.claimed.node? n).bind fun x => x.item.owner?).getD 0 := by
    intro n _ owned
    obtain ⟨m, hm, claims⟩ := h n owned
    cases hx : s.claimed.node? n with
    | none => simp
    | some x =>
      rw [Option.bind_some]
      have item := item?_of_node? hx
      rw [item?_claimed] at item
      obtain ⟨y, hy, e⟩ := Option.map_eq_some_iff.1 item
      cases owner : x.item.owner? with
      | none => simp
      | some o =>
        rw [← e] at owner
        rcases owner?_adopt owner with ⟨absent, -⟩ | ⟨k, -, rfl⟩
        · exact absurd claims (lastTo_eq_none.1 absent m hm)
        · exact Linked.handleOf_nonneg s k
  rw [claimTables_eq, dropUnclaimed_eq_self stays]
  rw [(reowned_claimed s).eq]
  simp

/-- `relink` of a snug sequence only changes owners. -/
theorem Snug.relink (h : Snug s) (kept : Kept s) : s.relink = s.claimed.collectReferences := by
  have reowned := reowned_claimed s
  have snug : Snug s.claimed := h.congr reowned.items reowned.units reowned.shape?
  rw [Sequence.relink, kept.claimTables, snug.layout]

/-! ## Owners that stay -/

/-- Every table is owned by the last switch that claims it. -/
def Claimed (s : Sequence) : Prop := ∀ n ∈ s.items.toList, ∀ x o, s.item? n = some x → x.owner? = some o →
  o = (lastTo s.claims? n s.items.toList).elim .none s.handleOf

theorem setOwner_of_owner? {x : Item} (h : ∀ k, x.owner? = some k → k = o) : x.setOwner o = x := by
  cases x with
  | plain i => rfl
  | array r => rfl
  | packed p =>
    obtain rfl := h _ rfl
    rfl
  | sparse p =>
    obtain rfl := h _ rfl
    rfl

theorem adopt_setOwner (owner : Option Nat) (x : Item) :
    s.adopt owner (x.setOwner .none) = x.setOwner (owner.elim .none s.handleOf) := by
  cases owner with
  | none => rfl
  | some n => exact Item.setOwner_setOwner x _ _

/-- What claiming makes of an item of the sequence. -/
theorem item?_claimed_of_mem (hn : n ∈ s.items.toList) : s.claimed.item? n =
    (s.item? n).map (Item.setOwner ((lastTo s.claims? n s.items.toList).elim .none s.handleOf)) := by
  rw [item?_claimed]
  simp only [if_pos hn, adopt_setOwner]

theorem Linked.mem_of_claims? (linked : Linked s xs) (h : s.claims? n = some m) : m ∈ xs := by
  obtain ⟨x, -, -, named⟩ := claims?_eq_some.1 h
  exact linked.mem_of_named? named

/-- Claiming does not change an item that is not in the sequence. -/
theorem Linked.item?_claimed_of_not_mem (linked : Linked s s.items.toList) (hn : n ∉ s.items.toList) :
    s.claimed.item? n = s.item? n := by
  have unclaimed : lastTo s.claims? n s.items.toList = none :=
    lastTo_eq_none.2 fun m _ claims => hn (linked.mem_of_claims? claims)
  rw [item?_claimed, unclaimed]
  simp only [if_neg hn, adopt_none]
  cases s.item? n <;> rfl

theorem claimed_claimed (s : Sequence) : Claimed s.claimed := by
  have reowned := reowned_claimed s
  intro n hn x o hx owner
  rw [reowned.items] at hn ⊢
  rw [item?_claimed_of_mem hn] at hx
  obtain ⟨y, -, rfl⟩ := Option.map_eq_some_iff.1 hx
  rw [Item.owner?_setOwner] at owner
  obtain ⟨_, -, rfl⟩ := Option.map_eq_some_iff.1 owner
  have claims? : s.claimed.claims? = s.claims? := funext reowned.claims?
  have handleOf : s.claimed.handleOf = s.handleOf := funext reowned.handleOf
  rw [claims?, handleOf]

theorem Claimed.congr (h : Claimed s) (nodes : t.nodes = s.nodes) (items : t.items = s.items) (arena : t.arena = s.arena) :
    Claimed t := by
  have node? : t.node? = s.node? := by
    funext n
    rw [Sequence.node?, Sequence.node?, nodes]
  have item? : t.item? = s.item? := by
    funext n
    rw [Sequence.item?, Sequence.item?, node?]
  have handleOf : t.handleOf = s.handleOf := by
    funext n
    rw [Sequence.handleOf, Sequence.handleOf, node?]
  have claims? : t.claims? = s.claims? := by
    funext n
    unfold Sequence.claims? named?
    rw [item?, arena]
  unfold Claimed
  rw [items, item?, handleOf, claims?]
  exact h

namespace Claimed

variable (h : Claimed s)
include h

theorem kept : Kept s := by
  intro n hn
  obtain ⟨mem, hn⟩ := List.mem_filter.1 hn
  obtain ⟨o, owner, nonneg⟩ := (Option.any_eq_true _ _).1 hn
  obtain ⟨x, hx, owner⟩ := Option.bind_eq_some_iff.1 owner
  have belongs := h n mem x.item o (item?_of_node? hx) owner
  cases last : lastTo s.claims? n s.items.toList with
  | none =>
    rw [last] at belongs
    rw [belongs] at nonneg
    cases of_decide_eq_true nonneg
  | some m => exact ⟨m, mem_of_lastTo last⟩

/-- If tables are `Claimed`, claiming again changes nothing. -/
theorem claimed (linked : Linked s s.items.toList) : s.claimed = s := by
  have reowned := reowned_claimed s
  have item? : ∀ n, s.claimed.item? n = s.item? n := by
    intro n
    by_cases hn : n ∈ s.items.toList
    · rw [item?_claimed_of_mem hn]
      cases hx : s.item? n with
      | none => rfl
      | some x => rw [Option.map_some, setOwner_of_owner? fun o => h n hn x o hx]
    · exact linked.item?_claimed_of_not_mem hn
  have nodes : s.claimed.nodes = s.nodes := Array.ext_getElem? fun n =>
    node?_ext (item? n) (reowned.handle? n) (by rw [address?_eq_shape?, reowned.shape?, ← address?_eq_shape?])
  rw [reowned.eq, nodes]

end Claimed

/-- `relink` of a snug sequence whose tables are `Claimed` changes nothing. -/
theorem Snug.relink_of_claimed (h : Snug s) (linked : Linked s s.items.toList) (claimed : Claimed s) :
    s.relink = s.collectReferences := by
  rw [h.relink claimed.kept, claimed.claimed linked]

end Dalvik.Sequence
