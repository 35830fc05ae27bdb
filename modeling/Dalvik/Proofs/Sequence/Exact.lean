import Dalvik.Proofs.Sequence.Decoding
import Dalvik.Proofs.Sequence.Settling
import Dalvik.Proofs.Sequence.Snug

/-!
# A sequence holds what was read

Linking and marking fill in only references, owners and marks of padding (`Gathered`). If payloads
are at even addresses and every switch table that a branch leads to has a switch, then the layout at
the end of `decode` changes at most owners. So the sequence holds exactly the items that were read,
each at its address (`decode_exact`).
-/

namespace Dalvik

namespace Item

/-- The item without links, and not marked as padding. -/
def bare : Item → Item
  | .plain x => .plain { x with target := .none, isPadding := false }
  | x => x.unlinked

section Bare

variable {x y : Item}

@[simp] theorem bare_unlinked : x.unlinked.bare = x.bare := by cases x <;> simp [bare, unlinked, Function.comp_def]

@[simp] theorem bare_markItem : (Sequence.markItem x).bare = x.bare := by cases x <;> rfl

@[simp] theorem bare_isPayload : x.bare.isPayload = x.isPayload := by cases x <;> rfl

@[simp] theorem bare_opcode : x.bare.opcode = x.opcode := by cases x <;> rfl

@[simp] theorem bare_codeUnits : x.bare.codeUnits = x.codeUnits := by
  cases x with
  | plain i => rfl
  | packed p => exact unlinked_codeUnits (.packed p)
  | sparse t => exact unlinked_codeUnits (.sparse t)
  | array a => rfl

@[simp] theorem bare_pieces : x.bare.pieces = x.pieces := by
  cases x with
  | plain i => rfl
  | packed p => exact unlinked_pieces (.packed p)
  | sparse t => exact unlinked_pieces (.sparse t)
  | array a => rfl

@[simp] theorem owner?_bare : x.bare.owner?.isSome = x.owner?.isSome := by cases x <;> rfl

theorem eq_plain_of_bare {i : Instruction} (h : x.bare = .plain i) :
    ∃ j, x = .plain j ∧ i = { j with target := .none, isPadding := false } := by
  cases x with
  | plain j => exact ⟨j, rfl, (Item.plain.inj h).symm⟩
  | packed p => cases h
  | sparse t => cases h
  | array a => cases h

theorem Raw.cases_unlinked {cs : List Case} (h : ∀ c ∈ cs, c.handle = .none) : cs.map Case.unlinked = cs := by
  refine (List.map_congr_left fun c hc => ?_).trans (List.map_id cs)
  cases c
  obtain rfl := h _ hc
  rfl

theorem Raw.bare (h : x.Raw) : x.bare = x := by
  cases x with
  | plain i =>
    obtain ⟨-, -, target, padding⟩ := (h : i.Raw)
    cases i
    obtain rfl := target
    obtain rfl := padding
    rfl
  | packed p =>
    have h : p.Raw := h
    have sameCases := Raw.cases_unlinked h.handles
    have owner := h.owner
    cases p
    obtain rfl := owner
    simp only [Item.bare, Item.unlinked] at sameCases ⊢
    rw [sameCases]
  | sparse t =>
    have h : t.Raw := h
    have sameCases := Raw.cases_unlinked h.handles
    have owner := h.owner
    cases t
    obtain rfl := owner
    simp only [Item.bare, Item.unlinked] at sameCases ⊢
    rw [sameCases]
  | array a => rfl

theorem Raw.isPadding (h : x.Raw) : x.isPadding = false := by
  cases x with
  | plain i => exact (h : i.Raw).isPadding
  | packed p => rfl
  | sparse t => rfl
  | array a => rfl

theorem Raw.owner? {o : Handle} (h : x.Raw) (owner : x.owner? = some o) : o = .none := by
  cases x with
  | plain i => cases owner
  | packed p =>
    cases owner
    exact (h : p.Raw).owner
  | sparse t =>
    cases owner
    exact (h : t.Raw).owner
  | array a => cases owner

end Bare

end Item

namespace Sequence

variable {s t r : Sequence} {n m : Nat} {ns : List Nat} {xs : List Item} {a b : Nat} {p : Int} {c c' : Cursor}

/-! ## Items and where they stand -/

/-- The address of a node, and its item as it was read. -/
def form? (s : Sequence) (n : Nat) : Option (Int × Item) := (s.node? n).map fun x => (x.address, x.item.bare)

theorem form?_eq_shape? (s : Sequence) (n : Nat) : s.form? n = (s.shape? n).map fun q => (q.1, q.2.bare) := by
  unfold form? shape?
  cases s.node? n <;> simp [Node.shape]

theorem form?_eq_some {x : Item} :
    s.form? n = some (p, x) ↔ ∃ y, s.item? n = some y ∧ s.address? n = some p ∧ y.bare = x := by
  unfold form? item? address?
  cases s.node? n <;> simp

/-- The items with their addresses, counted from the first one. -/
def spread : Nat → List Item → List (Int × Item)
  | _, [] => []
  | a, x :: xs => ((a : Int), x) :: spread (a + x.codeUnits) xs

theorem map_spread (a : Nat) (xs : List Item) : (spread a xs).map Prod.snd = xs := by
  induction xs generalizing a with
  | nil => rfl
  | cons x xs ih => rw [spread, List.map_cons, ih]

/-- Nodes in `Rows` hold the items at the addresses of `spread`. -/
theorem Rows.spread_eq (h : Rows s a ns xs b) (raw : ∀ x ∈ xs, x.Raw) : ns.filterMap s.form? = spread a xs := by
  induction h with
  | nil a => rfl
  | @cons a b n x ns xs item address rest ih =>
    have form : s.form? n = some ((a : Int), x) := form?_eq_some.2 ⟨x, item, address, (raw x List.mem_cons_self).bare⟩
    rw [List.filterMap_cons, form, spread, ih fun y hy => raw y (List.mem_cons_of_mem _ hy)]

theorem Rows.mem_spread (h : Rows s a ns xs b) {q : Int × Item} :
    q ∈ spread a xs ↔ ∃ n ∈ ns, s.item? n = some q.2 ∧ s.address? n = some q.1 := by
  induction h with
  | nil a => simp [spread]
  | @cons a b n x ns xs item address rest ih =>
    rw [spread, List.mem_cons, ih]
    constructor
    · rintro (rfl | ⟨n, hn, hq⟩)
      · exact ⟨n, List.mem_cons_self, item, address⟩
      · exact ⟨n, List.mem_cons_of_mem _ hn, hq⟩
    · rintro ⟨m, hm, hq⟩
      rcases List.mem_cons.1 hm with rfl | hm
      · rw [item, address] at hq
        obtain ⟨hx, ha⟩ := hq
        exact .inl (Prod.ext (Option.some.inj ha).symm (Option.some.inj hx).symm)
      · exact .inr ⟨m, hm, hq⟩

/-! ## What comes of the items that are read -/

/-- Only references, owners and marks of padding were filled in. -/
structure Gathered (r m : Sequence) : Prop where
  eq : m = { r with nodes := m.nodes }
  handle? : ∀ n, m.handle? n = r.handle? n
  form? : ∀ n, m.form? n = r.form? n
  leading : ∀ n ∈ r.items.toList, Leading r n
  /-- The target of a branch is the item that its offset leads to. -/
  target : ∀ n ∈ r.items.toList, ∀ i, m.item? n = some (.plain i) → i.target = (r.lead? n).elim .none r.handleOf
  /-- The owner of a table is the last branch that leads to it, and the handles of its cases are those of the items
  that their offsets lead to from there. -/
  owner : ∀ n ∈ r.items.toList, ∀ x o, m.item? n = some x → x.owner? = some o →
    o = (lastTo r.lead? n r.items.toList).elim .none r.handleOf
  cases : ∀ n ∈ r.items.toList, ∀ x o base, m.item? n = some x → x.owner? = some o →
    (r.named? o).bind r.address? = some base →
    ∀ c ∈ x.cases, ∃ k, r.nodeByAddress? (base + signed32 c.offset) = some k ∧ c.handle = r.handleOf k
  sealed : ∀ n ∈ r.items.toList, ∀ x, m.item? n = some x → x.Shaped ∧ x.Sealed
  /-- Padding is in front of a payload, at an odd address. -/
  pads : ∀ n ∈ r.items.toList, IsPad m n → ∃ p k x, (n, k) ∈ r.items.toList.zip (r.items.toList.drop 1) ∧
    m.address? n = some p ∧ p % 2 = 1 ∧ m.item? k = some x ∧ x.isPayload = true

theorem Relinked.form? (h : Relinked s t) (n : Nat) : t.form? n = s.form? n := by
  rw [form?_eq_shape?, h.shape?, ← form?_eq_shape?]

theorem Marked.form? (h : Marked s t) (n : Nat) : t.form? n = s.form? n := by
  have view : ∀ u : Sequence, u.form? n = (u.address? n).bind fun a => (u.item? n).map fun x => (a, x.bare) := by
    intro u
    unfold Sequence.form? Sequence.address? Sequence.item?
    cases u.node? n <;> rfl
  rw [view, view, h.address?]
  by_cases pad : Pads s n
  · rw [h.marked n pad]
    cases s.item? n <;> simp
  · rw [h.others n pad]

/-- Marking changes at most the mark of an item. -/
theorem Marked.item? (h : Marked s t) (n : Nat) :
    t.item? n = s.item? n ∨ ∃ i, s.item? n = some (.plain i) ∧ t.item? n = some (.plain { i with isPadding := true }) := by
  by_cases pad : Pads s n
  · obtain ⟨next, -, pads⟩ := id pad
    obtain ⟨i, -, -, hi, -⟩ := pads_eq_true.1 pads
    exact .inr ⟨i, hi, by rw [h.marked n pad, hi]; rfl⟩
  · exact .inl (h.others n pad)

/-- If nothing was padding before, every item that is now was marked. -/
theorem Marked.pads (marked : Marked s t) (fresh : ∀ x, s.item? n = some x → x.isPadding = false) (pad : IsPad t n) : Pads s n := by
  by_contra no
  obtain ⟨x, hx, padding⟩ := pad
  rw [marked.others n no] at hx
  rw [fresh x hx] at padding
  cases padding

theorem Marked.item?_of_table (h : Marked s t) {x : Item} {o : Handle} (hx : t.item? n = some x) (owner : x.owner? = some o) :
    s.item? n = some x := by
  rcases h.item? n with e | ⟨i, -, e⟩
  · rw [← e, hx]
  · rw [hx] at e
    cases e
    cases owner

theorem Resolved.owner? {x y : Item} (h : Resolved s x y) : y.owner? = x.owner? := by
  cases h with
  | unowned => rfl
  | owned => cases x <;> rfl

theorem Resolved.plain {x y : Item} {i : Instruction} (h : Resolved s x y) (e : y = .plain i) : x = .plain i := by
  cases h with
  | unowned => exact e
  | owned =>
    cases x with
    | plain j => exact e
    | packed p => cases e
    | sparse t => cases e
    | array a => cases e

theorem adopt_eq_plain {o : Option Nat} {x : Item} {i : Instruction} (h : s.adopt o x = .plain i) : x = .plain i := by
  cases o with
  | none => exact h
  | some k => exact Item.eq_plain_of_setOwner_eq h

theorem aim_eq_plain {x : Item} {i : Instruction} (h : s.aim n x = .plain i) :
    ∃ j, x = .plain j ∧ i.target = (s.lead? n).elim j.target s.handleOf := by
  cases x with
  | plain j =>
    cases h
    refine ⟨j, rfl, ?_⟩
    cases s.lead? n <;> rfl
  | packed p => cases h
  | sparse t => cases h
  | array a => cases h

/-- The handles of the cases of a resolved table. -/
theorem Resolved.points {x y : Item} {base : Int} (h : Resolved s x y) (owned : s.base? x = some base) :
    List.Forall₂ (Points s base) x.cases y.cases := by
  cases h with
  | unowned absent => simp [absent] at owned
  | @owned base' cs based points =>
    rw [based] at owned
    cases owned
    cases x with
    | plain i =>
      cases points
      exact .nil
    | packed p => exact points
    | sparse t => exact points
    | array a =>
      cases points
      exact .nil

/-- Linking changes only references and owners. -/
theorem relinked_of_each {u v : Sequence} (linked : Linked r r.items.toList) (branches : Action.Each linkBranch r.items.toList r u)
    (tables : Action.Each linkTable u.items.toList u v) : Relinked r v := by
  obtain ⟨-, rfl⟩ := (each_linkBranch linked).1 branches
  have wired := relinked_wiredAll r r.items.toList
  have wiredLinked : Linked (r.items.toList.foldl Sequence.wired r) (r.items.toList.foldl Sequence.wired r).items.toList := by
    rw [wired.items]
    exact wired.linked linked
  exact wired.trans (tabled_of_each wiredLinked.nodup (fun n hn => wiredLinked.item?_of_mem hn) tables).relinked

/-- Linking the branches and tables of scanned items and marking padding leaves `Gathered`. -/
theorem gathered_markPadding {u v : Sequence} (linked : Linked r r.items.toList)
    (raw : ∀ n ∈ r.items.toList, ∀ x, r.item? n = some x → x.Raw)
    (branches : Action.Each linkBranch r.items.toList r u) (tables : Action.Each linkTable u.items.toList u v) :
    Gathered r v.markPadding := by
  obtain ⟨leading, rfl⟩ := (each_linkBranch linked).1 branches
  have wired := relinked_wiredAll r r.items.toList
  have wiredLinked : Linked (r.items.toList.foldl Sequence.wired r) (r.items.toList.foldl Sequence.wired r).items.toList := by
    rw [wired.items]
    exact wired.linked linked
  have tabled := tabled_of_each wiredLinked.nodup (fun n hn => wiredLinked.item?_of_mem hn) tables
  have whole : Relinked r v := wired.trans tabled.relinked
  have marked := marked_markPadding v
  -- Every item of the sequence, from the moment it was read.
  have history : ∀ n ∈ r.items.toList, ∀ y, v.item? n = some y → ∃ x, x.Raw ∧ r.item? n = some x ∧
      Resolved r (r.adopt (lastTo r.lead? n r.items.toList) (r.aim n x)) y := by
    intro n hn y hy
    obtain ⟨x, hx⟩ := linked.item?_of_mem hn
    have here : (r.items.toList.foldl Sequence.wired r).item? n = _ := item?_wiredAll n
    rw [hx, Option.map_some, if_pos hn] at here
    obtain ⟨z, hz, resolved⟩ := tabled.resolved n (by rw [wired.items]; exact hn) _ here
    rw [hy] at hz
    cases hz
    exact ⟨x, raw n hn x hx, hx, wired.resolved.1 resolved⟩
  exact {
    eq := marked.eq.trans (congrArg (fun q : Sequence => { q with nodes := v.markPadding.nodes }) whole.eq)
    handle? := fun n => (marked.handle? n).trans (whole.handle? n)
    form? := fun n => (marked.form? n).trans (whole.form? n)
    leading := leading
    target := by
      intro n hn i hi
      have before : ∃ j, v.item? n = some (.plain j) ∧ i.target = j.target := by
        rcases marked.item? n with e | ⟨j, hj, e⟩
        · exact ⟨i, by rw [← e, hi], rfl⟩
        · rw [hi] at e
          cases e
          exact ⟨j, hj, rfl⟩
      obtain ⟨j, hj, e⟩ := before
      obtain ⟨x, hraw, -, resolved⟩ := history n hn _ hj
      obtain ⟨k, rfl, aimed⟩ := aim_eq_plain (adopt_eq_plain (resolved.plain rfl))
      rw [e, aimed, (hraw : k.Raw).target]
    owner := by
      intro n hn x o hx owner
      obtain ⟨y, hraw, -, resolved⟩ := history n hn x (marked.item?_of_table hx owner)
      rw [resolved.owner?] at owner
      rcases owner?_adopt owner with ⟨absent, owner⟩ | ⟨k, present, rfl⟩
      · rw [absent]
        refine hraw.owner? ?_
        cases y with
        | plain i => cases owner
        | packed p => exact owner
        | sparse p => exact owner
        | array p => exact owner
      · rw [present]
        rfl
    cases := by
      intro n hn x o base hx owner hbase c hc
      obtain ⟨y, -, -, resolved⟩ := history n hn x (marked.item?_of_table hx owner)
      rw [resolved.owner?] at owner
      obtain ⟨d, -, k, there, rfl⟩ := exists_left (resolved.points (by rw [base?, owner]; exact hbase)) hc
      exact ⟨k, there, rfl⟩
    sealed := by
      intro n hn x hx
      have before : ∀ y, v.item? n = some y → y.Shaped ∧ y.Sealed := by
        intro y hy
        obtain ⟨z, hraw, hz, -⟩ := history n hn y hy
        obtain ⟨z', hz', e⟩ := whole.item?_unlinked hy
        rw [hz] at hz'
        cases hz'
        exact Item.stable_sealed.relinked e (Item.stable_sealed.raw hraw)
      by_cases pad : Pads v n
      · rw [marked.marked n pad] at hx
        obtain ⟨k, -, pads⟩ := pad
        obtain ⟨i, -, -, hi, -, -, zero, -⟩ := pads_eq_true.1 pads
        rw [hi] at hx
        cases hx
        exact Item.stable_sealed.marked zero (before _ hi)
      · exact before x (by rw [← marked.others n pad, hx])
    pads := by
      intro n hn hpad
      have pad : Pads v n := marked.pads (fun x hx => by
        obtain ⟨y, hraw, hy, -⟩ := history n hn x hx
        obtain ⟨z, hz, e⟩ := whole.item?_unlinked hx
        rw [hy] at hz
        cases hz
        rw [← Item.unlinked_isPadding, e, Item.unlinked_isPadding]
        exact hraw.isPadding) hpad
      obtain ⟨k, mem, pads⟩ := pad
      obtain ⟨x, a, y, -, ha, hy, -, odd, payload, -⟩ := pads_eq_true.1 pads
      rw [whole.items] at mem
      obtain ⟨z, hz, e⟩ : ∃ z, v.markPadding.item? k = some z ∧ z.isPayload = y.isPayload := by
        rcases marked.item? k with e | ⟨i, hi, e⟩
        · exact ⟨y, by rw [e, hy], rfl⟩
        · rw [hy] at hi
          cases hi
          exact ⟨_, e, rfl⟩
      exact ⟨a, k, z, mem, by rw [marked.address?, ha], odd, hz, by rw [e, payload]⟩ }

/-! ## What is read stays -/

/-- The address that a branch leads to. -/
def dest? : Int × Item → Option Int
  | (a, .plain i) => if i.hasTarget then i.data.toOption.map (a + ·) else none
  | _ => none

theorem dest?_eq_some {q : Int × Item} : dest? q = some p ↔
    ∃ i d, q.2 = .plain i ∧ i.hasTarget = true ∧ i.data = .ok d ∧ q.1 + d = p := by
  obtain ⟨a, x⟩ := q
  cases x with
  | plain i =>
    cases has : i.hasTarget <;> cases data : i.data <;> simp [dest?, has, data, Except.toOption]
  | packed p => simp [dest?]
  | sparse t => simp [dest?]
  | array a => simp [dest?]

/-- Every payload is at an even address. -/
def Aligned (xs : List Item) : Prop := ∀ q ∈ spread 0 xs, q.2.isPayload = true → q.1 % 2 = 0

instance : Decidable (Aligned xs) := inferInstanceAs (Decidable (∀ q ∈ spread 0 xs, _))

/-- Every switch table that a branch leads to has a switch that leads to it. -/
def Switched (xs : List Item) : Prop := ∀ q ∈ spread 0 xs, q.2.owner?.isSome = true →
  (∃ p ∈ spread 0 xs, dest? p = some q.1) → ∃ p ∈ spread 0 xs, p.2.opcode.is .switch = true ∧ dest? p = some q.1

instance : Decidable (Switched xs) := inferInstanceAs (Decidable (∀ q ∈ spread 0 xs, _))

theorem Rows.exists_item (h : Rows s a ns xs b) (hn : n ∈ ns) :
    ∃ x ∈ xs, ∃ p : Nat, s.item? n = some x ∧ s.address? n = some (p : Int) ∧ a ≤ p := by
  induction h with
  | nil a => cases hn
  | @cons a b k x ns xs item address rest ih =>
    rcases List.mem_cons.1 hn with rfl | hn
    · exact ⟨x, List.mem_cons_self, a, item, address, Nat.le_refl a⟩
    · obtain ⟨y, hy, p, item, address, le⟩ := ih hn
      exact ⟨y, List.mem_cons_of_mem _ hy, p, item, address, by omega⟩

/-- The addresses of items in a row are strictly increasing. -/
theorem Rows.pairwise (h : Rows s a ns xs b) (raw : ∀ x ∈ xs, x.Raw) :
    ns.Pairwise fun n m => ∃ p q, s.address? n = some p ∧ s.address? m = some q ∧ p < q := by
  induction h with
  | nil a => exact .nil
  | @cons a b n x ns xs item address rest ih =>
    refine .cons (fun m hm => ?_) (ih fun y hy => raw y (List.mem_cons_of_mem _ hy))
    obtain ⟨-, -, q, -, hq, le⟩ := rest.exists_item hm
    have pos := (Item.shaped_of_raw (raw x List.mem_cons_self)).codeUnits_pos
    exact ⟨a, q, address, hq, by omega⟩

/-- Linking and marking leave the items in a row. -/
theorem Rows.laid (h : Rows r a ns xs b) (raw : ∀ x ∈ xs, x.Raw) (form : ∀ n, t.form? n = r.form? n)
    (full : ∀ n ∈ ns, ∀ x, t.item? n = some x → x.extent = x.codeUnits)
    (aligned : ∀ q ∈ spread a xs, q.2.isPayload = true → q.1 % 2 = 0) : Laid t a ns b := by
  induction h with
  | nil a => rfl
  | @cons a b n x ns xs item address rest ih =>
    have bare := (raw x List.mem_cons_self).bare
    have here : t.form? n = some ((a : Int), x) := by rw [form, form?_eq_some.2 ⟨x, item, address, bare⟩]
    obtain ⟨y, hy, ha, e⟩ := form?_eq_some.1 here
    have units : y.codeUnits = x.codeUnits := by rw [← e, Item.bare_codeUnits]
    refine ⟨y.unlinked, shape?_eq_some.2 ⟨y, hy, rfl, ha⟩, fun payload => ?_, ?_⟩
    · have payload : x.isPayload = true := by rw [← e, Item.bare_isPayload, ← Item.unlinked_isPayload, payload]
      have := aligned _ List.mem_cons_self payload
      omega
    · rw [Item.unlinked_extent, full n List.mem_cons_self y hy, units]
      exact ih (fun z hz => raw z (List.mem_cons_of_mem _ hz)) (fun k hk => full k (List.mem_cons_of_mem _ hk))
        fun q hq => aligned q (List.mem_cons_of_mem _ hq)

theorem getElem?_of_mem_zip_drop {l : List Nat} (nodup : l.Nodup) {i : Nat} (h : (n, m) ∈ l.zip (l.drop 1))
    (hi : l[i]? = some n) : l[i + 1]? = some m := by
  obtain ⟨j, hj⟩ := List.mem_iff_getElem?.1 h
  rw [List.getElem?_zip_eq_some, List.getElem?_drop, Nat.add_comm] at hj
  obtain ⟨hn, hm⟩ := hj
  have lt := (List.getElem?_eq_some_iff.1 hi).1
  obtain rfl : i = j := (List.getElem?_inj lt nodup).1 (by rw [hi, hn])
  exact hm

/-- `r` holds the items `xs` as they were read, and nothing else. -/
structure Reads (xs : List Item) (r : Sequence) : Prop where
  linked : Linked r r.items.toList
  rows : Rows r 0 r.items.toList xs r.units
  raw : ∀ x ∈ xs, x.Raw

theorem reads_scanned (s : Sequence) (raw : ∀ x ∈ xs, x.Raw) : Reads xs (s.scanned xs) where
  linked := (sound_scanned (P := fun _ => True) (s := s) (fun _ _ => trivial) fun _ _ _ => trivial).linked
  rows := rows_scanned s xs
  raw

namespace Reads

variable (h : Reads xs r)
include h

theorem increasing : Increasing r := h.rows.pairwise h.raw

theorem item (hn : n ∈ r.items.toList) {x : Item} (hx : r.item? n = some x) : x.Raw := by
  obtain ⟨y, hy, -, item, -⟩ := h.rows.exists_item hn
  rw [hx] at item
  cases item
  exact h.raw x hy

/-- `lead?` in terms of addresses. -/
theorem lead?_iff {q : Int × Item} (hn : r.item? n = some q.2 ∧ r.address? n = some q.1) (hm : m ∈ r.items.toList)
    (there : r.address? m = some p) : r.lead? n = some m ↔ dest? q = some p := by
  have found : ∀ d : Int, r.nodeByAddress? d = some m ↔ d = p := by
    intro d
    rw [h.increasing.nodeByAddress?_iff fun k hk => h.linked.node?_of_mem hk, there]
    simp [hm, eq_comm]
  simp only [lead?_eq_some, dest?_eq_some, found, hn.1, hn.2, Option.some.injEq]
  constructor
  · rintro ⟨i, a, d, hi, rfl, has, data, there⟩
    exact ⟨i, d, hi, has, data, there⟩
  · rintro ⟨i, d, hi, has, data, there⟩
    exact ⟨i, q.1, d, hi, rfl, has, data, there⟩

end Reads

namespace Gathered

variable (h : Gathered r t)
include h

theorem items : t.items = r.items := by rw [h.eq]
theorem arena : t.arena = r.arena := by rw [h.eq]
theorem units : t.units = r.units := by rw [h.eq]

theorem handleOf (n : Nat) : t.handleOf n = r.handleOf n := by rw [handleOf_eq, handleOf_eq, h.handle?]

theorem named? (k : Handle) : t.named? k = r.named? k := by
  unfold Sequence.named?
  rw [h.arena]

theorem address? (n : Nat) : t.address? n = r.address? n := by
  have view : ∀ u : Sequence, u.address? n = (u.form? n).map Prod.fst := by
    intro u
    unfold Sequence.address? Sequence.form?
    cases u.node? n <;> rfl
  rw [view, view, h.form?]

/-- Every item comes from one that was read. -/
theorem item?_bare (reads : Reads xs r) (hn : n ∈ r.items.toList) {y : Item} (hy : t.item? n = some y) :
    r.item? n = some y.bare ∧ y.bare ∈ xs := by
  obtain ⟨x, hx, p, item, address, -⟩ := reads.rows.exists_item hn
  have form := h.form? n
  rw [form?_eq_some.2 ⟨x, item, address, (reads.item hn item).bare⟩] at form
  obtain ⟨z, hz, -, e⟩ := form?_eq_some.1 form
  rw [hy] at hz
  cases hz
  rw [e]
  exact ⟨item, hx⟩

/-- Every item that was read is there. -/
theorem exists_item? (reads : Reads xs r) (hn : n ∈ r.items.toList) {x : Item} (hx : r.item? n = some x) :
    ∃ y, t.item? n = some y ∧ y.bare = x := by
  obtain ⟨-, -, p, -, address, -⟩ := reads.rows.exists_item hn
  have form := h.form? n
  rw [form?_eq_some.2 ⟨x, hx, address, (reads.item hn hx).bare⟩] at form
  obtain ⟨y, hy, -, e⟩ := form?_eq_some.1 form
  exact ⟨y, hy, e⟩

theorem linked (reads : Reads xs r) : Linked t t.items.toList := by
  rw [h.items]
  exact reads.linked.congr h.handle? h.arena

theorem snug (reads : Reads xs r) (aligned : Aligned xs) : Snug t where
  laid := by
    rw [h.items, h.units]
    exact reads.rows.laid reads.raw h.form? (fun n hn x hx => Item.extent_eq_codeUnits (h.sealed n hn x hx)) aligned
  pads i n hi hn := by
    rw [h.items] at hi ⊢
    obtain ⟨p, k, x, mem, hp, odd, hx, payload⟩ := h.pads n (List.mem_of_getElem? hi) hn
    exact ⟨p, k, x, hp, odd, getElem?_of_mem_zip_drop reads.linked.nodup mem hi, hx, payload⟩

/-- `claims?` of a switch is what its offset leads to. -/
theorem claims?_eq_lead? (reads : Reads xs r) (hn : n ∈ r.items.toList) {i : Instruction} (hi : t.item? n = some (.plain i))
    (switch : i.opcode.is .switch = true) : t.claims? n = r.lead? n := by
  unfold claims?
  simp only [hi, if_pos switch]
  rw [h.target n hn i hi, h.named?]
  cases lead : r.lead? n with
  | none => rfl
  | some m =>
    obtain ⟨_, _, _, _, _, _, _, there⟩ := lead?_eq_some.1 lead
    exact reads.linked.named?_handleOf (mem_of_nodeByAddress? there)

theorem claims?_of_dest? (reads : Reads xs r) {q : Int × Item} (hq : q ∈ spread 0 xs) (switch : q.2.opcode.is .switch = true)
    (hm : m ∈ r.items.toList) (there : r.address? m = some p) (dest : dest? q = some p) :
    ∃ k ∈ r.items.toList, t.claims? k = some m := by
  obtain ⟨k, hk, located⟩ := reads.rows.mem_spread.1 hq
  obtain ⟨i, d, e, -⟩ := dest?_eq_some.1 dest
  obtain ⟨y, hy, bare⟩ := h.exists_item? reads hk located.1
  obtain ⟨j, rfl, rfl⟩ := Item.eq_plain_of_bare (bare.trans e)
  rw [e] at switch
  refine ⟨k, hk, ?_⟩
  rw [h.claims?_eq_lead? reads hk hy switch]
  exact (reads.lead?_iff located hm there).2 dest

theorem kept (reads : Reads xs r) (switched : Switched xs) : Kept t := by
  intro n hn
  obtain ⟨mem, hn⟩ := List.mem_filter.1 hn
  obtain ⟨o, owner, nonneg⟩ := (Option.any_eq_true _ _).1 hn
  obtain ⟨x, hx, owner⟩ := Option.bind_eq_some_iff.1 owner
  rw [h.items] at mem ⊢
  have belongs := h.owner n mem x.item o (item?_of_node? hx) owner
  cases last : lastTo r.lead? n r.items.toList with
  | none =>
    rw [last] at belongs
    rw [belongs] at nonneg
    cases of_decide_eq_true nonneg
  | some k =>
    obtain ⟨hk, lead⟩ := mem_of_lastTo last
    obtain ⟨y, -, p, item, address, -⟩ := reads.rows.exists_item hk
    obtain ⟨z, -, q, item', address', -⟩ := reads.rows.exists_item mem
    have table : z.owner?.isSome = true := by
      obtain ⟨read, -⟩ := h.item?_bare reads mem (item?_of_node? hx)
      rw [item'] at read
      rw [Option.some.inj read, Item.owner?_bare, owner]
      rfl
    have dest : dest? ((p : Int), y) = some (q : Int) := (reads.lead?_iff ⟨item, address⟩ mem address').1 lead
    obtain ⟨u, hu, switch, dest⟩ := switched ((q : Int), z) (reads.rows.mem_spread.2 ⟨n, mem, item', address'⟩) table
      ⟨_, reads.rows.mem_spread.2 ⟨k, hk, item, address⟩, dest⟩
    exact h.claims?_of_dest? reads hu switch mem address' dest

end Gathered

/-- Of two scans from one cursor, one continues the other. -/
theorem Scan.comparable {ys : List Item} {c'' : Cursor} (hx : Scan c xs c') (hy : Scan c ys c'') :
    (∃ zs, ys = xs ++ zs ∧ Scan c' zs c'') ∨ ∃ zs, xs = ys ++ zs ∧ Scan c'' zs c' := by
  induction hx generalizing ys with
  | nil c => exact .inl ⟨ys, rfl, hy⟩
  | @cons c c₁ c₂ x xs first peek read rest ih =>
    cases hy with
    | nil => exact .inr ⟨x :: xs, rfl, .cons first peek read rest⟩
    | cons first' peek' read' rest' =>
      rw [peek] at peek'
      cases peek'
      rw [read] at read'
      cases read'
      rcases ih rest' with ⟨zs, rfl, more⟩ | ⟨zs, rfl, more⟩
      · exact .inl ⟨zs, rfl, more⟩
      · exact .inr ⟨zs, rfl, more⟩

theorem Scan.unique {ys : List Item} (hc : c.Sane) (hx : Scan c xs c') (hy : Scan c ys c') : xs = ys := by
  have sane := ((scan_iff hc).1 hx).2.sane hc
  -- An item takes up bytes, so a reading that has come to the end reads nothing more.
  have ended : ∀ {zs : List Item}, Scan c' zs c' → zs = [] := by
    intro zs scan
    cases zs with
    | nil => rfl
    | cons x zs =>
      obtain ⟨raw, spans⟩ := (scan_iff sane).1 scan
      obtain ⟨u, rest, e, -⟩ := Item.unit_of_raw (raw x List.mem_cons_self)
      have := congrArg Cursor.pos spans.next
      simp [e] at this
  rcases hx.comparable hy with ⟨zs, rfl, more⟩ | ⟨zs, rfl, more⟩
  · rw [ended more, List.append_nil]
  · rw [ended more, List.append_nil]

/-- Two scans from one cursor with as many code units are the same. -/
theorem Scan.unique_of_span {ys : List Item} {c'' : Cursor} (hx : Scan c xs c') (hy : Scan c ys c'')
    (same : span xs = span ys) : xs = ys ∧ c' = c'' := by
  have span_append : ∀ as bs : List Item, span (as ++ bs) = span as + span bs := by
    intro as bs
    induction as with
    | nil => rw [List.nil_append, span_nil, Nat.zero_add]
    | cons a as ih => rw [List.cons_append, span_cons, span_cons, ih, Nat.add_assoc]
  rcases hx.comparable hy with ⟨zs, rfl, more⟩ | ⟨zs, rfl, more⟩
  · obtain ⟨rfl, rfl⟩ := more.of_span_eq_zero (by rw [span_append] at same; omega)
    exact ⟨(List.append_nil xs).symm, rfl⟩
  · obtain ⟨rfl, rfl⟩ := more.of_span_eq_zero (by rw [span_append] at same; omega)
    exact ⟨List.append_nil ys, rfl⟩

/-- `relink` of a snug sequence moves no item. -/
theorem Snug.relink_form? (h : Snug s) (kept : Kept s) :
    s.relink.items = s.items ∧ s.relink.units = s.units ∧ ∀ n, s.relink.form? n = s.form? n := by
  have reowned := reowned_claimed s
  rw [h.relink kept]
  refine ⟨reowned.items, reowned.units, fun n => ?_⟩
  change s.claimed.form? n = _
  rw [form?_eq_shape?, reowned.shape?, ← form?_eq_shape?]

theorem contents_form? (s : Sequence) :
    s.contents.map (fun x => (x.address, x.item.bare)) = s.items.toList.filterMap s.form? := by
  rw [contents, List.map_filterMap]
  rfl

/-- A sequence that holds the items as they were read is encoded as they were. -/
theorem bytes_of_contents (h : s.contents.map (fun x => (x.address, x.item.bare)) = spread a xs) :
    s.bytes = xs.flatMap Item.bytes ∧ total (s.contents.map fun x => x.item.codeUnits) = span xs := by
  have items : s.contents.map (fun x => x.item.bare) = xs := by
    rw [← map_spread a xs, ← h, List.map_map]
    rfl
  constructor
  · rw [bytes, pieces, List.flatMap_def, List.flatten_flatten, List.map_map, ← items, List.flatMap_map, List.flatMap_def]
    refine congrArg _ (List.map_congr_left fun x _ => ?_)
    rw [Item.bytes, Item.bare_pieces, Function.comp_apply]
  · rw [span, ← items, List.map_map]
    refine congrArg _ (List.map_congr_left fun x _ => ?_)
    rw [Function.comp_apply, Item.bare_codeUnits]

/-- What `decode` has made before the layout at its end. -/
theorem gathered_of_decode (hc : c.Sane) (run : (decode c).Gives s c' t) (scan : Scan c xs c') :
    ∃ cell u, s.size = some cell ∧ span xs = cell.get.toNat ∧ Reads xs (s.scanned xs) ∧ Gathered (s.scanned xs) u ∧
      t = u.relink := by
  obtain ⟨cell, ys, u, v, size, scan', fits, branches, tables, rfl⟩ := gives_decode.1 run
  obtain rfl := scan.unique hc scan'
  have reads := reads_scanned s scan.raw
  exact ⟨cell, v.markPadding, size, fits, reads,
    gathered_markPadding reads.linked (fun n hn x hx => reads.item hn hx) branches tables, rfl⟩

/-- `decode` keeps the size cell. -/
theorem size_decode (hc : c.Sane) (run : (decode c).Gives s c' t) : t.size = s.size := by
  obtain ⟨_, xs, _, _, -, scan, -⟩ := gives_decode.1 run
  obtain ⟨_, u, -, -, reads, gathered, rfl⟩ := gathered_of_decode hc run scan
  have kept : u.size = s.size := by
    rw [gathered.eq]
    exact (fields_scanned s xs).2.1
  exact (gathered.linked reads).relink_evolves.size.trans kept

/-- If payloads are at even addresses and switch tables have a switch, the sequence holds the items that were read. -/
theorem contents_decode (hc : c.Sane) (run : (decode c).Gives s c' t) (scan : Scan c xs c') (aligned : Aligned xs)
    (switched : Switched xs) :
    t.contents.map (fun x => (x.address, x.item.bare)) = spread 0 xs ∧ t.units = span xs := by
  obtain ⟨cell, u, size, fits, reads, gathered, rfl⟩ := gathered_of_decode hc run scan
  obtain ⟨items, units, form?⟩ := (gathered.snug reads aligned).relink_form? (gathered.kept reads switched)
  constructor
  · rw [contents_form?, items, gathered.items, ← reads.rows.spread_eq reads.raw]
    refine congrArg (List.filterMap · _) (funext fun n => ?_)
    rw [form?, gathered.form?]
  · rw [units, gathered.units]
    rfl

theorem spans_decode (hc : c.Sane) (run : (decode c).Gives s c' t) (scan : Scan c xs c') (aligned : Aligned xs)
    (switched : Switched xs) : c.Spans t.bytes c' := by
  rw [(bytes_of_contents (contents_decode hc run scan aligned switched).1).1]
  exact ((scan_iff hc).1 scan).2

/-- For every decoded sequence: if payloads are at even addresses and every switch table that a branch leads to has a
switch, then the items of the sequence are those that were read, at their addresses; they have as many code units as
the size cell says, and are encoded as the bytes that were read. -/
theorem decode_exact (hc : c.Sane) (run : (decode c).Gives s c' t) (scan : Scan c xs c') (aligned : Aligned xs)
    (switched : Switched xs) : ∃ cell, s.size = some cell ∧
      t.contents.map (fun x => (x.address, x.item.bare)) = spread 0 xs ∧
      total (t.contents.map fun x => x.item.codeUnits) = cell.get.toNat ∧ t.units = cell.get.toNat ∧
      c.Spans t.bytes c' := by
  obtain ⟨cell, -, size, fits, -⟩ := gathered_of_decode hc run scan
  obtain ⟨contents, units⟩ := contents_decode hc run scan aligned switched
  refine ⟨cell, size, contents, ?_, units.trans fits, spans_decode hc run scan aligned switched⟩
  rw [(bytes_of_contents contents).2, fits]

/-- A switch, a return, and the table of the switch at an even address. -/
theorem decode_switch :
    let c := Cursor.ofBytes [0x2b, 0, 4, 0, 0, 0, 0x0e, 0, 0, 1, 0, 0, 0, 0, 0, 0]
    ∃ t c' xs, (decode c).Gives { size := some (.int 8) } c' t ∧ Scan c xs c' ∧ Aligned xs ∧ Switched xs ∧
      xs.length = 3 ∧ c.Spans t.bytes c' := by
  intro c
  let s : Sequence := { size := some (.int 8) }
  let x : Instruction := { opcode := (Opcode.ofUnit? 0x2b).getD .nop, units := [0x2b, 4, 0] }
  let y : Instruction := { opcode := (Opcode.ofUnit? 0x0e).getD .nop, units := [0x0e] }
  have aligned : Aligned [.plain x, .plain y, .packed {}] := by decide +kernel
  have switched : Switched [.plain x, .plain y, .packed {}] := by decide +kernel
  have table : Scan { c with pos := 8 } [.packed {}] { c with pos := 16 } :=
    .cons [0, 1] (Action.eq_ok_of_toOption (by decide +kernel)) (Action.eq_ok_of_toOption (by decide +kernel)) (.nil _)
  have rest : Scan { c with pos := 6 } [.plain y, .packed {}] { c with pos := 16 } :=
    .cons [0x0e, 0] (Action.eq_ok_of_toOption (by decide +kernel)) (Action.eq_ok_of_toOption (by decide +kernel)) table
  have scan : Scan c [.plain x, .plain y, .packed {}] { c with pos := 16 } :=
    .cons [0x2b, 0] (Action.eq_ok_of_toOption (by decide +kernel)) (Action.eq_ok_of_toOption (by decide +kernel)) rest
  have sane : c.Sane := ⟨by decide +kernel, Nat.zero_le _⟩
  have ends : ((decode c).apply s).1.toOption = some { c with pos := 16 } := by decide +kernel
  have run : (decode c).Gives s { c with pos := 16 } ((decode c).apply s).2 := Action.gives_of_toOption ends
  obtain ⟨-, -, -, -, -, bytes⟩ := decode_exact sane run scan aligned switched
  exact ⟨_, _, _, run, scan, aligned, switched, rfl, bytes⟩

/-- `decode` puts padding in front of a payload at an odd address, so the sequence has more code units than were read.
-/
theorem decode_odd_payload :
    let c := Cursor.ofBytes [0x0e, 0, 0, 1, 0, 0, 0, 0, 0, 0]
    ∃ t c', (decode c).Gives { size := some (.int 5) } c' t ∧
      total (t.contents.map fun x => x.item.codeUnits) = 6 ∧ ¬ c.Spans t.bytes c' := by
  intro c
  let s : Sequence := { size := some (.int 5) }
  have ends : ((decode c).apply s).1.toOption = some { c with pos := 10 } ∧
      total (((decode c).apply s).2.contents.map fun x => x.item.codeUnits) = 6 ∧
      ((decode c).apply s).2.bytes.length = 12 := by decide +kernel
  obtain ⟨ok, units, length⟩ := ends
  have run : (decode c).Gives s { c with pos := 10 } ((decode c).apply s).2 := Action.gives_of_toOption ok
  refine ⟨_, _, run, units, fun spans => ?_⟩
  have next := congrArg Cursor.pos spans.next
  rw [length] at next
  cases next

end Sequence

end Dalvik
