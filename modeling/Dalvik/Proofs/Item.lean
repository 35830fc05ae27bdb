import Dalvik.Proofs.Payload
import Dalvik.Proofs.Reading

/-!
# Items and their edits

`x.Shaped` says that the parts of an item agree with each other: the units of an instruction with
its opcode, the lists of a table with each other, the element count of an array with its data. Every
item that is made from scratch (`Made.shaped`), edited (`Edited.shaped`) or read (`shaped_of_raw`)
is shaped.

`Stable free P` lists the changes that a sequence makes to its items by itself, so a property of all
items is checked once for each of them (`stable_shaped`, `stable_sealed`).
-/

namespace Dalvik

/-! ## Shape -/

/-- The stored count is the number of elements, the data has that many, and the padding makes up whole code units. -/
structure ArrayPayload.Shaped (a : ArrayPayload) : Prop where
  identifier : a.identifier = UInt16.ofNat Opcode.arrayPayload.value
  width : ArrayPayload.isWidth a.width.toNat = true
  count : ∃ n, a.data.length = a.width.toNat * n ∧ a.count = UInt32.ofNat n
  pad : a.pad.length = a.data.length % 2

namespace Item

variable {x y : Item}

def Shaped : Item → Prop
  | .plain x => x.Shaped
  | .packed p => p.identifier = UInt16.ofNat Opcode.packedSwitchPayload.value
  | .sparse t =>
    t.identifier = UInt16.ofNat Opcode.sparseSwitchPayload.value ∧ t.keys.length = t.cases.length
  | .array a => a.Shaped

theorem shaped_of_raw (h : x.Raw) : x.Shaped := by
  cases x with
  | plain x => exact h.shaped
  | packed p => exact h.identifier
  | sparse t => exact ⟨h.identifier, h.keys⟩
  | array a =>
    refine ⟨h.identifier, h.width, ⟨a.count.toNat, h.data, ?_⟩, h.pad⟩
    rw [UInt32.ofNat_toNat]

/-- `Shaped` does not depend on the handles of an item. -/
theorem shaped_unlinked : x.unlinked.Shaped ↔ x.Shaped := by
  cases x with
  | plain x => exact ⟨fun h => ⟨h.mem, h.length, h.low⟩, fun h => ⟨h.mem, h.length, h.low⟩⟩
  | packed p => rfl
  | sparse t => simp [unlinked, Shaped]
  | array a => rfl

theorem Shaped.byteCount_eq (h : x.Shaped) : x.byteCount = 2 * x.codeUnits := by
  cases x with
  | plain x => rfl
  | packed p => simp only [byteCount, codeUnits, PackedTable.byteCount]; omega
  | sparse t => simp only [byteCount, codeUnits, SparseTable.byteCount]; omega
  | array a =>
    have := h.pad
    simp only [byteCount, codeUnits, ArrayPayload.byteCount]
    omega

theorem Shaped.codeUnits_pos (h : x.Shaped) : 0 < x.codeUnits := by
  cases x with
  | plain x =>
    have := Opcode.units_pos_of_mem _ h.mem
    simp only [codeUnits, h.length]
    omega
  | packed p => simp only [codeUnits, byteCount, PackedTable.byteCount]; omega
  | sparse t => simp only [codeUnits, byteCount, SparseTable.byteCount]; omega
  | array a => simp only [codeUnits, byteCount, ArrayPayload.byteCount]; omega

theorem Shaped.extent_pos (h : x.Shaped) : 0 < x.extent := by
  unfold extent
  split
  · exact Nat.one_pos
  · exact h.codeUnits_pos

theorem cases_setCases {cs : List Case} (h : cs.length = x.cases.length) : (x.setCases cs).cases = cs := by
  cases x with
  | packed p => rfl
  | sparse t => rfl
  | plain i => exact (List.length_eq_zero_iff.1 h).symm
  | array a => exact (List.length_eq_zero_iff.1 h).symm

theorem shaped_setCases {cs : List Case} (length : cs.length = x.cases.length) (h : x.Shaped) :
    (x.setCases cs).Shaped := by
  cases x with
  | plain x => exact h
  | packed p => exact h
  | sparse t => exact ⟨h.1, h.2.trans length.symm⟩
  | array a => exact h

/-- Refreshing a payload keeps its shape, its size, its opcode and its owner, and an instruction as it is. -/
theorem gives_refresh (h : Item.refresh.Gives x ⟨⟩ y) :
    (x.Shaped → y.Shaped) ∧ y.codeUnits = x.codeUnits ∧ y.isPadding = x.isPadding ∧ y.isPayload = x.isPayload ∧
      y.opcode = x.opcode ∧ y.owner? = x.owner? ∧ ∀ i, x = .plain i → y = x := by
  unfold Item.refresh at h
  cases x with
  | plain i =>
    cases h
    exact ⟨id, rfl, rfl, rfl, rfl, rfl, fun _ _ => rfl⟩
  | array a =>
    cases h
    exact ⟨id, rfl, rfl, rfl, rfl, rfl, fun _ e => by cases e⟩
  | packed p =>
    cases h
    exact ⟨id, rfl, rfl, rfl, rfl, rfl, fun _ e => by cases e⟩
  | sparse t =>
    simp only [Action.gives_of] at h
    rcases e : SparseTable.refresh.apply t with ⟨r, u⟩
    rw [e] at h
    cases h
    obtain ⟨rearranged, -⟩ := SparseTable.gives_refresh e
    refine ⟨fun hx => ⟨rearranged.identifier.trans hx.1, ?_⟩, ?_, rfl, rfl, rfl, ?_, fun _ e => by cases e⟩
    · rw [rearranged.keys, rearranged.cases, hx.2]
    · simp only [codeUnits, byteCount, SparseTable.byteCount, rearranged.keys, rearranged.cases]
    · simp only [owner?, rearranged.owner]

/-- The cases of a switch table, each with the value that leads to it; empty for other items. -/
def pairs (x : Item) : List (Int × Case) := x.caseKeys.zip x.cases

theorem pairs_sparse (t : SparseTable) : (Item.sparse t).pairs = t.pairs.map (Prod.map signed32 id) := by
  simp only [pairs, caseKeys, cases, SparseTable.values, SparseTable.pairs, List.zip_map_left]

theorem mem_pairs_of_mem_cases (hx : x.Shaped) {c : Case} (hc : c ∈ x.cases) : ∃ k, (k, c) ∈ x.pairs := by
  have length : x.caseKeys.length = x.cases.length := by
    cases x with
    | packed p => simp [caseKeys, cases, PackedTable.keys]
    | sparse t => simpa [caseKeys, cases, SparseTable.values] using hx.2
    | plain i => cases hc
    | array a => cases hc
  obtain ⟨i, hi, rfl⟩ := List.mem_iff_getElem.1 hc
  refine ⟨x.caseKeys[i], ?_⟩
  rw [List.mem_iff_getElem]
  exact ⟨i, by simp [pairs, length, hi], by simp [pairs]⟩

/-- Refreshing a sparse table may reorder its cases, and each stays with its value. -/
theorem pairs_refresh (h : Item.refresh.Gives x ⟨⟩ y) : y.pairs.Perm x.pairs := by
  unfold Item.refresh at h
  cases x with
  | plain i => cases h; exact .refl _
  | array a => cases h; exact .refl _
  | packed p => cases h; exact .refl _
  | sparse t =>
    simp only [Action.gives_of] at h
    rcases e : SparseTable.refresh.apply t with ⟨r, u⟩
    rw [e] at h
    cases h
    rw [pairs_sparse, pairs_sparse]
    exact (SparseTable.gives_refresh e).1.pairs.map _

/-- What `refresh` establishes: counts are right, and the values of a sparse table are in order. -/
def Refreshed : Item → Prop
  | .packed p => p.size = UInt16.ofNat p.cases.length
  | .sparse t => t.size = UInt16.ofNat t.cases.length ∧ t.keys.Pairwise fun k l => signed32 k < signed32 l
  | _ => True

theorem refreshed_refresh (h : Item.refresh.Gives x ⟨⟩ y) : y.Refreshed := by
  unfold Item.refresh at h
  cases x with
  | plain i => cases h; trivial
  | array a => cases h; trivial
  | packed p => cases h; rfl
  | sparse t =>
    simp only [Action.gives_of] at h
    rcases e : SparseTable.refresh.apply t with ⟨r, u⟩
    rw [e] at h
    cases h
    exact (SparseTable.gives_refresh e).2.2

theorem eq_of_refresh_sparse {t : SparseTable} (increasing : t.keys.Pairwise fun k l => signed32 k < signed32 l)
    (h : Item.refresh.Gives (.sparse t) ⟨⟩ y) : y = .sparse { t with unsorted := false }.updateSize := by
  have run : SparseTable.refresh.apply t = _ := SparseTable.gives_refresh_of_increasing increasing
  simp only [Item.refresh, Action.gives_of, run] at h
  exact (Prod.mk.inj h).2.symm

theorem unsorted_refresh (h : Item.refresh.Gives x ⟨⟩ y) {t : SparseTable} (e : y = .sparse t) : t.unsorted = false := by
  subst e
  unfold Item.refresh at h
  cases x with
  | sparse u =>
    simp only [Action.gives_of] at h
    rcases e : SparseTable.refresh.apply u with ⟨r, v⟩
    rw [e] at h
    cases h
    exact (SparseTable.gives_refresh e).2.1
  | _ => cases h

/-- `refresh` leaves a `Refreshed` item as it is. -/
theorem refresh_of_refreshed (h : x.Refreshed) (sorted : ∀ t, x = .sparse t → t.unsorted = false) : Item.refresh.Gives x ⟨⟩ x := by
  cases x with
  | plain i => rfl
  | array a => rfl
  | packed p =>
    have size : p.size = UInt16.ofNat p.cases.length := h
    change (Except.ok PUnit.unit, Item.packed { p with size := UInt16.ofNat p.cases.length }) = _
    rw [← size]
  | sparse t =>
    obtain ⟨size, increasing⟩ := (h : t.size = _ ∧ _)
    have run : SparseTable.refresh.apply t = (.ok ⟨⟩, t) := SparseTable.refresh_of_increasing (sorted t rfl) size increasing
    have apply_eq : Item.refresh.apply (.sparse t) =
        ((SparseTable.refresh.apply t).1, .sparse (SparseTable.refresh.apply t).2) := rfl
    rw [Action.Gives, apply_eq, run]

/-- Refreshing a second time changes nothing. -/
theorem refresh_refresh (h : Item.refresh.Gives x ⟨⟩ y) : Item.refresh.Gives y ⟨⟩ y :=
  refresh_of_refreshed (refreshed_refresh h) fun _ => unsorted_refresh h

end Item

/-! ## Edits -/

/-- `y` is `x` with one operand set. -/
inductive Instruction.Tuned (x y : Instruction) : Prop where
  | registersCount (n : Int) (h : x.setRegistersCount n = .ok y)
  | register (i v : Int) (h : x.setRegister i v = .ok y)
  | data (v : Int) (h : x.setData v = .ok y)
  | index (i : Int) (h : x.setIndex i = .ok y)
  | index2 (i : Int) (h : x.setIndex2 i = .ok y)
  | constant (k : Option Constant) (pool pool' : Option Pool) (h : (x.setConstant k).Gives pool y pool')
  | constant2 (k : Option Constant) (pool pool' : Option Pool) (h : (x.setConstant2 k).Gives pool y pool')

theorem Instruction.Tuned.retuned {x y : Instruction} (h : x.Tuned y) (hx : x.Shaped) : Retuned x y := by
  cases h with
  | registersCount n h => exact retuned_setRegistersCount h
  | register i v h => exact retuned_setRegister h
  | data v h => exact retuned_setData h
  | index i h => exact retuned_setIndex h
  | index2 i h => exact retuned_setIndex2 hx.fits h
  | constant k pool pool' h => exact retuned_setConstant h
  | constant2 k pool pool' h => exact retuned_setConstant2 hx.fits h

namespace Item

variable {x y : Item}

/-- `x.Edited y`: one edit in place turns `x` into `y`. Padding keeps its opcode. -/
inductive Edited : Item → Item → Prop where
  | operand {x y : Instruction} (h : x.Tuned y) : Edited (.plain x) (.plain y)
  | opcode {x y : Instruction} {op : Opcode} (solid : x.isPadding = false) (mem : op ∈ Opcode.all)
      (h : x.setOpcode op = .ok y) : Edited (.plain x) (.plain y)
  | cases {x : Item} {cs : List Case} (length : cs.length = x.cases.length) : Edited x (x.setCases cs)
  | packedFirst (p : PackedTable) (first : UInt32) : Edited (.packed p) (.packed { p with first })
  | packedPush (p : PackedTable) (c : Case) : Edited (.packed p) (.packed (p.push c))
  | packedResize (p : PackedTable) (n : Int) : Edited (.packed p) (.packed (p.resize n))
  | packedRemove {p q : PackedTable} (i : Int) (h : p.removeAt i = .ok q) : Edited (.packed p) (.packed q)
  | sparsePush (t : SparseTable) (key : Int) (c : Case) : Edited (.sparse t) (.sparse (t.push key c))
  | sparseKey {t u : SparseTable} (i key : Int) (h : t.setKey i key = .ok u) : Edited (.sparse t) (.sparse u)
  | sparseRemove {t u : SparseTable} (i : Int) (h : t.removeAt i = .ok u) : Edited (.sparse t) (.sparse u)
  | sparseSort {t u : SparseTable} (moved : Bool) (h : t.sort = .ok (moved, u)) : Edited (.sparse t) (.sparse u)
  | arrayValues {a b : ArrayPayload} (width : Int) (values : List Int) (h : a.setValues width values = .ok b) :
      Edited (.array a) (.array b)

/-- The item was made from scratch and then edited any number of times. -/
inductive Made : Item → Prop where
  | instruction {op : Opcode} {x : Instruction} (mem : op ∈ Opcode.all) (h : Instruction.new op = .ok x) :
      Made (.plain x)
  | packed : Made (.packed {})
  | sparse : Made (.sparse {})
  | array : Made (.array {})
  | edit {x y : Item} (made : Made x) (h : Edited x y) : Made y

theorem mem_instructions_of_setOpcode {x y : Instruction} {op : Opcode} (mem : op ∈ Opcode.all)
    (h : x.setOpcode op = .ok y) : op ∈ Opcode.instructions :=
  Opcode.mem_instructions mem (Instruction.setOpcode_eq_ok h).2.2.2.1

theorem shaped_setOpcode {x y : Instruction} {op : Opcode} (mem : op ∈ Opcode.all) (h : x.setOpcode op = .ok y)
    (hx : x.Shaped) : y.Shaped :=
  (Instruction.setOpcode_eq_ok h).2.2.2.2 (mem_instructions_of_setOpcode mem h) hx

theorem length_flatMap_toLittleEndian (width : Nat) (values : List Int) :
    (values.flatMap fun (v : Int) => toLittleEndian width (v % twoPow 64).toNat).length = width * values.length := by
  induction values with
  | nil => simp
  | cons v values ih => simp [length_toLittleEndian, ih, Nat.mul_add, Nat.add_comm]

theorem shaped_setValues {a b : ArrayPayload} {width : Int} {values : List Int}
    (h : a.setValues width values = .ok b) (ha : a.Shaped) : b.Shaped := by
  unfold ArrayPayload.setValues at h
  split at h
  · next isWidth =>
    cases h
    have width_eq : (UInt16.ofInt width).toNat = width.toNat := by
      simp only [ArrayPayload.isWidth, Bool.or_eq_true, decide_eq_true_eq] at isWidth
      rcases isWidth with ((rfl | rfl) | rfl) | rfl <;> rfl
    have nonneg : 0 ≤ width := by
      simp only [ArrayPayload.isWidth, Bool.or_eq_true, decide_eq_true_eq] at isWidth
      omega
    refine ⟨ha.identifier, ?_, ⟨values.length, ?_, rfl⟩, ?_⟩
    · simp only [width_eq, Int.toNat_of_nonneg nonneg, isWidth]
    · simp only [width_eq, length_flatMap_toLittleEndian]
    · exact length_resizeList
  · cases h

theorem Edited.shaped (h : Edited x y) (hx : x.Shaped) : y.Shaped := by
  cases h with
  | operand h => exact (h.retuned hx).shaped hx
  | opcode _ mem h => exact shaped_setOpcode mem h hx
  | cases length => exact shaped_setCases length hx
  | packedFirst => exact hx
  | packedPush => exact hx
  | packedResize => exact hx
  | packedRemove i h =>
    unfold PackedTable.removeAt at h
    split at h
    · cases h
      exact hx
    · cases h
  | sparsePush t key c => exact ⟨hx.1, by simp [SparseTable.push, SparseTable.updateSize, hx.2]⟩
  | sparseKey i key h =>
    unfold SparseTable.setKey at h
    split at h
    · cases h
      exact ⟨hx.1, by simpa using hx.2⟩
    · cases h
  | sparseRemove i h =>
    unfold SparseTable.removeAt at h
    split at h
    · next inside =>
      cases h
      refine ⟨hx.1, ?_⟩
      simp only [SparseTable.updateSize, List.length_eraseIdx, hx.2]
    · cases h
  | sparseSort moved h =>
    obtain ⟨rearranged, -⟩ := SparseTable.sort_eq_ok h
    exact ⟨rearranged.identifier.trans hx.1, by rw [rearranged.keys, rearranged.cases, hx.2]⟩
  | arrayValues width values h => exact shaped_setValues h hx

theorem opcode_setCases (x : Item) (cs : List Case) : (x.setCases cs).opcode = x.opcode := by
  cases x <;> rfl

theorem isPadding_setCases (x : Item) (cs : List Case) : (x.setCases cs).isPadding = x.isPadding := by
  cases x <;> rfl

theorem Edited.isPadding (h : Edited x y) (hx : x.Shaped) : y.isPadding = x.isPadding := by
  cases h with
  | operand h => exact (h.retuned hx).isPadding
  | opcode _ mem h => exact (Instruction.setOpcode_eq_ok h).2.2.1
  | cases length => exact isPadding_setCases _ _
  | _ => rfl

/-- An edit keeps the owner of a table, and whether an item is a payload. -/
theorem Edited.owner?_isPayload (h : Edited x y) : y.owner? = x.owner? ∧ y.isPayload = x.isPayload := by
  cases h with
  | cases length => cases x <;> exact ⟨rfl, rfl⟩
  | packedRemove i h =>
    unfold PackedTable.removeAt at h
    split at h
    · cases h
      exact ⟨rfl, rfl⟩
    · cases h
  | sparseKey i key h =>
    unfold SparseTable.setKey at h
    split at h
    · cases h
      exact ⟨rfl, rfl⟩
    · cases h
  | sparseRemove i h =>
    unfold SparseTable.removeAt at h
    split at h
    · cases h
      exact ⟨rfl, rfl⟩
    · cases h
  | sparseSort moved h => exact ⟨congrArg some (SparseTable.sort_eq_ok h).1.owner, rfl⟩
  | _ => exact ⟨rfl, rfl⟩

theorem new_eq_ok {op : Opcode} {x : Instruction} (mem : op ∈ Opcode.all) (h : Instruction.new op = .ok x) :
    op ∈ Opcode.instructions ∧ x = Instruction.blank op := by
  unfold Instruction.new at h
  split at h
  · cases h
  · next payload =>
    cases h
    exact ⟨Opcode.mem_instructions mem (by simpa using payload), rfl⟩

theorem made_blank {op : Opcode} (mem : op ∈ Opcode.instructions) : Made (.plain (.blank op)) := by
  refine .instruction (List.mem_append_left _ mem) ?_
  rw [Instruction.new, if_neg (by simp [Opcode.isPayload_of_mem op mem])]

theorem Made.shaped (h : Made x) : x.Shaped := by
  induction h with
  | instruction mem h =>
    obtain ⟨mem, rfl⟩ := new_eq_ok mem h
    exact Instruction.shaped_blank mem
  | packed => rfl
  | sparse => exact ⟨rfl, rfl⟩
  | array => exact ⟨rfl, rfl, ⟨0, rfl, rfl⟩, rfl⟩
  | edit _ h ih => exact h.shaped ih

theorem Made.isPadding (h : Made x) : x.isPadding = false := by
  induction h with
  | instruction mem h =>
    obtain ⟨-, rfl⟩ := new_eq_ok mem h
    rfl
  | edit made h ih => rw [h.isPadding made.shaped, ih]
  | _ => rfl

/-! ## What a sequence does to its items -/

/-- `P` is kept by every change that laying out, reading or refreshing a sequence makes to an item. An instruction
becomes another switch only if `free` holds of it. -/
structure Stable (free : Instruction → Prop) (P : Item → Prop) : Prop where
  shaped : ∀ {x}, P x → x.Shaped
  padding : P (.plain .padding)
  relinked : ∀ {x y}, y.unlinked = x.unlinked → P x → P y
  recased : ∀ {x cs}, cs.length = x.cases.length → P x → P (x.setCases cs)
  data : ∀ {x y v}, Instruction.setData x v = .ok y → P (.plain x) → P (.plain y)
  wider : ∀ {x y op}, Sequence.wider? x.opcode = some op → x.setOpcode op = .ok y → P (.plain x) → P (.plain y)
  opcode : ∀ {x y op}, free x → op ∈ Opcode.all → op.is .switch = true → x.setOpcode op = .ok y → P (.plain x) →
    P (.plain y)
  refreshed : ∀ {x y}, Item.refresh.Gives x ⟨⟩ y → P x → P y
  marked : ∀ {x}, x.units.head? = some 0 → P (.plain x) → P (.plain { x with isPadding := true })
  raw : ∀ {x}, x.Raw → P x
  made : ∀ {x}, x.Made → P x
  toSparse : ∀ {p}, P (.packed p) → P (.sparse p.toSparse)
  toPacked : ∀ {t p u}, SparseTable.toPacked.Gives t p u → P (.sparse t) → P (.packed p) ∧ P (.sparse u)

/-- `wider?` gives `goto/16` or `goto/32`. -/
theorem wider?_cases {op op' : Opcode} (h : Sequence.wider? op = some op') :
    Opcode.ofName? (ascii "goto/16") = some op' ∨ Opcode.ofName? (ascii "goto/32") = some op' := by
  unfold Sequence.wider? at h
  split at h
  · exact .inl h
  · split at h
    · exact .inr h
    · cases h

theorem mem_all_of_wider? {op op' : Opcode} (h : Sequence.wider? op = some op') : op' ∈ Opcode.all := by
  rcases wider?_cases h with h | h
  · exact Opcode.mem_all_of_ofName? h
  · exact Opcode.mem_all_of_ofName? h

theorem shaped_padding : (Item.plain .padding).Shaped :=
  ⟨by decide, rfl, rfl⟩

theorem shaped_toSparse (p : PackedTable) : (Item.sparse p.toSparse).Shaped :=
  ⟨rfl, by simp [PackedTable.toSparse, SparseTable.updateSize, PackedTable.keys]⟩

theorem gives_toPacked_shaped {t u : SparseTable} {p : PackedTable} (h : SparseTable.toPacked.Gives t p u)
    (ht : (Item.sparse t).Shaped) : (Item.packed p).Shaped ∧ (Item.sparse u).Shaped := by
  obtain ⟨identifier, -, rearranged⟩ := SparseTable.gives_toPacked h
  refine ⟨identifier, rearranged.identifier.trans ht.1, ?_⟩
  rw [rearranged.keys, rearranged.cases, ht.2]

/-- `Shaped` is stable, whatever instructions become other switches. -/
theorem stable_shaped : Stable (fun _ => True) Shaped where
  shaped := id
  padding := shaped_padding
  relinked e h := shaped_unlinked.1 (e ▸ shaped_unlinked.2 h)
  recased length h := shaped_setCases length h
  data h hx := (Instruction.retuned_setData h).shaped hx
  wider w h hx := shaped_setOpcode (mem_all_of_wider? w) h hx
  opcode _ mem _ h hx := shaped_setOpcode mem h hx
  refreshed h hx := (gives_refresh h).1 hx
  marked _ h := ⟨h.mem, h.length, h.low⟩
  raw := shaped_of_raw
  made := Made.shaped
  toSparse _ := shaped_toSparse _
  toPacked h ht := gives_toPacked_shaped h ht

/-- If the item is padding, it is a `nop`. -/
def Sealed (x : Item) : Prop := x.isPadding = true → x.opcode = Opcode.nop

theorem wider?_nop : Sequence.wider? Opcode.nop = none := by decide

/-- `Shaped` and `Sealed` together are stable if padding is never made a switch. -/
theorem stable_sealed : Stable (fun x => x.isPadding = false) (fun x => x.Shaped ∧ x.Sealed) where
  shaped h := h.1
  padding := ⟨shaped_padding, fun _ => rfl⟩
  relinked {x y} e h := by
    refine ⟨stable_shaped.relinked e h.1, fun padding => ?_⟩
    rw [← unlinked_isPadding, e, unlinked_isPadding] at padding
    rw [← unlinked_opcode, e, unlinked_opcode, h.2 padding]
  recased {x cs} length h := by
    refine ⟨shaped_setCases length h.1, fun padding => ?_⟩
    rw [isPadding_setCases] at padding
    rw [opcode_setCases, h.2 padding]
  data h hx := by
    have retuned := Instruction.retuned_setData h
    refine ⟨retuned.shaped hx.1, fun padding => ?_⟩
    exact retuned.opcode.trans (hx.2 (retuned.isPadding.symm.trans padding))
  wider {x y op} w h hx := by
    refine ⟨stable_shaped.wider w h hx.1, fun padding => ?_⟩
    have nop : x.opcode = Opcode.nop := hx.2 ((Instruction.setOpcode_eq_ok h).2.2.1.symm.trans padding)
    rw [nop, wider?_nop] at w
    cases w
  opcode {x y op} solid mem _ h hx := by
    refine ⟨shaped_setOpcode mem h hx.1, fun padding => ?_⟩
    have kept : x.isPadding = true := (Instruction.setOpcode_eq_ok h).2.2.1.symm.trans padding
    rw [solid] at kept
    cases kept
  refreshed {x y} h hx := by
    obtain ⟨shaped, -, isPadding, -, opcode, -⟩ := gives_refresh h
    exact ⟨shaped hx.1, fun padding => opcode.trans (hx.2 (isPadding.symm.trans padding))⟩
  marked zero h := ⟨⟨h.1.mem, h.1.length, h.1.low⟩, fun _ => h.1.eq_nop zero⟩
  raw {x} h := by
    refine ⟨shaped_of_raw h, fun padding => ?_⟩
    cases x with
    | plain x => rw [show (Item.plain x).isPadding = x.isPadding from rfl, h.isPadding] at padding; cases padding
    | _ => cases padding
  made h := ⟨h.shaped, fun padding => by rw [h.isPadding] at padding; cases padding⟩
  toSparse _ := ⟨shaped_toSparse _, fun padding => by cases padding⟩
  toPacked h ht := by
    obtain ⟨hp, hu⟩ := gives_toPacked_shaped h ht.1
    exact ⟨⟨hp, fun padding => by cases padding⟩, hu, fun padding => by cases padding⟩

theorem Edited.sealed (h : Edited x y) (hx : x.Shaped ∧ x.Sealed) : y.Shaped ∧ y.Sealed := by
  refine ⟨h.shaped hx.1, fun padding => ?_⟩
  have before := hx.2 (by rw [← h.isPadding hx.1, padding])
  cases h with
  | operand h => exact (h.retuned hx.1).opcode.trans before
  | opcode solid mem h =>
    have kept := (Instruction.setOpcode_eq_ok h).2.2.1.symm.trans padding
    rw [solid] at kept
    cases kept
  | cases length => rw [opcode_setCases, before]
  | _ => cases padding

/-- For a sealed item the layout sets aside as many units as the item has. -/
theorem extent_eq_codeUnits (h : x.Shaped ∧ x.Sealed) : x.extent = x.codeUnits := by
  unfold extent
  split
  · next padding =>
    cases x with
    | plain x =>
      have nop : x.opcode = Opcode.nop := h.2 padding
      rw [codeUnits, h.1.length, nop]
      rfl
    | _ => cases padding
  · rfl

end Item

end Dalvik
