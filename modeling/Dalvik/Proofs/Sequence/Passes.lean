import Dalvik.Proofs.Carrying
import Dalvik.Proofs.Opcode
import Dalvik.Proofs.Sequence.Lasting
import Dalvik.Proofs.Sequence.Order
import Dalvik.Proofs.Sequence.Settling

/-!
# The passes of a refresh

After laying out, `refresh` repeats its passes until one widens no jump or fails. `Passes` is this
loop without a bound, and `Swept` says what it leaves. The loop ends after at most two passes for
each short jump and one more. However it ends, it only writes offsets, widens jumps, and adds and
drops padding (`passes_end`).
-/

namespace Dalvik

open Relation (ReflTransGen)

/-- A jump has an offset and no other operand. -/
theorem Opcode.jump_entries : ∀ name ∈ [ascii "goto", ascii "goto/16", ascii "goto/32"], ∀ o ∈ ofName? name,
    o.format.countField? = none ∧ o.format.maxRegisters = 0 ∧ o.format.indexFields = [] ∧ o.ref2 = none := by
  decide +kernel

theorem Sequence.name_of_wider? {op op' : Opcode} (h : wider? op = some op') :
    (op.name = ascii "goto" ∧ op'.name = ascii "goto/16") ∨ (op.name = ascii "goto/16" ∧ op'.name = ascii "goto/32") := by
  unfold wider? at h
  split at h
  · next name => exact .inl ⟨name, Opcode.name_of_ofName? h⟩
  · split at h
    · next name => exact .inr ⟨name, Opcode.name_of_ofName? h⟩
    · cases h

/-! ## Instructions -/

namespace Instruction

variable {x y z : Instruction} {op : Opcode} {v : Int}

/-- An instruction after its offset was written and, if it is a jump, it was widened: everything else is the same. -/
structure Swept (x y : Instruction) : Prop where
  isPadding : y.isPadding = x.isPadding
  opcode : ReflTransGen (fun op op' => Sequence.wider? op = some op') x.opcode y.opcode
  registers : y.registers = x.registers
  index : y.index = x.index
  index2 : y.index2 = x.index2
  still : x.hasTarget = false → y.opcode = x.opcode ∧ y.units = x.units

namespace Swept

theorem refl (x : Instruction) : Swept x x := ⟨rfl, .refl, rfl, rfl, rfl, fun _ => ⟨rfl, rfl⟩⟩

theorem trans (hxy : Swept x y) (hyz : Swept y z) : Swept x z where
  isPadding := hyz.isPadding.trans hxy.isPadding
  opcode := hxy.opcode.trans hyz.opcode
  registers := hyz.registers.trans hxy.registers
  index := hyz.index.trans hxy.index
  index2 := hyz.index2.trans hxy.index2
  still no := by
    obtain ⟨opcode, units⟩ := hxy.still no
    obtain ⟨opcode', units'⟩ := hyz.still (by rw [hasTarget, opcode]; exact no)
    exact ⟨opcode'.trans opcode, units'.trans units⟩

/-- An instruction becomes a no-operation only if it was one. -/
theorem nop (h : Swept x y) (nop : x.opcode = Opcode.nop) : y.opcode = Opcode.nop := by
  rcases h.opcode.cases_head with e | ⟨op, wider, -⟩
  · rw [← e, nop]
  · rw [nop, Item.wider?_nop] at wider
    cases wider

end Swept

/-- Writing an offset changes no other operand. -/
theorem Shaped.swept_setData (hx : x.Shaped) (has : x.hasTarget = true) (h : x.setData v = .ok y) : Swept x y := by
  obtain ⟨-, written, -⟩ := hx.fits.answers_literal.stored h
  have others : ∀ t : Operand, t ≠ .literal → t.Of x.opcode → t.get y = t.get x := by
    intro t ne of
    refine written.get_eq hx.fits (fun e => ne ?_) (.inr of)
    cases t <;> first | rfl | cases e
  have single : x.opcode.format.countField? = none := by
    have format := hx.target_format has
    simp only [List.mem_cons, List.not_mem_nil, or_false] at format
    rcases format with e | e | e | e | e | e <;> rw [e] <;> rfl
  obtain ⟨rs, registers⟩ := hx.fits.exists_registers
  obtain ⟨count, each⟩ := registers_eq_ok_iff.1 registers
  have length : x.opcode.format.maxRegisters = rs.length := by
    rw [registersCount, single] at count
    exact Except.ok.inj count
  have registers' : y.registers = .ok rs := by
    refine registers_eq_ok_iff.2 ⟨registersCount_of_get ?_, fun k hk => ?_⟩
    · rw [others .count Operand.noConfusion trivial, Operand.get, count]
      rfl
    · rw [← each k hk]
      exact others (.register k) Operand.noConfusion ⟨by omega, by omega⟩
  exact ⟨written.isPadding, by rw [written.opcode], by rw [registers', registers],
    others .index Operand.noConfusion trivial, others .index2 Operand.noConfusion trivial, fun no => by rw [has] at no; cases no⟩

/-- A jump has no other operands, before and after it is widened. -/
theorem Shaped.swept_wider (hx : x.Shaped) (has : x.hasTarget = true) (wider : Sequence.wider? x.opcode = some op)
    (h : x.setOpcode op = .ok y) : Swept x y := by
  obtain ⟨opcode, -, isPadding, -⟩ := setOpcode_eq_ok h
  have hy : y.Shaped := Item.stable_shaped.wider wider h hx
  have names := Sequence.name_of_wider? wider
  rw [← opcode] at names
  have bare : ∀ z : Instruction, z.Shaped → z.opcode.name ∈ [ascii "goto", ascii "goto/16", ascii "goto/32"] →
      z.registers = .ok [] ∧ z.index = .ok (-1) ∧ z.index2 = .ok (-1) := by
    intro z hz name
    obtain ⟨count, max, fields, ref2⟩ := Opcode.jump_entries _ name _ (Opcode.ofName?_name (List.mem_append_left _ hz.mem))
    refine ⟨?_, by simp only [index, fields], by simp only [index2, ref2, Option.isSome_none, Bool.false_eq_true, if_false]⟩
    simp only [registers, registersCount, count, max]
    rfl
  obtain ⟨registers, index, index2⟩ := bare x hx (by rcases names with ⟨e, -⟩ | ⟨e, -⟩ <;> simp [e])
  obtain ⟨registers', index', index2'⟩ := bare y hy (by rcases names with ⟨-, e⟩ | ⟨-, e⟩ <;> simp [e])
  exact ⟨isPadding, .single (by rw [wider, opcode]), by rw [registers', registers], by rw [index', index],
    by rw [index2', index2], fun no => by rw [has] at no; cases no⟩

end Instruction

/-! ## Items -/

namespace Item

variable {x y z : Item}

/-- An item after passes: instructions are `Swept`, and payloads have the same contents up to offsets. -/
inductive Swept : Item → Item → Prop where
  | plain {x y : Instruction} (h : x.Swept y) : Swept (.plain x) (.plain y)
  | packed (p : PackedTable) {cs : List Case} (owner : Handle) (length : cs.length = p.cases.length) :
      Swept (.packed p) (.packed { p with cases := cs, owner })
  | sparse (t : SparseTable) {cs : List Case} (owner : Handle) (length : cs.length = t.cases.length) :
      Swept (.sparse t) (.sparse { t with cases := cs, owner })
  | array (a : ArrayPayload) : Swept (.array a) (.array a)

namespace Swept

theorem isPadding (h : Swept x y) : y.isPadding = x.isPadding := by
  cases h with
  | plain h => exact h.isPadding
  | _ => rfl

theorem trans (hxy : Swept x y) (hyz : Swept y z) : Swept x z := by
  cases hxy with
  | plain h =>
    cases hyz with
    | plain h' => exact .plain (h.trans h')
  | packed p owner length =>
    cases hyz with
    | packed _ owner' length' => exact .packed p owner' (length'.trans length)
  | sparse t owner length =>
    cases hyz with
    | sparse _ owner' length' => exact .sparse t owner' (length'.trans length)
  | array a => exact hyz

theorem setCases (x : Item) {cs : List Case} (length : cs.length = x.cases.length) : Swept x (x.setCases cs) := by
  cases x with
  | plain x => exact .plain (.refl x)
  | packed p => exact .packed p p.owner length
  | sparse t => exact .sparse t t.owner length
  | array a => exact .array a

theorem of_unlinked (h : y.unlinked = x.unlinked) : Swept x y := by
  cases x with
  | plain x =>
    cases y with
    | plain y =>
      obtain ⟨opcode, units, target, isPadding⟩ := y
      simp only [unlinked, plain.injEq, Instruction.mk.injEq] at h
      obtain ⟨rfl, rfl, -, rfl⟩ := h
      exact .plain ⟨rfl, .refl, rfl, rfl, rfl, fun _ => ⟨rfl, rfl⟩⟩
    | _ => cases h
  | packed p =>
    cases y with
    | packed q =>
      obtain ⟨identifier, size, first, sameCases, owner⟩ := q
      simp only [unlinked, packed.injEq, PackedTable.mk.injEq] at h
      obtain ⟨rfl, rfl, rfl, sameCases, -⟩ := h
      exact .packed p owner (by simpa using congrArg List.length sameCases)
    | _ => cases h
  | sparse t =>
    cases y with
    | sparse u =>
      obtain ⟨identifier, size, keys, sameCases, owner, unsorted⟩ := u
      simp only [unlinked, sparse.injEq, SparseTable.mk.injEq] at h
      obtain ⟨rfl, rfl, rfl, sameCases, -, rfl⟩ := h
      exact .sparse t owner (by simpa using congrArg List.length sameCases)
    | _ => cases h
  | array a =>
    cases y with
    | array b =>
      cases h
      exact .array a
    | _ => cases h

theorem refl (x : Item) : Swept x x := .of_unlinked rfl

end Swept

end Item

namespace Sequence

open Dalvik.Action (Upholds)

variable {free : Instruction → Prop} {s t u : Sequence} {n k : Nat} {r : Except Stop Unit}

/-! ## Sequences -/

/-- The items are `Swept`, new items are padding, and what is not padding keeps its order. -/
structure Swept (s t : Sequence) : Prop where
  kept : ∀ n x, s.item? n = some x → ∃ y, t.item? n = some y ∧ x.Swept y
  fresh : ∀ n y, t.item? n = some y → s.item? n = none → (Item.plain .padding).Swept y
  added : ∀ n ∈ t.items.toList, n ∈ s.items.toList ∨ s.item? n = none
  order : t.items.toList.filter t.solid = s.items.toList.filter s.solid

/-- An item is padding exactly if it was before. -/
theorem solid_eq_of_swept (kept : ∀ n x, s.item? n = some x → ∃ y, t.item? n = some y ∧ x.Swept y)
    (fresh : ∀ n y, t.item? n = some y → s.item? n = none → (Item.plain .padding).Swept y) : t.solid = s.solid := by
  funext n
  unfold solid
  cases hx : s.item? n with
  | some x =>
    obtain ⟨y, hy, swept⟩ := kept n x hx
    rw [hy, Option.any_some, Option.any_some, swept.isPadding]
  | none =>
    cases hy : t.item? n with
    | none => rfl
    | some y =>
      rw [Option.any_some, (fresh n y hy hx).isPadding]
      rfl

namespace Swept

theorem solid (h : Swept s t) : t.solid = s.solid := solid_eq_of_swept h.kept h.fresh

/-- An item that is not padding is not dropped. -/
theorem stays (h : Swept s t) (hn : n ∈ s.items.toList) (solid : s.solid n = true) : n ∈ t.items.toList := by
  have mem : n ∈ s.items.toList.filter s.solid := List.mem_filter.2 ⟨hn, solid⟩
  rw [← h.order] at mem
  exact (List.mem_filter.1 mem).1

theorem of_items (items : t.items = s.items) (kept : ∀ n x, s.item? n = some x → ∃ y, t.item? n = some y ∧ x.Swept y)
    (absent : ∀ n, s.item? n = none → t.item? n = none) : Swept s t where
  kept := kept
  fresh n y hy hx := by
    rw [absent n hx] at hy
    cases hy
  added n hn := .inl (items ▸ hn)
  order := by
    rw [items, solid_eq_of_swept kept fun n y hy hx => by rw [absent n hx] at hy; cases hy]

theorem refl (s : Sequence) : Swept s s := .of_items rfl (fun _ x hx => ⟨x, hx, .refl x⟩) fun _ h => h

theorem trans (hst : Swept s t) (htu : Swept t u) : Swept s u where
  kept n x hx := by
    obtain ⟨y, hy, swept⟩ := hst.kept n x hx
    obtain ⟨z, hz, swept'⟩ := htu.kept n y hy
    exact ⟨z, hz, swept.trans swept'⟩
  fresh n z hz hx := by
    cases hy : t.item? n with
    | none => exact htu.fresh n z hz hy
    | some y =>
      obtain ⟨z', hz', swept⟩ := htu.kept n y hy
      rw [hz] at hz'
      cases hz'
      exact (hst.fresh n y hy hx).trans swept
  added n hn := by
    rcases htu.added n hn with hn | absent
    · exact hst.added n hn
    · refine .inr ?_
      rw [← Option.not_isSome_iff_eq_none]
      intro there
      obtain ⟨x, hx⟩ := Option.isSome_iff_exists.1 there
      obtain ⟨y, hy, -⟩ := hst.kept n x hx
      rw [absent] at hy
      cases hy
  order := htu.order.trans hst.order

end Swept

theorem swept_modifyItem {f : Item → Item} (swept : ∀ x, s.item? n = some x → x.Swept (f x)) : Swept s (s.modifyItem n f) := by
  refine .of_items rfl (fun m x hx => ?_) fun m hm => ?_
  · rw [item?_modifyItem]
    split
    · next e =>
      subst e
      exact ⟨f x, by rw [hx, Option.map_some], swept x hx⟩
    · exact ⟨x, hx, .refl x⟩
  · rw [item?_modifyItem, hm]
    split <;> rfl

theorem Recode.swept (sound : Sound Item.Shaped s) (step : Recode s t) : Swept s t := by
  cases step with
  | data hx has stored =>
    refine swept_modifyItem fun z hz => ?_
    rw [hx] at hz
    cases hz
    exact .plain ((show Instruction.Shaped _ from sound.holds _ _ hx).swept_setData has stored)
  | wider hx has wider stored =>
    refine swept_modifyItem fun z hz => ?_
    rw [hx] at hz
    cases hz
    exact .plain ((show Instruction.Shaped _ from sound.holds _ _ hx).swept_wider has wider stored)
  | cases hx length =>
    refine swept_modifyItem fun z hz => ?_
    rw [hx] at hz
    cases hz
    exact .setCases _ length

theorem Linked.layout_swept (linked : Linked s s.items.toList) : Swept s s.layout := by
  have evolves := linked.layout_evolves
  have kept : ∀ n x, s.item? n = some x → ∃ y, s.layout.item? n = some y ∧ x.Swept y := by
    intro n x hx
    obtain ⟨y, hy, e⟩ := evolves.kept n x hx
    exact ⟨y, hy, .of_unlinked e⟩
  have fresh : ∀ n y, s.layout.item? n = some y → s.item? n = none → (Item.plain .padding).Swept y :=
    fun n y hy hx => .of_unlinked (evolves.fresh n y hy hx)
  refine ⟨kept, fresh, fun n hn => ?_, ?_⟩
  · cases hx : s.item? n with
    | none => exact .inr rfl
    | some x =>
      obtain ⟨k, hk⟩ := linked.layout.1.handle?_of_mem hn
      refine .inl ((linked.mem_iff n).2 ?_)
      rw [evolves.handles n k (by rw [hx, Option.isSome_some]) hk, Option.isSome_some]
  · rw [solid_eq_of_swept kept fresh]
    exact linked.layout_order

/-- `settle` leaves `Swept`, also if a pass fails. -/
theorem Sound.swept_settle (sound : Sound Item.Shaped s) (fuel : Nat) :
    Sound Item.Shaped ((settle fuel).apply s).2 ∧ Swept s ((settle fuel).apply s).2 := by
  have passes : Upholds (fun t => Sound Item.Shaped t ∧ Swept s t) (settle fuel) := by
    refine upholds_settle (fun t u step ht => ?_) (fun t ht => ?_) fuel
    · exact ⟨ht.1.recode Item.lasting_shaped step, ht.2.trans (step.swept ht.1)⟩
    · exact ⟨ht.1.laidOut Item.lasting_shaped, ht.2.trans ht.1.linked.layout_swept⟩
  exact passes s ⟨sound, .refl s⟩

/-! ## The loop -/

/-- The loop without a bound makes `k` passes; the last one widens no jump or fails. -/
inductive Passes : Nat → Sequence → Except Stop Unit → Sequence → Prop where
  | rest {s t : Sequence} (pass : encodeOffsets.Gives s false t) : Passes 1 s (.ok ⟨⟩) t
  | stop {s t : Sequence} {e : Stop} (pass : encodeOffsets.apply s = (.error e, t)) : Passes 1 s (.error e) t
  | again {k : Nat} {s t u : Sequence} {r : Except Stop Unit} (pass : encodeOffsets.Gives s true t)
      (passes : Passes k t.layout r u) : Passes (k + 1) s r u

/-- A pass that widens a jump makes the total weight smaller, and a layout does not make it larger. -/
theorem Sound.lighter (sound : Sound Item.Shaped s) (pass : encodeOffsets.Gives s true t) :
    Sound Item.Shaped t ∧ t.layout.weight < s.weight := by
  have encodes := gives_encodeOffsets.1 pass
  have grown := encodes.sound Item.stable_shaped sound
  exact ⟨grown, Nat.lt_of_le_of_lt grown.linked.weight_layout encodes.weight_lt⟩

theorem Passes.le_weight (sound : Sound Item.Shaped s) (h : Passes k s r t) : k ≤ s.weight + 1 := by
  induction h with
  | rest => omega
  | stop => omega
  | again pass _ ih =>
    obtain ⟨grown, lighter⟩ := sound.lighter pass
    have := ih (grown.laidOut Item.lasting_shaped)
    omega

/-- With enough fuel, `settle` is the loop without a bound. -/
theorem exists_passes (fuel : Nat) (sound : Sound Item.Shaped s) (enough : s.weight < fuel) :
    ∃ k, Passes k s ((settle fuel).apply s).1 ((settle fuel).apply s).2 := by
  induction fuel generalizing s with
  | zero => omega
  | succ fuel ih =>
    rw [settle, Action.apply_bind]
    rcases pass : encodeOffsets.apply s with ⟨e | grown, t⟩
    · exact ⟨1, .stop pass⟩
    · cases grown with
      | false => exact ⟨1, .rest pass⟩
      | true =>
        obtain ⟨grown, lighter⟩ := sound.lighter pass
        obtain ⟨k, passes⟩ := ih (grown.laidOut Item.lasting_shaped) (by omega)
        exact ⟨k + 1, .again pass passes⟩

/-! ## Short jumps -/

/-- The node is a jump that can be widened. -/
def isShortJump (s : Sequence) (n : Nat) : Bool :=
  (s.item? n).any fun x => decide (x.opcode.name = ascii "goto" ∨ x.opcode.name = ascii "goto/16")

def shortJumps (s : Sequence) : List Nat := s.items.toList.filter s.isShortJump

theorem isShortJump_of_weightAt (h : s.weightAt n ≠ 0) : s.isShortJump n = true := by
  unfold isShortJump
  cases hx : s.item? n with
  | none =>
    rw [weightAt, hx] at h
    exact absurd rfl h
  | some x =>
    rw [weightAt_of_item? hx, jumpWeight] at h
    rw [Option.any_some, decide_eq_true_iff]
    split at h
    · next e => simp [e]
    · split at h
      · next e => simp [e]
      · exact absurd rfl h

theorem weight_le_shortJumps (s : Sequence) : s.weight ≤ 2 * s.shortJumps.length := by
  have card : s.shortJumps.toFinset.card ≤ s.shortJumps.length := List.toFinset_card_le _
  have sum := Finset.sum_le_card_nsmul s.shortJumps.toFinset s.weightAt 2 fun n _ => s.weightAt_le n
  have same : s.weight = ∑ n ∈ s.shortJumps.toFinset, s.weightAt n := by
    rw [shortJumps, List.toFinset_filter]
    exact (Finset.sum_filter_of_ne fun n _ heavy => isShortJump_of_weightAt heavy).symm
  rw [Nat.nsmul_eq_mul] at sum
  calc s.weight = s.shortJumps.toFinset.sum s.weightAt := same
    _ ≤ s.shortJumps.toFinset.card * 2 := sum
    _ ≤ 2 * s.shortJumps.length := by omega

/-- `relink` adds no jump. -/
theorem Evolves.shortJumps_le (h : Evolves s t) (hs : Linked s s.items.toList) (ht : Linked t t.items.toList) :
    t.shortJumps.length ≤ s.shortJumps.length := by
  refine ((ht.nodup.filter _).subperm fun n hn => ?_).length_le
  obtain ⟨mem, jump⟩ := List.mem_filter.1 hn
  obtain ⟨y, hy⟩ := ht.node?_of_mem mem
  have item := item?_of_node? hy
  rcases h.item?_of_item? item with ⟨x, hx, e⟩ | ⟨-, e⟩
  · obtain ⟨k, hk⟩ := ht.handle?_of_mem mem
    refine List.mem_filter.2 ⟨(hs.mem_iff n).2 ?_, ?_⟩
    · rw [h.handles n k (by rw [hx, Option.isSome_some]) hk, Option.isSome_some]
    · rw [isShortJump, item, Option.any_some] at jump
      rw [isShortJump, hx, Option.any_some, ← x.unlinked_opcode, ← e, y.item.unlinked_opcode, jump]
  · rw [isShortJump, item, Option.any_some, ← y.item.unlinked_opcode, e, Item.unlinked_opcode] at jump
    exact absurd jump (by decide +kernel)

/-! ## The end -/

/-- For every `Attempted` sequence, the loop without a bound ends after at most `2 * s.shortJumps.length + 1` passes,
and `settle` with the fuel that `refresh` gives it does the same. It leaves `Swept`; and if no padding was ever given
another opcode, only no-operations are dropped. -/
theorem passes_end (h : Attempted free s) : ∃ k r t, Passes k s.relink r t ∧ k ≤ 2 * s.shortJumps.length + 1 ∧
    (settle (2 * s.relink.items.size + 1)).apply s.relink = (r, t) ∧ Swept s.relink t ∧
    ((∀ x, free x → x.isPadding = false) → ∀ n ∈ s.relink.items.toList, n ∉ t.items.toList →
      (s.relink.item? n).map Item.opcode = some Opcode.nop) := by
  have before : Sound Item.Shaped s := h.sound (Item.lasting_shaped.mono fun _ _ => trivial)
  have sound := before.relaid Item.lasting_shaped
  have sealed : (∀ x, free x → x.isPadding = false) → Sound (fun x => x.Shaped ∧ x.Sealed) s.relink :=
    fun closed => (h.sound (Item.lasting_sealed.mono closed)).relaid Item.lasting_sealed
  have jumps : s.relink.shortJumps.length ≤ s.shortJumps.length :=
    before.linked.relink_evolves.shortJumps_le before.linked sound.linked
  generalize s.relink = u at sound sealed jumps ⊢
  have weight := u.weight_le_shortJumps
  have few : u.shortJumps.length ≤ u.items.size := List.length_filter_le _ u.items.toList
  obtain ⟨k, passes⟩ := exists_passes (2 * u.items.size + 1) sound (by omega)
  obtain ⟨-, swept⟩ := sound.swept_settle (2 * u.items.size + 1)
  generalize (settle (2 * u.items.size + 1)).apply u = outcome at passes swept ⊢
  have bound := passes.le_weight sound
  refine ⟨k, outcome.1, outcome.2, passes, by omega, rfl, swept, fun closed n hn dropped => ?_⟩
  obtain ⟨x, hx⟩ := sound.linked.node?_of_mem hn
  have item := item?_of_node? hx
  have padding : x.item.isPadding = true := by
    by_contra solid
    refine dropped (swept.stays hn ?_)
    rw [Sequence.solid, item, Option.any_some, Bool.not_eq_true']
    simpa using solid
  rw [item, Option.map_some, ((sealed closed).holds n _ item).2 padding]

/-- A `goto`, the padding of an array, the array, and a return that the offset of the `goto` cannot reach. -/
def farCode : Cursor := .ofBytes ([0x28, 2, 0, 0, 0, 3, 1, 0, 252, 0, 0, 0] ++ List.replicate 252 0 ++ [0x0e, 0])

def far : Sequence := ((decode farCode).apply { size := some (.int 133) }).2

/-- The jump to the return is widened, and the padding of the array is dropped. -/
theorem passes_end_far : ∃ s k r t, far.setTarget 0 3 = .ok s ∧ Attempted (fun x => x.isPadding = false) s ∧
    Passes k s.relink r t ∧ k ≤ 3 ∧ Swept s.relink t ∧ (t.item? 0).map (fun x => x.opcode.name) = some (ascii "goto/16") ∧
    1 ∈ s.relink.items.toList ∧ 1 ∉ t.items.toList ∧ (s.relink.item? 1).map Item.opcode = some Opcode.nop := by
  have ends : (far.setTarget 0 3).toOption.map (fun s =>
      let u := ((settle (2 * s.relink.items.size + 1)).apply s.relink).2
      (s.shortJumps, s.relink.items.toList, (u.item? 0).map (fun x => x.opcode.name), u.items.toList)) =
      some ([0], [0, 1, 2, 3], some (ascii "goto/16"), [0, 2, 3]) := by decide +kernel
  cases aimed : far.setTarget 0 3 with
  | error e =>
    rw [aimed] at ends
    cases ends
  | ok s =>
    rw [aimed] at ends
    simp only [Except.toOption, Option.map_some, Option.some.injEq, Prod.mk.injEq] at ends
    obtain ⟨jumps, items, widened, left⟩ := ends
    have read : Attempted (fun x => x.isPadding = false) far := .step (.new (some (.int 133)) none) (.decode _ farCode)
    have attempted : Attempted (fun x => x.isPadding = false) s := .step read (.setTarget aimed)
    obtain ⟨k, r, t, passes, le, run, swept, dropped⟩ := passes_end attempted
    rw [run] at widened left
    have first : 1 ∈ s.relink.items.toList := by rw [items]; decide
    have gone : 1 ∉ t.items.toList := by rw [left]; decide
    rw [jumps] at le
    exact ⟨s, k, r, t, rfl, attempted, passes, le, swept, widened, first, gone, dropped (fun _ h => h) 1 first gone⟩

end Sequence

end Dalvik
