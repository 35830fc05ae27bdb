import Dalvik.Proofs.Item

/-!
# Items that can be read back

An instruction is written with its opcode in the low byte of its first unit and is found again by
that byte, unless the whole unit is the mark of a payload. Only a `nop` whose high byte is not zero
can be taken for a payload, and no instruction that is made from scratch or read has one.
`stable_legible` says that a sequence keeps its items `Legible`, as long as only switches are given
other opcodes.
-/

namespace Dalvik

namespace Instruction

variable {x y : Instruction}

/-- An instruction of format `10x` has only its opcode in its unit. -/
def Neat (x : Instruction) : Prop := x.opcode.format = .f10x → x.units = (blank x.opcode).units

theorem Shaped.readable_of_value (hx : x.Shaped) (h : x.opcode.value ≠ 0) : x.Readable := by
  obtain ⟨u, hu, low⟩ := Option.map_eq_some_iff.1 hx.low
  refine ⟨u, hu, ?_⟩
  rw [Opcode.ofUnit?_of_low (by rw [low]; exact h), low, Opcode.ofValue?_value hx.mem]

theorem Shaped.readable_of_neat (hx : x.Shaped) (neat : x.Neat) : x.Readable := by
  by_cases zero : x.opcode.value = 0
  · have units := neat (Opcode.format_of_value_zero _ hx.mem zero)
    rw [blank, zero] at units
    have head : x.units.head? = some 0 := by rw [units]; rfl
    exact ⟨0, head, by rw [hx.eq_nop head]; decide⟩
  · exact hx.readable_of_value zero

theorem Retuned.neat (h : Retuned x y) (hx : x.Neat) : y.Neat := by
  intro bare
  rw [h.opcode] at bare
  rw [h.bare bare, h.opcode, hx bare]

theorem neat_setOpcode {op : Opcode} (mem : op ∈ Opcode.instructions) (hx : x.Shaped) (neat : x.Neat)
    (h : x.setOpcode op = .ok y) : y.Neat := by
  intro bare
  have opcode := (setOpcode_eq_ok h).1
  rw [opcode] at bare
  obtain ⟨-, h⟩ := gives_changeOpcode.1 (setOpcode_eq_ok_iff.1 h)
  rcases h with ⟨same, u, rest, e, rfl⟩ | ⟨-, run⟩
  · have units := neat (same ▸ bare)
    rw [blank, ← same, bare, e] at units
    obtain ⟨rfl, rfl⟩ := List.cons.inj units
    have small := Opcode.value_lt_of_mem op mem
    have small' := Opcode.value_lt_of_mem _ hx.mem
    -- The high byte was empty before.
    have unit : UInt16.ofNat x.opcode.value &&& 0xff00 ||| UInt16.ofNat op.value = UInt16.ofNat op.value := by
      rw [← UInt16.toNat_inj, toNat_retag _ small, UInt16.toNat_ofNat_of_lt' (show x.opcode.value < 65536 by omega),
        UInt16.toNat_ofNat_of_lt' (show op.value < 65536 by omega), Nat.div_eq_of_lt small']
      omega
    simp only [blank, bare, unit]
  · have retuned := retuned_takeOperands x (x.bared op)
    rw [show x.takeOperands.apply (x.bared op) = _ from run] at retuned
    rw [retuned.bare bare, retuned.opcode]

end Instruction

namespace Item

variable {x y : Item}

/-- The first unit of an instruction is not the mark of a payload; true of payloads. -/
def Legible : Item → Prop
  | .plain i => i.Readable
  | _ => True

theorem Edited.neat (h : Edited x y) (hx : x.Shaped) (neat : ∀ i, x = .plain i → i.Neat) : ∀ i, y = .plain i → i.Neat := by
  cases h with
  | operand h =>
    rintro _ ⟨⟩
    exact (h.retuned hx).neat (neat _ rfl)
  | opcode _ mem h =>
    rintro _ ⟨⟩
    exact Instruction.neat_setOpcode (mem_instructions_of_setOpcode mem h) hx (neat _ rfl) h
  | cases length =>
    intro i e
    cases x with
    | plain j => exact neat i e
    | _ => cases e
  | _ =>
    intro i e
    cases e

theorem Made.neat (h : Made x) : ∀ i, x = .plain i → i.Neat := by
  induction h with
  | instruction mem h =>
    obtain ⟨-, rfl⟩ := new_eq_ok mem h
    rintro _ ⟨⟩ -
    rfl
  | edit made h ih => exact h.neat made.shaped ih
  | _ =>
    intro i e
    cases e

theorem Made.legible (h : Made x) : x.Legible := by
  cases x with
  | plain i => exact Instruction.Shaped.readable_of_neat h.shaped (h.neat i rfl)
  | _ => trivial

theorem legible_of_unlinked (e : y.unlinked = x.unlinked) (h : x.Legible) : y.Legible := by
  cases x with
  | plain i =>
    cases y with
    | plain j =>
      obtain ⟨opcode, units, -⟩ := Instruction.mk.inj (Item.plain.inj e)
      obtain ⟨u, hu, found⟩ := h
      exact ⟨u, units ▸ hu, opcode ▸ found⟩
    | _ => trivial
  | _ =>
    cases y with
    | plain j => cases e
    | _ => trivial

theorem value_of_wider? {op op' : Opcode} (h : Sequence.wider? op = some op') : op'.value ≠ 0 := by
  have values : (∀ o ∈ Opcode.ofName? (ascii "goto/16"), o.value ≠ 0) ∧ ∀ o ∈ Opcode.ofName? (ascii "goto/32"), o.value ≠ 0 := by
    decide +kernel
  rcases wider?_cases h with h | h
  · exact values.1 op' h
  · exact values.2 op' h

/-- `Shaped`, `Sealed` and `Legible` together are stable if padding is never made a switch. -/
theorem stable_legible : Stable (fun x => x.isPadding = false) (fun x => x.Shaped ∧ x.Sealed ∧ x.Legible) where
  shaped h := h.1
  padding := ⟨shaped_padding, fun _ => rfl, 0, rfl, by decide⟩
  relinked e h := by
    obtain ⟨shaped, sealed⟩ := stable_sealed.relinked e ⟨h.1, h.2.1⟩
    exact ⟨shaped, sealed, legible_of_unlinked e h.2.2⟩
  recased {x cs} length h := by
    obtain ⟨shaped, sealed⟩ := stable_sealed.recased length ⟨h.1, h.2.1⟩
    refine ⟨shaped, sealed, ?_⟩
    cases x with
    | plain i => exact h.2.2
    | _ => trivial
  data h hx := by
    obtain ⟨shaped, sealed⟩ := stable_sealed.data h ⟨hx.1, hx.2.1⟩
    exact ⟨shaped, sealed, (Instruction.retuned_setData h).readable hx.1 hx.2.2⟩
  wider w h hx := by
    obtain ⟨shaped, sealed⟩ := stable_sealed.wider w h ⟨hx.1, hx.2.1⟩
    refine ⟨shaped, sealed, Instruction.Shaped.readable_of_value shaped ?_⟩
    rw [(Instruction.setOpcode_eq_ok h).1]
    exact value_of_wider? w
  opcode solid mem switch h hx := by
    obtain ⟨shaped, sealed⟩ := stable_sealed.opcode solid mem switch h ⟨hx.1, hx.2.1⟩
    refine ⟨shaped, sealed, Instruction.Shaped.readable_of_value shaped ?_⟩
    rw [(Instruction.setOpcode_eq_ok h).1]
    exact Opcode.value_ne_zero_of_switch _ mem switch
  refreshed {x y} h hx := by
    obtain ⟨shaped, sealed⟩ := stable_sealed.refreshed h ⟨hx.1, hx.2.1⟩
    obtain ⟨-, -, -, payload, -, -, plain⟩ := gives_refresh h
    refine ⟨shaped, sealed, ?_⟩
    cases x with
    | plain i =>
      rw [plain i rfl]
      exact hx.2.2
    | _ =>
      cases y with
      | plain j => cases payload
      | _ => trivial
  marked zero h := by
    obtain ⟨shaped, sealed⟩ := stable_sealed.marked zero ⟨h.1, h.2.1⟩
    exact ⟨shaped, sealed, h.2.2⟩
  raw {x} h := by
    obtain ⟨shaped, sealed⟩ := stable_sealed.raw h
    refine ⟨shaped, sealed, ?_⟩
    cases x with
    | plain i => exact (h : i.Raw).readable
    | _ => trivial
  made h := ⟨(stable_sealed.made h).1, (stable_sealed.made h).2, h.legible⟩
  toSparse _ := ⟨shaped_toSparse _, (fun padding => by cases padding), trivial⟩
  toPacked h ht := by
    obtain ⟨hp, hu⟩ := gives_toPacked_shaped h ht.1
    exact ⟨⟨hp, (fun padding => by cases padding), trivial⟩, hu, (fun padding => by cases padding), trivial⟩

end Item

end Dalvik
