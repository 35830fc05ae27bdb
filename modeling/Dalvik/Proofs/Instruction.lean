import Dalvik.Code.Instruction
import Dalvik.Proofs.Action
import Dalvik.Proofs.Operand
import Mathlib.Data.List.Chain
import Mathlib.Tactic.IntervalCases

/-!
# Instructions and their operands

`x.Shaped` says that the opcode of `x` is in the table, that `x` has as many units as the format,
and that the first unit has the opcode's value. `x.Readable` says that the first unit is read as the
opcode. Setting an operand keeps both (`Retuned`); changing the opcode keeps `Shaped`
(`setOpcode_eq_ok`). A stored literal or offset reads back (`data_of_setData`).
-/

namespace Dalvik

/-! ## The table of opcodes -/

namespace Opcode

/-- What holds of every instruction in the table: among other things, only an opcode without operands has the value 0,
which is the low byte of the payload marks, and an opcode that refers to an instruction or payload has an offset and
nothing else besides registers. -/
theorem entries : ∀ o ∈ instructions, o.isPayload = false ∧ o.value < 256 ∧ 0 < o.format.units ∧
    (o.value = 0 → o.format = .f10x) ∧
    ((o.is .branch || o.is .payloadRef) = true → o.format ∈ [Format.f10t, .f20t, .f21t, .f22t, .f30t, .f31t]) := by
  decide +kernel

theorem isPayload_of_mem : ∀ o ∈ instructions, o.isPayload = false := fun o ho => (entries o ho).1

theorem value_lt_of_mem : ∀ o ∈ instructions, o.value < 256 := fun o ho => (entries o ho).2.1

theorem units_pos_of_mem : ∀ o ∈ instructions, 0 < o.format.units := fun o ho => (entries o ho).2.2.1

theorem format_of_value_zero : ∀ o ∈ instructions, o.value = 0 → o.format = .f10x :=
  fun o ho => (entries o ho).2.2.2.1

theorem format_of_target : ∀ o ∈ instructions, (o.is .branch || o.is .payloadRef) = true →
    o.format ∈ [Format.f10t, .f20t, .f21t, .f22t, .f30t, .f31t] :=
  fun o ho => (entries o ho).2.2.2.2

/-- What holds of the three payload opcodes. -/
theorem payload_entries : ∀ o ∈ payloads, o.isPayload = true ∧ o.value % 256 = 0 := by decide +kernel

theorem isPayload_of_mem_payloads : ∀ o ∈ payloads, o.isPayload = true := fun o ho => (payload_entries o ho).1

theorem value_mod_of_mem_payloads : ∀ o ∈ payloads, o.value % 256 = 0 := fun o ho => (payload_entries o ho).2

theorem payloadRef_of_switch : ∀ o ∈ instructions, o.is .switch = true → o.is .payloadRef = true := by decide +kernel

theorem value_ne_zero_of_switch : ∀ o ∈ all, o.is .switch = true → o.value ≠ 0 := by decide +kernel

/-- `sparse-switch` and `packed-switch` are switches. -/
theorem switch_entries : (∀ o ∈ ofName? (ascii "sparse-switch"), o.is .switch = true) ∧
    ∀ o ∈ ofName? (ascii "packed-switch"), o.is .switch = true := by decide +kernel

theorem is_switch_of_sparse : ∀ o ∈ ofName? (ascii "sparse-switch"), o.is .switch = true := switch_entries.1

theorem is_switch_of_packed : ∀ o ∈ ofName? (ascii "packed-switch"), o.is .switch = true := switch_entries.2

theorem mem_all_of_ofUnit? {u : Nat} {o : Opcode} (h : ofUnit? u = some o) : o ∈ all := by
  unfold ofUnit? at h
  rcases Option.or_eq_some_iff.1 h with h | ⟨-, h⟩
  · exact List.mem_append_right _ (List.mem_of_find?_eq_some h)
  · exact List.mem_of_find?_eq_some h

/-- An opcode that is no payload is one of the instructions. -/
theorem mem_instructions {o : Opcode} (h : o ∈ all) (hp : o.isPayload = false) : o ∈ instructions := by
  rcases List.mem_append.1 h with h | h
  · exact h
  · rw [isPayload_of_mem_payloads o h] at hp
    cases hp

theorem mem_all_of_ofName? {name : Bytes} {o : Opcode} (h : ofName? name = some o) : o ∈ all :=
  List.mem_of_find?_eq_some h

theorem name_of_ofName? {name : Bytes} {o : Opcode} (h : ofName? name = some o) : o.name = name := by
  simpa using List.find?_some h

/-- A unit with a low byte other than zero is looked up by that byte. -/
theorem ofUnit?_of_low {u : Nat} (h : u % 256 ≠ 0) : ofUnit? u = ofValue? (u % 256) := by
  have none : (payloads.find? fun o => o.value == u) = none := by
    rw [List.find?_eq_none]
    intro o ho e
    have := value_mod_of_mem_payloads o ho
    simp only [beq_iff_eq] at e
    omega
  rw [ofUnit?, none, Option.none_or]

theorem value_of_ofValue? {v : Nat} {o : Opcode} (h : ofValue? v = some o) : o.value = v := by
  simpa using List.find?_some h

/-- An instruction that was looked up by its first unit has the low byte of the unit as its value. -/
theorem value_of_ofUnit? {u : Nat} {o : Opcode} (h : ofUnit? u = some o) (mem : o ∈ instructions) :
    o.value = u % 256 := by
  unfold ofUnit? at h
  rcases Option.or_eq_some_iff.1 h with h | ⟨-, h⟩
  · have payload := isPayload_of_mem_payloads o (List.mem_of_find?_eq_some h)
    rw [isPayload_of_mem o mem] at payload
    cases payload
  · exact value_of_ofValue? h

/-- The values of the table increase strictly, so an opcode is found by its value. -/
theorem values_increase : (instructions.map value).IsChain (· < ·) := by decide +kernel

theorem ofValue?_value {o : Opcode} (h : o ∈ instructions) : ofValue? o.value = some o := by
  have distinct : instructions.Pairwise fun o p => o.value ≠ p.value :=
    (List.pairwise_map.1 (List.isChain_iff_pairwise.1 values_increase)).imp Nat.ne_of_lt
  rw [ofValue?, all, List.find?_append]
  have found : (instructions.find? fun p => p.value == o.value) = some o := by
    obtain ⟨before, after, e⟩ := List.append_of_mem h
    rw [e] at distinct ⊢
    rw [List.find?_append]
    have absent : (before.find? fun p => p.value == o.value) = none := by
      rw [List.find?_eq_none]
      intro p hp e
      exact (List.pairwise_append.1 distinct).2.2 p hp o List.mem_cons_self (by simpa using e)
    rw [absent, Option.none_or, List.find?_cons_of_pos (by simp)]
  rw [found, Option.some_or]

end Opcode

/-! ## Shape -/

namespace Instruction

open BitField (lowByte)

variable {x y z : Instruction}

/-- The opcode is one of the instructions, and the units are as many as its format says, the first with the opcode's
value in its low byte. -/
structure Shaped (x : Instruction) : Prop where
  mem : x.opcode ∈ Opcode.instructions
  length : x.units.length = x.opcode.format.units
  low : lowByte x.units = some x.opcode.value

/-- The opcode is one of the instructions, and the units are as many as its format says. -/
structure Fits (x : Instruction) : Prop where
  mem : x.opcode ∈ Opcode.instructions
  length : x.units.length = x.opcode.format.units

theorem Shaped.fits (hx : x.Shaped) : x.Fits := ⟨hx.mem, hx.length⟩

/-- The first unit is read as the opcode. -/
def Readable (x : Instruction) : Prop := ∃ u, x.units.head? = some u ∧ Opcode.ofUnit? u.toNat = some x.opcode

/-- `y` is `x` with other operands: opcode, length and the low byte of the first unit are the same. -/
structure Retuned (x y : Instruction) : Prop where
  opcode : y.opcode = x.opcode
  target : y.target = x.target
  isPadding : y.isPadding = x.isPadding
  length : y.units.length = x.units.length
  lowByte : lowByte y.units = lowByte x.units
  bare : x.opcode.format = .f10x → y.units = x.units

theorem Retuned.refl (x : Instruction) : Retuned x x := ⟨rfl, rfl, rfl, rfl, rfl, fun _ => rfl⟩

theorem Retuned.trans (hxy : Retuned x y) (hyz : Retuned y z) : Retuned x z where
  opcode := hyz.opcode.trans hxy.opcode
  target := hyz.target.trans hxy.target
  isPadding := hyz.isPadding.trans hxy.isPadding
  length := hyz.length.trans hxy.length
  lowByte := hyz.lowByte.trans hxy.lowByte
  bare h := (hyz.bare (by rw [hxy.opcode, h])).trans (hxy.bare h)

theorem Retuned.shaped (h : Retuned x y) (hx : x.Shaped) : y.Shaped where
  mem := by rw [h.opcode]; exact hx.mem
  length := by rw [h.length, h.opcode]; exact hx.length
  low := by rw [h.lowByte, h.opcode]; exact hx.low

theorem Retuned.fits (h : Retuned x y) (hx : x.Fits) : y.Fits where
  mem := by rw [h.opcode]; exact hx.mem
  length := by rw [h.length, h.opcode]; exact hx.length

/-- An instruction whose first unit is 0 is a `nop`. -/
theorem Shaped.eq_nop (hx : x.Shaped) (zero : x.units.head? = some 0) : x.opcode = Opcode.nop := by
  have value : x.opcode.value = 0 := by
    have low := hx.low
    rw [BitField.lowByte, zero] at low
    simpa using low.symm
  have found := Opcode.ofValue?_value hx.mem
  have nop := Opcode.ofValue?_value (o := Opcode.nop) (by decide +kernel)
  rw [value, show 0 = Opcode.nop.value from rfl, nop] at found
  exact (Option.some.inj found).symm

theorem Retuned.readable (h : Retuned x y) (hs : x.Shaped) (hx : x.Readable) : y.Readable := by
  obtain ⟨u, hu, ho⟩ := hx
  by_cases zero : u.toNat % 256 = 0
  · -- The opcode is found through a payload's low byte only if it has no operands at all.
    have bare : x.opcode.format = .f10x :=
      Opcode.format_of_value_zero _ hs.mem (by rw [Opcode.value_of_ofUnit? ho hs.mem, zero])
    exact ⟨u, by rw [h.bare bare, hu], by rw [h.opcode, ho]⟩
  · have low := h.lowByte
    simp only [BitField.lowByte, hu, Option.map_some] at low
    obtain ⟨w, hw, e⟩ := Option.map_eq_some_iff.1 low
    refine ⟨w, hw, ?_⟩
    rw [h.opcode, ← ho, Opcode.ofUnit?_of_low zero, Opcode.ofUnit?_of_low (by omega), e]

/-- Writing fields above the opcode byte changes operands only. -/
theorem retuned_of_writeAll {fs : List BitField} {v : Nat} {units : Units} (above : ∀ f ∈ fs, f.Above)
    (bare : x.opcode.format = .f10x → fs = []) (h : BitField.writeAll fs v x.units = .ok units) :
    Retuned x { x with units } where
  opcode := rfl
  target := rfl
  isPadding := rfl
  length := BitField.length_of_writeAll h
  lowByte := BitField.lowByte_of_writeAll above h
  bare e := by
    rw [bare e] at h
    cases h
    rfl

theorem retuned_of_write {f : BitField} {v : Nat} {units : Units} (above : f.Above)
    (bare : x.opcode.format ≠ .f10x) (h : f.write v x.units = .ok units) : Retuned x { x with units } := by
  have all : BitField.writeAll [f] v x.units = .ok units := BitField.writeAll_cons.2 ⟨units, h, rfl⟩
  exact retuned_of_writeAll (by simpa using above) (fun e => absurd e bare) all

end Instruction

namespace Format

theorem above_registerFields (format : Format) : ∀ f ∈ format.registerFields, f.Above := by
  cases format <;> decide

theorem above_literalFields (format : Format) : ∀ f ∈ format.literalFields, f.Above := by
  cases format <;> decide

theorem above_indexFields (format : Format) : ∀ f ∈ format.indexFields, f.Above := by
  cases format <;> decide

theorem above_countField? (format : Format) : ∀ f ∈ format.countField?, f.Above := by
  cases format <;> decide

theorem unit_lt_registerFields (format : Format) : ∀ f ∈ format.registerFields, f.unit < format.units := by
  cases format <;> decide

theorem unit_lt_literalFields (format : Format) : ∀ f ∈ format.literalFields, f.unit < format.units := by
  cases format <;> decide

theorem unit_lt_indexFields (format : Format) : ∀ f ∈ format.indexFields, f.unit < format.units := by
  cases format <;> decide

theorem unit_lt_countField? (format : Format) : ∀ f ∈ format.countField?, f.unit < format.units := by
  cases format <;> decide

theorem inside_literalFields (format : Format) : ∀ f ∈ format.literalFields, f.shift + f.width ≤ 16 := by
  cases format <;> decide

theorem apart_literalFields (format : Format) :
    format.literalFields.Pairwise fun f g => f.unit ≠ g.unit := by
  cases format <;> decide

end Format

/-! ## Setting operands -/

namespace Instruction

open Dalvik.Action (except_bind_eq_ok except_ite_bind_eq_ok)

variable {x y z : Instruction}

theorem retuned_setRegistersCount {n : Int} (h : x.setRegistersCount n = .ok y) : Retuned x y := by
  unfold setRegistersCount at h
  cases hf : x.opcode.format.countField? with
  | none =>
    simp only [hf] at h
    split at h
    · cases h
      exact .refl x
    · cases h
  | some f =>
    simp only [hf] at h
    by_cases range : 0 ≤ n ∧ n ≤ (if x.opcode.format.isRange then 0xff else 5)
    · rw [if_pos range] at h
      obtain ⟨units, hw, h⟩ := except_bind_eq_ok.1 h
      cases h
      refine retuned_of_write (Format.above_countField? _ f hf) ?_ hw
      intro e
      simp [e, Format.countField?] at hf
    · rw [if_neg range] at h
      cases h

theorem retuned_setRegister {i v : Int} (h : x.setRegister i v = .ok y) : Retuned x y := by
  unfold setRegister at h
  simp only at h
  split at h
  · next range =>
    split at h
    · obtain ⟨units, hw, h⟩ := except_bind_eq_ok.1 h
      cases h
      refine retuned_of_write (by decide) ?_ hw
      intro e
      simp [e, Format.isRange] at range
    · cases h
  · split at h
    · cases h
    · next f hf =>
      have mem : f ∈ x.opcode.format.registerFields := by
        split at hf
        · cases hf
        · exact List.mem_of_getElem? hf
      split at h
      · obtain ⟨units, hw, h⟩ := except_bind_eq_ok.1 h
        cases h
        refine retuned_of_write (Format.above_registerFields _ f mem) ?_ hw
        intro e
        simp [e, Format.registerFields] at mem
      · cases h

theorem retuned_setData {v : Int} (h : x.setData v = .ok y) : Retuned x y := by
  unfold setData at h
  split at h
  · next has =>
    simp only at h
    split at h
    · obtain ⟨units, hw, h⟩ := except_bind_eq_ok.1 h
      cases h
      refine retuned_of_writeAll (Format.above_literalFields _) ?_ hw
      intro e
      simp [hasData, e, Format.literalFields] at has
    · cases h
  · cases h

theorem retuned_setIndex {i : Int} (h : x.setIndex i = .ok y) : Retuned x y := by
  unfold setIndex at h
  split at h
  · cases h
  · next fs nonempty =>
    split at h
    · obtain ⟨units, hw, h⟩ := except_bind_eq_ok.1 h
      cases h
      refine retuned_of_writeAll (Format.above_indexFields _) ?_ hw
      intro e
      simp [e, Format.indexFields] at nonempty
    · cases h

theorem retuned_setIndex2 {i : Int} (hx : x.Fits) (h : x.setIndex2 i = .ok y) : Retuned x y := by
  unfold setIndex2 at h
  split at h
  · cases h
  · split at h
    · obtain ⟨units, hw, h⟩ := except_bind_eq_ok.1 h
      cases h
      refine retuned_of_write (by decide) ?_ hw
      -- An instruction of one unit has no place for a second index.
      intro e
      have length := hx.length
      rw [e] at length
      unfold BitField.write at hw
      rw [List.getElem?_eq_none (by rw [length]; decide)] at hw
      cases hw
    · cases h

theorem retuned_setConstant {k : Option Constant} {pool pool' : Option Pool}
    (h : (x.setConstant k).Gives pool y pool') : Retuned x y := by
  unfold setConstant at h
  split at h
  · simp at h
  · simp only [Action.gives_bind, Action.gives_lift] at h
    obtain ⟨i, -, -, hi, -⟩ := h
    exact retuned_setIndex hi

theorem retuned_setConstant2 {k : Option Constant} {pool pool' : Option Pool} (hx : x.Fits)
    (h : (x.setConstant2 k).Gives pool y pool') : Retuned x y := by
  unfold setConstant2 at h
  split at h
  · simp at h
  · simp only [Action.gives_bind, Action.gives_lift] at h
    obtain ⟨i, -, -, hi, -⟩ := h
    exact retuned_setIndex2 hx hi

/-! ## Changing the opcode -/

theorem apply_edit (f : Instruction → Except Stop Instruction) (x : Instruction) :
    (edit f).apply x = match f x with
      | .ok y => (.ok ⟨⟩, y)
      | .error stop => (.error stop, x) := by
  simp only [edit, Action.apply_bind, Action.apply_get, Action.apply_lift]
  cases f x <;> rfl

theorem gives_edit {f : Instruction → Except Stop Instruction} : (edit f).Gives x ⟨⟩ y ↔ f x = .ok y := by
  rw [Action.Gives, apply_edit]
  cases f x <;> simp

/-- `edit f` upholds what every success of `f` keeps, since a failure changes nothing. -/
theorem upholds_edit {I : Instruction → Prop} {f : Instruction → Except Stop Instruction}
    (h : ∀ y z, f y = .ok z → I y → I z) : Action.Upholds I (edit f) := by
  intro y hy
  rw [apply_edit]
  cases e : f y with
  | ok z => exact h y z e hy
  | error stop => exact hy

section Taking

open Dalvik.Action (Upholds)

variable {I : Instruction → Prop} (tuned : ∀ y z, Retuned y z → I y → I z)
include tuned

theorem upholds_takeFirst (n : Nat) : Upholds I (x.takeFirst n) := by
  unfold takeFirst
  have each : ∀ i : Nat, Upholds I (edit fun y => do y.setRegister (i : Nat) (← x.register (i : Nat))) :=
    fun i => upholds_edit fun y z h => by
      obtain ⟨v, -, h⟩ := except_bind_eq_ok.1 h
      exact tuned y z (retuned_setRegister h)
  exact (Upholds.each each).bind fun _ => Action.upholds_pure _

theorem upholds_takeRegisters : Upholds I x.takeRegisters := by
  unfold takeRegisters
  refine Upholds.bind (Action.upholds_lift _) fun n => Action.upholds_get fun y hy => ?_
  dsimp only
  split
  · have count : Upholds I (edit (·.setRegistersCount n)) :=
      upholds_edit fun y z h => tuned y z (retuned_setRegistersCount h)
    exact count.bind (fun _ => upholds_takeFirst tuned n) y hy
  · exact upholds_takeFirst tuned _ y hy

theorem upholds_takeLiteral : Upholds I x.takeLiteral := by
  unfold takeLiteral
  refine Action.upholds_get fun y hy => ?_
  split
  · refine upholds_edit (fun y z h => ?_) y hy
    obtain ⟨d, -, h⟩ := except_bind_eq_ok.1 h
    exact tuned y z (retuned_setData h)
  · exact hy

theorem upholds_takeIndex : Upholds I x.takeIndex := by
  unfold takeIndex
  refine Action.upholds_get fun y hy => ?_
  split
  · refine upholds_edit (fun y z h => ?_) y hy
    obtain ⟨i, -, h⟩ := except_bind_eq_ok.1 h
    exact tuned y z (retuned_setIndex h)
  · exact hy

/-- `takeOperands` upholds what every setter keeps. -/
theorem upholds_takeOperands : Upholds I x.takeOperands :=
  (upholds_takeRegisters tuned).bind fun _ => (upholds_takeLiteral tuned).bind fun _ => upholds_takeIndex tuned

end Taking

theorem retuned_takeOperands (x y : Instruction) : Retuned y (x.takeOperands.apply y).2 :=
  upholds_takeOperands (fun _ _ tuned h => h.trans tuned) y (.refl y)

theorem length_blank (op : Opcode) (h : 0 < op.format.units) : (blank op).units.length = op.format.units := by
  simp only [blank, List.length_cons, List.length_replicate]
  omega

theorem shaped_blank {op : Opcode} (h : op ∈ Opcode.instructions) : (blank op).Shaped where
  mem := h
  length := length_blank op (Opcode.units_pos_of_mem op h)
  low := by
    have small := Opcode.value_lt_of_mem op h
    simp only [BitField.lowByte, blank, List.head?_cons, Option.map_some, Option.some.injEq]
    rw [UInt16.toNat_ofNat_of_lt' (show op.value < 65536 by omega), Nat.mod_eq_of_lt small]

/-- The value of a unit whose low byte was replaced by `v`. -/
theorem toNat_retag (u : UInt16) {v : Nat} (hv : v < 256) :
    (u &&& 0xff00 ||| UInt16.ofNat v).toNat = u.toNat / 256 * 256 + v := by
  have high : (u &&& 0xff00).toNat = 2 ^ 8 * (u.toNat / 256) := by
    have small := u.toNat_lt
    rw [UInt16.toNat_and, show (0xff00 : UInt16).toNat = 2 ^ 16 - 1 - (2 ^ 8 - 1) from rfl]
    refine Nat.eq_of_testBit_eq fun i => ?_
    rw [Nat.testBit_and, Nat.testBit_two_pow_mul, show u.toNat / 256 = u.toNat / 2 ^ 8 from rfl,
      Nat.testBit_div_two_pow]
    by_cases low : i < 8
    · interval_cases i <;> simp [Nat.testBit]
    · by_cases high : i < 16
      · rw [Nat.sub_add_cancel (by omega)]
        interval_cases i <;> simp [Nat.testBit]
      · have zero : u.toNat.testBit i = false :=
          Nat.testBit_lt_two_pow (Nat.lt_of_lt_of_le small (Nat.pow_le_pow_right (by decide) (by omega)))
        rw [Nat.sub_add_cancel (by omega), zero]
        simp
  rw [UInt16.toNat_or, high, UInt16.toNat_ofNat_of_lt' (show v < 65536 by omega),
    ← Nat.two_pow_add_eq_or_of_lt (show v < 2 ^ 8 by omega)]
  omega

/-- The instruction with another opcode and zero units behind the first one. -/
abbrev bared (x : Instruction) (op : Opcode) : Instruction := { x with opcode := op, units := (blank op).units }

theorem setOpcode_eq_ok_iff {op : Opcode} : x.setOpcode op = .ok y ↔ (changeOpcode op).Gives x ⟨⟩ y := by
  unfold setOpcode Action.Gives
  rcases (changeOpcode op).apply x with ⟨r, z⟩
  cases r <;> simp [Except.map]

/-- When `changeOpcode` succeeds: within one format it replaces the low byte of the first unit, and into another
format it clears the units and takes the operands over. -/
theorem gives_changeOpcode {op : Opcode} : (changeOpcode op).Gives x ⟨⟩ y ↔ op.isPayload = false ∧
    ((op.format = x.opcode.format ∧ ∃ u rest, x.units = u :: rest ∧
        y = { x with opcode := op, units := (u &&& 0xff00 ||| UInt16.ofNat op.value) :: rest }) ∨
      (op.format ≠ x.opcode.format ∧ x.takeOperands.Gives (x.bared op) ⟨⟩ y)) := by
  unfold changeOpcode
  simp only [Action.gives_bind, Action.gives_get]
  constructor
  · rintro ⟨_, _, ⟨rfl, rfl⟩, h⟩
    split at h
    · exact absurd h Action.not_gives_refuse
    · next payload =>
      refine ⟨by simpa using payload, ?_⟩
      split at h
      · next same =>
        split at h
        · next u rest e => exact .inl ⟨same, u, rest, e, (Action.gives_set.1 h).symm⟩
        · exact absurd h Action.not_gives_throw
      · next other =>
        simp only [Action.gives_bind, Action.gives_set, Action.gives_attempt] at h
        obtain ⟨_, _, rfl, r, z, run, h⟩ := h
        refine .inr ⟨other, ?_⟩
        split at h
        · obtain ⟨-, rfl⟩ := Action.gives_pure.1 h
          exact run
        · simp at h
        · exact absurd h Action.not_gives_throw
  · rintro ⟨payload, h⟩
    refine ⟨x, x, ⟨rfl, rfl⟩, ?_⟩
    rw [if_neg (by simp [payload])]
    rcases h with ⟨same, u, rest, e, rfl⟩ | ⟨other, run⟩
    · simp only [if_pos same, e]
      exact Action.gives_set.2 rfl
    · rw [if_neg other]
      simp only [Action.gives_bind, Action.gives_set, Action.gives_attempt]
      exact ⟨⟨⟩, _, rfl, _, _, run, Action.gives_pure.2 ⟨rfl, rfl⟩⟩

/-- A successful `setOpcode` sets the opcode, keeps the target and the padding mark, refuses payload opcodes, and
keeps the instruction well-formed. -/
theorem setOpcode_eq_ok {op : Opcode} (h : x.setOpcode op = .ok y) :
    y.opcode = op ∧ y.target = x.target ∧ y.isPadding = x.isPadding ∧ op.isPayload = false ∧
      (op ∈ Opcode.instructions → x.Shaped → y.Shaped) := by
  obtain ⟨payload, h⟩ := gives_changeOpcode.1 (setOpcode_eq_ok_iff.1 h)
  rcases h with ⟨same, u, rest, e, rfl⟩ | ⟨-, run⟩
  · refine ⟨rfl, rfl, rfl, payload, fun hop hx => ⟨hop, ?_, ?_⟩⟩
    · have length := hx.length
      rw [e] at length
      simpa [same] using length
    · have small := Opcode.value_lt_of_mem op hop
      simp only [BitField.lowByte, List.head?_cons, Option.map_some, Option.some.injEq, toNat_retag u small]
      omega
  · have retuned := retuned_takeOperands x (x.bared op)
    rw [show x.takeOperands.apply (x.bared op) = _ from run] at retuned
    refine ⟨retuned.opcode, retuned.target, retuned.isPadding, payload, fun hop _ => ?_⟩
    exact retuned.shaped ⟨hop, (shaped_blank hop).length, (shaped_blank hop).low⟩

/-! ## Literals and offsets -/

/-- An instruction with a target has one of the offset formats. -/
theorem Shaped.target_format (hx : x.Shaped) (ht : x.hasTarget = true) :
    x.opcode.format ∈ [Format.f10t, .f20t, .f21t, .f22t, .f30t, .f31t] :=
  Opcode.format_of_target _ hx.mem ht

theorem Shaped.dataShift_eq_zero (hx : x.Shaped) (ht : x.hasTarget = true) : x.dataShift = 0 := by
  have := hx.target_format ht
  unfold dataShift
  split
  · next e => simp [e] at this
  · rfl

theorem Shaped.hasData (hx : x.Shaped) (ht : x.hasTarget = true) : x.hasData = true := by
  have := hx.target_format ht
  unfold Instruction.hasData
  simp only [List.mem_cons, List.not_mem_nil, or_false] at this
  rcases this with e | e | e | e | e | e <;> rw [e] <;> rfl

theorem bmod_emod_twoPow {w : Nat} (hw : 0 < w) {v : Int} (low : -twoPow (w - 1) ≤ v) (high : v < twoPow (w - 1)) :
    (v % twoPow w).bmod (twoPow w) = v := by
  have half : (twoPow w : Int) = 2 * twoPow (w - 1) := by
    obtain ⟨k, rfl⟩ : ∃ k, w = k + 1 := ⟨w - 1, by omega⟩
    simp only [Nat.add_sub_cancel, twoPow_eq]
    push_cast
    ring
  rw [Int.emod_bmod]
  exact Int.bmod_eq_of_le (by omega) (by omega)

theorem totalWidth_literal_pos {format : Format} (h : format.literalFields.isEmpty = false) :
    0 < BitField.totalWidth format.literalFields := by
  cases format <;> first | decide | (exact absurd h (by decide))

/-- A literal or offset that `setData` stored is the one that `data` reads. -/
theorem data_of_setData {v : Int} (h : x.setData v = .ok y) : y.data = .ok v := by
  unfold setData at h
  split at h
  · next has =>
    simp only at h
    split at h
    · next range =>
      obtain ⟨units, hw, h⟩ := except_bind_eq_ok.1 h
      cases h
      have read := BitField.readAll_of_writeAll (Format.inside_literalFields _) (Format.apart_literalFields _) hw
      have positive := @totalWidth_literal_pos x.opcode.format (by simpa [Instruction.hasData] using has)
      have widthPos : 0 < x.dataWidth := by
        rw [dataWidth]
        omega
      have power : twoPow x.dataWidth = twoPow (BitField.totalWidth x.opcode.format.literalFields) * twoPow x.dataShift := by
        rw [dataWidth, twoPow_add]
      have shiftPos : (0 : Int) < twoPow x.dataShift := by exact_mod_cast twoPow_pos _
      have totalPos : (0 : Int) < twoPow (BitField.totalWidth x.opcode.format.literalFields) := by exact_mod_cast twoPow_pos _
      obtain ⟨q, hq⟩ : ∃ q, v = twoPow x.dataShift * q := Int.dvd_of_emod_eq_zero range.2.2
      -- The bits above the stored ones are lost, and the zeros below them come back.
      have stored : (((v / twoPow x.dataShift % twoPow x.dataWidth).toNat %
          twoPow (BitField.totalWidth x.opcode.format.literalFields) : Nat) : Int) * twoPow x.dataShift = v % twoPow x.dataWidth := by
        have nonneg : 0 ≤ q % (twoPow x.dataWidth : Int) := Int.emod_nonneg q (by exact_mod_cast (twoPow_pos _).ne')
        have divides : (twoPow (BitField.totalWidth x.opcode.format.literalFields) : Int) ∣ twoPow x.dataWidth := by
          rw [power]
          exact_mod_cast Nat.dvd_mul_right _ _
        rw [hq, Int.mul_ediv_cancel_left q shiftPos.ne', Int.natCast_emod, Int.toNat_of_nonneg nonneg,
          Int.emod_emod_of_dvd q divides, power, Nat.mul_comm, Nat.cast_mul, Int.mul_emod_mul_of_pos _ _ shiftPos, Int.mul_comm]
      have hasData : ({ x with units } : Instruction).hasData = true := has
      unfold data
      rw [if_pos hasData]
      refine except_bind_eq_ok.2 ⟨_, read, ?_⟩
      change Except.ok (Literal.signExtend x.dataWidth (_ * twoPow x.dataShift)) = _
      rw [stored, Literal.signExtend]
      exact congrArg Except.ok (bmod_emod_twoPow widthPos range.1 range.2.1)
    · cases h
  · cases h

/-- `setData` with the value that is there changes nothing. -/
theorem setData_of_data {v : Int} (shift : x.dataShift = 0) (has : x.hasData = true) (h : x.data = .ok v) :
    x.setData v = .ok x := by
  unfold data at h
  rw [if_pos has] at h
  obtain ⟨stored, read, h⟩ := except_bind_eq_ok.1 h
  have width : x.dataWidth = BitField.totalWidth x.opcode.format.literalFields := by simp [dataWidth, shift]
  have widthPos : 0 < x.dataWidth := by
    rw [width]
    exact totalWidth_literal_pos (by simpa [Instruction.hasData] using has)
  have small := BitField.readAll_lt read
  rw [← width] at small
  have one : (twoPow x.dataShift : Int) = 1 := by rw [shift]; rfl
  cases h
  rw [one, Int.mul_one, Literal.signExtend]
  have pos : 0 < twoPow x.dataWidth := twoPow_pos _
  have half : twoPow x.dataWidth = 2 * twoPow (x.dataWidth - 1) := by
    obtain ⟨k, hk⟩ : ∃ k, x.dataWidth = k + 1 := ⟨x.dataWidth - 1, by omega⟩
    rw [hk, Nat.add_sub_cancel, twoPow_eq, twoPow_eq, Nat.pow_succ, Nat.mul_comm]
  have low := Int.le_bmod (x := (stored : Int)) pos
  have high := Int.bmod_lt (x := (stored : Int)) pos
  have back : ((stored : Int).bmod (twoPow x.dataWidth) % (twoPow x.dataWidth : Nat)).toNat = stored := by
    rw [Int.bmod_emod, Int.emod_eq_of_lt (by omega) (by exact_mod_cast small), Int.toNat_natCast]
  unfold setData
  simp only [has, if_true, shift]
  rw [if_pos ⟨by omega, by omega, by rw [show ((twoPow 0 : Nat) : Int) = 1 from rfl, Int.emod_one]⟩]
  rw [show ((twoPow 0 : Nat) : Int) = 1 from rfl, Int.ediv_one, back]
  exact except_bind_eq_ok.2 ⟨x.units, BitField.writeAll_of_readAll read, rfl⟩

end Instruction

end Dalvik
