import Dalvik.Proofs.Faults
import Dalvik.Proofs.Instruction

/-!
# Operands do not touch each other

The bit fields of a format are disjoint (`Format.apart_layout`). So a setter that accepts its value
changes no other operand, and a change that is refused, also one of the opcode, changes nothing
(`Instruction.operands_independent`).
-/

namespace Dalvik

open Dalvik.Action (except_bind_eq_ok)

/-! ## Fields -/

namespace BitField

variable {f g : BitField} {fs gs : List BitField} {units written : Units}

theorem exists_read (h : f.unit < units.length) : ∃ v, f.read units = .ok v := by
  rw [read, List.getElem?_eq_getElem h]
  exact ⟨_, rfl⟩

theorem exists_write (h : f.unit < units.length) (v : Nat) : ∃ written, f.write v units = .ok written := by
  rw [write, List.getElem?_eq_getElem h]
  exact ⟨_, rfl⟩

theorem exists_readAll (h : ∀ f ∈ fs, f.unit < units.length) : ∃ v, readAll fs units = .ok v := by
  induction fs with
  | nil => exact ⟨0, rfl⟩
  | cons f fs ih =>
    obtain ⟨low, hlow⟩ := exists_read (h f List.mem_cons_self)
    obtain ⟨high, hhigh⟩ := ih fun g hg => h g (List.mem_cons_of_mem f hg)
    exact ⟨_, readAll_cons.2 ⟨low, high, hlow, hhigh, rfl⟩⟩

theorem exists_writeAll (h : ∀ f ∈ fs, f.unit < units.length) (v : Nat) : ∃ written, writeAll fs v units = .ok written := by
  induction fs generalizing v units with
  | nil => exact ⟨units, rfl⟩
  | cons f fs ih =>
    obtain ⟨mid, hmid⟩ := exists_write (h f List.mem_cons_self) v
    have rest : ∀ g ∈ fs, g.unit < mid.length := fun g hg => by
      rw [length_of_write hmid]
      exact h g (List.mem_cons_of_mem f hg)
    obtain ⟨written, hwritten⟩ := ih rest (v / twoPow f.width)
    exact ⟨written, writeAll_cons.2 ⟨mid, hmid, hwritten⟩⟩

theorem writeAll_singleton (f : BitField) (v : Nat) (units : Units) : writeAll [f] v units = f.write v units := by
  rw [writeAll]
  cases f.write v units <;> rfl

theorem read_of_write_small {v : Nat} (hf : f.shift + f.width ≤ 16) (small : v < twoPow f.width)
    (h : f.write v units = .ok written) : f.read written = .ok v := by
  rw [read_of_write hf h, Nat.mod_eq_of_lt small]

/-- The two fields have no bit in common. -/
def Apart (f g : BitField) : Prop := f.unit = g.unit → f.shift + f.width ≤ g.shift ∨ g.shift + g.width ≤ f.shift

instance (f g : BitField) : Decidable (f.Apart g) := inferInstanceAs (Decidable (_ → _))

theorem Apart.symm (h : f.Apart g) : g.Apart f := fun e => (h e.symm).symm

/-- Inserting into one field leaves a disjoint field of the same unit as it was. -/
theorem extract_insert_apart (hf : f.shift + f.width ≤ 16)
    (apart : f.shift + f.width ≤ g.shift ∨ g.shift + g.width ≤ f.shift) (v : Nat) (u : UInt16) :
    g.extract (f.insert v u) = g.extract u := by
  rw [extract, extract, toNat_insert hf, clear_eq]
  have whole := f.split_unit u.toNat
  have low := Nat.mod_lt u.toNat (twoPow_pos f.shift)
  have mid := Nat.mod_lt (u.toNat / twoPow f.shift) (twoPow_pos f.width)
  have new := Nat.mod_lt v (twoPow_pos f.width)
  generalize u.toNat = n at *
  generalize n % twoPow f.shift = l at *
  generalize n / twoPow f.shift / twoPow f.width = q at *
  generalize n / twoPow f.shift % twoPow f.width = m at *
  generalize v % twoPow f.width = m' at *
  rw [whole]
  rcases apart with above | below
  · obtain ⟨k, hk⟩ := Nat.exists_eq_add_of_le above
    -- Both units have the same bits above the field.
    have top : ∀ m < twoPow f.width, (l + twoPow f.shift * m + twoPow f.shift * twoPow f.width * q) / twoPow g.shift = q / twoPow k := by
      intro m hm
      rw [hk, twoPow_add, twoPow_add, ← Nat.div_div_eq_div_mul, ← Nat.div_div_eq_div_mul, Nat.mul_assoc, Nat.add_assoc,
        ← Nat.mul_add, Nat.add_mul_div_left _ _ (twoPow_pos _), Nat.div_eq_of_lt low, Nat.zero_add,
        Nat.add_mul_div_left _ _ (twoPow_pos _), Nat.div_eq_of_lt hm, Nat.zero_add]
    rw [top m mid, show l + twoPow f.shift * twoPow f.width * q + m' * twoPow f.shift =
      l + twoPow f.shift * m' + twoPow f.shift * twoPow f.width * q by ring, top m' new]
  · obtain ⟨k, hk⟩ := Nat.exists_eq_add_of_le below
    -- Both units have the same bits below the field.
    have bottom : ∀ r, (l + twoPow f.shift * r) / twoPow g.shift % twoPow g.width = l / twoPow g.shift % twoPow g.width := by
      intro r
      rw [hk, twoPow_add, twoPow_add, Nat.mul_assoc, Nat.mul_assoc, Nat.add_mul_div_left _ _ (twoPow_pos _),
        Nat.add_mul_mod_self_left]
    rw [show l + twoPow f.shift * twoPow f.width * q + m' * twoPow f.shift = l + twoPow f.shift * (twoPow f.width * q + m') by ring,
      show l + twoPow f.shift * m + twoPow f.shift * twoPow f.width * q = l + twoPow f.shift * (m + twoPow f.width * q) by ring,
      bottom, bottom]

theorem read_of_write_apart {v : Nat} (hf : f.shift + f.width ≤ 16) (apart : f.Apart g) (h : f.write v units = .ok written) :
    g.read written = g.read units := by
  by_cases same : f.unit = g.unit
  · unfold write at h
    split at h
    · next u hu =>
      cases h
      have lt := (List.getElem?_eq_some_iff.1 hu).1
      have here : units[g.unit]? = some u := by rw [← same, hu]
      have there : (units.set f.unit (f.insert v u))[g.unit]? = some (f.insert v u) := by
        rw [← same, List.getElem?_set_self lt]
      simp only [read, here, there, extract_insert_apart hf (apart same)]
    · cases h
  · exact read_of_write_ne same h

theorem read_of_writeAll_apart {v : Nat} (inside : ∀ f ∈ fs, f.shift + f.width ≤ 16) (apart : ∀ f ∈ fs, f.Apart g)
    (h : writeAll fs v units = .ok written) : g.read written = g.read units := by
  induction fs generalizing v units with
  | nil =>
    cases h
    rfl
  | cons f fs ih =>
    obtain ⟨mid, hf, hfs⟩ := writeAll_cons.1 h
    rw [ih (fun g hg => inside g (List.mem_cons_of_mem f hg)) (fun g hg => apart g (List.mem_cons_of_mem f hg)) hfs,
      read_of_write_apart (inside f List.mem_cons_self) (apart f List.mem_cons_self) hf]

theorem readAll_congr (h : ∀ f ∈ fs, f.read written = f.read units) : readAll fs written = readAll fs units := by
  induction fs with
  | nil => rfl
  | cons f fs ih => rw [readAll, readAll, h f List.mem_cons_self, ih fun g hg => h g (List.mem_cons_of_mem f hg)]

end BitField
/-! ## The operands of a format -/

/-- The operands of an instruction: its registers by position, their count, the literal and the two indices. -/
inductive Operand where
  | register (i : Int)
  | count
  | literal
  | index
  | index2
  deriving DecidableEq, Repr

namespace Format

/-- The field of register `i`, in formats with a field for each register. -/
def registerField? (format : Format) (i : Int) : Option BitField :=
  if i < 0 then none else format.registerFields[i.toNat]?

/-- The field of the second index, in the formats that have one. -/
def index2Fields : Format → List BitField
  | .f45cc | .f4rcc => [secondIndex]
  | _ => []

/-- All fields of a format, each with the operand it belongs to. -/
def layout (format : Format) : List (Operand × BitField) :=
  format.registerFields.zipIdx.map (fun (f, i) => (.register (i : Nat), f)) ++ format.countField?.toList.map (Operand.count, ·) ++
    format.literalFields.map (Operand.literal, ·) ++ format.indexFields.map (Operand.index, ·) ++
    format.index2Fields.map (Operand.index2, ·)

/-- The fields of a format are pairwise disjoint. -/
theorem apart_layout (format : Format) : format.layout.Pairwise fun p q => p.2.Apart q.2 := by
  cases format <;> decide

/-- Each field lies inside the units of its format and above the opcode byte. -/
theorem layout_entries (format : Format) :
    ∀ p ∈ format.layout, p.2.shift + p.2.width ≤ 16 ∧ p.2.unit < format.units ∧ p.2.Above := by
  cases format <;> decide

/-- The fields of an index lie in different units. -/
theorem apart_indexFields (format : Format) : format.indexFields.Pairwise fun f g => f.unit ≠ g.unit := by
  cases format <;> decide

theorem registerBits_eq (format : Format) : format.registerBits = format.registerFields.map BitField.width := by
  cases format <;> rfl

theorem length_registerFields (format : Format) : format.registerFields.length = format.maxRegisters := by
  cases format <;> rfl

theorem isVariadic_iff (format : Format) : format.isVariadic = true ↔ format.countField?.isSome = true := by
  cases format <;> decide

/-- A range format has a third unit, for its first register. -/
theorem units_of_isRange {format : Format} (h : format.isRange = true) : 2 < format.units := by
  cases format <;> first | decide | cases h

theorem most_lt_countField (format : Format) :
    ∀ f ∈ format.countField?, (if format.isRange then 0xff else 5) < (twoPow f.width : Int) := by
  cases format <;> decide

theorem isEmpty_of_isVariadic {format : Format} (h : format.isVariadic = true) : format.registerFields.isEmpty = false := by
  cases format <;> first | rfl | cases h

theorem registerField?_zero_of_isRange {format : Format} (h : format.isRange = true) :
    format.registerField? 0 = some (wholeUnit 2) := by
  cases format <;> first | rfl | cases h

theorem isVariadic_of_isRange {format : Format} (h : format.isRange = true) : format.isVariadic = true := by
  cases format <;> first | rfl | cases h

/-- `looseField` finds the fields that `registerFields` lists. -/
theorem looseField_eq {format : Format} {i : Nat} (lt : i < format.registerFields.length) :
    Instruction.looseField format i = format.registerFields[i]? := by
  have all : ∀ i < format.registerFields.length, Instruction.looseField format (i : Nat) = format.registerFields[i]? := by
    cases format <;> decide
  exact all i lt

/-- In an argument list `looseField` gives a field inside the units for every position, also past the fifth register. -/
theorem exists_looseField {format : Format} (variadic : format.isVariadic = true) (single : format.isRange = false) (i : Int) :
    ∃ f, Instruction.looseField format i = some f ∧ f.unit < format.units ∧ f.width ≤ 16 := by
  have list : ∃ f, Instruction.looseField .f35c i = some f ∧ f.unit < 3 ∧ f.width ≤ 16 := by
    refine ⟨_, rfl, ?_⟩
    split
    · exact ⟨Nat.zero_lt_succ 2, by decide⟩
    · split
      · exact ⟨Nat.lt_succ_self 2, Nat.le_of_ble_eq_true rfl⟩
      · exact ⟨Nat.lt_succ_self 2, Nat.zero_le 16⟩
  cases format with
  | f35c => exact list
  | f45cc =>
    obtain ⟨f, found, lt, width⟩ := list
    exact ⟨f, found, Nat.lt_succ_of_lt lt, width⟩
  | f3rc => cases single
  | f4rcc => cases single
  | _ => cases variadic

theorem width_registerFields (format : Format) : ∀ f ∈ format.registerFields, f.width ≤ 16 := by
  cases format <;> decide

theorem maxRegisters_le (format : Format) : format.maxRegisters ≤ 0xff := by
  cases format <;> decide

theorem maxRegisters_of_isVariadic {format : Format} (h : format.isVariadic = true) (single : format.isRange = false) :
    format.maxRegisters = 5 := by
  cases format with
  | f35c => rfl
  | f45cc => rfl
  | f3rc => cases single
  | f4rcc => cases single
  | _ => cases h

theorem countField_le (format : Format) : ∀ f ∈ format.countField?, twoPow f.width ≤ 0xff + 1 := by
  cases format <;> decide

theorem registerField?_eq_some {format : Format} {i : Int} {f : BitField} (h : format.registerField? i = some f) :
    ∃ k : Nat, i = k ∧ k < format.registerFields.length ∧ format.registerFields[k]? = some f := by
  unfold registerField? at h
  split at h
  · cases h
  · next nonneg => exact ⟨i.toNat, by omega, (List.getElem?_eq_some_iff.1 h).1, h⟩

end Format

/-- What the opcode table fixes about the operands: a literal fits 32 or 64 bits, and an index is there exactly if the
opcode refers to a constant. -/
theorem Opcode.operand_entries : ∀ o ∈ instructions,
    BitField.totalWidth o.format.literalFields + (Instruction.blank o).dataShift ≤ (if o.isWideRegister 0 then 64 else 32) ∧
    (o.ref.isSome = true ↔ o.format.indexFields ≠ []) ∧ o.format.index2Fields = (if o.ref2.isSome then [Format.secondIndex] else []) := by
  decide +kernel

namespace Operand

variable {s t : Operand} {op : Opcode}

/-- The operand whose fields store an operand. All registers of a range are stored through the first one. -/
def home (op : Opcode) : Operand → Operand
  | register i => .register (if op.format.isRange then 0 else i)
  | s => s

theorem home_of_single (single : op.format.isRange = false) (s : Operand) : s.home op = s := by
  cases s with
  | register i => simp only [home, single, Bool.false_eq_true, if_false]
  | _ => rfl

/-- The fields in which an operand is stored. -/
def fields (op : Opcode) : Operand → List BitField
  | register i => (op.format.registerField? (if op.format.isRange then 0 else i)).toList
  | count => op.format.countField?.toList
  | literal => op.format.literalFields
  | index => op.format.indexFields
  | index2 => op.format.index2Fields

theorem mem_layout {f : BitField} (h : f ∈ s.fields op) : (s.home op, f) ∈ op.format.layout := by
  unfold Format.layout
  cases s with
  | register i =>
    obtain ⟨k, e, -, located⟩ := Format.registerField?_eq_some (Option.mem_toList.1 h)
    simp only [home, e, List.mem_append, List.mem_map]
    exact .inl (.inl (.inl (.inl ⟨(f, k), List.mem_zipIdx_iff_getElem?.2 located, rfl⟩)))
  | count => simp_all [fields, home]
  | literal => simp_all [fields, home]
  | index => simp_all [fields, home]
  | index2 => simp_all [fields, home]

/-- Operands with different homes have disjoint fields. -/
theorem fields_apart (ne : s.home op ≠ t.home op) : ∀ f ∈ s.fields op, ∀ g ∈ t.fields op, f.Apart g := by
  intro f hf g hg
  have differ : (s.home op, f) ≠ (t.home op, g) := fun e => ne (congrArg Prod.fst e)
  have : Std.Symm fun p q : Operand × BitField => p.2.Apart q.2 := ⟨fun _ _ h => h.symm⟩
  exact op.format.apart_layout.forall (mem_layout hf) (mem_layout hg) differ

theorem fields_entries (op : Opcode) (s : Operand) :
    ∀ f ∈ s.fields op, f.shift + f.width ≤ 16 ∧ f.unit < op.format.units ∧ f.Above :=
  fun _ h => op.format.layout_entries _ (mem_layout h)

/-- The value of an operand. -/
def get (x : Instruction) : Operand → Except Stop Int
  | register i => x.register i
  | count => return ← x.registersCount
  | literal => x.data
  | index => x.index
  | index2 => x.index2

def set (x : Instruction) (v : Int) : Operand → Except Stop Instruction
  | register i => x.setRegister i v
  | count => x.setRegistersCount v
  | literal => x.setData v
  | index => x.setIndex v
  | index2 => x.setIndex2 v

/-- Which values an operand can have. An argument list has at most five registers and a range at most 255, and the
literals of the high16 formats end in zeros. -/
def Holds (x : Instruction) (v : Int) : Operand → Prop
  | register i => ∃ limit, x.registerLimit i = .ok limit ∧ 0 ≤ v ∧ v ≤ limit
  | count =>
    if x.opcode.format.isVariadic then 0 ≤ v ∧ v ≤ (if x.opcode.format.isRange then 0xff else 5)
    else v = x.opcode.format.maxRegisters
  | literal => x.hasData = true ∧ -(twoPow (x.dataWidth - 1) : Int) ≤ v ∧ v < twoPow (x.dataWidth - 1) ∧ v % twoPow x.dataShift = 0
  | index => x.hasIndex = true ∧ 0 ≤ v ∧ v < twoPow (BitField.totalWidth x.opcode.format.indexFields)
  | index2 => x.opcode.ref2.isSome = true ∧ 0 ≤ v ∧ v < twoPow 16

/-- For a register, that its position is one the opcode has; true for the other operands. -/
def Of (op : Opcode) : Operand → Prop
  | register i => 0 ≤ i ∧ i < op.format.maxRegisters
  | _ => True

end Operand

namespace Instruction

open Operand (fields)

variable {x y : Instruction} {s t : Operand} {n : Nat} {i v : Int} {f : BitField}

theorem Fits.unit_lt (hx : x.Fits) (h : f.unit < x.opcode.format.units) : f.unit < x.units.length := by
  rwa [hx.length]

theorem hasData_of_opcode (h : y.opcode = x.opcode) : y.hasData = x.hasData := by
  rw [hasData, hasData, h]

theorem dataShift_of_opcode (h : y.opcode = x.opcode) : y.dataShift = x.dataShift := by
  rw [dataShift, dataShift, h]

theorem dataWidth_of_opcode (h : y.opcode = x.opcode) : y.dataWidth = x.dataWidth := by
  rw [dataWidth, dataWidth, dataShift_of_opcode h, h]

/-! ## Reading -/

theorem register_of_field (single : x.opcode.format.isRange = false) (hf : x.opcode.format.registerField? i = some f) :
    x.register i = (f.read x.units).map Int.ofNat := by
  obtain ⟨k, rfl, lt, located⟩ := Format.registerField?_eq_some hf
  have nonempty : x.opcode.format.registerFields.isEmpty = false := by
    rw [List.isEmpty_eq_false_iff]
    exact List.ne_nil_of_length_pos (by omega)
  simp only [register, single, nonempty, Format.looseField_eq lt, located, Bool.false_eq_true, if_false]
  cases f.read x.units <;> rfl

theorem wrap64_of_small {v : Int} (low : 0 ≤ v) (high : v < 2 ^ 63) : wrap64 v = v := by
  have : (twoPow 64 : Int) = 2 ^ 64 := rfl
  exact Int.bmod_eq_of_le (by omega) (by omega)

/-- Register `k` of a range is the first one plus `k`. -/
theorem register_of_range {first : Nat} (range : x.opcode.format.isRange = true) (read : (Format.wholeUnit 2).read x.units = .ok first)
    (k : Nat) (small : k < 2 ^ 62) : x.register k = .ok (first + k : Int) := by
  have bound := BitField.read_lt read
  have : twoPow (Format.wholeUnit 2).width = 65536 := rfl
  simp only [register, range, if_true, read]
  exact congrArg Except.ok (wrap64_of_small (by omega) (by omega))

theorem fields_register_of_range (range : x.opcode.format.isRange = true) (i : Int) :
    fields x.opcode (.register i) = [Format.wholeUnit 2] := by
  simp only [fields, range, if_true, Format.registerField?_zero_of_isRange range, Option.toList_some]

theorem fields_register_of_single (single : x.opcode.format.isRange = false) (i : Int) :
    fields x.opcode (.register i) = (x.opcode.format.registerField? i).toList := by
  simp only [fields, single, Bool.false_eq_true, if_false]

theorem exists_registerField? (h : Operand.Of x.opcode (.register i)) : ∃ f, x.opcode.format.registerField? i = some f := by
  obtain ⟨low, high⟩ := h
  have lt : i.toNat < x.opcode.format.registerFields.length := by
    rw [Format.length_registerFields]
    omega
  refine ⟨x.opcode.format.registerFields[i.toNat], ?_⟩
  rw [Format.registerField?, if_neg (by omega), List.getElem?_eq_getElem lt]

/-- The value of an operand depends on its fields only. -/
theorem get_congr (hx : x.Fits) (same : y.opcode = x.opcode) (hs : x.opcode.format.isRange = true ∨ s.Of x.opcode)
    (reads : ∀ f ∈ s.fields x.opcode, f.read y.units = f.read x.units) : s.get y = s.get x := by
  cases s with
  | register i =>
    simp only [Operand.get]
    by_cases range : x.opcode.format.isRange = true
    · rw [fields_register_of_range range] at reads
      simp only [register, same, range, if_true, reads _ (List.mem_singleton_self _)]
    · have single : x.opcode.format.isRange = false := by simpa using range
      obtain ⟨f, hf⟩ := exists_registerField? (hs.resolve_left range)
      rw [fields_register_of_single single] at reads
      rw [register_of_field single hf, register_of_field (by rw [same, single]) (by rw [same, hf]), reads f (Option.mem_toList.2 hf)]
  | count =>
    simp only [Operand.get, registersCount, same]
    cases hf : x.opcode.format.countField? with
    | none => rfl
    | some f => simp only [reads f (Option.mem_toList.2 hf)]
  | literal =>
    have read : BitField.readAll x.opcode.format.literalFields y.units = BitField.readAll x.opcode.format.literalFields x.units :=
      BitField.readAll_congr reads
    simp only [Operand.get]
    rw [data, data, hasData_of_opcode same, dataWidth_of_opcode same, dataShift_of_opcode same, same, read]
  | index =>
    simp only [Operand.get, index, same]
    cases hf : x.opcode.format.indexFields with
    | nil => rfl
    | cons f fs =>
      have read : BitField.readAll x.opcode.format.indexFields y.units = BitField.readAll x.opcode.format.indexFields x.units :=
        BitField.readAll_congr reads
      rw [hf] at read
      simp only [read]
  | index2 =>
    simp only [Operand.get, index2, same]
    split
    · next has =>
      have stored : Operand.index2.fields x.opcode = [Format.secondIndex] := by
        rw [fields, (Opcode.operand_entries _ hx.mem).2.2, if_pos has]
      rw [reads Format.secondIndex (by rw [stored]; exact List.mem_singleton_self _)]
    · rfl

/-! ## Writing -/

/-- `y` is `x` with other values in the fields of `s` and nothing else changed. -/
structure Written (s : Operand) (x y : Instruction) : Prop where
  opcode : y.opcode = x.opcode
  target : y.target = x.target
  isPadding : y.isPadding = x.isPadding
  units : ∃ n, BitField.writeAll (s.fields x.opcode) n x.units = .ok y.units

/-- Writing one operand keeps the value of every operand with another home. -/
theorem Written.get_eq (h : Written s x y) (hx : x.Fits) (ne : t.home x.opcode ≠ s.home x.opcode)
    (ht : x.opcode.format.isRange = true ∨ t.Of x.opcode) : t.get y = t.get x := by
  obtain ⟨n, write⟩ := h.units
  refine get_congr hx h.opcode ht fun g hg => ?_
  exact BitField.read_of_writeAll_apart (fun f hf => (Operand.fields_entries _ s f hf).1)
    (fun f hf => Operand.fields_apart ne.symm f hf g hg) write

theorem Written.lowByte_eq (h : Written s x y) : BitField.lowByte y.units = BitField.lowByte x.units := by
  obtain ⟨n, write⟩ := h.units
  exact BitField.lowByte_of_writeAll (fun f hf => (Operand.fields_entries _ s f hf).2.2) write

/-- How the setter of `s` answers to `v`: if `x` can hold the value, it is stored, and otherwise the setter fails. -/
structure Answers (s : Operand) (x : Instruction) (v : Int) : Prop where
  stores : s.Holds x v → ∃ y, s.set x v = .ok y ∧ Written s x y ∧ s.get y = .ok v
  refuses : ¬ s.Holds x v → ∃ cause, s.set x v = .error (.failure cause)

/-- A setter that checks a condition equivalent to `Holds` and then writes the fields of its operand answers as
`Answers` says. -/
theorem Fits.answers (hx : x.Fits) (p : Prop) [Decidable p] (n : Nat) (cause : Failure) (holds : s.Holds x v ↔ p)
    (setter : s.set x v = if p then (do return { x with units := ← BitField.writeAll (s.fields x.opcode) n x.units })
      else fail cause)
    (back : p → ∀ units, BitField.writeAll (s.fields x.opcode) n x.units = .ok units → s.get { x with units } = .ok v) :
    Answers s x v where
  stores h := by
    have hp := holds.1 h
    obtain ⟨units, write⟩ := BitField.exists_writeAll (fun f hf => hx.unit_lt (Operand.fields_entries x.opcode s f hf).2.1) n
    refine ⟨{ x with units }, ?_, ⟨rfl, rfl, rfl, n, write⟩, back hp units write⟩
    rw [setter, if_pos hp, write]
    rfl
  refuses h := ⟨cause, by rw [setter, if_neg fun hp => h (holds.2 hp)]; rfl⟩

theorem Fits.answers_register (hx : x.Fits) (single : x.opcode.format.isRange = false) : Answers (.register i) x v := by
  cases hf : x.opcode.format.registerField? i with
  | none =>
    have found : (if i < 0 then none else x.opcode.format.registerFields[i.toNat]?) = none := hf
    refine hx.answers False 0 (.registerSlot x.opcode.name i) (iff_false_intro ?_) ?_ (fun h => h.elim)
    · rintro ⟨limit, h, -⟩
      have bits : (if i < 0 then none else x.opcode.format.registerBits[i.toNat]?) = none := by
        rw [Format.registerBits_eq, List.getElem?_map]
        split at found
        · next e => rw [if_pos e]
        · next e => rw [if_neg e, found, Option.map_none]
      simp only [registerLimit, single, Bool.false_eq_true, if_false, bits] at h
      cases h
    · simp only [Operand.set, setRegister, single, Bool.false_eq_true, if_false, found]
  | some f =>
    have stored : fields x.opcode (.register i) = [f] := by rw [fields_register_of_single single, hf, Option.toList_some]
    obtain ⟨inside, -, -⟩ := Operand.fields_entries x.opcode (.register i) f (by rw [stored]; exact List.mem_singleton_self f)
    have field := register_of_field (x := x) single hf
    obtain ⟨k, rfl, lt, located⟩ := Format.registerField?_eq_some hf
    have nonneg : ¬ (k : Int) < 0 := by omega
    have limit : x.registerLimit k = .ok (twoPow f.width - 1) := by
      simp only [registerLimit, single, Bool.false_eq_true, if_false, nonneg, Int.toNat_natCast, Format.registerBits_eq,
        List.getElem?_map, located, Option.map_some]
    have pos := twoPow_pos f.width
    refine hx.answers (0 ≤ v ∧ v < twoPow f.width) v.toNat (.registerRange x.opcode.name v k (twoPow f.width - 1)) ?_ ?_ ?_
    · simp only [Operand.Holds, limit, Except.ok.injEq, exists_eq_left']
      omega
    · simp only [Operand.set, setRegister, single, Bool.false_eq_true, if_false, nonneg, Int.toNat_natCast, located, stored,
        BitField.writeAll_singleton]
    · intro small units write
      rw [stored, BitField.writeAll_singleton] at write
      rw [Operand.get, register_of_field (x := { x with units }) single hf,
        BitField.read_of_write_small inside (by omega) write]
      exact congrArg Except.ok (Int.toNat_of_nonneg small.1)

theorem Fits.answers_count (hx : x.Fits) : Answers .count x v := by
  cases hf : x.opcode.format.countField? with
  | none =>
    have stored : fields x.opcode .count = [] := by rw [fields, hf, Option.toList_none]
    have fixed : x.opcode.format.isVariadic ≠ true := by
      rw [ne_eq, Format.isVariadic_iff, hf]
      exact Bool.false_ne_true
    refine hx.answers (v = x.opcode.format.maxRegisters) 0 (.registerCount x.opcode.name v) ?_ ?_ ?_
    · rw [Operand.Holds, if_neg fixed]
    · simp only [Operand.set, setRegistersCount, hf, stored]
      rfl
    · rintro rfl units write
      simp only [Operand.get, registersCount, hf]
      rfl
  | some f =>
    have stored : fields x.opcode .count = [f] := by rw [fields, hf, Option.toList_some]
    have variadic : x.opcode.format.isVariadic = true := by rw [Format.isVariadic_iff, hf, Option.isSome_some]
    obtain ⟨inside, -, -⟩ := Operand.fields_entries x.opcode .count f (by rw [stored]; exact List.mem_singleton_self f)
    have wide : (if x.opcode.format.isRange then 0xff else 5) < (twoPow f.width : Int) := Format.most_lt_countField _ f hf
    refine hx.answers (0 ≤ v ∧ v ≤ (if x.opcode.format.isRange then 0xff else 5)) v.toNat (.registerCount x.opcode.name v) ?_ ?_ ?_
    · rw [Operand.Holds, if_pos variadic]
    · simp only [Operand.set, setRegistersCount, hf, stored, BitField.writeAll_singleton]
    · intro small units write
      rw [stored, BitField.writeAll_singleton] at write
      simp only [Operand.get, registersCount, hf, BitField.read_of_write_small inside (show v.toNat < _ by omega) write]
      exact congrArg Except.ok (Int.toNat_of_nonneg small.1)

theorem Fits.answers_literal (hx : x.Fits) : Answers .literal x v := by
  by_cases has : x.hasData = true
  · refine hx.answers (-(twoPow (x.dataWidth - 1) : Int) ≤ v ∧ v < twoPow (x.dataWidth - 1) ∧ v % twoPow x.dataShift = 0)
      (v / twoPow x.dataShift % twoPow x.dataWidth).toNat (.literalRange x.opcode.name v) ?_ ?_ ?_
    · simp only [Operand.Holds, has, true_and]
    · simp only [Operand.set, setData, has, if_true, fields]
    · intro range units write
      have setter : x.setData v = .ok { x with units } := by
        simp only [setData, has, if_true, if_pos range]
        exact except_bind_eq_ok.2 ⟨units, write, rfl⟩
      exact data_of_setData setter
  · refine hx.answers False 0 (.lacksOperand x.opcode.name (ascii "literal")) ?_ ?_ (fun h => h.elim)
    · exact iff_false_intro fun h => has h.1
    · simp only [Operand.set, setData, has, Bool.false_eq_true, if_false]

theorem Fits.answers_index (hx : x.Fits) : Answers .index x v := by
  have table := (Opcode.operand_entries _ hx.mem).2.1
  cases hfs : x.opcode.format.indexFields with
  | nil =>
    refine hx.answers False 0 (.lacksOperand x.opcode.name (ascii "index")) ?_ ?_ (fun h => h.elim)
    · exact iff_false_intro fun h => table.1 h.1 hfs
    · simp only [Operand.set, setIndex, hfs, if_false]
  | cons f fs =>
    have has : x.hasIndex = true := table.2 (by rw [hfs]; exact List.cons_ne_nil f fs)
    refine hx.answers (0 ≤ v ∧ v < twoPow (BitField.totalWidth (f :: fs))) v.toNat
      (.literalRange x.opcode.name v) ?_ ?_ ?_
    · simp only [Operand.Holds, has, true_and, hfs]
    · simp only [Operand.set, setIndex, fields, hfs]
    · intro small units write
      have read := BitField.readAll_of_writeAll (fun f hf => (Operand.fields_entries x.opcode .index f hf).1)
        (Format.apart_indexFields x.opcode.format) write
      rw [fields, hfs, Nat.mod_eq_of_lt (by omega)] at read
      simp only [Operand.get, index, hfs, read]
      exact congrArg Except.ok (Int.toNat_of_nonneg small.1)

theorem Fits.answers_index2 (hx : x.Fits) : Answers .index2 x v := by
  have stored := (Opcode.operand_entries _ hx.mem).2.2
  by_cases has : x.opcode.ref2.isSome = true
  · rw [if_pos has] at stored
    refine hx.answers (0 ≤ v ∧ v < twoPow 16) v.toNat (.literalRange x.opcode.name v) ?_ ?_ ?_
    · simp only [Operand.Holds, has, true_and]
    · have present : x.opcode.ref2.isNone = false := by rw [Option.isNone_eq_false_iff, has]
      simp only [Operand.set, setIndex2, present, Bool.false_eq_true, if_false, fields, stored, BitField.writeAll_singleton]
    · intro small units write
      rw [fields, stored, BitField.writeAll_singleton] at write
      have read : Format.secondIndex.read units = .ok v.toNat :=
        BitField.read_of_write_small (by decide) (show v.toNat < twoPow 16 by omega) write
      simp only [Operand.get, index2, has, if_true, read]
      exact congrArg Except.ok (Int.toNat_of_nonneg small.1)
  · refine hx.answers False 0 (.lacksOperand x.opcode.name (ascii "second index")) ?_ ?_ (fun h => h.elim)
    · exact iff_false_intro fun h => has h.1
    · have absent : x.opcode.ref2.isNone = true := by simpa using has
      simp only [Operand.set, setIndex2, absent, if_true, if_false]

theorem Fits.answers_set (hx : x.Fits) (single : x.opcode.format.isRange = false) (s : Operand) (v : Int) : Answers s x v :=
  match s with
  | .register _ => hx.answers_register single
  | .count => hx.answers_count
  | .literal => hx.answers_literal
  | .index => hx.answers_index
  | .index2 => hx.answers_index2

theorem Answers.faultless (h : Answers s x v) : Faultless (s.set x v) := by
  by_cases holds : s.Holds x v
  · obtain ⟨y, stored, -⟩ := h.stores holds
    rw [stored]
    exact .ok y
  · obtain ⟨cause, refused⟩ := h.refuses holds
    rw [refused]
    exact .fail cause

theorem Answers.stored (h : Answers s x v) (assigned : s.set x v = .ok y) : s.Holds x v ∧ Written s x y ∧ s.get y = .ok v := by
  by_cases holds : s.Holds x v
  · obtain ⟨y', set', stored⟩ := h.stores holds
    rw [assigned] at set'
    cases set'
    exact ⟨holds, stored⟩
  · obtain ⟨cause, refused⟩ := h.refuses holds
    rw [assigned] at refused
    cases refused

/-- Setting register `i` of a range to `v` sets the first register to `v - i`, if that fits 16 bits, and fails
otherwise. -/
theorem Fits.setRegister_of_range (hx : x.Fits) (range : x.opcode.format.isRange = true) :
    (0 ≤ wrap64 (v - i) ∧ wrap64 (v - i) ≤ 0xffff ∧ ∃ y, x.setRegister i v = .ok y ∧ Written (.register i) x y ∧
      y.register i = .ok (wrap64 v)) ∨ ∃ cause, x.setRegister i v = .error (.failure cause) := by
  by_cases small : 0 ≤ wrap64 (v - i) ∧ wrap64 (v - i) ≤ 0xffff
  · obtain ⟨units, write⟩ := BitField.exists_write (f := Format.wholeUnit 2) (hx.unit_lt (Format.units_of_isRange range)) (wrap64 (v - i)).toNat
    refine .inl ⟨small.1, small.2, { x with units }, ?_, ⟨rfl, rfl, rfl, (wrap64 (v - i)).toNat, ?_⟩, ?_⟩
    · simp only [setRegister, range, if_true, if_pos small, write]
      rfl
    · rw [fields_register_of_range range, BitField.writeAll_singleton, write]
    · have read := BitField.read_of_write_small (by decide) (show (wrap64 (v - i)).toNat < twoPow 16 from by
        have : twoPow 16 = 65536 := rfl
        omega) write
      simp only [register, range, if_true, read]
      have back : wrap64 (((wrap64 (v - i)).toNat : Nat) + i) = wrap64 v := by
        rw [Int.toNat_of_nonneg small.1, wrap64, wrap64, Int.bmod_add_bmod, Int.sub_add_cancel, wrap64]
      exact congrArg Except.ok back
  · refine .inr ⟨.registerRange x.opcode.name v i 0xffff, ?_⟩
    simp only [setRegister, range, if_true, if_neg small]
    rfl

/-- No setter comes to a fault on a well-formed instruction. -/
theorem Fits.faultless_set (hx : x.Fits) (s : Operand) (v : Int) : Faultless (s.set x v) := by
  by_cases single : x.opcode.format.isRange = false
  · exact (hx.answers_set single s v).faultless
  · have range : x.opcode.format.isRange = true := by simpa using single
    cases s with
    | register i =>
      rcases hx.setRegister_of_range range (i := i) (v := v) with ⟨-, -, y, stored, -⟩ | ⟨cause, refused⟩
      · rw [Operand.set, stored]
        exact .ok y
      · rw [Operand.set, refused]
        exact .fail cause
    | count => exact hx.answers_count.faultless
    | literal => exact hx.answers_literal.faultless
    | index => exact hx.answers_index.faultless
    | index2 => exact hx.answers_index2.faultless

/-- If a setter succeeds, only the fields of its operand were written, and the operand has the value. -/
theorem Fits.stored (hx : x.Fits) (small : wrap64 v = v) (h : s.set x v = .ok y) : Written s x y ∧ s.get y = .ok v := by
  by_cases single : x.opcode.format.isRange = false
  · exact ((hx.answers_set single s v).stored h).2
  · have range : x.opcode.format.isRange = true := by simpa using single
    cases s with
    | register i =>
      rcases hx.setRegister_of_range range (i := i) (v := v) with ⟨-, -, y', stored, written, back⟩ | ⟨cause, refused⟩
      · cases stored.symm.trans h
        exact ⟨written, by rw [Operand.get, back, small]⟩
      · cases refused.symm.trans h
    | count => exact (hx.answers_count.stored h).2
    | literal => exact (hx.answers_literal.stored h).2
    | index => exact (hx.answers_index.stored h).2
    | index2 => exact (hx.answers_index2.stored h).2

/-! ## The opcode -/

theorem Fits.exists_registersCount (hx : x.Fits) : ∃ n, x.registersCount = .ok n ∧ n ≤ 0xff ∧
    (x.opcode.format.isVariadic = false → n = x.opcode.format.maxRegisters) := by
  unfold registersCount
  cases hf : x.opcode.format.countField? with
  | none => exact ⟨_, rfl, Format.maxRegisters_le _, fun _ => rfl⟩
  | some f =>
    obtain ⟨n, hn⟩ := BitField.exists_read (hx.unit_lt (Format.unit_lt_countField? _ f hf))
    refine ⟨n, hn, Nat.le_of_lt_succ (Nat.lt_of_lt_of_le (BitField.read_lt hn) (Format.countField_le _ f hf)), fun fixed => ?_⟩
    rw [← Bool.not_eq_true, Format.isVariadic_iff, hf] at fixed
    exact absurd rfl fixed

/-- Every register below the count can be read. -/
theorem Fits.exists_register (hx : x.Fits) {k : Nat} (count : x.registersCount = .ok n) (lt : k < n) :
    ∃ v, x.register k = .ok v ∧ 0 ≤ v ∧ v < 2 ^ 32 := by
  obtain ⟨m, count', few, fixed⟩ := hx.exists_registersCount
  rw [count] at count'
  cases count'
  by_cases range : x.opcode.format.isRange = true
  · obtain ⟨first, read⟩ := BitField.exists_read (f := Format.wholeUnit 2) (hx.unit_lt (Format.units_of_isRange range))
    have bound : first < 65536 := BitField.read_lt read
    exact ⟨_, register_of_range range read k (by omega), by omega, by omega⟩
  · have single : x.opcode.format.isRange = false := by simpa using range
    have found : x.opcode.format.registerFields.isEmpty = false ∧
        ∃ f, looseField x.opcode.format k = some f ∧ f.unit < x.opcode.format.units ∧ f.width ≤ 16 := by
      by_cases variadic : x.opcode.format.isVariadic = true
      · exact ⟨Format.isEmpty_of_isVariadic variadic, Format.exists_looseField variadic single k⟩
      · have room : k < x.opcode.format.registerFields.length := by
          rw [Format.length_registerFields, ← fixed (by simpa using variadic)]
          exact lt
        have mem := List.getElem_mem room
        refine ⟨?_, x.opcode.format.registerFields[k], ?_, Format.unit_lt_registerFields _ _ mem, Format.width_registerFields _ _ mem⟩
        · rw [List.isEmpty_eq_false_iff]
          exact List.ne_nil_of_length_pos (by omega)
        · rw [Format.looseField_eq room, List.getElem?_eq_getElem room]
    obtain ⟨nonempty, f, field, unit, width⟩ := found
    obtain ⟨v, read⟩ := BitField.exists_read (hx.unit_lt unit)
    have bound : v < 65536 := Nat.lt_of_lt_of_le (BitField.read_lt read) (Nat.pow_le_pow_right (by decide) width)
    refine ⟨v, ?_, by omega, by omega⟩
    simp only [register, single, nonempty, field, read, Bool.false_eq_true, if_false]
    rfl

theorem Fits.exists_data (hx : x.Fits) : ∃ v, x.data = .ok v := by
  unfold data
  split
  · obtain ⟨stored, read⟩ := BitField.exists_readAll fun f hf => hx.unit_lt (Format.unit_lt_literalFields _ f hf)
    rw [read]
    exact ⟨_, rfl⟩
  · exact ⟨0, rfl⟩

theorem Fits.exists_index (hx : x.Fits) (has : x.opcode.ref.isSome = true) :
    ∃ i : Nat, x.index = .ok i ∧ i < twoPow (BitField.totalWidth x.opcode.format.indexFields) := by
  have nonempty := (Opcode.operand_entries _ hx.mem).2.1.1 has
  obtain ⟨i, read⟩ := BitField.exists_readAll fun f hf => hx.unit_lt (Format.unit_lt_indexFields x.opcode.format f hf)
  refine ⟨i, ?_, BitField.readAll_lt read⟩
  unfold index
  split
  · next e => exact absurd e nonempty
  · next e =>
    rw [read]
    rfl

theorem Fits.exists_index2 (hx : x.Fits) (has : x.opcode.ref2.isSome = true) : ∃ i : Nat, x.index2 = .ok i ∧ i < twoPow 16 := by
  have stored := (Opcode.operand_entries _ hx.mem).2.2
  rw [if_pos has] at stored
  have mem : Format.secondIndex ∈ Operand.index2.fields x.opcode := by
    rw [fields, stored]
    exact List.mem_singleton_self _
  obtain ⟨i, read⟩ := BitField.exists_read (hx.unit_lt (Operand.fields_entries x.opcode .index2 _ mem).2.1)
  refine ⟨i, ?_, BitField.read_lt read⟩
  rw [index2, if_pos has, read]
  rfl

section Taking

open Dalvik.Action (Ends ends_bind ends_get ends_lift ends_pure ends_forIn never)

theorem ends_edit {F : Option Bytes → Instruction → Prop} {J : PUnit → Instruction → Prop} {change : Instruction → Except Stop Instruction}
    (faultless : Faultless (change x)) (hJ : ∀ y, change x = .ok y → J ⟨⟩ y) : Ends F (edit change) J x := by
  unfold edit
  rw [ends_bind, ends_get, ends_bind]
  refine ends_lift (fun m e => (faultless m e).elim) fun y e => ?_
  exact Action.ends_set.2 (hJ y e)

/-- Setting an operand keeps an instruction well-formed. -/
theorem Fits.of_set (hx : x.Fits) (h : s.set x v = .ok y) : y.Fits := by
  have retuned : Retuned x y :=
    match s, h with
    | .register _, h => retuned_setRegister h
    | .count, h => retuned_setRegistersCount h
    | .literal, h => retuned_setData h
    | .index, h => retuned_setIndex h
    | .index2, h => retuned_setIndex2 hx h
  exact retuned.fits hx

/-- `takeOperands` comes to no fault. -/
theorem Fits.ends_takeOperands (hx : x.Fits) (hy : y.Fits) : Ends never x.takeOperands (fun _ z => z.Fits) y := by
  have put : ∀ (s : Operand) (e : Except Stop Int), (∃ v, e = .ok v) → ∀ z : Instruction, z.Fits →
      Ends never (edit fun z => do s.set z (← e)) (fun _ z => z.Fits) z := by
    rintro s _ ⟨v, rfl⟩ z hz
    exact ends_edit (hz.faultless_set s v) fun y stored => hz.of_set stored
  have first : ∀ m n, x.registersCount = .ok n → m ≤ n → ∀ z : Instruction, z.Fits →
      Ends never (x.takeFirst m) (fun _ z => z.Fits) z := by
    intro m n count le z hz
    simp only [takeFirst, ends_bind, ends_pure]
    refine ends_forIn (fun k hk z hz => ?_) hz
    obtain ⟨v, register, -⟩ := hx.exists_register count (Nat.lt_of_lt_of_le (List.mem_range.1 hk) le)
    exact put (.register k) _ ⟨v, register⟩ z hz
  have registers : Ends never x.takeRegisters (fun _ z => z.Fits) y := by
    obtain ⟨n, count, -⟩ := hx.exists_registersCount
    unfold takeRegisters
    rw [count, ends_bind]
    refine ends_lift (fun _ e => by cases e) fun _ e => ?_
    cases e
    rw [ends_bind, ends_get]
    dsimp only
    split
    · rw [ends_bind]
      exact (put .count (.ok n) ⟨n, rfl⟩ y hy).mono fun _ z hz => first n n count (Nat.le_refl n) z hz
    · exact first _ n count (Nat.min_le_left n _) y hy
  unfold takeOperands
  rw [ends_bind]
  refine registers.mono fun _ z hz => ?_
  rw [ends_bind]
  have literal : Ends never x.takeLiteral (fun _ z => z.Fits) z := by
    unfold takeLiteral
    rw [ends_bind, ends_get]
    split
    · exact put .literal _ hx.exists_data z hz
    · exact ends_pure.2 hz
  refine literal.mono fun _ z hz => ?_
  unfold takeIndex
  rw [ends_bind, ends_get]
  split
  · next both =>
    obtain ⟨i, index, -⟩ := hx.exists_index (Bool.and_eq_true _ _ ▸ both).2
    exact put .index _ ⟨i, index⟩ z hz
  · exact ends_pure.2 hz

end Taking

/-- If `changeOpcode` fails, the instruction is as it was, and the stop is a failure. -/
theorem Fits.apply_changeOpcode {op : Opcode} (hx : x.Fits) (mem : op ∈ Opcode.all) {stop : Stop}
    (h : (changeOpcode op).apply x = (.error stop, y)) : y = x ∧ ∃ cause, stop = .failure cause := by
  unfold changeOpcode at h
  rw [Action.apply_bind, Action.apply_get] at h
  dsimp only at h
  split at h
  · cases h
    exact ⟨rfl, _, rfl⟩
  · next payload =>
    split at h
    · have nonempty : x.units ≠ [] := List.ne_nil_of_length_pos (by rw [hx.length]; exact Opcode.units_pos_of_mem _ hx.mem)
      split at h
      · cases h
      · next e => exact absurd e nonempty
    · have fits : (x.bared op).Fits := by
        have member := Opcode.mem_instructions mem (by simpa using payload)
        exact ⟨member, (shaped_blank member).length⟩
      have tuned := retuned_takeOperands x (x.bared op)
      have ends := (hx.ends_takeOperands fits).faultless
      rw [Action.apply_bind, Action.apply_set] at h
      dsimp only at h
      rw [Action.apply_bind, Action.apply_attempt] at h
      rcases e : x.takeOperands.apply (x.bared op) with ⟨r, z⟩
      rw [e] at h tuned ends
      cases r with
      | ok v => cases h
      | error s =>
        cases s with
        | fault m => exact absurd rfl (ends m)
        | failure cause =>
          -- Only the opcode and the units were changed, and both are put back.
          have restored : ({ z with opcode := x.opcode, units := x.units } : Instruction) = x := by
            have target : z.target = x.target := tuned.target
            have isPadding : z.isPadding = x.isPadding := tuned.isPadding
            rw [target, isPadding]
          cases h
          exact ⟨restored, cause, rfl⟩

end Instruction

/-! ## Independence -/

/-- The setter of an operand as an action. -/
def Operand.put (s : Operand) (v : Int) : Action Instruction PUnit := Instruction.edit (s.set · v)

namespace Instruction

/-- In a format other than a range, each operand of a well-formed instruction can be set to `v` exactly if it `Holds
v`. It has the value then, and the opcode byte and all other operands are as before. In any format, a setter or a
change of the opcode that fails leaves the instruction as it was. -/
theorem operands_independent {x : Instruction} (hx : x.Fits) :
    (x.opcode.format.isRange = false → ∀ (s : Operand) (v : Int),
      ((∃ y, (s.put v).Gives x ⟨⟩ y) ↔ s.Holds x v) ∧
      ∀ y, (s.put v).Gives x ⟨⟩ y → s.get y = .ok v ∧ y.opcode = x.opcode ∧
        BitField.lowByte y.units = BitField.lowByte x.units ∧ ∀ t : Operand, t ≠ s → t.Of x.opcode → t.get y = t.get x) ∧
    (∀ (s : Operand) (v : Int) stop y, (s.put v).apply x = (.error stop, y) → y = x ∧ ∃ cause, stop = .failure cause) ∧
    ∀ op ∈ Opcode.all, ∀ stop y, (changeOpcode op).apply x = (.error stop, y) → y = x ∧ ∃ cause, stop = .failure cause := by
  refine ⟨fun single s v => ?_, fun s v stop y h => ?_, fun op mem stop y h => hx.apply_changeOpcode mem h⟩
  · have answers := hx.answers_set single s v
    refine ⟨⟨fun ⟨y, h⟩ => (answers.stored (gives_edit.1 h)).1, fun holds => ?_⟩, fun y h => ?_⟩
    · obtain ⟨y, stored, -⟩ := answers.stores holds
      exact ⟨y, gives_edit.2 stored⟩
    · obtain ⟨-, written, back⟩ := answers.stored (gives_edit.1 h)
      refine ⟨back, written.opcode, written.lowByte_eq, fun t ne of => written.get_eq hx ?_ (.inr of)⟩
      rw [Operand.home_of_single single, Operand.home_of_single single]
      exact ne
  · rw [Operand.put, apply_edit] at h
    cases e : s.set x v with
    | ok z =>
      rw [e] at h
      cases h
    | error r =>
      rw [e] at h
      cases h
      refine ⟨rfl, ?_⟩
      cases stop with
      | failure cause => exact ⟨cause, rfl⟩
      | fault m => exact absurd e (hx.faultless_set s v m)

/-- `move/from16` from register 300 to register 200. -/
def farMove : Instruction :=
  { opcode := (Opcode.ofName? (ascii "move/from16")).getD .nop
    units := [0xc802, 300] }

/-- The first register of `farMove` can be set to 255, and the second one stays. Setting it to 256 fails, and so does
an opcode whose registers are below 16; both leave `farMove` as it was. -/
theorem operands_independent_farMove :
    (∃ y, ((Operand.register 0).put 255).Gives farMove ⟨⟩ y ∧ y.register 0 = .ok 255 ∧ y.register 1 = .ok 300) ∧
    ((Operand.register 0).put 256).apply farMove = (.error (.failure (.registerRange (ascii "move/from16") 256 0 255)), farMove) ∧
    ∃ op ∈ Opcode.ofName? (ascii "move"),
      (changeOpcode op).apply farMove = (.error (.failure (.registerRange (ascii "move") 200 0 15)), farMove) := by
  have fits : farMove.Fits := ⟨by decide +kernel, by decide +kernel⟩
  obtain ⟨setters, refusals, changes⟩ := operands_independent fits
  have setter := setters (by decide +kernel) (.register 0)
  have mem : (Opcode.ofName? (ascii "move")).getD .nop ∈ Opcode.all := by decide +kernel
  refine ⟨?_, ?_, (Opcode.ofName? (ascii "move")).getD .nop, by decide +kernel, ?_⟩
  · have holds : Operand.Holds farMove 255 (.register 0) := ⟨255, by decide +kernel, by decide, by decide⟩
    obtain ⟨y, run⟩ := (setter 255).1.2 holds
    obtain ⟨back, -, -, others⟩ := (setter 255).2 y run
    have second : y.register 1 = farMove.register 1 := others (.register 1) (by decide) ⟨by decide, by decide +kernel⟩
    have before : farMove.register 1 = .ok 300 := by decide +kernel
    exact ⟨y, run, back, by rw [second, before]⟩
  · refine Prod.ext (by decide +kernel) (refusals (.register 0) 256 (.failure (.registerRange (ascii "move/from16") 256 0 255)) _ ?_).1
    exact Prod.ext (by decide +kernel) rfl
  · refine Prod.ext (by decide +kernel) (changes _ mem (.failure (.registerRange (ascii "move") 200 0 15)) _ ?_).1
    exact Prod.ext (by decide +kernel) rfl

end Instruction

end Dalvik
