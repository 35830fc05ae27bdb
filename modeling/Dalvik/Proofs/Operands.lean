import Dalvik.Code.Assembler
import Dalvik.Code.Disassembly
import Dalvik.Proofs.Carrying
import Dalvik.Proofs.Image.Encoded
import Dalvik.Proofs.Item
import Dalvik.Proofs.Sequence.Settling

/-!
# Instructions as elements and back

The element of an instruction shows its registers, its literal and its constants (`Tells`). If an
argument list has at most five registers (`Few`), assembling the element succeeds, gives an
instruction of the same opcode and leaves the pool as it was (`gives_assembleInstruction`). If the
units of the instruction hold nothing besides its operands (`Canonical`), the result is the
instruction itself (`copies_of_assembleInstruction`).
-/

namespace Dalvik

open Dalvik.Action (except_bind_eq_ok)

namespace Instruction

variable {x y i : Instruction} {n : Nat} {v : Int} {k : Constant} {pool : Option Pool}

/-! ## Registers -/

/-- An argument list that is no range has at most five registers. -/
def Few (i : Instruction) : Prop := i.opcode.format.isRange = false → ∀ n, i.registersCount = .ok n → n ≤ i.opcode.format.maxRegisters

theorem Shaped.exists_setRegistersCount (hx : x.Shaped) (variadic : x.opcode.format.isVariadic = true)
    (range : x.opcode.format.isRange = true → n ≤ 0xff) (list : x.opcode.format.isRange = false → n ≤ 5) :
    ∃ y, x.setRegistersCount n = .ok y := by
  have holds : Operand.count.Holds x n := by
    rw [Operand.Holds, if_pos variadic]
    refine ⟨Int.natCast_nonneg n, ?_⟩
    split
    · next e => exact Int.ofNat_le.2 (range e)
    · next e => exact Int.ofNat_le.2 (list (Bool.not_eq_true _ ▸ e))
  obtain ⟨y, stored, -⟩ := hx.fits.answers_count.stores holds
  exact ⟨y, stored⟩

/-- `v` can be register `k` of the format if the first register is `first`. -/
def Takes (format : Format) (first : Int) (k : Nat) (v : Int) : Prop :=
  if format.isRange then v = first + k ∧ 0 ≤ first ∧ first ≤ 0xffff
  else ∃ f, format.registerFields[k]? = some f ∧ 0 ≤ v ∧ v < twoPow f.width

theorem Shaped.exists_registers (hx : x.Shaped) (few : x.Few) : ∃ rs first, x.registers = .ok rs ∧ x.registersCount = .ok rs.length ∧
    ∀ k v, rs[k]? = some v → Takes x.opcode.format first k v := by
  obtain ⟨n, count, small, -⟩ := hx.fits.exists_registersCount
  have each : ∃ first, ∀ k ∈ List.range n, ∃ v, x.register (k : Nat) = .ok v ∧ Takes x.opcode.format first k v := by
    by_cases range : x.opcode.format.isRange = true
    · obtain ⟨first, read⟩ := BitField.exists_read (f := Format.wholeUnit 2) (hx.fits.unit_lt (Format.units_of_isRange range))
      have bound := BitField.read_lt read
      have : twoPow (Format.wholeUnit 2).width = 65536 := rfl
      refine ⟨first, fun k hk => ⟨_, register_of_range range read k (by have := List.mem_range.1 hk; omega), ?_⟩⟩
      rw [Takes, if_pos range]
      exact ⟨rfl, by omega, by omega⟩
    · have single : x.opcode.format.isRange = false := by simpa using range
      have room : n ≤ x.opcode.format.registerFields.length := by
        rw [Format.length_registerFields]
        exact few single n count
      refine ⟨0, fun k hk => ?_⟩
      have lt : k < x.opcode.format.registerFields.length := Nat.lt_of_lt_of_le (List.mem_range.1 hk) room
      have field := Format.looseField_eq lt
      rw [List.getElem?_eq_getElem lt] at field
      obtain ⟨v, read⟩ := BitField.exists_read (hx.fits.unit_lt (Format.unit_lt_registerFields _ _ (List.getElem_mem lt)))
      have nonempty : x.opcode.format.registerFields.isEmpty = false := by
        rw [List.isEmpty_eq_false_iff]
        exact List.ne_nil_of_length_pos (by omega)
      have bound := BitField.read_lt read
      refine ⟨v, ?_, ?_⟩
      · simp only [register, single, nonempty, field, read]
        rfl
      · rw [Takes, if_neg range]
        exact ⟨_, List.getElem?_eq_getElem lt, by omega, by omega⟩
  obtain ⟨first, each⟩ := each
  obtain ⟨rs, found⟩ := List.exists_forall₂ each
  have length : n = rs.length := by rw [← found.length_eq, List.length_range]
  refine ⟨rs, first, ?_, by rw [count, length], fun k v hk => ?_⟩
  · rw [registers, count]
    exact Action.except_mapM_eq_ok.2 (found.imp fun _ _ h => h.1)
  · obtain ⟨lt, rfl⟩ := List.getElem?_eq_some_iff.1 hk
    have here := found.get (by rw [List.length_range]; omega) lt
    simpa using here.2

theorem Shaped.exists_setRegister (hx : x.Shaped) {first : Int} {k : Nat} (single : x.opcode.format.isRange = false)
    (takes : Takes x.opcode.format first k v) : ∃ y, x.setRegister k v = .ok y := by
  rw [Takes, if_neg (by rw [single]; exact Bool.false_ne_true)] at takes
  obtain ⟨f, hf, low, high⟩ := takes
  obtain ⟨units, hunits⟩ :=
    BitField.exists_write (hx.fits.unit_lt (Format.unit_lt_registerFields _ f (List.mem_of_getElem? hf))) v.toNat
  refine ⟨{ x with units }, ?_⟩
  have nonneg : ¬ ((k : Int) < 0) := by omega
  simp only [setRegister, single, nonneg, Int.toNat_natCast, hf, low, high, hunits, if_false, and_self, if_true, Bool.false_eq_true]
  rfl

/-- `setRegister 0` succeeds on a range with any 16-bit number. -/
theorem Shaped.exists_setRegister_zero (hx : x.Shaped) (range : x.opcode.format.isRange = true) (low : 0 ≤ v) (high : v ≤ 0xffff) :
    ∃ y, x.setRegister 0 v = .ok y ∧ (Format.wholeUnit 2).read y.units = .ok v.toNat := by
  obtain ⟨units, hunits⟩ := BitField.exists_write (f := Format.wholeUnit 2) (hx.fits.unit_lt (Format.units_of_isRange range)) v.toNat
  have small : wrap64 (v - 0) = v := by
    rw [Int.sub_zero]
    exact wrap64_of_small low (by omega)
  have read := BitField.read_of_write (by decide) hunits
  have width : twoPow (Format.wholeUnit 2).width = 65536 := rfl
  rw [width, Nat.mod_eq_of_lt (by omega)] at read
  refine ⟨{ x with units }, ?_, read⟩
  simp only [setRegister, range, small, low, high, hunits, if_true, and_self]
  rfl

end Instruction

namespace Sequence

open Assembly (Body Register)

variable {e : Assembly.Instruction} {body : Body} {x : Instruction} {first : Int} {k : Nat} {rs : List Register}

/-- `placeRegisters` succeeds on registers that fit the fields of the format. -/
theorem exists_placeRegisters_list (hx : x.Shaped) (single : x.opcode.format.isRange = false)
    (takes : ∀ j r, rs[j]? = some r → Instruction.Takes x.opcode.format first (k + j) (body.resolve r)) :
    ∃ y, placeRegisters e body x k rs = .ok y ∧ Instruction.Retuned x y := by
  induction rs generalizing x k with
  | nil => exact ⟨x, rfl, .refl x⟩
  | cons r rs ih =>
    obtain ⟨y, stored⟩ := hx.exists_setRegister single (takes 0 r rfl)
    have retuned := Instruction.retuned_setRegister stored
    obtain ⟨z, rest, retuned'⟩ := ih (x := y) (k := k + 1) (retuned.shaped hx) (by rw [retuned.opcode, single]) fun j r' hj => by
      rw [retuned.opcode, Nat.add_assoc, Nat.add_comm 1 j]
      exact takes (j + 1) r' hj
    refine ⟨z, ?_, retuned.trans retuned'⟩
    rw [Nat.add_zero] at stored
    simp only [placeRegisters, single, Bool.false_and, Bool.false_eq_true, if_false, stored]
    exact except_bind_eq_ok.2 ⟨y, rfl, rest⟩

/-- Behind the first register of a range, `placeRegisters` only checks that the registers are consecutive, and changes
nothing. -/
theorem placeRegisters_run {n : Nat} (range : x.opcode.format.isRange = true) (read : (Format.wholeUnit 2).read x.units = .ok n)
    (pos : 0 < k) (follow : ∀ j r, rs[j]? = some r → body.resolve r = n + ((k + j : Nat) : Int)) :
    placeRegisters e body x k rs = .ok x := by
  induction rs generalizing k with
  | nil => rfl
  | cons r rs ih =>
    have here : x.register 0 = .ok (n : Int) := by
      have := Instruction.register_of_range range read 0 (by decide)
      simpa using this
    have next : body.resolve r = n + (k : Int) := follow 0 r rfl
    simp only [placeRegisters, range, pos, decide_true, Bool.and_self, if_true, here, next]
    refine except_bind_eq_ok.2 ⟨n, rfl, ?_⟩
    rw [if_pos rfl]
    refine ih (Nat.succ_pos k) fun j r' hj => ?_
    rw [follow (j + 1) r' hj, Nat.succ_add]
    rfl

theorem exists_placeRegisters (e : Assembly.Instruction) (body : Body) (hx : x.Shaped)
    (takes : ∀ j r, rs[j]? = some r → Instruction.Takes x.opcode.format first j (body.resolve r)) :
    ∃ y, placeRegisters e body x 0 rs = .ok y ∧ Instruction.Retuned x y := by
  by_cases range : x.opcode.format.isRange = true
  · cases rs with
    | nil => exact ⟨x, rfl, .refl x⟩
    | cons r rs =>
      simp only [Instruction.Takes, range, if_true] at takes
      obtain ⟨start, low, high⟩ := takes 0 r rfl
      rw [Int.natCast_zero, Int.add_zero] at start
      obtain ⟨y, stored, read⟩ := hx.exists_setRegister_zero range low high
      have retuned := Instruction.retuned_setRegister stored
      refine ⟨y, ?_, retuned⟩
      have rest : placeRegisters e body y 1 rs = .ok y :=
        placeRegisters_run (by rw [retuned.opcode, range]) read Nat.one_pos fun j r' hj => by
          rw [(takes (j + 1) r' hj).1, Int.toNat_of_nonneg low, Nat.add_comm]
      simp only [placeRegisters, start, Nat.lt_irrefl, decide_false, Bool.and_false, Bool.false_eq_true, if_false]
      exact except_bind_eq_ok.2 ⟨y, by rw [Action.labelled_eq_ok]; exact stored, rest⟩
  · exact exists_placeRegisters_list hx (by simpa using range) (by simpa using takes)

end Sequence

/-! ## Literals -/

namespace Instruction

variable {x y i : Instruction} {v : Int} {k : Constant} {pool : Option Pool}

/-- The literal of an instruction lies within the bounds that `setData` accepts. -/
theorem data_range (has : x.hasData = true) (h : x.data = .ok v) :
    -(twoPow (x.dataWidth - 1) : Int) ≤ v ∧ v < twoPow (x.dataWidth - 1) ∧ v % twoPow x.dataShift = 0 := by
  unfold data at h
  rw [if_pos has] at h
  obtain ⟨stored, -, h⟩ := except_bind_eq_ok.1 h
  cases h
  have widthPos : 0 < x.dataWidth := by
    have := totalWidth_literal_pos (by simpa [Instruction.hasData] using has)
    rw [dataWidth]
    omega
  have half : twoPow x.dataWidth = 2 * twoPow (x.dataWidth - 1) := by
    obtain ⟨k, hk⟩ : ∃ k, x.dataWidth = k + 1 := ⟨x.dataWidth - 1, by omega⟩
    rw [hk, Nat.add_sub_cancel, twoPow_eq, twoPow_eq, Nat.pow_succ, Nat.mul_comm]
  have low := Int.le_bmod (x := (stored : Int) * twoPow x.dataShift) (twoPow_pos x.dataWidth)
  have high := Int.bmod_lt (x := (stored : Int) * twoPow x.dataShift) (twoPow_pos x.dataWidth)
  have divides : (twoPow x.dataShift : Int) ∣ twoPow x.dataWidth := by
    rw [dataWidth, twoPow_add]
    push_cast
    exact Dvd.intro_left _ rfl
  refine ⟨by rw [Literal.signExtend]; omega, by rw [Literal.signExtend]; omega, ?_⟩
  rw [Literal.signExtend, ← Int.emod_emod_of_dvd _ divides, Int.bmod_emod, Int.emod_emod_of_dvd _ divides, Int.mul_emod_left]

theorem Shaped.exists_setData (hx : x.Shaped) (has : x.hasData = true)
    (range : -(twoPow (x.dataWidth - 1) : Int) ≤ v ∧ v < twoPow (x.dataWidth - 1) ∧ v % twoPow x.dataShift = 0) :
    ∃ y, x.setData v = .ok y := by
  obtain ⟨y, stored, -⟩ := hx.fits.answers_literal.stores ⟨has, range⟩
  exact ⟨y, stored⟩

/-- `literalValue` undoes `Literal.ofOperand` for values of the width of the literal. -/
theorem literalValue_ofOperand {wide : Bool} (low : -(twoPow ((if wide then 64 else 32) - 1) : Int) ≤ v)
    (high : v < twoPow ((if wide then 64 else 32) - 1)) : Sequence.literalValue (Literal.ofOperand v wide) wide = v := by
  have told : ∀ (kind : LiteralKind) (w : Nat), kind.width = 8 * w → 0 < w → w ≤ 8 →
      -(twoPow (kind.width - 1) : Int) ≤ v → v < twoPow (kind.width - 1) →
      (⟨kind, UInt64.ofInt (Literal.signExtend kind.width v)⟩ : Literal).toLong = v := by
    intro kind w width pos le low high
    have power : (256 ^ w : Int) = 2 * twoPow (8 * w - 1) := by
      obtain ⟨k, hk⟩ : ∃ k, 8 * w = k + 1 := ⟨8 * w - 1, by omega⟩
      have : (256 : Int) ^ w = 2 ^ (8 * w) := by rw [pow_mul]; norm_num
      rw [this, hk, Nat.add_sub_cancel, pow_succ, twoPow_eq]
      push_cast
      ring
    rw [width] at low high ⊢
    have fits : Value.Fits w v := ⟨by omega, by omega⟩
    rw [Value.toLong_of_fits kind ((Value.fits_signExtend w v).mono le), Value.signExtend_of_fits fits]
  cases wide with
  | true => exact told .long 8 rfl (by decide) (by decide) low high
  | false => exact told .int 4 rfl (by decide) (by decide) low high

/-- The literal in the element of an instruction has the value that the instruction holds. -/
theorem Shaped.literalValue_data (hx : x.Shaped) (has : x.hasData = true) (h : x.data = .ok v) :
    Sequence.literalValue (Literal.ofOperand v (x.opcode.isWideRegister 0)) (x.opcode.isWideRegister 0) = v := by
  obtain ⟨low, high, -⟩ := data_range has h
  have width : x.dataWidth ≤ if x.opcode.isWideRegister 0 then 64 else 32 := (Opcode.operand_entries _ hx.mem).1
  have power : (twoPow (x.dataWidth - 1) : Int) ≤ twoPow ((if x.opcode.isWideRegister 0 then 64 else 32) - 1) := by
    exact_mod_cast Nat.pow_le_pow_right (show 0 < 2 by decide) (Nat.sub_le_sub_right width 1)
  exact literalValue_ofOperand (by omega) (by omega)

/-! ## Constants -/

theorem Shaped.exists_setIndex (hx : x.Shaped) (has : x.opcode.ref.isSome = true) {i : Nat}
    (lt : i < twoPow (BitField.totalWidth x.opcode.format.indexFields)) : ∃ y, x.setIndex i = .ok y := by
  have holds : Operand.index.Holds x i := ⟨has, Int.natCast_nonneg i, by exact_mod_cast lt⟩
  obtain ⟨y, stored, -⟩ := hx.fits.answers_index.stores holds
  exact ⟨y, stored⟩

theorem Shaped.exists_setIndex2 (hx : x.Shaped) (has : x.opcode.ref2.isSome = true) {i : Nat} (lt : i < twoPow 16) :
    ∃ y, x.setIndex2 i = .ok y := by
  have holds : Operand.index2.Holds x i := ⟨has, Int.natCast_nonneg i, by exact_mod_cast lt⟩
  obtain ⟨y, stored, -⟩ := hx.fits.answers_index2.stores holds
  exact ⟨y, stored⟩

/-- `resolve` gives a raw constant or one that `lookup` finds in the pool. -/
theorem resolve_cases (pool : Option Pool) (kind : Kind) (i : Int) : resolve pool kind i = .raw kind i ∨
    ∃ p k, pool = some p ∧ p.lookup kind i = .ok k ∧ resolve pool kind i = k := by
  unfold resolve
  cases pool with
  | none => exact .inl rfl
  | some p =>
    cases found : p.lookup kind i with
    | error e => exact .inl (by simp only [found]; rfl)
    | ok k => exact .inr ⟨p, k, rfl, found, by simp only [found]; rfl⟩

/-- `indexFor` of a resolved constant gives the index it was resolved from and leaves the pool as it was. -/
theorem gives_indexFor (sound : ∀ p ∈ pool, p.Sound) (kind : Kind) (i : Int) :
    (indexFor kind (some (resolve pool kind i))).Gives pool i pool := by
  rcases resolve_cases pool kind i with raw | ⟨p, k, rfl, found, same⟩
  · rw [raw]
    simp only [indexFor, Constant.kind, ne_eq, not_true_eq_false, if_false, Action.gives_bind, Action.gives_get, Action.gives_pure]
    exact ⟨pool, pool, ⟨rfl, rfl⟩, trivial, rfl⟩
  · obtain ⟨distinct, closed⟩ := sound p rfl
    obtain ⟨n, rfl, located⟩ := Pool.lookup_eq_ok.1 found
    have mem := List.mem_of_getElem? located
    obtain rfl := Pool.kind_of_mem_entries mem
    have inside := Pool.mem_of_mem_entries mem
    obtain ⟨j, run, index⟩ := closed.intern_of_mem inside
    rw [distinct.indexOf?_of_lookup found] at index
    cases index
    rw [same]
    cases k with
    | literal p => exact (Pool.hasSection_of_mem inside).elim
    | null => exact (Pool.hasSection_of_mem inside).elim
    | raw kind i => exact (Pool.hasSection_of_mem inside).elim
    | _ =>
      simp only [indexFor, ne_eq, not_true_eq_false, if_false]
      refine Action.gives_bind.2 ⟨_, _, Action.gives_get.2 ⟨rfl, rfl⟩, ?_⟩
      refine Action.gives_bind.2 ⟨_, _, Action.gives_lift.2 ⟨run, rfl⟩, ?_⟩
      exact Action.gives_bind.2 ⟨⟨⟩, some p, Action.gives_set.2 rfl, Action.gives_pure.2 ⟨rfl, rfl⟩⟩

theorem Shaped.gives_setConstant (hx : x.Shaped) (same : y.opcode = x.opcode) (hy : y.Shaped) (sound : ∀ p ∈ pool, p.Sound)
    (has : x.opcode.ref.isSome = true) {k : Option Constant} (told : x.constant pool = .ok k) :
    ∃ z, (y.setConstant k).Gives pool z pool ∧ Retuned y z := by
  obtain ⟨kind, ref⟩ := Option.isSome_iff_exists.1 has
  obtain ⟨i, index, lt⟩ := hx.fits.exists_index has
  rw [constant, ref, index] at told
  cases told
  obtain ⟨z, stored⟩ := hy.exists_setIndex (by rw [same, has]) (i := i) (by rw [same]; exact lt)
  have run : (y.setConstant (some (resolve pool kind i))).Gives pool z pool := by
    unfold setConstant
    rw [same, ref]
    exact Action.gives_bind.2 ⟨_, _, gives_indexFor sound kind i, Action.gives_lift.2 ⟨stored, rfl⟩⟩
  exact ⟨z, run, retuned_setConstant run⟩

theorem Shaped.gives_setConstant2 (hx : x.Shaped) (same : y.opcode = x.opcode) (hy : y.Shaped) (sound : ∀ p ∈ pool, p.Sound)
    (has : x.opcode.ref2.isSome = true) {k : Option Constant} (told : x.constant2 pool = .ok k) :
    ∃ z, (y.setConstant2 k).Gives pool z pool ∧ Retuned y z := by
  obtain ⟨kind, ref⟩ := Option.isSome_iff_exists.1 has
  obtain ⟨i, index, lt⟩ := hx.fits.exists_index2 has
  rw [constant2, ref, index] at told
  cases told
  obtain ⟨z, stored⟩ := hy.exists_setIndex2 (by rw [same, has]) lt
  have run : (y.setConstant2 (some (resolve pool kind i))).Gives pool z pool := by
    unfold setConstant2
    rw [same, ref]
    exact Action.gives_bind.2 ⟨_, _, gives_indexFor sound kind i, Action.gives_lift.2 ⟨stored, rfl⟩⟩
  exact ⟨z, run, retuned_setConstant2 hy.fits run⟩

theorem Shaped.exists_constants (hx : x.Shaped) (pool : Option Pool) : (∃ k, x.constant pool = .ok k) ∧ ∃ k, x.constant2 pool = .ok k := by
  constructor
  · unfold constant
    cases ref : x.opcode.ref with
    | none => exact ⟨none, rfl⟩
    | some kind =>
      obtain ⟨i, index, -⟩ := hx.fits.exists_index (by rw [ref]; rfl)
      rw [index]
      exact ⟨_, rfl⟩
  · unfold constant2
    cases ref : x.opcode.ref2 with
    | none => exact ⟨none, rfl⟩
    | some kind =>
      obtain ⟨i, index, -⟩ := hx.fits.exists_index2 (by rw [ref]; rfl)
      rw [index]
      exact ⟨_, rfl⟩

end Instruction

/-! ## Whole instructions -/

theorem Assembly.Body.resolve_registerFor {b b' : Assembly.Body} (same : b'.locals = b.locals) (v : Int) :
    b'.resolve (b.registerFor v) = v := by
  unfold resolve registerFor
  split
  · simp only [if_true, same]
    omega
  · simp only [Bool.false_eq_true, if_false]

namespace Sequence

open Assembly (Body)
open Instruction (Retuned retuned_setRegistersCount retuned_setData dataWidth_of_opcode dataShift_of_opcode)

variable {s : Sequence} {i : Instruction} {body body' : Body} {e : Assembly.Instruction} {pool : Option Pool} {x : Node}

/-- `e` shows the opcode, registers, literal and constants of `i`. -/
structure Tells (pool : Option Pool) (body : Body) (i : Instruction) (e : Assembly.Instruction) : Prop where
  opcode : e.opcode = i.opcode
  registers : ∃ rs, i.registers = .ok rs ∧ e.registers = rs.map body.registerFor
  literal : i.hasTarget = false → i.hasData = true → ∃ v, i.data = .ok v ∧ e.literal = Literal.ofOperand v (i.opcode.isWideRegister 0)
  ref : i.constant pool = .ok e.ref
  ref2 : i.constant2 pool = .ok e.ref2

/-- `instructionElement` succeeds on a well-formed instruction if its target has a label. -/
theorem exists_instructionElement (hi : i.Shaped) {label : Bytes}
    (target : i.hasTarget = true → s.targetLabel (.ofBranch i.opcode) i.target = .ok label) (absent : i.hasTarget = false → label = []) :
    ∃ e, s.instructionElement x i body = .ok e ∧ Tells s.pool body i e ∧ e.label = label := by
  obtain ⟨rs, registers⟩ := hi.fits.exists_registers
  obtain ⟨v, data⟩ := hi.fits.exists_data
  obtain ⟨⟨ref, hasRef⟩, ref2, hasRef2⟩ := hi.exists_constants s.pool
  let literal := if !i.hasTarget && i.hasData then Literal.ofOperand v (i.opcode.isWideRegister 0) else .int 0
  refine ⟨{ opcode := i.opcode, registers := rs.map body.registerFor, label, literal, ref, ref2 }, ?_, ?_, rfl⟩
  · rw [instructionElement, registers, hasRef, hasRef2, data]
    cases has : i.hasTarget with
    | true =>
      simp only [has, target has, if_true, Bool.not_true, Bool.false_and, Bool.false_eq_true, if_false, literal]
      rfl
    | false =>
      simp only [has, absent has, Bool.false_eq_true, if_false, Bool.not_false, Bool.true_and, literal]
      cases i.hasData <;> rfl
  · refine ⟨rfl, ⟨rs, registers, rfl⟩, fun has hasData => ⟨v, data, ?_⟩, hasRef, hasRef2⟩
    simp only [literal, has, hasData, Bool.not_false, Bool.and_self, if_true]

/-- Assembling an element of a well-formed instruction with `Few` registers gives an instruction of the same opcode
and leaves the pool as it was. -/
theorem gives_assembleInstruction (hi : i.Shaped) (few : i.Few) (sound : ∀ p ∈ pool, p.Sound) (tells : Tells pool body i e)
    (same : body'.locals = body.locals) :
    ∃ y, (assembleInstruction e body').Gives pool y pool ∧ Retuned (Instruction.blank i.opcode) y := by
  have blank := Instruction.shaped_blank hi.mem
  obtain ⟨rs, first, registers, count, takes⟩ := hi.exists_registers few
  obtain ⟨rs', registers', told⟩ := tells.registers
  rw [registers] at registers'
  cases registers'
  -- The number of registers.
  obtain ⟨x₂, h₂, r₂⟩ : ∃ x₂, (if i.opcode.format.isVariadic then (Instruction.blank i.opcode).setRegistersCount rs.length
      else .ok (Instruction.blank i.opcode)) = .ok x₂ ∧ Retuned (Instruction.blank i.opcode) x₂ := by
    split
    · next variadic =>
      obtain ⟨n, hn, most, -⟩ := hi.fits.exists_registersCount
      rw [count] at hn
      cases hn
      have list : i.opcode.format.isRange = false → rs.length ≤ 5 := fun single =>
        (few single _ count).trans (by cases i.opcode.format <;> decide)
      obtain ⟨x₂, h₂⟩ := blank.exists_setRegistersCount variadic (fun _ => most) list
      exact ⟨x₂, h₂, retuned_setRegistersCount h₂⟩
    · exact ⟨_, rfl, .refl _⟩
  -- The registers.
  obtain ⟨x₃, h₃, r₃⟩ := exists_placeRegisters e body' (r₂.shaped blank) fun j r (hj : e.registers[j]? = some r) =>
    show Instruction.Takes _ first j _ by
      rw [told, List.getElem?_map] at hj
      obtain ⟨v, hv, rfl⟩ := Option.map_eq_some_iff.1 hj
      rw [Body.resolve_registerFor same, r₂.opcode]
      exact takes j v hv
  have r₃ := r₂.trans r₃
  have opcode₃ : x₃.opcode = i.opcode := r₃.opcode
  have hasData₃ : x₃.hasData = i.hasData := by rw [Instruction.hasData, opcode₃, Instruction.hasData]
  have hasTarget₃ : x₃.hasTarget = i.hasTarget := by rw [Instruction.hasTarget, opcode₃, Instruction.hasTarget]
  -- The literal.
  obtain ⟨x₄, h₄, r₄⟩ : ∃ x₄, (if x₃.hasData && !x₃.hasTarget then
      x₃.setData (literalValue e.literal (x₃.opcode.isWideRegister 0)) else .ok x₃) = .ok x₄ ∧ Retuned x₃ x₄ := by
    split
    · next has =>
      rw [hasData₃, hasTarget₃, Bool.and_eq_true, Bool.not_eq_true'] at has
      obtain ⟨v, data, literal⟩ := tells.literal has.2 has.1
      rw [literal, opcode₃, hi.literalValue_data has.1 data]
      have range := Instruction.data_range has.1 data
      rw [← dataWidth_of_opcode opcode₃, ← dataShift_of_opcode opcode₃] at range
      obtain ⟨x₄, h₄⟩ := (r₃.shaped blank).exists_setData (hasData₃.trans has.1) range
      exact ⟨x₄, h₄, retuned_setData h₄⟩
    · exact ⟨_, rfl, .refl _⟩
  have r₄ := r₃.trans r₄
  -- The constants.
  obtain ⟨x₅, h₅, r₅⟩ : ∃ x₅, (if x₄.hasIndex then Action.within e.origin.text (x₄.setConstant e.ref)
      else pure x₄ : Action (Option Pool) Instruction).Gives pool x₅ pool ∧ Retuned x₄ x₅ := by
    split
    · next has =>
      rw [Instruction.hasIndex, r₄.opcode] at has
      obtain ⟨x₅, h₅, r₅⟩ := hi.gives_setConstant (y := x₄) r₄.opcode (r₄.shaped blank) sound has tells.ref
      exact ⟨x₅, Action.gives_within.2 h₅, r₅⟩
    · exact ⟨_, Action.gives_pure.2 ⟨rfl, rfl⟩, .refl _⟩
  have r₅ := r₄.trans r₅
  obtain ⟨x₆, h₆, r₆⟩ : ∃ x₆, (if x₅.opcode.ref2.isSome then Action.within e.origin.text (x₅.setConstant2 e.ref2)
      else pure x₅ : Action (Option Pool) Instruction).Gives pool x₆ pool ∧ Retuned x₅ x₆ := by
    split
    · next has =>
      rw [r₅.opcode] at has
      obtain ⟨x₆, h₆, r₆⟩ := hi.gives_setConstant2 (y := x₅) r₅.opcode (r₅.shaped blank) sound has tells.ref2
      exact ⟨x₆, Action.gives_within.2 h₆, r₆⟩
    · exact ⟨_, Action.gives_pure.2 ⟨rfl, rfl⟩, .refl _⟩
  have new : Instruction.new e.opcode = .ok (Instruction.blank i.opcode) := by
    rw [Instruction.new, tells.opcode, Opcode.isPayload_of_mem _ hi.mem]
    rfl
  have length : e.registers.length = rs.length := by rw [told, List.length_map]
  refine ⟨x₆, ?_, r₅.trans r₆⟩
  unfold assembleInstruction
  simp only [length]
  refine Action.gives_bind.2 ⟨_, pool, Action.gives_lift.2 ⟨new, rfl⟩, ?_⟩
  refine Action.gives_ite_bind.2 ⟨x₂, pool, ?_, ?_⟩
  · change (if i.opcode.format.isVariadic then _ else _ : Action (Option Pool) Instruction).Gives pool x₂ pool
    split at h₂
    · next variadic =>
      rw [if_pos variadic]
      exact Action.gives_lift.2 ⟨Action.labelled_eq_ok.2 h₂, rfl⟩
    · next fixed =>
      rw [if_neg fixed]
      cases h₂
      exact Action.gives_pure.2 ⟨rfl, rfl⟩
  refine Action.gives_bind.2 ⟨x₃, pool, Action.gives_lift.2 ⟨h₃, rfl⟩, ?_⟩
  refine Action.gives_ite_bind.2 ⟨x₄, pool, ?_, ?_⟩
  · split at h₄
    · next has =>
      rw [if_pos has]
      exact Action.gives_lift.2 ⟨Action.labelled_eq_ok.2 h₄, rfl⟩
    · next has =>
      rw [if_neg has]
      cases h₄
      exact Action.gives_pure.2 ⟨rfl, rfl⟩
  exact Action.gives_ite_bind.2 ⟨x₅, pool, h₅, h₆⟩

end Sequence

/-! ## Instructions that say no more than their operands -/

namespace Instruction

variable {x y z i : Instruction} {n k : Nat} {pool pool' : Option Pool} {j : Int} {o : Option Constant}

/-- A new instruction of the same opcode, given the operands of `i` one after the other. -/
def rebuilt (i : Instruction) : Except Stop Instruction := do
  let registers ← i.registers
  let data ← i.data
  let index ← i.index
  let index2 ← i.index2
  let x ← ofOperands i.opcode registers (if i.hasData then some data else none) (if i.hasIndex then some index else none)
  if i.opcode.ref2.isSome then x.setIndex2 index2 else return x

/-- The units of `i` are those of an instruction that was given its operands: there is nothing in the bits besides
them. -/
def Canonical (i : Instruction) : Prop := ∃ x, i.rebuilt = .ok x ∧ x.units = i.units

instance (i : Instruction) : Decidable i.Canonical :=
  match e : i.rebuilt with
  | .ok x => decidable_of_iff (x.units = i.units) ⟨fun h => ⟨x, e, h⟩, fun ⟨_, hy, h⟩ => Except.ok.inj (e.symm.trans hy) ▸ h⟩
  | .error _ => isFalse fun ⟨_, hy, _⟩ => nomatch e.symm.trans hy

/-- Setting a register of a range to its value changes nothing. -/
theorem setRegister_self (range : x.opcode.format.isRange = true) (read : (Format.wholeUnit 2).read x.units = .ok n)
    (stored : x.setRegister k (n + k : Int) = .ok y) : y = x := by
  have bound := BitField.read_lt read
  have : twoPow (Format.wholeUnit 2).width = 65536 := rfl
  have first : wrap64 ((n + k : Int) - k) = n := by
    rw [Int.add_sub_cancel]
    exact wrap64_of_small (by omega) (by omega)
  have low : (0 : Int) ≤ n ∧ (n : Int) ≤ 0xffff := by omega
  simp only [setRegister, range, if_true, first, low, and_self, Int.toNat_natCast, BitField.write_read read] at stored
  cases stored
  rfl

theorem rebuilt_eq_ok (h : i.rebuilt = .ok z) : ∃ rs d j j₂ x₀ x₁ x₂ x₃ x₄, i.registers = .ok rs ∧ i.data = .ok d ∧ i.index = .ok j ∧
    i.index2 = .ok j₂ ∧ new i.opcode = .ok x₀ ∧
    (if i.opcode.format.isVariadic then x₀.setRegistersCount rs.length else .ok x₀) = .ok x₁ ∧
    rs.zipIdx.foldlM (fun (x : Instruction) (q : Int × Nat) => x.setRegister q.2 q.1) x₁ = .ok x₂ ∧
    (if i.hasData then x₂.setData d else .ok x₂) = .ok x₃ ∧ (if i.hasIndex then x₃.setIndex j else .ok x₃) = .ok x₄ ∧
    (if i.opcode.ref2.isSome then x₄.setIndex2 j₂ else .ok x₄) = .ok z := by
  obtain ⟨rs, registers, h⟩ := except_bind_eq_ok.1 h
  obtain ⟨d, data, h⟩ := except_bind_eq_ok.1 h
  obtain ⟨j, index, h⟩ := except_bind_eq_ok.1 h
  obtain ⟨j₂, index2, h⟩ := except_bind_eq_ok.1 h
  obtain ⟨x₄, operands, last⟩ := except_bind_eq_ok.1 h
  obtain ⟨x₀, new, operands⟩ := except_bind_eq_ok.1 operands
  obtain ⟨x₁, counted, operands⟩ := Action.except_ite_bind_eq_ok.1 operands
  obtain ⟨x₂, placed, operands⟩ := except_bind_eq_ok.1 operands
  obtain ⟨x₃, stored, indexed⟩ := except_bind_eq_ok.1 operands
  refine ⟨rs, d, j, j₂, x₀, x₁, x₂, x₃, x₄, registers, data, index, index2, new, counted, placed, ?_, ?_, last⟩
  · split
    · next has => rwa [if_pos has] at stored
    · next has => rwa [if_neg has] at stored
  · split
    · next has => rwa [if_pos has] at indexed
    · next has => rwa [if_neg has] at indexed

/-- `setConstant` with the constant at an index stores that index. -/
theorem setIndex_of_setConstant (same : y.opcode = x.opcode) (sound : ∀ p ∈ pool, p.Sound)
    (told : x.constant pool = .ok o) (run : (y.setConstant o).Gives pool z pool') (index : x.index = .ok j) :
    y.setIndex j = .ok z ∧ pool' = pool := by
  unfold setConstant at run
  rw [same] at run
  unfold constant at told
  cases ref : x.opcode.ref with
  | none =>
    rw [ref] at run
    exact absurd run Action.not_gives_refuse
  | some kind =>
    rw [ref, index] at told
    rw [ref] at run
    simp only [Action.gives_bind, Action.gives_lift] at run
    obtain ⟨j', _, found, stored, rfl⟩ := run
    cases told
    obtain ⟨rfl, rfl⟩ := found.unique (gives_indexFor sound kind j)
    exact ⟨stored, rfl⟩

theorem setIndex2_of_setConstant2 (same : y.opcode = x.opcode) (sound : ∀ p ∈ pool, p.Sound)
    (told : x.constant2 pool = .ok o) (run : (y.setConstant2 o).Gives pool z pool') (index : x.index2 = .ok j) :
    y.setIndex2 j = .ok z ∧ pool' = pool := by
  unfold setConstant2 at run
  rw [same] at run
  unfold constant2 at told
  cases ref : x.opcode.ref2 with
  | none =>
    rw [ref] at run
    exact absurd run Action.not_gives_refuse
  | some kind =>
    rw [ref, index] at told
    rw [ref] at run
    simp only [Action.gives_bind, Action.gives_lift] at run
    obtain ⟨j', _, found, stored, rfl⟩ := run
    cases told
    obtain ⟨rfl, rfl⟩ := found.unique (gives_indexFor sound kind j)
    exact ⟨stored, rfl⟩

theorem retuned_foldlM {vs : List (Int × Nat)}
    (h : vs.foldlM (fun (x : Instruction) (q : Int × Nat) => x.setRegister q.2 q.1) x = .ok y) : x.Retuned y := by
  induction vs generalizing x with
  | nil =>
    cases h
    exact .refl _
  | cons q vs ih =>
    obtain ⟨w, head, rest⟩ := except_bind_eq_ok.1 h
    exact (retuned_setRegister head).trans (ih rest)

/-- A canonical instruction has at most five registers in its argument list, since they could be set. -/
theorem Canonical.few (canonical : i.Canonical) : i.Few := by
  obtain ⟨z, rebuilt, -⟩ := canonical
  obtain ⟨rs, d, j, j₂, x₀, x₁, x₂, x₃, x₄, registers, -, -, -, new, counted, -⟩ := rebuilt_eq_ok rebuilt
  have same : x₀.opcode = i.opcode := by
    rw [Instruction.new] at new
    split at new
    · cases new
    · cases new
      rfl
  intro single n count
  obtain ⟨n', count', each⟩ := except_bind_eq_ok.1 registers
  obtain rfl : n = n' := Except.ok.inj (count.symm.trans count')
  have length : n = rs.length := by simpa using (Action.except_mapM_eq_ok.1 each).length_eq
  cases field : i.opcode.format.countField? with
  | none =>
    rw [registersCount, field] at count
    exact (Except.ok.inj count).ge
  | some f =>
    have variadic : i.opcode.format.isVariadic = true := by rw [Format.isVariadic_iff, field, Option.isSome_some]
    have most : i.opcode.format.maxRegisters = 5 := by
      revert variadic single
      cases i.opcode.format <;> decide
    rw [if_pos variadic, setRegistersCount, same, field] at counted
    simp only [single, Bool.false_eq_true, if_false] at counted
    split at counted
    · next fits =>
      rw [most, length]
      exact Int.ofNat_le.1 fits.2
    · cases counted

/-- An opcode that refers to another item of the code refers to no constant. -/
theorem target_entries : ∀ o ∈ Opcode.instructions, (o.is .branch || o.is .payloadRef) = true → o.ref = none ∧ o.ref2 = none := by
  decide +kernel

/-- If `i` is canonical, `y` has its units, except that the offset to a target may have to be set first. -/
def Copies (i y : Instruction) : Prop := i.Canonical →
  if i.hasTarget then ∀ d, i.data = .ok d → ∃ z, y.setData d = .ok z ∧ z.units = i.units else y.units = i.units

theorem setData_retarget {d : Int} {h : Handle} (stored : y.setData d = .ok z) :
    ({ y with target := h } : Instruction).setData d = .ok { z with target := h } := by
  have hasData : ({ y with target := h } : Instruction).hasData = y.hasData := rfl
  have width : ({ y with target := h } : Instruction).dataWidth = y.dataWidth := rfl
  have shift : ({ y with target := h } : Instruction).dataShift = y.dataShift := rfl
  unfold setData at stored ⊢
  rw [hasData, width, shift]
  dsimp only at stored ⊢
  split at stored
  · next data =>
    rw [if_pos data]
    split at stored
    · next fits =>
      rw [if_pos fits]
      obtain ⟨units, written, done⟩ := except_bind_eq_ok.1 stored
      cases done
      exact except_bind_eq_ok.2 ⟨units, written, rfl⟩
    · cases stored
  · cases stored

theorem Copies.retarget (copies : i.Copies y) (h : Handle) : i.Copies { y with target := h } := by
  intro canonical
  have here := copies canonical
  split at here
  · next has =>
    rw [if_pos has]
    intro d data
    obtain ⟨z, hz, units⟩ := here d data
    exact ⟨_, setData_retarget hz, units⟩
  · next has =>
    rw [if_neg has]
    exact here

end Instruction

namespace Sequence

open Assembly (Body Register)
open Instruction (Copies Retuned retuned_setRegistersCount retuned_setData)

section Registers

variable {e : Assembly.Instruction} {body : Body} {x y z : Instruction} {k n : Nat} {rs : List Register}

/-- Behind the first register of a range, `placeRegisters` does what `setRegister` does. -/
theorem eq_of_placeRegisters_run (range : x.opcode.format.isRange = true) (read : (Format.wholeUnit 2).read x.units = .ok n)
    (pos : 0 < k) (placed : placeRegisters e body x k rs = .ok y)
    (stored : ((rs.map body.resolve).zipIdx k).foldlM (fun (x : Instruction) (q : Int × Nat) => x.setRegister q.2 q.1) x = .ok z) : y = z := by
  induction rs generalizing k with
  | nil =>
    cases placed
    cases stored
    rfl
  | cons r rs ih =>
    have here : x.register 0 = .ok (n : Int) := by
      have := Instruction.register_of_range range read 0 (by decide)
      simpa using this
    simp only [placeRegisters, range, pos, decide_true, Bool.and_self, if_true, here] at placed
    obtain ⟨_, found, placed⟩ := except_bind_eq_ok.1 placed
    cases found
    split at placed
    · next same =>
      obtain ⟨w, head, rest⟩ := except_bind_eq_ok.1 stored
      rw [same] at head
      rw [Instruction.setRegister_self range read head] at rest
      exact ih (Nat.succ_pos k) placed rest
    · cases placed

/-- `placeRegisters` does what setting the registers one after the other does. -/
theorem eq_of_placeRegisters (hx : x.Shaped) (placed : placeRegisters e body x k rs = .ok y)
    (first : x.opcode.format.isRange = true → k = 0)
    (stored : ((rs.map body.resolve).zipIdx k).foldlM (fun (x : Instruction) (q : Int × Nat) => x.setRegister q.2 q.1) x = .ok z) : y = z := by
  induction rs generalizing k x with
  | nil =>
    cases placed
    cases stored
    rfl
  | cons r rs ih =>
    have loose : (x.opcode.format.isRange && decide (0 < k)) = false := by
      cases range : x.opcode.format.isRange with
      | false => rfl
      | true => rw [first range]; rfl
    simp only [placeRegisters, loose, Bool.false_eq_true, if_false] at placed
    obtain ⟨w, head, placed⟩ := except_bind_eq_ok.1 placed
    have head := Action.labelled_eq_ok.1 head
    obtain ⟨w', head', stored⟩ := except_bind_eq_ok.1 stored
    obtain rfl : w = w' := Except.ok.inj (head.symm.trans head')
    have retuned := Instruction.retuned_setRegister head
    cases range : x.opcode.format.isRange with
    | true =>
      obtain rfl := first range
      have hw := retuned.shaped hx
      obtain ⟨n, read⟩ := BitField.exists_read (f := Format.wholeUnit 2)
        (hw.fits.unit_lt (Format.units_of_isRange (by rw [retuned.opcode, range])))
      exact eq_of_placeRegisters_run (by rw [retuned.opcode, range]) read Nat.one_pos placed stored
    | false => exact ih (retuned.shaped hx) placed (fun range' => by rw [retuned.opcode, range] at range'; cases range') stored

end Registers

section Assembling

variable {i y : Instruction} {body body' : Body} {e : Assembly.Instruction} {pool pool' : Option Pool}

theorem gives_assembleInstruction_iff : (assembleInstruction e body).Gives pool y pool' ↔ ∃ x₀ x₁ x₂ x₃ x₄ p, Instruction.new e.opcode = .ok x₀ ∧
    (if x₀.opcode.format.isVariadic then x₀.setRegistersCount e.registers.length else .ok x₀) = .ok x₁ ∧
    placeRegisters e body x₁ 0 e.registers = .ok x₂ ∧
    (if x₂.hasData && !x₂.hasTarget then x₂.setData (literalValue e.literal (x₂.opcode.isWideRegister 0)) else .ok x₂) = .ok x₃ ∧
    (if x₃.hasIndex then x₃.setConstant e.ref else pure x₃).Gives pool x₄ p ∧
    (if x₄.opcode.ref2.isSome then x₄.setConstant2 e.ref2 else pure x₄).Gives p y pool' := by
  have lifted : ∀ {c : Prop} [Decidable c] {f : Except Stop Instruction} {x z : Instruction} {p q : Option Pool},
      (if c then (labelled e.origin.text f : Except Stop Instruction) else pure x : Action (Option Pool) Instruction).Gives p z q ↔
      (if c then f else .ok x) = .ok z ∧ p = q := by
    intro c _ f x z p q
    split
    · rw [Action.gives_lift, Action.labelled_eq_ok]
    · rw [Action.gives_pure, Except.ok.injEq]
  have within : ∀ {c : Prop} [Decidable c] {f : Action (Option Pool) Instruction} {x z : Instruction} {p q : Option Pool},
      (if c then Action.within e.origin.text f else pure x).Gives p z q ↔ (if c then f else pure x).Gives p z q := by
    intro c _ f x z p q
    split
    · exact Action.gives_within
    · rfl
  unfold assembleInstruction
  simp only [Action.gives_bind, Action.gives_ite_bind, Action.gives_lift, lifted, within]
  constructor
  · rintro ⟨x₀, _, ⟨new, rfl⟩, x₁, _, ⟨counted, rfl⟩, x₂, _, ⟨placed, rfl⟩, x₃, _, ⟨stored, rfl⟩, x₄, p, indexed, last⟩
    exact ⟨x₀, x₁, x₂, x₃, x₄, p, new, counted, placed, stored, indexed, last⟩
  · rintro ⟨x₀, x₁, x₂, x₃, x₄, p, new, counted, placed, stored, indexed, last⟩
    exact ⟨x₀, _, ⟨new, rfl⟩, x₁, _, ⟨counted, rfl⟩, x₂, _, ⟨placed, rfl⟩, x₃, _, ⟨stored, rfl⟩, x₄, p, indexed, last⟩

/-- What is assembled from the element of a well-formed instruction is the instruction again, as `Copies` says. -/
theorem copies_of_assembleInstruction (hi : i.Shaped) (sound : ∀ p ∈ pool, p.Sound) (tells : Tells pool body i e)
    (same : body'.locals = body.locals) (run : (assembleInstruction e body').Gives pool y pool') : Copies i y := by
  rintro ⟨x, rebuilt, units⟩
  obtain ⟨rs, d, j, j₂, x₀, x₁, x₂, x₃, x₄, registers, data, index, index2, new, counted, placed, stored, indexed, last⟩ :=
    Instruction.rebuilt_eq_ok rebuilt
  obtain ⟨y₀, y₁, y₂, y₃, y₄, p, new', counted', placed', stored', indexed', last'⟩ := gives_assembleInstruction_iff.1 run
  obtain ⟨rs', registers', told⟩ := tells.registers
  obtain rfl : rs = rs' := Except.ok.inj (registers.symm.trans registers')
  have length : e.registers.length = rs.length := by rw [told, List.length_map]
  have resolved : e.registers.map body'.resolve = rs := by
    rw [told, List.map_map]
    conv_rhs => rw [← List.map_id rs]
    exact List.map_congr_left fun v _ => Body.resolve_registerFor same v
  -- Both begin with the same instruction and the same registers.
  rw [tells.opcode] at new'
  obtain rfl : x₀ = y₀ := Except.ok.inj (new.symm.trans new')
  obtain rfl : x₀ = .blank i.opcode := by
    rw [Instruction.new, Opcode.isPayload_of_mem _ hi.mem] at new
    exact (Except.ok.inj new).symm
  have blank := Instruction.shaped_blank hi.mem
  rw [length] at counted'
  obtain rfl : x₁ = y₁ := Except.ok.inj (counted.symm.trans counted')
  have r₁ : Retuned (.blank i.opcode) x₁ := by
    split at counted
    · exact retuned_setRegistersCount counted
    · cases counted
      exact .refl _
  obtain rfl : y₂ = x₂ := eq_of_placeRegisters (r₁.shaped blank) placed' (fun _ => rfl) (by rw [resolved]; exact placed)
  have r₂ := r₁.trans (Instruction.retuned_foldlM placed)
  have opcode : y₂.opcode = i.opcode := r₂.opcode
  have hasData : y₂.hasData = i.hasData := by rw [Instruction.hasData, opcode, Instruction.hasData]
  have hasTarget : y₂.hasTarget = i.hasTarget := by rw [Instruction.hasTarget, opcode, Instruction.hasTarget]
  rw [hasData, hasTarget] at stored'
  cases has : i.hasTarget with
  | true =>
    obtain ⟨ref, ref2⟩ := Instruction.target_entries _ hi.mem has
    rw [has, Bool.not_true, Bool.and_false, if_neg Bool.false_ne_true] at stored'
    obtain rfl := Except.ok.inj stored'
    rw [if_neg (by rw [Instruction.hasIndex, opcode, ref]; exact Bool.false_ne_true)] at indexed'
    obtain ⟨rfl, rfl⟩ := Action.gives_pure.1 indexed'
    rw [opcode, ref2, Option.isSome_none, if_neg Bool.false_ne_true] at last'
    obtain ⟨rfl, rfl⟩ := Action.gives_pure.1 last'
    rw [if_pos (hi.hasData has)] at stored
    rw [if_neg (by rw [Instruction.hasIndex, ref]; exact Bool.false_ne_true)] at indexed
    rw [ref2, Option.isSome_none, if_neg Bool.false_ne_true] at last
    obtain rfl := Except.ok.inj indexed
    obtain rfl := Except.ok.inj last
    rw [if_pos rfl]
    intro d' data'
    obtain rfl := Except.ok.inj (data.symm.trans data')
    exact ⟨_, stored, units⟩
  | false =>
    rw [if_neg Bool.false_ne_true]
    rw [has, Bool.not_false, Bool.and_true, opcode] at stored'
    obtain ⟨rfl, opcode₃⟩ : x₃ = y₃ ∧ x₃.opcode = i.opcode := by
      split at stored
      · next hasData =>
        obtain ⟨v, data', literal⟩ := tells.literal has hasData
        obtain rfl := Except.ok.inj (data.symm.trans data')
        rw [if_pos hasData, literal, hi.literalValue_data hasData data] at stored'
        exact ⟨Except.ok.inj (stored.symm.trans stored'), (retuned_setData stored).opcode.trans opcode⟩
      · next hasData =>
        rw [if_neg hasData] at stored'
        cases stored
        exact ⟨Except.ok.inj stored', opcode⟩
    rw [show x₃.hasIndex = i.hasIndex by rw [Instruction.hasIndex, opcode₃, Instruction.hasIndex]] at indexed'
    obtain ⟨rfl, rfl, opcode₄⟩ : x₄ = y₄ ∧ p = pool ∧ x₄.opcode = i.opcode := by
      split at indexed
      · next hasIndex =>
        rw [if_pos hasIndex] at indexed'
        obtain ⟨assigned, rfl⟩ := Instruction.setIndex_of_setConstant opcode₃ sound tells.ref indexed' index
        exact ⟨Except.ok.inj (indexed.symm.trans assigned), rfl, (Instruction.retuned_setIndex indexed).opcode.trans opcode₃⟩
      · next hasIndex =>
        rw [if_neg hasIndex] at indexed'
        obtain ⟨rfl, rfl⟩ := Action.gives_pure.1 indexed'
        cases indexed
        exact ⟨rfl, rfl, opcode₃⟩
    rw [opcode₄] at last'
    rw [← units]
    split at last
    · next hasRef2 =>
      rw [if_pos hasRef2] at last'
      obtain ⟨assigned, -⟩ := Instruction.setIndex2_of_setConstant2 opcode₄ sound tells.ref2 last' index2
      rw [Except.ok.inj (last.symm.trans assigned)]
    · next hasRef2 =>
      rw [if_neg hasRef2] at last'
      obtain ⟨rfl, rfl⟩ := Action.gives_pure.1 last'
      cases last
      rfl

end Assembling

end Sequence

end Dalvik
