import Dalvik.Proofs.Independence

/-!
# Operands that carry over

`setOpcode` gives an instruction another opcode and takes over the operands that both formats have
(`Instruction.operands_carry_over`), with three exceptions. A range takes over the last register
only and counts back from it. Within one format the stored bits stay, so the literals of the two
high16 opcodes differ. And the second index is not taken over into another format.
-/

namespace Dalvik.Instruction

open Dalvik.Action (except_bind_eq_ok Each)

variable {x y z : Instruction} {op : Opcode} {rs rs' : List Int} {n m : Nat} {v : Int}

/-! ## Lists of registers -/

/-- Each register of the list is the successor of the one before it. -/
def Follow (rs : List Int) : Prop := rs.IsChain fun a b => b = a + 1

/-- Consecutive registers are determined by their number and the last one. -/
theorem Follow.eq (h : Follow rs) (h' : Follow rs') (length : rs'.length = rs.length) (last : rs'.getLast? = rs.getLast?) :
    rs' = rs := by
  induction rs generalizing rs' with
  | nil => exact List.eq_nil_of_length_eq_zero length
  | cons a rs ih =>
    cases rs' with
    | nil => cases length
    | cons b rs' =>
      have length : rs'.length = rs.length := Nat.succ.inj length
      cases rs with
      | nil =>
        obtain rfl := List.eq_nil_of_length_eq_zero length
        simpa using last
      | cons a' rs =>
        cases rs' with
        | nil => cases length
        | cons b' rs' =>
          obtain ⟨next, h⟩ := List.isChain_cons_cons.1 h
          obtain ⟨next', h'⟩ := List.isChain_cons_cons.1 h'
          have rest := ih h h' length (by simpa using last)
          rw [List.cons.injEq] at rest
          rw [rest.1, rest.2, show b = a by omega]

theorem registers_eq_ok_iff : x.registers = .ok rs ↔
    x.registersCount = .ok rs.length ∧ ∀ k (h : k < rs.length), x.register k = .ok (rs.get ⟨k, h⟩) := by
  unfold registers
  rw [except_bind_eq_ok]
  constructor
  · rintro ⟨n, count, run⟩
    have each := Action.except_mapM_eq_ok.1 run
    have length : n = rs.length := by rw [← each.length_eq, List.length_range]
    refine ⟨by rw [count, length], fun k h => ?_⟩
    have here := each.get (by rw [List.length_range]; omega) h
    simpa using here
  · rintro ⟨count, each⟩
    refine ⟨rs.length, count, Action.except_mapM_eq_ok.2 (List.forall₂_iff_get.2 ⟨List.length_range, fun k _ h => ?_⟩)⟩
    simpa using each k h

theorem Fits.exists_registers (hx : x.Fits) : ∃ rs, x.registers = .ok rs := by
  obtain ⟨n, count, -⟩ := hx.exists_registersCount
  have each : ∀ k ∈ List.range n, ∃ v, x.register (k : Nat) = .ok v := fun k hk => by
    obtain ⟨v, register, -⟩ := hx.exists_register count (List.mem_range.1 hk)
    exact ⟨v, register⟩
  obtain ⟨rs, found⟩ := List.exists_forall₂ each
  exact ⟨rs, except_bind_eq_ok.2 ⟨n, count, Action.except_mapM_eq_ok.2 found⟩⟩

/-! ## Taking over registers -/

/-- One turn of `takeRegisters` reads register `k` of `x` and stores it as register `k` of `y`. -/
theorem gives_takeRegister {k : Nat} (h : (edit fun y => do y.setRegister (k : Nat) (← x.register (k : Nat))).Gives y ⟨⟩ z) :
    ∃ v, x.register k = .ok v ∧ y.setRegister k v = .ok z :=
  except_bind_eq_ok.1 (gives_edit.1 h)

/-- What `z` holds after `m` of the registers of `x` were stored in `y`. In a range each store moves the registers
before it, so only the last one stored is known. -/
structure Took (x y : Instruction) (a m : Nat) (z : Instruction) : Prop where
  opcode : z.opcode = y.opcode
  fits : z.Fits
  registers : ∀ k, a ≤ k → k < a + m → y.opcode.format.isRange = false ∨ k + 1 = a + m → z.register k = x.register k
  others : ∀ t : Operand, (∀ k, a ≤ k → t.home y.opcode ≠ (Operand.register (k : Nat)).home y.opcode) →
    (y.opcode.format.isRange = true ∨ t.Of y.opcode) → t.get z = t.get y

theorem Fits.took (hx : x.Fits) (count : x.registersCount = .ok n) {a : Nat} (hy : y.Fits) (le : a + m ≤ n)
    (room : y.opcode.format.isRange = false → a + m ≤ y.opcode.format.maxRegisters)
    (h : Each (fun k : Nat => edit fun y => do y.setRegister (k : Nat) (← x.register (k : Nat))) (List.range' a m) y z) :
    Took x y a m z := by
  induction m generalizing a y with
  | zero =>
    cases h
    exact ⟨rfl, hy, fun k low high => absurd high (by omega), fun _ _ _ => rfl⟩
  | succ m ih =>
    rw [List.range'_succ] at h
    obtain _ | ⟨head, rest⟩ := h
    next y₁ =>
    obtain ⟨v, register, stored⟩ := gives_takeRegister head
    obtain ⟨w, register', low, high⟩ := hx.exists_register count (show a < n by omega)
    cases register.symm.trans register'
    have hy₁ : y₁.Fits := hy.of_set (s := .register a) stored
    obtain ⟨written, back⟩ := hy.stored (s := .register a) (wrap64_of_small low (by omega)) stored
    have tail := ih hy₁ (by omega) (by rw [written.opcode]; intro single; have := room single; omega) rest
    have tailOpcode := tail.opcode
    have tailRegisters := tail.registers
    have tailOthers := tail.others
    rw [written.opcode] at tailOpcode tailRegisters tailOthers
    refine ⟨tailOpcode, tail.fits, fun k lowk highk how => ?_, fun t apart of => ?_⟩
    · rcases Nat.eq_or_lt_of_le lowk with rfl | lowk
      · have kept : (Operand.register (a : Nat)).get z = (Operand.register (a : Nat)).get y₁ := by
          rcases how with single | last
          · refine tailOthers (.register a) (fun i hi => ?_) (.inr ⟨by omega, by have := room single; omega⟩)
            rw [Operand.home_of_single single, Operand.home_of_single single]
            intro e
            have : (a : Int) = i := Operand.register.inj e
            omega
          · obtain rfl : m = 0 := by omega
            cases rest
            rfl
        exact kept.trans (back.trans register.symm)
      · exact tailRegisters k lowk (by omega) (how.imp id fun last => by omega)
    · exact (tailOthers t (fun k hk => apart k (by omega)) of).trans (written.get_eq hy (apart a (Nat.le_refl a)) of)

theorem registersCount_of_get (h : Operand.count.get x = .ok n) : x.registersCount = .ok n := by
  obtain ⟨m, count, e⟩ := except_bind_eq_ok.1 h
  rw [count]
  cases e
  rfl

/-- The literal and the indices are stored in other fields than the registers and their count. -/
theorem home_ne_of_mem {t : Operand} (ht : t ∈ [Operand.literal, .index, .index2]) (op : Opcode) (i : Int) :
    t.home op ≠ (Operand.register i).home op ∧ t.home op ≠ Operand.count.home op := by
  simp only [List.mem_cons, List.not_mem_nil, or_false] at ht
  rcases ht with rfl | rfl | rfl <;> exact ⟨Operand.noConfusion, Operand.noConfusion⟩

theorem of_of_mem {t : Operand} (ht : t ∈ [Operand.literal, .index, .index2]) (op : Opcode) : t.Of op := by
  simp only [List.mem_cons, List.not_mem_nil, or_false] at ht
  rcases ht with rfl | rfl | rfl <;> exact trivial

/-- `z` is `y` with the registers of `x` and their number `n`. -/
structure TookAll (x y z : Instruction) (n : Nat) : Prop where
  opcode : z.opcode = y.opcode
  fits : z.Fits
  count : y.opcode.format.isVariadic = true → z.registersCount = .ok n
  list : y.opcode.format.isRange = false → ∀ k, k < n → k < y.opcode.format.maxRegisters → z.register (k : Nat) = x.register (k : Nat)
  room : y.opcode.format.isVariadic = true → y.opcode.format.isRange = false → n ≤ y.opcode.format.maxRegisters
  last : y.opcode.format.isRange = true → ∀ k, k + 1 = n → z.register (k : Nat) = x.register (k : Nat)
  others : ∀ t ∈ [Operand.literal, .index, .index2], t.get z = t.get y

theorem Fits.tookAll (hx : x.Fits) (count : x.registersCount = .ok n) (hy : y.Fits) (h : x.takeRegisters.Gives y ⟨⟩ z) :
    TookAll x y z n := by
  unfold takeRegisters at h
  simp only [count, Action.gives_bind, Action.gives_lift, Action.gives_get] at h
  obtain ⟨_, _, ⟨e, rfl⟩, _, _, ⟨rfl, rfl⟩, h⟩ := h
  cases e
  have first : ∀ {m z₀ z}, (x.takeFirst m).Gives z₀ ⟨⟩ z →
      Each (fun k : Nat => edit fun y => do y.setRegister (k : Nat) (← x.register (k : Nat))) (List.range' 0 m) z₀ z := by
    intro m z₀ z run
    simp only [takeFirst, Action.gives_bind, Action.gives_pure] at run
    obtain ⟨_, _, run, -, rfl⟩ := run
    rw [List.range_eq_range'] at run
    exact Action.gives_forIn.1 run
  split at h
  · next variadic =>
    obtain ⟨_, y₁, stored, run⟩ := Action.gives_bind.1 h
    have stored : Operand.count.set y n = .ok y₁ := gives_edit.1 stored
    obtain ⟨m, count', few, -⟩ := hx.exists_registersCount
    cases count.symm.trans count'
    obtain ⟨holds, written, back⟩ := hy.answers_count.stored stored
    have hy₁ := hy.of_set stored
    have room : y.opcode.format.isRange = false → n ≤ y.opcode.format.maxRegisters := by
      intro single
      rw [Operand.Holds, if_pos variadic, single] at holds
      have most := holds.2
      have five := Format.maxRegisters_of_isVariadic variadic single
      simp only [Bool.false_eq_true, if_false] at most
      omega
    have took := hx.took count hy₁ (by omega) (by rw [written.opcode, Nat.zero_add]; exact room) (first run)
    obtain ⟨opcode, fits, registers, others⟩ := took
    rw [written.opcode] at opcode registers others
    have counted : Operand.count.get z = .ok n := (others .count (fun _ _ => Operand.noConfusion) (.inr trivial)).trans back
    refine ⟨opcode, fits, fun _ => registersCount_of_get counted, fun single k lt _ => ?_, fun _ => room,
      fun _ k last => ?_, fun t ht => ?_⟩
    · exact registers k (Nat.zero_le k) (by omega) (.inl single)
    · exact registers k (Nat.zero_le k) (by omega) (.inr (by omega))
    · have apart := home_ne_of_mem ht y.opcode
      exact (others t (fun k _ => (apart _).1) (.inr (of_of_mem ht _))).trans
        (written.get_eq hy (apart 0).2 (.inr (of_of_mem ht _)))
  · next fixed =>
    have single : y.opcode.format.isRange = false := by
      rw [← Bool.not_eq_true]
      exact fun range => fixed (Format.isVariadic_of_isRange range)
    obtain ⟨opcode, fits, registers, others⟩ := hx.took count hy (by omega) (fun _ => by omega) (first h)
    refine ⟨opcode, fits, fun variadic => absurd variadic fixed, fun _ k lt room => ?_,
      fun variadic => absurd variadic fixed, fun range => ?_, fun t ht => ?_⟩
    · exact registers k (Nat.zero_le k) (by omega) (.inl single)
    · rw [single] at range
      cases range
    · exact others t (fun k _ => (home_ne_of_mem ht _ _).1) (.inr (of_of_mem ht _))

/-- `z` is `y` with the operand `s` of `x`, if both `x` and `y` have one, and with all other operands of `y`. -/
structure TookOne (s : Operand) (has : Instruction → Bool) (x y z : Instruction) : Prop where
  opcode : z.opcode = y.opcode
  fits : z.Fits
  same : has y = true → has x = true → s.get z = s.get x
  others : ∀ t : Operand, t.home y.opcode ≠ s.home y.opcode → (y.opcode.format.isRange = true ∨ t.Of y.opcode) → t.get z = t.get y

theorem Fits.tookOne {s : Operand} {has : Instruction → Bool} (hy : y.Fits) (answers : ∀ v, Answers s y v)
    (h : (if has y && has x then edit fun y => do s.set y (← s.get x) else pure ⟨⟩ : Action Instruction PUnit).Gives y ⟨⟩ z) :
    TookOne s has x y z := by
  split at h
  · obtain ⟨v, read, stored⟩ := except_bind_eq_ok.1 (gives_edit.1 h)
    obtain ⟨-, written, back⟩ := (answers v).stored stored
    exact ⟨written.opcode, hy.of_set stored, fun _ _ => back.trans read.symm, fun t ne of => written.get_eq hy ne of⟩
  · next lacks =>
    obtain ⟨-, rfl⟩ := Action.gives_pure.1 h
    refine ⟨rfl, hy, fun hasY hasX => absurd ?_ lacks, fun _ _ _ => rfl⟩
    rw [hasY, hasX]
    rfl

/-! ## What carries over -/

/-- Which operands of `x` an instruction `y` with another opcode has. -/
structure Carried (x y : Instruction) : Prop where
  /-- An argument list has all registers of `x`. -/
  list : y.opcode.format.isVariadic = true → y.opcode.format.isRange = false → y.registers = x.registers
  /-- A range has as many registers as `x` and the same last one, and all of them if those of `x` are consecutive. -/
  range : y.opcode.format.isRange = true → ∃ rs rs', x.registers = .ok rs ∧ y.registers = .ok rs' ∧ Follow rs' ∧
    rs'.length = rs.length ∧ rs'.getLast? = rs.getLast? ∧ (Follow rs → rs' = rs)
  /-- A fixed format has as many of the registers of `x` as it has room for. -/
  fixed : y.opcode.format.isVariadic = false → ∃ rs rs', x.registers = .ok rs ∧ y.registers = .ok rs' ∧
    rs'.length = y.opcode.format.maxRegisters ∧ rs'.take rs.length = rs.take rs'.length
  literal : x.hasData = true → y.hasData = true → (y.opcode.format = x.opcode.format → y.dataShift = x.dataShift) → y.data = x.data
  index : x.hasIndex = true → y.hasIndex = true → y.index = x.index
  index2 : x.opcode.ref2.isSome = true → y.opcode.ref2.isSome = true →
    y.index2 = if y.opcode.format = x.opcode.format then x.index2 else .ok 0

theorem Fits.follow_registers (hy : y.Fits) (range : y.opcode.format.isRange = true) (h : y.registers = .ok rs) : Follow rs := by
  obtain ⟨count, each⟩ := registers_eq_ok_iff.1 h
  obtain ⟨n, count', few, -⟩ := hy.exists_registersCount
  cases count.symm.trans count'
  obtain ⟨first, read⟩ := BitField.exists_read (f := Format.wholeUnit 2) (hy.unit_lt (Format.units_of_isRange range))
  have located : ∀ k (hk : k < rs.length), rs[k] = first + k := fun k hk =>
    Except.ok.inj ((each k hk).symm.trans (register_of_range range read k (by omega)))
  refine List.isChain_iff_getElem.2 fun k hk => ?_
  rw [located (k + 1) hk, located k (by omega)]
  push_cast
  omega

/-! ### Within a format -/

/-- A field above the low byte reads the same after the low byte of the first unit was replaced. -/
theorem read_retag {f : BitField} (above : f.Above) (u : UInt16) (hv : n < 256) (rest : Units) :
    f.read ((u &&& 0xff00 ||| UInt16.ofNat n) :: rest) = f.read (u :: rest) := by
  cases hunit : f.unit with
  | succ k => simp only [BitField.read, hunit, List.getElem?_cons_succ]
  | zero =>
    obtain ⟨k, hk⟩ := Nat.exists_eq_add_of_le (above hunit).1
    have top : ∀ m, m / twoPow f.shift = m / 256 / twoPow k := fun m => by
      rw [hk, twoPow_add, ← Nat.div_div_eq_div_mul]
      rfl
    have same : (u.toNat / 256 * 256 + n) / 256 = u.toNat / 256 := by omega
    simp only [BitField.read, hunit, List.getElem?_cons_zero, BitField.extract, toNat_retag u hv, top, same]

theorem above_looseField {format : Format} {k : Nat} {f : BitField} (h : looseField format k = some f) : f.Above := by
  have list : ∀ g, (if (k : Int) = 4 then (⟨0, 8, 4⟩ : BitField) else if (4 * (k : Int) % twoPow 64).toNat < 16 then
      ⟨2, (4 * (k : Int) % twoPow 64).toNat, 4⟩ else ⟨2, 0, 0⟩) = g → g.Above := by
    rintro g rfl
    split
    · decide
    · split <;> exact fun e => absurd e (Nat.succ_ne_zero 1)
  unfold looseField at h
  split at h
  · split at h
    · cases h
    · cases h
      exact fun e => absurd e (by simp only [Format.wholeUnit]; omega)
  · exact list f (Option.some.inj h)
  · exact list f (Option.some.inj h)
  · split at h
    · exact Format.above_registerFields _ _ (List.mem_of_getElem? h)
    · exact Format.above_registerFields _ _ (List.mem_of_getLast? h)

/-- Within one format all operands are carried over, since `setOpcode` only changes the low byte of the first unit. -/
theorem carried_of_format (hx : x.Fits) (hy : y.Fits) (same : y.opcode.format = x.opcode.format)
    (reads : ∀ f : BitField, f.Above → f.read y.units = f.read x.units) : Carried x y := by
  have count : y.registersCount = x.registersCount := by
    unfold registersCount
    rw [same]
    cases hf : x.opcode.format.countField? with
    | none => rfl
    | some f => exact reads f (Format.above_countField? _ f hf)
  have register : ∀ (k : Nat) v, x.register k = .ok v → y.register k = .ok v := by
    intro k v h
    unfold register at h ⊢
    dsimp only at h ⊢
    rw [same]
    split at h
    · next range => rw [if_pos range, reads _ (by decide), h]
    · next single =>
      rw [if_neg single]
      split at h
      · cases h
      · next present =>
        rw [if_neg present]
        cases hf : looseField x.opcode.format k with
        | none =>
          rw [hf] at h
          cases h
        | some f =>
          simp only [hf] at h ⊢
          rw [reads f (above_looseField hf), h]
  have registers : ∀ rs, x.registers = .ok rs → y.registers = .ok rs := by
    intro rs h
    obtain ⟨length, each⟩ := registers_eq_ok_iff.1 h
    exact registers_eq_ok_iff.2 ⟨count.trans length, fun k hk => register k _ (each k hk)⟩
  obtain ⟨rs, told⟩ := hx.exists_registers
  have told' := registers rs told
  refine ⟨fun _ _ => by rw [told, told'], fun range => ?_, fun fixed => ?_, fun has has' shift => ?_, fun has has' => ?_, fun has has' => ?_⟩
  · exact ⟨rs, rs, told, told', hy.follow_registers range told', rfl, rfl, fun _ => rfl⟩
  · obtain ⟨n, number, -, most⟩ := hy.exists_registersCount
    cases (registers_eq_ok_iff.1 told').1.symm.trans number
    exact ⟨rs, rs, told, told', most fixed, rfl⟩
  · have shift := shift same
    have width : y.dataWidth = x.dataWidth := by rw [dataWidth, dataWidth, shift, same]
    have stored : BitField.readAll x.opcode.format.literalFields y.units = BitField.readAll x.opcode.format.literalFields x.units :=
      BitField.readAll_congr fun f hf => reads f (Format.above_literalFields _ f hf)
    rw [data, data, has, has', width, shift, same, stored]
  · have stored : BitField.readAll x.opcode.format.indexFields y.units = BitField.readAll x.opcode.format.indexFields x.units :=
      BitField.readAll_congr fun f hf => reads f (Format.above_indexFields _ f hf)
    simp only [index, same]
    cases hfs : x.opcode.format.indexFields with
    | nil => rfl
    | cons f fs =>
      rw [hfs] at stored
      simp only [stored]
  · rw [if_pos same, index2, index2, has, has', reads Format.secondIndex (by decide)]

/-! ### Into another format -/

theorem index2_blank : ∀ o ∈ Opcode.instructions, o.ref2.isSome = true → (blank o).index2 = .ok 0 := by
  decide +kernel

theorem carried_of_takeOperands (hx : x.Fits) (mem : op ∈ Opcode.instructions) (other : op.format ≠ x.opcode.format)
    (h : x.takeOperands.Gives (x.bared op) ⟨⟩ y) : Carried x y := by
  have hb : (x.bared op).Fits := ⟨mem, (shaped_blank mem).length⟩
  obtain ⟨rs, told⟩ := hx.exists_registers
  obtain ⟨count, each⟩ := registers_eq_ok_iff.1 told
  unfold takeOperands at h
  obtain ⟨_, z₁, h₁, h⟩ := Action.gives_bind.1 h
  obtain ⟨_, z₂, h₂, h₃⟩ := Action.gives_bind.1 h
  obtain ⟨opcode₁, fits₁, count₁, list₁, room₁, last₁, others₁⟩ := hx.tookAll count hb h₁
  obtain ⟨_, _, e, h₂⟩ := Action.gives_bind.1 h₂
  obtain ⟨rfl, rfl⟩ := Action.gives_get.1 e
  obtain ⟨opcode₂, fits₂, literal₂, others₂⟩ : TookOne .literal hasData x z₁ z₂ := fits₁.tookOne (fun _ => fits₁.answers_literal) h₂
  obtain ⟨_, _, e, h₃⟩ := Action.gives_bind.1 h₃
  obtain ⟨rfl, rfl⟩ := Action.gives_get.1 e
  obtain ⟨opcode₃, fits, index₃, others₃⟩ : TookOne .index hasIndex x z₂ y := fits₂.tookOne (fun _ => fits₂.answers_index) h₃
  have opcode₁ : z₁.opcode = op := opcode₁
  have opcode₂ : z₂.opcode = op := opcode₂.trans opcode₁
  have opcode : y.opcode = op := opcode₃.trans opcode₂
  rw [opcode₁] at others₂
  rw [opcode₂] at others₃
  -- The literal and the index do not touch what was taken over before.
  have kept : ∀ t : Operand, t.home op ≠ .literal → t.home op ≠ .index → (op.format.isRange = true ∨ t.Of op) → t.get y = t.get z₁ :=
    fun t literal index of => (others₃ t index of).trans (others₂ t literal of)
  have register : ∀ k : Nat, op.format.isRange = true ∨ k < op.format.maxRegisters → y.register k = z₁.register k := fun k of =>
    kept (.register k) Operand.noConfusion Operand.noConfusion (of.imp id fun lt => ⟨by omega, by omega⟩)
  have number : op.format.isVariadic = true → y.registersCount = .ok rs.length := by
    intro variadic
    have counted : Operand.count.get z₁ = .ok (rs.length : Nat) := by
      rw [Operand.get, count₁ variadic]
      rfl
    exact registersCount_of_get ((kept .count Operand.noConfusion Operand.noConfusion (.inr trivial)).trans counted)
  refine ⟨fun variadic single => ?_, fun range => ?_, fun fixed => ?_, fun has has' _ => ?_, fun has has' => ?_, fun has has' => ?_⟩
  · rw [opcode] at variadic single
    rw [told, registers_eq_ok_iff]
    refine ⟨number variadic, fun k hk => ?_⟩
    have lt : k < op.format.maxRegisters := Nat.lt_of_lt_of_le hk (room₁ variadic single)
    rw [register k (.inr lt), list₁ single k hk lt, each k hk]
  · obtain ⟨rs', told'⟩ := fits.exists_registers
    obtain ⟨count', each'⟩ := registers_eq_ok_iff.1 told'
    have follow := fits.follow_registers range told'
    rw [opcode] at range
    have length : rs'.length = rs.length := Except.ok.inj (count'.symm.trans (number (Format.isVariadic_of_isRange range)))
    have last : rs'.getLast? = rs.getLast? := by
      rw [List.getLast?_eq_getElem?, List.getLast?_eq_getElem?, length]
      cases hn : rs.length with
      | zero => rw [List.getElem?_eq_none (by omega), List.getElem?_eq_none (by omega)]
      | succ k =>
        have told := each k (by omega)
        have told' := each' k (by omega)
        rw [register k (.inl range), last₁ range k hn.symm, told] at told'
        rw [Nat.add_sub_cancel, List.getElem?_eq_getElem (by omega), List.getElem?_eq_getElem (by omega)]
        exact congrArg some (Except.ok.inj told').symm
    exact ⟨rs, rs', told, told', follow, length, last, fun hrs => hrs.eq follow length last⟩
  · obtain ⟨rs', told'⟩ := fits.exists_registers
    obtain ⟨count', each'⟩ := registers_eq_ok_iff.1 told'
    obtain ⟨n, number, -, most⟩ := fits.exists_registersCount
    cases count'.symm.trans number
    have most := most fixed
    refine ⟨rs, rs', told, told', most, ?_⟩
    rw [opcode] at fixed most
    have single : op.format.isRange = false := by
      rw [← Bool.not_eq_true]
      exact fun range => absurd (Format.isVariadic_of_isRange range) (by rw [fixed]; exact Bool.false_ne_true)
    refine List.ext_getElem (by rw [List.length_take, List.length_take, Nat.min_comm]) fun k hk _ => ?_
    rw [List.length_take] at hk
    have lt : k < op.format.maxRegisters := by omega
    have told := each k (by omega)
    have told' := each' k (by omega)
    rw [register k (.inr lt), list₁ single k (by omega) lt, told] at told'
    rw [List.getElem_take, List.getElem_take]
    exact (Except.ok.inj told').symm
  · have moved := literal₂ (by rw [← has', hasData_of_opcode (opcode₁.trans opcode.symm)]) has
    exact (others₃ .literal Operand.noConfusion (.inr trivial)).trans moved
  · exact index₃ (by rw [← has', hasIndex, hasIndex, opcode, opcode₂]) has
  · rw [opcode] at has' ⊢
    rw [if_neg other]
    have bare : (x.bared op).index2 = .ok 0 := index2_blank op mem has'
    exact ((kept .index2 Operand.noConfusion Operand.noConfusion (.inr trivial)).trans
      (others₁ .index2 (by decide))).trans bare

/-- A successful `setOpcode` carries the operands over as `Carried` says, for every well-formed instruction and every
opcode. -/
theorem operands_carry_over (hx : x.Fits) (mem : op ∈ Opcode.all) (h : x.setOpcode op = .ok y) : Carried x y := by
  obtain ⟨payload, h⟩ := gives_changeOpcode.1 (setOpcode_eq_ok_iff.1 h)
  have member := Opcode.mem_instructions mem payload
  rcases h with ⟨same, u, rest, e, rfl⟩ | ⟨other, run⟩
  · have length := hx.length
    rw [e] at length
    refine carried_of_format hx ⟨member, by simpa [same] using length⟩ same fun f above => ?_
    rw [e]
    exact read_retag above u (Opcode.value_lt_of_mem op member) rest
  · exact carried_of_takeOperands hx member other run

/-- An `invoke` of method 7 with the registers 1, 2 and 3. -/
def call : Instruction :=
  { opcode := (Opcode.ofValue? 0x6e).getD .nop
    units := [0x306e, 7, 0x0321] }

/-- `call` becomes a range call of method 7 with the registers 1, 2 and 3. -/
theorem operands_carry_over_call : ∃ op y, call.setOpcode op = .ok y ∧ y.opcode.format = .f3rc ∧
    y.registers = .ok [1, 2, 3] ∧ y.index = .ok 7 := by
  let op := (Opcode.ofValue? 0x74).getD .nop
  have stored : call.setOpcode op = .ok { opcode := op, units := [0x0374, 7, 1] } := Action.eq_ok_of_toOption (by decide +kernel)
  have fits : call.Fits := ⟨by decide +kernel, by decide +kernel⟩
  have carried := operands_carry_over fits (by decide +kernel) stored
  obtain ⟨rs, rs', told, told', -, -, -, same⟩ := carried.range (by decide +kernel)
  have before : call.registers = .ok [1, 2, 3] := by decide +kernel
  cases told.symm.trans before
  have follow : Follow [1, 2, 3] := by unfold Follow; decide
  refine ⟨op, _, stored, by decide +kernel, by rw [told', same follow], ?_⟩
  rw [carried.index (by decide +kernel) (by decide +kernel)]
  decide +kernel

/-- The registers 0 and 5 are not consecutive. As a range they become 4 and 5. -/
example : (({ call with units := [0x206e, 7, 0x50] }.setOpcode ((Opcode.ofValue? 0x74).getD .nop)).bind registers).toOption =
    some [4, 5] := by
  decide +kernel

end Dalvik.Instruction
