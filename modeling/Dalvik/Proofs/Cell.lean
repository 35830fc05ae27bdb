import Dalvik.Cell
import Mathlib.Algebra.Group.Int.Defs
import Mathlib.Algebra.Group.Nat.Defs

/-!
# Numbers in cells

A cell that is set to a number holds it exactly if the number is at most its `capacity`
(`Cell.get_set_iff`).
-/

namespace Dalvik

theorem toInt32_ofInt (v : Int) : (UInt32.ofInt v).toInt32 = Int32.ofInt v := by
  rw [← Int32.toBitVec_inj]
  refine BitVec.eq_of_toNat_eq ?_
  simp only [UInt32.ofInt, UInt32.toBitVec_toInt32, UInt32.toBitVec_ofNat', Int32.toBitVec_ofInt, BitVec.toNat_ofNat,
    BitVec.toNat_ofInt]
  omega

theorem signed32_ofInt {v : Int} (low : -2 ^ 31 ≤ v) (high : v < 2 ^ 31) : signed32 (UInt32.ofInt v) = v := by
  rw [signed32, toInt32_ofInt, Int32.toInt_ofInt_of_le low high]

theorem ofInt_signed32 (v : UInt32) : UInt32.ofInt (signed32 v) = v := by
  rw [← UInt32.toUInt32_toInt32 (UInt32.ofInt _), toInt32_ofInt, signed32, Int32.ofInt_toInt, UInt32.toUInt32_toInt32]

theorem toNat_ofInt {n : Nat} (h : n < 2 ^ 32) : (UInt32.ofInt n).toNat = n := by
  simp only [UInt32.ofInt, UInt32.toNat_ofNat']
  omega

theorem ofInt_toNat (v : UInt32) : UInt32.ofInt v.toNat = v := by
  rw [← UInt32.toNat_inj, toNat_ofInt v.toNat_lt]

theorem ofInt_toNat16 (v : UInt16) : UInt16.ofInt v.toNat = v := by
  rw [← UInt16.toNat_inj, UInt16.ofInt, UInt16.toNat_ofNat']
  have := v.toNat_lt
  omega

theorem Uleb.set_get (u : Uleb) : u.set u.get = u := by
  rw [Uleb.set, Uleb.get, ofInt_toNat, Uleb.setValue, if_pos rfl]

theorem Sleb.set_get (s : Sleb) : s.set s.get = s := by
  rw [Sleb.set, Sleb.get, Int32.ofInt_toInt, if_pos rfl]

theorem Uleb.get_set {u : Uleb} {n : Nat} (h : n < 2 ^ 32) : (u.set n).get = n := by
  have stored : (UInt32.ofInt n).toNat = n := toNat_ofInt h
  simp only [get, set, setValue]
  split
  · next same => rw [← same, stored]
  · rw [stored]

theorem Uleb.set_set (u : Uleb) (v : Int) : (u.set v).set v = u.set v := by
  have stored : (u.set v).value = UInt32.ofInt v := by
    simp only [set, setValue]
    split
    · next same => exact same.symm
    · rfl
  rw [set, setValue, if_pos stored.symm]

theorem Sleb.set_set (s : Sleb) (v : Int) : (s.set v).set v = s.set v := by
  have stored : (s.set v).value = Int32.ofInt v := by
    simp only [set]
    split
    · next same => exact same.symm
    · rfl
  rw [set, if_pos stored.symm]

theorem Sleb.get_set {s : Sleb} {v : Int} (low : -2 ^ 31 ≤ v) (high : v < 2 ^ 31) : (s.set v).get = v := by
  have stored : (Int32.ofInt v).toInt = v := Int32.toInt_ofInt_of_le low high
  simp only [get, set]
  split
  · next same => rw [← same, stored]
  · exact stored

namespace Cell

/-- The largest number that `get` can return for a cell of this type. -/
def capacity : Cell → Nat
  | .byte _ => 2 ^ 8 - 1
  | .short _ => 2 ^ 16 - 1
  | .int _ => 2 ^ 31 - 1
  | .uleb _ => 2 ^ 32 - 1
  | .sleb _ => 2 ^ 31 - 1

theorem get_set {c : Cell} {n : Nat} (h : n ≤ c.capacity) : (c.set n).get = n := by
  cases c with
  | byte v =>
    simp only [capacity] at h
    simp only [set, get, UInt8.ofInt, UInt8.toNat_ofNat']
    omega
  | short v =>
    simp only [capacity] at h
    simp only [set, get, UInt16.ofInt, UInt16.toNat_ofNat']
    omega
  | int v =>
    simp only [capacity] at h
    exact signed32_ofInt (by omega) (by omega)
  | uleb v =>
    simp only [capacity] at h
    exact Uleb.get_set (by omega)
  | sleb v =>
    simp only [capacity] at h
    exact Sleb.get_set (by omega) (by omega)

theorem get_le_capacity (c : Cell) : c.get ≤ c.capacity := by
  cases c with
  | byte v =>
    have := v.toNat_lt
    simp only [get, capacity]
    omega
  | short v =>
    have := v.toNat_lt
    simp only [get, capacity]
    omega
  | int v =>
    have := v.toInt32.toInt_lt
    simp only [get, capacity, signed32]
    omega
  | uleb v =>
    have := v.value.toNat_lt
    simp only [get, capacity, Uleb.get]
    omega
  | sleb v =>
    have := v.value.toInt_lt
    simp only [get, capacity, Sleb.get]
    omega

theorem capacity_set (c : Cell) (v : Int) : (c.set v).capacity = c.capacity := by
  cases c <;> rfl

/-- A cell that was set to `n` holds `n` exactly if `n` is at most its `capacity`. -/
theorem get_set_iff {c : Cell} {n : Nat} : (c.set n).get = n ↔ n ≤ c.capacity := by
  refine ⟨fun same => ?_, get_set⟩
  have le := (c.set n).get_le_capacity
  rw [same, capacity_set] at le
  omega

/-- An unsigned 32-bit cell that was set to `n < 2 ^ 32` holds `n`. -/
theorem unsigned?_set {c : Cell} {n k : Nat} (h : n < 2 ^ 32) (unsigned : (c.set n).unsigned? = some k) : k = n := by
  cases c with
  | int v =>
    cases unsigned
    exact toNat_ofInt h
  | uleb v =>
    cases unsigned
    have stored : (v.set n).get = n := Uleb.get_set h
    exact Int.ofNat.inj stored
  | byte v => cases unsigned
  | short v => cases unsigned
  | sleb v => cases unsigned

/-- Setting a cell to the number it holds changes nothing. A LEB128 cell keeps the bytes it was read from. -/
theorem set_get (c : Cell) : c.set c.get = c := by
  cases c with
  | byte v =>
    have stored : UInt8.ofInt v.toNat = v := by
      rw [← UInt8.toNat_inj, UInt8.ofInt, UInt8.toNat_ofNat']
      have := v.toNat_lt
      omega
    rw [set, get, stored]
  | short v => rw [set, get, ofInt_toNat16]
  | int v => rw [set, get, ofInt_signed32]
  | uleb v => rw [set, get, v.set_get]
  | sleb v => rw [set, get, v.set_get]

/-- Setting a cell to the same number twice is setting it once, also for a number that does not fit. -/
theorem set_set (c : Cell) (v : Int) : (c.set v).set v = c.set v := by
  cases c with
  | uleb u => simp only [set, u.set_set]
  | sleb u => simp only [set, u.set_set]
  | _ => rfl

end Cell

end Dalvik
