import Dalvik.Code.Operand
import Mathlib.Data.Nat.ModEq
import Mathlib.Tactic.Ring

/-!
# Reading and writing operand fields

`BitField.read` of a field that was written gives the low bits of what was written
(`read_of_write`), and writing what is there changes nothing (`write_read`). Both carry over to
numbers that are spread over several fields (`readAll_of_writeAll`, `writeAll_of_readAll`). A field
of the first unit lies above the opcode byte, so writing it keeps that byte (`lowByte_of_write`).
-/

namespace Dalvik

theorem twoPow_eq (n : Nat) : twoPow n = 2 ^ n := rfl

theorem twoPow_pos (n : Nat) : 0 < twoPow n := Nat.two_pow_pos n

theorem twoPow_add (m n : Nat) : twoPow (m + n) = twoPow m * twoPow n := Nat.pow_add 2 m n

namespace BitField

variable {f : BitField} {fs : List BitField} {units written : Units}

/-! ## One field -/

/-- A unit is put together from the bits below the field, the field, and the bits above it. -/
theorem split_unit (f : BitField) (u : Nat) :
    u = u % twoPow f.shift + twoPow f.shift * (u / twoPow f.shift % twoPow f.width) +
      twoPow f.shift * twoPow f.width * (u / twoPow f.shift / twoPow f.width) := by
  have low := Nat.mod_add_div u (twoPow f.shift)
  have high := Nat.mod_add_div (u / twoPow f.shift) (twoPow f.width)
  calc u = u % twoPow f.shift + twoPow f.shift * (u / twoPow f.shift) := low.symm
    _ = _ := by rw [← high, Nat.mul_add, ← Nat.add_assoc, Nat.mul_assoc]; simp [high]

theorem extract_mul_le (f : BitField) (u : UInt16) : f.extract u * twoPow f.shift ≤ u.toNat := by
  have h := f.split_unit u.toNat
  rw [extract, Nat.mul_comm]
  omega

/-- The unit without the bits of the field. -/
theorem clear_eq (f : BitField) (u : UInt16) :
    u.toNat - f.extract u * twoPow f.shift =
      u.toNat % twoPow f.shift +
        twoPow f.shift * twoPow f.width * (u.toNat / twoPow f.shift / twoPow f.width) := by
  have h := f.split_unit u.toNat
  rw [extract, Nat.mul_comm]
  omega

theorem insert_lt (hf : f.shift + f.width ≤ 16) (v : Nat) (u : UInt16) :
    u.toNat - f.extract u * twoPow f.shift + v % twoPow f.width * twoPow f.shift < 65536 := by
  have range : twoPow f.shift * twoPow f.width ∣ 65536 := by
    rw [← twoPow_add]
    exact pow_dvd_pow 2 hf
  obtain ⟨k, hk⟩ := range
  have low := Nat.mod_lt u.toNat (twoPow_pos f.shift)
  have mid := Nat.mod_lt v (twoPow_pos f.width)
  have high : u.toNat / twoPow f.shift / twoPow f.width < k := by
    rw [Nat.div_div_eq_div_mul]
    apply Nat.div_lt_of_lt_mul
    rw [← hk]
    exact u.toNat_lt
  rw [clear_eq, hk]
  generalize u.toNat / twoPow f.shift / twoPow f.width = q at high
  generalize twoPow f.shift = p at low ⊢
  generalize twoPow f.width = w at mid ⊢
  have h₁ : v % w * p + p ≤ p * w := by
    calc v % w * p + p = (v % w + 1) * p := by ring
      _ ≤ w * p := Nat.mul_le_mul_right p mid
      _ = p * w := Nat.mul_comm w p
  have h₂ : p * w * q + p * w ≤ p * w * k := by
    calc p * w * q + p * w = p * w * (q + 1) := by ring
      _ ≤ p * w * k := Nat.mul_le_mul_left _ high
  omega

theorem toNat_insert (hf : f.shift + f.width ≤ 16) (v : Nat) (u : UInt16) :
    (f.insert v u).toNat =
      u.toNat - f.extract u * twoPow f.shift + v % twoPow f.width * twoPow f.shift := by
  rw [insert, UInt16.toNat_ofNat']
  exact Nat.mod_eq_of_lt (insert_lt hf v u)

theorem extract_insert (hf : f.shift + f.width ≤ 16) (v : Nat) (u : UInt16) :
    f.extract (f.insert v u) = v % twoPow f.width := by
  rw [extract, toNat_insert hf, clear_eq]
  have low := Nat.mod_lt u.toNat (twoPow_pos f.shift)
  generalize u.toNat / twoPow f.shift / twoPow f.width = q
  generalize u.toNat % twoPow f.shift = r at low ⊢
  have shape : r + twoPow f.shift * twoPow f.width * q + v % twoPow f.width * twoPow f.shift =
      r + twoPow f.shift * (twoPow f.width * q + v % twoPow f.width) := by ring
  rw [shape, Nat.add_mul_div_left _ _ (twoPow_pos f.shift), Nat.div_eq_of_lt low, Nat.zero_add,
    Nat.mul_add_mod, Nat.mod_mod]

theorem insert_extract (f : BitField) (u : UInt16) : f.insert (f.extract u) u = u := by
  have same : f.extract u % twoPow f.width = f.extract u := Nat.mod_mod _ _
  have whole := extract_mul_le f u
  rw [insert, same, Nat.sub_add_cancel whole]
  exact UInt16.ofNat_toNat

/-- Inserting into a field above the low byte keeps the low byte. -/
theorem insert_mod (hf : f.shift + f.width ≤ 16) (high : 8 ≤ f.shift) (v : Nat) (u : UInt16) :
    (f.insert v u).toNat % 256 = u.toNat % 256 := by
  obtain ⟨k, hk⟩ : 256 ∣ twoPow f.shift := pow_dvd_pow 2 high
  have whole := extract_mul_le f u
  rw [toNat_insert hf]
  generalize f.extract u = e at whole ⊢
  generalize v % twoPow f.width = w
  rw [hk] at whole ⊢
  have h₁ : e * (256 * k) = 256 * (e * k) := by ring
  have h₂ : w * (256 * k) = 256 * (w * k) := by ring
  omega

theorem read_of_write {v : Nat} (hf : f.shift + f.width ≤ 16) (h : f.write v units = .ok written) :
    f.read written = .ok (v % twoPow f.width) := by
  unfold write at h
  split at h
  · next u hu =>
    cases h
    have hlt := (List.getElem?_eq_some_iff.1 hu).1
    simp [read, hlt, extract_insert hf]
  · cases h

theorem read_of_write_ne {v : Nat} {g : BitField} (hne : f.unit ≠ g.unit)
    (h : f.write v units = .ok written) : g.read written = g.read units := by
  unfold write at h
  split at h
  · cases h
    simp [read, hne]
  · cases h

theorem read_lt {v : Nat} (h : f.read units = .ok v) : v < twoPow f.width := by
  unfold read at h
  split at h
  · cases h
    exact Nat.mod_lt _ (twoPow_pos _)
  · cases h

theorem write_read {v : Nat} (h : f.read units = .ok v) : f.write v units = .ok units := by
  unfold read at h
  unfold write
  split at h
  · next u hu =>
    cases h
    obtain ⟨hlt, hget⟩ := List.getElem?_eq_some_iff.1 hu
    simp only [insert_extract]
    rw [← hget, List.set_getElem_self]
  · cases h

theorem length_of_write {v : Nat} (h : f.write v units = .ok written) : written.length = units.length := by
  unfold write at h
  split at h
  · cases h
    simp
  · cases h

/-- The low byte of the first unit, which holds the opcode. -/
def lowByte (units : Units) : Option Nat := units.head?.map fun u => u.toNat % 256

/-- If the field is in the first unit, it begins at bit 8 or above. -/
def Above (f : BitField) : Prop := f.unit = 0 → 8 ≤ f.shift ∧ f.shift + f.width ≤ 16

instance (f : BitField) : Decidable f.Above := inferInstanceAs (Decidable (_ → _))

theorem lowByte_of_write {v : Nat} (hf : f.Above) (h : f.write v units = .ok written) :
    lowByte written = lowByte units := by
  unfold write at h
  split at h
  · next u hu =>
    cases h
    cases units with
    | nil => rfl
    | cons w rest =>
      cases hunit : f.unit with
      | zero =>
        obtain ⟨high, inside⟩ := hf hunit
        obtain rfl : w = u := by simpa [hunit] using hu
        simp [lowByte, insert_mod inside high]
      | succ k => simp [lowByte]
  · cases h

/-! ## Several fields -/

theorem writeAll_cons {v : Nat} :
    writeAll (f :: fs) v units = .ok written ↔
      ∃ mid, f.write v units = .ok mid ∧ writeAll fs (v / twoPow f.width) mid = .ok written := by
  simp only [writeAll, bind, Except.bind]
  cases f.write v units <;> simp

theorem readAll_cons {v : Nat} :
    readAll (f :: fs) units = .ok v ↔
      ∃ low high, f.read units = .ok low ∧ readAll fs units = .ok high ∧ low + twoPow f.width * high = v := by
  simp only [readAll, bind, Except.bind, pure, Except.pure]
  cases f.read units <;> cases readAll fs units <;> simp

theorem length_of_writeAll {v : Nat} (h : writeAll fs v units = .ok written) :
    written.length = units.length := by
  induction fs generalizing v units with
  | nil =>
    cases h
    rfl
  | cons f fs ih =>
    obtain ⟨mid, hf, hfs⟩ := writeAll_cons.1 h
    rw [ih hfs, length_of_write hf]

theorem lowByte_of_writeAll {v : Nat} (hfs : ∀ f ∈ fs, f.Above) (h : writeAll fs v units = .ok written) :
    lowByte written = lowByte units := by
  induction fs generalizing v units with
  | nil =>
    cases h
    rfl
  | cons f fs ih =>
    obtain ⟨mid, hf, hrest⟩ := writeAll_cons.1 h
    rw [ih (fun g hg => hfs g (List.mem_cons_of_mem _ hg)) hrest, lowByte_of_write (hfs f List.mem_cons_self) hf]

theorem read_of_writeAll_ne {v : Nat} {g : BitField} (hne : ∀ f ∈ fs, f.unit ≠ g.unit)
    (h : writeAll fs v units = .ok written) : g.read written = g.read units := by
  induction fs generalizing v units with
  | nil =>
    cases h
    rfl
  | cons f fs ih =>
    obtain ⟨mid, hf, hfs⟩ := writeAll_cons.1 h
    rw [ih (fun g hg => hne g (List.mem_cons_of_mem _ hg)) hfs,
      read_of_write_ne (hne f List.mem_cons_self) hf]

theorem totalWidth_cons : totalWidth (f :: fs) = f.width + totalWidth fs := rfl

/-- A number written over fields in different units reads back, up to the width of all fields. -/
theorem readAll_of_writeAll {v : Nat} (inside : ∀ f ∈ fs, f.shift + f.width ≤ 16)
    (apart : fs.Pairwise fun f g => f.unit ≠ g.unit) (h : writeAll fs v units = .ok written) :
    readAll fs written = .ok (v % twoPow (totalWidth fs)) := by
  induction fs generalizing v units with
  | nil =>
    simp only [readAll, totalWidth, List.map_nil, total]
    rw [show twoPow 0 = 1 from rfl, Nat.mod_one]
  | cons f fs ih =>
    obtain ⟨mid, hf, hfs⟩ := writeAll_cons.1 h
    obtain ⟨hne, apart⟩ := List.pairwise_cons.1 apart
    have low : f.read written = .ok (v % twoPow f.width) := by
      rw [read_of_writeAll_ne (fun g hg => (hne g hg).symm) hfs]
      exact read_of_write (inside f List.mem_cons_self) hf
    have high := ih (fun g hg => inside g (List.mem_cons_of_mem _ hg)) apart hfs
    refine readAll_cons.2 ⟨_, _, low, high, ?_⟩
    rw [totalWidth_cons, twoPow_add]
    exact Nat.mod_mul.symm

theorem writeAll_of_readAll {v : Nat} (h : readAll fs units = .ok v) : writeAll fs v units = .ok units := by
  induction fs generalizing v with
  | nil => rfl
  | cons f fs ih =>
    obtain ⟨low, high, hf, hfs, rfl⟩ := readAll_cons.1 h
    have small := read_lt hf
    have div : (low + twoPow f.width * high) / twoPow f.width = high := by
      rw [Nat.add_mul_div_left _ _ (twoPow_pos _), Nat.div_eq_of_lt small, Nat.zero_add]
    have write : f.write (low + twoPow f.width * high) units = .ok units := by
      have same : f.write (low + twoPow f.width * high) units = f.write low units := by
        simp only [BitField.write, insert, Nat.add_mul_mod_self_left]
      rw [same]
      exact write_read hf
    exact writeAll_cons.2 ⟨units, write, by rw [div]; exact ih hfs⟩

theorem readAll_lt {v : Nat} (h : readAll fs units = .ok v) : v < twoPow (totalWidth fs) := by
  induction fs generalizing v with
  | nil =>
    cases h
    decide
  | cons f fs ih =>
    obtain ⟨low, high, hf, hfs, rfl⟩ := readAll_cons.1 h
    have small := read_lt hf
    have := ih hfs
    rw [totalWidth_cons, twoPow_add]
    calc low + twoPow f.width * high < twoPow f.width * (high + 1) := by rw [Nat.mul_succ]; omega
      _ ≤ twoPow f.width * twoPow (totalWidth fs) := Nat.mul_le_mul_left _ this

end BitField

end Dalvik
