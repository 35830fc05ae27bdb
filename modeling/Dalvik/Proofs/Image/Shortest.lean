import Dalvik.Image.Value
import Dalvik.Proofs.Cursor
import Mathlib.Tactic.Linarith

/-!
# Shortest numbers

The payload of an encoded value leaves out the bytes that decoding fills in again. For each of the
three ways of filling in, the payload decodes to the number, and no payload with fewer bytes does
(`shortest_unsignedBytes`, `shortest_signedBytes`, `shortest_rightZeroBytes`).
-/

namespace Dalvik

theorem littleEndian_append (a b : Bytes) : littleEndian (a ++ b) = littleEndian a + 256 ^ a.length * littleEndian b := by
  induction a with
  | nil => simp [littleEndian]
  | cons x a ih =>
    rw [List.cons_append, littleEndian, littleEndian, ih, List.length_cons, Nat.pow_succ]
    ring

theorem littleEndian_concat (a : Bytes) (x : UInt8) : littleEndian (a ++ [x]) = littleEndian a + 256 ^ a.length * x.toNat := by
  rw [littleEndian_append]
  simp [littleEndian]

theorem twoPow_eight_mul (l : Nat) : twoPow (8 * l) = 256 ^ l := by
  rw [twoPow, Nat.pow_eq, Nat.pow_mul]

namespace Value

/-- `shorten` keeps what removing a redundant byte keeps, and leaves no redundant byte at the end. -/
theorem shorten_spec (redundant : UInt8 → UInt8 → Bool) (P : List UInt8 → Prop)
    (step : ∀ top next rest, redundant top next → P (top :: next :: rest) → P (next :: rest)) {s : List UInt8} (hs : s ≠ [])
    (h : P s) :
    shorten redundant s ≠ [] ∧ P (shorten redundant s) ∧
      ∀ top next rest, shorten redundant s = top :: next :: rest → redundant top next = false := by
  induction s using shorten.induct redundant with
  | case1 top next rest drop ih =>
    rw [shorten, if_pos drop]
    exact ih (List.cons_ne_nil _ _) (step top next rest drop h)
  | case2 top next rest keep =>
    rw [shorten, if_neg keep]
    refine ⟨hs, h, fun a b r e => ?_⟩
    cases e
    simpa using keep
  | case3 s short =>
    rw [shorten]
    · exact ⟨hs, h, fun a b r e => (short a b r e).elim⟩
    · exact short

/-- `value data = x`, and no fewer bytes have this value. -/
structure Shortest {α : Type} (value : Bytes → α) (x : α) (data : Bytes) : Prop where
  reads : value data = x
  nonempty : data ≠ []
  least : ∀ other, other ≠ [] → value other = x → data.length ≤ other.length

/-! ## High zeros -/

theorem unsignedBytes_spec {n : Nat} (hn : n < 256 ^ 8) :
    littleEndian (unsignedBytes n) = n ∧ unsignedBytes n ≠ [] ∧
      ∀ l, 1 ≤ l → n < 256 ^ l → (unsignedBytes n).length ≤ l := by
  have start : littleEndian ((toLittleEndian 8 n).reverse).reverse = n := by
    rw [List.reverse_reverse, littleEndian_toLittleEndian, Nat.mod_eq_of_lt hn]
  have some : (toLittleEndian 8 n).reverse ≠ [] := by
    intro empty
    have := congrArg List.length empty
    rw [List.length_reverse, length_toLittleEndian] at this
    cases this
  obtain ⟨nonempty, reads, kept⟩ := shorten_spec (fun top _ => top = 0)
    (fun s => littleEndian s.reverse = n) (fun top next rest zero same => by
      have : top = 0 := by simpa using zero
      rw [List.reverse_cons, littleEndian_concat, this] at same
      simpa using same) some start
  refine ⟨reads, by simpa [unsignedBytes] using nonempty, fun l hl small => ?_⟩
  rw [unsignedBytes, List.length_reverse]
  rcases left : shorten (fun top _ => decide (top = 0)) (toLittleEndian 8 n).reverse with _ | ⟨top, _ | ⟨next, rest⟩⟩
  · exact Nat.zero_le l
  · exact hl
  · rw [left] at reads
    have positive : 0 < top.toNat := by
      have := kept top next rest left
      simp only [decide_eq_false_iff_not] at this
      exact Nat.pos_of_ne_zero fun zero => this (UInt8.toNat_inj.1 zero)
    rw [List.reverse_cons, littleEndian_concat, List.length_reverse] at reads
    by_contra long
    have le : 256 ^ l ≤ 256 ^ (next :: rest).length := Nat.pow_le_pow_right (by decide) (by simp at long ⊢; omega)
    have := Nat.le_mul_of_pos_right (256 ^ (next :: rest).length) positive
    omega

theorem shortest_unsignedBytes {n : Nat} (hn : n < 256 ^ 8) : Shortest littleEndian n (unsignedBytes n) := by
  obtain ⟨reads, nonempty, least⟩ := unsignedBytes_spec hn
  refine ⟨reads, nonempty, fun other some same => least _ (List.length_pos_iff.2 some) ?_⟩
  rw [← same]
  exact littleEndian_lt other

/-! ## High sign bytes -/

/-- The signed number that bytes stand for. -/
def extended (data : Bytes) : Int := Literal.signExtend (8 * data.length) (littleEndian data)

/-- `n` is a signed number of `l` bytes. -/
def Fits (l : Nat) (n : Int) : Prop := -(256 ^ l : Int) ≤ 2 * n ∧ 2 * n < 256 ^ l

theorem Fits.mono {l m : Nat} {n : Int} (h : Fits l n) (le : l ≤ m) : Fits m n := by
  have : (256 ^ l : Int) ≤ 256 ^ m := by exact_mod_cast Nat.pow_le_pow_right (by decide) le
  obtain ⟨low, high⟩ := h
  exact ⟨by omega, by omega⟩

theorem fits_signExtend (l : Nat) (n : Int) : Fits l (Literal.signExtend (8 * l) n) := by
  rw [Literal.signExtend, twoPow_eight_mul]
  have pos : 0 < 256 ^ l := Nat.pow_pos (by decide)
  have low := Int.le_bmod (x := n) pos
  have high := Int.bmod_lt (x := n) pos
  have half : ((256 ^ l : Nat) : Int) = 256 ^ l := by exact_mod_cast rfl
  rw [half] at low high
  exact ⟨by omega, by omega⟩

theorem signExtend_of_fits {l : Nat} {n : Int} (h : Fits l n) : Literal.signExtend (8 * l) n = n := by
  rw [Literal.signExtend, twoPow_eight_mul]
  have half : ((256 ^ l : Nat) : Int) = 256 ^ l := by exact_mod_cast rfl
  obtain ⟨low, high⟩ := h
  exact Int.bmod_eq_of_le (by rw [half]; omega) (by rw [half]; omega)

theorem extended_concat (low : Bytes) (top : UInt8) :
    extended (low ++ [top]) =
      littleEndian low + 256 ^ low.length * top.toNat - if top.toNat < 128 then 0 else 256 * 256 ^ low.length := by
  have small := littleEndian_lt low
  have byte := top.toNat_lt
  have size : 256 ^ (low ++ [top]).length = 256 * 256 ^ low.length := by
    rw [List.length_append, List.length_singleton, Nat.pow_succ, Nat.mul_comm]
  rw [extended, Literal.signExtend, twoPow_eight_mul, size, littleEndian_concat]
  generalize littleEndian low = L at small ⊢
  have cast : ((256 ^ low.length : Nat) : Int) = 256 ^ low.length := by exact_mod_cast rfl
  rw [← cast]
  generalize 256 ^ low.length = P at small ⊢
  split
  · next positive =>
    have : P * top.toNat + P ≤ P * 128 := by
      rw [← Nat.mul_succ]
      exact Nat.mul_le_mul_left P positive
    push_cast
    rw [Int.sub_zero]
    exact Int.bmod_eq_of_le (by omega) (by omega)
  · next negative =>
    have above : P * 128 ≤ P * top.toNat := Nat.mul_le_mul_left P (by omega)
    have below : P * top.toNat + P ≤ P * 256 := by
      rw [← Nat.mul_succ]
      exact Nat.mul_le_mul_left P byte
    rw [← Int.sub_bmod_right]
    push_cast
    exact Int.bmod_eq_of_le (by omega) (by omega)

/-- The byte `top` repeats the sign bit of the byte `next` below it. -/
def repeated (top next : UInt8) : Bool := (top = 0 && next < 0x80) || (top = 0xff && 0x80 ≤ next)

theorem extended_of_repeated {low : Bytes} {next top : UInt8} (h : repeated top next) :
    extended (low ++ [next] ++ [top]) = extended (low ++ [next]) := by
  simp only [repeated, Bool.or_eq_true, Bool.and_eq_true, decide_eq_true_eq, UInt8.lt_iff_toNat_lt, UInt8.le_iff_toNat_le] at h
  rw [extended_concat, extended_concat, littleEndian_concat, List.length_append, List.length_singleton, pow_succ]
  push_cast
  rcases h with ⟨rfl, positive⟩ | ⟨rfl, negative⟩
  · rw [if_pos (by decide), if_pos (by simpa using positive)]
    simp
  · rw [if_neg (by decide), if_neg (by simpa using negative)]
    have : ((255 : UInt8).toNat : Int) = 255 := by rfl
    rw [this]
    ring

/-- A number whose highest byte does not repeat the sign needs all its bytes. -/
theorem not_fits_of_not_repeated (low : Bytes) {next top : UInt8} (h : repeated top next = false) :
    ¬ Fits (low.length + 1) (extended (low ++ [next] ++ [top])) := by
  have small : (littleEndian low : Int) < 256 ^ low.length := by exact_mod_cast littleEndian_lt low
  have lower := next.toNat_lt
  have upper := top.toNat_lt
  simp only [repeated, Bool.or_eq_false_iff, Bool.and_eq_false_iff, decide_eq_false_iff_not, UInt8.lt_iff_toNat_lt,
    UInt8.le_iff_toNat_le, ← UInt8.toNat_inj] at h
  have zero : (0 : UInt8).toNat = 0 := rfl
  have ones : (0xff : UInt8).toNat = 255 := rfl
  have sign : (0x80 : UInt8).toNat = 128 := rfl
  rw [zero, ones, sign] at h
  rw [extended_concat, littleEndian_concat, List.length_append, List.length_singleton, pow_succ, Fits, pow_succ]
  push_cast
  have nonneg : (0 : Int) ≤ littleEndian low := by omega
  generalize (littleEndian low : Int) = L at *
  generalize (256 : Int) ^ low.length = P at *
  have pos : 0 < P := by omega
  generalize next.toNat = a at *
  generalize top.toNat = t at *
  have nextBelow : P * (a : Int) ≤ P * 255 := Int.mul_le_mul_of_nonneg_left (by omega) pos.le
  have nextAbove : 0 ≤ P * (a : Int) := Int.mul_nonneg pos.le (by omega)
  rintro ⟨reach, reach'⟩
  split at reach
  · next positive =>
    rw [if_pos positive] at reach'
    rcases Nat.eq_zero_or_pos t with rfl | some
    · have : P * 128 ≤ P * (a : Int) := Int.mul_le_mul_of_nonneg_left (by omega) pos.le
      simp at reach'
      linarith
    · have : P * 256 * 1 ≤ P * 256 * (t : Int) := Int.mul_le_mul_of_nonneg_left (by omega) (by omega)
      linarith
  · next negative =>
    by_cases full : t = 255
    · subst full
      have : P * (a : Int) ≤ P * 127 := Int.mul_le_mul_of_nonneg_left (by omega) pos.le
      push_cast at reach
      linarith
    · have : P * 256 * (t : Int) ≤ P * 256 * 254 := Int.mul_le_mul_of_nonneg_left (by omega) (by omega)
      linarith

theorem signedBytes_eq (n : Int) :
    signedBytes n = (shorten repeated (toLittleEndian 8 (n % twoPow 64).toNat).reverse).reverse := rfl

theorem signedBytes_spec {n : Int} (hn : Fits 8 n) :
    extended (signedBytes n) = n ∧ signedBytes n ≠ [] ∧ ∀ l, 1 ≤ l → Fits l n → (signedBytes n).length ≤ l := by
  have start : extended ((toLittleEndian 8 (n % twoPow 64).toNat).reverse).reverse = n := by
    have pos : ((twoPow 64 : Nat) : Int) ≠ 0 := by decide
    have := Int.emod_nonneg n pos
    have back : (((n % twoPow 64).toNat : Nat) : Int) = n % twoPow 64 := by omega
    have lt := Int.emod_lt n pos
    rw [List.reverse_reverse, extended, length_toLittleEndian, littleEndian_toLittleEndian, ← twoPow_eight_mul, Nat.mod_eq_of_lt]
    · rw [back, Literal.signExtend, Int.emod_bmod]
      exact signExtend_of_fits hn
    · have : (8 * 8) = 64 := rfl
      rw [this]
      omega
  have some : (toLittleEndian 8 (n % twoPow 64).toNat).reverse ≠ [] := by
    intro empty
    have := congrArg List.length empty
    rw [List.length_reverse, length_toLittleEndian] at this
    cases this
  obtain ⟨nonempty, reads, kept⟩ := shorten_spec repeated
    (fun s => extended s.reverse = n) (fun top next rest drop same => by
      rw [List.reverse_cons, List.reverse_cons, extended_of_repeated drop] at same
      rwa [List.reverse_cons]) some start
  refine ⟨reads, by simpa [signedBytes_eq] using nonempty, fun l hl small => ?_⟩
  rw [signedBytes_eq, List.length_reverse]
  rcases left : shorten repeated (toLittleEndian 8 (n % twoPow 64).toNat).reverse with _ | ⟨top, _ | ⟨next, rest⟩⟩
  · exact Nat.zero_le l
  · exact hl
  · rw [left] at reads
    by_contra long
    have out := not_fits_of_not_repeated rest.reverse (kept top next rest left)
    rw [List.reverse_cons, List.reverse_cons] at reads
    rw [reads] at out
    exact out (small.mono (by simp at long ⊢; omega))

theorem shortest_signedBytes {n : Int} (hn : Fits 8 n) : Shortest extended n (signedBytes n) := by
  obtain ⟨reads, nonempty, least⟩ := signedBytes_spec hn
  refine ⟨reads, nonempty, fun other some same => least _ (List.length_pos_iff.2 some) ?_⟩
  rw [← same]
  exact fits_signExtend _ _

/-! ## Low zeros -/

/-- The number that bytes stand for when zeros are filled in at its low end. -/
def filled (size : Nat) (data : Bytes) : Nat := littleEndian data * 256 ^ (size - data.length)

theorem shortest_rightZeroBytes {size n : Nat} (hs : 0 < size) (hn : n < 256 ^ size) :
    Shortest (filled size) n (rightZeroBytes size n) ∧ (rightZeroBytes size n).length ≤ size := by
  have start : filled size (toLittleEndian size n) = n := by
    rw [filled, littleEndian_toLittleEndian, length_toLittleEndian, Nat.sub_self, Nat.mod_eq_of_lt hn]
    simp
  have length := length_toLittleEndian size n
  have some : toLittleEndian size n ≠ [] := List.length_pos_iff.1 (by omega)
  obtain ⟨nonempty, ⟨reads, within⟩, kept⟩ := shorten_spec (fun low _ => low = 0)
    (fun s => filled size s = n ∧ s.length ≤ size) (fun low next rest zero same => by
      obtain ⟨same, within⟩ := same
      have low_zero : low = 0 := by simpa using zero
      have whole : littleEndian (low :: next :: rest) = 256 * littleEndian (next :: rest) := by
        rw [littleEndian, low_zero]
        simp
      have more : size - (next :: rest).length = size - (low :: next :: rest).length + 1 := by
        simp only [List.length_cons] at within ⊢
        omega
      refine ⟨?_, by simp only [List.length_cons] at within ⊢; omega⟩
      rw [← same, filled, filled, whole, more, Nat.pow_succ]
      ring) some ⟨start, by omega⟩
  refine ⟨⟨reads, nonempty, fun other some same => ?_⟩, within⟩
  have shortened : rightZeroBytes size n = shorten (fun low _ => decide (low = 0)) (toLittleEndian size n) := rfl
  rw [shortened]
  rcases left : shorten (fun low _ => decide (low = 0)) (toLittleEndian size n) with _ | ⟨low, _ | ⟨next, rest⟩⟩
  · exact Nat.zero_le _
  · exact List.length_pos_iff.2 some
  · rw [left] at reads within
    by_contra fewer
    -- With fewer bytes one more zero is filled in, so the lowest byte here would be zero as well.
    have exponent : size - other.length = (size - (low :: next :: rest).length) + 1 + ((low :: next :: rest).length - 1 - other.length) := by
      omega
    have divides : 256 ∣ littleEndian (low :: next :: rest) := by
      have pos : 0 < 256 ^ (size - (low :: next :: rest).length) := Nat.pow_pos (by decide)
      refine Nat.dvd_of_mul_dvd_mul_right pos ⟨littleEndian other * 256 ^ ((low :: next :: rest).length - 1 - other.length), ?_⟩
      have both := reads.trans same.symm
      rw [filled, filled, exponent, Nat.pow_add, Nat.pow_succ] at both
      rw [both]
      ring
    have byte := low.toNat_lt
    rw [littleEndian] at divides
    have : low.toNat = 0 := by omega
    have := kept low next rest left
    simp only [decide_eq_false_iff_not] at this
    exact this (UInt8.toNat_inj.1 ‹low.toNat = 0›)

end Value

end Dalvik
