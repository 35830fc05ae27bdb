import Dalvik.Leb128
import Mathlib.Tactic.Ring
import Mathlib.Tactic.NormNum

/-!
# LEB128 round trips

A reader looks only at the bytes it takes, so the same bytes can be read again with anything behind
them (`decodeU_append`, `decodeS_append`) and by themselves (`decodeU_take`, `decodeS_take`). Every
value is read back from its own encoding (`decodeU_encodeU`, `decodeS_encodeS`).
-/

namespace Dalvik.Leb128

variable {limit v n : Nat} {last : UInt8} {b : Bytes}

/-! ## Reading more or less than was taken -/

theorem groups_append (r : Bytes) (h : groups limit b = some (v, n, last)) :
    groups limit (b ++ r) = some (v, n, last) := by
  induction limit generalizing b v n last with
  | zero => simp [groups] at h
  | succ limit ih =>
    cases b with
    | nil => simp [groups] at h
    | cons x b =>
      simp only [groups, List.cons_append] at h ⊢
      split
      · next small => rwa [if_pos small] at h
      · next large =>
        rw [if_neg large] at h
        obtain ⟨⟨w, m, l⟩, hw, e⟩ := Option.map_eq_some_iff.1 h
        rw [ih hw, Option.map_some, e]

theorem groups_take (h : groups limit b = some (v, n, last)) :
    n ≤ b.length ∧ n ≤ limit ∧ groups limit (b.take n) = some (v, n, last) := by
  induction limit generalizing b v n last with
  | zero => simp [groups] at h
  | succ limit ih =>
    cases b with
    | nil => simp [groups] at h
    | cons x b =>
      simp only [groups] at h
      split at h
      · next small =>
        cases h
        simp [groups, small]
      · next large =>
        obtain ⟨⟨w, m, l⟩, hw, e⟩ := Option.map_eq_some_iff.1 h
        cases e
        obtain ⟨hb, hl, taken⟩ := ih hw
        refine ⟨by simpa using hb, Nat.succ_le_succ hl, ?_⟩
        rw [List.take_succ_cons, groups, if_neg large, taken, Option.map_some]

section Unsigned

variable {value : UInt32}

theorem decodeU_eq_some :
    decodeU b = some (value, n) ↔ ∃ last, groups maxBytes b = some (value.toNat, n, last) := by
  unfold decodeU
  cases hg : groups maxBytes b with
  | none => simp
  | some g =>
    obtain ⟨w, m, l⟩ := g
    by_cases small : w < twoPow 32
    · have back : (UInt32.ofNat w).toNat = w := UInt32.toNat_ofNat_of_lt' small
      simp only [small, if_true, Option.some.injEq, Prod.mk.injEq]
      constructor
      · rintro ⟨rfl, rfl⟩
        exact ⟨l, back.symm, rfl, rfl⟩
      · rintro ⟨_, rfl, rfl, -⟩
        exact ⟨UInt32.toNat_inj.1 back, rfl⟩
    · have large : w ≠ value.toNat := fun e => small (e ▸ value.toNat_lt)
      simp [small, large]

theorem decodeU_append (r : Bytes) (h : decodeU b = some (value, n)) : decodeU (b ++ r) = some (value, n) := by
  obtain ⟨last, hg⟩ := decodeU_eq_some.1 h
  exact decodeU_eq_some.2 ⟨last, groups_append r hg⟩

theorem decodeU_take (h : decodeU b = some (value, n)) :
    n ≤ b.length ∧ n ≤ maxBytes ∧ decodeU (b.take n) = some (value, n) := by
  obtain ⟨last, hg⟩ := decodeU_eq_some.1 h
  obtain ⟨hb, hl, taken⟩ := groups_take hg
  exact ⟨hb, hl, decodeU_eq_some.2 ⟨last, taken⟩⟩

end Unsigned

section Signed

variable {value : Int32}

theorem decodeS_append (r : Bytes) (h : decodeS b = some (value, n)) : decodeS (b ++ r) = some (value, n) := by
  unfold decodeS at h ⊢
  cases hg : groups maxBytes b with
  | none => simp [hg] at h
  | some g => rwa [groups_append r hg, ← hg]

theorem decodeS_take (h : decodeS b = some (value, n)) :
    n ≤ b.length ∧ n ≤ maxBytes ∧ decodeS (b.take n) = some (value, n) := by
  unfold decodeS at h
  cases hg : groups maxBytes b with
  | none => simp [hg] at h
  | some g =>
    obtain ⟨w, m, l⟩ := g
    obtain rfl : m = n := by
      simp only [hg, Option.some.injEq, Prod.mk.injEq] at h
      exact h.2
    obtain ⟨hb, hl, taken⟩ := groups_take hg
    refine ⟨hb, hl, ?_⟩
    unfold decodeS
    rwa [taken, ← hg]

end Signed

/-! ## Reading what was written -/

/-- `groups` of a single byte below 128. -/
theorem groups_single (limit : Nat) (h : v < 128) :
    (UInt8.ofNat v).toNat = v ∧ groups (limit + 1) [UInt8.ofNat v] = some (v, 1, UInt8.ofNat v) := by
  have back : (UInt8.ofNat v).toNat = v := by simp; omega
  have low : UInt8.ofNat v < 0x80 := by
    rw [UInt8.lt_iff_toNat_lt, back]
    exact h
  exact ⟨back, by simp [groups, low, back]⟩

/-- `groups` of a byte with the top bit set, in front of more groups. -/
theorem groups_cons (h : v < 128) {w : Nat} (rest : groups limit b = some (w, n, last)) :
    groups (limit + 1) (UInt8.ofNat (v + 128) :: b) = some (v + 128 * w, n + 1, last) := by
  have back : (UInt8.ofNat (v + 128)).toNat = v + 128 := by simp; omega
  have high : ¬ UInt8.ofNat (v + 128) < 0x80 := by
    rw [UInt8.lt_iff_toNat_lt, back]
    simp
  have low : (v + 128) % 128 = v := by omega
  rw [groups, if_neg high, rest, Option.map_some, back, low]

/-- A number of at least 128 needs another group, and there is room for it. -/
theorem more_groups (large : ¬ v < 128) (h : v < 128 ^ (limit + 1)) : 0 < limit ∧ v / 128 < 128 ^ limit := by
  rw [Nat.pow_succ] at h
  refine ⟨?_, by omega⟩
  rcases Nat.eq_zero_or_pos limit with rfl | more
  · rw [Nat.pow_zero] at h
    omega
  · exact more

theorem groups_natGroups (h : v < 128 ^ limit) (pos : 0 < limit) :
    ∃ last, groups limit (natGroups limit v) = some (v, (natGroups limit v).length, last) := by
  induction limit generalizing v with
  | zero => omega
  | succ limit ih =>
    unfold natGroups
    split
    · next small => exact ⟨_, (groups_single limit small).2⟩
    · next large =>
      obtain ⟨more, rest⟩ := more_groups large h
      obtain ⟨last, hg⟩ := ih rest more
      refine ⟨last, ?_⟩
      rw [groups_cons (Nat.mod_lt v (by decide)) hg, Nat.mod_add_div, List.length_cons]

theorem decodeU_encodeU (value : UInt32) : decodeU (encodeU value) = some (value, (encodeU value).length) := by
  rw [decodeU_eq_some]
  refine groups_natGroups ?_ (by decide)
  have := value.toNat_lt
  norm_num [maxBytes]
  omega

theorem length_natGroups (h : v < 128 ^ limit) (pos : 0 < limit) : (natGroups limit v).length = groupCount limit v := by
  induction limit generalizing v with
  | zero => omega
  | succ limit ih =>
    unfold natGroups groupCount
    split
    · rfl
    · next large =>
      obtain ⟨more, rest⟩ := more_groups large h
      rw [List.length_cons, ih rest more]

/-- `sizeU` is the length of the encoding. -/
theorem sizeU_eq_length (value : UInt32) : sizeU value = (encodeU value).length := by
  refine (length_natGroups ?_ (by decide)).symm
  have := value.toNat_lt
  norm_num [maxBytes]
  omega

/-- If the integer is given back by its last seven bits and their sign, one group is enough. -/
theorem groups_last {i : Int} (fits : (i / 128 = 0 ∧ (i % 128).toNat < 64) ∨ (i / 128 = -1 ∧ 64 ≤ (i % 128).toNat)) :
    ∃ w last, groups (limit + 1) [UInt8.ofNat (i % 128).toNat] = some (w, 1, last) ∧
      (if last.toNat / 64 % 2 = 1 then (w : Int) - twoPow (7 * 1) else w) = i := by
  obtain ⟨back, hg⟩ := groups_single limit (v := (i % 128).toNat) (by omega)
  refine ⟨_, _, hg, ?_⟩
  rw [back, show twoPow (7 * 1) = 128 from rfl]
  split <;> omega

/-- `groups` of the groups of an integer, extended from bit 6 of the last one, give the integer back. -/
theorem groups_intGroups (limit : Nat) {i : Int} (low : -64 * 128 ^ limit ≤ i) (high : i < 64 * 128 ^ limit) :
    ∃ w last, groups (limit + 1) (intGroups (limit + 1) i) = some (w, (intGroups (limit + 1) i).length, last) ∧
      (if last.toNat / 64 % 2 = 1 then (w : Int) - twoPow (7 * (intGroups (limit + 1) i).length) else w) = i := by
  induction limit generalizing i with
  | zero =>
    have fits : (i / 128 = 0 ∧ (i % 128).toNat < 64) ∨ (i / 128 = -1 ∧ 64 ≤ (i % 128).toNat) := by omega
    simp only [intGroups, fits, if_true, List.length_singleton]
    exact groups_last fits
  | succ limit ih =>
    rw [intGroups]
    by_cases fits : (i / 128 = 0 ∧ (i % 128).toNat < 64) ∨ (i / 128 = -1 ∧ 64 ≤ (i % 128).toNat)
    · simp only [fits, if_true, List.length_singleton]
      exact groups_last fits
    · have bounds : -64 * 128 ^ limit ≤ i / 128 ∧ i / 128 < 64 * 128 ^ limit := by
        rw [pow_succ] at low high
        generalize (128 : Int) ^ limit = p at low high ⊢
        omega
      obtain ⟨w, last, hg, hv⟩ := ih bounds.1 bounds.2
      simp only [fits, if_false]
      generalize intGroups (limit + 1) (i / 128) = bs at hg hv ⊢
      refine ⟨(i % 128).toNat + 128 * w, last, groups_cons (by omega) hg, ?_⟩
      have scale : (twoPow (7 * (bs.length + 1)) : Int) = 128 * twoPow (7 * bs.length) := by
        simp only [twoPow, Nat.pow_eq, Nat.mul_add, pow_add]
        push_cast
        ring
      rw [List.length_cons, scale]
      generalize (twoPow (7 * bs.length) : Int) = p at hv ⊢
      split at hv
      · next negative =>
        rw [if_pos negative]
        omega
      · next positive =>
        rw [if_neg positive]
        omega

theorem decodeS_encodeS (value : Int32) : decodeS (encodeS value) = some (value, (encodeS value).length) := by
  have low := value.le_toInt
  have high := value.toInt_lt
  obtain ⟨w, last, hg, hv⟩ := groups_intGroups 4 (i := value.toInt) (by norm_num; omega) (by norm_num; omega)
  unfold decodeS encodeS
  rw [show maxBytes = 4 + 1 from rfl, hg]
  simp only [hv, Int32.ofInt_toInt]

end Dalvik.Leb128
