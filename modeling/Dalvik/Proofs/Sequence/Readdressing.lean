import Dalvik.Proofs.Sequence.Snug

/-!
# Layouts that only move

Whether padding fits depends on whether addresses are even or odd (`Fits`). So if an item of a snug
sequence is replaced by one whose size differs by an even number of code units, padding still fits,
and `layout` neither adds nor drops anything but only sets new addresses (`Fits.layout`).
-/

namespace Dalvik.Sequence

variable {s t u v : Sequence} {xs ys : List Nat} {n m a b : Nat}

/-! ## Addresses only -/

/-- The sequences differ only in addresses and in the number of code units. -/
structure Readdressed (s t : Sequence) : Prop where
  eq : t = { s with nodes := t.nodes, units := t.units }
  item? : ∀ n, t.item? n = s.item? n
  handle? : ∀ n, t.handle? n = s.handle? n

namespace Readdressed

theorem refl (s : Sequence) : Readdressed s s := ⟨rfl, fun _ => rfl, fun _ => rfl⟩

theorem trans (hst : Readdressed s t) (htu : Readdressed t u) : Readdressed s u where
  eq := by rw [htu.eq, hst.eq]
  item? n := (htu.item? n).trans (hst.item? n)
  handle? n := (htu.handle? n).trans (hst.handle? n)

theorem setAddress (s : Sequence) (n : Nat) (a : Int) : Readdressed s (s.setAddress n a) :=
  ⟨rfl, fun _ => item?_setAddress a, fun _ => handle?_setAddress a⟩

theorem node? (h : Readdressed s t) {x : Item} (hx : s.item? n = some x) : ∃ y, t.node? n = some y ∧ y.item = x :=
  item?_eq_some.1 ((h.item? n).trans hx)

end Readdressed

/-! ## Padding that fits -/

/-- From address `a` on, payloads are at even addresses, and padding is at odd ones in front of payloads. -/
def Fits (s : Sequence) : Nat → List Nat → Prop
  | _, [] => True
  | a, n :: xs => ∃ x, s.item? n = some x ∧ (x.isPayload = true → a % 2 = 0) ∧
      (x.isPadding = true → a % 2 = 1 ∧ ∃ m ms y, xs = m :: ms ∧ s.item? m = some y ∧ y.isPayload = true) ∧
      Fits s (a + x.extent) xs

theorem fits_cons_iff {x : Item} (hx : s.item? n = some x) : Fits s a (n :: xs) ↔ (x.isPayload = true → a % 2 = 0) ∧
    (x.isPadding = true → a % 2 = 1 ∧ ((xs.head?.bind s.item?).any Item.isPayload) = true) ∧
      Fits s (a + x.extent) xs := by
  have next : ((xs.head?.bind s.item?).any Item.isPayload) = true ↔
      ∃ m ms y, xs = m :: ms ∧ s.item? m = some y ∧ y.isPayload = true := by
    cases xs with
    | nil => simp
    | cons m ms => simp [Option.any_eq_true]
  constructor
  · rintro ⟨y, hy, even, pad, rest⟩
    obtain rfl := Option.some.inj (hx.symm.trans hy)
    exact ⟨even, fun padding => ⟨(pad padding).1, next.2 (pad padding).2⟩, rest⟩
  · rintro ⟨even, pad, rest⟩
    exact ⟨x, hx, even, fun padding => ⟨(pad padding).1, next.1 (pad padding).2⟩, rest⟩

instance decidableFits (s : Sequence) : (a : Nat) → (xs : List Nat) → Decidable (Fits s a xs)
  | _, [] => isTrue trivial
  | a, n :: xs =>
    match hx : s.item? n with
    | none => isFalse fun ⟨_, h, _⟩ => nomatch hx.symm.trans h
    | some x =>
      let _ := decidableFits s (a + x.extent) xs
      decidable_of_iff _ (fits_cons_iff hx).symm

theorem Snug.fits_of_laid (h : Snug s) {ys zs : List Nat} (split : s.items.toList = ys ++ zs) (laid : Laid s a zs s.units) :
    Fits s a zs := by
  induction zs generalizing ys a with
  | nil => trivial
  | cons n zs ih =>
    obtain ⟨y, hy, address, even, rest⟩ := laid.head
    have split' : s.items.toList = (ys ++ [n]) ++ zs := by rw [split, List.append_assoc, List.singleton_append]
    refine ⟨y.item, item?_of_node? hy, even, fun padding => ?_, ih split' rest⟩
    obtain ⟨p, m, x, ms, hp, odd, next, hx, payload⟩ := h.next_of_pad ⟨_, item?_of_node? hy, padding⟩ split
    rw [address?, hy, Option.map_some, address] at hp
    obtain rfl := Option.some.inj hp
    exact ⟨by omega, m, ms, x, next, hx, payload⟩

theorem Snug.fits (h : Snug s) : Fits s 0 s.items.toList := h.fits_of_laid (List.nil_append _).symm h.laid

/-- `Fits` depends only on whether addresses are even or odd. -/
theorem Fits.map {f : Nat → Nat} (same : ∀ n ∈ xs, ∀ x, s.item? n = some x → ∃ y, t.item? (f n) = some y ∧
      y.isPayload = x.isPayload ∧ y.isPadding = x.isPadding ∧ y.extent % 2 = x.extent % 2)
    (parity : b % 2 = a % 2) (h : Fits s a xs) : Fits t b (xs.map f) := by
  induction xs generalizing a b with
  | nil => trivial
  | cons n xs ih =>
    obtain ⟨x, hx, even, pad, rest⟩ := h
    obtain ⟨y, hy, payload, padding, extent⟩ := same n List.mem_cons_self x hx
    have tail : ∀ m ∈ xs, ∀ x, s.item? m = some x → _ := fun m hm => same m (List.mem_cons_of_mem n hm)
    refine ⟨y, hy, fun e => ?_, fun e => ?_, ih tail (by omega) rest⟩
    · rw [parity]
      exact even (payload ▸ e)
    · obtain ⟨odd, m, ms, z, rfl, hz, isPayload⟩ := pad (padding ▸ e)
      obtain ⟨w, hw, payload, -⟩ := tail m List.mem_cons_self z hz
      exact ⟨by omega, f m, ms.map f, w, rfl, hw, by rw [payload, isPayload]⟩

/-! ## The layout -/

/-- An item that is not padding is placed at the address that the layout has reached. -/
theorem step_place {zs : Array Nat} {y : Node} (hy : s.node? n = some y) (solid : ¬ y.item.isPadding = true)
    (even : y.item.isPayload = true → a % 2 = 0) :
    Layout.step { sequence := s, placed := zs, address := a } n =
      { sequence := s.setAddress n a, placed := zs.push n, address := a + y.item.codeUnits } := by
  have isEven : ¬ (y.item.isPayload && a % 2 == 1) = true := by
    simp only [Bool.and_eq_true, beq_iff_eq, not_and]
    intro payload
    have := even payload
    omega
  simp only [Layout.step, hy, if_neg solid, if_neg isEven, Layout.dropPad]

/-- Padding that was pending is placed in front of a payload at an odd address. -/
theorem step_place_payload {zs : Array Nat} {p : Nat} {y : Node} (odd : a % 2 = 1) (hy : s.node? n = some y)
    (payload : y.item.isPayload = true) :
    Layout.step { sequence := s, placed := zs, pad := some p, address := a } n =
      { sequence := (s.setAddress p a).setAddress n (a + 1 : Nat), placed := (zs.push p).push n,
        address := a + 1 + y.item.codeUnits } := by
  have solid : ¬ y.item.isPadding = true := by cases e : y.item <;> simp_all [Item.isPadding, Item.isPayload]
  have isOdd : (y.item.isPayload && a % 2 == 1) = true := by simp [payload, odd]
  simp only [Layout.step, hy, if_neg solid, if_pos isOdd, Layout.placePad, Layout.dropPad]

/-- A layout in progress that has only set addresses so far, perhaps with pending padding. -/
theorem Fits.foldl_step (zs ys : List Nat) (pad : Option Nat) (a : Nat) (same : Readdressed s u)
    (fits : Fits s a (pad.toList ++ zs)) (isPad : ∀ p ∈ pad, IsPad s p) : ∃ v b, Readdressed s v ∧
      zs.foldl Layout.step { sequence := u, placed := ys.toArray, pad, address := a } =
        { sequence := v, placed := (ys ++ (pad.toList ++ zs)).toArray, address := b } := by
  induction zs generalizing ys pad a u with
  | nil =>
    cases pad with
    | none => exact ⟨u, a, same, by simp⟩
    | some p =>
      obtain ⟨x, hx, -, needed, -⟩ := fits
      obtain ⟨y, hy, padding⟩ := isPad p rfl
      rw [hx] at hy
      cases hy
      obtain ⟨-, m, ms, y, next, -⟩ := needed padding
      cases next
  | cons z zs ih =>
    rw [List.foldl_cons]
    cases pad with
    | none =>
      obtain ⟨x, hx, even, needed, rest⟩ := fits
      obtain ⟨y, hy, rfl⟩ := same.node? hx
      by_cases padding : y.item.isPadding = true
      · rw [step_padding hy padding]
        exact ih ys (some z) a same ⟨y.item, hx, even, needed, rest⟩ fun p hp => by
          cases hp
          exact ⟨y.item, hx, padding⟩
      · rw [step_place hy padding even, List.push_toArray]
        rw [Item.extent, if_neg padding] at rest
        simpa using ih (ys ++ [z]) none (a + y.item.codeUnits) (same.trans (.setAddress u z a)) rest (by simp)
    | some p =>
      obtain ⟨x, hx, -, needed, rest⟩ := fits
      obtain ⟨w, hw, padding⟩ := isPad p rfl
      rw [hx] at hw
      cases hw
      obtain ⟨odd, m, ms, y, next, hy, payload⟩ := needed padding
      obtain ⟨rfl, rfl⟩ := List.cons.inj next
      obtain ⟨y', hy', -, -, rest⟩ := rest
      rw [hy] at hy'
      cases hy'
      obtain ⟨y, hy', rfl⟩ := same.node? hy
      have solid : ¬ y.item.isPadding = true := by cases e : y.item <;> simp_all [Item.isPadding, Item.isPayload]
      rw [step_place_payload odd hy' payload, List.push_toArray, List.push_toArray]
      rw [Item.extent, if_pos padding, Item.extent, if_neg solid] at rest
      have moved := (same.trans (.setAddress u p a)).trans (.setAddress _ z (a + 1 : Nat))
      simpa using ih (ys ++ [p] ++ [z]) none (a + 1 + y.item.codeUnits) moved rest (by simp)

/-- If padding fits, `layout` only sets new addresses. -/
theorem Fits.layout (h : Fits s 0 s.items.toList) : Readdressed s s.layout := by
  obtain ⟨v, b, same, fold⟩ := Fits.foldl_step s.items.toList [] none 0 (.refl s) h (by simp)
  rw [layout_eq]
  simp only [fold, Layout.dropPad]
  refine ⟨?_, same.item?, same.handle?⟩
  rw [same.eq]
  simp

end Dalvik.Sequence
