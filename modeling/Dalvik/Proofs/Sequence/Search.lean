import Dalvik.Proofs.Item
import Dalvik.Proofs.Sequence.Layout

/-!
# Finding an item by its address

Items in a row that take up room have strictly increasing addresses, and on such a sequence the
binary search of `searchAddress` finds exactly the item at an address.
-/

namespace Dalvik.Sequence

variable {s t : Sequence} {xs : List Nat} {n m : Nat} {a b : Nat}

/-- The address of a node as of the last layout. -/
def address? (s : Sequence) (n : Nat) : Option Int := (s.node? n).map Node.address

theorem address?_eq_shape? (s : Sequence) (n : Nat) : s.address? n = (s.shape? n).map Prod.fst := by
  unfold address? shape?
  cases s.node? n <;> rfl

theorem address?_of_shape? {p : Int} {x : Item} (h : s.shape? n = some (p, x)) : s.address? n = some p := by
  rw [address?_eq_shape?, h, Option.map_some]

/-- Every item takes up room. -/
def Roomy (s : Sequence) : Prop := ∀ n x, s.item? n = some x → 0 < x.extent

theorem Roomy.extent_pos (h : Roomy s) {p : Int} {x : Item} (hx : s.shape? n = some (p, x)) : 0 < x.extent := by
  unfold shape? at hx
  obtain ⟨y, hy, e⟩ := Option.map_eq_some_iff.1 hx
  cases e
  have := h n y.item (item?_of_node? hy)
  simpa [Node.shape] using this

/-! ## Increasing addresses -/

theorem Laid.mem (h : Laid s a xs b) (hn : n ∈ xs) :
    ∃ (p : Nat) (x : Item), s.shape? n = some ((p : Int), x) ∧ a ≤ p ∧ p + x.extent ≤ b := by
  induction xs generalizing a with
  | nil => cases hn
  | cons m xs ih =>
    obtain ⟨x, hx, -, rest⟩ := h
    have bound : ∀ {c}, Laid s c xs b → c ≤ b := by
      clear ih hn rest
      intro c hc
      induction xs generalizing c with
      | nil => exact Nat.le_of_eq hc
      | cons k xs ih =>
        obtain ⟨y, -, -, rest⟩ := hc
        have := ih rest
        omega
    rcases List.mem_cons.1 hn with rfl | hn
    · exact ⟨a, x, hx, Nat.le_refl a, bound rest⟩
    · obtain ⟨p, y, hy, low, high⟩ := ih rest hn
      exact ⟨p, y, hy, by omega, high⟩

/-- Of two nodes in a row, the first one has the smaller address. -/
theorem Laid.pairwise (h : Laid s a xs b) (roomy : Roomy s) :
    xs.Pairwise fun n m => ∃ p q, s.address? n = some p ∧ s.address? m = some q ∧ p < q := by
  induction xs generalizing a with
  | nil => exact .nil
  | cons n xs ih =>
    obtain ⟨x, hx, -, rest⟩ := h
    refine .cons (fun m hm => ?_) (ih rest)
    obtain ⟨q, y, hy, low, -⟩ := rest.mem hm
    refine ⟨a, q, address?_of_shape? hx, address?_of_shape? hy, ?_⟩
    have := roomy.extent_pos hx
    omega

/-- The addresses of the items are strictly increasing. -/
def Increasing (s : Sequence) : Prop :=
  s.items.toList.Pairwise fun n m => ∃ p q, s.address? n = some p ∧ s.address? m = some q ∧ p < q

theorem Increasing.congr (h : Increasing s) (items : t.items = s.items) (addresses : ∀ n, t.address? n = s.address? n) :
    Increasing t := by
  unfold Increasing
  rw [items]
  exact h.imp fun ⟨p, q, hp, hq, lt⟩ => ⟨p, q, by rw [addresses, hp], by rw [addresses, hq], lt⟩

theorem addressAt_of_getElem? {i : Nat} {p : Int} (hi : s.items[i]? = some n) (hp : s.address? n = some p) :
    s.addressAt i = p := by
  unfold address? at hp
  obtain ⟨x, hx, rfl⟩ := Option.map_eq_some_iff.1 hp
  unfold addressAt
  rw [hi, Option.bind_some, hx, Option.elim_some]

theorem Increasing.addressAt_lt (h : Increasing s) {i j : Nat} (hij : i < j) (hj : j < s.items.size) :
    s.addressAt i < s.addressAt j := by
  have hi : i < s.items.size := Nat.lt_trans hij hj
  obtain ⟨p, q, hp, hq, lt⟩ := List.pairwise_iff_getElem.1 h i j (by simpa using hi) (by simpa using hj) hij
  rw [Array.getElem_toList] at hp hq
  rw [addressAt_of_getElem? (Array.getElem?_eq_getElem hi) hp, addressAt_of_getElem? (Array.getElem?_eq_getElem hj) hq]
  exact lt

theorem Increasing.address?_inj (h : Increasing s) {p : Int} (hn : n ∈ s.items.toList) (hm : m ∈ s.items.toList)
    (pn : s.address? n = some p) (pm : s.address? m = some p) : n = m := by
  obtain ⟨i, hi, rfl⟩ := List.getElem_of_mem hn
  obtain ⟨j, hj, rfl⟩ := List.getElem_of_mem hm
  have apart : ∀ {i j : Nat} (hi : i < s.items.toList.length) (hj : j < s.items.toList.length), i < j →
      s.address? s.items.toList[i] = some p → s.address? s.items.toList[j] ≠ some p := by
    intro i j hi hj lt pi pj
    obtain ⟨p', q, hp, hq, less⟩ := List.pairwise_iff_getElem.1 h i j hi hj lt
    rw [pi] at hp
    rw [pj] at hq
    cases hp
    cases hq
    exact Int.lt_irrefl _ less
  rcases Nat.lt_trichotomy i j with lt | rfl | lt
  · exact absurd pm (apart hi hj lt pn)
  · rfl
  · exact absurd pn (apart hj hi lt pm)

/-! ## The search -/

/-- `searchAddress` gives the first position whose address is not below the one looked for. -/
theorem searchAddress_spec (p : Int) {low high : Nat}
    (mono : ∀ i j, i < j → j < high → s.addressAt i < s.addressAt j) (hle : low ≤ high) :
    low ≤ s.searchAddress p low high ∧ s.searchAddress p low high ≤ high ∧
      (∀ i, low ≤ i → i < s.searchAddress p low high → s.addressAt i < p) ∧
      ∀ i, s.searchAddress p low high ≤ i → i < high → p ≤ s.addressAt i := by
  fun_induction s.searchAddress p low high with
  | case1 low high lt mid below ih =>
    obtain ⟨hlow, hhigh, before, after⟩ := ih mono (by omega)
    refine ⟨by omega, hhigh, fun i hi hr => ?_, after⟩
    by_cases right : mid < i
    · exact before i (by omega) hr
    · rcases Nat.lt_or_eq_of_le (Nat.not_lt.1 right) with left | rfl
      · exact Int.lt_trans (mono i mid left (by omega)) below
      · exact below
  | case2 low high lt mid above ih =>
    obtain ⟨hlow, hhigh, before, after⟩ := ih (fun i j hij hj => mono i j hij (by omega)) (by omega)
    refine ⟨hlow, by omega, before, fun i hi hh => ?_⟩
    by_cases left : i < mid
    · exact after i hi left
    · rcases Nat.lt_or_eq_of_le (Nat.not_lt.1 left) with right | rfl
      · exact Int.le_of_lt (Int.lt_of_le_of_lt (Int.not_lt.1 above) (mono mid i right hh))
      · exact Int.not_lt.1 above
  | case3 low high done => exact ⟨Nat.le_refl _, hle, fun i hi hr => by omega, fun i hi hh => by omega⟩

theorem Increasing.positionAt?_iff (h : Increasing s) {p : Int} {i : Nat} :
    s.positionAt? p = some i ↔ i < s.items.size ∧ s.addressAt i = p := by
  obtain ⟨-, hle, before, after⟩ :=
    searchAddress_spec (s := s) p (fun i j hij hj => h.addressAt_lt hij hj) (Nat.zero_le s.items.size)
  unfold positionAt?
  simp only
  constructor
  · intro found
    split at found
    · next hit =>
      cases found
      exact hit
    · cases found
  · rintro ⟨hi, rfl⟩
    -- The search cannot stop before the position, where addresses are too small, nor after it.
    have same : s.searchAddress (s.addressAt i) 0 s.items.size = i := by
      rcases Nat.lt_trichotomy (s.searchAddress (s.addressAt i) 0 s.items.size) i with lt | eq | gt
      · have := after _ (Nat.le_refl _) (Nat.lt_trans lt hi)
        exact absurd (h.addressAt_lt lt hi) (Int.not_lt.2 this)
      · exact eq
      · exact absurd (before i (Nat.zero_le i) gt) (Int.lt_irrefl _)
    rw [same, if_pos ⟨hi, rfl⟩]

theorem Increasing.nodeByAddress?_iff (h : Increasing s) (known : ∀ n ∈ s.items.toList, ∃ x, s.node? n = some x)
    {p : Int} : s.nodeByAddress? p = some n ↔ n ∈ s.items.toList ∧ s.address? n = some p := by
  unfold nodeByAddress?
  rw [Option.bind_eq_some_iff]
  constructor
  · rintro ⟨i, hi, hn⟩
    obtain ⟨lt, e⟩ := h.positionAt?_iff.1 hi
    have mem : n ∈ s.items.toList := by
      rw [Array.mem_toList_iff]
      exact Array.mem_of_getElem? hn
    obtain ⟨x, hx⟩ := known n mem
    have address : s.address? n = some x.address := by rw [address?, hx, Option.map_some]
    rw [addressAt_of_getElem? hn address] at e
    exact ⟨mem, by rw [address, e]⟩
  · rintro ⟨mem, address⟩
    obtain ⟨i, hi, e⟩ := List.getElem_of_mem mem
    have hi' : s.items[i]? = some n := by
      rw [← Array.getElem?_toList, List.getElem?_eq_getElem hi, e]
    have lt : i < s.items.size := by simpa using hi
    exact ⟨i, h.positionAt?_iff.2 ⟨lt, addressAt_of_getElem? hi' address⟩, hi'⟩

theorem handleAt?_eq (s : Sequence) (p : Int) :
    s.handleAt? p = if p = s.units then some .finish else (s.nodeByAddress? p).map s.handleOf := by
  unfold handleAt? nodeByAddress?
  split
  · rfl
  · cases s.positionAt? p with
    | none => rfl
    | some i => cases h : s.items[i]? <;> simp [h]

end Dalvik.Sequence
