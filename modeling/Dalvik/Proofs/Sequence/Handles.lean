import Dalvik.Proofs.Sequence.Nodes
import Mathlib.Data.List.Nodup

/-!
# Handles

`Linked s xs` says that `xs` are the nodes of the sequence: no node occurs twice, the nodes with a
handle are exactly these, and handles and arena slots correspond one to one. It is stated for a
list, and not for `s.items`, so that it can also describe a layout in progress, with some nodes
placed, one pending as padding and others still to come. `Buried s t` says that a slot that is empty
in `s` is empty in `t`.
-/

namespace Dalvik.Sequence

structure Linked (s : Sequence) (xs : List Nat) : Prop where
  nodup : xs.Nodup
  mem_iff : ∀ n, n ∈ xs ↔ (s.handle? n).isSome
  arena_iff : ∀ n h, s.handle? n = some h ↔ s.arena[h]? = some (some n)

/-- Slots that are empty in `s` are empty in `t`. -/
def Buried (s t : Sequence) : Prop := ∀ h : Nat, s.arena[h]? = some none → t.arena[h]? = some none

variable {s t u : Sequence} {xs ys : List Nat} {n m : Nat}

theorem Buried.refl (s : Sequence) : Buried s s := fun _ h => h

theorem Buried.trans (hst : Buried s t) (htu : Buried t u) : Buried s u := fun h hs => htu h (hst h hs)

theorem Buried.of_arena_eq (h : t.arena = s.arena) : Buried s t := fun k hk => by rwa [h]

theorem buried_forget (next : Handle) : Buried s (s.forget n next) := by
  intro h hs
  rw [arena_forget, Array.getElem?_setIfInBounds]
  split
  · have hlt : h < s.arena.size := (Array.getElem?_eq_some_iff.1 hs).1
    simp_all
  · exact hs

theorem buried_register (hn : s.handle? n = none) : Buried s (s.register n) := by
  intro h hs
  have hlt : h < s.arena.size := (Array.getElem?_eq_some_iff.1 hs).1
  rw [arena_register hn, Array.getElem?_push_lt hlt]
  simpa [Array.getElem?_eq_getElem hlt] using hs

namespace Linked

theorem congr (h : Linked s xs) (handles : ∀ n, t.handle? n = s.handle? n) (arena : t.arena = s.arena) :
    Linked t xs where
  nodup := h.nodup
  mem_iff n := by rw [handles]; exact h.mem_iff n
  arena_iff n k := by rw [handles, arena]; exact h.arena_iff n k

theorem perm (h : Linked s xs) (p : xs.Perm ys) : Linked s ys where
  nodup := p.nodup_iff.1 h.nodup
  mem_iff n := by rw [← p.mem_iff]; exact h.mem_iff n
  arena_iff := h.arena_iff

theorem handle?_of_mem (h : Linked s xs) (hn : n ∈ xs) : ∃ k, s.handle? n = some k :=
  Option.isSome_iff_exists.1 ((h.mem_iff n).1 hn)

theorem node?_of_mem (h : Linked s xs) (hn : n ∈ xs) : ∃ x, s.node? n = some x := by
  obtain ⟨k, hk⟩ := h.handle?_of_mem hn
  exact node?_isSome_of_handle? hk

theorem handle?_eq_none (h : Linked s xs) (hn : n ∉ xs) : s.handle? n = none := by
  cases hk : s.handle? n with
  | none => rfl
  | some k => exact absurd ((h.mem_iff n).2 (by simp [hk])) hn

/-- A slot of the arena that is not empty holds a node of the sequence. -/
theorem mem_of_mem_arena (h : Linked s xs) (hn : some n ∈ s.arena) : n ∈ xs := by
  obtain ⟨k, hk, hkn⟩ := Array.mem_iff_getElem.1 hn
  have hs : s.arena[k]? = some (some n) := by rw [Array.getElem?_eq_getElem hk, hkn]
  rw [h.mem_iff, (h.arena_iff n k).2 hs]
  rfl

theorem mem_arena_iff (h : Linked s xs) : some n ∈ s.arena ↔ n ∈ xs := by
  constructor
  · exact h.mem_of_mem_arena
  · intro hn
    obtain ⟨k, hk⟩ := h.handle?_of_mem hn
    exact Array.mem_of_getElem? ((h.arena_iff n k).1 hk)

theorem named?_iff (h : Linked s xs) {k : Handle} :
    s.named? k = some n ↔ ∃ j : Nat, k = j ∧ s.handle? n = some j := by
  unfold named?
  split
  · next negative =>
    constructor
    · intro hk
      cases hk
    · rintro ⟨j, rfl, -⟩
      exact absurd negative (Int.not_lt.2 (Int.natCast_nonneg j))
  · next nonneg =>
    rw [Option.join_eq_some_iff, ← h.arena_iff]
    constructor
    · exact fun hk => ⟨k.toNat, (Int.toNat_of_nonneg (Int.not_lt.1 nonneg)).symm, hk⟩
    · rintro ⟨j, rfl, hj⟩
      simpa using hj

theorem named?_handleOf (h : Linked s xs) (hn : n ∈ xs) : s.named? (s.handleOf n) = some n := by
  obtain ⟨k, hk⟩ := h.handle?_of_mem hn
  exact h.named?_iff.2 ⟨k, handleOf_of_handle? hk, hk⟩

theorem mem_of_named? (h : Linked s xs) {k : Handle} (hk : s.named? k = some n) : n ∈ xs := by
  obtain ⟨j, -, hj⟩ := h.named?_iff.1 hk
  rw [h.mem_iff, hj]
  rfl

theorem eq_handleOf_of_named? (h : Linked s xs) {k : Handle} (hk : s.named? k = some n) :
    k = s.handleOf n := by
  obtain ⟨j, rfl, hj⟩ := h.named?_iff.1 hk
  exact (handleOf_of_handle? hj).symm

theorem handleOf_nonneg (s : Sequence) (n : Nat) : 0 ≤ s.handleOf n := by
  rw [handleOf_eq]
  exact Int.natCast_nonneg _

/-- The handle of a node is below the size of the arena. -/
theorem handleOf_lt (h : Linked s xs) (hn : n ∈ xs) : s.handleOf n < s.arena.size := by
  obtain ⟨k, hk⟩ := h.handle?_of_mem hn
  rw [handleOf_of_handle? hk]
  exact Int.ofNat_lt.2 (Array.getElem?_eq_some_iff.1 ((h.arena_iff n k).1 hk)).1

/-- So is the handle of the next node, or it is the end. -/
theorem next_lt (h : Linked s xs) (next : Option Nat) (mem : ∀ n ∈ next, n ∈ xs) :
    (next.map s.handleOf).getD .finish < s.arena.size := by
  cases next with
  | none => exact Int.lt_of_lt_of_le (by decide : Handle.finish < 0) (Int.natCast_nonneg _)
  | some n => exact h.handleOf_lt (mem n rfl)

theorem handleOf_inj (h : Linked s xs) (hn : n ∈ xs) (hm : m ∈ xs) (e : s.handleOf n = s.handleOf m) :
    n = m := by
  have hn' := h.named?_handleOf hn
  rw [e, h.named?_handleOf hm] at hn'
  exact (Option.some.inj hn').symm

/-! ## What the basic operations keep -/

theorem modifyItem (h : Linked s xs) (n : Nat) (f : Item → Item) : Linked (s.modifyItem n f) xs :=
  h.congr (fun _ => handle?_modifyItem f) rfl

theorem setAddress (h : Linked s xs) (n : Nat) (a : Int) : Linked (s.setAddress n a) xs :=
  h.congr (fun _ => handle?_setAddress a) rfl

theorem create (h : Linked s xs) (item : Item) : Linked (s.create item).2 xs :=
  h.congr (fun _ => handle?_create item) rfl

/-- `register` of a node without a handle. -/
theorem register (h : Linked s xs) {x : Node} (hx : s.node? n = some x) (hn : n ∉ xs) :
    Linked (s.register n) (n :: xs) where
  nodup := List.nodup_cons.2 ⟨hn, h.nodup⟩
  mem_iff m := by
    rw [handle?_register (h.handle?_eq_none hn) hx, List.mem_cons]
    by_cases hm : n = m
    · simp [hm]
    · simp [hm, Ne.symm hm, h.mem_iff]
  arena_iff m k := by
    rw [handle?_register (h.handle?_eq_none hn) hx, arena_register (h.handle?_eq_none hn),
      Array.getElem?_push]
    have old : ∀ m, s.handle? m ≠ some s.arena.size := by
      intro m hm
      have := (h.arena_iff m _).1 hm
      simp at this
    by_cases hm : n = m
    · subst hm
      by_cases hk : k = s.arena.size
      · simp [hk]
      · have hnk : ¬ s.arena[k]? = some (some n) := fun hs => hn (h.mem_of_mem_arena (Array.mem_of_getElem? hs))
        simp [hk, hnk, Ne.symm hk]
    · by_cases hk : k = s.arena.size
      · simp [hk, hm, old m]
      · simp [hk, hm, h.arena_iff]

theorem size_notMem (h : Linked s xs) : s.nodes.size ∉ xs := by
  intro mem
  obtain ⟨x, hx⟩ := h.node?_of_mem mem
  rw [node?_size] at hx
  cases hx

/-- `register` of a new node. -/
theorem create_register (h : Linked s xs) (item : Item) :
    Linked ((s.create item).2.register s.nodes.size) (s.nodes.size :: xs) :=
  (h.create item).register (node?_create_self s item) h.size_notMem

/-- `forget` of a node. -/
theorem forget (h : Linked s (n :: xs)) (next : Handle) : Linked (s.forget n next) xs where
  nodup := (List.nodup_cons.1 h.nodup).2
  mem_iff m := by
    have hn : n ∉ xs := (List.nodup_cons.1 h.nodup).1
    have hm := h.mem_iff m
    rw [List.mem_cons] at hm
    rw [handle?_forget]
    split
    · next e =>
      subst e
      simp [hn]
    · next e => rw [← hm]; simp [Ne.symm e]
  arena_iff m k := by
    obtain ⟨j, hj⟩ := h.handle?_of_mem List.mem_cons_self
    rw [handle?_forget, arena_forget, handleOf_of_handle? hj, Int.toNat_natCast,
      Array.getElem?_setIfInBounds]
    have hlt : j < s.arena.size := (Array.getElem?_eq_some_iff.1 ((h.arena_iff n j).1 hj)).1
    by_cases e : n = m
    · subst e
      by_cases hk : j = k
      · simp [hk ▸ hlt, hk]
      · have : ¬ s.arena[k]? = some (some n) := by
          rw [← h.arena_iff, hj]
          simpa using hk
        simp [hk, this]
    · by_cases hk : j = k
      · subst hk
        have : ¬ s.handle? m = some j := by
          intro hm
          have := (h.arena_iff m j).1 hm
          rw [(h.arena_iff n j).1 hj] at this
          simp at this
          exact e this
        simp [e, hlt, this]
      · simp [e, hk, h.arena_iff]

/-- `forget` moves the references of all other nodes. -/
theorem item?_forget (h : Linked s (n :: xs)) (next : Handle) (hm : m ∈ xs) :
    (s.forget n next).item? m = (s.item? m).map (Item.retarget (s.handleOf n) next) := by
  rw [Sequence.item?_forget, ← arena_forget next, if_pos ((h.forget next).mem_arena_iff.2 hm)]

end Linked

end Dalvik.Sequence
