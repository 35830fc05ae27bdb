import Dalvik.Proofs.Action
import Dalvik.Proofs.Sequence.Ownership
import Dalvik.Proofs.Sequence.Evolution
import Dalvik.Proofs.Sequence.Search
import Mathlib.Data.List.Perm.Basic

/-!
# What every edit keeps

`Sound P s` says that `s` is linked and that every item, in the sequence or not, has property `P`.
`Tidy P s` says that outside a bracket the items are in a row and the owner of each table is in the
sequence. Every edit keeps both, for any property that is `Stable`. `Leaves P s t` adds that a slot
that was empty stays empty.
-/

namespace Dalvik.Sequence

open Dalvik.Action (except_bind_eq_ok)

variable {free : Instruction → Prop} {P : Item → Prop} {s t u : Sequence} {n m : Nat}

/-- Every item has the property, in the sequence or not. -/
def Holds (P : Item → Prop) (s : Sequence) : Prop := ∀ n x, s.item? n = some x → P x

structure Sound (P : Item → Prop) (s : Sequence) : Prop where
  linked : Linked s s.items.toList
  holds : Holds P s

/-- No item with the property is a switch that is marked as padding. -/
def Upright (P : Item → Prop) : Prop := ∀ x, P (.plain x) → x.opcode.is .switch = true → x.isPadding = false

/-- What `relink` establishes outside a bracket. -/
structure Tidy (P : Item → Prop) (s : Sequence) : Prop where
  laid : s.depth = 0 → Laid s 0 s.items.toList s.units
  owned : s.depth = 0 → Upright P → Owned s

structure Leaves (P : Item → Prop) (s t : Sequence) : Prop where
  sound : Sound P t
  tidy : Tidy P t
  buried : Buried s t

/-! ## Single changes -/

theorem Evolves.holds (h : Evolves s t) (padding : P (.plain .padding))
    (relinked : ∀ {x y : Item}, y.unlinked = x.unlinked → P x → P y) (hs : Holds P s) : Holds P t := by
  intro n y hy
  rcases h.item?_of_item? hy with ⟨x, hx, e⟩ | ⟨-, e⟩
  · exact relinked e (hs n x hx)
  · exact relinked e padding

theorem Holds.congr (hs : Holds P s) (items : ∀ n, t.item? n = s.item? n) : Holds P t :=
  fun n x hx => hs n x (by rw [← items, hx])

theorem Holds.modifyItem (hs : Holds P s) {f : Item → Item} (hf : ∀ x, s.item? n = some x → P (f x)) :
    Holds P (s.modifyItem n f) := by
  intro m y hy
  rw [item?_modifyItem] at hy
  split at hy
  · next e =>
    subst e
    obtain ⟨x, hx, rfl⟩ := Option.map_eq_some_iff.1 hy
    exact hf x hx
  · exact hs m y hy

theorem Holds.create (hs : Holds P s) {item : Item} (h : P item) : Holds P (s.create item).2 := by
  intro m y hy
  rw [item?_create] at hy
  split at hy
  · cases hy
    exact h
  · exact hs m y hy

/-- Only nodes, items and the arena matter. -/
theorem Sound.congr (h : Sound P s) (nodes : t.nodes = s.nodes) (items : t.items = s.items) (arena : t.arena = s.arena) :
    Sound P t where
  linked := by
    rw [items]
    exact h.linked.congr (fun n => by simp only [handle?, node?, nodes]) arena
  holds := h.holds.congr fun n => by simp only [item?, node?, nodes]

theorem Sound.modifyItem (h : Sound P s) {f : Item → Item} (hf : ∀ x, s.item? n = some x → P (f x)) :
    Sound P (s.modifyItem n f) :=
  ⟨h.linked.modifyItem n f, h.holds.modifyItem hf⟩

theorem Sound.create (h : Sound P s) {item : Item} (hi : P item) : Sound P (s.create item).2 :=
  ⟨h.linked.create item, h.holds.create hi⟩

theorem Sound.roomy (stable : Item.Stable free P) (h : Sound P s) : Roomy s :=
  fun n x hx => (stable.shaped (h.holds n x hx)).extent_pos

theorem Sound.relink (stable : Item.Stable free P) (h : Sound P s) : Sound P s.relink :=
  ⟨h.linked.relink.1, h.linked.relink_evolves.holds stable.padding stable.relinked h.holds⟩

theorem Sound.solidSwitches (h : Sound P s) (upright : Upright P) : SolidSwitches s :=
  fun n x hx => upright x (h.holds n _ hx)

theorem Sound.tidy_relink (h : Sound P s) : Tidy P s.relink := by
  have owned : Upright P → Owned s.relink := fun upright => h.linked.owned_relink (h.solidSwitches upright)
  obtain ⟨-, row⟩ := h.linked.relink
  generalize s.relink = t at owned row ⊢
  exact ⟨fun _ => row, fun _ => owned⟩

/-- `changed` establishes `Leaves`, whatever was changed before. -/
theorem Sound.changed (stable : Item.Stable free P) (h : Sound P s) : Leaves P s s.changed := by
  unfold Sequence.changed
  split
  · exact ⟨h.relink stable, h.tidy_relink, h.linked.relink_evolves.buried⟩
  · next deep => exact ⟨h, ⟨fun flat => absurd flat deep, fun flat => absurd flat deep⟩, .refl s⟩

theorem Leaves.of_buried (h : Leaves P t u) (hst : Buried s t) : Leaves P s u :=
  ⟨h.sound, h.tidy, hst.trans h.buried⟩

/-! ## Making and placing -/

/-- Nothing has changed, except that there may be more nodes, which are not in the sequence. -/
structure Quiet (s t : Sequence) : Prop where
  items : t.items = s.items
  arena : t.arena = s.arena
  depth : t.depth = s.depth
  units : t.units = s.units
  handle? : ∀ n, t.handle? n = s.handle? n
  node? : ∀ n x, s.node? n = some x → t.node? n = some x

namespace Quiet

variable (h : Quiet s t)

include h

theorem item? {x : Item} (hx : s.item? n = some x) : t.item? n = some x := by
  obtain ⟨y, hy, rfl⟩ := item?_eq_some.1 hx
  exact item?_of_node? (h.node? n y hy)

theorem laid (linked : Linked s s.items.toList) (row : Laid s 0 s.items.toList s.units) :
    Laid t 0 t.items.toList t.units := by
  rw [h.items, h.units]
  refine row.congr fun n hn => ?_
  obtain ⟨x, hx⟩ := linked.node?_of_mem hn
  rw [shape?_of_node? hx, shape?_of_node? (h.node? n x hx)]

theorem owned (linked : Linked s s.items.toList) (owned : Owned s) : Owned t := by
  intro n x o hn hx ho nonneg
  rw [h.handle?] at hn
  obtain ⟨z, hz⟩ := linked.node?_of_mem ((linked.mem_iff n).2 hn)
  rw [item?_of_node? (h.node? n z hz)] at hx
  cases hx
  obtain ⟨m, y, hm, hy, solid⟩ := owned n z.item o hn (item?_of_node? hz) ho nonneg
  refine ⟨m, y, ?_, h.item? hy, solid⟩
  rw [← hm]
  simp only [named?, h.arena]

end Quiet

theorem quiet_create (s : Sequence) (item : Item) : Quiet s (s.create item).2 where
  items := rfl
  arena := rfl
  depth := rfl
  units := rfl
  handle? _ := handle?_create item
  node? n x hx := by
    rw [node?_create, if_neg, hx]
    rintro rfl
    simp at hx

/-- A node that is not in the sequence is registered and inserted. -/
theorem Linked.placed (h : Linked s s.items.toList) {x : Node} (hx : s.node? n = some x) (detached : s.handle? n = none)
    {i : Nat} (hi : i ≤ s.items.size) : Linked { s.register n with items := (s.register n).items.insertIdxIfInBounds i n }
      ((s.register n).items.insertIdxIfInBounds i n).toList := by
  have absent : n ∉ s.items.toList := by
    intro mem
    obtain ⟨k, hk⟩ := h.handle?_of_mem mem
    rw [detached] at hk
    cases hk
  have registered := h.register hx absent
  have perm : (n :: s.items.toList).Perm ((s.register n).items.insertIdxIfInBounds i n).toList := by
    rw [items_register, Array.insertIdxIfInBounds, dif_pos hi, Array.toList_insertIdx]
    exact (List.perm_insertIdx n s.items.toList (by simpa using hi)).symm
  exact (registered.perm perm).congr (fun _ => rfl) rfl

theorem Sound.placed (h : Sound P s) {x : Node} (hx : s.node? n = some x) (detached : s.handle? n = none) {i : Nat}
    (hi : i ≤ s.items.size) : Sound P { s.register n with items := (s.register n).items.insertIdxIfInBounds i n } := by
  refine ⟨h.linked.placed hx detached hi, h.holds.congr fun m => ?_⟩
  change (s.register n).item? m = _
  exact item?_register

/-- `place` of a node that exists and is not in the sequence. -/
theorem leaves_place (stable : Item.Stable free P) (h : Sound P s) {x : Node} (hx : s.node? n = some x)
    (detached : s.handle? n = none) {i : Nat} (hi : i ≤ s.items.size) : Leaves P s (s.place i n) := by
  unfold place
  exact ((h.placed hx detached hi).changed stable).of_buried (buried_register detached)

/-- `insert` succeeds exactly for a position in the list and a node that is not in the sequence, and then is `place`. -/
theorem insert_eq_ok {i : Int} {k : Handle} (e : s.insert i n = .ok (k, t)) :
    s.handle? n = none ∧ 0 ≤ i ∧ i ≤ s.items.size ∧ t = s.place i.toNat n := by
  unfold insert at e
  split at e
  · cases e
  · next fresh =>
    split at e
    · cases e
    · next inside =>
      cases e
      rw [not_or, Int.not_lt, Int.not_lt] at inside
      exact ⟨by simpa [handle?] using fresh, inside.1, inside.2, rfl⟩

theorem leaves_insert (stable : Item.Stable free P) (h : Sound P s) {x : Node} (hx : s.node? n = some x) {i : Int}
    {k : Handle} (e : s.insert i n = .ok (k, t)) : Leaves P s t := by
  obtain ⟨detached, low, high, rfl⟩ := insert_eq_ok e
  exact leaves_place stable h hx detached (by omega)

/-- `insertItem` is `place` of a new node. -/
theorem gives_insertItem {i : Int} {item : Item} {k : Handle} (h : (insertItem i item).Gives s k t) :
    0 ≤ i ∧ i ≤ s.items.size ∧ t = (s.create item).2.place i.toNat s.nodes.size := by
  unfold insertItem at h
  rw [Action.gives_of] at h
  split at h
  · cases h
  · next inside =>
    rw [not_or, Int.not_lt, Int.not_lt] at inside
    cases h
    exact ⟨inside.1, inside.2, rfl⟩

theorem leaves_insertItem (stable : Item.Stable free P) (h : Sound P s) {item : Item} (hi : P item) {i : Int} {k : Handle}
    (e : (insertItem i item).Gives s k t) : Leaves P s t := by
  obtain ⟨low, high, rfl⟩ := gives_insertItem e
  refine (leaves_place stable (h.create hi) (node?_create_self s item) (handle?_create_self s item) ?_).of_buried
    (.of_arena_eq rfl)
  rw [items_create]
  omega

theorem gives_push (s : Sequence) (item : Item) : (push item).Gives s (s.append item).1 (s.append item).2 :=
  Action.gives_modifyGet.2 rfl

theorem leaves_push (stable : Item.Stable free P) (h : Sound P s) {item : Item} (hi : P item) {k : Handle}
    (e : (push item).Gives s k t) : Leaves P s t := by
  unfold push append at e
  rw [Action.gives_modifyGet] at e
  cases e
  exact (leaves_place stable (h.create hi) (node?_create_self s item) (handle?_create_self s item) le_rfl).of_buried
    (.of_arena_eq rfl)

/-! ## Removing -/

theorem nodeAt_eq_ok {i : Int} (h : s.nodeAt i = .ok n) :
    i.toNat < s.items.toList.length ∧ s.items.toList[i.toNat]? = some n := by
  unfold nodeAt nodeAt? at h
  split at h
  · next k hk =>
    cases h
    split at hk
    · cases hk
    · rw [← Array.getElem?_toList] at hk
      exact ⟨(List.getElem?_eq_some_iff.1 hk).1, hk⟩
  · cases h

theorem leaves_removeAt (stable : Item.Stable free P) (h : Sound P s) {i : Int} (e : s.removeAt i = .ok (n, t)) :
    Leaves P s t := by
  unfold removeAt at e
  obtain ⟨k, hk, e⟩ := except_bind_eq_ok.1 e
  cases e
  obtain ⟨lt, located⟩ := nodeAt_eq_ok hk
  have perm : s.items.toList.Perm (n :: (s.items.eraseIdxIfInBounds i.toNat).toList) := by
    obtain ⟨_, e⟩ := List.getElem?_eq_some_iff.1 located
    rw [Array.toList_eraseIdxIfInBounds, ← e]
    exact (List.getElem_cons_eraseIdx_perm lt).symm
  generalize hs : ({ s with items := s.items.eraseIdxIfInBounds i.toNat } : Sequence) = s'
  have linked : Linked s' (n :: s'.items.toList) := by
    subst hs
    exact (h.linked.perm perm).congr (fun _ => rfl) rfl
  have holds : Holds P s' := by
    subst hs
    exact h.holds
  have buried : Buried s s' := by
    subst hs
    exact .of_arena_eq rfl
  have sound : Sound P (s'.forget n (((s'.nodeAt? i).map s'.handleOf).getD .finish)) :=
    ⟨linked.forget _, (evolves_forget linked _).holds stable.padding stable.relinked holds⟩
  exact (sound.changed stable).of_buried (buried.trans (buried_forget _))

theorem leaves_remove (stable : Item.Stable free P) (h : Sound P s) {found : Bool}
    (e : s.remove n = .ok (found, t)) : Leaves P s t ∨ t = s := by
  unfold remove at e
  split at e
  · obtain ⟨⟨k, u⟩, hu, e⟩ := except_bind_eq_ok.1 e
    cases e
    exact .inl (leaves_removeAt stable h hu)
  · cases e
    exact .inr rfl

/-! ## Replacing and retargeting -/

/-- The sequence with node `new` in place of node `old`, before it is laid out again. -/
def replaced (s : Sequence) (old new i h : Nat) : Sequence :=
  ({ s with items := s.items.setIfInBounds i new, arena := s.arena.setIfInBounds h (some new) }.modifyNode old
    fun x => { x with handle := none }).modifyNode new fun x => { x with handle := some h }

theorem replace_eq_ok {old new : Nat} (e : s.replace old new = .ok t) :
    ∃ i h, s.handle? old = some h ∧ s.items.toList[i]? = some old ∧ t = (s.replaced old new i h).changed := by
  unfold replace at e
  split at e
  · cases e
  · next x hx =>
    split at e
    · cases e
    · next h hh =>
      split at e
      · cases e
      · next i hi =>
        cases e
        refine ⟨i, h, by rw [handle?, hx, Option.bind_some, hh], ?_, rfl⟩
        unfold indexOf? at hi
        obtain ⟨lt, e, -⟩ := Array.findIdx?_eq_some_iff_getElem.1 hi
        rw [Array.getElem?_toList, Array.getElem?_eq_getElem lt]
        simpa using e

theorem handle?_replaced {old new i h : Nat} {x : Node} (hx : s.node? new = some x) (ne : old ≠ new) :
    (s.replaced old new i h).handle? m =
      if new = m then some h else if old = m then none else s.handle? m := by
  unfold replaced handle?
  rw [node?_modifyNode, node?_modifyNode]
  change Option.bind (if new = m then Option.map _ (if old = m then Option.map _ (s.node? m) else s.node? m)
    else if old = m then Option.map _ (s.node? m) else s.node? m) Node.handle = _
  by_cases hm : new = m
  · subst hm
    simp [ne, hx]
  · by_cases ho : old = m
    · subst ho
      simp only [if_neg hm, if_true]
      cases s.node? old <;> rfl
    · simp [hm, ho]

theorem item?_replaced {old new i h : Nat} : (s.replaced old new i h).item? m = s.item? m := by
  unfold replaced item?
  rw [node?_modifyNode, node?_modifyNode]
  change Option.map Node.item (if new = m then Option.map _ (if old = m then Option.map _ (s.node? m) else s.node? m)
    else if old = m then Option.map _ (s.node? m) else s.node? m) = _
  cases hx : s.node? m with
  | none => simp
  | some x => split <;> split <;> rfl

theorem Linked.replaced {old new i h : Nat} (linked : Linked s s.items.toList) {x : Node} (hx : s.node? new = some x)
    (detached : s.handle? new = none) (hh : s.handle? old = some h) (hi : s.items.toList[i]? = some old) :
    Linked (s.replaced old new i h) (s.replaced old new i h).items.toList := by
  have ne : old ≠ new := by
    rintro rfl
    rw [detached] at hh
    cases hh
  have absent : new ∉ s.items.toList := by
    intro mem
    obtain ⟨k, hk⟩ := linked.handle?_of_mem mem
    rw [detached] at hk
    cases hk
  obtain ⟨lt, located⟩ := List.getElem?_eq_some_iff.1 hi
  have slot := (linked.arena_iff old h).1 hh
  have inside : h < s.arena.size := (Array.getElem?_eq_some_iff.1 slot).1
  -- The new list is the old one with the two nodes exchanged.
  have list : (s.replaced old new i h).items.toList = s.items.toList.set i new := by
    change (s.items.setIfInBounds i new).toList = _
    exact Array.toList_setIfInBounds
  have perm : (old :: s.items.toList.set i new).Perm (new :: s.items.toList) := by
    have h₁ := List.set_perm_cons_eraseIdx lt new
    have h₂ := List.getElem_cons_eraseIdx_perm lt
    rw [located] at h₂
    exact ((h₁.cons old).trans (.swap new old _)).trans (h₂.cons new)
  obtain ⟨gone, nodup⟩ := List.nodup_cons.1 (perm.nodup_iff.2 (List.nodup_cons.2 ⟨absent, linked.nodup⟩))
  have member : ∀ m, m ∈ s.items.toList.set i new ↔ m = new ∨ (m ≠ old ∧ m ∈ s.items.toList) := by
    intro m
    have both := perm.mem_iff (a := m)
    simp only [List.mem_cons] at both
    constructor
    · intro hm
      have mne : m ≠ old := fun e => gone (e ▸ hm)
      rcases both.1 (.inr hm) with rfl | hm'
      · exact .inl rfl
      · exact .inr ⟨mne, hm'⟩
    · rintro (rfl | ⟨mne, hm⟩)
      · exact (both.2 (.inl rfl)).resolve_left (Ne.symm ne)
      · exact (both.2 (.inr hm)).resolve_left mne
  have arena : (s.replaced old new i h).arena = s.arena.setIfInBounds h (some new) := rfl
  rw [list]
  exact {
    nodup
    mem_iff := fun m => by
      rw [member, handle?_replaced hx ne]
      by_cases hm : new = m
      · simp [hm]
      · by_cases ho : old = m
        · simp [ho, Ne.symm hm, hm]
        · simp [hm, ho, Ne.symm hm, Ne.symm ho, linked.mem_iff]
    arena_iff := fun m k => by
      rw [handle?_replaced hx ne, arena, Array.getElem?_setIfInBounds]
      by_cases hm : new = m
      · subst hm
        by_cases hk : h = k
        · simp [hk, hk ▸ inside]
        · have other : ¬ s.arena[k]? = some (some new) := fun e => absent (linked.mem_of_mem_arena (Array.mem_of_getElem? e))
          simp [hk, other]
      · by_cases hk : h = k
        · subst hk
          have other : ¬ s.handle? m = some h ∨ old = m := by
            by_cases ho : old = m
            · exact .inr ho
            · refine .inl fun e => ho ?_
              have := (linked.arena_iff m h).1 e
              rw [slot] at this
              simpa using this
          rcases other with other | rfl
          · by_cases ho : old = m
            · simp [hm, ho, inside]
            · simp [hm, ho, inside, other]
          · simp [hm, inside]
        · by_cases ho : old = m
          · subst ho
            have other : ¬ s.arena[k]? = some (some old) := by
              rw [← linked.arena_iff, hh]
              simpa using hk
            simp [hm, hk, other]
          · simp [hm, hk, ho, linked.arena_iff] }

theorem buried_replaced {old new i h : Nat} (linked : Linked s s.items.toList) (hh : s.handle? old = some h) :
    Buried s (s.replaced old new i h) := by
  intro k hk
  change (s.arena.setIfInBounds h (some new))[k]? = _
  rw [Array.getElem?_setIfInBounds]
  split
  · next e =>
    subst e
    rw [(linked.arena_iff old h).1 hh] at hk
    cases hk
  · exact hk

theorem Sound.replaced {old new i h : Nat} (sound : Sound P s) {x : Node} (hx : s.node? new = some x)
    (detached : s.handle? new = none) (hh : s.handle? old = some h) (hi : s.items.toList[i]? = some old) :
    Sound P (s.replaced old new i h) :=
  ⟨sound.linked.replaced hx detached hh hi, sound.holds.congr fun _ => item?_replaced⟩

theorem leaves_replace (stable : Item.Stable free P) (sound : Sound P s) {old new : Nat} {x : Node}
    (hx : s.node? new = some x) (detached : s.handle? new = none) (e : s.replace old new = .ok t) : Leaves P s t := by
  obtain ⟨i, h, hh, hi, rfl⟩ := replace_eq_ok e
  exact ((sound.replaced hx detached hh hi).changed stable).of_buried (buried_replaced sound.linked hh)

theorem setTarget_eq_ok {h : Handle} (e : s.setTarget n h = .ok t) :
    ∃ x, s.item? n = some (.plain x) ∧ x.hasTarget = true ∧ (h = .finish ∨ (s.named? h).isSome) ∧
      t = (s.modifyItem n fun _ => .plain { x with target := h }).changed := by
  unfold setTarget at e
  split at e
  · next x hx =>
    split at e
    · cases e
    · next has =>
      split at e
      · cases e
      · next known =>
        cases e
        refine ⟨x, hx, by simpa using has, ?_, rfl⟩
        by_cases finish : h = .finish
        · exact .inl finish
        · refine .inr ?_
          cases hn : s.named? h with
          | none => exact absurd ⟨finish, by rw [hn]; rfl⟩ known
          | some k => rfl
  · cases e

theorem leaves_setTarget (stable : Item.Stable free P) (sound : Sound P s) {h : Handle} (e : s.setTarget n h = .ok t) :
    Leaves P s t := by
  obtain ⟨x, hx, -, -, rfl⟩ := setTarget_eq_ok e
  have modified : Sound P (s.modifyItem n fun _ => .plain { x with target := h }) :=
    sound.modifyItem fun _ _ => stable.relinked (x := .plain x) rfl (sound.holds n _ hx)
  exact (modified.changed stable).of_buried (.of_arena_eq rfl)

/-! ## Brackets -/

theorem leaves_openBracket (sound : Sound P s) : Leaves P s s.openBracket :=
  ⟨sound.congr rfl rfl rfl, ⟨fun flat => absurd flat (Nat.succ_ne_zero _), fun flat => absurd flat (Nat.succ_ne_zero _)⟩, .of_arena_eq rfl⟩

theorem closeBracket_eq_ok (e : s.closeBracket = .ok t) : s.depth ≠ 0 ∧ t = changed { s with depth := s.depth - 1 } := by
  unfold closeBracket at e
  split at e
  · cases e
  · next deep =>
    cases e
    exact ⟨deep, rfl⟩

theorem leaves_closeBracket (stable : Item.Stable free P) (sound : Sound P s) (e : s.closeBracket = .ok t) :
    Leaves P s t := by
  obtain ⟨-, rfl⟩ := closeBracket_eq_ok e
  have same : Sound P { s with depth := s.depth - 1 } := sound.congr rfl rfl rfl
  exact (same.changed stable).of_buried (.of_arena_eq rfl)

theorem gives_bracketed {α : Type} {act : Action Sequence α} {a : α} :
    (bracketed act).Gives s a t ↔ ∃ u, act.Gives s.openBracket a u ∧ u.closeBracket = .ok t := by
  unfold bracketed
  simp only [Action.gives_bind, Action.gives_modify, Action.gives_attempt, Action.gives_get, Action.gives_lift,
    Action.gives_set]
  constructor
  · rintro ⟨_, _, rfl, r, u, hact, _, _, ⟨rfl, rfl⟩, v, _, ⟨close, rfl⟩, _, _, rfl, rfl, rfl⟩
    exact ⟨u, hact, close⟩
  · rintro ⟨u, hact, close⟩
    exact ⟨⟨⟩, _, rfl, .ok a, u, hact, u, u, ⟨rfl, rfl⟩, t, u, ⟨close, rfl⟩, ⟨⟩, t, rfl, rfl, rfl⟩

/-! ## Converting tables -/

/-- The instruction that the handle names, if it names one, is `free` to be given another opcode. -/
def Open (free : Instruction → Prop) (s : Sequence) (h : Handle) : Prop :=
  ∀ n x, s.named? h = some n → s.item? n = some (.plain x) → free x

theorem Open.modifyItem {h : Handle} (opened : Open free s h) (n : Nat) {y : Item} (payload : y.isPayload = true) :
    Open free (s.modifyItem n fun _ => y) h := by
  intro m x hm hx
  rw [item?_modifyItem] at hx
  split at hx
  · obtain ⟨_, -, rfl⟩ := Option.map_eq_some_iff.1 hx
    cases payload
  · exact opened m x hm hx

/-- `setSwitch` gives a switch the opcode, and changes nothing else. -/
theorem gives_setSwitch {h : Handle} {op : Opcode} (e : (setSwitch h op).Gives s ⟨⟩ t) : t = s ∨ ∃ n x y,
    s.named? h = some n ∧ s.item? n = some (.plain x) ∧ x.setOpcode op = .ok y ∧ t = s.modifyItem n fun _ => .plain y := by
  unfold setSwitch at e
  simp only [Action.gives_bind, Action.gives_get] at e
  obtain ⟨_, _, ⟨rfl, rfl⟩, e⟩ := e
  split at e
  · next n x hn hx =>
    simp only [Action.gives_bind, Action.gives_lift, Action.gives_modify] at e
    obtain ⟨y, _, ⟨hy, rfl⟩, rfl⟩ := e
    rw [namedNode?, hn, Option.bind_some] at hx
    exact .inr ⟨n, x, y, hn, hx, hy, rfl⟩
  · exact .inl (Action.gives_pure.1 e).2.symm

theorem sound_setSwitch (stable : Item.Stable free P) (sound : Sound P s) {h : Handle} {op : Opcode} (opened : Open free s h)
    (mem : op ∈ Opcode.all) (switch : op.is .switch = true) (e : (setSwitch h op).Gives s ⟨⟩ t) :
    Sound P t ∧ t.depth = s.depth ∧ t.arena = s.arena := by
  rcases gives_setSwitch e with rfl | ⟨n, x, y, hn, item, hy, rfl⟩
  · exact ⟨sound, rfl, rfl⟩
  · refine ⟨sound.modifyItem fun _ _ => ?_, rfl, rfl⟩
    exact stable.opcode (opened n x hn item) mem switch hy (sound.holds n _ item)

/-- The sequence in a bracket with a new table in place of a node. -/
def swapped (s : Sequence) (old i h : Nat) (table : Item) : Sequence :=
  (s.create table).2.openBracket.replaced old s.nodes.size i h

/-- `swapTable` replaces a node by a new table and then sets the opcode of the switch, inside one bracket. -/
theorem gives_swapTable {old : Nat} {table : Item} {op : Opcode} (e : (swapTable old table op).Gives s ⟨⟩ t) : ∃ i h u,
    s.handle? old = some h ∧ s.items.toList[i]? = some old ∧
      (setSwitch (table.owner?.getD .none) op).Gives (s.swapped old i h table) ⟨⟩ u ∧ u.closeBracket = .ok t := by
  unfold swapTable at e
  simp only [Action.gives_bind, Action.gives_get, Action.gives_set, gives_bracketed, Action.gives_lift] at e
  obtain ⟨_, _, ⟨rfl, rfl⟩, _, _, rfl, u, ⟨_, _, ⟨rfl, rfl⟩, v, _, ⟨hv, rfl⟩, _, _, rfl, hu⟩, close⟩ := e
  obtain ⟨i, h, hh, hi, rfl⟩ := replace_eq_ok hv
  -- Inside the bracket nothing is laid out.
  have still : ((s.create table).2.openBracket.replaced old s.nodes.size i h).changed = s.swapped old i h table :=
    if_neg (Nat.succ_ne_zero _)
  change (s.create table).2.handle? old = some h at hh
  rw [handle?_create] at hh
  rw [create_fst, still] at hu
  exact ⟨i, h, u, hh, hi, hu, close⟩

theorem node?_swapping (s : Sequence) (table : Item) :
    (s.create table).2.openBracket.node? s.nodes.size = some { item := table } ∧
      (s.create table).2.openBracket.handle? s.nodes.size = none :=
  ⟨node?_create_self s table, handle?_create_self s table⟩

theorem Open.swapped {k : Handle} (opens : Open free s k) (linked : Linked s s.items.toList) {old i h : Nat} {table : Item}
    (payload : table.isPayload = true) (hh : s.handle? old = some h) (hi : s.items.toList[i]? = some old) :
    Open free (s.swapped old i h table) k := by
  obtain ⟨hx, detached⟩ := node?_swapping s table
  have live : (s.create table).2.openBracket.handle? old = some h := by
    change (s.create table).2.handle? old = _
    rw [handle?_create, hh]
  have opened : Linked (s.create table).2.openBracket (s.create table).2.openBracket.items.toList :=
    (linked.create table).congr (fun _ => rfl) rfl
  have replaced : Linked (s.swapped old i h table) (s.swapped old i h table).items.toList := opened.replaced hx detached live hi
  intro n x hn item
  rw [Sequence.swapped, item?_replaced] at item
  change (s.create table).2.item? n = _ at item
  rw [item?_create] at item
  split at item
  · cases item
    cases payload
  · next ne =>
    refine opens n x ?_ item
    obtain ⟨j, e, hj⟩ := replaced.named?_iff.1 hn
    rw [Sequence.swapped, handle?_replaced hx (by rintro rfl; rw [detached] at live; cases live), if_neg (Ne.symm ne)] at hj
    split at hj
    · cases hj
    · change (s.create table).2.handle? n = _ at hj
      rw [handle?_create] at hj
      exact linked.named?_iff.2 ⟨j, e, hj⟩

/-- What `swapTable` leaves inside its bracket is sound. -/
theorem Sound.swapped (stable : Item.Stable free P) (sound : Sound P s) {old i h : Nat} {table : Item} {op : Opcode}
    (hp : P table) (payload : table.isPayload = true) (opens : Open free s (table.owner?.getD .none))
    (mem : op ∈ Opcode.all) (switch : op.is .switch = true) (hh : s.handle? old = some h)
    (hi : s.items.toList[i]? = some old)
    (e : (setSwitch (table.owner?.getD .none) op).Gives (s.swapped old i h table) ⟨⟩ u) :
    Sound P u ∧ u.depth = s.depth + 1 ∧ Buried s u := by
  obtain ⟨hx, detached⟩ := node?_swapping s table
  have live : (s.create table).2.openBracket.handle? old = some h := by
    change (s.create table).2.handle? old = _
    rw [handle?_create, hh]
  have opened : Sound P (s.create table).2.openBracket := (sound.create hp).congr rfl rfl rfl
  have replaced : Sound P (s.swapped old i h table) := opened.replaced hx detached live hi
  have openAfter := opens.swapped sound.linked payload hh hi
  obtain ⟨switched, depth, arena⟩ := sound_setSwitch stable replaced openAfter mem switch e
  have b₁ : Buried s (s.create table).2.openBracket := .of_arena_eq rfl
  have b₂ : Buried (s.create table).2.openBracket (s.swapped old i h table) := buried_replaced opened.linked live
  exact ⟨switched, depth, (b₁.trans b₂).trans (.of_arena_eq arena)⟩

theorem leaves_swapTable (stable : Item.Stable free P) (sound : Sound P s) {old : Nat} {table : Item} {op : Opcode}
    (hp : P table) (payload : table.isPayload = true) (opened : Open free s (table.owner?.getD .none))
    (mem : op ∈ Opcode.all) (switch : op.is .switch = true) (e : (swapTable old table op).Gives s ⟨⟩ t) :
    Leaves P s t := by
  obtain ⟨i, h, u, hh, hi, hu, close⟩ := gives_swapTable e
  obtain ⟨switched, -, buried⟩ := sound.swapped stable hp payload opened mem switch hh hi hu
  exact (leaves_closeBracket stable switched close).of_buried buried

theorem gives_toSparse (e : (toSparse n).Gives s ⟨⟩ t) : ∃ p op, s.item? n = some (.packed p) ∧
    Opcode.ofName? (ascii "sparse-switch") = some op ∧ (swapTable n (.sparse p.toSparse) op).Gives s ⟨⟩ t := by
  unfold toSparse at e
  simp only [Action.gives_bind, Action.gives_get] at e
  obtain ⟨_, _, ⟨rfl, rfl⟩, e⟩ := e
  split at e
  · next p op hp hop => exact ⟨p, op, hp, hop, e⟩
  · simp at e

theorem gives_toPacked (e : (toPacked n).Gives s ⟨⟩ t) : ∃ table p sorted op, s.item? n = some (.sparse table) ∧
    SparseTable.toPacked.Gives table p sorted ∧ Opcode.ofName? (ascii "packed-switch") = some op ∧
      (swapTable n (.packed p) op).Gives (s.modifyItem n fun _ => .sparse sorted) ⟨⟩ t := by
  unfold toPacked at e
  simp only [Action.gives_bind, Action.gives_get] at e
  obtain ⟨_, _, ⟨rfl, rfl⟩, e⟩ := e
  split at e
  · next table op ht hop =>
    rcases converted : SparseTable.toPacked.apply table with ⟨r, sorted⟩
    simp only [converted, Action.gives_bind, Action.gives_modify, Action.gives_lift] at e
    obtain ⟨_, _, rfl, p, _, ⟨rfl, rfl⟩, e⟩ := e
    exact ⟨table, p, sorted, op, ht, converted, hop, e⟩
  · simp at e

theorem leaves_toSparse (stable : Item.Stable free P) (sound : Sound P s)
    (opened : ∀ p, s.item? n = some (.packed p) → Open free s p.owner) (e : (toSparse n).Gives s ⟨⟩ t) : Leaves P s t := by
  obtain ⟨p, op, hp, hop, e⟩ := gives_toSparse e
  exact leaves_swapTable stable sound (stable.toSparse (sound.holds n _ hp)) rfl (opened p hp)
    (Opcode.mem_all_of_ofName? hop) (Opcode.is_switch_of_sparse op hop) e

theorem leaves_toPacked (stable : Item.Stable free P) (sound : Sound P s)
    (opens : ∀ t, s.item? n = some (.sparse t) → Open free s t.owner) (e : (toPacked n).Gives s ⟨⟩ t) : Leaves P s t := by
  obtain ⟨table, p, sorted, op, ht, converted, hop, e⟩ := gives_toPacked e
  obtain ⟨hp, hsorted⟩ := stable.toPacked converted (sound.holds n _ ht)
  have owner := (SparseTable.gives_toPacked converted).2.1
  have modified : Sound P (s.modifyItem n fun _ => .sparse sorted) := sound.modifyItem fun _ _ => hsorted
  have opened : Open free s p.owner := by
    rw [owner]
    exact opens table ht
  exact (leaves_swapTable stable modified hp rfl (opened.modifyItem n rfl) (Opcode.mem_all_of_ofName? hop)
    (Opcode.is_switch_of_packed op hop) e).of_buried (.of_arena_eq rfl)

end Dalvik.Sequence
