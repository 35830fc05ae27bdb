import Dalvik.Proofs.Sequence.Presence

/-!
# Replacing and inserting

In every sequence that `Edit`s lead to, each item occurs once and has a handle of its own (`EachOnce`). `replace` keeps
this as long as the new node is not in the sequence (`replace_of_edits`). It does not check that, and with another item of
the sequence it leaves that item there twice (`Filed.replace_by_item`). A node that is inserted is found under the handle
that `insert` returns (`insert_of_edits`), except for padding that is not needed there and for a switch table that had
an owner, which the layout drops (`insert_drops`).
-/

namespace Dalvik.Sequence

open Relation (ReflTransGen)

variable {s t : Sequence} {old new n k j : Nat} {i : Int}

theorem filed_of_edits {size : Option Cell} {pool : Option Pool} (edits : ReflTransGen Edit { size, pool } s) : Filed s := by
  induction edits with
  | refl => exact .new size pool
  | tail _ edit ih => exact edit.filed ih

theorem Filed.changed (h : Filed s) : Filed s.changed := (h.sound.settled Item.lasting_true).linked

/-- Every item is there once, and every handle that names an item names one of its own. -/
structure EachOnce (s : Sequence) : Prop where
  distinct : s.items.toList.Nodup
  named : ∀ n, n ∈ s.items.toList ↔ ∃ h, s.named? h = some n
  own : ∀ h k n, s.named? h = some n → s.named? k = some n → h = k

theorem Filed.eachOnce (filed : Filed s) : EachOnce s where
  distinct := filed.nodup
  named _ := ⟨fun hn => ⟨_, Linked.named?_handleOf filed hn⟩, fun ⟨_, hh⟩ => Linked.mem_of_named? filed hh⟩
  own _ _ _ hh hk := (Linked.eq_handleOf_of_named? filed hh).trans (Linked.eq_handleOf_of_named? filed hk).symm

/-! ## Replacing -/

theorem replace_of_detached {x : Node} (hx : s.node? old = some x) (detached : s.handle? old = none) :
    s.replace old new = fail (.notInList x.text) := by
  rw [handle?, hx, Option.bind_some] at detached
  simp only [replace, hx, detached]

/-- What has a handle is found among the items. -/
theorem Filed.exists_replaced (filed : Filed s) (hk : s.handle? old = some k) :
    ∃ i, s.items.toList[i]? = some old ∧ ∀ new, s.replace old new = .ok (s.replaced old new i k).changed := by
  obtain ⟨x, hx⟩ := node?_isSome_of_handle? hk
  have mem : old ∈ s.items.toList := (filed.mem_iff old).2 (by rw [hk, Option.isSome_some])
  have position : s.indexOf? old = some (s.items.toList.idxOf old) := indexOf?_eq_idxOf mem
  have handle : x.handle = some k := by rwa [handle?, hx, Option.bind_some] at hk
  refine ⟨_, List.getElem?_idxOf mem, fun new => ?_⟩
  simp only [replace, hx, handle, position]
  rfl

theorem handle?_replaced_self {i : Nat} (hk : s.handle? n = some k) (m : Nat) :
    (s.replaced n n i k).handle? m = s.handle? m := by
  unfold replaced handle?
  rw [node?_modifyNode, node?_modifyNode]
  change Option.bind (if n = m then Option.map _ (if n = m then Option.map _ (s.node? m) else s.node? m)
    else if n = m then Option.map _ (s.node? m) else s.node? m) Node.handle = _
  by_cases e : n = m
  · subst e
    obtain ⟨x, hx⟩ := node?_isSome_of_handle? hk
    rw [handle?, hx, Option.bind_some] at hk
    simp [hx, hk]
  · simp [e]

theorem setIfInBounds_self {α : Type} {xs : Array α} {i : Nat} {x : α} (h : xs[i]? = some x) : xs.setIfInBounds i x = xs := by
  obtain ⟨lt, rfl⟩ := Array.getElem?_eq_some_iff.1 h
  rw [Array.setIfInBounds, dif_pos lt, Array.set_getElem_self]

/-- An item that takes its own place is where it was. -/
theorem Filed.replaced_self {i : Nat} (filed : Filed s) (hk : s.handle? n = some k) (hi : s.items.toList[i]? = some n) :
    Filed (s.replaced n n i k) := by
  have items : (s.replaced n n i k).items = s.items := setIfInBounds_self (by rw [← Array.getElem?_toList, hi])
  have arena : (s.replaced n n i k).arena = s.arena := setIfInBounds_self ((filed.arena_iff n k).1 hk)
  rw [Filed, items]
  exact Linked.congr filed (handle?_replaced_self hk) arena

/-- In a sequence that `Edit`s lead to, `replace old new` fails if `old` is not an item. If it is one, and `new` is `old`
itself or not in the sequence, then `replace` succeeds and every item occurs once, with a handle of its own (`EachOnce`). -/
theorem replace_of_edits {size : Option Cell} {pool : Option Pool} (edits : ReflTransGen Edit { size, pool } s)
    {x y : Node} (hx : s.node? old = some x) (hy : s.node? new = some y) :
    (s.handle? old = none → s.replace old new = fail (.notInList x.text)) ∧
      ((s.handle? old).isSome → new = old ∨ s.handle? new = none → ∃ t, s.replace old new = .ok t ∧ EachOnce t) := by
  have filed := filed_of_edits edits
  refine ⟨replace_of_detached hx, fun there other => ?_⟩
  obtain ⟨k, hk⟩ := Option.isSome_iff_exists.1 there
  obtain ⟨i, hi, run⟩ := filed.exists_replaced hk
  have replaced : Filed (s.replaced old new i k) := by
    rcases other with rfl | detached
    · exact filed.replaced_self hk hi
    · exact Linked.replaced filed hy detached hk hi
  exact ⟨_, run new, replaced.changed.eachOnce⟩

/-- A no-operation and a return. -/
def twoItems : Sequence := (append (append {} (.plain (.blank .nop))).2 (.plain (.blank ((Opcode.ofValue? 0x0e).getD .nop)))).2

theorem edits_twoItems : ReflTransGen Edit {} twoItems :=
  .tail (.single (.push {} _)) (.push _ _)

theorem edits_switched : ReflTransGen Edit { size := some (.int 10) } switched := .single (.decode _ switchCode)

/-- A new no-operation in the place of the one that stands before a return. -/
theorem replace_of_edits_nop : ∃ s t x y, ReflTransGen Edit {} s ∧ s.node? 0 = some x ∧ s.node? 2 = some y ∧
    (s.handle? 0).isSome ∧ s.handle? 2 = none ∧ s.replace 0 2 = .ok t ∧ EachOnce t := by
  let s := (twoItems.create (.plain (.blank .nop))).2
  have edits : ReflTransGen Edit {} s := edits_twoItems.tail (.create _ _)
  have there : (s.node? 0).isSome ∧ (s.node? 2).isSome ∧ (s.handle? 0).isSome ∧ s.handle? 2 = none := by decide +kernel
  obtain ⟨first, second, live, detached⟩ := there
  obtain ⟨x, hx⟩ := Option.isSome_iff_exists.1 first
  obtain ⟨y, hy⟩ := Option.isSome_iff_exists.1 second
  obtain ⟨t, run, eachOnce⟩ := (replace_of_edits edits hx hy).2 live (.inr detached)
  exact ⟨s, t, x, y, edits, hx, hy, live, detached, run, eachOnce⟩

/-- Inside a bracket, `replace old new` succeeds also when `new` is another item of the sequence. Then `new` is in the
sequence twice, and the handles of both items name it. -/
theorem Filed.replace_by_item (filed : Filed s) (bracket : s.depth ≠ 0) (hk : s.handle? old = some k)
    (hj : s.handle? new = some j) (ne : old ≠ new) :
    ∃ t, s.replace old new = .ok t ∧ ¬ t.items.toList.Nodup ∧ t.named? k = some new ∧ t.named? j = some new := by
  obtain ⟨i, hi, run⟩ := filed.exists_replaced hk
  obtain ⟨m, hm, -⟩ := filed.exists_replaced hj
  obtain ⟨inside, atOld⟩ := Array.getElem?_eq_some_iff.1 ((filed.arena_iff old k).1 hk)
  have atNew : s.arena[j]? = some (some new) := (filed.arena_iff new j).1 hj
  have apart : k ≠ j := by
    rintro rfl
    rw [Array.getElem?_eq_getElem inside, atOld] at atNew
    exact ne (Option.some.inj (Option.some.inj atNew))
  have unlaid : (s.replaced old new i k).changed = s.replaced old new i k := if_neg bracket
  have items : (s.replaced old new i k).items.toList = s.items.toList.set i new := Array.toList_setIfInBounds
  have arena : (s.replaced old new i k).arena = s.arena.setIfInBounds k (some new) := rfl
  refine ⟨_, run new, ?_, ?_, ?_⟩
  · rw [unlaid, items]
    intro nodup
    have lt : i < s.items.toList.length := (List.getElem?_eq_some_iff.1 hi).1
    have other : i ≠ m := by
      rintro rfl
      exact ne (Option.some.inj (hi.symm.trans hm))
    refine other ((List.getElem?_inj (by rwa [List.length_set]) nodup).1 ?_)
    rw [List.getElem?_set_self lt, List.getElem?_set_ne other, hm]
  · rw [unlaid, named?_natCast, arena, Array.getElem?_setIfInBounds_self, if_pos inside]
    rfl
  · rw [unlaid, named?_natCast, arena, Array.getElem?_setIfInBounds_ne apart, atNew]
    rfl

-- The same happens outside a bracket.
example : (twoItems.replace 0 1).toOption.map (fun t => (t.items.toList, t.named? 0, t.named? 1)) =
    some ([1, 1], some 1, some 1) := by decide +kernel

/-! ## Inserting -/

/-- The node that `insert` registers gets the next handle. -/
theorem handle?_placed {x : Node} (hx : s.node? n = some x) (detached : s.handle? n = none) (i : Nat) :
    ({ s.register n with items := (s.register n).items.insertIdxIfInBounds i n } : Sequence).handle? n = some s.arena.size := by
  change (s.register n).handle? n = _
  rw [handle?_register detached hx, if_pos rfl]

theorem insert_of_detached (detached : s.handle? n = none) (low : 0 ≤ i) (high : i ≤ s.items.size) :
    s.insert i n = .ok (s.arena.size, s.place i.toNat n) := by
  have outside : ¬ (i < 0 ∨ (s.items.size : Int) < i) := by omega
  rw [handle?] at detached
  rw [insert, detached, Option.isSome_none, if_neg Bool.false_ne_true, if_neg outside]

/-- In a sequence that `Edit`s lead to, outside a bracket: `insert i n` succeeds at every position `i` in the list for
a node `n` that is not in the sequence, and the returned handle names the node, unless it is padding or a table with
an owner. -/
theorem insert_of_edits {size : Option Cell} {pool : Option Pool} (edits : ReflTransGen Edit { size, pool } s)
    (flat : s.depth = 0) {x : Node} (hx : s.node? n = some x) (detached : s.handle? n = none)
    (solid : x.item.isPadding = false) (unowned : ∀ o, x.item.owner? = some o → o < 0) (low : 0 ≤ i) (high : i ≤ s.items.size) :
    ∃ h t, s.insert i n = .ok (h, t) ∧ t.named? h = some n ∧ n ∈ t.items.toList := by
  have filed := filed_of_edits edits
  have inside : i.toNat ≤ s.items.size := by omega
  have placed : Filed { s.register n with items := (s.register n).items.insertIdxIfInBounds i.toNat n } :=
    Linked.placed filed hx detached inside
  have handle := handle?_placed hx detached i.toNat
  have still : s.place i.toNat n =
      ({ s.register n with items := (s.register n).items.insertIdxIfInBounds i.toNat n } : Sequence).relink :=
    if_pos (by simpa using flat)
  have item : ({ s.register n with items := (s.register n).items.insertIdxIfInBounds i.toNat n } : Sequence).item? n =
      some x.item := by
    change (s.register n).item? n = _
    rw [item?_register, item?_of_node? hx]
  have run := insert_of_detached detached low high
  rw [still] at run
  generalize ({ s.register n with items := (s.register n).items.insertIdxIfInBounds i.toNat n } : Sequence) = u at *
  have mem : n ∈ u.items.toList := (placed.mem_iff n).2 (by rw [handle, Option.isSome_some])
  have stays := Linked.mem_relink_of_unowned placed item solid unowned mem
  -- What is there has the handle that it had.
  have after := Linked.relink placed
  obtain ⟨k, hk⟩ := after.1.handle?_of_mem stays
  obtain rfl : s.arena.size = k := by
    have before := (Linked.relink_evolves placed).handles n k (by rw [item, Option.isSome_some]) hk
    rwa [handle, Option.some.injEq] at before
  exact ⟨_, _, run, after.1.named?_iff.2 ⟨_, rfl, hk⟩, stays⟩

/-- The first of two items is removed and inserted again, behind the other. -/
theorem insert_of_edits_again : ∃ s x h t, ReflTransGen Edit {} s ∧ s.depth = 0 ∧ s.items.toList = [1] ∧
    s.node? 0 = some x ∧ s.handle? 0 = none ∧ x.item.isPadding = false ∧ (∀ o, x.item.owner? = some o → o < 0) ∧
    s.insert 1 0 = .ok (h, t) ∧ t.named? h = some 0 ∧ 0 ∈ t.items.toList := by
  have removal : (twoItems.removeAt 0).toOption.map (fun r =>
      (r.1, r.2.depth, r.2.items.toList, r.2.handle? 0, r.2.item? 0)) =
      some (0, 0, [1], none, some (.plain (.blank .nop))) := by decide +kernel
  cases run : twoItems.removeAt 0 with
  | error e =>
    rw [run] at removal
    cases removal
  | ok r =>
    obtain ⟨n, s⟩ := r
    rw [run] at removal
    simp only [Except.toOption, Option.map_some, Option.some.injEq, Prod.mk.injEq] at removal
    obtain ⟨-, flat, items, detached, item⟩ := removal
    obtain ⟨x, hx, same⟩ := item?_eq_some.1 item
    have edits : ReflTransGen Edit {} s := edits_twoItems.tail (.removeAt run)
    have solid : x.item.isPadding = false := by rw [same]; rfl
    have unowned : ∀ o, x.item.owner? = some o → o < 0 := by
      rw [same]
      intro o owner
      cases owner
    have inside : (1 : Int) ≤ s.items.size := by rw [← Array.length_toList, items]; decide
    obtain ⟨h, t, inserted, named, mem⟩ := insert_of_edits edits flat hx detached solid unowned (by decide) inside
    exact ⟨s, x, h, t, edits, flat, items, hx, detached, solid, unowned, inserted, named, mem⟩

/-- `insert` fails for a position behind the end of the list. And a table that had a switch, or padding that is not
needed, is dropped again when it was removed and is inserted. -/
theorem insert_drops : ReflTransGen Edit {} (create {} (.plain (.blank .nop))).2 ∧
    ((create {} (.plain (.blank .nop))).2.insert 1 0).toOption.isNone ∧
    ReflTransGen Edit { size := some (.int 10) } switched ∧
    ((switched.removeAt 2).toOption.bind fun r => (r.2.insert 2 r.1).toOption.map fun q =>
      (r.1, q.1, q.2.named? q.1, q.2.items.toList)) = some (2, 3, none, [0, 1]) ∧
    ReflTransGen Edit { size := some (.int 6) } aligned ∧
    ((aligned.removeAt 1).toOption.bind fun r => (r.2.insert 0 r.1).toOption.map fun q =>
      (r.1, q.1, q.2.named? q.1, q.2.items.toList)) = some (1, 4, none, [0, 3, 2]) :=
  ⟨.single (.create _ _), by decide +kernel, edits_switched, by decide +kernel, .single (.decode _ alignedCode),
    by decide +kernel⟩

end Dalvik.Sequence
