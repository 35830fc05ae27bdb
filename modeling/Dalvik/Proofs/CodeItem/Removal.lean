import Dalvik.Proofs.CodeItem.Attempts

/-!
# Removing an instruction of a code item

Ranges and handlers follow every move of a handle that the instructions record, one after the other.
`Reached` are the code items that decoding, assembling, refreshing and edits make of an empty one.
In each of them an item can be removed, and `removeAt_moves_on` says what then becomes of every
reference.
-/

namespace Dalvik

open Assembly (Body)

/-- The range with moved bounds. -/
def TryItem.moved (f : Handle → Handle) (t : TryItem) : TryItem := { t with first := f t.first, past := f t.past }

/-- The handler with moved handles. -/
def CatchHandler.moved (f : Handle → Handle) (h : CatchHandler) : CatchHandler :=
  { h with pairs := h.pairs.map fun p => { p with handler := f p.handler }, all := f h.all }

theorem CatchHandler.retarget_eq (source dest : Handle) (h : CatchHandler) :
    h.retarget source dest = h.moved (Handle.follow [(source, dest)]) := rfl

theorem CatchHandler.moved_moved (f g : Handle → Handle) (h : CatchHandler) : (h.moved f).moved g = h.moved (g ∘ f) := by
  simp [CatchHandler.moved, Function.comp_def]

theorem Handle.follow_follow (source dest : Handle) (h : Handle) :
    Handle.follow [(source, dest)] (Handle.follow [(source, dest)] h) = Handle.follow [(source, dest)] h := by
  simp only [Handle.follow, List.foldl_cons, List.foldl_nil]
  split <;> simp_all

namespace CodeItem

open Sequence (Filed IsPad Orphan heir)

variable {c d : CodeItem} {n m : Nat}

/-! ## Following -/

theorem value?_foldl_modifySlot {f : CatchHandler → CatchHandler} (idempotent : ∀ h, f (f h) = f h) (slots : List Nat)
    (table : Table CatchHandler) (k : Nat) :
    (slots.foldl (fun t s => t.modifySlot s f) table).value? k =
      if k ∈ slots then (table.value? k).map f else table.value? k := by
  induction slots generalizing table with
  | nil => simp
  | cons s slots ih =>
    rw [List.foldl_cons, ih, Table.value?_modifySlot]
    by_cases e : s = k
    · subst e
      cases table.value? s <;> simp [idempotent]
    · simp [e, Ne.symm e]

theorem order_foldl_modifySlot (f : CatchHandler → CatchHandler) (slots : List Nat) (table : Table CatchHandler) :
    (slots.foldl (fun t s => t.modifySlot s f) table).order = table.order := by
  induction slots generalizing table with
  | nil => rfl
  | cons s slots ih => exact ih _

/-- `d` has the ranges and handlers of `c` with all handles moved by `f`. -/
structure Followed (f : Handle → Handle) (c d : CodeItem) : Prop where
  tries : d.tries = c.tries.map (TryItem.moved f)
  order : d.handlers.order = c.handlers.order
  handlers : ∀ slot ∈ c.handlers.order, d.handlers.value? slot = (c.handlers.value? slot).map (CatchHandler.moved f)

theorem followed_retarget (source dest : Handle) : Followed (Handle.follow [(source, dest)]) c (c.retarget source dest) where
  tries := rfl
  order := order_foldl_modifySlot _ _ _
  handlers slot mem := by
    have twice : ∀ h : CatchHandler, (h.retarget source dest).retarget source dest = h.retarget source dest := by
      intro h
      rw [CatchHandler.retarget_eq, CatchHandler.retarget_eq, CatchHandler.moved_moved]
      congr 1
      funext k
      exact Handle.follow_follow source dest k
    exact (value?_foldl_modifySlot twice _ _ _).trans (if_pos mem)

theorem Followed.trans {f g : Handle → Handle} {e : CodeItem} (hcd : Followed f c d) (hde : Followed g d e) :
    Followed (g ∘ f) c e where
  tries := by
    rw [hde.tries, hcd.tries, List.map_map]
    rfl
  order := hde.order.trans hcd.order
  handlers slot mem := by
    rw [hde.handlers slot (by rwa [hcd.order]), hcd.handlers slot mem, Option.map_map]
    congr 1
    funext h
    exact h.moved_moved f g

/-- Ranges and handlers follow all recorded moves. -/
theorem followed_foldl (moves : List (Handle × Handle)) :
    Followed (Handle.follow moves) c (moves.foldl (fun c m => c.retarget m.1 m.2) c) := by
  induction moves generalizing c with
  | nil =>
    have tries : TryItem.moved (Handle.follow []) = id := rfl
    have handlers : CatchHandler.moved (Handle.follow []) = id := by
      funext h
      simp [CatchHandler.moved, Handle.follow]
    refine ⟨?_, rfl, fun _ _ => ?_⟩
    · rw [tries, List.map_id, List.foldl_nil]
    · rw [handlers, Option.map_id, List.foldl_nil, id]
  | cons m moves ih => exact (followed_retarget m.1 m.2).trans ih

/-! ## Every history -/

/-- Code items that decoding, assembling, refreshing and edits make of an empty one, with what failed attempts have
left. The edits are those of `Sequence.Edit`: in particular, an instruction is only replaced by one that is not in the
list. Ranges, handlers and the header may be changed in any way. -/
inductive Reached : CodeItem → Prop where
  | new (pool : Option Pool) : Reached (new pool)
  | decode {c : CodeItem} (reached : Reached c) (cur : Cursor) : Reached ((decode cur).apply c).2
  | ofBody {c : CodeItem} (reached : Reached c) (body : Body) : Reached ((ofBody body).apply c).2
  | edit {c : CodeItem} {α : Type} (reached : Reached c) (act : Action Sequence α)
      (edit : Sequence.Edit c.code (act.apply c.code).2) : Reached ((onCode act).apply c).2
  | guards {c d : CodeItem} (reached : Reached c) (code : d.code = c.code) : Reached d
  | refresh {c : CodeItem} (reached : Reached c) : Reached (refresh.apply c).2

/-- The instructions are filed under their handles, and no recorded moves are left. -/
structure Settled (c : CodeItem) : Prop where
  filed : Filed c.code
  still : c.code.moves = #[]

theorem enduring_filed : Enduring (fun _ => True) Filed where
  outside _ _ _ _ h := h.congr rfl rfl rfl
  new := .new
  decode cur := Filed.upholds (Sequence.upholds_decode Item.lasting_true cur)
  addElements _ _ := Filed.upholds (Sequence.upholds_addElements Item.lasting_true fun _ _ _ _ _ _ => trivial)
  refresh := Filed.upholds (Sequence.upholds_refresh Item.lasting_true)

theorem Reached.settling (h : Reached c) : Settling Filed c := by
  induction h with
  | new pool => exact ⟨.new _ _, rfl⟩
  | decode _ cur ih => exact upholds_decode enduring_filed cur _ ih
  | ofBody _ body ih => exact upholds_ofBody enduring_filed trivial _ ih
  | edit _ act edit ih => exact .onCode enduring_filed (edit.filed ih.code)
  | guards _ code ih => exact ih.congr code
  | refresh _ ih => exact upholds_refresh enduring_filed _ ih

theorem Reached.settled (h : Reached c) : Settled c := ⟨h.settling.code, h.settling.still⟩

/-! ## Removing -/

/-- Removes the item at a position; ranges and handlers follow. -/
def removeAt (i : Int) : Action CodeItem Nat := onCode do
  let (n, s) ← (← get).removeAt i
  set s
  return n

/-- The handles in branches, switch cases, ranges and handlers. -/
def stored (c : CodeItem) : List Handle :=
  (c.code.items.toList.flatMap fun n => ((c.code.item? n).map Item.references).getD []) ++
    (c.tries.flatMap (fun t => [t.first, t.past]) ++
      c.handlers.values.flatMap fun h => h.all :: h.pairs.map CatchPair.handler)

/-- Every handle that is stored is that of an item in the list, or the end. -/
def Anchored (c : CodeItem) : Prop := ∀ h ∈ c.stored, c.code.Stands h

instance (c : CodeItem) : Decidable c.Anchored := inferInstanceAs (Decidable (∀ h ∈ c.stored, c.code.Stands h))

/-- `d` is the code item `c` after item `n` was removed. -/
structure MovesOn (c : CodeItem) (n : Nat) (d : CodeItem) : Prop where
  mem : n ∈ c.code.items.toList
  gone : n ∉ d.code.items.toList
  /-- Besides `n`, only padding and tables without a switch are removed. -/
  dropped : ∀ m ∈ c.code.items.toList, m ∉ d.code.items.toList → m = n ∨ IsPad c.code m ∨ Orphan c.code n m
  /-- Only padding is added. -/
  added : ∀ m ∈ d.code.items.toList, m ∉ c.code.items.toList → IsPad d.code m
  /-- The items that are left keep their order. -/
  order : d.code.items.toList.filter c.code.items.toList.contains =
    c.code.items.toList.filter d.code.items.toList.contains
  /-- A reference to an item that is left does not change. -/
  named : ∀ h m, c.code.named? h = some m → m ∈ d.code.items.toList →
    c.code.forward d.code.items.toList h = h ∧ d.code.named? h = some m
  /-- A reference to an item that is removed becomes one to the next item that is left, or to the end. -/
  items : ∀ m ∈ d.code.items.toList, ∀ x, c.code.item? m = some x → ∃ y, d.code.item? m = some y ∧
    y.unlinked = x.unlinked ∧ y.references = x.references.map (c.code.forward d.code.items.toList)
  guards : Followed (c.code.forward d.code.items.toList) c d
  anchored : d.Anchored
  /-- A range covers the same of the items that are left. -/
  covers : ∀ t ∈ c.tries, ∀ m ∈ c.code.items.toList, m ∈ d.code.items.toList →
    (d.code.Covers (c.code.forward d.code.items.toList t.first) (c.code.forward d.code.items.toList t.past) m ↔
      c.code.Covers t.first t.past m)

theorem mem_values {h : CatchHandler} :
    h ∈ c.handlers.values ↔ ∃ slot ∈ c.handlers.order, c.handlers.value? slot = some h :=
  List.mem_filterMap

theorem gives_removeAt {i : Int} {s : Sequence} (run : c.code.removeAt i = .ok (n, s)) :
    (removeAt i).Gives c n
      (s.moves.toList.foldl (fun c m => c.retarget m.1 m.2) { c with code := { s with moves := #[] } }) := by
  have inner : (do
      let (n, s) ← (← get).removeAt i
      set s
      return n : Action Sequence Nat).apply c.code = (.ok n, s) := by
    refine (?_ : Action.Gives _ c.code n s)
    simp only [Action.gives_bind, Action.gives_get, Action.gives_lift, Action.gives_set, Action.gives_pure]
    exact ⟨_, _, ⟨rfl, rfl⟩, (n, s), _, ⟨run, rfl⟩, ⟨⟩, s, rfl, rfl, rfl⟩
  unfold removeAt Action.Gives
  rw [apply_onCode, inner]

theorem mem_stored {h : Handle} : h ∈ c.stored ↔
    (∃ m ∈ c.code.items.toList, ∃ x, c.code.item? m = some x ∧ h ∈ x.references) ∨
      (∃ t ∈ c.tries, h = t.first ∨ h = t.past) ∨ ∃ g ∈ c.handlers.values, h = g.all ∨ ∃ p ∈ g.pairs, p.handler = h := by
  simp only [stored, List.mem_append, List.mem_flatMap, List.mem_cons, List.not_mem_nil, or_false, List.mem_map]
  refine or_congr (exists_congr fun m => and_congr_right fun _ => ?_) Iff.rfl
  cases c.code.item? m <;> simp

theorem mem_stored_of_moved {f : Handle → Handle}
    (items : ∀ m ∈ d.code.items.toList, ∀ y, d.code.item? m = some y → ∀ h ∈ y.references,
      h = .none ∨ ∃ k ∈ c.stored, h = f k)
    (guards : Followed f c d) {h : Handle} (mem : h ∈ d.stored) : h = .none ∨ ∃ k ∈ c.stored, h = f k := by
  rcases mem_stored.1 mem with ⟨m, hm, y, hy, mem⟩ | ⟨t, ht, mem⟩ | ⟨g, hg, mem⟩
  · exact items m hm y hy h mem
  · rw [guards.tries] at ht
    obtain ⟨t, old, rfl⟩ := List.mem_map.1 ht
    rcases mem with rfl | rfl
    · exact .inr ⟨t.first, mem_stored.2 (.inr (.inl ⟨t, old, .inl rfl⟩)), rfl⟩
    · exact .inr ⟨t.past, mem_stored.2 (.inr (.inl ⟨t, old, .inr rfl⟩)), rfl⟩
  · obtain ⟨slot, listed, value⟩ := mem_values.1 hg
    rw [guards.order] at listed
    rw [guards.handlers slot listed] at value
    obtain ⟨g, old, rfl⟩ := Option.map_eq_some_iff.1 value
    have old : g ∈ c.handlers.values := mem_values.2 ⟨slot, listed, old⟩
    rcases mem with rfl | ⟨p, hp, rfl⟩
    · exact .inr ⟨g.all, mem_stored.2 (.inr (.inr ⟨g, old, .inl rfl⟩)), rfl⟩
    · obtain ⟨q, hq, rfl⟩ := List.mem_map.1 hp
      exact .inr ⟨q.handler, mem_stored.2 (.inr (.inr ⟨g, old, .inr ⟨q, hq, rfl⟩⟩)), rfl⟩

/-- Ranges and handlers follow a removal from the instructions. -/
theorem movesOn_of_removed {s : Sequence} (settled : Settled c) (anchored : c.Anchored) (removed : c.code.Removed n s)
    (code : d.code = { s with moves := #[] }) (guards : Followed (Handle.follow s.moves.toList) c d) : MovesOn c n d := by
  obtain ⟨filed, still⟩ := settled
  have items : d.code.items = s.items := by rw [code]
  have item? : d.code.item? = s.item? := by rw [code]; rfl
  have named? : d.code.named? = s.named? := by rw [code]; rfl
  have stands : d.code.Stands = s.Stands := by rw [code]; rfl
  have covers : d.code.Covers = s.Covers := by rw [code]; rfl
  have isPad : IsPad d.code = IsPad s := by rw [code]; rfl
  have follow : Handle.follow s.moves.toList = c.code.forward d.code.items.toList := by
    obtain ⟨new, moves, follow⟩ := removed.sheds.moves
    rw [still, Array.empty_append] at moves
    rw [moves, items]
    exact funext follow
  rw [follow] at guards
  have kept : ∀ m ∈ d.code.items.toList, ∀ x, c.code.item? m = some x → ∃ y, d.code.item? m = some y ∧
      y.unlinked = x.unlinked ∧ y.references = x.references.map (c.code.forward d.code.items.toList) := by
    rw [items, item?]
    exact fun m left x hx => removed.references hx left
  have fresh : ∀ m ∈ d.code.items.toList, m ∉ c.code.items.toList →
      ∃ y, d.code.item? m = some y ∧ y.references = [.none] := by
    rw [items, item?]
    exact removed.sheds.fresh
  have first : ∀ t ∈ c.tries, c.code.Stands t.first := fun t ht =>
    anchored t.first (mem_stored.2 (.inr (.inl ⟨t, ht, .inl rfl⟩)))
  have past : ∀ t ∈ c.tries, c.code.Stands t.past := fun t ht =>
    anchored t.past (mem_stored.2 (.inr (.inl ⟨t, ht, .inr rfl⟩)))
  refine {
    mem := removed.mem
    gone := by
      rw [items]
      exact removed.gone
    dropped := by
      rw [items]
      exact removed.dropped
    added := by
      rw [items, isPad]
      exact fun m hm new => removed.added filed hm new
    order := by
      rw [items]
      exact removed.sheds.order
    named := by
      rw [items, named?]
      exact fun h m hm left => ⟨Sequence.Linked.forward_eq filed hm left, removed.named? filed hm left⟩
    items := kept
    guards
    anchored := fun h mem => ?anchored
    covers := by
      rw [items, covers]
      exact fun t ht m hm left => removed.covers filed (first t ht) (past t ht) hm left }
  have moved := mem_stored_of_moved (fun m hm y hy h mem => ?_) guards mem
  · rw [stands]
    rcases moved with rfl | ⟨k, hk, rfl⟩
    · exact .inr (.inl rfl)
    · rw [items]
      exact removed.stands filed (anchored k hk)
  · by_cases old : m ∈ c.code.items.toList
    · obtain ⟨x, hx⟩ := Sequence.Linked.node?_of_mem filed old
      obtain ⟨y', hy', -, references⟩ := kept m hm x.item (Sequence.item?_of_node? hx)
      rw [hy] at hy'
      cases hy'
      rw [references] at mem
      obtain ⟨k, hk, rfl⟩ := List.mem_map.1 mem
      exact .inr ⟨k, mem_stored.2 (.inl ⟨m, old, x.item, Sequence.item?_of_node? hx, hk⟩), rfl⟩
    · obtain ⟨y', hy', references⟩ := fresh m hm old
      rw [hy] at hy'
      cases hy'
      rw [references] at mem
      exact .inl (List.mem_singleton.1 mem)

/-- In every `Reached` code item whose references are `Anchored`, the item at a position can be removed, and the
result is as `MovesOn` says. -/
theorem removeAt_moves_on {i n : Nat} (reached : Reached c) (anchored : c.Anchored) (here : c.code.items[i]? = some n) :
    ∃ d, (removeAt i).Gives c n d ∧ MovesOn c n d := by
  obtain ⟨s, run⟩ := Sequence.exists_removeAt here
  have removed := Sequence.removed_of_removeAt reached.settled.filed run
  refine ⟨_, gives_removeAt run, movesOn_of_removed reached.settled anchored removed (code_foldl _) ?_⟩
  -- Apart from the instructions nothing has changed before ranges and handlers follow.
  obtain ⟨tries, order, handlers⟩ :=
    followed_foldl (c := { c with code := { s with moves := #[] } }) s.moves.toList
  exact ⟨tries, order, handlers⟩

/-- A switch and a return in a range that ends in front of the table of the switch. Without the switch the table is
removed too, and the range consists of the return. -/
theorem removeAt_moves_on_switch :
    let cur := Cursor.ofBytes [1, 0, 0, 0, 0, 0, 1, 0, 0, 0, 0, 0, 10, 0, 0, 0,
      0x2b, 0, 4, 0, 0, 0, 0x0e, 0, 0, 1, 1, 0, 0, 0, 0, 0, 3, 0, 0, 0,
      0, 0, 0, 0, 4, 0, 1, 0, 1, 0, 3]
    let c := ((decode cur).apply (new none)).2
    ∃ d, Reached c ∧ c.Anchored ∧ c.code.items = #[0, 1, 2] ∧ c.tries.map (fun t => (t.first, t.past)) = [(0, 2)] ∧
      (removeAt 0).Gives c 0 d ∧ MovesOn c 0 d ∧ d.code.items = #[1] ∧
      d.tries.map (fun t => (t.first, t.past)) = [(1, .finish)] := by
  intro cur c
  have reached : Reached c := .decode (.new none) cur
  obtain ⟨anchored, items, tries⟩ : c.Anchored ∧ c.code.items = #[0, 1, 2] ∧
      c.tries.map (fun t => (t.first, t.past)) = [(0, 2)] := by decide +kernel
  have after : ((removeAt 0).apply c).2.code.items = #[1] ∧
      ((removeAt 0).apply c).2.tries.map (fun t => (t.first, t.past)) = [(1, .finish)] := by decide +kernel
  obtain ⟨d, run, moves⟩ := removeAt_moves_on (i := 0) reached anchored (n := 0) (by rw [items]; rfl)
  have state : ((removeAt 0).apply c).2 = d := congrArg Prod.snd run
  rw [state] at after
  exact ⟨d, reached, anchored, items, tries, run, moves, after⟩

end CodeItem

end Dalvik
