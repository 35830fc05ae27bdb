import Dalvik.Proofs.Sequence.Invariant

/-!
# Items keep their order

`dropUnclaimed` keeps the other items in order, and `layout` keeps the order of everything that is
not padding. So the last item of some kind is the same before and after.
-/

namespace Dalvik.Sequence

variable {s : Sequence} {n m : Nat} {ns : List Nat} {f : Nat → Option Nat}

theorem lastTo_append (f : Nat → Option Nat) (m : Nat) (ns ks : List Nat) :
    lastTo f m (ns ++ ks) = (lastTo f m ks).or (lastTo f m ns) := by
  induction ns with
  | nil => simp [lastTo]
  | cons n ns ih => rw [List.cons_append, lastTo, lastTo, ih, Option.or_assoc]

/-- `lastTo` only depends on the nodes that lead to `m`. -/
theorem lastTo_filter {keep : Nat → Bool} (h : ∀ n ∈ ns, f n = some m → keep n = true) :
    lastTo f m (ns.filter keep) = lastTo f m ns := by
  induction ns with
  | nil => rfl
  | cons n ns ih =>
    have tail := ih fun k hk => h k (List.mem_cons_of_mem _ hk)
    cases kept : keep n with
    | true => rw [List.filter_cons_of_pos kept, lastTo, lastTo, tail]
    | false =>
      have elsewhere : f n ≠ some m := fun e => by rw [h n List.mem_cons_self e] at kept; cases kept
      rw [List.filter_cons_of_neg (by rw [kept]; exact Bool.false_ne_true), lastTo, tail, if_neg elsewhere, Option.or_none]

/-! ## Dropping tables -/

theorem ownerOf_forget (next : Handle) :
    (((s.forget n next).node? m).bind fun x => x.item.owner?) = (s.node? m).bind fun x => x.item.owner? := by
  have view : ∀ u : Sequence, ((u.node? m).bind fun x => x.item.owner?) = (u.item? m).bind Item.owner? := by
    intro u
    unfold item?
    cases u.node? m <;> rfl
  rw [view, view, item?_forget]
  split
  · cases s.item? m with
    | none => rfl
    | some x => exact owner?_retarget x _ _
  · rfl

/-- `dropUnclaimed` drops the tables that have no owner at the beginning. -/
theorem dropUnclaimed_items (had : List Nat) (kept : Array Nat) (ns : List Nat) (s : Sequence) :
    (dropUnclaimed had kept ns s).1.toList = kept.toList ++ ns.filter fun n =>
      !(decide (((s.node? n).bind fun x => x.item.owner?).getD 0 < 0) && had.contains n) := by
  induction ns generalizing kept s with
  | nil => simp [dropUnclaimed]
  | cons n ns ih =>
    rw [dropUnclaimed]
    split
    · next gone =>
      rw [ih, List.filter_cons_of_neg (by rw [gone]; exact Bool.false_ne_true)]
      simp only [ownerOf_forget]
    · next stays =>
      rw [ih, List.filter_cons_of_pos (by rw [Bool.eq_false_iff.2 stays]; rfl), Array.toList_push, List.append_assoc, List.singleton_append]

/-! ## Laying out -/

/-- The node is an item that is not padding. -/
def solid (s : Sequence) (n : Nat) : Bool := (s.item? n).any fun x => !x.isPadding

theorem solid_eq_false_of_isPad {t : Sequence} (h : Evolves s t) (pad : IsPad t n) : s.solid n = false := by
  obtain ⟨y, hy, padding⟩ := pad
  unfold solid
  cases hx : s.item? n with
  | none => rfl
  | some x =>
    obtain ⟨y', hy', e⟩ := h.kept n x hx
    rw [hy] at hy'
    cases hy'
    rw [← Item.unlinked_isPadding, e, Item.unlinked_isPadding] at padding
    rw [Option.any_some, padding, Bool.not_true]

namespace Layout

variable {l : Layout} {rest : List Nat}

theorem Valid.evolves (h : Valid s l rest) : Evolves s l.sequence := evolves_of_adjusts h.adjusts

/-- `placePad` only adds padding. -/
theorem Valid.placePad_order (h : Valid s l rest) :
    l.placePad.placed.toList.filter s.solid = l.placed.toList.filter s.solid := by
  have soft : ∀ p, s.solid p = false → (l.placed.push p).toList.filter s.solid = l.placed.toList.filter s.solid := by
    intro p hp
    rw [Array.toList_push, List.filter_append, List.filter_cons_of_neg (by rw [hp]; exact Bool.false_ne_true), List.filter_nil,
      List.append_nil]
  cases hp : l.pad with
  | some p =>
    simp only [Layout.placePad, hp]
    exact soft p (solid_eq_false_of_isPad h.evolves (h.pad p (by rw [hp]; exact Option.mem_some_self p)))
  | none =>
    simp only [Layout.placePad, hp]
    refine soft _ ?_
    have absent : s.item? l.sequence.nodes.size = none := by
      rw [← Option.not_isSome_iff_eq_none]
      intro there
      have := h.evolves.persists _ there
      simp [item?] at this
    rw [create_fst, solid, absent, Option.any_none]

theorem Valid.step_order (h : Valid s l (n :: rest)) :
    (l.step n).placed.toList.filter s.solid = (l.placed.toList ++ [n]).filter s.solid := by
  obtain ⟨y, hy⟩ := h.linked.node?_of_mem (n := n) (by simp)
  have item := item?_of_node? hy
  rw [List.filter_append]
  unfold Layout.step
  simp only [hy]
  split
  · next padding =>
    have soft := solid_eq_false_of_isPad h.evolves ⟨y.item, item, padding⟩
    rw [dropPad_placed, List.filter_cons_of_neg (by rw [soft]; exact Bool.false_ne_true), List.filter_nil, List.append_nil]
  · rw [dropPad_placed, Array.toList_push, List.filter_append]
    congr 1
    split
    · exact h.placePad_order
    · rfl

theorem Valid.foldl_order (h : Valid s l rest) :
    (rest.foldl Layout.step l).placed.toList.filter s.solid = (l.placed.toList ++ rest).filter s.solid := by
  induction rest generalizing l with
  | nil => rw [List.foldl_nil, List.append_nil]
  | cons n rest ih =>
    rw [List.foldl_cons, ih h.step, List.filter_append, h.step_order, ← List.filter_append, List.append_assoc, List.singleton_append]

end Layout

/-- `layout` keeps the order of everything that is not padding. -/
theorem Linked.layout_order (linked : Linked s s.items.toList) :
    s.layout.items.toList.filter s.solid = s.items.toList.filter s.solid := by
  have start : Layout.Valid s { sequence := s } s.items.toList := ⟨by simpa using linked, rfl, by simp, .refl⟩
  rw [layout_eq]
  simpa using start.foldl_order

end Dalvik.Sequence
