import Dalvik.Proofs.Sequence.Handles
import Mathlib.Logic.Relation

/-!
# Layout

`Laid s a xs b` says that the nodes `xs` are in a row from address `a` to address `b`, with payloads
at even addresses. `layout` changes a sequence only by a few primitive adjustments: it sets an
address, forgets padding, or adds new padding. `layout_adjusts` says this once, and what a layout
keeps is shown for each adjustment. `Linked.layout` says that the result is linked and in a row.
-/

namespace Dalvik.Sequence

open Relation (ReflTransGen)

variable {s t : Sequence} {xs ys : List Nat} {n : Nat} {a b c : Nat}

/-! ## Nodes in a row -/

/-- The nodes are in a row from one address to another, payloads at even addresses. -/
def Laid (s : Sequence) : Nat → List Nat → Nat → Prop
  | a, [], b => a = b
  | a, n :: xs, b =>
    ∃ x, s.shape? n = some ((a : Int), x) ∧ (x.isPayload = true → a % 2 = 0) ∧ Laid s (a + x.extent) xs b

theorem Laid.congr (h : Laid s a xs b) (shapes : ∀ n ∈ xs, t.shape? n = s.shape? n) : Laid t a xs b := by
  induction xs generalizing a with
  | nil => exact h
  | cons n xs ih =>
    obtain ⟨x, hx, even, rest⟩ := h
    refine ⟨x, ?_, even, ih rest fun m hm => shapes m (List.mem_cons_of_mem _ hm)⟩
    rw [shapes n List.mem_cons_self, hx]

theorem laid_append : Laid s a (xs ++ ys) c ↔ ∃ b, Laid s a xs b ∧ Laid s b ys c := by
  induction xs generalizing a with
  | nil => simp [Laid]
  | cons n xs ih =>
    simp only [List.cons_append, Laid, ih]
    constructor
    · rintro ⟨x, hx, even, b, hxs, hys⟩
      exact ⟨b, ⟨x, hx, even, hxs⟩, hys⟩
    · rintro ⟨b, ⟨x, hx, even, hxs⟩, hys⟩
      exact ⟨x, hx, even, b, hxs, hys⟩

theorem Laid.snoc {x : Item} (h : Laid s a xs b) (hx : s.shape? n = some ((b : Int), x))
    (even : x.isPayload = true → b % 2 = 0) : Laid s a (xs ++ [n]) (b + x.extent) :=
  laid_append.2 ⟨b, h, x, hx, even, rfl⟩

/-! ## Adjustments -/

/-- One primitive change. Only nodes with `gone` are forgotten, in favour of a handle that was given out. -/
inductive Adjust (gone : Sequence → Nat → Prop) : Sequence → Sequence → Prop where
  | forget {s : Sequence} {n : Nat} {xs : List Nat} (next : Handle) (linked : Linked s (n :: xs))
      (hn : gone s n) (issued : next < s.arena.size) : Adjust gone s (s.forget n next)
  | pad {s : Sequence} {xs : List Nat} (linked : Linked s xs) :
      Adjust gone s ((s.create (.plain .padding)).2.register s.nodes.size)
  | move (s : Sequence) (n : Nat) (a : Int) : Adjust gone s (s.setAddress n a)

/-- The node is padding. -/
def IsPad (s : Sequence) (n : Nat) : Prop := ∃ x, s.item? n = some x ∧ x.isPadding = true

theorem isPad_iff_shape? : IsPad s n ↔ ∃ a x, s.shape? n = some (a, x) ∧ x.isPadding = true := by
  unfold IsPad item? shape?
  cases s.node? n <;> simp [Node.shape]

namespace Layout

/-- What holds of a layout in progress while the nodes `rest` are still to come. -/
structure Valid (s : Sequence) (l : Layout) (rest : List Nat) : Prop where
  linked : Linked l.sequence (l.placed.toList ++ l.pad.toList ++ rest)
  laid : Laid l.sequence 0 l.placed.toList l.address
  pad : ∀ p ∈ l.pad, IsPad l.sequence p
  adjusts : ReflTransGen (Adjust IsPad) s l.sequence

variable {l : Layout} {rest : List Nat}

theorem Valid.dropPad (h : Valid s l rest) (next : Handle) (issued : next < l.sequence.arena.size) :
    Valid s (l.dropPad next) rest := by
  unfold Layout.dropPad
  split
  · next p hp =>
    have linked : Linked l.sequence (p :: (l.placed.toList ++ rest)) := by
      refine h.linked.perm ?_
      rw [hp, Option.toList_some, List.append_assoc]
      exact List.perm_middle
    have laid : Laid (l.sequence.forget p next) 0 l.placed.toList l.address :=
      h.laid.congr fun _ _ => shape?_forget next
    exact {
      linked := by simpa using linked.forget next
      laid
      pad := by simp
      adjusts := h.adjusts.tail (.forget next linked (h.pad p (by simp [hp])) issued) }
  · exact h

@[simp] theorem dropPad_pad (l : Layout) (next : Handle) : (l.dropPad next).pad = none := by
  unfold dropPad
  split
  · rfl
  · assumption

@[simp] theorem dropPad_address (l : Layout) (next : Handle) : (l.dropPad next).address = l.address := by
  unfold dropPad
  split <;> rfl

@[simp] theorem dropPad_placed (l : Layout) (next : Handle) : (l.dropPad next).placed = l.placed := by
  unfold dropPad
  split <;> rfl

/-- The next node is placed. -/
theorem Valid.place (h : Valid s l (n :: rest)) (hpad : l.pad = none) {x : Item} {a : Int}
    (hx : l.sequence.shape? n = some (a, x)) (even : x.isPayload = true → l.address % 2 = 0) :
    Valid s
      { l with
        sequence := l.sequence.setAddress n l.address
        placed := l.placed.push n
        address := l.address + x.extent } rest := by
  have linked := h.linked
  simp only [hpad, Option.toList_none, List.append_nil] at linked
  have fresh : ∀ m ∈ l.placed.toList, n ≠ m := by
    intro m hm e
    exact List.disjoint_of_nodup_append linked.nodup hm (e ▸ List.mem_cons_self)
  have same : ∀ m ∈ l.placed.toList, (l.sequence.setAddress n l.address).shape? m = l.sequence.shape? m := by
    intro m hm
    rw [shape?_setAddress, if_neg (fresh m hm)]
  have here : (l.sequence.setAddress n l.address).shape? n = some ((l.address : Int), x) := by
    rw [shape?_setAddress, if_pos rfl, hx, Option.map_some]
  exact {
    linked := by simpa [hpad] using linked.setAddress n l.address
    laid := by simpa using (h.laid.congr same).snoc here even
    pad := by simp [hpad]
    adjusts := h.adjusts.tail (.move _ _ _) }

theorem Valid.placePad (h : Valid s l rest) : Valid s l.placePad rest := by
  -- Either way there is a layout with the padding as the next node to come.
  obtain ⟨p, l', hl', hp, hpad, e⟩ : ∃ p l', Valid s l' (p :: rest) ∧ IsPad l'.sequence p ∧ l'.pad = none ∧
      l.placePad =
        { l' with
          sequence := l'.sequence.setAddress p l'.address
          placed := l'.placed.push p
          address := l'.address + 1 } := by
    cases hp : l.pad with
    | some p =>
      refine ⟨p, { l with pad := none }, ⟨?_, h.laid, by simp, h.adjusts⟩, h.pad p (by simp [hp]), rfl, ?_⟩
      · simpa [hp] using h.linked
      · simp [Layout.placePad, hp]
    | none =>
      let q := l.sequence.nodes.size
      let made := (l.sequence.create (.plain .padding)).2
      have linked := h.linked
      simp only [hp, Option.toList_none, List.append_nil] at linked
      have registered := linked.create_register (.plain .padding)
      refine ⟨q, { l with sequence := made.register q, pad := none }, ⟨?_, ?_, by simp, ?_⟩, ?_, rfl, ?_⟩
      · refine registered.perm ?_
        simpa using List.perm_middle.symm
      · refine h.laid.congr fun m hm => ?_
        rw [shape?_register, shape?_create, if_neg]
        rintro rfl
        exact linked.size_notMem (List.mem_append_left _ hm)
      · exact h.adjusts.tail (.pad linked)
      · refine ⟨.plain .padding, ?_, rfl⟩
        rw [item?_register, item?_create, if_pos rfl]
      · simp [Layout.placePad, hp, made, q, Sequence.create]
  obtain ⟨a, x, hx, hpadding⟩ := isPad_iff_shape?.1 hp
  have unit : x.extent = 1 := by simp [Item.extent, hpadding]
  have plain : x.isPayload = true → l'.address % 2 = 0 := by
    intro payload
    cases x <;> simp_all [Item.isPadding, Item.isPayload]
  rw [e, ← unit]
  exact hl'.place hpad hx plain

theorem placePad_address (l : Layout) : l.placePad.address = l.address + 1 := rfl

@[simp] theorem placePad_pad (l : Layout) : l.placePad.pad = none := rfl

theorem Valid.step (h : Valid s l (n :: rest)) : Valid s (l.step n) rest := by
  obtain ⟨x, hx⟩ := h.linked.node?_of_mem (n := n) (by simp)
  unfold Layout.step
  simp only [hx]
  split
  · next padding =>
    have dropped := h.dropPad (l.sequence.handleOf n) (h.linked.handleOf_lt (by simp))
    have linked := dropped.linked
    simp only [dropPad_pad, Option.toList_none, List.append_nil] at linked
    exact {
      linked := by simpa using linked
      laid := dropped.laid
      adjusts := dropped.adjusts
      pad := by
        intro p hp
        obtain rfl : n = p := by simpa using hp
        have shape : (l.dropPad (l.sequence.handleOf n)).sequence.shape? n = some x.shape := by
          unfold Layout.dropPad
          split
          · rw [shape?_forget, shape?_of_node? hx]
          · exact shape?_of_node? hx
        exact isPad_iff_shape?.2 ⟨_, _, shape, by simpa using padding⟩ }
  · next solid =>
    -- The padding that is needed has been placed; what is left of it goes.
    generalize hl : (if (x.item.isPayload && l.address % 2 == 1) = true then l.placePad else l) = l₁
    have valid₁ : Valid s l₁ (n :: rest) := by
      rw [← hl]
      split
      · exact h.placePad
      · exact h
    have even : x.item.isPayload = true → l₁.address % 2 = 0 := by
      intro payload
      rw [← hl]
      split
      · next odd =>
        rw [placePad_address]
        simp only [payload, Bool.true_and, beq_iff_eq] at odd
        omega
      · next odd =>
        simp only [payload, Bool.true_and, beq_iff_eq] at odd
        omega
    have dropped := valid₁.dropPad (l₁.sequence.handleOf n) (valid₁.linked.handleOf_lt (by simp))
    -- Every change so far kept the item, up to references.
    have shape : ∃ a, (l₁.dropPad (l₁.sequence.handleOf n)).sequence.shape? n = some (a, x.item.unlinked) := by
      have kept : ∃ a, l₁.sequence.shape? n = some (a, x.item.unlinked) := by
        rw [← hl]
        split
        · cases hp : l.pad with
          | some p =>
            simp only [Layout.placePad, hp, shape?_setAddress, shape?_of_node? hx]
            split
            · exact ⟨_, rfl⟩
            · exact ⟨_, rfl⟩
          | none =>
            simp only [Layout.placePad, hp, shape?_setAddress, shape?_register, shape?_create,
              shape?_of_node? hx]
            have hne : n ≠ l.sequence.nodes.size := Nat.ne_of_lt (lt_size_of_node? hx)
            simp only [create_fst, if_neg hne, if_neg (Ne.symm hne)]
            exact ⟨_, rfl⟩
        · exact ⟨_, shape?_of_node? hx⟩
      obtain ⟨a, ha⟩ := kept
      refine ⟨a, ?_⟩
      unfold Layout.dropPad
      split
      · rw [shape?_forget, ha]
      · exact ha
    obtain ⟨a, ha⟩ := shape
    have placed := dropped.place (dropPad_pad _ _) ha (by simpa using even)
    have units : x.item.unlinked.extent = x.item.codeUnits := by simp [Item.extent, solid]
    rw [units] at placed
    exact placed

end Layout

/-- A layout in progress, after some nodes. -/
theorem Layout.Valid.foldl {l : Layout} (h : Layout.Valid s l xs) : Layout.Valid s (xs.foldl Layout.step l) [] := by
  induction xs generalizing l with
  | nil => exact h
  | cons n xs ih => exact ih h.step

theorem layout_valid (h : Linked s s.items.toList) :
    Layout.Valid s ((s.items.toList.foldl Layout.step { sequence := s }).dropPad .finish) [] := by
  have start : Layout.Valid s { sequence := s } s.items.toList :=
    ⟨by simpa using h, rfl, by simp, .refl⟩
  have done := start.foldl
  exact done.dropPad .finish (done.linked.next_lt none (by simp))

theorem layout_eq (s : Sequence) :
    s.layout =
      let l := (s.items.toList.foldl Layout.step { sequence := s }).dropPad .finish
      { l.sequence with items := l.placed, units := l.address } := by
  rw [layout, ← Array.foldl_toList]

/-- `layout` keeps a sequence linked, and puts its items in a row. -/
theorem Linked.layout (h : Linked s s.items.toList) :
    Linked s.layout s.layout.items.toList ∧ Laid s.layout 0 s.layout.items.toList s.layout.units := by
  have valid := layout_valid h
  rw [layout_eq]
  refine ⟨?_, valid.laid.congr fun _ _ => rfl⟩
  have linked := valid.linked
  simp only [Layout.dropPad_pad, Option.toList_none, List.append_nil] at linked
  exact linked.congr (fun _ => rfl) rfl

/-- `layout` is a run of adjustments, after which the items and the size are set. -/
theorem layout_adjusts (h : Linked s s.items.toList) :
    ∃ t, ReflTransGen (Adjust IsPad) s t ∧
      s.layout = { t with items := s.layout.items, units := s.layout.units } := by
  refine ⟨_, (layout_valid h).adjusts, ?_⟩
  rw [layout_eq]

end Dalvik.Sequence
