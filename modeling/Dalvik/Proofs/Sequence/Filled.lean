import Dalvik.Proofs.Elements
import Dalvik.Proofs.Sequence.Invariant

/-!
# Bodies that are assembled

A body consists of blocks, each of which is an element with the labels before it, and of labels at
its end. If every element makes an item and no label is declared twice, `addElements` puts the items
in a row, each under the handle of its number (`filled`), and every label gets the handle of the
item of its block (`gives_addElements`).
-/

namespace Dalvik.Sequence

open Assembly (Body Element)

variable {s t base : Sequence} {x z : Item} {zs ys : List Item} {n k : Nat} {body : Body}

/-! ## Items in a row -/

/-- The items in a row, each under the handle of its number. -/
def filled (base : Sequence) (zs : List Item) : Sequence :=
  { base with
    nodes := (zs.mapIdx fun n z => ({ item := z, handle := some n } : Node)).toArray
    items := (List.range zs.length).toArray
    arena := ((List.range zs.length).map some).toArray }

theorem node?_filled (base : Sequence) (zs : List Item) (n : Nat) :
    (filled base zs).node? n = zs[n]?.map fun z => { item := z, handle := some n } := by
  simp [filled, node?]

theorem item?_filled (base : Sequence) (zs : List Item) (n : Nat) : (filled base zs).item? n = zs[n]? := by
  rw [item?, node?_filled, Option.map_map]
  cases zs[n]? <;> rfl

theorem handle?_filled (base : Sequence) (zs : List Item) (n : Nat) :
    (filled base zs).handle? n = if n < zs.length then some n else none := by
  rw [handle?, node?_filled]
  split
  · next lt =>
    rw [List.getElem?_eq_getElem lt]
    rfl
  · next ge =>
    rw [List.getElem?_eq_none (Nat.le_of_not_lt ge)]
    rfl

theorem linked_filled (base : Sequence) (zs : List Item) : Linked (filled base zs) (filled base zs).items.toList where
  nodup := List.nodup_range
  mem_iff n := by
    rw [handle?_filled]
    by_cases lt : n < zs.length <;> simp [filled, lt]
  arena_iff n h := by
    have slot : (filled base zs).arena[h]? = if h < zs.length then some (some h) else none := by
      by_cases lt : h < zs.length <;> simp [filled, lt]
    rw [handle?_filled, slot]
    by_cases e : n = h
    · subst e
      split <;> simp
    · have e' : h ≠ n := Ne.symm e
      split <;> split <;> simp [e, e']

theorem modifyItem_filled (base : Sequence) (done : List Item) (z y : Item) (rest : List Item) :
    (filled base (done ++ z :: rest)).modifyItem done.length (fun _ => y) = filled base (done ++ y :: rest) := by
  have nodes : ∀ n, ((filled base (done ++ z :: rest)).modifyItem done.length fun _ => y).node? n =
      (filled base (done ++ y :: rest)).node? n := by
    intro n
    rw [node?_modifyItem, node?_filled, node?_filled]
    split
    · next e =>
      subst e
      simp
    · next ne =>
      rcases Nat.lt_or_gt_of_ne ne with gt | lt
      · have later : ∀ w : Item, (done ++ w :: rest)[n]? = rest[n - done.length - 1]? := fun w => by
          rw [List.getElem?_append_right (by omega), List.getElem?_cons, if_neg (by omega)]
        rw [later, later]
      · rw [List.getElem?_append_left lt, List.getElem?_append_left lt]
  have same : ((filled base (done ++ z :: rest)).modifyItem done.length fun _ => y).nodes = (filled base (done ++ y :: rest)).nodes :=
    Array.ext_getElem? nodes
  have length : (done ++ z :: rest).length = (done ++ y :: rest).length := by simp
  unfold filled modifyItem modifyNode at *
  simp only at same ⊢
  rw [same, length]

/-- Inside a bracket, `push` appends an item to the row. -/
theorem gives_push_filled (deep : base.depth ≠ 0) (zs : List Item) (z : Item) :
    (push z).Gives (filled base zs) (zs.length : Int) (filled base (zs ++ [z])) := by
  have size : (filled base zs).nodes.size = zs.length := by simp [filled]
  have arena : (filled base zs).arena.size = zs.length := by simp [filled]
  have items : (filled base zs).items.size = zs.length := by simp [filled]
  have new : ((filled base zs).create z).2.handle? zs.length = none := by rw [← size]; exact handle?_create_self _ z
  have nodes : ∀ n, (((filled base zs).create z).2.register zs.length).node? n = (filled base (zs ++ [z])).node? n := by
    intro n
    rw [node?_register new, node?_create, size, arena_create, arena, node?_filled, node?_filled]
    split
    · next e =>
      subst e
      simp
    · next ne =>
      rw [if_neg (Ne.symm ne)]
      rcases Nat.lt_or_gt_of_ne ne with gt | lt
      · rw [List.getElem?_eq_none (by omega), List.getElem?_eq_none (by simp; omega)]
      · rw [List.getElem?_append_left lt]
  have same : (((filled base zs).create z).2.register zs.length).nodes = (filled base (zs ++ [z])).nodes := Array.ext_getElem? nodes
  have slots : (((filled base zs).create z).2.register zs.length).arena = (filled base (zs ++ [z])).arena := by
    rw [arena_register new, arena_create]
    simp [filled, List.range_succ]
  have order : (filled base zs).items.insertIdxIfInBounds zs.length zs.length = (filled base (zs ++ [z])).items := by
    have last := List.insertIdx_length_self (l := List.range zs.length) (x := zs.length)
    rw [List.length_range] at last
    refine Array.toList_inj.1 ?_
    rw [Array.insertIdxIfInBounds, dif_pos items.ge, Array.toList_insertIdx]
    simpa [filled, List.range_succ] using last
  have made : ((filled base zs).create z).2.register zs.length = { filled base zs with
      nodes := (filled base (zs ++ [z])).nodes, arena := (filled base (zs ++ [z])).arena } := by
    rw [← same, ← slots, register_of_none new]
    rfl
  have inside : (((filled base zs).create z).2.register zs.length).depth ≠ 0 := by
    rw [depth_register, depth_create]
    exact deep
  have placed : ((filled base zs).create z).2.place zs.length zs.length = filled base (zs ++ [z]) := by
    rw [place, changed, if_neg inside, made]
    simp only [order]
    rfl
  have appended : (filled base zs).append z = (((filled base zs).arena.size : Int),
      ((filled base zs).create z).2.place (filled base zs).items.size (filled base zs).nodes.size) := rfl
  rw [push, Action.gives_modifyGet, appended, size, items, arena, placed]

/-! ## Blocks -/

/-- An element with the labels before it. -/
abbrev Block := List Assembly.Label × Element

namespace Block

def lines (b : Block) : List Element := b.1.map .label ++ [b.2]

/-- The handles that the labels of the blocks get, if the first block has number `k`. -/
def handles : Nat → List Block → List (Bytes × Handle)
  | _, [] => []
  | k, b :: bs => handles (k + 1) bs ++ (names b.1).map fun name => (name, (k : Handle))

/-- The elements of the blocks with their numbers. -/
def numbered (k : Nat) (bs : List Block) : List (Nat × Element) := (bs.zipIdx k).map fun b => (b.2, b.1.2)

theorem fst_handles_perm (k : Nat) (bs : List Block) : ((handles k bs).map Prod.fst).Perm (bs.flatMap fun b => names b.1) := by
  induction bs generalizing k with
  | nil => exact .nil
  | cons b bs ih =>
    rw [handles, List.map_append, List.map_map, List.flatMap_cons, show Prod.fst ∘ (fun name : Bytes => (name, (k : Handle))) = id from rfl,
      List.map_id]
    exact List.perm_append_comm.trans ((ih (k + 1)).append_left _)

theorem mem_handles {k n : Nat} {bs : List Block} {b : Block} {name : Bytes} (here : bs[n]? = some b) (mem : name ∈ names b.1) :
    (name, ((k + n : Nat) : Handle)) ∈ handles k bs := by
  induction bs generalizing k n with
  | nil => cases here
  | cons c bs ih =>
    rw [handles, List.mem_append]
    cases n with
    | zero =>
      cases here
      exact .inr (List.mem_map.2 ⟨name, mem, rfl⟩)
    | succ n =>
      have := ih (k := k + 1) here
      rw [show k + 1 + n = k + (n + 1) by omega] at this
      exact .inl this

end Block

/-- `assembleElement` makes the item of the element, and changes nothing. -/
def Makes (pool : Option Pool) (body : Body) (e : Element) (z : Item) : Prop :=
  (∀ l, e ≠ .label l) ∧ ∀ t : Sequence, t.pool = pool → (assembleElement body e).Gives t (some z) t

/-! ## Adding -/

theorem gives_addLabels {ls : List Assembly.Label} {p : Progress} (fresh : ∀ name ∈ names ls, name ∉ p.declared)
    (nodup : (names ls).Nodup) : ((ls.map Element.label).foldlM (addElement body) p).Gives s
      { p with declared := (names ls).reverse ++ p.declared, pending := p.pending ++ names ls } s := by
  induction ls generalizing p with
  | nil => exact Action.gives_pure.2 ⟨by simp [names], rfl⟩
  | cons l ls ih =>
    obtain ⟨once, nodup⟩ := List.nodup_cons.1 nodup
    have new : p.declared.contains l.name = false := by
      simpa using fresh l.name List.mem_cons_self
    have head : (addElement body p (.label l)).Gives s
        { p with declared := l.name :: p.declared, pending := p.pending ++ [l.name] } s := by
      simp only [addElement, new, Bool.false_eq_true, if_false]
      exact Action.gives_pure.2 ⟨rfl, rfl⟩
    have rest := @ih { p with declared := l.name :: p.declared, pending := p.pending ++ [l.name] } (by
      intro name mem
      rw [List.mem_cons, not_or]
      exact ⟨fun e => once (e ▸ mem), fresh name (List.mem_cons_of_mem _ mem)⟩) nodup
    rw [List.map_cons, List.foldlM_cons]
    refine Action.gives_bind.2 ⟨_, s, head, ?_⟩
    simpa [names] using rest

theorem gives_addItem (deep : base.depth ≠ 0) {b : Block} {p : Progress} (makes : Makes base.pool body b.2 z) (zs : List Item) :
    (addElement body p b.2).Gives (filled base zs)
      { p with
        pending := []
        labels := p.pending.map (·, (zs.length : Handle)) ++ p.labels
        made := (zs.length, b.2) :: p.made } (filled base (zs ++ [z])) := by
  have size : (filled base zs).nodes.size = zs.length := by simp [filled]
  obtain ⟨absent, made⟩ := makes
  unfold addElement
  split
  · next l e => exact absurd e (absent l)
  · refine Action.gives_bind.2 ⟨some z, filled base zs, made _ rfl, ?_⟩
    simp only [Action.gives_bind, Action.gives_get, Action.gives_pure]
    exact ⟨_, _, ⟨rfl, rfl⟩, _, _, gives_push_filled deep zs z, by rw [size], rfl⟩

/-- The blocks append their items to the row. -/
theorem gives_addBlocks (deep : base.depth ≠ 0) {bs : List Block} {zs : List Item} (makes : List.Forall₂ (fun b z => Makes base.pool body b.2 z) bs zs)
    (done : List Item) {p : Progress} (pending : p.pending = []) (fresh : ∀ name ∈ bs.flatMap (fun b => names b.1), name ∉ p.declared)
    (nodup : (bs.flatMap fun b => names b.1).Nodup) : ((bs.flatMap Block.lines).foldlM (addElement body) p).Gives (filled base done)
      { declared := (bs.flatMap fun b => names b.1).reverse ++ p.declared
        labels := Block.handles done.length bs ++ p.labels
        made := (Block.numbered done.length bs).reverse ++ p.made } (filled base (done ++ zs)) := by
  induction makes generalizing done p with
  | nil =>
    obtain ⟨declared, _, labels, made⟩ := p
    obtain rfl := pending
    exact Action.gives_pure.2 ⟨rfl, by rw [List.append_nil]⟩
  | @cons b z bs zs head _ ih =>
    rw [List.flatMap_cons] at fresh nodup
    obtain ⟨first, rest, apart⟩ := List.nodup_append.1 nodup
    let q : Progress := { p with declared := (names b.1).reverse ++ p.declared, pending := p.pending ++ names b.1 }
    let r : Progress := { q with
      pending := []
      labels := q.pending.map (·, (done.length : Handle)) ++ q.labels
      made := (done.length, b.2) :: q.made }
    have labels : ((b.1.map Element.label).foldlM (addElement body) p).Gives (filled base done) q (filled base done) :=
      gives_addLabels (fun name mem => fresh name (List.mem_append_left _ mem)) first
    have item : (addElement body q b.2).Gives (filled base done) r (filled base (done ++ [z])) := gives_addItem deep head done
    have later := ih (done ++ [z]) (p := r) rfl (fun name mem => by
        rw [List.mem_append, not_or, List.mem_reverse]
        exact ⟨fun here => apart name here name mem rfl, fresh name (List.mem_append_right _ mem)⟩) rest
    rw [List.flatMap_cons, Block.lines, List.append_assoc, List.foldlM_append, List.singleton_append]
    refine Action.gives_bind.2 ⟨_, _, labels, ?_⟩
    rw [List.foldlM_cons]
    refine Action.gives_bind.2 ⟨_, _, item, ?_⟩
    simpa [r, q, pending, Block.handles, Block.numbered, List.zipIdx_cons] using later

/-- Exception lines add nothing. -/
theorem gives_addCatches (cs : List Assembly.CatchRange) (p : Progress) :
    ((cs.map Element.catchRange).foldlM (addElement body) p).Gives s p s := by
  induction cs with
  | nil => exact Action.gives_pure.2 ⟨rfl, rfl⟩
  | cons c cs ih =>
    rw [List.map_cons, List.foldlM_cons]
    exact Action.gives_bind.2 ⟨p, s, rfl, ih⟩

/-! ## Resolving -/

/-- `hs` are the handles of the labels that the element refers to. -/
def Finds (labels : List (Bytes × Handle)) (e : Element) (hs : List Handle) : Prop :=
  List.Forall₂ (fun name h => findLabel labels e.origin name = .ok h) (labelsOf e) hs

/-- `resolveElement` gives each item the handles of the labels of its element. -/
theorem each_resolveElement {labels : List (Bytes × Handle)} {bs : List Block} {zs : List Item} {hss : List (List Handle)}
    (makes : List.Forall₂ (fun b z => Makes base.pool body b.2 z) bs zs)
    (finds : List.Forall₂ (fun b hs => Finds labels b.2 hs) bs hss) (done : List Item) :
    Action.Each (fun m : Nat × Element => resolveElement labels m.1 m.2) (Block.numbered done.length bs) (filled base (done ++ zs))
      (filled base (done ++ List.zipWith (fun z hs => z.aimed hs) zs hss)) := by
  induction makes generalizing done hss with
  | nil =>
    cases finds
    exact .nil _
  | @cons b z bs zs head _ ih =>
    obtain ⟨hs, hss, found, later, rfl⟩ := List.forall₂_cons_left_iff.1 finds
    have item : (filled base (done ++ z :: zs)).item? done.length = some z := by
      rw [item?_filled]
      simp
    have first := gives_resolveElement (head.2 (filled base []) rfl) item found
    rw [modifyItem_filled] at first
    have rest := ih later (done ++ [z.aimed hs])
    rw [List.length_append, List.length_singleton] at rest
    refine .cons first ?_
    simpa [Block.numbered] using rest

/-! ## The whole -/

theorem findLabel_of_mem {labels : List (Bytes × Handle)} {name : Bytes} {h : Handle} (nodup : (labels.map Prod.fst).Nodup)
    (mem : (name, h) ∈ labels) : labels.find? (·.1 == name) = some (name, h) := by
  induction labels with
  | nil => cases mem
  | cons l labels ih =>
    obtain ⟨once, nodup⟩ := List.nodup_cons.1 nodup
    rcases List.mem_cons.1 mem with rfl | mem
    · simp
    · have ne : (l.1 == name) = false := by
        rw [beq_eq_false_iff_ne]
        rintro rfl
        exact once (List.mem_map.2 ⟨_, mem, rfl⟩)
      rw [List.find?_cons, ne]
      exact ih nodup mem

/-- The handles of all labels; those at the end have the handle of the end. -/
def handlesOf (bs : List Block) (last : List Assembly.Label) : List (Bytes × Handle) :=
  (names last).map (·, Handle.finish) ++ Block.handles 0 bs

theorem nodup_handlesOf {bs : List Block} {last : List Assembly.Label} (nodup : (bs.flatMap (fun b => names b.1) ++ names last).Nodup) :
    ((handlesOf bs last).map Prod.fst).Nodup := by
  have perm : ((handlesOf bs last).map Prod.fst).Perm (bs.flatMap (fun b => names b.1) ++ names last) := by
    rw [handlesOf, List.map_append, List.map_map, show Prod.fst ∘ (fun name : Bytes => (name, Handle.finish)) = id from rfl, List.map_id]
    exact List.perm_append_comm.trans ((Block.fst_handles_perm 0 bs).append_right _)
  exact perm.nodup_iff.2 nodup

/-- The elements of a body append the items of its blocks to the row. -/
theorem gives_addBody (deep : base.depth ≠ 0) {bs : List Block} {last : List Assembly.Label} (cs : List Assembly.CatchRange) {zs : List Item}
    (makes : List.Forall₂ (fun b z => Makes base.pool body b.2 z) bs zs)
    (nodup : (bs.flatMap (fun b => names b.1) ++ names last).Nodup) : ∃ p : Progress,
      ((bs.flatMap Block.lines ++ last.map Element.label ++ cs.map Element.catchRange).foldlM (addElement body) {}).Gives (filled base []) p (filled base zs) ∧
      p.pending.map (·, Handle.finish) ++ p.labels = handlesOf bs last ∧ p.made.reverse = Block.numbered 0 bs := by
  obtain ⟨first, ending, apart⟩ := List.nodup_append.1 nodup
  let p : Progress := {
    declared := (bs.flatMap fun b => names b.1).reverse ++ []
    labels := Block.handles 0 bs ++ []
    made := (Block.numbered 0 bs).reverse ++ [] }
  have blocks : ((bs.flatMap Block.lines).foldlM (addElement body) {}).Gives (filled base []) p (filled base zs) :=
    gives_addBlocks deep makes [] rfl (fun _ _ => List.not_mem_nil) first
  let q : Progress := { p with declared := (names last).reverse ++ p.declared, pending := p.pending ++ names last }
  have labels : ((last.map Element.label).foldlM (addElement body) p).Gives (filled base zs) q (filled base zs) := by
    refine gives_addLabels (fun name mem => ?_) ending
    simp only [p, List.append_nil, List.mem_reverse]
    exact fun there => apart name there name mem rfl
  refine ⟨q, ?_, ?_, ?_⟩
  · rw [List.foldlM_append, List.foldlM_append]
    exact Action.gives_bind.2 ⟨q, _, Action.gives_bind.2 ⟨p, _, blocks, labels⟩, gives_addCatches cs q⟩
  · simp [q, p, handlesOf]
  · simp [q, p]

/-- `addElements` of the blocks in an empty sequence lays out their items, each with the handles of its labels. -/
theorem gives_addElements {size : Option Cell} {pool : Option Pool} {bs : List Block} {last : List Assembly.Label}
    {cs : List Assembly.CatchRange} {zs : List Item} {hss : List (List Handle)}
    (elements : body.elements = bs.flatMap Block.lines ++ last.map .label ++ cs.map .catchRange)
    (makes : List.Forall₂ (fun b z => Makes pool body b.2 z) bs zs)
    (nodup : (bs.flatMap (fun b => names b.1) ++ names last).Nodup)
    (finds : List.Forall₂ (fun b hs => Finds (handlesOf bs last) b.2 hs) bs hss) :
    (addElements body).Gives { size, pool } (handlesOf bs last)
      (filled { size, pool } (List.zipWith (fun z hs => z.aimed hs) zs hss)).relink := by
  let base : Sequence := { size, pool, depth := 1 }
  obtain ⟨p, added, labels, made⟩ := gives_addBody (show base.depth ≠ 0 from Nat.one_ne_zero) cs makes nodup
  have resolved : Action.Each (fun m : Nat × Element => resolveElement (handlesOf bs last) m.1 m.2) (Block.numbered 0 bs)
      (filled base zs) (filled base (List.zipWith (fun z hs => z.aimed hs) zs hss)) := each_resolveElement makes finds []
  generalize List.zipWith (fun z hs => Item.aimed hs z) zs hss = ys at resolved ⊢
  unfold addElements
  have close : (filled base ys).closeBracket = .ok (filled { size, pool } ys).relink := by
    rw [closeBracket, if_neg (show (filled base ys).depth ≠ 0 from Nat.one_ne_zero)]
    exact congrArg Except.ok (if_pos rfl)
  refine gives_bracketed.2 ⟨filled base ys, ?_, close⟩
  rw [elements]
  refine Action.gives_bind.2 ⟨p, filled base zs, added, ?_⟩
  simp only [labels, made, Action.gives_bind, Action.gives_pure]
  exact ⟨⟨⟩, _, Action.gives_forIn.2 resolved, trivial, rfl⟩

end Dalvik.Sequence
