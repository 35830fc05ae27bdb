import Dalvik.Proofs.Sequence.Reach
import Dalvik.Proofs.Sequence.Removal

/-!
# Edits that may fail

An edit that fails keeps what it has changed so far. So what every edit leaves, whether or not it
succeeds, is said of the state alone (`Action.Upholds`). A property of items is `Lasting` if nothing
that is done to an item takes it away; then every attempt keeps the items filed under their handles,
and the property of each of them (`Attempt.sound`). For the property that always holds, this is
`Edit.filed`.
-/

namespace Dalvik

/-! ## Properties of items -/

namespace Item

/-- Every item keeps the property, whatever is done to a sequence and however it ends. An instruction is given another
opcode only if it is `free`. -/
structure Lasting (free : Instruction → Prop) (P : Item → Prop) : Prop where
  padding : P (.plain .padding)
  relinked : ∀ {x y : Item}, y.unlinked = x.unlinked → P x → P y
  wider : ∀ {x y op}, Sequence.wider? x.opcode = some op → x.setOpcode op = .ok y → P (.plain x) → P (.plain y)
  opcode : ∀ {x y op}, free x → op ∈ Opcode.all → x.setOpcode op = .ok y → P (.plain x) → P (.plain y)
  marked : ∀ {x : Instruction}, x.units.head? = some 0 → P (.plain x) → P (.plain { x with isPadding := true })
  raw : ∀ {x : Item}, x.Raw → P x
  made : ∀ {x : Item}, x.Made → P x
  edited : ∀ {x y : Item}, x.Edited y → P x → P y
  toSparse : ∀ {p : PackedTable}, P (.packed p) → P (.sparse p.toSparse)
  toPacked : ∀ {t p u}, SparseTable.toPacked.Gives t p u → P (.sparse t) → P (.packed p)
  packedSize : ∀ {p : PackedTable}, P (.packed p) → P (.packed p.updateSize)
  sparseSize : ∀ {t : SparseTable}, P (.sparse t) → P (.sparse t.updateSize)

theorem lasting_true : Lasting (fun _ => True) fun _ => True := by
  constructor <;> simp

theorem lasting_shaped : Lasting (fun _ => True) Shaped where
  padding := stable_shaped.padding
  relinked := stable_shaped.relinked
  wider := stable_shaped.wider
  opcode _ mem h hx := shaped_setOpcode mem h hx
  marked := stable_shaped.marked
  raw := stable_shaped.raw
  made := stable_shaped.made
  edited := Edited.shaped
  toSparse := stable_shaped.toSparse
  toPacked h ht := (stable_shaped.toPacked h ht).1
  packedSize h := h
  sparseSize h := h

theorem lasting_sealed : Lasting (fun x => x.isPadding = false) fun x => x.Shaped ∧ x.Sealed where
  padding := stable_sealed.padding
  relinked := stable_sealed.relinked
  wider := stable_sealed.wider
  opcode solid mem h hx := (Edited.opcode solid mem h).sealed hx
  marked := stable_sealed.marked
  raw := stable_sealed.raw
  made := stable_sealed.made
  edited := Edited.sealed
  toSparse := stable_sealed.toSparse
  toPacked h ht := (stable_sealed.toPacked h ht).1
  packedSize h := h
  sparseSize h := h

namespace Lasting

variable {free : Instruction → Prop} {P : Item → Prop} (lasting : Lasting free P)
include lasting

theorem mono {free' : Instruction → Prop} (fewer : ∀ x, free' x → free x) : Lasting free' P :=
  { lasting with opcode := fun h => lasting.opcode (fewer _ h) }

theorem sorted {t : SparseTable} (h : P (.sparse t)) : P (.sparse (SparseTable.toPacked.apply t).2) :=
  SparseTable.upholds_toPacked (I := fun t => P (.sparse t)) (fun _ _ _ sorted => lasting.edited (.sparseSort _ sorted)) t h

theorem refreshed {x : Item} (h : P x) : P (Item.refresh.apply x).2 := by
  cases x with
  | plain i => exact h
  | packed p => exact lasting.packedSize h
  | sparse t =>
    exact SparseTable.upholds_refresh (I := fun t => P (.sparse t))
      (fun _ _ _ sorted => lasting.edited (.sparseSort _ sorted)) (fun _ => lasting.sparseSize) t h
  | array a => exact h

end Lasting

end Item

namespace Sequence

open Dalvik.Action (Upholds)
open Assembly (Element Body)

variable {free : Instruction → Prop} {P : Item → Prop} {s t : Sequence} {n m : Nat}

/-! ## Single changes -/

namespace Sound

theorem clear (h : Sound P s) : Sound P s.clear := sound_clear h.holds

theorem enrol (h : Sound P s) {x : Item} (hx : P x) (address : Nat) : Sound P (s.enrol x address) :=
  ⟨linked_enrol s x address h.linked, holds_enrol hx h.holds⟩

variable (lasting : Item.Lasting free P)
include lasting

theorem laidOut (h : Sound P s) : Sound P s.layout :=
  ⟨h.linked.layout.1, h.linked.layout_evolves.holds lasting.padding lasting.relinked h.holds⟩

theorem relaid (h : Sound P s) : Sound P s.relink :=
  ⟨h.linked.relink.1, h.linked.relink_evolves.holds lasting.padding lasting.relinked h.holds⟩

theorem settled (h : Sound P s) : Sound P s.changed := by
  unfold Sequence.changed
  split
  · exact h.relaid lasting
  · exact h

theorem relinkItem (h : Sound P s) {f : Item → Item} (hf : ∀ x, s.item? n = some x → (f x).unlinked = x.unlinked) :
    Sound P (s.modifyItem n f) :=
  h.modifyItem fun x hx => lasting.relinked (hf x hx) (h.holds n x hx)

theorem recase (h : Sound P s) {cs : List Case} (length : ∀ x, s.item? n = some x → cs.length = x.cases.length) :
    Sound P (s.modifyItem n (Item.setCases cs)) :=
  h.modifyItem fun x hx => lasting.edited (.cases (length x hx)) (h.holds n x hx)

theorem recode (h : Sound P s) (step : Recode s t) : Sound P t := by
  cases step with
  | data hx _ stored => exact h.modifyItem fun _ _ => lasting.edited (.operand (.data _ stored)) (h.holds _ _ hx)
  | wider hx _ wider stored => exact h.modifyItem fun _ _ => lasting.wider wider stored (h.holds _ _ hx)
  | @cases n x cs hx length =>
    refine h.recase lasting fun y hy => ?_
    obtain rfl : x = y := Option.some.inj (hx.symm.trans hy)
    exact length

/-- `place` of a node that is not in the sequence. -/
theorem place (h : Sound P s) {x : Node} (hx : s.node? n = some x) (detached : s.handle? n = none) {i : Nat}
    (hi : i ≤ s.items.size) : Sound P (s.place i n) :=
  (h.placed hx detached hi).settled lasting

theorem create_place (h : Sound P s) {x : Item} (hx : P x) {i : Nat} (hi : i ≤ s.items.size) :
    Sound P ((s.create x).2.place i s.nodes.size) :=
  (h.create hx).place lasting (node?_create_self s x) (handle?_create_self s x) (by rwa [items_create])

/-! ### Edits that succeed -/

theorem insert (h : Sound P s) (known : (s.node? n).isSome) {i : Int} {k : Handle} (run : s.insert i n = .ok (k, t)) :
    Sound P t := by
  obtain ⟨detached, low, high, rfl⟩ := insert_eq_ok run
  obtain ⟨x, hx⟩ := Option.isSome_iff_exists.1 known
  exact h.place lasting hx detached (by omega)

theorem removeAt (h : Sound P s) {i : Int} (run : s.removeAt i = .ok (n, t)) : Sound P t := by
  have removed := removed_of_removeAt h.linked run
  exact ⟨removed.linked, removed.evolves.holds lasting.padding lasting.relinked h.holds⟩

theorem remove (h : Sound P s) {found : Bool} (run : s.remove n = .ok (found, t)) : Sound P t := by
  unfold Sequence.remove at run
  split at run
  · obtain ⟨⟨k, u⟩, removed, run⟩ := Action.except_bind_eq_ok.1 run
    cases run
    exact h.removeAt lasting removed
  · cases run
    exact h

theorem replace (h : Sound P s) (known : (s.node? m).isSome) (detached : s.handle? m = none)
    (run : s.replace n m = .ok t) : Sound P t := by
  obtain ⟨x, hx⟩ := Option.isSome_iff_exists.1 known
  obtain ⟨i, k, hk, hi, rfl⟩ := replace_eq_ok run
  exact (h.replaced hx detached hk hi).settled lasting

theorem setTarget (h : Sound P s) {k : Handle} (run : s.setTarget n k = .ok t) : Sound P t := by
  obtain ⟨x, hx, -, -, rfl⟩ := setTarget_eq_ok run
  have modified : Sound P (s.modifyItem n fun _ => .plain { x with target := k }) :=
    h.modifyItem fun _ _ => lasting.relinked (x := .plain x) rfl (h.holds n _ hx)
  exact modified.settled lasting

theorem closeBracket (h : Sound P s) (run : s.closeBracket = .ok t) : Sound P t := by
  obtain ⟨-, rfl⟩ := closeBracket_eq_ok run
  have same : Sound P { s with depth := s.depth - 1 } := h.congr rfl rfl rfl
  exact same.settled lasting

end Sound

/-- `bracketed` closes the bracket also if the action inside it fails. -/
theorem apply_bracketed {α : Type} (act : Action Sequence α) (s : Sequence) :
    (bracketed act).apply s =
      match (act.apply s.openBracket).2.closeBracket with
      | .ok t => ((act.apply s.openBracket).1, t)
      | .error stop => (.error stop, (act.apply s.openBracket).2) := by
  unfold bracketed
  simp only [Action.apply_bind, Action.apply_modify, Action.apply_attempt, Action.apply_get, Action.apply_lift]
  cases (act.apply s.openBracket).2.closeBracket <;> rfl

section Attempts

variable (lasting : Item.Lasting free P)
include lasting

/-! ## Putting in -/

theorem upholds_insertItem (i : Int) {x : Item} (hx : P x) : Upholds (Sound P) (insertItem i x) := by
  intro s h
  unfold insertItem
  rw [Action.apply_of]
  split
  · exact h
  · next inside =>
    rw [not_or, Int.not_lt, Int.not_lt] at inside
    exact h.create_place lasting hx (by omega)

theorem upholds_push {x : Item} (hx : P x) : Upholds (Sound P) (push x) :=
  Action.upholds_modifyGet fun _ h => h.create_place lasting hx (Nat.le_refl _)

theorem Sound.bracketed {α : Type} {act : Action Sequence α} (h : Sound P (act.apply s.openBracket).2) :
    Sound P ((bracketed act).apply s).2 := by
  rw [apply_bracketed]
  split
  · next close => exact h.closeBracket lasting close
  · exact h

theorem upholds_bracketed {α : Type} {act : Action Sequence α} (h : Upholds (Sound P) act) : Upholds (Sound P) (bracketed act) :=
  fun _ hs => .bracketed lasting (h _ (hs.congr rfl rfl rfl))

/-! ## Conversions -/

theorem Sound.setSwitch (h : Sound P s) {k : Handle} {op : Opcode} (opened : Open free s k) (mem : op ∈ Opcode.all) :
    Sound P ((setSwitch k op).apply s).2 := by
  unfold Sequence.setSwitch
  refine Action.after_bind h fun _ _ e => ?_
  obtain ⟨rfl, rfl⟩ := Action.gives_get.1 e
  split
  · next n x hn hx =>
    rw [namedNode?, hn, Option.bind_some] at hx
    refine Action.after_bind h fun y _ e => ?_
    obtain ⟨hy, rfl⟩ := Action.gives_lift.1 e
    exact h.modifyItem fun _ _ => lasting.opcode (opened n x hn hx) mem hy (h.holds n _ hx)
  · exact h

theorem Sound.swapTable (h : Sound P s) {old : Nat} {table : Item} {op : Opcode} (hp : P table) (payload : table.isPayload = true)
    (opens : Open free s (table.owner?.getD .none)) (mem : op ∈ Opcode.all) : Sound P ((swapTable old table op).apply s).2 := by
  unfold Sequence.swapTable
  refine Action.after_bind h fun _ _ e => ?_
  obtain ⟨rfl, rfl⟩ := Action.gives_get.1 e
  refine Action.after_bind (h.create hp) fun _ t e => ?_
  obtain rfl : (s.create table).2 = t := Action.gives_set.1 e
  refine Sound.bracketed lasting ?_
  have opened : Sound P (s.create table).2.openBracket := (h.create hp).congr rfl rfl rfl
  refine Action.after_bind opened fun t _ e => ?_
  obtain ⟨rfl, rfl⟩ := Action.gives_get.1 e
  refine Action.after_bind opened fun u _ e => ?_
  obtain ⟨run, rfl⟩ := Action.gives_lift.1 e
  obtain ⟨i, k, hk, hi, rfl⟩ := replace_eq_ok run
  obtain ⟨hx, detached⟩ := node?_swapping s table
  -- Inside the bracket nothing is laid out.
  have still : ((s.create table).2.openBracket.replaced old s.nodes.size i k).changed = s.swapped old i k table :=
    if_neg (Nat.succ_ne_zero _)
  rw [still]
  have before : s.handle? old = some k := by
    change (s.create table).2.handle? old = some k at hk
    rwa [handle?_create] at hk
  have swapped : Sound P (s.swapped old i k table) := opened.replaced hx detached hk hi
  have openAfter := opens.swapped h.linked payload before hi
  refine Action.after_bind swapped fun _ u e => ?_
  obtain rfl := Action.gives_set.1 e
  exact swapped.setSwitch lasting openAfter mem

theorem Sound.toSparse (h : Sound P s) (convertible : Convertible free s n) : Sound P ((toSparse n).apply s).2 := by
  unfold Sequence.toSparse
  refine Action.after_bind h fun _ _ e => ?_
  obtain ⟨rfl, rfl⟩ := Action.gives_get.1 e
  split
  · next p op hp hop =>
    exact h.swapTable lasting (lasting.toSparse (h.holds n _ hp)) rfl (convertible _ _ hp rfl) (Opcode.mem_all_of_ofName? hop)
  · exact h

theorem Sound.toPacked (h : Sound P s) (convertible : Convertible free s n) : Sound P ((toPacked n).apply s).2 := by
  unfold Sequence.toPacked
  refine Action.after_bind h fun _ _ e => ?_
  obtain ⟨rfl, rfl⟩ := Action.gives_get.1 e
  split
  · next t op ht hop =>
    rcases e : SparseTable.toPacked.apply t with ⟨r, u⟩
    have hu : P (.sparse u) := by
      have sorted := lasting.sorted (h.holds n _ ht)
      rwa [e] at sorted
    have modified : Sound P (s.modifyItem n fun _ => .sparse u) := h.modifyItem fun _ _ => hu
    dsimp only
    refine Action.after_bind modified fun _ v e' => ?_
    obtain rfl := Action.gives_modify.1 e'
    refine Action.after_bind modified fun p _ e' => ?_
    obtain ⟨rfl, rfl⟩ := Action.gives_lift.1 e'
    have converted : SparseTable.toPacked.Gives t p u := e
    have owner := (SparseTable.gives_toPacked converted).2.1
    have opened : Open free s p.owner := by
      rw [owner]
      exact convertible _ _ ht rfl
    exact modified.swapTable lasting (lasting.toPacked converted (h.holds n _ ht)) rfl (opened.modifyItem n rfl)
      (Opcode.mem_all_of_ofName? hop)
  · exact h

/-! ## Readings -/

theorem upholds_decodeItems (total fuel used : Nat) (c : Cursor) : Upholds (Sound P) (decodeItems total fuel used c) := by
  induction fuel generalizing used c with
  | zero => exact Action.upholds_pure c
  | succ fuel ih =>
    unfold decodeItems
    split
    · refine Upholds.bind (Action.upholds_lift _) fun first s hs => ?_
      refine Action.after_bind hs fun p _ e => ?_
      obtain ⟨read, rfl⟩ := Action.gives_lift.1 e
      obtain ⟨item, c⟩ := p
      have raw : item.Raw := Item.raw_of_decode (Action.labelled_eq_ok.1 read)
      have enrolled : Sound P (s.enrol item used) := hs.enrol (lasting.raw raw) used
      dsimp only
      refine Action.after_bind enrolled fun _ t e => ?_
      obtain rfl := Action.gives_modify.1 e
      split
      · exact enrolled
      · exact ih _ _ _ enrolled
    · exact Action.upholds_pure c

theorem upholds_linkBranch (n : Nat) : Upholds (Sound P) (linkBranch n) := by
  unfold linkBranch
  refine Action.upholds_get fun s hs => ?_
  split
  · next i _ _ hn =>
    split
    · refine Action.after_bind hs fun d _ e => ?_
      obtain ⟨-, rfl⟩ := Action.gives_lift.1 e
      dsimp only
      split
      · exact hs
      · next t _ =>
        split
        · exact hs
        · have aimed : Sound P (s.modifyItem n fun _ => .plain { i with target := s.handleOf t }) :=
            hs.modifyItem fun _ _ => lasting.relinked (x := .plain i) rfl (hs.holds n _ (item?_of_node? hn))
          exact aimed.relinkItem lasting fun x _ => x.unlinked_setOwner _
    · exact hs
  · exact hs

theorem upholds_linkCases (n : Nat) (owner : Node) (i : Nat) (cs : List Case) : Upholds (Sound P) (linkCases n owner i cs) := by
  induction cs generalizing i with
  | nil => exact Action.upholds_pure _
  | cons c cs ih =>
    unfold linkCases
    refine Action.upholds_get fun s hs => ?_
    dsimp only
    split
    · exact hs
    · refine Upholds.bind (Action.upholds_modify fun s hs => ?_) (fun _ => ih _) s hs
      exact hs.modifyItem fun x hx => lasting.edited (.cases (List.length_set ..)) (hs.holds n x hx)

theorem upholds_linkTable (n : Nat) : Upholds (Sound P) (linkTable n) := by
  unfold linkTable
  refine Action.upholds_get fun s hs => ?_
  split
  · split
    · exact upholds_linkCases lasting _ _ _ _ s hs
    · exact hs
  · exact hs

theorem upholds_decode (c : Cursor) : Upholds (Sound P) (decode c) := by
  unfold decode
  refine Action.upholds_get fun s hs => ?_
  split
  · exact hs
  · refine Upholds.bind (Action.upholds_modify fun s hs => hs.clear) (fun _ => ?_) s hs
    refine Upholds.bind (upholds_decodeItems lasting _ _ _ _) fun c => ?_
    refine Upholds.bind (Action.upholds_modify fun s hs => hs.congr rfl rfl rfl) fun _ => ?_
    refine Action.upholds_get fun s hs => Upholds.bind (.each (upholds_linkBranch lasting)) (fun _ => ?_) s hs
    refine Action.upholds_get fun s hs => Upholds.bind (.each (upholds_linkTable lasting)) (fun _ => ?_) s hs
    refine Upholds.bind (Action.upholds_modify fun s hs => ?_) fun _ => Action.upholds_pure _
    exact ((marked_markPadding s).sound lasting.marked hs).relaid lasting

/-! ## Refreshes -/

theorem upholds_refreshItem (n : Nat) : Upholds (Sound P) (refreshItem n) := by
  unfold refreshItem
  refine Action.upholds_get fun s hs => ?_
  split
  · exact hs
  · exact hs
  · next x _ hx =>
    have modified : Sound P (s.modifyItem n fun _ => (Item.refresh.apply x).2) :=
      hs.modifyItem fun _ _ => lasting.refreshed (hs.holds n x hx)
    refine Action.after_bind modified fun _ _ e => ?_
    obtain rfl := Action.gives_modify.1 e
    exact modified

theorem upholds_refresh : Upholds (Sound P) refresh := by
  unfold refresh
  refine Action.upholds_get fun s hs => ?_
  split
  · exact hs
  · refine Upholds.bind (Action.upholds_modify fun s hs => hs.relaid lasting) (fun _ => ?_) s hs
    have passes : ∀ fuel, Upholds (Sound P) (settle fuel) :=
      upholds_settle (fun _ _ step h => h.recode lasting step) fun _ h => h.laidOut lasting
    refine Action.upholds_get fun s hs => Upholds.bind (passes _) (fun _ => ?_) s hs
    refine Action.upholds_get fun s hs => Upholds.bind (.each (upholds_refreshItem lasting)) (fun _ => ?_) s hs
    exact Action.upholds_modify fun s hs => hs.congr rfl rfl rfl

/-! ## Assembly -/

omit lasting in
/-- `assembleElement` changes only the pool. -/
theorem upholds_assembleElement (body : Body) (e : Element) : Upholds (Sound P) (assembleElement body e) := by
  unfold assembleElement
  split
  · exact Upholds.bind (Action.upholds_on fun _ s hs => hs.congr rfl rfl rfl) fun _ => Action.upholds_pure _
  · exact Action.upholds_pure _
  · exact Action.upholds_pure _
  · exact Upholds.bind (Action.upholds_lift _) fun _ => Action.upholds_pure _
  · exact Action.upholds_pure _

theorem upholds_addElement {body : Body} {e : Element} (p : Progress)
    (assembled : ∀ s x t, (assembleElement body e).Gives s (some x) t → P x) : Upholds (Sound P) (addElement body p e) := by
  unfold addElement
  split
  · split
    · exact Action.upholds_refuse _
    · exact Action.upholds_pure _
  · intro s hs
    refine Action.after_bind (upholds_assembleElement body _ s hs) fun made t run => ?_
    have ht : Sound P t := (upholds_assembleElement body _).gives hs run
    split
    · exact ht
    · next x =>
      have hx : P x := assembled s x t run
      exact Action.upholds_get (fun s hs => Upholds.bind (upholds_push lasting hx) (fun _ => Action.upholds_pure _) s hs) t ht

theorem upholds_resolveCases (find : Bytes → Except Stop Handle) (names : List Bytes) (n : Nat) : Upholds (Sound P) (do
    let s ← get
    let (r, cases) := resolveCases find names (((s.node? n).map fun x => x.item.cases).getD [])
    set (s.modifyItem n (Item.setCases cases))
    r : Action Sequence PUnit) := by
  refine Action.upholds_get fun s hs => ?_
  have resolved : Sound P (s.modifyItem n
      (Item.setCases (resolveCases.{0} find names (((s.node? n).map fun x => x.item.cases).getD [])).2)) := by
    refine hs.recase lasting fun x hx => ?_
    obtain ⟨y, hy, rfl⟩ := item?_eq_some.1 hx
    rw [length_resolveCases, hy, Option.map_some, Option.getD_some]
  refine Action.after_bind (I := Sound P) resolved fun _ t e => ?_
  rw [← Action.gives_set.1 e]
  exact resolved

theorem upholds_resolveElement (labels : List (Bytes × Handle)) (n : Nat) (e : Element) :
    Upholds (Sound P) (resolveElement labels n e) := by
  unfold resolveElement
  dsimp only
  split
  · split
    · exact Action.upholds_pure _
    · refine Upholds.bind (Action.upholds_lift _) fun k => Action.upholds_modify fun s hs => ?_
      refine hs.relinkItem lasting fun x _ => ?_
      cases x <;> rfl
  · exact upholds_resolveCases lasting _ _ n
  · exact upholds_resolveCases lasting _ _ n
  · exact Action.upholds_pure _

theorem upholds_addElements {body : Body}
    (assembled : ∀ e ∈ body.elements, ∀ s x t, (assembleElement body e).Gives s (some x) t → P x) :
    Upholds (Sound P) (addElements body) := by
  unfold addElements
  refine upholds_bracketed lasting (Upholds.bind (.foldlM (fun p e he => upholds_addElement lasting p (assembled e he)) _) fun p => ?_)
  exact Upholds.bind (.each fun _ => upholds_resolveElement lasting _ _ _) fun _ => Action.upholds_pure _

end Attempts

/-! ## Every history -/

/-- An edit or an attempt at one; what a failed one has changed stays. New items are made from scratch and may be
edited in place. An instruction is given another opcode, by itself or with the table that it owns, only if it is
`free`. A node is replaced only by one that is not in the sequence (`detached`). -/
inductive Attempt (free : Instruction → Prop) : Sequence → Sequence → Prop where
  | outside (s : Sequence) (size : Option Cell) (pool : Option Pool) (moves : Array (Handle × Handle)) :
      Attempt free s { s with size, pool, moves }
  | create (s : Sequence) {x : Item} (made : x.Made) : Attempt free s (s.create x).2
  | insert {s t : Sequence} {n : Nat} {i : Int} {h : Handle} (present : (s.node? n).isSome)
      (run : s.insert i n = .ok (h, t)) : Attempt free s t
  | insertItem (s : Sequence) (i : Int) {x : Item} (made : x.Made) : Attempt free s ((insertItem i x).apply s).2
  | push (s : Sequence) {x : Item} (made : x.Made) : Attempt free s ((push x).apply s).2
  | removeAt {s t : Sequence} {n : Nat} {i : Int} (run : s.removeAt i = .ok (n, t)) : Attempt free s t
  | remove {s t : Sequence} {n : Nat} {found : Bool} (run : s.remove n = .ok (found, t)) : Attempt free s t
  | replace {s t : Sequence} {old new : Nat} (present : (s.node? new).isSome) (detached : s.handle? new = none)
      (run : s.replace old new = .ok t) : Attempt free s t
  | setTarget {s t : Sequence} {n : Nat} {h : Handle} (run : s.setTarget n h = .ok t) : Attempt free s t
  | edit {s : Sequence} {n : Nat} {x y : Item} (hx : s.item? n = some x) (h : x.Edited y) (pool : Option Pool) :
      Attempt free s { s.modifyItem n (fun _ => y) with pool }
  | opcode {s : Sequence} {n : Nat} {x y : Instruction} {op : Opcode} (hx : s.item? n = some (.plain x)) (hfree : free x)
      (mem : op ∈ Opcode.all) (h : x.setOpcode op = .ok y) : Attempt free s (s.modifyItem n fun _ => .plain y)
  | toSparse {s : Sequence} {n : Nat} (convertible : Convertible free s n) : Attempt free s ((toSparse n).apply s).2
  | toPacked {s : Sequence} {n : Nat} (convertible : Convertible free s n) : Attempt free s ((toPacked n).apply s).2
  | openBracket (s : Sequence) : Attempt free s s.openBracket
  | closeBracket {s t : Sequence} (run : s.closeBracket = .ok t) : Attempt free s t
  | addElements (s : Sequence) {body : Body} (known : Known body) : Attempt free s ((addElements body).apply s).2
  | decode (s : Sequence) (c : Cursor) : Attempt free s ((decode c).apply s).2
  | refresh (s : Sequence) : Attempt free s (refresh.apply s).2

/-- Sequences that attempts make of an empty one: edits, decodings and refreshes, whether or not they succeed. -/
inductive Attempted (free : Instruction → Prop) : Sequence → Prop where
  | new (size : Option Cell) (pool : Option Pool) : Attempted free { size, pool }
  | step {s t : Sequence} (attempted : Attempted free s) (step : Attempt free s t) : Attempted free t

theorem Attempt.sound (lasting : Item.Lasting free P) (step : Attempt free s t) (h : Sound P s) : Sound P t := by
  cases step with
  | outside size pool moves => exact h.congr rfl rfl rfl
  | create made => exact h.create (lasting.made made)
  | insert present run => exact h.insert lasting present run
  | insertItem i made => exact upholds_insertItem lasting i (lasting.made made) s h
  | push made => exact upholds_push lasting (lasting.made made) s h
  | removeAt run => exact h.removeAt lasting run
  | remove run => exact h.remove lasting run
  | replace present detached run => exact h.replace lasting present detached run
  | setTarget run => exact h.setTarget lasting run
  | @edit n x y hx edited pool =>
    have modified : Sound P (s.modifyItem n fun _ => y) := h.modifyItem fun _ _ => lasting.edited edited (h.holds n x hx)
    exact modified.congr rfl rfl rfl
  | opcode hx hfree mem stored => exact h.modifyItem fun _ _ => lasting.opcode hfree mem stored (h.holds _ _ hx)
  | toSparse convertible => exact h.toSparse lasting convertible
  | toPacked convertible => exact h.toPacked lasting convertible
  | openBracket => exact h.congr rfl rfl rfl
  | closeBracket run => exact h.closeBracket lasting run
  | addElements known =>
    refine upholds_addElements lasting (fun e he s x t run => ?_) s h
    exact lasting.made ((gives_assembleElement (fun i same => known i (same ▸ he)) run).2 x rfl)
  | decode c => exact upholds_decode lasting c s h
  | refresh => exact upholds_refresh lasting s h

theorem Attempted.sound (lasting : Item.Lasting free P) (h : Attempted free s) : Sound P s := by
  induction h with
  | new size pool => exact sound_new size pool
  | step _ step ih => exact step.sound lasting ih

/-! ## Items of any kind -/

/-- Every item is filed under a handle of its own. -/
def Filed (s : Sequence) : Prop := Linked s s.items.toList

namespace Filed

theorem sound (h : Filed s) : Sound (fun _ => True) s := ⟨h, fun _ _ _ => trivial⟩

theorem congr (h : Filed s) (nodes : t.nodes = s.nodes) (items : t.items = s.items) (arena : t.arena = s.arena) : Filed t :=
  (h.sound.congr nodes items arena).linked

theorem new (size : Option Cell) (pool : Option Pool) : Filed { size, pool } := (sound_new (P := fun _ => True) size pool).linked

theorem upholds {α : Type} {act : Action Sequence α} (h : Upholds (Sound fun _ => True) act) : Upholds Filed act :=
  fun s hs => (h s (sound hs)).linked

end Filed

/-- An edit or an attempt at one; what a failed one has changed stays. An item may be given any contents in place.
`replace` is only taken with a node that is not in the sequence (`detached`), since it does not check that itself;
`insert` does. -/
inductive Edit : Sequence → Sequence → Prop where
  | outside (s : Sequence) (size : Option Cell) (pool : Option Pool) : Edit s { s with size, pool }
  | create (s : Sequence) (x : Item) : Edit s (s.create x).2
  | insert {s t : Sequence} {n : Nat} {i : Int} {h : Handle} (known : (s.node? n).isSome)
      (run : s.insert i n = .ok (h, t)) : Edit s t
  | insertItem (s : Sequence) (i : Int) (x : Item) : Edit s ((insertItem i x).apply s).2
  | push (s : Sequence) (x : Item) : Edit s ((push x).apply s).2
  | removeAt {s t : Sequence} {n : Nat} {i : Int} (run : s.removeAt i = .ok (n, t)) : Edit s t
  | remove {s t : Sequence} {n : Nat} {found : Bool} (run : s.remove n = .ok (found, t)) : Edit s t
  /-- `new` is not in the sequence before, which `replace` does not check. -/
  | replace {s t : Sequence} {old new : Nat} (known : (s.node? new).isSome) (detached : s.handle? new = none)
      (run : s.replace old new = .ok t) : Edit s t
  | setTarget {s t : Sequence} {n : Nat} {h : Handle} (run : s.setTarget n h = .ok t) : Edit s t
  | modifyItem (s : Sequence) (n : Nat) (f : Item → Item) : Edit s (s.modifyItem n f)
  | toSparse (s : Sequence) (n : Nat) : Edit s ((toSparse n).apply s).2
  | toPacked (s : Sequence) (n : Nat) : Edit s ((toPacked n).apply s).2
  | openBracket (s : Sequence) : Edit s s.openBracket
  | closeBracket {s t : Sequence} (run : s.closeBracket = .ok t) : Edit s t
  | addElements (s : Sequence) (body : Body) : Edit s ((addElements body).apply s).2
  | decode (s : Sequence) (c : Cursor) : Edit s ((decode c).apply s).2
  | refresh (s : Sequence) : Edit s (refresh.apply s).2

theorem Edit.filed (edit : Edit s t) (h : Filed s) : Filed t := by
  have lasting := Item.lasting_true
  have sound := h.sound
  refine Sound.linked (P := fun _ => True) ?_
  cases edit with
  | outside size pool => exact sound.congr rfl rfl rfl
  | create x => exact sound.create trivial
  | insert known run => exact sound.insert lasting known run
  | insertItem i x => exact upholds_insertItem lasting i trivial s sound
  | push x => exact upholds_push lasting trivial s sound
  | removeAt run => exact sound.removeAt lasting run
  | remove run => exact sound.remove lasting run
  | replace known detached run => exact sound.replace lasting known detached run
  | setTarget run => exact sound.setTarget lasting run
  | modifyItem n f => exact sound.modifyItem fun _ _ => trivial
  | toSparse n => exact sound.toSparse lasting fun _ _ _ _ _ _ _ _ => trivial
  | toPacked n => exact sound.toPacked lasting fun _ _ _ _ _ _ _ _ => trivial
  | openBracket => exact sound.congr rfl rfl rfl
  | closeBracket run => exact sound.closeBracket lasting run
  | addElements body => exact upholds_addElements lasting (fun _ _ _ _ _ _ => trivial) s sound
  | decode c => exact upholds_decode lasting c s sound
  | refresh => exact upholds_refresh lasting s sound

end Sequence

end Dalvik
