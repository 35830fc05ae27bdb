import Dalvik.Proofs.Operands
import Dalvik.Proofs.Sequence.Labels
import Dalvik.Proofs.Sequence.Linking

/-!
# Items as elements

An item whose targets have labels is written as an element of a body (`exists_element`). What
`assembleElement` makes of that element is an item of the same kind and size without targets
(`Retold`), and resolving the labels gives it as many targets as the item had
(`gives_resolveElement`).
-/

namespace Dalvik

open Dalvik.Action (except_bind_eq_ok)
open Assembly (Body Element)

/-! ## What an item leads to -/

namespace Item

/-- The handles that an item refers to, each with the kind of label that is set at its place. -/
def leads : Item → List (LabelKind × Handle)
  | .plain i => if i.hasTarget then [(.ofBranch i.opcode, i.target)] else []
  | x => x.cases.map fun c => (x.caseLabel, c.handle)

theorem mem_leads {x : Item} {l : LabelKind × Handle} : l ∈ x.leads ↔
    (∃ i, x = .plain i ∧ i.hasTarget = true ∧ l = (.ofBranch i.opcode, i.target)) ∨ ∃ c ∈ x.cases, l = (x.caseLabel, c.handle) := by
  cases x with
  | plain i => simp [leads, cases]
  | _ =>
    refine ⟨fun h => ?_, ?_⟩
    · obtain ⟨c, hc, rfl⟩ := List.mem_map.1 h
      exact .inr ⟨c, hc, rfl⟩
    · rintro (⟨i, ⟨⟩, -⟩ | ⟨c, hc, rfl⟩)
      exact List.mem_map.2 ⟨c, hc, rfl⟩

/-- `x` refers to `h`, and is no table without an owner, whose cases are not written. -/
def Aims (x : Item) (h : Handle) : Prop := (∃ l ∈ x.leads, l.2 = h) ∧ ∀ o, x.owner? = some o → 0 ≤ o

theorem leads_of_payload {x : Item} (payload : x.isPayload = true) : x.leads = x.cases.map fun c => (x.caseLabel, c.handle) := by
  cases x with
  | plain i => cases payload
  | _ => rfl

theorem cases_of_unowned {x : Item} (absent : x.owner? = none) : x.cases = [] := by
  cases x with
  | plain i => rfl
  | array a => rfl
  | _ => cases absent

theorem exists_owner?_of_case {x : Item} {c : Case} (hc : c ∈ x.cases) : ∃ o, x.owner? = some o := by
  cases x with
  | plain i => cases hc
  | array a => cases hc
  | _ => exact ⟨_, rfl⟩

/-- `x.Retold y`: `y` is what is made from the element of `x`, before its labels are resolved. -/
inductive Retold : Item → Item → Prop where
  | plain {i j : Instruction} (retuned : Instruction.Retuned (.blank i.opcode) j) (copies : i.Copies j) : Retold (.plain i) (.plain j)
  | packed {p q : PackedTable} (identifier : q.identifier = UInt16.ofNat Opcode.packedSwitchPayload.value)
      (owner : q.owner = .none) (first : q.first = p.first) (cases : q.cases = List.replicate p.cases.length ({} : Case)) : Retold (.packed p) (.packed q)
  | sparse {t u : SparseTable} (identifier : u.identifier = UInt16.ofNat Opcode.sparseSwitchPayload.value)
      (owner : u.owner = .none) (keys : u.keys = t.keys) (cases : u.cases = List.replicate t.cases.length ({} : Case)) :
      Retold (.sparse t) (.sparse u)
  | array {a b : ArrayPayload} (filled : ({} : ArrayPayload).setValues a.width.toNat a.values = .ok b) (shaped : b.Shaped)
      (length : b.data.length = a.data.length) : Retold (.array a) (.array b)

/-- The item has no data that its element does not show. -/
def Terse : Item → Prop
  | .plain i => i.Canonical
  | .array a => ∀ b ∈ a.pad, b = 0
  | _ => True

instance (x : Item) : Decidable x.Terse :=
  match x with
  | .plain i => inferInstanceAs (Decidable i.Canonical)
  | .array a => inferInstanceAs (Decidable (∀ b ∈ a.pad, b = 0))
  | .packed _ => isTrue trivial
  | .sparse _ => isTrue trivial

/-- `y` shows the same data as the element of `x`. -/
def Repeats : Item → Item → Prop
  | .plain i, .plain j => i.Copies j
  | .packed p, .packed q => q.first = p.first
  | .sparse t, .sparse u => u.keys = t.keys
  | .array a, .array b => ({} : ArrayPayload).setValues a.width.toNat a.values = .ok b
  | _, _ => False

theorem owner?_of_repeats {x y : Item} (repeats : x.Repeats y) : y.owner?.isSome = x.owner?.isSome := by
  cases x <;> cases y <;> first | rfl | cases repeats

theorem repeats_setOwner {x y : Item} {o : Handle} : x.Repeats (y.setOwner o) ↔ x.Repeats y := by
  cases x <;> cases y <;> rfl

/-- The item with the handles `hs` as its targets. -/
def aimed (hs : List Handle) : Item → Item
  | .plain i => .plain { i with target := hs.headD i.target }
  | x => x.setCases (hs.map fun h => { handle := h })

/-- `y` takes the place of `x`: it has the same opcode and takes as much room, and its targets are related by `R` to
those of `x`, one by one. -/
structure Echo (R : Handle → Handle → Prop) (x y : Item) : Prop where
  shaped : y.Shaped
  opcode : y.opcode = x.opcode
  isPayload : y.isPayload = x.isPayload
  isPadding : y.isPadding = false
  codeUnits : y.codeUnits = x.codeUnits
  repeats : x.Repeats y
  leads : List.Forall₂ (fun l m => R l.2 m.2) x.leads y.leads

/-- An item that was made from the element of `x` takes the place of `x` once its labels are resolved. -/
theorem Retold.echo {R : Handle → Handle → Prop} {x z : Item} {hs : List Handle} (h : x.Retold z) (shaped : x.Shaped)
    (solid : x.isPadding = false) (stands : List.Forall₂ (fun l k => R l.2 k) x.leads hs) : x.Echo R (z.aimed hs) := by
  cases h with
  | @plain i j retuned copies =>
    have hi : i.Shaped := shaped
    have hj := retuned.shaped (Instruction.shaped_blank hi.mem)
    have opcode : j.opcode = i.opcode := retuned.opcode
    refine ⟨⟨hj.mem, hj.length, hj.low⟩, opcode, rfl, retuned.isPadding, ?_, copies.retarget _, ?_⟩
    · change j.units.length = i.units.length
      rw [hj.length, hi.length, opcode]
    · have same : ({ j with target := hs.headD j.target } : Instruction).hasTarget = i.hasTarget := by
        rw [Instruction.hasTarget, Instruction.hasTarget, opcode]
      simp only [leads, aimed, same] at stands ⊢
      split
      · next has =>
        rw [if_pos has] at stands
        obtain ⟨k, hs, here, -, rfl⟩ := List.forall₂_cons_left_iff.1 stands
        exact .cons here .nil
      · exact .nil
  | @packed p q identifier owner first sameCases =>
    have length : p.cases.length = hs.length := by simpa [leads, cases] using stands.length_eq
    refine ⟨identifier, rfl, rfl, rfl, ?_, first, ?_⟩
    · simp [codeUnits, byteCount, aimed, setCases, PackedTable.byteCount, length]
    · change List.Forall₂ _ _ ((hs.map _).map _)
      rw [List.map_map]
      exact List.forall₂_map_right_iff.2 stands
  | @sparse t u identifier owner keys sameCases =>
    have length : t.cases.length = hs.length := by simpa [leads, cases] using stands.length_eq
    obtain ⟨-, count⟩ : _ ∧ t.keys.length = t.cases.length := shaped
    refine ⟨⟨identifier, ?_⟩, rfl, rfl, rfl, ?_, keys, ?_⟩
    · rw [keys, count, length]
      exact (List.length_map _).symm
    · simp [codeUnits, byteCount, aimed, setCases, SparseTable.byteCount, length, keys]
    · change List.Forall₂ _ _ ((hs.map _).map _)
      rw [List.map_map]
      exact List.forall₂_map_right_iff.2 stands
  | @array a b filled ha length =>
    have units : (Item.array b).codeUnits = (Item.array a).codeUnits := by
      have pad : b.pad.length = a.pad.length := by rw [ha.pad, (show a.Shaped from shaped).pad, length]
      simp only [codeUnits, byteCount, ArrayPayload.byteCount, length, pad]
    exact ⟨ha, rfl, rfl, rfl, units, filled, .nil⟩

end Item

/-! ## Payloads -/

theorem ArrayPayload.length_chunks (w : Nat) (s : Bytes) : (chunks w s).length = s.length / (w + 1) := by
  induction n : s.length using Nat.strongRecOn generalizing s with
  | ind n ih =>
    rw [chunks]
    split
    · next whole =>
      rw [List.length_take] at whole
      rw [List.length_cons, ih (s.drop (w + 1)).length (by rw [List.length_drop]; omega) _ rfl, List.length_drop, n]
      have le : w + 1 ≤ s.length := by omega
      rw [n] at le
      rw [← Nat.div_eq_sub_div (Nat.succ_pos w) le]
    · next short =>
      rw [List.length_take] at short
      rw [List.length_nil, Nat.div_eq_of_lt (by omega)]

theorem ArrayPayload.Shaped.width_pos {a : ArrayPayload} (ha : a.Shaped) : 0 < a.width.toNat := by
  have := ha.width
  simp only [isWidth, Bool.or_eq_true, decide_eq_true_eq] at this
  omega

/-- The values of a well-formed array payload can be stored in a new payload, with as many bytes. -/
theorem ArrayPayload.Shaped.exists_setValues {a : ArrayPayload} (ha : a.Shaped) : ∃ b : ArrayPayload,
    ({} : ArrayPayload).setValues a.width.toNat a.values = .ok b ∧ b.Shaped ∧ b.data.length = a.data.length := by
  have assigned : ∃ b, ({} : ArrayPayload).setValues a.width.toNat a.values = .ok b := by
    rw [setValues, if_pos ha.width]
    exact ⟨_, rfl⟩
  obtain ⟨b, hb⟩ := assigned
  refine ⟨b, hb, Item.shaped_setValues hb ⟨rfl, rfl, ⟨0, rfl, rfl⟩, rfl⟩, ?_⟩
  rw [setValues, if_pos ha.width] at hb
  cases hb
  obtain ⟨n, length, -⟩ := ha.count
  have width : a.width.toNat - 1 + 1 = a.width.toNat := Nat.sub_add_cancel ha.width_pos
  rw [Item.length_flatMap_toLittleEndian, Int.toNat_natCast, values, List.length_map, length_chunks, width, length,
    Nat.mul_div_cancel_left _ ha.width_pos]

theorem SparseTable.foldl_push (cs : List (Int × Bytes)) (t : SparseTable) :
    let u := cs.foldl (fun t (k, _) => t.push k {}) t
    u.identifier = t.identifier ∧ u.owner = t.owner ∧ u.keys = t.keys ++ cs.map (fun c => UInt32.ofInt c.1) ∧
      u.cases = t.cases ++ List.replicate cs.length ({} : Case) := by
  induction cs generalizing t with
  | nil => simp
  | cons c cs ih =>
    obtain ⟨identifier, owner, keys, cases⟩ := ih (t.push c.1 {})
    refine ⟨identifier, owner, ?_, ?_⟩
    · simp only [List.foldl_cons]
      rw [keys]
      simp [push, updateSize]
    · simp only [List.foldl_cons]
      rw [cases]
      simp [push, updateSize, List.replicate_succ]

theorem SparseTable.ofInt_values (t : SparseTable) : t.values.map UInt32.ofInt = t.keys := by
  rw [values, List.map_map]
  conv_rhs => rw [← List.map_id t.keys]
  refine List.map_congr_left fun k _ => ?_
  rw [Function.comp_apply, ofInt_signed32, id]

/-- The sparse table that is made from the values of another table and as many labels. -/
theorem SparseTable.retold {t : SparseTable} {names : List Bytes} (keys : t.keys.length = t.cases.length)
    (length : t.cases.length = names.length) :
    (Item.sparse t).Retold (.sparse ((t.values.zip names).foldl (fun t (k, _) => t.push k {}) {})) := by
  have values : t.values.length = names.length := by rw [SparseTable.values, List.length_map, keys, length]
  obtain ⟨identifier, owner, keys', cases⟩ := SparseTable.foldl_push (t.values.zip names) {}
  refine .sparse identifier owner ?_ ?_
  · have firsts : (t.values.zip names).map (fun c => UInt32.ofInt c.1) = t.values.map UInt32.ofInt := by
      conv_rhs => rw [← List.map_fst_zip values.le, List.map_map]
      rfl
    rw [keys', List.nil_append, firsts, SparseTable.ofInt_values]
  · rw [cases, List.nil_append, List.length_zip, values, Nat.min_self, length]

namespace Sequence

variable {s t : Sequence} {x : Item} {i : Instruction} {body body' : Body} {e : Element} {a : Int} {n : Nat}

/-! ## Telling -/

/-- The label names that an element refers to. -/
def labelsOf : Element → List Bytes
  | .instruction e => if e.label.isEmpty then [] else [e.label]
  | .packedSwitch e => e.targets
  | .sparseSwitch e => e.cases.map Prod.snd
  | _ => []

/-- `e` is the element of `x`: what it shows is what `x` holds, and its labels are those of the targets of `x`. -/
structure Told (s : Sequence) (body : Body) (x : Item) (e : Element) : Prop where
  line : (∀ l, e ≠ .label l) ∧ ∀ c, e ≠ .catchRange c
  labels : List.Forall₂ (fun l name => s.targetLabel l.1 l.2 = .ok name) x.leads (labelsOf e)
  assembled : ∀ body', body'.locals = body.locals →
    ∃ y, x.Retold y ∧ ∀ t, t.pool = s.pool → (assembleElement body' e).Gives t (some y) t

theorem targetLabel_eq_ok {kind : LabelKind} {h : Handle} {name : Bytes} :
    s.targetLabel kind h = .ok name ↔ h ≠ .finish ∧ ∃ a, s.addressOf? h = some a ∧ name = kind.name a := by
  unfold targetLabel
  by_cases e : h = .finish
  · simp [e, fail]
  · cases s.addressOf? h <;> simp [e, fail, eq_comm]

theorem exists_caseLabels (leads : ∀ c ∈ x.cases, ∃ name, s.targetLabel x.caseLabel c.handle = .ok name) (noun : String) :
    ∃ names, s.caseLabels x noun = .ok names ∧ List.Forall₂ (fun c name => s.targetLabel x.caseLabel c.handle = .ok name) x.cases names := by
  obtain ⟨names, found⟩ := List.exists_forall₂ leads
  refine ⟨names, ?_, found⟩
  rw [caseLabels, Action.except_mapM_eq_ok]
  have numbered : ∀ (k : Nat) (cs : List Case) (names : List Bytes),
      List.Forall₂ (fun c name => s.targetLabel x.caseLabel c.handle = .ok name) cs names →
      List.Forall₂ (fun (p : Case × Nat) name => labelled (ascii noun ++ ascii " case " ++ decimal p.2)
        (s.targetLabel x.caseLabel p.1.handle) = .ok name) (cs.zipIdx k) names := by
    intro k cs names h
    induction h generalizing k with
    | nil => exact .nil
    | cons head _ ih => exact .cons (Action.labelled_eq_ok.2 head) (ih (k + 1))
  exact numbered 0 _ _ found

/-- The label names of the cases of a table stand for the targets of the table. -/
theorem forall₂_leads {names : List Bytes} (table : x.isPayload = true)
    (found : List.Forall₂ (fun (c : Case) name => s.targetLabel x.caseLabel c.handle = .ok name) x.cases names) :
    List.Forall₂ (fun (l : LabelKind × Handle) name => s.targetLabel l.1 l.2 = .ok name) x.leads names := by
  rw [Item.leads_of_payload table]
  exact List.forall₂_map_left_iff.2 found

section Element

variable {node : Node} (leads : ∀ l ∈ node.item.leads, ∃ name, s.targetLabel l.1 l.2 = .ok name)
include leads

/-- `element` succeeds on an instruction if its target has a label. -/
theorem exists_instruction (item : node.item = .plain i) (hi : i.Shaped) (body : Body) :
    ∃ e, s.element node body = .ok (.instruction e) ∧ Tells s.pool body i e ∧
      List.Forall₂ (fun l name => s.targetLabel l.1 l.2 = .ok name) (Item.plain i).leads (labelsOf (.instruction e)) := by
  rw [item] at leads
  obtain ⟨label, target, absent, told⟩ : ∃ label, (i.hasTarget = true → s.targetLabel (.ofBranch i.opcode) i.target = .ok label) ∧
      (i.hasTarget = false → label = []) ∧
      List.Forall₂ (fun (l : LabelKind × Handle) name => s.targetLabel l.1 l.2 = .ok name) (Item.plain i).leads
        (if label.isEmpty then [] else [label]) := by
    cases has : i.hasTarget with
    | false =>
      refine ⟨[], nofun, fun _ => rfl, ?_⟩
      simp [Item.leads, has]
    | true =>
      obtain ⟨name, found⟩ := leads (.ofBranch i.opcode, i.target) (by simp [Item.leads, has])
      obtain ⟨-, a, -, rfl⟩ := targetLabel_eq_ok.1 found
      have nonempty : (LabelKind.name (.ofBranch i.opcode) a).isEmpty = false := by
        rw [List.isEmpty_eq_false_iff]
        exact LabelKind.name_ne_nil _ _
      refine ⟨_, fun _ => found, nofun, ?_⟩
      simp only [Item.leads, has, if_true, nonempty, Bool.false_eq_true, if_false]
      exact .cons found .nil
  have telling : ∃ e, s.instructionElement node i body = .ok e ∧ Tells s.pool body i e ∧ e.label = label :=
    exists_instructionElement hi target absent
  obtain ⟨e, run, tells, rfl⟩ := telling
  refine ⟨e, ?_, tells, told⟩
  simp only [element, item, Item.owner?, Option.any_none, Bool.false_eq_true, if_false]
  exact except_bind_eq_ok.2 ⟨e, run, rfl⟩

theorem exists_element_plain (item : node.item = .plain i) (hi : i.Shaped) (few : i.Few) (sound : ∀ p ∈ s.pool, p.Sound)
    (body : Body) : ∃ e, s.element node body = .ok e ∧ Told s body (.plain i) e := by
  obtain ⟨e, run, tells, told⟩ := exists_instruction leads item hi body
  refine ⟨.instruction e, run, ⟨nofun, nofun⟩, told, fun body' same => ?_⟩
  obtain ⟨y, run, retuned⟩ := gives_assembleInstruction hi few sound tells same
  refine ⟨.plain y, .plain retuned (copies_of_assembleInstruction hi sound tells same run), fun t pool => ?_⟩
  unfold assembleElement
  refine Action.gives_bind.2 ⟨y, t, Action.gives_on.2 ⟨s.pool, by rw [pool]; exact run, ?_⟩, Action.gives_pure.2 ⟨rfl, rfl⟩⟩
  rw [← pool]

theorem exists_element_packed {p : PackedTable} (item : node.item = .packed p) (owned : 0 ≤ p.owner) (body : Body) :
    ∃ e, s.element node body = .ok e ∧ Told s body (.packed p) e := by
  rw [item] at leads
  obtain ⟨names, run, found⟩ := exists_caseLabels (x := .packed p)
    (fun c hc => leads (.packedCase, c.handle) (List.mem_map.2 ⟨c, hc, rfl⟩)) "packed-switch"
  refine ⟨.packedSwitch { firstKey := signed32 p.first, targets := names }, ?_, ⟨nofun, nofun⟩, forall₂_leads rfl found,
    fun body' _ => ⟨_, .packed rfl rfl (ofInt_signed32 p.first) ?_, fun _ _ => rfl⟩⟩
  · simp only [element, item, Item.owner?, Option.any_some, Int.not_lt.2 owned, decide_false, Bool.false_eq_true, if_false]
    exact except_bind_eq_ok.2 ⟨names, run, rfl⟩
  · have length : p.cases.length = names.length := found.length_eq
    simp [PackedTable.resize, PackedTable.updateSize, resizeList, length]

theorem exists_element_sparse {t : SparseTable} (item : node.item = .sparse t) (owned : 0 ≤ t.owner)
    (keys : t.keys.length = t.cases.length) (body : Body) : ∃ e, s.element node body = .ok e ∧ Told s body (.sparse t) e := by
  rw [item] at leads
  obtain ⟨names, run, found⟩ := exists_caseLabels (x := .sparse t)
    (fun c hc => leads (.sparseCase, c.handle) (List.mem_map.2 ⟨c, hc, rfl⟩)) "sparse-switch"
  have length : t.cases.length = names.length := found.length_eq
  have values : t.values.length = names.length := by rw [SparseTable.values, List.length_map, keys, length]
  refine ⟨.sparseSwitch { cases := t.values.zip names }, ?_, by simp, ?_, fun body' _ =>
    ⟨_, SparseTable.retold keys length, fun _ _ => rfl⟩⟩
  · simp only [element, item, Item.owner?, Option.any_some, Int.not_lt.2 owned, decide_false, Bool.false_eq_true, if_false]
    exact except_bind_eq_ok.2 ⟨names, run, rfl⟩
  · change List.Forall₂ _ _ ((t.values.zip names).map Prod.snd)
    rw [List.map_snd_zip values.ge]
    exact forall₂_leads rfl found

/-- `element` succeeds on every well-formed item that, if it is a table, has an owner, and whose targets have labels. -/
theorem exists_element (hx : node.item.Shaped) (few : ∀ i, node.item = .plain i → i.Few)
    (owned : ∀ o, node.item.owner? = some o → 0 ≤ o) (sound : ∀ p ∈ s.pool, p.Sound) (body : Body) :
    ∃ e, s.element node body = .ok e ∧ Told s body node.item e := by
  cases item : node.item with
  | plain i =>
    rw [item] at hx
    exact exists_element_plain leads item hx (few i item) sound body
  | packed p => exact exists_element_packed leads item (owned _ (by rw [item]; rfl)) body
  | sparse t =>
    rw [item] at hx
    exact exists_element_sparse leads item (owned _ (by rw [item]; rfl)) hx.2 body
  | array a =>
    rw [item] at hx
    obtain ⟨b, stored, shaped, length⟩ := ArrayPayload.Shaped.exists_setValues (show a.Shaped from hx)
    refine ⟨.arrayData { width := a.width.toNat, values := a.values }, ?_, ⟨nofun, nofun⟩, .nil, fun body' _ =>
      ⟨.array b, .array stored shaped length, fun t _ => ?_⟩⟩
    · simp only [element, item, Item.owner?, Option.any_none, Bool.false_eq_true, if_false]
      rfl
    · unfold assembleElement
      exact Action.gives_bind.2 ⟨b, t, Action.gives_lift.2 ⟨Action.labelled_eq_ok.2 stored, rfl⟩, Action.gives_pure.2 ⟨rfl, rfl⟩⟩

end Element

/-! ## Resolving -/

theorem resolveCases_eq {find : Bytes → Except Stop Handle} {names : List Bytes} {hs : List Handle}
    (found : List.Forall₂ (fun name h => find name = .ok h) names hs) :
    resolveCases find names (List.replicate names.length {}) = (.ok ⟨⟩, hs.map fun h => { handle := h }) := by
  induction found with
  | nil => rfl
  | cons head _ ih =>
    rw [List.length_cons, List.replicate_succ, resolveCases, head]
    simp only [ih]
    rfl

/-- `resolveElement` gives an item made from `e` the handles that the labels of `e` stand for. -/
theorem gives_resolveElement {labels : List (Bytes × Handle)} {hs : List Handle} {w : Sequence} {z : Item}
    (made : (assembleElement body e).Gives s (some z) t) (item : w.item? n = some z)
    (found : List.Forall₂ (fun name h => findLabel labels e.origin name = .ok h) (labelsOf e) hs) :
    (resolveElement labels n e).Gives w ⟨⟩ (w.modifyItem n fun _ => z.aimed hs) := by
  -- The cases of a table that was just made.
  have table : ∀ names : List Bytes, z.cases = List.replicate names.length {} → z.aimed hs = z.setCases (hs.map fun h => { handle := h }) →
      List.Forall₂ (fun name h => findLabel labels e.origin name = .ok h) names hs →
      w.modifyItem n (Item.setCases (resolveCases.{0} (findLabel labels e.origin) names
        (((w.node? n).map fun x => x.item.cases).getD [])).2) = w.modifyItem n (fun _ => z.aimed hs) ∧
      (resolveCases (findLabel labels e.origin) names (((w.node? n).map fun x => x.item.cases).getD [])).1 = .ok ⟨⟩ := by
    intro names fresh aimed found
    obtain ⟨x, hx, rfl⟩ := item?_eq_some.1 item
    have now : ((w.node? n).map fun x => x.item.cases).getD [] = List.replicate names.length {} := by
      rw [hx, Option.map_some, Option.getD_some, fresh]
    rw [now, resolveCases_eq found, aimed]
    refine ⟨modifyItem_congr fun y hy => ?_, rfl⟩
    rw [item] at hy
    cases hy
    rfl
  cases e with
  | label l => simp [assembleElement] at made
  | catchRange c => simp [assembleElement] at made
  | instruction e =>
    simp only [assembleElement, Action.gives_bind, Action.gives_pure] at made
    obtain ⟨i, _, -, made, -⟩ := made
    obtain rfl : Item.plain i = z := Option.some.inj made
    simp only [resolveElement]
    cases absent : e.label.isEmpty with
    | true =>
      simp only [labelsOf, absent, if_true, List.forall₂_nil_left_iff] at found
      subst found
      simp only [if_true]
      exact Action.gives_pure.2 ⟨rfl, (modifyItem_self item).symm⟩
    | false =>
      simp only [labelsOf, absent, Bool.false_eq_true, if_false] at found
      obtain ⟨k, _, head, rest, rfl⟩ := List.forall₂_cons_left_iff.1 found
      cases rest
      simp only [Bool.false_eq_true, if_false]
      refine Action.gives_bind.2 ⟨k, w, Action.gives_lift.2 ⟨head, rfl⟩, Action.gives_modify.2 ?_⟩
      refine modifyItem_congr fun y hy => ?_
      rw [item] at hy
      cases hy
      rfl
  | packedSwitch e =>
    simp only [assembleElement, Action.gives_pure] at made
    obtain rfl := Option.some.inj made.1
    obtain ⟨same, ok⟩ := table e.targets (by simp [Item.cases, PackedTable.resize, PackedTable.updateSize, resizeList]) rfl found
    simp only [resolveElement, Action.gives_bind, Action.gives_get, Action.gives_set, Action.gives_lift]
    exact ⟨w, w, ⟨rfl, rfl⟩, ⟨⟩, _, rfl, ok, same⟩
  | sparseSwitch e =>
    simp only [assembleElement, Action.gives_pure] at made
    obtain rfl := Option.some.inj made.1
    have fresh := (SparseTable.foldl_push e.cases {}).2.2.2
    obtain ⟨same, ok⟩ := table (e.cases.map Prod.snd) (by simpa [Item.cases] using fresh) rfl found
    simp only [resolveElement, Action.gives_bind, Action.gives_get, Action.gives_set, Action.gives_lift]
    exact ⟨w, w, ⟨rfl, rfl⟩, ⟨⟩, _, rfl, ok, same⟩
  | arrayData e =>
    simp only [assembleElement, Action.gives_bind, Action.gives_lift, Action.gives_pure] at made
    obtain ⟨a, _, -, made, -⟩ := made
    obtain rfl : Item.array a = z := Option.some.inj made
    exact Action.gives_pure.2 ⟨rfl, (modifyItem_self item).symm⟩

end Sequence

end Dalvik
