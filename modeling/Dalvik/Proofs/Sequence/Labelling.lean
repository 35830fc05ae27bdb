import Dalvik.Proofs.Sequence.Consistent
import Dalvik.Proofs.Sequence.Declaring
import Dalvik.Proofs.Sequence.Passes
import Dalvik.Proofs.Sequence.Telling

/-!
# Labels of a refreshed sequence

`toElements` declares labels for the references that were collected when `refresh` began, and uses
labels for what items lead to when it has ended. In between, layouts may drop padding, and what led
there then leads elsewhere (`Tracks`). So no label is declared twice, and every label that is used
is declared if nothing led to padding that was dropped (`labels_of_refresh`).
-/

namespace Dalvik

/-- Jumps are branches, and their targets have labels of the kind `goto`. -/
theorem Opcode.ofBranch_jump : ∀ name ∈ [ascii "goto", ascii "goto/16", ascii "goto/32"], ∀ o ∈ ofName? name,
    o.is .branch = true ∧ LabelKind.ofBranch o = .goto := by
  decide +kernel

/-- Widening a jump does not change the kind of the label. -/
theorem Sequence.ofBranch_of_wider {o o' : Opcode} (mem : o ∈ Opcode.all) (h : wider? o = some o') :
    o'.is .branch = true ∧ LabelKind.ofBranch o' = LabelKind.ofBranch o := by
  have jump : ∀ {o : Opcode}, o ∈ Opcode.all → o.name ∈ [ascii "goto", ascii "goto/16", ascii "goto/32"] →
      o.is .branch = true ∧ LabelKind.ofBranch o = .goto :=
    fun mem name => Opcode.ofBranch_jump _ name _ (Opcode.ofName?_name mem)
  obtain ⟨name, name'⟩ : o.name ∈ [ascii "goto", ascii "goto/16", ascii "goto/32"] ∧
      o'.name ∈ [ascii "goto", ascii "goto/16", ascii "goto/32"] := by
    obtain ⟨name, name'⟩ | ⟨name, name'⟩ := name_of_wider? h <;> simp [name, name']
  obtain ⟨-, kind⟩ := jump mem name
  obtain ⟨branch, kind'⟩ := jump (Item.mem_all_of_wider? h) name'
  exact ⟨branch, kind'.trans kind.symm⟩

namespace Item

theorem leads_retarget (x : Item) (source dest : Handle) :
    (x.retarget source dest).leads = x.leads.map fun l => (l.1, if l.2 = source then dest else l.2) := by
  have moved : ∀ (kind : LabelKind) (cs : List Case), (cs.map (Case.retarget source dest)).map (fun c => (kind, c.handle)) =
      (cs.map fun c => (kind, c.handle)).map fun l => (l.1, if l.2 = source then dest else l.2) := by
    intro kind cs
    rw [List.map_map, List.map_map]
    refine List.map_congr_left fun c _ => ?_
    simp only [Function.comp_apply, Case.retarget]
    split <;> rfl
  cases x with
  | plain i =>
    have target : leads (.plain (if i.target = source then { i with target := dest } else i)) =
        if i.hasTarget then [(.ofBranch i.opcode, if i.target = source then dest else i.target)] else [] := by
      split <;> rfl
    rw [retarget, target, leads]
    split <;> rfl
  | packed p => exact moved .packedCase p.cases
  | sparse t => exact moved .sparseCase t.cases
  | array a => rfl

theorem leads_setCases (x : Item) {cs : List Case} (handles : cs.map Case.handle = x.cases.map Case.handle) :
    (x.setCases cs).leads = x.leads := by
  have same : ∀ (kind : LabelKind) (ds : List Case), cs.map Case.handle = ds.map Case.handle →
      (cs.map fun c => (kind, c.handle)) = ds.map fun c => (kind, c.handle) := by
    intro kind ds handles
    have paired := congrArg (List.map (Prod.mk kind)) handles
    rwa [List.map_map, List.map_map] at paired
  cases x with
  | packed p => exact same .packedCase p.cases handles
  | sparse t => exact same .sparseCase t.cases handles
  | _ => rfl

theorem leads_plain_congr {i j : Instruction} (has : j.hasTarget = i.hasTarget)
    (kind : LabelKind.ofBranch j.opcode = LabelKind.ofBranch i.opcode) (target : j.target = i.target) :
    leads (.plain j) = leads (.plain i) := by
  rw [leads, leads, has, kind, target]

/-- Refreshing a table may only reorder what it leads to. -/
theorem mem_leads_refresh {x y : Item} (hy : y.Shaped) (run : Item.refresh.Gives x ⟨⟩ y) {l : LabelKind × Handle}
    (hl : l ∈ y.leads) : l ∈ x.leads := by
  cases x with
  | sparse t =>
    unfold Item.refresh at run
    simp only [Action.gives_of] at run
    rcases e : SparseTable.refresh.apply t with ⟨r, u⟩
    rw [e] at run
    cases run
    obtain ⟨c, hc, rfl⟩ := List.mem_map.1 hl
    obtain ⟨k, pair⟩ := mem_pairs_of_mem_cases hy hc
    rw [pairs_sparse] at pair
    obtain ⟨q, hq, same⟩ := List.mem_map.1 pair
    have mem := (List.of_mem_zip ((SparseTable.gives_refresh e).1.pairs.mem_iff.1 hq)).2
    cases same
    exact List.mem_map_of_mem mem
  | _ =>
    cases run
    exact hl

end Item

namespace Sequence

open Dalvik.Action (except_bind_eq_ok except_ite_bind_eq_ok labelled_eq_ok)
open Assembly (Body Element)

variable {s t u : Sequence} {n : Nat} {ns : List Nat} {g : Bool} {fuel : Nat}
  {body : Body} {extra : List (Int × Bytes)} {es : List Element}

/-! ## What becomes of references -/

/-- The handle was given out and then taken away. -/
def Retired (s : Sequence) (h : Handle) : Prop := 0 ≤ h ∧ s.arena[h.toNat]? = some none

theorem Retired.mono {h : Handle} (retired : Retired s h) (buried : Buried s t) : Retired t h :=
  ⟨retired.1, buried _ retired.2⟩

theorem Retired.named?_eq_none {h : Handle} (retired : Retired s h) : s.named? h = none := by
  rw [named?, if_neg (Int.not_lt.2 retired.1), retired.2]
  rfl

/-- What an item of `t` leads to, the item led to in `s` for the same reason, or the handle it led to is `Retired`.
The collected references are the same. -/
structure Tracks (s t : Sequence) : Prop where
  references : t.references = s.references
  buried : Buried s t
  leads : ∀ n y, (t.handle? n).isSome → t.item? n = some y → ∀ l ∈ y.leads, ∃ x, (s.handle? n).isSome ∧
    s.item? n = some x ∧ y.owner? = x.owner? ∧ ∃ k ∈ x.leads, k.1 = l.1 ∧ (k.2 = l.2 ∨ Retired t k.2)

namespace Tracks

theorem refl (s : Sequence) : Tracks s s :=
  ⟨rfl, .refl s, fun _ y hn hy l hl => ⟨y, hn, hy, rfl, l, hl, rfl, .inl rfl⟩⟩

theorem trans (hst : Tracks s t) (htu : Tracks t u) : Tracks s u where
  references := htu.references.trans hst.references
  buried := hst.buried.trans htu.buried
  leads n z hn hz l hl := by
    obtain ⟨y, hn, hy, owner, k, hk, kind, led⟩ := htu.leads n z hn hz l hl
    obtain ⟨x, hn, hx, owner', j, hj, kind', led'⟩ := hst.leads n y hn hy k hk
    refine ⟨x, hn, hx, owner.trans owner', j, hj, kind'.trans kind, ?_⟩
    rcases led' with e | retired
    · rw [e]
      exact led
    · exact .inr (retired.mono htu.buried)

theorem congr (h : Tracks s t) (nodes : u.nodes = t.nodes) (arena : u.arena = t.arena) (references : u.references = t.references) :
    Tracks s u := by
  obtain ⟨collected, buried, leads⟩ := h
  refine ⟨references.trans collected, fun k hk => arena ▸ buried k hk, ?_⟩
  unfold Retired handle? item? node? at leads ⊢
  rw [nodes, arena]
  exact leads

theorem modifyItem {f : Item → Item} (hf : ∀ x, s.item? n = some x → (f x).owner? = x.owner? ∧ (f x).leads = x.leads) :
    Tracks s (s.modifyItem n f) where
  references := rfl
  buried := .of_arena_eq rfl
  leads m y hm hy l hl := by
    rw [handle?_modifyItem] at hm
    rw [item?_modifyItem] at hy
    split at hy
    · next e =>
      subst e
      obtain ⟨x, hx, rfl⟩ := Option.map_eq_some_iff.1 hy
      obtain ⟨owner, leads⟩ := hf x hx
      exact ⟨x, hm, hx, owner, l, leads ▸ hl, rfl, .inl rfl⟩
    · exact ⟨y, hm, hy, rfl, l, hl, rfl, .inl rfl⟩

end Tracks

/-! ## Layouts -/

theorem Linked.retired_forget {xs : List Nat} (linked : Linked s (n :: xs)) (next : Handle) :
    Retired (s.forget n next) (s.handleOf n) := by
  have nonneg := Linked.handleOf_nonneg s n
  have inside : (s.handleOf n).toNat < s.arena.size := (Int.toNat_lt nonneg).2 (linked.handleOf_lt List.mem_cons_self)
  refine ⟨nonneg, ?_⟩
  rw [arena_forget, Array.getElem?_setIfInBounds_self_of_lt inside]

/-- `forget` retires the handle of the node, and what led there is moved on. -/
theorem tracks_forget {xs : List Nat} (linked : Linked s (n :: xs)) (next : Handle) : Tracks s (s.forget n next) where
  references := rfl
  buried := buried_forget next
  leads m y hm hy l hl := by
    have mem : m ∈ xs := ((linked.forget next).mem_iff m).2 hm
    rw [linked.item?_forget next mem] at hy
    obtain ⟨x, hx, rfl⟩ := Option.map_eq_some_iff.1 hy
    rw [Item.leads_retarget] at hl
    obtain ⟨k, hk, rfl⟩ := List.mem_map.1 hl
    refine ⟨x, (linked.mem_iff m).1 (List.mem_cons_of_mem _ mem), hx, owner?_retarget x _ _, k, hk, rfl, ?_⟩
    dsimp only
    split
    · next e => exact .inr (e ▸ linked.retired_forget next)
    · exact .inl rfl

theorem tracks_pad (s : Sequence) :
    Tracks s ((s.create (.plain .padding)).2.register s.nodes.size) where
  references := by
    unfold register
    split <;> rfl
  buried := (evolves_pad s).buried
  leads m y hm hy l hl := by
    rw [item?_register, item?_create] at hy
    split at hy
    · cases hy
      cases hl
    · obtain ⟨k, hk⟩ := Option.isSome_iff_exists.1 hm
      have before := (evolves_pad s).handles m k (by rw [hy]; rfl) hk
      exact ⟨y, by rw [before]; rfl, hy, rfl, l, hl, rfl, .inl rfl⟩

theorem Adjust.tracks {gone : Sequence → Nat → Prop} (step : Adjust gone s t) : Tracks s t := by
  cases step with
  | forget next linked _ _ => exact tracks_forget linked next
  | pad linked => exact tracks_pad _
  | move n a =>
    refine ⟨rfl, .of_arena_eq rfl, fun m y hm hy l hl => ?_⟩
    rw [handle?_setAddress] at hm
    rw [item?_setAddress] at hy
    exact ⟨y, hm, hy, rfl, l, hl, rfl, .inl rfl⟩

theorem Linked.tracks_layout (linked : Linked s s.items.toList) : Tracks s s.layout := by
  obtain ⟨t, adjusts, e⟩ := layout_adjusts linked
  rw [e]
  have tracks : Tracks s t := by
    clear e
    induction adjusts with
    | refl => exact .refl s
    | tail _ step ih => exact ih.trans step.tracks
  exact tracks.congr rfl rfl rfl

/-! ## Passes -/

theorem tracks_encodeBranch (sound : Sound Item.Shaped s) (run : (encodeBranch n).Gives s g t) : Tracks s t := by
  rcases gives_encodeBranch run with ⟨-, rfl, -⟩ | ⟨i, _, _, hi, has, -, -, -, ⟨-, j, data, rfl⟩ | ⟨-, op, j, wider, made, rfl⟩⟩
  · exact .refl _
  · refine .modifyItem fun x hx => ?_
    obtain rfl := Option.some.inj (hi.symm.trans hx)
    have same := Instruction.retuned_setData data
    exact ⟨rfl, Item.leads_plain_congr (by simp only [Instruction.hasTarget, same.opcode]) (by rw [same.opcode]) same.target⟩
  · refine .modifyItem fun x hx => ?_
    obtain rfl := Option.some.inj (hi.symm.trans hx)
    obtain ⟨branch, kind⟩ := ofBranch_of_wider (List.mem_append_left _ (sound.holds n _ hi).mem) wider
    obtain ⟨opcode, target, -⟩ := Instruction.setOpcode_eq_ok made
    refine ⟨rfl, Item.leads_plain_congr ?_ (by rw [opcode, kind]) target⟩
    rw [has, Instruction.hasTarget, opcode, branch, Bool.true_or]

theorem tracks_encodeTable (run : (encodeTable n).Gives s ⟨⟩ t) : Tracks s t := by
  rcases gives_encodeTable run with ⟨rfl, -⟩ | ⟨x, o, base, cs, hx, -, -, landed, rfl⟩
  · exact .refl _
  · refine .modifyItem fun y hy => ?_
    obtain rfl := Option.some.inj (hx.symm.trans hy)
    have handles := Landed.handles landed
    exact ⟨(Item.recoded_setCases x handles).owner?, Item.leads_setCases x handles⟩

theorem Encodes.tracks (h : Encodes ns s g t) (sound : Sound Item.Shaped s) : Tracks s t := by
  induction h with
  | nil => exact .refl _
  | cons branch table _ ih =>
    have sound₁ := sound_encodeBranch Item.stable_shaped sound branch
    have sound₂ := sound_encodeTable Item.stable_shaped sound₁ table
    exact ((tracks_encodeBranch sound branch).trans (tracks_encodeTable table)).trans (ih sound₂)

theorem tracks_settle (sound : Sound Item.Shaped s) (run : (settle fuel).Gives s ⟨⟩ t) : Tracks s t := by
  induction fuel generalizing s with
  | zero =>
    obtain ⟨-, rfl⟩ := Action.gives_pure.1 run
    exact .refl _
  | succ fuel ih =>
    rcases gives_settle_succ.1 run with pass | ⟨u, pass, run⟩
    · exact pass.tracks sound
    · have grown := pass.sound Item.stable_shaped sound
      exact ((pass.tracks sound).trans grown.linked.tracks_layout).trans (ih (grown.layout Item.stable_shaped) run)

/-- From the collecting of references on, `refresh` only retires handles and moves on what led to them. -/
theorem tracks_refresh (sound : Sound Item.Shaped s) (run : refresh.Gives s ⟨⟩ t) : Tracks s.relink t := by
  have after := (leaves_refresh Item.stable_shaped sound run).sound
  obtain ⟨-, u, v, settled, loop, rfl⟩ := gives_refresh.1 run
  obtain ⟨sound', -, -⟩ := leaves_settle_relink Item.stable_shaped sound settled
  have renewed := renewed_of_each loop sound'.linked.nodup
  have arena : v.arena = u.arena := by rw [renewed.eq]
  refine (tracks_settle (sound.relink Item.stable_shaped) settled).trans ?_
  have again : Tracks u v := by
    refine ⟨by rw [renewed.eq], .of_arena_eq arena, fun n y hn hy l hl => ?_⟩
    rw [renewed.handle?] at hn
    have mem : n ∈ u.items.toList := (sound'.linked.mem_iff n).2 hn
    obtain ⟨x, hx⟩ := sound'.linked.item?_of_mem mem
    obtain ⟨z, hz, fresh⟩ := renewed.renewed n mem x hx
    obtain rfl := Option.some.inj (hy.symm.trans hz)
    obtain ⟨-, -, -, -, -, owner, -⟩ := Item.gives_refresh fresh
    exact ⟨x, hn, hx, owner, l, Item.mem_leads_refresh (after.holds n y hy) fresh hl, rfl, .inl rfl⟩
  exact again.congr rfl rfl rfl

/-! ## Telling -/

theorem part_eq_ok {x : Node} {es : List Element} : s.part body extra x = .ok es ↔
    if x.item.isPadding then es = (s.labelsOn extra x).map .label
    else ∃ e, s.element x body = .ok e ∧ es = (s.labelsOn extra x).map .label ++ [e] := by
  unfold part
  dsimp only
  split
  · exact ⟨fun h => (Except.ok.inj h).symm, fun h => h ▸ rfl⟩
  · rw [except_bind_eq_ok]
    exact exists_congr fun e => and_congr_right fun _ => ⟨fun h => (Except.ok.inj h).symm, fun h => h ▸ rfl⟩

/-- The label of an instruction is that of its target. -/
theorem label_of_instructionElement {x : Node} {i : Instruction} {e : Assembly.Instruction}
    (told : s.instructionElement x i body = .ok e) :
    if i.hasTarget then s.targetLabel (.ofBranch i.opcode) i.target = .ok e.label else e.label = [] := by
  simp only [instructionElement, except_ite_bind_eq_ok, except_bind_eq_ok] at told
  obtain ⟨rs, -, label, run, literal, -, ref, -, ref2, -, made⟩ := told
  rw [← Except.ok.inj made]
  split at run
  · next has => simpa only [if_pos has] using labelled_eq_ok.1 run
  · next has => simpa only [if_neg has] using (Except.ok.inj run).symm

/-- The labels of the cases of a table are those of their handles. -/
theorem mem_caseLabels {x : Item} {noun : String} {names : List Bytes} (told : s.caseLabels x noun = .ok names) {name : Bytes}
    (mem : name ∈ names) : ∃ k ∈ x.cases, s.targetLabel x.caseLabel k.handle = .ok name := by
  unfold caseLabels at told
  obtain ⟨⟨k, i⟩, hk, label⟩ := exists_left (Action.except_mapM_eq_ok.1 told) mem
  exact ⟨k, (List.mem_zipIdx' hk).2 ▸ List.getElem_mem _, labelled_eq_ok.1 label⟩

/-- An element that was told declares no label, its table has an owner, and the labels it uses are those of what its
item leads to. -/
theorem labels_of_element {x : Node} {e : Element} (told : s.element x body = .ok e) :
    declared [e] = [] ∧ (∀ o, x.item.owner? = some o → 0 ≤ o) ∧
      ∀ name ∈ labelsOf e, ∃ l ∈ x.item.leads, s.targetLabel l.1 l.2 = .ok name := by
  have owned : ∀ o, x.item.owner? = some o → 0 ≤ o := by
    intro o owner
    rw [← Int.not_lt]
    intro free
    rw [element, if_pos (by rw [owner, Option.any_some]; exact decide_eq_true free)] at told
    cases told
  have claimed : ¬ x.item.owner?.any (· < 0) = true := by
    rw [Option.any_eq_true]
    rintro ⟨o, owner, free⟩
    exact Int.not_lt.2 (owned o owner) (of_decide_eq_true free)
  have case : ∀ {noun names}, s.caseLabels x.item noun = .ok names → ∀ name ∈ names,
      ∃ l ∈ x.item.leads, s.targetLabel l.1 l.2 = .ok name := by
    intro noun names told name mem
    obtain ⟨k, hk, label⟩ := mem_caseLabels told mem
    exact ⟨_, Item.mem_leads.2 (.inr ⟨k, hk, rfl⟩), label⟩
  rw [and_left_comm]
  refine ⟨owned, ?_⟩
  rw [element, if_neg claimed] at told
  cases item : x.item with
  | plain i =>
    rw [item] at told
    obtain ⟨e, run, made⟩ := except_bind_eq_ok.1 told
    obtain rfl := Except.ok.inj made
    refine ⟨rfl, fun name mem => ?_⟩
    have label := label_of_instructionElement run
    simp only [labelsOf] at mem
    split at mem
    · cases mem
    · next named =>
      obtain rfl := List.mem_singleton.1 mem
      split at label
      · next has => exact ⟨_, Item.mem_leads.2 (.inl ⟨i, rfl, has, rfl⟩), label⟩
      · exact absurd (by rw [label]; rfl) named
  | packed p =>
    rw [item] at told case
    obtain ⟨names, run, made⟩ := except_bind_eq_ok.1 told
    obtain rfl := Except.ok.inj made
    exact ⟨rfl, case run⟩
  | sparse p =>
    rw [item] at told case
    obtain ⟨names, run, made⟩ := except_bind_eq_ok.1 told
    obtain rfl := Except.ok.inj made
    refine ⟨rfl, fun name mem => case run name ?_⟩
    obtain ⟨k, hk, rfl⟩ := List.mem_map.1 mem
    exact (List.of_mem_zip hk).2
  | array a =>
    rw [item] at told
    obtain rfl := Except.ok.inj told
    exact ⟨rfl, fun _ mem => by cases mem⟩

theorem declared_map_label (ls : List Assembly.Label) : declared (ls.map .label) = names ls := by
  rw [declared, List.filterMap_map]
  exact congrFun (List.filterMap_eq_map (f := Assembly.Label.name)) ls

/-- The labels that are declared are those of the items and of the end. -/
theorem declared_of_toElements (told : s.toElements body extra = .ok es) :
    declared es = s.contents.flatMap (fun x => names (s.labelsOn extra x)) ++ names (labelsAt s.units [] extra) := by
  rw [toElements_eq] at told
  obtain ⟨parts, run, made⟩ := except_bind_eq_ok.1 told
  rw [← Except.ok.inj made, declared_append, declared_map_label]
  congr 1
  have each := Action.except_mapM_eq_ok.1 run
  clear told run made
  generalize s.contents = xs at each ⊢
  induction each with
  | nil => rfl
  | cons head _ ih =>
    rw [List.flatten_cons, List.flatMap_cons, declared_append, ih]
    congr 1
    have part := part_eq_ok.1 head
    split at part
    · rw [part, declared_map_label]
    · obtain ⟨e, element, rfl⟩ := part
      rw [declared_append, declared_map_label, (labels_of_element element).1, List.append_nil]

/-- A label that is used is that of something that an item leads to, and this item has an owner if it is a table. -/
theorem exists_lead_of_toElements (told : s.toElements body extra = .ok es) {name : Bytes} (mem : name ∈ used es) :
    ∃ x ∈ s.contents, (∀ o, x.item.owner? = some o → 0 ≤ o) ∧ ∃ l ∈ x.item.leads, s.targetLabel l.1 l.2 = .ok name := by
  have labels : ∀ {ls : List Assembly.Label} {e : Element}, e ∈ ls.map .label → name ∉ labelsOf e := by
    intro ls e he
    obtain ⟨l, -, rfl⟩ := List.mem_map.1 he
    exact List.not_mem_nil
  rw [toElements_eq] at told
  obtain ⟨parts, run, made⟩ := except_bind_eq_ok.1 told
  obtain ⟨e, he, named⟩ := List.mem_flatMap.1 mem
  rw [← Except.ok.inj made] at he
  rcases List.mem_append.1 he with he | he
  · obtain ⟨ds, hds, he⟩ := List.mem_flatten.1 he
    obtain ⟨x, hx, part⟩ := exists_left (Action.except_mapM_eq_ok.1 run) hds
    have part := part_eq_ok.1 part
    split at part
    · exact absurd named (labels (part ▸ he))
    · obtain ⟨d, element, rfl⟩ := part
      rcases List.mem_append.1 he with he | he
      · exact absurd named (labels he)
      · obtain rfl := List.mem_singleton.1 he
        obtain ⟨-, owned, leads⟩ := labels_of_element element
        exact ⟨x, hx, owned, leads name named⟩
  · exact absurd named (labels he)

/-! ## After a refresh -/

/-- What the items of `s` lead to is in `t`. -/
def Standing (s t : Sequence) : Prop := ∀ x ∈ s.contents, ∀ l ∈ x.item.leads, (t.named? l.2).isSome = true

/-- An item that is left keeps its handle. -/
theorem Carries.named? {h : Handle} (carries : Carries s t) (hs : Linked s s.items.toList) (ht : Linked t t.items.toList)
    (named : s.named? h = some n) (left : n ∈ t.items.toList) : t.named? h = some n := by
  obtain ⟨x, hx⟩ := hs.item?_of_mem (hs.mem_of_named? named)
  obtain ⟨k, hk⟩ := ht.handle?_of_mem left
  have before := carries.handles n k (by rw [hx, Option.isSome_some]) hk
  rw [hs.eq_handleOf_of_named? named, handleOf_of_handle? before, ← handleOf_of_handle? hk]
  exact ht.named?_handleOf left

/-- What is not padding when references are collected is there after `refresh`. -/
theorem named?_refresh (sound : Sound Item.Shaped s) (run : refresh.Gives s ⟨⟩ t) {h : Handle} (named : s.relink.named? h = some n)
    (solid : s.relink.solid n = true) : t.named? h = some n := by
  obtain ⟨-, u, v, settled, loop, rfl⟩ := gives_refresh.1 run
  obtain ⟨sound', -, carries⟩ := leaves_settle_relink Item.stable_shaped sound settled
  have relinked := sound.relink Item.stable_shaped
  obtain ⟨-, swept⟩ := relinked.swept_settle (2 * s.relink.items.size + 1)
  rw [settled] at swept
  have arena : v.arena = u.arena := by rw [(renewed_of_each loop sound'.linked.nodup).eq]
  have stays := swept.stays (relinked.linked.mem_of_named? named) solid
  have there := carries.named? relinked.linked sound'.linked named stays
  rwa [named?, ← arena] at there

/-- If no item leads to padding, everything that is led to is there after `refresh`. -/
theorem standing_of_solid (sound : Sound Item.Shaped s) (run : refresh.Gives s ⟨⟩ t)
    (solid : ∀ x ∈ s.relink.contents, ∀ l ∈ x.item.leads, (s.relink.named? l.2).any s.relink.solid = true) :
    Standing s.relink t := by
  intro x hx l hl
  obtain ⟨n, named, solid⟩ := (Option.any_eq_true _ _).1 (solid x hx l hl)
  rw [named?_refresh sound run named solid]
  rfl

theorem collectReferences_idem (s : Sequence) : s.collectReferences.collectReferences = s.collectReferences := rfl

/-- No label is declared twice. -/
theorem nodup_declared (sound : Sound Item.Shaped s) (run : refresh.Gives s ⟨⟩ t) (apart : Apart extra)
    (told : t.toElements body extra = .ok es) : (declared es).Nodup := by
  obtain ⟨laid, -⟩ := laid_refresh Item.stable_shaped sound run
  have after := (leaves_refresh Item.stable_shaped sound run).sound
  have roomy := after.roomy Item.stable_shaped
  rw [declared_of_toElements told]
  refine apart.nodup_names (after.increasing Item.stable_shaped laid) fun n hn a address => ?_
  obtain ⟨p, x, shape, -, below⟩ := laid.mem hn
  rw [address?_of_shape? shape] at address
  cases address
  have := roomy.extent_pos shape
  omega

/-- A label that is used is declared, if everything that was led to is still there. -/
theorem declared_of_used (sound : Sound Item.Shaped s) (run : refresh.Gives s ⟨⟩ t) (standing : Standing s.relink t)
    (told : t.toElements body extra = .ok es) {name : Bytes} (mem : name ∈ used es) : name ∈ declared es := by
  have after := (leaves_refresh Item.stable_shaped sound run).sound
  have relinked := sound.relink Item.stable_shaped
  have tracks := tracks_refresh sound run
  obtain ⟨y, hy, owned, l, hl, label⟩ := exists_lead_of_toElements told mem
  obtain ⟨n, hn, hy⟩ := List.mem_filterMap.1 hy
  -- The reference that was collected.
  obtain ⟨x, handle, hx, owner, k, hk, kind, led⟩ :=
    tracks.leads n y.item ((after.linked.mem_iff n).1 hn) (item?_of_node? hy) l hl
  have hn' := (relinked.linked.mem_iff n).2 handle
  obtain ⟨w, hw, rfl⟩ := item?_eq_some.1 hx
  have named := standing w (List.mem_filterMap.2 ⟨n, hn', hw⟩) k hk
  have same : k.2 = l.2 := led.resolve_right fun retired => by
    rw [retired.named?_eq_none] at named
    cases named
  obtain ⟨m, named⟩ := Option.isSome_iff_exists.1 named
  obtain ⟨r, collected, reason⟩ := exists_collected hn' hx (relinked.holds n _ hx) (fun o ho => owned o (owner.trans ho)) hk
    (nonneg_of_named? named)
  have mem_references : (l.2, r) ∈ t.references := by
    rwa [relink, collectReferences_idem, ← relink, same, ← tracks.references] at collected
  -- The item it leads to.
  rw [same] at named
  have there := after.linked.mem_of_named? named
  obtain ⟨z, hz⟩ := after.linked.node?_of_mem there
  obtain ⟨ne, a, address, rfl⟩ := targetLabel_eq_ok.1 label
  obtain ⟨m', hm', address⟩ := (addressOf?_eq_some ne).1 address
  obtain rfl := Option.some.inj (named.symm.trans hm')
  rw [address?, hz] at address
  cases address
  rw [after.linked.eq_handleOf_of_named? named] at mem_references
  rw [declared_of_toElements told]
  refine List.mem_append_left _ (List.mem_flatMap.2 ⟨z, List.mem_filterMap.2 ⟨m, there, hz⟩, ?_⟩)
  exact (mem_names_labelsOn hz).2 (.inr ⟨r, mem_referencesTo.2 mem_references, by rw [reason, kind]⟩)

/-- Let `toElements` succeed right after a successful `refresh` of any `Attempted` sequence. Then no label is declared
twice, so `addElements` of the elements never complains of a duplicate label. If everything that items led to when
references were collected is still in the sequence (`Standing`), then each label that is used is declared exactly
once, and `addElements` never complains of an unknown label. -/
theorem labels_of_refresh (attempted : Attempted (fun _ => True) s) (run : refresh.Gives s ⟨⟩ t) (apart : Apart extra)
    (told : t.toElements body extra = .ok es) :
    (declared es).Nodup ∧
    (∀ (b : Body) (base : Sequence) name, b.elements = es → ¬ Complains ((addElements b).apply base).1 (.duplicateLabel name)) ∧
    (Standing s.relink t → (∀ name ∈ used es, (declared es).count name = 1) ∧
      ∀ (b : Body) (base : Sequence) name, b.elements = es → ¬ Complains ((addElements b).apply base).1 (.unknownLabel name)) := by
  have sound : Sound Item.Shaped s := attempted.sound Item.lasting_shaped
  have nodup := nodup_declared sound run apart told
  refine ⟨nodup, fun b base name same h => ?_, fun standing => ⟨fun name mem => ?_, fun b base name same h => ?_⟩⟩
  · rcases complains_addElements h with ⟨r, e⟩ | ⟨twice, -, again⟩ | ⟨other, -, -, e⟩
    · cases e
    · exact again (same ▸ nodup)
    · cases e
  · exact List.count_eq_one_of_mem nodup (declared_of_used sound run standing told mem)
  · rcases complains_addElements h with ⟨r, e⟩ | ⟨twice, e, -⟩ | ⟨other, mem, absent, -⟩
    · cases e
    · cases e
    · rw [same] at mem absent
      exact absent (declared_of_used sound run standing told mem)

/-- The labels that `toElements` uses and those that it declares. -/
def labelling (s : Sequence) (extra : List (Int × Bytes)) : Option (List Bytes × List Bytes) :=
  match refresh.apply s with
  | (.ok _, t) => (t.toElements {} extra).toOption.map fun es => (used es, declared es)
  | (.error _, _) => none

theorem labelling_eq_some {us ds : List Bytes} (h : s.labelling extra = some (us, ds)) :
    ∃ t es, refresh.Gives s ⟨⟩ t ∧ t.toElements {} extra = .ok es ∧ used es = us ∧ declared es = ds := by
  unfold labelling at h
  split at h
  · next t run =>
    obtain ⟨es, told, e⟩ := Option.map_eq_some_iff.1 h
    cases e
    exact ⟨t, es, run, Action.eq_ok_of_toOption told, rfl, rfl⟩
  · cases h

/-- A jump over the padding of an array, and the array, to a return. -/
def overArrayCode : Cursor := .ofBytes [0x28, 6, 0, 0, 0, 3, 1, 0, 0, 0, 0, 0, 0x0e, 0]

def overArray : Sequence := ((decode overArrayCode).apply { size := some (.int 7) }).2

/-- The return has the label that the jump uses, and the first instruction has the label that was asked for. -/
theorem labels_of_refresh_overArray : ∃ t es, Attempted (fun _ => True) overArray ∧ refresh.Gives overArray ⟨⟩ t ∧
    t.toElements {} [(0, LabelKind.tryStart.name 0)] = .ok es ∧ Standing overArray.relink t ∧
    used es = [LabelKind.goto.name 6] ∧ declared es = [LabelKind.tryStart.name 0, LabelKind.goto.name 6] ∧
    (∀ name ∈ used es, (declared es).count name = 1) ∧
    ∀ (b : Body) (base : Sequence) name, b.elements = es → ¬ Complains ((addElements b).apply base).1 (.unknownLabel name) := by
  have attempted : Attempted (fun _ => True) overArray := .step (.new (some (.int 7)) none) (.decode _ overArrayCode)
  have labels : overArray.labelling [(0, LabelKind.tryStart.name 0)] =
      some ([LabelKind.goto.name 6], [LabelKind.tryStart.name 0, LabelKind.goto.name 6]) := by decide +kernel
  have solid : overArray.relink.contents.all (fun x => x.item.leads.all fun l =>
      (overArray.relink.named? l.2).any overArray.relink.solid) = true := by decide +kernel
  obtain ⟨t, es, run, told, uses, declares⟩ := labelling_eq_some labels
  have standing := standing_of_solid (attempted.sound Item.lasting_shaped) run fun x hx l hl =>
    List.all_eq_true.1 (List.all_eq_true.1 solid x hx) l hl
  have apart : Apart [(0, LabelKind.tryStart.name 0)] := Named.apart fun e he => ⟨.tryStart, by
    rw [List.mem_singleton.1 he]⟩
  obtain ⟨-, -, whole⟩ := labels_of_refresh attempted run apart told
  obtain ⟨once, found⟩ := whole standing
  exact ⟨t, es, attempted, run, told, standing, uses, declares, once, found⟩

/-- A jump over an array to a return, and a jump back. -/
def strandedCode : Cursor :=
  .ofBytes ([0x28, 2, 0, 0, 0, 3, 1, 0, 252, 0, 0, 0] ++ List.replicate 252 0 ++ [0x0e, 0, 0x29, 0, 0x7b, 0xff])

def stranded : Sequence := ((decode strandedCode).apply { size := some (.int 135) }).2

/-- The second jump leads to the padding of the array. When the first one is widened the padding is dropped, and then
the second one leads to the array, for which no label is declared. -/
theorem labels_of_refresh_stranded : ∃ s t es, Attempted (fun _ => True) s ∧ refresh.Gives s ⟨⟩ t ∧ t.toElements {} [] = .ok es ∧
    used es = [LabelKind.goto.name 132, LabelKind.goto.name 2] ∧ declared es = [LabelKind.goto.name 132] := by
  have labels : ((stranded.setTarget 0 3).bind (·.setTarget 4 1)).toOption.map (labelling · []) =
      some (some ([LabelKind.goto.name 132, LabelKind.goto.name 2], [LabelKind.goto.name 132])) := by decide +kernel
  obtain ⟨s, aimed, labels⟩ := Option.map_eq_some_iff.1 labels
  obtain ⟨r, first, second⟩ := except_bind_eq_ok.1 (Action.eq_ok_of_toOption aimed)
  have read : Attempted (fun _ => True) stranded := .step (.new (some (.int 135)) none) (.decode _ strandedCode)
  have attempted : Attempted (fun _ => True) s := .step (.step read (.setTarget first)) (.setTarget second)
  obtain ⟨t, es, run, told, uses, declares⟩ := labelling_eq_some labels
  exact ⟨s, t, es, attempted, run, told, uses, declares⟩

end Sequence

end Dalvik
