import Dalvik.Code.Assembler
import Dalvik.Proofs.Sequence.Invariant

/-!
# What assembling leaves

`addElements` makes the items of a body, pushes them one after the other inside a bracket, and then
resolves their labels. If all opcodes of the body are those of the table (`Known`), the sequence is
as sound as it was before (`leaves_addElements`).
-/

namespace Dalvik.Sequence

open Dalvik.Action (except_bind_eq_ok labelled_eq_ok)
open Assembly (Element Body)

variable {free : Instruction → Prop} {P : Item → Prop} {s t u : Sequence} {body : Body}

/-- Every instruction of the body has an opcode of the table. -/
def Known (body : Body) : Prop := ∀ e, Element.instruction e ∈ body.elements → e.opcode ∈ Opcode.all

/-! ## Items -/

theorem made_tuned {x y : Instruction} (h : Item.Made (.plain x)) (tuned : x.Tuned y) : Item.Made (.plain y) :=
  h.edit (.operand tuned)

theorem made_placeRegisters {e : Assembly.Instruction} {i : Nat} {rs : List Assembly.Register} {x y : Instruction}
    (made : Item.Made (.plain x)) (h : placeRegisters e body x i rs = .ok y) : Item.Made (.plain y) := by
  induction rs generalizing x i with
  | nil =>
    cases h
    exact made
  | cons r rs ih =>
    unfold placeRegisters at h
    simp only at h
    split at h
    · obtain ⟨v, -, h⟩ := except_bind_eq_ok.1 h
      split at h
      · exact ih made h
      · cases h
    · obtain ⟨z, hz, h⟩ := except_bind_eq_ok.1 h
      exact ih (made_tuned made (.register _ _ (labelled_eq_ok.1 hz))) h

theorem made_assembleInstruction {e : Assembly.Instruction} {pool pool' : Option Pool} {x : Instruction}
    (mem : e.opcode ∈ Opcode.all) (h : (assembleInstruction e body).Gives pool x pool') : Item.Made (.plain x) := by
  unfold assembleInstruction at h
  simp only at h
  obtain ⟨x₁, _, h₁, h⟩ := Action.gives_bind.1 h
  obtain ⟨x₂, _, h₂, h⟩ := Action.gives_ite_bind.1 h
  obtain ⟨x₃, _, h₃, h⟩ := Action.gives_bind.1 h
  obtain ⟨x₄, _, h₄, h⟩ := Action.gives_ite_bind.1 h
  obtain ⟨x₅, _, h₅, h₆⟩ := Action.gives_ite_bind.1 h
  have m₁ : Item.Made (.plain x₁) := .instruction mem (Action.gives_lift.1 h₁).1
  have m₂ : Item.Made (.plain x₂) := by
    split at h₂
    · exact made_tuned m₁ (.registersCount _ (labelled_eq_ok.1 (Action.gives_lift.1 h₂).1))
    · cases (Action.gives_pure.1 h₂).1
      exact m₁
  have m₃ : Item.Made (.plain x₃) := made_placeRegisters m₂ (Action.gives_lift.1 h₃).1
  have m₄ : Item.Made (.plain x₄) := by
    split at h₄
    · exact made_tuned m₃ (.data _ (labelled_eq_ok.1 (Action.gives_lift.1 h₄).1))
    · cases (Action.gives_pure.1 h₄).1
      exact m₃
  have m₅ : Item.Made (.plain x₅) := by
    split at h₅
    · exact made_tuned m₄ (.constant _ _ _ (Action.gives_within.1 h₅))
    · cases (Action.gives_pure.1 h₅).1
      exact m₄
  split at h₆
  · exact made_tuned m₅ (.constant2 _ _ _ (Action.gives_within.1 h₆))
  · cases (Action.gives_pure.1 h₆).1
    exact m₅

theorem made_pushes {cases : List (Int × Bytes)} {t : SparseTable} (made : Item.Made (.sparse t)) :
    Item.Made (.sparse (cases.foldl (fun t (k, _) => t.push k {}) t)) := by
  induction cases generalizing t with
  | nil => exact made
  | cons c cases ih => exact ih (made.edit (.sparsePush t c.1 {}))

/-- `assembleElement` changes only the pool. -/
theorem gives_assembleElement {e : Element} {item : Option Item} (known : ∀ i, e = .instruction i → i.opcode ∈ Opcode.all)
    (h : (assembleElement body e).Gives s item t) :
    (∃ pool, t = { s with pool }) ∧ ∀ x ∈ item, Item.Made x := by
  have alone : (∃ pool, s = { s with pool }) := ⟨s.pool, rfl⟩
  cases e with
  | instruction e =>
    simp only [assembleElement, Action.gives_bind, Action.gives_on, Action.gives_pure] at h
    obtain ⟨x, _, ⟨pool, hx, rfl⟩, rfl, rfl⟩ := h
    refine ⟨⟨pool, rfl⟩, fun y hy => ?_⟩
    cases hy
    exact made_assembleInstruction (known e rfl) hx
  | packedSwitch e =>
    simp only [assembleElement, Action.gives_pure] at h
    obtain ⟨rfl, rfl⟩ := h
    refine ⟨alone, fun y hy => ?_⟩
    cases hy
    exact (Item.Made.packed.edit (.packedFirst _ _)).edit (.packedResize _ _)
  | sparseSwitch e =>
    simp only [assembleElement, Action.gives_pure] at h
    obtain ⟨rfl, rfl⟩ := h
    refine ⟨alone, fun y hy => ?_⟩
    cases hy
    exact made_pushes .sparse
  | arrayData e =>
    simp only [assembleElement, Action.gives_bind, Action.gives_lift, Action.gives_pure] at h
    obtain ⟨a, _, ⟨ha, rfl⟩, rfl, rfl⟩ := h
    refine ⟨alone, fun y hy => ?_⟩
    cases hy
    exact Item.Made.array.edit (.arrayValues _ _ (labelled_eq_ok.1 ha))
  | label e =>
    simp only [assembleElement, Action.gives_pure] at h
    obtain ⟨rfl, rfl⟩ := h
    exact ⟨alone, fun y hy => by cases hy⟩
  | catchRange e =>
    simp only [assembleElement, Action.gives_pure] at h
    obtain ⟨rfl, rfl⟩ := h
    exact ⟨alone, fun y hy => by cases hy⟩

/-! ## Placing -/

/-- Inside a bracket: the sequence is sound, and no slot that was empty is filled again. -/
structure Building (P : Item → Prop) (s t : Sequence) : Prop where
  sound : Sound P t
  deep : t.depth ≠ 0
  buried : Buried s t

/-- Inside a bracket, `push` appends a new item and gives it the next handle. -/
theorem of_push {item : Item} (deep : s.depth ≠ 0) {k : Handle} (run : (push item).Gives s k t) : k = s.arena.size ∧
    t = { (s.create item).2.register s.nodes.size with
      items := ((s.create item).2.register s.nodes.size).items.insertIdxIfInBounds s.items.size s.nodes.size } := by
  have pushed : s.append item = (k, t) := Action.gives_modifyGet.1 run
  refine ⟨(congrArg Prod.fst pushed).symm, (congrArg Prod.snd pushed).symm.trans (if_neg ?_)⟩
  simpa using deep

theorem depth_push {item : Item} (deep : s.depth ≠ 0) {k : Handle} (run : (push item).Gives s k t) : t.depth = s.depth := by
  obtain ⟨-, rfl⟩ := of_push deep run
  simp

theorem Building.addElement (stable : Item.Stable free P) (h : Building P s t) {p q : Progress} {e : Element}
    (known : ∀ i, e = .instruction i → i.opcode ∈ Opcode.all) (step : (addElement body p e).Gives t q u) :
    Building P s u := by
  unfold Sequence.addElement at step
  split at step
  · split at step
    · simp at step
    · obtain ⟨-, rfl⟩ := Action.gives_pure.1 step
      exact h
  · obtain ⟨item, v, made, step⟩ := Action.gives_bind.1 step
    obtain ⟨⟨pool, rfl⟩, each⟩ := gives_assembleElement known made
    have same : Sound P { t with pool } := h.sound.congr rfl rfl rfl
    split at step
    · obtain ⟨-, rfl⟩ := Action.gives_pure.1 step
      exact ⟨same, h.deep, h.buried.trans (.of_arena_eq rfl)⟩
    · next x =>
      simp only [Action.gives_bind, Action.gives_get, Action.gives_pure] at step
      obtain ⟨_, _, ⟨rfl, rfl⟩, k, w, placed, -, rfl⟩ := step
      have hx : P x := stable.made (each x rfl)
      have leaves := leaves_push stable same hx placed
      refine ⟨leaves.sound, ?_, (h.buried.trans (.of_arena_eq rfl)).trans leaves.buried⟩
      have deep : ({ t with pool } : Sequence).depth ≠ 0 := h.deep
      rwa [depth_push deep placed]

theorem Building.foldlM (stable : Item.Stable free P) {es : List Element} {p q : Progress} (h : Building P s t)
    (known : ∀ i, Element.instruction i ∈ es → i.opcode ∈ Opcode.all)
    (run : (es.foldlM (Sequence.addElement body) p).Gives t q u) : Building P s u := by
  induction es generalizing t p with
  | nil =>
    rw [List.foldlM_nil] at run
    obtain ⟨-, rfl⟩ := Action.gives_pure.1 run
    exact h
  | cons e es ih =>
    rw [List.foldlM_cons] at run
    obtain ⟨r, v, step, run⟩ := Action.gives_bind.1 run
    have next := h.addElement stable (fun i e => known i (e ▸ List.mem_cons_self)) step
    exact ih next (fun i hi => known i (List.mem_cons_of_mem _ hi)) run

/-! ## Resolving -/

theorem length_resolveCases (find : Bytes → Except Stop Handle) (names : List Bytes) (cases : List Case) :
    (resolveCases find names cases).2.length = cases.length := by
  fun_induction resolveCases find names cases with
  | case1 name names c cases h hh r rest e ih => simpa [e] using ih
  | case2 => rfl
  | case3 => rfl

theorem Building.modifyItem (h : Building P s t) {n : Nat} {f : Item → Item}
    (hf : ∀ x, t.item? n = some x → P (f x)) : Building P s (t.modifyItem n f) :=
  ⟨h.sound.modifyItem hf, h.deep, h.buried.trans (.of_arena_eq rfl)⟩

theorem Building.resolveElement (stable : Item.Stable free P) (h : Building P s t) {labels : List (Bytes × Handle)} {n : Nat}
    {e : Element} (step : (resolveElement labels n e).Gives t ⟨⟩ u) : Building P s u := by
  have table : ∀ names, ∀ find : Bytes → Except Stop Handle, Building P s (t.modifyItem n
      (Item.setCases (resolveCases.{0} find names (((t.node? n).map fun x => x.item.cases).getD [])).2)) := by
    intro names find
    refine h.modifyItem fun x hx => stable.recased ?_ (h.sound.holds n x hx)
    obtain ⟨y, hy, rfl⟩ := item?_eq_some.1 hx
    rw [length_resolveCases, hy]
    rfl
  unfold Sequence.resolveElement at step
  simp only at step
  split at step
  · split at step
    · obtain ⟨-, rfl⟩ := Action.gives_pure.1 step
      exact h
    · simp only [Action.gives_bind, Action.gives_lift, Action.gives_modify] at step
      obtain ⟨k, _, ⟨-, rfl⟩, rfl⟩ := step
      refine h.modifyItem fun x hx => ?_
      have hp := h.sound.holds n x hx
      cases x with
      | plain i => exact stable.relinked (x := .plain i) rfl hp
      | _ => exact hp
  · simp only [Action.gives_bind, Action.gives_get, Action.gives_set, Action.gives_lift] at step
    obtain ⟨_, _, ⟨rfl, rfl⟩, _, _, rfl, -, rfl⟩ := step
    exact table _ _
  · simp only [Action.gives_bind, Action.gives_get, Action.gives_set, Action.gives_lift] at step
    obtain ⟨_, _, ⟨rfl, rfl⟩, _, _, rfl, -, rfl⟩ := step
    exact table _ _
  · obtain ⟨-, rfl⟩ := Action.gives_pure.1 step
    exact h

/-- `addElements` of a `Known` body keeps a sequence sound. -/
theorem leaves_addElements (stable : Item.Stable free P) (sound : Sound P s) (known : Known body)
    {labels : List (Bytes × Handle)} (e : (addElements body).Gives s labels t) : Leaves P s t := by
  unfold addElements at e
  obtain ⟨u, build, close⟩ := gives_bracketed.1 e
  have opened : Building P s s.openBracket :=
    ⟨sound.congr rfl rfl rfl, Nat.succ_ne_zero _, .of_arena_eq rfl⟩
  obtain ⟨p, v, added, build⟩ := Action.gives_bind.1 build
  have placed := opened.foldlM stable known added
  simp only [Action.gives_bind, Action.gives_pure] at build
  obtain ⟨_, w, loop, -, rfl⟩ := build
  have resolved : Building P s w := by
    have each := Action.gives_forIn.1 loop
    exact each.keeps (fun x _ _ _ step h => h.resolveElement stable step) placed
  exact (leaves_closeBracket stable resolved.sound close).of_buried resolved.buried

end Dalvik.Sequence
