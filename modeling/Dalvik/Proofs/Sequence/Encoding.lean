import Dalvik.Proofs.Sequence.Invariant

/-!
# Encoding offsets

A pass (`encodeOffsets`) goes through the items and writes the offset of every branch and case, or
widens a jump whose offset does not fit. `Encodes` describes a pass item by item. It changes neither
addresses nor handles nor references (`Recoded`), and if it widens nothing it has written the
offsets of every item (`Encodes.encoded`).
-/

namespace Dalvik

namespace Item

/-- The items differ only in operands and offsets. -/
structure Recoded (x y : Item) : Prop where
  references : y.references = x.references
  owner? : y.owner? = x.owner?
  isPadding : y.isPadding = x.isPadding
  isPayload : y.isPayload = x.isPayload
  caseKeys : y.caseKeys = x.caseKeys

theorem Recoded.refl (x : Item) : Recoded x x := ⟨rfl, rfl, rfl, rfl, rfl⟩

theorem Recoded.trans {x y z : Item} (hxy : Recoded x y) (hyz : Recoded y z) : Recoded x z where
  references := hyz.references.trans hxy.references
  owner? := hyz.owner?.trans hxy.owner?
  isPadding := hyz.isPadding.trans hxy.isPadding
  isPayload := hyz.isPayload.trans hxy.isPayload
  caseKeys := hyz.caseKeys.trans hxy.caseKeys

theorem recoded_plain {x y : Instruction} (target : y.target = x.target) (isPadding : y.isPadding = x.isPadding) :
    Recoded (.plain x) (.plain y) :=
  ⟨by rw [references, references, target], rfl, isPadding, rfl, rfl⟩

theorem recoded_setCases (x : Item) {cs : List Case} (handles : cs.map Case.handle = x.cases.map Case.handle) :
    Recoded x (x.setCases cs) := by
  have length : cs.length = x.cases.length := by simpa using congrArg List.length handles
  cases x with
  | plain i => exact .refl _
  | array a => exact .refl _
  | packed p =>
    refine ⟨handles, rfl, rfl, rfl, ?_⟩
    simp only [setCases, caseKeys, PackedTable.keys, length]
    rfl
  | sparse t => exact ⟨handles, rfl, rfl, rfl, rfl⟩

theorem extent_setCases (x : Item) {cs : List Case} (length : cs.length = x.cases.length) :
    (x.setCases cs).extent = x.extent := by
  cases x with
  | plain i => rfl
  | array a => rfl
  | packed p => simp [extent, isPadding, setCases, codeUnits, byteCount, PackedTable.byteCount, length, cases]
  | sparse t => simp [extent, isPadding, setCases, codeUnits, byteCount, SparseTable.byteCount, length, cases]

end Item

namespace Sequence

open Dalvik.Action (except_bind_eq_ok)

variable {free : Instruction → Prop} {P : Item → Prop} {s t u : Sequence} {n m : Nat} {ns : List Nat} {g : Bool}

@[simp] theorem address?_modifyItem (f : Item → Item) : (s.modifyItem n f).address? m = s.address? m := by
  unfold address?
  rw [node?_modifyItem]
  split
  · cases s.node? m <;> rfl
  · rfl

theorem modifyItem_self {x : Item} (hx : s.item? n = some x) : (s.modifyItem n fun _ => x) = s := by
  obtain ⟨y, hy, rfl⟩ := item?_eq_some.1 hx
  have same : s.nodes.modify n (fun z => { z with item := y.item }) = s.nodes := by
    refine Array.ext_getElem? fun i => ?_
    rw [Array.getElem?_modify]
    split
    · next e =>
      subst e
      rw [show s.nodes[n]? = some y from hy]
      rfl
    · rfl
  unfold modifyItem modifyNode
  rw [same]

/-! ## What a pass leaves alone -/

/-- The sequences differ only in operands and offsets of items. -/
structure Recoded (s t : Sequence) : Prop where
  eq : t = { s with nodes := t.nodes }
  handle? : ∀ n, t.handle? n = s.handle? n
  address? : ∀ n, t.address? n = s.address? n
  item? : ∀ n x, s.item? n = some x → ∃ y, t.item? n = some y ∧ x.Recoded y
  absent : ∀ n, s.item? n = none → t.item? n = none

namespace Recoded

theorem refl (s : Sequence) : Recoded s s :=
  ⟨rfl, fun _ => rfl, fun _ => rfl, fun _ x hx => ⟨x, hx, .refl x⟩, fun _ h => h⟩

theorem trans (hst : Recoded s t) (htu : Recoded t u) : Recoded s u where
  eq := by rw [htu.eq, hst.eq]
  handle? n := (htu.handle? n).trans (hst.handle? n)
  address? n := (htu.address? n).trans (hst.address? n)
  item? n x hx := by
    obtain ⟨y, hy, hxy⟩ := hst.item? n x hx
    obtain ⟨z, hz, hyz⟩ := htu.item? n y hy
    exact ⟨z, hz, hxy.trans hyz⟩
  absent n h := htu.absent n (hst.absent n h)

theorem modifyItem {f : Item → Item} (hf : ∀ x, s.item? n = some x → x.Recoded (f x)) :
    Recoded s (s.modifyItem n f) where
  eq := rfl
  handle? m := handle?_modifyItem f
  address? m := address?_modifyItem f
  item? m x hx := by
    rw [item?_modifyItem]
    split
    · next e =>
      subst e
      exact ⟨f x, by rw [hx, Option.map_some], hf x hx⟩
    · exact ⟨x, hx, .refl x⟩
  absent m hm := by
    rw [item?_modifyItem, hm]
    split <;> rfl

section Fields

variable (h : Recoded s t)
include h

theorem items : t.items = s.items := by rw [h.eq]
theorem arena : t.arena = s.arena := by rw [h.eq]
theorem depth : t.depth = s.depth := by rw [h.eq]
theorem units : t.units = s.units := by rw [h.eq]
theorem moves : t.moves = s.moves := by rw [h.eq]
theorem size : t.size = s.size := by rw [h.eq]
theorem pool : t.pool = s.pool := by rw [h.eq]

theorem linked {xs : List Nat} (linked : Linked s xs) : Linked t xs := linked.congr h.handle? h.arena

theorem named? (k : Handle) : t.named? k = s.named? k := by
  unfold Sequence.named?
  rw [h.arena]

theorem addressOf? (k : Handle) : t.addressOf? k = s.addressOf? k := by
  unfold Sequence.addressOf? namedNode?
  rw [h.units, h.named?]
  split
  · rfl
  · cases hn : s.named? k with
    | none => rfl
    | some n => exact h.address? n

theorem of_item? {y : Item} (hy : t.item? n = some y) : ∃ x, s.item? n = some x ∧ x.Recoded y := by
  cases hx : s.item? n with
  | none => rw [h.absent n hx] at hy; cases hy
  | some x =>
    obtain ⟨y', hy', e⟩ := h.item? n x hx
    rw [hy] at hy'
    cases hy'
    exact ⟨x, rfl, e⟩

end Fields

end Recoded

theorem ne_finish_of_named? {h : Handle} (hn : s.named? h = some n) : h ≠ .finish := by
  rintro rfl
  simp [named?, Handle.finish] at hn

theorem addressOf?_eq_some {h : Handle} {a : Int} (ne : h ≠ .finish) :
    s.addressOf? h = some a ↔ ∃ m, s.named? h = some m ∧ s.address? m = some a := by
  unfold addressOf? namedNode? address?
  rw [if_neg ne]
  cases s.named? h <;> simp

/-! ## One item -/

/-- What `encodeBranch` does: nothing for an item without target, and otherwise it writes the offset or widens the
jump. -/
theorem gives_encodeBranch (h : (encodeBranch n).Gives s g t) :
    (g = false ∧ t = s ∧ ∀ x, s.item? n = some (.plain x) → x.hasTarget = false) ∨
    ∃ x a dest, s.item? n = some (.plain x) ∧ x.hasTarget = true ∧ s.address? n = some a ∧
      x.target ≠ .finish ∧ s.addressOf? x.target = some dest ∧
      ((g = false ∧ ∃ y, x.setData (dest - a) = .ok y ∧ t = s.modifyItem n fun _ => .plain y) ∨
        (g = true ∧ ∃ op y, wider? x.opcode = some op ∧ x.setOpcode op = .ok y ∧
          t = s.modifyItem n fun _ => .plain y)) := by
  unfold encodeBranch at h
  obtain ⟨_, _, hs, h⟩ := Action.gives_bind.1 h
  obtain ⟨rfl, rfl⟩ := Action.gives_get.1 hs
  split at h
  · next x a k hn =>
    have item : s.item? n = some (.plain x) := item?_of_node? hn
    have address : s.address? n = some a := by rw [address?, hn, Option.map_some]
    split at h
    · next has =>
      split at h
      · simp [noTarget] at h
      · next dest hdest =>
        have target : x.target ≠ .finish ∧ s.addressOf? x.target = some dest := by
          split at hdest
          · cases hdest
          · next ne => exact ⟨ne, hdest⟩
        refine .inr ⟨x, a, dest, item, has, address, target.1, target.2, ?_⟩
        split at h
        · next y hy =>
          simp only [Action.gives_bind, Action.gives_modify, Action.gives_pure] at h
          obtain ⟨_, _, rfl, rfl, rfl⟩ := h
          exact .inl ⟨rfl, y, hy, rfl⟩
        · next e op _ hop =>
          split at h
          · simp only [Action.gives_bind, Action.gives_lift, Action.gives_modify, Action.gives_pure] at h
            obtain ⟨y, _, ⟨hy, rfl⟩, _, _, rfl, rfl, rfl⟩ := h
            exact .inr ⟨rfl, op, y, hop, hy, rfl⟩
          · simp at h
        · simp at h
    · next has =>
      obtain ⟨rfl, rfl⟩ := Action.gives_pure.1 h
      refine .inl ⟨rfl, rfl, fun y hy => ?_⟩
      rw [item] at hy
      cases hy
      simpa using has
  · next other =>
    obtain ⟨rfl, rfl⟩ := Action.gives_pure.1 h
    refine .inl ⟨rfl, rfl, fun y hy => ?_⟩
    obtain ⟨⟨item, a, k⟩, hz, rfl⟩ := item?_eq_some.1 hy
    exact absurd hz (other y a k)

/-- `c'` is the case `c` with its offset, counted from `base`. -/
def Landed (s : Sequence) (base : Int) (c c' : Case) : Prop :=
  c.handle ≠ .finish ∧ ∃ dest, s.addressOf? c.handle = some dest ∧ c' = c.setOffset (dest - base)

theorem encodeCases_eq_ok {op : Opcode} {base : Int} {i : Nat} {cs cs' : List Case} {v : PUnit}
    (h : s.encodeCases op base i cs = (.ok v, cs')) : List.Forall₂ (Landed s base) cs cs' := by
  induction cs generalizing i cs' with
  | nil =>
    cases h
    exact .nil
  | cons c cs ih =>
    simp only [encodeCases] at h
    split at h
    · cases h
    · next dest hdest =>
      rcases e : s.encodeCases op base (i + 1) cs with ⟨r, rest⟩
      rw [e] at h
      cases h
      split at hdest
      · cases hdest
      · next ne => exact .cons ⟨ne, dest, hdest, rfl⟩ (ih e)

theorem Landed.handles {base : Int} {cs cs' : List Case} (h : List.Forall₂ (Landed s base) cs cs') :
    cs'.map Case.handle = cs.map Case.handle := by
  induction h with
  | nil => rfl
  | cons hc _ ih =>
    obtain ⟨-, dest, -, rfl⟩ := hc
    rw [List.map_cons, List.map_cons, ih]
    rfl

/-- What `encodeTable` does: nothing for a table whose owner has no address, and otherwise it writes the offsets of
the cases. -/
theorem gives_encodeTable (h : (encodeTable n).Gives s ⟨⟩ t) :
    (t = s ∧ ∀ x o, s.item? n = some x → x.owner? = some o → s.addressOf? o = none) ∨
    ∃ x o base cs, s.item? n = some x ∧ x.owner? = some o ∧ s.addressOf? o = some base ∧
      List.Forall₂ (Landed s base) x.cases cs ∧ t = s.modifyItem n (Item.setCases cs) := by
  unfold encodeTable at h
  obtain ⟨_, _, hs, h⟩ := Action.gives_bind.1 h
  obtain ⟨rfl, rfl⟩ := Action.gives_get.1 hs
  split at h
  · next x hx =>
    split at h
    · next base hbase =>
      obtain ⟨o, ho, hbase⟩ := Option.bind_eq_some_iff.1 hbase
      rcases e : s.encodeCases x.opcode base 0 x.cases with ⟨r, cs⟩
      simp only [e, Action.gives_bind, Action.gives_modify, Action.gives_lift] at h
      obtain ⟨_, _, rfl, rfl, rfl⟩ := h
      exact .inr ⟨x, o, base, cs, hx, ho, hbase, encodeCases_eq_ok e, rfl⟩
    · next unowned =>
      obtain ⟨-, rfl⟩ := Action.gives_pure.1 h
      refine .inl ⟨rfl, fun y o hy ho => ?_⟩
      rw [show s.item? n = some x from hx] at hy
      cases hy
      rwa [ho, Option.bind_some] at unowned
  · next absent =>
    obtain ⟨-, rfl⟩ := Action.gives_pure.1 h
    refine .inl ⟨rfl, fun y o hy _ => ?_⟩
    rw [show s.item? n = none from absent] at hy
    cases hy

/-! ## A pass over the items -/

/-- The items are encoded one after the other; `g` says whether a jump was widened. -/
inductive Encodes : List Nat → Sequence → Bool → Sequence → Prop where
  | nil (s : Sequence) : Encodes [] s false s
  | cons {n : Nat} {ns : List Nat} {s t u v : Sequence} {g g' : Bool} (branch : (encodeBranch n).Gives s g t)
      (table : (encodeTable n).Gives t ⟨⟩ u) (rest : Encodes ns u g' v) : Encodes (n :: ns) s (g || g') v

theorem gives_encodeOffsets : encodeOffsets.Gives s g t ↔ Encodes s.items.toList s g t := by
  have loop : ∀ (ns : List Nat) (s : Sequence) (start g : Bool),
      (forIn ns start fun n grown => do
        let g ← encodeBranch n
        encodeTable n
        pure (ForInStep.yield (grown || g)) : Action Sequence Bool).Gives s g t ↔
      ∃ g', g = (start || g') ∧ Encodes ns s g' t := by
    intro ns
    induction ns with
    | nil =>
      intro s start g
      simp only [List.forIn_nil, Action.gives_pure]
      constructor
      · rintro ⟨rfl, rfl⟩
        exact ⟨false, (Bool.or_false _).symm, .nil s⟩
      · rintro ⟨_, rfl, ⟨⟩⟩
        exact ⟨(Bool.or_false _).symm, rfl⟩
    | cons n ns ih =>
      intro s start g
      simp only [List.forIn_cons, Action.gives_bind, Action.gives_pure]
      constructor
      · rintro ⟨_, _, ⟨g₁, s₁, branch, _, s₂, table, rfl, rfl⟩, rest⟩
        obtain ⟨g', rfl, tail⟩ := (ih _ _ _).1 rest
        exact ⟨g₁ || g', Bool.or_assoc _ _ _, .cons branch table tail⟩
      · rintro ⟨_, rfl, rest⟩
        cases rest with
        | @cons _ _ _ s₁ s₂ _ g₁ g' branch table rest =>
          exact ⟨_, _, ⟨g₁, s₁, branch, ⟨⟩, s₂, table, rfl, rfl⟩,
            (ih _ _ _).2 ⟨g', (Bool.or_assoc _ _ _).symm, rest⟩⟩
  unfold encodeOffsets
  simp only [Action.gives_bind, Action.gives_get, Action.gives_pure]
  constructor
  · rintro ⟨_, _, ⟨rfl, rfl⟩, _, _, run, rfl, rfl⟩
    obtain ⟨g', rfl, run⟩ := (loop _ _ _ _).1 run
    simpa using run
  · intro run
    exact ⟨s, s, ⟨rfl, rfl⟩, g, t, (loop _ _ _ _).2 ⟨g, (Bool.false_or g).symm, run⟩, rfl, rfl⟩

/-! ### Whatever comes of it -/

/-- One change of a pass: an offset is written, a jump is widened, or the offsets of some cases are written. -/
inductive Recode : Sequence → Sequence → Prop where
  | data {s : Sequence} {n : Nat} {x y : Instruction} {v : Int} (hx : s.item? n = some (.plain x)) (has : x.hasTarget = true)
      (h : x.setData v = .ok y) : Recode s (s.modifyItem n fun _ => .plain y)
  | wider {s : Sequence} {n : Nat} {x y : Instruction} {op : Opcode} (hx : s.item? n = some (.plain x))
      (has : x.hasTarget = true) (wider : wider? x.opcode = some op) (h : x.setOpcode op = .ok y) :
      Recode s (s.modifyItem n fun _ => .plain y)
  | cases {s : Sequence} {n : Nat} {x : Item} {cs : List Case} (hx : s.item? n = some x) (length : cs.length = x.cases.length) :
      Recode s (s.modifyItem n (Item.setCases cs))

theorem Recode.sound (stable : Item.Stable free P) (sound : Sound P s) (step : Recode s t) : Sound P t := by
  cases step with
  | data hx _ stored => exact sound.modifyItem fun _ _ => stable.data stored (sound.holds _ _ hx)
  | wider hx _ wider stored => exact sound.modifyItem fun _ _ => stable.wider wider stored (sound.holds _ _ hx)
  | cases hx length =>
    refine sound.modifyItem fun y hy => ?_
    obtain rfl := Option.some.inj (hx.symm.trans hy)
    exact stable.recased length (sound.holds _ _ hx)

theorem length_encodeCases (op : Opcode) (base : Int) (i : Nat) (cs : List Case) :
    (s.encodeCases op base i cs).2.length = cs.length := by
  induction cs generalizing i with
  | nil => rfl
  | cons c cs ih =>
    unfold encodeCases
    split
    · rfl
    · rw [List.length_cons, ih, List.length_cons]

section

open Dalvik.Action (Upholds)

variable {I : Sequence → Prop} (recode : ∀ s t, Recode s t → I s → I t)
include recode

theorem upholds_encodeBranch (n : Nat) : Upholds I (encodeBranch n) := by
  unfold encodeBranch
  refine Action.upholds_get fun s hs => ?_
  split
  · next x a k hn =>
    have item : s.item? n = some (.plain x) := item?_of_node? hn
    split
    · next has =>
      split
      · exact hs
      · split
        · next y hy => exact recode _ _ (.data item has hy) hs
        · next e op _ hop =>
          split
          · refine Action.after_bind hs fun y t e => ?_
            obtain ⟨hy, rfl⟩ := Action.gives_lift.1 e
            exact recode _ _ (.wider item has hop hy) hs
          · exact hs
        · exact hs
    · exact hs
  · exact hs

theorem upholds_encodeTable (n : Nat) : Upholds I (encodeTable n) := by
  unfold encodeTable
  refine Action.upholds_get fun s hs => ?_
  split
  · next x hx =>
    split
    · next base _ => exact recode _ _ (.cases hx (length_encodeCases x.opcode base 0 x.cases)) hs
    · exact hs
  · exact hs

/-- What every change of a pass keeps, the pass keeps, also if it fails. -/
theorem upholds_encodeOffsets : Upholds I encodeOffsets := by
  unfold encodeOffsets
  refine Action.upholds_get fun s hs =>
    Upholds.bind (Upholds.forIn (fun n grown => ?_) _) (fun _ => Action.upholds_pure _) s hs
  refine Upholds.bind (upholds_encodeBranch recode n) fun _ => ?_
  exact Upholds.bind (upholds_encodeTable recode n) fun _ => Action.upholds_pure _

end

/-! ### What one item's encoding leaves -/

theorem recoded_encodeBranch (h : (encodeBranch n).Gives s g t) : Recoded s t := by
  rcases gives_encodeBranch h with ⟨-, rfl, -⟩ | ⟨x, a, dest, hx, -, -, -, -, ⟨-, y, hy, rfl⟩ | ⟨-, op, y, -, hy, rfl⟩⟩
  · exact .refl _
  · refine .modifyItem fun z hz => ?_
    rw [hx] at hz
    cases hz
    have retuned := Instruction.retuned_setData hy
    exact Item.recoded_plain retuned.target retuned.isPadding
  · refine .modifyItem fun z hz => ?_
    rw [hx] at hz
    cases hz
    obtain ⟨-, target, isPadding, -⟩ := Instruction.setOpcode_eq_ok hy
    exact Item.recoded_plain target isPadding

theorem recoded_encodeTable (h : (encodeTable n).Gives s ⟨⟩ t) : Recoded s t := by
  rcases gives_encodeTable h with ⟨rfl, -⟩ | ⟨x, o, base, cs, hx, -, -, landed, rfl⟩
  · exact .refl _
  · refine .modifyItem fun z hz => ?_
    rw [hx] at hz
    cases hz
    exact Item.recoded_setCases x (Landed.handles landed)

theorem sound_encodeBranch (stable : Item.Stable free P) (sound : Sound P s) (h : (encodeBranch n).Gives s g t) : Sound P t :=
  (upholds_encodeBranch (fun _ _ step hs => step.sound stable hs) n).gives sound h

theorem sound_encodeTable (stable : Item.Stable free P) (sound : Sound P s) (h : (encodeTable n).Gives s ⟨⟩ t) : Sound P t :=
  (upholds_encodeTable (fun _ _ step hs => step.sound stable hs) n).gives sound h

theorem item?_encodeBranch (h : (encodeBranch n).Gives s g t) (ne : n ≠ m) : t.item? m = s.item? m := by
  rcases gives_encodeBranch h with ⟨-, rfl, -⟩ | ⟨x, a, dest, -, -, -, -, -, ⟨-, y, -, rfl⟩ | ⟨-, op, y, -, -, rfl⟩⟩
  · rfl
  · rw [item?_modifyItem, if_neg ne]
  · rw [item?_modifyItem, if_neg ne]

theorem item?_encodeTable (h : (encodeTable n).Gives s ⟨⟩ t) (ne : n ≠ m) : t.item? m = s.item? m := by
  rcases gives_encodeTable h with ⟨rfl, -⟩ | ⟨x, o, base, cs, -, -, -, -, rfl⟩
  · rfl
  · rw [item?_modifyItem, if_neg ne]

/-- The items take up the same room and have the same opcode. -/
def SameSize (x y : Item) : Prop := y.extent = x.extent ∧ y.opcode = x.opcode

/-- If nothing is widened, every item takes up the room it took before. -/
theorem sameSize_encodeBranch (h : (encodeBranch n).Gives s false t) {x y : Item} (hx : s.item? m = some x)
    (hy : t.item? m = some y) : SameSize x y := by
  rcases gives_encodeBranch h with ⟨-, rfl, -⟩ | ⟨i, a, dest, hi, -, -, -, -, ⟨-, j, hj, rfl⟩ | ⟨grown, -⟩⟩
  · rw [hx] at hy
    cases hy
    exact ⟨rfl, rfl⟩
  · rw [item?_modifyItem] at hy
    split at hy
    · next e =>
      subst e
      rw [hi] at hx hy
      cases hx
      cases hy
      have retuned := Instruction.retuned_setData hj
      refine ⟨?_, retuned.opcode⟩
      change (if j.isPadding then 1 else j.units.length) = if i.isPadding then 1 else i.units.length
      rw [retuned.isPadding, retuned.length]
    · rw [hx] at hy
      cases hy
      exact ⟨rfl, rfl⟩
  · cases grown

theorem sameSize_encodeTable (h : (encodeTable n).Gives s ⟨⟩ t) {x y : Item} (hx : s.item? m = some x)
    (hy : t.item? m = some y) : SameSize x y := by
  rcases gives_encodeTable h with ⟨rfl, -⟩ | ⟨z, o, base, cs, hz, -, -, landed, rfl⟩
  · rw [hx] at hy
    cases hy
    exact ⟨rfl, rfl⟩
  · rw [item?_modifyItem] at hy
    split at hy
    · next e =>
      subst e
      rw [hz] at hx hy
      cases hx
      cases hy
      exact ⟨Item.extent_setCases _ landed.length_eq.symm, Item.opcode_setCases _ cs⟩
    · rw [hx] at hy
      cases hy
      exact ⟨rfl, rfl⟩

/-- What a pass that widens nothing makes of the item at node `n`. -/
inductive Encoded (s : Sequence) (n : Nat) : Item → Item → Prop where
  | still {i : Instruction} (absent : i.hasTarget = false) : Encoded s n (.plain i) (.plain i)
  | branch {i j : Instruction} {a b : Int} (has : i.hasTarget = true) (ne : i.target ≠ .finish) (here : s.address? n = some a)
      (there : s.addressOf? i.target = some b) (stored : i.setData (b - a) = .ok j) : Encoded s n (.plain i) (.plain j)
  | table {x : Item} {o : Handle} {base : Int} {cs : List Case} (owner : x.owner? = some o) (there : s.addressOf? o = some base)
      (landed : List.Forall₂ (Landed s base) x.cases cs) : Encoded s n x (x.setCases cs)
  | unowned {x : Item} (payload : x.isPayload = true) (absent : ∀ o, x.owner? = some o → s.addressOf? o = none) : Encoded s n x x

theorem Encoded.congr {x y : Item} (h : Encoded t n x y) (address : t.address? n = s.address? n)
    (addressOf : ∀ k, t.addressOf? k = s.addressOf? k) : Encoded s n x y := by
  cases h with
  | still absent => exact .still absent
  | branch has ne here there stored => exact .branch has ne (by rw [← here, address]) (by rw [← there, addressOf]) stored
  | table owner there landed =>
    refine .table owner (by rw [← there, addressOf]) (landed.imp fun c d land => ?_)
    obtain ⟨ne, b, hb, e⟩ := land
    exact ⟨ne, b, by rw [← hb, addressOf], e⟩
  | unowned payload absent => exact .unowned payload fun o owner => by rw [← absent o owner, addressOf]

theorem exists_encoded (branch : (encodeBranch n).Gives s false t) (table : (encodeTable n).Gives t ⟨⟩ u) {x : Item}
    (hx : s.item? n = some x) : ∃ y, u.item? n = some y ∧ Encoded s n x y := by
  rcases gives_encodeBranch branch with ⟨-, rfl, absent⟩ | ⟨i, a, b, hi, has, here, ne, there, ⟨-, j, stored, rfl⟩ | ⟨grown, -⟩⟩
  · rcases gives_encodeTable table with ⟨rfl, unowned⟩ | ⟨z, o, base, cs, hz, owner, there, landed, rfl⟩
    · refine ⟨x, hx, ?_⟩
      cases x with
      | plain i => exact .still (absent i hx)
      | _ => exact .unowned rfl fun o owner => unowned _ o hx owner
    · obtain rfl := Option.some.inj (hx.symm.trans hz)
      exact ⟨x.setCases cs, by rw [item?_modifyItem, if_pos rfl, hx, Option.map_some], .table owner there landed⟩
  · obtain rfl := Option.some.inj (hx.symm.trans hi)
    have item : (s.modifyItem n fun _ => .plain j).item? n = some (.plain j) := by
      rw [item?_modifyItem, if_pos rfl, hi, Option.map_some]
    rcases gives_encodeTable table with ⟨rfl, -⟩ | ⟨z, o, base, cs, hz, owner, -⟩
    · exact ⟨_, item, .branch has ne here there stored⟩
    · rw [item] at hz
      cases hz
      cases owner
  · cases grown

/-! ### What a pass leaves -/

namespace Encodes

theorem recoded (h : Encodes ns s g t) : Recoded s t := by
  induction h with
  | nil s => exact .refl s
  | cons branch table _ ih => exact ((recoded_encodeBranch branch).trans (recoded_encodeTable table)).trans ih

theorem sound (stable : Item.Stable free P) (h : Encodes ns s g t) (hs : Sound P s) : Sound P t := by
  induction h with
  | nil => exact hs
  | cons branch table _ ih => exact ih (sound_encodeTable stable (sound_encodeBranch stable hs branch) table)

/-- Items that are not in the list are not changed. -/
theorem item?_of_not_mem (h : Encodes ns s g t) (hm : m ∉ ns) : t.item? m = s.item? m := by
  induction h with
  | nil => rfl
  | cons branch table _ ih =>
    obtain ⟨ne, hm⟩ := not_or.1 (List.mem_cons.not.1 hm)
    rw [ih hm, item?_encodeTable table (Ne.symm ne), item?_encodeBranch branch (Ne.symm ne)]

theorem sameSize (h : Encodes ns s false t) {x y : Item} (hx : s.item? m = some x) (hy : t.item? m = some y) :
    SameSize x y := by
  generalize hg : false = g at h
  induction h generalizing x with
  | nil =>
    rw [hx] at hy
    cases hy
    exact ⟨rfl, rfl⟩
  | @cons n ns s t u v g g' branch table rest ih =>
    obtain ⟨rfl, rfl⟩ : g = false ∧ g' = false := by simpa [Bool.or_eq_false_iff] using hg.symm
    obtain ⟨z, hz, -⟩ := (recoded_encodeBranch branch).item? m x hx
    obtain ⟨w, hw, -⟩ := (recoded_encodeTable table).item? m z hz
    have h₁ := sameSize_encodeBranch branch hx hz
    have h₂ := sameSize_encodeTable table hz hw
    have h₃ := ih hw hy rfl
    exact ⟨(h₃.1.trans h₂.1).trans h₁.1, (h₃.2.trans h₂.2).trans h₁.2⟩

/-- Once an item is encoded, the rest of the pass does not change it. -/
theorem encoded (h : Encodes ns s false t) (nodup : ns.Nodup) (hn : n ∈ ns) {x : Item} (hx : s.item? n = some x) :
    ∃ y, t.item? n = some y ∧ Encoded s n x y := by
  generalize hg : false = g at h
  induction h with
  | nil => cases hn
  | @cons n' ns s t u v g g' branch table rest ih =>
    obtain ⟨rfl, rfl⟩ : g = false ∧ g' = false := by simpa [Bool.or_eq_false_iff] using hg.symm
    obtain ⟨fresh, nodup⟩ := List.nodup_cons.1 nodup
    rcases List.mem_cons.1 hn with rfl | later
    · rw [rest.item?_of_not_mem fresh]
      exact exists_encoded branch table hx
    · have ne : n' ≠ n := fun e => fresh (e ▸ later)
      obtain ⟨y, hy, encoded⟩ := ih nodup later (by rw [item?_encodeTable table ne, item?_encodeBranch branch ne, hx]) rfl
      have recoded := (recoded_encodeBranch branch).trans (recoded_encodeTable table)
      exact ⟨y, hy, encoded.congr (recoded.address? n) recoded.addressOf?⟩

end Encodes

end Sequence

end Dalvik
