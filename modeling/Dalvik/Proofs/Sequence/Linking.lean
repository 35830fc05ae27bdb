import Dalvik.Proofs.Sequence.Scanning

/-!
# Turning offsets into handles

After the items are scanned, every branch gets the handle of the item that its offset leads to,
every switch table gets the last branch that leads to it as its owner, and the cases of an owned
table get the handles of the items that their offsets lead to from there. Where an offset leads
depends only on what linking does not change, so the results of the loops can be described at once:
`item?_wiredAll` for the branches and `Tabled` for the tables.
-/

namespace Dalvik.Sequence

open Dalvik.Action (except_bind_eq_ok)

variable {free : Instruction → Prop} {P : Item → Prop} {s t u : Sequence} {n m : Nat} {ns : List Nat}

/-! ## What linking leaves alone -/

/-- The sequences differ only in what items refer to and in owners. -/
structure Relinked (s t : Sequence) : Prop where
  eq : t = { s with nodes := t.nodes }
  handle? : ∀ n, t.handle? n = s.handle? n
  shape? : ∀ n, t.shape? n = s.shape? n

namespace Relinked

theorem refl (s : Sequence) : Relinked s s := ⟨rfl, fun _ => rfl, fun _ => rfl⟩

theorem trans (hst : Relinked s t) (htu : Relinked t u) : Relinked s u where
  eq := by rw [htu.eq, hst.eq]
  handle? n := (htu.handle? n).trans (hst.handle? n)
  shape? n := (htu.shape? n).trans (hst.shape? n)

theorem modifyItem {f : Item → Item} (hf : ∀ x, s.item? n = some x → (f x).unlinked = x.unlinked) :
    Relinked s (s.modifyItem n f) :=
  ⟨rfl, fun _ => handle?_modifyItem f, fun _ => shape?_modifyItem hf⟩

variable (h : Relinked s t)

include h

theorem items : t.items = s.items := by rw [h.eq]
theorem arena : t.arena = s.arena := by rw [h.eq]
theorem depth : t.depth = s.depth := by rw [h.eq]
theorem units : t.units = s.units := by rw [h.eq]
theorem size : t.size = s.size := by rw [h.eq]
theorem pool : t.pool = s.pool := by rw [h.eq]
theorem moves : t.moves = s.moves := by rw [h.eq]

theorem named? (k : Handle) : t.named? k = s.named? k := by
  unfold Sequence.named?
  rw [h.arena]

theorem handleOf (n : Nat) : t.handleOf n = s.handleOf n := by rw [handleOf_eq, handleOf_eq, h.handle?]

theorem address? (n : Nat) : t.address? n = s.address? n := by
  rw [address?_eq_shape?, address?_eq_shape?, h.shape?]

theorem nodeByAddress? (p : Int) : t.nodeByAddress? p = s.nodeByAddress? p := by
  have addressAt : ∀ i, t.addressAt i = s.addressAt i := by
    intro i
    unfold Sequence.addressAt
    rw [h.items]
    cases s.items[i]? with
    | none => rfl
    | some k =>
      have address := h.address? k
      simp only [Sequence.address?] at address
      cases ht : t.node? k <;> cases hs : s.node? k <;> simp_all
  have search : ∀ low high, t.searchAddress p low high = s.searchAddress p low high := by
    intro low high
    fun_induction t.searchAddress p low high with
    | case1 low high below mid less ih =>
      rw [ih]
      conv_rhs => rw [searchAddress, if_pos below]
      rw [addressAt] at less
      simp only [mid] at less ⊢
      rw [if_pos less]
    | case2 low high below mid less ih =>
      rw [ih]
      conv_rhs => rw [searchAddress, if_pos below]
      rw [addressAt] at less
      simp only [mid] at less ⊢
      rw [if_neg less]
    | case3 low high below => rw [searchAddress, if_neg below]
  unfold Sequence.nodeByAddress? positionAt?
  simp only [search, h.items, addressAt]

theorem linked {xs : List Nat} (linked : Linked s xs) : Linked t xs := linked.congr h.handle? h.arena

theorem item?_unlinked {y : Item} (hy : t.item? n = some y) : ∃ x, s.item? n = some x ∧ y.unlinked = x.unlinked := by
  obtain ⟨p, hp⟩ : ∃ p, t.shape? n = some (p, y.unlinked) := by
    obtain ⟨z, hz, rfl⟩ := item?_eq_some.1 hy
    exact ⟨z.address, shape?_of_node? hz⟩
  rw [h.shape?] at hp
  obtain ⟨x, hx, e, -⟩ := shape?_eq_some.1 hp
  exact ⟨x, hx, e.symm⟩

theorem symm : Relinked t s := by
  refine ⟨?_, fun n => (h.handle? n).symm, fun n => (h.shape? n).symm⟩
  rw [h.eq]

theorem sound (stable : Item.Stable free P) (sound : Sound P s) : Sound P t where
  linked := by
    rw [h.items]
    exact h.linked sound.linked
  holds n y hy := by
    obtain ⟨x, hx, e⟩ := h.item?_unlinked hy
    exact stable.relinked e (sound.holds n x hx)

end Relinked

/-! ## Branches -/

/-- The node that the offset of a branch leads to. -/
def lead? (s : Sequence) (n : Nat) : Option Nat :=
  match s.shape? n with
  | some (a, .plain x) =>
    if x.hasTarget then x.data.toOption.bind fun d => s.nodeByAddress? (a + d) else none
  | _ => none

theorem Relinked.lead? (h : Relinked s t) (n : Nat) : t.lead? n = s.lead? n := by
  unfold Sequence.lead?
  simp only [h.shape?, h.nodeByAddress?]

theorem lead?_eq_some : s.lead? n = some m ↔ ∃ x a d, s.item? n = some (.plain x) ∧ s.address? n = some a ∧
    x.hasTarget = true ∧ x.data = .ok d ∧ s.nodeByAddress? (a + d) = some m := by
  unfold lead?
  constructor
  · intro h
    split at h
    · next a x hx =>
      split at h
      · next has =>
        obtain ⟨y, hy, e, ha⟩ := shape?_eq_some.1 hx
        cases y with
        | plain y =>
          cases e
          obtain ⟨d, hd, h⟩ := Option.bind_eq_some_iff.1 h
          refine ⟨y, a, d, hy, ha, has, ?_, h⟩
          change ({ y with target := .none } : Instruction).data = .ok d
          cases hd' : ({ y with target := .none } : Instruction).data with
          | error e => simp [hd', Except.toOption] at hd
          | ok v => simpa [hd', Except.toOption] using hd
        | _ => cases e
      · cases h
    · cases h
  · rintro ⟨x, a, d, hx, ha, has, hd, h⟩
    rw [shape?_eq_some.2 ⟨.plain x, hx, rfl, ha⟩]
    change (if x.hasTarget = true then x.data.toOption.bind _ else none) = _
    rw [if_pos has, hd]
    exact h

/-- The branch leads to an item, and a payload reference to a payload of its kind. -/
def Leading (s : Sequence) (n : Nat) : Prop := ∀ x, s.item? n = some (.plain x) → x.hasTarget = true →
  ∃ m y, s.lead? n = some m ∧ s.item? m = some y ∧ (x.opcode.is .payloadRef = true → y.opcode = payloadFor x.opcode)

/-- The sequence in which the branch `n` refers to `m`. -/
def wire (s : Sequence) (n m : Nat) : Sequence :=
  (s.modifyItem n fun
    | .plain x => .plain { x with target := s.handleOf m }
    | x => x).modifyItem m (Item.setOwner (s.handleOf n))

theorem relinked_wire (s : Sequence) (n m : Nat) : Relinked s (s.wire n m) := by
  refine (Relinked.modifyItem (s := s) fun x _ => ?_).trans (.modifyItem fun x _ => Item.unlinked_setOwner x _)
  cases x <;> rfl

theorem modifyItem_congr {f g : Item → Item} (h : ∀ x, s.item? n = some x → f x = g x) :
    s.modifyItem n f = s.modifyItem n g := by
  unfold modifyItem modifyNode
  congr 1
  refine Array.ext_getElem? fun i => ?_
  simp only [Array.getElem?_modify]
  split
  · next e =>
    subst e
    cases hx : s.nodes[n]? with
    | none => rfl
    | some x =>
      have item : s.item? n = some x.item := item?_of_node? hx
      simp [h x.item item]
  · rfl

/-- Items other than branches are not changed. -/
theorem lead?_eq_none (h : ∀ x, s.item? n = some (.plain x) → x.hasTarget = false) : Leading s n ∧ s.lead? n = none := by
  refine ⟨fun x hx has => absurd has (by simp [h x hx]), ?_⟩
  cases lead : s.lead? n with
  | none => rfl
  | some m =>
    obtain ⟨x, -, -, hx, -, has, -⟩ := lead?_eq_some.1 lead
    rw [h x hx] at has
    cases has

/-- The sequence after linking a branch. -/
def wired (s : Sequence) (n : Nat) : Sequence := (s.lead? n).elim s (s.wire n)

theorem wired_of_lead? (h : s.lead? n = some m) : s.wired n = s.wire n m := by rw [wired, h, Option.elim_some]

theorem wire_eq {x : Instruction} (hx : s.item? n = some (.plain x)) :
    s.wire n m =
      (s.modifyItem n fun _ => .plain { x with target := s.handleOf m }).modifyItem m (Item.setOwner (s.handleOf n)) := by
  unfold wire
  congr 1
  refine modifyItem_congr fun y hy => ?_
  rw [hx] at hy
  cases hy
  rfl

theorem opcode_of_item? {y : Item} (hy : s.item? m = some y) :
    ((s.node? m).map fun z => z.item.opcode).getD default = y.opcode := by
  obtain ⟨z, hz, rfl⟩ := item?_eq_some.1 hy
  rw [hz, Option.map_some, Option.getD_some]

theorem mem_of_nodeByAddress? {p : Int} (h : s.nodeByAddress? p = some m) : m ∈ s.items.toList := by
  unfold nodeByAddress? at h
  obtain ⟨i, -, hi⟩ := Option.bind_eq_some_iff.1 h
  exact List.mem_of_getElem? (by rw [Array.getElem?_toList, hi])

theorem Linked.item?_of_mem {xs : List Nat} (h : Linked s xs) (hn : n ∈ xs) : ∃ x, s.item? n = some x := by
  obtain ⟨x, hx⟩ := h.node?_of_mem hn
  exact ⟨x.item, item?_of_node? hx⟩

theorem gives_linkBranch (linked : Linked s s.items.toList) :
    (linkBranch n).Gives s ⟨⟩ t ↔ Leading s n ∧ t = s.wired n := by
  unfold linkBranch
  simp only [Action.gives_bind, Action.gives_get]
  constructor
  · rintro ⟨_, _, ⟨rfl, rfl⟩, h⟩
    split at h
    · next x a k hz =>
      have item : s.item? n = some (.plain x) := item?_of_node? hz
      have address : s.address? n = some a := by rw [address?, hz, Option.map_some]
      split at h
      · next has =>
        simp only [Action.gives_bind, Action.gives_lift] at h
        obtain ⟨d, _, ⟨hd, rfl⟩, h⟩ := h
        split at h
        · simp [noTarget] at h
        · next m hm =>
          obtain ⟨y, hy⟩ := linked.item?_of_mem (mem_of_nodeByAddress? hm)
          have lead := lead?_eq_some.2 ⟨x, a, d, item, address, has, hd, hm⟩
          split at h
          · simp [noTarget] at h
          · next kind =>
            simp only [Action.gives_modify] at h
            refine ⟨fun x' hx' _ => ⟨m, y, lead, hy, fun ref => ?_⟩, ?_⟩
            · rw [item] at hx'
              cases hx'
              simpa [ref, opcode_of_item? hy] using kind
            · rw [← h, wired_of_lead? lead, wire_eq item]
      · next has =>
        simp only [Action.gives_pure] at h
        obtain ⟨leading, lead⟩ := lead?_eq_none (s := s) (n := n) fun y hy => by
          rw [item] at hy
          cases hy
          simpa using has
        exact ⟨leading, by rw [← h.2, wired, lead, Option.elim_none]⟩
    · next absent =>
      simp only [Action.gives_pure] at h
      obtain ⟨leading, lead⟩ := lead?_eq_none (s := s) (n := n) fun y hy => by
        obtain ⟨⟨i, a, k⟩, hz, e⟩ := item?_eq_some.1 hy
        cases e
        exact absurd hz (absent _ _ _)
      exact ⟨leading, by rw [← h.2, wired, lead, Option.elim_none]⟩
  · rintro ⟨leading, rfl⟩
    refine ⟨s, s, ⟨rfl, rfl⟩, ?_⟩
    split
    · next x a k hz =>
      have item : s.item? n = some (.plain x) := item?_of_node? hz
      split
      · next has =>
        obtain ⟨m, y, lead, hy, kind⟩ := leading x item has
        obtain ⟨x', a', d, hx', ha', -, hd, hm⟩ := lead?_eq_some.1 lead
        rw [item] at hx'
        cases hx'
        rw [address?, hz, Option.map_some] at ha'
        cases ha'
        simp only [Action.gives_bind, Action.gives_lift]
        refine ⟨d, s, ⟨hd, rfl⟩, ?_⟩
        rw [hm]
        dsimp only
        rw [opcode_of_item? hy, if_neg (by simpa using kind), Action.gives_modify, wired_of_lead? lead, wire_eq item]
      · next has =>
        obtain ⟨-, lead⟩ := lead?_eq_none (s := s) (n := n) fun y hy => by
          rw [item] at hy
          cases hy
          simpa using has
        rw [Action.gives_pure, wired, lead, Option.elim_none]
        exact ⟨rfl, rfl⟩
    · next absent =>
      obtain ⟨-, lead⟩ := lead?_eq_none (s := s) (n := n) fun y hy => by
        obtain ⟨⟨i, a, k⟩, hz, e⟩ := item?_eq_some.1 hy
        cases e
        exact absurd hz (absent _ _ _)
      rw [Action.gives_pure, wired, lead, Option.elim_none]
      exact ⟨rfl, rfl⟩

theorem relinked_wired (s : Sequence) (n : Nat) : Relinked s (s.wired n) := by
  unfold wired
  cases s.lead? n with
  | none => exact .refl s
  | some m => exact relinked_wire s n m

/-- Gives a branch the handle of what it leads to. -/
def aim (s : Sequence) (n : Nat) : Item → Item
  | .plain x => .plain ((s.lead? n).elim x fun m => { x with target := s.handleOf m })
  | x => x

theorem Relinked.aim (h : Relinked s t) (n : Nat) (x : Item) : t.aim n x = s.aim n x := by
  cases x <;> simp only [Sequence.aim, h.lead?, h.handleOf]

theorem Relinked.adopt (h : Relinked s t) (owner : Option Nat) (x : Item) : t.adopt owner x = s.adopt owner x := by
  cases owner <;> simp only [Sequence.adopt, h.handleOf, Option.elim_none, Option.elim_some]

theorem aim_aim (x : Item) : s.aim n (s.aim n x) = s.aim n x := by
  cases x with
  | plain x => cases h : s.lead? n <;> simp [Sequence.aim, h]
  | _ => rfl

theorem aim_adopt (o : Option Nat) (x : Item) : s.aim n (s.adopt o x) = s.adopt o (s.aim n x) := by
  cases x <;> cases o <;> rfl

theorem item?_wired (k : Nat) :
    (s.wired n).item? k = (s.item? k).map fun x =>
      s.adopt (if s.lead? n = some k then some n else none) (if k = n then s.aim n x else x) := by
  unfold wired
  cases lead : s.lead? n with
  | none =>
    have same : ∀ x, (if k = n then s.aim n x else x) = x := by
      intro x
      split
      · cases x <;> simp [aim, lead]
      · rfl
    simp [adopt, same]
  | some m =>
    have aimed : (fun x : Item => match x with | .plain i => .plain { i with target := s.handleOf m } | x => x) = s.aim n := by
      funext x
      cases x <;> simp [aim, lead]
    rw [Option.elim_some, wire, aimed, item?_modifyItem, item?_modifyItem]
    simp only [Option.some.injEq]
    by_cases hm : m = k
    · by_cases hn : n = k
      · subst hm hn
        simp [adopt, Function.comp_def]
      · simp [hm, hn, Ne.symm hn, adopt]
    · by_cases hn : n = k
      · simp [hm, hn, adopt]
      · simp [hm, hn, Ne.symm hn, adopt]

/-- An item after several branches were linked. -/
theorem item?_wiredAll (k : Nat) : (ns.foldl wired s).item? k =
    (s.item? k).map fun x => s.adopt (lastTo s.lead? k ns) (if k ∈ ns then s.aim k x else x) := by
  induction ns generalizing s with
  | nil => simp [lastTo, adopt]
  | cons n ns ih =>
    have wired := relinked_wired s n
    have leads : (s.wired n).lead? = s.lead? := funext wired.lead?
    rw [List.foldl_cons, ih, item?_wired, Option.map_map]
    congr 1
    funext x
    simp only [Function.comp_apply, leads, wired.adopt, wired.aim, lastTo, List.mem_cons]
    rw [← adopt_adopt]
    congr 1
    by_cases hn : k = n
    · subst hn
      by_cases hk : k ∈ ns <;> simp [hk, aim_adopt, aim_aim]
    · by_cases hk : k ∈ ns <;> simp [hk, hn, aim_adopt]

theorem relinked_wiredAll (s : Sequence) (ns : List Nat) : Relinked s (ns.foldl wired s) := by
  induction ns generalizing s with
  | nil => exact .refl s
  | cons n ns ih => exact (relinked_wired s n).trans (ih _)

theorem Relinked.leading (h : Relinked s t) : Leading t n ↔ Leading s n := by
  -- The opcode of a branch, and of what it leads to, is part of the shape.
  have half : ∀ {s t : Sequence}, Relinked s t → Leading s n → Leading t n := by
    intro s t h leading x hx has
    obtain ⟨y, hy, e⟩ := h.item?_unlinked hx
    cases y with
    | plain y =>
      have opcode : x.opcode = y.opcode := congrArg Item.opcode e
      have has' : y.hasTarget = true := by
        unfold Instruction.hasTarget at has ⊢
        rwa [opcode] at has
      obtain ⟨m, z, lead, hz, kind⟩ := leading y hy has'
      obtain ⟨z', hz', e'⟩ := h.symm.item?_unlinked hz
      refine ⟨m, z', by rw [h.lead?, lead], hz', ?_⟩
      rw [opcode, ← Item.unlinked_opcode z', ← e', Item.unlinked_opcode]
      exact kind
    | _ => cases e
  exact ⟨half h.symm, half h⟩

theorem each_linkBranch (linked : Linked s s.items.toList) :
    Action.Each linkBranch ns s t ↔ (∀ n ∈ ns, Leading s n) ∧ t = ns.foldl wired s := by
  induction ns generalizing s with
  | nil =>
    constructor
    · rintro ⟨⟩
      exact ⟨by simp, rfl⟩
    · rintro ⟨-, rfl⟩
      exact .nil _
  | cons n ns ih =>
    have wired := relinked_wired s n
    have linked' : Linked (s.wired n) (s.wired n).items.toList := by
      rw [wired.items]
      exact wired.linked linked
    constructor
    · rintro (_ | ⟨head, rest⟩)
      obtain ⟨leading, rfl⟩ := (gives_linkBranch linked).1 head
      obtain ⟨all, rfl⟩ := (ih linked').1 rest
      refine ⟨fun m hm => ?_, rfl⟩
      rcases List.mem_cons.1 hm with rfl | hm
      · exact leading
      · exact wired.leading.1 (all m hm)
    · rintro ⟨all, rfl⟩
      refine .cons ((gives_linkBranch linked).2 ⟨all n List.mem_cons_self, rfl⟩) ((ih linked').2 ⟨fun m hm => ?_, rfl⟩)
      exact wired.leading.2 (all m (List.mem_cons_of_mem _ hm))

/-! ## Tables -/

/-- The case has the handle of the item that its offset leads to. -/
def Points (s : Sequence) (base : Int) (c c' : Case) : Prop :=
  ∃ m, s.nodeByAddress? (base + signed32 c.offset) = some m ∧ c' = { c with handle := s.handleOf m }

theorem Relinked.points (h : Relinked s t) : Points t = Points s := by
  funext base c c'
  simp only [Points, h.nodeByAddress?, h.handleOf]

@[simp] theorem setCases_setCases (x : Item) (cs ds : List Case) : (x.setCases cs).setCases ds = x.setCases ds := by
  cases x <;> rfl

@[simp] theorem setCases_cases (x : Item) : x.setCases x.cases = x := by cases x <;> rfl

theorem modifyItem_modifyItem (f g : Item → Item) : (s.modifyItem n f).modifyItem n g = s.modifyItem n (g ∘ f) := by
  unfold modifyItem modifyNode
  congr 1
  refine Array.ext_getElem? fun i => ?_
  simp only [Array.getElem?_modify]
  split
  · cases s.nodes[i]? <;> rfl
  · rfl

theorem unlinked_setCases {x : Item} {cs : List Case} (h : cs.map Case.unlinked = x.cases.map Case.unlinked) :
    (x.setCases cs).unlinked = x.unlinked := by
  cases x with
  | packed p =>
    change Item.packed _ = Item.packed _
    rw [show cs.map Case.unlinked = p.cases.map Case.unlinked from h]
  | sparse t =>
    change Item.sparse _ = Item.sparse _
    rw [show cs.map Case.unlinked = t.cases.map Case.unlinked from h]
  | _ => rfl

theorem Points.unlinked {base : Int} {cs cs' : List Case} (h : List.Forall₂ (Points s base) cs cs') :
    cs'.map Case.unlinked = cs.map Case.unlinked := by
  induction h with
  | nil => rfl
  | cons head _ ih =>
    obtain ⟨m, -, rfl⟩ := head
    rw [List.map_cons, List.map_cons, ih]
    rfl

/-- `linkCases` with the first `done.length` cases already linked. -/
theorem gives_linkCases (done : List Case) {owner : Node} {x : Item} {rest : List Case} (hx : s.item? n = some x)
    (caseSplit : x.cases = done ++ rest) :
    (linkCases n owner done.length rest).Gives s ⟨⟩ t ↔
      ∃ cs, List.Forall₂ (Points s owner.address) rest cs ∧ t = s.modifyItem n (Item.setCases (done ++ cs)) := by
  induction rest generalizing s done x with
  | nil =>
    have same : s.modifyItem n (Item.setCases (done ++ [])) = s := by
      rw [← caseSplit, modifyItem_congr (g := fun _ => x) fun y hy => ?_, modifyItem_self hx]
      rw [hx] at hy
      cases hy
      exact setCases_cases x
    simp only [linkCases, Action.gives_pure, List.forall₂_nil_left_iff]
    constructor
    · rintro ⟨-, rfl⟩
      exact ⟨[], rfl, same.symm⟩
    · rintro ⟨_, rfl, rfl⟩
      exact ⟨trivial, same.symm⟩
  | cons c rest ih =>
    simp only [linkCases, Action.gives_bind, Action.gives_get]
    have step : ∀ c' : Case, x.cases.set done.length c' = (done ++ [c']) ++ rest := by
      intro c'
      rw [caseSplit, List.set_append_right _ _ (Nat.le_refl _), Nat.sub_self]
      simp
    have written : ∀ c' : Case, (s.modifyItem n fun y => y.setCases (y.cases.set done.length c')) =
        s.modifyItem n (Item.setCases ((done ++ [c']) ++ rest)) := by
      intro c'
      refine modifyItem_congr fun y hy => ?_
      rw [hx] at hy
      cases hy
      rw [step]
    have next : ∀ {m : Nat} {c' : Case}, c' = { c with handle := s.handleOf m } →
        ((linkCases n owner (done.length + 1) rest).Gives
            (s.modifyItem n (Item.setCases ((done ++ [c']) ++ rest))) ⟨⟩ t ↔
          ∃ cs, List.Forall₂ (Points s owner.address) rest cs ∧ t = s.modifyItem n (Item.setCases (done ++ c' :: cs))) := by
      intro m c' e
      have length : ((done ++ [c']) ++ rest).length = x.cases.length := by
        rw [caseSplit]
        simp
      have relinked : Relinked s (s.modifyItem n (Item.setCases ((done ++ [c']) ++ rest))) := by
        refine .modifyItem fun y hy => ?_
        rw [hx] at hy
        cases hy
        refine unlinked_setCases ?_
        rw [caseSplit, e]
        simp [Case.unlinked]
      have item : (s.modifyItem n (Item.setCases ((done ++ [c']) ++ rest))).item? n =
          some (x.setCases ((done ++ [c']) ++ rest)) := by
        rw [item?_modifyItem, if_pos rfl, hx, Option.map_some]
      have := ih (done ++ [c']) item (Item.cases_setCases length)
      rw [List.length_append, List.length_singleton] at this
      rw [this, relinked.points]
      simp only [modifyItem_modifyItem, Function.comp_def, setCases_setCases, List.append_assoc, List.singleton_append]
    constructor
    · rintro ⟨_, _, ⟨rfl, rfl⟩, h⟩
      split at h
      · simp [noTarget] at h
      · next m hm =>
        simp only [Action.gives_bind, Action.gives_modify] at h
        obtain ⟨_, _, rfl, h⟩ := h
        rw [written] at h
        obtain ⟨cs, points, rfl⟩ := (next rfl).1 h
        exact ⟨_ :: cs, .cons ⟨m, hm, rfl⟩ points, rfl⟩
    · rintro ⟨_, points, rfl⟩
      obtain ⟨_, cs, ⟨m, hm, rfl⟩, later, rfl⟩ := List.forall₂_cons_left_iff.1 points
      refine ⟨s, s, ⟨rfl, rfl⟩, ?_⟩
      rw [hm]
      simp only [Action.gives_bind, Action.gives_modify]
      refine ⟨⟨⟩, _, rfl, ?_⟩
      rw [written]
      exact (next rfl).2 ⟨cs, later, rfl⟩

/-- The address that the offsets of a table count from. -/
def base? (s : Sequence) (x : Item) : Option Int := (x.owner?.bind s.named?).bind s.address?

/-- A table after it was linked; without an owner it is not changed. -/
inductive Resolved (s : Sequence) (x : Item) : Item → Prop where
  | unowned (h : s.base? x = none) : Resolved s x x
  | owned {base : Int} {cs : List Case} (h : s.base? x = some base) (points : List.Forall₂ (Points s base) x.cases cs) :
      Resolved s x (x.setCases cs)

theorem Relinked.base? (h : Relinked s t) (x : Item) : t.base? x = s.base? x := by
  unfold Sequence.base?
  cases x.owner? with
  | none => rfl
  | some o =>
    simp only [Option.bind_some, h.named?]
    cases s.named? o with
    | none => rfl
    | some m => exact h.address? m

theorem Relinked.resolved (h : Relinked s t) {x y : Item} : Resolved t x y ↔ Resolved s x y := by
  have half : ∀ {s t : Sequence}, Relinked s t → Resolved t x y → Resolved s x y := by
    intro s t h resolved
    cases resolved with
    | unowned absent => exact .unowned (by rw [← h.base?, absent])
    | owned present points => exact .owned (by rw [← h.base?, present]) (by rwa [h.points] at points)
  exact ⟨half h, half h.symm⟩

theorem Resolved.unlinked {x y : Item} (h : Resolved s x y) : y.unlinked = x.unlinked := by
  cases h with
  | unowned => rfl
  | owned _ points => exact unlinked_setCases (Points.unlinked points)

theorem owner_eq (s : Sequence) (x : Item) :
    (x.owner?.bind s.namedNode?).map Node.address = s.base? x := by
  unfold base? namedNode? address?
  cases x.owner? with
  | none => rfl
  | some o =>
    simp only [Option.bind_some]
    cases s.named? o <;> rfl

theorem gives_linkTable {x : Item} (hx : s.item? n = some x) :
    (linkTable n).Gives s ⟨⟩ t ↔ ∃ y, Resolved s x y ∧ t = s.modifyItem n fun _ => y := by
  unfold linkTable
  simp only [Action.gives_bind, Action.gives_get]
  have same : ∀ cs, s.modifyItem n (Item.setCases cs) = s.modifyItem n fun _ => x.setCases cs := by
    refine fun cs => modifyItem_congr fun y hy => ?_
    rw [hx] at hy
    cases hy
    rfl
  have item : (s.node? n).map Node.item = some x := hx
  have base := owner_eq s x
  constructor
  · rintro ⟨_, _, ⟨rfl, rfl⟩, h⟩
    rw [item] at h
    dsimp only at h
    split at h
    · next owner ho =>
      rw [ho, Option.map_some] at base
      obtain ⟨cs, points, rfl⟩ := (gives_linkCases [] hx rfl).1 h
      exact ⟨_, .owned base.symm points, same cs⟩
    · next ho =>
      rw [ho, Option.map_none] at base
      simp only [Action.gives_pure] at h
      exact ⟨x, .unowned base.symm, by rw [modifyItem_self hx, h.2]⟩
  · rintro ⟨y, resolved, rfl⟩
    refine ⟨s, s, ⟨rfl, rfl⟩, ?_⟩
    rw [item]
    dsimp only
    cases resolved with
    | unowned absent =>
      rw [absent, Option.map_eq_none_iff] at base
      rw [base]
      exact Action.gives_pure.2 ⟨rfl, (modifyItem_self hx).symm⟩
    | @owned b cs present points =>
      rw [present] at base
      obtain ⟨owner, ho, rfl⟩ := Option.map_eq_some_iff.1 base
      rw [ho]
      exact (gives_linkCases [] hx rfl).2 ⟨cs, points, (same cs).symm⟩

/-- The tables in the list are linked, and nothing else is changed. -/
structure Tabled (ns : List Nat) (s t : Sequence) : Prop where
  relinked : Relinked s t
  resolved : ∀ n ∈ ns, ∀ x, s.item? n = some x → ∃ y, t.item? n = some y ∧ Resolved s x y
  others : ∀ n, n ∉ ns → t.item? n = s.item? n

theorem tabled_of_each (nodup : ns.Nodup) (known : ∀ n ∈ ns, ∃ x, s.item? n = some x)
    (h : Action.Each linkTable ns s t) : Tabled ns s t := by
  induction h with
  | nil s => exact ⟨.refl s, by simp, fun _ _ => rfl⟩
  | @cons n ns s t u head rest ih =>
    obtain ⟨fresh, nodup⟩ := List.nodup_cons.1 nodup
    obtain ⟨x, hx⟩ := known n List.mem_cons_self
    obtain ⟨y, resolved, rfl⟩ := (gives_linkTable hx).1 head
    have relinked : Relinked s (s.modifyItem n fun _ => y) := by
      refine .modifyItem fun z hz => ?_
      rw [hx] at hz
      cases hz
      exact resolved.unlinked
    have elsewhere : ∀ m, m ≠ n → (s.modifyItem n fun _ => y).item? m = s.item? m := by
      intro m ne
      rw [item?_modifyItem, if_neg (Ne.symm ne)]
    have ne : ∀ m ∈ ns, m ≠ n := by
      rintro m hm rfl
      exact fresh hm
    obtain ⟨relinked', resolved', others⟩ := ih nodup fun m hm => by
      rw [elsewhere m (ne m hm)]
      exact known m (List.mem_cons_of_mem _ hm)
    refine ⟨relinked.trans relinked', fun m hm z hz => ?_, fun m hm => ?_⟩
    · rcases List.mem_cons.1 hm with rfl | hm
      · rw [hx] at hz
        cases hz
        refine ⟨y, ?_, resolved⟩
        rw [others m fresh, item?_modifyItem, if_pos rfl, hx, Option.map_some]
      · obtain ⟨y', hy', resolved⟩ := resolved' m hm z (by rw [elsewhere m (ne m hm), hz])
        exact ⟨y', hy', relinked.resolved.1 resolved⟩
    · rw [List.mem_cons, not_or] at hm
      rw [others m hm.2, elsewhere m hm.1]

theorem each_linkTable (nodup : ns.Nodup) (resolvable : ∀ n ∈ ns, ∃ x y, s.item? n = some x ∧ Resolved s x y) :
    ∃ t, Action.Each linkTable ns s t := by
  induction ns generalizing s with
  | nil => exact ⟨s, .nil s⟩
  | cons n ns ih =>
    obtain ⟨fresh, nodup⟩ := List.nodup_cons.1 nodup
    obtain ⟨x, y, hx, resolved⟩ := resolvable n List.mem_cons_self
    have relinked : Relinked s (s.modifyItem n fun _ => y) := by
      refine .modifyItem fun z hz => ?_
      rw [hx] at hz
      cases hz
      exact resolved.unlinked
    obtain ⟨t, rest⟩ := ih (s := s.modifyItem n fun _ => y) nodup fun m hm => by
      obtain ⟨z, w, hz, hw⟩ := resolvable m (List.mem_cons_of_mem _ hm)
      refine ⟨z, w, ?_, relinked.resolved.2 hw⟩
      rw [item?_modifyItem, if_neg, hz]
      rintro rfl
      exact fresh hm
    exact ⟨t, .cons ((gives_linkTable hx).2 ⟨y, resolved, rfl⟩) rest⟩

end Dalvik.Sequence
