import Dalvik.Proofs.Elements
import Dalvik.Proofs.Sequence.Current
import Dalvik.Proofs.Sequence.Filled
import Dalvik.Proofs.Sequence.Order

/-!
# Sequences as elements

`toElements` of a current sequence gives blocks, one for each item that is not padding: the labels
at its address and its element (`exists_toElements`). No label is declared twice
(`Current.nodup_names`), and every label that an element refers to is declared in front of the item
it stands for (`exists_finds`). Nothing refers to the padding of a decoded sequence
(`collected_of_decode`).
-/

namespace Dalvik.Sequence

open Assembly (Body Element)

variable {s : Sequence} {n m : Nat} {x : Item} {body : Body} {extra : List (Int × Bytes)} {a : Int} {name : Bytes} {h k : Handle}
  {ns : List Nat} {bs : List Block}

/-- The items that are not padding. -/
def solids (s : Sequence) : List Nat := s.items.toList.filter s.solid

/-- The labels of the item at a node. -/
def labelsOn (s : Sequence) (extra : List (Int × Bytes)) (x : Node) : List Assembly.Label :=
  labelsAt x.address (s.referencesTo (x.handle.elim 0 Int.ofNat)) extra

/-- The block tells the item at a node. -/
def Spoken (s : Sequence) (body : Body) (extra : List (Int × Bytes)) (n : Nat) (b : Block) : Prop :=
  ∃ x, s.node? n = some x ∧ b.1 = s.labelsOn extra x ∧ Told s body x.item b.2

/-! ## Telling -/

/-- The elements of one item. -/
def part (s : Sequence) (body : Body) (extra : List (Int × Bytes)) (x : Node) : Except Stop (List Element) := do
  let labels := (s.labelsOn extra x).map Element.label
  if x.item.isPadding then return labels
  else return labels ++ [← s.element x body]

theorem toElements_eq : s.toElements body extra = (do
    let parts ← s.contents.mapM (s.part body extra)
    return parts.flatten ++ (labelsAt s.units [] extra).map Element.label) := rfl

theorem exists_parts (silent : ∀ n ∈ ns, ∀ x, s.node? n = some x → x.item.isPadding = true → s.labelsOn extra x = [])
    (there : ∀ n ∈ ns, ∃ x, s.node? n = some x)
    (told : ∀ n ∈ ns, ∀ x, s.node? n = some x → x.item.isPadding = false → ∃ e, s.element x body = .ok e ∧ Told s body x.item e) :
    ∃ parts bs, (ns.filterMap s.node?).mapM (s.part body extra) = .ok parts ∧ parts.flatten = bs.flatMap Block.lines ∧
      List.Forall₂ (Spoken s body extra) (ns.filter s.solid) bs := by
  induction ns with
  | nil => exact ⟨[], [], rfl, rfl, .nil⟩
  | cons n ns ih =>
    obtain ⟨x, hx⟩ := there n List.mem_cons_self
    obtain ⟨parts, bs, run, flat, spoken⟩ := ih (fun m hm => silent m (List.mem_cons_of_mem _ hm))
      (fun m hm => there m (List.mem_cons_of_mem _ hm)) fun m hm => told m (List.mem_cons_of_mem _ hm)
    have solid : s.solid n = !x.item.isPadding := by rw [Sequence.solid, item?_of_node? hx, Option.any_some]
    have rest : ∀ es, s.part body extra x = .ok es →
        ((n :: ns).filterMap s.node?).mapM (s.part body extra) = .ok (es :: parts) := by
      intro es here
      rw [List.filterMap_cons, hx, List.mapM_cons, here]
      simp only [run, Action.except_bind_eq_ok]
      exact ⟨es, rfl, parts, rfl, rfl⟩
    cases padding : x.item.isPadding with
    | true =>
      have absent := silent n List.mem_cons_self x hx padding
      refine ⟨[] :: parts, bs, rest [] ?_, flat, ?_⟩
      · simp only [part, absent, padding, if_true]
        rfl
      · rwa [List.filter_cons_of_neg (by rw [solid, padding]; exact Bool.false_ne_true)]
    | false =>
      obtain ⟨e, element, here⟩ := told n List.mem_cons_self x hx padding
      refine ⟨Block.lines (s.labelsOn extra x, e) :: parts, (s.labelsOn extra x, e) :: bs, rest _ ?_, ?_, ?_⟩
      · simp only [part, padding, Bool.false_eq_true, if_false, element]
        rfl
      · rw [List.flatten_cons, flat, List.flatMap_cons]
      · rw [List.filter_cons_of_pos (by rw [solid, padding]; rfl)]
        exact .cons ⟨x, hx, rfl, here⟩ spoken

/-! ## What is referred to -/

/-- Every table has an owner. -/
def Owns (s : Sequence) : Prop := ∀ n ∈ s.items.toList, ∀ x, s.item? n = some x → ∀ o, x.owner? = some o → 0 ≤ o

/-- Nothing refers to padding. -/
def Spared (s : Sequence) : Prop := ∀ n ∈ s.items.toList, s.solid n = false → s.referencesTo (s.handleOf n) = []

/-- Padding is a zero code unit. -/
def Blank (s : Sequence) : Prop := ∀ n ∈ s.items.toList, ∀ x, s.item? n = some x → x.isPadding = true →
  x.opcode = Opcode.nop ∧ x.bytes = [0, 0]

theorem Blank.solid_of_claims? (blank : Blank s) (hn : n ∈ s.items.toList) (claims : s.claims? n = some m) : s.solid n = true := by
  obtain ⟨i, hi, switch, -⟩ := claims?_eq_some.1 claims
  rw [solid, hi, Option.any_some, Bool.not_eq_true']
  by_contra padding
  have opcode := (blank n hn _ hi (by simpa using padding)).1
  rw [show i.opcode = Opcode.nop from opcode] at switch
  exact absurd switch (by decide)

theorem mem_referencesTo {r : Reference} : r ∈ s.referencesTo h ↔ (h, r) ∈ s.references := by
  simp only [referencesTo, List.mem_filterMap, Prod.exists]
  constructor
  · rintro ⟨k, r', mem, e⟩
    split at e
    · next same =>
      cases e
      exact same ▸ mem
    · cases e
  · exact fun mem => ⟨h, r, mem, by simp⟩

/-- The labels of an item are those asked for at its address, and one for each kind of reference to it. -/
theorem mem_names_labelsOn {x : Node} (hx : s.node? n = some x) : name ∈ names (s.labelsOn extra x) ↔
    (x.address, name) ∈ extra ∨ ∃ r ∈ s.referencesTo (s.handleOf n), name = r.kind.name x.address := by
  have handle : (x.handle.elim 0 Int.ofNat : Handle) = s.handleOf n := by
    rw [handleOf, hx, Option.bind_some]
    cases x.handle <;> rfl
  rw [labelsOn, mem_names_labelsAt, handle]

theorem nonneg_of_named? (named : s.named? h = some n) : 0 ≤ h := by
  unfold named? at named
  split at named
  · cases named
  · next nonneg => exact Int.not_lt.1 nonneg

/-- What an item leads to is among the collected references, if its table has an owner. -/
theorem exists_collected (hn : n ∈ s.items.toList) (hx : s.item? n = some x) (shaped : x.Shaped)
    (owned : ∀ o, x.owner? = some o → 0 ≤ o) {l : LabelKind × Handle} (hl : l ∈ x.leads) (nonneg : 0 ≤ l.2) :
    ∃ r, (l.2, r) ∈ s.collectReferences.references ∧ r.kind = l.1 := by
  obtain ⟨y, hy, rfl⟩ := item?_eq_some.1 hx
  simp only [collectReferences, List.mem_append, List.mem_filterMap, List.mem_flatMap]
  rcases Item.mem_leads.1 hl with ⟨i, plain, has, rfl⟩ | ⟨c, hc, rfl⟩
  · refine ⟨⟨.ofBranch i.opcode, 0, s.handleOf n⟩, .inl ⟨n, hn, ?_⟩, rfl⟩
    rw [hy, Option.map_some, plain]
    exact if_neg (Int.not_lt.2 nonneg)
  · obtain ⟨o, owner⟩ := Item.exists_owner?_of_case hc
    obtain ⟨key, pair⟩ := Item.mem_pairs_of_mem_cases shaped hc
    refine ⟨⟨y.item.caseLabel, key, o⟩, .inr ⟨y, List.mem_filterMap.2 ⟨n, hn, hy⟩, ?_⟩, rfl⟩
    simp only [owner, if_neg (Int.not_lt.2 (owned o owner)), List.mem_filterMap]
    exact ⟨(key, c), pair, if_neg (Int.not_lt.2 nonneg)⟩

namespace Current

variable (current : Current s)
include current

/-- The owner of a table has an address. -/
theorem exists_owner (hn : n ∈ s.items.toList) (hx : s.item? n = some x) {o : Handle} (owner : x.owner? = some o) (owned : 0 ≤ o) :
    ∃ base, s.addressOf? o = some base := by
  have claim := current.claimed n hn x o hx owner
  cases last : lastTo s.claims? n s.items.toList with
  | none =>
    rw [last] at claim
    have absent : o = .none := claim
    rw [absent] at owned
    exact absurd owned (by decide)
  | some m =>
    rw [last] at claim
    have mem := (mem_of_lastTo last).1
    obtain ⟨y, hy⟩ := current.linked.node?_of_mem mem
    have named : s.named? o = some m := by rw [claim]; exact current.linked.named?_handleOf mem
    exact ⟨y.address, (addressOf?_eq_some (ne_finish_of_named? named)).2 ⟨m, named, by rw [address?, hy]; rfl⟩⟩

/-- What an item leads to is an item of the sequence. -/
theorem exists_lead (owns : Owns s) (hn : n ∈ s.items.toList) (hx : s.item? n = some x) {l : LabelKind × Handle} (hl : l ∈ x.leads) :
    ∃ m a, s.named? l.2 = some m ∧ s.address? m = some a := by
  have written := current.written n hn x hx
  rcases Item.mem_leads.1 hl with ⟨i, rfl, has, rfl⟩ | ⟨c, hc, rfl⟩
  · obtain ⟨m, -, b, named, -, hb, -⟩ := written.target i rfl has
    exact ⟨m, b, named, hb⟩
  · obtain ⟨o, owner⟩ := Item.exists_owner?_of_case hc
    obtain ⟨base, hbase⟩ := current.exists_owner hn hx owner (owns n hn x hx o owner)
    obtain ⟨m, b, named, hb, -⟩ := written.cases o base owner hbase c hc
    exact ⟨m, b, named, hb⟩

/-- What an item leads to has a collected reference of the same kind. -/
theorem exists_reference (owns : Owns s) (hn : n ∈ s.items.toList) (hx : s.item? n = some x) {l : LabelKind × Handle} (hl : l ∈ x.leads) :
    ∃ r ∈ s.referencesTo l.2, r.kind = l.1 := by
  obtain ⟨m, -, named, -⟩ := current.exists_lead owns hn hx hl
  obtain ⟨r, mem, kind⟩ := exists_collected hn hx (current.shaped n hn x hx) (owns n hn x hx) hl (nonneg_of_named? named)
  rw [current.references] at mem
  exact ⟨r, mem_referencesTo.2 mem, kind⟩

/-- The address of an item is below that of the end. -/
theorem address_lt (hn : n ∈ s.items.toList) (address : s.address? n = some a) : a < s.units := by
  obtain ⟨p, x, shape, -, below⟩ := current.snug.laid.mem hn
  obtain ⟨y, hy, rfl, -⟩ := shape?_eq_some.1 shape
  rw [address?_of_shape? shape] at address
  cases address
  have room := (current.shaped n hn y hy).extent_pos
  rw [Item.unlinked_extent] at below
  omega

/-- `toElements` of a current sequence succeeds with one block for each item that is not padding, if every table has
an owner and no label is asked for at padding. -/
theorem exists_toElements (owns : Owns s) (few : ∀ n ∈ s.items.toList, ∀ i, s.item? n = some (.plain i) → i.Few)
    (sound : ∀ p ∈ s.pool, p.Sound) (spared : Spared s)
    (apart : ∀ e ∈ extra, ∀ n ∈ s.items.toList, s.address? n = some e.1 → s.solid n = true) (body : Body) :
    ∃ bs, s.toElements body extra = .ok (bs.flatMap Block.lines ++ (labelsAt s.units [] extra).map .label) ∧
      List.Forall₂ (Spoken s body extra) s.solids bs := by
  have silent : ∀ n ∈ s.items.toList, ∀ x, s.node? n = some x → x.item.isPadding = true → s.labelsOn extra x = [] := by
    intro n hn x hx padding
    have soft : s.solid n = false := by rw [Sequence.solid, item?_of_node? hx, Option.any_some, padding]; rfl
    have absent : names (s.labelsOn extra x) = [] := by
      rw [List.eq_nil_iff_forall_not_mem]
      intro name mem
      rcases (mem_names_labelsOn hx).1 mem with mem | ⟨r, hr, -⟩
      · have hard := apart _ mem n hn (by rw [address?, hx]; rfl)
        rw [soft] at hard
        cases hard
      · rw [spared n hn soft] at hr
        cases hr
    exact List.map_eq_nil_iff.1 absent
  have told : ∀ n ∈ s.items.toList, ∀ x, s.node? n = some x → x.item.isPadding = false →
      ∃ e, s.element x body = .ok e ∧ Told s body x.item e := by
    intro n hn x hx _
    have item := item?_of_node? hx
    refine exists_element (fun l hl => ?_) (current.shaped n hn _ item) (fun i e => few n hn i (by rw [item, e]))
      (fun o => owns n hn _ item o) sound body
    obtain ⟨m, a, named, address⟩ := current.exists_lead owns hn item hl
    have ne := ne_finish_of_named? named
    exact ⟨l.1.name a, targetLabel_eq_ok.2 ⟨ne, a, (addressOf?_eq_some ne).2 ⟨m, named, address⟩, rfl⟩⟩
  obtain ⟨parts, bs, run, flat, spoken⟩ := exists_parts silent (fun n hn => current.linked.node?_of_mem hn) told
  refine ⟨bs, ?_, spoken⟩
  rw [toElements_eq]
  exact Action.except_bind_eq_ok.2 ⟨parts, run, by rw [← flat]; rfl⟩

end Current

/-! ## Labels -/

/-- The labels that are asked for are named for their address and a kind. -/
def Named (extra : List (Int × Bytes)) : Prop := ∀ e ∈ extra, ∃ k : LabelKind, e.2 = k.name e.1

/-- A label is asked for at one address only, and one that is named for an address is asked for there. -/
def Apart (extra : List (Int × Bytes)) : Prop :=
  ∀ e ∈ extra, (∀ f ∈ extra, f.2 = e.2 → f.1 = e.1) ∧ ∀ (k : LabelKind) (a : Int), k.name a = e.2 → a = e.1

theorem Named.apart (named : Named extra) : Apart extra := by
  intro e he
  obtain ⟨k, hk⟩ := named e he
  refine ⟨fun f hf same => ?_, fun l a same => (LabelKind.name_inj (same.trans hk)).2⟩
  obtain ⟨l, hl⟩ := named f hf
  exact (LabelKind.name_inj (hl.symm.trans (same.trans hk))).2

/-- A label is declared at one address only. -/
theorem Apart.address_eq (apart : Apart extra) {b : Int} {refs refs' : List Reference}
    (here : name ∈ names (labelsAt a refs extra)) (there : name ∈ names (labelsAt b refs' extra)) : a = b := by
  rcases mem_names_labelsAt.1 here with here | ⟨r, -, e⟩ <;> rcases mem_names_labelsAt.1 there with there | ⟨r', -, e'⟩
  · exact (apart _ there).1 _ here rfl
  · exact ((apart _ here).2 r'.kind b e'.symm).symm
  · exact (apart _ there).2 r.kind a e.symm
  · exact (LabelKind.name_inj (e.symm.trans e')).2

/-- Items at different addresses have no label in common, with each other or with the end. -/
theorem Apart.nodup_names (apart : Apart extra)
    (increasing : ns.Pairwise fun n m => ∃ p q, s.address? n = some p ∧ s.address? m = some q ∧ p < q)
    (below : ∀ n ∈ ns, ∀ a, s.address? n = some a → a < s.units) :
    ((ns.filterMap s.node?).flatMap (fun x => names (s.labelsOn extra x)) ++ names (labelsAt s.units [] extra)).Nodup := by
  refine List.nodup_append.2 ⟨List.nodup_flatMap.2 ⟨fun x _ => nodup_names_labelsAt, ?_⟩, nodup_names_labelsAt, ?_⟩
  · refine List.pairwise_filterMap.2 (increasing.imp fun ⟨p, q, hp, hq, lt⟩ x hx y hy name here there => ?_)
    rw [address?, hx] at hp
    rw [address?, hy] at hq
    cases hp
    cases hq
    exact absurd (apart.address_eq here there) (Int.ne_of_lt lt)
  · rintro name here _ there rfl
    obtain ⟨x, hx, here⟩ := List.mem_flatMap.1 here
    obtain ⟨n, hn, hx⟩ := List.mem_filterMap.1 hx
    exact absurd (apart.address_eq here there) (Int.ne_of_lt (below n hn _ (by rw [address?, hx]; rfl)))

theorem flatMap_names (spoken : List.Forall₂ (Spoken s body extra) ns bs) :
    bs.flatMap (fun b => names b.1) = (ns.filterMap s.node?).flatMap fun x => names (s.labelsOn extra x) := by
  induction spoken with
  | nil => rfl
  | cons head _ ih =>
    obtain ⟨x, hx, labels, -⟩ := head
    rw [List.flatMap_cons, List.filterMap_cons, hx, labels, ih]
    rfl

/-- No label is declared twice. -/
theorem Current.nodup_names (current : Current s) (named : Named extra) (spoken : List.Forall₂ (Spoken s body extra) s.solids bs) :
    (bs.flatMap (fun b => names b.1) ++ names (labelsAt s.units [] extra)).Nodup := by
  rw [flatMap_names spoken]
  exact named.apart.nodup_names (current.increasing.sublist List.filter_sublist)
    fun n hn a address => current.address_lt (List.mem_filter.1 hn).1 address

/-! ## What labels stand for -/

/-- `k` is the number of the item that `h` names, among the items that are not padding. -/
def Follows (s : Sequence) (h k : Handle) : Prop := ∃ j m : Nat, k = j ∧ s.solids[j]? = some m ∧ s.named? h = some m

/-- `k` is the number of the item that `h` names, or both are the end. -/
def Meets (s : Sequence) (h k : Handle) : Prop := h = .finish ∧ k = .finish ∨ Follows s h k

theorem exists_getElem?_right {α β : Type} {R : α → β → Prop} {xs : List α} {ys : List β} (rel : List.Forall₂ R xs ys) {j : Nat}
    {x : α} (hx : xs[j]? = some x) : ∃ y, ys[j]? = some y ∧ R x y := by
  obtain ⟨lt, rfl⟩ := List.getElem?_eq_some_iff.1 hx
  have lt' : j < ys.length := rel.length_eq ▸ lt
  exact ⟨ys[j], List.getElem?_eq_getElem lt', rel.get lt lt'⟩

theorem forall₂_of_common {α β γ : Type} {P : α → β → Prop} {Q : α → γ → Prop} {R : β → γ → Prop} {xs : List α} {ys : List β} {zs : List γ}
    (left : List.Forall₂ P xs ys) (right : List.Forall₂ Q xs zs) (meet : ∀ x y z, P x y → Q x z → R y z) : List.Forall₂ R ys zs := by
  induction left generalizing zs with
  | nil =>
    cases right
    exact .nil
  | cons head _ ih =>
    cases right with
    | cons head' tail' => exact .cons (meet _ _ _ head head') (ih tail')

/-- A label of an item stands for its number. -/
theorem mem_handlesOf {last : List Assembly.Label} (spoken : List.Forall₂ (Spoken s body extra) s.solids bs) {j : Nat}
    (here : s.solids[j]? = some m) (label : ∀ x, s.node? m = some x → name ∈ names (s.labelsOn extra x)) :
    (name, (j : Handle)) ∈ handlesOf bs last := by
  obtain ⟨b, hb, x, hx, labels, -⟩ := exists_getElem?_right spoken here
  have mem := Block.mem_handles (k := 0) hb (labels ▸ label x hx)
  rw [Nat.zero_add] at mem
  exact List.mem_append_right _ mem

/-- A label that was asked for at the address of a handle stands for the number of its item, or for the end. -/
theorem Current.exists_found (current : Current s) (spoken : List.Forall₂ (Spoken s body extra) s.solids bs) {address : Int}
    (mem : (address, name) ∈ extra) (there : s.addressOf? h = some address)
    (hard : ∀ m, s.named? h = some m → s.solid m = true) :
    ∃ k, (name, k) ∈ handlesOf bs (labelsAt s.units [] extra) ∧ Meets s h k := by
  by_cases finish : h = .finish
  · rw [finish, addressOf?, if_pos rfl] at there
    cases there
    refine ⟨.finish, List.mem_append_left _ (List.mem_map.2 ⟨name, mem_names_labelsAt.2 (.inl mem), rfl⟩), .inl ⟨finish, rfl⟩⟩
  · obtain ⟨m, hm, address⟩ := (addressOf?_eq_some finish).1 there
    obtain ⟨j, hj⟩ := List.mem_iff_getElem?.1 (List.mem_filter.2 ⟨current.linked.mem_of_named? hm, hard m hm⟩)
    refine ⟨j, mem_handlesOf spoken hj fun y hy => mem_names_labelsAt.2 (.inl ?_), .inr ⟨j, m, rfl, hj, hm⟩⟩
    rw [address?, hy, Option.map_some] at address
    cases address
    exact mem

namespace Current

variable (current : Current s) (owns : Owns s) (spared : Spared s) (named : Named extra)
  (spoken : List.Forall₂ (Spoken s body extra) s.solids bs)
include current owns spared

/-- What an item leads to has a number. -/
theorem exists_follows (hn : n ∈ s.items.toList) (hx : s.item? n = some x) {l : LabelKind × Handle} (hl : l ∈ x.leads) :
    ∃ k, Follows s l.2 k := by
  obtain ⟨m, a, hm, -⟩ := current.exists_lead owns hn hx hl
  obtain ⟨r, hr, -⟩ := current.exists_reference owns hn hx hl
  have mem := current.linked.mem_of_named? hm
  have hard : s.solid m = true := by
    by_contra soft
    have absent := spared m mem (by simpa using soft)
    rw [← current.linked.eq_handleOf_of_named? hm] at absent
    rw [absent] at hr
    cases hr
  obtain ⟨j, hj⟩ := List.mem_iff_getElem?.1 (List.mem_filter.2 ⟨mem, hard⟩)
  exact ⟨j, j, m, rfl, hj, hm⟩

include named spoken

/-- The labels that an element refers to stand for the numbers of what its item leads to. -/
theorem exists_finds (hn : n ∈ s.items.toList) (hx : s.item? n = some x) {e : Element} (told : Told s body x e) :
    ∃ hs, Finds (handlesOf bs (labelsAt s.units [] extra)) e hs ∧ List.Forall₂ (fun l k => Follows s l.2 k) x.leads hs := by
  have each : ∀ l ∈ x.leads, ∃ k, Follows s l.2 k ∧ ∀ name, s.targetLabel l.1 l.2 = .ok name →
      findLabel (handlesOf bs (labelsAt s.units [] extra)) e.origin name = .ok k := by
    intro l hl
    obtain ⟨k, j, m, rfl, hj, hm⟩ := current.exists_follows owns spared hn hx hl
    refine ⟨j, ⟨j, m, rfl, hj, hm⟩, fun name label => ?_⟩
    obtain ⟨ne, a, ha, rfl⟩ := targetLabel_eq_ok.1 label
    have mem : (l.1.name a, (j : Handle)) ∈ handlesOf bs (labelsAt s.units [] extra) := by
      refine mem_handlesOf spoken hj fun y hy => (mem_names_labelsOn hy).2 (.inr ?_)
      obtain ⟨r, hr, kind⟩ := current.exists_reference owns hn hx hl
      obtain ⟨m', hm', there⟩ := (addressOf?_eq_some ne).1 ha
      obtain rfl : m' = m := Option.some.inj (hm'.symm.trans hm)
      rw [address?, hy, Option.map_some] at there
      cases there
      rw [current.linked.eq_handleOf_of_named? hm] at hr
      exact ⟨r, hr, by rw [kind]⟩
    rw [findLabel, findLabel_of_mem (nodup_handlesOf (current.nodup_names named spoken)) mem]
  obtain ⟨hs, found⟩ := List.exists_forall₂ each
  refine ⟨hs, ?_, found.imp fun _ _ h => h.1⟩
  exact forall₂_of_common told.labels found fun _ name _ label h => h.2 name label

end Current

/-! ## What was read -/

section Read

variable {t r : Sequence} {q : Reference} {xs : List Item}

theorem mem_contents {y : Node} : y ∈ s.contents ↔ ∃ n ∈ s.items.toList, s.node? n = some y := List.mem_filterMap

@[simp] theorem aims_markItem : (markItem x).Aims h ↔ x.Aims h := by cases x <;> rfl

theorem mem_targeted : h ∈ s.targeted ↔ ∃ y ∈ s.contents, y.item.Aims h := by
  rw [targeted, List.mem_flatMap]
  refine exists_congr fun y => and_congr_right fun _ => ?_
  have table : ∀ {x : Item} {o : Handle}, x.owner? = some o → x.leads = x.cases.map (fun c => (x.caseLabel, c.handle)) →
      (h ∈ (if (x.owner?.getD .none) < 0 then [] else x.cases.map Case.handle) ↔ x.Aims h) := by
    intro x o owner leads
    rw [Item.Aims, leads, owner]
    by_cases neg : o < 0
    · simp [neg]
    · simp [neg, Int.not_lt.1 neg]
  cases y.item with
  | plain i => by_cases has : i.hasTarget = true <;> simp [Item.Aims, Item.leads, Item.owner?, has, eq_comm]
  | packed p => exact table rfl rfl
  | sparse p => exact table rfl rfl
  | array p => simp [Item.Aims, Item.leads, Item.owner?, Item.cases]

/-- The collected references are those of items. -/
theorem exists_aims (branches : ∀ n ∈ s.items.toList, ∀ i, s.item? n = some (.plain i) → 0 ≤ i.target → i.hasTarget = true)
    (mem : (h, q) ∈ s.collectReferences.references) : ∃ y ∈ s.contents, y.item.Aims h := by
  simp only [collectReferences, List.mem_append, List.mem_filterMap, List.mem_flatMap] at mem
  rcases mem with ⟨n, hn, e⟩ | ⟨y, hy, e⟩
  · split at e
    · next i item =>
      split at e
      · cases e
      · next nonneg =>
        cases e
        have item : s.item? n = some (.plain i) := item
        obtain ⟨y, hy, plain⟩ := item?_eq_some.1 item
        have has := branches n hn i item (Int.not_lt.1 nonneg)
        refine ⟨y, mem_contents.2 ⟨n, hn, hy⟩, ⟨_, Item.mem_leads.2 (.inl ⟨i, plain, has, rfl⟩), rfl⟩, fun o owner => ?_⟩
        rw [plain] at owner
        cases owner
    · cases e
  · split at e
    · next o owner =>
      split at e
      · cases e
      · next nonneg =>
        obtain ⟨⟨key, c⟩, pair, e⟩ := List.mem_filterMap.1 e
        split at e
        · cases e
        · cases e
          refine ⟨y, hy, ⟨_, Item.mem_leads.2 (.inr ⟨c, (List.of_mem_zip pair).2, rfl⟩), rfl⟩, fun o' owner' => ?_⟩
          rw [owner] at owner'
          cases owner'
          exact Int.not_lt.1 nonneg
    · cases e

/-- Marking does not change what items refer to. -/
theorem Marked.exists_aims (marked : Marked s t) (aims : ∃ y ∈ t.contents, y.item.Aims h) : ∃ y ∈ s.contents, y.item.Aims h := by
  obtain ⟨y, hy, aims⟩ := aims
  obtain ⟨n, hn, hy⟩ := mem_contents.1 hy
  have item := item?_of_node? hy
  rw [show t.items = s.items by rw [marked.eq]] at hn
  by_cases pad : Pads s n
  · rw [marked.marked n pad] at item
    obtain ⟨x, hx, e⟩ := Option.map_eq_some_iff.1 item
    obtain ⟨z, hz, rfl⟩ := item?_eq_some.1 hx
    exact ⟨z, mem_contents.2 ⟨n, hn, hz⟩, aims_markItem.1 (e ▸ aims)⟩
  · rw [marked.others n pad] at item
    obtain ⟨z, hz, e⟩ := item?_eq_some.1 item
    exact ⟨z, mem_contents.2 ⟨n, hn, hz⟩, e ▸ aims⟩

/-- Nothing refers to what was marked as padding. -/
theorem Marked.spared (marked : Marked s t) (fresh : ∀ n ∈ s.items.toList, ∀ x, s.item? n = some x → x.isPadding = false)
    (branches : ∀ n ∈ t.items.toList, ∀ i, t.item? n = some (.plain i) → 0 ≤ i.target → i.hasTarget = true)
    (linked : Linked t t.items.toList) : Spared t.collectReferences := by
  intro n hn soft
  have hn : n ∈ t.items.toList := hn
  obtain ⟨x, hx⟩ := linked.item?_of_mem hn
  have soft : t.solid n = false := soft
  have pad : IsPad t n := ⟨x, hx, by rw [Sequence.solid, hx] at soft; simpa using soft⟩
  rw [show t.items = s.items by rw [marked.eq]] at hn
  obtain ⟨k, -, pads⟩ := marked.pads (fresh n hn) pad
  obtain ⟨-, -, -, -, -, -, -, -, -, free⟩ := pads_eq_true.1 pads
  rw [List.eq_nil_iff_forall_not_mem]
  intro q hq
  refine free (mem_targeted.2 (marked.exists_aims ?_))
  have same : t.collectReferences.handleOf n = s.handleOf n := (handleOf_eq ..).trans (by rw [handleOf_eq, ← marked.handle?]; rfl)
  rw [← same]
  exact Sequence.exists_aims branches (mem_referencesTo.1 hq)

/-- What was marked as padding is zero. -/
theorem Marked.blank (marked : Marked s t) (fresh : ∀ n ∈ s.items.toList, ∀ x, s.item? n = some x → x.isPadding = false)
    (sealed : ∀ n ∈ t.items.toList, ∀ x, t.item? n = some x → x.Shaped ∧ x.Sealed) : Blank t := by
  intro n hn x hx padding
  obtain ⟨shaped, nop⟩ := sealed n hn x hx
  rw [show t.items = s.items by rw [marked.eq]] at hn
  have pad := marked.pads (fresh n hn) ⟨x, hx, padding⟩
  rw [marked.marked n pad] at hx
  obtain ⟨k, -, pads⟩ := pad
  obtain ⟨i, -, -, hi, -, -, zero, -⟩ := pads_eq_true.1 pads
  rw [hi] at hx
  obtain rfl := Option.some.inj hx
  have opcode : i.opcode = Opcode.nop := nop padding
  have length : i.units.length = 1 := by
    have := Instruction.Shaped.length shaped
    rwa [show ({ i with isPadding := true } : Instruction).opcode = Opcode.nop from opcode] at this
  obtain ⟨v, units⟩ := List.length_eq_one_iff.1 length
  rw [units, List.head?_cons, Option.some.injEq] at zero
  refine ⟨opcode, ?_⟩
  change (i.units.flatMap bytesU16 ++ []) = _
  rw [units, zero]
  rfl

/-- What `decode` gives if only switches lead to switch tables. -/
theorem collected_of_decode {c c' : Cursor} (hc : c.Sane) (run : (decode c).Gives s c' t) (scan : Scan c xs c')
    (aligned : Aligned xs) (only : SwitchOnly xs) : ∃ u, Reads xs (s.scanned xs) ∧ Gathered (s.scanned xs) u ∧
      t = u.collectReferences ∧ Spared t ∧ Blank t := by
  obtain ⟨cell, ys, u, v, -, scan', -, branches, tables, rfl⟩ := gives_decode.1 run
  obtain rfl := scan.unique hc scan'
  have reads := reads_scanned s scan.raw
  have raw : ∀ n ∈ (s.scanned xs).items.toList, ∀ x, (s.scanned xs).item? n = some x → x.Raw := fun n hn x hx => reads.item hn hx
  have gathered := gathered_markPadding reads.linked raw branches tables
  have linked := gathered.linked reads
  have same := (gathered.snug reads aligned).relink_of_claimed linked (gathered.claimed reads only)
  have whole := relinked_of_each reads.linked branches tables
  have marked := marked_markPadding v
  have fresh : ∀ n ∈ v.items.toList, ∀ x, v.item? n = some x → x.isPadding = false := by
    intro n hn x hx
    obtain ⟨y, hy, e⟩ := whole.item?_unlinked hx
    rw [← Item.unlinked_isPadding, e, Item.unlinked_isPadding]
    exact (raw n (whole.items ▸ hn) y hy).isPadding
  refine ⟨v.markPadding, reads, gathered, same, same ▸ marked.spared fresh (fun n hn i hi nonneg => ?_) linked,
    same ▸ marked.blank fresh fun n hn => gathered.sealed n (gathered.items ▸ hn)⟩
  rw [gathered.items] at hn
  have target := gathered.target n hn i hi
  cases lead : (s.scanned xs).lead? n with
  | none =>
    rw [lead] at target
    rw [target] at nonneg
    cases nonneg
  | some m =>
    obtain ⟨j, -, -, hj, -, has, -⟩ := lead?_eq_some.1 lead
    obtain ⟨read, -⟩ := gathered.item?_bare reads hn hi
    rw [hj] at read
    cases read
    exact has

/-- If every switch table has a switch, every table has an owner. -/
theorem Gathered.owns (h : Gathered r t) (reads : Reads xs r)
    (owned : ∀ q ∈ spread 0 xs, q.2.owner?.isSome = true → ∃ p ∈ spread 0 xs, dest? p = some q.1) : Owns t := by
  intro n hn x hx o owner
  rw [h.items] at hn
  obtain ⟨y, -, a, item, address, -⟩ := reads.rows.exists_item hn
  obtain ⟨read, -⟩ := h.item?_bare reads hn hx
  have table : y.owner?.isSome = true := by
    rw [item] at read
    rw [Option.some.inj read, Item.owner?_bare, owner]
    rfl
  obtain ⟨p, hp, dest⟩ := owned ((a : Int), y) (reads.rows.mem_spread.2 ⟨n, hn, item, address⟩) table
  obtain ⟨k, hk, located⟩ := reads.rows.mem_spread.1 hp
  have lead := (reads.lead?_iff located hn address).2 dest
  rw [h.owner n hn x o hx owner]
  cases last : lastTo r.lead? n r.items.toList with
  | none => exact absurd lead (lastTo_eq_none.1 last k hk)
  | some m => exact Linked.handleOf_nonneg r m

theorem Gathered.few (h : Gathered r t) (reads : Reads xs r) (few : ∀ i, .plain i ∈ xs → i.Few) :
    ∀ n ∈ t.items.toList, ∀ i, t.item? n = some (.plain i) → i.Few := by
  intro n hn i hi
  obtain ⟨-, mem⟩ := h.item?_bare reads (h.items ▸ hn) hi
  exact few { i with target := .none, isPadding := false } mem

theorem Gathered.terse (h : Gathered r t) (reads : Reads xs r) (terse : ∀ y ∈ xs, y.Terse) :
    ∀ n ∈ t.items.toList, ∀ x, t.item? n = some x → x.Terse := by
  intro n hn x hx
  obtain ⟨-, mem⟩ := h.item?_bare reads (h.items ▸ hn) hx
  have here := terse _ mem
  cases x <;> exact here

end Read

end Dalvik.Sequence
