import Dalvik.Proofs.Sequence.Claim

/-!
# Owners of switch tables

`claimTables` makes the last switch that refers to a table its owner (`item?_claimed`). `Owned s`
says that the owner of a table in `s` is an instruction of `s` that is not padding. No layout takes
such an instruction away, so `relink` always establishes it (`owned_relink`).
-/

namespace Dalvik.Sequence

open Relation (ReflTransGen)

variable {s t : Sequence} {n m k : Nat} {ns : List Nat}

/-! ## Who claims what -/

/-- The last of several nodes that `f` sends to `m`. -/
def lastTo (f : Nat → Option Nat) (m : Nat) : List Nat → Option Nat
  | [] => none
  | n :: ns => (lastTo f m ns).or (if f n = some m then some n else none)

theorem mem_of_lastTo {f : Nat → Option Nat} (h : lastTo f m ns = some n) : n ∈ ns ∧ f n = some m := by
  induction ns with
  | nil => cases h
  | cons k ns ih =>
    rcases Option.or_eq_some_iff.1 h with h | ⟨-, h⟩
    · obtain ⟨mem, e⟩ := ih h
      exact ⟨List.mem_cons_of_mem _ mem, e⟩
    · split at h
      · next e =>
        cases h
        exact ⟨List.mem_cons_self, e⟩
      · cases h

theorem lastTo_eq_none {f : Nat → Option Nat} : lastTo f m ns = none ↔ ∀ n ∈ ns, f n ≠ some m := by
  induction ns with
  | nil => simp [lastTo]
  | cons k ns ih =>
    rw [lastTo, Option.or_eq_none_iff, ih, List.forall_mem_cons]
    by_cases e : f k = some m <;> simp [e]

theorem lastTo_congr {f g : Nat → Option Nat} (h : ∀ n ∈ ns, f n = some m ↔ g n = some m) :
    lastTo f m ns = lastTo g m ns := by
  induction ns with
  | nil => rfl
  | cons n ns ih =>
    rw [lastTo, lastTo, ih fun k hk => h k (List.mem_cons_of_mem _ hk)]
    simp only [h n List.mem_cons_self]

theorem lastTo_map {f g : Nat → Option Nat} {r : Nat → Nat} {k : Nat} (h : ∀ n ∈ ns, g (r n) = some k ↔ f n = some m) :
    lastTo g k (ns.map r) = (lastTo f m ns).map r := by
  induction ns with
  | nil => rfl
  | cons n ns ih =>
    rw [List.map_cons, lastTo, lastTo, Option.map_or, ih fun j hj => h j (List.mem_cons_of_mem _ hj)]
    simp only [h n List.mem_cons_self]
    split <;> rfl

theorem elim_handleOf_ne_finish (s : Sequence) (owner : Option Nat) : owner.elim .none s.handleOf ≠ .finish := by
  cases owner with
  | none => exact (by decide : Handle.none ≠ Handle.finish)
  | some n =>
    have := Linked.handleOf_nonneg s n
    rintro (e : s.handleOf n = Handle.finish)
    rw [e] at this
    cases this

/-- Gives a table its owner, if there is one. -/
def adopt (s : Sequence) (owner : Option Nat) (x : Item) : Item := owner.elim x fun n => x.setOwner (s.handleOf n)

@[simp] theorem adopt_plain (o : Option Nat) (x : Instruction) : s.adopt o (.plain x) = .plain x := by cases o <;> rfl

@[simp] theorem adopt_none (x : Item) : s.adopt none x = x := rfl

theorem adopt_adopt (o k : Option Nat) (x : Item) : s.adopt o (s.adopt k x) = s.adopt (o.or k) x := by
  cases o with
  | none => rfl
  | some n => cases k <;> simp [adopt]

/-- The table that a switch refers to. -/
def claims? (s : Sequence) (n : Nat) : Option Nat :=
  match s.item? n with
  | some (.plain x) => if x.opcode.is .switch then s.named? x.target else none
  | _ => none

theorem claims?_eq_some : s.claims? n = some m ↔ Claims s m n := by
  unfold claims? Claims
  constructor
  · intro h
    split at h
    · next x hx =>
      split at h
      · next switch => exact ⟨x, hx, switch, h⟩
      · cases h
    · cases h
  · rintro ⟨x, hx, switch, ht⟩
    rw [hx]
    simp only [switch, if_true, ht]

theorem Reowned.claims? (h : Reowned s t) (n : Nat) : t.claims? n = s.claims? n := by
  refine Option.ext fun m => ?_
  rw [claims?_eq_some, claims?_eq_some, h.claims_iff]

theorem Reowned.adopt (h : Reowned s t) (owner : Option Nat) (x : Item) : t.adopt owner x = s.adopt owner x := by
  cases owner <;> simp only [Sequence.adopt, h.handleOf, Option.elim_none, Option.elim_some]

theorem item?_claim (k : Nat) :
    (s.claim n).item? k = (s.item? k).map (s.adopt (if s.claims? n = some k then some n else none)) := by
  rcases claims_or_not s n with ⟨table, h⟩ | h
  · rw [claim_eq table h, item?_modifyItem, claims?_eq_some.2 h]
    by_cases e : table = k
    · subst e
      simp only [if_true]
      rfl
    · cases s.item? k <;> simp [e]
  · have absent : s.claims? n ≠ some k := fun e => h k (claims?_eq_some.1 e)
    rw [claim_of_not h, if_neg absent]
    cases s.item? k <;> rfl

theorem item?_claimAll (k : Nat) : (ns.foldl claim s).item? k = (s.item? k).map (s.adopt (lastTo s.claims? k ns)) := by
  induction ns generalizing s with
  | nil =>
    cases h : s.item? k <;> simp [lastTo, h]
  | cons n ns ih =>
    have step := reowned_claim s n
    have claims : (s.claim n).claims? = s.claims? := funext step.claims?
    rw [List.foldl_cons, ih, item?_claim, Option.map_map, claims]
    congr 1
    funext x
    rw [Function.comp_apply, step.adopt, adopt_adopt, lastTo]

theorem item?_disown (k : Nat) :
    (s.disown ns).item? k = (s.item? k).map fun x => if k ∈ ns then x.setOwner .none else x := by
  induction ns generalizing s with
  | nil => cases h : s.item? k <;> simp [disown, h]
  | cons n ns ih =>
    change ((s.modifyItem n (Item.setOwner .none)).disown ns).item? k = _
    rw [ih, item?_modifyItem]
    by_cases e : n = k
    · subst e
      cases s.item? n <;> simp
    · simp [e, Ne.symm e]

/-- The owner of a table is the last switch that refers to it. -/
theorem item?_claimed (k : Nat) : s.claimed.item? k = (s.item? k).map fun x =>
    s.adopt (lastTo s.claims? k s.items.toList) (if k ∈ s.items.toList then x.setOwner .none else x) := by
  have disowned := reowned_disown s s.items.toList
  have claims : (s.disown s.items.toList).claims? = s.claims? := funext disowned.claims?
  unfold claimed
  rw [item?_claimAll, item?_disown, Option.map_map, claims]
  congr 1
  funext x
  rw [Function.comp_apply, disowned.adopt]

theorem owner?_adopt {o : Handle} {owner : Option Nat} {x : Item} (h : (s.adopt owner x).owner? = some o) :
    (owner = none ∧ x.owner? = some o) ∨ ∃ n, owner = some n ∧ o = s.handleOf n := by
  cases owner with
  | none => exact .inl ⟨rfl, h⟩
  | some n =>
    refine .inr ⟨n, rfl, ?_⟩
    change (x.setOwner (s.handleOf n)).owner? = some o at h
    rw [Item.owner?_setOwner] at h
    obtain ⟨_, -, e⟩ := Option.map_eq_some_iff.1 h
    exact e.symm

/-! ## Owners that are there -/

/-- The handle is that of an instruction that is not padding. -/
def Solid (s : Sequence) (h : Handle) : Prop :=
  ∃ m y, s.named? h = some m ∧ s.item? m = some (.plain y) ∧ y.isPadding = false

/-- The owner of a table is an instruction of the sequence that is not padding. -/
def Owned (s : Sequence) : Prop :=
  ∀ n x o, (s.handle? n).isSome → s.item? n = some x → x.owner? = some o → 0 ≤ o → Solid s o

/-- No switch is marked as padding. -/
def SolidSwitches (s : Sequence) : Prop :=
  ∀ n x, s.item? n = some (.plain x) → x.opcode.is .switch = true → x.isPadding = false

theorem owned_claimed (linked : Linked s s.items.toList) (solid : SolidSwitches s) : Owned s.claimed := by
  intro k z o hk hz ho nonneg
  have reowned := reowned_claimed s
  have mem : k ∈ s.items.toList := (linked.mem_iff k).2 (by rw [← reowned.handle?]; exact hk)
  rw [item?_claimed] at hz
  obtain ⟨x, hx, rfl⟩ := Option.map_eq_some_iff.1 hz
  simp only [mem, if_true] at ho
  rcases owner?_adopt ho with ⟨-, ho⟩ | ⟨n, last, rfl⟩
  · rw [Item.owner?_setOwner] at ho
    obtain ⟨_, -, rfl⟩ := Option.map_eq_some_iff.1 ho
    cases nonneg
  · obtain ⟨memn, claims⟩ := mem_of_lastTo last
    obtain ⟨y, hy, switch, -⟩ := claims?_eq_some.1 claims
    exact ⟨n, y, by rw [reowned.named?, linked.named?_handleOf memn], reowned.item?_eq_plain_iff.2 hy, solid n y hy switch⟩

theorem owner?_retarget (x : Item) (source dest : Handle) : (x.retarget source dest).owner? = x.owner? := by
  cases x <;> rfl

/-- An adjustment keeps the owners of tables. -/
theorem Adjust.owner? {gone : Sequence → Nat → Prop} {z : Item} {o : Handle} (h : Adjust gone s t)
    (hk : (t.handle? k).isSome) (hz : t.item? k = some z) (ho : z.owner? = some o) :
    ∃ x, (s.handle? k).isSome ∧ s.item? k = some x ∧ x.owner? = some o := by
  cases h with
  | @forget n xs next linked hn =>
    have mem := ((linked.forget next).mem_iff k).2 hk
    rw [linked.item?_forget next mem] at hz
    obtain ⟨x, hx, rfl⟩ := Option.map_eq_some_iff.1 hz
    rw [owner?_retarget] at ho
    exact ⟨x, (linked.mem_iff k).1 (List.mem_cons_of_mem _ mem), hx, ho⟩
  | @pad xs linked =>
    rw [item?_register, item?_create] at hz
    split at hz
    · cases hz
      cases ho
    · next ne =>
      rw [handle?_register (handle?_create_self s (.plain .padding)) (node?_create_self s (.plain .padding)),
        if_neg (Ne.symm ne), handle?_create] at hk
      exact ⟨z, hk, hz, ho⟩
  | move n a =>
    rw [handle?_setAddress] at hk
    rw [item?_setAddress] at hz
    exact ⟨z, hk, hz, ho⟩

/-- An instruction that may not be forgotten keeps its handle, and its target unless that is forgotten. -/
theorem Adjust.solid {gone : Sequence → Nat → Prop} {o : Handle} {y : Instruction}
    (soft : ∀ s n x, gone s n → s.item? n = some (.plain x) → x.isPadding = true) (h : Adjust gone s t)
    (hm : s.named? o = some m) (hy : s.item? m = some (.plain y)) (solid : y.isPadding = false) :
    ∃ y', t.named? o = some m ∧ t.item? m = some (.plain y') ∧ y'.isPadding = false ∧ y'.opcode = y.opcode ∧
      ∀ n, s.named? y.target = some n → (t.handle? n).isSome → t.named? y'.target = some n := by
  cases h with
  | @forget q xs next linked hq =>
    have rest := linked.forget next
    have kept : ∀ {h n}, s.named? h = some n → n ∈ xs → (s.forget q next).named? h = some n := by
      intro h n hn mem
      obtain ⟨j, rfl, hj⟩ := linked.named?_iff.1 hn
      refine rest.named?_iff.2 ⟨j, rfl, ?_⟩
      rw [handle?_forget, if_neg, hj]
      rintro rfl
      exact (List.nodup_cons.1 linked.nodup).1 mem
    have other : m ∈ xs := by
      rcases List.mem_cons.1 (linked.mem_of_named? hm) with rfl | other
      · rw [soft s m y hq hy] at solid
        cases solid
      · exact other
    refine ⟨if y.target = s.handleOf q then { y with target := next } else y, kept hm other, ?_, ?_, ?_, fun n hn live => ?_⟩
    · rw [linked.item?_forget next other, hy]
      rfl
    · split <;> exact solid
    · split <;> rfl
    · have mem := (rest.mem_iff n).2 live
      have ne : y.target ≠ s.handleOf q := by
        intro e
        rw [e, linked.named?_handleOf List.mem_cons_self] at hn
        cases hn
        exact (List.nodup_cons.1 linked.nodup).1 mem
      rw [if_neg ne]
      exact kept hn mem
  | @pad xs linked =>
    have registered := linked.create_register (.plain .padding)
    have kept : ∀ {h n}, s.named? h = some n →
        ((s.create (.plain .padding)).2.register s.nodes.size).named? h = some n ∧ n ≠ s.nodes.size := by
      intro h n hn
      obtain ⟨j, rfl, hj⟩ := linked.named?_iff.1 hn
      have ne : n ≠ s.nodes.size := by
        rintro rfl
        rw [handle?, node?_size] at hj
        cases hj
      refine ⟨registered.named?_iff.2 ⟨j, rfl, ?_⟩, ne⟩
      rw [handle?_register (handle?_create_self s (.plain .padding)) (node?_create_self s (.plain .padding)),
        if_neg (Ne.symm ne), handle?_create, hj]
    refine ⟨y, (kept hm).1, ?_, solid, rfl, fun n hn _ => (kept hn).1⟩
    rw [item?_register, item?_create, if_neg (kept hm).2, hy]
  | move n a => exact ⟨y, hm, by rw [item?_setAddress, hy], solid, rfl, fun _ hn _ => hn⟩

/-- Forgetting padding or tables keeps `Owned`. -/
theorem Adjust.owned {gone : Sequence → Nat → Prop}
    (soft : ∀ s n x, gone s n → s.item? n = some (.plain x) → x.isPadding = true) (h : Adjust gone s t) (hs : Owned s) :
    Owned t := by
  intro k z o hk hz ho nonneg
  obtain ⟨x, live, hx, owner⟩ := h.owner? hk hz ho
  obtain ⟨m, y, hm, hy, solid⟩ := hs k x o live hx owner nonneg
  obtain ⟨y', hm', hy', solid', -⟩ := h.solid soft hm hy solid
  exact ⟨m, y', hm', hy', solid'⟩

theorem owned_of_adjusts {gone : Sequence → Nat → Prop}
    (soft : ∀ s n x, gone s n → s.item? n = some (.plain x) → x.isPadding = true) (h : ReflTransGen (Adjust gone) s t)
    (hs : Owned s) : Owned t := by
  induction h with
  | refl => exact hs
  | tail _ step ih => exact step.owned soft ih

theorem soft_unowned (s : Sequence) (n : Nat) (x : Instruction) (h : Unowned s n) (hx : s.item? n = some (.plain x)) :
    x.isPadding = true := by
  obtain ⟨y, o, hy, ho, -⟩ := h
  rw [hx] at hy
  cases hy
  cases ho

theorem soft_isPad (s : Sequence) (n : Nat) (x : Instruction) (h : IsPad s n) (hx : s.item? n = some (.plain x)) :
    x.isPadding = true := by
  obtain ⟨y, hy, padding⟩ := h
  rw [hx] at hy
  cases hy
  exact padding

/-- Only nodes and the arena matter. -/
theorem Owned.congr (h : Owned s) (nodes : t.nodes = s.nodes) (arena : t.arena = s.arena) : Owned t := by
  have node : t.node? = s.node? := by
    funext n
    simp only [node?, nodes]
  intro n x o hn hx ho nonneg
  simp only [handle?, item?, node] at hn hx
  obtain ⟨m, y, hm, hy, solid⟩ := h n x o hn hx ho nonneg
  refine ⟨m, y, ?_, ?_, solid⟩
  · simpa only [named?, arena] using hm
  · simpa only [item?, node] using hy

theorem Linked.owned_layout (linked : Linked s s.items.toList) (h : Owned s) : Owned s.layout := by
  obtain ⟨u, adjusts, e⟩ := layout_adjusts linked
  rw [e]
  exact (owned_of_adjusts soft_isPad adjusts h).congr rfl rfl

/-- `relink` establishes `Owned`, whatever the owners were before. -/
theorem Linked.owned_relink (linked : Linked s s.items.toList) (solid : SolidSwitches s) : Owned s.relink := by
  obtain ⟨u, adjusts, e⟩ := claimTables_adjusts linked
  have claimed : Owned s.claimTables := by
    rw [e]
    exact (owned_of_adjusts soft_unowned adjusts (owned_claimed linked solid)).congr rfl rfl
  have placed := linked.claimTables.owned_layout claimed
  unfold Sequence.relink collectReferences
  generalize s.claimTables.layout = t at placed ⊢
  exact placed.congr rfl rfl

end Dalvik.Sequence
