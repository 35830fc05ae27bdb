import Dalvik.Proofs.Sequence.Refreshing
import Dalvik.Proofs.Sequence.Snug
import Mathlib.Algebra.BigOperators.Group.Finset.Basic
import Mathlib.Algebra.Order.BigOperators.Group.Finset

/-!
# Where the encoding comes to rest

A pass that widens a jump makes the total `weight` of the jumps smaller, and a layout does not make
it larger, so `settle` ends with a pass that widens nothing (`last_pass`). This pass has written
every offset in one and the same layout, so every item is `Written` afterwards.
-/

namespace Dalvik.Sequence

variable {free : Instruction → Prop} {P : Item → Prop} {s t u : Sequence} {n m : Nat} {ns xs : List Nat} {g : Bool}
  {fuel : Nat}

/-! ## What a pass writes -/

/-- The offsets in the item are the distances to what its handles name. -/
structure Written (s : Sequence) (n : Nat) (x : Item) : Prop where
  target : ∀ i, x = .plain i → i.hasTarget = true → ∃ m a b, s.named? i.target = some m ∧ s.address? n = some a ∧
    s.address? m = some b ∧ i.data = .ok (b - a)
  cases : ∀ o base, x.owner? = some o → s.addressOf? o = some base → ∀ c ∈ x.cases, ∃ m b,
    s.named? c.handle = some m ∧ s.address? m = some b ∧ c.offset = UInt32.ofInt (b - base)

theorem Recoded.written (h : Recoded s t) {x : Item} : Written t n x ↔ Written s n x := by
  have named : t.named? = s.named? := funext h.named?
  have address : t.address? = s.address? := funext h.address?
  have addressOf : t.addressOf? = s.addressOf? := funext h.addressOf?
  constructor <;> intro w <;> refine ⟨fun i hi has => ?_, fun o base ho hb => ?_⟩
  · simpa only [named, address] using w.target i hi has
  · simpa only [named, address, addressOf] using w.cases o base ho (by rw [addressOf, hb])
  · simpa only [named, address] using w.target i hi has
  · simpa only [named, address, addressOf] using w.cases o base ho (by rw [← addressOf, hb])

theorem exists_left {α β : Type} {R : α → β → Prop} {xs : List α} {ys : List β} {y : β} (h : List.Forall₂ R xs ys)
    (hy : y ∈ ys) : ∃ x ∈ xs, R x y := by
  induction h with
  | nil => cases hy
  | @cons a b _ _ head _ ih =>
    rcases List.mem_cons.1 hy with rfl | hy
    · exact ⟨a, List.mem_cons_self, head⟩
    · obtain ⟨x, hx, r⟩ := ih hy
      exact ⟨x, List.mem_cons_of_mem _ hx, r⟩

theorem Encoded.written {x y : Item} (h : Encoded s n x y) : Written s n y where
  target := by
    intro i e has
    cases h with
    | still absent =>
      cases e
      rw [absent] at has
      cases has
    | branch _ ne here there stored =>
      cases e
      obtain ⟨m, hm, hb⟩ := (addressOf?_eq_some ne).1 there
      exact ⟨m, _, _, by rw [(Instruction.retuned_setData stored).target, hm], here, hb, Instruction.data_of_setData stored⟩
    | @table x o base cs owner =>
      cases x with
      | plain i => cases owner
      | _ => cases e
    | unowned payload =>
      subst e
      cases payload
  cases := by
    intro o base owner there c hc
    cases h with
    | still absent => cases owner
    | branch => cases owner
    | @table x o' base' cs owner' there' landed =>
      rw [(Item.recoded_setCases x (Landed.handles landed)).owner?, owner'] at owner
      cases owner
      rw [there'] at there
      cases there
      rw [Item.cases_setCases landed.length_eq.symm] at hc
      obtain ⟨d, -, ne, b, hb, rfl⟩ := exists_left landed hc
      obtain ⟨m, hm, hb⟩ := (addressOf?_eq_some ne).1 hb
      exact ⟨m, b, hm, hb, rfl⟩
    | unowned payload absent =>
      rw [absent o owner] at there
      cases there

/-- A pass that widens nothing leaves every item `Written`. -/
theorem Encodes.written (h : Encodes ns s false t) (nodup : ns.Nodup) (hn : n ∈ ns) {y : Item} (hy : t.item? n = some y) :
    Written t n y := by
  obtain ⟨x, hx, -⟩ := h.recoded.of_item? hy
  obtain ⟨z, hz, encoded⟩ := h.encoded nodup hn hx
  obtain rfl := Option.some.inj (hy.symm.trans hz)
  exact h.recoded.written.2 encoded.written

/-! ## Jumps that can still grow -/

/-- How often a jump can be widened. -/
def jumpWeight (op : Opcode) : Nat :=
  if op.name = ascii "goto" then 2 else if op.name = ascii "goto/16" then 1 else 0

theorem jumpWeight_wider {op op' : Opcode} (h : wider? op = some op') : jumpWeight op' < jumpWeight op := by
  unfold wider? at h
  split at h
  · next name =>
    have name' := Opcode.name_of_ofName? h
    simp only [jumpWeight, name, name']
    decide
  · split at h
    · next name =>
      have name' := Opcode.name_of_ofName? h
      simp only [jumpWeight, name, name']
      decide
    · cases h

def weightAt (s : Sequence) (n : Nat) : Nat := ((s.item? n).map fun x => jumpWeight x.opcode).getD 0

theorem weightAt_le (s : Sequence) (n : Nat) : s.weightAt n ≤ 2 := by
  unfold weightAt
  cases s.item? n with
  | none => exact Nat.zero_le 2
  | some x =>
    rw [Option.map_some, Option.getD_some, jumpWeight]
    split
    · exact Nat.le_refl 2
    · split <;> omega

theorem weightAt_of_item? {x : Item} (hx : s.item? n = some x) : s.weightAt n = jumpWeight x.opcode := by
  rw [weightAt, hx, Option.map_some, Option.getD_some]

theorem weightAt_congr {x y : Item} (hx : s.item? n = some x) (hy : t.item? m = some y) (e : y.opcode = x.opcode) :
    t.weightAt m = s.weightAt n := by
  rw [weightAt_of_item? hx, weightAt_of_item? hy, e]

/-- The sum over all jumps. -/
def weight (s : Sequence) : Nat := ∑ n ∈ s.items.toList.toFinset, s.weightAt n

theorem weightAt_encodeTable (h : (encodeTable n).Gives s ⟨⟩ t) : t.weightAt m = s.weightAt m := by
  cases hx : s.item? m with
  | none => rw [weightAt, weightAt, hx, (recoded_encodeTable h).absent m hx]
  | some x =>
    obtain ⟨y, hy, -⟩ := (recoded_encodeTable h).item? m x hx
    exact weightAt_congr hx hy (sameSize_encodeTable h hx hy).2

/-- `encodeBranch` makes a jump lighter exactly if it widens it. -/
theorem weightAt_encodeBranch (h : (encodeBranch n).Gives s g t) :
    t.weightAt m ≤ s.weightAt m ∧ (g = true → t.weightAt n < s.weightAt n) := by
  rcases gives_encodeBranch h with ⟨rfl, rfl, -⟩ | ⟨x, a, dest, hx, -, -, -, -, ⟨rfl, y, hy, rfl⟩ | ⟨rfl, op, y, wider, hy, rfl⟩⟩
  · exact ⟨Nat.le_refl _, nofun⟩
  · refine ⟨?_, nofun⟩
    by_cases e : n = m
    · subst e
      have item : (s.modifyItem n fun _ => .plain y).item? n = some (.plain y) := by
        rw [item?_modifyItem, if_pos rfl, hx, Option.map_some]
      exact Nat.le_of_eq (weightAt_congr hx item (Instruction.retuned_setData hy).opcode)
    · rw [weightAt, item?_modifyItem, if_neg e, weightAt]
  · have item : (s.modifyItem n fun _ => .plain y).item? n = some (.plain y) := by
      rw [item?_modifyItem, if_pos rfl, hx, Option.map_some]
    have lighter : (s.modifyItem n fun _ => .plain y).weightAt n < s.weightAt n := by
      rw [weightAt_of_item? item, weightAt_of_item? hx]
      change jumpWeight y.opcode < jumpWeight x.opcode
      rw [(Instruction.setOpcode_eq_ok hy).1]
      exact jumpWeight_wider wider
    refine ⟨?_, fun _ => lighter⟩
    by_cases e : n = m
    · subst e
      exact Nat.le_of_lt lighter
    · rw [weightAt, item?_modifyItem, if_neg e, weightAt]

/-- A pass makes no jump heavier, and some jump lighter if it widens one. -/
theorem Encodes.weightAt (h : Encodes ns s g t) :
    (∀ m, t.weightAt m ≤ s.weightAt m) ∧ (g = true → ∃ n ∈ ns, t.weightAt n < s.weightAt n) := by
  induction h with
  | nil s => exact ⟨fun _ => Nat.le_refl _, nofun⟩
  | @cons n ns s t u v g g' branch table rest ih =>
    obtain ⟨le, lighter⟩ := ih
    have first : ∀ m, u.weightAt m ≤ s.weightAt m := by
      intro m
      rw [weightAt_encodeTable table]
      exact (weightAt_encodeBranch branch).1
    refine ⟨fun m => Nat.le_trans (le m) (first m), fun grown => ?_⟩
    cases g with
    | true =>
      refine ⟨n, List.mem_cons_self, Nat.lt_of_le_of_lt (le n) ?_⟩
      rw [weightAt_encodeTable table]
      exact (weightAt_encodeBranch (m := n) branch).2 rfl
    | false =>
      obtain ⟨m, hm, lt⟩ := lighter (by simpa using grown)
      exact ⟨m, List.mem_cons_of_mem _ hm, Nat.lt_of_lt_of_le lt (first m)⟩

theorem Encodes.weight_lt (h : Encodes s.items.toList s true t) : t.weight < s.weight := by
  obtain ⟨le, lighter⟩ := h.weightAt
  obtain ⟨n, hn, lt⟩ := lighter rfl
  unfold weight
  rw [h.recoded.items]
  exact Finset.sum_lt_sum (fun m _ => le m) ⟨n, List.mem_toFinset.2 hn, lt⟩

/-- `layout` only adds and drops padding, which has no weight. -/
theorem Linked.weight_layout (linked : Linked s s.items.toList) : s.layout.weight ≤ s.weight := by
  have evolves := linked.layout_evolves
  have placed := linked.layout.1
  have kept : ∀ n, (s.item? n).isSome → s.layout.weightAt n = s.weightAt n := by
    intro n hn
    obtain ⟨x, hx⟩ := Option.isSome_iff_exists.1 hn
    obtain ⟨y, hy, e⟩ := evolves.kept n x hx
    refine weightAt_congr hx hy ?_
    rw [← Item.unlinked_opcode, e, Item.unlinked_opcode]
  have there : ∀ n, s.layout.weightAt n ≠ 0 → (s.item? n).isSome := by
    intro n heavy
    cases hx : s.item? n with
    | some x => rfl
    | none =>
      refine absurd ?_ heavy
      cases hy : s.layout.item? n with
      | none => rw [Sequence.weightAt, hy, Option.map_none, Option.getD_none]
      | some y =>
        have opcode : y.opcode = Opcode.nop := by
          rw [← Item.unlinked_opcode, evolves.fresh n y hy hx, Item.unlinked_opcode]
          rfl
        rw [weightAt_of_item? hy, opcode]
        decide
  unfold weight
  calc ∑ n ∈ s.layout.items.toList.toFinset, s.layout.weightAt n
      ≤ ∑ n ∈ s.items.toList.toFinset, s.layout.weightAt n := by
        refine Finset.sum_le_sum_of_ne_zero fun n hn heavy => ?_
        rw [List.mem_toFinset] at hn ⊢
        obtain ⟨k, hk⟩ := placed.handle?_of_mem hn
        rw [linked.mem_iff, evolves.handles n k (there n heavy) hk, Option.isSome_some]
    _ = ∑ n ∈ s.items.toList.toFinset, s.weightAt n := by
        refine Finset.sum_congr rfl fun n hn => kept n ?_
        obtain ⟨x, hx⟩ := linked.node?_of_mem (List.mem_toFinset.1 hn)
        rw [item?_of_node? hx, Option.isSome_some]

theorem weight_le (s : Sequence) : s.weight ≤ 2 * s.items.size := by
  have card : s.items.toList.toFinset.card ≤ s.items.size := by
    simpa using List.toFinset_card_le s.items.toList
  have sum := Finset.sum_le_card_nsmul s.items.toList.toFinset s.weightAt 2 fun n _ => s.weightAt_le n
  rw [Nat.nsmul_eq_mul] at sum
  change s.items.toList.toFinset.sum s.weightAt ≤ 2 * s.items.size
  omega

/-- With enough fuel, the last pass of `settle` widens nothing, on a sequence that is snug. -/
theorem last_pass (stable : Item.Stable free P) (sound : Sound P s) (snug : Snug s)
    (enough : s.weight < fuel) (run : (settle fuel).Gives s ⟨⟩ t) :
    ∃ u, Sound P u ∧ Snug u ∧ Encodes u.items.toList u false t ∧ Carries s u := by
  induction fuel generalizing s with
  | zero => omega
  | succ fuel ih =>
    rcases gives_settle_succ.1 run with pass | ⟨u, pass, run⟩
    · exact ⟨s, sound, snug, pass, .refl s⟩
    · have grown := pass.sound stable sound
      have lighter := Nat.lt_of_le_of_lt grown.linked.weight_layout pass.weight_lt
      obtain ⟨v, sound', snug', last, carries⟩ := ih (grown.layout stable) grown.linked.layout_snug (by omega) run
      exact ⟨v, sound', snug', last, (pass.recoded.carries.trans grown.linked.layout_evolves.toCarries).trans carries⟩

end Dalvik.Sequence
