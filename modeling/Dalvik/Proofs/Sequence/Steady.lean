import Dalvik.Proofs.Sequence.Consistent
import Dalvik.Proofs.Sequence.Order
import Dalvik.Proofs.Sequence.Snug

/-!
# References that stay where they are

`relink` drops padding and tables without an owner, and moves on what referred to them. It moves no
other reference: if the instructions with the opcodes `f` are `Steady`, they go on referring to what
they referred to (`Keeps`), through a relayout and all passes of a refresh. If this holds of all
switches, a table that is owned by the last switch that leads to it is so after `refresh`
(`retains_refresh`).
-/

namespace Dalvik

/-- No jump refers to a payload, however wide it is. -/
theorem Opcode.payloadRef_of_wider {o o' : Opcode} (mem : o ∈ Opcode.instructions) (h : Sequence.wider? o = some o') :
    o.is .payloadRef = false ∧ o'.is .payloadRef = false := by
  have narrow : ∀ o ∈ Opcode.instructions, o.is .payloadRef = true → Sequence.wider? o = none := by decide +kernel
  have short : ∀ o ∈ Opcode.ofName? (ascii "goto/16"), o.is .payloadRef = false := by decide
  have long : ∀ o ∈ Opcode.ofName? (ascii "goto/32"), o.is .payloadRef = false := by decide
  constructor
  · rw [Bool.eq_false_iff]
    intro ref
    rw [narrow o mem ref] at h
    cases h
  · rcases Item.wider?_cases h with h | h
    · exact short o' h
    · exact long o' h

namespace Sequence

open Relation (ReflTransGen)

variable {free : Instruction → Prop} {P : Item → Prop} {f : Opcode → Bool} {s t u : Sequence} {n m : Nat} {xs ns : List Nat}

/-! ## What may go -/

/-- The item may be dropped by `relink`. -/
def Spare (s : Sequence) (n : Nat) : Prop := IsPad s n ∨ Unowned s n

/-- All opcodes in `f` refer to payloads, and all switches are in `f`. -/
structure Refers (f : Opcode → Bool) : Prop where
  payload : ∀ o ∈ Opcode.instructions, f o = true → o.is .payloadRef = true
  switch : ∀ o ∈ Opcode.instructions, o.is .switch = true → f o = true

theorem refers_payloadRef : Refers fun o => o.is .payloadRef := ⟨fun _ _ h => h, Opcode.payloadRef_of_switch⟩

theorem refers_switch : Refers fun o => o.is .switch := ⟨refers_payloadRef.switch, fun _ _ h => h⟩

theorem Refers.nop (h : Refers f) : f Opcode.nop = false := by
  rw [Bool.eq_false_iff]
  intro ref
  exact absurd (h.payload _ (by decide) ref) (by decide)

/-- What the slot of a handle holds, if the handle was given out; the handle `.none` has an empty slot. -/
def slot? (s : Sequence) (h : Handle) : Option (Option Nat) := if h < 0 then some none else s.arena[h.toNat]?

theorem named?_eq_slot? (s : Sequence) (h : Handle) : s.named? h = (s.slot? h).join := by
  unfold Sequence.named? slot?
  split <;> rfl

theorem slot?_of_named? {h : Handle} (named : s.named? h = some m) : s.slot? h = some (some m) := by
  rw [named?_eq_slot?] at named
  exact Option.join_eq_some_iff.1 named

theorem slot?_congr (arena : t.arena = s.arena) (h : Handle) : t.slot? h = s.slot? h := by
  simp only [slot?, arena]

/-- The instructions with opcodes in `f` refer to items that are not spare, or to nothing. -/
def Steady (f : Opcode → Bool) (s : Sequence) : Prop := ∀ n i, (s.handle? n).isSome → s.item? n = some (.plain i) →
  f i.opcode = true → ∃ o, s.slot? i.target = some o ∧ ∀ m ∈ o, ¬ Spare s m

/-! ## What is kept -/

/-- The instructions with opcodes in `f` refer to what they referred to, and tables keep their owners. -/
structure Keeps (f : Opcode → Bool) (s t : Sequence) : Prop where
  persists : ∀ n, (s.item? n).isSome → (t.item? n).isSome
  handles : ∀ n h, (s.item? n).isSome → t.handle? n = some h → s.handle? n = some h
  forth : ∀ n i, (t.handle? n).isSome → s.item? n = some (.plain i) → f i.opcode = true →
    ∃ j, t.item? n = some (.plain j) ∧ j.opcode = i.opcode ∧ t.slot? j.target = s.slot? i.target
  back : ∀ n j, (t.handle? n).isSome → t.item? n = some (.plain j) → f j.opcode = true →
    ∃ i, s.item? n = some (.plain i) ∧ i.opcode = j.opcode
  payload : ∀ n x, s.item? n = some x → x.isPayload = true → ∃ y, t.item? n = some y ∧ y.isPayload = true ∧ y.opcode = x.opcode
  padding : ∀ n x y, s.item? n = some x → t.item? n = some y → y.isPadding = x.isPadding
  owner? : ∀ n y o, t.item? n = some y → y.owner? = some o → ∃ x, s.item? n = some x ∧ x.owner? = some o

namespace Keeps

theorem refl (f : Opcode → Bool) (s : Sequence) : Keeps f s s where
  persists _ h := h
  handles _ _ _ h := h
  forth _ i _ hi _ := ⟨i, hi, rfl, rfl⟩
  back _ j _ hj _ := ⟨j, hj, rfl⟩
  payload _ x hx hp := ⟨x, hx, hp, rfl⟩
  padding n x y hx hy := by
    rw [hx] at hy
    cases hy
    rfl
  owner? _ y _ hy ho := ⟨y, hy, ho⟩

theorem live (h : Keeps f s t) (there : (s.item? n).isSome) (hn : (t.handle? n).isSome) : (s.handle? n).isSome := by
  obtain ⟨k, hk⟩ := Option.isSome_iff_exists.1 hn
  rw [h.handles n k there hk]
  rfl

theorem trans (hst : Keeps f s t) (htu : Keeps f t u) : Keeps f s u where
  persists n hn := htu.persists n (hst.persists n hn)
  handles n h hn hu := hst.handles n h hn (htu.handles n h (hst.persists n hn) hu)
  forth n i hn hi hf := by
    have there := hst.persists n (by rw [hi]; rfl)
    obtain ⟨j, hj, op, slot⟩ := hst.forth n i (htu.live there hn) hi hf
    obtain ⟨k, hk, op', slot'⟩ := htu.forth n j hn hj (by rw [op, hf])
    exact ⟨k, hk, op'.trans op, slot'.trans slot⟩
  back n k hn hk hf := by
    obtain ⟨j, hj, op⟩ := htu.back n k hn hk hf
    obtain ⟨i, hi, op'⟩ := hst.back n j (htu.live (by rw [hj]; rfl) hn) hj (by rw [op, hf])
    exact ⟨i, hi, op'.trans op⟩
  payload n x hx hp := by
    obtain ⟨y, hy, hp, op⟩ := hst.payload n x hx hp
    obtain ⟨z, hz, hp, op'⟩ := htu.payload n y hy hp
    exact ⟨z, hz, hp, op'.trans op⟩
  padding n x z hx hz := by
    obtain ⟨y, hy⟩ := Option.isSome_iff_exists.1 (hst.persists n (by rw [hx]; rfl))
    exact (htu.padding n y z hy hz).trans (hst.padding n x y hx hy)
  owner? n y o hy ho := by
    obtain ⟨x, hx, ho⟩ := htu.owner? n y o hy ho
    exact hst.owner? n x o hx ho

/-- Only nodes and the arena matter. -/
theorem congr (h : Keeps f s t) (nodes : u.nodes = t.nodes) (arena : u.arena = t.arena) : Keeps f s u := by
  have item? : ∀ n, u.item? n = t.item? n := fun n => by simp only [Sequence.item?, node?, nodes]
  have handle? : ∀ n, u.handle? n = t.handle? n := fun n => by simp only [Sequence.handle?, node?, nodes]
  constructor <;> simp only [item?, handle?, slot?_congr arena]
  · exact h.persists
  · exact h.handles
  · exact h.forth
  · exact h.back
  · exact h.payload
  · exact h.padding
  · exact h.owner?

/-- What is spare afterwards was spare before. -/
theorem spare (h : Keeps f s t) (there : (s.item? n).isSome) (spare : Spare t n) : Spare s n := by
  rcases spare with ⟨y, hy, padding⟩ | ⟨y, o, hy, owner, negative⟩
  · obtain ⟨x, hx⟩ := Option.isSome_iff_exists.1 there
    exact .inl ⟨x, hx, by rw [← h.padding n x y hx hy, padding]⟩
  · obtain ⟨x, hx, owner⟩ := h.owner? n y o hy owner
    exact .inr ⟨x, o, hx, owner, negative⟩

theorem steady (h : Keeps f s t) (linked : Linked s xs) (steady : Steady f s) : Steady f t := by
  intro n j hn hj hf
  obtain ⟨i, hi, op⟩ := h.back n j hn hj hf
  obtain ⟨j', hj', -, slot⟩ := h.forth n i hn hi (by rw [op, hf])
  rw [hj] at hj'
  cases hj'
  obtain ⟨o, ho, stays⟩ := steady n i (h.live (by rw [hi]; rfl) hn) hi (by rw [op, hf])
  refine ⟨o, slot.trans ho, fun m hm spare => stays m hm (h.spare ?_ spare)⟩
  have named : s.named? i.target = some m := by rw [named?_eq_slot?, ho, Option.mem_def.1 hm]; rfl
  obtain ⟨x, hx⟩ := linked.item?_of_mem (linked.mem_of_named? named)
  rw [hx]
  rfl

/-- A switch claims what it claimed. -/
theorem claims? (h : Keeps f s t) (refers : Refers f) (shaped : Holds Item.Shaped s) (shaped' : Holds Item.Shaped t)
    (hn : (t.handle? n).isSome) : t.claims? n = s.claims? n := by
  refine Option.ext fun m => ?_
  rw [claims?_eq_some, claims?_eq_some]
  constructor
  · rintro ⟨j, hj, switch, named⟩
    have hf := refers.switch _ (shaped' n _ hj).mem switch
    obtain ⟨i, hi, op⟩ := h.back n j hn hj hf
    obtain ⟨j', hj', -, slot⟩ := h.forth n i hn hi (by rw [op, hf])
    rw [hj] at hj'
    cases hj'
    exact ⟨i, hi, by rw [op, switch], by rw [named?_eq_slot?, ← slot, ← named?_eq_slot?, named]⟩
  · rintro ⟨i, hi, switch, named⟩
    obtain ⟨j, hj, op, slot⟩ := h.forth n i hn hi (refers.switch _ (shaped n _ hi).mem switch)
    exact ⟨j, hj, by rw [op, switch], by rw [named?_eq_slot?, slot, ← named?_eq_slot?, named]⟩

end Keeps

/-! ## Single adjustments -/

/-- If only links change, `Keeps` follows from what is said about references and owners. -/
theorem Evolves.keeps (h : Evolves s t) (nop : f Opcode.nop = false)
    (owner? : ∀ n y o, t.item? n = some y → y.owner? = some o → ∃ x, s.item? n = some x ∧ x.owner? = some o)
    (slot? : ∀ n i j, (t.handle? n).isSome → s.item? n = some (.plain i) → t.item? n = some (.plain j) → f i.opcode = true →
      t.slot? j.target = s.slot? i.target) : Keeps f s t := by
  have plain : ∀ {x y : Item} {i}, y.unlinked = x.unlinked → x = .plain i → ∃ j, y = .plain j ∧ j.opcode = i.opcode := by
    rintro x y i e rfl
    cases y with
    | plain j => exact ⟨j, rfl, (Instruction.mk.inj (Item.plain.inj e)).1⟩
    | _ => cases e
  exact {
    persists := h.persists
    handles := h.handles
    forth := fun n i hn hi hf => by
      obtain ⟨y, hy, e⟩ := h.kept n _ hi
      obtain ⟨j, rfl, op⟩ := plain e rfl
      exact ⟨j, hy, op, slot? n i j hn hi hy hf⟩
    back := fun n j hn hj hf => by
      cases hx : s.item? n with
      | none =>
        obtain ⟨k, e, op⟩ := plain (h.fresh n _ hj hx) rfl
        cases e
        rw [op, show Instruction.padding.opcode = Opcode.nop from rfl, nop] at hf
        cases hf
      | some x =>
        obtain ⟨y, hy, e⟩ := h.kept n x hx
        rw [hj] at hy
        cases hy
        obtain ⟨i, rfl, op⟩ := plain e.symm rfl
        exact ⟨i, rfl, op⟩
    payload := fun n x hx hp => by
      obtain ⟨y, hy, e⟩ := h.kept n x hx
      refine ⟨y, hy, ?_, ?_⟩
      · rw [← Item.unlinked_isPayload, e, Item.unlinked_isPayload, hp]
      · rw [← Item.unlinked_opcode, e, Item.unlinked_opcode]
    padding := fun n x y hx hy => by
      obtain ⟨y', hy', e⟩ := h.kept n x hx
      rw [hy] at hy'
      cases hy'
      rw [← Item.unlinked_isPadding, e, Item.unlinked_isPadding]
    owner? }

/-- `forget` of a spare node keeps steady references. -/
theorem Steady.forget (h : Steady f s) (nop : f Opcode.nop = false) (linked : Linked s (n :: xs)) (next : Handle)
    (spare : Spare s n) : Keeps f s (s.forget n next) := by
  have rest := linked.forget next
  refine (evolves_forget linked next).keeps nop (fun m y o hy ho => ?_) fun m i j hm hi hj hf => ?_
  · rw [item?_forget] at hy
    split at hy
    · obtain ⟨x, hx, rfl⟩ := Option.map_eq_some_iff.1 hy
      rw [owner?_retarget] at ho
      exact ⟨x, hx, ho⟩
    · exact ⟨y, hy, ho⟩
  · have mem := (rest.mem_iff m).2 hm
    obtain ⟨o, slot, stays⟩ := h m i ((linked.mem_iff m).1 (List.mem_cons_of_mem _ mem)) hi hf
    have other : i.target ≠ s.handleOf n := by
      intro e
      rw [e, slot?_of_named? (linked.named?_handleOf List.mem_cons_self)] at slot
      cases slot
      exact stays n rfl spare
    rw [linked.item?_forget next mem, hi, Option.map_some, Item.retarget, if_neg other] at hj
    cases hj
    unfold slot?
    split
    · rfl
    · next nonneg =>
      have apart : (s.handleOf n).toNat ≠ i.target.toNat := by
        intro e
        have same : ((s.handleOf n).toNat : Int) = i.target.toNat := by rw [e]
        rw [Int.toNat_of_nonneg (Linked.handleOf_nonneg s n), Int.toNat_of_nonneg (Int.not_lt.1 nonneg)] at same
        exact other same.symm
      rw [arena_forget, Array.getElem?_setIfInBounds_ne apart]

/-- No steady instruction refers to the handle of new padding. -/
theorem Steady.pad (h : Steady f s) (nop : f Opcode.nop = false) (linked : Linked s xs) :
    Keeps f s ((s.create (.plain .padding)).2.register s.nodes.size) := by
  have missing := handle?_create_self s (.plain .padding)
  have node := node?_create_self s (.plain .padding)
  have absent : s.item? s.nodes.size = none := by simp [item?]
  have registered := linked.create_register (.plain .padding)
  have evolves := evolves_pad s
  generalize ht : (s.create (.plain .padding)).2.register s.nodes.size = t at evolves registered ⊢
  have item : ∀ m, t.item? m = if m = s.nodes.size then some (.plain .padding) else s.item? m := by
    intro m
    rw [← ht, item?_register, item?_create]
  have handle : ∀ m, m ≠ s.nodes.size → t.handle? m = s.handle? m := by
    intro m ne
    rw [← ht, handle?_register missing node, if_neg (Ne.symm ne), handle?_create]
  refine evolves.keeps nop (fun m y o hy ho => ?_) fun m i j hm hi hj hf => ?_
  · rw [item] at hy
    split at hy
    · cases hy
      cases ho
    · exact ⟨y, hy, ho⟩
  · have ne : m ≠ s.nodes.size := by
      rintro rfl
      rw [absent] at hi
      cases hi
    rw [item, if_neg ne, hi] at hj
    cases hj
    rw [handle m ne] at hm
    obtain ⟨o, slot, -⟩ := h m i hm hi hf
    have arena : t.arena = s.arena.push (some s.nodes.size) := by rw [← ht, arena_register missing, arena_create]
    unfold slot? at slot ⊢
    split
    · rfl
    · next nonneg =>
      rw [if_neg nonneg] at slot
      have inside := (Array.getElem?_eq_some_iff.1 slot).1
      rw [arena, Array.getElem?_push_lt inside, Array.getElem?_eq_getElem inside]

theorem keeps_setAddress (nop : f Opcode.nop = false) (s : Sequence) (n : Nat) (a : Int) : Keeps f s (s.setAddress n a) := by
  refine (evolves_setAddress s n a).keeps nop (fun m y o hy ho => ?_) fun m i j _ hi hj _ => ?_
  · rw [item?_setAddress] at hy
    exact ⟨y, hy, ho⟩
  · rw [item?_setAddress, hi] at hj
    cases hj
    rfl

theorem Steady.adjust {gone : Sequence → Nat → Prop} (h : Steady f s) (nop : f Opcode.nop = false)
    (spare : ∀ s n, gone s n → Spare s n) (step : Adjust gone s t) : Keeps f s t ∧ Steady f t := by
  cases step with
  | forget next linked hn _ =>
    have keeps := h.forget nop linked next (spare s _ hn)
    exact ⟨keeps, keeps.steady linked h⟩
  | pad linked =>
    have keeps := h.pad nop linked
    exact ⟨keeps, keeps.steady linked h⟩
  | move n a =>
    refine ⟨keeps_setAddress nop s n a, fun m i hm hi hf => ?_⟩
    rw [handle?_setAddress] at hm
    rw [item?_setAddress] at hi
    obtain ⟨o, slot, stays⟩ := h m i hm hi hf
    refine ⟨o, slot, fun k hk spare => stays k hk ?_⟩
    simpa only [Spare, IsPad, Unowned, item?_setAddress] using spare

theorem Steady.adjusts {gone : Sequence → Nat → Prop} (h : Steady f s) (nop : f Opcode.nop = false)
    (spare : ∀ s n, gone s n → Spare s n) (run : ReflTransGen (Adjust gone) s t) : Keeps f s t ∧ Steady f t := by
  induction run with
  | refl => exact ⟨.refl f s, h⟩
  | tail _ step ih =>
    obtain ⟨keeps, steady⟩ := ih
    obtain ⟨keeps', steady'⟩ := steady.adjust nop spare step
    exact ⟨keeps.trans keeps', steady'⟩

/-! ## Keeping the last switch -/

/-- In addition, the last switch that leads to a table is the same. -/
structure Retains (f : Opcode → Bool) (s t : Sequence) : Prop extends Keeps f s t where
  last : ∀ m, lastTo t.claims? m t.items.toList = lastTo s.claims? m s.items.toList

theorem Retains.refl (f : Opcode → Bool) (s : Sequence) : Retains f s s := ⟨.refl f s, fun _ => rfl⟩

theorem Retains.trans (hst : Retains f s t) (htu : Retains f t u) : Retains f s u :=
  ⟨hst.toKeeps.trans htu.toKeeps, fun m => (htu.last m).trans (hst.last m)⟩

/-- The last switch is the same if no switch changes its place. -/
theorem Keeps.retains (h : Keeps f s t) (refers : Refers f) (shaped : Holds Item.Shaped s) (shaped' : Holds Item.Shaped t)
    (linked : Linked t t.items.toList) (keep : Nat → Bool) (switches : ∀ n m, s.claims? n = some m → keep n = true)
    (order : t.items.toList.filter keep = s.items.toList.filter keep) : Retains f s t where
  toKeeps := h
  last m := by
    have here : lastTo t.claims? m t.items.toList = lastTo s.claims? m t.items.toList :=
      lastTo_congr fun n hn => by rw [h.claims? refers shaped shaped' ((linked.mem_iff n).1 hn)]
    rw [here, ← lastTo_filter fun n _ => switches n m, order, lastTo_filter fun n _ => switches n m]

theorem Claimed.of_retains (h : Claimed s) (retains : Retains f s t) (linked : Linked s s.items.toList)
    (linked' : Linked t t.items.toList) : Claimed t := by
  have back : ∀ {n}, n ∈ t.items.toList → (s.item? n).isSome → n ∈ s.items.toList ∧ t.handleOf n = s.handleOf n := by
    intro n hn there
    obtain ⟨k, hk⟩ := linked'.handle?_of_mem hn
    have before := retains.handles n k there hk
    exact ⟨(linked.mem_iff n).2 (by rw [before]; rfl), by rw [handleOf_of_handle? hk, handleOf_of_handle? before]⟩
  intro n hn y o hy ho
  obtain ⟨x, hx, ho⟩ := retains.owner? n y o hy ho
  rw [retains.last, h n (back hn (by rw [hx]; rfl)).1 x o hx ho]
  cases last : lastTo s.claims? n s.items.toList with
  | none => rfl
  | some w =>
    have claims := (mem_of_lastTo last).2
    obtain ⟨i, hi, -⟩ := claims?_eq_some.1 claims
    have there : w ∈ t.items.toList := (mem_of_lastTo ((retains.last n).trans last)).1
    exact (back there (by rw [hi]; rfl)).2.symm

/-! ## Relayouts -/

theorem Sound.shaped (sound : Sound (fun x => x.Shaped ∧ x.Sealed) s) : Sound Item.Shaped s :=
  ⟨sound.linked, fun n x hx => (sound.holds n x hx).1⟩

section Relayouts

variable (refers : Refers f) (sound : Sound (fun x => x.Shaped ∧ x.Sealed) s)
include refers sound

theorem Steady.layout (h : Steady f s) : Retains f s s.layout ∧ Steady f s.layout := by
  obtain ⟨u, adjusts, e⟩ := layout_adjusts sound.linked
  obtain ⟨keeps, -⟩ := h.adjusts refers.nop (fun _ _ => .inl) adjusts
  have keeps := keeps.congr (u := s.layout) (by rw [e]) (by rw [e])
  have stable := Item.stable_sealed
  have holds : Holds (fun x => x.Shaped ∧ x.Sealed) s.layout :=
    sound.linked.layout_evolves.holds stable.padding stable.relinked sound.holds
  have switches : ∀ n m, s.claims? n = some m → s.solid n = true := by
    intro n m claims
    obtain ⟨i, hi, switch, -⟩ := claims?_eq_some.1 claims
    have solid := upright_sealed i (sound.holds n _ hi) switch
    rw [Sequence.solid, hi]
    simpa [Item.isPadding] using solid
  exact ⟨keeps.retains refers (fun n x hx => (sound.holds n x hx).1) (fun n x hx => (holds n x hx).1) sound.linked.layout.1
    s.solid switches sound.linked.layout_order, keeps.steady sound.linked h⟩

/-- `claimTables` keeps the tables that were claimed, and drops the others. -/
theorem Steady.claimTables (h : Steady f s.claimed) : Retains f s.claimed s.claimTables ∧ Steady f s.claimTables := by
  have reowned := reowned_claimed s
  have linked : Linked s.claimed s.claimed.items.toList := by
    rw [reowned.items]
    exact reowned.linked sound.linked
  have stable := Item.stable_sealed
  obtain ⟨u, adjusts, e⟩ := claimTables_adjusts sound.linked
  obtain ⟨keeps, -⟩ := h.adjusts refers.nop (fun _ _ => .inr) adjusts
  have keeps := keeps.congr (u := s.claimTables) (by rw [e]) (by rw [e])
  have before := reowned.evolves.holds stable.padding stable.relinked sound.holds
  have after := sound.linked.claimTables_evolves.holds stable.padding stable.relinked sound.holds
  refine ⟨keeps.retains refers (fun n x hx => (before n x hx).1) (fun n x hx => (after n x hx).1) sound.linked.claimTables
    (fun n => !(decide (((s.claimed.node? n).bind fun x => x.item.owner?).getD 0 < 0) && s.owned.contains n))
    (fun n m claims => ?_) ?_, keeps.steady linked h⟩
  · obtain ⟨i, hi, -⟩ := claims?_eq_some.1 claims
    obtain ⟨y, hy, e⟩ := item?_eq_some.1 hi
    simp only [hy, Option.bind_some, e]
    rfl
  · rw [claimTables_eq, reowned.items]
    simp only [dropUnclaimed_items, List.nil_append, List.filter_filter, Bool.and_self]

theorem Steady.relink (h : Steady f s.claimed) : Retains f s.claimed s.relink ∧ Steady f s.relink := by
  obtain ⟨retains, steady⟩ := Steady.claimTables refers sound h
  have stable := Item.stable_sealed
  have claimed : Sound (fun x => x.Shaped ∧ x.Sealed) s.claimTables :=
    ⟨sound.linked.claimTables, sound.linked.claimTables_evolves.holds stable.padding stable.relinked sound.holds⟩
  obtain ⟨retains', steady⟩ := steady.layout refers claimed
  have whole := retains.trans retains'
  unfold Sequence.relink collectReferences
  generalize s.claimTables.layout = t at whole steady ⊢
  exact ⟨⟨whole.toKeeps.congr rfl rfl, whole.last⟩, steady⟩

end Relayouts

/-! ## Passes of a refresh -/

/-- The items are the same, or jumps of which one was widened to the other. -/
def Kindred (x y : Item) : Prop :=
  y.opcode = x.opcode ∨ x.isPayload = false ∧ x.opcode.is .payloadRef = false ∧ y.opcode.is .payloadRef = false

theorem Kindred.trans {x y z : Item} (hxy : Kindred x y) (hyz : Kindred y z) (payload : y.isPayload = x.isPayload) :
    Kindred x z := by
  rcases hxy with e | ⟨solid, before, after⟩
  · rcases hyz with e' | ⟨solid, before, after⟩
    · exact .inl (e'.trans e)
    · exact .inr ⟨payload ▸ solid, e ▸ before, after⟩
  · rcases hyz with e' | ⟨-, -, after'⟩
    · exact .inr ⟨solid, before, e' ▸ after⟩
    · exact .inr ⟨solid, before, after'⟩

theorem kindred_encodeBranch {g : Bool} (sound : Sound Item.Shaped s) (h : (encodeBranch n).Gives s g t) {x y : Item}
    (hx : s.item? m = some x) (hy : t.item? m = some y) : Kindred x y := by
  by_cases ne : n = m
  · subst ne
    rcases gives_encodeBranch h with ⟨-, rfl, -⟩ | ⟨i, _, _, hi, -, -, -, -, ⟨-, j, data, rfl⟩ | ⟨-, op, j, wider, made, rfl⟩⟩
    · rw [hx] at hy
      cases hy
      exact .inl rfl
    · rw [item?_modifyItem, if_pos rfl, hi] at hy
      rw [hi] at hx
      cases hx
      cases hy
      exact .inl (Instruction.retuned_setData data).opcode
    · rw [item?_modifyItem, if_pos rfl, hi] at hy
      rw [hi] at hx
      cases hx
      cases hy
      obtain ⟨before, after⟩ := Opcode.payloadRef_of_wider (sound.holds n _ hi).mem wider
      exact .inr ⟨rfl, before, by rw [Item.opcode, (Instruction.setOpcode_eq_ok made).1, after]⟩
  · rw [item?_encodeBranch h ne, hx] at hy
    cases hy
    exact .inl rfl

theorem Encodes.kindred {g : Bool} (h : Encodes ns s g t) (sound : Sound Item.Shaped s) {x y : Item} (hx : s.item? m = some x)
    (hy : t.item? m = some y) : Kindred x y := by
  induction h generalizing x with
  | nil =>
    rw [hx] at hy
    cases hy
    exact .inl rfl
  | @cons n ns s u v w g g' branch table rest ih =>
    obtain ⟨x₁, h₁, recoded₁⟩ := (recoded_encodeBranch branch).item? m x hx
    obtain ⟨x₂, h₂, recoded₂⟩ := (recoded_encodeTable table).item? m x₁ h₁
    have sound₁ := sound_encodeBranch Item.stable_shaped sound branch
    have first := kindred_encodeBranch sound branch hx h₁
    have second : Kindred x₁ x₂ := .inl (sameSize_encodeTable table h₁ h₂).2
    have rest := ih (sound_encodeTable Item.stable_shaped sound₁ table) h₂ hy
    exact (first.trans second recoded₁.isPayload).trans rest (recoded₂.isPayload.trans recoded₁.isPayload)

/-- Items are changed in place; what they refer to and the owners of tables stay. -/
structure Reworked (s t : Sequence) : Prop where
  items : t.items = s.items
  arena : t.arena = s.arena
  handle? : ∀ n, t.handle? n = s.handle? n
  item? : ∀ n x, s.item? n = some x → ∃ y, t.item? n = some y ∧ Kindred x y ∧ y.isPayload = x.isPayload ∧
    y.isPadding = x.isPadding ∧ y.owner? = x.owner? ∧ ∀ i j, x = .plain i → y = .plain j → j.target = i.target
  absent : ∀ n, s.item? n = none → t.item? n = none

namespace Reworked

theorem of_encodes {g : Bool} (sound : Sound Item.Shaped s) (h : Encodes ns s g t) : Reworked s t where
  items := h.recoded.items
  arena := h.recoded.arena
  handle? := h.recoded.handle?
  absent := h.recoded.absent
  item? n x hx := by
    obtain ⟨y, hy, recoded⟩ := h.recoded.item? n x hx
    refine ⟨y, hy, h.kindred sound hx hy, recoded.isPayload, recoded.isPadding, recoded.owner?, ?_⟩
    rintro i j rfl rfl
    exact (List.cons.inj recoded.references).1

theorem of_renewed (h : Renewed xs s t) : Reworked s t where
  items := by rw [h.eq]
  arena := by rw [h.eq]
  handle? := h.handle?
  absent n hn := by rw [h.others n (.inr hn), hn]
  item? n x hx := by
    by_cases hn : n ∈ xs
    · obtain ⟨y, hy, e⟩ := h.renewed n hn x hx
      obtain ⟨-, -, padding, payload, opcode, owner, plain⟩ := Item.gives_refresh e
      refine ⟨y, hy, .inl opcode, payload, padding, owner, ?_⟩
      rintro i j rfl rfl
      cases plain i rfl
      rfl
    · refine ⟨x, by rw [h.others n (.inl hn), hx], .inl rfl, rfl, rfl, rfl, ?_⟩
      rintro i j rfl e
      cases e
      rfl

variable (h : Reworked s t)
include h

theorem of_item? {y : Item} (hy : t.item? n = some y) : ∃ x, s.item? n = some x ∧ Kindred x y ∧ y.isPayload = x.isPayload ∧
    y.isPadding = x.isPadding ∧ y.owner? = x.owner? ∧ ∀ i j, x = .plain i → y = .plain j → j.target = i.target := by
  cases hx : s.item? n with
  | none =>
    rw [h.absent n hx] at hy
    cases hy
  | some x =>
    obtain ⟨y', hy', rest⟩ := h.item? n x hx
    rw [hy] at hy'
    cases hy'
    exact ⟨x, rfl, rest⟩

theorem keeps (refers : Refers f) (shaped : Holds Item.Shaped s) (shaped' : Holds Item.Shaped t) : Keeps f s t where
  persists n hn := by
    obtain ⟨x, hx⟩ := Option.isSome_iff_exists.1 hn
    obtain ⟨y, hy, -⟩ := h.item? n x hx
    rw [hy]
    rfl
  handles n k _ hk := by rwa [h.handle?] at hk
  forth n i _ hi hf := by
    obtain ⟨y, hy, kindred, payload, -, -, target⟩ := h.item? n _ hi
    cases y with
    | plain j =>
      refine ⟨j, hy, ?_, by rw [slot?_congr h.arena, target i j rfl rfl]⟩
      rcases kindred with e | ⟨-, before, -⟩
      · exact e
      · rw [show (Item.plain i).opcode = i.opcode from rfl, refers.payload _ (shaped n _ hi).mem hf] at before
        cases before
    | _ => cases payload
  back n j _ hj hf := by
    obtain ⟨x, hx, kindred, payload, -⟩ := h.of_item? hj
    cases x with
    | plain i =>
      refine ⟨i, hx, ?_⟩
      rcases kindred with e | ⟨-, -, after⟩
      · exact e.symm
      · rw [show (Item.plain j).opcode = j.opcode from rfl, refers.payload _ (shaped' n _ hj).mem hf] at after
        cases after
    | _ => cases payload
  payload n x hx hp := by
    obtain ⟨y, hy, kindred, payload, -⟩ := h.item? n x hx
    refine ⟨y, hy, payload.trans hp, ?_⟩
    rcases kindred with e | ⟨solid, -⟩
    · exact e
    · rw [hp] at solid
      cases solid
  padding n x y hx hy := by
    obtain ⟨y', hy', -, -, padding, -⟩ := h.item? n x hx
    rw [hy] at hy'
    cases hy'
    exact padding
  owner? n y o hy ho := by
    obtain ⟨x, hx, -, -, -, owner, -⟩ := h.of_item? hy
    exact ⟨x, hx, owner ▸ ho⟩

theorem retains (refers : Refers f) (sound : Sound Item.Shaped s) (sound' : Sound Item.Shaped t) : Retains f s t :=
  (h.keeps refers sound.holds sound'.holds).retains refers sound.holds sound'.holds sound'.linked (fun _ => true) (fun _ _ _ => rfl) (by rw [h.items])

end Reworked

theorem Steady.settle (refers : Refers f) {fuel : Nat} (h : Steady f s) (sound : Sound (fun x => x.Shaped ∧ x.Sealed) s)
    (run : (settle fuel).Gives s ⟨⟩ t) : Retains f s t := by
  have stable := Item.stable_sealed
  induction fuel generalizing s with
  | zero =>
    obtain ⟨-, rfl⟩ := Action.gives_pure.1 run
    exact .refl f s
  | succ fuel ih =>
    have step : ∀ {g : Bool} {u : Sequence}, Encodes s.items.toList s g u → Sound (fun x => x.Shaped ∧ x.Sealed) u ∧
        Retains f s u := by
      intro g u pass
      have after := pass.sound stable sound
      exact ⟨after, (Reworked.of_encodes sound.shaped pass).retains refers sound.shaped after.shaped⟩
    rcases gives_settle_succ.1 run with pass | ⟨u, pass, run⟩
    · exact (step pass).2
    · obtain ⟨grown, retains⟩ := step pass
      obtain ⟨retains', steady⟩ := (retains.toKeeps.steady sound.linked h).layout refers grown
      exact (retains.trans retains').trans (ih steady (grown.layout stable) run)

/-- A successful `refresh` keeps every reference that was steady when its tables were claimed. -/
theorem retains_refresh (refers : Refers f) (steady : Steady f s.claimed) (sound : Sound (fun x => x.Shaped ∧ x.Sealed) s)
    (run : refresh.Gives s ⟨⟩ t) : Retains f s.claimed t := by
  have stable := Item.stable_sealed
  obtain ⟨-, u, v, settled, loop, rfl⟩ := gives_refresh.1 run
  obtain ⟨retains, steady⟩ := Steady.relink refers sound steady
  have relinked := sound.relink stable
  obtain ⟨sound', -, -⟩ := leaves_settle_relink stable sound settled
  have retains' := steady.settle refers relinked settled
  have renewed := renewed_of_each loop sound'.linked.nodup
  have retains'' := (Reworked.of_renewed renewed).retains refers sound'.shaped (renewed.sound stable sound').shaped
  have whole := (retains.trans retains').trans retains''
  exact ⟨whole.toKeeps.congr rfl rfl, whole.last⟩

/-- If steady references were kept, every table is owned by the last switch that leads to it. -/
theorem claimed_of_retains (retains : Retains f s.claimed t) (sound : Sound (fun x => x.Shaped ∧ x.Sealed) s)
    (linked : Linked t t.items.toList) : Claimed t := by
  have reowned := reowned_claimed s
  refine (claimed_claimed s).of_retains retains ?_ linked
  rw [reowned.items]
  exact reowned.linked sound.linked

end Sequence

end Dalvik
