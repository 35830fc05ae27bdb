import Dalvik.Proofs.Sequence.Current
import Dalvik.Proofs.Sequence.Matched
import Dalvik.Proofs.Sequence.Removal
import Dalvik.Proofs.Sequence.Storing

/-!
# Coming to rest

The parts of `refresh` depend on each other: tables are claimed before a layout moves references,
and offsets are written before tables are sorted. Still nothing is left to do after it: the last
pass finds every item where a layout would put it, no table changes its owner as long as no switch
refers to padding, and what comes after the last pass moves nothing (`resting_of_steady`).

No item refers to a handle that is given out only later (`Issued`): new items refer to nothing,
`setTarget` takes the handle of an item, and references to what goes become references to what is
left. So no item refers to new padding. It follows that `refresh` leaves a `Resting` sequence if no
switch refers to padding before (`resting_refresh`).
-/

namespace Dalvik.Sequence

variable {s t : Sequence}

/-- Items that are changed in place leave padding where it is needed. -/
theorem Reworked.snug (h : Reworked s t) (address? : ∀ n, t.address? n = s.address? n)
    (laid : Laid t 0 t.items.toList t.units) (snug : Snug s) : Snug t where
  laid
  pads i n hn pad := by
    obtain ⟨y, hy, padding⟩ := pad
    obtain ⟨x, hx, -, -, same, -⟩ := h.of_item? hy
    rw [h.items] at hn ⊢
    obtain ⟨p, m, z, hp, odd, next, hz, payload⟩ := snug.pads i n hn ⟨x, hx, by rw [← same, padding]⟩
    obtain ⟨z', hz', -, same, -⟩ := h.item? m z hz
    exact ⟨p, m, z', by rw [address?, hp], odd, next, hz', by rw [same, payload]⟩

/-- A sequence is snug after `refresh`. -/
theorem snug_refresh (sound : Sound (fun x => x.Shaped ∧ x.Sealed) s) (run : refresh.Gives s ⟨⟩ t) : Snug t := by
  obtain ⟨w, u, v, soundW, snug, -, pass, renewed, rfl⟩ := last_pass_of_refresh sound run
  have written : Snug u := (Reworked.of_encodes soundW.shaped pass).snug pass.recoded.address? (pass.laid snug.laid) snug
  have laid : Laid v 0 v.items.toList v.units := by
    have items : v.items = u.items := by rw [renewed.eq]
    have units : v.units = u.units := by rw [renewed.eq]
    rw [items, units]
    exact renewed.laid written.laid
  exact ((Reworked.of_renewed renewed).snug renewed.address? laid written).congr rfl rfl fun _ => rfl

/-- A successful `refresh` leaves a `Resting` sequence, if no switch referred to anything that goes. -/
theorem resting_of_steady (sound : Sound (fun x => x.Shaped ∧ x.Sealed) s) (steady : Steady (fun o => o.is .switch) s.claimed)
    (run : refresh.Gives s ⟨⟩ t) : Resting t := by
  have after := (leaves_refresh Item.stable_sealed sound run).sound
  have size := (upToDate_refresh sound run).2.1
  exact {
    linked := after.linked
    depth := depth_refresh sound run
    snug := snug_refresh sound run
    claimed := claimed_of_retains (retains_refresh refers_switch steady sound run) sound after.linked
    shaped := fun n _ x hx => (after.holds n x hx).1
    written := fun n hn x hx => (written_refresh sound run hn hx).1
    payloads := fun n hn x hx => by
      obtain ⟨y, before⟩ := (written_refresh sound run hn hx).2
      exact Item.refresh_refresh before
    size := by
      rw [size, Option.map_map]
      congr 1
      funext cell
      exact cell.set_set _ }

end Dalvik.Sequence

namespace Dalvik

namespace Item

variable {x y : Item} {bound bound' : Nat}

/-- The item refers to no handle from `bound` on. -/
def Bounded (bound : Nat) (x : Item) : Prop := ∀ i, x = .plain i → i.target < bound

theorem Bounded.mono (h : x.Bounded bound) (le : bound ≤ bound') : x.Bounded bound' := fun i e =>
  Int.lt_of_lt_of_le (h i e) (Int.ofNat_le.2 le)

theorem bounded_of_target {i : Instruction} (h : i.target < bound) : (Item.plain i).Bounded bound := by
  rintro _ ⟨⟩
  exact h

theorem bounded_of_payload (payload : x.isPayload = true) : x.Bounded bound := by
  rintro i rfl
  cases payload

theorem bounded_of_none {i : Instruction} (h : i.target = .none) : (Item.plain i).Bounded bound :=
  bounded_of_target (by rw [h]; exact Int.lt_of_lt_of_le (by decide : Handle.none < 0) (Int.natCast_nonneg _))

theorem Bounded.retarget {source dest : Handle} (h : x.Bounded bound) (issued : dest < bound) :
    (x.retarget source dest).Bounded bound := by
  cases x with
  | plain i =>
    refine bounded_of_target ?_
    split
    · exact issued
    · exact h i rfl
  | _ => exact bounded_of_payload rfl

theorem Bounded.setOwner (h : x.Bounded bound) (o : Handle) : (x.setOwner o).Bounded bound := by
  cases x with
  | plain i => exact h
  | _ => exact bounded_of_payload rfl

theorem Bounded.setCases (h : x.Bounded bound) (cs : List Case) : (x.setCases cs).Bounded bound := by
  cases x with
  | plain i => exact h
  | _ => exact bounded_of_payload rfl

/-- An edit in place does not change what an item refers to. -/
theorem Edited.bounded (h : x.Edited y) (shaped : x.Shaped) (hx : x.Bounded bound) : y.Bounded bound := by
  cases h with
  | @operand i j h => exact bounded_of_target ((h.retuned shaped).target ▸ hx i rfl)
  | @opcode i j op _ mem h => exact bounded_of_target ((Instruction.setOpcode_eq_ok h).2.1 ▸ hx i rfl)
  | @cases x cs length => exact hx.setCases cs
  | _ => exact bounded_of_payload rfl

/-- New items refer to nothing. -/
theorem Made.bounded (h : x.Made) : x.Bounded bound := by
  induction h with
  | instruction mem h =>
    obtain ⟨-, rfl⟩ := new_eq_ok mem h
    exact bounded_of_none rfl
  | edit made h ih => exact h.bounded made.shaped ih
  | _ => exact bounded_of_payload rfl

end Item

namespace Sequence

open Relation (ReflTransGen)
open Assembly (Element Body)

variable {free : Instruction → Prop} {P : Item → Prop} {s t u : Sequence} {n m : Nat}

/-- No item refers to a handle that was not given out. -/
def Issued (s : Sequence) : Prop := Holds (Item.Bounded s.arena.size) s

theorem Issued.slot? (h : Issued s) {i : Instruction} (hi : s.item? n = some (.plain i)) : ∃ o, s.slot? i.target = some o := by
  unfold Sequence.slot?
  split
  · exact ⟨none, rfl⟩
  · next nonneg =>
    have below := h n _ hi i rfl
    exact ⟨_, Array.getElem?_eq_getElem ((Int.toNat_lt (Int.not_lt.1 nonneg)).2 below)⟩

theorem item?_new (size : Option Cell) (pool : Option Pool) (n : Nat) : ({ size, pool } : Sequence).item? n = none := by
  simp [item?, node?]

theorem issued_new (size : Option Cell) (pool : Option Pool) : Issued { size, pool } := by
  intro n x hx
  rw [item?_new] at hx
  cases hx

/-! ## Single changes -/

namespace Issued

theorem congr (h : Issued s) (item? : ∀ n, t.item? n = s.item? n) (arena : s.arena.size ≤ t.arena.size) : Issued t :=
  fun n x hx => (h n x (by rw [← item?, hx])).mono arena

theorem modifyItem (h : Issued s) {f : Item → Item} (hf : ∀ x, s.item? n = some x → (f x).Bounded s.arena.size) :
    Issued (s.modifyItem n f) := Holds.modifyItem h hf

theorem create (h : Issued s) {x : Item} (hx : x.Bounded s.arena.size) : Issued (s.create x).2 := Holds.create h hx

theorem register (h : Issued s) (n : Nat) : Issued (s.register n) := by
  refine h.congr (fun _ => item?_register) ?_
  unfold Sequence.register
  split
  · exact Nat.le_refl _
  · simp

theorem forget (h : Issued s) {next : Handle} (issued : next < s.arena.size) : Issued (s.forget n next) := by
  have size : (s.forget n next).arena.size = s.arena.size := by rw [arena_forget, Array.size_setIfInBounds]
  intro m y hy
  rw [size]
  rw [item?_forget] at hy
  split at hy
  · obtain ⟨x, hx, rfl⟩ := Option.map_eq_some_iff.1 hy
    exact (h m x hx).retarget issued
  · exact h m y hy

theorem reowned (h : Issued s) (reowned : Reowned s t) : Issued t := by
  intro n y hy
  rw [reowned.arena]
  rcases reowned.item? n with e | ⟨k, e⟩ <;> rw [e] at hy
  · exact h n y hy
  · obtain ⟨x, hx, rfl⟩ := Option.map_eq_some_iff.1 hy
    exact (h n x hx).setOwner k

theorem reworked (h : Issued s) (reworked : Reworked s t) : Issued t := by
  rintro n _ hy j rfl
  obtain ⟨x, hx, -, payload, -, -, target⟩ := reworked.of_item? hy
  cases x with
  | plain i =>
    rw [target i j rfl rfl, reworked.arena]
    exact h n _ hx i rfl
  | _ => cases payload

end Issued

theorem Adjust.issued {gone : Sequence → Nat → Prop} (step : Adjust gone s t) (h : Issued s) : Issued t := by
  cases step with
  | forget next linked hn issued => exact h.forget issued
  | pad linked => exact (h.create (Item.bounded_of_none rfl)).register _
  | move n a => exact h.congr (fun _ => item?_setAddress a) (Nat.le_refl _)

theorem issued_of_adjusts {gone : Sequence → Nat → Prop} (run : ReflTransGen (Adjust gone) s t) (h : Issued s) :
    Issued t := by
  induction run with
  | refl => exact h
  | tail _ step ih => exact step.issued ih

/-! ## Relayouts -/

namespace Issued

variable (h : Issued s) (linked : Linked s s.items.toList)
include h linked

theorem layout : Issued s.layout := by
  obtain ⟨t, adjusts, e⟩ := layout_adjusts linked
  rw [e]
  exact (issued_of_adjusts adjusts h).congr (fun _ => rfl) (Nat.le_refl _)

theorem claimTables : Issued s.claimTables := by
  obtain ⟨t, adjusts, e⟩ := claimTables_adjusts linked
  rw [e]
  exact (issued_of_adjusts adjusts (h.reowned (reowned_claimed s))).congr (fun _ => rfl) (Nat.le_refl _)

theorem relink : Issued s.relink := by
  have after := (h.claimTables linked).layout linked.claimTables
  unfold Sequence.relink collectReferences
  generalize s.claimTables.layout = t at after ⊢
  exact after.congr (fun _ => rfl) (Nat.le_refl _)

theorem changed : Issued s.changed := by
  unfold Sequence.changed
  split
  · exact h.relink linked
  · exact h

end Issued

/-! ## Edits -/

namespace Issued

section Edits

variable (h : Issued s) (linked : Linked s s.items.toList)
include h linked

theorem place {x : Node} (hx : s.node? n = some x) (detached : s.handle? n = none) {i : Nat} (hi : i ≤ s.items.size) :
    Issued (s.place i n) := by
  have joined : Issued { s.register n with items := (s.register n).items.insertIdxIfInBounds i n } :=
    (h.register n).congr (fun _ => rfl) (Nat.le_refl _)
  exact joined.changed (linked.placed hx detached hi)

theorem create_place {x : Item} (hx : x.Bounded s.arena.size) {i : Nat} (hi : i ≤ s.items.size) :
    Issued ((s.create x).2.place i s.nodes.size) := by
  exact (h.create hx).place (linked.create x) (node?_create_self s x) (handle?_create_self s x) (by rwa [items_create])

theorem removeAt {i : Int} (run : s.removeAt i = .ok (n, t)) : Issued t := by
  obtain ⟨as, bs, split, rfl⟩ := removeAt_eq_ok run
  have apart := linked.apart split
  have same : Issued { s with items := (as ++ bs).toArray } := h.congr (fun _ => rfl) (Nat.le_refl _)
  have cut : Issued (s.cut as n bs) := same.forget <| apart.next_lt bs.head? fun m hm =>
    List.mem_cons_of_mem _ (List.mem_append_right _ (List.mem_of_head? hm))
  exact cut.changed (linked.cut split)

theorem remove {found : Bool} (run : s.remove n = .ok (found, t)) : Issued t := by
  unfold Sequence.remove at run
  split at run
  · obtain ⟨⟨k, u⟩, removed, run⟩ := Action.except_bind_eq_ok.1 run
    cases run
    exact h.removeAt linked removed
  · cases run
    exact h

omit linked in
theorem replaced {old new i k : Nat} : Issued (s.replaced old new i k) :=
  h.congr (fun _ => item?_replaced) (by simp [Sequence.replaced])

theorem replace {old new : Nat} {x : Node} (hx : s.node? new = some x) (detached : s.handle? new = none)
    (run : s.replace old new = .ok t) : Issued t := by
  obtain ⟨i, k, hk, hi, rfl⟩ := replace_eq_ok run
  exact h.replaced.changed (linked.replaced hx detached hk hi)

/-- `setTarget` takes the handle of an item, or the end. -/
theorem setTarget {k : Handle} (run : s.setTarget n k = .ok t) : Issued t := by
  obtain ⟨x, -, -, known, rfl⟩ := setTarget_eq_ok run
  have issued : k < s.arena.size := by
    rcases known with rfl | known
    · exact linked.next_lt none (by simp)
    · obtain ⟨m, hm⟩ := Option.isSome_iff_exists.1 known
      rw [linked.eq_handleOf_of_named? hm]
      exact linked.handleOf_lt (linked.mem_of_named? hm)
  have set : Issued (s.modifyItem n fun _ => .plain { x with target := k }) :=
    h.modifyItem fun _ _ => Item.bounded_of_target issued
  exact set.changed (linked.modifyItem n _)

theorem closeBracket (run : s.closeBracket = .ok t) : Issued t := by
  obtain ⟨-, rfl⟩ := closeBracket_eq_ok run
  have same : Issued { s with depth := s.depth - 1 } := h.congr (fun _ => rfl) (Nat.le_refl _)
  exact same.changed (linked.congr (fun _ => rfl) rfl)

theorem swapTable {old : Nat} {table : Item} {op : Opcode} (payload : table.isPayload = true)
    (run : (swapTable old table op).Gives s ⟨⟩ t) : Issued t := by
  obtain ⟨i, k, u, hk, hi, run, close⟩ := gives_swapTable run
  obtain ⟨hx, detached⟩ := node?_swapping s table
  have live : (s.create table).2.openBracket.handle? old = some k := by
    change (s.create table).2.handle? old = _
    rw [handle?_create, hk]
  have opened : Linked (s.create table).2.openBracket (s.create table).2.openBracket.items.toList :=
    (linked.create table).congr (fun _ => rfl) rfl
  have swapped : Linked (s.swapped old i k table) (s.swapped old i k table).items.toList :=
    opened.replaced hx detached live hi
  have same : Issued (s.create table).2.openBracket :=
    (h.create (Item.bounded_of_payload payload)).congr (fun _ => rfl) (Nat.le_refl _)
  have issued : Issued (s.swapped old i k table) := same.replaced
  rcases gives_setSwitch run with rfl | ⟨n, x, y, -, item, made, rfl⟩
  · exact issued.closeBracket swapped close
  · have kept : (Item.plain y).Bounded (s.swapped old i k table).arena.size :=
      Item.bounded_of_target ((Instruction.setOpcode_eq_ok made).2.1 ▸ issued n _ item x rfl)
    exact (issued.modifyItem fun _ _ => kept).closeBracket (swapped.modifyItem n _) close

theorem toSparse (run : (toSparse n).Gives s ⟨⟩ t) : Issued t := by
  obtain ⟨p, op, -, -, run⟩ := gives_toSparse run
  exact h.swapTable linked rfl run

theorem toPacked (run : (toPacked n).Gives s ⟨⟩ t) : Issued t := by
  obtain ⟨table, p, sorted, op, -, -, -, run⟩ := gives_toPacked run
  have modified : Issued (s.modifyItem n fun _ => .sparse sorted) :=
    h.modifyItem fun _ _ => Item.bounded_of_payload rfl
  exact modified.swapTable (linked.modifyItem n _) rfl run

end Edits

/-! ## Refreshes -/

theorem settle {fuel : Nat} (h : Issued s) (sound : Sound Item.Shaped s) (run : (settle fuel).Gives s ⟨⟩ t) : Issued t := by
  induction fuel generalizing s with
  | zero =>
    obtain ⟨-, rfl⟩ := Action.gives_pure.1 run
    exact h
  | succ fuel ih =>
    rcases gives_settle_succ.1 run with pass | ⟨u, pass, run⟩
    · exact h.reworked (.of_encodes sound pass)
    · have grown := pass.sound Item.stable_shaped sound
      have written := h.reworked (.of_encodes sound pass)
      exact ih (written.layout grown.linked) (grown.layout Item.stable_shaped) run

theorem refresh (h : Issued s) (sound : Sound Item.Shaped s) (run : refresh.Gives s ⟨⟩ t) : Issued t := by
  obtain ⟨-, u, v, settled, loop, rfl⟩ := gives_refresh.1 run
  have relinked := sound.relink Item.stable_shaped
  obtain ⟨sound', -, -⟩ := leaves_settle_relink Item.stable_shaped sound settled
  have written := (h.relink sound.linked).settle relinked settled
  have renewed := renewed_of_each loop sound'.linked.nodup
  exact (written.reworked (.of_renewed renewed)).congr (fun _ => rfl) (Nat.le_refl _)

end Issued

/-! ## Assembly -/

/-- The labels known while elements are added have handles that were given out. -/
structure Lettered (s : Sequence) (p : Progress) : Prop where
  issued : Issued s
  labels : ∀ l ∈ p.labels, l.2 < s.arena.size

/-- Inside a bracket, `push` gives a new item the next handle. -/
theorem Issued.push (h : Issued s) (deep : s.depth ≠ 0) {x : Item} (hx : x.Bounded s.arena.size) {k : Handle}
    (run : (push x).Gives s k t) : Issued t ∧ k = s.arena.size ∧ t.arena.size = s.arena.size + 1 := by
  obtain ⟨rfl, rfl⟩ := of_push deep run
  have made := (h.create hx).register s.nodes.size
  have arena := arena_register (handle?_create_self s x)
  rw [arena_create] at arena
  exact ⟨made.congr (fun _ => rfl) (Nat.le_refl _), rfl, by simp only [arena, Array.size_push]⟩

theorem Lettered.addElement {body : Body} {p q : Progress} {e : Element} (h : Lettered s p) (deep : s.depth ≠ 0)
    (known : ∀ i, e = .instruction i → i.opcode ∈ Opcode.all) (step : (addElement body p e).Gives s q t) : Lettered t q := by
  unfold Sequence.addElement at step
  split at step
  · split at step
    · simp at step
    · obtain ⟨rfl, rfl⟩ := Action.gives_pure.1 step
      exact ⟨h.issued, h.labels⟩
  · obtain ⟨item, v, made, step⟩ := Action.gives_bind.1 step
    obtain ⟨⟨pool, rfl⟩, each⟩ := gives_assembleElement known made
    have same : Issued { s with pool } := h.issued.congr (fun _ => rfl) (Nat.le_refl _)
    split at step
    · obtain ⟨rfl, rfl⟩ := Action.gives_pure.1 step
      exact ⟨same, h.labels⟩
    · next x =>
      simp only [Action.gives_bind, Action.gives_get, Action.gives_pure] at step
      obtain ⟨_, _, ⟨rfl, rfl⟩, k, w, placed, rfl, rfl⟩ := step
      obtain ⟨issued, rfl, size⟩ := same.push deep (each x rfl).bounded placed
      have next : ((s.arena.size : Nat) : Int) < w.arena.size := Int.ofNat_lt.2 (by rw [size]; exact Nat.lt_succ_self _)
      refine ⟨issued, fun l hl => ?_⟩
      rcases List.mem_append.1 hl with hl | hl
      · obtain ⟨name, -, rfl⟩ := List.mem_map.1 hl
        exact next
      · exact Int.lt_trans (h.labels l hl) next

/-- `resolveElement` gives an item handles that were given out. -/
theorem Issued.resolveElement {labels : List (Bytes × Handle)} {e : Element} (h : Issued s)
    (issued : ∀ l ∈ labels, l.2 < s.arena.size) (step : (resolveElement labels n e).Gives s ⟨⟩ t) :
    Issued t ∧ t.arena = s.arena := by
  have table : ∀ cases, Issued (s.modifyItem n (Item.setCases cases)) := fun cases =>
    h.modifyItem fun x hx => (h n x hx).setCases cases
  unfold Sequence.resolveElement at step
  simp only at step
  split at step
  · next e =>
    split at step
    · obtain ⟨-, rfl⟩ := Action.gives_pure.1 step
      exact ⟨h, rfl⟩
    · simp only [Action.gives_bind, Action.gives_lift, Action.gives_modify] at step
      obtain ⟨k, _, ⟨found, rfl⟩, rfl⟩ := step
      have below : k < s.arena.size := by
        unfold findLabel at found
        split at found
        · next k' here =>
          cases found
          exact issued _ (List.mem_of_find?_eq_some here)
        · cases found
      refine ⟨h.modifyItem fun x hx => ?_, rfl⟩
      cases x with
      | plain i => exact Item.bounded_of_target below
      | _ => exact Item.bounded_of_payload rfl
  · simp only [Action.gives_bind, Action.gives_get, Action.gives_set, Action.gives_lift] at step
    obtain ⟨_, _, ⟨rfl, rfl⟩, _, _, rfl, -, rfl⟩ := step
    exact ⟨table _, rfl⟩
  · simp only [Action.gives_bind, Action.gives_get, Action.gives_set, Action.gives_lift] at step
    obtain ⟨_, _, ⟨rfl, rfl⟩, _, _, rfl, -, rfl⟩ := step
    exact ⟨table _, rfl⟩
  · obtain ⟨-, rfl⟩ := Action.gives_pure.1 step
    exact ⟨h, rfl⟩

theorem Lettered.foldlM {body : Body} {es : List Element} {p q : Progress} (h : Lettered t p)
    (building : Building Item.Shaped s t) (known : ∀ i, Element.instruction i ∈ es → i.opcode ∈ Opcode.all)
    (run : (es.foldlM (Sequence.addElement body) p).Gives t q u) : Lettered u q := by
  induction es generalizing t p with
  | nil =>
    rw [List.foldlM_nil] at run
    obtain ⟨rfl, rfl⟩ := Action.gives_pure.1 run
    exact h
  | cons e es ih =>
    rw [List.foldlM_cons] at run
    obtain ⟨r, v, step, run⟩ := Action.gives_bind.1 run
    have here : ∀ i, e = .instruction i → i.opcode ∈ Opcode.all := fun i e => known i (e ▸ List.mem_cons_self)
    exact ih (h.addElement building.deep here step) (building.addElement Item.stable_shaped here step)
      (fun i hi => known i (List.mem_cons_of_mem _ hi)) run

theorem Issued.addElements {body : Body} {labels : List (Bytes × Handle)} (h : Issued s) (sound : Sound Item.Shaped s)
    (known : Known body) (run : (addElements body).Gives s labels t) : Issued t := by
  unfold Sequence.addElements at run
  obtain ⟨u, build, close⟩ := gives_bracketed.1 run
  have opened : Building Item.Shaped s s.openBracket :=
    ⟨sound.congr rfl rfl rfl, Nat.succ_ne_zero _, .of_arena_eq rfl⟩
  have start : Lettered s.openBracket {} := ⟨h.congr (fun _ => rfl) (Nat.le_refl _), by simp⟩
  obtain ⟨p, v, added, build⟩ := Action.gives_bind.1 build
  have lettered := start.foldlM opened known added
  have building := opened.foldlM Item.stable_shaped known added
  simp only [Action.gives_bind, Action.gives_pure] at build
  obtain ⟨_, w, loop, -, rfl⟩ := build
  have all : ∀ l ∈ p.pending.map (·, Handle.finish) ++ p.labels, l.2 < v.arena.size := by
    intro l hl
    rcases List.mem_append.1 hl with hl | hl
    · obtain ⟨name, -, rfl⟩ := List.mem_map.1 hl
      exact building.sound.linked.next_lt none (by simp)
    · exact lettered.labels l hl
  have each := Action.gives_forIn.1 loop
  have resolved : Building Item.Shaped s w ∧ Issued w ∧ w.arena = v.arena := by
    refine each.keeps (P := fun w => Building Item.Shaped s w ∧ Issued w ∧ w.arena = v.arena)
      (fun x _ a b step here => ?_) ⟨building, lettered.issued, rfl⟩
    obtain ⟨building, issued, arena⟩ := here
    obtain ⟨issued', arena'⟩ := issued.resolveElement (fun l hl => by rw [arena]; exact all l hl) step
    exact ⟨building.resolveElement Item.stable_shaped step, issued', arena'.trans arena⟩
  exact resolved.2.1.closeBracket resolved.1.sound.linked close

/-! ## Readings -/

theorem Issued.enrolAll {a : Nat} {xs : List Item} (h : Issued s) (raw : ∀ x ∈ xs, x.Raw) : Issued (s.enrolAll a xs) := by
  induction xs generalizing s a with
  | nil => exact h
  | cons x xs ih =>
    have hx : x.Bounded s.arena.size := by
      rintro i rfl
      exact Item.bounded_of_none (raw _ List.mem_cons_self).target i rfl
    have made := (h.create hx).register s.nodes.size
    have enrolled : Issued (s.enrol x a) := made.congr (fun _ => item?_setAddress _) (Nat.le_refl _)
    exact ih enrolled fun y hy => raw y (List.mem_cons_of_mem _ hy)

theorem Issued.adopt {x : Item} {bound : Nat} (hx : x.Bounded bound) (o : Option Nat) : (s.adopt o x).Bounded bound := by
  cases o with
  | none => exact hx
  | some m => exact hx.setOwner _

/-- Linking gives branches the handles of items. -/
theorem Issued.wiredAll (h : Issued s) (linked : Linked s s.items.toList) (ns : List Nat) : Issued (ns.foldl wired s) := by
  intro n y hy
  rw [(relinked_wiredAll s ns).arena]
  rw [item?_wiredAll] at hy
  obtain ⟨x, hx, rfl⟩ := Option.map_eq_some_iff.1 hy
  refine Issued.adopt ?_ _
  split
  · cases x with
    | plain i =>
      refine Item.bounded_of_target ?_
      cases lead : s.lead? n with
      | none => exact h n _ hx i rfl
      | some m =>
        obtain ⟨_, _, _, _, _, _, _, there⟩ := lead?_eq_some.1 lead
        exact linked.handleOf_lt (mem_of_nodeByAddress? there)
    | _ => exact Item.bounded_of_payload rfl
  · exact h n x hx

theorem Issued.tabled {ns : List Nat} (h : Issued s) (tabled : Tabled ns s t) : Issued t := by
  intro n y hy
  rw [tabled.relinked.arena]
  by_cases mem : n ∈ ns
  · obtain ⟨x, hx, -⟩ := tabled.relinked.item?_unlinked hy
    obtain ⟨y', hy', resolved⟩ := tabled.resolved n mem x hx
    rw [hy] at hy'
    cases hy'
    cases resolved with
    | unowned => exact h n _ hx
    | owned => exact (h n _ hx).setCases _
  · rw [tabled.others n mem] at hy
    exact h n y hy

theorem Issued.markPadding (h : Issued s) : Issued s.markPadding := by
  have marked := marked_markPadding s
  have arena : s.markPadding.arena = s.arena := by rw [marked.eq]
  intro n y hy
  rw [arena]
  by_cases pad : Pads s n
  · rw [marked.marked n pad] at hy
    obtain ⟨x, hx, rfl⟩ := Option.map_eq_some_iff.1 hy
    cases x with
    | plain i => exact Item.bounded_of_target (h n _ hx i rfl)
    | _ => exact Item.bounded_of_payload rfl
  · rw [marked.others n pad] at hy
    exact h n y hy

/-- A sequence that is decoded into an empty one is `Issued`. -/
theorem issued_decode {c c' : Cursor} (empty : ∀ n, s.item? n = none) (run : (decode c).Gives s c' t) : Issued t := by
  obtain ⟨cell, xs, u, v, -, scan, -, branches, tables, rfl⟩ := gives_decode.1 run
  have holds : Holds Item.Shaped s := fun n x hx => by
    rw [empty] at hx
    cases hx
  have missing : Issued s.clear := fun n x hx => by
    have absent : s.clear.item? n = s.item? n := by
      simp only [item?, node?, clear, Array.getElem?_map]
      cases s.nodes[n]? <;> rfl
    rw [absent, empty] at hx
    cases hx
  have sound := sound_scanned (s := s) (fun x hx => Item.shaped_of_raw (scan.raw x hx)) holds
  have scanned : Issued (s.scanned xs) := (missing.enrolAll scan.raw).congr (fun _ => rfl) (Nat.le_refl _)
  obtain ⟨-, rfl⟩ := (each_linkBranch sound.linked).1 branches
  have wired := (relinked_wiredAll (s.scanned xs) (s.scanned xs).items.toList).sound Item.stable_shaped sound
  have tabled := tabled_of_each wired.linked.nodup (fun n hn => wired.linked.item?_of_mem hn) tables
  have read := (((scanned.wiredAll sound.linked _).tabled tabled)).markPadding
  exact read.relink (sound_linked Item.stable_shaped holds scan.raw branches tables).linked

/-! ## Steps -/

theorem Step.issued (step : Step free s t) (sound : Sound Item.Shaped s) (h : Issued s) : Issued t := by
  have linked := sound.linked
  cases step with
  | outside size pool moves => exact h.congr (fun _ => rfl) (Nat.le_refl _)
  | create made => exact h.create made.bounded
  | insert present run =>
    obtain ⟨x, hx⟩ := Option.isSome_iff_exists.1 present
    obtain ⟨detached, low, high, rfl⟩ := insert_eq_ok run
    exact h.place linked hx detached (by omega)
  | insertItem made run =>
    obtain ⟨low, high, rfl⟩ := gives_insertItem run
    exact h.create_place linked made.bounded (by omega)
  | push made run =>
    obtain ⟨rfl, rfl⟩ := Prod.mk.inj (Action.gives_modifyGet.1 run : s.append _ = _)
    exact h.create_place linked made.bounded (Nat.le_refl _)
  | removeAt run => exact h.removeAt linked run
  | remove run => exact h.remove linked run
  | replace present detached run =>
    obtain ⟨x, hx⟩ := Option.isSome_iff_exists.1 present
    exact h.replace linked hx detached run
  | setTarget run => exact h.setTarget linked run
  | openBracket => exact h.congr (fun _ => rfl) (Nat.le_refl _)
  | closeBracket run => exact h.closeBracket linked run
  | toSparse _ run => exact h.toSparse linked run
  | toPacked _ run => exact h.toPacked linked run
  | addElements known run => exact h.addElements sound known run
  | refresh run => exact h.refresh sound run

/-- One successful `Step`, or an edit of an item in place. A `Step` replaces an instruction only by one that is not in
the sequence. -/
inductive Change : Sequence → Sequence → Prop where
  | step {s t : Sequence} (step : Step (fun x => x.isPadding = false) s t) : Change s t
  | edit {s : Sequence} {n : Nat} {x y : Item} (hx : s.item? n = some x) (h : x.Edited y) (pool : Option Pool) :
      Change s { s.modifyItem n (fun _ => y) with pool }

theorem Change.worked (change : Change s t) (h : Worked s) : Worked t := by
  cases change with
  | step step => exact h.step step
  | edit hx edited pool => exact h.edit hx edited pool

theorem Change.issued (change : Change s t) (sound : Sound Item.Shaped s) (h : Issued s) : Issued t := by
  cases change with
  | step step => exact step.issued sound h
  | @edit n x y hx edited pool =>
    have bounded : y.Bounded s.arena.size := edited.bounded (sound.holds n x hx) (h n x hx)
    have modified : Issued (s.modifyItem n fun _ => y) := h.modifyItem fun _ _ => bounded
    exact modified.congr (fun _ => rfl) (Nat.le_refl _)

/-! ## A refresh comes to rest -/

/-- No switch refers to padding. -/
def SolidTargets (s : Sequence) : Prop :=
  ∀ n ∈ s.items.toList, ∀ i, s.item? n = some (.plain i) → i.opcode.is .switch = true →
    ∀ m, s.named? i.target = some m → ¬ IsPad s m

instance : Decidable (SolidTargets s) :=
  decidable_of_iff (∀ n ∈ s.items.toList, ∀ i ∈ (s.item? n).bind Item.instruction?, i.opcode.is .switch = true →
      ∀ m ∈ s.named? i.target, ∀ x ∈ s.item? m, x.isPadding = false) <| by
    constructor
    · rintro each n hn i hi switch m hm ⟨x, hx, padding⟩
      have solid := each n hn i (by rw [hi]; rfl) switch m hm x hx
      rw [padding] at solid
      cases solid
    · intro solid n hn i hi switch m hm x hx
      obtain ⟨y, hy, hi⟩ := Option.bind_eq_some_iff.1 hi
      cases y with
      | plain j =>
        cases hi
        exact Bool.eq_false_iff.2 fun padding => solid n hn i hy switch m hm ⟨x, hx, padding⟩
      | _ => cases hi

/-- A successful `refresh` of an `Issued` sequence leaves a `Resting` one, if no switch refers to padding before. -/
theorem Issued.resting_refresh (h : Issued s) (sound : Sound (fun x => x.Shaped ∧ x.Sealed) s) (solid : SolidTargets s)
    (run : Sequence.refresh.Gives s ⟨⟩ t) : Resting t := by
  refine resting_of_steady sound (steady_claimed sound.linked fun n hn i hi switch => ?_) run
  obtain ⟨o, slot⟩ := h.slot? hi
  refine ⟨o, slot, fun m hm => ⟨solid n hn i hi switch m ?_, fun _ _ _ => switch⟩⟩
  rw [named?_eq_slot?, slot, Option.mem_def.1 hm]
  rfl

end Sequence

end Dalvik
