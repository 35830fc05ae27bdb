import Dalvik.Proofs.Sequence.Labelling
import Dalvik.Proofs.Sequence.Tables

/-!
# What labels stand for

The handle of a label in a body is that of the end or of an item that is not padding (`Landmark`).
`relink` and `refresh` keep such an item in the sequence under its handle, and only handles that
were taken away are moved (`Spent`). So a refresh after `addElements` moves no label
(`follow_of_addElements`).
-/

namespace Dalvik

theorem Item.Made.unowned {x : Item} (h : x.Made) : ∀ o, x.owner? = some o → o < 0 := by
  induction h with
  | edit _ h ih =>
    rw [h.owner?_isPayload.1]
    exact ih
  | packed | sparse =>
    rintro _ ⟨⟩
    decide
  | _ => exact nofun

theorem Handle.follow_eq_self {moves : List (Handle × Handle)} {h : Handle} (other : ∀ m ∈ moves, m.1 ≠ h) :
    Handle.follow moves h = h := by
  induction moves with
  | nil => rfl
  | cons m moves ih =>
    have ne : h ≠ m.1 := (other m List.mem_cons_self).symm
    have rest := ih fun k hk => other k (List.mem_cons_of_mem _ hk)
    rw [Handle.follow] at rest ⊢
    rw [List.foldl_cons, if_neg ne, rest]

namespace Sequence

open Relation (ReflTransGen)
open Assembly (Body Element)

variable {free : Instruction → Prop} {P : Item → Prop} {s t u : Sequence} {n : Nat} {h k : Handle} {body : Body}
  {labels : List (Bytes × Handle)}

/-! ## Moves -/

/-- Every recorded move is from a handle that was taken away. -/
def Spent (s : Sequence) : Prop := ∀ m ∈ s.moves.toList, Retired s m.1

namespace Spent

theorem mono (spent : Spent s) (moves : t.moves = s.moves) (buried : Buried s t) : Spent t :=
  fun m hm => (spent m (moves ▸ hm)).mono buried

theorem adjust {gone : Sequence → Nat → Prop} (spent : Spent s) (step : Adjust gone s t) : Spent t := by
  cases step with
  | forget next linked _ _ =>
    intro m hm
    rw [moves_forget, Array.toList_push, List.mem_append, List.mem_singleton] at hm
    rcases hm with hm | rfl
    · exact (spent m hm).mono (buried_forget next)
    · exact linked.retired_forget next
  | pad linked => exact spent.mono (by rw [moves_register, moves_create]) (evolves_pad _).buried
  | move n a => exact spent.mono rfl (.of_arena_eq rfl)

theorem adjusts {gone : Sequence → Nat → Prop} (spent : Spent s) (steps : ReflTransGen (Adjust gone) s t) : Spent t := by
  induction steps with
  | refl => exact spent
  | tail _ step ih => exact ih.adjust step

theorem layout (spent : Spent s) (filed : Filed s) : Spent s.layout := by
  obtain ⟨t, steps, e⟩ := layout_adjusts filed
  rw [e]
  exact (spent.adjusts steps).mono rfl (.of_arena_eq rfl)

theorem collectReferences (spent : Spent s) : Spent s.collectReferences := spent

theorem relink (spent : Spent s) (filed : Filed s) : Spent s.relink := by
  obtain ⟨t, steps, e⟩ := claimTables_adjusts filed
  have claimed : Spent s.claimed := by
    rw [(reowned_claimed s).eq]
    exact spent.mono rfl (.of_arena_eq rfl)
  have tables : Spent s.claimTables := by
    rw [e]
    exact (claimed.adjusts steps).mono rfl (.of_arena_eq rfl)
  exact (tables.layout (Linked.claimTables filed)).collectReferences

theorem refresh (spent : Spent s) (filed : Filed s) (run : refresh.Gives s ⟨⟩ t) : Spent t := by
  obtain ⟨-, u, v, settled, loop, rfl⟩ := gives_refresh.1 run
  have passes : Action.Upholds (fun u => Filed u ∧ Spent u) (settle (2 * s.relink.items.size + 1)) := by
    refine upholds_settle (fun u v step hu => ?_) (fun u hu => ?_) _
    · refine ⟨(hu.1.sound.recode Item.lasting_true step).linked, ?_⟩
      cases step <;> exact hu.2
    · exact ⟨(hu.1.sound.laidOut Item.lasting_true).linked, hu.2.layout hu.1⟩
  obtain ⟨filed, spent⟩ := passes.gives ⟨(Linked.relink filed).1, spent.relink filed⟩ settled
  have renewed := renewed_of_each loop filed.nodup
  have moves : v.moves = u.moves := by rw [renewed.eq]
  have arena : v.arena = u.arena := by rw [renewed.eq]
  exact spent.mono moves (.of_arena_eq arena)

end Spent

/-! ## What stays -/

/-- The handle is that of the end or of an item that is not padding. -/
def Landmark (s : Sequence) (h : Handle) : Prop := h = .finish ∨ ∃ n, s.named? h = some n ∧ s.solid n = true

/-- The recorded moves do not move the handle of an item or of the end. -/
theorem Spent.follow_eq (spent : Spent s) (there : h = .finish ∨ ∃ n, s.named? h = some n) : Handle.follow s.moves.toList h = h := by
  refine Handle.follow_eq_self fun m hm e => ?_
  have retired := spent m hm
  rw [e] at retired
  rcases there with rfl | ⟨n, named⟩
  · exact absurd retired.1 (by decide)
  · rw [retired.named?_eq_none] at named
    cases named

/-- `relink` keeps the handle of an item that is not padding, if it keeps the item. -/
theorem Linked.landmark_relink (linked : Linked s s.items.toList) (named : s.named? h = some n) (solid : s.solid n = true)
    (left : n ∈ s.relink.items.toList) : Landmark s.relink h := by
  have evolves := linked.relink_evolves
  obtain ⟨x, hx⟩ := linked.item?_of_mem (linked.mem_of_named? named)
  obtain ⟨y, hy, e⟩ := evolves.kept n x hx
  refine .inr ⟨n, evolves.toCarries.named? linked linked.relink.1 named left, ?_⟩
  rw [Sequence.solid, hx, Option.any_some, ← x.unlinked_isPadding] at solid
  rw [Sequence.solid, hy, Option.any_some, ← y.unlinked_isPadding, e, solid]

/-- If tables are owned by switches that lead to them, `relink` keeps every landmark. -/
theorem Led.landmark_relink (led : Led s) (linked : Linked s s.items.toList) (landmark : Landmark s h) : Landmark s.relink h := by
  rcases landmark with rfl | ⟨n, named, solid⟩
  · exact .inl rfl
  · have mem := linked.mem_of_named? named
    obtain ⟨x, hx⟩ := linked.item?_of_mem mem
    refine linked.landmark_relink named solid (by_contra fun gone => ?_)
    rw [Sequence.solid, hx, Option.any_some, Bool.not_eq_true'] at solid
    obtain ⟨o, ho, nonneg, unclaimed⟩ := linked.owner?_of_dropped hx solid mem gone
    obtain ⟨k, y, hk, hy, -, switch, target⟩ := led n x o ((linked.mem_iff n).1 mem) hx ho nonneg
    exact unclaimed k (linked.mem_of_named? hk) (claims?_eq_some.2 ⟨y, hy, switch, target⟩)

/-- So does a successful `refresh`. -/
theorem Led.landmark_refresh (led : Led s) (sound : Sound Item.Shaped s) (landmark : Landmark s h) (run : refresh.Gives s ⟨⟩ t) :
    h = .finish ∨ ∃ n, t.named? h = some n := by
  rcases led.landmark_relink sound.linked landmark with rfl | ⟨n, named, solid⟩
  · exact .inl rfl
  · exact .inr ⟨n, named?_refresh sound run named solid⟩

/-! ## Assembly -/

/-- While a body is assembled: the handle of an item that is not padding and has no owner. -/
def Unclaimed (s : Sequence) (h : Handle) : Prop :=
  ∃ n x, s.named? h = some n ∧ s.item? n = some x ∧ x.isPadding = false ∧ ∀ o, x.owner? = some o → o < 0

namespace Unclaimed

theorem congr (h : Unclaimed s k) (arena : t.arena = s.arena) (item? : ∀ n, t.item? n = s.item? n) : Unclaimed t k := by
  unfold Unclaimed named? at h ⊢
  simp only [arena, item?]
  exact h

theorem modifyItem (h : Unclaimed s k) {f : Item → Item}
    (hf : ∀ x, (f x).isPadding = x.isPadding ∧ (f x).owner? = x.owner?) : Unclaimed (s.modifyItem n f) k := by
  obtain ⟨m, x, named, hx, solid, unowned⟩ := h
  by_cases e : n = m
  · refine ⟨m, f x, named, by rw [item?_modifyItem, if_pos e, hx, Option.map_some], ?_, ?_⟩
    · rw [(hf x).1, solid]
    · rw [(hf x).2]
      exact unowned
  · exact ⟨m, x, named, by rw [item?_modifyItem, if_neg e, hx], solid, unowned⟩

/-- The item is a landmark when the bracket is closed. -/
theorem landmark (h : Unclaimed s k) (linked : Linked s s.items.toList) : Landmark s.relink k := by
  obtain ⟨n, x, named, hx, solid, unowned⟩ := h
  refine linked.landmark_relink named ?_ (linked.mem_relink_of_unowned hx solid unowned (linked.mem_of_named? named))
  rw [Sequence.solid, hx, Option.any_some, solid, Bool.not_false]

end Unclaimed

/-- Inside a bracket, `push` gives a new item the next handle, and changes no other. -/
theorem unclaimed_push (deep : s.depth ≠ 0) {x : Item} (made : x.Made) (run : (push x).Gives s k t) :
    Unclaimed t k ∧ ∀ j, Unclaimed s j → Unclaimed t j := by
  obtain ⟨rfl, last⟩ := of_push deep run
  have arena : t.arena = s.arena.push (some s.nodes.size) := by
    rw [last]
    exact arena_register (handle?_create_self s x)
  have item? : ∀ n, t.item? n = if n = s.nodes.size then some x else s.item? n := by
    intro n
    rw [last]
    change ((s.create x).2.register s.nodes.size).item? n = _
    rw [item?_register, item?_create]
  refine ⟨⟨s.nodes.size, x, ?_, by rw [item?, if_pos rfl], made.isPadding, made.unowned⟩, ?_⟩
  · rw [named?, if_neg (Int.not_lt.2 (Int.natCast_nonneg _)), arena, Int.toNat_natCast, Array.getElem?_push_size]
    rfl
  · rintro j ⟨m, y, named, hy, solid, unowned⟩
    have ne : m ≠ s.nodes.size := by
      rintro rfl
      rw [Sequence.item?, node?_size] at hy
      cases hy
    refine ⟨m, y, ?_, by rw [item?, if_neg ne, hy], solid, unowned⟩
    unfold Sequence.named? at named ⊢
    split at named
    · cases named
    · next nonneg =>
      have inside : s.arena[j.toNat]? = some (some m) := Option.join_eq_some_iff.1 named
      obtain ⟨lt, -⟩ := Array.getElem?_eq_some_iff.1 inside
      rw [if_neg nonneg, arena, Array.getElem?_push_lt lt, ← Array.getElem?_eq_getElem lt, inside]
      rfl

theorem unclaimed_addElement {p q : Progress} {e : Element} (unclaimed : ∀ l ∈ p.labels, Unclaimed s l.2) (deep : s.depth ≠ 0)
    (known : ∀ i, e = .instruction i → i.opcode ∈ Opcode.all) (step : (addElement body p e).Gives s q t) :
    ∀ l ∈ q.labels, Unclaimed t l.2 := by
  unfold addElement at step
  split at step
  · split at step
    · simp at step
    · obtain ⟨rfl, rfl⟩ := Action.gives_pure.1 step
      exact unclaimed
  · obtain ⟨item, v, made, step⟩ := Action.gives_bind.1 step
    obtain ⟨⟨pool, rfl⟩, each⟩ := gives_assembleElement known made
    have same : ∀ l ∈ p.labels, Unclaimed { s with pool } l.2 := fun l hl => (unclaimed l hl).congr rfl fun _ => rfl
    split at step
    · obtain ⟨rfl, rfl⟩ := Action.gives_pure.1 step
      exact same
    · next x =>
      simp only [Action.gives_bind, Action.gives_get, Action.gives_pure] at step
      obtain ⟨_, _, ⟨rfl, rfl⟩, k, w, placed, rfl, rfl⟩ := step
      obtain ⟨new, old⟩ := unclaimed_push (show ({ s with pool } : Sequence).depth ≠ 0 from deep) (each x rfl) placed
      intro l hl
      rcases List.mem_append.1 hl with hl | hl
      · obtain ⟨name, -, rfl⟩ := List.mem_map.1 hl
        exact new
      · exact old l.2 (same l hl)

theorem unclaimed_foldlM (stable : Item.Stable free P) {es : List Element} {p q : Progress}
    (unclaimed : ∀ l ∈ p.labels, Unclaimed t l.2) (building : Building P s t)
    (known : ∀ i, Element.instruction i ∈ es → i.opcode ∈ Opcode.all)
    (run : (es.foldlM (addElement body) p).Gives t q u) : ∀ l ∈ q.labels, Unclaimed u l.2 := by
  induction es generalizing t p with
  | nil =>
    rw [List.foldlM_nil] at run
    obtain ⟨rfl, rfl⟩ := Action.gives_pure.1 run
    exact unclaimed
  | cons e es ih =>
    rw [List.foldlM_cons] at run
    obtain ⟨r, v, step, run⟩ := Action.gives_bind.1 run
    have here : ∀ i, e = .instruction i → i.opcode ∈ Opcode.all := fun i e => known i (e ▸ List.mem_cons_self)
    exact ih (unclaimed_addElement unclaimed building.deep here step) (building.addElement stable here step)
      (fun i hi => known i (List.mem_cons_of_mem _ hi)) run

/-- `resolveElement` marks nothing as padding and gives no table an owner. -/
theorem unclaimed_resolveElement {e : Element} (h : Unclaimed s k) (step : (resolveElement labels n e).Gives s ⟨⟩ t) :
    Unclaimed t k := by
  have table : ∀ cases, Unclaimed (s.modifyItem n (Item.setCases cases)) k := fun cases =>
    h.modifyItem fun x => by cases x <;> exact ⟨rfl, rfl⟩
  unfold resolveElement at step
  simp only at step
  split at step
  · split at step
    · obtain ⟨-, rfl⟩ := Action.gives_pure.1 step
      exact h
    · simp only [Action.gives_bind, Action.gives_lift, Action.gives_modify] at step
      obtain ⟨k, _, ⟨-, rfl⟩, rfl⟩ := step
      exact h.modifyItem fun x => by cases x <;> exact ⟨rfl, rfl⟩
  · simp only [Action.gives_bind, Action.gives_get, Action.gives_set, Action.gives_lift] at step
    obtain ⟨_, _, ⟨rfl, rfl⟩, _, _, rfl, -, rfl⟩ := step
    exact table _
  · simp only [Action.gives_bind, Action.gives_get, Action.gives_set, Action.gives_lift] at step
    obtain ⟨_, _, ⟨rfl, rfl⟩, _, _, rfl, -, rfl⟩ := step
    exact table _
  · obtain ⟨-, rfl⟩ := Action.gives_pure.1 step
    exact h

/-- Outside a bracket, `addElements` gives every label the handle of a landmark. -/
theorem landmark_of_addElements (sound : Sound (fun x => x.Shaped ∧ x.Sealed) s) (known : Known body)
    (run : (addElements body).Gives s labels t) (flat : t.depth = 0) : Led t ∧ ∀ l ∈ labels, Landmark t l.2 := by
  have stable := Item.stable_sealed
  unfold addElements at run
  obtain ⟨u, build, close⟩ := gives_bracketed.1 run
  have opened : Building (fun x => x.Shaped ∧ x.Sealed) s s.openBracket :=
    ⟨sound.congr rfl rfl rfl, Nat.succ_ne_zero _, .of_arena_eq rfl⟩
  obtain ⟨p, v, added, build⟩ := Action.gives_bind.1 build
  have building := opened.foldlM stable known added
  have unclaimed := unclaimed_foldlM stable (p := {}) (fun _ hl => absurd hl List.not_mem_nil) opened known added
  simp only [Action.gives_bind, Action.gives_pure] at build
  obtain ⟨_, w, loop, rfl, rfl⟩ := build
  obtain ⟨building, unclaimed⟩ : Building (fun x => x.Shaped ∧ x.Sealed) s w ∧ ∀ l ∈ p.labels, Unclaimed w l.2 := by
    refine (Action.gives_forIn.1 loop).keeps
      (P := fun w => Building (fun x => x.Shaped ∧ x.Sealed) s w ∧ ∀ l ∈ p.labels, Unclaimed w l.2)
      (fun x _ a b step here => ?_) ⟨building, unclaimed⟩
    exact ⟨here.1.resolveElement stable step, fun l hl => unclaimed_resolveElement (here.2 l hl) step⟩
  -- With the bracket the sequence is laid out again.
  obtain ⟨-, rfl⟩ := closeBracket_eq_ok close
  rw [changed_of_flat flat]
  have sound : Sound (fun x => x.Shaped ∧ x.Sealed) { w with depth := w.depth - 1 } := building.sound.congr rfl rfl rfl
  refine ⟨sound.linked.led_relink (sound.solidSwitches upright_sealed), fun l hl => ?_⟩
  rcases List.mem_append.1 hl with hl | hl
  · obtain ⟨name, -, rfl⟩ := List.mem_map.1 hl
    exact .inl rfl
  · have named : Unclaimed { w with depth := w.depth - 1 } l.2 := (unclaimed l hl).congr rfl fun _ => rfl
    exact named.landmark sound.linked

/-- After `addElements`, `refresh` moves the handle of no label. -/
theorem follow_of_addElements (sound : Sound (fun x => x.Shaped ∧ x.Sealed) s) (known : Known body)
    (run : (addElements body).Gives s labels t) {pool : Option Pool}
    (refreshed : refresh.Gives { t with pool, moves := #[] } ⟨⟩ u) : ∀ l ∈ labels, Handle.follow u.moves.toList l.2 = l.2 := by
  obtain ⟨flat, -⟩ := gives_refresh.1 refreshed
  obtain ⟨led, landmarks⟩ := landmark_of_addElements sound known run flat
  have sealed : Sound (fun x => x.Shaped ∧ x.Sealed) { t with pool, moves := #[] } :=
    (leaves_addElements Item.stable_sealed sound known run).sound.congr rfl rfl rfl
  have shaped : Sound Item.Shaped { t with pool, moves := #[] } := ⟨sealed.linked, fun n x hx => (sealed.holds n x hx).1⟩
  have absent : Spent { t with pool, moves := #[] } := fun m hm => absurd hm List.not_mem_nil
  have led : Led { t with pool, moves := #[] } := led.congr rfl rfl
  have spent : Spent u := absent.refresh shaped.linked refreshed
  intro l hl
  have landmark : Landmark { t with pool, moves := #[] } l.2 := landmarks l hl
  exact spent.follow_eq (led.landmark_refresh shaped landmark refreshed)

end Sequence

end Dalvik
