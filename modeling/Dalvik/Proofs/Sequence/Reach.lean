import Dalvik.Proofs.Sequence.Assembling
import Dalvik.Proofs.Sequence.Decoding
import Mathlib.Logic.Relation

/-!
# Runs of edits

`Step` is one successful change of a sequence from outside, and `Reached` are the sequences that any
number of steps and decodings make of an empty one. What a step keeps is put together from what each
edit leaves (`Step.keeps`), and what a run keeps follows by induction.
-/

namespace Dalvik.Sequence

open Relation (ReflTransGen)
open Assembly (Body)

variable {free : Instruction → Prop} {P : Item → Prop} {s t u : Sequence} {n m : Nat}

/-- The owner of the table is `free` to be given another opcode. -/
def Convertible (free : Instruction → Prop) (s : Sequence) (n : Nat) : Prop :=
  ∀ x o, s.item? n = some x → x.owner? = some o → Open free s o

/-- One successful change. The size cell, the pool and the recorded moves belong to others, who may change them at any
time. A conversion gives the owner of the table another opcode; inside a bracket the recorded owner may no longer be
the switch it was, so there it must be `free`. A node is replaced only by one that is not in the sequence
(`detached`). -/
inductive Step (free : Instruction → Prop) : Sequence → Sequence → Prop where
  | outside (s : Sequence) (size : Option Cell) (pool : Option Pool) (moves : Array (Handle × Handle)) :
      Step free s { s with size, pool, moves }
  | create (s : Sequence) {x : Item} (made : x.Made) : Step free s (s.create x).2
  | insert {s t : Sequence} {n : Nat} {i : Int} {h : Handle} (present : (s.node? n).isSome)
      (run : s.insert i n = .ok (h, t)) : Step free s t
  | insertItem {s t : Sequence} {x : Item} {i : Int} {h : Handle} (made : x.Made)
      (run : (insertItem i x).Gives s h t) : Step free s t
  | push {s t : Sequence} {x : Item} {h : Handle} (made : x.Made) (run : (push x).Gives s h t) : Step free s t
  | removeAt {s t : Sequence} {n : Nat} {i : Int} (run : s.removeAt i = .ok (n, t)) : Step free s t
  | remove {s t : Sequence} {n : Nat} {found : Bool} (run : s.remove n = .ok (found, t)) : Step free s t
  | replace {s t : Sequence} {old new : Nat} (present : (s.node? new).isSome) (detached : s.handle? new = none)
      (run : s.replace old new = .ok t) : Step free s t
  | setTarget {s t : Sequence} {n : Nat} {h : Handle} (run : s.setTarget n h = .ok t) : Step free s t
  | openBracket (s : Sequence) : Step free s s.openBracket
  | closeBracket {s t : Sequence} (run : s.closeBracket = .ok t) : Step free s t
  | toSparse {s t : Sequence} {n : Nat} (convertible : s.depth ≠ 0 → Convertible free s n)
      (run : (toSparse n).Gives s ⟨⟩ t) : Step free s t
  | toPacked {s t : Sequence} {n : Nat} (convertible : s.depth ≠ 0 → Convertible free s n)
      (run : (toPacked n).Gives s ⟨⟩ t) : Step free s t
  | addElements {s t : Sequence} {body : Body} {labels : List (Bytes × Handle)} (known : Known body)
      (run : (addElements body).Gives s labels t) : Step free s t
  | refresh {s t : Sequence} (run : refresh.Gives s ⟨⟩ t) : Step free s t

theorem quiet_outside (s : Sequence) (size : Option Cell) (pool : Option Pool) (moves : Array (Handle × Handle)) :
    Quiet s { s with size, pool, moves } :=
  ⟨rfl, rfl, rfl, rfl, fun _ => rfl, fun _ _ hx => hx⟩

theorem Quiet.refl (s : Sequence) : Quiet s s := ⟨rfl, rfl, rfl, rfl, fun _ => rfl, fun _ _ hx => hx⟩

/-! ## Conversions -/

theorem live_of_toSparse (e : (toSparse n).Gives s ⟨⟩ t) : (s.handle? n).isSome := by
  obtain ⟨p, op, -, -, e⟩ := gives_toSparse e
  obtain ⟨i, h, u, hh, -⟩ := gives_swapTable e
  rw [hh, Option.isSome_some]

theorem live_of_toPacked (e : (toPacked n).Gives s ⟨⟩ t) : (s.handle? n).isSome := by
  obtain ⟨table, p, sorted, op, -, -, -, e⟩ := gives_toPacked e
  obtain ⟨i, h, u, hh, -⟩ := gives_swapTable e
  rw [handle?_modifyItem] at hh
  rw [hh, Option.isSome_some]

/-- Everything is `free`, or everything that is not padding is, and no switch is padding. -/
def Loose (free : Instruction → Prop) (P : Item → Prop) : Prop :=
  (∀ x, free x) ∨ Upright P ∧ ∀ x, x.isPadding = false → free x

/-- Outside a bracket, `relink` has set the owner of a table. -/
theorem Loose.convertible (loose : Loose free P) (owned : Upright P → Owned s) (live : (s.handle? n).isSome) :
    Convertible free s n := by
  intro x o hx ho m y hm hy
  rcases loose with all | ⟨upright, solid⟩
  · exact all y
  · by_cases nonneg : 0 ≤ o
    · obtain ⟨m', y', hm', hy', padding⟩ := owned upright n x o live hx ho nonneg
      rw [hm] at hm'
      cases hm'
      rw [hy] at hy'
      cases hy'
      exact solid y padding
    · rw [named?, if_pos (Int.not_le.1 nonneg)] at hm
      cases hm

/-! ## Steps -/

theorem Step.leaves (stable : Item.Stable free P) (loose : Loose free P) (h : Step free s t) (sound : Sound P s)
    (owned : s.depth = 0 → Upright P → Owned s) : Leaves P s t ∨ Quiet s t ∧ Sound P t := by
  have ready : ∀ {n}, (s.depth ≠ 0 → Convertible free s n) → (s.handle? n).isSome → Convertible free s n := by
    intro n convertible live
    by_cases flat : s.depth = 0
    · exact loose.convertible (owned flat) live
    · exact convertible flat
  cases h with
  | outside size pool moves => exact .inr ⟨quiet_outside s size pool moves, sound.congr rfl rfl rfl⟩
  | create made => exact .inr ⟨quiet_create s _, sound.create (stable.made made)⟩
  | insert present run =>
    obtain ⟨x, hx⟩ := Option.isSome_iff_exists.1 present
    exact .inl (leaves_insert stable sound hx run)
  | insertItem made run => exact .inl (leaves_insertItem stable sound (stable.made made) run)
  | push made run => exact .inl (leaves_push stable sound (stable.made made) run)
  | removeAt run => exact .inl (leaves_removeAt stable sound run)
  | remove run =>
    rcases leaves_remove stable sound run with leaves | rfl
    · exact .inl leaves
    · exact .inr ⟨.refl _, sound⟩
  | replace present detached run =>
    obtain ⟨x, hx⟩ := Option.isSome_iff_exists.1 present
    exact .inl (leaves_replace stable sound hx detached run)
  | setTarget run => exact .inl (leaves_setTarget stable sound run)
  | openBracket => exact .inl (leaves_openBracket sound)
  | closeBracket run => exact .inl (leaves_closeBracket stable sound run)
  | toSparse convertible run =>
    have free := ready convertible (live_of_toSparse run)
    exact .inl (leaves_toSparse stable sound (fun p hp => free _ _ hp rfl) run)
  | toPacked convertible run =>
    have free := ready convertible (live_of_toPacked run)
    exact .inl (leaves_toPacked stable sound (fun p hp => free _ _ hp rfl) run)
  | addElements known run => exact .inl (leaves_addElements stable sound known run)
  | refresh run => exact .inl (leaves_refresh stable sound run)

/-- A `Step` keeps a sequence sound and tidy, and fills no slot that was empty. -/
theorem Step.keeps (stable : Item.Stable free P) (loose : Loose free P) (h : Step free s t) (sound : Sound P s)
    (tidy : Tidy P s) : Leaves P s t := by
  rcases h.leaves stable loose sound tidy.owned with leaves | ⟨quiet, sound'⟩
  · exact leaves
  · refine ⟨sound', ⟨fun flat => ?_, fun flat upright => ?_⟩, .of_arena_eq quiet.arena⟩
    · exact quiet.laid sound.linked (tidy.laid (quiet.depth ▸ flat))
    · exact quiet.owned sound.linked (tidy.owned (quiet.depth ▸ flat) upright)

/-! ## Runs -/

/-- Sequences that steps and decodings make of an empty one. -/
inductive Reached (free : Instruction → Prop) : Sequence → Prop where
  | new (size : Option Cell) (pool : Option Pool) : Reached free { size, pool }
  | step {s t : Sequence} (reached : Reached free s) (step : Step free s t) : Reached free t
  | decode {s t : Sequence} {c c' : Cursor} (reached : Reached free s) (run : (decode c).Gives s c' t) : Reached free t

theorem sound_new (size : Option Cell) (pool : Option Pool) : Sound P { size, pool } where
  linked := ⟨List.nodup_nil, fun n => by simp [handle?, node?], fun n k => by simp [handle?, node?]⟩
  holds n x hx := by simp [item?, node?] at hx

theorem tidy_new (size : Option Cell) (pool : Option Pool) : Tidy P { size, pool } where
  laid _ := rfl
  owned _ _ n x o hn := by simp [handle?, node?] at hn

theorem Reached.keeps (stable : Item.Stable free P) (loose : Loose free P) (h : Reached free s) :
    Sound P s ∧ Tidy P s := by
  induction h with
  | new size pool => exact ⟨sound_new size pool, tidy_new size pool⟩
  | step _ step ih =>
    have leaves := step.keeps stable loose ih.1 ih.2
    exact ⟨leaves.sound, leaves.tidy⟩
  | decode _ run ih => exact sound_decode stable ih.1.holds run

/-- Steps fill no slot that was empty. -/
theorem buried_of_steps (stable : Item.Stable free P) (loose : Loose free P) (sound : Sound P s) (tidy : Tidy P s)
    (h : ReflTransGen (Step free) s t) : Buried s t := by
  have all : Sound P t ∧ Tidy P t ∧ Buried s t := by
    induction h with
    | refl => exact ⟨sound, tidy, .refl s⟩
    | tail _ step ih =>
      obtain ⟨sound, tidy, buried⟩ := ih
      have leaves := step.keeps stable loose sound tidy
      exact ⟨leaves.sound, leaves.tidy, buried.trans leaves.buried⟩
  exact all.2.2

/-! ## Handles -/

theorem Sound.increasing (stable : Item.Stable free P) (sound : Sound P s) (row : Laid s 0 s.items.toList s.units) :
    Increasing s :=
  row.pairwise (sound.roomy stable)

/-- What can be relied on about handles. -/
structure HandlesHold (s : Sequence) : Prop where
  /-- No item is in the sequence twice. -/
  distinct : s.items.toList.Nodup
  /-- `handle?` and `named?` are inverse to each other. -/
  handle_iff : ∀ (n k : Nat), s.handle? n = some k ↔ s.named? k = some n
  /-- Exactly the items have a handle. -/
  mem_iff : ∀ n, n ∈ s.items.toList ↔ ∃ k : Nat, s.named? k = some n
  /-- A handle that names no item any more never names one again. -/
  dead : ∀ k : Nat, k < s.arena.size → s.named? k = none → ∀ t, ReflTransGen (Step fun _ => True) s t → t.named? k = none
  /-- Outside a bracket, `handleAt?` finds a handle at its address. -/
  found : s.depth = 0 → ∀ h n, s.named? h = some n → ∃ a, s.addressOf? h = some a ∧ s.handleAt? a = some h
  /-- The handle of the end is at the end. -/
  finish : s.handleAt? s.units = some .finish
  /-- There are no handles at any other address. -/
  missing : s.depth = 0 → ∀ a : Int, a ≠ s.units → (∀ h n, s.named? h = some n → s.addressOf? h ≠ some a) →
    s.handleAt? a = none

theorem named?_natCast (k : Nat) : s.named? k = (s.arena[k]?).join := by
  rw [named?, if_neg (Int.not_lt.2 (Int.natCast_nonneg k)), Int.toNat_natCast]

/-- Every `Reached` sequence satisfies `HandlesHold`: its items are pairwise distinct, `handle?` and `named?` are inverse
to each other on them, a handle that names nothing goes on naming nothing through any number of steps, and outside a
bracket `handleAt?` finds exactly the handles of the items, each at its address, and the handle of the end. -/
theorem handlesHold_of_reached (h : Reached (fun _ => True) s) : HandlesHold s := by
  obtain ⟨sound, tidy⟩ := h.keeps Item.stable_shaped (.inl fun _ => trivial)
  have linked := sound.linked
  have handle_iff : ∀ n k : Nat, s.handle? n = some k ↔ s.named? k = some n := by
    intro n k
    rw [linked.named?_iff]
    constructor
    · exact fun hk => ⟨k, rfl, hk⟩
    · rintro ⟨j, e, hj⟩
      rw [hj, Int.natCast_inj.1 e]
  have node : ∀ n ∈ s.items.toList, ∃ x, s.node? n = some x := fun n hn => linked.node?_of_mem hn
  refine {
    distinct := linked.nodup
    handle_iff
    mem_iff := fun n => ?_
    dead := fun k inside absent t steps => ?_
    found := fun flat h n hn => ?_
    finish := by rw [handleAt?, if_pos rfl]
    missing := fun flat a ne other => ?_ }
  · rw [linked.mem_iff, Option.isSome_iff_exists]
    exact exists_congr (handle_iff n)
  · have buried := buried_of_steps Item.stable_shaped (.inl fun _ => trivial) sound tidy steps
    rw [named?_natCast, Array.getElem?_eq_getElem inside, Option.join_some] at absent
    rw [named?_natCast, buried k (by rw [Array.getElem?_eq_getElem inside, absent])]
    rfl
  · -- The address of an item lies below the end, and no two items share one.
    have row := tidy.laid flat
    have mem := linked.mem_of_named? hn
    obtain ⟨p, x, shape, -, le⟩ := row.mem mem
    have room := (sound.roomy Item.stable_shaped).extent_pos shape
    have address := address?_of_shape? shape
    refine ⟨p, (addressOf?_eq_some (ne_finish_of_named? hn)).2 ⟨n, hn, address⟩, ?_⟩
    have increasing := sound.increasing Item.stable_shaped row
    rw [handleAt?_eq, if_neg (by omega), (increasing.nodeByAddress?_iff node).2 ⟨mem, address⟩, Option.map_some,
      linked.eq_handleOf_of_named? hn]
  · have increasing := sound.increasing Item.stable_shaped (tidy.laid flat)
    rw [handleAt?_eq, if_neg ne, Option.map_eq_none_iff]
    refine Option.eq_none_iff_forall_not_mem.2 fun n hn => ?_
    obtain ⟨mem, address⟩ := (increasing.nodeByAddress?_iff node).1 hn
    have named := linked.named?_handleOf mem
    exact other _ n named ((addressOf?_eq_some (ne_finish_of_named? named)).2 ⟨n, named, address⟩)

/-- A `packed-switch`, two instructions, the padding in front of the table, and the table. -/
def paddedSwitch : Cursor :=
  .ofBytes [0x2b, 0, 6, 0, 0, 0, 0x12, 0, 0x0e, 0, 0, 0, 0, 1, 1, 0, 0, 0, 0, 0, 3, 0, 0, 0]

/-- `removeAt` takes the switch out of what `paddedSwitch` decodes to. Its table and the padding go with it, and the handles
0, 3 and 4 of the three name nothing, also when an instruction has been added and given the handle 5. -/
theorem handlesHold_of_removed_switch : ∃ s t u, Reached (fun _ => True) s ∧ s.items.toList = [0, 1, 2, 3, 4] ∧
    s.removeAt 0 = .ok (0, t) ∧ t.items.toList = [1, 2] ∧ HandlesHold t ∧
    (push (.plain (.blank .nop))).Gives t 5 u ∧ u.items.toList = [1, 2, 5] ∧ HandlesHold u ∧
    ∀ k : Nat, k ∈ [0, 3, 4] → t.named? k = none ∧ u.named? k = none := by
  let s := ((decode paddedSwitch).apply { size := some (.int 12) }).2
  have reached : Reached (fun _ => True) s :=
    .decode (.new _ _) (Action.gives_of_toOption (a := { paddedSwitch with pos := 24 }) (by decide +kernel))
  have removal : (s.removeAt 0).toOption.map (fun r => (r.1, r.2.items.toList, r.2.arena,
      (append r.2 (.plain (.blank .nop))).1, (append r.2 (.plain (.blank .nop))).2.items.toList)) =
      some (0, [1, 2], #[none, some 1, some 2, none, none], 5, [1, 2, 5]) := by decide +kernel
  cases run : s.removeAt 0 with
  | error e =>
    rw [run] at removal
    cases removal
  | ok r =>
    obtain ⟨n, t⟩ := r
    rw [run] at removal
    simp only [Except.toOption, Option.map_some, Option.some.injEq, Prod.mk.injEq] at removal
    obtain ⟨rfl, items, arena, handle, longer⟩ := removal
    have removed : Reached (fun _ => True) t := .step reached (.removeAt run)
    have pushed := gives_push t (.plain (.blank .nop))
    rw [handle] at pushed
    have step : Step (fun _ => True) t (append t (.plain (.blank .nop))).2 :=
      .push (Item.made_blank (show Opcode.nop ∈ Opcode.instructions by decide +kernel)) pushed
    have hold := handlesHold_of_reached removed
    refine ⟨s, t, _, reached, by decide +kernel, run, items, hold, pushed, longer, handlesHold_of_reached (.step removed step),
      fun k hk => ?_⟩
    have vacant : k < t.arena.size ∧ t.named? k = none := by
      rw [named?_natCast, arena]
      simp only [List.mem_cons, List.not_mem_nil, or_false] at hk
      rcases hk with rfl | rfl | rfl
      all_goals decide
    exact ⟨vacant.2, hold.dead k vacant.1 vacant.2 _ (.single step)⟩

end Dalvik.Sequence
