import Dalvik.Proofs.Sequence.Claim

/-!
# What laying out again leaves alone

Claiming and laying out change a sequence in few ways: the links of items change, references follow
the handles that are taken away, new items are padding, and a slot that was emptied stays empty.
`Evolves` says this once for all of these functions.
-/

namespace Dalvik

/-- Where a handle leads after a list of moves. -/
def Handle.follow (moves : List (Handle × Handle)) (h : Handle) : Handle :=
  moves.foldl (fun h m => if h = m.1 then m.2 else h) h

theorem Handle.follow_append (ms ns : List (Handle × Handle)) (h : Handle) :
    Handle.follow (ms ++ ns) h = Handle.follow ns (Handle.follow ms h) := List.foldl_append

namespace Item

/-- The handles that an item refers to. -/
def references : Item → List Handle
  | .plain x => [x.target]
  | x => x.cases.map Case.handle

@[simp] theorem references_setOwner (x : Item) (h : Handle) : (x.setOwner h).references = x.references := by
  cases x <;> rfl

theorem references_retarget (x : Item) (source dest : Handle) :
    (x.retarget source dest).references = x.references.map (Handle.follow [(source, dest)]) := by
  have case : ∀ c : Case, (c.retarget source dest).handle = Handle.follow [(source, dest)] c.handle := by
    intro c
    simp only [Case.retarget, Handle.follow, List.foldl_cons, List.foldl_nil]
    split <;> rfl
  cases x with
  | plain i =>
    simp only [retarget, references, Handle.follow, List.foldl_cons, List.foldl_nil, List.map_cons, List.map_nil]
    split <;> rfl
  | packed p => simp [retarget, setCases, cases, references, case]
  | sparse t => simp [retarget, setCases, cases, references, case]
  | array a => rfl

end Item

namespace Sequence

open Relation (ReflTransGen)

variable {s t u : Sequence} {xs : List Nat} {n m : Nat}

/-- The references of the items that are left follow the recorded moves, and a slot that was empty stays empty. -/
structure Carries (s t : Sequence) : Prop where
  depth : t.depth = s.depth
  size : t.size = s.size
  pool : t.pool = s.pool
  buried : Buried s t
  persists : ∀ n, (s.item? n).isSome → (t.item? n).isSome
  handles : ∀ n h, (s.item? n).isSome → t.handle? n = some h → s.handle? n = some h
  follows : ∃ new, t.moves = s.moves ++ new ∧ ∀ n x y, s.item? n = some x → t.item? n = some y →
    (t.handle? n).isSome → y.references = x.references.map (Handle.follow new.toList) ∧ y.caseKeys = x.caseKeys
  payloads : ∀ n y, t.item? n = some y → y.isPayload = true → ∃ x, s.item? n = some x ∧ x.isPayload = true

namespace Carries

theorem of_same (depth : t.depth = s.depth) (size : t.size = s.size) (pool : t.pool = s.pool) (buried : Buried s t)
    (moves : t.moves = s.moves) (handles : ∀ n h, (s.item? n).isSome → t.handle? n = some h → s.handle? n = some h)
    (item? : ∀ n x, s.item? n = some x →
      ∃ y, t.item? n = some y ∧ y.references = x.references ∧ y.caseKeys = x.caseKeys)
    (payloads : ∀ n y, t.item? n = some y → y.isPayload = true → ∃ x, s.item? n = some x ∧ x.isPayload = true) :
    Carries s t where
  payloads := payloads
  depth := depth
  size := size
  pool := pool
  buried := buried
  persists n hn := by
    obtain ⟨x, hx⟩ := Option.isSome_iff_exists.1 hn
    obtain ⟨y, hy, -⟩ := item? n x hx
    rw [hy]
    rfl
  handles := handles
  follows := by
    refine ⟨#[], by rw [moves, Array.append_empty], fun n x y hx hy _ => ?_⟩
    obtain ⟨y', hy', references, keys⟩ := item? n x hx
    rw [hy] at hy'
    cases hy'
    exact ⟨by rw [references]; exact (List.map_id' _).symm, keys⟩

theorem refl (s : Sequence) : Carries s s :=
  .of_same rfl rfl rfl (.refl s) rfl (fun _ _ _ h => h) (fun _ x hx => ⟨x, hx, rfl, rfl⟩) fun _ y hy hp => ⟨y, hy, hp⟩

theorem trans (hst : Carries s t) (htu : Carries t u) : Carries s u where
  payloads n z hz hp := by
    obtain ⟨y, hy, hp⟩ := htu.payloads n z hz hp
    exact hst.payloads n y hy hp
  depth := htu.depth.trans hst.depth
  size := htu.size.trans hst.size
  pool := htu.pool.trans hst.pool
  buried := hst.buried.trans htu.buried
  persists n hn := htu.persists n (hst.persists n hn)
  handles n h hn hu := hst.handles n h hn (htu.handles n h (hst.persists n hn) hu)
  follows := by
    obtain ⟨ms, hms, follow⟩ := hst.follows
    obtain ⟨ns, hns, follow'⟩ := htu.follows
    refine ⟨ms ++ ns, by rw [hns, hms, Array.append_assoc], fun n x z hx hz hu => ?_⟩
    have there : (s.item? n).isSome := by rw [hx]; rfl
    obtain ⟨y, hy⟩ := Option.isSome_iff_exists.1 (hst.persists n there)
    obtain ⟨h, hh⟩ := Option.isSome_iff_exists.1 hu
    have ht := htu.handles n h (hst.persists n there) hh
    obtain ⟨references, keys⟩ := follow n x y hx hy (by rw [ht]; rfl)
    obtain ⟨references', keys'⟩ := follow' n y z hy hz hu
    refine ⟨?_, keys'.trans keys⟩
    rw [references', references, List.map_map]
    refine List.map_congr_left fun k _ => ?_
    rw [Function.comp_apply, Array.toList_append, Handle.follow_append]

end Carries

/-- In addition, items keep everything but their links, and new items are padding. -/
structure Evolves (s t : Sequence) : Prop extends Carries s t where
  kept : ∀ n x, s.item? n = some x → ∃ y, t.item? n = some y ∧ y.unlinked = x.unlinked
  fresh : ∀ n y, t.item? n = some y → s.item? n = none → y.unlinked = (Item.plain .padding).unlinked

namespace Evolves

theorem refl (s : Sequence) : Evolves s s where
  toCarries := .refl s
  kept n x hx := ⟨x, hx, rfl⟩
  fresh n y hy hn := by rw [hy] at hn; cases hn

theorem trans (hst : Evolves s t) (htu : Evolves t u) : Evolves s u where
  toCarries := hst.toCarries.trans htu.toCarries
  kept n x hx := by
    obtain ⟨y, hy, e⟩ := hst.kept n x hx
    obtain ⟨z, hz, e'⟩ := htu.kept n y hy
    exact ⟨z, hz, e'.trans e⟩
  fresh n z hz hn := by
    cases hy : t.item? n with
    | none => exact htu.fresh n z hz hy
    | some y =>
      obtain ⟨z', hz', e⟩ := htu.kept n y hy
      rw [hz] at hz'
      cases hz'
      rw [e, hst.fresh n y hy hn]

theorem congr (h : Evolves s t) (nodes : u.nodes = t.nodes) (arena : u.arena = t.arena) (depth : u.depth = t.depth)
    (size : u.size = t.size) (pool : u.pool = t.pool) (moves : u.moves = t.moves) : Evolves s u := by
  have item? : ∀ n, u.item? n = t.item? n := fun n => by simp only [Sequence.item?, node?, nodes]
  have handle? : ∀ n, u.handle? n = t.handle? n := fun n => by simp only [Sequence.handle?, node?, nodes]
  exact {
    depth := depth.trans h.depth
    size := size.trans h.size
    pool := pool.trans h.pool
    buried := h.buried.trans (.of_arena_eq arena)
    persists := fun n hn => by rw [item?]; exact h.persists n hn
    kept := fun n x hx => by rw [item?]; exact h.kept n x hx
    fresh := fun n y hy => by rw [item?] at hy; exact h.fresh n y hy
    payloads := fun n y hy => by rw [item?] at hy; exact h.payloads n y hy
    handles := fun n k hn hk => by rw [handle?] at hk; exact h.handles n k hn hk
    follows := by
      obtain ⟨new, hnew, follow⟩ := h.follows
      refine ⟨new, moves.trans hnew, fun n x y hx hy hu => ?_⟩
      rw [item?] at hy
      rw [handle?] at hu
      exact follow n x y hx hy hu }

/-- A node with a handle has the item it had before, up to links, or is new padding. -/
theorem item?_of_item? (h : Evolves s t) {y : Item} (hy : t.item? n = some y) :
    (∃ x, s.item? n = some x ∧ y.unlinked = x.unlinked) ∨
      (s.item? n = none ∧ y.unlinked = (Item.plain .padding).unlinked) := by
  cases hx : s.item? n with
  | none => exact .inr ⟨rfl, h.fresh n y hy hx⟩
  | some x =>
    obtain ⟨y', hy', e⟩ := h.kept n x hx
    rw [hy] at hy'
    cases hy'
    exact .inl ⟨x, rfl, e⟩

end Evolves

/-! ## Single changes -/

theorem caseKeys_of_unlinked {x y : Item} (h : y.unlinked = x.unlinked) : y.caseKeys = x.caseKeys := by
  rw [← y.unlinked_caseKeys, h, x.unlinked_caseKeys]

theorem evolves_forget (h : Linked s (n :: xs)) (next : Handle) : Evolves s (s.forget n next) := by
  have kept : ∀ m x, s.item? m = some x → ∃ y, (s.forget n next).item? m = some y ∧ y.unlinked = x.unlinked := by
    intro m x hx
    rw [item?_forget, hx]
    split
    · exact ⟨_, rfl, x.unlinked_retarget _ _⟩
    · exact ⟨x, rfl, rfl⟩
  exact {
    depth := rfl
    size := rfl
    pool := rfl
    buried := buried_forget next
    kept
    payloads := fun m y hy hp => by
      rw [item?_forget] at hy
      split at hy
      · obtain ⟨x, hx, rfl⟩ := Option.map_eq_some_iff.1 hy
        rw [← Item.unlinked_isPayload, Item.unlinked_retarget, Item.unlinked_isPayload] at hp
        exact ⟨x, hx, hp⟩
      · exact ⟨y, hy, hp⟩
    persists := fun m hm => by
      obtain ⟨x, hx⟩ := Option.isSome_iff_exists.1 hm
      obtain ⟨y, hy, -⟩ := kept m x hx
      rw [hy]
      rfl
    fresh := fun m y hy hn => by
      rw [item?_forget, hn] at hy
      split at hy <;> cases hy
    handles := fun m k _ hk => by
      rw [handle?_forget] at hk
      split at hk
      · cases hk
      · exact hk
    follows := by
      refine ⟨#[(s.handleOf n, next)], rfl, fun m x y hx hy hm => ?_⟩
      have mem : m ∈ xs := ((h.forget next).mem_iff m).2 hm
      rw [h.item?_forget next mem, hx] at hy
      cases hy
      exact ⟨x.references_retarget _ _, caseKeys_of_unlinked (x.unlinked_retarget _ _)⟩ }

theorem evolves_pad (s : Sequence) : Evolves s ((s.create (.plain .padding)).2.register s.nodes.size) := by
  have absent : s.item? s.nodes.size = none := by simp [item?]
  have detached := handle?_create_self s (.plain .padding)
  have item : ∀ m, ((s.create (.plain .padding)).2.register s.nodes.size).item? m =
      if m = s.nodes.size then some (.plain .padding) else s.item? m := by
    intro m
    rw [item?_register, item?_create]
  have same : ∀ m x, s.item? m = some x →
      ((s.create (.plain .padding)).2.register s.nodes.size).item? m = some x := by
    intro m x hx
    rw [item, if_neg (by rintro rfl; rw [absent] at hx; cases hx), hx]
  refine ⟨.of_same (by simp) (by simp) (by simp) ?_ (by simp) ?_ (fun m x hx => ⟨x, same m x hx, rfl, rfl⟩) ?_,
    fun m x hx => ⟨x, same m x hx, rfl⟩, fun m y hy hn => ?_⟩
  · exact (Buried.of_arena_eq (arena_create _)).trans (buried_register detached)
  · intro m k hm hk
    rw [handle?_register detached (node?_create_self s _)] at hk
    split at hk
    · next e =>
      subst e
      rw [absent] at hm
      cases hm
    · rwa [handle?_create] at hk
  · intro m y hy hp
    rw [item] at hy
    split at hy
    · cases hy
      cases hp
    · exact ⟨y, hy, hp⟩
  · rw [item] at hy
    split at hy
    · cases hy
      rfl
    · rw [hn] at hy
      cases hy

theorem evolves_setAddress (s : Sequence) (n : Nat) (a : Int) : Evolves s (s.setAddress n a) := by
  refine ⟨.of_same rfl rfl rfl (.of_arena_eq rfl) rfl (fun m k _ hk => ?_) (fun m x hx => ⟨x, ?_, rfl, rfl⟩)
      fun m y hy hp => ⟨y, ?_, hp⟩,
    fun m x hx => ⟨x, ?_, rfl⟩, fun m y hy hn => ?_⟩
  · rwa [handle?_setAddress] at hk
  · rw [item?_setAddress, hx]
  · rwa [item?_setAddress] at hy
  · rw [item?_setAddress, hx]
  · rw [item?_setAddress, hn] at hy
    cases hy

theorem Adjust.evolves {gone : Sequence → Nat → Prop} (h : Adjust gone s t) : Evolves s t := by
  cases h with
  | forget next linked _ _ => exact evolves_forget linked next
  | pad linked => exact evolves_pad _
  | move n a => exact evolves_setAddress s n a

theorem evolves_of_adjusts {gone : Sequence → Nat → Prop} (h : ReflTransGen (Adjust gone) s t) : Evolves s t := by
  induction h with
  | refl => exact .refl s
  | tail _ step ih => exact ih.trans step.evolves

theorem Reowned.evolves (h : Reowned s t) : Evolves s t := by
  have item : ∀ n x, s.item? n = some x → ∃ y, t.item? n = some y ∧ y.unlinked = x.unlinked ∧
      y.references = x.references := by
    intro n x hx
    rcases h.item? n with e | ⟨k, e⟩
    · exact ⟨x, by rw [e, hx], rfl, rfl⟩
    · exact ⟨x.setOwner k, by rw [e, hx, Option.map_some], x.unlinked_setOwner k, x.references_setOwner k⟩
  refine ⟨.of_same h.depth h.size h.pool (.of_arena_eq h.arena) h.moves (fun n k _ hk => ?_) (fun n x hx => ?_)
      fun n y hy hp => ?_,
    fun n x hx => ?_, fun n y hy hn => ?_⟩
  · rwa [h.handle?] at hk
  · obtain ⟨y, hy, e, references⟩ := item n x hx
    exact ⟨y, hy, references, caseKeys_of_unlinked e⟩
  · rcases h.item? n with e | ⟨k, e⟩ <;> rw [e] at hy
    · exact ⟨y, hy, hp⟩
    · obtain ⟨x, hx, rfl⟩ := Option.map_eq_some_iff.1 hy
      rw [← Item.unlinked_isPayload, Item.unlinked_setOwner, Item.unlinked_isPayload] at hp
      exact ⟨x, hx, hp⟩
  · obtain ⟨y, hy, e, -⟩ := item n x hx
    exact ⟨y, hy, e⟩
  · rcases h.item? n with e | ⟨k, e⟩ <;> rw [e, hn] at hy <;> cases hy

/-! ## Laying out again -/

theorem Linked.layout_evolves (h : Linked s s.items.toList) : Evolves s s.layout := by
  obtain ⟨t, adjusts, e⟩ := layout_adjusts h
  rw [e]
  exact (evolves_of_adjusts adjusts).congr rfl rfl rfl rfl rfl rfl

theorem Linked.claimTables_evolves (h : Linked s s.items.toList) : Evolves s s.claimTables := by
  obtain ⟨t, adjusts, e⟩ := claimTables_adjusts h
  rw [e]
  exact ((reowned_claimed s).evolves.trans (evolves_of_adjusts adjusts)).congr rfl rfl rfl rfl rfl rfl

theorem Linked.relink_evolves (h : Linked s s.items.toList) : Evolves s s.relink := by
  have both := h.claimTables_evolves.trans h.claimTables.layout_evolves
  unfold Sequence.relink collectReferences
  generalize s.claimTables.layout = t at both ⊢
  exact both.congr rfl rfl rfl rfl rfl rfl

end Sequence

end Dalvik
