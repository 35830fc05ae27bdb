import Dalvik.Proofs.Sequence.Encoding

/-!
# Refreshing

`refresh` lays a sequence out, repeats passes until none widens a jump, and then restores what is
computed from the contents of each payload. `gives_refresh` splits a refresh into these parts, and
`leaves_refresh` says that it keeps what every edit keeps.
-/

namespace Dalvik.Sequence

variable {free : Instruction → Prop} {P : Item → Prop} {s t u : Sequence} {n m : Nat} {xs : List Nat} {a b fuel : Nat}

/-! ## Items that stay where they are -/

theorem shape?_eq_some {p : Int} {x : Item} :
    s.shape? n = some (p, x) ↔ ∃ y, s.item? n = some y ∧ y.unlinked = x ∧ s.address? n = some p := by
  unfold shape? item? address?
  cases s.node? n with
  | none => simp
  | some y => simp [Node.shape, and_comm]

/-- Items that take up the room they took before are still in a row. -/
theorem Laid.resize (h : Laid s a xs b) (address : ∀ n, t.address? n = s.address? n)
    (same : ∀ n ∈ xs, ∀ x, s.item? n = some x →
      ∃ y, t.item? n = some y ∧ y.isPayload = x.isPayload ∧ y.extent = x.extent) : Laid t a xs b := by
  induction xs generalizing a with
  | nil => exact h
  | cons n xs ih =>
    obtain ⟨x, hx, even, rest⟩ := h
    obtain ⟨y, hy, rfl, hp⟩ := shape?_eq_some.1 hx
    obtain ⟨z, hz, payload, extent⟩ := same n List.mem_cons_self y hy
    refine ⟨z.unlinked, shape?_eq_some.2 ⟨z, hz, rfl, by rw [address, hp]⟩, ?_, ?_⟩
    · rw [Item.unlinked_isPayload] at even ⊢
      rwa [payload]
    · rw [Item.unlinked_extent] at rest ⊢
      rw [extent]
      exact ih rest fun m hm => same m (List.mem_cons_of_mem _ hm)

theorem Encodes.laid (h : Encodes s.items.toList s false t) (laid : Laid s 0 s.items.toList s.units) :
    Laid t 0 t.items.toList t.units := by
  rw [h.recoded.items, h.recoded.units]
  refine laid.resize h.recoded.address? fun n _ x hx => ?_
  obtain ⟨y, hy, recoded⟩ := h.recoded.item? n x hx
  exact ⟨y, hy, recoded.isPayload, (h.sameSize hx hy).1⟩

theorem Recoded.carries (h : Recoded s t) : Carries s t := by
  refine .of_same h.depth h.size h.pool (.of_arena_eq h.arena) h.moves (fun n k _ hk => ?_) (fun n x hx => ?_)
    fun n y hy hp => ?_
  · rwa [h.handle?] at hk
  · obtain ⟨y, hy, recoded⟩ := h.item? n x hx
    exact ⟨y, hy, recoded.references, recoded.caseKeys⟩
  · obtain ⟨x, hx, recoded⟩ := h.of_item? hy
    exact ⟨x, hx, by rw [← recoded.isPayload, hp]⟩

/-! ## Passes until nothing is widened -/

theorem gives_settle_succ :
    (settle (fuel + 1)).Gives s ⟨⟩ t ↔
      (Encodes s.items.toList s false t) ∨
        ∃ u, Encodes s.items.toList s true u ∧ (settle fuel).Gives u.layout ⟨⟩ t := by
  rw [settle]
  simp only [Action.gives_bind, gives_encodeOffsets]
  constructor
  · rintro ⟨g, u, pass, h⟩
    cases g with
    | false =>
      obtain ⟨-, rfl⟩ := Action.gives_pure.1 h
      exact .inl pass
    | true =>
      simp only [if_true, Action.gives_bind, Action.gives_modify] at h
      obtain ⟨_, _, rfl, h⟩ := h
      exact .inr ⟨u, pass, h⟩
  · rintro (pass | ⟨u, pass, h⟩)
    · exact ⟨false, t, pass, Action.gives_pure.2 ⟨rfl, rfl⟩⟩
    · refine ⟨true, u, pass, ?_⟩
      simp only [if_true, Action.gives_bind, Action.gives_modify]
      exact ⟨⟨⟩, _, rfl, h⟩

/-- What every change of a pass and every layout keep, `settle` keeps, also if it fails. -/
theorem upholds_settle {I : Sequence → Prop} (recode : ∀ s t, Recode s t → I s → I t) (layout : ∀ s, I s → I s.layout)
    (fuel : Nat) : Action.Upholds I (settle fuel) := by
  induction fuel with
  | zero => exact Action.upholds_pure _
  | succ fuel ih =>
    unfold settle
    refine Action.Upholds.bind (upholds_encodeOffsets recode) fun grown => ?_
    split
    · exact Action.Upholds.bind (Action.upholds_modify layout) fun _ => ih
    · exact Action.upholds_pure _

theorem Sound.layout (stable : Item.Stable free P) (h : Sound P s) : Sound P s.layout :=
  ⟨h.linked.layout.1, h.linked.layout_evolves.holds stable.padding stable.relinked h.holds⟩

theorem leaves_settle (stable : Item.Stable free P) (sound : Sound P s) (laid : Laid s 0 s.items.toList s.units)
    (run : (settle fuel).Gives s ⟨⟩ t) : Sound P t ∧ Laid t 0 t.items.toList t.units ∧ Carries s t := by
  induction fuel generalizing s with
  | zero =>
    obtain ⟨-, rfl⟩ := Action.gives_pure.1 run
    exact ⟨sound, laid, .refl s⟩
  | succ fuel ih =>
    rcases gives_settle_succ.1 run with pass | ⟨u, pass, run⟩
    · exact ⟨pass.sound stable sound, pass.laid laid, pass.recoded.carries⟩
    · have grown := pass.sound stable sound
      have relaid := pass.recoded.carries.trans grown.linked.layout_evolves.toCarries
      have again := grown.layout stable
      obtain ⟨-, row⟩ := grown.linked.layout
      generalize u.layout = w at relaid again row run
      obtain ⟨sound', laid', carries⟩ := ih again row run
      exact ⟨sound', laid', relaid.trans carries⟩

/-- After `relink` and `settle`, the items are in a row. -/
theorem leaves_settle_relink (stable : Item.Stable free P) (sound : Sound P s) (run : (settle fuel).Gives s.relink ⟨⟩ t) :
    Sound P t ∧ Laid t 0 t.items.toList t.units ∧ Carries s.relink t := by
  have relinked := sound.relink stable
  obtain ⟨-, laid⟩ := sound.linked.relink
  generalize s.relink = u at relinked laid run ⊢
  exact leaves_settle stable relinked laid run

theorem Owned.transfer (h : Owned s) (arena : t.arena = s.arena) (handle? : ∀ n, t.handle? n = s.handle? n)
    (back : ∀ n y, t.item? n = some y → ∃ x, s.item? n = some x ∧ y.owner? = x.owner?)
    (forth : ∀ n x, s.item? n = some (.plain x) → ∃ y, t.item? n = some (.plain y) ∧ y.isPadding = x.isPadding) :
    Owned t := by
  intro n y o hn hy ho nonneg
  obtain ⟨x, hx, e⟩ := back n y hy
  rw [handle?] at hn
  obtain ⟨m, z, hm, hz, solid⟩ := h n x o hn hx (by rw [← e, ho]) nonneg
  obtain ⟨z', hz', e'⟩ := forth m z hz
  refine ⟨m, z', ?_, hz', e'.trans solid⟩
  rw [← hm]
  simp only [named?, arena]

theorem Recoded.owned (h : Recoded s t) (hs : Owned s) : Owned t := by
  refine hs.transfer h.arena h.handle? (fun n y hy => ?_) fun n x hx => ?_
  · obtain ⟨x, hx, recoded⟩ := h.of_item? hy
    exact ⟨x, hx, recoded.owner?⟩
  · obtain ⟨y, hy, recoded⟩ := h.item? n _ hx
    cases y with
    | plain y => exact ⟨y, hy, recoded.isPadding⟩
    | _ => cases recoded.isPayload

theorem owned_settle (stable : Item.Stable free P) (sound : Sound P s) (owned : Owned s)
    (run : (settle fuel).Gives s ⟨⟩ t) : Owned t := by
  induction fuel generalizing s with
  | zero =>
    obtain ⟨-, rfl⟩ := Action.gives_pure.1 run
    exact owned
  | succ fuel ih =>
    rcases gives_settle_succ.1 run with pass | ⟨u, pass, run⟩
    · exact pass.recoded.owned owned
    · have grown := pass.sound stable sound
      exact ih (grown.layout stable) (grown.linked.owned_layout (pass.recoded.owned owned)) run

/-! ## Payloads -/

/-- The payloads in the list are refreshed, and nothing else is changed. -/
structure Renewed (xs : List Nat) (s t : Sequence) : Prop where
  eq : t = { s with nodes := t.nodes }
  handle? : ∀ n, t.handle? n = s.handle? n
  address? : ∀ n, t.address? n = s.address? n
  renewed : ∀ n ∈ xs, ∀ x, s.item? n = some x → ∃ y, t.item? n = some y ∧ Item.refresh.Gives x ⟨⟩ y
  others : ∀ n, n ∉ xs ∨ s.item? n = none → t.item? n = s.item? n

theorem gives_refreshItem (h : (refreshItem n).Gives s ⟨⟩ t) : Renewed [n] s t := by
  have plain : ∀ x, Item.refresh.Gives (.plain x) ⟨⟩ (.plain x) := fun x => rfl
  unfold refreshItem at h
  obtain ⟨_, _, hs, h⟩ := Action.gives_bind.1 h
  obtain ⟨rfl, rfl⟩ := Action.gives_get.1 hs
  split at h
  · next i hi =>
    obtain ⟨-, rfl⟩ := Action.gives_pure.1 h
    refine ⟨rfl, fun _ => rfl, fun _ => rfl, fun m hm x hx => ?_, fun _ _ => rfl⟩
    obtain rfl := List.mem_singleton.1 hm
    rw [show s.item? m = some (.plain i) from hi] at hx
    cases hx
    exact ⟨_, hi, plain i⟩
  · next hi =>
    obtain ⟨-, rfl⟩ := Action.gives_pure.1 h
    refine ⟨rfl, fun _ => rfl, fun _ => rfl, fun m hm x hx => ?_, fun _ _ => rfl⟩
    obtain rfl := List.mem_singleton.1 hm
    rw [show s.item? m = none from hi] at hx
    cases hx
  · next x _ hx =>
    rcases e : Item.refresh.apply x with ⟨r, y⟩
    simp only [e, Action.gives_bind, Action.gives_modify, Action.gives_lift] at h
    obtain ⟨_, _, rfl, rfl, rfl⟩ := h
    refine ⟨rfl, fun _ => handle?_modifyItem _, fun _ => address?_modifyItem _, fun m hm z hz => ?_, fun m hm => ?_⟩
    · obtain rfl := List.mem_singleton.1 hm
      rw [show s.item? m = some x from hx] at hz
      cases hz
      exact ⟨y, by rw [item?_modifyItem, if_pos rfl, show s.item? m = some x from hx]; rfl, e⟩
    · rw [item?_modifyItem]
      split
      · next e =>
        subst e
        rcases hm with hm | hm
        · exact absurd (List.mem_singleton_self n) hm
        · rw [hm]
          rfl
      · rfl

theorem renewed_of_each (h : Action.Each refreshItem xs s t) (nodup : xs.Nodup) : Renewed xs s t := by
  induction h with
  | nil s => exact ⟨rfl, fun _ => rfl, fun _ => rfl, fun n hn => (by cases hn), fun _ _ => rfl⟩
  | @cons n xs s u t head _ ih =>
    obtain ⟨fresh, nodup⟩ := List.nodup_cons.1 nodup
    have first := gives_refreshItem head
    have rest := ih nodup
    refine ⟨by rw [rest.eq, first.eq], fun m => (rest.handle? m).trans (first.handle? m),
      fun m => (rest.address? m).trans (first.address? m), fun m hm x hx => ?_, fun m hm => ?_⟩
    · rcases List.mem_cons.1 hm with rfl | later
      · obtain ⟨y, hy, e⟩ := first.renewed m (List.mem_singleton_self m) x hx
        exact ⟨y, by rw [rest.others m (.inl fresh), hy], e⟩
      · have ne : m ∉ [n] := by
          rintro e
          obtain rfl := List.mem_singleton.1 e
          exact fresh later
        exact rest.renewed m later x (by rw [first.others m (.inl ne), hx])
    · have before : u.item? m = s.item? m := by
        refine first.others m (hm.imp_left fun hm e => hm ?_)
        obtain rfl := List.mem_singleton.1 e
        exact List.mem_cons_self
      rw [rest.others m (hm.imp (fun hm e => hm (List.mem_cons_of_mem _ e)) fun hm => by rw [before, hm]), before]

theorem Renewed.sound (stable : Item.Stable free P) (h : Renewed xs s t) (hs : Sound P s) : Sound P t where
  linked := by
    have items : t.items = s.items := by rw [h.eq]
    have arena : t.arena = s.arena := by rw [h.eq]
    rw [items]
    exact hs.linked.congr h.handle? arena
  holds n y hy := by
    by_cases hn : n ∈ xs
    · cases hx : s.item? n with
      | none =>
        rw [h.others n (.inr hx), hx] at hy
        cases hy
      | some x =>
        obtain ⟨y', hy', e⟩ := h.renewed n hn x hx
        rw [hy] at hy'
        cases hy'
        exact stable.refreshed e (hs.holds n x hx)
    · rw [h.others n (.inl hn)] at hy
      exact hs.holds n y hy

theorem Renewed.laid (h : Renewed xs s t) (laid : Laid s a xs b) : Laid t a xs b := by
  refine laid.resize h.address? fun n hn x hx => ?_
  obtain ⟨y, hy, e⟩ := h.renewed n hn x hx
  obtain ⟨-, units, padding, payload, -⟩ := Item.gives_refresh e
  refine ⟨y, hy, payload, ?_⟩
  unfold Item.extent
  rw [units, padding]

theorem Renewed.owned (h : Renewed xs s t) (hs : Owned s) : Owned t := by
  have either : ∀ n x, s.item? n = some x →
      ∃ y, t.item? n = some y ∧ y.owner? = x.owner? ∧ ∀ i, x = .plain i → y = x := by
    intro n x hx
    by_cases hn : n ∈ xs
    · obtain ⟨y, hy, e⟩ := h.renewed n hn x hx
      obtain ⟨-, -, -, -, -, owner, plain⟩ := Item.gives_refresh e
      exact ⟨y, hy, owner, plain⟩
    · exact ⟨x, by rw [h.others n (.inl hn), hx], rfl, fun _ _ => rfl⟩
  refine hs.transfer (by rw [h.eq]) h.handle? (fun n y hy => ?_) fun n x hx => ?_
  · cases hx : s.item? n with
    | none =>
      rw [h.others n (.inr hx), hx] at hy
      cases hy
    | some x =>
      obtain ⟨y', hy', e, -⟩ := either n x hx
      rw [hy] at hy'
      cases hy'
      exact ⟨x, rfl, e⟩
  · obtain ⟨y, hy, -, plain⟩ := either n _ hx
    rw [plain x rfl] at hy
    exact ⟨x, hy, rfl⟩

/-! ## The whole -/

theorem gives_refresh :
    refresh.Gives s ⟨⟩ t ↔ s.depth = 0 ∧ ∃ u v, (settle (2 * s.relink.items.size + 1)).Gives s.relink ⟨⟩ u ∧
      Action.Each refreshItem u.items.toList u v ∧ t = { v with size := v.size.map (·.set v.units) } := by
  unfold refresh
  simp only [Action.gives_bind, Action.gives_get]
  constructor
  · rintro ⟨_, _, ⟨rfl, rfl⟩, h⟩
    split at h
    · simp at h
    · next flat =>
      simp only [Action.gives_bind, Action.gives_modify, Action.gives_get] at h
      obtain ⟨_, _, rfl, _, _, ⟨rfl, rfl⟩, _, u, settled, _, _, ⟨rfl, rfl⟩, _, v, loop, rfl⟩ := h
      exact ⟨by omega, u, v, settled, Action.gives_forIn.1 loop, rfl⟩
  · rintro ⟨flat, u, v, settled, loop, rfl⟩
    refine ⟨s, s, ⟨rfl, rfl⟩, ?_⟩
    rw [if_neg (by omega)]
    simp only [Action.gives_bind, Action.gives_modify, Action.gives_get]
    exact ⟨⟨⟩, _, rfl, _, _, ⟨rfl, rfl⟩, ⟨⟩, u, settled, _, _, ⟨rfl, rfl⟩, ⟨⟩, v, Action.gives_forIn.2 loop, rfl⟩

/-- After a successful `refresh` the items are in a row, and the size cell was set to the number of code units. -/
theorem laid_refresh (stable : Item.Stable free P) (sound : Sound P s) (run : refresh.Gives s ⟨⟩ t) :
    Laid t 0 t.items.toList t.units ∧ t.size = s.size.map (·.set t.units) := by
  obtain ⟨-, u, v, settled, loop, rfl⟩ := gives_refresh.1 run
  obtain ⟨sound', laid, carries⟩ := leaves_settle_relink stable sound settled
  have renewed := renewed_of_each loop sound'.linked.nodup
  have items : v.items = u.items := by rw [renewed.eq]
  have units : v.units = u.units := by rw [renewed.eq]
  have row : Laid v 0 v.items.toList v.units := by
    rw [items, units]
    exact renewed.laid laid
  refine ⟨row.congr fun _ _ => rfl, ?_⟩
  have size : v.size = s.size := by
    have e : v.size = u.size := by rw [renewed.eq]
    rw [e, carries.size, sound.linked.relink_evolves.toCarries.size]
  rw [size]

theorem leaves_refresh (stable : Item.Stable free P) (sound : Sound P s) (run : refresh.Gives s ⟨⟩ t) : Leaves P s t := by
  obtain ⟨laid, -⟩ := laid_refresh stable sound run
  obtain ⟨-, u, v, settled, loop, rfl⟩ := gives_refresh.1 run
  obtain ⟨sound', -, carries⟩ := leaves_settle_relink stable sound settled
  have renewed := renewed_of_each loop sound'.linked.nodup
  refine ⟨(renewed.sound stable sound').congr rfl rfl rfl, ⟨fun _ => laid, fun _ upright => ?_⟩, ?_⟩
  · have relinked := sound.linked.owned_relink (sound.solidSwitches upright)
    exact (renewed.owned (owned_settle stable (sound.relink stable) relinked settled)).congr rfl rfl
  · refine (sound.linked.relink_evolves.buried.trans carries.buried).trans (.of_arena_eq ?_)
    change v.arena = u.arena
    rw [renewed.eq]

end Dalvik.Sequence
