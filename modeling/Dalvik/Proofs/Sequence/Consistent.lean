import Dalvik.Proofs.Cell
import Dalvik.Proofs.Sequence.Reach
import Dalvik.Proofs.Sequence.Settling

/-!
# What refreshing leaves

`UpToDate t` says that the addresses, offsets and counts that are stored in `t` agree with each
other, and `Paired s t` that the switch tables of `t` lead where those of `s` led. Both hold after
every successful `refresh` of a sequence that was reached by edits (`refresh_of_worked`).
-/

namespace Dalvik

theorem Item.map_pairs (f : Handle → Handle) {x : Item} (payload : x.isPayload = true) :
    (x.pairs.map fun p => (p.1, f p.2.handle)) = x.caseKeys.zip (x.references.map f) := by
  have references : x.references = x.cases.map Case.handle := by
    cases x with
    | plain i => cases payload
    | _ => rfl
  rw [references, List.map_map, pairs, List.zip_map_right]
  rfl

namespace Sequence

variable {free : Instruction → Prop} {P : Item → Prop} {s t u : Sequence} {n m : Nat} {xs : List Nat} {a b : Nat}

/-! ## Adding up -/

/-- Items in a row end where their code units add up to. -/
theorem Laid.end_eq (h : Laid s a xs b) (full : ∀ n x, s.item? n = some x → x.extent = x.codeUnits) :
    b = a + total (xs.map s.unitsOf) := by
  induction xs generalizing a with
  | nil => exact h.symm
  | cons n xs ih =>
    obtain ⟨x, shape, -, rest⟩ := h
    obtain ⟨y, hy, rfl, -⟩ := shape?_eq_some.1 shape
    have room := full n y hy
    rw [ih rest, List.map_cons, total, unitsOf_of_item? hy, Item.unlinked_extent, room, Nat.add_assoc]

theorem Laid.address?_eq (h : Laid s a xs b) (full : ∀ n x, s.item? n = some x → x.extent = x.codeUnits)
    {ys zs : List Nat} (split : xs = ys ++ n :: zs) : s.address? n = some ((a + total (ys.map s.unitsOf) : Nat) : Int) := by
  subst split
  obtain ⟨p, before, after⟩ := laid_append.1 h
  obtain ⟨x, shape, -⟩ := after
  rw [address?_of_shape? shape, before.end_eq full]

/-- Payloads in a row have even addresses. -/
theorem Laid.aligned (h : Laid s a xs b) (hn : n ∈ xs) {x : Item} (hx : s.item? n = some x) (payload : x.isPayload = true)
    {p : Int} (hp : s.address? n = some p) : p % 2 = 0 := by
  obtain ⟨ys, zs, rfl⟩ := List.append_of_mem hn
  obtain ⟨c, -, z, shape, even, -⟩ := laid_append.1 h
  obtain ⟨y, hy, rfl, hc⟩ := shape?_eq_some.1 shape
  rw [hx] at hy
  cases hy
  rw [hp] at hc
  cases hc
  have := even (by rw [Item.unlinked_isPayload, payload])
  omega

theorem total_byteCount (shaped : ∀ n x, s.item? n = some x → x.Shaped) (ns : List Nat) :
    total ((ns.filterMap s.node?).map fun x => x.item.byteCount) = 2 * total (ns.map s.unitsOf) := by
  induction ns with
  | nil => rfl
  | cons n xs ih =>
    cases hx : s.node? n with
    | none =>
      have absent : s.unitsOf n = 0 := by rw [unitsOf, item?, hx]; rfl
      rw [List.filterMap_cons_none hx, ih, List.map_cons, total, absent, Nat.zero_add]
    | some x =>
      have item := item?_of_node? hx
      rw [List.filterMap_cons_some hx, List.map_cons, total, ih, List.map_cons, total, unitsOf_of_item? item,
        (shaped n _ item).byteCount_eq, Nat.mul_add]

theorem byteCount_eq (shaped : ∀ n x, s.item? n = some x → x.Shaped) :
    s.byteCount = 2 * total (s.items.toList.map s.unitsOf) := total_byteCount shaped s.items.toList

/-! ## Addresses, offsets and sizes -/

/-- All that is stored about addresses in the sequence agrees. -/
structure UpToDate (t : Sequence) : Prop where
  /-- The address of an item is the number of code units before it. -/
  address : ∀ ys n zs, t.items.toList = ys ++ n :: zs → t.address? n = some (total (ys.map t.unitsOf) : Int)
  units : t.units = total (t.items.toList.map t.unitsOf)
  byteCount : t.byteCount = 2 * t.units
  aligned : ∀ n ∈ t.items.toList, ∀ x a, t.item? n = some x → x.isPayload = true → t.address? n = some a → a % 2 = 0
  /-- The target of a branch is an item, and the offset is the distance to it. -/
  target : ∀ n ∈ t.items.toList, ∀ x, t.item? n = some (.plain x) → x.hasTarget = true →
    ∃ m ∈ t.items.toList, ∃ a b d, t.named? x.target = some m ∧ t.address? n = some a ∧ t.address? m = some b ∧
      x.data = .ok d ∧ a + d = b
  /-- The owner of a table is an item, and the offsets of the cases count from there. -/
  cases : ∀ n ∈ t.items.toList, ∀ x o, t.item? n = some x → x.owner? = some o → 0 ≤ o →
    ∃ w ∈ t.items.toList, ∃ base, t.named? o = some w ∧ t.address? w = some base ∧
      ∀ c ∈ x.cases, ∃ m ∈ t.items.toList, ∃ b, t.named? c.handle = some m ∧ t.address? m = some b ∧
        c.offset = UInt32.ofInt (b - base) ∧ (t.units ≤ 2 ^ 31 → signed32 c.offset = b - base)
  /-- The stored counts are right, and the values of a sparse table are sorted. -/
  refreshed : ∀ n ∈ t.items.toList, ∀ x, t.item? n = some x → x.Refreshed

/-- The tables of `t` have the values they have in `s`, and the handles of the cases are those of `s` after all
recorded moves. -/
def Paired (s t : Sequence) : Prop :=
  ∃ new, t.moves = s.moves ++ new ∧ ∀ n ∈ t.items.toList, ∀ y, t.item? n = some y → y.isPayload = true →
    ∃ x, s.item? n = some x ∧
      (y.pairs.map fun p => (p.1, p.2.handle)).Perm
        (x.pairs.map fun p => (p.1, Handle.follow new.toList p.2.handle))

/-! ## Refreshing -/

theorem upright_sealed : Upright fun x => x.Shaped ∧ x.Sealed := by
  intro x hx switch
  refine Bool.eq_false_iff.2 fun padding => ?_
  have nop : x.opcode = Opcode.nop := hx.2 padding
  rw [nop] at switch
  revert switch
  decide

/-- Refreshing the payloads keeps the offsets that were written. -/
theorem Renewed.written (h : Renewed xs s t) (hn : n ∈ xs) {x y : Item} (hx : s.item? n = some x)
    (hy : t.item? n = some y) (shaped : y.Shaped) (w : Written s n x) : Written t n y := by
  have arena : t.arena = s.arena := by rw [h.eq]
  have units : t.units = s.units := by rw [h.eq]
  have named : t.named? = s.named? := by
    funext k
    simp only [named?, arena]
  have address : t.address? = s.address? := funext h.address?
  have addressOf : t.addressOf? = s.addressOf? := by
    funext k
    unfold addressOf? namedNode?
    rw [named, units]
    cases s.named? k with
    | none => rfl
    | some m =>
      split
      · rfl
      · exact h.address? m
  obtain ⟨y', hy', e⟩ := h.renewed n hn x hx
  rw [hy] at hy'
  cases hy'
  obtain ⟨-, -, -, payload, -, owner, plain⟩ := Item.gives_refresh e
  refine ⟨fun i hi has => ?_, fun o base ho hb c hc => ?_⟩
  · have same : y = x := by
      cases x with
      | plain j => exact plain j rfl
      | _ => rw [hi] at payload; cases payload
    simpa only [named, address] using w.target i (same ▸ hi) has
  · have mem : c ∈ x.cases := by
      obtain ⟨k, hk⟩ := Item.mem_pairs_of_mem_cases shaped hc
      exact (List.of_mem_zip ((Item.pairs_refresh e).mem_iff.1 hk)).2
    rw [named, address]
    exact w.cases o base (by rw [← owner, ho]) (by rw [← addressOf, hb]) c mem

/-- Puts `UpToDate` together from what the last pass and the refreshing of payloads leave. -/
theorem upToDate_of (sound : Sound (fun x => x.Shaped ∧ x.Sealed) t) (row : Laid t 0 t.items.toList t.units) (owned : Owned t)
    (written : ∀ n ∈ t.items.toList, ∀ x, t.item? n = some x → Written t n x)
    (refreshed : ∀ n ∈ t.items.toList, ∀ x, t.item? n = some x → x.Refreshed) : UpToDate t := by
  have full : ∀ n x, t.item? n = some x → x.extent = x.codeUnits :=
    fun n x hx => Item.extent_eq_codeUnits (sound.holds n x hx)
  have units : t.units = total (t.items.toList.map t.unitsOf) := by rw [row.end_eq full, Nat.zero_add]
  -- Every address lies within the sequence.
  have within : ∀ m ∈ t.items.toList, ∀ b, t.address? m = some b → 0 ≤ b ∧ b < t.units := by
    intro m hm b hb
    obtain ⟨p, x, shape, -, le⟩ := row.mem hm
    have room := (sound.roomy Item.stable_sealed).extent_pos shape
    rw [address?_of_shape? shape] at hb
    cases hb
    omega
  refine {
    address := fun ys n zs split => ?_
    units
    byteCount := by rw [byteCount_eq fun n x hx => (sound.holds n x hx).1, units]
    aligned := fun n hn x a hx payload ha => ?_
    target := fun n hn x hx has => ?_
    cases := fun n hn x o hx ho nonneg => ?_
    refreshed }
  · rw [row.address?_eq full split, Nat.zero_add]
  · exact row.aligned hn hx payload ha
  · obtain ⟨m, a, b, hm, ha, hb, data⟩ := (written n hn _ hx).target x rfl has
    exact ⟨m, sound.linked.mem_of_named? hm, a, b, b - a, hm, ha, hb, data, by omega⟩
  · obtain ⟨w, z, hw, hz, -⟩ := owned n x o ((sound.linked.mem_iff n).1 hn) hx ho nonneg
    have memw := sound.linked.mem_of_named? hw
    obtain ⟨y, hy⟩ := sound.linked.node?_of_mem memw
    have base : t.address? w = some y.address := by rw [address?, hy, Option.map_some]
    refine ⟨w, memw, y.address, hw, base, fun c hc => ?_⟩
    have ne : o ≠ .finish := by
      rintro rfl
      cases nonneg
    obtain ⟨m, b, hm, hb, offset⟩ :=
      (written n hn x hx).cases o y.address ho ((addressOf?_eq_some ne).2 ⟨w, hw, base⟩) c hc
    have memm := sound.linked.mem_of_named? hm
    refine ⟨m, memm, b, hm, hb, offset, fun small => ?_⟩
    obtain ⟨lowb, highb⟩ := within m memm b hb
    obtain ⟨lowa, higha⟩ := within w memw _ base
    rw [offset, signed32_ofInt (by omega) (by omega)]

/-- The parts of a successful refresh: a last pass that widens nothing, over a sequence that is laid out, and then the
refreshing of the payloads. -/
theorem last_pass_of_refresh (sound : Sound (fun x => x.Shaped ∧ x.Sealed) s) (run : refresh.Gives s ⟨⟩ t) :
    ∃ w u v, Sound (fun x => x.Shaped ∧ x.Sealed) w ∧ Snug w ∧ Carries s w ∧ Encodes w.items.toList w false u ∧
      Renewed u.items.toList u v ∧ t = { v with size := v.size.map (·.set v.units) } := by
  have stable := Item.stable_sealed
  obtain ⟨-, u, v, settled, loop, rfl⟩ := gives_refresh.1 run
  obtain ⟨w, soundW, snug, pass, carries⟩ := last_pass stable (sound.relink stable) sound.linked.relink_snug
    (Nat.lt_succ_of_le s.relink.weight_le) settled
  exact ⟨w, u, v, soundW, snug, sound.linked.relink_evolves.toCarries.trans carries, pass,
    renewed_of_each loop (pass.sound stable soundW).linked.nodup, rfl⟩

theorem depth_refresh (sound : Sound (fun x => x.Shaped ∧ x.Sealed) s) (run : refresh.Gives s ⟨⟩ t) : t.depth = 0 := by
  have flat := (gives_refresh.1 run).1
  obtain ⟨w, u, v, -, -, carries, pass, renewed, rfl⟩ := last_pass_of_refresh sound run
  have e : v.depth = u.depth := by rw [renewed.eq]
  change v.depth = 0
  rw [e, (carries.trans pass.recoded.carries).depth, flat]

/-- After a refresh, the offsets of each item are the distances to what its handles name. -/
theorem written_refresh (sound : Sound (fun x => x.Shaped ∧ x.Sealed) s) (run : refresh.Gives s ⟨⟩ t) {y : Item}
    (hn : n ∈ t.items.toList) (hy : t.item? n = some y) : Written t n y ∧ ∃ x, Item.refresh.Gives x ⟨⟩ y := by
  have stable := Item.stable_sealed
  have shaped := ((leaves_refresh stable sound run).sound.holds n y hy).1
  obtain ⟨w, u, v, soundW, -, -, pass, renewed, rfl⟩ := last_pass_of_refresh sound run
  have items : v.items = u.items := by rw [renewed.eq]
  have mem : n ∈ u.items.toList := items ▸ hn
  obtain ⟨x, hx⟩ := (pass.sound stable soundW).linked.item?_of_mem mem
  obtain ⟨y', hy', e⟩ := renewed.renewed n mem x hx
  obtain rfl : y = y' := Option.some.inj (hy.symm.trans hy')
  have written := pass.written soundW.linked.nodup (pass.recoded.items ▸ mem) hx
  have final := renewed.written mem hx hy' shaped written
  exact ⟨⟨final.target, final.cases⟩, x, e⟩

/-- A successful refresh of a sound sequence gives `UpToDate` and `Paired`, and sets the size cell. -/
theorem upToDate_refresh (sound : Sound (fun x => x.Shaped ∧ x.Sealed) s) (run : refresh.Gives s ⟨⟩ t) :
    UpToDate t ∧ t.size = s.size.map (·.set t.units) ∧ Paired s t := by
  have stable := Item.stable_sealed
  have leaves := leaves_refresh stable sound run
  have flat := depth_refresh sound run
  have each : ∀ n ∈ t.items.toList, ∀ y, t.item? n = some y → Written t n y ∧ y.Refreshed := by
    intro n hn y hy
    obtain ⟨written, x, e⟩ := written_refresh sound run hn hy
    exact ⟨written, Item.refreshed_refresh e⟩
  obtain ⟨w, u, v, soundW, -, carries, pass, renewed, rfl⟩ := last_pass_of_refresh sound run
  have whole := carries.trans pass.recoded.carries
  refine ⟨upToDate_of leaves.sound (leaves.tidy.laid flat) (leaves.tidy.owned flat upright_sealed)
    (fun n hn y hy => (each n hn y hy).1) (fun n hn y hy => (each n hn y hy).2), ?_, ?_⟩
  · have size : v.size = s.size := by
      have e : v.size = u.size := by rw [renewed.eq]
      rw [e, whole.size]
    rw [size]
  · obtain ⟨new, moves, follow⟩ := whole.follows
    have items : v.items = u.items := by rw [renewed.eq]
    have moves' : v.moves = u.moves := by rw [renewed.eq]
    have linked := (pass.sound stable soundW).linked
    refine ⟨new, moves'.trans moves, fun n hn y hy payload => ?_⟩
    have mem : n ∈ u.items.toList := items ▸ hn
    obtain ⟨x, hx⟩ := linked.item?_of_mem mem
    obtain ⟨y', hy', e⟩ := renewed.renewed n mem x hx
    obtain rfl : y = y' := Option.some.inj (hy.symm.trans hy')
    have payload' : x.isPayload = true := by rw [← payload, (Item.gives_refresh e).2.2.2.1]
    obtain ⟨x₀, hx₀, payload₀⟩ := whole.payloads n x hx payload'
    obtain ⟨k, hk⟩ := linked.handle?_of_mem mem
    obtain ⟨references, keys⟩ := follow n x₀ x hx₀ hx (by rw [hk, Option.isSome_some])
    refine ⟨x₀, hx₀, ?_⟩
    have before := Item.map_pairs (Handle.follow new.toList) payload₀
    have after := Item.map_pairs id payload'
    rw [List.map_id, references, keys] at after
    rw [before, ← after]
    exact (Item.pairs_refresh e).map _

/-! ## Every history -/

/-- Sequences that decoding, successful steps and edits of items in place make of an empty one. Padding is never given
another opcode. -/
inductive Worked : Sequence → Prop where
  | new (size : Option Cell) (pool : Option Pool) : Worked { size, pool }
  | step {s t : Sequence} (worked : Worked s) (step : Step (fun x => x.isPadding = false) s t) : Worked t
  | decode {s t : Sequence} {c c' : Cursor} (worked : Worked s) (run : (decode c).Gives s c' t) : Worked t
  | edit {s : Sequence} {n : Nat} {x y : Item} (worked : Worked s) (hx : s.item? n = some x) (h : x.Edited y)
      (pool : Option Pool) : Worked { s.modifyItem n (fun _ => y) with pool }

theorem Owned.edit (h : Owned s) {x y : Item} (hx : s.item? n = some x) (edited : x.Edited y) (shaped : x.Shaped) :
    Owned (s.modifyItem n fun _ => y) := by
  obtain ⟨owner, payload⟩ := edited.owner?_isPayload
  refine h.transfer rfl (fun _ => handle?_modifyItem _) (fun m z hz => ?_) fun m z hz => ?_
  · rw [item?_modifyItem] at hz
    split at hz
    · next e =>
      subst e
      rw [hx] at hz
      cases hz
      exact ⟨x, hx, owner⟩
    · exact ⟨z, hz, rfl⟩
  · rw [item?_modifyItem]
    split
    · next e =>
      subst e
      rw [hx] at hz
      cases hz
      cases y with
      | plain y => exact ⟨y, by rw [hx, Option.map_some], edited.isPadding shaped⟩
      | _ => cases payload
    · exact ⟨z, hz, rfl⟩

theorem Worked.keeps (h : Worked s) : Sound (fun x => x.Shaped ∧ x.Sealed) s ∧ (s.depth = 0 → Owned s) := by
  have stable := Item.stable_sealed
  induction h with
  | new size pool =>
    have tidy : Tidy (fun x => x.Shaped ∧ x.Sealed) { size, pool } := tidy_new size pool
    exact ⟨sound_new size pool, fun flat => tidy.owned flat upright_sealed⟩
  | step _ step ih =>
    obtain ⟨sound, owned⟩ := ih
    rcases step.leaves stable (.inr ⟨upright_sealed, fun _ solid => solid⟩) sound fun flat _ => owned flat with
      leaves | ⟨quiet, sound'⟩
    · exact ⟨leaves.sound, fun flat => leaves.tidy.owned flat upright_sealed⟩
    · exact ⟨sound', fun flat => quiet.owned sound.linked (owned (quiet.depth ▸ flat))⟩
  | decode _ run ih =>
    obtain ⟨sound, tidy⟩ := sound_decode stable ih.1.holds run
    exact ⟨sound, fun flat => tidy.owned flat upright_sealed⟩
  | @edit s n x y _ hx edited pool ih =>
    obtain ⟨sound, owned⟩ := ih
    have modified : Sound (fun x => x.Shaped ∧ x.Sealed) (s.modifyItem n fun _ => y) := sound.modifyItem fun _ _ => edited.sealed (sound.holds _ _ hx)
    exact ⟨modified.congr rfl rfl rfl, fun flat => ((owned flat).edit hx edited (sound.holds _ _ hx).1).congr rfl rfl⟩

/-- After a successful `refresh` of a `Worked` sequence its addresses, offsets and counts agree (`UpToDate`), every table
has the cases it had (`Paired`), and the size cell was set to the number of code units, which it holds exactly if
that number is at most the `capacity` of the cell. -/
theorem refresh_of_worked (h : Worked s) (run : refresh.Gives s ⟨⟩ t) :
    UpToDate t ∧ Paired s t ∧ t.size = s.size.map (·.set t.units) ∧
      ∀ cell, t.size = some cell → (cell.get = t.units ↔ t.units ≤ cell.capacity) := by
  obtain ⟨upToDate, size, paired⟩ := upToDate_refresh h.keeps.1 run
  refine ⟨upToDate, paired, size, fun cell hcell => ?_⟩
  rw [size] at hcell
  obtain ⟨old, -, rfl⟩ := Option.map_eq_some_iff.1 hcell
  rw [Cell.get_set_iff, Cell.capacity_set]

/-- `const` is put behind the switch of what `paddedSwitch` decodes to. The table needs no padding then and moves to
unit 8, and after `refresh` its case leads from the switch over six units to the instruction it led to before. -/
theorem refresh_of_inserted : ∃ s t, Worked s ∧ s.items.toList = [0, 5, 1, 2, 4] ∧ refresh.Gives s ⟨⟩ t ∧
    t.units = 14 ∧ t.size.map Cell.get = some 14 ∧
    (t.item? 4).map (fun x => x.cases.map fun c => (signed32 c.offset, c.handle)) = some [(6, 1)] ∧
    UpToDate t ∧ Paired s t := by
  let s := ((decode paddedSwitch).apply { size := some (.int 12) }).2
  let const : Item := .plain (.blank ((Opcode.ofName? (ascii "const")).getD .nop))
  let edited := (insertItem 1 const).apply s
  have decoded : Worked s :=
    .decode (.new _ _) (Action.gives_of_toOption (a := { paddedSwitch with pos := 24 }) (by decide +kernel))
  have made : const.Made := Item.made_blank (by decide +kernel)
  have ends : edited.1.toOption = some 5 ∧ edited.2.items.toList = [0, 5, 1, 2, 4] ∧
      (refresh.apply edited.2).1.toOption = some ⟨⟩ ∧ (refresh.apply edited.2).2.units = 14 ∧
      (refresh.apply edited.2).2.size.map Cell.get = some 14 ∧
      ((refresh.apply edited.2).2.item? 4).map (fun x => x.cases.map fun c => (signed32 c.offset, c.handle)) =
        some [(6, 1)] := by decide +kernel
  obtain ⟨inserted, items, refreshed, units, size, cases⟩ := ends
  have worked : Worked edited.2 := .step decoded (.insertItem made (Action.gives_of_toOption inserted))
  have run := Action.gives_of_toOption refreshed
  obtain ⟨upToDate, paired, -⟩ := refresh_of_worked worked run
  exact ⟨edited.2, _, worked, items, run, units, size, cases, upToDate, paired⟩

/-- An array of 504 bytes, in a sequence whose size cell is one byte. -/
def byteCounted : Sequence :=
  (append { size := some (.byte 0) } (.array { count := 504, data := List.replicate 504 0 })).2

-- 256 code units do not fit, and `refresh` succeeds all the same.
example : (refresh.apply byteCounted).1.toOption.isSome ∧ (refresh.apply byteCounted).2.units = 256 ∧
    (refresh.apply byteCounted).2.size.map Cell.get = some 0 := by decide +kernel

end Sequence

end Dalvik
