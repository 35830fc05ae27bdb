import Dalvik.Proofs.CodeItem.Refreshing
import Dalvik.Proofs.CodeItem.Removal

/-!
# What a refreshed code item writes can be read

`Worked` are the code items that decoding, assembling and edits lead to. What every step of the
instructions keeps holds in all of them (`Lasting.of_worked`), so the instructions and the fields of
the handlers can be decoded again (`Kept`). A `refresh` that succeeds then leaves a `Storable` item,
and decoding its encoding gives an item that looks the same (`refresh_reads_back`).
-/

namespace Dalvik

/-! ## Fields -/

namespace CatchHandler

variable {h : CatchHandler}

theorem Fair.updateSize (fair : h.Fair) : h.updateSize.Fair := ⟨fair.size.set _, fair.pairs, fair.allAddress⟩

theorem fair_empty : ({} : CatchHandler).Fair :=
  ⟨Sleb.fair_mk 0, fun _ hp => absurd hp List.not_mem_nil, Uleb.fair_mk 0⟩

theorem Fair.setAll (fair : h.Fair) (all : Handle) : (h.setAll all).Fair :=
  ⟨fair.size.set _, fair.pairs, fair.allAddress⟩

theorem Fair.addPair (fair : h.Fair) (type : Int) (handler : Handle) : (h.addPair type handler).Fair := by
  refine ⟨fair.size.set _, fun p hp => ?_, fair.allAddress⟩
  rcases List.mem_append.1 hp with hp | hp
  · exact fair.pairs p hp
  · rw [List.mem_singleton.1 hp]
    exact ⟨(Uleb.fair_mk 0).set _, Uleb.fair_mk 0⟩

theorem Fair.retarget (fair : h.Fair) (source dest : Handle) : (h.retarget source dest).Fair := by
  refine ⟨fair.size, fun p hp => ?_, fair.allAddress⟩
  obtain ⟨q, hq, rfl⟩ := List.mem_map.1 hp
  exact fair.pairs q hq

theorem Raw.fair (raw : h.Raw) : h.Fair where
  size := raw.size.fair
  pairs p hp := ⟨(raw.pairs p hp).type.fair, (raw.pairs p hp).address.fair⟩
  allAddress := by
    have all := raw.allAddress
    split at all
    · exact all.fair
    · rw [all]
      exact Uleb.fair_mk 0

end CatchHandler

namespace CodeItem

open Assembly (Body)
open Sequence (loose_legible)

variable {c d : CodeItem} {s t : Sequence} {table : Table CatchHandler} {slot : Nat}

/-! ## The list of handlers -/

theorem count_foldl_modifySlot (f : CatchHandler → CatchHandler) (slots : List Nat) (table : Table CatchHandler) :
    (slots.foldl (fun t s => t.modifySlot s f) table).count = table.count := by
  induction slots generalizing table with
  | nil => rfl
  | cons s slots ih => exact ih _

namespace Listed

theorem empty (count : Option Cell) : Listed { count } where
  nodup := List.nodup_nil
  filled _ hs := absurd hs List.not_mem_nil
  fair s h hs := by simp [Table.value?] at hs

theorem filled_of_fair {hs : List CatchHandler} (fair : ∀ h ∈ hs, h.Fair) (count : Option Cell) :
    Listed (Table.filled count hs) where
  nodup := List.nodup_range
  filled s hs := by
    rw [Table.value?_filled, List.getElem?_eq_getElem (List.mem_range.1 hs), Option.isSome_some]
  fair s h hs := by
    rw [Table.value?_filled] at hs
    exact fair h (List.mem_of_getElem? hs)

variable (listed : Listed table)
include listed

theorem updateCount : Listed table.updateCount := ⟨listed.nodup, listed.filled, listed.fair⟩

theorem create {h : CatchHandler} (fair : h.Fair) : Listed (table.create h).2 where
  nodup := listed.nodup
  filled s hs := by
    rw [Table.value?_create]
    split
    · rfl
    · exact listed.filled s hs
  fair s k hk := by
    rw [Table.value?_create] at hk
    split at hk
    · cases hk
      exact fair
    · exact listed.fair s k hk

theorem attach (there : (table.value? slot).isSome) : Listed (table.attach slot) where
  nodup := by
    unfold Table.attach
    split
    · exact listed.nodup
    · next absent =>
      rw [List.contains_iff_mem] at absent
      refine List.nodup_append.2 ⟨listed.nodup, List.nodup_singleton _, fun k hk j hj e => absent ?_⟩
      rwa [← List.mem_singleton.1 hj, ← e]
  filled s hs := by
    rw [Table.value?_attach]
    rcases Table.mem_order_attach.1 hs with hs | rfl
    · exact listed.filled s hs
    · exact there
  fair s h hs := listed.fair s h (by rwa [Table.value?_attach] at hs)

theorem clear : Listed table.clear where
  nodup := List.nodup_nil
  filled _ hs := absurd hs List.not_mem_nil
  fair s h hs := listed.fair s h (by rwa [Table.value?_clear] at hs)

end Listed

/-! ## What every item keeps -/

/-- The handlers are `Listed`, and the handler of each range is listed. -/
structure Guarded (c : CodeItem) : Prop where
  listed : Listed c.handlers
  counted : ∃ n : Uleb, n.Fair ∧ c.handlers.count = some (.uleb n)
  tries : ∀ x ∈ c.tries, ∀ s, x.handler = some s → s ∈ c.handlers.order

theorem exists_count_set {n : Uleb} (fair : n.Fair) (count : table.count = some (.uleb n)) :
    ∃ n : Uleb, n.Fair ∧ table.updateCount.count = some (.uleb n) :=
  ⟨_, fair.set table.order.length, by rw [Table.updateCount, count]; rfl⟩

namespace Guarded

theorem ranges (h : Guarded c) (handlers : d.handlers = c.handlers)
    (tries : ∀ x ∈ d.tries, ∃ y ∈ c.tries, x.handler = y.handler) : Guarded d where
  listed := handlers ▸ h.listed
  counted := handlers ▸ h.counted
  tries x hx s hs := by
    obtain ⟨y, hy, e⟩ := tries x hx
    exact handlers ▸ h.tries y hy s (e ▸ hs)

theorem congr (h : Guarded c) (tries : d.tries = c.tries) (handlers : d.handlers = c.handlers) : Guarded d :=
  h.ranges handlers fun x hx => ⟨x, tries ▸ hx, rfl⟩

variable (h : Guarded c)
include h

theorem modifyHandler {f : CatchHandler → CatchHandler} (fair : ∀ h, h.Fair → (f h).Fair) (slot : Nat) :
    Guarded { c with handlers := c.handlers.modifySlot slot f } :=
  ⟨h.listed.modifySlot fun k _ => fair k, h.counted, h.tries⟩

theorem newHandler {k : CatchHandler} (fair : k.Fair) : Guarded (c.newHandler k).2 :=
  ⟨h.listed.create fair, h.counted, h.tries⟩

theorem addTry (there : (c.handlers.value? slot).isSome) (first past : Handle) : Guarded (c.addTry first past slot) where
  listed := h.listed.attach there
  counted := by
    obtain ⟨n, fair, count⟩ := h.counted
    change ∃ n : Uleb, n.Fair ∧ (c.handlers.attach slot).count = some (.uleb n)
    unfold Table.attach
    split
    · exact ⟨n, fair, count⟩
    · exact exists_count_set fair count
  tries x hx s hs := by
    refine Table.mem_order_attach.2 ?_
    rcases List.mem_append.1 hx with hx | hx
    · exact .inl (h.tries x hx s hs)
    · rw [List.mem_singleton.1 hx] at hs
      exact .inr (Option.some.inj hs).symm

theorem addNewTry (first past : Handle) : Guarded ((c.newHandler {}).2.addTry first past (c.newHandler {}).1) := by
  have there : ((c.newHandler {}).2.handlers.value? (c.newHandler {}).1).isSome := by
    change ((c.handlers.create {}).2.value? c.handlers.slots.size).isSome
    rw [Table.value?_create, if_pos rfl, Option.isSome_some]
  exact (h.newHandler CatchHandler.fair_empty).addTry there first past

theorem updateCounts : Guarded c.updateCounts where
  listed := (h.listed.foldl_modifySlot (fun _ fair => fair.updateSize) c.handlers.order).updateCount
  counted := by
    obtain ⟨n, fair, count⟩ := h.counted
    exact exists_count_set fair ((count_foldl_modifySlot _ _ _).trans count)
  tries x hx s hs := by
    have order := order_foldl_modifySlot CatchHandler.updateSize c.handlers.order c.handlers
    exact order ▸ h.tries x hx s hs

theorem retarget (source dest : Handle) : Guarded (c.retarget source dest) where
  listed := h.listed.foldl_modifySlot (fun _ fair => fair.retarget source dest) c.handlers.order
  counted := by
    obtain ⟨n, fair, count⟩ := h.counted
    exact ⟨n, fair, (count_foldl_modifySlot _ _ _).trans count⟩
  tries x hx s hs := by
    obtain ⟨y, hy, rfl⟩ := List.mem_map.1 hx
    have order := order_foldl_modifySlot (fun k => k.retarget source dest) c.handlers.order c.handlers
    exact order ▸ h.tries y hy s hs

theorem foldl_retarget (moves : List (Handle × Handle)) : Guarded (moves.foldl (fun c m => c.retarget m.1 m.2) c) :=
  List.foldlRecOn moves _ h fun _ here m _ => here.retarget m.1 m.2

end Guarded

/-- Ranges and handlers follow a change of the instructions. -/
theorem Guarded.onCode {α : Type} {act : Action Sequence α} {a : α} (h : Guarded c) (run : (onCode act).Gives c a d) :
    ∃ t, act.Gives c.code a t ∧ d.code = { t with moves := #[] } ∧ Guarded d := by
  obtain ⟨t, ran, rfl⟩ := gives_onCode.1 run
  have before : Guarded { c with code := { t with moves := #[] } } := h.congr rfl rfl
  exact ⟨t, ran, code_foldl _, before.foldl_retarget _⟩

/-! ## Refreshing -/

theorem Guarded.rebuilt {ks : List CatchHandler} {zs : List TryItem} (h : Guarded c) (rebuilt : Rebuilt c d table ks zs) :
    Guarded d := by
  have listed := rebuilt.listed h.listed
  obtain ⟨n, fair, count⟩ := h.counted
  have counted : table.count = some (.uleb n) := rebuilt.count.trans count
  rw [rebuilt.eq]
  split
  · next empty =>
    rw [List.isEmpty_iff.1 empty]
    exact ⟨listed.clear, exists_count_set fair counted, fun _ hx => absurd hx List.not_mem_nil⟩
  · refine ⟨listed, ⟨n, fair, counted⟩, fun z hz s hs => ?_⟩
    obtain ⟨x, hx, y, k, ⟨a, b, -, -, -, -, rfl⟩, -, rfl⟩ := rebuilt.tries z hz
    exact rebuilt.order ▸ h.tries x hx s hs

/-- The parts of a `refresh` that succeeds: the refreshed instructions `t`, the item `b` with its counts, and its
ranges and handlers. -/
theorem Guarded.exists_rebuilt (h : Guarded c) (run : refresh.Gives c ⟨⟩ d) : ∃ t b table ks zs,
    Sequence.refresh.Gives c.code ⟨⟩ t ∧ b.code = { t with moves := #[] } ∧ Guarded b ∧
      (b.tries ≠ [] → ∃ n : Uleb, n.Fair ∧ b.handlers.count = some (.uleb (n.set b.handlers.order.length))) ∧
      Rebuilt b d table ks zs := by
  obtain ⟨b, moved, guards⟩ := gives_refresh.1 run
  obtain ⟨t, ran, code, here⟩ := h.onCode moved
  split at guards
  · next absent =>
    obtain ⟨table, ks, zs, rebuilt⟩ := rebuilt_of_refreshGuards here.listed.nodup guards
    refine ⟨t, b, table, ks, zs, ran, code, here, fun nonempty => absurd ?_ nonempty, rebuilt⟩
    obtain ⟨t', -, rfl⟩ := gives_onCode.1 moved
    rw [(followed_foldl t'.moves.toList).tries]
    exact List.map_eq_nil_iff.2 (List.isEmpty_iff.1 absent)
  · have counts := here.updateCounts
    obtain ⟨table, ks, zs, rebuilt⟩ := rebuilt_of_refreshGuards counts.listed.nodup guards
    obtain ⟨n, fair, count⟩ := here.counted
    refine ⟨t, b.updateCounts, table, ks, zs, ran, code, counts, fun _ => ⟨n, fair, ?_⟩, rebuilt⟩
    have same : b.updateCounts.handlers.count =
        (b.handlers.order.foldl (fun t s => t.modifySlot s CatchHandler.updateSize) b.handlers).count.map
          (·.set b.updateCounts.handlers.order.length) := rfl
    rw [same, count_foldl_modifySlot, count]
    rfl

/-! ## Every history -/

/-- Code items that were decoded or assembled, and what edits make of them. Handlers are changed such that their
fields can still be decoded, and a range is only given the handler of another range. -/
inductive Worked : CodeItem → Prop where
  | decode {c : CodeItem} {cur cur' : Cursor} {pool : Option Pool} (sane : cur.Sane)
      (run : (decode cur).Gives (new pool) cur' c) : Worked c
  | ofBody {c : CodeItem} {body : Body} {pool : Option Pool} (known : Sequence.Known body)
      (run : (ofBody body).Gives (new pool) ⟨⟩ c) : Worked c
  | edit {c d : CodeItem} {t : Sequence} {α : Type} {act : Action Sequence α} {a : α} (worked : Worked c)
      (step : Sequence.Step (fun x => x.isPadding = false) c.code t)
      (ran : act.Gives c.code a t) (run : (onCode act).Gives c a d) : Worked d
  | newHandler {c : CodeItem} {h : CatchHandler} (worked : Worked c) (fair : h.Fair) : Worked (c.newHandler h).2
  | addTry {c : CodeItem} {slot : Nat} (worked : Worked c) (there : (c.handlers.value? slot).isSome)
      (first past : Handle) : Worked (c.addTry first past slot)
  | modifyHandler {c : CodeItem} {f : CatchHandler → CatchHandler} (worked : Worked c)
      (fair : ∀ h, h.Fair → (f h).Fair) (slot : Nat) : Worked { c with handlers := c.handlers.modifySlot slot f }
  | outside {c d : CodeItem} (worked : Worked c) (code : d.code = c.code) (handlers : d.handlers = c.handlers)
      (tries : ∀ x ∈ d.tries, ∃ y ∈ c.tries, x.handler = y.handler) : Worked d
  | refresh {c d : CodeItem} (worked : Worked c) (run : refresh.Gives c ⟨⟩ d) : Worked d

theorem LinkedHandler.fair {h k : CatchHandler} (linked : LinkedHandler s h k) (fair : h.Fair) : k.Fair := by
  obtain ⟨pairs, -, rest⟩ := linked
  rw [rest]
  refine ⟨fair.size, fun q hq => ?_, fair.allAddress⟩
  obtain ⟨p, hp, handle, -, rfl⟩ := Sequence.exists_left pairs hq
  exact fair.pairs p hp

/-- What `decode` gives is `Guarded`. -/
theorem guarded_decode {cur cur' : Cursor} {pool : Option Pool} (sane : cur.Sane)
    (run : (decode cur).Gives (new pool) cur' c) : ∃ units cur₁ cur₂ t,
      (Sequence.decode cur₁).Gives { size := some (.int units), pool } cur₂ t ∧ c.code = { t with moves := #[] } ∧ Guarded c := by
  obtain ⟨b, cur₁, cur₂, t, headed, header, code, guards⟩ := (gives_decode sane).1 run
  obtain ⟨units, size⟩ := headed.code
  rw [size] at code
  have bare : Guarded { b with code := { t with moves := #[] } } := by
    refine ⟨?_, ?_, fun x hx => ?_⟩
    · rw [headed.handlers]
      exact .empty _
    · rw [headed.handlers]
      exact ⟨_, Uleb.fair_mk 0, rfl⟩
    · rw [headed.tries] at hx
      cases hx
  refine ⟨units, cur₁, cur₂, t, code, ?_⟩
  cases guards with
  | absent _ => exact ⟨rfl, bare⟩
  | @present padding ts us count hs ks cur' guarded even length fresh read raw size spans handlers tries =>
    refine ⟨rfl, .filled_of_fair (fun k hk => ?_) _, ⟨count, read.fair, rfl⟩, fun u hu s hs => ?_⟩
    · obtain ⟨h, hh, linked⟩ := Sequence.exists_left handlers hk
      obtain ⟨g, hg, e⟩ := mem_layoutFrom hh
      have fair := (raw g hg).fair
      exact linked.fair (e ▸ ⟨fair.size, fair.pairs, fair.allAddress⟩)
    · obtain ⟨x, -, linked⟩ := Sequence.exists_left tries hu
      rw [← linked.handler] at hs
      have inside := List.mem_of_find?_eq_some hs
      exact inside

/-! ## What lasts -/

/-- `I` holds of new and of decoded instructions, and is kept by every step. -/
structure Lasting (I : Sequence → Prop) : Prop where
  new : ∀ (size : Option Cell) (pool : Option Pool), I { size, pool }
  decode : ∀ {cur cur' : Cursor} {size : Option Cell} {pool : Option Pool} {t : Sequence},
    (Sequence.decode cur).Gives { size, pool } cur' t → I t
  step : ∀ {s t : Sequence}, Sequence.Step (fun x => x.isPadding = false) s t → I s → I t

/-- `I` holds of the instructions, and the item is `Guarded`. -/
structure InOrder (I : Sequence → Prop) (c : CodeItem) : Prop where
  code : I c.code
  guarded : Guarded c

variable {I : Sequence → Prop}

theorem InOrder.of_code_eq (h : InOrder I c) (code : d.code = c.code) (guarded : Guarded d) : InOrder I d :=
  ⟨code ▸ h.code, guarded⟩

namespace Lasting

variable (lasting : Lasting I)
include lasting

theorem follow (holds : I t) (code : c.code = { t with moves := #[] }) (guarded : Guarded c) : InOrder I c :=
  ⟨code ▸ lasting.step (.outside t t.size t.pool #[]) holds, guarded⟩

theorem guarding : Guarding (InOrder I) where
  pool c pool h := ⟨lasting.step (.outside c.code c.code.size pool c.code.moves) h.code, h.guarded.congr rfl rfl⟩
  addTry _ first past h := h.of_code_eq rfl (h.guarded.addNewTry first past)
  setAll _ slot all h := h.of_code_eq rfl (h.guarded.modifyHandler (fun _ fair => fair.setAll all) slot)
  addPair _ slot type handler h :=
    h.of_code_eq rfl (h.guarded.modifyHandler (fun _ fair => fair.addPair type handler) slot)

theorem of_refresh (h : InOrder I c) (run : refresh.Gives c ⟨⟩ d) : InOrder I d := by
  obtain ⟨t, b, table, ks, zs, ran, code, here, -, rebuilt⟩ := h.guarded.exists_rebuilt run
  exact lasting.follow (lasting.step (.refresh ran) h.code) (rebuilt.code.trans code) (here.rebuilt rebuilt)

theorem of_decode {cur cur' : Cursor} {pool : Option Pool} (sane : cur.Sane)
    (run : (CodeItem.decode cur).Gives (CodeItem.new pool) cur' c) : InOrder I c := by
  obtain ⟨units, cur₁, cur₂, t, read, code, guarded⟩ := guarded_decode sane run
  exact lasting.follow (lasting.decode read) code guarded

/-- What `ofBody` gives is `InOrder`. -/
theorem of_ofBody {body : Body} {pool : Option Pool} (known : Sequence.Known body)
    (run : (ofBody body).Gives (CodeItem.new pool) ⟨⟩ c) : InOrder I c := by
  obtain ⟨labels, t, outs, _, d, ran, -, caught, refreshed⟩ := gives_ofBody.1 run
  have guarded : Guarded ((CodeItem.new pool).started body t outs) :=
    ⟨.clear (.empty _), ⟨_, Uleb.fair_mk 0, rfl⟩, fun _ hx => absurd hx List.not_mem_nil⟩
  have started := lasting.follow (lasting.step (.addElements known ran) (lasting.new _ _)) rfl guarded
  exact lasting.of_refresh ((lasting.guarding.catches labels body.elements).gives started caught) refreshed

theorem of_worked (worked : Worked c) : InOrder I c := by
  induction worked with
  | decode sane run => exact lasting.of_decode sane run
  | ofBody known run => exact lasting.of_ofBody known run
  | edit _ step ran run ih =>
    obtain ⟨t, ran', code, guarded⟩ := ih.guarded.onCode run
    obtain rfl := congrArg Prod.snd (ran.symm.trans ran')
    exact lasting.follow (lasting.step step ih.code) code guarded
  | newHandler _ fair ih => exact ih.of_code_eq rfl (ih.guarded.newHandler fair)
  | addTry _ there first past ih => exact ih.of_code_eq rfl (ih.guarded.addTry there first past)
  | modifyHandler _ fair slot ih => exact ih.of_code_eq rfl (ih.guarded.modifyHandler fair slot)
  | outside _ code handlers tries ih => exact ih.of_code_eq code (ih.guarded.ranges handlers tries)
  | refresh _ run ih => exact lasting.of_refresh ih run

end Lasting

/-- The instructions can be decoded from their encoding, and the item is `Guarded`. -/
structure Kept (c : CodeItem) : Prop where
  sound : Sequence.Sound (fun x => x.Shaped ∧ x.Sealed ∧ x.Legible) c.code
  tidy : Sequence.Tidy (fun x => x.Shaped ∧ x.Sealed ∧ x.Legible) c.code
  guarded : Guarded c

theorem lasting_legible : Lasting fun s => Sequence.Sound (fun x => x.Shaped ∧ x.Sealed ∧ x.Legible) s ∧
    Sequence.Tidy (fun x => x.Shaped ∧ x.Sealed ∧ x.Legible) s where
  new size pool := ⟨Sequence.sound_new size pool, Sequence.tidy_new size pool⟩
  decode read := Sequence.sound_decode Item.stable_legible (Sequence.sound_new _ _).holds read
  step step h := by
    have leaves := step.keeps Item.stable_legible loose_legible h.1 h.2
    exact ⟨leaves.sound, leaves.tidy⟩

theorem Worked.kept (worked : Worked c) : Kept c := by
  obtain ⟨⟨sound, tidy⟩, guarded⟩ := lasting_legible.of_worked worked
  exact ⟨sound, tidy, guarded⟩

/-- After a `refresh`, the size of the instructions is the number of code units. -/
theorem Kept.exists_rebuilt (kept : Kept c) (run : refresh.Gives c ⟨⟩ d) : ∃ t b table ks zs,
    Sequence.refresh.Gives c.code ⟨⟩ t ∧ t.size = c.code.size.map (·.set t.units) ∧ b.code = { t with moves := #[] } ∧
      Kept b ∧ (b.tries ≠ [] → ∃ n : Uleb, n.Fair ∧ b.handlers.count = some (.uleb (n.set b.handlers.order.length))) ∧
      Rebuilt b d table ks zs := by
  obtain ⟨t, b, table, ks, zs, ran, code, here, count, rebuilt⟩ := kept.guarded.exists_rebuilt run
  have size : t.size = c.code.size.map (·.set t.units) :=
    (Sequence.upToDate_refresh kept.sound.sealed_of_legible ran).2.1
  obtain ⟨⟨sound, tidy⟩, -⟩ := lasting_legible.follow (lasting_legible.step (.refresh ran) ⟨kept.sound, kept.tidy⟩) code here
  exact ⟨t, b, table, ks, zs, ran, size, code, ⟨sound, tidy, here⟩, count, rebuilt⟩

/-! ## Reading it back -/

/-- `removeAt` is an edit of the instructions that ranges and handlers follow. -/
theorem exists_removeAt_of_gives {i : Int} {n : Nat} (run : (removeAt i).Gives c n d) :
    ∃ (t : Sequence) (act : Action Sequence Nat), c.code.removeAt i = .ok (n, t) ∧ act.Gives c.code n t ∧
      (onCode act).Gives c n d := by
  obtain ⟨t, ran, -⟩ := gives_onCode.1 run
  have removed := ran
  simp only [Action.gives_bind, Action.gives_get, Action.gives_lift, Action.gives_set, Action.gives_pure] at removed
  obtain ⟨_, _, ⟨rfl, rfl⟩, ⟨m, s⟩, _, ⟨removed, rfl⟩, _, _, rfl, rfl, rfl⟩ := removed
  exact ⟨_, _, removed, ran, run⟩

theorem Worked.removeAt {i : Int} {n : Nat} (worked : Worked c) (run : (removeAt i).Gives c n d) : Worked d := by
  obtain ⟨t, act, removed, ran, run⟩ := exists_removeAt_of_gives run
  exact .edit worked (.removeAt removed) ran run

/-- After a `refresh` that succeeds on a `Worked` code item whose branches and switches are `Matched`, the ranges are
sorted, and `decode` takes all bytes of the encoding and gives an item that `Mirrors` it, if the result is `Compact`.
-/
theorem refresh_reads_back {cur cur' : Cursor} (worked : Worked c) (matched : c.code.Matched)
    (run : refresh.Gives c ⟨⟩ d) (compact : Compact d) (sane : cur.Sane) (spans : cur.Spans d.bytes cur')
    (pool : Option Pool) : (d.tries.Pairwise fun x y => x.start ≤ y.start) ∧
      ∃ e, (decode cur).Gives (new pool) cur' e ∧ Mirrors d e := by
  have kept := worked.kept
  obtain ⟨t, b, table, ks, zs, ran, size, code, here, count, rebuilt⟩ := kept.exists_rebuilt run
  have after : d.code = { t with moves := #[] } := by
    rw [rebuilt.eq]
    exact code
  have small : Sequence.Compact t := by
    obtain ⟨only, cases, units⟩ := (after ▸ compact.code : Sequence.Compact { t with moves := #[] })
    exact ⟨only, cases, units⟩
  have size : t.size = some (.int (UInt32.ofInt t.units)) := by
    obtain ⟨u, wide⟩ := compact.size
    rw [after] at wide
    obtain ⟨cell, e, set⟩ := Option.map_eq_some_iff.1 (size.symm.trans wide)
    cases cell <;> cases set
    rw [size, e]
    rfl
  have ready : Ready t b := {
    code
    storable := Sequence.storable_refresh kept.sound matched ran small
    size
    listed := here.guarded.listed
    tries := here.guarded.tries
    count }
  exact ⟨rebuilt.ascending ready compact, (rebuilt.storable ready compact).exists_decode sane spans pool⟩

/-- A switch and its cases in a range. The instruction between the switch and the table is removed, and with it the
padding in front of the table. -/
theorem refresh_reads_back_switch :
    let cur := Cursor.ofBytes [1, 0, 0, 0, 0, 0, 1, 0, 0, 0, 0, 0, 12, 0, 0, 0,
      0x2b, 0, 6, 0, 0, 0, 0, 0, 0x0e, 0, 0, 0, 0, 1, 1, 0, 0, 0, 0, 0, 4, 0, 0, 0,
      0, 0, 0, 0, 5, 0, 1, 0, 1, 0, 4]
    let bytes : Bytes := [1, 0, 0, 0, 0, 0, 1, 0, 0, 0, 0, 0, 10, 0, 0, 0,
      0x2b, 0, 4, 0, 0, 0, 0x0e, 0, 0, 1, 1, 0, 0, 0, 0, 0, 3, 0, 0, 0,
      0, 0, 0, 0, 4, 0, 1, 0, 1, 0, 3]
    let after := Cursor.ofBytes (bytes ++ [0xff])
    ∃ b c d e, (decode cur).Gives (new none) { cur with pos := 51 } b ∧ (removeAt 1).Gives b 1 c ∧ c.code.Matched ∧
      refresh.Gives c ⟨⟩ d ∧ Compact d ∧ d.bytes = bytes ∧
      (decode after).Gives (new none) { after with pos := 47 } e ∧ Mirrors d e := by
  intro cur bytes after
  let b := ((decode cur).apply (new none)).2
  let c := ((removeAt 1).apply b).2
  let d := (refresh.apply c).2
  have read : (decode cur).Gives (new none) { cur with pos := 51 } b := Action.gives_of_toOption (by decide +kernel)
  have removed : (removeAt 1).Gives b 1 c := Action.gives_of_toOption (by decide +kernel)
  have run : refresh.Gives c ⟨⟩ d := Action.gives_of_toOption (by decide +kernel)
  have worked : Worked c := (Worked.decode ⟨by decide +kernel, Nat.zero_le _⟩ read).removeAt removed
  have matched : c.code.Matched := by decide +kernel
  have compact : Compact d := {
    code := by decide +kernel
    size := ⟨10, by decide +kernel⟩
    tries := by decide +kernel
    handlers := by decide +kernel
    catches := by decide +kernel }
  have written : d.bytes = bytes := by decide +kernel
  have sane : after.Sane := ⟨by decide +kernel, Nat.zero_le _⟩
  have spans : after.Spans d.bytes { after with pos := 47 } := by
    rw [written]
    exact ⟨List.prefix_append _ _, rfl⟩
  obtain ⟨-, e, reread, mirrors⟩ := refresh_reads_back worked matched run compact sane spans none
  exact ⟨b, c, d, e, read, removed, matched, run, compact, written, reread, mirrors⟩

end CodeItem

end Dalvik
