import Dalvik.Proofs.CodeItem.Assembling

/-!
# Code items that are told and assembled again

`toBody` of a `Tellable` code item gives a body that `ofBody` accepts, and the result has the same
exception table: each range has its bounds, and its handler has its clauses in order
(`Tellable.exists_ofBody`).
-/

namespace Dalvik

open Dalvik.Action (except_bind_eq_ok)
open Assembly (Body Element)

theorem Action.exists_except_foldlM {α β : Type} {f : β → α → Except Stop β} {xs : List α}
    (turn : ∀ x ∈ xs, ∀ b, ∃ b', f b x = .ok b') (b : β) : ∃ b', xs.foldlM f b = .ok b' := by
  induction xs generalizing b with
  | nil => exact ⟨b, rfl⟩
  | cons x xs ih =>
    obtain ⟨u, head⟩ := turn x List.mem_cons_self b
    obtain ⟨v, rest⟩ := ih (fun y hy => turn y (List.mem_cons_of_mem _ hy)) u
    exact ⟨v, by rw [List.foldlM_cons, except_bind_eq_ok]; exact ⟨u, head, rest⟩⟩

namespace Sequence

variable {s t : Sequence} {ys : List Item} {n : Nat} {x : Item}

theorem exists_outsFor (shaped : ∀ n x, s.item? n = some x → x.Shaped) : ∃ outs, CodeItem.outsFor s = .ok outs := by
  refine Action.exists_except_foldlM (fun x hx k => ?_) 0
  obtain ⟨n, -, node⟩ := List.mem_filterMap.1 hx
  have here := shaped n _ (item?_of_node? node)
  cases item : x.item with
  | plain i =>
    rw [item] at here
    obtain ⟨m, count, -⟩ := Instruction.Fits.exists_registersCount (Instruction.Shaped.fits here)
    simp only [count]
    split <;> exact ⟨_, rfl⟩
  | _ => exact ⟨k, rfl⟩

end Sequence

namespace CodeItem

variable {c d : CodeItem} {labels : List (Bytes × Handle)} {body : Body} {es : List Element} {x y : Handle} {slot : Nat}
  {slots : List Nat} {table : Table CatchHandler} {h : CatchHandler} {o : Nat}

/-- A handle that is not the end has the position of its item. -/
theorem exists_position {a : Int} (linked : Sequence.Linked c.code c.code.items.toList) (before : x ≠ .finish)
    (there : c.code.addressOf? x = some a) : ∃ i : Nat, c.position x = i ∧ i < c.code.items.size ∧ c.code.addressAt i = a := by
  obtain ⟨m, named, address⟩ := (Sequence.addressOf?_eq_some before).1 there
  obtain ⟨i, hi, lt, here⟩ := Sequence.indexOf?_of_mem (linked.mem_of_named? named) address
  refine ⟨i, ?_, lt, here⟩
  rw [CodeItem.position, named, Option.bind_some, hi]
  rfl

theorem position_le_of_address_le {a b : Int} (linked : Sequence.Linked c.code c.code.items.toList) (increasing : c.code.Increasing)
    (hx : x ≠ .finish) (hy : y ≠ .finish) (ha : c.code.addressOf? x = some a) (hb : c.code.addressOf? y = some b) (le : a ≤ b) :
    c.position x ≤ c.position y := by
  obtain ⟨i, hi, lt, rfl⟩ := exists_position linked hx ha
  obtain ⟨j, hj, -, rfl⟩ := exists_position linked hy hb
  rw [hi, hj, Int.ofNat_le]
  by_contra gt
  have := increasing.addressAt_lt (Nat.lt_of_not_le gt) lt
  omega

/-! ## Labels -/

/-- The label is declared for a handle that has the address. -/
def Answered (labels : List (Bytes × Handle)) (s : Sequence) (e : Int × Bytes) : Prop :=
  ∃ k, labels.find? (·.1 == e.2) = some (e.2, k) ∧ s.addressOf? k = some e.1

theorem Answered.addressOf? {s : Sequence} {e : Int × Bytes} (answered : Answered labels s e) :
    s.addressOf? (lookup labels e.2) = some e.1 := by
  obtain ⟨k, found, there⟩ := answered
  rw [lookup_of_find? found, there]

namespace Tellable

variable {t : TryItem}

/-- Every handle of a range or its handler has the address that is stored for it. -/
theorem exists_marked (tellable : Tellable c) (ht : t ∈ c.tries) {e : Int × Bytes} (he : e ∈ marks t (c.handlerOf t)) :
    ∃ k, c.code.addressOf? k = some e.1 := by
  have placed := tellable.placed t ht
  have stored := (tellable.stored t ht).2
  simp only [marks, List.mem_append, List.mem_cons, List.not_mem_nil, or_false, List.mem_map] at he
  rcases he with ((rfl | rfl) | ⟨p, hp, rfl⟩) | he
  · exact ⟨_, placed.first⟩
  · exact ⟨_, placed.past⟩
  · exact ⟨_, stored.pairs p hp⟩
  · split at he
    · next all =>
      obtain rfl := List.mem_singleton.1 he
      exact ⟨_, stored.all all⟩
    · cases he

/-- Every label of a range is answered in the assembled instructions. -/
theorem answered {bs : List Sequence.Block} {ys : List Item} {s : Sequence} (tellable : Tellable c)
    (spoken : List.Forall₂ (Sequence.Spoken c.code body c.extra) c.code.solids bs) (lays : Sequence.Lays ys s)
    (echoes : List.Forall₂ (Sequence.Echoes c.code) c.code.solids ys) (ht : t ∈ c.tries) {e : Int × Bytes}
    (he : e ∈ marks t (c.handlerOf t)) :
    Answered (Sequence.handlesOf bs (Sequence.labelsAt c.code.units [] c.extra)) s e := by
  obtain ⟨k, there⟩ := tellable.exists_marked ht he
  have hard : ∀ n, c.code.named? k = some n → c.code.solid n = true := by
    intro n named
    obtain ⟨m, named', address⟩ := (Sequence.addressOf?_eq_some (Sequence.ne_finish_of_named? named)).1 there
    obtain rfl := Option.some.inj (named.symm.trans named')
    exact tellable.firm t ht e he n (tellable.code.linked.mem_of_named? named) address
  obtain ⟨k', mem, meets⟩ := tellable.code.exists_found spoken (mem_extra.2 ⟨t, ht, he⟩) there hard
  have nodup := Sequence.nodup_handlesOf (tellable.code.nodup_names c.named_extra spoken)
  exact ⟨k', Sequence.findLabel_of_mem nodup mem, (Sequence.addressOf?_of_meets tellable.code lays echoes meets).trans there⟩

end Tellable

/-! ## Assembling -/

/-- `addCatches` reads the lines of ranges and skips all other elements. -/
theorem gives_addCatches {known : List ((Handle × Handle) × Nat)} (cs : List Assembly.CatchRange)
    (others : ∀ e ∈ es, ∀ r, e ≠ .catchRange r) (run : (cs.foldlM (addCatch labels) []).Gives c known d) :
    (addCatches labels (es ++ cs.map .catchRange)).Gives c known d := by
  unfold addCatches
  rw [List.foldlM_append]
  refine Action.gives_bind.2 ⟨[], c, ?_, ?_⟩
  · clear run
    induction es with
    | nil => exact Action.gives_pure.2 ⟨rfl, rfl⟩
    | cons e es ih =>
      obtain ⟨here, others⟩ := List.forall_mem_cons.1 others
      rw [List.foldlM_cons]
      refine Action.gives_bind.2 ⟨[], c, ?_, ih others⟩
      cases e with
      | catchRange r => exact absurd rfl (here r)
      | _ => exact Action.gives_pure.2 ⟨rfl, rfl⟩
  · rwa [List.foldlM_map]

/-! ## Refreshing -/

section Guards

variable {base : CodeItem} {count : Option Cell} {ts : List TryItem} {b : TryItem → Handle × Handle} {g f : TryItem → CatchHandler}

/-- `refreshGuards` of ranges that answer those of a list makes the table of that list. -/
theorem exists_refreshGuards_held (linked : Sequence.Linked base.code base.code.items.toList) (increasing : base.code.Increasing)
    (below : ∀ x a, base.code.addressOf? x = some a → a ≤ base.code.units) (nonempty : ∀ t ∈ ts, t.count ≠ 0)
    (sorted : ts.Pairwise fun t u => t.start ≤ u.start)
    (ranges : ∀ t ∈ ts, ∀ i, RangeAnswers base.code t (guarded (b t) i)) (handlers : ∀ t ∈ ts, Answers base.code (g t) (f t))
    (fair : ∀ t ∈ ts, (f t).Fair) :
    ∃ d, refreshGuards.Gives (held base count (ts.zipIdx.map fun q => guarded (b q.1) q.2) (ts.map f)) ⟨⟩ d ∧
      d.exceptionTable = ts.map fun t => ((t.start, t.count), some (g t).clauses) := by
  let F : TryItem × Nat → TryItem := fun q => guarded (b q.1) q.2
  let c := held base count (ts.zipIdx.map F) (ts.map f)
  have mem : ∀ q ∈ ts.zipIdx, q.1 ∈ ts := fun q hq => List.fst_mem_of_mem_zipIdx hq
  have before : ∀ q ∈ ts.zipIdx, (bounds q.1).1 < (bounds q.1).2 ∧ (bounds q.1).2 - (bounds q.1).1 ≤ 0xffff := by
    intro q hq
    have filled : q.1.count.toNat ≠ 0 := fun zero => nonempty q.1 (mem q hq) (UInt16.toNat_inj.1 zero)
    have short := q.1.count.toNat_lt
    simp only [bounds]
    omega
  have handled : ∀ q ∈ ts.zipIdx, (ts.map f)[q.2]? = some (f q.1) := by
    intro q hq
    rw [List.getElem?_map, (List.mem_zipIdx_iff_getElem?.1 hq), Option.map_some]
  have first : ∀ q ∈ ts.zipIdx, (F q).first ≠ .finish := by
    intro q hq finish
    obtain ⟨start, past⟩ := ranges q.1 (mem q hq) q.2
    have inside := below _ _ past
    have less := (before q hq).1
    rw [show (guarded (b q.1) q.2).first = .finish from finish, Sequence.addressOf?, if_pos rfl] at start
    have start := Option.some.inj start
    simp only [bounds, TryItem.stop] at less inside start
    omega
  have each : List.Forall₂ (fun t s => c.span t = .ok s ∧ s.1 < s.2 ∧ s.2 - s.1 ≤ 0xffff) (ts.zipIdx.map F) (ts.zipIdx.map (bounds ·.1)) := by
    rw [List.forall₂_map_left_iff, List.forall₂_map_right_iff, List.forall₂_same]
    exact fun q hq => ⟨(ranges q.1 (mem q hq) q.2).span (c := c), before q hq⟩
  have ordered : (ts.zipIdx.map F).Pairwise fun t u => c.position t.first ≤ c.position u.first := by
    have starts : (ts.zipIdx.map Prod.fst).Pairwise fun t u => t.start ≤ u.start := by rwa [List.zipIdx_map_fst]
    refine List.pairwise_map.2 ((List.pairwise_map.1 starts).imp_of_mem fun {q r} hq hr le => ?_)
    refine position_le_of_address_le (c := c) linked increasing (first q hq) (first r hr) (ranges q.1 (mem q hq) q.2).first
      (ranges r.1 (mem r hr) r.2).first ?_
    have := UInt32.le_iff_toNat_le.1 le
    omega
  have reaches : ∀ slot ∈ c.handlers.order, ∀ h, c.handlers.value? slot = some h → Reaches c.code h := by
    intro slot _ h here
    rw [show c.handlers.value? slot = _ from Table.value?_filled count _ slot] at here
    obtain ⟨t, ht, rfl⟩ := List.mem_map.1 (List.mem_of_getElem? here)
    exact (handlers t ht).reaches
  have found : ∀ t ∈ ts.zipIdx.map F, ∃ slot ∈ c.handlers.order, t.handler = some slot := by
    intro t ht
    obtain ⟨q, hq, rfl⟩ := List.mem_map.1 ht
    exact ⟨q.2, List.mem_range.2 (List.getElem?_eq_some_iff.1 (handled q hq)).1, rfl⟩
  have listed : Listed c.handlers := Listed.filled_of_fair (fun h hh => by
    obtain ⟨t, ht, rfl⟩ := List.mem_map.1 hh
    exact fair t ht) count
  obtain ⟨d, run, tries, table⟩ := exists_refreshGuards (c := c) listed each ordered reaches found
  refine ⟨d, run, ?_⟩
  have spans : List.zipWith setSpan c.tries (ts.zipIdx.map (bounds ·.1)) = ts.zipIdx.map fun q => setSpan (F q) (bounds q.1) := by
    rw [show c.tries = ts.zipIdx.map F from rfl, List.zipWith_map, List.zipWith_self]
  rw [spans, List.forall₂_map_left_iff] at tries
  have rows : ts.map (fun t => ((t.start, t.count), some (g t).clauses)) =
      ts.zipIdx.map fun q => ((q.1.start, q.1.count), some (g q.1).clauses) := by
    conv_lhs => rw [← List.zipIdx_map_fst 0 ts, List.map_map]
    rfl
  rw [exceptionTable, rows]
  refine map_congr_forall₂ tries fun q hq z same => ?_
  obtain ⟨o, rfl⟩ := same
  have filled : d.tries ≠ [] := by
    intro absent
    rw [absent] at tries
    rw [List.forall₂_nil_right_iff.1 tries] at hq
    cases hq
  obtain ⟨k, o', renewed, there⟩ := table filled q.2 (List.mem_range.2 (List.getElem?_eq_some_iff.1 (handled q hq)).1) (f q.1)
    ((Table.value?_filled count _ q.2).trans (handled q hq))
  have renewed : Renewed base.code (f q.1) k := renewed
  have clauses : CatchHandler.clauses { k with offset := o' } = (g q.1).clauses :=
    ((handlers q.1 (mem q hq)).clauses renewed :)
  have start : (setSpan (F q) (bounds q.1)).start = q.1.start := (congrArg TryItem.start (setSpan_bounds q.1) :)
  have length : (setSpan (F q) (bounds q.1)).count = q.1.count := (congrArg TryItem.count (setSpan_bounds q.1) :)
  have handler : (setSpan (F q) (bounds q.1)).handler = some q.2 := rfl
  dsimp only
  rw [start, length, handler, Option.bind_some, there, Option.map_some, clauses]

theorem updateCounts_held {hs : List CatchHandler} (sizes : ∀ h ∈ hs, h.updateSize = h) :
    (held base count ts hs).updateCounts = held base (count.map (·.set (hs.length : Int))) ts hs := by
  have same : (held base count ts hs).handlers.order.foldl (fun t s => t.modifySlot s CatchHandler.updateSize) (Table.filled count hs) =
      Table.filled count hs := by
    refine List.foldlRecOn (motive := fun t => t = Table.filled count hs) _ _ rfl fun t same slot _ => ?_
    rw [same]
    refine Table.modifySlot_eq_self fun h here => sizes h ?_
    exact List.mem_of_getElem? ((Table.value?_filled count hs slot).symm.trans here)
  rw [updateCounts, show (held base count ts hs).handlers = Table.filled count hs from rfl] at *
  rw [same]
  simp [held, Table.updateCount, Table.filled, setTries, updateTries]

/-- Refreshing the instructions and then ranges and handlers is refreshing the code item. -/
theorem exists_refresh_held {hs : List CatchHandler} {u : Sequence} (sizes : ∀ h ∈ hs, h.updateSize = h)
    (run : Sequence.refresh.Gives base.code ⟨⟩ u) (still : u.moves = #[]) : ∃ count', ∀ d,
      refreshGuards.Gives (held { base with code := u } count' ts hs) ⟨⟩ d → refresh.Gives (held base count ts hs) ⟨⟩ d := by
  have code : (onCode Sequence.refresh).Gives (held base count ts hs) ⟨⟩ (held { base with code := u } count ts hs) :=
    gives_onCode_of_still (c := held base count ts hs) run still
  cases empty : (held base count ts hs).tries.isEmpty with
  | true => exact ⟨count, fun d guards => gives_refresh.2 ⟨_, code, by rwa [empty, if_pos rfl]⟩⟩
  | false =>
    refine ⟨count.map (·.set (hs.length : Int)), fun d guards => gives_refresh.2 ⟨_, code, ?_⟩⟩
    rwa [empty, if_neg Bool.false_ne_true, updateCounts_held sizes]

end Guards

/-! ## The whole -/

/-- The handles that the bounds of a range are assembled to. -/
def named (labels : List (Bytes × Handle)) (t : TryItem) : Handle × Handle :=
  (lookup labels (LabelKind.tryStart.name t.start.toNat), lookup labels (LabelKind.tryEnd.name t.stop))

namespace Tellable

variable {t : TryItem} {s : Sequence}

/-- The type of a clause is in the pool, at the index that is stored. -/
theorem typed (tellable : Tellable c) (ht : t ∈ c.tries) {p : CatchPair} (hp : p ∈ (c.handlerOf t).pairs) :
    (c.typeAt p.type.get).isZero = false ∧ typeIndex c.code.pool (c.typeAt p.type.get) = p.type.get ∧
      ∃ q i, c.code.pool = some q ∧ q.internType (c.typeAt p.type.get) = (i, q) := by
  obtain ⟨d, type, present⟩ := tellable.types t ht p hp
  rw [typeAt_of_catchType type]
  unfold catchType at type
  cases pool : c.code.pool with
  | none =>
    rw [pool] at type
    cases type
  | some q =>
    rw [pool] at type
    obtain ⟨n, interned, index⟩ := (tellable.sound q pool).internType_of_type type
    refine ⟨present, ?_, q, n, rfl, interned⟩
    rw [typeIndex, Option.map_some, interned]
    exact index

/-- The lines of a range can be assembled if its labels are answered, and have the bounds of the range. -/
theorem legal (tellable : Tellable c) (ht : t ∈ c.tries) (answered : ∀ e ∈ marks t (c.handlerOf t), Answered labels s e) :
    ∀ e ∈ c.lines t (c.handlerOf t), Legal labels c.code.pool e ∧ ends labels e = named labels t := by
  have declared : ∀ e ∈ marks t (c.handlerOf t), ∃ x, labels.find? (·.1 == e.2) = some x := by
    intro e he
    obtain ⟨k, found, -⟩ := answered e he
    exact ⟨_, found⟩
  have start := declared (mark .tryStart t.start.toNat) (by simp [marks])
  have stop := declared (mark .tryEnd t.stop) (by simp [marks])
  intro e he
  rcases List.mem_append.1 he with he | he
  · obtain ⟨p, hp, rfl⟩ := List.mem_map.1 he
    have handler := declared (mark .catchOne p.address.get) (by simp only [marks, List.mem_append, List.mem_map]; exact .inl (.inr ⟨p, hp, rfl⟩))
    exact ⟨⟨start, stop, handler, fun _ => (tellable.typed ht hp).2.2⟩, rfl⟩
  · split at he
    · next all =>
      obtain rfl := List.mem_singleton.1 he
      have handler := declared (mark .catchAll (c.handlerOf t).allAddress.get) (by simp [marks, all])
      exact ⟨⟨start, stop, handler, fun typed => by cases typed⟩, rfl⟩
    · cases he

theorem lines_ne_nil (tellable : Tellable c) (ht : t ∈ c.tries) : c.lines t (c.handlerOf t) ≠ [] := by
  intro absent
  obtain ⟨pairs, all⟩ := List.append_eq_nil_iff.1 absent
  rcases tellable.catches t ht with nonempty | yes
  · exact nonempty (List.map_eq_nil_iff.1 pairs)
  · rw [if_pos yes] at all
    cases all

/-- `toBody` and then `ofBody` succeed on a `Tellable` code item. If its ranges are sorted and no two have the same
bounds, the exception table is the same. -/
theorem exists_ofBody (tellable : Tellable c) (sorted : c.tries.Pairwise fun t u => t.start ≤ u.start)
    (distinct : (c.tries.map fun t => (t.start, t.count)).Nodup) (paramRegisters : Int) (useLocals : Bool) :
    ∃ b d, c.toBody paramRegisters useLocals = .ok b ∧ (ofBody b).Gives (new c.code.pool) ⟨⟩ d ∧
      d.exceptionTable = c.exceptionTable := by
  obtain ⟨b, bs, told, elements, spoken⟩ := tellable.exists_toBody paramRegisters useLocals
  obtain ⟨ys, t, u, added, pool, moves, lays, echoes, refreshed, placed⟩ := tellable.code.exists_assembled tellable.owns
    tellable.spared c.named_extra spoken (show b.locals = _ from rfl) elements (new c.code.pool).code.size
  let labels := Sequence.handlesOf bs (Sequence.labelsAt c.code.units [] c.extra)
  have answered : ∀ r ∈ c.tries, ∀ e ∈ marks r (c.handlerOf r), Answered labels t e := fun r hr e he =>
    tellable.answered spoken lays echoes hr he
  have shaped : ∀ y ∈ ys, y.Shaped := by
    intro y hy
    obtain ⟨n, -, here⟩ := Sequence.exists_left echoes hy
    obtain ⟨x, -, echo⟩ := here.echo
    exact echo.shaped
  have still : ({ t with moves := #[] } : Sequence) = t := by rw [← moves]
  obtain ⟨outs, counted⟩ := Sequence.exists_outsFor (s := t) fun n x hx => lays.shaped shaped hx
  let base := (new c.code.pool).started b t outs
  have code : base.code = t := still
  have starts : base = held base (some (.uleb {})) [] [] := rfl
  have basePool : base.code.pool = c.code.pool := by rw [code, pool]
  -- No two ranges have the same bounds, since those stand at different addresses.
  have apart : (c.tries.map (named labels)).Nodup := by
    let spanOf : Handle × Handle → UInt32 × UInt16 := fun b =>
      (UInt32.ofInt ((t.addressOf? b.1).getD 0), UInt16.ofInt ((t.addressOf? b.2).getD 0 - (t.addressOf? b.1).getD 0))
    refine List.Nodup.of_map spanOf ?_
    have same : (c.tries.map (named labels)).map spanOf = c.tries.map fun r => (r.start, r.count) := by
      rw [List.map_map]
      refine List.map_congr_left fun r hr => ?_
      have start := (answered r hr (mark .tryStart r.start.toNat) (by simp [marks])).addressOf?
      have stop := (answered r hr (mark .tryEnd r.stop) (by simp [marks])).addressOf?
      simp only [mark] at start stop
      simp only [Function.comp_apply, named, spanOf, labels, start, stop, Option.getD_some]
      have span := setSpan_bounds r
      exact Prod.ext (congrArg TryItem.start span :) (congrArg TryItem.count span :)
    rwa [same]
  obtain ⟨known, count, caught⟩ := @gives_addRanges base labels [] (some (.uleb {})) [] [] TryItem _ _ c.tries
    (fun r hr => tellable.lines_ne_nil hr) (basePool ▸ fun r hr => tellable.legal hr (answered r hr))
    (by simpa using apart)
  simp only [List.nil_append, List.length_nil, ← starts, basePool] at caught
  -- Refreshing it.
  let f : TryItem → CatchHandler := fun r => (c.lines r (c.handlerOf r)).foldl (withClause labels c.code.pool) {}
  have moved : u.moves = #[] := by rw [placed.eq, ← moves]
  obtain ⟨count', refreshes⟩ := @exists_refresh_held base count
    (c.tries.zipIdx.map fun q => guarded (named labels q.1) q.2) (c.tries.map f) u (fun h hh => by
      obtain ⟨r, -, rfl⟩ := List.mem_map.1 hh
      exact updateSize_withClauses _) (code ▸ refreshed) moved
  have there : ∀ r ∈ c.tries, ∀ e ∈ marks r (c.handlerOf r), u.addressOf? (lookup labels e.2) = some e.1 := fun r hr e he =>
    (placed.addressOf? _).trans (answered r hr e he).addressOf?
  have below : ∀ k a, u.addressOf? k = some a → a ≤ u.units := by
    intro k a here
    rw [placed.addressOf?] at here
    obtain ⟨n, rfl, le⟩ := exists_nat_of_addressOf? lays.linked lays.snug.laid here
    rw [placed.eq]
    exact Int.ofNat_le.2 le
  obtain ⟨d, guards, table⟩ := @exists_refreshGuards_held { base with code := u } count' c.tries (named labels) c.handlerOf f
    (placed.linked lays.linked)
    ((lays.increasing shaped).congr placed.items placed.address?) below (fun r hr => (tellable.placed r hr).nonempty) sorted
    (fun r hr i => ⟨there r hr (mark .tryStart r.start.toNat) (by simp [marks]), there r hr (mark .tryEnd r.stop) (by simp [marks])⟩)
    (fun r hr => answers_lines (fun p hp => (tellable.typed hr hp).1) (fun p hp => (tellable.typed hr hp).2.1) (there r hr))
    fun r _ => fair_withClauses _
  refine ⟨b, d, told, gives_ofBody.2 ⟨labels, t, outs, known, _, added, still.symm ▸ counted, ?_, refreshes d guards⟩, ?_⟩
  · rw [elements]
    refine gives_addCatches c.allLines (fun e he r => ?_) caught
    rcases List.mem_append.1 he with he | he
    · obtain ⟨block, hblock, he⟩ := List.mem_flatMap.1 he
      obtain ⟨n, -, x, -, -, told⟩ := Sequence.exists_left spoken hblock
      rcases List.mem_append.1 he with he | he
      · obtain ⟨l, -, rfl⟩ := List.mem_map.1 he
        exact Element.noConfusion
      · obtain rfl := List.mem_singleton.1 he
        exact told.line.2 r
    · obtain ⟨l, -, rfl⟩ := List.mem_map.1 he
      exact Element.noConfusion
  · rw [table, exceptionTable]
    refine List.map_congr_left fun r hr => ?_
    rw [(tellable.stored r hr).1, Option.map_some]

end Tellable

/-! ## Code that was read -/

section Read

variable {cur cur' : Cursor} {xs : List Item} {pool : Option Pool}

/-- For a code item that was decoded from `Transcribable` code, `toBody` and then `ofBody` over the same pool succeed,
and the result has the same exception table. -/
theorem exceptionTable_decode_ofBody (hc : cur.Sane) (run : (decode cur).Gives (new pool) cur' c) (sound : ∀ p ∈ pool, p.Sound)
    (transcribable : Transcribable cur xs c) (paramRegisters : Int) (useLocals : Bool) : ∃ b d, c.toBody paramRegisters useLocals = .ok b ∧
      (ofBody b).Gives (new pool) ⟨⟩ d ∧ d.exceptionTable = c.exceptionTable := by
  obtain ⟨tellable, rfl⟩ := transcribable.tellable hc run sound
  exact tellable.exists_ofBody transcribable.orderly.sorted transcribable.distinct paramRegisters useLocals

/-- A pool with one type. -/
def thrownPool : Pool := ((Pool.intern {} (.type ⟨ascii "LE;"⟩)).toOption.map Prod.snd).getD {}

theorem sound_thrownPool : thrownPool.Sound := by
  have run : Pool.intern {} (.type ⟨ascii "LE;"⟩) = .ok (0, thrownPool) := Action.eq_ok_of_toOption (by decide +kernel)
  have sectioned : (Constant.type ⟨ascii "LE;"⟩).HasSection := trivial
  exact ⟨Pool.sound_empty.distinct.intern sectioned run, Pool.sound_empty.closed.intern sectioned run⟩

/-- One instruction in a range, with a handler for a type and a catch-all. -/
theorem exceptionTable_guarded_return :
    let cur := Cursor.ofBytes [1, 0, 0, 0, 0, 0, 1, 0, 0, 0, 0, 0, 2, 0, 0, 0, 0x0e, 0, 0x0e, 0,
      0, 0, 0, 0, 1, 0, 1, 0, 1, 0x7f, 0, 1, 1]
    ∃ c cur' xs, (decode cur).Gives (new (some thrownPool)) cur' c ∧ Transcribable cur xs c ∧
      c.exceptionTable = [((0, 1), some ([(0, 1)], some 1))] ∧
      ∃ b d, c.toBody 0 false = .ok b ∧ (ofBody b).Gives (new (some thrownPool)) ⟨⟩ d ∧ d.exceptionTable = c.exceptionTable := by
  intro cur
  let x : Instruction := { opcode := (Opcode.ofUnit? 0x0e).getD .nop, units := [0x0e] }
  let c := ((decode cur).apply (new (some thrownPool))).2
  have sane : cur.Sane := ⟨by decide +kernel, Nat.zero_le _⟩
  have ends : ((decode cur).apply (new (some thrownPool))).1.toOption = some { cur with pos := 33 } := by decide +kernel
  have run : (decode cur).Gives (new (some thrownPool)) { cur with pos := 33 } c := Action.gives_of_toOption ends
  have last : Sequence.Scan { cur with pos := 18 } [.plain x] { cur with pos := 20 } :=
    .cons [0x0e, 0] (Action.eq_ok_of_toOption (by decide +kernel)) (Action.eq_ok_of_toOption (by decide +kernel)) (.nil _)
  have scan : Sequence.Scan { cur with pos := 16 } [.plain x, .plain x] { cur with pos := 20 } :=
    .cons [0x0e, 0] (Action.eq_ok_of_toOption (by decide +kernel)) (Action.eq_ok_of_toOption (by decide +kernel)) last
  have orderly : Orderly cur [.plain x, .plain x] { c with padding := 0 } := {
    scan := ⟨_, scan⟩
    units := by decide +kernel
    aligned := by decide +kernel
    switchOnly := by decide +kernel
    ascending := by
      intro y hy t e
      rw [List.mem_pair.1 hy |>.elim id id] at e
      cases e
    nonempty := by decide +kernel
    sorted := by decide +kernel
    padding := rfl }
  have transcribable : Transcribable cur [.plain x, .plain x] c := {
    orderly
    owned := by decide +kernel
    few := by
      intro i hi
      obtain rfl := Item.plain.inj (List.mem_pair.1 hi |>.elim id id)
      exact fun _ n count => by cases count; decide
    types := by
      intro t ht p hp
      have known : ∀ t ∈ c.tries, ∀ p ∈ (c.handlerOf t).pairs, p.type.get = 0 := by decide +kernel
      rw [known t ht p hp]
      exact ⟨⟨ascii "LE;"⟩, Action.eq_ok_of_toOption (by decide +kernel), rfl⟩
    firm := by decide +kernel
    distinct := by decide +kernel }
  exact ⟨c, _, _, run, transcribable, by decide +kernel,
    exceptionTable_decode_ofBody sane run (fun p hp => Option.some.inj hp ▸ sound_thrownPool) transcribable 0 false⟩

end Read

end CodeItem

end Dalvik
