import Dalvik.Proofs.CodeItem.Refreshing
import Dalvik.Proofs.CodeItem.Storing
import Dalvik.Proofs.CodeItem.Telling
import Dalvik.Proofs.Pool
import Dalvik.Proofs.Sequence.Retelling

/-!
# Exception tables that are assembled

The exception lines of a body with the same bounds make one range, whose handler has a clause for
each of them (`gives_addRanges`). The handler made from the lines of another handler has the same
types and leads to the same addresses (`answers_lines`). If the bounds of every range and all
addresses of handlers are known and in order, `refreshGuards` succeeds and keeps every range
(`exists_refreshGuards`). After a refresh the handler has the same clauses (`Answers.clauses`) and
the range the same bounds (`RangeAnswers.span`).
-/

namespace Dalvik

open Assembly (CatchRange)

theorem Table.attach_create_filled {α : Type} (count : Option Cell) (xs : List α) (x : α) :
    ((Table.filled count xs).create x).2.attach xs.length =
      Table.filled (count.map (·.set ((xs.length + 1 : Nat) : Int))) (xs ++ [x]) := by
  have fresh : ((Table.filled count xs).create x).2.order.contains xs.length = false := by
    simp [Table.filled, Table.create]
  have placed : Table.place (Table.home ((Table.filled count xs).create x).2) ((Table.filled count xs).create x).2.slots xs.length =
      (Table.filled count (xs ++ [x])).slots := by
    refine Array.ext_getElem? fun i => ?_
    rw [Table.place, Array.getElem?_modify]
    simp only [Table.create, Table.filled, List.map_append, List.map_cons, List.map_nil, List.push_toArray, List.getElem?_toArray]
    split
    · next e =>
      subst e
      simp [Table.home]
    · next ne =>
      rcases Nat.lt_or_gt_of_ne ne with gt | lt
      · rw [List.getElem?_eq_none (by simp; omega), List.getElem?_eq_none (by simp; omega)]
      · rw [List.getElem?_append_left (by simpa using lt), List.getElem?_append_left (by simpa using lt)]
  have order : (Table.filled count xs).order ++ [xs.length] = (Table.filled count (xs ++ [x])).order := by
    simp [Table.filled, List.range_succ]
  rw [Table.attach, fresh, placed]
  simp only [Bool.false_eq_true, if_false, Table.updateCount, Table.create, order]
  simp [Table.filled]

namespace CodeItem

variable {base c d : CodeItem} {labels : List (Bytes × Handle)} {known known' : List ((Handle × Handle) × Nat)} {count : Option Cell}
  {ts : List TryItem} {g : CatchHandler} {hs : List CatchHandler} {e : CatchRange} {es : List CatchRange} {slot : Nat}

/-- The item with the given ranges and handlers. -/
def held (base : CodeItem) (count : Option Cell) (ts : List TryItem) (hs : List CatchHandler) : CodeItem :=
  { base.setTries ts with handlers := Table.filled count hs }

/-- The handle that a label is declared for. -/
def lookup (labels : List (Bytes × Handle)) (name : Bytes) : Handle := ((labels.find? (·.1 == name)).map Prod.snd).getD .none

/-- The index that the pool gives a type. -/
def typeIndex (pool : Option Pool) (d : Descriptor) : Int := (pool.map fun p => ((p.internType d).1 : Int)).getD 0

/-- The handler with the clause of a line. -/
def withClause (labels : List (Bytes × Handle)) (pool : Option Pool) (h : CatchHandler) (e : CatchRange) : CatchHandler :=
  if e.isCatchAll then h.setAll (lookup labels e.handler) else h.addPair (typeIndex pool e.type) (lookup labels e.handler)

/-- The handles of the bounds of a line. -/
def ends (labels : List (Bytes × Handle)) (e : CatchRange) : Handle × Handle := (lookup labels e.start, lookup labels e.stop)

/-- The labels of the line are declared, and its type is in the pool. -/
structure Legal (labels : List (Bytes × Handle)) (pool : Option Pool) (e : CatchRange) : Prop where
  start : ∃ x, labels.find? (·.1 == e.start) = some x
  stop : ∃ x, labels.find? (·.1 == e.stop) = some x
  handler : ∃ x, labels.find? (·.1 == e.handler) = some x
  type : e.isCatchAll = false → ∃ p i, pool = some p ∧ p.internType e.type = (i, p)

theorem lookup_of_find? {name : Bytes} {x : Bytes × Handle} (found : labels.find? (·.1 == name) = some x) :
    lookup labels name = x.2 := by
  rw [lookup, found]
  rfl

/-! ## One line -/

/-- Adds the clause of a line to a handler. -/
def addClause (e : CatchRange) (handler : Handle) (slot : Nat) (known : List ((Handle × Handle) × Nat)) :
    Action CodeItem (List ((Handle × Handle) × Nat)) := do
  let update (f : CatchHandler → CatchHandler) : Action CodeItem PUnit :=
    modify fun c => { c with handlers := c.handlers.modifySlot slot f }
  if e.isCatchAll then update (·.setAll handler)
  else
    match (← get).code.pool with
    | none => Action.refuse (.unresolved Kind.type.name e.type.name)
    | some pool =>
      let (i, pool) := pool.internType e.type
      modify fun c => { c with code := { c.code with pool := some pool } }
      update (·.addPair i handler)
  return known

/-- `addCatch` of a line whose bounds are known adds its clause to the handler of that range. -/
theorem gives_addCatch_of_known {r : Handle × Handle} (legal : Legal labels base.code.pool e)
    (found : known.find? (·.1 == ends labels e) = some (r, slot))
    (clause : (addClause e (lookup labels e.handler) slot known).Gives c known' d) : (addCatch labels known e).Gives c known' d := by
  obtain ⟨⟨x, hx⟩, ⟨y, hy⟩, ⟨z, hz⟩, -⟩ := legal
  rw [ends, lookup_of_find? hx, lookup_of_find? hy] at found
  rw [lookup_of_find? hz] at clause
  unfold addCatch
  simp only [hx, hy, hz, Action.gives_bind, Action.gives_lift]
  refine ⟨_, _, ⟨rfl, rfl⟩, _, _, ⟨rfl, rfl⟩, _, _, ⟨rfl, rfl⟩, ?_⟩
  rw [found]
  exact Action.gives_bind.2 ⟨(slot, known), c, rfl, clause⟩

/-- `addCatch` of a line with other bounds makes a range, and a handler with its clause. -/
theorem gives_addCatch_of_new (legal : Legal labels base.code.pool e) (found : known.find? (·.1 == ends labels e) = none)
    (clause : (addClause e (lookup labels e.handler) c.handlers.slots.size ((ends labels e, c.handlers.slots.size) :: known)).Gives
      ((c.newHandler {}).2.addTry (ends labels e).1 (ends labels e).2 c.handlers.slots.size) known' d) :
    (addCatch labels known e).Gives c known' d := by
  obtain ⟨⟨x, hx⟩, ⟨y, hy⟩, ⟨z, hz⟩, -⟩ := legal
  rw [ends, lookup_of_find? hx, lookup_of_find? hy] at found clause
  rw [lookup_of_find? hz] at clause
  unfold addCatch
  simp only [hx, hy, hz, Action.gives_bind, Action.gives_lift]
  refine ⟨_, _, ⟨rfl, rfl⟩, _, _, ⟨rfl, rfl⟩, _, _, ⟨rfl, rfl⟩, ?_⟩
  rw [found]
  simp only [Action.gives_bind, Action.gives_get, Action.gives_set]
  exact ⟨c, c, ⟨rfl, rfl⟩, ⟨⟩, _, rfl, (_, _), _, rfl, clause⟩

theorem gives_addClause (legal : Legal labels base.code.pool e) :
    (addClause e (lookup labels e.handler) hs.length known).Gives (held base count ts (hs ++ [g])) known
      (held base count ts (hs ++ [withClause labels base.code.pool g e])) := by
  have update : ∀ f : CatchHandler → CatchHandler, { held base count ts (hs ++ [g]) with
      handlers := (held base count ts (hs ++ [g])).handlers.modifySlot hs.length f } = held base count ts (hs ++ [f g]) := by
    intro f
    rw [held, held, Table.modifySlot_filled]
  unfold addClause withClause
  cases all : e.isCatchAll with
  | true =>
    simp only [if_true, Action.gives_bind, Action.gives_modify, Action.gives_pure]
    exact ⟨⟨⟩, _, update _, trivial, rfl⟩
  | false =>
    obtain ⟨p, i, pool, same⟩ := legal.type all
    have index : typeIndex base.code.pool e.type = i := by rw [typeIndex, pool, Option.map_some, same]; rfl
    have still : { held base count ts (hs ++ [g]) with
        code := { (held base count ts (hs ++ [g])).code with pool := some p } } = held base count ts (hs ++ [g]) := by
      rw [← pool]
      rfl
    simp only [Bool.false_eq_true, if_false, Action.gives_bind, Action.gives_get, index]
    refine ⟨_, _, ⟨rfl, rfl⟩, ?_⟩
    rw [show (held base count ts (hs ++ [g])).code.pool = some p from pool]
    simp only [same, Action.gives_bind, Action.gives_modify, Action.gives_pure]
    exact ⟨⟨⟩, _, still, ⟨⟩, _, update _, trivial, rfl⟩

/-! ## The lines of a range -/

/-- Lines with the bounds of the last range add their clauses to its handler. -/
theorem gives_addClauses {b : Handle × Handle} (es : List CatchRange) (legal : ∀ e ∈ es, Legal labels base.code.pool e ∧ ends labels e = b) :
    (es.foldlM (addCatch labels) ((b, hs.length) :: known)).Gives (held base count ts (hs ++ [g])) ((b, hs.length) :: known)
      (held base count ts (hs ++ [es.foldl (withClause labels base.code.pool) g])) := by
  induction es generalizing g with
  | nil => exact Action.gives_pure.2 ⟨rfl, rfl⟩
  | cons e es ih =>
    obtain ⟨here, same⟩ := legal e List.mem_cons_self
    have found : ((b, hs.length) :: known).find? (·.1 == ends labels e) = some (b, hs.length) := by
      rw [List.find?_cons, same, beq_self_eq_true]
    rw [List.foldlM_cons]
    refine Action.gives_bind.2 ⟨_, _, gives_addCatch_of_known here found (gives_addClause here), ?_⟩
    exact ih fun d hd => legal d (List.mem_cons_of_mem _ hd)

/-- The range with the bounds, whose handler is in a slot. -/
def guarded (b : Handle × Handle) (slot : Nat) : TryItem := { first := b.1, past := b.2, handler := some slot }

/-- Lines with new bounds make a range, and a handler with their clauses. -/
theorem gives_addRange {b : Handle × Handle} (nonempty : es ≠ []) (legal : ∀ e ∈ es, Legal labels base.code.pool e ∧ ends labels e = b)
    (new : b ∉ known.map Prod.fst) : ∃ count', (es.foldlM (addCatch labels) known).Gives (held base count ts hs) ((b, hs.length) :: known)
      (held base count' (ts ++ [guarded b hs.length]) (hs ++ [es.foldl (withClause labels base.code.pool) ({} : CatchHandler)])) := by
  obtain ⟨e, es, rfl⟩ := List.exists_cons_of_ne_nil nonempty
  obtain ⟨here, same⟩ := legal e List.mem_cons_self
  have absent : known.find? (·.1 == ends labels e) = none := by
    rw [List.find?_eq_none, same]
    intro k hk found
    exact new (List.mem_map.2 ⟨k, hk, by simpa using found⟩)
  let count' := count.map (·.set ((hs.length + 1 : Nat) : Int))
  have slot : (held base count ts hs).handlers.slots.size = hs.length := by simp [held, Table.filled]
  have added : ((held base count ts hs).newHandler {}).2.addTry b.1 b.2 hs.length =
      held base count' (ts ++ [guarded b hs.length]) (hs ++ [({} : CatchHandler)]) := by
    have joined := Table.attach_create_filled count hs {}
    unfold addTry newHandler
    simp only [held, joined]
    rfl
  refine ⟨count', ?_⟩
  rw [List.foldlM_cons]
  refine Action.gives_bind.2 ⟨(b, hs.length) :: known, held base count' (ts ++ [guarded b hs.length])
    (hs ++ [withClause labels base.code.pool ({} : CatchHandler) e]), ?_, gives_addClauses es fun d hd => legal d (List.mem_cons_of_mem _ hd)⟩
  refine gives_addCatch_of_new here absent ?_
  rw [slot, same, added]
  exact gives_addClause here

/-! ## All lines -/

/-- Lines in groups with different bounds make a range and a handler for each group. -/
theorem gives_addRanges {α : Type} {lines : α → List CatchRange} {bounds : α → Handle × Handle} {xs : List α}
    (nonempty : ∀ x ∈ xs, lines x ≠ []) (legal : ∀ x ∈ xs, ∀ e ∈ lines x, Legal labels base.code.pool e ∧ ends labels e = bounds x)
    (distinct : (xs.map bounds ++ known.map Prod.fst).Nodup) : ∃ known' count',
      ((xs.flatMap lines).foldlM (addCatch labels) known).Gives (held base count ts hs) known'
        (held base count' (ts ++ (xs.zipIdx hs.length).map fun x => guarded (bounds x.1) x.2)
          (hs ++ xs.map fun x => (lines x).foldl (withClause labels base.code.pool) ({} : CatchHandler))) := by
  induction xs generalizing known count ts hs with
  | nil => exact ⟨known, count, Action.gives_pure.2 ⟨rfl, by simp⟩⟩
  | cons x xs ih =>
    obtain ⟨new, distinct⟩ := List.nodup_cons.1 distinct
    obtain ⟨count₁, head⟩ := @gives_addRange base labels known count ts hs (lines x) (bounds x) (nonempty x List.mem_cons_self)
      (legal x List.mem_cons_self) fun mem => new (List.mem_append_right _ mem)
    obtain ⟨known', count₂, rest⟩ := @ih ((bounds x, hs.length) :: known) count₁ (ts ++ [guarded (bounds x) hs.length])
      (hs ++ [(lines x).foldl (withClause labels base.code.pool) ({} : CatchHandler)]) (fun y hy => nonempty y (List.mem_cons_of_mem _ hy))
      (fun y hy => legal y (List.mem_cons_of_mem _ hy))
      (List.perm_middle.nodup_iff.2 (List.nodup_cons.2 ⟨new, distinct⟩))
    refine ⟨known', count₂, ?_⟩
    rw [List.flatMap_cons, List.foldlM_append]
    refine Action.gives_bind.2 ⟨_, _, head, ?_⟩
    simpa [List.zipIdx_cons] using rest

end CodeItem

end Dalvik

namespace Dalvik.CodeItem

open Sequence (exists_left)

variable {c d : CodeItem} {s : Sequence} {h k : CatchHandler} {slot : Nat} {slots : List Nat} {spans : List (Int × Int)}

/-! ## Handlers -/

/-- Every handle of the handler has an address in the sequence. -/
structure Reaches (s : Sequence) (h : CatchHandler) : Prop where
  pairs : ∀ p ∈ h.pairs, ∃ a, s.addressOf? p.handler = some a
  all : h.catchesAll = true → ∃ a, s.addressOf? h.all = some a

theorem exists_storePairs {ps : List CatchPair} (there : ∀ p ∈ ps, ∃ a, c.code.addressOf? p.handler = some a) :
    ∃ qs, c.storePairs ps = (.ok ⟨⟩, qs) := by
  induction ps with
  | nil => exact ⟨[], rfl⟩
  | cons p ps ih =>
    obtain ⟨a, ha⟩ := there p List.mem_cons_self
    obtain ⟨qs, rest⟩ := ih fun q hq => there q (List.mem_cons_of_mem _ hq)
    exact ⟨{ p with address := p.address.set a } :: qs, by simp only [storePairs, address_eq_ok.2 ha, rest]⟩

theorem exists_refreshHandler (there : ∀ h, c.handlers.value? slot = some h → Reaches c.code h) :
    ∃ d, (refreshHandler slot).Gives c ⟨⟩ d := by
  unfold refreshHandler
  refine Action.exists_gives_get ?_
  split
  · exact ⟨c, Action.gives_pure.2 ⟨rfl, rfl⟩⟩
  · next h here =>
    obtain ⟨pairs, all⟩ := there h here
    obtain ⟨qs, stored⟩ := exists_storePairs pairs
    rw [stored]
    simp only [Action.gives_bind, Action.gives_modify, Action.gives_lift]
    split
    · next yes =>
      obtain ⟨a, ha⟩ := all yes
      simp only [Action.gives_bind, Action.gives_modify, Action.gives_lift, address_eq_ok.2 ha]
      exact ⟨_, ⟨⟩, _, rfl, ⟨⟩, _, ⟨trivial, rfl⟩, a, _, ⟨rfl, rfl⟩, ⟨⟩, _, rfl, rfl⟩
    · simp only [Action.gives_modify]
      exact ⟨_, ⟨⟩, _, rfl, ⟨⟩, _, ⟨trivial, rfl⟩, rfl⟩

theorem exists_each_refreshHandler (nodup : slots.Nodup) (there : ∀ s ∈ slots, ∀ h, c.handlers.value? s = some h → Reaches c.code h) :
    ∃ d, Action.Each refreshHandler slots c d := by
  induction slots generalizing c with
  | nil => exact ⟨c, .nil c⟩
  | cons s slots ih =>
    obtain ⟨fresh, nodup⟩ := List.nodup_cons.1 nodup
    obtain ⟨u, head⟩ := exists_refreshHandler (there s List.mem_cons_self)
    obtain ⟨f, rfl, -⟩ := gives_refreshHandler head
    obtain ⟨v, rest⟩ := @ih { c with handlers := c.handlers.modifySlot s f } nodup fun k hk h hh => by
      have other : (c.handlers.modifySlot s f).value? k = c.handlers.value? k := by
        rw [Table.value?_modifySlot, if_neg (by rintro rfl; exact fresh hk)]
      exact there k (List.mem_cons_of_mem _ hk) h (other.symm.trans hh)
    exact ⟨v, .cons head rest⟩

/-- `placeHandlers` changes only the offsets of handlers. -/
theorem exists_value?_placeHandlers (here : table.value? slot = some h) :
    ∃ o', (placeHandlers o slots table).value? slot = some { h with offset := o' } := by
  induction slots generalizing o table h with
  | nil => exact ⟨h.offset, here⟩
  | cons s slots ih =>
    rw [placeHandlers]
    by_cases same : s = slot
    · have moved : (table.modifySlot s fun h => { h with offset := o }).value? slot = some { h with offset := o } := by
        rw [Table.value?_modifySlot, if_pos same, here, Option.map_some]
      obtain ⟨o', rest⟩ := ih moved (o := o + ((table.value? s).map CatchHandler.byteCount).getD 0)
      exact ⟨o', rest⟩
    · have kept : (table.modifySlot s fun h => { h with offset := o }).value? slot = some h := by
        rw [Table.value?_modifySlot, if_neg same, here]
      exact ih kept

/-- If `refreshHandler` is run on a list of slots without duplicates, every handler in it is `Renewed`. -/
theorem exists_value?_refreshed (nodup : slots.Nodup) (each : Action.Each refreshHandler slots c d) (mem : slot ∈ slots)
    (here : c.handlers.value? slot = some h) : ∃ k, d.handlers.value? slot = some k ∧ Renewed c.code h k := by
  induction each with
  | nil => cases mem
  | @cons s slots c c₁ d head rest ih =>
    obtain ⟨absent, nodup⟩ := List.nodup_cons.1 nodup
    obtain ⟨f, rfl, renewed⟩ := gives_refreshHandler head
    by_cases same : s = slot
    · subst same
      obtain ⟨table, rfl, -, -, others, -, -⟩ := each_refreshHandler nodup rest
      refine ⟨f h, ?_, renewed h here⟩
      rw [show table.value? s = _ from others s absent, Table.value?_modifySlot, if_pos rfl, here, Option.map_some]
    · refine ih nodup ((List.mem_cons.1 mem).resolve_left (Ne.symm same)) ?_
      rw [Table.value?_modifySlot, if_neg same, here]

/-! ## The whole -/

/-- `refreshGuards` succeeds, and keeps every range in its place. -/
theorem exists_refreshGuards (listed : Listed c.handlers)
    (each : List.Forall₂ (fun t s => c.span t = .ok s ∧ s.1 < s.2 ∧ s.2 - s.1 ≤ 0xffff) c.tries spans)
    (sorted : c.tries.Pairwise fun t u => c.position t.first ≤ c.position u.first)
    (reaches : ∀ slot ∈ c.handlers.order, ∀ h, c.handlers.value? slot = some h → Reaches c.code h)
    (found : ∀ t ∈ c.tries, ∃ slot ∈ c.handlers.order, t.handler = some slot) :
    ∃ d, refreshGuards.Gives c ⟨⟩ d ∧
      List.Forall₂ (fun t z => ∃ o, z = { t with handlerOffset := o }) (List.zipWith setSpan c.tries spans) d.tries ∧
      (d.tries ≠ [] → ∀ slot ∈ c.handlers.order, ∀ h, c.handlers.value? slot = some h →
        ∃ k o, Renewed c.code h k ∧ d.handlers.value? slot = some { k with offset := o }) := by
  let ys := List.zipWith setSpan c.tries spans
  obtain ⟨c₂, loop⟩ := @exists_each_refreshHandler (c.setTries ys) c.handlers.order listed.nodup reaches
  obtain ⟨table, rfl, order, -, -, kept, -⟩ := each_refreshHandler listed.nodup loop
  have after := (kept listed).placeHandlers ((table.count.map Cell.size).getD 0) table.order
  let laid := layoutHandlers { c.setTries ys with handlers := table }
  have there : ∀ y ∈ ys, ∃ z, laid.placeTry y = .ok z := by
    intro y hy
    rw [show ys = (c.tries.zip spans).map fun q => setSpan q.1 q.2 by rw [List.zip, List.map_zipWith]] at hy
    obtain ⟨q, hq, rfl⟩ := List.mem_map.1 hy
    obtain ⟨slot, mem, handler⟩ := found q.1 (List.of_mem_zip hq).1
    obtain ⟨h, hh⟩ := Option.isSome_iff_exists.1 (after.filled slot (by rw [(order_placeHandlers _ _ _).1, order]; exact mem))
    exact ⟨_, placeTry_eq_ok.2 ⟨h, by rw [show (setSpan q.1 q.2).handler = some slot from handler]; exact hh, rfl⟩⟩
  obtain ⟨zs, placed⟩ := List.exists_forall₂ there
  refine ⟨{ laid.setTries zs with padding := 0, handlers := if zs.isEmpty then laid.handlers.clear else laid.handlers }, ?_, ?_,
    fun nonempty slot mem h here => ?_⟩
  · unfold refreshGuards
    simp only [Action.gives_bind, Action.gives_get, Action.gives_forIn, Action.gives_modify, Action.gives_lift, Action.gives_set]
    exact ⟨⟨⟩, _, gives_refreshTries_of_sorted each sorted, _, _, ⟨rfl, rfl⟩, ⟨⟩, _, loop, ⟨⟩, _, rfl, _, _, ⟨rfl, rfl⟩, zs, _,
      ⟨Action.except_mapM_eq_ok.2 placed, rfl⟩, rfl⟩
  · refine placed.imp fun y z place => ?_
    obtain ⟨h, -, rfl⟩ := placeTry_eq_ok.1 place
    exact ⟨_, rfl⟩
  · obtain ⟨k, found, renewed⟩ := exists_value?_refreshed listed.nodup loop mem here
    obtain ⟨o, placed⟩ := exists_value?_placeHandlers found
    have kept : ¬ zs.isEmpty = true := mt List.isEmpty_iff.1 nonempty
    refine ⟨k, o, renewed, ?_⟩
    dsimp only
    rw [if_neg kept]
    exact placed

end Dalvik.CodeItem

/-! ## Answering -/

namespace Dalvik

open Assembly (CatchRange)

/-- `internType` of a type of a sound pool returns its index and changes nothing. -/
theorem Pool.Sound.internType_of_type {p : Pool} (sound : p.Sound) {i : Int} {d : Descriptor} (found : p.type i = .ok d) :
    ∃ n : Nat, p.internType d = (n, p) ∧ (n : Int) = i := by
  have lookup : p.lookup .type i = .ok (.type d) := Action.except_bind_eq_ok.2 ⟨d, found, rfl⟩
  have index := sound.distinct.indexOf?_of_lookup lookup
  obtain ⟨n, -, listed⟩ := Pool.lookup_eq_ok.1 lookup
  obtain ⟨j, run, same⟩ := sound.closed.intern_of_mem (Pool.mem_of_mem_entries (List.mem_of_getElem? listed))
  rw [index] at same
  cases same
  have made : (((p.internType d).1 : Int), (p.internType d).2) = (i, p) := Except.ok.inj run
  obtain ⟨first, second⟩ := Prod.mk.inj made
  exact ⟨(p.internType d).1, Prod.ext rfl second, first⟩

namespace CodeItem

open Sequence (exists_left)

variable {c d : CodeItem} {s : Sequence} {labels : List (Bytes × Handle)} {pool : Option Pool} {t x y : TryItem} {g h k : CatchHandler}
  {es : List CatchRange}

/-! ## Handlers -/

/-- `g` has the types of `h`, and its handles have the addresses that are stored in `h`. -/
structure Answers (s : Sequence) (h g : CatchHandler) : Prop where
  pairs : List.Forall₂ (fun p q => q.type.get = p.type.get ∧ s.addressOf? q.handler = some p.address.get) h.pairs g.pairs
  catchesAll : g.catchesAll = h.catchesAll
  all : h.catchesAll = true → s.addressOf? g.all = some h.allAddress.get

theorem Answers.reaches (answers : Answers s h g) : Reaches s g where
  pairs q hq := by
    obtain ⟨p, -, -, there⟩ := exists_left answers.pairs hq
    exact ⟨_, there⟩
  all yes := ⟨_, answers.all (answers.catchesAll ▸ yes)⟩

theorem get_set_get (u v : Uleb) : (u.set v.get).get = v.get := Uleb.get_set v.value.toNat_lt

/-- After a refresh, the clauses of `g` are those of `h`. -/
theorem Answers.clauses (answers : Answers s h g) (renewed : Renewed s g k) : k.clauses = h.clauses := by
  have both : List.Forall₂ (fun p q : CatchPair => (q.type.get, q.address.get) = (p.type.get, p.address.get)) h.pairs k.pairs := by
    refine Sequence.forall₂_of_common answers.pairs.flip renewed.pairs fun q p r same stored => ?_
    obtain ⟨type, there⟩ := same
    obtain ⟨a, here, rfl⟩ := stored
    obtain rfl : p.address.get = a := Option.some.inj (there.symm.trans here)
    rw [← type, get_set_get]
  have pairs := map_congr_forall₂ both fun _ _ _ same => same
  have catchesAll : k.catchesAll = h.catchesAll := by
    rw [renewed.rest]
    exact answers.catchesAll
  rw [CatchHandler.clauses, CatchHandler.clauses, pairs, catchesAll]
  split
  · next yes =>
    obtain ⟨a, here, stored⟩ := renewed.all (answers.catchesAll.trans yes)
    obtain rfl : h.allAddress.get = a := Option.some.inj ((answers.all yes).symm.trans here)
    rw [stored, get_set_get]
  · rfl

/-! ## Lines -/

theorem updateSize_updateSize (h : CatchHandler) : h.updateSize.updateSize = h.updateSize :=
  congrArg (fun size => { h with size }) (Sleb.set_set h.size h.signedLength)

theorem updateSize_withClauses (es : List CatchRange) :
    CatchHandler.updateSize (es.foldl (withClause labels pool) {}) = es.foldl (withClause labels pool) {} := by
  refine List.foldlRecOn (motive := fun g : CatchHandler => g.updateSize = g) es _ (rfl : CatchHandler.updateSize {} = {}) fun g _ e _ => ?_
  unfold withClause
  split
  · exact updateSize_updateSize _
  · exact updateSize_updateSize _

theorem fair_withClauses (es : List CatchRange) : CatchHandler.Fair (es.foldl (withClause labels pool) {}) := by
  refine List.foldlRecOn (motive := CatchHandler.Fair) es _ CatchHandler.fair_empty fun g fair e _ => ?_
  unfold withClause
  split
  · exact fair.setAll _
  · exact fair.addPair _ _

/-- The lines of typed clauses add one pair each. -/
theorem withClauses_pairs (ps : List CatchPair) (typed : ∀ p ∈ ps, (c.typeAt p.type.get).isZero = false) (g : CatchHandler) : ∃ size,
    (ps.map fun p => line t (c.typeAt p.type.get) .catchOne p.address.get).foldl (withClause labels pool) g = { g with
      size
      pairs := g.pairs ++ ps.map fun p => {
        type := Uleb.set {} (typeIndex pool (c.typeAt p.type.get))
        handler := lookup labels (LabelKind.catchOne.name p.address.get) } } := by
  induction ps generalizing g with
  | nil => exact ⟨g.size, by simp⟩
  | cons p ps ih =>
    let e := line t (c.typeAt p.type.get) .catchOne p.address.get
    have typedHead : e.isCatchAll = false := typed p List.mem_cons_self
    have here : withClause labels pool g e = g.addPair (typeIndex pool e.type) (lookup labels e.handler) := by
      rw [withClause, typedHead]
      rfl
    obtain ⟨size, rest⟩ := ih (fun q hq => typed q (List.mem_cons_of_mem _ hq)) (withClause labels pool g e)
    refine ⟨size, ?_⟩
    rw [List.map_cons, List.foldl_cons, rest, here]
    simp [CatchHandler.addPair, CatchHandler.updateSize, e, line]

theorem ne_none_of_addressOf? {x : Handle} {a : Int} (there : s.addressOf? x = some a) : x ≠ .none := by
  rintro rfl
  cases there

/-- The handler made from the lines of `h` answers to `h`. -/
theorem answers_lines (typed : ∀ p ∈ h.pairs, (c.typeAt p.type.get).isZero = false)
    (indexed : ∀ p ∈ h.pairs, typeIndex pool (c.typeAt p.type.get) = p.type.get)
    (found : ∀ e ∈ marks t h, s.addressOf? (lookup labels e.2) = some e.1) :
    Answers s h ((c.lines t h).foldl (withClause labels pool) {}) := by
  obtain ⟨size, made⟩ := @withClauses_pairs c labels pool t h.pairs typed {}
  have pairs : List.Forall₂ (fun p q : CatchPair => q.type.get = p.type.get ∧ s.addressOf? q.handler = some p.address.get) h.pairs
      (h.pairs.map fun p => {
        type := Uleb.set {} (typeIndex pool (c.typeAt p.type.get))
        handler := lookup labels (LabelKind.catchOne.name p.address.get) }) := by
    rw [List.forall₂_map_right_iff, List.forall₂_same]
    intro p hp
    refine ⟨by rw [indexed p hp, get_set_get], ?_⟩
    exact found (mark .catchOne p.address.get) (List.mem_append_left _ (List.mem_append_right _ (List.mem_map.2 ⟨p, hp, rfl⟩)))
  rw [lines, List.foldl_append, made]
  split
  · next all =>
    have there : s.addressOf? (lookup labels (LabelKind.catchAll.name h.allAddress.get)) = some h.allAddress.get := by
      refine found (mark .catchAll h.allAddress.get) (List.mem_append_right _ ?_)
      rw [if_pos all]
      exact List.mem_singleton_self _
    have stored : (lookup labels (LabelKind.catchAll.name h.allAddress.get) != Handle.none) = true :=
      bne_iff_ne.2 (ne_none_of_addressOf? there)
    exact ⟨pairs, stored.trans all.symm, fun _ => there⟩
  · next all => exact ⟨pairs, (Bool.eq_false_iff.2 all).symm, fun yes => absurd yes all⟩

/-! ## Ranges -/

/-- The bounds of `x` have the addresses that the bounds of `t` have. -/
structure RangeAnswers (s : Sequence) (t x : TryItem) : Prop where
  first : s.addressOf? x.first = some (t.start.toNat : Int)
  past : s.addressOf? x.past = some t.stop

theorem RangeAnswers.span (answers : RangeAnswers c.code t x) : c.span x = .ok (bounds t) :=
  span_eq_ok.2 ⟨answers.first, answers.past⟩

end CodeItem

end Dalvik
