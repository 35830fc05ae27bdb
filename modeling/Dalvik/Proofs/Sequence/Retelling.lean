import Dalvik.Proofs.Payload.Contents
import Dalvik.Proofs.Sequence.Current
import Dalvik.Proofs.Sequence.Places
import Dalvik.Proofs.Sequence.Telling

/-!
# Sequences that are told and assembled again

A sequence that is laid out can be refreshed if every branch can hold the distance to its target,
every case leads to an item, and the values of sparse tables are strictly increasing; then no item
is moved (`exists_refresh`).

What `addElements` makes of the blocks of a current sequence has the same items, except for padding,
at the same addresses (`addressOf?_of_meets`), and can be refreshed (`exists_refresh_of_echoes`). If
an instruction holds nothing that its element does not show, the result has the same bytes
(`bytes_of_places`). So a sequence that was decoded, told and assembled has the bytes that were read
(`bytes_decode_addElements`).
-/

namespace Dalvik.Sequence

variable {s t : Sequence} {n m : Nat} {ns : List Nat} {x : Item}

/-- The offsets of the item can be written, and its values are sorted. -/
structure Encodable (s : Sequence) (n : Nat) (x : Item) : Prop where
  target : ∀ i, x = .plain i → i.hasTarget = true → i.target ≠ .finish ∧ ∃ a b j, s.address? n = some a ∧
    s.addressOf? i.target = some b ∧ i.setData (b - a) = .ok j
  cases : ∀ c ∈ x.cases, c.handle ≠ .finish ∧ ∃ b, s.addressOf? c.handle = some b
  ascending : ∀ t, x = .sparse t → t.keys.Pairwise fun k l => signed32 k < signed32 l

theorem Recoded.encodable (h : Recoded s t) (hx : Encodable s n x) : Encodable t n x where
  target i e has := by
    obtain ⟨ne, a, b, j, ha, hb, hj⟩ := hx.target i e has
    exact ⟨ne, a, b, j, by rw [h.address?, ha], by rw [h.addressOf?, hb], hj⟩
  cases c hc := by
    obtain ⟨ne, b, hb⟩ := hx.cases c hc
    exact ⟨ne, b, by rw [h.addressOf?, hb]⟩
  ascending := hx.ascending

/-! ## One pass -/

theorem exists_encodeBranch (h : ∀ x, s.item? n = some x → Encodable s n x) : ∃ t, (encodeBranch n).Gives s false t := by
  refine Action.exists_gives_get ?_
  split
  · next i a k hn =>
    have encodable := h (.plain i) (item?_of_node? hn)
    split
    · next has =>
      obtain ⟨ne, p, b, j, hp, hb, hj⟩ := encodable.target i rfl has
      rw [address?, hn, Option.map_some] at hp
      cases hp
      simp only [if_neg ne, hb, hj, Action.gives_bind, Action.gives_modify, Action.gives_pure]
      exact ⟨_, ⟨⟩, _, rfl, trivial, rfl⟩
    · exact ⟨s, Action.gives_pure.2 ⟨rfl, rfl⟩⟩
  · exact ⟨s, Action.gives_pure.2 ⟨rfl, rfl⟩⟩

theorem exists_encodeCases {op : Opcode} {base : Int} {i : Nat} {cs : List Case}
    (h : ∀ c ∈ cs, c.handle ≠ .finish ∧ ∃ b, s.addressOf? c.handle = some b) : ∃ cs', s.encodeCases op base i cs = (.ok ⟨⟩, cs') := by
  induction cs generalizing i with
  | nil => exact ⟨[], rfl⟩
  | cons c cs ih =>
    obtain ⟨ne, b, hb⟩ := h c List.mem_cons_self
    obtain ⟨cs', rest⟩ := @ih (i + 1) fun d hd => h d (List.mem_cons_of_mem _ hd)
    exact ⟨c.setOffset (b - base) :: cs', by simp only [encodeCases, if_neg ne, hb, rest]⟩

theorem exists_encodeTable (h : ∀ x, s.item? n = some x → ∀ c ∈ x.cases, c.handle ≠ .finish ∧ ∃ b, s.addressOf? c.handle = some b) :
    ∃ t, (encodeTable n).Gives s ⟨⟩ t := by
  refine Action.exists_gives_get ?_
  split
  · next x hx =>
    split
    · next base _ =>
      obtain ⟨cs, run⟩ := @exists_encodeCases s x.opcode base 0 x.cases (h x hx)
      simp only [run, Action.gives_bind, Action.gives_modify, Action.gives_lift]
      exact ⟨_, ⟨⟩, _, rfl, trivial, rfl⟩
    · exact ⟨s, Action.gives_pure.2 ⟨rfl, rfl⟩⟩
  · exact ⟨s, Action.gives_pure.2 ⟨rfl, rfl⟩⟩

/-- `encodeBranch` does not change the cases of tables. -/
theorem cases_encodeBranch {g : Bool} (h : (encodeBranch n).Gives s g t) {y : Item} (hy : t.item? m = some y) :
    y.cases = [] ∨ s.item? m = some y := by
  rcases gives_encodeBranch h with ⟨-, rfl, -⟩ | ⟨i, a, dest, hi, -, -, -, -, ⟨-, j, -, rfl⟩ | ⟨-, op, j, -, -, rfl⟩⟩
  · exact .inr hy
  all_goals
    rw [item?_modifyItem] at hy
    split at hy
    · next e =>
      subst e
      rw [hi, Option.map_some] at hy
      cases hy
      exact .inl rfl
    · exact .inr hy

/-- A pass over `Encodable` items succeeds and widens no jump. -/
theorem exists_encodes (nodup : ns.Nodup) (h : ∀ n ∈ ns, ∀ x, s.item? n = some x → Encodable s n x) : ∃ t, Encodes ns s false t := by
  induction ns generalizing s with
  | nil => exact ⟨s, .nil s⟩
  | cons n ns ih =>
    obtain ⟨fresh, nodup⟩ := List.nodup_cons.1 nodup
    have here := h n List.mem_cons_self
    obtain ⟨u, branch⟩ := exists_encodeBranch here
    have after := recoded_encodeBranch branch
    obtain ⟨v, table⟩ : ∃ v, (encodeTable n).Gives u ⟨⟩ v := by
      refine exists_encodeTable fun y hy c hc => ?_
      rcases cases_encodeBranch branch hy with absent | hx
      · rw [absent] at hc
        cases hc
      · obtain ⟨ne, b, hb⟩ := (here y hx).cases c hc
        exact ⟨ne, b, by rw [after.addressOf?, hb]⟩
    have both := after.trans (recoded_encodeTable table)
    obtain ⟨w, rest⟩ := @ih v nodup fun m hm x hx => by
      have ne : n ≠ m := fun e => fresh (e ▸ hm)
      rw [item?_encodeTable table ne, item?_encodeBranch branch ne] at hx
      exact both.encodable (h m (List.mem_cons_of_mem _ hm) x hx)
    exact ⟨w, .cons branch table rest⟩

/-! ## Payloads -/

theorem Item.exists_refresh {x : Item} (ascending : ∀ t, x = .sparse t → t.keys.Pairwise fun k l => signed32 k < signed32 l) :
    ∃ y, Item.refresh.Gives x ⟨⟩ y := by
  cases x with
  | plain i => exact ⟨_, rfl⟩
  | packed p => exact ⟨_, rfl⟩
  | array a => exact ⟨_, rfl⟩
  | sparse t =>
    have run : SparseTable.refresh.apply t = _ := SparseTable.gives_refresh_of_increasing (ascending t rfl)
    refine ⟨.sparse { t with unsorted := false }.updateSize, ?_⟩
    simp only [Item.refresh, Action.gives_of, run]

theorem exists_refreshItem (ascending : ∀ t, s.item? n = some (.sparse t) → t.keys.Pairwise fun k l => signed32 k < signed32 l) :
    ∃ t, (refreshItem n).Gives s ⟨⟩ t := by
  refine Action.exists_gives_get ?_
  split
  · exact ⟨s, Action.gives_pure.2 ⟨rfl, rfl⟩⟩
  · exact ⟨s, Action.gives_pure.2 ⟨rfl, rfl⟩⟩
  · next x _ hx =>
    obtain ⟨y, run⟩ := Item.exists_refresh (x := x) fun t e => ascending t (e ▸ hx)
    rw [Action.Gives] at run
    simp only [run, Action.gives_bind, Action.gives_modify, Action.gives_lift]
    exact ⟨_, ⟨⟩, _, rfl, trivial, rfl⟩

theorem exists_each_refreshItem (nodup : ns.Nodup)
    (ascending : ∀ n ∈ ns, ∀ t, s.item? n = some (.sparse t) → t.keys.Pairwise fun k l => signed32 k < signed32 l) :
    ∃ t, Action.Each refreshItem ns s t := by
  induction ns generalizing s with
  | nil => exact ⟨s, .nil s⟩
  | cons n ns ih =>
    obtain ⟨fresh, nodup⟩ := List.nodup_cons.1 nodup
    obtain ⟨u, head⟩ := exists_refreshItem (ascending n List.mem_cons_self)
    have others := (gives_refreshItem head).others
    obtain ⟨v, rest⟩ := @ih u nodup fun m hm t ht => by
      have ne : m ∉ [n] := fun e => fresh (List.mem_singleton.1 e ▸ hm)
      rw [others m (.inl ne)] at ht
      exact ascending m (List.mem_cons_of_mem _ hm) t ht
    exact ⟨v, .cons head rest⟩

/-! ## The whole -/

/-- Such a pass does not change the values of sparse tables. -/
theorem Encodes.ascending (pass : Encodes ns s false t) (h : ∀ x, s.item? n = some x → Encodable s n x) {u : SparseTable}
    (hu : t.item? n = some (.sparse u)) : u.keys.Pairwise fun k l => signed32 k < signed32 l := by
  obtain ⟨x, hx, same⟩ := pass.recoded.of_item? hu
  have opcode : Opcode.sparseSwitchPayload = x.opcode := (pass.sameSize hx hu).2
  have payload : true = x.isPayload := same.isPayload
  have values : u.values = x.caseKeys := same.caseKeys
  cases x with
  | plain i => cases payload
  | packed p => exact absurd opcode (show Opcode.sparseSwitchPayload ≠ Opcode.packedSwitchPayload by decide)
  | array a => exact absurd opcode (show Opcode.sparseSwitchPayload ≠ Opcode.arrayPayload by decide)
  | sparse v =>
    have increasing : v.values.Pairwise (· < ·) := List.pairwise_map.2 ((h _ hx).ascending v rfl)
    rw [show v.values = u.values from values.symm] at increasing
    exact List.pairwise_map.1 increasing

/-- `t` has the same handles at the same addresses as `s`, and its items are encoded and refreshed. -/
structure Placed (s t : Sequence) : Prop where
  eq : t = { s with nodes := t.nodes, references := t.references, size := t.size }
  handle? : ∀ n, t.handle? n = s.handle? n
  address? : ∀ n, t.address? n = s.address? n
  item? : ∀ n ∈ s.items.toList, ∀ x, s.item? n = some x → ∃ y z, Encoded s n x y ∧ Item.refresh.Gives y ⟨⟩ z ∧ t.item? n = some z

/-- `refresh` of a sequence that is laid out succeeds and moves nothing, if its items are `Encodable`. -/
theorem exists_refresh (linked : Linked s s.items.toList) (depth : s.depth = 0) (snug : Snug s) (claimed : Claimed s)
    (encodable : ∀ n ∈ s.items.toList, ∀ x, s.item? n = some x → Encodable s n x) : ∃ t, refresh.Gives s ⟨⟩ t ∧ Placed s t := by
  have gathered : ∀ n ∈ s.items.toList, ∀ x, s.collectReferences.item? n = some x → Encodable s.collectReferences n x :=
    fun n hn x hx => ⟨(encodable n hn x hx).target, (encodable n hn x hx).cases, (encodable n hn x hx).ascending⟩
  obtain ⟨u, pass⟩ := exists_encodes linked.nodup gathered
  have recoded := pass.recoded
  have items : u.items = s.items := recoded.items
  obtain ⟨v, loop⟩ : ∃ v, Action.Each refreshItem u.items.toList u v := by
    rw [items]
    exact exists_each_refreshItem linked.nodup fun n hn t ht => pass.ascending (gathered n hn) ht
  have renewed := renewed_of_each loop (items ▸ linked.nodup)
  refine ⟨{ v with size := v.size.map (·.set v.units) }, gives_refresh.2 ⟨depth, u, v, ?_, loop, rfl⟩,
    ?_, fun n => ?_, fun n => ?_, fun n hn x hx => ?_⟩
  · rw [snug.relink_of_claimed linked claimed]
    exact gives_settle_succ.2 (.inl pass)
  · rw [renewed.eq, recoded.eq]
    rfl
  · exact (renewed.handle? n).trans (recoded.handle? n)
  · exact (renewed.address? n).trans (recoded.address? n)
  · obtain ⟨y, hy, encoded⟩ := pass.encoded linked.nodup hn hx
    obtain ⟨z, hz, fresh⟩ := renewed.renewed n (by rw [items]; exact hn) y hy
    exact ⟨y, z, encoded.congr rfl fun _ => rfl, fresh, hz⟩

end Dalvik.Sequence

namespace Dalvik.Item

/-- An item that repeats another one has the same bytes once it is encoded and refreshed. -/
theorem bytes_of_repeats {x y z : Item} {cs : List Case} (hx : x.Shaped) (hy : y.Shaped) (payload : x.isPayload = true)
    (refreshed : x.Refreshed) (terse : x.Terse) (repeats : x.Repeats y) (fresh : Item.refresh.Gives (y.setCases cs) ⟨⟩ z)
    (same : cs.map Case.bytes = x.cases.map Case.bytes) : z.bytes = x.bytes := by
  have length : cs.length = x.cases.length := by simpa using congrArg List.length same
  cases x with
  | plain i => cases payload
  | packed p =>
    cases y with
    | packed q =>
      obtain rfl : _ = z := (Prod.mk.inj fresh).2
      have size : p.size = UInt16.ofNat p.cases.length := refreshed
      have first : q.first = p.first := repeats
      have identifier : q.identifier = p.identifier := hy.trans hx.symm
      simp only [Item.bytes, Item.pieces, PackedTable.pieces, PackedTable.updateSize, identifier, first, size,
        same, length, Item.cases]
    | _ => cases repeats
  | sparse t =>
    cases y with
    | sparse u =>
      obtain ⟨size, increasing⟩ := (refreshed : t.size = _ ∧ _)
      have keys : u.keys = t.keys := repeats
      have identifier : u.identifier = t.identifier := hy.1.trans hx.1.symm
      obtain rfl := eq_of_refresh_sparse (t := { u with cases := cs }) (by rw [keys]; exact increasing) fresh
      simp only [Item.bytes, Item.pieces, SparseTable.pieces, SparseTable.updateSize, identifier, keys, size, same, length, Item.cases]
    | _ => cases repeats
  | array a =>
    cases y with
    | array b =>
      obtain rfl : _ = z := (Prod.mk.inj fresh).2
      obtain rfl : b = a := Except.ok.inj ((repeats : _ = _).symm.trans (ArrayPayload.Shaped.setValues_values hx terse))
      rfl
    | _ => cases repeats

end Dalvik.Item

namespace Dalvik.Sequence

open Assembly (Body Element)

variable {s t base : Sequence} {n m : Nat} {x : Item} {body body' : Body} {extra : List (Int × Bytes)} {h k : Handle}
  {ns : List Nat} {bs : List Block} {ys : List Item}

/-- The item `y` takes the place of the item at node `n`, and has no owner yet. -/
structure Echoes (s : Sequence) (n : Nat) (y : Item) : Prop where
  echo : ∃ x, s.item? n = some x ∧ x.Echo (Follows s) y
  unowned : ∀ o, y.owner? = some o → o = .none

/-! ## What is assembled -/

theorem owner?_aimed {z : Item} {hs : List Handle} : (z.aimed hs).owner? = z.owner? := by
  cases z <;> rfl

theorem owner?_of_retold {z : Item} (retold : x.Retold z) {o : Handle} (owner : z.owner? = some o) : o = .none := by
  cases retold with
  | plain => cases owner
  | packed _ absent => exact (Option.some.inj owner).symm.trans absent
  | sparse _ absent => exact (Option.some.inj owner).symm.trans absent
  | array => cases owner

theorem exists_zipWith {P : Nat → Block → Prop} {M : Block → Item → Prop} {F : Block → List Handle → Prop} {E : Nat → Item → Prop}
    (rel : List.Forall₂ P ns bs) (each : ∀ n ∈ ns, ∀ b, P n b → ∃ z hs, M b z ∧ F b hs ∧ E n (z.aimed hs)) :
    ∃ zs hss, List.Forall₂ M bs zs ∧ List.Forall₂ F bs hss ∧ List.Forall₂ E ns (List.zipWith (fun z hs => z.aimed hs) zs hss) := by
  induction rel with
  | nil => exact ⟨[], [], .nil, .nil, .nil⟩
  | cons head _ ih =>
    obtain ⟨z, hs, make, find, echo⟩ := each _ List.mem_cons_self _ head
    obtain ⟨zs, hss, makes, finds, echoes⟩ := ih fun n hn => each n (List.mem_cons_of_mem _ hn)
    exact ⟨z :: zs, hs :: hss, .cons make makes, .cons find finds, .cons echo echoes⟩

/-- The blocks of a sequence make items that echo its items. -/
theorem Current.exists_echoes (current : Current s) (owns : Owns s) (spared : Spared s) (named : Named extra)
    (spoken : List.Forall₂ (Spoken s body extra) s.solids bs) (locals : body'.locals = body.locals) :
    ∃ zs hss, List.Forall₂ (fun b z => Makes s.pool body' b.2 z) bs zs ∧
      List.Forall₂ (fun b hs => Finds (handlesOf bs (labelsAt s.units [] extra)) b.2 hs) bs hss ∧
      List.Forall₂ (Echoes s) s.solids (List.zipWith (fun z hs => z.aimed hs) zs hss) := by
  refine exists_zipWith spoken fun n hn b here => ?_
  obtain ⟨mem, hard⟩ := List.mem_filter.1 hn
  obtain ⟨y, hy, -, told⟩ := here
  have item := item?_of_node? hy
  rw [Sequence.solid, item, Option.any_some, Bool.not_eq_true'] at hard
  obtain ⟨z, retold, made⟩ := told.assembled body' locals
  obtain ⟨hs, finds, follows⟩ := current.exists_finds owns spared named spoken mem item told
  refine ⟨z, hs, ⟨told.line.1, made⟩, finds, ⟨y.item, item, ?_⟩, fun o owner => ?_⟩
  · exact retold.echo (current.shaped n mem _ item) hard follows
  · rw [owner?_aimed] at owner
    exact owner?_of_retold retold owner

/-! ## Where it stands -/

theorem Echoes.rooms (echoes : List.Forall₂ (Echoes s) ns ys) : (ns.filterMap fun n => (s.item? n).map Item.room) = ys.map Item.room := by
  induction echoes with
  | nil => rfl
  | cons head _ ih =>
    obtain ⟨x, hx, echo⟩ := head.echo
    rw [List.filterMap_cons, hx, Option.map_some, ih, List.map_cons]
    rw [show x.room = Item.room _ from Prod.ext echo.isPayload.symm echo.codeUnits.symm]

theorem room_setOwner (o : Handle) (y : Item) : (y.setOwner o).room = y.room := by
  cases y <;> rfl

theorem mem_of_solids {j : Nat} (hm : s.solids[j]? = some m) : m ∈ s.items.toList := (List.mem_filter.1 (List.mem_of_getElem? hm)).1

theorem Lays.mem_items (lays : Lays ys t) (lt : n < ys.length) : n ∈ t.items.toList := by
  have mem : n ∈ t.items.toList.filter t.solid := by
    rw [lays.order]
    exact List.mem_range.2 lt
  exact (List.mem_filter.1 mem).1

theorem Lays.stops (lays : Lays ys t) : (List.range ys.length).map t.address? ++ [some (t.units : Int)] =
    (Sequence.stops 0 (ys.map Item.room)).map fun p : Nat => some (p : Int) := by
  have rooms : ((List.range ys.length).filterMap fun n => (t.item? n).map Item.room) = ys.map Item.room := by
    have each : (List.range ys.length).map (fun n => (t.item? n).map Item.room) = ys.map fun y => some y.room := by
      refine List.ext_getElem (by simp) fun n lt _ => ?_
      rw [List.length_map, List.length_range] at lt
      obtain ⟨o, ho⟩ := lays.item? n ys[n] (List.getElem?_eq_getElem lt)
      rw [List.getElem_map, List.getElem_map, List.getElem_range, ho, Option.map_some, room_setOwner]
    have flat := congrArg (List.filterMap id) each
    simpa [List.filterMap_map, Function.comp_def] using flat
  have stops := lays.snug.stops
  rwa [lays.order, rooms] at stops

theorem addressOf?_of_named (named : s.named? h = some m) : s.addressOf? h = s.address? m := by
  rw [addressOf?, if_neg (ne_finish_of_named? named), namedNode?, named]
  rfl

theorem Follows.ne_finish (follows : Follows s h k) : k ≠ .finish := by
  obtain ⟨j, -, rfl, -⟩ := follows
  exact ne_of_gt (Int.lt_of_lt_of_le (by decide : Handle.finish < 0) (Int.natCast_nonneg j))

section Places

variable (current : Current s) (lays : Lays ys t) (echoes : List.Forall₂ (Echoes s) s.solids ys)
include current lays echoes

theorem places : s.solids.map s.address? = (List.range ys.length).map t.address? ∧ t.units = s.units := by
  have stops := current.snug.stops
  rw [show s.items.toList.filter s.solid = s.solids from rfl, Echoes.rooms echoes, ← lays.stops] at stops
  obtain ⟨addresses, units⟩ := List.append_inj' stops rfl
  refine ⟨addresses, ?_⟩
  simpa using units.symm

/-- The item in the place of another has its address. -/
theorem address?_of_getElem? {j : Nat} (hj : s.solids[j]? = some m) : t.address? j = s.address? m := by
  have same := congrArg (fun l : List (Option Int) => l[j]?) (places current lays echoes).1
  have lt : j < ys.length := by
    rw [← echoes.length_eq]
    exact (List.getElem?_eq_some_iff.1 hj).1
  simpa [hj, lt] using same.symm

theorem addressOf?_of_follows (follows : Follows s h k) : t.addressOf? k = s.addressOf? h := by
  obtain ⟨j, m, rfl, hj, named⟩ := follows
  have lt : j < ys.length := by
    rw [← echoes.length_eq]
    exact (List.getElem?_eq_some_iff.1 hj).1
  have here : t.named? (j : Handle) = some j := lays.linked.named?_iff.2 ⟨j, rfl, lays.handle? j lt⟩
  rw [addressOf?_of_named here, addressOf?_of_named named, address?_of_getElem? current lays echoes hj]

theorem addressOf?_of_meets (meets : Meets s h k) : t.addressOf? k = s.addressOf? h := by
  rcases meets with ⟨rfl, rfl⟩ | follows
  · rw [addressOf?, if_pos rfl, addressOf?, if_pos rfl, (places current lays echoes).2]
  · exact addressOf?_of_follows current lays echoes follows

/-- The offsets of the item in the place of another can be written. -/
theorem encodable_of_getElem? (owns : Owns s) {j : Nat} (hm : s.solids[j]? = some m) {w : Item} (hx : s.item? m = some x)
    (echo : x.Echo (Follows s) w) : Encodable t j w := by
  have mem : m ∈ s.items.toList := mem_of_solids hm
  have lands : ∀ l ∈ w.leads, ∃ l' ∈ x.leads, l.2 ≠ .finish ∧ t.addressOf? l.2 = s.addressOf? l'.2 := by
    intro l hl
    obtain ⟨l', hl', follows⟩ := exists_left echo.leads hl
    exact ⟨l', hl', follows.ne_finish, addressOf?_of_follows current lays echoes follows⟩
  refine ⟨fun i e has => ?_, fun c hc => ?_, fun v e => ?_⟩
  · -- The branch has the form of the one whose place it takes, and as far to go.
    obtain ⟨l, hl, ne, same⟩ := lands _ (Item.mem_leads.2 (.inl ⟨i, e, has, rfl⟩))
    have opcode : i.opcode = x.opcode := by rw [← echo.opcode, e]; rfl
    rcases Item.mem_leads.1 hl with ⟨i₀, rfl, has₀, rfl⟩ | ⟨c, hc, -⟩
    · obtain ⟨m', a, b, named, ha, hb, data⟩ := (current.written m mem _ hx).target i₀ rfl has₀
      have shaped : i.Shaped := by
        have := echo.shaped
        rwa [e] at this
      have shaped₀ : i₀.Shaped := current.shaped m mem _ hx
      have width : i.dataWidth = i₀.dataWidth := Instruction.dataWidth_of_opcode opcode
      have shift : i.dataShift = i₀.dataShift := Instruction.dataShift_of_opcode opcode
      have range := Instruction.data_range (shaped₀.hasData has₀) data
      rw [← width, ← shift] at range
      obtain ⟨i', stored⟩ := shaped.exists_setData (shaped.hasData has) range
      exact ⟨ne, a, b, i', by rw [address?_of_getElem? current lays echoes hm, ha], by rw [same, addressOf?_of_named named, hb], stored⟩
    · have payload : x.isPayload = true := by
        cases x with
        | plain => cases hc
        | _ => rfl
      rw [← echo.isPayload, e] at payload
      cases payload
  · obtain ⟨l, hl, ne, same⟩ := lands _ (Item.mem_leads.2 (.inr ⟨c, hc, rfl⟩))
    obtain ⟨m', b, named, hb⟩ := current.exists_lead owns mem hx hl
    exact ⟨ne, b, by rw [same, addressOf?_of_named named, hb]⟩
  · subst e
    have repeats := echo.repeats
    cases x with
    | sparse u =>
      have refreshed : Item.Refreshed (.sparse u) := Item.refreshed_refresh (current.payloads m mem _ hx)
      rw [show v.keys = u.keys from repeats]
      exact refreshed.2
    | _ => cases repeats

end Places

/-! ## Refreshing it -/

/-- The items in the places of those of a current sequence can be refreshed. -/
theorem exists_refresh_of_echoes (current : Current s) (owns : Owns s) (lays : Lays ys t) (echoes : List.Forall₂ (Echoes s) s.solids ys)
    (depth : t.depth = 0) : ∃ u, refresh.Gives t ⟨⟩ u ∧ Placed t u := by
  refine exists_refresh lays.linked depth lays.snug lays.claimed fun n hn y hy => ?_
  rcases Nat.lt_or_ge n ys.length with lt | ge
  · obtain ⟨o, ho⟩ := lays.item? n ys[n] (List.getElem?_eq_getElem lt)
    rw [hy] at ho
    cases ho
    have lt' : n < s.solids.length := echoes.length_eq ▸ lt
    have here : Echoes s s.solids[n] ys[n] := echoes.get lt' lt
    obtain ⟨x, hx, echo⟩ := here.echo
    exact encodable_of_getElem? current lays echoes owns (List.getElem?_eq_getElem lt') hx (echo.setOwner o)
  · -- What is left is padding.
    have bare := lays.padding n y ge hy
    cases y with
    | plain i =>
      have opcode : i.opcode = Instruction.padding.opcode := congrArg Item.opcode bare
      have absent : i.hasTarget = false := by
        rw [Instruction.hasTarget, opcode]
        decide
      refine ⟨fun j e has => ?_, fun _ hc => (by cases hc), fun _ e => (by cases e)⟩
      cases e
      rw [absent] at has
      cases has
    | _ => cases bare

theorem Lays.shaped (lays : Lays ys t) (shaped : ∀ y ∈ ys, y.Shaped) (hx : t.item? n = some x) : x.Shaped := by
  rcases Nat.lt_or_ge n ys.length with lt | ge
  · obtain ⟨o, ho⟩ := lays.item? n ys[n] (List.getElem?_eq_getElem lt)
    obtain rfl := Option.some.inj (hx.symm.trans ho)
    have here := shaped ys[n] (List.getElem_mem lt)
    cases y : ys[n] <;> rw [y] at here <;> exact here
  · rw [← Item.shaped_unlinked, lays.padding n x ge hx, Item.shaped_unlinked]
    exact Item.shaped_padding

theorem Lays.increasing (lays : Lays ys t) (shaped : ∀ y ∈ ys, y.Shaped) : Increasing t :=
  lays.snug.laid.pairwise fun _ _ hx => (lays.shaped shaped hx).extent_pos

/-- Encoding and refreshing do not change the address of a handle. -/
theorem Placed.addressOf? (placed : Placed s t) (h : Handle) : t.addressOf? h = s.addressOf? h := by
  have arena : t.arena = s.arena := by rw [placed.eq]
  have units : t.units = s.units := by rw [placed.eq]
  by_cases finish : h = .finish
  · rw [finish, Sequence.addressOf?, Sequence.addressOf?, if_pos rfl, if_pos rfl, units]
  · have named : t.named? h = s.named? h := by rw [Sequence.named?, Sequence.named?, arena]
    refine Option.ext fun a => ?_
    rw [addressOf?_eq_some finish, addressOf?_eq_some finish, named]
    simp only [placed.address?]

theorem Placed.items (placed : Placed s t) : t.items = s.items := by rw [placed.eq]

theorem Placed.linked (placed : Placed s t) (linked : Linked s s.items.toList) : Linked t t.items.toList := by
  rw [placed.items]
  exact linked.congr placed.handle? (by rw [placed.eq])

/-- What was told of a current sequence can be assembled and refreshed, and the items echo those that were told. -/
theorem Current.exists_assembled {body body' : Body} {extra : List (Int × Bytes)} {bs : List Block} {cs : List Assembly.CatchRange}
    (current : Current s) (owns : Owns s) (spared : Spared s) (named : Named extra)
    (spoken : List.Forall₂ (Spoken s body extra) s.solids bs) (locals : body'.locals = body.locals)
    (elements : body'.elements = bs.flatMap Block.lines ++ (labelsAt s.units [] extra).map .label ++ cs.map .catchRange)
    (size : Option Cell) : ∃ ys t u,
      (addElements body').Gives { size, pool := s.pool } (handlesOf bs (labelsAt s.units [] extra)) t ∧ t.pool = s.pool ∧ t.moves = #[] ∧
      Lays ys t ∧ List.Forall₂ (Echoes s) s.solids ys ∧ Sequence.refresh.Gives t ⟨⟩ u ∧ Placed t u := by
  obtain ⟨zs, hss, makes, finds, echoes⟩ := current.exists_echoes owns spared named spoken locals
  have added : (addElements body').Gives { size, pool := s.pool } (handlesOf bs (labelsAt s.units [] extra))
      (filled { size, pool := s.pool } (List.zipWith (fun z hs => Item.aimed hs z) zs hss)).relink := gives_addElements elements makes (current.nodup_names named spoken) finds
  generalize List.zipWith (fun z hs => Item.aimed hs z) zs hss = ys at added echoes
  have solid : ∀ y ∈ ys, y.isPadding = false := by
    intro y hy
    obtain ⟨n, -, here⟩ := exists_left echoes hy
    obtain ⟨x, -, echo⟩ := here.echo
    exact echo.isPadding
  have unowned : ∀ y ∈ ys, ∀ o, y.owner? = some o → o < 0 := by
    intro y hy o owner
    obtain ⟨n, -, here⟩ := exists_left echoes hy
    rw [here.unowned o owner]
    decide
  obtain ⟨lays, moves⟩ : Lays ys (filled { size, pool := s.pool } ys).relink ∧ _ := lays_filled solid unowned
  have evolves := (linked_filled { size, pool := s.pool } ys).relink_evolves
  have depth : (filled { size, pool := s.pool } ys).relink.depth = 0 := evolves.depth
  obtain ⟨u, refreshed, placed⟩ := exists_refresh_of_echoes current owns lays echoes depth
  exact ⟨ys, _, u, added, evolves.pool, moves, lays, echoes, refreshed, placed⟩

/-! ## The bytes -/

section Bytes

variable (current : Current s) (lays : Lays ys t) (echoes : List.Forall₂ (Echoes s) s.solids ys)
include current lays echoes

theorem named?_of_follows {j : Nat} (hm : s.solids[j]? = some m) (follows : Follows s h k) : s.named? h = some m ↔ t.named? k = some j := by
  obtain ⟨j', m', rfl, hm', named⟩ := follows
  have lt := (List.getElem?_eq_some_iff.1 hm').1
  have nodup : s.solids.Nodup := current.linked.nodup.sublist List.filter_sublist
  have here : t.named? (j' : Handle) = some j' := lays.linked.named?_iff.2 ⟨j', rfl, lays.handle? j' (echoes.length_eq ▸ lt)⟩
  rw [named, here, Option.some.injEq, Option.some.injEq]
  constructor
  · rintro rfl
    exact (List.getElem?_inj lt nodup).1 (hm'.trans hm.symm)
  · rintro rfl
    exact Option.some.inj (hm'.symm.trans hm)

/-- The switch in the place of another claims the table in the place of the one that the other claims. -/
theorem claims?_of_places {i j : Nat} (hn : s.solids[i]? = some n) (hm : s.solids[j]? = some m) :
    s.claims? n = some m ↔ t.claims? i = some j := by
  obtain ⟨y, hy, here⟩ := exists_getElem?_right echoes hn
  obtain ⟨x, hx, echo⟩ := here.echo
  obtain ⟨o, ho⟩ := lays.item? i y hy
  have mem : n ∈ s.items.toList := mem_of_solids hn
  cases x with
  | plain i₀ =>
    cases y with
    | plain i₁ =>
      have ho : t.item? i = some (.plain i₁) := ho
      have opcode : i₁.opcode = i₀.opcode := echo.opcode
      have follows : i₀.opcode.is .switch = true → Follows s i₀.target i₁.target := by
        intro switch
        have has : i₀.hasTarget = true := by
          rw [Instruction.hasTarget, Opcode.payloadRef_of_switch _ (Instruction.Shaped.mem (current.shaped n mem _ hx)) switch, Bool.or_true]
        have leads := echo.leads
        rw [Item.leads, Item.leads, if_pos has, if_pos (by rwa [Instruction.hasTarget, opcode])] at leads
        exact (List.forall₂_cons.1 leads).1
      simp only [Sequence.claims?, hx, ho, opcode]
      split
      · next switch => exact named?_of_follows current lays echoes hm (follows switch)
      · simp
    | _ => cases echo.repeats
  | _ =>
    cases y with
    | plain i₁ => cases echo.repeats
    | _ =>
      simp only [Sequence.claims?, hx, ho, Item.setOwner]
      simp

/-- The owner of the table in the place of another has the address of the owner of that one. -/
theorem addressOf?_owner (blank : Blank s) (blank' : Blank t) {j : Nat} (hm : s.solids[j]? = some m) (hx : s.item? m = some x) (hy : t.item? j = some y)
    (owner : x.owner? = some h) (owner' : y.owner? = some k) : t.addressOf? k = s.addressOf? h := by
  have lt := echoes.length_eq ▸ (List.getElem?_eq_some_iff.1 hm).1
  have mem : m ∈ s.items.toList := mem_of_solids hm
  have mem' := lays.mem_items lt
  let r : Nat → Nat := fun i => (s.solids[i]?).getD 0
  have numbered : ∀ i < ys.length, s.solids[i]? = some (r i) := by
    intro i lt
    have lt' : i < s.solids.length := echoes.length_eq ▸ lt
    simp only [r, List.getElem?_eq_getElem lt', Option.getD_some]
  have solids : s.solids = (List.range ys.length).map r := by
    refine List.ext_getElem? fun i => ?_
    rcases Nat.lt_or_ge i ys.length with lt | ge
    · rw [numbered i lt, List.getElem?_map, List.getElem?_range lt, Option.map_some]
    · rw [List.getElem?_eq_none (echoes.length_eq ▸ ge), List.getElem?_eq_none (by simpa using ge)]
  have last : lastTo s.claims? m s.items.toList = (lastTo t.claims? j t.items.toList).map r := by
    rw [← lastTo_filter fun n hn => blank.solid_of_claims? hn, ← lastTo_filter fun n hn => blank'.solid_of_claims? hn, lays.order]
    change lastTo s.claims? m s.solids = _
    rw [solids]
    exact lastTo_map fun i hi => claims?_of_places current lays echoes (numbered i (List.mem_range.1 hi)) hm
  rw [lays.claimed j mem' y k hy owner', current.claimed m mem x h hx owner, last]
  cases found : lastTo t.claims? j t.items.toList with
  | none => rfl
  | some i =>
    obtain ⟨hi, claims⟩ := mem_of_lastTo found
    have lt : i < ys.length := by
      have : i ∈ t.items.toList.filter t.solid := List.mem_filter.2 ⟨hi, blank'.solid_of_claims? hi claims⟩
      rw [lays.order] at this
      exact List.mem_range.1 this
    have mem : r i ∈ s.items.toList := mem_of_solids (numbered i lt)
    change t.addressOf? (t.handleOf i) = s.addressOf? (s.handleOf (r i))
    rw [addressOf?_of_named (lays.linked.named?_handleOf hi), addressOf?_of_named (current.linked.named?_handleOf mem),
      address?_of_getElem? current lays echoes (numbered i lt)]

/-- The offsets of cases are the same if they lead to the same addresses. -/
theorem bytes_of_landed {base : Int} {cs ds es : List Case} (follow : List.Forall₂ (fun c d => Follows s c.handle d.handle) cs ds)
    (landed : List.Forall₂ (Landed t base) ds es)
    (written : ∀ c ∈ cs, ∃ m b, s.named? c.handle = some m ∧ s.address? m = some b ∧ c.offset = UInt32.ofInt (b - base)) :
    es.map Case.bytes = cs.map Case.bytes := by
  induction follow generalizing es with
  | nil =>
    cases landed
    rfl
  | @cons c d cs ds follows _ ih =>
    obtain ⟨e, es, ⟨-, b, hb, rfl⟩, rest, rfl⟩ := List.forall₂_cons_left_iff.1 landed
    obtain ⟨m, b', named, hb', offset⟩ := written c List.mem_cons_self
    rw [addressOf?_of_follows current lays echoes follows, addressOf?_of_named named, hb'] at hb
    obtain rfl := Option.some.inj hb
    rw [List.map_cons, List.map_cons, ih rest fun c hc => written c (List.mem_cons_of_mem _ hc)]
    simp only [Case.bytes, Case.setOffset, offset]

/-- The item in the place of another has the same bytes. -/
theorem bytesOf_of_places (owns : Owns s) (blank : Blank s) (blank' : Blank t) (terse : ∀ n ∈ s.items.toList, ∀ x, s.item? n = some x → x.Terse)
    (placed : Placed t u) {j : Nat} (hm : s.solids[j]? = some m) : u.bytesOf j = s.bytesOf m := by
  obtain ⟨y, hy, here⟩ := exists_getElem?_right echoes hm
  obtain ⟨x, hx, echo⟩ := here.echo
  obtain ⟨o, ho⟩ := lays.item? j y hy
  have echo := echo.setOwner o
  generalize y.setOwner o = y at ho echo
  have mem : m ∈ s.items.toList := mem_of_solids hm
  have mem' := lays.mem_items (echoes.length_eq ▸ (List.getElem?_eq_some_iff.1 hm).1)
  have written := current.written m mem x hx
  have shaped := current.shaped m mem x hx
  have terse := terse m mem x hx
  have refreshed : x.Refreshed := Item.refreshed_refresh (current.payloads m mem x hx)
  obtain ⟨e, z, encoded, fresh, hz⟩ := placed.item? j mem' y ho
  rw [bytesOf_of_item? hz, bytesOf_of_item? hx]
  have payload : x.isPayload = y.isPayload := echo.isPayload.symm
  cases encoded with
  | @still i absent =>
    cases x with
    | plain i₀ =>
      have copies : i₀.Copies i := echo.repeats
      have opcode : i.opcode = i₀.opcode := echo.opcode
      have units := copies terse
      rw [Instruction.hasTarget, ← opcode, ← Instruction.hasTarget, absent, if_neg Bool.false_ne_true] at units
      obtain rfl : _ = z := (Prod.mk.inj fresh).2
      simp only [Item.bytes, Item.pieces, Instruction.bytes, units]
    | _ => cases payload
  | @branch i i' a b has ne here there stored =>
    cases x with
    | plain i₀ =>
      have copies : i₀.Copies i := echo.repeats
      have opcode : i.opcode = i₀.opcode := echo.opcode
      have has₀ : i₀.hasTarget = true := by rwa [Instruction.hasTarget, ← opcode]
      have again := copies terse
      rw [if_pos has₀] at again
      obtain ⟨m', p, q, named, hp, hq, data⟩ := written.target i₀ rfl has₀
      have leads := echo.leads
      rw [Item.leads, Item.leads, if_pos has₀, if_pos has] at leads
      have follows : Follows s i₀.target i.target := (List.forall₂_cons.1 leads).1
      rw [address?_of_getElem? current lays echoes hm, hp] at here
      rw [addressOf?_of_follows current lays echoes follows, addressOf?_of_named named, hq] at there
      obtain rfl := Option.some.inj here
      obtain rfl := Option.some.inj there
      obtain ⟨w, stored', units⟩ := again _ data
      obtain rfl := Except.ok.inj (stored'.symm.trans stored)
      obtain rfl : _ = z := (Prod.mk.inj fresh).2
      simp only [Item.bytes, Item.pieces, Instruction.bytes, units]
    | _ => cases payload
  | @table y o' base cs owner there landed =>
    have table : y.isPayload = true := by
      cases y with
      | plain i => cases owner
      | _ => rfl
    obtain ⟨o, owner₀⟩ := Option.isSome_iff_exists.1 ((Item.owner?_of_repeats echo.repeats).symm.trans (Option.isSome_of_eq_some owner))
    have stands := addressOf?_owner current lays echoes blank blank' hm hx ho owner₀ owner
    refine Item.bytes_of_repeats shaped echo.shaped (payload.trans table) refreshed terse echo.repeats fresh ?_
    refine bytes_of_landed current lays echoes ?_ landed (written.cases o base owner₀ (stands.symm.trans there))
    have leads := echo.leads
    rw [Item.leads_of_payload (payload.trans table), Item.leads_of_payload table, List.forall₂_map_left_iff,
      List.forall₂_map_right_iff] at leads
    exact leads
  | unowned table absent =>
    have same := Item.owner?_of_repeats echo.repeats
    cases owner : x.owner? with
    | some o =>
      -- The table has an owner, which stands somewhere.
      obtain ⟨o', owner'⟩ := Option.isSome_iff_exists.1 (same.trans (Option.isSome_of_eq_some owner))
      obtain ⟨base, hbase⟩ := current.exists_owner mem hx owner (owns m mem x hx o owner)
      have stands := addressOf?_owner current lays echoes blank blank' hm hx ho owner owner'
      rw [absent o' owner', hbase] at stands
      cases stands
    | none =>
      refine Item.bytes_of_repeats shaped echo.shaped (payload.trans table) refreshed terse echo.repeats
        (by rw [setCases_cases]; exact fresh) ?_
      rw [Item.cases_of_unowned owner, Item.cases_of_unowned (Option.isNone_iff_eq_none.1 (by rw [← Option.not_isSome, same, owner]; rfl))]

end Bytes

theorem Lays.blank (lays : Lays ys t) (solid : ∀ y ∈ ys, y.isPadding = false) : Blank t := by
  intro n hn x hx padding
  rcases Nat.lt_or_ge n ys.length with lt | ge
  · obtain ⟨o, ho⟩ := lays.item? n ys[n] (List.getElem?_eq_getElem lt)
    obtain rfl := Option.some.inj (hx.symm.trans ho)
    rw [show (ys[n].setOwner o).isPadding = ys[n].isPadding by cases ys[n] <;> rfl, solid _ (List.getElem_mem lt)] at padding
    cases padding
  · have same := lays.padding n x ge hx
    refine ⟨?_, ?_⟩
    · rw [← Item.unlinked_opcode, same, Item.unlinked_opcode]
      rfl
    · rw [Item.bytes, ← Item.unlinked_pieces, same, Item.unlinked_pieces]
      decide

/-- Padding stays zero. -/
theorem Placed.bytesOf_of_isPad (placed : Placed t u) (blank : Blank t) (hn : n ∈ t.items.toList) (pad : IsPad t n) :
    u.bytesOf n = [0, 0] := by
  obtain ⟨x, hx, padding⟩ := pad
  obtain ⟨nop, bytes⟩ := blank n hn x hx padding
  obtain ⟨y, z, encoded, fresh, hz⟩ := placed.item? n hn x hx
  rw [bytesOf_of_item? hz, ← bytes]
  cases encoded with
  | still absent =>
    obtain rfl : _ = z := (Prod.mk.inj fresh).2
    rfl
  | @branch i j a b has =>
    rw [Instruction.hasTarget, show i.opcode = Opcode.nop from nop] at has
    exact absurd has (by decide)
  | table owner =>
    cases x with
    | plain i => cases owner
    | _ => cases padding
  | unowned payload absent =>
    cases x with
    | plain i => cases payload
    | _ => cases padding

/-- The items in the places of those of a current sequence make the same bytes. -/
theorem bytes_of_places (current : Current s) (lays : Lays ys t) (echoes : List.Forall₂ (Echoes s) s.solids ys) (owns : Owns s)
    (blank : Blank s) (terse : ∀ n ∈ s.items.toList, ∀ x, s.item? n = some x → x.Terse) (placed : Placed t u) : u.bytes = s.bytes := by
  have blank' : Blank t := by
    refine lays.blank fun y hy => ?_
    obtain ⟨n, -, here⟩ := exists_left echoes hy
    obtain ⟨x, -, echo⟩ := here.echo
    exact echo.isPadding
  have zero : ∀ n ∈ s.items.toList, IsPad s n → s.bytesOf n = [0, 0] := by
    rintro n hn ⟨x, hx, padding⟩
    rw [bytesOf_of_item? hx, (blank n hn x hx padding).2]
  have rows : (List.range ys.length).map (fun n => ((t.address? n).getD 0, t.unitsOf n, u.bytesOf n)) =
      s.solids.map fun n => ((s.address? n).getD 0, s.unitsOf n, s.bytesOf n) := by
    refine List.ext_getElem (by simp [echoes.length_eq]) fun j lt lt' => ?_
    rw [List.length_map] at lt lt'
    rw [List.getElem_map, List.getElem_map, List.getElem_range]
    have hm : s.solids[j]? = some s.solids[j] := List.getElem?_eq_getElem lt'
    obtain ⟨y, hy, here⟩ := exists_getElem?_right echoes hm
    obtain ⟨x, hx, echo⟩ := here.echo
    obtain ⟨o, ho⟩ := lays.item? j y hy
    rw [address?_of_getElem? current lays echoes hm, unitsOf_of_item? ho, unitsOf_of_item? hx, (echo.setOwner o).codeUnits,
      bytesOf_of_places current lays echoes owns blank blank' terse placed hm]
  calc u.bytes = t.items.toList.flatMap u.bytesOf := by rw [bytes_eq (placed.linked lays.linked), placed.items]
    _ = spelled 0 (s.solids.map fun n => ((s.address? n).getD 0, s.unitsOf n, s.bytesOf n)) := by
      rw [lays.snug.spelled fun n hn => placed.bytesOf_of_isPad blank' hn, lays.order, rows]
    _ = s.items.toList.flatMap s.bytesOf := (current.snug.spelled zero).symm
    _ = s.bytes := (bytes_eq current.linked).symm

/-- What was told of a current sequence is assembled and refreshed to the bytes of the sequence. -/
theorem Current.exists_copy (current : Current s) (owns : Owns s) (spared : Spared s) (blank : Blank s)
    (terse : ∀ n ∈ s.items.toList, ∀ x, s.item? n = some x → x.Terse) (sound : ∀ p ∈ s.pool, p.Sound) (body : Body) (size : Option Cell) :
    ∃ es labels t u, s.toElements body [] = .ok es ∧ (addElements { body with elements := es }).Gives { size, pool := s.pool } labels t ∧
      Sequence.refresh.Gives t ⟨⟩ u ∧ u.bytes = s.bytes ∧ u.pool = s.pool := by
  have few : ∀ n ∈ s.items.toList, ∀ i, s.item? n = some (.plain i) → i.Few := fun n hn i hi =>
    Instruction.Canonical.few (terse n hn _ hi)
  have named : Named [] := nofun
  have apart : ∀ e ∈ ([] : List (Int × Bytes)), ∀ n ∈ s.items.toList, s.address? n = some e.1 → s.solid n = true := nofun
  obtain ⟨bs, told, spoken⟩ := current.exists_toElements owns few sound spared apart body
  let es := bs.flatMap Block.lines ++ (labelsAt s.units [] []).map .label
  have locals : ({ body with elements := es } : Body).locals = body.locals := rfl
  have elements : ({ body with elements := es } : Body).elements = es ++ ([] : List Assembly.CatchRange).map .catchRange := by
    rw [List.map_nil, List.append_nil]
  obtain ⟨ys, t, u, added, pool, -, lays, echoes, refreshed, placed⟩ :=
    current.exists_assembled owns spared named spoken locals elements size
  refine ⟨_, _, t, u, told, added, refreshed, bytes_of_places current lays echoes owns blank terse placed, ?_⟩
  rw [placed.eq, pool]

/-! ## What was read -/

/-- For a sequence that was decoded from items with payloads at even addresses, strictly increasing sparse tables, and
tables to which exactly switches lead: `toElements`, then `addElements` into a new sequence over the same pool, and
then `refresh` succeed, and the result is encoded as the bytes that were read, if no instruction holds anything that
its element does not show (`Terse`). -/
theorem bytes_decode_addElements {c c' : Cursor} {xs : List Item} {cell : Cell} {pool : Option Pool} (hc : c.Sane)
    (run : (decode c).Gives { size := some cell, pool } c' s) (scan : Scan c xs c') (nonneg : 0 ≤ cell.get)
    (sound : ∀ p ∈ pool, p.Sound) (aligned : Aligned xs) (ascending : Ascending xs) (only : SwitchOnly xs)
    (owned : ∀ q ∈ spread 0 xs, q.2.owner?.isSome = true → ∃ p ∈ spread 0 xs, dest? p = some q.1) (terse : ∀ x ∈ xs, x.Terse)
    (body : Body) (size : Option Cell) :
    ∃ es labels t u, s.toElements body [] = .ok es ∧ (addElements { body with elements := es }).Gives { size, pool } labels t ∧
      refresh.Gives t ⟨⟩ u ∧ u.bytes = s.bytes ∧ c.Spans u.bytes c' ∧ u.pool = pool := by
  obtain ⟨current, -⟩ := current_decode hc run scan aligned only ascending rfl fun _ e => by
    cases e
    exact nonneg
  have spans := spans_decode hc run scan aligned only.switched
  obtain ⟨v, reads, gathered, rfl, spared, blank⟩ := collected_of_decode hc run scan aligned only
  have kept : v.collectReferences.pool = pool := by
    change v.pool = pool
    rw [gathered.eq]
    exact (fields_scanned _ xs).2.2.1
  have owns : Owns v.collectReferences := gathered.owns reads owned
  obtain ⟨es, labels, t, u, told, added, refreshed, bytes, same⟩ := current.exists_copy owns spared blank
    (gathered.terse reads terse) (kept ▸ sound) body size
  rw [kept] at added same
  exact ⟨es, labels, t, u, told, added, refreshed, bytes, bytes ▸ spans, same⟩

/-- A switch, padding, and its table. -/
theorem bytes_of_padded_switch :
    let c := Cursor.ofBytes [0x2b, 0, 6, 0, 0, 0, 0x0e, 0, 0x0e, 0, 0, 0, 0, 1, 1, 0, 0, 0, 0, 0, 3, 0, 0, 0]
    ∃ s c' es labels t u, (decode c).Gives { size := some (.int 12), pool := some {} } c' s ∧ s.toElements {} [] = .ok es ∧
      (addElements { elements := es }).Gives { pool := some {} } labels t ∧ refresh.Gives t ⟨⟩ u ∧
      c.Spans u.bytes c' ∧ u.pool = some {} := by
  intro c
  let b : Sequence := { size := some (.int 12), pool := some {} }
  let x : Instruction := { opcode := (Opcode.ofUnit? 0x2b).getD .nop, units := [0x2b, 6, 0] }
  let y : Instruction := { opcode := (Opcode.ofUnit? 0x0e).getD .nop, units := [0x0e] }
  let z : Instruction := { opcode := .nop, units := [0] }
  let p : PackedTable := { size := 1, cases := [{ offset := 3 }] }
  let xs : List Item := [.plain x, .plain y, .plain y, .plain z, .packed p]
  have sane : c.Sane := ⟨by decide +kernel, Nat.zero_le _⟩
  have s₁ : Scan { c with pos := 12 } [.packed p] { c with pos := 24 } :=
    .cons [0, 1] (Action.eq_ok_of_toOption (by decide +kernel)) (Action.eq_ok_of_toOption (by decide +kernel)) (.nil _)
  have s₂ : Scan { c with pos := 10 } [.plain z, .packed p] { c with pos := 24 } :=
    .cons [0, 0] (Action.eq_ok_of_toOption (by decide +kernel)) (Action.eq_ok_of_toOption (by decide +kernel)) s₁
  have s₃ : Scan { c with pos := 8 } [.plain y, .plain z, .packed p] { c with pos := 24 } :=
    .cons [0x0e, 0] (Action.eq_ok_of_toOption (by decide +kernel)) (Action.eq_ok_of_toOption (by decide +kernel)) s₂
  have s₄ : Scan { c with pos := 6 } [.plain y, .plain y, .plain z, .packed p] { c with pos := 24 } :=
    .cons [0x0e, 0] (Action.eq_ok_of_toOption (by decide +kernel)) (Action.eq_ok_of_toOption (by decide +kernel)) s₃
  have scan : Scan c xs { c with pos := 24 } :=
    .cons [0x2b, 0] (Action.eq_ok_of_toOption (by decide +kernel)) (Action.eq_ok_of_toOption (by decide +kernel)) s₄
  have ends : ((decode c).apply b).1.toOption = some { c with pos := 24 } := by decide +kernel
  have run : (decode c).Gives b { c with pos := 24 } ((decode c).apply b).2 := Action.gives_of_toOption ends
  have ascending : Ascending xs := by
    intro x hx t e
    subst e
    simp [xs] at hx
  obtain ⟨es, labels, t, u, told, added, refreshed, -, spans, pool⟩ := bytes_decode_addElements sane run scan (by decide +kernel)
    (fun p hp => Option.some.inj hp ▸ Pool.sound_empty) (by decide +kernel) ascending (by decide +kernel) (by decide +kernel)
    (by decide +kernel) {} none
  exact ⟨_, _, es, labels, t, u, run, told, added, refreshed, spans, pool⟩

end Dalvik.Sequence
