import Dalvik.Proofs.CodeItem.Storable
import Dalvik.Proofs.Sequence.Storing

/-!
# What a refresh leaves in ranges and handlers

A `refresh` that succeeds has found an address for every handle of a range or a handler, and stores
these addresses (`Renewed`, `exists_of_refreshTries`). The offset of a handler is where the one
before it ends.
-/

namespace Dalvik

namespace CodeItem

open Dalvik.Action (except_bind_eq_ok)
open Sequence (exists_left)

variable {c d : CodeItem} {s t : Sequence} {h k : CatchHandler} {hs ks : List CatchHandler} {o slot : Nat} {slots : List Nat}
  {table : Table CatchHandler}

/-! ## The list of handlers -/

/-- No slot is empty or listed twice, and the LEB128 fields of handlers can be decoded. -/
structure Listed (table : Table CatchHandler) : Prop where
  nodup : table.order.Nodup
  filled : ∀ s ∈ table.order, (table.value? s).isSome
  fair : ∀ s h, table.value? s = some h → h.Fair

namespace Listed

variable (listed : Listed table)
include listed

theorem modifySlot {f : CatchHandler → CatchHandler} (fair : ∀ h, table.value? slot = some h → h.Fair → (f h).Fair) :
    Listed (table.modifySlot slot f) where
  nodup := listed.nodup
  filled k hk := by
    rw [Table.value?_modifySlot]
    split <;> simpa using listed.filled k hk
  fair k h hk := by
    rw [Table.value?_modifySlot] at hk
    split at hk
    · next e =>
      obtain ⟨g, hg, rfl⟩ := Option.map_eq_some_iff.1 hk
      exact fair g (by rw [e, hg]) (listed.fair k g hg)
    · exact listed.fair k h hk

theorem foldl_modifySlot {f : CatchHandler → CatchHandler} (fair : ∀ h, h.Fair → (f h).Fair) (slots : List Nat) :
    Listed (slots.foldl (fun t s => t.modifySlot s f) table) :=
  List.foldlRecOn slots _ listed fun _ here _ _ => here.modifySlot fun h _ => fair h

theorem placeHandlers (o : Nat) (slots : List Nat) : Listed (placeHandlers o slots table) := by
  induction slots generalizing o table with
  | nil => exact listed
  | cons s slots ih =>
    have here : Listed (table.modifySlot s fun h => { h with offset := o }) :=
      listed.modifySlot fun h _ fair => ⟨fair.size, fair.pairs, fair.allAddress⟩
    exact ih here _

end Listed

/-! ## Places -/

theorem value?_placeHandlers_of_notMem (absent : slot ∉ slots) :
    (placeHandlers o slots table).value? slot = table.value? slot := by
  induction slots generalizing o table with
  | nil => rfl
  | cons s slots ih =>
    obtain ⟨ne, absent⟩ := List.ne_and_not_mem_of_not_mem_cons absent
    rw [placeHandlers, ih absent, Table.value?_modifySlot, if_neg (Ne.symm ne)]

/-- `placeHandlers` gives each handler the offset where the one before it ends. -/
theorem filterMap_placeHandlers (nodup : slots.Nodup) :
    slots.filterMap (placeHandlers o slots table).value? = layoutFrom o (slots.filterMap table.value?) := by
  induction slots generalizing o table with
  | nil => rfl
  | cons s slots ih =>
    obtain ⟨absent, nodup⟩ := List.nodup_cons.1 nodup
    have rest := @ih (o + ((table.value? s).map CatchHandler.byteCount).getD 0)
      (table.modifySlot s fun h => { h with offset := o }) nodup
    rw [Table.value?_modifySlot_of_notMem absent] at rest
    rw [List.filterMap_cons, List.filterMap_cons, placeHandlers, rest, value?_placeHandlers_of_notMem absent,
      Table.value?_modifySlot, if_pos rfl]
    cases table.value? s <;> rfl

theorem order_placeHandlers (o : Nat) (slots : List Nat) (table : Table CatchHandler) :
    (placeHandlers o slots table).order = table.order ∧ (placeHandlers o slots table).count = table.count := by
  induction slots generalizing o table with
  | nil => exact ⟨rfl, rfl⟩
  | cons s slots ih => exact ih _ _

theorem layoutFrom_layoutFrom (o : Nat) (hs : List CatchHandler) : layoutFrom o (layoutFrom o hs) = layoutFrom o hs := by
  induction hs generalizing o with
  | nil => rfl
  | cons h hs ih =>
    rw [layoutFrom, layoutFrom]
    exact congrArg _ (ih _)

/-- A handler ends inside the list. -/
theorem offset_le_of_mem_layoutFrom (mem : k ∈ layoutFrom o hs) :
    k.offset + k.byteCount ≤ o + (hs.flatMap CatchHandler.bytes).length := by
  induction hs generalizing o with
  | nil => cases mem
  | cons h hs ih =>
    rw [List.flatMap_cons, List.length_append, ← CatchHandler.byteCount_eq]
    rcases List.mem_cons.1 mem with rfl | mem
    · have same : CatchHandler.byteCount { h with offset := o } = h.byteCount := rfl
      dsimp only
      omega
    · have := ih mem
      omega

/-! ## Handlers -/

theorem length_le_length_flatMap {α β : Type} {f : α → List β} {xs : List α} (pos : ∀ x ∈ xs, 0 < (f x).length) :
    xs.length ≤ (xs.flatMap f).length := by
  induction xs with
  | nil => exact Nat.zero_le _
  | cons x xs ih =>
    have here := pos x List.mem_cons_self
    have rest := ih fun y hy => pos y (List.mem_cons_of_mem _ hy)
    rw [List.flatMap_cons, List.length_append, List.length_cons]
    omega

/-- Each pair is encoded in at least one byte. -/
theorem length_pairs_le (fair : h.Fair) : h.pairs.length ≤ h.bytes.length := by
  have pairs : h.pairs.length ≤ (h.pairs.flatMap CatchPair.bytes).length := by
    refine length_le_length_flatMap fun p hp => ?_
    have := List.length_pos_iff.2 (fair.pairs p hp).1.bytes_ne_nil
    rw [CatchPair.bytes_eq, List.length_append]
    omega
  rw [CatchHandler.bytes_eq, List.length_append, List.length_append]
  omega

/-- `q` is the pair `p` with the address of its handle. -/
def RenewedPair (code : Sequence) (p q : CatchPair) : Prop :=
  ∃ a, code.addressOf? p.handler = some a ∧ q = { p with address := p.address.set a }

/-- `k` is the handler `h` with its size and the addresses of its handles. -/
structure Renewed (code : Sequence) (h k : CatchHandler) : Prop where
  pairs : List.Forall₂ (RenewedPair code) h.pairs k.pairs
  all : h.catchesAll = true → ∃ a, code.addressOf? h.all = some a ∧ k.allAddress = h.allAddress.set a
  rest : k = { h with
    size := h.size.set h.signedLength, pairs := k.pairs, allAddress := if h.catchesAll then k.allAddress else h.allAddress }

theorem Renewed.size_eq (renewed : Renewed s h k) : k.size = h.size.set k.signedLength := by
  have length : k.pairs.length = h.pairs.length := renewed.pairs.length_eq.symm
  have signedLength : k.signedLength = h.signedLength := by
    rw [CatchHandler.signedLength, CatchHandler.signedLength, length, renewed.rest]
  rw [signedLength, renewed.rest]

section Renewed

variable (near : ∀ x a, s.addressOf? x = some a → ∃ n : Nat, a = n ∧ n < 2 ^ 31)
include near

/-- What is stored in a `Renewed` handler is right, if it has fewer than 2^31 pairs. -/
theorem Renewed.stored (renewed : Renewed s h k) (few : k.pairs.length < 2 ^ 31) : Stored s k where
  size := by
    rw [renewed.size_eq, Sleb.get_set]
    all_goals
      unfold CatchHandler.signedLength
      split <;> omega
  pairs := by
    intro q hq
    obtain ⟨p, -, a, there, rfl⟩ := exists_left renewed.pairs hq
    obtain ⟨n, rfl, small⟩ := near _ _ there
    rw [there, Uleb.get_set (by omega)]
  all := by
    intro catchesAll
    have before : h.catchesAll = true := by
      rw [renewed.rest] at catchesAll
      exact catchesAll
    obtain ⟨a, there, stored⟩ := renewed.all before
    obtain ⟨n, rfl, small⟩ := near _ _ there
    rw [stored, Uleb.get_set (by omega), renewed.rest]
    exact there

omit near

theorem Renewed.fair (renewed : Renewed s h k) (fair : h.Fair) : k.Fair where
  size := by
    rw [renewed.rest]
    exact fair.size.set _
  pairs := by
    intro q hq
    obtain ⟨p, hp, a, -, rfl⟩ := exists_left renewed.pairs hq
    exact ⟨(fair.pairs p hp).1, (fair.pairs p hp).2.set a⟩
  allAddress := by
    cases all : h.catchesAll with
    | true =>
      obtain ⟨a, -, stored⟩ := renewed.all all
      rw [stored]
      exact fair.allAddress.set a
    | false =>
      rw [renewed.rest, all]
      exact fair.allAddress

end Renewed

theorem forall₂_of_storePairs {v : Unit} {ps qs : List CatchPair} (h : c.storePairs ps = (.ok v, qs)) :
    List.Forall₂ (RenewedPair c.code) ps qs := by
  induction ps generalizing qs with
  | nil =>
    cases h
    exact .nil
  | cons p ps ih =>
    rw [storePairs] at h
    cases e : c.address p.handler "catch" with
    | error stop =>
      rw [e] at h
      cases h
    | ok a =>
      rcases tail : c.storePairs ps with ⟨r, rest⟩
      rw [e, tail] at h
      cases h
      exact .cons ⟨a, address_eq_ok.1 e, rfl⟩ (ih tail)

theorem gives_refreshHandler (run : (refreshHandler slot).Gives c ⟨⟩ d) : ∃ f : CatchHandler → CatchHandler,
    d = { c with handlers := c.handlers.modifySlot slot f } ∧
      ∀ h, c.handlers.value? slot = some h → Renewed c.code h (f h) := by
  unfold refreshHandler at run
  simp only [Action.gives_bind, Action.gives_get] at run
  obtain ⟨_, _, ⟨rfl, rfl⟩, run⟩ := run
  split at run
  · next absent =>
    obtain ⟨-, rfl⟩ := Action.gives_pure.1 run
    refine ⟨id, ?_, fun h hh => ?_⟩
    · rw [Table.modifySlot_eq_self fun h _ => id_eq h]
    · rw [absent] at hh
      cases hh
  · next h here =>
    have only : ∀ {f : CatchHandler → CatchHandler}, Renewed c.code h (f h) →
        ∀ k, c.handlers.value? slot = some k → Renewed c.code k (f k) := by
      intro f renewed k hk
      rw [here] at hk
      cases hk
      exact renewed
    simp only [Action.gives_bind, Action.gives_modify, Action.gives_lift] at run
    obtain ⟨_, _, rfl, _, _, ⟨stored, rfl⟩, run⟩ := run
    generalize qs_eq : (c.storePairs h.pairs).2 = qs at run
    have pairs := forall₂_of_storePairs (Prod.ext stored qs_eq)
    have length : qs.length = h.pairs.length := pairs.length_eq.symm
    split at run
    · next all =>
      simp only [Action.gives_bind, Action.gives_modify, Action.gives_lift] at run
      obtain ⟨a, _, ⟨found, rfl⟩, _, _, rfl, rfl⟩ := run
      refine ⟨fun k => CatchHandler.updateSize { k with pairs := qs, allAddress := k.allAddress.set a }, ?_, only ⟨pairs, ?_, ?_⟩⟩
      · simp only [Table.modifySlot_modifySlot]
        rfl
      · exact fun _ => ⟨a, address_eq_ok.1 found, rfl⟩
      · rw [if_pos all]
        simp only [CatchHandler.updateSize, CatchHandler.signedLength, length]
    · next all =>
      simp only [Action.gives_modify] at run
      subst run
      refine ⟨fun k => CatchHandler.updateSize { k with pairs := qs }, ?_, only ⟨pairs, fun yes => absurd yes all, ?_⟩⟩
      · simp only [Table.modifySlot_modifySlot]
        rfl
      · rw [if_neg all]
        simp only [CatchHandler.updateSize, CatchHandler.signedLength, length]

/-- Refreshing each handler makes it `Renewed`, and changes nothing else. -/
theorem each_refreshHandler (nodup : slots.Nodup) (each : Action.Each refreshHandler slots c d) :
    ∃ table, d = { c with handlers := table } ∧ table.order = c.handlers.order ∧ table.count = c.handlers.count ∧
      (∀ s ∉ slots, table.value? s = c.handlers.value? s) ∧ (Listed c.handlers → Listed table) ∧
      List.Forall₂ (Renewed c.code) (slots.filterMap c.handlers.value?) (slots.filterMap table.value?) := by
  induction each with
  | nil => exact ⟨_, rfl, rfl, rfl, fun _ _ => rfl, id, .nil⟩
  | @cons s slots c c₁ d head _ ih =>
    obtain ⟨absent, nodup⟩ := List.nodup_cons.1 nodup
    obtain ⟨f, rfl, renewed⟩ := gives_refreshHandler head
    obtain ⟨table, rfl, order, count, others, listed, rest⟩ := ih nodup
    have value? : ∀ i, (c.handlers.modifySlot s f).value? i =
        if s = i then (c.handlers.value? i).map f else c.handlers.value? i :=
      fun i => Table.value?_modifySlot s i f
    refine ⟨table, rfl, order, count, fun i hi => ?_, fun before => ?_, ?_⟩
    · obtain ⟨ne, absent⟩ := List.ne_and_not_mem_of_not_mem_cons hi
      rw [others i absent, value?, if_neg (Ne.symm ne)]
    · exact listed (before.modifySlot fun h here fair => (renewed h here).fair fair)
    · rw [Table.value?_modifySlot_of_notMem absent] at rest
      rw [List.filterMap_cons, List.filterMap_cons, others s absent, value?, if_pos rfl]
      cases e : c.handlers.value? s with
      | none => exact rest
      | some h => exact .cons (renewed h e) rest

/-! ## Ranges -/

/-- `y` is the range `x` with the addresses of its bounds; it is neither empty nor too long. -/
def RenewedTry (code : Sequence) (x y : TryItem) : Prop :=
  ∃ a b, code.addressOf? x.first = some a ∧ code.addressOf? x.past = some b ∧ a < b ∧ b - a ≤ 0xffff ∧ y = setSpan x (a, b)

theorem span_eq_ok {x : TryItem} {a b : Int} :
    c.span x = .ok (a, b) ↔ c.code.addressOf? x.first = some a ∧ c.code.addressOf? x.past = some b := by
  unfold CodeItem.span
  simp only [except_bind_eq_ok, address_eq_ok]
  constructor
  · rintro ⟨_, first, _, past, ⟨⟩⟩
    exact ⟨first, past⟩
  · rintro ⟨first, past⟩
    exact ⟨a, first, b, past, rfl⟩

/-- `refreshTries` finds the addresses of each range, and keeps the ranges that are not empty, sorted by their first
instruction. -/
theorem exists_of_refreshTries (run : refreshTries.Gives c ⟨⟩ d) : ∃ (ranges : List (TryItem × Int × Int)) (ys : List TryItem),
    ranges.map Prod.fst = c.tries ∧ (∀ q ∈ ranges, c.span q.1 = .ok q.2 ∧ q.2.2 - q.2.1 ≤ 0xffff) ∧ d = c.setTries ys ∧
    ys.Perm ((ranges.filter fun q => q.2.1 < q.2.2).map fun q => setSpan q.1 q.2) ∧
    ys.Pairwise fun x y => c.position x.first ≤ c.position y.first := by
  unfold refreshTries at run
  simp only [Action.gives_bind, Action.gives_get, Action.gives_lift] at run
  obtain ⟨_, _, ⟨rfl, rfl⟩, spans, _, ⟨each, rfl⟩, run⟩ := run
  have each := Action.except_mapM_eq_ok.1 each
  have firsts : (c.tries.zip spans).map Prod.fst = c.tries := List.map_fst_zip each.length_eq.le
  have found : ∀ q ∈ c.tries.zip spans, c.span q.1 = .ok q.2 := fun q hq => List.forall₂_zip each hq
  generalize c.tries.zip spans = qs at run firsts found
  obtain ⟨_, _, assigned, last⟩ := run
  obtain rfl := Action.gives_set.1 assigned
  generalize whole : qs.takeWhile (fun x => !decide (0xffff < x.2.2 - x.2.1)) = fits at last
  have absent : qs.drop fits.length = [] := by
    cases rest : qs.drop fits.length with
    | nil => rfl
    | cons q _ =>
      rw [rest] at last
      simp at last
  have begins : fits <+: qs := whole ▸ List.takeWhile_prefix _
  have all : fits = qs := begins.eq_of_length_le (List.drop_eq_nil_iff.1 absent)
  rw [absent, all] at last
  obtain ⟨-, rfl⟩ := Action.gives_pure.1 last
  refine ⟨qs, _, firsts, fun q hq => ⟨found q hq, ?_⟩, rfl, ?_, ?_⟩
  · have short := List.mem_takeWhile_imp (whole ▸ all.symm ▸ hq)
    rw [Bool.not_eq_true', decide_eq_false_iff_not] at short
    exact Int.not_lt.1 short
  · rw [List.append_nil]
    refine (List.mergeSort_perm _ _).trans (.of_eq ?_)
    rw [List.filter_map, List.map_map]
    rfl
  · refine (List.pairwise_mergeSort (fun x y z => ?_) (fun x y => ?_) _).imp fun le => of_decide_eq_true le
    · simp only [decide_eq_true_eq]
      exact le_trans
    · simp only [Bool.or_eq_true, decide_eq_true_eq]
      exact le_total _ _

theorem gives_refreshTries (run : refreshTries.Gives c ⟨⟩ d) : ∃ ys, d = c.setTries ys ∧
    (∀ y ∈ ys, ∃ x ∈ c.tries, RenewedTry c.code x y) ∧ ys.Pairwise fun x y => c.position x.first ≤ c.position y.first := by
  obtain ⟨ranges, ys, firsts, found, eq, perm, sorted⟩ := exists_of_refreshTries run
  refine ⟨ys, eq, fun y hy => ?_, sorted⟩
  obtain ⟨q, hq, rfl⟩ := List.mem_map.1 (perm.mem_iff.1 hy)
  obtain ⟨mem, nonempty⟩ := List.mem_filter.1 hq
  obtain ⟨span, short⟩ := found q mem
  obtain ⟨first, past⟩ := span_eq_ok.1 span
  exact ⟨q.1, firsts ▸ List.mem_map_of_mem mem, _, _, first, past, of_decide_eq_true nonempty, short, rfl⟩

theorem placeTry_eq_ok {x y : TryItem} :
    c.placeTry x = .ok y ↔ ∃ h, x.handler.bind c.handlers.value? = some h ∧
      y = { x with handlerOffset := UInt16.ofNat h.offset } := by
  unfold placeTry
  cases x.handler.bind c.handlers.value? with
  | none => simp [fault]
  | some h => simp [eq_comm]

/-! ## The whole -/

/-- `d` is the item `c` after `refreshGuards`, with the handlers `ks` and the ranges `zs`. -/
structure Rebuilt (c d : CodeItem) (table : Table CatchHandler) (ks : List CatchHandler) (zs : List TryItem) : Prop where
  eq : d = { c.setTries zs with padding := 0, handlers := if zs.isEmpty then table.clear else table }
  order : table.order = c.handlers.order
  count : table.count = c.handlers.count
  renewed : List.Forall₂ (Renewed c.code) c.handlers.values ks
  values : table.values = layoutFrom ((c.handlers.count.map Cell.size).getD 0) ks
  tries : ∀ z ∈ zs, ∃ x ∈ c.tries, ∃ y h, RenewedTry c.code x y ∧ y.handler.bind table.value? = some h ∧
    z = { y with handlerOffset := UInt16.ofNat h.offset }
  sorted : zs.Pairwise fun x y => c.position x.first ≤ c.position y.first
  listed : Listed c.handlers → Listed table

theorem rebuilt_of_refreshGuards (nodup : c.handlers.order.Nodup) (run : refreshGuards.Gives c ⟨⟩ d) :
    ∃ table ks zs, Rebuilt c d table ks zs := by
  unfold refreshGuards at run
  simp only [Action.gives_bind, Action.gives_get, Action.gives_forIn, Action.gives_modify, Action.gives_lift,
    Action.gives_set] at run
  obtain ⟨_, c₁, ranges, _, _, ⟨rfl, rfl⟩, _, c₂, each, _, _, rfl, _, _, ⟨rfl, rfl⟩, zs, _, ⟨placed, rfl⟩, rfl⟩ := run
  obtain ⟨ys, rfl, tries, sorted⟩ := gives_refreshTries ranges
  obtain ⟨renewed, rfl, order, count, -, listed, handlers⟩ := each_refreshHandler nodup each
  have placed : List.Forall₂ (fun y z => placeTry _ y = .ok z) ys zs := Action.except_mapM_eq_ok.1 placed
  let start := (renewed.count.map Cell.size).getD 0
  obtain ⟨order', count'⟩ := order_placeHandlers start renewed.order renewed
  refine ⟨placeHandlers start renewed.order renewed, renewed.values, zs, rfl, order'.trans order, count'.trans count,
    ?_, ?_, ?_, ?_, fun before => (listed before).placeHandlers start renewed.order⟩
  · rw [Table.values_eq renewed, order]
    exact handlers
  · have laid : renewed.order.filterMap (placeHandlers start renewed.order renewed).value? =
        layoutFrom start (renewed.order.filterMap renewed.value?) := filterMap_placeHandlers (order ▸ nodup)
    rw [Table.values_eq, order', laid, ← Table.values_eq, ← show renewed.count = c.handlers.count from count]
  · intro z hz
    obtain ⟨y, hy, place⟩ := exists_left placed hz
    obtain ⟨h, found, rfl⟩ := placeTry_eq_ok.1 place
    obtain ⟨x, hx, renewed⟩ := tries y hy
    exact ⟨x, hx, y, h, renewed, found, rfl⟩
  · have positions : (zs.map fun z => c.position z.first) = ys.map fun y => c.position y.first := by
      refine map_congr_forall₂ placed fun y _ z place => ?_
      obtain ⟨h, -, rfl⟩ := placeTry_eq_ok.1 place
      rfl
    have sorted : (ys.map fun y => c.position y.first).Pairwise (· ≤ ·) := List.pairwise_map.2 sorted
    rw [← positions] at sorted
    exact List.pairwise_map.1 sorted

theorem Listed.length_values (listed : Listed table) : table.values.length = table.order.length := by
  have each : ∀ slots : List Nat, (∀ s ∈ slots, (table.value? s).isSome) →
      (slots.filterMap table.value?).length = slots.length := by
    intro slots filled
    induction slots with
    | nil => rfl
    | cons s slots ih =>
      obtain ⟨h, hh⟩ := Option.isSome_iff_exists.1 (filled s List.mem_cons_self)
      rw [List.filterMap_cons, hh, List.length_cons, List.length_cons, ih fun k hk => filled k (List.mem_cons_of_mem _ hk)]
  exact each table.order listed.filled

/-- The counts and offsets of a refreshed item fit their fields, and each handler has a clause. -/
structure Compact (d : CodeItem) : Prop where
  code : d.code.Compact
  size : ∃ u, d.code.size = some (.int u)
  tries : d.tries.length < 2 ^ 16
  handlers : d.handlerPieces.flatten.length < 2 ^ 16
  catches : ∀ h ∈ d.handlers.values, h.Catches

/-- A code item with refreshed instructions `t`. -/
structure Ready (t : Sequence) (c : CodeItem) : Prop where
  code : c.code = { t with moves := #[] }
  storable : t.Storable
  size : t.size = some (.int (UInt32.ofInt t.units))
  listed : Listed c.handlers
  tries : ∀ x ∈ c.tries, ∀ s, x.handler = some s → s ∈ c.handlers.order
  count : c.tries ≠ [] → ∃ n : Uleb, n.Fair ∧ c.handlers.count = some (.uleb (n.set c.handlers.order.length))

/-- The address of a handle is a natural number, and not behind the end. -/
theorem exists_nat_of_addressOf? (linked : Sequence.Linked t t.items.toList) (laid : Sequence.Laid t 0 t.items.toList t.units) {x : Handle} {a : Int} (there : t.addressOf? x = some a) :
    ∃ n : Nat, a = n ∧ n ≤ t.units := by
  by_cases finish : x = .finish
  · rw [Sequence.addressOf?, if_pos finish] at there
    cases there
    exact ⟨t.units, rfl, le_refl _⟩
  · obtain ⟨n, named, address⟩ := (Sequence.addressOf?_eq_some finish).1 there
    obtain ⟨p, x, shape, -, below⟩ := laid.mem (linked.mem_of_named? named)
    rw [Sequence.address?_of_shape? shape] at address
    cases address
    exact ⟨p, rfl, by omega⟩

/-- Of two handles, the one with the smaller position has the smaller address. -/
theorem address_le_of_position_le (linked : Sequence.Linked c.code c.code.items.toList) (increasing : c.code.Increasing)
    {x y : Handle} {a b : Int} (hx : x ≠ .finish) (hy : y ≠ .finish) (ha : c.code.addressOf? x = some a)
    (hb : c.code.addressOf? y = some b) (le : c.position x ≤ c.position y) : a ≤ b := by
  have place : ∀ z p, z ≠ .finish → c.code.addressOf? z = some p →
      ∃ i : Nat, c.position z = i ∧ i < c.code.items.size ∧ c.code.addressAt i = p := by
    intro z p hz hp
    obtain ⟨m, named, address⟩ := (Sequence.addressOf?_eq_some hz).1 hp
    obtain ⟨i, hi, lt, here⟩ := Sequence.indexOf?_of_mem (linked.mem_of_named? named) address
    refine ⟨i, ?_, lt, here⟩
    rw [CodeItem.position, named, Option.bind_some, hi]
    rfl
  obtain ⟨i, hi, -, rfl⟩ := place x a hx ha
  obtain ⟨j, hj, lt, rfl⟩ := place y b hy hb
  rw [hi, hj, Int.ofNat_le] at le
  rcases Nat.eq_or_lt_of_le le with rfl | before
  · exact Int.le_refl _
  · exact Int.le_of_lt (increasing.addressAt_lt before lt)

namespace Rebuilt

variable {zs : List TryItem} (ready : Ready t c) (rebuilt : Rebuilt c d table ks zs)
include rebuilt

theorem code : d.code = c.code := by rw [rebuilt.eq]; rfl

theorem tries_eq : d.tries = zs := by rw [rebuilt.eq]; rfl

theorem handlers_eq (nonempty : d.tries ≠ []) : d.handlers = table := by
  rw [rebuilt.tries_eq] at nonempty
  rw [rebuilt.eq]
  exact if_neg (by simpa using nonempty)

/-- Without ranges there are no handlers. -/
theorem nonempty_of_mem (mem : h ∈ d.handlers.values) : d.tries ≠ [] := by
  intro empty
  rw [rebuilt.tries_eq] at empty
  rw [rebuilt.eq, empty] at mem
  cases mem

include ready

theorem code_eq : d.code = { t with moves := #[] } := rebuilt.code.trans ready.code

theorem exists_count (nonempty : d.tries ≠ []) :
    ∃ n : Uleb, n.Fair ∧ c.handlers.count = some (.uleb (n.set c.handlers.order.length)) := by
  obtain ⟨z, hz⟩ := List.exists_mem_of_ne_nil _ nonempty
  rw [rebuilt.tries_eq] at hz
  obtain ⟨x, hx, -⟩ := rebuilt.tries z hz
  exact ready.count (List.ne_nil_of_mem hx)

theorem values_eq (nonempty : d.tries ≠ []) : ∃ n : Uleb, n.Fair ∧
    d.handlers.count = some (.uleb (n.set c.handlers.order.length)) ∧
    d.handlers.values = layoutFrom (n.set c.handlers.order.length).size ks := by
  obtain ⟨n, fair, count⟩ := rebuilt.exists_count ready nonempty
  rw [rebuilt.handlers_eq nonempty]
  refine ⟨n, fair, rebuilt.count.trans count, ?_⟩
  rw [rebuilt.values, count]
  rfl

variable (compact : Compact d)
include compact

theorem near (x : Handle) (a : Int) (there : d.code.addressOf? x = some a) : ∃ n : Nat, a = n ∧ n < 2 ^ 31 := by
  have small := compact.code.small
  rw [rebuilt.code_eq ready] at there small
  obtain ⟨n, rfl, le⟩ := exists_nat_of_addressOf? ready.storable.linked ready.storable.laid there
  dsimp only at small
  exact ⟨n, rfl, by omega⟩

theorem handlers (mem : h ∈ d.handlers.values) : h.Fair ∧ h.Catches ∧ Stored d.code h := by
  have nonempty := rebuilt.nonempty_of_mem mem
  have catches := compact.catches h mem
  obtain ⟨n, -, -, values⟩ := rebuilt.values_eq ready nonempty
  have room : h.bytes.length < 2 ^ 16 := by
    have total := compact.handlers
    obtain ⟨before, after, e⟩ := List.append_of_mem mem
    rw [flatten_handlerPieces, e] at total
    simp only [List.length_append, List.flatMap_append, List.flatMap_cons] at total
    omega
  rw [values] at mem
  obtain ⟨k, hk, e⟩ := mem_layoutFrom mem
  obtain ⟨k₀, hk₀, renewed⟩ := exists_left rebuilt.renewed hk
  obtain ⟨slot, -, value⟩ := List.mem_filterMap.1 hk₀
  have fair : k.Fair := renewed.fair (ready.listed.fair slot k₀ value)
  have few := length_pairs_le fair
  have code : c.code = d.code := by rw [rebuilt.code_eq ready, ready.code]
  rw [code] at renewed
  have stored : Stored d.code k := renewed.stored (rebuilt.near ready compact) (by
    rw [e] at room
    have same : CatchHandler.bytes { k with offset := h.offset } = k.bytes := rfl
    rw [same] at room
    omega)
  rw [e]
  exact ⟨⟨fair.size, fair.pairs, fair.allAddress⟩, by rw [e] at catches; exact catches, ⟨stored.size, stored.pairs, stored.all⟩⟩

/-- The offset of a handler fits the field of a range. -/
theorem offset_lt (mem : h ∈ d.handlers.values) : h.offset < 2 ^ 16 := by
  obtain ⟨n, -, count, values⟩ := rebuilt.values_eq ready (rebuilt.nonempty_of_mem mem)
  have total := compact.handlers
  rw [flatten_handlerPieces, count, List.length_append, values, bytes_layoutFrom] at total
  rw [values] at mem
  have below := offset_le_of_mem_layoutFrom mem
  rw [Uleb.size_eq] at below
  simp only [Option.map_some, Option.getD_some, Cell.bytes] at total
  omega

/-- The stored bounds of a range and the offset of its handler are right. -/
theorem placed {z : TryItem} (hz : z ∈ d.tries) :
    Placed d z ∧ ∃ h ∈ d.handlers.values, z.handler.bind d.handlers.value? = some h := by
  have nonempty : d.tries ≠ [] := List.ne_nil_of_mem hz
  have code : c.code = d.code := by rw [rebuilt.code_eq ready, ready.code]
  have table_eq := rebuilt.handlers_eq nonempty
  obtain ⟨x, hx, y, h, renewed, found, e⟩ := rebuilt.tries z (rebuilt.tries_eq ▸ hz)
  obtain ⟨a, b, first, past, lt, short, rfl⟩ := renewed
  have handler : z.handler.bind d.handlers.value? = some h := by
    rw [e, table_eq]
    exact found
  have mem : h ∈ d.handlers.values := by
    obtain ⟨slot, hslot, value⟩ := Option.bind_eq_some_iff.1 found
    rw [table_eq, Table.values_eq, List.mem_filterMap]
    exact ⟨slot, rebuilt.order ▸ ready.tries x hx slot hslot, value⟩
  have far := rebuilt.offset_lt ready compact mem
  rw [code] at first past
  obtain ⟨a, rfl, small⟩ := rebuilt.near ready compact _ _ first
  obtain ⟨b, rfl, -⟩ := rebuilt.near ready compact _ _ past
  have start : z.start.toNat = a := by
    rw [e]
    exact toNat_ofInt (by omega)
  have length : z.count.toNat = b - a := by
    rw [e]
    simp only [setSpan, UInt16.ofInt, UInt16.toNat_ofNat']
    omega
  refine ⟨⟨?_, ?_, ?_, h, handler, ?_⟩, h, mem, handler⟩
  · rw [start, e]
    exact first
  · rw [start, length, Nat.add_sub_cancel' (by omega), e]
    exact past
  · intro zero
    rw [zero] at length
    have : (0 : UInt16).toNat = 0 := rfl
    omega
  · rw [e]
    exact (UInt16.toNat_ofNat_of_lt' far).symm

/-- A refreshed item is `Storable`. -/
theorem storable : Storable t d where
  code := rebuilt.code_eq ready
  storable := ready.storable
  small := by
    have small := compact.code.small
    rw [rebuilt.code_eq ready] at small
    exact small
  size := ready.size
  triesSize := by
    have few := compact.tries
    rw [rebuilt.tries_eq] at few ⊢
    rw [rebuilt.eq]
    exact UInt16.toNat_ofNat_of_lt' few
  padding := by rw [rebuilt.eq]
  tries _ hz := rebuilt.placed ready compact hz
  handlers _ mem := rebuilt.handlers ready compact mem
  count := by
    intro nonempty
    obtain ⟨n, fair, count, values⟩ := rebuilt.values_eq ready nonempty
    have length : d.handlers.values.length = c.handlers.order.length := by
      rw [rebuilt.handlers_eq nonempty, ← ready.listed.length_values, rebuilt.renewed.length_eq, rebuilt.values,
        length_layoutFrom]
    have few : d.handlers.values.length < 2 ^ 16 := by
      have total := compact.handlers
      rw [flatten_handlerPieces, List.length_append] at total
      have present : d.handlers.values.length ≤ (d.handlers.values.flatMap CatchHandler.bytes).length := by
        refine length_le_length_flatMap fun h mem => ?_
        rw [← CatchHandler.byteCount_eq]
        exact (rebuilt.handlers ready compact mem).1.byteCount_pos
      omega
    refine ⟨_, count, fair.set _, ?_, ?_⟩
    · rw [Uleb.get_set (by omega), length]
    · rw [values, layoutFrom_layoutFrom]

/-- The ranges are sorted by their stored bounds. -/
theorem ascending : d.tries.Pairwise fun x y => x.start ≤ y.start := by
  have code : c.code = d.code := by rw [rebuilt.code_eq ready, ready.code]
  have linked : Sequence.Linked c.code c.code.items.toList := by
    rw [ready.code]
    exact ready.storable.linked.congr (fun _ => rfl) rfl
  have increasing : c.code.Increasing := by
    rw [ready.code]
    exact ready.storable.increasing.congr rfl fun _ => rfl
  have placed : ∀ z ∈ d.tries, z.first ≠ .finish ∧ c.code.addressOf? z.first = some (z.start.toNat : Int) := by
    intro z hz
    obtain ⟨⟨first, past, present, -⟩, -⟩ := rebuilt.placed ready compact hz
    refine ⟨fun finish => ?_, code ▸ first⟩
    have pos : 0 < z.count.toNat := Nat.pos_of_ne_zero fun zero => present (UInt16.toNat_inj.1 zero)
    rw [rebuilt.code_eq ready] at first past
    obtain ⟨n, e, le⟩ := exists_nat_of_addressOf? ready.storable.linked ready.storable.laid past
    rw [finish] at first
    have : (t.units : Int) = z.start.toNat := Option.some.inj first
    omega
  have sorted := rebuilt.sorted
  rw [← rebuilt.tries_eq] at sorted
  refine sorted.imp_of_mem fun {x y} hx hy le => ?_
  obtain ⟨innerx, firstx⟩ := placed x hx
  obtain ⟨innery, firsty⟩ := placed y hy
  rw [UInt32.le_iff_toNat_le, ← Int.ofNat_le]
  exact address_le_of_position_le linked increasing innerx innery firstx firsty le

end Rebuilt

end CodeItem

end Dalvik
