import Dalvik.Proofs.CodeItem.Exact
import Dalvik.Proofs.Sequence.Charts

/-!
# Reading back a code item

A code item is `Storable` if its instructions are, if what is stored in its ranges and handlers
agrees with their handles, and if its counts fit. Decoding its encoding gives an item that `Mirrors`
it: LEB128 fields keep their bytes, handlers are in slots in the order of the list, and ranges and
handlers lead to the same addresses (`Storable.exists_decode`).
-/

namespace Dalvik

/-! ## Handlers -/

namespace CatchPair

variable {p : CatchPair}

def Fair (p : CatchPair) : Prop := p.type.Fair ∧ p.address.Fair

/-- The pair after decoding, before its address is linked. -/
def asRead (p : CatchPair) : CatchPair := { type := p.type.asRead, address := p.address.asRead }

theorem Fair.raw (h : p.Fair) : p.asRead.Raw := ⟨h.1.read, h.2.read, rfl⟩

@[simp] theorem bytes_asRead (p : CatchPair) : p.asRead.bytes = p.bytes := by
  rw [bytes_eq, bytes_eq]
  rfl

end CatchPair

namespace CatchHandler

variable {h : CatchHandler}

structure Fair (h : CatchHandler) : Prop where
  size : h.size.Fair
  pairs : ∀ p ∈ h.pairs, p.Fair
  allAddress : h.allAddress.Fair

/-- The handler has a clause; without one it is encoded like one with a catch-all. -/
def Catches (h : CatchHandler) : Prop := h.pairs ≠ [] ∨ h.catchesAll = true

instance (h : CatchHandler) : Decidable h.Catches := inferInstanceAs (Decidable (_ ∨ _))

/-- The handler after decoding, before it is given its offset and linked. -/
def asRead (h : CatchHandler) : CatchHandler where
  size := h.size.asRead
  pairs := h.pairs.map CatchPair.asRead
  catchesAll := h.catchesAll
  allAddress := if h.catchesAll then h.allAddress.asRead else {}

@[simp] theorem bytes_asRead (h : CatchHandler) : h.asRead.bytes = h.bytes := by
  have pairs : (h.pairs.map CatchPair.asRead).flatMap CatchPair.bytes = h.pairs.flatMap CatchPair.bytes := by
    simp [List.flatMap_map]
  rw [bytes_eq, bytes_eq]
  simp only [asRead, pairs, Sleb.bytes_asRead]
  split <;> rfl

@[simp] theorem byteCount_asRead (h : CatchHandler) : h.asRead.byteCount = h.byteCount := by
  rw [byteCount_eq, byteCount_eq, bytes_asRead]

theorem Fair.byteCount_pos (fair : h.Fair) : 0 < h.byteCount := by
  have pos := List.length_pos_iff.2 fair.size.bytes_ne_nil
  rw [byteCount_eq, bytes_eq, List.length_append]
  omega

theorem Fair.raw (fair : h.Fair) (catches : h.Catches) (size : h.size.get = h.signedLength) : h.asRead.Raw where
  size := fair.size.read
  length := by
    change (h.pairs.map CatchPair.asRead).length = h.size.get.natAbs
    rw [List.length_map, size, signedLength]
    split <;> simp
  catchesAll := by
    change h.catchesAll = decide (h.size.get ≤ 0)
    rw [size, signedLength]
    cases all : h.catchesAll with
    | true => simp
    | false =>
      have nonempty : h.pairs ≠ [] := catches.resolve_right (by rw [all]; exact Bool.false_ne_true)
      simp [nonempty]
  pairs := by
    intro q hq
    obtain ⟨p, hp, rfl⟩ := List.mem_map.1 hq
    exact (fair.pairs p hp).raw
  allAddress := by
    change if h.catchesAll then Uleb.Read _ else _
    split
    · next all =>
      simp only [asRead, all, if_true]
      exact fair.allAddress.read
    · next all => simp only [asRead, all, if_false, Bool.false_eq_true]
  all := rfl
  offset := rfl

end CatchHandler

/-- The range after decoding. -/
def TryItem.asRead (t : TryItem) : TryItem := { start := t.start, count := t.count, handlerOffset := t.handlerOffset }

namespace CodeItem

open Sequence (Alike exists_left)

variable {c e : CodeItem} {s t : Sequence} {h k : CatchHandler} {hs ks : List CatchHandler} {o : Nat} {cur cur' : Cursor}

/-! ## Places -/

/-- The handler after it was given its offset. -/
def asPlaced (h : CatchHandler) : CatchHandler := { h.asRead with offset := h.offset }

theorem layoutFrom_asRead (o : Nat) (hs : List CatchHandler) :
    layoutFrom o (hs.map CatchHandler.asRead) = (layoutFrom o hs).map asPlaced := by
  induction hs generalizing o with
  | nil => rfl
  | cons h hs ih =>
    rw [List.map_cons, layoutFrom, CatchHandler.byteCount_asRead, ih, layoutFrom, List.map_cons]
    rfl

theorem le_offset_of_mem_layoutFrom (mem : k ∈ layoutFrom o hs) : o ≤ k.offset := by
  induction hs generalizing o with
  | nil => cases mem
  | cons h hs ih =>
    rcases List.mem_cons.1 mem with rfl | mem
    · exact le_refl _
    · exact le_trans (Nat.le_add_right _ _) (ih mem)

/-- Different handlers have different offsets. -/
theorem nodup_layoutFrom (pos : ∀ h ∈ hs, 0 < h.byteCount) : ((layoutFrom o hs).map CatchHandler.offset).Nodup := by
  induction hs generalizing o with
  | nil => exact .nil
  | cons h hs ih =>
    refine List.nodup_cons.2 ⟨fun mem => ?_, ih fun k mem => pos k (List.mem_cons_of_mem _ mem)⟩
    obtain ⟨k, hk, same⟩ := List.mem_map.1 mem
    have here := pos h List.mem_cons_self
    have past := le_offset_of_mem_layoutFrom hk
    dsimp only at same
    omega

/-! ## What guards the code -/

/-- The type indices of the clauses with the addresses of their handles, and the address of the catch-all, if there is
one. -/
def clauses (code : Sequence) (h : CatchHandler) : List (Int × Option Int) × Option (Option Int) :=
  (h.pairs.map fun p => (p.type.get, code.addressOf? p.handler), if h.catchesAll then some (code.addressOf? h.all) else none)

/-- The addresses of the bounds of each range, with the clauses of its handler. -/
def guards (c : CodeItem) : List (Option Int × Option Int × Option (List (Int × Option Int) × Option (Option Int))) :=
  c.tries.map fun t => (c.code.addressOf? t.first, c.code.addressOf? t.past,
    (t.handler.bind c.handlers.value?).map (clauses c.code))

theorem map_congr_forall₂ {α β γ : Type} {R : α → β → Prop} {f : α → γ} {g : β → γ} {as : List α} {bs : List β}
    (h : List.Forall₂ R as bs) (same : ∀ a ∈ as, ∀ b, R a b → g b = f a) : bs.map g = as.map f := by
  induction h with
  | nil => rfl
  | cons head _ ih =>
    rw [List.map_cons, List.map_cons, same _ List.mem_cons_self _ head, ih fun a ha => same a (List.mem_cons_of_mem _ ha)]

section Linking

variable (found : ∀ x a, s.addressOf? x = some a → ∃ y, t.handleAt? a = some y)
include found

/-- The addresses that are stored in a handler can be linked. -/
theorem exists_linkedHandler (stored : Stored s h) : ∃ k, LinkedHandler t (asPlaced h) k := by
  have pair : ∀ p ∈ (asPlaced h).pairs, ∃ q, LinkedPair t p q := by
    intro q hq
    obtain ⟨p, hp, rfl⟩ := List.mem_map.1 hq
    obtain ⟨y, hy⟩ := found _ _ (stored.pairs p hp)
    exact ⟨_, y, hy, rfl⟩
  obtain ⟨qs, pairs⟩ := List.exists_forall₂ pair
  cases all : h.catchesAll with
  | false =>
    refine ⟨{ asPlaced h with pairs := qs }, pairs, fun yes => ?_, ?_⟩
    · exact absurd (all.symm.trans yes) Bool.false_ne_true
    · simp [asPlaced, CatchHandler.asRead, all]
  | true =>
    obtain ⟨y, hy⟩ := found _ _ (stored.all all)
    refine ⟨{ asPlaced h with pairs := qs, all := y }, pairs, fun _ => ?_, ?_⟩
    · simpa [asPlaced, CatchHandler.asRead, all] using hy
    · simp [asPlaced, CatchHandler.asRead, all]

/-- The bounds that are stored in a range can be linked, and its handler is found at its offset. -/
theorem exists_linkedTry {u : TryItem} (placed : Placed c u) (code : ∀ x, c.code.addressOf? x = s.addressOf? x)
    (located : ∃ k ∈ ks, k.offset = u.handlerOffset.toNat) : ∃ v, LinkedTry t ks u.asRead v := by
  obtain ⟨first, hfirst⟩ := found u.first _ (by rw [← code, placed.first])
  obtain ⟨past, hpast⟩ := found u.past _ (by rw [← code, placed.past])
  obtain ⟨k, hk, offset⟩ := located
  obtain ⟨i, hi⟩ := List.mem_iff_getElem?.1 hk
  have present : slotAt? ks u.handlerOffset.toNat ≠ none := by
    intro absent
    have := List.find?_eq_none.1 absent i (List.mem_range.2 (List.getElem?_eq_some_iff.1 hi).1)
    simp [hi, offset] at this
  exact ⟨{ u.asRead with first, past, handler := slotAt? ks u.handlerOffset.toNat }, hfirst, hpast, rfl, present, rfl⟩

end Linking

/-- Linking a handler gives the clauses that were stored. -/
theorem clauses_of_linked (linked : Sequence.Linked t t.items.toList) (increasing : Sequence.Increasing t) (stored : Stored s h)
    (here : LinkedHandler t (asPlaced h) k) : clauses t k = clauses s h := by
  have catchesAll : k.catchesAll = h.catchesAll := by rw [here.rest]; rfl
  have pairs : (k.pairs.map fun p => (p.type.get, t.addressOf? p.handler)) =
      h.pairs.map fun p => (p.type.get, s.addressOf? p.handler) := by
    refine map_congr_forall₂ (List.forall₂_map_left_iff.1 here.pairs) fun p hp q linkedPair => ?_
    obtain ⟨y, hy, rfl⟩ := linkedPair
    rw [stored.pairs p hp]
    exact congrArg (Prod.mk p.type.get) (Sequence.addressOf?_of_handleAt? linked increasing hy)
  unfold clauses
  rw [pairs, catchesAll]
  congr 1
  split
  · next all =>
    have address : (asPlaced h).allAddress = h.allAddress.asRead := if_pos all
    rw [stored.all all, Sequence.addressOf?_of_handleAt? linked increasing (here.all all), address, Uleb.get_asRead]
  · rfl

/-! ## The whole -/

/-- A code item that can be decoded from its encoding; `t` are its instructions. -/
structure Storable (t : Sequence) (c : CodeItem) : Prop where
  code : c.code = { t with moves := #[] }
  storable : t.Storable
  small : t.units < 2 ^ 31
  size : t.size = some (.int (UInt32.ofInt t.units))
  triesSize : c.triesSize.toNat = c.tries.length
  padding : c.padding = 0
  tries : ∀ u ∈ c.tries, Placed c u ∧ ∃ h ∈ c.handlers.values, u.handler.bind c.handlers.value? = some h
  handlers : ∀ h ∈ c.handlers.values, h.Fair ∧ h.Catches ∧ Stored c.code h
  count : c.tries ≠ [] → ∃ n : Uleb, c.handlers.count = some (.uleb n) ∧ n.Fair ∧ n.get = c.handlers.values.length ∧
    layoutFrom n.size c.handlers.values = c.handlers.values

/-- `e` has the fixed fields and the guards of `c`, and the instructions are `Alike`. -/
structure Mirrors (c e : CodeItem) : Prop where
  registers : e.registers = c.registers
  ins : e.ins = c.ins
  outs : e.outs = c.outs
  debugInfo : e.debugInfo = c.debugInfo
  code : Alike c.code e.code
  guards : e.guards = c.guards

namespace Storable

variable (st : Storable t c)
include st

/-- The fixed fields, in an item that is otherwise new. -/
def header (c : CodeItem) (pool : Option Pool) : CodeItem :=
  { registers := c.registers, ins := c.ins, outs := c.outs, triesSize := c.triesSize, debugInfo := c.debugInfo
    code := { size := c.code.size, pool } }

theorem guardBytes_eq {n : Uleb} (nonempty : c.tries ≠ []) (count : c.handlers.count = some (.uleb n)) :
    c.guardBytes = (if c.code.units % 2 = 1 then bytesU16 0 else []) ++
      ((c.tries.map TryItem.asRead).flatMap TryItem.bytes ++
        (n.asRead.bytes ++ (c.handlers.values.map CatchHandler.asRead).flatMap CatchHandler.bytes)) := by
  have handlers : (c.handlers.values.map CatchHandler.asRead).flatMap CatchHandler.bytes =
      c.handlers.values.flatMap CatchHandler.bytes := by
    simp only [List.flatMap_map, CatchHandler.bytes_asRead]
  have tries : (c.tries.map TryItem.asRead).flatMap TryItem.bytes = c.tries.flatMap TryItem.bytes := List.flatMap_map ..
  rw [guardBytes_of_count nonempty count, st.padding, handlers, tries, Uleb.bytes_asRead]

/-- A linked range has the handler at the offset that it stores. -/
theorem guard_eq {n : Uleb} {x : TryItem} {y : TryItem} (current : s.Current)
    (linkedHandlers : List.Forall₂ (fun h k => LinkedHandler s (asPlaced h) k) c.handlers.values ks)
    (apart : (ks.map CatchHandler.offset).Nodup) (hx : x ∈ c.tries) (here : LinkedTry s ks x.asRead y) :
    (s.addressOf? y.first, s.addressOf? y.past,
      (y.handler.bind (Table.filled (some (.uleb n)) ks).value?).map (clauses s)) =
    (c.code.addressOf? x.first, c.code.addressOf? x.past, (x.handler.bind c.handlers.value?).map (clauses c.code)) := by
  obtain ⟨placed, h, hh, found⟩ := st.tries x hx
  have first := Sequence.addressOf?_of_handleAt? current.linked current.increasing here.first
  have past := Sequence.addressOf?_of_handleAt? current.linked current.increasing here.past
  rw [first, past, placed.first, placed.past, found]
  refine congrArg (Prod.mk _) (congrArg (Prod.mk _) ?_)
  -- The handler that was found stands where the one that was written does, and nothing else does.
  obtain ⟨h', found', offset⟩ := placed.handler
  obtain rfl : h = h' := Option.some.inj (found.symm.trans found')
  obtain ⟨i, hi⟩ := Option.ne_none_iff_exists'.1 here.handled
  obtain ⟨stands, -, -⟩ := List.find?_range_eq_some.1 (here.handler.trans hi)
  obtain ⟨k, hk, same⟩ := (Option.any_eq_true _ _).1 stands
  obtain ⟨k', hk', linked⟩ := exists_left linkedHandlers.flip hh
  have offset' : k'.offset = h.offset := by rw [linked.rest]; rfl
  obtain rfl : k = k' := by
    refine List.inj_on_of_nodup_map apart (List.mem_of_getElem? hk) hk' ?_
    rw [offset', offset, of_decide_eq_true same]
    rfl
  rw [hi, Option.bind_some, Table.value?_filled, hk, Option.map_some, Option.map_some,
    clauses_of_linked current.linked current.increasing (st.handlers h hh).2.2 linked]

/-- The encoding of ranges and handlers can be decoded if the addresses of their handles can be linked. -/
theorem exists_guards (pool : Option Pool) (current : s.Current) (alike : Alike c.code s)
    (found : ∀ x a, c.code.addressOf? x = some a → ∃ y, s.handleAt? a = some y) (spans : cur.Spans c.guardBytes cur') :
    ∃ e, Guards { header c pool with code := s } cur e cur' ∧ Mirrors c e := by
  by_cases nonempty : c.tries = []
  · have empty : c.triesSize = 0 := UInt16.toNat_inj.1 (by rw [st.triesSize, nonempty]; rfl)
    rw [guardBytes, nonempty] at spans
    obtain rfl := Cursor.spans_nil.1 spans
    exact ⟨_, .absent empty, rfl, rfl, rfl, rfl, alike, by rw [guards, guards, nonempty]; rfl⟩
  · obtain ⟨n, count, fair, length, places⟩ := st.count nonempty
    obtain ⟨ks, linkedHandlers⟩ := List.exists_forall₂ fun h hh => exists_linkedHandler found (st.handlers h hh).2.2
    have offsets : ks.map CatchHandler.offset = c.handlers.values.map CatchHandler.offset :=
      map_congr_forall₂ linkedHandlers fun h _ k here => by rw [here.rest]; rfl
    have apart : (ks.map CatchHandler.offset).Nodup := by
      rw [offsets, ← places]
      exact nodup_layoutFrom fun h hh => (st.handlers h hh).1.byteCount_pos
    have linkedEach : ∀ x ∈ c.tries, ∃ y, LinkedTry s ks x.asRead y := by
      intro x hx
      obtain ⟨placed, h, hh, handler⟩ := st.tries x hx
      obtain ⟨h', handler', offset⟩ := placed.handler
      obtain rfl : h = h' := Option.some.inj (handler.symm.trans handler')
      have mem : h.offset ∈ ks.map CatchHandler.offset := by
        rw [offsets]
        exact List.mem_map_of_mem hh
      obtain ⟨k, hk, same⟩ := List.mem_map.1 mem
      exact exists_linkedTry found placed (fun _ => rfl) ⟨k, hk, same.trans offset⟩
    obtain ⟨us, linkedTries⟩ := List.exists_forall₂ linkedEach
    have guarded : c.triesSize ≠ 0 := by
      intro zero
      have := st.triesSize
      rw [zero] at this
      exact nonempty (List.length_eq_zero_iff.1 this.symm)
    have fresh : ∀ x ∈ c.tries.map TryItem.asRead, x.first = .none ∧ x.past = .none ∧ x.handler = none := by
      intro x hx
      obtain ⟨y, -, rfl⟩ := List.mem_map.1 hx
      exact ⟨rfl, rfl, rfl⟩
    have raw : ∀ k ∈ c.handlers.values.map CatchHandler.asRead, k.Raw := by
      intro k hk
      obtain ⟨h, hh, rfl⟩ := List.mem_map.1 hk
      obtain ⟨fair, catches, stored⟩ := st.handlers h hh
      exact fair.raw catches stored.size
    have placed : List.Forall₂ (LinkedHandler s) (layoutFrom n.asRead.size (c.handlers.values.map CatchHandler.asRead)) ks := by
      have size : n.asRead.size = n.size := by rw [Uleb.size_eq, Uleb.size_eq, Uleb.bytes_asRead]
      rw [layoutFrom_asRead, size, places]
      exact List.forall₂_map_left_iff.2 linkedHandlers
    rw [st.guardBytes_eq nonempty count, ← alike.units] at spans
    refine ⟨_, .present guarded (fun _ => rfl) ((List.length_map _).trans st.triesSize.symm) fresh fair.read raw
      (by rw [Uleb.get_asRead, length, List.length_map]) spans placed (List.forall₂_map_left_iff.2 linkedTries), rfl, rfl, rfl,
      rfl, alike, ?_⟩
    exact map_congr_forall₂ linkedTries fun x hx y here => st.guard_eq current linkedHandlers apart hx here

/-- Decoding the encoding of a `Storable` item gives an item that `Mirrors` it. -/
theorem exists_decode (hc : cur.Sane) (spans : cur.Spans c.bytes cur') (pool : Option Pool) :
    ∃ e, (decode cur).Gives (new pool) cur' e ∧ Mirrors c e := by
  rw [bytes_eq] at spans
  obtain ⟨cur₁, s₁, spans⟩ := Cursor.spans_append.1 spans
  obtain ⟨cur₂, s₂, s₃⟩ := Cursor.spans_append.1 spans
  have code := st.code
  have size : c.code.size = some (.int (UInt32.ofInt t.units)) := by rw [code, st.size]
  have small := st.small
  have fits : (Cell.int (UInt32.ofInt t.units)).get = t.units := signed32_ofInt (by omega) (by omega)
  have headed : Headed pool (header c pool) := ⟨⟨_, by rw [header, size]⟩, rfl, rfl, rfl⟩
  have bytes : cur₁.Spans t.bytes cur₂ := by
    rw [code] at s₂
    exact s₂
  obtain ⟨u, run, current, alike, moves⟩ := st.storable.exists_decode (s := (header c pool).code) (s₁.sane hc) size fits rfl bytes
  have still : ({ u with moves := #[] } : Sequence) = u := by rw [show #[] = u.moves from moves.symm]
  have alike' : Alike c.code u := by
    rw [code]
    exact ⟨alike.outline, alike.units⟩
  have found : ∀ x a, c.code.addressOf? x = some a → ∃ y, u.handleAt? a = some y := by
    intro x a there
    rw [code] at there
    exact alike.exists_handleAt? st.storable.linked current.linked current.increasing there
  obtain ⟨e, guards, mirrors⟩ := st.exists_guards pool current alike' found s₃
  exact ⟨e, (gives_decode hc).2 ⟨header c pool, cur₁, cur₂, u, headed, s₁, run, by rw [still]; exact guards⟩, mirrors⟩

end Storable

end CodeItem

end Dalvik
