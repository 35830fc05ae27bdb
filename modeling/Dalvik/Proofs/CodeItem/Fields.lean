import Dalvik.Proofs.Block
import Dalvik.Proofs.CodeItem.Landing
import Dalvik.Proofs.CodeItem.Storing

/-!
# Fields of 16 bits

Register counts, the number of ranges, the offsets of handlers and the sizes of switch tables are
stored in 16 bits, and none of them is checked to fit. The stored value is the value modulo 2^16
(`Reduced`), so it is the value itself if that fits. `fields_of_ofBody` says this of every code item
that is assembled from a body. The length of a range is the only one that is checked.
-/

namespace Dalvik

/-- The field holds the value modulo 2^16, and so the value itself exactly if that fits. -/
structure Reduced (stored : UInt16) (v : Int) : Prop where
  residue : (stored.toNat : Int) = v % 2 ^ 16
  exact : (stored.toNat : Int) = v ↔ 0 ≤ v ∧ v < 2 ^ 16

theorem reduced_of_residue {stored : UInt16} {v : Int} (residue : (stored.toNat : Int) = v % 2 ^ 16) : Reduced stored v :=
  ⟨residue, by omega⟩

theorem reduced_ofInt (v : Int) : Reduced (UInt16.ofInt v) v := by
  refine reduced_of_residue ?_
  have nonneg : 0 ≤ v % 2 ^ 16 := Int.emod_nonneg v (by decide)
  rw [UInt16.ofInt, UInt16.toNat_ofNat', Nat.mod_eq_of_lt (by omega), Int.toNat_of_nonneg nonneg]

theorem reduced_ofNat (n : Nat) : Reduced (UInt16.ofNat n) n := by
  refine reduced_of_residue ?_
  rw [UInt16.toNat_ofNat']
  exact Int.natCast_emod n (2 ^ 16)

namespace Sequence

open Dalvik.Action (Upholds)

variable {s t : Sequence}

/-- A refresh that succeeds has refreshed every payload. -/
theorem Filed.refreshed (filed : Filed s) (run : refresh.Gives s ⟨⟩ t) :
    ∀ n ∈ t.items.toList, ∀ x, t.item? n = some x → x.Refreshed := by
  obtain ⟨-, u, v, settled, loop, rfl⟩ := gives_refresh.1 run
  have passes : Upholds Filed (settle (2 * s.relink.items.size + 1)) :=
    Filed.upholds (upholds_settle (fun _ _ step h => h.recode Item.lasting_true step) (fun _ h => h.laidOut Item.lasting_true) _)
  have linked : Filed u := passes.gives (Linked.relink filed).1 settled
  have renewed := renewed_of_each loop linked.nodup
  have items : v.items = u.items := by rw [renewed.eq]
  intro n hn y hy
  have mem : n ∈ u.items.toList := items ▸ hn
  obtain ⟨x, hx⟩ := Linked.item?_of_mem linked mem
  obtain ⟨y', hy', e⟩ := renewed.renewed n mem x hx
  obtain rfl : y = y' := Option.some.inj (hy.symm.trans hy')
  exact Item.refreshed_refresh e

end Sequence

namespace CodeItem

open Assembly (Body)
open Sequence (Filed)

variable {c d : CodeItem} {body : Body} {table : Table CatchHandler} {h : CatchHandler} {hs ks : List CatchHandler} {o slot : Nat}

/-! ## Where handlers begin -/

/-- The bytes of the list of handlers in front of the one in a slot. -/
def handlersUpTo (c : CodeItem) (slot : Nat) : Bytes :=
  (c.handlers.count.map Cell.bytes).getD [] ++
    ((c.handlers.order.takeWhile (· != slot)).filterMap c.handlers.value?).flatMap CatchHandler.bytes

theorem takeWhile_ne {as bs : List Nat} (fresh : slot ∉ as) : (as ++ slot :: bs).takeWhile (· != slot) = as := by
  rw [List.takeWhile_append_of_pos, List.takeWhile_cons_of_neg (by simp), List.append_nil]
  intro m hm
  rw [bne_iff_ne]
  rintro rfl
  exact fresh hm

/-- The encoding of a handler stands behind those of the handlers before it. -/
theorem bytes_of_handlersUpTo (listed : slot ∈ c.handlers.order) (value : c.handlers.value? slot = some h) :
    (c.handlerPieces.flatten.drop (c.handlersUpTo slot).length).take h.bytes.length = h.bytes := by
  obtain ⟨as, bs, split, fresh⟩ := List.eq_append_cons_of_mem listed
  have whole : c.handlerPieces.flatten =
      c.handlersUpTo slot ++ (h.bytes ++ (bs.filterMap c.handlers.value?).flatMap CatchHandler.bytes) := by
    rw [flatten_handlerPieces, Table.values_eq, handlersUpTo, split, takeWhile_ne fresh, List.filterMap_append,
      List.filterMap_cons, value, List.flatMap_append, List.flatMap_cons, List.append_assoc]
  rw [whole, List.drop_left, List.take_left]

theorem offset_of_layoutFrom {rest : List CatchHandler} (laid : layoutFrom o ks = hs ++ h :: rest) :
    h.offset = o + (hs.flatMap CatchHandler.bytes).length := by
  induction hs generalizing o ks with
  | nil =>
    cases ks with
    | nil => cases laid
    | cons k ks =>
      obtain ⟨rfl, -⟩ := List.cons.inj laid
      rfl
  | cons g hs ih =>
    cases ks with
    | nil => cases laid
    | cons k ks =>
      obtain ⟨rfl, tail⟩ := List.cons.inj laid
      rw [ih tail, List.flatMap_cons, List.length_append, ← CatchHandler.byteCount_eq, ← Nat.add_assoc]
      rfl

/-! ## Ranges and their handlers -/

/-- No handler is listed twice, and the handler of each range is listed. -/
structure Housed (c : CodeItem) : Prop where
  nodup : c.handlers.order.Nodup
  tries : ∀ x ∈ c.tries, ∀ s, x.handler = some s → s ∈ c.handlers.order

namespace Housed

theorem congr (housed : Housed c) (order : d.handlers.order = c.handlers.order)
    (tries : ∀ x ∈ d.tries, ∃ y ∈ c.tries, x.handler = y.handler) : Housed d where
  nodup := order ▸ housed.nodup
  tries x hx s hs := by
    obtain ⟨y, hy, e⟩ := tries x hx
    exact order ▸ housed.tries y hy s (e ▸ hs)

theorem addNewTry (housed : Housed c) (first past : Handle) :
    Housed ((c.newHandler {}).2.addTry first past (c.newHandler {}).1) := by
  have listed : ∀ s, s ∈ ((c.newHandler {}).2.addTry first past (c.newHandler {}).1).handlers.order ↔
      s ∈ c.handlers.order ∨ s = (c.newHandler {}).1 := fun s => Table.mem_order_attach
  refine ⟨?_, fun x hx s hs => (listed s).2 ?_⟩
  · change ((c.newHandler {}).2.handlers.attach (c.newHandler {}).1).order.Nodup
    unfold Table.attach
    split
    · exact housed.nodup
    · next absent =>
      rw [List.contains_iff_mem] at absent
      exact List.nodup_append.2 ⟨housed.nodup, List.nodup_singleton _, fun k hk j hj e =>
        absent (by rwa [← List.mem_singleton.1 hj, ← e])⟩
  · rcases List.mem_append.1 hx with hx | hx
    · exact .inl (housed.tries x hx s hs)
    · rw [List.mem_singleton.1 hx] at hs
      exact .inr (Option.some.inj hs).symm

theorem foldl_retarget (housed : Housed c) (moves : List (Handle × Handle)) :
    Housed (moves.foldl (fun c m => c.retarget m.1 m.2) c) := by
  have followed := followed_foldl (c := c) moves
  refine housed.congr followed.order fun x hx => ?_
  rw [followed.tries] at hx
  obtain ⟨y, hy, rfl⟩ := List.mem_map.1 hx
  exact ⟨y, hy, rfl⟩

theorem updateCounts (housed : Housed c) : Housed c.updateCounts :=
  housed.congr (order_foldl_modifySlot CatchHandler.updateSize c.handlers.order c.handlers) fun x hx => ⟨x, hx, rfl⟩

end Housed

/-! ## What a refresh stores -/

/-- Each stored count and offset is `Reduced`. -/
structure Counted (d : CodeItem) : Prop where
  triesSize : Reduced d.triesSize d.tries.length
  /-- The offset of a handler counts the bytes before it in the list of handlers. -/
  offsets : ∀ x ∈ d.tries, ∃ slot ∈ d.handlers.order, ∃ h, x.handler = some slot ∧ d.handlers.value? slot = some h ∧
    (d.handlerPieces.flatten.drop (d.handlersUpTo slot).length).take h.bytes.length = h.bytes ∧
    Reduced x.handlerOffset (d.handlersUpTo slot).length
  packed : ∀ n ∈ d.code.items.toList, ∀ p, d.code.item? n = some (.packed p) → Reduced p.size p.cases.length
  sparse : ∀ n ∈ d.code.items.toList, ∀ t, d.code.item? n = some (.sparse t) → Reduced t.size t.cases.length

theorem Rebuilt.counted {zs : List TryItem} (housed : Housed c) (rebuilt : Rebuilt c d table ks zs)
    (refreshed : ∀ n ∈ c.code.items.toList, ∀ x, c.code.item? n = some x → x.Refreshed) : Counted d := by
  have code := rebuilt.code
  refine {
    triesSize := ?_
    offsets := fun z hz => ?_
    packed := fun n hn p hp => ?_
    sparse := fun n hn t ht => ?_ }
  · rw [rebuilt.eq]
    exact reduced_ofNat _
  · have handlers := rebuilt.handlers_eq (List.ne_nil_of_mem hz)
    rw [rebuilt.tries_eq] at hz
    obtain ⟨x, hx, y, h, ⟨a, b, -, -, -, -, rfl⟩, found, rfl⟩ := rebuilt.tries z hz
    obtain ⟨slot, there, value⟩ := Option.bind_eq_some_iff.1 found
    have listed : slot ∈ d.handlers.order := by
      rw [handlers, rebuilt.order]
      exact housed.tries x hx slot there
    have value : d.handlers.value? slot = some h := by rw [handlers, value]
    obtain ⟨as, bs, split, fresh⟩ := List.eq_append_cons_of_mem listed
    have laid : layoutFrom ((d.handlers.count.map Cell.size).getD 0) ks =
        as.filterMap d.handlers.value? ++ h :: bs.filterMap d.handlers.value? := by
      have count : d.handlers.count = c.handlers.count := by rw [handlers, rebuilt.count]
      rw [count, ← rebuilt.values, ← handlers, Table.values_eq, split, List.filterMap_append, List.filterMap_cons, value]
    have start : (d.handlers.count.map Cell.size).getD 0 = ((d.handlers.count.map Cell.bytes).getD []).length := by
      cases d.handlers.count with
      | none => rfl
      | some cell => exact cell.length_bytes.symm
    have offset : h.offset = (d.handlersUpTo slot).length := by
      rw [offset_of_layoutFrom laid, handlersUpTo, split, takeWhile_ne fresh, List.length_append, start]
    refine ⟨slot, listed, h, there, value, bytes_of_handlersUpTo listed value, ?_⟩
    rw [← offset]
    exact reduced_ofNat _
  · rw [code] at hn hp
    have size : p.size = UInt16.ofNat p.cases.length := refreshed n hn _ hp
    rw [size]
    exact reduced_ofNat _
  · rw [code] at hn ht
    obtain ⟨size, -⟩ := refreshed n hn _ ht
    rw [size]
    exact reduced_ofNat _

theorem header_foldl (moves : List (Handle × Handle)) :
    (moves.foldl (fun c m => c.retarget m.1 m.2) c).registers = c.registers ∧
      (moves.foldl (fun c m => c.retarget m.1 m.2) c).ins = c.ins := by
  induction moves generalizing c with
  | nil => exact ⟨rfl, rfl⟩
  | cons m moves ih => exact ih

theorem counted_of_refresh (filed : Filed c.code) (housed : Housed c) (run : refresh.Gives c ⟨⟩ d) :
    d.registers = c.registers ∧ d.ins = c.ins ∧ Counted d := by
  obtain ⟨b, moved, guards⟩ := gives_refresh.1 run
  obtain ⟨t, ran, rfl⟩ := gives_onCode.1 moved
  have refreshed := filed.refreshed ran
  obtain ⟨registers, ins⟩ := header_foldl (c := { c with code := { t with moves := #[] } }) t.moves.toList
  have code := code_foldl (c := { c with code := { t with moves := #[] } }) t.moves.toList
  have before : Housed { c with code := { t with moves := #[] } } := housed.congr rfl fun x hx => ⟨x, hx, rfl⟩
  have followed := before.foldl_retarget t.moves.toList
  generalize t.moves.toList.foldl (fun c m => c.retarget m.1 m.2) { c with code := { t with moves := #[] } } = b at *
  -- The counts are only brought up to date where there are ranges.
  obtain ⟨b', registers', ins', code', housed', guards⟩ : ∃ b' : CodeItem, b'.registers = b.registers ∧ b'.ins = b.ins ∧
      b'.code = b.code ∧ Housed b' ∧ refreshGuards.Gives b' ⟨⟩ d := by
    split at guards
    · exact ⟨b, rfl, rfl, rfl, followed, guards⟩
    · exact ⟨b.updateCounts, rfl, rfl, rfl, followed.updateCounts, guards⟩
  obtain ⟨table, ks, zs, rebuilt⟩ := rebuilt_of_refreshGuards housed'.nodup guards
  have counted : Counted d := rebuilt.counted housed' (by
    rw [code', code]
    exact refreshed)
  refine ⟨?_, ?_, counted⟩
  · rw [rebuilt.eq]
    exact registers'.trans registers
  · rw [rebuilt.eq]
    exact ins'.trans ins

/-! ## Assembly -/

/-- The register counts are those of the body, and the item is `Housed`. -/
structure Begun (body : Body) (c : CodeItem) : Prop where
  registers : c.registers = UInt16.ofInt body.registers
  ins : c.ins = UInt16.ofInt body.paramRegisters
  filed : Filed c.code
  housed : Housed c

theorem guarding_begun (body : Body) : Guarding (Begun body) where
  pool _ _ h := ⟨h.registers, h.ins, h.filed.congr rfl rfl rfl, h.housed.congr rfl fun x hx => ⟨x, hx, rfl⟩⟩
  addTry _ first past h := ⟨h.registers, h.ins, h.filed, h.housed.addNewTry first past⟩
  setAll _ _ _ h := ⟨h.registers, h.ins, h.filed, h.housed.congr rfl fun x hx => ⟨x, hx, rfl⟩⟩
  addPair _ _ _ _ h := ⟨h.registers, h.ins, h.filed, h.housed.congr rfl fun x hx => ⟨x, hx, rfl⟩⟩

/-- If `ofBody` succeeds, the stored register counts are those of the body modulo 2^16, and so are the number of
ranges, the offsets of their handlers, and the sizes of the switch tables. -/
theorem fields_of_ofBody (run : (ofBody body).Gives c ⟨⟩ d) :
    Reduced d.registers body.registers ∧ Reduced d.ins body.paramRegisters ∧ Counted d := by
  obtain ⟨labels, t, outs, _, e, ran, -, caught, refreshed⟩ := gives_ofBody.1 run
  have filed : Filed t := (enduring_filed.addElements body trivial).gives (Filed.new _ _) ran
  have begun : Begun body (c.started body t outs) :=
    ⟨rfl, rfl, filed.congr rfl rfl rfl, List.nodup_nil, fun x hx => absurd hx List.not_mem_nil⟩
  obtain ⟨registers, ins, filed, housed⟩ := ((guarding_begun body).catches labels body.elements).gives begun caught
  obtain ⟨registers', ins', counted⟩ := counted_of_refresh filed housed refreshed
  rw [registers', registers, ins', ins]
  exact ⟨reduced_ofInt _, reduced_ofInt _, counted⟩

/-- A switch, a case of it in a guarded range, and the table. -/
def guardedSwitch : Body where
  registers := 65537
  elements := [
    .instruction { opcode := (Opcode.ofValue? 0x2b).getD .nop, registers := [{ number := 0 }], label := ascii "table" },
    .label { name := ascii "case" },
    .instruction { opcode := (Opcode.ofValue? 0x0e).getD .nop },
    .label { name := ascii "table" },
    .packedSwitch { firstKey := 0, targets := [ascii "case"] },
    .catchRange { type := ⟨[]⟩, start := ascii "case", stop := ascii "table", handler := ascii "case" }]

/-- A body with 65537 registers is stored with 1. -/
theorem fields_of_ofBody_switch : ∃ d, (ofBody guardedSwitch).Gives {} ⟨⟩ d ∧ d.registers = 1 ∧
    d.tries.map TryItem.handlerOffset = [1] ∧ (d.code.item? 2).map Item.cases = some [{ offset := 3, handle := 1 }] ∧
    Reduced d.registers guardedSwitch.registers ∧ Reduced d.ins guardedSwitch.paramRegisters ∧ Counted d := by
  have run : (ofBody guardedSwitch).Gives {} ⟨⟩ ((ofBody guardedSwitch).apply {}).2 := Action.gives_of_toOption (by decide +kernel)
  exact ⟨_, run, by decide +kernel, by decide +kernel, by decide +kernel, fields_of_ofBody run⟩

end CodeItem

end Dalvik
