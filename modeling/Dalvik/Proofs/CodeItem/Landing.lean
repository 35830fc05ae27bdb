import Dalvik.Proofs.CodeItem.Attempts
import Dalvik.Proofs.CodeItem.Refreshing

/-!
# Where handlers land

For a handle in a handler, `refresh` stores the address of the item with that handle, which is in
the list and begins before its end. Handles are looked up like the bounds of ranges, so the handle
of the end is accepted too, and the number of code units is stored for it (`refresh_lands`).
-/

namespace Dalvik

theorem Uleb.value_set (u : Uleb) (v : Int) : (u.set v).value = UInt32.ofInt v := by
  unfold Uleb.set Uleb.setValue
  split
  · next e => exact e.symm
  · rfl

namespace Sequence

variable {s t : Sequence} {h : Handle} {stored : Uleb}

/-- The stored number is the address of the item with the handle, which is in the sequence, and lies below the number
of code units; for the handle of the end it is that number. -/
def Lands (s : Sequence) (h : Handle) (stored : Uleb) : Prop :=
  if h = .finish then stored.value = UInt32.ofInt s.units
  else ∃ n ∈ s.items.toList, ∃ a : Nat, s.named? h = some n ∧ s.address? n = some (a : Int) ∧ a < s.units ∧
    stored.value = UInt32.ofInt a

theorem Lands.congr (lands : Lands s h stored) (items : t.items = s.items) (named? : t.named? = s.named?)
    (address? : t.address? = s.address?) (units : t.units = s.units) : Lands t h stored := by
  unfold Lands
  rw [items, named?, address?, units]
  exact lands

/-- If items take up room, the address of a handle other than the end is below the number of code units. -/
theorem lands_of_addressOf? (linked : Linked s s.items.toList) (roomy : Roomy s) (laid : Laid s 0 s.items.toList s.units)
    {a : Int} (there : s.addressOf? h = some a) (value : stored.value = UInt32.ofInt a) : Lands s h stored := by
  unfold Lands
  by_cases finish : h = .finish
  · rw [addressOf?, if_pos finish] at there
    cases there
    rwa [if_pos finish]
  · rw [if_neg finish]
    obtain ⟨n, named, address⟩ := (addressOf?_eq_some finish).1 there
    have mem := linked.mem_of_named? named
    obtain ⟨p, x, shape, -, below⟩ := laid.mem mem
    have room := roomy.extent_pos shape
    rw [address?_of_shape? shape] at address
    cases address
    exact ⟨n, mem, p, named, address?_of_shape? shape, by omega, value⟩

end Sequence

namespace CodeItem

open Sequence (Lands exists_left)

variable {c d : CodeItem} {h k : CatchHandler} {o slot : Nat} {slots : List Nat} {table : Table CatchHandler}

/-! ## Handlers -/

/-- The numbers stored in the handler are those of its handles, as `Lands` says. -/
structure Landed (s : Sequence) (h : CatchHandler) : Prop where
  pairs : ∀ p ∈ h.pairs, Lands s p.handler p.address
  all : h.catchesAll = true → Lands s h.all h.allAddress

theorem Landed.place {s : Sequence} (landed : Landed s h) (offset : Nat) : Landed s { h with offset } :=
  ⟨landed.pairs, landed.all⟩

/-- A handler that was `Renewed` is `Landed`, if the addresses of its handles are. -/
theorem Renewed.landed {s : Sequence} (renewed : Renewed s h k)
    (lands : ∀ x a stored, s.addressOf? x = some a → stored.value = UInt32.ofInt a → Lands s x stored) : Landed s k where
  pairs q hq := by
    obtain ⟨p, -, a, there, rfl⟩ := exists_left renewed.pairs hq
    exact lands p.handler a _ there (p.address.value_set a)
  all catchesAll := by
    rw [renewed.rest] at catchesAll
    obtain ⟨a, there, stored⟩ := renewed.all catchesAll
    have all : k.all = h.all := by rw [renewed.rest]
    rw [all, stored]
    exact lands h.all a _ there (h.allAddress.value_set a)

/-- `refreshHandler` on a list of slots renews each handler in it, also one that is listed twice. -/
theorem renewed_of_each (each : Action.Each refreshHandler slots c d) :
    d.code = c.code ∧ d.handlers.order = c.handlers.order ∧ (∀ s ∉ slots, d.handlers.value? s = c.handlers.value? s) ∧
      ∀ s ∈ slots, ∀ k, d.handlers.value? s = some k → ∃ h, Renewed c.code h k := by
  induction each with
  | nil => exact ⟨rfl, rfl, fun _ _ => rfl, fun _ hs => absurd hs List.not_mem_nil⟩
  | @cons s slots c c₁ d head _ ih =>
    obtain ⟨f, rfl, renewed⟩ := gives_refreshHandler head
    obtain ⟨code, order, others, rest⟩ := ih
    refine ⟨code, order, fun i absent => ?_, fun i mem k hk => ?_⟩
    · obtain ⟨ne, absent⟩ := List.ne_and_not_mem_of_not_mem_cons absent
      rw [others i absent]
      exact (Table.value?_modifySlot s i f).trans (if_neg (Ne.symm ne))
    · by_cases later : i ∈ slots
      · exact rest i later k hk
      · obtain rfl : i = s := (List.mem_cons.1 mem).resolve_right later
        rw [others i later, Table.value?_modifySlot, if_pos rfl] at hk
        obtain ⟨h, here, rfl⟩ := Option.map_eq_some_iff.1 hk
        exact ⟨h, renewed h here⟩

/-- `placeHandlers` changes only the offsets of handlers. -/
theorem of_value?_placeHandlers (value : (placeHandlers o slots table).value? slot = some h) :
    ∃ k offset, table.value? slot = some k ∧ h = { k with offset } := by
  induction slots generalizing o table with
  | nil => exact ⟨h, h.offset, value, rfl⟩
  | cons s slots ih =>
    obtain ⟨k, offset, before, rfl⟩ := ih value
    rw [Table.value?_modifySlot] at before
    split at before
    · obtain ⟨k, here, rfl⟩ := Option.map_eq_some_iff.1 before
      exact ⟨k, offset, here, rfl⟩
    · exact ⟨k, offset, before, rfl⟩

/-- `refreshGuards` lands every handler that is left. -/
theorem landed_of_refreshGuards (run : refreshGuards.Gives c ⟨⟩ d)
    (lands : ∀ x a stored, c.code.addressOf? x = some a → stored.value = UInt32.ofInt a → Lands c.code x stored) :
    d.code = c.code ∧ ∀ h ∈ d.handlers.values, Landed d.code h := by
  unfold refreshGuards at run
  simp only [Action.gives_bind, Action.gives_get, Action.gives_forIn, Action.gives_modify, Action.gives_lift,
    Action.gives_set] at run
  obtain ⟨_, c₁, ranges, _, _, ⟨rfl, rfl⟩, _, c₂, each, _, _, rfl, _, _, ⟨rfl, rfl⟩, zs, _, ⟨-, rfl⟩, rfl⟩ := run
  obtain ⟨ys, rfl, -⟩ := gives_refreshTries ranges
  obtain ⟨code, order, -, renewed⟩ := renewed_of_each each
  refine ⟨code, fun h mem => ?_⟩
  have same : c₂.code = c.code := code
  change Landed c₂.code h
  rw [same]
  dsimp only at mem
  split at mem
  · cases mem
  · obtain ⟨slot, listed, value⟩ := List.mem_filterMap.1 mem
    have listed : slot ∈ (c.setTries ys).handlers.order := by
      rw [← order]
      exact (order_placeHandlers _ _ c₂.handlers).1 ▸ listed
    obtain ⟨k, offset, before, rfl⟩ := of_value?_placeHandlers value
    obtain ⟨g, renewed⟩ := renewed slot listed k before
    exact (renewed.landed lands).place offset

/-! ## The whole -/

/-- After a `refresh` that succeeds, of any `Attempted` item: the number of code units is stored, and each address
stored in a handler is that of the item with its handle, which is in the list, and is below the number of code units.
Only for the handle of the end it is that number. -/
theorem refresh_lands (attempted : Attempted (fun _ => True) c) (run : refresh.Gives c ⟨⟩ d) :
    d.code.size = c.code.size.map (·.set d.code.units) ∧ ∀ h ∈ d.handlers.values, Landed d.code h := by
  have stable := Item.stable_shaped
  have sound : Sequence.Sound Item.Shaped c.code := attempted.settling.code.sound Item.lasting_shaped
  obtain ⟨b, moved, guards⟩ := gives_refresh.1 run
  obtain ⟨t, ran, rfl⟩ := gives_onCode.1 moved
  obtain ⟨laid, size⟩ := Sequence.laid_refresh stable sound ran
  have sound := (Sequence.leaves_refresh stable sound ran).sound
  generalize followed : t.moves.toList.foldl (fun c m => c.retarget m.1 m.2) { c with code := { t with moves := #[] } } = b
    at guards
  have code : b.code = { t with moves := #[] } := followed ▸ code_foldl _
  have counts : (if c.tries.isEmpty then b else b.updateCounts).code = { t with moves := #[] } := by
    split <;> exact code
  obtain ⟨same, landed⟩ := landed_of_refreshGuards guards fun x a stored there value => by
    rw [counts] at there ⊢
    exact (Sequence.lands_of_addressOf? sound.linked (sound.roomy stable) laid there value).congr rfl rfl rfl rfl
  refine ⟨?_, landed⟩
  rw [same, counts]
  exact size

/-- Two returns, the first of them in a range. One type is caught at the second, and everything else at the end, which
is no item. -/
theorem refresh_lands_catch :
    let cur := Cursor.ofBytes [1, 0, 0, 0, 0, 0, 1, 0, 0, 0, 0, 0, 2, 0, 0, 0,
      0x0e, 0, 0x0e, 0, 0, 0, 0, 0, 1, 0, 1, 0, 1, 0x7f, 0, 1, 2]
    let c := ((decode cur).apply (new none)).2
    ∃ d, Attempted (fun _ => True) c ∧ refresh.Gives c ⟨⟩ d ∧
      (d.code.size = c.code.size.map (·.set d.code.units) ∧ ∀ h ∈ d.handlers.values, Landed d.code h) ∧
      d.code.units = 2 ∧ d.handlers.values.map (fun h => (h.pairs.map (·.handler), h.all)) = [([1], .finish)] ∧
      d.handlers.values.map (fun h => (h.pairs.map (·.address.get), h.allAddress.get)) = [([1], 2)] := by
  intro cur c
  let d := (refresh.apply c).2
  have attempted : Attempted (fun _ => True) c := .decode (.new none) cur
  have run : refresh.Gives c ⟨⟩ d := Action.gives_of_toOption (by decide +kernel)
  exact ⟨d, attempted, run, refresh_lands attempted run, by decide +kernel⟩

end CodeItem

end Dalvik
