import Dalvik.Proofs.CodeItem.Storing
import Dalvik.Proofs.Sequence.Issued

/-!
# A refreshed code item

What `refresh` stores in ranges, handlers, counts and offsets is what a second `refresh` would
store, whether or not it fits its field. So a code item whose instructions are resting is `Resting`
(`Rebuilt.resting`). `Maintained` are the code items that decoding, assembling and edits of every
kind lead to. Refreshing one of them twice is the same as refreshing it once, if no switch leads to
padding (`refresh_again`).
-/

namespace Dalvik

theorem Table.clear_clear {α : Type} (t : Table α) : t.clear.clear = t.clear := by
  have empty : t.clear.order = [] := rfl
  have again : t.clear.clear = t.clear.updateCount := by
    rw [Table.clear, empty]
    rfl
  rw [again]
  exact Table.updateCount_updateCount _

namespace CodeItem

open Assembly (Body)
open Sequence (exists_left)

variable {c d : CodeItem} {s t : Sequence} {h k : CatchHandler} {ks : List CatchHandler} {zs : List TryItem} {o slot : Nat}
  {slots : List Nat} {table : Table CatchHandler}

/-! ## What was stored -/

/-- A `Renewed` handler is at rest. -/
theorem Renewed.atRest (renewed : Renewed s h k) : HandlerAtRest s k where
  size := by
    have again : k.size.set k.signedLength = k.size := by rw [renewed.size_eq, Sleb.set_set]
    exact congrArg (fun size => { k with size }) again
  pairs q hq := by
    obtain ⟨p, -, a, there, rfl⟩ := exists_left renewed.pairs hq
    exact ⟨a, there, p.address.set_set a⟩
  all catchesAll := by
    have before : h.catchesAll = true := by
      rw [renewed.rest] at catchesAll
      exact catchesAll
    obtain ⟨a, there, stored⟩ := renewed.all before
    refine ⟨a, ?_, by rw [stored, Uleb.set_set]⟩
    rw [renewed.rest]
    exact there

theorem HandlerAtRest.place (rest : HandlerAtRest s h) (offset : Nat) : HandlerAtRest s { h with offset } where
  size := congrArg (fun g => { g with offset }) rest.size
  pairs := rest.pairs
  all := rest.all

/-- `placeHandlers` changes nothing if each handler has its offset. -/
theorem placeHandlers_eq_self (placed : slots.filterMap table.value? = layoutFrom o (slots.filterMap table.value?)) :
    placeHandlers o slots table = table := by
  induction slots generalizing o with
  | nil => rfl
  | cons s slots ih =>
    rw [placeHandlers]
    cases e : table.value? s with
    | none =>
      rw [List.filterMap_cons_none e] at placed
      rw [Table.modifySlot_eq_self fun k hk => by rw [e] at hk; cases hk]
      exact ih placed
    | some h =>
      rw [List.filterMap_cons_some e, layoutFrom, List.cons.injEq] at placed
      obtain ⟨here, rest⟩ := placed
      have same : table.modifySlot s (fun h => { h with offset := o }) = table := Table.modifySlot_eq_self fun k hk => by
        rw [e] at hk
        cases hk
        exact here.symm
      rw [same]
      exact ih rest

namespace Rebuilt

variable (rebuilt : Rebuilt c d table ks zs)
include rebuilt

theorem handlers_eq_clear (empty : d.tries = []) : d.handlers = table.clear := by
  rw [rebuilt.tries_eq] at empty
  rw [rebuilt.eq, empty]
  rfl

theorem range_atRest {z : TryItem} (hz : z ∈ d.tries) : RangeAtRest d z := by
  obtain ⟨x, -, y, h, ⟨a, b, first, past, lt, short, rfl⟩, found, rfl⟩ := rebuilt.tries z (rebuilt.tries_eq ▸ hz)
  rw [← rebuilt.code] at first past
  refine ⟨⟨(a, b), span_eq_ok.2 ⟨first, past⟩, lt, short, rfl⟩, placeTry_eq_ok.2 ⟨h, ?_, rfl⟩⟩
  rw [rebuilt.handlers_eq (List.ne_nil_of_mem hz)]
  exact found

theorem handler_atRest (mem : slot ∈ d.handlers.order) (here : d.handlers.value? slot = some h) : HandlerAtRest d.code h := by
  have value : h ∈ d.handlers.values := List.mem_filterMap.2 ⟨slot, mem, here⟩
  rw [rebuilt.handlers_eq (rebuilt.nonempty_of_mem value), rebuilt.values] at value
  obtain ⟨k, hk, e⟩ := mem_layoutFrom value
  obtain ⟨g, -, renewed⟩ := exists_left rebuilt.renewed hk
  rw [rebuilt.code, e]
  exact renewed.atRest.place h.offset

/-- After a refresh of ranges and handlers, the item is `Resting`. -/
theorem resting (code : c.code.Resting) (still : c.code.moves = #[])
    (counted : c.tries ≠ [] → ∃ n : Uleb, n.Fair ∧ c.handlers.count = some (.uleb (n.set c.handlers.order.length))) :
    Resting d where
  code := rebuilt.code ▸ code
  still := rebuilt.code ▸ still
  triesSize := by rw [rebuilt.eq]; rfl
  tries _ hz := rebuilt.range_atRest hz
  sorted := by
    have sorted := rebuilt.sorted
    rw [← rebuilt.tries_eq] at sorted
    exact sorted.imp fun le => by rwa [CodeItem.position, CodeItem.position, rebuilt.code]
  handlers _ mem _ here := rebuilt.handler_atRest mem here
  count := by
    by_cases empty : d.tries = []
    · rw [rebuilt.handlers_eq_clear empty]
      exact Table.updateCount_updateCount _
    · obtain ⟨z, hz⟩ := List.exists_mem_of_ne_nil _ empty
      obtain ⟨x, hx, -⟩ := rebuilt.tries z (rebuilt.tries_eq ▸ hz)
      obtain ⟨n, -, count⟩ := counted (List.ne_nil_of_mem hx)
      rw [rebuilt.handlers_eq empty]
      have same : table.count.map (·.set table.order.length) = table.count := by
        rw [rebuilt.count, rebuilt.order, count, Option.map_some, Cell.set, Uleb.set_set]
      exact congrArg (fun count => { table with count }) same
  places := by
    by_cases empty : d.tries = []
    · have absent : d.handlers.order = [] := by
        rw [rebuilt.handlers_eq_clear empty]
        rfl
      rw [layoutHandlers, absent]
      rfl
    · have places : placeHandlers ((table.count.map Cell.size).getD 0) table.order table = table := by
        refine placeHandlers_eq_self ?_
        have values := rebuilt.values
        rw [Table.values_eq, ← rebuilt.count] at values
        rw [values, layoutFrom_layoutFrom]
      rw [layoutHandlers, rebuilt.handlers_eq empty, places, ← rebuilt.handlers_eq empty]
  cleared empty := by
    rw [rebuilt.handlers_eq_clear empty]
    exact Table.clear_clear table
  padding := by rw [rebuilt.eq]

end Rebuilt

/-! ## Every history -/

/-- Code items that were decoded or assembled, and what edits of every kind make of them: of the list of instructions,
of an instruction or a table in place, of ranges and of handlers. As `Sequence.Change` says, an instruction is only
replaced by one that is not in the list. -/
inductive Maintained : CodeItem → Prop where
  | decode {c : CodeItem} {cur cur' : Cursor} {pool : Option Pool} (sane : cur.Sane)
      (run : (decode cur).Gives (new pool) cur' c) : Maintained c
  | ofBody {c : CodeItem} {body : Body} {pool : Option Pool} (known : Sequence.Known body)
      (run : (ofBody body).Gives (new pool) ⟨⟩ c) : Maintained c
  | edit {c d : CodeItem} {t : Sequence} {α : Type} {act : Action Sequence α} {a : α} (maintained : Maintained c)
      (change : Sequence.Change c.code t) (ran : act.Gives c.code a t) (run : (onCode act).Gives c a d) : Maintained d
  | newHandler {c : CodeItem} {h : CatchHandler} (maintained : Maintained c) (fair : h.Fair) : Maintained (c.newHandler h).2
  | addTry {c : CodeItem} {slot : Nat} (maintained : Maintained c) (there : (c.handlers.value? slot).isSome)
      (first past : Handle) : Maintained (c.addTry first past slot)
  | modifyHandler {c : CodeItem} {f : CatchHandler → CatchHandler} (maintained : Maintained c)
      (fair : ∀ h, h.Fair → (f h).Fair) (slot : Nat) : Maintained { c with handlers := c.handlers.modifySlot slot f }
  | outside {c d : CodeItem} (maintained : Maintained c) (code : d.code = c.code) (handlers : d.handlers = c.handlers)
      (tries : ∀ x ∈ d.tries, ∃ y ∈ c.tries, x.handler = y.handler) : Maintained d
  | refresh {c d : CodeItem} (maintained : Maintained c) (run : refresh.Gives c ⟨⟩ d) : Maintained d

theorem lasting_issued : Lasting fun s => Sequence.Worked s ∧ s.Issued where
  new size pool := ⟨.new size pool, Sequence.issued_new size pool⟩
  decode read := ⟨.decode (.new _ _) read, Sequence.issued_decode (Sequence.item?_new _ _) read⟩
  step step h := ⟨h.1.step step, step.issued h.1.keeps.1.shaped h.2⟩

theorem Maintained.inOrder (maintained : Maintained c) : InOrder (fun s => Sequence.Worked s ∧ s.Issued) c := by
  have lasting := lasting_issued
  induction maintained with
  | decode sane run => exact lasting.of_decode sane run
  | ofBody known run => exact lasting.of_ofBody known run
  | edit _ change ran run ih =>
    obtain ⟨t, ran', code, guarded⟩ := ih.guarded.onCode run
    obtain rfl := congrArg Prod.snd (ran.symm.trans ran')
    obtain ⟨worked, issued⟩ := ih.code
    exact lasting.follow ⟨change.worked worked, change.issued worked.keeps.1.shaped issued⟩ code guarded
  | newHandler _ fair ih => exact ih.of_code_eq rfl (ih.guarded.newHandler fair)
  | addTry _ there first past ih => exact ih.of_code_eq rfl (ih.guarded.addTry there first past)
  | modifyHandler _ fair slot ih => exact ih.of_code_eq rfl (ih.guarded.modifyHandler fair slot)
  | outside _ code handlers tries ih => exact ih.of_code_eq code (ih.guarded.ranges handlers tries)
  | refresh _ run ih => exact lasting.of_refresh ih run

/-- `refresh` of a `Maintained` item leaves a `Resting` one, if no switch leads to padding before. -/
theorem Maintained.resting_refresh (maintained : Maintained c) (solid : c.code.SolidTargets)
    (run : CodeItem.refresh.Gives c ⟨⟩ d) : Resting d := by
  obtain ⟨⟨worked, issued⟩, guarded⟩ := maintained.inOrder
  obtain ⟨t, b, table, ks, zs, ran, code, -, counted, rebuilt⟩ := guarded.exists_rebuilt run
  have rest := issued.resting_refresh worked.keeps.1 solid ran
  refine rebuilt.resting ?_ (by rw [code]) counted
  rw [code]
  exact rest.aside t.references #[]

/-! ## Twice is once -/

/-- If `refresh` succeeds on a `Maintained` item in which no switch leads to padding, then a second `refresh` succeeds
as well, and gives the same bytes and the same item; only the collected references are made anew. -/
theorem refresh_again (maintained : Maintained c) (solid : c.code.SolidTargets) (run : refresh.Gives c ⟨⟩ d) :
    ∃ e, refresh.Gives d ⟨⟩ e ∧ e.bytes = d.bytes ∧
      e = { d with code := { d.code with references := e.code.references } } := by
  have rest := maintained.resting_refresh solid run
  exact ⟨_, rest.refresh, rfl, rfl⟩

/-- A switch and its cases in a range. An instruction between the switch and the table is removed, and padding takes
its place. -/
theorem refresh_again_switch :
    let cur := Cursor.ofBytes [1, 0, 0, 0, 0, 0, 1, 0, 0, 0, 0, 0, 12, 0, 0, 0,
      0x2b, 0, 6, 0, 0, 0, 0, 0, 0, 0, 0x0e, 0, 0, 1, 1, 0, 7, 0, 0, 0, 5, 0, 0, 0,
      0, 0, 0, 0, 6, 0, 1, 0, 1, 0, 5]
    let bytes : Bytes := [1, 0, 0, 0, 0, 0, 1, 0, 0, 0, 0, 0, 12, 0, 0, 0,
      0x2b, 0, 6, 0, 0, 0, 0, 0, 0x0e, 0, 0, 0, 0, 1, 1, 0, 7, 0, 0, 0, 4, 0, 0, 0,
      0, 0, 0, 0, 6, 0, 1, 0, 1, 0, 4]
    ∃ b c d e, (decode cur).Gives (new none) { cur with pos := 51 } b ∧ (removeAt 1).Gives b 1 c ∧ c.code.SolidTargets ∧
      refresh.Gives c ⟨⟩ d ∧ c.bytes ≠ bytes ∧ d.bytes = bytes ∧ refresh.Gives d ⟨⟩ e ∧ e.bytes = bytes := by
  intro cur bytes
  let b := ((decode cur).apply (new none)).2
  let c := ((removeAt 1).apply b).2
  let d := (refresh.apply c).2
  have read : (decode cur).Gives (new none) { cur with pos := 51 } b := Action.gives_of_toOption (by decide +kernel)
  have removed : (removeAt 1).Gives b 1 c := Action.gives_of_toOption (by decide +kernel)
  have run : refresh.Gives c ⟨⟩ d := Action.gives_of_toOption (by decide +kernel)
  have solid : c.code.SolidTargets := by decide +kernel
  have stale : c.bytes ≠ bytes := by decide +kernel
  have written : d.bytes = bytes := by decide +kernel
  obtain ⟨t, act, cut, ran, edited⟩ := exists_removeAt_of_gives removed
  have maintained : Maintained c :=
    .edit (.decode ⟨by decide +kernel, Nat.zero_le _⟩ read) (.step (.removeAt cut)) ran edited
  obtain ⟨e, again, same, -⟩ := refresh_again maintained solid run
  exact ⟨b, c, d, e, read, removed, solid, run, stale, written, again, same.trans written⟩

end CodeItem

end Dalvik
