import Dalvik.Proofs.CodeItem.Exact
import Dalvik.Proofs.CodeItem.Storable
import Dalvik.Proofs.Sequence.Telling

/-!
# Exception tables as lines

`noteTry` gives one line for each clause of the handler of a range, and a label for every address in
it (`gives_noteTry`). `toBody` puts the lines of all ranges behind the instructions
(`exists_toBody`). Code that was decoded can be told if it is `Transcribable`
(`Transcribable.tellable`).
-/

namespace Dalvik

open Assembly (Body Element)

/-- The stored types and addresses of the clauses, and the address of the catch-all. -/
def CatchHandler.clauses (h : CatchHandler) : List (Int × Int) × Option Int :=
  (h.pairs.map fun p => (p.type.get, p.address.get), if h.catchesAll then some h.allAddress.get else none)

/-- The address past the range. -/
def TryItem.stop (t : TryItem) : Int := (t.start.toNat + t.count.toNat : Nat)

namespace CodeItem

variable {c : CodeItem} {t : TryItem} {h : CatchHandler} {n : Notes} {a : Int} {k : Handle} {kind : LabelKind}

/-- The stored ranges, each with the clauses of its handler. -/
def exceptionTable (c : CodeItem) : List ((UInt32 × UInt16) × Option (List (Int × Int) × Option Int)) :=
  c.tries.map fun t => ((t.start, t.count), (t.handler.bind c.handlers.value?).map CatchHandler.clauses)

/-! ## Lines -/

/-- The label of an address, with the address. -/
def mark (kind : LabelKind) (a : Int) : Int × Bytes := (a, kind.name a)

/-- The labels of a range and its handler. -/
def marks (t : TryItem) (h : CatchHandler) : List (Int × Bytes) :=
  [mark .tryStart t.start.toNat, mark .tryEnd t.stop] ++ h.pairs.map (fun p => mark .catchOne p.address.get) ++
    if h.catchesAll then [mark .catchAll h.allAddress.get] else []

/-- The line of one clause. -/
def line (t : TryItem) (type : Descriptor) (kind : LabelKind) (address : Int) : Assembly.CatchRange :=
  { type, start := LabelKind.tryStart.name t.start.toNat, stop := LabelKind.tryEnd.name t.stop, handler := kind.name address }

/-- The type at an index. -/
def typeAt (c : CodeItem) (i : Int) : Descriptor := (c.catchType i).toOption.getD ⟨[]⟩

/-- The lines of a range, one for each clause. -/
def lines (c : CodeItem) (t : TryItem) (h : CatchHandler) : List Assembly.CatchRange :=
  h.pairs.map (fun p => line t (c.typeAt p.type.get) .catchOne p.address.get) ++
    if h.catchesAll then [line t ⟨[]⟩ .catchAll h.allAddress.get] else []

/-- Adds a label unless it is there. -/
def addMark (labels : List (Int × Bytes)) (e : Int × Bytes) : List (Int × Bytes) := if labels.contains e then labels else labels ++ [e]

theorem mem_addMarks {es labels : List (Int × Bytes)} {e : Int × Bytes} : e ∈ es.foldl addMark labels ↔ e ∈ labels ∨ e ∈ es := by
  induction es generalizing labels with
  | nil => simp
  | cons d es ih =>
    rw [List.foldl_cons, ih, List.mem_cons, ← or_assoc]
    refine or_congr_left ?_
    unfold addMark
    split
    · next there =>
      have mem : d ∈ labels := by simpa using there
      exact ⟨.inl, fun h => h.elim id fun same => same ▸ mem⟩
    · rw [List.mem_append, List.mem_singleton]

theorem gives_addLabel (there : c.code.addressOf? k = some a) :
    (c.addLabel kind k).Gives n (kind.name a) { n with labels := addMark n.labels (mark kind a) } := by
  unfold addLabel
  simp only [there, Action.gives_bind, Action.gives_modify, Action.gives_pure]
  refine ⟨⟨⟩, _, rfl, trivial, ?_⟩
  unfold addMark mark
  split <;> rfl

theorem typeAt_of_catchType {i : Int} {d : Descriptor} (type : c.catchType i = .ok d) : c.typeAt i = d := by
  rw [typeAt, type]
  rfl

/-- Adds a line. -/
def addLine (e : Assembly.CatchRange) (n : Notes) : Notes := { n with catches := n.catches ++ [.catchRange e] }

/-- Notes the clause for one type. -/
def notePair (c : CodeItem) (start stop : Bytes) (p : CatchPair) : Action Notes PUnit := do
  let handler ← c.addLabel .catchOne p.handler
  let type ← c.catchType p.type.get
  modify (addLine { type, start, stop, handler })

theorem noteTry_eq (c : CodeItem) (t : TryItem) : c.noteTry t = (do
    let start ← c.addLabel .tryStart t.first
    let stop ← c.addLabel .tryEnd t.past
    match t.handler.bind c.handlers.value? with
    | none => throw (.fault none)
    | some h =>
      for p in h.pairs do c.notePair start stop p
      if h.catchesAll then
        let handler ← c.addLabel .catchAll h.all
        modify (addLine { type := ⟨[]⟩, start, stop, handler })) := by
  unfold noteTry notePair
  simp only [bind_assoc]
  rfl

theorem each_notePair {ps : List CatchPair} (stored : ∀ p ∈ ps, c.code.addressOf? p.handler = some p.address.get)
    (types : ∀ p ∈ ps, ∃ d, c.catchType p.type.get = .ok d) :
    Action.Each (c.notePair (LabelKind.tryStart.name t.start.toNat) (LabelKind.tryEnd.name t.stop)) ps n
      { labels := (ps.map fun p => mark .catchOne p.address.get).foldl addMark n.labels
        catches := n.catches ++ (ps.map fun p => line t (c.typeAt p.type.get) .catchOne p.address.get).map .catchRange } := by
  induction ps generalizing n with
  | nil =>
    rw [List.map_nil, List.map_nil, List.map_nil, List.append_nil]
    exact .nil n
  | cons p ps ih =>
    obtain ⟨d, type⟩ := types p List.mem_cons_self
    have rest := @ih (addLine (line t (c.typeAt p.type.get) .catchOne p.address.get)
      { n with labels := addMark n.labels (mark .catchOne p.address.get) })
      (fun q hq => stored q (List.mem_cons_of_mem _ hq)) fun q hq => types q (List.mem_cons_of_mem _ hq)
    refine .cons ?_ (by simpa [addLine] using rest)
    unfold notePair
    simp only [Action.gives_bind, Action.gives_lift, Action.gives_modify]
    exact ⟨_, _, gives_addLabel (stored p List.mem_cons_self), d, _, ⟨type, rfl⟩, by rw [typeAt_of_catchType type]; rfl⟩

/-- `noteTry` adds the labels and the lines of a range. -/
theorem gives_noteTry (placed : Placed c t) (found : t.handler.bind c.handlers.value? = some h) (stored : Stored c.code h)
    (types : ∀ p ∈ h.pairs, ∃ d, c.catchType p.type.get = .ok d) :
    (c.noteTry t).Gives n ⟨⟩
      { labels := (marks t h).foldl addMark n.labels, catches := n.catches ++ (c.lines t h).map .catchRange } := by
  rw [noteTry_eq]
  simp only [Action.gives_bind, found, Action.gives_forIn]
  refine ⟨_, _, gives_addLabel placed.first, _, _, gives_addLabel placed.past, ⟨⟩, _, each_notePair stored.pairs types, ?_⟩
  unfold marks lines
  split
  · next all =>
    simp only [Action.gives_bind, Action.gives_modify]
    refine ⟨_, _, gives_addLabel (stored.all all), ?_⟩
    simp [addLine, line, TryItem.stop]
  · refine Action.gives_pure.2 ⟨rfl, ?_⟩
    simp [TryItem.stop]

/-! ## The body -/

/-- The handler of a range. -/
def handlerOf (c : CodeItem) (t : TryItem) : CatchHandler := (t.handler.bind c.handlers.value?).getD {}

/-- The item can be told: tables have owners, operands and types can be printed, and no bound or handler is at the
address of padding. -/
structure Tellable (c : CodeItem) : Prop where
  code : c.code.Current
  owns : Sequence.Owns c.code
  few : ∀ n ∈ c.code.items.toList, ∀ i, c.code.item? n = some (.plain i) → i.Few
  sound : ∀ p ∈ c.code.pool, p.Sound
  spared : Sequence.Spared c.code
  placed : ∀ t ∈ c.tries, Placed c t
  stored : ∀ t ∈ c.tries, t.handler.bind c.handlers.value? = some (c.handlerOf t) ∧ Stored c.code (c.handlerOf t)
  catches : ∀ t ∈ c.tries, (c.handlerOf t).Catches
  types : ∀ t ∈ c.tries, ∀ p ∈ (c.handlerOf t).pairs, ∃ d, c.catchType p.type.get = .ok d ∧ d.isZero = false
  firm : ∀ t ∈ c.tries, ∀ e ∈ marks t (c.handlerOf t), ∀ n ∈ c.code.items.toList, c.code.address? n = some e.1 → c.code.solid n = true

/-- All labels of ranges and handlers. -/
def extra (c : CodeItem) : List (Int × Bytes) := (c.tries.flatMap fun t => marks t (c.handlerOf t)).foldl addMark []

/-- The lines of all ranges. -/
def allLines (c : CodeItem) : List Assembly.CatchRange := c.tries.flatMap fun t => c.lines t (c.handlerOf t)

theorem mem_extra {e : Int × Bytes} : e ∈ c.extra ↔ ∃ t ∈ c.tries, e ∈ marks t (c.handlerOf t) := by
  rw [extra, mem_addMarks, List.mem_flatMap]
  simp

theorem named_extra (c : CodeItem) : Sequence.Named c.extra := by
  intro e he
  obtain ⟨t, -, mem⟩ := mem_extra.1 he
  simp only [marks, List.mem_append, List.mem_cons, List.not_mem_nil, or_false, List.mem_map] at mem
  rcases mem with ((rfl | rfl) | ⟨p, -, rfl⟩) | mem
  · exact ⟨_, rfl⟩
  · exact ⟨_, rfl⟩
  · exact ⟨_, rfl⟩
  · split at mem
    · obtain rfl := List.mem_singleton.1 mem
      exact ⟨_, rfl⟩
    · cases mem

namespace Tellable

variable (tellable : Tellable c)
include tellable

theorem gives_noteTries {ts : List TryItem} (sub : ts ⊆ c.tries) : (ts.forM c.noteTry).Gives n ⟨⟩
    { labels := (ts.flatMap fun t => marks t (c.handlerOf t)).foldl addMark n.labels
      catches := n.catches ++ (ts.flatMap fun t => c.lines t (c.handlerOf t)).map .catchRange } := by
  induction ts generalizing n with
  | nil =>
    simp only [List.flatMap_nil, List.foldl_nil, List.map_nil, List.append_nil]
    exact Action.gives_pure.2 ⟨rfl, rfl⟩
  | cons t ts ih =>
    obtain ⟨mem, sub⟩ := List.cons_subset.1 sub
    obtain ⟨found, stored⟩ := tellable.stored t mem
    refine Action.gives_bind.2 ⟨⟨⟩, _, gives_noteTry (tellable.placed t mem) found stored fun p hp => ?_, ?_⟩
    · obtain ⟨d, type, -⟩ := tellable.types t mem p hp
      exact ⟨d, type⟩
    · let noted : Notes := {
        labels := (marks t (c.handlerOf t)).foldl addMark n.labels
        catches := n.catches ++ (c.lines t (c.handlerOf t)).map .catchRange }
      simpa [noted, List.foldl_append] using @ih noted sub

/-- `toBody` of a `Tellable` item succeeds with the blocks of its instructions and the lines of its ranges. -/
theorem exists_toBody (paramRegisters : Int) (useLocals : Bool) : ∃ (body : Body) (bs : List Sequence.Block),
    c.toBody paramRegisters useLocals = .ok body ∧
    body.elements = bs.flatMap Sequence.Block.lines ++ (Sequence.labelsAt c.code.units [] c.extra).map .label ++
      c.allLines.map .catchRange ∧
    List.Forall₂ (Sequence.Spoken c.code { body with elements := [] } c.extra) c.code.solids bs := by
  let body : Body := { registers := c.registers.toNat, paramRegisters, useLocals }
  have apart : ∀ e ∈ c.extra, ∀ n ∈ c.code.items.toList, c.code.address? n = some e.1 → c.code.solid n = true := by
    intro e he n hn address
    obtain ⟨t, ht, mem⟩ := mem_extra.1 he
    exact tellable.firm t ht e mem n hn address
  obtain ⟨bs, told, spoken⟩ := tellable.code.exists_toElements tellable.owns tellable.few tellable.sound tellable.spared apart body
  let elements := bs.flatMap Sequence.Block.lines ++ (Sequence.labelsAt c.code.units [] c.extra).map .label ++ c.allLines.map .catchRange
  refine ⟨{ body with elements }, bs, ?_, rfl, spoken⟩
  have notes : (c.tries.forM c.noteTry).apply {} = (.ok ⟨⟩, { labels := c.extra, catches := c.allLines.map .catchRange }) :=
    tellable.gives_noteTries (List.Subset.refl _)
  rw [toBody, notes]
  simp only [Action.except_bind_eq_ok]
  exact ⟨⟨⟩, trivial, _, told, rfl⟩

end Tellable

/-! ## Code that was read -/

section Read

variable {d : CodeItem} {cur cur' : Cursor} {xs : List Item} {pool : Option Pool}

/-- The ranges that were decoded are `Placed`, and their handlers are `Stored` and have clauses. -/
theorem Guards.placed (guards : Guards c cur d cur') (tries : c.tries = []) (linked : Sequence.Linked c.code c.code.items.toList)
    (increasing : Sequence.Increasing c.code) (ht : t ∈ d.tries) (nonempty : t.count ≠ 0) :
    Placed d t ∧ t.handler.bind d.handlers.value? = some (d.handlerOf t) ∧ Stored d.code (d.handlerOf t) ∧ (d.handlerOf t).Catches := by
  cases guards with
  | absent empty =>
    rw [tries] at ht
    cases ht
  | @present v ts us count hs ks _ guarded even length fresh read raw size spans linkedHandlers linkedTries =>
    let d : CodeItem := { c with padding := v, tries := us, handlers := Table.filled (some (.uleb count)) ks }
    obtain ⟨t', -, here⟩ := Sequence.exists_left linkedTries ht
    have placed : Placed d t := here.placed linked increasing rfl rfl nonempty
    obtain ⟨k, found, -⟩ := placed.handler
    have same : d.handlerOf t = k := by rw [handlerOf, found, Option.getD_some]
    refine ⟨placed, same.symm ▸ found, ?_⟩
    rw [same]
    have mem : k ∈ ks := by
      obtain ⟨slot, -, there⟩ := Option.bind_eq_some_iff.1 found
      exact List.mem_of_getElem? ((Table.value?_filled _ ks slot).symm.trans there)
    obtain ⟨h, hh, here⟩ := Sequence.exists_left linkedHandlers mem
    obtain ⟨h', hh', e⟩ := mem_layoutFrom hh
    have read := raw h' hh'
    refine ⟨here.stored linked increasing (e ▸ read.get_size), ?_⟩
    have length : k.pairs.length = h'.size.get.natAbs := by rw [← here.pairs.length_eq, e, read.length]
    have all : k.catchesAll = decide (h'.size.get ≤ 0) := by rw [here.rest, ← read.catchesAll, e]
    by_cases missing : h'.size.get ≤ 0
    · exact .inr (by rw [all, decide_eq_true missing])
    · refine .inl fun empty => ?_
      rw [empty] at length
      simp only [List.length_nil] at length
      omega

/-- The code at a cursor is `Orderly` except for its padding, every switch table has a switch, operands and types can
be printed, no range or handler is at the address of padding, and no two ranges have the same bounds. -/
structure Transcribable (cur : Cursor) (xs : List Item) (c : CodeItem) : Prop where
  orderly : Orderly cur xs { c with padding := 0 }
  owned : ∀ q ∈ Sequence.spread 0 xs, q.2.owner?.isSome = true → ∃ p ∈ Sequence.spread 0 xs, Sequence.dest? p = some q.1
  few : ∀ i, .plain i ∈ xs → i.Few
  types : ∀ t ∈ c.tries, ∀ p ∈ (c.handlerOf t).pairs, ∃ d, c.catchType p.type.get = .ok d ∧ d.isZero = false
  firm : ∀ t ∈ c.tries, ∀ e ∈ marks t (c.handlerOf t), ∀ n ∈ c.code.items.toList, c.code.address? n = some e.1 → c.code.solid n = true
  distinct : (c.tries.map fun t => (t.start, t.count)).Nodup

/-- Code that was decoded can be told. -/
theorem Transcribable.tellable (transcribable : Transcribable cur xs c) (hc : cur.Sane) (run : (decode cur).Gives (new pool) cur' c)
    (sound : ∀ p ∈ pool, p.Sound) : Tellable c ∧ c.code.pool = pool := by
  obtain ⟨d, cur₁, cur₂, t, headed, -, sane, code, scan, current, -, still, guards⟩ := exists_read hc run transcribable.orderly rfl
  obtain ⟨units, fresh⟩ := headed.code
  have orderly := transcribable.orderly
  obtain ⟨u, reads, gathered, rfl, spared, -⟩ := Sequence.collected_of_decode sane code scan orderly.aligned orderly.switchOnly
  have same : c.code = u.collectReferences := guards.code_eq
  have kept : c.code.pool = pool := by
    have scanned := (Sequence.fields_scanned d.code xs).2.2.1
    rw [same]
    change u.pool = pool
    rw [gathered.eq, scanned, fresh]
  have each := fun t ht => guards.placed headed.tries current.linked current.increasing (t := t) ht (orderly.nonempty t ht)
  refine ⟨?_, kept⟩
  exact {
    code := same ▸ current
    owns := same ▸ gathered.owns reads transcribable.owned
    few := same ▸ gathered.few reads transcribable.few
    sound := kept ▸ sound
    spared := same ▸ spared
    placed := fun t ht => (each t ht).1
    stored := fun t ht => ⟨(each t ht).2.1, (each t ht).2.2.1⟩
    catches := fun t ht => (each t ht).2.2.2
    types := transcribable.types
    firm := transcribable.firm }

end Read

end CodeItem

end Dalvik
