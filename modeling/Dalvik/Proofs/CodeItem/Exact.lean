import Dalvik.Proofs.CodeItem.Current

/-!
# A code item is written back as it was read

Linking adds handles, slots and offsets to ranges and handlers, and none of these is encoded. If the
code is `Orderly`, the item that was decoded is `Current`, so `refresh` does not change it, and it
is encoded as the bytes it was read from (`refresh_decode`).
-/

namespace Dalvik.CodeItem

variable {s : Sequence} {c c' : CodeItem} {cur cur' : Cursor} {pool : Option Pool} {xs : List Item} {o : Nat}
  {p q : CatchPair} {h k : CatchHandler} {hs ks : List CatchHandler} {t u : TryItem} {ts us : List TryItem}

/-! ## What linking leaves as it was -/

theorem flatMap_congr_forall₂ {α β γ : Type} {R : α → β → Prop} {f : α → List γ} {g : β → List γ} {as : List α} {bs : List β}
    (h : List.Forall₂ R as bs) (same : ∀ a b, R a b → g b = f a) : bs.flatMap g = as.flatMap f := by
  induction h with
  | nil => rfl
  | cons head _ ih => rw [List.flatMap_cons, List.flatMap_cons, same _ _ head, ih]

theorem LinkedPair.bytes (linked : LinkedPair s p q) : q.bytes = p.bytes := by
  obtain ⟨k, -, rfl⟩ := linked
  rfl

theorem LinkedHandler.bytes (linked : LinkedHandler s h k) : k.bytes = h.bytes := by
  have pairs := flatMap_congr_forall₂ linked.pairs fun _ _ => LinkedPair.bytes
  rw [CatchHandler.bytes_eq, CatchHandler.bytes_eq, pairs, linked.rest]

theorem LinkedTry.kept (linked : LinkedTry s hs t u) :
    u.start = t.start ∧ u.count = t.count ∧ u.handlerOffset = t.handlerOffset := by
  rw [linked.rest]
  exact ⟨rfl, rfl, rfl⟩

theorem LinkedTry.bytes (linked : LinkedTry s hs t u) : u.bytes = t.bytes := by
  rw [linked.rest]
  rfl

theorem bytes_layoutFrom (o : Nat) (hs : List CatchHandler) :
    (layoutFrom o hs).flatMap CatchHandler.bytes = hs.flatMap CatchHandler.bytes := by
  induction hs generalizing o with
  | nil => rfl
  | cons h hs ih =>
    rw [layoutFrom, List.flatMap_cons, List.flatMap_cons, ih]
    rfl

theorem mem_layoutFrom (mem : k ∈ layoutFrom o hs) : ∃ h ∈ hs, k = { h with offset := k.offset } := by
  induction hs generalizing o with
  | nil => cases mem
  | cons h hs ih =>
    rcases List.mem_cons.1 mem with rfl | mem
    · exact ⟨h, List.mem_cons_self, rfl⟩
    · obtain ⟨h', mem', e⟩ := ih mem
      exact ⟨h', List.mem_cons_of_mem _ mem', e⟩

/-- Linking does not change the offsets of handlers. -/
theorem layoutFrom_of_linked (linked : List.Forall₂ (LinkedHandler s) (layoutFrom o hs) ks) : layoutFrom o ks = ks := by
  induction hs generalizing o ks with
  | nil =>
    cases linked
    rfl
  | cons h hs ih =>
    obtain ⟨k, ks, head, tail, rfl⟩ := List.forall₂_cons_left_iff.1 linked
    have offset : k.offset = o := by rw [head.rest]
    have size : k.byteCount = h.byteCount := by
      rw [CatchHandler.byteCount_eq, CatchHandler.byteCount_eq, head.bytes]
      rfl
    rw [layoutFrom, size, ih tail, ← offset]

/-! ## What is stored is right -/

section

variable (linked : Sequence.Linked s s.items.toList) (increasing : Sequence.Increasing s)
include linked increasing

theorem LinkedHandler.stored (size : h.size.get = h.signedLength) (here : LinkedHandler s h k) : Stored s k where
  size := by
    have length : k.pairs.length = h.pairs.length := here.pairs.length_eq.symm
    have signedLength : k.signedLength = h.signedLength := by
      rw [CatchHandler.signedLength, CatchHandler.signedLength, length, here.rest]
    rw [signedLength, ← size, here.rest]
  pairs := by
    intro q hq
    obtain ⟨p, -, handler, found, rfl⟩ := Sequence.exists_left here.pairs hq
    exact Sequence.addressOf?_of_handleAt? linked increasing found
  all := by
    intro catchesAll
    have all : h.catchesAll = true := by
      rw [here.rest] at catchesAll
      exact catchesAll
    have address : k.allAddress = h.allAddress := by rw [here.rest]
    rw [address]
    exact Sequence.addressOf?_of_handleAt? linked increasing (here.all all)

theorem LinkedTry.placed {count : Option Cell} (code_eq : c.code = s) (handlers : c.handlers = Table.filled count hs)
    (nonempty : u.count ≠ 0) (here : LinkedTry s hs t u) : Placed c u := by
  obtain ⟨start, length, offset⟩ := here.kept
  refine ⟨?_, ?_, nonempty, ?_⟩
  · rw [code_eq, start]
    exact Sequence.addressOf?_of_handleAt? linked increasing here.first
  · rw [code_eq, start, length]
    exact Sequence.addressOf?_of_handleAt? linked increasing here.past
  · obtain ⟨slot, found⟩ := Option.ne_none_iff_exists'.1 here.handled
    have located := here.handler.trans found
    obtain ⟨stands, -, -⟩ := List.find?_range_eq_some.1 located
    obtain ⟨h, hh, same⟩ := (Option.any_eq_true _ _).1 stands
    refine ⟨h, ?_, by rw [offset]; exact of_decide_eq_true same⟩
    rw [found, Option.bind_some, handlers, Table.value?_filled, hh]

end

/-- Ranges whose stored bounds are sorted are sorted by the positions of their handles. -/
theorem LinkedTry.position_le {t' u' : TryItem} (current : c.code.Current) (nonempty : u.count ≠ 0) (nonempty' : u'.count ≠ 0)
    (le : u.start ≤ u'.start) (here : LinkedTry c.code hs t u) (here' : LinkedTry c.code hs t' u') :
    c.position u.first ≤ c.position u'.first := by
  have index : ∀ {t u : TryItem}, u.count ≠ 0 → LinkedTry c.code hs t u →
      ∃ i : Nat, c.position u.first = i ∧ i < c.code.items.size ∧ c.code.addressAt i = u.start.toNat := by
    intro t u nonempty here
    obtain ⟨start, length, -⟩ := here.kept
    have below := current.snug.le_units_of_handleAt? current.linked current.increasing here.past
    have pos : t.count.toNat ≠ 0 := by
      rw [← length]
      exact fun e => nonempty (UInt16.toNat_inj.1 e)
    obtain ⟨i, hi, lt, address⟩ := Sequence.indexOf?_of_handleAt? current.linked current.increasing here.first (by omega)
    exact ⟨i, by rw [position, hi]; rfl, lt, by rw [start, address]⟩
  obtain ⟨i, hi, lt, address⟩ := index nonempty here
  obtain ⟨j, hj, -, address'⟩ := index nonempty' here'
  rw [hi, hj, Int.ofNat_le]
  by_contra gt
  have before := current.increasing.addressAt_lt (Nat.lt_of_not_le gt) lt
  rw [address, address'] at before
  have := UInt32.le_iff_toNat_le.1 le
  omega

/-! ## The whole -/

/-- The bytes of the ranges and handlers, and of the padding before them. -/
def guardBytes (c : CodeItem) : Bytes :=
  if c.tries.isEmpty then []
  else (if c.code.units % 2 = 1 then bytesU16 c.padding else []) ++
    (c.tries.flatMap TryItem.bytes ++ c.handlerPieces.flatten)

theorem bytes_eq (c : CodeItem) : c.bytes = c.headerBytes ++ (c.code.bytes ++ c.guardBytes) := by
  have tries : (c.tries.flatMap TryItem.pieces).flatten = c.tries.flatMap TryItem.bytes := by
    rw [List.flatMap_def, List.flatten_flatten, List.map_map]
    rfl
  have guards : (if c.tries.isEmpty then [] else (if c.code.units % 2 = 1 then [bytesU16 c.padding] else []) ++
      c.tries.flatMap TryItem.pieces ++ c.handlerPieces).flatten = c.guardBytes := by
    rw [guardBytes]
    split
    · rfl
    · rw [List.flatten_append, List.flatten_append, tries, List.append_assoc]
      split <;> simp
  rw [bytes, pieces, List.flatten_append, List.flatten_append, guards, List.append_assoc]
  simp [headerBytes, Sequence.bytes]

theorem flatten_handlerPieces (c : CodeItem) : c.handlerPieces.flatten =
    (c.handlers.count.map Cell.bytes).getD [] ++ c.handlers.values.flatMap CatchHandler.bytes := by
  have handlers : (c.handlers.values.flatMap CatchHandler.pieces).flatten = c.handlers.values.flatMap CatchHandler.bytes := by
    rw [List.flatMap_def, List.flatten_flatten, List.map_map]
    rfl
  rw [handlerPieces, List.flatten_append, handlers]
  cases c.handlers.count <;> simp

theorem guardBytes_of_count {n : Uleb} (nonempty : c.tries ≠ []) (count : c.handlers.count = some (.uleb n)) :
    c.guardBytes = (if c.code.units % 2 = 1 then bytesU16 c.padding else []) ++
      (c.tries.flatMap TryItem.bytes ++ (n.bytes ++ c.handlers.values.flatMap CatchHandler.bytes)) := by
  have empty : c.tries.isEmpty = false := by simpa using nonempty
  rw [guardBytes, empty, flatten_handlerPieces, count]
  rfl

theorem guardBytes_filled {v : UInt16} {count : Uleb} (nonempty : us ≠ []) :
    ({ c with padding := v, tries := us, handlers := Table.filled (some (.uleb count)) ks } : CodeItem).guardBytes =
      (if c.code.units % 2 = 1 then bytesU16 v else []) ++
        (us.flatMap TryItem.bytes ++ (count.bytes ++ ks.flatMap CatchHandler.bytes)) := by
  rw [guardBytes_of_count nonempty rfl, Table.values_filled]

/-- What the format asks of the code at a cursor: as many code units as are announced, payloads at even addresses,
switch tables that are sorted and only led to by switches, ranges that are not empty and are sorted, and zero padding.
-/
structure Orderly (cur : Cursor) (xs : List Item) (c : CodeItem) : Prop where
  scan : ∃ mid, Sequence.Scan { cur with pos := cur.pos + 16 } xs mid
  units : c.code.size.map Cell.get = some (Sequence.span xs : Int)
  aligned : Sequence.Aligned xs
  switchOnly : Sequence.SwitchOnly xs
  ascending : Sequence.Ascending xs
  nonempty : ∀ t ∈ c.tries, t.count ≠ 0
  sorted : c.tries.Pairwise fun t u => t.start ≤ u.start
  padding : c.padding = 0

theorem Guards.code_eq (guards : Guards c cur c' cur') : c'.code = c.code := by cases guards <;> rfl

theorem Guards.headerBytes_eq (guards : Guards c cur c' cur') : c'.headerBytes = c.headerBytes := by cases guards <;> rfl

theorem ne_nil_of_guarded {n : UInt16} (guarded : n ≠ 0) (length : us.length = n.toNat) : us ≠ [] := by
  rintro rfl
  exact guarded (UInt16.toNat_inj.1 length.symm)

/-- The ranges and handlers are encoded as the bytes they were read from. -/
theorem Guards.spans (guards : Guards c cur c' cur') (tries : c.tries = []) : cur.Spans c'.guardBytes cur' := by
  cases guards with
  | absent empty =>
    rw [guardBytes, tries]
    exact Cursor.spans_nil.2 rfl
  | @present v ts us count hs ks _ guarded even length fresh read raw size spans handlers linkedTries =>
    have nonempty := ne_nil_of_guarded guarded (linkedTries.length_eq.symm.trans length)
    rw [guardBytes_filled nonempty, flatMap_congr_forall₂ linkedTries fun _ _ => LinkedTry.bytes,
      flatMap_congr_forall₂ handlers fun _ _ => LinkedHandler.bytes, bytes_layoutFrom]
    exact spans

/-- An item that was decoded is current. -/
theorem Guards.current (guards : Guards c cur c' cur') (tries : c.tries = []) (handlers : c.handlers = { count := some (.uleb {}) })
    (code : c.code.Current) (still : c.code.moves = #[]) (nonempty : ∀ t ∈ c'.tries, t.count ≠ 0)
    (sorted : c'.tries.Pairwise fun t u => t.start ≤ u.start) (padding : c'.padding = 0) : Current c' := by
  cases guards with
  | absent empty =>
    obtain ⟨registers, ins, outs, triesSize, debugInfo, code', padding', _, _⟩ := c
    simp only at tries handlers empty code still padding
    subst tries handlers empty
    exact ⟨code, still, rfl, nofun, .nil, nofun, rfl, rfl, fun _ => rfl, padding⟩
  | @present v ts us count hs ks _ guarded even length fresh read raw size spans linkedHandlers linkedTries =>
    have count_us : us.length = c.triesSize.toNat := by rw [← linkedTries.length_eq, length]
    have triesSize : UInt16.ofNat us.length = c.triesSize := by rw [count_us, UInt16.ofNat_toNat]
    have count_ks : ks.length = hs.length := by rw [← linkedHandlers.length_eq, length_layoutFrom]
    exact {
      code := code
      still := still
      triesSize := by simp only [updateTries, triesSize]
      tries := by
        intro u hu
        obtain ⟨t, -, here⟩ := Sequence.exists_left linkedTries hu
        exact here.placed code.linked code.increasing rfl rfl (nonempty u hu)
      sorted := by
        refine sorted.imp_of_mem fun {u u'} hu hu' le => ?_
        obtain ⟨t, -, here⟩ := Sequence.exists_left linkedTries hu
        obtain ⟨t', -, here'⟩ := Sequence.exists_left linkedTries hu'
        exact LinkedTry.position_le code (nonempty u hu) (nonempty u' hu') le here here'
      handlers := by
        intro slot _ k hk
        have mem : k ∈ ks := List.mem_of_getElem? ((Table.value?_filled _ ks slot).symm.trans hk)
        obtain ⟨h, hh, here⟩ := Sequence.exists_left linkedHandlers mem
        obtain ⟨h', hh', e⟩ := mem_layoutFrom hh
        refine here.stored code.linked code.increasing ?_
        rw [e]
        exact (raw h' hh').get_size
      count := by
        refine Table.updateCount_eq_self fun cell hcell => ?_
        cases hcell
        simp [Table.filled, Cell.get, size, count_ks]
      places := by
        rw [layoutHandlers_filled rfl, layoutFrom_of_linked linkedHandlers]
        rfl
      cleared := fun empty => absurd empty (ne_nil_of_guarded guarded count_us)
      padding := padding }

/-- The parts of a decoding of `Orderly` code. -/
theorem exists_read {e : CodeItem} (hc : cur.Sane) (run : (decode cur).Gives (new pool) cur' c) (orderly : Orderly cur xs e)
    (same : e.code = c.code) : ∃ d cur₁ cur₂ t, Headed pool d ∧ cur.Spans d.headerBytes cur₁ ∧ cur₁.Sane ∧
      (Sequence.decode cur₁).Gives d.code cur₂ t ∧ Sequence.Scan cur₁ xs cur₂ ∧ t.Current ∧ t.size = d.code.size ∧ t.moves = #[] ∧
      Guards { d with code := t } cur₂ c cur' := by
  obtain ⟨d, cur₁, cur₂, t, headed, header, code, guards⟩ := (gives_decode hc).1 run
  obtain ⟨units, fresh⟩ := headed.code
  have hc₁ := header.sane hc
  have length : d.headerBytes.length = 16 := by
    simp [headerBytes, fresh, Cell.bytes]
  have begin : cur₁ = { cur with pos := cur.pos + 16 } := by rw [header.next, length]
  have kept : c.code.size = some (.int units) := by
    rw [guards.code_eq]
    exact (Sequence.size_decode hc₁ code).trans (by rw [fresh])
  -- The items that the caller speaks of are those that were read.
  have fits : (Sequence.span xs : Int) = (Cell.int units).get := by
    have := orderly.units
    rw [same, kept, Option.map_some, Option.some.injEq] at this
    exact this.symm
  have scan : Sequence.Scan cur₁ xs cur₂ := by
    obtain ⟨mid, given⟩ := orderly.scan
    obtain ⟨cell, ys, _, _, size, scan, whole, -⟩ := Sequence.gives_decode.1 code
    rw [fresh] at size
    cases size
    rw [← begin] at given
    obtain ⟨rfl, rfl⟩ := given.unique_of_span scan (by omega)
    exact scan
  obtain ⟨current, size, moves⟩ := Sequence.current_decode hc₁ code scan orderly.aligned orderly.switchOnly orderly.ascending
    (by rw [fresh]) (by rw [fresh]; rintro _ ⟨⟩; omega)
  have still : t.moves = #[] := by rw [moves, fresh]
  have unmoved : ({ t with moves := #[] } : Sequence) = t := by rw [← still]
  exact ⟨d, cur₁, cur₂, t, headed, header, hc₁, code, scan, current, size, still, unmoved ▸ guards⟩

/-- For a code item that was decoded from `Orderly` code, `refresh` succeeds and changes nothing, and the encoding is
the bytes it was read from. -/
theorem refresh_decode (hc : cur.Sane) (run : (decode cur).Gives (new pool) cur' c) (orderly : Orderly cur xs c) :
    refresh.Gives c ⟨⟩ c ∧ cur.Spans c.bytes cur' := by
  obtain ⟨d, cur₁, cur₂, t, headed, header, hc₁, code, scan, current, size, still, guards⟩ := exists_read hc run orderly rfl
  have bytes : cur₁.Spans t.bytes cur₂ := Sequence.spans_decode hc₁ code scan orderly.aligned orderly.switchOnly.switched
  refine ⟨(guards.current headed.tries headed.handlers current still orderly.nonempty orderly.sorted orderly.padding).refresh, ?_⟩
  have headerBytes_eq : c.headerBytes = d.headerBytes := by
    rw [guards.headerBytes_eq, headerBytes, headerBytes, size]
  rw [bytes_eq, headerBytes_eq, guards.code_eq]
  exact Cursor.spans_append.2 ⟨cur₁, header, Cursor.spans_append.2 ⟨cur₂, bytes, guards.spans headed.tries⟩⟩

/-- One instruction in a range, with a handler whose address is encoded in more bytes than it needs. -/
theorem refresh_guarded_return :
    let cur := Cursor.ofBytes [1, 0, 0, 0, 0, 0, 1, 0, 0, 0, 0, 0, 1, 0, 0, 0, 0x0e, 0, 0, 0,
      0, 0, 0, 0, 1, 0, 1, 0, 1, 0, 0x80, 0]
    ∃ c cur' xs, (decode cur).Gives (new none) cur' c ∧ Orderly cur xs c ∧ c.tries.length = 1 ∧
      refresh.Gives c ⟨⟩ c ∧ cur.Spans c.bytes cur' := by
  intro cur
  let x : Instruction := { opcode := (Opcode.ofUnit? 0x0e).getD .nop, units := [0x0e] }
  have sane : cur.Sane := ⟨by decide +kernel, Nat.zero_le _⟩
  have ends : ((decode cur).apply (new none)).1.toOption = some { cur with pos := 32 } := by decide +kernel
  have run : (decode cur).Gives (new none) { cur with pos := 32 } ((decode cur).apply (new none)).2 :=
    Action.gives_of_toOption ends
  have scan : Sequence.Scan { cur with pos := 16 } [.plain x] { cur with pos := 18 } :=
    .cons [0x0e, 0] (Action.eq_ok_of_toOption (by decide +kernel)) (Action.eq_ok_of_toOption (by decide +kernel)) (.nil _)
  have orderly : Orderly cur [.plain x] ((decode cur).apply (new none)).2 := {
    scan := ⟨_, scan⟩
    units := by decide +kernel
    aligned := by decide +kernel
    switchOnly := by decide +kernel
    ascending := by
      intro y hy t e
      rw [List.mem_singleton.1 hy] at e
      cases e
    nonempty := by decide +kernel
    sorted := by decide +kernel
    padding := by decide +kernel }
  obtain ⟨refreshed, bytes⟩ := refresh_decode sane run orderly
  exact ⟨_, _, _, run, orderly, by decide +kernel, refreshed, bytes⟩

end Dalvik.CodeItem
