import Dalvik.Proofs.CodeItem.Decoding
import Dalvik.Proofs.Sequence.Current
import Mathlib.Data.List.TakeWhile

/-!
# Refreshing a code item that is up to date

A code item is `Current` if its instructions are, if the stored addresses of its ranges and handlers
are those that their handles have, and if sizes, offsets and counts are as `refresh` would set them.
`refresh` changes nothing in it. It is `Resting` if storing these addresses, sizes and counts again
changes nothing, whether or not they fit their fields; `refresh` then only collects the references
again.
-/

namespace Dalvik.CodeItem

variable {c : CodeItem} {slots : List Nat}

/-! ## What is up to date -/

/-- The size and the addresses that are stored in a handler are right. -/
structure Stored (code : Sequence) (h : CatchHandler) : Prop where
  size : h.size.get = h.signedLength
  pairs : ∀ p ∈ h.pairs, code.addressOf? p.handler = some p.address.get
  all : h.catchesAll = true → code.addressOf? h.all = some h.allAddress.get

/-- The bounds that are stored in a range are right, the range is not empty, and the stored offset is that of its
handler. -/
structure Placed (c : CodeItem) (t : TryItem) : Prop where
  first : c.code.addressOf? t.first = some (t.start.toNat : Int)
  past : c.code.addressOf? t.past = some ((t.start.toNat + t.count.toNat : Nat) : Int)
  nonempty : t.count ≠ 0
  handler : ∃ h, t.handler.bind c.handlers.value? = some h ∧ h.offset = t.handlerOffset.toNat

structure Current (c : CodeItem) : Prop where
  code : c.code.Current
  still : c.code.moves = #[]
  triesSize : c.updateTries = c
  tries : ∀ t ∈ c.tries, Placed c t
  sorted : c.tries.Pairwise fun t u => c.position t.first ≤ c.position u.first
  handlers : ∀ slot ∈ c.handlers.order, ∀ h, c.handlers.value? slot = some h → Stored c.code h
  count : c.handlers.updateCount = c.handlers
  places : c.layoutHandlers = c
  cleared : c.tries = [] → c.handlers.clear = c.handlers
  padding : c.padding = 0

/-- Storing the size and the addresses of a handler again changes nothing. -/
structure HandlerAtRest (code : Sequence) (h : CatchHandler) : Prop where
  size : h.updateSize = h
  pairs : ∀ p ∈ h.pairs, ∃ a, code.addressOf? p.handler = some a ∧ p.address.set a = p.address
  all : h.catchesAll = true → ∃ a, code.addressOf? h.all = some a ∧ h.allAddress.set a = h.allAddress

/-- The range is neither empty nor too long, and storing its bounds and the offset of its handler again changes
nothing. -/
structure RangeAtRest (c : CodeItem) (t : TryItem) : Prop where
  span : ∃ s, c.span t = .ok s ∧ s.1 < s.2 ∧ s.2 - s.1 ≤ 0xffff ∧ setSpan t s = t
  handler : c.placeTry t = .ok t

structure Resting (c : CodeItem) : Prop where
  code : c.code.Resting
  still : c.code.moves = #[]
  triesSize : c.updateTries = c
  tries : ∀ t ∈ c.tries, RangeAtRest c t
  sorted : c.tries.Pairwise fun t u => c.position t.first ≤ c.position u.first
  handlers : ∀ slot ∈ c.handlers.order, ∀ h, c.handlers.value? slot = some h → HandlerAtRest c.code h
  count : c.handlers.updateCount = c.handlers
  places : c.layoutHandlers = c
  cleared : c.tries = [] → c.handlers.clear = c.handlers
  padding : c.padding = 0

/-! ## Handlers -/

theorem address_eq_ok {h : Handle} {what : String} {a : Int} : c.address h what = .ok a ↔ c.code.addressOf? h = some a := by
  unfold CodeItem.address
  cases c.code.addressOf? h <;> simp [fail]

theorem storePairs_self {ps : List CatchPair}
    (h : ∀ p ∈ ps, ∃ a, c.code.addressOf? p.handler = some a ∧ p.address.set a = p.address) : c.storePairs ps = (.ok ⟨⟩, ps) := by
  induction ps with
  | nil => rfl
  | cons p ps ih =>
    obtain ⟨a, there, same⟩ := h p List.mem_cons_self
    have here : c.address p.handler "catch" = .ok a := address_eq_ok.2 there
    have rest := ih fun q hq => h q (List.mem_cons_of_mem _ hq)
    simp only [storePairs, here, rest, same]

theorem Stored.atRest {code : Sequence} {h : CatchHandler} (stored : Stored code h) : HandlerAtRest code h where
  size := CatchHandler.updateSize_eq_self stored.size
  pairs p hp := ⟨_, stored.pairs p hp, p.address.set_get⟩
  all catchesAll := ⟨_, stored.all catchesAll, h.allAddress.set_get⟩

/-- `refreshHandler` changes nothing in a handler at rest. -/
theorem gives_refreshHandler_self {slot : Nat} (rest : ∀ h, c.handlers.value? slot = some h → HandlerAtRest c.code h) :
    (refreshHandler slot).Gives c ⟨⟩ c := by
  have update : ∀ f : CatchHandler → CatchHandler, (∀ h, c.handlers.value? slot = some h → f h = h) →
      { c with handlers := c.handlers.modifySlot slot f } = c := by
    intro f same
    rw [Table.modifySlot_eq_self same]
  unfold refreshHandler
  simp only [Action.gives_bind, Action.gives_get]
  refine ⟨c, c, ⟨rfl, rfl⟩, ?_⟩
  split
  · exact Action.gives_pure.2 ⟨rfl, rfl⟩
  · next h here =>
    obtain ⟨size, pairs, all⟩ := rest h here
    have only : ∀ {P : CatchHandler → Prop}, P h → ∀ k, c.handlers.value? slot = some k → P k := by
      intro P hP k hk
      rw [here] at hk
      cases hk
      exact hP
    have samePairs := update (fun h' => { h' with pairs := h.pairs }) (only rfl)
    have sameSize := update CatchHandler.updateSize (only size)
    simp only [storePairs_self pairs, Action.gives_bind, Action.gives_modify, Action.gives_lift]
    refine ⟨⟨⟩, c, samePairs, ⟨⟩, c, ⟨trivial, rfl⟩, ?_⟩
    split
    · next catchesAll =>
      obtain ⟨a, there, same⟩ := all catchesAll
      have sameAll := update (fun h' => { h' with allAddress := h'.allAddress.set a }) (only (by rw [same]))
      simp only [Action.gives_bind, Action.gives_modify, Action.gives_lift]
      exact ⟨a, c, ⟨address_eq_ok.2 there, rfl⟩, ⟨⟩, c, sameAll, sameSize⟩
    · simpa only [Action.gives_modify] using sameSize

/-! ## Ranges -/

/-- The stored bounds of a range. -/
def bounds (t : TryItem) : Int × Int := (t.start.toNat, (t.start.toNat + t.count.toNat : Nat))

theorem setSpan_bounds (t : TryItem) : setSpan t (bounds t) = t := by
  have count : (((t.start.toNat + t.count.toNat : Nat) : Int) - t.start.toNat) = t.count.toNat := by omega
  simp only [setSpan, bounds, count, ofInt_toNat, ofInt_toNat16]

theorem span_eq_bounds {t : TryItem} (placed : Placed c t) : c.span t = .ok (bounds t) := by
  rw [CodeItem.span, address_eq_ok.2 placed.first, address_eq_ok.2 placed.past]
  rfl

/-- `placeTry` changes nothing if the stored offset is that of the handler. -/
theorem placeTry_eq_self {t : TryItem} (placed : Placed c t) : c.placeTry t = .ok t := by
  obtain ⟨h, found, offset⟩ := placed.handler
  rw [placeTry, found]
  simp only [offset, UInt16.ofNat_toNat]

theorem Placed.atRest {t : TryItem} (placed : Placed c t) : RangeAtRest c t where
  span := by
    have nonempty := placed.nonempty
    rw [Ne, ← UInt16.toNat_inj] at nonempty
    have zero : (0 : UInt16).toNat = 0 := rfl
    have short := t.count.toNat_lt
    refine ⟨bounds t, span_eq_bounds placed, ?_, ?_, setSpan_bounds t⟩
    all_goals
      simp only [bounds]
      omega
  handler := placeTry_eq_self placed

/-- `refreshTries` of ranges that are neither empty nor too long and are sorted stores their bounds. -/
theorem gives_refreshTries_of_sorted {spans : List (Int × Int)}
    (each : List.Forall₂ (fun t s => c.span t = .ok s ∧ s.1 < s.2 ∧ s.2 - s.1 ≤ 0xffff) c.tries spans)
    (sorted : c.tries.Pairwise fun t u => c.position t.first ≤ c.position u.first) :
    refreshTries.Gives c ⟨⟩ (c.setTries (List.zipWith setSpan c.tries spans)) := by
  have found : c.tries.mapM c.span = .ok spans := Action.except_mapM_eq_ok.2 (each.imp fun _ _ h => h.1)
  have ranges : ∀ q ∈ c.tries.zip spans, q.2.1 < q.2.2 ∧ q.2.2 - q.2.1 ≤ 0xffff := fun q hq => (List.forall₂_zip each hq).2
  have firsts : (c.tries.zip spans).map Prod.fst = c.tries := List.map_fst_zip each.length_eq.le
  have zipped : List.zipWith setSpan c.tries spans = (c.tries.zip spans).map fun q => setSpan q.1 q.2 := by
    rw [List.zip, List.map_zipWith]
  unfold refreshTries
  simp only [Action.gives_bind, Action.gives_get, Action.gives_lift]
  refine ⟨c, c, ⟨rfl, rfl⟩, spans, c, ⟨found, rfl⟩, ?_⟩
  rw [zipped]
  rw [← firsts] at sorted
  generalize c.tries.zip spans = qs at ranges sorted ⊢
  have fits : qs.takeWhile (fun x => !decide (0xffff < x.2.2 - x.2.1)) = qs := by
    rw [List.takeWhile_eq_self_iff]
    intro q hq
    rw [Bool.not_eq_true', decide_eq_false_iff_not]
    exact Int.not_lt.2 (ranges q hq).2
  have kept : (qs.map fun x => (setSpan x.1 x.2, x.2)).filter (fun x => x.2.1 < x.2.2) = qs.map fun x => (setSpan x.1 x.2, x.2) := by
    rw [List.filter_eq_self]
    intro q hq
    obtain ⟨r, hr, rfl⟩ := List.mem_map.1 hq
    exact decide_eq_true (ranges r hr).1
  have order : (qs.map fun q => setSpan q.1 q.2).mergeSort (fun x y => c.position x.first ≤ c.position y.first) =
      qs.map fun q => setSpan q.1 q.2 := by
    refine List.mergeSort_of_pairwise ?_
    rw [List.pairwise_map] at sorted ⊢
    exact sorted.imp fun le => decide_eq_true le
  have stored : (qs.map fun x => (setSpan x.1 x.2, x.2)).map Prod.fst = qs.map fun q => setSpan q.1 q.2 := by
    rw [List.map_map]
    rfl
  simp only [fits, List.drop_length, List.append_nil, kept, stored, order, List.head?_nil]
  simp only [Action.gives_set, Action.gives_pure]
  exact ⟨⟨⟩, _, rfl, trivial, rfl⟩

theorem zipWith_setSpan {ts : List TryItem} {spans : List (Int × Int)} (same : List.Forall₂ (fun t s => setSpan t s = t) ts spans) :
    List.zipWith setSpan ts spans = ts := by
  induction same with
  | nil => rfl
  | cons head _ ih => rw [List.zipWith_cons_cons, head, ih]

/-- `refreshTries` changes nothing in sorted ranges at rest. -/
theorem gives_refreshTries_self (triesSize : c.updateTries = c) (rest : ∀ t ∈ c.tries, RangeAtRest c t)
    (sorted : c.tries.Pairwise fun t u => c.position t.first ≤ c.position u.first) :
    refreshTries.Gives c ⟨⟩ c := by
  obtain ⟨spans, each⟩ := List.exists_forall₂ fun t ht => (rest t ht).span
  have run := gives_refreshTries_of_sorted (each.imp fun _ _ h => ⟨h.1, h.2.1, h.2.2.1⟩) sorted
  rwa [zipWith_setSpan (each.imp fun _ _ h => h.2.2.2), setTries, triesSize] at run

/-! ## The whole -/

theorem gives_onCode_of_still {act : Action Sequence PUnit} {t : Sequence} (run : act.Gives c.code ⟨⟩ t)
    (still : t.moves = #[]) : (onCode act).Gives c ⟨⟩ { c with code := t } := by
  have same : ({ t with moves := #[] } : Sequence) = t := by rw [← still]
  have apply : act.apply c.code = (.ok ⟨⟩, t) := run
  rw [onCode, Action.gives_of, apply]
  simp only [still, Array.foldl_empty, same]

/-- The part of `refresh` that comes after the instructions: it brings ranges and handlers up to date. -/
def refreshGuards : Action CodeItem PUnit := do
  refreshTries
  for s in (← get).handlers.order do refreshHandler s
  modify layoutHandlers
  let c ← get
  let tries ← (c.tries.mapM c.placeTry : Except Stop (List TryItem))
  set { c.setTries tries with
    padding := 0
    handlers := if tries.isEmpty then c.handlers.clear else c.handlers }

/-- The item with the right sizes and counts of handlers and ranges. -/
def updateCounts (c : CodeItem) : CodeItem :=
  { updateTries c with
    handlers := (c.handlers.order.foldl (fun t s => t.modifySlot s CatchHandler.updateSize) c.handlers).updateCount }

theorem gives_refresh {c c' : CodeItem} : refresh.Gives c ⟨⟩ c' ↔
    ∃ d, (onCode Sequence.refresh).Gives c ⟨⟩ d ∧ refreshGuards.Gives (if c.tries.isEmpty then d else d.updateCounts) ⟨⟩ c' := by
  have eq : refresh = (do
      let guarded := !(← get).tries.isEmpty
      onCode Sequence.refresh
      if guarded then modify updateCounts
      refreshGuards : Action CodeItem PUnit) := rfl
  rw [eq]
  simp only [Action.gives_bind, Action.gives_get]
  constructor
  · rintro ⟨_, _, ⟨rfl, rfl⟩, _, d, code, run⟩
    refine ⟨d, code, ?_⟩
    cases e : c.tries.isEmpty <;> simpa [e, ← List.isEmpty_iff] using run
  · rintro ⟨d, code, run⟩
    refine ⟨c, c, ⟨rfl, rfl⟩, ⟨⟩, d, code, ?_⟩
    cases e : c.tries.isEmpty <;> simpa [e, ← List.isEmpty_iff] using run

namespace Resting

variable (h : Resting c)
include h

theorem updateCounts : c.updateCounts = c := by
  have sizes : c.handlers.order.foldl (fun t slot => t.modifySlot slot CatchHandler.updateSize) c.handlers = c.handlers := by
    refine List.foldlRecOn (motive := fun t => t = c.handlers) _ _ rfl fun t same slot mem => ?_
    rw [same]
    exact Table.modifySlot_eq_self fun k hk => (h.handlers slot mem k hk).size
  rw [CodeItem.updateCounts, sizes, h.count, h.triesSize]

theorem placeTries : c.tries.mapM c.placeTry = .ok c.tries := by
  rw [Action.except_mapM_eq_ok, List.forall₂_same]
  exact fun t ht => (h.tries t ht).handler

theorem refreshGuards : refreshGuards.Gives c ⟨⟩ c := by
  have each : Action.Each refreshHandler c.handlers.order c c :=
    .self fun slot mem => gives_refreshHandler_self (h.handlers slot mem)
  have cleared : (if c.tries.isEmpty then c.handlers.clear else c.handlers) = c.handlers := by
    split
    · next empty => exact h.cleared (List.isEmpty_iff.1 empty)
    · rfl
  have last : { c.setTries c.tries with padding := 0, handlers := c.handlers } = c := by
    have same : c.setTries c.tries = c := h.triesSize
    rw [same]
    exact congrArg (fun p => { c with padding := p }) h.padding.symm
  unfold CodeItem.refreshGuards
  simp only [Action.gives_bind, Action.gives_get, Action.gives_forIn, Action.gives_modify, Action.gives_lift, Action.gives_set]
  refine ⟨⟨⟩, c, gives_refreshTries_self h.triesSize h.tries h.sorted, c, c, ⟨rfl, rfl⟩, ⟨⟩, c, each, ⟨⟩, c, h.places,
    c, c, ⟨rfl, rfl⟩, c.tries, c, ⟨h.placeTries, rfl⟩, ?_⟩
  rw [cleared, last]

/-- Collecting the references of the instructions moves nothing that ranges and handlers refer to. -/
theorem collectReferences : Resting { c with code := c.code.collectReferences } where
  code := h.code.collectReferences
  still := h.still
  triesSize := congrArg (fun d => { d with code := c.code.collectReferences }) h.triesSize
  tries t ht := ⟨(h.tries t ht).span, (h.tries t ht).handler⟩
  sorted := h.sorted
  handlers slot mem k hk := ⟨(h.handlers slot mem k hk).size, (h.handlers slot mem k hk).pairs, (h.handlers slot mem k hk).all⟩
  count := h.count
  places := congrArg (fun d => { d with code := c.code.collectReferences }) h.places
  cleared := h.cleared
  padding := h.padding

/-- `refresh` collects the references, and changes nothing else. -/
theorem refresh : refresh.Gives c ⟨⟩ { c with code := c.code.collectReferences } := by
  have after := h.collectReferences
  refine gives_refresh.2 ⟨_, gives_onCode_of_still h.code.refresh h.still, ?_⟩
  rw [after.updateCounts, ite_self]
  exact after.refreshGuards

end Resting

namespace Current

variable (h : Current c)
include h

theorem resting : Resting c where
  code := h.code.resting
  still := h.still
  triesSize := h.triesSize
  tries t ht := (h.tries t ht).atRest
  sorted := h.sorted
  handlers slot mem k hk := (h.handlers slot mem k hk).atRest
  count := h.count
  places := h.places
  cleared := h.cleared
  padding := h.padding

/-- `refresh` changes nothing. -/
theorem refresh : refresh.Gives c ⟨⟩ c := by
  have run := h.resting.refresh
  rwa [h.code.references] at run

end Current

end Dalvik.CodeItem
