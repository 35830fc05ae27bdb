import Dalvik.Proofs.CodeItem.Assembling
import Dalvik.Proofs.CodeItem.Refreshing
import Dalvik.Proofs.CodeItem.Removal
import Dalvik.Proofs.Sequence.Landmarks

/-!
# Ranges of an assembled body

An exception line of a body names its bounds by labels, and lines with the same bounds make one
range. `refresh` drops the empty ranges and sorts the others by their first instruction, but it does
not cut or merge any. So the stored ranges are disjoint exactly if those of the lines are
(`ranges_of_ofBody`).
-/

namespace Dalvik

open Assembly (Body CatchRange Element)

/-- The handles of the bounds. -/
def TryItem.ends (x : TryItem) : Handle × Handle := (x.first, x.past)

def Assembly.Element.catch? : Element → Option CatchRange
  | .catchRange e => some e
  | _ => none

/-- The exception lines of the body. -/
def Assembly.Body.catches (body : Body) : List CatchRange := body.elements.filterMap Element.catch?

/-- The addresses of two handles, if the first one is below the second. -/
def Sequence.between (s : Sequence) (b : Handle × Handle) : Option (Int × Int) :=
  (s.addressOf? b.1).bind fun first => (s.addressOf? b.2).bind fun past => if first < past then some (first, past) else none

namespace CodeItem

open Sequence (Sound Linked)

variable {c d : CodeItem} {labels : List (Bytes × Handle)} {known known' : List ((Handle × Handle) × Nat)} {body : Body}
  {e : CatchRange} {es : List CatchRange} {slot : Nat} {bs bs' : List (Handle × Handle)} {ranges : List (Int × Int)}

/-! ## What a refresh stores -/

/-- The range is stored with these addresses. -/
structure Spans (x : TryItem) (r : Int × Int) : Prop where
  start : (x.start.toNat : Int) = r.1 % 2 ^ 32
  count : (x.count.toNat : Int) = r.2 - r.1

/-- The two ranges have no address in common. -/
def Apart (r q : Int × Int) : Prop := r.2 ≤ q.1 ∨ q.2 ≤ r.1

instance (r q : Int × Int) : Decidable (Apart r q) := inferInstanceAs (Decidable (_ ∨ _))

theorem Apart.symm {r q : Int × Int} (h : Apart r q) : Apart q r := Or.symm h

/-- The stored ranges of `d` are `ranges`: those between the bounds `bs` that are not empty, sorted by their first
instruction. -/
structure Ranged (d : CodeItem) (bs : List (Handle × Handle)) (ranges : List (Int × Int)) : Prop where
  stored : List.Forall₂ Spans d.tries ranges
  inside : ∀ r ∈ ranges, 0 ≤ r.1 ∧ r.2 ≤ d.code.units
  ascending : ranges.Pairwise fun r q => r.1 ≤ q.1
  same : ranges.Perm (bs.filterMap d.code.between)

theorem Ranged.perm (h : Ranged d bs ranges) (perm : bs.Perm bs') : Ranged d bs' ranges :=
  ⟨h.stored, h.inside, h.ascending, h.same.trans (perm.filterMap _)⟩

/-- Disjointness does not depend on the order of the ranges. -/
theorem Ranged.apart (h : Ranged d bs ranges) : ranges.Pairwise Apart ↔ (bs.filterMap d.code.between).Pairwise Apart :=
  h.same.pairwise_iff Apart.symm

theorem spans_setSpan (x : TryItem) {r : Int × Int} (nonempty : r.1 < r.2) (short : r.2 - r.1 ≤ 0xffff) : Spans (setSpan x r) r := by
  refine ⟨?_, ?_⟩
  · have nonneg : 0 ≤ r.1 % 2 ^ 32 := Int.emod_nonneg _ (by decide)
    have small : r.1 % 2 ^ 32 < 2 ^ 32 := Int.emod_lt_of_pos _ (by decide)
    simp only [setSpan, UInt32.ofInt, UInt32.toNat_ofNat']
    omega
  · simp only [setSpan, UInt16.ofInt, UInt16.toNat_ofNat']
    omega

theorem between_of_span {x : TryItem} {r : Int × Int} (span : c.span x = .ok r) :
    c.code.between x.ends = if r.1 < r.2 then some r else none := by
  obtain ⟨first, past⟩ := span_eq_ok.1 span
  rw [Sequence.between, TryItem.ends, first, Option.bind_some, past, Option.bind_some]

theorem forall₂_filterMap {α β : Type} {R : α → β → Prop} {f : α → Option β} {xs : List α}
    (each : ∀ x ∈ xs, ∃ y, f x = some y ∧ R x y) :
    List.Forall₂ R xs (xs.filterMap f) := by
  induction xs with
  | nil => exact .nil
  | cons x xs ih =>
    obtain ⟨y, hy, related⟩ := each x List.mem_cons_self
    rw [List.filterMap_cons, hy]
    exact .cons related (ih fun z hz => each z (List.mem_cons_of_mem _ hz))

theorem between_eq_some {s : Sequence} {b : Handle × Handle} {r : Int × Int} (h : s.between b = some r) :
    s.addressOf? b.1 = some r.1 ∧ s.addressOf? b.2 = some r.2 ∧ r.1 < r.2 := by
  obtain ⟨first, ha, h⟩ := Option.bind_eq_some_iff.1 h
  obtain ⟨past, hb, h⟩ := Option.bind_eq_some_iff.1 h
  split at h
  · next nonempty =>
    cases h
    exact ⟨ha, hb, nonempty⟩
  · cases h

section

variable (linked : Linked c.code c.code.items.toList) (laid : Sequence.Laid c.code 0 c.code.items.toList c.code.units)
include linked laid

theorem inside_of_between {b : Handle × Handle} {r : Int × Int} (h : c.code.between b = some r) :
    b.1 ≠ .finish ∧ 0 ≤ r.1 ∧ r.2 ≤ c.code.units := by
  obtain ⟨first, past, nonempty⟩ := between_eq_some h
  obtain ⟨n, low, -⟩ := exists_nat_of_addressOf? linked laid first
  obtain ⟨m, high, le⟩ := exists_nat_of_addressOf? linked laid past
  refine ⟨fun finish => ?_, by omega, by omega⟩
  rw [finish, Sequence.addressOf?, if_pos rfl, Option.some.injEq] at first
  omega

theorem ranged_of_spans (increasing : c.code.Increasing) (code : d.code = c.code)
    (spans : ∀ x ∈ d.tries, ∃ r, c.code.between x.ends = some r ∧ Spans x r)
    (sorted : d.tries.Pairwise fun x y => c.position x.first ≤ c.position y.first)
    (same : ((d.tries.map TryItem.ends).filterMap c.code.between).Perm (bs.filterMap c.code.between)) :
    ∃ ranges, Ranged d bs ranges := by
  refine ⟨d.tries.filterMap fun x => c.code.between x.ends, {
    stored := forall₂_filterMap spans
    inside := fun r hr => ?_
    ascending := List.pairwise_filterMap.2 (sorted.imp fun {x y} le r hr q hq => ?_)
    same := ?_ }⟩
  · obtain ⟨x, -, hx⟩ := List.mem_filterMap.1 hr
    rw [code]
    exact (inside_of_between linked laid hx).2
  · have inner := (inside_of_between linked laid hr).1
    have inner' := (inside_of_between linked laid hq).1
    exact address_le_of_position_le linked increasing inner inner' (between_eq_some hr).1 (between_eq_some hq).1 le
  · rw [List.filterMap_map] at same
    rw [code]
    exact same

end

/-- `refreshTries` keeps the ranges that are not empty, and stores their addresses. -/
theorem spans_of_refreshTries (run : refreshTries.Gives c ⟨⟩ d) : ∃ ys, d = c.setTries ys ∧
    (∀ y ∈ ys, ∃ r, c.code.between y.ends = some r ∧ Spans y r) ∧
    ((ys.map TryItem.ends).filterMap c.code.between).Perm ((c.tries.map TryItem.ends).filterMap c.code.between) ∧
    ys.Pairwise fun x y => c.position x.first ≤ c.position y.first := by
  obtain ⟨qs, ys, firsts, found, rfl, perm, sorted⟩ := exists_of_refreshTries run
  have between : ∀ q ∈ qs, c.code.between q.1.ends = if q.2.1 < q.2.2 then some q.2 else none := fun q hq =>
    between_of_span (found q hq).1
  refine ⟨ys, rfl, fun y hy => ?_, ?_, sorted⟩
  · obtain ⟨q, hq, rfl⟩ := List.mem_map.1 (perm.mem_iff.1 hy)
    obtain ⟨mem, nonempty⟩ := List.mem_filter.1 hq
    have nonempty : q.2.1 < q.2.2 := of_decide_eq_true nonempty
    exact ⟨q.2, (between q mem).trans (if_pos nonempty), spans_setSpan q.1 nonempty (found q mem).2⟩
  · refine ((perm.map TryItem.ends).filterMap c.code.between).trans (.of_eq ?_)
    rw [List.map_map, ← firsts, List.map_map, List.filterMap_map, List.filterMap_map, List.filterMap_filter]
    refine List.filterMap_congr fun q hq => ?_
    split
    · rfl
    · next empty => exact ((between q hq).trans (if_neg fun nonempty => empty (decide_eq_true nonempty))).symm

/-- `refreshGuards` leaves the ranges between the handles of the bounds. -/
theorem ranged_of_refreshGuards (linked : Linked c.code c.code.items.toList)
    (laid : Sequence.Laid c.code 0 c.code.items.toList c.code.units) (increasing : c.code.Increasing)
    (run : refreshGuards.Gives c ⟨⟩ d) : ∃ ranges, Ranged d (c.tries.map TryItem.ends) ranges := by
  unfold refreshGuards at run
  simp only [Action.gives_bind, Action.gives_get, Action.gives_forIn, Action.gives_modify, Action.gives_lift,
    Action.gives_set] at run
  obtain ⟨_, c₁, tries, _, _, ⟨rfl, rfl⟩, _, c₂, each, _, _, rfl, _, _, ⟨rfl, rfl⟩, zs, _, ⟨placed, rfl⟩, rfl⟩ := run
  obtain ⟨ys, rfl, spans, same, sorted⟩ := spans_of_refreshTries tries
  obtain ⟨code, kept⟩ : c₂.code = c.code ∧ c₂.tries = ys := by
    refine each.keeps (P := fun b => b.code = c.code ∧ b.tries = ys) (fun slot _ a b step here => ?_) ⟨rfl, rfl⟩
    obtain ⟨f, rfl, -⟩ := gives_refreshHandler step
    exact here
  have placed : List.Forall₂ (fun y z => c₂.layoutHandlers.placeTry y = .ok z) ys zs := by
    rw [← kept]
    exact Action.except_mapM_eq_ok.1 placed
  -- The place of its handler is no bound of a range.
  have ends : zs.map TryItem.ends = ys.map TryItem.ends := by
    refine map_congr_forall₂ placed fun y _ z place => ?_
    obtain ⟨h, -, rfl⟩ := placeTry_eq_ok.1 place
    rfl
  refine ranged_of_spans linked laid increasing code (fun z hz => ?_) ?_ ?_
  · obtain ⟨y, hy, place⟩ := Sequence.exists_left placed hz
    obtain ⟨h, -, rfl⟩ := placeTry_eq_ok.1 place
    obtain ⟨r, between, start, count⟩ := spans y hy
    exact ⟨r, between, start, count⟩
  · have sorted : (ys.map TryItem.ends).Pairwise fun a b => c.position a.1 ≤ c.position b.1 := List.pairwise_map.2 sorted
    rw [← ends, List.pairwise_map] at sorted
    exact sorted
  · change ((zs.map TryItem.ends).filterMap c.code.between).Perm _
    rw [ends]
    exact same

/-- If no bound of a range is moved, `refresh` of a code item leaves the ranges between its bounds. -/
theorem ranged_of_refresh (sound : Sound Item.Shaped c.code)
    (still : ∀ t, Sequence.refresh.Gives c.code ⟨⟩ t → ∀ x ∈ c.tries, x.moved (Handle.follow t.moves.toList) = x)
    (run : refresh.Gives c ⟨⟩ d) : ∃ ranges, Ranged d (c.tries.map TryItem.ends) ranges := by
  have stable := Item.stable_shaped
  obtain ⟨b, moved, guards⟩ := gives_refresh.1 run
  obtain ⟨t, ran, rfl⟩ := gives_onCode.1 moved
  have laid := (Sequence.laid_refresh stable sound ran).1
  have sound := (Sequence.leaves_refresh stable sound ran).sound
  have increasing := sound.increasing stable laid
  have followed := (followed_foldl (c := { c with code := { t with moves := #[] } }) t.moves.toList).tries
  have code := code_foldl (c := { c with code := { t with moves := #[] } }) t.moves.toList
  generalize t.moves.toList.foldl (fun c m => c.retarget m.1 m.2) { c with code := { t with moves := #[] } } = b at *
  have tries : b.tries = c.tries := followed.trans ((List.map_congr_left (still t ran)).trans (List.map_id _))
  obtain ⟨b', code', tries', guards⟩ : ∃ b' : CodeItem, b'.code = { t with moves := #[] } ∧ b'.tries = c.tries ∧
      refreshGuards.Gives b' ⟨⟩ d := by
    split at guards
    · exact ⟨b, code, tries, guards⟩
    · exact ⟨b.updateCounts, code, tries, guards⟩
  rw [← tries']
  refine ranged_of_refreshGuards ?_ ?_ ?_ guards
  all_goals rw [code']
  · exact sound.linked.congr (fun _ => rfl) rfl
  · exact laid.congr fun _ _ => rfl
  · exact increasing.congr rfl fun _ => rfl

/-! ## Lines -/

theorem tries_of_addClause {handler : Handle} (run : (addClause e handler slot known).Gives c known' d) :
    known' = known ∧ d.tries = c.tries := by
  unfold addClause at run
  simp only at run
  split at run
  · simp only [Action.gives_bind, Action.gives_modify, Action.gives_pure] at run
    obtain ⟨_, _, rfl, rfl, rfl⟩ := run
    exact ⟨rfl, rfl⟩
  · obtain ⟨_, _, ⟨rfl, rfl⟩, run⟩ := Action.gives_bind.1 run
    split at run
    · obtain ⟨_, _, refused, -⟩ := Action.gives_bind.1 run
      simp at refused
    · simp only [Action.gives_bind, Action.gives_modify, Action.gives_pure] at run
      obtain ⟨_, _, rfl, _, _, rfl, rfl, rfl⟩ := run
      exact ⟨rfl, rfl⟩

/-- The lines `es` have made one range for each pair of bounds, which are declared labels. -/
structure Gathered (labels : List (Bytes × Handle)) (es : List CatchRange) (known : List ((Handle × Handle) × Nat)) (c : CodeItem) :
    Prop where
  tries : c.tries.map TryItem.ends = (known.map Prod.fst).reverse
  nodup : (known.map Prod.fst).Nodup
  mem : ∀ b, b ∈ known.map Prod.fst ↔ b ∈ es.map (ends labels)
  found : ∀ e ∈ es, (∃ l ∈ labels, (ends labels e).1 = l.2) ∧ ∃ l ∈ labels, (ends labels e).2 = l.2

theorem lookup_of_find {name : Bytes} {k : Handle} (found : (match labels.find? (·.1 == name) with
      | some (_, h) => .ok h
      | none => fail (.parse e.origin (.unknownLabel name)) : Except Stop Handle) = .ok k) :
    ∃ l ∈ labels, k = l.2 ∧ lookup labels name = k := by
  split at found
  · next _ k' here =>
    cases found
    exact ⟨_, List.mem_of_find?_eq_some here, rfl, lookup_of_find? here⟩
  · cases found

theorem Gathered.addCatch (h : Gathered labels es known c) (run : (addCatch labels known e).Gives c known' d) :
    Gathered labels (es ++ [e]) known' d := by
  unfold CodeItem.addCatch at run
  simp only [Action.gives_bind, Action.gives_lift] at run
  obtain ⟨first, _, ⟨hfirst, rfl⟩, past, _, ⟨hpast, rfl⟩, handler, _, ⟨-, rfl⟩, run⟩ := run
  obtain ⟨l, hl, rfl, start⟩ := lookup_of_find hfirst
  obtain ⟨m, hm, rfl, stop⟩ := lookup_of_find hpast
  have bounds : ends labels e = (l.2, m.2) := Prod.ext start stop
  have found : ∀ f ∈ es ++ [e], (∃ l ∈ labels, (ends labels f).1 = l.2) ∧ ∃ l ∈ labels, (ends labels f).2 = l.2 := by
    intro f hf
    rcases List.mem_append.1 hf with hf | hf
    · exact h.found f hf
    · rw [List.mem_singleton.1 hf, bounds]
      exact ⟨⟨l, hl, rfl⟩, m, hm, rfl⟩
  have lines : ∀ b, b ∈ (es ++ [e]).map (ends labels) ↔ b ∈ known.map Prod.fst ∨ b = (l.2, m.2) := fun b => by
    rw [List.map_append, List.mem_append, ← h.mem b, List.map_singleton, List.mem_singleton, bounds]
  split at run
  · next r slot there =>
    obtain ⟨_, _, here, run⟩ := Action.gives_bind.1 run
    obtain ⟨rfl, rfl⟩ := Action.gives_pure.1 here
    obtain ⟨rfl, tries⟩ := tries_of_addClause run
    have old : (l.2, m.2) ∈ known'.map Prod.fst :=
      List.mem_map.2 ⟨_, List.mem_of_find?_eq_some there, by simpa using List.find?_some there⟩
    exact {
      tries := by rw [tries, h.tries]
      nodup := h.nodup
      mem := fun b => by
        rw [lines, or_iff_left_of_imp]
        rintro rfl
        exact old
      found }
  · next absent =>
    simp only [Action.gives_bind, Action.gives_get, Action.gives_set] at run
    obtain ⟨_, _, ⟨rfl, rfl⟩, _, _, rfl, _, _, here, run⟩ := run
    obtain ⟨rfl, rfl⟩ := Action.gives_pure.1 here
    obtain ⟨rfl, tries⟩ := tries_of_addClause run
    have new : (l.2, m.2) ∉ known.map Prod.fst := by
      rw [List.find?_eq_none] at absent
      intro there
      obtain ⟨k, hk, same⟩ := List.mem_map.1 there
      exact absent k hk (by rw [same, beq_self_eq_true])
    exact {
      tries := by
        rw [tries, List.map_cons, List.reverse_cons, ← h.tries]
        exact List.map_append
      nodup := List.nodup_cons.2 ⟨new, h.nodup⟩
      mem := fun b => by rw [lines, List.map_cons, List.mem_cons, or_comm]
      found }

/-- The bounds of the ranges are those of the lines, without duplicates. -/
theorem Gathered.perm (h : Gathered labels es known c) : (c.tries.map TryItem.ends).Perm (es.map (ends labels)).dedup := by
  rw [h.tries, List.perm_ext_iff_of_nodup (List.nodup_reverse.2 h.nodup) (List.nodup_dedup _)]
  intro b
  rw [List.mem_reverse, h.mem, List.mem_dedup]

/-- If the labels are not moved, the bounds of the ranges are not. -/
theorem Gathered.moved_eq_self (h : Gathered labels es known c) {f : Handle → Handle} (still : ∀ l ∈ labels, f l.2 = l.2) :
    ∀ x ∈ c.tries, x.moved f = x := by
  intro x hx
  have bounds : x.ends ∈ c.tries.map TryItem.ends := List.mem_map_of_mem hx
  rw [h.tries, List.mem_reverse, h.mem] at bounds
  obtain ⟨e, he, same⟩ := List.mem_map.1 bounds
  obtain ⟨⟨l, hl, first⟩, m, hm, past⟩ := h.found e he
  rw [same] at first past
  have first : x.first = l.2 := first
  have past : x.past = m.2 := past
  rw [TryItem.moved, first, past, still l hl, still m hm, ← first, ← past]

/-- Going through the elements of a body gathers all of its exception lines. -/
theorem Gathered.foldlM {elements : List Element} (h : Gathered labels es known c)
    (run : (elements.foldlM (fun known (e : Element) =>
      match e with
      | .catchRange e => CodeItem.addCatch labels known e
      | _ => pure known) known).Gives c known' d) : Gathered labels (es ++ elements.filterMap Element.catch?) known' d := by
  induction elements generalizing es known c with
  | nil =>
    rw [List.foldlM_nil] at run
    obtain ⟨rfl, rfl⟩ := Action.gives_pure.1 run
    rwa [List.filterMap_nil, List.append_nil]
  | cons x xs ih =>
    rw [List.foldlM_cons] at run
    obtain ⟨known₁, c₁, step, rest⟩ := Action.gives_bind.1 run
    cases x with
    | catchRange e =>
      have gathered := ih (h.addCatch step) rest
      rwa [List.append_assoc] at gathered
    | _ =>
      obtain ⟨rfl, rfl⟩ := Action.gives_pure.1 step
      exact ih h rest

/-! ## The whole -/

/-- The exception lines change nothing of the instructions but their pool. -/
theorem guarding_pooled (s : Sequence) : Guarding fun c => ∃ pool, c.code = { s with pool } where
  pool c pool := by
    rintro ⟨before, e⟩
    exact ⟨pool, by rw [e]⟩
  addTry _ _ _ h := h
  setAll _ _ _ h := h
  addPair _ _ _ _ h := h

/-- If `ofBody` succeeds, the stored ranges are those between the labels of the exception lines, one for each pair of
bounds, without the empty ones, sorted by their first instruction. They are pairwise disjoint exactly if the ranges of
the lines are. -/
theorem ranges_of_ofBody (known : Sequence.Known body) (run : (ofBody body).Gives c ⟨⟩ d) : ∃ labels t ranges,
    (Sequence.addElements body).Gives { size := c.code.size, pool := c.code.pool } labels t ∧
    Ranged d (body.catches.map (ends labels)).dedup ranges ∧
    (ranges.Pairwise Apart ↔ ((body.catches.map (ends labels)).dedup.filterMap d.code.between).Pairwise Apart) := by
  obtain ⟨labels, t, outs, _, e, ran, -, caught, refreshed⟩ := gives_ofBody.1 run
  have empty : Sound (fun x => x.Shaped ∧ x.Sealed) { size := c.code.size, pool := c.code.pool } := Sequence.sound_new _ _
  have sound := (Sequence.leaves_addElements Item.stable_sealed empty known ran).sound
  have start : Gathered labels [] [] (c.started body t outs) :=
    ⟨rfl, List.nodup_nil, fun _ => Iff.rfl, fun _ h => absurd h List.not_mem_nil⟩
  have gathered : Gathered labels body.catches _ e := start.foldlM caught
  obtain ⟨pool, code⟩ := ((guarding_pooled { t with moves := #[] }).catches labels body.elements).gives
    (s := c.started body t outs) ⟨t.pool, rfl⟩ caught
  -- Lines are about labels, and the refresh moves no label.
  have still : ∀ u, Sequence.refresh.Gives e.code ⟨⟩ u → ∀ x ∈ e.tries, x.moved (Handle.follow u.moves.toList) = x := by
    intro u step
    rw [code] at step
    exact gathered.moved_eq_self (Sequence.follow_of_addElements empty known ran step)
  have shaped : Sound Item.Shaped e.code := by
    rw [code]
    exact ⟨sound.linked.congr (fun _ => rfl) rfl, fun n x hx => (sound.holds n x hx).1⟩
  obtain ⟨ranges, ranged⟩ := ranged_of_refresh shaped still refreshed
  have ranged := ranged.perm gathered.perm
  exact ⟨labels, t, ranges, ran, ranged, ranged.apart⟩

namespace Nested

/-- Two instructions in one range, and the first of them in another. -/
def text : Body where
  elements := [
    .label { name := ascii "first" },
    .instruction { opcode := .nop },
    .label { name := ascii "last" },
    .instruction { opcode := (Opcode.ofValue? 0x0e).getD .nop },
    .label { name := ascii "end" },
    .catchRange { type := ⟨[]⟩, start := ascii "first", stop := ascii "end", handler := ascii "first" },
    .catchRange { type := ⟨[]⟩, start := ascii "first", stop := ascii "last", handler := ascii "last" }]

theorem known_text : Sequence.Known text := by
  have all : text.elements.all (fun
      | .instruction e => decide (e.opcode ∈ Opcode.all)
      | _ => true) = true := by decide
  exact fun e he => of_decide_eq_true (List.all_eq_true.1 all (.instruction e) he)

def names : List (Bytes × Handle) := [(ascii "end", .finish), (ascii "last", 1), (ascii "first", 0)]

/-- The two instructions. -/
def assembled : Sequence := ((Sequence.addElements text).apply { size := some (.int 0) }).2

/-- The item with both ranges, before the refresh. -/
def unsettled : CodeItem := ((addCatches names text.elements).apply (started {} text assembled 0)).2

/-- The item with refreshed instructions. -/
def settled : CodeItem := ((onCode Sequence.refresh).apply unsettled).2.updateCounts

/-- The item with refreshed ranges. -/
def guarded : CodeItem := settled.setTries (List.zipWith setSpan settled.tries [(0, 2), (0, 1)])

theorem gives_refreshTries : refreshTries.Gives settled ⟨⟩ guarded := by
  have spans : settled.tries.mapM settled.span = .ok [(0, 2), (0, 1)] := Action.eq_ok_of_toOption (by decide +kernel)
  have each := Action.except_mapM_eq_ok.1 spans
  have short : ∀ r ∈ [((0 : Int), (2 : Int)), (0, 1)], r.1 < r.2 ∧ r.2 - r.1 ≤ 0xffff := by decide
  refine gives_refreshTries_of_sorted (List.forall₂_iff_zip.2 ⟨each.length_eq, fun h => ?_⟩) (by decide +kernel)
  exact ⟨List.forall₂_zip each h, short _ (List.of_mem_zip h).2⟩

theorem exists_gives_refreshGuards : ∃ d, refreshGuards.Gives settled ⟨⟩ d ∧ d.tries.map bounds = [(0, 2), (0, 1)] := by
  refine ⟨_, Action.gives_bind.2 ⟨⟨⟩, guarded, gives_refreshTries, Action.gives_of_toOption ?_⟩, ?_⟩
  · decide +kernel
  · decide +kernel

theorem exists_gives_ofBody : ∃ d, (ofBody text).Gives {} ⟨⟩ d ∧ d.tries.map bounds = [(0, 2), (0, 1)] := by
  obtain ⟨d, guards, stored⟩ := exists_gives_refreshGuards
  have elements : (Sequence.addElements text).Gives { size := some (.int 0) } names assembled :=
    Action.gives_of_toOption (by decide)
  have outs : outsFor { assembled with moves := #[] } = .ok 0 := Action.eq_ok_of_toOption (by decide +kernel)
  have caught : (addCatches names text.elements).Gives (started {} text assembled 0) [((0, 1), 1), ((0, .finish), 0)] unsettled :=
    Action.gives_of_toOption (by decide)
  have code : (onCode Sequence.refresh).Gives unsettled ⟨⟩ ((onCode Sequence.refresh).apply unsettled).2 :=
    Action.gives_of_toOption (by decide +kernel)
  have guarded : unsettled.tries.isEmpty = false := by decide
  have refreshed : refresh.Gives unsettled ⟨⟩ d := gives_refresh.2 ⟨_, code, by rwa [guarded]⟩
  exact ⟨d, gives_ofBody.2 ⟨names, assembled, 0, _, unsettled, elements, outs, caught, refreshed⟩, stored⟩

end Nested

/-- Two ranges of which one is inside the other. -/
theorem ranges_of_ofBody_nested : ∃ d labels t ranges,
    (ofBody Nested.text).Gives {} ⟨⟩ d ∧ d.tries.map bounds = [(0, 2), (0, 1)] ∧
    (Sequence.addElements Nested.text).Gives { size := some (.int 0) } labels t ∧
    Ranged d (Nested.text.catches.map (ends labels)).dedup ranges ∧
    (ranges.Pairwise Apart ↔ ((Nested.text.catches.map (ends labels)).dedup.filterMap d.code.between).Pairwise Apart) := by
  obtain ⟨d, run, stored⟩ := Nested.exists_gives_ofBody
  obtain ⟨labels, t, ranges, ran, ranged, apart⟩ := ranges_of_ofBody Nested.known_text run
  exact ⟨d, labels, t, ranges, run, stored, ran, ranged, apart⟩

/-- A body with overlapping ranges is assembled, and the stored ranges overlap. -/
theorem overlap_of_ofBody : ∃ d, (ofBody Nested.text).Gives {} ⟨⟩ d ∧ ¬ (d.tries.map bounds).Pairwise Apart := by
  obtain ⟨d, run, stored⟩ := Nested.exists_gives_ofBody
  refine ⟨d, run, ?_⟩
  rw [stored]
  decide

end CodeItem

end Dalvik
