import Dalvik.Code.CodeItem
import Dalvik.Proofs.Handler
import Dalvik.Proofs.Sequence.Decoding

/-!
# Reading a code item

`decode` reads the fixed fields, the instructions, and then the ranges and handlers, which are
linked: addresses become handles, and the offset of a handler in the list becomes its slot.
`gives_decode` splits a decoding into these parts, and puts it together again.
-/

namespace Dalvik

namespace CodeItem

variable {cur cur' : Cursor} {c c' : CodeItem} {pool : Option Pool}

/-! ## Handlers -/

/-- The handlers, each with the offset at which the one before it ends. -/
def layoutFrom (offset : Nat) : List CatchHandler → List CatchHandler
  | [] => []
  | h :: hs => { h with offset } :: layoutFrom (offset + h.byteCount) hs

theorem length_layoutFrom (offset : Nat) (hs : List CatchHandler) : (layoutFrom offset hs).length = hs.length := by
  induction hs generalizing offset with
  | nil => rfl
  | cons h hs ih => rw [layoutFrom, List.length_cons, List.length_cons, ih]

theorem placeHandlers_filled (count : Option Cell) (offset : Nat) (done hs : List CatchHandler) :
    placeHandlers offset (List.range' done.length hs.length) (Table.filled count (done ++ hs)) =
      Table.filled count (done ++ layoutFrom offset hs) := by
  induction hs generalizing offset done with
  | nil => rfl
  | cons h hs ih =>
    have here : (Table.filled count (done ++ h :: hs)).value? done.length = some h := by
      rw [Table.value?_filled]
      simp
    rw [List.length_cons, List.range'_succ, placeHandlers, here, Table.modifySlot_filled]
    have next := ih (offset + h.byteCount) (done ++ [{ h with offset }])
    simpa [layoutFrom] using next

/-- The pair with the handle of the item at its address. -/
def LinkedPair (code : Sequence) (p q : CatchPair) : Prop :=
  ∃ k, code.handleAt? p.address.get = some k ∧ q = { p with handler := k }

/-- The handler with the handles of the items at its addresses. -/
structure LinkedHandler (code : Sequence) (h k : CatchHandler) : Prop where
  pairs : List.Forall₂ (LinkedPair code) h.pairs k.pairs
  all : h.catchesAll = true → code.handleAt? h.allAddress.get = some k.all
  rest : k = { h with pairs := k.pairs, all := if h.catchesAll then k.all else h.all }

theorem handleAt_eq_ok {start : Nat} {a : Int} {what : String} {k : Handle} :
    c.handleAt start a what = .ok k ↔ c.code.handleAt? a = some k := by
  unfold CodeItem.handleAt
  cases c.code.handleAt? a <;> simp [fail]

theorem linkPairs_eq_ok {start : Nat} {v : Unit} {ps qs : List CatchPair} :
    c.linkPairs start ps = (.ok v, qs) ↔ List.Forall₂ (LinkedPair c.code) ps qs := by
  induction ps generalizing qs with
  | nil =>
    simp only [linkPairs, Prod.mk.injEq, true_and, List.forall₂_nil_left_iff]
    exact eq_comm
  | cons p ps ih =>
    rw [linkPairs, List.forall₂_cons_left_iff]
    cases e : c.handleAt start p.address.get "catch" with
    | error stop =>
      simp only [Prod.mk.injEq, reduceCtorEq, false_and, false_iff]
      rintro ⟨q, qs', ⟨k, hk, rfl⟩, -, rfl⟩
      rw [handleAt_eq_ok.2 hk] at e
      cases e
    | ok k =>
      rcases tail : c.linkPairs start ps with ⟨r, rest⟩
      have here := handleAt_eq_ok.1 e
      constructor
      · intro h
        obtain ⟨rfl, rfl⟩ := Prod.mk.inj h
        exact ⟨_, rest, ⟨k, here, rfl⟩, ih.1 tail, rfl⟩
      · rintro ⟨q, qs', ⟨j, hj, rfl⟩, hqs, rfl⟩
        rw [here] at hj
        cases hj
        rw [ih.2 hqs] at tail
        cases tail
        rfl

/-- The item with the given handlers. -/
def withHandlers (c : CodeItem) (count : Option Cell) (hs : List CatchHandler) : CodeItem :=
  { c with handlers := Table.filled count hs }

theorem gives_linkHandler {start : Nat} (count : Option Cell) {done rest : List CatchHandler} {h : CatchHandler} :
    (linkHandler start done.length).Gives (c.withHandlers count (done ++ h :: rest)) ⟨⟩ c' ↔
      ∃ k, LinkedHandler c.code h k ∧ c' = c.withHandlers count (done ++ k :: rest) := by
  have here : (c.withHandlers count (done ++ h :: rest)).handlers.value? done.length = some h := by
    rw [withHandlers, Table.value?_filled]
    simp
  have update : ∀ (x : CatchHandler) (f : CatchHandler → CatchHandler),
      { c.withHandlers count (done ++ x :: rest) with
        handlers := (c.withHandlers count (done ++ x :: rest)).handlers.modifySlot done.length f } =
      c.withHandlers count (done ++ f x :: rest) := by
    intro x f
    rw [withHandlers, withHandlers, Table.modifySlot_filled]
  unfold linkHandler
  simp only [Action.gives_bind, Action.gives_get]
  rcases e : ((c.withHandlers count (done ++ h :: rest)).linkPairs start h.pairs : Except Stop Unit × _) with ⟨r, ps⟩
  constructor
  · rintro ⟨_, _, ⟨rfl, rfl⟩, run⟩
    simp only [here, e, Action.gives_bind, Action.gives_modify, Action.gives_lift, update] at run
    obtain ⟨_, _, rfl, _, _, ⟨rfl, rfl⟩, run⟩ := run
    have pairs := linkPairs_eq_ok.1 e
    split at run
    · next all =>
      simp only [Action.gives_bind, Action.gives_modify, Action.gives_lift, Action.gives_pure, update] at run
      obtain ⟨_, _, rfl, k, _, ⟨found, rfl⟩, -, rfl⟩ := run
      refine ⟨{ h with pairs := ps, all := k }, ⟨pairs, fun _ => handleAt_eq_ok.1 found, by rw [if_pos all]⟩, ?_⟩
      rw [found]
      rfl
    · next all =>
      obtain ⟨-, rfl⟩ := Action.gives_pure.1 run
      exact ⟨{ h with pairs := ps }, ⟨pairs, fun yes => absurd yes all, by rw [if_neg all]⟩, rfl⟩
  · rintro ⟨k, linked, rfl⟩
    refine ⟨_, _, ⟨rfl, rfl⟩, ?_⟩
    have linkedPairs : (c.withHandlers count (done ++ h :: rest)).linkPairs start h.pairs = (.ok ⟨⟩, k.pairs) :=
      linkPairs_eq_ok.2 linked.pairs
    rw [e] at linkedPairs
    obtain ⟨rfl, rfl⟩ := Prod.mk.inj linkedPairs
    simp only [here, e, Action.gives_bind, Action.gives_modify, Action.gives_lift, update]
    refine ⟨⟨⟩, _, rfl, ⟨⟩, _, ⟨trivial, rfl⟩, ?_⟩
    split
    · next all =>
      have found : (c.withHandlers count (done ++ h :: rest)).handleAt start h.allAddress.get "catch-all" = .ok k.all :=
        handleAt_eq_ok.2 (linked.all all)
      simp only [Action.gives_bind, Action.gives_modify, Action.gives_lift, Action.gives_pure, update]
      refine ⟨⟨⟩, _, rfl, k.all, _, ⟨found, rfl⟩, trivial, ?_⟩
      rw [found, linked.rest, if_pos all]
      rfl
    · next all =>
      refine Action.gives_pure.2 ⟨rfl, ?_⟩
      rw [linked.rest, if_neg all]

/-! ## Ranges -/

/-- The slot of the handler at an offset in the list. -/
def slotAt? (hs : List CatchHandler) (offset : Nat) : Option Nat :=
  (List.range hs.length).find? fun s => hs[s]?.any fun h => h.offset = offset

/-- The range with the handles of the items at its bounds, and the slot of its handler. -/
structure LinkedTry (code : Sequence) (hs : List CatchHandler) (t u : TryItem) : Prop where
  first : code.handleAt? t.start.toNat = some u.first
  past : code.handleAt? (t.start.toNat + t.count.toNat : Nat) = some u.past
  handler : slotAt? hs t.handlerOffset.toNat = u.handler
  handled : u.handler ≠ none
  rest : u = { t with first := u.first, past := u.past, handler := u.handler }

/-- The item with the given ranges. -/
def withTries (c : CodeItem) (ts : List TryItem) : CodeItem := { c with tries := ts }

theorem modify_append_cons {α : Type} (done : List α) (x : α) (rest : List α) (f : α → α) :
    (done ++ x :: rest).modify done.length f = done ++ f x :: rest := by
  induction done with
  | nil => rfl
  | cons y done ih => rw [List.cons_append, List.length_cons, List.modify_succ_cons, ih, List.cons_append]

theorem gives_linkTry {start : Nat} {count : Option Cell} {hs : List CatchHandler} {done rest : List TryItem} {t : TryItem}
    (handlers : c.handlers = Table.filled count hs) :
    (linkTry start done.length).Gives (c.withTries (done ++ t :: rest)) ⟨⟩ c' ↔
      ∃ u, LinkedTry c.code hs t u ∧ c' = c.withTries (done ++ u :: rest) := by
  have here : (c.withTries (done ++ t :: rest)).tries[done.length]? = some t := by simp [withTries]
  have update : ∀ (x : TryItem) (f : TryItem → TryItem),
      { c.withTries (done ++ x :: rest) with tries := (c.withTries (done ++ x :: rest)).tries.modify done.length f } =
      c.withTries (done ++ f x :: rest) := by
    intro x f
    rw [withTries, withTries, modify_append_cons]
  have slot : ((c.withTries (done ++ t :: rest)).handlers.order.find? fun s =>
      ((c.withTries (done ++ t :: rest)).handlers.value? s).any fun h => h.offset = t.handlerOffset.toNat) =
      slotAt? hs t.handlerOffset.toNat := by
    simp only [withTries, handlers, Table.value?_filled]
    rfl
  unfold linkTry
  simp only [Action.gives_bind, Action.gives_get]
  constructor
  · rintro ⟨_, _, ⟨rfl, rfl⟩, run⟩
    simp only [here, Action.gives_bind, Action.gives_modify, Action.gives_lift, update] at run
    obtain ⟨_, _, rfl, first, _, ⟨hfirst, rfl⟩, _, s₂, h₂, past, _, ⟨hpast, rfl⟩, _, s₃, h₃, run⟩ := run
    simp only [hfirst, hpast, Except.toOption, Option.getD_some, update] at h₂
    subst h₂
    simp only [slot, update] at h₃
    subst h₃
    simp only [slot] at run
    split at run
    · simp at run
    · next found =>
      obtain ⟨-, rfl⟩ := Action.gives_pure.1 run
      exact ⟨{ t with first, past, handler := slotAt? hs t.handlerOffset.toNat },
        ⟨handleAt_eq_ok.1 hfirst, handleAt_eq_ok.1 hpast, rfl, by simpa using found, rfl⟩, rfl⟩
  · rintro ⟨u, linked, rfl⟩
    have hfirst : (c.withTries (done ++ t :: rest)).handleAt start t.start.toNat "try start" = .ok u.first :=
      handleAt_eq_ok.2 linked.first
    have hpast : (c.withTries (done ++ t :: rest)).handleAt start (t.start.toNat + t.count.toNat) "try end" = .ok u.past :=
      handleAt_eq_ok.2 linked.past
    refine ⟨_, _, ⟨rfl, rfl⟩, ?_⟩
    simp only [here, Action.gives_bind, Action.gives_modify, Action.gives_lift, update, hfirst, hpast, Except.toOption,
      Option.getD_some]
    refine ⟨⟨⟩, _, rfl, u.first, _, ⟨rfl, rfl⟩, ⟨⟩, c.withTries (done ++ { t with first := u.first, past := u.past } :: rest),
      update _ _, u.past, _, ⟨rfl, rfl⟩, ⟨⟩, c.withTries (done ++ u :: rest), ?_, ?_⟩
    · rw [update, slot, linked.handler]
      exact congrArg (fun x => c.withTries (done ++ x :: rest)) linked.rest.symm
    · rw [slot, linked.handler, if_neg (by simpa using linked.handled)]
      exact Action.gives_pure.2 ⟨rfl, rfl⟩

/-! ## Behind the instructions -/

/-- What is read behind the instructions: nothing if there are no ranges, and otherwise padding if it is needed, the
ranges, and the handlers, which are given their offsets and linked. -/
inductive Guards (c : CodeItem) (cur : Cursor) : CodeItem → Cursor → Prop
  | absent (empty : c.triesSize = 0) : Guards c cur c cur
  | present {padding : UInt16} {ts us : List TryItem} {count : Uleb} {hs ks : List CatchHandler} {cur' : Cursor}
      (guarded : c.triesSize ≠ 0) (even : c.code.units % 2 = 0 → padding = 0) (length : ts.length = c.triesSize.toNat)
      (fresh : ∀ t ∈ ts, t.first = .none ∧ t.past = .none ∧ t.handler = .none)
      (read : count.Read) (raw : ∀ h ∈ hs, h.Raw) (size : count.get = hs.length)
      (spans : cur.Spans ((if c.code.units % 2 = 1 then bytesU16 padding else []) ++ (ts.flatMap TryItem.bytes ++
        (count.bytes ++ hs.flatMap CatchHandler.bytes))) cur')
      (handlers : List.Forall₂ (LinkedHandler c.code) (layoutFrom count.size hs) ks)
      (tries : List.Forall₂ (LinkedTry c.code ks) ts us) :
      Guards c cur { c with padding, tries := us, handlers := Table.filled (some (.uleb count)) ks } cur'

theorem each_linkHandler (c : CodeItem) (start : Nat) (count : Option Cell) {hs : List CatchHandler} :
    Action.Each (linkHandler start) (List.range hs.length) (c.withHandlers count hs) c' ↔
      ∃ ks, List.Forall₂ (LinkedHandler c.code) hs ks ∧ c' = c.withHandlers count ks := by
  have := Action.each_range (f := linkHandler start) (fun _ _ _ _ => gives_linkHandler (c := c) count) [] hs (u := c')
  simpa [List.range_eq_range'] using this

theorem each_linkTry (c : CodeItem) (start : Nat) {count : Option Cell} {hs : List CatchHandler} {ts : List TryItem}
    (handlers : c.handlers = Table.filled count hs) :
    Action.Each (linkTry start) (List.range ts.length) (c.withTries ts) c' ↔
      ∃ us, List.Forall₂ (LinkedTry c.code hs) ts us ∧ c' = c.withTries us := by
  have := Action.each_range (f := linkTry start) (fun _ _ _ _ => gives_linkTry handlers) [] ts (u := c')
  simpa [List.range_eq_range'] using this

/-! ## The parts of a reading -/

/-- Reads the fixed fields. -/
def decodeHeader (cur : Cursor) : Action CodeItem Cursor := do
  let cur ← Action.on (·.registers) (fun v c => { c with registers := v }) (decodeU16 cur)
  let cur ← Action.on (·.ins) (fun v c => { c with ins := v }) (decodeU16 cur)
  let cur ← Action.on (·.outs) (fun v c => { c with outs := v }) (decodeU16 cur)
  let cur ← Action.on (·.triesSize) (fun v c => { c with triesSize := v }) (decodeU16 cur)
  let cur ← Action.on (·.debugInfo) (fun v c => { c with debugInfo := v }) (decodeU32 cur)
  Action.on (fun c => c.code.size.getD default)
    (fun v c => { c with code := { c.code with size := some v } }) (Cell.decode cur)

/-- Reads the ranges and handlers that the fixed fields announce, and links them. -/
def decodeGuards (start : Nat) (cur : Cursor) : Action CodeItem Cursor := do
  if (← get).triesSize = 0 then
    modify fun c => { c.setTries [] with handlers := c.handlers.clear }
    return cur
  else
    let cur ← if (← get).code.units % 2 = 1 then
        Action.on (·.padding) (fun v c => { c with padding := v }) (decodeU16 cur)
      else pure cur
    modify fun c => { c with tries := resizeList c.triesSize.toNat {} c.tries }
    let cur ← Action.on (·.tries) (fun v c => { c with tries := v })
      (Action.of fun tries => decodeEach TryItem.decode 0 tries cur)
    let cur ← Action.on (·.handlers) (fun v c => { c with handlers := v }) do
      let cur ← Table.decodeCount cur
      Table.decode {} CatchHandler.decode cur
    modify layoutHandlers
    for s in (← get).handlers.order do linkHandler start s
    for i in List.range (← get).tries.length do linkTry start i
    return cur

theorem decode_eq (cur : Cursor) :
    decode cur = ((do decodeGuards cur.pos (← onCode (Sequence.decode (← decodeHeader cur)))) : Action CodeItem Cursor) := by
  unfold decode decodeHeader
  simp only [bind_assoc]
  rfl

/-- The bytes of the fixed fields. -/
def headerBytes (c : CodeItem) : Bytes :=
  bytesU16 c.registers ++ (bytesU16 c.ins ++ (bytesU16 c.outs ++ (bytesU16 c.triesSize ++
    (bytesU32 c.debugInfo ++ (c.code.size.map Cell.bytes).getD []))))

/-- Everything but the fixed fields is as in a new item. -/
structure Headed (pool : Option Pool) (c : CodeItem) : Prop where
  code : ∃ units, c.code = { size := some (.int units), pool }
  tries : c.tries = []
  handlers : c.handlers = { count := some (.uleb {}) }
  padding : c.padding = 0

theorem gives_decodeHeader (hc : cur.Sane) :
    (decodeHeader cur).Gives (new pool) cur' c ↔ Headed pool c ∧ cur.Spans c.headerBytes cur' := by
  simp only [decodeHeader, Action.gives_bind, Action.gives_on]
  constructor
  · rintro ⟨c₁, _, ⟨registers, h₁, rfl⟩, c₂, _, ⟨ins, h₂, rfl⟩, c₃, _, ⟨outs, h₃, rfl⟩, c₄, _, ⟨triesSize, h₄, rfl⟩,
      c₅, _, ⟨debugInfo, h₅, rfl⟩, _, h₆, rfl⟩
    have s₁ := (gives_decodeU16 hc).1 h₁
    have hc₁ := s₁.sane hc
    have s₂ := (gives_decodeU16 hc₁).1 h₂
    have hc₂ := s₂.sane hc₁
    have s₃ := (gives_decodeU16 hc₂).1 h₃
    have hc₃ := s₃.sane hc₂
    have s₄ := (gives_decodeU16 hc₃).1 h₄
    have hc₄ := s₄.sane hc₃
    have s₅ := (gives_decodeU32 hc₄).1 h₅
    obtain ⟨units, rfl, s₆⟩ := (gives_decodeInt (s₅.sane hc₄)).1 h₆
    refine ⟨⟨⟨units, rfl⟩, rfl, rfl, rfl⟩, ?_⟩
    exact Cursor.spans_append.2 ⟨c₁, s₁, Cursor.spans_append.2 ⟨c₂, s₂, Cursor.spans_append.2 ⟨c₃, s₃,
      Cursor.spans_append.2 ⟨c₄, s₄, Cursor.spans_append.2 ⟨c₅, s₅, s₆⟩⟩⟩⟩⟩
  · rintro ⟨⟨⟨units, code⟩, tries, handlers, padding⟩, spans⟩
    obtain ⟨registers, ins, outs, triesSize, debugInfo, _, _, _, _⟩ := c
    simp only at code tries handlers padding
    subst code tries handlers padding
    obtain ⟨c₁, s₁, spans⟩ := Cursor.spans_append.1 spans
    obtain ⟨c₂, s₂, spans⟩ := Cursor.spans_append.1 spans
    obtain ⟨c₃, s₃, spans⟩ := Cursor.spans_append.1 spans
    obtain ⟨c₄, s₄, spans⟩ := Cursor.spans_append.1 spans
    obtain ⟨c₅, s₅, s₆⟩ := Cursor.spans_append.1 spans
    have hc₁ := s₁.sane hc
    have hc₂ := s₂.sane hc₁
    have hc₃ := s₃.sane hc₂
    have hc₄ := s₄.sane hc₃
    exact ⟨c₁, _, ⟨registers, (gives_decodeU16 hc).2 s₁, rfl⟩, c₂, _, ⟨ins, (gives_decodeU16 hc₁).2 s₂, rfl⟩,
      c₃, _, ⟨outs, (gives_decodeU16 hc₂).2 s₃, rfl⟩, c₄, _, ⟨triesSize, (gives_decodeU16 hc₃).2 s₄, rfl⟩,
      c₅, _, ⟨debugInfo, (gives_decodeU32 hc₄).2 s₅, rfl⟩, _, (gives_decodeInt (s₅.sane hc₄)).2 ⟨units, rfl, s₆⟩, rfl⟩

theorem gives_decodePadding (hc : cur.Sane) (padding : c.padding = 0) :
    (if c.code.units % 2 = 1 then Action.on (·.padding) (fun v (c : CodeItem) => { c with padding := v }) (decodeU16 cur)
      else pure cur).Gives c cur' c' ↔
      ∃ v, c' = { c with padding := v } ∧ (c.code.units % 2 = 0 → v = 0) ∧
        cur.Spans (if c.code.units % 2 = 1 then bytesU16 v else []) cur' := by
  split
  · next odd =>
    simp only [Action.gives_on, gives_decodeU16 hc]
    constructor
    · rintro ⟨v, spans, rfl⟩
      exact ⟨v, rfl, by omega, spans⟩
    · rintro ⟨v, rfl, -, spans⟩
      exact ⟨v, spans, rfl⟩
  · next even =>
    simp only [Action.gives_pure, Cursor.spans_nil]
    constructor
    · rintro ⟨rfl, rfl⟩
      exact ⟨c.padding, rfl, fun _ => padding, rfl⟩
    · rintro ⟨v, rfl, zero, rfl⟩
      rw [zero (by omega), ← padding]
      exact ⟨rfl, rfl⟩

theorem gives_decodeTries (hc : cur.Sane) {n : Nat} {ts : List TryItem} :
    (Action.of fun tries => decodeEach TryItem.decode 0 tries cur : Action (List TryItem) Cursor).Gives (resizeList n {} []) cur' ts ↔
      ts.length = n ∧ (∀ t ∈ ts, t.first = .none ∧ t.past = .none ∧ t.handler = .none) ∧
        cur.Spans (ts.flatMap TryItem.bytes) cur' := by
  rw [Action.gives_of, TryItem.readsAs.decodeEach_eq_ok hc, resizeList_nil, forall₂_replicate, and_assoc]

theorem layoutHandlers_filled {count : Uleb} {hs : List CatchHandler} (handlers : c.handlers = Table.filled (some (.uleb count)) hs) :
    c.layoutHandlers = c.withHandlers (some (.uleb count)) (layoutFrom count.size hs) := by
  have := placeHandlers_filled (some (.uleb count)) count.size [] hs
  simp only [List.length_nil, List.nil_append, ← List.range_eq_range'] at this
  rw [layoutHandlers, handlers, withHandlers]
  congr 1

theorem clear_eq_self (tries : c.tries = []) (handlers : c.handlers = { count := some (.uleb {}) }) (empty : c.triesSize = 0) :
    { c.setTries [] with handlers := c.handlers.clear } = c := by
  obtain ⟨_, _, _, _, _, _, _, _, _⟩ := c
  simp only at tries handlers empty
  subst tries handlers empty
  rfl

theorem gives_decodeGuards (hc : cur.Sane) {start : Nat} (tries : c.tries = [])
    (handlers : c.handlers = { count := some (.uleb {}) }) (padding : c.padding = 0) :
    (decodeGuards start cur).Gives c cur' c' ↔ Guards c cur c' cur' := by
  simp only [decodeGuards, Action.gives_bind, Action.gives_get]
  constructor
  · rintro ⟨_, _, ⟨rfl, rfl⟩, run⟩
    split at run
    · next empty =>
      simp only [Action.gives_bind, Action.gives_modify, Action.gives_pure] at run
      obtain ⟨_, _, rfl, rfl, rfl⟩ := run
      rw [clear_eq_self tries handlers empty]
      exact .absent empty
    · next guarded =>
      simp only [Action.gives_bind, Action.gives_get, Action.gives_ite_bind, Action.gives_on, Action.gives_modify,
        Action.gives_pure, Action.gives_forIn] at run
      obtain ⟨_, _, ⟨rfl, rfl⟩, cur₁, _, pad, _, _, rfl, cur₂, _, ⟨ts, each, rfl⟩, cur₃, _, ⟨t, read, rfl⟩, _, _, rfl,
        _, _, ⟨rfl, rfl⟩, _, d, link, _, _, ⟨rfl, rfl⟩, _, _, linkTries, rfl, rfl⟩ := run
      obtain ⟨v, rfl, even, s₁⟩ := (gives_decodePadding hc padding).1 pad
      have hc₁ := s₁.sane hc
      simp only [tries] at each
      obtain ⟨length, fresh, s₂⟩ := (gives_decodeTries hc₁).1 each
      simp only [handlers] at read
      obtain ⟨count, hs, hcount, raw, size, rfl, s₃⟩ := (gives_decodeHandlers (s₂.sane hc₁)).1 (Action.gives_bind.2 read)
      rw [layoutHandlers_filled rfl] at link
      obtain ⟨ks, linked, rfl⟩ := (each_linkHandler { c with padding := v, tries := ts } start _).1 link
      obtain ⟨us, linkedTries, rfl⟩ := (each_linkTry
        { c with padding := v, handlers := Table.filled (some (.uleb count)) ks } start rfl).1 linkTries
      exact .present guarded even length fresh hcount raw size
        (Cursor.spans_append.2 ⟨cur₁, s₁, Cursor.spans_append.2 ⟨cur₂, s₂, s₃⟩⟩) linked linkedTries
  · rintro (empty | ⟨guarded, even, length, fresh, hcount, raw, size, spans, linked, linkedTries⟩)
    · refine ⟨_, _, ⟨rfl, rfl⟩, ?_⟩
      rw [if_pos empty]
      simp only [Action.gives_bind, Action.gives_modify, Action.gives_pure]
      exact ⟨⟨⟩, _, rfl, trivial, clear_eq_self tries handlers empty⟩
    · next v ts us count hs ks =>
      obtain ⟨cur₁, s₁, spans⟩ := Cursor.spans_append.1 spans
      obtain ⟨cur₂, s₂, s₃⟩ := Cursor.spans_append.1 spans
      have hc₁ := s₁.sane hc
      have pad := (gives_decodePadding hc padding).2 ⟨v, rfl, even, s₁⟩
      have each := (gives_decodeTries hc₁).2 ⟨length, fresh, s₂⟩
      have read := (gives_decodeHandlers (s₂.sane hc₁)).2 ⟨count, hs, hcount, raw, size, rfl, s₃⟩
      have link := (each_linkHandler { c with padding := v, tries := ts } start (some (.uleb count))).2 ⟨ks, linked, rfl⟩
      have linkTries := (each_linkTry
        { c with padding := v, handlers := Table.filled (some (.uleb count)) ks } start rfl).2 ⟨us, linkedTries, rfl⟩
      refine ⟨_, _, ⟨rfl, rfl⟩, ?_⟩
      rw [if_neg guarded]
      simp only [Action.gives_bind, Action.gives_get, Action.gives_ite_bind, Action.gives_on, Action.gives_modify,
        Action.gives_pure, Action.gives_forIn]
      refine ⟨_, _, ⟨rfl, rfl⟩, cur₁, _, pad, ⟨⟩, _, rfl, cur₂, _, ⟨ts, by simpa only [tries] using each, rfl⟩, cur', _,
        ⟨_, by simpa only [handlers, Action.gives_bind] using read, rfl⟩, ⟨⟩, _, rfl, _, _, ⟨rfl, rfl⟩, ⟨⟩,
        { c with padding := v, tries := ts, handlers := Table.filled (some (.uleb count)) ks }, ?_, _, _, ⟨rfl, rfl⟩,
        ⟨⟩, _, linkTries, rfl, rfl⟩
      rw [layoutHandlers_filled rfl]
      exact link

/-! ## The whole -/

theorem gives_onCode_of_empty {α : Type} {act : Action Sequence α} {a : α} (tries : c.tries = []) (order : c.handlers.order = []) :
    (onCode act).Gives c a c' ↔ ∃ t, act.Gives c.code a t ∧ c' = { c with code := { t with moves := #[] } } := by
  have still : ∀ (d : CodeItem), d.tries = [] → d.handlers.order = [] → ∀ moves : Array (Handle × Handle),
      moves.foldl (fun c m => c.retarget m.1 m.2) d = d := by
    intro d tries order moves
    rw [← Array.foldl_toList]
    refine List.foldl_fixed' (fun m => ?_) _
    simp only [retarget, tries, order, List.map_nil, List.foldl_nil]
    rw [← tries]
  rw [onCode, Action.gives_of]
  simp only [Action.Gives]
  rcases act.apply c.code with ⟨r, t⟩
  simp only
  rw [still _ (by exact tries) (by exact order), Prod.mk.injEq]
  constructor
  · rintro ⟨rfl, rfl⟩
    exact ⟨t, rfl, rfl⟩
  · rintro ⟨u, h, rfl⟩
    obtain ⟨rfl, rfl⟩ := Prod.mk.inj h
    exact ⟨rfl, rfl⟩

/-- `decode` gives exactly the items that consist of a header, instructions, and `Guards`. -/
theorem gives_decode (hc : cur.Sane) : (decode cur).Gives (new pool) cur' c' ↔
    ∃ c cur₁ cur₂ t, Headed pool c ∧ cur.Spans c.headerBytes cur₁ ∧ (Sequence.decode cur₁).Gives c.code cur₂ t ∧
      Guards { c with code := { t with moves := #[] } } cur₂ c' cur' := by
  rw [decode_eq]
  simp only [Action.gives_bind, gives_decodeHeader hc]
  have sane : ∀ {s t : Sequence} {cur₁ cur₂ : Cursor}, cur₁.Sane → (Sequence.decode cur₁).Gives s cur₂ t → cur₂.Sane := by
    intro s t cur₁ cur₂ hc₁ run
    obtain ⟨_, _, _, _, _, scan, _⟩ := Sequence.gives_decode.1 run
    exact ((Sequence.scan_iff hc₁).1 scan).2.sane hc₁
  constructor
  · rintro ⟨cur₁, c, ⟨headed, spans⟩, cur₂, _, code, guards⟩
    obtain ⟨t, run, rfl⟩ := (gives_onCode_of_empty headed.tries (by rw [headed.handlers])).1 code
    have hc₂ := sane (spans.sane hc) run
    exact ⟨c, cur₁, cur₂, t, headed, spans, run, (gives_decodeGuards (c := { c with code := { t with moves := #[] } }) hc₂
      headed.tries headed.handlers headed.padding).1 guards⟩
  · rintro ⟨c, cur₁, cur₂, t, headed, spans, run, guards⟩
    have hc₂ := sane (spans.sane hc) run
    exact ⟨cur₁, c, ⟨headed, spans⟩, cur₂, _,
      (gives_onCode_of_empty headed.tries (by rw [headed.handlers])).2 ⟨t, run, rfl⟩,
      (gives_decodeGuards (c := { c with code := { t with moves := #[] } }) hc₂ headed.tries headed.handlers
        headed.padding).2 guards⟩

end CodeItem

end Dalvik
