import Dalvik.Code.Handler
import Dalvik.Proofs.Table

/-!
# What is read into exception handlers

Reading the handler list of a code item, or its ranges, succeeds exactly on the bytes of what it
leaves, and what it leaves is `Raw`: stored counts are right, and LEB128 fields keep the bytes they
were read from.
-/

namespace Dalvik

variable {c c' : Cursor}

/-! ## Pairs -/

namespace CatchPair

def bytes (p : CatchPair) : Bytes := p.pieces.flatten

theorem bytes_eq (p : CatchPair) : p.bytes = p.type.bytes ++ p.address.bytes := by simp [bytes, pieces]

theorem byteCount_eq (p : CatchPair) : p.byteCount = p.bytes.length := by
  rw [bytes_eq, byteCount, List.length_append, Uleb.size_eq, Uleb.size_eq]

structure Raw (p : CatchPair) : Prop where
  type : p.type.Read
  address : p.address.Read
  handler : p.handler = .none

theorem readsAs : ReadsAs CatchPair.decode (fun x y => y.type.Read ∧ y.address.Read ∧ y.handler = x.handler) bytes := by
  intro c c' x y _
  simp only [CatchPair.decode, Action.gives_bind, Action.gives_on, gives_uleb]
  constructor
  · rintro ⟨c₁, _, ⟨type, ⟨htype, s₁⟩, rfl⟩, ⟨address, ⟨haddress, s₂⟩, rfl⟩⟩
    refine ⟨⟨htype, haddress, rfl⟩, ?_⟩
    rw [bytes_eq]
    exact Cursor.spans_append.2 ⟨c₁, s₁, s₂⟩
  · rintro ⟨⟨htype, haddress, handler⟩, spans⟩
    rw [bytes_eq] at spans
    obtain ⟨c₁, s₁, s₂⟩ := Cursor.spans_append.1 spans
    refine ⟨c₁, _, ⟨y.type, ⟨htype, s₁⟩, rfl⟩, y.address, ⟨haddress, s₂⟩, ?_⟩
    cases y
    cases x
    cases handler
    rfl

end CatchPair

/-! ## Handlers -/

namespace CatchHandler

variable {h : CatchHandler}

def bytes (h : CatchHandler) : Bytes := h.pieces.flatten

theorem bytes_eq (h : CatchHandler) :
    h.bytes = h.size.bytes ++ (h.pairs.flatMap CatchPair.bytes ++ if h.catchesAll then h.allAddress.bytes else []) := by
  unfold bytes pieces
  rw [List.cons_append, List.flatten_cons, List.flatten_append]
  congr 2
  · rw [List.flatMap_def, List.flatten_flatten, List.map_map, List.flatMap_def]
    rfl
  · split <;> simp

/-- A handler is as long as it counts; the address of its catch-all is written and counted under one condition. -/
theorem byteCount_eq (h : CatchHandler) : h.byteCount = h.bytes.length := by
  have pairs := total_map_eq_length CatchPair.byteCount_eq h.pairs
  rw [bytes_eq, byteCount, List.length_append, List.length_append, Sleb.size_eq, pairs]
  split
  · rw [Uleb.size_eq, Nat.add_assoc]
  · rfl

/-- The stored size of a handler: the number of pairs, negative or zero if there is a catch-all. -/
def signedLength (h : CatchHandler) : Int := if h.catchesAll then -(h.pairs.length : Int) else h.pairs.length

/-- `updateSize` leaves a handler whose stored size is right as it is. -/
theorem updateSize_eq_self (size : h.size.get = h.signedLength) : h.updateSize = h := by
  change { h with size := h.size.set h.signedLength } = h
  rw [← size, Sleb.set_get]

structure Raw (h : CatchHandler) : Prop where
  size : h.size.Read
  length : h.pairs.length = h.size.get.natAbs
  catchesAll : h.catchesAll = decide (h.size.get ≤ 0)
  pairs : ∀ p ∈ h.pairs, p.Raw
  allAddress : if h.catchesAll then h.allAddress.Read else h.allAddress = {}
  all : h.all = .none
  offset : h.offset = 0

/-- The stored size is `signedLength` if its magnitude is the number of pairs and its sign says whether there is a
catch-all. -/
theorem get_size (length : h.pairs.length = h.size.get.natAbs) (catchesAll : h.catchesAll = decide (h.size.get ≤ 0)) :
    h.size.get = h.signedLength := by
  unfold signedLength
  by_cases neg : h.size.get ≤ 0
  · rw [catchesAll, decide_eq_true neg, if_pos rfl]
    omega
  · rw [catchesAll, decide_eq_false neg]
    simp only [Bool.false_eq_true, if_false]
    omega

theorem Raw.get_size (raw : h.Raw) : h.size.get = h.signedLength := CatchHandler.get_size raw.length raw.catchesAll

theorem gives_decode (hc : c.Sane) : (CatchHandler.decode c).Gives {} c' h ↔ h.Raw ∧ c.Spans h.bytes c' := by
  -- What stands in the handler once its size is known.
  have resized : ∀ size : Sleb, updateSize { ({} : CatchHandler) with
      size, catchesAll := decide (size.get ≤ 0), pairs := resizeList size.get.natAbs {} [] } =
      { size, catchesAll := decide (size.get ≤ 0), pairs := List.replicate size.get.natAbs {} } := by
    intro size
    rw [resizeList_nil]
    exact updateSize_eq_self (CatchHandler.get_size (by rw [List.length_replicate]) rfl)
  simp only [CatchHandler.decode, Action.gives_bind, Action.gives_on, Action.gives_modify, Action.gives_get,
    Action.gives_of, gives_sleb]
  rw [bytes_eq]
  constructor
  · rintro ⟨c₁, _, ⟨size, ⟨hsize, s₁⟩, rfl⟩, _, _, rfl, _, _, rfl, c₂, _, ⟨pairs, hpairs, rfl⟩, _, _, ⟨rfl, rfl⟩, last⟩
    rw [resized] at hpairs last
    obtain ⟨read, s₂⟩ := (CatchPair.readsAs.decodeEach_eq_ok (s₁.sane hc)).1 hpairs
    obtain ⟨length, read⟩ := forall₂_replicate.1 read
    have raw : ∀ p ∈ pairs, p.Raw := fun p hp => ⟨(read p hp).1, (read p hp).2.1, (read p hp).2.2⟩
    dsimp only at last
    split at last
    · next all =>
      obtain ⟨allAddress, run, rfl⟩ := Action.gives_on.1 last
      obtain ⟨hall, s₃⟩ := gives_uleb.1 run
      refine ⟨⟨hsize, length, rfl, raw, by rw [if_pos all]; exact hall, rfl, rfl⟩, ?_⟩
      rw [if_pos all]
      exact Cursor.spans_append.2 ⟨c₁, s₁, Cursor.spans_append.2 ⟨c₂, s₂, s₃⟩⟩
    · next all =>
      obtain ⟨rfl, rfl⟩ := Action.gives_pure.1 last
      refine ⟨⟨hsize, length, rfl, raw, by rw [if_neg all], rfl, rfl⟩, ?_⟩
      rw [if_neg all, List.append_nil]
      exact Cursor.spans_append.2 ⟨c₁, s₁, s₂⟩
  · rintro ⟨raw, spans⟩
    obtain ⟨c₁, s₁, spans⟩ := Cursor.spans_append.1 spans
    obtain ⟨c₂, s₂, s₃⟩ := Cursor.spans_append.1 spans
    refine ⟨c₁, _, ⟨h.size, ⟨raw.size, s₁⟩, rfl⟩, ⟨⟩, _, rfl, ⟨⟩, _, rfl, c₂, _, ⟨h.pairs, ?_, rfl⟩, _, _, ⟨rfl, rfl⟩, ?_⟩
    · rw [resized]
      refine (CatchPair.readsAs.decodeEach_eq_ok (s₁.sane hc)).2 ⟨forall₂_replicate.2 ⟨raw.length, fun p hp => ?_⟩, s₂⟩
      exact ⟨(raw.pairs p hp).type, (raw.pairs p hp).address, (raw.pairs p hp).handler⟩
    · rw [resized]
      have all := raw.all
      have offset := raw.offset
      have catchesAll := raw.catchesAll
      have allAddress := raw.allAddress
      cases h
      dsimp only at *
      subst all offset
      rw [← catchesAll]
      split
      · next yes =>
        rw [if_pos yes] at s₃ allAddress
        exact Action.gives_on.2 ⟨_, gives_uleb.2 ⟨allAddress, s₃⟩, rfl⟩
      · next no =>
        rw [if_neg no] at s₃ allAddress
        obtain rfl := Cursor.spans_nil.1 s₃
        subst allAddress
        exact Action.gives_pure.2 ⟨rfl, rfl⟩

end CatchHandler

/-! ## Ranges -/

namespace TryItem

def bytes (t : TryItem) : Bytes := t.pieces.flatten

theorem bytes_eq (t : TryItem) : t.bytes = bytesU32 t.start ++ (bytesU16 t.count ++ bytesU16 t.handlerOffset) := by
  simp [bytes, pieces]

theorem readsAs : ReadsAs TryItem.decode
    (fun x y => y.first = x.first ∧ y.past = x.past ∧ y.handler = x.handler) bytes := by
  intro c c' x y hc
  simp only [TryItem.decode, Action.gives_bind, Action.gives_on]
  rw [bytes_eq]
  constructor
  · rintro ⟨c₁, _, ⟨start, h₁, rfl⟩, c₂, _, ⟨count, h₂, rfl⟩, ⟨offset, h₃, rfl⟩⟩
    have s₁ := (gives_decodeU32 hc).1 h₁
    have hc₁ := s₁.sane hc
    have s₂ := (gives_decodeU16 hc₁).1 h₂
    have s₃ := (gives_decodeU16 (s₂.sane hc₁)).1 h₃
    exact ⟨⟨rfl, rfl, rfl⟩, Cursor.spans_append.2 ⟨c₁, s₁, Cursor.spans_append.2 ⟨c₂, s₂, s₃⟩⟩⟩
  · rintro ⟨⟨first, past, handler⟩, spans⟩
    obtain ⟨c₁, s₁, spans⟩ := Cursor.spans_append.1 spans
    obtain ⟨c₂, s₂, s₃⟩ := Cursor.spans_append.1 spans
    have hc₁ := s₁.sane hc
    refine ⟨c₁, _, ⟨y.start, (gives_decodeU32 hc).2 s₁, rfl⟩, c₂, _, ⟨y.count, (gives_decodeU16 hc₁).2 s₂, rfl⟩,
      y.handlerOffset, (gives_decodeU16 (s₂.sane hc₁)).2 s₃, ?_⟩
    cases y
    cases x
    simp_all

end TryItem

/-! ## The list of handlers -/

/-- When a handler list is read into an empty table: exactly if the bytes spanned are those of its count and its
handlers, all of them `Raw`. -/
theorem gives_decodeHandlers (hc : c.Sane) {t : Table CatchHandler} :
    (do let c ← Table.decodeCount c; Table.decode {} CatchHandler.decode c : Action (Table CatchHandler) Cursor).Gives
        { count := some (.uleb {}) } c' t ↔
      ∃ u hs, u.Read ∧ (∀ h ∈ hs, h.Raw) ∧ u.get = hs.length ∧ t = Table.filled (some (.uleb u)) hs ∧
        c.Spans (u.bytes ++ hs.flatMap CatchHandler.bytes) c' := by
  have elements : ∀ {c₁ : Cursor} {u : Uleb}, c₁.Sane → ((Table.decode {} CatchHandler.decode c₁).Gives
      { count := some (.uleb u) } c' t ↔ ∃ hs : List CatchHandler, hs.length = u.value.toNat ∧ (∀ h ∈ hs, h.Raw) ∧
        t = Table.filled (some (.uleb u)) hs ∧ c₁.Spans (hs.flatMap CatchHandler.bytes) c') := fun hc₁ =>
    Table.gives_decode_counted (I := Cursor.Sane) (fun spans sane => spans.sane sane)
      (fun _ _ _ sane => CatchHandler.gives_decode sane) hc₁
  simp only [Table.gives_decodeCount, Action.gives_bind]
  constructor
  · rintro ⟨c₁, _, ⟨u, hu, s₁, rfl⟩, run⟩
    obtain ⟨hs, length, raw, rfl, s₂⟩ := (elements (s₁.sane hc)).1 run
    exact ⟨u, hs, hu, raw, by rw [Uleb.get, length], rfl, Cursor.spans_append.2 ⟨c₁, s₁, s₂⟩⟩
  · rintro ⟨u, hs, hu, raw, length, rfl, spans⟩
    obtain ⟨c₁, s₁, s₂⟩ := Cursor.spans_append.1 spans
    rw [Uleb.get] at length
    exact ⟨c₁, _, ⟨u, hu, s₁, rfl⟩, (elements (s₁.sane hc)).2 ⟨hs, by omega, raw, rfl, s₂⟩⟩

end Dalvik
