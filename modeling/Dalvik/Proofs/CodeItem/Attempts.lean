import Dalvik.Proofs.CodeItem.Decoding
import Dalvik.Proofs.Sequence.Lasting

/-!
# Attempts on a code item

Decoding, assembling and refreshing a code item work on its instructions through `onCode` only. So
what these three keep of a sequence (`Enduring`), they keep of the instructions of a code item,
whether they succeed or fail. `Attempted` are the code items that they and edits make of an empty
one, with what failed attempts have left.
-/

namespace Dalvik.CodeItem

open Dalvik.Action (Upholds)
open Assembly (Body)

variable {c d : CodeItem}

/-! ## Working on the instructions -/

theorem code_foldl (moves : List (Handle × Handle)) :
    (moves.foldl (fun c m => c.retarget m.1 m.2) c).code = c.code := by
  induction moves generalizing c with
  | nil => rfl
  | cons m moves ih => exact ih

theorem apply_onCode {α : Type} (act : Action Sequence α) (c : CodeItem) :
    (onCode act).apply c = ((act.apply c.code).1,
      (act.apply c.code).2.moves.toList.foldl (fun c m => c.retarget m.1 m.2)
        { c with code := { (act.apply c.code).2 with moves := #[] } }) := by
  unfold onCode
  rw [Action.apply_of]
  simp only [← Array.foldl_toList]

theorem gives_onCode {α : Type} {act : Action Sequence α} {a : α} : (onCode act).Gives c a d ↔ ∃ t, act.Gives c.code a t ∧
    d = t.moves.toList.foldl (fun c m => c.retarget m.1 m.2) { c with code := { t with moves := #[] } } := by
  unfold Action.Gives
  rw [apply_onCode]
  constructor
  · intro run
    obtain ⟨ok, rfl⟩ := Prod.mk.inj run
    exact ⟨_, Prod.ext ok rfl, rfl⟩
  · rintro ⟨t, run, rfl⟩
    rw [run]

/-! ## What is kept -/

/-- `I` holds of an empty sequence, is kept by decoding, refreshing and the assembly of bodies in `known`, and does
not depend on the moves that a sequence has recorded. -/
structure Enduring (known : Body → Prop) (I : Sequence → Prop) : Prop where
  outside : ∀ (s : Sequence) (size : Option Cell) (pool : Option Pool) (moves : Array (Handle × Handle)),
    I s → I { s with size, pool, moves }
  new : ∀ (size : Option Cell) (pool : Option Pool), I { size, pool }
  decode : ∀ cur : Cursor, Upholds I (Sequence.decode cur)
  addElements : ∀ body : Body, known body → Upholds I (Sequence.addElements body)
  refresh : Upholds I Sequence.refresh

/-- `I` holds of the instructions, and no recorded moves are left to follow. -/
structure Settling (I : Sequence → Prop) (c : CodeItem) : Prop where
  code : I c.code
  still : c.code.moves = #[]

namespace Settling

variable {I : Sequence → Prop} {known : Body → Prop}

theorem congr (h : Settling I c) (code : d.code = c.code) : Settling I d := by
  obtain ⟨holds, still⟩ := h
  exact ⟨code ▸ holds, code ▸ still⟩

/-- After `onCode`, no recorded moves are left. -/
theorem onCode (enduring : Enduring known I) {α : Type} {act : Action Sequence α} (holds : I (act.apply c.code).2) :
    Settling I ((CodeItem.onCode act).apply c).2 := by
  rw [apply_onCode]
  exact congr (c := { c with code := { (act.apply c.code).2 with moves := #[] } })
    ⟨enduring.outside _ _ _ _ holds, rfl⟩ (code_foldl _)

end Settling

section Upholding

variable {I : Sequence → Prop} {known : Body → Prop}

theorem upholds_linkHandler (start slot : Nat) : Upholds (Settling I) (linkHandler start slot) := by
  unfold linkHandler
  refine Action.upholds_get fun c settled => ?_
  dsimp only
  split
  · exact settled
  · refine Upholds.bind (Action.upholds_modify fun _ h => h.congr rfl) (fun _ => ?_) c settled
    refine Upholds.bind (Action.upholds_lift _) fun _ => ?_
    split
    · exact Upholds.bind (Action.upholds_modify fun _ h => h.congr rfl) fun _ =>
        Upholds.bind (Action.upholds_lift _) fun _ => Action.upholds_pure _
    · exact Action.upholds_pure _

theorem upholds_linkTry (start i : Nat) : Upholds (Settling I) (linkTry start i) := by
  unfold linkTry
  refine Action.upholds_get fun c settled => ?_
  dsimp only
  split
  · exact settled
  · refine Upholds.bind (Action.upholds_modify fun _ h => h.congr rfl) (fun _ => ?_) c settled
    refine Upholds.bind (Action.upholds_lift _) fun _ => ?_
    refine Upholds.bind (Action.upholds_modify fun _ h => h.congr rfl) fun _ => ?_
    refine Upholds.bind (Action.upholds_lift _) fun _ => ?_
    refine Upholds.bind (Action.upholds_modify fun _ h => h.congr rfl) fun _ => ?_
    split
    · exact Action.upholds_refuse _
    · exact Action.upholds_pure _

theorem upholds_decodeHeader (enduring : Enduring known I) (cur : Cursor) : Upholds (Settling I) (decodeHeader cur) := by
  unfold decodeHeader
  refine Upholds.bind (Action.upholds_on fun _ _ h => h.congr rfl) fun _ => ?_
  refine Upholds.bind (Action.upholds_on fun _ _ h => h.congr rfl) fun _ => ?_
  refine Upholds.bind (Action.upholds_on fun _ _ h => h.congr rfl) fun _ => ?_
  refine Upholds.bind (Action.upholds_on fun _ _ h => h.congr rfl) fun _ => ?_
  refine Upholds.bind (Action.upholds_on fun _ _ h => h.congr rfl) fun _ => ?_
  exact Action.upholds_on fun _ _ h => ⟨enduring.outside _ _ _ _ h.code, h.still⟩

theorem upholds_decodeGuards (start : Nat) (cur : Cursor) : Upholds (Settling I) (decodeGuards start cur) := by
  unfold decodeGuards
  refine Action.upholds_get fun c settled => ?_
  split
  · exact Upholds.bind (Action.upholds_modify fun _ h => h.congr rfl) (fun _ => Action.upholds_pure _) c settled
  · have rest : ∀ cur : Cursor, Upholds (Settling I) (do
        modify fun c => { c with tries := resizeList c.triesSize.toNat {} c.tries }
        let cur ← Action.on (·.tries) (fun v c => { c with tries := v })
          (Action.of fun tries => decodeEach TryItem.decode 0 tries cur)
        let cur ← Action.on (·.handlers) (fun v c => { c with handlers := v }) do
          let cur ← Table.decodeCount cur
          Table.decode {} CatchHandler.decode cur
        modify layoutHandlers
        for s in (← get).handlers.order do linkHandler start s
        for i in List.range (← get).tries.length do linkTry start i
        return cur : Action CodeItem Cursor) := by
      intro cur
      refine Upholds.bind (Action.upholds_modify fun _ h => h.congr rfl) fun _ => ?_
      refine Upholds.bind (Action.upholds_on fun _ _ h => h.congr rfl) fun cur => ?_
      refine Upholds.bind (Action.upholds_on fun _ _ h => h.congr rfl) fun cur => ?_
      refine Upholds.bind (Action.upholds_modify fun _ h => h.congr rfl) fun _ => ?_
      refine Action.upholds_get fun c settled => Upholds.bind (.each (upholds_linkHandler start)) (fun _ => ?_) c settled
      refine Action.upholds_get fun c settled => Upholds.bind (.each (upholds_linkTry start)) (fun _ => ?_) c settled
      exact Action.upholds_pure cur
    refine Action.upholds_get (fun c settled => ?_) c settled
    split
    · exact Upholds.bind (Action.upholds_on fun _ _ h => h.congr rfl) rest c settled
    · exact Upholds.bind (Action.upholds_pure _) rest c settled

theorem upholds_onCode (enduring : Enduring known I) {α : Type} {act : Action Sequence α} (h : Upholds I act) :
    Upholds (Settling I) (onCode act) :=
  fun _ settled => .onCode enduring (h _ settled.code)

theorem upholds_decode (enduring : Enduring known I) (cur : Cursor) : Upholds (Settling I) (decode cur) := by
  rw [decode_eq]
  exact Upholds.bind (upholds_decodeHeader enduring cur) fun _ =>
    Upholds.bind (upholds_onCode enduring (enduring.decode _)) fun _ => upholds_decodeGuards _ _

theorem upholds_refreshTries : Upholds (Settling I) refreshTries := by
  unfold refreshTries
  refine Action.upholds_get fun c settled => Upholds.bind (Action.upholds_lift _) (fun spans => ?_) c settled
  refine Upholds.bind (Action.upholds_set (settled.congr rfl)) fun _ => ?_
  split
  · exact Action.upholds_refuse _
  · exact Action.upholds_pure _

theorem upholds_refreshHandler (slot : Nat) : Upholds (Settling I) (refreshHandler slot) := by
  unfold refreshHandler
  refine Action.upholds_get fun c settled => ?_
  dsimp only
  split
  · exact settled
  · refine Upholds.bind (Action.upholds_modify fun _ h => h.congr rfl) (fun _ => ?_) c settled
    refine Upholds.bind (Action.upholds_lift _) fun _ => ?_
    split
    · exact Upholds.bind (Action.upholds_lift _) fun _ =>
        Upholds.bind (Action.upholds_modify fun _ h => h.congr rfl) fun _ => Action.upholds_modify fun _ h => h.congr rfl
    · exact Action.upholds_modify fun _ h => h.congr rfl

theorem upholds_refresh (enduring : Enduring known I) : Upholds (Settling I) refresh := by
  have rest : Upholds (Settling I) (do
      refreshTries
      for s in (← get).handlers.order do refreshHandler s
      modify layoutHandlers
      let c ← get
      let tries ← (c.tries.mapM c.placeTry : Except Stop (List TryItem))
      set { c.setTries tries with
        padding := 0
        handlers := if tries.isEmpty then c.handlers.clear else c.handlers } : Action CodeItem PUnit) := by
    refine Upholds.bind upholds_refreshTries fun _ => ?_
    refine Action.upholds_get fun c settled => Upholds.bind (.each upholds_refreshHandler) (fun _ => ?_) c settled
    refine Upholds.bind (Action.upholds_modify fun _ h => h.congr rfl) fun _ => ?_
    refine Action.upholds_get fun c settled => ?_
    refine Upholds.bind (Action.upholds_lift _) (fun tries => Action.upholds_set (settled.congr ?_)) c settled
    rfl
  unfold refresh
  refine Action.upholds_get fun c settled => Upholds.bind (upholds_onCode enduring enduring.refresh) (fun _ => ?_) c settled
  dsimp only
  split
  · exact Upholds.bind (Action.upholds_modify fun _ h => h.congr rfl) fun _ => rest
  · exact rest

end Upholding

/-! ## Assembly -/

/-- `I` is kept by what the exception lines of a body do. -/
structure Guarding (I : CodeItem → Prop) : Prop where
  pool : ∀ (c : CodeItem) (pool : Option Pool), I c → I { c with code := { c.code with pool } }
  addTry : ∀ (c : CodeItem) (first past : Handle), I c → I ((c.newHandler {}).2.addTry first past (c.newHandler {}).1)
  setAll : ∀ (c : CodeItem) (slot : Nat) (all : Handle), I c →
    I { c with handlers := c.handlers.modifySlot slot (·.setAll all) }
  addPair : ∀ (c : CodeItem) (slot : Nat) (type : Int) (handler : Handle), I c →
    I { c with handlers := c.handlers.modifySlot slot (·.addPair type handler) }

/-- Reads the exception lines of a body. -/
def addCatches (labels : List (Bytes × Handle)) (es : List Assembly.Element) :
    Action CodeItem (List ((Handle × Handle) × Nat)) :=
  es.foldlM (fun known e =>
    match e with
    | .catchRange e => addCatch labels known e
    | _ => pure known) []

namespace Guarding

variable {I : CodeItem → Prop} (h : Guarding I)
include h

theorem joinCatch (e : Assembly.CatchRange) (handler : Handle) (slot : Nat) (known : List ((Handle × Handle) × Nat)) :
    Upholds I (do
      let update (f : CatchHandler → CatchHandler) : Action CodeItem PUnit :=
        modify fun c => { c with handlers := c.handlers.modifySlot slot f }
      if e.isCatchAll then update (·.setAll handler)
      else
        match (← get).code.pool with
        | none => Action.refuse (.unresolved Kind.type.name e.type.name)
        | some pool =>
          let (i, pool) := pool.internType e.type
          modify fun c => { c with code := { c.code with pool := some pool } }
          update (·.addPair i handler)
      return known : Action CodeItem (List ((Handle × Handle) × Nat))) := by
  dsimp only
  split
  · exact Upholds.bind (Action.upholds_modify fun c hc => h.setAll c slot handler hc) fun _ => Action.upholds_pure _
  · refine Action.upholds_get fun c hc => ?_
    split
    · exact hc
    · refine Upholds.bind (Action.upholds_modify fun c hc => h.pool c _ hc) (fun _ => ?_) c hc
      exact Upholds.bind (Action.upholds_modify fun c hc => h.addPair c slot _ handler hc) fun _ => Action.upholds_pure _

theorem addCatch (labels : List (Bytes × Handle)) (known : List ((Handle × Handle) × Nat)) (e : Assembly.CatchRange) :
    Upholds I (addCatch labels known e) := by
  unfold CodeItem.addCatch
  refine Upholds.bind (Action.upholds_lift _) fun first => Upholds.bind (Action.upholds_lift _) fun past => ?_
  refine Upholds.bind (Action.upholds_lift _) fun handler => ?_
  dsimp only
  cases known.find? (·.1 == (first, past)) with
  | some found =>
    refine Upholds.bind (Action.upholds_pure _) fun p => ?_
    exact h.joinCatch e handler p.1 p.2
  | none =>
    refine Action.upholds_get fun c hc => ?_
    have added : Upholds I (set ((c.newHandler {}).2.addTry first past (c.newHandler {}).1) :
        Action CodeItem PUnit) := fun _ _ => h.addTry c first past hc
    refine Upholds.bind added (fun _ => ?_) c hc
    refine Upholds.bind (Action.upholds_pure _) fun p => ?_
    exact h.joinCatch e handler p.1 p.2

theorem catches (labels : List (Bytes × Handle)) (es : List Assembly.Element) :
    Upholds I (addCatches labels es) := by
  refine .foldlM (fun known e _ => ?_) _
  split
  · exact h.addCatch _ _ _
  · exact Action.upholds_pure _

end Guarding

theorem guarding_settling {I : Sequence → Prop} {known : Body → Prop} (enduring : Enduring known I) : Guarding (Settling I) where
  pool _ _ hc := ⟨enduring.outside _ _ _ _ hc.code, hc.still⟩
  addTry _ _ _ hc := hc.congr rfl
  setAll _ _ _ hc := hc.congr rfl
  addPair _ _ _ _ hc := hc.congr rfl

theorem upholds_ofBody {I : Sequence → Prop} {known : Body → Prop} (enduring : Enduring known I) {body : Body} (here : known body) :
    Upholds (Settling I) (ofBody body) := by
  unfold ofBody
  refine Upholds.bind (Action.upholds_modify fun c _ => ⟨enduring.new _ _, rfl⟩) fun _ => ?_
  refine Upholds.bind (upholds_onCode enduring (enduring.addElements body here)) fun labels => ?_
  refine Action.upholds_get fun c settled => Upholds.bind (Action.upholds_lift _) (fun outs => ?_) c settled
  refine Upholds.bind (Action.upholds_modify fun _ h => h.congr rfl) fun _ => ?_
  exact Upholds.bind ((guarding_settling enduring).catches labels body.elements) fun _ => upholds_refresh enduring

/-! ## Assembling a body -/

/-- Without ranges and handlers there is nothing to move along. -/
theorem foldl_retarget_of_unguarded (tries : c.tries = []) (order : c.handlers.order = []) (moves : List (Handle × Handle)) :
    moves.foldl (fun c m => c.retarget m.1 m.2) c = c := by
  induction moves with
  | nil => rfl
  | cons m moves ih =>
    have same : c.retarget m.1 m.2 = c := by
      rw [retarget, tries, order, List.map_nil, List.foldl_nil, ← tries]
    rw [List.foldl_cons, same, ih]

theorem gives_onCode_of_unguarded {α : Type} {act : Action Sequence α} {a : α} (tries : c.tries = [])
    (order : c.handlers.order = []) :
    (onCode act).Gives c a d ↔ ∃ t, act.Gives c.code a t ∧ d = { c with code := { t with moves := #[] } } := by
  have still (t : Sequence) : t.moves.toList.foldl (fun c m => c.retarget m.1 m.2) { c with code := { t with moves := #[] } } =
      { c with code := { t with moves := #[] } } :=
    foldl_retarget_of_unguarded (c := { c with code := { t with moves := #[] } }) tries order _
  simp only [gives_onCode, still]

/-- The item with the instructions of a body and its register counts, before its exception lines are read. -/
def started (c : CodeItem) (body : Body) (t : Sequence) (outs : Nat) : CodeItem :=
  { c.setTries [] with
    handlers := c.handlers.clear
    code := { t with moves := #[] }
    registers := UInt16.ofInt body.registers
    ins := UInt16.ofInt body.paramRegisters
    outs := UInt16.ofNat outs }

/-- The steps of `ofBody`: the instructions, the exception lines, and a refresh. -/
theorem gives_ofBody {body : Body} : (ofBody body).Gives c ⟨⟩ d ↔ ∃ labels t outs known e,
    (Sequence.addElements body).Gives { size := c.code.size, pool := c.code.pool } labels t ∧
    outsFor { t with moves := #[] } = .ok outs ∧
    (addCatches labels body.elements).Gives (c.started body t outs) known e ∧ refresh.Gives e ⟨⟩ d := by
  unfold ofBody
  simp only [Action.gives_bind, Action.gives_modify, Action.gives_get, Action.gives_lift]
  constructor
  · rintro ⟨_, _, rfl, labels, b, assembled, _, _, ⟨rfl, rfl⟩, outs, _, ⟨counted, rfl⟩, _, _, rfl, known, e, caught, refreshed⟩
    obtain ⟨t, ran, rfl⟩ := (gives_onCode_of_unguarded rfl rfl).1 assembled
    exact ⟨labels, t, outs, known, e, ran, counted, caught, refreshed⟩
  · rintro ⟨labels, t, outs, known, e, ran, counted, caught, refreshed⟩
    exact ⟨⟨⟩, _, rfl, labels, _, (gives_onCode_of_unguarded rfl rfl).2 ⟨t, ran, rfl⟩, _, _, ⟨rfl, rfl⟩, outs, _,
      ⟨counted, rfl⟩, ⟨⟩, _, rfl, known, e, caught, refreshed⟩

/-! ## Every history -/

/-- Code items that decoding, assembling, refreshing and edits make of an empty one; what a failed attempt has changed
stays. Ranges, handlers and the header may be changed in any way. -/
inductive Attempted (free : Instruction → Prop) : CodeItem → Prop where
  | new (pool : Option Pool) : Attempted free (new pool)
  | decode {c : CodeItem} (attempted : Attempted free c) (cur : Cursor) : Attempted free ((decode cur).apply c).2
  | ofBody {c : CodeItem} {body : Body} (attempted : Attempted free c) (known : Sequence.Known body) :
      Attempted free ((ofBody body).apply c).2
  | edit {c : CodeItem} {α : Type} {act : Action Sequence α} (attempted : Attempted free c)
      (step : Sequence.Attempt free c.code (act.apply c.code).2) : Attempted free ((onCode act).apply c).2
  | guards {c d : CodeItem} (attempted : Attempted free c) (code : d.code = c.code) : Attempted free d
  | refresh {c : CodeItem} (attempted : Attempted free c) : Attempted free (refresh.apply c).2

theorem enduring_attempted (free : Instruction → Prop) : Enduring Sequence.Known (Sequence.Attempted free) where
  outside s size pool moves h := .step h (.outside s size pool moves)
  new := .new
  decode cur s h := .step h (.decode s cur)
  addElements _ known s h := .step h (.addElements s known)
  refresh s h := .step h (.refresh s)

/-- The instructions are `Attempted` as a sequence. -/
theorem Attempted.settling {free : Instruction → Prop} (h : Attempted free c) : Settling (Sequence.Attempted free) c := by
  have enduring := enduring_attempted free
  induction h with
  | new pool => exact ⟨.new _ _, rfl⟩
  | decode _ cur ih => exact upholds_decode enduring cur _ ih
  | ofBody _ known ih => exact upholds_ofBody enduring known _ ih
  | edit _ step ih => exact .onCode enduring (.step ih.code step)
  | guards _ code ih => exact ih.congr code
  | refresh _ ih => exact upholds_refresh enduring _ ih

end Dalvik.CodeItem
