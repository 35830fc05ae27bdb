import Dalvik.Proofs.Block
import Dalvik.Proofs.Sequence.Passes
import Dalvik.Proofs.Sequence.Tables
import Dalvik.Proofs.Sequence.Telling

/-!
# Instructions after a refresh

An instruction that is not padding stays in the sequence when it is refreshed
(`Sound.stays_of_refresh`). Its bytes are then written at its address, no other item begins inside
it, and its element is among those of `toElements` (`UpToDate.present`). So an instruction can be
given any opcode, and the result is there after the next refresh (`present_of_setOpcode`).
-/

namespace Dalvik.Sequence

open Dalvik.Action (except_bind_eq_ok)
open Assembly (Body Element)

variable {s t : Sequence} {n m : Nat} {x : Item} {y z : Instruction} {as bs : List Nat} {a : Nat} {body : Body}
  {extra : List (Int × Bytes)}

/-! ## Staying -/

/-- A successful `refresh` keeps an instruction that is not padding, up to its offset and the width of a jump. -/
theorem Sound.stays_of_refresh (sound : Sound Item.Shaped s) (run : refresh.Gives s ⟨⟩ t) (hn : n ∈ s.items.toList)
    (hy : s.item? n = some (.plain y)) (solid : y.isPadding = false) :
    n ∈ t.items.toList ∧ ∃ z, t.item? n = some (.plain z) ∧ y.Swept z := by
  obtain ⟨-, u, v, settled, loop, rfl⟩ := gives_refresh.1 run
  -- The layout before the passes.
  have there : n ∈ s.relink.items.toList := sound.linked.mem_relink_of_unowned hy solid nofun hn
  obtain ⟨w, hw, unlinked⟩ := sound.linked.relink_evolves.kept n _ hy
  have relinked := sound.relaid Item.lasting_shaped
  generalize s.relink = r at there hw relinked settled
  -- The passes.
  obtain ⟨sound', swept⟩ := relinked.swept_settle (2 * r.items.size + 1)
  rw [settled] at sound' swept
  have solid' : r.solid n = true := by
    rw [Sequence.solid, hw, Option.any_some, ← Item.unlinked_isPadding, unlinked, Item.unlinked_isPadding]
    simpa [Item.isPadding] using solid
  have stays := swept.stays there solid'
  obtain ⟨z, hz, swept⟩ := swept.kept n w hw
  have whole := (Item.Swept.of_unlinked unlinked).trans swept
  -- The payloads.
  have renewed := renewed_of_each loop sound'.linked.nodup
  have items : v.items = u.items := by rw [renewed.eq]
  refine ⟨items ▸ stays, ?_⟩
  cases whole with
  | @plain _ z whole =>
    obtain ⟨z', hz', e⟩ := renewed.renewed n stays _ hz
    obtain ⟨-, -, -, -, -, -, plain⟩ := Item.gives_refresh e
    rw [plain z rfl] at hz'
    exact ⟨z, hz', whole⟩

/-! ## Being there -/

/-- The elements of the items at some nodes. -/
def partsOf (s : Sequence) (body : Body) (extra : List (Int × Bytes)) (ns : List Nat) : Except Stop (List Element) := do
  return (← (ns.filterMap s.node?).mapM (s.part body extra)).flatten

theorem toElements_eq_partsOf (s : Sequence) (body : Body) (extra : List (Int × Bytes)) : s.toElements body extra = (do
    return (← s.partsOf body extra s.items.toList) ++ (labelsAt s.units [] extra).map .label) := by
  rw [toElements_eq, partsOf, contents]
  cases (s.items.toList.filterMap s.node?).mapM (s.part body extra) <;> rfl

/-- The elements of nodes in a row are those of each of them. -/
theorem partsOf_append {x : Node} {es : List Element} (hx : s.node? n = some x) (part : s.part body extra x = .ok es) :
    s.partsOf body extra (as ++ n :: bs) = (do
      return (← s.partsOf body extra as) ++ es ++ (← s.partsOf body extra bs)) := by
  simp only [partsOf, List.filterMap_append, List.filterMap_cons, hx, List.mapM_append, List.mapM_cons, part]
  cases (as.filterMap s.node?).mapM (s.part body extra) with
  | error e => rfl
  | ok front =>
    cases (bs.filterMap s.node?).mapM (s.part body extra) with
    | error e => rfl
    | ok back => simp [bind, Except.bind, pure, Except.pure]

/-- The instruction `z` is at node `n`, between the nodes `as` and `bs`: its bytes are those at its address, no later
item begins inside it, and `toElements` gives its element. -/
structure Present (t : Sequence) (n : Nat) (z : Instruction) (as bs : List Nat) (a : Nat) : Prop where
  items : t.items.toList = as ++ n :: bs
  item : t.item? n = some (.plain z)
  isPadding : z.isPadding = false
  address : t.address? n = some (a : Int)
  bytes : (t.bytes.drop (2 * a)).take z.bytes.length = z.bytes
  after : ∀ m ∈ bs, ∃ b : Nat, t.address? m = some (b : Int) ∧ a + z.units.length ≤ b
  told : ∀ body extra, ∃ x e, t.node? n = some x ∧ Tells t.pool body z e ∧ t.toElements body extra = do
    let front ← t.partsOf body extra as
    let back ← t.partsOf body extra bs
    return front ++ ((t.labelsOn extra x).map .label ++ [.instruction e]) ++ back ++ (labelsAt t.units [] extra).map .label

/-- The bytes of an item are those behind the code units of the items before it. -/
theorem bytes_of_append (shaped : ∀ n x, t.item? n = some x → x.Shaped) (split : t.items.toList = as ++ n :: bs)
    (hx : t.item? n = some x) :
    (t.bytes.drop (2 * total (as.map t.unitsOf))).take x.pieces.flatten.length = x.pieces.flatten := by
  obtain ⟨w, hw, rfl⟩ := item?_eq_some.1 hx
  let before := ((as.filterMap t.node?).flatMap fun x => x.item.pieces).flatten
  let after := ((bs.filterMap t.node?).flatMap fun x => x.item.pieces).flatten
  have length : before.length = 2 * total (as.map t.unitsOf) := by
    rw [← total_byteCount shaped as]
    exact length_flatten_flatMap (fun x => x.item.length_pieces) _
  have whole : t.bytes = before ++ (w.item.pieces.flatten ++ after) := by
    simp only [Sequence.bytes, pieces, contents, split, List.filterMap_append, List.filterMap_cons, hw, List.flatMap_append,
      List.flatMap_cons, List.flatten_append, before, after]
  rw [whole, ← length, List.drop_left, List.take_left]

namespace UpToDate

variable (upToDate : UpToDate t)
include upToDate

/-- What an item leads to has a label, if its table has an owner. -/
theorem exists_label (owned : ∀ o, x.owner? = some o → 0 ≤ o) (hn : n ∈ t.items.toList) (hx : t.item? n = some x)
    {l : LabelKind × Handle} (hl : l ∈ x.leads) : ∃ name, t.targetLabel l.1 l.2 = .ok name := by
  have label : ∀ m b, t.named? l.2 = some m → t.address? m = some b → ∃ name, t.targetLabel l.1 l.2 = .ok name := by
    intro m b named address
    have ne := ne_finish_of_named? named
    exact ⟨l.1.name b, targetLabel_eq_ok.2 ⟨ne, b, (addressOf?_eq_some ne).2 ⟨m, named, address⟩, rfl⟩⟩
  rcases Item.mem_leads.1 hl with ⟨i, rfl, has, e⟩ | ⟨c, hc, e⟩
  · obtain ⟨m, -, a, b, d, named, -, address, -⟩ := upToDate.target n hn i hx has
    exact label m b (by rw [e, named]) address
  · obtain ⟨o, owner⟩ := Item.exists_owner?_of_case hc
    obtain ⟨w, -, base, -, -, caseOffsets⟩ := upToDate.cases n hn x o hx owner (owned o owner)
    obtain ⟨m, -, b, named, address, -⟩ := caseOffsets c hc
    exact label m b (by rw [e, named]) address

theorem present (sound : Sound Item.Shaped t) (split : t.items.toList = as ++ n :: bs) (hz : t.item? n = some (.plain z))
    (solid : z.isPadding = false) : Present t n z as bs (total (as.map t.unitsOf)) where
  items := split
  item := hz
  isPadding := solid
  address := upToDate.address as n bs split
  bytes := by
    have bytes := bytes_of_append sound.holds split hz
    simpa [Item.pieces] using bytes
  after m hm := by
    obtain ⟨ks, ms, rfl⟩ := List.append_of_mem hm
    have address := upToDate.address (as ++ n :: ks) m ms (by rw [split, List.append_assoc, List.cons_append])
    refine ⟨_, address, ?_⟩
    rw [List.map_append, total_append, List.map_cons, total, unitsOf_of_item? hz, Item.codeUnits]
    omega
  told body extra := by
    obtain ⟨x, hx, item⟩ := item?_eq_some.1 hz
    have hn : n ∈ t.items.toList := by rw [split]; simp
    have leads : ∀ l ∈ x.item.leads, ∃ name, t.targetLabel l.1 l.2 = .ok name := by
      intro l hl
      rw [item] at hl
      exact upToDate.exists_label (fun o ho => by cases ho) hn hz hl
    obtain ⟨e, element, tells, -⟩ := exists_instruction leads item (sound.holds n _ hz) body
    have part : t.part body extra x = .ok ((t.labelsOn extra x).map .label ++ [.instruction e]) := by
      rw [Sequence.part, item, show (Item.plain z).isPadding = false from solid, element]
      rfl
    refine ⟨x, e, hx, tells, ?_⟩
    rw [toElements_eq_partsOf, split, partsOf_append hx part]
    cases t.partsOf body extra as with
    | error e => rfl
    | ok front => cases t.partsOf body extra bs <;> rfl

/-- `toElements` succeeds if every table has an owner. -/
theorem exists_elements (sound : Sound Item.Shaped t) (owns : Owns t) (body : Body) (extra : List (Int × Bytes)) :
    ∃ es, t.toElements body extra = .ok es := by
  have told : ∀ x ∈ t.contents, ∃ es, t.part body extra x = .ok es := by
    intro x hx
    obtain ⟨n, hn, hx⟩ := List.mem_filterMap.1 hx
    have item := item?_of_node? hx
    have shaped : x.item.Shaped := sound.holds n _ item
    have owned := owns n hn _ item
    have leads : ∀ l ∈ x.item.leads, ∃ name, t.targetLabel l.1 l.2 = .ok name :=
      fun l hl => upToDate.exists_label owned hn item hl
    have element : ∃ e, t.element x body = .ok e := by
      cases kind : x.item with
      | plain i =>
        rw [kind] at shaped
        obtain ⟨e, run, -⟩ := exists_instruction leads kind shaped body
        exact ⟨_, run⟩
      | packed p =>
        obtain ⟨e, run, -⟩ := exists_element_packed leads kind (owned _ (by rw [kind]; rfl)) body
        exact ⟨e, run⟩
      | sparse p =>
        rw [kind] at shaped
        obtain ⟨e, run, -⟩ := exists_element_sparse leads kind (owned _ (by rw [kind]; rfl)) shaped.2 body
        exact ⟨e, run⟩
      | array a =>
        rw [element, kind]
        exact ⟨_, rfl⟩
    obtain ⟨e, run⟩ := element
    rw [part, run]
    split
    · exact ⟨_, rfl⟩
    · exact ⟨_, rfl⟩
  obtain ⟨parts, run⟩ := List.exists_forall₂ told
  rw [toElements_eq]
  exact ⟨_, except_bind_eq_ok.2 ⟨parts, Action.except_mapM_eq_ok.2 run, rfl⟩⟩

end UpToDate

/-! ## Giving an instruction another opcode -/

/-- Let no padding have been given another opcode, and let `setOpcode` succeed on an instruction that is not padding.
After a successful `refresh`, the instruction it gave is `Present`, up to its offset and the width of a jump. If every
table has an owner, `toElements` succeeds. -/
theorem present_of_setOpcode {x : Instruction} {op : Opcode} (h : Attempted (fun x => x.isPadding = false) s)
    (hn : n ∈ s.items.toList) (hx : s.item? n = some (.plain x)) (solid : x.isPadding = false) (mem : op ∈ Opcode.all)
    (change : x.setOpcode op = .ok y) (run : refresh.Gives (s.modifyItem n fun _ => .plain y) ⟨⟩ t) :
    ∃ z as bs a, y.Swept z ∧ Present t n z as bs a ∧ (Owns t → ∀ body extra, ∃ es, t.toElements body extra = .ok es) := by
  have changed : Attempted (fun x => x.isPadding = false) (s.modifyItem n fun _ => .plain y) :=
    .step h (.opcode hx solid mem change)
  have sealed : Sound (fun x => x.Shaped ∧ x.Sealed) (s.modifyItem n fun _ => .plain y) := changed.sound Item.lasting_sealed
  have shaped : Sound Item.Shaped (s.modifyItem n fun _ => .plain y) := ⟨sealed.linked, fun n x hx => (sealed.holds n x hx).1⟩
  have hy : (s.modifyItem n fun _ => .plain y).item? n = some (.plain y) := by
    rw [item?_modifyItem, if_pos rfl, hx, Option.map_some]
  have solid' : y.isPadding = false := by
    rw [(Instruction.setOpcode_eq_ok change).2.2.1, solid]
  obtain ⟨upToDate, -⟩ := upToDate_refresh sealed run
  have leaves := leaves_refresh Item.stable_sealed sealed run
  have final : Sound Item.Shaped t := ⟨leaves.sound.linked, fun n x hx => (leaves.sound.holds n x hx).1⟩
  obtain ⟨stays, z, hz, swept⟩ := shaped.stays_of_refresh run hn hy solid'
  obtain ⟨as, bs, split⟩ := List.append_of_mem stays
  have present := upToDate.present final split hz (by rw [swept.isPadding, solid'])
  exact ⟨z, as, bs, _, swept, present, fun owns body extra => upToDate.exists_elements final owns body extra⟩

/-- A no-operation, the padding of an array, and the array. -/
def alignedCode : Cursor := .ofBytes [0, 0, 0, 0, 0, 3, 1, 0, 0, 0, 0, 0]

def aligned : Sequence := ((decode alignedCode).apply { size := some (.int 6) }).2

/-- What `setOpcode` makes of a no-operation for the opcode `const/16`. -/
def loading : Instruction := .blank ((Opcode.ofValue? 0x13).getD .nop)

/-- The instruction has a second code unit now, so the padding of the array is no longer needed. -/
theorem present_of_setOpcode_aligned : ∃ t z as bs a, aligned.item? 0 = some (.plain (.blank .nop)) ∧
    aligned.items.toList = [0, 1, 2] ∧ (Instruction.blank .nop).setOpcode loading.opcode = .ok loading ∧
    refresh.Gives (aligned.modifyItem 0 fun _ => .plain loading) ⟨⟩ t ∧ loading.Swept z ∧ Present t 0 z as bs a ∧
    t.items.toList = [0, 2] ∧ ∃ es, t.toElements {} [] = .ok es := by
  have attempted : Attempted (fun x => x.isPadding = false) aligned :=
    .step (.new (some (.int 6)) none) (.decode _ alignedCode)
  have item : aligned.item? 0 = some (.plain (.blank .nop)) := by decide +kernel
  have items : aligned.items.toList = [0, 1, 2] := by decide +kernel
  have change : (Instruction.blank .nop).setOpcode loading.opcode = .ok loading := Action.eq_ok_of_toOption (by decide +kernel)
  have run : refresh.Gives (aligned.modifyItem 0 fun _ => .plain loading) ⟨⟩ _ := Action.gives_of_toOption (by decide +kernel)
  have left : (refresh.apply (aligned.modifyItem 0 fun _ => .plain loading)).2.items.toList = [0, 2] := by decide +kernel
  have unowned : ∀ n ∈ [0, 2], ((refresh.apply (aligned.modifyItem 0 fun _ => .plain loading)).2.item? n).bind Item.owner? = none := by
    decide +kernel
  obtain ⟨z, as, bs, a, swept, present, told⟩ :=
    present_of_setOpcode attempted (by rw [items]; decide) item rfl (by decide +kernel) change run
  refine ⟨_, z, as, bs, a, item, items, change, run, swept, present, left, told (fun n hn x hx o owner => ?_) {} []⟩
  have absent := unowned n (left ▸ hn)
  rw [hx, Option.bind_some, owner] at absent
  cases absent

end Dalvik.Sequence
