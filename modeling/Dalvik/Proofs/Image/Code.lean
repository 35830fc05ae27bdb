import Dalvik.Proofs.CodeItem.Decoding
import Dalvik.Proofs.Faults

/-!
# Reading code does not fault

`CodeItem.decode` never faults on any cursor over any bytes: each count is bounded by the bytes that
are left or by 16 bits, and the only operand that is read after decoding, the offset of a branch,
belongs to an instruction that was read whole.
-/

namespace Dalvik

open Dalvik.Action

variable {c : Cursor}

/-! ## Payloads -/

theorem faultless_checkIdentifier {what : String} {start : Nat} {got : UInt16} {op : Opcode} :
    Faultless (checkIdentifier what start got op) := by
  unfold checkIdentifier
  split
  · exact .ok _
  · exact .fail _

theorem Case.careful_decode (hc : c.Sane) : Careful (Case.decode c) := .on (careful_u32 hc)

theorem PackedTable.careful_decode (hc : c.Sane) : Careful (PackedTable.decode c) := by
  refine .bind (.on (careful_u16 hc)) fun _ hc => .bind (.on (careful_u16 hc)) fun _ hc => ?_
  refine .bind (.on (careful_u32 hc)) fun _ hc => .modify_bind ?_
  refine .bind (.on (.each (fun _ => Case.careful_decode) hc 0)) fun _ hc => ?_
  exact .get_bind fun _ => .lift_bind faultless_checkIdentifier fun _ _ => .pure hc

theorem SparseTable.careful_decode (hc : c.Sane) : Careful (SparseTable.decode c) := by
  refine .bind (.on (careful_u16 hc)) fun _ hc => .bind (.on (careful_u16 hc)) fun _ hc => .modify_bind ?_
  refine .bind (.on (.each (fun _ => careful_u32) hc 0)) fun _ hc => .modify_bind ?_
  refine .bind (.on (.each (fun _ => Case.careful_decode) hc 0)) fun _ hc => ?_
  exact .get_bind fun _ => .lift_bind faultless_checkIdentifier fun _ _ => .pure hc

theorem ArrayPayload.careful_decode (hc : c.Sane) : Careful (ArrayPayload.decode c) := by
  refine .bind (.on (careful_u16 hc)) fun _ hc => .bind (.on (careful_u16 hc)) fun _ hc => ?_
  refine .bind (.on (careful_u32 hc)) fun c hc => .get_bind fun a => ?_
  refine .lift_bind faultless_checkIdentifier fun _ _ => ?_
  dsimp only
  split
  · exact .refuse _
  split
  · exact .refuse _
  next fits =>
  intro s
  have small : ((a.width.toNat * a.count.toNat : Nat) : Int) ≤ maxRun := by
    have := hc.size
    have : c.available ≤ c.data.size := Nat.sub_le _ _
    omega
  simp only [ends_bind, ends_set]
  refine ends_on (ends_decodeRun hc ?_) fun c₁ data h => ends_on (ends_decodeRun h.1 ?_) fun _ _ h => h.1
  · rwa [length_resizeList]
  · have : a.width.toNat * a.count.toNat % 2 < 2 := Nat.mod_lt _ (by decide)
    have : maxRun = 281474976710656 := by rfl
    rw [length_resizeList]
    omega

/-! ## Instructions -/

namespace Instruction

theorem careful_decodeUnits (hc : c.Sane) (n : Nat) : Careful (decodeUnits n c) := by
  induction n generalizing c with
  | zero => exact .pure hc
  | succ n ih =>
    exact .lift_bind Cursor.faultless_u16 fun _ h => .modify_bind (ih (((Cursor.u16_eq_ok hc).1 h).sane hc))

theorem careful_decode (hc : c.Sane) : Careful (Instruction.decode c) := by
  refine .lift_bind Cursor.faultless_u16 fun p h => ?_
  obtain ⟨u, c₁⟩ := p
  have hc₁ := ((Cursor.u16_eq_ok hc).1 h).sane hc
  dsimp only
  split
  · split
    · exact .refuse _
    · exact .modify_bind (careful_decodeUnits hc₁ _)
  · exact .refuse _

theorem faultless_readAll {fs : List BitField} {units : Units} (h : ∀ f ∈ fs, f.unit < units.length) :
    Faultless (BitField.readAll fs units) := by
  induction fs with
  | nil => exact .ok _
  | cons f fs ih =>
    have here : Faultless (f.read units) := by
      unfold BitField.read
      rw [List.getElem?_eq_getElem (h f List.mem_cons_self)]
      exact .ok _
    exact here.bind fun _ _ => (ih fun g hg => h g (List.mem_cons_of_mem f hg)).bind fun _ _ => .ok _

theorem Shaped.faultless_data {x : Instruction} (hx : x.Shaped) : Faultless x.data := by
  unfold data
  split
  · refine (faultless_readAll fun f hf => ?_).bind fun _ _ => .ok _
    rw [hx.length]
    exact Format.unit_lt_literalFields _ f hf
  · exact .ok _

end Instruction

theorem Item.faultless_readInto {α : Type} {make : α → Item} {act : Action α Cursor} (h : Careful act) (fresh : α) :
    Faultless (Item.readInto make act fresh) := (h fresh).faultless.map

theorem Item.faultless_decode (hc : c.Sane) (unit : Nat) : Faultless (Item.decode unit c) := by
  unfold Item.decode
  split
  · exact faultless_readInto (PackedTable.careful_decode hc) _
  split
  · exact faultless_readInto (SparseTable.careful_decode hc) _
  split
  · exact faultless_readInto (ArrayPayload.careful_decode hc) _
  · exact faultless_readInto (Instruction.careful_decode hc) _

/-! ## Sequences -/

namespace Sequence

variable {s : Sequence} {n : Nat}

theorem careful_decodeItems (hc : c.Sane) (size fuel used : Nat) : Careful (decodeItems size fuel used c) := by
  induction fuel generalizing c used with
  | zero => exact .pure hc
  | succ fuel ih =>
    unfold decodeItems
    split
    · refine .lift_bind (Cursor.faultless_peek hc (by decide)) fun first peek => ?_
      refine .lift_bind (Item.faultless_decode hc _).labelled fun p read => .modify_bind ?_
      obtain ⟨x, c₁⟩ := p
      have spans := (Item.spans_item hc).1 ⟨first, peek, labelled_eq_ok.1 read⟩
      dsimp only
      split
      · exact .refuse _
      · exact ih (spans.2.sane hc) _
    · exact .pure hc

/-- `linkBranch` reads an offset that is there. -/
theorem ends_linkBranch (h : Sound Item.Shaped s) : Ends never (linkBranch n) (fun _ t => Sound Item.Shaped t) s where
  gives run := by
    obtain ⟨-, rfl⟩ := (gives_linkBranch h.linked).1 run
    exact (relinked_wired s n).sound Item.stable_shaped h
  faults {m t} run := by
    have safe : Ends never (linkBranch n) (fun _ _ => True) s := by
      unfold linkBranch
      simp only [ends_bind, ends_get]
      split
      · next x hx =>
        split
        · have shaped : Instruction.Shaped _ := h.holds n _ (item?_of_node? hx)
          refine ends_bind.2 (ends_lift (fun m e => (shaped.faultless_data m e).elim) fun d _ => ?_)
          split
          · exact ends_refuse.2 trivial
          · split
            · exact ends_refuse.2 trivial
            · exact ends_modify.2 trivial
        · exact ends_pure.2 trivial
      · exact ends_pure.2 trivial
    exact safe.faults run

theorem ends_linkCases {owner : Node} (i : Nat) (cs : List Case) : Ends never (linkCases n owner i cs) (fun _ _ => True) s := by
  induction cs generalizing i s with
  | nil => exact ends_pure.2 trivial
  | cons x cs ih =>
    simp only [linkCases, ends_bind, ends_get]
    split
    · exact ends_refuse.2 trivial
    · simp only [ends_bind, ends_modify]
      exact ih (i + 1)

theorem ends_linkTable : Ends never (linkTable n) (fun _ _ => True) s := by
  simp only [linkTable, ends_bind, ends_get]
  split
  · split
    · exact ends_linkCases 0 _
    · exact ends_pure.2 trivial
  · exact ends_pure.2 trivial

theorem ends_decode (hc : c.Sane) (h : Holds Item.Shaped s) : Ends never (decode c) (fun c' _ => c'.Sane) s := by
  simp only [decode, ends_bind, ends_get]
  split
  · exact ends_refuse.2 trivial
  · next cell size =>
    simp only [ends_bind, ends_modify, ends_get, ends_pure]
    refine (careful_decodeItems hc _ _ _ s.clear).with_gives.mono fun c₁ t decoded => ?_
    obtain ⟨hc₁, read⟩ := decoded
    obtain ⟨xs, scan, -, rfl⟩ := (gives_decodeItems (Nat.zero_le _) (by omega)).1 read
    have sound : Sound Item.Shaped { s.clear.enrolAll 0 xs with units := cell.get.toNat } :=
      (sound_enrolAll (fun x hx => Item.shaped_of_raw (scan.raw x hx)) (sound_clear h)).congr rfl rfl rfl
    refine (ends_forIn (fun n _ u hu => ends_linkBranch hu) sound).mono fun _ u _ => ?_
    exact (ends_forIn (I := fun _ => True) (fun n _ u _ => ends_linkTable) trivial).mono fun _ _ _ => hc₁

end Sequence

/-! ## Guarded ranges -/

theorem TryItem.careful_decode (hc : c.Sane) : Careful (TryItem.decode c) :=
  .bind (.on (careful_u32 hc)) fun _ hc => .bind (.on (careful_u16 hc)) fun _ hc => .on (careful_u16 hc)

theorem CatchPair.careful_decode (hc : c.Sane) : Careful (CatchPair.decode c) :=
  .bind (.on (careful_uleb hc)) fun _ hc => .on (careful_uleb hc)

theorem CatchHandler.careful_decode (hc : c.Sane) : Careful (CatchHandler.decode c) := by
  refine .bind (.on (careful_sleb hc)) fun _ hc => .modify_bind (.modify_bind ?_)
  refine .bind (.on (.each (fun _ => CatchPair.careful_decode) hc 0)) fun _ hc => .get_bind fun h => ?_
  split
  · exact .on (careful_uleb hc)
  · exact .pure hc

namespace CodeItem

variable {i : CodeItem}

theorem faultless_handleAt (start : Nat) (address : Int) (what : String) : Faultless (i.handleAt start address what) := by
  unfold handleAt
  split
  · exact .ok _
  · exact .fail _

theorem faultless_linkPairs (start : Nat) (ps : List CatchPair) : Faultless (i.linkPairs start ps).1 := by
  induction ps with
  | nil => exact .ok _
  | cons p ps ih =>
    have here := faultless_handleAt (i := i) start p.address.get "catch"
    unfold linkPairs
    cases e : i.handleAt start p.address.get "catch" with
    | error stop =>
      intro m h
      exact here m (by rw [e]; cases h; rfl)
    | ok k => exact ih

theorem ends_linkHandler (start slot : Nat) : Ends never (linkHandler start slot) (fun _ _ => True) i := by
  simp only [linkHandler, ends_bind, ends_get]
  split
  · exact ends_pure.2 trivial
  · next h _ =>
    simp only [ends_bind, ends_modify]
    refine ends_lift (fun m e => (faultless_linkPairs start _ m e).elim) fun _ _ => ?_
    split
    · simp only [ends_bind, ends_modify]
      exact ends_lift (fun m e => (faultless_handleAt start _ _ m e).elim) fun _ _ => ends_pure.2 trivial
    · exact ends_pure.2 trivial

theorem ends_linkTry (start n : Nat) : Ends never (linkTry start n) (fun _ _ => True) i := by
  simp only [linkTry, ends_bind, ends_get]
  split
  · exact ends_pure.2 trivial
  · simp only [ends_bind, ends_modify]
    refine ends_lift (fun m e => (faultless_handleAt start _ _ m e).elim) fun _ _ => ?_
    refine ends_lift (fun m e => (faultless_handleAt start _ _ m e).elim) fun _ _ => ?_
    split
    · exact ends_refuse.2 trivial
    · exact ends_pure.2 trivial

theorem careful_decodeGuards (hc : c.Sane) (start : Nat) : Careful (decodeGuards start c) := by
  refine .get_bind fun i => ?_
  split
  · exact .modify_bind (.pure hc)
  · refine .get_bind fun j => ?_
    refine .ite_bind (.on (careful_u16 hc)) (.pure hc) fun _ hc => .modify_bind ?_
    refine .bind (.on (.each (fun _ => TryItem.careful_decode) hc 0)) fun _ hc => ?_
    refine .bind (.on (.bind (Table.careful_decodeCount hc) fun _ hc => ?_)) fun _ hc => .modify_bind ?_
    · exact Table.careful_decode (fun _ => CatchHandler.careful_decode) hc
    · refine .get_bind fun _ => .forIn_bind (fun slot _ => ends_linkHandler start slot) ?_
      exact .get_bind fun _ => .forIn_bind (fun n _ => ends_linkTry start n) (.pure hc)

theorem ends_decodeHeader (hc : c.Sane) (h : Sequence.Holds Item.Shaped i.code) :
    Ends never (decodeHeader c) (fun c' j => c'.Sane ∧ Sequence.Holds Item.Shaped j.code) i := by
  simp only [decodeHeader, ends_bind]
  refine ends_on (careful_u16 hc _) fun _ _ hc => ends_on (careful_u16 hc _) fun _ _ hc => ?_
  refine ends_on (careful_u16 hc _) fun _ _ hc => ends_on (careful_u16 hc _) fun _ _ hc => ?_
  exact ends_on (careful_u32 hc _) fun _ _ hc => ends_on (Cell.careful_decode hc _) fun _ _ hc => ⟨hc, h⟩

theorem ends_onCode {α : Type} {act : Action Sequence α} {J : α → Sequence → Prop} (h : Ends never act J i.code) :
    Ends never (onCode act) (fun a _ => ∃ t, J a t) i := by
  rcases run : act.apply i.code with ⟨r, t⟩
  have ends := (ends_iff run).1 h
  have outcome : (onCode act).apply i = (r, ((onCode act).apply i).2) := Prod.ext (by rw [onCode, apply_of, run]) rfl
  exact (ends_iff outcome).2 ⟨fun a ok => ⟨t, ends.1 a ok⟩, fun m fault => (ends.2 m fault).elim⟩

/-- `CodeItem.decode` into an empty item never faults. -/
theorem ends_decode (hc : c.Sane) (pool : Option Pool) : Ends never (CodeItem.decode c) (fun c' _ => c'.Sane) (new pool) := by
  rw [decode_eq]
  simp only [ends_bind]
  refine (ends_decodeHeader hc ?_).mono fun c₁ i headed => ?_
  · exact fun n x h => by simp [new, Sequence.item?, Sequence.node?] at h
  · obtain ⟨hc₁, holds⟩ := headed
    refine (ends_onCode (Sequence.ends_decode hc₁ holds)).mono fun c₂ j decoded => ?_
    obtain ⟨-, hc₂⟩ := decoded
    exact careful_decodeGuards hc₂ _ j

end CodeItem

end Dalvik
