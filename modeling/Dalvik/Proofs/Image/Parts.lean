import Dalvik.Image.Header
import Dalvik.Image.Members
import Dalvik.Image.StringItem
import Dalvik.Image.Value
import Dalvik.Proofs.Faults

/-!
# Reading the parts of an image does not fault

The decoders of the header, of strings, notes and values, and of the members of a class never fault
on any cursor. Only the header has runs of bytes whose length is taken from what it held before
(`Held`).
-/

namespace Dalvik

open Dalvik.Action

variable {c : Cursor}

/-! ## Header -/

theorem Section.careful_decode (hc : c.Sane) : Careful (Section.decode c) :=
  .bind (.on (careful_u32 hc)) fun _ hc => .on (careful_u32 hc)

namespace Header

variable {h : Header}

/-- The runs of bytes in the header have a length that a cursor can be asked for. -/
structure Held (h : Header) : Prop where
  magic : (h.magic.expected.length : Int) ≤ maxRun
  version : (h.version.length : Int) ≤ maxRun
  signature : (h.signature.length : Int) ≤ maxRun

theorem held_fresh (lenient : Bool) : Held (disableVerification {} lenient) := by
  cases lenient <;> exact ⟨by decide, by decide, by decide⟩

theorem ends_decodeFields (hc : c.Sane) (held : h.Held) : Ends never (decodeFields c) (fun c' _ => c'.Sane) h := by
  simp only [decodeFields, ends_bind]
  refine ends_on (ends_signature hc held.magic) fun _ _ hc => ends_on (ends_decodeRun hc held.version) fun _ _ hc => ?_
  refine ends_on (careful_u32 hc.1 _) fun _ _ hc => ends_on (ends_decodeRun hc held.signature) fun _ _ hc => ?_
  refine ends_on (careful_u32 hc.1 _) fun _ _ hc => ends_on (careful_u32 hc _) fun _ _ hc => ?_
  refine ends_on (careful_u32 hc _) fun _ _ hc => ends_on (Section.careful_decode hc _) fun _ _ hc => ?_
  refine ends_on (careful_u32 hc _) fun _ _ hc => ends_on (Section.careful_decode hc _) fun _ _ hc => ?_
  refine ends_on (Section.careful_decode hc _) fun _ _ hc => ends_on (Section.careful_decode hc _) fun _ _ hc => ?_
  refine ends_on (Section.careful_decode hc _) fun _ _ hc => ends_on (Section.careful_decode hc _) fun _ _ hc => ?_
  exact ends_on (Section.careful_decode hc _) fun _ _ hc => ends_on (Section.careful_decode hc _) fun _ _ hc => hc

theorem ends_decode (hc : c.Sane) (held : h.Held) : Ends never (decode c) (fun c' _ => c'.Sane) h := by
  simp only [decode, ends_bind, ends_get]
  refine (ends_decodeFields hc held).mono fun c₁ h hc₁ => ?_
  split
  · exact ends_pure.2 hc₁
  split
  · exact ends_refuse.2 trivial
  split
  · exact ends_refuse.2 trivial
  split
  · exact ends_pure.2 hc₁
  split
  · exact ends_refuse.2 trivial
  · exact ends_refuse.2 trivial

end Header

/-! ## Strings -/

theorem StringItem.careful_decode (hc : c.Sane) : Careful (StringItem.decode c) := by
  refine .bind (.on (careful_uleb hc)) fun c hc => ?_
  dsimp only
  split
  · exact .refuse _
  · next n found =>
    have small : (n : Int) ≤ maxRun := by
      have within : n < (c.data.extract c.pos c.data.size).toList.length := (List.findIdx?_eq_some_iff_findIdx_eq.1 found).1
      have := hc.size
      simp only [Array.length_toList, Array.size_extract] at within
      omega
    refine .lift_bind (Cursor.faultless_bytes hc small) fun p read => .modify_bind ?_
    obtain ⟨data, c₁⟩ := p
    have hc₁ := ((Cursor.bytes_eq_ok hc).1 read).2.sane hc
    exact .lift_bind Cursor.faultless_u8 fun _ read => .pure (((Cursor.u8_eq_ok hc₁).1 read).sane hc₁)

/-! ## Notes -/

theorem NoteEntry.careful_decode (hc : c.Sane) : Careful (NoteEntry.decode c) :=
  .bind (.on (careful_u32 hc)) fun _ hc => .on (careful_u32 hc)

theorem NoteDirectory.careful_decode (hc : c.Sane) : Careful (NoteDirectory.decode c) := by
  refine .bind (.on (careful_u32 hc)) fun _ hc => .bind (.on (Table.careful_decodeCount hc)) fun _ hc => ?_
  refine .bind (.on (Table.careful_decodeCount hc)) fun _ hc => .bind (.on (Table.careful_decodeCount hc)) fun _ hc => ?_
  refine .bind (.on (Table.careful_decode (fun _ => NoteEntry.careful_decode) hc)) fun _ hc => ?_
  refine .bind (.on (Table.careful_decode (fun _ => NoteEntry.careful_decode) hc)) fun _ hc => ?_
  exact .on (Table.careful_decode (fun _ => NoteEntry.careful_decode) hc)

/-! ## Values -/

namespace Value

theorem careful_decodeSized {α : Type} {fresh : α} {element : Cursor → Action α Cursor}
    (h : ∀ c, c.Sane → Careful (element c)) (hc : c.Sane) : Careful (decodeSized fresh element c) :=
  .bind (.on (careful_uleb hc)) fun _ hc => .modify_bind (.on (.each h hc 0))

theorem careful_decodeFuel (hc : c.Sane) (fuel : Nat) : Careful (decodeFuel fuel c) := by
  induction fuel generalizing c with
  | zero =>
    exact .lift_bind Cursor.faultless_u8 fun _ read => .pure (((Cursor.u8_eq_ok hc).1 read).sane hc)
  | succ fuel ih =>
    refine .lift_bind Cursor.faultless_u8 fun p read => .set_bind ?_
    obtain ⟨b, c₁⟩ := p
    have hc₁ := ((Cursor.u8_eq_ok hc).1 read).sane hc
    dsimp only
    split
    · exact .refuse _
    · exact .set_bind (.lift_apply (careful_decodeSized (fun _ => ih) hc₁))
    · refine .set_bind (.lift_apply_bind (careful_uleb hc₁) fun c₂ hc₂ => .set_bind (.lift_apply ?_))
      exact careful_decodeSized (fun _ hc => .bind (.on (careful_uleb hc)) fun _ hc => .on (ih hc)) hc₂
    · exact .pure hc₁
    · split
      · exact .refuse _
      · exact .pure hc₁
    · split
      · exact .refuse _
      · have small : ((b.toNat / 32 + 1 : Nat) : Int) ≤ maxRun := by
          have := b.toNat_lt
          have : maxRun = 281474976710656 := by rfl
          omega
        refine .lift_bind (Cursor.faultless_bytes hc₁ small) fun p read => .set_bind (.pure ?_)
        obtain ⟨data, c₂⟩ := p
        exact ((Cursor.bytes_eq_ok hc₁).1 read).2.sane hc₁

theorem careful_decode (hc : c.Sane) : Careful (Value.decode c) := careful_decodeFuel hc _

end Value

theorem ValueArray.careful_decode (hc : c.Sane) : Careful (ValueArray.decode c) :=
  .bind (.on (careful_uleb hc)) fun _ hc => .modify_bind (.on (.each (fun _ => Value.careful_decode) hc 0))

/-! ## Members -/

theorem FieldTail.careful_decode (hc : c.Sane) : Careful (MemberTail.decode c : Action FieldTail Cursor) := .pure hc

theorem MethodTail.careful_decode (hc : c.Sane) : Careful (MemberTail.decode c : Action MethodTail Cursor) :=
  .on (careful_uleb hc)

section

variable {τ : Type} [MemberTail τ]

theorem Member.careful_decode (tail : ∀ c, c.Sane → Careful (MemberTail.decode c : Action τ Cursor)) (hc : c.Sane) :
    Careful (Member.decode c : Action (Member τ) Cursor) :=
  .bind (.on (careful_uleb hc)) fun _ hc => .bind (.on (careful_uleb hc)) fun _ hc => .on (tail _ hc)

omit [MemberTail τ] in
theorem MemberTable.faultless_linkIndices (start i : Nat) (index : Int) (ms : List (Member τ)) :
    Faultless (linkIndices start i index ms).1 := by
  induction ms generalizing i index with
  | nil => exact .ok _
  | cons m ms ih =>
    unfold linkIndices
    split
    · exact .fail _
    · exact ih (i + 1) _

theorem MemberTable.careful_decode (tail : ∀ c, c.Sane → Careful (MemberTail.decode c : Action τ Cursor)) (hc : c.Sane) :
    Careful (MemberTable.decode c : Action (MemberTable τ) Cursor) := by
  refine .bind (Table.careful_decode (fun _ => Member.careful_decode tail) hc) fun c₁ hc₁ => .get_bind fun t => ?_
  exact .set_bind (.lift_bind (faultless_linkIndices _ _ _ _) fun _ _ => .pure hc₁)

end

theorem Members.careful_decode (hc : c.Sane) : Careful (Members.decode c) := by
  refine .bind (.on (Table.careful_decodeCount hc)) fun _ hc => .bind (.on (Table.careful_decodeCount hc)) fun _ hc => ?_
  refine .bind (.on (Table.careful_decodeCount hc)) fun _ hc => .bind (.on (Table.careful_decodeCount hc)) fun _ hc => ?_
  refine .bind (.on (MemberTable.careful_decode (fun _ => FieldTail.careful_decode) hc)) fun _ hc => ?_
  refine .bind (.on (MemberTable.careful_decode (fun _ => FieldTail.careful_decode) hc)) fun _ hc => ?_
  refine .bind (.on (MemberTable.careful_decode (fun _ => MethodTail.careful_decode) hc)) fun _ hc => ?_
  exact .on (MemberTable.careful_decode (fun _ => MethodTail.careful_decode) hc)

end Dalvik
