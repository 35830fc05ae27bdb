import Dalvik.Assembly.Printer
import Mathlib.Data.List.Nodup

/-!
# The table of instructions

Facts that are checked on every entry of the opcode table: an opcode is found by its name
(`Opcode.ofName?_name`), names are lower-case words (`Opcode.name_bytes`), and the format says which
references there are (`Opcode.reference_entries`).
-/

namespace Dalvik

theorem ascii_ofList (l : List Char) : ascii (String.ofList l) = l.map fun c => UInt8.ofNat c.toNat := by
  rw [ascii, String.toList_ofList]

namespace Opcode

open Assembly (extraOf)

/-- A name as one number, so that two names are compared in one step. -/
def nameKey (name : Bytes) : Nat := name.foldl (fun n b => 256 * n + b.toNat) 0

/-- Whether the list has no duplicates. -/
def distinct : List Nat → Bool
  | [] => true
  | k :: rest => rest.all (fun j => !Nat.beq j k) && distinct rest

theorem nodup_of_distinct {ks : List Nat} (h : distinct ks = true) : ks.Nodup := by
  induction ks with
  | nil => exact List.nodup_nil
  | cons k rest ih =>
    rw [distinct, Bool.and_eq_true] at h
    refine List.nodup_cons.2 ⟨fun mem => ?_, ih h.2⟩
    simpa using List.all_eq_true.1 h.1 k mem

/-- `Spelled os ls`: the names of the opcodes `os` have the letters `ls`. -/
inductive Spelled : List Opcode → List (List Char) → Prop
  | nil : Spelled [] []
  | cons {value : Nat} {l : List Char} {format : Format} {flags : List Flag} {wide : List Nat} {ref ref2 : Option Kind}
      {os : List Opcode} {ls : List (List Char)} :
      Spelled os ls → Spelled (⟨value, ascii (String.ofList l), format, flags, wide, ref, ref2⟩ :: os) (l :: ls)

theorem names_of_spelled {os : List Opcode} {ls : List (List Char)} (h : Spelled os ls) :
    os.map name = ls.map fun l => l.map fun c => UInt8.ofNat c.toNat := by
  induction h with
  | nil => rfl
  | cons _ ih => rw [List.map_cons, List.map_cons, ih, ascii_ofList]

/-- All that is checked on the names, in one statement: spelling the names out is what takes long, and here it is done
once. -/
theorem name_entries : ∃ names : List Bytes, all.map name = names ∧ distinct (names.map nameKey) = true ∧
    ∀ name ∈ names, (name.head?.any fun b => Nat.ble 97 b.toNat) = true ∧
      (name.all fun b => Nat.ble 45 b.toNat && Nat.ble b.toNat 122) = true := by
  apply Exists.intro
  refine And.intro ?spelled ?checked
  case spelled =>
    -- evaluation takes a literal apart slowly; unification reads its letters at once
    apply names_of_spelled
    repeat apply Spelled.cons
    exact .nil
  case checked => decide +kernel

/-- `ofName?` finds every opcode by its name, since no two have the same one. -/
theorem ofName?_name {o : Opcode} (h : o ∈ all) : ofName? o.name = some o := by
  have found : (ofName? o.name).isSome := by
    rw [ofName?, List.find?_isSome]
    exact ⟨o, h, by simp⟩
  obtain ⟨p, hp⟩ := Option.isSome_iff_exists.1 found
  have mem : p ∈ all := List.mem_of_find?_eq_some hp
  have name : p.name = o.name := by simpa using List.find?_some hp
  obtain ⟨names, spelled, apart, -⟩ := name_entries
  have nodup : (all.map Opcode.name).Nodup := List.Nodup.of_map nameKey (spelled ▸ nodup_of_distinct apart)
  have same : p = o := List.inj_on_of_nodup_map nodup mem h name
  rw [hp, same]

/-- The name of an instruction begins with a lower-case letter and consists of characters from `-` to `z`. -/
theorem name_bytes : ∀ o ∈ instructions,
    (o.name.head?.any fun b => Nat.ble 97 b.toNat) = true ∧ (o.name.all fun b => Nat.ble 45 b.toNat && Nat.ble b.toNat 122) = true := by
  intro o ho
  obtain ⟨names, spelled, -, plain⟩ := name_entries
  exact plain o.name (spelled ▸ List.mem_map_of_mem (List.mem_append_left _ ho))

/-- An opcode has a reference exactly if its format is variadic or ends in one, and a second reference exactly in the
two formats for it. -/
theorem reference_entries : ∀ o ∈ instructions,
    o.ref.isSome = (o.format.isVariadic || decide (extraOf o.format = .ref)) ∧
    o.ref2.isSome = decide (o.format = .f45cc ∨ o.format = .f4rcc) ∧
    (extraOf o.format = .literal ∨ extraOf o.format = .ref → o.format.registerBits ≠ []) := by
  decide +kernel

end Opcode

end Dalvik
