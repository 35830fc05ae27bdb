import Dalvik.Code.Disassembly
import Dalvik.Code.Label
import Dalvik.Proofs.Numeral
import Mathlib.Data.List.Nodup

/-!
# Labels

The name of a label gives the kind of reference and the address (`LabelKind.name_inj`): the address
is the part behind the last underscore. At an address, `labelsAt` gives the labels that were asked
for, and one for each kind of reference to it, without duplicates (`mem_names_labelsAt`,
`nodup_names_labelsAt`).
-/

namespace Dalvik

theorem append_cons_inj {α : Type} {u : α} {xs xs' ys ys' : List α} (h : xs ++ u :: ys = xs' ++ u :: ys') (hy : u ∉ ys)
    (hy' : u ∉ ys') : xs = xs' ∧ ys = ys' := by
  have longer : ∀ {ys ys' as : List α}, u ∉ ys → u :: ys = as ++ u :: ys' → as = [] ∧ ys = ys' := by
    intro ys ys' as hy e
    cases as with
    | nil => exact ⟨rfl, List.tail_eq_of_cons_eq e⟩
    | cons a as =>
      refine absurd ?_ hy
      rw [List.tail_eq_of_cons_eq e]
      simp
  rcases List.append_eq_append_iff.1 h with ⟨as, rfl, e⟩ | ⟨as, rfl, e⟩
  · obtain ⟨rfl, rfl⟩ := longer hy e
    exact ⟨(List.append_nil xs).symm, rfl⟩
  · obtain ⟨rfl, rfl⟩ := longer hy' e
    exact ⟨List.append_nil xs', rfl⟩

namespace LabelKind

theorem stem_inj {k l : LabelKind} (h : k.stem = l.stem) : k = l := by
  cases k <;> cases l <;> first | rfl | exact absurd h (by decide)

/-- The name gives the kind and the address. -/
theorem name_inj {k l : LabelKind} {a b : Int} (h : k.name a = l.name b) : k = l ∧ a = b := by
  have mark : ∀ n : Int, byte '_' ∉ hex n := by
    intro n mem
    have absent : byte '_' ≠ byte '-' ∧ ∀ d < 16, byte '_' ≠ digitByte d := by decide
    rcases mem_hex mem with e | ⟨d, hd, e⟩
    · exact absent.1 e
    · exact absent.2 d hd e
  have split : ∀ (k : LabelKind) (a : Int), k.name a = k.stem ++ byte '_' :: hex a := by
    intro k a
    rw [name, List.append_assoc]
    rfl
  rw [split, split] at h
  obtain ⟨stem, address⟩ := append_cons_inj h (mark a) (mark b)
  exact ⟨stem_inj stem, hex_inj address⟩

theorem name_ne_nil (k : LabelKind) (a : Int) : k.name a ≠ [] := by
  cases k <;> simp [name, stem, ascii]

end LabelKind

end Dalvik

/-! ## The labels of an address -/

namespace Dalvik.Sequence

variable {labels : List Assembly.Label} {name : Bytes} {case : Option Int} {address : Int} {refs : List Reference}
  {extra : List (Int × Bytes)}

/-- The names of labels. -/
def names (labels : List Assembly.Label) : List Bytes := labels.map Assembly.Label.name

/-- Appends a name unless it is in the list. -/
def addName (ns : List Bytes) (name : Bytes) : List Bytes := if name ∈ ns then ns else ns ++ [name]

theorem mem_addName {ns : List Bytes} {n : Bytes} : n ∈ addName ns name ↔ n ∈ ns ∨ n = name := by
  unfold addName
  split
  · next mem => exact ⟨.inl, fun h => h.elim id fun e => e ▸ mem⟩
  · rw [List.mem_append, List.mem_singleton]

theorem nodup_addName {ns : List Bytes} (h : ns.Nodup) : (addName ns name).Nodup := by
  unfold addName
  split
  · exact h
  · next fresh => exact List.nodup_append.2 ⟨h, List.nodup_singleton _, by rintro a ha b hb rfl; exact fresh (List.mem_singleton.1 hb ▸ ha)⟩

theorem names_addLabel : names (addLabel labels name case) = addName (names labels) name := by
  have commented : ∀ (ls : List Assembly.Label) (f : Assembly.Label → Bytes),
      names (ls.map fun l => if l.name ≠ name then l else { l with comment := f l }) = names ls := by
    intro ls f
    rw [names, names, List.map_map]
    refine List.map_congr_left fun l _ => ?_
    rw [Function.comp_apply]
    split <;> rfl
  have added : names (if labels.any (·.name = name) then labels else labels ++ [({ name } : Assembly.Label)]) = addName (names labels) name := by
    have there : labels.any (·.name = name) = true ↔ name ∈ names labels := by
      simp [names]
    unfold addName
    split
    · next h => rw [if_pos (there.1 h)]
    · next h =>
      rw [if_neg fun mem => h (there.2 mem)]
      simp [names]
  cases case with
  | none => exact added
  | some key => exact (commented _ _).trans added

/-- The labels that were asked for at the address come in their order. -/
theorem names_foldl_addLabel {ls : List Assembly.Label} :
    names (extra.foldl (fun ls (a, name) => if a = address then addLabel ls name none else ls) ls) =
      ((extra.filter (·.1 = address)).map Prod.snd).foldl addName (names ls) := by
  induction extra generalizing ls with
  | nil => rfl
  | cons e extra ih =>
    obtain ⟨a, name⟩ := e
    rw [List.foldl_cons, ih]
    by_cases here : a = address
    · rw [List.filter_cons_of_pos (by simpa using here)]
      simp only [if_pos here, names_addLabel, List.map_cons, List.foldl_cons]
    · rw [List.filter_cons_of_neg (by simpa using here)]
      simp only [if_neg here]

theorem names_labelsAt : names (labelsAt address refs extra) =
    (((extra.filter (·.1 = address)).map Prod.snd) ++ refs.map (·.kind.name address)).foldl addName [] := by
  have referred : ∀ (refs : List Reference) (ls : List Assembly.Label),
      names (refs.foldl (fun ls r => addLabel ls (r.kind.name address) (if r.kind.isCase then some r.key else none)) ls) =
        (refs.map (·.kind.name address)).foldl addName (names ls) := by
    intro refs
    induction refs with
    | nil => exact fun ls => rfl
    | cons r refs ih =>
      intro ls
      rw [List.foldl_cons, ih, names_addLabel]
      rfl
  rw [labelsAt, referred, names_foldl_addLabel, List.foldl_append]
  rfl

theorem mem_names_labelsAt : name ∈ names (labelsAt address refs extra) ↔
    (address, name) ∈ extra ∨ ∃ r ∈ refs, name = r.kind.name address := by
  have all : ∀ ns start : List Bytes, name ∈ ns.foldl addName start ↔ name ∈ start ∨ name ∈ ns := by
    intro ns
    induction ns with
    | nil => simp
    | cons n ns ih =>
      intro start
      rw [List.foldl_cons, ih, mem_addName, List.mem_cons, or_assoc]
  rw [names_labelsAt, all]
  simp [eq_comm]

theorem nodup_names_labelsAt : (names (labelsAt address refs extra)).Nodup := by
  rw [names_labelsAt]
  exact List.foldlRecOn (motive := List.Nodup) _ _ List.nodup_nil fun _ h _ _ => nodup_addName h

end Dalvik.Sequence
