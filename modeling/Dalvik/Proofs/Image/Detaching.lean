import Dalvik.Proofs.Image.ClassContents
import Dalvik.Proofs.Image.Notes
import Mathlib.Data.Int.ModEq
import Mathlib.Data.List.InsertIdx

/-!
# Members that take their notes along

A member of class data is removed on its own (`remove`) or by its position (`removeAt`); both leave
the same table (`remove_outcome`, `removeAt_outcome`). If the class data is linked to a directory of
notes, the notes of the member are removed from it and the rest is sorted, so the directory fits
what is left of the class after each removal (`notes_follow_removals`).
-/

namespace Dalvik

open NoteDirectory (Detached ofField ofMethod)

/-! ## Notes of a member -/

/-- Which tables of the directory have notes about a kind of member, and what `detach` does to them. -/
class NotedTail (τ : Type) [MemberTail τ] where
  noted : NoteGroup → Bool
  detached {d : NoteDirectory} (i : Int) : d.Sound → Detached noted i d (MemberTail.detach τ d i).2

instance : NotedTail FieldTail := ⟨ofField, fun i sound => sound.detachField i⟩

instance : NotedTail MethodTail := ⟨ofMethod, fun i sound => sound.detachMethod i⟩

/-- `e` is the directory `d` without the notes about a member, sorted. -/
structure NoteDirectory.Purged (noted : NoteGroup → Bool) (i : Int) (d e : NoteDirectory) : Prop where
  sound : e.Sound
  classNotes : e.classNotes = d.classNotes
  kept : ∀ k, (e.table k).values.Perm
    (if noted k then (d.table k).values.filter fun x => signed32 x.index ≠ i else (d.table k).values)
  sorted : ∀ k, (e.table k).values.Pairwise fun x y => x.index.toNat ≤ y.index.toNat

open NoteDirectory (Purged)

variable {τ : Type} [MemberTail τ]

section Notes

variable {notes : Option NoteDirectory}

theorem exists_purged [NotedTail τ] {d : NoteDirectory} (sound : d.Sound) (i : Int) :
    ∃ moved e, (MemberTail.detach τ d i).2.sort = .ok (moved, e) ∧ Purged (NotedTail.noted τ) i d e := by
  have detached : Detached (NotedTail.noted τ) i d (MemberTail.detach τ d i).2 := NotedTail.detached i sound
  obtain ⟨moved, e, run, sorted⟩ := detached.sound.sort
  refine ⟨moved, e, run, sorted.sound, sorted.classNotes.trans detached.classNotes, fun k => ?_,
    sorted.sorted⟩
  rw [← detached.values]
  exact sorted.perm k

/-- Detaching a member from the directory, if there is one, and sorting succeed with `Purged`. -/
theorem purge_notes [NotedTail τ] (sound : ∀ d ∈ notes, d.Sound) (i : Int) :
    ∃ notes', (notes.mapM fun d => do
        let (_, d) ← (MemberTail.detach τ d i).2.sort
        return d : Except Stop (Option NoteDirectory)) = .ok notes' ∧ Option.Rel (Purged (NotedTail.noted τ) i) notes notes' := by
  cases notes with
  | none => exact ⟨none, rfl, .none⟩
  | some d =>
    obtain ⟨moved, e, run, purged⟩ := @exists_purged τ _ _ d (sound d rfl) i
    refine ⟨some e, ?_, .some purged⟩
    simp only [Option.mapM_some, run]
    rfl

end Notes

/-! ## Tables of members -/

theorem Uleb.modEq_get_set (u : Uleb) (v : Int) : (u.set v).get ≡ v [ZMOD 2 ^ 32] := by
  have value : (u.set v).value = UInt32.ofInt v := by
    rw [Uleb.set, Uleb.setValue]
    split
    · next same => exact same.symm
    · rfl
  rw [Uleb.get, value, UInt32.ofInt, UInt32.toNat_ofNat', Int.ModEq]
  omega

namespace MemberTable

variable {t u : MemberTable τ} {notes : Option NoteDirectory} {ms : List (Member τ)}

section Whole

omit [MemberTail τ]

theorem whole_setMembers (whole : Table.Whole t) (length : ms.length = (members t).length) :
    Table.Whole (setMembers t ms) ∧ members (setMembers t ms) = ms :=
  ⟨whole.refill (length.trans whole.length_values), whole.values_refill (length.trans whole.length_values)⟩

theorem whole_resetDiffs (whole : Table.Whole t) :
    Table.Whole (resetDiffs t) ∧ members (resetDiffs t) = withDiffs 0 (members t) :=
  whole_setMembers whole (length_withDiffs 0 (members t))

/-- The differences up to a member sum up to its index, modulo 2^32. -/
theorem modEq_sum_withDiffs {previous : Int} {k : Nat} {m : Member τ} (found : (withDiffs previous ms)[k]? = some m) :
    (((withDiffs previous ms).take (k + 1)).map fun m => m.diff.get).sum ≡ m.index - previous [ZMOD 2 ^ 32] := by
  induction ms generalizing previous k with
  | nil => cases found
  | cons x ms ih =>
    have here : (x.diff.set (x.index - previous)).get ≡ x.index - previous [ZMOD 2 ^ 32] := Uleb.modEq_get_set _ _
    rw [withDiffs] at found ⊢
    cases k with
    | zero =>
      cases found
      simpa using here
    | succ k =>
      have rest := here.add (ih found)
      rw [List.take_succ_cons, List.map_cons, List.sum_cons]
      convert rest using 1
      omega

end Whole

/-- The table and the directory are what they were without the member at position `n`, whose index is `i`. -/
structure Removed [NotedTail τ] (t u : MemberTable τ) (notes notes' : Option NoteDirectory) (n : Nat) (i : Int) : Prop where
  whole : Table.Whole u
  members : members u = withDiffs 0 ((members t).eraseIdx n)
  notes : Option.Rel (Purged (NotedTail.noted τ) i) notes notes'

omit [MemberTail τ] in
theorem getElem?_members (whole : Table.Whole t) {n s : Nat} (listed : t.order[n]? = some s) :
    ∃ m, t.value? s = some m ∧ (members t)[n]? = some m := by
  obtain ⟨m, value⟩ := Option.isSome_iff_exists.1 (whole.filled s (List.mem_of_getElem? listed))
  refine ⟨m, value, ?_⟩
  rw [members, whole.getElem?_values, listed]
  exact value

/-- `remove` removes a member that is in the table, and answers `false` and changes nothing otherwise. -/
theorem remove_outcome [NotedTail τ] (whole : Table.Whole t) (sound : ∀ d ∈ notes, d.Sound) (slot : Nat) :
    (t.indexOf? slot = none ∧ remove t slot notes = .ok (false, t, notes)) ∨
      ∃ n m u notes', t.indexOf? slot = some n ∧ (members t)[n]? = some m ∧ remove t slot notes = .ok (true, u, notes') ∧
        Removed t u notes notes' n m.index := by
  cases found : t.indexOf? slot with
  | none =>
    refine .inl ⟨rfl, ?_⟩
    rw [remove, found]
    rfl
  | some n =>
    obtain ⟨m, value, member⟩ := getElem?_members whole (whole.indexOf?_eq_some.1 found)
    obtain ⟨notes', run, purged⟩ := @purge_notes τ _ _ _ sound m.index
    obtain ⟨whole', -, values⟩ := whole.remove found
    obtain ⟨reset, members⟩ := whole_resetDiffs whole'
    refine .inr ⟨n, m, _, notes', rfl, member, ?_, reset, members.trans (congrArg _ values), purged⟩
    rw [remove, found, Option.bind_some, value]
    exact Action.except_bind_eq_ok.2 ⟨notes', run, rfl⟩

/-- `removeAt` removes the member at a position in the table, and faults for any other position. -/
theorem removeAt_outcome [NotedTail τ] (whole : Table.Whole t) (sound : ∀ d ∈ notes, d.Sound) (i : Int) :
    (t.slotAt? i = none ∧ removeAt t i notes = .error (.fault none)) ∨
      ∃ (n : Nat) (m : Member τ) (u : MemberTable τ) (notes' : Option NoteDirectory), i = n ∧ (members t)[n]? = some m ∧
        removeAt t i notes = .ok (m, u, notes') ∧ Removed t u notes notes' n m.index := by
  cases found : t.slotAt? i with
  | none =>
    refine .inl ⟨rfl, ?_⟩
    rw [removeAt, Table.elementAt, Table.get?, found]
    rfl
  | some s =>
    obtain ⟨n, rfl, listed⟩ := Table.Whole.slotAt?_eq_some.1 found
    obtain ⟨m, value, member⟩ := getElem?_members whole listed
    have element : t.elementAt n = .ok m := by
      rw [Table.elementAt, Table.get?, found, Option.bind_some, value]
    obtain ⟨x, v, taken, -⟩ := whole.removeAt_eq_ok found
    obtain ⟨notes', run, purged⟩ := @purge_notes τ _ _ _ sound m.index
    obtain ⟨whole', -, k, same, values⟩ := whole.removeAt taken
    obtain rfl : n = k := by omega
    obtain ⟨reset, members⟩ := whole_resetDiffs whole'
    refine .inr ⟨n, m, _, notes', rfl, member, ?_, reset, members.trans (congrArg _ values), purged⟩
    unfold removeAt
    exact Action.except_bind_eq_ok.2 ⟨m, element, Action.except_bind_eq_ok.2 ⟨(x, v), taken,
      Action.except_bind_eq_ok.2 ⟨notes', run, rfl⟩⟩⟩

/-! ## What is kept by all that is done to a table -/

/-- The table is well formed, and the directory, if there is one, is sound. -/
def Kept (y : MemberTable τ × Option NoteDirectory) : Prop := Table.Whole y.1 ∧ ∀ d ∈ y.2, d.Sound

section Edits

omit [MemberTail τ] in
theorem upholds_table {α : Type} {act : Action (MemberTable τ) α} (whole : Action.Upholds Table.Whole act) :
    Action.Upholds Kept (Action.on Prod.fst (fun t (x : MemberTable τ × Option NoteDirectory) => (t, x.2)) act) :=
  Action.upholds_on_left fun y h => ⟨whole y.1 h.1, h.2⟩

theorem whole_ensure (index : Int) (whole : Table.Whole t) : Table.Whole (ensure t index) := by
  unfold ensure
  split
  · exact whole
  · exact (whole_resetDiffs (whole.push _)).1

omit [MemberTail τ] in
theorem length_linkIndices (start i : Nat) (index : Int) (ms : List (Member τ)) :
    (linkIndices start i index ms).2.length = ms.length := by
  induction ms generalizing i index with
  | nil => rfl
  | cons m ms ih =>
    rw [linkIndices]
    split
    · rfl
    · exact congrArg (· + 1) (ih (i + 1) (index + m.diff.get))

theorem upholds_decode (c : Cursor) : Action.Upholds Table.Whole (decode c : Action (MemberTable τ) Cursor) := by
  refine .bind (fun t whole => (Table.whole_decode Member.fresh Member.decode c whole).1) fun c' => ?_
  refine Action.upholds_get fun t whole => ?_
  have linked := length_linkIndices c.pos 0 0 (members t)
  exact Action.Upholds.bind (Action.upholds_set (whole_setMembers whole linked).1)
    (fun _ => .bind (Action.upholds_lift _) fun _ => Action.upholds_pure _) t whole

omit [MemberTail τ] in
theorem sort_outcome (kept : Kept (t, notes)) :
    ∃ moved u notes', sort t notes = .ok (moved, u, notes') ∧ Kept (u, notes') := by
  obtain ⟨whole, sound⟩ := kept
  obtain ⟨moved, u, run, whole', -, -, -, -⟩ := whole.sort orders_byIndex
  cases moved with
  | false => exact ⟨false, u, notes, by rw [sort, run]; rfl, whole', sound⟩
  | true =>
    have reset := (whole_resetDiffs whole').1
    cases notes with
    | none => exact ⟨true, resetDiffs u, none, by rw [sort, run]; rfl, reset, fun d hd => (Option.not_mem_none d hd).elim⟩
    | some d =>
      obtain ⟨again, e, sorts, sorted⟩ := (sound d rfl).sort
      refine ⟨true, resetDiffs u, some e, ?_, reset, fun d' hd' => Option.some.inj hd' ▸ sorted.sound⟩
      simp only [sort, run, Option.mapM_some, sorts]
      rfl

omit [MemberTail τ] in
theorem upholds_refresh : Action.Upholds Kept (refresh : Action (MemberTable τ × Option NoteDirectory) PUnit) := by
  refine Action.upholds_get fun y kept => ?_
  obtain ⟨moved, u, notes', run, whole, sound⟩ := sort_outcome kept
  have reset := (whole_resetDiffs whole).1
  simp only [run, Action.apply_bind, Action.apply_lift, Action.apply_set]
  split
  · exact ⟨reset, sound⟩
  · exact ⟨reset.updateCount, sound⟩

end Edits

theorem Removed.kept [NotedTail τ] {notes' : Option NoteDirectory} {n : Nat} {i : Int} (removed : Removed t u notes notes' n i) :
    Kept (u, notes') := by
  refine ⟨removed.whole, fun d hd => ?_⟩
  have rest := removed.notes
  rw [show notes' = some d from hd] at rest
  cases rest with
  | some purged => exact purged.sound

end MemberTable

/-! ## The four tables -/

namespace Members

/-- The slots of a group, in order. -/
def slots (m : Members) : MemberGroup → List Nat
  | .staticField => m.staticFields.order
  | .instanceField => m.instanceFields.order
  | .directMethod => m.directMethods.order
  | .virtualMethod => m.virtualMethods.order

end Members

/-- The tables of the directory that have notes about members of the group. -/
def MemberGroup.noted : MemberGroup → NoteGroup → Bool
  | .staticField | .instanceField => ofField
  | .directMethod | .virtualMethod => ofMethod

namespace ClassContents

variable {x y z d : ClassContents} {g h : MemberGroup}

/-- `table` and `store` read and replace the table of group `g`, and nothing else. -/
structure IsGroup [LawfulTail τ] [NotedTail τ] (g : MemberGroup) (table : Members → MemberTable τ)
    (store : MemberTable τ → Members → Members) : Prop where
  onGroup {α : Type} (act : {τ : Type} → [MemberTail τ] → Action (MemberTable τ × Option NoteDirectory) α) :
    ClassContents.onGroup g act = Action.on (fun x => (table x.members, if x.linked then some x.notes else none))
      (fun y x => { x with members := store y.1 x.members, notes := y.2.getD x.notes }) act
  noted : g.noted = NotedTail.noted τ
  table_store (t : MemberTable τ) (m : Members) : table (store t m) = t
  store_table (m : Members) : store (table m) m = m
  collect (m : Members) : m.slots g = (table m).order ∧ m.indices g = (table m).members.map (·.index) ∧
    m.differences g = (table m).members.map (·.diff.get) ∧ m.entries g = (table m).members.map Member.entry
  others (t : MemberTable τ) (m : Members) : ∀ h, h ≠ g →
    (store t m).entries h = m.entries h ∧ (store t m).differences h = m.differences h
  each {P : {τ : Type} → [MemberTail τ] → [LawfulTail τ] → MemberTable τ → Prop} {m : Members} (all : m.Each P) :
    P (table m) ∧ ∀ t, P t → (store t m).Each P

theorem isGroup_static : IsGroup .staticField (·.staticFields) fun t m => { m with staticFields := t } where
  onGroup _ := rfl
  noted := rfl
  table_store _ _ := rfl
  store_table _ := rfl
  collect _ := ⟨rfl, rfl, rfl, rfl⟩
  others t m h other := by cases h <;> first | exact absurd rfl other | exact ⟨rfl, rfl⟩
  each all := ⟨all.1, fun _ new => ⟨new, all.2, all.3, all.4⟩⟩

theorem isGroup_instance : IsGroup .instanceField (·.instanceFields) fun t m => { m with instanceFields := t } where
  onGroup _ := rfl
  noted := rfl
  table_store _ _ := rfl
  store_table _ := rfl
  collect _ := ⟨rfl, rfl, rfl, rfl⟩
  others t m h other := by cases h <;> first | exact absurd rfl other | exact ⟨rfl, rfl⟩
  each all := ⟨all.2, fun _ new => ⟨all.1, new, all.3, all.4⟩⟩

theorem isGroup_direct : IsGroup .directMethod (·.directMethods) fun t m => { m with directMethods := t } where
  onGroup _ := rfl
  noted := rfl
  table_store _ _ := rfl
  store_table _ := rfl
  collect _ := ⟨rfl, rfl, rfl, rfl⟩
  others t m h other := by cases h <;> first | exact absurd rfl other | exact ⟨rfl, rfl⟩
  each all := ⟨all.3, fun _ new => ⟨all.1, all.2, new, all.4⟩⟩

theorem isGroup_virtual : IsGroup .virtualMethod (·.virtualMethods) fun t m => { m with virtualMethods := t } where
  onGroup _ := rfl
  noted := rfl
  table_store _ _ := rfl
  store_table _ := rfl
  collect _ := ⟨rfl, rfl, rfl, rfl⟩
  others t m h other := by cases h <;> first | exact absurd rfl other | exact ⟨rfl, rfl⟩
  each all := ⟨all.4, fun _ new => ⟨all.1, all.2, all.3, new⟩⟩

theorem exists_isGroup (g : MemberGroup) : ∃ (τ : Type) (_ : MemberTail τ) (_ : LawfulTail τ) (_ : NotedTail τ)
    (table : Members → MemberTable τ) (store : MemberTable τ → Members → Members), IsGroup g table store := by
  cases g with
  | staticField => exact ⟨_, _, _, _, _, _, isGroup_static⟩
  | instanceField => exact ⟨_, _, _, _, _, _, isGroup_instance⟩
  | directMethod => exact ⟨_, _, _, _, _, _, isGroup_direct⟩
  | virtualMethod => exact ⟨_, _, _, _, _, _, isGroup_virtual⟩

/-! ## Class data that is made, read, edited and linked -/

/-- Class data that the operations lead to; the directory may be replaced by any sound one. -/
inductive Arisen : ClassContents → Prop where
  | fresh : Arisen {}
  | decode {x : ClassContents} (c : Cursor) : Arisen x → Arisen ((ClassContents.decode c).apply x).2
  | edit {x : ClassContents} (e : Edit) : Arisen x → Arisen (e.apply x)
  | remove {x : ClassContents} (g : MemberGroup) (slot : Nat) : Arisen x → Arisen ((ClassContents.remove g slot).apply x).2
  | annotate {x : ClassContents} {d : NoteDirectory} (sound : d.Sound) : Arisen x → Arisen { x with notes := d }
  | link {x : ClassContents} (linked : Bool) : Arisen x → Arisen { x with linked }

/-- The tables are well formed, and the directory is sound. -/
structure Orderly (x : ClassContents) : Prop where
  tables : x.members.Each fun t => Table.Whole t
  sound : x.notes.Sound

theorem Orderly.kept [LawfulTail τ] [NotedTail τ] {table : Members → MemberTable τ}
    {store : MemberTable τ → Members → Members} (group : IsGroup g table store) (h : Orderly x) :
    MemberTable.Kept (table x.members, if x.linked then some x.notes else none) := by
  refine ⟨(group.each h.tables).1, fun d hd => ?_⟩
  dsimp only at hd
  split at hd
  · exact Option.some.inj hd ▸ h.sound
  · cases hd

/-- An action that keeps `MemberTable.Kept` keeps `Orderly`. -/
theorem upholds_onGroup {α : Type} (g : MemberGroup)
    {act : {τ : Type} → [MemberTail τ] → Action (MemberTable τ × Option NoteDirectory) α}
    (keeps : ∀ {τ : Type} [MemberTail τ] [NotedTail τ], Action.Upholds MemberTable.Kept (@act τ _)) :
    Action.Upholds Orderly (onGroup g act) := by
  obtain ⟨τ, _, _, _, table, store, group⟩ := exists_isGroup g
  rw [group.onGroup]
  refine Action.upholds_on_left fun x h => ?_
  have kept := @keeps τ _ _ _ (h.kept group)
  rcases run : (@act τ _).apply (table x.members, if x.linked then some x.notes else none) with ⟨r, u, notes⟩
  rw [run] at kept
  refine ⟨(group.each h.tables).2 u kept.1, ?_⟩
  cases notes with
  | none => exact h.sound
  | some d => exact kept.2 d rfl

theorem upholds_onTable {α : Type} (g : MemberGroup) {act : {τ : Type} → [MemberTail τ] → Action (MemberTable τ) α}
    (whole : ∀ {τ : Type} [MemberTail τ], Action.Upholds Table.Whole (@act τ _)) : Action.Upholds Orderly (onTable g act) :=
  upholds_onGroup g (MemberTable.upholds_table whole)

theorem upholds_decode (c : Cursor) : Action.Upholds Orderly (ClassContents.decode c) := by
  refine Action.upholds_on_left fun x h => ⟨?_, h.sound⟩
  let I (m : Members) : Prop := m.Each fun t => Table.Whole t
  have onStatic {α : Type} {act : Action (MemberTable FieldTail) α} (whole : Action.Upholds Table.Whole act) :
      Action.Upholds I (Members.onStatic act) :=
    Action.upholds_on_left fun m all => ⟨whole _ all.1, all.2, all.3, all.4⟩
  have onInstance {α : Type} {act : Action (MemberTable FieldTail) α} (whole : Action.Upholds Table.Whole act) :
      Action.Upholds I (Members.onInstance act) :=
    Action.upholds_on_left fun m all => ⟨all.1, whole _ all.2, all.3, all.4⟩
  have onDirect {α : Type} {act : Action (MemberTable MethodTail) α} (whole : Action.Upholds Table.Whole act) :
      Action.Upholds I (Members.onDirect act) :=
    Action.upholds_on_left fun m all => ⟨all.1, all.2, whole _ all.3, all.4⟩
  have onVirtual {α : Type} {act : Action (MemberTable MethodTail) α} (whole : Action.Upholds Table.Whole act) :
      Action.Upholds I (Members.onVirtual act) :=
    Action.upholds_on_left fun m all => ⟨all.1, all.2, all.3, whole _ all.4⟩
  have counts : Action.Upholds I (Members.decode c) :=
    .bind (onStatic (Table.upholds_decodeCount c)) fun c => .bind (onInstance (Table.upholds_decodeCount c)) fun c =>
      .bind (onDirect (Table.upholds_decodeCount c)) fun c => .bind (onVirtual (Table.upholds_decodeCount c)) fun c =>
        .bind (onStatic (MemberTable.upholds_decode c)) fun c => .bind (onInstance (MemberTable.upholds_decode c)) fun c =>
          .bind (onDirect (MemberTable.upholds_decode c)) fun c => onVirtual (MemberTable.upholds_decode c)
  exact counts x.members h.tables

theorem upholds_change (g : MemberGroup) (i : Int) (f : {τ : Type} → [MemberTail τ] → Member τ → Member τ) :
    Action.Upholds Orderly (onTable g do
      let t ← get
      let _ ← Table.elementAt t i
      set (Table.update t i f)) := by
  refine upholds_onTable g (Action.upholds_get fun t whole => ?_)
  exact Action.Upholds.bind (Action.upholds_lift _) (fun _ => Action.upholds_set (whole.update i f)) t whole

theorem upholds_removeAt (g : MemberGroup) (i : Int) : Action.Upholds Orderly (ClassContents.removeAt g i) := by
  refine upholds_onGroup g (Action.upholds_get fun y kept => ?_)
  rcases MemberTable.removeAt_outcome kept.1 kept.2 i with ⟨-, run⟩ | ⟨n, m, u, notes', -, -, run, removed⟩
  · simp only [Action.apply_bind, Action.apply_lift, run]
    exact kept
  · simp only [Action.apply_bind, Action.apply_lift, run]
    exact removed.kept

theorem upholds_remove (g : MemberGroup) (slot : Nat) : Action.Upholds Orderly (ClassContents.remove g slot) := by
  refine upholds_onGroup g (Action.upholds_get fun y kept => ?_)
  rcases MemberTable.remove_outcome kept.1 kept.2 slot with ⟨-, run⟩ | ⟨n, m, u, notes', -, -, run, removed⟩
  · simp only [Action.apply_bind, Action.apply_lift, run]
    exact kept
  · simp only [Action.apply_bind, Action.apply_lift, run]
    exact removed.kept

theorem upholds_sort (g : MemberGroup) : Action.Upholds Orderly (ClassContents.sort g) := by
  refine upholds_onGroup g (Action.upholds_get fun y kept => ?_)
  obtain ⟨moved, u, notes', run, kept'⟩ := MemberTable.sort_outcome kept
  simp only [Action.apply_bind, Action.apply_lift, run]
  exact kept'

theorem upholds_refresh : Action.Upholds Orderly ClassContents.refresh :=
  .bind (upholds_onGroup _ MemberTable.upholds_refresh) fun _ => .bind (upholds_onGroup _ MemberTable.upholds_refresh) fun _ =>
    .bind (upholds_onGroup _ MemberTable.upholds_refresh) fun _ => upholds_onGroup _ MemberTable.upholds_refresh

theorem Orderly.edit (h : Orderly x) (e : Edit) : Orderly (e.apply x) := by
  cases e with
  | ensure g index => exact upholds_onTable g (Action.upholds_modify fun _ => MemberTable.whole_ensure index) x h
  | push g index => exact upholds_onTable g (Action.upholds_modify fun _ whole => whole.push _) x h
  | setIndex g i index => exact upholds_change g i (fun m => { m with index }) x h
  | setAccess g i access => exact upholds_change g i (fun m => { m with access := m.access.set access }) x h
  | setCodeOffset g i offset =>
    exact upholds_change g i (fun m => { m with tail := MemberTail.setOffset offset m.tail }) x h
  | removeAt g i => exact upholds_removeAt g i x h
  | sort g => exact upholds_sort g x h
  | refresh => exact upholds_refresh x h

/-- All operations on class data keep `Orderly`. -/
theorem Arisen.orderly (arisen : Arisen x) : Orderly x := by
  induction arisen with
  | fresh =>
    have empty : ∀ {τ : Type} [MemberTail τ] [LawfulTail τ], Table.Whole (MemberTable.fresh : MemberTable τ) :=
      fun {τ} _ _ => Table.whole_filled (some (.uleb {})) []
    exact ⟨⟨empty, empty, empty, empty⟩, NoteDirectory.sound_fresh⟩
  | decode c _ ih => exact upholds_decode c _ ih
  | edit e _ ih => exact ih.edit e
  | remove g slot _ ih => exact upholds_remove g slot _ ih
  | annotate sound _ ih => exact ⟨ih.tables, sound⟩
  | link linked _ ih => exact ⟨ih.tables, ih.sound⟩

/-! ## Removals -/

/-- A removal of a member, on its own or by its position. -/
inductive Removal where
  | member (g : MemberGroup) (slot : Nat)
  | position (g : MemberGroup) (i : Int)

namespace Removal

def group : Removal → MemberGroup
  | .member g _ | .position g _ => g

/-- The position of the member that the removal is about. -/
def place? (m : Members) : Removal → Option Nat
  | .member g slot => (m.slots g).findIdx? (· == slot)
  | .position g i => if 0 ≤ i ∧ i < (m.slots g).length then some i.toNat else none

/-- What the removal leaves, also if it fails. -/
def after (x : ClassContents) : Removal → ClassContents
  | .member g slot => ((ClassContents.remove g slot).apply x).2
  | .position g i => ((ClassContents.removeAt g i).apply x).2

/-- The removal succeeds and takes out a member with index `i`. -/
def Takes (x : ClassContents) (i : Int) (z : ClassContents) : Removal → Prop
  | .member g slot => (ClassContents.remove g slot).Gives x true z
  | .position g k => (ClassContents.removeAt g k).Gives x i z

/-- The removal takes out nothing: `remove` answers `false`, or `removeAt` faults. -/
def Refused (x : ClassContents) : Removal → Prop
  | .member g slot => (ClassContents.remove g slot).Gives x false x
  | .position g k => (ClassContents.removeAt g k).apply x = (.error (.fault none), x)

end Removal

/-- `z` is `x` without the member at position `n` of group `g`, whose index was `i`: the notes about `i` are gone, all
other notes are there, sorted and counted, and the differences of the group sum up to the indices modulo 2^32. -/
structure Without (x : ClassContents) (g : MemberGroup) (n : Nat) (i : Int) (z : ClassContents) : Prop where
  members : z.members.entries g = (x.members.entries g).eraseIdx n
  others : ∀ h, h ≠ g → z.members.entries h = x.members.entries h ∧ z.members.differences h = x.members.differences h
  gone : ∀ k, g.noted k = true → ∀ e ∈ (z.notes.table k).values, ¬ e.Names i
  kept : ∀ k, (z.notes.table k).values.Perm ((x.notes.table k).values.filter fun e => !(g.noted k && e.Names i))
  sorted : ∀ k, (z.notes.table k).values.Pairwise fun a b => a.index.toNat ≤ b.index.toNat
  sizes : ∀ k, (z.notes.table k).count = some (.int (UInt32.ofNat (z.notes.table k).values.length))
  differences : ∀ k j, (z.members.indices g)[k]? = some j → ((z.members.differences g).take (k + 1)).sum ≡ j [ZMOD 2 ^ 32]
  classNotes : z.notes.classNotes = x.notes.classNotes
  linked : z.linked = x.linked

theorem indices_eq (m : Members) (g : MemberGroup) : m.indices g = (m.entries g).map MemberEntry.index := by
  obtain ⟨τ, _, _, _, table, store, group⟩ := exists_isGroup g
  obtain ⟨-, indices, -, entries⟩ := group.collect m
  rw [indices, entries, List.map_map]
  rfl

theorem without_of_removed [LawfulTail τ] [NotedTail τ] {table : Members → MemberTable τ}
    {store : MemberTable τ → Members → Members} (group : IsGroup g table store) {u : MemberTable τ} {e : NoteDirectory}
    {n : Nat} {i : Int} (removed : MemberTable.Removed (table x.members) u (some x.notes) (some e) n i) (below : i < 2 ^ 31) :
    Without x g n i { x with members := store u x.members, notes := e } := by
  have purged : Purged g.noted i x.notes e := by
    have rest := removed.notes
    rw [← group.noted] at rest
    cases rest with
    | some purged => exact purged
  obtain ⟨-, -, -, old⟩ := group.collect x.members
  obtain ⟨-, indices, differences, new⟩ := group.collect (store u x.members)
  rw [group.table_store] at indices differences new
  have kept : ∀ k, (e.table k).values.Perm ((x.notes.table k).values.filter fun e => !(g.noted k && e.Names i)) := by
    intro k
    have perm := purged.kept k
    split at perm
    · next noted => simpa [noted, NoteEntry.names_iff below] using perm
    · next noted => simpa [noted] using perm
  refine ⟨?_, fun h other => group.others u x.members h other, fun k noted a mem named => ?_, kept, purged.sorted,
    fun k => (purged.sound k).count, fun k j found => ?_, purged.classNotes, rfl⟩
  · rw [new, removed.members, MemberTable.map_withDiffs fun _ _ => rfl, old, List.eraseIdx_map]
  · have mem := (kept k).mem_iff.1 mem
    simp [noted, named] at mem
  · dsimp only at found ⊢
    rw [indices, removed.members, List.getElem?_map] at found
    obtain ⟨m, located, rfl⟩ := Option.map_eq_some_iff.1 found
    rw [differences, removed.members, ← List.map_take]
    simpa using MemberTable.modEq_sum_withDiffs located

/-- Orderly class data that is linked to its directory and has indices below 2^31. -/
structure Ready (x : ClassContents) : Prop where
  orderly : Orderly x
  linked : x.linked = true
  below : ∀ g, ∀ i ∈ x.members.indices g, i < 2 ^ 31

/-- A removal from one of the tables is one from the class data. -/
theorem Ready.without [LawfulTail τ] [NotedTail τ] {table : Members → MemberTable τ}
    {store : MemberTable τ → Members → Members} (group : IsGroup g table store) (ready : Ready x) {n : Nat} {m : Member τ}
    (member : (table x.members).members[n]? = some m) {u : MemberTable τ} {notes : Option NoteDirectory}
    (removed : MemberTable.Removed (table x.members) u (some x.notes) notes n m.index) :
    (x.members.indices g)[n]? = some m.index ∧
      Without x g n m.index { x with members := store u x.members, notes := notes.getD x.notes } := by
  have located : (x.members.indices g)[n]? = some m.index := by
    rw [(group.collect x.members).2.1, List.getElem?_map, member, Option.map_some]
  obtain ⟨e, rfl⟩ : ∃ e, notes = some e := by
    have rest := removed.notes
    cases rest with
    | some purged => exact ⟨_, rfl⟩
  exact ⟨located, without_of_removed group removed (ready.below g _ (List.mem_of_getElem? located))⟩

theorem Ready.kept [LawfulTail τ] [NotedTail τ] {table : Members → MemberTable τ}
    {store : MemberTable τ → Members → Members} (group : IsGroup g table store) (ready : Ready x) :
    Table.Whole (table x.members) ∧ ∀ d ∈ some x.notes, d.Sound := by
  have kept := ready.orderly.kept group
  rwa [ready.linked] at kept

/-- `remove` takes out the member in a slot of the group, or changes nothing if the slot is not in the group. -/
theorem Ready.remove_cases (ready : Ready x) (g : MemberGroup) (slot : Nat) :
    ((Removal.member g slot).place? x.members = none ∧ (Removal.member g slot).Refused x) ∨
      ∃ n i z, (Removal.member g slot).place? x.members = some n ∧ (x.members.indices g)[n]? = some i ∧
        (Removal.member g slot).Takes x i z ∧ Without x g n i z := by
  obtain ⟨τ, _, _, _, table, store, group⟩ := exists_isGroup g
  obtain ⟨whole, sound⟩ := ready.kept group
  have place : (Removal.member g slot).place? x.members = (table x.members).indexOf? slot := by
    rw [Removal.place?, (group.collect x.members).1]
    rfl
  have ran : ∀ {found : Bool} {u : MemberTable τ} {notes : Option NoteDirectory},
      MemberTable.remove (table x.members) slot (some x.notes) = .ok (found, u, notes) →
        (ClassContents.remove g slot).Gives x found
          { x with members := store u x.members, notes := notes.getD x.notes } := by
    intro found u notes run
    rw [ClassContents.remove, group.onGroup, Action.gives_on, if_pos ready.linked]
    refine ⟨(u, notes), ?_, rfl⟩
    simp only [Action.gives_bind, Action.gives_get, Action.gives_lift, Action.gives_set, Action.gives_pure]
    exact ⟨_, _, ⟨rfl, rfl⟩, _, _, ⟨run, rfl⟩, ⟨⟩, _, rfl, rfl, rfl⟩
  rw [place]
  rcases MemberTable.remove_outcome whole sound slot with ⟨absent, run⟩ | ⟨n, m, u, notes', found, member, run, removed⟩
  · have same := ran run
    rw [group.store_table] at same
    exact .inl ⟨absent, same⟩
  · obtain ⟨located, without⟩ := ready.without group member removed
    exact .inr ⟨n, m.index, _, found, located, ran run, without⟩

/-- `removeAt` takes out the member at a position of the group, and faults if there is none. -/
theorem Ready.removeAt_cases (ready : Ready x) (g : MemberGroup) (k : Int) :
    ((Removal.position g k).place? x.members = none ∧ (Removal.position g k).Refused x) ∨
      ∃ n i z, (Removal.position g k).place? x.members = some n ∧ (x.members.indices g)[n]? = some i ∧
        (Removal.position g k).Takes x i z ∧ Without x g n i z := by
  obtain ⟨τ, _, _, _, table, store, group⟩ := exists_isGroup g
  obtain ⟨whole, sound⟩ := ready.kept group
  have place : (Removal.position g k).place? x.members =
      if 0 ≤ k ∧ k < (table x.members).order.length then some k.toNat else none := by
    rw [Removal.place?, (group.collect x.members).1]
  have ran : ∀ {m : Member τ} {u : MemberTable τ} {notes : Option NoteDirectory},
      MemberTable.removeAt (table x.members) k (some x.notes) = .ok (m, u, notes) →
        (ClassContents.removeAt g k).Gives x m.index
          { x with members := store u x.members, notes := notes.getD x.notes } := by
    intro m u notes run
    rw [ClassContents.removeAt, group.onGroup, Action.gives_on, if_pos ready.linked]
    refine ⟨(u, notes), ?_, rfl⟩
    simp only [Action.gives_bind, Action.gives_get, Action.gives_lift, Action.gives_set, Action.gives_pure]
    exact ⟨_, _, ⟨rfl, rfl⟩, _, _, ⟨run, rfl⟩, ⟨⟩, _, rfl, rfl, rfl⟩
  have refused : MemberTable.removeAt (table x.members) k (some x.notes) = .error (.fault none) →
      (ClassContents.removeAt g k).apply x = (.error (.fault none), x) := by
    intro run
    rw [ClassContents.removeAt, group.onGroup, Action.apply_on, if_pos ready.linked]
    simp only [Action.apply_bind, Action.apply_get, Action.apply_lift, run]
    rw [group.store_table]
    rfl
  rw [place]
  rcases MemberTable.removeAt_outcome whole sound k with ⟨absent, run⟩ | ⟨n, m, u, notes', rfl, member, run, removed⟩
  · refine .inl ⟨if_neg fun inside => ?_, refused run⟩
    have listed : (table x.members).order[k.toNat]? = none := by
      rwa [Table.slotAt?, if_neg (by omega)] at absent
    have := List.getElem?_eq_none_iff.1 listed
    omega
  · obtain ⟨located, without⟩ := ready.without group member removed
    have inside : n < (table x.members).order.length := by
      rw [← whole.length_values]
      exact (List.getElem?_eq_some_iff.1 member).1
    exact .inr ⟨n, m.index, _, if_pos (by omega), located, ran run, without⟩

/-- A removal takes out the member it is about together with its notes, or there is none and nothing changes. -/
theorem Ready.step (ready : Ready x) (r : Removal) :
    (r.place? x.members = none ∧ r.Refused x) ∨ ∃ n i z, r.place? x.members = some n ∧
      (x.members.indices r.group)[n]? = some i ∧ r.Takes x i z ∧ Without x r.group n i z := by
  cases r with
  | member g slot => exact ready.remove_cases g slot
  | position g k => exact ready.removeAt_cases g k

theorem Removal.after_of_takes {r : Removal} {i : Int} (h : r.Takes x i z) : r.after x = z := by
  cases r <;> exact congrArg Prod.snd h

theorem Removal.after_of_refused {r : Removal} (h : r.Refused x) : r.after x = x := by
  cases r <;> exact congrArg Prod.snd h

theorem Orderly.after (h : Orderly x) (r : Removal) : Orderly (r.after x) := by
  cases r with
  | member g slot => exact upholds_remove g slot x h
  | position g k => exact upholds_removeAt g k x h

/-- A removal keeps `Ready`. -/
theorem Ready.after (ready : Ready x) (r : Removal) : Ready (r.after x) := by
  have orderly := ready.orderly.after r
  rcases ready.step r with ⟨-, refused⟩ | ⟨n, i, z, -, -, takes, without⟩
  · rw [Removal.after_of_refused refused]
    exact ready
  · rw [Removal.after_of_takes takes] at orderly ⊢
    refine ⟨orderly, without.linked.trans ready.linked, fun g j mem => ready.below g j ?_⟩
    rw [indices_eq] at mem ⊢
    by_cases same : g = r.group
    · rw [same, without.members] at mem
      rw [same]
      exact List.map_subset _ List.eraseIdx_subset mem
    · rwa [(without.others g same).1] at mem

theorem Ready.run (ready : Ready x) (rs : List Removal) : Ready (rs.foldl Removal.after x) := by
  induction rs generalizing x with
  | nil => exact ready
  | cons r rs ih => exact ih (ready.after r)

/-- For any removals from class data that is linked to a directory and has indices below 2^31: each of them takes out
the member it is about, or none if there is none, which changes nothing. When a member is taken out, its notes are
gone from the directory, and for a method also those about its parameters; all other notes are there with their
offsets, each table of the directory is sorted and counted, and the differences of the members that are left sum up to
their indices. -/
theorem notes_follow_removals (arisen : Arisen x) (linked : x.linked = true)
    (below : ∀ g, ∀ i ∈ x.members.indices g, i < 2 ^ 31) (rs : List Removal) (r : Removal) :
    let y := rs.foldl Removal.after x
    (r.place? y.members = none ∧ r.Refused y) ∨ ∃ n i z, r.place? y.members = some n ∧
      (y.members.indices r.group)[n]? = some i ∧ r.Takes y i z ∧ Without y r.group n i z :=
  Ready.step (Ready.run ⟨arisen.orderly, linked, below⟩ rs) r

/-- A field is removed, and then a method with notes about itself and a parameter. A slot that is not in the table
removes nothing. -/
theorem notes_follow_removals_linked :
    let cur := Cursor.ofBytes [1, 0, 2, 0, 3, 8, 2, 0x81, 0x80, 4, 0x80, 2, 3, 2, 0]
    let notes := (((NoteDirectory.add {} .method 5 0x200).add .method 2 0x100).add .parameter 5 0x300).add .field 3 0x400
    let x : ClassContents := { ((ClassContents.decode cur).apply {}).2 with notes, linked := true }
    let y := [Removal.position .staticField 0].foldl Removal.after x
    (∃ z, (Removal.position .staticField 0).Takes x 3 z ∧ Without x .staticField 0 3 z) ∧
      (∃ z, (Removal.member .directMethod 1).Takes y 5 z ∧ Without y .directMethod 1 5 z) ∧
      (Removal.member .directMethod 2).Refused y := by
  intro cur notes x y
  have sound : notes.Sound := (NoteDirectory.Built.fresh.add .method 5 0x200 |>.add .method 2 0x100
    |>.add .parameter 5 0x300 |>.add .field 3 0x400).sound
  have annotated : ∀ w, Arisen w → Arisen { w with notes, linked := true } := fun w h => .link true (.annotate sound h)
  have arisen : Arisen x := annotated _ (.decode cur .fresh)
  have linked : x.linked = true := rfl
  have below : ∀ g, ∀ i ∈ x.members.indices g, i < 2 ^ 31 := fun g => by cases g <;> decide +kernel
  refine ⟨?_, ?_, ?_⟩
  · have there : (Removal.position .staticField 0).place? x.members = some 0 ∧
        (x.members.indices .staticField)[0]? = some 3 := by decide +kernel
    rcases notes_follow_removals arisen linked below [] (.position .staticField 0) with
      ⟨absent, -⟩ | ⟨n, i, z, place, index, takes, without⟩
    · cases there.1.symm.trans absent
    · cases there.1.symm.trans place
      cases there.2.symm.trans index
      exact ⟨z, takes, without⟩
  · have there : (Removal.member .directMethod 1).place? y.members = some 1 ∧
        (y.members.indices .directMethod)[1]? = some 5 := by decide +kernel
    rcases notes_follow_removals arisen linked below [.position .staticField 0] (.member .directMethod 1) with
      ⟨absent, -⟩ | ⟨n, i, z, place, index, takes, without⟩
    · cases there.1.symm.trans absent
    · cases there.1.symm.trans place
      cases there.2.symm.trans index
      exact ⟨z, takes, without⟩
  · have absent : (Removal.member .directMethod 2).place? y.members = none := by decide +kernel
    rcases notes_follow_removals arisen linked below [.position .staticField 0] (.member .directMethod 2) with
      ⟨-, refused⟩ | ⟨n, i, z, place, -⟩
    · exact refused
    · cases absent.symm.trans place

end ClassContents

end Dalvik
