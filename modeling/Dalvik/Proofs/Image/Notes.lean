import Dalvik.Image.NoteDirectory
import Dalvik.Proofs.Table

/-!
# Note directories

A table of a directory is `Sound` if its slots are in order and its size cell is the number of
entries. All operations on directories keep their three tables sound (`Built.sound`). `detach`
filters the tables that have notes about a kind of member, and `sort` of a sound directory always
succeeds, so both together leave the other entries, sorted by index (`NoteDirectory.Sound.sort`).
-/

namespace Dalvik

/-- The entry stores the index `i`, read as a signed or as an unsigned number. -/
def NoteEntry.Names (e : NoteEntry) (i : Int) : Prop := signed32 e.index = i ∨ (e.index.toNat : Int) = i

instance (e : NoteEntry) (i : Int) : Decidable (e.Names i) := inferInstanceAs (Decidable (_ ∨ _))

/-- For indices below 2^31 the signed and the unsigned number agree. -/
theorem NoteEntry.names_iff {e : NoteEntry} {i : Int} (below : i < 2 ^ 31) : e.Names i ↔ signed32 e.index = i := by
  refine ⟨?_, .inl⟩
  rintro (same | same)
  · exact same
  · rw [← ofInt_toNat e.index, same, signed32_ofInt (by omega) below]

namespace NoteTable

variable {t u : NoteTable} {i : Int}

/-- The table is well formed, and its size cell is the number of entries. -/
structure Sound (t : NoteTable) : Prop where
  whole : Table.Whole t
  count : t.count = some (.int (UInt32.ofNat t.values.length))

/-- Setting the size cell makes a well-formed table sound. -/
theorem sound_of_count (whole : Table.Whole u) {v : UInt32} (old : t.count = some (.int v))
    (count : u.count = t.count.map (·.set u.order.length)) : Sound u where
  whole := whole
  count := by
    rw [count, old, whole.length_values]
    refine congrArg (fun n => some (Cell.int n)) ?_
    rw [← UInt32.toNat_inj, UInt32.ofInt, UInt32.toNat_ofNat', UInt32.toNat_ofNat']
    omega

theorem orders_order : Table.Orders NoteEntry.order fun e => (e.index.toNat : Int) := by
  intro x y
  rw [NoteEntry.order, bne_iff_ne, ne_eq, compare_gt_iff_gt]
  dsimp only
  omega

namespace Sound

variable (sound : Sound t)
include sound

theorem add (index offset : Int) : Sound (t.add index offset) :=
  sound_of_count (sound.whole.push _) sound.count rfl

theorem detach (i : Int) : Sound (t.detach i).2 ∧ (t.detach i).2.values = t.values.filter fun e => signed32 e.index ≠ i := by
  obtain ⟨whole, count, values⟩ := sound.whole.removeIf fun e => decide (signed32 e.index = i)
  refine ⟨sound_of_count whole sound.count count, values.trans (List.filter_congr fun e _ => ?_)⟩
  exact (decide_not ..).symm

theorem sort : ∃ moved u, Table.sort t NoteEntry.order = .ok (moved, u) ∧ Sound u ∧ u.values.Perm t.values ∧
    u.values.Pairwise fun x y => x.index.toNat ≤ y.index.toNat := by
  obtain ⟨moved, u, run, whole, count, perm, sorted, -⟩ := sound.whole.sort orders_order
  refine ⟨moved, u, run, ⟨whole, ?_⟩, perm, sorted.imp Int.ofNat_le.1⟩
  rw [count, sound.count, perm.length_eq]

theorem updateCount : Sound (Table.updateCount t) :=
  sound_of_count sound.whole.updateCount sound.count rfl

/-- A table that was decoded is sound. -/
theorem decode {c₁ c₁' c₂ c₂' : Cursor} {v : NoteTable} (count : (Table.decodeCount c₁).Gives t c₁' u)
    (entries : (Table.decode {} NoteEntry.decode c₂).Gives u c₂' v) : Sound v := by
  have whole : Table.Whole u := (Table.upholds_decodeCount c₁).gives sound.whole count
  obtain ⟨old, stored⟩ : ∃ n, t.count = some (.int n) := ⟨_, sound.count⟩
  obtain ⟨cell, read, rfl⟩ := Table.exists_decodeCount stored count
  obtain ⟨n, rfl, -⟩ : ∃ n, cell = .int n ∧ (decodeU32 c₁).Gives old c₁' n := by
    simpa only [Cell.decode, Action.gives_of, gives_wrapping] using read
  obtain ⟨whole', count'⟩ := Table.whole_decode {} NoteEntry.decode c₂ whole
  rw [show Action.apply _ _ = _ from entries] at whole' count'
  exact sound_of_count whole' rfl count'

end Sound

end NoteTable

namespace NoteDirectory

variable {d e : NoteDirectory} {i : Int}

/-- Each of the three tables is sound. -/
def Sound (d : NoteDirectory) : Prop := ∀ k, (d.table k).Sound

theorem sound_fresh : Sound {} := by
  have fresh : NoteTable.fresh.Sound := ⟨Table.whole_filled (some (.int 0)) [], rfl⟩
  intro k
  cases k <;> exact fresh

theorem Sound.mk' (fields : d.fields.Sound) (methods : d.methods.Sound) (parameters : d.parameters.Sound) : d.Sound := by
  intro k
  cases k
  · exact fields
  · exact methods
  · exact parameters

/-- `e` is the directory `d` with each table sorted by index. -/
structure Sorted (d e : NoteDirectory) : Prop where
  sound : e.Sound
  classNotes : e.classNotes = d.classNotes
  perm : ∀ k, (e.table k).values.Perm (d.table k).values
  sorted : ∀ k, (e.table k).values.Pairwise fun x y => x.index.toNat ≤ y.index.toNat

/-- `sort` of a sound directory succeeds. -/
theorem Sound.sort (sound : d.Sound) : ∃ moved e, d.sort = .ok (moved, e) ∧ Sorted d e := by
  obtain ⟨a, fields, run₁, sound₁, perm₁, sorted₁⟩ := (sound .field).sort
  obtain ⟨b, methods, run₂, sound₂, perm₂, sorted₂⟩ := (sound .method).sort
  obtain ⟨c, parameters, run₃, sound₃, perm₃, sorted₃⟩ := (sound .parameter).sort
  refine ⟨a || b || c, { d with fields, methods, parameters }, ?_, .mk' sound₁ sound₂ sound₃, rfl, fun k => ?_, fun k => ?_⟩
  · rw [NoteDirectory.sort, show Table.sort d.fields NoteEntry.order = _ from run₁,
      show Table.sort d.methods NoteEntry.order = _ from run₂, show Table.sort d.parameters NoteEntry.order = _ from run₃]
    rfl
  · cases k
    · exact perm₁
    · exact perm₂
    · exact perm₃
  · cases k
    · exact sorted₁
    · exact sorted₂
    · exact sorted₃

/-! ## Detaching a member -/

/-- The tables with notes about fields. -/
def ofField : NoteGroup → Bool
  | .field => true
  | .method | .parameter => false

/-- The tables with notes about methods. -/
def ofMethod : NoteGroup → Bool
  | .field => false
  | .method | .parameter => true

theorem table_detachField (k : NoteGroup) :
    (d.detachField i).2.table k = if ofField k then ((d.table k).detach i).2 else d.table k := by
  cases k <;> rfl

theorem table_detachMethod (k : NoteGroup) :
    (d.detachMethod i).2.table k = if ofMethod k then ((d.table k).detach i).2 else d.table k := by
  cases k <;> rfl

/-- `e` is the directory `d` after a member with index `i` was detached from the tables `noted`. -/
structure Detached (noted : NoteGroup → Bool) (i : Int) (d e : NoteDirectory) : Prop where
  sound : e.Sound
  classNotes : e.classNotes = d.classNotes
  values : ∀ k, (e.table k).values =
    if noted k then (d.table k).values.filter fun x => signed32 x.index ≠ i else (d.table k).values

theorem Sound.detached_of_table (sound : d.Sound) {noted : NoteGroup → Bool} (classNotes : e.classNotes = d.classNotes)
    (table : ∀ k, e.table k = if noted k then ((d.table k).detach i).2 else d.table k) : Detached noted i d e where
  sound k := by
    rw [table]
    split
    · exact ((sound k).detach i).1
    · exact sound k
  classNotes := classNotes
  values k := by
    rw [table]
    split
    · exact ((sound k).detach i).2
    · rfl

theorem Sound.detachField (sound : d.Sound) (i : Int) : Detached ofField i d (d.detachField i).2 :=
  sound.detached_of_table rfl table_detachField

theorem Sound.detachMethod (sound : d.Sound) (i : Int) : Detached ofMethod i d (d.detachMethod i).2 :=
  sound.detached_of_table rfl table_detachMethod

/-! ## Directories that are made, read and edited -/

/-- Directories that the operations lead to. -/
inductive Built : NoteDirectory → Prop where
  | fresh : Built {}
  | decode {x y : NoteDirectory} {c c' : Cursor} (run : (NoteDirectory.decode c).Gives x c' y) : Built x → Built y
  | setClassNotes {x : NoteDirectory} (offset : UInt32) : Built x → Built { x with classNotes := offset }
  | add {x : NoteDirectory} (k : NoteGroup) (index offset : Int) : Built x → Built (x.add k index offset)
  | detachField {x : NoteDirectory} (i : Int) : Built x → Built (x.detachField i).2
  | detachMethod {x : NoteDirectory} (i : Int) : Built x → Built (x.detachMethod i).2
  | sort {x y : NoteDirectory} {moved : Bool} (run : x.sort = .ok (moved, y)) : Built x → Built y
  | refresh {x y : NoteDirectory} (run : x.refresh = .ok y) : Built x → Built y

theorem Sound.decode {c c' : Cursor} (sound : d.Sound) (run : (NoteDirectory.decode c).Gives d c' e) : e.Sound := by
  simp only [NoteDirectory.decode, Action.gives_bind, Action.gives_on] at run
  obtain ⟨_, _, ⟨_, _, rfl⟩, _, _, ⟨fields, count₁, rfl⟩, _, _, ⟨methods, count₂, rfl⟩, _, _, ⟨parameters, count₃, rfl⟩,
    _, _, ⟨fields', entries₁, rfl⟩, _, _, ⟨methods', entries₂, rfl⟩, parameters', entries₃, rfl⟩ := run
  exact .mk' ((sound .field).decode count₁ entries₁) ((sound .method).decode count₂ entries₂)
    ((sound .parameter).decode count₃ entries₃)

/-- All operations keep the tables sound. -/
theorem Built.sound (built : Built d) : d.Sound := by
  induction built with
  | fresh => exact sound_fresh
  | decode run _ ih => exact ih.decode run
  | setClassNotes offset _ ih => exact .mk' (ih .field) (ih .method) (ih .parameter)
  | add k index offset _ ih =>
    cases k
    · exact .mk' ((ih .field).add index offset) (ih .method) (ih .parameter)
    · exact .mk' (ih .field) ((ih .method).add index offset) (ih .parameter)
    · exact .mk' (ih .field) (ih .method) ((ih .parameter).add index offset)
  | detachField i _ ih => exact (ih.detachField i).sound
  | detachMethod i _ ih => exact (ih.detachMethod i).sound
  | sort run _ ih =>
    obtain ⟨moved, e, run', sorted⟩ := ih.sort
    cases run'.symm.trans run
    exact sorted.sound
  | refresh run _ ih =>
    obtain ⟨moved, e, run', sorted⟩ := ih.sort
    rw [NoteDirectory.refresh, run'] at run
    cases run
    exact .mk' (sorted.sound .field).updateCount (sorted.sound .method).updateCount (sorted.sound .parameter).updateCount

end NoteDirectory

end Dalvik
