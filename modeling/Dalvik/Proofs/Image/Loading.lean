import Dalvik.Image.Loader
import Dalvik.Proofs.Image.Code
import Dalvik.Proofs.Image.Parts
import Dalvik.Proofs.Prototype

/-!
# How loading an image ends

Types are put into the pool unchecked, and a prototype keeps its parameters as one run of bytes,
which is split again when its shorty is checked. Where the split is refused, loading faults. This is
the only fault: every other part is read with checks, and the pool never holds a prototype whose
parameters cannot be split.
-/

namespace Dalvik

open Dalvik.Action

namespace Loading

variable {α σ : Type} {s : Loading}

/-- The cursor is sane, and the parameters of every prototype of the pool can be split. -/
structure Fit (s : Loading) : Prop where
  cursor : s.cursor.Sane
  pool : s.pool.Separable

/-- The fault of a prototype whose parameters, types of the pool, cannot be split. -/
def Refused (m : Option Bytes) (s : Loading) : Prop :=
  ∃ (ts : List Descriptor) (e : Failure), (∀ t ∈ ts, t ∈ s.pool.types) ∧
    Prototype.split (ts.flatMap Descriptor.name) = .error (.failure e) ∧ m = some e.message

/-- On a `Fit` state the action succeeds with a `Fit` state, fails, or faults as `Refused` says. -/
def Goes (act : Action Loading α) : Prop := ∀ s, Fit s → Ends Refused act (fun _ t => Fit t) s

theorem Goes.bind {β : Type} {x : Action Loading α} {f : α → Action Loading β} (hx : Goes x) (hf : ∀ a, Goes (f a)) :
    Goes (x >>= f) :=
  fun s hs => ends_bind.2 ((hx s hs).mono fun a t ht => hf a t ht)

theorem Goes.pure (a : α) : Goes (Pure.pure a) := fun _ hs => ends_pure.2 hs

theorem Goes.refuse (cause : Failure) : Goes (Action.refuse cause : Action Loading α) := fun _ _ => ends_refuse.2 trivial

theorem Goes.refuse_bind {β : Type} (cause : Failure) (f : α → Action Loading β) : Goes (Action.refuse cause >>= f) :=
  fun _ _ => ends_bind.2 (ends_refuse.2 trivial)

theorem Goes.ite_bind {β : Type} {p : Prop} [Decidable p] {x y : Action Loading α} {f : α → Action Loading β} (hx : Goes x)
    (hy : Goes y) (hf : ∀ a, Goes (f a)) : Goes (if p then x >>= f else y >>= f) := by
  split
  · exact .bind hx hf
  · exact .bind hy hf

theorem Goes.get : Goes MonadState.get := fun _ hs => ends_get.2 hs

theorem Goes.within {label : Bytes} {act : Action Loading α} (h : Goes act) : Goes (Action.within label act) :=
  fun s hs => ends_within.2 (h s hs)

theorem goes_modify {f : Loading → Loading} (cursor : ∀ s, (f s).cursor = s.cursor) (pool : ∀ s, (f s).pool = s.pool) :
    Goes (modify f : Action Loading PUnit) :=
  fun s hs => ends_modify.2 ⟨by rw [cursor]; exact hs.cursor, by rw [pool]; exact hs.pool⟩

theorem goes_forIn {β : Type} {f : β → Action Loading α} {xs : List β} (h : ∀ x ∈ xs, Goes (f x)) :
    Goes (forIn xs PUnit.unit fun x _ => do let _ ← f x; Pure.pure (.yield PUnit.unit) : Action Loading PUnit) :=
  fun _ hs => ends_forIn (fun x hx s hs => h x hx s hs) hs

theorem goes_tell (e : Event) : Goes (tell e) := goes_modify (fun _ => rfl) fun _ => rfl

theorem goes_remark (level : Nat) (text : Bytes) : Goes (remark level text) := goes_tell _

theorem goes_counted (level : Nat) (before : String) (n : Nat) (after : String) : Goes (counted level before n after) :=
  goes_tell _

/-! ## Reading -/

theorem ends_seek (hs : Fit s) (offset : Nat) : Ends Refused (seek offset) (fun _ t => Fit t ∧ t.pool = s.pool) s := by
  simp only [seek, ends_bind, ends_get, ends_within, ends_modify]
  refine ends_lift (fun m h => ?_) fun c h => ?_
  · unfold Cursor.setPosition at h
    split at h <;> cases h
  · unfold Cursor.setPosition at h
    split at h
    · cases h
    · next inside =>
      cases h
      exact ⟨⟨⟨hs.cursor.size, by simp only; omega⟩, hs.pool⟩, rfl⟩

theorem ends_record (hs : Fit s) (kind : FixedRecord) (offset : Nat) :
    Ends Refused (record kind offset) (fun _ t => Fit t ∧ t.pool = s.pool) s := by
  simp only [record, ends_bind, ends_get, ends_modify]
  refine (ends_seek hs offset).mono fun _ t sought => ?_
  obtain ⟨ht, pool⟩ := sought
  have fit : Fit { t with cursor := { t.cursor with pos := t.cursor.pos + (t.cursor.slice t.cursor.pos kind.size).length } } := by
    refine ⟨⟨ht.cursor.size, ?_⟩, ht.pool⟩
    have := ht.cursor.pos
    rw [Cursor.slice_eq, List.length_take, List.length_drop, Array.length_toList]
    simp only
    omega
  split
  · exact ends_pure.2 ⟨fit, pool⟩
  · exact ends_refuse.2 trivial

theorem goes_record (kind : FixedRecord) (offset : Nat) : Goes (record kind offset) :=
  fun _ hs => (ends_record hs kind offset).mono fun _ _ h => h.1

theorem goes_word (offset : Nat) : Goes (word offset) := .bind (goes_record _ _) fun _ => .pure _

/-- A part whose decoder never faults. -/
theorem goes_part {decode : Cursor → Action σ Cursor} {fresh : σ}
    (h : ∀ c, c.Sane → Ends never (decode c) (fun c' _ => c'.Sane) fresh) (offset : Nat) : Goes (part decode fresh offset) := by
  intro s hs
  simp only [part, ends_bind, ends_get]
  refine (ends_seek hs offset).mono fun _ t sought => ?_
  obtain ⟨ht, -⟩ := sought
  have run := h t.cursor ht.cursor
  simp only [ends_modify, ends_pure]
  refine ends_lift (fun m e => (run.faultless m e).elim) fun c e => ?_
  exact ⟨run.gives (Prod.ext e rfl), ht.pool⟩

theorem ends_ask {look : Pool → Except Stop α} (faultless : Faultless (look s.pool)) :
    Ends Refused (ask look) (fun a t => t = s ∧ look s.pool = .ok a) s := by
  simp only [ask, ends_bind, ends_get]
  exact ends_lift (fun m e => (faultless m e).elim) fun a e => ⟨rfl, e⟩

theorem goes_ask {look : Pool → Except Stop α} (faultless : ∀ p, Faultless (look p)) : Goes (ask look) := by
  intro s hs
  refine (ends_ask (faultless s.pool)).mono fun a t h => ?_
  rw [h.1]
  exact hs

theorem goes_type (i : Int) : Goes (ask (·.type i)) := goes_ask fun _ => Pool.faultless_resolve _ _ _

theorem goes_string (i : Int) : Goes (ask (·.string i)) := goes_ask fun _ => Pool.faultless_resolve _ _ _

/-- `place` of a constant whose prototypes can be split keeps `Fit`. -/
theorem ends_place (hs : Fit s) {k : Constant} (hk : k.Separable) (want : Nat) :
    Ends Refused (place k want) (fun _ t => Fit t) s := by
  simp only [place, ends_bind, ends_get]
  refine ends_lift (fun m e => (Pool.faultless_intern hk m e).elim) fun p run => ?_
  obtain ⟨i, q⟩ := p
  have fit : Fit { s with pool := q } := ⟨hs.cursor, Pool.separable_intern hs.pool run⟩
  simp only [ends_modify]
  split
  · exact ends_refuse.2 trivial
  · exact ends_pure.2 fit

theorem goes_place {k : Constant} (hk : k.Separable) (want : Nat) : Goes (place k want) := fun _ hs => ends_place hs hk want

theorem goes_eachOf {part : Section} {kind : FixedRecord} {act : Nat → Nat → Action Loading PUnit} (h : ∀ i o, Goes (act i o)) :
    Goes (eachOf part kind act) := by
  unfold eachOf
  simp only [Std.Legacy.Range.forIn_eq_forIn_range']
  exact .bind (goes_forIn fun i _ => h i _) fun _ => .pure _

/-! ## Sections -/

theorem goes_readHeader (lenient : Bool) : Goes (readHeader lenient) := by
  unfold readHeader
  refine .bind .get fun s => ?_
  dsimp only
  split
  · exact .refuse_bind _ _
  · refine .bind (goes_part (fun _ hc => Header.ends_decode hc (Header.held_fresh lenient)) 0) fun h => ?_
    refine .bind (goes_modify (fun _ => rfl) fun _ => rfl) fun _ => ?_
    split
    · exact .refuse_bind _ _
    · exact goes_remark _ _

theorem goes_readStrings : Goes readStrings := by
  refine .bind .get fun s => .bind (goes_eachOf fun i offset => ?_) fun _ => goes_counted _ _ _ _
  refine .bind (goes_word _) fun w => .bind (goes_part (fun _ hc => StringItem.careful_decode hc _) _) fun item => ?_
  split
  · exact .refuse _
  · exact goes_place (k := .string _) trivial _

theorem goes_readTypes : Goes readTypes := by
  refine .bind .get fun s => .bind (goes_eachOf fun i offset => ?_) fun _ => goes_counted _ _ _ _
  exact .bind (goes_word _) fun w => .bind (.within (goes_string _)) fun name => goes_place (k := .type _) trivial _

theorem ends_typeList (hs : Fit s) (offset : Nat) :
    Ends Refused (typeList offset) (fun ts t => (∀ u ∈ ts, u ∈ t.pool.types) ∧ Fit t) s := by
  unfold typeList
  split
  · exact ends_pure.2 ⟨by simp, hs⟩
  · simp only [ends_bind]
    refine (goes_word offset s hs).mono fun n t ht => ?_
    simp only [ends_get]
    split
    · exact ends_bind.2 (ends_refuse.2 trivial)
    · next fits =>
      simp only [ends_bind, ends_modify, ends_within]
      have within : t.cursor.pos + n * 2 ≤ t.cursor.data.size := by
        have := ht.cursor.pos
        unfold Cursor.available at fits
        omega
      -- The pool stays as it is while the list is read, so what was found in it is still there at the end.
      have fit : Fit { t with cursor := { t.cursor with pos := t.cursor.pos + n * 2 } } := ⟨⟨ht.cursor.size, within⟩, ht.pool⟩
      refine (ends_mapM (I := fun u => Fit u ∧ u.pool = t.pool) (P := (· ∈ t.pool.types)) (fun i _ u here => ?_)
        ⟨fit, rfl⟩).mono fun ts u read => ?_
      · obtain ⟨hu, same⟩ := here
        refine (ends_ask (Pool.faultless_resolve _ _ _)).mono fun k v asked => ?_
        obtain ⟨e, found⟩ := asked
        rw [e]
        exact ⟨same ▸ Pool.mem_of_type found, hu, same⟩
      · obtain ⟨known, hu, same⟩ := read
        refine ⟨?_, hu⟩
        rw [same]
        exact known

theorem goes_readProtos : Goes readProtos := by
  refine .bind .get fun s => goes_eachOf fun i offset s hs => ?_
  simp only [ends_bind, ends_within]
  refine (goes_record _ _ s hs).mono fun r t ht => ?_
  refine (goes_type _ t ht).mono fun result u hu => ?_
  refine (ends_typeList hu _).mono fun ts v read => ?_
  obtain ⟨known, hv⟩ := read
  simp only [ends_get]
  split
  · exact ends_bind.2 (ends_refuse.2 trivial)
  · refine ends_bind.2 (ends_lift (fun m fault => ?_) fun short run => ?_)
    · obtain ⟨e, refused, rfl⟩ := Prototype.shorty_eq_fault fault
      exact ⟨ts, e, known, refused, rfl⟩
    · split
      · exact ends_bind.2 (ends_refuse.2 trivial)
      · exact ends_place (k := .proto _) hv (Prototype.separable_of_shorty run) _

theorem goes_readFields : Goes readFields := by
  refine .bind .get fun s => goes_eachOf fun i offset => .bind (goes_record _ _) fun r => ?_
  refine .bind (.within ?_) fun f => goes_place (k := .field _) trivial _
  exact .bind (goes_type _) fun _ => .bind (goes_type _) fun _ => .bind (goes_string _) fun _ => .pure _

theorem goes_readMethods : Goes readMethods := by
  refine .bind .get fun s => .bind (goes_eachOf fun i offset s hs => ?_) fun _ => goes_counted _ _ _ _
  simp only [ends_bind, ends_within, ends_pure]
  refine (goes_record _ _ s hs).mono fun r t ht => (goes_type _ t ht).mono fun owner u hu => ?_
  refine (ends_ask (Pool.faultless_resolve _ _ _)).mono fun proto v asked => ?_
  obtain ⟨e, found⟩ := asked
  have separable : proto.Separable := hu.pool proto (Pool.mem_of_proto found)
  rw [e]
  exact (goes_string _ u hu).mono fun name w hw => ends_place (k := .method ⟨owner, name, proto⟩) hw separable _

/-! ## Classes -/

theorem goes_codeOf (label : Bytes) (m : MethodMember) : Goes (codeOf label m) := by
  refine .bind (.within (goes_ask fun _ => Pool.faultless_resolve _ _ _)) fun _ => ?_
  dsimp only
  split
  · exact .pure _
  · refine .bind .get fun s => .bind (goes_part (fun _ hc => ?_) _) fun _ => .pure _
    exact CodeItem.ends_decode hc _

theorem goes_mapM {β : Type} {f : β → Action Loading α} {xs : List β} (h : ∀ x, Goes (f x)) : Goes (xs.mapM f) :=
  fun _ hs => (ends_mapM (P := fun _ => True) (fun x _ s hs => (h x s hs).mono fun _ _ ht => ⟨trivial, ht⟩) hs).mono
    fun _ _ h => h.2

theorem goes_withMembers (c : ClassDef) : Goes (withMembers c) := by
  refine .bind (goes_part (fun _ hc => Members.careful_decode hc _) _) fun m => ?_
  refine .bind (goes_counted _ _ _ _) fun _ => .bind (goes_counted _ _ _ _) fun _ => ?_
  refine .bind (goes_counted _ _ _ _) fun _ => .bind (goes_counted _ _ _ _) fun _ => ?_
  refine .bind (goes_forIn fun f _ => ?_) fun _ => .bind (goes_mapM (goes_codeOf _)) fun _ => .pure _
  exact .within (goes_ask fun _ => Pool.faultless_resolve _ _ _)

theorem goes_optional {read : Action Loading α} (h : Goes read) (offset : Nat) : Goes (optional offset read) := by
  unfold optional
  split
  · exact .pure _
  · exact .bind h fun _ => .pure _

theorem goes_typeList (offset : Nat) : Goes (typeList offset) := fun _ hs => (ends_typeList hs offset).mono fun _ _ h => h.2

theorem goes_classDef (i offset : Nat) : Goes (classDef i offset) := by
  refine .bind (goes_record _ _) fun r => .bind (goes_remark _ _) fun _ => .bind (.within (goes_type _)) fun type => ?_
  refine .ite_bind (.pure _) (.within (goes_type _)) fun super => ?_
  refine .ite_bind (.pure _) (.within (goes_string _)) fun source => .bind (goes_typeList _) fun _ => ?_
  refine .bind (goes_optional (goes_part (fun _ hc => NoteDirectory.careful_decode hc _) _) _) fun _ => ?_
  refine .bind (goes_optional (goes_part (fun _ hc => ValueArray.careful_decode hc _) _) _) fun _ => ?_
  dsimp only
  split
  · exact .bind (goes_remark _ _) fun _ => .pure _
  · exact goes_withMembers _

theorem goes_reportClass (c : ClassDef) : Goes (reportClass c) :=
  .bind .get fun _ => .bind (goes_tell _) fun _ => .bind (goes_forIn fun _ _ => goes_tell _) fun _ => goes_tell _

theorem goes_readClasses : Goes readClasses := by
  refine .bind .get fun s => .bind (goes_counted _ _ _ _) fun _ => goes_eachOf fun i offset => ?_
  refine .bind (goes_classDef i offset) fun c => .bind (goes_modify (fun _ => rfl) fun _ => rfl) fun _ => ?_
  exact goes_reportClass c

/-- Reading all sections succeeds with a `Fit` state, fails, or faults as `Refused` says. -/
theorem goes_all (name : Bytes) (lenient : Bool) : Goes (all name lenient) :=
  .bind (goes_readHeader lenient) fun _ => .bind goes_readStrings fun _ => .bind goes_readTypes fun _ =>
    .bind goes_readProtos fun _ => .bind goes_readFields fun _ => .bind goes_readMethods fun _ =>
      .bind .get fun _ => .bind (goes_tell _) fun _ => goes_readClasses

end Loading

/-! ## Images -/

/-- The state after reading an image of the given bytes, also if reading stopped. -/
def LoadOptions.read (o : LoadOptions) (data : Bytes) : Loading :=
  ((Loading.all o.name o.lenient).apply { cursor := .ofBytes data }).2

theorem fit_start {data : Bytes} (small : (data.length : Int) ≤ maxRun) : Loading.Fit { cursor := .ofBytes data } where
  cursor := ⟨by simpa [Cursor.ofBytes] using small, Nat.zero_le _⟩
  pool := by simp [Pool.Separable]

theorem Source.faultless_readAll (source : Source) : Faultless source.readAll := by
  unfold readAll
  split
  · exact .fail _
  · exact .fail _
  · exact .ok _

theorem Source.eq_of_readAll {source : Source} {data : Bytes} (h : source.readAll = .ok data) : data = source.data := by
  unfold readAll at h
  split at h
  · cases h
  · cases h
  · cases h
    rfl

/-- A fault of `load` is one of reading the sections. -/
theorem refused_of_load {o : LoadOptions} {source : Source} {expected : Nat} {m : Option Bytes}
    (small : (source.data.length : Int) ≤ maxRun) (fault : (load o source expected).1 = .error (.fault m)) :
    Loading.Refused m (o.read source.data) := by
  unfold load at fault
  cases data : source.readAll with
  | error stop =>
    rw [data] at fault
    cases stop with
    | failure cause => cases fault
    | fault m => exact (source.faultless_readAll m data).elim
  | ok bytes =>
    obtain rfl := Source.eq_of_readAll data
    have ends := Loading.goes_all o.name o.lenient _ (fit_start small)
    rw [data] at fault
    simp only [labelled, Except.mapError] at fault
    split at fault
    · cases fault
    · rcases run : (Loading.all o.name o.lenient).apply { cursor := .ofBytes source.data } with ⟨r, t⟩
      rw [apply_within, run] at fault
      have left : o.read source.data = t := by rw [LoadOptions.read, run]
      rw [left]
      cases r with
      | ok v => cases fault
      | error stop =>
        cases stop with
        | failure cause => cases fault
        | fault m =>
          cases fault
          exact ends.faults run

/-- `load` of any bytes gives a file or a failure, or it faults. It faults only if a prototype has parameters, all of
them types of the pool and not all of them valid descriptors, that `split` refuses, and the fault carries the message
of that refusal. -/
theorem load_ends (o : LoadOptions) (source : Source) (expected : Nat) (small : (source.data.length : Int) ≤ maxRun) :
    (∃ file, (load o source expected).1 = .ok file) ∨ (∃ cause, (load o source expected).1 = .error (.failure cause)) ∨
      ∃ (ts : List Descriptor) (cause : Failure), (∀ t ∈ ts, t ∈ (o.read source.data).pool.types) ∧
        (∃ t ∈ ts, Descriptor.isValid t.name = false) ∧
        Prototype.split (ts.flatMap Descriptor.name) = .error (.failure cause) ∧
        (load o source expected).1 = .error (.fault (some cause.message)) := by
  have kinds : ∀ r : Except Stop ImageFile,
      (∃ file, r = .ok file) ∨ (∃ cause, r = .error (.failure cause)) ∨ ∃ m, r = .error (.fault m) := by
    rintro (stop | file)
    · cases stop with
      | failure cause => exact .inr (.inl ⟨cause, rfl⟩)
      | fault m => exact .inr (.inr ⟨m, rfl⟩)
    · exact .inl ⟨file, rfl⟩
  rcases kinds (load o source expected).1 with ok | failure | ⟨m, fault⟩
  · exact .inl ok
  · exact .inr (.inl failure)
  · obtain ⟨ts, cause, known, refused, rfl⟩ := refused_of_load small fault
    exact .inr (.inr ⟨ts, cause, known, Prototype.exists_invalid refused, refused, fault⟩)

/-- Whether a run ends in a fault. -/
def isFault {α : Type} : Except Stop α → Bool
  | .error (.fault _) => true
  | _ => false

/-- An image with the types `L` and `V`, the first of which is no descriptor, and the prototype from `L` to `V`. -/
def loneLetter : Bytes :=
  let words (ns : List UInt32) := ns.flatMap bytesU32
  let header : Header := { fileSize := 162, strings := ⟨3, 112⟩, types := ⟨2, 124⟩, protos := ⟨1, 132⟩ }
  header.bytes ++ words [152, 155, 158] ++ words [0, 1] ++ words [2, 1, 144] ++ words [1] ++ bytesU16 0 ++ bytesU16 0 ++
    [1] ++ ascii "L" ++ [0] ++ [1] ++ ascii "V" ++ [0] ++ [2] ++ ascii "VL" ++ [0]

/-- Loading that image faults. -/
theorem load_ends_loneLetter : (loneLetter.length : Int) ≤ maxRun ∧
    ∃ (ts : List Descriptor) (cause : Failure),
      (∀ t ∈ ts, t ∈ (LoadOptions.read { name := ascii "classes.dex" } loneLetter).pool.types) ∧
      (∃ t ∈ ts, Descriptor.isValid t.name = false) ∧ Prototype.split (ts.flatMap Descriptor.name) = .error (.failure cause) ∧
      (load { name := ascii "classes.dex" } { data := loneLetter } 162).1 = .error (.fault (some cause.message)) := by
  have small : (loneLetter.length : Int) ≤ maxRun := by decide +kernel
  have stopped : isFault (load { name := ascii "classes.dex" } { data := loneLetter } 162).1 = true := by decide +kernel
  refine ⟨small, ?_⟩
  have ends := load_ends { name := ascii "classes.dex" } { data := loneLetter } 162 small
  dsimp only at ends
  rcases ends with ⟨file, e⟩ | ⟨cause, e⟩ | fault
  · rw [e] at stopped
    cases stopped
  · rw [e] at stopped
    cases stopped
  · exact fault

end Dalvik
