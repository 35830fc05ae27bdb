import Dalvik.Image.Loader
import Dalvik.Proofs.Faults
import Dalvik.Proofs.Pool
import Mathlib.Logic.Function.Basic

/-!
# The indices of an image

`constantAt?` says which constant an item of an image stands for, by its bytes alone. Loading puts
the items of each section into the pool in order, and checks that each gets the index it has in the
file. A prototype also brings in the types that its parameters are split into; if every type of the
file is a valid descriptor these are the ones it lists, and the pool holds the sections of the file
and nothing else (`load_indices`).
-/

namespace Dalvik

open Dalvik.Action

/-! ## Readers that go forward -/

section Forward

variable {σ τ : Type} {c : Cursor}

/-- The reader changes only the position of the cursor. -/
def Forward (c : Cursor) (act : Action σ Cursor) : Prop := ∀ x c' y, act.Gives x c' y → c' = { c with pos := c'.pos }

theorem Forward.bind {x : Action σ Cursor} {f : Cursor → Action σ Cursor} (hx : Forward c x) (hf : ∀ c, Forward c (f c)) :
    Forward c (x >>= f) := by
  intro s c₂ t run
  obtain ⟨c₁, u, first, second⟩ := gives_bind.1 run
  have h₁ := hx _ _ _ first
  have h₂ := hf _ _ _ _ second
  rw [h₁] at h₂
  exact h₂

theorem Forward.get_bind {f : σ → Action σ Cursor} (hf : ∀ s, Forward c (f s)) : Forward c (MonadState.get >>= f) := by
  intro s c' t run
  obtain ⟨x, _, -, run⟩ := gives_bind.1 run
  exact hf x _ _ _ run

theorem Forward.on {get : σ → τ} {put : τ → σ → σ} {act : Action τ Cursor} (h : Forward c act) : Forward c (on get put act) := by
  intro s c' t run
  obtain ⟨v, run, -⟩ := gives_on.1 run
  exact h _ _ _ run

theorem Forward.pure (c : Cursor) : Forward c (Pure.pure c : Action σ Cursor) := by
  intro s c' t run
  obtain ⟨rfl, -⟩ := gives_pure.1 run
  rfl

theorem Forward.refuse {cause : Failure} : Forward c (Action.refuse cause : Action σ Cursor) :=
  fun _ _ _ run => (not_gives_refuse run).elim

theorem number_forward {c' : Cursor} {width v : Nat} (h : c.number width = .ok (v, c')) : c' = { c with pos := c'.pos } := by
  unfold Cursor.number at h
  obtain ⟨_, -, e⟩ := except_bind_eq_ok.1 h
  cases e
  rfl

theorem bytes_forward {c' : Cursor} {n : Int} {b : Bytes} (h : c.bytes n = .ok (b, c')) : c' = { c with pos := c'.pos } := by
  unfold Cursor.bytes at h
  obtain ⟨_, -, e⟩ := except_bind_eq_ok.1 h
  cases e
  rfl

theorem forward_u32 (c : Cursor) : Forward c (decodeU32 c) := by
  intro x c' y run
  simp only [decodeU32, decodeFixed, gives_of] at run
  split at run
  · next read =>
    cases run
    obtain ⟨_, inner, e⟩ := except_bind_eq_ok.1 read
    cases e
    exact number_forward inner
  · cases run

theorem forward_run (c : Cursor) : Forward c (decodeRun c) := by
  intro x c' y run
  simp only [decodeRun, gives_of] at run
  split at run
  · next read =>
    cases run
    exact bytes_forward read
  · cases run

theorem forward_signature (c : Cursor) : Forward c (Signature.decode c) := by
  intro x c' y run
  simp only [Signature.decode, gives_of] at run
  split at run
  · cases run
  · next read =>
    split at run
    · cases run
      exact bytes_forward read
    · cases run

theorem Section.forward (c : Cursor) : Forward c (Section.decode c) :=
  .bind (.on (forward_u32 c)) fun c => .on (forward_u32 c)

theorem Header.forward_fields (c : Cursor) : Forward c (decodeFields c) := by
  refine .bind (.on (forward_signature c)) fun c => .bind (.on (forward_run c)) fun c => ?_
  refine .bind (.on (forward_u32 c)) fun c => .bind (.on (forward_run c)) fun c => ?_
  refine .bind (.on (forward_u32 c)) fun c => .bind (.on (forward_u32 c)) fun c => ?_
  refine .bind (.on (forward_u32 c)) fun c => .bind (.on (Section.forward c)) fun c => ?_
  refine .bind (.on (forward_u32 c)) fun c => .bind (.on (Section.forward c)) fun c => ?_
  refine .bind (.on (Section.forward c)) fun c => .bind (.on (Section.forward c)) fun c => ?_
  refine .bind (.on (Section.forward c)) fun c => .bind (.on (Section.forward c)) fun c => ?_
  exact .bind (.on (Section.forward c)) fun c => .on (Section.forward c)

theorem Header.forward (c : Cursor) : Forward c (Header.decode c) := by
  refine .bind (Header.forward_fields c) fun c => .get_bind fun h => ?_
  split
  · exact .pure c
  split
  · exact .refuse
  split
  · exact .refuse
  split
  · exact .pure c
  split
  · exact .refuse
  · exact .refuse

theorem StringItem.forward (c : Cursor) : Forward c (StringItem.decode c) := by
  refine .bind (.on fun x c' y run => ?_) fun c => ?_
  · exact (gives_uleb.1 run).2.next ▸ rfl
  · dsimp only
    split
    · exact .refuse
    · intro s c' t run
      simp only [gives_bind, gives_lift, gives_modify, gives_pure] at run
      obtain ⟨⟨_, c₂⟩, _, ⟨read, -⟩, _, _, -, ⟨_, c₃⟩, _, ⟨last, -⟩, rfl, -⟩ := run
      obtain ⟨_, inner, e⟩ := except_bind_eq_ok.1 last
      cases e
      have h₁ := bytes_forward read
      have h₂ := number_forward inner
      rw [h₁] at h₂
      exact h₂

end Forward

/-! ## What items stand for -/

namespace Header

/-- The section that lists the constants of a kind. -/
def sectionOf (h : Header) : Kind → Section
  | .string => h.strings
  | .type => h.types
  | .proto => h.protos
  | .field => h.fields
  | .method => h.methods
  | _ => {}

/-- The number of constants of a kind that the file lists. -/
def count (h : Header) (kind : Kind) : Nat := (h.sectionOf kind).size.toNat

end Header

open Loading (wordAt halfAt)

/-- The bytes at an offset, if there are so many. -/
def bytesAt? (data : Bytes) (offset size : Nat) : Option Bytes :=
  if ((data.drop offset).take size).length = size then some ((data.drop offset).take size) else none

variable (data : Bytes) (h : Header)

/-- The record of an item of a section. -/
def itemAt? (kind : Kind) (record : FixedRecord) (i : Nat) : Option Bytes :=
  if i < h.count kind then bytesAt? data ((h.sectionOf kind).offset.toNat + record.size * i) record.size else none

def stringAt? (i : Nat) : Option Bytes := do
  let r ← itemAt? data h .string .word i
  match (StringItem.decode { data := data.toArray, pos := wordAt r 0 }).apply {} with
  | (.ok _, item) => if item.value.2 = none then some item.value.1 else none
  | _ => none

def typeAt? (i : Nat) : Option Descriptor := do
  let r ← itemAt? data h .type .word i
  return ⟨← stringAt? data h (wordAt r 0)⟩

/-- The types of the list at an offset; the offset 0 is the empty list. -/
def typesAt? (offset : Nat) : Option (List Descriptor) :=
  if offset = 0 then some []
  else do
    let n := wordAt (← bytesAt? data offset 4) 0
    let r ← bytesAt? data (offset + 4) (n * 2)
    (List.range n).mapM fun i => typeAt? data h (halfAt r (2 * i))

def protoAt? (i : Nat) : Option Prototype := do
  let r ← itemAt? data h .proto .proto i
  return .of (← typeAt? data h (wordAt r 4)) (← typesAt? data h (wordAt r 8))

def fieldAt? (i : Nat) : Option FieldRef := do
  let r ← itemAt? data h .field .field i
  return ⟨← typeAt? data h (halfAt r 0), ← stringAt? data h (wordAt r 4), ← typeAt? data h (halfAt r 2)⟩

def methodAt? (i : Nat) : Option MethodRef := do
  let r ← itemAt? data h .method .method i
  return ⟨← typeAt? data h (halfAt r 0), ← stringAt? data h (wordAt r 4), ← protoAt? data h (halfAt r 2)⟩

/-- The constant that an item of a file stands for. -/
def constantAt? (kind : Kind) (i : Nat) : Option Constant :=
  match kind with
  | .string => (stringAt? data h i).map .string
  | .type => (typeAt? data h i).map .type
  | .proto => (protoAt? data h i).map .proto
  | .field => (fieldAt? data h i).map .field
  | .method => (methodAt? data h i).map .method
  | _ => none

namespace Loading

variable {data : Bytes} {h : Header} {done : Kind → Nat} {s t : Loading} {α : Type}

/-! ## Reading -/

/-- Only the position and the warnings have changed. -/
structure Moved (s t : Loading) : Prop where
  cursor : t.cursor = { s.cursor with pos := t.cursor.pos }
  header : t.header = s.header
  pool : t.pool = s.pool

theorem Moved.refl (s : Loading) : Moved s s := ⟨rfl, rfl, rfl⟩

theorem Moved.trans {u : Loading} (h : Moved s t) (h' : Moved t u) : Moved s u :=
  ⟨by rw [h'.cursor, h.cursor], h'.header.trans h.header, h'.pool.trans h.pool⟩

/-- The cursor reads from `data`. -/
def Over (data : Bytes) (s : Loading) : Prop := s.cursor = { data := data.toArray, pos := s.cursor.pos }

theorem Moved.whole (h : Moved s t) (hs : Over data s) : Over data t := by
  rw [Over, h.cursor, hs]

theorem gives_seek {offset : Nat} {v : PUnit} (run : (seek offset).Gives s v t) :
    Moved s t ∧ t.cursor.pos = offset := by
  simp only [seek, gives_bind, gives_get, gives_within, gives_lift, gives_modify] at run
  obtain ⟨_, _, ⟨rfl, rfl⟩, c, _, ⟨found, rfl⟩, rfl⟩ := run
  unfold Cursor.setPosition at found
  split at found
  · cases found
  · cases found
    exact ⟨⟨rfl, rfl, rfl⟩, rfl⟩

theorem slice_of_over (hs : Over data s) (start n : Nat) : s.cursor.slice start n = (data.drop start).take n := by
  rw [hs]
  simp [Cursor.slice, List.extract_eq_take_drop]

theorem gives_record {kind : FixedRecord} {offset : Nat} {r : Bytes} (hs : Over data s)
    (run : (record kind offset).Gives s r t) :
    bytesAt? data offset kind.size = some r ∧ Moved s t ∧ t.cursor.pos = offset + kind.size := by
  simp only [record, gives_bind, gives_get, gives_modify] at run
  obtain ⟨_, u, sought, _, _, ⟨rfl, rfl⟩, _, _, rfl, run⟩ := run
  obtain ⟨moved, located⟩ := gives_seek sought
  rw [slice_of_over (moved.whole hs), located] at run
  split at run
  · next whole =>
    obtain ⟨rfl, rfl⟩ := gives_pure.1 run
    refine ⟨by rw [bytesAt?, if_pos whole], moved.trans ⟨rfl, rfl, rfl⟩, ?_⟩
    rw [whole]
  · simp at run

theorem gives_word {offset w : Nat} (hs : Over data s) (run : (word offset).Gives s w t) :
    (∃ r, bytesAt? data offset FixedRecord.word.size = some r ∧ w = wordAt r 0) ∧ Moved s t ∧ t.cursor.pos = offset + 4 := by
  simp only [word, gives_bind, gives_pure] at run
  obtain ⟨r, _, read, rfl, rfl⟩ := run
  obtain ⟨found, moved, located⟩ := gives_record hs read
  exact ⟨⟨r, found, rfl⟩, moved, located⟩

@[simp] theorem gives_ask {look : Pool → Except Stop α} {a : α} : (ask look).Gives s a t ↔ look s.pool = .ok a ∧ s = t := by
  simp only [ask, gives_bind, gives_get, gives_lift]
  constructor
  · rintro ⟨_, _, ⟨rfl, rfl⟩, run⟩
    exact run
  · rintro ⟨found, rfl⟩
    exact ⟨s, s, ⟨rfl, rfl⟩, found, rfl⟩

/-- A part is decoded at its offset in the data. -/
theorem gives_part {σ : Type} {decode : Cursor → Action σ Cursor} {fresh x : σ} {offset : Nat} (hs : Over data s)
    (forward : ∀ c, Forward c (decode c)) (run : (part decode fresh offset).Gives s x t) :
    (∃ c', (decode { data := data.toArray, pos := offset }).Gives fresh c' x) ∧ Moved s t := by
  simp only [part, gives_bind, gives_get] at run
  obtain ⟨_, u, sought, _, _, ⟨rfl, rfl⟩, run⟩ := run
  obtain ⟨moved, located⟩ := gives_seek sought
  have start : u.cursor = { data := data.toArray, pos := offset } := by
    rw [← located]
    exact moved.whole hs
  rcases decoded : (decode u.cursor).apply fresh with ⟨r, y⟩
  rw [decoded] at run
  simp only [gives_lift, gives_modify, gives_pure] at run
  obtain ⟨c', _, ⟨rfl, rfl⟩, _, _, rfl, rfl, rfl⟩ := run
  exact ⟨⟨c', by rw [← start]; exact decoded⟩, moved.trans ⟨forward _ _ _ _ decoded, rfl, rfl⟩⟩

/-- Looking up each element of a list changes nothing. -/
theorem gives_mapM_ask {β : Type} {look : β → Pool → Except Stop α} (den : β → Option α) {xs : List β} {ys : List α}
    (found : ∀ x a, look x s.pool = .ok a → den x = some a)
    (run : (xs.mapM fun x => (ask (look x) : Action Loading α)).Gives s ys t) :
    xs.mapM den = some ys ∧ (∀ y ∈ ys, ∃ x, look x s.pool = .ok y) ∧ s = t := by
  induction xs generalizing ys with
  | nil =>
    rw [List.mapM_nil, gives_pure] at run
    obtain ⟨rfl, rfl⟩ := run
    exact ⟨rfl, by simp, rfl⟩
  | cons x xs ih =>
    simp only [List.mapM_cons, gives_bind, gives_ask, gives_pure] at run
    obtain ⟨a, _, ⟨here, rfl⟩, as, _, rest, rfl, rfl⟩ := run
    obtain ⟨read, asked, rfl⟩ := ih rest
    exact ⟨by rw [List.mapM_cons, found x a here, read]; rfl, List.forall_mem_cons.2 ⟨⟨x, here⟩, asked⟩, rfl⟩

/-! ## Taking constants in -/

/-- The pool holds, for each kind, the first `done kind` items of the file, and nothing else. -/
structure Agrees (data : Bytes) (h : Header) (done : Kind → Nat) (s : Loading) : Prop where
  whole : Over data s
  header : s.header = h
  sound : s.pool.Sound
  length : ∀ kind, (s.pool.entries kind).length = done kind
  entry : ∀ kind i, i < done kind → ∃ k, constantAt? data h kind i = some k ∧ (s.pool.entries kind)[i]? = some k

theorem Agrees.moved (hs : Agrees data h done s) (moved : Moved s t) : Agrees data h done t where
  whole := moved.whole hs.whole
  header := moved.header.trans hs.header
  sound := moved.pool ▸ hs.sound
  length kind := by rw [moved.pool, hs.length]
  entry kind i lt := by
    rw [moved.pool]
    exact hs.entry kind i lt

/-- A constant that is looked up is in the pool, and is what the item of its index stands for. -/
theorem Agrees.lookup (hs : Agrees data h done s) {kind : Kind} {n : Nat} {k : Constant} (found : s.pool.lookup kind n = .ok k) :
    constantAt? data h kind n = some k ∧ k ∈ s.pool := by
  obtain ⟨m, same, located⟩ := Pool.lookup_eq_ok.1 found
  obtain rfl : n = m := Int.natCast_inj.1 same
  have lt := (List.getElem?_eq_some_iff.1 located).1
  obtain ⟨k', stands, at'⟩ := hs.entry kind n (by rw [← hs.length kind]; exact lt)
  rw [located] at at'
  cases at'
  exact ⟨stands, Pool.mem_of_mem_entries (List.mem_of_getElem? located)⟩

theorem Agrees.string (hs : Agrees data h done s) {n : Nat} {v : Bytes} (found : s.pool.string n = .ok v) :
    stringAt? data h n = some v ∧ .string v ∈ s.pool := by
  have looked : s.pool.lookup .string n = .ok (.string v) := except_bind_eq_ok.2 ⟨v, found, rfl⟩
  obtain ⟨stands, member⟩ := hs.lookup looked
  obtain ⟨_, read, e⟩ := Option.map_eq_some_iff.1 stands
  cases e
  exact ⟨read, member⟩

theorem Agrees.type (hs : Agrees data h done s) {n : Nat} {k : Descriptor} (found : s.pool.type n = .ok k) :
    typeAt? data h n = some k ∧ .type k ∈ s.pool := by
  have looked : s.pool.lookup .type n = .ok (.type k) := except_bind_eq_ok.2 ⟨k, found, rfl⟩
  obtain ⟨stands, member⟩ := hs.lookup looked
  obtain ⟨_, read, e⟩ := Option.map_eq_some_iff.1 stands
  cases e
  exact ⟨read, member⟩

theorem Agrees.proto (hs : Agrees data h done s) {n : Nat} {p : Prototype} (found : s.pool.proto n = .ok p) :
    protoAt? data h n = some p ∧ .proto p ∈ s.pool := by
  have looked : s.pool.lookup .proto n = .ok (.proto p) := except_bind_eq_ok.2 ⟨p, found, rfl⟩
  obtain ⟨stands, member⟩ := hs.lookup looked
  obtain ⟨_, read, e⟩ := Option.map_eq_some_iff.1 stands
  cases e
  exact ⟨read, member⟩

theorem gives_place {k : Constant} {want : Nat} {v : PUnit} (run : (place k want).Gives s v t) :
    ∃ q, s.pool.intern k = .ok ((want : Int), q) ∧ t = { s with pool := q } := by
  simp only [place, gives_bind, gives_get, gives_lift, gives_modify] at run
  obtain ⟨_, _, ⟨rfl, rfl⟩, ⟨i, q⟩, _, ⟨interned, rfl⟩, _, _, rfl, run⟩ := run
  split at run
  · simp at run
  · next same =>
    obtain ⟨-, rfl⟩ := gives_pure.1 run
    have : i = want := by simpa using same
    exact ⟨q, by rw [interned, this], rfl⟩

/-- `place` adds the next item of its kind, if all of its parts are in the pool. -/
theorem Agrees.place (hs : Agrees data h done s) {k : Constant} {v : PUnit} (hk : k.HasSection)
    (stands : constantAt? data h k.kind (done k.kind) = some k)
    (known : ∀ ks, k.parts = .ok ks → ∀ d ∈ ks, d ≠ k → d ∈ s.pool)
    (run : (place k (done k.kind)).Gives s v t) :
    Agrees data h (Function.update done k.kind (done k.kind + 1)) t := by
  obtain ⟨q, interned, rfl⟩ := gives_place run
  have sound : q.Sound := ⟨hs.sound.distinct.intern hk interned, hs.sound.closed.intern hk interned⟩
  obtain ⟨ks, hks, rfl, index⟩ := (Pool.intern_eq_ok hk).1 interned
  have put := Pool.puts_eq_put (Constant.mem_parts_self hk hks) (known ks hks) hk
  rw [put] at sound index
  have new : k ∉ s.pool := by
    intro old
    rw [Pool.put_of_mem old] at index
    obtain ⟨n, same, first⟩ := (Pool.indexOf?_eq_some hk).1 index
    obtain ⟨lt, -⟩ := List.idxOf?_eq_some_iff.1 first
    rw [hs.length] at lt
    omega
  have entries := Pool.entries_put_of_not_mem hk new
  refine ⟨hs.whole, hs.header, by rw [put]; exact sound, fun kind => ?_, fun kind i lt => ?_⟩
  · rw [put, entries, List.length_append, hs.length]
    by_cases same : kind = k.kind
    · subst same
      rw [if_pos rfl, Function.update_self, List.length_singleton]
    · rw [if_neg same, Function.update_of_ne same, List.length_nil, Nat.add_zero]
  · rw [put, entries]
    by_cases old : i < done kind
    · rw [List.getElem?_append_left (by rw [hs.length]; exact old)]
      exact hs.entry kind i old
    · by_cases same : kind = k.kind
      · subst same
        rw [Function.update_self] at lt
        obtain rfl : i = done k.kind := by omega
        refine ⟨k, stands, ?_⟩
        rw [if_pos rfl, ← hs.length, List.getElem?_concat_length]
      · rw [Function.update_of_ne same] at lt
        exact absurd lt old

/-! ## Sections -/

theorem apply_eachOf {part : Section} {kind : FixedRecord} {act : Nat → Nat → Action Loading PUnit} :
    (eachOf part kind act).apply s =
      (forIn (List.range' 0 part.size.toNat) PUnit.unit fun i _ => do
        act i (part.offset.toNat + kind.size * i)
        pure (.yield PUnit.unit) : Action Loading PUnit).apply s := by
  unfold eachOf
  simp only [Std.Legacy.Range.forIn_eq_forIn_range', Std.Legacy.Range.size, Nat.sub_zero, Nat.add_sub_cancel, Nat.div_one]
  rw [apply_bind]
  split
  · next run => exact run.symm
  · next run => exact run.symm

theorem gives_eachOf {part : Section} {kind : FixedRecord} {act : Nat → Nat → Action Loading PUnit} {v : PUnit} :
    (eachOf part kind act).Gives s v t ↔
      Each (fun i => act i (part.offset.toNat + kind.size * i)) (List.range' 0 part.size.toNat) s t := by
  rw [Gives, apply_eachOf]
  exact gives_forIn

/-- Going through a section adds its items one after the other. -/
theorem Agrees.eachOf {kind : Kind} {record : FixedRecord} {act : Nat → Nat → Action Loading PUnit} {v : PUnit}
    (hs : Agrees data h done s) (empty : done kind = 0)
    (run : (eachOf (h.sectionOf kind) record act).Gives s v t)
    (step : ∀ i s t, i < h.count kind → Agrees data h (Function.update done kind i) s →
      (act i ((h.sectionOf kind).offset.toNat + record.size * i)).Gives s ⟨⟩ t →
        Agrees data h (Function.update done kind (i + 1)) t) :
    Agrees data h (Function.update done kind (h.count kind)) t := by
  have loop : ∀ n i s, i + n = h.count kind → Agrees data h (Function.update done kind i) s →
      Each (fun i => act i ((h.sectionOf kind).offset.toNat + record.size * i)) (List.range' i n) s t →
        Agrees data h (Function.update done kind (h.count kind)) t := by
    intro n
    induction n with
    | zero =>
      rintro i s rfl hs ⟨⟩
      exact hs
    | succ n ih =>
      intro i s whole hs each
      rw [List.range'_succ] at each
      obtain _ | ⟨head, rest⟩ := each
      exact ih (i + 1) _ (by omega) (step i s _ (by omega) hs head) rest
  refine loop (h.count kind) 0 s (Nat.zero_add _) ?_ (gives_eachOf.1 run)
  rw [← empty, Function.update_eq_self]
  exact hs

theorem Agrees.next {i : Nat} {k : Constant} {v : PUnit} (hs : Agrees data h (Function.update done k.kind i) s)
    (hk : k.HasSection) (stands : constantAt? data h k.kind i = some k)
    (known : ∀ ks, k.parts = .ok ks → ∀ d ∈ ks, d ≠ k → d ∈ s.pool) (run : (Loading.place k i).Gives s v t) :
    Agrees data h (Function.update done k.kind (i + 1)) t := by
  have located : Function.update done k.kind i k.kind = i := Function.update_self ..
  have := hs.place hk (by rw [located]; exact stands) known (by rw [located]; exact run)
  rwa [located, Function.update_idem] at this

theorem Agrees.typeParts (hs : Agrees data h done s) {k : Descriptor} (known : .type k ∈ s.pool) :
    ∀ d ∈ Constant.typeParts k, d ∈ s.pool := by
  intro d hd
  rcases Constant.mem_typeParts.1 hd with rfl | rfl
  · exact hs.sound.closed.type k known
  · exact known

theorem itemAt?_eq {kind : Kind} {record : FixedRecord} {i : Nat} {r : Bytes} (lt : i < h.count kind)
    (read : bytesAt? data ((h.sectionOf kind).offset.toNat + record.size * i) record.size = some r) :
    itemAt? data h kind record i = some r := by
  rw [itemAt?, if_pos lt, read]

theorem Agrees.readStrings {v : PUnit} (hs : Agrees data h done s) (empty : done .string = 0)
    (run : Loading.readStrings.Gives s v t) : Agrees data h (Function.update done .string (h.count .string)) t := by
  simp only [Loading.readStrings, counted, remark, tell, gives_bind, gives_get, gives_modify] at run
  obtain ⟨_, _, ⟨rfl, rfl⟩, _, u, run, rfl⟩ := run
  refine Agrees.moved (s := u) ?_ ⟨rfl, rfl, rfl⟩
  rw [hs.header] at run
  refine hs.eachOf empty run fun i s t lt hs run => ?_
  simp only [gives_bind] at run
  obtain ⟨w, s₁, readWord, item, s₂, readItem, run⟩ := run
  obtain ⟨⟨r, record, rfl⟩, moved, -⟩ := gives_word hs.whole readWord
  obtain ⟨⟨c', decoded⟩, moved'⟩ := gives_part (moved.whole hs.whole) StringItem.forward readItem
  split at run
  · simp at run
  · next v value =>
    refine ((hs.moved moved).moved moved').next (k := .string v) trivial ?_ (fun ks parts d hd other => ?_) run
    · have read : stringAt? data h i = some v := by
        rw [stringAt?, itemAt?_eq lt record, Option.bind_eq_bind, Option.bind_some]
        have : (StringItem.decode { data := data.toArray, pos := wordAt r 0 }).apply {} = (.ok c', item) := decoded
        rw [this]
        dsimp only
        rw [value, if_pos rfl]
      exact congrArg (Option.map Constant.string) read
    · cases parts
      exact absurd (List.mem_singleton.1 hd) other

theorem Agrees.readTypes {v : PUnit} (hs : Agrees data h done s) (empty : done .type = 0)
    (run : Loading.readTypes.Gives s v t) : Agrees data h (Function.update done .type (h.count .type)) t := by
  simp only [Loading.readTypes, counted, remark, tell, gives_bind, gives_get, gives_modify] at run
  obtain ⟨_, _, ⟨rfl, rfl⟩, _, u, run, rfl⟩ := run
  refine Agrees.moved (s := u) ?_ ⟨rfl, rfl, rfl⟩
  rw [hs.header] at run
  refine hs.eachOf empty run fun i s t lt hs run => ?_
  simp only [gives_bind, gives_within, gives_ask] at run
  obtain ⟨w, s₁, readWord, name, _, ⟨found, rfl⟩, run⟩ := run
  obtain ⟨⟨r, record, rfl⟩, moved, -⟩ := gives_word hs.whole readWord
  obtain ⟨stands, member⟩ := (hs.moved moved).string found
  refine (hs.moved moved).next (k := .type ⟨name⟩) trivial ?_ (fun ks parts d hd other => ?_) run
  · have read : typeAt? data h i = some ⟨name⟩ := by
      rw [typeAt?, itemAt?_eq lt record, Option.bind_eq_bind, Option.bind_some, stands]
      rfl
    exact congrArg (Option.map Constant.type) read
  · cases parts
    rcases Constant.mem_typeParts.1 hd with rfl | rfl
    · exact member
    · exact absurd rfl other

theorem Agrees.typeList (hs : Agrees data h done s) {offset : Nat} {ts : List Descriptor}
    (run : (Loading.typeList offset).Gives s ts t) :
    typesAt? data h offset = some ts ∧ (∀ k ∈ ts, (∃ n, typeAt? data h n = some k) ∧ .type k ∈ s.pool) ∧ Moved s t := by
  unfold Loading.typeList at run
  unfold typesAt?
  split at run
  · next none =>
    obtain ⟨rfl, rfl⟩ := gives_pure.1 run
    exact ⟨if_pos none, by simp, .refl s⟩
  · next listed =>
    simp only [gives_bind, gives_get] at run
    obtain ⟨n, u, readWord, _, _, ⟨rfl, rfl⟩, run⟩ := run
    obtain ⟨⟨r, count, rfl⟩, moved, located⟩ := gives_word hs.whole readWord
    have whole := moved.whole hs.whole
    split at run
    · simp at run
    · next fits =>
      simp only [gives_bind, gives_modify, gives_within] at run
      obtain ⟨_, _, rfl, run⟩ := run
      rw [slice_of_over whole, located] at run
      have whole : ((data.drop (offset + 4)).take (wordAt r 0 * 2)).length = wordAt r 0 * 2 := by
        have size : u.cursor.data.size = data.length := by rw [whole]; simp
        unfold Cursor.available at fits
        rw [List.length_take, List.length_drop]
        omega
      have agrees := hs.moved moved
      obtain ⟨read, asked, rfl⟩ := gives_mapM_ask (fun i => typeAt? data h (halfAt _ (2 * i)))
        (fun i a found => (agrees.type found).1) run
      refine ⟨?_, fun k hk => ?_, moved.trans ⟨rfl, rfl, rfl⟩⟩
      · have entries : bytesAt? data (offset + 4) (wordAt r 0 * 2) =
            some ((data.drop (offset + 4)).take (wordAt r 0 * 2)) := by rw [bytesAt?, if_pos whole]
        have size : bytesAt? data offset 4 = some r := count
        simp only [if_neg listed, size, entries, Option.bind_eq_bind, Option.bind_some]
        exact read
      · obtain ⟨i, found⟩ := asked k hk
        obtain ⟨stands, member⟩ := agrees.type found
        rw [moved.pool] at member
        exact ⟨⟨_, stands⟩, member⟩

/-- Every type of the file is a valid descriptor. -/
def Proper (data : Bytes) (h : Header) : Prop := ∀ i k, typeAt? data h i = some k → Descriptor.isValid k.name = true

/-- The parts of a prototype over valid descriptors are its shorty and the types it lists. -/
theorem parts_of {result : Descriptor} {ts : List Descriptor} {ks : List Constant}
    (valid : ∀ k ∈ ts, Descriptor.isValid k.name = true) (parts : Constant.parts (.proto (.of result ts)) = .ok ks) :
    ∃ short, (Prototype.of result ts).shorty = .ok short ∧
      ks = .string short :: (result :: ts).flatMap Constant.typeParts ++ [.proto (.of result ts)] := by
  obtain ⟨short, types, hshort, htypes, rfl⟩ := Constant.protoParts_eq_ok.1 parts
  have split : (Prototype.of result ts).parameters = .ok ts := by
    rw [Prototype.parameters, Prototype.of, Prototype.split_flatMap valid]
  rw [Prototype.types, split] at htypes
  cases htypes
  exact ⟨short, hshort, rfl⟩

theorem Agrees.readProtos {v : PUnit} (hs : Agrees data h done s) (proper : Proper data h) (empty : done .proto = 0)
    (run : Loading.readProtos.Gives s v t) : Agrees data h (Function.update done .proto (h.count .proto)) t := by
  simp only [Loading.readProtos, gives_bind, gives_get] at run
  obtain ⟨_, _, ⟨rfl, rfl⟩, run⟩ := run
  rw [hs.header] at run
  refine hs.eachOf empty run fun i s t lt hs run => ?_
  simp only [gives_bind, gives_get, gives_within, gives_ask] at run
  obtain ⟨r, s₁, readRecord, result, _, ⟨foundResult, rfl⟩, ts, s₂, list, _, _, ⟨rfl, rfl⟩, run⟩ := run
  obtain ⟨record, moved, -⟩ := gives_record hs.whole readRecord
  have hs₁ := hs.moved moved
  obtain ⟨resultStands, resultIn⟩ := hs₁.type foundResult
  obtain ⟨listed, known, moved'⟩ := hs₁.typeList list
  have hs₂ := hs₁.moved moved'
  split at run
  · simp at run
  · next short found =>
    simp only [gives_bind, gives_lift] at run
    obtain ⟨short', _, ⟨hshort, rfl⟩, run⟩ := run
    split at run
    · simp at run
    · next same =>
      have equal : short = short' := by simpa using same
      refine hs₂.next (k := .proto (.of result ts)) trivial ?_ (fun ks parts d hd other => ?_) run
      · have read : protoAt? data h i = some (.of result ts) := by
          simp only [protoAt?, itemAt?_eq lt record, Option.bind_eq_bind, Option.bind_some, resultStands, listed]
          rfl
        exact congrArg (Option.map Constant.proto) read
      · obtain ⟨short'', hshort', rfl⟩ := parts_of (fun k hk => by
          obtain ⟨⟨n, stands⟩, -⟩ := known k hk
          exact proper n k stands) parts
        obtain rfl := Except.ok.inj (hshort.symm.trans hshort')
        simp only [List.mem_append, List.mem_cons, List.mem_flatMap, List.not_mem_nil, or_false] at hd
        rcases hd with (rfl | ⟨k, rfl | hk, hd⟩) | rfl
        · rw [← equal]
          exact (hs₂.string found).2
        · exact hs₂.typeParts (moved'.pool ▸ resultIn) d hd
        · exact hs₂.typeParts (moved'.pool ▸ (known k hk).2) d hd
        · exact absurd rfl other

theorem Agrees.readFields {v : PUnit} (hs : Agrees data h done s) (empty : done .field = 0)
    (run : Loading.readFields.Gives s v t) : Agrees data h (Function.update done .field (h.count .field)) t := by
  simp only [Loading.readFields, gives_bind, gives_get] at run
  obtain ⟨_, _, ⟨rfl, rfl⟩, run⟩ := run
  rw [hs.header] at run
  refine hs.eachOf empty run fun i s t lt hs run => ?_
  simp only [gives_bind, gives_within, gives_ask, gives_pure] at run
  obtain ⟨r, s₁, readRecord, _, _, ⟨owner, _, ⟨foundOwner, rfl⟩, type, _, ⟨foundType, rfl⟩, name, _, ⟨foundName, rfl⟩,
    rfl, rfl⟩, run⟩ := run
  obtain ⟨record, moved, -⟩ := gives_record hs.whole readRecord
  have hs₁ := hs.moved moved
  obtain ⟨ownerStands, ownerIn⟩ := hs₁.type foundOwner
  obtain ⟨typeStands, typeIn⟩ := hs₁.type foundType
  obtain ⟨nameStands, nameIn⟩ := hs₁.string foundName
  refine hs₁.next (k := .field ⟨owner, name, type⟩) trivial ?_ (fun ks parts d hd other => ?_) run
  · have read : fieldAt? data h i = some ⟨owner, name, type⟩ := by
      simp only [fieldAt?, itemAt?_eq lt record, Option.bind_eq_bind, Option.bind_some, ownerStands, nameStands, typeStands]
      rfl
    exact congrArg (Option.map Constant.field) read
  · cases parts
    simp only [List.mem_append, List.mem_cons, List.not_mem_nil, or_false] at hd
    rcases hd with (hd | rfl | hd) | rfl
    · exact hs₁.typeParts ownerIn d hd
    · exact nameIn
    · exact hs₁.typeParts typeIn d hd
    · exact absurd rfl other

theorem Agrees.readMethods {v : PUnit} (hs : Agrees data h done s) (empty : done .method = 0)
    (run : Loading.readMethods.Gives s v t) : Agrees data h (Function.update done .method (h.count .method)) t := by
  simp only [Loading.readMethods, counted, remark, tell, gives_bind, gives_get, gives_modify] at run
  obtain ⟨_, _, ⟨rfl, rfl⟩, _, u, run, rfl⟩ := run
  refine Agrees.moved (s := u) ?_ ⟨rfl, rfl, rfl⟩
  rw [hs.header] at run
  refine hs.eachOf empty run fun i s t lt hs run => ?_
  simp only [gives_bind, gives_within, gives_ask, gives_pure] at run
  obtain ⟨r, s₁, readRecord, _, _, ⟨owner, _, ⟨foundOwner, rfl⟩, proto, _, ⟨foundProto, rfl⟩, name, _, ⟨foundName, rfl⟩,
    rfl, rfl⟩, run⟩ := run
  obtain ⟨record, moved, -⟩ := gives_record hs.whole readRecord
  have hs₁ := hs.moved moved
  obtain ⟨ownerStands, ownerIn⟩ := hs₁.type foundOwner
  obtain ⟨protoStands, protoIn⟩ := hs₁.proto foundProto
  obtain ⟨nameStands, nameIn⟩ := hs₁.string foundName
  refine hs₁.next (k := .method ⟨owner, name, proto⟩) trivial ?_ (fun ks parts d hd other => ?_) run
  · have read : methodAt? data h i = some ⟨owner, name, proto⟩ := by
      simp only [methodAt?, itemAt?_eq lt record, Option.bind_eq_bind, Option.bind_some, ownerStands, nameStands, protoStands]
      rfl
    exact congrArg (Option.map Constant.method) read
  · obtain ⟨inner, hinner, rfl⟩ := Constant.method_parts_eq_ok.1 parts
    obtain ⟨inner', hinner', inside⟩ := Pool.closed_iff.1 hs₁.sound.closed _ protoIn
    obtain rfl := Except.ok.inj (hinner.symm.trans hinner')
    simp only [List.mem_append, List.mem_cons, List.not_mem_nil, or_false] at hd
    rcases hd with (hd | rfl | hd) | rfl
    · exact hs₁.typeParts ownerIn d hd
    · exact nameIn
    · exact inside d hd
    · exact absurd rfl other

theorem agrees_readHeader {lenient : Bool} {v : PUnit} (hs : s.cursor = .ofBytes data) (empty : s.pool = {})
    (run : (readHeader lenient).Gives s v t) : Agrees data t.header (fun _ => 0) t := by
  have whole : Over data s := by
    rw [Over, hs]
    rfl
  have agrees : ∀ {u : Loading}, Over data u → u.pool = {} → Agrees data u.header (fun _ => 0) u := by
    intro u whole empty
    refine ⟨whole, rfl, by rw [empty]; exact Pool.sound_empty, fun kind => ?_, fun kind i lt => ?_⟩
    · rw [empty, Pool.entries_empty]
      rfl
    · cases lt
  simp only [readHeader, gives_bind, gives_get] at run
  obtain ⟨_, _, ⟨rfl, rfl⟩, run⟩ := run
  split at run
  · simp at run
  · simp only [gives_bind] at run
    obtain ⟨hd, u, read, run⟩ := run
    obtain ⟨-, moved⟩ := gives_part whole Header.forward read
    simp only [remark, tell, gives_modify] at run
    obtain ⟨_, _, rfl, run⟩ := run
    split at run
    · simp at run
    · simp only [gives_modify] at run
      subst run
      exact agrees (moved.whole whole) (moved.pool.trans empty)

/-! ## What reading leaves of the pool -/

/-- Any fault is allowed. -/
def anyFault (_ : Option Bytes) (_ : Loading) : Prop := True

/-- If the action succeeds, the header and the pool are as before. -/
def Still (act : Action Loading α) : Prop :=
  ∀ s, Ends anyFault act (fun _ t => t.header = s.header ∧ t.pool = s.pool) s

section Still

variable {β σ : Type}

theorem Still.bind {x : Action Loading α} {f : α → Action Loading β} (hx : Still x) (hf : ∀ a, Still (f a)) :
    Still (x >>= f) := fun s =>
  ends_bind.2 ((hx s).mono fun a t ht => (hf a t).mono fun _ _ hu => ⟨hu.1.trans ht.1, hu.2.trans ht.2⟩)

theorem Still.pure (a : α) : Still (Pure.pure a) := fun _ => ends_pure.2 ⟨rfl, rfl⟩

theorem Still.get : Still MonadState.get := fun _ => ends_get.2 ⟨rfl, rfl⟩

theorem Still.refuse (cause : Failure) : Still (Action.refuse cause : Action Loading α) := fun _ => ends_refuse.2 trivial

theorem Still.lift (e : Except Stop α) : Still (liftM e : Action Loading α) :=
  fun _ => ends_lift (fun _ _ => trivial) fun _ _ => ⟨rfl, rfl⟩

theorem Still.within {label : Bytes} {act : Action Loading α} (h : Still act) : Still (Action.within label act) :=
  fun s => ends_within.2 (h s)

theorem Still.ite_bind {p : Prop} [Decidable p] {x y : Action Loading α} {f : α → Action Loading β} (hx : Still x)
    (hy : Still y) (hf : ∀ a, Still (f a)) : Still (if p then x >>= f else y >>= f) := by
  split
  · exact .bind hx hf
  · exact .bind hy hf

theorem still_modify {f : Loading → Loading} (header : ∀ s, (f s).header = s.header) (pool : ∀ s, (f s).pool = s.pool) :
    Still (modify f : Action Loading PUnit) := fun s => ends_modify.2 ⟨header s, pool s⟩

theorem still_forIn {f : β → Action Loading α} {xs : List β} (h : ∀ x, Still (f x)) :
    Still (forIn xs PUnit.unit fun x _ => do let _ ← f x; Pure.pure (.yield PUnit.unit) : Action Loading PUnit) := fun s =>
  ends_forIn (I := fun t => t.header = s.header ∧ t.pool = s.pool)
    (fun x _ u hu => (h x u).mono fun _ _ ht => ⟨ht.1.trans hu.1, ht.2.trans hu.2⟩) ⟨rfl, rfl⟩

theorem still_mapM {f : β → Action Loading α} {xs : List β} (h : ∀ x, Still (f x)) : Still (xs.mapM f) := fun s =>
  (ends_mapM (I := fun t => t.header = s.header ∧ t.pool = s.pool) (P := fun _ => True)
    (fun x _ u hu => (h x u).mono fun _ _ ht => ⟨trivial, ht.1.trans hu.1, ht.2.trans hu.2⟩) ⟨rfl, rfl⟩).mono
    fun _ _ ht => ht.2

theorem still_tell (e : Event) : Still (tell e) := still_modify (fun _ => rfl) fun _ => rfl

theorem still_counted (level : Nat) (before : String) (n : Nat) (after : String) : Still (counted level before n after) :=
  still_tell _

theorem still_ask (look : Pool → Except Stop α) : Still (ask look) := .bind .get fun _ => .lift _

theorem still_seek (offset : Nat) : Still (seek offset) :=
  .bind .get fun _ => .bind (.within (.lift _)) fun _ => still_modify (fun _ => rfl) fun _ => rfl

theorem still_record (kind : FixedRecord) (offset : Nat) : Still (record kind offset) := by
  refine .bind (still_seek _) fun _ => .bind .get fun _ => .bind (still_modify (fun _ => rfl) fun _ => rfl) fun _ => ?_
  split
  · exact .pure _
  · exact .refuse _

theorem still_word (offset : Nat) : Still (word offset) := .bind (still_record _ _) fun _ => .pure _

theorem still_part (decode : Cursor → Action σ Cursor) (fresh : σ) (offset : Nat) : Still (part decode fresh offset) :=
  .bind (still_seek _) fun _ => .bind .get fun _ => .bind (.lift _) fun _ =>
    .bind (still_modify (fun _ => rfl) fun _ => rfl) fun _ => .pure _

theorem still_typeList (offset : Nat) : Still (typeList offset) := by
  unfold typeList
  split
  · exact .pure _
  · refine .bind (still_word _) fun n => .bind .get fun s => ?_
    dsimp only
    split
    · exact .bind (.refuse _) fun _ => .bind (still_modify (fun _ => rfl) fun _ => rfl) fun _ =>
        .within (still_mapM fun _ => still_ask _)
    · exact .bind (still_modify (fun _ => rfl) fun _ => rfl) fun _ => .within (still_mapM fun _ => still_ask _)

theorem still_optional {read : Action Loading α} (h : Still read) (offset : Nat) : Still (optional offset read) := by
  unfold optional
  split
  · exact .pure _
  · exact .bind h fun _ => .pure _

theorem still_codeOf (label : Bytes) (m : MethodMember) : Still (codeOf label m) := by
  refine .bind (.within (still_ask _)) fun _ => ?_
  dsimp only
  split
  · exact .pure _
  · exact .bind .get fun _ => .bind (still_part _ _ _) fun _ => .pure _

theorem still_withMembers (c : ClassDef) : Still (withMembers c) := by
  refine .bind (still_part _ _ _) fun m => .bind (still_counted _ _ _ _) fun _ => .bind (still_counted _ _ _ _) fun _ => ?_
  refine .bind (still_counted _ _ _ _) fun _ => .bind (still_counted _ _ _ _) fun _ => ?_
  exact .bind (still_forIn fun _ => .within (still_ask _)) fun _ => .bind (still_mapM (still_codeOf _)) fun _ => .pure _

theorem still_classDef (i offset : Nat) : Still (classDef i offset) := by
  refine .bind (still_record _ _) fun r => .bind (still_tell _) fun _ => .bind (.within (still_ask _)) fun type => ?_
  refine .ite_bind (.pure _) (.within (still_ask _)) fun super => ?_
  refine .ite_bind (.pure _) (.within (still_ask _)) fun source => .bind (still_typeList _) fun _ => ?_
  refine .bind (still_optional (still_part _ _ _) _) fun _ => .bind (still_optional (still_part _ _ _) _) fun _ => ?_
  dsimp only
  split
  · exact .bind (still_tell _) fun _ => .pure _
  · exact still_withMembers _

theorem still_eachOf {part : Section} {kind : FixedRecord} {act : Nat → Nat → Action Loading PUnit} (h : ∀ i o, Still (act i o)) :
    Still (eachOf part kind act) := by
  unfold eachOf
  simp only [Std.Legacy.Range.forIn_eq_forIn_range']
  exact .bind (still_forIn fun i => h i _) fun _ => .pure _

theorem still_readClasses : Still readClasses := by
  refine .bind .get fun s => .bind (still_counted _ _ _ _) fun _ => still_eachOf fun i offset => ?_
  refine .bind (still_classDef i offset) fun c => .bind (still_modify (fun _ => rfl) fun _ => rfl) fun _ => ?_
  exact .bind .get fun _ => .bind (still_tell _) fun _ => .bind (still_forIn fun _ => still_tell _) fun _ => still_tell _

end Still

/-- If the action succeeds, the header is as before and the pool has only grown. -/
def Grows (act : Action Loading α) : Prop :=
  ∀ s, Ends anyFault act (fun _ t => t.header = s.header ∧ s.pool.Extends t.pool) s

section Grows

variable {β : Type}

theorem Still.grows {act : Action Loading α} (h : Still act) : Grows act := fun s =>
  (h s).mono fun _ _ ht => ⟨ht.1, by rw [ht.2]; exact .refl _⟩

theorem Grows.bind {x : Action Loading α} {f : α → Action Loading β} (hx : Grows x) (hf : ∀ a, Grows (f a)) :
    Grows (x >>= f) := fun s =>
  ends_bind.2 ((hx s).mono fun a t ht => (hf a t).mono fun _ _ hu => ⟨hu.1.trans ht.1, ht.2.trans hu.2⟩)

theorem grows_place {k : Constant} (hk : k.HasSection) (want : Nat) : Grows (place k want) := by
  intro s
  simp only [place, ends_bind, ends_get]
  refine ends_lift (fun _ _ => trivial) fun p run => ?_
  obtain ⟨i, q⟩ := p
  simp only [ends_modify]
  split
  · exact ends_refuse.2 trivial
  · exact ends_pure.2 ⟨rfl, Pool.intern_extends hk run⟩

theorem grows_eachOf {part : Section} {kind : FixedRecord} {act : Nat → Nat → Action Loading PUnit} (h : ∀ i o, Grows (act i o)) :
    Grows (eachOf part kind act) := by
  unfold eachOf
  simp only [Std.Legacy.Range.forIn_eq_forIn_range']
  refine .bind (fun s => ?_) fun _ => (Still.pure _).grows
  exact ends_forIn (I := fun t => t.header = s.header ∧ s.pool.Extends t.pool)
    (fun i _ u hu => (h i _ u).mono fun _ _ ht => ⟨ht.1.trans hu.1, hu.2.trans ht.2⟩) ⟨rfl, .refl _⟩

theorem grows_readProtos : Grows readProtos := by
  refine .bind Still.get.grows fun s => grows_eachOf fun i offset => .bind (still_record _ _).grows fun r => ?_
  refine .bind (Still.within (still_ask _)).grows fun result => .bind (still_typeList _).grows fun ts => ?_
  refine .bind Still.get.grows fun s => ?_
  dsimp only
  split
  · exact .bind (Still.refuse _).grows fun _ => grows_place (k := .proto _) trivial _
  · refine .bind (Still.lift _).grows fun short => ?_
    split
    · exact .bind (Still.refuse _).grows fun _ => grows_place (k := .proto _) trivial _
    · exact grows_place (k := .proto _) trivial _

theorem grows_readFields : Grows readFields := by
  refine .bind Still.get.grows fun s => grows_eachOf fun i offset => .bind (still_record _ _).grows fun r => ?_
  refine .bind (Still.within ?_).grows fun f => grows_place (k := .field _) trivial _
  exact .bind (still_ask _) fun _ => .bind (still_ask _) fun _ => .bind (still_ask _) fun _ => .pure _

theorem grows_readMethods : Grows readMethods := by
  refine .bind Still.get.grows fun s => .bind (grows_eachOf fun i offset => ?_) fun _ => (still_counted _ _ _ _).grows
  refine .bind (still_record _ _).grows fun r => .bind (Still.within ?_).grows fun m => grows_place (k := .method _) trivial _
  exact .bind (still_ask _) fun _ => .bind (still_ask _) fun _ => .bind (still_ask _) fun _ => .pure _

end Grows

/-- After all sections are read, the strings and types of the file have their indices in the pool; if the types are
valid descriptors, so have all constants, and there are no others. -/
theorem indices_of_all {name : Bytes} {lenient : Bool} {v : PUnit} (hs : s.cursor = .ofBytes data) (empty : s.pool = {})
    (run : (all name lenient).Gives s v t) :
    (∀ kind, kind = .string ∨ kind = .type → ∀ i < t.header.count kind,
      ∃ k, constantAt? data t.header kind i = some k ∧ t.pool.lookup kind i = .ok k) ∧
    (Proper data t.header → ∀ kind, t.pool.size kind = t.header.count kind ∧ ∀ i < t.header.count kind,
      ∃ k, constantAt? data t.header kind i = some k ∧ t.pool.lookup kind i = .ok k) := by
  simp only [all, gives_bind, gives_get] at run
  obtain ⟨_, s₁, readHeader, _, s₂, readStrings, _, s₃, readTypes, _, s₄, readProtos, _, s₅, readFields, _, s₆, readMethods,
    _, _, ⟨rfl, rfl⟩, _, s₇, told, readClasses⟩ := run
  have h₁ := agrees_readHeader hs empty readHeader
  have h₃ := (h₁.readStrings rfl readStrings).readTypes rfl readTypes
  have told' := (still_tell _ s₆).gives told
  have classes := (still_readClasses s₇).gives readClasses
  have g₄ := (grows_readProtos s₃).gives readProtos
  have g₅ := (grows_readFields s₄).gives readFields
  have g₆ := (grows_readMethods s₅).gives readMethods
  have header : t.header = s₁.header := by
    rw [classes.1, told'.1, g₆.1, g₅.1, g₄.1, h₃.header]
  rw [header]
  refine ⟨fun kind or i lt => ?_, fun proper => ?_⟩
  · have grown : s₃.pool.Extends t.pool := by
      rw [classes.2, told'.2]
      exact (g₄.2.trans g₅.2).trans g₆.2
    obtain ⟨k, stands, located⟩ := h₃.entry kind i (by rcases or with rfl | rfl <;> exact lt)
    exact ⟨k, stands, grown.lookup (Pool.lookup_eq_ok.2 ⟨i, rfl, located⟩)⟩
  · have h₆ := ((h₃.readProtos proper rfl readProtos).readFields rfl readFields).readMethods rfl readMethods
    have pool : t.pool = s₆.pool := classes.2.trans told'.2
    intro kind
    have length : (s₆.pool.entries kind).length = s₁.header.count kind := by
      rw [h₆.length]
      cases kind <;> rfl
    rw [pool, Pool.size_eq_length]
    refine ⟨length, fun i lt => ?_⟩
    obtain ⟨k, stands, located⟩ := h₆.entry kind i (by rw [← h₆.length, length]; exact lt)
    exact ⟨k, stands, Pool.lookup_eq_ok.2 ⟨i, rfl, located⟩⟩

end Loading

theorem all_of_load {o : LoadOptions} {source : Source} {expected : Nat} {file : ImageFile}
    (h : (load o source expected).1 = .ok file) :
    ∃ s, (Loading.all o.name o.lenient).Gives { cursor := .ofBytes source.data } ⟨⟩ s ∧ file.header = s.header ∧
      file.pool = s.pool := by
  unfold load at h
  cases read : source.readAll with
  | error stop =>
    rw [read] at h
    cases stop <;> cases h
  | ok bytes =>
    obtain rfl : bytes = source.data := by
      unfold Source.readAll at read
      split at read <;> cases read
      rfl
    rw [read] at h
    simp only [labelled, Except.mapError] at h
    split at h
    · cases h
    · rcases run : (Loading.all o.name o.lenient).apply { cursor := .ofBytes source.data } with ⟨r, t⟩
      rw [apply_within, run] at h
      cases r with
      | error stop => cases stop <;> cases h
      | ok v =>
        cases h
        exact ⟨t, run, rfl, rfl⟩

/-- In a loaded image, every string and type of the file has its index in the pool. If all types of the file are valid
descriptors, so has every prototype, field and method, and each section of the pool is as long as that of the file. -/
theorem load_indices {o : LoadOptions} {source : Source} {expected : Nat} {file : ImageFile}
    (h : (load o source expected).1 = .ok file) :
    (∀ kind, kind = .string ∨ kind = .type → ∀ i < file.header.count kind,
      ∃ k, constantAt? source.data file.header kind i = some k ∧ file.pool.lookup kind i = .ok k) ∧
    ((∀ i k, typeAt? source.data file.header i = some k → Descriptor.isValid k.name = true) →
      ∀ kind, file.pool.size kind = file.header.count kind ∧ ∀ i < file.header.count kind,
        ∃ k, constantAt? source.data file.header kind i = some k ∧ file.pool.lookup kind i = .ok k) := by
  obtain ⟨s, run, header, pool⟩ := all_of_load h
  rw [header, pool]
  exact Loading.indices_of_all rfl rfl run

/-- An image with the types `I` and `V` and the prototype from `I` to `V`. -/
def oneInt : Bytes :=
  let words (ns : List UInt32) := ns.flatMap bytesU32
  let header : Header := { fileSize := 162, strings := ⟨3, 112⟩, types := ⟨2, 124⟩, protos := ⟨1, 132⟩ }
  header.bytes ++ words [152, 155, 158] ++ words [0, 1] ++ words [2, 1, 144] ++ words [1] ++ bytesU16 0 ++ bytesU16 0 ++
    [1] ++ ascii "I" ++ [0] ++ [1] ++ ascii "V" ++ [0] ++ [2] ++ ascii "VI" ++ [0]

/-- The constants of `oneInt` have the indices in the pool that they have in the file. -/
theorem load_indices_oneInt :
    ∃ file, (load { name := ascii "classes.dex" } { data := oneInt } 162).1 = .ok file ∧
      ∀ kind, file.pool.size kind = file.header.count kind ∧ ∀ i < file.header.count kind,
        ∃ k, constantAt? oneInt file.header kind i = some k ∧ file.pool.lookup kind i = .ok k := by
  -- Beyond the types that the header counts nothing stands for a type, so the ones below are all.
  have checked : ((load { name := ascii "classes.dex" } { data := oneInt } 162).1.toOption.map fun file =>
      (List.range (file.header.count .type)).all fun i =>
        ((typeAt? oneInt file.header i).map fun k => Descriptor.isValid k.name).getD true) = some true := by decide +kernel
  cases run : (load { name := ascii "classes.dex" } { data := oneInt } 162).1 with
  | error stop =>
    rw [run] at checked
    cases checked
  | ok file =>
    rw [run] at checked
    have all := Option.some.inj checked
    rw [List.all_eq_true] at all
    refine ⟨file, rfl, (load_indices run).2 fun i k stands => ?_⟩
    have lt : i < file.header.count .type := by
      by_contra beyond
      rw [typeAt?, itemAt?, if_neg beyond] at stands
      cases stands
    have valid := all i (List.mem_range.2 lt)
    rw [stands] at valid
    exact valid

end Dalvik
