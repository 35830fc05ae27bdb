import Dalvik.Image.StringItem
import Dalvik.Proofs.Block
import Dalvik.Proofs.Bytes
import Dalvik.Proofs.Image.Indices
import Dalvik.Proofs.Reading
import Dalvik.Proofs.Text.Utf16

/-!
# Strings of an image

The encoding of a string has no zero byte, so its end is the first NUL, and decoding takes exactly
the encoding (`gives_decode`). The length in front of it is a 32-bit field that keeps the bytes it
was read from as long as its value stays the same. So a string that was set is read back, and its
length is right exactly if it fits (`gives_setValue`).

Any UTF-16 units can be stored, and decoding gives the text they stand for, with the replacement
character for each unpaired surrogate. Loading puts the strings into the pool in order, and fails at
the first string that decodes to the same text as one before it (`readStrings_of_units`).
-/

namespace Dalvik

/-! ## Lengths -/

theorem Uleb.upholds_decode (c : Cursor) : Action.Upholds Uleb.Fair (Uleb.decode c) := by
  intro u fair
  rcases read : (Uleb.decode c).apply u with ⟨r, v⟩
  cases r with
  | ok c' => exact (gives_uleb.1 read).1.fair
  | error e =>
    simp only [Uleb.decode, Action.apply_of] at read
    split at read
    · cases read
    · cases read
      exact fair

namespace StringItem

variable {c c' : Cursor} {s t : StringItem} {v : Bytes}

/-- A string item that is new, or decoded and set in any order, also by decodings that failed. -/
inductive Reached : StringItem → Prop
  | new : Reached {}
  | decode {s : StringItem} (reached : Reached s) (c : Cursor) : Reached ((decode c).apply s).2
  | setValue {s : StringItem} (reached : Reached s) (v : Bytes) : Reached (s.setValue v)

theorem upholds_decode (c : Cursor) : Action.Upholds (fun s => s.length.Fair) (decode c) := by
  refine .bind (Action.upholds_on_left fun s fair => Uleb.upholds_decode c s.length fair) fun c => ?_
  dsimp only
  split
  · exact Action.upholds_refuse _
  · refine .bind (Action.upholds_lift _) fun p => .bind (Action.upholds_modify fun _ fair => fair) fun _ => ?_
    exact .bind (Action.upholds_lift _) fun _ => Action.upholds_pure _

theorem Reached.fair (reached : s.Reached) : s.length.Fair := by
  induction reached with
  | new => exact Uleb.fair_mk 0
  | decode _ c ih => exact upholds_decode c _ ih
  | setValue _ v ih => exact ih.set _

/-! ## Reading what was written -/

theorem gives_decode (fair : s.length.Fair) (ends : 0 ∉ s.data) (pos : c.pos ≤ c.data.size)
    (spans : c.Spans s.pieces.flatten c') : (decode c).Gives t c' { s with length := s.length.asRead } := by
  have bytes : s.pieces.flatten = s.length.bytes ++ (s.data ++ [0]) := by simp [pieces]
  rw [bytes] at spans
  obtain ⟨c₁, length, spans⟩ := Cursor.spans_append.1 spans
  have pos₁ : c₁.pos ≤ c₁.data.size := by
    rw [length.next]
    exact length.le_data pos
  have found : Bytes.indexOf? 0 (c₁.data.extract c₁.pos c₁.data.size).toList = some s.data.length := by
    obtain ⟨rest, here⟩ := spans.here
    rw [Array.toList_extract, List.extract_eq_take_drop, List.take_of_length_le (by simp), ← here, List.append_assoc]
    exact Bytes.indexOf?_eq_some.2 ⟨_, rest, rfl, ends, rfl⟩
  obtain ⟨c₂, data, zero⟩ := Cursor.spans_append.1 spans
  have pos₂ : c₂.pos ≤ c₂.data.size := by
    rw [data.next]
    exact data.le_data pos₁
  refine Action.gives_bind.2 ⟨c₁, { t with length := s.length.asRead }, Action.gives_on.2 ⟨_, ?_, rfl⟩, ?_⟩
  · exact gives_uleb.2 ⟨fair.read, length⟩
  · dsimp only
    rw [found]
    simp only [Action.gives_bind, Action.gives_lift, Action.gives_modify, Action.gives_pure]
    exact ⟨_, _, ⟨data.bytes_ok pos₁, rfl⟩, ⟨⟩, _, rfl, _, _, ⟨zero.u8_ok pos₂, rfl⟩, rfl, rfl⟩

/-- `value` of a string that was set is the string, with an error exactly if its length does not fit. -/
theorem value_setValue (s : StringItem) (valid : Utf8.isValid v = true) :
    (s.setValue v).value.1 = v ∧ ((s.setValue v).value.2 = none ↔ Mutf8.unitCount v < 2 ^ 32) := by
  have read : Mutf8.decode (s.setValue v).data = .ok v := Mutf8.decode_encode valid
  rw [value, read]
  refine ⟨rfl, ?_⟩
  dsimp only
  split
  · next same =>
    have bound : (s.setValue v).length.get < (2 ^ 32 : Nat) := Int.ofNat_lt.2 (s.setValue v).length.value.toNat_lt
    exact ⟨fun _ => by omega, fun _ => rfl⟩
  · next differs => exact ⟨nofun, fun fits => (differs (Uleb.get_set fits).symm).elim⟩

/-- For any string item, however it was reached, and any valid string `v`: the encoding of `v` has no zero byte and
decodes to `v`. After `setValue v`, decoding the encoding of the item, with any bytes before and behind, takes as many
bytes as were counted and gives `v`, with an error exactly if the number of UTF-16 units of `v` is 2^32 or more. -/
theorem gives_setValue (reached : s.Reached) (valid : Utf8.isValid v = true) :
    0 ∉ Mutf8.encode v ∧ Mutf8.decode (Mutf8.encode v) = .ok v ∧
      ∀ (t : StringItem) (before rest : Bytes) (marks : List Nat),
        let written := (s.setValue v).pieces.flatten
        let c : Cursor := ⟨(before ++ written ++ rest).toArray, before.length, marks⟩
        ∃ u, (decode c).Gives t { c with pos := c.pos + (s.setValue v).byteCount } u ∧
          u.value.1 = v ∧ (u.value.2 = none ↔ Mutf8.unitCount v < 2 ^ 32) := by
  have ends : 0 ∉ (s.setValue v).data := Mutf8.zero_notMem_units _
  refine ⟨ends, Mutf8.decode_encode valid, fun t before rest marks => ?_⟩
  have spans := Cursor.spans_here before (s.setValue v).pieces.flatten rest marks
  rw [length_pieces] at spans
  exact ⟨_, gives_decode (reached.fair.set _) ends (by simp) spans, value_setValue s valid⟩

/-- A string with a NUL, a character outside the basic plane and the replacement character, in an item whose length
was read from more bytes than it needs. -/
theorem gives_setValue_overlong :
    let s := ((decode (Cursor.ofBytes [0x84, 0x00, 0x61, 0x00])).apply {}).2
    let v : Bytes := [0x00, 0xf0, 0x9f, 0x98, 0x80, 0xef, 0xbf, 0xbd]
    let written : Bytes := [0x84, 0x00, 0xc0, 0x80, 0xed, 0xa0, 0xbd, 0xed, 0xb8, 0x80, 0xef, 0xbf, 0xbd, 0x00]
    s.Reached ∧ Utf8.isValid v = true ∧ (s.setValue v).pieces.flatten = written ∧
      ∃ u, (decode ⟨([0x09] ++ written ++ [0x62, 0x00]).toArray, 1, []⟩).Gives {}
          ⟨([0x09] ++ written ++ [0x62, 0x00]).toArray, 15, []⟩ u ∧ u.value.1 = v ∧ u.value.2 = none := by
  intro s v written
  have reached : s.Reached := .decode .new _
  have valid : Utf8.isValid v = true := by decide
  obtain ⟨-, -, reads⟩ := gives_setValue reached valid
  obtain ⟨u, gives, value, fits⟩ := reads {} [0x09] [0x62, 0x00] []
  exact ⟨reached, valid, by decide, u, gives, value, fits.2 (by decide)⟩

end StringItem

end Dalvik

namespace Dalvik

open Dalvik.Action
open Loading (wordAt)

variable {data : Bytes} {h : Header}

/-- The string with id `i` is stored as the units `us`. -/
def StoredAs (data : Bytes) (h : Header) (i : Nat) (us : List UInt16) : Prop :=
  ∃ (r : Bytes) (item : StringItem), itemAt? data h .string .word i = some r ∧
    item.pieces.flatten <+: data.drop (wordAt r 0) ∧
    item.length.Fair ∧ item.length.get = us.length ∧ item.data = us.flatMap Mutf8.encodeUnit

theorem StringItem.value_of_units {item : StringItem} {us : List UInt16} (length : item.length.get = us.length)
    (units : item.data = us.flatMap Mutf8.encodeUnit) : item.value = (Utf16.text us, none) := by
  rw [value, units, Mutf8.decode_units]
  dsimp only
  rw [Mutf8.unitCount_units, if_pos length.symm]

namespace Loading

variable {s t : Loading}

/-! ## Reading what is there -/

theorem Over.size (whole : Over data s) : s.cursor.data.size = data.length := by
  rw [whole]
  simp

theorem exists_seek {offset : Nat} (whole : Over data s) (fits : offset ≤ data.length) :
    ∃ t, (seek offset).Gives s ⟨⟩ t := by
  have moved : s.cursor.setPosition offset = .ok { s.cursor with pos := offset } := by
    rw [Cursor.setPosition, if_neg (by rw [whole.size]; omega), Int.toNat_natCast]
  simp only [seek, gives_bind, gives_get, gives_within, gives_lift, gives_modify]
  exact ⟨_, s, s, ⟨rfl, rfl⟩, _, s, ⟨moved, rfl⟩, rfl⟩

theorem exists_record {kind : FixedRecord} {offset : Nat} {r : Bytes} (whole : Over data s)
    (found : bytesAt? data offset kind.size = some r) : ∃ t, (record kind offset).Gives s r t := by
  have positive : 0 < kind.size := by cases kind <;> decide
  unfold bytesAt? at found
  split at found
  · next enough =>
    cases found
    have fits : offset ≤ data.length := by
      rw [List.length_take, List.length_drop] at enough
      omega
    obtain ⟨u, sought⟩ := exists_seek whole fits
    obtain ⟨moved, located⟩ := gives_seek sought
    have here : u.cursor.slice u.cursor.pos kind.size = (data.drop offset).take kind.size := by
      rw [slice_of_over (moved.whole whole), located]
    refine ⟨{ u with cursor := { u.cursor with pos := u.cursor.pos + kind.size } }, gives_bind.2 ⟨⟨⟩, u, sought, ?_⟩⟩
    refine gives_bind.2 ⟨u, u, gives_get.2 ⟨rfl, rfl⟩, ?_⟩
    dsimp only
    rw [here, if_pos enough, enough]
    exact gives_bind.2 ⟨⟨⟩, _, gives_modify.2 rfl, gives_pure.2 ⟨rfl, rfl⟩⟩
  · cases found

theorem exists_word {offset : Nat} {r : Bytes} (whole : Over data s)
    (found : bytesAt? data offset FixedRecord.word.size = some r) : ∃ t, (word offset).Gives s (wordAt r 0) t := by
  obtain ⟨t, read⟩ := exists_record whole found
  exact ⟨t, gives_bind.2 ⟨r, t, read, gives_pure.2 ⟨rfl, rfl⟩⟩⟩

theorem exists_part {σ : Type} {decode : Cursor → Action σ Cursor} {fresh x : σ} {offset : Nat} {c' : Cursor}
    (whole : Over data s) (fits : offset ≤ data.length) (decoded : (decode { data := data.toArray, pos := offset }).Gives fresh c' x) :
    ∃ t, (part decode fresh offset).Gives s x t := by
  obtain ⟨u, sought⟩ := exists_seek whole fits
  obtain ⟨moved, located⟩ := gives_seek sought
  have start : u.cursor = { data := data.toArray, pos := offset } := by
    rw [← located]
    exact moved.whole whole
  have run : (decode u.cursor).apply fresh = (.ok c', x) := by
    rw [start]
    exact decoded
  refine ⟨{ u with cursor := c' }, gives_bind.2 ⟨⟨⟩, u, sought, gives_bind.2 ⟨u, u, gives_get.2 ⟨rfl, rfl⟩, ?_⟩⟩⟩
  rw [run]
  exact gives_bind.2 ⟨c', u, gives_lift.2 ⟨rfl, rfl⟩, gives_bind.2 ⟨⟨⟩, _, gives_modify.2 rfl, gives_pure.2 ⟨rfl, rfl⟩⟩⟩

/-! ## One string -/

/-- Decodes the string of an id and puts it into the pool. -/
def readString (i offset : Nat) : Action Loading PUnit := do
  let item ← part StringItem.decode {} (← word offset)
  match item.value with
  | (_, some e) => Action.refuse (.within (ascii "string " ++ decimal i) e)
  | (v, none) => place (.string v) i

theorem readStrings_eq : readStrings = (do
    let s := (← get).header.strings
    eachOf s .word readString
    counted 2 "read " s.size.toNat " strings") := rfl

theorem apply_readString {i : Nat} {us : List UInt16} (whole : Over data s) (stored : StoredAs data h i us) :
    ∃ u, Moved s u ∧
      (readString i ((h.sectionOf .string).offset.toNat + FixedRecord.word.size * i)).apply s =
        (place (.string (Utf16.text us)) i).apply u := by
  obtain ⟨r, item, found, stands, fair, length, units⟩ := stored
  unfold itemAt? at found
  split at found
  · -- An item has at least its NUL, so it stands inside of the data.
    have fits : wordAt r 0 ≤ data.length := by
      by_contra outside
      rw [List.drop_eq_nil_of_le (by omega)] at stands
      have empty := List.prefix_nil.1 stands
      simp [StringItem.pieces] at empty
    obtain ⟨s₁, word⟩ := exists_word whole found
    obtain ⟨-, moved, -⟩ := gives_word whole word
    have spans := Cursor.Spans.mk (c := { data := data.toArray, pos := wordAt r 0 }) stands rfl
    have ends : 0 ∉ item.data := by
      rw [units]
      exact Mutf8.zero_notMem_units us
    have decoded := StringItem.gives_decode (t := {}) fair ends (by simpa using fits) spans
    obtain ⟨s₂, read⟩ := exists_part (moved.whole whole) fits decoded
    obtain ⟨-, moved'⟩ := gives_part (moved.whole whole) StringItem.forward read
    refine ⟨s₂, moved.trans moved', ?_⟩
    rw [readString, apply_bind_of_ok word, apply_bind_of_ok read,
      StringItem.value_of_units (by simpa using length) (by simpa using units)]
  · cases found

/-- `place` of a string succeeds exactly if the string gets the wanted index, that is, unless it is in the pool. -/
theorem apply_place_string (v : Bytes) (want : Nat) :
    (place (.string v) want).apply s =
      (if (Pool.addTo s.pool.strings v).1 = want then .ok ⟨⟩
        else .error (.failure (.misplaced (ascii "string") want (Constant.text (.string v)) (Pool.addTo s.pool.strings v).1)),
        { s with pool := { s.pool with strings := (Pool.addTo s.pool.strings v).2 } }) := by
  unfold place
  rw [apply_bind, apply_get]
  dsimp only
  rw [apply_bind, apply_lift, Pool.intern, Pool.internString]
  dsimp only
  rw [apply_bind, apply_modify]
  dsimp only
  by_cases same : (Pool.addTo s.pool.strings v).1 = want
  · rw [if_neg (by simpa using same), if_pos same]
    rfl
  · rw [if_pos (by simpa using same), if_neg same]
    rfl

theorem addTo_of_mem_toArray {done : List Bytes} {v : Bytes} (old : v ∈ done) :
    ∃ j, done[j]? = some v ∧ Pool.addTo done.toArray v = (j, done.toArray) := by
  have same : (Pool.addTo done.toArray v).2 = done.toArray := Pool.addTo_of_mem (List.mem_toArray.2 old)
  have found := Pool.idxOf?_addTo done.toArray v
  rw [same, List.idxOf?_toArray] at found
  obtain ⟨lt, located, -⟩ := List.idxOf?_eq_some_iff.1 found
  exact ⟨_, List.getElem?_eq_some_iff.2 ⟨lt, located⟩, Prod.ext rfl same⟩

/-! ## All strings -/

variable {f : Nat → Action Loading PUnit}

/-- Turn `i` of the loop decodes string `i` and puts it into the pool. -/
def TakesIn (data : Bytes) (f : Nat → Action Loading PUnit) (vs : List Bytes) : Prop :=
  ∀ i v, vs[i]? = some v → ∀ s, Over data s → ∃ u, Moved s u ∧ (f i).apply s = (place (.string v) i).apply u

/-- The loop succeeds if no string occurs twice, and otherwise fails at the first one that does. -/
theorem loop_strings (done rest : List Bytes) (takes : TakesIn data f (done ++ rest)) (distinct : done.Nodup)
    (whole : Over data s) (pool : s.pool.strings = done.toArray) :
    let loop : Action Loading PUnit :=
      forIn (List.range' done.length rest.length) PUnit.unit fun i _ => do f i; pure (.yield PUnit.unit)
    ((done ++ rest).Nodup ∧ ∃ t, loop.Gives s ⟨⟩ t ∧ t.pool.strings = (done ++ rest).toArray) ∨
      ∃ i j v t, j < i ∧ (done ++ rest)[i]? = some v ∧ (done ++ rest)[j]? = some v ∧ ((done ++ rest).take i).Nodup ∧
        loop.apply s = (.error (.failure (.misplaced (ascii "string") i (Constant.text (.string v)) j)), t) := by
  -- By induction on the strings still to come; the pool holds the ones before them, all different.
  induction rest generalizing done s with
  | nil =>
    rw [List.append_nil]
    exact .inl ⟨distinct, s, rfl, pool⟩
  | cons v rest ih =>
    have here : (done ++ v :: rest)[done.length]? = some v := by simp
    obtain ⟨u, moved, run⟩ := takes done.length v here s whole
    rw [apply_place_string, moved.pool, pool] at run
    simp only [List.length_cons, List.range'_succ]
    by_cases old : v ∈ done
    · obtain ⟨j, located, found⟩ := addTo_of_mem_toArray old
      have lt := (List.getElem?_eq_some_iff.1 located).1
      rw [found, if_neg (by omega)] at run
      exact .inr ⟨done.length, j, v, _, lt, here, by rw [List.getElem?_append_left lt, located], by rwa [List.take_left],
        apply_forIn_of_error run⟩
    · have split : done ++ v :: rest = done ++ [v] ++ rest := by simp
      have distinct' : (done ++ [v]).Nodup := by
        rw [← List.concat_eq_append, List.nodup_concat]
        exact ⟨old, distinct⟩
      rw [Pool.addTo_of_not_mem (by simpa using old), if_pos List.size_toArray] at run
      rw [split] at takes ⊢
      have next := ih (done ++ [v]) (s := { u with pool := { s.pool with strings := done.toArray.push v } }) takes distinct'
        (moved.whole whole) (by simp)
      rw [List.length_append, List.length_singleton] at next
      simpa only [Gives, apply_forIn_of_ok run] using next

/-- Any two lists of units decode, and to the same text exactly if they are equal once unpaired surrogates are
replaced (`repaired`). So `readStrings` succeeds if all strings of the file are different even then, with their texts
in the pool; otherwise it fails at the first one that is the same as one before it. -/
theorem readStrings_of_units {uss : List (List UInt16)} (whole : Over data s) (header : s.header = h)
    (empty : s.pool.strings = #[]) (count : uss.length = h.count .string)
    (stored : ∀ i us, uss[i]? = some us → StoredAs data h i us) :
    (∀ us ws : List UInt16, ∃ v w, Mutf8.decode (us.flatMap Mutf8.encodeUnit) = .ok v ∧
      Mutf8.decode (ws.flatMap Mutf8.encodeUnit) = .ok w ∧ (v = w ↔ Utf16.repaired us = Utf16.repaired ws)) ∧
    ((uss.map Utf16.repaired).Nodup →
      ∃ t, readStrings.Gives s ⟨⟩ t ∧ t.pool.strings = (uss.map Utf16.text).toArray) ∧
    (¬ (uss.map Utf16.repaired).Nodup → ∃ i j us ws t, j < i ∧ uss[i]? = some us ∧ uss[j]? = some ws ∧
      Utf16.repaired us = Utf16.repaired ws ∧ ((uss.take i).map Utf16.repaired).Nodup ∧
      readStrings.apply s =
        (.error (.failure (.misplaced (ascii "string") i (Constant.text (.string (Utf16.text us))) j)), t)) := by
  have takes : TakesIn data (fun i => readString i ((h.sectionOf .string).offset.toNat + FixedRecord.word.size * i))
      (uss.map Utf16.text) := by
    intro i v located s whole
    rw [List.getElem?_map] at located
    obtain ⟨us, found, rfl⟩ := Option.map_eq_some_iff.1 located
    exact apply_readString whole (stored i us found)
  have distinct : ∀ uss : List (List UInt16), (uss.map Utf16.text).Nodup ↔ (uss.map Utf16.repaired).Nodup := by
    intro uss
    rw [List.Nodup, List.Nodup, List.pairwise_map, List.pairwise_map]
    exact List.Pairwise.iff fun _ _ => not_congr Utf16.text_eq_iff
  refine ⟨fun us ws => ⟨_, _, Mutf8.decode_units us, Mutf8.decode_units ws, Utf16.text_eq_iff⟩, ?_⟩
  rw [← distinct]
  have loop := loop_strings [] _ takes List.nodup_nil whole empty
  rw [List.nil_append, List.length_nil, List.length_map, count, ← header] at loop
  rw [readStrings_eq]
  rcases loop with ⟨nodup, t, run, strings⟩ | ⟨i, j, v, t, lt, located, before, earlier, run⟩
  · have through : (eachOf s.header.strings .word readString).Gives s ⟨⟩ t := apply_eachOf.trans run
    obtain ⟨u, told, same⟩ : ∃ u, (counted 2 "read " s.header.strings.size.toNat " strings").Gives t ⟨⟩ u ∧ u.pool = t.pool :=
      ⟨_, gives_modify.2 rfl, rfl⟩
    refine ⟨fun _ => ⟨u, ?_, by rw [same, strings]⟩, fun repeats => (repeats nodup).elim⟩
    exact gives_bind.2 ⟨s, s, gives_get.2 ⟨rfl, rfl⟩, gives_bind.2 ⟨⟨⟩, t, through, told⟩⟩
  · have repeats : ¬ (uss.map Utf16.text).Nodup := fun nodup =>
      absurd ((List.getElem?_inj (List.getElem?_eq_some_iff.1 located).1 nodup).1 (located.trans before.symm)) (Nat.ne_of_gt lt)
    rw [← List.map_take, distinct] at earlier
    rw [List.getElem?_map] at located before
    obtain ⟨us, found, rfl⟩ := Option.map_eq_some_iff.1 located
    obtain ⟨ws, found', same⟩ := Option.map_eq_some_iff.1 before
    refine ⟨fun nodup => (repeats nodup).elim, fun _ => ⟨i, j, us, ws, t, lt, found, found', ?_, earlier, ?_⟩⟩
    · exact Utf16.text_eq_iff.1 same.symm
    · exact (apply_bind_of_ok (apply_get s)).trans (apply_bind_of_error (apply_eachOf.trans run))

/-- Two different unpaired surrogates, which both decode to the replacement character. -/
theorem readStrings_of_halves :
    let data : Bytes := [8, 0, 0, 0, 13, 0, 0, 0, 1, 0xed, 0xa0, 0x80, 0, 1, 0xed, 0xa0, 0x81, 0]
    let h : Header := { strings := { size := 2, offset := 0 } }
    let s : Loading := { cursor := .ofBytes data, header := h }
    StoredAs data h 0 [0xd800] ∧ StoredAs data h 1 [0xd801] ∧
      ∃ t, readStrings.apply s = (.error (.failure (.misplaced (ascii "string") 1 (ascii "\"\\ufffd\"") 0)), t) := by
  intro data h s
  have first : StoredAs data h 0 [0xd800] :=
    ⟨[8, 0, 0, 0], { length := ⟨1, none⟩, data := [0xed, 0xa0, 0x80] }, by decide, by decide, Uleb.fair_mk 1, rfl,
      by decide⟩
  have second : StoredAs data h 1 [0xd801] :=
    ⟨[13, 0, 0, 0], { length := ⟨1, none⟩, data := [0xed, 0xa0, 0x81] }, by decide, by decide, Uleb.fair_mk 1, rfl,
      by decide⟩
  have whole : Over data s := rfl
  have count : ([[0xd800], [0xd801]] : List (List UInt16)).length = h.count .string := rfl
  obtain ⟨-, -, stops⟩ := readStrings_of_units whole (rfl : s.header = h) rfl count fun i us found => by
    match i, found with
    | 0, rfl => exact first
    | 1, rfl => exact second
  obtain ⟨i, j, us, ws, t, lt, located, before, -, -, run⟩ := stops (by decide)
  have bound : i < 2 := (List.getElem?_eq_some_iff.1 located).1
  obtain ⟨rfl, rfl⟩ : i = 1 ∧ j = 0 := by omega
  cases located
  have text : Constant.text (.string (Utf16.text [0xd801])) = ascii "\"\\ufffd\"" := by decide
  rw [text] at run
  exact ⟨first, second, t, run⟩

end Loading

end Dalvik
