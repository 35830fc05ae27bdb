import Dalvik.Proofs.Assembly.Writer
import Dalvik.Proofs.Block
import Dalvik.Proofs.Item

/-!
# Array contents

An array stores each value in as many bytes as its width says, and `values` sign-extends them again
(`values_of_stored`). Setting the values an array has changes nothing (`setValues_signExtend`). The
values that are set are found again after encoding and decoding, and after printing and parsing
(`values_read_back`); only their number is cut to 32 bits.
-/

namespace Dalvik.ArrayPayload

open Literal (signExtend)

variable {a b : ArrayPayload} {width : Nat}

/-! ## Stored values -/

/-- The bytes of a value. -/
def stored (width : Nat) (v : Int) : Bytes := toLittleEndian width (v % twoPow 64).toNat

theorem length_stored (width : Nat) (v : Int) : (stored width v).length = width := length_toLittleEndian _ _

theorem littleEndian_stored (le : width ≤ 8) (v : Int) : (littleEndian (stored width v) : Int) = v % twoPow (8 * width) := by
  have nonneg : 0 ≤ v % twoPow 64 := Int.emod_nonneg v (by decide)
  have power : 256 ^ width = twoPow (8 * width) := by rw [twoPow_eq, Nat.pow_mul]
  have divides : ((twoPow (8 * width) : Nat) : Int) ∣ twoPow 64 :=
    Int.natCast_dvd_natCast.2 (Nat.pow_dvd_pow 2 (by omega))
  rw [stored, littleEndian_toLittleEndian, power, Int.natCast_mod, Int.toNat_of_nonneg nonneg, Int.emod_emod_of_dvd v divides]

theorem signExtend_littleEndian (le : width ≤ 8) (v : Int) :
    signExtend (8 * width) (littleEndian (stored width v)) = signExtend (8 * width) v := by
  rw [littleEndian_stored le, signExtend, signExtend, Int.emod_bmod]

/-- The bytes of a value are those of its sign extension. -/
theorem stored_signExtend (le : width ≤ 8) (v : Int) : stored width (signExtend (8 * width) v) = stored width v := by
  have same : littleEndian (stored width (signExtend (8 * width) v)) = littleEndian (stored width v) := by
    rw [← Int.natCast_inj, littleEndian_stored le, littleEndian_stored le, signExtend, Int.bmod_emod]
  rw [← toLittleEndian_littleEndian (stored width v), ← toLittleEndian_littleEndian (stored width (signExtend (8 * width) v)),
    same, length_stored, length_stored]

theorem flatMap_stored_signExtend (le : width ≤ 8) (vs : List Int) :
    (vs.map (signExtend (8 * width))).flatMap (stored width) = vs.flatMap (stored width) := by
  rw [List.flatMap_map]
  exact List.flatMap_congr fun v _ => stored_signExtend le v

theorem length_flatMap_stored (vs : List Int) : (vs.flatMap (stored width)).length = width * vs.length :=
  Item.length_flatMap_toLittleEndian width vs

/-- `chunks` cuts a run of chunks of one size into these chunks. -/
theorem chunks_flatMap {f : Int → Bytes} {w : Nat} (length : ∀ v, (f v).length = w + 1) (vs : List Int) :
    chunks w (vs.flatMap f) = vs.map f := by
  induction vs with
  | nil =>
    rw [List.flatMap_nil, chunks]
    rfl
  | cons v vs ih =>
    have front : (f v ++ vs.flatMap f).take (w + 1) = f v := by rw [← length v, List.take_left]
    have back : (f v ++ vs.flatMap f).drop (w + 1) = vs.flatMap f := by rw [← length v, List.drop_left]
    rw [List.flatMap_cons, chunks, front, back, if_pos (length v), ih, List.map_cons]

theorem isWidth_cases {w : Int} (h : isWidth w = true) : w = 1 ∨ w = 2 ∨ w = 4 ∨ w = 8 := by
  simp only [isWidth, Bool.or_eq_true, decide_eq_true_eq] at h
  tauto

theorem values_of_stored (known : isWidth a.width.toNat = true) {vs : List Int} (data : a.data = vs.flatMap (stored a.width.toNat)) :
    a.values = vs.map (signExtend (8 * a.width.toNat)) := by
  have cases := isWidth_cases known
  have length : ∀ v, (stored a.width.toNat v).length = a.width.toNat - 1 + 1 := by
    intro v
    rw [length_stored]
    omega
  rw [values, data, chunks_flatMap length, List.map_map]
  exact List.map_congr_left fun v _ => signExtend_littleEndian (by omega) v

/-- What `chunks` gives makes the text again, and has the size. -/
theorem flatten_chunks {w n : Nat} {s : Bytes} (length : s.length = (w + 1) * n) :
    (chunks w s).flatten = s ∧ ∀ c ∈ chunks w s, c.length = w + 1 := by
  induction n generalizing s with
  | zero =>
    obtain rfl := List.length_eq_zero_iff.1 (length.trans (Nat.mul_zero _))
    rw [chunks]
    exact ⟨rfl, nofun⟩
  | succ n ih =>
    rw [Nat.mul_succ] at length
    have front : (s.take (w + 1)).length = w + 1 := by
      rw [List.length_take]
      omega
    obtain ⟨flat, each⟩ := @ih (s.drop (w + 1)) (by rw [List.length_drop]; omega)
    rw [chunks, if_pos front, List.flatten_cons, flat]
    exact ⟨List.take_append_drop _ s, List.forall_mem_cons.2 ⟨front, each⟩⟩

/-- Storing the value of `c.length` bytes gives the bytes. -/
theorem stored_littleEndian {c : Bytes} (le : c.length ≤ 8) : stored c.length (signExtend (8 * c.length) (littleEndian c)) = c := by
  have small : littleEndian c < twoPow 64 := by
    have lt := littleEndian_lt c
    have most : 256 ^ c.length ≤ 256 ^ 8 := Nat.pow_le_pow_right (by decide) le
    rw [twoPow_eq]
    omega
  rw [stored_signExtend le, stored, Int.emod_eq_of_lt (Int.natCast_nonneg _) (Int.ofNat_lt.2 small), Int.toNat_natCast,
    toLittleEndian_littleEndian]

/-- The data of an array are the stored values. -/
theorem Shaped.data_eq (ha : a.Shaped) : a.data = a.values.flatMap (stored a.width.toNat) := by
  have width := isWidth_cases ha.width
  obtain ⟨n, length, -⟩ := ha.count
  obtain ⟨w, hw⟩ : ∃ w, a.width.toNat = w + 1 := ⟨a.width.toNat - 1, by omega⟩
  rw [hw] at width length
  obtain ⟨flat, each⟩ := flatten_chunks length
  rw [values, hw, Nat.add_sub_cancel, List.flatMap_map]
  conv_lhs => rw [← flat, ← List.flatMap_id]
  refine List.flatMap_congr fun c hc => ?_
  have here := stored_littleEndian (c := c) (by rw [each c hc]; omega)
  rwa [each c hc, eq_comm] at here

/-! ## Setting values -/

section

variable {w : Int} {vs : List Int}

theorem toNat_ofInt_width (known : isWidth w = true) : ((UInt16.ofInt w).toNat : Int) = w := by
  rcases isWidth_cases known with rfl | rfl | rfl | rfl <;> rfl

theorem setValues_eq (known : isWidth w = true) (a : ArrayPayload) (vs : List Int) :
    a.setValues w vs = .ok { a with
      width := UInt16.ofInt w
      count := UInt32.ofNat vs.length
      data := vs.flatMap (stored w.toNat)
      pad := resizeList ((vs.flatMap (stored w.toNat)).length % 2) 0 a.pad } := by
  rw [setValues, if_pos known]
  rfl

/-- Sign-extending the values first does not change what `setValues` does. -/
theorem setValues_signExtend (known : isWidth w = true) (a : ArrayPayload) (vs : List Int) :
    a.setValues w (vs.map (signExtend (8 * w.toNat))) = a.setValues w vs := by
  have cases := isWidth_cases known
  rw [setValues_eq known, setValues_eq known, flatMap_stored_signExtend (by omega), List.length_map]

/-- `setValues` with the values an array has gives the array. -/
theorem setValues_self (known : isWidth w = true) (width : a.width = UInt16.ofInt w) (count : a.count = UInt32.ofNat vs.length)
    (data : a.data = vs.flatMap (stored w.toNat)) (even : a.Even) : a.setValues w vs = .ok a := by
  have pad : resizeList ((vs.flatMap (stored w.toNat)).length % 2) 0 a.pad = a.pad := by
    rw [← data, ← (show a.pad.length = a.data.length % 2 from even), resizeList, List.take_length, Nat.sub_self,
      List.replicate_zero, List.append_nil]
  rw [setValues_eq known, pad, ← width, ← count, ← data]

/-- `setValues` with the values of an array whose padding is zero makes the array from an empty one. -/
theorem Shaped.setValues_values (ha : a.Shaped) (zero : ∀ b ∈ a.pad, b = 0) : ({} : ArrayPayload).setValues a.width.toNat a.values = .ok a := by
  obtain ⟨n, length, count⟩ := ha.count
  have many : a.values.length = n := by
    have total : (a.values.flatMap (stored a.width.toNat)).length = a.width.toNat * a.values.length := length_flatMap_stored _
    rw [← ha.data_eq, length] at total
    have pos : 0 < a.width.toNat := by
      have := isWidth_cases ha.width
      omega
    exact (Nat.eq_of_mul_eq_mul_left pos total).symm
  have pad : resizeList (a.data.length % 2) 0 ([] : Bytes) = a.pad := by
    rw [resizeList, List.take_nil, List.nil_append, List.length_nil, Nat.sub_zero, ← ha.pad]
    exact (List.eq_replicate_of_mem zero).symm
  rw [setValues_eq ha.width, Int.toNat_natCast, ← ha.data_eq, many, ← count, pad]
  have width : UInt16.ofInt a.width.toNat = a.width := by
    rw [← UInt16.toNat_inj]
    exact Int.ofNat.inj (toNat_ofInt_width ha.width)
  have identifier := ha.identifier
  rw [width]
  cases a
  obtain rfl := identifier
  rfl

theorem Even.two_dvd (even : a.Even) : 2 ∣ a.pieces.flatten.length := by
  rw [length_pieces, byteCount, show a.pad.length = a.data.length % 2 from even]
  omega

/-- Decoding the encoding of an array reads the values that the 32-bit count says. -/
theorem exists_raw (identifier : a.identifier = UInt16.ofNat Opcode.arrayPayload.value) (known : isWidth w = true)
    (filled : a.setValues w vs = .ok b) :
    ∃ d more, Raw d ∧ b.pieces.flatten = d.pieces.flatten ++ more ∧ d.width = UInt16.ofInt w ∧
      d.count = UInt32.ofNat (vs.length % 2 ^ 32) ∧ d.data = (vs.take (vs.length % 2 ^ 32)).flatMap (stored w.toNat) ∧
      (vs.length < 2 ^ 32 → d = b ∧ more = []) := by
  have width : (UInt16.ofInt w).toNat = w.toNat := by
    have := toNat_ofInt_width known
    omega
  have small : vs.length % 2 ^ 32 < 2 ^ 32 := Nat.mod_lt _ (by decide)
  have whole : vs.length < 2 ^ 32 → vs.length % 2 ^ 32 = vs.length := Nat.mod_eq_of_lt
  have counted : UInt32.ofNat vs.length = UInt32.ofNat (vs.length % 2 ^ 32) := by
    rw [← UInt32.toNat_inj, UInt32.toNat_ofNat', UInt32.toNat_ofNat', Nat.mod_mod]
  have le : vs.length % 2 ^ 32 ≤ vs.length := Nat.mod_le _ _
  generalize vs.length % 2 ^ 32 = n at small whole counted le ⊢
  let kept := (vs.take n).flatMap (stored w.toNat)
  let gone := (vs.drop n).flatMap (stored w.toNat)
  let pad := resizeList ((kept ++ gone).length % 2) 0 a.pad
  have all : vs.flatMap (stored w.toNat) = kept ++ gone := by rw [← List.flatMap_append, List.take_append_drop]
  have length : kept.length = w.toNat * n := by rw [length_flatMap_stored, List.length_take, Nat.min_eq_left le]
  rw [setValues_eq known, all, Except.ok.injEq] at filled
  subst filled
  -- The byte behind an odd number of bytes is the padding, or one of a value that is not counted.
  have enough : kept.length % 2 ≤ (gone ++ pad).length := by
    rw [List.length_append, length_resizeList, List.length_append]
    omega
  refine ⟨{ a with
    width := UInt16.ofInt w
    count := UInt32.ofNat n
    data := kept
    pad := (gone ++ pad).take (kept.length % 2) }, (gone ++ pad).drop (kept.length % 2), ⟨identifier, ?_, ?_, ?_⟩, ?_, rfl, rfl,
    rfl, fun short => ?_⟩
  · rw [toNat_ofInt_width known]
    exact known
  · rw [width, UInt32.toNat_ofNat_of_lt' small]
    exact length
  · rw [List.length_take, Nat.min_eq_left enough]
  · rw [flatten_pieces, flatten_pieces]
    simp only [counted, List.append_assoc, List.take_append_drop, pad]
  · have none : gone = [] := by rw [show gone = (vs.drop n).flatMap _ from rfl, whole short, List.drop_length, List.flatMap_nil]
    have padded : pad.length = kept.length % 2 := by rw [length_resizeList, none, List.append_nil]
    rw [none, List.nil_append, ← padded, List.take_length, List.drop_length]
    simp only [counted, List.append_nil, pad, none, and_self]

end

/-! ## Reading what was stored -/

open Assembly (ArrayData readArrayData render Scanner)

/-- The element that the array is printed as. -/
def asText (a : ArrayPayload) : ArrayData := { width := a.width.toNat, values := a.values }

theorem readable_asText (known : isWidth a.width.toNat = true) {vs : List Int}
    (values : a.values = vs.map (signExtend (8 * a.width.toNat))) : a.asText.Readable where
  width := isWidth_cases known
  values v hv := by
    have bits : a.asText.kind.width = 8 * a.width.toNat :=
      Int.ofNat.inj (ArrayData.width_kind (a := a.asText) (isWidth_cases known))
    rw [asText, values] at hv
    obtain ⟨u, -, rfl⟩ := List.mem_map.1 hv
    rw [bits, signExtend, signExtend, Int.bmod_bmod]

/-- `setValues` with a width of 1, 2, 4 or 8 and any values succeeds, and the encoding has an even number of bytes.
Decoding it, with any bytes before and behind, gives an array with these values sign-extended from the width, cut to a
32-bit number of values; with fewer than 2^32 values it is the same array, and all its bytes are taken. Parsing the
printed array gives the same width and values, and `setValues` with them makes the same array. -/
theorem values_read_back (identifier : a.identifier = UInt16.ofNat Opcode.arrayPayload.value) {w : Int} (known : isWidth w = true)
    (vs : List Int) : ∃ b, a.setValues w vs = .ok b ∧ 2 ∣ b.pieces.flatten.length ∧
      ∀ (old : ArrayPayload) (before rest : Bytes), ∃ c d,
        (decode ⟨(before ++ b.pieces.flatten ++ rest).toArray, before.length, []⟩).Gives old c d ∧
        2 ∣ d.pieces.flatten.length ∧
        d.values = (vs.take (vs.length % 2 ^ 32)).map (signExtend (8 * w.toNat)) ∧
        (vs.length < 2 ^ 32 → d = b ∧ d.values = vs.map (signExtend (8 * w.toNat)) ∧
          c.pos = before.length + b.pieces.flatten.length) ∧
        ∀ (step : Int) (comments : Bool) (more : Bytes) (s : Scanner),
          s.Left (render d.asText.write { step, comments } ++ more) →
          ∃ q t, readArrayData.Gives s q t ∧ q.width = w ∧ q.values = d.values ∧
            d.setValues q.width q.values = .ok d ∧ (vs.length < 2 ^ 32 → a.setValues q.width q.values = .ok b) := by
  obtain ⟨b, filled⟩ : ∃ b, a.setValues w vs = .ok b := ⟨_, setValues_eq known a vs⟩
  obtain ⟨d, more, raw, bytes, width, count, data, whole⟩ := exists_raw identifier known filled
  have wide : (d.width.toNat : Int) = w := by rw [width, toNat_ofInt_width known]
  have nat : d.width.toNat = w.toNat := by omega
  have values : d.values = (vs.take (vs.length % 2 ^ 32)).map (signExtend (8 * w.toNat)) := by
    rw [← nat] at data ⊢
    exact values_of_stored raw.width data
  have all (short : vs.length < 2 ^ 32) : d.values = vs.map (signExtend (8 * w.toNat)) := by
    rw [values, Nat.mod_eq_of_lt short, List.take_length]
  have even : b.Even := by
    rw [setValues_eq known, Except.ok.injEq] at filled
    rw [← filled]
    exact length_resizeList
  refine ⟨b, filled, even.two_dvd, fun old before rest => ?_⟩
  have spans := Cursor.spans_here before d.pieces.flatten (more ++ rest) []
  have text : before ++ d.pieces.flatten ++ (more ++ rest) = before ++ b.pieces.flatten ++ rest := by simp [bytes]
  rw [text] at spans
  have read := raw.gives_decode spans (by simp) old
  refine ⟨_, d, read, Even.two_dvd raw.pad, values, fun short => ⟨(whole short).1, all short, ?_⟩, fun step comments more s hs => ?_⟩
  · rw [(whole short).1]
  · obtain ⟨q, t, -, gives, same, -⟩ := ArrayData.readArrayData_render (readable_asText raw.width (nat ▸ values)) step comments hs
    have qw : q.width = w := (congrArg ArrayData.width same).trans wide
    have qv : q.values = d.values := congrArg ArrayData.values same
    refine ⟨q, t, gives, qw, qv, ?_, fun short => ?_⟩
    · rw [qw, qv, values, setValues_signExtend known]
      refine setValues_self known width ?_ data raw.pad
      rw [count, List.length_take, Nat.min_eq_left (Nat.mod_le _ _)]
    · rw [qw, qv, all short, setValues_signExtend known, filled]

/-- Three bytes, of which one is negative and one is cut, between bytes that do not belong to the array. -/
theorem values_read_back_cut :
    ∃ b c d, ({} : ArrayPayload).setValues 1 [-128, 300, 7] = .ok b ∧
      (decode ⟨([1, 2] ++ b.pieces.flatten ++ [3]).toArray, 2, []⟩).Gives {} c d ∧ d.values = [-128, 44, 7] ∧
      ∃ q t, readArrayData.Gives (.ofBytes (render d.asText.write)) q t ∧ q.values = d.values ∧
        ({} : ArrayPayload).setValues q.width q.values = .ok b := by
  obtain ⟨b, filled, -, read⟩ := values_read_back (a := {}) rfl (w := 1) (by decide) [-128, 300, 7]
  obtain ⟨c, d, gives, -, -, whole, printed⟩ := read {} [1, 2] [3]
  obtain ⟨rfl, values, -⟩ := whole (by decide)
  have text : d.asText = { width := 1, values := [-128, 44, 7] } := by
    rw [setValues_eq (by decide), Except.ok.injEq] at filled
    rw [asText, values, ← filled]
    rfl
  have length : (render d.asText.write).length = 60 := by
    rw [text]
    decide +kernel
  have left : (Scanner.ofBytes (render d.asText.write)).Left (render d.asText.write { step := 4, comments := true } ++ []) :=
    ⟨Nat.zero_le _, (List.append_nil _).symm, by rw [Scanner.ofBytes, List.size_toArray, length]; decide⟩
  obtain ⟨q, t, found, -, same, -, again⟩ := printed 4 true [] _ left
  exact ⟨d, c, d, filled, gives, values, q, t, found, same, again (by decide)⟩

end Dalvik.ArrayPayload
