import Dalvik.Proofs.Assembly.Scanner
import Mathlib.Data.List.DropRight

/-!
# Places of a text

`placeOf name text p` is the line and the column of the position `p`, counted from the beginning of
the text. A scanner counts on from the last place it told instead. `Tally name text s` says that the
scanner `s` stands inside `text` and that what it remembers is right; then `origin` gives the place
of its position (`Tally.origin`), and setting the position keeps it so (`Tally.moved`). `Reads name
text s` says besides that the text has fewer than 2^63 bytes.
-/

namespace Dalvik.Assembly

variable {name text w : Bytes} {s : Scanner}

/-- The line and the column of a position: one more than the newlines in front of it, and one more than the bytes
since the last of them. -/
def placeOf (name text : Bytes) (p : Nat) : Origin where
  name
  line := (text.take p).count newline + 1
  column := ((text.take p).rtakeWhile (· != newline)).length + 1

/-! ## Counting -/

/-- `counted` is the line of position `i` and the position where this line starts. -/
def Counts (text : Bytes) (i : Nat) (counted : Nat × Nat) : Prop :=
  counted.1 = (text.take i).count newline + 1 ∧ counted.2 + ((text.take i).rtakeWhile (· != newline)).length = i

theorem counts_zero : Counts text 0 (1, 0) := ⟨rfl, rfl⟩

theorem Counts.next {i line start : Nat} (h : Counts text i (line, start)) (hi : i < text.length) :
    Counts text (i + 1) (if text.toArray[i]? = some newline then (line + 1, i + 1) else (line, start)) := by
  obtain ⟨hline, hstart⟩ := h
  dsimp only at hline hstart
  have front : text.take (i + 1) = text.take i ++ [text[i]] := List.take_succ_eq_append_getElem hi
  have here : text.toArray[i]? = some text[i] := by simp [hi]
  rw [Counts, front, here, List.count_append, List.rtakeWhile_concat]
  by_cases ends : text[i] = newline
  · rw [if_pos (by rw [ends]), if_neg (by simp [ends]), ends]
    exact ⟨by rw [List.count_singleton_self, hline], rfl⟩
  · rw [if_neg (by simpa using ends), if_pos (by simpa using ends), List.count_singleton, if_neg (by simpa using ends),
      List.length_append, List.length_singleton]
    exact ⟨hline, by dsimp only; omega⟩

/-- `countLines` counts on from a position whose line is right. -/
theorem Counts.countLines {n i : Nat} {lineStart : Nat × Nat} (h : Counts text i lineStart) (inside : i + n ≤ text.length) :
    Counts text (i + n) (Scanner.countLines text.toArray n i lineStart) := by
  induction n generalizing i lineStart with
  | zero => exact h
  | succ n ih =>
    obtain ⟨line, start⟩ := lineStart
    have counted := ih (h.next (by omega)) (by omega)
    rwa [Nat.add_right_comm] at counted

/-- The place that a line and its start give for a position. -/
theorem Counts.place {p : Nat} {counted : Nat × Nat} (h : Counts text p counted) :
    (⟨name, counted.1, p - counted.2 + 1⟩ : Origin) = placeOf name text p := by
  obtain ⟨line, start⟩ := h
  rw [placeOf, Origin.mk.injEq]
  exact ⟨rfl, line, by omega⟩

/-! ## Scanners inside a text -/

/-- The scanner stands inside `text`, and the line and the line start it remembers are those of the position
`s.counted`. -/
structure Tally (name text : Bytes) (s : Scanner) : Prop where
  named : s.name = name
  data : s.data = text.toArray
  inside : s.pos ≤ text.length
  counted : s.counted ≤ text.length
  counts : Counts text s.counted (s.line, s.lineStart)

namespace Tally

theorem ofBytes : Tally name text (.ofBytes text name) :=
  ⟨rfl, rfl, Nat.zero_le _, Nat.zero_le _, counts_zero⟩

theorem size (h : Tally name text s) : s.data.size = text.length := by
  rw [h.data, List.size_toArray]

/-- Changing the position keeps `Tally`. -/
theorem moved (h : Tally name text s) {p : Nat} (hp : p ≤ text.length) : Tally name text { s with pos := p } :=
  { h with inside := hp }

theorem recount (h : Tally name text s) (before : s.counted ≤ s.pos) :
    Counts text s.pos (Scanner.countLines s.data (s.pos - s.counted) s.counted (s.line, s.lineStart)) := by
  have inside := h.inside
  have counts := h.counts.countLines (n := s.pos - s.counted) (by omega)
  rwa [Nat.add_sub_cancel' before, ← h.data] at counts

theorem origin_of_le (h : Tally name text s) (before : s.counted ≤ s.pos) :
    s.origin.1 = placeOf name text s.pos ∧ Tally name text s.origin.2 ∧ s.origin.2.pos = s.pos := by
  rw [Scanner.origin, if_neg (Nat.not_lt.2 before)]
  refine ⟨?_, { h with counted := h.inside, counts := h.recount before }, rfl⟩
  rw [← h.named]
  exact (h.recount before).place

/-- `origin` gives the place of the position and keeps `Tally`. -/
theorem origin (h : Tally name text s) :
    s.origin.1 = placeOf name text s.pos ∧ Tally name text s.origin.2 ∧ s.origin.2.pos = s.pos := by
  by_cases behind : s.pos < s.counted
  · have anew : s.origin = ({ s with counted := 0, line := 1, lineStart := 0 } : Scanner).origin := by
      rw [Scanner.origin, if_pos behind]
      rfl
    have back : Tally name text { s with counted := 0, line := 1, lineStart := 0 } :=
      { h with counted := Nat.zero_le _, counts := counts_zero }
    rw [anew]
    exact back.origin_of_le (Nat.zero_le _)
  · exact h.origin_of_le (Nat.not_lt.1 behind)

/-! ### Moves -/

/-- `setPosition` keeps `Tally`: a position outside the text is replaced by the nearer end. -/
theorem setPosition (h : Tally name text s) (p : Int) : Tally name text (s.setPosition p) :=
  h.moved (by rw [h.size]; omega)

theorem startsWith (h : Tally name text s) : s.startsWith w = w.isPrefixOf (text.drop s.pos) := by
  rw [Scanner.startsWith, Scanner.matchesAt_eq, h.data]

theorem room (h : Tally name text s) (next : s.startsWith w = true) : s.pos + w.length ≤ text.length := by
  rw [h.startsWith, List.isPrefixOf_iff_prefix] at next
  have length := next.length_le
  have inside := h.inside
  rw [List.length_drop] at length
  omega

theorem skipWhile (h : Tally name text s) (p : UInt8 → Bool) :
    Tally name text (s.skipWhile p) ∧ s.pos ≤ (s.skipWhile p).pos := by
  have inside := h.inside
  have length := (List.takeWhile_sublist p (l := s.data.toList.drop s.pos)).length_le
  rw [List.length_drop, show s.data.toList.length = text.length from h.size] at length
  have stop : Scanner.runEnd p s.data (s.data.size - s.pos) s.pos =
      s.pos + ((s.data.toList.drop s.pos).takeWhile p).length := Scanner.runEnd_eq p s.data _ _ (by omega)
  refine ⟨h.moved ?_, ?_⟩
  · rw [stop]
    omega
  · rw [Scanner.skipWhile]
    dsimp only
    omega

/-- `skipLine` keeps `Tally` and moves on, unless the text is at its end. -/
theorem skipLine (h : Tally name text s) : Tally name text s.skipLine ∧ s.pos ≤ s.skipLine.pos ∧
    (s.finished = false → s.pos < s.skipLine.pos) := by
  obtain ⟨tally, le⟩ := h.skipWhile (· != newline)
  have size := tally.size
  rw [Scanner.skipLine]
  split
  · next ended =>
    rw [Scanner.finished, decide_eq_true_eq, size] at ended
    refine ⟨tally, le, fun unfinished => ?_⟩
    rw [Scanner.finished, decide_eq_false_iff_not, h.size] at unfinished
    omega
  · next more =>
    rw [Scanner.finished, decide_eq_true_eq, size] at more
    exact ⟨tally.moved (by omega), by dsimp only; omega, fun _ => by dsimp only; omega⟩

theorem skipBlankFuel (h : Tally name text s) (fuel : Nat) :
    Tally name text (Scanner.skipBlankFuel fuel s) ∧ s.pos ≤ (Scanner.skipBlankFuel fuel s).pos := by
  induction fuel generalizing s with
  | zero => exact ⟨h, Nat.le_refl _⟩
  | succ fuel ih =>
    obtain ⟨white, le⟩ := h.skipWhile isWhite
    rw [Scanner.skipBlankFuel]
    split
    · obtain ⟨line, le', -⟩ := white.skipLine
      obtain ⟨tally, le''⟩ := ih line
      exact ⟨tally, by omega⟩
    · exact ⟨white, le⟩

theorem accept (h : Tally name text s) (w : Bytes) : Tally name text (s.accept w).2 ∧ s.pos ≤ (s.accept w).2.pos := by
  rw [Scanner.accept]
  split
  · next next => exact ⟨h.moved (h.room next), Nat.le_add_right _ _⟩
  · exact ⟨h, Nat.le_refl _⟩

end Tally

/-- `Tally name text s`, for a text of fewer than 2^63 bytes. -/
structure Reads (name text : Bytes) (s : Scanner) : Prop where
  named : s.name = name
  data : s.data = text.toArray
  inside : s.pos ≤ text.length
  counted : s.counted ≤ text.length
  counts : Counts text s.counted (s.line, s.lineStart)
  fits : text.length < twoPow 63

theorem Tally.reads (h : Tally name text s) (fits : text.length < twoPow 63) : Reads name text s := { h with fits }

namespace Reads

theorem tally (h : Reads name text s) : Tally name text s := { h with }

theorem ofBytes (fits : text.length < twoPow 63) : Reads name text (.ofBytes text name) := Tally.ofBytes.reads fits

theorem size (h : Reads name text s) : s.data.size = text.length := h.tally.size

theorem moved (h : Reads name text s) {p : Nat} (hp : p ≤ text.length) : Reads name text { s with pos := p } :=
  { h with inside := hp }

theorem setPosition (h : Reads name text s) {p : Nat} (hp : p ≤ text.length) :
    s.setPosition p = { s with pos := p } := by
  rw [Scanner.setPosition, h.size]
  congr 1
  omega

theorem origin (h : Reads name text s) :
    s.origin.1 = placeOf name text s.pos ∧ Reads name text s.origin.2 ∧ s.origin.2.pos = s.pos :=
  h.tally.origin.imp_right (.imp_left fun tally => tally.reads h.fits)

/-! ### Moves -/

theorem room (h : Reads name text s) (next : s.startsWith w = true) : s.pos + w.length ≤ text.length := h.tally.room next

theorem skip (h : Reads name text s) (next : s.startsWith w = true) :
    s.skip w.length = { s with pos := s.pos + w.length } := by
  have room := h.room next
  have fits := h.fits
  have limit : twoPow 63 = 9223372036854775808 := rfl
  have double : ((twoPow 64 : Nat) : Int) = 18446744073709551616 := rfl
  have unwrapped : wrap64 ((s.pos : Int) + w.length) = (s.pos + w.length : Nat) := by
    rw [Nat.cast_add]
    exact Int.bmod_eq_of_le (by omega) (by omega)
  rw [Scanner.skip, unwrapped, h.setPosition room]

theorem skipWhile (h : Reads name text s) (p : UInt8 → Bool) :
    Reads name text (s.skipWhile p) ∧ s.pos ≤ (s.skipWhile p).pos :=
  (h.tally.skipWhile p).imp_left fun tally => tally.reads h.fits

theorem skipLine (h : Reads name text s) : Reads name text s.skipLine ∧ s.pos ≤ s.skipLine.pos ∧
    (s.finished = false → s.pos < s.skipLine.pos) :=
  h.tally.skipLine.imp_left fun tally => tally.reads h.fits

theorem skipBlankFuel (h : Reads name text s) (fuel : Nat) :
    Reads name text (Scanner.skipBlankFuel fuel s) ∧ s.pos ≤ (Scanner.skipBlankFuel fuel s).pos :=
  (h.tally.skipBlankFuel fuel).imp_left fun tally => tally.reads h.fits

theorem accept (h : Reads name text s) (w : Bytes) : Reads name text (s.accept w).2 ∧ s.pos ≤ (s.accept w).2.pos :=
  (h.tally.accept w).imp_left fun tally => tally.reads h.fits

theorem token (h : Reads name text s) : Reads name text s.token.2 ∧ s.token.2.pos = s.pos + s.token.1.length := by
  obtain ⟨reads, le⟩ := h.skipWhile fun b => !isDelimiter b
  have inside := reads.inside
  refine ⟨reads, ?_⟩
  rw [Scanner.token, Scanner.slice, Array.length_toList, Array.size_extract, h.size]
  dsimp only
  omega

end Reads

/-- `quotedEnd` gives a position inside the text, and one behind the opening quote if the literal is closed. -/
theorem quotedEnd_le {quote : UInt8} {data : Array UInt8} {fuel i : Nat} :
    (∀ stop, Scanner.quotedEnd quote data fuel i = .ok stop → i < stop ∧ stop ≤ data.size) ∧
      ∀ stop, Scanner.quotedEnd quote data fuel i = .error stop → stop ≤ data.size := by
  fun_induction Scanner.quotedEnd quote data fuel i with
  | case1 i => exact ⟨nofun, by rintro _ ⟨⟩; exact Nat.le_refl _⟩
  | case2 fuel i absent => exact ⟨nofun, by rintro _ ⟨⟩; exact Nat.le_refl _⟩
  | case3 fuel i present ih =>
    refine ⟨fun stop h => ?_, ih.2⟩
    obtain ⟨lt, le⟩ := ih.1 stop h
    exact ⟨by omega, le⟩
  | case4 fuel i present escape =>
    have here := (Array.getElem?_eq_some_iff.1 present).1
    exact ⟨nofun, by rintro _ ⟨⟩; omega⟩
  | case5 fuel i present escape ends =>
    have here := (Array.getElem?_eq_some_iff.1 present).1
    exact ⟨by rintro _ ⟨⟩; omega, nofun⟩
  | case6 fuel i b present escape ends other ih =>
    refine ⟨fun stop h => ?_, ih.2⟩
    obtain ⟨lt, le⟩ := ih.1 stop h
    exact ⟨by omega, le⟩

end Dalvik.Assembly
