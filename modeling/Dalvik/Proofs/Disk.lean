import Dalvik.Proofs.Action
import Dalvik.Proofs.Path

/-!
# What a disk keeps

A path is resolved component by component, and every component but the last must be a directory. No
operation removes a directory, so a path that could be resolved is resolved to the same place later
on.

* `walk_mono`, `locate_mono`: a path that can be resolved still can;
* `makeDirectories_keeps`: making directories changes no file;
* `found_setFile_ne`: writing a file changes no other file.
-/

namespace Dalvik.Disk

open Dalvik.Action (except_bind_eq_ok)

variable {d d' d'' : Disk} {path : Bytes} {place other : List Bytes} {contents : Bytes} {part : Bytes} {parts : List Bytes}

/-! ## What is found -/

theorem found_eq_directory : d.found place = .directory ↔ d.isDirectory place = true := by
  unfold found
  split
  · next is => simp [is]
  · next is =>
    cases d.file? place <;> simp [is]

theorem found_eq_file : d.found place = .file contents ↔ d.isDirectory place = false ∧ d.file? place = some contents := by
  unfold found
  split
  · next is => simp [is]
  · next is =>
    cases d.file? place <;> simp [is]

@[simp] theorem isDirectory_setFile : (d.setFile place contents).isDirectory other = d.isDirectory other := rfl

@[simp] theorem setFile_setFile (before : Bytes) : (d.setFile place before).setFile place contents = d.setFile place contents := by
  simp [setFile, List.filter_append, List.filter_filter]

theorem found_setFile_self (plain : d.isDirectory place = false) : (d.setFile place contents).found place = .file contents := by
  have absent : (d.files.filter (·.1 != place)).find? (·.1 == place) = none := by
    rw [List.find?_eq_none]
    intro file mem
    simpa using (List.mem_filter.1 mem).2
  rw [found_eq_file]
  refine ⟨plain, ?_⟩
  simp [file?, setFile, List.find?_append, absent]

theorem found_setFile_ne (ne : other ≠ place) : (d.setFile place contents).found other = d.found other := by
  have same : (d.setFile place contents).file? other = d.file? other := by
    have kept : (d.files.filter (·.1 != place)).find? (·.1 == other) = d.files.find? (·.1 == other) := by
      rw [List.find?_filter]
      congr 1
      funext file
      by_cases e : file.1 = other
      · simp [e, ne]
      · simp [e]
    simp only [file?, setFile, List.find?_append, kept]
    simp [Ne.symm ne]
  unfold found
  rw [same, isDirectory_setFile]

/-! ## Walking -/

/-- The place that a component of a path leads to from the directory `place`: `..` goes up, `.` and the empty
component stay. -/
def enter (place : List Bytes) (part : Bytes) : List Bytes :=
  if part.isEmpty || part == Path.dot then place
  else if part == Path.dotDot then
    match place.getLast? with
    | none => [Path.dotDot]
    | some last =>
      if last == Path.dotDot then place ++ [Path.dotDot]
      else if place == [[Path.slash]] then place
      else place.dropLast
  else place ++ [part]

theorem walk_cons :
    d.walk place (part :: parts) = .ok other ↔ d.isDirectory place = true ∧ d.walk (enter place part) parts = .ok other := by
  rw [walk]
  cases e : d.found place with
  | directory =>
    rw [found_eq_directory] at e
    simp only [e, true_and]
    unfold enter
    split
    · rfl
    · split
      · cases place.getLast? with
        | none => rfl
        | some last =>
          dsimp only
          split
          · rfl
          · split <;> rfl
      · rfl
  | file contents =>
    rw [found_eq_file] at e
    simp [e.1]
  | missing =>
    have plain : d.isDirectory place = false := by
      by_contra is
      rw [Bool.not_eq_false] at is
      rw [found_eq_directory.2 is] at e
      cases e
    simp [plain]

/-- Where a path leads is computed from the path alone. The disk only decides whether it can be followed. -/
theorem walk_place (h : d.walk place parts = .ok other) : other = parts.foldl enter place := by
  induction parts generalizing place with
  | nil =>
    cases h
    rfl
  | cons part parts ih => exact ih (walk_cons.1 h).2

/-- Every directory of `d` is one of `d'`. -/
def Grows (d d' : Disk) : Prop := ∀ place, d.isDirectory place = true → d'.isDirectory place = true

theorem walk_mono (grows : d.Grows d') (h : d.walk place parts = .ok other) : d'.walk place parts = .ok other := by
  induction parts generalizing place with
  | nil => exact h
  | cons part parts ih =>
    obtain ⟨is, rest⟩ := walk_cons.1 h
    exact walk_cons.2 ⟨grows place is, ih rest⟩

/-- The place where a path starts: the root for an absolute path, else the working directory. -/
def start (path : Bytes) : List Bytes := if Path.isRooted path then [[Path.slash]] else []

theorem locate_eq_ok : d.locate path = .ok place ↔ path ≠ [] ∧ d.walk (start path) (Path.split path) = .ok place := by
  unfold locate start
  cases path with
  | nil => simp
  | cons c rest =>
    simp only [List.isEmpty_cons, Bool.false_eq_true, if_false, ne_eq, reduceCtorEq, not_false_eq_true, true_and]
    split <;> rfl

theorem locate_mono (grows : d.Grows d') (h : d.locate path = .ok place) : d'.locate path = .ok place := by
  obtain ⟨present, walked⟩ := locate_eq_ok.1 h
  exact locate_eq_ok.2 ⟨present, walk_mono grows walked⟩

theorem locate_setFile (h : d.locate path = .ok place) : (d.setFile other contents).locate path = .ok place := by
  have grows : d.Grows (d.setFile other contents) := fun _ is => is
  exact locate_mono grows h

/-! ## Reading and writing -/

theorem read_eq_ok : d.read path = .ok (.ok contents) ↔ ∃ place, d.locate path = .ok place ∧ d.found place = .file contents := by
  unfold read look
  rw [except_bind_eq_ok]
  cases located : d.locate path with
  | error cause => simp [refused, fail]
  | ok place =>
    cases e : d.found place with
    | directory => simp [e, pure, Except.pure]
    | file held => simp [e, pure, Except.pure]
    | missing => simp [e, refused, fail]

theorem write_eq_ok :
    d.write path contents = .ok d' ↔
      ∃ place, d.locate path = .ok place ∧ d.isDirectory place = false ∧ d' = d.setFile place contents := by
  unfold write
  cases located : d.locate path with
  | error cause => simp [refused, fail]
  | ok place =>
    cases is : d.isDirectory place with
    | true => simp [is, refused, fail]
    | false =>
      simp only [is, Bool.false_eq_true, if_false, Except.ok.injEq, exists_eq_left', true_and]
      exact eq_comm

/-- After a successful `write`, `read` gives the contents. -/
theorem write_read (h : d.write path contents = .ok d') : d'.read path = .ok (.ok contents) := by
  obtain ⟨place, located, plain, rfl⟩ := write_eq_ok.1 h
  exact read_eq_ok.2 ⟨place, locate_setFile located, found_setFile_self plain⟩

/-- A second `write` to the same path replaces the contents of the first. -/
theorem write_again (h : d.write path contents = .ok d') (more : Bytes) :
    ∃ place, d.locate path = .ok place ∧ d.isDirectory place = false ∧ d' = d.setFile place contents ∧
      d'.write path more = .ok (d.setFile place more) := by
  obtain ⟨place, located, plain, rfl⟩ := write_eq_ok.1 h
  exact ⟨place, located, plain, rfl, write_eq_ok.2 ⟨place, locate_setFile located, plain, (setFile_setFile _).symm⟩⟩

/-- `d'` has the directories of `d`, and every file of `d` with the same contents. -/
structure Keeps (d d' : Disk) : Prop where
  grows : d.Grows d'
  file : ∀ place contents, d.found place = .file contents → d'.found place = .file contents

theorem Keeps.refl (d : Disk) : d.Keeps d := ⟨fun _ is => is, fun _ _ held => held⟩

theorem Keeps.trans (h : d.Keeps d') (h' : d'.Keeps d'') : d.Keeps d'' :=
  ⟨fun place is => h'.grows place (h.grows place is), fun place contents held => h'.file place contents (h.file place contents held)⟩

theorem Keeps.read (h : d.Keeps d') (held : d.read path = .ok (.ok contents)) : d'.read path = .ok (.ok contents) := by
  obtain ⟨place, located, found⟩ := read_eq_ok.1 held
  exact read_eq_ok.2 ⟨place, locate_mono h.grows located, h.file place contents found⟩

/-- A directory that is made where nothing was changes no file. -/
theorem keeps_directory (missing : d.found place = .missing) : d.Keeps { d with directories := d.directories ++ [place] } := by
  have grows : d.Grows { d with directories := d.directories ++ [place] } := by
    intro other is
    simp only [isDirectory, Bool.or_eq_true, List.contains_eq_mem, decide_eq_true_eq, List.mem_append] at is ⊢
    exact is.imp_right .inl
  refine ⟨grows, fun other contents held => ?_⟩
  have apart : other ≠ place := by
    rintro rfl
    rw [missing] at held
    cases held
  obtain ⟨plain, listed⟩ := found_eq_file.1 held
  refine found_eq_file.2 ⟨?_, listed⟩
  simpa [isDirectory, apart] using plain

theorem makeDirectories_keeps (h : d.makeDirectories path = .ok d') : d.Keeps d' := by
  unfold makeDirectories at h
  generalize Path.ancestors path = paths at h
  induction paths generalizing d with
  | nil =>
    cases h
    exact .refl _
  | cons first paths ih =>
    rw [List.foldlM_cons, except_bind_eq_ok] at h
    obtain ⟨next, made, rest⟩ := h
    refine Keeps.trans ?_ (ih rest)
    cases located : d.locate first with
    | error cause =>
      rw [located] at made
      cases made
    | ok place =>
      rw [located] at made
      cases e : d.found place with
      | directory =>
        simp only [e] at made
        cases made
        exact .refl _
      | file held =>
        simp only [e] at made
        cases made
      | missing =>
        simp only [e] at made
        cases made
        exact keeps_directory e

/-! ## Names -/

/-- A path whose last component is a name leads to a place with that name. -/
theorem locate_name {front : List Bytes} (name : Path.IsName part) (ends : Path.split path = front ++ [part])
    (h : d.locate path = .ok place) : ∃ q, place = q ++ [part] := by
  refine ⟨front.foldl enter (start path), ?_⟩
  rw [walk_place (locate_eq_ok.1 h).2, ends, List.foldl_append, List.foldl_cons, List.foldl_nil]
  simp [enter, name.nonempty, name.not_dot, name.not_dotDot]

end Dalvik.Disk
