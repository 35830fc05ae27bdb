import Dalvik.Command.Run
import Dalvik.Proofs.Disk
import Dalvik.Proofs.Meter

/-!
# What is extracted

`Command.extract` copies the images of an archive out one by one. Each goes into a file named by the
last component of its name, and each is looked up again by its whole name. Neither of the two tells
all images apart.

* `Archive.copyEntry_eq_ok`: a copy that succeeds is the whole entry, and the entry is intact;
* `Command.extractEach_turn`: one image gets its file, and no file of another name changes;
* `Command.extractEach_copied`: after all images, each file holds what the last image of its name
  brought;
* `Command.extract_keeps_last`: the same for a whole run of the command.
-/

namespace Dalvik

open Dalvik.Action (labelled_eq_ok except_bind_eq_ok gives_bind gives_get gives_lift gives_modify gives_pure not_gives_refuse)

theorem Archive.suffix_of_isImageName {name : Bytes} (image : isImageName name = true) : imageSuffix <:+ name := by
  simp only [isImageName, Bool.and_eq_true] at image
  exact List.isSuffixOf_iff_suffix.1 image.1.1

/-- `Path.base` of an image's name is a single name. -/
theorem Path.base_image {name : Bytes} (image : Archive.isImageName name = true) : IsName (base name) ∧ slash ∉ base name := by
  obtain ⟨front, rfl⟩ := Archive.suffix_of_isImageName image
  have ends : base (front ++ Archive.imageSuffix) = (front.reverse.takeWhile (· ≠ slash)).reverse ++ Archive.imageSuffix := by
    simp [base, Archive.imageSuffix, ascii, slash, byte]
  rw [ends]
  have suffixLength : Archive.imageSuffix.length = 4 := by decide
  constructor
  · refine isName_of_length ?_
    rw [List.length_append, suffixLength]
    omega
  · intro mem
    obtain mem | mem := List.mem_append.1 mem
    · simpa using List.mem_takeWhile_imp (List.mem_reverse.1 mem)
    · exact absurd mem (by decide)

/-! ## Entries -/

namespace Archive

variable {a b : Archive} {e : ArchiveEntry} {d : Disk} {path name : Bytes} {x : Extracted} {sink : Sink}

/-- The bytes that are stored for the entry `e`. -/
def contents (a : Archive) (e : ArchiveEntry) : Bytes :=
  match a.bodyOffset e with
  | .ok body => slice a.file body e.packedSize
  | .error _ => []

/-- The bytes that are stored for the first entry called `name`. -/
def copied (a : Archive) (name : Bytes) : Bytes := (a.entries.find? (·.name == name)).elim [] a.contents

/-- The entry is stored without compression, and its bytes have the size and the checksum that the directory gives. -/
structure Intact (a : Archive) (e : ArchiveEntry) : Prop where
  stored : e.method = stored
  header : ∃ body, a.bodyOffset e = .ok body
  size : (a.contents e).length = e.size
  crc : e.crc = 0 ∨ Crc32.checksum (a.contents e) = e.crc

/-- The source that `a.source e` opens has the stored bytes of `e`, whether or not they are intact. -/
theorem source_contents {source : Source} (file : e.name.getLast? ≠ some Path.slash) (h : a.source e = .ok source) :
    e.method = Archive.stored ∧ (∃ body, a.bodyOffset e = .ok body) ∧ source.data = a.contents e := by
  unfold Archive.source at h
  unfold contents
  cases header : a.bodyOffset e with
  | error cause =>
    rw [header] at h
    cases h
  | ok body =>
    rw [header] at h
    simp only [bind, Except.bind, if_neg file] at h
    split at h
    · cases h
    · next method =>
      refine ⟨not_not.1 method, ⟨body, rfl⟩, ?_⟩
      dsimp only
      simp only [pure, Except.pure] at h
      split at h
      · cases h
        rfl
      · split at h
        · split at h <;>
          · cases h
            rfl
        · cases h
          rfl

/-- If `copyEntry` succeeds then `e` is intact, and the sink holds its bytes. -/
theorem copyEntry_eq_ok (file : e.name.getLast? ≠ some Path.slash) (h : a.copyEntry e {} = (.ok ⟨⟩, x, sink)) :
    a.Intact e ∧ sink.held.toList = a.contents e ∧
      x = { name := e.name, size := (a.contents e).length, crc := Crc32.checksum (a.contents e) } := by
  unfold copyEntry at h
  cases opened : a.source e with
  | error cause =>
    rw [opened] at h
    cases h
  | ok source =>
    obtain ⟨method, header, data⟩ := source_contents file opened
    obtain ⟨taken, took, -, -, whole⟩ := Meter.readFrom_took ({ sink := {} } : Meter) source
    rw [opened] at h
    dsimp only at h
    generalize ({ sink := {} } : Meter).readFrom source = r at h took whole
    obtain ⟨n, failure, asked, m⟩ := r
    dsimp only at h took whole
    cases failure with
    | some cause =>
      split at h
      · cases h
      · cases h
      · next absent => cases absent
    | none =>
      obtain rfl : taken = a.contents e := (whole rfl).trans data
      have held : m.sink.held.toList = a.contents e := took.held
      have size : m.size = (a.contents e).length := by
        rw [took.size]
        exact Nat.zero_add _
      have crc : m.crc32 = Crc32.checksum (a.contents e) := by
        rw [Meter.crc32, took.checking, took.crc]
        rfl
      have flushed : m.flush.2.sink.held.toList = m.sink.held.toList ++ [] := (Meter.flush_took m).held
      rw [List.append_nil] at flushed
      dsimp only at h
      generalize m.flush = f at h flushed
      obtain ⟨failure, after⟩ := f
      cases failure with
      | some cause => cases h
      | none =>
        dsimp only at h flushed
        rw [size, crc] at h
        split at h
        · cases h
        · next length =>
          split at h
          · cases h
          · next checked =>
            cases h
            refine ⟨⟨method, header, not_not.1 length, ?_⟩, flushed.trans held, ?_⟩
            · by_cases absent : e.crc = 0
              · exact .inl absent
              · exact .inr (by by_contra ne; exact checked ⟨absent, ne⟩)
            · simp [method]

/-- `openAt` succeeds at a path exactly if a file is there whose bytes are an archive. -/
theorem openAt_eq_ok :
    openAt d path = .ok a ↔
      ∃ contents, d.read path = .ok (.ok contents) ∧ entriesOf contents.toArray = .ok a.entries ∧ a.path = path ∧
        a.file = contents.toArray := by
  unfold openAt
  rw [labelled_eq_ok, except_bind_eq_ok]
  constructor
  · rintro ⟨r, read, opened⟩
    cases r with
    | error e => cases opened
    | ok contents =>
      dsimp only at opened
      split at opened
      · cases opened
      · next entries listed =>
        cases opened
        exact ⟨contents, read, listed, rfl, rfl⟩
  · rintro ⟨contents, read, listed, rfl, file⟩
    refine ⟨_, read, ?_⟩
    dsimp only
    rw [listed]
    dsimp only
    rw [← file]
    rfl

theorem entriesOf_empty : entriesOf #[] = .error .notArchive := by
  rfl

/-- `extract name` copies the first entry called `name`. -/
theorem extract_eq_ok (image : isImageName name = true) (h : a.extract name {} = (.ok ⟨⟩, x, sink)) :
    (∃ first, a.entries.find? (·.name == name) = some first ∧ a.Intact first) ∧ sink.held.toList = a.copied name ∧
      x = { name, size := (a.copied name).length, crc := Crc32.checksum (a.copied name) } := by
  unfold extract at h
  cases found : a.entries.find? (·.name == name) with
  | none =>
    rw [found] at h
    cases h
  | some first =>
    rw [found] at h
    have same : first.name = name := by simpa using List.find?_some found
    have file : first.name.getLast? ≠ some Path.slash := by
      obtain ⟨front, rfl⟩ := suffix_of_isImageName image
      rw [same]
      simp [imageSuffix, ascii, Path.slash, byte]
    obtain ⟨intact, held, told⟩ := copyEntry_eq_ok file h
    have copied : a.copied name = a.contents first := by rw [copied, found, Option.elim_some]
    rw [copied, ← same]
    exact ⟨⟨first, rfl, intact⟩, held, told⟩

end Archive

/-! ## One image -/

namespace Command

variable {a b : Archive} {directory : Bytes} {images : List (ArchiveEntry × Nat)} {s t u : Session} {d : Disk}

/-- The file in `directory` that an image is copied to. -/
def target (directory name : Bytes) : Bytes := Path.join [directory, Path.base name]

/-- The line that is printed for an image that was copied out. -/
def report (a : Archive) (directory name : Bytes) : Bytes :=
  target directory name ++ ascii ": " ++ decimal (a.copied name).length ++ ascii " bytes crc 0x" ++
    hexWide 8 (Crc32.checksum (a.copied name)).toNat ++ ascii "\n"

/-- `s` and `t` are the sessions before and after one image: the first entry of its name is intact, the target file
holds its bytes, files of other names are as they were, and the archive can still be opened. -/
structure Turn (a : Archive) (directory name : Bytes) (s t : Session) : Prop where
  intact : ∃ first, a.entries.find? (·.name == name) = some first ∧ a.Intact first
  file : t.disk.read (target directory name) = .ok (.ok (a.copied name))
  grows : s.disk.Grows t.disk
  others : ∀ place contents, place.getLast? ≠ some (Path.base name) →
    s.disk.found place = .file contents → t.disk.found place = .file contents
  archive : Archive.openAt t.disk a.path = .ok a
  out : t.out = s.out ++ report a directory name

theorem gives_say {text : Bytes} {v : PUnit} : (say text).Gives s v t ↔ { s with out := s.out ++ text } = t := by
  rw [say, gives_modify]

theorem log_keeps {message : Bytes} {fields : List (String × Bytes)} {v : PUnit} (h : (log message fields).Gives s v t) :
    t.disk = s.disk ∧ t.out = s.out := by
  rw [log, gives_modify] at h
  split at h <;>
  · rw [← h]
    exact ⟨rfl, rfl⟩

/-- The target file, which is emptied first, is not the archive: otherwise the archive could not be opened again. -/
theorem archive_spared {place : List Bytes} (opened : Archive.openAt d a.path = .ok a) (plain : d.isDirectory place = false)
    (again : Archive.openAt (d.setFile place []) a.path = .ok b) (held : Bytes) :
    Archive.openAt (d.setFile place held) a.path = .ok a := by
  obtain ⟨contents, read, entries, -, file⟩ := Archive.openAt_eq_ok.1 opened
  obtain ⟨nothing, read', entries', -, -⟩ := Archive.openAt_eq_ok.1 again
  obtain ⟨p, there, found⟩ := Disk.read_eq_ok.1 read
  obtain ⟨p', there', found'⟩ := Disk.read_eq_ok.1 read'
  obtain rfl : p = p' := Except.ok.inj ((Disk.locate_setFile there).symm.trans there')
  have apart : p ≠ place := by
    rintro rfl
    rw [Disk.found_setFile_self plain] at found'
    cases found'
    rw [Archive.entriesOf_empty] at entries'
    cases entries'
  have stays : (d.setFile place held).found p = .file contents := (Disk.found_setFile_ne apart).trans found
  exact Archive.openAt_eq_ok.2 ⟨contents, Disk.read_eq_ok.2 ⟨p, Disk.locate_setFile there, stays⟩, entries, rfl, file⟩

theorem extractEach_turn {e : ArchiveEntry} {i : Nat} (opened : Archive.openAt s.disk a.path = .ok a)
    (image : Archive.isImageName e.name = true) (h : (extractEach a directory ((e, i) :: images)).Gives s ⟨⟩ t) :
    ∃ u, Turn a directory e.name s u ∧ (extractEach a directory images).Gives u ⟨⟩ t := by
  unfold extractEach at h
  simp only [gives_bind, gives_get, gives_lift, gives_modify, gives_say, and_assoc, exists_and_left, exists_eq_left'] at h
  obtain ⟨made, making, -, emptied, emptying, -, ⟨⟩, copying, _, logged, logging, -, rest⟩ := h
  obtain ⟨name, plainName⟩ := Path.base_image image
  obtain ⟨front, ends⟩ := Path.split_join_name directory name plainName
  have kept := Disk.makeDirectories_keeps making
  have openedThen : Archive.openAt made a.path = .ok a := by
    obtain ⟨contents, read, fields⟩ := Archive.openAt_eq_ok.1 opened
    exact Archive.openAt_eq_ok.2 ⟨contents, kept.read read, fields⟩
  obtain ⟨place, located, plain, rfl, written⟩ :=
    Disk.write_again emptying (Archive.extractAt emptied a.path e.name {}).2.2.held.toList
  obtain ⟨q, last⟩ := Disk.locate_name name ends located
  rcases copied : Archive.extractAt (made.setFile place []) a.path e.name {} with ⟨r, x, sink⟩
  rw [copied] at copying written logging rest
  dsimp only at copying written logging rest
  subst copying
  unfold Archive.extractAt at copied
  cases again : Archive.openAt (made.setFile place []) a.path with
  | error stop =>
    rw [again] at copied
    cases copied
  | ok b =>
    have spared := archive_spared openedThen plain again
    obtain rfl : b = a := Except.ok.inj (again.symm.trans (spared []))
    rw [again] at copied
    obtain ⟨intact, held, told⟩ := Archive.extract_eq_ok image copied
    obtain ⟨disk, out⟩ := log_keeps logging
    rw [written, held] at disk out
    have now : logged.disk = made.setFile place (b.copied e.name) := disk
    refine ⟨_, ⟨intact, ?_, ?_, ?_, ?_, ?_⟩, rest⟩
    · show logged.disk.read _ = _
      rw [now]
      exact Disk.read_eq_ok.2 ⟨place, Disk.locate_setFile located, Disk.found_setFile_self plain⟩
    · show s.disk.Grows logged.disk
      rw [now]
      exact kept.grows
    · intro other contents ne found
      show logged.disk.found other = _
      have apart : other ≠ place := by
        rintro rfl
        exact ne (by rw [last, List.getLast?_concat])
      rw [now, Disk.found_setFile_ne apart]
      exact kept.file other contents found
    · show Archive.openAt logged.disk b.path = _
      rw [now]
      exact spared _
    · show logged.out ++ _ = _
      rw [out, told]
      rfl

/-! ## All images -/

/-- What the file called `b` holds in the end: the bytes of the last image with that base name, if there is one. -/
def kept (a : Archive) (b : Bytes) : List (ArchiveEntry × Nat) → Option Bytes
  | [] => none
  | (e, _) :: rest => (kept a b rest).or (if Path.base e.name = b then some (a.copied e.name) else none)

theorem kept_eq_none {b : Bytes} : kept a b images = none ↔ ∀ x ∈ images, Path.base x.1.name ≠ b := by
  induction images with
  | nil => simp [kept]
  | cons x images ih =>
    rw [kept, Option.or_eq_none_iff, ih]
    simp [and_comm]

theorem exists_of_kept {b c : Bytes} (h : kept a b images = some c) :
    ∃ x ∈ images, Path.base x.1.name = b ∧ c = a.copied x.1.name := by
  induction images with
  | nil => cases h
  | cons x images ih =>
    rw [kept, Option.or_eq_some_iff] at h
    obtain h | ⟨-, own⟩ := h
    · obtain ⟨y, mem, same, held⟩ := ih h
      exact ⟨y, List.mem_cons_of_mem _ mem, same, held⟩
    · split at own
      · next same =>
        cases own
        exact ⟨x, List.mem_cons_self, same, rfl⟩
      · cases own

/-- `s` and `t` are the sessions before and after copying out `images` one by one. -/
structure Copied (a : Archive) (directory : Bytes) (images : List (ArchiveEntry × Nat)) (s t : Session) : Prop where
  intact : ∀ x ∈ images, ∃ first, a.entries.find? (·.name == x.1.name) = some first ∧ a.Intact first
  file : ∀ b c, kept a b images = some c → t.disk.read (Path.join [directory, b]) = .ok (.ok c)
  grows : s.disk.Grows t.disk
  others : ∀ place contents, (∀ x ∈ images, place.getLast? ≠ some (Path.base x.1.name)) →
    s.disk.found place = .file contents → t.disk.found place = .file contents
  out : t.out = s.out ++ images.flatMap fun x => report a directory x.1.name

/-- A `Turn` for one image and `Copied` for the others make `Copied` for all of them. -/
theorem Turn.andThen {x : ArchiveEntry × Nat} (image : Archive.isImageName x.1.name = true) (turn : Turn a directory x.1.name s u)
    (later : Copied a directory images u t) : Copied a directory (x :: images) s t where
  intact := by
    intro y mem
    obtain rfl | mem := List.mem_cons.1 mem
    · exact turn.intact
    · exact later.intact y mem
  file := by
    intro b c brought
    rw [kept, Option.or_eq_some_iff] at brought
    obtain again | ⟨last, own⟩ := brought
    · exact later.file b c again
    · split at own
      · next same =>
        cases own
        subst same
        obtain ⟨name, plain⟩ := Path.base_image image
        obtain ⟨front, ends⟩ := Path.split_join_name directory name plain
        obtain ⟨place, located, found⟩ := Disk.read_eq_ok.1 turn.file
        obtain ⟨q, rfl⟩ := Disk.locate_name name ends located
        refine Disk.read_eq_ok.2 ⟨_, Disk.locate_mono later.grows located, later.others _ _ ?_ found⟩
        intro y mem e
        rw [List.getLast?_concat, Option.some.injEq] at e
        exact kept_eq_none.1 last y mem e.symm
      · cases own
  grows := fun place is => later.grows place (turn.grows place is)
  others := by
    intro place contents apart found
    refine later.others place contents (fun y mem => apart y (List.mem_cons_of_mem _ mem)) ?_
    exact turn.others place contents (apart x List.mem_cons_self) found
  out := by rw [later.out, turn.out, List.flatMap_cons, List.append_assoc]

theorem extractEach_copied (opened : Archive.openAt s.disk a.path = .ok a) (all : ∀ x ∈ images, Archive.isImageName x.1.name = true)
    (h : (extractEach a directory images).Gives s ⟨⟩ t) : Copied a directory images s t := by
  induction images generalizing s with
  | nil =>
    rw [extractEach, gives_pure] at h
    obtain ⟨-, rfl⟩ := h
    exact ⟨nofun, nofun, fun _ is => is, fun _ _ _ found => found, by simp⟩
  | cons x images ih =>
    have image := all x List.mem_cons_self
    obtain ⟨u, turn, rest⟩ := extractEach_turn opened image h
    exact turn.andThen image (ih turn.archive (fun y mem => all y (List.mem_cons_of_mem _ mem)) rest)

/-- An image that shares its base name with no other image is itself the first entry of its name. -/
theorem find?_of_alone {x : ArchiveEntry × Nat} {first : ArchiveEntry} (mem : x ∈ a.images)
    (alone : ∀ y ∈ a.images, Path.base y.1.name = Path.base x.1.name → y = x)
    (found : a.entries.find? (·.name == x.1.name) = some first) : first = x.1 := by
  have same : first.name = x.1.name := by simpa using List.find?_some found
  obtain ⟨i, listed⟩ := List.getElem?_of_mem (List.mem_of_find?_eq_some found)
  have image : (first, i) ∈ a.images := by
    refine List.mem_filter.2 ⟨List.mem_zipIdx_iff_getElem?.2 listed, ?_⟩
    rw [same]
    exact (List.mem_filter.1 mem).2
  rw [← alone (first, i) image (by rw [same])]

/-! ## The command -/

/-- A run of the command that extracts and succeeds has `Copied` every image of the archive. -/
theorem run_copied {args : List Bytes} {given : List (Bytes × FlagValue)} {rest : List Bytes} {o : Options}
    (parsed : Flag.parse flags args = .ok (given, rest)) (options : optionsOf d given rest = .ok o) (task : o.task = .extract)
    (success : (run d args).exit = 0) :
    ∃ a s t, Archive.openAt d o.path = .ok a ∧ s.out = [] ∧ t.out = (run d args).out ∧ t.disk = (run d args).disk ∧
      Copied a o.settings.outDirectory a.images s t := by
  unfold run at success ⊢
  rw [parsed] at success ⊢
  dsimp only at success ⊢
  rw [options] at success ⊢
  dsimp only at success ⊢
  split at success
  · next v x ran =>
    have gave : Action.Gives _ _ v x := ran
    simp only [gives_bind] at gave
    obtain ⟨_, s, before, _, t, performed, after⟩ := gave
    obtain ⟨disk, out⟩ := log_keeps before
    obtain ⟨disk', out'⟩ := log_keeps after
    unfold perform at performed
    simp only [gives_bind, gives_get, task] at performed
    obtain ⟨_, _, ⟨rfl, rfl⟩, performed⟩ := performed
    split at performed
    · exact absurd performed not_gives_refuse
    · simp only [gives_bind, gives_get, gives_lift] at performed
      obtain ⟨_, _, ⟨rfl, rfl⟩, a, _, ⟨opened, rfl⟩, extracted⟩ := performed
      have path : a.path = o.path := by
        obtain ⟨_, -, -, path, -⟩ := Archive.openAt_eq_ok.1 opened
        exact path
      rw [disk] at opened
      refine ⟨a, s, t, opened, out, out'.symm, disk'.symm, extractEach_copied ?_ ?_ extracted⟩
      · rw [disk, path]
        exact opened
      · intro y mem
        exact (List.mem_filter.1 mem).2
  · cases success
  · cases success

/-- After a run that extracts and succeeds, a line was printed for each image in order, the first entry of each
image's name is intact, and the file named by the line holds the bytes of the first entry whose name is that of the
last image with the same base name. So an image that shares its base name with no other one has its own bytes in its
file. -/
theorem extract_keeps_last {args : List Bytes} {given : List (Bytes × FlagValue)} {rest : List Bytes} {o : Options}
    (parsed : Flag.parse flags args = .ok (given, rest)) (options : optionsOf d given rest = .ok o) (task : o.task = .extract)
    (success : (run d args).exit = 0) :
    ∃ a, Archive.openAt d o.path = .ok a ∧
      (run d args).out = a.images.flatMap (fun x => report a o.settings.outDirectory x.1.name) ∧
      (∀ x ∈ a.images, (∃ first, a.entries.find? (·.name == x.1.name) = some first ∧ a.Intact first) ∧
        ∃ c, kept a (Path.base x.1.name) a.images = some c ∧
          (run d args).disk.read (target o.settings.outDirectory x.1.name) = .ok (.ok c)) ∧
      ∀ x ∈ a.images, (∀ y ∈ a.images, Path.base y.1.name = Path.base x.1.name → y = x) →
        a.Intact x.1 ∧ a.copied x.1.name = a.contents x.1 ∧
          (run d args).disk.read (target o.settings.outDirectory x.1.name) = .ok (.ok (a.contents x.1)) := by
  obtain ⟨a, s, t, opened, start, out, disk, copied⟩ := run_copied parsed options task success
  rw [← out, ← disk]
  have files : ∀ x ∈ a.images, ∃ c, kept a (Path.base x.1.name) a.images = some c ∧
      t.disk.read (target o.settings.outDirectory x.1.name) = .ok (.ok c) := by
    intro x mem
    cases e : kept a (Path.base x.1.name) a.images with
    | none => exact absurd rfl (kept_eq_none.1 e x mem)
    | some c => exact ⟨c, rfl, copied.file _ c e⟩
  refine ⟨a, opened, ?_, fun x mem => ⟨copied.intact x mem, files x mem⟩, fun x mem alone => ?_⟩
  · rw [copied.out, start, List.nil_append]
  · obtain ⟨first, found, intact⟩ := copied.intact x mem
    obtain rfl := find?_of_alone mem alone found
    have own : a.copied x.1.name = a.contents x.1 := by rw [Archive.copied, found, Option.elim_some]
    obtain ⟨c, brought, read⟩ := files x mem
    obtain ⟨y, mem', same, rfl⟩ := exists_of_kept brought
    rw [alone y mem' same, own] at read
    exact ⟨intact, own, read⟩

/-- The fields that the local header and the directory of an archive have in common for a stored entry. -/
def entryFields (name body : Bytes) : Bytes :=
  toLittleEndian 2 20 ++ List.replicate 8 0 ++ toLittleEndian 4 (Crc32.checksum body).toNat ++
    toLittleEndian 4 body.length ++ toLittleEndian 4 body.length ++ toLittleEndian 2 name.length ++ [0, 0]

/-- An archive of two stored entries. -/
def pairArchive (first second : Bytes × Bytes) : Bytes :=
  let body (e : Bytes × Bytes) := Archive.headerSignature ++ entryFields e.1 e.2 ++ e.1 ++ e.2
  let listing (e : Bytes × Bytes) (offset : Nat) :=
    Archive.listingSignature ++ [20, 0] ++ entryFields e.1 e.2 ++ List.replicate 10 0 ++ toLittleEndian 4 offset ++ e.1
  let bodies := body first ++ body second
  let listings := listing first 0 ++ listing second (body first).length
  bodies ++ listings ++ Archive.trailerSignature ++ List.replicate 4 0 ++ toLittleEndian 2 2 ++ toLittleEndian 2 2 ++
    toLittleEndian 4 listings.length ++ toLittleEndian 4 bodies.length ++ [0, 0]

/-- A disk with an archive of the images `a/x.dex` and `b/x.dex`. -/
def sharedDisk : Disk :=
  Disk.ofFiles [(ascii "in.apk", pairArchive (ascii "a/x.dex", ascii "1") (ascii "b/x.dex", ascii "2"))]

def sharedArguments : List Bytes := [ascii "-extract", ascii "in.apk"]

/-- The line of `a/x.dex` names a file that holds the bytes of `b/x.dex`. -/
theorem extract_keeps_last_shared :
    (run sharedDisk sharedArguments).exit = 0 ∧
      ∃ a x, Archive.openAt sharedDisk (ascii "in.apk") = .ok a ∧ x ∈ a.images ∧ x.1.name = ascii "a/x.dex" ∧
        a.copied x.1.name = ascii "1" ∧
        (run sharedDisk sharedArguments).disk.read (target (ascii ".") x.1.name) = .ok (.ok (ascii "2")) := by
  have success : (run sharedDisk sharedArguments).exit = 0 := by decide +kernel
  have parsed : Flag.parse flags sharedArguments = .ok ([(ascii "extract", .switch true)], [ascii "in.apk"]) := by rfl
  have options : optionsOf sharedDisk [(ascii "extract", .switch true)] [ascii "in.apk"] =
      .ok { settings := {}, task := .extract, path := ascii "in.apk" } := by rfl
  obtain ⟨a, opened, -, files, -⟩ := extract_keeps_last parsed options rfl success
  have seen : (Archive.openAt sharedDisk (ascii "in.apk")).toOption.map (fun a =>
      (a.images.map (·.1.name), a.copied (ascii "a/x.dex"), kept a (ascii "x.dex") a.images)) =
        some ([ascii "a/x.dex", ascii "b/x.dex"], ascii "1", some (ascii "2")) := by decide +kernel
  rw [opened] at seen
  simp only [Except.toOption, Option.map_some, Option.some.injEq, Prod.mk.injEq] at seen
  obtain ⟨names, first, last⟩ := seen
  obtain ⟨x, mem, name⟩ := List.mem_map.1 (names ▸ List.mem_cons_self : ascii "a/x.dex" ∈ a.images.map (·.1.name))
  obtain ⟨-, c, brought, read⟩ := files x mem
  have base : Path.base x.1.name = ascii "x.dex" := by rw [name]; decide
  rw [base, last] at brought
  cases brought
  exact ⟨success, a, x, opened, mem, name, by rw [name, first], read⟩

end Command

end Dalvik
