import Dalvik.Sink
import Mathlib.Data.List.TakeDrop

/-!
# What a meter tells

A `Meter` stands between a writer and a sink. It counts the bytes that the sink has taken since the
last reset and sums them up, whatever the sink takes and wherever it stops.

* `copy_took`: a copy hands a beginning of the source to the sink, and all of it if it reports no
  failure;
* `Call.tells_run`: each call on a meter keeps its count and checksum right;
* `meter_tells`: they are right after any calls, on any sink and with any sources.
-/

namespace Dalvik

/-! ## Checksums of parts -/

namespace Crc32

theorem update_append (crc : UInt32) (a b : Bytes) : update crc (a ++ b) = update (update crc a) b := by
  have back (x : UInt32) : x ^^^ 0xffffffff ^^^ 0xffffffff = x := by
    rw [UInt32.xor_assoc, UInt32.xor_self, UInt32.xor_zero]
  simp only [update, List.foldl_append, back]

theorem update_checksum (a b : Bytes) : update (checksum a) b = checksum (a ++ b) :=
  (update_append 0 a b).symm

@[simp] theorem checksum_nil : checksum [] = 0 := rfl

example : checksum (ascii "123456789") = 0xcbf43926 := by decide +kernel

end Crc32

/-! ## What sinks and sources promise -/

/-- A sink takes a beginning of what is written to it, returns the number of bytes it took, and keeps them. -/
class LawfulByteSink (σ : Type) [ByteSink σ] : Prop where
  write_le (s : σ) (data : Bytes) : (ByteSink.write s data).1 ≤ data.length
  held_write (s : σ) (data : Bytes) :
    ByteSink.held (ByteSink.write s data).2.2 = ByteSink.held s ++ data.take (ByteSink.write s data).1
  held_flush (s : σ) : ByteSink.held (ByteSink.flush s).2 = ByteSink.held s
  held_close (s : σ) : ByteSink.held (ByteSink.close s).2 = ByteSink.held s

/-- A source gives its contents in order, at most a buffer's worth in each read. It ends or fails after finitely many
reads, and ends without a failure only when all of its contents were given. -/
class LawfulByteSource (ρ : Type) [ByteSource ρ] : Prop where
  length_read (s : ρ) (room : Nat) : (ByteSource.read s room).1.length ≤ room
  contents_read (s : ρ) (room : Nat) :
    ByteSource.contents s = (ByteSource.read s room).1 ++ ByteSource.contents (ByteSource.read s room).2.2
  contents_of_end (s : ρ) (room : Nat) :
    (ByteSource.read s room).2.1 = some none → ByteSource.contents (ByteSource.read s room).2.2 = []
  patience_lt (s : ρ) (room : Nat) :
    0 < room → (ByteSource.read s room).2.1 = none →
      ByteSource.patience (ByteSource.read s room).2.2 < ByteSource.patience s

instance : LawfulByteSink Sink where
  write_le s data := by
    simp only [ByteSink.write, Sink.write]
    cases s.room with
    | none => exact Nat.le_refl _
    | some room =>
      dsimp only
      split
      · exact Nat.le_refl _
      · exact List.length_take_le' _ _
  held_write s data := by
    simp only [ByteSink.write, ByteSink.held, Sink.write]
    cases s.room with
    | none => simp
    | some room =>
      dsimp only
      split
      · simp
      · have fits : data.take (min (room - s.held.size) data.length) = data.take (room - s.held.size) := by
          rw [← List.take_take, List.take_length]
        simp [fits]
  held_flush s := by
    simp only [ByteSink.flush, ByteSink.held, Sink.flush]
    split <;> rfl
  held_close s := by
    simp only [ByteSink.close, ByteSink.held, Sink.close]
    split <;> rfl

namespace Source

variable (s : Source) (room : Nat)

theorem span_le : s.span room ≤ room := by
  unfold span
  split <;> omega

theorem span_pos (positive : 0 < room) : 0 < s.span room := by
  unfold span
  split <;> omega

/-- A read either ends the source, with what is left or with a failure, or gives the next bytes and lowers the bound
on the reads to come. -/
theorem read_cases :
    (∃ e, s.read room = ([], some (some e), s)) ∨
    (∃ ended rest, s.read room = (s.data.take (s.span room), ended, rest) ∧
      rest.data = s.data.drop (s.span room) ∧ (ended = some none → rest.data = []) ∧
      (ended = none → 0 < s.span room → ByteSource.patience rest < ByteSource.patience s)) := by
  unfold read
  cases barrier : s.barrier with
  | some b =>
    obtain ⟨distance, e⟩ := b
    dsimp only
    split
    · exact .inl ⟨e, rfl⟩
    · refine .inr ⟨_, _, rfl, rfl, nofun, fun _ moves => ?_⟩
      simp only [ByteSource.patience, barrier, Option.elim_some, List.length_drop]
      omega
  | none =>
    dsimp only
    split
    · rename_i empty
      have nothing : s.data = [] := List.isEmpty_iff.mp empty
      exact .inr ⟨some s.failing, s, by rw [nothing, List.take_nil], by rw [nothing, List.drop_nil], fun _ => nothing, nofun⟩
    · rename_i more
      have remaining : 0 < s.data.length := List.length_pos_iff.mpr (by simpa using more)
      refine .inr ⟨_, _, rfl, rfl, fun plain => ?_, fun _ moves => ?_⟩
      · split at plain
        · rename_i last
          exact List.isEmpty_iff.mp (Bool.and_eq_true_iff.mp last).2
        · cases plain
      · simp only [ByteSource.patience, barrier, Option.elim_none, List.length_drop]
        omega

instance : LawfulByteSource Source where
  length_read s room := by
    show (s.read room).1.length ≤ room
    obtain ⟨e, h⟩ | ⟨ended, rest, h, -⟩ := read_cases s room
    · rw [h]
      exact Nat.zero_le _
    · rw [h]
      exact Nat.le_trans (List.length_take_le _ _) (span_le s room)
  contents_read s room := by
    show s.data = (s.read room).1 ++ (s.read room).2.2.data
    obtain ⟨e, h⟩ | ⟨ended, rest, h, data, -⟩ := read_cases s room
    · rw [h, List.nil_append]
    · rw [h, data, List.take_append_drop]
  contents_of_end s room := by
    show (s.read room).2.1 = some none → (s.read room).2.2.data = []
    obtain ⟨e, h⟩ | ⟨ended, rest, h, -, last, -⟩ := read_cases s room
    · rw [h]
      nofun
    · rw [h]
      exact last
  patience_lt s room positive := by
    show (s.read room).2.1 = none → ByteSource.patience (s.read room).2.2 < ByteSource.patience s
    obtain ⟨e, h⟩ | ⟨ended, rest, h, -, -, closer⟩ := read_cases s room
    · rw [h]
      nofun
    · rw [h]
      exact fun more => closer more (span_pos s room positive)

end Source

namespace Meter

variable {σ ρ : Type} {m m' m'' : Meter σ} {a b : Bytes}

/-! ## One call -/

section took

variable [ByteSink σ]

/-- Between the states `m` and `m'` the sink took the bytes `taken`, and the meter counted them. -/
structure Took (m : Meter σ) (taken : Bytes) (m' : Meter σ) : Prop where
  held : ByteSink.held m'.sink = ByteSink.held m.sink ++ taken
  size : m'.size = m.size + taken.length
  checking : m'.checking = m.checking
  crc : m'.crc = if m.checking then Crc32.update m.crc taken else m.crc

theorem Took.refl (m : Meter σ) : m.Took [] m where
  held := (List.append_nil _).symm
  size := rfl
  checking := rfl
  crc := by
    have back : Crc32.update m.crc [] = m.crc := by
      rw [Crc32.update, List.foldl_nil, UInt32.xor_assoc, UInt32.xor_self, UInt32.xor_zero]
    rw [back, ite_self]

theorem Took.trans (first : m.Took a m') (second : m'.Took b m'') : m.Took (a ++ b) m'' where
  held := by rw [second.held, first.held, List.append_assoc]
  size := by rw [second.size, first.size, List.length_append, Nat.add_assoc]
  checking := second.checking.trans first.checking
  crc := by
    rw [second.crc, first.crc, first.checking]
    split
    · exact (Crc32.update_append _ _ _).symm
    · rfl

variable [LawfulByteSink σ]

theorem write_took (m : Meter σ) (data : Bytes) : m.Took (data.take (m.write data).1) (m.write data).2.2 := by
  unfold write
  split
  · exact Took.refl m
  · have counted : (data.take (ByteSink.write m.sink data).1).length = (ByteSink.write m.sink data).1 :=
      List.length_take_of_le (LawfulByteSink.write_le m.sink data)
    exact
      { held := LawfulByteSink.held_write m.sink data
        size := by rw [counted]
        checking := rfl
        crc := rfl }

theorem flush_took (m : Meter σ) : m.Took [] m.flush.2 :=
  { Took.refl m with held := by rw [List.append_nil]; exact LawfulByteSink.held_flush m.sink }

theorem close_took (m : Meter σ) : m.Took [] m.close.2 :=
  { Took.refl m with held := by rw [List.append_nil]; exact LawfulByteSink.held_close m.sink }

theorem write_le (m : Meter σ) (data : Bytes) : (m.write data).1 ≤ data.length := by
  unfold write
  split
  · exact Nat.zero_le _
  · exact LawfulByteSink.write_le m.sink data

end took

section copying

variable [ByteSink σ] [LawfulByteSink σ] [ByteSource ρ] [LawfulByteSource ρ]

/-- What `copy` returns: the sink took a beginning of the source, its length is reported, and it is the whole source
if no failure is. -/
def Copied (m : Meter σ) (source : ρ) (r : Nat × Option Failure × List Nat × Meter σ) : Prop :=
  ∃ taken, m.Took taken r.2.2.2 ∧ taken.length = r.1 ∧ taken <+: ByteSource.contents source ∧
    (r.2.1 = none → taken = ByteSource.contents source)

/-- `copy` leaves what `Copied` says. The induction is on the bound on the reads, which no source reaches before its
end. -/
theorem copy_took (fuel room : Nat) (source : ρ) (m : Meter σ) (positive : 0 < room)
    (enough : ByteSource.patience source < fuel) : Copied m source (copy fuel room source m) := by
  induction fuel generalizing room source m with
  | zero => omega
  | succ fuel ih =>
    have contents := LawfulByteSource.contents_read source room
    have ended := LawfulByteSource.contents_of_end source room
    have sooner := LawfulByteSource.patience_lt source room positive
    rw [copy]
    generalize ByteSource.read source room = r at contents ended sooner
    obtain ⟨data, stop, rest⟩ := r
    have took := write_took m data
    have few := write_le m data
    dsimp only at contents ended sooner ⊢
    generalize m.write data = w at took few
    obtain ⟨written, failure, m'⟩ := w
    dsimp only at took few ⊢
    have length : (data.take written).length = written := List.length_take_of_le few
    have start : data.take written <+: ByteSource.contents source :=
      contents ▸ (List.take_prefix _ _).trans (List.prefix_append _ _)
    split
    · exact ⟨_, took, length, start, nofun⟩
    · rename_i accepted
      -- nothing was refused, so the whole buffer is in the sink
      have whole : written = data.length := by
        by_contra short
        rw [if_neg short] at accepted
        cases failure <;> cases accepted
      have all : data.take written = data := by rw [whole, List.take_length]
      rw [all] at took length start
      split
      · rename_i e
        refine ⟨data, took, length, start, fun plain => ?_⟩
        rw [contents, ended (congrArg some plain), List.append_nil]
      · obtain ⟨taken, later, count, leading, ok⟩ := ih
          (if data.isEmpty ∨ bufferMax ≤ room then room else room + bufferStep) rest m'
          (by split <;> omega) (by have := sooner rfl; omega)
        refine ⟨data ++ taken, took.trans later, ?_, ?_, fun plain => ?_⟩
        · rw [List.length_append, length, count]
        · rw [contents]
          exact (List.prefix_append_right_inj data).mpr leading
        · rw [contents, ok plain]

theorem readFrom_took (m : Meter σ) (source : ρ) : Copied m source (m.readFrom source) :=
  copy_took _ _ source m (by decide) (Nat.lt_succ_self _)

end copying

/-! ## Any calls -/

/-- A call on a meter. -/
inductive Call : Type 1 where
  | write (data : Bytes)
  | readFrom {ρ : Type} [ByteSource ρ] [LawfulByteSource ρ] (source : ρ)
  | reset
  | disableCrc (disable : Bool)
  | flush
  | close

/-- The bytes since the last reset, for the count; and for the checksum those since the last reset or since it was
last turned on, empty while it is off. -/
structure Journal where
  counted : Bytes := []
  summed : Option Bytes

namespace Journal

def take (j : Journal) (taken : Bytes) : Journal :=
  { counted := j.counted ++ taken, summed := j.summed.map (· ++ taken) }

/-- The journal after the call `c`, in which the sink took the bytes `taken`. -/
def after (j : Journal) (c : Call) (taken : Bytes) : Journal :=
  match c with
  | .reset => { counted := [], summed := j.summed.map fun _ => [] }
  | .disableCrc true => { j with summed := none }
  | .disableCrc false => { j with summed := some (j.summed.getD []) }
  | _ => j.take taken

end Journal

/-- The count and the checksum of the meter are those of the bytes in the journal. -/
structure Tells (m : Meter σ) (j : Journal) : Prop where
  size : m.size = j.counted.length
  checking : m.checking = j.summed.isSome
  crc : ∀ summed ∈ j.summed, m.crc = Crc32.checksum summed

theorem Tells.crc32 {j : Journal} (tells : m.Tells j) : m.crc32 = j.summed.elim 0 Crc32.checksum := by
  rw [Meter.crc32, tells.checking]
  cases summed : j.summed with
  | none => rfl
  | some bytes => exact tells.crc bytes summed

theorem Tells.reset {j : Journal} (tells : m.Tells j) :
    m.reset.Tells { counted := [], summed := j.summed.map fun _ => [] } where
  size := rfl
  checking := by
    rw [Option.isSome_map]
    exact tells.checking
  crc := by
    rintro summed hs
    obtain ⟨before, -, rfl⟩ := Option.map_eq_some_iff.mp hs
    rfl

theorem Tells.enableCrc {j : Journal} (tells : m.Tells j) :
    (m.disableCrc false).Tells { j with summed := some (j.summed.getD []) } := by
  have same := tells.checking
  simp only [disableCrc, Bool.false_eq_true, if_false]
  split
  · -- already on, so nothing starts afresh
    rename_i on
    obtain ⟨summed, hs⟩ := Option.isSome_iff_exists.mp (same.symm.trans on)
    refine ⟨tells.size, on, ?_⟩
    simp only [hs, Option.getD_some, Option.mem_def]
    rintro _ ⟨rfl⟩
    exact tells.crc summed hs
  · rename_i off
    have unset : j.summed = none := by
      rw [← Option.not_isSome_iff_eq_none, ← same]
      exact off
    refine ⟨tells.size, rfl, ?_⟩
    simp only [unset, Option.getD_none, Option.mem_def]
    rintro _ ⟨rfl⟩
    rfl

@[simp] theorem sink_disableCrc (m : Meter σ) (disable : Bool) : (m.disableCrc disable).sink = m.sink := by
  unfold disableCrc
  repeat' split
  all_goals rfl

section calls

variable [ByteSink σ]

theorem Tells.took {j : Journal} (tells : m.Tells j) (took : m.Took a m') : m'.Tells (j.take a) where
  size := by rw [took.size, tells.size, Journal.take, List.length_append]
  checking := by rw [took.checking, tells.checking, Journal.take, Option.isSome_map]
  crc := by
    rintro summed hs
    obtain ⟨before, hb, rfl⟩ := Option.map_eq_some_iff.mp hs
    have on : m.checking = true := by rw [tells.checking, hb, Option.isSome_some]
    rw [took.crc, if_pos on, tells.crc before hb, Crc32.update_checksum]

namespace Call

/-- The meter after a call. -/
def run (m : Meter σ) : Call → Meter σ
  | .write data => (m.write data).2.2
  | @readFrom _ _ _ source => (m.readFrom source).2.2.2
  | .reset => m.reset
  | .disableCrc disable => m.disableCrc disable
  | .flush => m.flush.2
  | .close => m.close.2

/-- The bytes that the sink took in a call. -/
def taken (m : Meter σ) (c : Call) : Bytes :=
  (ByteSink.held (c.run m).sink).drop (ByteSink.held m.sink).length

/-- The journal after a list of calls. -/
def journal : List Call → Meter σ → Journal → Journal
  | [], _, j => j
  | c :: rest, m, j => journal rest (c.run m) (j.after c (c.taken m))

/-- The bytes that the sink took in each of a list of calls. -/
def takings : List Call → Meter σ → List Bytes
  | [], _ => []
  | c :: rest, m => c.taken m :: takings rest (c.run m)

theorem taken_of_held (c : Call) (h : ByteSink.held (c.run m).sink = ByteSink.held m.sink ++ a) :
    c.taken m = a := by
  rw [taken, h, List.drop_left]

variable [LawfulByteSink σ]

theorem held_run (m : Meter σ) (c : Call) :
    ByteSink.held (c.run m).sink = ByteSink.held m.sink ++ c.taken m := by
  suffices grows : ∃ a, ByteSink.held (c.run m).sink = ByteSink.held m.sink ++ a by
    obtain ⟨a, h⟩ := grows
    rw [taken_of_held c h, h]
  cases c with
  | write data => exact ⟨_, (write_took m data).held⟩
  | readFrom source =>
    obtain ⟨taken, took, -⟩ := readFrom_took m source
    exact ⟨taken, took.held⟩
  | reset => exact ⟨[], (List.append_nil _).symm⟩
  | disableCrc disable =>
    refine ⟨[], ?_⟩
    rw [List.append_nil, run, sink_disableCrc]
  | flush => exact ⟨[], (flush_took m).held⟩
  | close => exact ⟨[], (close_took m).held⟩

/-- After a call, the meter tells the journal after the call. -/
theorem tells_run {j : Journal} (tells : m.Tells j) (c : Call) : (c.run m).Tells (j.after c (c.taken m)) := by
  cases c with
  | write data =>
    have took := write_took m data
    rw [taken_of_held (.write data) took.held]
    exact tells.took took
  | readFrom source =>
    obtain ⟨taken, took, -⟩ := readFrom_took m source
    rw [taken_of_held (.readFrom source) took.held]
    exact tells.took took
  | reset => exact tells.reset
  | disableCrc disable =>
    cases disable with
    | true => exact ⟨tells.size, rfl, nofun⟩
    | false => exact tells.enableCrc
  | flush =>
    rw [taken_of_held .flush (flush_took m).held]
    exact tells.took (flush_took m)
  | close =>
    rw [taken_of_held .close (close_took m).held]
    exact tells.took (close_took m)

theorem tells_foldl {j : Journal} (calls : List Call) (tells : m.Tells j) :
    (calls.foldl run m).Tells (journal calls m j) := by
  induction calls generalizing m j with
  | nil => exact tells
  | cons c rest ih => exact ih (tells_run tells c)

theorem held_foldl (calls : List Call) (m : Meter σ) :
    ByteSink.held (calls.foldl run m).sink = ByteSink.held m.sink ++ (takings calls m).flatten := by
  induction calls generalizing m with
  | nil => exact (List.append_nil _).symm
  | cons c rest ih =>
    rw [List.foldl_cons, ih, held_run, takings, List.flatten_cons, List.append_assoc]

end Call

end calls

theorem tells_start (sink : σ) (checking : Bool) :
    ({ sink, checking } : Meter σ).Tells { summed := if checking then some [] else none } where
  size := rfl
  checking := by cases checking <;> rfl
  crc := by
    cases checking with
    | false => nofun
    | true =>
      rintro _ ⟨rfl⟩
      rfl

variable [ByteSink σ] [LawfulByteSink σ]

/-- After any calls on a new meter, on any sink and with any sources: the size is the number of bytes the sink took
since the last reset; the checksum is that of the bytes it took since the last reset or since the checksum was last
turned on, and 0 while it is off; and the sink holds what it took in all calls, in order. A further copy reports the
number of bytes the sink takes in it, and reports no failure only if these are the whole source. -/
theorem meter_tells (sink : σ) (checking : Bool) (calls : List Call) :
    let start : Meter σ := { sink, checking }
    let m := calls.foldl Call.run start
    let j := Call.journal calls start { summed := if checking then some [] else none }
    m.size = j.counted.length ∧
    m.crc32 = j.summed.elim 0 Crc32.checksum ∧
    ByteSink.held m.sink = ByteSink.held sink ++ (Call.takings calls start).flatten ∧
    ∀ {ρ : Type} [ByteSource ρ] [LawfulByteSource ρ] (source : ρ),
      (m.readFrom source).1 = ((Call.readFrom source).taken m).length ∧
      (Call.readFrom source).taken m <+: ByteSource.contents source ∧
      ((m.readFrom source).2.1 = none → (Call.readFrom source).taken m = ByteSource.contents source) := by
  intro start m j
  have tells : m.Tells j := Call.tells_foldl calls (tells_start sink checking)
  refine ⟨tells.size, tells.crc32, Call.held_foldl calls start, fun source => ?_⟩
  obtain ⟨taken, took, count, leading, whole⟩ := readFrom_took m source
  rw [Call.taken_of_held (.readFrom source) took.held]
  exact ⟨count.symm, leading, whole⟩

/-- Two writes, with the checksum turned off for the second one, and a copy. -/
def shortCalls : List Call :=
  [.write (ascii "ab"), .disableCrc true, .write (ascii "cd"), .disableCrc false,
    .readFrom { data := ascii "efgh", chunk := 3 : Source }, .close]

/-- The calls of `shortCalls` on a sink that takes six bytes and then returns a short count without a failure. Two of
the last four bytes are taken, and the checksum is that of these two. -/
theorem meter_tells_short :
    let m := shortCalls.foldl Call.run ({ sink := { room := some 6, short := true } } : Meter Sink)
    m.size = 6 ∧ m.crc32 = Crc32.checksum (ascii "ef") ∧ ByteSink.held m.sink = ascii "abcdef" := by
  obtain ⟨size, crc32, held, -⟩ := meter_tells ({ room := some 6, short := true } : Sink) true shortCalls
  have counted : (Call.journal shortCalls ({ sink := { room := some 6, short := true } } : Meter Sink)
      { summed := some [] }).counted.length = 6 := by decide +kernel
  have summed : (Call.journal shortCalls ({ sink := { room := some 6, short := true } } : Meter Sink)
      { summed := some [] }).summed = some (ascii "ef") := by decide +kernel
  have taken : (Call.takings shortCalls ({ sink := { room := some 6, short := true } } : Meter Sink)).flatten =
      ascii "abcdef" := by decide +kernel
  intro m
  refine ⟨size.trans counted, crc32.trans ?_, held.trans taken⟩
  rw [if_pos rfl, summed]
  rfl

end Meter

end Dalvik
