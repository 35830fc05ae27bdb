import Dalvik.Proofs.Cell
import Dalvik.Proofs.Reading

/-!
# What a LEB128 field keeps

A field is decoded and set in any order. `Field.after calls` gives the field that some calls leave,
and the bytes of the last decoding that succeeded, as long as the value has not changed since.

* `raw_run_uleb`, `raw_run_sleb`: a single call leaves the field with these bytes;
* `bytes_of_calls`: after any calls, the field is encoded as these bytes, or else as its value is
  encoded, and decoding the encoding gives its value.
-/

namespace Dalvik.Leb128

/-- A call on a field. -/
inductive Call where
  | decode (c : Cursor)
  | set (v : Int)

/-- The value, the encoding and the size of a field, and the functions that change it. -/
structure Field (σ : Type) where
  fresh : σ
  get : σ → Int
  set : σ → Int → σ
  decode : Cursor → Action σ Cursor

def uleb : Field Uleb := ⟨{}, Uleb.get, Uleb.set, Uleb.decode⟩

def sleb : Field Sleb := ⟨{}, Sleb.get, Sleb.set, Sleb.decode⟩

namespace Field

variable {σ : Type} (f : Field σ)

/-- The field that a call leaves. -/
def run (s : σ) : Call → σ
  | .decode c => ((f.decode c).apply s).2
  | .set v => f.set s v

/-- The bytes that a call decodes, if it is a decoding that succeeds. -/
def taken? (s : σ) : Call → Option Bytes
  | .decode c =>
    match ((f.decode c).apply s).1 with
    | .ok c' => some (c.slice c.pos (c'.pos - c.pos))
    | .error _ => none
  | .set _ => none

/-- The bytes to be kept after a call when `held` were kept before: those that it decodes, and otherwise `held`,
unless the value has changed. -/
def keep (s : σ) (held : Option Bytes) (call : Call) : Option Bytes :=
  match f.taken? s call with
  | some raw => some raw
  | none => if f.get (f.run s call) = f.get s then held else none

/-- A new field after some calls, and the bytes of the last successful decoding if the value is the same since. -/
def after (calls : List Call) : σ × Option Bytes :=
  calls.foldl (fun (s, held) call => (f.run s call, f.keep s held call)) (f.fresh, none)

/-- What holds of a new field and is kept by each call holds after any calls. -/
theorem after_keeps {P : σ → Option Bytes → Prop} (new : P f.fresh none)
    (step : ∀ s held call, P s held → P (f.run s call) (f.keep s held call)) (calls : List Call) :
    P (f.after calls).1 (f.after calls).2 := by
  have run : ∀ s held, P s held →
      let last := calls.foldl (fun (s, held) call => (f.run s call, f.keep s held call)) (s, held)
      P last.1 last.2 := by
    induction calls with
    | nil => exact fun s held h => h
    | cons call calls ih => exact fun s held h => ih _ _ (step s held call h)
  exact run f.fresh none new

end Field

/-! ## Single calls -/

theorem raw_run_uleb (u : Uleb) (call : Call) : (uleb.run u call).raw = uleb.keep u u.raw call := by
  cases call with
  | decode c =>
    cases read : c.uleb with
    | ok found =>
      obtain ⟨v, n, c'⟩ := found
      obtain ⟨raw, rfl, spans, -⟩ := Cursor.uleb_eq_ok.1 read
      simp [Field.run, Field.keep, Field.taken?, uleb, Uleb.decode, read, spans.next]
    | error e => simp [Field.run, Field.keep, Field.taken?, uleb, Uleb.decode, read]
  | set v =>
    simp only [Field.run, Field.keep, Field.taken?, uleb, Uleb.set, Uleb.setValue]
    by_cases same : UInt32.ofInt v = u.value
    · simp [same]
    · have differ : (UInt32.ofInt v).toNat ≠ u.value.toNat := fun e => same (UInt32.toNat_inj.1 e)
      simp [same, Uleb.get, differ]

theorem raw_run_sleb (s : Sleb) (call : Call) : (sleb.run s call).raw = sleb.keep s s.raw call := by
  cases call with
  | decode c =>
    cases read : c.sleb with
    | ok found =>
      obtain ⟨v, n, c'⟩ := found
      obtain ⟨raw, rfl, spans, -⟩ := Cursor.sleb_eq_ok.1 read
      simp [Field.run, Field.keep, Field.taken?, sleb, Sleb.decode, read, spans.next]
    | error e => simp [Field.run, Field.keep, Field.taken?, sleb, Sleb.decode, read]
  | set v =>
    simp only [Field.run, Field.keep, Field.taken?, sleb, Sleb.set]
    by_cases same : Int32.ofInt v = s.value
    · simp [same]
    · have differ : (Int32.ofInt v).toInt ≠ s.value.toInt := fun e => same (Int32.toInt_inj.1 e)
      simp only [same, Sleb.get, differ, if_false]

theorem fair_run_uleb {u : Uleb} (h : u.Fair) (call : Call) : (uleb.run u call).Fair := by
  cases call with
  | decode c =>
    rcases read : (Uleb.decode c).apply u with ⟨r, v⟩
    change ((Uleb.decode c).apply u).2.Fair
    rw [read]
    cases r with
    | ok c' => exact (gives_uleb.1 read).1.fair
    | error e =>
      simp only [Uleb.decode, Action.apply_of] at read
      split at read
      · cases read
      · cases read
        exact h
  | set v => exact h.set v

theorem fair_run_sleb {s : Sleb} (h : s.Fair) (call : Call) : (sleb.run s call).Fair := by
  cases call with
  | decode c =>
    rcases read : (Sleb.decode c).apply s with ⟨r, v⟩
    change ((Sleb.decode c).apply s).2.Fair
    rw [read]
    cases r with
    | ok c' => exact (gives_sleb.1 read).1.fair
    | error e =>
      simp only [Sleb.decode, Action.apply_of] at read
      split at read
      · cases read
      · cases read
        exact h
  | set v => exact h.set v

/-! ## Any calls -/

theorem spans_ofBytes (b : Bytes) : (Cursor.ofBytes b).Spans b { Cursor.ofBytes b with pos := b.length } where
  here := by simp [Cursor.ofBytes]
  next := by simp [Cursor.ofBytes]

/-- After any decodings and settings of a `Uleb` or `Sleb` field, `size` is the number of bytes of its encoding; the
encoding is the bytes of the last successful decoding if the value has not changed since, and the shortest encoding of
the value otherwise; and decoding these bytes takes all of them and gives a field with the same value. -/
theorem bytes_of_calls :
    (∀ calls : List Call,
      let (u, held) := uleb.after calls
      u.size = u.bytes.length ∧ u.bytes = held.getD (encodeU u.value) ∧
        ∀ old, ∃ v, (Uleb.decode (.ofBytes u.bytes)).Gives old { Cursor.ofBytes u.bytes with pos := u.bytes.length } v ∧
          v.get = u.get) ∧
    ∀ calls : List Call,
      let (s, held) := sleb.after calls
      s.size = s.bytes.length ∧ s.bytes = held.getD (encodeS s.value) ∧
        ∀ old, ∃ t, (Sleb.decode (.ofBytes s.bytes)).Gives old { Cursor.ofBytes s.bytes with pos := s.bytes.length } t ∧
          t.get = s.get := by
  constructor
  · intro calls
    obtain ⟨kept, fair⟩ := uleb.after_keeps (P := fun u held => u.raw = held ∧ u.Fair) ⟨rfl, Uleb.fair_mk 0⟩
      (fun u held call h => ⟨by rw [raw_run_uleb, h.1], fair_run_uleb h.2 call⟩) calls
    generalize uleb.after calls = last at kept fair ⊢
    obtain ⟨u, held⟩ := last
    exact ⟨u.size_eq, congrArg (Option.getD · (encodeU u.value)) kept, fun old =>
      ⟨u.asRead, gives_uleb.2 ⟨fair.read, spans_ofBytes u.bytes⟩, rfl⟩⟩
  · intro calls
    obtain ⟨kept, fair⟩ := sleb.after_keeps (P := fun s held => s.raw = held ∧ s.Fair) ⟨rfl, Sleb.fair_mk 0⟩
      (fun s held call h => ⟨by rw [raw_run_sleb, h.1], fair_run_sleb h.2 call⟩) calls
    generalize sleb.after calls = last at kept fair ⊢
    obtain ⟨s, held⟩ := last
    exact ⟨s.size_eq, congrArg (Option.getD · (encodeS s.value)) kept, fun old =>
      ⟨s.asRead, gives_sleb.2 ⟨fair.read, spans_ofBytes s.bytes⟩, rfl⟩⟩

/-- A 1 that was decoded from two bytes keeps them when the field is set to 1 modulo `2 ^ 32` and when a decoding
fails. Setting it to 300 drops them, also if it is then set to 1 again. -/
example :
    let read : List Call := [.decode (.ofBytes [0x81, 0x00]), .set 4294967297, .decode (.ofBytes [0x80])]
    (uleb.after read).1.bytes = [0x81, 0x00] ∧ (uleb.after (read ++ [.set 300])).1.bytes = [0xac, 0x02] ∧
      (uleb.after (read ++ [.set 300, .set 1])).1.bytes = [0x01] := by decide

end Dalvik.Leb128
