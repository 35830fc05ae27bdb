import Dalvik.Proofs.Image.Shortest
import Dalvik.Proofs.Image.Value
import Dalvik.Proofs.Numeral
import Dalvik.Proofs.Pool

/-!
# Values of constants

`Value.ofConstant` encodes a constant as a value that is read back whatever follows it, that stands
for the constant again, and whose payload is the shortest of all values of its kind that do
(`Value.encodes`).
-/

namespace Dalvik

variable {c c' : Cursor}

namespace Value

variable {kind : ValueKind} {arg : Nat} {data : Bytes} {v v₀ : Value} {pool : Option Pool} {k : Constant}

/-! ## Reading what nests nothing -/

theorem ofTag?_tag (kind : ValueKind) : ValueKind.ofTag? kind.tag = some kind := by cases kind <;> rfl

theorem tag_lt (kind : ValueKind) : kind.tag < 32 := by cases kind <;> decide

theorem maxSize_le (kind : ValueKind) : kind.maxSize ≤ 8 := by cases kind <;> decide

theorem toNat_head {arg tag : Nat} (ha : arg < 8) (ht : tag < 32) : (head arg tag).toNat = arg * 32 + tag := by
  rw [head]
  exact UInt8.toNat_ofNat_of_lt' (show arg * 32 + tag < 256 by omega)

theorem bytes_ne_nil (v : Value) : v.bytes ≠ [] := by
  cases v with
  | plain tag arg data => simp [bytes_plain]
  | array arg size items => simp [bytes_array]
  | note arg type size elements => simp [bytes_note]

theorem gives_decode_payload (hc : c.Sane) (some : data ≠ []) (size : data.length ≤ kind.maxSize)
    (spans : c.Spans (payload kind data).bytes c') : (decode c).Gives v₀ c' (payload kind data) := by
  have length := List.length_pos_iff.2 some
  have most := maxSize_le kind
  rw [payload, bytes_plain] at spans
  obtain ⟨c₁, first, rest⟩ : ∃ c₁, c.Spans [head (data.length - 1) kind.tag] c₁ ∧ c₁.Spans data c' :=
    Cursor.spans_append.1 spans
  have small : data.length - 1 < 8 := by omega
  have toNat := toNat_head small (tag_lt kind)
  have tag_eq : ((data.length - 1) * 32 + kind.tag) % 32 = kind.tag := by
    have := tag_lt kind
    omega
  have arg_eq : ((data.length - 1) * 32 + kind.tag) / 32 = data.length - 1 := by
    have := tag_lt kind
    omega
  have hc₁ := first.sane hc
  have back : data.length = data.length - 1 + 1 := by omega
  have run : c₁.bytes ((data.length - 1 : Nat) + 1) = .ok (data, c') := (Cursor.bytes_eq_ok hc₁).2 ⟨back, rest⟩
  simp only [decode, decodeFuel, Action.gives_bind, Action.gives_lift, Action.gives_set]
  refine ⟨(head (data.length - 1) kind.tag, c₁), v₀, ⟨(Cursor.u8_eq_ok hc).2 first, rfl⟩, ⟨⟩, _, rfl, ?_⟩
  rw [toNat, tag_eq, arg_eq, ofTag?_tag]
  have fits : ¬ kind.maxSize < data.length - 1 + 1 := by omega
  cases kind with
  | array | note | null | boolean =>
    simp only [ValueKind.maxSize] at size
    omega
  | _ =>
    dsimp only
    rw [if_neg fits, Action.gives_bind]
    exact ⟨(data, c'), _, Action.gives_lift.2 ⟨run, rfl⟩, rfl⟩

theorem gives_decode_bare (hc : c.Sane) (h : kind = .null ∨ kind = .boolean) (ha : arg ≤ 1)
    (spans : c.Spans (plain kind.tag arg []).bytes c') : (decode c).Gives v₀ c' (plain kind.tag arg []) := by
  rw [bytes_plain] at spans
  have tag_eq : (head arg kind.tag).toNat % 32 = kind.tag := by
    rw [toNat_head (by omega) (tag_lt kind)]
    have := tag_lt kind
    omega
  have arg_eq : (head arg kind.tag).toNat / 32 = arg := by
    rw [toNat_head (by omega) (tag_lt kind)]
    have := tag_lt kind
    omega
  simp only [decode, decodeFuel, Action.gives_bind, Action.gives_lift, Action.gives_set]
  refine ⟨(head arg kind.tag, c'), v₀, ⟨(Cursor.u8_eq_ok hc).2 spans, rfl⟩, ⟨⟩, _, rfl, ?_⟩
  rw [tag_eq, arg_eq, ofTag?_tag]
  rcases h with rfl | rfl
  · exact Action.gives_pure.2 ⟨rfl, rfl⟩
  · dsimp only
    rw [if_neg (by omega)]
    exact Action.gives_pure.2 ⟨rfl, rfl⟩

/-- The payload of a number or an index that was decoded has at least one byte. -/
theorem payload_of_decode (hk : 0 < kind.maxSize) (run : (decode c).Gives v₀ c' v) (tagged : v.tag = kind.tag) :
    ∃ data, data ≠ [] ∧ v = payload kind data := by
  have only : ∀ other : ValueKind, other.tag = kind.tag → other = kind := by
    intro other same
    have := ofTag?_tag other
    rw [same, ofTag?_tag] at this
    exact (Option.some.inj this).symm
  simp only [decode, decodeFuel, Action.gives_bind, Action.gives_lift, Action.gives_set] at run
  obtain ⟨⟨b, c₁⟩, _, ⟨-, rfl⟩, _, _, rfl, run⟩ := run
  dsimp only at run
  split at run
  · simp at run
  · simp only [Action.gives_bind, Action.gives_set, Action.gives_lift] at run
    obtain ⟨_, _, rfl, -, rfl⟩ := run
    obtain rfl := only .array tagged
    cases hk
  · simp only [Action.gives_bind, Action.gives_set, Action.gives_lift] at run
    obtain ⟨_, _, rfl, _, _, -, _, _, rfl, -, rfl⟩ := run
    obtain rfl := only .note tagged
    cases hk
  · next isNull =>
    simp only [Action.gives_pure] at run
    obtain ⟨-, rfl⟩ := run
    obtain rfl := only .null ((tag_of_ofTag? isNull).trans tagged)
    cases hk
  · next isBoolean =>
    split at run
    · simp at run
    · simp only [Action.gives_pure] at run
      obtain ⟨-, rfl⟩ := run
      obtain rfl := only .boolean ((tag_of_ofTag? isBoolean).trans tagged)
      cases hk
  · split at run
    · simp at run
    · simp only [Action.gives_bind, Action.gives_lift, Action.gives_set, Action.gives_pure] at run
      obtain ⟨⟨data, c₂⟩, _, ⟨read, rfl⟩, _, _, rfl, rfl, rfl⟩ := run
      have length : data.length = b.toNat / 32 + 1 := Cursor.length_of_bytes read
      refine ⟨data, List.length_pos_iff.1 (by omega), ?_⟩
      have := tagged
      rw [tag] at this
      rw [payload, ← this, length, Nat.add_sub_cancel]

/-- Decoding the encoding of `v` gives `v`, whatever follows, and no value of its kind with a shorter payload stands
for `k`. -/
structure RoundTrips (pool : Option Pool) (k : Constant) (v : Value) : Prop where
  decodes : ∀ c c' v₀, c.Sane → c.Spans v.bytes c' → (decode c).Gives v₀ c' v
  least : ∀ c c' v₀ w, c.Sane → (decode c).Gives v₀ c' w → w.tag = v.tag → w.constant pool = .ok k →
    v.bytes.length ≤ w.bytes.length

theorem roundTrips_payload (some : data ≠ []) (size : data.length ≤ kind.maxSize)
    (least : ∀ other, other ≠ [] → (payload kind other).constant pool = .ok k → data.length ≤ other.length) :
    RoundTrips pool k (payload kind data) where
  decodes c c' v₀ hc spans := gives_decode_payload hc some size spans
  least c c' v₀ w hc run tagged stands := by
    have pos : 0 < kind.maxSize := Nat.lt_of_lt_of_le (List.length_pos_iff.2 some) size
    obtain ⟨other, nonempty, rfl⟩ := payload_of_decode pos run tagged
    have := least other nonempty stands
    rw [payload, payload, bytes_plain, bytes_plain, List.length_cons, List.length_cons]
    omega

theorem roundTrips_bare (h : kind = .null ∨ kind = .boolean) (ha : arg ≤ 1) : RoundTrips pool k (plain kind.tag arg []) where
  decodes c c' v₀ hc spans := gives_decode_bare hc h ha spans
  least c c' v₀ w hc run tagged stands := by
    rw [bytes_plain, List.length_singleton]
    exact List.length_pos_iff.2 (bytes_ne_nil w)

/-! ## Literals -/

theorem toLong_of_fits (kind : LiteralKind) {n : Int} (h : Fits 8 n) : (⟨kind, UInt64.ofInt n⟩ : Literal).toLong = n := by
  have power : (256 ^ 8 : Int) = 2 * 2 ^ 63 := by norm_num
  obtain ⟨low, high⟩ := h
  exact Literal.toLong_of_bounds kind (by omega) (by omega)

/-- The signed encoding of a literal of `w` bytes is the shortest. -/
theorem shortest_signed (make : Int → Literal) (w : Nat) {literal : LiteralKind}
    (making : ∀ n, make n = ⟨literal, UInt64.ofInt (Literal.signExtend (8 * w) n)⟩) (pos : 0 < w) (hw : w ≤ 8) (n : Int) :
    Shortest (fun d => make (extended d)) (make n) (signedBytes (make n).toLong) ∧
      (signedBytes (make n).toLong).length ≤ w := by
  have toLong : ∀ n, (make n).toLong = Literal.signExtend (8 * w) n := by
    intro n
    rw [making]
    exact toLong_of_fits literal ((fits_signExtend w n).mono hw)
  have fits := fits_signExtend w n
  have shortest := shortest_signedBytes (fits.mono hw)
  obtain ⟨-, -, least⟩ := signedBytes_spec (fits.mono hw)
  rw [toLong]
  refine ⟨⟨?_, shortest.nonempty, fun other some same => ?_⟩, least w pos fits⟩
  · rw [shortest.reads, making, making, signExtend_of_fits fits]
  · by_contra fewer
    have short : Fits w (extended other) := (fits_signExtend _ _).mono (by have := least w pos fits; omega)
    have equal := congrArg Literal.toLong same
    rw [toLong, toLong, signExtend_of_fits short] at equal
    exact fewer (shortest.least other some equal)

theorem shortest_byte (n : Int) :
    Shortest (fun d => Literal.byte (extended d)) (.byte n) [UInt8.ofInt (Literal.byte n).toLong] := by
  refine ⟨?_, List.cons_ne_nil _ _, fun other some _ => List.length_pos_iff.2 some⟩
  have fits := fits_signExtend 1 n
  have toLong : (Literal.byte n).toLong = Literal.signExtend (8 * 1) n := toLong_of_fits _ (fits.mono (by decide))
  have back := signExtend_of_fits fits
  have reads : extended [UInt8.ofInt (Literal.signExtend (8 * 1) n)] = Literal.signExtend (8 * 1) n := by
    generalize Literal.signExtend (8 * 1) n = m at back ⊢
    have low : ((littleEndian [UInt8.ofInt m] : Nat) : Int) = m % 256 := by
      simp only [littleEndian, UInt8.ofInt, UInt8.toNat_ofNat']
      omega
    rw [extended, low]
    exact (Int.emod_bmod m 256).trans back
  have making : ∀ m, Literal.byte m = ⟨.byte, UInt64.ofInt (Literal.signExtend (8 * 1) m)⟩ := fun _ => rfl
  rw [toLong, reads, making, making, back]

/-- The unsigned encoding of a character is the shortest. -/
theorem shortest_char (u : UInt16) :
    Shortest (fun d => Literal.char (UInt16.ofNat (littleEndian d))) (.char u) (unsignedBytes (Literal.char u).stored) ∧
      (unsignedBytes (Literal.char u).stored).length ≤ 2 := by
  have small : u.toNat < 256 ^ 2 := u.toNat_lt
  have stored : (Literal.char u).stored = u.toNat := by
    have : twoPow LiteralKind.char.width = 256 ^ 2 := by rfl
    rw [Literal.stored, Literal.char, this]
    exact Nat.mod_eq_of_lt small
  have shortest := shortest_unsignedBytes (n := u.toNat) (by omega)
  obtain ⟨-, -, least⟩ := unsignedBytes_spec (n := u.toNat) (by omega)
  rw [stored]
  refine ⟨⟨by rw [shortest.reads, UInt16.ofNat_toNat], shortest.nonempty, fun other some same => ?_⟩,
    least 2 (by decide) small⟩
  have equal : UInt16.ofNat (littleEndian other) = u := by
    have := congrArg (UInt64.toNat ∘ Literal.bits) same
    rw [← UInt16.toNat_inj]
    exact this
  by_contra fewer
  have lt := littleEndian_lt other
  have short : 256 ^ other.length ≤ 256 ^ 1 := by
    have := least 2 (by decide) small
    exact Nat.pow_le_pow_right (by decide) (by omega)
  have toNat : littleEndian other = u.toNat := by
    rw [← equal]
    exact (UInt16.toNat_ofNat_of_lt' (show littleEndian other < 65536 by omega)).symm
  exact fewer (shortest.least other some toNat)

/-- The encoding of a floating-point literal without trailing zero bytes is the shortest. -/
theorem shortest_floating (make : Nat → Literal) (size : Nat)
    (making : ∀ a b, make a = make b ↔ a % 256 ^ size = b % 256 ^ size) (pos : 0 < size) (bits : Nat) :
    Shortest (fun d => make (filled size d)) (make bits) (rightZeroBytes size (bits % 256 ^ size)) ∧
      (rightZeroBytes size (bits % 256 ^ size)).length ≤ size := by
  obtain ⟨shortest, within⟩ :=
    shortest_rightZeroBytes (n := bits % 256 ^ size) pos (Nat.mod_lt _ (Nat.pow_pos (by decide)))
  refine ⟨⟨?_, shortest.nonempty, fun other some same => ?_⟩, within⟩
  · rw [shortest.reads, making, Nat.mod_mod]
  · by_contra fewer
    have small : filled size other < 256 ^ size := by
      have split : 256 ^ size = 256 ^ other.length * 256 ^ (size - other.length) := by
        rw [← Nat.pow_add, Nat.add_sub_cancel' (by omega)]
      rw [filled, split]
      exact Nat.mul_lt_mul_of_pos_right (littleEndian_lt other) (Nat.pow_pos (by decide))
    rw [making, Nat.mod_eq_of_lt small] at same
    exact fewer (shortest.least other some same)

theorem float_eq_iff (a b : Nat) : Literal.float a = Literal.float b ↔ a % 256 ^ 4 = b % 256 ^ 4 := by
  have width : twoPow 32 = 256 ^ 4 := by rfl
  rw [Literal.float, Literal.float, Literal.mk.injEq, ← UInt64.toNat_inj, width, UInt64.toNat_ofNat', UInt64.toNat_ofNat']
  simp only [true_and]
  omega

theorem double_eq_iff (a b : Nat) : Literal.double a = Literal.double b ↔ a % 256 ^ 8 = b % 256 ^ 8 := by
  rw [Literal.double, Literal.double, Literal.mk.injEq, ← UInt64.toNat_inj, UInt64.toNat_ofNat', UInt64.toNat_ofNat']
  simp only [true_and]
  norm_num

theorem stored_float (bits : Nat) : (Literal.float bits).stored = bits % 256 ^ 4 := by
  have width : twoPow 32 = 256 ^ 4 := by rfl
  rw [Literal.stored, Literal.float, LiteralKind.width, width, UInt64.toNat_ofNat']
  omega

theorem stored_double (bits : Nat) : (Literal.double bits).stored = bits % 256 ^ 8 := by
  have width : twoPow 64 = 256 ^ 8 := by rfl
  rw [Literal.stored, Literal.double, LiteralKind.width, width, UInt64.toNat_ofNat']
  omega

theorem toInt_int (n : Int) : (Literal.int n).toInt = (Literal.int n).toLong := by
  have fits := fits_signExtend 4 n
  have : (Literal.int n).toLong = Literal.signExtend (8 * 4) n := toLong_of_fits _ (fits.mono (by decide))
  rw [Literal.toInt, this]
  exact signExtend_of_fits fits

/-- The value with the shortest payload of a literal round-trips. -/
theorem literal_payload {value : Bytes → Literal} {p : Literal}
    (stands : ∀ d, (payload kind d).constant pool = .ok (.literal (value d)))
    (h : Shortest value p data) (size : data.length ≤ kind.maxSize) :
    (payload kind data).constant pool = .ok (.literal p) ∧ RoundTrips pool (.literal p) (payload kind data) := by
  refine ⟨by rw [stands, h.reads], roundTrips_payload h.nonempty size fun other some same => h.least other some ?_⟩
  rw [stands] at same
  cases same
  rfl

end Value

/-- The literal was made from a number, a character, raw bits or a truth value. -/
inductive Literal.Made : Literal → Prop where
  | int (n : Int) : Made (.int n)
  | long (n : Int) : Made (.long n)
  | byte (n : Int) : Made (.byte n)
  | short (n : Int) : Made (.short n)
  | char (u : UInt16) : Made (.char u)
  | float (bits : Nat) : Made (.float bits)
  | double (bits : Nat) : Made (.double bits)
  | boolean (b : Bool) : Made (.boolean b)

namespace Value

variable {pool : Option Pool} {k : Constant} {kind : ValueKind} {of : Kind}

theorem ofLiteral_spec {p : Literal} (hp : p.Made) :
    (ofLiteral p).constant pool = .ok (.literal p) ∧ RoundTrips pool (.literal p) (ofLiteral p) := by
  cases hp with
  | int n =>
    have written : ofLiteral (.int n) = payload .int (signedBytes (Literal.int n).toLong) := by
      rw [← toInt_int]
      rfl
    obtain ⟨shortest, size⟩ := shortest_signed Literal.int 4 (fun _ => rfl) (by decide) (by decide) n
    rw [written]
    exact literal_payload (fun _ => rfl) shortest size
  | long n =>
    obtain ⟨shortest, size⟩ := shortest_signed Literal.long 8 (fun _ => rfl) (by decide) (by decide) n
    exact literal_payload (fun _ => rfl) shortest size
  | byte n => exact literal_payload (fun _ => rfl) (shortest_byte n) (Nat.le_refl 1)
  | short n =>
    obtain ⟨shortest, size⟩ := shortest_signed Literal.short 2 (fun _ => rfl) (by decide) (by decide) n
    exact literal_payload (fun _ => rfl) shortest size
  | char u =>
    obtain ⟨shortest, size⟩ := shortest_char u
    exact literal_payload (fun _ => rfl) shortest size
  | float bits =>
    have written : ofLiteral (.float bits) = payload .float (rightZeroBytes 4 (bits % 256 ^ 4)) := by
      rw [← stored_float]
      rfl
    obtain ⟨shortest, size⟩ := shortest_floating Literal.float 4 float_eq_iff (by decide) bits
    rw [written]
    exact literal_payload (fun _ => rfl) shortest size
  | double bits =>
    have written : ofLiteral (.double bits) = payload .double (rightZeroBytes 8 (bits % 256 ^ 8)) := by
      rw [← stored_double]
      rfl
    obtain ⟨shortest, size⟩ := shortest_floating Literal.double 8 double_eq_iff (by decide) bits
    rw [written]
    exact literal_payload (fun _ => rfl) shortest size
  | boolean b =>
    cases b
    · exact ⟨rfl, roundTrips_bare (.inr rfl) (by decide)⟩
    · exact ⟨rfl, roundTrips_bare (.inr rfl) (by decide)⟩

/-! ## References -/

/-- The constant that an index of a section stands for. -/
def named (pool : Option Pool) (of : Kind) (n : Nat) : Constant :=
  match pool with
  | some p => (p.lookup of n).toOption.getD (.raw of n)
  | none => .raw of n

theorem constant_reference (h : kind.refers? = some of) (data : Bytes) :
    (payload kind data).constant pool = .ok (named pool of (littleEndian data)) := by
  cases kind <;> cases h <;> cases pool <;> rfl

theorem maxSize_of_refers (h : kind.refers? = some of) : kind.maxSize = 4 := by
  cases kind <;> cases h <;> rfl

/-- The least index that stands for a constant round-trips in the shortest encoding. -/
theorem roundTrips_reference (h : kind.refers? = some of) {i : Int} (low : 0 ≤ i)
    (least : ∀ n : Nat, named pool of n = k → i ≤ n) :
    RoundTrips pool k (payload kind (unsignedBytes (i % twoPow 32).toNat)) := by
  have power : ((twoPow 32 : Nat) : Int) = 4294967296 := by rfl
  rw [power]
  have small : (i % 4294967296).toNat < 256 ^ 4 := by omega
  obtain ⟨-, nonempty, short⟩ := unsignedBytes_spec (n := (i % 4294967296).toNat) (by omega)
  refine roundTrips_payload nonempty (by rw [maxSize_of_refers h]; exact short 4 (by decide) small) fun other some same => ?_
  rw [constant_reference h] at same
  have below : i ≤ littleEndian other := least _ (Except.ok.inj same)
  have bound := littleEndian_lt other
  exact short _ (List.length_pos_iff.2 some) (by omega)

theorem named_some (p : Pool) (of : Kind) (n : Nat) :
    named (some p) of n = (p.lookup of n).toOption.getD (.raw of n) := rfl

theorem named_eq_of_lookup {p : Pool} {n : Nat} (h : p.lookup of n = .ok k) : named (some p) of n = k := by
  rw [named_some, h]
  rfl

theorem named_eq_section {p : Pool} {n : Nat} (hk : k.HasSection) :
    named (some p) k.kind n = k ↔ p.lookup k.kind n = .ok k := by
  refine ⟨fun h => ?_, named_eq_of_lookup⟩
  rw [named_some] at h
  cases e : p.lookup k.kind n with
  | ok found =>
    rw [e] at h
    exact congrArg Except.ok h
  | error stop =>
    rw [e] at h
    rw [← h] at hk
    exact hk.elim

/-- A raw index stands for no other index. -/
theorem named_eq_raw {n : Nat} {i : Int} (h : named pool of n = .raw of i) : i = n := by
  have missed : ∀ {e : Constant}, e = .raw of n → e = .raw of i → i = n := by
    rintro e rfl same
    cases same
    rfl
  cases pool with
  | none => exact missed rfl h
  | some p =>
    rw [named_some] at h
    cases e : p.lookup of n with
    | ok found =>
      rw [e] at h
      obtain ⟨m, -, located⟩ := Pool.lookup_eq_ok.1 e
      have member := Pool.mem_of_mem_entries (List.mem_of_getElem? located)
      have sectioned := Pool.hasSection_of_mem member
      have : found = .raw of i := h
      rw [this] at sectioned
      exact sectioned.elim
    | error stop =>
      rw [e] at h
      exact missed rfl h

end Value

/-- A constant that can be encoded as a value: a literal, null, a constant with a section and valid descriptors, or a
raw index below 2^32 that the pool does not resolve. -/
def Constant.Encodable (pool : Option Pool) : Constant → Prop
  | .literal p => p.Made
  | .null => True
  | .raw of i =>
    of ∈ [.string, .type, .proto, .field, .method, .methodHandle] ∧ 0 ≤ i ∧ i < twoPow 32 ∧
      ∀ p e, pool = some p → p.lookup of i ≠ .ok e
  | k => k.WellFormed ∧ pool.isSome

namespace Value

variable {pool : Option Pool} {k : Constant} {kind : ValueKind} {of : Kind}

theorem refers_of_kindFor (hk : k.HasSection) : ∃ kind, kindFor? k = some kind ∧ kind.refers? = some k.kind := by
  cases k with
  | field f =>
    rw [kindFor?]
    split
    · exact ⟨_, rfl, rfl⟩
    · exact ⟨_, rfl, rfl⟩
  | string _ | type _ | proto _ | method _ => exact ⟨_, rfl, rfl⟩
  | _ => exact hk.elim

theorem refers_of_raw {i : Int} (h : of ∈ [Kind.string, .type, .proto, .field, .method, .methodHandle]) :
    ∃ kind, kindFor? (.raw of i) = some kind ∧ kind.refers? = some of := by
  simp only [List.mem_cons, List.not_mem_nil, or_false] at h
  rcases h with rfl | rfl | rfl | rfl | rfl | rfl <;> exact ⟨_, rfl, rfl⟩

theorem gives_ofConstant_raw {i : Int} (h : kindFor? (.raw of i) = some kind) :
    (ofConstant (some (.raw of i))).Gives pool (payload kind (unsignedBytes (i % twoPow 32).toNat)) pool := by
  simp only [ofConstant, Option.bind_some, h]
  rfl

theorem gives_ofConstant {p q : Pool} {i : Int} (hk : k.HasSection) (h : kindFor? k = some kind)
    (run : p.intern k = .ok (i, q)) :
    (ofConstant (some k)).Gives (some p) (payload kind (unsignedBytes (i % twoPow 32).toNat)) (some q) := by
  cases k with
  | string _ | type _ | proto _ | field _ | method _ =>
    simp only [ofConstant, Option.bind_some, h, Action.gives_bind, Action.gives_get]
    refine ⟨some p, some p, ⟨rfl, rfl⟩, ?_⟩
    simp only [run, Action.gives_bind, Action.gives_lift, Action.gives_set, Action.gives_pure]
    exact ⟨_, _, ⟨rfl, rfl⟩, ⟨⟩, _, rfl, rfl, rfl⟩
  | _ => exact hk.elim

theorem encodes_raw {i : Int} (hk : (Constant.raw of i).Encodable pool) :
    ∃ v, (ofConstant (some (.raw of i))).Gives pool v pool ∧ RoundTrips pool (.raw of i) v ∧
      v.constant pool = .ok (.raw of i) := by
  obtain ⟨member, low, high, missed⟩ := hk
  obtain ⟨kind, chosen, refers⟩ := refers_of_raw (i := i) member
  refine ⟨_, gives_ofConstant_raw chosen,
    roundTrips_reference refers low fun n same => Int.le_of_eq (named_eq_raw same), ?_⟩
  have index : ((i % twoPow 32).toNat : Int) = i := by
    have := Int.emod_eq_of_lt low high
    omega
  obtain ⟨reads, -, -⟩ := unsignedBytes_spec (n := (i % twoPow 32).toNat) (by
    have power : ((twoPow 32 : Nat) : Int) = 4294967296 := by rfl
    omega)
  rw [constant_reference refers, reads]
  cases pool with
  | none => rw [named, index]
  | some p =>
    rw [named_some, index]
    cases e : p.lookup of i with
    | ok found => exact (missed p found rfl e).elim
    | error stop => rfl

theorem encodes_section {p : Pool} (hk : k.WellFormed) :
    ∃ v q, (ofConstant (some k)).Gives (some p) v (some q) ∧ RoundTrips (some q) k v ∧
      (v.constant (some q) = .ok k ↔ ∀ i, q.indexOf? k = some i → i < twoPow 32) := by
  have sectioned := hk.hasSection
  obtain ⟨ks, hks⟩ := hk.exists_parts
  obtain ⟨i, run, index⟩ := Pool.intern_of_parts (p := p) sectioned hks
  obtain ⟨kind, chosen, refers⟩ := refers_of_kindFor sectioned
  obtain ⟨n, rfl, -⟩ := (Pool.indexOf?_eq_some sectioned).1 index
  refine ⟨_, _, gives_ofConstant sectioned chosen run,
    roundTrips_reference refers (Int.natCast_nonneg n) fun m same => ?_, ?_⟩
  · exact Pool.indexOf?_le_of_lookup sectioned index ((named_eq_section sectioned).1 same)
  · have power : ((twoPow 32 : Nat) : Int) = 4294967296 := by rfl
    obtain ⟨reads, -, -⟩ := unsignedBytes_spec (n := ((n : Int) % 4294967296).toNat) (by omega)
    rw [constant_reference refers, power, reads]
    constructor
    · intro stands i found
      obtain rfl := Option.some.inj (found.symm.trans index)
      have := Pool.indexOf?_le_of_lookup sectioned index ((named_eq_section sectioned).1 (Except.ok.inj stands))
      omega
    · intro small
      have low := small n index
      have whole : ((n : Int) % 4294967296).toNat = n := by omega
      rw [whole, named_eq_of_lookup (Pool.lookup_of_indexOf? sectioned index)]

/-- `ofConstant` of an `Encodable` constant succeeds with a value that is read back whatever follows it and has the
shortest payload of its kind, and the value stands for the constant exactly if the index that the pool gives it is
below 2^32. -/
theorem encodes (hk : k.Encodable pool) :
    ∃ v pool', (ofConstant (some k)).Gives pool v pool' ∧ RoundTrips pool' k v ∧
      (v.constant pool' = .ok k ↔ ∀ p i, pool' = some p → p.indexOf? k = some i → i < twoPow 32) := by
  cases k with
  | literal p =>
    obtain ⟨stands, trips⟩ : (ofLiteral p).constant pool = .ok (.literal p) ∧ RoundTrips pool (.literal p) (ofLiteral p) :=
      ofLiteral_spec hk
    refine ⟨_, pool, rfl, trips, ⟨fun _ _ _ _ found => ?_, fun _ => stands⟩⟩
    cases found
  | null =>
    refine ⟨null, pool, rfl, roundTrips_bare (.inl rfl) (by decide), ⟨fun _ _ _ _ found => ?_, fun _ => rfl⟩⟩
    cases found
  | raw of i =>
    obtain ⟨v, run, trips, stands⟩ := encodes_raw hk
    refine ⟨v, pool, run, trips, ⟨fun _ _ _ _ found => ?_, fun _ => stands⟩⟩
    cases found
    exact hk.2.2.1
  | string _ | type _ | proto _ | field _ | method _ =>
    obtain ⟨wf, some⟩ := hk
    obtain ⟨p, rfl⟩ := Option.isSome_iff_exists.1 some
    obtain ⟨v, q, run, trips, stands⟩ := encodes_section (p := p) wf
    refine ⟨v, _, run, trips, stands.trans ⟨fun h _ _ same => ?_, fun h i => h q i rfl⟩⟩
    cases same
    exact h _

/-- An enumeration constant, which shares its section with the fields. -/
theorem encodes_enum :
    let pool : Option Pool := some { strings := #[ascii "a"] }
    let k := Constant.field ⟨⟨ascii "LE;"⟩, ascii "RED", ⟨ascii "LE;"⟩⟩
    ∃ v pool', (ofConstant (some k)).Gives pool v pool' ∧ RoundTrips pool' k v ∧
      (v.constant pool' = .ok k ↔ ∀ p i, pool' = some p → p.indexOf? k = some i → i < twoPow 32) := by
  intro pool k
  have valid : Descriptor.isValid (ascii "LE;") = true := by decide +kernel
  have encodable : k.Encodable pool := ⟨⟨valid, valid⟩, rfl⟩
  exact encodes encodable

end Value

end Dalvik
