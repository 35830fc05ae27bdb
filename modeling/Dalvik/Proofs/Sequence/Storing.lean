import Dalvik.Proofs.Legible
import Dalvik.Proofs.Sequence.Charts
import Dalvik.Proofs.Sequence.Lasting

/-!
# What a refresh writes

A refreshed sequence can be decoded from its bytes if the items could be decoded before, if
references to payloads lead to payloads of their kind, if only switches lead to switch tables, and
if its counts fit their fields; the result leads to the same addresses (`decode_refresh`).

A switch table has one owner, and its offsets count from there. Several switches may refer to it:
what `refresh` writes is right for the last of them (`counts_refresh`), and wrong for another one at
a different address (`not_counts_shared`).
-/

namespace Dalvik

/-- No instruction has the opcode of a payload. -/
theorem Opcode.payloadFor_ne : ∀ o o' : Opcode, o ∈ Opcode.instructions → o ≠ Sequence.payloadFor o' := by
  intro o o' mem e
  have packed : Opcode.packedSwitchPayload ∉ Opcode.instructions := by decide
  have sparse : Opcode.sparseSwitchPayload ∉ Opcode.instructions := by decide
  have array : Opcode.arrayPayload ∉ Opcode.instructions := by decide
  rw [e] at mem
  unfold Sequence.payloadFor at mem
  split at mem
  · exact packed mem
  · split at mem
    · exact sparse mem
    · exact array mem

namespace Item

variable {x y : Item}

/-- The instruction, if the item is not a payload. -/
def instruction? : Item → Option Instruction
  | .plain i => some i
  | _ => none

theorem Shaped.isPayload_of_payloadFor {o : Opcode} (shaped : x.Shaped) (opcode : x.opcode = Sequence.payloadFor o) :
    x.isPayload = true := by
  cases x with
  | plain i => exact absurd opcode (Opcode.payloadFor_ne _ o shaped.mem)
  | _ => rfl

/-- Without links, an item whose counts fit is as it will be decoded. -/
theorem Shaped.raw_bare (shaped : x.Shaped) (legible : x.Legible) (refreshed : x.Refreshed)
    (sorted : ∀ t, x = .sparse t → t.unsorted = false) (cases : x.cases.length < 65536) (small : x.codeUnits ≤ 2 ^ 31) :
    x.bare.Raw := by
  cases x with
  | plain i => exact ⟨⟨shaped.mem, shaped.length, shaped.low⟩, legible, rfl, rfl⟩
  | packed p =>
    have size : p.size = UInt16.ofNat p.cases.length := refreshed
    refine ⟨shaped, ?_, fun c hc => ?_, rfl⟩
    · simp only [List.length_map, size]
      exact UInt16.toNat_ofNat_of_lt' cases
    · obtain ⟨d, -, rfl⟩ := List.mem_map.1 hc
      rfl
  | sparse t =>
    obtain ⟨identifier, keys⟩ := (shaped : t.identifier = _ ∧ t.keys.length = t.cases.length)
    obtain ⟨size, -⟩ := (refreshed : t.size = _ ∧ _)
    refine ⟨identifier, ?_, ?_, fun c hc => ?_, rfl, sorted t rfl⟩
    · simp only [List.length_map, size]
      exact UInt16.toNat_ofNat_of_lt' cases
    · simp only [List.length_map, keys]
    · obtain ⟨d, -, rfl⟩ := List.mem_map.1 hc
      rfl
  | array a =>
    obtain ⟨identifier, width, ⟨n, length, count⟩, pad⟩ := (shaped : a.Shaped)
    refine ⟨identifier, width, ?_, pad⟩
    have pos : 0 < a.width.toNat := by
      rcases Nat.eq_zero_or_pos a.width.toNat with zero | pos
      · rw [zero] at width
        cases width
      · exact pos
    have le : n ≤ a.data.length := by
      rw [length]
      exact Nat.le_mul_of_pos_left n pos
    have fits : n < 2 ^ 32 := by
      simp only [codeUnits, byteCount, ArrayPayload.byteCount] at small
      omega
    rw [length, count, UInt32.toNat_ofNat_of_lt' fits]

end Item

namespace Sequence

variable {free : Instruction → Prop} {P : Item → Prop} {s t : Sequence} {c c' : Cursor}

/-- Only switches lead to switch tables, and the counts fit their fields. -/
structure Compact (t : Sequence) : Prop where
  only : ∀ n ∈ t.items.toList, ∀ i m y, t.item? n = some (.plain i) → i.hasTarget = true → t.named? i.target = some m →
    t.item? m = some y → y.owner?.isSome = true → i.opcode.is .switch = true
  cases : ∀ n ∈ t.items.toList, ∀ x, t.item? n = some x → x.cases.length < 65536
  small : t.units < 2 ^ 31

instance : Decidable (Compact t) :=
  decidable_of_iff ((∀ n ∈ t.items.toList, ∀ x ∈ t.item? n, x.cases.length < 65536 ∧ ∀ i ∈ x.instruction?, i.hasTarget = true →
      ∀ m ∈ t.named? i.target, ∀ y ∈ t.item? m, y.owner?.isSome = true → i.opcode.is .switch = true) ∧ t.units < 2 ^ 31) <| by
    constructor
    · rintro ⟨each, small⟩
      exact ⟨fun n hn i m y hi has hm hy owner => (each n hn _ hi).2 i rfl has m hm y hy owner,
        fun n hn x hx => (each n hn x hx).1, small⟩
    · intro h
      refine ⟨fun n hn x hx => ⟨h.cases n hn x hx, fun i hi has m hm y hy owner => ?_⟩, h.small⟩
      cases x with
      | plain j =>
        cases hi
        exact h.only n hn i m y hx has hm hy owner
      | _ => cases hi

instance : Decidable (Matched s) :=
  decidable_of_iff (∀ n < s.nodes.size, (s.handle? n).isSome → ∀ i ∈ (s.item? n).bind Item.instruction?,
      i.opcode.is .payloadRef = true → ∃ m ∈ s.named? i.target, ∃ y ∈ s.item? m, y.isPayload = true ∧
        y.opcode = payloadFor i.opcode) <| by
    constructor
    · intro each n i live hi refers
      obtain ⟨x, hx, -⟩ := item?_eq_some.1 hi
      have below : n < s.nodes.size := (Array.getElem?_eq_some_iff.1 hx).1
      obtain ⟨m, hm, y, hy, kind⟩ := each n below live i (by rw [hi]; rfl) refers
      exact ⟨m, y, hm, hy, kind⟩
    · intro matched n _ live i hi refers
      obtain ⟨x, hx, hi⟩ := Option.bind_eq_some_iff.1 hi
      cases x with
      | plain j =>
        cases hi
        obtain ⟨m, y, hm, hy, kind⟩ := matched n i live hx refers
        exact ⟨m, hm, y, hy, kind⟩
      | _ => cases hi

theorem Sound.sealed_of_legible (sound : Sound (fun x => x.Shaped ∧ x.Sealed ∧ x.Legible) s) :
    Sound (fun x => x.Shaped ∧ x.Sealed) s :=
  ⟨sound.linked, fun n x hx => ⟨(sound.holds n x hx).1, (sound.holds n x hx).2.1⟩⟩

theorem storable_refresh (sound : Sound (fun x => x.Shaped ∧ x.Sealed ∧ x.Legible) s) (matched : Matched s)
    (run : refresh.Gives s ⟨⟩ t) (compact : Compact t) : Storable t := by
  have stable := Item.stable_legible
  have leaves := leaves_refresh stable sound run
  have sealed := sound.sealed_of_legible
  obtain ⟨claimed, matched⟩ := claimed_refresh matched sealed run
  obtain ⟨upToDate, -⟩ := upToDate_refresh sealed run
  have laid := leaves.tidy.laid (depth_refresh sealed run)
  have full : ∀ n ∈ t.items.toList, ∀ x, t.item? n = some x → x.extent = x.codeUnits := fun n _ x hx =>
    Item.extent_eq_codeUnits (leaves.sound.sealed_of_legible.holds n x hx)
  exact {
    linked := leaves.sound.linked
    laid
    increasing := leaves.sound.increasing stable laid
    full
    raw := fun n hn x hx => by
      obtain ⟨shaped, -, legible⟩ := leaves.sound.holds n x hx
      obtain ⟨-, z, e⟩ := written_refresh sealed run hn hx
      obtain ⟨p, y, shape, -, room⟩ := laid.mem hn
      obtain ⟨x', hx', rfl, -⟩ := shape?_eq_some.1 shape
      obtain rfl : x = x' := Option.some.inj (hx.symm.trans hx')
      rw [Item.unlinked_extent, full n hn x hx] at room
      have small := compact.small
      exact shaped.raw_bare legible (Item.refreshed_refresh e) (fun u => Item.unsorted_refresh e) (compact.cases n hn x hx)
        (by omega)
    written := fun n hn x hx => (written_refresh sealed run hn hx).1
    claimed
    ascending := fun n hn q hq => (upToDate.refreshed n hn _ hq).2
    matched
    only := compact.only
    small := compact.small.le }

/-- Decoding the bytes of a refreshed sequence gives one that is `Alike`. -/
theorem decode_refresh (sound : Sound (fun x => x.Shaped ∧ x.Sealed ∧ x.Legible) s) (matched : Matched s)
    (run : refresh.Gives s ⟨⟩ t) (compact : Compact t) (hc : c.Sane) (spans : c.Spans t.bytes c') (pool : Option Pool) :
    ∃ u, (decode c).Gives { size := some (.int (UInt32.ofInt t.units)), pool } c' u ∧ Current u ∧ Alike t u := by
  have small := compact.small
  have fits : (Cell.int (UInt32.ofInt t.units)).get = t.units := signed32_ofInt (by omega) (by omega)
  obtain ⟨u, read, current, alike, -⟩ := (storable_refresh sound matched run compact).exists_decode
    (s := { size := some (.int (UInt32.ofInt t.units)), pool }) hc rfl fits rfl spans
  exact ⟨u, read, current, alike⟩

/-! ## Every history -/

/-- Linking only succeeds on references to payloads of the right kind. -/
theorem Gathered.matched {r : Sequence} {xs : List Item} (h : Gathered r t) (reads : Reads xs r) : Matched t := by
  intro n i hn hi ref
  have mem : n ∈ r.items.toList := (reads.linked.mem_iff n).2 (by rw [← h.handle?, hn])
  obtain ⟨before, -⟩ := h.item?_bare reads mem hi
  obtain ⟨m, y, lead, hy, kind⟩ := h.leading n mem _ before (by
    rw [Instruction.hasTarget, ref, Bool.or_true])
  obtain ⟨_, _, _, _, _, _, _, there⟩ := lead?_eq_some.1 lead
  have here := mem_of_nodeByAddress? there
  obtain ⟨z, hz, bare⟩ := h.exists_item? reads here hy
  have opcode : z.opcode = payloadFor i.opcode := by
    rw [← Item.bare_opcode, bare]
    exact kind ref
  refine ⟨m, z, ?_, hz, (h.sealed m here z hz).1.isPayload_of_payloadFor opcode, opcode⟩
  rw [h.target n mem i hi, lead, h.named?]
  exact reads.linked.named?_handleOf here

/-- A decoded sequence is `Matched`. -/
theorem matched_decode (holds : Holds (fun x => x.Shaped ∧ x.Sealed) s) (run : (decode c).Gives s c' t) : Matched t := by
  obtain ⟨cell, xs, u, v, -, scan, -, branches, tables, rfl⟩ := gives_decode.1 run
  have reads := reads_scanned s scan.raw
  have gathered := gathered_markPadding reads.linked (fun n hn x hx => reads.item hn hx) branches tables
  exact (gathered.matched reads).relink (sound_linked Item.stable_sealed holds scan.raw branches tables)

theorem loose_legible : Loose (fun x => x.isPadding = false) fun x => x.Shaped ∧ x.Sealed ∧ x.Legible :=
  .inr ⟨fun x hx => upright_sealed x ⟨hx.1, hx.2.1⟩, fun _ hx => hx⟩

/-- In a decoded sequence every reference to a payload leads to a payload of its kind (`Matched`). For a sequence that
was `Reached` without another opcode for padding: if it is matched before a successful `refresh`, it is matched
afterwards, and if it is `Compact` then, `decode` of its bytes succeeds, with a result that is matched and `Alike`. -/
theorem refresh_keeps_kinds (reached : Reached (fun x => x.isPadding = false) s) :
    (∀ c c' t, (decode c).Gives s c' t → Matched t) ∧
      ∀ t, Matched s → refresh.Gives s ⟨⟩ t → Matched t ∧ (Compact t → ∀ c c' pool, c.Sane → c.Spans t.bytes c' →
        ∃ u, (decode c).Gives { size := some (.int (UInt32.ofInt t.units)), pool } c' u ∧ Matched u ∧ Alike t u) := by
  obtain ⟨sealed, -⟩ := reached.keeps Item.stable_sealed (.inr ⟨upright_sealed, fun x hx => hx⟩)
  obtain ⟨sound, -⟩ := reached.keeps Item.stable_legible loose_legible
  refine ⟨fun c c' t run => matched_decode sealed.holds run, fun t matched run => ⟨?_, ?_⟩⟩
  · exact (claimed_refresh matched sealed run).2
  · intro compact c c' pool sane spans
    obtain ⟨u, read, -, alike⟩ := decode_refresh sound matched run compact sane spans pool
    exact ⟨u, read, matched_decode (sound_new _ _).holds read, alike⟩

/-- A switch with a case, and its table behind the instruction that the case leads to. -/
theorem refresh_keeps_kinds_switch :
    let bytes : Bytes := [0x2b, 0, 4, 0, 0, 0, 0x0e, 0, 0, 1, 1, 0, 7, 0, 0, 0, 3, 0, 0, 0]
    let c := Cursor.ofBytes bytes
    ∃ s c' t u, Reached (fun x => x.isPadding = false) s ∧ Matched s ∧ refresh.Gives s ⟨⟩ t ∧ Matched t ∧ Compact t ∧
      t.bytes = bytes ∧ (decode c).Gives { size := some (.int (UInt32.ofInt t.units)) } c' u ∧ Alike t u := by
  intro bytes c
  let empty : Sequence := { size := some (.int 10) }
  let c' : Cursor := { c with pos := 20 }
  let s := ((decode c).apply empty).2
  let t := (refresh.apply s).2
  have start : Reached (fun x => x.isPadding = false) empty := .new _ _
  have read : (decode c).Gives empty c' s := Action.gives_of_toOption (by decide +kernel)
  have run : refresh.Gives s ⟨⟩ t := Action.gives_of_toOption (by decide +kernel)
  have compact : Compact t := by decide +kernel
  have written : t.bytes = bytes := by decide +kernel
  have sane : c.Sane := ⟨by decide +kernel, Nat.zero_le _⟩
  have spans : c.Spans t.bytes c' := by
    rw [written]
    exact ⟨List.prefix_refl _, rfl⟩
  have reached : Reached (fun x => x.isPadding = false) s := .decode start read
  have matched := (refresh_keeps_kinds start).1 c c' s read
  obtain ⟨matched', again⟩ := (refresh_keeps_kinds reached).2 t matched run
  obtain ⟨u, reread, -, alike⟩ := again compact c c' none sane spans
  exact ⟨s, c', t, u, reached, matched, run, matched', compact, written, reread, alike⟩

/-! ## Tables that switches share -/

section Shared

variable {s t : Sequence} {n m : Nat} {i : Instruction} {x : Item}

/-- The offsets of the cases, counted from item `n`, are those of the items their handles name. -/
def CountsFrom (s : Sequence) (n : Nat) (x : Item) : Prop := ∃ a, s.address? n = some a ∧
  ∀ c ∈ x.cases, ∃ k b, s.named? c.handle = some k ∧ s.address? k = some b ∧ c.offset = UInt32.ofInt (b - a) ∧
    (s.units ≤ 2 ^ 31 → a + signed32 c.offset = b)

/-- A table that is owned by the last switch that leads to it counts from this switch. -/
theorem UpToDate.countsFrom (upToDate : UpToDate t) (linked : Linked t t.items.toList) (claimed : Claimed t) {ys zs : List Nat}
    (split : t.items.toList = ys ++ n :: zs) (claims : Claims t m n) (hm : m ∈ t.items.toList) (hx : t.item? m = some x)
    (table : x.owner?.isSome = true) (last : ∀ k ∈ zs, ¬ Claims t m k) : x.owner? = some (t.handleOf n) ∧ CountsFrom t n x := by
  have hn : n ∈ t.items.toList := by
    rw [split]
    exact List.mem_append_right ys List.mem_cons_self
  have lastTo_eq : lastTo t.claims? m t.items.toList = some n := by
    have absent : lastTo t.claims? m zs = none := lastTo_eq_none.2 fun k hk e => last k hk (claims?_eq_some.1 e)
    rw [split, lastTo_append, lastTo, absent, Option.none_or, if_pos (claims?_eq_some.2 claims), Option.some_or]
  obtain ⟨o, owner⟩ := Option.isSome_iff_exists.1 table
  have belongs := claimed m hm x o hx owner
  rw [lastTo_eq] at belongs
  obtain rfl : o = t.handleOf n := belongs
  refine ⟨owner, ?_⟩
  obtain ⟨w, -, a, named, address, each⟩ := upToDate.cases m hm x _ hx owner (Linked.handleOf_nonneg t n)
  rw [linked.named?_handleOf hn] at named
  obtain rfl := Option.some.inj named
  refine ⟨a, address, fun c hc => ?_⟩
  obtain ⟨k, -, b, named, there, offset, precise⟩ := each c hc
  exact ⟨k, b, named, there, offset, fun small => by rw [precise small]; omega⟩

/-- Outside a bracket the owner of a table is a switch, which is not padding, so the table can be converted. -/
theorem Worked.convertible (h : Worked s) (inside : s.depth ≠ 0 → Convertible (fun x => x.isPadding = false) s n)
    (live : (s.handle? n).isSome) : Convertible (fun x => x.isPadding = false) s n := by
  by_cases flat : s.depth = 0
  · exact Loose.convertible (.inr ⟨upright_sealed, fun _ solid => solid⟩) (fun _ => h.keeps.2 flat) live
  · exact inside flat

/-- A `Worked` sequence is one that attempts lead to, all of which succeed. -/
theorem Worked.attempted (h : Worked s) : Attempted (fun x => x.isPadding = false) s := by
  induction h with
  | new size pool => exact .new size pool
  | step worked step ih =>
    refine .step ih ?_
    cases step with
    | outside size pool moves => exact .outside _ size pool moves
    | create made => exact .create _ made
    | insert present run => exact .insert present run
    | insertItem made run => exact run.apply_snd ▸ .insertItem _ _ made
    | push made run => exact run.apply_snd ▸ .push _ made
    | removeAt run => exact .removeAt run
    | remove run => exact .remove run
    | replace present detached run => exact .replace present detached run
    | setTarget run => exact .setTarget run
    | openBracket => exact .openBracket _
    | closeBracket run => exact .closeBracket run
    | toSparse inside run => exact run.apply_snd ▸ .toSparse (worked.convertible inside (live_of_toSparse run))
    | toPacked inside run => exact run.apply_snd ▸ .toPacked (worked.convertible inside (live_of_toPacked run))
    | addElements known run => exact run.apply_snd ▸ .addElements _ known
    | refresh run => exact run.apply_snd ▸ .refresh _
  | decode _ run ih => exact .step ih (run.apply_snd ▸ .decode _ _)
  | edit _ hx edited pool ih => exact .step ih (.edit hx edited pool)

/-- Let `refresh` succeed on a sequence that was `Attempted` without another opcode for padding, and on which no switch
refers to padding. Then a switch table is owned by the last switch that refers to it, and the offsets of its cases
count from that switch (`CountsFrom`). -/
theorem counts_refresh (attempted : Attempted (fun x => x.isPadding = false) s)
    (aims : ∀ n ∈ s.items.toList, ∀ i, s.item? n = some (.plain i) → i.opcode.is .switch = true →
      ∃ m, s.named? i.target = some m ∧ ¬ IsPad s m)
    (run : refresh.Gives s ⟨⟩ t) {ys zs : List Nat} (split : t.items.toList = ys ++ n :: zs)
    (hi : t.item? n = some (.plain i)) (switch : i.opcode.is .switch = true) (named : t.named? i.target = some m)
    (hx : t.item? m = some x) (table : x.owner?.isSome = true) (last : ∀ k ∈ zs, ¬ Claims t m k) :
    x.owner? = some (t.handleOf n) ∧ CountsFrom t n x := by
  have sound := attempted.sound Item.lasting_sealed
  have linked := (leaves_refresh Item.stable_sealed sound run).sound.linked
  have steady : Steady (fun o => o.is .switch) s.claimed := by
    refine steady_claimed sound.linked fun n hn i hi switch => ?_
    obtain ⟨m, named, solid⟩ := aims n hn i hi switch
    refine ⟨some m, slot?_of_named? named, fun k hk => ?_⟩
    obtain rfl := Option.mem_some_iff.1 hk
    exact ⟨solid, fun _ _ _ => switch⟩
  have retains := retains_refresh refers_switch steady sound run
  exact (upToDate_refresh sound run).1.countsFrom linked (claimed_of_retains retains sound linked) split
    ⟨i, hi, switch, named⟩ (linked.mem_of_named? named) hx table last

/-- Two switches in a row that refer to one table, whose case leads to the instruction behind them. -/
def sharedCode : Cursor :=
  .ofBytes [0x2b, 0, 8, 0, 0, 0, 0x2b, 0, 5, 0, 0, 0, 0x0e, 0, 0, 0, 0, 1, 1, 0, 0, 0, 0, 0, 3, 0, 0, 0]

def shared : Sequence := ((decode sharedCode).apply { size := some (.int 14) }).2

def sharedRefreshed : Sequence := (refresh.apply shared).2

/-- One of the two switches, with its offset. -/
def sharedSwitch (offset : UInt16) : Instruction :=
  { opcode := (Opcode.ofUnit? 0x2b).getD .nop, units := [0x2b, offset, 0], target := 4 }

def sharedTable : Item := .packed { size := 1, cases := [{ offset := 3, handle := 2 }], owner := 1 }

theorem worked_shared : Worked shared :=
  .decode (.new _ _) (Action.gives_of_toOption (a := { sharedCode with pos := 28 }) (by decide +kernel))

theorem refresh_shared : refresh.Gives shared ⟨⟩ sharedRefreshed := Action.gives_of_toOption (by decide +kernel)

/-- The table counts from the second switch. -/
theorem counts_refresh_shared : Worked shared ∧ refresh.Gives shared ⟨⟩ sharedRefreshed ∧
    sharedRefreshed.item? 1 = some (.plain (sharedSwitch 5)) ∧ sharedRefreshed.named? (sharedSwitch 5).target = some 4 ∧
    sharedRefreshed.item? 4 = some sharedTable ∧ CountsFrom sharedRefreshed 1 sharedTable := by
  have aims : ∀ n ∈ shared.items.toList, ∀ i ∈ (shared.item? n).bind Item.instruction?, i.opcode.is .switch = true →
      shared.named? i.target = some 4 := by decide +kernel
  have table : ∀ x ∈ shared.item? 4, x.isPadding = false := by decide +kernel
  have order : sharedRefreshed.items.toList = [0] ++ 1 :: [2, 3, 4] := by decide +kernel
  have second : sharedRefreshed.item? 1 = some (.plain (sharedSwitch 5)) := by decide +kernel
  have last : ∀ k ∈ [2, 3, 4], sharedRefreshed.claims? k = none := by decide +kernel
  have named : sharedRefreshed.named? (sharedSwitch 5).target = some 4 := by decide +kernel
  have there : sharedRefreshed.item? 4 = some sharedTable := by decide +kernel
  obtain ⟨-, counts⟩ := counts_refresh worked_shared.attempted
    (fun n hn i hi switch => by
      refine ⟨4, aims n hn i (by rw [hi]; rfl) switch, ?_⟩
      rintro ⟨x, hx, padding⟩
      rw [table x hx] at padding
      cases padding)
    refresh_shared order second (by decide +kernel) named there rfl
    (fun k hk claims => by
      have claimed := claims?_eq_some.2 claims
      rw [last k hk] at claimed
      cases claimed)
  exact ⟨worked_shared, refresh_shared, second, named, there, counts⟩

/-- Counted from the first switch, its offset leads to another address. -/
theorem not_counts_shared : ∃ s t n m i x, Worked s ∧ refresh.Gives s ⟨⟩ t ∧ n ∈ t.items.toList ∧
    t.item? n = some (.plain i) ∧ i.opcode.is .switch = true ∧ t.named? i.target = some m ∧ t.item? m = some x ∧
    x.owner?.isSome = true ∧ ¬ CountsFrom t n x := by
  refine ⟨shared, sharedRefreshed, 0, 4, sharedSwitch 8, sharedTable, worked_shared, refresh_shared, by decide +kernel,
    by decide +kernel, by decide +kernel, by decide +kernel, by decide +kernel, rfl, ?_⟩
  have first : sharedRefreshed.address? 0 = some 0 := by decide +kernel
  have caseAddress : ∀ k ∈ sharedRefreshed.named? 2, sharedRefreshed.address? k = some 6 := by decide +kernel
  rintro ⟨a, address, each⟩
  obtain ⟨k, b, named, there, offset, -⟩ := each _ List.mem_cons_self
  rw [first] at address
  rw [caseAddress k named] at there
  cases address
  cases there
  revert offset
  decide +kernel

end Shared

end Sequence

end Dalvik
