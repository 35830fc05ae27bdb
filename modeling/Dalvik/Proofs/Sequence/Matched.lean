import Dalvik.Proofs.Sequence.Steady

/-!
# References to payloads

A sequence is `Matched` if every reference to a payload leads to a payload of its kind.
`claimTables` drops nothing that is referred to in this way, since a switch claims its table, and an
array has no owner. So `refresh` of a matched sequence gives a matched one, in which every table is
owned by the last switch that leads to it, however tables were owned before (`claimed_refresh`).
-/

namespace Dalvik

/-- A payload reference that is not a switch refers to an array. -/
theorem Opcode.payloadFor_of_not_switch : ∀ o ∈ Opcode.instructions, o.is .payloadRef = true → o.is .switch = false →
    Sequence.payloadFor o = Opcode.arrayPayload := by
  decide +kernel

theorem Item.owner?_of_array {x : Item} (payload : x.isPayload = true) (array : x.opcode = Opcode.arrayPayload) :
    x.owner? = none := by
  cases x with
  | plain i => cases payload
  | packed p => exact absurd array (by decide : Opcode.packedSwitchPayload ≠ Opcode.arrayPayload)
  | sparse t => exact absurd array (by decide : Opcode.sparseSwitchPayload ≠ Opcode.arrayPayload)
  | array a => rfl

namespace Sequence

variable {s t : Sequence} {n m : Nat}

/-- Every reference to a payload leads to a payload of its kind. -/
def Matched (s : Sequence) : Prop := ∀ n i, (s.handle? n).isSome → s.item? n = some (.plain i) →
  i.opcode.is .payloadRef = true → ∃ m y, s.named? i.target = some m ∧ s.item? m = some y ∧ y.isPayload = true ∧
    y.opcode = payloadFor i.opcode

/-! ## Claiming -/

/-- An item that may be dropped after claiming is padding, or a table to which no switch leads. -/
theorem spare_claimed (hm : m ∈ s.items.toList) (spare : Spare s.claimed m) : IsPad s m ∨
    ∃ x, s.item? m = some x ∧ x.owner?.isSome = true ∧ ∀ n ∈ s.items.toList, ¬ Claims s m n := by
  have item := item?_claimed_of_mem (s := s) hm
  rcases spare with ⟨y, hy, padding⟩ | ⟨y, o, hy, owner, negative⟩
  · rw [hy] at item
    obtain ⟨x, hx, rfl⟩ := Option.map_eq_some_iff.1 item.symm
    refine .inl ⟨x, hx, ?_⟩
    rw [← Item.unlinked_isPadding, Item.unlinked_setOwner, Item.unlinked_isPadding] at padding
    exact padding
  · rw [hy] at item
    obtain ⟨x, hx, rfl⟩ := Option.map_eq_some_iff.1 item.symm
    rw [Item.owner?_setOwner] at owner
    obtain ⟨k, owned, rfl⟩ := Option.map_eq_some_iff.1 owner
    refine .inr ⟨x, hx, by rw [owned]; rfl, fun n hn claims => ?_⟩
    cases last : lastTo s.claims? m s.items.toList with
    | none => exact lastTo_eq_none.1 last n hn (claims?_eq_some.2 claims)
    | some w =>
      rw [last] at negative
      exact absurd (Linked.handleOf_nonneg s w) (Int.not_le.2 negative)

/-- After claiming, instructions are `Steady` that refer to no padding and, unless they are switches, to no table. -/
theorem steady_claimed {f : Opcode → Bool} (linked : Linked s s.items.toList)
    (aims : ∀ n ∈ s.items.toList, ∀ i, s.item? n = some (.plain i) → f i.opcode = true → ∃ o, s.slot? i.target = some o ∧
      ∀ m ∈ o, ¬ IsPad s m ∧ ∀ x, s.item? m = some x → x.owner?.isSome = true → i.opcode.is .switch = true) :
    Steady f s.claimed := by
  have reowned := reowned_claimed s
  intro n i hn hi hf
  rw [reowned.handle?] at hn
  rw [reowned.item?_eq_plain_iff] at hi
  have mem := (linked.mem_iff n).2 hn
  obtain ⟨o, slot, solid⟩ := aims n mem i hi hf
  refine ⟨o, (slot?_congr (by rw [reowned.eq]) _).trans slot, fun m hm spare => ?_⟩
  have named : s.named? i.target = some m := by rw [named?_eq_slot?, slot, Option.mem_def.1 hm]; rfl
  obtain ⟨solid, tables⟩ := solid m hm
  rcases spare_claimed (linked.mem_of_named? named) spare with padding | ⟨x, hx, owner, unclaimed⟩
  · exact solid padding
  · exact unclaimed n mem ⟨i, hi, tables x hx owner, named⟩

theorem Matched.steady_claimed (h : Matched s) (sound : Sound (fun x => x.Shaped ∧ x.Sealed) s) :
    Steady (fun o => o.is .payloadRef) s.claimed := by
  refine Sequence.steady_claimed sound.linked fun n hn i hi ref => ?_
  obtain ⟨m, y, named, hy, payload, kind⟩ := h n i ((sound.linked.mem_iff n).1 hn) hi ref
  refine ⟨some m, slot?_of_named? named, fun k hk => ?_⟩
  obtain rfl := Option.mem_some_iff.1 hk
  refine ⟨?_, fun x hx owner => ?_⟩
  · rintro ⟨x, hx, padding⟩
    rw [hy] at hx
    cases hx
    cases y with
    | plain j => cases payload
    | _ => cases padding
  · rw [hy] at hx
    cases hx
    by_contra no
    have array := Opcode.payloadFor_of_not_switch _ (sound.holds n _ hi).1.mem ref (Bool.eq_false_iff.2 no)
    rw [Item.owner?_of_array payload (kind.trans array)] at owner
    cases owner

theorem Reowned.matched (h : Reowned s t) (matched : Matched s) : Matched t := by
  intro n i hn hi ref
  rw [h.handle?] at hn
  rw [h.item?_eq_plain_iff] at hi
  obtain ⟨m, y, named, hy, payload, kind⟩ := matched n i hn hi ref
  have same : ∃ z, t.item? m = some z ∧ z.unlinked = y.unlinked := by
    rcases h.item? m with e | ⟨k, e⟩
    · exact ⟨y, e.trans hy, rfl⟩
    · exact ⟨y.setOwner k, by rw [e, hy]; rfl, y.unlinked_setOwner k⟩
  obtain ⟨z, hz, e⟩ := same
  refine ⟨m, z, (h.named? _).trans named, hz, ?_, ?_⟩
  · rw [← Item.unlinked_isPayload, e, Item.unlinked_isPayload, payload]
  · rw [← Item.unlinked_opcode, e, Item.unlinked_opcode, kind]

/-! ## Keeping kinds -/

theorem Keeps.matched (h : Keeps (fun o => o.is .payloadRef) s t) (matched : Matched s) : Matched t := by
  intro n j hn hj ref
  obtain ⟨i, hi, op⟩ := h.back n j hn hj ref
  have ref : i.opcode.is .payloadRef = true := by rw [op, ref]
  obtain ⟨j', hj', -, same⟩ := h.forth n i hn hi ref
  rw [hj] at hj'
  cases hj'
  obtain ⟨m, x, named, hx, payload, kind⟩ := matched n i (h.live (by rw [hi]; rfl) hn) hi ref
  obtain ⟨y, hy, payload, op'⟩ := h.payload m x hx payload
  exact ⟨m, y, by rw [named?_eq_slot?, same, ← named?_eq_slot?, named], hy, payload, by rw [op', kind, op]⟩

/-- `relink` of a matched sequence gives a matched one. -/
theorem Matched.relink (h : Matched s) (sound : Sound (fun x => x.Shaped ∧ x.Sealed) s) : Matched s.relink :=
  (Steady.relink refers_payloadRef sound (h.steady_claimed sound)).1.toKeeps.matched ((reowned_claimed s).matched h)

/-- After a successful `refresh` of a matched sequence, every table is owned by the last switch that leads to it, and
the sequence is matched. -/
theorem claimed_refresh (matched : Matched s) (sound : Sound (fun x => x.Shaped ∧ x.Sealed) s)
    (run : refresh.Gives s ⟨⟩ t) : Claimed t ∧ Matched t := by
  have retains := retains_refresh refers_payloadRef (matched.steady_claimed sound) sound run
  have linked := (leaves_refresh Item.stable_sealed sound run).sound.linked
  exact ⟨claimed_of_retains retains sound linked, retains.toKeeps.matched ((reowned_claimed s).matched matched)⟩

end Sequence

end Dalvik
