import Dalvik.Proofs.Sequence.Exact

/-!
# When a reading succeeds

Whether items can be linked depends only on the items: every branch must lead to one of them, a
payload reference to a payload of its kind, and so must every case of a table that some branch leads
to, counted from the last such branch. `decode` succeeds exactly if there are such items at the
cursor, with as many code units as the size cell says (`exists_decode_iff`).
-/

namespace Dalvik.Sequence

variable {s r : Sequence} {n m : Nat} {ns : List Nat} {xs : List Item} {p base : Int} {c c' : Cursor}

/-! ## What leads where -/

/-- The address of the last of several items that leads to an address. -/
def lastInto (p : Int) : List (Int × Item) → Option Int
  | [] => none
  | q :: qs => (lastInto p qs).or (if dest? q = some p then some q.1 else none)

/-- `lastTo` in terms of addresses. -/
theorem lastTo_eq_lastInto {f : Nat → Option Nat}
    (leads : ∀ n ∈ ns, ∃ q, s.form? n = some q ∧ (f n = some m ↔ dest? q = some p)) :
    (lastTo f m ns).bind s.address? = lastInto p (ns.filterMap s.form?) := by
  induction ns with
  | nil => rfl
  | cons n ns ih =>
    obtain ⟨q, form, leads_iff⟩ := leads n List.mem_cons_self
    have address : s.address? n = some q.1 := by
      obtain ⟨y, -, address, -⟩ := form?_eq_some.1 form
      exact address
    rw [List.filterMap_cons, form, lastInto, ← ih fun k hk => leads k (List.mem_cons_of_mem _ hk), lastTo]
    cases last : lastTo f m ns with
    | none =>
      rw [Option.none_or, Option.bind_none, Option.none_or]
      by_cases e : f n = some m
      · rw [if_pos e, if_pos (leads_iff.1 e), Option.bind_some, address]
      · rw [if_neg e, if_neg fun h => e (leads_iff.2 h), Option.bind_none]
    | some k =>
      rw [Option.some_or, Option.bind_some]
      obtain ⟨q', form', -⟩ := leads k (List.mem_cons_of_mem _ (mem_of_lastTo last).1)
      obtain ⟨y, -, address', -⟩ := form?_eq_some.1 form'
      rw [address', Option.some_or]

/-- Items that can be linked. -/
structure Linkable (xs : List Item) : Prop where
  branches : ∀ q ∈ spread 0 xs, ∀ i, q.2 = .plain i → i.hasTarget = true → ∃ p ∈ spread 0 xs, dest? q = some p.1 ∧
    (i.opcode.is .payloadRef = true → p.2.opcode = payloadFor i.opcode)
  tables : ∀ q ∈ spread 0 xs, q.2.owner?.isSome = true → ∀ base, lastInto q.1 (spread 0 xs) = some base →
    ∀ c ∈ q.2.cases, ∃ p ∈ spread 0 xs, p.1 = base + signed32 c.offset

theorem isSome_owner?_adopt (s : Sequence) (owner : Option Nat) (x : Item) :
    (s.adopt owner x).owner?.isSome = x.owner?.isSome := by
  cases owner <;> simp [adopt]

theorem isSome_owner?_aim (s : Sequence) (n : Nat) (x : Item) : (s.aim n x).owner?.isSome = x.owner?.isSome := by
  cases x <;> rfl

theorem cases_adopt (s : Sequence) (owner : Option Nat) (x : Item) : (s.adopt owner x).cases = x.cases := by
  cases owner <;> simp [adopt]

namespace Reads

variable (h : Reads xs r)
include h

theorem form? (hn : n ∈ r.items.toList) {x : Item} (hx : r.item? n = some x) (hp : r.address? n = some p) :
    r.form? n = some (p, x) := form?_eq_some.2 ⟨x, hx, hp, (h.item hn hx).bare⟩

theorem mem_spread {q : Int × Item} :
    q ∈ spread 0 xs ↔ ∃ n ∈ r.items.toList, r.item? n = some q.2 ∧ r.address? n = some q.1 := h.rows.mem_spread

theorem exists_place (hn : n ∈ r.items.toList) : ∃ q ∈ spread 0 xs, r.item? n = some q.2 ∧ r.address? n = some q.1 := by
  obtain ⟨x, -, p, hx, hp, -⟩ := h.rows.exists_item hn
  exact ⟨(p, x), h.mem_spread.2 ⟨n, hn, hx, hp⟩, hx, hp⟩

theorem nodeByAddress?_iff : r.nodeByAddress? p = some m ↔ m ∈ r.items.toList ∧ r.address? m = some p :=
  h.increasing.nodeByAddress?_iff fun _ hk => h.linked.node?_of_mem hk

theorem lastInto_eq (hm : m ∈ r.items.toList) (hp : r.address? m = some p) :
    (lastTo r.lead? m r.items.toList).bind r.address? = lastInto p (spread 0 xs) := by
  rw [← h.rows.spread_eq h.raw]
  refine lastTo_eq_lastInto fun n hn => ?_
  obtain ⟨q, -, located⟩ := h.exists_place hn
  exact ⟨q, h.form? hn located.1 located.2, h.lead?_iff located hm hp⟩

/-- A branch can be linked if it leads to an item, and that is of the right kind. -/
theorem leading_iff {q : Int × Item} (located : r.item? n = some q.2 ∧ r.address? n = some q.1) :
    Leading r n ↔ ∀ i, q.2 = .plain i → i.hasTarget = true → ∃ p ∈ spread 0 xs, dest? q = some p.1 ∧
      (i.opcode.is .payloadRef = true → p.2.opcode = payloadFor i.opcode) := by
  unfold Leading
  constructor
  · intro leading i e has
    obtain ⟨m, y, lead, hy, kind⟩ := leading i (by rw [located.1, e]) has
    obtain ⟨_, _, _, _, _, _, _, there⟩ := lead?_eq_some.1 lead
    obtain ⟨hm, hp⟩ := h.nodeByAddress?_iff.1 there
    exact ⟨(_, y), h.mem_spread.2 ⟨m, hm, hy, hp⟩, (h.lead?_iff located hm hp).1 lead, kind⟩
  · intro leads i hi has
    rw [located.1] at hi
    obtain ⟨p, hp, dest, kind⟩ := leads i (Option.some.inj hi) has
    obtain ⟨m, hm, hy, there⟩ := h.mem_spread.1 hp
    exact ⟨m, p.2, (h.lead?_iff located hm there).2 dest, hy, kind⟩

/-- A table after the branches were linked, and the address its offsets count from. -/
theorem wired_table (hn : n ∈ r.items.toList) {x : Item} (hx : r.item? n = some x) (hp : r.address? n = some p)
    (table : x.owner?.isSome = true) :
    (r.items.toList.foldl wired r).item? n = some (r.adopt (lastTo r.lead? n r.items.toList) x) ∧
      (r.items.toList.foldl wired r).base? (r.adopt (lastTo r.lead? n r.items.toList) x) = lastInto p (spread 0 xs) := by
  have aim : r.aim n x = x := by
    cases x with
    | plain i => cases table
    | _ => rfl
  constructor
  · rw [item?_wiredAll, hx, Option.map_some, if_pos hn, aim]
  · rw [(relinked_wiredAll r r.items.toList).base?, ← h.lastInto_eq hn hp]
    obtain ⟨o, owner⟩ := Option.isSome_iff_exists.1 table
    cases last : lastTo r.lead? n r.items.toList with
    | none =>
      have absent : o = .none := (h.item hn hx).owner? owner
      rw [adopt_none, base?, owner, absent]
      rfl
    | some w =>
      have mem := (mem_of_lastTo last).1
      rw [adopt, Option.elim_some, base?, Item.owner?_setOwner, owner, Option.map_some, Option.bind_some, Option.bind_some,
        h.linked.named?_handleOf mem, Option.bind_some]

/-- Linking succeeds exactly if the items are `Linkable`. -/
theorem links_iff : (∃ u v, Action.Each linkBranch r.items.toList r u ∧ Action.Each linkTable u.items.toList u v) ↔
    Linkable xs := by
  have wired := relinked_wiredAll r r.items.toList
  have linked := wired.linked h.linked
  constructor
  · rintro ⟨u, v, branches, tables⟩
    obtain ⟨leading, rfl⟩ := (each_linkBranch h.linked).1 branches
    rw [wired.items] at tables
    have tabled := tabled_of_each linked.nodup (fun n hn => linked.item?_of_mem hn) tables
    refine ⟨fun q hq => ?_, fun q hq table base last d hd => ?_⟩
    · obtain ⟨n, hn, located⟩ := h.mem_spread.1 hq
      exact (h.leading_iff located).1 (leading n hn)
    · obtain ⟨n, hn, located⟩ := h.mem_spread.1 hq
      obtain ⟨here, base_eq⟩ := h.wired_table hn located.1 located.2 table
      obtain ⟨y, -, resolved⟩ := tabled.resolved n hn _ here
      have points := resolved.points (base_eq.trans last)
      rw [cases_adopt] at points
      obtain ⟨_, -, k, there, -⟩ := exists_left (List.Forall₂.flip points) hd
      rw [wired.nodeByAddress?] at there
      obtain ⟨hk, address⟩ := h.nodeByAddress?_iff.1 there
      obtain ⟨p, hp, -, at_k⟩ := h.exists_place hk
      rw [address] at at_k
      exact ⟨p, hp, (Option.some.inj at_k).symm⟩
  · intro linkable
    have leading : ∀ n ∈ r.items.toList, Leading r n := by
      intro n hn
      obtain ⟨q, hq, located⟩ := h.exists_place hn
      exact (h.leading_iff located).2 (linkable.branches q hq)
    have resolvable : ∀ n ∈ r.items.toList, ∃ x y, (r.items.toList.foldl Sequence.wired r).item? n = some x ∧
        Resolved (r.items.toList.foldl Sequence.wired r) x y := by
      intro n hn
      obtain ⟨q, hq, located⟩ := h.exists_place hn
      cases table : q.2.owner?.isSome with
      | false =>
        have here : (r.items.toList.foldl Sequence.wired r).item? n = _ := item?_wiredAll n
        rw [located.1, Option.map_some, if_pos hn] at here
        have unowned : (r.adopt (lastTo r.lead? n r.items.toList) (r.aim n q.2)).owner? = none := by
          rw [← Option.isSome_eq_false_iff.trans Option.isNone_iff_eq_none, isSome_owner?_adopt, isSome_owner?_aim, table]
        exact ⟨_, _, here, .unowned (by rw [base?, unowned]; rfl)⟩
      | true =>
        obtain ⟨here, base_eq⟩ := h.wired_table hn located.1 located.2 table
        cases last : lastInto q.1 (spread 0 xs) with
        | none => exact ⟨_, _, here, .unowned (base_eq.trans last)⟩
        | some base =>
          have point : ∀ d ∈ q.2.cases, ∃ d', Points (r.items.toList.foldl Sequence.wired r) base d d' := by
            intro d hd
            obtain ⟨p, hp, at_base⟩ := linkable.tables q hq table base last d hd
            obtain ⟨k, hk, -, address⟩ := h.mem_spread.1 hp
            refine ⟨_, k, ?_, rfl⟩
            rw [wired.nodeByAddress?, h.nodeByAddress?_iff, address, at_base]
            exact ⟨hk, rfl⟩
          obtain ⟨cs, points⟩ := List.exists_forall₂ point
          rw [← cases_adopt r (lastTo r.lead? n r.items.toList)] at points
          exact ⟨_, _, here, .owned (base_eq.trans last) points⟩
    obtain ⟨v, tables⟩ := each_linkTable linked.nodup resolvable
    exact ⟨_, v, (each_linkBranch h.linked).2 ⟨leading, rfl⟩, by rw [wired.items]; exact tables⟩

end Reads

/-! ## The whole -/

/-- `decode` succeeds exactly if there are `Linkable` items at the cursor, with as many code units as the size cell
says. -/
theorem exists_decode_iff {cell : Cell} (size : s.size = some cell) :
    (∃ t, (decode c).Gives s c' t) ↔ ∃ xs, Scan c xs c' ∧ span xs = cell.get.toNat ∧ Linkable xs := by
  constructor
  · rintro ⟨t, run⟩
    obtain ⟨cell', xs, u, v, size', scan, fits, branches, tables, -⟩ := gives_decode.1 run
    rw [size] at size'
    cases size'
    exact ⟨xs, scan, fits, (reads_scanned s scan.raw).links_iff.1 ⟨u, v, branches, tables⟩⟩
  · rintro ⟨xs, scan, fits, linkable⟩
    obtain ⟨u, v, branches, tables⟩ := (reads_scanned s scan.raw).links_iff.2 linkable
    exact ⟨_, gives_decode.2 ⟨cell, xs, u, v, size, scan, fits, branches, tables, rfl⟩⟩

end Dalvik.Sequence
