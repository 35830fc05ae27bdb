import Dalvik.Proofs.Sequence.Linking

/-!
# Reading a sequence

`decode` reads a sequence in four steps: it scans the items, links the branches and then the tables,
marks the no-operations that are padding, and lays everything out (`gives_decode`).
-/

namespace Dalvik.Sequence

variable {free : Instruction → Prop} {P : Item → Prop} {s t : Sequence} {n : Nat}

/-! ## Padding -/

def markItem : Item → Item
  | .plain x => .plain { x with isPadding := true }
  | x => x

/-- The handles that branches and owned tables refer to. -/
def targeted (s : Sequence) : List Handle :=
  s.contents.flatMap fun x =>
    match x.item with
    | .plain i => if i.hasTarget then [i.target] else []
    | x => if (x.owner?.getD .none) < 0 then [] else x.cases.map Case.handle

/-- A no-operation in front of a payload, at an odd address, to which nothing refers. -/
def pads (s : Sequence) (n next : Nat) : Bool :=
  match s.node? n, s.node? next with
  | some x@{ item := .plain i, .. }, some y =>
    i.units.head? == some 0 && x.address % 2 == 1 && y.item.isPayload && !s.targeted.contains (s.handleOf n)
  | _, _ => false

theorem markPadding_eq (s : Sequence) :
    s.markPadding = (s.items.toList.zip (s.items.toList.drop 1)).foldl
      (fun t p => if s.pads p.1 p.2 then t.modifyItem p.1 markItem else t) s := rfl

theorem pads_eq_true {next : Nat} : s.pads n next = true ↔ ∃ x a y, s.item? n = some (.plain x) ∧ s.address? n = some a ∧
    s.item? next = some y ∧ x.units.head? = some 0 ∧ a % 2 = 1 ∧ y.isPayload = true ∧ s.handleOf n ∉ s.targeted := by
  unfold pads
  constructor
  · intro h
    split at h
    · next x a k y hx hy =>
      simp only [Bool.and_eq_true, beq_iff_eq, Bool.not_eq_true', List.contains_eq_mem, decide_eq_false_iff_not] at h
      obtain ⟨⟨⟨zero, odd⟩, payload⟩, free⟩ := h
      refine ⟨x, a, y.item, item?_of_node? hx, ?_, item?_of_node? hy, zero, odd, payload, free⟩
      rw [address?, hx, Option.map_some]
    · cases h
  · rintro ⟨x, a, y, hx, ha, hy, zero, odd, payload, free⟩
    obtain ⟨⟨_, _, k⟩, hx, rfl⟩ := item?_eq_some.1 hx
    obtain ⟨y, node, rfl⟩ := item?_eq_some.1 hy
    rw [address?, hx, Option.map_some] at ha
    cases ha
    rw [hx, node]
    simp [zero, odd, payload, free]

/-- `decode` takes the node for padding. -/
def Pads (s : Sequence) (n : Nat) : Prop := ∃ next, (n, next) ∈ s.items.toList.zip (s.items.toList.drop 1) ∧ s.pads n next = true

/-- The sequences differ only in marks of padding. -/
structure Marked (s t : Sequence) : Prop where
  eq : t = { s with nodes := t.nodes }
  handle? : ∀ n, t.handle? n = s.handle? n
  address? : ∀ n, t.address? n = s.address? n
  marked : ∀ n, Pads s n → t.item? n = (s.item? n).map markItem
  others : ∀ n, ¬ Pads s n → t.item? n = s.item? n

theorem markItem_markItem (x : Item) : markItem (markItem x) = markItem x := by cases x <;> rfl

theorem marked_markPadding (s : Sequence) : Marked s s.markPadding := by
  rw [markPadding_eq]
  -- The fold is described for any list of pairs and any starting point.
  have fold : ∀ (ps : List (Nat × Nat)) (t : Sequence),
      let u := ps.foldl (fun t p => if s.pads p.1 p.2 then t.modifyItem p.1 markItem else t) t
      u = { t with nodes := u.nodes } ∧ (∀ n, u.handle? n = t.handle? n) ∧ (∀ n, u.address? n = t.address? n) ∧
        (∀ n, (∃ next, (n, next) ∈ ps ∧ s.pads n next = true) → u.item? n = (t.item? n).map markItem) ∧
        ∀ n, (¬ ∃ next, (n, next) ∈ ps ∧ s.pads n next = true) → u.item? n = t.item? n := by
    intro ps
    induction ps with
    | nil => exact fun t => ⟨rfl, fun _ => rfl, fun _ => rfl, by simp, fun _ _ => rfl⟩
    | cons p ps ih =>
      intro t
      obtain ⟨eq, handle?, address?, marked, others⟩ := ih (if s.pads p.1 p.2 then t.modifyItem p.1 markItem else t)
      rw [List.foldl_cons]
      by_cases hp : s.pads p.1 p.2 = true
      · simp only [hp, if_true, handle?_modifyItem, address?_modifyItem] at eq handle? address? marked others ⊢
        refine ⟨by rw [eq]; rfl, handle?, address?, fun n hn => ?_, fun n hn => ?_⟩
        · by_cases later : ∃ next, (n, next) ∈ ps ∧ s.pads n next = true
          · rw [marked n later, item?_modifyItem]
            split
            · cases t.item? n <;> simp [markItem_markItem]
            · rfl
          · obtain ⟨next, mem, pad⟩ := hn
            rcases List.mem_cons.1 mem with rfl | mem
            · rw [others _ later, item?_modifyItem, if_pos rfl]
            · exact absurd ⟨next, mem, pad⟩ later
        · rw [others n fun ⟨next, mem, pad⟩ => hn ⟨next, List.mem_cons_of_mem _ mem, pad⟩, item?_modifyItem, if_neg]
          rintro rfl
          exact hn ⟨p.2, List.mem_cons_self, hp⟩
      · simp only [hp, if_false, Bool.false_eq_true] at eq handle? address? marked others ⊢
        refine ⟨eq, handle?, address?, fun n hn => marked n ?_, fun n hn => others n ?_⟩
        · obtain ⟨next, mem, pad⟩ := hn
          rcases List.mem_cons.1 mem with rfl | mem
          · exact absurd pad hp
          · exact ⟨next, mem, pad⟩
        · exact fun ⟨next, mem, pad⟩ => hn ⟨next, List.mem_cons_of_mem _ mem, pad⟩
  obtain ⟨eq, handle?, address?, marked, others⟩ := fold (s.items.toList.zip (s.items.toList.drop 1)) s
  exact ⟨eq, handle?, address?, marked, others⟩

theorem Marked.sound (h : Marked s t)
    (marked : ∀ {x : Instruction}, x.units.head? = some 0 → P (.plain x) → P (.plain { x with isPadding := true }))
    (sound : Sound P s) : Sound P t where
  linked := by
    have items : t.items = s.items := by rw [h.eq]
    have arena : t.arena = s.arena := by rw [h.eq]
    rw [items]
    exact sound.linked.congr h.handle? arena
  holds n y hy := by
    by_cases pad : Pads s n
    · rw [h.marked n pad] at hy
      obtain ⟨next, -, pad⟩ := pad
      obtain ⟨x, -, -, hx, -, -, zero, -⟩ := pads_eq_true.1 pad
      rw [hx] at hy
      cases hy
      exact marked zero (sound.holds n _ hx)
    · rw [h.others n pad] at hy
      exact sound.holds n y hy

/-! ## The whole -/

theorem gives_decode {c c' : Cursor} :
    (decode c).Gives s c' t ↔ ∃ cell xs u v, s.size = some cell ∧ Scan c xs c' ∧ span xs = cell.get.toNat ∧
      Action.Each linkBranch (s.scanned xs).items.toList (s.scanned xs) u ∧
      Action.Each linkTable u.items.toList u v ∧ t = v.markPadding.relink := by
  unfold decode scanned
  simp only [Action.gives_bind, Action.gives_get]
  constructor
  · rintro ⟨_, _, ⟨rfl, rfl⟩, h⟩
    split at h
    · simp at h
    · next cell size =>
      simp only [Action.gives_bind, Action.gives_modify, Action.gives_get, Action.gives_pure] at h
      obtain ⟨_, _, rfl, _, _, read, _, _, rfl, _, _, ⟨rfl, rfl⟩, _, u, branches, _, _, ⟨rfl, rfl⟩, _, v, tables,
        _, _, rfl, rfl, rfl⟩ := h
      obtain ⟨xs, scan, fits, rfl⟩ := (gives_decodeItems (Nat.zero_le _) (by omega)).1 read
      rw [Nat.zero_add] at fits
      rw [← fits] at branches
      have branches := Action.gives_forIn.1 branches
      have tables := Action.gives_forIn.1 tables
      exact ⟨cell, xs, u, v, size, scan, fits, branches, tables, rfl⟩
  · rintro ⟨cell, xs, u, v, size, scan, fits, branches, tables, rfl⟩
    refine ⟨s, s, ⟨rfl, rfl⟩, ?_⟩
    rw [size]
    simp only [Action.gives_bind, Action.gives_modify, Action.gives_get, Action.gives_pure]
    refine ⟨⟨⟩, _, rfl, c', _, (gives_decodeItems (Nat.zero_le _) (by omega)).2 ⟨xs, scan, by omega, rfl⟩,
      ⟨⟩, _, rfl, _, _, ⟨rfl, rfl⟩, ⟨⟩, u, ?_, _, _, ⟨rfl, rfl⟩, ⟨⟩, v, Action.gives_forIn.2 tables, ⟨⟩, _, rfl, rfl, rfl⟩
    rw [← fits, Action.gives_forIn]
    exact branches

/-- The items that were scanned, linked and marked are sound. -/
theorem sound_linked {xs : List Item} {u v : Sequence} (stable : Item.Stable free P) (h : Holds P s) (raw : ∀ x ∈ xs, x.Raw)
    (branches : Action.Each linkBranch (s.scanned xs).items.toList (s.scanned xs) u)
    (tables : Action.Each linkTable u.items.toList u v) : Sound P v.markPadding := by
  have scanned : Sound P (s.scanned xs) := sound_scanned (fun x hx => stable.raw (raw x hx)) h
  obtain ⟨-, rfl⟩ := (each_linkBranch scanned.linked).1 branches
  have wired := (relinked_wiredAll (s.scanned xs) (s.scanned xs).items.toList).sound stable scanned
  have tabled := tabled_of_each wired.linked.nodup (fun n hn => wired.linked.item?_of_mem hn) tables
  exact (marked_markPadding v).sound stable.marked (tabled.relinked.sound stable wired)

/-- A decoded sequence is sound and tidy. -/
theorem sound_decode (stable : Item.Stable free P) (h : Holds P s) {c c' : Cursor} (e : (decode c).Gives s c' t) :
    Sound P t ∧ Tidy P t := by
  obtain ⟨cell, xs, u, v, -, scan, -, branches, tables, rfl⟩ := gives_decode.1 e
  have marked := sound_linked stable h scan.raw branches tables
  exact ⟨marked.relink stable, marked.tidy_relink⟩

end Dalvik.Sequence
