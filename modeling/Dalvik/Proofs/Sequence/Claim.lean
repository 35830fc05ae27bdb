import Dalvik.Proofs.Sequence.Layout

/-!
# Claiming tables

`claimTables` gives every switch table to the last switch that refers to it, and drops the tables
that had an owner and have none now. The first part changes only owners (`Reowned`); the second
forgets nodes, each of them a table without an owner. `Linked.relink` says that claiming and laying
out leave the sequence linked and in a row.
-/

namespace Dalvik

namespace Item

@[simp] theorem setOwner_setOwner (x : Item) (h k : Handle) : (x.setOwner h).setOwner k = x.setOwner k := by
  cases x <;> rfl

@[simp] theorem setOwner_plain (i : Instruction) (h : Handle) : (Item.plain i).setOwner h = .plain i := rfl

@[simp] theorem owner?_setOwner (x : Item) (h : Handle) : (x.setOwner h).owner? = x.owner?.map fun _ => h := by
  cases x <;> rfl

@[simp] theorem cases_setOwner (x : Item) (h : Handle) : (x.setOwner h).cases = x.cases := by
  cases x <;> rfl

@[simp] theorem caseKeys_setOwner (x : Item) (h : Handle) : (x.setOwner h).caseKeys = x.caseKeys := by
  cases x <;> rfl

theorem eq_plain_of_setOwner_eq {x : Item} {h : Handle} {i : Instruction} (e : x.setOwner h = .plain i) :
    x = .plain i := by
  cases x <;> simp_all [setOwner]

end Item

namespace Sequence

open Relation (ReflTransGen)

variable {s t u : Sequence} {xs : List Nat} {n m : Nat}

/-! ## Changes of owners -/

/-- The two sequences differ only in the owners of tables. -/
structure Reowned (s t : Sequence) : Prop where
  eq : t = { s with nodes := t.nodes }
  item? : ∀ n, t.item? n = s.item? n ∨ ∃ h, t.item? n = (s.item? n).map (Item.setOwner h)
  handle? : ∀ n, t.handle? n = s.handle? n
  shape? : ∀ n, t.shape? n = s.shape? n

namespace Reowned

theorem refl (s : Sequence) : Reowned s s := ⟨rfl, fun _ => .inl rfl, fun _ => rfl, fun _ => rfl⟩

theorem trans (hst : Reowned s t) (htu : Reowned t u) : Reowned s u where
  eq := by rw [htu.eq, hst.eq]
  handle? n := (htu.handle? n).trans (hst.handle? n)
  shape? n := (htu.shape? n).trans (hst.shape? n)
  item? n := by
    rcases htu.item? n with e | ⟨h, e⟩
    · rw [e]
      exact hst.item? n
    · refine .inr ⟨h, ?_⟩
      rcases hst.item? n with e' | ⟨k, e'⟩
      · rw [e, e']
      · rw [e, e', Option.map_map]
        congr 1
        funext x
        exact x.setOwner_setOwner k h

theorem modifyItem (s : Sequence) (n : Nat) (h : Handle) : Reowned s (s.modifyItem n (Item.setOwner h)) where
  eq := rfl
  handle? m := handle?_modifyItem _
  shape? m := shape?_modifyItem fun x _ => x.unlinked_setOwner h
  item? m := by
    rw [item?_modifyItem]
    split
    · exact .inr ⟨h, rfl⟩
    · exact .inl rfl

theorem foldl {f : Sequence → Nat → Sequence} (hf : ∀ s n, Reowned s (f s n)) (s : Sequence) (xs : List Nat) :
    Reowned s (xs.foldl f s) := by
  induction xs generalizing s with
  | nil => exact refl s
  | cons n xs ih => exact (hf s n).trans (ih _)

section Fields

variable (h : Reowned s t)
include h

theorem items : t.items = s.items := by rw [h.eq]
theorem arena : t.arena = s.arena := by rw [h.eq]
theorem depth : t.depth = s.depth := by rw [h.eq]
theorem units : t.units = s.units := by rw [h.eq]
theorem moves : t.moves = s.moves := by rw [h.eq]
theorem size : t.size = s.size := by rw [h.eq]
theorem pool : t.pool = s.pool := by rw [h.eq]

theorem linked (linked : Linked s xs) : Linked t xs := linked.congr h.handle? h.arena

theorem named? (k : Handle) : t.named? k = s.named? k := by
  unfold Sequence.named?
  rw [h.arena]

theorem handleOf (n : Nat) : t.handleOf n = s.handleOf n := by
  rw [handleOf_eq, handleOf_eq, h.handle?]

theorem item?_eq_plain_iff {i : Instruction} : t.item? n = some (.plain i) ↔ s.item? n = some (.plain i) := by
  rcases h.item? n with e | ⟨k, e⟩
  · rw [e]
  · rw [e]
    cases hx : s.item? n with
    | none => simp
    | some x =>
      simp only [Option.map_some, Option.some.injEq]
      constructor
      · exact Item.eq_plain_of_setOwner_eq
      · rintro rfl
        rfl

end Fields

end Reowned

/-! ## Claims -/

/-- The node `n` is a switch whose target is the node `table`. -/
def Claims (s : Sequence) (table n : Nat) : Prop :=
  ∃ x, s.item? n = some (.plain x) ∧ x.opcode.is .switch = true ∧ s.named? x.target = some table

/-- Makes a switch the owner of the table that it refers to. -/
def claim (s : Sequence) (n : Nat) : Sequence :=
  match (s.node? n).map Node.item with
  | some (.plain x) =>
    if x.opcode.is .switch then
      match s.named? x.target with
      | some t => s.modifyItem t (Item.setOwner (s.handleOf n))
      | none => s
    else s
  | _ => s

theorem claim_eq (table : Nat) (h : Claims s table n) :
    s.claim n = s.modifyItem table (Item.setOwner (s.handleOf n)) := by
  obtain ⟨x, hx, switch, ht⟩ := h
  unfold claim
  rw [show (s.node? n).map Node.item = _ from hx]
  simp only [switch, if_true, ht]

theorem claim_of_not (h : ∀ table, ¬ Claims s table n) : s.claim n = s := by
  unfold claim
  split
  · next x hx =>
    split
    · next switch =>
      split
      · next t ht => exact absurd ⟨x, hx, switch, ht⟩ (h t)
      · rfl
    · rfl
  · rfl

theorem claims_or_not (s : Sequence) (n : Nat) : (∃ table, Claims s table n) ∨ ∀ table, ¬ Claims s table n := by
  by_cases h : ∃ table, Claims s table n
  · exact .inl h
  · exact .inr (not_exists.1 h)

theorem reowned_claim (s : Sequence) (n : Nat) : Reowned s (s.claim n) := by
  rcases claims_or_not s n with ⟨table, h⟩ | h
  · rw [claim_eq table h]
    exact .modifyItem s table _
  · rw [claim_of_not h]
    exact .refl s

theorem Reowned.claims_iff {table : Nat} (h : Reowned s t) : Claims t table n ↔ Claims s table n := by
  unfold Claims
  simp only [h.item?_eq_plain_iff, h.named?]

/-- Takes the owner away from every item. -/
def disown (s : Sequence) (xs : List Nat) : Sequence :=
  xs.foldl (fun s n => s.modifyItem n (Item.setOwner .none)) s

/-- The tables that have an owner. -/
def owned (s : Sequence) : List Nat :=
  s.items.toList.filter fun n => ((s.node? n).bind fun x => x.item.owner?).any fun h => decide (0 ≤ h)

/-- The sequence with new owners, before any table is dropped. -/
def claimed (s : Sequence) : Sequence := s.items.toList.foldl claim (s.disown s.items.toList)

theorem reowned_disown (s : Sequence) (xs : List Nat) : Reowned s (s.disown xs) :=
  .foldl (fun s n => .modifyItem s n .none) s xs

theorem reowned_claimed (s : Sequence) : Reowned s s.claimed :=
  (reowned_disown s _).trans (.foldl reowned_claim _ _)

theorem claimTables_eq (s : Sequence) :
    s.claimTables =
      { (dropUnclaimed s.owned #[] s.items.toList s.claimed).2 with
        items := (dropUnclaimed s.owned #[] s.items.toList s.claimed).1 } := by
  have disowned : s.items.foldl (fun s n => s.modifyItem n (Item.setOwner .none)) s =
      s.disown s.items.toList := by
    rw [← Array.foldl_toList]
    rfl
  have claimed : (s.disown s.items.toList).items.foldl claim (s.disown s.items.toList) = s.claimed := by
    rw [← Array.foldl_toList, (reowned_disown s _).items]
    rfl
  have unfolded : s.claimTables =
      let t := s.items.foldl (fun s n => s.modifyItem n (Item.setOwner .none)) s
      let u := t.items.foldl claim t
      { (dropUnclaimed s.owned #[] u.items.toList u).2 with
        items := (dropUnclaimed s.owned #[] u.items.toList u).1 } := rfl
  rw [unfolded]
  simp only [disowned, claimed, (reowned_claimed s).items]

/-! ## Dropping tables -/

/-- The node is a switch table without an owner. -/
def Unowned (s : Sequence) (n : Nat) : Prop := ∃ x o, s.item? n = some x ∧ x.owner? = some o ∧ o < 0

theorem unowned_of_getD {n : Nat} (h : ((s.node? n).bind fun x => x.item.owner?).getD 0 < 0) : Unowned s n := by
  unfold Unowned item?
  cases hx : s.node? n with
  | none => simp [hx] at h
  | some x =>
    cases ho : x.item.owner? with
    | none => simp [hx, ho] at h
    | some o =>
      simp only [hx, ho, Option.bind_some, Option.getD_some] at h
      exact ⟨x.item, o, rfl, ho, h⟩

/-- `dropUnclaimed` keeps the nodes linked, and forgets only tables without an owner. -/
theorem Linked.dropUnclaimed {kept : Array Nat} (h : Linked s (kept.toList ++ xs)) (had : List Nat) :
    Linked (Sequence.dropUnclaimed had kept xs s).2 (Sequence.dropUnclaimed had kept xs s).1.toList ∧
      ReflTransGen (Adjust Unowned) s (Sequence.dropUnclaimed had kept xs s).2 := by
  induction xs generalizing kept s with
  | nil =>
    refine ⟨?_, .refl⟩
    simpa [Sequence.dropUnclaimed] using h
  | cons n xs ih =>
    simp only [Sequence.dropUnclaimed]
    split
    · next gone =>
      simp only [Bool.and_eq_true, decide_eq_true_eq] at gone
      have linked : Linked s (n :: (kept.toList ++ xs)) := h.perm List.perm_middle
      have issued := linked.next_lt xs.head? fun m hm =>
        List.mem_cons_of_mem _ (List.mem_append_right _ (List.mem_of_head? hm))
      obtain ⟨result, adjusts⟩ := ih (linked.forget ((xs.head?.map s.handleOf).getD .finish))
      exact ⟨result, .head (.forget _ linked (unowned_of_getD gone.1) issued) adjusts⟩
    · refine ih ?_
      simpa using h

theorem Linked.claimed (h : Linked s s.items.toList) : Linked s.claimed ((#[] : Array Nat).toList ++ s.items.toList) :=
  (reowned_claimed s).linked (by simpa using h)

theorem Linked.claimTables (h : Linked s s.items.toList) :
    Linked s.claimTables s.claimTables.items.toList := by
  rw [claimTables_eq]
  exact (h.claimed.dropUnclaimed s.owned).1.congr (fun _ => rfl) rfl

/-- `claimTables` is a change of owners and then a run of adjustments. -/
theorem claimTables_adjusts (h : Linked s s.items.toList) :
    ∃ t, ReflTransGen (Adjust Unowned) s.claimed t ∧
      s.claimTables = { t with items := s.claimTables.items } := by
  have adjusts := (h.claimed.dropUnclaimed s.owned).2
  rw [claimTables_eq]
  generalize Sequence.dropUnclaimed s.owned #[] s.items.toList s.claimed = r at adjusts ⊢
  exact ⟨r.2, adjusts, rfl⟩

/-- `relink` keeps a sequence linked, and puts its items in a row. -/
theorem Linked.relink (h : Linked s s.items.toList) :
    Linked s.relink s.relink.items.toList ∧ Laid s.relink 0 s.relink.items.toList s.relink.units := by
  have result := h.claimTables.layout
  unfold Sequence.relink collectReferences
  generalize s.claimTables.layout = t at result ⊢
  exact ⟨result.1.congr (fun _ => rfl) rfl, result.2.congr fun _ _ => rfl⟩

end Sequence

end Dalvik
