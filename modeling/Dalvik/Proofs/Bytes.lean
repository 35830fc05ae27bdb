import Dalvik.Bytes
import Mathlib.Data.List.Infix

/-!
# Byte strings

`cut` and `cutAt` give the text in front of the first separator and the text behind it
(`cut_eq_some`, `cutAt_eq_some`), and `indexOf?` and `lastIndexOf?` the position of a separator
(`indexOf?_eq_some`, `lastIndexOf?_eq_some`). Two different strings have a first place where they
differ (`exists_fork`), and `order` is the lexicographic order of the bytes (`order_eq_compare`).
-/

namespace Dalvik

open Std in
/-- The lexicographic order by cases on the heads. -/
theorem compare_cons_eq_ite {α : Type} [Ord α] [LE α] [LT α] [DecidableLT α] [LawfulOrderOrd α] [LawfulOrderLT α] (x y : α)
    (s t : List α) : compare (x :: s) (y :: t) = if x < y then .lt else if y < x then .gt else compare s t := by
  rw [List.compare_cons_cons]
  split
  · next less => rw [compare_eq_lt.2 less, Ordering.lt_then]
  split
  · next greater => rw [compare_eq_gt.2 greater, Ordering.gt_then]
  · next less greater =>
    cases e : compare x y with
    | lt => exact absurd (compare_eq_lt.1 e) less
    | gt => exact absurd (compare_eq_gt.1 e) greater
    | eq => rw [Ordering.eq_then]

namespace Bytes

variable {b c x y : UInt8} {s t before after : Bytes} {i : Nat}

/-! ## Cutting -/

private theorem map_cons_eq_some {o : Option (Bytes × Bytes)} :
    (o.map fun (front, after) => (b :: front, after)) = some (before, after) ↔
      ∃ front, before = b :: front ∧ o = some (front, after) := by
  simp only [Option.map_eq_some_iff, Prod.exists, Prod.mk.injEq]
  constructor
  · rintro ⟨front, _, cut, rfl, rfl⟩
    exact ⟨front, rfl, cut⟩
  · rintro ⟨front, rfl, cut⟩
    exact ⟨front, after, cut, rfl, rfl⟩

theorem cut_eq_some : cut c s = some (before, after) ↔ s = before ++ c :: after ∧ c ∉ before := by
  induction s generalizing before with
  | nil => simp [cut]
  | cons b s ih =>
    rw [cut]
    split
    · next same =>
      subst same
      cases before with
      | nil => simp
      | cons b' before =>
        refine iff_of_false (fun h => by cases h) ?_
        rintro ⟨split, absent⟩
        exact absent ((List.cons.inj split).1 ▸ List.mem_cons_self)
    · next other =>
      rw [map_cons_eq_some]
      constructor
      · rintro ⟨front, rfl, cut⟩
        obtain ⟨rfl, absent⟩ := ih.1 cut
        exact ⟨rfl, by simp [absent, Ne.symm other]⟩
      · rintro ⟨split, absent⟩
        cases before with
        | nil => exact absurd (List.cons.inj split).1 other
        | cons b' before =>
          obtain ⟨rfl, rest⟩ := List.cons.inj split
          exact ⟨before, rfl, ih.2 ⟨rest, fun inside => absent (List.mem_cons_of_mem _ inside)⟩⟩

theorem cutAt_eq_some (ne : x ≠ y) :
    cutAt [x, y] s = some (before, after) ↔ s = before ++ x :: y :: after ∧ ¬ [x, y] <:+: before := by
  induction s generalizing before with
  | nil => simp [cutAt]
  | cons b s ih =>
    rw [cutAt]
    split
    · next front =>
      obtain ⟨rest, e⟩ := List.isPrefixOf_iff_prefix.1 front
      obtain ⟨rfl, rfl⟩ : x = b ∧ y :: rest = s := List.cons.inj e
      cases before with
      | nil => simp
      | cons b' before =>
        refine iff_of_false (fun h => by cases h) ?_
        rintro ⟨split, absent⟩
        obtain ⟨rfl, behind⟩ := List.cons.inj split
        -- The separator is at the front already, and it does not overlap itself.
        cases before with
        | nil => exact ne (List.cons.inj behind).1.symm
        | cons b'' before => exact absent ⟨[], before, by rw [(List.cons.inj behind).1]; rfl⟩
    · next other =>
      rw [map_cons_eq_some]
      constructor
      · rintro ⟨front, rfl, cut⟩
        obtain ⟨rfl, absent⟩ := ih.1 cut
        refine ⟨rfl, fun inside => (List.infix_cons_iff.1 inside).elim (fun start => other ?_) absent⟩
        exact List.isPrefixOf_iff_prefix.2 (start.trans (List.prefix_append (b :: front) _))
      · rintro ⟨split, absent⟩
        cases before with
        | nil =>
          obtain ⟨rfl, rfl⟩ := List.cons.inj split
          exact absurd (List.isPrefixOf_iff_prefix.2 ⟨after, rfl⟩) other
        | cons b' before =>
          obtain ⟨rfl, rest⟩ := List.cons.inj split
          exact ⟨before, rfl, ih.2 ⟨rest, fun inside => absent (inside.trans (List.suffix_cons b before).isInfix)⟩⟩

/-! ## Positions -/

theorem indexOf?_eq_some : indexOf? c s = some i ↔ ∃ before after, s = before ++ c :: after ∧ c ∉ before ∧ before.length = i := by
  constructor
  · intro h
    obtain ⟨bound, found, before⟩ := List.findIdx?_eq_some_iff_getElem.1 h
    refine ⟨s.take i, s.drop (i + 1), ?_, fun mem => ?_, List.length_take_of_le bound.le⟩
    · have here : s[i] = c := by simpa using found
      rw [← here, ← List.drop_eq_getElem_cons bound, List.take_append_drop]
    · obtain ⟨j, less, e⟩ := List.mem_take_iff_getElem.1 mem
      have := before j (by omega)
      simp [e] at this
  · rintro ⟨before, after, rfl, absent, rfl⟩
    have missing : before.findIdx? (· == c) = none := by
      rw [List.findIdx?_eq_none_iff]
      intro x mem
      have : x ≠ c := fun e => absent (e ▸ mem)
      simpa using this
    rw [indexOf?, List.findIdx?_append, missing]
    simp [List.findIdx?_cons]

theorem lastIndexOf?_eq_some :
    lastIndexOf? c s = some i ↔ ∃ before after, s = before ++ c :: after ∧ c ∉ after ∧ before.length = i := by
  have last : ∀ {j}, s.reverse.findIdx? (· == c) = some j ↔ _ := @indexOf?_eq_some (s := s.reverse) (c := c)
  rw [lastIndexOf?, Option.map_eq_some_iff]
  constructor
  · rintro ⟨j, found, rfl⟩
    obtain ⟨after, before, e, absent, rfl⟩ := last.1 found
    have e : s = before.reverse ++ c :: after.reverse := by
      rw [← s.reverse_reverse, e]
      simp
    refine ⟨before.reverse, after.reverse, e, by simpa using absent, ?_⟩
    rw [e]
    simp
  · rintro ⟨before, after, rfl, absent, rfl⟩
    refine ⟨after.length, last.2 ⟨after.reverse, before.reverse, by simp, by simpa using absent, by simp⟩, ?_⟩
    simp

theorem lastIndexOf?_eq_none : lastIndexOf? c s = none ↔ c ∉ s := by
  rw [lastIndexOf?, Option.map_eq_none_iff, List.findIdx?_eq_none_iff]
  constructor
  · intro h mem
    simpa using h c (by simpa using mem)
  · intro absent x mem
    have : x ≠ c := fun e => absent (e ▸ by simpa using mem)
    simpa using this

/-! ## The first difference -/

@[simp] theorem diffStart_self (s : Bytes) : diffStart s s = none := by
  induction s with
  | nil => rfl
  | cons b s ih => rw [diffStart, if_pos rfl, ih, Option.map_none]

/-- `diffStart` of two strings with the common beginning `p` and different next bytes is the length of `p`. -/
theorem diffStart_append (fork : s.head? ≠ t.head?) (p : Bytes) : diffStart (p ++ s) (p ++ t) = some p.length := by
  induction p with
  | nil =>
    cases s with
    | nil =>
      cases t with
      | nil => exact absurd rfl fork
      | cons c t => rfl
    | cons b s =>
      cases t with
      | nil => rfl
      | cons c t => exact if_neg fun same => fork (congrArg some same)
  | cons b p ih => rw [List.cons_append, List.cons_append, diffStart, if_pos rfl, ih, Option.map_some, List.length_cons]

/-- Two different strings have a common beginning `p` behind which their next bytes differ. -/
theorem exists_fork (ne : s ≠ t) : ∃ p s' t', s = p ++ s' ∧ t = p ++ t' ∧ s'.head? ≠ t'.head? := by
  induction s generalizing t with
  | nil =>
    cases t with
    | nil => exact absurd rfl ne
    | cons c t => exact ⟨[], [], c :: t, rfl, rfl, nofun⟩
  | cons b s ih =>
    cases t with
    | nil => exact ⟨[], b :: s, [], rfl, rfl, nofun⟩
    | cons c t =>
      by_cases same : b = c
      · subst same
        obtain ⟨p, s', t', rfl, rfl, fork⟩ := ih fun e => ne (congrArg (b :: ·) e)
        exact ⟨b :: p, s', t', rfl, rfl, fork⟩
      · exact ⟨[], b :: s, c :: t, rfl, rfl, fun e => same (Option.some.inj e)⟩

/-! ## Order -/

theorem order_eq_compare (s t : Bytes) : order s t = compare s t := by
  induction s generalizing t with
  | nil => cases t <;> rfl
  | cons a s ih =>
    cases t with
    | nil => rfl
    | cons b t => rw [order, ih, compare_cons_eq_ite]

theorem order_append (p s t : Bytes) : order (p ++ s) (p ++ t) = order s t := by
  induction p with
  | nil => rfl
  | cons b p ih => rw [List.cons_append, List.cons_append, order, if_neg (UInt8.lt_irrefl b), if_neg (UInt8.lt_irrefl b), ih]

theorem order_swap (s t : Bytes) : order t s = (order s t).swap := by
  rw [order_eq_compare, order_eq_compare]
  exact Std.OrientedCmp.eq_swap

theorem order_eq_eq : order s t = .eq ↔ s = t := by
  rw [order_eq_compare]
  exact Std.compare_eq_iff_eq

theorem order_of_head_lt (less : x < y) (s t : Bytes) : order (x :: s) (y :: t) = .lt := if_pos less

/-- `order` looks no further than two heads that differ. -/
theorem order_cons_of_ne (ne : x ≠ y) {s t s' t' : Bytes} : order (x :: s) (y :: t) = order (x :: s') (y :: t') := by
  rcases UInt8.lt_or_lt_of_ne ne with less | greater
  · rw [order_of_head_lt less, order_of_head_lt less]
  · rw [order_swap (y :: t), order_swap (y :: t'), order_of_head_lt greater, order_of_head_lt greater]

end Bytes

end Dalvik
