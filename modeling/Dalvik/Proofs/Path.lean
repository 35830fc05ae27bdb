import Dalvik.Export
import Mathlib.Data.List.Basic
import Mathlib.Data.List.Induction
import Mathlib.Data.List.TakeWhile

/-!
# Where a path leads

The components of a cleaned path are some `..` first, none if the path is rooted, and then names
(`normal_components`). Taken from a directory, a path goes up `climb` times and then down by the
names `descent`.

* `components_clean`: cleaning keeps the components of a path;
* `components_join`: the components of a joined path in terms of `climb` and `descent`;
* `split_join_name`: the last component of a joined path is the last name;
* `classPath_below_iff`: when the file of a class lies below the directory it is written to.
-/

namespace Dalvik

namespace Path

variable {rooted : Bool} {a b dir path part : Bytes} {parts stack names : List Bytes} {j k : Nat}

/-! ## Splitting -/

theorem split_ne_nil (path : Bytes) : split path ≠ [] := by
  cases path with
  | nil => simp [split]
  | cons c rest =>
    rw [split]
    split
    · simp
    · split <;> simp

theorem split_cons (c : UInt8) (h : c ≠ slash) (rest : Bytes) :
    ∃ p ps, split rest = p :: ps ∧ split (c :: rest) = (c :: p) :: ps := by
  obtain ⟨p, ps, e⟩ := List.exists_cons_of_ne_nil (split_ne_nil rest)
  refine ⟨p, ps, e, ?_⟩
  rw [split, if_neg h, e]

theorem split_append_slash (a b : Bytes) : split (a ++ slash :: b) = split a ++ split b := by
  induction a with
  | nil => simp [split]
  | cons c a ih =>
    by_cases h : c = slash
    · simp [split, h, ih]
    · obtain ⟨p, ps, e, e'⟩ := split_cons c h a
      rw [List.cons_append, split, if_neg h, ih, e, e']
      simp

theorem split_of_not_mem (h : slash ∉ b) : split b = [b] := by
  induction b with
  | nil => rfl
  | cons c b ih =>
    have both : c ≠ slash ∧ slash ∉ b := by
      simp only [List.mem_cons, not_or] at h
      exact ⟨Ne.symm h.1, h.2⟩
    rw [split, if_neg both.1, ih both.2]

theorem not_mem_of_mem_split {p : Bytes} (h : p ∈ split path) : slash ∉ p := by
  induction path generalizing p with
  | nil =>
    simp only [split, List.mem_singleton] at h
    simp [h]
  | cons c path ih =>
    by_cases hc : c = slash
    · rw [split, if_pos hc, List.mem_cons] at h
      obtain rfl | h := h
      · simp
      · exact ih h
    · obtain ⟨q, qs, e, e'⟩ := split_cons c hc path
      rw [e', List.mem_cons] at h
      obtain rfl | h := h
      · have := ih (p := q) (by simp [e])
        simp [this, Ne.symm hc]
      · exact ih (by simp [e, h])

/-- Appending a text without a slash to a path lengthens its last part. -/
theorem split_append_of_not_mem (a : Bytes) (h : slash ∉ b) :
    ∃ front last, split a = front ++ [last] ∧ split (a ++ b) = front ++ [last ++ b] := by
  induction a with
  | nil => exact ⟨[], [], by simp [split], by simp [split_of_not_mem h]⟩
  | cons c a ih =>
    obtain ⟨front, last, e, e'⟩ := ih
    by_cases hc : c = slash
    · exact ⟨[] :: front, last, by simp [split, hc, e], by simp [split, hc, e']⟩
    · cases front with
      | nil => exact ⟨[], c :: last, by simp [split, hc, e], by simp [split, hc, e']⟩
      | cons p front => exact ⟨(c :: p) :: front, last, by simp [split, hc, e], by simp [split, hc, e']⟩

theorem split_join (nonempty : parts ≠ []) (h : ∀ p ∈ parts, slash ∉ p) : split (Bytes.join [slash] parts) = parts := by
  induction parts with
  | nil => exact absurd rfl nonempty
  | cons p parts ih =>
    cases parts with
    | nil =>
      have plain : slash ∉ p := h p (by simp)
      simpa [Bytes.join, List.intercalate] using split_of_not_mem plain
    | cons q parts =>
      have e : Bytes.join [slash] (p :: q :: parts) = p ++ slash :: Bytes.join [slash] (q :: parts) := by
        simp [Bytes.join, List.intercalate]
      rw [e, split_append_slash, split_of_not_mem (h p (by simp)), ih (by simp) fun r hr => h r (by simp [hr])]
      rfl

/-! ## Cleaning -/

/-- The part is no dot, no double dot and not empty. -/
structure IsName (part : Bytes) : Prop where
  nonempty : part ≠ []
  not_dot : part ≠ dot
  not_dotDot : part ≠ dotDot

theorem isName_of_length (long : 2 < part.length) : IsName part := by
  have differs : ∀ q : Bytes, q.length ≤ 2 → part ≠ q := by
    rintro q short rfl
    omega
  exact ⟨differs [] (by decide), differs dot (by decide), differs dotDot (by decide)⟩

theorem push_name (h : IsName part) : push rooted stack part = part :: stack := by
  simp [push, h.nonempty, h.not_dot, h.not_dotDot]

/-- `up rooted k stack` pushes `..` onto the stack `k` times. -/
def up (rooted : Bool) : Nat → List Bytes → List Bytes
  | 0, stack => stack
  | k + 1, stack => up rooted k (push rooted stack dotDot)

theorem up_succ (k : Nat) (stack : List Bytes) : up rooted (k + 1) stack = push rooted (up rooted k stack) dotDot := by
  induction k generalizing stack with
  | zero => rfl
  | succ k ih => exact ih (push rooted stack dotDot)

theorem dotDot_ne : dotDot ≠ [] ∧ dotDot ≠ dot := by decide

@[simp] theorem push_dotDot_nil : push rooted [] dotDot = if rooted then [] else [dotDot] := by
  simp [push, dotDot_ne]

@[simp] theorem push_dotDot_dotDot : push rooted (dotDot :: stack) dotDot = dotDot :: dotDot :: stack := by
  simp [push, dotDot_ne]

theorem push_dotDot_name (h : part ≠ dotDot) : push rooted (part :: stack) dotDot = stack := by
  simp [push, dotDot_ne, h]

/-- Going up from a stack of `..` adds more of them, or nothing at the root. -/
theorem up_replicate (h : rooted = true → j = 0) :
    up rooted k (List.replicate j dotDot) = if rooted then [] else List.replicate (j + k) dotDot := by
  induction k generalizing j with
  | zero =>
    cases rooted with
    | true => simp [up, h rfl]
    | false => simp [up]
  | succ k ih =>
    cases rooted with
    | true =>
      obtain rfl := h rfl
      simpa [up] using ih (j := 0) fun _ => rfl
    | false =>
      have more : push false (List.replicate j dotDot) dotDot = List.replicate (j + 1) dotDot := by
        cases j <;> simp [List.replicate_succ]
      rw [up, more, ih nofun]
      simp [Nat.add_assoc, Nat.add_comm 1]

theorem up_nil (rooted : Bool) (k : Nat) : up rooted k [] = if rooted then [] else List.replicate k dotDot := by
  have top : up rooted k (List.replicate 0 dotDot) = _ := up_replicate fun _ => rfl
  simpa using top

/-- Going up from names and `..` takes the names off first. -/
theorem up_names (hn : dotDot ∉ names) (h : rooted = true → j = 0) :
    up rooted k (names ++ List.replicate j dotDot) =
      if k ≤ names.length then names.drop k ++ List.replicate j dotDot
      else if rooted then [] else List.replicate (j + (k - names.length)) dotDot := by
  induction names generalizing k with
  | nil =>
    rw [List.nil_append, up_replicate h]
    cases k with
    | zero =>
      cases rooted with
      | true => simp [h rfl]
      | false => simp
    | succ k => simp
  | cons n names ih =>
    simp only [List.mem_cons, not_or] at hn
    cases k with
    | zero => simp [up]
    | succ k =>
      rw [List.cons_append, up, push_dotDot_name (Ne.symm hn.1), ih hn.2]
      simp

/-- Pushing `parts` onto the empty stack leaves names above some number `k` of `..`. Pushing them onto any other stack
goes up `k` times and then puts the same names on top. -/
theorem foldl_push (rooted : Bool) (stack parts : List Bytes) :
    ∃ k names, dotDot ∉ names ∧ (∀ n ∈ names, n ∈ parts ∧ IsName n) ∧
      parts.foldl (push false) [] = names ++ List.replicate k dotDot ∧
      parts.foldl (push rooted) stack = names ++ up rooted k stack := by
  induction parts using List.reverseRecOn with
  | nil => exact ⟨0, [], by simp [up]⟩
  | append_singleton parts part ih =>
    obtain ⟨k, names, hn, origin, start, elsewhere⟩ := ih
    have kept : ∀ n ∈ names, n ∈ parts ++ [part] ∧ IsName n := fun n mem =>
      ⟨List.mem_append_left _ (origin n mem).1, (origin n mem).2⟩
    simp only [List.foldl_append, List.foldl_cons, List.foldl_nil, start, elsewhere]
    by_cases skipped : part = [] ∨ part = dot
    · have same : ∀ r s, push r s part = s := fun r s => by simp [push, skipped]
      exact ⟨k, names, hn, kept, same _ _, same _ _⟩
    · by_cases twice : part = dotDot
      · subst twice
        cases names with
        | nil =>
          refine ⟨k + 1, [], by simp, by simp, ?_, (up_succ k stack).symm⟩
          cases k <;> simp [List.replicate_succ]
        | cons n names =>
          simp only [List.mem_cons, not_or] at hn
          exact ⟨k, names, hn.2, fun m mem => kept m (List.mem_cons_of_mem _ mem),
            push_dotDot_name (Ne.symm hn.1), push_dotDot_name (Ne.symm hn.1)⟩
      · have name : IsName part := ⟨fun e => skipped (.inl e), fun e => skipped (.inr e), twice⟩
        refine ⟨k, part :: names, ?_, ?_, push_name name, push_name name⟩
        · simp [hn, Ne.symm twice]
        · intro n mem
          obtain rfl | mem := List.mem_cons.1 mem
          · exact ⟨by simp, name⟩
          · exact kept n mem

/-- Some `..`, none if the path is rooted, and then names: the shape of the components of a cleaned path. -/
structure Normal (rooted : Bool) (parts : List Bytes) : Prop where
  shape : ∃ k names, parts = List.replicate k dotDot ++ names ∧ (rooted = true → k = 0) ∧ ∀ n ∈ names, IsName n ∧ slash ∉ n

theorem normal_components (path : Bytes) : Normal (isRooted path) (components path) := by
  obtain ⟨k, names, hn, origin, -, here⟩ := foldl_push (isRooted path) [] (split path)
  refine ⟨if isRooted path then 0 else k, names.reverse, ?_, fun r => if_pos r, fun n mem => ?_⟩
  · rw [components, here, up_nil, List.reverse_append]
    split <;> simp
  · have := origin n (List.mem_reverse.1 mem)
    exact ⟨this.2, not_mem_of_mem_split this.1⟩

namespace Normal

theorem not_slash (h : Normal rooted parts) : ∀ p ∈ parts, slash ∉ p := by
  obtain ⟨k, names, rfl, -, all⟩ := h
  intro p mem
  obtain mem | mem := List.mem_append.1 mem
  · rw [List.eq_of_mem_replicate mem]
    decide
  · exact (all p mem).2

theorem nonempty (h : Normal rooted parts) : ∀ p ∈ parts, p ≠ [] := by
  obtain ⟨k, names, rfl, -, all⟩ := h
  intro p mem
  obtain mem | mem := List.mem_append.1 mem
  · rw [List.eq_of_mem_replicate mem]
    exact dotDot_ne.1
  · exact (all p mem).1.nonempty

/-- Pushing normal parts one after the other keeps all of them. -/
theorem foldl (h : Normal rooted parts) : parts.foldl (push rooted) [] = parts.reverse := by
  obtain ⟨k, names, rfl, root, all⟩ := h
  have climbed : (List.replicate k dotDot).foldl (push rooted) [] = List.replicate k dotDot := by
    cases rooted with
    | true => simp [root rfl]
    | false =>
      induction k with
      | zero => rfl
      | succ k ih =>
        rw [List.replicate_succ', List.foldl_append, ih nofun, ← List.replicate_succ']
        cases k <;> simp [List.replicate_succ]
  rw [List.foldl_append, climbed, List.reverse_append, List.reverse_replicate]
  generalize List.replicate k dotDot = stack
  induction names generalizing stack with
  | nil => simp
  | cons n names ih =>
    rw [List.foldl_cons, push_name (all n (by simp)).1, ih fun m mem => all m (by simp [mem])]
    simp

end Normal

theorem isRooted_ofComponents (h : Normal rooted parts) : isRooted (ofComponents rooted parts) = rooted := by
  cases rooted with
  | true => simp [ofComponents, isRooted]
  | false =>
    cases parts with
    | nil => decide
    | cons p parts =>
      obtain ⟨c, p', rfl⟩ := List.exists_cons_of_ne_nil (h.nonempty p (by simp))
      have plain : c ≠ slash := fun e => h.not_slash (c :: p') (by simp) (by simp [e])
      cases parts <;> simp [ofComponents, isRooted, Bytes.join, List.intercalate, plain]

theorem split_ofComponents (h : Normal rooted parts) (nonempty : parts ≠ []) :
    split (ofComponents rooted parts) = if rooted then [] :: parts else parts := by
  have joined : split (Bytes.join [slash] parts) = parts := split_join nonempty h.not_slash
  cases rooted with
  | true => simp [ofComponents, split, joined]
  | false => simp [ofComponents, nonempty, joined]

theorem components_ofComponents (h : Normal rooted parts) : components (ofComponents rooted parts) = parts := by
  have same : (split (ofComponents rooted parts)).foldl (push rooted) [] = parts.foldl (push rooted) [] := by
    by_cases absent : parts = []
    · subst absent
      cases rooted <;> rfl
    · rw [split_ofComponents h absent]
      cases rooted with
      | true => simp [push]
      | false => simp
  rw [components, isRooted_ofComponents h, same, h.foldl, List.reverse_reverse]

theorem isRooted_clean (path : Bytes) : isRooted (clean path) = isRooted path :=
  isRooted_ofComponents (normal_components path)

/-- `clean` keeps the components of a path. -/
theorem components_clean (path : Bytes) : components (clean path) = components path :=
  components_ofComponents (normal_components path)

/-! ## Below a directory -/

/-- The components of a path that is taken from an unknown directory. -/
def steps (path : Bytes) : List Bytes := ((split path).foldl (push false) []).reverse

/-- How many directories a path goes up before it goes down. -/
def climb (path : Bytes) : Nat := ((steps path).takeWhile (· == dotDot)).length

/-- The names by which a path goes down. -/
def descent (path : Bytes) : List Bytes := (steps path).dropWhile (· == dotDot)

theorem steps_eq (path : Bytes) : steps path = List.replicate (climb path) dotDot ++ descent path := by
  have all : (steps path).takeWhile (· == dotDot) = List.replicate (climb path) dotDot :=
    List.eq_replicate_iff.2 ⟨rfl, fun p mem => by simpa using List.mem_takeWhile_imp mem⟩
  rw [← all, descent, List.takeWhile_append_dropWhile]

theorem foldl_split (rooted : Bool) (stack : List Bytes) (path : Bytes) :
    (split path).foldl (push rooted) stack = (descent path).reverse ++ up rooted (climb path) stack ∧
      dotDot ∉ descent path := by
  obtain ⟨k, names, hn, -, start, elsewhere⟩ := foldl_push rooted stack (split path)
  have shape : steps path = List.replicate k dotDot ++ names.reverse := by
    rw [steps, start, List.reverse_append, List.reverse_replicate]
  have ends : names.reverse.takeWhile (· == dotDot) = [] ∧ names.reverse.dropWhile (· == dotDot) = names.reverse := by
    have fresh : dotDot ∉ names.reverse := by simpa using hn
    cases e : names.reverse with
    | nil => simp
    | cons n rest =>
      rw [e, List.mem_cons, not_or] at fresh
      simp [Ne.symm fresh.1]
  have climbs : climb path = k := by simp [climb, shape, List.takeWhile_append_of_pos, ends.1]
  have descends : descent path = names.reverse := by simp [descent, shape, List.dropWhile_append_of_pos, ends.2]
  rw [elsewhere, climbs, descends]
  exact ⟨by simp, by simpa using hn⟩

theorem join_of_ne_nil (hd : dir ≠ []) (hb : b ≠ []) : join [dir, b] = clean (dir ++ slash :: b) := by
  simp [join, hd, hb, Bytes.join, List.intercalate]

theorem join_nil (hb : b ≠ []) : join [[], b] = clean b := by
  simp [join, hb, Bytes.join, List.intercalate]

theorem isRooted_append (hd : dir ≠ []) (b : Bytes) : isRooted (dir ++ b) = isRooted dir := by
  obtain ⟨c, dir', rfl⟩ := List.exists_cons_of_ne_nil hd
  rfl

/-- The components of `join [dir, b]` are those of `dir` after going up `climb b` times, followed by the names
`descent b`. -/
theorem components_join (hd : dir ≠ []) (hb : b ≠ []) :
    isRooted (join [dir, b]) = isRooted dir ∧
      components (join [dir, b]) = (up (isRooted dir) (climb b) (components dir).reverse).reverse ++ descent b := by
  have rooted : isRooted (dir ++ slash :: b) = isRooted dir := isRooted_append hd _
  rw [join_of_ne_nil hd hb, isRooted_clean, components_clean, rooted]
  refine ⟨rfl, ?_⟩
  rw [components, rooted, split_append_slash, List.foldl_append, (foldl_split _ _ b).1, components,
    List.reverse_reverse, List.reverse_append, List.reverse_reverse]

/-- The last part of a path stays the last part of the cleaned path if it is a name. -/
theorem split_clean_name {front : List Bytes} (name : IsName part) (ends : split path = front ++ [part]) :
    ∃ front', split (clean path) = front' ++ [part] := by
  obtain ⟨init, last⟩ : ∃ init, components path = init ++ [part] := by
    refine ⟨(front.foldl (push (isRooted path)) []).reverse, ?_⟩
    rw [components, ends, List.foldl_append, List.foldl_cons, List.foldl_nil, push_name name, List.reverse_cons]
  have whole := split_ofComponents (normal_components path) (by simp [last])
  rw [last] at whole
  rw [clean, last, whole]
  cases isRooted path with
  | true => exact ⟨[] :: init, rfl⟩
  | false => exact ⟨init, rfl⟩

theorem split_join_name (dir : Bytes) (name : IsName b) (plain : slash ∉ b) : ∃ front, split (join [dir, b]) = front ++ [b] := by
  by_cases hd : dir = []
  · rw [hd, join_nil name.nonempty]
    have whole : split b = [] ++ [b] := split_of_not_mem plain
    exact split_clean_name name whole
  · rw [join_of_ne_nil hd name.nonempty]
    have whole : split (dir ++ slash :: b) = split dir ++ [b] := by rw [split_append_slash, split_of_not_mem plain]
    exact split_clean_name name whole

/-- The components of `path` are those of `dir` and at least one name behind them. -/
structure Below (dir path : Bytes) : Prop where
  rooted : isRooted path = isRooted dir
  further : ∃ more, more ≠ [] ∧ dotDot ∉ more ∧ components path = components dir ++ more

theorem below_nil_iff (hb : b ≠ []) (down : descent b ≠ []) :
    Below [] (join [[], b]) ↔ isRooted b = false ∧ climb b = 0 := by
  rw [join_nil hb]
  have here : components (clean b) = (up (isRooted b) (climb b) []).reverse ++ descent b := by
    rw [components_clean, components, (foldl_split (isRooted b) [] b).1]
    simp
  have fresh := (foldl_split false [] b).2
  constructor
  · rintro ⟨rooted, more, -, plain, e⟩
    rw [isRooted_clean] at rooted
    have relative : isRooted b = false := rooted
    refine ⟨relative, ?_⟩
    rw [here, relative, show components [] = [] from rfl, List.nil_append] at e
    by_contra climbs
    refine plain ?_
    rw [← e, up_nil]
    simp [climbs]
  · rintro ⟨relative, flat⟩
    refine ⟨by rw [isRooted_clean, relative]; rfl, descent b, down, fresh, ?_⟩
    rw [here, flat]
    rfl

/-- A suffix without `..` of some `..` and names is a suffix of the names. -/
theorem suffix_names {back : List Bytes} (h : back <:+ List.replicate j dotDot ++ names) (hb : dotDot ∉ back) : back <:+ names := by
  obtain h | ⟨front, rfl⟩ := List.suffix_or_suffix_of_suffix h (List.suffix_append _ names)
  · exact h
  · cases front with
    | nil => exact List.suffix_rfl
    | cons p front =>
      obtain ⟨before, e⟩ := h
      rw [← List.append_assoc, List.append_cancel_right_eq] at e
      have dots : p = dotDot := List.eq_of_mem_replicate (n := j) (by rw [← e]; simp)
      exact absurd (by simp [dots]) hb

/-- `join [dir, b]` lies below `dir` exactly if `b` does not climb, or goes down again by the last components of `dir`
that it went up by, before it goes down further. -/
theorem below_join_iff (hd : dir ≠ []) (hb : b ≠ []) :
    Below dir (join [dir, b]) ↔
      ∃ back more, back <:+ components dir ∧ dotDot ∉ back ∧ more ≠ [] ∧ descent b = back ++ more ∧
        (back.length = climb b ∨ (isRooted dir = true ∧ back = components dir ∧ back.length ≤ climb b)) := by
  obtain ⟨rooted, joined⟩ := components_join hd hb
  have fresh := (foldl_split false [] b).2
  obtain ⟨j, names, shape, root, all⟩ := (normal_components dir).shape
  have plain : dotDot ∉ names := fun mem => (all dotDot mem).1.not_dotDot rfl
  have climbed : up (isRooted dir) (climb b) (names.reverse ++ List.replicate j dotDot) = _ :=
    up_names (by simpa using plain) root
  have stack : (components dir).reverse = names.reverse ++ List.replicate j dotDot := by simp [shape]
  rw [stack, climbed, List.length_reverse] at joined
  constructor
  · rintro ⟨-, more, nonempty, hm, e⟩
    rw [joined] at e
    by_cases few : climb b ≤ names.length
    · -- the names that were gone up by are the last ones of the directory
      rw [if_pos few, List.reverse_append, List.reverse_replicate, List.drop_reverse, List.reverse_reverse, shape,
        List.append_assoc, List.append_assoc, List.append_cancel_left_eq] at e
      refine ⟨names.drop (names.length - climb b), more, ?_, fun mem => plain (List.mem_of_mem_drop mem), nonempty, ?_, .inl ?_⟩
      · rw [shape]
        exact (List.drop_suffix _ _).trans (List.suffix_append _ _)
      · refine (List.append_right_inj (names.take (names.length - climb b))).1 ?_
        rw [e, ← List.append_assoc, List.take_append_drop]
      · rw [List.length_drop]
        omega
    · rw [if_neg few] at e
      cases fromRoot : isRooted dir with
      | true =>
        rw [fromRoot, if_pos rfl, List.reverse_nil, List.nil_append] at e
        obtain rfl := root fromRoot
        have only : components dir = names := by simpa using shape
        refine ⟨components dir, more, List.suffix_rfl, by rwa [only], nonempty, e, .inr ⟨rfl, rfl, ?_⟩⟩
        rw [only]
        omega
      | false =>
        -- one double dot more than the directory has would have to be among the names below it
        exfalso
        obtain ⟨d, hd'⟩ : ∃ d, climb b - names.length = d + 1 := ⟨climb b - names.length - 1, by omega⟩
        rw [fromRoot, if_neg (by simp), List.reverse_replicate, hd', shape, List.replicate_add, List.append_assoc,
          List.append_assoc, List.append_cancel_left_eq, List.replicate_succ, List.cons_append] at e
        have mem : dotDot ∈ names ++ more := by
          rw [← e]
          simp
        exact (List.mem_append.1 mem).elim plain hm
  · rintro ⟨back, more, ⟨front, suffix⟩, hb', nonempty, e, remainder⟩
    have hm : dotDot ∉ more := fun mem => fresh (by rw [e]; exact List.mem_append_right _ mem)
    refine ⟨rooted, more, nonempty, hm, ?_⟩
    rw [joined, e]
    have ends : back <:+ names := suffix_names ⟨front, suffix.trans shape⟩ hb'
    obtain ⟨kept, rfl⟩ := ends
    by_cases turned : back.length = climb b
    · have cut : (kept ++ back).length - back.length = kept.length := by simp
      rw [← turned, if_pos (by simp), List.reverse_append, List.reverse_replicate, List.drop_reverse,
        List.reverse_reverse, cut, List.take_left, shape]
      simp
    · obtain turned' | ⟨fromRoot, whole, le⟩ := remainder
      · exact absurd turned' turned
      · obtain rfl := root fromRoot
        have absent : kept = [] := by
          have := congrArg List.length (whole.trans shape)
          simp only [List.replicate_zero, List.nil_append, List.length_append] at this
          exact List.length_eq_zero_iff.1 (by omega)
        subst absent
        rw [List.nil_append, if_neg (by omega), if_pos fromRoot, whole]
        rfl

end Path

/-! ## Files of classes -/

/-- The name of the file that a class is written to: the descriptor without its first and last byte, and `.smali`. -/
def classFile (t : Descriptor) : Bytes :=
  (if 2 < t.name.length ∧ t.name.head? = some (byte 'L') then t.name.tail.dropLast else t.name) ++ ascii ".smali"

theorem classPath_eq (dir : Bytes) (t : Descriptor) : classPath dir t = Path.join [dir, classFile t] := rfl

/-- The file name of a class goes down by at least one name. -/
theorem descent_classFile (t : Descriptor) : Path.descent (classFile t) ≠ [] := by
  obtain ⟨front, last, -, e⟩ := Path.split_append_of_not_mem
    (if 2 < t.name.length ∧ t.name.head? = some (byte 'L') then t.name.tail.dropLast else t.name)
    (b := ascii ".smali") (by decide)
  have name : Path.IsName (last ++ ascii ".smali") := by
    have suffix : (ascii ".smali").length = 6 := by decide
    refine Path.isName_of_length ?_
    rw [List.length_append, suffix]
    omega
  have ends : Path.steps (classFile t) = (front.foldl (Path.push false) []).reverse ++ [last ++ ascii ".smali"] := by
    rw [Path.steps, classFile, e, List.foldl_append, List.foldl_cons, List.foldl_nil, Path.push_name name]
    simp
  intro absent
  have all := Path.steps_eq (classFile t)
  rw [absent, List.append_nil, ends] at all
  exact name.not_dotDot (List.eq_of_mem_replicate (n := Path.climb (classFile t)) (by rw [← all]; simp))

theorem classFile_ne_nil (t : Descriptor) : classFile t ≠ [] := by
  simp [classFile, ascii]

/-- The file of a class lies below the directory `dir` exactly if its file name, taken as a path, does not climb out
of `dir`, or climbs and comes back by the same names. From a rooted directory it climbs no higher than the root, and
if `dir` is empty the file name must not be rooted. -/
theorem classPath_below_iff (dir : Bytes) (t : Descriptor) :
    Path.Below dir (classPath dir t) ↔
      (dir = [] → Path.isRooted (classFile t) = false) ∧
      ∃ back more, back <:+ Path.components dir ∧ Path.dotDot ∉ back ∧ more ≠ [] ∧
        Path.descent (classFile t) = back ++ more ∧
        (back.length = Path.climb (classFile t) ∨
          (Path.isRooted dir = true ∧ back = Path.components dir ∧ back.length ≤ Path.climb (classFile t))) := by
  rw [classPath_eq]
  by_cases hd : dir = []
  · subst hd
    rw [Path.below_nil_iff (classFile_ne_nil t) (descent_classFile t)]
    constructor
    · rintro ⟨relative, flat⟩
      exact ⟨fun _ => relative, [], _, List.nil_suffix, by simp, descent_classFile t, rfl, .inl flat.symm⟩
    · rintro ⟨relative, back, more, suffix, -, -, -, remainder⟩
      obtain rfl := List.suffix_nil.1 suffix
      refine ⟨relative rfl, ?_⟩
      obtain flat | ⟨rooted, -⟩ := remainder
      · exact flat.symm
      · cases rooted
  · rw [Path.below_join_iff hd (classFile_ne_nil t)]
    exact ⟨fun h => ⟨fun e => absurd e hd, h⟩, And.right⟩

/-- The file of the class `L../../x;` does not lie below the directory `out`. -/
theorem classPath_below_iff_climbing : ¬ Path.Below (ascii "out") (classPath (ascii "out") ⟨ascii "L../../x;"⟩) := by
  rw [classPath_below_iff]
  rintro ⟨-, back, more, suffix, -, -, -, remainder⟩
  have dir : Path.components (ascii "out") = [ascii "out"] ∧ Path.isRooted (ascii "out") = false := by decide
  have climbs : Path.climb (classFile ⟨ascii "L../../x;"⟩) = 2 := by decide
  have short := suffix.length_le
  rw [dir.1, List.length_singleton] at short
  rw [dir.2, climbs] at remainder
  simp only [Bool.false_eq_true, false_and, or_false] at remainder
  omega

end Dalvik
