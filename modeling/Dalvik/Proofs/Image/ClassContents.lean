import Dalvik.Proofs.Image.Members

/-!
# Class data

Class data that was decoded is encoded as the bytes it was read from, before and after a refresh
(`refresh_of_decoded`). `refresh` of any edited class data succeeds unless an index occurs twice in
a group, and decoding the encoding then gives the same members, sorted by index
(`refresh_of_reached`).
-/

namespace Dalvik

variable {c c' : Cursor}

/-! ## The four tables -/

namespace Members

open MemberTable (Stored counted)

/-- The values of two functions on the fields and the methods of a group. -/
def collect {β : Type} (field : FieldMember → β) (method : MethodMember → β) (m : Members) : MemberGroup → List β
  | .staticField => m.staticFields.members.map field
  | .instanceField => m.instanceFields.members.map field
  | .directMethod => m.directMethods.members.map method
  | .virtualMethod => m.virtualMethods.members.map method

def indices : Members → MemberGroup → List Int := collect (·.index) (·.index)

def differences : Members → MemberGroup → List Int := collect (·.diff.get) (·.diff.get)

def entries : Members → MemberGroup → List MemberEntry := collect Member.entry Member.entry

/-- `P` holds of each of the four tables. -/
structure Each (P : {τ : Type} → [MemberTail τ] → [LawfulTail τ] → MemberTable τ → Prop) (m : Members) : Prop where
  staticFields : P m.staticFields
  instanceFields : P m.instanceFields
  directMethods : P m.directMethods
  virtualMethods : P m.virtualMethods

/-- The members of a group are those of one of the tables. -/
theorem Each.exists_table {P : {τ : Type} → [MemberTail τ] → [LawfulTail τ] → MemberTable τ → Prop} {m : Members}
    (h : m.Each P) (g : MemberGroup) :
    ∃ (τ : Type) (_ : MemberTail τ) (_ : LawfulTail τ) (t : MemberTable τ), P t ∧
      m.indices g = t.members.map (·.index) ∧ m.differences g = t.members.map (·.diff.get) ∧
      m.entries g = t.members.map Member.entry := by
  cases g with
  | staticField => exact ⟨_, _, _, m.staticFields, h.staticFields, rfl, rfl, rfl⟩
  | instanceField => exact ⟨_, _, _, m.instanceFields, h.instanceFields, rfl, rfl, rfl⟩
  | directMethod => exact ⟨_, _, _, m.directMethods, h.directMethods, rfl, rfl, rfl⟩
  | virtualMethod => exact ⟨_, _, _, m.virtualMethods, h.virtualMethods, rfl, rfl, rfl⟩

theorem bytes_eq (m : Members) :
    m.bytes = m.staticFields.countBytes ++ (m.instanceFields.countBytes ++ (m.directMethods.countBytes ++
      (m.virtualMethods.countBytes ++ (m.staticFields.pieces.flatten ++ (m.instanceFields.pieces.flatten ++
        (m.directMethods.pieces.flatten ++ m.virtualMethods.pieces.flatten)))))) := by
  simp [bytes, pieces]

/-- The table is one that `decode` can leave. -/
def Decoded {τ : Type} [MemberTail τ] [LawfulTail τ] (t : MemberTable τ) : Prop :=
  ∃ n ms, Stored n ms ∧ t = counted n ms

/-- Decoding succeeds exactly on the bytes of the class data it gives. -/
theorem gives_decode {m : Members} : (Members.decode c).Gives {} c' m ↔ m.Each Decoded ∧ c.Spans m.bytes c' := by
  rw [bytes_eq]
  simp only [decode, onStatic, onInstance, onDirect, onVirtual, Action.gives_bind, Action.gives_on]
  constructor
  · rintro ⟨c₁, _, ⟨t₁, h₁, rfl⟩, c₂, _, ⟨t₂, h₂, rfl⟩, c₃, _, ⟨t₃, h₃, rfl⟩, c₄, _, ⟨t₄, h₄, rfl⟩, c₅, _, ⟨u₁, h₅, rfl⟩,
      c₆, _, ⟨u₂, h₆, rfl⟩, c₇, _, ⟨u₃, h₇, rfl⟩, u₄, h₈, rfl⟩
    obtain ⟨n₁, r₁, s₁, rfl⟩ := Table.gives_decodeCount.1 h₁
    obtain ⟨n₂, r₂, s₂, rfl⟩ := Table.gives_decodeCount.1 h₂
    obtain ⟨n₃, r₃, s₃, rfl⟩ := Table.gives_decodeCount.1 h₃
    obtain ⟨n₄, r₄, s₄, rfl⟩ := Table.gives_decodeCount.1 h₄
    obtain ⟨⟨ms₁, st₁, rfl⟩, s₅⟩ := (MemberTable.gives_decode r₁).1 h₅
    obtain ⟨⟨ms₂, st₂, rfl⟩, s₆⟩ := (MemberTable.gives_decode r₂).1 h₆
    obtain ⟨⟨ms₃, st₃, rfl⟩, s₇⟩ := (MemberTable.gives_decode r₃).1 h₇
    obtain ⟨⟨ms₄, st₄, rfl⟩, s₈⟩ := (MemberTable.gives_decode r₄).1 h₈
    refine ⟨⟨⟨n₁, ms₁, st₁, rfl⟩, ⟨n₂, ms₂, st₂, rfl⟩, ⟨n₃, ms₃, st₃, rfl⟩, ⟨n₄, ms₄, st₄, rfl⟩⟩, ?_⟩
    exact Cursor.spans_append.2 ⟨c₁, s₁, Cursor.spans_append.2 ⟨c₂, s₂, Cursor.spans_append.2 ⟨c₃, s₃,
      Cursor.spans_append.2 ⟨c₄, s₄, Cursor.spans_append.2 ⟨c₅, s₅, Cursor.spans_append.2 ⟨c₆, s₆,
        Cursor.spans_append.2 ⟨c₇, s₇, s₈⟩⟩⟩⟩⟩⟩⟩
  · rintro ⟨⟨⟨n₁, ms₁, st₁, e₁⟩, ⟨n₂, ms₂, st₂, e₂⟩, ⟨n₃, ms₃, st₃, e₃⟩, ⟨n₄, ms₄, st₄, e₄⟩⟩, spans⟩
    obtain ⟨t₁, t₂, t₃, t₄⟩ := m
    dsimp only at e₁ e₂ e₃ e₄ spans
    subst e₁ e₂ e₃ e₄
    obtain ⟨c₁, s₁, spans⟩ := Cursor.spans_append.1 spans
    obtain ⟨c₂, s₂, spans⟩ := Cursor.spans_append.1 spans
    obtain ⟨c₃, s₃, spans⟩ := Cursor.spans_append.1 spans
    obtain ⟨c₄, s₄, spans⟩ := Cursor.spans_append.1 spans
    obtain ⟨c₅, s₅, spans⟩ := Cursor.spans_append.1 spans
    obtain ⟨c₆, s₆, spans⟩ := Cursor.spans_append.1 spans
    obtain ⟨c₇, s₇, s₈⟩ := Cursor.spans_append.1 spans
    exact ⟨c₁, _, ⟨_, Table.gives_decodeCount.2 ⟨n₁, st₁.count, s₁, rfl⟩, rfl⟩,
      c₂, _, ⟨_, Table.gives_decodeCount.2 ⟨n₂, st₂.count, s₂, rfl⟩, rfl⟩,
      c₃, _, ⟨_, Table.gives_decodeCount.2 ⟨n₃, st₃.count, s₃, rfl⟩, rfl⟩,
      c₄, _, ⟨_, Table.gives_decodeCount.2 ⟨n₄, st₄.count, s₄, rfl⟩, rfl⟩,
      c₅, _, ⟨_, (MemberTable.gives_decode st₁.count).2 ⟨⟨ms₁, st₁, rfl⟩, s₅⟩, rfl⟩,
      c₆, _, ⟨_, (MemberTable.gives_decode st₂.count).2 ⟨⟨ms₂, st₂, rfl⟩, s₆⟩, rfl⟩,
      c₇, _, ⟨_, (MemberTable.gives_decode st₃.count).2 ⟨⟨ms₃, st₃, rfl⟩, s₇⟩, rfl⟩,
      _, (MemberTable.gives_decode st₄.count).2 ⟨⟨ms₄, st₄, rfl⟩, s₈⟩, rfl⟩

end Members

namespace ClassContents

open MemberTable (Good)

variable {x d : ClassContents}

/-! ## What was read -/

theorem onGroup_self {g : MemberGroup}
    {act : {τ : Type} → [MemberTail τ] → Action (MemberTable τ × Option NoteDirectory) PUnit}
    {P : {τ : Type} → [MemberTail τ] → [LawfulTail τ] → MemberTable τ → Prop} (h : x.members.Each P)
    (still : ∀ {τ : Type} [MemberTail τ] [LawfulTail τ] (t : MemberTable τ) (notes : Option NoteDirectory),
      P t → act.Gives (t, notes) ⟨⟩ (t, notes)) : (onGroup g act).Gives x ⟨⟩ x := by
  have notes : (if x.linked then some x.notes else none).getD x.notes = x.notes := by split <;> rfl
  have whole : { x with notes := (if x.linked then some x.notes else none).getD x.notes } = x := by rw [notes]
  unfold onGroup
  cases g with
  | staticField => exact Action.gives_on.2 ⟨_, still _ _ h.staticFields, whole⟩
  | instanceField => exact Action.gives_on.2 ⟨_, still _ _ h.instanceFields, whole⟩
  | directMethod => exact Action.gives_on.2 ⟨_, still _ _ h.directMethods, whole⟩
  | virtualMethod => exact Action.gives_on.2 ⟨_, still _ _ h.virtualMethods, whole⟩

theorem gives_decode {notes : NoteDirectory} {linked : Bool} :
    (ClassContents.decode c).Gives { notes, linked } c' d ↔
      d.notes = notes ∧ d.linked = linked ∧ d.members.Each Members.Decoded ∧ c.Spans d.members.bytes c' := by
  rw [ClassContents.decode, Action.gives_on]
  constructor
  · rintro ⟨m, run, rfl⟩
    obtain ⟨decoded, spans⟩ := Members.gives_decode.1 run
    exact ⟨rfl, rfl, decoded, spans⟩
  · rintro ⟨rfl, rfl, decoded, spans⟩
    exact ⟨d.members, Members.gives_decode.2 ⟨decoded, spans⟩, rfl⟩

/-- Class data that was decoded is encoded as the bytes it was read from, and so it is after `refresh`, which
succeeds. In each group, an index is the sum of the differences up to it, and the indices are strictly increasing. -/
theorem refresh_of_decoded {notes : NoteDirectory} {linked : Bool}
    (run : (ClassContents.decode c).Gives { notes, linked } c' d) :
    c.Spans d.members.bytes c' ∧
      (∃ e, refresh.Gives d ⟨⟩ e ∧ c.Spans e.members.bytes c') ∧
      ∀ g, (∀ k i, (d.members.indices g)[k]? = some i → i = ((d.members.differences g).take (k + 1)).sum) ∧
        (d.members.indices g).Pairwise (· < ·) := by
  obtain ⟨-, -, decoded, spans⟩ := gives_decode.1 run
  have still : ∀ g, (onGroup g MemberTable.refresh).Gives d ⟨⟩ d := fun g =>
    onGroup_self decoded fun t notes h => by
      obtain ⟨n, ms, stored, rfl⟩ := h
      exact MemberTable.refresh_counted stored.length stored.chained stored.ascending notes
  have refreshed : refresh.Gives d ⟨⟩ d := by
    simp only [refresh, Action.gives_bind]
    exact ⟨_, _, still _, _, _, still _, _, _, still _, still _⟩
  refine ⟨spans, ⟨d, refreshed, spans⟩, fun g => ?_⟩
  obtain ⟨τ, _, _, t, ⟨n, ms, stored, rfl⟩, indices, differences, -⟩ := decoded.exists_table g
  rw [indices, differences, MemberTable.members_counted]
  refine ⟨fun k i found => ?_, List.pairwise_map.2 stored.ascending⟩
  rw [List.getElem?_map, Option.map_eq_some_iff] at found
  obtain ⟨m, hm, rfl⟩ := found
  rw [stored.chained.index_eq_sum hm, Int.zero_add, List.map_take]

/-- Class data whose numbers are encoded in more bytes than they need. -/
theorem refresh_of_decoded_overlong :
    let written : Bytes := [0x82, 0, 0, 1, 0, 0x83, 0, 1, 2, 0x89, 0x80, 0, 4, 1, 0x90, 0]
    let cur := Cursor.ofBytes (written ++ [0xff])
    ∃ d, (ClassContents.decode cur).Gives {} { cur with pos := 16 } d ∧
      cur.Spans d.members.bytes { cur with pos := 16 } ∧
        (∃ e, refresh.Gives d ⟨⟩ e ∧ cur.Spans e.members.bytes { cur with pos := 16 }) ∧
        ∀ g, (∀ k i, (d.members.indices g)[k]? = some i → i = ((d.members.differences g).take (k + 1)).sum) ∧
          (d.members.indices g).Pairwise (· < ·) := by
  intro written cur
  have read : (ClassContents.decode cur).Gives {} { cur with pos := 16 } ((ClassContents.decode cur).apply {}).2 :=
    Action.gives_of_toOption (by decide +kernel)
  exact ⟨_, read, refresh_of_decoded read⟩

/-! ## Edits -/

/-- An edit of the members of a class. A member is removed on its own or by its position. -/
inductive Edit where
  | ensure (g : MemberGroup) (index : Int)
  | push (g : MemberGroup) (index : Int)
  | setIndex (g : MemberGroup) (i index : Int)
  | setAccess (g : MemberGroup) (i access : Int)
  | setCodeOffset (g : MemberGroup) (i offset : Int)
  | removeAt (g : MemberGroup) (i : Int)
  | sort (g : MemberGroup)
  | refresh

/-- What an edit leaves, also if it fails. -/
def Edit.apply (x : ClassContents) : Edit → ClassContents
  | .ensure g index => ((ClassContents.ensure g index).apply x).2
  | .push g index => ((ClassContents.push g index).apply x).2
  | .setIndex g i index => ((ClassContents.setIndex g i index).apply x).2
  | .setAccess g i access => ((ClassContents.setAccess g i access).apply x).2
  | .setCodeOffset g i offset => ((ClassContents.setCodeOffset g i offset).apply x).2
  | .removeAt g i => ((ClassContents.removeAt g i).apply x).2
  | .sort g => ((ClassContents.sort g).apply x).2
  | .refresh => (ClassContents.refresh.apply x).2

/-- Class data that is new or decoded, and then edited and refreshed in any order. -/
inductive Reached : ClassContents → Prop where
  | fresh : Reached {}
  | decode {c c' : Cursor} {d : ClassContents} (run : (ClassContents.decode c).Gives {} c' d) : Reached d
  | edit {x : ClassContents} (e : Edit) : Reached x → Reached (e.apply x)

/-- The tables are well formed and not linked to a directory. -/
structure Kept (x : ClassContents) : Prop where
  unlinked : x.linked = false
  tables : x.members.Each Good

theorem Kept.onGroup (kept : Kept x) {β : Type} (g : MemberGroup)
    {act : {τ : Type} → [MemberTail τ] → Action (MemberTable τ × Option NoteDirectory) β}
    (keeps : ∀ {τ : Type} [MemberTail τ] [LawfulTail τ] (t : MemberTable τ), Good t → Good (act.apply (t, none)).2.1) :
    Kept ((onGroup g act).apply x).2 := by
  obtain ⟨unlinked, h⟩ := kept
  have notes : (if x.linked then some x.notes else none) = none := by rw [unlinked]; rfl
  unfold ClassContents.onGroup
  cases g
  all_goals
    refine ⟨unlinked, ?_⟩
    dsimp only
    rw [Action.apply_on]
    dsimp only
    rw [notes]
  · exact ⟨keeps _ h.staticFields, h.instanceFields, h.directMethods, h.virtualMethods⟩
  · exact ⟨h.staticFields, keeps _ h.instanceFields, h.directMethods, h.virtualMethods⟩
  · exact ⟨h.staticFields, h.instanceFields, keeps _ h.directMethods, h.virtualMethods⟩
  · exact ⟨h.staticFields, h.instanceFields, h.directMethods, keeps _ h.virtualMethods⟩

theorem Kept.changeAt (kept : Kept x) (g : MemberGroup) (i : Int) (f : {τ : Type} → [MemberTail τ] → Member τ → Member τ)
    (fair : ∀ {τ : Type} [MemberTail τ] [LawfulTail τ] (m : Member τ), m.Fair → (f m).Fair) :
    Kept ((onTable g do
      let t ← get
      let _ ← Table.elementAt t i
      set (Table.update t i f)).apply x).2 := by
  refine kept.onGroup g fun t good => ?_
  simp only [Action.apply_on, Action.apply_bind, Action.apply_get, Action.apply_lift]
  cases Table.elementAt t i with
  | error e => exact good
  | ok m => exact good.update fair i

theorem Kept.bind (kept : Kept x) {β : Type} {a : Action ClassContents β} {f : β → Action ClassContents PUnit}
    (first : ∀ {x : ClassContents}, Kept x → Kept (a.apply x).2)
    (continues : ∀ {x : ClassContents} (b : β), Kept x → Kept ((f b).apply x).2) : Kept ((a >>= f).apply x).2 := by
  have here := first kept
  rw [Action.apply_bind]
  rcases run : a.apply x with ⟨r, y⟩
  rw [run] at here
  cases r with
  | error e => exact here
  | ok b => exact continues b here

theorem Kept.refresh (kept : Kept x) : Kept (ClassContents.refresh.apply x).2 := by
  have group : ∀ (g : MemberGroup) {x : ClassContents}, Kept x →
      Kept ((ClassContents.onGroup g MemberTable.refresh).apply x).2 := fun g _ kept => kept.onGroup g fun t good => by
    rcases MemberTable.refresh_outcome good with ⟨u, run, refreshed⟩ | ⟨i, u, -, good, run⟩
    · rw [show MemberTable.refresh.apply (t, none) = _ from run]
      exact refreshed.good
    · rw [run]
      exact good
  exact kept.bind (group _) fun _ kept => kept.bind (group _) fun _ kept => kept.bind (group _) fun _ => group _

theorem Kept.edit (kept : Kept x) (e : Edit) : Kept (e.apply x) := by
  cases e with
  | ensure g index => exact kept.onGroup g fun t good => good.ensure index
  | push g index => exact kept.onGroup g fun t good => good.push index
  | setIndex g i index => exact kept.changeAt g i (fun m => { m with index }) fun m fair => ⟨fair.diff, fair.access, fair.tail⟩
  | setAccess g i access =>
    exact kept.changeAt g i (fun m => { m with access := m.access.set access })
      fun m fair => ⟨fair.diff, fair.access.set access, fair.tail⟩
  | setCodeOffset g i offset =>
    exact kept.changeAt g i (fun m => { m with tail := MemberTail.setOffset offset m.tail })
      fun m fair => ⟨fair.diff, fair.access, LawfulTail.fair_setOffset offset fair.tail⟩
  | removeAt g i =>
    refine kept.onGroup g fun t good => ?_
    simp only [Action.apply_bind, Action.apply_get, Action.apply_lift]
    cases run : MemberTable.removeAt t i none with
    | error e => exact good
    | ok r => exact good.removeAt run
  | sort g =>
    refine kept.onGroup g fun t good => ?_
    obtain ⟨moved, u, run, goodu, -, -⟩ := good.sort
    simp only [Action.apply_bind, Action.apply_get, Action.apply_lift, run]
    exact goodu
  | refresh => exact kept.refresh

theorem Reached.edits (reached : Reached x) (es : List Edit) : Reached (es.foldl Edit.apply x) := by
  induction es generalizing x with
  | nil => exact reached
  | cons e es ih => exact ih (.edit e reached)

theorem Reached.kept (reached : Reached x) : Kept x := by
  induction reached with
  | fresh =>
    have empty : ∀ {τ : Type} [MemberTail τ] [LawfulTail τ], Good (MemberTable.fresh : MemberTable τ) := by
      intro τ _ _
      exact MemberTable.good_counted (Uleb.fair_mk 0) (fun m hm => absurd hm List.not_mem_nil)
    exact ⟨rfl, empty, empty, empty, empty⟩
  | decode run =>
    obtain ⟨-, unlinked, decoded, -⟩ := gives_decode.1 run
    have good : ∀ {τ : Type} [MemberTail τ] [LawfulTail τ] {t : MemberTable τ}, Members.Decoded t → Good t := by
      rintro τ _ _ t ⟨n, ms, stored, rfl⟩
      exact MemberTable.good_counted stored.count.fair fun m hm => (stored.members m hm).fair
    exact ⟨unlinked, good decoded.staticFields, good decoded.instanceFields, good decoded.directMethods,
      good decoded.virtualMethods⟩
  | edit e _ kept => exact kept.edit e

/-! ## Refreshing what was edited -/

/-- Each table is the refreshed table. -/
structure Refreshed (x d : ClassContents) : Prop where
  staticFields : x.members.staticFields.Refreshed d.members.staticFields
  instanceFields : x.members.instanceFields.Refreshed d.members.instanceFields
  directMethods : x.members.directMethods.Refreshed d.members.directMethods
  virtualMethods : x.members.virtualMethods.Refreshed d.members.virtualMethods

theorem apply_refreshGroup {r : Except Stop PUnit} (unlinked : x.linked = false) :
    (∀ {t}, MemberTable.refresh.apply (x.members.staticFields, none) = (r, t, none) →
      (onGroup .staticField MemberTable.refresh).apply x =
        (r, { x with members := { x.members with staticFields := t } })) ∧
    (∀ {t}, MemberTable.refresh.apply (x.members.instanceFields, none) = (r, t, none) →
      (onGroup .instanceField MemberTable.refresh).apply x =
        (r, { x with members := { x.members with instanceFields := t } })) ∧
    (∀ {t}, MemberTable.refresh.apply (x.members.directMethods, none) = (r, t, none) →
      (onGroup .directMethod MemberTable.refresh).apply x =
        (r, { x with members := { x.members with directMethods := t } })) ∧
    (∀ {t}, MemberTable.refresh.apply (x.members.virtualMethods, none) = (r, t, none) →
      (onGroup .virtualMethod MemberTable.refresh).apply x =
        (r, { x with members := { x.members with virtualMethods := t } })) := by
  have notes : (if x.linked then some x.notes else none) = none := by rw [unlinked]; rfl
  unfold onGroup
  refine ⟨?_, ?_, ?_, ?_⟩
  all_goals
    intro t run
    dsimp only
    rw [Action.apply_on, notes, run]
    rfl

/-- `refresh` goes through the groups, up to the first in which an index occurs twice. -/
theorem refresh_outcome (kept : Kept x) :
    (∃ d, refresh.Gives x ⟨⟩ d ∧ Refreshed x d) ∨
    ∃ g i d, List.Duplicate i (x.members.indices g) ∧ refresh.apply x = (.error (.failure (.definedTwice i)), d) := by
  obtain ⟨unlinked, h₁, h₂, h₃, h₄⟩ := kept
  rcases MemberTable.refresh_outcome h₁ with ⟨t₁, run₁, r₁⟩ | ⟨i, t, twice, -, run⟩
  swap
  · exact .inr ⟨.staticField, i, _, twice, Action.apply_bind_of_error ((apply_refreshGroup unlinked).1 run)⟩
  let x₁ : ClassContents := { x with members := { x.members with staticFields := t₁ } }
  have first : (onGroup .staticField MemberTable.refresh).apply x = (.ok ⟨⟩, x₁) := (apply_refreshGroup unlinked).1 run₁
  rcases MemberTable.refresh_outcome h₂ with ⟨t₂, run₂, r₂⟩ | ⟨i, t, twice, -, run⟩
  swap
  · exact .inr ⟨.instanceField, i, _, twice, (Action.apply_bind_of_ok first).trans
      (Action.apply_bind_of_error ((apply_refreshGroup (x := x₁) unlinked).2.1 run))⟩
  let x₂ : ClassContents := { x₁ with members := { x₁.members with instanceFields := t₂ } }
  have second : (onGroup .instanceField MemberTable.refresh).apply x₁ = (.ok ⟨⟩, x₂) :=
    (apply_refreshGroup (x := x₁) unlinked).2.1 run₂
  rcases MemberTable.refresh_outcome h₃ with ⟨t₃, run₃, r₃⟩ | ⟨i, t, twice, -, run⟩
  swap
  · exact .inr ⟨.directMethod, i, _, twice, (Action.apply_bind_of_ok first).trans ((Action.apply_bind_of_ok second).trans
      (Action.apply_bind_of_error ((apply_refreshGroup (x := x₂) unlinked).2.2.1 run)))⟩
  let x₃ : ClassContents := { x₂ with members := { x₂.members with directMethods := t₃ } }
  have third : (onGroup .directMethod MemberTable.refresh).apply x₂ = (.ok ⟨⟩, x₃) :=
    (apply_refreshGroup (x := x₂) unlinked).2.2.1 run₃
  have run : ∀ r, (onGroup .virtualMethod MemberTable.refresh).apply x₃ = r → refresh.apply x = r := fun r last =>
    (Action.apply_bind_of_ok first).trans ((Action.apply_bind_of_ok second).trans ((Action.apply_bind_of_ok third).trans last))
  rcases MemberTable.refresh_outcome h₄ with ⟨t₄, run₄, r₄⟩ | ⟨i, t, twice, -, run₄⟩
  · exact .inl ⟨_, run _ ((apply_refreshGroup (x := x₃) unlinked).2.2.2 run₄), r₁, r₂, r₃, r₄⟩
  · exact .inr ⟨.virtualMethod, i, _, twice, run _ ((apply_refreshGroup (x := x₃) unlinked).2.2.2 run₄)⟩

/-- Decoding what a refresh made gives the same members. -/
theorem Refreshed.reads_back (refreshed : Refreshed x d)
    (inside : ∀ g, ∀ i ∈ x.members.indices g, 0 ≤ i ∧ i < 2 ^ 32) (countable : ∀ g, (x.members.indices g).length ≠ 2 ^ 32)
    (spans : c.Spans d.members.bytes c') :
    ∃ e, (ClassContents.decode c).Gives {} c' e ∧ ∀ g, e.members.entries g = d.members.entries g := by
  obtain ⟨n₁, ms₁, st₁, b₁, p₁, e₁⟩ := refreshed.staticFields.exists_stored (inside .staticField) (countable .staticField)
  obtain ⟨n₂, ms₂, st₂, b₂, p₂, e₂⟩ :=
    refreshed.instanceFields.exists_stored (inside .instanceField) (countable .instanceField)
  obtain ⟨n₃, ms₃, st₃, b₃, p₃, e₃⟩ := refreshed.directMethods.exists_stored (inside .directMethod) (countable .directMethod)
  obtain ⟨n₄, ms₄, st₄, b₄, p₄, e₄⟩ :=
    refreshed.virtualMethods.exists_stored (inside .virtualMethod) (countable .virtualMethod)
  let m : Members := ⟨.counted n₁ ms₁, .counted n₂ ms₂, .counted n₃ ms₃, .counted n₄ ms₄⟩
  have bytes : m.bytes = d.members.bytes := by
    rw [Members.bytes_eq, Members.bytes_eq, ← b₁, ← b₂, ← b₃, ← b₄, ← p₁, ← p₂, ← p₃, ← p₄]
  refine ⟨{ members := m }, gives_decode.2 ⟨rfl, rfl, ⟨⟨_, _, st₁, rfl⟩, ⟨_, _, st₂, rfl⟩, ⟨_, _, st₃, rfl⟩,
    ⟨_, _, st₄, rfl⟩⟩, bytes ▸ spans⟩, fun g => ?_⟩
  cases g with
  | staticField => exact (congrArg _ (MemberTable.members_counted _ _)).trans e₁
  | instanceField => exact (congrArg _ (MemberTable.members_counted _ _)).trans e₂
  | directMethod => exact (congrArg _ (MemberTable.members_counted _ _)).trans e₃
  | virtualMethod => exact (congrArg _ (MemberTable.members_counted _ _)).trans e₄

theorem Refreshed.entries (refreshed : Refreshed x d) (g : MemberGroup) :
    (d.members.entries g).Perm (x.members.entries g) ∧ (d.members.entries g).Pairwise fun a b => a.index < b.index := by
  cases g with
  | staticField => exact ⟨refreshed.staticFields.entries, List.pairwise_map.2 refreshed.staticFields.ascending⟩
  | instanceField => exact ⟨refreshed.instanceFields.entries, List.pairwise_map.2 refreshed.instanceFields.ascending⟩
  | directMethod => exact ⟨refreshed.directMethods.entries, List.pairwise_map.2 refreshed.directMethods.ascending⟩
  | virtualMethod => exact ⟨refreshed.virtualMethods.entries, List.pairwise_map.2 refreshed.virtualMethods.ascending⟩

theorem Refreshed.nodup (refreshed : Refreshed x d) (g : MemberGroup) : (x.members.indices g).Nodup := by
  cases g with
  | staticField => exact refreshed.staticFields.nodup_indices
  | instanceField => exact refreshed.instanceFields.nodup_indices
  | directMethod => exact refreshed.directMethods.nodup_indices
  | virtualMethod => exact refreshed.virtualMethods.nodup_indices

/-- For class data that was reached by any edits: `refresh` succeeds if no index occurs twice in a group, and
otherwise fails with the name of an index that does. If it succeeds, and the indices are 32-bit numbers, decoding the
encoding, with any bytes behind it, gives the same members sorted by index. (A group of exactly 2^32 members is
excluded, since its count is 0.) -/
theorem refresh_of_reached (reached : Reached x) :
    ((∀ g, (x.members.indices g).Nodup) → ∃ d, refresh.Gives x ⟨⟩ d) ∧
    ((∃ g, ¬ (x.members.indices g).Nodup) → ∃ g i d, List.Duplicate i (x.members.indices g) ∧
      refresh.apply x = (.error (.failure (.definedTwice i)), d)) ∧
    ∀ d, refresh.Gives x ⟨⟩ d → (∀ g, ∀ i ∈ x.members.indices g, 0 ≤ i ∧ i < 2 ^ 32) →
      (∀ g, (x.members.indices g).length ≠ 2 ^ 32) → ∀ c c', c.Spans d.members.bytes c' →
        ∃ e, (ClassContents.decode c).Gives {} c' e ∧ ∀ g, e.members.entries g = d.members.entries g ∧
          (e.members.entries g).Perm (x.members.entries g) ∧
          (e.members.entries g).Pairwise fun a b => a.index < b.index := by
  have outcome := refresh_outcome reached.kept
  refine ⟨fun nodup => ?_, ?_, fun d run inside countable c c' spans => ?_⟩
  · rcases outcome with ⟨d, run, -⟩ | ⟨g, i, d, twice, -⟩
    · exact ⟨d, run⟩
    · exact absurd (nodup g) (List.exists_duplicate_iff_not_nodup.1 ⟨i, twice⟩)
  · rintro ⟨g, repeats⟩
    rcases outcome with ⟨d, -, refreshed⟩ | failure
    · exact absurd (refreshed.nodup g) repeats
    · exact failure
  · rcases outcome with ⟨e, run', refreshed⟩ | ⟨g, i, e, -, run'⟩
    · obtain ⟨-, rfl⟩ := run.unique run'
      obtain ⟨e, read, entries⟩ := refreshed.reads_back inside countable spans
      exact ⟨e, read, fun g => ⟨entries g, by rw [entries]; exact refreshed.entries g⟩⟩
    · rw [Action.Gives, run'] at run
      cases run

/-- Fields that are not sorted and a method, and then an index that occurs twice. -/
theorem refresh_of_reached_edited :
    let cur := Cursor.ofBytes [0x82, 0, 0, 1, 0, 3, 1, 2, 9, 4, 1, 0x90, 0]
    let x := [Edit.setIndex .staticField 0 9, .push .directMethod 0, .setCodeOffset .directMethod 1 300,
      .ensure .instanceField 4294967295].foldl Edit.apply ((ClassContents.decode cur).apply {}).2
    (∃ d, refresh.Gives x ⟨⟩ d ∧ ∃ e, (ClassContents.decode (Cursor.ofBytes (d.members.bytes ++ [0xff]))).Gives {}
      { Cursor.ofBytes (d.members.bytes ++ [0xff]) with pos := 0 + d.members.bytes.length } e ∧
        ∀ g, e.members.entries g = d.members.entries g ∧ (e.members.entries g).Perm (x.members.entries g) ∧
          (e.members.entries g).Pairwise fun a b => a.index < b.index) ∧
    ∃ g i d, List.Duplicate i (((Edit.push .staticField 5).apply x).members.indices g) ∧
      refresh.apply ((Edit.push .staticField 5).apply x) = (.error (.failure (.definedTwice i)), d) := by
  intro cur x
  have read : (ClassContents.decode cur).Gives {} { cur with pos := 13 } ((ClassContents.decode cur).apply {}).2 :=
    Action.gives_of_toOption (by decide +kernel)
  have reached : Reached x := (Reached.decode read).edits _
  constructor
  · obtain ⟨success, -, reads⟩ := refresh_of_reached reached
    obtain ⟨d, run⟩ := success fun g => by cases g <;> decide +kernel
    refine ⟨d, run, reads d run (fun g => by cases g <;> decide +kernel) (fun g => by cases g <;> decide +kernel)
      _ _ ⟨?_, rfl⟩⟩
    exact ⟨[0xff], by simp [Cursor.ofBytes]⟩
  · obtain ⟨-, failure, -⟩ := refresh_of_reached (reached.edit (.push .staticField 5))
    exact failure ⟨.staticField, by decide +kernel⟩

end ClassContents

end Dalvik
