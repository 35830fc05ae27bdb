import Dalvik.Proofs.Prototype
import Mathlib.Data.List.Nodup

/-!
# What a pool keeps

`p.entries kind` is the section of a pool for a kind of constants, and `k ∈ p` says that `k` is in
the section of its kind. `intern k` puts the `parts` of `k` into the pool one after the other
(`intern_eq_ok`), and putting a constant in either changes nothing or adds it at the end of its
section. So an index never changes, no constant is in a section twice, and with each constant its
parts are in the pool (`internAll_sound`).
-/

namespace Dalvik

open Dalvik.Action (except_bind_eq_ok)

/-! ## What constants are made of -/

/-- The return type and the parameters are valid descriptors. -/
def Prototype.WellFormed (p : Prototype) : Prop :=
  Descriptor.isValid p.result.name ∧
    ∃ ts : List Descriptor, (∀ t ∈ ts, Descriptor.isValid t.name) ∧ p = Prototype.of p.result ts

theorem Prototype.WellFormed.parameters {p : Prototype} (h : p.WellFormed) : ∃ ts, p.parameters = .ok ts := by
  obtain ⟨-, ts, valid, e⟩ := h
  refine ⟨ts, ?_⟩
  rw [Prototype.parameters, e, Prototype.of, Prototype.split_flatMap valid]

namespace Constant

/-- The constant is of a kind that has a section, and every descriptor in it is valid. -/
def WellFormed : Constant → Prop
  | .string _ => True
  | .type t => Descriptor.isValid t.name
  | .proto p => p.WellFormed
  | .field f => Descriptor.isValid f.owner.name ∧ Descriptor.isValid f.type.name
  | .method m => Descriptor.isValid m.owner.name ∧ m.proto.WellFormed
  | _ => False

/-- Whether constants of this kind have a section. -/
def HasSection : Constant → Prop
  | .string _ | .type _ | .proto _ | .field _ | .method _ => True
  | _ => False

/-- A type and the string with its name. -/
def typeParts (t : Descriptor) : List Constant := [.string t.name, .type t]

/-- A prototype's shorty and types, each with its string; fails if the parameters cannot be split. -/
def protoParts (p : Prototype) : Except Stop (List Constant) := do
  return .string (← p.shorty) :: (← p.types).flatMap typeParts ++ [.proto p]

/-- All constants that have to be in a pool along with a constant, the constant itself last. -/
def parts : Constant → Except Stop (List Constant)
  | .string s => .ok [.string s]
  | .type t => .ok (typeParts t)
  | .proto p => protoParts p
  | .field f => .ok (typeParts f.owner ++ .string f.name :: typeParts f.type ++ [.field f])
  | .method m => do return typeParts m.owner ++ .string m.name :: (← protoParts m.proto) ++ [.method m]
  | _ => .ok []

variable {k d : Constant} {ks : List Constant}

theorem protoParts_eq_ok {p : Prototype} :
    protoParts p = .ok ks ↔
      ∃ s ts, p.shorty = .ok s ∧ p.types = .ok ts ∧ ks = .string s :: ts.flatMap typeParts ++ [.proto p] := by
  unfold protoParts
  constructor
  · intro h
    obtain ⟨s, hs, h⟩ := except_bind_eq_ok.1 h
    obtain ⟨ts, hts, h⟩ := except_bind_eq_ok.1 h
    cases h
    exact ⟨s, ts, hs, hts, rfl⟩
  · rintro ⟨s, ts, hs, hts, rfl⟩
    rw [hs, hts]
    rfl

theorem method_parts_eq_ok {m : MethodRef} :
    parts (.method m) = .ok ks ↔
      ∃ inner, protoParts m.proto = .ok inner ∧ ks = typeParts m.owner ++ .string m.name :: inner ++ [.method m] := by
  rw [parts, except_bind_eq_ok]
  constructor
  · rintro ⟨inner, h, e⟩
    cases e
    exact ⟨inner, h, rfl⟩
  · rintro ⟨inner, h, rfl⟩
    exact ⟨inner, h, rfl⟩

theorem mem_typeParts {t : Descriptor} : d ∈ typeParts t ↔ d = .string t.name ∨ d = .type t := by
  simp [typeParts]

theorem mem_parts_self (hk : k.HasSection) (h : k.parts = .ok ks) : k ∈ ks := by
  cases k with
  | string s => cases h; simp
  | type t => cases h; simp [typeParts]
  | proto p =>
    obtain ⟨s, ts, -, -, rfl⟩ := protoParts_eq_ok.1 h
    simp
  | field f => cases h; simp
  | method m =>
    obtain ⟨inner, -, rfl⟩ := method_parts_eq_ok.1 h
    simp
  | _ => exact hk.elim

theorem hasSection_of_mem_typeParts {t : Descriptor} (hd : d ∈ typeParts t) : d.HasSection := by
  rcases mem_typeParts.1 hd with rfl | rfl <;> trivial

theorem hasSection_of_mem_protoParts {p : Prototype} (h : protoParts p = .ok ks) (hd : d ∈ ks) : d.HasSection := by
  obtain ⟨s, ts, -, -, rfl⟩ := protoParts_eq_ok.1 h
  simp only [List.mem_append, List.mem_cons, List.mem_flatMap, List.not_mem_nil, or_false] at hd
  rcases hd with (rfl | ⟨t, -, hd⟩) | rfl
  · trivial
  · exact hasSection_of_mem_typeParts hd
  · trivial

theorem hasSection_of_mem_parts (h : k.parts = .ok ks) (hd : d ∈ ks) : d.HasSection := by
  cases k with
  | string s =>
    cases h
    rw [List.mem_singleton.1 hd]
    trivial
  | type t =>
    cases h
    exact hasSection_of_mem_typeParts hd
  | proto p => exact hasSection_of_mem_protoParts h hd
  | field f =>
    cases h
    simp only [List.mem_append, List.mem_cons, List.not_mem_nil, or_false] at hd
    rcases hd with (hd | rfl | hd) | rfl
    · exact hasSection_of_mem_typeParts hd
    · trivial
    · exact hasSection_of_mem_typeParts hd
    · trivial
  | method m =>
    obtain ⟨inner, hinner, rfl⟩ := method_parts_eq_ok.1 h
    simp only [List.mem_append, List.mem_cons, List.not_mem_nil, or_false] at hd
    rcases hd with (hd | rfl | hd) | rfl
    · exact hasSection_of_mem_typeParts hd
    · trivial
    · exact hasSection_of_mem_protoParts hinner hd
    · trivial
  | _ =>
    cases h
    cases hd

theorem parts_of_mem_typeParts {t : Descriptor} (hd : d ∈ typeParts t) : ∃ ds, d.parts = .ok ds ∧ ds ⊆ typeParts t := by
  rcases mem_typeParts.1 hd with rfl | rfl
  · exact ⟨_, rfl, by simp [typeParts]⟩
  · exact ⟨_, rfl, List.Subset.refl _⟩

theorem parts_of_mem_protoParts {p : Prototype} (h : protoParts p = .ok ks) (hd : d ∈ ks) :
    ∃ ds, d.parts = .ok ds ∧ ds ⊆ ks := by
  have e := h
  obtain ⟨s, ts, -, -, rfl⟩ := protoParts_eq_ok.1 h
  simp only [List.mem_append, List.mem_cons, List.mem_flatMap, List.not_mem_nil, or_false] at hd
  rcases hd with (rfl | ⟨t, ht, hd⟩) | rfl
  · exact ⟨_, rfl, by simp⟩
  · obtain ⟨ds, hds, sub⟩ := parts_of_mem_typeParts hd
    refine ⟨ds, hds, fun x hx => ?_⟩
    simp only [List.mem_append, List.mem_cons, List.mem_flatMap]
    exact .inl (.inr ⟨t, ht, sub hx⟩)
  · exact ⟨_, e, List.Subset.refl _⟩

theorem parts_trans (h : k.parts = .ok ks) (hd : d ∈ ks) : ∃ ds, d.parts = .ok ds ∧ ds ⊆ ks := by
  cases k with
  | string s =>
    cases h
    rw [List.mem_singleton.1 hd]
    exact ⟨_, rfl, List.Subset.refl _⟩
  | type t =>
    cases h
    exact parts_of_mem_typeParts hd
  | proto p => exact parts_of_mem_protoParts h hd
  | field f =>
    have e := h
    cases h
    simp only [List.mem_append, List.mem_cons, List.not_mem_nil, or_false] at hd
    rcases hd with (hd | rfl | hd) | rfl
    · obtain ⟨ds, hds, sub⟩ := parts_of_mem_typeParts hd
      exact ⟨ds, hds, fun x hx => by simp [sub hx]⟩
    · exact ⟨_, rfl, by simp⟩
    · obtain ⟨ds, hds, sub⟩ := parts_of_mem_typeParts hd
      exact ⟨ds, hds, fun x hx => by simp [sub hx]⟩
    · exact ⟨_, e, List.Subset.refl _⟩
  | method m =>
    have e := h
    obtain ⟨inner, hinner, rfl⟩ := method_parts_eq_ok.1 h
    simp only [List.mem_append, List.mem_cons, List.not_mem_nil, or_false] at hd
    rcases hd with (hd | rfl | hd) | rfl
    · obtain ⟨ds, hds, sub⟩ := parts_of_mem_typeParts hd
      exact ⟨ds, hds, fun x hx => by simp [sub hx]⟩
    · exact ⟨_, rfl, by simp⟩
    · obtain ⟨ds, hds, sub⟩ := parts_of_mem_protoParts hinner hd
      exact ⟨ds, hds, fun x hx => by simp [sub hx]⟩
    · exact ⟨_, e, List.Subset.refl _⟩
  | _ =>
    cases h
    cases hd

theorem WellFormed.hasSection (hk : k.WellFormed) : k.HasSection := by
  cases k <;> trivial

/-- The parts of a well-formed constant can be found: its parameters can be split. -/
theorem WellFormed.exists_parts (hk : k.WellFormed) : ∃ ks, k.parts = .ok ks := by
  have inner : ∀ {p : Prototype}, p.WellFormed → ∃ ks, protoParts p = .ok ks := by
    intro p hp
    obtain ⟨ts, hts⟩ := hp.parameters
    exact ⟨_, protoParts_eq_ok.2 ⟨_, _, except_bind_eq_ok.2 ⟨ts, hts, rfl⟩, except_bind_eq_ok.2 ⟨ts, hts, rfl⟩, rfl⟩⟩
  cases k with
  | proto p => exact inner hk
  | method m =>
    obtain ⟨ks, hks⟩ := inner hk.2
    exact ⟨_, method_parts_eq_ok.2 ⟨ks, hks, rfl⟩⟩
  | _ => exact ⟨_, rfl⟩

end Constant

namespace Pool

open Constant (HasSection)

variable {p q r : Pool} {k e : Constant} {ks : List Constant} {kind : Kind} {i : Int}

/-! ## Sections -/

/-- `k ∈ p`: `k` is in the section of its kind. -/
instance : Membership Constant Pool where
  mem p k := k ∈ p.entries k.kind

theorem mem_def : k ∈ p ↔ k ∈ p.entries k.kind := Iff.rfl

theorem kind_of_mem_entries (h : k ∈ p.entries kind) : k.kind = kind := by
  cases kind <;> simp only [entries, List.mem_map, List.not_mem_nil] at h
  all_goals
    obtain ⟨x, -, rfl⟩ := h
    rfl

theorem mem_of_mem_entries (h : k ∈ p.entries kind) : k ∈ p := by
  rw [mem_def, kind_of_mem_entries h]
  exact h

theorem hasSection_of_mem (h : k ∈ p) : k.HasSection := by
  rw [mem_def] at h
  cases k with
  | raw kind i =>
    cases kind <;> simp [Constant.kind, entries] at h
  | literal _ => simp [Constant.kind, entries] at h
  | null => simp [Constant.kind, entries] at h
  | _ => trivial

theorem size_eq_length (p : Pool) (kind : Kind) : p.size kind = (p.entries kind).length := by
  cases kind <;> simp [size, entries]

theorem nth?_eq_some {α : Type} {xs : Array α} {x : α} :
    nth? xs i = some x ↔ ∃ n : Nat, i = n ∧ xs.toList[n]? = some x := by
  unfold nth?
  constructor
  · intro h
    split at h
    · cases h
    · exact ⟨i.toNat, by omega, by simpa using h⟩
  · rintro ⟨n, rfl, h⟩
    simpa using h

/-- `lookup` finds a constant at its position in the section. -/
theorem lookup_eq_ok : p.lookup kind i = .ok k ↔ ∃ n : Nat, i = n ∧ (p.entries kind)[n]? = some k := by
  have resolved : ∀ {α : Type} (xs : Array α) (make : α → Constant) (f : Except Stop α),
      (∀ x, f = .ok x ↔ nth? xs i = some x) →
        ((do return make (← f)) = Except.ok k ↔ ∃ n : Nat, i = n ∧ (xs.toList.map make)[n]? = some k) := by
    intro α xs make f hf
    rw [except_bind_eq_ok]
    constructor
    · rintro ⟨x, hx, h⟩
      cases h
      obtain ⟨n, hn, found⟩ := nth?_eq_some.1 ((hf x).1 hx)
      exact ⟨n, hn, by rw [List.getElem?_map, found, Option.map_some]⟩
    · rintro ⟨n, hn, found⟩
      rw [List.getElem?_map] at found
      obtain ⟨x, hx, rfl⟩ := Option.map_eq_some_iff.1 found
      exact ⟨x, (hf x).2 (nth?_eq_some.2 ⟨n, hn, hx⟩), rfl⟩
  cases kind with
  | string => exact resolved _ _ _ fun _ => resolve_eq_ok
  | type => exact resolved _ _ _ fun _ => resolve_eq_ok
  | proto => exact resolved _ _ _ fun _ => resolve_eq_ok
  | field => exact resolved _ _ _ fun _ => resolve_eq_ok
  | method => exact resolved _ _ _ fun _ => resolve_eq_ok
  | _ => simp [lookup, entries, resolve, fail]

theorem idxOf?_map {α : Type} [BEq α] [LawfulBEq α] {make : α → Constant} (inj : ∀ x y, make x = make y → x = y) (xs : List α)
    (x : α) : (xs.map make).idxOf? (make x) = xs.idxOf? x := by
  induction xs with
  | nil => rfl
  | cons y xs ih =>
    rw [List.map_cons, List.idxOf?_cons, List.idxOf?_cons, ih]
    by_cases h : y = x
    · simp [h]
    · have : make y ≠ make x := fun e => h (inj y x e)
      simp [h, this]

/-- `indexOf?` is the first position of the constant in its section. -/
theorem indexOf?_eq (hk : k.HasSection) : p.indexOf? k = ((p.entries k.kind).idxOf? k).map Int.ofNat := by
  obtain ⟨⟨strings⟩, ⟨types⟩, ⟨protos⟩, ⟨fields⟩, ⟨methods⟩⟩ := p
  cases k with
  | string s => rw [indexOf?, List.idxOf?_toArray, Constant.kind, entries, idxOf?_map (by simp)]
  | type t => rw [indexOf?, List.idxOf?_toArray, Constant.kind, entries, idxOf?_map (by simp)]
  | proto m => rw [indexOf?, List.idxOf?_toArray, Constant.kind, entries, idxOf?_map (by simp)]
  | field f => rw [indexOf?, List.idxOf?_toArray, Constant.kind, entries, idxOf?_map (by simp)]
  | method m => rw [indexOf?, List.idxOf?_toArray, Constant.kind, entries, idxOf?_map (by simp)]
  | _ => exact hk.elim

theorem indexOf?_eq_some (hk : k.HasSection) :
    p.indexOf? k = some i ↔ ∃ n : Nat, i = n ∧ (p.entries k.kind).idxOf? k = some n := by
  rw [indexOf?_eq hk]
  constructor
  · intro h
    obtain ⟨n, hn, rfl⟩ := Option.map_eq_some_iff.1 h
    exact ⟨n, rfl, hn⟩
  · rintro ⟨n, rfl, h⟩
    rw [h]
    rfl

/-- `lookup` at the index of a constant gives the constant. -/
theorem lookup_of_indexOf? (hk : k.HasSection) (h : p.indexOf? k = some i) : p.lookup k.kind i = .ok k := by
  obtain ⟨n, rfl, found⟩ := (indexOf?_eq_some hk).1 h
  obtain ⟨lt, e, -⟩ := List.idxOf?_eq_some_iff.1 found
  exact lookup_eq_ok.2 ⟨n, rfl, by rw [List.getElem?_eq_getElem lt, e]⟩

/-- `indexOf?` gives the first of all indices at which `lookup` finds the constant. -/
theorem indexOf?_le_of_lookup {j : Int} (hk : k.HasSection) (h : p.indexOf? k = some i) (found : p.lookup k.kind j = .ok k) :
    i ≤ j := by
  obtain ⟨n, rfl, first⟩ := (indexOf?_eq_some hk).1 h
  obtain ⟨m, rfl, located⟩ := lookup_eq_ok.1 found
  obtain ⟨lt, e⟩ := List.getElem?_eq_some_iff.1 located
  obtain ⟨_, -, before⟩ := List.idxOf?_eq_some_iff.1 first
  by_contra less
  exact before m (by omega) e

/-! ## Putting one constant in -/

/-- The pool with `k` at the end of its section, unless it is there already. -/
def put (p : Pool) : Constant → Pool
  | .string s => { p with strings := (addTo p.strings s).2 }
  | .type t => { p with types := (addTo p.types t).2 }
  | .proto k => { p with protos := (addTo p.protos k).2 }
  | .field f => { p with fields := (addTo p.fields f).2 }
  | .method m => { p with methods := (addTo p.methods m).2 }
  | _ => p

theorem addTo_of_mem {α : Type} [DecidableEq α] {xs : Array α} {x : α} (h : x ∈ xs) : (addTo xs x).2 = xs := by
  unfold addTo
  split
  · rfl
  · next none => exact (Array.idxOf?_eq_none_iff.1 none h).elim

theorem addTo_of_not_mem {α : Type} [DecidableEq α] {xs : Array α} {x : α} (h : x ∉ xs) :
    addTo xs x = (xs.size, xs.push x) := by
  rw [addTo, Array.idxOf?_eq_none_iff.2 h]

/-- `addTo` returns the index at which the element then is. -/
theorem idxOf?_addTo {α : Type} [DecidableEq α] [beq : BEq α] [LawfulBEq α] (xs : Array α) (x : α) :
    (addTo xs x).2.idxOf? x = some (addTo xs x).1 := by
  obtain rfl : beq = instBEqOfDecidableEq := lawful_beq_subsingleton _ _
  by_cases h : x ∈ xs
  · unfold addTo
    split
    · next i found => exact found
    · next none => exact (Array.idxOf?_eq_none_iff.1 none h).elim
  · obtain ⟨xs⟩ := xs
    rw [addTo_of_not_mem h, List.push_toArray, List.idxOf?_toArray, List.idxOf?_eq_some_iff]
    refine ⟨by simp, by simp, fun j hj e => h ?_⟩
    simp only [List.size_toArray] at hj
    rw [List.getElem_append_left hj] at e
    rw [← e, List.mem_toArray]
    exact List.getElem_mem hj

theorem put_of_mem (h : k ∈ p) : p.put k = p := by
  have listed : ∀ {α : Type} {xs : Array α} {make : α → Constant} {x : α}, (∀ x y, make x = make y → x = y) →
      make x ∈ xs.toList.map make → x ∈ xs := by
    intro α xs make x inj h
    obtain ⟨y, hy, e⟩ := List.mem_map.1 h
    rw [inj y x e] at hy
    exact Array.mem_toList_iff.1 hy
  have sectioned := hasSection_of_mem h
  cases k with
  | string s => rw [put, addTo_of_mem (listed (by simp) h)]
  | type s => rw [put, addTo_of_mem (listed (by simp) h)]
  | proto s => rw [put, addTo_of_mem (listed (by simp) h)]
  | field s => rw [put, addTo_of_mem (listed (by simp) h)]
  | method s => rw [put, addTo_of_mem (listed (by simp) h)]
  | _ => exact sectioned.elim

/-- Putting in a new constant adds it at the end of its section and leaves the other sections as they are. -/
theorem entries_put_of_not_mem (hk : k.HasSection) (h : k ∉ p) (kind : Kind) :
    (p.put k).entries kind = p.entries kind ++ if kind = k.kind then [k] else [] := by
  have unlisted : ∀ {α : Type} [DecidableEq α] {xs : Array α} {make : α → Constant} {x : α},
      make x ∉ xs.toList.map make → (addTo xs x).2.toList.map make = xs.toList.map make ++ [make x] := by
    intro α _ xs make x h
    rw [addTo_of_not_mem fun m => h (List.mem_map_of_mem (Array.mem_toList_iff.2 m)), Array.toList_push, List.map_append,
      List.map_singleton]
  cases k with
  | string s => cases kind <;> simp [put, entries, Constant.kind, unlisted h]
  | type s => cases kind <;> simp [put, entries, Constant.kind, unlisted h]
  | proto s => cases kind <;> simp [put, entries, Constant.kind, unlisted h]
  | field s => cases kind <;> simp [put, entries, Constant.kind, unlisted h]
  | method s => cases kind <;> simp [put, entries, Constant.kind, unlisted h]
  | _ => exact hk.elim

theorem entries_put (hk : k.HasSection) (kind : Kind) :
    (p.put k).entries kind = p.entries kind ∨ (kind = k.kind ∧ k ∉ p ∧ (p.put k).entries kind = p.entries kind ++ [k]) := by
  by_cases h : k ∈ p
  · rw [put_of_mem h]
    exact .inl rfl
  · rw [entries_put_of_not_mem hk h]
    by_cases same : kind = k.kind
    · rw [if_pos same]
      exact .inr ⟨same, h, rfl⟩
    · rw [if_neg same, List.append_nil]
      exact .inl rfl

theorem mem_put (hk : k.HasSection) : e ∈ p.put k ↔ e ∈ p ∨ e = k := by
  by_cases h : k ∈ p
  · rw [put_of_mem h]
    exact ⟨.inl, fun he => he.elim id fun same => same ▸ h⟩
  · rw [mem_def, entries_put_of_not_mem hk h, List.mem_append, mem_def]
    by_cases same : e.kind = k.kind
    · simp [same]
    · have : e ≠ k := fun h => same (by rw [h])
      simp [same, this]

/-! ## Growth -/

/-- Every section of `p` is the beginning of the section of `q`. -/
def Extends (p q : Pool) : Prop := ∀ kind, p.entries kind <+: q.entries kind

theorem Extends.refl (p : Pool) : p.Extends p := fun _ => List.prefix_rfl

theorem Extends.trans (h : p.Extends q) (h' : q.Extends r) : p.Extends r := fun kind => (h kind).trans (h' kind)

theorem Extends.mem (h : p.Extends q) (he : e ∈ p) : e ∈ q := (h e.kind).subset he

theorem Extends.lookup (h : p.Extends q) (found : p.lookup kind i = .ok e) : q.lookup kind i = .ok e := by
  obtain ⟨n, rfl, located⟩ := lookup_eq_ok.1 found
  obtain ⟨rest, more⟩ := h kind
  refine lookup_eq_ok.2 ⟨n, rfl, ?_⟩
  rw [← more, List.getElem?_append_left (List.getElem?_eq_some_iff.1 located).1, located]

theorem extends_put (hk : k.HasSection) : p.Extends (p.put k) := by
  intro kind
  rcases entries_put (p := p) hk kind with same | ⟨-, -, more⟩
  · simp only [same, List.prefix_rfl]
  · simp only [more, List.prefix_append]

/-- No section has a constant twice. -/
def Distinct (p : Pool) : Prop := ∀ kind, (p.entries kind).Nodup

theorem Distinct.put (hp : p.Distinct) (hk : k.HasSection) : (p.put k).Distinct := by
  intro kind
  rcases entries_put (p := p) hk kind with same | ⟨rfl, new, more⟩
  · rw [same]
    exact hp kind
  · rw [more]
    refine List.nodup_append.2 ⟨hp _, List.pairwise_singleton _ k, ?_⟩
    rintro x hx y hy rfl
    rw [List.mem_singleton] at hy
    exact new (hy ▸ hx)

/-! ## Putting several constants in -/

theorem extends_puts (hks : ∀ k ∈ ks, k.HasSection) : p.Extends (ks.foldl put p) := by
  induction ks generalizing p with
  | nil => exact .refl p
  | cons k ks ih =>
    exact (extends_put (hks k List.mem_cons_self)).trans (ih fun d hd => hks d (List.mem_cons_of_mem k hd))

theorem Distinct.puts (hp : p.Distinct) (hks : ∀ k ∈ ks, k.HasSection) : (ks.foldl Pool.put p).Distinct := by
  induction ks generalizing p with
  | nil => exact hp
  | cons k ks ih => exact ih (hp.put (hks k List.mem_cons_self)) fun d hd => hks d (List.mem_cons_of_mem k hd)

theorem mem_puts (hks : ∀ k ∈ ks, k.HasSection) : e ∈ ks.foldl put p ↔ e ∈ p ∨ e ∈ ks := by
  induction ks generalizing p with
  | nil => simp
  | cons k ks ih =>
    rw [List.foldl_cons, ih fun d hd => hks d (List.mem_cons_of_mem k hd), mem_put (hks k List.mem_cons_self), List.mem_cons,
      or_assoc]

theorem puts_of_mem (h : ∀ k ∈ ks, k ∈ p) : ks.foldl put p = p := by
  induction ks with
  | nil => rfl
  | cons k ks ih =>
    rw [List.foldl_cons, put_of_mem (h k List.mem_cons_self)]
    exact ih fun d hd => h d (List.mem_cons_of_mem k hd)

/-- Putting in constants that are all in the pool, but for the last one, puts in the last one. -/
theorem puts_eq_put (self : k ∈ ks) (known : ∀ d ∈ ks, d ≠ k → d ∈ p) (hk : k.HasSection) : ks.foldl put p = p.put k := by
  induction ks generalizing p with
  | nil => cases self
  | cons d ks ih =>
    rw [List.foldl_cons]
    by_cases same : d = k
    · subst same
      refine puts_of_mem fun e he => (mem_put hk).2 ?_
      by_cases equal : e = d
      · exact .inr equal
      · exact .inl (known e (List.mem_cons_of_mem _ he) equal)
    · rw [put_of_mem (known d List.mem_cons_self same)]
      refine ih ?_ fun e he => known e (List.mem_cons_of_mem _ he)
      rcases List.mem_cons.1 self with rfl | rest
      · exact absurd rfl same
      · exact rest

/-! ## Interning -/

theorem internString_eq (s : Bytes) : (p.internString s).2 = p.put (.string s) := rfl

theorem internType_eq (t : Descriptor) : (p.internType t).2 = (Constant.typeParts t).foldl put p := rfl

theorem internTypes_eq (ts : List Descriptor) :
    ts.foldl (fun p t => (p.internType t).2) p = (ts.flatMap Constant.typeParts).foldl put p := by
  induction ts generalizing p with
  | nil => rfl
  | cons t ts ih => rw [List.foldl_cons, ih, List.flatMap_cons, List.foldl_append, internType_eq]

theorem puts_protoParts (s : Bytes) (ts : List Descriptor) (m : Prototype) :
    (.string s :: ts.flatMap Constant.typeParts ++ [.proto m] : List Constant).foldl put p =
      (ts.foldl (fun p t => (p.internType t).2) (p.internString s).2).put (.proto m) := by
  rw [List.foldl_append, internTypes_eq, internString_eq]
  rfl

theorem puts_method_parts (m : MethodRef) (inner : List Constant) :
    (Constant.typeParts m.owner ++ .string m.name :: inner ++ [.method m] : List Constant).foldl put p =
      (inner.foldl put ((p.internType m.owner).2.internString m.name).2).put (.method m) := by
  rw [List.foldl_append, List.foldl_append, List.foldl_cons, internType_eq, internString_eq]
  rfl

/-- `internProto` puts in the parts of the prototype and returns its index. -/
theorem internProto_of_parts {m : Prototype} (h : Constant.protoParts m = .ok ks) :
    ∃ n, p.internProto m = .ok (n, ks.foldl put p) ∧ (ks.foldl put p).protos.idxOf? m = some n := by
  obtain ⟨s, ts, hs, hts, rfl⟩ := Constant.protoParts_eq_ok.1 h
  refine ⟨(addTo (ts.foldl (fun p t => (p.internType t).2) (p.internString s).2).protos m).1, ?_, ?_⟩
  · rw [internProto, hs, hts, puts_protoParts]
    rfl
  · rw [puts_protoParts]
    exact idxOf?_addTo _ _

/-- `internMethod` puts in the parts of the method and returns its index. -/
theorem internMethod_of_parts {m : MethodRef} (h : Constant.parts (.method m) = .ok ks) :
    ∃ n, p.internMethod m = .ok (n, ks.foldl put p) ∧ (ks.foldl put p).methods.idxOf? m = some n := by
  obtain ⟨inner, hinner, rfl⟩ := Constant.method_parts_eq_ok.1 h
  obtain ⟨j, step, -⟩ := internProto_of_parts (p := ((p.internType m.owner).2.internString m.name).2) hinner
  refine ⟨(addTo (inner.foldl put ((p.internType m.owner).2.internString m.name).2).methods m).1, ?_, ?_⟩
  · rw [internMethod]
    dsimp only
    rw [step, puts_method_parts]
    rfl
  · rw [puts_method_parts]
    exact idxOf?_addTo _ _

/-- `intern` puts in the parts of a constant and returns the index it then has. -/
theorem intern_of_parts (hk : k.HasSection) (h : k.parts = .ok ks) :
    ∃ i, p.intern k = .ok (i, ks.foldl put p) ∧ (ks.foldl put p).indexOf? k = some i := by
  have counted : ∀ {α : Type} [DecidableEq α] [BEq α] [LawfulBEq α] (xs : Array α) (x : α),
      ((addTo xs x).2.idxOf? x).map Int.ofNat = some ((addTo xs x).1 : Int) := by
    intro α _ _ _ xs x
    rw [idxOf?_addTo]
    rfl
  cases k with
  | string s =>
    cases h
    exact ⟨_, rfl, counted p.strings s⟩
  | type t =>
    cases h
    exact ⟨_, rfl, counted p.types t⟩
  | field f =>
    cases h
    exact ⟨_, rfl, counted p.fields f⟩
  | proto m =>
    obtain ⟨n, run, index⟩ := internProto_of_parts (p := p) h
    refine ⟨n, ?_, ?_⟩
    · rw [intern, run]
      rfl
    · rw [indexOf?, index]
      rfl
  | method m =>
    obtain ⟨n, run, index⟩ := internMethod_of_parts (p := p) h
    refine ⟨n, ?_, ?_⟩
    · rw [intern, run]
      rfl
    · rw [indexOf?, index]
      rfl
  | _ => exact hk.elim

/-- If `intern` succeeds, the parts of the constant can be found. -/
theorem exists_parts_of_intern {out : Int × Pool} (h : p.intern k = .ok out) : ∃ ks, k.parts = .ok ks := by
  have inner : ∀ {p : Pool} {m : Prototype} {out}, p.internProto m = .ok out → ∃ ks, Constant.protoParts m = .ok ks := by
    intro p m out h
    obtain ⟨s, hs, h⟩ := except_bind_eq_ok.1 h
    obtain ⟨ts, hts, -⟩ := except_bind_eq_ok.1 h
    exact ⟨_, Constant.protoParts_eq_ok.2 ⟨s, ts, hs, hts, rfl⟩⟩
  cases k with
  | proto m =>
    obtain ⟨_, run, -⟩ := except_bind_eq_ok.1 h
    exact inner run
  | method m =>
    obtain ⟨_, run, -⟩ := except_bind_eq_ok.1 h
    obtain ⟨_, step, -⟩ := except_bind_eq_ok.1 run
    obtain ⟨ks, hks⟩ := inner step
    exact ⟨_, Constant.method_parts_eq_ok.2 ⟨ks, hks, rfl⟩⟩
  | _ => exact ⟨_, rfl⟩

theorem intern_eq_ok (hk : k.HasSection) :
    p.intern k = .ok (i, q) ↔ ∃ ks, k.parts = .ok ks ∧ q = ks.foldl put p ∧ q.indexOf? k = some i := by
  constructor
  · intro h
    obtain ⟨ks, hks⟩ := exists_parts_of_intern h
    obtain ⟨j, run, index⟩ := intern_of_parts (p := p) hk hks
    rw [run] at h
    cases h
    exact ⟨ks, hks, rfl, index⟩
  · rintro ⟨ks, hks, rfl, index⟩
    obtain ⟨j, run, found⟩ := intern_of_parts (p := p) hk hks
    rw [run, Option.some.inj (index.symm.trans found)]

theorem intern_extends (hk : k.HasSection) (h : p.intern k = .ok (i, q)) : p.Extends q := by
  obtain ⟨ks, hks, rfl, -⟩ := (intern_eq_ok hk).1 h
  exact extends_puts fun d hd => Constant.hasSection_of_mem_parts hks hd

theorem Distinct.intern (hp : p.Distinct) (hk : k.HasSection) (h : p.intern k = .ok (i, q)) : q.Distinct := by
  obtain ⟨ks, hks, rfl, -⟩ := (intern_eq_ok hk).1 h
  exact hp.puts fun d hd => Constant.hasSection_of_mem_parts hks hd

/-- In a pool without duplicates, the constant at an index has that index. -/
theorem Distinct.indexOf?_of_lookup (hp : p.Distinct) (h : p.lookup kind i = .ok e) : p.indexOf? e = some i := by
  obtain ⟨n, rfl, located⟩ := lookup_eq_ok.1 h
  have listed := List.mem_of_getElem? located
  obtain rfl := kind_of_mem_entries listed
  refine (indexOf?_eq_some (hasSection_of_mem (mem_of_mem_entries listed))).2 ⟨n, rfl, ?_⟩
  obtain ⟨lt, located⟩ := List.getElem?_eq_some_iff.1 located
  refine List.idxOf?_eq_some_iff.2 ⟨lt, located, fun j hj same => ?_⟩
  have := (List.Nodup.getElem_inj_iff (hp e.kind)).1 (same.trans located.symm)
  omega

/-! ## Closed pools -/

/-- With each constant of the pool, its parts are in the pool. -/
structure Closed (p : Pool) : Prop where
  type : ∀ t, .type t ∈ p → .string t.name ∈ p
  proto : ∀ m, .proto m ∈ p →
    (∃ s, m.shorty = .ok s ∧ .string s ∈ p) ∧ ∃ ts, m.types = .ok ts ∧ ∀ t ∈ ts, .type t ∈ p
  field : ∀ f, .field f ∈ p → .type f.owner ∈ p ∧ .string f.name ∈ p ∧ .type f.type ∈ p
  method : ∀ m, .method m ∈ p → .type m.owner ∈ p ∧ .string m.name ∈ p ∧ .proto m.proto ∈ p

theorem closed_iff : p.Closed ↔ ∀ k ∈ p, ∃ ks, k.parts = .ok ks ∧ ∀ d ∈ ks, d ∈ p := by
  constructor
  · intro hp
    have types : ∀ t, .type t ∈ p → ∀ d ∈ Constant.typeParts t, d ∈ p := by
      intro t ht d hd
      rcases Constant.mem_typeParts.1 hd with rfl | rfl
      · exact hp.type t ht
      · exact ht
    have protos : ∀ m, .proto m ∈ p → ∃ ks, Constant.protoParts m = .ok ks ∧ ∀ d ∈ ks, d ∈ p := by
      intro m hm
      obtain ⟨⟨s, hs, sp⟩, ts, hts, tsp⟩ := hp.proto m hm
      refine ⟨_, Constant.protoParts_eq_ok.2 ⟨s, ts, hs, hts, rfl⟩, fun d hd => ?_⟩
      simp only [List.mem_append, List.mem_cons, List.mem_flatMap, List.not_mem_nil, or_false] at hd
      rcases hd with (rfl | ⟨t, ht, hd⟩) | rfl
      · exact sp
      · exact types t (tsp t ht) d hd
      · exact hm
    intro k hk
    have sectioned := hasSection_of_mem hk
    cases k with
    | string s => exact ⟨_, rfl, by simpa using hk⟩
    | type t => exact ⟨_, rfl, types t hk⟩
    | proto m => exact protos m hk
    | field f =>
      obtain ⟨owner, name, type⟩ := hp.field f hk
      refine ⟨_, rfl, fun d hd => ?_⟩
      simp only [List.mem_append, List.mem_cons, List.not_mem_nil, or_false] at hd
      rcases hd with (hd | rfl | hd) | rfl
      · exact types _ owner d hd
      · exact name
      · exact types _ type d hd
      · exact hk
    | method m =>
      obtain ⟨owner, name, proto⟩ := hp.method m hk
      obtain ⟨inner, hinner, inside⟩ := protos _ proto
      refine ⟨_, Constant.method_parts_eq_ok.2 ⟨inner, hinner, rfl⟩, fun d hd => ?_⟩
      simp only [List.mem_append, List.mem_cons, List.not_mem_nil, or_false] at hd
      rcases hd with (hd | rfl | hd) | rfl
      · exact types _ owner d hd
      · exact name
      · exact inside d hd
      · exact hk
    | _ => exact sectioned.elim
  · intro hp
    refine ⟨fun t ht => ?_, fun m hm => ?_, fun f hf => ?_, fun m hm => ?_⟩
    · obtain ⟨ks, hks, inside⟩ := hp _ ht
      cases hks
      exact inside _ (by simp [Constant.typeParts])
    · obtain ⟨ks, hks, inside⟩ := hp _ hm
      obtain ⟨s, ts, hs, hts, rfl⟩ := Constant.protoParts_eq_ok.1 hks
      refine ⟨⟨s, hs, inside _ (by simp)⟩, ts, hts, fun t ht => inside _ ?_⟩
      simp only [List.mem_append, List.mem_cons, List.mem_flatMap]
      exact .inl (.inr ⟨t, ht, by simp [Constant.typeParts]⟩)
    · obtain ⟨ks, hks, inside⟩ := hp _ hf
      cases hks
      exact ⟨inside _ (by simp [Constant.typeParts]), inside _ (by simp), inside _ (by simp [Constant.typeParts])⟩
    · obtain ⟨ks, hks, inside⟩ := hp _ hm
      obtain ⟨inner, hinner, rfl⟩ := Constant.method_parts_eq_ok.1 hks
      have self := Constant.mem_parts_self (k := .proto m.proto) trivial hinner
      exact ⟨inside _ (by simp [Constant.typeParts]), inside _ (by simp), inside _ (by simp [self])⟩

theorem Closed.intern (hp : p.Closed) (hk : k.HasSection) (h : p.intern k = .ok (i, q)) : q.Closed := by
  obtain ⟨ks, hks, rfl, -⟩ := (intern_eq_ok hk).1 h
  have sectioned : ∀ d ∈ ks, d.HasSection := fun d hd => Constant.hasSection_of_mem_parts hks hd
  refine closed_iff.2 fun e he => ?_
  rcases (mem_puts sectioned).1 he with old | new
  · obtain ⟨es, hes, inside⟩ := closed_iff.1 hp e old
    exact ⟨es, hes, fun d hd => (mem_puts sectioned).2 (.inl (inside d hd))⟩
  · obtain ⟨es, hes, sub⟩ := Constant.parts_trans hks new
    exact ⟨es, hes, fun d hd => (mem_puts sectioned).2 (.inr (sub hd))⟩

/-- `intern` of a constant that is in a closed pool returns its index and changes nothing. -/
theorem Closed.intern_of_mem (hp : p.Closed) (h : k ∈ p) : ∃ i, p.intern k = .ok (i, p) ∧ p.indexOf? k = some i := by
  obtain ⟨ks, hks, inside⟩ := closed_iff.1 hp k h
  obtain ⟨i, run, index⟩ := intern_of_parts (p := p) (hasSection_of_mem h) hks
  rw [puts_of_mem inside] at run index
  exact ⟨i, run, index⟩

/-! ## Runs -/

/-- `intern` for one constant after the other, with the indices. -/
def internAll (p : Pool) : List Constant → Except Stop (List Int × Pool)
  | [] => .ok ([], p)
  | k :: ks => do
    let (i, p) ← p.intern k
    let (is, p) ← p.internAll ks
    return (i :: is, p)

/-- No duplicates, every constant has its parts in the pool, and every constant is well-formed. -/
structure Sound (p : Pool) : Prop where
  distinct : p.Distinct
  closed : p.Closed

theorem entries_empty (kind : Kind) : entries {} kind = [] := by cases kind <;> rfl

theorem sound_empty : Sound {} where
  distinct kind := by
    rw [entries_empty]
    exact List.nodup_nil
  closed := closed_iff.2 fun k hk => by
    rw [mem_def, entries_empty] at hk
    cases hk

theorem exists_internAll (hp : p.Sound) (wf : ∀ k ∈ ks, k.WellFormed) :
    ∃ is q, p.internAll ks = .ok (is, q) ∧ q.Sound ∧ p.Extends q ∧
      List.Forall₂ (fun k i => q.lookup k.kind i = .ok k) ks is := by
  induction ks generalizing p with
  | nil => exact ⟨[], p, rfl, hp, .refl p, .nil⟩
  | cons k ks ih =>
    have hk := wf k List.mem_cons_self
    obtain ⟨parts, hparts⟩ := hk.exists_parts
    obtain ⟨i, run, index⟩ := intern_of_parts (p := p) hk.hasSection hparts
    obtain ⟨is, q, rest, hq, grown, places⟩ :=
      ih ⟨hp.distinct.intern hk.hasSection run, hp.closed.intern hk.hasSection run⟩ fun d hd =>
        wf d (List.mem_cons_of_mem k hd)
    refine ⟨i :: is, q, ?_, hq, (intern_extends hk.hasSection run).trans grown, .cons ?_ places⟩
    · exact except_bind_eq_ok.2 ⟨_, run, except_bind_eq_ok.2 ⟨_, rest, rfl⟩⟩
    · exact grown.lookup (lookup_of_indexOf? hk.hasSection index)

/-- Take any well-formed constants into an empty pool, and then any others. All calls succeed. No section has a
constant twice, the parts of each constant are in the pool, `intern` of a constant that is there changes nothing, and
every index that was returned or can be looked up keeps its constant through the later calls. -/
theorem internAll_sound (before later : List Constant) (wf : ∀ k ∈ before ++ later, k.WellFormed) :
    ∃ is p js q, internAll {} before = .ok (is, p) ∧ p.internAll later = .ok (js, q) ∧
      p.Distinct ∧ p.Closed ∧
      (∀ k ∈ p, ∃ i, p.intern k = .ok (i, p) ∧ p.indexOf? k = some i) ∧
      List.Forall₂ (fun k i => q.lookup k.kind i = .ok k ∧ q.indexOf? k = some i) before is ∧
      ∀ kind i e, p.lookup kind i = .ok e → q.lookup kind i = .ok e ∧ q.indexOf? e = some i := by
  obtain ⟨is, p, first, hp, -, places⟩ := exists_internAll sound_empty fun k hk => wf k (List.mem_append_left later hk)
  obtain ⟨js, q, second, hq, grown, -⟩ := exists_internAll hp fun k hk => wf k (List.mem_append_right before hk)
  refine ⟨is, p, js, q, first, second, hp.distinct, hp.closed, fun k => hp.closed.intern_of_mem, ?_, ?_⟩
  · refine places.imp fun k i found => ?_
    have kept := grown.lookup found
    exact ⟨kept, hq.distinct.indexOf?_of_lookup kept⟩
  · intro kind i e found
    have kept := grown.lookup found
    exact ⟨kept, hq.distinct.indexOf?_of_lookup kept⟩

/-- A method, a field and a string that have names and types in common. -/
theorem internAll_sound_sharing :
    let method := Constant.method ⟨⟨ascii "LA;"⟩, ascii "V", .of ⟨ascii "V"⟩ [⟨ascii "I"⟩, ⟨ascii "LA;"⟩]⟩
    let field := Constant.field ⟨⟨ascii "LA;"⟩, ascii "VIL", ⟨ascii "I"⟩⟩
    ∃ is p js q, internAll {} [method, field] = .ok (is, p) ∧ p.internAll [.string (ascii "LA;")] = .ok (js, q) ∧
      p.Distinct ∧ p.Closed ∧
      (∀ k ∈ p, ∃ i, p.intern k = .ok (i, p) ∧ p.indexOf? k = some i) ∧
      List.Forall₂ (fun k i => q.lookup k.kind i = .ok k ∧ q.indexOf? k = some i) [method, field] is ∧
      ∀ kind i e, p.lookup kind i = .ok e → q.lookup kind i = .ok e ∧ q.indexOf? e = some i := by
  intro method field
  refine internAll_sound [method, field] [.string (ascii "LA;")] fun k hk => ?_
  have valid : ∀ d ∈ [ascii "LA;", ascii "V", ascii "I"], Descriptor.isValid d := by decide +kernel
  simp only [List.cons_append, List.nil_append, List.mem_cons, List.not_mem_nil, or_false] at hk
  rcases hk with rfl | rfl | rfl
  · refine ⟨valid _ (by simp), valid (ascii "V") (by simp), [⟨ascii "I"⟩, ⟨ascii "LA;"⟩], ?_, rfl⟩
    rintro t ht
    simp only [List.mem_cons, List.not_mem_nil, or_false] at ht
    rcases ht with rfl | rfl <;> exact valid _ (by simp)
  · exact ⟨valid _ (by simp), valid _ (by simp)⟩
  · trivial

end Pool

end Dalvik
