import Dalvik.Proofs.Bytes
import Dalvik.Proofs.Pool

/-!
# Texts of prototypes and members

`split` of a run of bytes succeeds exactly on the names of valid descriptors in a row, and gives
these descriptors (`split_eq_ok`). So what is parsed from the text of a prototype, a field or a
method has that text again, and a reference is read back from its text if its names have none of the
separators (`Prototype.parse_eq_ok`, `FieldRef.parse_eq_ok`, `MethodRef.parse_eq_ok`).
-/

namespace Dalvik

open Dalvik.Action (except_bind_eq_ok)
open Descriptor (isValid)

variable {s t : Bytes}

/-! ## Prototypes -/

namespace Prototype

variable {p : Prototype} {ts : List Descriptor}

theorem splitFuel_eq_ok {fuel : Nat} (enough : s.length ≤ fuel) (h : splitFuel fuel s = .ok ts) :
    (∀ t ∈ ts, isValid t.name = true) ∧ s = ts.flatMap Descriptor.name := by
  induction fuel generalizing s ts with
  | zero =>
    obtain rfl := List.length_eq_zero_iff.1 (Nat.le_zero.1 enough)
    cases h
    exact ⟨nofun, rfl⟩
  | succ fuel ih =>
    cases s with
    | nil =>
      cases h
      exact ⟨nofun, rfl⟩
    | cons x s =>
      rw [splitFuel] at h
      · dsimp only at h
        split at h
        · cases h
        split at h
        · cases h
        next n _ =>
        split at h
        · next valid =>
          obtain ⟨rest, run, e⟩ := except_bind_eq_ok.1 h
          cases e
          have pos : 0 < n := Nat.pos_of_ne_zero fun zero => by
            subst zero
            cases valid
          obtain ⟨others, rest⟩ := ih (by rw [List.length_drop]; simp at enough ⊢; omega) run
          exact ⟨List.forall_mem_cons.2 ⟨valid, others⟩, by rw [List.flatMap_cons, ← rest, List.take_append_drop]⟩
        · cases h
      · simp

theorem split_eq_ok : split s = .ok ts ↔ (∀ t ∈ ts, isValid t.name = true) ∧ s = ts.flatMap Descriptor.name := by
  constructor
  · exact splitFuel_eq_ok (Nat.le_refl _)
  · rintro ⟨valid, rfl⟩
    exact split_flatMap valid

theorem parse_eq_ok : parse t = .ok p ↔ p.WellFormed ∧ byte ')' ∉ p.params ∧ t = p.text := by
  unfold parse
  constructor
  · intro h
    dsimp only at h
    split at h
    · cases h
    next shape =>
    obtain ⟨-, start⟩ := not_or.1 shape
    obtain ⟨r, rfl⟩ := List.head?_eq_some_iff.1 (not_not.1 start)
    split at h
    · cases h
    next params result cut =>
    split at h
    · cases h
    next ts run =>
    split at h
    · next valid =>
      cases h
      obtain ⟨inside, absent⟩ := Bytes.cut_eq_some.1 cut
      obtain ⟨each, rfl⟩ := split_eq_ok.1 run
      exact ⟨⟨valid, ts, each, rfl⟩, absent, congrArg (byte '(' :: ·) inside⟩
    · cases h
  · rintro ⟨⟨valid, ts, each, e⟩, absent, rfl⟩
    obtain ⟨⟨result⟩, params⟩ := p
    obtain rfl : params = ts.flatMap Descriptor.name := congrArg Prototype.params e
    have long : result ≠ [] := by
      rintro rfl
      cases valid
    have shape : ¬ ((text ⟨⟨result⟩, ts.flatMap Descriptor.name⟩).length < 3 ∨
        (text ⟨⟨result⟩, ts.flatMap Descriptor.name⟩).head? ≠ some (byte '(')) := by
      have := List.length_pos_iff.2 long
      simp [text]
      omega
    have cut : Bytes.cut (byte ')') ((text ⟨⟨result⟩, ts.flatMap Descriptor.name⟩).drop 1) =
        some (ts.flatMap Descriptor.name, result) := Bytes.cut_eq_some.2 ⟨rfl, absent⟩
    dsimp only
    rw [if_neg shape, cut]
    dsimp only
    rw [split_flatMap each]
    exact if_pos valid

end Prototype

/-! ## Members -/

theorem cutAt_arrow {before after : Bytes} :
    Bytes.cutAt (ascii "->") s = some (before, after) ↔ s = before ++ ascii "->" ++ after ∧ ¬ ascii "->" <:+: before := by
  have arrow : ascii "->" = [byte '-', byte '>'] := by decide
  rw [arrow, Bytes.cutAt_eq_some (by decide), List.append_assoc]
  rfl

theorem FieldRef.parse_eq_ok {f : FieldRef} : FieldRef.parse t = .ok f ↔
    (isValid f.owner.name = true ∧ isValid f.type.name = true) ∧ (f.name ≠ [] ∧ byte ':' ∉ f.name) ∧
      ¬ ascii "->" <:+: f.owner.name ∧ t = f.text := by
  unfold parse
  constructor
  · intro h
    dsimp only at h
    split at h
    · cases h
    next owner rest arrow =>
    split at h
    · cases h
    next name type colon =>
    split at h
    · cases h
    next parts =>
    cases h
    obtain ⟨rfl, noArrow⟩ := cutAt_arrow.1 arrow
    obtain ⟨rfl, noColon⟩ := Bytes.cut_eq_some.1 colon
    have parts : (name ≠ [] ∧ isValid owner = true) ∧ isValid type = true := by simpa using parts
    exact ⟨⟨parts.1.2, parts.2⟩, ⟨parts.1.1, noColon⟩, noArrow, (List.append_assoc _ _ _).symm⟩
  · rintro ⟨⟨owner, type⟩, ⟨name, noColon⟩, noArrow, rfl⟩
    have arrow : Bytes.cutAt (ascii "->") f.text = some (f.owner.name, f.name ++ byte ':' :: f.type.name) :=
      cutAt_arrow.2 ⟨List.append_assoc _ _ _, noArrow⟩
    have colon : Bytes.cut (byte ':') (f.name ++ byte ':' :: f.type.name) = some (f.name, f.type.name) :=
      Bytes.cut_eq_some.2 ⟨rfl, noColon⟩
    have named : f.name.isEmpty = false := by simpa using name
    dsimp only
    rw [arrow]
    dsimp only
    rw [colon]
    dsimp only
    rw [named, owner, type]
    rfl

theorem MethodRef.parse_eq_ok {m : MethodRef} : MethodRef.parse t = .ok m ↔
    (isValid m.owner.name = true ∧ m.proto.WellFormed) ∧ (m.name ≠ [] ∧ byte '(' ∉ m.name) ∧
      ¬ ascii "->" <:+: m.owner.name ∧ byte ')' ∉ m.proto.params ∧ t = m.text := by
  unfold parse
  constructor
  · intro h
    dsimp only at h
    split at h
    · cases h
    next owner rest arrow =>
    split at h
    · cases h
    next paren found =>
    split at h
    · cases h
    next parts =>
    split at h
    · cases h
    next proto read =>
    cases h
    obtain ⟨rfl, noArrow⟩ := cutAt_arrow.1 arrow
    obtain ⟨name, after, rfl, noParen, rfl⟩ := Bytes.indexOf?_eq_some.1 found
    rw [List.drop_left] at read
    rw [List.take_left]
    obtain ⟨wf, closed, e⟩ := Prototype.parse_eq_ok.1 read
    have parts : isValid owner = true ∧ name ≠ [] := by simpa using parts
    exact ⟨⟨parts.1, wf⟩, ⟨parts.2, noParen⟩, noArrow, closed, by rw [e]; exact (List.append_assoc _ _ _).symm⟩
  · rintro ⟨⟨owner, proto⟩, ⟨name, noParen⟩, noArrow, closed, rfl⟩
    have arrow : Bytes.cutAt (ascii "->") m.text = some (m.owner.name, m.name ++ m.proto.text) :=
      cutAt_arrow.2 ⟨List.append_assoc _ _ _, noArrow⟩
    have paren : Bytes.indexOf? (byte '(') (m.name ++ m.proto.text) = some m.name.length :=
      Bytes.indexOf?_eq_some.2 ⟨_, _, rfl, noParen, rfl⟩
    have named : (m.name.length == 0) = false := by simpa using name
    have read : Prototype.parse m.proto.text = .ok m.proto := Prototype.parse_eq_ok.2 ⟨proto, closed, rfl⟩
    dsimp only
    rw [arrow]
    dsimp only
    rw [paren]
    dsimp only
    rw [owner, named, List.drop_left, read, List.take_left]
    rfl

/-! ## There and back -/

/-- A valid descriptor without separators. -/
def Descriptor.Plain (k : Descriptor) : Prop := isValid k.name = true ∧ ∀ b ∈ ascii ">():", b ∉ k.name

instance : DecidablePred Descriptor.Plain := fun _ => inferInstanceAs (Decidable (_ ∧ _))

def Prototype.Plain (p : Prototype) : Prop :=
  p.result.Plain ∧ ∃ ts : List Descriptor, (∀ t ∈ ts, t.Plain) ∧ p = Prototype.of p.result ts

/-- A name of a member without the separators that could follow it. -/
def PlainName (name : Bytes) : Prop := name ≠ [] ∧ byte '(' ∉ name ∧ byte ':' ∉ name

instance : DecidablePred PlainName := fun _ => inferInstanceAs (Decidable (_ ∧ _ ∧ _))

def FieldRef.Plain (f : FieldRef) : Prop := f.owner.Plain ∧ PlainName f.name ∧ f.type.Plain

def MethodRef.Plain (m : MethodRef) : Prop := m.owner.Plain ∧ PlainName m.name ∧ m.proto.Plain

theorem Descriptor.Plain.no_arrow {k : Descriptor} (h : k.Plain) : ¬ ascii "->" <:+: k.name :=
  fun inside => h.2 (byte '>') (by decide) (inside.subset (by decide))

theorem Prototype.Plain.readable {p : Prototype} (h : p.Plain) : p.WellFormed ∧ byte ')' ∉ p.params := by
  obtain ⟨result, ts, plain, e⟩ := h
  refine ⟨⟨result.1, ts, fun t mem => (plain t mem).1, e⟩, fun mem => ?_⟩
  rw [e] at mem
  obtain ⟨t, ht, mem⟩ := List.mem_flatMap.1 mem
  exact (plain t ht).2 _ (by decide) mem

/-- `Prototype.of` of valid descriptors has these descriptors as `parameters`. What `parse` accepts as a prototype, a
field or a method has the parsed text as its `text`. And `parse` of the `text` of a `Plain` prototype, field or method
gives it back. -/
theorem texts_stand_for_references :
    (∀ result ts, (∀ t ∈ ts, isValid t.name = true) → (Prototype.of result ts).parameters = .ok ts) ∧
      ((∀ t p, Prototype.parse t = .ok p → p.text = t) ∧ (∀ t f, FieldRef.parse t = .ok f → f.text = t) ∧
        ∀ t m, MethodRef.parse t = .ok m → m.text = t) ∧
      (∀ p : Prototype, p.Plain → Prototype.parse p.text = .ok p) ∧
      (∀ f : FieldRef, f.Plain → FieldRef.parse f.text = .ok f) ∧
      ∀ m : MethodRef, m.Plain → MethodRef.parse m.text = .ok m := by
  refine ⟨fun result ts valid => ?_, ⟨fun t p h => ?_, fun t f h => ?_, fun t m h => ?_⟩, fun p plain => ?_, fun f plain => ?_,
    fun m plain => ?_⟩
  · rw [Prototype.parameters, Prototype.of, Prototype.split_flatMap valid]
  · exact (Prototype.parse_eq_ok.1 h).2.2.symm
  · exact (FieldRef.parse_eq_ok.1 h).2.2.2.symm
  · exact (MethodRef.parse_eq_ok.1 h).2.2.2.2.symm
  · obtain ⟨wf, closed⟩ := plain.readable
    exact Prototype.parse_eq_ok.2 ⟨wf, closed, rfl⟩
  · obtain ⟨owner, ⟨named, -, noColon⟩, type⟩ := plain
    exact FieldRef.parse_eq_ok.2 ⟨⟨owner.1, type.1⟩, ⟨named, noColon⟩, owner.no_arrow, rfl⟩
  · obtain ⟨owner, ⟨named, noParen, -⟩, proto⟩ := plain
    obtain ⟨wf, closed⟩ := proto.readable
    exact MethodRef.parse_eq_ok.2 ⟨⟨owner.1, wf⟩, ⟨named, noParen⟩, owner.no_arrow, closed, rfl⟩

/-- Parameters of every shape, and names with an arrow in them. -/
theorem texts_stand_for_references_arrows :
    let ts : List Descriptor := [⟨ascii "I"⟩, ⟨ascii "[[LA;"⟩, ⟨ascii "J"⟩]
    let p := Prototype.of ⟨ascii "V"⟩ ts
    let f : FieldRef := ⟨⟨ascii "[LA;"⟩, ascii "->x", ⟨ascii "[I"⟩⟩
    let m : MethodRef := ⟨⟨ascii "LA;"⟩, ascii "a->b", p⟩
    ((∀ t ∈ ts, isValid t.name = true) ∧ p.parameters = .ok ts) ∧
      (Prototype.parse (ascii "(I[[LA;J)V") = .ok p ∧ p.text = ascii "(I[[LA;J)V" ∧ p.Plain ∧ Prototype.parse p.text = .ok p) ∧
      (FieldRef.parse (ascii "[LA;->->x:[I") = .ok f ∧ f.text = ascii "[LA;->->x:[I" ∧ f.Plain ∧ FieldRef.parse f.text = .ok f) ∧
      (MethodRef.parse (ascii "LA;->a->b(I[[LA;J)V") = .ok m ∧ m.text = ascii "LA;->a->b(I[[LA;J)V" ∧ m.Plain ∧
        MethodRef.parse m.text = .ok m) := by
  intro ts p f m
  have plain : ∀ t ∈ ts, t.Plain := by decide +kernel
  have hp : p.Plain := ⟨by decide +kernel, ts, plain, rfl⟩
  have hf : f.Plain := ⟨by decide +kernel, by decide, by decide +kernel⟩
  have hm : m.Plain := ⟨by decide +kernel, by decide, hp⟩
  obtain ⟨lists, ⟨protos, fields, methods⟩, proto, field, method⟩ := texts_stand_for_references
  have proto' : Prototype.parse (ascii "(I[[LA;J)V") = .ok p := proto p hp
  have field' : FieldRef.parse (ascii "[LA;->->x:[I") = .ok f := field f hf
  have method' : MethodRef.parse (ascii "LA;->a->b(I[[LA;J)V") = .ok m := method m hm
  have valid : ∀ t ∈ ts, isValid t.name = true := fun t mem => (plain t mem).1
  exact ⟨⟨valid, lists _ ts valid⟩, ⟨proto', protos _ p proto', hp, proto p hp⟩,
    ⟨field', fields _ f field', hf, field f hf⟩, ⟨method', methods _ m method', hm, method m hm⟩⟩

end Dalvik
