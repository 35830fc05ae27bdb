import Dalvik.Constant.Pool
import Dalvik.Proofs.Bytes
import Dalvik.Proofs.Faults
import Mathlib.Data.List.TakeWhile

/-!
# Splitting the parameters of a prototype

The parameters of a prototype are kept as one string of descriptors. `split` gives valid descriptors
back one by one (`split_flatMap`), so only a prototype with an invalid descriptor can come to a
fault.
-/

namespace Dalvik

open Dalvik.Action (except_bind_eq_ok)

namespace Descriptor

theorem sourceWord?_letterL : sourceWord? letterL = none := by decide

theorem sourceWord?_bracket : sourceWord? bracket = none := by decide

theorem letterL_ne_bracket : letterL ≠ bracket := by decide

theorem letterL_ne_semicolon : letterL ≠ semicolon := by decide

theorem ne_bracket_of_word {letter : UInt8} (word : (sourceWord? letter).isSome) : letter ≠ bracket := by
  rintro rfl
  rw [sourceWord?_bracket] at word
  cases word

theorem takeWhile_brackets (dims : Nat) {x : UInt8} (hx : x ≠ bracket) (s : Bytes) :
    (List.replicate dims bracket ++ x :: s).takeWhile (· == bracket) = List.replicate dims bracket := by
  rw [List.takeWhile_append_of_pos (by simp), List.takeWhile_cons_of_neg (by simpa using hx), List.append_nil]

theorem dropWhile_brackets (dims : Nat) {x : UInt8} (hx : x ≠ bracket) (s : Bytes) :
    (List.replicate dims bracket ++ x :: s).dropWhile (· == bracket) = x :: s := by
  rw [List.dropWhile_append_of_pos (by simp), List.dropWhile_cons_of_neg (by simpa using hx)]

theorem name_eq (k : Descriptor) : k.name = List.replicate k.dimensions bracket ++ k.element := by
  have front : k.name.takeWhile (· == bracket) = List.replicate k.dimensions bracket := by
    refine List.eq_replicate_iff.2 ⟨rfl, fun x hx => ?_⟩
    simpa using List.mem_takeWhile_imp hx
  rw [← front, element, List.takeWhile_append_dropWhile]

/-- The shape of a valid descriptor: some brackets, and then the letter of a primitive type or `L…;`. -/
inductive Form : Bytes → Prop where
  | primitive (dims : Nat) {letter : UInt8} (word : (sourceWord? letter).isSome) :
      Form (List.replicate dims bracket ++ [letter])
  | reference (dims : Nat) {body : Bytes} (plain : semicolon ∉ body) :
      Form (List.replicate dims bracket ++ (letterL :: body ++ [semicolon]))

theorem form_of_isValid {d : Bytes} (h : isValid d = true) : Form d := by
  have parts : d = List.replicate (dimensions ⟨d⟩) bracket ++ d.dropWhile (· == bracket) := name_eq ⟨d⟩
  rw [isValid] at h
  split at h
  · next c e =>
    rw [parts, e]
    simp only [Bool.and_eq_true] at h
    exact .primitive _ h.1
  · next a b c r e =>
    simp only [Bool.and_eq_true, beq_iff_eq, Bool.not_eq_true', List.contains_eq_mem, decide_eq_false_iff_not] at h
    obtain ⟨⟨start, last⟩, plain⟩ := h
    rw [e] at last plain
    obtain ⟨body, hbody⟩ := List.getLast?_eq_some_iff.1 last
    obtain _ | ⟨a', body⟩ := body
    · simp at hbody
    · obtain ⟨rfl, tail⟩ := List.cons.inj hbody
      rw [parts, e, start, tail]
      refine .reference _ ?_
      simpa [tail] using plain
  · cases h

end Descriptor

namespace Prototype

open Descriptor (bracket semicolon letterL Form)

/-- One turn of `splitFuel` cuts off the first descriptor. -/
theorem splitFuel_append (fuel dims : Nat) {x : UInt8} (hx : x ≠ bracket) {b rest : Bytes}
    (size : (if x = letterL then (Bytes.indexOf? semicolon (x :: (b ++ rest))).map (dims + 1 + ·) else some (dims + 1)) =
      some (dims + 1 + b.length))
    (valid : Descriptor.isValid (List.replicate dims bracket ++ x :: b) = true) :
    splitFuel (fuel + 1) (List.replicate dims bracket ++ x :: b ++ rest) =
      (do return ⟨List.replicate dims bracket ++ x :: b⟩ :: (← splitFuel fuel rest)) := by
  have length : (List.replicate dims bracket ++ x :: b).length = dims + 1 + b.length := by simp; omega
  have start : List.replicate dims bracket ++ x :: b ++ rest = List.replicate dims bracket ++ x :: (b ++ rest) := by simp
  have brackets : ((List.replicate dims bracket ++ x :: b ++ rest).takeWhile (· == bracket)).length = dims := by
    rw [start, Descriptor.takeWhile_brackets dims hx, List.length_replicate]
  have behind : (List.replicate dims bracket ++ x :: b ++ rest).drop dims = x :: (b ++ rest) := by
    rw [start, List.drop_left' (by simp)]
  rw [splitFuel]
  · dsimp only
    rw [brackets, behind]
    dsimp only
    rw [size]
    dsimp only
    rw [← length, List.take_left, List.drop_left, if_pos valid]
  · simp

theorem splitFuel_cons {d : Bytes} (valid : Descriptor.isValid d = true) (fuel : Nat) (rest : Bytes) :
    splitFuel (fuel + 1) (d ++ rest) = (do return ⟨d⟩ :: (← splitFuel fuel rest)) := by
  cases Descriptor.form_of_isValid valid with
  | @primitive dims letter word =>
    have notL : letter ≠ letterL := by
      rintro rfl
      rw [Descriptor.sourceWord?_letterL] at word
      cases word
    exact splitFuel_append fuel dims (Descriptor.ne_bracket_of_word word) (b := []) (by rw [if_neg notL]; rfl) valid
  | @reference dims body plain =>
    refine splitFuel_append fuel dims Descriptor.letterL_ne_bracket (b := body ++ [semicolon]) ?_ valid
    have before : semicolon ∉ letterL :: body := by
      simpa [plain] using Descriptor.letterL_ne_semicolon.symm
    have found : Bytes.indexOf? semicolon (letterL :: (body ++ [semicolon] ++ rest)) = some (body.length + 1) :=
      Bytes.indexOf?_eq_some.2 ⟨letterL :: body, rest, by simp, before, rfl⟩
    rw [if_pos rfl, found, Option.map_some, List.length_append, List.length_singleton]

/-- `split` of the names of valid descriptors gives the descriptors. -/
theorem split_flatMap {ts : List Descriptor} (valid : ∀ t ∈ ts, Descriptor.isValid t.name = true) :
    split (ts.flatMap Descriptor.name) = .ok ts := by
  have run : ∀ fuel, (ts.flatMap Descriptor.name).length ≤ fuel → splitFuel fuel (ts.flatMap Descriptor.name) = .ok ts := by
    induction ts with
    | nil => intro fuel _; cases fuel <;> rfl
    | cons t ts ih =>
      intro fuel enough
      have head := valid t List.mem_cons_self
      have pos : 0 < t.name.length := by
        refine List.length_pos_iff.2 fun empty => ?_
        rw [empty] at head
        cases head
      rw [List.flatMap_cons] at enough ⊢
      rw [List.length_append] at enough
      obtain ⟨fuel, rfl⟩ : ∃ k, fuel = k + 1 := ⟨fuel - 1, by omega⟩
      rw [splitFuel_cons head, ih (fun u hu => valid u (List.mem_cons_of_mem t hu)) fuel (by omega)]
      rfl
  exact run _ (Nat.le_refl _)

theorem faultless_splitFuel (fuel : Nat) (s : Bytes) : Faultless (splitFuel fuel s) := by
  induction fuel generalizing s with
  | zero => cases s <;> exact .ok _
  | succ fuel ih =>
    cases s with
    | nil => exact .ok _
    | cons x s =>
      rw [splitFuel]
      · dsimp only
        split
        · exact .fail _
        split
        · exact .fail _
        split
        · exact (ih _).bind fun _ _ => .ok _
        · exact .fail _
      · simp

/-- The parameters can be split. -/
def Separable (p : Prototype) : Prop := ∃ ts, p.parameters = .ok ts

theorem Separable.faultless_shorty {p : Prototype} (h : p.Separable) : Faultless p.shorty := by
  obtain ⟨ts, hts⟩ := h
  rw [shorty, hts]
  exact .ok _

theorem Separable.faultless_types {p : Prototype} (h : p.Separable) : Faultless p.types := by
  obtain ⟨ts, hts⟩ := h
  rw [types, hts]
  exact .ok _

theorem separable_of_shorty {p : Prototype} {s : Bytes} (h : p.shorty = .ok s) : p.Separable := by
  obtain ⟨ts, hts, -⟩ := except_bind_eq_ok.1 h
  exact ⟨ts, hts⟩

/-- `shorty` comes to a fault only where the parameters cannot be split. -/
theorem shorty_eq_fault {p : Prototype} {m : Option Bytes} (h : p.shorty = .error (.fault m)) :
    ∃ e, split p.params = .error (.failure e) ∧ m = some e.message := by
  unfold shorty parameters at h
  cases e : split p.params with
  | ok ts =>
    rw [e] at h
    cases h
  | error stop =>
    cases stop with
    | failure cause =>
      rw [e] at h
      cases h
      exact ⟨cause, rfl, rfl⟩
    | fault m => exact (faultless_splitFuel _ _ m e).elim

/-- If `split` fails, one of the descriptors is invalid. -/
theorem exists_invalid {ts : List Descriptor} {stop : Stop} (h : split (ts.flatMap Descriptor.name) = .error stop) :
    ∃ t ∈ ts, Descriptor.isValid t.name = false := by
  by_contra none
  rw [split_flatMap fun t ht => by
    by_contra invalid
    exact none ⟨t, ht, by simpa using invalid⟩] at h
  cases h

end Prototype

/-! ## Pools -/

/-- Every prototype in the constant can be split. -/
def Constant.Separable : Constant → Prop
  | .proto k => k.Separable
  | .method m => m.proto.Separable
  | _ => True

namespace Pool

variable {p q : Pool}

/-- Every prototype of the pool can be split. -/
def Separable (p : Pool) : Prop := ∀ k ∈ p.protos, k.Separable

theorem Separable.congr (hp : p.Separable) (h : q.protos = p.protos) : q.Separable := by
  rw [Separable, h]
  exact hp

theorem mem_addTo {α : Type} [DecidableEq α] {xs : Array α} {x y : α} (h : y ∈ (addTo xs x).2) : y ∈ xs ∨ y = x := by
  unfold addTo at h
  split at h
  · exact .inl h
  · exact Array.mem_push.1 h

theorem protos_internTypes (p : Pool) (ks : List Descriptor) :
    (ks.foldl (fun p t => (p.internType t).2) p).protos = p.protos := by
  induction ks generalizing p with
  | nil => rfl
  | cons k ks ih => exact ih (p.internType k).2

theorem faultless_internProto {k : Prototype} (hk : k.Separable) : Faultless (p.internProto k) :=
  hk.faultless_shorty.bind fun _ _ => hk.faultless_types.bind fun _ _ => .ok _

theorem separable_internProto {k : Prototype} (hp : p.Separable) {i : Nat} (h : p.internProto k = .ok (i, q)) :
    q.Separable := by
  obtain ⟨s, hs, h⟩ := except_bind_eq_ok.1 h
  obtain ⟨ts, hts, h⟩ := except_bind_eq_ok.1 h
  cases h
  intro x hx
  rcases mem_addTo hx with old | rfl
  · rw [protos_internTypes] at old
    exact hp x old
  · exact Prototype.separable_of_shorty hs

theorem faultless_intern {k : Constant} (hk : k.Separable) : Faultless (p.intern k) := by
  cases k with
  | proto k => exact (faultless_internProto hk).bind fun _ _ => .ok _
  | method m => exact ((faultless_internProto hk).bind fun _ _ => .ok _).bind fun _ _ => .ok _
  | _ => exact .ok _

theorem separable_intern {k : Constant} (hp : p.Separable) {i : Int} (h : p.intern k = .ok (i, q)) : q.Separable := by
  cases k with
  | proto k =>
    obtain ⟨⟨j, p'⟩, run, e⟩ := except_bind_eq_ok.1 h
    cases e
    exact separable_internProto hp run
  | method m =>
    obtain ⟨⟨j, p'⟩, run, e⟩ := except_bind_eq_ok.1 h
    obtain ⟨⟨j', p''⟩, inner, e'⟩ := except_bind_eq_ok.1 run
    cases e
    cases e'
    refine Separable.congr (p := p'') (separable_internProto ?_ inner) rfl
    exact hp.congr rfl
  | _ =>
    cases h
    exact hp

theorem faultless_resolve {α : Type} (kind : Kind) (i : Int) (found : Option α) : Faultless (resolve kind i found) := by
  unfold resolve
  split
  · exact .ok _
  · exact .fail _

theorem mem_of_nth? {α : Type} {xs : Array α} {i : Int} {x : α} (h : nth? xs i = some x) : x ∈ xs := by
  unfold nth? at h
  split at h
  · cases h
  · exact Array.mem_of_getElem? h

theorem resolve_eq_ok {α : Type} {kind : Kind} {i : Int} {found : Option α} {x : α} :
    resolve kind i found = .ok x ↔ found = some x := by
  cases found <;> simp [resolve, fail]

theorem mem_of_type {i : Int} {k : Descriptor} (h : p.type i = .ok k) : k ∈ p.types := mem_of_nth? (resolve_eq_ok.1 h)

theorem mem_of_proto {i : Int} {k : Prototype} (h : p.proto i = .ok k) : k ∈ p.protos := mem_of_nth? (resolve_eq_ok.1 h)

end Pool

end Dalvik
