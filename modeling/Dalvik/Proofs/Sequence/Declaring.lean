import Dalvik.Proofs.Elements
import Dalvik.Proofs.Sequence.Lasting

/-!
# Labels that are declared

`addElements` fails because of a label in two cases only: two lines declare it, or an element refers
to it and no line declares it (`complains_addElements`).
-/

namespace Dalvik

/-! ## Complaints -/

/-- A text was refused with this complaint. -/
def Complains {α : Type} (r : Except Stop α) (c : Complaint) : Prop := ∃ o, r = .error (.failure (.parse o c))

section Complains

variable {σ α β : Type} {c : Complaint} {s : σ}

@[simp] theorem complains_ok {a : α} : ¬ Complains (.ok a : Except Stop α) c := nofun

@[simp] theorem complains_fault {m : Option Bytes} : ¬ Complains (fault m : Except Stop α) c := nofun

@[simp] theorem complains_fail {cause : Failure} : Complains (fail cause : Except Stop α) c ↔ ∃ o, cause = .parse o c := by
  simp [Complains, fail]

theorem complains_bind {e : Except Stop α} {f : α → Except Stop β} :
    Complains (e >>= f) c ↔ Complains e c ∨ ∃ a, e = .ok a ∧ Complains (f a) c := by
  cases e with
  | ok a => exact ⟨fun h => .inr ⟨a, rfl, h⟩, by rintro (h | ⟨_, ⟨⟩, h⟩) <;> [exact absurd h complains_ok; exact h]⟩
  | error stop =>
    refine ⟨fun ⟨o, h⟩ => .inl ⟨o, ?_⟩, ?_⟩
    · cases h
      rfl
    · rintro (⟨o, h⟩ | ⟨_, h, -⟩) <;> cases h
      exact ⟨o, rfl⟩

@[simp] theorem complains_labelled {label : Bytes} {e : Except Stop α} : ¬ Complains (labelled label e) c := by
  rintro ⟨o, h⟩
  cases e with
  | ok a => cases h
  | error stop => cases stop <;> cases h

theorem complains_apply_bind {x : Action σ α} {f : α → Action σ β} :
    Complains ((x >>= f).apply s).1 c ↔ Complains (x.apply s).1 c ∨ ∃ a t, x.Gives s a t ∧ Complains ((f a).apply t).1 c := by
  rw [Action.apply_bind]
  unfold Action.Gives
  rcases e : x.apply s with ⟨r, t⟩
  cases r with
  | ok a => simp
  | error stop => simp [Complains]

@[simp] theorem complains_within {label : Bytes} {act : Action σ α} : ¬ Complains ((Action.within label act).apply s).1 c :=
  complains_labelled

/-- A loop fails with a complaint of one of its rounds. -/
theorem complains_forIn {f : β → Action σ PUnit} {xs : List β}
    (h : Complains ((forIn xs PUnit.unit fun x _ => do f x; pure (.yield PUnit.unit) : Action σ PUnit).apply s).1 c) :
    ∃ x ∈ xs, ∃ t, Complains ((f x).apply t).1 c := by
  induction xs generalizing s with
  | nil => exact absurd h complains_ok
  | cons x xs ih =>
    rw [List.forIn_cons] at h
    rcases complains_apply_bind.1 h with h | ⟨_, t, run, h⟩
    · rcases complains_apply_bind.1 h with h | ⟨_, t, -, h⟩
      · exact ⟨x, List.mem_cons_self, s, h⟩
      · exact absurd h complains_ok
    · obtain ⟨_, _, -, rfl, rfl⟩ := Action.gives_bind.1 run
      obtain ⟨y, hy, here⟩ := ih h
      exact ⟨y, List.mem_cons_of_mem _ hy, here⟩

/-- Every complaint of the action has the property `C`. -/
def Complaining (C : Complaint → Prop) (act : Action σ α) : Prop := ∀ s c, Complains (act.apply s).1 c → C c

namespace Complaining

variable {C : Complaint → Prop}

theorem pure (a : α) : Complaining C (pure a : Action σ α) := fun _ _ h => absurd h complains_ok

theorem lift {e : Except Stop α} (h : ∀ c, Complains e c → C c) : Complaining C (liftM e : Action σ α) := fun _ c hc => h c hc

theorem labelled (label : Bytes) (e : Except Stop α) : Complaining C (liftM (labelled label e) : Action σ α) :=
  lift fun _ h => absurd h complains_labelled

theorem within (label : Bytes) (act : Action σ α) : Complaining C (Action.within label act) :=
  fun _ _ h => absurd h complains_within

theorem bind {x : Action σ α} {f : α → Action σ β} (hx : Complaining C x) (hf : ∀ a, Complaining C (f a)) :
    Complaining C (x >>= f) := fun s c h => by
  rcases complains_apply_bind.1 h with h | ⟨a, t, -, h⟩
  · exact hx s c h
  · exact hf a t c h

theorem ite_bind {p : Prop} [Decidable p] {x y : Action σ α} {f : α → Action σ β} (hx : Complaining C x) (hy : Complaining C y)
    (hf : ∀ a, Complaining C (f a)) : Complaining C (if p then x >>= f else y >>= f) := by
  split
  · exact hx.bind hf
  · exact hy.bind hf

end Complaining

end Complains

theorem BitField.not_complains_read {f : BitField} {units : Units} {c : Complaint} : ¬ Complains (f.read units) c := by
  unfold BitField.read
  split <;> simp

theorem Instruction.not_complains_register {x : Instruction} {i : Int} {c : Complaint} : ¬ Complains (x.register i) c := by
  unfold Instruction.register
  dsimp only
  split
  · rw [complains_bind]
    rintro (h | ⟨_, -, h⟩)
    · exact BitField.not_complains_read h
    · exact complains_ok h
  · split
    · exact complains_fault
    · split
      · rw [complains_bind]
        rintro (h | ⟨_, -, h⟩)
        · exact BitField.not_complains_read h
        · exact complains_ok h
      · exact complains_fault

theorem Instruction.not_complains_new {op : Opcode} {c : Complaint} : ¬ Complains (Instruction.new op) c := by
  unfold Instruction.new
  split <;> simp

namespace Sequence

open Assembly (Body Element)

variable {s : Sequence} {body : Body} {c : Complaint}

/-! ## Single elements -/

theorem complains_placeRegisters {e : Assembly.Instruction} {x : Instruction} {i : Nat} {rs : List Assembly.Register}
    (h : Complains (placeRegisters e body x i rs) c) : ∃ r, c = .breaksRange r := by
  induction rs generalizing x i with
  | nil => exact absurd h complains_ok
  | cons r rs ih =>
    rw [placeRegisters] at h
    split at h
    · rcases complains_bind.1 h with h | ⟨_, -, h⟩
      · exact absurd h Instruction.not_complains_register
      · split at h
        · exact ih h
        · obtain ⟨o, e⟩ := complains_fail.1 h
          cases e
          exact ⟨_, rfl⟩
    · rcases complains_bind.1 h with h | ⟨_, -, h⟩
      · exact absurd h complains_labelled
      · exact ih h

/-- `assembleInstruction` complains only of its registers. -/
theorem complaining_assembleInstruction (e : Assembly.Instruction) :
    Complaining (fun c => ∃ r, c = .breaksRange r) (assembleInstruction e body) := by
  unfold assembleInstruction
  refine .bind (.lift fun c h => absurd h Instruction.not_complains_new) fun x => ?_
  refine .ite_bind (.labelled _ _) (.pure x) fun x => ?_
  refine .bind (.lift fun c => complains_placeRegisters) fun x => ?_
  refine .ite_bind (.labelled _ _) (.pure x) fun x => ?_
  refine .ite_bind (.within _ _) (.pure x) fun x => ?_
  dsimp only
  split
  · exact .within _ _
  · exact .pure x

theorem complaining_assembleElement (e : Element) :
    Complaining (fun c => ∃ r, c = .breaksRange r) (assembleElement body e) := by
  cases e with
  | instruction e =>
    refine .bind (fun s c h => ?_) fun x => .pure _
    exact complaining_assembleInstruction e s.pool c h
  | arrayData e => exact .bind (.labelled _ _) fun _ => .pure _
  | _ => exact .pure _

/-! ## Adding -/

/-- The names of the labels that the elements declare, in order. -/
def declared (es : List Element) : List Bytes :=
  es.filterMap fun
    | .label l => some l.name
    | _ => none

theorem declared_append (ds es : List Element) : declared (ds ++ es) = declared ds ++ declared es := List.filterMap_append

theorem declared_cons (e : Element) (es : List Element) : declared (e :: es) = declared [e] ++ declared es :=
  declared_append [e] es

/-- The names of the labels that the elements refer to. -/
def used (es : List Element) : List Bytes := es.flatMap labelsOf

/-- The labels that have a handle or are waiting for one. -/
def Progress.known (p : Progress) : List Bytes := p.pending ++ p.labels.map Prod.fst

/-- What is known after some more elements. -/
structure Grown (p : Progress) (es : List Element) (q : Progress) : Prop where
  declared : ∀ name, name ∈ q.declared ↔ name ∈ p.declared ∨ name ∈ declared es
  known : ∀ name, name ∈ p.known ∨ name ∈ Sequence.declared es → name ∈ q.known
  made : ∀ m ∈ q.made, m ∈ p.made ∨ m.2 ∈ es

namespace Grown

variable {p q r : Progress} {e : Element} {es : List Element}

theorem nil (p : Progress) : Grown p [] p := ⟨by simp [Sequence.declared], by simp [Sequence.declared], fun _ h => .inl h⟩

theorem cons (head : Grown p [e] q) (rest : Grown q es r) : Grown p (e :: es) r where
  declared name := by rw [rest.declared, head.declared, declared_cons e es, List.mem_append, or_assoc]
  known name h := by
    rw [declared_cons e es, List.mem_append, ← or_assoc] at h
    exact rest.known name (h.imp_left (head.known name))
  made m hm := by
    rcases rest.made m hm with hm | hm
    · exact (head.made m hm).imp_right fun h => List.mem_cons.2 (.inl (List.mem_singleton.1 h))
    · exact .inr (List.mem_cons_of_mem _ hm)

end Grown

theorem grown_addElement {p q : Progress} {e : Element} {t : Sequence} (run : (addElement body p e).Gives s q t) : Grown p [e] q := by
  unfold addElement at run
  split at run
  · next l =>
    split at run
    · simp at run
    · obtain ⟨rfl, -⟩ := Action.gives_pure.1 run
      refine ⟨fun name => ?_, fun name h => ?_, fun m hm => .inl hm⟩
      · simp [declared, or_comm]
      · simp only [Progress.known, declared, List.filterMap_cons, List.filterMap_nil, List.mem_append, List.mem_singleton] at h ⊢
        tauto
  · next line =>
    have absent : declared [e] = [] := by
      cases e with
      | label l => exact absurd rfl (line l)
      | _ => rfl
    obtain ⟨made, u, -, run⟩ := Action.gives_bind.1 run
    cases made with
    | none =>
      obtain ⟨rfl, -⟩ := Action.gives_pure.1 run
      exact ⟨by simp [absent], by simp [absent], fun m hm => .inl hm⟩
    | some item =>
      simp only [Action.gives_bind, Action.gives_get, Action.gives_pure] at run
      obtain ⟨_, _, ⟨rfl, rfl⟩, h, _, -, rfl, -⟩ := run
      refine ⟨by simp [absent], fun name known => ?_, fun m hm => ?_⟩
      · simpa [Progress.known, absent] using known
      · rcases List.mem_cons.1 hm with rfl | hm
        · exact .inr (List.mem_singleton_self e)
        · exact .inl hm

theorem complains_addElement {p : Progress} {e : Element} (h : Complains ((addElement body p e).apply s).1 c) :
    (∃ r, c = .breaksRange r) ∨ ∃ name ∈ declared [e], name ∈ p.declared ∧ c = .duplicateLabel name := by
  unfold addElement at h
  split at h
  · next l =>
    split at h
    · next there =>
      obtain ⟨o, e⟩ := complains_fail.1 h
      cases e
      exact .inr ⟨l.name, List.mem_singleton_self _, List.contains_iff_mem.1 there, rfl⟩
    · exact absurd h complains_ok
  · rcases complains_apply_bind.1 h with h | ⟨made, u, -, h⟩
    · exact .inl (complaining_assembleElement e s c h)
    · cases made with
      | none => exact absurd h complains_ok
      | some item =>
        have quiet : Complaining (fun _ => False) (do
            let n := (← get).nodes.size
            let h ← push item
            return { p with
              pending := []
              labels := p.pending.map (·, h) ++ p.labels
              made := (n, e) :: p.made } : Action Sequence Progress) :=
          .bind (fun _ _ => complains_ok) fun _ => .bind (fun _ _ => complains_ok) fun _ => .pure _
        exact (quiet u c h).elim

/-- `addElement` complains of a label only if it was declared before. -/
theorem complains_foldlM_addElement {p : Progress} {es : List Element}
    (h : Complains ((es.foldlM (addElement body) p).apply s).1 c) :
    (∃ r, c = .breaksRange r) ∨ ∃ name, c = .duplicateLabel name ∧ ¬ ((declared es).Nodup ∧ ∀ name ∈ declared es, name ∉ p.declared) := by
  induction es generalizing p s with
  | nil => exact absurd h complains_ok
  | cons e es ih =>
    rw [List.foldlM_cons] at h
    rw [declared_cons]
    rcases complains_apply_bind.1 h with h | ⟨q, t, run, h⟩
    · refine (complains_addElement h).imp_right fun ⟨name, mem, there, e⟩ => ⟨name, e, fun ⟨_, fresh⟩ => ?_⟩
      exact fresh name (List.mem_append_left _ mem) there
    · refine (ih h).imp_right fun ⟨name, e, twice⟩ => ⟨name, e, fun ⟨nodup, fresh⟩ => twice ?_⟩
      obtain ⟨-, nodup, apart⟩ := List.nodup_append.1 nodup
      refine ⟨nodup, fun name mem there => ?_⟩
      rcases ((grown_addElement run).declared name).1 there with there | here
      · exact fresh name (List.mem_append_right _ mem) there
      · exact apart name here name mem rfl

theorem grown_foldlM {p q : Progress} {es : List Element} {t : Sequence} (run : (es.foldlM (addElement body) p).Gives s q t) :
    Grown p es q := by
  induction es generalizing p s with
  | nil =>
    obtain ⟨rfl, -⟩ := Action.gives_pure.1 run
    exact .nil p
  | cons e es ih =>
    rw [List.foldlM_cons] at run
    obtain ⟨r, u, head, rest⟩ := Action.gives_bind.1 run
    exact (grown_addElement head).cons (ih rest)

/-! ## Resolving -/

theorem complains_resolveCases {find : Bytes → Except Stop Handle} {names : List Bytes} {cs : List Case}
    (h : Complains (resolveCases find names cs).1 c) : ∃ name ∈ names, Complains (find name) c := by
  induction names generalizing cs with
  | nil => exact absurd h complains_ok
  | cons name names ih =>
    cases cs with
    | nil => exact absurd h complains_ok
    | cons k cs =>
      rw [resolveCases] at h
      cases found : find name with
      | ok x =>
        rw [found] at h
        obtain ⟨other, mem, here⟩ := ih h
        exact ⟨other, List.mem_cons_of_mem _ mem, here⟩
      | error stop =>
        rw [found] at h
        obtain ⟨o, e⟩ := h
        cases e
        exact ⟨name, List.mem_cons_self, o, found⟩

theorem complains_findLabel {labels : List (Bytes × Handle)} {o : Origin} {name : Bytes} (h : Complains (findLabel labels o name) c) :
    name ∉ labels.map Prod.fst ∧ c = .unknownLabel name := by
  unfold findLabel at h
  split at h
  · exact absurd h complains_ok
  · next absent =>
    obtain ⟨o, e⟩ := complains_fail.1 h
    cases e
    refine ⟨fun mem => ?_, rfl⟩
    obtain ⟨l, hl, rfl⟩ := List.mem_map.1 mem
    exact absurd (List.find?_eq_none.1 absent l hl) (by simp)

/-- `resolveElement` complains only of a label that was not declared. -/
theorem complains_resolveElement {labels : List (Bytes × Handle)} {n : Nat} {e : Element}
    (h : Complains ((resolveElement labels n e).apply s).1 c) :
    ∃ name ∈ labelsOf e, name ∉ labels.map Prod.fst ∧ c = .unknownLabel name := by
  have table : ∀ names, Complains (resolveCases (findLabel labels e.origin) names
      (((s.node? n).map fun x => x.item.cases).getD [])).1 c → ∃ name ∈ names, name ∉ labels.map Prod.fst ∧ c = .unknownLabel name := by
    intro names h
    obtain ⟨name, mem, here⟩ := complains_resolveCases h
    exact ⟨name, mem, complains_findLabel here⟩
  cases e with
  | instruction e =>
    unfold resolveElement at h
    dsimp only at h
    split at h
    · exact absurd h complains_ok
    · next named =>
      rcases complains_apply_bind.1 h with h | ⟨_, _, -, h⟩
      · exact ⟨e.label, by simp [labelsOf, named], complains_findLabel h⟩
      · exact absurd h complains_ok
  | packedSwitch e => exact table e.targets h
  | sparseSwitch e => exact table (e.cases.map Prod.snd) h
  | _ => exact absurd h complains_ok

/-! ## The whole -/

/-- `addElements` complains of a register, of a label that two lines declare, or of a label that an element refers to
and no line declares. -/
theorem complains_addElements (h : Complains ((addElements body).apply s).1 c) :
    (∃ r, c = .breaksRange r) ∨ (∃ name, c = .duplicateLabel name ∧ ¬ (declared body.elements).Nodup) ∨
      ∃ name ∈ used body.elements, name ∉ declared body.elements ∧ c = .unknownLabel name := by
  unfold addElements at h
  rw [apply_bracketed] at h
  split at h
  · rcases complains_apply_bind.1 h with h | ⟨p, t, run, h⟩
    · refine (complains_foldlM_addElement h).imp_right fun ⟨name, e, twice⟩ => .inl ⟨name, e, fun nodup => twice ⟨nodup, ?_⟩⟩
      exact fun _ _ => List.not_mem_nil
    · have grown := grown_foldlM run
      rcases complains_apply_bind.1 h with h | ⟨_, _, -, h⟩
      · obtain ⟨m, hm, u, here⟩ := complains_forIn h
        obtain ⟨name, mem, absent, e⟩ := complains_resolveElement here
        have inside : m.2 ∈ body.elements :=
          (grown.made m (List.mem_reverse.1 hm)).resolve_left List.not_mem_nil
        refine .inr (.inr ⟨name, List.mem_flatMap.2 ⟨m.2, inside, mem⟩, fun there => absent ?_, e⟩)
        have known := grown.known name (.inr there)
        simpa [Progress.known] using known
      · exact absurd h complains_ok
  · next stop refused =>
    obtain ⟨o, e⟩ := h
    cases e
    unfold closeBracket at refused
    split at refused <;> cases refused

end Sequence

end Dalvik
