import Dalvik.Action
import Mathlib.Data.List.Forall2

/-!
# What an action gives

`act.Gives s a t` says that `act`, run on the state `s`, succeeds with the value `a` and leaves the
state `t`. Each constructor of actions has one `gives_…` lemma that says when it does so: a
successful run is taken apart by these lemmas, and a `for` loop by `gives_forIn` into one run for
each element.

`Upholds I act` says that `act` leaves a state with `I` when it starts in one, also when it fails.
-/

namespace List

theorem exists_forall₂ {α β : Type} {R : α → β → Prop} {xs : List α} (h : ∀ x ∈ xs, ∃ y, R x y) :
    ∃ ys, List.Forall₂ R xs ys := by
  induction xs with
  | nil => exact ⟨[], .nil⟩
  | cons x xs ih =>
    obtain ⟨y, hy⟩ := h x List.mem_cons_self
    obtain ⟨ys, hys⟩ := ih fun z hz => h z (List.mem_cons_of_mem _ hz)
    exact ⟨y :: ys, .cons hy hys⟩

end List

namespace Dalvik.Action

variable {σ τ α β : Type}

/-! ## Outcomes -/

theorem except_bind_eq_ok {e : Except Stop α} {f : α → Except Stop β} {b : β} :
    (e >>= f) = .ok b ↔ ∃ a, e = .ok a ∧ f a = .ok b := by
  cases e <;> simp [bind, Except.bind]

theorem except_ite_bind_eq_ok {p : Prop} [Decidable p] {e e' : Except Stop α} {f : α → Except Stop β} {b : β} :
    (if p then e >>= f else e' >>= f) = .ok b ↔ ∃ a, (if p then e else e') = .ok a ∧ f a = .ok b := by
  split <;> exact except_bind_eq_ok

theorem labelled_eq_ok {label : Bytes} {e : Except Stop α} {a : α} : labelled label e = .ok a ↔ e = .ok a := by
  cases e <;> simp [labelled, Except.mapError]

theorem except_mapM_eq_ok {f : α → Except Stop β} {xs : List α} {ys : List β} :
    xs.mapM f = .ok ys ↔ List.Forall₂ (fun x y => f x = .ok y) xs ys := by
  induction xs generalizing ys with
  | nil => cases ys <;> simp [pure, Except.pure]
  | cons x xs ih =>
    simp only [List.mapM_cons, except_bind_eq_ok, List.forall₂_cons_left_iff, ih]
    constructor
    · rintro ⟨y, hy, ys', hys, e⟩
      cases e
      exact ⟨y, ys', hy, hys, rfl⟩
    · rintro ⟨y, ys', hy, hys, rfl⟩
      exact ⟨y, hy, ys', hys, rfl⟩

@[simp] theorem apply_pure (a : α) (s : σ) : (pure a : Action σ α).apply s = (.ok a, s) := rfl

theorem apply_bind (x : Action σ α) (f : α → Action σ β) (s : σ) :
    (x >>= f).apply s =
      match x.apply s with
      | (.ok a, t) => (f a).apply t
      | (.error e, t) => (.error e, t) := by
  simp only [apply, bind, ExceptT.bind, ExceptT.run, ExceptT.mk, StateT.bind, StateT.run, Id.run]
  rcases x s with ⟨r, t⟩
  cases r <;> rfl

theorem apply_bind_of_ok {x : Action σ α} {f : α → Action σ β} {s t : σ} {a : α} (h : x.apply s = (.ok a, t)) :
    (x >>= f).apply s = (f a).apply t := by
  rw [apply_bind, h]

theorem apply_bind_of_error {x : Action σ α} {f : α → Action σ β} {s t : σ} {e : Stop} (h : x.apply s = (.error e, t)) :
    (x >>= f).apply s = (.error e, t) := by
  rw [apply_bind, h]

@[simp] theorem apply_get (s : σ) : (get : Action σ σ).apply s = (.ok s, s) := rfl

@[simp] theorem apply_set (s t : σ) : (set t : Action σ PUnit).apply s = (.ok ⟨⟩, t) := rfl

@[simp] theorem apply_modify (f : σ → σ) (s : σ) :
    (modify f : Action σ PUnit).apply s = (.ok ⟨⟩, f s) := rfl

@[simp] theorem apply_modifyGet (f : σ → α × σ) (s : σ) :
    (modifyGet f : Action σ α).apply s = (.ok (f s).1, (f s).2) := rfl

@[simp] theorem apply_throw (e : Stop) (s : σ) :
    (throw e : Action σ α).apply s = (.error e, s) := rfl

@[simp] theorem apply_lift (r : Except Stop α) (s : σ) :
    (liftM r : Action σ α).apply s = (r, s) := rfl

@[simp] theorem apply_of (f : σ → Except Stop α × σ) (s : σ) : (of f).apply s = f s := rfl

@[simp] theorem apply_on (get : σ → τ) (put : τ → σ → σ) (act : Action τ α) (s : σ) :
    (on get put act).apply s = ((act.apply (get s)).1, put (act.apply (get s)).2 s) := rfl

@[simp] theorem apply_attempt (act : Action σ α) (s : σ) :
    act.attempt.apply s = (.ok (act.apply s).1, (act.apply s).2) := rfl

@[simp] theorem apply_refuse (cause : Failure) (s : σ) :
    (refuse cause : Action σ α).apply s = (.error (.failure cause), s) := rfl

@[simp] theorem apply_within (label : Bytes) (act : Action σ α) (s : σ) :
    (within label act).apply s =
      ((act.apply s).1.mapError (Stop.within label), (act.apply s).2) := rfl

/-! ## Success -/

/-- `act.Gives s a t`: run on `s`, `act` succeeds with `a` and leaves `t`. -/
def Gives (act : Action σ α) (s : σ) (a : α) (t : σ) : Prop := act.apply s = (.ok a, t)

@[simp] theorem gives_pure {a b : α} {s t : σ} :
    (pure a : Action σ α).Gives s b t ↔ a = b ∧ s = t := by
  simp [Gives]

@[simp] theorem gives_bind {x : Action σ α} {f : α → Action σ β} {s u : σ} {b : β} :
    (x >>= f).Gives s b u ↔ ∃ a t, x.Gives s a t ∧ (f a).Gives t b u := by
  simp only [Gives, apply_bind]
  rcases x.apply s with ⟨r, t⟩
  cases r with
  | error e => simp
  | ok a =>
    constructor
    · exact fun h => ⟨a, t, rfl, h⟩
    · rintro ⟨_, _, ⟨⟩, h⟩
      exact h

theorem gives_ite_bind {p : Prop} [Decidable p] {x y : Action σ α} {f : α → Action σ β} {s u : σ} {b : β} :
    (if p then x >>= f else y >>= f).Gives s b u ↔
      ∃ a t, (if p then x else y).Gives s a t ∧ (f a).Gives t b u := by
  split <;> exact gives_bind

@[simp] theorem gives_get {s t u : σ} : (get : Action σ σ).Gives s t u ↔ s = t ∧ s = u := by
  simp [Gives]

/-- `get >>= f` succeeds on `s` if `f s` does. -/
theorem exists_gives_get {f : σ → Action σ α} {s : σ} {a : α} (h : ∃ t, (f s).Gives s a t) : ∃ t, (get >>= f).Gives s a t := by
  obtain ⟨t, h⟩ := h
  exact ⟨t, gives_bind.2 ⟨s, s, gives_get.2 ⟨rfl, rfl⟩, h⟩⟩

@[simp] theorem gives_set {s t u : σ} {v : PUnit} :
    (set t : Action σ PUnit).Gives s v u ↔ t = u := by
  simp [Gives]

@[simp] theorem gives_modify {f : σ → σ} {s t : σ} {v : PUnit} :
    (modify f : Action σ PUnit).Gives s v t ↔ f s = t := by
  simp [Gives]

@[simp] theorem gives_modifyGet {f : σ → α × σ} {s t : σ} {a : α} :
    (modifyGet f : Action σ α).Gives s a t ↔ f s = (a, t) := by
  simp [Gives, Prod.ext_iff]

@[simp] theorem not_gives_throw {e : Stop} {s t : σ} {a : α} :
    ¬ (throw e : Action σ α).Gives s a t := by
  simp [Gives]

@[simp] theorem not_gives_refuse {cause : Failure} {s t : σ} {a : α} :
    ¬ (refuse cause : Action σ α).Gives s a t := by
  simp [Gives]

@[simp] theorem gives_lift {r : Except Stop α} {s t : σ} {a : α} :
    (liftM r : Action σ α).Gives s a t ↔ r = .ok a ∧ s = t := by
  simp [Gives]

@[simp] theorem gives_of {f : σ → Except Stop α × σ} {s t : σ} {a : α} :
    (of f).Gives s a t ↔ f s = (.ok a, t) := Iff.rfl

@[simp] theorem gives_on {get : σ → τ} {put : τ → σ → σ} {act : Action τ α} {s t : σ} {a : α} :
    (on get put act).Gives s a t ↔ ∃ v, act.Gives (get s) a v ∧ put v s = t := by
  simp only [Gives, apply_on]
  rcases act.apply (get s) with ⟨r, v⟩
  constructor
  · rintro ⟨⟩
    exact ⟨v, rfl, rfl⟩
  · rintro ⟨_, ⟨⟩, rfl⟩
    rfl

@[simp] theorem gives_attempt {act : Action σ α} {s t : σ} {r : Except Stop α} :
    act.attempt.Gives s r t ↔ act.apply s = (r, t) := by
  simp [Gives, Prod.ext_iff]

@[simp] theorem gives_within {label : Bytes} {act : Action σ α} {s t : σ} {a : α} :
    (within label act).Gives s a t ↔ act.Gives s a t := by
  simp only [Gives, apply_within]
  rcases act.apply s with ⟨r, u⟩
  cases r <;> simp [Except.mapError]

theorem Gives.apply_snd {act : Action σ α} {s t : σ} {a : α} (h : act.Gives s a t) : (act.apply s).2 = t :=
  congrArg Prod.snd h

theorem Gives.unique {act : Action σ α} {s t u : σ} {a b : α}
    (ht : act.Gives s a t) (hu : act.Gives s b u) : a = b ∧ t = u := by
  have h : (Except.ok a, t) = (Except.ok b, u) := ht.symm.trans hu
  simpa using h

/-! ## Evaluated outcomes -/

theorem eq_ok_of_toOption {e : Except Stop α} {a : α} (h : e.toOption = some a) : e = .ok a := by
  cases e with
  | error e => cases h
  | ok b =>
    cases h
    rfl

theorem gives_of_toOption {act : Action σ α} {s : σ} {a : α} (h : (act.apply s).1.toOption = some a) :
    act.Gives s a (act.apply s).2 :=
  Prod.ext (eq_ok_of_toOption h) (Eq.refl _)

/-! ## Loops -/

/-- `Each f xs s t`: the actions `f x` for the elements `x` of `xs` succeed one after the other and lead from `s` to
`t`. -/
inductive Each (f : β → Action σ PUnit) : List β → σ → σ → Prop where
  | nil (s : σ) : Each f [] s s
  | cons {x : β} {xs : List β} {s t u : σ} (head : (f x).Gives s ⟨⟩ t) (rest : Each f xs t u) :
      Each f (x :: xs) s u

theorem gives_forIn {f : β → Action σ PUnit} {xs : List β} {s t : σ} {v : PUnit} :
    (forIn xs PUnit.unit fun x _ => do f x; pure (.yield PUnit.unit) : Action σ PUnit).Gives s v t ↔
      Each f xs s t := by
  induction xs generalizing s with
  | nil =>
    rw [List.forIn_nil, gives_pure]
    constructor
    · rintro ⟨-, rfl⟩
      exact .nil s
    · rintro ⟨⟩
      exact ⟨rfl, rfl⟩
  | cons x xs ih =>
    simp only [List.forIn_cons, gives_bind, gives_pure]
    constructor
    · rintro ⟨_, _, ⟨_, m, hx, rfl, rfl⟩, hxs⟩
      exact .cons hx (ih.1 hxs)
    · rintro (_ | ⟨hx, hxs⟩)
      exact ⟨_, _, ⟨_, _, hx, rfl, rfl⟩, ih.2 hxs⟩

theorem apply_forIn_of_ok {f : β → Action σ PUnit} {x : β} {xs : List β} {s t : σ} (h : (f x).Gives s ⟨⟩ t) :
    (forIn (x :: xs) PUnit.unit fun x _ => do f x; pure (.yield PUnit.unit) : Action σ PUnit).apply s =
      (forIn xs PUnit.unit fun x _ => do f x; pure (.yield PUnit.unit) : Action σ PUnit).apply t := by
  have first : (do f x; pure (.yield PUnit.unit) : Action σ (ForInStep PUnit)).apply s = (.ok (.yield ⟨⟩), t) :=
    apply_bind_of_ok h
  rw [List.forIn_cons, apply_bind_of_ok first]

theorem apply_forIn_of_error {f : β → Action σ PUnit} {x : β} {xs : List β} {s t : σ} {e : Stop}
    (h : (f x).apply s = (.error e, t)) :
    (forIn (x :: xs) PUnit.unit fun x _ => do f x; pure (.yield PUnit.unit) : Action σ PUnit).apply s = (.error e, t) := by
  have first : (do f x; pure (.yield PUnit.unit) : Action σ (ForInStep PUnit)).apply s = (.error e, t) :=
    apply_bind_of_error h
  rw [List.forIn_cons, apply_bind_of_error first]

theorem Each.self {f : β → Action σ PUnit} {xs : List β} {s : σ} (h : ∀ x ∈ xs, (f x).Gives s ⟨⟩ s) : Each f xs s s := by
  induction xs with
  | nil => exact .nil s
  | cons x xs ih => exact .cons (h x List.mem_cons_self) (ih fun y hy => h y (List.mem_cons_of_mem _ hy))

/-- A loop over the positions of a list that the state holds. If the turn at the position of `x` replaces `x` by some
`y` with `R x y` and changes nothing else, the loop replaces every element in this way. -/
theorem each_range {f : Nat → Action σ PUnit} {hold : List α → σ} {R : α → α → Prop}
    (step : ∀ done x rest u, (f done.length).Gives (hold (done ++ x :: rest)) ⟨⟩ u ↔
      ∃ y, R x y ∧ u = hold (done ++ y :: rest)) (done xs : List α) {u : σ} :
    Each f (List.range' done.length xs.length) (hold (done ++ xs)) u ↔
      ∃ ys, List.Forall₂ R xs ys ∧ u = hold (done ++ ys) := by
  induction xs generalizing done with
  | nil =>
    constructor
    · rintro ⟨⟩
      exact ⟨[], .nil, rfl⟩
    · rintro ⟨_, ⟨⟩, rfl⟩
      exact .nil _
  | cons x xs ih =>
    rw [List.length_cons, List.range'_succ]
    have next : ∀ y, Each f (List.range' (done.length + 1) xs.length) (hold (done ++ y :: xs)) u ↔
        ∃ ys, List.Forall₂ R xs ys ∧ u = hold (done ++ y :: ys) := by
      intro y
      have := ih (done ++ [y])
      simpa using this
    constructor
    · rintro (_ | ⟨head, rest⟩)
      obtain ⟨y, hR, rfl⟩ := (step done x xs _).1 head
      obtain ⟨ys, hRs, rfl⟩ := (next y).1 rest
      exact ⟨y :: ys, .cons hR hRs, rfl⟩
    · rintro ⟨_, related, rfl⟩
      obtain ⟨y, ys, hR, hRs, rfl⟩ := List.forall₂_cons_left_iff.1 related
      exact .cons ((step done x xs _).2 ⟨y, hR, rfl⟩) ((next y).2 ⟨ys, hRs, rfl⟩)

/-- A property that every turn keeps holds after the loop. -/
theorem Each.keeps {f : β → Action σ PUnit} {P : σ → Prop} {xs : List β} {s t : σ}
    (h : Each f xs s t) (step : ∀ x ∈ xs, ∀ s t, (f x).Gives s ⟨⟩ t → P s → P t) (hs : P s) :
    P t := by
  induction h with
  | nil => exact hs
  | @cons x xs s t u head _ ih =>
    refine ih (fun y hy => step y (List.mem_cons_of_mem _ hy)) ?_
    exact step x List.mem_cons_self s t head hs

/-! ## Runs beside a plainer one -/

section

variable {ε : Type} {R : σ → τ → Prop} {f : σ → ε → Except Stop σ} {g : τ → ε → Option τ} {s : σ} {t : τ}

/-- `Follows R r o`: the failed result `r` goes with `none`, and the result `.ok s` with a `t` for which `R s t`. -/
def Follows (R : σ → τ → Prop) : Except Stop σ → Option τ → Prop
  | .ok s, some t => R s t
  | .error _, none => True
  | _, _ => False

/-- If each step of `f` follows the step of `g` on related states, then folding `f` follows folding `g`. -/
theorem follows_foldlM (step : ∀ s t e, R s t → Follows R (f s e) (g t e)) (h : R s t) (es : List ε) :
    Follows R (es.foldlM f s) (es.foldlM g t) := by
  induction es generalizing s t with
  | nil => exact h
  | cons e es ih =>
    have first := step s t e h
    rw [List.foldlM_cons, List.foldlM_cons]
    cases hf : f s e with
    | error stop =>
      cases hg : g t e with
      | none => trivial
      | some u =>
        rw [hf, hg] at first
        exact first.elim
    | ok r =>
      cases hg : g t e with
      | none =>
        rw [hf, hg] at first
        exact first.elim
      | some u =>
        rw [hf, hg] at first
        exact ih first

theorem Follows.fails_iff {e : Except Stop σ} {o : Option τ} (h : Follows R e o) : (∃ stop, e = .error stop) ↔ o = none := by
  cases e with
  | error stop =>
    cases o with
    | none => exact ⟨fun _ => rfl, fun _ => ⟨stop, rfl⟩⟩
    | some t => exact h.elim
  | ok s =>
    cases o with
    | none => exact h.elim
    | some t => exact ⟨nofun, nofun⟩

theorem Follows.exists_of_ok {e : Except Stop σ} {o : Option τ} (h : Follows R e o) (ok : e = .ok s) : ∃ t, o = some t ∧ R s t := by
  subst ok
  cases o with
  | none => exact h.elim
  | some t => exact ⟨t, rfl, h⟩

end

/-! ## What holds whatever comes of it -/

section

variable {I : σ → Prop} {s : σ}

/-- `Upholds I act`: from a state with `I`, `act` leaves a state with `I`, whether it succeeds or not. -/
def Upholds (I : σ → Prop) (act : Action σ α) : Prop := ∀ s, I s → I (act.apply s).2

theorem after_bind {x : Action σ α} {f : α → Action σ β} (hx : I (x.apply s).2)
    (hf : ∀ a t, x.Gives s a t → I ((f a).apply t).2) : I ((x >>= f).apply s).2 := by
  rw [apply_bind]
  rcases e : x.apply s with ⟨r, t⟩
  rw [e] at hx
  cases r with
  | ok a => exact hf a t e
  | error stop => exact hx

theorem upholds_pure (a : α) : Upholds I (pure a : Action σ α) := fun _ h => h

theorem upholds_lift (r : Except Stop α) : Upholds I (liftM r : Action σ α) := fun _ h => h

theorem upholds_throw (e : Stop) : Upholds I (throw e : Action σ α) := fun _ h => h

theorem upholds_refuse (cause : Failure) : Upholds I (refuse cause : Action σ α) := fun _ h => h

theorem upholds_modify {f : σ → σ} (h : ∀ s, I s → I (f s)) : Upholds I (modify f : Action σ PUnit) := h

theorem upholds_set {s : σ} (h : I s) : Upholds I (set s : Action σ PUnit) := fun _ _ => h

theorem upholds_modifyGet {f : σ → α × σ} (h : ∀ s, I s → I (f s).2) : Upholds I (modifyGet f : Action σ α) := h

/-- `get >>= f` leaves what `f s` leaves, where `s` is the state it starts in. -/
theorem upholds_get {f : σ → Action σ α} (h : ∀ s, I s → I ((f s).apply s).2) : Upholds I (get >>= f) :=
  fun _ hs => after_bind hs fun _ _ e => by
    obtain ⟨rfl, rfl⟩ := gives_get.1 e
    exact h _ hs

theorem upholds_on {get : σ → τ} {put : τ → σ → σ} {act : Action τ α} (h : ∀ v s, I s → I (put v s)) :
    Upholds I (on get put act) :=
  fun _ hs => h _ _ hs

/-- `on get put act` leaves the state in which `put` stores the part that `act` leaves. -/
theorem upholds_on_left {get : σ → τ} {put : τ → σ → σ} {act : Action τ α}
    (h : ∀ s, I s → I (put (act.apply (get s)).2 s)) : Upholds I (on get put act) := h

namespace Upholds

theorem gives {act : Action σ α} {a : α} {t : σ} (h : Upholds I act) (hs : I s) (run : act.Gives s a t) : I t := by
  have after := h s hs
  rwa [show act.apply s = _ from run] at after

theorem bind {x : Action σ α} {f : α → Action σ β} (hx : Upholds I x) (hf : ∀ a, Upholds I (f a)) :
    Upholds I (x >>= f) :=
  fun s hs => after_bind (hx s hs) fun a t e => hf a t (hx.gives hs e)

/-- `get >>= f` upholds `I` if `f s` does for every state `s` with `I`. -/
theorem get_bind {f : σ → Action σ α} (h : ∀ s, I s → Upholds I (f s)) : Upholds I (get >>= f) :=
  upholds_get fun s hs => h s hs s hs

theorem ite {p : Prop} [Decidable p] {x y : Action σ α} (hx : Upholds I x) (hy : Upholds I y) :
    Upholds I (if p then x else y) := by
  split
  · exact hx
  · exact hy

theorem forIn {xs : List α} {f : α → β → Action σ (ForInStep β)} (h : ∀ x b, Upholds I (f x b)) (init : β) :
    Upholds I (ForIn.forIn xs init f : Action σ β) := by
  induction xs generalizing init with
  | nil => exact upholds_pure init
  | cons x xs ih =>
    rw [List.forIn_cons]
    refine bind (h x init) fun step => ?_
    cases step with
    | done b => exact upholds_pure b
    | yield b => exact ih b

theorem each {xs : List α} {f : α → Action σ PUnit} (h : ∀ x, Upholds I (f x)) :
    Upholds I (ForIn.forIn xs PUnit.unit fun x _ => do f x; pure (.yield PUnit.unit) : Action σ PUnit) :=
  forIn (fun x _ => bind (h x) fun _ => upholds_pure _) _

theorem foldlM {xs : List α} {f : β → α → Action σ β} (h : ∀ b, ∀ x ∈ xs, Upholds I (f b x)) (init : β) :
    Upholds I (xs.foldlM f init) := by
  induction xs generalizing init with
  | nil => exact upholds_pure init
  | cons x xs ih =>
    rw [List.foldlM_cons]
    exact bind (h init x List.mem_cons_self) (ih fun b y hy => h b y (List.mem_cons_of_mem _ hy))

end Upholds

end

end Dalvik.Action
