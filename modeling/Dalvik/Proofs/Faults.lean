import Dalvik.Proofs.Reading
import Dalvik.Table

/-!
# Runs without a fault

`Ends F act J s` says how `act` may end when it is run on `s`: with success, and then `J` holds of
the value and the state it leaves; with a failure, about which nothing is said; or at a fault that
`F` allows. The readers of an image's parts are `Careful`: they come to no fault, and the cursor
they return is `Sane`. One lemma for each way of putting actions together carries this over to all
of them.
-/

namespace Dalvik

/-- `e` is no fault. -/
def Faultless {α : Type} (e : Except Stop α) : Prop := ∀ m, e ≠ .error (.fault m)

namespace Faultless

variable {α β : Type} {e : Except Stop α}

theorem ok (a : α) : Faultless (.ok a) := nofun

theorem fail (cause : Failure) : Faultless (fail cause : Except Stop α) := nofun

theorem bind {f : α → Except Stop β} (he : Faultless e) (hf : ∀ a, e = .ok a → Faultless (f a)) : Faultless (e >>= f) := by
  cases e with
  | ok a => exact hf a rfl
  | error stop =>
    intro m h
    exact he m (by cases h; rfl)

theorem map {f : α → β} (he : Faultless e) : Faultless (e.map f) := by
  cases e with
  | ok a => exact nofun
  | error stop =>
    intro m h
    exact he m (by cases h; rfl)

theorem labelled {label : Bytes} (he : Faultless e) : Faultless (labelled label e) := by
  cases e with
  | ok a => exact nofun
  | error stop =>
    cases stop with
    | failure cause => exact nofun
    | fault m => exact absurd rfl (he m)

end Faultless

namespace Action

variable {σ τ α β : Type} {F : Option Bytes → σ → Prop} {J K : α → σ → Prop} {s : σ}

/-! ## How an action ends -/

/-- Run on `s`, `act` succeeds with `J`, or fails, or comes to a fault that `F` allows. -/
structure Ends (F : Option Bytes → σ → Prop) (act : Action σ α) (J : α → σ → Prop) (s : σ) : Prop where
  gives : ∀ {a t}, act.Gives s a t → J a t
  faults : ∀ {m t}, act.apply s = (.error (.fault m), t) → F m t

/-- The `F` of `Ends` that allows no fault. -/
def never (_ : Option Bytes) (_ : σ) : Prop := False

theorem ends_of_ok {act : Action σ α} {a : α} {t : σ} (e : act.apply s = (.ok a, t)) (h : J a t) : Ends F act J s where
  gives g := by
    obtain ⟨rfl, rfl⟩ := Gives.unique e g
    exact h
  faults f := by
    rw [e] at f
    cases f

theorem ends_of_error {act : Action σ α} {stop : Stop} {t : σ} (e : act.apply s = (.error stop, t))
    (h : ∀ m, stop = .fault m → F m t) : Ends F act J s where
  gives g := by
    rw [Gives, e] at g
    cases g
  faults f := by
    rw [e] at f
    cases f
    exact h _ rfl

theorem ends_iff {act : Action σ α} {r : Except Stop α} {t : σ} (e : act.apply s = (r, t)) :
    Ends F act J s ↔ (∀ a, r = .ok a → J a t) ∧ ∀ m, r = .error (.fault m) → F m t := by
  constructor
  · rintro ⟨gives, faults⟩
    exact ⟨fun a ok => gives (by rw [Gives, e, ok]), fun m fault => faults (by rw [e, fault])⟩
  · rintro ⟨gives, faults⟩
    cases r with
    | ok a => exact ends_of_ok e (gives a rfl)
    | error stop => exact ends_of_error e fun m h => faults m (by rw [h])

theorem Ends.faultless {act : Action σ α} (h : Ends never act J s) : Faultless (act.apply s).1 := by
  intro m e
  exact h.faults (Prod.ext e rfl)

theorem Ends.mono {act : Action σ α} (h : Ends F act J s) (hJ : ∀ a t, J a t → K a t) : Ends F act K s :=
  ⟨fun e => hJ _ _ (h.gives e), h.faults⟩

theorem Ends.with_gives {act : Action σ α} (h : Ends F act J s) : Ends F act (fun a t => J a t ∧ act.Gives s a t) s :=
  ⟨fun e => ⟨h.gives e, e⟩, h.faults⟩

@[simp] theorem ends_pure {a : α} : Ends F (pure a) J s ↔ J a s := by
  rw [ends_iff (apply_pure a s)]
  simp

@[simp] theorem ends_get {J : σ → σ → Prop} : Ends F get J s ↔ J s s := by
  rw [ends_iff (apply_get s)]
  simp

@[simp] theorem ends_set {J : PUnit → σ → Prop} {t : σ} : Ends F (set t) J s ↔ J ⟨⟩ t := by
  rw [ends_iff (apply_set s t)]
  exact ⟨fun h => h.1 ⟨⟩ rfl, fun h => ⟨fun _ _ => h, nofun⟩⟩

@[simp] theorem ends_modify {J : PUnit → σ → Prop} {f : σ → σ} : Ends F (modify f) J s ↔ J ⟨⟩ (f s) := by
  rw [ends_iff (apply_modify f s)]
  exact ⟨fun h => h.1 ⟨⟩ rfl, fun h => ⟨fun _ _ => h, nofun⟩⟩

@[simp] theorem ends_refuse {cause : Failure} : Ends F (refuse cause : Action σ α) J s ↔ True := by
  rw [ends_iff (apply_refuse cause s)]
  simp

@[simp] theorem ends_bind {x : Action σ α} {f : α → Action σ β} {J : β → σ → Prop} :
    Ends F (x >>= f) J s ↔ Ends F x (fun a t => Ends F (f a) J t) s := by
  have step := apply_bind x f s
  rcases e : x.apply s with ⟨r, t⟩
  rw [e] at step
  cases r with
  | error stop =>
    rw [ends_iff step, ends_iff e]
    simp
  | ok a =>
    rw [ends_iff e]
    dsimp only at step
    rcases next : (f a).apply t with ⟨q, u⟩
    rw [next] at step
    rw [ends_iff step]
    simp [ends_iff next]

theorem ends_lift {e : Except Stop α} (faults : ∀ m, e = .error (.fault m) → F m s) (hJ : ∀ a, e = .ok a → J a s) :
    Ends F (liftM e) J s :=
  (ends_iff (apply_lift e s)).2 ⟨hJ, faults⟩

@[simp] theorem ends_within {label : Bytes} {act : Action σ α} : Ends F (within label act) J s ↔ Ends F act J s := by
  have step := apply_within label act s
  rcases e : act.apply s with ⟨r, t⟩
  rw [e] at step
  rw [ends_iff step, ends_iff e]
  cases r with
  | ok a => simp [Except.mapError]
  | error stop => cases stop <;> simp [Except.mapError, Stop.within]

/-- `on get put act` ends well if `act` does on the part, and `J` follows from what `act` leaves there. -/
theorem ends_on {get : σ → τ} {put : τ → σ → σ} {act : Action τ α} {K : α → τ → Prop} (h : Ends never act K (get s))
    (hJ : ∀ a v, K a v → J a (put v s)) : Ends F (on get put act) J s where
  gives e := by
    obtain ⟨v, run, rfl⟩ := gives_on.1 e
    exact hJ _ v (h.gives run)
  faults e := by
    rw [apply_on] at e
    exact (h.faults (Prod.ext (Prod.mk.inj e).1 rfl)).elim

/-! ## Loops -/

theorem ends_forIn {f : β → Action σ α} {I : σ → Prop} {xs : List β}
    (step : ∀ x ∈ xs, ∀ s, I s → Ends F (f x) (fun _ t => I t) s) (hs : I s) :
    Ends F (forIn xs PUnit.unit fun x _ => do let _ ← f x; pure (.yield PUnit.unit) : Action σ PUnit) (fun _ t => I t) s := by
  induction xs generalizing s with
  | nil => exact ends_pure.2 hs
  | cons x xs ih =>
    rw [List.forIn_cons]
    simp only [ends_bind, ends_pure]
    exact (step x List.mem_cons_self s hs).mono fun _ t ht => ih (fun y hy => step y (List.mem_cons_of_mem _ hy)) ht

theorem ends_mapM {f : β → Action σ α} {I : σ → Prop} {P : α → Prop} {xs : List β}
    (step : ∀ x ∈ xs, ∀ s, I s → Ends F (f x) (fun a t => P a ∧ I t) s) (hs : I s) :
    Ends F (xs.mapM f) (fun ys t => (∀ y ∈ ys, P y) ∧ I t) s := by
  induction xs generalizing s with
  | nil =>
    rw [List.mapM_nil, ends_pure]
    exact ⟨by simp, hs⟩
  | cons x xs ih =>
    rw [List.mapM_cons]
    simp only [ends_bind, ends_pure]
    refine (step x List.mem_cons_self s hs).mono fun a t here => ?_
    obtain ⟨ha, ht⟩ := here
    refine (ih (fun y hy => step y (List.mem_cons_of_mem _ hy)) ht).mono fun ys u rest => ?_
    obtain ⟨hys, hu⟩ := rest
    refine ⟨?_, hu⟩
    rintro y (_ | ⟨_, hy⟩)
    · exact ha
    · exact hys y hy

end Action

open Dalvik.Action

/-! ## Reading with care -/

/-- Run on any state, the action comes to no fault, and the cursor it returns is sane. -/
def Careful {σ : Type} (act : Action σ Cursor) : Prop := ∀ s, Ends never act (fun c _ => c.Sane) s

namespace Careful

variable {σ τ α : Type} {c : Cursor}

theorem pure (hc : c.Sane) : Careful (pure c : Action σ Cursor) := fun _ => ends_pure.2 hc

theorem refuse (cause : Failure) : Careful (Action.refuse cause : Action σ Cursor) := fun _ => ends_refuse.2 trivial

theorem bind {x : Action σ Cursor} {f : Cursor → Action σ Cursor} (hx : Careful x) (hf : ∀ c, c.Sane → Careful (f c)) :
    Careful (x >>= f) :=
  fun s => ends_bind.2 ((hx s).mono fun c t hc => hf c hc t)

theorem get_bind {f : σ → Action σ Cursor} (hf : ∀ s, Careful (f s)) : Careful (get >>= f) :=
  fun s => ends_bind.2 (ends_get.2 (hf s s))

theorem modify_bind {f : σ → σ} {act : PUnit → Action σ Cursor} (h : Careful (act ⟨⟩)) : Careful (modify f >>= act) :=
  fun s => ends_bind.2 (ends_modify.2 (h (f s)))

theorem set_bind {s : σ} {act : PUnit → Action σ Cursor} (h : Careful (act ⟨⟩)) : Careful (set s >>= act) :=
  fun _ => ends_bind.2 (ends_set.2 (h s))

theorem lift_bind {e : Except Stop α} {f : α → Action σ Cursor} (he : Faultless e)
    (hf : ∀ a, e = .ok a → Careful (f a)) : Careful (liftM e >>= f) :=
  fun s => ends_bind.2 (ends_lift (fun m h => (he m h).elim) fun a h => hf a h s)

/-- The outcome of a careful action on another state, lifted, is careful. -/
theorem lift_apply {act : Action τ Cursor} {v : τ} (h : Careful act) : Careful (liftM (act.apply v).1 : Action σ Cursor) :=
  fun _ => ends_lift (fun m e => ((h v).faultless m e).elim) fun _ e => (h v).gives (Prod.ext e rfl)

theorem lift_apply_bind {act : Action τ Cursor} {v : τ} {f : Cursor → Action σ Cursor} (h : Careful act)
    (hf : ∀ c, c.Sane → Careful (f c)) : Careful (liftM (act.apply v).1 >>= f) :=
  .lift_bind (h v).faultless fun c e => hf c ((h v).gives (Prod.ext e rfl))

theorem ite_bind {p : Prop} [Decidable p] {x y : Action σ Cursor} {f : Cursor → Action σ Cursor} (hx : Careful x)
    (hy : Careful y) (hf : ∀ c, c.Sane → Careful (f c)) : Careful (if p then x >>= f else y >>= f) := by
  split
  · exact .bind hx hf
  · exact .bind hy hf

theorem forIn_bind {β : Type} {f : β → Action σ PUnit} {xs : List β} {act : PUnit → Action σ Cursor}
    (hf : ∀ x s, Ends never (f x) (fun _ _ => True) s) (h : Careful (act ⟨⟩)) :
    Careful ((forIn xs PUnit.unit fun x _ => do f x; Pure.pure (.yield PUnit.unit) : Action σ PUnit) >>= act) :=
  fun _ => ends_bind.2 ((ends_forIn (I := fun _ => True) (fun x _ s _ => hf x s) trivial).mono fun _ t _ => h t)

theorem on {get : σ → τ} {put : τ → σ → σ} {act : Action τ Cursor} (h : Careful act) : Careful (Action.on get put act) :=
  fun _ => ends_on (h _) fun _ _ hc => hc

/-- `decodeEach` is careful if the reader of one element is. -/
theorem each {element : Cursor → Action α Cursor} (h : ∀ c, c.Sane → Careful (element c)) (hc : c.Sane) (i : Nat) :
    Careful (Action.of fun xs => decodeEach element i xs c) := by
  intro xs
  induction xs generalizing c i with
  | nil => exact ends_of_ok rfl hc
  | cons x xs ih =>
    rcases e : (element c).apply x with ⟨r, y⟩
    have run := (ends_iff e).1 (h c hc x)
    cases r with
    | error stop =>
      refine ends_of_error (by rw [apply_of, decodeEach, e]) fun m stopped => ?_
      cases stop with
      | failure cause => cases stopped
      | fault m => exact run.2 m rfl
    | ok c₁ =>
      rcases rest : decodeEach element (i + 1) xs c₁ with ⟨q, ys⟩
      have next := (ends_iff (by rw [apply_of, rest])).1 (ih (run.1 c₁ rfl) (i + 1))
      refine (ends_iff (r := q) (t := y :: ys) ?_).2 next
      rw [apply_of, decodeEach, e]
      dsimp only
      rw [rest]

end Careful

variable {c : Cursor} {σ : Type}

/-! ## Fields -/

namespace Cursor

theorem faultless_need (n : Int) : Faultless (c.need n) := by
  unfold need
  split
  · exact .fail _
  · exact .ok _

theorem faultless_number (width : Nat) : Faultless (c.number width) :=
  (faultless_need _).bind fun _ _ => .ok _

theorem faultless_u8 : Faultless c.u8 := (faultless_number 1).bind fun _ _ => .ok _
theorem faultless_u16 : Faultless c.u16 := (faultless_number 2).bind fun _ _ => .ok _
theorem faultless_u32 : Faultless c.u32 := (faultless_number 4).bind fun _ _ => .ok _

theorem faultless_uleb : Faultless c.uleb := by
  unfold uleb
  split
  · exact .ok _
  · exact .fail _

theorem faultless_sleb : Faultless c.sleb := by
  unfold sleb
  split
  · exact .ok _
  · exact .fail _

/-- `peek n` comes to no fault for a count up to `maxRun`. -/
theorem faultless_peek (hc : c.Sane) {n : Nat} (hn : (n : Int) ≤ maxRun) : Faultless (c.peek n) := by
  refine (faultless_need _).bind fun _ enough => ?_
  have := (need_eq_ok hc hn).1 enough
  rw [if_neg (by omega)]
  exact .ok _

theorem faultless_bytes (hc : c.Sane) {n : Nat} (hn : (n : Int) ≤ maxRun) : Faultless (c.bytes n) :=
  (faultless_peek hc hn).bind fun _ _ => .ok _

end Cursor

/-- An action whose outcome is that of a reader without faults is careful. -/
theorem careful_of_reader {α β : Type} {act : Action α Cursor} {e : Except Stop β} {k : β → Cursor}
    (run : ∀ s, (act.apply s).1 = e.map k) (faultless : Faultless e) (sane : ∀ b, e = .ok b → (k b).Sane) :
    Careful act := by
  intro s
  refine (ends_iff (Prod.ext (run s) rfl)).2 ⟨fun c' h => ?_, fun m h => (faultless.map m h).elim⟩
  cases e with
  | ok b =>
    cases h
    exact sane b rfl
  | error stop => cases h

theorem careful_fixed {α : Type} {zero : α} {read : Cursor → Except Stop (α × Cursor)} (faultless : Faultless (read c))
    (sane : ∀ v c', read c = .ok (v, c') → c'.Sane) : Careful (decodeFixed zero read c) := by
  refine careful_of_reader (fun s => ?_) faultless fun p h => sane p.1 p.2 h
  rw [decodeFixed, apply_of]
  cases read c <;> rfl

theorem careful_u8 (hc : c.Sane) : Careful (decodeU8 c) :=
  careful_fixed Cursor.faultless_u8 fun _ _ h => ((Cursor.u8_eq_ok hc).1 h).sane hc

theorem careful_u16 (hc : c.Sane) : Careful (decodeU16 c) :=
  careful_fixed Cursor.faultless_u16 fun _ _ h => ((Cursor.u16_eq_ok hc).1 h).sane hc

theorem careful_u32 (hc : c.Sane) : Careful (decodeU32 c) :=
  careful_fixed Cursor.faultless_u32 fun _ _ h => ((Cursor.u32_eq_ok hc).1 h).sane hc

theorem careful_uleb (hc : c.Sane) : Careful (Uleb.decode c) := by
  refine careful_of_reader (e := c.uleb) (k := fun p => p.2.2) (fun s => ?_) Cursor.faultless_uleb fun p h => ?_
  · rw [Uleb.decode, apply_of]
    cases c.uleb <;> rfl
  · obtain ⟨_, -, spans, -⟩ := Cursor.uleb_eq_ok.1 h
    exact spans.sane hc

theorem careful_sleb (hc : c.Sane) : Careful (Sleb.decode c) := by
  refine careful_of_reader (e := c.sleb) (k := fun p => p.2.2) (fun s => ?_) Cursor.faultless_sleb fun p h => ?_
  · rw [Sleb.decode, apply_of]
    cases c.sleb <;> rfl
  · obtain ⟨_, -, spans, -⟩ := Cursor.sleb_eq_ok.1 h
    exact spans.sane hc

/-- `decodeRun` reads into a run of at most `maxRun` bytes without a fault, and keeps its length. -/
theorem ends_decodeRun (hc : c.Sane) {s : Bytes} (hs : (s.length : Int) ≤ maxRun) :
    Ends never (decodeRun c) (fun c' b => c'.Sane ∧ b.length = s.length) s where
  gives h := by
    obtain ⟨length, spans⟩ := (gives_decodeRun hc).1 h
    exact ⟨spans.sane hc, length⟩
  faults h := by
    rw [decodeRun, apply_of] at h
    split at h
    · cases h
    · next e he =>
      cases h
      exact Cursor.faultless_bytes hc hs _ he

theorem ends_signature (hc : c.Sane) {s : Signature} (hs : (s.expected.length : Int) ≤ maxRun) :
    Ends never (Signature.decode c) (fun c' _ => c'.Sane) s := by
  cases e : c.bytes s.expected.length with
  | ok p =>
    have sane := ((Cursor.bytes_eq_ok hc).1 e).2.sane hc
    refine (ends_iff (by rw [Signature.decode, apply_of, e])).2 ?_
    cases s.unchecked || Signature.isValid { s with bytes := p.1 } with
    | true => exact ⟨by rintro _ ⟨⟩; exact sane, nofun⟩
    | false => exact ⟨nofun, nofun⟩
  | error stop =>
    refine ends_of_error (by rw [Signature.decode, apply_of, e]) fun m h => ?_
    exact (Cursor.faultless_bytes hc hs m (by rw [e, h])).elim

namespace Cell

/-- `wrapping` a careful action in a constructor of `Cell` ends without a fault. -/
theorem ends_wrapping {α : Type} {make : α → Cell} {act : Action α Cursor} {F : Cell → Except Stop Cursor × Cell} {v : α}
    (h : Careful act) (e : F (make v) = wrapping make v act) : Ends never (Action.of F) (fun c _ => c.Sane) (make v) := by
  rcases run : act.apply v with ⟨r, w⟩
  exact (ends_iff (by rw [apply_of, e, wrapping, run])).2 ((ends_iff run).1 (h v))

theorem careful_decode (hc : c.Sane) : Careful (Cell.decode c) := by
  intro cell
  cases cell with
  | byte v => exact ends_wrapping (careful_u8 hc) rfl
  | short v => exact ends_wrapping (careful_u16 hc) rfl
  | int v => exact ends_wrapping (careful_u32 hc) rfl
  | uleb v => exact ends_wrapping (careful_uleb hc) rfl
  | sleb v => exact ends_wrapping (careful_sleb hc) rfl

end Cell

/-! ## Tables -/

namespace Table

variable {α : Type}

theorem careful_decodeCount (hc : c.Sane) : Careful (decodeCount c : Action (Table α) Cursor) := by
  intro t
  cases count : t.count with
  | none => exact ends_of_ok (by rw [decodeCount, apply_of, count]) hc
  | some cell =>
    rcases run : (Cell.decode c).apply cell with ⟨r, x⟩
    refine (ends_iff (t := { t with count := some x }) ?_).2 ((ends_iff run).1 (Cell.careful_decode hc cell))
    rw [decodeCount, apply_of, count]
    dsimp only
    rw [run]

theorem careful_decodeSlots {element : Cursor → Action α Cursor} (h : ∀ c, c.Sane → Careful (element c)) (hc : c.Sane)
    (i : Nat) (slots : List Nat) : Careful (decodeSlots element i slots c) := by
  induction slots generalizing c i with
  | nil => exact .pure hc
  | cons k slots ih =>
    refine .bind (fun t => ?_) fun _ hc => ih hc (i + 1)
    cases found : t.slots[k]? with
    | none => exact ends_of_ok (by rw [apply_of, found]) hc
    | some x =>
      rcases run : (element c).apply x.value with ⟨r, v⟩
      have ends := (ends_iff run).1 (h c hc x.value)
      refine (ends_iff (r := labelled (ascii "element " ++ decimal i) r) (by rw [apply_of, found]; dsimp only; rw [run]; rfl)).2
        ⟨fun a ok => ends.1 a (labelled_eq_ok.1 ok), fun m fault => ?_⟩
      exact (Faultless.labelled (e := r) (fun m e => ends.2 m e) m fault).elim

theorem careful_decode {fresh : α} {element : Cursor → Action α Cursor} (h : ∀ c, c.Sane → Careful (element c))
    (hc : c.Sane) : Careful (Table.decode fresh element c) :=
  .modify_bind (.get_bind fun _ => careful_decodeSlots h hc 0 _)

end Table

end Dalvik
