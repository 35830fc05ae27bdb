import Dalvik.Assembly.Parser
import Dalvik.Proofs.Assembly.Place
import Dalvik.Proofs.Faults

/-!
# Reading on or telling

`Tells name text act J s` says what `act` can do on the scanner `s`: succeed further on in the text,
where `J` holds of the value and the scanner, or fail with a `.parse` complaint about a place of the
text. Faults are excluded.

`Consumes name text n m act` says that `act` `Tells` wherever fewer than `n` bytes are left, and
takes at least `m` of them if it succeeds. A loop with fuel `n` that takes a byte in each round is
shown to tell round by round (`Consumes.turn`), and its last round is never reached
(`Consumes.runaway`).
-/

namespace Dalvik.Assembly

variable {α β : Type} {name text : Bytes} {s t : Scanner} {n m : Nat}

/-! ## Outcomes -/

inductive Tells (name text : Bytes) (act : Reading α) (J : α → Scanner → Prop) (s : Scanner) : Prop
  | gives {a : α} {t : Scanner} (run : act.Gives s a t) (reads : Reads name text t) (h : J a t)
  | refuses {p : Nat} {what : Complaint} {t : Scanner} (inside : p ≤ text.length)
      (run : act.apply s = (.error (.failure (.parse (placeOf name text p) what)), t))

namespace Tells

variable {x : Reading α} {f : α → Reading β} {J J' : α → Scanner → Prop} {K : β → Scanner → Prop}

theorem pure {a : α} (hs : Reads name text s) (h : J a s) : Tells name text (Pure.pure a) J s :=
  .gives (Action.gives_pure.2 ⟨rfl, rfl⟩) hs h

theorem mono (h : Tells name text x J s) (sub : ∀ a t, Reads name text t → J a t → J' a t) :
    Tells name text x J' s := by
  cases h with
  | gives run reads h => exact .gives run reads (sub _ _ reads h)
  | refuses inside run => exact .refuses inside run

theorem bind (hx : Tells name text x J s) (hf : ∀ a t, Reads name text t → J a t → Tells name text (f a) K t) :
    Tells name text (x >>= f) K s := by
  cases hx with
  | refuses inside run => exact .refuses inside (Action.apply_bind_of_error run)
  | gives run reads h =>
    have step : (x >>= f).apply s = (f _).apply _ := Action.apply_bind_of_ok run
    cases hf _ _ reads h with
    | gives run' reads' h' => exact .gives (step.trans run') reads' h'
    | refuses inside run' => exact .refuses inside (step.trans run')

theorem get_bind {f : Scanner → Reading β} (h : Tells name text (f s) K s) : Tells name text (get >>= f) K s := by
  have step : (get >>= f : Reading β).apply s = (f s).apply s := Action.apply_bind_of_ok (Action.apply_get s)
  cases h with
  | gives run reads h => exact .gives (step.trans run) reads h
  | refuses inside run => exact .refuses inside (step.trans run)

theorem ite {p : Prop} [Decidable p] {x y : Reading α} (hx : p → Tells name text x J s)
    (hy : ¬ p → Tells name text y J s) : Tells name text (if p then x else y) J s := by
  split
  · next h => exact hx h
  · next h => exact hy h

theorem set {J : PUnit → Scanner → Prop} (ht : Reads name text t) (h : J ⟨⟩ t) :
    Tells name text (MonadStateOf.set t) J s :=
  .gives (Action.gives_set.2 rfl) ht h

theorem move {g : Scanner → Scanner} {J : PUnit → Scanner → Prop} (ht : Reads name text (g s)) (h : J ⟨⟩ (g s)) :
    Tells name text (Reading.move g) J s :=
  .gives (Action.gives_modify.2 rfl) ht h

theorem step {g : Scanner → α × Scanner} (ht : Reads name text (g s).2) (h : J (g s).1 (g s).2) :
    Tells name text (Reading.step g) J s := by
  refine .gives ?_ ht h
  unfold Reading.step
  simp only [Action.gives_bind, Action.gives_get, Action.gives_set, Action.gives_pure]
  exact ⟨s, s, ⟨rfl, rfl⟩, ⟨⟩, _, rfl, rfl, rfl⟩

end Tells

theorem tells_rounds (hs : Reads name text s) : Tells name text rounds (fun k t => k = text.length + 1 ∧ t = s) s :=
  .get_bind (.pure hs ⟨by rw [hs.size], rfl⟩)

/-! ## What is taken -/

def Consumes (name text : Bytes) (n m : Nat) (act : Reading α) : Prop :=
  ∀ s : Scanner, Reads name text s → text.length < s.pos + n → Tells name text act (fun _ t => s.pos + m ≤ t.pos) s

/-- `act` tells and never succeeds. -/
def Refuses (name text : Bytes) (act : Reading α) : Prop :=
  ∀ s : Scanner, Reads name text s → Tells name text act (fun _ _ => False) s

namespace Refuses

variable {x : Reading α} {f : α → Reading β}

theorem tells {J : α → Scanner → Prop} (h : Refuses name text x) (hs : Reads name text s) : Tells name text x J s :=
  (h s hs).mono fun _ _ _ no => no.elim

theorem consumes (h : Refuses name text x) : Consumes name text n m x := fun _ hs _ => h.tells hs

theorem bind (h : Refuses name text x) : Refuses name text (x >>= f) :=
  fun s hs => (h s hs).bind fun _ _ _ no => no.elim

end Refuses

namespace Consumes

variable {x : Reading α} {f : α → Reading β}

theorem pure (a : α) : Consumes name text n 0 (Pure.pure a) := fun _ hs _ => .pure hs (Nat.le_refl _)

theorem weaken (h : Consumes name text n m x) : Consumes name text n 0 x :=
  fun s hs enough => (h s hs enough).mono fun _ _ _ le => by omega

/-- There are always fewer than `text.length + 1` bytes left. -/
theorem tells (h : Consumes name text (text.length + 1) m x) (hs : Reads name text s) :
    Tells name text x (fun _ t => s.pos + m ≤ t.pos) s :=
  h s hs (by omega)

theorem bind (hx : Consumes name text n m x) (hf : ∀ a, Consumes name text n 0 (f a)) :
    Consumes name text n m (x >>= f) :=
  fun s hs enough => (hx s hs enough).bind fun a t ht le => (hf a t ht (by omega)).mono fun _ _ _ le' => by omega

theorem after (hx : Consumes name text n 0 x) (hf : ∀ a, Consumes name text n m (f a)) :
    Consumes name text n m (x >>= f) :=
  fun s hs enough => (hx s hs enough).bind fun a t ht le => (hf a t ht (by omega)).mono fun _ _ _ le' => by omega

/-- One round of a loop: if it takes a byte, one less is left for the other rounds. -/
theorem turn (hx : Consumes name text (n + 1) 1 x) (hf : ∀ a, Consumes name text n 0 (f a)) :
    Consumes name text (n + 1) 0 (x >>= f) :=
  fun s hs enough => (hx s hs enough).bind fun a t ht le => (hf a t ht (by omega)).mono fun _ _ _ le' => by omega

/-- The round in which the fuel is used up is never reached. -/
theorem runaway : Consumes name text 0 m (runaway : Reading α) :=
  fun _ hs enough => absurd hs.inside (by omega)

/-- The fuel `rounds` is more than the bytes that are left. -/
theorem rounds_bind {f : Nat → Reading β} (h : ∀ k, Consumes name text k m (f k)) :
    Consumes name text n m (rounds >>= f) :=
  fun _ hs _ => (tells_rounds hs).bind fun k t ht here => by
    obtain ⟨rfl, rfl⟩ := here
    exact h _ t ht (by omega)

theorem get_bind {f : Scanner → Reading β} (h : ∀ s, Reads name text s → text.length < s.pos + n →
    Tells name text (f s) (fun _ t => s.pos + m ≤ t.pos) s) : Consumes name text n m (get >>= f) :=
  fun s hs enough => .get_bind (h s hs enough)

theorem ite {p : Prop} [Decidable p] {x y : Reading α} (hx : Consumes name text n m x) (hy : Consumes name text n m y) :
    Consumes name text n m (if p then x else y) := by
  split
  · exact hx
  · exact hy

theorem check {p : Prop} [Decidable p] {y : Reading β} (hx : Refuses name text x) (hy : Consumes name text n m y) :
    Consumes name text n m (if p then x >>= f else y) :=
  .ite hx.bind.consumes hy

end Consumes

/-! ## Steps -/

namespace Reading

variable {w : Bytes} {what : Complaint}

theorem tells_origin (hs : Reads name text s) :
    Tells name text origin (fun o t => o = placeOf name text s.pos ∧ t.pos = s.pos) s := by
  obtain ⟨place, reads, pos⟩ := hs.origin
  exact .step reads ⟨place, pos⟩

theorem consumes_origin : Consumes name text n 0 origin :=
  fun s hs _ => (tells_origin hs).mono fun _ t _ h => by omega

theorem tells_position (hs : Reads name text s) : Tells name text position (fun p t => p = s.pos ∧ t = s) s :=
  .get_bind (.pure hs ⟨rfl, rfl⟩)

theorem consumes_position : Consumes name text n 0 position :=
  .get_bind fun _ hs _ => .pure hs (Nat.le_refl _)

theorem refuses_complain : Refuses name text (complain what : Reading α) := by
  intro s hs
  refine (tells_origin hs).bind fun o t ht here => ?_
  obtain ⟨rfl, -⟩ := here
  exact .refuses hs.inside (Action.apply_refuse _ t)

/-- `complainAt pos` complains about a place of the text, for any position. -/
theorem refuses_complainAt {pos : Nat} : Refuses name text (complainAt pos what : Reading α) := by
  intro s hs
  have size := hs.size
  have reads : Reads name text (s.setPosition pos) := hs.moved (by omega)
  exact .bind (J := fun _ _ => True) (.move reads trivial) fun _ t ht _ => refuses_complain t ht

theorem refuses_expecting : Refuses name text (expecting w : Reading α) :=
  fun s hs => .get_bind (refuses_complain s hs)

theorem consumes_skipSpaces : Consumes name text n 0 skipSpaces :=
  fun _ hs _ => .move (hs.skipWhile _).1 (hs.skipWhile _).2

theorem consumes_skipBlank : Consumes name text n 0 skipBlank :=
  fun _ hs _ => .move (hs.skipBlankFuel _).1 (hs.skipBlankFuel _).2

theorem tells_skipLine (hs : Reads name text s) (more : s.finished = false) :
    Tells name text (move Scanner.skipLine) (fun _ t => s.pos < t.pos) s :=
  .move hs.skipLine.1 (hs.skipLine.2.2 more)

theorem tells_setPosition {p : Nat} (hs : Reads name text s) (hp : p ≤ text.length) :
    Tells name text (move (·.setPosition p)) (fun _ t => t.pos = p) s :=
  .move (by rw [hs.setPosition hp]; exact hs.moved hp) (by rw [hs.setPosition hp])

theorem tells_token (hs : Reads name text s) : Tells name text token (fun w t => t.pos = s.pos + w.length) s :=
  .step hs.token.1 hs.token.2

theorem consumes_token : Consumes name text n 0 token :=
  fun _ hs _ => (tells_token hs).mono fun _ _ _ h => by omega

theorem consumes_accept : Consumes name text n 0 (accept w) :=
  fun _ hs _ => .step (hs.accept w).1 (hs.accept w).2

/-- `skip` of a word that is next takes the word. -/
theorem tells_skip (hs : Reads name text s) (next : s.startsWith w = true) :
    Tells name text (move (·.skip w.length)) (fun _ t => t.pos = s.pos + w.length) s :=
  .move (by rw [hs.skip next]; exact hs.moved (hs.room next)) (by rw [hs.skip next])

theorem tells_quoted (hs : Reads name text s) :
    Tells name text quoted (fun q t => q ≠ [] ∧ t.pos = s.pos + q.length) s := by
  have size := hs.size
  refine .get_bind ?_
  dsimp only
  split
  · exact refuses_complain.bind.tells hs
  obtain ⟨closed, unclosed⟩ := @quotedEnd_le s.peek s.data (s.data.size - s.pos) (s.pos + 1)
  split
  · next stop e =>
    obtain ⟨lt, le⟩ := closed stop e
    have length : (s.slice s.pos stop).length = stop - s.pos := by
      rw [Scanner.slice, Array.length_toList, Array.size_extract]
      omega
    refine .bind (J := fun _ t => t.pos = stop) (.set (hs.moved (by omega)) rfl) fun _ t ht pos => ?_
    refine .pure ht ⟨?_, by omega⟩
    exact List.ne_nil_of_length_pos (by omega)
  · next stop e =>
    have le := unclosed stop e
    exact .bind (J := fun _ _ => True) (.set (hs.moved (by omega)) trivial) fun _ t ht _ => refuses_complain.tells ht

theorem tells_literal (hs : Reads name text s) :
    Tells name text literal (fun w t => w ≠ [] ∧ t.pos = s.pos + w.length) s := by
  refine .get_bind ?_
  dsimp only
  split
  · exact tells_quoted hs
  · refine (tells_token hs).bind fun w t ht pos => ?_
    split
    · exact refuses_complain.bind.tells ht
    · next nonempty => exact .pure ht ⟨by simpa using nonempty, pos⟩

theorem consumes_literal : Consumes name text n 1 literal :=
  fun _ hs _ => (tells_literal hs).mono fun w _ _ h => by
    have := List.length_pos_iff.2 h.1
    omega

theorem consumes_expect (hw : w ≠ []) : Consumes name text n 1 (expect w) := by
  intro s hs _
  refine .get_bind ?_
  dsimp only
  split
  · exact refuses_expecting.bind.tells hs
  next next =>
  have room := hs.room (by simpa using next)
  have length := List.length_pos_iff.2 hw
  split
  · next empty => exact absurd (List.getLast?_eq_none_iff.1 empty) hw
  · split
    · exact refuses_expecting.bind.tells hs
    · exact .set (hs.moved room) (by dsimp only; omega)

theorem consumes_expectLineEnd : Consumes name text n 0 expectLineEnd :=
  .bind (fun _ hs _ => .step (hs.skipWhile _).1 (hs.skipWhile _).2) fun _ =>
    .ite (.get_bind fun _ hs _ => refuses_complain.tells hs) (.pure _)

end Reading

/-! ## Directives -/

namespace Directive

variable {d : Directive}

open Reading

theorem tells_isNext (hs : Reads name text s) : Tells name text d.isNext (fun b t => b = s.isAt d.word ∧ t = s) s :=
  .get_bind (.pure hs ⟨rfl, rfl⟩)

theorem tells_isEnd (hs : Reads name text s) : Tells name text d.isEnd (fun b t => b = s.isAt d.endWord ∧ t = s) s :=
  .get_bind (.pure hs ⟨rfl, rfl⟩)

theorem consumes_isNext : Consumes name text n 0 d.isNext :=
  .get_bind fun _ hs _ => .pure hs (Nat.le_refl _)

theorem consumes_isEnd : Consumes name text n 0 d.isEnd :=
  .get_bind fun _ hs _ => .pure hs (Nat.le_refl _)

theorem startsWith_of_isAt {w : Bytes} (h : s.isAt w = true) : s.startsWith w = true :=
  (Bool.and_eq_true_iff.1 h).1

theorem consumes_expect (hd : d.word ≠ []) : Consumes name text n 1 d.expect := by
  intro s hs _
  refine (tells_isNext hs).bind fun b t ht here => ?_
  obtain ⟨rfl, rfl⟩ := here
  have length := List.length_pos_iff.2 hd
  split
  · exact refuses_expecting.bind.tells hs
  · next next => exact (tells_skip hs (startsWith_of_isAt (by simpa using next))).mono fun _ _ _ pos => by omega

theorem consumes_expectEnd : Consumes name text n 0 d.expectEnd := by
  refine .bind consumes_skipBlank fun _ s hs _ => (tells_isEnd hs).bind fun b t ht here => ?_
  obtain ⟨rfl, rfl⟩ := here
  split
  · exact refuses_expecting.bind.tells hs
  · next next => exact (tells_skip hs (startsWith_of_isAt (by simpa using next))).mono fun _ _ _ pos => by omega

end Directive

end Dalvik.Assembly
