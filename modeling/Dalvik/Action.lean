import Dalvik.Failure

/-!
# Changes in place

An `Action σ α` changes a value of type `σ` and gives an `α` or stops. What was changed before it
stopped stays changed, so a failed reading leaves the fields it had already filled.
-/

namespace Dalvik

abbrev Action (σ α : Type) := ExceptT Stop (StateM σ) α

namespace Action

variable {σ τ α : Type}

/-- The outcome, and the value as it was left. -/
def apply (act : Action σ α) (s : σ) : Except Stop α × σ := Id.run (act.run.run s)

/-- An action given by its outcome and the value it leaves. -/
def of (f : σ → Except Stop α × σ) : Action σ α := ExceptT.mk (fun s => pure (f s))

/-- Works on a part of a value. -/
def on (get : σ → τ) (put : τ → σ → σ) (act : Action τ α) : Action σ α :=
  of fun s =>
    let (r, t) := act.apply (get s)
    (r, put t s)

/-- The outcome as a value; what was changed stays changed. -/
def attempt (act : Action σ α) : Action σ (Except Stop α) :=
  of fun s =>
    let (r, t) := act.apply s
    (.ok r, t)

def refuse (cause : Failure) : Action σ α := throw (.failure cause)

/-- Adds what was being done to a failure. -/
def within (label : Bytes) (act : Action σ α) : Action σ α :=
  of fun s =>
    let (r, t) := act.apply s
    (r.mapError (Stop.within label), t)

end Action

end Dalvik
