import Mathlib.Tactic.Common

/-!
# Runs of a system under a condition on its events

A system takes events one after another.  What holds at the start and is kept by every event that is
allowed where it occurs holds at the end of every run of such events (`Along.invariant`).
-/

namespace Run

variable {σ ε : Type*} {step : σ → ε → σ} {allowed : σ → ε → Prop} {s : σ} {es : List ε}

/-- Every event of a run is allowed in the state it occurs in. -/
def Along (step : σ → ε → σ) (allowed : σ → ε → Prop) : σ → List ε → Prop
  | _, [] => True
  | s, e :: es => allowed s e ∧ Along step allowed (step s e) es

instance decidableAlong [∀ s e, Decidable (allowed s e)] : (s : σ) → (es : List ε) →
    Decidable (Along step allowed s es)
  | _, [] => isTrue trivial
  | s, e :: es =>
    haveI : Decidable (Along step allowed (step s e) es) := decidableAlong (step s e) es
    inferInstanceAs (Decidable (allowed s e ∧ Along step allowed (step s e) es))

theorem Along.mono {allowed' : σ → ε → Prop} (himp : ∀ s e, allowed s e → allowed' s e)
    (h : Along step allowed s es) : Along step allowed' s es := by
  induction es generalizing s with
  | nil => trivial
  | cons e es ih => exact ⟨himp s e h.1, ih h.2⟩

/-- **Invariants of runs.** -/
theorem Along.invariant (inv : σ → Prop) (h : Along step allowed s es) (hs : inv s)
    (hstep : ∀ s e, inv s → allowed s e → inv (step s e)) : inv (es.foldl step s) := by
  induction es generalizing s with
  | nil => exact hs
  | cons e es ih => exact ih h.2 (hstep s e hs h.1)

end Run
