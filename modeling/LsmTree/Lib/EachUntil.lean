import Mathlib.Data.List.Basic
import Mathlib.Tactic.Common

/-!
# A loop over a list that stops at the first error

`eachUntil f` changes the elements one after the other and returns at the first error, with the
elements before it changed and those after it as they were.  Seen through a view `v` of the
elements, the loop is all-or-nothing exactly if nothing up to the first error changes its view
(`eachUntil_error_iff`).
-/

namespace EachUntil

variable {α ε β : Type*} {f : ℕ → α → α × Except ε Unit} {v : α → β} {k : ℕ} {xs : List α}

/-- Run `f` on each element, with its index counted from `k`, up to the first error. -/
def eachUntil (f : ℕ → α → α × Except ε Unit) : ℕ → List α → List α × Except ε Unit
  | _, [] => ([], .ok ())
  | k, x :: xs =>
    match f k x with
    | (x', .error err) => (x' :: xs, .error err)
    | (x', .ok ()) => (x' :: (eachUntil f (k + 1) xs).1, (eachUntil f (k + 1) xs).2)

def FailsAt (f : ℕ → α → α × Except ε Unit) (k : ℕ) (xs : List α) (i : ℕ) : Prop :=
  ∃ x, xs[i]? = some x ∧ (f (k + i) x).2 ≠ .ok ()

/-- The element with the given index would look different. -/
def MovesAt (f : ℕ → α → α × Except ε Unit) (v : α → β) (k : ℕ) (xs : List α) (i : ℕ) : Prop :=
  ∃ x, xs[i]? = some x ∧ v (f (k + i) x).1 ≠ v x

def StillUntilFailure (f : ℕ → α → α × Except ε Unit) (v : α → β) (k : ℕ) (xs : List α) : Prop :=
  ∀ i, FailsAt f k xs i → (∀ j < i, ¬ FailsAt f k xs j) → ∀ j ≤ i, ¬ MovesAt f v k xs j

variable {x : α} {err : ε}

theorem eachUntil_cons_error {x' : α} (h : f k x = (x', .error err)) :
    eachUntil f k (x :: xs) = (x' :: xs, .error err) := by
  rw [eachUntil, h]

theorem eachUntil_cons_ok {x' : α} (h : f k x = (x', .ok ())) :
    eachUntil f k (x :: xs) =
      (x' :: (eachUntil f (k + 1) xs).1, (eachUntil f (k + 1) xs).2) := by
  rw [eachUntil, h]

theorem failsAt_zero : FailsAt f k (x :: xs) 0 ↔ (f k x).2 ≠ .ok () := by
  simp [FailsAt]

theorem movesAt_zero : MovesAt f v k (x :: xs) 0 ↔ v (f k x).1 ≠ v x := by
  simp [MovesAt]

theorem failsAt_succ {i : ℕ} : FailsAt f k (x :: xs) (i + 1) ↔ FailsAt f (k + 1) xs i := by
  unfold FailsAt
  rw [List.getElem?_cons_succ, show k + (i + 1) = k + 1 + i by omega]

theorem movesAt_succ {i : ℕ} : MovesAt f v k (x :: xs) (i + 1) ↔ MovesAt f v (k + 1) xs i := by
  unfold MovesAt
  rw [List.getElem?_cons_succ, show k + (i + 1) = k + 1 + i by omega]

/-- **No error.** Every element is changed. -/
theorem eachUntil_ok (h : (eachUntil f k xs).2 = .ok ()) :
    (eachUntil f k xs).1 = xs.mapIdx (fun i x => (f (k + i) x).1) := by
  induction xs generalizing k with
  | nil => rfl
  | cons x xs ih =>
    rcases hx : f k x with ⟨x', _ | _⟩
    · rw [eachUntil_cons_error hx] at h
      cases h
    · rw [eachUntil_cons_ok hx] at h ⊢
      have hzero : (f (k + 0) x).1 = x' := congrArg Prod.fst hx
      have hshift : (fun i y => (f (k + 1 + i) y).1) = fun i y => (f (k + (i + 1)) y).1 := by
        funext i y
        rw [show k + 1 + i = k + (i + 1) by omega]
      rw [List.mapIdx_cons, hzero, ih h, hshift]

theorem not_failsAt_of_ok (h : (eachUntil f k xs).2 = .ok ()) (i : ℕ) : ¬ FailsAt f k xs i := by
  induction xs generalizing k i with
  | nil =>
    rintro ⟨x, hx, -⟩
    cases hx
  | cons x xs ih =>
    rcases hx : f k x with ⟨x', _ | _⟩
    · rw [eachUntil_cons_error hx] at h
      cases h
    · rw [eachUntil_cons_ok hx] at h
      cases i with
      | zero =>
        rw [failsAt_zero, hx]
        exact fun hc => hc rfl
      | succ i => exact fun hc => ih h i (failsAt_succ.1 hc)

theorem exists_failsAt (h : (eachUntil f k xs).2 = .error err) :
    ∃ i, FailsAt f k xs i ∧ ∀ j < i, ¬ FailsAt f k xs j := by
  induction xs generalizing k with
  | nil => cases h
  | cons x xs ih =>
    rcases hx : f k x with ⟨x', _ | _⟩
    · refine ⟨0, failsAt_zero.2 ?_, fun j hj => absurd hj (Nat.not_lt_zero j)⟩
      rw [hx]
      exact fun hc => by cases hc
    · rw [eachUntil_cons_ok hx] at h
      obtain ⟨i, hi, hfirst⟩ := ih h
      refine ⟨i + 1, failsAt_succ.2 hi, fun j hj => ?_⟩
      cases j with
      | zero =>
        rw [failsAt_zero, hx]
        exact fun hc => hc rfl
      | succ j => exact fun hc => hfirst j (by omega) (failsAt_succ.1 hc)

/-- **An error.** The elements look as before exactly if nothing up to the first failure moves. -/
theorem eachUntil_error_iff (h : (eachUntil f k xs).2 = .error err) :
    (eachUntil f k xs).1.map v = xs.map v ↔ StillUntilFailure f v k xs := by
  induction xs generalizing k with
  | nil => cases h
  | cons x xs ih =>
    rcases hx : f k x with ⟨x', e | _⟩
    · -- the first element fails: it is the only one that was touched
      rw [eachUntil_cons_error hx, List.map_cons, List.map_cons]
      have hzero : FailsAt f k (x :: xs) 0 := by
        rw [failsAt_zero, hx]
        exact fun hc => by cases hc
      constructor
      · intro heq i hi hfirst j hj
        have hi0 : i = 0 := by
          by_contra hne
          exact hfirst 0 (Nat.pos_of_ne_zero hne) hzero
        rw [show j = 0 by omega, movesAt_zero, hx, not_not]
        exact (List.cons.inj heq).1
      · intro hstill
        have hmoves := hstill 0 hzero (fun j hj => absurd hj (Nat.not_lt_zero j)) 0 (Nat.le_refl 0)
        rw [movesAt_zero, hx, not_not] at hmoves
        rw [hmoves]
    · -- the first element succeeds: the failure is further on
      rw [eachUntil_cons_ok hx] at h ⊢
      have hzero : ¬ FailsAt f k (x :: xs) 0 := by
        rw [failsAt_zero, hx]
        exact fun hc => hc rfl
      rw [List.map_cons, List.map_cons, List.cons.injEq, ih h]
      constructor
      · rintro ⟨hv, hstill⟩ i hi hfirst j hj
        cases i with
        | zero => exact absurd hi hzero
        | succ i =>
          cases j with
          | zero =>
            rw [movesAt_zero, hx, not_not]
            exact hv
          | succ j =>
            rw [movesAt_succ]
            exact hstill i (failsAt_succ.1 hi)
              (fun l hl hc => hfirst (l + 1) (by omega) (failsAt_succ.2 hc)) j (by omega)
      · intro hstill
        have hshift : ∀ i, (∀ j < i, ¬ FailsAt f (k + 1) xs j) →
            ∀ j < i + 1, ¬ FailsAt f k (x :: xs) j := by
          intro i hi j hj
          cases j with
          | zero => exact hzero
          | succ j => exact fun hc => hi j (by omega) (failsAt_succ.1 hc)
        refine ⟨?_, fun i hi hfirst j hj hc => ?_⟩
        · obtain ⟨i, hi, hfirst⟩ := exists_failsAt h
          have hmoves := hstill (i + 1) (failsAt_succ.2 hi) (hshift i hfirst) 0 (Nat.zero_le _)
          rw [movesAt_zero, hx, not_not] at hmoves
          exact hmoves
        · exact hstill (i + 1) (failsAt_succ.2 hi) (hshift i hfirst) (j + 1) (by omega)
            (movesAt_succ.2 hc)

end EachUntil
