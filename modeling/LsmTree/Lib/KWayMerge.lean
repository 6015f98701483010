import Mathlib.Data.List.Perm.Basic
import Mathlib.Tactic.Common

/-!
# K-way merge

Several sorted sources are merged by repeatedly taking the least head and advancing its source, as
a merge heap does.  A source is the list of what is left of it; `popMin` takes the least head of
all sources, and `drain` repeats this.  For a strict weak order the result is a sorted permutation
of everything in the sources (`mergeAll_perm`, `mergeAll_sorted`).  Only elements of different
sources are ever compared, so a finer order that agrees there gives the same result
(`mergeAll_congr`).
-/

namespace KWayMerge

variable {α : Type*}

/-- A Boolean strict weak order: asymmetric, with transitive incomparability-or-less. -/
structure StrictWeak (less : α → α → Bool) : Prop where
  asymm : ∀ a b, less a b = true → less b a = false
  negTrans : ∀ a b c, less b a = false → less c b = false → less c a = false

/-- Take the least head of the sources, the earliest source among equals. -/
def popMin (less : α → α → Bool) : List (List α) → Option (α × List (List α))
  | [] => none
  | [] :: ss => popMin less ss
  | (a :: as) :: ss =>
    match popMin less ss with
    | none => some (a, [as])
    | some (b, ss') => if less b a then some (b, (a :: as) :: ss') else some (a, as :: ss)

/-- Repeat `popMin`. -/
def drain (less : α → α → Bool) : ℕ → List (List α) → List α
  | 0, _ => []
  | n + 1, ss =>
    match popMin less ss with
    | none => []
    | some (a, ss') => a :: drain less n ss'

def mergeAll (less : α → α → Bool) (ss : List (List α)) : List α :=
  drain less ss.flatten.length ss

def Sorted (less : α → α → Bool) (l : List α) : Prop := l.Pairwise (fun a b => less b a = false)

section Pop

variable {less : α → α → Bool}

variable {ss : List (List α)}

theorem popMin_none (h : popMin less ss = none) : ss.flatten = [] := by
  induction ss with
  | nil => rfl
  | cons s ss ih =>
    cases s with
    | nil => simpa using ih h
    | cons a as =>
      simp only [popMin] at h
      split at h
      · cases h
      · split_ifs at h

variable {ss' : List (List α)} {b : α}

theorem popMin_perm (h : popMin less ss = some (b, ss')) : (b :: ss'.flatten).Perm ss.flatten := by
  induction ss generalizing b ss' with
  | nil => cases h
  | cons s ss ih =>
    cases s with
    | nil => simpa using ih h
    | cons a as =>
      simp only [popMin] at h
      split at h
      · rename_i hn
        cases h
        simp [popMin_none hn]
      · rename_i c ss'' hc
        split_ifs at h
        · cases h
          have hmid : ((a :: as) ++ b :: ss''.flatten).Perm (b :: ((a :: as) ++ ss''.flatten)) :=
            List.perm_middle
          exact hmid.symm.trans ((ih hc).append_left (a :: as))
        · cases h
          simp

theorem popMin_sorted (h : popMin less ss = some (b, ss')) (hs : ∀ s ∈ ss, Sorted less s) :
    ∀ s ∈ ss', Sorted less s := by
  induction ss generalizing b ss' with
  | nil => cases h
  | cons s ss ih =>
    have hs0 : Sorted less s := hs s List.mem_cons_self
    have hss : ∀ t ∈ ss, Sorted less t := fun t ht => hs t (List.mem_cons_of_mem s ht)
    cases s with
    | nil => exact ih h hss
    | cons a as =>
      simp only [popMin] at h
      split at h
      · cases h
        intro t ht
        rw [List.mem_singleton.1 ht]
        exact hs0.of_cons
      · rename_i c ss'' hc
        split_ifs at h
        · cases h
          intro t ht
          rcases List.mem_cons.1 ht with rfl | ht
          · exact hs0
          · exact ih hc hss t ht
        · cases h
          intro t ht
          rcases List.mem_cons.1 ht with rfl | ht
          · exact hs0.of_cons
          · exact hss t ht

theorem le_of_mem_sorted {a x : α} {as : List α} (hw : StrictWeak less)
    (h : Sorted less (a :: as)) (hx : x ∈ a :: as) : less x a = false := by
  rcases List.mem_cons.1 hx with rfl | hx
  · by_contra hc
    have := hw.asymm x x (by simpa using hc)
    exact hc this
  · exact (List.pairwise_cons.1 h).1 x hx

theorem popMin_le (hw : StrictWeak less) (h : popMin less ss = some (b, ss'))
    (hs : ∀ s ∈ ss, Sorted less s) : ∀ x ∈ ss.flatten, less x b = false := by
  induction ss generalizing b ss' with
  | nil => cases h
  | cons s ss ih =>
    have hs0 : Sorted less s := hs s List.mem_cons_self
    have hss : ∀ t ∈ ss, Sorted less t := fun t ht => hs t (List.mem_cons_of_mem s ht)
    intro x hx
    cases s with
    | nil => exact ih h hss x (by simpa using hx)
    | cons a as =>
      rw [List.flatten_cons, List.mem_append] at hx
      simp only [popMin] at h
      split at h
      · rename_i hn
        cases h
        rw [popMin_none hn] at hx
        exact le_of_mem_sorted hw hs0 (hx.resolve_right List.not_mem_nil)
      · rename_i c ss'' hc
        split_ifs at h with hlt
        · cases h
          rcases hx with hx | hx
          · exact hw.negTrans b a x (hw.asymm b a hlt) (le_of_mem_sorted hw hs0 hx)
          · exact ih hc hss x hx
        · cases h
          rcases hx with hx | hx
          · exact le_of_mem_sorted hw hs0 hx
          · exact hw.negTrans b c x (by simpa using hlt) (ih hc hss x hx)

theorem drain_perm (n : ℕ) (ss : List (List α)) (hn : ss.flatten.length ≤ n) :
    (drain less n ss).Perm ss.flatten := by
  induction n generalizing ss with
  | zero => rw [List.length_eq_zero_iff.1 (Nat.le_zero.1 hn)]; rfl
  | succ n ih =>
    rw [drain]
    split
    · rename_i h
      rw [popMin_none h]
    · rename_i b ss' h
      have hp := popMin_perm h
      have hlen := hp.length_eq
      rw [List.length_cons] at hlen
      exact ((ih ss' (by omega)).cons b).trans hp

theorem drain_sorted (hw : StrictWeak less) (n : ℕ) (ss : List (List α))
    (hn : ss.flatten.length ≤ n) (hs : ∀ s ∈ ss, Sorted less s) :
    Sorted less (drain less n ss) := by
  induction n generalizing ss with
  | zero => exact List.Pairwise.nil
  | succ n ih =>
    rw [drain]
    split
    · exact List.Pairwise.nil
    · rename_i b ss' h
      have hp := popMin_perm h
      have hlen := hp.length_eq
      rw [List.length_cons] at hlen
      have hn' : ss'.flatten.length ≤ n := by omega
      refine List.Pairwise.cons (fun x hx => ?_) (ih ss' hn' (popMin_sorted h hs))
      have hx' : x ∈ ss'.flatten := (drain_perm n ss' hn').mem_iff.1 hx
      exact popMin_le hw h hs x (hp.mem_iff.1 (List.mem_cons_of_mem b hx'))

theorem popMin_suffix (h : popMin less ss = some (b, ss')) : ∀ s' ∈ ss', ∃ s ∈ ss, s' <:+ s := by
  induction ss generalizing b ss' with
  | nil => cases h
  | cons s ss ih =>
    cases s with
    | nil =>
      intro s' hs'
      obtain ⟨s, hs, hsuf⟩ := ih h s' hs'
      exact ⟨s, List.mem_cons_of_mem _ hs, hsuf⟩
    | cons a as =>
      simp only [popMin] at h
      split at h
      · cases h
        intro s' hs'
        rw [List.mem_singleton.1 hs']
        exact ⟨_, List.mem_cons_self, List.suffix_cons _ _⟩
      · rename_i c ss'' hc
        split_ifs at h
        · cases h
          intro s' hs'
          rcases List.mem_cons.1 hs' with rfl | hs'
          · exact ⟨a :: as, List.mem_cons_self, List.suffix_rfl⟩
          · obtain ⟨s, hs, hsuf⟩ := ih hc s' hs'
            exact ⟨s, List.mem_cons_of_mem _ hs, hsuf⟩
        · cases h
          intro s' hs'
          rcases List.mem_cons.1 hs' with rfl | hs'
          · exact ⟨_, List.mem_cons_self, List.suffix_cons _ _⟩
          · exact ⟨s', List.mem_cons_of_mem _ hs', List.suffix_rfl⟩

variable {less' : α → α → Bool}

/-- The two orders agree on elements of different sources. -/
def AgreeAcross (less less' : α → α → Bool) (ss : List (List α)) : Prop :=
  ss.Pairwise (fun s t => ∀ a ∈ s, ∀ b ∈ t, less b a = less' b a)

theorem popMin_congr (h : AgreeAcross less less' ss) : popMin less ss = popMin less' ss := by
  induction ss with
  | nil => rfl
  | cons s ss ih =>
    obtain ⟨hs, hss⟩ := List.pairwise_cons.1 h
    have ih := ih hss
    cases s with
    | nil => exact ih
    | cons a as =>
      simp only [popMin, ih]
      cases hp : popMin less' ss with
      | none => rfl
      | some x =>
        obtain ⟨b, ss'⟩ := x
        -- the popped element is the head of one of the other sources
        have hb : b ∈ ss.flatten := (popMin_perm hp).mem_iff.1 List.mem_cons_self
        obtain ⟨t, ht, hbt⟩ := List.mem_flatten.1 hb
        simp only [hs t ht a List.mem_cons_self b hbt]

theorem popMin_agreeAcross (h : AgreeAcross less less' ss) (hp : popMin less ss = some (b, ss')) :
    AgreeAcross less less' ss' := by
  induction ss generalizing b ss' with
  | nil => cases hp
  | cons s ss ih =>
    obtain ⟨hs, hss⟩ := List.pairwise_cons.1 h
    cases s with
    | nil => exact ih hss hp
    | cons a as =>
      simp only [popMin] at hp
      split at hp
      · cases hp
        exact List.pairwise_singleton _ _
      · rename_i c ss'' hc
        split_ifs at hp
        · cases hp
          refine List.pairwise_cons.2 ⟨fun t ht x hx y hy => ?_, ih hss hc⟩
          obtain ⟨t', ht', hsuf⟩ := popMin_suffix hc t ht
          exact hs t' ht' x hx y (hsuf.subset hy)
        · cases hp
          exact List.pairwise_cons.2
            ⟨fun t ht x hx y hy => hs t ht x (List.mem_cons_of_mem _ hx) y hy, hss⟩

theorem drain_congr (n : ℕ) (h : AgreeAcross less less' ss) :
    drain less n ss = drain less' n ss := by
  induction n generalizing ss with
  | zero => rfl
  | succ n ih =>
    simp only [drain, ← popMin_congr h]
    cases hp : popMin less ss with
    | none => rfl
    | some x =>
      obtain ⟨b, ss'⟩ := x
      simp only [ih (popMin_agreeAcross h hp)]

end Pop

variable {less : α → α → Bool} {ss : List (List α)}

theorem mergeAll_congr {less' : α → α → Bool} (h : AgreeAcross less less' ss) :
    mergeAll less ss = mergeAll less' ss :=
  drain_congr _ h

theorem mergeAll_perm (less : α → α → Bool) (ss : List (List α)) :
    (mergeAll less ss).Perm ss.flatten :=
  drain_perm _ ss (Nat.le_refl _)

theorem mem_mergeAll {a : α} : a ∈ mergeAll less ss ↔ ∃ s ∈ ss, a ∈ s := by
  rw [(mergeAll_perm less ss).mem_iff, List.mem_flatten]

theorem mergeAll_sorted (hw : StrictWeak less) (hs : ∀ s ∈ ss, Sorted less s) :
    Sorted less (mergeAll less ss) :=
  drain_sorted hw _ ss (Nat.le_refl _) hs

end KWayMerge
