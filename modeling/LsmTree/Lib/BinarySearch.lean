import Mathlib.Data.List.TakeWhile
import Mathlib.Tactic.Common

/-!
# Binary search

`search n f` halves the interval `[0, n)` until it is empty; if `f` switches from false to true
once, at `c`, the result is `c` (`search_eq`).  On a list the elements below the result are those
before the switch (`searchList_append`).
-/

namespace BinarySearch

variable {f : ℕ → Bool}

/-- Halve the interval `[i, j)`, at most `n` times. -/
def go (f : ℕ → Bool) : ℕ → ℕ → ℕ → ℕ
  | 0, i, _ => i
  | n + 1, i, j =>
    if i < j then
      if f ((i + j) / 2) then go f n i ((i + j) / 2) else go f n ((i + j) / 2 + 1) j
    else i

/-- The least index below `n` where `f` holds, `n` if there is none, for monotone `f`. -/
def search (n : ℕ) (f : ℕ → Bool) : ℕ := go f n 0 n

theorem go_eq {c : ℕ} (n i j : ℕ) (hn : j - i ≤ n) (hi : i ≤ c) (hj : c ≤ j)
    (hlo : ∀ h, i ≤ h → h < c → f h = false) (hhi : ∀ h, c ≤ h → h < j → f h = true) :
    go f n i j = c := by
  induction n generalizing i j with
  | zero => rw [go]; omega
  | succ n ih =>
    rw [go]
    split_ifs with hij hf
    · -- the middle is past the switch
      have hc : c ≤ (i + j) / 2 := by
        by_contra hlt
        have := hlo ((i + j) / 2) (by omega) (by omega)
        rw [hf] at this
        cases this
      exact ih i ((i + j) / 2) (by omega) hi hc hlo (fun h h1 h2 => hhi h h1 (by omega))
    · have hc : (i + j) / 2 + 1 ≤ c := by
        by_contra hlt
        exact hf (hhi ((i + j) / 2) (by omega) (by omega))
      exact ih ((i + j) / 2 + 1) j (by omega) hc hj (fun h h1 h2 => hlo h (by omega) h2) hhi
    · omega

theorem search_eq {n c : ℕ} (hc : c ≤ n) (hlo : ∀ h < c, f h = false)
    (hhi : ∀ h, c ≤ h → h < n → f h = true) : search n f = c :=
  go_eq n 0 n (by omega) (Nat.zero_le c) hc (fun h _ h2 => hlo h h2) hhi

variable {α : Type*}

/-- Binary search in a list for the first element with a property. -/
def searchList (p : α → Bool) (l : List α) : ℕ :=
  search l.length (fun i => (l[i]?.map p).getD true)

variable {p : α → Bool}

theorem searchList_append {pre post : List α} (hpre : ∀ a ∈ pre, p a = false)
    (hpost : ∀ a ∈ post, p a = true) : searchList p (pre ++ post) = pre.length := by
  refine search_eq (by simp) ?_ ?_
  · intro h hh
    rw [List.getElem?_append_left hh, List.getElem?_eq_getElem hh]
    exact hpre _ (List.getElem_mem hh)
  · intro h h1 h2
    rw [List.getElem?_append_right h1]
    have hlt : h - pre.length < post.length := by
      rw [List.length_append] at h2
      omega
    rw [List.getElem?_eq_getElem hlt]
    exact hpost _ (List.getElem_mem hlt)

theorem exists_split {l : List α} (h : l.Pairwise (fun a b => p a = true → p b = true)) :
    ∃ pre post, l = pre ++ post ∧ (∀ a ∈ pre, p a = false) ∧ ∀ a ∈ post, p a = true := by
  induction l with
  | nil => exact ⟨[], [], rfl, by simp, by simp⟩
  | cons a l ih =>
    obtain ⟨ha, hl⟩ := List.pairwise_cons.1 h
    by_cases hp : p a = true
    · refine ⟨[], a :: l, rfl, by simp, ?_⟩
      intro b hb
      rcases List.mem_cons.1 hb with rfl | hb
      · exact hp
      · exact ha b hb hp
    · obtain ⟨pre, post, rfl, hpre, hpost⟩ := ih hl
      refine ⟨a :: pre, post, rfl, ?_, hpost⟩
      intro b hb
      rcases List.mem_cons.1 hb with rfl | hb
      · exact Bool.eq_false_iff.2 hp
      · exact hpre b hb

end BinarySearch
