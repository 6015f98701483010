import Mathlib.Algebra.BigOperators.Group.Finset.Piecewise
import Mathlib.Order.Defs.LinearOrder

/-!
# Lists by ascending key

A list that is sorted by a key is the concatenation of its segments, one for each key.  The first
`n` elements of two such lists are the same exactly if their segments are, as far as the first `n`
elements of one of them reach (`take_eq_take_iff`).
-/

namespace Segments

variable {α κ : Type*} [LinearOrder κ] {key : α → κ}

/-- Sorted by key; elements of one key may follow each other. -/
def Ascending (key : α → κ) (l : List α) : Prop := l.Pairwise (fun a b => key a ≤ key b)

def atKey (key : α → κ) (l : List α) (k : κ) : List α := l.filter (fun a => decide (key a = k))

def below (key : α → κ) (l : List α) (k : κ) : List α := l.filter (fun a => decide (key a < k))

variable {l : List α} {k : κ} {a : α}

theorem mem_atKey : a ∈ atKey key l k ↔ a ∈ l ∧ key a = k := by
  simp [atKey]

theorem atKey_cons (a : α) (l : List α) (k : κ) :
    atKey key (a :: l) k = if key a = k then a :: atKey key l k else atKey key l k := by
  simp [atKey, List.filter_cons]

theorem below_cons (a : α) (l : List α) (k : κ) :
    below key (a :: l) k = if key a < k then a :: below key l k else below key l k := by
  simp [below, List.filter_cons]

theorem atKey_eq_nil (h : ∀ a ∈ l, key a ≠ k) : atKey key l k = [] := by
  simpa [atKey] using h

theorem below_eq_nil (h : ∀ a ∈ l, k ≤ key a) : below key l k = [] := by
  simpa [below] using h

theorem Ascending.tail (h : Ascending key (a :: l)) : Ascending key l :=
  (List.pairwise_cons.1 h).2

theorem Ascending.head_le {b : α} (h : Ascending key (a :: l)) (hb : b ∈ a :: l) :
    key a ≤ key b := by
  rcases List.mem_cons.1 hb with rfl | hb
  · exact le_rfl
  · exact (List.pairwise_cons.1 h).1 b hb

/-- The segments agree as far as the first `n` elements of `l` reach. -/
def AgreeUpTo (key : α → κ) (n : ℕ) (l l' : List α) : Prop :=
  ∀ k, (below key l k).length < n →
    (atKey key l k).take (n - (below key l k).length) =
      (atKey key l' k).take (n - (below key l k).length)

variable {l' : List α}

theorem agreeUpTo_cons {n : ℕ} (h : Ascending key (a :: l)) (h' : Ascending key (a :: l')) :
    AgreeUpTo key (n + 1) (a :: l) (a :: l') ↔ AgreeUpTo key n l l' := by
  refine forall_congr' fun k => ?_
  rcases lt_trichotomy (key a) k with hlt | rfl | hgt
  · -- above the head nothing but the count changes
    rw [below_cons, if_pos hlt, atKey_cons, atKey_cons, if_neg hlt.ne, if_neg hlt.ne,
      List.length_cons, Nat.add_lt_add_iff_right, Nat.add_sub_add_right]
  · have hbelow : below key l (key a) = [] := below_eq_nil fun b hb =>
      h.head_le (List.mem_cons_of_mem a hb)
    rw [below_cons, if_neg (lt_irrefl _), atKey_cons, atKey_cons, if_pos rfl, if_pos rfl,
      hbelow]
    simp only [List.length_nil, Nat.sub_zero, List.take_succ_cons, List.cons.injEq, true_and]
    constructor
    · exact fun hall _ => hall (Nat.succ_pos n)
    · intro hall _
      rcases Nat.eq_zero_or_pos n with rfl | hn
      · simp
      · exact hall hn
  · -- below the head there is nothing in either list
    have hno : ∀ {t : List α}, Ascending key (a :: t) → atKey key (a :: t) k = [] := fun ht =>
      atKey_eq_nil fun b hb => (hgt.trans_le (ht.head_le hb)).ne'
    have hno' : ∀ {t : List α}, Ascending key (a :: t) → atKey key t k = [] := fun ht =>
      atKey_eq_nil fun b hb => (hgt.trans_le (ht.head_le (List.mem_cons_of_mem a hb))).ne'
    rw [hno h, hno h', hno' h, hno' h']
    simp

/-- **The first elements of ascending lists.** -/
theorem take_eq_take_iff {n : ℕ} (h : Ascending key l) (h' : Ascending key l') :
    l.take n = l'.take n ↔ AgreeUpTo key n l l' := by
  induction l generalizing l' n with
  | nil =>
    cases n with
    | zero => simp [AgreeUpTo]
    | succ n =>
      cases l' with
      | nil => simp [AgreeUpTo, atKey]
      | cons b l' =>
        refine iff_of_false (by simp) fun hall => ?_
        have hb := hall (key b) (Nat.succ_pos n)
        simp [atKey, below] at hb
  | cons a l ih =>
    cases n with
    | zero => simp [AgreeUpTo]
    | succ n =>
      have ha : ∀ {k}, k ≤ key a → below key (a :: l) k = [] := fun hk =>
        below_eq_nil fun b hb => hk.trans (h.head_le hb)
      cases l' with
      | nil =>
        refine iff_of_false (by simp) fun hall => ?_
        have hseg := hall (key a) (by rw [ha le_rfl]; exact Nat.succ_pos n)
        rw [ha le_rfl, atKey_cons, if_pos rfl] at hseg
        simp [atKey] at hseg
      | cons b l' =>
        by_cases hab : a = b
        · subst hab
          rw [List.take_succ_cons, List.take_succ_cons, agreeUpTo_cons h h', ← ih h.tail h'.tail]
          simp
        · refine iff_of_false (by simp [hab]) fun hall => ?_
          -- the lower of the two heads would have to be in both lists
          have hseg := hall (key a) (by rw [ha le_rfl]; exact Nat.succ_pos n)
          rw [ha le_rfl, atKey_cons, if_pos rfl, List.length_nil, Nat.sub_zero,
            List.take_succ_cons] at hseg
          have hmem : a ∈ atKey key (b :: l') (key a) :=
            List.mem_of_mem_take (hseg ▸ List.mem_cons_self)
          have hle : key b ≤ key a := h'.head_le (mem_atKey.1 hmem).1
          have hseg' := hall (key b) (by rw [ha hle]; exact Nat.succ_pos n)
          rw [ha hle, List.length_nil, Nat.sub_zero, atKey_cons b, if_pos rfl,
            List.take_succ_cons] at hseg'
          have hmem' : b ∈ atKey key (a :: l) (key b) :=
            List.mem_of_mem_take (hseg'.symm ▸ List.mem_cons_self)
          have heq : key a = key b := le_antisymm (h.head_le (mem_atKey.1 hmem').1) hle
          rw [heq, atKey_cons b, if_pos rfl, List.take_succ_cons] at hseg
          exact hab (List.cons.inj hseg).1

theorem eq_iff_atKey (h : Ascending key l) (h' : Ascending key l') :
    l = l' ↔ ∀ k, atKey key l k = atKey key l' k := by
  constructor
  · rintro rfl k
    rfl
  · intro hall
    have htake : l.take (l.length + l'.length) = l'.take (l.length + l'.length) :=
      (take_eq_take_iff h h').2 fun k _ => by rw [hall k]
    rwa [List.take_of_length_le (Nat.le_add_right _ _),
      List.take_of_length_le (Nat.le_add_left _ _)] at htake

theorem length_below {l : List α} {s : Finset κ} (hs : ∀ a ∈ l, key a ∈ s) (k : κ) :
    (below key l k).length = ∑ j ∈ s.filter (· < k), (atKey key l j).length := by
  induction l with
  | nil => simp [below, atKey]
  | cons a l ih =>
    have ih := ih fun b hb => hs b (List.mem_cons_of_mem a hb)
    have hcount : ∀ j, (atKey key (a :: l) j).length =
        (atKey key l j).length + if key a = j then 1 else 0 := fun j => by
      rw [atKey_cons]
      split_ifs <;> rfl
    simp only [hcount]
    rw [Finset.sum_add_distrib, ← ih, Finset.sum_ite_eq, below_cons]
    simp only [Finset.mem_filter, hs a List.mem_cons_self, true_and]
    split_ifs <;> rfl

end Segments
