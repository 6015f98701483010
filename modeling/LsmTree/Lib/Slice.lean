import Mathlib.Algebra.Group.Int.Defs
import Mathlib.Algebra.Group.Nat.Defs
import Mathlib.Data.List.Basic
import Mathlib.Order.Nat
import Mathlib.Tactic.Common

/-!
# Slices and machine words

A slice is a window into an array: it has a length and a capacity, which reaches to the end of the
array.  A slice expression `s[lo:hi]` may go beyond the length, but not beyond the capacity; `sub`
is `none` where it is out of range.

Words have 64 bits: `int64` is the signed value of a number and `uint64` the unsigned one.
-/

namespace Word

def int64 (x : ℤ) : ℤ := x.bmod (2 ^ 64)

def uint64 (x : ℕ) : ℕ := x % 2 ^ 64

theorem int64_of_lt {n : ℕ} (h : n < 2 ^ 63) : int64 n = n := by
  unfold int64
  rw [Int.bmod_def]
  split_ifs <;> omega

theorem uint64_of_lt {n : ℕ} (h : n < 2 ^ 64) : uint64 n = n := Nat.mod_eq_of_lt h

end Word

/-- A window of length `len` at the start of `array`, which is what is left of the array behind
it. -/
structure Slice (α : Type*) where
  array : List α
  len : ℕ
  len_le : len ≤ array.length

namespace Slice

variable {α : Type*}

variable {lo : ℕ}

def ofList (l : List α) : Slice α := ⟨l, l.length, le_rfl⟩

def toList (s : Slice α) : List α := s.array.take s.len

/-- `s[lo:hi]`. -/
def sub (s : Slice α) (lo hi : ℤ) : Option (Slice α) :=
  if h : 0 ≤ lo ∧ lo ≤ hi ∧ hi ≤ s.array.length then
    some ⟨s.array.drop lo.toNat, (hi - lo).toNat, by rw [List.length_drop]; omega⟩
  else none

@[simp] theorem toList_ofList (l : List α) : (ofList l).toList = l := List.take_length

@[simp] theorem length_toList (s : Slice α) : s.toList.length = s.len :=
  List.length_take_of_le s.len_le

@[simp] theorem len_ofList (l : List α) : (ofList l).len = l.length := rfl

variable {s : Slice α}

theorem exists_sub {hi : ℕ} (h : lo ≤ hi) (hhi : hi ≤ s.len) :
    ∃ t, s.sub lo hi = some t ∧ t.toList = (s.toList.take hi).drop lo ∧ t.len = hi - lo := by
  have hcap := s.len_le
  have hrange : 0 ≤ (lo : ℤ) ∧ (lo : ℤ) ≤ hi ∧ (hi : ℤ) ≤ s.array.length := by omega
  refine ⟨_, dif_pos hrange, ?_, ?_⟩
  · change (s.array.drop (lo : ℤ).toNat).take ((hi : ℤ) - lo).toNat = _
    rw [toList, List.take_take, min_eq_left hhi, List.drop_take, Int.toNat_natCast,
      show ((hi : ℤ) - lo).toNat = hi - lo by omega]
  · change ((hi : ℤ) - lo).toNat = hi - lo
    omega

theorem exists_sub_len (h : lo ≤ s.len) :
    ∃ t, s.sub lo s.len = some t ∧ t.toList = s.toList.drop lo ∧ t.len = s.len - lo := by
  obtain ⟨t, ht, hlist, hlen⟩ := exists_sub h (le_refl s.len)
  refine ⟨t, ht, ?_, hlen⟩
  rw [hlist, List.take_of_length_le (length_toList s).le]

theorem sub_eq_some {t : Slice α} {lo hi : ℤ} (h : s.sub lo hi = some t) :
    0 ≤ lo ∧ lo ≤ hi ∧ hi ≤ s.array.length := by
  unfold sub at h
  split_ifs at h with hrange
  exact hrange

end Slice
