import Mathlib.Tactic.Ring
import Mathlib.Tactic.Common

/-!
# Variable-length numbers

A number below `2 ^ 64` as bytes of seven bits each, the lowest first, with the high bit set on all
bytes but the last.  `get` returns the number at the start of a byte string and how many bytes it
takes; zero bytes when the string ends inside the number, a negative count when the number does not
fit into 64 bits.
-/

namespace Uvarint

variable {n : ℕ}

/-- The groups of a number, at most `k + 1` of them. -/
def putGroups : ℕ → ℕ → List UInt8
  | 0, n => [UInt8.ofNat n]
  | k + 1, n =>
    if n < 128 then [UInt8.ofNat n] else UInt8.ofNat (n % 128 + 128) :: putGroups k (n / 128)

def put (n : ℕ) : List UInt8 := putGroups 9 n

/-- Read on at group `i`, with the lower groups in `x`.  The sum is returned only where it stays
below `2 ^ 64`. -/
def getFrom : ℕ → ℕ → List UInt8 → ℕ × ℤ
  | _, _, [] => (0, 0)
  | i, x, b :: bs =>
    if i = 10 then (0, -11)
    else if b.toNat < 128 then
      if i = 9 ∧ 1 < b.toNat then (0, -10) else (x + b.toNat * 128 ^ i, i + 1)
    else getFrom (i + 1) (x + b.toNat % 128 * 128 ^ i) bs

/-- The number at the start of the string, and the number of bytes read. -/
def get (bs : List UInt8) : ℕ × ℤ := getFrom 0 0 bs

/-! ## Round trip -/

theorem toNat_ofNat (h : n < 256) : (UInt8.ofNat n).toNat = n := by
  rw [UInt8.toNat_ofNat']
  exact Nat.mod_eq_of_lt h

theorem getFrom_putGroups {k i n x : ℕ} {rest : List UInt8} (hi : i + k = 9)
    (hn : n * 128 ^ i < 2 ^ 64) :
    getFrom i x (putGroups k n ++ rest) =
      (x + n * 128 ^ i, ((i + (putGroups k n).length : ℕ) : ℤ)) := by
  induction k generalizing i n x with
  | zero =>
    obtain rfl : i = 9 := hi
    have hle : n ≤ 1 := by omega
    have hbyte : (UInt8.ofNat n).toNat = n := toNat_ofNat (by omega)
    rw [putGroups, List.cons_append, getFrom, if_neg (by omega), hbyte, if_pos (by omega),
      if_neg (by omega)]
    rfl
  | succ k ih =>
    rw [putGroups]
    split_ifs with hsmall
    · have hbyte : (UInt8.ofNat n).toNat = n := toNat_ofNat (by omega)
      rw [List.cons_append, getFrom, if_neg (by omega), hbyte, if_pos hsmall, if_neg (by omega)]
      rfl
    · have hbyte : (UInt8.ofNat (n % 128 + 128)).toNat = n % 128 + 128 := toNat_ofNat (by omega)
      have hsplit : n % 128 * 128 ^ i + n / 128 * 128 ^ (i + 1) = n * 128 ^ i := by
        calc n % 128 * 128 ^ i + n / 128 * 128 ^ (i + 1)
            = (n % 128 + 128 * (n / 128)) * 128 ^ i := by ring
          _ = n * 128 ^ i := by rw [Nat.mod_add_div]
      rw [List.cons_append, getFrom, if_neg (by omega), hbyte, if_neg (by omega),
        show (n % 128 + 128) % 128 = n % 128 by omega,
        ih (by omega) (by omega), List.length_cons]
      refine Prod.ext ?_ ?_
      · change x + n % 128 * 128 ^ i + n / 128 * 128 ^ (i + 1) = x + n * 128 ^ i
        omega
      · change ((i + 1 + (putGroups k (n / 128)).length : ℕ) : ℤ) = _
        congr 1
        omega

/-- **What is put is read back, whatever follows.** -/
theorem get_put (hn : n < 2 ^ 64) (rest : List UInt8) :
    get (put n ++ rest) = (n, ((put n).length : ℤ)) := by
  have h := @getFrom_putGroups 9 0 n 0 rest rfl (by omega)
  simpa [get, put] using h

/-! ## What is read from any string -/

theorem getFrom_bounds {i x : ℕ} {bs : List UInt8} (hi : i ≤ 10) (hx : x < 128 ^ i) :
    (getFrom i x bs).1 < 2 ^ 64 ∧ (getFrom i x bs).2 ≤ i + bs.length := by
  induction bs generalizing i x with
  | nil =>
    rw [getFrom]
    exact ⟨by decide, by simp⟩
  | cons b bs ih =>
    rw [getFrom]
    split_ifs with h10 hlast hbig
    · exact ⟨by decide, by simp; omega⟩
    · exact ⟨by decide, by simp; omega⟩
    · refine ⟨?_, by simp⟩
      rcases Nat.lt_or_ge i 9 with hi' | hi'
      · have hpow : 128 ^ (i + 1) ≤ 128 ^ 9 := Nat.pow_le_pow_right (by omega) hi'
        have hsum : x + b.toNat * 128 ^ i < 128 ^ (i + 1) := by
          calc x + b.toNat * 128 ^ i < 128 ^ i + 127 * 128 ^ i :=
                Nat.add_lt_add_of_lt_of_le hx (Nat.mul_le_mul_right _ (by omega))
            _ = 128 ^ (i + 1) := by ring
        exact hsum.trans_le (hpow.trans (by decide))
      · obtain rfl : i = 9 := by omega
        have hb : b.toNat ≤ 1 := by omega
        change x + b.toNat * 128 ^ 9 < 2 ^ 64
        omega
    · have hsum : x + b.toNat % 128 * 128 ^ i < 128 ^ (i + 1) := by
        calc x + b.toNat % 128 * 128 ^ i < 128 ^ i + 127 * 128 ^ i :=
              Nat.add_lt_add_of_lt_of_le hx (Nat.mul_le_mul_right _ (by omega))
          _ = 128 ^ (i + 1) := by ring
      obtain ⟨h1, h2⟩ := ih (by omega) hsum
      refine ⟨h1, h2.trans ?_⟩
      rw [List.length_cons]
      omega

theorem get_bounds (bs : List UInt8) : (get bs).1 < 2 ^ 64 ∧ (get bs).2 ≤ bs.length := by
  have h := @getFrom_bounds 0 0 bs (by omega) (by simp)
  simpa [get] using h

end Uvarint
