import LsmTree.Sstable.File

/-!
# Bloom filters and their copies

A filter whose bits fit 32 bits is built, answers every question, finds every key it was built from,
and so does the filter that is read back from its bytes (`filter_finds_keys`).

A number of bits per key below one counts as one bit.  With `2 ^ 32` keys the size is then cut to
zero, and building the filter divides by it (`buildFilter_many_keys`).
-/

namespace LsmTree.Table

variable {keys : List Bytes}

theorem mayContain_buildFilter {bits : ℕ} (h : bloomBits keys.length (max 1 bits) % 2 ^ 32 ≠ 0)
    (key : Bytes) :
    mayContain (newBloomFilter keys bits) key =
      .ok ((newBloomFilter keys bits).mayContain key) := by
  refine if_neg fun hzero => h ?_
  -- the reader counts the bits from the number of bytes, the last of which holds `k`
  have hbits := hzero.2.2.2
  rwa [length_newBloomFilter, Nat.add_sub_cancel, (bloomBits_eq _ _).2] at hbits

/-- **Filters have no false negatives**, neither as built nor as read back from their bytes, and the
two give the same answers. -/
theorem filter_finds_keys (keys : List Bytes) (bitsPerKey : ℤ)
    (hsize : keys.length * max 1 bitsPerKey < 2 ^ 32 - 8) :
    ∃ f, buildFilter keys bitsPerKey.toNat = .ok f ∧
      (∀ key ∈ keys, mayContain f key = .ok true ∧
        mayContain (deserializeBloomFilter f.serialize) key = .ok true) ∧
      ∀ key, ∃ answer, mayContain f key = .ok answer ∧
        mayContain (deserializeBloomFilter f.serialize) key = .ok answer := by
  have hfits : bloomBits keys.length (max 1 bitsPerKey.toNat) % 2 ^ 32 ≠ 0 := by
    have hmax : max 1 bitsPerKey = (max 1 bitsPerKey.toNat : ℕ) := by omega
    rw [hmax] at hsize
    have hle : keys.length * max 1 bitsPerKey.toNat ≤ 2 ^ 32 - 8 := by
      have hcast : ((keys.length * max 1 bitsPerKey.toNat : ℕ) : ℤ) < 2 ^ 32 - 8 := by
        rw [Nat.cast_mul]
        exact hsize
      omega
    have := bloomBits_fits (lt_max_of_lt_left Nat.one_pos) hle
    rwa [max_eq_right (le_max_left 1 _)] at this
  refine ⟨newBloomFilter keys bitsPerKey.toNat, if_neg hfits, fun key hkey => ?_, fun key => ?_⟩
  · have hanswer : mayContain (newBloomFilter keys bitsPerKey.toNat) key = .ok true := by
      rw [mayContain_buildFilter hfits, mayContain_newBloomFilter hkey]
    exact ⟨hanswer, hanswer⟩
  · exact ⟨_, mayContain_buildFilter hfits key, mayContain_buildFilter hfits key⟩

theorem filter_finds_keys_small :
    (([[1], [], [1]] : List Bytes).length : ℤ) * max 1 10 < 2 ^ 32 - 8 ∧
    ∃ f, buildFilter [[1], [], [1]] (10 : ℤ).toNat = .ok f ∧
      (∀ key ∈ ([[1], [], [1]] : List Bytes), mayContain f key = .ok true ∧
        mayContain (deserializeBloomFilter f.serialize) key = .ok true) ∧
      ∀ key, ∃ answer, mayContain f key = .ok answer ∧
        mayContain (deserializeBloomFilter f.serialize) key = .ok answer :=
  ⟨by decide, filter_finds_keys [[1], [], [1]] 10 (by decide)⟩

theorem buildFilter_of_length (h : keys.length = 2 ^ 32) :
    buildFilter keys (0 : ℤ).toNat = .error .divideByZero := by
  refine if_pos ?_
  rw [h]
  decide

/-- Without the bound on the number of keys there may be no filter: for no bits per key the product
of the two numbers is small, but the filter has one bit for each key. -/
theorem buildFilter_many_keys : ∃ keys : List Bytes, (keys.length : ℤ) * 0 < 2 ^ 32 - 8 ∧
    buildFilter keys (0 : ℤ).toNat = .error .divideByZero := by
  obtain ⟨keys, h⟩ : ∃ keys : List Bytes, keys.length = 2 ^ 32 :=
    ⟨List.replicate (2 ^ 32) [], List.length_replicate⟩
  exact ⟨keys, by omega, buildFilter_of_length h⟩

end LsmTree.Table
