import Mathlib.Data.Nat.Bitwise
import LsmTree.Sstable.Format

/-!
# Bloom filters (`internal/bloom/bloom.go`)

A filter is a byte array: the bits, and in its last byte the number `k` of probes.  `MayContain`
never misses a key the filter was built from (`mayContain_newBloomFilter`).

Where the number of bits is a multiple of `2^32` the source divides by zero (`checkTable`); here the
remainder by zero leaves the hash as it is.
-/

namespace LsmTree

variable {bits key : Bytes} {pos q : ℕ} {ps : List ℕ} {f : Bytes → List ℕ} {keys : List Bytes}

def word32 (a b c d : UInt8) : UInt32 :=
  a.toUInt32 ||| (b.toUInt32 <<< 8) ||| (c.toUInt32 <<< 16) ||| (d.toUInt32 <<< 24)

def bloomMul : UInt32 := 0xc6a4a793

/-- The loop of `bloomHash` over four-byte words, and its switch on the remaining bytes. -/
def bloomHashFrom : UInt32 → Bytes → UInt32
  | h, a :: b :: c :: d :: rest =>
    let h := (h + word32 a b c d) * bloomMul
    bloomHashFrom (h ^^^ (h >>> 16)) rest
  | h, [a, b, c] =>
    let h := (h + (c.toUInt32 <<< 16) + (b.toUInt32 <<< 8) + a.toUInt32) * bloomMul
    h ^^^ (h >>> 24)
  | h, [a, b] =>
    let h := (h + (b.toUInt32 <<< 8) + a.toUInt32) * bloomMul
    h ^^^ (h >>> 24)
  | h, [a] =>
    let h := (h + a.toUInt32) * bloomMul
    h ^^^ (h >>> 24)
  | h, [] => h

def bloomHash (key : Bytes) : UInt32 :=
  bloomHashFrom (0xbc9f1d34 ^^^ (UInt32.ofNat key.length * bloomMul)) key

/-- The step between the probes of one key: the hash rotated by 15 bits. -/
def bloomDelta (h : UInt32) : UInt32 := (h >>> 17) ||| (h <<< 15)

/-- The bit positions probed for a hash, `k` of them, modulo the low 32 bits of `nBits`. -/
def probesFrom (nBits : ℕ) (delta : UInt32) : ℕ → UInt32 → List ℕ
  | 0, _ => []
  | k + 1, h => h.toNat % (nBits % 2 ^ 32) :: probesFrom nBits delta k (h + delta)

def probes (nBits k : ℕ) (key : Bytes) : List ℕ :=
  probesFrom nBits (bloomDelta (bloomHash key)) k (bloomHash key)

/-- A filter: its bits, and `k` in the last byte. -/
structure BloomFilter where
  bits : Bytes
  deriving DecidableEq, Repr

def getBit (bits : Bytes) (pos : ℕ) : Bool := (bits.getD (pos / 8) 0).toNat.testBit (pos % 8)

def setBit (bits : Bytes) (pos : ℕ) : Bytes :=
  bits.modify (pos / 8) (fun b => b ||| UInt8.ofNat (2 ^ (pos % 8)))

/-- The number of probes: `int(float64(bitsPerKey) * math.Ln2)` with the 53-bit value of `Ln2`,
clamped to `1..30`. -/
def bloomK (bitsPerKey : ℕ) : ℕ :=
  min 30 (max 1 (bitsPerKey * 6243314768165359 / 2 ^ 53))

def bloomBits (numKeys bitsPerKey : ℕ) : ℕ :=
  max 64 ((numKeys * bitsPerKey + 7) / 8 * 8)

def newBloomFilter (keys : List Bytes) (bitsPerKey : ℕ) : BloomFilter :=
  let bitsPerKey := max 1 bitsPerKey
  let k := bloomK bitsPerKey
  let nBits := bloomBits keys.length bitsPerKey
  let bits := keys.foldl (fun bits key => (probes nBits k key).foldl setBit bits)
    (List.replicate (nBits / 8 + 1) 0)
  ⟨bits.set (nBits / 8) (UInt8.ofNat k)⟩

def BloomFilter.mayContain (f : BloomFilter) (key : Bytes) : Bool :=
  if f.bits.length < 2 then false
  else
    let k := (f.bits.getD (f.bits.length - 1) 0).toNat
    if 30 < k then true
    else (probes ((f.bits.length - 1) * 8) k key).all (getBit f.bits)

def BloomFilter.serialize (f : BloomFilter) : Bytes := f.bits

def deserializeBloomFilter (data : Bytes) : BloomFilter := ⟨data⟩

/-! ### No false negatives -/

@[simp] theorem length_setBit (bits : Bytes) (pos : ℕ) :
    (setBit bits pos).length = bits.length := by
  simp [setBit]

@[simp] theorem length_foldl_setBit (ps : List ℕ) (bits : Bytes) :
    (ps.foldl setBit bits).length = bits.length := by
  induction ps generalizing bits with
  | nil => rfl
  | cons p ps ih => simp [ih]

theorem toNat_two_pow {i : ℕ} (hi : i < 8) : (UInt8.ofNat (2 ^ i)).toNat = 2 ^ i := by
  have : 2 ^ i < 2 ^ 8 := Nat.pow_lt_pow_right (by omega) hi
  rw [UInt8.toNat_ofNat']
  exact Nat.mod_eq_of_lt this

theorem getBit_setBit_self (h : pos / 8 < bits.length) : getBit (setBit bits pos) pos = true := by
  have hi : pos % 8 < 8 := Nat.mod_lt _ (by omega)
  simp [getBit, setBit, List.getD_eq_getElem?_getD, h, toNat_two_pow hi]

theorem getBit_setBit_of_getBit (h : getBit bits q = true) : getBit (setBit bits pos) q = true := by
  unfold getBit setBit at *
  rw [List.getD_eq_getElem?_getD] at h ⊢
  rw [List.getElem?_modify]
  cases hq : bits[q / 8]? with
  | none => rw [hq] at h; simp at h
  | some b =>
    rw [hq] at h
    simp only [Option.getD_some] at h
    by_cases hp : pos / 8 = q / 8
    · simp [hp, h]
    · simp [hp, h]

theorem getBit_foldl_setBit_of_getBit (h : getBit bits q = true) :
    getBit (ps.foldl setBit bits) q = true := by
  induction ps generalizing bits with
  | nil => exact h
  | cons p ps ih => exact ih (getBit_setBit_of_getBit h)

theorem getBit_foldl_setBit (hq : q ∈ ps) (hlen : q / 8 < bits.length) :
    getBit (ps.foldl setBit bits) q = true := by
  induction ps generalizing bits with
  | nil => cases hq
  | cons p ps ih =>
    rcases List.mem_cons.1 hq with rfl | hq
    · rw [List.foldl_cons]
      exact getBit_foldl_setBit_of_getBit (getBit_setBit_self hlen)
    · exact ih hq (by simpa using hlen)

theorem length_foldl_keys (f : Bytes → List ℕ) (keys : List Bytes) (bits : Bytes) :
    (keys.foldl (fun bits key => (f key).foldl setBit bits) bits).length = bits.length := by
  induction keys generalizing bits with
  | nil => rfl
  | cons key keys ih => simp [ih]

theorem getBit_foldl_keys_of_getBit (h : getBit bits q = true) :
    getBit (keys.foldl (fun bits key => (f key).foldl setBit bits) bits) q = true := by
  induction keys generalizing bits with
  | nil => exact h
  | cons key keys ih => exact ih (getBit_foldl_setBit_of_getBit h)

theorem getBit_foldl_keys (hk : key ∈ keys) (hq : q ∈ f key) (hlen : q / 8 < bits.length) :
    getBit (keys.foldl (fun bits key => (f key).foldl setBit bits) bits) q = true := by
  induction keys generalizing bits with
  | nil => cases hk
  | cons key' keys ih =>
    rcases List.mem_cons.1 hk with rfl | hk
    · rw [List.foldl_cons]
      exact getBit_foldl_keys_of_getBit (getBit_foldl_setBit hq hlen)
    · exact ih hk (by simpa using hlen)

theorem probesFrom_lt {nBits : ℕ} (hn : 0 < nBits) (delta : UInt32) (k : ℕ) (h : UInt32) :
    ∀ q ∈ probesFrom nBits delta k h, q < nBits := by
  induction k generalizing h with
  | zero => intro q hq; cases hq
  | succ k ih =>
    intro q hq
    rcases List.mem_cons.1 hq with rfl | hq
    · rcases Nat.eq_zero_or_pos (nBits % 2 ^ 32) with hz | hz
      · rw [hz, Nat.mod_zero]
        have h1 := h.toNat_lt
        have h2 : 2 ^ 32 ≤ nBits := Nat.le_of_dvd hn (Nat.dvd_of_mod_eq_zero hz)
        omega
      · exact (Nat.mod_lt _ hz).trans_le (Nat.mod_le _ _)
    · exact ih (h + delta) q hq

theorem bloomBits_eq (numKeys bitsPerKey : ℕ) :
    64 ≤ bloomBits numKeys bitsPerKey ∧
      bloomBits numKeys bitsPerKey / 8 * 8 = bloomBits numKeys bitsPerKey := by
  unfold bloomBits
  omega

theorem bloomBits_fits {count bits : ℕ} (hpos : 0 < bits) (h : count * bits ≤ 2 ^ 32 - 8) :
    bloomBits count (max 1 bits) % 2 ^ 32 ≠ 0 := by
  rw [max_eq_right hpos]
  unfold bloomBits
  generalize count * bits = c at h
  omega

theorem length_newBloomFilter (keys : List Bytes) (bitsPerKey : ℕ) :
    (newBloomFilter keys bitsPerKey).bits.length =
      bloomBits keys.length (max 1 bitsPerKey) / 8 + 1 := by
  unfold newBloomFilter
  rw [List.length_set, length_foldl_keys, List.length_replicate]

/-- **A filter has no false negatives.** -/
theorem mayContain_newBloomFilter (hk : key ∈ keys) (bitsPerKey : ℕ) :
    (newBloomFilter keys bitsPerKey).mayContain key = true := by
  unfold newBloomFilter
  set b := max 1 bitsPerKey
  set k := bloomK b with hkdef
  set n := bloomBits keys.length b
  obtain ⟨hn64, hn8⟩ : 64 ≤ n ∧ n / 8 * 8 = n := bloomBits_eq _ _
  have hk30 : k ≤ 30 := min_le_left _ _
  simp only
  set bits := keys.foldl (fun bits key => (probes n k key).foldl setBit bits)
    (List.replicate (n / 8 + 1) 0) with hbits
  have hlen : bits.length = n / 8 + 1 := by rw [hbits, length_foldl_keys]; simp
  have hklt : k < 256 := by omega
  unfold BloomFilter.mayContain
  simp only [List.length_set, hlen, Nat.add_sub_cancel, hn8]
  rw [if_neg (by omega)]
  have hkbyte : (UInt8.ofNat k).toNat = k := by
    rw [UInt8.toNat_ofNat']; exact Nat.mod_eq_of_lt hklt
  have hlast : (bits.set (n / 8) (UInt8.ofNat k)).getD (n / 8) 0 = UInt8.ofNat k := by
    rw [List.getD_eq_getElem?_getD, List.getElem?_set_self (by omega)]; rfl
  rw [hlast, hkbyte, if_neg (by omega), List.all_eq_true]
  intro q hq
  have hqn : q < n := probesFrom_lt (by omega) _ _ _ q hq
  have hq8 : q / 8 < n / 8 := by omega
  -- the byte that holds `k` lies after all bits
  have hget : getBit (bits.set (n / 8) (UInt8.ofNat k)) q = getBit bits q := by
    unfold getBit
    rw [List.getD_eq_getElem?_getD, List.getD_eq_getElem?_getD, List.getElem?_set_ne (by omega)]
  rw [hget, hbits]
  refine getBit_foldl_keys hk hq ?_
  rw [List.length_replicate]
  omega

end LsmTree
