import Mathlib.Tactic.Ring
import Mathlib.Tactic.Common

/-!
# Little-endian numbers

`encode w n` is the `w`-byte little-endian form of `n`, reduced modulo `256 ^ w` as a machine store
does; `decode` reads such a field back.  A field read from the front of a longer string is
`decode (bs.take w)`.

`Crc32.checksumIEEE` is the usual checksum of byte strings, bit by bit.
-/

namespace LittleEndian

variable {bs : List UInt8}

/-- The low `w` bytes of `n`, least significant first. -/
def encode : ℕ → ℕ → List UInt8
  | 0, _ => []
  | w + 1, n => UInt8.ofNat n :: encode w (n / 256)

def decode : List UInt8 → ℕ
  | [] => 0
  | b :: bs => b.toNat + 256 * decode bs

@[simp] theorem length_encode (w n : ℕ) : (encode w n).length = w := by
  induction w generalizing n with
  | zero => rfl
  | succ w ih => simp [encode, ih]

theorem decode_lt (bs : List UInt8) : decode bs < 256 ^ bs.length := by
  induction bs with
  | nil => simp [decode]
  | cons b bs ih =>
    have hb := b.toNat_lt
    rw [decode, List.length_cons, pow_succ]
    omega

@[simp] theorem decode_encode (w n : ℕ) : decode (encode w n) = n % 256 ^ w := by
  induction w generalizing n with
  | zero => simp [encode, decode, Nat.mod_one]
  | succ w ih =>
    rw [encode, decode, ih, pow_succ, mul_comm (256 ^ w) 256, Nat.mod_mul]
    simp

theorem decode_encode_of_lt {w n : ℕ} (h : n < 256 ^ w) : decode (encode w n) = n := by
  rw [decode_encode, Nat.mod_eq_of_lt h]

theorem encode_decode (bs : List UInt8) : encode bs.length (decode bs) = bs := by
  induction bs with
  | nil => rfl
  | cons b bs ih =>
    have hb := b.toNat_lt
    have hdiv : (b.toNat + 256 * decode bs) / 256 = decode bs := by omega
    have hlow : UInt8.ofNat (b.toNat + 256 * decode bs) = b := by
      apply UInt8.toNat_inj.1
      rw [UInt8.toNat_ofNat']
      omega
    rw [List.length_cons, decode, encode, hdiv, ih, hlow]

theorem decode_inj {bs' : List UInt8} (hlen : bs.length = bs'.length) (h : decode bs = decode bs') :
    bs = bs' := by
  rw [← encode_decode bs, ← encode_decode bs', h, hlen]

theorem decode_take_append (w n : ℕ) (rest : List UInt8) :
    decode ((encode w n ++ rest).take w) = n % 256 ^ w := by
  rw [List.take_left' (length_encode w n), decode_encode]

theorem encode_decode_take {w : ℕ} (h : w ≤ bs.length) :
    encode w (decode (bs.take w)) = bs.take w := by
  have hback := encode_decode (bs.take w)
  rwa [List.length_take_of_le h] at hback

theorem set_eq_encode {d : ℕ} {b : UInt8} (hd : d < bs.length) (hb : bs[d] ≠ b) :
    ∃ n < 256 ^ bs.length, n ≠ decode bs ∧ bs.set d b = encode bs.length n := by
  have hlen : (bs.set d b).length = bs.length := List.length_set
  refine ⟨decode (bs.set d b), ?_, ?_, ?_⟩
  · have hlt := decode_lt (bs.set d b)
    rwa [hlen] at hlt
  · intro h
    apply hb
    have hget : (bs.set d b)[d]? = bs[d]? := by rw [decode_inj hlen h]
    rw [List.getElem?_set_self hd, List.getElem?_eq_getElem hd] at hget
    exact (Option.some.inj hget).symm
  · have hback := encode_decode (bs.set d b)
    rw [hlen] at hback
    exact hback.symm

end LittleEndian

namespace Crc32

/-- Take one bit out of the register of the checksum. -/
def shift (c : UInt32) : UInt32 :=
  if c &&& 1 = 1 then (c >>> 1) ^^^ 0xEDB88320 else c >>> 1

def update (c : UInt32) (b : UInt8) : UInt32 :=
  shift (shift (shift (shift (shift (shift (shift (shift (c ^^^ b.toUInt32))))))))

def checksumIEEE (bs : List UInt8) : UInt32 := bs.foldl update 0xFFFFFFFF ^^^ 0xFFFFFFFF

example : checksumIEEE [0x31, 0x32, 0x33, 0x34, 0x35, 0x36, 0x37, 0x38, 0x39] = 0xCBF43926 := by
  decide +kernel

end Crc32
