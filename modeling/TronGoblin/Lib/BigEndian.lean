import Mathlib.Data.List.Induction
import Mathlib.Tactic.Ring

/-!
# Big-endian numbers

* `encode`: the last `k` base-256 digits of a number, most significant first; `decode` reads them.
* `encode_decode`: a byte string is the encoding of the number it decodes to.
* `decode_encode`: a number is read back up to the digits that were cut off.
* `encodeI64`, `decodeI64`: the same for signed 64-bit integers.
-/

namespace BigEndian

open List

/-- The `k` lowest digits, most significant first. -/
def encode : Nat → Nat → List UInt8
  | 0, _ => []
  | k + 1, n => encode k (n / 256) ++ [UInt8.ofNat n]

variable (bs : List UInt8)

def decode : Nat := bs.foldl (fun acc b => acc * 256 + b.toNat) 0

theorem decode_concat (b : UInt8) : decode (bs ++ [b]) = decode bs * 256 + b.toNat := by
  rw [decode, foldl_append]
  rfl

theorem encode_decode : encode bs.length (decode bs) = bs := by
  induction bs using List.reverseRecOn with
  | nil => rfl
  | append_singleton bs b ih =>
    have hb : b.toNat < 256 := b.toNat_lt
    have hdiv : decode (bs ++ [b]) / 256 = decode bs := by
      rw [decode_concat]
      omega
    have hlast : UInt8.ofNat (decode (bs ++ [b])) = b := by
      apply UInt8.toNat_inj.1
      rw [UInt8.toNat_ofNat', decode_concat]
      omega
    rw [length_append, length_singleton, encode, hdiv, hlast, ih]

theorem decode_lt : decode bs < Nat.pow 256 bs.length := by
  induction bs using List.reverseRecOn with
  | nil => decide
  | append_singleton bs b ih =>
    have hb : b.toNat < 256 := b.toNat_lt
    have hpow : Nat.pow 256 (bs.length + 1) = Nat.pow 256 bs.length * 256 := rfl
    rw [decode_concat, length_append, length_singleton, hpow]
    omega

theorem length_encode (k n : Nat) : (encode k n).length = k := by
  induction k generalizing n with
  | zero => rfl
  | succ k ih => rw [encode, length_append, ih, length_singleton]

theorem decode_encode (k n : Nat) : decode (encode k n) = n % 256 ^ k := by
  induction k generalizing n with
  | zero => rw [Nat.pow_zero, Nat.mod_one]; rfl
  | succ k ih =>
    have hsplit : n % 256 ^ (k + 1) = n % 256 + 256 * (n / 256 % 256 ^ k) := by
      rw [Nat.pow_succ', Nat.mod_mul]
    rw [encode, decode_concat, ih, UInt8.toNat_ofNat', hsplit]
    omega

/-! ## Signed 64-bit integers -/

/-- The number of 64-bit words. -/
def wordCount : Nat := 0x10000000000000000

/-- The 64-bit integer that an overflow leaves. -/
def wrapI64 (n : Int) : Int := Int.bmod n wordCount

/-- Two's complement. -/
def encodeI64 (n : Int) : List UInt8 := encode 8 (n % wordCount).toNat

def decodeI64 : Int := wrapI64 (decode bs)

theorem encodeI64_decodeI64 {bs : List UInt8} (h : bs.length = 8) : encodeI64 (decodeI64 bs) = bs := by
  have hlt : decode bs < wordCount := by
    have hlt := decode_lt bs
    rwa [h] at hlt
  have hmod : (decodeI64 bs % wordCount).toNat = decode bs := by
    rw [decodeI64, wrapI64, Int.bmod_emod,
      Int.emod_eq_of_lt (Int.natCast_nonneg _) (Int.ofNat_lt.2 hlt), Int.toNat_natCast]
  rw [encodeI64, hmod, ← h]
  exact encode_decode bs

end BigEndian
