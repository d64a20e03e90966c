import Mathlib.Data.Nat.Bitwise
import SpanTree.Bytes

/-!
# Bits and codes

An `or` of numbers that have no bit in common is their sum, and a mask of low or of high bits is a
remainder or what a division leaves of a number. So what is packed by shifts, masks and tags is told
in arithmetic.

`Codes` is what makes a field of bytes a code: it can be read whatever follows it, it is not read as
long as it is not complete, and no shorter bytes are read as the same.
-/

namespace SpanTree

namespace Bits

theorem or_eq_add {k a b : Nat} (ha : 2 ^ k ∣ a) (hb : b < 2 ^ k) : a ||| b = a + b := by
  obtain ⟨c, rfl⟩ := ha
  exact (Nat.two_pow_add_eq_or_of_lt hb c).symm

theorem or_shiftLeft {k b : Nat} (a : Nat) (hb : b < 2 ^ k) : b ||| a <<< k = b + 2 ^ k * a := by
  rw [Nat.or_comm, Nat.shiftLeft_eq, Nat.mul_comm, or_eq_add (Nat.dvd_mul_right _ _) hb,
    Nat.add_comm]

theorem toNat_or {k : Nat} {a b : UInt8} (ha : 2 ^ k ∣ a.toNat) (hb : b.toNat < 2 ^ k) :
    (a ||| b).toNat = a.toNat + b.toNat := by
  rw [UInt8.toNat_or, or_eq_add ha hb]

theorem toNat_and_top (b : UInt8) : (b &&& 0x80).toNat = b.toNat / 128 * 128 := by
  have hall : ∀ n < 256, n &&& 0x80 = n / 128 * 128 := by decide +kernel
  exact hall b.toNat b.toNat_lt

theorem toNat_and_tag (b : UInt8) : (b &&& 0xC0).toNat = b.toNat / 64 * 64 := by
  have hall : ∀ n < 256, n &&& 0xC0 = n / 64 * 64 := by decide +kernel
  exact hall b.toNat b.toNat_lt

theorem and_top_eq_zero_iff (b : UInt8) : b &&& 0x80 = 0 ↔ b.toNat < 128 := by
  rw [← UInt8.toNat_inj, toNat_and_top]
  show b.toNat / 128 * 128 = 0 ↔ _
  omega

end Bits

/-- The bytes are a code of what is read there: `found used` is to be read if it takes `used` bytes,
and `cut` as long as bytes are missing. -/
structure Codes {ρ : Type} (read : Bytes → ρ) (found : (used : Nat) → ρ) (cut : ρ)
    (bs : Bytes) : Prop where
  read_append (rest : Bytes) : read (bs ++ rest) = found bs.length
  shortest {ds : Bytes} {used : Nat} : read ds = found used → bs.length ≤ ds.length
  read_cut {ds : Bytes} : ds <+: bs → ds ≠ bs → read ds = cut

end SpanTree
