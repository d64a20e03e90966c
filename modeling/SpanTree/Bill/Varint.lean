import SpanTree.Bytes
import SpanTree.Error

/-!
# Varints

A number is written in base 128, the least digit first; every byte but the last has its top bit set.
A number of 64 bits takes ten bytes at most. The tenth holds a single bit, so a larger tenth byte is
an overflow, and nothing is read beyond it. A number need not be written in the shortest way.
-/

namespace SpanTree.Varint

def encode (v : Nat) : Bytes :=
  if v < 128 then [UInt8.ofNat v] else UInt8.ofNat (v % 128 + 128) :: encode (v / 128)

/-- The number of bytes of the longest encoding. -/
def maxLength : Nat := 10

/-- The number whose digits begin here, the first of them at position `i`, and how many bytes it
takes; none if the bytes end before the number does. -/
def decodeFrom (i : Nat) : Bytes → Except Error (Option (Nat × Nat))
  | [] => .ok none
  | b :: bs =>
    if i + 1 = maxLength ∧ 1 < b.toNat then .error .varintOverflow
    else if b.toNat < 128 then .ok (some (b.toNat, 1))
    else
      match decodeFrom (i + 1) bs with
      | .error e => .error e
      | .ok none => .ok none
      | .ok (some (v, used)) => .ok (some (b.toNat % 128 + 128 * v, used + 1))

def decode (bs : Bytes) : Except Error (Option (Nat × Nat)) := decodeFrom 0 bs

end SpanTree.Varint
