import SpanTree.Bytes
import SpanTree.Error

/-!
# The header of a stream

Four magic bytes and the version of the format, with the high byte first.
-/

namespace SpanTree.Bill

def magic : Bytes := [0x42, 0x49, 0x4C, 0x4C]

def version : Nat := 1

def header : Bytes := magic ++ [0, 1]

/-- The number that ends a stream, in place of the length of a raw buffer: 64 bits, all set. -/
def terminator : Nat := 0xFFFFFFFFFFFFFFFF

/-- Six bytes are looked at; a shorter stream is cut off, whatever it begins with. -/
def checkHeader (data : Bytes) : Except Error Unit :=
  match data with
  | b :: i :: l :: l' :: hi :: lo :: _ =>
    if [b, i, l, l'] ≠ magic then .error .invalidMagic
    else if 256 * hi.toNat + lo.toNat ≠ version then
      .error (.unsupportedVersion (256 * hi.toNat + lo.toNat))
    else .ok ()
  | short => .error (.truncated short.length)

end SpanTree.Bill
