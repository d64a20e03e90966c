import SpanTree.Bytes

/-!
# Escaped literals

Renderings show raw bytes between double quotes. The backslash, the double quote, newline, tab and
carriage return have two-character escapes, every other printable ASCII byte stands for itself, and
all other bytes are `\xNN` with two lower-case digits.

`unescape` reads such a literal back. It takes exactly the escapes that `escape` writes and
printable ASCII, in either case of the digits.
-/

namespace SpanTree.Text

/-- The digit of `n < 16`, in lower case. -/
def hexDigit (n : Nat) : Char := Nat.digitChar n

/-- Printable ASCII, the space included. -/
def isPrintableByte (b : UInt8) : Bool := 0x20 ≤ b && b ≤ 0x7E

def escapeByte (b : UInt8) : List Char :=
  if b = 0x5C then ['\\', '\\']
  else if b = 0x22 then ['\\', '"']
  else if b = 0x0A then ['\\', 'n']
  else if b = 0x09 then ['\\', 't']
  else if b = 0x0D then ['\\', 'r']
  else if isPrintableByte b then [Char.ofNat b.toNat]
  else ['\\', 'x', hexDigit (b.toNat / 16), hexDigit (b.toNat % 16)]

def escape (bs : Bytes) : List Char := bs.flatMap escapeByte

@[simp] theorem escape_nil : escape [] = [] := rfl

@[simp] theorem escape_cons (b : UInt8) (bs : Bytes) :
    escape (b :: bs) = escapeByte b ++ escape bs := rfl

@[simp] theorem escape_append (as bs : Bytes) : escape (as ++ bs) = escape as ++ escape bs := by
  simp [escape]

/-- The value of a hexadecimal digit. -/
def hexValue? (c : Char) : Option Nat :=
  if '0' ≤ c ∧ c ≤ '9' then some (c.toNat - 48)
  else if 'a' ≤ c ∧ c ≤ 'f' then some (c.toNat - 87)
  else if 'A' ≤ c ∧ c ≤ 'F' then some (c.toNat - 55)
  else none

def unescape : List Char → Option Bytes
  | [] => some []
  | '\\' :: '\\' :: cs => (unescape cs).map (0x5C :: ·)
  | '\\' :: '"' :: cs => (unescape cs).map (0x22 :: ·)
  | '\\' :: 'n' :: cs => (unescape cs).map (0x0A :: ·)
  | '\\' :: 't' :: cs => (unescape cs).map (0x09 :: ·)
  | '\\' :: 'r' :: cs => (unescape cs).map (0x0D :: ·)
  | '\\' :: 'x' :: h :: l :: cs =>
    (hexValue? h).bind fun h => (hexValue? l).bind fun l =>
      (unescape cs).map (UInt8.ofNat (16 * h + l) :: ·)
  | c :: cs =>
    if c ≠ '\\' ∧ c ≠ '"' ∧ ' ' ≤ c ∧ c ≤ '~' then
      (unescape cs).map (UInt8.ofNat c.toNat :: ·)
    else none

end SpanTree.Text
