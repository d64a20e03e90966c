import SpanTree.Bytes
import SpanTree.Error
import SpanTree.Text.Utf8

/-!
# The fields of a node

```text
children header    1ccccccc cccccccc              15 bits: length of what follows in the node
name               00iiiiii                       index into the dictionary
                   01nnnnnn nnnnnnnn name         14 bits: length of the name, then its UTF-8
span               0sssllll                       3 bits of skip, 4 of length
                   10ssssss llllllll              6 and 8 bits
                   11ssssss ssssssss llllllll llllllll    14 and 16 bits
```

A number that spreads over two bytes has its low bits in the first. The skip of a span counts the
bytes from the end of the previous sibling, or from the start of the parent, to the start of the
node.
-/

namespace SpanTree.Bill

/-! ## Limits -/

def maxNameLength : Nat := 0x3FFF

def maxBlockLength : Nat := 0x7FFF

def maxSkip : Nat := 0x3FFF

def maxSpanLength : Nat := 0xFFFF

/-- The root lies at depth 0. -/
def maxDepth : Nat := 512

/-- How many names the dictionary of a stream holds, as many as an index has room for. -/
def dictionarySize : Nat := 64

/-! ## Spans -/

/-- The shortest of the three forms. -/
def encodeSpan (skip length : Nat) : Except Error Bytes :=
  if skip < 8 ∧ length < 16 then .ok [UInt8.ofNat (16 * skip + length)]
  else if skip < 64 ∧ length < 256 then .ok [UInt8.ofNat (128 + skip), UInt8.ofNat length]
  else if skip ≤ maxSkip ∧ length ≤ maxSpanLength then
    .ok [UInt8.ofNat (192 + skip % 64), UInt8.ofNat (skip / 64), UInt8.ofNat (length % 256),
      UInt8.ofNat (length / 256)]
  else .error (.spanOverflow skip length)

/-- The skip, the length and the number of bytes they take, unless the bytes end too early. -/
def decodeSpan : Bytes → Option (Nat × Nat × Nat)
  | [] => none
  | b :: bs =>
    if b.toNat < 128 then some (b.toNat / 16, b.toNat % 16, 1)
    else if b.toNat < 192 then
      match bs with
      | l :: _ => some (b.toNat % 64, l.toNat, 2)
      | [] => none
    else
      match bs with
      | s :: l :: h :: _ => some (b.toNat % 64 + 64 * s.toNat, l.toNat + 256 * h.toNat, 4)
      | _ => none

/-! ## Names in full -/

def encodeFullName (name : String) : Except Error Bytes :=
  let bytes := Utf8.encode name
  if maxNameLength < bytes.length then .error (.nameTooLong bytes.length)
  else .ok (UInt8.ofNat (64 + bytes.length % 64) :: UInt8.ofNat (bytes.length / 64) :: bytes)

/-- The length that the two bytes before a name in full give. -/
def fullNameLength (lo hi : UInt8) : Nat := lo.toNat % 64 + 64 * hi.toNat

/-! ## Children headers -/

def encodeChildrenHeader (length : Nat) : Except Error Bytes :=
  if maxBlockLength < length then .error (.childrenBlockTooLarge length)
  else .ok [UInt8.ofNat (128 + length % 128), UInt8.ofNat (length / 128)]

/-- The length that the two bytes of a children header give. -/
def childrenLength (lo hi : UInt8) : Nat := lo.toNat % 128 + 128 * hi.toNat

end SpanTree.Bill
