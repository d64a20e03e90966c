import SpanTree.Error
import SpanTree.Gzip.Crc32
import SpanTree.Gzip.Inflate

/-!
# Gzip files

A member of a gzip file is a header, a deflated stream, and the checksum and the size of what it
inflates to. Only the first member counts; what follows it is ignored. Bytes that do not begin like
a gzip file are taken as they are.

Files are packed and unpacked by a codec. That of the commands is `stored`: it unpacks all gzip
files, and it packs bytes as they are, in blocks of at most 65535 of them, none of them deflated.
-/

namespace SpanTree.Gzip

def isGzip : Bytes → Bool
  | 0x1F :: 0x8B :: _ => true
  | _ => false

def le16 (n : Nat) : Bytes := [UInt8.ofNat n, UInt8.ofNat (n / 256)]

def le32 (n : Nat) : Bytes := le16 n ++ le16 (n / 65536)

/-! ## Compressing -/

/-- No name, no time, the default effort, an unknown system. -/
def plainHeader : Bytes := [0x1F, 0x8B, 0x08, 0, 0, 0, 0, 0, 0, 0xFF]

def maxStored : Nat := 65535

def storedBlocks (bs : Bytes) : Bytes :=
  if bs.length ≤ maxStored then 1 :: le16 bs.length ++ le16 (65535 - bs.length) ++ bs
  else 0 :: le16 maxStored ++ le16 0 ++ bs.take maxStored ++ storedBlocks (bs.drop maxStored)
termination_by bs.length
decreasing_by simp [maxStored] at *; omega

def trailer (bs : Bytes) : Bytes := le32 (crc32 bs).toNat ++ le32 bs.length

def compress (bs : Bytes) : Bytes := plainHeader ++ storedBlocks bs ++ trailer bs

/-! ## Decompressing -/

def maxText : Nat := 65535

/-- The bytes behind a text that ends in a zero byte. -/
def skipText (bs : Bytes) : Option Bytes :=
  match bs.dropWhile (· != 0) with
  | [] => none
  | _ :: rest => if bs.length ≤ maxText + (rest.length + 1) then some rest else none

def skipExtra : Bytes → Option Bytes
  | l :: h :: rest =>
    let n := l.toNat + 256 * h.toNat
    if n ≤ rest.length then some (rest.drop n) else none
  | _ => none

/-- The checksum of a header is the low half of that of its bytes. -/
def skipHeaderCheck (all rest : Bytes) : Option Bytes :=
  match rest with
  | l :: h :: rest' =>
    let crc := (crc32 (all.take (all.length - rest.length))).toNat
    if l.toNat + 256 * h.toNat = crc % 65536 then some rest' else none
  | _ => none

def hasFlag (flags : UInt8) (i : Nat) : Bool := flags.toNat.testBit i

/-- The bytes behind the header, with the fields that its flags announce. -/
def skipHeader (bs : Bytes) : Option Bytes :=
  match bs with
  | 0x1F :: 0x8B :: 8 :: flags :: _ :: _ :: _ :: _ :: _ :: _ :: rest => do
    if 32 ≤ flags.toNat then none
    else
      let rest ← if hasFlag flags 2 then skipExtra rest else some rest
      let rest ← if hasFlag flags 3 then skipText rest else some rest
      let rest ← if hasFlag flags 4 then skipText rest else some rest
      if hasFlag flags 1 then skipHeaderCheck bs rest else some rest
  | _ => none

/-- The content of the first member, if nothing is wrong with it. -/
def content? (bs : Bytes) : Option Bytes := do
  let rest ← skipHeader bs
  let (out, rest) ← inflate rest
  if rest.take 8 = trailer out then some out else none

/-! ## Codecs -/

/-- A way to pack bytes into gzip files. -/
structure Codec where
  pack : Bytes → Bytes
  /-- The content of a file, if nothing is wrong with it. -/
  unpack? : Bytes → Option Bytes

def stored : Codec := ⟨compress, content?⟩

def Codec.decompress (codec : Codec) (bs : Bytes) : Except Error Bytes :=
  if isGzip bs then
    match codec.unpack? bs with
    | some out => .ok out
    | none => .error (.config (.gzipDecompression "corrupt gzip stream"))
  else .ok bs

def decompress (bs : Bytes) : Except Error Bytes := stored.decompress bs

end SpanTree.Gzip
