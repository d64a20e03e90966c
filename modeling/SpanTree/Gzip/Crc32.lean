import SpanTree.Bytes

/-!
# CRC-32

The checksum with the reflected polynomial `0xEDB88320`, one bit at a time.
-/

namespace SpanTree.Gzip

def crcBit (c : UInt32) : UInt32 := if c &&& 1 = 1 then (c >>> 1) ^^^ 0xEDB88320 else c >>> 1

def crcByte (c : UInt32) (b : UInt8) : UInt32 := Nat.repeat crcBit 8 (c ^^^ b.toUInt32)

def crc32 (bs : Bytes) : UInt32 := bs.foldl crcByte 0xFFFFFFFF ^^^ 0xFFFFFFFF

end SpanTree.Gzip
