/-!
# Bytes

Raw buffers, blocks and whole streams are lists of bytes: everything that is said about them is
said by `++`, `take`, `drop` and `length`.
-/

namespace SpanTree

abbrev Bytes := List UInt8

end SpanTree
