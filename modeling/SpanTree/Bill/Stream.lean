import SpanTree.Bill.Encode
import SpanTree.Bill.Header
import SpanTree.Bill.Varint
import SpanTree.Notice

/-!
# Writing a stream

```text
header
varint(raw length) raw varint(block length) block        one frame per tree
varint(2^64 - 1)                                         terminator
```

All trees of a stream share one dictionary. A tree that cannot be encoded is refused as a whole: the
names that it brought are taken back, and no byte of it is written.
-/

namespace SpanTree

structure Stream where
  dict : Dictionary
  /-- The bytes that wait to be taken. -/
  buffer : Bytes
  mode : Bill.RootMode
deriving DecidableEq, Repr

namespace Stream

open Bill

def empty : Stream := ⟨Dictionary.ofCapacity dictionarySize, [], .written⟩

def omitRoots (s : Stream) : Stream := { s with mode := .omitted }

def writesRoots (s : Stream) : Bool := s.mode == .written

/-- A header begins a new stream, in which no name is known yet. -/
def insertHeader (s : Stream) : Stream :=
  { s with dict := s.dict.reset, buffer := s.buffer ++ header }

def insertTerminator (s : Stream) : Stream :=
  { s with buffer := s.buffer ++ Varint.encode terminator }

def resetDictionary (s : Stream) : Stream := { s with dict := s.dict.reset }

/-- The bytes of a tree in a stream, given its block. -/
def frame (raw block : Bytes) : Bytes :=
  Varint.encode raw.length ++ raw ++ Varint.encode block.length ++ block

/-- Says when a dictionary that had room has none any more. -/
def fullNotices (before after : Dictionary) : List Notice :=
  if !before.isFull && after.isFull then [.dictionaryFull after.size] else []

def append (s : Stream) (t : Tree) : Outcome Stream Unit :=
  match (encodeTree t s.mode).run.run s.dict with
  | (.error e, dict) =>
    { result := .error e, state := { s with dict := dict.truncate s.dict.size } }
  | (.ok block, dict) =>
    { result := .ok ()
      state := { s with dict := dict, buffer := s.buffer ++ frame t.raw block }
      notices := fullNotices s.dict dict }

def takeBytes (s : Stream) : Bytes × Stream := (s.buffer, { s with buffer := [] })

end Stream

end SpanTree
