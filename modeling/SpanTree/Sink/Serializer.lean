import SpanTree.Bill.Stream
import SpanTree.Config
import SpanTree.Tree.Lorth

/-!
# Serializers and their contexts

A serializer turns trees into the bytes of an output. Each output has a context of its own, which
takes trees one by one and is closed at the end; a closed context takes no more trees.

The context of a stream begins it with the first tree it is given, also if that tree is refused: the
bytes which wait then go out with the next call. A stream that was never begun stays empty.
-/

namespace SpanTree

inductive Serializer
  | bill (config : BillConfig)
  | lorth
  | null
deriving DecidableEq, Repr

namespace Serializer

def name : Serializer → String
  | bill _ => "bill"
  | lorth => "lorth"
  | null => "null"

/-- The bytes are no text. -/
def isBinary : Serializer → Bool
  | bill _ => true
  | lorth | null => false

end Serializer

/-- The state of one output. -/
inductive Context
  | bill (stream : Stream) (isStarted isClosed : Bool)
  | lorth (isClosed : Bool)
  | null (isClosed : Bool)
deriving DecidableEq, Repr

namespace Context

def ofSerializer : Serializer → Context
  | .bill config =>
    bill (if config.noRootNode then Stream.empty.omitRoots else Stream.empty) false false
  | .lorth => lorth false
  | .null => null false

def isClosed : Context → Bool
  | bill _ _ closed | lorth closed | null closed => closed

/-- Adds a tree to a stream, which is begun if need be. -/
def serializeBill (stream : Stream) (isStarted : Bool) (t : Tree) : Outcome Context Bytes :=
  let begun := if isStarted then stream else stream.insertHeader
  let o := begun.append t
  match o.result with
  | .error e =>
    { result := .error e
      state := bill o.state true false
      notices := o.notices ++ [.treeDropped t.rootName e] }
  | .ok () =>
    let (bytes, stream) := o.state.takeBytes
    { result := .ok bytes, state := bill stream true false, notices := o.notices }

/-- The bytes to be added to the output for a tree. -/
def serialize (c : Context) (t : Tree) : Outcome Context Bytes :=
  match c with
  | bill stream isStarted false => serializeBill stream isStarted t
  | lorth false => { result := .ok (Utf8.encode t.lorth), state := c }
  | null false => { result := .ok [], state := c }
  | _ => { result := .error .contextClosed, state := c }

/-- The bytes that end the output. Closing once more adds none. -/
def close (c : Context) : Bytes × Context :=
  match c with
  | bill stream isStarted false =>
    let ended := if isStarted then stream.insertTerminator else stream
    let (bytes, stream) := ended.takeBytes
    (bytes, bill stream isStarted true)
  | bill _ _ true => ([], c)
  | lorth _ => ([], lorth true)
  | null _ => ([], null true)

end Context

end SpanTree
