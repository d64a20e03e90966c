import SpanTree.Tree
import SpanTree.Json.Value

/-!
# The JSON view

Each node is an object with its children, its name and its text. Bytes that are no UTF-8 show as
replacement characters.
-/

namespace SpanTree

mutual

def Node.toJson (raw : Bytes) : Node → Json
  | ⟨name, start, stop, children⟩ =>
    .object [("children", .array (Node.toJsonAll raw children)), ("name", .string name),
      ("text", .string (Utf8.decodeLossy (raw.extract start stop)))]

def Node.toJsonAll (raw : Bytes) : List Node → List Json
  | [] => []
  | n :: ns => Node.toJson raw n :: Node.toJsonAll raw ns

end

def Tree.toJson (t : Tree) : Json := t.root.toJson t.raw

end SpanTree
