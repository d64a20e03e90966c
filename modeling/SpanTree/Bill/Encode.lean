import SpanTree.Bill.Field
import SpanTree.Dictionary
import SpanTree.Tree

/-!
# Encoding the nodes of a tree

```text
node = [children header] name span [children]
```

A header stands before nodes that have children, and counts the bytes of all that follows. A name
that the dictionary knows is written as its index; any other is written in full, and is learned if
there is room.

Encoding is a computation on the dictionary. It stops at the first limit that is exceeded and leaves
the dictionary as far as it has got: whoever wants a failure to leave no trace takes the names back.
-/

namespace SpanTree.Bill

/-- A computation that grows a dictionary, also when it fails. -/
abbrev Encoding (α : Type) := ExceptT Error (StateM Dictionary) α

/-- An index is written as it is, and is asserted to fit six bits: those of a stream's dictionary
do. -/
def encodeName (name : String) : Encoding Bytes := do
  match (← get).find name with
  | .index i =>
    if i < dictionarySize then return [UInt8.ofNat i]
    else throw (.indexTooLarge i)
  | .notFound =>
    modify (·.learn name)
    liftExcept (encodeFullName name)
  | _ => liftExcept (encodeFullName name)

mutual

/-- The node at the given depth; the node before it, or its parent's start, ends at `cursor`. -/
def encodeNode (cursor depth : Nat) : Node → Encoding Bytes
  | ⟨name, start, stop, children⟩ => do
    if maxDepth < depth then throw (.nestingTooDeep maxDepth)
    let nameBytes ← encodeName name
    let spanBytes ← liftExcept (encodeSpan (start - cursor) (stop - start))
    let inner ← encodeNodes start (depth + 1) children
    let content := nameBytes ++ spanBytes ++ inner
    if children.isEmpty then return content
    else return (← liftExcept (encodeChildrenHeader content.length)) ++ content

def encodeNodes (cursor depth : Nat) : List Node → Encoding Bytes
  | [] => return []
  | n :: ns => do
    let first ← encodeNode cursor depth n
    let rest ← encodeNodes n.stop depth ns
    return first ++ rest

end

/-- Whether the root of each tree is written, or its children only. -/
inductive RootMode
  | written
  | omitted
deriving DecidableEq, Repr

/-- The block of a tree. A nameless root is not written. -/
def encodeTree (t : Tree) (mode : RootMode) : Encoding Bytes :=
  match mode with
  | .written =>
    if t.rootName.isEmpty then throw (.invalidNodeName "")
    else encodeNode t.root.start 0 t.root
  | .omitted => encodeNodes t.root.start 1 t.root.children

end SpanTree.Bill
