import SpanTree.Error
import SpanTree.Name
import SpanTree.Node
import SpanTree.Text.Utf8

/-!
# Annotated texts

A tree is a raw buffer with the nodes that annotate it. It grows at its end only: text extends the
buffer and the root, a pushed tree becomes the last child, and a merged tree brings its text and its
top-level children. In each case the nodes that come in are moved behind the bytes already there, so
the result is again one buffer with spans into it.

`isValid` says that the root covers the buffer and that all spans are nested and in order.
-/

namespace SpanTree

structure Tree where
  root : Node
  raw : Bytes
deriving DecidableEq, Repr

/-- How two trees are merged. -/
inductive MergeMode
  /-- Texts are concatenated, and the top-level children are chained. -/
  | concatenate
  /-- Nodes of one name would be merged into each other; this is not supported. -/
  | nodes
deriving DecidableEq, Repr

namespace Tree

/-- The nameless tree without text. -/
def empty : Tree := ⟨Node.blank "", []⟩

instance : Inhabited Tree := ⟨empty⟩

/-- A tree without text whose root has the given name. -/
def named (name : String) : Except Error Tree :=
  if Name.isNode name then .ok ⟨Node.blank name, []⟩ else .error (.invalidNodeName name)

def rootName (t : Tree) : String := t.root.name

def rename (t : Tree) (name : String) : Except Error Tree :=
  if Name.isNode name then .ok { t with root := { t.root with name := name } }
  else .error (.invalidNodeName name)

/-! ## Growing a tree -/

def appendBytes (t : Tree) (bs : Bytes) : Tree :=
  ⟨{ t.root with stop := (t.raw ++ bs).length }, t.raw ++ bs⟩

def appendText (t : Tree) (s : String) : Tree := t.appendBytes (Utf8.encode s)

/-- The child's bytes follow those of the tree, and its root becomes the last child. -/
def push (t child : Tree) : Tree :=
  let node := child.root.moved t.root.stop
  ⟨{ t.root with stop := node.stop, children := t.root.children ++ [node] }, t.raw ++ child.raw⟩

/-- Two names go together if they agree or if one of them is missing. -/
def canMergeNames (ours theirs : String) : Bool :=
  ours.isEmpty || theirs.isEmpty || ours == theirs

/-- The other tree's bytes and top-level children follow those of the tree, which keeps its name or
takes over the other's if it has none. -/
def merge (t other : Tree) (mode : MergeMode) : Except Error Tree :=
  match mode with
  | .nodes => .error .nodeMergeUnsupported
  | .concatenate =>
    if canMergeNames t.rootName other.rootName then
      let moved := other.root.moved t.root.stop
      .ok ⟨{ t.root with
          name := if t.rootName.isEmpty then other.rootName else t.rootName
          stop := moved.stop
          children := t.root.children ++ moved.children }, t.raw ++ other.raw⟩
    else .error (.nameConflict t.rootName other.rootName)

/-! ## Values -/

/-- A value that is appended in its textual form. -/
inductive Value
  | int (n : Int)
  | bool (b : Bool)
  | text (s : String)
deriving DecidableEq, Repr

/-- Numbers are written in decimal. -/
def Value.toText : Value → String
  | int n => if n < 0 then "-" ++ toString n.natAbs else toString n.natAbs
  | bool b => if b then "true" else "false"
  | text s => s

def appendValue (t : Tree) (v : Value) : Tree := t.appendText v.toText

/-! ## What holds of a tree -/

/-- The root covers the buffer, and all spans are nested and in order. -/
def isValid (t : Tree) : Bool :=
  t.root.start == 0 && t.root.stop == t.raw.length && t.root.fits 0 t.raw.length

/-- A cheap hash for telling trees apart: the length of the buffer in 32 bits. -/
def hash (t : Tree) : UInt32 := UInt32.ofNat t.raw.length

/-- The nodes in pre-order with their depths, the root at depth 0. -/
def preorder (t : Tree) : List (Nat × Node) := t.root.preorder 0

@[simp] theorem isValid_empty : empty.isValid = true := rfl

@[simp] theorem raw_appendBytes (t : Tree) (bs : Bytes) : (t.appendBytes bs).raw = t.raw ++ bs :=
  rfl

@[simp] theorem raw_push (t child : Tree) : (t.push child).raw = t.raw ++ child.raw := rfl

end Tree

end SpanTree
