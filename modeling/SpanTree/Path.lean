import SpanTree.Path.Entries
import SpanTree.Tree.Dump

/-!
# Building trees from dotted paths

A path collects contents under keys: absolute ones such as `$.src.ip`, and relative ones such as
`src.ip`, which get a root only when the path is attached to another. A content is a nameless tree.

`toTree` arranges the absolute entries: common beginnings become common nodes, the content of a key
comes first in its node, and the nodes of the next segments follow in the order of their names.
-/

namespace SpanTree

structure Path where
  /-- The key at which this path itself puts contents. -/
  name : String
  absolute : Entries Tree
  relative : Entries Tree

namespace Path

def isAbsolute (p : Path) : Bool := Name.isAbsolute p.name

def isRelative (p : Path) : Bool := !p.isAbsolute

/-- The entries among which the path's own key is. -/
def own (p : Path) : Entries Tree := if p.isAbsolute then p.absolute else p.relative

def withOwn (p : Path) (es : Entries Tree) : Path :=
  if p.isAbsolute then { p with absolute := es } else { p with relative := es }

/-- A path without contents. -/
def named (name : String) : Except Error Path :=
  if Name.isAddress name then
    .ok ((⟨name, [], []⟩ : Path).withOwn [(name, Tree.empty)])
  else .error (.invalidPathName name)

/-! ## Contents -/

/-- Changes what stands at the path's own key. -/
def update (p : Path) (f : Tree → Tree) : Path :=
  p.withOwn (p.own.insert p.name (f ((p.own.get? p.name).getD Tree.empty)))

def appendText (p : Path) (s : String) : Path := p.update (·.appendText s)

def appendValue (p : Path) (v : Tree.Value) : Path := p.update (·.appendValue v)

def appendTree (p : Path) (t : Tree) : Path := p.update (·.push t)

/-- Adds a content at a key, behind what stands there already. -/
def addEntry (es : Entries Tree) (key : String) (t : Tree) : Except Error (Entries Tree) :=
  match es.get? key with
  | none => .ok (es.insert key t)
  | some old => (old.merge t .concatenate).map fun merged => es.insert key merged

/-- Attaches everything that the other path has collected: its relative entries come to lie below
this path's name, its absolute entries stay where they are. -/
def append (p other : Path) : Except Error Path := do
  let own ← other.relative.foldlM (fun es (k, t) => addEntry es (p.name ++ "." ++ k) t) p.own
  let p := p.withOwn own
  let absolute ← other.absolute.foldlM (fun es (k, t) => addEntry es k t) p.absolute
  return { p with absolute := absolute }

/-- The paths have the same name and alike contents at the same keys. -/
def alike (p q : Path) : Bool :=
  let same := fun (es fs : Entries Tree) =>
    es.length == fs.length && (es.zip fs).all fun (e, f) => e.1 == f.1 && e.2.alike f.2
  p.name == q.name && same p.absolute q.absolute && same p.relative q.relative

end Path

/-! ## Arranging entries -/

/-- The nodes to be made, with their contents and with the nodes of the next segments by name. -/
inductive Outline
  | node (content : Tree) (next : List (String × Outline))

namespace Outline

def empty : Outline := node Tree.empty []

instance : Inhabited Outline := ⟨empty⟩

/-- Changes the node of a name among its siblings, which are in order; a node that is not there yet
is an empty one. -/
def changeAt (change : Outline → Except Error Outline) (seg : String) :
    List (String × Outline) → Except Error (List (String × Outline))
  | [] => (change empty).map fun new => [(seg, new)]
  | (k, o) :: rest =>
    if seg < k then (change empty).map fun new => (seg, new) :: (k, o) :: rest
    else if k = seg then (change o).map fun new => (k, new) :: rest
    else (changeAt change seg rest).map ((k, o) :: ·)

/-- Adds a content below the chain of segments. -/
def add (content : Tree) : List String → Outline → Except Error Outline
  | [], node old next => (old.merge content .concatenate).map fun merged => node merged next
  | seg :: segs, node old next => (changeAt (add content segs) seg next).map (node old)

mutual

/-- The tree of a node with the given name. -/
def build (name : String) : Outline → Except Error Tree
  | node content next => do
    let t ← (← Tree.named name).merge content .concatenate
    buildInto t next

/-- The tree with the trees of the given nodes as further children. -/
def buildInto (t : Tree) : List (String × Outline) → Except Error Tree
  | [] => .ok t
  | (k, o) :: rest => do
    let child ← build k o
    buildInto (t.push child) rest

end

end Outline

namespace Path

/-- The segments of an absolute key behind the root. -/
def segmentsBelowRoot (key : String) : List String :=
  (Name.segments key).tail.map String.ofList

/-- The tree of all absolute entries, with the root `$`. A relative entry has no place in it. -/
def toTree (p : Path) : Except Error Tree :=
  match p.relative.firstKey? with
  | some key => .error (.relativePath key)
  | none => do
    let outline ← p.absolute.foldlM
      (fun (o : Outline) (k, t) => o.add t (segmentsBelowRoot k)) Outline.empty
    outline.build Name.root

end Path

end SpanTree
