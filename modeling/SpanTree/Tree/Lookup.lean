import SpanTree.Tree

/-!
# Looking nodes up by their chain of names

A key such as `$.addr.ip` addresses every node whose names, from the root down, are the pieces of
the key between the dots; an empty last piece is ignored. Several nodes can share a chain: they
count in pre-order.

`Search` is what a search in a subtree leaves behind: the node, or how many more are to be skipped.
-/

namespace SpanTree

inductive Search
  | found (n : Node)
  | skip (count : Nat)

namespace Node

/-- A node whose name is the last piece counts: it is skipped or found. -/
def settle (n : Node) : Nat → Search
  | 0 => .found n
  | count + 1 => .skip count

mutual

def search (key : List (List Char)) (skip : Nat) : Node → Search
  | ⟨name, start, stop, children⟩ =>
    match key with
    | [] => .skip skip
    | head :: rest =>
      if name.toList = head then
        match rest with
        | [] => settle ⟨name, start, stop, children⟩ skip
        | [[]] => settle ⟨name, start, stop, children⟩ skip
        | seg :: segs => searchAll (seg :: segs) skip children
      else .skip skip

def searchAll (key : List (List Char)) (skip : Nat) : List Node → Search
  | [] => .skip skip
  | n :: ns =>
    match search key skip n with
    | .found m => .found m
    | .skip left => searchAll key left ns

end

end Node

namespace Tree

/-- The text of the `n`-th node, counted from 0, that the key addresses. -/
def lookupNth (t : Tree) (key : String) (n : Nat) : Option Bytes :=
  match t.root.search (Name.segments key) n with
  | .found node => some (node.text t.raw)
  | .skip _ => none

def lookup (t : Tree) (key : String) : Option Bytes := t.lookupNth key 0

end Tree

end SpanTree
