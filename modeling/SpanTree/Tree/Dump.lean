import SpanTree.Tree
import SpanTree.Text.Escape

/-!
# The dump

One line for each node in pre-order: a dash for every level below the root, the name, and the
escaped text. Two trees count as **alike** if they have the same dump.
-/

namespace SpanTree.Tree

open Text (escape)

def dumpLine (raw : Bytes) (depth : Nat) (n : Node) : List Char :=
  List.replicate depth '-' ++ n.name.toList ++ [':', ' '] ++ escape (n.text raw) ++ ['\n']

def dumpChars (t : Tree) : List Char :=
  t.preorder.flatMap fun (depth, n) => dumpLine t.raw depth n

def dump (t : Tree) : String := String.ofList t.dumpChars

/-- The trees show the same lines. -/
def alike (t u : Tree) : Bool := t.dumpChars == u.dumpChars

theorem alike_iff {t u : Tree} : t.alike u = true ↔ t.dumpChars = u.dumpChars := by
  simp [alike]

end SpanTree.Tree
