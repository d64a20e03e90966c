import SpanTree.Tree
import SpanTree.Text.Escape

/-!
# Lorth programs

A tree written as a postfix program. A node without children is a word applied to its text,
`name "text" .`; a node with children is a block `name { … }` in which the text between the children
is pushed as literals. Each level is indented by one space, and `;` ends the program.

The rendering has two steps: the lines of the program with their levels, and the text of a line.
-/

namespace SpanTree.Lorth

open Text (escape)

inductive Line
  /-- A node without children. -/
  | word (name : String) (text : Bytes)
  /-- The beginning of a node with children. -/
  | opening (name : String)
  /-- Text of a node that belongs to none of its children. -/
  | literal (text : Bytes)
  /-- The end of a node with children. -/
  | closing
deriving DecidableEq, Repr

/-- The text between two children, if there is any. -/
def gap (level : Nat) : Bytes → List (Nat × Line)
  | [] => []
  | b :: bs => [(level, .literal (b :: bs))]

mutual

def lines (raw : Bytes) (level : Nat) : Node → List (Nat × Line)
  | ⟨name, start, stop, []⟩ => [(level, .word name (raw.extract start stop))]
  | ⟨name, start, stop, child :: children⟩ =>
    (level, .opening name) :: (body raw level start stop (child :: children)
      ++ [(level, .closing)])

/-- The lines of a node's children and of the text around them, from `cursor` on. -/
def body (raw : Bytes) (level cursor stop : Nat) : List Node → List (Nat × Line)
  | [] => gap level (raw.extract cursor stop)
  | n :: ns =>
    gap level (raw.extract cursor n.start) ++ lines raw (level + 1) n
      ++ body raw level n.stop stop ns

end

def quoted (bs : Bytes) : List Char := '"' :: escape bs ++ ['"', ' ', '.']

/-- A literal is indented by one space more than the node it belongs to. -/
def Line.chars (level : Nat) (line : Line) : List Char :=
  List.replicate level ' ' ++
    match line with
    | word name text => name.toList ++ ' ' :: quoted text
    | opening name => name.toList ++ [' ', '\x7b']
    | literal text => ' ' :: quoted text
    | closing => ['\x7d']

end Lorth

namespace Tree

/-- The lines with a line end between any two of them. -/
def joinLines : List (List Char) → List Char
  | [] => []
  | [l] => l
  | l :: ls => l ++ '\n' :: joinLines ls

def lorthChars (t : Tree) : List Char :=
  joinLines ((Lorth.lines t.raw 0 t.root).map fun (level, line) => line.chars level)
    ++ [';', '\n']

def lorth (t : Tree) : String := String.ofList t.lorthChars

end Tree

end SpanTree
