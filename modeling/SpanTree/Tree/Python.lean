import SpanTree.Tree
import SpanTree.Text.Escape

/-!
# Python literals

Each node is a pair of its own text, which is what its children do not cover, and its children. The
children of a node whose name starts with `#` form a tuple of pairs; those of any other node form a
dict from names to pairs. Each level is indented by two spaces, the root by two already.

The rendering has two steps: the lines with their levels, and the text of a line. The comma after
the last pair is left out.
-/

namespace SpanTree.Python

open Text (escape)

/-- The beginning of a pair: the key, absent for an item of an array, the node's own text, and
whether its children form an array. -/
structure Head where
  key : Option String
  text : Bytes
  isArray : Bool
deriving DecidableEq, Repr

inductive Line
  /-- A node without children. -/
  | leaf (head : Head)
  /-- The beginning of a node with children. -/
  | opening (head : Head)
  /-- The end of the children. -/
  | closingItems (isArray : Bool)
  /-- The end of the pair. -/
  | closing
deriving DecidableEq, Repr

/-- The bytes of `[cursor, stop)` that the nodes do not cover. -/
def ownText (raw : Bytes) (cursor stop : Nat) : List Node → Bytes
  | [] => raw.extract cursor stop
  | n :: ns => raw.extract cursor n.start ++ ownText raw n.stop stop ns

def head (raw : Bytes) (isItem : Bool) (n : Node) : Head :=
  ⟨if isItem then none else some n.name, ownText raw n.start n.stop n.children,
    Name.isArray n.name⟩

mutual

def lines (raw : Bytes) (level : Nat) (isItem : Bool) : Node → List (Nat × Line)
  | ⟨name, start, stop, []⟩ => [(level, .leaf (head raw isItem ⟨name, start, stop, []⟩))]
  | ⟨name, start, stop, child :: children⟩ =>
    (level, .opening (head raw isItem ⟨name, start, stop, child :: children⟩))
      :: (linesAll raw (level + 1) (Name.isArray name) (child :: children)
        ++ [(level, .closingItems (Name.isArray name)), (level, .closing)])

def linesAll (raw : Bytes) (level : Nat) (areItems : Bool) : List Node → List (Nat × Line)
  | [] => []
  | n :: ns => lines raw level areItems n ++ linesAll raw level areItems ns

end

def Head.chars (h : Head) : List Char :=
  (match h.key with
    | some name => '"' :: name.toList ++ ['"', ' ', ':', ' ']
    | none => [])
    ++ ['(', '"'] ++ escape h.text ++ ['"', ',']

def openBracket (isArray : Bool) : Char := if isArray then '(' else '\x7b'

def closeBracket (isArray : Bool) : Char := if isArray then ')' else '\x7d'

/-- A non-empty tuple has a comma behind it, and so has an empty one, but no dict. -/
def Line.chars (level : Nat) (line : Line) : List Char :=
  List.replicate (2 * level) ' ' ++
    match line with
    | leaf h =>
      h.chars ++ [openBracket h.isArray, closeBracket h.isArray]
        ++ (if h.isArray then [',', ')'] else [')']) ++ [',', '\n']
    | opening h => h.chars ++ [openBracket h.isArray, '\n']
    | closingItems isArray =>
      [' ', closeBracket isArray] ++ (if isArray then [',', '\n'] else ['\n'])
    | closing => [')', ',', '\n']

end Python

namespace Tree

def pythonChars (t : Tree) : List Char :=
  ((Python.lines t.raw 1 false t.root).flatMap fun (level, line) =>
    line.chars level).dropLast.dropLast

def python (t : Tree) : String := String.ofList t.pythonChars

end Tree

end SpanTree
