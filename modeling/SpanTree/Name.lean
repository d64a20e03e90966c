import SpanTree.Text.Pieces

/-!
# Names of nodes and paths

A **node name** is `$` or a segment. A **segment** is a word, with or without `#` in front; a
**word** is a lower-case ASCII letter or `_`, followed by letters, digits and `_`.

A **path** is a chain of segments joined by dots. It is *absolute* if it starts at the root `$`, and
*relative* if it has segments only. The root alone is a node name and no path name.
-/

namespace SpanTree.Name

/-- The name of the root, at which absolute paths start. -/
def root : String := "$"

def isWordStart (c : Char) : Bool := c.isLower || c == '_'

def isWordChar (c : Char) : Bool := isWordStart c || c.isDigit

def isWord : List Char → Bool
  | [] => false
  | c :: cs => isWordStart c && cs.all isWordChar

/-- A `#` in front marks a node whose children form an array. -/
def isSegment : List Char → Bool
  | '#' :: cs => isWord cs
  | cs => isWord cs

def isNode (s : String) : Bool := s.toList == ['$'] || isSegment s.toList

/-- The stretches between the dots. -/
def segments (s : String) : List (List Char) := Text.pieces '.' s.toList

def isAbsolute (s : String) : Bool := s.toList.head? == some '$'

/-- An absolute path below the root: `$` and at least one segment. -/
def isPath (s : String) : Bool :=
  match segments s with
  | ['$'] :: seg :: segs => (seg :: segs).all isSegment
  | _ => false

def isRelativePath (s : String) : Bool := (segments s).all isSegment

/-- Where values can be put: the root, an absolute path or a relative one. -/
def isAddress (s : String) : Bool :=
  if isAbsolute s then s.toList == ['$'] || isPath s else isRelativePath s

def isArray (s : String) : Bool := s.toList.head? == some '#'

end SpanTree.Name
