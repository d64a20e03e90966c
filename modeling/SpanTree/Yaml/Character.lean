/-!
# Characters of YAML texts

Classes of characters, and a text with the place in it. A line break is a carriage return, a line
feed, both together, or one of U+0085, U+2028 and U+2029.
-/

namespace SpanTree.Yaml

/-- The characters that a text may hold. -/
def isAllowed (c : Char) : Bool :=
  let n := c.toNat
  n == 0x09 || n == 0x0A || n == 0x0D || (0x20 ≤ n && n ≤ 0x7E) || n == 0x85
    || (0xA0 ≤ n && n ≤ 0xD7FF) || (0xE000 ≤ n && n ≤ 0xFFFD) || (0x10000 ≤ n && n ≤ 0x10FFFF)

def isBlank (c : Char) : Bool := c = ' ' || c = '\t'

def isBreak (c : Char) : Bool :=
  c = '\r' || c = '\n' || c.toNat == 0x85 || c.toNat == 0x2028 || c.toNat == 0x2029

def isByteOrderMark (c : Char) : Bool := c.toNat == 0xFEFF

def isWordChar (c : Char) : Bool := c.isAlphanum || c = '_' || c = '-'

/-- The end of the text counts as a break. -/
def isBlankOrEnd : Option Char → Bool
  | none => true
  | some c => isBlank c || isBreak c

/-- A break as it stands in a scalar: the two separators are kept, all others are line feeds. -/
def breakChar (c : Char) : Char := if c.toNat == 0x2028 || c.toNat == 0x2029 then c else '\n'

/-- What is left of a text, and where it begins. -/
structure Place where
  rest : List Char
  index : Nat
  line : Nat
  column : Nat
deriving DecidableEq, Repr

namespace Place

def ofChars (cs : List Char) : Place := ⟨cs, 0, 0, 0⟩

def peek (p : Place) : Option Char := p.rest.head?

def peekAt (p : Place) (k : Nat) : Option Char := p.rest[k]?

def isAtEnd (p : Place) : Bool := p.rest.isEmpty

/-- Behind `k` characters of one line. -/
def skip (p : Place) (k : Nat) : Place :=
  { p with rest := p.rest.drop k, index := p.index + k, column := p.column + k }

/-- Behind a line break. -/
def skipBreak (p : Place) : Place :=
  match p.rest with
  | '\r' :: '\n' :: cs => ⟨cs, p.index + 2, p.line + 1, 0⟩
  | _ :: cs => ⟨cs, p.index + 1, p.line + 1, 0⟩
  | [] => p

/-- The characters at the front that satisfy the predicate, and the place behind them. -/
def takeWhile (p : Place) (f : Char → Bool) : List Char × Place :=
  let cs := p.rest.takeWhile f
  (cs, p.skip cs.length)

/-- A marker of three characters stands at the beginning of a line, with a blank behind it. -/
def isMarker (p : Place) (c : Char) : Bool :=
  p.column == 0 && p.rest.take 3 == [c, c, c] && isBlankOrEnd (p.peekAt 3)

def isDocumentMarker (p : Place) : Bool := p.isMarker '-' || p.isMarker '.'

end Place

end SpanTree.Yaml
