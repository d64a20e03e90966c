/-!
# Character classes

A class is built from ranges with the set operations. Paths are ASCII, and so are the members by
which the named classes are given here; complements and wide ranges reach beyond ASCII all the
same.

`folded` is the class of all characters that differ from a member at most in case. Two characters
outside ASCII have an ASCII letter as their lower case: the long s and the Kelvin sign.
-/

namespace SpanTree

inductive CharClass
  | none
  | range (lo hi : Char)
  | either (a b : CharClass)
  | both (a b : CharClass)
  | butNot (a b : CharClass)
  | oneOnly (a b : CharClass)
  | not (a : CharClass)
  | folded (a : CharClass)
deriving DecidableEq, Repr

namespace CharClass

def single (c : Char) : CharClass := range c c

/-- The character and those that differ from it in case only. -/
def caseVariants (c : Char) : List Char :=
  [c, c.toLower, c.toUpper]
    ++ (if c.toLower = 'k' then [Char.ofNat 0x212A] else [])
    ++ (if c.toLower = 's' then [Char.ofNat 0x17F] else [])

def has : CharClass → Char → Bool
  | none, _ => false
  | range lo hi, c => lo ≤ c && c ≤ hi
  | either a b, c => a.has c || b.has c
  | both a b, c => a.has c && b.has c
  | butNot a b, c => a.has c && !b.has c
  | oneOnly a b, c => a.has c != b.has c
  | not a, c => !a.has c
  | folded a, c => (caseVariants c).any a.has

def ofRanges (rs : List (Char × Char)) : CharClass :=
  rs.foldr (fun (lo, hi) a => if a = none then range lo hi else either (range lo hi) a) none

def ofChars (cs : List Char) : CharClass := ofRanges (cs.map fun c => (c, c))

def any : CharClass := range (Char.ofNat 0) (Char.ofNat 0x10FFFF)

def upper : CharClass := range 'A' 'Z'

def lower : CharClass := range 'a' 'z'

def letter : CharClass := either upper lower

def digit : CharClass := range '0' '9'

def word : CharClass := ofRanges [('0', '9'), ('A', 'Z'), ('_', '_'), ('a', 'z')]

/-- Tab to carriage return and the space. -/
def space : CharClass := ofRanges [('\t', '\r'), (' ', ' ')]

def ascii : CharClass := range (Char.ofNat 0) (Char.ofNat 0x7F)

/-- A byte beyond ASCII belongs to the class. -/
def reachesHighBytes (a : CharClass) : Bool :=
  (List.range 128).any fun i => a.has (Char.ofNat (128 + i))

/-- The classes that are written `[:name:]` inside brackets. -/
def posix? (name : String) : Option CharClass :=
  match name with
  | "alnum" => some (either digit letter)
  | "alpha" => some letter
  | "ascii" => some ascii
  | "blank" => some (ofChars ['\t', ' '])
  | "cntrl" => some (ofRanges [(Char.ofNat 0, Char.ofNat 0x1F), (Char.ofNat 0x7F, Char.ofNat 0x7F)])
  | "digit" => some digit
  | "graph" => some (range '!' '~')
  | "lower" => some lower
  | "print" => some (range ' ' '~')
  | "punct" => some (ofRanges [('!', '/'), (':', '@'), ('[', '\x60'), ('\x7b', '~')])
  | "space" => some space
  | "upper" => some upper
  | "word" => some word
  | "xdigit" => some (ofRanges [('0', '9'), ('A', 'F'), ('a', 'f')])
  | _ => Option.none

end CharClass

end SpanTree
