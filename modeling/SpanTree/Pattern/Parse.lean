import SpanTree.Pattern.Basic
import SpanTree.Pattern.Property
import SpanTree.Text.Blank

/-!
# Reading patterns

The usual notation: alternatives, groups with or without a name, flags for the rest of a group or
for a group of its own, the repetition operators with an optional `?` behind them, bracketed
classes with set operations, escapes, and looks.

The text of a pattern is read from left to right; every step takes at least one character, so its
length bounds the number of steps.
-/

namespace SpanTree.Pattern

structure Flags where
  caseless : Bool := false
  multiLine : Bool := false
  dotAll : Bool := false
  swapGreed : Bool := false
  crlf : Bool := false
  unicode : Bool := true
  verbose : Bool := false
deriving DecidableEq, Repr

/-- What the reader knows besides the text that is left. -/
structure Scope where
  flags : Flags
  /-- The group names used so far. -/
  names : List String

/-- What was read, and the text after it. -/
abbrev Parsed (α : Type) := α × List Char

/-! ## Blanks and numbers -/

/-- Skips white space and comments, which run to the end of the line. -/
def skipVerbose : Bool → List Char → List Char
  | _, [] => []
  | true, c :: cs => if c = '\n' then skipVerbose false cs else skipVerbose true cs
  | false, c :: cs =>
    if Text.isBlankChar c then skipVerbose false cs
    else if c = '#' then skipVerbose true cs
    else c :: cs

def Flags.skip (f : Flags) (cs : List Char) : List Char :=
  if f.verbose then skipVerbose false cs else cs

def decimal (ds : List Char) : Nat := ds.foldl (fun n d => 10 * n + (d.toNat - 48)) 0

/-- A number below 2^32, with blanks around it. -/
def number (cs : List Char) : Except String (Parsed Nat) :=
  let cs := cs.dropWhile Text.isBlankChar
  let ds := cs.takeWhile Char.isDigit
  let rest := (cs.dropWhile Char.isDigit).dropWhile Text.isBlankChar
  if ds.isEmpty then .error "repetition count expected"
  else if decimal ds ≤ 0xFFFFFFFF then .ok (decimal ds, rest)
  else .error "repetition count too large"

/-! ## Escapes -/

/-- One element of a pattern or of a bracketed class. -/
inductive Atom
  | literal (c : Char)
  /-- A byte given by two hexadecimal digits. -/
  | byte (c : Char)
  | cls (a : CharClass)
  | look (l : Look)
deriving DecidableEq, Repr

def hexDigits? (ds : List Char) : Option Nat :=
  ds.foldl
    (fun n? d => n?.bind fun n =>
      if d.isDigit then some (16 * n + (d.toNat - 48))
      else if 'a' ≤ d.toLower ∧ d.toLower ≤ 'f' then some (16 * n + (d.toLower.toNat - 87))
      else none)
    (some 0)

def codePoint? (n : Nat) : Option Char := if n.isValidChar then some (Char.ofNat n) else none

/-- The digits after `\x`, `\u` or `\U`: a fixed number of them, or any in braces. -/
def hexEscape (width : Nat) (cs : List Char) : Except String (Parsed Atom) :=
  match cs with
  | '\x7b' :: cs =>
    let ds := cs.takeWhile (· != '\x7d')
    match cs.dropWhile (· != '\x7d') with
    | [] => .error "unclosed hexadecimal escape"
    | _ :: rest =>
      if ds.isEmpty then .error "empty hexadecimal escape"
      else
        match (hexDigits? ds).bind codePoint? with
        | some c => .ok (.literal c, rest)
        | none => .error "invalid hexadecimal escape"
  | cs =>
    let ds := cs.take width
    if ds.length < width then .error "incomplete hexadecimal escape"
    else
      match (hexDigits? ds).bind codePoint? with
      | some c => .ok (if width = 2 then .byte c else .literal c, cs.drop width)
      | none => .error "invalid hexadecimal escape"

/-- The text before the first `!=`, and the text after it. -/
def splitNotEqual : List Char → Option (List Char × List Char)
  | [] => none
  | '!' :: '=' :: cs => some ([], cs)
  | c :: cs => (splitNotEqual cs).map fun (a, b) => (c :: a, b)

/-- A property in braces: a name, or a kind and a value joined by `=`, `:` or `!=`. -/
def namedProperty? (name : List Char) : Option CharClass :=
  match splitNotEqual name with
  | some (kind, value) => (CharClass.propertyValue? kind value).map .not
  | none =>
    let isSign := fun c : Char => c = ':' || c = '='
    let sign := if name.contains ':' then ':' else '='
    if name.any isSign then
      CharClass.propertyValue? (name.takeWhile (· != sign)) ((name.dropWhile (· != sign)).drop 1)
    else CharClass.property? name

def propertyEscape (f : Flags) (negated : Bool) (cs : List Char) : Except String (Parsed Atom) :=
  let finish := fun (a? : Option CharClass) (rest : List Char) =>
    match a? with
    | none => (.error "unknown property" : Except String (Parsed Atom))
    | some a =>
      if f.unicode then
        let a := if f.caseless then .folded a else a
        .ok (.cls (if negated then .not a else a), rest)
      else .error "property without Unicode"
  match cs with
  | [] => .error "incomplete escape"
  | '\x7b' :: cs =>
    match cs.dropWhile (· != '\x7d') with
    | [] => .error "unclosed property"
    | _ :: rest => finish (namedProperty? (cs.takeWhile (· != '\x7d'))) rest
  | '\\' :: _ => .error "property expected"
  | c :: cs => finish (CharClass.property? [c]) cs

/-- Characters that mean themselves behind a backslash. -/
def isEscapable (c : Char) : Bool :=
  c.toNat < 0x80 && !c.isAlphanum && c != '<' && c != '>'

/-- The looks that are written `\b` and a name in braces. A brace that does not begin a name is left
for a repetition. -/
def braceLook (cs : List Char) : Except String (Parsed Look) :=
  let isNameChar := fun c : Char => c.isAlpha || c = '-'
  match cs with
  | '\x7b' :: cs' =>
    match cs' with
    | [] => .error "unclosed word boundary"
    | c :: _ =>
      if isNameChar c then
        match cs'.dropWhile isNameChar with
        | '\x7d' :: rest =>
          match String.ofList (cs'.takeWhile isNameChar) with
          | "start" => .ok (.wordStart, rest)
          | "end" => .ok (.wordEnd, rest)
          | "start-half" => .ok (.wordStartHalf, rest)
          | "end-half" => .ok (.wordEndHalf, rest)
          | _ => .error "unknown word boundary"
        | _ => .error "unclosed word boundary"
      else .ok (.wordBoundary, cs)
  | cs => .ok (.wordBoundary, cs)

/-- What follows a backslash. -/
def escape (f : Flags) : List Char → Except String (Parsed Atom)
  | [] => .error "incomplete escape"
  | c :: cs =>
    let cls := fun (a : CharClass) => (.ok (.cls a, cs) : Except String (Parsed Atom))
    let lit := fun (n : Nat) => (.ok (.literal (Char.ofNat n), cs) : Except String (Parsed Atom))
    if c = 'x' then hexEscape 2 (f.skip cs)
    else if c = 'u' then hexEscape 4 (f.skip cs)
    else if c = 'U' then hexEscape 8 (f.skip cs)
    else if c = 'p' then propertyEscape f false (f.skip cs)
    else if c = 'P' then propertyEscape f true (f.skip cs)
    else if c = 'd' then cls .digit
    else if c = 'D' then cls (.not .digit)
    else if c = 's' then cls .space
    else if c = 'S' then cls (.not .space)
    else if c = 'w' then cls .word
    else if c = 'W' then cls (.not .word)
    else if c = 'a' then lit 0x07
    else if c = 'f' then lit 0x0C
    else if c = 't' then lit 0x09
    else if c = 'n' then lit 0x0A
    else if c = 'r' then lit 0x0D
    else if c = 'v' then lit 0x0B
    else if c = 'A' then .ok (.look .textStart, cs)
    else if c = 'z' then .ok (.look .textEnd, cs)
    else if c = 'b' then (braceLook cs).map fun (l, rest) => (.look l, rest)
    else if c = 'B' then .ok (.look .noWordBoundary, cs)
    else if c = '<' then .ok (.look .wordStart, cs)
    else if c = '>' then .ok (.look .wordEnd, cs)
    else if isEscapable c then .ok (.literal c, cs)
    else .error "unrecognized escape"

/-! ## Bracketed classes -/

inductive SetOp
  | both
  | butNot
  | oneOnly
deriving DecidableEq, Repr

def SetOp.apply : SetOp → CharClass → CharClass → CharClass
  | both, a, b => .both a b
  | butNot, a, b => .butNot a b
  | oneOnly, a, b => .oneOnly a b

def fold (f : Flags) (a : CharClass) : CharClass := if f.caseless then .folded a else a

/-- Without Unicode a literal stands for a byte below 128. -/
def classLiteral (f : Flags) (c : Char) (isByte : Bool) : Except String Char :=
  if f.unicode || c.toNat < 0x80 || isByte then .ok c else .error "character without Unicode"

def Atom.endpoint (f : Flags) : Atom → Except String Char
  | literal c => classLiteral f c false
  | byte c => classLiteral f c true
  | cls _ | look _ => .error "class in a range"

def Atom.member (f : Flags) : Atom → Except String CharClass
  | literal c => (classLiteral f c false).map fun c => fold f (.single c)
  | byte c => (classLiteral f c true).map fun c => fold f (.single c)
  | cls a => .ok a
  | look _ => .error "look in a class"

def classAtom (f : Flags) : List Char → Except String (Parsed Atom)
  | [] => .error "unclosed class"
  | '\\' :: cs => escape f cs
  | c :: cs => .ok (.literal c, cs)

/-- One member of a class: an atom, or a range between two of them. A `-` before `]` or before
another `-` makes no range. -/
def classItem (f : Flags) (cs : List Char) : Except String (Parsed CharClass) := do
  let (first, rest) ← classAtom f cs
  let rest := f.skip rest
  match rest with
  | [] => .error "unclosed class"
  | '-' :: after =>
    let next := (f.skip after).head?
    if next = some ']' ∨ next = some '-' then return (← first.member f, rest)
    else
      let (last, rest) ← classAtom f (f.skip after)
      let lo ← first.endpoint f
      let hi ← last.endpoint f
      if lo ≤ hi then return (fold f (.range lo hi), rest) else .error "empty range"
  | _ => return (← first.member f, rest)

/-- `[:name:]` or `[:^name:]`, with the bracket already taken; anything else is no named class. -/
def posixClass? (f : Flags) (cs : List Char) : Option (CharClass × List Char) :=
  match cs with
  | ':' :: cs =>
    let (negated, cs) := match cs with
      | '^' :: cs => (true, cs)
      | cs => (false, cs)
    match cs.dropWhile (· != ':') with
    | ':' :: ']' :: rest =>
      (CharClass.posix? (String.ofList (cs.takeWhile (· != ':')))).map fun a =>
        (if negated then .not (fold f a) else fold f a, rest)
    | _ => none
  | _ => none

/-- The beginning of a class, with the bracket already taken: whether it is negated, and the literal
`-` and `]` that may stand at its front. -/
def classOpen (f : Flags) (cs : List Char) : Except String (Parsed (Bool × CharClass)) :=
  let cs := f.skip cs
  let (negated, cs) := match cs with
    | '^' :: cs => (true, f.skip cs)
    | cs => (false, cs)
  let rec dashes (any : Bool) (fuel : Nat) (cs : List Char) : Bool × List Char :=
    match fuel, cs with
    | fuel + 1, '-' :: cs => dashes true fuel (f.skip cs)
    | _, cs => (any, cs)
  let (any, cs) := dashes false cs.length cs
  let front := if any then CharClass.single '-' else .none
  match any, cs with
  | _, [] => .error "unclosed class"
  | false, ']' :: cs =>
    let rest := f.skip cs
    if rest.isEmpty then .error "unclosed class" else .ok ((negated, .single ']'), rest)
  | _, cs => .ok ((negated, front), cs)

/-- The class joined with one more member. -/
def join (a b : CharClass) : CharClass := if a = .none then b else .either a b

def closeOp (pending : Option (SetOp × CharClass)) (a : CharClass) : CharClass :=
  match pending with
  | some (op, lhs) => op.apply lhs a
  | none => a

/-- A class up to its closing bracket. Set operations are taken from left to right. -/
def classBody (f : Flags) : Nat → Option (SetOp × CharClass) → CharClass → List Char →
    Except String (Parsed CharClass)
  | 0, _, _, _ => .error "unclosed class"
  | fuel + 1, pending, a, cs =>
    match f.skip cs with
    | [] => .error "unclosed class"
    | '[' :: cs =>
      match posixClass? f cs with
      | some (b, rest) => classBody f fuel pending (join a b) rest
      | none => do
        let ((negated, front), rest) ← classOpen f cs
        let (b, rest) ← classBody f fuel none front rest
        classBody f fuel pending (join a (if negated then .not b else b)) rest
    | ']' :: cs => .ok (closeOp pending a, cs)
    | '&' :: '&' :: cs => classBody f fuel (some (.both, closeOp pending a)) .none cs
    | '-' :: '-' :: cs => classBody f fuel (some (.butNot, closeOp pending a)) .none cs
    | '~' :: '~' :: cs => classBody f fuel (some (.oneOnly, closeOp pending a)) .none cs
    | cs => do
      let (b, rest) ← classItem f cs
      classBody f fuel pending (join a b) rest

/-- Without Unicode a class may hold no byte that is no character of its own. -/
def classPattern (f : Flags) (a : CharClass) : Except String Pattern :=
  if f.unicode || !a.reachesHighBytes then .ok (.char a) else .error "class matches invalid UTF-8"

def bracketed (f : Flags) (cs : List Char) : Except String (Parsed Pattern) := do
  let ((negated, front), rest) ← classOpen f cs
  let (a, rest) ← classBody f (cs.length + 1) none front rest
  return (← classPattern f (if negated then .not a else a), rest)

/-! ## Atoms -/

def Atom.pattern (f : Flags) : Atom → Except String Pattern
  | literal c => .ok (.char (fold f (.single c)))
  | byte c =>
    if f.unicode || c.toNat < 0x80 then .ok (.char (fold f (.single c)))
    else .error "byte matches invalid UTF-8"
  | cls a => classPattern f a
  | look l => .ok (.look l)

/-- A dot is any character, and unless the flags say so no line end. -/
def dot (f : Flags) : Except String Pattern :=
  if !f.unicode then .error "dot matches invalid UTF-8"
  else if f.dotAll then .ok (.char .any)
  else if f.crlf then .ok (.char (.not (.ofChars ['\n', '\r'])))
  else .ok (.char (.not (.single '\n')))

def atom (f : Flags) (c : Char) (cs : List Char) : Except String (Parsed Pattern) :=
  if c = '\\' then do
    let (a, rest) ← escape f cs
    return (← a.pattern f, rest)
  else if c = '.' then (dot f).map fun p => (p, cs)
  else if c = '^' then .ok (.look (if f.multiLine then .lineStart else .textStart), cs)
  else if c = '$' then .ok (.look (if f.multiLine then .lineEnd else .textEnd), cs)
  else .ok (.char (fold f (.single c)), cs)

/-! ## Groups and flags -/

/-- How a group begins. -/
inductive Opening
  /-- Flags for the rest of the group in which they stand. -/
  | setFlags (f : Flags)
  | group (s : Scope)

def Flags.set (f : Flags) (on : Bool) : Char → Option Flags
  | 'i' => some { f with caseless := on }
  | 'm' => some { f with multiLine := on }
  | 's' => some { f with dotAll := on }
  | 'U' => some { f with swapGreed := on }
  | 'R' => some { f with crlf := on }
  | 'u' => some { f with unicode := on }
  | 'x' => some { f with verbose := on }
  | _ => none

/-- Flag letters up to `:` or `)`, each at most once, with at most one `-`, which turns off what
follows it. -/
def flagLetters (f : Flags) (seen : List Char) (on : Bool) :
    List Char → Except String (Parsed (Flags × List Char))
  | [] => .error "unclosed flags"
  | c :: cs =>
    if c = ':' ∨ c = ')' then
      if seen.head? = some '-' then .error "dangling flag negation" else .ok ((f, seen), c :: cs)
    else if seen.contains c then .error "repeated flag"
    else if c = '-' then flagLetters f (c :: seen) false cs
    else
      match f.set on c with
      | some f => flagLetters f (c :: seen) on cs
      | none => .error "unrecognized flag"

def isNameStart (c : Char) : Bool := c = '_' || c.isAlpha || 0x80 ≤ c.toNat

def isNameChar (c : Char) : Bool :=
  isNameStart c || c.isDigit || c = '.' || c = '[' || c = ']'

def groupName (s : Scope) (cs : List Char) : Except String (Parsed Scope) :=
  let name := cs.takeWhile (· != '>')
  match name, cs.dropWhile (· != '>') with
  | _, [] => .error "unclosed group name"
  | [], _ => .error "empty group name"
  | c :: cs, _ :: rest =>
    if !(isNameStart c && cs.all isNameChar) then .error "invalid group name"
    else if s.names.contains (String.ofList (c :: cs)) then .error "repeated group name"
    else .ok ({ s with names := String.ofList (c :: cs) :: s.names }, rest)

/-- What follows an opening parenthesis. -/
def opening (s : Scope) (cs : List Char) : Except String (Parsed Opening) :=
  match s.flags.skip cs with
  | '?' :: '=' :: _ | '?' :: '!' :: _ | '?' :: '<' :: '=' :: _ | '?' :: '<' :: '!' :: _ =>
    .error "look-around is not supported"
  | '?' :: 'P' :: '<' :: cs | '?' :: '<' :: cs =>
    (groupName s cs).map fun (s, rest) => (.group s, rest)
  | '?' :: cs =>
    match flagLetters s.flags [] true cs with
    | .error e => .error e
    | .ok ((f, seen), rest) =>
      match rest with
      | ')' :: rest => if seen.isEmpty then .error "empty flags" else .ok (.setFlags f, rest)
      | _ => .ok (.group { s with flags := f }, rest.drop 1)
  | cs => .ok (.group s, cs)

/-! ## Repetition -/

/-- The bounds of a repetition: the least number, and how many more at most. -/
abbrev Bounds := Nat × Option Nat

def counted (f : Flags) (cs : List Char) : Except String (Parsed Bounds) :=
  let close := fun (b : Bounds) (rest : List Char) =>
    match rest with
    | '\x7d' :: rest => (.ok (b, rest) : Except String (Parsed Bounds))
    | _ => .error "unclosed repetition"
  match f.skip cs with
  | [] => .error "unclosed repetition"
  | cs => do
    let (least, rest) ← number cs
    match f.skip rest with
    | ',' :: rest =>
      match f.skip rest with
      | '\x7d' :: rest => close (least, none) ('\x7d' :: rest)
      | rest =>
        let (most, rest) ← number rest
        let (b, rest) ← close (least, some (most - least)) (f.skip rest)
        if least ≤ most then return (b, rest) else .error "invalid repetition"
    | rest => close (least, some 0) rest

/-- The operators behind an element, and the `?` that may follow each of them. -/
def repetition? (f : Flags) (c : Char) (cs : List Char) : Option (Except String (Parsed Bounds)) :=
  let lazyMark := fun (rest : List Char) =>
    match rest with
    | '?' :: rest => rest
    | rest => rest
  match c with
  | '*' => some (.ok ((0, none), lazyMark cs))
  | '+' => some (.ok ((1, none), lazyMark cs))
  | '?' => some (.ok ((0, some 1), lazyMark cs))
  | '\x7b' => some ((counted f cs).map fun (b, rest) => (b, lazyMark (f.skip rest)))
  | _ => none

/-! ## Sequences and alternatives -/

/-- The elements of a sequence; flags are no element that can be repeated. -/
inductive Element
  | flags
  | pattern (p : Pattern)

/-- The pattern of a sequence whose last element stands first. -/
def sequence (es : List Element) : Pattern :=
  es.foldl
    (fun q e =>
      match e with
      | .flags => q
      | .pattern p => if q = .empty then p else .seq p q)
    .empty

/-- The alternatives of a body, the last one first and each with its last element first. -/
abbrev Branches := List (List Element)

def choice : Branches → Pattern
  | [] => .char .none
  | es :: before =>
    if before.isEmpty then sequence es else .alt (choice before) (sequence es)

/-- Reads up to the end of the text or to the parenthesis that closes the group. The branches
`before` are read already, and so are the elements `es` of the one that is being read. -/
def body : Nat → (depth : Nat) → Scope → (before : Branches) → List Element → List Char →
    Except String (Parsed (Branches × Scope))
  | 0, _, _, _, _, _ => .error "pattern too long"
  | fuel + 1, depth, s, before, es, cs =>
    match s.flags.skip cs with
    | [] =>
      if depth = 0 then .ok ((es :: before, s), []) else .error "unclosed group"
    | '(' :: cs => do
      match ← opening s cs with
      | (.setFlags f, rest) => body fuel depth { s with flags := f } before (.flags :: es) rest
      | (.group inner, rest) =>
        let ((bs, inner), rest) ← body fuel (depth + 1) inner [] [] rest
        body fuel depth { s with names := inner.names } before (.pattern (choice bs) :: es) rest
    | ')' :: cs =>
      if depth = 0 then .error "unopened group" else .ok ((es :: before, s), cs)
    | '|' :: cs => body fuel depth s (es :: before) [] cs
    | '[' :: cs => do
      let (p, rest) ← bracketed s.flags cs
      body fuel depth s before (.pattern p :: es) rest
    | c :: cs => do
      match repetition? s.flags c cs with
      | some bounds =>
        match es with
        | .pattern p :: es =>
          let ((least, extra), rest) ← bounds
          body fuel depth s before (.pattern (.many p least extra) :: es) rest
        | _ => .error "repetition operator without an element"
      | none =>
        let (p, rest) ← atom s.flags c cs
        body fuel depth s before (.pattern p :: es) rest

/-- The pattern that a text denotes, unless the text is malformed. -/
def parse (cs : List Char) : Except String Pattern :=
  (body (cs.length + 1) 0 ⟨{}, []⟩ [] [] cs).map fun out => choice out.1.1

end SpanTree.Pattern
